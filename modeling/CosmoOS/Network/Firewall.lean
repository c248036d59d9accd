import CosmoOS.Lib.Transition
import Mathlib.Data.Fin.VecNotation
import Mathlib.Logic.Function.Basic

/-!
# The firewall's rules

A policy object is a guest's or the host's: an ordered list of rules, of which the first that
matches a datagram decides it, and a default for each direction.  The host's own sends pass the
OUTPUT chain, and to keep them off the lock a flag says that the chain has nothing to say.

The flag is recomputed by some of the control calls only.  It is right all the same: any other
leaves the host's object alone, since a search for a guest stops short of the host's slot
(`guestFind_ne`).  And a rule whose direction is ANY matches forwarded datagrams only
(`ruleMatches_output`).
-/

namespace CosmoOS.Network.Firewall

open Function Lib

def rulesPerGuest : ℕ := 32
def icmpTypeAny : UInt16 := 0xffff
def hostGuestIp : UInt32 := 0
def drop : UInt8 := 0
def accept : UInt8 := 1
def dirAny : UInt8 := 0
def dirToUplink : UInt8 := 1
def dirToGuest : UInt8 := 2
def dirToHost : UInt8 := 3
def dirFromUplink : UInt8 := 4
def dirOutput : UInt8 := 5
def scopeAny : UInt8 := 0
def scopeWorld : UInt8 := 1
def scopeGuest : UInt8 := 2
def ipprotoIcmp : UInt8 := 1
def ipprotoTcp : UInt8 := 6
def ipprotoUdp : UInt8 := 17
def icmpEchoReply : UInt8 := 0
def icmpEcho : UInt8 := 8
def netifMasquerade : UInt32 := 64

inductive Errno
  | enoent
  | eexist
  | einval
  | enospc
  deriving DecidableEq

structure Rule where
  direction : UInt8
  proto : UInt8
  dstPrefix : UInt8
  verdict : UInt8
  dstIp : UInt32
  dstPort : UInt16
  srcPrefix : UInt8
  scope : UInt8
  srcIp : UInt32
  deriving DecidableEq

/-- A policy object.  The defaults are those of TO_UPLINK, TO_GUEST, TO_HOST, FROM_UPLINK and
OUTPUT. -/
structure Guest where
  attached : Bool := false
  ip : UInt32 := 0
  gateway : UInt32 := 0
  policy : Fin 5 → UInt8 := fun _ => 0
  rules : List Rule := []

def hostShipped : Guest :=
  { attached := true, ip := hostGuestIp, policy := ![0, 0, 0, accept, accept] }

/-- The host's slot, after those of the guests. -/
def host : Fin 9 := 8

/-- The guests with the host's object, and the flag that the OUTPUT chain has nothing to say. -/
structure Config where
  guests : Fin 9 → Guest := update (fun _ => {}) host hostShipped
  outFast : Bool := true

def dirSlot (dir : UInt8) : Fin 5 :=
  if dir = dirToGuest then 1 else if dir = dirToHost then 2
  else if dir = dirFromUplink then 3 else if dir = dirOutput then 4 else 0

/-! ## The control calls -/

section

variable (st : Config) (outFlags : UInt32) (m : Option Header)

/-- A datagram's guest, by its source address. -/
def guestFind (ip : UInt32) : Option (Fin 9) :=
  (List.finRange 9).find? fun i => i < host && (st.guests i).attached && (st.guests i).ip == ip

def policyFind (ip : UInt32) : Option (Fin 9) :=
  if ip = hostGuestIp then some host else guestFind st ip

def nothingToSay (g : Guest) : Bool :=
  g.policy 4 == accept && g.rules.all fun r => r.direction != dirOutput

def outFastUpdate : Config := { st with outFast := nothingToSay (st.guests host) }

/-- The guest as attached: the defaults, and the rules that keep the tap's services reachable. -/
def guestReset (ip gateway : UInt32) : Guest where
  attached := true
  ip := ip
  gateway := gateway
  policy := ![accept, drop, drop, 0, 0]
  rules := [⟨dirToHost, ipprotoUdp, 32, accept, gateway, 53, 0, scopeAny, 0⟩,
    ⟨dirToHost, ipprotoIcmp, 32, accept, gateway, icmpEcho.toUInt16, 0, scopeAny, 0⟩]

def guestAttach (guestIp gatewayIp : UInt32) : Config :=
  match (guestFind st guestIp).or
      ((List.finRange 9).find? fun i => i < host && !(st.guests i).attached) with
  | none => st
  | some i => { st with guests := update st.guests i (guestReset guestIp gatewayIp) }

def guestPurge (guestIp : UInt32) : Config :=
  match guestFind st guestIp with
  | none => st
  | some i => { st with guests := update st.guests i {} }

def ruleValid (r : Rule) (hostScoped : Bool) : Bool :=
  if r.direction > dirOutput || r.verdict > accept || r.dstPrefix > 32 ||
    r.srcPrefix > 32 then false
  else if r.scope > scopeGuest then false
  else if (r.direction == dirFromUplink || r.direction == dirOutput) != hostScoped then false
  else if r.scope != scopeAny && r.direction != dirOutput then false
  else if r.proto != 0 && r.proto != ipprotoTcp && r.proto != ipprotoUdp && r.proto != ipprotoIcmp
    then false
  else if r.proto == ipprotoIcmp && r.dstPort > 255 && r.dstPort != icmpTypeAny then false
  else if r.dstPrefix == 0 && r.dstIp != 0 then false
  else if r.srcPrefix == 0 && r.srcIp != 0 then false
  else hostScoped || r.srcPrefix == 0

def ruleAdd (guestIp : UInt32) (atIndex : ℕ) (rule : Rule) : Except Errno Config :=
  if !ruleValid rule (guestIp == hostGuestIp) then .error .einval
  else match policyFind st guestIp with
    | none => .error .enoent
    | some gi =>
      let g := st.guests gi
      if rule ∈ g.rules then .error .eexist
      else if g.rules.length ≥ rulesPerGuest then .error .enospc
      else
        let g' := { g with rules := g.rules.insertIdx (min atIndex g.rules.length) rule }
        .ok (outFastUpdate { st with guests := update st.guests gi g' })

def ruleDel (guestIp : UInt32) (rule : Rule) : Except Errno Config :=
  match policyFind st guestIp with
  | none => .error .enoent
  | some gi =>
    let g := st.guests gi
    if rule ∈ g.rules then
      .ok (outFastUpdate
        { st with guests := update st.guests gi { g with rules := g.rules.erase rule } })
    else .error .enoent

def policySet (guestIp : UInt32) (direction verdict : UInt8) : Except Errno Config :=
  if verdict > accept then .error .einval
  else
    let owned := if guestIp = hostGuestIp then direction == dirFromUplink || direction == dirOutput
      else direction ≥ dirToUplink && direction ≤ dirToHost
    if !owned then .error .einval
    else match policyFind st guestIp with
      | none => .error .enoent
      | some gi =>
        let g := st.guests gi
        let g' := { g with policy := update g.policy (dirSlot direction) verdict }
        .ok (outFastUpdate { st with guests := update st.guests gi g' })

/-- Every attached guest as attached, the host's object as shipped. -/
def flush : Config :=
  let reset (i : Fin 9) : Guest :=
    let g := st.guests i
    if g.attached then guestReset g.ip g.gateway else g
  outFastUpdate { st with guests := update reset host hostShipped }

/-! ## The verdict -/

structure Key where
  proto : UInt8
  src : UInt32
  dst : UInt32

/-- What a verdict needs of the transport header. -/
structure View where
  ok : Bool := false
  ports : Bool := false
  sport : UInt16 := 0
  dport : UInt16 := 0
  tcpFlags : UInt8 := 0
  icmpType : UInt8 := 0
  icmpId : UInt16 := 0

/-- The fields at the places of a transport header, where the datagram is long enough. -/
structure Header where
  sport : UInt16
  dport : UInt16
  tcpFlags : UInt8
  icmpType : UInt8
  icmpId : UInt16

def l4Read (proto : UInt8) : View :=
  if proto ≠ ipprotoTcp ∧ proto ≠ ipprotoUdp ∧ proto ≠ ipprotoIcmp then {}
  else match m with
    | none => {}
    | some w =>
      if proto = ipprotoIcmp then { ok := true, icmpType := w.icmpType, icmpId := w.icmpId }
      else
        { ok := true, ports := true, sport := w.sport, dport := w.dport,
          tcpFlags := if proto = ipprotoTcp then w.tcpFlags else 0 }

def htonl (v : UInt32) : UInt32 :=
  ((v &&& 0xff) <<< 24) ||| ((v &&& 0xff00) <<< 8) ||| ((v >>> 8) &&& (0xff00 : UInt32)) |||
    (v >>> 24)

def prefixMatches (addr net : UInt32) (len : UInt8) : Bool :=
  if len = 0 then true
  else
    let mask := htonl (if len = 32 then 0xffffffff else
      (0xffffffff >>> len.toUInt32) ^^^ 0xffffffff)
    ((addr ^^^ net) &&& mask) == 0

def ruleMatches (r : Rule) (dir : UInt8) (k : Key) (v : View) (scope : UInt8) : Bool :=
  let dirOk := if r.direction = dirAny then dir == dirToUplink || dir == dirToGuest
    else r.direction == dir
  if r.scope ≠ scopeAny ∧ r.scope ≠ scope then false
  else if !dirOk then false
  else if r.proto ≠ 0 ∧ r.proto ≠ k.proto then false
  else if !prefixMatches k.dst r.dstIp r.dstPrefix || !prefixMatches k.src r.srcIp r.srcPrefix
    then false
  else if r.proto = ipprotoIcmp then
    v.ok && (r.dstPort == icmpTypeAny || v.icmpType.toUInt16 == r.dstPort)
  else r.dstPort == 0 || (v.ports && v.dport == r.dstPort)

/-- The verdict of the first rule that matches, or the default; and whether a rule decided. -/
def judge (g : Guest) (dir : UInt8) (k : Key) (v : View) (scope : UInt8) : UInt8 × Bool :=
  match g.rules.find? fun r => ruleMatches r dir k v scope with
  | some r => (r.verdict, true)
  | none => (g.policy (dirSlot dir), false)

/-- The statistic a verdict is counted in. -/
inductive Counter
  | acceptRule
  | acceptDefault
  | dropRule
  | dropDefault
  deriving DecidableEq

def countVerdict (verdict : UInt8) (byRule : Bool) : Counter :=
  if verdict = accept then if byRule then .acceptRule else .acceptDefault
  else if byRule then .dropRule else .dropDefault

/-- The host's OUTPUT rules and default, for a datagram that leaves on an interface with these
flags. -/
def outputJudged (src dst : UInt32) (proto : UInt8) : UInt8 × Counter :=
  let scope := if outFlags &&& netifMasquerade ≠ 0 then scopeGuest else scopeWorld
  let (verdict, byRule) := judge (st.guests host) dirOutput ⟨proto, src, dst⟩ (l4Read m proto) scope
  (verdict, countVerdict verdict byRule)

def outputVerdict (src dst : UInt32) (proto : UInt8) : UInt8 × Counter :=
  if st.outFast then (accept, .acceptDefault) else outputJudged st outFlags m src dst proto

/-! ## Runs of control calls -/

inductive Call
  | attach (guestIp gatewayIp : UInt32)
  | purge (guestIp : UInt32)
  | add (guestIp : UInt32) (atIndex : ℕ) (rule : Rule)
  | del (guestIp : UInt32) (rule : Rule)
  | policy (guestIp : UInt32) (direction verdict : UInt8)
  | flush

/-- The configuration a call leaves; one that fails leaves what it found. -/
def Call.apply : Call → Config
  | attach ip gateway => guestAttach st ip gateway
  | purge ip => guestPurge st ip
  | add ip i rule => (ruleAdd st ip i rule).toOption.getD st
  | del ip rule => (ruleDel st ip rule).toOption.getD st
  | policy ip dir v => (policySet st ip dir v).toOption.getD st
  | flush => Firewall.flush st

end

/-- The configurations that control calls can make of the one the firewall starts with. -/
def Configured : Config → Prop := Reachable (· = {}) fun st st' => ∃ c : Call, st' = c.apply st

variable {st : Config}

def Config.Exact (st : Config) : Prop := st.outFast = nothingToSay (st.guests host)

theorem guestFind_ne {ip : UInt32} {i : Fin 9} (h : guestFind st ip = some i) : i ≠ host := by
  rintro rfl
  simpa using List.find?_some h

theorem Config.Exact.of_host {f : Fin 9 → Guest} (h : st.Exact) (hf : f host = st.guests host) :
    Config.Exact { st with guests := f } := by
  change st.outFast = nothingToSay (f host)
  rw [hf]
  exact h

theorem Config.Exact.toOption {res : Except Errno Config} (h : st.Exact)
    (hres : ∀ st', res = .ok st' → st'.Exact) : (res.toOption.getD st).Exact := by
  cases res with
  | error e => exact h
  | ok st' => exact hres st' rfl

theorem Call.apply_exact (c : Call) (h : st.Exact) : (c.apply st).Exact := by
  cases c with
  | attach ip gateway =>
    rw [apply, guestAttach]
    split
    case h_1 => exact h
    case h_2 i hi =>
      have hne : i ≠ host := by
        rcases Option.or_eq_some_iff.mp hi with hi | ⟨-, hi⟩
        · exact guestFind_ne hi
        · rintro rfl
          simpa using List.find?_some hi
      exact h.of_host (update_of_ne hne.symm _ _)
  | purge ip =>
    rw [apply, guestPurge]
    split
    case h_1 => exact h
    case h_2 i hi => exact h.of_host (update_of_ne (guestFind_ne hi).symm _ _)
  -- the other calls recompute the flag when they succeed
  | add ip i rule =>
    refine h.toOption fun st' hres => ?_
    revert hres
    fun_cases ruleAdd st ip i rule <;> intro hres <;> cases hres
    rfl
  | del ip rule =>
    refine h.toOption fun st' hres => ?_
    revert hres
    fun_cases ruleDel st ip rule <;> intro hres <;> cases hres
    rfl
  | policy ip dir v =>
    refine h.toOption fun st' hres => ?_
    revert hres
    fun_cases policySet st ip dir v <;> intro hres <;> cases hres
    rfl
  | flush => rfl

theorem Configured.exact (h : Configured st) : st.Exact :=
  Reachable.invariant (by rintro _ rfl; rfl) (by rintro s _ hs ⟨c, rfl⟩; exact c.apply_exact hs) h

theorem ruleMatches_output {r : Rule} {k : Key} {v : View} {scope : UInt8}
    (h : ruleMatches r dirOutput k v scope = true) : r.direction = dirOutput := by
  by_contra hne
  have hdir : (if r.direction = dirAny then dirOutput == dirToUplink || dirOutput == dirToGuest
      else r.direction == dirOutput) = false := by
    split
    · decide
    · simpa using hne
  simp [ruleMatches, hdir] at h

/-- **The fast path.**  In every configuration that rule additions, deletions, policy changes,
flushes, attaches and purges can make, `outputVerdict` gives every datagram on every egress the
verdict and the statistic that the host's OUTPUT rules and default give it. -/
theorem outputVerdict_eq_judged (h : Configured st) (outFlags : UInt32) (m : Option Header)
    (src dst : UInt32) (proto : UInt8) :
    outputVerdict st outFlags m src dst proto = outputJudged st outFlags m src dst proto := by
  rw [outputVerdict]
  split
  case isFalse => rfl
  case isTrue hfast =>
    obtain ⟨hpolicy, hrules⟩ : (st.guests host).policy 4 = accept ∧
        ∀ r ∈ (st.guests host).rules, r.direction ≠ dirOutput := by
      rw [h.exact] at hfast
      simpa [nothingToSay] using hfast
    have hnone : ∀ v scope, (st.guests host).rules.find?
        (fun r => ruleMatches r dirOutput ⟨proto, src, dst⟩ v scope) = none := by
      intro v scope
      refine List.find?_eq_none.mpr fun r hr hm => hrules r hr (ruleMatches_output hm)
    have hslot : dirSlot dirOutput = 4 := by decide
    simp [outputJudged, judge, hnone, hslot, hpolicy, countVerdict]

/-- A rule of the FROM_UPLINK direction leaves the fast path on. -/
theorem outputVerdict_eq_judged_fromUplink :
    let st := (Call.add hostGuestIp 0 ⟨dirFromUplink, 0, 0, drop, 0, 0, 0, scopeAny, 0⟩).apply {}
    st.outFast = true ∧ (st.guests host).rules.length = 1 ∧
      outputVerdict st 0 none 1 2 ipprotoUdp = outputJudged st 0 none 1 2 ipprotoUdp :=
  ⟨by decide, by decide, outputVerdict_eq_judged (Reachable.step (Reachable.init rfl) ⟨_, rfl⟩) ..⟩

end CosmoOS.Network.Firewall
