import CosmoOS.Network.Firewall

/-!
# The firewall's flows

A guest's accepted datagram to another guest, and a datagram the host sends to the world, record a
flow, so that the reply is admitted; a flow lives until its time runs out and is refreshed by each
datagram of either direction.  The search stops at the first slot that matches in one direction or
the other.

1. A step drops flows and refreshes living ones, or fills one slot that holds no living flow with a
   flow that no other slot holds (`Act.apply_spec`).
2. That is so only while no opening datagram whose own flow lives meets first a living flow of the
   opposite direction (`Act.Clear`).  A bare SYN that meets one is judged and recorded whatever
   stands in the slots behind, and so is a host's send.
-/

namespace CosmoOS.Network.Firewall

open Function Lib

def flowQuotaPerGuest : ℕ := 32
def flowQuotaHost : ℕ := 64
def thSyn : UInt8 := 0x02
def thAck : UInt8 := 0x10
def netifLoopback : UInt32 := 2
def netifForward : UInt32 := 32
def timeoutUdpNs : ℕ := 30000000000
def timeoutIcmpNs : ℕ := 30000000000
def timeoutTcpNs : ℕ := 30000000000
def timeoutTcpestNs : ℕ := 300000000000

/-- A tracked flow: `a` sent the accepted first datagram to `b`, and it counts against `guestIp`. -/
structure Flow where
  inUse : Bool := false
  est : Bool := false
  proto : UInt8 := 0
  guestIp : UInt32 := 0
  aIp : UInt32 := 0
  bIp : UInt32 := 0
  aPort : UInt16 := 0
  bPort : UInt16 := 0
  expiresNs : ℕ := 0

structure State extends Config where
  flows : Fin 320 → Flow := fun _ => {}
  hostLast : Option (Fin 320) := none

def flowTimeout (f : Flow) : ℕ :=
  if f.proto = ipprotoTcp then if f.est then timeoutTcpestNs else timeoutTcpNs
  else if f.proto = ipprotoUdp then timeoutUdpNs else timeoutIcmpNs

/-- Whether a flow is a datagram's, and if so whether the datagram is a reply. -/
def flowMatches (f : Flow) (k : Key) (v : View) (now : ℕ) : Option Bool :=
  if !f.inUse || now ≥ f.expiresNs || f.proto != k.proto then none
  else if k.proto = ipprotoIcmp then
    if f.aIp == k.src && f.bIp == k.dst && v.icmpType == icmpEcho && f.aPort == v.icmpId then
      some false
    else if f.aIp == k.dst && f.bIp == k.src && v.icmpType == icmpEchoReply &&
      f.aPort == v.icmpId then
      some true
    else none
  else if f.aIp == k.src && f.bIp == k.dst && f.aPort == v.sport && f.bPort == v.dport then
    some false
  else if f.aIp == k.dst && f.bIp == k.src && f.aPort == v.dport && f.bPort == v.sport then
    some true
  else none

section

variable (st : State) (now : ℕ)

def flowFind (k : Key) (v : View) (now : ℕ) : Option (Fin 320 × Bool) :=
  (List.finRange 320).findSome? fun i => (flowMatches (st.flows i) k v now).map (i, ·)

def flowTrackable (proto : UInt8) (v : View) : Bool :=
  v.ok && if proto = ipprotoIcmp then v.icmpType == icmpEcho else v.ports

def Flow.isLive (f : Flow) (now : ℕ) : Bool := f.inUse && now < f.expiresNs

/-- The first free slot, where the initiator is within its share. -/
def flowSlot (initiator : UInt32) (quota now : ℕ) : Option (Fin 320) :=
  let mine := (List.finRange 320).countP fun i =>
    (st.flows i).isLive now && (st.flows i).guestIp == initiator
  if mine ≥ quota then none else (List.finRange 320).find? fun i => !(st.flows i).isLive now

def flowFill (initiator : UInt32) (k : Key) (v : View) (now : ℕ) : Flow :=
  let f : Flow :=
    { inUse := true, proto := k.proto, guestIp := initiator, aIp := k.src, bIp := k.dst }
  let f := if k.proto = ipprotoIcmp then { f with aPort := v.icmpId, bPort := 0 }
    else { f with aPort := v.sport, bPort := v.dport }
  { f with expiresNs := now + flowTimeout f }

def Flow.refresh (f : Flow) (now : ℕ) : Flow := { f with expiresNs := now + flowTimeout f }

def isBareSyn (k : Key) (v : View) : Bool :=
  k.proto == ipprotoTcp && v.tcpFlags &&& thSyn != 0 && v.tcpFlags &&& thAck == 0

/-- The verdict on a datagram that belongs to no flow, which is recorded if it is accepted. -/
def forwardNew (dir : UInt8) (k : Key) (v : View) (now : ℕ) : UInt8 × State :=
  let verdict := match guestFind st.toConfig k.src with
    | some gi => (judge (st.guests gi) dir k v scopeAny).1
    | none => if dir = dirToGuest then drop else accept
  if verdict = accept ∧ dir = dirToGuest ∧ flowTrackable k.proto v then
    match flowSlot st k.src flowQuotaPerGuest now with
    | none => (drop, st)
    | some slot => (verdict, { st with flows := update st.flows slot (flowFill k.src k v now) })
  else (verdict, st)

def forwardVerdict (outFlags : UInt32) (m : Option Header) (k : Key) (now : ℕ) : UInt8 × State :=
  let dir := if outFlags &&& netifForward ≠ 0 then dirToGuest else dirToUplink
  let v := l4Read m k.proto
  match if dir = dirToGuest ∧ v.ok then flowFind st k v now else none with
  | none => forwardNew st dir k v now
  | some (fi, rev) =>
    if rev && isBareSyn k v then forwardNew st dir k v now
    else
      let f := st.flows fi
      let ack := k.proto == ipprotoTcp && v.tcpFlags &&& thAck != 0 && v.tcpFlags &&& thSyn == 0
      let f := if ack then { f with est := true } else f
      (accept, { st with flows := update st.flows fi (f.refresh now) })

/-- The flow a datagram the host is sending would open. -/
def hostFlowOf (outFlags : UInt32) (m : Option Header) (k : Key) : Option View :=
  if outFlags &&& (netifMasquerade ||| netifLoopback) ≠ 0 then none
  else if k.proto ≠ ipprotoUdp ∧ k.proto ≠ ipprotoIcmp then none
  else
    let v := l4Read m k.proto
    if flowTrackable k.proto v then some v else none

def hostRecord (k : Key) (v : View) (now : ℕ) : State :=
  let same (f : Flow) : Bool := f.isLive now && f.guestIp == hostGuestIp && f.proto == k.proto &&
    f.aIp == k.src && f.bIp == k.dst &&
    if k.proto = ipprotoIcmp then f.aPort == v.icmpId else f.aPort == v.sport && f.bPort == v.dport
  match st.hostLast.filter fun li => same (st.flows li) with
  | some li => { st with flows := update st.flows li ((st.flows li).refresh now) }
  | none =>
    match (flowFind st k v now).filter fun x => !x.2 with
    | some (fi, _) =>
      { st with flows := update st.flows fi ((st.flows fi).refresh now), hostLast := some fi }
    | none =>
      match flowSlot st hostGuestIp flowQuotaHost now with
      | none => st
      | some slot =>
        { st with
          flows := update st.flows slot (flowFill hostGuestIp k v now)
          hostLast := some slot }

def hostVerdict (m : Option Header) (k : Key) (now : ℕ) : UInt8 × State :=
  let v := l4Read m k.proto
  let found := if v.ok ∧ st.hostLast.isSome then
      (flowFind st k v now).filter fun x => x.2 && (st.flows x.1).guestIp == hostGuestIp
    else none
  match found with
  | some (fi, _) =>
    (accept, { st with flows := update st.flows fi ((st.flows fi).refresh now) })
  | none => ((judge (st.guests host) dirFromUplink k v scopeAny).1, st)

/-- The flows that pass, the others given up. -/
def State.keep (p : Flow → Bool) : State :=
  { st with flows := fun i => { st.flows i with inUse := (st.flows i).inUse && p (st.flows i) } }

def age : State := st.keep fun f => now < f.expiresNs

/-! ## Runs -/

inductive Act
  /-- A datagram forwarded out of an interface with these flags. -/
  | forward (outFlags : UInt32) (m : Option Header) (k : Key)
  | send (outFlags : UInt32) (m : Option Header) (k : Key)
  /-- A datagram delivered to the host. -/
  | receive (m : Option Header) (k : Key)
  | control (call : Call)
  | age

def Act.apply : Act → State
  | forward outFlags m k => (forwardVerdict st outFlags m k now).2
  | send outFlags m k => match hostFlowOf outFlags m k with
    | none => st
    | some v => hostRecord st k v now
  | receive m k => (hostVerdict st m k now).2
  | control (.purge ip) =>
    { st.keep fun f => !(f.aIp == ip || f.bIp == ip) with toConfig := guestPurge st.toConfig ip }
  | control .flush => { toConfig := Firewall.flush st.toConfig }
  | control call => { st with toConfig := call.apply st.toConfig }
  | age => Firewall.age st now

end

structure Sys where
  st : State := {}
  now : ℕ := 0

/-- The steps that meet a condition.  Time does not go back. -/
def Step (C : State → Act → ℕ → Prop) (s s' : Sys) : Prop :=
  ∃ act, s.now ≤ s'.now ∧ C s.st act s'.now ∧ s'.st = act.apply s.st s'.now

variable {st st' : State} {f : Flow} {k : Key} {v : View} {i j : Fin 320} {now now' : ℕ}

def Flow.key (f : Flow) : UInt8 × UInt32 × UInt32 × UInt16 × UInt16 :=
  (f.proto, f.aIp, f.bIp, f.aPort, f.bPort)

/-- No two living flows have one protocol, initiator and responder. -/
def State.Unique (st : State) (now : ℕ) : Prop :=
  ∀ i j, (st.flows i).isLive now → (st.flows j).isLive now → (st.flows i).key = (st.flows j).key →
    i = j

/-- The ends of the flow a datagram opens. -/
def Key.opened (k : Key) (v : View) : UInt8 × UInt32 × UInt32 × UInt16 × UInt16 :=
  if k.proto = ipprotoIcmp then (k.proto, k.src, k.dst, v.icmpId, 0)
  else (k.proto, k.src, k.dst, v.sport, v.dport)

/-- The datagrams that may record a flow. -/
def Act.datagram : Act → Option (Key × View)
  | forward _ m k => some (k, l4Read m k.proto)
  | send outFlags m k => (hostFlowOf outFlags m k).map (k, ·)
  | _ => none

/-- A datagram that opens a flow whatever flow of the opposite direction there is. -/
def Act.opens : Act → Bool
  | forward _ m k => isBareSyn k (l4Read m k.proto)
  | send .. => true
  | _ => false

/-- A living flow is the one the datagram would open. -/
def State.has (st : State) (k : Key) (v : View) (now : ℕ) : Bool :=
  (List.finRange 320).any fun i => (st.flows i).isLive now && (st.flows i).key == k.opened v

/-- No opening datagram whose own flow lives meets first a living flow of the opposite direction. -/
def Act.Clear (st : State) (act : Act) (now : ℕ) : Prop :=
  act.opens → (act.datagram.all fun x => (flowFind st x.1 x.2 now).all fun y =>
    !(y.2 && st.has x.1 x.2 now)) = true

instance (st : State) (act : Act) (now : ℕ) : Decidable (act.Clear st now) :=
  inferInstanceAs (Decidable (_ → _))

/-- Nothing but flows given up and living flows refreshed. -/
def Within (st st' : State) (now : ℕ) : Prop :=
  ∀ i, (st'.flows i).isLive now → (st.flows i).isLive now ∧ (st'.flows i).key = (st.flows i).key

/-- One living flow is refreshed, and nothing else of the table changes. -/
def Refreshed (st st' : State) (now : ℕ) : Prop :=
  ∃ i f, (st.flows i).isLive now ∧ st'.flows = update st.flows i f ∧
    f.guestIp = (st.flows i).guestIp ∧ f.key = (st.flows i).key ∧ st'.toConfig = st.toConfig

/-- One free slot filled with a flow that no other slot holds. -/
def Filled (st st' : State) (k : Key) (v : View) (now : ℕ) : Prop :=
  ∃ slot ip, st'.flows = update st.flows slot (flowFill ip k v now) ∧
    ∀ i, (st.flows i).isLive now → (st.flows i).key ≠ k.opened v

theorem flowFill_key (ip : UInt32) : (flowFill ip k v now).key = k.opened v := by
  unfold flowFill Key.opened
  split <;> rfl

theorem Within.of_flows (h : st'.flows = st.flows) : Within st st' now := by
  intro i hi
  rw [h] at hi ⊢
  exact ⟨hi, rfl⟩

theorem Refreshed.within (h : Refreshed st st' now) : Within st st' now := by
  obtain ⟨i, f, hlive, hf, -, hk, -⟩ := h
  intro j hj
  rw [hf] at hj ⊢
  obtain rfl | hne := eq_or_ne j i
  · rw [update_self]
    exact ⟨hlive, hk⟩
  · rw [update_of_ne hne] at hj ⊢
    exact ⟨hj, rfl⟩

theorem Within.keep (st : State) (p : Flow → Bool) : Within st (st.keep p) now := by
  intro i hi
  simp only [State.keep, Flow.isLive, Bool.and_eq_true] at hi ⊢
  exact ⟨⟨hi.1.1, hi.2⟩, rfl⟩

theorem flowFind_some {rev : Bool} (h : flowFind st k v now = some (i, rev)) :
    (st.flows i).isLive now := by
  obtain ⟨j, -, hj⟩ := List.exists_of_findSome?_eq_some h
  obtain ⟨r, hr, heq⟩ := Option.map_eq_some_iff.mp hj
  cases heq
  rw [flowMatches] at hr
  split at hr
  · cases hr
  · simp_all [Flow.isLive]

theorem flowFind_none (h : flowFind st k v now = none) (htrack : flowTrackable k.proto v)
    (hlive : (st.flows i).isLive now) : (st.flows i).key ≠ k.opened v := by
  intro hkey
  have hno : flowMatches (st.flows i) k v now = none := by
    have := List.findSome?_eq_none_iff.mp h i (List.mem_finRange i)
    simpa using this
  simp only [Flow.isLive, Bool.and_eq_true, decide_eq_true_eq] at hlive
  by_cases hp : k.proto = ipprotoIcmp
  · simp_all [flowMatches, flowTrackable, Key.opened, Flow.key]
  · simp_all [flowMatches, Key.opened, Flow.key]

theorem State.ne_of_has (h : st.has k v now = false) (hlive : (st.flows i).isLive now) :
    (st.flows i).key ≠ k.opened v := by
  intro hkey
  have hno := List.any_eq_false.mp h i (List.mem_finRange i)
  simp [hlive, hkey] at hno

theorem forwardNew_spec {dir : UInt8} (h : dir = dirToGuest → flowTrackable k.proto v →
      ∀ i, (st.flows i).isLive now → (st.flows i).key ≠ k.opened v) :
    Within st (forwardNew st dir k v now).2 now ∨
      Filled st (forwardNew st dir k v now).2 k v now := by
  fun_cases forwardNew st dir k v now with
  | case1 _ _ _ => exact .inl (.of_flows rfl)
  | case2 _ hrec slot _ =>
    obtain ⟨-, hdir, htrack⟩ := hrec
    exact .inr ⟨slot, k.src, rfl, h hdir htrack⟩
  | case3 _ _ => exact .inl (.of_flows rfl)

/-! What the three paths of a datagram do to the table. -/

theorem forwardVerdict_cases (st : State) (outFlags : UInt32) {m : Option Header}
    (hv : l4Read m k.proto = v) (now : ℕ) :
    Refreshed st (forwardVerdict st outFlags m k now).2 now ∨
      ∃ dir, (forwardVerdict st outFlags m k now).2 = (forwardNew st dir k v now).2 ∧
        ((dir = dirToGuest → v.ok → flowFind st k v now = none) ∨
          isBareSyn k v ∧ ∃ fi, flowFind st k v now = some (fi, true)) := by
  rw [forwardVerdict, hv]
  generalize (if outFlags &&& netifForward ≠ 0 then dirToGuest else dirToUplink) = dir
  split
  case h_1 hfind =>
    refine .inr ⟨dir, rfl, .inl fun hdir hok => ?_⟩
    rwa [if_pos ⟨hdir, hok⟩] at hfind
  case h_2 fi rev hfind =>
    have hfind : flowFind st k v now = some (fi, rev) := by
      split at hfind
      · exact hfind
      · cases hfind
    split
    case isTrue hsyn =>
      obtain ⟨rfl, hsyn⟩ := Bool.and_eq_true_iff.mp hsyn
      exact .inr ⟨dir, rfl, .inr ⟨hsyn, fi, hfind⟩⟩
    case isFalse =>
      refine .inl ⟨fi, _, flowFind_some hfind, rfl, ?_, ?_, rfl⟩
      all_goals split <;> rfl

theorem hostRecord_cases (st : State) (k : Key) (v : View) (now : ℕ) :
    Refreshed st (hostRecord st k v now) now ∨ hostRecord st k v now = st ∨
      ((flowFind st k v now).filter fun x => !x.2) = none ∧
        ∃ slot, flowSlot st hostGuestIp flowQuotaHost now = some slot ∧
          (hostRecord st k v now).flows = update st.flows slot (flowFill hostGuestIp k v now) ∧
          (hostRecord st k v now).toConfig = st.toConfig := by
  fun_cases hostRecord st k v now with
  | case1 same li hli =>
    have hsame := (Option.filter_eq_some_iff.mp hli).2
    simp only [same, Bool.and_eq_true] at hsame
    exact .inl ⟨li, _, hsame.1.1.1.1.1, rfl, rfl, rfl, rfl⟩
  | case2 _ _ fi _ hfi =>
    exact .inl ⟨fi, _, flowFind_some (Option.filter_eq_some_iff.mp hfi).1, rfl, rfl, rfl, rfl⟩
  | case3 => exact .inr (.inl rfl)
  | case4 _ _ hnone slot hslot => exact .inr (.inr ⟨hnone, slot, hslot, rfl, rfl⟩)

theorem hostVerdict_cases (st : State) (m : Option Header) (k : Key) (now : ℕ) :
    Refreshed st (hostVerdict st m k now).2 now ∨ (hostVerdict st m k now).2 = st := by
  fun_cases hostVerdict st m k now with
  | case1 v found fi rev hfi =>
    refine .inl ⟨fi, _, ?_, rfl, rfl, rfl, rfl⟩
    simp only [found] at hfi
    split at hfi
    · exact flowFind_some (Option.filter_eq_some_iff.mp hfi).1
    · cases hfi
  | case2 => exact .inr rfl

/-- **What a step does to the flows.** -/
theorem Act.apply_spec {act : Act} (hclear : act.Clear st now) :
    Within st (act.apply st now) now ∨
      ∃ k v, act.datagram = some (k, v) ∧ Filled st (act.apply st now) k v now := by
  cases act with
  | forward outFlags m k =>
    rw [apply]
    rcases forwardVerdict_cases st outFlags rfl now with h | ⟨dir, heq, h⟩
    · exact .inl h.within
    · rw [heq]
      refine (forwardNew_spec fun hdir htrack i hi => ?_).imp_right fun h => ⟨_, _, rfl, h⟩
      rcases h with hnone | ⟨hsyn, fi, hfind⟩
      · have hok : (l4Read m k.proto).ok := by simp_all [flowTrackable]
        exact flowFind_none (hnone hdir hok) htrack hi
      · have hall := hclear hsyn
        simp only [datagram, hfind, Option.all_some, Bool.true_and, Bool.not_eq_true'] at hall
        exact State.ne_of_has hall hi
  | send outFlags m k =>
    rw [apply]
    split
    case h_1 => exact .inl (.of_flows rfl)
    case h_2 v hv =>
      have hdata : (send outFlags m k).datagram = some (k, v) := by rw [datagram, hv]; rfl
      have htrack : flowTrackable k.proto v := by
        revert hv
        fun_cases hostFlowOf outFlags m k <;> intro hv
        all_goals simp_all
      rcases hostRecord_cases st k v now with h | heq | ⟨hnone, slot, -, hf, -⟩
      · exact .inl h.within
      · exact .inl (.of_flows (by rw [heq]))
      · refine .inr ⟨_, _, hdata, slot, _, hf, fun i hi => ?_⟩
        rcases hf : flowFind st k v now with _ | ⟨fi, _ | _⟩
        · exact flowFind_none hf htrack hi
        · rw [hf] at hnone
          cases hnone
        · have hall := hclear rfl
          simp only [hdata, hf, Option.all_some, Bool.true_and, Bool.not_eq_true'] at hall
          exact State.ne_of_has hall hi
  | receive m k =>
    rw [apply]
    rcases hostVerdict_cases st m k now with h | heq
    · exact .inl h.within
    · exact .inl (.of_flows (by rw [heq]))
  | control call =>
    cases call with
    | purge ip => exact .inl (Within.keep st fun f => !(f.aIp == ip || f.bIp == ip))
    | flush => exact .inl fun i hi => by cases hi
    | _ => exact .inl (.of_flows rfl)
  | age => exact .inl (Within.keep st fun f => decide (now < f.expiresNs))

theorem State.Unique.later (h : st.Unique now) (hle : now ≤ now') : st.Unique now' := by
  have hlive : ∀ i, (st.flows i).isLive now' → (st.flows i).isLive now := by
    intro i hi
    simp only [Flow.isLive, Bool.and_eq_true, decide_eq_true_eq] at hi ⊢
    exact ⟨hi.1, by omega⟩
  exact fun i j hi hj => h i j (hlive i hi) (hlive j hj)

theorem State.Unique.within (h : st.Unique now) (hw : Within st st' now) : st'.Unique now := by
  intro i j hi hj hk
  obtain ⟨hi, hki⟩ := hw i hi
  obtain ⟨hj, hkj⟩ := hw j hj
  exact h i j hi hj (by rw [← hki, ← hkj, hk])

theorem State.Unique.filled (h : st.Unique now) (hf : Filled st st' k v now) : st'.Unique now := by
  obtain ⟨slot, ip, hflows, hnew⟩ := hf
  intro i j hi hj hk
  rw [hflows] at hi hj hk
  by_cases hni : i = slot <;> by_cases hnj : j = slot
  · rw [hni, hnj]
  · rw [hni, update_self, update_of_ne hnj, flowFill_key] at hk
    rw [update_of_ne hnj] at hj
    exact absurd hk.symm (hnew j hj)
  · rw [hnj, update_self, update_of_ne hni, flowFill_key] at hk
    rw [update_of_ne hni] at hi
    exact absurd hk (hnew i hi)
  · rw [update_of_ne hni, update_of_ne hnj] at hk
    rw [update_of_ne hni] at hi
    rw [update_of_ne hnj] at hj
    exact h i j hi hj hk

/-- **The flows are unique.**  In a run in which no opening datagram whose own flow lives meets
first a living flow of the opposite direction, no two living flows have one protocol and one pair of
ends; and a datagram whose flow lives takes no further slot. -/
theorem flows_unique {C : State → Act → ℕ → Prop}
    (hC : ∀ st act now, C st act now → act.Clear st now) {s : Sys}
    (h : Reachable (· = {}) (Step C) s) :
    s.st.Unique s.now ∧
      ∀ act now, C s.st act now → ∀ k v i, act.datagram = some (k, v) → (s.st.flows i).isLive now →
        (s.st.flows i).key = k.opened v →
        ∀ j, ((act.apply s.st now).flows j).isLive now → (s.st.flows j).isLive now := by
  constructor
  · refine Reachable.invariant (P := fun s => s.st.Unique s.now) ?_ ?_ h
    · rintro _ rfl i j hi
      cases hi
    · rintro s t hs ⟨act, hle, hact, ht⟩
      rw [ht]
      rcases Act.apply_spec (hC _ _ _ hact) with hw | ⟨k, v, -, hf⟩
      · exact (hs.later hle).within hw
      · exact (hs.later hle).filled hf
  · intro act now hact k v i hdata hi hk j hj
    rcases Act.apply_spec (hC _ _ _ hact) with hw | ⟨k', v', hdata', slot, ip, -, hnew⟩
    · exact (hw j hj).1
    · cases hdata.symm.trans hdata'
      exact absurd hk (hnew i hi)

/-- A bare SYN from one guest to another. -/
def syn (src dst : UInt32) (sport dport : UInt16) : Act :=
  .forward netifForward (some ⟨sport, dport, thSyn, 0, 0⟩) ⟨ipprotoTcp, src, dst⟩

/-- Two guests that accept each other's traffic, and a connection opened by the first. -/
def opened : List Act :=
  [.control (.attach 1 9), .control (.attach 2 9), .control (.policy 1 dirToGuest accept),
    .control (.policy 2 dirToGuest accept), syn 1 2 5000 80]

/-- The second guest opens a connection back on the same ports, and the first repeats its SYN. -/
theorem flows_unique_repeated :
    ∃ s : Sys, (s.st.flows 0).isLive s.now ∧ (s.st.flows 1).isLive s.now ∧ s.st.Unique s.now ∧
      ∀ j, (((syn 1 2 5000 80).apply s.st s.now).flows j).isLive s.now →
        (s.st.flows j).isLive s.now := by
  have hstep : ∀ (s : Sys) (a : Act) (t : Sys),
      (if a.Clear s.st s.now then some ⟨a.apply s.st s.now, s.now⟩ else none) = some t →
        Step Act.Clear s t := by
    intro s a t h
    split at h
    case isFalse => cases h
    case isTrue hclear =>
      cases h
      exact ⟨a, le_rfl, hclear, rfl⟩
  have hinit : Reachable (· = {}) (Step Act.Clear) {} := Reachable.init rfl
  obtain ⟨s, hs, hp⟩ := Reachable.of_run hstep hinit (opened ++ [syn 2 1 80 5000])
    (fun s => decide ((syn 1 2 5000 80).Clear s.st s.now ∧ (s.st.flows 0).isLive s.now ∧
      (s.st.flows 1).isLive s.now ∧ (s.st.flows 0).key = (6, 1, 2, 5000, 80))) (by decide +kernel)
  obtain ⟨hclear, hlive, hback, hkey⟩ := of_decide_eq_true hp
  obtain ⟨hu, hsame⟩ := flows_unique (fun _ _ _ h => h) hs
  exact ⟨s, hlive, hback, hu, hsame _ _ hclear _ _ 0 rfl hlive hkey⟩

/-- The second guest's SYN back on the same ports opens a flow of its own, and opens another when it
is repeated: the first slot that matches is the older flow's. -/
theorem flow_opened_twice :
    ∃ s : Sys, Reachable (· = {}) (Step fun _ _ _ => True) s ∧ ¬s.st.Unique s.now := by
  have hinit : Reachable (· = {}) (Step fun _ _ _ => True) {} := Reachable.init rfl
  obtain ⟨s, hs, hp⟩ := Reachable.of_run
    (fun s a t (h : some ⟨Act.apply s.st s.now a, s.now⟩ = some t) => by
      cases h
      exact ⟨a, le_rfl, trivial, rfl⟩) hinit (opened ++ [syn 2 1 80 5000, syn 2 1 80 5000])
    (fun s => decide ((s.st.flows 1).isLive s.now ∧ (s.st.flows 2).isLive s.now ∧
      (s.st.flows 1).key = (s.st.flows 2).key)) (by decide +kernel)
  obtain ⟨h₁, h₂, hkey⟩ := of_decide_eq_true hp
  exact ⟨s, hs, fun hu => absurd (hu 1 2 h₁ h₂ hkey) (by decide)⟩

end CosmoOS.Network.Firewall
