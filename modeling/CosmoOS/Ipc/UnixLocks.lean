import CosmoOS.Lib.Transition
import Mathlib.Data.Nat.Notation
import Mathlib.Logic.Function.Basic

/-!
# The mutexes of unix stream sockets

`unix_bind`, `unix_listen`, `unix_connect` and `unix_accept` take their socket's mutex; a connect
takes, under its own, that of the socket its name resolves to.  The source orders the two by what
the sockets are: the second is a listener's, and a listener connects to nobody.

1. A socket that a connect holds as its own does not listen: the connect has tested that, and a
   socket listens only by a section of its mutex (`Inv.own`).
2. What a connect is about to lock is then no connect's own, if it listens; but the code looks
   whether it does only once it has its mutex.  `Act.Clear` is that a name a connect resolves is not
   that of a socket in the middle of a connect.  Under it no cycle of waits is closed
   (`Inv.acyclic`).
-/

namespace CosmoOS.Ipc.UnixLocks

open Function

def backlogMax : ℕ := 128

structure Sock where
  stream : Bool := true
  name : Option ℕ := none
  listening : Bool := false
  conn : Bool := false
  backlog : ℕ := 0
  queued : ℕ := 0

inductive Call
  | bind (name : ℕ)
  | listen (backlog : ℕ)
  | accept
  | connect (name : ℕ) (nonblock : Bool)

inductive Pc
  | idle
  /-- At the lock of its socket's mutex. -/
  | locking (call : Call) (s : ℕ)
  | inside (call : Call) (s : ℕ)
  /-- In the loop of a connect, with its socket's mutex. -/
  | resolving (s : ℕ) (name : ℕ) (nonblock : Bool)
  /-- At the lock of the mutex of what the name resolves to. -/
  | resolved (s : ℕ) (name : ℕ) (nonblock : Bool) (t : ℕ)
  | both (s : ℕ) (name : ℕ) (nonblock : Bool) (t : ℕ)
  /-- Asleep until there may be room. -/
  | room (s : ℕ) (name : ℕ) (nonblock : Bool)

structure Sys where
  socks : ℕ → Sock
  registry : ℕ → Option ℕ := fun _ => none
  owner : ℕ → Option ℕ := fun _ => none
  pc : ℕ → Pc := fun _ => .idle

def Pc.held : Pc → List ℕ
  | .idle | .locking _ _ => []
  | .inside _ s | .resolving s _ _ | .resolved s _ _ _ | .room s _ _ => [s]
  | .both s _ _ t => [s, t]

/-- What a thread is about to lock. -/
def Pc.wants : Pc → Option ℕ
  | .locking _ s => some s
  | .resolved _ _ _ t => some t
  | _ => none

section

variable (S : Sys) (i : ℕ)

/-- A thread goes on at `p`, having locked or unlocked what it holds there and did not, or did. -/
def Sys.goto (p : Pc) : Sys :=
  { S with
    pc := update S.pc i p
    owner := fun m =>
      if m ∈ p.held then some i else if S.owner m = some i then none else S.owner m }

def Sys.setSock (s : ℕ) (x : Sock) : Sys := { S with socks := update S.socks s x }

def unixBind (s : ℕ) (name : ℕ) : Sys :=
  let u := S.socks s
  if u.name.isSome ∨ u.conn ∨ u.listening ∨ (S.registry name).isSome then S
  else { S.setSock s { u with name := some name } with
    registry := update S.registry name (some s) }

def unixListen (s : ℕ) (backlog : ℕ) : Sys :=
  let u := S.socks s
  if u.conn ∨ u.name = none then S
  else S.setSock s { u with listening := true, backlog := min (max backlog 1) backlogMax }

/-- One pass of the loop of `unix_accept`, which waits with no mutex. -/
def unixAccept (s : ℕ) : Sys :=
  let u := S.socks s
  if u.listening ∧ 0 < u.queued then S.setSock s { u with queued := u.queued - 1 } else S

/-- A connection: the socket is connected to one that waits to be accepted. -/
def linkPair (s t : ℕ) : Sys :=
  let S := S.setSock s { S.socks s with conn := true }
  S.setSock t { S.socks t with queued := (S.socks t).queued + 1 }

inductive Act
  | start (call : Call) (s : ℕ)
  | lock
  /-- A section; `ok` is false where the accepted socket cannot be made. -/
  | run (ok : Bool)
  | wake
  | kill

def Sys.act : Act → Option Sys
  | .start call s =>
    match S.pc i with
    | .idle => if (S.socks s).stream then some (S.goto i (.locking call s)) else none
    | _ => none
  | .lock =>
    match S.pc i with
    | .locking call s => if S.owner s = none then some (S.goto i (.inside call s)) else none
    | .resolved s name nonblock t =>
      if S.owner t = none then some (S.goto i (.both s name nonblock t)) else none
    | _ => none
  | .run ok =>
    match S.pc i with
    | .inside (.bind name) s => some ((unixBind S s name).goto i .idle)
    | .inside (.listen backlog) s => some ((unixListen S s backlog).goto i .idle)
    | .inside .accept s => some ((unixAccept S s).goto i .idle)
    | .inside (.connect name nonblock) s =>
      if (S.socks s).conn ∨ (S.socks s).listening then some (S.goto i .idle)
      else some (S.goto i (.resolving s name nonblock))
    | .resolving s name nonblock =>
      match S.registry name with
      | none => some (S.goto i .idle)
      | some t =>
        if (S.socks t).stream then some (S.goto i (.resolved s name nonblock t))
        else some (S.goto i .idle)
    | .both s name nonblock t =>
      if (S.socks t).listening = false then some (S.goto i .idle)
      else if (S.socks t).queued < (S.socks t).backlog then
        some ((if ok then linkPair S s t else S).goto i .idle)
      else if nonblock then some (S.goto i .idle)
      else some (S.goto i (.room s name nonblock))
    | _ => none
  | .wake =>
    match S.pc i with
    | .room s name nonblock => some (S.goto i (.resolving s name nonblock))
    | _ => none
  | .kill =>
    match S.pc i with
    | .room _ _ _ => some (S.goto i .idle)
    | _ => none

/-- Any sockets, and threads that are in none of the calls. -/
def Initial : Prop := S.owner = (fun _ => none) ∧ S.pc = fun _ => .idle

/-- The socket a connect holds as its own, past its test. -/
def Pc.own : Pc → Option ℕ
  | .resolving s _ _ | .resolved s _ _ _ | .both s _ _ _ | .room s _ _ => some s
  | _ => none

/-- The name that a connect resolves is not that of a socket in the middle of a connect. -/
def Act.Clear : Act → Prop
  | .run _ => ∀ s name nonblock t, S.pc i = .resolving s name nonblock → S.registry name = some t →
      ∀ j, (S.pc j).own ≠ some t
  | _ => True

end

/-- The steps whose acts `C` admits. -/
def Step (C : Sys → ℕ → Act → Prop) (S S' : Sys) : Prop := ∃ i a, C S i a ∧ S.act i a = some S'

/-! ## No thread waits for itself -/

/-- Thread `i` waits for a mutex that `j` holds. -/
def Sys.Blocks (S : Sys) (i j : ℕ) : Prop := ∃ m, (S.pc i).wants = some m ∧ S.owner m = some j

/-- The mutex of a socket a connect is about to lock under its own. -/
def Pc.target : Pc → Option ℕ
  | .resolved _ _ _ t => some t
  | _ => none

/-- A connect that holds the one socket as its own is about to lock the other. -/
def Sys.Waits (S : Sys) (s t : ℕ) : Prop := ∃ i, (S.pc i).own = some s ∧ (S.pc i).target = some t

structure Inv (S : Sys) : Prop where
  held : ∀ i m, S.owner m = some i ↔ m ∈ (S.pc i).held
  own : ∀ i s, (S.pc i).own = some s → (S.socks s).listening = false
  acyclic : ∀ s, ¬Relation.TransGen S.Waits s s

/-- An edge into a point that no edge leaves closes no cycle. -/
theorem acyclic_of_sink {α : Type} {r r' : α → α → Prop} {t : α}
    (h : ∀ a, ¬Relation.TransGen r a a) (hnew : ∀ a b, r' a b → r a b ∨ b = t)
    (hsink : ∀ b, ¬r' t b) (a : α) : ¬Relation.TransGen r' a a := by
  have hold : ∀ a b, Relation.TransGen r' a b → Relation.TransGen r a b ∨ b = t := by
    intro a b hab
    induction hab with
    | single hb => exact (hnew _ _ hb).imp_left .single
    | tail _ hb ih =>
      rcases ih with ih | rfl
      · exact (hnew _ _ hb).imp_left ih.tail
      · exact absurd hb (hsink _)
  intro hcycle
  rcases hold a a hcycle with hc | rfl
  · exact h a hc
  · obtain ⟨b, hb, -⟩ := Relation.TransGen.head'_iff.mp hcycle
    exact hsink b hb

variable {S S' : Sys} {i : ℕ} {p : Pc}

theorem Inv.held_goto (h : Inv S) (hheld : ∀ m ∈ p.held, S.owner m = none ∨ m ∈ (S.pc i).held) :
    ∀ j m, (S.goto i p).owner m = some j ↔ m ∈ ((S.goto i p).pc j).held := by
  refine (forall_update_iff S.pc fun j q => ∀ m, (S.goto i p).owner m = some j ↔ m ∈ q.held).mpr
    ⟨fun m => ?_, fun j hne m => ?_⟩
  · simp only [Sys.goto]
    split
    · next hm => simp [hm]
    · next hm =>
      split
      · simp [hm]
      · next hi => simp [hm, hi]
  · simp only [Sys.goto]
    rw [← h.held j m]
    split
    · next hm =>
      simp only [Option.some.injEq, hne.symm, false_iff]
      rcases hheld m hm with hfree | hi
      · simp [hfree]
      · simp [(h.held i m).mpr hi, hne.symm]
    · split
      · next hi => simp [hi, hne.symm]
      · rfl

theorem Sys.waits_goto {s t : ℕ} (h : (S.goto i p).Waits s t) :
    S.Waits s t ∨ p.own = some s ∧ p.target = some t := by
  obtain ⟨j, hs, ht⟩ := h
  rcases eq_or_ne j i with rfl | hne
  · simp only [Sys.goto, update_self] at hs ht
    exact .inr ⟨hs, ht⟩
  · simp only [Sys.goto, update_of_ne hne] at hs ht
    exact .inl ⟨j, hs, ht⟩

theorem Inv.goto (h : Inv S) (hheld : ∀ m ∈ p.held, S.owner m = none ∨ m ∈ (S.pc i).held)
    (hown : ∀ s, p.own = some s → (S.socks s).listening = false)
    (htarget : ∀ t, p.target = some t → p.own ≠ some t ∧ ∀ j, (S.pc j).own ≠ some t) :
    Inv (S.goto i p) := by
  refine ⟨h.held_goto hheld, ?_, ?_⟩
  · exact (forall_update_iff S.pc fun _ q => ∀ s, q.own = some s →
      (S.socks s).listening = false).mpr ⟨hown, fun j _ => h.own j⟩
  · cases ht : p.target with
    | none =>
      have hsub : ∀ a b, (S.goto i p).Waits a b → S.Waits a b := fun a b hab =>
        (Sys.waits_goto hab).resolve_right fun hb => by
          rw [ht] at hb
          cases hb.2
      exact fun s hs => h.acyclic s (Relation.TransGen.mono hsub _ _ hs)
    | some t =>
      obtain ⟨hself, hothers⟩ := htarget t ht
      refine acyclic_of_sink (t := t) h.acyclic (fun a b hab => ?_) fun b hb => ?_
      · refine (Sys.waits_goto hab).imp_right fun hb => ?_
        rw [ht] at hb
        exact (Option.some.inj hb.2).symm
      · rcases Sys.waits_goto hb with ⟨j, hj, -⟩ | hb
        · exact hothers j hj
        · exact hself hb.1

/-- A change to a socket that starts to listen only under its mutex. -/
theorem Inv.setSock (h : Inv S) {s : ℕ} {x : Sock}
    (hlisten : x.listening = true → (S.socks s).listening = true ∨ ∀ j, (S.pc j).own ≠ some s) :
    Inv (S.setSock s x) := by
  refine ⟨h.held, fun j k hk => ?_, h.acyclic⟩
  rcases eq_or_ne k s with rfl | hne
  · simp only [Sys.setSock, update_self]
    by_contra hx
    rcases hlisten (by simpa using hx) with hs | hs
    · cases (h.own j k hk).symm.trans hs
    · exact hs j hk
  · simpa [Sys.setSock, hne] using h.own j k hk

theorem Inv.idle (h : Inv S) (i : ℕ) : Inv (S.goto i .idle) := h.goto nofun nofun nofun

theorem Pc.own_held {s : ℕ} (h : p.own = some s) : s ∈ p.held := by
  cases p <;> cases h <;> simp [Pc.held]

theorem Inv.own_ne_of_inside (h : Inv S) {call : Call} {s : ℕ} (hpc : S.pc i = .inside call s)
    (j : ℕ) : (S.pc j).own ≠ some s := by
  intro hj
  have hi : S.owner s = some i := (h.held i s).mpr (by rw [hpc]; exact List.mem_singleton_self s)
  have hji := (h.held j s).mpr (Pc.own_held hj)
  cases hi.symm.trans hji
  rw [hpc] at hj
  cases hj

theorem Inv.bind (h : Inv S) (s name : ℕ) : Inv (unixBind S s name) := by
  rw [unixBind]
  split
  · exact h
  · have hset := h.setSock (s := s) (x := { S.socks s with name := some name }) .inl
    exact { hset with }

theorem Inv.listen (h : Inv S) {s backlog : ℕ} (hown : ∀ j, (S.pc j).own ≠ some s) :
    Inv (unixListen S s backlog) := by
  rw [unixListen]
  split
  · exact h
  · exact h.setSock fun _ => .inr hown

theorem Inv.accept (h : Inv S) (s : ℕ) : Inv (unixAccept S s) := by
  rw [unixAccept]
  split
  · exact h.setSock .inl
  · exact h

theorem Inv.linkPair (h : Inv S) (s t : ℕ) : Inv (linkPair S s t) := by
  have hs := h.setSock (s := s) (x := { S.socks s with conn := true }) .inl
  exact hs.setSock .inl

theorem Inv.step {a : Act} (h : Inv S) (hclear : a.Clear S i) (ha : S.act i a = some S') :
    Inv S' := by
  revert ha
  fun_cases Sys.act S i a <;> rintro ⟨⟩
  · exact h.goto nofun nofun nofun
  · next hfree => exact h.goto (by simpa [Pc.held] using .inl hfree) nofun nofun
  · next hpc hfree =>
    refine h.goto ?_ (fun s hs => h.own i s (hpc ▸ hs)) nofun
    simp [Pc.held, hpc, hfree]
  · exact (h.bind _ _).idle i
  · next hpc => exact (h.listen (h.own_ne_of_inside hpc)).idle i
  · exact (h.accept _).idle i
  · exact h.idle i
  · next hpc hno =>
    refine h.goto (by simp [Pc.held, hpc]) (fun s hs => ?_) nofun
    cases hs
    simpa using (not_or.mp hno).2
  · exact h.idle i
  · next hpc t hname hstream =>
    refine h.goto (by simp [Pc.held, hpc]) (fun s hs => h.own i s (hpc ▸ hs)) ?_
    rintro _ ⟨⟩
    have hothers := hclear _ _ _ t hpc hname
    exact ⟨fun hs => hothers i (hpc ▸ hs), hothers⟩
  · exact h.idle i
  · exact h.idle i
  · refine Inv.idle ?_ i
    split
    · exact h.linkPair _ _
    · exact h
  · exact h.idle i
  · next hpc _ _ _ =>
    exact h.goto (by simp [Pc.held, hpc]) (fun s hs => h.own i s (hpc ▸ hs)) nofun
  · next hpc =>
    exact h.goto (by simp [Pc.held, hpc]) (fun s hs => h.own i s (hpc ▸ hs)) nofun
  · exact h.idle i

theorem Pc.resolved_of_wants {m k : ℕ} (hwants : p.wants = some m) (hheld : k ∈ p.held) :
    p.target = some m ∧ p.own = some k := by
  cases p <;> cases hwants
  · cases hheld
  · exact ⟨rfl, congrArg some (List.mem_singleton.mp hheld).symm⟩

/-- A chain of threads that wait for one another is one of sockets. -/
theorem Inv.waits (h : Inv S) {j k n : ℕ} (hown : (S.pc i).own = some k)
    (hchain : Relation.TransGen S.Blocks i j) (hwants : (S.pc j).wants = some n) :
    ∃ m, (S.pc j).own = some m ∧ Relation.TransGen S.Waits k m := by
  induction hchain generalizing n with
  | single hij =>
    obtain ⟨m, hm, hj⟩ := hij
    obtain ⟨ht, hk⟩ := Pc.resolved_of_wants hm (Pc.own_held hown)
    exact ⟨m, (Pc.resolved_of_wants hwants ((h.held _ m).mp hj)).2, .single ⟨i, hown, ht⟩⟩
  | tail _ hjl ih =>
    obtain ⟨m, hm, hl⟩ := hjl
    obtain ⟨m', hm', hrest⟩ := ih hm
    obtain ⟨ht, -⟩ := Pc.resolved_of_wants hm (Pc.own_held hm')
    exact ⟨m, (Pc.resolved_of_wants hwants ((h.held _ m).mp hl)).2, hrest.tail ⟨_, hm', ht⟩⟩

/-- **No deadlock** on socket mutexes, in a run in which no name a connect resolves is that of a
socket in the middle of a connect: no thread waits for a mutex it holds, or that a thread holds
which waits, in any number of steps, for it.  A listener is never in the middle of a connect. -/
theorem no_cycle_of_waits (h : Lib.Reachable Initial (Step fun S i a => a.Clear S i) S) :
    (∀ i, ¬Relation.TransGen S.Blocks i i) ∧
      ∀ i s, (S.socks s).listening = true → (S.pc i).own ≠ some s := by
  have hi : Inv S := h.invariant (P := Inv)
    (fun S hS => ⟨by simp [hS.1, hS.2, Pc.held], by simp [hS.2, Pc.own], fun s hs => by
      obtain ⟨t, ⟨i, hi, -⟩, -⟩ := Relation.TransGen.head'_iff.mp hs
      simp [hS.2, Pc.own] at hi⟩)
    fun S S' hi ⟨i, a, hclear, ha⟩ => hi.step hclear ha
  refine ⟨fun i hcycle => ?_, fun i s hs hown => ?_⟩
  · -- In a cycle a thread has a mutex and wants one.
    obtain ⟨g, -, m, -, hm⟩ := Relation.TransGen.tail'_iff.mp hcycle
    obtain ⟨j, ⟨n, hwants, -⟩, -⟩ := Relation.TransGen.head'_iff.mp hcycle
    have hown := (Pc.resolved_of_wants hwants ((hi.held i m).mp hm)).2
    obtain ⟨k, hk, hwaits⟩ := hi.waits hown hcycle hwants
    cases hown.symm.trans hk
    exact hi.acyclic m hwaits
  · cases (hi.own i s hown).symm.trans hs

/-- Socket 0 listens under the name 5; socket 3 has the name 6 and does not. -/
def listener : Sys :=
  { socks := update (update (fun _ => {}) 0 { name := some 5, listening := true, backlog := 1 }) 3
      { name := some 6 }
    registry := update (update (fun _ => none) 5 (some 0)) 6 (some 3) }

/-- One thread is about to lock the listener, and another the socket 3. -/
theorem no_cycle_of_waits_listener :
    ∃ S : Sys, (∀ i, ¬Relation.TransGen S.Blocks i i) ∧ (S.pc 1).wants = some 0 ∧
      (S.pc 2).wants = some 3 := by
  have h : Lib.Reachable Initial (Step fun S i a => a.Clear S i) listener := .init ⟨rfl, rfl⟩
  have hlock := (h.step ⟨1, .start (.connect 5 false) 1, trivial, rfl⟩).step
    ⟨1, .lock, trivial, rfl⟩
  have hrun := (hlock.step ⟨1, .run true, fun _ _ _ _ hpc => (by cases hpc), rfl⟩).step
    ⟨1, .run true, fun _ _ _ _ hpc hname j hj => (by
      cases hpc
      cases hname
      rcases j with _ | _ | j <;> cases hj), rfl⟩
  have hlock := (hrun.step ⟨2, .start (.connect 6 false) 2, trivial, rfl⟩).step
    ⟨2, .lock, trivial, rfl⟩
  have hrun := (hlock.step ⟨2, .run true, fun _ _ _ _ hpc => (by cases hpc), rfl⟩).step
    ⟨2, .run true, fun _ _ _ _ hpc hname j hj => (by
      cases hpc
      cases hname
      rcases j with _ | _ | _ | j <;> cases hj), rfl⟩
  exact ⟨_, (no_cycle_of_waits hrun).1, rfl, rfl⟩

/-- A bound socket that connects to its own name waits for itself. -/
theorem connect_to_itself :
    ∃ S : Sys, Lib.Reachable Initial (Step fun _ _ _ => True) S ∧
      Relation.TransGen S.Blocks 0 0 := by
  have h : Lib.Reachable Initial (Step fun _ _ _ => True) { socks := fun _ => {} } :=
    .init ⟨rfl, rfl⟩
  obtain ⟨S, hS, hpc⟩ := h.of_run (fun S a S' (ha : S.act 0 a = some S') => ⟨0, a, trivial, ha⟩)
    [.start (.bind 5) 0, .lock, .run true, .start (.connect 5 false) 0, .lock, .run true, .run true]
    (fun S => (S.pc 0).wants = some 0 ∧ S.owner 0 = some 0) (by decide +kernel)
  exact ⟨S, hS, .single ⟨0, of_decide_eq_true hpc⟩⟩

end CosmoOS.Ipc.UnixLocks
