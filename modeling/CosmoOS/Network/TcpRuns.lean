import CosmoOS.Lib.Transition
import CosmoOS.Network.TcpCalls

/-!
# The life of a connection

A connection begins with `connect`, or as the child of a listener, and lives through any calls in
any order: segments, timers, the worker, the application, path-MTU notices.  Beside the connection
itself a run keeps what is claimed about: the bytes that the application has written, and how far
ahead of `snd_una` the numbers go that have been transmitted.

A run may be held to a condition on its calls (`Step C`), which is one on the connection before
the call and the call.  `Step.acts` is what every step is, seen from the sending side;
`Runs.room` is what holds of the sending side in every run.
-/

namespace CosmoOS.Network.Tcp

open Lib.Serial

variable {β : Type}

/-- A connection, with what has happened. -/
structure Conn (β : Type) where
  pcb : Pcb β
  /-- The bytes that `send` has taken. -/
  app : List β
  /-- How far ahead of `snd_una` the data and FINs go that have been transmitted. -/
  reach : ℕ

/-- How far ahead of a number the data and the FIN of a segment go. -/
def Seg.reach (una : Seq) (g : Seg β) : ℕ :=
  if g.data.isEmpty && !g.flags.fin then 0
  else ahead una g.seq + g.data.length + if g.flags.fin then 1 else 0

/-- After a call. -/
def Conn.next (w : Conn β) (b : Batch β) (call : Call β) : Conn β :=
  let r := perform w.pcb b call
  { pcb := r.1
    app := w.app ++ written w.pcb call
    reach := (r.2.sent.map (Seg.reach r.1.sndUna)).foldr max
      (w.reach - ahead w.pcb.sndUna r.1.sndUna) }

/-- How a connection begins. -/
inductive Starts : Conn β → Prop
  | connect (q : Pcb β) (iss : Seq) (pathMss : ℕ) (b : Batch β) (hstate : q.state = .closed)
      (hkilled : q.killed = false) (hmss : 0 < pathMss) :
      Starts ⟨(connect q iss pathMss b).1, [], 0⟩
  /-- `listenInput` makes a child only of an acknowledgement of its SYN. -/
  | child (iss irs : Seq) (peerMss pathMss : ℕ) (g : In β) (hack : g.ack = iss + 1)
      (hmss : 0 < peerMss ∧ 0 < pathMss) : Starts ⟨child iss irs peerMss pathMss g, [], 0⟩

/-- A call that meets the condition, with the segments that it transmits. -/
inductive Step (C : Pcb β → Call β → Prop) : Conn β → List (Seg β) → Conn β → Prop
  | call (w : Conn β) (b : Batch β) (call : Call β) (hb : b.segs = []) (hc : C w.pcb call) :
      Step C w (perform w.pcb b call).2.sent (w.next b call)

/-- The connections that runs reach, all of whose calls meet the condition. -/
def Runs (C : Pcb β → Call β → Prop) : Conn β → Prop :=
  Lib.Reachable Starts fun w w' => ∃ gs, Step C w gs w'

theorem Runs.step {C : Pcb β → Call β → Prop} {w w' : Conn β} {gs : List (Seg β)}
    (h : Runs C w) (hs : Step C w gs w') : Runs C w' := Lib.Reachable.step h ⟨gs, hs⟩

theorem sent_subset (b : Batch β) : b.sent ⊆ b.segs := by
  unfold Batch.sent
  split_ifs
  · exact List.nil_subset _
  · exact List.Subset.refl _

section Steps

variable {C : Pcb β → Call β → Prop} {w w' : Conn β} {gs : List (Seg β)}

/-- **A step is a turn and then moves**, of which the transmitted segments are a part. -/
theorem perform_turn (R : Rules β) (p : Pcb β) {b : Batch β} (call : Call β) (hb : b.segs = [])
    (hroom : Room p.snd) (hallow : Allowed R p call) :
    ∃ s gs, Turn R p.snd s ∧ Moves R s gs (written p call) (perform p b call).1.snd ∧
      (perform p b call).2.sent ⊆ gs := by
  obtain ⟨s, gs, hturn, hsegs, hmoves⟩ := perform_acts p b call hroom hallow
  refine ⟨s, gs, hturn, hmoves, ?_⟩
  rw [hb, List.nil_append] at hsegs
  rw [← hsegs]
  exact sent_subset _

theorem Allowed.trivial (p : Pcb β) (call : Call β) : Allowed ({} : Rules β) p call := by
  refine ⟨fun g _ => ⟨?_, ?_, ?_, ?_⟩, fun _ => True.intro, fun _ _ => True.intro,
    fun _ => True.intro⟩
  · exact fun _ _ _ _ _ => True.intro
  · exact fun _ _ _ _ _ _ => True.intro
  · exact fun _ _ => True.intro
  · exact fun _ _ => True.intro

theorem Starts.room (h : Starts w) : Room w.pcb.snd := by
  cases h with
  | connect q iss pathMss b hstate hkilled hmss =>
    have hone : ahead iss (iss + 1) = 1 := ahead_base_add iss (n := 1) (by omega)
    exact ⟨le_of_eq rfl, le_of_eq hone, Nat.zero_le _, nofun, nofun, fun _ => ⟨rfl, rfl, rfl, rfl⟩,
      fun _ => rfl, fun hk => absurd (hk.symm.trans hkilled) (by decide)⟩
  | child iss irs peerMss pathMss g hack hmss =>
    refine ⟨le_of_eq rfl, ?_, Nat.zero_le _, nofun, nofun, ?_, nofun, nofun⟩
    · exact le_of_eq_of_le (ahead_self _) (Nat.zero_le _)
    · rintro (h | h) <;> cases h

theorem Step.room (h : Room w.pcb.snd) (hs : Step C w gs w') : Room w'.pcb.snd := by
  cases hs with
  | call b call hb hc =>
    obtain ⟨s, gs, hturn, hmoves, -⟩ := perform_turn {} w.pcb call hb h (.trivial _ _)
    exact (h.turn hturn).moves hmoves

/-- **In every run** the numbers of the sending side stay close. -/
theorem Runs.room (h : Runs C w) : Room w.pcb.snd := by
  refine Lib.Reachable.invariant (P := fun w => Room w.pcb.snd) (fun _ h => h.room) ?_ h
  rintro w w' hroom ⟨gs, hs⟩
  exact hs.room hroom

/-- **The rule for runs.** -/
theorem Runs.invariant {P : Conn β → Prop} (hinit : ∀ w, Starts w → P w)
    (hstep : ∀ w gs w', Room w.pcb.snd → P w → Step C w gs w' → P w') (h : Runs C w) : P w := by
  have hboth : Room w.pcb.snd ∧ P w := by
    refine Lib.Reachable.invariant (P := fun w => Room w.pcb.snd ∧ P w)
      (fun w h => ⟨h.room, hinit w h⟩) ?_ h
    rintro w w' ⟨hroom, hw⟩ ⟨gs, hs⟩
    exact ⟨hs.room hroom, hstep w gs w' hroom hw hs⟩
  exact hboth.2

end Steps

/-! ## A connection that has just been opened -/

/-- The child of a listener, at its first segment. -/
def openConn : Conn ℕ :=
  ⟨child 0 99 1460 1460
    { seq := 100, ack := 1, data := [], win := 1000, flags := { ack := true }, mss := none }, [], 0⟩

theorem openConn_runs (C : Pcb ℕ → Call ℕ → Prop) : Runs C openConn :=
  Lib.Reachable.init (.child 0 99 1460 1460 _ rfl (by decide))

def callingConn : Conn ℕ :=
  ⟨(connect { openConn.pcb with state := .closed } 0 1460 {}).1, [], 0⟩

theorem callingConn_runs (C : Pcb ℕ → Call ℕ → Prop) : Runs C callingConn :=
  Lib.Reachable.init (.connect _ 0 1460 {} rfl rfl (by decide))

/-- The peer's acknowledgement of `ack`, with window `win`. -/
def ackSegment (ack : Seq) (win : ℕ) : In ℕ :=
  { seq := 100, ack := ack, data := [], win := win, flags := { ack := true }, mss := none }

end CosmoOS.Network.Tcp
