import CosmoOS.Network.TcpRuns

/-!
# The state diagram of a connection

Whatever is called and whatever the peer sends, a connection moves along the diagram below, which
has no cycles (`rank`).
-/

namespace CosmoOS.Network.Tcp

open Relation

variable {β : Type} {R : Rules β} {C : Pcb β → Call β → Prop}

namespace State

variable {a b : State}

/-- The states that come next. -/
def next : State → List State
  | .closed => []
  | .synSent => [.synRcvd, .established, .closed]
  | .synRcvd => [.established, .finWait1, .closed]
  | .established => [.finWait1, .closeWait, .closed]
  | .finWait1 => [.finWait2, .closing, .timeWait, .closed]
  | .finWait2 | .closing => [.timeWait, .closed]
  | .closeWait => [.lastAck, .closed]
  | .listen | .lastAck | .timeWait => [.closed]

/-- The states after the application's close. -/
def shut (a : State) : Bool := a ∈ [.finWait1, .finWait2, .closing, .lastAck, .timeWait]

/-- A state stays, or takes a step that is not the application's close. -/
def Drifts (a b : State) : Prop := b = a ∨ b ∈ a.next ∧ (b = .closed ∨ b.shut = a.shut)
  deriving Decidable

def rank : State → ℕ
  | .listen | .synSent => 0
  | .synRcvd => 1
  | .established => 2
  | .finWait1 | .closeWait => 3
  | .finWait2 | .closing | .lastAck => 4
  | .timeWait => 5
  | .closed => 6

/-- A path of the diagram. -/
def Path : State → State → Prop := ReflTransGen fun a b => b ∈ a.next

theorem Path.rank_lt (h : Path a b) : b = a ∨ a.rank < b.rank := by
  induction h with
  | refl => exact .inl rfl
  | @tail b c _ hlast ih =>
    have hlt : b.rank < c.rank := by
      revert hlast c
      cases b <;> decide +revert
    grind

theorem Path.antisymm (h : Path a b) (h' : Path b a) : a = b := by
  have := h.rank_lt
  have := h'.rank_lt
  grind

end State

def FinLaw (s : Snd β) : Prop := s.state ≠ .closed → s.finQueued = s.state.shut

/-- The sender is in a later state, with its FIN queued if that is past the close. -/
def Later (a : State) (s : Snd β) : Prop := a.Path s.state ∧ FinLaw s

namespace Later

variable {a : State} {s t : Snd β} {gs : List (Seg β)} {ds : List β} (h : Later a s)

include h

theorem drift (hst : s.state.Drifts t.state) (hq : t.finQueued = s.finQueued) : Later a t := by
  rcases hst with hst | ⟨hb, hshut⟩
  · exact ⟨hst ▸ h.1, fun hne => hst ▸ hq ▸ h.2 (hst ▸ hne)⟩
  · refine ⟨h.1.tail hb, fun hne => ?_⟩
    rw [hq, hshut.resolve_left hne]
    exact h.2 fun hs => by rw [hs] at hb; cases hb

theorem turn (ht : Turn R s t) : Later a t := by
  obtain ⟨t, wnd, mss, pathMss, hacks, -⟩ := ht
  refine h.drift ?_ (by cases hacks <;> rfl)
  cases hacks with
  | stay => exact .inl rfl
  | ack n =>
    show s.state.Drifts (if s.takesFin n then Snd.afterFin s.state else s.state)
    split_ifs
    · cases s.state <;> decide
    · exact .inl rfl
  | opens n hstate | synAck n hstate => exact hstate ▸ of_decide_eq_true rfl

theorem move (hm : Move R s gs ds t) : Later a t := by
  cases hm with
  | queueFin st hown =>
    refine ⟨h.1.tail ?_, fun _ => by cases hown <;> rfl⟩
    rcases hown with ⟨hs | hs⟩ | hs <;> simp [hs, State.next]
  | peerFin st hpeer =>
    refine h.drift ?_ rfl
    rcases hpeer with hs | ⟨hs⟩ | ⟨hs⟩ | hs <;> exact hs ▸ of_decide_eq_true rfl
  | synRcvd hstate => exact h.drift (hstate ▸ of_decide_eq_true rfl) rfl
  | close =>
    refine h.drift ?_ rfl
    show s.state.Drifts .closed
    cases s.state <;> decide
  | _ => exact h

end Later

variable {w w' : Conn β}

/-- What comes later in a run. -/
def Run (C : Pcb β → Call β → Prop) : Conn β → Conn β → Prop :=
  ReflTransGen fun w w' => ∃ gs, Step C w gs w'

theorem Step.later {a : State} {gs : List (Seg β)} (hroom : Room w.pcb.snd)
    (h : Later a w.pcb.snd) (hs : Step C w gs w') : Later a w'.pcb.snd := by
  obtain ⟨b, call, hb, hc⟩ := hs
  obtain ⟨s, gs, hturn, hmoves, -⟩ := perform_turn {} w.pcb call hb hroom (.trivial _ _)
  exact hmoves.invariant (P := fun _ s => Later a s) (fun _ _ _ _ _ h => h.move) [] (h.turn hturn)

theorem Runs.later (h : Runs C w) (hrun : Run C w w') :
    Runs C w' ∧ Later w.pcb.state w'.pcb.snd := by
  induction hrun with
  | refl =>
    refine ⟨h, .refl, h.invariant (P := fun w => FinLaw w.pcb.snd) ?_ ?_⟩
    · exact fun _ hw => by cases hw <;> exact fun _ => rfl
    · exact fun _ _ _ hroom hw hs => (hs.later hroom ⟨.refl, hw⟩).2
  | tail _ hstep ih =>
    obtain ⟨gs, hs⟩ := hstep
    exact ⟨ih.1.step hs, hs.later ih.1.room ih.2⟩

/-- **A connection follows the state diagram.**  In every run, whatever segments, timers and calls
come, the states are a path of the diagram; one that was left is never entered again; and while
the connection lasts its FIN is queued exactly in the states past the application's close. -/
theorem states_follow_diagram (h : Runs C w) (hrun : Run C w w') :
    w.pcb.state.Path w'.pcb.state ∧
    (∀ w'', Run C w' w'' → w''.pcb.state = w.pcb.state → w'.pcb.state = w.pcb.state) ∧
    (w'.pcb.state ≠ .closed → w'.pcb.finQueued = w'.pcb.state.shut) := by
  obtain ⟨hruns, hpath, hfin⟩ := h.later hrun
  refine ⟨hpath, fun w'' hrun' heq => ?_, hfin⟩
  have hback : w'.pcb.state.Path w''.pcb.state := (hruns.later hrun').2.1
  exact (heq ▸ hback).antisymm hpath

theorem states_follow_diagram_shutdown :
    (openConn.next {} .shutdownWrite).pcb.finQueued = true := by
  have hrun : Run (fun _ _ => True) openConn (openConn.next {} .shutdownWrite) :=
    .single ⟨_, .call _ {} .shutdownWrite rfl trivial⟩
  exact (states_follow_diagram (openConn_runs _) hrun).2.2 (by decide)

end CosmoOS.Network.Tcp
