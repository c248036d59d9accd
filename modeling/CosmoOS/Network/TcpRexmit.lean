import CosmoOS.Network.Tcp
import Mathlib.Logic.Relation

/-!
# When the retransmission timer expires

`armRexmit` cancels the timer and starts it again, so the expiry of an armed timer moves to a
round-trip timeout from now.  `outputLocked` ends with it as long as something is outstanding, and
not only a new acknowledgement ends in `outputLocked`: every segment that is accepted does, and what
the application sends, and an acknowledgement that was owed (`Outputs`).
-/

namespace CosmoOS.Network.Tcp

variable {β : Type} {p : Pcb β} {b : Batch β} {call : Call β}

/-- A connection, and the time its retransmission timer expires at if it is armed. -/
structure Clocked (β : Type) where
  pcb : Pcb β
  expiry : ℕ

/-- The call arms the timer: it ends with the timer armed also when it begins with it disarmed. -/
def rearms (p : Pcb β) (b : Batch β) (call : Call β) : Bool :=
  (perform { p with armed := { p.armed with rexmit := false } } b call).1.armed.rexmit

/-- A call at the time `now`; `rto` is the retransmission timeout, which changes with a new
acknowledgement and with the timer's own expiry only. -/
def Clocked.perform (x : Clocked β) (rto now : ℕ) (b : Batch β) (call : Call β) : Clocked β where
  pcb := (Tcp.perform x.pcb b call).1
  expiry := if rearms x.pcb b call then now + rto else x.expiry

/-- A segment that acknowledges nothing new, a call of `send` or `recv`, or the delayed
acknowledgement. -/
def AcksNothing (p : Pcb β) : Call β → Prop
  | .input g => isNewAck p (trim p g) = false
  | .send _ | .recv _ | .timer .delack => True
  | .work .. => p.work.rexmit = false ∧ p.work.timewait = false ∧ p.work.keep = false
  | _ => False

/-- A segment gets past `inputLocked`'s rejections. -/
def Accepts (p : Pcb β) (g : In β) : Prop :=
  acceptable p g = true ∧ (trim p g).flags.rst = false ∧ (trim p g).flags.syn = false ∧
    (trim p g).flags.ack = true ∧
    seqLt g.ack (p.sndUna - BitVec.ofNat 32 tcpMaxWindow) = false ∧ seqGt g.ack p.sndMax = false

/-- A segment is taken for the peer's SYN in `SYN_SENT`. -/
def Opens (p : Pcb β) (g : In β) : Prop :=
  (g.flags.ack && (seqLeq g.ack p.iss || seqGt g.ack p.sndNxt)) = false ∧
    g.flags.rst = false ∧ g.flags.syn = true

/-- The call ends in `outputLocked`, or sends the SYN of a simultaneous open again. -/
def Outputs (p : Pcb β) : Call β → Prop
  | .input g => if p.state = .synSent then Opens p g else Accepts p g
  | .send data => p.error = 0 ∧ (p.state = .established ∨ p.state = .closeWait) ∧
      p.finQueued = false ∧ min data.length p.sndSpace ≠ 0
  | .recv len => min p.rcvbuf.length len ≠ 0 ∧ (p.delackPending = true ∨
      p.rcvWnd < p.mss ∧ p.mss ≤ p.rcvSpace + min p.rcvbuf.length len ∧ p.state = .established)
  | .work .. => p.work.delack = true
  | _ => False

/-- A call that acknowledges nothing new and does not end in the output, at any time. -/
def Tick (rto : ℕ) (x y : Clocked β) : Prop :=
  ∃ now b call, AcksNothing x.pcb call ∧ ¬ Outputs x.pcb call ∧ y = x.perform rto now b call

theorem rexmit_endLocked (h : p.armed.rexmit = false) : (endLocked p).armed.rexmit = false := by
  unfold endLocked retireLocked killLocked
  split_ifs
  · rfl
  · exact h
  · rfl

theorem rexmit_inputLocked {g : In β} (h : ¬ Outputs p (.input g))
    (harmed : p.armed.rexmit = false) : (inputLocked p g b).1.armed.rexmit = false := by
  have hack : (trim p g).ack = g.ack := by
    unfold trim
    split_ifs <;> rfl
  simp only [Outputs] at h
  unfold inputLocked
  split
  next hsyn =>
    rw [if_pos hsyn] at h
    unfold inputSynSent
    split_ifs with hbad
    · exact harmed
    · exact harmed
    · exact rexmit_endLocked harmed
    · exact harmed
    · exact harmed
    all_goals
      refine absurd ?_ h
      simp_all [Opens]
  next hsyn =>
  rw [if_neg hsyn] at h
  split
  · unfold inputTimeWait
    split_ifs <;> exact harmed
  split
  · exact harmed
  next hok =>
    unfold inputAcceptable
    split_ifs with hrst _ _ hs ha hrange
    · exact harmed
    · exact rexmit_endLocked harmed
    · exact rexmit_endLocked harmed
    · exact harmed
    · exact harmed
    · exact harmed
    all_goals
      refine absurd ?_ h
      simp_all [Accepts]

theorem not_rearms (hcall : AcksNothing p call) (h : ¬ Outputs p call) :
    rearms p b call = false := by
  unfold rearms perform
  cases call with
  | input g =>
    dsimp only
    split_ifs
    · rfl
    · exact rexmit_inputLocked h rfl
  | timer t =>
    cases t with
    | delack =>
      dsimp only [timerKick]
      split_ifs <;> rfl
    | _ => cases hcall
  | work idle cnt =>
    obtain ⟨hrexmit, htimewait, hkeep⟩ := hcall
    have hdelack : p.work.delack = false := eq_false_of_ne_true h
    simp [pcbWork, workLocked, workAcks, hrexmit, htimewait, hkeep, hdelack]
  | send data =>
    simp only [send]
    split_ifs with herror hstate _ hfin hpos
    · rfl
    · rfl
    · rfl
    · rfl
    · have hstate : p.state = .established ∨ p.state = .closeWait := by
        by_contra hne
        simp_all
      exact absurd ⟨not_not.mp herror, hstate, eq_false_of_ne_true hfin, hpos⟩ h
    · rfl
  | recv len =>
    simp only [recv]
    split_ifs with hn hout
    · simp only [Bool.or_eq_true, Bool.and_eq_true, decide_eq_true_eq] at hout
      refine absurd ⟨hn, hout.symm.imp id fun hw => ⟨hw.1.1, ?_, hw.2⟩⟩ h
      have hspace := hw.1.2
      simp only [Pcb.rcvSpace, List.length_drop] at hspace ⊢
      omega
    · rfl
    · rfl
  | _ => cases hcall

/-- **The expiry.**  Over calls none of which acknowledges new data and none of which ends in the
output, whenever they are made, the timer's expiry is never moved later. -/
theorem expiry_le {rto : ℕ} {x y : Clocked β} (h : Relation.ReflTransGen (Tick rto) x y) :
    y.expiry ≤ x.expiry := by
  induction h with
  | refl => exact le_rfl
  | @tail y z _ hstep ih =>
    obtain ⟨now, b, call, hcall, hout, rfl⟩ := hstep
    refine le_trans (le_of_eq ?_) ih
    unfold Clocked.perform
    rw [not_rearms hcall hout, if_neg Bool.false_ne_true]

/-- One byte is sent at the time 0, with a timeout of 1000. -/
def sentOne : Clocked ℕ where
  pcb := (perform (child 0 0 536 1460 ⟨1, 1, [], 4000, { ack := true }, none⟩) {} (.send [7])).1
  expiry := 1000

/-- A segment from outside the window is answered, and the timer left alone. -/
theorem expiry_le_stray : Tick 1000 sentOne
      (sentOne.perform 1000 5 {} (.input ⟨0, 1, [], 4000, { ack := true }, none⟩)) ∧
    (sentOne.perform 1000 5 {} (.input ⟨0, 1, [], 4000, { ack := true }, none⟩)).expiry ≤ 1000 := by
  have hstep : Tick 1000 sentOne
      (sentOne.perform 1000 5 {} (.input ⟨0, 1, [], 4000, { ack := true }, none⟩)) :=
    ⟨5, {}, .input ⟨0, 1, [], 4000, { ack := true }, none⟩, rfl,
      fun h => absurd (show Accepts _ _ from h).1 (by decide), rfl⟩
  exact ⟨hstep, expiry_le (.single hstep)⟩

/-- A duplicate acknowledgement at the time 1. -/
theorem expiry_moved_later : ∃ call, AcksNothing sentOne.pcb call ∧
    sentOne.pcb.armed.rexmit = true ∧ seqGt sentOne.pcb.sndNxt sentOne.pcb.sndUna = true ∧
    sentOne.expiry < (sentOne.perform 1000 1 {} call).expiry :=
  ⟨.input ⟨1, 1, [], 4000, { ack := true }, none⟩, rfl, rfl, rfl, by decide⟩

end CosmoOS.Network.Tcp
