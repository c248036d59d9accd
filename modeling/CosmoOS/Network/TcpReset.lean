import CosmoOS.Network.Tcp

/-!
# Resets

A reset is to end a connection only if it names exactly `rcv_nxt`.  `inputLocked` makes that test
on the segment after what precedes `rcv_nxt` has been trimmed from it, and a segment that begins
before `rcv_nxt` and reaches into the window begins exactly at `rcv_nxt` after the trimming.  Such
a reset (`straddles`) ends the connection whatever its own number is; every other one is tested by
the number it carries.
-/

namespace CosmoOS.Network.Tcp

open Lib.Serial

variable {β : Type}

/-- The segment's data begin before `rcv_nxt` and end inside the window. -/
def straddles (p : Pcb β) (g : In β) : Bool :=
  let last := g.seq + BitVec.ofNat 32 g.data.length - 1
  g.data.length ≠ 0 && p.rcvWnd ≠ 0 && seqLt g.seq p.rcvNxt && seqGeq last p.rcvNxt &&
    seqLt last (p.rcvNxt + BitVec.ofNat 32 p.rcvWnd)

theorem seqGeq_eq_false_of_seqLt {a b : Seq} (h : seqLt a b = true) : seqGeq a b = false := by
  simp only [seqLt, seqGeq, decide_eq_true_eq, decide_eq_false_iff_not] at *
  omega

theorem ne_of_seqLt {a b : Seq} (h : seqLt a b = true) : a ≠ b := by
  rintro rfl
  simp [seqLt] at h

variable {p : Pcb β} {g : In β}

theorem acceptable_of_seqLt (h : seqLt g.seq p.rcvNxt = true) :
    acceptable p g = straddles p g := by
  have hgeq := seqGeq_eq_false_of_seqLt h
  have hne := ne_of_seqLt h
  unfold acceptable straddles
  by_cases hlen : g.data.length = 0
  · simp [hlen, hne, hgeq]
  · simp [hlen, hgeq, h, Bool.and_assoc]

theorem trim_of_not_seqLt (h : seqLt g.seq p.rcvNxt = false) :
    trim p g = g := by
  simp [trim, h]

/-- The end of a segment that straddles is at or after `rcv_nxt`, so that what precedes `rcv_nxt`
is less than the whole. -/
theorem ahead_lt_length_of_straddles (hlen : g.data.length < 2 ^ 31) (h : straddles p g = true) :
    ahead g.seq p.rcvNxt < g.data.length := by
  simp only [straddles, Bool.and_eq_true, decide_eq_true_eq, ne_eq] at h
  obtain ⟨⟨⟨⟨hpos, -⟩, hlt⟩, hgeq⟩, -⟩ := h
  simp only [seqLt, seqGeq, decide_eq_true_eq, ge_iff_le] at hlt hgeq
  rw [toInt_eq] at hlt hgeq
  unfold ahead
  split_ifs at hlt hgeq <;> bv_omega

/-- **A segment that straddles is trimmed to `rcv_nxt`.** -/
theorem trim_seq_of_straddles (hlen : g.data.length < 2 ^ 31) (h : straddles p g = true) :
    (trim p g).seq = p.rcvNxt := by
  have hahead := ahead_lt_length_of_straddles hlen h
  have hlt : seqLt g.seq p.rcvNxt = true := by
    simp only [straddles, Bool.and_eq_true] at h
    exact h.1.1.2
  have hskip : min (p.rcvNxt - g.seq).toNat g.data.length = ahead g.seq p.rcvNxt :=
    min_eq_left (Nat.le_of_lt hahead)
  simp only [trim, hlt, if_true, hskip]
  exact add_ahead g.seq p.rcvNxt

theorem trim_rst (p : Pcb β) (g : In β) : (trim p g).flags.rst = g.flags.rst := by
  unfold trim
  split_ifs <;> rfl

theorem endLocked_state (h : p.killed = false) : (endLocked p).state = .closed := by
  unfold endLocked
  split_ifs
  · rfl
  · simp [killLocked, h]

/-- A reset that names `rcv_nxt` once it is trimmed ends the connection. -/
theorem inputAcceptable_of_seq_eq (g₀ : In β) (b : Batch β) (hkilled : p.killed = false)
    (hrst : g.flags.rst = true) (hseq : g.seq = p.rcvNxt) :
    (inputAcceptable p g g₀ b).1.state = .closed := by
  simp only [inputAcceptable, hrst, hseq, if_true, ne_eq, not_true_eq_false, if_false]
  exact endLocked_state hkilled

theorem inputAcceptable_of_seq_ne (g₀ : In β) (b : Batch β) (hrst : g.flags.rst = true)
    (hseq : g.seq ≠ p.rcvNxt) :
    (inputAcceptable p g g₀ b).1 = p := by
  simp [inputAcceptable, hrst, hseq]

/-- **When a reset may end a connection.**  For a connection that is neither closed nor waiting
for its peer's SYN nor in `TIME_WAIT`, and a segment with RST set: only the reset that names
`rcv_nxt` ends it, and any other leaves the whole connection as it was, exactly when the segment's
data do not begin before `rcv_nxt` and end inside the window. -/
theorem reset_names_rcvNxt (p : Pcb β) (g : In β) (b : Batch β)
    (hstate : p.state ≠ .closed ∧ p.state ≠ .listen ∧ p.state ≠ .synSent ∧ p.state ≠ .timeWait)
    (hkilled : p.killed = false) (hrst : g.flags.rst = true) (hlen : g.data.length < 2 ^ 31) :
    (((perform p b (.input g)).1.state = .closed → g.seq = p.rcvNxt) ∧
      (g.seq ≠ p.rcvNxt → (perform p b (.input g)).1 = p)) ↔ straddles p g = false := by
  obtain ⟨hclosed, hlisten, hsyn, hwait⟩ := hstate
  have hperform : perform p b (.input g) =
      if !acceptable p g then (p, b) else inputAcceptable p (trim p g) g b := by
    simp [perform, hclosed, hlisten, inputLocked, hsyn, hwait, hrst]
  have hrst' : (trim p g).flags.rst = true := by rw [trim_rst, hrst]
  by_cases hlt : seqLt g.seq p.rcvNxt = true
  · have hne := ne_of_seqLt hlt
    rw [hperform, acceptable_of_seqLt hlt]
    cases hs : straddles p g with
    | false => simp [hclosed]
    | true =>
      have hend := inputAcceptable_of_seq_eq g b hkilled hrst' (trim_seq_of_straddles hlen hs)
      simp [hend, hne]
  · have hlt' : seqLt g.seq p.rcvNxt = false := by simpa using hlt
    have hs : straddles p g = false := by simp [straddles, hlt']
    have hsame : g.seq ≠ p.rcvNxt → (perform p b (.input g)).1 = p := by
      intro hne
      rw [hperform, trim_of_not_seqLt hlt']
      split_ifs
      · rfl
      · exact inputAcceptable_of_seq_ne g b hrst hne
    refine iff_of_true ⟨fun hend => ?_, hsame⟩ hs
    by_contra hne
    rw [hsame hne] at hend
    exact hclosed hend

/-- An established connection that expects number 100. -/
def openPcb : Pcb ℕ :=
  child 0 99 1460 1460
    { seq := 100, ack := 1, data := [], win := 1000, flags := { ack := true }, mss := none }

/-- A reset that carries `n` bytes from number `seq` on. -/
def resetAt (seq : Seq) (n : ℕ) : In ℕ :=
  { seq := seq, ack := 1, data := List.replicate n 0, win := 0, flags := { rst := true }
    mss := none }

theorem reset_names_rcvNxt_openPcb :
    (((perform openPcb {} (.input (resetAt 101 0))).1.state = .closed →
        (resetAt 101 0).seq = openPcb.rcvNxt) ∧
      ((resetAt 101 0).seq ≠ openPcb.rcvNxt →
        (perform openPcb {} (.input (resetAt 101 0))).1 = openPcb)) :=
  (reset_names_rcvNxt openPcb (resetAt 101 0) {} (by decide) rfl rfl (by decide)).mpr (by decide)

/-- A reset of two bytes from number 99, one before what is expected, ends the connection. -/
theorem reset_trimmed_to_rcvNxt :
    (resetAt 99 2).seq ≠ openPcb.rcvNxt ∧
      (perform openPcb {} (.input (resetAt 99 2))).1.state = .closed := by
  decide

end CosmoOS.Network.Tcp
