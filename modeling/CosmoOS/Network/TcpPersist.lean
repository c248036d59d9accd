import CosmoOS.Network.TcpRuns

/-!
# A window that stays closed

A peer may keep its window closed as long as it likes, if it answers the probes.  The probes are
sent by the retransmission timer, and `rexmit_count` counts them with the retransmissions: it is
reset only by an acknowledgement of something new.  A peer that answers every probe but takes none
of its bytes is therefore given up after `TCP_MAX_REXMIT` of them.

* `Pcb.tally` is what the counter depends on.
* `Persist` is a connection with the peer's side of the bargain: whether the last probe has been
  answered, and how many there have been since something new was acknowledged.
* `persist_never_times_out` is what holds while these are not too many.
-/

namespace CosmoOS.Network.Tcp

variable {β : Type} {p q : Pcb β}

/-! ## What the counter depends on -/

section

variable (p) (g : In β) (b : Batch β)

/-- The counter of retransmissions, the error, and the timers that have expired. -/
def Pcb.tally : ℕ × Int × Timers := (p.rexmitCount, p.error, p.work)

theorem tally_outputLocked : (outputLocked p b).1.tally = p.tally := by
  have h := congrArg Pcb.tally (still_outputLocked p b)
  exact h

theorem tally_endLocked : (endLocked p).tally = p.tally := by
  unfold endLocked killLocked
  split_ifs <;> rfl

theorem tally_orphanFinWait2 : (orphanFinWait2 p).tally = p.tally := by
  unfold orphanFinWait2
  split_ifs <;> rfl

theorem tally_takeFin : (takeFin p).tally = p.tally := by
  simp only [takeFin]
  split
  · rfl
  · split_ifs <;> rfl
  · rfl
  · rfl

theorem tally_finInput (finNow drainedFin : Bool) :
    (finInput p g b finNow drainedFin).1.tally = p.tally := by
  simp only [finInput]
  split_ifs
  · exact (tally_outputLocked _ b).trans (tally_takeFin p)
  · exact tally_outputLocked _ b
  · rfl

theorem tally_ackData : (ackData p b).1.tally = p.tally := by
  unfold ackData
  split_ifs
  · exact tally_outputLocked _ b
  · rfl

theorem tally_dataInput : (dataInput p g b).1.tally = p.tally := by
  unfold dataInput
  split_ifs
  · have htake := congrArg Pcb.tally (sending_takeData p g.data)
    exact (tally_finInput _ _ _ _ _).trans ((tally_ackData _ b).trans htake)
  · have hinsert := congrArg Pcb.tally (sending_oooInsert p g.seq g.data g.flags.fin)
    exact (tally_finInput _ _ _ _ _).trans hinsert
  · exact tally_finInput _ _ _ _ _

theorem tally_updateWindow : (updateWindow p g).tally = p.tally := by
  unfold updateWindow
  split_ifs <;> rfl

theorem tally_dupAck : (dupAck p b).1.tally = p.tally := by
  simp only [dupAck]
  split_ifs <;> rfl

theorem tally_finAcked : (finAcked p).1.tally = p.tally := by
  unfold finAcked
  split
  · exact tally_orphanFinWait2 _
  · rfl
  · exact tally_endLocked _
  · rfl

/-- **An acknowledgement of something new resets the counter.** -/
theorem tally_newAck (a : Seq) : (newAck p a).1.tally = (0, p.error, p.work) := by
  rw [newAck_eq]
  split_ifs
  · exact tally_finAcked _
  · rfl

/-! ## Segments -/

/-- A segment that gets as far as its acknowledgement: the counter is reset if that is of something
new, and is left alone if not. -/
theorem tally_inputAccepted :
    (inputAccepted p g b).1.tally =
      (if isNewAck p g then 0 else p.rexmitCount, p.error, p.work) := by
  have hafter : ∀ (q : Pcb β) (b : Batch β), (dataInput (updateWindow q g) g b).1.tally = q.tally :=
    fun q b => (tally_dataInput _ g b).trans (tally_updateWindow q g)
  simp only [inputAccepted, ackInput]
  have hnew : isNewAck { p with keepProbes := 0 } g = isNewAck p g := rfl
  rw [hnew]
  cases isNewAck p g with
  | true =>
    have htally := tally_newAck { p with keepProbes := 0 } g.ack
    rcases hn : newAck { p with keepProbes := 0 } g.ack with ⟨q, ended⟩
    rw [hn] at htally
    cases ended with
    | true => exact htally
    | false => exact (hafter q _).trans htally
  | false =>
    by_cases hdup : isDupAck { p with keepProbes := 0 } g = true
    · rw [if_pos hdup]
      have htally := tally_dupAck { p with keepProbes := 0 } { b with quiet := false }
      exact (hafter _ _).trans htally
    · rw [if_neg hdup]
      exact hafter { p with keepProbes := 0 } _

end

/-- The counter is left alone or reset, and the error is not a timeout's. -/
structure Tallied (p q : Pcb β) : Prop where
  count : q.rexmitCount = p.rexmitCount ∨ q.rexmitCount = 0
  error : q.error = p.error ∨ q.error ≠ -etimedout
  work : q.work = p.work

theorem Tallied.of_eq (h : q.tally = p.tally) : Tallied p q := by
  simp only [Pcb.tally, Prod.mk.injEq] at h
  exact ⟨.inl h.1, .inl h.2.1, h.2.2⟩

theorem Tallied.of_error (e : Int) (he : e ≠ -etimedout)
    (h : q.tally = (p.rexmitCount, e, p.work)) : Tallied p q := by
  simp only [Pcb.tally, Prod.mk.injEq] at h
  exact ⟨.inl h.1, .inr (by rw [h.2.1]; exact he), h.2.2⟩

theorem Tallied.of_reset (h : q.tally = (0, p.error, p.work)) : Tallied p q := by
  simp only [Pcb.tally, Prod.mk.injEq] at h
  exact ⟨.inr h.1, .inl h.2.1, h.2.2⟩

theorem Tallied.trans {r : Pcb β} (h : Tallied p q) (h' : Tallied q r) : Tallied p r := by
  refine ⟨?_, ?_, h'.work.trans h.work⟩
  · rcases h'.count with hr | hr
    · rw [hr]
      exact h.count
    · exact .inr hr
  · rcases h'.error with hr | hr
    · rw [hr]
      exact h.error
    · exact .inr hr

/-- **What the small changes do to the counter.** -/
theorem tallied_way : Way ({} : Rules β) fun x y => Tallied x.1 y.1 where
  trans := Tallied.trans
  same hidle _ := .of_eq (congrArg Pcb.tally hidle :)
  plain _ _ _ _ := .of_eq rfl
  output p b := .of_eq (tally_outputLocked p b)
  close _ _ _ := .of_eq rfl
  error _ _ e he := .of_error e he rfl
  queueFin _ _ _ _ := .of_eq rfl

section

variable (p) (g : In β) (b : Batch β)

theorem inputAccepted_tallied : Tallied p (inputAccepted p g b).1 := by
  have htally := tally_inputAccepted p g b
  split_ifs at htally
  · exact .of_reset htally
  · exact .of_eq htally

theorem inputSynSent_tallied : Tallied p (inputSynSent p g b).1 := by
  simp only [inputSynSent]
  split_ifs
  · exact .of_eq rfl
  · exact .of_eq rfl
  · exact .of_error (-econnrefused) (by decide) (tally_endLocked _)
  · exact .of_eq rfl
  · exact .of_eq rfl
  · exact .of_reset (tally_outputLocked _ _)
  · exact .of_eq rfl

theorem inputAcceptable_tallied (g g₀ : In β) (b : Batch β) :
    Tallied p (inputAcceptable p g g₀ b).1 := by
  simp only [inputAcceptable]
  split_ifs
  · exact .of_eq rfl
  · exact .of_error (-econnrefused) (by decide) (tally_endLocked _)
  · exact .of_error (-econnreset) (by decide) (tally_endLocked _)
  · exact .of_eq rfl
  · exact .of_eq rfl
  · exact .of_eq rfl
  · exact .of_eq rfl
  · have hopen := tally_inputAccepted (openSynRcvd p g) g b
    have hzero : (openSynRcvd p g).rexmitCount = 0 := rfl
    rw [hzero, ite_self] at hopen
    exact .of_reset hopen
  · exact inputAccepted_tallied p g b

theorem inputLocked_tallied : Tallied p (inputLocked p g b).1 := by
  unfold inputLocked
  split_ifs
  · exact inputSynSent_tallied p g b
  · refine .of_eq ?_
    simp only [inputTimeWait]
    split_ifs <;> rfl
  · exact .of_eq rfl
  · exact .of_eq rfl
  · exact inputAcceptable_tallied p (trim p g) g b

/-! ## The timers' work -/

theorem tally_keepFire (idle : Bool) (cnt : ℕ) :
    (keepFire p b idle cnt).1.rexmitCount = p.rexmitCount ∧
      (keepFire p b idle cnt).1.work = p.work ∧
      ((keepFire p b idle cnt).1.error = p.error ∨ cnt ≤ p.keepProbes) := by
  have hend : ∀ q : Pcb β, (endLocked q).rexmitCount = q.rexmitCount ∧
      (endLocked q).work = q.work ∧ (endLocked q).error = q.error := by
    intro q
    have h := tally_endLocked q
    simp only [Pcb.tally, Prod.mk.injEq] at h
    exact ⟨h.1, h.2.2, h.2.1⟩
  simp only [keepFire]
  split_ifs with h1 h2 h3 h4 h5
  · exact ⟨rfl, rfl, .inl rfl⟩
  · exact ⟨(hend p).1, (hend p).2.1, .inl (hend p).2.2⟩
  · exact ⟨rfl, rfl, .inl rfl⟩
  · exact ⟨rfl, rfl, .inl rfl⟩
  · have he := hend { p with error := -etimedout }
    exact ⟨he.1, he.2.1, .inr h5⟩
  · exact ⟨rfl, rfl, .inl rfl⟩

/-- The retransmission timer counts one more, and gives up only when that is too many. -/
theorem tally_rexmitFire (h : p.rexmitCount < tcpMaxRexmit) (hbit : p.work.rexmit = false) :
    (rexmitFire p b).1.tally = (p.rexmitCount + 1, p.error, p.work) := by
  have hmax : ¬ p.rexmitCount + 1 > tcpMaxRexmit := Nat.not_lt.mpr h
  simp only [rexmitFire, hmax, if_false]
  split_ifs
  · rfl
  · rfl
  · have hout := tally_outputLocked { p with
      rexmitCount := p.rexmitCount + 1
      ssthresh := halfFlight { p with rexmitCount := p.rexmitCount + 1 }, cwnd := p.mss
      sndNxt := p.sndUna, finSent := false, work := { p.work with rexmit := true } } b
    simp only [Pcb.tally, Prod.mk.injEq] at hout ⊢
    refine ⟨hout.1, hout.2.1, ?_⟩
    rw [hout.2.2]
    cases hw : p.work
    rw [hw] at hbit
    simp only at hbit
    rw [hbit]

end

/-- The worker counts at most one more, for an expired timer, and gives up only for keepalive. -/
structure Worked (flags : Timers) (idle : Prop) (p q : Pcb β) : Prop where
  count : q.rexmitCount = p.rexmitCount ∨
    (flags.rexmit = true ∧ q.rexmitCount = p.rexmitCount + 1)
  error : q.error = p.error ∨ idle
  work : q.work = p.work

theorem Worked.of_eq {flags : Timers} {idle : Prop} (h : q.tally = p.tally) :
    Worked flags idle p q := by
  simp only [Pcb.tally, Prod.mk.injEq] at h
  exact ⟨.inl h.1, .inl h.2.1, h.2.2⟩

section

variable (p) (flags : Timers) (b : Batch β)

theorem workAcks_worked (idle : Prop) (h : flags.rexmit = true → p.rexmitCount < tcpMaxRexmit)
    (hbit : p.work.rexmit = false) : Worked flags idle p (workAcks p flags b).1 := by
  have hfire : ∀ (q : Pcb β) (b : Batch β), q.tally = p.tally → Worked flags idle p
      (if (!flags.rexmit || q.state = .listen || q.state = .timeWait || !rexmitDue q) = true
        then (q, b) else rexmitFire q b).1 := by
    intro q b hq
    have hq' := hq
    simp only [Pcb.tally, Prod.mk.injEq] at hq'
    obtain ⟨hcount, herror, hwork⟩ := hq'
    split_ifs with hskip
    · exact .of_eq hq
    · simp only [Bool.or_eq_true, Bool.not_eq_true', not_or, Bool.not_eq_false] at hskip
      have hset := hskip.1.1.1
      have htally := tally_rexmitFire q b (by rw [hcount]; exact h hset) (by rwa [hwork])
      simp only [Pcb.tally, Prod.mk.injEq] at htally
      obtain ⟨hcount', herror', hwork'⟩ := htally
      exact ⟨.inr ⟨hset, by rw [hcount', hcount]⟩, .inl (herror'.trans herror), hwork'.trans hwork⟩
  simp only [workAcks]
  cases flags.delack with
  | true => exact hfire _ _ (tally_outputLocked { p with ackNow := p.delackPending } b)
  | false => exact hfire p b rfl

theorem workLocked_worked (idle : Bool) (cnt : ℕ)
    (h : flags.rexmit = true → p.rexmitCount < tcpMaxRexmit) (hbit : p.work.rexmit = false) :
    Worked flags (flags.keep = true ∧ cnt ≤ p.keepProbes) p
      (workLocked p flags b idle cnt).1 := by
  simp only [workLocked]
  split_ifs with hclosed hwait hkeep hended
  · exact .of_eq rfl
  · exact .of_eq (tally_endLocked p)
  all_goals try obtain ⟨hcount, hwork, herror⟩ := tally_keepFire p b idle cnt
  · exact ⟨.inl hcount, herror.imp id fun hcnt => ⟨hkeep, hcnt⟩, hwork⟩
  · have hrest := workAcks_worked (keepFire p b idle cnt).1 flags (keepFire p b idle cnt).2
      (flags.keep = true ∧ cnt ≤ p.keepProbes) (by rwa [hcount]) (by rwa [hwork])
    refine ⟨?_, ?_, hrest.work.trans hwork⟩
    · rw [← hcount]
      exact hrest.count
    · rcases hrest.error with he | he
      · exact herror.imp (fun h => he.trans h) fun hcnt => ⟨hkeep, hcnt⟩
      · exact .inr he
  · exact workAcks_worked p flags b _ h hbit

theorem pcbWork_worked (idle : Bool) (cnt : ℕ)
    (h : p.work.rexmit = true → p.rexmitCount < tcpMaxRexmit) :
    ((pcbWork p b idle cnt).1.rexmitCount = p.rexmitCount ∨
        (p.work.rexmit = true ∧ (pcbWork p b idle cnt).1.rexmitCount = p.rexmitCount + 1)) ∧
      ((pcbWork p b idle cnt).1.error = p.error ∨ (p.work.keep = true ∧ cnt ≤ p.keepProbes)) ∧
      (pcbWork p b idle cnt).1.work.rexmit = false := by
  have hworked := workLocked_worked { p with work := {} } p.work b idle cnt h rfl
  refine ⟨hworked.count, hworked.error, ?_⟩
  have hwork : (pcbWork p b idle cnt).1.work = {} := hworked.work
  rw [hwork]

/-! ## The other calls -/

theorem tally_send (data : List β) (b : Batch β) : (send p data b).2.1.tally = p.tally := by
  cases hr : refuses p with
  | true => rw [send_of_refuses hr]
  | false =>
    rw [send_of_not_refuses hr]
    split_ifs
    · exact tally_outputLocked _ b
    · rfl

theorem tally_recv (len : ℕ) (b : Batch β) : (recv p len b).2.2.1.tally = p.tally := by
  simp only [recv]
  split_ifs
  · exact tally_outputLocked _ b
  · rfl
  · rfl

theorem tally_pmtuNotify (seq : Seq) (mtu overhead : ℕ) (b : Batch β) :
    (pmtuNotify p seq mtu overhead b).2.1.tally = p.tally := by
  unfold pmtuNotify
  extract_lets mss q
  split
  · rfl
  · exact tally_outputLocked _ b

/-- What is neither a timer nor the worker leaves the counter alone, or resets it. -/
theorem perform_tallied (call : Call β) (hwork : ∀ idle cnt, call ≠ .work idle cnt)
    (htimer : ∀ t, call ≠ .timer t) : Tallied p (perform p b call).1 := by
  cases call with
  | input g =>
    simp only [perform]
    by_cases hclosed : (p.state = .closed || p.state = .listen) = true
    · rw [if_pos hclosed]
      exact .of_eq rfl
    · rw [if_neg hclosed]
      exact inputLocked_tallied p g b
  | timer t => exact absurd rfl (htimer t)
  | work idle cnt => exact absurd rfl (hwork idle cnt)
  | send data => exact .of_eq (tally_send p data b)
  | recv len => exact .of_eq (tally_recv p len b)
  | shutdownWrite => exact tallied_way.shutdown p b True.intro
  | close => exact tallied_way.closes p b True.intro
  | pmtuNotify seq mtu overhead => exact .of_eq (tally_pmtuNotify p seq mtu overhead b)
  | outputResult refused => exact tallied_way.result p b refused
  | accept => exact .of_eq rfl

end

/-! ## A peer that answers -/

/-- A connection whose peer keeps its window closed, with whether the last expiry of the
retransmission timer has been answered, and how many the worker has acted on since something new
was acknowledged. -/
structure Persist (β : Type) where
  pcb : Pcb β
  answered : Bool
  fires : ℕ

/-- The segment is an answer: an acknowledgement that is taken. -/
def answers (p : Pcb β) (g : In β) : Bool :=
  p.state.synchronized && accepts p g &&
    !(seqLt g.ack (p.sndUna - BitVec.ofNat 32 tcpMaxWindow) || seqGt g.ack p.sndMax)

def acksNew (p : Pcb β) (g : In β) : Bool := answers p g && isNewAck p (trim p g)

/-- The window is closed, and nothing is waiting to be answered. -/
def PersistStarts (w : Persist β) : Prop :=
  w.pcb.rexmitCount = 0 ∧ w.pcb.work.rexmit = false ∧ w.pcb.sndWnd = 0 ∧ w.answered = true ∧
    w.fires = 0

/-- What happens to it.  The peer's segments leave the window closed, and the retransmission timer
expires only where the condition allows it. -/
inductive PersistStep (C : Persist β → Prop) (w : Persist β) : Persist β → Prop
  | input (g : In β) (b : Batch β) (hwin : g.win = 0) :
      PersistStep C w ⟨(perform w.pcb b (.input g)).1, w.answered || answers w.pcb g,
        if acksNew w.pcb g then 0 else w.fires⟩
  | expire (b : Batch β) (hc : C w) :
      PersistStep C w ⟨(perform w.pcb b (.timer .rexmit)).1, w.answered, w.fires⟩
  | work (idle : Bool) (cnt : ℕ) (b : Batch β) :
      PersistStep C w ⟨(perform w.pcb b (.work idle cnt)).1, w.answered && !w.pcb.work.rexmit,
        if w.pcb.work.rexmit then w.fires + 1 else w.fires⟩
  | timer (t : Timer) (ht : t ≠ .rexmit) (b : Batch β) :
      PersistStep C w ⟨(perform w.pcb b (.timer t)).1, w.answered, w.fires⟩
  | call (call : Call β) (b : Batch β) (hin : ∀ g, call ≠ .input g)
      (hwork : ∀ idle cnt, call ≠ .work idle cnt) (htimer : ∀ t, call ≠ .timer t) :
      PersistStep C w ⟨(perform w.pcb b call).1, w.answered, w.fires⟩

/-- Fewer expiries than are too many have been acted on since something new was acknowledged. -/
def Patient (w : Persist β) : Prop := w.fires < tcpMaxRexmit

/-- The counter is at most the expiries since something new was acknowledged; an expiry that waits
for the worker is not one too many. -/
structure Counted (w : Persist β) : Prop where
  count : w.pcb.rexmitCount ≤ w.fires
  fires : w.fires ≤ tcpMaxRexmit
  bit : w.pcb.work.rexmit = true → w.fires < tcpMaxRexmit

theorem Counted.tallied {w : Persist β} {a : Bool} (h : Counted w) (ht : Tallied w.pcb q) :
    Counted ⟨q, a, w.fires⟩ := by
  have hcount : q.rexmitCount ≤ w.pcb.rexmitCount := by
    rcases ht.count with hc | hc <;> omega
  exact ⟨hcount.trans h.count, h.fires, fun hb => h.bit (ht.work ▸ hb)⟩

theorem rexmitCount_of_acksNew {g : In β} (b : Batch β) (h : acksNew p g = true) :
    (perform p b (.input g)).1.rexmitCount = 0 := by
  simp only [acksNew, answers, Bool.and_eq_true, Bool.not_eq_true', Bool.or_eq_false_iff] at h
  obtain ⟨⟨⟨hstate, hacc⟩, hlo, hhi⟩, hnew⟩ := h
  have htally := tally_inputAccepted p (trim p g) b
  rw [hnew] at htally
  rw [perform_accepted p g b hstate hacc hlo hhi]
  exact congrArg Prod.fst htally

theorem Counted.step {w w' : Persist β} (h : Counted w) (hs : PersistStep Patient w w') :
    Counted w' := by
  cases hs with
  | input g b hwin =>
    have ht := perform_tallied w.pcb b (.input g) (fun _ _ => nofun) fun _ => nofun
    cases hnew : acksNew w.pcb g with
    | true =>
      have hzero := rexmitCount_of_acksNew b hnew
      exact ⟨le_of_eq hzero, Nat.zero_le _, fun _ => (by decide : 0 < tcpMaxRexmit)⟩
    | false => exact h.tallied ht
  | expire b hc =>
    have hcount : (timerKick w.pcb .rexmit).rexmitCount = w.pcb.rexmitCount := by
      unfold timerKick
      split_ifs <;> rfl
    exact ⟨le_of_eq_of_le hcount h.count, h.fires, fun _ => hc⟩
  | work idle cnt b =>
    obtain ⟨hcount, -, hbit⟩ := pcbWork_worked w.pcb b idle cnt fun hb =>
      h.count.trans_lt (h.bit hb)
    have hclear : (perform w.pcb b (.work idle cnt)).1.work.rexmit = false := hbit
    have hle := h.count
    cases hset : w.pcb.work.rexmit with
    | true =>
      refine ⟨?_, h.bit hset, fun hb => ?_⟩
      · rcases hcount with hc | ⟨-, hc⟩
        · exact (le_of_eq_of_le hc hle).trans (Nat.le_succ _)
        · exact le_of_eq_of_le hc (Nat.succ_le_succ hle)
      · cases hclear.symm.trans hb
    | false =>
      refine ⟨?_, h.fires, fun hb => ?_⟩
      · rcases hcount with hc | ⟨hb, -⟩
        · exact le_of_eq_of_le hc hle
        · cases hset.symm.trans hb
      · cases hclear.symm.trans hb
  | timer t ht b =>
    have hkeep : (timerKick w.pcb t).rexmitCount = w.pcb.rexmitCount ∧
        (timerKick w.pcb t).work.rexmit = w.pcb.work.rexmit := by
      unfold timerKick
      split_ifs
      · cases t <;> simp_all [Timers.set]
      · exact ⟨rfl, rfl⟩
    exact ⟨le_of_eq_of_le hkeep.1 h.count, h.fires, fun hb => h.bit (hkeep.2.symm.trans hb)⟩
  | call call b hin hwork htimer => exact h.tallied (perform_tallied w.pcb b call hwork htimer)

/-- **The counter ends no connection that is patient.**  In every run in which the peer keeps its
window closed and the retransmission timer expires at most `TCP_MAX_REXMIT` times between two
acknowledgements of something new, the counter is at most the number of expiries since the last of
them; and whatever happens next, a connection that had not timed out times out only by keepalive. -/
theorem persist_never_times_out (w : Persist β)
    (h : Lib.Reachable PersistStarts (PersistStep Patient) w) :
    w.pcb.rexmitCount ≤ w.fires ∧
      ∀ (b : Batch β) (call : Call β), (perform w.pcb b call).1.error = -etimedout →
        w.pcb.error = -etimedout ∨
          ∃ idle cnt, call = .work idle cnt ∧ w.pcb.work.keep = true ∧ cnt ≤ w.pcb.keepProbes := by
  have hinv : Counted w := by
    refine Lib.Reachable.invariant ?_ (fun _ _ hw hs => hw.step hs) h
    rintro w ⟨hzero, hbit, -, -, hfires⟩
    refine ⟨by omega, by rw [hfires]; exact Nat.zero_le _, fun hb => ?_⟩
    cases hbit.symm.trans hb
  refine ⟨hinv.count, fun b call herr => ?_⟩
  have hother : (∀ idle cnt, call ≠ .work idle cnt) → (∀ t, call ≠ .timer t) →
      w.pcb.error = -etimedout := by
    intro hwork htimer
    rcases (perform_tallied w.pcb b call hwork htimer).error with he | he
    · exact he.symm.trans herr
    · exact absurd herr he
  cases call with
  | work idle cnt =>
    obtain ⟨-, he, -⟩ := pcbWork_worked w.pcb b idle cnt fun hb =>
      hinv.count.trans_lt (hinv.bit hb)
    rcases he with he | ⟨hkeep, hcnt⟩
    · exact .inl (he.symm.trans herr)
    · exact .inr ⟨idle, cnt, rfl, hkeep, hcnt⟩
  | timer t =>
    refine .inl (Eq.trans ?_ herr)
    show w.pcb.error = (timerKick w.pcb t).error
    unfold timerKick
    split_ifs <;> rfl
  | _ => exact .inl (hother (fun _ _ => nofun) fun _ => nofun)

/-! ## A peer that answers and takes nothing -/

variable {C : Persist ℕ → Prop} {w : Persist ℕ}

/-- A connection whose peer has closed its window, after a byte has been written. -/
def shutPersist : Persist ℕ :=
  ⟨(perform (child 0 99 1460 1460 (ackSegment 1 0)) {} (.send [7])).1, true, 0⟩

/-- The timer expires, and the worker probes the window. -/
def Persist.probe (w : Persist ℕ) : Persist ℕ :=
  let p := (perform w.pcb {} (.timer .rexmit)).1
  ⟨(perform p {} (.work false 0)).1, w.answered && !p.work.rexmit,
    if p.work.rexmit then w.fires + 1 else w.fires⟩

/-- An answer. -/
def Persist.answer (w : Persist ℕ) (g : In ℕ) : Persist ℕ :=
  ⟨(perform w.pcb {} (.input g)).1, w.answered || answers w.pcb g,
    if acksNew w.pcb g then 0 else w.fires⟩

theorem probe_reachable (h : Lib.Reachable PersistStarts (PersistStep C) w) (hc : C w) :
    Lib.Reachable PersistStarts (PersistStep C) w.probe := by
  have hexpire := h.step (.expire {} hc)
  exact hexpire.step (.work false 0 {})

theorem answer_reachable {g : In ℕ} (h : Lib.Reachable PersistStarts (PersistStep C) w)
    (hwin : g.win = 0) : Lib.Reachable PersistStarts (PersistStep C) (w.answer g) :=
  h.step (.input g {} hwin)

theorem shutPersist_reachable : Lib.Reachable PersistStarts (PersistStep C) shutPersist :=
  .init (by unfold PersistStarts; decide)

/-- A probe, and the answer that the byte was not taken. -/
def Persist.refused (w : Persist ℕ) : Persist ℕ := w.probe.answer (ackSegment 1 0)

theorem refused_reachable (h : Lib.Reachable PersistStarts (PersistStep C) w) (hc : C w) :
    Lib.Reachable PersistStarts (PersistStep C) w.refused :=
  answer_reachable (probe_reachable h hc) rfl

/-- The peer does not take the byte of the first three probes, and takes that of the fourth. -/
theorem persist_never_times_out_shutPersist :
    ((Persist.refused^[3]) shutPersist).pcb.rexmitCount = 3 ∧
      (((Persist.refused^[3]) shutPersist).probe.answer (ackSegment 2 0)).fires = 0 ∧
      (((Persist.refused^[3]) shutPersist).probe.answer (ackSegment 2 0)).pcb.rexmitCount ≤
        (((Persist.refused^[3]) shutPersist).probe.answer (ackSegment 2 0)).fires := by
  have h₁ := refused_reachable (C := Patient) shutPersist_reachable (by unfold Patient; decide)
  have h₂ := refused_reachable h₁ (by unfold Patient; decide)
  have h₃ := refused_reachable h₂ (by unfold Patient; decide)
  have h₄ := answer_reachable (g := ackSegment 2 0)
    (probe_reachable h₃ (by unfold Patient; decide)) rfl
  exact ⟨by decide, by decide, (persist_never_times_out _ h₄).1⟩

/-- Every probe is answered before the next, and the ninth expiry ends the connection with
`ETIMEDOUT`. -/
theorem answered_peer_times_out :
    ∃ w : Persist ℕ, Lib.Reachable PersistStarts (PersistStep (·.answered = true)) w ∧
      w.answered = true ∧ w.pcb.sndWnd = 0 ∧ w.pcb.error = 0 ∧
      w.probe.pcb.error = -etimedout ∧ w.probe.pcb.state = .closed := by
  have h₁ := refused_reachable (C := (·.answered = true)) shutPersist_reachable (by decide)
  have h₂ := refused_reachable h₁ (by decide)
  have h₃ := refused_reachable h₂ (by decide)
  have h₄ := refused_reachable h₃ (by decide)
  have h₅ := refused_reachable h₄ (by decide)
  have h₆ := refused_reachable h₅ (by decide)
  have h₇ := refused_reachable h₆ (by decide)
  have h₈ := refused_reachable h₇ (by decide)
  exact ⟨_, h₈, by decide, by decide, by decide, by decide, by decide⟩

end CosmoOS.Network.Tcp
