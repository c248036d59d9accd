import CosmoOS.Core.Quiesce

/-!
# Runs of the quiescence machinery

* Safety is the invariant: a waiter that has returned has seen every section end that was open when
  it called, and a callback is run in its turn, after a grace period that began after it was
  submitted.
* That the callbacks *are* run is not a matter of the invariant: a reader may stay in its section
  for ever.  But whatever state a run has reached, it can be continued so that every callback
  submitted so far has been run: the readers leave their sections (`exists_quiet`), the processors
  pass a quiescent point (`exists_published`), the waiter takes its next turn (`steps_returned`),
  and the worker goes through its batch (`exists_waiting`).
-/

namespace CosmoOS.Core.Quiesce

open Function

variable {Thread Head Fn : Type}

namespace System

section

variable (w : System Thread Head Fn) (c : Nat)

theorem setCpu_self (k : Cpu) : (w.setCpu c k).cpu c = k := by
  simp only [setCpu, update_self]

theorem setCpu_of_ne {c d : Nat} (h : d ≠ c) (k : Cpu) : (w.setCpu c k).cpu d = w.cpu d := by
  simp only [setCpu, update_of_ne h]

theorem setCpu_setCpu (k l : Cpu) : (w.setCpu c k).setCpu c l = w.setCpu c l := by
  simp only [setCpu, update_idem]

end

/-- **No section is open**, and `quiesce_init` is done. -/
structure Quiet (w : System Thread Head Fn) : Prop where
  ready : w.ready = true
  sections : ∀ c, (w.cpu c).sections = []

theorem Quiet.setCpu {w : System Thread Head Fn} (h : Quiet w) {c : Nat} {k : Cpu}
    (hk : k.sections = []) : Quiet (w.setCpu c k) := by
  refine ⟨h.ready, fun d => ?_⟩
  by_cases hd : d = c
  · subst hd
    rw [setCpu_self]
    exact hk
  · rw [setCpu_of_ne w hd]
    exact h.sections d

variable [DecidableEq Thread] {w w' w'' : System Thread Head Fn} {t : Option Thread}
  {target i : Nat} {online pending : Nat → Bool}

theorem setPhase_setPhase (w : System Thread Head Fn) (t : Option Thread) (p q : Phase) :
    (w.setPhase t p).setPhase t q = w.setPhase t q := by
  simp only [setPhase, update_self, update_idem]

theorem setPhase_phase (w : System Thread Head Fn) (t : Option Thread) :
    w.setPhase t (w.waiter t).phase = w := by
  simp only [setPhase, update_eq_self]

theorem Quiet.setPhase (h : Quiet w) (t : Option Thread) (p : Phase) : Quiet (w.setPhase t p) :=
  ⟨h.ready, h.sections⟩

variable [DecidableEq Head]

abbrev Steps (w w' : System Thread Head Fn) : Prop := Relation.ReflTransGen Step w w'

theorem Inv.steps (h : Inv w) (hrun : Steps w w') : Inv w' := by
  induction hrun with
  | refl => exact h
  | tail _ hst ih => exact ih.step hst

/-! ## The turns of a waiter -/

theorem steps_sampling (hp : (w.waiter t).phase = .sampling target i online) :
    ∃ online', Steps w (w.setPhase t (.own target online')) := by
  induction hn : maxCpus - i generalizing w i online with
  | zero => exact ⟨online, .single (.sampled w t target i online hp (by omega))⟩
  | succ n ih =>
    obtain ⟨online', hrun⟩ := ih (w := w.setPhase t (.sampling target (i + 1)
      (update online i (w.isOnline i)))) (by rw [setPhase_self]) (by omega)
    rw [setPhase_setPhase] at hrun
    exact ⟨online', hrun.head (.sample w t target i online hp (by omega))⟩

theorem steps_scanning (hp : (w.waiter t).phase = .scanning target online i pending) :
    ∃ pending', Steps w (w.setPhase t (.masking target online 0 pending')) ∧
      (∀ c < i, pending' c = pending c) ∧
        ∀ c < maxCpus, i ≤ c → pending' c = (online c && decide ((w.cpu c).seen < target)) := by
  induction hn : maxCpus - i generalizing w i pending with
  | zero =>
    exact ⟨pending, .single (.scanned w t target online i pending hp (by omega)),
      fun _ _ => rfl, fun c hc hic => by omega⟩
  | succ n ih =>
    obtain ⟨pending', hrun, hlow, hhigh⟩ := ih (w := w.setPhase t (.scanning target online (i + 1)
      (update pending i (online i && decide ((w.cpu i).seen < target)))))
      (by rw [setPhase_self]) (by omega)
    rw [setPhase_setPhase] at hrun
    refine ⟨pending', hrun.head (.scan w t target online i pending hp (by omega)),
      fun c hc => ?_, fun c hc hic => ?_⟩
    · rw [hlow c (by omega), update_of_ne (by omega)]
    · by_cases hci : c = i
      · subst hci
        rw [hlow c (by omega), update_self]
      · exact hhigh c hc (by omega)

theorem steps_masking (hp : (w.waiter t).phase = .masking target online i pending) :
    ∃ j pending', Steps w (w.setPhase t (.masking target online j pending')) ∧ maxCpus ≤ j ∧
      (∀ c < i, pending' c = pending c) ∧
        ∀ c < maxCpus, i ≤ c → pending' c = (pending c && w.isOnline c) := by
  induction hn : maxCpus - i generalizing w i pending with
  | zero =>
    refine ⟨i, pending, ?_, by omega, fun _ _ => rfl, fun c hc hic => by omega⟩
    rw [← hp, setPhase_phase]
  | succ n ih =>
    obtain ⟨j, pending', hrun, hj, hlow, hhigh⟩ := ih (w := w.setPhase t
      (.masking target online (i + 1) (update pending i (pending i && w.isOnline i))))
      (by rw [setPhase_self]) (by omega)
    rw [setPhase_setPhase] at hrun
    refine ⟨j, pending', hrun.head (.mask w t target online i pending hp (by omega)), hj,
      fun c hc => ?_, fun c hc hic => ?_⟩
    · rw [hlow c (by omega), update_of_ne (by omega)]
    · by_cases hci : c = i
      · subst hci
        rw [hlow c (by omega), update_self]
      · rw [hhigh c hc (by omega), update_of_ne hci]
        rfl

/-- A turn that finds every processor past the target is the last one. -/
theorem steps_turn (hp : (w.waiter t).phase = .scanning target online 0 pending)
    (hpub : ∀ c < maxCpus, (w.cpu c).power = .online → target ≤ (w.cpu c).seen) :
    Steps w (w.setPhase t .returned) := by
  obtain ⟨pending1, hscan, -, hp1⟩ := steps_scanning hp
  obtain ⟨j, pending2, hmask, hj, -, hp2⟩ := steps_masking
    (w := w.setPhase t (.masking target online 0 pending1)) (by rw [setPhase_self])
  rw [setPhase_setPhase] at hmask
  have hdone := Step.done (w.setPhase t (.masking target online j pending2)) t target online j
    pending2 (by rw [setPhase_self]) hj (fun c hc => ?_)
  · rw [setPhase_setPhase] at hdone
    exact (hscan.trans hmask).tail hdone
  · rw [hp2 c hc (Nat.zero_le _), hp1 c hc (Nat.zero_le _)]
    by_cases hon : (w.cpu c).power = .online
    · rw [decide_eq_false (Nat.not_lt.mpr (hpub c hc hon)), Bool.and_false, Bool.false_and]
    · have hoff : (w.setPhase t (.masking target online 0 pending1)).isOnline c = false :=
        beq_eq_false_iff_ne.mpr hon
      rw [hoff, Bool.and_false]

/-- **The wait ends** once every processor is past the target: the turn it is in may be lost, the
next one is the last. -/
theorem steps_returned (hpub : ∀ c < maxCpus, (w.cpu c).power = .online → target ≤ (w.cpu c).seen)
    (hp : (w.waiter t).phase = .scanning target online i pending ∨
      (w.waiter t).phase = .masking target online i pending) :
    Steps w (w.setPhase t .returned) := by
  have hmask : ∃ i pending, Steps w (w.setPhase t (.masking target online i pending)) := by
    rcases hp with hp | hp
    · obtain ⟨pending', hrun, -⟩ := steps_scanning hp
      exact ⟨0, pending', hrun⟩
    · refine ⟨i, pending, ?_⟩
      rw [← hp, setPhase_phase]
  obtain ⟨k, pending1, hrun⟩ := hmask
  obtain ⟨j, pending2, hrun2, hj, -⟩ := steps_masking
    (w := w.setPhase t (.masking target online k pending1)) (by rw [setPhase_self])
  rw [setPhase_setPhase] at hrun2
  have hrun := hrun.trans hrun2
  have hph : ((w.setPhase t (.masking target online j pending2)).waiter t).phase
      = .masking target online j pending2 := by rw [setPhase_self]
  by_cases hall : ∀ c < maxCpus, pending2 c = false
  · have hdone := Step.done _ t target online j pending2 hph hj hall
    rw [setPhase_setPhase] at hdone
    exact hrun.tail hdone
  · push Not at hall
    obtain ⟨c, hc, hpend⟩ := hall
    have hagain := Step.again _ t target online j pending2 c hph hj hc (by simpa using hpend)
    rw [setPhase_setPhase] at hagain
    have hlast := steps_turn (w := w.setPhase t (.scanning target online 0 noCpus))
      (by rw [setPhase_self]) hpub
    rw [setPhase_setPhase] at hlast
    exact (hrun.tail hagain).trans hlast

/-! ## The processors -/

/-- Steps that leave the list and what was submitted alone. -/
structure Keeps (w w' : System Thread Head Fn) : Prop where
  steps : Steps w w'
  cbHead : w'.cbHead = w.cbHead
  submitted : w'.submitted = w.submitted

/-- Steps that leave the worker alone too. -/
structure Leads (w w' : System Thread Head Fn) : Prop extends Keeps w w' where
  worker : w'.worker = w.worker

/-- Steps of the processors alone, in which sections end and none begins. -/
structure CpuRun (w w' : System Thread Head Fn) : Prop extends Leads w w' where
  epoch : w'.epoch = w.epoch
  waiter : w'.waiter = w.waiter
  ready : w'.ready = w.ready
  sections : ∀ c, (w.cpu c).sections = [] → (w'.cpu c).sections = []

theorem Keeps.trans (h : Keeps w w') (h' : Keeps w' w'') : Keeps w w'' :=
  ⟨h.steps.trans h'.steps, h'.cbHead.trans h.cbHead, h'.submitted.trans h.submitted⟩

theorem Leads.trans (h : Leads w w') (h' : Leads w' w'') : Leads w w'' :=
  ⟨h.toKeeps.trans h'.toKeeps, h'.worker.trans h.worker⟩

theorem CpuRun.refl (w : System Thread Head Fn) : CpuRun w w :=
  ⟨⟨⟨.refl, rfl, rfl⟩, rfl⟩, rfl, rfl, rfl, fun _ => id⟩

theorem CpuRun.trans (h : CpuRun w w') (h' : CpuRun w' w'') : CpuRun w w'' :=
  ⟨h.toLeads.trans h'.toLeads, h'.epoch.trans h.epoch, h'.waiter.trans h.waiter,
    h'.ready.trans h.ready, fun c hc => h'.sections c (h.sections c hc)⟩

theorem CpuRun.setCpu {c : Nat} {k : Cpu} (hsteps : Steps w (w.setCpu c k))
    (hsec : (w.cpu c).sections = [] → k.sections = []) : CpuRun w (w.setCpu c k) := by
  refine ⟨⟨⟨hsteps, rfl, rfl⟩, rfl⟩, rfl, rfl, rfl, fun d => ?_⟩
  by_cases hd : d = c
  · subst hd
    rw [setCpu_self]
    exact hsec
  · rw [setCpu_of_ne w hd]
    exact id

theorem exists_closed (w : System Thread Head Fn) (c : Nat) :
    ∃ w', CpuRun w w' ∧ (w'.cpu c).sections = [] := by
  induction hs : (w.cpu c).sections generalizing w with
  | nil => exact ⟨w, .refl w, hs⟩
  | cons s rest ih =>
    obtain ⟨w', hrun, hnil⟩ := ih (w.setCpu c { w.cpu c with sections := rest })
      (by rw [setCpu_self])
    have hone : CpuRun w (w.setCpu c { w.cpu c with sections := rest }) :=
      .setCpu (.single (.readUnlock w c s rest hs)) fun hn => by rw [hs] at hn; cases hn
    exact ⟨w', hone.trans hrun, hnil⟩

theorem exists_closed_upto (w : System Thread Head Fn) (n : Nat) :
    ∃ w', CpuRun w w' ∧ ∀ c < n, (w'.cpu c).sections = [] := by
  induction n with
  | zero => exact ⟨w, .refl w, fun c hc => absurd hc (Nat.not_lt_zero _)⟩
  | succ n ih =>
    obtain ⟨w1, hrun1, hnil1⟩ := ih
    obtain ⟨w2, hrun2, hnil2⟩ := exists_closed w1 n
    refine ⟨w2, hrun1.trans hrun2, fun c hc => ?_⟩
    by_cases hcn : c = n
    · exact hcn ▸ hnil2
    · exact hrun2.sections c (hnil1 c (by omega))

theorem CpuRun.quiet (h : CpuRun w w') (hq : Quiet w) : Quiet w' :=
  ⟨h.ready.trans hq.ready, fun c => h.sections c (hq.sections c)⟩

/-- **The readers leave.** -/
theorem exists_quiet (h : Inv w) :
    ∃ w', Leads w w' ∧ Quiet w' ∧ w'.waiter = w.waiter := by
  obtain ⟨w', hrun, hnil⟩ := exists_closed_upto w maxCpus
  have hb := (h.steps hrun.steps).base
  refine ⟨{ w' with ready := true }, hrun.toLeads.trans ⟨⟨.single (.init w'), rfl, rfl⟩, rfl⟩,
    ⟨rfl, fun c => ?_⟩, hrun.waiter⟩
  by_cases hc : c < maxCpus
  · exact hnil c hc
  · refine hb.offline c fun hon => hc (hb.bounded c ?_)
    rw [hon]
    decide

theorem steps_publish {c : Nat} (hon : (w.cpu c).power = .online)
    (hsec : (w.cpu c).sections = []) :
    Steps w (w.setCpu c { w.cpu c with seen := w.epoch }) := by
  have h1 := Step.publishLoad w c hon hsec
  have h2 := Step.publishExchange (w.setCpu c { w.cpu c with loads := w.epoch :: (w.cpu c).loads })
    c w.epoch (w.cpu c).loads
    (by rw [setCpu_self]; exact hon)
    (by rw [setCpu_self]; exact hsec)
    (by rw [setCpu_self])
  rw [setCpu_self, setCpu_setCpu] at h2
  exact .head h1 (.single h2)

/-- **The processors pass a quiescent point.** -/
theorem exists_published (hq : Quiet w) (n : Nat) :
    ∃ w', CpuRun w w' ∧ ∀ c < n, (w'.cpu c).power = .online → (w'.cpu c).seen = w.epoch := by
  induction n with
  | zero => exact ⟨w, .refl w, fun c hc => absurd hc (Nat.not_lt_zero _)⟩
  | succ n ih =>
    obtain ⟨w1, hrun1, hpub1⟩ := ih
    by_cases hon : (w1.cpu n).power = .online
    · have hrun2 : CpuRun w1 (w1.setCpu n { w1.cpu n with seen := w1.epoch }) :=
        .setCpu (steps_publish hon ((hrun1.quiet hq).sections n)) id
      refine ⟨_, hrun1.trans hrun2, fun c hc hc' => ?_⟩
      by_cases hcn : c = n
      · subst hcn
        rw [setCpu_self]
        exact hrun1.epoch
      · rw [setCpu_of_ne _ hcn] at hc' ⊢
        exact hpub1 c (by omega) hc'
    · refine ⟨w1, hrun1, fun c hc hc' => ?_⟩
      by_cases hcn : c = n
      · exact absurd (hcn ▸ hc') hon
      · exact hpub1 c (by omega) hc'

/-! ## A grace period -/

/-- A call that can return, with the worker and the callbacks as they are. -/
def CanReturn (w : System Thread Head Fn) (t : Option Thread) : Prop :=
  ∃ w', Leads w w' ∧ (w'.waiter t).phase = .returned

theorem Leads.canReturn (h : Leads w w') (hret : CanReturn w' t) : CanReturn w t := by
  obtain ⟨w'', hl, hp⟩ := hret
  exact ⟨w'', h.trans hl, hp⟩

section

variable (h : Inv w) (hq : Quiet w) {c : Nat}

include h hq

/-- **A call that waits can return.** -/
theorem canReturn_of_waiting (hp : (w.waiter t).phase = .scanning target online i pending ∨
      (w.waiter t).phase = .masking target online i pending) : CanReturn w t := by
  have htarget : target ≤ w.epoch := by
    have ht := (h.waiters t).target
    rcases hp with hp | hp
    · rw [hp] at ht
      exact ht
    · rw [hp] at ht
      exact ht
  obtain ⟨w1, hrun, hpub⟩ := exists_published hq maxCpus
  rw [← hrun.waiter] at hp
  have hlast := steps_returned (fun c hc hon => htarget.trans (hpub c hc hon).ge) hp
  refine ⟨_, hrun.toLeads.trans ⟨⟨hlast, rfl, rfl⟩, rfl⟩, ?_⟩
  rw [setPhase_self]

theorem canReturn_of_ownLoaded (hp : (w.waiter t).phase = .ownLoaded target online c) :
    CanReturn w t := by
  have hph := (h.waiters t).phase
  rw [hp] at hph
  have h1 := Step.publishLoad w c hph.2.2 (hq.sections c)
  have h2 := Step.ownExchange (w.setCpu c { w.cpu c with loads := w.epoch :: (w.cpu c).loads })
    t target online c w.epoch (w.cpu c).loads hp
    (by rw [setCpu_self]; exact hq.sections c) (by rw [setCpu_self])
  have hinv := (h.step h1).step h2
  rw [setCpu_setCpu, setCpu_self] at h2 hinv
  refine Leads.canReturn ⟨⟨.head h1 (.single h2), rfl, rfl⟩, rfl⟩ (canReturn_of_waiting hinv
    (Quiet.setPhase (Quiet.setCpu hq ?_) t _)
    (.inl (?_ : _ = Phase.scanning target online 0 noCpus)))
  · exact hq.sections c
  · rw [setPhase_self]
    exact if_pos hq.ready

theorem canReturn_of_own (hp : (w.waiter t).phase = .own target online) : CanReturn w t := by
  have h1 := Step.ownLoad w t target online 0 hp h.base.zero (hq.sections 0)
  have hq1 := (hq.setCpu (c := 0) (k := { w.cpu 0 with loads := w.epoch :: (w.cpu 0).loads })
    (hq.sections 0)).setPhase t (.ownLoaded target online 0)
  exact Leads.canReturn ⟨⟨.single h1, rfl, rfl⟩, rfl⟩
    (canReturn_of_ownLoaded (h.step h1) hq1 (congrArg Waiter.phase (setPhase_self _ t _)))

theorem canReturn_of_sampling (hp : (w.waiter t).phase = .sampling target i online) :
    CanReturn w t := by
  obtain ⟨online', hrun⟩ := steps_sampling hp
  exact Leads.canReturn ⟨⟨hrun, rfl, rfl⟩, rfl⟩
    (canReturn_of_own (h.steps hrun) (hq.setPhase t _) (by rw [setPhase_self]))

end

/-- **Every grace period can end.** -/
theorem Inv.canReturn (h : Inv w) (hne : (w.waiter t).phase ≠ .idle) : CanReturn w t := by
  obtain ⟨w1, hl, hq, hw⟩ := exists_quiet h
  have h1 := h.steps hl.steps
  rw [← hw] at hne
  refine hl.canReturn ?_
  cases hp : (w1.waiter t).phase with
  | idle => exact absurd hp hne
  | called =>
    have hadv := Step.advance w1 t hp
    exact Leads.canReturn ⟨⟨.single hadv, rfl, rfl⟩, rfl⟩ (canReturn_of_sampling (h1.step hadv)
      ⟨hq.ready, hq.sections⟩ (congrArg Waiter.phase (setPhase_self w1 t _)))
  | sampling target i online => exact canReturn_of_sampling h1 hq hp
  | own target online => exact canReturn_of_own h1 hq hp
  | ownLoaded target online c => exact canReturn_of_ownLoaded h1 hq hp
  | scanning target online i pending => exact canReturn_of_waiting h1 hq (.inl hp)
  | masking target online i pending => exact canReturn_of_waiting h1 hq (.inr hp)
  | returned => exact ⟨w1, ⟨⟨.refl, rfl, rfl⟩, rfl⟩, hp⟩

/-! ## The callbacks -/

theorem exists_waiting {l : List (Entry Head Fn)} {began : Nat} (hw : w.worker = .running l began) :
    ∃ w', Keeps w w' ∧ w'.worker = .waiting := by
  induction l generalizing w with
  | nil => exact ⟨_, ⟨.single (.runDone w began hw), rfl, rfl⟩, rfl⟩
  | cons e rest ih =>
    have hrun := Step.run w e rest began hw
    obtain ⟨w', hk, hwait⟩ := ih (w := { w with
      worker := .running rest began
      pending := update w.pending e.head false
      ran := w.ran ++ [(e, began)] }) rfl
    exact ⟨w', Keeps.trans ⟨.single hrun, rfl, rfl⟩ hk, hwait⟩

theorem exists_waiting_of_syncing (h : Inv w) {batch : List (Entry Head Fn)} {began : Nat}
    (hw : w.worker = .syncing batch began) : ∃ w', Keeps w w' ∧ w'.worker = .waiting := by
  have hat := h.worker.at_
  rw [hw] at hat
  obtain ⟨w1, hl, hp⟩ := h.canReturn hat
  have hret := Step.workerReturn w1 batch began (hl.worker.trans hw) hp
  obtain ⟨w2, hk, hwait⟩ := exists_waiting (w := { w1 with
    worker := .running (orderBatch batch []) began }) rfl
  exact ⟨w2, (hl.toKeeps.trans ⟨.single hret, rfl, rfl⟩).trans hk, hwait⟩

/-- Whatever the worker is at, it can come to an end. -/
theorem exists_waiting_of_inv (h : Inv w) : ∃ w', Keeps w w' ∧ w'.worker = .waiting := by
  cases hw : w.worker with
  | waiting => exact ⟨w, ⟨.refl, rfl, rfl⟩, hw⟩
  | swapped batch =>
    obtain ⟨w1, hl, hq, hwt⟩ := exists_quiet h
    have h1 := h.steps hl.steps
    have hat := h1.worker.at_
    rw [hl.worker, hw] at hat
    have hcall := Step.workerCall w1 batch 0 (hl.worker.trans hw) hat h1.base.zero (hq.sections 0)
    obtain ⟨w2, hk, hwait⟩ := exists_waiting_of_syncing (h1.step hcall) rfl
    exact ⟨w2, (hl.toKeeps.trans ⟨.single hcall, rfl, rfl⟩).trans hk, hwait⟩
  | syncing batch began => exact exists_waiting_of_syncing h hw
  | running l began => exact exists_waiting hw

/-- **Nothing stands in the way of a callback.** -/
theorem exists_all_ran (h : Inv w) :
    ∃ w', Steps w w' ∧ w'.submitted = w.submitted ∧ w'.ran.map Prod.fst = w.submitted := by
  -- the batch the worker has, `quiesce_init` if that is still to come, and then the whole list
  obtain ⟨w1, ⟨hrun1, -, hsub1⟩, hwait1⟩ := exists_waiting_of_inv h
  have h1 := h.steps hrun1
  have hinit := Step.init w1
  have last : ∀ {v : System Thread Head Fn}, Inv v → v.worker = .waiting → v.cbHead = [] →
      v.ran.map Prod.fst = v.submitted := by
    intro v hv hwait hcb
    have hlog := hv.worker.log
    rw [hwait, hcb] at hlog
    simpa [Worker.inFlight] using hlog.symm
  by_cases hnil : w1.cbHead = []
  · exact ⟨w1, hrun1, hsub1, (last h1 hwait1 hnil).trans hsub1⟩
  · have hcount : w1.cbPending ≠ 0 := by
      rw [h1.worker.count]
      exact fun h0 => hnil (List.length_eq_zero_iff.mp h0)
    have hswap := Step.swap { w1 with ready := true } rfl hwait1 hcount
    have h2 := (h1.step hinit).step hswap
    obtain ⟨w3, ⟨hrun3, hcb3, hsub3⟩, hwait3⟩ := exists_waiting_of_inv h2
    exact ⟨w3, ((hrun1.tail hinit).tail hswap).trans hrun3, hsub3.trans hsub1,
      (last (h2.steps hrun3) hwait3 hcb3).trans (hsub3.trans hsub1)⟩

/-! ## The run -/

/-- **Grace periods and callbacks, over every run.**  When `synchronize_quiesce` returns, every read
section that was open on a processor when it was called has ended.  The callbacks run so far are the
first ones submitted, in the order of submission and once each; the others are with the worker or on
the list.  The `k`-th was run by a worker whose grace period began when more than `k` had been
submitted, and the worker runs callbacks only when its `synchronize_quiesce` has returned.  And no
callback can be cut off from being run. -/
theorem quiesce_run (h : Lib.Reachable Initial Step w) :
    (∀ t, (w.waiter t).phase = .returned →
      ∀ c, ∀ s ∈ (w.waiter t).opened c, s ∉ (w.cpu c).sections) ∧
    w.submitted = w.ran.map Prod.fst ++ w.worker.inFlight ++ w.cbHead.reverse ∧
    (∀ (k : Nat) e began, w.ran[k]? = some (e, began) → k < began) ∧
    (∀ l began, w.worker = .running l began → (w.waiter none).phase = .returned) ∧
    ∃ w', Steps w w' ∧ w'.submitted = w.submitted ∧ w'.ran.map Prod.fst = w.submitted := by
  have hinv : Inv w := h.invariant (fun _ hi => Inv.of_initial hi) (fun _ _ hi hst => hi.step hst)
  refine ⟨fun t hp => ?_, hinv.worker.log, hinv.worker.ran, fun l began hw => ?_,
    exists_all_ran hinv⟩
  · have hph := (hinv.waiters t).phase
    rw [hp] at hph
    exact hph
  · have hat := hinv.worker.at_
    rw [hw] at hat
    exact hat

/-- The system at boot, with one thread and one head. -/
def bootSystem : System Unit Unit Unit where
  epoch := 0
  ready := false
  nextSection := 0
  cpu := fun c => ⟨if c = 0 then .online else .off, [], [], 0⟩
  waiter := fun _ => ⟨.idle, fun _ => []⟩
  cbHead := []
  cbPending := 0
  pending := fun _ => false
  worker := .waiting
  submitted := []
  ran := []

/-- The head is submitted, and a reader enters a section. -/
def submittedSystem : System Unit Unit Unit :=
  { bootSystem with
    cpu := update bootSystem.cpu 0 ⟨.online, [0], [], 0⟩
    nextSection := 1
    pending := update bootSystem.pending () true
    cbHead := [⟨(), ()⟩]
    cbPending := 1
    submitted := [⟨(), ()⟩] }

theorem submittedSystem_reachable : Lib.Reachable Initial Step submittedSystem := by
  have hboot : Lib.Reachable Initial Step bootSystem :=
    .init ⟨rfl, fun _ => rfl, fun _ => rfl, ⟨rfl, rfl, rfl⟩, ⟨rfl, rfl⟩⟩
  exact (hboot.step (.submit bootSystem () () rfl (by decide))).step (.readLock _ 0 rfl)

/-- The callback of the one head, with a reader in the way, can be run, once. -/
theorem quiesce_run_oneCallback :
    (submittedSystem.cpu 0).sections = [0] ∧
      ∃ w', Steps submittedSystem w' ∧ w'.ran.map Prod.fst = [⟨(), ()⟩] := by
  obtain ⟨-, -, -, -, w', hrun, -, hran⟩ := quiesce_run submittedSystem_reachable
  exact ⟨by simp [submittedSystem], w', hrun, hran⟩

end System
end CosmoOS.Core.Quiesce
