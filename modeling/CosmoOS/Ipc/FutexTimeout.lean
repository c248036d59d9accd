import CosmoOS.Core.Timer

/-!
# The timeout of a futex wait

`futex_wait` keeps its waiter and its timer in its stack frame.  A waker or a requeue reaches the
waiter through the list it is on, in a section of the bucket's lock, and the wait leaves that list
before it returns.  The timer's callback reaches it with the queue's lock dropped: `run_expired`
reads the timer, and `timeout_fired` sets a flag in the waiter and then reads which thread to wake.

The wait may end as soon as the flag is set, and also by a wake or a kill while a callback runs.  It
cancels its timer without waiting for the callback; so the frame outlasts the callback's last use of
it only if none that runs at that moment has one to come, which is the condition `Act.Clear`.

The wait's timer has the number 0; the others are other timers of the machine.
-/

namespace CosmoOS.Ipc.FutexTimeout

open Function
open TimerQueues (Listed runExpired)

/-- Where the wait is, from when its waiter is queued. -/
inductive Phase
  | queued
  | waiting
  | woke
  /-- In the loop that leaves the list, with the bucket it has read. -/
  | leaving (bucket : Option ℕ)
  | returned
  deriving DecidableEq

/-- Where a callback of the timer is. -/
inductive Stage
  | popped
  | gotFn
  | called
  | stored
  | ran
  deriving DecidableEq

/-- What lives in the wait's frame. -/
inductive Obj
  | waiter
  | timer

/-- The statements of a callback in turn: the reads of the timer's function and argument, the store
of the flag and the read of the thread to wake. -/
def Stage.next : Stage → Option Stage
  | .popped => some .gotFn
  | .gotFn => some .called
  | .called => some .stored
  | .stored => some .ran
  | .ran => none

def Stage.uses : Stage → List Obj
  | .popped | .gotFn => [.timer]
  | .called | .stored => [.waiter]
  | .ran => []

structure Sys where
  timers : TimerQueues.Sys := {}
  phase : Phase := .queued
  fire : Option (ℕ × Stage) := none
  linked : Bool := true
  bucket : ℕ := 0
  woken : Bool := false
  timedOut : Bool := false
  killed : Bool := false

inductive Act
  | start (c now timeout : ℕ)
  | resume
  | cancel
  | readBucket
  | dequeue
  | expire (c now : ℕ)
  /-- The next statement of the callback. -/
  | callback
  | wake
  | requeue (bucket : ℕ)
  | kill
  | startOther (c t now delay : ℕ)
  | cancelOther (t : ℕ)
  | doneOther (c : ℕ)
  deriving DecidableEq

/-- A section of a queue the timer is on may read or write it. -/
def Sys.near (s : Sys) (c : ℕ) : List Obj :=
  if 0 ∈ (s.timers.queue c).pending then [.timer] else []

/-- A step, with what it reads or writes of the frame. -/
def Sys.act (s : Sys) : Act → Option (Sys × List Obj)
  | .start c now timeout =>
    if s.phase = .queued then
      (s.timers.act (.start c 0 now timeout)).map fun T =>
        ({ s with timers := T, phase := .waiting }, [.timer])
    else none
  | .resume =>
    if s.phase = .waiting ∧ (s.woken ∨ s.timedOut ∨ s.killed) then
      some ({ s with phase := .woke }, [.waiter])
    else none
  | .cancel =>
    if s.phase = .woke then
      (s.timers.act (.cancel 0)).map fun T =>
        ({ s with timers := T, phase := .leaving none }, [.timer])
    else none
  | .readBucket =>
    match s.phase with
    | .leaving _ => some ({ s with phase := .leaving (some s.bucket) }, [.waiter])
    | _ => none
  | .dequeue =>
    match s.phase with
    | .leaving (some b) =>
      if s.bucket = b then some ({ s with linked := false, phase := .returned }, [.waiter])
      else some ({ s with phase := .leaving none }, [.waiter])
    | _ => none
  | .expire c now => (runExpired s.timers.toTimers c now).map fun x =>
    ({ s with
      timers := { s.timers with toTimers := x.1 }
      fire := if x.2 = 0 then some (c, .popped) else s.fire }, s.near c)
  | .callback =>
    s.fire.bind fun (c, st) =>
      match st.next with
      | some st' => some ({ s with
          fire := some (c, st')
          timedOut := s.timedOut || decide (st = .called) }, st.uses)
      | none =>
        (s.timers.act (.done c)).map fun T => ({ s with timers := T, fire := none }, st.uses)
  | .wake =>
    if s.linked then some ({ s with linked := false, woken := true }, [.waiter]) else none
  | .requeue bucket => if s.linked then some ({ s with bucket }, [.waiter]) else none
  | .kill => some ({ s with killed := true }, [])
  | .startOther c t now delay =>
    if t = 0 then none
    else (s.timers.act (.start c t now delay)).map fun T => ({ s with timers := T }, s.near c)
  | .cancelOther t =>
    if t = 0 then none
    else (s.timers.act (.cancel t)).map fun T =>
      ({ s with timers := T }, s.near (s.timers.timer t).cpu)
  | .doneOther c =>
    if (s.timers.queue c).running = some 0 then none
    else (s.timers.act (.done c)).map fun T => ({ s with timers := T }, [])

def Initial (s : Sys) : Prop := s = {}

/-- When the wait cancels its timer, a callback that runs has made its last use of the frame. -/
def Act.Clear (s : Sys) (a : Act) : Prop := a = .cancel → ∀ x ∈ s.fire, x.2 = .ran

instance (s : Sys) (a : Act) : Decidable (a.Clear s) := inferInstanceAs (Decidable (_ → _))

/-- The steps whose acts `C` admits. -/
def Step (C : Sys → Act → Prop) (s s' : Sys) : Prop := ∃ a uses, C s a ∧ s.act a = some (s', uses)

/-! ## The frame -/

/-- The phases after the cancel. -/
def Phase.over : Phase → Bool
  | .leaving _ | .returned => true
  | _ => false

/-- After the cancel the timer is on no queue, and a callback that still runs has made its last use
of the frame; and a wait that has returned is on no list. -/
structure Inv (s : Sys) : Prop where
  listed : Listed s.timers.toTimers
  fire : s.phase.over = true → ∀ x ∈ s.fire, x.2 = .ran
  off : s.phase.over = true → ∀ c, 0 ∉ (s.timers.queue c).pending
  returned : s.phase = .returned → s.linked = false

variable {s s' : Sys} {uses : List Obj}

/-- A section of the timer queues that does not start the timer. -/
theorem Inv.queues (h : Inv s) {T : TimerQueues.Sys} (hlisted : Listed T.toTimers)
    (hoff : ∀ c, 0 ∈ (T.queue c).pending → 0 ∈ (s.timers.queue c).pending) :
    Inv { s with timers := T } :=
  ⟨hlisted, h.fire, fun hover c hc => h.off hover c (hoff c hc), h.returned⟩

theorem Inv.expire (h : Inv s) {c now : ℕ} (ha : s.act (.expire c now) = some (s', uses)) :
    Inv s' := by
  obtain ⟨⟨T', x⟩, hT', heq⟩ := Option.map_eq_some_iff.mp ha
  cases heq
  obtain ⟨hmem, -, hdrops, -⟩ := TimerQueues.runExpired_spec hT'
  refine ⟨h.listed.drops hdrops, fun hover y hy => ?_,
    fun hover d hd => h.off hover d (hdrops.mem 0 d hd).1, h.returned⟩
  dsimp only at hy
  rw [if_neg (by rintro rfl; exact h.off hover c hmem)] at hy
  exact h.fire hover y hy

theorem Inv.callback (h : Inv s) (ha : s.act .callback = some (s', uses)) : Inv s' := by
  obtain ⟨⟨c, st⟩, hfire, ha⟩ := Option.bind_eq_some_iff.mp ha
  dsimp only at ha
  split at ha <;> cases ha
  · next st' hnext =>
    refine ⟨h.listed, fun hover y hy => ?_, h.off, h.returned⟩
    -- after its last use a callback has no statement left
    rw [show st = .ran from h.fire hover _ hfire] at hnext
    cases hnext
  · refine ⟨h.listed.drops (.done _ c), nofun, fun hover d hd => h.off hover d ?_, h.returned⟩
    exact ((TimerQueues.Drops.done _ c).mem 0 d hd).1

theorem Inv.step (h : Inv s) (hstep : Step (fun s a => a.Clear s) s s') : Inv s' := by
  obtain ⟨a, uses, hclear, ha⟩ := hstep
  cases a with
  | expire c now => exact h.expire ha
  | callback => exact h.callback ha
  | start c now timeout =>
    simp only [Sys.act] at ha
    split at ha
    · next hphase =>
      obtain ⟨T, hT, heq⟩ := Option.map_eq_some_iff.mp ha
      obtain ⟨T', hT', rfl⟩ := Option.map_eq_some_iff.mp hT
      cases heq
      exact ⟨h.listed.start hT', nofun, nofun, nofun⟩
    · cases ha
  | cancel =>
    simp only [Sys.act] at ha
    split at ha <;> cases ha
    exact ⟨h.listed.drops (.cancel _ 0), fun _ => hclear rfl, fun _ => h.listed.not_mem_cancel 0,
      nofun⟩
  | resume =>
    simp only [Sys.act] at ha
    split at ha <;> cases ha
    exact ⟨h.listed, nofun, nofun, nofun⟩
  | readBucket =>
    simp only [Sys.act] at ha
    split at ha <;> cases ha
    next hphase =>
    have hover : s.phase.over = true := by rw [hphase]; rfl
    exact ⟨h.listed, fun _ => h.fire hover, fun _ => h.off hover, nofun⟩
  | dequeue =>
    simp only [Sys.act] at ha
    split at ha
    · next hphase =>
      have hover : s.phase.over = true := by rw [hphase]; rfl
      split at ha <;> cases ha
      · exact ⟨h.listed, fun _ => h.fire hover, fun _ => h.off hover, fun _ => rfl⟩
      · exact ⟨h.listed, fun _ => h.fire hover, fun _ => h.off hover, nofun⟩
    · cases ha
  | wake =>
    simp only [Sys.act] at ha
    split at ha <;> cases ha
    exact { h with returned := fun _ => rfl }
  | requeue bucket =>
    simp only [Sys.act] at ha
    split at ha <;> cases ha
    exact { h with }
  | kill =>
    cases ha
    exact { h with }
  | startOther c t now delay =>
    simp only [Sys.act] at ha
    split at ha
    · cases ha
    · next ht =>
      obtain ⟨T, hT, heq⟩ := Option.map_eq_some_iff.mp ha
      obtain ⟨T', hT', rfl⟩ := Option.map_eq_some_iff.mp hT
      cases heq
      obtain ⟨-, -, -, hqueue⟩ := TimerQueues.timerStart_spec hT'
      exact h.queues (h.listed.start hT') fun d hd => ((hqueue d).1 0 hd).resolve_left
        fun hd => ht hd.2.symm
  | cancelOther t =>
    simp only [Sys.act] at ha
    split at ha <;> cases ha
    have hdrops := TimerQueues.Drops.cancel s.timers.toTimers t
    exact h.queues (h.listed.drops hdrops) fun d hd => (hdrops.mem 0 d hd).1
  | doneOther c =>
    simp only [Sys.act] at ha
    split at ha <;> cases ha
    have hdrops := TimerQueues.Drops.done s.timers.toTimers c
    exact h.queues (h.listed.drops hdrops) fun d hd => (hdrops.mem 0 d hd).1

/-- **The frame of a wait is left alone**: once `futex_wait` has returned its timer is on no queue,
and no step reads or writes its waiter or its timer, if no callback of the timer has still to do
so when the wait cancels it. -/
theorem frame_unused_after_return (h : Lib.Reachable Initial (Step fun s a => a.Clear s) s)
    (hreturned : s.phase = .returned) : (∀ c, 0 ∉ (s.timers.queue c).pending) ∧
      ∀ a s' uses, s.act a = some (s', uses) → uses = [] := by
  have hi : Inv s := h.invariant (P := Inv)
    (fun s hs => by
      rw [hs]
      exact ⟨nofun, nofun, nofun, nofun⟩)
    fun s s' hi hst => hi.step hst
  have hover : s.phase.over = true := by rw [hreturned]; rfl
  have hoff := hi.off hover
  refine ⟨hoff, fun a s' uses ha => ?_⟩
  have hmap {β : Type} {o : Option β} {f : β → Sys} {c : ℕ}
      (h : (o.map fun x => (f x, s.near c)) = some (s', uses)) : uses = [] := by
    obtain ⟨x, -, heq⟩ := Option.map_eq_some_iff.mp h
    cases heq
    exact if_neg (hoff c)
  have hlinked := hi.returned hreturned
  cases a with
  | start | resume | cancel | readBucket | dequeue => simp [Sys.act, hreturned] at ha
  | callback =>
    obtain ⟨⟨c, st⟩, hfire, ha⟩ := Option.bind_eq_some_iff.mp ha
    obtain rfl : st = .ran := hi.fire hover _ hfire
    cases ha
    rfl
  | wake | requeue => simp [Sys.act, hlinked] at ha
  | kill =>
    cases ha
    rfl
  | expire c now => exact hmap ha
  | startOther c t now delay | cancelOther t =>
    simp only [Sys.act] at ha
    split at ha
    · cases ha
    · exact hmap ha
  | doneOther c =>
    simp only [Sys.act] at ha
    split at ha <;> cases ha
    rfl

/-- The timer expires, and the wait returns while its callback is about to end. -/
theorem frame_unused_after_return_expired :
    ∃ s : Sys, s.phase = .returned ∧ s.timedOut = true ∧ (∀ c, 0 ∉ (s.timers.queue c).pending) ∧
      ∃ s', s.act .callback = some (s', []) := by
  have h : Lib.Reachable Initial (Step fun s a => a.Clear s) {} := .init rfl
  have hstep : ∀ (s : Sys) (a : Act) (s' : Sys),
      (if a.Clear s then (s.act a).map Prod.fst else none) = some s' →
        Step (fun s a => a.Clear s) s s' := by
    intro s a s' ha
    split at ha
    case isFalse => cases ha
    case isTrue hclear =>
      obtain ⟨⟨x, uses⟩, hx, rfl⟩ := Option.map_eq_some_iff.mp ha
      exact ⟨a, uses, hclear, hx⟩
  obtain ⟨s, hs, hgood⟩ := h.of_run hstep
    [.start 0 0 1, .expire 0 1, .callback, .callback, .callback, .callback, .resume, .cancel,
      .readBucket, .dequeue]
    (fun s => s.phase = .returned ∧ s.timedOut = true ∧ s.fire = some (0, .ran)) (by decide +kernel)
  obtain ⟨hphase, htimed, hfire⟩ := of_decide_eq_true hgood
  obtain ⟨hoff, hused⟩ := frame_unused_after_return hs hphase
  have hcallback : ∃ s' uses, s.act .callback = some (s', uses) := by
    simp only [Sys.act, hfire]
    exact ⟨_, _, rfl⟩
  obtain ⟨s', uses, hcallback⟩ := hcallback
  exact ⟨s, hphase, htimed, hoff, s', hused _ _ _ hcallback ▸ hcallback⟩

/-- A wake ends the wait while the timer's callback is about to read the timer. -/
theorem callback_reads_dead_frame :
    ∃ s : Sys, Lib.Reachable Initial (Step fun _ _ => True) s ∧ s.phase = .returned ∧
      ∃ s', s.act .callback = some (s', [.timer]) := by
  have h : Lib.Reachable Initial (Step fun _ _ => True) {} := .init rfl
  obtain ⟨s, hs, hbad⟩ := h.of_run (fun s a s' (ha : (s.act a).map Prod.fst = some s') => by
      obtain ⟨⟨x, uses⟩, hx, rfl⟩ := Option.map_eq_some_iff.mp ha
      exact ⟨a, uses, trivial, hx⟩)
    [.start 0 0 1, .expire 0 1, .wake, .resume, .cancel, .readBucket, .dequeue]
    (fun s => s.phase = .returned ∧ s.fire = some (0, .popped)) (by decide +kernel)
  obtain ⟨hphase, hfire⟩ := of_decide_eq_true hbad
  exact ⟨s, hs, hphase, _, by simp only [Sys.act, hfire]; rfl⟩

end CosmoOS.Ipc.FutexTimeout
