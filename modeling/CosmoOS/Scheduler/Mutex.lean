import CosmoOS.Lib.Transition
import Mathlib.Data.List.Basic
import Mathlib.Logic.Function.Basic

/-!
# The sleeping mutex

`mutex.cee` on the wait queue of `wait.cee` and the loop of `wait_floor.c`.  A thread that finds the
mutex owned queues itself, and attempts again each time it is woken; an unlock leaves the mutex
without an owner and wakes one of the queue, so that a thread that comes by may overtake it.  A
waiter that has been overtaken asks for the *handoff*, and the next unlock makes it the owner.

## The steps

A section under the mutex's lock, `PI_LOCK` or the queue's lock is one step, but for the wake: it
holds the queue's lock over its walk, and each `sched_wake` on the way takes the lock of a run
queue, so the walk is one step per waiter.

A thread that has prepared is marked `BLOCKED` *before* it makes its attempt.  A preemption makes it
`READY` again (`schedule_pass`), and so does a wake, its own or a stray one meant for an earlier
wait; both are the step `disturb`.  `sched_block_current` puts a thread to sleep only if it is still
`BLOCKED`, otherwise it is a yield.

The priorities lent to the owner read and write nothing of this; of the sections under `PI_LOCK`
only the place in the program is kept.  A recursive lock and an unlock by another thread are panics.

## What is proved

Ownership is exclusive (`Inv.own`), and a handoff is asked for from another owner by a thread that
waits on (`Inv.handoff`).  For the wakes, `Inv.awake`: a mutex without an owner and with a queue has
somebody in the queue that will make an attempt, or somebody that is about to wake one.
-/

namespace CosmoOS.Scheduler.Mutex

/-! ## The mutex -/

/-- `struct mutex`: the owner and the waiter the next unlock hands the mutex to. -/
structure MutexState (Thread : Type) where
  owner : Option Thread
  handoff : Option Thread
deriving DecidableEq, Repr

variable {Thread : Type}

section

variable [DecidableEq Thread]

section

variable (m : MutexState Thread) (cur : Thread)

/-- `tryTake`. -/
def tryTake : Bool × MutexState Thread :=
  if m.owner = none then (true, { m with owner := some cur }) else (false, m)

def waiterTake (overtaken : Bool) : Bool × MutexState Thread :=
  if m.owner = none ∨ m.owner = some cur then (true, { m with owner := some cur })
  else if overtaken = true ∧ m.handoff = none then (false, { m with handoff := some cur })
  else (false, m)

/-- What `unlock` does under the mutex's lock: the heir, and the mutex. -/
def release : Option Thread × MutexState Thread :=
  (m.handoff, { owner := m.handoff, handoff := none })

end

end

/-! ## The threads -/

/-- The states of a thread that matter here. -/
inductive RunState where
  | running
  | ready
  | blocked
deriving DecidableEq, Repr

/-- Where a thread is in `mutex_lock`, in the loop of `wait_floor_loop`, or in `mutex_unlock`.
`again` is false on the first turn of the loop only. -/
inductive Pc (Thread : Type) where
  | idle
  | locking
  | preparing (again : Bool)
  | prepared (again : Bool)
  | refused
  | blocking
  | asleep
  | woken
  | taken
  | finishing
  | inheriting
  | holding
  | wakingHeir (heir : Thread)
  | waking
  | visiting (rest : List Thread)

variable {p : Pc Thread}

structure ThreadState (Thread : Type) where
  pc : Pc Thread
  state : RunState

/-- The mutex, its queue with the holder of the queue's lock, and the threads. -/
structure World (Thread : Type) where
  mutex : MutexState Thread
  queue : List Thread
  queueLock : Option Thread
  thread : Thread → ThreadState Thread

namespace World

section

variable [DecidableEq Thread]

section

variable (w : World Thread) (t : Thread)

def setThread (k : ThreadState Thread) : World Thread :=
  { w with thread := Function.update w.thread t k }

def setPc (pc : Pc Thread) : World Thread :=
  w.setThread t { w.thread t with pc := pc }

/-- `sched_wake`: a thread that is `BLOCKED` is `READY`. -/
def schedWake : World Thread :=
  if (w.thread t).state = .blocked then w.setThread t { w.thread t with state := .ready } else w

end

/-- `list_push_back`, unless the entry is linked already. -/
def link (queue : List Thread) (t : Thread) : List Thread :=
  if t ∈ queue then queue else queue ++ [t]

/-- `sched_prepare_block_current`: never over a wake that has come already. -/
def prepareBlock : RunState → RunState
  | .ready => .ready
  | .running => .blocked
  | .blocked => .blocked

/-- `schedule`: a thread that is not `BLOCKED` is put back on the run queue. -/
def scheduleOut : RunState → RunState
  | .blocked => .blocked
  | .running => .ready
  | .ready => .ready

/-- Where `unlock` goes on: it wakes the heir, or one of the queue. -/
def afterRelease : Option Thread → Pc Thread
  | some heir => .wakingHeir heir
  | none => .waking

/-- **One step.** -/
inductive Step : World Thread → World Thread → Prop
  | call (w : World Thread) (t : Thread) :
    (w.thread t).pc = .idle → w.mutex.owner ≠ some t → Step w (w.setPc t .locking)
  | take (w : World Thread) (t : Thread) (m : MutexState Thread) :
    (w.thread t).pc = .locking → tryTake w.mutex t = (true, m) →
    Step w { w.setPc t .holding with mutex := m }
  | takeFail (w : World Thread) (t : Thread) (m : MutexState Thread) :
    (w.thread t).pc = .locking → tryTake w.mutex t = (false, m) →
    Step w { w.setPc t (.preparing false) with mutex := m }
  | tryLock (w : World Thread) (t : Thread) (m : MutexState Thread) :
    (w.thread t).pc = .idle → tryTake w.mutex t = (true, m) →
    Step w { w.setPc t .holding with mutex := m }
  | tryLockFail (w : World Thread) (t : Thread) (m : MutexState Thread) :
    (w.thread t).pc = .idle → tryTake w.mutex t = (false, m) → Step w { w with mutex := m }
  | prepare (w : World Thread) (t : Thread) (again : Bool) :
    (w.thread t).pc = .preparing again → w.queueLock = none →
    Step w { w.setThread t ⟨.prepared again, prepareBlock (w.thread t).state⟩ with
      queue := link w.queue t }
  /-- `attempt`, its section under the mutex's lock. -/
  | attempt (w : World Thread) (t : Thread) (again : Bool) (m : MutexState Thread) :
    (w.thread t).pc = .prepared again → waiterTake w.mutex t again = (true, m) →
    Step w { w.setPc t .taken with mutex := m }
  | attemptFail (w : World Thread) (t : Thread) (again : Bool) (m : MutexState Thread) :
    (w.thread t).pc = .prepared again → waiterTake w.mutex t again = (false, m) →
    Step w { w.setPc t .refused with mutex := m }
  /-- `attempt`, its section under `PI_LOCK`. -/
  | donate (w : World Thread) (t : Thread) :
    (w.thread t).pc = .refused → Step w (w.setPc t .blocking)
  | block (w : World Thread) (t : Thread) :
    (w.thread t).pc = .blocking →
    Step w (w.setThread t ⟨.asleep, scheduleOut (w.thread t).state⟩)
  | resume (w : World Thread) (t : Thread) :
    (w.thread t).pc = .asleep → (w.thread t).state = .ready →
    Step w (w.setThread t ⟨.woken, .running⟩)
  | woken (w : World Thread) (t : Thread) :
    (w.thread t).pc = .woken → Step w (w.setPc t (.preparing true))
  /-- `waitqueue_finish`, and after it `sched_set_running_current`. -/
  | finish (w : World Thread) (t : Thread) :
    (w.thread t).pc = .taken → w.queueLock = none →
    Step w { w.setPc t .finishing with queue := w.queue.erase t }
  | setRunning (w : World Thread) (t : Thread) :
    (w.thread t).pc = .finishing → Step w (w.setThread t ⟨.inheriting, .running⟩)
  /-- The section under `PI_LOCK` after the loop; `mutex_lock` returns. -/
  | inherit (w : World Thread) (t : Thread) :
    (w.thread t).pc = .inheriting → Step w (w.setPc t .holding)
  /-- `mutex_unlock`, its section under `PI_LOCK`. -/
  | unlock (w : World Thread) (t : Thread) :
    (w.thread t).pc = .holding → w.mutex.owner = some t →
    Step w { w.setPc t (afterRelease (release w.mutex).1) with mutex := (release w.mutex).2 }
  | wakeHeir (w : World Thread) (t heir : Thread) :
    (w.thread t).pc = .wakingHeir heir → Step w ((w.schedWake heir).setPc t .idle)
  /-- `waitqueue_wake_one` takes the queue's lock. -/
  | wakeOne (w : World Thread) (t : Thread) :
    (w.thread t).pc = .waking → w.queueLock = none →
    Step w { w.setPc t (.visiting w.queue) with queueLock := some t }
  /-- `wakeLocked` stops at the first waiter it wakes. -/
  | visitWakes (w : World Thread) (t s : Thread) (rest : List Thread) :
    (w.thread t).pc = .visiting (s :: rest) → (w.thread s).state = .blocked →
    Step w { (w.schedWake s).setPc t .idle with queueLock := none }
  | visitSkips (w : World Thread) (t s : Thread) (rest : List Thread) :
    (w.thread t).pc = .visiting (s :: rest) → (w.thread s).state ≠ .blocked →
    Step w (w.setPc t (.visiting rest))
  | visitEnds (w : World Thread) (t : Thread) :
    (w.thread t).pc = .visiting [] → Step w { w.setPc t .idle with queueLock := none }
  /-- A preemption, or a wake that was not meant for this wait. -/
  | disturb (w : World Thread) (t : Thread) :
    (w.thread t).state = .blocked →
    Step w (w.setThread t { w.thread t with state := .ready })
  /-- A thread that was preempted runs again. -/
  | dispatch (w : World Thread) (t : Thread) :
    (w.thread t).state = .ready → (w.thread t).pc ≠ .asleep →
    Step w (w.setThread t { w.thread t with state := .running })

structure Initial (w : World Thread) : Prop where
  mutex : w.mutex = ⟨none, none⟩
  queue : w.queue = [] ∧ w.queueLock = none
  thread : ∀ t, w.thread t = ⟨.idle, .running⟩

end

/-! ## What holds in every state -/

end World

/-- Past the successful attempt and before the unlock. -/
def Pc.Owns : Pc Thread → Prop
  | .taken => True
  | .finishing => True
  | .inheriting => True
  | .holding => True
  | _ => False

/-- In the loop, prepared at least once. -/
def Pc.Waits : Pc Thread → Prop
  | .preparing again => again = true
  | .prepared _ => True
  | .refused => True
  | .blocking => True
  | .asleep => True
  | .woken => True
  | _ => False

/-- Between a failed attempt and the end of the block. -/
def Pc.Sleeping : Pc Thread → Prop
  | .refused => True
  | .blocking => True
  | .asleep => True
  | _ => False

/-- In the wake at the end of an unlock that has no heir. -/
def Pc.Waking : Pc Thread → Prop
  | .waking => True
  | .visiting _ => True
  | _ => False

/-- A waiter that goes on without being woken: it is not `BLOCKED`, or its attempt is still to
come. -/
def ThreadState.Awake (k : ThreadState Thread) : Prop :=
  k.state ≠ .blocked ∨ ∃ again, k.pc = .prepared again

theorem Pc.Owns.not_waits (h : p.Owns) : ¬ p.Waits := by
  cases p <;> first | exact id | exact absurd h id

theorem Pc.Owns.not_sleeping (h : p.Owns) : ¬ p.Sleeping := by
  cases p <;> first | exact id | exact absurd h id

namespace World

/-- A wake that walks through the queue has the lock, and nobody it has passed is `BLOCKED`. -/
def Walks (w : World Thread) : Prop :=
  ∀ u rest, (w.thread u).pc = .visiting rest → w.queueLock = some u ∧
    ∃ passed, w.queue = passed ++ rest ∧ ∀ t ∈ passed, (w.thread t).state ≠ .blocked

/-- **The invariant.** -/
structure Inv (w : World Thread) : Prop where
  own : ∀ t, (w.thread t).pc.Owns → w.mutex.owner = some t
  /-- A handoff is asked for by a waiter, from another owner. -/
  handoff : ∀ t, w.mutex.handoff = some t →
    (∃ o, w.mutex.owner = some o ∧ o ≠ t) ∧ (w.thread t).pc.Waits
  /-- A waiter is in the queue until `waitqueue_finish`. -/
  linked : ∀ t, (w.thread t).pc.Waits ∨ (w.thread t).pc = .taken → t ∈ w.queue
  /-- Whoever walks through the queue does so alone. -/
  visiting : w.Walks
  /-- A mutex that is free is not forgotten. -/
  awake : w.mutex.owner = none → w.queue ≠ [] →
    (∃ t ∈ w.queue, (w.thread t).Awake) ∨ ∃ u, (w.thread u).pc.Waking
  /-- A sleeper that has been made the owner is woken. -/
  heir : ∀ t, w.mutex.owner = some t → (w.thread t).pc.Sleeping → (w.thread t).state = .blocked →
    ∃ u, (w.thread u).pc = .wakingHeir t

theorem Inv.of_initial {w : World Thread} (h : Initial w) : Inv w := by
  refine ⟨fun t ht => ?_, fun t ht => ?_, fun t ht => ?_, fun u rest hu => ?_, fun _ hq => ?_,
    fun t _ ht => ?_⟩
  · rw [h.thread t] at ht
    cases ht
  · rw [h.mutex] at ht
    cases ht
  · rw [h.thread t] at ht
    rcases ht with ht | ht <;> cases ht
  · rw [h.thread u] at hu
    cases hu
  · exact absurd h.queue.1 hq
  · rw [h.thread t] at ht
    cases ht

variable {w w' : World Thread} {t u s : Thread} {again : Bool} {m m' : MutexState Thread}
  {q : List Thread} {l : Option Thread} {th th' : Thread → ThreadState Thread}

/-- **What a step of one thread can do to the threads.**  Nobody else moves, and whoever was not
`BLOCKED` is not. -/
structure Moves (t : Thread) (th th' : Thread → ThreadState Thread) : Prop where
  pc : ∀ u, u ≠ t → (th' u).pc = (th u).pc
  state : ∀ u, (th u).state ≠ .blocked → (th' u).state ≠ .blocked

theorem Moves.blocked (h : Moves t th th') (u : Thread) (hb : (th' u).state = .blocked) :
    (th u).state = .blocked :=
  by_contra fun hn => h.state u hn hb

variable {P : Pc Thread → Prop}

/-- What holds of the place of every thread held before, if it did for the thread that moved. -/
theorem Moves.was (hm : ∀ u, u ≠ t → (th' u).pc = (th u).pc) (ht : P (th' t).pc → P (th t).pc)
    (hu : P (th' u).pc) : P (th u).pc := by
  by_cases hut : u = t
  · subst hut
    exact ht hu
  · exact hm u hut ▸ hu

theorem Moves.stays (hm : ∀ u, u ≠ t → (th' u).pc = (th u).pc) (ht : P (th t).pc → P (th' t).pc)
    (hu : P (th u).pc) : P (th' u).pc :=
  Moves.was (fun v hv => (hm v hv).symm) ht hu

theorem Moves.awake (h : Moves t th th')
    (ht : ∀ again, (th t).pc = .prepared again → (th' t).pc = .prepared again)
    (ha : (th u).Awake) : (th' u).Awake := by
  rcases ha with ha | ⟨again, ha⟩
  · exact .inl (h.state u ha)
  · exact .inr ⟨again, Moves.stays (P := (· = .prepared again)) h.pc (ht again) ha⟩

/-- A place in the program that asks for nothing more than the one before it, and gives up nothing
that others rely on. -/
structure Calm (p q : Pc Thread) : Prop where
  owns : q.Owns → p.Owns
  waits : p.Waits → q.Waits
  linked : q.Waits ∨ q = .taken → p.Waits ∨ p = .taken
  sleeping : q.Sleeping → p.Sleeping
  prepared : ∀ again, p = .prepared again → q = .prepared again

theorem Walks.of_moves (h : w.Walks) (hm : Moves t w.thread th)
    (ht : ∀ rest, (th t).pc = .visiting rest → (w.thread t).pc = .visiting rest) :
    { w with thread := th, mutex := m }.Walks := by
  intro u rest hu
  obtain ⟨hlock, passed, hpass, hnb⟩ :=
    h u rest (Moves.was (P := (· = .visiting rest)) hm.pc (ht rest) hu)
  exact ⟨hlock, passed, hpass, fun s hs => hm.state s (hnb s hs)⟩

/-- While nobody else has the queue's lock, nobody else walks through the queue. -/
theorem Walks.of_alone (h : w.Walks) (hl : ∀ u, w.queueLock = some u → u = t)
    (hm : ∀ u, u ≠ t → (th u).pc = (w.thread u).pc)
    (ht : ∀ rest, (th t).pc = .visiting rest → l = some t ∧
      ∃ passed, q = passed ++ rest ∧ ∀ s ∈ passed, (th s).state ≠ .blocked) :
    (World.mk m q l th).Walks := by
  intro u rest hu
  by_cases hut : u = t
  · subst hut
    exact ht rest hu
  · exact absurd (hl u (h u rest (hm u hut ▸ hu)).1) hut

section

variable (h : Inv w) (hm : Moves t w.thread th)

include h hm

/-- **A step that leaves the mutex and the queue alone.**  Whoever wakes and stops doing so has
woken. -/
theorem Inv.calm (hv : { w with thread := th, queueLock := l }.Walks)
    (hc : Calm (w.thread t).pc (th t).pc)
    (hwaking : (w.thread t).pc.Waking →
      (th t).pc.Waking ∨ (w.queue ≠ [] → ∃ s ∈ w.queue, (th s).Awake))
    (hheir : ∀ s, (w.thread t).pc = .wakingHeir s →
      (th t).pc = .wakingHeir s ∨ (th s).state ≠ .blocked) :
    Inv { w with thread := th, queueLock := l } := by
  refine ⟨fun u hu => ?_, fun u hu => ?_, fun u hu => ?_, hv, fun ho hne => ?_,
    fun u ho hsl hb => ?_⟩
  · exact h.own u (Moves.was hm.pc hc.owns hu)
  · exact (h.handoff u hu).imp id (Moves.stays hm.pc hc.waits)
  · exact h.linked u (Moves.was (P := fun p => p.Waits ∨ p = .taken) hm.pc hc.linked hu)
  · rcases h.awake ho hne with ⟨s, hmem, ha⟩ | ⟨u, hu⟩
    · exact .inl ⟨s, hmem, hm.awake hc.prepared ha⟩
    · by_cases hut : u = t
      · subst hut
        rcases hwaking hu with hu' | ha
        · exact .inr ⟨u, hu'⟩
        · exact .inl (ha hne)
      · exact .inr ⟨u, (hm.pc u hut).symm ▸ hu⟩
  · obtain ⟨v, hv⟩ := h.heir u ho (Moves.was hm.pc hc.sleeping hsl) (hm.blocked u hb)
    by_cases hvt : v = t
    · subst hvt
      rcases hheir u hv with hv' | hnb
      · exact ⟨v, hv'⟩
      · exact absurd hb hnb
    · exact ⟨v, (hm.pc v hvt).trans hv⟩

/-- **The mutex is taken**: it was free, or had been handed to the thread. -/
theorem Inv.takes (ho : w.mutex.owner = none ∨ w.mutex.owner = some t) (hpc : (th t).pc.Owns)
    (hlink : (th t).pc = .taken → t ∈ w.queue) :
    Inv { w with thread := th, mutex := { w.mutex with owner := some t } } := by
  have hother : ∀ u, w.mutex.owner = some u → u = t := by
    intro u hu
    rcases ho with ho | ho
    · rw [hu] at ho
      cases ho
    · exact Option.some.inj (hu.symm.trans ho)
  refine ⟨fun u hu => ?_, fun u hu => ?_, fun u hu => ?_, ?_, nofun, fun u hu hsl => ?_⟩
  · by_cases hut : u = t
    · rw [hut]
    · exact absurd (hother u (h.own u (hm.pc u hut ▸ hu))) hut
  · obtain ⟨⟨o, ho', hne⟩, hw⟩ := h.handoff u hu
    rw [hother o ho'] at hne
    exact ⟨⟨t, rfl, hne⟩, (hm.pc u hne.symm).symm ▸ hw⟩
  · by_cases hut : u = t
    · subst hut
      rcases hu with hu | hu
      · exact absurd hu (Pc.Owns.not_waits hpc)
      · exact hlink hu
    · exact h.linked u (hm.pc u hut ▸ hu)
  · refine h.visiting.of_moves hm fun rest hr => ?_
    rw [hr] at hpc
    cases hpc
  · obtain rfl : t = u := Option.some.inj hu
    exact absurd hsl (Pc.Owns.not_sleeping hpc)

/-- **A refused attempt**, that may have asked for the handoff. -/
theorem Inv.refuses {o : Thread} (hp : (w.thread t).pc = .prepared again)
    (hpc : (th t).pc = .refused) (ho : w.mutex.owner = some o) (hne : o ≠ t)
    (hmx : m = w.mutex ∨ m = { w.mutex with handoff := some t }) :
    Inv { w with thread := th, mutex := m } := by
  have ho' : m.owner = w.mutex.owner := by
    rcases hmx with hmx | hmx <;> rw [hmx]
  have hwt : (th t).pc.Waits := by rw [hpc]; trivial
  refine ⟨fun u hu => ?_, fun u hu => ?_, fun u hu => ?_, ?_, fun hn => ?_, fun u hu hsl hb => ?_⟩
  · exact ho'.trans (h.own u (Moves.was hm.pc (by rw [hpc]; exact False.elim) hu))
  · dsimp only at hu ⊢
    rw [ho']
    rcases hmx with hmx | hmx <;> rw [hmx] at hu
    · exact (h.handoff u hu).imp id (Moves.stays hm.pc fun _ => hwt)
    · obtain rfl : t = u := Option.some.inj hu
      exact ⟨⟨o, ho, hne⟩, hwt⟩
  · refine h.linked u (Moves.was (P := fun p => p.Waits ∨ p = .taken) hm.pc (fun _ => ?_) hu)
    rw [hp]
    exact .inl trivial
  · refine h.visiting.of_moves hm fun rest hr => ?_
    rw [hpc] at hr
    cases hr
  · cases (ho'.trans ho).symm.trans hn
  · obtain rfl : o = u := Option.some.inj ((ho'.trans ho).symm.trans hu)
    obtain ⟨v, hv⟩ := h.heir o ho (hm.pc o hne ▸ hsl) (hm.blocked o hb)
    exact ⟨v, Moves.stays (P := (· = .wakingHeir o)) hm.pc (by rw [hp]; nofun) hv⟩

end

/-- **A waiter prepares**: it is `BLOCKED` from now on, and its attempt is to come. -/
theorem Inv.prepares (h : Inv w) (hp : (w.thread t).pc = .preparing again)
    (hpc : (th t).pc = .prepared again) (hm : ∀ u, u ≠ t → th u = w.thread u)
    (hlock : w.queueLock = none) (hmem : t ∈ q) (hsub : ∀ u ∈ w.queue, u ∈ q) :
    Inv { w with thread := th, queue := q } := by
  have hpcs : ∀ u, u ≠ t → (th u).pc = (w.thread u).pc := fun u hu => by rw [hm u hu]
  refine ⟨fun u hu => ?_, fun u hu => ?_, fun u hu => ?_, ?_, fun _ _ => .inl ⟨t, hmem, ?_⟩,
    fun u hu hsl hb => ?_⟩
  · exact h.own u (Moves.was hpcs (by rw [hpc]; exact False.elim) hu)
  · exact (h.handoff u hu).imp id (Moves.stays hpcs fun _ => by rw [hpc]; trivial)
  · by_cases hut : u = t
    · exact hut ▸ hmem
    · exact hsub u (h.linked u (hm u hut ▸ hu))
  · exact h.visiting.of_alone (by simp [hlock]) hpcs (by simp [hpc])
  · exact .inr ⟨again, hpc⟩
  · have hut : u ≠ t := by
      rintro rfl
      rw [hpc] at hsl
      cases hsl
    obtain ⟨v, hv⟩ := h.heir u hu (hm u hut ▸ hsl) (hm u hut ▸ hb)
    exact ⟨v, Moves.stays (P := (· = .wakingHeir u)) hpcs (by rw [hp]; nofun) hv⟩

/-- **The owner leaves the queue.** -/
theorem Inv.finishes (h : Inv w) (hm : Moves t w.thread th) (hp : (w.thread t).pc = .taken)
    (hpc : (th t).pc = .finishing) (hlock : w.queueLock = none)
    (hsub : ∀ u ∈ w.queue, u ≠ t → u ∈ q) : Inv { w with thread := th, queue := q } := by
  have howner : w.mutex.owner = some t := h.own t (by rw [hp]; trivial)
  refine ⟨fun u hu => ?_, fun u hu => ?_, fun u hu => ?_, ?_, fun hn => ?_, fun u hu hsl => ?_⟩
  · exact h.own u (Moves.was hm.pc (by rw [hp]; exact fun _ => trivial) hu)
  · exact (h.handoff u hu).imp id (Moves.stays hm.pc (by rw [hp]; exact False.elim))
  · by_cases hut : u = t
    · rw [hut, hpc] at hu
      rcases hu with hu | hu <;> cases hu
    · exact hsub u (h.linked u (hm.pc u hut ▸ hu)) hut
  · exact h.visiting.of_alone (by simp [hlock]) hm.pc (by simp [hpc])
  · cases howner.symm.trans hn
  · obtain rfl : t = u := Option.some.inj (howner.symm.trans hu)
    rw [hpc] at hsl
    cases hsl

/-- **The owner unlocks**: it is going to wake the heir, or one of the queue. -/
theorem Inv.unlocks (h : Inv w) (hm : Moves t w.thread th) (ho : w.mutex.owner = some t)
    (hpc : (th t).pc = afterRelease w.mutex.handoff) :
    Inv { w with thread := th, mutex := ⟨w.mutex.handoff, none⟩ } := by
  have hafter : ∀ p : Pc Thread, (th t).pc = p → p = .waking ∨ ∃ s, p = .wakingHeir s := by
    rintro p rfl
    rw [hpc]
    cases w.mutex.handoff with
    | none => exact .inl rfl
    | some s => exact .inr ⟨s, rfl⟩
  refine ⟨fun u hu => ?_, nofun, fun u hu => ?_, ?_, fun hn _ => .inr ⟨t, ?_⟩,
    fun u hu _ _ => ⟨t, ?_⟩⟩
  · by_cases hut : u = t
    · subst hut
      rcases hafter _ rfl with hp | ⟨s, hp⟩ <;> rw [hp] at hu <;> cases hu
    · exact absurd (Option.some.inj ((h.own u (hm.pc u hut ▸ hu)).symm.trans ho)) hut
  · refine h.linked u (Moves.was (P := fun p => p.Waits ∨ p = .taken) hm.pc (fun hu => ?_) hu)
    rcases hafter _ rfl with hp | ⟨s, hp⟩ <;> rw [hp] at hu <;> rcases hu with hu | hu <;> cases hu
  · refine h.visiting.of_moves hm fun rest hr => ?_
    rcases hafter _ hr with hp | ⟨s, hp⟩ <;> cases hp
  · rw [hpc, show w.mutex.handoff = none from hn]
    trivial
  · rw [hpc, show w.mutex.handoff = some u from hu]
    rfl

theorem Calm.refl (p : Pc Thread) : Calm p p := ⟨id, id, id, id, fun _ => id⟩

theorem Calm.of_waking {q : Pc Thread} (hp : p.Waking) (hq : q.Waking ∨ q = .idle) : Calm p q := by
  have hq' : ¬ q.Owns ∧ ¬ (q.Waits ∨ q = .taken) ∧ ¬ q.Sleeping := by
    cases q <;> simp [Pc.Waking, Pc.Owns, Pc.Waits, Pc.Sleeping] at hq ⊢
  have hp' : ¬ p.Waits ∧ ∀ again, p ≠ .prepared again := by
    cases p <;> simp [Pc.Waking, Pc.Waits] at hp ⊢
  exact ⟨fun h => absurd h hq'.1, fun h => absurd h hp'.1, fun h => absurd h hq'.2.1,
    fun h => absurd h hq'.2.2, fun again h => absurd h (hp'.2 again)⟩

/-- **A step of a wake**, of a thread that nobody shares the queue's lock with.  When it ends the
wake, somebody queued is not `BLOCKED`. -/
theorem Inv.wakes (h : Inv w) (hp : (w.thread t).pc.Waking) (hm : Moves t w.thread th)
    (hl : ∀ u, w.queueLock = some u → u = t)
    (ht : ∀ rest, (th t).pc = .visiting rest → l = some t ∧
      ∃ passed, w.queue = passed ++ rest ∧ ∀ s ∈ passed, (th s).state ≠ .blocked)
    (hpc : (th t).pc.Waking ∨ (th t).pc = .idle ∧
      (w.queue ≠ [] → ∃ s ∈ w.queue, (th s).state ≠ .blocked)) :
    Inv { w with thread := th, queueLock := l } := by
  refine h.calm hm (h.visiting.of_alone hl hm.pc ht) (.of_waking hp (hpc.imp_right And.left))
    (fun _ => ?_) fun v hv => ?_
  · exact hpc.imp_right fun hi hne => (hi.2 hne).imp fun s hs => ⟨hs.1, .inl hs.2⟩
  · rw [hv] at hp
    cases hp

theorem tryTake_true (h : tryTake m t = (true, m')) :
    m.owner = none ∧ m' = { m with owner := some t } := by
  rw [tryTake] at h
  split_ifs at h with ho
  · exact ⟨ho, (congrArg Prod.snd h).symm⟩
  · cases congrArg Prod.fst h

theorem tryTake_false (h : tryTake m t = (false, m')) :
    m' = m := by
  rw [tryTake] at h
  split_ifs at h with ho
  · cases congrArg Prod.fst h
  · exact (congrArg Prod.snd h).symm

variable [DecidableEq Thread]

theorem setThread_self (w : World Thread) (t : Thread) (k : ThreadState Thread) :
    (w.setThread t k).thread t = k := by
  simp only [setThread, Function.update_self]

theorem setThread_of_ne (w : World Thread) (h : u ≠ t) (k : ThreadState Thread) :
    (w.setThread t k).thread u = w.thread u := by
  simp only [setThread, Function.update_of_ne h]

variable {k : ThreadState Thread}

theorem Moves.setThread (hk : (w.thread t).state ≠ .blocked → k.state ≠ .blocked) :
    Moves t w.thread (w.setThread t k).thread := by
  refine ⟨fun u hu => by rw [setThread_of_ne w hu], fun u hs => ?_⟩
  by_cases hu : u = t
  · subst hu
    rw [setThread_self]
    exact hk hs
  · rw [setThread_of_ne w hu]
    exact hs

section

variable (w t) (pc : Pc Thread)

theorem Moves.setPc : Moves t w.thread (w.setPc t pc).thread :=
  .setThread id

theorem setPc_pc : ((w.setPc t pc).thread t).pc = pc := by
  rw [setPc, setThread_self]

theorem setPc_state (t u : Thread) (pc : Pc Thread) :
    ((w.setPc t pc).thread u).state = (w.thread u).state := by
  by_cases hu : u = t
  · rw [hu, setPc, setThread_self]
  · rw [setPc, setThread_of_ne w hu]

theorem schedWake_pc (t u : Thread) : ((w.schedWake t).thread u).pc = (w.thread u).pc := by
  rw [schedWake]
  split_ifs
  · by_cases hu : u = t
    · rw [hu, setThread_self]
    · rw [setThread_of_ne w hu]
  · rfl

/-- After a wake the thread is not `BLOCKED`, and nobody else is changed. -/
theorem schedWake_state :
    ((w.schedWake t).thread t).state ≠ .blocked ∧
      ∀ u, ((w.schedWake t).thread u).state = .blocked → (w.thread u).state = .blocked := by
  rw [schedWake]
  split_ifs with hb
  · refine ⟨by rw [setThread_self]; simp, fun u hu => ?_⟩
    by_cases hut : u = t
    · rw [hut]
      exact hb
    · rwa [setThread_of_ne w hut] at hu
  · exact ⟨hb, fun _ => id⟩

theorem schedWake_setPc (t s : Thread) (pc : Pc Thread) :
    (w.schedWake s).setPc t pc = { w with thread := ((w.schedWake s).setPc t pc).thread } := by
  rw [schedWake]
  split_ifs <;> rfl

/-- A wake, and then a move of the waker. -/
theorem Moves.schedWake (t s : Thread) (pc : Pc Thread) :
    Moves t w.thread ((w.schedWake s).setPc t pc).thread := by
  refine ⟨fun u hu => ?_, fun u hu => ?_⟩
  · rw [(Moves.setPc _ t pc).pc u hu, schedWake_pc]
  · rw [setPc_state]
    exact fun hb => hu ((schedWake_state w s).2 u hb)

end

theorem waiterTake_true (h : waiterTake m t again = (true, m')) :
    (m.owner = none ∨ m.owner = some t) ∧ m' = { m with owner := some t } := by
  rw [waiterTake] at h
  split_ifs at h with ho
  · exact ⟨ho, (congrArg Prod.snd h).symm⟩
  all_goals cases congrArg Prod.fst h

theorem waiterTake_false (h : waiterTake m t again = (false, m')) :
    (∃ o, m.owner = some o ∧ o ≠ t) ∧ (m' = m ∨ m' = { m with handoff := some t }) := by
  rw [waiterTake] at h
  by_cases ho : m.owner = none ∨ m.owner = some t
  · rw [if_pos ho] at h
    cases congrArg Prod.fst h
  have howner : ∃ o, m.owner = some o ∧ o ≠ t := by
    cases hm : m.owner with
    | none => exact absurd (.inl hm) ho
    | some o => exact ⟨o, rfl, fun hot => ho (.inr (hot ▸ hm))⟩
  split_ifs at h
  · exact ⟨howner, .inr (congrArg Prod.snd h).symm⟩
  · exact ⟨howner, .inl (congrArg Prod.snd h).symm⟩

/-- A step of a thread that has no wake to make. -/
theorem Inv.plain (h : Inv w) (hp : (w.thread t).pc = p) (hc : Calm p k.pc)
    (hw : (∀ rest, k.pc ≠ .visiting rest) ∧ ¬ p.Waking ∧ ∀ s, p ≠ .wakingHeir s)
    (hb : (w.thread t).state ≠ .blocked → k.state ≠ .blocked) : Inv (w.setThread t k) := by
  subst hp
  refine h.calm (.setThread hb) (h.visiting.of_moves (.setThread hb) fun rest hr => ?_) ?_
    (fun hk => absurd hk hw.2.1) (fun s hk => absurd hk (hw.2.2 s))
  · rw [Function.update_self] at hr
    exact absurd hr (hw.1 rest)
  · rw [Function.update_self]
    exact hc

/-- The state of a thread changes, and it stays where it is. -/
theorem Inv.restate {s : RunState} (h : Inv w) (hs : s ≠ .blocked) :
    Inv (w.setThread t { w.thread t with state := s }) := by
  refine h.calm (.setThread fun _ => hs) (h.visiting.of_moves (.setThread fun _ => hs) ?_) ?_ ?_ ?_
    <;> rw [Function.update_self]
  · exact fun _ => id
  · exact .refl _
  · exact .inl
  · exact fun _ => .inl

theorem Inv.tryTakes (h : Inv w) (ht : tryTake w.mutex t = (true, m)) :
    Inv { w.setPc t .holding with mutex := m } := by
  obtain ⟨ho, rfl⟩ := tryTake_true ht
  have hpc := setPc_pc w t .holding
  refine h.takes (.setPc w t .holding) (.inl ho) ?_ fun ht => ?_
  · rw [hpc]
    trivial
  · rw [hpc] at ht
    cases ht

section Walk

variable {rest : List Thread} (h : Inv w)
include h

theorem Inv.wakeOne (hp : (w.thread t).pc = .waking) (hl : w.queueLock = none) :
    Inv { w.setPc t (.visiting w.queue) with queueLock := some t } := by
  have hpc := setPc_pc w t (.visiting w.queue)
  refine h.wakes (by rw [hp]; trivial) (.setPc w t (.visiting w.queue)) (by simp [hl])
    (fun rest hr => ?_) (.inl ?_)
  · cases hpc.symm.trans hr
    exact ⟨rfl, [], rfl, nofun⟩
  · rw [hpc]
    trivial

theorem Inv.visitSkips (hp : (w.thread t).pc = .visiting (s :: rest))
    (hs : (w.thread s).state ≠ .blocked) : Inv (w.setPc t (.visiting rest)) := by
  obtain ⟨hlock, passed, hq, hnb⟩ := h.visiting t _ hp
  refine h.wakes (by rw [hp]; trivial) (.setPc w t (.visiting rest)) (by simp [hlock])
    (fun r hr => ?_) (.inl (by simp [Pc.Waking]))
  cases (setPc_pc w t (.visiting rest)).symm.trans hr
  refine ⟨hlock, passed ++ [s], by simp [hq], fun v hv => (setPc_state w t v _).trans_ne ?_⟩
  rcases List.mem_append.mp hv with hv | hv
  · exact hnb v hv
  · rw [List.mem_singleton.mp hv]
    exact hs

theorem Inv.visitWakes (hp : (w.thread t).pc = .visiting (s :: rest)) :
    Inv { (w.schedWake s).setPc t .idle with queueLock := none } := by
  obtain ⟨hlock, passed, hq, -⟩ := h.visiting t _ hp
  have hpc := setPc_pc (w.schedWake s) t .idle
  have hs : (((w.schedWake s).setPc t .idle).thread s).state ≠ .blocked :=
    (setPc_state _ t s .idle).trans_ne (schedWake_state w s).1
  have hinv := h.wakes (l := none) (by rw [hp]; trivial) (.schedWake w t s .idle)
    (by simp [hlock]) (by simp [hpc]) (.inr ⟨hpc, fun _ => ⟨s, by simp [hq], hs⟩⟩)
  rw [schedWake_setPc]
  exact hinv

theorem Inv.visitEnds (hp : (w.thread t).pc = .visiting []) :
    Inv { w.setPc t .idle with queueLock := none } := by
  obtain ⟨hlock, passed, hq, hnb⟩ := h.visiting t _ hp
  rw [List.append_nil] at hq
  have hpc := setPc_pc w t .idle
  refine h.wakes (by rw [hp]; trivial) (.setPc w t .idle) (by simp [hlock]) (by simp [hpc])
    (.inr ⟨hpc, fun hne => ?_⟩)
  obtain ⟨s, hs⟩ := List.exists_mem_of_ne_nil w.queue hne
  refine ⟨s, hs, ?_⟩
  rw [setPc_state]
  exact hnb s (hq ▸ hs)

end Walk

theorem Inv.wakeHeir (h : Inv w) (hp : (w.thread t).pc = .wakingHeir s) :
    Inv ((w.schedWake s).setPc t .idle) := by
  have hpc := setPc_pc (w.schedWake s) t .idle
  have hm := Moves.schedWake w t s .idle
  rw [schedWake_setPc]
  refine h.calm hm (h.visiting.of_moves hm fun rest hr => ?_) ?_ (fun hk => ?_) fun v hv => .inr ?_
  · cases hpc.symm.trans hr
  · rw [hp, hpc]
    constructor <;> simp [Pc.Owns, Pc.Waits, Pc.Sleeping]
  · rw [hp] at hk
    cases hk
  · cases hp.symm.trans hv
    rw [setPc_state]
    exact (schedWake_state w s).1

theorem mem_link {queue : List Thread} : u ∈ link queue t ↔ u ∈ queue ∨ u = t := by
  rw [link]
  split_ifs with ht
  · refine ⟨.inl, ?_⟩
    rintro (hu | rfl)
    exacts [hu, ht]
  · rw [List.mem_append, List.mem_singleton]

/-- **Every step keeps the invariant.** -/
theorem Inv.step (h : Inv w) (hstep : Step w w') : Inv w' := by
  cases hstep with
  | call t hp ho | donate t hp | woken t hp | inherit t hp =>
    refine h.plain hp ?_ (by simp [Pc.Waking]) id
    constructor <;> simp [Pc.Owns, Pc.Waits, Pc.Sleeping]
  | take t m hp ht | tryLock t m hp ht => exact h.tryTakes ht
  | takeFail t m hp ht =>
    obtain rfl := tryTake_false ht
    refine h.plain hp ?_ (by simp [Pc.Waking]) id
    constructor <;> simp [Pc.Owns, Pc.Waits, Pc.Sleeping]
  | tryLockFail t m hp ht =>
    obtain rfl := tryTake_false ht
    exact h
  | prepare t again hp hl =>
    exact h.prepares hp (congrArg ThreadState.pc (setThread_self w t _))
      (fun u hu => setThread_of_ne w hu _) hl (mem_link.mpr (.inr rfl))
      (fun u hu => mem_link.mpr (.inl hu))
  | attempt t again m hp ht =>
    obtain ⟨ho, rfl⟩ := waiterTake_true ht
    have hpc := setPc_pc w t .taken
    refine h.takes (.setPc w t .taken) ho ?_ fun _ => ?_
    · rw [hpc]
      trivial
    · refine h.linked t (.inl ?_)
      rw [hp]
      trivial
  | attemptFail t again m hp ht =>
    obtain ⟨⟨o, ho, hne⟩, hm⟩ := waiterTake_false ht
    exact h.refuses (.setPc w t .refused) hp (setPc_pc w t .refused) ho hne hm
  | block t hp =>
    refine h.plain hp ?_ (by simp [Pc.Waking]) fun hb => ?_
    · constructor <;> simp [Pc.Owns, Pc.Waits, Pc.Sleeping]
    · cases hs : (w.thread t).state <;> simp [scheduleOut, hs] at hb ⊢
  | resume t hp hs | setRunning t hp =>
    refine h.plain hp ?_ (by simp [Pc.Waking]) fun _ => by simp
    constructor <;> simp [Pc.Owns, Pc.Waits, Pc.Sleeping]
  | finish t hp hl =>
    exact h.finishes (.setPc w t .finishing) hp (setPc_pc w t .finishing) hl
      (fun u hu hut => (List.mem_erase_of_ne hut).mpr hu)
  | unlock t hp ho =>
    exact h.unlocks (.setPc w t _) ho (setPc_pc w t _)
  | wakeHeir t s hp => exact h.wakeHeir hp
  | wakeOne t hp hl => exact h.wakeOne hp hl
  | visitWakes t s rest hp hs => exact h.visitWakes hp
  | visitSkips t s rest hp hs => exact h.visitSkips hp hs
  | visitEnds t hp => exact h.visitEnds hp
  | disturb t hs | dispatch t hs hp => exact h.restate (by simp)

/-! ## The run -/

/-- **The end of a wake.**  If anybody is queued then, somebody queued is not `BLOCKED`. -/
theorem Inv.wake_ends (h : Inv w) (hstep : Step w w') (hu : (w.thread u).pc.Waking)
    (hu' : ¬ (w'.thread u).pc.Waking) (hne : w'.queue ≠ []) :
    ∃ t ∈ w'.queue, (w'.thread t).state ≠ .blocked := by
  -- the step of a thread that is not in a wake leaves `u` in its wake
  have other : ∀ {t : Thread} {p : Pc Thread}, (w.thread t).pc = p → ¬ p.Waking →
      (∀ v, v ≠ t → (w'.thread v).pc = (w.thread v).pc) → False := by
    intro t p hp hnw hsame
    have hut : u ≠ t := by
      rintro rfl
      exact hnw (hp ▸ hu)
    exact hu' (hsame u hut ▸ hu)
  cases hstep with
  | call t hp _ | take t m hp _ | takeFail t m hp _ | tryLock t m hp _ | attempt t again m hp _
  | attemptFail t again m hp _ | donate t hp | woken t hp | finish t hp _ | inherit t hp
  | unlock t hp _ => exact (other hp id (Moves.setPc w t _).pc).elim
  | tryLockFail t m hp _ => exact absurd hu hu'
  | prepare t again hp _ | block t hp | resume t hp _ | setRunning t hp =>
    exact (other hp id fun v hv => congrArg ThreadState.pc (setThread_of_ne w hv _)).elim
  | wakeHeir t s hp => exact (other hp id (Moves.schedWake w t s _).pc).elim
  | wakeOne t hp _ =>
    by_cases hut : u = t
    · subst hut
      refine absurd ?_ hu'
      rw [show ((_ : World Thread).thread u).pc = _ from setPc_pc w u (.visiting w.queue)]
      trivial
    · exact absurd ((Moves.setPc w t (.visiting w.queue)).pc u hut ▸ hu) hu'
  | visitWakes t s rest hp hs =>
    obtain ⟨-, passed, hq, -⟩ := h.visiting t _ hp
    refine ⟨s, by rw [schedWake_setPc]; simp [hq], ?_⟩
    rw [setPc_state]
    exact (schedWake_state w s).1
  | visitSkips t s rest hp _ =>
    by_cases hut : u = t
    · subst hut
      refine absurd ?_ hu'
      rw [setPc_pc]
      trivial
    · exact absurd ((Moves.setPc w t (.visiting rest)).pc u hut ▸ hu) hu'
  | visitEnds t hp =>
    obtain ⟨-, passed, hq, hnb⟩ := h.visiting t _ hp
    rw [List.append_nil] at hq
    obtain ⟨s, hs⟩ := List.exists_mem_of_ne_nil w.queue hne
    refine ⟨s, hs, ?_⟩
    rw [setPc_state]
    exact hnb s (hq ▸ hs)
  | disturb t _ | dispatch t _ _ =>
    refine absurd ?_ hu'
    by_cases hut : u = t
    · rw [hut, setThread_self]
      exact hut ▸ hu
    · rw [setThread_of_ne w hut]
      exact hu

/-- **The mutex, over every run.**  At most one thread is between a successful lock and its unlock,
and it is the owner.  A handoff is owed only to a thread that waits in the queue, by another thread
that owns the mutex.  At the end of an unlock's wake somebody in the queue, if there is anybody, is
not `BLOCKED`; and as long as the mutex is free and no wake is on its way, somebody in the queue is
not `BLOCKED` or has its attempt still to make.  A sleeper that was made the owner is about to be
woken. -/
theorem mutex_run (h : Lib.Reachable Initial Step w) :
    (∀ t u, (w.thread t).pc.Owns → (w.thread u).pc.Owns → t = u) ∧
    (∀ t, (w.thread t).pc = .holding → w.mutex.owner = some t) ∧
    (∀ t, w.mutex.handoff = some t →
      (∃ o, w.mutex.owner = some o ∧ o ≠ t) ∧ (w.thread t).pc.Waits ∧ t ∈ w.queue) ∧
    (∀ u w', Step w w' → (w.thread u).pc.Waking → ¬ (w'.thread u).pc.Waking → w'.queue ≠ [] →
      ∃ t ∈ w'.queue, (w'.thread t).state ≠ .blocked) ∧
    (w.mutex.owner = none → w.queue ≠ [] → (∀ u, ¬ (w.thread u).pc.Waking) →
      ∃ t ∈ w.queue, (w.thread t).state ≠ .blocked ∨ ∃ again, (w.thread t).pc = .prepared again) ∧
    ∀ t, w.mutex.owner = some t → (w.thread t).pc.Sleeping → (w.thread t).state = .blocked →
      ∃ u, (w.thread u).pc = .wakingHeir t := by
  have hinv : Inv w := h.invariant (fun _ hi => Inv.of_initial hi) (fun _ _ hi hst => hi.step hst)
  refine ⟨fun t u ht hu => ?_, fun t ht => ?_, fun t ht => ?_, fun u w' hst => hinv.wake_ends hst,
    fun ho hne hnone => ?_, hinv.heir⟩
  · exact Option.some.inj ((hinv.own t ht).symm.trans (hinv.own u hu))
  · exact hinv.own t (by rw [ht]; trivial)
  · obtain ⟨ho, hw⟩ := hinv.handoff t ht
    exact ⟨ho, hw, hinv.linked t (.inl hw)⟩
  · rcases hinv.awake ho hne with ha | ⟨u, hu⟩
    · exact ha
    · exact absurd hu (hnone u)

/-- A thread has prepared after the mutex was unlocked. -/
def freeWorld : World Bool where
  mutex := ⟨none, none⟩
  queue := [true]
  queueLock := none
  thread := fun t => if t then ⟨.prepared false, .blocked⟩ else ⟨.idle, .running⟩

theorem freeWorld_reachable : Lib.Reachable Initial Step freeWorld := by
  have h0 : Lib.Reachable Initial Step
      (⟨⟨none, none⟩, [], none, fun _ => ⟨.idle, .running⟩⟩ : World Bool) :=
    .init ⟨rfl, ⟨rfl, rfl⟩, fun _ => rfl⟩
  have h1 := h0.step (.call _ false rfl (by simp))
  have h2 := h1.step (.take _ false _ rfl rfl)
  have h3 := h2.step (.call _ true rfl (by simp))
  have h4 := h3.step (.takeFail _ true _ rfl rfl)
  have h5 := h4.step (.unlock _ false rfl rfl)
  have h6 := h5.step (.wakeOne _ false rfl rfl)
  have h7 := h6.step (.visitEnds _ false rfl)
  have h8 := h7.step (.prepare _ true false rfl rfl)
  have last : ∀ f, f = freeWorld.thread →
      Lib.Reachable Initial Step (⟨⟨none, none⟩, [true], none, f⟩ : World Bool) →
        Lib.Reachable Initial Step freeWorld := by
    rintro f rfl h
    exact h
  exact last _ (funext fun t => by cases t <;> rfl) h8

/-- The queue of a free mutex has somebody with its attempt to make. -/
theorem mutex_run_freeWorld : ∃ t ∈ freeWorld.queue,
    (freeWorld.thread t).state ≠ .blocked ∨ ∃ again, (freeWorld.thread t).pc = .prepared again := by
  obtain ⟨-, -, -, -, hawake, -⟩ := mutex_run freeWorld_reachable
  exact hawake rfl (by simp [freeWorld]) fun u => by cases u <;> exact id

/-- Everybody in the queue of a free mutex may be `BLOCKED`, with no wake on its way. -/
theorem free_and_all_blocked :
    Lib.Reachable Initial Step freeWorld ∧ freeWorld.mutex.owner = none ∧ freeWorld.queue = [true] ∧
      (∀ u, ¬ (freeWorld.thread u).pc.Waking) ∧
        ∀ t ∈ freeWorld.queue, (freeWorld.thread t).state = .blocked := by
  refine ⟨freeWorld_reachable, rfl, rfl, fun u => by cases u <;> exact id, fun t ht => ?_⟩
  rw [List.mem_singleton.mp ht]
  rfl

end World
end CosmoOS.Scheduler.Mutex
