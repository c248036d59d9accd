import CosmoOS.Lib.Transition
import Mathlib.Data.List.Nodup
import Mathlib.Data.List.Perm.Basic
import Mathlib.Logic.Function.Basic

/-!
# Run queues, wakes and migration

`sched.c`: every processor has a run queue and a current thread; `t->cpu` names the queue a thread
belongs to.  A thread is put on its queue by a wake, by the switch that takes it off its processor
and by a migration, each under the queue's lock.  The wait queues of `wait.cee` say who wakes whom.

## The steps

A section under run-queue locks is one step.  Before its section `sched_wake` reads `t->cpu`,
without a lock, to know which queue to lock; this is a step of its own.

* A wake of a wait queue holds that queue's lock over its walk, and reads and wakes the threads of
  the entries one after the other.
* A wake may also be *direct*, with no wait queue's lock: the timer of a poll (`alarm_fired`), a
  signal, a mutex handed on.
* A thread may have entries on any number of wait queues, and more than one on the same.

Where in its queue a thread is put, and which is picked, is up to the policy: here any place and any
thread will do.  A processor without a current thread runs its idle thread, which is never queued.
Priorities, slices, times and the requests to reschedule are left out.

## What is proved

`Sound`: a thread is on a run queue exactly when it is `READY`, once, on the queue `t->cpu` names,
and is current nowhere else.  Every step keeps it but one: the section of `sched_wake` does not look
at `t->cpu` again.  Since the read the thread can have been woken by somebody else, migrated, run,
and been marked `BLOCKED` on another processor; it is then put on the queue of the first one.
`Timely` is that this does not happen.
-/

namespace CosmoOS.Scheduler.RunQueues

open Function

/-! ## The run queues -/

inductive RunState where
  | new
  | ready
  | running
  | blocked
  | exited
deriving DecidableEq, Repr

/-- `struct thread`: its state, the processor it belongs to, and `THREAD_FLAG_PREEMPTED`. -/
structure ThreadState (Cpu : Type) where
  state : RunState
  cpu : Cpu
  preempted : Bool
deriving DecidableEq, Repr

/-- The threads, the run queues and who is current on each processor, `none` for its idle thread. -/
structure Core (Cpu Thread : Type) where
  thread : Thread → ThreadState Cpu
  ready : Cpu → List Thread
  current : Cpu → Option Thread

variable {Cpu Thread : Type} [DecidableEq Cpu] [DecidableEq Thread]

namespace Core

section

variable (m : Core Cpu Thread) (c : Cpu)

def setThread (t : Thread) (k : ThreadState Cpu) : Core Cpu Thread :=
  { m with thread := update m.thread t k }

def setReady (q : List Thread) : Core Cpu Thread :=
  { m with ready := update m.ready c q }

def setCurrent (t : Option Thread) : Core Cpu Thread :=
  { m with current := update m.current c t }

/-- The mark of a thread that is switched out by preemption. -/
def mark (preempt : Bool) (k : ThreadState Cpu) : ThreadState Cpu :=
  if preempt then { k with preempted := true } else k

/-- **`schedule_pass`, the thread that is switched out.**  It is put back on the queue if it was
running, or is preempted before it has stopped; the place is the policy's. -/
inductive PutBack (m : Core Cpu Thread) (c : Cpu) (preempt : Bool) : Core Cpu Thread → Prop
  | idle : m.current c = none → PutBack m c preempt m
  | exited (t : Thread) :
    m.current c = some t → (m.thread t).state = .exited → preempt = false →
    PutBack m c preempt (m.setThread t (mark preempt (m.thread t)))
  | ready (t : Thread) :
    m.current c = some t → (m.thread t).state = .ready →
    PutBack m c preempt (m.setThread t (mark preempt (m.thread t)))
  | queued (t : Thread) (q : List Thread) :
    m.current c = some t →
    (m.thread t).state = .running ∨ (m.thread t).state = .blocked ∧ preempt = true →
    q.Perm (t :: m.ready c) →
    PutBack m c preempt
      ((m.setThread t { mark preempt (m.thread t) with state := .ready }).setReady c q)
  | blocked (t : Thread) :
    m.current c = some t → (m.thread t).state = .blocked → preempt = false →
    PutBack m c preempt (m.setThread t (mark preempt (m.thread t)))

/-- **`schedule_pass`, the thread that is switched to**, or the idle thread. -/
def switchTo : Option Thread → Core Cpu Thread
  | none => m.setCurrent c none
  | some t =>
    let m' := m.setReady c ((m.ready c).erase t)
    if m.current c = some t then
      m'.setThread t { m.thread t with state := .running, preempted := false }
    else
      (m'.setThread t { state := .running, cpu := c, preempted := false }).setCurrent c (some t)

/-- **`sched_wake`, its section** under the lock of the queue of `c`; `q` is that queue with the
thread put in its place. -/
def schedWake (t : Thread) (c : Cpu) (q : List Thread) : Core Cpu Thread :=
  if (m.thread t).state = .blocked then
    (m.setThread t { m.thread t with state := .ready }).setReady c q
  else m

/-- **`migrate_locked`.** -/
def migrateLocked (t : Thread) (src dst : Cpu) (q : List Thread) : Core Cpu Thread :=
  ((m.setReady src ((m.ready src).erase t)).setThread t
    { m.thread t with cpu := dst }).setReady dst q

/-- **`sched_prepare_block_current`.** -/
def prepareBlock (t : Thread) : Core Cpu Thread :=
  if (m.thread t).state ≠ .ready then m.setThread t { m.thread t with state := .blocked } else m

/-- **`sched_set_running_current`**, on processor `c`. -/
def setRunning (t : Thread) (c : Cpu) : Core Cpu Thread :=
  if (m.thread t).state = .ready then
    (m.setReady c ((m.ready c).erase t)).setThread t { m.thread t with state := .running }
  else m.setThread t { m.thread t with state := .running }

end

end Core

/-! ## The system -/

/-- Where a waker is: in the walk of `wakeLocked` through a wait queue, whose lock it holds, or in a
direct wake.  After the read of `t->cpu` it has the thread and the processor. -/
inductive WakerState (Cpu Thread Queue : Type) where
  | idle
  | walking (q : Queue) (all : Bool) (rest : List (Thread × Nat))
  | visiting (q : Queue) (all : Bool) (t : Thread) (c : Cpu) (rest : List (Thread × Nat))
  | direct (t : Thread) (c : Cpu)

/-- The thread a waker is about to wake, with the processor it has read. -/
def WakerState.read {Queue : Type} : WakerState Cpu Thread Queue → Option (Thread × Cpu)
  | .idle => none
  | .walking _ _ _ => none
  | .visiting _ _ t c _ => some (t, c)
  | .direct t c => some (t, c)

/-- The run queues, the entries of the wait queues (a thread and the number of its entry), who holds
the locks of the wait queues, and the wakers. -/
structure System (Cpu Thread Queue Waker : Type) where
  core : Core Cpu Thread
  waiters : Queue → List (Thread × Nat)
  lock : Queue → Option Waker
  waker : Waker → WakerState Cpu Thread Queue

variable {Queue Waker : Type} [DecidableEq Queue] [DecidableEq Waker]

namespace System

def setWaker (w : System Cpu Thread Queue Waker) (k : Waker) (s : WakerState Cpu Thread Queue) :
    System Cpu Thread Queue Waker :=
  { w with waker := update w.waker k s }

/-- `list_push_back`, unless the entry is linked already. -/
def link (entries : List (Thread × Nat)) (e : Thread × Nat) : List (Thread × Nat) :=
  if e ∈ entries then entries else entries ++ [e]

/-- `wakeLocked` after one entry: it stops at the first thread it wakes, unless all are woken. -/
def afterVisit (woke all : Bool) (rest : List (Thread × Nat)) : List (Thread × Nat) :=
  if woke && !all then [] else rest

variable (affinity : Thread → Cpu → Bool)

/-- **One step.** -/
inductive Step : System Cpu Thread Queue Waker → System Cpu Thread Queue Waker → Prop
  /-- `schedule_pass` on processor `c`. -/
  | pass (w : System Cpu Thread Queue Waker) (c : Cpu) (preempt : Bool) (m : Core Cpu Thread)
      (next : Option Thread) :
    Core.PutBack w.core c preempt m →
      (next = none ∧ m.ready c = [] ∨ ∃ t ∈ m.ready c, next = some t) →
    Step w { w with core := m.switchTo c next }
  /-- `sched_migrate`: the queue is the one `t->cpu` names, checked under the locks. -/
  | migrate (w : System Cpu Thread Queue Waker) (t : Thread) (dst : Cpu) (q : List Thread) :
    (w.core.thread t).cpu ≠ dst → (w.core.thread t).state = .ready →
    w.core.current (w.core.thread t).cpu ≠ some t → (w.core.thread t).preempted = false →
    affinity t dst = true → q.Perm (t :: w.core.ready dst) →
    Step w { w with core := w.core.migrateLocked t (w.core.thread t).cpu dst q }
  /-- `sched_migrate_from`: the thread is one `pick_migratable` offers.  That `t->cpu` names the
  queue is asserted. -/
  | migrateFrom (w : System Cpu Thread Queue Waker) (t : Thread) (src dst : Cpu) (q : List Thread) :
    src ≠ dst → t ∈ w.core.ready src → w.core.current src ≠ some t →
    (w.core.thread t).preempted = false → affinity t dst = true →
    (w.core.thread t).state = .ready → (w.core.thread t).cpu = src →
      q.Perm (t :: w.core.ready dst) →
    Step w { w with core := w.core.migrateLocked t src dst q }
  /-- `sched_reprioritize` of a thread that is ready and queued: its place changes. -/
  | reprioritize (w : System Cpu Thread Queue Waker) (t : Thread) (q : List Thread) :
    (w.core.thread t).state = .ready → (∃ c, t ∈ w.core.ready c) →
    q.Perm (t :: (w.core.ready (w.core.thread t).cpu).erase t) →
    Step w { w with core := w.core.setReady (w.core.thread t).cpu q }
  | enqueueNew (w : System Cpu Thread Queue Waker) (t : Thread) (c : Cpu) (q : List Thread) :
    (w.core.thread t).state = .new → affinity t c = true → q.Perm (t :: w.core.ready c) →
    Step w { w with core :=
      (w.core.setThread t { w.core.thread t with state := .ready, cpu := c }).setReady c q }
  /-- `thread_exit`, by the current thread, with interrupts off until the switch. -/
  | exit (w : System Cpu Thread Queue Waker) (t : Thread) (c : Cpu) :
    w.core.current c = some t → (w.core.thread t).state = .running →
    Step w { w with core := w.core.setThread t { w.core.thread t with state := .exited } }
  /-- `waitqueue_prepare`, by the current thread. -/
  | prepare (w : System Cpu Thread Queue Waker) (t : Thread) (c : Cpu) (q : Queue) (i : Nat) :
    w.core.current c = some t → (w.core.thread t).state ≠ .exited → w.lock q = none →
    Step w { w with
      core := w.core.prepareBlock t
      waiters := update w.waiters q (link (w.waiters q) (t, i)) }
  /-- `waitqueue_finish`, its section under the wait queue's lock. -/
  | finish (w : System Cpu Thread Queue Waker) (t : Thread) (c : Cpu) (q : Queue) (i : Nat) :
    w.core.current c = some t → w.lock q = none →
    Step w { w with waiters := update w.waiters q ((w.waiters q).erase (t, i)) }
  /-- `waitqueue_finish`, its call of `sched_set_running_current`. -/
  | setRunning (w : System Cpu Thread Queue Waker) (t : Thread) (c : Cpu) :
    w.core.current c = some t → (w.core.thread t).state ≠ .exited →
    Step w { w with core := w.core.setRunning t c }
  /-- A wake takes the wait queue's lock. -/
  | wakeBegin (w : System Cpu Thread Queue Waker) (k : Waker) (q : Queue) (all : Bool) :
    w.waker k = .idle → w.lock q = none →
    Step w { w.setWaker k (.walking q all (w.waiters q)) with
      lock := update w.lock q (some k) }
  /-- `sched_wake` of the next entry's thread: the read of `t->cpu`. -/
  | wakeRead (w : System Cpu Thread Queue Waker) (k : Waker) (q : Queue) (all : Bool) (t : Thread)
      (i : Nat) (rest : List (Thread × Nat)) :
    w.waker k = .walking q all ((t, i) :: rest) →
    Step w (w.setWaker k (.visiting q all t (w.core.thread t).cpu rest))
  | wakeSection (w : System Cpu Thread Queue Waker) (k : Waker) (q : Queue) (all : Bool)
      (t : Thread)
      (c : Cpu) (rest : List (Thread × Nat)) (l : List Thread) :
    w.waker k = .visiting q all t c rest → l.Perm (t :: w.core.ready c) →
    Step w { w.setWaker k (.walking q all
        (afterVisit (decide ((w.core.thread t).state = .blocked)) all rest)) with
      core := w.core.schedWake t c l }
  | wakeEnd (w : System Cpu Thread Queue Waker) (k : Waker) (q : Queue) (all : Bool) :
    w.waker k = .walking q all [] →
    Step w { w.setWaker k .idle with lock := update w.lock q none }
  /-- A direct `sched_wake`: the read of `t->cpu`, of a thread that has been put on a queue. -/
  | directRead (w : System Cpu Thread Queue Waker) (k : Waker) (t : Thread) :
    w.waker k = .idle → (w.core.thread t).state ≠ .new →
    Step w (w.setWaker k (.direct t (w.core.thread t).cpu))
  | directSection (w : System Cpu Thread Queue Waker) (k : Waker) (t : Thread) (c : Cpu)
      (l : List Thread) :
    w.waker k = .direct t c → l.Perm (t :: w.core.ready c) →
    Step w { w.setWaker k .idle with core := w.core.schedWake t c l }

/-- Before the first thread: nobody is queued, nobody waits and nobody wakes. -/
structure Initial (w : System Cpu Thread Queue Waker) : Prop where
  thread : ∀ t, (w.core.thread t).state = .new
  core : ∀ c, w.core.ready c = [] ∧ w.core.current c = none
  queues : ∀ q, w.waiters q = [] ∧ w.lock q = none
  waker : ∀ k, w.waker k = .idle

/-- **A wake in time**: when `sched_wake` is in its section, a thread that is `BLOCKED` still
belongs to the processor that was read. -/
def Timely (w w' : System Cpu Thread Queue Waker) : Prop :=
  ∀ k t c, (w.waker k).read = some (t, c) → (w'.waker k).read = none →
    (w.core.thread t).state = .blocked → (w.core.thread t).cpu = c

end System

/-! ## What the locks are for -/

namespace Core

/-- **The run queues are sound.** -/
structure Sound (m : Core Cpu Thread) : Prop where
  mem_iff : ∀ c t, t ∈ m.ready c ↔ (m.thread t).state = .ready ∧ (m.thread t).cpu = c
  nodup : ∀ c, (m.ready c).Nodup
  current : ∀ c t, m.current c = some t → (m.thread t).cpu = c ∧ (m.thread t).state ≠ .new

variable {m : Core Cpu Thread} {t : Thread} {c : Cpu} {k : ThreadState Cpu} {q : List Thread}

omit [DecidableEq Cpu] in
/-- **One thread changes**, and the others are where they were: it is enough to look at that one. -/
theorem Sound.of_others {m' : Core Cpu Thread} (h : Sound m) (hcur : m'.current = m.current)
    (hthread : ∀ u, u ≠ t → m'.thread u = m.thread u)
    (hready : ∀ d u, u ≠ t → (u ∈ m'.ready d ↔ u ∈ m.ready d)) (hnodup : ∀ d, (m'.ready d).Nodup)
    (hmem : ∀ d, t ∈ m'.ready d ↔ (m'.thread t).state = .ready ∧ (m'.thread t).cpu = d)
    (hself : ∀ d, m.current d = some t → (m'.thread t).cpu = d ∧ (m'.thread t).state ≠ .new) :
    Sound m' := by
  refine ⟨fun d u => ?_, hnodup, fun d u hd => ?_⟩
  · by_cases hu : u = t
    · rw [hu]
      exact hmem d
    · rw [hthread u hu, hready d u hu]
      exact h.mem_iff d u
  · rw [hcur] at hd
    by_cases hu : u = t
    · rw [hu] at hd ⊢
      exact hself d hd
    · rw [hthread u hu]
      exact h.current d u hd

omit [DecidableEq Cpu] in
theorem Sound.relabel (h : Sound m) (hs : k.state = (m.thread t).state)
    (hc : k.cpu = (m.thread t).cpu) : Sound (m.setThread t k) := by
  refine h.of_others (t := t) rfl (fun u hu => update_of_ne hu _ _) (fun _ _ _ => .rfl) h.nodup
    (fun d => ?_) fun d hd => ?_
  · simp only [setThread, update_self, hs, hc]
    exact h.mem_iff d t
  · simp only [setThread, update_self, hs, hc]
    exact h.current d t hd

omit [DecidableEq Cpu] in
/-- A thread that is not queued changes, and is not queued. -/
theorem Sound.change (h : Sound m) (hold : (m.thread t).state ≠ .ready) (hs : k.state ≠ .ready)
    (hn : k.state ≠ .new) (hc : k.cpu = (m.thread t).cpu) : Sound (m.setThread t k) := by
  refine h.of_others (t := t) rfl (fun u hu => update_of_ne hu _ _) (fun _ _ _ => .rfl) h.nodup
    (fun d => ?_) fun d hd => ?_
  · simp only [setThread, update_self, h.mem_iff, hs, hold, false_and]
  · simp only [setThread, update_self, hc]
    exact ⟨(h.current d t hd).1, hn⟩

/-- **A thread is put on a queue**, the one it belongs to from now on. -/
theorem Sound.enqueue (h : Sound m) (hold : (m.thread t).state ≠ .ready)
    (hq : q.Perm (t :: m.ready c)) (hs : k.state = .ready) (hc : k.cpu = c)
    (hcur : ∀ d, m.current d = some t → d = c) : Sound ((m.setThread t k).setReady c q) := by
  have hnot : ∀ d, t ∉ m.ready d := fun d hd => hold ((h.mem_iff d t).mp hd).1
  refine h.of_others (t := t) rfl (fun u hu => update_of_ne hu _ _) ?_ ?_ ?_ fun d hd => ?_
  all_goals simp only [setThread, setReady, update_self, hs, hc]
  · refine (forall_update_iff _ fun d l => ∀ u, u ≠ t → (u ∈ l ↔ u ∈ m.ready d)).mpr
      ⟨fun u hu => ?_, fun d _ u _ => .rfl⟩
    rw [hq.mem_iff, List.mem_cons, or_iff_right hu]
  · refine (forall_update_iff _ fun _ => List.Nodup).mpr ⟨hq.nodup_iff.mpr ?_, fun d _ => h.nodup d⟩
    exact List.nodup_cons.mpr ⟨hnot c, h.nodup c⟩
  · refine (forall_update_iff _ fun d l => t ∈ l ↔ _ ∧ c = d).mpr ⟨?_, fun d hd => ?_⟩
    · simp [hq.mem_iff]
    · simp [hnot d, Ne.symm hd]
  · exact ⟨(hcur d hd).symm, by decide⟩

/-- **A thread is taken off its queue.** -/
theorem Sound.dequeue (h : Sound m) (hmem : t ∈ m.ready c) (hs : k.state ≠ .ready)
    (hn : k.state ≠ .new) (hc : k.cpu = c) :
    Sound ((m.setReady c ((m.ready c).erase t)).setThread t k) := by
  have hcpu := ((h.mem_iff c t).mp hmem).2
  refine h.of_others (t := t) rfl (fun u hu => update_of_ne hu _ _) ?_ ?_ ?_ fun d hd => ?_
  all_goals simp only [setThread, setReady, update_self, hs, hc, false_and, iff_false]
  · exact (forall_update_iff _ fun d l => ∀ u, u ≠ t → (u ∈ l ↔ u ∈ m.ready d)).mpr
      ⟨fun u hu => List.mem_erase_of_ne hu, fun d _ u _ => .rfl⟩
  · exact (forall_update_iff _ fun _ => List.Nodup).mpr ⟨(h.nodup c).erase t, fun d _ => h.nodup d⟩
  · exact (forall_update_iff _ fun _ l => t ∉ l).mpr ⟨(h.nodup c).not_mem_erase,
      fun d hd ht => hd (((h.mem_iff d t).mp ht).2.symm.trans hcpu)⟩
  · exact ⟨hcpu.symm.trans (h.current d t hd).1, hn⟩

omit [DecidableEq Thread] in
theorem Sound.permute (h : Sound m) (hq : q.Perm (m.ready c)) : Sound (m.setReady c q) := by
  refine { h with mem_iff := ?_, nodup := ?_ }
  · exact (forall_update_iff m.ready fun d l => ∀ u, u ∈ l ↔
      (m.thread u).state = .ready ∧ (m.thread u).cpu = d).mpr
      ⟨fun u => hq.mem_iff.trans (h.mem_iff c u), fun d _ => h.mem_iff d⟩
  · exact (forall_update_iff _ fun _ => List.Nodup).mpr
      ⟨hq.nodup_iff.mpr (h.nodup c), fun d _ => h.nodup d⟩

omit [DecidableEq Thread] in
/-- A processor switches to a thread that belongs to it, or to its idle thread. -/
theorem Sound.setCurrent (h : Sound m) {s : Option Thread}
    (hs : ∀ t, s = some t → (m.thread t).cpu = c ∧ (m.thread t).state ≠ .new) :
    Sound (m.setCurrent c s) := by
  refine { h with current := ?_ }
  exact (forall_update_iff m.current fun d x => ∀ u, x = some u →
    (m.thread u).cpu = d ∧ (m.thread u).state ≠ .new).mpr
    ⟨hs, fun d _ => h.current d⟩

/-! ## The sections keep it -/

omit [DecidableEq Cpu] in
theorem mark_state (preempt : Bool) (k : ThreadState Cpu) :
    (mark preempt k).state = k.state ∧ (mark preempt k).cpu = k.cpu := by
  cases preempt <;> exact ⟨rfl, rfl⟩

theorem Sound.putBack {preempt : Bool} {m' : Core Cpu Thread} (h : Sound m)
    (hp : PutBack m c preempt m') : Sound m' ∧ m'.current = m.current := by
  have hmark := fun t => mark_state preempt (m.thread t)
  cases hp with
  | idle _ => exact ⟨h, rfl⟩
  | exited t _ _ _ | ready t _ _ | blocked t _ _ _ => exact ⟨h.relabel (hmark t).1 (hmark t).2, rfl⟩
  | queued t q hcur hs hq =>
    have hc := (h.current c t hcur).1
    refine ⟨h.enqueue ?_ hq rfl ((hmark t).2.trans hc) fun d hd => ?_, rfl⟩
    · rcases hs with hs | ⟨hs, -⟩ <;> rw [hs] <;> decide
    · exact (h.current d t hd).1.symm.trans hc

theorem Sound.switchTo {next : Option Thread} (h : Sound m)
    (hn : ∀ t, next = some t → t ∈ m.ready c) : Sound (m.switchTo c next) := by
  cases next with
  | none => exact h.setCurrent fun t ht => by cases ht
  | some t =>
    have hmem := hn t rfl
    have hcpu := ((h.mem_iff c t).mp hmem).2
    rw [Core.switchTo]
    split_ifs
    · exact h.dequeue hmem (by simp) (by simp) hcpu
    · refine (h.dequeue hmem (by simp) (by simp) rfl).setCurrent fun u hu => ?_
      obtain rfl : t = u := Option.some.inj hu
      simp [setThread]

/-- **A wake in time.** -/
theorem Sound.schedWake (h : Sound m) (hq : q.Perm (t :: m.ready c))
    (htimely : (m.thread t).state = .blocked → (m.thread t).cpu = c) :
    Sound (m.schedWake t c q) := by
  rw [Core.schedWake]
  split_ifs with hb
  · have hc := htimely hb
    refine h.enqueue (by rw [hb]; decide) hq rfl hc fun d hd => ?_
    exact (h.current d t hd).1.symm.trans hc
  · exact h

/-- A migration is a removal from the one queue and an insertion into the other. -/
theorem Sound.migrateLocked {src dst : Cpu} (h : Sound m) (hmem : t ∈ m.ready src)
    (hne : src ≠ dst) (hcur : m.current src ≠ some t) (hq : q.Perm (t :: m.ready dst)) :
    Sound (m.migrateLocked t src dst q) := by
  obtain ⟨hready, hcpu⟩ := (h.mem_iff src t).mp hmem
  have hdq := h.dequeue (k := { m.thread t with state := .blocked }) hmem (by simp) (by simp) hcpu
  have henq := hdq.enqueue (t := t) (c := dst) (q := q) (k := { m.thread t with cpu := dst })
    ?_ ?_ hready rfl fun d hd => ?_
  · have heq : (((m.setReady src ((m.ready src).erase t)).setThread t
        { m.thread t with state := .blocked }).setThread t { m.thread t with cpu := dst }).setReady
          dst q = m.migrateLocked t src dst q := by
      simp only [Core.migrateLocked, setThread, setReady, update_idem]
    exact heq ▸ henq
  · simp [setThread]
  · simp only [setThread, setReady, update_of_ne hne.symm]
    exact hq
  · exact absurd ((h.current d t hd).1.symm.trans hcpu ▸ hd) hcur

omit [DecidableEq Cpu] in
theorem Sound.prepareBlock (h : Sound m) : Sound (m.prepareBlock t) := by
  rw [Core.prepareBlock]
  split_ifs with hs
  · exact h.change hs (by simp) (by simp) rfl
  · exact h

theorem Sound.setRunning (h : Sound m) (hcur : m.current c = some t) :
    Sound (m.setRunning t c) := by
  have hc := (h.current c t hcur).1
  rw [Core.setRunning]
  split_ifs with hs
  · exact h.dequeue ((h.mem_iff c t).mpr ⟨hs, hc⟩) (by simp) (by simp) hc
  · exact h.change hs (by simp) (by simp) rfl

end Core

namespace System

variable {w w' : System Cpu Thread Queue Waker} {affinity : Thread → Cpu → Bool}

omit [DecidableEq Cpu] [DecidableEq Thread] [DecidableEq Queue] [DecidableEq Waker] in
theorem sound_of_initial (h : Initial w) : w.core.Sound := by
  refine ⟨fun c t => ?_, fun c => ?_, fun c t ht => ?_⟩
  · simp [(h.core c).1, h.thread t]
  · rw [(h.core c).1]
    exact List.nodup_nil
  · rw [(h.core c).2] at ht
    cases ht

/-- **Every step keeps the run queues sound**, if the wake it makes is in time. -/
theorem sound_step (h : w.core.Sound) (hstep : Step affinity w w') (htimely : Timely w w') :
    w'.core.Sound := by
  cases hstep with
  | pass c preempt m next hput hnext =>
    refine (h.putBack hput).1.switchTo fun t ht => ?_
    rcases hnext with ⟨hn, -⟩ | ⟨u, hu, hn⟩
    · rw [hn] at ht
      cases ht
    · rw [hn] at ht
      exact Option.some.inj ht ▸ hu
  | migrate t dst q hne hs hcur _ _ hq =>
    exact h.migrateLocked ((h.mem_iff _ t).mpr ⟨hs, rfl⟩) hne hcur hq
  | migrateFrom t src dst q hne hmem hcur _ _ _ _ hq => exact h.migrateLocked hmem hne hcur hq
  | reprioritize t q hs _ hq =>
    exact h.permute (hq.trans (List.perm_cons_erase ((h.mem_iff _ t).mpr ⟨hs, rfl⟩)).symm)
  | enqueueNew t c q hs _ hq =>
    refine h.enqueue (by rw [hs]; decide) hq rfl rfl fun d hd => ?_
    exact absurd hs (h.current d t hd).2
  | exit t c hcur hs => exact h.change (by rw [hs]; decide) (by simp) (by simp) rfl
  | prepare t c q i hcur _ _ => exact h.prepareBlock
  | finish t c q i _ _ | wakeBegin k q all _ _ | wakeRead k q all t i rest _ | wakeEnd k q all _
  | directRead k t _ _ => exact h
  | setRunning t c hcur _ => exact h.setRunning hcur
  | wakeSection k q all t c rest l hk hq | directSection k t c l hk hq =>
    refine h.schedWake hq (htimely k t c (by rw [hk]; rfl) ?_)
    simp only [setWaker, update_self]
    rfl

/-! ## The run -/

/-- **The run queues, over every run whose wakes are in time.**  A thread is on at most one run
queue, once, and this is the queue `t->cpu` names; a thread on a run queue is `READY`; and a thread
that is current on a processor is neither queued nor current on another. -/
theorem run_queues_run
    (h : Lib.Reachable Initial (fun w w' : System Cpu Thread Queue Waker =>
      Step affinity w w' ∧ Timely w w') w) :
    (∀ t c d, t ∈ w.core.ready c → t ∈ w.core.ready d → c = d) ∧
    (∀ c, (w.core.ready c).Nodup) ∧
    (∀ t c, t ∈ w.core.ready c → (w.core.thread t).cpu = c ∧ (w.core.thread t).state = .ready) ∧
    ∀ t c, w.core.current c = some t →
      ∀ d, (t ∈ w.core.ready d ∨ w.core.current d = some t) → d = c := by
  have hsound : w.core.Sound := h.invariant (P := fun w => w.core.Sound)
    (fun _ hi => sound_of_initial hi) (fun _ _ hs hst => sound_step hs hst.1 hst.2)
  have hcpu : ∀ t c, t ∈ w.core.ready c ∨ w.core.current c = some t → (w.core.thread t).cpu = c :=
    fun t c h => h.elim (fun h => ((hsound.mem_iff c t).mp h).2) fun h => (hsound.current c t h).1
  refine ⟨fun t c d hc hd => ?_, hsound.nodup, fun t c hc => ((hsound.mem_iff c t).mp hc).symm,
    fun t c hc d hd => ?_⟩
  · exact (hcpu t c (.inl hc)).symm.trans (hcpu t d (.inl hd))
  · exact (hcpu t d hd).symm.trans (hcpu t c (.inr hc))

/-- One thread and one wait queue on two processors, with two wakers. -/
def pollSystem : System Bool Unit Unit Bool where
  core := ⟨fun _ => ⟨.new, false, false⟩, fun _ => [], fun _ => none⟩
  waiters := fun _ => []
  lock := fun _ => none
  waker := fun _ => .idle

/-- The thread is woken and runs again: a run whose wake is in time. -/
theorem pollSystem_woken :
    ∃ w, Lib.Reachable Initial (fun w w' : System Bool Unit Unit Bool =>
        Step (fun _ _ => true) w w' ∧ Timely w w') w ∧
      () ∈ w.core.ready false := by
  have h0 : Lib.Reachable Initial (fun w w' : System Bool Unit Unit Bool =>
      Step (fun _ _ => true) w w' ∧ Timely w w') pollSystem :=
    .init ⟨fun _ => rfl, fun _ => ⟨rfl, rfl⟩, fun _ => ⟨rfl, rfl⟩, fun _ => rfl⟩
  have h1 := h0.step ⟨.enqueueNew _ () false [()] rfl rfl (.refl _), fun k t c hk => by cases hk⟩
  have h2 := h1.step ⟨.pass _ false false _ (some ()) (.idle rfl)
    (.inr ⟨(), List.mem_singleton.mpr rfl, rfl⟩), fun k t c hk => by cases hk⟩
  have h3 := h2.step ⟨.prepare _ () false () 0 rfl (by decide) rfl, fun k t c hk => by cases hk⟩
  have h4 := h3.step ⟨.pass _ false false _ none (.blocked () rfl rfl rfl) (.inl ⟨rfl, rfl⟩),
    fun k t c hk => by cases hk⟩
  have h5 := h4.step ⟨.directRead _ false () rfl (by decide), fun k t c hk => by cases hk⟩
  have h6 := h5.step ⟨.directSection _ false () false [()] rfl (.refl _), fun k t c hk _ _ => ?_⟩
  · exact ⟨_, h6, List.mem_singleton.mpr rfl⟩
  · cases k <;> cases hk
    rfl

/-- The thread that was woken is on the queue `t->cpu` names. -/
theorem run_queues_run_pollSystem : ∃ w : System Bool Unit Unit Bool,
    () ∈ w.core.ready false ∧ (w.core.thread ()).cpu = false ∧
      (w.core.thread ()).state = .ready := by
  obtain ⟨w, hrun, hmem⟩ := pollSystem_woken
  exact ⟨w, hmem, (run_queues_run hrun).2.2.1 () false hmem⟩

/-- **A wake that is late.**  The timer of a poll reads the processor of the sleeping thread; an
event wakes the thread, which is migrated, runs, and prepares for another sleep; then the timer's
wake puts it on the run queue of the processor it was on before, while it is current on the other.
-/
theorem wakes_on_stale_cpu : ∃ w : System Bool Unit Unit Bool,
    Lib.Reachable Initial (Step fun _ _ => true) w ∧ () ∈ w.core.ready false ∧
      (w.core.thread ()).cpu = true ∧ w.core.current true = some () := by
  have h0 : Lib.Reachable Initial (Step fun _ _ => true) pollSystem :=
    .init ⟨fun _ => rfl, fun _ => ⟨rfl, rfl⟩, fun _ => ⟨rfl, rfl⟩, fun _ => rfl⟩
  have h1 := h0.step (.enqueueNew _ () false [()] rfl rfl (.refl _))
  have h2 := h1.step (.pass _ false false _ (some ()) (.idle rfl)
    (.inr ⟨(), List.mem_singleton.mpr rfl, rfl⟩))
  have h3 := h2.step (.prepare _ () false () 0 rfl (by decide) rfl)
  have h4 := h3.step (.pass _ false false _ none (.blocked () rfl rfl rfl) (.inl ⟨rfl, rfl⟩))
  -- the timer has read processor 0
  have h5 := h4.step (.directRead _ false () rfl (by decide))
  -- the event
  have h6 := h5.step (.wakeBegin _ true () false rfl rfl)
  have h7 := h6.step (.wakeRead _ true () false () 0 [] rfl)
  have h8 := h7.step (.wakeSection _ true () false () false [] [()] rfl (.refl _))
  have h9 := h8.step (.wakeEnd _ true () false rfl)
  have h10 := h9.step (.migrate _ () true [()] (by decide) rfl (by decide) rfl rfl (.refl _))
  have h11 := h10.step (.pass _ true false _ (some ()) (.idle rfl)
    (.inr ⟨(), List.mem_singleton.mpr rfl, rfl⟩))
  have h12 := h11.step (.finish _ () true () 0 rfl rfl)
  have h13 := h12.step (.setRunning _ () true rfl (by decide))
  have h14 := h13.step (.prepare _ () true () 0 rfl (by decide) rfl)
  -- the timer's section
  have h15 := h14.step (.directSection _ false () false [()] rfl (.refl _))
  exact ⟨_, h15, List.mem_singleton.mpr rfl, rfl, rfl⟩

end System
end CosmoOS.Scheduler.RunQueues
