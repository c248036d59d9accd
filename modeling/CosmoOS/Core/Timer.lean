import CosmoOS.Lib.Transition
import Mathlib.Algebra.Group.Nat.Defs
import Mathlib.Data.List.Basic
import Mathlib.Logic.Function.Basic

/-!
# Timers

`timer.c`'s queues, one a CPU, each sorted by expiry under its own lock.  A tick takes what has
expired off its CPU's queue and runs the callbacks with the lock dropped; the queue's `running` says
which.  A timer names the CPU it was last started on.

`timer_cancel_sync` looks at the queue of that CPU only: takes the timer off and waits while the
queue runs it.  It is enough where the timer runs and is pending on no other CPU, which a start on
another CPU changes if a callback still runs, or a cancel waits.  `Act.Clear` is that no cancel is
called, or is under way, when that is so.
-/

namespace CosmoOS.TimerQueues

open Function

structure Timer where
  expires : ℕ := 0
  cpu : ℕ := 0
  pending : Bool := false

structure Queue where
  pending : List ℕ := []
  running : Option ℕ := none

/-- The queues of the CPUs, and the timers by number. -/
structure Timers where
  queue : ℕ → Queue := fun _ => {}
  timer : ℕ → Timer := fun _ => {}

/-! ## The sections -/

/-- Sorted insert, ascending expiry; ties keep their order. -/
def insert (expires : ℕ → ℕ) (t : ℕ) : List ℕ → List ℕ
  | [] => [t]
  | x :: l => if expires t < expires x then t :: x :: l else x :: insert expires t l

section

variable (T : Timers)

def Timers.setQueue (c : ℕ) (q : Queue) : Timers :=
  { T with queue := update T.queue c q }

/-- `timer_start` on CPU `c`; a timer that is pending is a bug and stops the machine. -/
def timerStart (c t now delay : ℕ) : Option Timers :=
  if (T.timer t).pending then none
  else
    let expires := min (now + max delay 1) (2 ^ 64 - 1)
    let timer := update T.timer t { expires, cpu := c, pending := true }
    let q := T.queue c
    some { Timers.setQueue T c { q with pending := insert (fun x => (timer x).expires) t q.pending }
      with timer }

/-- `list_remove`, and the timer is idle. -/
def Timers.unlink (t : ℕ) : Timers where
  queue c := { T.queue c with pending := (T.queue c).pending.filter (· ≠ t) }
  timer := update T.timer t { T.timer t with pending := false }

def cancelLocked (t : ℕ) : Timers :=
  if (T.timer t).pending then T.unlink t else T

/-- `run_expired` on CPU `c` takes its first timer, if it has expired, to run its callback. -/
def runExpired (c now : ℕ) : Option (Timers × ℕ) :=
  match (T.queue c).pending, (T.queue c).running with
  | t :: _, none =>
    if (T.timer t).expires ≤ now then
      let T := T.unlink t
      some (T.setQueue c { T.queue c with running := some t }, t)
    else none
  | _, _ => none

def callbackDone (c : ℕ) : Timers := T.setQueue c { T.queue c with running := none }

end

/-! ## Runs -/

/-- The calls of `timer_cancel_sync` under way, each with its timer and the queue it looks at; and
the timers of which one has returned and that nothing has started since. -/
structure Sys extends Timers where
  syncs : ℕ → Option (ℕ × ℕ) := fun _ => none
  quiet : ℕ → Bool := fun _ => false

inductive Act
  | start (c t now delay : ℕ)
  | expire (c now : ℕ)
  | done (c : ℕ)
  | cancel (t : ℕ)
  | sync (i t : ℕ)
  /-- One pass of the loop of `timer_cancel_sync`. -/
  | pass (i : ℕ)

def Sys.act (s : Sys) : Act → Option Sys
  | .start c t now delay => (timerStart s.toTimers c t now delay).map fun T =>
    { s with toTimers := T, quiet := update s.quiet t false }
  | .expire c now => (runExpired s.toTimers c now).map fun x => { s with toTimers := x.1 }
  | .done c => some { s with toTimers := callbackDone s.toTimers c }
  | .cancel t => some { s with toTimers := cancelLocked s.toTimers t }
  | .sync i t =>
    if (s.syncs i).isSome then none
    else some { s with syncs := update s.syncs i (some (t, (s.timer t).cpu)) }
  | .pass i => (s.syncs i).map fun (t, c) =>
    let s := { s with toTimers := cancelLocked s.toTimers t }
    if (s.queue c).running = some t then s
    else { s with syncs := update s.syncs i none, quiet := update s.quiet t true }

def Initial (s : Sys) : Prop := s = {}

/-- No start moves a timer to another CPU while a `timer_cancel_sync` of it is under way, and none
is called while the callback runs on a CPU the timer no longer names. -/
def Act.Clear (s : Sys) : Act → Prop
  | .start c t _ _ => c = (s.timer t).cpu ∨ ∀ i d, s.syncs i ≠ some (t, d)
  | .sync _ t => ∀ d, (s.queue d).running = some t → d = (s.timer t).cpu
  | _ => True

/-- The steps whose acts `C` admits. -/
def Step (C : Sys → Act → Prop) (s s' : Sys) : Prop := ∃ a, C s a ∧ s.act a = some s'

/-! ## Where a timer is -/

/-- A timer on a queue is pending, and names the queue's CPU. -/
def Listed (T : Timers) : Prop :=
  ∀ u d, u ∈ (T.queue d).pending → (T.timer u).pending = true ∧ d = (T.timer u).cpu

/-- On no queue, and run by no CPU. -/
def Timers.Quiet (T : Timers) (t : ℕ) : Prop :=
  ∀ c, t ∉ (T.queue c).pending ∧ (T.queue c).running ≠ some t

/-- What a section that starts no timer does: timers leave the queues, and a CPU runs only what was
on its queue. -/
structure Drops (T T' : Timers) : Prop where
  cpu : ∀ u, (T'.timer u).cpu = (T.timer u).cpu
  mem : ∀ u d, u ∈ (T'.queue d).pending →
    u ∈ (T.queue d).pending ∧ (T'.timer u).pending = (T.timer u).pending
  running : ∀ u d, (T'.queue d).running = some u →
    (T.queue d).running = some u ∨ u ∈ (T.queue d).pending

variable {T T' : Timers} {c t u now delay : ℕ}

theorem Listed.drops (h : Listed T) (hT' : Drops T T') : Listed T' := by
  intro u d hd
  obtain ⟨hmem, hp⟩ := hT'.mem u d hd
  rw [hp, hT'.cpu]
  exact h u d hmem

theorem Timers.Quiet.drops (h : T.Quiet u) (hT' : Drops T T') : T'.Quiet u := fun d =>
  ⟨fun hd => (h d).1 (hT'.mem u d hd).1, fun hd => (hT'.running u d hd).elim (h d).2 (h d).1⟩

theorem queue_setRunning (T : Timers) (c d : ℕ) (r : Option ℕ) :
    (T.setQueue c { T.queue c with running := r }).queue d =
      { T.queue d with running := if d = c then r else (T.queue d).running } := by
  rcases eq_or_ne d c with rfl | hne
  · simp [Timers.setQueue]
  · simp [Timers.setQueue, hne]

theorem mem_unlink {d : ℕ} :
    u ∈ ((T.unlink t).queue d).pending ↔ u ∈ (T.queue d).pending ∧ u ≠ t := by
  simp [Timers.unlink]

theorem Drops.unlink (T : Timers) (t : ℕ) : Drops T (T.unlink t) := by
  refine ⟨fun u => ?_, fun u d hd => ?_, fun u d => .inl⟩
  · rcases eq_or_ne u t with rfl | hu
    · simp [Timers.unlink]
    · simp [Timers.unlink, hu]
  · obtain ⟨hd, hu⟩ := mem_unlink.mp hd
    exact ⟨hd, by simp [Timers.unlink, hu]⟩

theorem Drops.cancel (T : Timers) (t : ℕ) : Drops T (cancelLocked T t) := by
  rw [cancelLocked]
  split
  · exact .unlink T t
  · exact ⟨fun _ => rfl, fun _ _ hd => ⟨hd, rfl⟩, fun _ _ => .inl⟩

theorem Listed.not_mem_cancel (h : Listed T) (t d : ℕ) :
    t ∉ ((cancelLocked T t).queue d).pending := by
  rw [cancelLocked]
  split
  · exact fun hd => (mem_unlink.mp hd).2 rfl
  · next hp => exact fun hd => hp (h t d hd).1

theorem runExpired_spec (h : runExpired T c now = some (T', t)) :
    t ∈ (T.queue c).pending ∧ (T.queue c).running = none ∧ Drops T T' ∧
      ∀ d, (T'.queue d).running = if d = c then some t else (T.queue d).running := by
  rw [runExpired] at h
  split at h
  · next x rest hq hrun =>
    split at h <;> cases h
    have hmem : t ∈ (T.queue c).pending := by
      rw [hq]
      exact List.mem_cons_self
    have hdrops := Drops.unlink T t
    refine ⟨hmem, hrun, ⟨hdrops.cpu, fun u d hd => hdrops.mem u d ?_, fun u d hd => ?_⟩,
      fun d => by rw [queue_setRunning]; rfl⟩
    · rwa [queue_setRunning] at hd
    · rw [queue_setRunning] at hd
      dsimp only at hd
      split at hd
      · next hdc =>
        cases hd
        exact .inr (hdc ▸ hmem)
      · exact .inl hd
  · cases h

theorem Drops.done (T : Timers) (c : ℕ) : Drops T (callbackDone T c) := by
  refine ⟨fun _ => rfl, fun u d hd => ?_, fun u d hd => ?_⟩ <;>
    rw [callbackDone, queue_setRunning] at hd
  · exact ⟨hd, rfl⟩
  · dsimp only at hd
    split at hd
    · cases hd
    · exact .inl hd

theorem mem_insert {expires : ℕ → ℕ} {l : List ℕ} : u ∈ insert expires t l ↔ u = t ∨ u ∈ l := by
  induction l with
  | nil => simp [insert]
  | cons x l ih =>
    rw [insert]
    split
    · simp
    · rw [List.mem_cons, ih, List.mem_cons]
      exact or_left_comm

theorem timerStart_spec (h : timerStart T c t now delay = some T') :
    (T.timer t).pending = false ∧ ((T'.timer t).cpu = c ∧ (T'.timer t).pending = true) ∧
    (∀ u ≠ t, T'.timer u = T.timer u) ∧
    ∀ d, (∀ u, u ∈ (T'.queue d).pending → d = c ∧ u = t ∨ u ∈ (T.queue d).pending) ∧
      (T'.queue d).running = (T.queue d).running := by
  rw [timerStart] at h
  split at h <;> cases h
  next hp =>
  refine ⟨by simpa using hp, by simp, fun u hu => by simp [hu], fun d => ?_⟩
  rcases eq_or_ne d c with rfl | hne
  · simp [Timers.setQueue, mem_insert]
  · simp [Timers.setQueue, hne]

theorem Listed.start (h : Listed T) (hT' : timerStart T c t now delay = some T') : Listed T' := by
  obtain ⟨hp, hself, hothers, hqueue⟩ := timerStart_spec hT'
  intro u d hd
  rcases (hqueue d).1 u hd with ⟨rfl, rfl⟩ | hd
  · exact ⟨hself.2, hself.1.symm⟩
  · have hu : u ≠ t := by
      rintro rfl
      cases hp.symm.trans (h u d hd).1
    rw [hothers u hu]
    exact h u d hd

/-- A start is not noticed by the other timers. -/
theorem Timers.Quiet.start (h : T.Quiet u) (hT' : timerStart T c t now delay = some T')
    (hu : u ≠ t) : T'.Quiet u := by
  obtain ⟨-, -, -, hqueue⟩ := timerStart_spec hT'
  refine fun d => ⟨fun hd => ?_, by rw [(hqueue d).2]; exact (h d).2⟩
  rcases (hqueue d).1 u hd with ⟨-, hut⟩ | hd
  · exact hu hut
  · exact (h d).1 hd

/-- A cancel under way looks at the CPU the timer names, and no other runs it; and a timer that was
cancelled is quiet until it is started. -/
structure Inv (s : Sys) : Prop where
  listed : Listed s.toTimers
  syncs : ∀ i u d, s.syncs i = some (u, d) →
    d = (s.timer u).cpu ∧ ∀ e, (s.queue e).running = some u → e = (s.timer u).cpu
  quiet : ∀ u, s.quiet u = true → s.Quiet u

variable {s s' : Sys}

theorem Inv.start (h : Inv s) (hclear : (Act.start c t now delay).Clear s)
    (ha : s.act (.start c t now delay) = some s') : Inv s' := by
  obtain ⟨T', hT', rfl⟩ := Option.map_eq_some_iff.mp ha
  obtain ⟨-, ⟨hcpu, -⟩, hothers, hqueue⟩ := timerStart_spec hT'
  refine ⟨h.listed.start hT', fun i u d hi => ?_, fun u hu => ?_⟩
  · have hsame : (T'.timer u).cpu = (s.timer u).cpu := by
      rcases eq_or_ne u t with rfl | hu
      · rcases hclear with rfl | hnone
        · exact hcpu
        · exact absurd hi (hnone i d)
      · rw [hothers u hu]
    obtain ⟨hd, hrun⟩ := h.syncs i u d hi
    exact ⟨hd.trans hsame.symm, fun e he => (hrun e ((hqueue e).2 ▸ he)).trans hsame.symm⟩
  · rcases eq_or_ne u t with rfl | hne
    · simp at hu
    · exact (h.quiet u (by simpa [hne] using hu)).start hT' hne

theorem Inv.drops (h : Inv s) (hT' : Drops s.toTimers T') : Inv { s with toTimers := T' } := by
  refine ⟨h.listed.drops hT', fun i u d hi => ?_, fun u hu => (h.quiet u hu).drops hT'⟩
  obtain ⟨hd, hrun⟩ := h.syncs i u d hi
  refine ⟨hd.trans (hT'.cpu u).symm, fun e he => ?_⟩
  rw [hT'.cpu]
  rcases hT'.running u e he with he | he
  · exact hrun e he
  · exact (h.listed u e he).2

theorem Inv.step (h : Inv s) (hstep : Step (fun s a => a.Clear s) s s') : Inv s' := by
  obtain ⟨a, hclear, ha⟩ := hstep
  cases a with
  | start c t now delay => exact h.start hclear ha
  | expire c now =>
    obtain ⟨⟨T', t⟩, hT', rfl⟩ := Option.map_eq_some_iff.mp ha
    exact h.drops (runExpired_spec hT').2.2.1
  | done c =>
    cases ha
    exact h.drops (.done _ c)
  | cancel t =>
    cases ha
    exact h.drops (.cancel _ t)
  | sync i t =>
    simp only [Sys.act] at ha
    split at ha <;> cases ha
    refine { h with syncs := ?_ }
    refine (forall_update_iff s.syncs fun _ o => ∀ u c, o = some (u, c) → c = (s.timer u).cpu ∧
      ∀ e, (s.queue e).running = some u → e = (s.timer u).cpu).mpr ⟨?_, fun j _ => h.syncs j⟩
    rintro u c ⟨⟩
    exact ⟨rfl, hclear⟩
  | pass i =>
    obtain ⟨⟨t, c⟩, hi, rfl⟩ := Option.map_eq_some_iff.mp ha
    have hcancel := h.drops (.cancel _ t)
    dsimp only
    split
    · exact hcancel
    · next hrun =>
      refine ⟨hcancel.listed, fun j u d hj => ?_, fun u hu => ?_⟩
      · rcases eq_or_ne j i with rfl | hne
        · simp at hj
        · exact hcancel.syncs j u d (by simpa [hne] using hj)
      · rcases eq_or_ne u t with rfl | hne
        · -- The queue the cancel has looked at is that of the only CPU that may run the timer.
          obtain ⟨hc, hother⟩ := hcancel.syncs i u c hi
          exact fun d => ⟨h.listed.not_mem_cancel u d, fun hd =>
            hrun ((hother d hd).trans hc.symm ▸ hd)⟩
        · exact hcancel.quiet u (by simpa [hne] using hu)

/-- **A cancelled timer is quiet**: from when `timer_cancel_sync` returns until something starts the
timer, it is on no queue and its callback runs on no CPU, in a run in which no such call is made
while the callback runs on a CPU the timer no longer names, or meets a start that moves the timer.
-/
theorem quiet_after_cancel_sync (h : Lib.Reachable Initial (Step fun s a => a.Clear s) s)
    (hquiet : s.quiet t = true) :
    ∀ c, t ∉ (s.queue c).pending ∧ (s.queue c).running ≠ some t := by
  have hi : Inv s := h.invariant (P := Inv)
    (fun s hs => by
      rw [hs]
      exact ⟨nofun, nofun, nofun⟩)
    fun s s' hi hst => hi.step hst
  exact hi.quiet t hquiet

/-- The timer is started on CPU 1 while its callback runs on CPU 0, and is cancelled as the second
callback runs. -/
theorem quiet_after_cancel_sync_running :
    ∃ s : Sys, s.quiet 0 = true ∧ ∀ c, 0 ∉ (s.queue c).pending ∧ (s.queue c).running ≠ some 0 := by
  have h : Lib.Reachable Initial (Step fun s a => a.Clear s) {} := .init rfl
  have hrun := (h.step ⟨.start 0 0 0 1, .inl rfl, rfl⟩).step ⟨.expire 0 1, trivial, rfl⟩
  have hmove := (hrun.step ⟨.start 1 0 1 1, .inr fun _ _ h => (by cases h), rfl⟩).step
    ⟨.done 0, trivial, rfl⟩
  have hagain := hmove.step ⟨.expire 1 2, trivial, rfl⟩
  have hsync := (hagain.step ⟨.sync 0 0, fun d hd => (by
    rcases d with _ | _ | d <;> first | rfl | cases hd), rfl⟩).step ⟨.pass 0, trivial, rfl⟩
  have hdone := (hsync.step ⟨.done 1, trivial, rfl⟩).step ⟨.pass 0, trivial, rfl⟩
  exact ⟨_, rfl, quiet_after_cancel_sync hdone rfl⟩

/-- The callback runs on CPU 0 as the timer is started on CPU 1; the cancel looks at CPU 1 only. -/
theorem cancel_sync_misses_callback :
    ∃ s : Sys, Lib.Reachable Initial (Step fun _ _ => True) s ∧ s.quiet 0 = true ∧
      (s.queue 0).running = some 0 := by
  have h : Lib.Reachable Initial (Step fun _ _ => True) {} := .init rfl
  obtain ⟨s, hs, hbad⟩ := h.of_run (fun _ a _ ha => ⟨a, trivial, ha⟩)
    [.start 0 0 0 1, .expire 0 1, .start 1 0 1 1, .sync 0 0, .pass 0]
    (fun s => s.quiet 0 = true ∧ (s.queue 0).running = some 0) (by decide +kernel)
  exact ⟨s, hs, of_decide_eq_true hbad⟩

end CosmoOS.TimerQueues
