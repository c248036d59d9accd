import CosmoOS.Scheduler.RunQueues
import Mathlib.Algebra.BigOperators.Ring.Finset
import Mathlib.Algebra.Order.BigOperators.Group.Finset
import Mathlib.Data.Fintype.BigOperators
import Mathlib.Tactic.Linarith

/-!
# The balancer settles

`balance_tick`: a processor looks at the loads of the others and pulls a thread from the busiest,
if that is ahead of it by two or more.  It tries three sources at most.  The loads it looks at are
hints, read without the locks of the queues, so here a look reads any numbers at all, and any number
of looks are under way at once.  `sched_migrate_from` decides again under both locks.

While no thread is woken, blocks or exits, the processors still switch from one thread to another.
A switch makes no load larger, and a pull makes the sum of the squares of the loads smaller
(`migrateFrom_settles`).
-/

namespace CosmoOS.Scheduler.Balance

open RunQueues Function

def schedPrioCount : ℕ := 64

/-- What stays: the processors that are online, and each thread's mask and level. -/
structure Config (n : ℕ) (Thread : Type) where
  online : Fin n → Bool
  affinity : Thread → Fin n → Bool
  level : Thread → Fin schedPrioCount

inductive MigrateResult where
  | migrated
  | sameCpu
  | offline
  | gap
  | notReady
deriving DecidableEq, Repr

variable {n : ℕ} {Thread : Type} [DecidableEq Thread] {m m' : Core (Fin n) Thread}
  {c src dst : Fin n} {t : Thread}

/-- `load_locked`: the threads that are queued, and the current one unless it is the idle thread. -/
def loadLocked (m : Core (Fin n) Thread) (c : Fin n) : ℕ :=
  (m.ready c).length + (m.current c).toList.length

namespace Config

variable (k : Config n Thread)

/-- What `rr_pick_migratable` asks of a thread. -/
def mayMove (m : Core (Fin n) Thread) (src dst : Fin n) (t : Thread) : Bool :=
  decide (m.current src ≠ some t) && !(m.thread t).preempted && k.affinity t dst

/-- `rr_pick_migratable`: from the lowest priority's level on, each from its tail. -/
def pickMigratable (m : Core (Fin n) Thread) (src dst : Fin n) : Option Thread :=
  (List.finRange schedPrioCount).reverse.findSome? fun level =>
    ((m.ready src).filter fun t => k.level t = level).reverse.find? (k.mayMove m src dst)

/-- `sched_migrate_from`, with the thread that was moved; `place t` is the queue of `dst` after the
policy has put `t` into it. -/
def migrateFrom (m : Core (Fin n) Thread) (src dst : Fin n) (minGap : ℕ)
    (place : Thread → List Thread) : MigrateResult × Option Thread × Core (Fin n) Thread :=
  if src = dst then (.sameCpu, none, m)
  else if !(k.online src && k.online dst) then (.offline, none, m)
  else if minGap ≠ 0 ∧ loadLocked m src < loadLocked m dst + minGap then (.gap, none, m)
  else
    match k.pickMigratable m src dst with
    | some t => (.migrated, some t, m.migrateLocked t src dst (place t))
    | none => (.notReady, none, m)

end Config

/-! ## Looks -/

def balanceTries : ℕ := 3

/-- A look under way. -/
structure Look (n : ℕ) where
  mine : ℕ
  tried : List (Fin n)
  attempt : ℕ

namespace Look

/-- The scan of one attempt: the busiest of the processors not tried yet, by the hints. -/
def busiest (l : Look n) (k : Config n Thread) (self : Fin n) (hint : Fin n → ℕ) : Fin n × ℕ :=
  (List.finRange n).foldl
    (fun best c =>
      if c = self || !k.online c || c ∈ l.tried then best
      else if hint c > best.2 then (c, hint c) else best)
    (self, l.mine)

/-- After an attempt at `source`; `now` is the processor's own load, read again if the difference
had gone. -/
def after (l : Look n) (source : Fin n) (r : MigrateResult) (now : ℕ) : Option (Look n) :=
  let next := fun mine =>
    if l.attempt + 1 < balanceTries then some ⟨mine, source :: l.tried, l.attempt + 1⟩ else none
  match r with
  | .migrated => none
  | .gap => if now > l.mine then none else next now
  | _ => next l.mine

end Look

/-- The run queues, and the look each processor has under way. -/
structure World (n : ℕ) (Thread : Type) where
  core : Core (Fin n) Thread
  look : Fin n → Option (Look n)

/-- A thread that was pulled. -/
structure Pull (n : ℕ) (Thread : Type) where
  before : Core (Fin n) Thread
  src : Fin n
  dst : Fin n
  thread : Thread
  after : Core (Fin n) Thread

/-- **One step**, with the pull it makes. -/
inductive Step (k : Config n Thread) :
    World n Thread → Option (Pull n Thread) → World n Thread → Prop
  /-- `balance_tick` begins, with what it reads as its own load. -/
  | begin (w : World n Thread) (self : Fin n) (mine : ℕ) : 2 ≤ n → w.look self = none →
    Step k w none { w with look := update w.look self (some ⟨mine, [], 0⟩) }
  /-- Nothing left that is far enough ahead. -/
  | stop (w : World n Thread) (self : Fin n) (l : Look n) (hint : Fin n → ℕ) :
    w.look self = some l →
    (l.busiest k self hint).1 = self ∨ (l.busiest k self hint).2 < l.mine + 2 →
    Step k w none { w with look := update w.look self none }
  | attempt (w : World n Thread) (self : Fin n) (l : Look n) (hint : Fin n → ℕ) (now : ℕ)
      (place : Thread → List Thread) (source : Fin n) (r : MigrateResult) (moved : Option Thread)
      (m : Core (Fin n) Thread) :
    w.look self = some l → (l.busiest k self hint).1 = source → source ≠ self →
    l.mine + 2 ≤ (l.busiest k self hint).2 → (∀ t, (place t).Perm (t :: w.core.ready self)) →
    k.migrateFrom w.core source self 2 place = (r, moved, m) →
    Step k w (moved.map fun t => ⟨w.core, source, self, t, m⟩)
      ⟨m, update w.look self (l.after source r now)⟩
  /-- `schedule_pass` on a processor whose thread neither blocks nor exits. -/
  | pass (w : World n Thread) (c : Fin n) (preempt : Bool) (m : Core (Fin n) Thread)
      (next : Option Thread) :
    (∀ t, w.core.current c = some t →
      (w.core.thread t).state = .running ∨ (w.core.thread t).state = .ready) →
    Core.PutBack w.core c preempt m →
    (∀ t, next = some t → t ∈ m.ready c) → (next = none → m.ready c = []) →
    Step k w none { w with core := m.switchTo c next }

/-! ## The sum of the squares -/

/-- The sum of the squares of the loads. -/
def sumSquares (m : Core (Fin n) Thread) : ℕ := ∑ c, loadLocked m c ^ 2

omit [DecidableEq Thread] in
theorem sumSquares_le (h : ∀ c, loadLocked m' c ≤ loadLocked m c) : sumSquares m' ≤ sumSquares m :=
  Finset.sum_le_sum fun c _ => Nat.pow_le_pow_left (h c) 2

omit [DecidableEq Thread] in
/-- One thread less on a processor, one more on another that was behind by two or more. -/
theorem sumSquares_lt (hne : src ≠ dst) (hgap : loadLocked m dst + 2 ≤ loadLocked m src)
    (hsrc : loadLocked m' src + 1 = loadLocked m src)
    (hdst : loadLocked m' dst = loadLocked m dst + 1)
    (hother : ∀ c, c ≠ src → c ≠ dst → loadLocked m' c = loadLocked m c) :
    sumSquares m' + 2 ≤ sumSquares m := by
  have hsplit : ∀ m : Core (Fin n) Thread, sumSquares m = loadLocked m src ^ 2 +
      (loadLocked m dst ^ 2 + ∑ c ∈ (Finset.univ.erase src).erase dst, loadLocked m c ^ 2) := by
    intro m
    have hdst : dst ∈ Finset.univ.erase src := Finset.mem_erase.mpr ⟨hne.symm, Finset.mem_univ dst⟩
    rw [Finset.add_sum_erase _ (fun c => loadLocked m c ^ 2) hdst,
      Finset.add_sum_erase _ (fun c => loadLocked m c ^ 2) (Finset.mem_univ src), sumSquares]
  have hrest : ∑ c ∈ (Finset.univ.erase src).erase dst, loadLocked m' c ^ 2 =
      ∑ c ∈ (Finset.univ.erase src).erase dst, loadLocked m c ^ 2 := by
    refine Finset.sum_congr rfl fun c hc => ?_
    rw [Finset.mem_erase, Finset.mem_erase] at hc
    rw [hother c hc.2.1 hc.1]
  rw [hsplit m, hsplit m', hrest, hdst, ← hsrc]
  rw [← hsrc] at hgap
  nlinarith

/-- What a pull has to be. -/
structure Pull.Sound (k : Config n Thread) (x : Pull n Thread) : Prop where
  gap : loadLocked x.before x.dst + 2 ≤ loadLocked x.before x.src
  falls : sumSquares x.after + 2 ≤ sumSquares x.before
  notCurrent : x.before.current x.src ≠ some x.thread
  notPreempted : (x.before.thread x.thread).preempted = false
  allowed : k.affinity x.thread x.dst = true

theorem pickMigratable_spec {k : Config n Thread} (h : k.pickMigratable m src dst = some t) :
    t ∈ m.ready src ∧ k.mayMove m src dst t = true := by
  obtain ⟨level, -, hfind⟩ := List.exists_of_findSome?_eq_some h
  have hmem := List.mem_of_find?_eq_some hfind
  rw [List.mem_reverse, List.mem_filter] at hmem
  exact ⟨hmem.1, List.find?_some hfind⟩

/-- **A pull under both locks.** -/
theorem migrateFrom_settles {k : Config n Thread} {place : Thread → List Thread} {r : MigrateResult}
    {moved : Option Thread} (hplace : ∀ t, (place t).Perm (t :: m.ready dst))
    (h : k.migrateFrom m src dst 2 place = (r, moved, m')) :
    (moved = none ∧ m' = m) ∨ ∃ t, moved = some t ∧ Pull.Sound k ⟨m, src, dst, t, m'⟩ := by
  unfold Config.migrateFrom at h
  split_ifs at h with hne honline hgap
  · cases h
    exact .inl ⟨rfl, rfl⟩
  · cases h
    exact .inl ⟨rfl, rfl⟩
  · cases h
    exact .inl ⟨rfl, rfl⟩
  have hgap : loadLocked m dst + 2 ≤ loadLocked m src := by omega
  split at h
  · rename_i t hpick
    cases h
    obtain ⟨hmem, hmay⟩ := pickMigratable_spec hpick
    simp only [Config.mayMove, Bool.and_eq_true, decide_eq_true_eq, Bool.not_eq_true'] at hmay
    refine .inr ⟨t, rfl, hgap, sumSquares_lt hne hgap ?_ ?_ fun c hs hd => ?_, hmay.1.1, hmay.1.2,
      hmay.2⟩
    · have hlen := List.length_erase_of_mem hmem
      have hpos := List.length_pos_of_mem hmem
      simp only [loadLocked, Core.migrateLocked, Core.setReady, Core.setThread, update_of_ne hne,
        update_self]
      omega
    · simp only [loadLocked, Core.migrateLocked, Core.setReady, Core.setThread, update_self,
        (hplace t).length_eq, List.length_cons]
      omega
    · simp only [loadLocked, Core.migrateLocked, Core.setReady, Core.setThread, update_of_ne hs,
        update_of_ne hd]
  · cases h
    exact .inl ⟨rfl, rfl⟩

/-! ## Switches -/

/-- The thread that is switched out is counted where it was. -/
theorem putBack_load {preempt : Bool} (h : Core.PutBack m c preempt m') :
    m'.current = m.current ∧ (m'.ready c).length ≤ loadLocked m c ∧
      ∀ d, d ≠ c → m'.ready d = m.ready d := by
  cases h with
  | idle _ => exact ⟨rfl, Nat.le_add_right _ _, fun _ _ => rfl⟩
  | exited t _ _ _ | ready t _ _ | blocked t _ _ _ =>
    exact ⟨rfl, Nat.le_add_right _ _, fun _ _ => rfl⟩
  | queued t q hcur _ hq =>
    refine ⟨rfl, ?_, fun d hd => update_of_ne hd _ _⟩
    simp [Core.setReady, Core.setThread, loadLocked, hcur, hq.length_eq]

/-- **A switch makes no load larger.** -/
theorem switchTo_load {preempt : Bool} {next : Option Thread} (hput : Core.PutBack m c preempt m')
    (hnext : ∀ t, next = some t → t ∈ m'.ready c) (d : Fin n) :
    loadLocked (m'.switchTo c next) d ≤ loadLocked m d := by
  obtain ⟨hcur, hlen, hother⟩ := putBack_load hput
  by_cases hd : d = c
  · subst hd
    cases next with
    | none => simpa [Core.switchTo, loadLocked, Core.setCurrent] using hlen
    | some t =>
      have herase := List.length_erase_of_mem (hnext t rfl)
      have hpos := List.length_pos_of_mem (hnext t rfl)
      refine le_trans ?_ hlen
      rw [Core.switchTo]
      split_ifs with hself
      · simp only [loadLocked, Core.setReady, Core.setThread, update_self, hself,
          Option.toList_some, List.length_singleton]
        omega
      · simp only [loadLocked, Core.setReady, Core.setThread, Core.setCurrent, update_self,
          Option.toList_some, List.length_singleton]
        omega
  · refine le_of_eq ?_
    cases next with
    | none => simp [Core.switchTo, loadLocked, Core.setCurrent, update_of_ne hd, hcur, hother d hd]
    | some t =>
      rw [Core.switchTo]
      split_ifs <;> simp [loadLocked, Core.setReady, Core.setThread, Core.setCurrent,
        update_of_ne hd, hcur, hother d hd]

/-! ## The run -/

variable {k : Config n Thread} {w w' : World n Thread}

/-- **A step** makes the sum no larger, and smaller by two or more if it pulls. -/
theorem Step.settles {x : Option (Pull n Thread)} (h : Step k w x w') :
    2 * x.toList.length + sumSquares w'.core ≤ sumSquares w.core ∧ ∀ p ∈ x, p.Sound k := by
  cases h with
  | begin self mine _ _ | stop self l hint _ _ => exact ⟨by simp, nofun⟩
  | attempt self l hint now place source r moved m _ _ _ _ hplace hfrom =>
    rcases migrateFrom_settles hplace hfrom with ⟨rfl, rfl⟩ | ⟨t, rfl, hsound⟩
    · exact ⟨by simp, nofun⟩
    · refine ⟨?_, fun p hp => ?_⟩
      · have hfalls := hsound.falls
        dsimp only at hfalls
        simp only [Option.map_some, Option.toList_some, List.length_singleton]
        omega
      · rw [Option.map_some, Option.mem_some_iff] at hp
        rw [← hp]
        exact hsound
  | pass c preempt m next _ hput hnext _ =>
    have hle := sumSquares_le fun d => switchTo_load hput hnext d
    exact ⟨by simpa using hle, nofun⟩

/-- **The balancer settles.**  From every state, whatever looks the processors make, with whatever
hints and in whatever interleaving, and whatever threads they switch between: there are at most half
as many pulls as the sum of the squares of the loads.  Each moves a thread between processors whose
loads differ by two or more, makes the sum smaller, and moves neither the current thread nor one
that was preempted or may not run there. -/
theorem pulls_settle {xs : List (Option (Pull n Thread))} (h : Lib.Trace (Step k) w xs w') :
    2 * (xs.flatMap Option.toList).length + sumSquares w'.core ≤ sumSquares w.core ∧
      ∀ x ∈ xs.flatMap Option.toList, Pull.Sound k x := by
  refine h.invariant (P := fun xs w' => 2 * (xs.flatMap Option.toList).length + sumSquares w'.core ≤
    sumSquares w.core ∧ ∀ x ∈ xs.flatMap Option.toList, Pull.Sound k x) ⟨by simp, by simp⟩ ?_
  intro xs w₁ x w₂ ih hs
  obtain ⟨hsum, hsound⟩ := hs.settles
  have happend : (xs ++ [x]).flatMap Option.toList = xs.flatMap Option.toList ++ x.toList := by simp
  rw [happend]
  refine ⟨?_, fun y hy => ?_⟩
  · rw [List.length_append]
    omega
  · rcases List.mem_append.mp hy with hy | hy
    · exact ih.2 y hy
    · exact hsound y (Option.mem_toList.mp hy)

/-- Two threads ready on processor 0, and none on processor 1. -/
def lopsided : World 2 Bool where
  core := ⟨fun _ => ⟨.ready, 0, false⟩, fun c => if c = 0 then [true, false] else [], fun _ => none⟩
  look := fun _ => none

/-- Every thread may run on every processor. -/
def free : Config 2 Bool := ⟨fun _ => true, fun _ _ => true, fun _ => ⟨31, by decide⟩⟩

/-- Processor 1 looks, and pulls one of the two. -/
theorem pulls_settle_lopsided : ∃ w' x, Lib.Trace (Step free) lopsided [none, some x] w' ∧
    x.thread = false ∧ 2 + sumSquares w'.core ≤ sumSquares lopsided.core := by
  have h0 : Lib.Trace (Step free) lopsided [] lopsided := .nil
  have h1 := h0.snoc (.begin lopsided 1 0 (Nat.le_refl 2) rfl)
  have h2 := h1.snoc (.attempt _ 1 ⟨0, [], 0⟩ (fun c => if c = 0 then 2 else 0) 0 (fun t => [t]) 0
    .migrated (some false) _ rfl (by decide) (by decide) (by decide) (fun t => .refl _) rfl)
  exact ⟨_, _, h2, rfl, (pulls_settle h2).1⟩

end CosmoOS.Scheduler.Balance
