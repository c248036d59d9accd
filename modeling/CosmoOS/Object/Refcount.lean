import CosmoOS.Lib.Transition
import Mathlib.Data.Multiset.AddSub
import Mathlib.Tactic.Push
import Mathlib.Tactic.Ring

/-!
# The reference count of a kernel object

`kobject_get` and `kobject_put` are one atomic operation each; `kobject_tryget` and
`kobject_put_and_lock` are loops around a compare-and-swap, and the second, when it has read a one,
takes the lock of the table the object is in and decides under it.  Between the read and the lock a
lookup that holds the lock may have raised the count again.

The model (`object.cee`) has one object, one lock and any number of threads.  Each atomic operation
is a step.  `holders` is not the source's: it has every reference that is held, by the thread that
is to drop it, and is what the functions' contracts are about.  A call that drops a reference is
made by a thread that has one; `kobject_get` while somebody has one; `kobject_tryget` by a thread
that holds the lock.

The count is a `u32` and wraps.  That does not matter because the functions panic on a count of
zero: the count that has wrapped stops the machine at the next call that would make a difference.  A
panic is the field `halted`, after which there are no steps.

A dropper *observes* the count reach zero when its decrement returns a one.
-/

namespace CosmoOS.Object.Refcount

open Lib Function

variable {b : Bool}

/-! ## Threads and their calls -/

/-- Where a thread is. -/
inductive Pc
  | idle
  /-- `kobject_tryget`, with the count it last saw. -/
  | trying (current : ℕ)
  /-- The loop of `kobject_put_and_lock`, with the count it last saw. -/
  | dropping (current : ℕ)
  /-- It has seen a one, and waits for the lock. -/
  | locking
  /-- It has the lock, and is about to decrement. -/
  | deciding
  | unlocking
  /-- `kobject_put_and_lock` returns. -/
  | answering (last : Bool)
  /-- It returned true: the caller takes the object out of the table. -/
  | cleaning
  /-- `kobject_release_final`, before it has looked at the count. -/
  | releasing
  | freeing
  deriving DecidableEq

variable {p : Pc}

/-- The two calls that drop a reference. -/
inductive Call
  | put
  | putAndLock
  deriving DecidableEq

/-- What a step shows. -/
inductive Event (T : Type)
  | silent
  /-- A decrement, and the count it found. -/
  | dropped (t : T) (call : Call) (old : ℕ)
  | answered (t : T) (last : Bool)
  | tried (t : T) (ok : Bool)
  | released (t : T)

structure World (T : Type) where
  count : ℕ
  lock : Option T
  pc : T → Pc
  holders : Multiset T
  halted : Bool

variable {T : Type} [DecidableEq T]

/-- `kobject_init`: reference 1 belongs to the caller. -/
structure Initial (w : World T) : Prop where
  count : w.count = 1
  lock : w.lock = none
  pc : ∀ t, w.pc t = .idle
  holders : ∃ t, w.holders = {t}
  halted : w.halted = false

/-- `fetchAdd` of one. -/
def wrapAdd (n : ℕ) : ℕ := if n + 1 = 2 ^ 32 then 0 else n + 1

/-- `fetchSub` of one. -/
def wrapSub (n : ℕ) : ℕ := if n = 0 then 2 ^ 32 - 1 else n - 1

namespace World

section

variable (w : World T) (t : T) (n : ℕ)

/-- The thread goes on. -/
def goes (p : Pc) : World T := { w with pc := update w.pc t p }

/-- A reference more. -/
def raise : World T :=
  { w with count := n, holders := t ::ₘ w.holders }

/-- A reference less. -/
def lower : World T :=
  { w with count := n, holders := w.holders.erase t }

end

end World

/-- One atomic operation. -/
inductive Step : World T → Event T → World T → Prop
  /-- `kobject_get`, which panics on a count of zero. -/
  | get (w : World T) (t : T) (hrun : w.halted = false) (hpc : w.pc t = .idle)
      (hheld : w.holders ≠ 0) :
      Step w .silent { w.raise t (wrapAdd w.count) with halted := decide (w.count = 0) }
  | give (w : World T) (t u : T) (hrun : w.halted = false) (hpc : w.pc t = .idle)
      (hheld : t ∈ w.holders) :
      Step w .silent { w with holders := u ::ₘ w.holders.erase t }
  | lock (w : World T) (t : T) (hrun : w.halted = false) (hpc : w.pc t = .idle)
      (hfree : w.lock = none) : Step w .silent { w with lock := some t }
  | unlock (w : World T) (t : T) (hrun : w.halted = false) (hpc : w.pc t = .idle)
      (hlock : w.lock = some t) : Step w .silent { w with lock := none }
  -- kobject_tryget
  | tryLoad (w : World T) (t : T) (hrun : w.halted = false) (hpc : w.pc t = .idle)
      (hlock : w.lock = some t) : Step w .silent (w.goes t (.trying w.count))
  | tryZero (w : World T) (t : T) (hrun : w.halted = false) (hpc : w.pc t = .trying 0) :
      Step w (.tried t false) (w.goes t .idle)
  | tryOverflow (w : World T) (t : T) (current : ℕ) (hrun : w.halted = false)
      (hpc : w.pc t = .trying current) (hover : 2 ^ 32 ≤ current + 1) :
      Step w .silent { w with halted := true }
  | tryAdd (w : World T) (t : T) (current : ℕ) (hrun : w.halted = false)
      (hpc : w.pc t = .trying current) (hpos : current ≠ 0) (hover : current + 1 < 2 ^ 32)
      (hsame : w.count = current) :
      Step w (.tried t true) ((w.raise t (current + 1)).goes t .idle)
  | tryAgain (w : World T) (t : T) (current : ℕ) (hrun : w.halted = false)
      (hpc : w.pc t = .trying current) (hpos : current ≠ 0) (hover : current + 1 < 2 ^ 32)
      (hother : w.count ≠ current) : Step w .silent (w.goes t (.trying w.count))
  /-- `kobject_put`, which panics on a count of zero and goes on to the release from one. -/
  | put (w : World T) (t : T) (hrun : w.halted = false) (hpc : w.pc t = .idle)
      (hheld : t ∈ w.holders) :
      Step w (.dropped t .put w.count)
        { (w.lower t (wrapSub w.count)).goes t (if w.count = 1 then .releasing else .idle) with
          halted := decide (w.count = 0) }
  -- kobject_put_and_lock
  | dropLoad (w : World T) (t : T) (hrun : w.halted = false) (hpc : w.pc t = .idle)
      (hheld : t ∈ w.holders) : Step w .silent (w.goes t (.dropping w.count))
  | dropZero (w : World T) (t : T) (hrun : w.halted = false) (hpc : w.pc t = .dropping 0) :
      Step w .silent { w with halted := true }
  | dropOne (w : World T) (t : T) (hrun : w.halted = false) (hpc : w.pc t = .dropping 1) :
      Step w .silent (w.goes t .locking)
  | dropSub (w : World T) (t : T) (current : ℕ) (hrun : w.halted = false)
      (hpc : w.pc t = .dropping current) (hmany : 2 ≤ current) (hsame : w.count = current) :
      Step w (.dropped t .putAndLock current)
        ((w.lower t (current - 1)).goes t (.answering false))
  | dropAgain (w : World T) (t : T) (current : ℕ) (hrun : w.halted = false)
      (hpc : w.pc t = .dropping current) (hmany : 2 ≤ current) (hother : w.count ≠ current) :
      Step w .silent (w.goes t (.dropping w.count))
  | dropLock (w : World T) (t : T) (hrun : w.halted = false) (hpc : w.pc t = .locking)
      (hfree : w.lock = none) :
      Step w .silent { w.goes t .deciding with lock := some t }
  | decide (w : World T) (t : T) (hrun : w.halted = false) (hpc : w.pc t = .deciding) :
      Step w (.dropped t .putAndLock w.count)
        ((w.lower t (wrapSub w.count)).goes t
          (if w.count = 1 then .answering true else .unlocking))
  | dropUnlock (w : World T) (t : T) (hrun : w.halted = false) (hpc : w.pc t = .unlocking) :
      Step w .silent { w.goes t (.answering false) with lock := none }
  | answer (w : World T) (t : T) (last : Bool) (hrun : w.halted = false)
      (hpc : w.pc t = .answering last) :
      Step w (.answered t last) (w.goes t (if last then .cleaning else .idle))
  /-- The caller has taken the object out of the table. -/
  | clean (w : World T) (t : T) (hrun : w.halted = false) (hpc : w.pc t = .cleaning) :
      Step w .silent { w.goes t .releasing with lock := none }
  -- kobject_release_final
  | releaseLive (w : World T) (t : T) (hrun : w.halted = false) (hpc : w.pc t = .releasing)
      (hlive : w.count ≠ 0) : Step w .silent { w with halted := true }
  | releaseZero (w : World T) (t : T) (hrun : w.halted = false) (hpc : w.pc t = .releasing)
      (hzero : w.count = 0) : Step w .silent (w.goes t .freeing)
  | release (w : World T) (t : T) (hrun : w.halted = false) (hpc : w.pc t = .freeing) :
      Step w (.released t) (w.goes t .idle)

/-! ## What a run has shown -/

namespace Event

/-- The dropper observed the count reach zero. -/
def reachesZero : Event T → Bool
  | .dropped _ _ old => old == 1
  | _ => false

def isRelease : Event T → Bool
  | .released _ => true
  | _ => false

/-- What the thread's latest decrement was, with what it found. -/
def drop (t : T) (d : Option (Call × ℕ)) : Event T → Option (Call × ℕ)
  | .dropped u call old => if u = t then some (call, old) else d
  | _ => d

end Event

/-- How many droppers have observed the count reach zero. -/
def zeros (evs : List (Event T)) : ℕ := evs.countP Event.reachesZero

/-- How often the object's release was run. -/
def releases (evs : List (Event T)) : ℕ := evs.countP Event.isRelease

/-- The thread's latest decrement. -/
def dropOf (evs : List (Event T)) (t : T) : Option (Call × ℕ) :=
  evs.foldl (fun d e => e.drop t d) none

omit [DecidableEq T] in
theorem zeros_snoc (evs : List (Event T)) (e : Event T) :
    zeros (evs ++ [e]) = zeros evs + if e.reachesZero then 1 else 0 := by
  rw [zeros, zeros, List.countP_append, List.countP_singleton]

omit [DecidableEq T] in
theorem releases_snoc (evs : List (Event T)) (e : Event T) :
    releases (evs ++ [e]) = releases evs + if e.isRelease then 1 else 0 := by
  rw [releases, releases, List.countP_append, List.countP_singleton]

theorem dropOf_snoc (evs : List (Event T)) (e : Event T) (t : T) :
    dropOf (evs ++ [e]) t = e.drop t (dropOf evs t) := by
  rw [dropOf, dropOf, List.foldl_append]
  rfl

/-! ## The invariant -/

/-- The thread is the last dropper, on its way to the release. -/
def Pc.ending : Pc → Bool
  | .answering last => last
  | .cleaning | .releasing | .freeing => true
  | _ => false

/-- What is known of a thread from where it is. -/
def PcOk (evs : List (Event T)) (w : World T) (t : T) : Pc → Prop
  | .idle | .releasing | .freeing => True
  | .trying _ | .cleaning => w.lock = some t
  | .dropping _ | .locking => t ∈ w.holders
  | .deciding => w.lock = some t ∧ t ∈ w.holders
  | .unlocking => w.lock = some t ∧ ∃ old, old ≠ 1 ∧ dropOf evs t = some (.putAndLock, old)
  | .answering true => w.lock = some t ∧ dropOf evs t = some (.putAndLock, 1)
  | .answering false => ∃ old, old ≠ 1 ∧ dropOf evs t = some (.putAndLock, old)

/-- **The invariant.**  The count is the number of references, wrapped; while the machine runs
there are at most `2 ^ 32` of them, so that a count of one means one reference. -/
structure Inv (evs : List (Event T)) (w : World T) : Prop where
  count : w.count = w.holders.card % 2 ^ 32
  bound : w.halted = false → w.holders.card ≤ 2 ^ 32
  zeros : zeros evs = if w.holders = 0 then 1 else 0
  pcs : ∀ t, PcOk evs w t (w.pc t)
  /-- There is one last dropper, it comes after every reference, and before the release. -/
  ending : ∀ t, (w.pc t).ending = true →
    w.holders = 0 ∧ releases evs = 0 ∧ ∀ u, (w.pc u).ending = true → u = t
  live : w.holders ≠ 0 → releases evs = 0
  released : releases evs ≤ 1

theorem Initial.inv {w : World T} (h : Initial w) : Inv [] w := by
  obtain ⟨t, ht⟩ := h.holders
  refine ⟨?_, ?_, ?_, ?_, ?_, fun _ => rfl, Nat.zero_le _⟩
  · rw [h.count, ht]
    rfl
  · intro _
    rw [ht, Multiset.card_singleton]
    norm_num
  · rw [if_neg (by rw [ht]; exact Multiset.singleton_ne_zero t)]
    rfl
  · intro u
    rw [h.pc u]
    trivial
  · intro u hu
    rw [h.pc u] at hu
    exact absurd hu Bool.false_ne_true

/-- What is known of the other threads survives a step that keeps the lock with them and their
references. -/
theorem PcOk.congr {evs evs' : List (Event T)} {w w' : World T} {t : T}
    (h : PcOk evs w t p) (hlock : w.lock = some t → w'.lock = some t)
    (hheld : t ∈ w.holders → t ∈ w'.holders) (hdrop : dropOf evs' t = dropOf evs t) :
    PcOk evs' w' t p := by
  cases p with
  | idle | releasing | freeing => trivial
  | trying current | cleaning => exact hlock h
  | dropping current | locking => exact hheld h
  | deciding => exact ⟨hlock h.1, hheld h.2⟩
  | unlocking =>
    obtain ⟨hl, old, hold, hd⟩ := h
    exact ⟨hlock hl, old, hold, hdrop.trans hd⟩
  | answering last =>
    cases last with
    | true => exact ⟨hlock h.1, hdrop.trans h.2⟩
    | false =>
      obtain ⟨old, hold, hd⟩ := h
      exact ⟨old, hold, hdrop.trans hd⟩

/-- The events that are neither a decrement nor the release. -/
def Event.plain : Event T → Bool
  | .dropped _ _ _ | .released _ => false
  | _ => true

theorem plain_snoc (evs : List (Event T)) {e : Event T} (he : e.plain = true) :
    zeros (evs ++ [e]) = zeros evs ∧ releases (evs ++ [e]) = releases evs ∧
      ∀ t, dropOf (evs ++ [e]) t = dropOf evs t := by
  simp only [zeros_snoc, releases_snoc, dropOf_snoc]
  cases e with
  | dropped t call old | released t => cases he
  | _ => exact ⟨rfl, rfl, fun _ => rfl⟩

/-! ## Every step keeps it -/

section Steps

variable {evs evs' : List (Event T)} {w w' : World T} {t : T} {e : Event T} {l : Option T}

theorem Inv.pcOk (h : Inv evs w) (hpc : w.pc t = p) : PcOk evs w t p := hpc ▸ h.pcs t

/-- One thread goes on, and what the others know stays true. -/
theorem Inv.pcs_goes {v : World T} (h : Inv evs w) (hp : PcOk evs' v t p)
    (hlock : ∀ u, u ≠ t → w.lock = some u → v.lock = some u)
    (hheld : ∀ u, u ≠ t → u ∈ w.holders → u ∈ v.holders)
    (hdrop : ∀ u, u ≠ t → dropOf evs' u = dropOf evs u) (u : T) :
    PcOk evs' v u (update w.pc t p u) := by
  rcases eq_or_ne u t with rfl | hne
  · rw [update_self]
    exact hp
  · rw [update_of_ne hne]
    exact (h.pcs u).congr (hlock u hne) (hheld u hne) (hdrop u hne)

omit [DecidableEq T] in
theorem others_lock (h : w.lock = none ∨ w.lock = some t) (u : T) (hne : u ≠ t)
    (hu : w.lock = some u) : l = some u := by
  rw [hu] at h
  rcases h with h | h
  · cases h
  · exact absurd (Option.some.inj h) hne

section

variable (h : Inv evs w)

include h

/-- **A step of one thread that leaves the references alone**: it may move the lock, if no other
thread has it. -/
theorem Inv.moves (he : e.plain = true) (hlock : ∀ u, u ≠ t → w.lock = some u → l = some u)
    (hp : PcOk (evs ++ [e]) { w.goes t p with lock := l, halted := b } t p)
    (hend : p.ending = true → (w.pc t).ending = true) (hb : w.halted = true → b = true) :
    Inv (evs ++ [e]) { w.goes t p with lock := l, halted := b } := by
  have hpc : ∀ u, (update w.pc t p u).ending = true → (w.pc u).ending = true := by
    intro u hu
    rcases eq_or_ne u t with rfl | hne
    · rw [update_self] at hu
      exact hend hu
    · rwa [update_of_ne hne] at hu
  obtain ⟨hzeros, hreleases, hdrop⟩ := plain_snoc evs he
  refine ⟨h.count, ?_, hzeros.trans h.zeros, h.pcs_goes hp hlock (fun _ _ => id) fun u _ => hdrop u,
    ?_, fun hheld => hreleases.trans (h.live hheld), hreleases.trans_le h.released⟩
  · intro hrun
    refine h.bound ?_
    cases hw : w.halted with
    | false => rfl
    | true => exact absurd (hb hw) (by simp [show b = false from hrun])
  · intro u hu
    obtain ⟨hzero, hrel, huniq⟩ := h.ending u (hpc u hu)
    exact ⟨hzero, hreleases.trans hrel, fun v hv => huniq v (hpc v hv)⟩

theorem Inv.stays (he : e.plain = true) (hpc : w.pc t = .idle ∨ l = w.lock)
    (hlock : ∀ u, u ≠ t → w.lock = some u → l = some u) (hb : w.halted = true → b = true) :
    Inv (evs ++ [e]) { w with lock := l, halted := b } := by
  have hgoes : w.goes t (w.pc t) = w := by
    rw [World.goes, update_eq_self]
  have hmoved : Inv (evs ++ [e]) { w.goes t (w.pc t) with lock := l, halted := b } := by
    refine h.moves he hlock ?_ id hb
    rcases hpc with hidle | rfl
    · rw [hidle]
      trivial
    · exact (h.pcs t).congr id id ((plain_snoc evs he).2.2 t)
  rwa [hgoes] at hmoved

/-- While there are references nobody is the last dropper. -/
theorem Inv.not_ending (hheld : w.holders ≠ 0) (u : T) : (w.pc u).ending = false := by
  cases hu : (w.pc u).ending with
  | false => rfl
  | true => exact absurd (h.ending u hu).1 hheld

/-- **A reference is added.** -/
theorem Inv.raises (he : e.plain = true) (hheld : w.holders ≠ 0) {n : ℕ}
    (hn : n = (w.holders.card + 1) % 2 ^ 32) (hb : b = false → w.holders.card + 1 ≤ 2 ^ 32) :
    Inv (evs ++ [e]) { (w.raise t n).goes t .idle with halted := b } := by
  have hpc : ∀ u, (update w.pc t Pc.idle u).ending = false := by
    intro u
    rcases eq_or_ne u t with rfl | hne
    · rw [update_self]
      rfl
    · rw [update_of_ne hne]
      exact h.not_ending hheld u
  have hcard : (t ::ₘ w.holders).card = w.holders.card + 1 := Multiset.card_cons t w.holders
  obtain ⟨hzeros, hreleases, hdrop⟩ := plain_snoc evs he
  refine ⟨hn.trans (by rw [← hcard]; rfl), fun hrun => hcard.trans_le (hb hrun), ?_,
    h.pcs_goes (v := { w.raise t n with halted := b }) trivial (fun _ _ => id)
      (fun _ _ => Multiset.mem_cons_of_mem) fun u _ => hdrop u, ?_,
    fun _ => hreleases.trans (h.live hheld), hreleases.trans_le h.released⟩
  · rw [hzeros, h.zeros, if_neg hheld]
    exact (if_neg (Multiset.cons_ne_zero (a := t))).symm
  · intro u hu
    exact absurd (hpc u) (by rw [show (update w.pc t Pc.idle u).ending = true from hu]; simp)

theorem Inv.gives (hheld : t ∈ w.holders) (hpc : w.pc t = .idle) (u : T) :
    Inv (evs ++ [.silent]) { w with holders := u ::ₘ w.holders.erase t } := by
  have hne : w.holders ≠ 0 := fun h0 => by simp [h0] at hheld
  have hcard : (u ::ₘ w.holders.erase t).card = w.holders.card := by
    rw [Multiset.card_cons]
    exact Multiset.card_erase_add_one hheld
  obtain ⟨hzeros, hreleases, hdrop⟩ := plain_snoc evs (e := .silent) rfl
  refine ⟨h.count.trans (by rw [← hcard]), fun hrun => hcard.trans_le (h.bound hrun), ?_, ?_, ?_,
    fun _ => hreleases.trans (h.live hne), hreleases.trans_le h.released⟩
  · rw [hzeros, h.zeros, if_neg hne]
    exact (if_neg (Multiset.cons_ne_zero (a := u))).symm
  · intro v
    rcases eq_or_ne v t with rfl | hv
    · change PcOk _ _ v (w.pc v)
      rw [hpc]
      trivial
    · refine (h.pcs v).congr id (fun hm => ?_) (hdrop v)
      exact Multiset.mem_cons_of_mem ((Multiset.mem_erase_of_ne hv).mpr hm)
  · intro v hv
    exact absurd (h.not_ending hne v) (by rw [show (w.pc v).ending = true from hv]; simp)

end

omit [DecidableEq T] in
theorem releases_dropped (evs : List (Event T)) (t : T) (call : Call) (old : ℕ) :
    releases (evs ++ [.dropped t call old]) = releases evs := by
  rw [releases_snoc]
  rfl

theorem dropOf_dropped_of_ne {u : T} (hne : u ≠ t) (call : Call) (old : ℕ) :
    dropOf (evs ++ [.dropped t call old]) u = dropOf evs u := by
  rw [dropOf_snoc, Event.drop, if_neg hne.symm]

theorem dropOf_dropped_self (call : Call) (old : ℕ) :
    dropOf (evs ++ [.dropped t call old]) t = some (call, old) := by
  rw [dropOf_snoc, Event.drop, if_pos rfl]

/-- **A reference is dropped.**  The decrement that finds a one is the last: it leaves no
reference, and nobody was the last dropper before it. -/
theorem Inv.lowers (h : Inv evs w) (hrun : w.halted = false) (hheld : t ∈ w.holders)
    (call : Call) {n : ℕ} (hn : n = wrapSub w.count) (hp : PcOk (evs ++ [.dropped t call w.count])
      { (w.lower t n).goes t p with halted := b } t p)
    (hend : p.ending = true → w.count = 1) :
    Inv (evs ++ [.dropped t call w.count]) { (w.lower t n).goes t p with halted := b } := by
  have hne : w.holders ≠ 0 := fun h0 => by simp [h0] at hheld
  have hcard : (w.holders.erase t).card + 1 = w.holders.card :=
    Multiset.card_erase_add_one hheld
  have hbound := h.bound hrun
  have hzero : w.holders.erase t = 0 ↔ w.count = 1 := by
    rw [← Multiset.card_eq_zero, h.count]
    omega
  have hpc : ∀ u, (update w.pc t p u).ending = true → u = t := by
    intro u hu
    by_contra hut
    rw [update_of_ne hut, h.not_ending hne u] at hu
    cases hu
  have hreleases := releases_dropped evs t call w.count
  refine ⟨?_, ?_, ?_, h.pcs_goes hp (fun _ _ => id)
    (fun u hut => (Multiset.mem_erase_of_ne hut).mpr)
      fun u hut => dropOf_dropped_of_ne hut call w.count, ?_, fun _ => hreleases.trans (h.live hne),
    hreleases.trans_le h.released⟩
  · change n = (w.holders.erase t).card % 2 ^ 32
    rw [hn, wrapSub, h.count]
    split_ifs <;> omega
  · intro _
    change (w.holders.erase t).card ≤ 2 ^ 32
    omega
  · change Refcount.zeros (evs ++ [.dropped t call w.count]) =
      if w.holders.erase t = 0 then 1 else 0
    rw [zeros_snoc, h.zeros, if_neg hne]
    by_cases h1 : w.count = 1
    · rw [if_pos (hzero.mpr h1)]
      simp [Event.reachesZero, h1]
    · rw [if_neg (fun h0 => h1 (hzero.mp h0))]
      simp [Event.reachesZero, h1]
  · intro u hu
    obtain rfl := hpc u hu
    have hu' : p.ending = true := by
      rw [← update_self u p w.pc]
      exact hu
    exact ⟨hzero.mpr (hend hu'), hreleases.trans (h.live hne), hpc⟩

/-- **The release.** -/
theorem Inv.frees (h : Inv evs w) (hpc : w.pc t = .freeing) :
    Inv (evs ++ [.released t]) (w.goes t .idle) := by
  obtain ⟨hzero, hrel, huniq⟩ := h.ending t (by rw [hpc]; rfl)
  have hone : releases (evs ++ [.released t]) = 1 := by
    rw [releases_snoc, hrel]
    rfl
  refine ⟨h.count, h.bound, ?_, h.pcs_goes (v := w) trivial (fun _ _ => id) (fun _ _ => id)
    fun u _ => dropOf_snoc evs _ u, ?_, fun hheld => absurd hzero hheld, hone.le⟩
  · rw [zeros_snoc]
    exact h.zeros
  · intro u hu
    have hut : u ≠ t := by
      rintro rfl
      change (update w.pc u Pc.idle u).ending = true at hu
      rw [update_self] at hu
      cases hu
    change (update w.pc t Pc.idle u).ending = true at hu
    rw [update_of_ne hut] at hu
    exact absurd (huniq u hu) hut

end Steps

/-- **Every step keeps the invariant.** -/
theorem Inv.step {evs : List (Event T)} {w w' : World T} {e : Event T} (h : Inv evs w)
    (hstep : Step w e w') : Inv (evs ++ [e]) w' := by
  -- a step of a thread that changes neither lock nor references
  have hgoes : ∀ {t : T} {p : Pc} {e : Event T}, e.plain = true →
      PcOk (evs ++ [e]) (w.goes t p) t p →
      (p.ending = true → (w.pc t).ending = true) → Inv (evs ++ [e]) (w.goes t p) :=
    fun he hp hend => h.moves (l := w.lock) (b := w.halted) he (fun _ _ => id) hp hend id
  cases hstep with
  | get t hrun hpc hheld =>
    have hraised := h.raises (t := t) (e := .silent) (n := wrapAdd w.count)
      (b := decide (w.count = 0)) rfl hheld ?_ ?_
    · rwa [show (w.raise t (wrapAdd w.count)).goes t .idle = w.raise t (wrapAdd w.count) by
        change { w.raise t (wrapAdd w.count) with pc := update w.pc t .idle } = _
        rw [← hpc, update_eq_self]
        rfl] at hraised
    · rw [wrapAdd, h.count]
      split_ifs <;> omega
    · intro hb
      have hbound := h.bound hrun
      have hcount := h.count
      have hzero : w.count ≠ 0 := of_decide_eq_false hb
      omega
  | give t u hrun hpc hheld => exact h.gives hheld hpc u
  | lock t hrun hpc hfree =>
    exact h.stays (t := t) (b := w.halted) rfl (.inl hpc) (others_lock (.inl hfree)) id
  | unlock t hrun hpc hlock =>
    exact h.stays (t := t) (b := w.halted) rfl (.inl hpc) (others_lock (.inr hlock)) id
  | tryLoad t hrun hpc hlock => exact hgoes rfl hlock (by simp [Pc.ending])
  | tryZero t hrun hpc => exact hgoes rfl trivial (by simp [Pc.ending])
  | tryOverflow t current hrun hpc hover | releaseLive t hrun hpc hlive =>
    exact h.stays (t := t) rfl (.inr rfl) (fun _ _ => id) fun _ => rfl
  | tryAdd t current hrun hpc hpos hover hsame =>
    have hbound := h.bound hrun
    have hcount := h.count
    refine h.raises (b := w.halted) rfl ?_ ?_ ?_
    · intro h0
      rw [h0, Multiset.card_zero] at hcount
      omega
    · omega
    · intro _
      omega
  | tryAgain t current hrun hpc hpos hover hother | dropOne t hrun hpc
  | dropAgain t current hrun hpc hmany hother =>
    exact hgoes rfl (h.pcOk hpc) (by simp [Pc.ending])
  | put t hrun hpc hheld =>
    refine h.lowers hrun hheld .put rfl ?_ ?_
    · split_ifs <;> trivial
    · split_ifs with h1
      · exact fun _ => h1
      · simp [Pc.ending]
  | dropLoad t hrun hpc hheld => exact hgoes rfl hheld (by simp [Pc.ending])
  | dropZero t hrun hpc => exact h.stays (t := t) rfl (.inr rfl) (fun _ _ => id) fun _ => rfl
  | dropSub t current hrun hpc hmany hsame =>
    subst hsame
    refine h.lowers (b := w.halted) hrun (h.pcOk hpc) .putAndLock ?_ ?_ (by simp [Pc.ending])
    · rw [wrapSub, if_neg (by omega)]
    · exact ⟨w.count, by omega, dropOf_dropped_self _ _⟩
  | dropLock t hrun hpc hfree =>
    exact h.moves (b := w.halted) rfl (others_lock (.inl hfree)) ⟨rfl, h.pcOk hpc⟩
      (by simp [Pc.ending]) id
  | decide t hrun hpc =>
    have hok := h.pcOk hpc
    have hlow := h.lowers (n := wrapSub w.count) (b := w.halted)
      (p := if w.count = 1 then .answering true else .unlocking) hrun hok.2 .putAndLock rfl ?_ ?_
    · exact hlow
    · split_ifs with h1
      · refine ⟨hok.1, ?_⟩
        rw [dropOf_dropped_self, h1]
      · exact ⟨hok.1, w.count, h1, dropOf_dropped_self _ _⟩
    · split_ifs with h1
      · exact fun _ => h1
      · simp [Pc.ending]
  | dropUnlock t hrun hpc =>
    obtain ⟨hlock, old, hold, hd⟩ := h.pcOk hpc
    exact h.moves (b := w.halted) rfl (others_lock (.inr hlock))
      ⟨old, hold, ((plain_snoc evs rfl).2.2 t).trans hd⟩ (by simp [Pc.ending]) id
  | answer t last hrun hpc =>
    have hok := h.pcOk hpc
    cases last with
    | true => exact hgoes rfl hok.1 fun _ => by rw [hpc]; rfl
    | false => exact hgoes rfl trivial (by simp [Pc.ending])
  | clean t hrun hpc =>
    exact h.moves (b := w.halted) rfl (others_lock (.inr (h.pcOk hpc))) trivial
      (fun _ => by rw [hpc]; rfl) id
  | releaseZero t hrun hpc hzero => exact hgoes rfl trivial fun _ => by rw [hpc]; rfl
  | release t hrun hpc => exact h.frees hpc

/-! ## Runs -/

theorem trace_inv {w₀ w : World T} (h₀ : Initial w₀) {evs : List (Event T)}
    (h : Trace Step w₀ evs w) : Inv evs w :=
  h.invariant h₀.inv fun _ _ _ _ hinv hstep => hinv.step hstep

/-- **The last drop.**  In every interleaving, when the references are all dropped exactly one
dropper has observed the count reach zero, and before that none; `kobject_put_and_lock` returns
true to a thread exactly when that dropper is its own call, and the thread then has the lock; a
`kobject_tryget` succeeds only before; and the release is run at most once. -/
theorem one_last_drop {w₀ w : World T} (h₀ : Initial w₀) {evs : List (Event T)}
    (h : Trace Step w₀ evs w) :
    (zeros evs = if w.holders = 0 then 1 else 0) ∧
      (∀ t last w', Step w (.answered t last) w' →
        (last = true ↔ dropOf evs t = some (.putAndLock, 1)) ∧
          (last = true → w.lock = some t ∧ w'.lock = some t)) ∧
      (∀ t w', Step w (.tried t true) w' → zeros evs = 0) ∧ releases evs ≤ 1 := by
  have hinv := trace_inv h₀ h
  refine ⟨hinv.zeros, ?_, ?_, hinv.released⟩
  · intro t last w' hstep
    cases hstep with
    | answer _ _ hrun hpc =>
      have hok := hinv.pcOk hpc
      cases last with
      | true => exact ⟨⟨fun _ => hok.2, fun _ => rfl⟩, fun _ => ⟨hok.1, hok.1⟩⟩
      | false =>
        obtain ⟨old, hold, hd⟩ := hok
        refine ⟨⟨fun hl => (Bool.false_ne_true hl).elim, fun hd' => ?_⟩, fun hl =>
          (Bool.false_ne_true hl).elim⟩
        rw [hd] at hd'
        exact absurd (congrArg Prod.snd (Option.some.inj hd')) hold
  · intro t w' hstep
    cases hstep with
    | tryAdd _ current hrun hpc hpos hover hsame =>
      rw [hinv.zeros, if_neg]
      intro h0
      have hcount := hinv.count
      rw [h0, Multiset.card_zero] at hcount
      omega

/-- An object its creator holds the only reference to. -/
def freshObject : World Bool := ⟨1, none, fun _ => .idle, {false}, false⟩

theorem freshObject_initial : Initial freshObject :=
  ⟨rfl, rfl, fun _ => rfl, ⟨false, rfl⟩, rfl⟩

/-- Two droppers: the first finds a two and lets the other be the last. -/
theorem one_last_drop_freshObject :
    ∃ w : World Bool,
      Trace Step freshObject [.silent, .silent, .dropped false .putAndLock 2, .silent, .silent,
        .silent, .dropped true .putAndLock 1] w ∧
      w.holders = 0 ∧
      zeros ([.silent, .silent, .dropped false .putAndLock 2, .silent, .silent, .silent,
        .dropped true .putAndLock 1] : List (Event Bool)) = 1 := by
  have h₀ : Trace Step freshObject [] freshObject := .nil
  have h₁ := h₀.snoc (.get _ true rfl rfl (by decide))
  have h₂ := h₁.snoc (.dropLoad _ false rfl rfl (by decide))
  have h₃ := h₂.snoc (.dropSub _ false 2 rfl rfl (by decide) rfl)
  have h₄ := h₃.snoc (.dropLoad _ true rfl rfl (by decide))
  have h₅ := h₄.snoc (.dropOne _ true rfl rfl)
  have h₆ := h₅.snoc (.dropLock _ true rfl rfl rfl)
  have h₇ := h₆.snoc (.decide _ true rfl rfl)
  obtain ⟨hzeros, -⟩ := one_last_drop freshObject_initial h₇
  exact ⟨_, h₇, by decide, hzeros.trans (if_pos (by decide))⟩

end CosmoOS.Object.Refcount
