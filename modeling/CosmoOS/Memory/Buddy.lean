import CosmoOS.Lib.Dyadic
import CosmoOS.Lib.Transition
import Mathlib.Algebra.BigOperators.Group.Finset.Piecewise
import Mathlib.Algebra.Order.Ring.Nat
import Mathlib.Data.Finset.Range
import Mathlib.Data.List.Nodup
import Mathlib.Tactic.Ring

/-!
# The buddy allocator

`buddy.c`: one zone of pages, a list of free blocks for each order, and in the descriptor of a page
whether it is the first one of a free block (`PG_BUDDY`) and of which order.  A free block is `2 ^
order` pages, naturally aligned; the block at `pfn ^ (1 << order)` is its buddy, and two free
buddies become one block of the next order.

The functions return `none` where a `KASSERT` fails.  Page frame numbers are natural numbers: all
are below `end_pfn + 2 ^ 10`, so no sum wraps.  `list_remove` is given the order of the list the
page is on, which its caller knows.

## What is proved

A *world* is the descriptors and the zone, with the blocks handed out and the pages the zone was
given.  `Sound`: the free lists and the descriptors agree; free blocks are aligned, inside the zone,
apart from each other and from every block handed out; none below the largest order is free together
with its buddy; and free blocks and blocks handed out are, together, the pages given.  Each call
keeps it and runs into no assertion; and in a sound world the search of `buddy_alloc_block` comes
back empty-handed only when no aligned run of the size is free, by the theorem on merged sets of
blocks.

Both loops are followed with one block *in hand*, apart from every free block: merging takes its
buddy off a list and joins the two, splitting pushes its upper half and keeps the lower one.
-/

namespace CosmoOS.Memory

open Lib.Dyadic Function List

variable {pfn p order endPfn : Nat} {b : Block}

/-! ## The zone -/

/-- Orders 0 to 10. -/
def pmmMaxOrder : Nat := 11

/-- The descriptor of a page: the flags the allocator looks at, the references and the order. -/
structure Page where
  reserved : Bool
  buddy : Bool
  deferred : Bool
  refcount : Nat
  order : Nat
deriving DecidableEq, Repr

variable {page : Page}

structure PmmFreeArea where
  list : List Nat
  nrFree : Nat
deriving DecidableEq, Repr

structure PmmZone where
  startPfn : Nat
  endPfn : Nat
  freeArea : Nat → PmmFreeArea
  nrPagesTotal : Nat
  nrPagesFree : Nat

/-- The page array and the zone. -/
structure Pmm where
  pages : Nat → Page
  zone : PmmZone

def pfnInZone (zone : PmmZone) (pfn : Nat) : Bool :=
  decide (zone.startPfn ≤ pfn) && decide (pfn < zone.endPfn)

def Pmm.setPage (m : Pmm) (pfn : Nat) (page : Page) : Pmm :=
  { m with pages := update m.pages pfn page }

def Pmm.setArea (m : Pmm) (order : Nat) (area : PmmFreeArea) : Pmm :=
  { m with zone := { m.zone with freeArea := update m.zone.freeArea order area } }

def freeAreaPush (m : Pmm) (pfn order : Nat) : Pmm :=
  (m.setPage pfn { m.pages pfn with order := order, buddy := true }).setArea order
    ⟨pfn :: (m.zone.freeArea order).list, (m.zone.freeArea order).nrFree + 1⟩

def freeAreaRemove (m : Pmm) (pfn order : Nat) : Option Pmm := do
  guard (0 < (m.zone.freeArea order).nrFree)
  return (m.setPage pfn { m.pages pfn with buddy := false }).setArea order
    ⟨(m.zone.freeArea order).list.erase pfn, (m.zone.freeArea order).nrFree - 1⟩

def buddyZoneInit (startPfn endPfn : Nat) : PmmZone where
  startPfn := startPfn
  endPfn := endPfn
  freeArea := fun _ => ⟨[], 0⟩
  nrPagesTotal := 0
  nrPagesFree := 0

/-! ## Allocation -/

/-- Splits a block of order `order + n` down to `order`, freeing the upper halves. -/
def splitDown (pfn order : Nat) : Nat → Pmm → Pmm
  | 0, m => m
  | n + 1, m => splitDown pfn order n (freeAreaPush m (pfn + 2 ^ (order + n)) (order + n))

/-- The last step of an allocation: the block is counted out, with one reference. -/
def handOut (m : Pmm) (pfn order : Nat) : Pmm :=
  let m := m.setPage pfn { m.pages pfn with order := order, refcount := 1 }
  { m with zone := { m.zone with nrPagesFree := m.zone.nrPagesFree - 2 ^ order } }

/-- The search from order `o` up, with `n` orders left to look at. -/
def allocScan (order : Nat) : Nat → Nat → Pmm → Option (Option Nat × Pmm)
  | 0, _, m => some (none, m)
  | n + 1, o, m =>
    match (m.zone.freeArea o).list with
    | [] => allocScan order n (o + 1) m
    | pfn :: rest => do
      guard ((m.pages pfn).buddy = true)
      guard ((m.pages pfn).order = o)
      let m := (m.setPage pfn { m.pages pfn with buddy := false }).setArea o
        ⟨rest, (m.zone.freeArea o).nrFree - 1⟩
      return (some pfn, handOut (splitDown pfn order (o - order) m) pfn order)

/-- The first page of a block of the order, or nothing (`NULL`). -/
def buddyAllocBlock (m : Pmm) (order : Nat) : Option (Option Nat × Pmm) := do
  guard (order < pmmMaxOrder)
  allocScan order (pmmMaxOrder - order) order m

/-! ## Freeing -/

/-- The merge loop, with `n` orders left below the largest. -/
def mergeLoop : Nat → Nat → Nat → Pmm → Option Pmm
  | 0, pfn, order, m => some (freeAreaPush m pfn order)
  | n + 1, pfn, order, m =>
    let buddyPfn := pfn ^^^ 2 ^ order
    if ¬ pfnInZone m.zone buddyPfn then some (freeAreaPush m pfn order)
    else if m.zone.endPfn < buddyPfn + 2 ^ order then some (freeAreaPush m pfn order)
    else if (m.pages buddyPfn).buddy = false ∨ (m.pages buddyPfn).order ≠ order then
      some (freeAreaPush m pfn order)
    else do
      let m ← freeAreaRemove m buddyPfn order
      mergeLoop n (if buddyPfn < pfn then buddyPfn else pfn) (order + 1) m

def buddyFreeBlock (m : Pmm) (pfn order : Nat) : Option Pmm := do
  guard (order < pmmMaxOrder)
  guard (pfnInZone m.zone pfn = true)
  guard (pfn + 2 ^ order ≤ m.zone.endPfn)
  guard (pfn &&& (2 ^ order - 1) = 0)
  guard ((m.pages pfn).refcount = 0)
  guard ((m.pages pfn).buddy = false ∧ (m.pages pfn).reserved = false)
  let m := { m with zone := { m.zone with nrPagesFree := m.zone.nrPagesFree + 2 ^ order } }
  mergeLoop (pmmMaxOrder - 1 - order) pfn order m

/-! ## Giving a range to the zone -/

/-- `__builtin_ctzll`: the lowest bit that is set. -/
def ctzll (n : Nat) : Nat := ((List.range 64).find? fun i => n.testBit i).getD 64

/-- Lowers an order until the block fits before the end. -/
def fitOrder (pfn endPfn : Nat) : Nat → Nat
  | 0 => 0
  | order + 1 =>
    if endPfn < pfn + 2 ^ (order + 1) then fitOrder pfn endPfn order else order + 1

/-- The largest order that is both aligned at `pfn` and fits before the end. -/
def rangeOrder (pfn endPfn : Nat) : Nat :=
  let order := pmmMaxOrder - 1
  let order := if pfn ≠ 0 then (if ctzll pfn < order then ctzll pfn else order) else order
  fitOrder pfn endPfn order

/-- The loop of `buddy_free_range`, for at most `n` blocks. -/
def rangeLoop (endPfn : Nat) : Nat → Nat → Pmm → Option Pmm
  | 0, _, m => some m
  | n + 1, pfn, m =>
    if pfn < endPfn then do
      let m ← buddyFreeBlock m pfn (rangeOrder pfn endPfn)
      rangeLoop endPfn n (pfn + 2 ^ rangeOrder pfn endPfn) m
    else some m

/-- The descriptors of a range are cleared before its pages are freed. -/
def clearRange (pages : Nat → Page) (startPfn endPfn : Nat) : Nat → Page := fun p =>
  if startPfn ≤ p ∧ p < endPfn then
    { pages p with reserved := false, deferred := false, refcount := 0 }
  else pages p

/-- Every block has a page, so the range is done after as many blocks as it has pages. -/
def buddyFreeRange (m : Pmm) (startPfn endPfn : Nat) : Option Pmm := do
  guard (m.zone.startPfn ≤ startPfn ∧ endPfn ≤ m.zone.endPfn)
  guard (startPfn ≤ endPfn)
  let m := { m with
    pages := clearRange m.pages startPfn endPfn
    zone := { m.zone with nrPagesTotal := m.zone.nrPagesTotal + (endPfn - startPfn) } }
  rangeLoop endPfn (endPfn - startPfn) startPfn m

/-! ## The free blocks of a zone -/

namespace Pmm

/-- The free blocks. -/
def free (m : Pmm) : Set Block :=
  {b | b.order < pmmMaxOrder ∧ b.start ∈ (m.zone.freeArea b.order).list}

def Inside (m : Pmm) (b : Block) : Prop :=
  m.zone.startPfn ≤ b.start ∧ b.start + 2 ^ b.order ≤ m.zone.endPfn

def Covered (m : Pmm) (p : Nat) : Prop := ∃ b ∈ m.free, b.Covers p

/-- The size of all free blocks together. -/
def freePages (m : Pmm) : Nat :=
  ∑ o ∈ Finset.range pmmMaxOrder, (m.zone.freeArea o).list.length * 2 ^ o

/-- A page off its list, its flag cleared. -/
def unlist (m : Pmm) (pfn order : Nat) : Pmm :=
  (m.setPage pfn { m.pages pfn with buddy := false }).setArea order
    ⟨(m.zone.freeArea order).list.erase pfn, (m.zone.freeArea order).nrFree - 1⟩

end Pmm

/-- **Lists and descriptors agree**, and the free blocks are aligned, inside the zone, apart from
each other and merged. -/
structure Tidy (m : Pmm) : Prop where
  nodup : ∀ o, (m.zone.freeArea o).list.Nodup
  count : ∀ o, (m.zone.freeArea o).nrFree = (m.zone.freeArea o).list.length
  flagged : ∀ b ∈ m.free, (m.pages b.start).buddy = true ∧ (m.pages b.start).order = b.order
  listed : ∀ p, m.zone.startPfn ≤ p → p < m.zone.endPfn → (m.pages p).buddy = true →
    ⟨p, (m.pages p).order⟩ ∈ m.free
  inside : ∀ b ∈ m.free, m.Inside b
  blocks : Coalesced (pmmMaxOrder - 1) m.free

section Lists

variable {m : Pmm} {b : Block}

theorem Tidy.eq_of_start (h : Tidy m) {c : Block} (hb : b ∈ m.free) (hc : c ∈ m.free)
    (hs : b.start = c.start) : b = c := by
  by_contra hne
  exact h.blocks.apart b hb c hc hne _ b.covers_start (hs ▸ c.covers_start)

theorem Pmm.Inside.pfnInZone (h : m.Inside b) : pfnInZone m.zone b.start = true := by
  have hpos : 0 < 2 ^ b.order := Nat.two_pow_pos _
  simp only [Memory.pfnInZone, Bool.and_eq_true, decide_eq_true_eq]
  simp only [Pmm.Inside] at h
  omega

/-- What the merge loop looks at says whether a block is free. -/
theorem Tidy.mem_free_iff (h : Tidy m) : b ∈ m.free ↔
    pfnInZone m.zone b.start = true ∧ b.start + 2 ^ b.order ≤ m.zone.endPfn ∧
      (m.pages b.start).buddy = true ∧ (m.pages b.start).order = b.order := by
  constructor
  · intro hb
    exact ⟨(h.inside b hb).pfnInZone, (h.inside b hb).2, h.flagged b hb⟩
  · rintro ⟨hzone, -, hflag, horder⟩
    simp only [pfnInZone, Bool.and_eq_true, decide_eq_true_eq] at hzone
    have hm := h.listed _ hzone.1 hzone.2 hflag
    rwa [horder] at hm

theorem free_push (ho : b.order < pmmMaxOrder) :
    (freeAreaPush m b.start b.order).free = insert b m.free := by
  ext c
  obtain ⟨s, o⟩ := b
  obtain ⟨t, k⟩ := c
  simp only [Pmm.free, freeAreaPush, Pmm.setArea, Pmm.setPage, Set.mem_ofPred_eq,
    Set.mem_insert_iff, Block.mk.injEq]
  by_cases hk : k = o
  · subst hk
    rw [update_self, mem_cons]
    tauto
  · rw [update_of_ne hk]
    tauto

theorem free_unlist (h : Tidy m) (hb : b ∈ m.free) :
    (m.unlist b.start b.order).free = m.free \ {b} := by
  ext c
  obtain ⟨s, o⟩ := b
  obtain ⟨t, k⟩ := c
  simp only [Pmm.free, Pmm.unlist, Pmm.setArea, Pmm.setPage, Set.mem_ofPred_eq,
    Set.mem_sdiff, Set.mem_singleton_iff, Block.mk.injEq]
  by_cases hk : k = o
  · subst hk
    rw [update_self, (h.nodup k).mem_erase_iff]
    tauto
  · rw [update_of_ne hk]
    tauto

/-- Both list operations write one descriptor and one list: the size changes by that list. -/
theorem freePages_setArea (pfn : Nat) {o : Nat} (ho : o < pmmMaxOrder) (page : Page) (l : List Nat)
    (n : Nat) : ((m.setPage pfn page).setArea o ⟨l, n⟩).freePages
      + (m.zone.freeArea o).list.length * 2 ^ o = m.freePages + l.length * 2 ^ o := by
  have hmem : o ∈ Finset.range pmmMaxOrder := Finset.mem_range.mpr ho
  have hrest : ∀ k ∈ (Finset.range pmmMaxOrder).erase o,
      (((m.setPage pfn page).setArea o ⟨l, n⟩).zone.freeArea k).list.length * 2 ^ k
        = (m.zone.freeArea k).list.length * 2 ^ k := by
    intro k hk
    simp [Pmm.setArea, Pmm.setPage, update_of_ne (Finset.ne_of_mem_erase hk)]
  rw [Pmm.freePages, Pmm.freePages, ← Finset.add_sum_erase _ _ hmem,
    ← Finset.add_sum_erase (a := o) _ _ hmem, Finset.sum_congr rfl hrest]
  simp only [Pmm.setArea, Pmm.setPage, update_self]
  ring

theorem freePages_push (ho : b.order < pmmMaxOrder) :
    (freeAreaPush m b.start b.order).freePages = m.freePages + 2 ^ b.order := by
  have h := freePages_setArea (m := m) b.start ho
    { m.pages b.start with order := b.order, buddy := true }
    (b.start :: (m.zone.freeArea b.order).list) ((m.zone.freeArea b.order).nrFree + 1)
  rw [length_cons, Nat.succ_mul] at h
  rw [freeAreaPush]
  omega

theorem freePages_unlist (hb : b ∈ m.free) :
    (m.unlist b.start b.order).freePages + 2 ^ b.order = m.freePages := by
  have h := freePages_setArea (m := m) b.start hb.1
    { m.pages b.start with buddy := false }
    ((m.zone.freeArea b.order).list.erase b.start) ((m.zone.freeArea b.order).nrFree - 1)
  rw [← length_erase_add_one hb.2, Nat.succ_mul] at h
  rw [Pmm.unlist]
  omega

theorem pages_push (hp : p ≠ b.start) : (freeAreaPush m b.start b.order).pages p = m.pages p :=
  update_of_ne hp _ _

theorem pages_unlist (hp : p ≠ b.start) : (m.unlist b.start b.order).pages p = m.pages p :=
  update_of_ne hp _ _

/-- **Pushing a block** that is apart from the free ones and whose buddy is not free. -/
theorem Tidy.push (h : Tidy m) (ho : b.order < pmmMaxOrder) (ha : b.Aligned) (hin : m.Inside b)
    (hap : ∀ c ∈ m.free, b.Apart c) (hbud : b.order < pmmMaxOrder - 1 → b.buddy ∉ m.free) :
    Tidy (freeAreaPush m b.start b.order) := by
  have hnew : b ∉ m.free := fun hb => (hap b hb).ne rfl
  have hstart : ∀ c ∈ m.free, c.start ≠ b.start := fun c hc hs =>
    hap c hc _ b.covers_start (hs ▸ c.covers_start)
  refine ⟨?_, ?_, ?_, ?_, ?_, ?_⟩
  · refine (forall_update_iff _ fun _ (a : PmmFreeArea) => a.list.Nodup).mpr
      ⟨?_, fun o _ => h.nodup o⟩
    exact nodup_cons.mpr ⟨fun hm => hnew ⟨ho, hm⟩, h.nodup _⟩
  · refine (forall_update_iff _ fun _ (a : PmmFreeArea) => a.nrFree = a.list.length).mpr
      ⟨?_, fun o _ => h.count o⟩
    exact congrArg (· + 1) (h.count _)
  · rw [free_push ho]
    rintro c (rfl | hc)
    · simp [freeAreaPush, Pmm.setArea, Pmm.setPage]
    · rw [pages_push (hstart c hc)]
      exact h.flagged c hc
  · rw [free_push ho]
    intro p h1 h2 h3
    by_cases hp : p = b.start
    · subst hp
      refine .inl ?_
      simp [freeAreaPush, Pmm.setArea, Pmm.setPage]
    · rw [pages_push hp] at h3 ⊢
      exact .inr (h.listed p h1 h2 h3)
  · rw [free_push ho]
    rintro c (rfl | hc)
    exacts [hin, h.inside c hc]
  · rw [free_push ho]
    exact h.blocks.insert ha hap hbud

/-- **Taking a free block off its list.** -/
theorem Tidy.unlist (h : Tidy m) (hb : b ∈ m.free) : Tidy (m.unlist b.start b.order) := by
  refine ⟨?_, ?_, ?_, ?_, ?_, ?_⟩
  · exact (forall_update_iff _ fun _ (a : PmmFreeArea) => a.list.Nodup).mpr
      ⟨(h.nodup _).erase _, fun o _ => h.nodup o⟩
  · refine (forall_update_iff _ fun _ (a : PmmFreeArea) => a.nrFree = a.list.length).mpr
      ⟨?_, fun o _ => h.count o⟩
    rw [h.count, length_erase_of_mem hb.2]
  · rw [free_unlist h hb]
    rintro c ⟨hc, hne⟩
    rw [pages_unlist fun hs => hne (h.eq_of_start hc hb hs)]
    exact h.flagged c hc
  · rw [free_unlist h hb]
    intro p h1 h2 h3
    have hp : p ≠ b.start := by
      rintro rfl
      simp [Pmm.unlist, Pmm.setArea, Pmm.setPage] at h3
    rw [pages_unlist hp] at h3 ⊢
    exact ⟨h.listed p h1 h2 h3, fun heq => hp (congrArg Block.start heq)⟩
  · rw [free_unlist h hb]
    exact fun c hc => h.inside c hc.1
  · rw [free_unlist h hb]
    exact h.blocks.mono Set.sdiff_subset

end Lists

/-! ## A block in hand -/

/-- A block that is in no list and apart from all that are. -/
structure InHand (b : Block) (m : Pmm) : Prop where
  tidy : Tidy m
  order_lt : b.order < pmmMaxOrder
  aligned : b.Aligned
  inside : m.Inside b
  apart : ∀ c ∈ m.free, b.Apart c

/-- From `b` in hand to `c` in hand: the free pages and the block together are the same pages, and
no descriptor of another page is touched. -/
structure Shift (b c : Block) (m m' : Pmm) : Prop where
  size : m'.freePages + 2 ^ c.order = m.freePages + 2 ^ b.order
  covered : ∀ p, m'.Covered p ∨ c.Covers p ↔ m.Covered p ∨ b.Covers p
  zone : m'.zone = { m.zone with freeArea := m'.zone.freeArea }
  pages : ∀ p, ¬ m.Covered p → ¬ b.Covers p → m'.pages p = m.pages p
  reserved : ∀ p, (m'.pages p).reserved = (m.pages p).reserved

theorem Shift.refl (b : Block) (m : Pmm) : Shift b b m m :=
  ⟨rfl, fun _ => Iff.rfl, rfl, fun _ _ _ => rfl, fun _ => rfl⟩

theorem Shift.trans {c d : Block} {m m' m'' : Pmm} (h : Shift b c m m') (h' : Shift c d m' m'') :
    Shift b d m m'' := by
  refine ⟨h'.size.trans h.size, fun p => (h'.covered p).trans (h.covered p), ?_, ?_,
    fun p => (h'.reserved p).trans (h.reserved p)⟩
  · rw [h'.zone, h.zone]
  · intro p h1 h2
    have hnot : ¬ (m'.Covered p ∨ c.Covers p) := by
      rw [h.covered p]
      exact not_or.mpr ⟨h1, h2⟩
    rw [h'.pages p (fun hc => hnot (.inl hc)) (fun hc => hnot (.inr hc)), h.pages p h1 h2]

section InHand

variable {m : Pmm} {b : Block}

theorem covered_push (ho : b.order < pmmMaxOrder) (p : Nat) :
    (freeAreaPush m b.start b.order).Covered p ↔ m.Covered p ∨ b.Covers p := by
  simp only [Pmm.Covered, free_push ho]
  constructor
  · rintro ⟨c, rfl | hc, hp⟩
    exacts [.inr hp, .inl ⟨c, hc, hp⟩]
  · rintro (⟨c, hc, hp⟩ | hp)
    exacts [⟨c, .inr hc, hp⟩, ⟨b, .inl rfl, hp⟩]

theorem covered_unlist (h : Tidy m) (hb : b ∈ m.free) (p : Nat) :
    (m.unlist b.start b.order).Covered p ∨ b.Covers p ↔ m.Covered p := by
  simp only [Pmm.Covered, free_unlist h hb]
  constructor
  · rintro (⟨c, hc, hp⟩ | hp)
    exacts [⟨c, hc.1, hp⟩, ⟨b, hb, hp⟩]
  · rintro ⟨c, hc, hp⟩
    by_cases hcb : c = b
    · exact .inr (hcb ▸ hp)
    · exact .inl ⟨c, ⟨hc, hcb⟩, hp⟩

theorem reserved_setPage {q : Nat} (hr : page.reserved = (m.pages q).reserved) :
    ∀ p, ((m.setPage q page).pages p).reserved = (m.pages p).reserved :=
  (forall_update_iff _ fun p (k : Page) => k.reserved = (m.pages p).reserved).mpr
    ⟨hr, fun _ _ => rfl⟩

theorem reserved_push :
    ∀ p, ((freeAreaPush m b.start b.order).pages p).reserved = (m.pages p).reserved :=
  reserved_setPage (q := b.start) rfl

theorem reserved_unlist :
    ∀ p, ((m.unlist b.start b.order).pages p).reserved = (m.pages p).reserved :=
  reserved_setPage (q := b.start) rfl

theorem InHand.of_unlist (h : Tidy m) (hb : b ∈ m.free) :
    InHand b (m.unlist b.start b.order) := by
  refine ⟨h.unlist hb, hb.1, h.blocks.aligned b hb, h.inside b hb, ?_⟩
  rw [free_unlist h hb]
  exact fun c hc => h.blocks.apart b hb c hc.1 fun heq => hc.2 heq.symm

/-- **Merging**: the buddy comes off its list, and the two are one block. -/
theorem InHand.merge (h : InHand b m) (hlt : b.order < pmmMaxOrder - 1) (hbud : b.buddy ∈ m.free) :
    InHand b.merge (m.unlist b.buddy.start b.order) ∧
      Shift b b.merge m (m.unlist b.buddy.start b.order) := by
  have hcov := Block.merge_covers h.aligned
  have hun := covered_unlist h.tidy hbud
  have hnew := InHand.of_unlist h.tidy hbud
  refine ⟨⟨hnew.tidy, by rw [Block.merge_order]; omega, Block.merge_aligned h.aligned, ?_, ?_⟩,
    ⟨?_, ?_, rfl, ?_, reserved_unlist (b := b.buddy)⟩⟩
  · -- both halves are in the zone
    have h1 := h.inside
    have h2 := h.tidy.inside _ hbud
    simp only [Pmm.Inside, Block.merge, Block.buddy_order, Pmm.unlist, Pmm.setArea, Pmm.setPage,
      pow_succ] at h1 h2 ⊢
    rcases Block.buddy_cases h.aligned with ⟨-, hs⟩ | ⟨-, hs⟩ <;> omega
  · intro c hc p hp
    rcases (hcov p).mp hp with hp | hp
    · have hc' : c ∈ m.free := by
        rw [show b.order = b.buddy.order from rfl, free_unlist h.tidy hbud] at hc
        exact hc.1
      exact h.apart c hc' p hp
    · exact hnew.apart c hc p hp
  · have hsize := freePages_unlist hbud
    rw [Block.buddy_order] at hsize
    rw [Block.merge_order, pow_succ]
    omega
  · intro p
    rw [hcov p, ← hun p, Block.buddy_order]
    tauto
  · intro p h1 _
    refine pages_unlist (b := b.buddy) fun hp => h1 ⟨b.buddy, hbud, ?_⟩
    exact hp ▸ b.buddy.covers_start

theorem buddy_lower {o : Nat} (hd : 2 ^ (o + 1) ∣ p) : (Block.mk p o).buddy = ⟨p + 2 ^ o, o⟩ := by
  have ha : (Block.mk p o).Aligned := Nat.dvd_trans (pow_dvd_pow 2 (Nat.le_succ o)) hd
  rcases Block.buddy_cases ha with ⟨-, h⟩ | ⟨h1, h2⟩
  · exact congrArg₂ Block.mk h rfl
  · -- the start of the upper half is not a multiple of twice the size
    dsimp only at h1 h2
    have hdiff := (Nat.dvd_add_right h1).mp (h2 ▸ hd)
    exact absurd (Nat.le_of_dvd (Nat.two_pow_pos o) hdiff) (by rw [pow_succ]; omega)

/-- **Splitting**: the upper half goes on its list, the lower one stays in hand. -/
theorem InHand.split {o : Nat} (h : InHand ⟨pfn, o + 1⟩ m) :
    InHand ⟨pfn, o⟩ (freeAreaPush m (pfn + 2 ^ o) o) ∧
      Shift ⟨pfn, o + 1⟩ ⟨pfn, o⟩ m (freeAreaPush m (pfn + 2 ^ o) o) := by
  have hlow : (Block.mk pfn o).Aligned :=
    Nat.dvd_trans (pow_dvd_pow 2 (Nat.le_succ o)) h.aligned
  have hbud : (Block.mk pfn o).buddy = ⟨pfn + 2 ^ o, o⟩ := buddy_lower h.aligned
  have hupa : (Block.mk (pfn + 2 ^ o) o).Aligned := hbud ▸ Block.buddy_aligned hlow
  have hlt : o < pmmMaxOrder := Nat.lt_of_succ_lt h.order_lt
  have hin := h.inside
  have hsub : ∀ p, (Block.mk pfn o).Covers p ∨ (Block.mk (pfn + 2 ^ o) o).Covers p ↔
      (Block.mk pfn (o + 1)).Covers p := by
    simp only [Block.Covers, pow_succ]
    omega
  have hupap : ∀ c ∈ m.free, (Block.mk (pfn + 2 ^ o) o).Apart c :=
    fun c hc p hp => h.apart c hc p ((hsub p).mp (.inr hp))
  have htidy : Tidy (freeAreaPush m (pfn + 2 ^ o) o) := by
    refine h.tidy.push (b := ⟨pfn + 2 ^ o, o⟩) hlt hupa ?_ hupap ?_
    · simp only [Pmm.Inside, pow_succ] at hin ⊢
      omega
    · intro _ hm
      rw [← hbud, Block.buddy_buddy] at hm
      exact h.apart _ hm pfn ((hsub pfn).mp (.inl (Block.covers_start _)))
        (Block.covers_start ⟨pfn, o⟩)
  refine ⟨⟨htidy, hlt, hlow, ?_, ?_⟩, ⟨?_, ?_, rfl, ?_, ?_⟩⟩
  · simp only [Pmm.Inside, pow_succ, freeAreaPush, Pmm.setArea, Pmm.setPage] at hin ⊢
    omega
  · rw [free_push (b := ⟨pfn + 2 ^ o, o⟩) hlt]
    rintro c (rfl | hc) p hp
    · intro hp'
      simp only [Block.Covers] at hp hp'
      omega
    · exact h.apart c hc p ((hsub p).mp (.inl hp))
  · have hsize := freePages_push (m := m) (b := ⟨pfn + 2 ^ o, o⟩) hlt
    rw [hsize, pow_succ]
    ring
  · intro p
    rw [covered_push (b := ⟨pfn + 2 ^ o, o⟩) hlt p, ← hsub p]
    tauto
  · intro p _ h2
    refine pages_push (b := ⟨pfn + 2 ^ o, o⟩) fun hp => h2 ((hsub p).mp (.inr ?_))
    exact hp ▸ Block.covers_start _
  · exact reserved_push (b := ⟨pfn + 2 ^ o, o⟩)

end InHand

/-! ## The loops -/

section Loops

variable {m : Pmm} {b : Block}

theorem InHand.not_covered (h : InHand b m) (hp : b.Covers p) : ¬ m.Covered p := by
  rintro ⟨c, hc, hcp⟩
  exact h.apart c hc p hp hcp

theorem InHand.buddy_false (h : InHand b m) : (m.pages b.start).buddy = false := by
  rw [Bool.eq_false_iff]
  intro hb
  have hin := h.inside.pfnInZone
  simp only [pfnInZone, Bool.and_eq_true, decide_eq_true_eq] at hin
  have hm := h.tidy.listed b.start hin.1 hin.2 hb
  exact h.not_covered b.covers_start ⟨_, hm, Block.covers_start ⟨b.start, _⟩⟩

theorem splitDown_spec {n : Nat} (h : InHand ⟨pfn, order + n⟩ m) :
    InHand ⟨pfn, order⟩ (splitDown pfn order n m) ∧
      Shift ⟨pfn, order + n⟩ ⟨pfn, order⟩ m (splitDown pfn order n m) := by
  induction n generalizing m with
  | zero => exact ⟨h, Shift.refl _ _⟩
  | succ n ih =>
    obtain ⟨hhalf, hshift⟩ := InHand.split (o := order + n) h
    obtain ⟨hlast, hrest⟩ := ih hhalf
    exact ⟨hlast, hshift.trans hrest⟩

/-- **The merge loop** ends with a block in hand whose buddy is not free, and pushes it. -/
theorem mergeLoop_spec {n : Nat} (h : InHand b m) (hn : b.order + n = pmmMaxOrder - 1) :
    ∃ c m₁, mergeLoop n b.start b.order m = some (freeAreaPush m₁ c.start c.order) ∧
      InHand c m₁ ∧ Shift b c m m₁ ∧ (c.order < pmmMaxOrder - 1 → c.buddy ∉ m₁.free) := by
  induction n generalizing b m with
  | zero => exact ⟨b, m, rfl, h, Shift.refl _ _, fun hlt => by omega⟩
  | succ n ih =>
    rw [mergeLoop]
    simp only [show b.start ^^^ 2 ^ b.order = b.buddy.start from rfl]
    by_cases hbud : b.buddy ∈ m.free
    swap
    · -- one of the checks stops the loop
      refine ⟨b, m, ?_, h, Shift.refl _ _, fun _ => hbud⟩
      by_contra hgo
      simp only [ite_eq_left_iff, not_forall, exists_prop, not_or, not_not,
        Bool.not_eq_false] at hgo
      obtain ⟨hzone, hend, hflag, -⟩ := hgo
      exact hbud (h.tidy.mem_free_iff.mpr ⟨hzone, Nat.le_of_not_lt hend, hflag⟩)
    obtain ⟨hzone, hend, hflag⟩ := h.tidy.mem_free_iff.mp hbud
    rw [Block.buddy_order] at hend hflag
    rw [if_neg (not_not.mpr hzone), if_neg (Nat.not_lt.mpr hend), if_neg (by simp [hflag])]
    have hcount : 0 < (m.zone.freeArea b.order).nrFree := by
      rw [h.tidy.count]
      exact length_pos_of_mem hbud.2
    obtain ⟨hmerged, hshift⟩ := h.merge (by omega) hbud
    obtain ⟨c, m₁, hrun, hc, hsh, hno⟩ := ih hmerged (by rw [Block.merge_order]; omega)
    refine ⟨c, m₁, ?_, hc, hshift.trans hsh, hno⟩
    have hmin : (if b.buddy.start < b.start then b.buddy.start else b.start)
        = b.merge.start := by
      simp only [Block.merge]
      split_ifs <;> omega
    rw [freeAreaRemove, hmin]
    simp only [guard, hcount, if_true]
    exact hrun

end Loops

/-! ## What the functions do -/

/-- The pages in `P`, `k` of them, have been added to the free ones. -/
structure Added (P : Nat → Prop) (k : Nat) (m m' : Pmm) : Prop where
  tidy : Tidy m'
  size : m'.freePages = m.freePages + k
  covered : ∀ p, m'.Covered p ↔ m.Covered p ∨ P p
  zone : m'.zone = { m.zone with
    freeArea := m'.zone.freeArea
    nrPagesFree := m.zone.nrPagesFree + k }
  pages : ∀ p, ¬ m.Covered p → ¬ P p → m'.pages p = m.pages p
  reserved : ∀ p, (m'.pages p).reserved = (m.pages p).reserved

/-- A block has been taken out of the free pages. -/
structure Taken (b : Block) (m m' : Pmm) : Prop where
  inHand : InHand b m'
  size : m'.freePages + 2 ^ b.order = m.freePages
  covered : ∀ p, m'.Covered p ∨ b.Covers p ↔ m.Covered p
  zone : m'.zone = { m.zone with
    freeArea := m'.zone.freeArea
    nrPagesFree := m.zone.nrPagesFree - 2 ^ b.order }
  reserved : ∀ p, (m'.pages p).reserved = (m.pages p).reserved

section Functions

variable {m : Pmm} {b : Block}

/-- A descriptor that is not the first of a free block can be written, if not flagged. -/
theorem Tidy.setPage (h : Tidy m) (hp : ∀ c ∈ m.free, c.start ≠ p)
    (hb : page.buddy = false) : Tidy (m.setPage p page) := by
  refine ⟨h.nodup, h.count, ?_, ?_, h.inside, h.blocks⟩
  · intro c hc
    simp only [Pmm.setPage, update_of_ne (hp c hc)]
    exact h.flagged c hc
  · intro q h1 h2 h3
    by_cases hq : q = p
    · subst hq
      simp [Pmm.setPage, hb] at h3
    · simp only [Pmm.setPage, update_of_ne hq] at h3 ⊢
      exact h.listed q h1 h2 h3

theorem Tidy.setFree (h : Tidy m) (k : Nat) :
    Tidy { m with zone := { m.zone with nrPagesFree := k } } :=
  { h with }

theorem InHand.setPage (h : InHand b m) (hp : ∀ c ∈ m.free, c.start ≠ p)
    (hb : page.buddy = false) : InHand b (m.setPage p page) :=
  { h with tidy := h.tidy.setPage hp hb }

/-- **Freeing a block in hand.** -/
theorem buddyFreeBlock_spec (h : InHand b m) (href : (m.pages b.start).refcount = 0)
    (hres : (m.pages b.start).reserved = false) :
    ∃ m', buddyFreeBlock m b.start b.order = some m' ∧ Added b.Covers (2 ^ b.order) m m' := by
  have hflag := h.buddy_false
  have hin := h.inside
  have halign : b.start &&& (2 ^ b.order - 1) = 0 := by
    rw [Nat.and_two_pow_sub_one_eq_mod]
    exact Nat.mod_eq_zero_of_dvd h.aligned
  have hcounted : InHand b
      { m with zone := { m.zone with nrPagesFree := m.zone.nrPagesFree + 2 ^ b.order } } :=
    { h with tidy := h.tidy.setFree _ }
  have hlt := h.order_lt
  obtain ⟨c, m₁, hrun, hc, hsh, hno⟩ := mergeLoop_spec hcounted
    (n := pmmMaxOrder - 1 - b.order) (by omega)
  refine ⟨_, ?_, hc.tidy.push hc.order_lt hc.aligned hc.inside hc.apart hno, ?_, ?_, ?_, ?_, ?_⟩
  · rw [buddyFreeBlock]
    simp only [guard, h.order_lt, hin.pfnInZone, hin.2, halign, href, hflag, hres,
      and_self, if_true]
    exact hrun
  · rw [freePages_push hc.order_lt]
    exact hsh.size
  · intro p
    rw [covered_push hc.order_lt]
    exact hsh.covered p
  · have hz := hsh.zone
    simp only [freeAreaPush, Pmm.setArea, Pmm.setPage]
    rw [hz]
  · intro p h1 h2
    have hcp : ¬ c.Covers p := fun hcp => by
      rcases (hsh.covered p).mp (.inr hcp) with hh | hh
      exacts [h1 hh, h2 hh]
    have hp : p ≠ c.start := by
      rintro rfl
      exact hcp c.covers_start
    rw [pages_push hp]
    exact hsh.pages p h1 h2
  · intro p
    rw [reserved_push]
    exact hsh.reserved p

end Functions

/-! ## The search, and the pages of a range -/

section Search

variable {m : Pmm}

/-- **Taking the first block of a list** and splitting it down. -/
theorem allocTake_spec (h : Tidy m) {o : Nat} {rest : List Nat} (hle : order ≤ o)
    (ho : o < pmmMaxOrder) (hl : (m.zone.freeArea o).list = pfn :: rest) (n : Nat) :
    ∃ m', allocScan order (n + 1) o m = some (some pfn, m') ∧ Taken ⟨pfn, order⟩ m m' := by
  have hb : (⟨pfn, o⟩ : Block) ∈ m.free := ⟨ho, hl ▸ mem_cons_self⟩
  have hflag := h.flagged _ hb
  have hpop : (m.setPage pfn { m.pages pfn with buddy := false }).setArea o
      ⟨rest, (m.zone.freeArea o).nrFree - 1⟩ = m.unlist pfn o := by
    rw [Pmm.unlist, hl, erase_cons_head]
  obtain ⟨d, rfl⟩ := Nat.exists_eq_add_of_le hle
  have hun := InHand.of_unlist h hb
  obtain ⟨hhand, hsh⟩ := splitDown_spec hun
  have hrun : allocScan order (n + 1) (order + d) m
      = some (some pfn, handOut (splitDown pfn order d (m.unlist pfn (order + d))) pfn order) := by
    rw [allocScan, hl]
    simp only [guard, if_pos hflag.1, if_pos hflag.2, Nat.add_sub_cancel_left]
    rw [← hpop]
    rfl
  refine ⟨_, hrun, ?_⟩
  have hnot : ∀ c ∈ (splitDown pfn order d (m.unlist pfn (order + d))).free, c.start ≠ pfn :=
    fun c hc hs => hhand.apart c hc pfn (Block.covers_start ⟨pfn, order⟩) (hs ▸ c.covers_start)
  have hset : InHand ⟨pfn, order⟩ ((splitDown pfn order d (m.unlist pfn (order + d))).setPage pfn
      { (splitDown pfn order d (m.unlist pfn (order + d))).pages pfn with
        order := order, refcount := 1 }) := hhand.setPage hnot hhand.buddy_false
  refine ⟨⟨hset.tidy.setFree _, hset.order_lt, hset.aligned, hset.inside, hset.apart⟩,
    ?_, ?_, ?_, ?_⟩
  · exact hsh.size.trans (freePages_unlist hb)
  · exact fun p => (hsh.covered p).trans (covered_unlist h hb p)
  · have hz := hsh.zone
    simp only [handOut, Pmm.setPage]
    rw [hz]
    rfl
  · intro p
    rw [handOut, reserved_setPage (by rfl), hsh.reserved]
    exact reserved_unlist (b := ⟨pfn, order + d⟩) p

/-- **The search** takes a block, or there is none of the orders it looks at. -/
theorem allocScan_spec (h : Tidy m) {n o : Nat} (hle : order ≤ o) (hn : o + n = pmmMaxOrder) :
    (allocScan order n o m = some (none, m) ∧ ∀ b ∈ m.free, b.order < o) ∨
      ∃ pfn m', allocScan order n o m = some (some pfn, m') ∧ Taken ⟨pfn, order⟩ m m' := by
  induction n generalizing o with
  | zero => exact .inl ⟨rfl, fun b hb => lt_of_lt_of_eq hb.1 hn.symm⟩
  | succ n ih =>
    cases hl : (m.zone.freeArea o).list with
    | nil =>
      rw [allocScan, hl]
      rcases ih (o := o + 1) (by omega) (by omega) with ⟨hrun, hno⟩ | hsome
      · refine .inl ⟨hrun, fun b hb => ?_⟩
        have hlt := hno b hb
        rcases Nat.lt_or_ge b.order o with hlo | hge
        · exact hlo
        · obtain rfl : b.order = o := by omega
          have hm := hb.2
          rw [hl] at hm
          cases hm
      · exact .inr hsome
    | cons pfn rest =>
      exact .inr ⟨pfn, allocTake_spec h hle (by omega) hl n⟩

theorem buddyAllocBlock_spec (h : Tidy m) (ho : order < pmmMaxOrder) :
    (buddyAllocBlock m order = some (none, m) ∧ ∀ b ∈ m.free, b.order < order) ∨
      ∃ pfn m', buddyAllocBlock m order = some (some pfn, m') ∧ Taken ⟨pfn, order⟩ m m' := by
  have heq : buddyAllocBlock m order = allocScan order (pmmMaxOrder - order) order m := by
    rw [buddyAllocBlock]
    simp only [guard, ho, if_true]
    rfl
  rw [heq]
  exact allocScan_spec h (le_refl _) (by omega)

/-- The bits below the lowest one that is set are zero. -/
theorem two_pow_ctzll_dvd (n : Nat) : 2 ^ ctzll n ∣ n := by
  refine Nat.dvd_of_mod_eq_zero (Nat.eq_of_testBit_eq fun i => ?_)
  by_cases hi : i < ctzll n
  swap
  · simp [hi]
  have hbit : n.testBit i = false := by
    rw [ctzll] at hi
    cases hf : (List.range 64).find? (fun i => n.testBit i) with
    | none =>
      rw [hf] at hi
      have := List.find?_eq_none.mp hf i (mem_range.mpr (by simpa using hi))
      simpa using this
    | some k =>
      rw [hf] at hi
      simpa using (List.find?_range_eq_some.mp hf).2.2 i (by simpa using hi)
  simp [hbit]

theorem fitOrder_spec (hlt : pfn < endPfn) (o : Nat) :
    fitOrder pfn endPfn o ≤ o ∧ pfn + 2 ^ fitOrder pfn endPfn o ≤ endPfn := by
  induction o with
  | zero => exact ⟨le_refl _, hlt⟩
  | succ o ih =>
    rw [fitOrder]
    split_ifs with h
    exacts [⟨ih.1.trans (Nat.le_succ o), ih.2⟩, ⟨le_refl _, Nat.le_of_not_lt h⟩]

/-- **The block of the range loop** is of an order there is, aligned, and fits. -/
theorem rangeOrder_spec (hlt : pfn < endPfn) :
    rangeOrder pfn endPfn < pmmMaxOrder ∧ 2 ^ rangeOrder pfn endPfn ∣ pfn ∧
      pfn + 2 ^ rangeOrder pfn endPfn ≤ endPfn := by
  refine ⟨?_, ?_, (fitOrder_spec hlt _).2⟩
  · rw [rangeOrder]
    have hmax : pmmMaxOrder = 11 := rfl
    refine lt_of_le_of_lt (fitOrder_spec hlt _ |>.1) ?_
    split_ifs <;> omega
  · refine Nat.dvd_trans (pow_dvd_pow 2 (fitOrder_spec hlt _ |>.1)) ?_
    by_cases h0 : pfn = 0
    · rw [h0]
      exact Nat.dvd_zero _
    · rw [if_pos h0]
      split_ifs with hc
      · exact two_pow_ctzll_dvd pfn
      · exact Nat.dvd_trans (pow_dvd_pow 2 (Nat.le_of_not_lt hc)) (two_pow_ctzll_dvd pfn)

end Search

/-! ## Giving a range -/

section Range

variable {m : Pmm}

theorem Added.trans {P Q : Nat → Prop} {j k : Nat} {m' m'' : Pmm} (h : Added P j m m')
    (h' : Added Q k m' m'') : Added (fun p => P p ∨ Q p) (j + k) m m'' := by
  refine ⟨h'.tidy, ?_, ?_, ?_, ?_, fun p => (h'.reserved p).trans (h.reserved p)⟩
  · rw [h'.size, h.size, Nat.add_assoc]
  · intro p
    rw [h'.covered, h.covered, or_assoc]
  · rw [h'.zone, h.zone, Nat.add_assoc]
  · intro p h1 h2
    have hnot : ¬ m'.Covered p := by
      rw [h.covered]
      exact not_or.mpr ⟨h1, fun hp => h2 (.inl hp)⟩
    rw [h'.pages p hnot fun hq => h2 (.inr hq), h.pages p h1 fun hp => h2 (.inl hp)]

theorem Added.congr {P Q : Nat → Prop} {j k : Nat} {m' : Pmm} (h : Added P j m m')
    (hPQ : ∀ p, P p ↔ Q p) (hjk : j = k) : Added Q k m m' := by
  obtain rfl : P = Q := funext fun p => propext (hPQ p)
  exact hjk ▸ h

theorem Added.of_empty (h : Tidy m) (hge : endPfn ≤ pfn) :
    Added (fun p => pfn ≤ p ∧ p < endPfn) (endPfn - pfn) m m := by
  refine ⟨h, by omega, fun p => ?_, ?_, fun _ _ _ => rfl, fun _ => rfl⟩
  · rw [or_iff_left (by omega)]
  · rw [Nat.sub_eq_zero_of_le hge]
    rfl

/-- **The range loop** adds the pages that are left, when none of them is free, reserved or
referred to. -/
theorem rangeLoop_spec (n : Nat) (h : Tidy m) (hn : endPfn - pfn ≤ n)
    (hlo : m.zone.startPfn ≤ pfn) (hhi : endPfn ≤ m.zone.endPfn)
    (hpages : ∀ p, pfn ≤ p → p < endPfn →
      ¬ m.Covered p ∧ (m.pages p).reserved = false ∧ (m.pages p).refcount = 0) :
    ∃ m', rangeLoop endPfn n pfn m = some m' ∧
      Added (fun p => pfn ≤ p ∧ p < endPfn) (endPfn - pfn) m m' := by
  induction n generalizing pfn m with
  | zero => exact ⟨m, rfl, .of_empty h (by omega)⟩
  | succ n ih =>
    rw [rangeLoop]
    by_cases hlt : pfn < endPfn
    swap
    · rw [if_neg hlt]
      exact ⟨m, rfl, .of_empty h (by omega)⟩
    rw [if_pos hlt]
    obtain ⟨horder, halign, hfits⟩ := rangeOrder_spec hlt
    generalize rangeOrder pfn endPfn = o at horder halign hfits ⊢
    have hhand : InHand ⟨pfn, o⟩ m := by
      refine ⟨h, horder, halign, ⟨hlo, hfits.trans hhi⟩, fun c hc p hp hcp => ?_⟩
      exact (hpages p hp.1 (lt_of_lt_of_le hp.2 hfits)).1 ⟨c, hc, hcp⟩
    obtain ⟨-, hres, href⟩ := hpages pfn (le_refl _) hlt
    obtain ⟨m₁, hfree, hadd⟩ := buddyFreeBlock_spec hhand href hres
    have hz := hadd.zone
    have hpages₁ : ∀ p, pfn + 2 ^ o ≤ p → p < endPfn →
        ¬ m₁.Covered p ∧ (m₁.pages p).reserved = false ∧ (m₁.pages p).refcount = 0 := by
      intro p h1 h2
      obtain ⟨hc, hr, hf⟩ := hpages p (by omega) h2
      have hout : ¬ (Block.mk pfn o).Covers p := fun hp => by
        have := hp.2
        dsimp only at this
        omega
      rw [hadd.covered, hadd.pages p hc hout]
      exact ⟨not_or.mpr ⟨hc, hout⟩, hr, hf⟩
    obtain ⟨m', hrun, hrest⟩ := @ih (pfn + 2 ^ o) _ hadd.tidy (by omega)
      (by rw [hz]; dsimp only; omega) (by rw [hz]; exact hhi) hpages₁
    refine ⟨m', ?_, (hadd.trans hrest).congr (fun p => ?_) (by dsimp only; omega)⟩
    · rw [hfree]
      exact hrun
    · simp only [Block.Covers]
      omega

theorem Tidy.clearRange (h : Tidy m) (startPfn endPfn k : Nat) :
    Tidy { m with
      pages := clearRange m.pages startPfn endPfn
      zone := { m.zone with nrPagesTotal := k } } := by
  have hflag : ∀ p, (Memory.clearRange m.pages startPfn endPfn p).buddy = (m.pages p).buddy := by
    intro p
    rw [Memory.clearRange]
    split_ifs <;> rfl
  have horder : ∀ p, (Memory.clearRange m.pages startPfn endPfn p).order = (m.pages p).order := by
    intro p
    rw [Memory.clearRange]
    split_ifs <;> rfl
  refine ⟨h.nodup, h.count, ?_, ?_, h.inside, h.blocks⟩
  · intro b hb
    rw [hflag, horder]
    exact h.flagged b hb
  · intro p h1 h2 h3
    rw [hflag] at h3
    rw [horder]
    exact h.listed p h1 h2 h3

/-- **Giving a range** of which no page is free. -/
theorem buddyFreeRange_spec {startPfn : Nat} (h : Tidy m)
    (hlo : m.zone.startPfn ≤ startPfn) (hhi : endPfn ≤ m.zone.endPfn) (hle : startPfn ≤ endPfn)
    (hnot : ∀ p, startPfn ≤ p → p < endPfn → ¬ m.Covered p) :
    ∃ m', buddyFreeRange m startPfn endPfn = some m' ∧
      Added (fun p => startPfn ≤ p ∧ p < endPfn) (endPfn - startPfn)
        { m with
          pages := clearRange m.pages startPfn endPfn
          zone := { m.zone with
            nrPagesTotal := m.zone.nrPagesTotal + (endPfn - startPfn) } } m' := by
  obtain ⟨m', hrun, hadd⟩ := rangeLoop_spec (n := endPfn - startPfn)
    (h.clearRange startPfn endPfn (m.zone.nrPagesTotal + (endPfn - startPfn)))
    (le_refl _) hlo hhi (fun p h1 h2 => by
      refine ⟨hnot p h1 h2, ?_⟩
      simp only [clearRange, if_pos (And.intro h1 h2)]
      exact ⟨trivial, trivial⟩)
  refine ⟨m', ?_, hadd⟩
  rw [buddyFreeRange]
  simp only [guard, if_pos (And.intro hlo hhi), if_pos hle]
  exact hrun

end Range

theorem InHand.of_added {P : Nat → Prop} {k : Nat} {m m' : Pmm} (h : InHand b m)
    (hadd : Added P k m m') (hP : ∀ p, b.Covers p → ¬ P p) : InHand b m' := by
  refine ⟨hadd.tidy, h.order_lt, h.aligned, ?_, ?_⟩
  · rw [Pmm.Inside, hadd.zone]
    exact h.inside
  · intro c hc p hp hcp
    rcases (hadd.covered p).mp ⟨c, hc, hcp⟩ with h1 | h1
    exacts [h.not_covered hp h1, hP p hp h1]

/-! ## Runs -/

/-- The allocator, with the blocks that are handed out and the pages the zone was ever given. -/
structure World where
  pmm : Pmm
  held : List Block
  given : Set Nat

inductive Call where
  | freeRange (startPfn endPfn : Nat)
  | alloc (order : Nat)
  | free (b : Block)

namespace World

/-- What the callers keep to: a range is given once, an order exists, and a block that is freed is
one that was handed out, at that order. -/
def Allowed (w : World) : Call → Prop
  | .freeRange startPfn endPfn =>
    w.pmm.zone.startPfn ≤ startPfn ∧ endPfn ≤ w.pmm.zone.endPfn ∧ startPfn ≤ endPfn ∧
      ∀ p, startPfn ≤ p → p < endPfn → p ∉ w.given
  | .alloc order => order < pmmMaxOrder
  | .free b => b ∈ w.held

/-- One call; `none` where an assertion fails.  The last reference is dropped before a block is
freed, as `pmm_free_pages` does. -/
def call (w : World) : Call → Option World
  | .freeRange startPfn endPfn => do
    let m ← buddyFreeRange w.pmm startPfn endPfn
    return { w with pmm := m, given := w.given ∪ {p | startPfn ≤ p ∧ p < endPfn} }
  | .alloc order => do
    let (page, m) ← buddyAllocBlock w.pmm order
    match page with
    | none => return { w with pmm := m }
    | some pfn => return { w with pmm := m, held := ⟨pfn, order⟩ :: w.held }
  | .free b => do
    let m := w.pmm.setPage b.start { w.pmm.pages b.start with refcount := 0 }
    let m ← buddyFreeBlock m b.start b.order
    return { w with pmm := m, held := w.held.erase b }

/-- One call that its caller may make. -/
def Step (w w' : World) : Prop := ∃ c, w.Allowed c ∧ w.call c = some w'

/-- A zone just initialised: nothing given, and no descriptor of its pages flagged. -/
structure Initial (w : World) : Prop where
  zone : w.pmm.zone = buddyZoneInit w.pmm.zone.startPfn w.pmm.zone.endPfn
  flags : ∀ p, (w.pmm.pages p).buddy = false
  held : w.held = []
  given : w.given = ∅

/-- Every state a run can reach. -/
def Reachable (w : World) : Prop := Lib.Reachable Initial Step w

/-- **The invariant.** -/
structure Sound (w : World) : Prop where
  tidy : Tidy w.pmm
  total : w.pmm.zone.nrPagesFree = w.pmm.freePages
  held : ∀ c ∈ w.held, InHand c w.pmm
  heldApart : w.held.Pairwise Block.Apart
  usable : ∀ p ∈ w.given, (w.pmm.pages p).reserved = false
  covered : ∀ p, p ∈ w.given ↔ w.pmm.Covered p ∨ ∃ c ∈ w.held, c.Covers p

variable {w : World}

theorem Sound.of_initial (h : Initial w) : Sound w := by
  have hlist : ∀ o, w.pmm.zone.freeArea o = ⟨[], 0⟩ := by
    intro o
    rw [h.zone]
    rfl
  have hfree : w.pmm.free = ∅ := by
    simp [Pmm.free, hlist]
  refine ⟨⟨?_, ?_, ?_, ?_, ?_, ?_⟩, ?_, ?_, ?_, ?_, ?_⟩
  · intro o
    rw [hlist]
    exact nodup_nil
  · intro o
    rw [hlist]
    rfl
  · rw [hfree]
    exact fun _ hb => absurd hb (Set.notMem_empty _)
  · intro p _ _ hp
    rw [h.flags p] at hp
    cases hp
  · rw [hfree]
    exact fun _ hb => absurd hb (Set.notMem_empty _)
  · rw [hfree]
    exact ⟨nofun, nofun, nofun⟩
  · rw [h.zone]
    simp [buddyZoneInit, Pmm.freePages, hlist]
  · rw [h.held]
    exact fun _ hc => absurd hc not_mem_nil
  · rw [h.held]
    exact List.Pairwise.nil
  · rw [h.given]
    exact fun _ hp => absurd hp (Set.notMem_empty _)
  · intro p
    rw [h.given, h.held]
    simp [Pmm.Covered, hfree]

theorem Sound.call_freeRange (h : Sound w) {s e : Nat} (ha : w.Allowed (.freeRange s e)) :
    ∃ w', w.call (.freeRange s e) = some w' ∧ Sound w' := by
  obtain ⟨hlo, hhi, hle, hnew⟩ := ha
  have hout : ∀ p, s ≤ p → p < e → ¬ w.pmm.Covered p := fun p h1 h2 hc =>
    hnew p h1 h2 ((h.covered p).mpr (.inl hc))
  obtain ⟨m', hrun, hadd⟩ := buddyFreeRange_spec h.tidy hlo hhi hle hout
  have hcall : w.call (.freeRange s e)
      = some { w with pmm := m', given := w.given ∪ {p | s ≤ p ∧ p < e} } := by
    rw [call, hrun]
    rfl
  refine ⟨_, hcall, ⟨hadd.tidy, ?_, ?_, h.heldApart, ?_, ?_⟩⟩
  · dsimp only
    rw [hadd.zone, hadd.size]
    exact congrArg (· + (e - s)) h.total
  · intro c hc
    have hhand := h.held c hc
    have hclear : InHand c { w.pmm with
        pages := clearRange w.pmm.pages s e
        zone := { w.pmm.zone with
          nrPagesTotal := w.pmm.zone.nrPagesTotal + (e - s) } } :=
      ⟨h.tidy.clearRange _ _ _, hhand.order_lt, hhand.aligned, hhand.inside, hhand.apart⟩
    refine hclear.of_added hadd fun p hp hr => hnew p hr.1 hr.2 ?_
    exact (h.covered p).mpr (.inr ⟨c, hc, hp⟩)
  · intro p hp
    rw [hadd.reserved]
    rcases hp with hp | hp
    · simp only [clearRange]
      split_ifs
      exacts [rfl, h.usable p hp]
    · have hp : s ≤ p ∧ p < e := hp
      simp only [clearRange, if_pos hp]
  · intro p
    rw [hadd.covered, Set.mem_union, h.covered p]
    exact or_right_comm

theorem Sound.call_alloc (h : Sound w) (ha : w.Allowed (.alloc order)) :
    ∃ w', w.call (.alloc order) = some w' ∧ Sound w' := by
  rcases buddyAllocBlock_spec h.tidy ha with ⟨hrun, -⟩ | ⟨pfn, m', hrun, htake⟩
  · refine ⟨w, ?_, h⟩
    rw [call, hrun]
    rfl
  have hcall : w.call (.alloc order)
      = some { w with pmm := m', held := ⟨pfn, order⟩ :: w.held } := by
    rw [call, hrun]
    rfl
  -- the block lay in free blocks, so it is apart from every block handed out before
  have hwas : ∀ p, (Block.mk pfn order).Covers p → w.pmm.Covered p := fun p hp =>
    (htake.covered p).mp (.inr hp)
  refine ⟨_, hcall, ⟨htake.inHand.tidy, ?_, ?_, ?_, ?_, ?_⟩⟩
  · dsimp only
    have hsize := htake.size
    have htotal := h.total
    rw [htake.zone]
    dsimp only at hsize ⊢
    omega
  · intro c hc
    rcases mem_cons.mp hc with rfl | hc
    · exact htake.inHand
    · have hhand := h.held c hc
      refine ⟨htake.inHand.tidy, hhand.order_lt, hhand.aligned, ?_, ?_⟩
      · rw [Pmm.Inside, htake.zone]
        exact hhand.inside
      · intro d hd p hp hdp
        exact hhand.not_covered hp ((htake.covered p).mp (.inl ⟨d, hd, hdp⟩))
  · refine pairwise_cons.mpr ⟨fun c hc p hp hcp => ?_, h.heldApart⟩
    exact (h.held c hc).not_covered hcp (hwas p hp)
  · intro p hp
    rw [htake.reserved]
    exact h.usable p hp
  · intro p
    simp only [mem_cons, exists_eq_or_imp]
    rw [h.covered p, ← htake.covered p, or_assoc]

theorem InHand.drop_reference {m : Pmm} {c : Block} (hb : InHand b m) (hc : InHand c m) :
    InHand c (m.setPage b.start { m.pages b.start with refcount := 0 }) :=
  hc.setPage (fun d hd hs => hb.not_covered b.covers_start ⟨d, hd, hs ▸ d.covers_start⟩)
    hb.buddy_false

theorem Sound.call_free (h : Sound w) (ha : w.Allowed (.free b)) :
    ∃ w', w.call (.free b) = some w' ∧ Sound w' := by
  have hmem : b ∈ w.held := ha
  have hhand := h.held b hmem
  have hgiven : b.start ∈ w.given := (h.covered _).mpr (.inr ⟨b, hmem, b.covers_start⟩)
  have hdrop := InHand.drop_reference hhand hhand
  obtain ⟨m', hrun, hadd⟩ := buddyFreeBlock_spec hdrop
    (by simp [Pmm.setPage]) (by simpa [Pmm.setPage] using h.usable _ hgiven)
  have hcall : w.call (.free b) = some { w with pmm := m', held := w.held.erase b } := by
    rw [call]
    simp only [hrun]
    rfl
  -- the rest of what is handed out, and what it covers
  have hperm := perm_cons_erase hmem
  obtain ⟨hrest, hapart⟩ :=
    pairwise_cons.mp ((hperm.pairwise_iff Block.Apart.symm).mp h.heldApart)
  have hheld : ∀ p, (∃ c ∈ w.held, c.Covers p) ↔
      b.Covers p ∨ ∃ c ∈ w.held.erase b, c.Covers p := by
    intro p
    simp only [hperm.mem_iff, mem_cons, exists_eq_or_imp]
  refine ⟨_, hcall, ⟨hadd.tidy, ?_, ?_, hapart, ?_, ?_⟩⟩
  · dsimp only
    rw [hadd.zone, hadd.size]
    exact congrArg (· + 2 ^ b.order) h.total
  · intro c hc
    have hc' := h.held c (mem_of_mem_erase hc)
    exact (InHand.drop_reference hhand hc').of_added hadd fun p hp => (hrest c hc).symm p hp
  · intro p hp
    rw [hadd.reserved, reserved_setPage (by rfl)]
    exact h.usable p hp
  · intro p
    rw [h.covered p, hheld p, hadd.covered p]
    exact or_assoc.symm

/-- **Every call its caller may make succeeds, and keeps the invariant.** -/
theorem Sound.call (h : Sound w) (c : Call) (ha : w.Allowed c) :
    ∃ w', w.call c = some w' ∧ Sound w' := by
  cases c with
  | freeRange s e => exact h.call_freeRange ha
  | alloc order => exact h.call_alloc ha
  | free b => exact h.call_free ha

/-- **The invariant holds along every run.** -/
theorem Reachable.sound (h : Reachable w) : Sound w := by
  refine Lib.Reachable.invariant (fun _ => .of_initial) (fun s t hs hst => ?_) h
  obtain ⟨c, ha, hc⟩ := hst
  obtain ⟨t', hc', ht⟩ := hs.call c ha
  rw [hc] at hc'
  cases hc'
  exact ht

/-- **The buddy allocator, over every run.**  Free blocks are aligned, inside the zone, listed once,
apart from each other and from every block handed out; the counter is their size; no block below
the largest order is free together with its buddy.  Allocation never fails an assertion, and it
finds nothing only when every aligned run of the size has a page that was not given or is handed
out. -/
theorem buddy_run (h : Reachable w) :
    (∀ b ∈ w.pmm.free, b.Aligned ∧ w.pmm.Inside b) ∧
      (∀ o, (w.pmm.zone.freeArea o).list.Nodup) ∧
      (∀ b ∈ w.pmm.free, ∀ c ∈ w.pmm.free, b ≠ c → b.Apart c) ∧
      (∀ b ∈ w.pmm.free, ∀ c ∈ w.held, b.Apart c) ∧
      w.held.Pairwise Block.Apart ∧
      w.pmm.zone.nrPagesFree = w.pmm.freePages ∧
      (∀ b ∈ w.pmm.free, b.order < pmmMaxOrder - 1 → b.buddy ∉ w.pmm.free) ∧
      (∀ k < pmmMaxOrder, buddyAllocBlock w.pmm k ≠ none) ∧
      ∀ k < pmmMaxOrder, ∀ m', buddyAllocBlock w.pmm k = some (none, m') →
        ∀ s, 2 ^ k ∣ s → ∃ p, s ≤ p ∧ p < s + 2 ^ k ∧
          (p ∉ w.given ∨ ∃ c ∈ w.held, c.Covers p) := by
  have hs := h.sound
  refine ⟨fun b hb => ⟨hs.tidy.blocks.aligned b hb, hs.tidy.inside b hb⟩, hs.tidy.nodup,
    hs.tidy.blocks.apart,
    fun b hb c hc => ((hs.held c hc).apart b hb).symm, hs.heldApart, hs.total,
    hs.tidy.blocks.merged,
    ?_, ?_⟩
  · intro k hk hnone
    rcases buddyAllocBlock_spec hs.tidy hk with ⟨hrun, -⟩ | ⟨pfn, m', hrun, -⟩ <;>
      simp [hrun] at hnone
  · intro k hk m' hrun s hdvd
    by_contra hall
    have hfree : ∀ p, (Block.mk s k).Covers p → w.pmm.Covered p := by
      intro p hp
      by_contra hc
      refine hall ⟨p, hp.1, hp.2, ?_⟩
      by_cases hg : p ∈ w.given
      · exact .inr (((hs.covered p).mp hg).resolve_left hc)
      · exact .inl hg
    obtain ⟨b, hb, hle, -⟩ := hs.tidy.blocks.exists_whole (r := ⟨s, k⟩) hdvd
      (Nat.le_sub_one_of_lt hk) hfree
    rcases buddyAllocBlock_spec hs.tidy hk with ⟨-, hno⟩ | ⟨pfn, m₁, hrun', -⟩
    · exact absurd (hno b hb) (Nat.not_lt.mpr hle)
    · rw [hrun] at hrun'
      cases hrun'

/-- A zone of the pages 1 to 3, before any of them is given. -/
def threePages : World :=
  ⟨⟨fun _ => ⟨true, false, false, 0, 0⟩, buddyZoneInit 1 4⟩, [], ∅⟩

def threeGiven : World := (threePages.call (.freeRange 1 4)).getD threePages

def threeTaken : World := (threeGiven.call (.alloc 0)).getD threeGiven

theorem threeGiven_reachable : Reachable threeGiven := by
  have hinit : Reachable threePages := Lib.Reachable.init ⟨rfl, fun _ => rfl, rfl, rfl⟩
  refine hinit.step ⟨.freeRange 1 4, ?_, rfl⟩
  exact ⟨le_refl _, le_refl _, by decide, fun _ _ _ => Set.notMem_empty _⟩

theorem threeTaken_reachable : Reachable threeTaken :=
  threeGiven_reachable.step ⟨.alloc 0, show 0 < pmmMaxOrder by decide, rfl⟩

/-- Two are free then, and there is no block of order 2. -/
theorem buddy_run_threePages :
    ∃ w, Reachable w ∧ w.held = [⟨1, 0⟩] ∧ w.pmm.freePages = 2 ∧
      ∃ p, 0 ≤ p ∧ p < 0 + 2 ^ 2 ∧ (p ∉ w.given ∨ ∃ c ∈ w.held, c.Covers p) := by
  obtain ⟨-, -, -, -, -, htotal, -, -, hfail⟩ := buddy_run threeTaken_reachable
  refine ⟨_, threeTaken_reachable, rfl, ?_, hfail 2 (by decide) threeTaken.pmm rfl 0 (by decide)⟩
  rw [← htotal]
  rfl

/-! ## Coalescing -/

/-- One allocation, or one free. -/
def Use (w w' : World) : Prop :=
  ∃ c, (∀ s e, c ≠ .freeRange s e) ∧ w.Allowed c ∧ w.call c = some w'

theorem Use.given {w w' : World} (h : Use w w') : w'.given = w.given := by
  obtain ⟨c, hc, -, hcall⟩ := h
  cases c with
  | freeRange s e => exact absurd rfl (hc s e)
  | alloc order =>
    obtain ⟨⟨page, m⟩, -, hcall⟩ := Option.bind_eq_some_iff.mp hcall
    cases page <;> exact (Option.some.inj hcall) ▸ rfl
  | free b =>
    obtain ⟨m, -, hcall⟩ := Option.bind_eq_some_iff.mp hcall
    exact (Option.some.inj hcall) ▸ rfl

/-- In a sound world the free blocks are determined by the free pages. -/
theorem Sound.free_subset {v w : World} (hv : Sound v) (hw : Sound w)
    (h : ∀ p, v.pmm.Covered p ↔ w.pmm.Covered p) : v.pmm.free ⊆ w.pmm.free :=
  hv.tidy.blocks.subset hw.tidy.blocks (fun _ hb => Nat.le_pred_of_lt hb.1)
    (fun _ hb => Nat.le_pred_of_lt hb.1) h

/-- **Coalescing is confluent.**  In any two worlds that runs reach, the same free pages make the
same free blocks; so after allocations and frees that leave nothing handed out, in whatever
order, the free blocks are those the zone had before them. -/
theorem coalescing_confluent {v w : World} (hv : Reachable v) (hw : Reachable w) :
    ((∀ p, v.pmm.Covered p ↔ w.pmm.Covered p) → v.pmm.free = w.pmm.free) ∧
      (v.held = [] → Relation.ReflTransGen Use v w → w.held = [] → w.pmm.free = v.pmm.free) := by
  have hsame : (∀ p, v.pmm.Covered p ↔ w.pmm.Covered p) → v.pmm.free = w.pmm.free := fun h =>
    (hv.sound.free_subset hw.sound h).antisymm (hw.sound.free_subset hv.sound fun p => (h p).symm)
  refine ⟨hsame, fun hv0 hrun hw0 => (hsame fun p => ?_).symm⟩
  have hgiven : w.given = v.given := by
    clear hsame hw hw0
    induction hrun with
    | refl => rfl
    | tail _ hstep ih => exact hstep.given.trans ih
  have h1 := hv.sound.covered p
  have h2 := hw.sound.covered p
  rw [hv0] at h1
  rw [hw0, hgiven] at h2
  simpa using h1.symm.trans h2

theorem Reachable.use {v w : World} (hv : Reachable v) (h : Relation.ReflTransGen Use v w) :
    Reachable w := by
  induction h with
  | refl => exact hv
  | tail _ huse ih =>
    obtain ⟨c, -, hallowed, hcall⟩ := huse
    exact ih.step ⟨c, hallowed, hcall⟩

/-- All three pages handed out, for which the block of two is split. -/
def threeOut : World :=
  ((threeTaken.call (.alloc 0)).bind (call · (.alloc 0))).getD threeTaken

/-- The three pages handed out and taken back in another order: the last free merges its page with
the buddy. -/
theorem coalescing_confluent_threePages :
    threeOut.held = [⟨3, 0⟩, ⟨2, 0⟩, ⟨1, 0⟩] ∧
      ∃ w, Relation.ReflTransGen Use threeOut w ∧ w.held = [] ∧
        w.pmm.free = threeGiven.pmm.free := by
  have halloc {v w : World} (h : v.call (.alloc 0) = some w) : Use v w :=
    ⟨.alloc 0, fun _ _ => nofun, show 0 < pmmMaxOrder by decide, h⟩
  have hfree {v w : World} (b : Block) (hb : b ∈ v.held) (h : v.call (.free b) = some w) :
      Use v w := ⟨.free b, fun _ _ => nofun, hb, h⟩
  have hout : Relation.ReflTransGen Use threeGiven threeOut :=
    .tail (.tail (.single (halloc rfl)) (halloc rfl)) (halloc rfl)
  have hone : Relation.ReflTransGen Use threeOut _ := .single (hfree ⟨2, 0⟩ (by decide) rfl)
  have htwo := hone.tail (hfree ⟨1, 0⟩ (by decide) rfl)
  have hback := htwo.tail (hfree ⟨3, 0⟩ (by decide) rfl)
  have hrun := hout.trans hback
  exact ⟨rfl, _, hback, rfl,
    (coalescing_confluent threeGiven_reachable (threeGiven_reachable.use hrun)).2 rfl hrun rfl⟩

end World

end CosmoOS.Memory
