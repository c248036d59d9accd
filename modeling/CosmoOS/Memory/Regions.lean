import CosmoOS.Lib.Segments
import Mathlib.Data.Nat.Basic
import Mathlib.Algebra.BigOperators.Group.List.Basic
import Mathlib.Data.Set.Card
import Mathlib.Order.Interval.Finset.Nat

/-!
# The regions of an address space

`vmm.c` keeps what is mapped in an address space as a list of *regions*, sorted by base.  A region
is a run of pages with one protection and one backing; around it there may be a *guard*, a page that
is not mapped and that no other region may use.  `[base, base + size)` is what a region maps,
`[footLo, footHi)` is what it keeps others out of.  The loops that change a range go by extents; the
insert goes by footprints.

* `spaceInsert` puts a region at the one place where all footprints stay apart, or refuses;
* `regionMergeForward` and `regionMergeAround` join neighbours that could be one region, which
  changes nothing that the list says of any address (`SameMap`);
* `splitAtEnds` cuts the regions at the two ends of a range, so that the list falls into what
  is below, what is inside and what is above (`splitAtEnds_spec`).

A cut removes the guard on the side where it is made.  It is stated by two closed forms, `below va`
and `above va`: what the list has under an address and what it has from there on.

Addresses are natural numbers, inside the user window; the only sum that can wrap is the one
`userRangeValid` tests for it.
-/

namespace CosmoOS.Memory.UserSpace

open Lib.Segments List

variable {cursor : ℕ}

/-! ## Regions -/

def pageSize : ℕ := 4096

/-- `VM_USER_LO`, where the user window begins. -/
def userLo : ℕ := 0x400000

/-- `VM_USER_HI`, where it ends. -/
def userHi : ℕ := 0x7FFFFFFFF000

structure Prot where
  read : Bool
  write : Bool
  exec : Bool
  user : Bool
deriving DecidableEq, Repr

/-- `VM_PROT_NONE`. -/
def Prot.none : Prot := ⟨false, false, false, false⟩

/-- `prot & ~VM_PROT_USER`. -/
def Prot.withoutUser (p : Prot) : Prot := { p with user := false }

/-- `prot & ~max` is not zero. -/
def Prot.exceeds (p max : Prot) : Bool :=
  p.read && !max.read || p.write && !max.write || p.exec && !max.exec || p.user && !max.user

/-- Writable and executable at once. -/
def Prot.writeExec (p : Prot) : Bool := p.write && p.exec

inductive RegionKind where
  | phys
  | anon
  | file
deriving DecidableEq, Repr

/-- The flags of a region. -/
structure Flags where
  guardBelow : Bool
  guardAbove : Bool
  populated : Bool
  user : Bool
  quiesced : Bool
deriving DecidableEq, Repr

/-- `struct vm_file_map`: what was mapped where, as first mapped. -/
structure FileMap where
  tag : ℕ
  vn : ℕ
  base : ℕ
  off : ℕ
  shared : Bool
  text : Bool
  maxprot : Prot
deriving DecidableEq, Repr

/-- `struct vm_region`.  The name is an immortal string and compared by its address. -/
structure Region where
  base : ℕ
  size : ℕ
  prot : Prot
  kind : RegionKind
  flags : Flags
  fmap : Option FileMap
  name : ℕ
deriving DecidableEq, Repr

namespace Region

/-- The first address after the region. -/
def stop (r : Region) : ℕ := r.base + r.size

/-- The low end of `region_footprint`. -/
def footLo (r : Region) : ℕ := r.base - if r.flags.guardBelow then pageSize else 0

/-- The high end of `region_footprint`. -/
def footHi (r : Region) : ℕ := r.base + r.size + if r.flags.guardAbove then pageSize else 0

/-- The two footprints meet. -/
def Collides (a b : Region) : Prop := a.footLo < b.footHi ∧ b.footLo < a.footHi

instance (a b : Region) : Decidable (Collides a b) :=
  inferInstanceAs (Decidable (_ ∧ _))

end Region

/-! ## The functions over the list -/

def isPageAligned (x : ℕ) : Bool := x % pageSize == 0

def pageAlignUp (x : ℕ) : ℕ := (x + (pageSize - 1)) / pageSize * pageSize

/-- `user_range_valid`, on 64-bit words: the sum is taken as the machine takes it. -/
def userRangeValid (base size : ℕ) : Bool :=
  isPageAligned base && isPageAligned size && decide (0 < size) && decide (userLo ≤ base) &&
    decide (base < (base + size) % 2 ^ 64) && decide ((base + size) % 2 ^ 64 ≤ userHi)

/-- `space_find`: the region over `va`, as a place in the list. -/
def spaceFind (l : List Region) (va : ℕ) : Option (Cursor Region) :=
  seek Region.base Region.stop va [] l

/-- `space_insert`: the list with the region in it, as the place it was put at, or `none` for
`-EEXIST`.  `before` is what the loop has passed. -/
def spaceInsert (region : Region) : List Region → List Region → Option (Cursor Region)
  | before, [] => some ⟨before, region, []⟩
  | before, r :: rest =>
    if region.Collides r then none
    else if region.base < r.base then some ⟨before, region, r :: rest⟩
    else spaceInsert region (r :: before) rest

def regionsMergeable (a b : Region) : Bool :=
  a.base + a.size == b.base && a.kind == .anon && b.kind == .anon && a.prot == b.prot &&
    a.flags == b.flags && a.name == b.name && !a.flags.guardAbove && !b.flags.guardBelow

def Region.absorb (r next : Region) : Region := { r with size := r.size + next.size }

/-- `region_merge_forward` on the list from `r` on: at most `cap` successors are absorbed. -/
def regionMergeForward : ℕ → List Region → List Region
  | cap + 1, r :: next :: rest =>
    if regionsMergeable r next then regionMergeForward cap (r.absorb next :: rest)
    else r :: next :: rest
  | _, l => l

def regionMergeAround (cap : ℕ) (c : Cursor Region) : List Region :=
  match c.before with
  | [] => regionMergeForward cap (c.here :: c.after)
  | prev :: before =>
    if regionsMergeable prev c.here then
      before.reverse ++ regionMergeForward (cap - 1) (prev.absorb c.here :: c.after)
    else c.before.reverse ++ regionMergeForward cap (c.here :: c.after)

/-- The piece of a region that a cut at `va` leaves in place. -/
def Region.headAt (r : Region) (va : ℕ) : Region :=
  { r with size := va - r.base, flags := { r.flags with guardAbove := false } }

/-- The piece that a cut at `va` makes new. -/
def Region.tailAt (r : Region) (va : ℕ) : Region :=
  { r with base := va, size := r.base + r.size - va,
           flags := { r.flags with guardBelow := false } }

/-- `region_split`, as the place of the spare; `none` when its assertion fails. -/
def regionSplit (c : Cursor Region) (va : ℕ) : Option (Cursor Region) :=
  if c.here.base < va ∧ va < c.here.stop ∧ isPageAligned va then
    some ⟨c.here.headAt va :: c.before, c.here.tailAt va, c.after⟩
  else none

/-- The loop of `range_first_fit_locked`. -/
def firstFit (size : ℕ) : ℕ → List Region → ℕ
  | cursor, [] =>
    if cursor < userHi ∧ size + pageSize ≤ userHi - cursor then cursor else 0
  | cursor, r :: rest =>
    -- one unmapped page is kept between user regions
    if r.footHi + pageSize ≤ cursor then firstFit size cursor rest
    else if cursor ≤ r.footLo ∧ size + pageSize ≤ r.footLo - cursor then
      if userRangeValid cursor size then cursor else 0
    else firstFit size (max (r.footHi + pageSize) cursor) rest

section

variable (l : List Region) (base size : ℕ)

def rangeFirstFitLocked (lowest size : ℕ) : ℕ :=
  let lowest := max lowest userLo
  if userHi ≤ lowest ∨ userHi - userLo < size then 0
  else firstFit size (pageAlignUp lowest) l

/-- The loop of `range_fully_mapped`. -/
def fullyMapped (stop : ℕ) : ℕ → List Region → Bool
  | _, [] => false
  | cursor, r :: rest =>
    if r.stop ≤ cursor then fullyMapped stop cursor rest
    else if cursor < r.base then false
    else if stop ≤ r.stop then true
    else fullyMapped stop r.stop rest

def rangeFullyMapped : Bool := fullyMapped (base + size) base l

/-- The region at the low end of a range reaches below it. -/
def cutLow (base : ℕ) : Option (Cursor Region) :=
  (spaceFind l base).filter fun c => decide (c.here.base < base)

/-- The region at the last page of a range reaches beyond it. -/
def cutHigh : Option (Cursor Region) :=
  (spaceFind l (base + size - pageSize)).filter fun c => decide (base + size < c.here.stop)

def splitsNeeded : ℕ :=
  (if (cutLow l base).isSome then 1 else 0) + if (cutHigh l base size).isSome then 1 else 0

/-- One of the two cuts of `split_at_ends`: the list and the number of spares used. -/
def splitIf (c : Option (Cursor Region)) (va : ℕ) : Option (List Region × ℕ) :=
  match c with
  | none => some (l, 0)
  | some c => (regionSplit c va).map fun spare => (spare.list, 1)

/-- `split_at_ends`: the list cut at both ends of the range, and the number of spares used;
`none` when an assertion fails. -/
def splitAtEnds : Option (List Region × ℕ) :=
  (splitIf l (cutLow l base) base).bind fun p =>
    (splitIf p.1 (cutHigh p.1 base size) (base + size)).map fun q => (q.1, p.2 + q.2)

/-- The regions of `[base, base + size)`, as the loops of the callers come to them. -/
def regionsIn : List Region :=
  visited Region.base Region.stop base (base + size) l

def rangeQuiesced : Bool :=
  (regionsIn l base size).any fun r => r.flags.quiesced

/-- `covered_pages`: of each region the part inside the range. -/
def coveredPages : ℕ :=
  ((regionsIn l base size).map fun r =>
    (min r.stop (base + size) - max r.base base) / pageSize).sum

/-- `range_free_except`, where the region excepted is the one the cursor is at. -/
def rangeFreeExcept (c : Cursor Region) (lo hi : ℕ) : Bool :=
  (c.before ++ c.after).all fun r => !decide (lo < r.footHi ∧ r.footLo < hi)

/-- The loop of `vm_user_unmap` and `map_replace` that unlinks the regions of the range: what
stays and what is gone.  `none` when one of them is found to reach outside. -/
def unlinkRange : Option (List Region × List Region) :=
  let gone := regionsIn l base size
  if gone.all fun r => decide (base ≤ r.base ∧ r.stop ≤ base + size) then
    some (editVisited Region.base Region.stop base (base + size) (fun _ => none) l, gone)
  else none

/-- The pages that the regions of a list account for. -/
def pages : ℕ := (l.map fun r => r.size / pageSize).sum

end

/-! ## What a list says -/

/-- What a region may look like in a user space: whole pages inside the window, never writable
and executable at once, a mapping record if and only if it is a file's. -/
structure RegionOk (r : Region) : Prop where
  aligned : r.base % pageSize = 0
  whole : r.size % pageSize = 0
  pos : 0 < r.size
  low : userLo ≤ r.base
  high : r.stop ≤ userHi
  wx : r.prot.writeExec = false
  record : r.kind = .anon ∧ r.fmap = none ∨ r.kind = .file ∧ r.fmap.isSome

/-- A list as it is between calls: in order, all footprints apart, every region well formed. -/
structure Good (l : List Region) : Prop where
  laid : l.Pairwise fun a b => a.footHi ≤ b.footLo
  ok : ∀ r ∈ l, RegionOk r

/-- What a page is mapped to: the kind, the protection, and for a file which one, the offset in
it and whether stores reach it. -/
structure Attr where
  kind : RegionKind
  prot : Prot
  file : Option (ℕ × ℕ × Bool)
deriving DecidableEq, Repr

/-- What a region maps `va` to. -/
def Region.attrAt (r : Region) (va : ℕ) : Attr where
  kind := r.kind
  prot := r.prot
  file := r.fmap.map fun m => (m.vn, m.off + (va - m.base), m.shared)

/-- The partial function from addresses to attributes that a list stands for. -/
def view (l : List Region) (va : ℕ) : Option Attr :=
  lookup Region.base Region.stop Region.attrAt l va

theorem Region.footLo_le (r : Region) : r.footLo ≤ r.base := Nat.sub_le _ _

theorem Region.stop_le_footHi (r : Region) : r.stop ≤ r.footHi := Nat.le_add_right _ _

variable {r a b c region : Region} {l pre post : List Region} {va base size : ℕ}

theorem RegionOk.base_lt_stop (h : RegionOk r) : r.base < r.stop :=
  Nat.lt_add_of_pos_right h.pos

theorem RegionOk.base_le_stop (h : RegionOk r) : r.base ≤ r.stop :=
  h.base_lt_stop.le

theorem stop_le_base_of_foot (h : a.footHi ≤ b.footLo) : a.stop ≤ b.base :=
  a.stop_le_footHi.trans (h.trans b.footLo_le)

theorem Good.ordered (h : Good l) : Ordered Region.base Region.stop l :=
  ⟨h.laid.imp stop_le_base_of_foot, fun r hr => (h.ok r hr).base_le_stop⟩

theorem Good.sublist {l' : List Region} (h : Good l) (hs : l'.Sublist l) : Good l' where
  laid := h.laid.sublist hs
  ok r hr := h.ok r (hs.subset hr)

theorem Good.nil : Good [] := ⟨List.Pairwise.nil, by simp⟩

theorem Good.tail {rest : List Region} (h : Good (r :: rest)) : Good rest :=
  h.sublist (sublist_cons_self r rest)

/-- **What a list says of an address**: some region is over it. -/
theorem view_eq_some (h : Good l) {x : Attr} :
    view l va = some x ↔ ∃ r ∈ l, (r.base ≤ va ∧ va < r.stop) ∧ r.attrAt va = x :=
  lookup_eq_some h.ordered

theorem pages_append (l l' : List Region) : pages (l ++ l') = pages l + pages l' := by
  simp [pages]

theorem pages_cons (r : Region) (l : List Region) :
    pages (r :: l) = r.size / pageSize + pages l := by
  simp [pages]

/-- Two lists that say the same: of every address, and in pages. -/
structure SameMap (l l' : List Region) : Prop where
  good : Good l'
  view : ∀ va, view l' va = view l va
  pages : pages l' = pages l

theorem SameMap.refl (h : Good l) : SameMap l l := ⟨h, fun _ => rfl, rfl⟩

theorem SameMap.trans {m n : List Region} (h : SameMap l m) (h' : SameMap m n) :
    SameMap l n where
  good := h'.good
  view va := (h'.view va).trans (h.view va)
  pages := h'.pages.trans h.pages

/-! ## Joining and cutting -/

/-- One region in two pieces: the pieces meet, and each maps its pages as the whole does. -/
structure Pieces (a b c : Region) : Prop where
  base : a.base = c.base
  meet : a.stop = b.base
  stop : b.stop = c.stop
  attr₁ : ∀ va, a.attrAt va = c.attrAt va
  attr₂ : ∀ va, b.attrAt va = c.attrAt va
  footLo : a.footLo = c.footLo
  footHi : b.footHi = c.footHi
  foot : a.footHi = a.stop ∧ b.footLo = b.base

theorem Pieces.view (h : Pieces a b c) (hg : Good (pre ++ a :: b :: post))
    (hg' : Good (pre ++ c :: post)) (va : ℕ) :
    view (pre ++ a :: b :: post) va = view (pre ++ c :: post) va := by
  have ha := (hg.ok a (by simp)).base_lt_stop
  have hb := (hg.ok b (by simp)).base_lt_stop
  have hover : (a.base ≤ va ∧ va < a.stop) ∨ (b.base ≤ va ∧ va < b.stop) ↔
      c.base ≤ va ∧ va < c.stop := by
    have hbase := h.base
    have hmeet := h.meet
    have hstop := h.stop
    omega
  apply lookup_congr hg.ordered hg'.ordered
  intro x
  simp only [mem_append, mem_cons, or_and_right, exists_or, exists_eq_left, h.attr₁, h.attr₂,
    ← hover, or_assoc]

/-- A middle part that keeps within the footprints of another. -/
theorem Good.replace {A M X C : List Region} (hg : Good (A ++ (M ++ C))) (hX : Good X)
    (hlo : ∀ x ∈ X, ∃ m ∈ M, m.footLo ≤ x.footLo) (hhi : ∀ x ∈ X, ∃ m ∈ M, x.footHi ≤ m.footHi) :
    Good (A ++ (X ++ C)) := by
  obtain ⟨hlaid, hok⟩ := hg
  simp only [pairwise_append, mem_append] at hlaid hok
  obtain ⟨hA, ⟨-, hC, hMC⟩, hcross⟩ := hlaid
  refine ⟨?_, fun x hx => ?_⟩
  · refine pairwise_append.mpr ⟨hA, pairwise_append.mpr ⟨hX.laid, hC, fun x hx z hz => ?_⟩,
      fun x hx z hz => ?_⟩
    · obtain ⟨m, hm, hle⟩ := hhi x hx
      exact hle.trans (hMC m hm z hz)
    · rcases mem_append.mp hz with hz | hz
      · obtain ⟨m, hm, hle⟩ := hlo z hz
        exact (hcross x hx m (Or.inl hm)).trans hle
      · exact hcross x hx z (Or.inr hz)
  · simp only [mem_append] at hx
    rcases hx with hx | hx | hx
    · exact hok x (Or.inl hx)
    · exact hX.ok x hx
    · exact hok x (Or.inr (Or.inr hx))

theorem regionsMergeable_iff :
    regionsMergeable a b = true ↔
      a.base + a.size = b.base ∧ a.kind = .anon ∧ b.kind = .anon ∧ a.prot = b.prot ∧
        a.flags = b.flags ∧ a.name = b.name ∧ a.flags.guardAbove = false ∧
        b.flags.guardBelow = false := by
  simp only [regionsMergeable, Bool.and_eq_true, beq_iff_eq, Bool.not_eq_true', and_assoc]

theorem RegionOk.fmap_of_anon (h : RegionOk r) (hk : r.kind = .anon) :
    r.fmap = none := by
  rcases h.record with ⟨-, hf⟩ | ⟨hk', -⟩
  · exact hf
  · rw [hk] at hk'
    cases hk'

section

variable (ha : RegionOk a) (hb : RegionOk b) (h : regionsMergeable a b = true)

include ha hb h

theorem pieces_absorb : Pieces a b (a.absorb b) := by
  obtain ⟨hmeet, hka, hkb, hprot, hflags, hname, habove, hbelow⟩ := regionsMergeable_iff.mp h
  have hfa := ha.fmap_of_anon hka
  have hfb := hb.fmap_of_anon hkb
  refine ⟨rfl, hmeet, ?_, fun _ => rfl, ?_, rfl, ?_, ?_, ?_⟩
  · simp only [Region.stop, Region.absorb]
    omega
  · intro va
    simp [Region.attrAt, Region.absorb, hka, hkb, hprot, hfa, hfb]
  · simp only [Region.footHi, Region.absorb, hflags]
    omega
  · simp [Region.footHi, Region.stop, habove]
  · simp [Region.footLo, hbelow]

theorem regionOk_absorb : RegionOk (a.absorb b) := by
  have hstop := (pieces_absorb ha hb h).stop
  refine ⟨ha.aligned, ?_, ?_, ha.low, ?_, ha.wx, ha.record⟩
  · have := ha.whole
    have := hb.whole
    simp only [Region.absorb, pageSize] at *
    omega
  · have := ha.pos
    simp only [Region.absorb]
    omega
  · rw [← hstop]
    exact hb.high

end

/-- Pages are whole, so they add up. -/
theorem div_pageSize_add {m n : ℕ} (hm : m % pageSize = 0) :
    (m + n) / pageSize = m / pageSize + n / pageSize := by
  simp only [pageSize] at *
  omega

/-- **Joining two neighbours changes nothing the list says.** -/
theorem sameMap_absorb (hg : Good (pre ++ a :: b :: post)) (h : regionsMergeable a b = true) :
    SameMap (pre ++ a :: b :: post) (pre ++ a.absorb b :: post) := by
  have ha : RegionOk a := hg.ok a (by simp)
  have hb : RegionOk b := hg.ok b (by simp)
  have hp := pieces_absorb ha hb h
  have hgood : Good (pre ++ ([a.absorb b] ++ post)) := by
    refine Good.replace (M := [a, b]) hg ⟨pairwise_singleton _ _, ?_⟩ ?_ ?_
    · simpa using regionOk_absorb ha hb h
    · simp [hp.footLo]
    · simp [hp.footHi]
  refine ⟨hgood, fun va => (hp.view hg hgood va).symm, ?_⟩
  simp only [pages_append, pages_cons, Region.absorb, div_pageSize_add ha.whole]
  omega

theorem regionMergeForward_sameMap (cap : ℕ) (pre : List Region) (hg : Good (pre ++ l)) :
    SameMap (pre ++ l) (pre ++ regionMergeForward cap l) := by
  induction cap generalizing l with
  | zero => exact SameMap.refl hg
  | succ cap ih =>
    match l with
    | [] => exact SameMap.refl hg
    | [r] => exact SameMap.refl hg
    | r :: next :: rest =>
      rw [regionMergeForward]
      split_ifs with hm
      · have hjoin := sameMap_absorb hg hm
        exact hjoin.trans (ih hjoin.good)
      · exact SameMap.refl hg

theorem regionMergeAround_sameMap (cap : ℕ) {c : Cursor Region} (hg : Good c.list) :
    SameMap c.list (regionMergeAround cap c) := by
  obtain ⟨before, here, after⟩ := c
  cases before with
  | nil => exact regionMergeForward_sameMap cap [] hg
  | cons prev before =>
    simp only [regionMergeAround]
    split_ifs with hm
    · rw [Cursor.list_cons] at hg ⊢
      have hjoin := sameMap_absorb hg hm
      exact hjoin.trans (regionMergeForward_sameMap (cap - 1) before.reverse hjoin.good)
    · exact regionMergeForward_sameMap cap (prev :: before).reverse hg

theorem pieces_cut (hlo : r.base < va) (hhi : va < r.stop) :
    Pieces (r.headAt va) (r.tailAt va) r := by
  have hhi' : va < r.base + r.size := hhi
  refine ⟨rfl, ?_, ?_, fun _ => rfl, fun _ => rfl, rfl, ?_, ?_, rfl⟩
  · simp only [Region.stop, Region.headAt, Region.tailAt]
    omega
  · simp only [Region.stop, Region.tailAt]
    omega
  · simp only [Region.footHi, Region.tailAt]
    rw [Nat.add_sub_cancel' hhi'.le]
    rfl
  · simp [Region.footHi, Region.headAt, Region.stop]

section

variable (h : RegionOk r) (hal : va % pageSize = 0) (hlo : r.base < va) (hhi : va < r.stop)

include h hal hlo hhi

theorem regionOk_headAt : RegionOk (r.headAt va) := by
  have hhigh := h.high
  refine ⟨h.aligned, ?_, ?_, h.low, ?_, h.wx, h.record⟩
  · have := h.aligned
    simp only [Region.headAt, pageSize] at *
    omega
  · simp only [Region.headAt]
    omega
  · simp only [Region.stop, Region.headAt] at *
    omega

theorem regionOk_tailAt : RegionOk (r.tailAt va) := by
  have hhigh := h.high
  have hlow := h.low
  refine ⟨hal, ?_, ?_, ?_, ?_, h.wx, h.record⟩
  · have := h.aligned
    have := h.whole
    simp only [Region.tailAt, pageSize] at *
    omega
  · simp only [Region.tailAt, Region.stop] at *
    omega
  · simp only [Region.tailAt]
    omega
  · simp only [Region.stop, Region.tailAt] at *
    omega

end

/-- **Cutting a region changes nothing the list says.** -/
theorem sameMap_cut (hg : Good (pre ++ r :: post)) (hal : va % pageSize = 0) (hlo : r.base < va)
    (hhi : va < r.stop) :
    SameMap (pre ++ r :: post) (pre ++ r.headAt va :: r.tailAt va :: post) := by
  have hr : RegionOk r := hg.ok r (by simp)
  have hp := pieces_cut hlo hhi
  have hhead := regionOk_headAt hr hal hlo hhi
  have htail := regionOk_tailAt hr hal hlo hhi
  have hgood : Good (pre ++ ([r.headAt va, r.tailAt va] ++ post)) := by
    have hmeet := hp.meet
    have hfoot := hp.foot
    have hrlo := r.footLo_le
    have hrhi := r.stop_le_footHi
    have hbase : (r.tailAt va).base = va := rfl
    refine Good.replace (M := [r]) hg ⟨?_, by simp [hhead, htail]⟩ ?_ ?_
    · simpa using by omega
    · simpa [hp.footLo] using by omega
    · simpa [hp.footHi] using by omega
  refine ⟨hgood, fun va => hp.view hgood hg va, ?_⟩
  have hsize : r.size = (r.headAt va).size + (r.tailAt va).size := by
    simp only [Region.headAt, Region.tailAt, Region.stop] at *
    omega
  simp only [pages_append, pages_cons]
  rw [hsize, div_pageSize_add hhead.whole]
  omega

/-! ## The list under an address and from there on -/

section

variable (va) (l l' : List Region)

/-- What of a region lies under `va`. -/
def Region.clipBelow (r : Region) : Region := if r.stop ≤ va then r else r.headAt va

/-- What of a region lies from `va` on. -/
def Region.clipAbove (r : Region) : Region := if va ≤ r.base then r else r.tailAt va

/-- What the list has under `va`. -/
def below (l : List Region) : List Region :=
  (l.filter fun r => decide (r.base < va)).map (Region.clipBelow va)

/-- What the list has from `va` on. -/
def above (l : List Region) : List Region :=
  (l.filter fun r => decide (va < r.stop)).map (Region.clipAbove va)

theorem below_append : below va (l ++ l') = below va l ++ below va l' := by
  simp [below]

theorem above_append : above va (l ++ l') = above va l ++ above va l' := by
  simp [above]

end

variable {x : Region} {before : List Region}

theorem mem_below : x ∈ below va l ↔ ∃ r ∈ l, r.base < va ∧ r.clipBelow va = x := by
  simp [below, and_assoc]

theorem mem_above : x ∈ above va l ↔ ∃ r ∈ l, va < r.stop ∧ r.clipAbove va = x := by
  simp [above, and_assoc]

theorem below_of_le (hg : ∀ r ∈ l, RegionOk r) (h : ∀ r ∈ l, r.stop ≤ va) : below va l = l := by
  have hall : ∀ r ∈ l, r.base < va := fun r hr => (hg r hr).base_lt_stop.trans_le (h r hr)
  rw [below, filter_eq_self.mpr (by simpa using hall)]
  exact (map_congr_left fun r hr => if_pos (h r hr)).trans (map_id l)

theorem below_of_ge (h : ∀ r ∈ l, va ≤ r.base) : below va l = [] := by
  rw [below, filter_eq_nil_iff.mpr, map_nil]
  intro r hr
  simpa using h r hr

theorem above_of_le (h : ∀ r ∈ l, r.stop ≤ va) : above va l = [] := by
  rw [above, filter_eq_nil_iff.mpr, map_nil]
  intro r hr
  simpa using h r hr

theorem above_of_ge (hg : ∀ r ∈ l, RegionOk r) (h : ∀ r ∈ l, va ≤ r.base) : above va l = l := by
  have hall : ∀ r ∈ l, va < r.stop := fun r hr => (h r hr).trans_lt (hg r hr).base_lt_stop
  rw [above, filter_eq_self.mpr (by simpa using hall)]
  exact (map_congr_left fun r hr => if_pos (h r hr)).trans (map_id l)

/-- **A region cut at `va`** is what makes the difference between the list and its two parts. -/
theorem below_above_of_cut (hg : Good (pre ++ r :: post)) (hlo : r.base < va) (hhi : va < r.stop) :
    below va (pre ++ r :: post) = pre ++ [r.headAt va] ∧
      above va (pre ++ r :: post) = r.tailAt va :: post := by
  have hlaid := hg.ordered.pairwise
  simp only [pairwise_append, pairwise_cons] at hlaid
  obtain ⟨-, ⟨hpost, -⟩, hcross⟩ := hlaid
  have hpre : ∀ x ∈ pre, x.stop ≤ va := fun x hx =>
    (hcross x hx r mem_cons_self).trans hlo.le
  have hpost : ∀ x ∈ post, va ≤ x.base := fun x hx => hhi.le.trans (hpost x hx)
  have hokpre : ∀ x ∈ pre, RegionOk x := fun x hx => hg.ok x (by simp [hx])
  have hokpost : ∀ x ∈ post, RegionOk x := fun x hx => hg.ok x (by simp [hx])
  have hr : below va [r] = [r.headAt va] ∧ above va [r] = [r.tailAt va] := by
    simp [below, above, Region.clipBelow, Region.clipAbove, hlo, hhi, Nat.not_le.mpr hlo,
      Nat.not_le.mpr hhi]
  have hsplit : pre ++ r :: post = pre ++ ([r] ++ post) := rfl
  rw [hsplit, below_append, below_append, above_append, above_append, hr.1, hr.2,
    below_of_le hokpre hpre, below_of_ge hpost, above_of_le hpre, above_of_ge hokpost hpost]
  simp

theorem below_append_above (hg : Good l) (h : ∀ r ∈ l, ¬ (r.base < va ∧ va < r.stop)) :
    below va l ++ above va l = l := by
  induction l with
  | nil => rfl
  | cons r rest ih =>
    have hr := h r mem_cons_self
    have hcons : r :: rest = [r] ++ rest := rfl
    by_cases hstop : r.stop ≤ va
    · have ih := ih hg.tail fun x hx => h x (mem_cons_of_mem r hx)
      have hone : ∀ x ∈ [r], x.stop ≤ va := by simpa using hstop
      have hokone : ∀ x ∈ [r], RegionOk x := by simpa using hg.ok r mem_cons_self
      rw [hcons, below_append, above_append, above_of_le hone, below_of_le hokone hone,
        append_assoc, nil_append, ih]
    · have hall : ∀ x ∈ r :: rest, va ≤ x.base := by
        intro x hx
        rcases mem_cons.mp hx with rfl | hx
        · omega
        · have := hg.ordered.le_of_mem hx
          omega
      rw [below_of_ge hall, above_of_ge hg.ok hall, nil_append]

theorem sameMap_below_above (hg : Good l) (hal : va % pageSize = 0) :
    SameMap l (below va l ++ above va l) := by
  by_cases h : ∃ r ∈ l, r.base < va ∧ va < r.stop
  · obtain ⟨r, hr, hlo, hhi⟩ := h
    obtain ⟨pre, post, rfl⟩ := append_of_mem hr
    obtain ⟨hb, ha⟩ := below_above_of_cut hg hlo hhi
    rw [hb, ha, append_assoc]
    exact sameMap_cut hg hal hlo hhi
  · push Not at h
    rw [below_append_above hg fun r hr hin => by
      have := h r hr hin.1
      omega]
    exact SameMap.refl hg

theorem Region.base_clipBelow (va : ℕ) (r : Region) : (r.clipBelow va).base = r.base := by
  rw [Region.clipBelow]
  split_ifs <;> rfl

theorem Region.stop_clipBelow (h : r.base < va) :
    (r.clipBelow va).stop = min r.stop va := by
  rw [Region.clipBelow]
  split_ifs with hs
  · omega
  · simp only [Region.stop, Region.headAt] at *
    omega

theorem Region.base_clipAbove (va : ℕ) (r : Region) :
    (r.clipAbove va).base = max r.base va := by
  rw [Region.clipAbove]
  split_ifs with hb
  · omega
  · simp only [Region.tailAt]
    omega

theorem Region.stop_clipAbove (h : va < r.stop) :
    (r.clipAbove va).stop = r.stop := by
  rw [Region.clipAbove]
  split_ifs with hb
  · rfl
  · simp only [Region.stop, Region.tailAt] at *
    omega

theorem above_above {a b : ℕ} (hab : a < b) (l : List Region) :
    above b (above a l) = above b l := by
  simp only [above, filter_map, map_map, filter_filter]
  have hfilter : (l.filter fun r =>
      ((fun r => decide (b < Region.stop r)) ∘ Region.clipAbove a) r && decide (a < r.stop)) =
        l.filter fun r => decide (b < r.stop) := by
    apply filter_congr
    intro r _
    by_cases ha : a < r.stop
    · simp [ha, Region.stop_clipAbove ha]
    · simp only [ha, decide_false, Bool.and_false]
      simpa using by omega
  rw [hfilter]
  apply map_congr_left
  intro r hr
  have hstop : b < r.stop := by simpa using (mem_filter.mp hr).2
  by_cases ha : a ≤ r.base
  · simp [Region.clipAbove, ha]
  · have hb : ¬ b ≤ r.base := by omega
    have hba : ¬ b ≤ a := by omega
    simp only [Function.comp_apply, Region.clipAbove, if_neg ha, if_neg hb, Region.tailAt,
      if_neg hba, Region.mk.injEq, and_true, true_and]
    omega

/-- A cut is made exactly where a region reaches over the address. -/
theorem splitIf_spec (hg : Good l) (hal : va % pageSize = 0) {c : Option (Cursor Region)}
    (hsome : ∀ d, c = some d → d.list = l ∧ d.here.base < va ∧ va < d.here.stop)
    (hnone : c = none → ∀ r ∈ l, ¬ (r.base < va ∧ va < r.stop)) :
    splitIf l c va = some (below va l ++ above va l, if c.isSome then 1 else 0) := by
  cases c with
  | none =>
    rw [splitIf, below_append_above hg (hnone rfl)]
    rfl
  | some d =>
    obtain ⟨hlist, hlo, hhi⟩ := hsome d rfl
    have hal' : isPageAligned va = true := by simpa [isPageAligned] using hal
    rw [splitIf, regionSplit, if_pos ⟨hlo, hhi, hal'⟩]
    have hg' : Good (d.before.reverse ++ d.here :: d.after) := by
      rw [← Cursor.list, hlist]
      exact hg
    have hcut := below_above_of_cut hg' hlo hhi
    rw [← Cursor.list, hlist] at hcut
    simp [hcut.1, hcut.2, Cursor.list]

theorem splitIf_cutLow (hg : Good l) (hal : base % pageSize = 0) :
    splitIf l (cutLow l base) base =
      some (below base l ++ above base l, if (cutLow l base).isSome then 1 else 0) := by
  apply splitIf_spec hg hal
  · intro d hd
    obtain ⟨hfind, hlo⟩ := Option.filter_eq_some_iff.mp hd
    obtain ⟨hlist, -, hhi⟩ := seek_some hfind
    exact ⟨by simpa using hlist, by simpa using hlo, hhi⟩
  · intro hn r hr hin
    obtain ⟨d, hs, rfl⟩ := seek_of_mem hg.ordered hr ⟨hin.1.le, hin.2⟩
    rw [cutLow, spaceFind, hs, Option.filter_some] at hn
    simp [hin.1] at hn

/-- The region the last page of a range is in reaches beyond the range exactly when some region
reaches over its end: regions are whole pages. -/
theorem cutHigh_some (hg : Good l) (hal : (base + size) % pageSize = 0) (hsize : pageSize ≤ size)
    (hr : r ∈ l) (hlo : r.base < base + size) (hhi : base + size < r.stop) :
    ∃ d, cutHigh l base size = some d ∧ d.here = r := by
  have hover : r.base ≤ base + size - pageSize ∧ base + size - pageSize < r.stop := by
    have := (hg.ok r hr).aligned
    simp only [pageSize] at *
    omega
  obtain ⟨d, hs, rfl⟩ := seek_of_mem hg.ordered hr hover
  refine ⟨d, ?_, rfl⟩
  rw [cutHigh, spaceFind, hs, Option.filter_some]
  simp [hhi]

theorem of_cutHigh (hsize : pageSize ≤ size) {d : Cursor Region}
    (hd : cutHigh l base size = some d) :
    d.list = l ∧ d.here.base < base + size ∧ base + size < d.here.stop := by
  obtain ⟨hfind, hhi⟩ := Option.filter_eq_some_iff.mp hd
  obtain ⟨hlist, hlo, -⟩ := seek_some hfind
  refine ⟨by simpa using hlist, ?_, by simpa using hhi⟩
  simp only [pageSize] at *
  omega

section

variable (hg : Good l) (hal : (base + size) % pageSize = 0) (hsize : pageSize ≤ size)

include hg hal hsize

theorem splitIf_cutHigh :
    splitIf l (cutHigh l base size) (base + size) =
      some (below (base + size) l ++ above (base + size) l,
        if (cutHigh l base size).isSome then 1 else 0) := by
  apply splitIf_spec hg hal
  · intro d hd
    exact of_cutHigh hsize hd
  · intro hn r hr hin
    obtain ⟨d, hd, -⟩ := cutHigh_some hg hal hsize hr hin.1 hin.2
    rw [hn] at hd
    cases hd

theorem cutHigh_isSome_iff :
    (cutHigh l base size).isSome ↔ ∃ r ∈ l, r.base < base + size ∧ base + size < r.stop := by
  constructor
  · intro h
    obtain ⟨d, hd⟩ := Option.isSome_iff_exists.mp h
    obtain ⟨hlist, hin⟩ := of_cutHigh hsize hd
    exact ⟨d.here, by rw [← hlist]; simp [Cursor.list], hin⟩
  · rintro ⟨r, hr, hlo, hhi⟩
    obtain ⟨d, hd, -⟩ := cutHigh_some hg hal hsize hr hlo hhi
    rw [hd]
    rfl

end

/-- The low cut does not decide whether the high one is needed. -/
theorem over_below_above {a b : ℕ} (hab : a < b) :
    (∃ r ∈ below a l ++ above a l, r.base < b ∧ b < r.stop) ↔
      ∃ r ∈ l, r.base < b ∧ b < r.stop := by
  constructor
  · rintro ⟨x, hx, hlo, hhi⟩
    rcases mem_append.mp hx with hx | hx
    · obtain ⟨r, -, hr, rfl⟩ := mem_below.mp hx
      rw [Region.stop_clipBelow hr] at hhi
      omega
    · obtain ⟨r, hmem, hr, rfl⟩ := mem_above.mp hx
      rw [Region.stop_clipAbove hr] at hhi
      rw [Region.base_clipAbove] at hlo
      exact ⟨r, hmem, by omega, hhi⟩
  · rintro ⟨r, hmem, hlo, hhi⟩
    refine ⟨r.clipAbove a, mem_append_right _ (mem_above.mpr ⟨r, hmem, by omega, rfl⟩), ?_⟩
    rw [Region.stop_clipAbove (by omega), Region.base_clipAbove]
    omega

/-- What the list has inside a range. -/
def inside (a b : ℕ) (l : List Region) : List Region := below b (above a l)

/-- **`split_at_ends`** uses as many spares as were counted, says what the list said, and leaves
it in three parts: below the range, inside it, above it. -/
theorem splitAtEnds_spec (hg : Good l) (hbase : base % pageSize = 0)
    (hwhole : size % pageSize = 0) (hpos : 0 < size) :
    ∃ l', splitAtEnds l base size = some (l', splitsNeeded l base size) ∧ SameMap l l' ∧
      Divided Region.base Region.stop base (base + size) l' (below base l)
        (inside base (base + size) l) (above (base + size) l) := by
  have hsize : pageSize ≤ size := by
    simp only [pageSize] at *
    omega
  have hal : (base + size) % pageSize = 0 := by
    simp only [pageSize] at *
    omega
  have hab : base < base + size := by omega
  set l₁ := below base l ++ above base l with hl₁
  have hsame₁ : SameMap l l₁ := sameMap_below_above hg hbase
  have hsame₂ := sameMap_below_above hsame₁.good hal
  have hA : ∀ r ∈ below base l, r.stop ≤ base := by
    intro x hx
    obtain ⟨r, -, hr, rfl⟩ := mem_below.mp hx
    rw [Region.stop_clipBelow hr]
    omega
  have hR : ∀ r ∈ above base l, base ≤ r.base := by
    intro x hx
    obtain ⟨r, -, hr, rfl⟩ := mem_above.mp hx
    rw [Region.base_clipAbove]
    omega
  have hok₁ : ∀ r ∈ l₁, RegionOk r := hsame₁.good.ok
  have hbelow : below (base + size) l₁ = below base l ++ inside base (base + size) l := by
    rw [hl₁, below_append, inside]
    congr 1
    exact below_of_le (fun r hr => hok₁ r (mem_append_left _ hr))
      fun r hr => (hA r hr).trans hab.le
  have habove : above (base + size) l₁ = above (base + size) l := by
    rw [hl₁, above_append, above_above hab,
      above_of_le fun r hr => (hA r hr).trans hab.le, nil_append]
  refine ⟨below (base + size) l₁ ++ above (base + size) l₁, ?_, hsame₁.trans hsame₂, ?_⟩
  · have hcount : (cutHigh l₁ base size).isSome = (cutHigh l base size).isSome := by
      rw [Bool.eq_iff_iff, cutHigh_isSome_iff hsame₁.good hal hsize,
        cutHigh_isSome_iff hg hal hsize]
      exact over_below_above hab
    rw [splitAtEnds, splitIf_cutLow hg hbase, Option.bind_some]
    rw [splitIf_cutHigh hsame₁.good hal hsize, Option.map_some, hcount]
    rfl
  · refine ⟨by rw [hbelow, habove, append_assoc], hA, ?_, ?_⟩
    · intro x hx
      have hmem : x ∈ below (base + size) l₁ ++ above (base + size) l₁ := by
        rw [hbelow]
        simp [hx]
      have hok := (hsame₂.good.ok x hmem).base_lt_stop
      obtain ⟨r, hr, hrb, rfl⟩ := mem_below.mp hx
      have hge := hR r hr
      rw [Region.base_clipBelow] at hok ⊢
      rw [Region.stop_clipBelow hrb] at hok ⊢
      exact ⟨hge, hok, by omega⟩
    · intro x hx
      have hmem : x ∈ below (base + size) l₁ ++ above (base + size) l₁ := by
        rw [habove]
        simp [hx]
      have hok := (hsame₂.good.ok x hmem).base_lt_stop
      obtain ⟨r, hr, hrs, rfl⟩ := mem_above.mp hx
      refine ⟨?_, hok⟩
      rw [Region.base_clipAbove]
      omega

/-! ## Placing and inserting -/

/-- A range of whole pages inside the user window. -/
structure ValidRange (base size : ℕ) : Prop where
  aligned : base % pageSize = 0
  whole : size % pageSize = 0
  pos : 0 < size
  low : userLo ≤ base
  high : base + size ≤ userHi

/-- `user_range_valid` tests what its name says: the sum that wraps is refused. -/
theorem userRangeValid_iff (hb : base < 2 ^ 64) (hs : size < 2 ^ 64) :
    userRangeValid base size = true ↔ ValidRange base size := by
  simp only [userRangeValid, isPageAligned, Bool.and_eq_true, beq_iff_eq, decide_eq_true_eq]
  constructor
  · rintro ⟨⟨⟨⟨⟨hal, hwhole⟩, hpos⟩, hlow⟩, hwrap⟩, hhigh⟩
    refine ⟨hal, hwhole, hpos, hlow, ?_⟩
    omega
  · rintro ⟨hal, hwhole, hpos, hlow, hhigh⟩
    have hlt : base + size < 2 ^ 64 := lt_of_le_of_lt hhigh (by decide)
    rw [Nat.mod_eq_of_lt hlt]
    exact ⟨⟨⟨⟨⟨hal, hwhole⟩, hpos⟩, hlow⟩, by omega⟩, hhigh⟩

/-- Where `space_insert` puts a region: everything before it keeps below its footprint,
everything after it above. -/
theorem spaceInsert_some (hpos : region.base < region.stop) (hg : Good l)
    {c : Cursor Region} (h : spaceInsert region before l = some c) :
    c.here = region ∧ ∃ passed, c.before = passed ++ before ∧ passed.reverse ++ c.after = l ∧
      (∀ x ∈ passed, x.footHi ≤ region.footLo) ∧ ∀ x ∈ c.after, region.footHi ≤ x.footLo := by
  have hlo := region.footLo_le
  have hhi := region.stop_le_footHi
  induction l generalizing before with
  | nil =>
    cases h
    exact ⟨rfl, [], by simp, by simp, by simp, by simp⟩
  | cons r rest ih =>
    have hr := (hg.ok r mem_cons_self).base_lt_stop
    have hrlo := r.footLo_le
    have hrhi := r.stop_le_footHi
    rw [spaceInsert] at h
    split_ifs at h with hcol hbase
    · cases h
      refine ⟨rfl, [], rfl, rfl, by simp, ?_⟩
      simp only [Region.Collides, not_and, not_lt] at hcol
      have hfirst : region.footHi ≤ r.footLo := hcol (by omega)
      intro x hx
      rcases mem_cons.mp hx with rfl | hx
      · exact hfirst
      · have := rel_of_pairwise_cons hg.laid hx
        omega
    · obtain ⟨hhere, passed, hbefore, hlist, hpassed, hafter⟩ := ih hg.tail h
      refine ⟨hhere, passed ++ [r], by simpa using hbefore, ?_, ?_, hafter⟩
      · simpa using hlist
      · intro x hx
        rcases mem_append.mp hx with hx | hx
        · exact hpassed x hx
        · rw [mem_singleton] at hx
          subst hx
          simp only [Region.Collides, not_and, not_lt] at hcol
          by_contra hlt
          omega

/-- `-EEXIST` is given only where footprints meet. -/
theorem spaceInsert_none (h : spaceInsert region before l = none) : ∃ x ∈ l, region.Collides x := by
  induction l generalizing before with
  | nil => cases h
  | cons r rest ih =>
    rw [spaceInsert] at h
    split_ifs at h with hcol hbase
    · exact ⟨r, mem_cons_self, hcol⟩
    · obtain ⟨x, hx, hcol'⟩ := ih h
      exact ⟨x, mem_cons_of_mem r hx, hcol'⟩

/-- A region between two parts that keep clear of its footprint. -/
theorem good_between {A C : List Region} (hg : Good (A ++ C)) (hr : RegionOk region)
    (hA : ∀ x ∈ A, x.footHi ≤ region.footLo) (hC : ∀ x ∈ C, region.footHi ≤ x.footLo) :
    Good (A ++ region :: C) := by
  refine ⟨?_, ?_⟩
  · have hlaid := hg.laid
    simp only [pairwise_append, pairwise_cons, mem_cons] at hlaid ⊢
    obtain ⟨hlA, hlC, hcross⟩ := hlaid
    refine ⟨hlA, ⟨hC, hlC⟩, ?_⟩
    rintro x hx y (rfl | hy)
    · exact hA x hx
    · exact hcross x hx y hy
  · intro x hx
    simp only [mem_append, mem_cons] at hx
    rcases hx with hx | rfl | hx
    · exact hg.ok x (by simp [hx])
    · exact hr
    · exact hg.ok x (by simp [hx])

theorem RegionOk.footHi_mod (h : RegionOk r) : r.footHi % pageSize = 0 := by
  have := h.aligned
  have := h.whole
  simp only [Region.footHi, pageSize] at *
  split_ifs <;> omega

/-- A place for `size` bytes from `lowest` on, with a free page on either side. -/
structure Fits (l : List Region) (lowest size b : ℕ) : Prop where
  low : lowest ≤ b ∧ userLo ≤ b
  aligned : b % pageSize = 0
  high : b + size + pageSize ≤ userHi
  clear : ∀ x ∈ l, x.footHi + pageSize ≤ b ∨ b + size + pageSize ≤ x.footLo

/-- A region more, above the place or below it. -/
theorem Fits.cons {lowest b : ℕ} (h : Fits l lowest size b)
    (hr : r.footHi + pageSize ≤ b ∨ b + size + pageSize ≤ r.footLo) :
    Fits (r :: l) lowest size b :=
  { h with clear := forall_mem_cons.mpr ⟨hr, h.clear⟩ }

/-- **First fit finds a gap.** -/
theorem firstFit_spec (hg : Good l) (hal : cursor % pageSize = 0) (hlow : userLo ≤ cursor)
    (h : firstFit size cursor l ≠ 0) : Fits l cursor size (firstFit size cursor l) := by
  induction l generalizing cursor with
  | nil =>
    rw [firstFit] at h ⊢
    split_ifs at h ⊢ with hfit
    · exact ⟨⟨le_refl _, hlow⟩, hal, by omega, by simp⟩
    · exact absurd rfl h
  | cons r rest ih =>
    have hok := hg.ok r mem_cons_self
    have hrlo := r.footLo_le
    have hbase := hok.base_lt_stop
    have hhigh := hok.high
    rw [firstFit] at h ⊢
    split_ifs at h ⊢ with hskip hfit hvalid
    · have hrest := ih hg.tail hal hlow h
      exact hrest.cons (.inl (hskip.trans hrest.low.1))
    · refine ⟨⟨le_refl _, hlow⟩, hal, by omega, fun x hx => .inr ?_⟩
      rcases mem_cons.mp hx with rfl | hx
      · omega
      · have := rel_of_pairwise_cons hg.laid hx
        have := r.stop_le_footHi
        omega
    · exact absurd rfl h
    · have hmod := hok.footHi_mod
      have hal' : max (r.footHi + pageSize) cursor % pageSize = 0 := by
        rcases Nat.le_total (r.footHi + pageSize) cursor with hle | hle
        · rwa [Nat.max_eq_right hle]
        · rw [Nat.max_eq_left hle]
          simp only [pageSize] at *
          omega
      have hrest := ih hg.tail hal' (by omega) h
      obtain ⟨hge, hlo⟩ := hrest.low
      exact Fits.cons { hrest with low := ⟨by omega, hlo⟩ } (.inl (by omega))

theorem pageAlignUp_mod (x : ℕ) : pageAlignUp x % pageSize = 0 := Nat.mul_mod_left _ _

theorem le_pageAlignUp (x : ℕ) : x ≤ pageAlignUp x := by
  simp only [pageAlignUp, pageSize]
  omega

/-- The answer of `range_first_fit_locked`, if there is one. -/
theorem rangeFirstFitLocked_spec (hg : Good l) {lowest : ℕ}
    (h : rangeFirstFitLocked l lowest size ≠ 0) :
    Fits l lowest size (rangeFirstFitLocked l lowest size) := by
  simp only [rangeFirstFitLocked] at h ⊢
  split_ifs at h ⊢ with hbad
  · exact absurd rfl h
  · have hup := le_pageAlignUp (max lowest userLo)
    have hfit := firstFit_spec hg (pageAlignUp_mod _) (by omega) h
    obtain ⟨hge, hlo⟩ := hfit.low
    exact { hfit with low := ⟨by omega, hlo⟩ }

/-! ## Counting and unlinking -/

theorem fullyMapped_spec {stop : ℕ} (h : fullyMapped stop cursor l = true)
    (hlo : cursor ≤ va) (hhi : va < stop) : ∃ r ∈ l, r.base ≤ va ∧ va < r.stop := by
  induction l generalizing cursor with
  | nil => cases h
  | cons r rest ih =>
    rw [fullyMapped] at h
    split_ifs at h with hskip hgap hall
    · obtain ⟨x, hx, hover⟩ := ih h hlo
      exact ⟨x, mem_cons_of_mem r hx, hover⟩
    · exact ⟨r, mem_cons_self, by omega, by omega⟩
    · by_cases hva : va < r.stop
      · exact ⟨r, mem_cons_self, by omega, hva⟩
      · obtain ⟨x, hx, hover⟩ := ih h (by omega)
        exact ⟨x, mem_cons_of_mem r hx, hover⟩

/-- Nothing a list has from `a` on begins before the list does. -/
theorem inside_of_ge {a b : ℕ} (h : ∀ r ∈ l, b ≤ r.base) :
    inside a b l = [] := by
  apply below_of_ge
  intro x hx
  obtain ⟨r, hr, -, rfl⟩ := mem_above.mp hx
  rw [Region.base_clipAbove]
  exact (h r hr).trans (Nat.le_max_left _ _)

theorem inside_cons (a b : ℕ) (r : Region) (l : List Region) :
    inside a b (r :: l) = inside a b [r] ++ inside a b l := by
  rw [inside, inside, inside, ← below_append, ← above_append, singleton_append]

/-- **`covered_pages`** counts the pages of what the list has inside the range. -/
theorem coveredPages_eq (hg : Good l) (base : ℕ) (hpos : 0 < size) :
    coveredPages l base size = pages (inside base (base + size) l) := by
  induction l with
  | nil => rfl
  | cons r rest ih =>
    have ih := ih hg.tail
    have hr := (hg.ok r mem_cons_self).base_lt_stop
    rw [inside_cons, pages_append]
    simp only [coveredPages, regionsIn, visited] at ih ⊢
    split_ifs with hskip hstop
    · have hone : inside base (base + size) [r] = [] := by
        rw [inside, above_of_le (by simpa using hskip)]
        rfl
      rw [hone, ih]
      simp [pages]
    · have hrest : ∀ x ∈ rest, base + size ≤ x.base := by
        intro x hx
        have := hg.ordered.le_of_mem hx
        omega
      have hone : inside base (base + size) [r] = [] := inside_of_ge (by simpa using hstop)
      rw [hone, inside_of_ge hrest]
      rfl
    · have hin : base < r.stop := by omega
      have hbase : (r.clipAbove base).base < base + size := by
        rw [Region.base_clipAbove]
        omega
      have hone : inside base (base + size) [r] =
          [(r.clipAbove base).clipBelow (base + size)] := by
        simp [inside, above, below, hin, hbase]
      have hsize : ((r.clipAbove base).clipBelow (base + size)).size =
          min r.stop (base + size) - max r.base base := by
        have h₁ := Region.base_clipBelow (base + size) (r.clipAbove base)
        have h₂ := Region.stop_clipBelow hbase
        rw [Region.base_clipAbove] at h₁
        rw [Region.stop_clipAbove hin, Region.stop, h₁] at h₂
        omega
      rw [hone, map_cons, sum_cons, ih, pages_cons, hsize]
      simp [pages]

/-- **Unlinking the regions of a range** leaves what is below it and what is above. -/
theorem unlinkRange_spec {A M C : List Region}
    (h : Divided Region.base Region.stop base (base + size) l A M C) :
    unlinkRange l base size = some (A ++ C, M) := by
  have hle : base ≤ base + size := Nat.le_add_right _ _
  have hall : M.all (fun r => decide (base ≤ r.base ∧ r.stop ≤ base + size)) = true := by
    rw [all_eq_true]
    intro r hr
    obtain ⟨hlo, -, hhi⟩ := h.inside r hr
    simpa using ⟨hlo, hhi⟩
  simp only [unlinkRange, regionsIn, h.visited hle]
  rw [if_pos hall, h.editVisited hle, filterMap_none]
  rfl

theorem page_mem_iff (h : RegionOk r) (p : ℕ) :
    (r.base ≤ p * pageSize ∧ p * pageSize < r.stop) ↔
      p ∈ Finset.Ico (r.base / pageSize) (r.base / pageSize + r.size / pageSize) := by
  have hb := h.aligned
  have hs := h.whole
  rw [Finset.mem_Ico]
  simp only [Region.stop, pageSize] at *
  omega

/-- The pages a list maps, read off its regions. -/
theorem covered_eq (hg : Good l) :
    {p : ℕ | (view l (p * pageSize)).isSome} =
      {p : ℕ | ∃ r ∈ l, r.base ≤ p * pageSize ∧ p * pageSize < r.stop} := by
  ext p
  simp only [Set.mem_ofPred_eq, Option.isSome_iff_exists, view_eq_some hg]
  constructor
  · rintro ⟨x, r, hr, hover, -⟩
    exact ⟨r, hr, hover⟩
  · rintro ⟨r, hr, hover⟩
    exact ⟨_, r, hr, hover, rfl⟩

/-- **The pages the regions account for are the pages the list covers.** -/
theorem ncard_covered (hg : Good l) :
    {p : ℕ | (view l (p * pageSize)).isSome}.ncard = pages l ∧
      {p : ℕ | (view l (p * pageSize)).isSome}.Finite := by
  rw [covered_eq hg]
  induction l with
  | nil => simp [pages]
  | cons r rest ih =>
    have hok := hg.ok r mem_cons_self
    obtain ⟨hcard, hfin⟩ := ih hg.tail
    have hunion : {p : ℕ | ∃ x ∈ r :: rest, x.base ≤ p * pageSize ∧ p * pageSize < x.stop} =
        ↑(Finset.Ico (r.base / pageSize) (r.base / pageSize + r.size / pageSize)) ∪
          {p : ℕ | ∃ x ∈ rest, x.base ≤ p * pageSize ∧ p * pageSize < x.stop} := by
      ext p
      simp only [mem_cons, exists_eq_or_imp, Set.mem_ofPred_eq, page_mem_iff hok,
        Set.mem_union, Finset.mem_coe]
    have hdisj : Disjoint
        (↑(Finset.Ico (r.base / pageSize) (r.base / pageSize + r.size / pageSize)) : Set ℕ)
        {p : ℕ | ∃ x ∈ rest, x.base ≤ p * pageSize ∧ p * pageSize < x.stop} := by
      rw [Set.disjoint_left]
      rintro p hp ⟨x, hx, hover⟩
      rw [Finset.mem_coe, ← page_mem_iff hok] at hp
      have := hg.ordered.le_of_mem hx
      omega
    rw [hunion]
    refine ⟨?_, (Finset.finite_toSet _).union hfin⟩
    rw [Set.ncard_union_eq hdisj (Finset.finite_toSet _) hfin, hcard, Set.ncard_coe_finset,
      Nat.card_Ico, pages_cons, Nat.add_sub_cancel_left]

end CosmoOS.Memory.UserSpace
