import Mathlib.Data.List.Basic
import Mathlib.Data.Nat.Notation

/-!
# Ordered lists of segments

A map of an address range is kept as a list of segments `[lo r, hi r)` in ascending order, none
overlapping the next.  The loops over such a list have one shape: pass over the segments that end at
or before the start of a range, stop at the first one that begins at or after its end, and do
something to those in between.  Stopping early is sound only because the list is ordered.

The position a loop has reached is a `Cursor`.  What a list of segments stands for is its `lookup`:
the partial function that gives at each address the value of the segment over it.  For a list
divided by a range, what is outside does not depend on the middle part (`Divided.lookup_outside`)
and what is inside depends on nothing else (`Divided.lookup_inside`).
-/

namespace CosmoOS.Lib.Segments

open List

variable {α β : Type*}

/-- A place in a list: what lies before it, nearest first, the element there, the rest. -/
structure Cursor (α : Type*) where
  before : List α
  here : α
  after : List α

/-- The list a cursor is a place of. -/
def Cursor.list (c : Cursor α) : List α := c.before.reverse ++ c.here :: c.after

theorem Cursor.list_cons (before : List α) (x y : α) (after : List α) :
    (⟨x :: before, y, after⟩ : Cursor α).list = before.reverse ++ x :: y :: after := by
  simp [Cursor.list]

/-- The list without the element at the place. -/
def Cursor.remove (c : Cursor α) : List α := c.before.reverse ++ c.after

variable (lo hi : α → ℕ)

/-- Segments in ascending order, none overlapping a later one or turned inside out. -/
structure Ordered (l : List α) : Prop where
  pairwise : l.Pairwise fun a b => hi a ≤ lo b
  proper : ∀ r ∈ l, lo r ≤ hi r

/-! ## The loops -/

/-- The segment over `va`, stopping at the first one that begins beyond it. -/
def seek (va : ℕ) : List α → List α → Option (Cursor α)
  | _, [] => none
  | before, r :: rest =>
    if lo r ≤ va ∧ va < hi r then some ⟨before, r, rest⟩
    else if va < lo r then none
    else seek va (r :: before) rest

/-- The segments a loop over `[a, b)` comes to. -/
def visited (a b : ℕ) : List α → List α
  | [] => []
  | r :: rest =>
    if hi r ≤ a then visited a b rest
    else if b ≤ lo r then []
    else r :: visited a b rest

/-- The first segment a loop over `[a, b)` comes to. -/
def firstVisited (a b : ℕ) : List α → List α → Option (Cursor α)
  | _, [] => none
  | before, r :: rest =>
    if hi r ≤ a then firstVisited a b (r :: before) rest
    else if b ≤ lo r then none
    else some ⟨before, r, rest⟩

/-- A loop over `[a, b)` that replaces each segment it comes to, or takes it out. -/
def editVisited (a b : ℕ) (f : α → Option α) : List α → List α
  | [] => []
  | r :: rest =>
    if hi r ≤ a then r :: editVisited a b f rest
    else if b ≤ lo r then r :: rest
    else (f r).toList ++ editVisited a b f rest

variable {lo hi}

variable {va a b : ℕ} {before l rest C A M : List α} {r : α}

theorem seek_some {c : Cursor α} (h : seek lo hi va before l = some c) :
    c.list = before.reverse ++ l ∧ lo c.here ≤ va ∧ va < hi c.here := by
  induction l generalizing before with
  | nil => simp [seek] at h
  | cons r rest ih =>
    rw [seek] at h
    split_ifs at h with hin hpast
    · cases h
      exact ⟨rfl, hin.1, hin.2⟩
    · obtain ⟨hlist, hover⟩ := ih h
      exact ⟨by simpa using hlist, hover⟩

theorem Ordered.le_of_mem {x : α} (hl : Ordered lo hi (r :: rest)) (hx : x ∈ rest) :
    hi r ≤ lo x := rel_of_pairwise_cons hl.pairwise hx

theorem Ordered.sublist {l' : List α} (hl : Ordered lo hi l) (hs : l'.Sublist l) :
    Ordered lo hi l' :=
  ⟨hl.pairwise.sublist hs, fun r hr => hl.proper r (hs.subset hr)⟩

theorem Ordered.tail (hl : Ordered lo hi (r :: rest)) : Ordered lo hi rest :=
  hl.sublist (sublist_cons_self r rest)

theorem seek_none (hl : Ordered lo hi l) (h : seek lo hi va before l = none) :
    ∀ r ∈ l, ¬ (lo r ≤ va ∧ va < hi r) := by
  induction l generalizing before with
  | nil => simp
  | cons r rest ih =>
    rw [seek] at h
    split_ifs at h with hin hpast
    · intro x hx hover
      rcases mem_cons.mp hx with rfl | hx
      · exact hin hover
      · have := hl.le_of_mem hx
        have := hl.proper r mem_cons_self
        omega
    · intro x hx
      rcases mem_cons.mp hx with rfl | hx
      · exact hin
      · exact ih hl.tail h x hx

theorem firstVisited_some {c : Cursor α} (h : firstVisited lo hi a b before l = some c) :
    c.list = before.reverse ++ l := by
  induction l generalizing before with
  | nil => simp [firstVisited] at h
  | cons r rest ih =>
    rw [firstVisited] at h
    split_ifs at h with hskip hstop
    · simpa using ih h
    · cases h
      rfl

/-! ## A list divided by a range -/

/-- A list in three parts: what ends at or before `a`, what meets `[a, b)` and lies inside it,
and what begins at or after `b`. -/
structure Divided (lo hi : α → ℕ) (a b : ℕ) (l A M C : List α) : Prop where
  whole : l = A ++ (M ++ C)
  head : ∀ r ∈ A, hi r ≤ a
  inside : ∀ r ∈ M, a ≤ lo r ∧ lo r < hi r ∧ hi r ≤ b
  rest : ∀ r ∈ C, b ≤ lo r ∧ lo r < hi r

/-- A list all of whose segments begin beyond the range is not touched by a loop over it. -/
theorem editVisited_of_ge {f : α → Option α} (hC : ∀ r ∈ C, b ≤ lo r ∧ lo r < hi r) (hab : a ≤ b) :
    editVisited lo hi a b f C = C := by
  cases C with
  | nil => rfl
  | cons r rest =>
    obtain ⟨hb, hr⟩ := hC r mem_cons_self
    rw [editVisited, if_neg (by omega), if_pos hb]

theorem visited_of_ge (hC : ∀ r ∈ C, b ≤ lo r ∧ lo r < hi r) (hab : a ≤ b) :
    visited lo hi a b C = [] := by
  cases C with
  | nil => rfl
  | cons r rest =>
    obtain ⟨hb, hr⟩ := hC r mem_cons_self
    rw [visited, if_neg (by omega), if_pos hb]

/-- **A loop over the range edits the middle part.** -/
theorem Divided.editVisited (h : Divided lo hi a b l A M C) (hab : a ≤ b) (f : α → Option α) :
    editVisited lo hi a b f l = A ++ (M.filterMap f ++ C) := by
  obtain ⟨rfl, hA, hM, hC⟩ := h
  induction A with
  | nil =>
    clear hA
    simp only [nil_append]
    induction M with
    | nil => simpa using editVisited_of_ge hC hab
    | cons r rest ih =>
      obtain ⟨hlo, hr, hhi⟩ := hM r mem_cons_self
      rw [cons_append, Segments.editVisited, if_neg (by omega), if_neg (by omega),
        ih fun x hx => hM x (mem_cons_of_mem r hx), filterMap_cons]
      cases f r <;> rfl
  | cons r rest ih =>
    rw [cons_append, Segments.editVisited, if_pos (hA r mem_cons_self),
      ih fun x hx => hA x (mem_cons_of_mem r hx), cons_append]

theorem Divided.visited (h : Divided lo hi a b l A M C) (hab : a ≤ b) :
    visited lo hi a b l = M := by
  obtain ⟨rfl, hA, hM, hC⟩ := h
  induction A with
  | nil =>
    clear hA
    simp only [nil_append]
    induction M with
    | nil => simpa using visited_of_ge hC hab
    | cons r rest ih =>
      obtain ⟨hlo, hr, hhi⟩ := hM r mem_cons_self
      rw [cons_append, Segments.visited, if_neg (by omega), if_neg (by omega),
        ih fun x hx => hM x (mem_cons_of_mem r hx)]
  | cons r rest ih =>
    rw [cons_append, Segments.visited, if_pos (hA r mem_cons_self),
      ih fun x hx => hA x (mem_cons_of_mem r hx)]

/-! ## What a list stands for -/

variable (lo hi) in
/-- The value at `va` of the segment over it. -/
def lookup (val : α → ℕ → β) (l : List α) (va : ℕ) : Option β :=
  (seek lo hi va [] l).map fun c => val c.here va

variable {val : α → ℕ → β}

section

variable (hl : Ordered lo hi l)

include hl

theorem Ordered.eq_of_over {x : α} (hr : r ∈ l) (hx : x ∈ l) (hrva : lo r ≤ va ∧ va < hi r)
    (hxva : lo x ≤ va ∧ va < hi x) : r = x := by
  by_contra hne
  induction l with
  | nil => simp at hr
  | cons y rest ih =>
    rcases mem_cons.mp hr with rfl | hr' <;> rcases mem_cons.mp hx with rfl | hx'
    · exact hne rfl
    · have := hl.le_of_mem hx'
      omega
    · have := hl.le_of_mem hr'
      omega
    · exact ih hl.tail hr' hx'

theorem seek_of_mem (hr : r ∈ l) (hover : lo r ≤ va ∧ va < hi r) :
    ∃ c, seek lo hi va [] l = some c ∧ c.here = r := by
  cases hs : seek lo hi va [] l with
  | none => exact absurd hover (seek_none hl hs r hr)
  | some c =>
    obtain ⟨hlist, hover'⟩ := seek_some hs
    have hmem : c.here ∈ c.list := by simp [Cursor.list]
    rw [hlist] at hmem
    exact ⟨c, rfl, hl.eq_of_over hmem hr hover' hover⟩

/-- **What `lookup` reports**: a value is there when some segment over the address has it. -/
theorem lookup_eq_some {x : β} :
    lookup lo hi val l va = some x ↔ ∃ r ∈ l, (lo r ≤ va ∧ va < hi r) ∧ val r va = x := by
  rw [lookup, Option.map_eq_some_iff]
  constructor
  · rintro ⟨c, hs, rfl⟩
    obtain ⟨hlist, hover⟩ := seek_some hs
    have hmem : c.here ∈ c.list := by simp [Cursor.list]
    rw [hlist] at hmem
    exact ⟨c.here, hmem, hover, rfl⟩
  · rintro ⟨r, hr, hover, rfl⟩
    obtain ⟨c, hs, rfl⟩ := seek_of_mem hl hr hover
    exact ⟨c, hs, rfl⟩

theorem lookup_congr {l' : List α} (hl' : Ordered lo hi l')
    (h : ∀ x, (∃ r ∈ l, (lo r ≤ va ∧ va < hi r) ∧ val r va = x) ↔
      ∃ r ∈ l', (lo r ≤ va ∧ va < hi r) ∧ val r va = x) :
    lookup lo hi val l va = lookup lo hi val l' va := by
  apply Option.ext
  intro x
  rw [lookup_eq_some hl, lookup_eq_some hl']
  exact h x

end

/-- Outside the range it makes no difference what the middle part is. -/
theorem Divided.lookup_outside {X : List α} (h : Divided lo hi a b l A M C) (hl : Ordered lo hi l)
    (hX : ∀ r ∈ X, a ≤ lo r ∧ hi r ≤ b) (hl' : Ordered lo hi (A ++ (X ++ C)))
    (hva : ¬ (a ≤ va ∧ va < b)) :
    lookup lo hi val (A ++ (X ++ C)) va = lookup lo hi val l va := by
  apply lookup_congr hl' hl
  intro x
  rw [h.whole]
  simp only [mem_append]
  constructor
  · rintro ⟨r, hr | hr | hr, hover, hx⟩
    · exact ⟨r, Or.inl hr, hover, hx⟩
    · have := hX r hr
      omega
    · exact ⟨r, Or.inr (Or.inr hr), hover, hx⟩
  · rintro ⟨r, hr | hr | hr, hover, hx⟩
    · exact ⟨r, Or.inl hr, hover, hx⟩
    · have := h.inside r hr
      omega
    · exact ⟨r, Or.inr (Or.inr hr), hover, hx⟩

/-- Inside the range only the middle part counts. -/
theorem Divided.lookup_inside {X : List α} (h : Divided lo hi a b l A M C)
    (hl' : Ordered lo hi (A ++ (X ++ C))) (hva : a ≤ va ∧ va < b) :
    lookup lo hi val (A ++ (X ++ C)) va = lookup lo hi val X va := by
  have hsub : (X ++ C).Sublist (A ++ (X ++ C)) := sublist_append_right A (X ++ C)
  have hsubX : X.Sublist (A ++ (X ++ C)) := (sublist_append_left X C).trans hsub
  apply lookup_congr hl' (hl'.sublist hsubX)
  intro x
  simp only [mem_append]
  constructor
  · rintro ⟨r, hr | hr | hr, hover, hx⟩
    · have := h.head r hr
      omega
    · exact ⟨r, hr, hover, hx⟩
    · have := h.rest r hr
      omega
  · rintro ⟨r, hr, hover, hx⟩
    exact ⟨r, Or.inr (Or.inl hr), hover, hx⟩

/-- A change of the segments that moves none of them changes the values and nothing else. -/
theorem lookup_map (f : α → α) (g : β → β) (hlo : ∀ r, lo (f r) = lo r)
    (hhi : ∀ r, hi (f r) = hi r) (hval : ∀ r va, val (f r) va = g (val r va))
    (hl : Ordered lo hi l) (va : ℕ) :
    lookup lo hi val (l.map f) va = (lookup lo hi val l va).map g := by
  have hl' : Ordered lo hi (l.map f) := by
    refine ⟨pairwise_map.mpr (hl.pairwise.imp fun h => by rwa [hlo, hhi]), ?_⟩
    simpa [hlo, hhi] using hl.proper
  apply Option.ext
  intro x
  rw [lookup_eq_some hl', Option.map_eq_some_iff]
  constructor
  · rintro ⟨r, hr, hover, hx⟩
    obtain ⟨y, hy, rfl⟩ := mem_map.mp hr
    rw [hlo, hhi] at hover
    exact ⟨val y va, (lookup_eq_some hl).mpr ⟨y, hy, hover, rfl⟩, by rw [← hval, hx]⟩
  · rintro ⟨y, hy, rfl⟩
    obtain ⟨r, hr, hover, rfl⟩ := (lookup_eq_some hl).mp hy
    exact ⟨f r, mem_map_of_mem hr, by rwa [hlo, hhi], hval r va⟩

end CosmoOS.Lib.Segments
