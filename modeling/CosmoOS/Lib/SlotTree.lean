import Mathlib.Logic.Function.Basic
import Mathlib.Data.List.Nodup

/-!
# Trees of blocks that name blocks

A tree on a pool is blocks whose slots hold the addresses of other blocks, 0 for none.  Its shape is
a function `S h x k`: slot `k` of block `x`, read as a node of height `h` (0 when it is no such
node).

A *position* is the list of the slots followed from the root, **the last one first**, so that `find`
recurses on the position itself.

Copy on write changes such a tree one position at a time: a new block takes the slots of the one
that was there, and the slot that named the old block is pointed at it.  `find_repointed` says that
every other position keeps its block.  It needs that no block stands at two positions (`Apart`), for
a slot written through one of them would otherwise be seen through the other.
-/

namespace CosmoOS.Lib.SlotTree

open Function List

variable {S S' : ℕ → ℕ → ℕ → ℕ} {H root root' : ℕ}

variable {P : List ℕ} {d top : ℕ}

/-- The block at a position, 0 when there is none. -/
def find (S : ℕ → ℕ → ℕ → ℕ) (H root : ℕ) : List ℕ → ℕ
  | [] => root
  | k :: p => S (H - p.length) (find S H root p) k

@[simp] theorem find_nil : find S H root [] = root := rfl

@[simp] theorem find_cons (k : ℕ) (p : List ℕ) :
    find S H root (k :: p) = S (H - p.length) (find S H root p) k := rfl

/-- No block stands at two positions. -/
def Apart (S : ℕ → ℕ → ℕ → ℕ) (H root : ℕ) : Prop :=
  ∀ p q, find S H root p = find S H root q → find S H root p ≠ 0 → p = q

/-- A new block `d` with the slots of the block at position `P` has taken its place. -/
structure Repointed (S S' : ℕ → ℕ → ℕ → ℕ) (H root root' : ℕ) (P : List ℕ) (d : ℕ) : Prop where
  fresh : ∀ q, find S H root q ≠ d
  copied : S' (H - P.length) d = S (H - P.length) (find S H root P)
  top : P = [] → root' = d
  held : ∀ k p, P = k :: p → root' = root ∧ find S H root p ≠ 0 ∧
    S' (H - p.length) (find S H root p) =
      update (S (H - p.length) (find S H root p)) k d
  same : ∀ h x, x ≠ d → (∀ k p, P = k :: p → x ≠ find S H root p) → S' h x = S h x

/-- **Repointing one position** leaves the block of every other. -/
theorem find_repointed (ha : Apart S H root) (h : Repointed S S' H root root' P d) (q : List ℕ) :
    find S' H root' q = if q = P then d else find S H root q := by
  induction q with
  | nil =>
    cases P with
    | nil => rw [if_pos rfl, find_nil, h.top rfl]
    | cons k p => rw [if_neg (by simp), find_nil, find_nil, (h.held k p rfl).1]
  | cons j r ih =>
    rw [find_cons, ih]
    by_cases hr : r = P
    · -- below the new block the slots are those of the old one
      subst hr
      rw [if_pos rfl, h.copied, if_neg (by simp), find_cons]
    · rw [if_neg hr]
      by_cases hx : ∃ k p, P = k :: p ∧ find S H root r = find S H root p
      · obtain ⟨k, p, rfl, hx⟩ := hx
        obtain ⟨-, hp0, hslot⟩ := h.held k p rfl
        obtain rfl : r = p := ha r p hx (by rw [hx]; exact hp0)
        rw [hslot]
        by_cases hj : j = k
        · rw [hj, update_self, if_pos rfl]
        · rw [update_of_ne hj, if_neg (by simp [hj]), find_cons]
      · have hne : ∀ k p, P = k :: p → find S H root r ≠ find S H root p :=
          fun k p hP heq => hx ⟨k, p, hP, heq⟩
        have hq : ¬ (j :: r) = P := by
          intro hP
          exact hne j r hP.symm rfl
        rw [h.same _ _ (h.fresh r) hne, if_neg hq, find_cons]

theorem apart_repointed (ha : Apart S H root)
    (h : Repointed S S' H root root' P d) : Apart S' H root' := by
  intro p q heq hne
  rw [find_repointed ha h] at heq hne
  rw [find_repointed ha h] at heq
  by_cases hp : p = P
  · rw [if_pos hp] at heq hne
    by_cases hq : q = P
    · rw [hp, hq]
    · rw [if_neg hq] at heq
      exact absurd heq.symm (h.fresh q)
  · rw [if_neg hp] at heq hne
    by_cases hq : q = P
    · rw [if_pos hq] at heq
      exact absurd heq (h.fresh p)
    · rw [if_neg hq] at heq
      exact ha p q heq hne

/-- A new root above the old one, which is its slot 0. -/
structure Raised (S S' : ℕ → ℕ → ℕ → ℕ) (H root top : ℕ) : Prop where
  ne_zero : top ≠ 0
  fresh : ∀ q, find S H root q ≠ top
  slots : S' (H + 1) top = update (fun _ => 0) 0 root
  same : ∀ h x, x ≠ top → S' h x = S h x

/-- **Under a new root** the tree is as it was, one slot further down. -/
theorem find_raised (h0 : ∀ h k, S h 0 k = 0) (h : Raised S S' H root top) (p : List ℕ) (j : ℕ) :
    find S' (H + 1) top (p ++ [j]) = if j = 0 then find S H root p else 0 := by
  induction p with
  | nil =>
    show S' (H + 1 - 0) top j = _
    rw [Nat.sub_zero, h.slots]
    by_cases hj : j = 0
    · rw [hj, update_self, if_pos rfl, find_nil]
    · rw [update_of_ne hj, if_neg hj]
  | cons k p ih =>
    have hh : H + 1 - (p ++ [j]).length = H - p.length := by
      rw [length_append, length_singleton]
      omega
    rw [cons_append, find_cons, ih, hh]
    by_cases hj : j = 0
    · rw [if_pos hj, if_pos hj, h.same _ _ (h.fresh p), find_cons]
    · rw [if_neg hj, if_neg hj, h.same _ _ (Ne.symm h.ne_zero), h0]

theorem apart_raised (h0 : ∀ h k, S h 0 k = 0) (ha : Apart S H root)
    (h : Raised S S' H root top) : Apart S' (H + 1) top := by
  -- a position is the new root's own, or one of the old tree's with a slot before it
  have hpos : ∀ q : List ℕ, q = [] ∨ ∃ p j, q = p ++ [j] := fun q => by
    rcases eq_nil_or_concat q with hq | ⟨p, j, hq⟩
    · exact .inl hq
    · exact .inr ⟨p, j, by rw [hq, concat_eq_append]⟩
  have hlow : ∀ p j, find S' (H + 1) top (p ++ [j]) ≠ 0 → j = 0 ∧
      find S' (H + 1) top (p ++ [j]) = find S H root p := by
    intro p j hne
    rw [find_raised h0 h] at hne ⊢
    by_cases hj : j = 0
    · exact ⟨hj, if_pos hj⟩
    · exact absurd (if_neg hj) hne
  intro p q heq hne
  rcases hpos p with rfl | ⟨p, j, rfl⟩
  · rcases hpos q with rfl | ⟨q, i, rfl⟩
    · rfl
    · obtain ⟨-, hq⟩ := hlow q i (by rw [← heq]; exact hne)
      exact absurd (hq.symm.trans heq.symm) (h.fresh q)
  · obtain ⟨rfl, hp⟩ := hlow p j hne
    rcases hpos q with rfl | ⟨q, i, rfl⟩
    · exact absurd (hp.symm.trans heq) (h.fresh p)
    · obtain ⟨rfl, hq⟩ := hlow q i (by rw [← heq]; exact hne)
      rw [hp, hq] at heq
      rw [hp] at hne
      rw [ha p q heq hne]

/-! ## All the blocks of a tree -/

/-- The positions at and below `P`, `h` levels down and with `n` slots a block, each after
those below it. -/
def positions (n : ℕ) : ℕ → List ℕ → List (List ℕ)
  | 0, P => [P]
  | h + 1, P => (List.range n).flatMap (fun k => positions n h (k :: P)) ++ [P]

theorem mem_positions {n h : ℕ} {q : List ℕ} :
    q ∈ positions n h P ↔ ∃ r, q = r ++ P ∧ r.length ≤ h ∧ ∀ k ∈ r, k < n := by
  induction h generalizing P with
  | zero =>
    rw [positions, mem_singleton]
    constructor
    · rintro rfl
      exact ⟨[], rfl, Nat.le_refl _, by simp⟩
    · rintro ⟨r, rfl, hr, -⟩
      rw [length_eq_zero_iff.mp (Nat.le_zero.mp hr), nil_append]
  | succ h ih =>
    rw [positions, mem_append, mem_singleton, mem_flatMap]
    constructor
    · rintro (⟨k, hk, hq⟩ | rfl)
      · obtain ⟨r, rfl, hlen, hr⟩ := ih.mp hq
        refine ⟨r ++ [k], by simp, by simpa using hlen, ?_⟩
        intro j hj
        rcases mem_append.mp hj with hj | hj
        · exact hr j hj
        · rw [mem_singleton.mp hj]
          exact mem_range.mp hk
      · exact ⟨[], rfl, Nat.zero_le _, by simp⟩
    · rintro ⟨r, rfl, hlen, hr⟩
      rcases eq_nil_or_concat' r with rfl | ⟨r', k, rfl⟩
      · exact .inr rfl
      · refine .inl ⟨k, mem_range.mpr (hr k (by simp)), ih.mpr ⟨r', ?_, ?_, ?_⟩⟩
        · rw [append_assoc, singleton_append]
        · simpa using hlen
        · exact fun j hj => hr j (mem_append_left _ hj)

theorem nodup_positions (n h : ℕ) (P : List ℕ) : (positions n h P).Nodup := by
  induction h generalizing P with
  | zero => exact nodup_singleton P
  | succ h ih =>
    refine List.Nodup.append ?_ (nodup_singleton P) ?_
    · refine nodup_flatMap.mpr ⟨fun k _ => ih (k :: P), ?_⟩
      refine nodup_range.imp fun {j k} hne => ?_
      -- two slots' subtrees differ in the position's entry just before `P`
      intro q hj hk
      obtain ⟨r, rfl, -, -⟩ := mem_positions.mp hj
      obtain ⟨r', heq, -, -⟩ := mem_positions.mp hk
      have hlen : r.length = r'.length := by
        have := congrArg List.length heq
        simpa using this
      have htail := (append_inj heq hlen).2
      exact hne (List.cons.inj htail).1
    · intro q hq hP
      obtain ⟨k, -, hk⟩ := mem_flatMap.mp hq
      obtain ⟨r, heq, -, -⟩ := mem_positions.mp hk
      rw [mem_singleton.mp hP] at heq
      have := congrArg List.length heq
      simp only [length_append, length_cons] at this
      omega

/-- The blocks at and below `P`, each after those below it. -/
def blocks (S : ℕ → ℕ → ℕ → ℕ) (H root n h : ℕ) (P : List ℕ) : List ℕ :=
  ((positions n h P).map (find S H root)).filter (· ≠ 0)

theorem mem_blocks {n h : ℕ} :
    d ∈ blocks S H root n h P ↔
      d ≠ 0 ∧ ∃ r, r.length ≤ h ∧ (∀ k ∈ r, k < n) ∧ find S H root (r ++ P) = d := by
  rw [blocks, mem_filter, decide_eq_true_iff, mem_map, and_comm]
  refine and_congr_right fun _ => ⟨?_, ?_⟩
  · rintro ⟨q, hq, hd⟩
    obtain ⟨r, rfl, hlen, hr⟩ := mem_positions.mp hq
    exact ⟨r, hlen, hr, hd⟩
  · rintro ⟨r, hlen, hr, hd⟩
    exact ⟨r ++ P, mem_positions.mpr ⟨r, rfl, hlen, hr⟩, hd⟩

/-- **Each block of a tree once.** -/
theorem nodup_blocks (ha : Apart S H root) (n h : ℕ) (P : List ℕ) :
    (blocks S H root n h P).Nodup := by
  rw [blocks, filter_map]
  refine List.Nodup.map_on ?_ ((nodup_positions n h P).filter _)
  intro p hp q _ heq
  have hp0 := (mem_filter.mp hp).2
  exact ha p q heq (by simpa using hp0)

theorem blocks_zero (n : ℕ) (P : List ℕ) :
    blocks S H root n 0 P = if find S H root P = 0 then [] else [find S H root P] := by
  rw [blocks, positions, map_singleton]
  by_cases h : find S H root P = 0
  · rw [if_pos h, h]
    rfl
  · rw [if_neg h, filter_cons_of_pos (by simpa using h), filter_nil]

theorem blocks_succ (n h : ℕ) (P : List ℕ) :
    blocks S H root n (h + 1) P =
      (List.range n).flatMap (fun k => blocks S H root n h (k :: P)) ++
        blocks S H root n 0 P := by
  simp only [blocks, positions, map_append, filter_append, map_flatMap,
    filter_flatMap]

theorem blocks_of_none (h0 : ∀ h k, S h 0 k = 0) (hP : find S H root P = 0)
    (n h : ℕ) : blocks S H root n h P = [] := by
  have hbelow : ∀ r, find S H root (r ++ P) = 0 := by
    intro r
    induction r with
    | nil => exact hP
    | cons k r ih => rw [cons_append, find_cons, ih, h0]
  refine eq_nil_iff_forall_not_mem.mpr fun d hd => ?_
  obtain ⟨hne, r, -, -, hr⟩ := mem_blocks.mp hd
  exact hne (hr.symm.trans (hbelow r))

end CosmoOS.Lib.SlotTree
