import Mathlib.Data.Nat.Bitwise
import Mathlib.Data.Set.Basic
import Mathlib.Tactic.Ring

/-!
# Naturally aligned blocks of a power of two

A block is `2 ^ order` consecutive pages whose first one is a multiple of `2 ^ order`.  Two such
blocks are either apart or nested, and a block of order `k` and its *buddy*, the block whose start
differs in bit `k` alone, are the two halves of one block of order `k + 1`.

Call a set of blocks *merged below `M`* when it never holds a block of an order below `M` together
with its buddy.  In such a set, of blocks that are pairwise apart, an aligned run of `2 ^ k` pages
(`k ≤ M`) is covered only if **one** block covers it whole: a run put together from smaller blocks
would have a smallest one, and its buddy would be covered too, by a block that can be neither
smaller nor larger.  So a merged set is determined by its pages (`Coalesced.subset`).
-/

namespace CosmoOS.Lib.Dyadic

/-- A block: its first page and its order. -/
structure Block where
  start : ℕ
  order : ℕ
deriving DecidableEq, Repr

namespace Block

def Covers (b : Block) (p : ℕ) : Prop := b.start ≤ p ∧ p < b.start + 2 ^ b.order

instance (b : Block) (p : ℕ) : Decidable (b.Covers p) := inferInstanceAs (Decidable (_ ∧ _))

/-- Naturally aligned: the start is a multiple of the size. -/
def Aligned (b : Block) : Prop := 2 ^ b.order ∣ b.start

instance (b : Block) : Decidable b.Aligned := inferInstanceAs (Decidable (_ ∣ _))

def Apart (b c : Block) : Prop := ∀ p, b.Covers p → ¬ c.Covers p

variable {b c : Block}

theorem Apart.symm (h : Apart b c) : Apart c b := fun p hc hb => h p hb hc

theorem covers_start (b : Block) : b.Covers b.start :=
  ⟨le_refl _, Nat.lt_add_of_pos_right (Nat.two_pow_pos _)⟩

/-- A block is apart from no block that has one of its pages, itself included. -/
theorem Apart.ne (h : Apart b c) : b ≠ c := by
  rintro rfl
  exact h _ b.covers_start b.covers_start

theorem covers_iff_div (hb : b.Aligned) (p : ℕ) :
    b.Covers p ↔ p / 2 ^ b.order = b.start / 2 ^ b.order := by
  obtain ⟨q, hq⟩ := hb
  have hpos : 0 < 2 ^ b.order := Nat.two_pow_pos _
  rw [Covers, hq, Nat.mul_div_cancel_left _ hpos, Nat.div_eq_iff hpos, Nat.mul_comm q]
  omega

/-- Of two aligned blocks that meet, the one of the larger order has all pages of the other. -/
theorem covers_of_meet (hb : b.Aligned) (hc : c.Aligned) (hle : b.order ≤ c.order) {p : ℕ}
    (hbp : b.Covers p) (hcp : c.Covers p) {q : ℕ} (hbq : b.Covers q) : c.Covers q := by
  have hquot : ∀ n, n / 2 ^ c.order = n / 2 ^ b.order / 2 ^ (c.order - b.order) := by
    intro n
    rw [Nat.div_div_eq_div_mul, ← pow_add, Nat.add_sub_cancel' hle]
  rw [covers_iff_div hc] at hcp ⊢
  rw [covers_iff_div hb] at hbp hbq
  rw [← hcp, hquot q, hquot p, hbp, hbq]

theorem eq_of_meet (hb : b.Aligned) (hc : c.Aligned) (ho : b.order = c.order) {p : ℕ}
    (hbp : b.Covers p) (hcp : c.Covers p) : b = c := by
  have h1 := covers_of_meet hb hc ho.le hbp hcp b.covers_start
  have h2 := covers_of_meet hc hb ho.ge hcp hbp c.covers_start
  obtain ⟨s, o⟩ := b
  obtain ⟨s', o'⟩ := c
  obtain rfl : o = o' := ho
  obtain rfl : s = s' := le_antisymm h2.1 h1.1
  rfl

/-! ## Buddies -/

/-- The buddy of a block: bit `order` of the start is flipped. -/
def buddy (b : Block) : Block := ⟨b.start ^^^ 2 ^ b.order, b.order⟩

@[simp] theorem buddy_order (b : Block) : b.buddy.order = b.order := rfl

@[simp] theorem buddy_buddy (b : Block) : b.buddy.buddy = b := by
  simp [buddy]

theorem mul_two_pow_xor (q k : ℕ) : (q * 2 ^ k) ^^^ 2 ^ k = (q ^^^ 1) * 2 ^ k := by
  rw [← Nat.shiftLeft_eq, ← Nat.shiftLeft_eq, Nat.shiftLeft_xor_distrib, Nat.one_shiftLeft]

/-- **A block is the lower or the upper half of the block twice its size.** -/
theorem buddy_cases (hb : b.Aligned) :
    2 ^ (b.order + 1) ∣ b.start ∧ b.buddy.start = b.start + 2 ^ b.order ∨
      2 ^ (b.order + 1) ∣ b.buddy.start ∧ b.start = b.buddy.start + 2 ^ b.order := by
  obtain ⟨q, hq⟩ := hb
  have hbud : b.buddy.start = (q ^^^ 1) * 2 ^ b.order := by
    rw [buddy, hq, Nat.mul_comm, mul_two_pow_xor]
  rcases Nat.even_or_odd q with he | ho
  · refine .inl ⟨?_, ?_⟩
    · obtain ⟨r, rfl⟩ := he
      exact ⟨r, by rw [hq]; ring⟩
    · rw [hbud, Nat.xor_one_of_even he, hq]
      ring
  · refine .inr ⟨?_, ?_⟩
    · rw [hbud, Nat.xor_one_of_odd ho]
      obtain ⟨r, rfl⟩ := ho
      exact ⟨r, by rw [Nat.add_sub_cancel]; ring⟩
    · rw [hbud, Nat.xor_one_of_odd ho, hq]
      obtain ⟨r, rfl⟩ := ho
      rw [Nat.add_sub_cancel]
      ring

theorem buddy_aligned (hb : b.Aligned) : b.buddy.Aligned := by
  have hdvd : 2 ^ b.order ∣ 2 ^ (b.order + 1) := pow_dvd_pow 2 (Nat.le_succ _)
  rcases buddy_cases hb with ⟨-, h⟩ | ⟨h, -⟩
  · rw [Aligned, h]
    exact Nat.dvd_add hb (Nat.dvd_refl _)
  · exact Nat.dvd_trans hdvd h

def merge (b : Block) : Block := ⟨min b.start b.buddy.start, b.order + 1⟩

@[simp] theorem merge_order (b : Block) : b.merge.order = b.order + 1 := rfl

theorem merge_aligned (hb : b.Aligned) : b.merge.Aligned := by
  rcases buddy_cases hb with ⟨hd, h⟩ | ⟨hd, h⟩
  · rw [Aligned, merge, h, Nat.min_eq_left (Nat.le_add_right _ _)]
    exact hd
  · rw [Aligned, merge, h, Nat.min_eq_right (Nat.le_add_right _ _)]
    exact hd

/-- **The two halves, together, are the merged block.** -/
theorem merge_covers (hb : b.Aligned) (p : ℕ) :
    b.merge.Covers p ↔ b.Covers p ∨ b.buddy.Covers p := by
  simp only [Covers, merge, buddy_order, pow_succ]
  rcases buddy_cases hb with ⟨-, h⟩ | ⟨-, h⟩ <;> omega

theorem apart_buddy (hb : b.Aligned) : Apart b b.buddy := by
  intro p h1 h2
  simp only [Covers, buddy_order] at h1 h2
  rcases buddy_cases hb with ⟨-, h⟩ | ⟨-, h⟩ <;> omega

end Block

/-! ## A merged set of blocks -/

/-- The set never has a block of an order below `M` together with its buddy. -/
def Merged (M : ℕ) (F : Set Block) : Prop := ∀ b ∈ F, b.order < M → b.buddy ∉ F

def PairwiseApart (F : Set Block) : Prop := ∀ b ∈ F, ∀ c ∈ F, b ≠ c → b.Apart c

/-- Aligned blocks, apart from each other and merged. -/
structure Coalesced (M : ℕ) (F : Set Block) : Prop where
  aligned : ∀ b ∈ F, b.Aligned
  apart : PairwiseApart F
  merged : Merged M F

variable {M : ℕ} {F G : Set Block}

theorem Coalesced.mono (h : Coalesced M F) (hsub : G ⊆ F) : Coalesced M G :=
  ⟨fun b hb => h.aligned b (hsub hb), fun b hb c hc => h.apart b (hsub hb) c (hsub hc),
    fun b hb hlt hbud => h.merged b (hsub hb) hlt (hsub hbud)⟩

/-- A block that is apart from the others and whose buddy is not among them. -/
theorem Coalesced.insert {b : Block} (h : Coalesced M F) (ha : b.Aligned)
    (hap : ∀ c ∈ F, b.Apart c) (hbud : b.order < M → b.buddy ∉ F) :
    Coalesced M (insert b F) := by
  refine ⟨?_, ?_, ?_⟩
  · rintro c (rfl | hc)
    exacts [ha, h.aligned c hc]
  · rintro c (rfl | hc) d (rfl | hd) hne
    exacts [absurd rfl hne, hap d hd, (hap c hc).symm, h.apart c hc d hd hne]
  · rintro c (rfl | hc) hlt
    · rintro (heq | hm)
      · exact (Block.apart_buddy ha).ne heq.symm
      · exact hbud hlt hm
    · rintro (heq | hm)
      · refine hbud (heq ▸ hlt) ?_
        rw [← heq, Block.buddy_buddy]
        exact hc
      · exact h.merged c hc hlt hm

/-- **An aligned run is covered by a merged set only as part of one block.** -/
theorem Coalesced.exists_whole (hF : Coalesced M F) {r : Block} (hr : r.Aligned)
    (hM : r.order ≤ M) (hcov : ∀ p, r.Covers p → ∃ b ∈ F, b.Covers p) :
    ∃ b ∈ F, r.order ≤ b.order ∧ b.Covers r.start := by
  classical
  have hal := hF.aligned
  by_contra hno
  have hlt : ∀ b ∈ F, ∀ p, r.Covers p → b.Covers p → b.order < r.order := fun b hb p hrp hbp =>
    lt_of_not_ge fun h => hno ⟨b, hb, h, Block.covers_of_meet hr (hal b hb) h hrp hbp
      r.covers_start⟩
  -- a block of the smallest order among those that meet the run
  have hmeet : ∃ j, ∃ b ∈ F, b.order = j ∧ ∃ p, r.Covers p ∧ b.Covers p := by
    obtain ⟨b, hb, hbp⟩ := hcov _ r.covers_start
    exact ⟨b.order, b, hb, rfl, r.start, r.covers_start, hbp⟩
  obtain ⟨b, hb, hbj, p, hrp, hbp⟩ := Nat.find_spec hmeet
  have hmin : ∀ c ∈ F, ∀ q, r.Covers q → c.Covers q → b.order ≤ c.order := by
    intro c hc q hrq hcq
    rw [hbj]
    exact Nat.find_min' hmeet ⟨c, hc, rfl, q, hrq, hcq⟩
  -- its buddy is inside the run, so some block has the buddy's first page
  have hba := hal b hb
  have hbr := hlt b hb p hrp hbp
  have hinside : ∀ q, b.merge.Covers q → r.Covers q := fun q hq =>
    Block.covers_of_meet (Block.merge_aligned hba) hr hbr
      ((Block.merge_covers hba p).mpr (.inl hbp)) hrp hq
  have hstart : b.merge.Covers b.buddy.start :=
    (Block.merge_covers hba _).mpr (.inr b.buddy.covers_start)
  obtain ⟨c, hc, hcs⟩ := hcov _ (hinside _ hstart)
  rcases (hmin c hc _ (hinside _ hstart) hcs).lt_or_eq with hlarger | heq
  · -- a larger one would have the pages of the block as well
    have hcb : c.Covers b.start := Block.covers_of_meet (Block.merge_aligned hba) (hal c hc)
      hlarger hstart hcs ((Block.merge_covers hba _).mpr (.inl b.covers_start))
    have hne : b ≠ c := by
      rintro rfl
      exact lt_irrefl _ hlarger
    exact hF.apart b hb c hc hne _ b.covers_start hcb
  · -- one of the same order is the buddy
    have hcb : b.buddy = c :=
      Block.eq_of_meet (Block.buddy_aligned hba) (hal c hc) heq b.buddy.covers_start hcs
    exact hF.merged b hb (hbr.trans_le hM) (hcb ▸ hc)

/-- Of two merged sets with the same pages, each block of one is a block of the other. -/
theorem Coalesced.subset (hF : Coalesced M F) (hG : Coalesced M G) (hFM : ∀ b ∈ F, b.order ≤ M)
    (hGM : ∀ b ∈ G, b.order ≤ M) (hpages : ∀ p, (∃ b ∈ F, b.Covers p) ↔ ∃ b ∈ G, b.Covers p) :
    F ⊆ G := by
  intro b hb
  have hba := hF.aligned b hb
  obtain ⟨c, hc, hle, hcb⟩ := hG.exists_whole hba (hFM b hb) fun p hp => (hpages p).mp ⟨b, hb, hp⟩
  have hca := hG.aligned c hc
  -- and the block of the second set lies in one of the first, which is the block again
  obtain ⟨b', hb', hle', hbc⟩ := hF.exists_whole hca (hGM c hc)
    fun p hp => (hpages p).mpr ⟨c, hc, hp⟩
  have hmeet : b'.Covers b.start :=
    Block.covers_of_meet hca (hF.aligned b' hb') hle' c.covers_start hbc hcb
  obtain rfl : b = b' := by
    by_contra hne
    exact hF.apart b hb b' hb' hne _ b.covers_start hmeet
  rwa [Block.eq_of_meet hba hca (le_antisymm hle hle') b.covers_start hcb]

end CosmoOS.Lib.Dyadic
