import Mathlib.Data.BitVec
import Mathlib.Tactic.Linarith

/-!
# Serial numbers

Numbers of thirty-two bits that wrap, compared by the sign of their difference.  The comparison is
an order only among numbers that are close to each other.

* `ahead base x` is how far `x` is ahead of `base`.  Among numbers less than `2 ^ 31` ahead of one
  base the comparison is the comparison of these distances.
* `num base z` is the number of the position `z` on an unbounded line that begins at `base`.  Among
  positions less than `2 ^ 31` apart the comparison of the numbers is that of the positions.
-/

namespace CosmoOS.Lib.Serial

/-- How far `x` is ahead of `base`. -/
def ahead (base x : BitVec 32) : ℕ := (x - base).toNat

section

variable (base : BitVec 32) {x y : BitVec 32}

theorem ahead_self : ahead base base = 0 := by
  rw [ahead, BitVec.sub_self]
  rfl

theorem add_ahead (base x : BitVec 32) : base + BitVec.ofNat 32 (ahead base x) = x := by
  rw [ahead, BitVec.ofNat_toNat, BitVec.setWidth_eq]
  bv_omega

theorem ahead_add (base x : BitVec 32) {n : ℕ} (h : ahead base x + n < 2 ^ 32) :
    ahead base (x + BitVec.ofNat 32 n) = ahead base x + n := by
  unfold ahead at *
  bv_omega

theorem ahead_base_add {n : ℕ} (h : n < 2 ^ 32) : ahead base (base + BitVec.ofNat 32 n) = n := by
  have hadd := ahead_add base base (n := n) (by rw [ahead_self]; omega)
  rw [hadd, ahead_self, Nat.zero_add]

/-- **The base moves up.** -/
theorem ahead_rebase {base x y : BitVec 32} (h : ahead base y ≤ ahead base x) :
    ahead y x = ahead base x - ahead base y := by
  unfold ahead at *
  bv_omega

theorem ahead_inj (h : ahead base x = ahead base y) : x = y := by
  rw [← add_ahead base x, h, add_ahead]

theorem toInt_eq (x : BitVec 32) :
    x.toInt = if x.toNat < 2 ^ 31 then (x.toNat : ℤ) else (x.toNat : ℤ) - 2 ^ 32 := by
  rw [BitVec.toInt_eq_toNat_cond]
  split_ifs <;> omega

/-- **The comparison, by distances.** -/
theorem toInt_sub_eq (hx : ahead base x < 2 ^ 31) (hy : ahead base y < 2 ^ 31) :
    (x - y).toInt = (ahead base x : ℤ) - ahead base y := by
  have hsub : (x - y).toNat = (ahead base x + (2 ^ 32 - ahead base y)) % 2 ^ 32 := by
    unfold ahead at *
    bv_omega
  rw [toInt_eq, hsub]
  split_ifs <;> omega

/-- A number is after another exactly when it is less than half the circle ahead of it. -/
theorem toInt_sub_pos (base x : BitVec 32) :
    0 < (x - base).toInt ↔ 0 < ahead base x ∧ ahead base x < 2 ^ 31 := by
  rw [toInt_eq]
  unfold ahead at *
  split_ifs <;> omega

/-- The number of a position. -/
def num (z : ℤ) : BitVec 32 := base + BitVec.ofInt 32 z

theorem num_zero : num base 0 = base := by
  simp [num]

theorem num_add (z : ℤ) (n : ℕ) : num base (z + n) = num base z + BitVec.ofNat 32 n := by
  rw [num, num, BitVec.ofInt_add, BitVec.add_assoc, BitVec.ofInt_natCast]

/-- **The difference of two numbers**, by positions. -/
theorem num_sub_num (y z : ℤ) : num base y - num base z = BitVec.ofInt 32 (y - z) := by
  rw [num, num, Int.sub_eq_add_neg, BitVec.ofInt_add, BitVec.ofInt_neg]
  bv_omega

theorem toInt_num_sub {y z : ℤ} (hlo : -2 ^ 31 ≤ y - z) (hhi : y - z < 2 ^ 31) :
    (num base y - num base z).toInt = y - z := by
  rw [num_sub_num, BitVec.toInt_ofInt, Int.bmod_eq_of_le] <;> omega

theorem ahead_num {y z : ℤ} (hlo : z ≤ y) (hhi : y - z < 2 ^ 32) :
    ahead (num base z) (num base y) = (y - z).toNat := by
  rw [ahead, num_sub_num, BitVec.toNat_ofInt, Int.emod_eq_of_lt (by omega) (by omega)]

end

end CosmoOS.Lib.Serial
