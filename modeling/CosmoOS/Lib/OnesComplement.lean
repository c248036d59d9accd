import Mathlib.Data.Nat.Notation

/-!
# Sums of sixteen-bit words in ones' complement

The Internet checksum adds the big-endian words of a message and folds the carries back in.  Folding
keeps a sum modulo 65535 and keeps whether it is zero (`fold_eq`), and that is all there is to know
of it: 65535 and 0 are one residue, told apart only by the sum being positive.  A word stored at an
even place of a message changes the sum by the difference of the words (`sum_putBe16`), so a
checksum can be brought up to date without summing the message again.
-/

namespace CosmoOS
namespace Lib
namespace OnesComplement

/-- The carries above the sixteenth bit added back in until there are none. -/
def fold (x : ℕ) : ℕ :=
  if x / 65536 = 0 then x else fold (x % 65536 + x / 65536)
termination_by x
decreasing_by omega

theorem fold_eq (x : ℕ) : fold x = if x = 0 then 0 else (x - 1) % 65535 + 1 := by
  fun_induction fold x with
  | case1 x h => split <;> omega
  | case2 x h ih =>
    rw [ih, if_neg (by omega), if_neg (by omega)]
    omega

theorem fold_eq_max {x : ℕ} : fold x = 65535 ↔ 0 < x ∧ x % 65535 = 0 := by
  rw [fold_eq]
  split <;> omega

def flip (x : ℕ) : ℕ := (x ^^^ 0xffff) &&& 0xffff

theorem flip_eq (x : ℕ) : flip x = 65535 - x % 65536 := by
  have h := BitVec.toNat_not (x := BitVec.ofNat 16 x)
  rw [← BitVec.xor_allOnes, BitVec.toNat_xor, BitVec.toNat_allOnes, BitVec.toNat_ofNat] at h
  change (x ^^^ (2 ^ 16 - 1)) &&& (2 ^ 16 - 1) = _
  rw [Nat.and_two_pow_sub_one_eq_mod, Nat.xor_mod_two_pow]
  exact h

/-! ## Messages -/

variable {l : List UInt8} {k p v : ℕ}

/-- The big-endian words of a message, added up; a last odd byte is a word's high byte. -/
def sum : List UInt8 → ℕ
  | [] => 0
  | [a] => 256 * a.toNat
  | a :: b :: l => 256 * a.toNat + b.toNat + sum l

def be16 (l : List UInt8) (p : ℕ) : ℕ := 256 * (l.getD p 0).toNat + (l.getD (p + 1) 0).toNat

def putBe16 (l : List UInt8) (p v : ℕ) : List UInt8 :=
  (l.set p (UInt8.ofNat (v / 256))).set (p + 1) (UInt8.ofNat v)

@[simp] theorem length_putBe16 : (putBe16 l p v).length = l.length := by
  simp [putBe16]

theorem be16_putBe16 (h : p + 2 ≤ l.length) (hv : v < 65536) : be16 (putBe16 l p v) p = v := by
  have hp : p < l.length := by omega
  have hp' : p + 1 < l.length := by omega
  simp only [be16, putBe16, List.getD_eq_getElem?_getD, List.getElem?_set, List.length_set, hp, hp',
    if_true, Nat.succ_ne_self, if_false, Option.getD_some, UInt8.toNat_ofNat']
  omega

/-- Storing a word at an even place changes the sum by the difference of the words. -/
theorem sum_putBe16 (h : 2 * k + 2 ≤ l.length) (hv : v < 65536) :
    sum (putBe16 l (2 * k) v) + be16 l (2 * k) = sum l + v := by
  induction k generalizing l with
  | zero =>
    obtain _ | ⟨a, _ | ⟨b, l⟩⟩ := l
    · simp at h
    · simp at h
    · simp [sum, putBe16, be16]
      omega
  | succ k ih =>
    obtain _ | ⟨a, _ | ⟨b, l⟩⟩ := l
    · simp at h
    · simp at h
    · have hl := ih (l := l) (by simp at h; omega)
      have hput : putBe16 (a :: b :: l) (2 * (k + 1)) v = a :: b :: putBe16 l (2 * k) v := rfl
      have hbe : be16 (a :: b :: l) (2 * (k + 1)) = be16 l (2 * k) := rfl
      rw [hput, hbe, sum, sum]
      omega

end OnesComplement
end Lib
end CosmoOS
