import Mathlib.Data.Set.Card
import Mathlib.Logic.Function.Basic

/-!
# Who holds what

Places that each hold at most one thing, and for each thing the set of places that hold it.  A
reference count is right when it is the size of that set, up to references held elsewhere.  What
is needed to keep one right is how the size changes when one place is changed
(`ncard_holders_update`), and what a small count says about the places: at one, the holder is the
only one; at zero, there is none.
-/

namespace CosmoOS.Lib

variable {X F : Type*}

def holders (p : X → Option F) (f : F) : Set X := {x | p x = some f}

variable {p : X → Option F} {f : F} {x : X}

theorem mem_holders : x ∈ holders p f ↔ p x = some f :=
  Iff.rfl

theorem sole_holder (hfin : (holders p f).Finite) (hcard : (holders p f).ncard ≤ 1) {y : X}
    (hx : p x = some f) (hy : p y = some f) :
    y = x :=
  (Set.ncard_le_one hfin).mp hcard y hy x hx

theorem not_held (hfin : (holders p f).Finite) (hcard : (holders p f).ncard = 0) (x : X) :
    p x ≠ some f := by
  intro hx
  have hempty := (Set.ncard_eq_zero hfin).mp hcard
  have hmem : x ∈ holders p f := hx
  rw [hempty] at hmem
  exact hmem

theorem holders_pos (hfin : (holders p f).Finite) (hx : p x = some f) : 0 < (holders p f).ncard :=
  (Set.ncard_pos hfin).mpr ⟨x, hx⟩

variable [DecidableEq X]

theorem holders_update_pos {v : Option F} (hv : v = some f) :
    holders (Function.update p x v) f = insert x (holders p f) := by
  ext y
  rcases eq_or_ne y x with rfl | hne
  · simp [holders, hv]
  · simp [holders, hne]

theorem holders_update_neg {v : Option F} (hv : v ≠ some f) :
    holders (Function.update p x v) f = holders p f \ {x} := by
  ext y
  rcases eq_or_ne y x with rfl | hne
  · simp [holders, hv]
  · simp [holders, hne]

theorem finite_holders_update (hfin : (holders p f).Finite) (x : X) (v : Option F) :
    (holders (Function.update p x v) f).Finite := by
  by_cases hv : v = some f
  · rw [holders_update_pos hv]
    exact hfin.insert x
  · rw [holders_update_neg hv]
    exact hfin.sdiff

/-- **One place changed**: what it held is held once less, what it holds now once more. -/
theorem ncard_holders_update [DecidableEq F] (hfin : (holders p f).Finite) (x : X) (v : Option F) :
    (holders (Function.update p x v) f).ncard + (if p x = some f then 1 else 0) =
      (holders p f).ncard + if v = some f then 1 else 0 := by
  by_cases hv : v = some f <;> by_cases hx : p x = some f
  · have hmem : x ∈ holders p f := hx
    rw [holders_update_pos hv, Set.insert_eq_of_mem hmem, if_pos hv, if_pos hx]
  · have hmem : x ∉ holders p f := hx
    rw [holders_update_pos hv, Set.ncard_insert_of_notMem hmem hfin, if_pos hv, if_neg hx]
  · have hmem : x ∈ holders p f := hx
    rw [holders_update_neg hv, if_neg hv, if_pos hx, Set.ncard_sdiff_singleton_add_one hmem hfin]
    rfl
  · have hmem : x ∉ holders p f := hx
    rw [holders_update_neg hv, Set.sdiff_singleton_eq_self hmem, if_neg hv, if_neg hx]

end CosmoOS.Lib
