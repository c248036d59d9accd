import Mathlib.Algebra.BigOperators.Group.Finset.Piecewise
import Mathlib.Algebra.Order.BigOperators.Group.Finset
import Mathlib.Algebra.Order.Ring.Nat
import Mathlib.Data.Finset.Range

/-!
# Counting in a family of lists that is edited

A family of lists `f : ι → List α` is edited in a few places: some elements go, some come.
What an edit does to *every* count is said once, by the two lists of what went and what
came, each with its place (`Edit`).  Edits compose by concatenating the lists, and a sum of
counts over many places changes by what the lists say (`Edit.total`).  Nothing is said
about the order of the elements, which no count sees.
-/

namespace CosmoOS.Lib

open Finset Function

variable {ι α : Type} [DecidableEq ι]

section

variable (p : α → Bool) (x : ι)

/-- How many of the listed elements are at `x` and have `p`. -/
def tally (l : List (ι × α)) : Nat :=
  l.countP fun q => decide (q.1 = x) && p q.2

@[simp] theorem tally_nil : tally p x [] = 0 := rfl

@[simp] theorem tally_cons (q : ι × α) (l : List (ι × α)) :
    tally p x (q :: l) = tally p x l + if q.1 = x ∧ p q.2 = true then 1 else 0 := by
  rw [tally, List.countP_cons]
  simp [tally]

theorem tally_append (l m : List (ι × α)) : tally p x (l ++ m) = tally p x l + tally p x m :=
  List.countP_append

end

/-- From `f` to `g` the elements `gone` went and the elements `new` came. -/
def Edit (f g : ι → List α) (gone new : List (ι × α)) : Prop :=
  ∀ x p, (g x).countP p + tally p x gone = (f x).countP p + tally p x new

variable {f g : ι → List α} {x : ι} {A B : List α} {e : α}

theorem Edit.trans {h : ι → List α} {a b c d : List (ι × α)} (h1 : Edit f g a b)
    (h2 : Edit g h c d) : Edit f h (a ++ c) (b ++ d) := by
  intro x p
  have h1 := h1 x p
  have h2 := h2 x p
  rw [tally_append, tally_append]
  omega

theorem Edit.symm {a b : List (ι × α)} (h : Edit f g a b) : Edit g f b a :=
  fun x p => (h x p).symm

theorem Edit.remove (hf : f x = A ++ e :: B) :
    Edit f (update f x (A ++ B)) [(x, e)] [] := by
  intro y p
  rw [tally_cons, tally_nil]
  by_cases hy : x = y
  · subst hy
    rw [update_self, hf, List.countP_append, List.countP_append, List.countP_cons]
    simp only [true_and]
    omega
  · rw [update_of_ne (Ne.symm hy)]
    simp [hy]

theorem Edit.insert (hf : f x = A ++ B) :
    Edit f (update f x (A ++ e :: B)) [] [(x, e)] := by
  have h := Edit.remove (update_self x (A ++ e :: B) f)
  rw [update_idem, ← hf, update_eq_self] at h
  exact h.symm

theorem Edit.replace {e' : α} (hf : f x = A ++ e :: B) :
    Edit f (update f x (A ++ e' :: B)) [(x, e)] [(x, e')] := by
  have h1 := Edit.remove hf
  have h2 : Edit (update f x (A ++ B))
      (update (update f x (A ++ B)) x (A ++ e' :: B)) [] [(x, e')] :=
    Edit.insert (update_self ..)
  rw [update_idem] at h2
  exact h1.trans h2

/-- What is there afterwards was there or came. -/
theorem Edit.mem [DecidableEq α] {gone new : List (ι × α)} (h : Edit f g gone new) (he : e ∈ g x) :
    e ∈ f x ∨ (x, e) ∈ new := by
  have hx := h x fun a => decide (a = e)
  have hpos : 0 < (g x).countP fun a => decide (a = e) :=
    List.countP_pos_iff.mpr ⟨e, he, by simp⟩
  by_cases hf : e ∈ f x
  · exact Or.inl hf
  · right
    have hzero : (f x).countP (fun a => decide (a = e)) = 0 := by
      refine List.countP_eq_zero.mpr fun a ha hd => hf ?_
      have hae : a = e := by simpa using hd
      exact hae ▸ ha
    have hnew : 0 < tally (fun a => decide (a = e)) x new := by omega
    obtain ⟨q, hq, hp⟩ := List.countP_pos_iff.mp hnew
    obtain ⟨h1, h2⟩ : q.1 = x ∧ q.2 = e := by simpa using hp
    have hqe : q = (x, e) := Prod.ext h1 h2
    exact hqe ▸ hq

theorem sum_tally (p : α → Bool) (s : Finset ι) (l : List (ι × α)) (hl : ∀ q ∈ l, q.1 ∈ s) :
    ∑ x ∈ s, tally p x l = l.countP fun q => p q.2 := by
  induction l with
  | nil => exact Finset.sum_eq_zero fun _ _ => rfl
  | cons q l ih =>
    have hq : q.1 ∈ s := hl q List.mem_cons_self
    have hone : ∑ x ∈ s, (if q.1 = x ∧ p q.2 = true then 1 else 0)
        = if p q.2 = true then 1 else 0 := by
      by_cases hp : p q.2 = true
      · simp [hp, hq]
      · simp [hp]
    simp only [tally_cons]
    rw [Finset.sum_add_distrib, ih fun q hq => hl q (List.mem_cons_of_mem _ hq), hone,
      List.countP_cons]

theorem Edit.total {gone new : List (ι × α)} (h : Edit f g gone new) (p : α → Bool) (s : Finset ι)
    (hg : ∀ q ∈ gone, q.1 ∈ s) (hn : ∀ q ∈ new, q.1 ∈ s) :
    ∑ x ∈ s, (g x).countP p + gone.countP (fun q => p q.2)
      = ∑ x ∈ s, (f x).countP p + new.countP fun q => p q.2 := by
  rw [← sum_tally p s gone hg, ← sum_tally p s new hn, ← Finset.sum_add_distrib,
    ← Finset.sum_add_distrib]
  exact Finset.sum_congr rfl fun x _ => h x p

end CosmoOS.Lib
