import Mathlib.Data.List.GetD

/-!
# Sequences of literals and matches

A block in the style of Lempel and Ziv is a list of sequences.  Each has some elements
copied as they are and then a *match*: a length and a distance back into what has been
written so far.  A match may reach into the elements it is itself writing, which is how a
run of equal elements is coded, so the copy goes element by element (`copyMatch`).

`copyMatch_take` is the fact every encoder rests on: where an input repeats itself, copying
the repeat onto a prefix of the input gives the longer prefix, whether or not the two
overlap.
-/

namespace CosmoOS.Lz77

open List

variable {α : Type}

variable {p : Nat}

/-- Some literals, and a match of `length` elements from `offset` back. -/
structure Sequence (α : Type) where
  literals : List α
  offset : Nat
  length : Nat
  deriving DecidableEq, Repr

variable {qs : List (Sequence α)}

/-- How many elements a sequence writes. -/
def Sequence.size (q : Sequence α) : Nat := q.literals.length + q.length

/-- What holds of every sequence and of the place its match is written to, when the first
sequence starts at `p`. -/
def Each (P : Nat → Sequence α → Prop) : Nat → List (Sequence α) → Prop
  | _, [] => True
  | p, q :: qs => P (p + q.literals.length) q ∧ Each P (p + q.size) qs

theorem Each.mono {P Q : Nat → Sequence α → Prop} (h : ∀ p q, P p q → Q p q)
    (hq : Each P p qs) : Each Q p qs := by
  induction qs generalizing p with
  | nil => trivial
  | cons q qs ih => exact ⟨h _ _ hq.1, ih hq.2⟩

theorem Each.all {P : Sequence α → Prop} (hq : Each (fun _ => P) p qs) : ∀ q ∈ qs, P q := by
  induction qs generalizing p with
  | nil => simp
  | cons q qs ih =>
    intro r hr
    rcases mem_cons.mp hr with rfl | hr
    · exact hq.1
    · exact ih hq.2 r hr

section Copy

variable [Inhabited α]

variable {src : List α}

/-- Copy `n` elements onto the end of `out`, the first from position `start`, each copied
after the ones before it are written. -/
def copyMatch (out : List α) (start : Nat) : Nat → List α
  | 0 => out
  | n + 1 => copyMatch (out ++ [out.getD start default]) (start + 1) n

section

variable (out : List α) (q : Sequence α)

@[simp] theorem copyMatch_length (start n : Nat) :
    (copyMatch out start n).length = out.length + n := by
  induction n generalizing out start with
  | zero => rfl
  | succ n ih =>
    rw [copyMatch, ih, length_append, length_singleton]
    omega

/-- Where the input repeats what stands at `start` for `n` elements from `p` on, copying
from `start` takes its prefix of length `p` to the prefix of length `p + n`. -/
theorem copyMatch_take {start n : Nat} (hs : start < p) (hn : p + n ≤ src.length)
    (h : ∀ k < n, src.getD (start + k) default = src.getD (p + k) default) :
    copyMatch (src.take p) start n = src.take (p + n) := by
  induction n generalizing start p with
  | zero => rfl
  | succ n ih =>
    have hp : p < src.length := by omega
    have hread : (src.take p).getD start default = src[p] := by
      have h0 := h 0 (by omega)
      rw [Nat.add_zero, Nat.add_zero, getD_eq_getElem _ _ hp,
        getD_eq_getElem _ _ (by omega)] at h0
      rw [getD_eq_getElem _ _ (by rw [length_take]; omega), getElem_take, h0]
    rw [copyMatch, hread, take_append_getElem hp, ih (by omega) (by omega)]
    · rw [Nat.add_assoc, Nat.add_comm 1 n]
    · intro k hk
      have hk := h (k + 1) (by omega)
      rwa [← Nat.add_assoc, ← Nat.add_assoc, Nat.add_right_comm start,
        Nat.add_right_comm p] at hk

def Sequence.expand : List α :=
  copyMatch (out ++ q.literals) ((out ++ q.literals).length - q.offset) q.length

@[simp] theorem Sequence.expand_length : (q.expand out).length = out.length + q.size := by
  rw [Sequence.expand, copyMatch_length, length_append, Sequence.size]
  omega

def expand (qs : List (Sequence α)) : List α := qs.foldl Sequence.expand out

@[simp] theorem expand_nil : expand out [] = out := rfl

@[simp] theorem expand_cons (qs : List (Sequence α)) :
    expand out (q :: qs) = expand (q.expand out) qs := rfl

theorem expand_append (qs rs : List (Sequence α)) :
    expand out (qs ++ rs) = expand (expand out qs) rs := foldl_append

theorem length_le_expand (qs : List (Sequence α)) : out.length ≤ (expand out qs).length := by
  induction qs generalizing out with
  | nil => exact Nat.le_refl _
  | cons q qs ih =>
    have h := ih (q.expand out)
    rw [Sequence.expand_length] at h
    rw [expand_cons]
    omega

theorem Each.snoc {P : Nat → Sequence α → Prop} {q : Sequence α} (hq : Each P out.length qs)
    (h : P ((expand out qs).length + q.literals.length) q) : Each P out.length (qs ++ [q]) := by
  induction qs generalizing out with
  | nil => exact ⟨h, trivial⟩
  | cons r qs ih =>
    have hr := hq.2
    rw [← Sequence.expand_length] at hr
    refine ⟨hq.1, ?_⟩
    rw [← Sequence.expand_length]
    exact ih _ hr h

end

/-- A sequence that takes the input from `a` on: the literals up to `p`, then a match of
elements the input has again at `p`. -/
theorem Sequence.expand_take {a offset n : Nat} (hap : a ≤ p)
    (ho : 0 < offset) (hop : offset ≤ p) (hn : p + n ≤ src.length)
    (h : ∀ k < n, src.getD (p - offset + k) default = src.getD (p + k) default) :
    Sequence.expand (src.take a) ⟨(src.drop a).take (p - a), offset, n⟩ =
      src.take (p + n) := by
  have hjoin : src.take a ++ (src.drop a).take (p - a) = src.take p := by
    rw [← take_add, Nat.add_sub_cancel' hap]
  have hlen : (src.take p).length = p := length_take_of_le (by omega)
  show copyMatch (src.take a ++ (src.drop a).take (p - a)) _ n = _
  rw [hjoin, hlen, copyMatch_take (by omega) hn h]

end Copy

end CosmoOS.Lz77
