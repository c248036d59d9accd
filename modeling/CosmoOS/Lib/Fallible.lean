import Mathlib.Order.Basic

/-!
# Computations that fail and keep their state

A kernel function that returns an error code keeps whatever it had already changed.  `Fallible σ ε
α` is that kind of computation, a function from a state to a result or an error *together with the
state at that point*: a function "changes nothing when it fails" only if that is proved.

* `Triple P m Q E` is the full contract: from a state with `P`, a success ends in `Q` and a failure
  in `E`.
* `Keeps I m` is the contract of an invariant: it holds after the call, failed or not.
* `Moves R m` relates the states before and after, failed or not, by a preorder `R`.  It is how
  "everything else is unchanged" is stated.

Each has its rules for `pure`, `bind`, failure handlers and loops over a list.
-/

namespace CosmoOS.Lib

/-- A computation over the state `σ` that returns an `α` or fails with an `ε`,
and leaves a state behind in both cases. -/
def Fallible (σ ε α : Type) : Type := σ → Except ε α × σ

namespace Fallible

variable {σ ε α β : Type}

protected def pure (a : α) : Fallible σ ε α := fun s => (.ok a, s)

protected def bind (m : Fallible σ ε α) (f : α → Fallible σ ε β) : Fallible σ ε β := fun s =>
  match m s with
  | (.ok a, t) => f a t
  | (.error e, t) => (.error e, t)

instance : Monad (Fallible σ ε) where
  pure := Fallible.pure
  bind := Fallible.bind

/-- Fail with `e`; the state stays. -/
def fail (e : ε) : Fallible σ ε α := fun s => (.error e, s)

/-- A value read off the state. -/
def gets (f : σ → α) : Fallible σ ε α := fun s => (.ok (f s), s)

def modify (f : σ → σ) : Fallible σ ε Unit := fun s => (.ok (), f s)

section

variable (m : Fallible σ ε α) (r : Except ε α)

/-- Run `m`; when it fails, run the clean-up `h` and fail with the error of `m`. -/
def onError (h : Fallible σ ε Unit) : Fallible σ ε α := fun s =>
  match m s with
  | (.ok a, t) => (.ok a, t)
  | (.error e, t) => (.error e, (h t).2)

/-- Run and hand the caller the error, as a return code is. -/
def attempt : Fallible σ ε (Except ε α) := fun s =>
  ((.ok (m s).1), (m s).2)

def ofExcept : Fallible σ ε α := fun s => (r, s)

def runIf (c : Prop) [Decidable c] (m : Fallible σ ε Unit) : Fallible σ ε Unit :=
  if c then m else Fallible.pure ()

/-- Run on the first part of a state; the second is carried along. -/
def onFst {τ : Type} (m : Fallible σ ε α) : Fallible (σ × τ) ε α := fun p =>
  ((m p.1).1, ((m p.1).2, p.2))

/-! ## What running a computation gives -/

@[simp] theorem pure_run (a : α) (s : σ) : (pure a : Fallible σ ε α) s = (.ok a, s) := rfl

@[simp] theorem fail_run (e : ε) (s : σ) : (fail e : Fallible σ ε α) s = (.error e, s) := rfl

@[simp] theorem gets_run (f : σ → α) (s : σ) : (gets f : Fallible σ ε α) s = (.ok (f s), s) := rfl

@[simp] theorem ofExcept_run (s : σ) : (ofExcept r : Fallible σ ε α) s = (r, s) := rfl

@[simp] theorem modify_run (f : σ → σ) (s : σ) :
    (modify f : Fallible σ ε Unit) s = (.ok (), f s) := rfl

theorem bind_run (f : α → Fallible σ ε β) (s : σ) :
    (m >>= f) s = match m s with
      | (.ok a, t) => f a t
      | (.error e, t) => (.error e, t) := rfl

end

variable {m : Fallible σ ε α} {s t : σ} {a : α} {e : ε}

theorem bind_run_ok (h : m s = (.ok a, t)) (f : α → Fallible σ ε β) : (m >>= f) s = f a t := by
  rw [bind_run, h]

theorem bind_run_error (h : m s = (.error e, t)) (f : α → Fallible σ ε β) :
    (m >>= f) s = (.error e, t) := by
  rw [bind_run, h]

@[simp] theorem gets_bind (g : σ → α) (f : α → Fallible σ ε β) (s : σ) :
    (gets g >>= f) s = f (g s) s := rfl

@[simp] theorem modify_bind (g : σ → σ) (f : Unit → Fallible σ ε β) (s : σ) :
    (modify g >>= f) s = f () (g s) := rfl

@[simp] theorem pure_bind_run (a : α) (f : α → Fallible σ ε β) (s : σ) :
    ((pure a : Fallible σ ε α) >>= f) s = f a s := rfl

@[simp] theorem fail_bind (e : ε) (f : α → Fallible σ ε β) (s : σ) :
    ((fail e : Fallible σ ε α) >>= f) s = (.error e, s) := rfl

section

variable {h : Fallible σ ε Unit} {f : α → Fallible σ ε β}

theorem bind_eq_ok {b : β} :
    (m >>= f) s = (.ok b, t) ↔ ∃ a u, m s = (.ok a, u) ∧ f a u = (.ok b, t) := by
  rw [bind_run]
  rcases hm : m s with ⟨r, u⟩
  cases r with
  | ok a => simp [and_assoc]
  | error e => simp

theorem bind_eq_error :
    (m >>= f) s = (.error e, t) ↔
      m s = (.error e, t) ∨ ∃ a u, m s = (.ok a, u) ∧ f a u = (.error e, t) := by
  rw [bind_run]
  rcases hm : m s with ⟨r, u⟩
  cases r with
  | ok a => simp [and_assoc]
  | error e => simp

theorem bind_cases {m : Fallible σ ε α} {s t : σ} {r : Except ε β} (h : (m >>= f) s = (r, t)) :
    (∃ e, m s = (.error e, t) ∧ r = .error e) ∨ ∃ a u, m s = (.ok a, u) ∧ f a u = (r, t) := by
  cases r with
  | ok b => exact .inr (bind_eq_ok.mp h)
  | error e => exact (bind_eq_error.mp h).imp_left fun h => ⟨e, h, rfl⟩

/-- What holds after a sequence: after its first part where that fails, else after its second. -/
theorem bind_after {P : σ → Prop} (herr : ∀ e t, m s = (.error e, t) → P t)
    (hok : ∀ a t, m s = (.ok a, t) → P (f a t).2) : P ((m >>= f) s).2 := by
  rw [bind_run]
  rcases hm : m s with ⟨r, t⟩
  cases r with
  | ok a => exact hok a t hm
  | error e => exact herr e t hm

theorem onError_eq_ok : onError m h s = (.ok a, t) ↔ m s = (.ok a, t) := by
  unfold onError
  rcases hm : m s with ⟨r, u⟩
  cases r with
  | ok b => simp
  | error e => simp

theorem onError_eq_error :
    onError m h s = (.error e, t) ↔ ∃ u, m s = (.error e, u) ∧ t = (h u).2 := by
  unfold onError
  rcases hm : m s with ⟨r, u⟩
  cases r with
  | ok b => simp
  | error e' =>
    constructor
    · intro hx
      obtain ⟨he, ht⟩ := Prod.mk.inj hx
      cases he
      exact ⟨u, rfl, ht.symm⟩
    · rintro ⟨v, hv, rfl⟩
      obtain ⟨he, ht⟩ := Prod.mk.inj hv
      cases he
      rw [ht]

end

theorem runIf_cases {c : Prop} [Decidable c] {m : Fallible σ ε Unit} {r : Except ε Unit}
    (h : runIf c m s = (r, t)) : (c ∧ m s = (r, t)) ∨ (¬ c ∧ r = .ok () ∧ t = s) := by
  unfold runIf at h
  split at h
  · rename_i hc
    exact Or.inl ⟨hc, h⟩
  · rename_i hc
    cases h
    exact Or.inr ⟨hc, rfl, rfl⟩

theorem runIf_ok {c : Prop} [Decidable c] {m : Fallible σ ε Unit} {u : Unit}
    (h : runIf c m s = (.ok u, t)) : (c ∧ m s = (.ok u, t)) ∨ (¬ c ∧ t = s) :=
  (runIf_cases h).imp_right fun h => ⟨h.1, h.2.2⟩

theorem onFst_run {τ : Type} {m : Fallible σ ε α} {p q : σ × τ} {r : Except ε α} :
    onFst m p = (r, q) ↔ m p.1 = (r, q.1) ∧ q.2 = p.2 := by
  unfold onFst
  rcases hm : m p.1 with ⟨r', t⟩
  obtain ⟨q1, q2⟩ := q
  simp only [Prod.mk.injEq, and_assoc, eq_comm]

theorem onFst_bind_cases {τ : Type} {m : Fallible σ ε α} {f : α → Fallible (σ × τ) ε β}
    {p q : σ × τ} {r : Except ε β} (h : (onFst m >>= f) p = (r, q)) :
    (∃ e t, m p.1 = (.error e, t) ∧ r = .error e ∧ q = (t, p.2)) ∨
      ∃ a t, m p.1 = (.ok a, t) ∧ f a (t, p.2) = (r, q) := by
  rcases bind_cases h with ⟨e, hm, hr⟩ | ⟨a, ⟨t, y⟩, hm, h⟩
  · obtain ⟨hm, hy⟩ := onFst_run.mp hm
    exact .inl ⟨e, q.1, hm, hr, Prod.ext rfl hy⟩
  · obtain ⟨hm, rfl⟩ := onFst_run.mp hm
    exact .inr ⟨a, t, hm, h⟩

/-! ## Contracts -/

/-- What holds of a result: `P` of a value, `E` of an error. -/
@[reducible] def Ends (P : α → Prop) (E : ε → Prop) : Except ε α → Prop
  | .ok a => P a
  | .error e => E e

/-- From a state with `P`, the computation succeeds with a result and a state in
`Q`, or fails with an error and a state in `E`. -/
def Triple (P : σ → Prop) (m : Fallible σ ε α) (Q : α → σ → Prop) (E : ε → σ → Prop) : Prop :=
  ∀ s, P s → (∀ a t, m s = (.ok a, t) → Q a t) ∧ (∀ e t, m s = (.error e, t) → E e t)

section Triple

variable {P P' : σ → Prop} {Q Q' : α → σ → Prop} {E : ε → σ → Prop}

theorem Triple.pure {a : α} (h : ∀ s, P s → Q a s) :
    Triple P (Pure.pure a : Fallible σ ε α) Q E := by
  intro s hs
  refine ⟨fun b t ht => ?_, fun e t ht => absurd ht (by simp)⟩
  obtain ⟨rfl, rfl⟩ : a = b ∧ s = t := by simpa using ht
  exact h s hs

theorem Triple.fail {e : ε} (h : ∀ s, P s → E e s) :
    Triple P (Fallible.fail e : Fallible σ ε α) Q E := by
  intro s hs
  refine ⟨fun b t ht => absurd ht (by simp), fun e' t ht => ?_⟩
  obtain ⟨rfl, rfl⟩ : e = e' ∧ s = t := by simpa using ht
  exact h s hs

theorem Triple.modify {f : σ → σ} {Q : Unit → σ → Prop} (h : ∀ s, P s → Q () (f s)) :
    Triple P (Fallible.modify f : Fallible σ ε Unit) Q E := by
  intro s hs
  refine ⟨fun b t ht => ?_, fun e t ht => absurd ht (by simp)⟩
  obtain rfl : f s = t := by simpa using ht
  exact h s hs

variable {m : Fallible σ ε α}

theorem Triple.bind {f : α → Fallible σ ε β} {R : β → σ → Prop} (hm : Triple P m Q E)
    (hf : ∀ a, Triple (Q a) (f a) R E) : Triple P (m >>= f) R E := by
  intro s hs
  refine ⟨fun b t ht => ?_, fun e t ht => ?_⟩
  · obtain ⟨a, u, hu, ht⟩ := bind_eq_ok.mp ht
    exact (hf a u ((hm s hs).1 a u hu)).1 b t ht
  · rcases bind_eq_error.mp ht with hu | ⟨a, u, hu, ht⟩
    · exact (hm s hs).2 e t hu
    · exact (hf a u ((hm s hs).1 a u hu)).2 e t ht

theorem Triple.gets_skip {f : σ → β} {k : β → Fallible σ ε α} (h : ∀ b, Triple P (k b) Q E) :
    Triple P (Fallible.gets f >>= k) Q E := fun s hs => h (f s) s hs

theorem Triple.pre (h : Triple P m Q E) (hp : ∀ s, P' s → P s) :
    Triple P' m Q E := fun s hs => h s (hp s hs)

theorem Triple.post (h : Triple P m Q E) (hq : ∀ a s, Q a s → Q' a s) :
    Triple P m Q' E := fun s hs =>
  ⟨fun a t ht => hq a t ((h s hs).1 a t ht), (h s hs).2⟩

/-- The error is handed to what follows. -/
theorem Triple.attempt {E' : ε → σ → Prop} (h : Triple P m Q E') :
    Triple P (Fallible.attempt m)
      (fun r s => match r with
        | .ok a => Q a s
        | .error e => E' e s) E := by
  intro s hs
  refine ⟨fun r t ht => ?_, fun e t ht => absurd ht (by simp [Fallible.attempt])⟩
  have hr : (m s).1 = r := by
    have h1 := (Prod.mk.inj ht).1
    simpa using h1
  have ht' : (m s).2 = t := (Prod.mk.inj ht).2
  cases r with
  | ok a => exact (h s hs).1 a t (Prod.ext hr ht')
  | error e => exact (h s hs).2 e t (Prod.ext hr ht')

end Triple

/-- `I` holds after the computation, failed or not. -/
def Keeps (I : σ → Prop) (m : Fallible σ ε α) : Prop := ∀ s, I s → I (m s).2

/-- The state before and the state after are related by `R`, failed or not. -/
def Moves (R : σ → σ → Prop) (m : Fallible σ ε α) : Prop := ∀ s, R s (m s).2

section Keeps

variable {I : σ → Prop}

theorem Keeps.pure (a : α) : Keeps I (Pure.pure a : Fallible σ ε α) := fun _ h => h

theorem Keeps.gets (f : σ → α) : Keeps I (Fallible.gets f : Fallible σ ε α) := fun _ h => h

theorem Keeps.bind {m : Fallible σ ε α} {f : α → Fallible σ ε β} (hm : Keeps I m)
    (hf : ∀ a, Keeps I (f a)) : Keeps I (m >>= f) := by
  intro s hs
  have hms := hm s hs
  rw [bind_run]
  rcases h : m s with ⟨r, t⟩
  rw [h] at hms
  cases r with
  | ok a => exact hf a t hms
  | error e => exact hms

end Keeps

section Moves

variable {R : σ → σ → Prop}

theorem Moves.pure (hr : ∀ s, R s s) (a : α) : Moves R (Pure.pure a : Fallible σ ε α) := hr

theorem Moves.bind (ht : ∀ s t u, R s t → R t u → R s u) {m : Fallible σ ε α}
    {f : α → Fallible σ ε β} (hm : Moves R m) (hf : ∀ a, Moves R (f a)) : Moves R (m >>= f) := by
  intro s
  have hms := hm s
  rw [bind_run]
  rcases h : m s with ⟨r, t⟩
  rw [h] at hms
  cases r with
  | ok a => exact ht s t _ hms (hf a t)
  | error e => exact hms

theorem Moves.fail (hr : ∀ s, R s s) (e : ε) : Moves R (Fallible.fail e : Fallible σ ε α) := hr

theorem Moves.gets (hr : ∀ s, R s s) (f : σ → α) : Moves R (Fallible.gets f : Fallible σ ε α) := hr

theorem Moves.modify {f : σ → σ} (h : ∀ s, R s (f s)) :
    Moves R (Fallible.modify f : Fallible σ ε Unit) := h

theorem Moves.attempt {m : Fallible σ ε α} (h : Moves R m) : Moves R (Fallible.attempt m) := h

theorem Moves.of_run {m : Fallible σ ε α} {s t : σ} {r : Except ε α} (h : Moves R m)
    (hr : m s = (r, t)) : R s t := by
  have hm := h s
  rwa [hr] at hm

theorem Moves.triple {P : σ → Prop} {Q E : σ → Prop} {m : Fallible σ ε α} (h : Moves R m)
    (hq : ∀ s t, R s t → P s → Q t) (he : ∀ s t, R s t → P s → E t) :
    Triple P m (fun _ => Q) (fun _ => E) := by
  intro s hs
  exact ⟨fun a t ht => hq s t (h.of_run ht) hs, fun e t ht => he s t (h.of_run ht) hs⟩

end Moves

end Fallible

end CosmoOS.Lib
