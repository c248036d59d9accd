import Mathlib.Logic.Relation

/-!
# Transition systems

A system is given by its initial states and its steps.  What is proved about it is proved of
every state a run can reach: an invariant holds initially and is kept by each step
(`Reachable.invariant`), and may use, in the step, what is already known of reachable states.
Where steps are labelled by what they do, a run is a `Trace`, and what is proved relates the
state reached to the labels.
-/

namespace CosmoOS.Lib

variable {σ : Type*} {Init : σ → Prop} {Step : σ → σ → Prop}

def Reachable (Init : σ → Prop) (Step : σ → σ → Prop) (s : σ) : Prop :=
  ∃ s₀, Init s₀ ∧ Relation.ReflTransGen Step s₀ s

theorem Reachable.init {s : σ} (h : Init s) : Reachable Init Step s := ⟨s, h, .refl⟩

theorem Reachable.step {s t : σ} (h : Reachable Init Step s) (hst : Step s t) :
    Reachable Init Step t := by
  obtain ⟨s₀, h₀, hrun⟩ := h
  exact ⟨s₀, h₀, hrun.tail hst⟩

/-- **The rule for invariants.** -/
theorem Reachable.invariant {P : σ → Prop} (hinit : ∀ s, Init s → P s)
    (hstep : ∀ s t, P s → Step s t → P t) {s : σ} (h : Reachable Init Step s) : P s := by
  obtain ⟨s₀, h₀, hrun⟩ := h
  induction hrun with
  | refl => exact hinit s₀ h₀
  | tail _ hst ih => exact hstep _ _ ih hst

variable {ℓ : Type*}

/-- A run of a system that computes its steps, shown by what is true at its end. -/
theorem Reachable.of_run {act : σ → ℓ → Option σ} (hact : ∀ s a t, act s a = some t → Step s t)
    {s₀ : σ} (h : Reachable Init Step s₀) (ls : List ℓ) (p : σ → Bool)
    (hrun : (ls.foldlM act s₀).any p = true) : ∃ s, Reachable Init Step s ∧ p s = true := by
  induction ls generalizing s₀ with
  | nil => exact ⟨s₀, h, by simpa using hrun⟩
  | cons a ls ih =>
    rw [List.foldlM_cons] at hrun
    cases ha : act s₀ a with
    | none => rw [ha] at hrun; cases hrun
    | some t => rw [ha] at hrun; exact ih (h.step (hact _ _ _ ha)) hrun

/-- The runs of a system with labelled steps, with the labels in order. -/
inductive Trace (Step : σ → ℓ → σ → Prop) (s : σ) : List ℓ → σ → Prop
  | nil : Trace Step s [] s
  | snoc {ls : List ℓ} {t u : σ} {l : ℓ} (h : Trace Step s ls t) (hl : Step t l u) :
      Trace Step s (ls ++ [l]) u

/-- **The rule for runs with labels**: a relation between labels and state that holds at the
start and is kept by each step. -/
theorem Trace.invariant {Step : σ → ℓ → σ → Prop} {P : List ℓ → σ → Prop} {s : σ}
    (hinit : P [] s) (hstep : ∀ ls t l u, P ls t → Step t l u → P (ls ++ [l]) u) {ls : List ℓ}
    {t : σ} (h : Trace Step s ls t) : P ls t := by
  induction h with
  | nil => exact hinit
  | snoc _ hl ih => exact hstep _ _ _ _ ih hl

end CosmoOS.Lib
