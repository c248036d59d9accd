import CosmoOS.Lib.Transition
import Mathlib.Data.Nat.Notation
import Mathlib.Logic.Function.Basic

/-!
# The kept packages of one package

`pkg` keeps the file of each version it installs, with ORDER listing the kept files, newest first:
the version installed and the one before it.  `pkg rollback` installs the first that ORDER lists and
that is not installed.  A package file is named after its version, and stands for it here.

`install_loaded` keeps the file before the install, which may then be refused, and writes ORDER
after it from the version that was replaced.  A version that replaces itself is replaced by none,
and the one before is forgotten; and a refused version's file is listed nowhere and stays.  The
condition that neither happens is `Act.Clear`.
-/

namespace CosmoOS.Pkg.Rollback

open Function Lib

variable {V : Type} [DecidableEq V]

/-- The database's version of the package, and its directory of kept files. -/
structure Kept (V : Type) where
  installed : Option V := none
  order : List V := []
  files : V → Bool := fun _ => false

/-- The first versions that ORDER lists. -/
def keptRead (k : Kept V) (max : ℕ) : List V := k.order.take max

/-- A version's file is kept, before it is installed. -/
def keptStage (k : Kept V) (v : V) : Kept V := { k with files := update k.files v true }

/-- `v` is installed, replacing `prev`: what ORDER listed is unlinked but for these two. -/
def keptCommit (k : Kept V) (v : V) (prev : Option V) : Kept V :=
  let before := prev.filter (· ≠ v)
  { k with
    files x := k.files x && (!(keptRead k 4).contains x || x = v || before = some x)
    order := v :: before.toList }

/-- `ok` is what `install_loaded_files` answers. -/
def installLoaded (k : Kept V) (v : V) (ok : Bool) : Kept V :=
  let staged := keptStage k v
  if ok then keptCommit { staged with installed := some v } v k.installed else staged

/-- The first of the versions that is not `v`. -/
def other (v : V) (vs : List V) : Option V := vs.find? (· ≠ v)

/-- The version `cmd_rollback` takes from ORDER. -/
def previous (k : Kept V) : Option V := k.installed.bind fun cur => other cur (keptRead k 4)

/-! ## Runs -/

/-- With the versions installed so far, newest first. -/
structure World (V : Type) extends Kept V where
  history : List V := []

def World.install (w : World V) (v : V) (ok : Bool) : World V where
  toKept := installLoaded w.toKept v ok
  history := if ok then v :: w.history else w.history

inductive Act (V : Type)
  | install (v : V) (ok : Bool)
  /-- `fits`: nothing stands in its way before it installs; `indexed`: a repository has it. -/
  | rollback (fits indexed ok : Bool)

def World.act (w : World V) : Act V → World V
  | .install v ok => w.install v ok
  | .rollback fits indexed ok =>
    match previous w.toKept with
    | none => w
    | some p => if fits && (w.files p || indexed) then w.install p ok else w

/-- A version is installed again only while no other is recorded, and refused only if it is kept. -/
def Act.Clear (w : World V) : Act V → Prop
  | .install v ok => if ok then w.installed = some v → w.order = [v] else v ∈ w.order
  | .rollback .. => True

def Initial (w : World V) : Prop := w = {}

/-- The steps whose acts `C` admits. -/
def Step (C : World V → Act V → Prop) (w w' : World V) : Prop := ∃ a, C w a ∧ w' = w.act a

/-- The version installed last, and the last other one before it. -/
def recent : List V → List V
  | [] => []
  | v :: vs => v :: (other v vs).toList

/-- The installed version, ORDER and the kept files, as the history tells them. -/
structure Inv (w : World V) : Prop where
  installed : w.installed = w.history.head?
  order : w.order = recent w.history
  files : ∀ x, w.files x = true ↔ x ∈ w.order

variable {w w' : World V} {v u x : V} {vs : List V}

theorem other_cons_self (v : V) (vs : List V) : other v (v :: vs) = other v vs := by
  simp [other]

theorem other_cons (h : u ≠ v) (vs : List V) : other v (u :: vs) = some u := by
  simp [other, h]

theorem recent_take (vs : List V) : (recent vs).take 4 = recent vs := by
  rcases vs with _ | ⟨v, vs⟩
  · rfl
  · rw [recent]
    cases other v vs <;> rfl

theorem Inv.previous_eq (h : Inv w) :
    previous w.toKept = w.installed.bind fun v => other v w.history := by
  rw [previous, keptRead, h.order, recent_take, h.installed]
  rcases w.history with _ | ⟨v, vs⟩
  · rfl
  show other v (recent (v :: vs)) = other v (v :: vs)
  rw [recent, other_cons_self, other_cons_self]
  cases hp : other v vs with
  | none => rfl
  | some p => exact other_cons (by simpa using List.find?_some hp) []

theorem head_filter (h : vs.head? = some v → recent vs = [v]) :
    vs.head?.filter (· ≠ v) = other v vs := by
  rcases vs with _ | ⟨u, us⟩
  · rfl
  by_cases hu : u = v
  · subst hu
    have hnone : other u us = none := by simpa [recent] using h rfl
    rw [other_cons_self, hnone]
    simp
  · rw [other_cons hu]
    simp [hu]

theorem Inv.install (h : Inv w) (hv : w.installed = some v → w.order = [v]) :
    Inv (w.install v true) := by
  have hin : ∀ x, w.installed = some x → x ∈ w.order := by
    intro x hx
    rw [h.installed] at hx
    obtain ⟨vs, hvs⟩ := List.head?_eq_some_iff.mp hx
    rw [h.order, hvs, recent]
    exact List.mem_cons_self
  have hold := h.order
  rw [h.installed, h.order] at hv
  have hbefore := congrArg (·.filter (· ≠ v)) h.installed |>.trans (head_filter hv)
  refine ⟨rfl, congrArg (fun b : Option V => v :: b.toList) hbefore, fun x => ?_⟩
  show (update w.files v true x && (!(w.order.take 4).contains x || decide (x = v) ||
      decide (w.installed.filter (· ≠ v) = some x))) = true ↔
    x ∈ v :: (w.installed.filter (· ≠ v)).toList
  rw [hold, recent_take, ← hold]
  by_cases hxv : x = v
  · simp [hxv]
  · rw [update_of_ne hxv]
    have hcur : w.installed.filter (· ≠ v) = some x → x ∈ w.order := fun hb =>
      hin x (Option.filter_eq_some_iff.mp hb).1
    generalize w.installed.filter (· ≠ v) = before at hcur ⊢
    simp only [Bool.and_eq_true, h.files x, Bool.or_eq_true, Bool.not_eq_true',
      List.contains_eq_mem, decide_eq_false_iff_not, decide_eq_true_eq, hxv, or_false,
      List.mem_cons, false_or, Option.mem_toList]
    exact ⟨fun hx => hx.2.resolve_left (not_not.mpr hx.1), fun hb => ⟨hcur hb, .inr hb⟩⟩

theorem Inv.refused (h : Inv w) (hv : v ∈ w.order) : Inv (w.install v false) := by
  refine ⟨h.installed, h.order, fun x => ?_⟩
  show update w.files v true x = true ↔ x ∈ w.order
  by_cases hxv : x = v
  · rw [hxv, update_self]
    exact iff_of_true rfl hv
  · rw [update_of_ne hxv]
    exact h.files x

theorem previous_mem {k : Kept V} {p : V} (h : previous k = some p) :
    p ∈ k.order ∧ k.installed ≠ some p := by
  obtain ⟨cur, hcur, hp⟩ := Option.bind_eq_some_iff.mp h
  have hne : p ≠ cur := by simpa using List.find?_some hp
  exact ⟨List.mem_of_mem_take (List.mem_of_find?_eq_some hp), fun he =>
    hne (Option.some.inj (he.symm.trans hcur))⟩

theorem Inv.step (h : Inv w) (hst : Step Act.Clear w w') : Inv w' := by
  obtain ⟨a, ha, rfl⟩ := hst
  have hinstall : ∀ v ok, (if ok then w.installed = some v → w.order = [v] else v ∈ w.order) →
      Inv (w.install v ok) := by
    intro v ok hv
    cases ok with
    | true => exact h.install hv
    | false => exact h.refused hv
  cases a with
  | install v ok => exact hinstall v ok ha
  | rollback fits indexed ok =>
    simp only [World.act]
    split
    · exact h
    next p hp =>
      obtain ⟨hmem, hne⟩ := previous_mem hp
      split
      · refine hinstall p ok ?_
        cases ok
        · exact hmem
        · exact fun he => absurd he hne
      · exact h

/-- The version a rollback takes is kept, and a rollback that nothing stops installs it. -/
theorem Inv.rollback (h : Inv w) {p : V} (hp : previous w.toKept = some p) (indexed : Bool) :
    w.act (.rollback true indexed true) = w.install p true ∧ Inv (w.install p true) := by
  obtain ⟨hmem, hne⟩ := previous_mem hp
  refine ⟨?_, h.install fun he => absurd he hne⟩
  have hfile : w.files p = true := (h.files p).mpr hmem
  simp only [World.act, hp, hfile, Bool.true_or, Bool.and_true, if_true]

theorem Inv.previous_rollback (h : Inv w) {p : V} (hp : previous w.toKept = some p) :
    previous (w.install p true).toKept = w.installed := by
  have hne := (previous_mem hp).2
  rw [(h.install fun he => absurd he hne).previous_eq]
  rw [h.installed] at hne ⊢
  show other p (p :: w.history) = _
  rw [other_cons_self]
  cases hh : w.history with
  | nil => rfl
  | cons v vs => exact other_cons (fun he => hne (by rw [hh, he]; rfl)) vs

/-- **Kept packages.**  In every run whose installs are clear, a rollback installs the last version,
different from the installed one, that was installed before it, and a second one gives back the
version the first started from; and the files kept are those of these two versions. -/
theorem kept_run (h : Reachable Initial (Step Act.Clear) w) :
    (∀ v p, w.installed = some v → other v w.history = some p → ∀ indexed indexed',
      (w.act (.rollback true indexed true)).installed = some p ∧
      ((w.act (.rollback true indexed true)).act (.rollback true indexed' true)).installed =
        some v) ∧
    ∀ x, w.files x = true ↔
      w.installed = some x ∨ ∃ v, w.installed = some v ∧ other v w.history = some x := by
  have hinv : Inv w := by
    refine h.invariant ?_ fun _ _ hs hst => hs.step hst
    rintro w rfl
    exact ⟨rfl, rfl, fun _ => by simp⟩
  refine ⟨fun v p hv hp indexed indexed' => ?_, fun x => ?_⟩
  · have hprev : previous w.toKept = some p := by
      rw [hinv.previous_eq, hv]
      exact hp
    obtain ⟨hact, hinv'⟩ := hinv.rollback hprev indexed
    rw [hact, (hinv'.rollback ((hinv.previous_rollback hprev).trans hv) indexed').1]
    exact ⟨rfl, rfl⟩
  · rw [hinv.files, hinv.order, hinv.installed]
    cases w.history with
    | nil => simp [recent]
    | cons v vs => simp [recent, other_cons_self, eq_comm]

/-- Two versions are installed, and two rollbacks are to the first and back. -/
theorem kept_run_two : ∃ w : World ℕ, w.history = [2, 1] ∧
    (w.act (.rollback true false true)).installed = some 1 ∧
    ((w.act (.rollback true false true)).act (.rollback true false true)).installed = some 2 := by
  have h : Reachable Initial (Step Act.Clear) ({} : World ℕ) := .init rfl
  have h₁ := h.step ⟨.install 1 true, fun he => absurd he (by decide), rfl⟩
  have h₂ := h₁.step ⟨.install 2 true, fun he => absurd he (by decide), rfl⟩
  exact ⟨_, rfl, (kept_run h₂).1 2 1 rfl rfl false false⟩

/-- The second of two versions is installed again, and a rollback finds none to install; or another
version is refused, and its file stays. -/
theorem earlier_version_lost :
    (∃ w : World ℕ, Reachable Initial (Step fun _ _ => True) w ∧ w.history = [2, 2, 1] ∧
      (w.act (.rollback true true true)).installed = some 2) ∧
    ∃ w : World ℕ, Reachable Initial (Step fun _ _ => True) w ∧ w.history = [1] ∧
      w.files 2 = true := by
  have h : Reachable Initial (Step fun _ _ => True) ({} : World ℕ) := .init rfl
  have h₁ := h.step ⟨.install 1 true, trivial, rfl⟩
  have h₂ := h₁.step ⟨.install 2 true, trivial, rfl⟩
  exact ⟨⟨_, h₂.step ⟨.install 2 true, trivial, rfl⟩, rfl, rfl⟩,
    _, h₁.step ⟨.install 2 false, trivial, rfl⟩, rfl, rfl⟩

end CosmoOS.Pkg.Rollback
