import CosmoOS.Lib.Holders
import CosmoOS.Lib.Transition
import CosmoOS.Object.Refcount
import Mathlib.Data.Fintype.Card
import Mathlib.Data.Fintype.BigOperators
import Mathlib.Data.List.FinRange

/-!
# Handle tables

A process names kernel objects by handles: a table of sixty-four slots, each empty or holding an
object with the rights its holder has.  The table counts its occupied slots; the object counts the
slots that hold it, in every table; and its reference count has one reference for each of them,
beside those of lookups in progress and those its creators keep.

The model (`handle.cee`) has any number of tables and objects.  A call that panics has no result:
the panics of `kobject_get` and `kobject_put` on a count of zero, and that of `handle_table_destroy`
on a table it could not empty, which does not occur.

`World` keeps the references that are not a slot's: `lookups` are those a lookup has returned and
its caller has not dropped, `creators` those not taken through a table.  Both counts are `u32`s and
wrap, so that what is exact is exact modulo `2 ^ 32`.

What the operations do to the counts is said once, for a system with `extra` references outside the
slots (`Balanced`), and each call is composed of these.  A table that is exiting only empties
(`Fewer`).
-/

namespace CosmoOS.Object.Handles

open Lib Refcount Function Option

/-! ## Tables and objects -/

def tableSize : ℕ := 64

instance : NeZero tableSize := ⟨by decide⟩

/-- `struct handle_entry`, of an occupied slot. -/
structure Entry (O : Type) where
  obj : O
  rights : BitVec 32
  flags : BitVec 32

/-- `struct handle_table`. -/
structure Table (O : Type) where
  entries : Fin tableSize → Option (Entry O)
  count : ℕ
  /-- `COSMO_RLIMIT_NOFILE`. -/
  limit : ℕ
  exiting : Bool

/-- Every table, and of every object what the tables' code reads and writes. -/
structure Sys (τ O : Type) where
  tables : τ → Table O
  refcount : O → ℕ
  handles : O → ℕ

def rightTransfer : BitVec 32 := 8

def rightsSame : BitVec 32 := 0

def flagCloexec : BitVec 32 := 1

def eperm : Int := 1
def ebadf : Int := 9
def ebusy : Int := 16
def emfile : Int := 24

variable {τ O : Type}

section Functions

variable [DecidableEq τ] [DecidableEq O]

def tableInit : Table O := ⟨fun _ => none, 0, tableSize, false⟩

/-- `inRange` and `slot`: the slot of a handle, if it is one. -/
def slot (h : Int) : Option (Fin tableSize) :=
  if hr : 0 ≤ h ∧ h < tableSize then
    some ⟨h.toNat, by have := hr.2; have := hr.1; omega⟩
  else none

namespace Sys

section

variable (s : Sys τ O) (t : τ) (o : O)

def kobjectGet : Option (Sys τ O) :=
  if s.refcount o = 0 then none
  else some { s with refcount := update s.refcount o (wrapAdd (s.refcount o)) }

def kobjectPut : Option (Sys τ O) :=
  if s.refcount o = 0 then none
  else some { s with refcount := update s.refcount o (s.refcount o - 1) }

/-- A slot and the table's count. -/
def setSlot (i : Fin tableSize) (e : Option (Entry O)) (n : ℕ) : Sys τ O :=
  let T := s.tables t
  { s with
    tables := update s.tables t
      ⟨update T.entries i e, n, T.limit, T.exiting⟩ }

def installSlot (i : Fin tableSize) (e : Entry O) : Sys τ O :=
  { s.setSlot t i (some e) ((s.tables t).count + 1) with
    handles := update s.handles e.obj (wrapAdd (s.handles e.obj)) }

/-- The lowest free slot. -/
def freeSlot (T : Table O) : Option (Fin tableSize) :=
  (List.finRange tableSize).find? fun i => (T.entries i).isNone

def installFlags (rights flags : BitVec 32) : Option (Int × Sys τ O) := do
  let s ← s.kobjectGet o
  if (s.tables t).exiting then
    return (-ebadf, ← s.kobjectPut o)
  if (s.tables t).limit ≤ (s.tables t).count then
    return (-emfile, ← s.kobjectPut o)
  match freeSlot (s.tables t) with
  | some i => return (i.val, s.installSlot t i ⟨o, rights, flags⟩)
  | none => return (-emfile, ← s.kobjectPut o)

/-- `handle_install`. -/
def install (rights : BitVec 32) : Option (Int × Sys τ O) :=
  s.installFlags t o rights 0

def installAtFlags (h : Int) (o : O) (rights flags : BitVec 32) : Option (Int × Sys τ O) :=
  match slot h with
  | none => some (-ebadf, s)
  | some i => do
      let s ← s.kobjectGet o
      if (s.tables t).exiting then
        return (-ebadf, ← s.kobjectPut o)
      if ((s.tables t).entries i).isSome then
        return (-ebusy, ← s.kobjectPut o)
      return (h, s.installSlot t i ⟨o, rights, flags⟩)

def installAt (h : Int) (o : O) (rights : BitVec 32) : Option (Int × Sys τ O) :=
  s.installAtFlags t h o rights 0

/-- The entry a lookup sees: none once the table is exiting. -/
def seen (i : Fin tableSize) : Option (Entry O) :=
  if (s.tables t).exiting then none else (s.tables t).entries i

/-- `handle_lookup_rights`: the object, referenced, and whether rights were missing. -/
def lookupRights (h : Int) (needed : BitVec 32) : Option ((Option O × Bool) × Sys τ O) :=
  match (slot h).bind (s.seen t) with
  | none => some ((none, false), s)
  | some e =>
    if e.rights &&& needed ≠ needed then some ((none, true), s)
    else (s.kobjectGet e.obj).map fun s => ((some e.obj, false), s)

/-- `handle_lookup`. -/
def lookup (h : Int) (needed : BitVec 32) : Option (Option O × Sys τ O) :=
  (s.lookupRights t h needed).map fun r => (r.1.1, r.2)

/-- `getWith`: the object, referenced, with its rights and flags. -/
def getWith (h : Int) : Option (Option (Entry O) × Sys τ O) :=
  match (slot h).bind (s.seen t) with
  | none => some (none, s)
  | some e => (s.kobjectGet e.obj).map fun s => (some e, s)

/-- What `handle_close` does under the table's lock. -/
def clearSlot (i : Fin tableSize) (o : O) : Sys τ O :=
  { s.setSlot t i none ((s.tables t).count - 1) with
    handles := update s.handles o (s.handles o - 1) }

/-- `handle_close`, with what the object's flush returns. -/
def close (h flush : Int) : Option (Int × Sys τ O) :=
  match slot h with
  | none => some (-ebadf, s)
  | some i =>
    match (s.tables t).entries i with
    | none => some (-ebadf, s)
    | some e =>
      -- fetchSub returns what was there, and the difference is checked
      if s.handles e.obj = 0 then none
      else ((s.clearSlot t i e.obj).kobjectPut e.obj).map fun s => (flush, s)

def setFlags (h : Int) (flags : BitVec 32) : Int × Sys τ O :=
  match (slot h).bind fun i => (s.seen t i).map fun e => (i, e) with
  | none => (-ebadf, s)
  | some (i, e) => (0, s.setSlot t i (some { e with flags := flags }) (s.tables t).count)

/-- The loop of `handle_close_on_exec`, from a list of slots. -/
def closeOnExecFrom (s : Sys τ O) (t : τ) (flush : ℕ → Int) :
    List (Fin tableSize) → Option (Sys τ O)
  | [] => some s
  | i :: is =>
    match (s.tables t).entries i with
    | none => s.closeOnExecFrom t flush is
    | some e =>
      if e.flags &&& flagCloexec ≠ 0 then do
        let r ← s.close t i.val (flush i.val)
        r.2.closeOnExecFrom t flush is
      else s.closeOnExecFrom t flush is

def closeOnExec (flush : ℕ → Int) : Option (Sys τ O) :=
  s.closeOnExecFrom t flush (List.finRange tableSize)

/-- The rule of `handle_transfer_check`. -/
def mayGive (rights give : BitVec 32) : Bool :=
  rights &&& rightTransfer ≠ 0 && (give = rightsSame || give &&& (rights ^^^ 0xFFFFFFFF) = 0)

/-- `handle_transfer_check`: the object, referenced, and the rights to install it with. -/
def transferCheck (h : Int) (give : BitVec 32) : Option (Except Int (O × BitVec 32) × Sys τ O) := do
  match ← s.getWith t h with
  | (none, s) => return (.error (-ebadf), s)
  | (some e, s) =>
    if mayGive e.rights give then
      return (.ok (e.obj, if give = rightsSame then e.rights else give), s)
    else
      return (.error (-eperm), ← s.kobjectPut e.obj)

/-- The first lock hold of `handle_table_destroy`: the gate is raised. -/
def raiseGate : Sys τ O :=
  { s with tables := update s.tables t { s.tables t with exiting := true } }

/-- The loop of `handle_table_destroy`, from a list of slots. -/
def closeFrom (s : Sys τ O) (t : τ) (flush : ℕ → Int) : List (Fin tableSize) → Option (Sys τ O)
  | [] => some s
  | i :: is => do
      let r ← s.close t i.val (flush i.val)
      r.2.closeFrom t flush is

def tableDestroy (flush : ℕ → Int) : Option (Sys τ O) := do
  let s ← (s.raiseGate t).closeFrom t flush (List.finRange tableSize)
  if (s.tables t).count ≠ 0 then none else return s

end

end Sys

end Functions

/-! ## The counts -/

/-- The objects the slots hold, by table and slot. -/
def Sys.slotObj (s : Sys τ O) (p : τ × Fin tableSize) : Option O :=
  ((s.tables p.1).entries p.2).map Entry.obj

/-- How many slots of the table are occupied. -/
noncomputable def occupied (T : Table O) : ℕ := {i | (T.entries i).isSome}.ncard

/-- One reference more. -/
def plus [DecidableEq O] (extra : O → ℕ) (o : O) : O → ℕ := update extra o (extra o + 1)

/-- **The counts are right**, with `extra` references outside the slots. -/
structure Balanced (s : Sys τ O) (extra : O → ℕ) : Prop where
  count : ∀ t, (s.tables t).count = occupied (s.tables t)
  finite : ∀ o, (holders s.slotObj o).Finite
  handles : ∀ o, s.handles o = (holders s.slotObj o).ncard % 2 ^ 32
  refs : ∀ o, s.refcount o = ((holders s.slotObj o).ncard + extra o) % 2 ^ 32

/-- **An exiting table only empties**, and stays exiting. -/
def Fewer (s s' : Sys τ O) : Prop :=
  ∀ t, (s.tables t).exiting = true →
    (s'.tables t).exiting = true ∧
      ∀ i, (s.tables t).entries i = none → (s'.tables t).entries i = none

section Counts

variable {s s' : Sys τ O} {extra : O → ℕ} {t : τ} {i : Fin tableSize} {o : O}
    {flags : BitVec 32} {rc h : Int}

variable {rights : BitVec 32}

theorem occupied_eq_slots (s : Sys τ O) (t : τ) :
    occupied (s.tables t) = {i | (s.slotObj (t, i)).isSome}.ncard := by
  simp [occupied, Sys.slotObj]

theorem occupied_eq_holders (T : Table O) :
    occupied T = (holders (fun i => (T.entries i).map fun _ => ()) ()).ncard := by
  refine congrArg Set.ncard (Set.ext fun i => ?_)
  cases h : T.entries i <;> simp [holders, h]

theorem occupied_update (T : Table O) (i : Fin tableSize) (e : Option (Entry O)) (n : ℕ) :
    occupied ⟨update T.entries i e, n, T.limit, T.exiting⟩ +
        (if (T.entries i).isSome then 1 else 0) =
      occupied T + if e.isSome then 1 else 0 := by
  have hmap : (fun j => (update T.entries i e j).map fun _ => ()) =
      update (fun j => (T.entries j).map fun _ => ()) i (e.map fun _ => ()) := by
    funext j
    exact Function.apply_update (fun _ (x : Option (Entry O)) => x.map fun _ => ()) _ i e j
  have hupdate := ncard_holders_update (f := ())
    (p := fun j => (T.entries j).map fun _ => ()) (Set.toFinite _) i (e.map fun _ => ())
  rw [occupied_eq_holders, occupied_eq_holders T, hmap]
  cases hi : T.entries i <;> cases e <;> simpa [hi] using hupdate

theorem Balanced.congr {y : O → ℕ} (h : Balanced s extra) (hy : extra = y) : Balanced s y := hy ▸ h

/-- Only what the slots hold is counted. -/
theorem Balanced.of_slots (h : Balanced s extra) (hslots : s'.slotObj = s.slotObj)
    (hcount : ∀ t, (s'.tables t).count = (s.tables t).count) (hhandles : s'.handles = s.handles)
    (hrefs : s'.refcount = s.refcount) : Balanced s' extra := by
  refine ⟨fun t => ?_, ?_, ?_, ?_⟩
  · rw [hcount, h.count, occupied_eq_slots, occupied_eq_slots, hslots]
  · rw [hslots]
    exact h.finite
  · rw [hslots, hhandles]
    exact h.handles
  · rw [hslots, hrefs]
    exact h.refs

theorem Fewer.refl (s : Sys τ O) : Fewer s s := fun _ h => ⟨h, fun _ => id⟩

theorem Fewer.trans {s'' : Sys τ O} (h : Fewer s s') (h' : Fewer s' s'') : Fewer s s'' := by
  intro t ht
  obtain ⟨ht', hi⟩ := h t ht
  obtain ⟨ht'', hi'⟩ := h' t ht'
  exact ⟨ht'', fun i h0 => hi' i (hi i h0)⟩

theorem Fewer.of_tables (h : s'.tables = s.tables) : Fewer s s' := by
  intro t ht
  rw [h]
  exact ⟨ht, fun _ => id⟩

/-! ## References -/

variable {e : Entry O}

variable {s₁ : Sys τ O}

section References

variable [DecidableEq O]

theorem wrapAdd_mod (n : ℕ) : wrapAdd (n % 2 ^ 32) = (n + 1) % 2 ^ 32 := by
  rw [wrapAdd]
  split_ifs <;> omega

theorem sub_one_mod {n : ℕ} (h : (n + 1) % 2 ^ 32 ≠ 0) : (n + 1) % 2 ^ 32 - 1 = n % 2 ^ 32 := by
  omega

theorem plus_apply (extra : O → ℕ) (o p : O) :
    plus extra o p = extra p + if p = o then 1 else 0 := by
  rcases eq_or_ne p o with rfl | hp
  · rw [plus, update_self, if_pos rfl]
  · rw [plus, update_of_ne hp, if_neg hp, Nat.add_zero]

section Wrapped

variable {f n : O → ℕ}

/-- Counts that are right but for wraps, one of them counted up. -/
theorem counted_up (h : ∀ p, f p = n p % 2 ^ 32) (o p : O) :
    update f o (wrapAdd (f o)) p = (n p + if p = o then 1 else 0) % 2 ^ 32 := by
  rcases eq_or_ne p o with rfl | hp
  · rw [update_self, h, wrapAdd_mod, if_pos rfl]
  · rw [update_of_ne hp, h, if_neg hp, Nat.add_zero]

theorem counted_down (h : ∀ p, f p = (n p + if p = o then 1 else 0) % 2 ^ 32) (hpos : f o ≠ 0)
    (p : O) : update f o (f o - 1) p = n p % 2 ^ 32 := by
  have hf := h p
  rcases eq_or_ne p o with rfl | hp
  · rw [if_pos rfl] at hf
    rw [update_self, hf, sub_one_mod (by rwa [← hf])]
  · rw [update_of_ne hp, hf, if_neg hp, Nat.add_zero]

end Wrapped

theorem kobjectGet_eq (h : s.kobjectGet o = some s') :
    s' = { s with refcount := update s.refcount o (wrapAdd (s.refcount o)) } := by
  rw [Sys.kobjectGet] at h
  split_ifs at h
  exact (Option.some.inj h).symm

theorem kobjectPut_eq (h : s.kobjectPut o = some s') :
    s.refcount o ≠ 0 ∧
      s' = { s with refcount := update s.refcount o (s.refcount o - 1) } := by
  rw [Sys.kobjectPut] at h
  split_ifs at h with h0
  exact ⟨h0, (Option.some.inj h).symm⟩

theorem tables_get (h : s.kobjectGet o = some s') : s'.tables = s.tables := by
  rw [kobjectGet_eq h]

theorem tables_put (h : s.kobjectPut o = some s') : s'.tables = s.tables := by
  rw [(kobjectPut_eq h).2]

/-- **A reference is taken.** -/
theorem Balanced.get (h : Balanced s extra) (hget : s.kobjectGet o = some s') :
    Balanced s' (plus extra o) ∧ Fewer s s' := by
  refine ⟨?_, .of_tables (tables_get hget)⟩
  rw [kobjectGet_eq hget]
  refine ⟨h.count, h.finite, h.handles, fun p => ?_⟩
  rw [plus_apply, ← Nat.add_assoc]
  exact counted_up h.refs o p

/-- **A reference is dropped.** -/
theorem Balanced.put (h : Balanced s (plus extra o)) (hput : s.kobjectPut o = some s') :
    Balanced s' extra ∧ Fewer s s' := by
  refine ⟨?_, .of_tables (tables_put hput)⟩
  obtain ⟨hpos, rfl⟩ := kobjectPut_eq hput
  refine ⟨h.count, h.finite, h.handles, counted_down (fun p => ?_) hpos⟩
  rw [h.refs, plus_apply, ← Nat.add_assoc]
  rfl

theorem Balanced.get_put (h : Balanced s extra) (hget : s.kobjectGet o = some s₁)
    (hput : s₁.kobjectPut o = some s') : Balanced s' extra ∧ Fewer s s' := by
  obtain ⟨hs₁, hf₁⟩ := h.get hget
  obtain ⟨hs', hf'⟩ := hs₁.put hput
  exact ⟨hs', hf₁.trans hf'⟩

theorem Balanced.get_fail {c : Int} (h : Balanced s extra) (hget : s.kobjectGet o = some s₁)
    (hput : (s₁.kobjectPut o).bind (fun s => some (c, s)) = some (rc, s')) :
    Balanced s' extra ∧ Fewer s s' := by
  obtain ⟨s₂, hput, heq⟩ := bind_eq_some_iff.mp hput
  cases heq
  exact h.get_put hget hput

/-- The references a lookup leaves with its caller. -/
def took (extra : O → ℕ) : Option O → O → ℕ
  | none => extra
  | some o => plus extra o

omit [DecidableEq O] in
theorem seen_some (hseen : (slot h).bind (s.seen t) = some e) :
    ∃ i, slot h = some i ∧ (s.tables t).entries i = some e := by
  obtain ⟨i, hi, he⟩ := bind_eq_some_iff.mp hseen
  rw [Sys.seen] at he
  split_ifs at he
  exact ⟨i, hi, he⟩

section Lookups

variable {needed : BitVec 32} {r : Option O} {missing : Bool}
    (hcall : s.lookupRights t h needed = some ((r, missing), s'))

include hcall

theorem lookupRights_cases :
    (r = none ∧ s' = s) ∨
      ∃ i e, slot h = some i ∧ (s.tables t).entries i = some e ∧ r = some e.obj ∧
        e.rights &&& needed = needed ∧ s.kobjectGet e.obj = some s' := by
  rw [Sys.lookupRights] at hcall
  split at hcall
  · cases hcall
    exact .inl ⟨rfl, rfl⟩
  · rename_i e hseen
    obtain ⟨i, hi, he⟩ := seen_some hseen
    split_ifs at hcall with hr
    · cases hcall
      exact .inl ⟨rfl, rfl⟩
    · obtain ⟨s₁, hget, heq⟩ := map_eq_some_iff.mp hcall
      cases heq
      exact .inr ⟨i, e, hi, he, rfl, not_not.mp hr, hget⟩

theorem lookupRights_balanced (hs : Balanced s extra) :
    Balanced s' (took extra r) ∧ Fewer s s' := by
  rcases lookupRights_cases hcall with ⟨rfl, rfl⟩ | ⟨i, e, -, -, rfl, -, hget⟩
  · exact ⟨hs, .refl _⟩
  · exact hs.get hget

end Lookups

section Gets

variable {r : Option (Entry O)} (hcall : s.getWith t h = some (r, s'))

include hcall

theorem getWith_cases :
    (r = none ∧ s' = s) ∨
      ∃ i e, slot h = some i ∧ (s.tables t).entries i = some e ∧ r = some e ∧
        s.kobjectGet e.obj = some s' := by
  rw [Sys.getWith] at hcall
  split at hcall
  · cases hcall
    exact .inl ⟨rfl, rfl⟩
  · rename_i e hseen
    obtain ⟨i, hi, he⟩ := seen_some hseen
    obtain ⟨s₁, hget, heq⟩ := map_eq_some_iff.mp hcall
    cases heq
    exact .inr ⟨i, e, hi, he, rfl, hget⟩

theorem getWith_balanced (hs : Balanced s extra) :
    Balanced s' (took extra (r.map Entry.obj)) ∧ Fewer s s' := by
  rcases getWith_cases hcall with ⟨rfl, rfl⟩ | ⟨i, e, -, -, rfl, hget⟩
  · exact ⟨hs, .refl _⟩
  · exact hs.get hget

end Gets

/-- The object a transfer hands to its caller. -/
def transferred : Except Int (O × BitVec 32) → Option O
  | .ok (o, _) => some o
  | .error _ => none

section Transfers

variable {give : BitVec 32} {r : Except Int (O × BitVec 32)}
    (hcall : s.transferCheck t h give = some (r, s'))

include hcall

theorem transferCheck_cases :
    (transferred r = none ∧ s' = s) ∨
      ∃ i e s₁, slot h = some i ∧ (s.tables t).entries i = some e ∧
        s.kobjectGet e.obj = some s₁ ∧
        ((transferred r = none ∧ s₁.kobjectPut e.obj = some s') ∨
          (r = .ok (e.obj, if give = rightsSame then e.rights else give) ∧
            Sys.mayGive e.rights give = true ∧ s' = s₁)) := by
  obtain ⟨⟨r₁, s₁⟩, hget, hrest⟩ := bind_eq_some_iff.mp hcall
  rcases getWith_cases hget with ⟨rfl, hs⟩ | ⟨i, e, hi, he, rfl, hget'⟩
  · cases hrest
    exact .inl ⟨rfl, hs⟩
  · simp only at hrest
    refine .inr ⟨i, e, s₁, hi, he, hget', ?_⟩
    by_cases hmay : Sys.mayGive e.rights give = true
    · rw [if_pos hmay] at hrest
      cases hrest
      exact .inr ⟨rfl, hmay, rfl⟩
    · rw [if_neg hmay] at hrest
      obtain ⟨s₂, hput, heq⟩ := bind_eq_some_iff.mp hrest
      cases heq
      exact .inl ⟨rfl, hput⟩

theorem transferCheck_balanced (hs : Balanced s extra) :
    Balanced s' (took extra (transferred r)) ∧ Fewer s s' := by
  rcases transferCheck_cases hcall with ⟨hr, rfl⟩ | ⟨i, e, s₁, -, -, hget, h'⟩
  · rw [hr]
    exact ⟨hs, .refl _⟩
  · rcases h' with ⟨hr, hput⟩ | ⟨rfl, -, rfl⟩
    · rw [hr]
      exact hs.get_put hget hput
    · exact hs.get hget

end Transfers

end References

/-! ## Slots -/

variable [DecidableEq τ]

theorem slotObj_setSlot (s : Sys τ O) (t : τ) (i : Fin tableSize) (e : Option (Entry O)) (n : ℕ) :
    (s.setSlot t i e n).slotObj = update s.slotObj (t, i) (e.map Entry.obj) := by
  funext ⟨u, j⟩
  rcases eq_or_ne u t with rfl | hu
  · rcases eq_or_ne j i with rfl | hj
    · simp [Sys.slotObj, Sys.setSlot]
    · simp [Sys.slotObj, Sys.setSlot, hj]
  · simp [Sys.slotObj, Sys.setSlot, hu]

/-- A slot is changed, and the count with it. -/
theorem Balanced.count_setSlot (h : Balanced s extra) {e : Option (Entry O)} {n : ℕ}
    (hn : n + (if ((s.tables t).entries i).isSome then 1 else 0) =
      (s.tables t).count + if e.isSome then 1 else 0) (u : τ) :
    ((s.setSlot t i e n).tables u).count = occupied ((s.setSlot t i e n).tables u) := by
  rcases eq_or_ne u t with rfl | hu
  · have hocc := occupied_update (s.tables u) i e n
    have hcount := h.count u
    simp only [Sys.setSlot, update_self]
    omega
  · simp only [Sys.setSlot, update_of_ne hu]
    exact h.count u

theorem Balanced.finite_setSlot (h : Balanced s extra) (e : Option (Entry O)) (n : ℕ) (o : O) :
    (holders (s.setSlot t i e n).slotObj o).Finite := by
  rw [slotObj_setSlot]
  exact finite_holders_update (h.finite o) _ _

/-- Only a table that is not exiting has an empty slot filled. -/
theorem Fewer.setSlot (e : Option (Entry O)) (n : ℕ)
    (h : (s.tables t).exiting = true → e = none ∨ (s.tables t).entries i ≠ none) :
    Fewer s (s.setSlot t i e n) := by
  intro u hu
  rcases eq_or_ne u t with rfl | hne
  · simp only [Sys.setSlot, update_self]
    refine ⟨hu, fun j hj => ?_⟩
    rcases eq_or_ne j i with rfl | hji
    · rw [update_self]
      exact (h hu).resolve_right fun h0 => h0 hj
    · rwa [update_of_ne hji]
  · simp only [Sys.setSlot, update_of_ne hne]
    exact ⟨hu, fun _ => id⟩

theorem setFlags_balanced (hs : Balanced s extra) :
    Balanced (s.setFlags t h flags).2 extra ∧ Fewer s (s.setFlags t h flags).2 := by
  rw [Sys.setFlags]
  split
  · exact ⟨hs, .refl s⟩
  · rename_i i e hseen
    have he : (s.tables t).entries i = some e := by
      obtain ⟨j, -, hj⟩ := bind_eq_some_iff.mp hseen
      obtain ⟨e', he', heq⟩ := map_eq_some_iff.mp hj
      cases heq
      rw [Sys.seen] at he'
      split_ifs at he'
      exact he'
    refine ⟨hs.of_slots ?_ (fun u => ?_) rfl rfl, Fewer.setSlot _ _ fun _ => .inr ?_⟩
    · rw [slotObj_setSlot]
      refine update_eq_self_iff.mpr ?_
      rw [Sys.slotObj, he]
      rfl
    · rcases eq_or_ne u t with rfl | hu
      · simp only [Sys.setSlot, update_self]
      · simp only [Sys.setSlot, update_of_ne hu]
    · rw [he]
      exact some_ne_none e

section Gate

variable {T : Table O} (hentries : T.entries = (s.tables t).entries)

include hentries

theorem slotObj_setTable :
    Sys.slotObj { s with tables := update s.tables t T } = s.slotObj := by
  funext p
  rcases eq_or_ne p.1 t with hp | hp
  · simp only [Sys.slotObj, hp, update_self, hentries]
  · simp only [Sys.slotObj, update_of_ne hp]

theorem Balanced.setTable (h : Balanced s extra) (hcount : T.count = (s.tables t).count)
    (hexit : (s.tables t).exiting = true → T.exiting = true) :
    Balanced { s with tables := update s.tables t T } extra ∧
      Fewer s { s with tables := update s.tables t T } := by
  refine ⟨h.of_slots (slotObj_setTable hentries) (fun u => ?_) rfl rfl, fun u hu => ?_⟩
  · rcases eq_or_ne u t with rfl | hne
    · simp only [update_self, hcount]
    · simp only [update_of_ne hne]
  · rcases eq_or_ne u t with rfl | hne
    · simp only [update_self, hentries]
      exact ⟨hexit hu, fun _ => id⟩
    · simp only [update_of_ne hne]
      exact ⟨hu, fun _ => id⟩

end Gate

variable [DecidableEq O]

/-- **A reference is put into an empty slot.** -/
theorem Balanced.install (h : Balanced s (plus extra e.obj))
    (hfree : (s.tables t).entries i = none) : Balanced (s.installSlot t i e) extra := by
  have hslot : s.slotObj (t, i) = none := by rw [Sys.slotObj, hfree]; rfl
  have hcard : ∀ p, (holders (s.installSlot t i e).slotObj p).ncard =
      (holders s.slotObj p).ncard + if p = e.obj then 1 else 0 := by
    intro p
    have hupdate := ncard_holders_update (h.finite p) (t, i) (some e.obj)
    rw [hslot, if_neg (by simp)] at hupdate
    change (holders (s.setSlot t i (some e) _).slotObj p).ncard = _
    rw [slotObj_setSlot]
    simpa [eq_comm] using hupdate
  refine ⟨?_, h.finite_setSlot (some e) _, fun p => ?_, fun p => ?_⟩
  · refine h.count_setSlot ?_
    simp [hfree]
  · rw [hcard]
    exact counted_up h.handles e.obj p
  · change s.refcount p = _
    rw [hcard, h.refs, plus_apply, Nat.add_assoc, Nat.add_comm (extra p)]

/-- **A reference is taken out of a slot.** -/
theorem Balanced.clear (h : Balanced s extra)
    (he : (s.tables t).entries i = some e) (hpos : s.handles e.obj ≠ 0) :
    Balanced (s.clearSlot t i e.obj) (plus extra e.obj) := by
  have hslot : s.slotObj (t, i) = some e.obj := by rw [Sys.slotObj, he]; rfl
  have hcard : ∀ p, (holders (s.clearSlot t i e.obj).slotObj p).ncard +
      (if p = e.obj then 1 else 0) = (holders s.slotObj p).ncard := by
    intro p
    have hupdate := ncard_holders_update (h.finite p) (t, i) none
    rw [hslot, if_neg (by simp : ¬ (none : Option O) = some p)] at hupdate
    change (holders (s.setSlot t i none _).slotObj p).ncard + _ = _
    rw [slotObj_setSlot]
    simpa [eq_comm] using hupdate
  refine ⟨?_, h.finite_setSlot none _, fun p => ?_, fun p => ?_⟩
  · refine h.count_setSlot ?_
    have hocc : 0 < occupied (s.tables t) := by
      refine (Set.ncard_pos (Set.toFinite _)).mpr ⟨i, ?_⟩
      change ((s.tables t).entries i).isSome = true
      rw [he]
      rfl
    rw [← h.count t] at hocc
    simp only [he, isSome_some, if_true, isSome_none, Bool.false_eq_true, if_false]
    omega
  · exact counted_down (fun p => by rw [h.handles, hcard]) hpos p
  · change s.refcount p = _
    rw [h.refs, ← hcard, plus_apply, Nat.add_assoc, Nat.add_comm (extra p)]

/-! ## The calls -/

theorem Balanced.get_install (h : Balanced s extra)
    (hget : s.kobjectGet e.obj = some s₁) (hexit : (s₁.tables t).exiting = false)
    (hfree : (s₁.tables t).entries i = none) :
    Balanced (s₁.installSlot t i e) extra ∧ Fewer s (s₁.installSlot t i e) := by
  obtain ⟨hs₁, hf₁⟩ := h.get hget
  have hfill : Fewer s₁ (s₁.setSlot t i (some e) ((s₁.tables t).count + 1)) :=
    Fewer.setSlot _ _ fun h0 => absurd h0 (by rw [hexit]; simp)
  exact ⟨hs₁.install hfree, hf₁.trans hfill⟩

theorem installFlags_balanced (h : Balanced s extra)
    (hcall : s.installFlags t o rights flags = some (rc, s')) : Balanced s' extra ∧ Fewer s s' := by
  obtain ⟨s₁, hget, hcall⟩ := bind_eq_some_iff.mp hcall
  split_ifs at hcall with hexit hlimit
  · exact h.get_fail hget hcall
  · exact h.get_fail hget hcall
  · split at hcall
    · rename_i i hfree
      cases hcall
      refine h.get_install hget (by simpa using hexit) ?_
      simpa using List.find?_some hfree
    · exact h.get_fail hget hcall

theorem installAtFlags_balanced (hs : Balanced s extra)
    (hcall : s.installAtFlags t h o rights flags = some (rc, s')) :
    Balanced s' extra ∧ Fewer s s' := by
  rw [Sys.installAtFlags] at hcall
  split at hcall
  · cases hcall
    exact ⟨hs, .refl s⟩
  · rename_i i hi
    obtain ⟨s₁, hget, hcall⟩ := bind_eq_some_iff.mp hcall
    split_ifs at hcall with hexit hfree
    · exact hs.get_fail hget hcall
    · exact hs.get_fail hget hcall
    · cases hcall
      exact hs.get_install hget (by simpa using hexit) (by simpa using hfree)

section Closes

variable {flush : Int}

theorem close_cases (hcall : s.close t h flush = some (rc, s')) :
    (s' = s ∧ ∀ i, slot h = some i → (s.tables t).entries i = none) ∨
      ∃ i e, slot h = some i ∧ (s.tables t).entries i = some e ∧ s.handles e.obj ≠ 0 ∧
        (s.clearSlot t i e.obj).kobjectPut e.obj = some s' := by
  rw [Sys.close] at hcall
  split at hcall
  · rename_i hslot
    cases hcall
    exact .inl ⟨rfl, fun i hi => by rw [hslot] at hi; cases hi⟩
  · rename_i i hslot
    split at hcall
    · rename_i he
      cases hcall
      refine .inl ⟨rfl, fun j hj => ?_⟩
      rw [hslot] at hj
      cases hj
      exact he
    · rename_i e he
      split_ifs at hcall with h0
      obtain ⟨s₁, hput, heq⟩ := map_eq_some_iff.mp hcall
      cases heq
      exact .inr ⟨i, e, hslot, he, h0, hput⟩

theorem close_balanced (hs : Balanced s extra) (hcall : s.close t h flush = some (rc, s')) :
    Balanced s' extra ∧ Fewer s s' := by
  rcases close_cases hcall with ⟨rfl, -⟩ | ⟨i, e, -, he, hpos, hput⟩
  · exact ⟨hs, .refl _⟩
  · have hclear : Fewer s (s.clearSlot t i e.obj) :=
      Fewer.setSlot none ((s.tables t).count - 1) fun _ => .inl rfl
    obtain ⟨hs', hf'⟩ := (hs.clear he hpos).put hput
    exact ⟨hs', hclear.trans hf'⟩

theorem slot_val (i : Fin tableSize) : slot (i.val : Int) = some i := by
  have hlt : (i.val : Int) < tableSize := by exact_mod_cast i.isLt
  rw [slot, dif_pos ⟨Int.natCast_nonneg _, hlt⟩]
  rfl

theorem close_entry (hcall : s.close t i.val flush = some (rc, s')) :
    (s'.tables t).entries i = none ∧ (s'.tables t).exiting = (s.tables t).exiting := by
  rcases close_cases hcall with ⟨rfl, hnone⟩ | ⟨j, e, hj, he, -, hput⟩
  · exact ⟨hnone i (slot_val i), rfl⟩
  · rw [slot_val] at hj
    cases hj
    rw [tables_put hput]
    simp [Sys.clearSlot, Sys.setSlot]

end Closes

/-! ## Destruction -/

section Destruction

variable {flush : ℕ → Int}

theorem closeOnExecFrom_balanced (is : List (Fin tableSize)) (hs : Balanced s extra)
    (hcall : s.closeOnExecFrom t flush is = some s') : Balanced s' extra ∧ Fewer s s' := by
  induction is generalizing s with
  | nil =>
    cases hcall
    exact ⟨hs, .refl _⟩
  | cons i is ih =>
    rw [Sys.closeOnExecFrom] at hcall
    split at hcall
    · exact ih hs hcall
    · split_ifs at hcall
      · obtain ⟨⟨rc, s₁⟩, hclose, hrest⟩ := bind_eq_some_iff.mp hcall
        obtain ⟨hs₁, hf₁⟩ := close_balanced hs hclose
        obtain ⟨hs', hf'⟩ := ih hs₁ hrest
        exact ⟨hs', hf₁.trans hf'⟩
      · exact ih hs hcall

/-- The loop leaves the slots it went over empty. -/
theorem closeFrom_spec (is : List (Fin tableSize)) (hs : Balanced s extra)
    (hexit : (s.tables t).exiting = true) (hcall : s.closeFrom t flush is = some s') :
    Balanced s' extra ∧ Fewer s s' ∧ ∀ i ∈ is, (s'.tables t).entries i = none := by
  induction is generalizing s with
  | nil =>
    cases hcall
    exact ⟨hs, .refl _, by simp⟩
  | cons i is ih =>
    obtain ⟨⟨rc, s₁⟩, hclose, hrest⟩ := bind_eq_some_iff.mp hcall
    obtain ⟨hs₁, hf₁⟩ := close_balanced hs hclose
    obtain ⟨hempty, hexit₁⟩ := close_entry hclose
    rw [hexit] at hexit₁
    obtain ⟨hs', hf', hall⟩ := ih hs₁ hexit₁ hrest
    refine ⟨hs', hf₁.trans hf', ?_⟩
    rintro j (_ | ⟨_, hj⟩)
    · exact (hf' t hexit₁).2 i hempty
    · exact hall j hj

/-- **No object has `2 ^ 32` references.** -/
def Small (s : Sys τ O) (extra : O → ℕ) : Prop :=
  ∀ o, (holders s.slotObj o).ncard + extra o < 2 ^ 32

/-- A close returns, and leaves no more references. -/
theorem close_isSome (hs : Balanced s extra) (hsmall : Small s extra) (i : Fin tableSize)
    (flush : Int) :
    ∃ rc s', s.close t i.val flush = some (rc, s') ∧ Small s' extra := by
  cases he : (s.tables t).entries i with
  | none =>
    refine ⟨-ebadf, s, ?_, hsmall⟩
    simp only [Sys.close, slot_val, he]
  | some e =>
    have hslot : s.slotObj (t, i) = some e.obj := by rw [Sys.slotObj, he]; rfl
    have hpos := holders_pos (hs.finite e.obj) hslot
    have hlt := hsmall e.obj
    have hhandles : s.handles e.obj ≠ 0 := by
      rw [hs.handles]
      omega
    have hrefs : (s.clearSlot t i e.obj).refcount e.obj ≠ 0 := by
      change s.refcount e.obj ≠ 0
      rw [hs.refs]
      omega
    obtain ⟨s', hput⟩ : ∃ s', (s.clearSlot t i e.obj).kobjectPut e.obj = some s' := by
      rw [Sys.kobjectPut, if_neg hrefs]
      exact ⟨_, rfl⟩
    refine ⟨flush, s', ?_, fun o => ?_⟩
    · simp only [Sys.close, slot_val, he, if_neg hhandles, hput, map_some]
    have hslots : s'.slotObj = (s.setSlot t i none ((s.tables t).count - 1)).slotObj := by
      funext p
      rw [Sys.slotObj, tables_put hput]
      rfl
    have hupdate := ncard_holders_update (hs.finite o) (t, i) none
    rw [hslots, slotObj_setSlot]
    have hsub := (Nat.le_add_right _ _).trans hupdate.le
    exact (Nat.add_le_add_right hsub _).trans_lt (hsmall o)

theorem closeFrom_isSome (flush : ℕ → Int) (is : List (Fin tableSize)) (hs : Balanced s extra)
    (hsmall : Small s extra) : ∃ s', s.closeFrom t flush is = some s' := by
  induction is generalizing s with
  | nil => exact ⟨s, rfl⟩
  | cons i is ih =>
    obtain ⟨rc, s₁, hclose, hsmall₁⟩ := close_isSome hs hsmall i (flush i.val)
    obtain ⟨s', hrest⟩ := ih (close_balanced hs hclose).1 hsmall₁
    refine ⟨s', ?_⟩
    rw [Sys.closeFrom, hclose]
    exact hrest

omit [DecidableEq O] in
theorem raiseGate_balanced (hs : Balanced s extra) (t : τ) :
    Balanced (s.raiseGate t) extra ∧ Fewer s (s.raiseGate t) :=
  hs.setTable rfl rfl fun _ => rfl

omit [DecidableEq O] in
theorem raiseGate_exiting (s : Sys τ O) (t : τ) :
    ((s.raiseGate t).tables t).exiting = true := by
  simp [Sys.raiseGate]

/-- **Destruction** empties the table, and leaves the gate up. -/
theorem tableDestroy_spec (hs : Balanced s extra) (hcall : s.tableDestroy t flush = some s') :
    Balanced s' extra ∧ Fewer s s' ∧ (s'.tables t).exiting = true ∧
      ∀ i, (s'.tables t).entries i = none := by
  obtain ⟨s₁, hfrom, hrest⟩ := bind_eq_some_iff.mp hcall
  split_ifs at hrest
  cases hrest
  obtain ⟨hs₀, hf₀⟩ := raiseGate_balanced hs t
  obtain ⟨hs', hf', hall⟩ := closeFrom_spec _ hs₀ (raiseGate_exiting s t) hfrom
  exact ⟨hs', hf₀.trans hf', (hf' t (raiseGate_exiting s t)).1,
    fun i => hall i (List.mem_finRange i)⟩

/-- **Destruction returns**: it does not find a slot it could not empty. -/
theorem tableDestroy_isSome (hs : Balanced s extra) (hsmall : Small s extra) :
    ∃ s', s.tableDestroy t flush = some s' := by
  obtain ⟨hs₀, -⟩ := raiseGate_balanced hs t
  have hsmall₀ : Small (s.raiseGate t) extra := by
    intro o
    have hslots : (s.raiseGate t).slotObj = s.slotObj := slotObj_setTable rfl
    rw [hslots]
    exact hsmall o
  obtain ⟨s', hfrom⟩ := closeFrom_isSome flush (List.finRange tableSize) hs₀ hsmall₀
  obtain ⟨hs', -, hall⟩ := closeFrom_spec _ hs₀ (raiseGate_exiting s t) hfrom
  have hzero : (s'.tables t).count = 0 := by
    rw [hs'.count, occupied, Set.ncard_eq_zero (Set.toFinite _)]
    refine Set.eq_empty_iff_forall_notMem.mpr fun i hi => ?_
    rw [Set.mem_ofPred_eq, hall i (List.mem_finRange i)] at hi
    cases hi
  refine ⟨s', ?_⟩
  rw [Sys.tableDestroy, hfrom]
  exact if_neg (not_not.mpr hzero)

end Destruction

end Counts

/-! ## Runs -/

variable [DecidableEq τ] [DecidableEq O]

/-- The system, with the references that are in no slot. -/
structure World (τ O : Type) where
  sys : Sys τ O
  /-- Returned by a lookup, and not dropped yet. -/
  lookups : O → ℕ
  /-- Taken without a table: by whoever made the object, and by whoever was given one. -/
  creators : O → ℕ

/-- The references that are in no slot. -/
def World.extra (w : World τ O) (o : O) : ℕ := w.lookups o + w.creators o

/-- Empty tables, and no object yet. -/
structure Initial (w : World τ O) : Prop where
  tables : ∀ t, w.sys.tables t = tableInit
  refcount : ∀ o, w.sys.refcount o = 0
  handles : ∀ o, w.sys.handles o = 0
  lookups : ∀ o, w.lookups o = 0
  creators : ∀ o, w.creators o = 0

/-- One call.  A call that panics is none. -/
inductive Step : World τ O → World τ O → Prop
  /-- `kobject_init`, of storage that nothing uses. -/
  | create (w : World τ O) (o : O) (hslots : ∀ p, w.sys.slotObj p ≠ some o)
      (hextra : w.extra o = 0) :
      Step w ⟨{ w.sys with
          refcount := update w.sys.refcount o 1
          handles := update w.sys.handles o 0 }, w.lookups, plus w.creators o⟩
  | get (w : World τ O) (o : O) (s : Sys τ O) (hheld : 0 < w.extra o)
      (hcall : w.sys.kobjectGet o = some s) : Step w ⟨s, w.lookups, plus w.creators o⟩
  /-- `kobject_put` of a creator's reference. -/
  | put (w : World τ O) (o : O) (s : Sys τ O) (rest : O → ℕ) (hheld : w.creators = plus rest o)
      (hcall : w.sys.kobjectPut o = some s) : Step w ⟨s, w.lookups, rest⟩
  /-- `kobject_put` of a lookup's reference. -/
  | drop (w : World τ O) (o : O) (s : Sys τ O) (rest : O → ℕ) (hheld : w.lookups = plus rest o)
      (hcall : w.sys.kobjectPut o = some s) : Step w ⟨s, rest, w.creators⟩
  | install (w : World τ O) (t : τ) (o : O) (rights flags : BitVec 32) (rc : Int) (s : Sys τ O)
      (hheld : 0 < w.extra o) (hcall : w.sys.installFlags t o rights flags = some (rc, s)) :
      Step w { w with sys := s }
  | installAt (w : World τ O) (t : τ) (h : Int) (o : O) (rights flags : BitVec 32) (rc : Int)
      (s : Sys τ O) (hheld : 0 < w.extra o)
      (hcall : w.sys.installAtFlags t h o rights flags = some (rc, s)) :
      Step w { w with sys := s }
  | lookup (w : World τ O) (t : τ) (h : Int) (needed : BitVec 32) (r : Option O) (missing : Bool)
      (s : Sys τ O) (hcall : w.sys.lookupRights t h needed = some ((r, missing), s)) :
      Step w ⟨s, took w.lookups r, w.creators⟩
  | getWith (w : World τ O) (t : τ) (h : Int) (r : Option (Entry O)) (s : Sys τ O)
      (hcall : w.sys.getWith t h = some (r, s)) :
      Step w ⟨s, took w.lookups (r.map Entry.obj), w.creators⟩
  | transferCheck (w : World τ O) (t : τ) (h : Int) (give : BitVec 32)
      (r : Except Int (O × BitVec 32)) (s : Sys τ O)
      (hcall : w.sys.transferCheck t h give = some (r, s)) :
      Step w ⟨s, took w.lookups (transferred r), w.creators⟩
  | close (w : World τ O) (t : τ) (h flush rc : Int) (s : Sys τ O)
      (hcall : w.sys.close t h flush = some (rc, s)) : Step w { w with sys := s }
  | setFlags (w : World τ O) (t : τ) (h : Int) (flags : BitVec 32) :
      Step w { w with sys := (w.sys.setFlags t h flags).2 }
  | closeOnExec (w : World τ O) (t : τ) (flush : ℕ → Int) (s : Sys τ O)
      (hcall : w.sys.closeOnExec t flush = some s) : Step w { w with sys := s }
  /-- The gate alone: other calls may come between it and the closes. -/
  | raiseGate (w : World τ O) (t : τ) : Step w { w with sys := w.sys.raiseGate t }
  | tableDestroy (w : World τ O) (t : τ) (flush : ℕ → Int) (s : Sys τ O)
      (hcall : w.sys.tableDestroy t flush = some s) : Step w { w with sys := s }
  | setLimit (w : World τ O) (t : τ) (n : ℕ) :
      Step w { w with sys := { w.sys with
        tables := update w.sys.tables t { w.sys.tables t with limit := n } } }

section Runs

variable {w w' : World τ O}

omit [DecidableEq τ] [DecidableEq O] in
theorem Initial.balanced (h : Initial w) : Balanced w.sys w.extra := by
  have hslots : ∀ o, holders w.sys.slotObj o = ∅ := by
    intro o
    refine Set.eq_empty_iff_forall_notMem.mpr fun p hp => ?_
    rw [mem_holders, Sys.slotObj, h.tables] at hp
    cases hp
  refine ⟨?_, ?_, ?_, ?_⟩
  · intro t
    rw [h.tables, occupied]
    simp [tableInit]
  · intro o
    rw [hslots]
    exact Set.finite_empty
  · intro o
    rw [hslots, h.handles, Set.ncard_empty]
    rfl
  · intro o
    rw [hslots, h.refcount, Set.ncard_empty, World.extra, h.lookups, h.creators]
    rfl

omit [DecidableEq τ] in
theorem extra_took (s : Sys τ O) (lookups creators : O → ℕ) (r : Option O) :
    took (World.extra ⟨s, lookups, creators⟩) r =
      World.extra ⟨s, took lookups r, creators⟩ := by
  cases r with
  | none => rfl
  | some o =>
    funext p
    simp only [took, plus_apply, World.extra]
    omega

omit [DecidableEq τ] in
theorem extra_created (s : Sys τ O) (lookups creators : O → ℕ) (o : O) :
    plus (World.extra ⟨s, lookups, creators⟩) o =
      World.extra ⟨s, lookups, plus creators o⟩ := by
  funext p
  simp only [plus_apply, World.extra]
  omega

omit [DecidableEq τ] in
theorem create_balanced {o : O} (h : Balanced w.sys w.extra)
    (hslots : ∀ p, w.sys.slotObj p ≠ some o) (hextra : w.extra o = 0) :
    Balanced { w.sys with
      refcount := update w.sys.refcount o 1
      handles := update w.sys.handles o 0 } (plus w.extra o) := by
  have hempty : holders w.sys.slotObj o = ∅ :=
    Set.eq_empty_iff_forall_notMem.mpr fun p hp => hslots p hp
  refine ⟨h.count, h.finite, fun p => ?_, fun p => ?_⟩
  · change update w.sys.handles o 0 p = (holders w.sys.slotObj p).ncard % 2 ^ 32
    rcases eq_or_ne p o with rfl | hp
    · rw [update_self, hempty, Set.ncard_empty]
      rfl
    · rw [update_of_ne hp, h.handles]
  · change update w.sys.refcount o 1 p =
      ((holders w.sys.slotObj p).ncard + plus w.extra o p) % 2 ^ 32
    rcases eq_or_ne p o with rfl | hp
    · rw [update_self, plus, update_self, hempty, Set.ncard_empty, hextra]
      rfl
    · rw [update_of_ne hp, plus, update_of_ne hp, h.refs]

/-- **Every call keeps the counts right**, and empties an exiting table if it changes it. -/
theorem Step.balanced (hstep : Step w w') (h : Balanced w.sys w.extra) :
    Balanced w'.sys w'.extra ∧ Fewer w.sys w'.sys := by
  cases hstep with
  | create o hslots hextra =>
    exact ⟨(create_balanced h hslots hextra).congr (extra_created _ _ _ o), .of_tables rfl⟩
  | get o s hheld hcall =>
    obtain ⟨hs, hf⟩ := h.get hcall
    exact ⟨hs.congr (extra_created _ _ _ o), hf⟩
  | put o s rest hheld hcall =>
    refine Balanced.put (h.congr ?_) hcall
    rw [extra_created s, ← hheld]
    rfl
  | drop o s rest hheld hcall =>
    refine Balanced.put (h.congr ?_) hcall
    have htook := extra_took s rest w.creators (some o)
    rw [took, took, ← hheld] at htook
    exact htook.symm
  | install t o rights flags rc s hheld hcall => exact installFlags_balanced h hcall
  | installAt t h' o rights flags rc s hheld hcall => exact installAtFlags_balanced h hcall
  | lookup t h' needed r missing s hcall =>
    obtain ⟨hs, hf⟩ := lookupRights_balanced hcall h
    exact ⟨hs.congr (extra_took _ _ _ r), hf⟩
  | getWith t h' r s hcall =>
    obtain ⟨hs, hf⟩ := getWith_balanced hcall h
    exact ⟨hs.congr (extra_took _ _ _ _), hf⟩
  | transferCheck t h' give r s hcall =>
    obtain ⟨hs, hf⟩ := transferCheck_balanced hcall h
    exact ⟨hs.congr (extra_took _ _ _ _), hf⟩
  | close t h' flush rc s hcall => exact close_balanced h hcall
  | setFlags t h' flags => exact setFlags_balanced h
  | closeOnExec t flush s hcall => exact closeOnExecFrom_balanced _ h hcall
  | raiseGate t => exact raiseGate_balanced h t
  | tableDestroy t flush s hcall =>
    obtain ⟨hs, hf, -⟩ := tableDestroy_spec h hcall
    exact ⟨hs, hf⟩
  | setLimit t n => exact h.setTable rfl rfl id

theorem reachable_balanced (h : Reachable Initial Step w) : Balanced w.sys w.extra :=
  h.invariant (fun _ h₀ => h₀.balanced) fun _ _ hs hstep => (hstep.balanced hs).1

theorem run_fewer (h : Balanced w.sys w.extra) (hrun : Relation.ReflTransGen Step w w') :
    Balanced w'.sys w'.extra ∧ Fewer w.sys w'.sys := by
  induction hrun with
  | refl => exact ⟨h, .refl _⟩
  | tail _ hstep ih =>
    obtain ⟨hs, hf⟩ := hstep.balanced ih.1
    exact ⟨hs, ih.2.trans hf⟩

end Runs

/-- Rights that leave nothing outside `have` are among it. -/
theorem and_eq_of_and_not {give held : BitVec 32} (h : give &&& (held ^^^ 0xFFFFFFFF) = 0) :
    give &&& held = give := by
  refine BitVec.eq_of_getLsbD_eq fun i hi => ?_
  have hbit := congrArg (fun b => b.getLsbD i) h
  have hones : (0xFFFFFFFF : BitVec 32) = BitVec.allOnes 32 := rfl
  simp only [hones, BitVec.getLsbD_and, BitVec.getLsbD_xor, BitVec.getLsbD_allOnes, hi,
    decide_true] at hbit
  cases hg : give.getLsbD i <;> cases hh : held.getLsbD i <;> simp_all

/-- **Handle tables.**  In every state a run can reach, each table counts its occupied slots, each
object the slots that hold it, and its references are those of the slots, of lookups in progress
and of its creators, modulo `2 ^ 32`.  A lookup returns an object only from a slot that has every
right asked for, and a transfer gives no right the slot has not.  From when a table is exiting no
slot of it is filled; a destruction returns, unless some object has `2 ^ 32` references, and
leaves the table empty for good. -/
theorem handles_counted {w : World τ O} (h : Reachable Initial Step w) :
    (∀ t, (w.sys.tables t).count = {i | ((w.sys.tables t).entries i).isSome}.ncard) ∧
      (∀ o, w.sys.handles o = {p | w.sys.slotObj p = some o}.ncard % 2 ^ 32) ∧
      (∀ o, w.sys.refcount o =
        (w.lookups o + ({p | w.sys.slotObj p = some o}.ncard + w.creators o)) % 2 ^ 32) ∧
      (∀ t h needed o missing s, w.sys.lookupRights t h needed = some ((some o, missing), s) →
        ∃ i e, slot h = some i ∧ (w.sys.tables t).entries i = some e ∧ e.obj = o ∧
          e.rights &&& needed = needed) ∧
      (∀ t h give o rights s, w.sys.transferCheck t h give = some (.ok (o, rights), s) →
        ∃ i e, slot h = some i ∧ (w.sys.tables t).entries i = some e ∧ e.obj = o ∧
          e.rights &&& rightTransfer ≠ 0 ∧ rights &&& e.rights = rights) ∧
      (∀ t w', Relation.ReflTransGen Step w w' → (w.sys.tables t).exiting = true →
        (w'.sys.tables t).exiting = true ∧
          ∀ i, (w.sys.tables t).entries i = none → (w'.sys.tables t).entries i = none) ∧
      ∀ t flush,
        ((∀ o, w.lookups o + ({p | w.sys.slotObj p = some o}.ncard + w.creators o) < 2 ^ 32) →
          ∃ s, w.sys.tableDestroy t flush = some s) ∧
        ∀ s, w.sys.tableDestroy t flush = some s → ∀ w',
          Relation.ReflTransGen Step { w with sys := s } w' →
            ∀ i, (w'.sys.tables t).entries i = none := by
  have hs := reachable_balanced h
  refine ⟨hs.count, hs.handles, ?_, ?_, ?_, ?_, ?_⟩
  · intro o
    rw [hs.refs, World.extra, Nat.add_left_comm]
    rfl
  · intro t h needed o missing s hcall
    rcases lookupRights_cases hcall with ⟨hr, -⟩ | ⟨i, e, hi, he, hr, hrights, -⟩
    · cases hr
    · exact ⟨i, e, hi, he, (Option.some.inj hr).symm, hrights⟩
  · intro t h give o rights s hcall
    rcases transferCheck_cases hcall with ⟨hr, -⟩ | ⟨i, e, s₁, hi, he, -, hr⟩
    · cases hr
    · rcases hr with ⟨hr, -⟩ | ⟨hr, hmay, -⟩
      · cases hr
      · obtain ⟨hobj, hrights⟩ := Prod.mk.inj (Except.ok.inj hr)
        rw [Sys.mayGive, Bool.and_eq_true, Bool.or_eq_true, decide_eq_true_eq, decide_eq_true_eq,
          decide_eq_true_eq] at hmay
        refine ⟨i, e, hi, he, hobj.symm, hmay.1, ?_⟩
        rw [hrights]
        split_ifs with hsame
        · exact BitVec.and_self
        · exact and_eq_of_and_not (hmay.2.resolve_left hsame)
  · intro t w' hrun hexit
    exact (run_fewer hs hrun).2 t hexit
  · intro t flush
    refine ⟨fun hsmall => tableDestroy_isSome hs fun o => ?_, ?_⟩
    · have ho := hsmall o
      rw [Nat.add_left_comm] at ho
      exact ho
    · intro s hcall w' hrun i
      obtain ⟨hs', -, hexit, hempty⟩ := tableDestroy_spec hs hcall
      have hs'' : Balanced s (World.extra { w with sys := s }) := hs'
      exact ((run_fewer hs'' hrun).2 t hexit).2 i (hempty i)

/-- One table and one object, neither used yet. -/
def emptyWorld : World Unit Unit :=
  ⟨⟨fun _ => tableInit, fun _ => 0, fun _ => 0⟩, fun _ => 0, fun _ => 0⟩

/-- The object in the table's first slot, its creator's reference, and `n` lookups. -/
def heldWorld (n : ℕ) : World Unit Unit :=
  ⟨⟨fun _ => ⟨update (fun _ => none) 0 (some ⟨(), 0, 0⟩), 1, tableSize, false⟩,
    fun _ => n + 2, fun _ => 1⟩, fun _ => n, fun _ => 1⟩

theorem heldWorld_reachable : Reachable Initial Step (heldWorld 0) := by
  have h₀ : Reachable Initial Step emptyWorld :=
    .init ⟨fun _ => rfl, fun _ => rfl, fun _ => rfl, fun _ => rfl, fun _ => rfl⟩
  have h₁ := h₀.step (.create emptyWorld () (fun _ h => by cases h) rfl)
  exact h₁.step (.install _ () () 0 0 0 _ Nat.one_pos rfl)

theorem handles_counted_heldWorld :
    Reachable Initial Step (heldWorld 0) ∧
      {i | (((heldWorld 0).sys.tables ()).entries i).isSome}.ncard = 1 := by
  obtain ⟨hcount, -⟩ := handles_counted heldWorld_reachable
  exact ⟨heldWorld_reachable, (hcount ()).symm⟩

theorem heldWorld_lookups (n : ℕ) (hn : n + 2 < 2 ^ 32) :
    Reachable Initial Step (heldWorld n) := by
  induction n with
  | zero => exact heldWorld_reachable
  | succ n ih =>
    have hlt : n + 2 < 2 ^ 32 := by omega
    have hwrap : wrapAdd (n + 2) = n + 1 + 2 := by
      rw [wrapAdd, if_neg (by omega)]
    have hcall : (heldWorld n).sys.lookupRights () 0 0 =
        some ((some (), false), (heldWorld (n + 1)).sys) := by
      change ((heldWorld n).sys.kobjectGet ()).map _ = _
      have hpos : (heldWorld n).sys.refcount () ≠ 0 := Nat.succ_ne_zero (n + 1)
      have href : update (heldWorld n).sys.refcount () (wrapAdd (n + 2)) =
          (heldWorld (n + 1)).sys.refcount := by
        funext _
        exact hwrap
      change some ((some (), false), { (heldWorld n).sys with
        refcount := update (heldWorld n).sys.refcount () (wrapAdd (n + 2)) }) = _
      rw [href]
      rfl
    exact (ih hlt).step (.lookup (heldWorld n) () 0 0 (some ()) false _ hcall)

/-- A reference count that has wrapped: a slot, a creator and `2 ^ 32 - 2` lookups hold the
object, and its count is zero. -/
theorem refcount_wraps :
    ∃ w : World Unit Unit, Reachable Initial Step w ∧ w.lookups () = 2 ^ 32 - 2 ∧
      w.sys.slotObj ((), 0) = some () ∧ w.creators () = 1 ∧ w.sys.refcount () = 0 := by
  have hreach := heldWorld_lookups (2 ^ 32 - 3) (by norm_num)
  have hcall : ∃ s, (heldWorld (2 ^ 32 - 3)).sys.lookupRights () 0 0 =
      some ((some (), false), s) ∧ s.tables = (heldWorld 0).sys.tables ∧ s.refcount () = 0 := by
    refine ⟨_, rfl, rfl, ?_⟩
    change wrapAdd (2 ^ 32 - 3 + 2) = 0
    rw [wrapAdd, if_pos (by norm_num)]
  obtain ⟨s, hcall, htables, hzero⟩ := hcall
  refine ⟨_, hreach.step (.lookup _ () 0 0 (some ()) false s hcall), ?_, ?_, rfl, hzero⟩
  · change 2 ^ 32 - 3 + 1 = 2 ^ 32 - 2
    norm_num
  · change ((s.tables ()).entries 0).map Entry.obj = some ()
    rw [htables]
    rfl

end CosmoOS.Object.Handles
