import CosmoOS.Lib.Fallible
import CosmoOS.Cosmofs.Pool
import CosmoOS.Cosmofs.Directory
import Mathlib.Logic.Function.Basic

/-!
# The tree of names and the calls that change it

An inode is in two places, the inode map (`stored`) and the vnode (`cached`).  The operations change
the vnode and then write it through (`vnodeInodeSync`); the next commit publishes the map.

Everything an operation asks of the rest of the filesystem can fail: reading a directory block,
writing one copy-on-write, storing an inode, memory, a format raise.  `luck` is how the next calls
of each kind go.  Some failures are recovered from by giving the transaction up (`cfsFail`): an
inode that cannot be stored, a checksum entry that cannot be put back.

Whatever the luck, a call that succeeds does one thing to the tree, and a call that fails leaves the
tree as it was or marks it failed.  The lemmas `…_spec` name both.
-/

namespace CosmoOS.Cosmofs.Dir

open Lib Fallible Function

variable {α : Type} {need ino len : Nat} {r : Errno} {kind : UInt8} {l : List (Option Errno)}

/-! ## The tree and its vnodes -/

structure Node where
  kind : Kind
  nlink : Nat
  parent : Nat
  deriving DecidableEq, Repr

/-- What the mounted filesystem holds: the directories' blocks, the inode map, the
vnodes, the numbers handed out and the record of unlinked inodes. -/
structure Tree where
  version : Nat
  keyRoot : Nat
  nextIno : Nat
  dirs : Nat → List DirBlock
  stored : Nat → Option Node
  cached : Nat → Option Node
  inClone : Bool
  orphans : List Nat
  orphanCap : Nat
  failed : Option Errno

/-- The calls that can fail. -/
inductive Call
  | read
  | write
  | restore
  | inode
  | memory
  | raise
  | unraise
  deriving DecidableEq

/-- The tree, and how the next calls of each kind go. -/
structure Ns where
  fs : Tree
  luck : Call → List (Option Errno)

abbrev NM : Type → Type := Fallible Ns Errno

def rootIno : Nat := 1

def maxInodes : Nat := 3870960

section

variable (T : Tree) (i : Nat) (d : Nat)

/-- The vnode of an inode: the one in the cache, or as one would be filled. -/
def Tree.vnode : Node :=
  (T.cached i).getD ((T.stored i).getD ⟨.reg, 0, 0⟩)

def Tree.setVnode (n : Node) : Tree :=
  { T with cached := update T.cached i (some n) }

def Tree.setNlink (i n : Nat) : Tree :=
  T.setVnode i { T.vnode i with nlink := n }

def Tree.store (n : Option Node) : Tree :=
  { T with stored := update T.stored i n }

/-- The inode as its vnode says, in the map. -/
def Tree.sync : Tree := T.store i (some (T.vnode i))

def Tree.putDir (bs : List DirBlock) : Tree :=
  { T with dirs := update T.dirs d bs }

end

/-! ## Calls into the rest of the filesystem -/

/-- The next call of kind `c` goes as it goes. -/
def draw (c : Call) : NM Unit := fun s =>
  match s.luck c with
  | [] => (.ok (), s)
  | none :: l => (.ok (), { s with luck := update s.luck c l })
  | some e :: l => (.error e, { s with luck := update s.luck c l })

def change (f : Tree → Tree) : NM Unit := modify fun s => { s with fs := f s.fs }

/-- `cfs_fail`: the transaction is abandoned. -/
def cfsFail (e : Errno) : NM Unit :=
  change fun T => { T with failed := some (T.failed.getD e) }

section

variable (i : Nat) (d : Nat) (name : List UInt8)

def inodeWrite (n : Option Node) : NM Unit := do
  draw .inode
  change fun T => T.store i n

/-- Run; a failure gives the transaction up and is reported. -/
def orAbandon (m : NM Unit) : NM Unit := do
  match ← attempt m with
  | .ok _ => pure ()
  | .error e => do
    cfsFail e
    fail e

/-- Store the inode its vnode describes. -/
def vnodeInodeSync : NM Unit := do
  let n ← gets fun s => s.fs.vnode i
  orAbandon (inodeWrite i (some n))

/-- `cfs_vnode_prepare`: the inode's map path made writable. -/
def vnodePrepare : NM Unit := draw .memory

/-- What puts back a change; a transaction in which it fails is given up. -/
def orGiveUp (m : NM Unit) : NM Unit := do
  match ← attempt m with
  | .ok _ => pure ()
  | .error e => cfsFail e

/-- `cfs_data_write_block`: a new block written and mapped.  When the mapping fails the
block's checksum entry is put back. -/
def dataWriteBlock : NM Unit := onError (draw .write) (orGiveUp (draw .restore))

/-- `cfs_snap_raise`: the snapshot records in the form of version 12, or as they were. -/
def snapRaise : NM Unit := onError (draw .raise) (orGiveUp (draw .unraise))

def dirReadBlock : NM Unit := draw .read

def dirWriteBlock (d lblk : Nat) (b : DirBlock) : NM Unit := do
  dataWriteBlock
  change fun T => T.putDir d (putBlock (T.dirs d) lblk b)
  vnodeInodeSync d

/-! ## Directory entries -/

def dirFindFrom (version : Nat) (name : List UInt8) : Nat → List DirBlock → NM Found
  | _, [] => fail .enoent
  | lblk, b :: rest => do
      dirReadBlock
      match findIn version name lblk [] b with
      | some f => pure f
      | none => dirFindFrom version name (lblk + 1) rest

def dirFind : NM Found := do
  let T ← gets Ns.fs
  if 255 < name.length then fail .enametoolong
  else if 47 < name.length ∧ T.version < 15 then fail .enoent
  else dirFindFrom T.version name 0 (T.dirs d)

/-- The block an entry of `need` slots goes to, with the entry put. -/
def dirAddFrom (e : DirEntry) (need : Nat) : Nat → List DirBlock → NM (Nat × DirBlock)
  | lblk, [] =>
    match freeRun need 0 [] zeroBlock with
    | some (x, y) => pure (lblk, x ++ .head e :: y)
    | none => fail .enospc
  | lblk, b :: rest => do
      dirReadBlock
      match freeRun need 0 [] b with
      | some (x, y) => pure (lblk, x ++ .head e :: y)
      | none => dirAddFrom e need (lblk + 1) rest

def dirAdd (ino : Nat) (kind : UInt8) : NM Unit := do
  let T ← gets Ns.fs
  if name.length = 0 ∨ nameMax T.version < name.length then fail .enametoolong
  else do
    let p ← dirAddFrom ⟨name, ino, kind⟩ (1 + direntExtra name.length) 0 (T.dirs d)
    dirWriteBlock d p.1 p.2

def dirRemoveSlot (f : Found) : NM Unit := dirWriteBlock d f.lblk f.removed

/-- Every slot read is free; a block that cannot be read is not. -/
def dirIsEmpty : List DirBlock → NM Bool
  | [] => pure true
  | b :: rest => do
      match ← attempt dirReadBlock with
      | .error _ => pure false
      | .ok _ => if b.all (· = .free) then dirIsEmpty rest else pure false

/-- A long name needs version 15: the pool is raised when it can be. -/
def namesAllow (len : Nat) : NM Unit := do
  let T ← gets Ns.fs
  if len ≤ 47 ∨ 15 ≤ T.version then
    if 255 < len then fail .enametoolong else pure ()
  else if 255 < len ∨ T.version < 11 ∨ (T.keyRoot ≠ 0 ∧ T.version < 14) then fail .enametoolong
  else do
    snapRaise
    change fun T => { T with version := 15 }

/-! ## Inodes -/

def inodeAlloc : NM Nat := do
  let T ← gets Ns.fs
  if maxInodes ≤ T.nextIno then fail .enospc
  else do
    change fun T => { T with nextIno := T.nextIno + 1 }
    pure T.nextIno

def inodeDiscard : NM Unit :=
  change fun T => if i ≠ 0 ∧ i + 1 = T.nextIno then { T with nextIno := T.nextIno - 1 } else T

/-- Zero the slot of an inode no entry names, as far as that is possible. -/
def inodeSlotClear : NM Unit := do
  let _ ← attempt (inodeWrite i none)
  pure ()

/-- `cfs_vnode_get`: the vnode in the cache, or one filled from the map. -/
def vnodeGet : NM Unit := do
  match ← gets fun s => s.fs.cached i with
  | some _ => pure ()
  | none => do
    draw .memory
    change fun T => T.setVnode i (T.vnode i)

/-- Room in the record of unlinked inodes. -/
def orphanReserve : NM Unit := do
  let T ← gets Ns.fs
  if T.inClone ∨ T.orphans.length < T.orphanCap then pure ()
  else do
    draw .memory
    change fun T => { T with orphanCap := if T.orphanCap ≠ 0 then T.orphanCap * 2 else 8 }

def orphanAdd : NM Unit := do
  let T ← gets Ns.fs
  if T.inClone ∨ i = 0 ∨ i ∈ T.orphans then pure ()
  else if T.orphans.length = T.orphanCap then cfsFail .enospc
  else change fun T => { T with orphans := T.orphans ++ [i] }

end

/-! ## What the calls do to the tree -/

/-- A failed call left the tree alone, or the transaction was given up. -/
def Unchanged (s t : Ns) : Prop := t.fs = s.fs ∨ t.fs.failed ≠ none

variable {c : Call} {s t : Ns} {i d k v : Nat} {u : Unit} {m : NM Unit} {e : Errno} {b : DirBlock}
    {name : List UInt8} {bs : List DirBlock} {f : Found}

section

variable {r : Except Errno Unit}

theorem draw_fs (h : draw c s = (r, t)) : t.fs = s.fs := by
  unfold draw at h
  split at h <;> cases h <;> rfl

theorem draw_bind {g : Unit → NM α} {a : α} (h : (draw c >>= g) s = (.ok a, t)) :
    ∃ s1, s1.fs = s.fs ∧ g () s1 = (.ok a, t) := by
  obtain ⟨_, s1, h1, h⟩ := bind_eq_ok.mp h
  exact ⟨s1, draw_fs h1, h⟩

theorem cfsFail_failed (e : Errno) (s : Ns) : (cfsFail e s).2.fs.failed ≠ none := by
  show (some (s.fs.failed.getD e)) ≠ none
  simp

theorem inodeWrite_ok {n : Option Node} (h : inodeWrite i n s = (.ok u, t)) :
    t.fs = s.fs.store i n := by
  obtain ⟨s1, hs1, h⟩ := draw_bind h
  cases h
  rw [← hs1]

theorem attempt_ok {m : NM α} {r : Except Errno α} (h : attempt m s = (.ok r, t)) :
    m s = (r, t) := by
  obtain ⟨h1, h2⟩ := Prod.mk.inj h
  exact Prod.ext (Except.ok.inj h1) h2

theorem orAbandon_spec (h : orAbandon m s = (r, t)) :
    Ends (fun u => m s = (.ok u, t)) (fun _ => t.fs.failed ≠ none) r := by
  rcases bind_cases h with ⟨e, h1, rfl⟩ | ⟨r', s1, h1, h⟩
  · exact absurd h1 (by simp [attempt])
  have h1 := attempt_ok h1
  cases r' with
  | ok a =>
    cases h
    exact h1
  | error e =>
    cases h
    exact cfsFail_failed e s1

theorem vnodeInodeSync_spec (h : vnodeInodeSync i s = (r, t)) :
    Ends (fun _ => t.fs = s.fs.sync i) (fun _ => t.fs.failed ≠ none) r := by
  have hrun := orAbandon_spec h
  cases r with
  | ok u => exact inodeWrite_ok hrun
  | error e => exact hrun

theorem orGiveUp_fs (h : (orGiveUp m s).2 = t) :
    (∃ u, m s = (.ok u, t)) ∨ t.fs.failed ≠ none := by
  rcases hm : m s with ⟨r, s1⟩
  have ha : attempt m s = (.ok r, s1) := by
    rw [attempt, hm]
  rw [orGiveUp, bind_run_ok ha] at h
  cases r with
  | ok a =>
    obtain rfl : s1 = t := h
    exact Or.inl ⟨a, rfl⟩
  | error e =>
    obtain rfl : (cfsFail e s1).2 = t := h
    exact Or.inr (cfsFail_failed e s1)

theorem undone_error {c' : Call} (h : onError (draw c) (orGiveUp (draw c')) s = (.error e, t)) :
    Unchanged s t := by
  obtain ⟨s1, h1, h2⟩ := onError_eq_error.mp h
  rcases orGiveUp_fs h2.symm with ⟨_, h3⟩ | h3
  · exact Or.inl ((draw_fs h3).trans (draw_fs h1))
  · exact Or.inr h3

theorem dirWriteBlock_spec (h : dirWriteBlock d k b s = (r, t)) :
    Ends (fun _ => t.fs = (s.fs.putDir d (putBlock (s.fs.dirs d) k b)).sync d)
      (fun _ => Unchanged s t) r := by
  rcases bind_cases h with ⟨e, h1, rfl⟩ | ⟨_, s1, h1, h⟩
  · exact undone_error h1
  have hsync := vnodeInodeSync_spec h
  cases r with
  | ok u =>
    rw [← draw_fs (onError_eq_ok.mp h1)]
    exact hsync
  | error e => exact Or.inr hsync

theorem dirFindFrom_spec {r : Except Errno Found} (h : dirFindFrom v name k bs s = (r, t)) :
    t.fs = s.fs ∧ Ends (fun f => locate v name k bs = some f) (fun _ => True) r := by
  induction bs generalizing k s with
  | nil =>
    cases h
    exact ⟨rfl, trivial⟩
  | cons b rest ih =>
    rcases bind_cases h with ⟨e, h1, rfl⟩ | ⟨_, s1, h1, h⟩
    · exact ⟨draw_fs h1, trivial⟩
    have hs1 : s1.fs = s.fs := draw_fs h1
    cases hf : findIn v name k [] b with
    | some g =>
      simp only [hf] at h
      cases h
      exact ⟨hs1, by rw [locate, hf]⟩
    | none =>
      have hloc : locate v name k (b :: rest) = locate v name (k + 1) rest := by rw [locate, hf]
      simp only [hf] at h
      rw [hloc, ← hs1]
      exact ih h

theorem dirFind_spec {r : Except Errno Found} (h : dirFind d name s = (r, t)) : t.fs = s.fs ∧
    Ends (fun f => locate s.fs.version name 0 (s.fs.dirs d) = some f) (fun _ => True) r := by
  rw [dirFind, gets_bind] at h
  split at h
  · cases h
    exact ⟨rfl, trivial⟩
  split at h
  · cases h
    exact ⟨rfl, trivial⟩
  · exact dirFindFrom_spec h

theorem dirAddFrom_spec {e : DirEntry} {r : Except Errno (Nat × DirBlock)}
    (h : dirAddFrom e need k bs s = (r, t)) :
    t.fs = s.fs ∧ Ends (fun p => ∃ j pre x y post, p.1 = k + j ∧
      Slotted e need bs j p.2 pre x y post)
      (fun _ => True) r := by
  induction bs generalizing k s with
  | nil =>
    rw [dirAddFrom] at h
    cases hf : freeRun need 0 [] zeroBlock with
    | none =>
      simp only [hf] at h
      cases h
      exact ⟨rfl, trivial⟩
    | some q =>
      simp only [hf] at h
      cases h
      have hq := freeRun_some hf
      exact ⟨rfl, 0, [], q.1, q.2, [], rfl, rfl, rfl, Or.inr ⟨rfl, rfl, by rw [← hq]; simp⟩⟩
  | cons b rest ih =>
    rcases bind_cases h with ⟨e, h1, rfl⟩ | ⟨_, s1, h1, h⟩
    · exact ⟨draw_fs h1, trivial⟩
    have hs1 : s1.fs = s.fs := draw_fs h1
    cases hf : freeRun need 0 [] b with
    | some q =>
      simp only [hf] at h
      cases h
      have hq : b = q.1 ++ List.replicate need .free ++ q.2 := by
        rw [← freeRun_some hf]
        simp
      exact ⟨hs1, 0, [], q.1, q.2, rest, rfl, rfl, rfl, Or.inl (by rw [hq]; rfl)⟩
    | none =>
      simp only [hf] at h
      obtain ⟨ht, hr⟩ := ih h
      refine ⟨ht.trans hs1, ?_⟩
      cases r with
      | error e => trivial
      | ok p =>
        obtain ⟨j, pre, x, y, post, hj, hb, hi, hw⟩ := hr
        refine ⟨j + 1, b :: pre, x, y, post, by omega, hb, by simp [hi], ?_⟩
        rcases hw with rfl | ⟨rfl, hp, hz⟩
        · exact Or.inl rfl
        · exact Or.inr ⟨rfl, hp, hz⟩

/-- `U` is `T` with the entry in free slots of a directory, under a name the version allows. -/
def Added (T : Tree) (d : Nat) (e : DirEntry) (U : Tree) : Prop :=
  e.name.length ≠ 0 ∧ e.name.length ≤ nameMax T.version ∧ ∃ k b pre x y post,
    Slotted e (1 + direntExtra e.name.length) (T.dirs d) k b pre x y post ∧
      U = (T.putDir d (putBlock (T.dirs d) k b)).sync d

theorem Added.check {T U : Tree} {e : DirEntry} (h : Added T d e U) (h0 : e.ino ≠ 0)
    (hc : e.ino ≠ direntCont) : direntCheck T.version e ≠ 0 :=
  direntCheck_ne_zero.mpr ⟨h0, hc, h.1, h.2.1⟩

theorem dirAdd_spec (h : dirAdd d name ino kind s = (r, t)) :
    Ends (fun _ => Added s.fs d ⟨name, ino, kind⟩ t.fs) (fun _ => Unchanged s t) r := by
  rw [dirAdd, gets_bind] at h
  split at h
  · cases h
    exact Or.inl rfl
  rename_i hn
  rcases bind_cases h with ⟨e, h1, rfl⟩ | ⟨p, s1, h1, h⟩
  · exact Or.inl (dirAddFrom_spec h1).1
  obtain ⟨hs1, j, pre, x, y, post, hj, hsl⟩ := dirAddFrom_spec h1
  have hwrite := dirWriteBlock_spec h
  cases r with
  | error e => exact hwrite.imp_left (·.trans hs1)
  | ok u =>
    obtain rfl : p.1 = j := by omega
    refine ⟨fun hz => hn (Or.inl hz), Nat.le_of_not_lt fun hlt => hn (Or.inr hlt), p.1, p.2, pre, x,
      y, post, hsl, ?_⟩
    rw [← hs1]
    exact hwrite

theorem namesAllow_spec (h : namesAllow len s = (r, t)) :
    Ends (fun _ => ∃ v, t.fs = { s.fs with version := v } ∧
      (v = s.fs.version ∨ s.fs.version < v ∧ v = 15)) (fun _ => Unchanged s t) r := by
  rw [namesAllow, gets_bind] at h
  split at h
  · split at h <;> cases h
    · exact Or.inl rfl
    · exact ⟨s.fs.version, rfl, Or.inl rfl⟩
  rename_i hv
  split at h
  · cases h
    exact Or.inl rfl
  rcases bind_cases h with ⟨e, h1, rfl⟩ | ⟨_, s1, h1, h⟩
  · exact undone_error h1
  · cases h
    refine ⟨15, ?_, Or.inr ⟨by omega, rfl⟩⟩
    rw [← draw_fs (onError_eq_ok.mp h1)]

theorem dirIsEmpty_spec {r : Except Errno Bool} (h : dirIsEmpty bs s = (r, t)) :
    t.fs = s.fs ∧ Ends (fun a => a = true → ∀ b ∈ bs, ∀ i ∈ b, i = Item.free)
      (fun _ => False) r := by
  induction bs generalizing s with
  | nil =>
    cases h
    exact ⟨rfl, fun _ b hb => absurd hb (by simp)⟩
  | cons b rest ih =>
    rcases bind_cases h with ⟨e, h1, rfl⟩ | ⟨a, s1, h1, h⟩
    · exact absurd h1 (by simp [attempt])
    have hs1 : s1.fs = s.fs := draw_fs (attempt_ok h1)
    cases a with
    | error e =>
      cases h
      exact ⟨hs1, fun hr => absurd hr (by simp)⟩
    | ok a =>
      dsimp only at h
      split at h
      · rename_i hb
        obtain ⟨ht, hall⟩ := ih h
        refine ⟨ht.trans hs1, ?_⟩
        cases r with
        | error e => exact hall
        | ok a =>
          intro ha c hc i hi
          rcases List.mem_cons.mp hc with rfl | hc
          · simpa using List.all_eq_true.mp hb i hi
          · exact hall ha c hc i hi
      · cases h
        exact ⟨hs1, fun hr => absurd hr (by simp)⟩

theorem orphanReserve_spec (h : orphanReserve s = (r, t)) :
    Ends (fun _ => ∃ c, t.fs = { s.fs with orphanCap := c }) (fun _ => t.fs = s.fs) r := by
  rw [orphanReserve, gets_bind] at h
  split at h
  · cases h
    exact ⟨s.fs.orphanCap, rfl⟩
  rcases bind_cases h with ⟨e, h1, rfl⟩ | ⟨_, s1, h1, h⟩
  · exact draw_fs h1
  · cases h
    refine ⟨if s.fs.orphanCap ≠ 0 then s.fs.orphanCap * 2 else 8, ?_⟩
    rw [← draw_fs h1]

end

theorem orphanAdd_ok (h : orphanAdd i s = (.ok u, t)) :
    ∃ o f, t.fs = { s.fs with orphans := o, failed := f } := by
  rw [orphanAdd, gets_bind] at h
  split at h
  · obtain rfl := (Prod.mk.inj h).2
    exact ⟨s.fs.orphans, s.fs.failed, rfl⟩
  · split at h
    · obtain rfl := (Prod.mk.inj h).2
      exact ⟨s.fs.orphans, some (s.fs.failed.getD .enospc), rfl⟩
    · obtain rfl := (Prod.mk.inj h).2
      exact ⟨s.fs.orphans ++ [i], s.fs.failed, rfl⟩

/-! ## A failed transaction stays failed -/

def Failed (s : Ns) : Prop := s.fs.failed ≠ none

theorem cfsFail_keeps (e : Errno) : Keeps Failed (cfsFail e) := fun s _ => cfsFail_failed e s

theorem attempt_keeps {m : NM α} (h : Keeps Failed m) : Keeps Failed (attempt m) := h

theorem orGiveUp_failed (h : Keeps Failed m) : Keeps Failed (orGiveUp m) :=
  Keeps.bind (attempt_keeps h) fun r => by
    cases r with
    | ok _ => exact Keeps.pure ()
    | error e => exact cfsFail_keeps e

theorem dirFind_failed (d : Nat) (name : List UInt8) : Keeps Failed (dirFind d name) := by
  intro s hs
  have hfs : (dirFind d name s).2.fs = s.fs := (dirFind_spec rfl).1
  rw [Failed, hfs]
  exact hs

theorem dirWriteBlock_failed (d k : Nat) (b : DirBlock) : Keeps Failed (dirWriteBlock d k b) := by
  intro s hs
  rcases hrun : dirWriteBlock d k b s with ⟨r, t⟩
  have hwrite := dirWriteBlock_spec hrun
  cases r with
  | ok u =>
    rw [Failed, hwrite]
    exact hs
  | error e => exact hwrite.elim (fun ht => by rw [Failed, ht]; exact hs) id

/-! ## Calls that go well -/

/-- Every call goes well, as far as writes do. -/
def Smooth (s : Ns) : Prop := ∀ c, c ≠ .write → s.luck c = []

theorem draw_calm (h : s.luck c = []) : draw c s = (.ok (), s) := by
  rw [draw, h]

theorem dirFindFrom_smooth (hs : Smooth s) (h : locate v name k bs = some f) :
    dirFindFrom v name k bs s = (.ok f, s) := by
  induction bs generalizing k with
  | nil => exact absurd h (by simp [locate])
  | cons b rest ih =>
    have hr : dirReadBlock s = (.ok (), s) := draw_calm (hs .read (by decide))
    rw [dirFindFrom, bind_run_ok hr]
    rw [locate] at h
    cases hf : findIn v name k [] b with
    | some g =>
      obtain rfl : g = f := by simpa [hf] using h
      rfl
    | none => exact ih (by simpa [hf] using h)

theorem dirFind_smooth (hs : Smooth s) (h : locate s.fs.version name 0 (s.fs.dirs d) = some f) :
    dirFind d name s = (.ok f, s) := by
  obtain ⟨_, _, _, _, hin⟩ := locate_some h
  have hlen : name.length ≤ nameMax s.fs.version := by
    have hc := hin.seen
    rw [direntCheck, hin.named] at hc
    by_contra hlt
    exact hc (if_pos (by omega))
  have hmax : ¬ 255 < name.length ∧ ¬ (47 < name.length ∧ s.fs.version < 15) := by
    rw [nameMax] at hlen
    split at hlen <;> omega
  rw [dirFind, gets_bind, if_neg hmax.1, if_neg hmax.2]
  exact dirFindFrom_smooth hs h

theorem vnodeInodeSync_smooth (hs : Smooth s) :
    vnodeInodeSync i s = (.ok (), { s with fs := s.fs.sync i }) := by
  have hw : inodeWrite i (some (s.fs.vnode i)) s = (.ok (), { s with fs := s.fs.sync i }) := by
    rw [inodeWrite, bind_run_ok (draw_calm (hs .inode (by decide)))]
    rfl
  have ha : attempt (inodeWrite i (some (s.fs.vnode i))) s
      = (.ok (.ok ()), { s with fs := s.fs.sync i }) := by
    rw [attempt, hw]
  rw [vnodeInodeSync, gets_bind, orAbandon, bind_run_ok ha]
  rfl

/-- The state after a directory block was written, the writes to come being `l`. -/
def Ns.written (s : Ns) (d k : Nat) (b : DirBlock) (l : List (Option Errno)) : Ns :=
  ⟨(s.fs.putDir d (putBlock (s.fs.dirs d) k b)).sync d, update s.luck .write l⟩

theorem Smooth.luck (hs : Smooth s) (T : Tree) (l : List (Option Errno)) :
    Smooth ⟨T, update s.luck .write l⟩ := by
  intro c hc
  show update s.luck .write l c = []
  rw [update_of_ne hc]
  exact hs c hc

theorem dirWriteBlock_smooth (hs : Smooth s) (hw : s.luck .write = none :: l) :
    dirWriteBlock d k b s = (.ok (), s.written d k b l) := by
  have hd : draw .write s = (.ok (), ⟨s.fs, update s.luck .write l⟩) := by
    rw [draw, hw]
  have hdata : dataWriteBlock s = (.ok (), ⟨s.fs, update s.luck .write l⟩) :=
    onError_eq_ok.mpr hd
  rw [dirWriteBlock, bind_run_ok hdata, change, modify_bind]
  exact vnodeInodeSync_smooth (hs.luck _ l)

theorem dirWriteBlock_fails (hs : Smooth s) (hw : s.luck .write = some e :: l) :
    dirWriteBlock d k b s = (.error e, ⟨s.fs, update s.luck .write l⟩) := by
  have hd : draw .write s = (.error e, ⟨s.fs, update s.luck .write l⟩) := by
    rw [draw, hw]
  have hr : attempt (draw .restore) ⟨s.fs, update s.luck .write l⟩
      = (.ok (.ok ()), ⟨s.fs, update s.luck .write l⟩) := by
    rw [attempt, draw_calm (hs.luck s.fs l .restore (by decide))]
  have hdata : dataWriteBlock s = (.error e, ⟨s.fs, update s.luck .write l⟩) := by
    refine onError_eq_error.mpr ⟨_, hd, ?_⟩
    rw [orGiveUp, bind_run_ok hr]
    rfl
  rw [dirWriteBlock, bind_run_error hdata]

end CosmoOS.Cosmofs.Dir
