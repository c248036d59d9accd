import CosmoOS.Cosmofs.Extent
import CosmoOS.Lib.Fallible

/-!
# The state of a mounted filesystem

`Fs` is `struct cfs` as the functions of this development read and write it: the in-memory
superblock, the open transaction's number, the allocation bitmap, the two lists of deferred frees,
the transaction's metadata buffers and the pool below them.

*Blocks are typed.*  A metadata block checks its own kind and seal when it is read, so a block that
reads is one of the layouts of `cosmofs_format.h`; `Payload` is their sum.

*The buffer cache is the transaction's.*  A clean cached buffer holds what its block holds on the
pool, so `bufs` has the dirty ones and every other lookup reads the pool.  Which clean buffers are
cached decides only whether a read can fail, and that is left to the faults.

*What can fail is an input.*  Every allocation of memory and every device request takes the next
entry of `faults`; an empty list is a machine on which nothing fails.

The fields are grouped by who changes them (`Space` the allocator, `Frees` the two free functions),
so that "everything else is unchanged" is one equation.
-/

namespace CosmoOS.Cosmofs

open Lib

/-! ## Blocks -/

/-- The kinds of metadata blocks (`enum cfs_kind`). -/
inductive Kind
  | imap1 | imap0 | inodes | allocidx | bitmap | extents | csumidx | csum | snaplist | deadlist
  | members | keys | freelog | orphan | snaplist2 | rollback | copystate | csumidx2
  deriving DecidableEq, Repr

/-- An inode, as far as its blocks go (`struct cfs_inode`). -/
structure Inode where
  mode : Nat
  nlink : Nat
  size : Nat
  generation : Nat
  ino : Nat
  direct : List Extent
  indirect : Nat
  csumAlgo : Nat
  csumRoot : Nat
  compressAlgo : Nat
  direct_length : direct.length = cfsDirect

/-- A snapshot's list entry (`struct cfs_snapshot`). -/
structure Snapshot where
  generation : Nat
  imapRoot : Nat
  allocRoot : Nat
  nextIno : Nat
  inodeCount : Nat
  deadlist : Nat
  id : Nat
  uuid : Nat
  originId : Nat
  clone : Bool
  name : List UInt8
  deriving DecidableEq, Repr

/-- A member table entry's part that a commit changes (`struct cfs_member`). -/
structure MemberEntry where
  allocRoot : Nat
  freeBlocks : Nat
  stateRoot : Nat
  deriving DecidableEq, Repr

/-- A rollback record (`struct cfs_rollback`); `isSealed` is its magic, version and
CRC being right. -/
structure RollbackRec where
  isSealed : Bool
  state : Nat
  flags : Nat
  targetUuid : Nat
  safetyUuid : Nat
  targetId : Nat
  safetyId : Nat
  generation : Nat
  deriving DecidableEq, Repr

/-- The contents of a metadata block, one layout for each kind. -/
inductive Payload
  | imap1 (slot : Nat → Nat)
  | imap0 (slot : Nat → Nat)
  | inodes (slot : Nat → Option Inode)
  | allocidx (slot : Nat → Nat)
  | bitmap (bits : Nat → Bool)
  | extents (next : Nat) (ext : List Extent)
  | csumidx (slot : Nat → Nat)
  | csum (word : Nat → Nat)
  | snaplist (next : Nat) (snap : List (Option Snapshot))
  | deadlist (next : Nat) (blk : List Nat)
  | members (entry : List MemberEntry)
  | keys
  | freelog (next : Nat) (blk : List Nat)
  | orphan (next : Nat) (ino : List Nat)
  | snaplist2 (next maxId : Nat) (snap : List (Option Snapshot))
  | rollback (r : RollbackRec)
  | copystate
  | csumidx2 (slot : Nat → Nat)

namespace Payload

def kind : Payload → Kind
  | imap1 _ => .imap1
  | imap0 _ => .imap0
  | inodes _ => .inodes
  | allocidx _ => .allocidx
  | bitmap _ => .bitmap
  | extents _ _ => .extents
  | csumidx _ => .csumidx
  | csum _ => .csum
  | snaplist _ _ => .snaplist
  | deadlist _ _ => .deadlist
  | members _ => .members
  | keys => .keys
  | freelog _ _ => .freelog
  | orphan _ _ => .orphan
  | snaplist2 _ _ _ => .snaplist2
  | rollback _ => .rollback
  | copystate => .copystate
  | csumidx2 _ => .csumidx2

end Payload

/-- A metadata block that checks: the generation its header carries and its contents. -/
structure MBlock where
  gen : Nat
  payload : Payload

/-- The in-memory superblock, and what a superblock slot holds. -/
structure Super where
  version : Nat
  generation : Nat
  imapRoot : Nat
  allocRoot : Nat
  snapRoot : Nat
  members : Nat
  keyRoot : Nat
  freeRoot : Nat
  orphanRoot : Nat
  rollbackRoot : Nat
  nextIno : Nat
  inodeCount : Nat
  freeBlocks : Nat
  deriving DecidableEq, Repr

/-- What a block of the pool holds. -/
inductive Sector
  | blank
  | super (sb : Super)
  | label (generation : Nat)
  | mblock (b : MBlock)
  | data (bytes : List UInt8)

/-! ## The filesystem -/

/-- The allocator's state. -/
structure Space where
  bitmap : Nat → Bool
  bitmapDirty : Nat → Bool
  freeBlocks : Nat
  memFree : Nat → Nat
  memHint : Nat → Nat

/-- A list of blocks to free and the entries it has memory for. -/
structure FreeList where
  blocks : List Nat
  cap : Nat

/-- The deferred frees, and what became of the blocks that could not be queued:
`leaked` are those the "leaking block" line names, `kept` those a clone released and
its origin keeps. -/
structure Frees where
  pending : FreeList
  exempt : FreeList
  leaked : List Nat
  kept : List Nat

namespace Frees

/-- Every block released since the lists began, wherever it went. -/
def all (f : Frees) : List Nat := f.pending.blocks ++ f.exempt.blocks ++ f.leaked ++ f.kept

end Frees

/-- The clone an operation writes: the linear blocks its origin's tree reaches, and
whether that walk has been made. -/
structure Clone where
  id : Nat
  originReach : Nat → Bool
  walked : Bool

/-- A mounted filesystem (`struct cfs`) on its pool. -/
structure Fs where
  geo : Geometry
  sb : Super
  sbSlot : Nat
  gen : Nat
  reserve : Nat
  maxExtents : Nat
  space : Space
  frees : Frees
  allocRoot : Nat → Nat
  stateRoot : Nat → Nat
  orphans : List Nat
  orphanCap : Nat
  snapCount : Nat
  snapMaxId : Nat
  bufs : Nat → Option MBlock
  disk : Nat → Sector
  failed : Option Errno
  curClone : Option Clone
  faults : List Bool

/-- A cosmofs function. -/
abbrev M : Type → Type := Fallible Fs Errno

/-! ## A small pool -/

/-- One member of 64 blocks, the smallest the format allows. -/
def smallGeometry : Geometry where
  members := [⟨64, 2, by decide, by decide⟩]
  members_pos := by decide
  members_le := by decide

/-- The superblock of an empty filesystem of format 11. -/
def smallSuper : Super where
  version := 11
  generation := 1
  imapRoot := 2
  allocRoot := 0
  snapRoot := 0
  members := 3
  keyRoot := 0
  freeRoot := 0
  orphanRoot := 0
  rollbackRoot := 0
  nextIno := 2
  inodeCount := 1
  freeBlocks := 60

/-- The small pool mounted, with no buffer, no pending free and nothing failing. -/
def smallFs : Fs where
  geo := smallGeometry
  sb := smallSuper
  sbSlot := 0
  gen := 2
  reserve := 0
  maxExtents := 4096
  space := ⟨fun _ => false, fun _ => false, 62, fun _ => 62, fun _ => 2⟩
  frees := ⟨⟨[], 0⟩, ⟨[], 0⟩, [], []⟩
  allocRoot := fun _ => 4
  stateRoot := fun _ => 0
  orphans := []
  orphanCap := 0
  snapCount := 0
  snapMaxId := 0
  bufs := fun _ => none
  disk := fun _ => .blank
  failed := none
  curClone := none
  faults := []

/-! ## Failures from outside -/

def takeFault (s : Fs) : Bool × Fs :=
  match s.faults with
  | [] => (false, s)
  | b :: fl => (b, { s with faults := fl })

/-- An allocation of memory or a device request: it fails with `e` when the next fault
says so. -/
def mayFail (e : Errno) : M Unit := fun s =>
  match takeFault s with
  | (true, t) => (.error e, t)
  | (false, t) => (.ok (), t)

theorem takeFault_frame (s : Fs) : ∃ fl, (takeFault s).2 = { s with faults := fl } := by
  unfold takeFault
  split <;> exact ⟨_, rfl⟩

theorem takeFault_nil {s : Fs} (h : s.faults = []) : takeFault s = (false, s) := by
  unfold takeFault
  rw [h]

theorem mayFail_cases (e : Errno) (s : Fs) :
    ∃ fl, (s.faults = [] → fl = []) ∧ (mayFail e s = (.ok (), { s with faults := fl }) ∨
      s.faults ≠ [] ∧ mayFail e s = (.error e, { s with faults := fl })) := by
  unfold mayFail takeFault
  cases hf : s.faults with
  | nil => exact ⟨s.faults, fun _ => hf, .inl rfl⟩
  | cons b fl =>
    cases b with
    | false => exact ⟨fl, nofun, .inl rfl⟩
    | true => exact ⟨fl, nofun, .inr ⟨nofun, rfl⟩⟩

theorem mayFail_nil (e : Errno) {s : Fs} (h : s.faults = []) : mayFail e s = (.ok (), s) := by
  unfold mayFail
  rw [takeFault_nil h]

/-- No allocation of memory and no device request fails from here on. -/
def Calm (s : Fs) : Prop := s.faults = []

/-- Nothing has changed but the faults, and none has come up. -/
def Drew (s t : Fs) : Prop := ∃ fl, t = { s with faults := fl } ∧ (s.faults = [] → fl = [])

namespace Drew

variable {s t u : Fs}

theorem refl (s : Fs) : Drew s s := ⟨s.faults, rfl, id⟩

theorem trans (h₁ : Drew s t) (h₂ : Drew t u) : Drew s u := by
  obtain ⟨fl, rfl, hfl⟩ := h₁
  obtain ⟨fl', rfl, hfl'⟩ := h₂
  exact ⟨fl', rfl, fun hs => hfl' (hfl hs)⟩

theorem calm (h : Drew s t) (hs : Calm s) : Calm t := by
  obtain ⟨fl, rfl, hfl⟩ := h
  exact hfl hs

end Drew

theorem mayFail_drew {e : Errno} {s t : Fs} {r : Except Errno Unit} (h : mayFail e s = (r, t)) :
    Drew s t ∧ ∀ e', r = .error e' → e' = e := by
  obtain ⟨fl, hfl, hm | ⟨-, hm⟩⟩ := mayFail_cases e s <;> cases h.symm.trans hm
  · exact ⟨⟨fl, rfl, hfl⟩, nofun⟩
  · exact ⟨⟨fl, rfl, hfl⟩, fun _ he => (Except.error.inj he).symm⟩

end CosmoOS.Cosmofs
