import CosmoOS.Cosmofs.State
import Mathlib.Data.List.Nodup

/-!
# Rolling the live tree back to a snapshot

A rollback never changes a mounted tree.  `request` writes a *pending* record and a safety snapshot
of the live tree in one transaction; the next mount makes the target's tree the live tree and leaves
a *held* record, which `bootOk` clears once that boot has completed.  While the hold is in place the
only rollback allowed is back to the tree it keeps; that pending record carries a flag, so that
`cancel` can put the hold back.

The model is the protocol: what the open transaction says (`root`), what the last published root
says (`disk`), and the operations that move between them.  A commit publishes the open transaction
or fails, at any of the points the environment chooses; a mount starts again from `disk`.

`RootOk` says what every root keeps: a record that passes its check, naming snapshots on the list,
whose uuids are distinct.  Every operation keeps it in memory and on disk, with one exception:
`atMount` makes the held record by copying the pending one, flag included, and a held record with a
flag does not pass.
-/

namespace CosmoOS.Cosmofs.Rollback

open Lib Fallible List

variable {also : List Nat} {ns : List (List UInt8)}

/-! ## The protocol's state -/

/-- The block `rollback_root` names: none, a rollback block, or something else. -/
inductive RecordBlock
  | none
  | damaged
  | block (r : RollbackRec)
  deriving DecidableEq

/-- What a root says, as far as the protocol reads it.  The list of snapshots is a chain
of `chain` blocks; the head's `maxIdMark` is the highest id ever handed out. -/
structure Root where
  version : Nat
  generation : Nat
  imapRoot : Nat
  nextIno : Nat
  inodeCount : Nat
  members : Nat
  snaps : List Snapshot
  chain : Nat
  maxIdMark : Nat
  record : RecordBlock

/-- How a call into the rest of the filesystem goes: it succeeds, it fails, it fails and
the mount is marked failed, or (a commit) the root reaches the pool and the call is
reported as failed all the same. -/
inductive Outcome
  | ok
  | error (e : Errno)
  | abandon (e : Errno)
  | late (e : Errno)

/-- The mounted filesystem and its last published root.  `walks` is how the next reads
of the snapshot list go, `outcomes` the other calls, `draws` the random bytes, and
`slot` where the list has its first free slot. -/
structure Rb where
  root : Root
  disk : Root
  snapMaxId : Nat
  failed : Option Errno
  walks : List (Option Errno)
  outcomes : List Outcome
  draws : List Nat
  slot : Nat

variable {P : Rb → Prop}

abbrev RM : Type → Type := Fallible Rb Errno

def statePending : Nat := 1

def stateHeld : Nat := 2

/-- The flag of a record asked for while a hold was in place. -/
def flagFromHeld : Nat := 1

def snapIdMax : Nat := 0xFFFE

def snapNameMax : Nat := 31

/-- The entries of one block of the list (`CFS_SNAPS_PER_BLOCK2`). -/
def snapsPerBlock2 : Nat := 31

/-! ## Calls -/

def nextOutcome : RM Outcome := fun s =>
  match s.outcomes with
  | [] => (.ok .ok, s)
  | o :: os => (.ok o, { s with outcomes := os })

/-- `cfs_fail`: the transaction is abandoned, the mount marked failed. -/
def cfsFail (e : Errno) : RM Unit :=
  modify fun s => { s with failed := some (s.failed.getD e) }

/-- A call that changes nothing the protocol reads. -/
def call : RM Unit := do
  match ← nextOutcome with
  | .ok => pure ()
  | .error e | .abandon e | .late e => fail e

def snapWalk : RM (List Snapshot) := fun s =>
  match s.walks with
  | [] => (.ok s.root.snaps, s)
  | Option.none :: ws => (.ok s.root.snaps, { s with walks := ws })
  | some e :: ws => (.error e, { s with walks := ws })

/-- The open transaction becomes the last published root. -/
def publish (s : Rb) : Rb :=
  { s with
    root := { s.root with generation := s.root.generation + 1 }
    disk := { s.root with generation := s.root.generation + 1 } }

def cfsCommit : RM Unit := do
  match ← gets Rb.failed with
  | some e => fail e
  | Option.none => do
    match ← nextOutcome with
    | .ok => modify publish
    | .error e => fail e
    | .abandon e => do
      cfsFail e
      fail e
    | .late e => do
      modify fun s => { s with disk := (publish s).disk }
      fail e

/-! ## The snapshot list -/

/-- The snapshot named `name`; a list that cannot be read has none. -/
def find (name : List UInt8) : RM (Option Snapshot) := do
  match ← attempt snapWalk with
  | .ok l => pure (l.find? fun e => e.name == name)
  | .error _ => pure Option.none

def lookupUuid (uuid : Nat) : RM Snapshot := do
  let v ← gets fun s => s.root.version
  if v < 12 || uuid == 0 then fail .enoent
  else do
    let l ← snapWalk
    match l.find? fun e => e.uuid == uuid with
    | some e => pure e
    | Option.none => fail .enoent

/-- Whether a drawn uuid is in use: by one handed out already, or by the list. -/
def uuidTaken (uuid : Nat) (also : List Nat) : RM Bool := do
  let v ← gets fun s => s.root.version
  if uuid == 0 || also.contains uuid then pure true
  else if v ≥ 12 then do
    match ← attempt (lookupUuid uuid) with
    | .ok _ => pure true
    | .error _ => pure false
  else pure false

/-- Draw until the uuid is not taken. -/
def newUuidFrom (also : List Nat) : List Nat → RM Nat
  | [] => fail .eio
  | d :: ds => do
    modify fun s => { s with draws := ds }
    if ← uuidTaken d also then newUuidFrom also ds else pure d

def newUuid (also : List Nat) : RM Nat := do
  let ds ← gets Rb.draws
  newUuidFrom also ds

/-- A uuid for each entry of the list, none of them in `given`. -/
def giveUuids : List Snapshot → List Nat → RM (List Snapshot)
  | [], _ => pure []
  | e :: es, given => do
    let u ← newUuid given
    let rest ← giveUuids es (given ++ [u])
    pure ({ e with uuid := u } :: rest)

/-- Past the first change a failure abandons the transaction. -/
def orAbandon (m : RM Unit) : RM Unit := do
  match ← attempt m with
  | .ok _ => pure ()
  | .error e => do
    cfsFail e
    fail e

section

variable (reserved : List Nat) (target : List UInt8) (given : Option (List UInt8)) (secs : Nat)

/-- The raised list: a uuid for every snapshot, none of them a reserved one.  Nothing is
changed yet. -/
def raisePlan : RM (List Snapshot) := do
  let l ← snapWalk
  call
  giveUuids l reserved

/-- The raised list written in place of the old one, with the new version. -/
def raiseApply (l : List Snapshot) : RM Unit := do
  -- the old chain is read and freed
  orAbandon call
  modify fun s => { s with root := { s.root with
    version := 12, snaps := [], chain := 0, maxIdMark := 0 } }
  -- the new one is written; an empty list has no block for the mark
  orAbandon call
  modify fun s => { s with
    root := { s.root with
      snaps := l
      chain := (l.length + (snapsPerBlock2 - 1)) / snapsPerBlock2
      maxIdMark := if l.isEmpty then 0 else (l.map Snapshot.id).foldl max s.snapMaxId }
    snapMaxId := (l.map Snapshot.id).foldl max s.snapMaxId }

/-- Raise a version-11 pool to 12. -/
def snapRaise : RM Unit := do
  let v ← gets fun s => s.root.version
  if v ≥ 12 then pure ()
  else if v < 11 then fail .eopnotsupp
  else do
    let l ← raisePlan reserved
    raiseApply l

/-- A name a snapshot may have. -/
def nameOk (name : List UInt8) : Bool :=
  !name.isEmpty && name.length ≤ snapNameMax && !name.contains 47

def newEntry (R : Root) (id uuid : Nat) (name : List UInt8) : Snapshot where
  generation := R.generation
  imapRoot := R.imapRoot
  allocRoot := R.members
  nextIno := R.nextIno
  inodeCount := R.inodeCount
  deadlist := 0
  id := id
  uuid := uuid
  originId := 0
  clone := false
  name := name

/-- Whether every slot of the list is taken. -/
def Root.full (R : Root) : Bool := snapsPerBlock2 * R.chain ≤ R.snaps.length

/-- Put an entry in the first free slot and raise the list's mark, or in a new head
block, which has the entry's id for its mark. -/
def snaplistInsert (e : Snapshot) : RM Unit :=
  modify fun s => { s with
    root := { s.root with
      snaps := s.root.snaps.insertIdx
        (if s.root.full then 0 else min s.slot s.root.snaps.length) e
      chain := if s.root.full then s.root.chain + 1 else s.root.chain
      maxIdMark := if s.root.full then e.id else max s.root.maxIdMark e.id }
    snapMaxId := e.id }

/-- The highest id over the list and the mount's memory, which keeps it. -/
def snapMaxId : RM Nat := do
  let l ← snapWalk
  let mem ← gets Rb.snapMaxId
  modify fun s => { s with snapMaxId := (l.map Snapshot.id).foldl max mem }
  pure ((l.map Snapshot.id).foldl max mem)

/-- The list's mark, from its head block; 0 when that block cannot be read. -/
def snaplistMaxId : RM Nat := do
  let R ← gets Rb.root
  if R.version < 12 || R.chain == 0 then pure 0
  else
    match ← attempt snapWalk with
    | .ok _ => pure R.maxIdMark
    | .error _ => pure 0

/-- The highest id in use, over the list, the mount's memory and the list's mark. -/
def maxId : RM Nat := do
  let mem ← snapMaxId
  let diskMax ← snaplistMaxId
  pure (max mem diskMax)

/-- The uuid of a new entry: the caller's, or one drawn now. -/
def entryUuid : Option Nat → RM Nat
  | some u => pure u
  | Option.none => newUuid []

def addEntry (name : List UInt8) (top u : Nat) : RM Snapshot := do
  let R ← gets Rb.root
  let raised ← gets Rb.snapMaxId
  orAbandon call
  snaplistInsert (newEntry R (max top raised + 1) u name)
  pure (newEntry R (max top raised + 1) u name)

/-- Take a snapshot with identity of the live tree, in the open transaction; the open
work before it is committed first.  The uuid is the caller's, or drawn here. -/
def createEx (name : List UInt8) (uuid : Option Nat) : RM Snapshot := do
  if !nameOk name then fail .einval
  else do
    let found ← find name
    let v ← gets fun s => s.root.version
    if found.isSome then fail .eexist
    else if v < 11 then fail .eopnotsupp
    else do
      cfsCommit
      let top ← maxId
      if top ≥ snapIdMax then fail .enospc
      else do
        snapRaise uuid.toList
        -- the list is copied
        call
        let u ← entryUuid uuid
        addEntry name top u

/-! ## The record -/

/-- The record, sealed or not, means something: a known state and flag, no flag on a
held one, a safety snapshot, and for a pending one a target other than it. -/
def rollbackCheck (r : RollbackRec) : Bool :=
  if !r.isSealed then false
  else if r.state != statePending && r.state != stateHeld then false
  else if r.flags &&& (flagFromHeld ^^^ 0xffffffff) != 0 || (r.state == stateHeld && r.flags != 0)
    then false
  else if r.safetyUuid == 0 then false
  else if r.state == statePending && (r.targetUuid == 0 || r.targetUuid == r.safetyUuid) then false
  else true

def rollbackParse : RecordBlock → Except Errno RollbackRec
  | .block r => if rollbackCheck r then .ok r else .error .eio
  | _ => .error .eio

/-- The record, or `enoent` when there is none and `eio` when it does not check out. -/
def read : RM RollbackRec := do
  let R ← gets Rb.root
  if R.version < 12 || R.record == .none then fail .enoent
  else
    match ← attempt call with
    | .error _ => fail .eio
    | .ok _ => ofExcept (rollbackParse R.record)

def setRecord (b : RecordBlock) (s : Rb) : Rb := { s with root := { s.root with record := b } }

/-- Replace the record (`none` removes it), in the open transaction.  The old block goes
before the new one is had. -/
def write (r : Option RollbackRec) : RM Unit := do
  modify (setRecord .none)
  match r with
  | Option.none => pure ()
  | some r => do
    call
    modify (setRecord (.block { r with isSealed := true }))

/-- The commit every operation here ends with: one that fails marks the mount failed. -/
def commit : RM Unit := orAbandon cfsCommit

/-- Whether the record keeps snapshot `e` from deletion. -/
def protects (e : Snapshot) : RM Bool := do
  match ← attempt read with
  | .error .enoent => pure false
  | .error _ => pure true
  | .ok r =>
    pure (if r.state == statePending then r.safetyUuid == e.uuid || r.targetUuid == e.uuid
      else r.safetyUuid == e.uuid)

/-! ## The operations -/

def decimal (n : Nat) : List UInt8 := (Nat.toDigits 10 n).map fun c => c.val.toUInt8

/-- The bytes of "pre-rollback-". -/
def safetyPrefix : List UInt8 := [112, 114, 101, 45, 114, 111, 108, 108, 98, 97, 99, 107, 45]

/-- `pre-rollback-<seconds>-<n>` for the first `n` that is free, of the `fuel` next. -/
def uniqueName (secs : Nat) : Nat → Nat → List UInt8 → RM (List UInt8)
  | 0, _, name => do
    let _ ← find name
    pure name
  | fuel + 1, n, name => do
    if (← find name).isSome
    then uniqueName secs fuel (n + 1) (safetyPrefix ++ decimal secs ++ [45] ++ decimal n)
    else pure name

/-- The safety snapshot's name: the one given, if it is free, or one after the clock. -/
def safetyName : RM (List UInt8) :=
  match given with
  | some name => do
    if name.length > snapNameMax then fail .enametoolong
    else if (← find name).isSome then fail .eexist
    else pure name
  | Option.none => uniqueName secs 98 2 (safetyPrefix ++ decimal secs)

/-- Whether the record read is a hold. -/
def holding : Except Errno RollbackRec → Bool
  | .ok r => r.state == stateHeld
  | .error _ => false

/-- Whether the record read stands against a rollback to `t`: a pending one does, and a
hold on another tree. -/
def busyFor (t : Snapshot) : Except Errno RollbackRec → Bool
  | .ok r => r.state == statePending || (r.state == stateHeld && r.safetyUuid != t.uuid)
  | .error _ => false

/-- What is checked before a request changes anything: the target, the record in place,
the safety snapshot's name.  Returns whether a hold is in place, the name and the safety
snapshot's uuid. -/
def requestCheck : RM (Bool × List UInt8 × Nat) := do
  let v ← gets fun s => s.root.version
  if v < 11 then fail .eopnotsupp
  else
    match ← find target with
    | Option.none => fail .enoent
    | some t =>
      if t.clone then fail .einval
      else do
        let cur ← attempt read
        if busyFor t cur then fail .ebusy
        else do
          let name ← safetyName given secs
          let u ← newUuid []
          pure (holding cur, name, u)

def pendingRec (held : Bool) (target safety : Snapshot) (uuid generation : Nat) : RollbackRec where
  isSealed := false
  state := statePending
  flags := if held then flagFromHeld else 0
  targetUuid := target.uuid
  safetyUuid := uuid
  targetId := target.id
  safetyId := safety.id
  generation := generation

/-- A pending record to `target` and a safety snapshot of the live tree, in one
transaction. -/
def request : RM Snapshot := do
  let (held, name, u) ← requestCheck target given secs
  let e ← createEx name (some u)
  match ← find target with
  | Option.none => do
    cfsFail .eio
    fail .eio
  | some t => do
    let g ← gets fun s => s.root.generation
    orAbandon (write (some (pendingRec held t e u g)))
    commit
    pure e

end

/-- The checker's repair: the record goes, whatever it says. -/
def dropRecord : RM Unit := do
  let R ← gets Rb.root
  if R.version < 12 || R.record == .none then pure () else write Option.none

/-- The hold a pending record was asked under. -/
def heldAgain (r : RollbackRec) (generation : Nat) : RollbackRec where
  isSealed := false
  state := stateHeld
  flags := 0
  targetUuid := 0
  safetyUuid := r.targetUuid
  targetId := 0
  safetyId := r.targetId
  generation := generation

/-- The pending record withdrawn, back to the hold it was asked under if any. -/
def cancel : RM Unit := do
  match ← attempt read with
  | .error .enoent => fail .enoent
  | .error _ => do
    cfsCommit
    write Option.none
    commit
  | .ok r =>
    if r.state != statePending then fail .enoent
    else do
      cfsCommit
      let g ← gets fun s => s.root.generation
      write (if r.flags &&& flagFromHeld != 0 then some (heldAgain r g) else Option.none)
      commit

/-- The hold released; whether there was one. -/
def bootOk : RM Bool := do
  match ← attempt read with
  | .error _ => pure false
  | .ok r =>
    if r.state != stateHeld then pure false
    else do
      cfsCommit
      write Option.none
      commit
      pure true

/-- The held record a switch leaves: the pending one with its state and generation
changed. -/
def heldRec (r : RollbackRec) (generation : Nat) : RollbackRec :=
  { r with state := stateHeld, generation := generation }

/-- The switch itself: the walks of both trees, the target's roots, its orphans, the
held record, the commit. -/
def switchTo (t : Snapshot) (r : RollbackRec) : RM Unit := do
  -- the memory of the reach set, the two walks and the deadlists' filter
  call
  call
  call
  call
  modify fun s => { s with root := { s.root with
    imapRoot := t.imapRoot, nextIno := t.nextIno, inodeCount := t.inodeCount } }
  -- the target's own orphans
  call
  let g ← gets fun s => s.root.generation + 1
  write (some (heldRec r g))
  cfsCommit

/-- A pending record applied in the mount's first transaction, or refused with the
current tree mounted; whether it was applied. -/
def atMount (rdonly : Bool) : RM Bool := do
  match ← attempt read with
  | .error _ => pure false
  | .ok r =>
    if r.state != statePending then pure false
    else
      match ← attempt (lookupUuid r.targetUuid) with
      | .error _ => pure false
      | .ok t =>
        match ← attempt (lookupUuid r.safetyUuid) with
        | .error _ => pure false
        | .ok _ =>
          if rdonly then pure false
          else
            -- the target's root directory is read
            match ← attempt call with
            | .error _ => pure false
            | .ok _ =>
              if t.imapRoot == 0 then pure false
              else do
                switchTo t r
                pure true

/-- Start again from the last published root. -/
def reload (s : Rb) : Rb := { s with root := s.disk, snapMaxId := 0, failed := Option.none }

/-- A mount: the last root is loaded, and a pending rollback applied on a writable one.
A switch that fails is abandoned and the root loaded again. -/
def mount (rdonly : Bool) : RM Bool := do
  modify reload
  let R ← gets Rb.root
  if R.version ≥ 12 && R.record != .none && !rdonly then do
    match ← attempt (atMount rdonly) with
    | .ok b => pure b
    | .error _ => do
      modify reload
      pure false
  else pure false

/-- Take snapshot `name`, and commit it. -/
def create (name : List UInt8) : RM Snapshot := do
  let e ← createEx name Option.none
  commit
  pure e

/-- Delete snapshot `name`, which the record must not keep. -/
def delete (name : List UInt8) : RM Unit := do
  let l ← snapWalk
  match l.find? fun e => e.name == name with
  | Option.none => fail .enoent
  | some e =>
    if ← protects e then fail .ebusy
    else if !e.clone && l.any (fun c => c.clone && c.originId == e.id) then fail .ebusy
    else do
      -- the list is copied, then what it kept settled with the older snapshots
      call
      orAbandon call
      modify fun s => { s with root := { s.root with snaps := s.root.snaps.erase e } }
      commit

/-! ## The calls that change no root -/

/-- Both roots are as they were, a list that could be read still can, and the highest id
in memory has not gone down. -/
structure Silent (s t : Rb) : Prop where
  root : t.root = s.root
  disk : t.disk = s.disk
  walks : s.walks = [] → t.walks = []
  mem : s.snapMaxId ≤ t.snapMaxId

theorem Silent.refl (s : Rb) : Silent s s := ⟨rfl, rfl, id, le_rfl⟩

theorem Silent.trans (s t u : Rb) (h₁ : Silent s t) (h₂ : Silent t u) : Silent s u :=
  ⟨h₂.root.trans h₁.root, h₂.disk.trans h₁.disk, fun h => h₂.walks (h₁.walks h),
    h₁.mem.trans h₂.mem⟩

/-- A computation that changes no root, failed or not. -/
def Quiet {α : Type} (m : RM α) : Prop := Moves Silent m

namespace Quiet

variable {α β : Type} {s t : Rb}

theorem pure (a : α) : Quiet (Pure.pure a) := Moves.pure Silent.refl a

theorem fail (e : Errno) : Quiet (Fallible.fail e : RM α) := Moves.fail Silent.refl e

theorem gets (f : Rb → α) : Quiet (Fallible.gets f) := Moves.gets Silent.refl f

variable {m : RM α}

theorem bind {f : α → RM β} (hm : Quiet m) (hf : ∀ a, Quiet (f a)) : Quiet (m >>= f) :=
  Moves.bind Silent.trans hm hf

theorem attempt (h : Quiet m) : Quiet (Fallible.attempt m) := Moves.attempt h

theorem of_run (h : Quiet m) {r : Except Errno α} (hr : m s = (r, t)) : Silent s t :=
  Moves.of_run h hr

theorem nextOutcome : Quiet nextOutcome := by
  intro s
  unfold Rollback.nextOutcome
  split <;> exact ⟨rfl, rfl, id, le_rfl⟩

theorem cfsFail (e : Errno) : Quiet (cfsFail e) := Moves.modify fun _ => ⟨rfl, rfl, id, le_rfl⟩

theorem call : Quiet call := by
  refine bind nextOutcome fun o => ?_
  cases o with
  | ok => exact pure ()
  | error e | abandon e | late e => exact fail e

theorem orAbandon {m : RM Unit} (h : Quiet m) : Quiet (orAbandon m) := by
  refine bind (attempt h) fun r => ?_
  cases r with
  | ok a => exact pure ()
  | error e => exact bind (cfsFail e) fun _ => fail e

theorem snapWalk : Quiet snapWalk := by
  intro s
  unfold Rollback.snapWalk
  split
  · exact ⟨rfl, rfl, id, le_rfl⟩
  · rename_i h
    exact ⟨rfl, rfl, fun h0 => absurd (h.symm.trans h0) (by simp), le_rfl⟩
  · rename_i h
    exact ⟨rfl, rfl, fun h0 => absurd (h.symm.trans h0) (by simp), le_rfl⟩

theorem find (name : List UInt8) : Quiet (find name) := by
  refine bind (attempt snapWalk) fun r => ?_
  cases r <;> exact pure _

theorem lookupUuid (uuid : Nat) : Quiet (lookupUuid uuid) := by
  refine bind (gets _) fun v => ?_
  split
  · exact fail _
  · refine bind snapWalk fun l => ?_
    split
    · exact pure _
    · exact fail _

theorem uuidTaken (uuid : Nat) (also : List Nat) : Quiet (uuidTaken uuid also) := by
  refine bind (gets _) fun v => ?_
  split
  · exact pure _
  · split
    · refine bind (attempt (lookupUuid uuid)) fun r => ?_
      cases r <;> exact pure _
    · exact pure _

theorem newUuidFrom (also ds : List Nat) : Quiet (newUuidFrom also ds) := by
  induction ds with
  | nil => exact fail _
  | cons d ds ih =>
    refine bind (Moves.modify fun _ => ⟨rfl, rfl, id, le_rfl⟩) fun _ =>
      bind (uuidTaken d also) fun b => ?_
    cases b with
    | true => exact ih
    | false => exact pure d

theorem newUuid (also : List Nat) : Quiet (newUuid also) :=
  bind (gets _) fun ds => newUuidFrom also ds

theorem giveUuids (l : List Snapshot) (given : List Nat) : Quiet (giveUuids l given) := by
  induction l generalizing given with
  | nil => exact pure _
  | cons e es ih => exact bind (newUuid given) fun u => bind (ih _) fun _ => pure _

theorem read : Quiet read := by
  refine bind (gets _) fun R => ?_
  split
  · exact fail _
  · refine bind (attempt call) fun r => ?_
    cases r with
    | error e => exact fail _
    | ok a => exact fun s => Silent.refl s

theorem protects (e : Snapshot) : Quiet (protects e) := by
  refine bind (attempt read) fun r => ?_
  split
  · exact pure _
  · exact pure _
  · exact pure _

theorem uniqueName (secs fuel n : Nat) (name : List UInt8) :
    Quiet (uniqueName secs fuel n name) := by
  induction fuel generalizing n name with
  | zero => exact bind (find name) fun _ => pure _
  | succ fuel ih =>
    refine bind (find name) fun r => ?_
    split
    · exact ih _ _
    · exact pure _

theorem safetyName (given : Option (List UInt8)) (secs : Nat) : Quiet (safetyName given secs) := by
  cases given with
  | none => exact uniqueName secs 98 2 _
  | some name =>
    unfold Rollback.safetyName
    dsimp only
    split
    · exact fail _
    · refine bind (find name) fun r => ?_
      split
      · exact fail _
      · exact pure _

theorem requestCheck (target : List UInt8) (given : Option (List UInt8)) (secs : Nat) :
    Quiet (requestCheck target given secs) := by
  refine bind (gets _) fun v => ?_
  split
  · exact fail _
  · refine bind (find target) fun r => ?_
    cases r with
    | none => exact fail _
    | some t =>
      dsimp only
      split
      · exact fail _
      · refine bind (attempt read) fun cur => ?_
        split
        · exact fail _
        · exact bind (safetyName given secs) fun name => bind (newUuid []) fun u => pure _

end Quiet

/-! ## What the list's readers find -/

variable {s t : Rb} {uuid : Option Nat} {u : Nat} {l : List Snapshot} {r : RollbackRec} {R : Root}
    {α β : Type} {m : RM α} {W : Prop} {F F' : Root → Prop} {G G' : α → Root → Prop} {e : Snapshot}

section

variable (h : s.walks = [])

include h

theorem find_run (name : List UInt8) :
    find name s = (.ok (s.root.snaps.find? fun e => e.name == name), s) := by
  simp [find, attempt, snapWalk, h, bind_run]

theorem lookupUuid_run (hv : 12 ≤ s.root.version) {uuid : Nat} (hu : uuid ≠ 0) :
    lookupUuid uuid s =
      match s.root.snaps.find? fun e => e.uuid == uuid with
      | some e => (.ok e, s)
      | Option.none => (.error .enoent, s) := by
  have hlow : ¬ s.root.version < 12 := by omega
  simp only [lookupUuid, gets_bind, hlow, decide_false, Bool.false_or, beq_iff_eq, hu, if_false]
  rw [bind_run_ok (show snapWalk s = (.ok s.root.snaps, s) by simp [snapWalk, h])]
  cases s.root.snaps.find? fun e => e.uuid == uuid <;> rfl

theorem uuidTaken_false (hr : uuidTaken u also s = (.ok false, t)) :
    u ≠ 0 ∧ u ∉ also ∧ (12 ≤ s.root.version → ∀ e ∈ s.root.snaps, e.uuid ≠ u) := by
  unfold uuidTaken at hr
  simp only [gets_bind] at hr
  split at hr
  · cases hr
  · rename_i hz
    simp only [Bool.or_eq_true, beq_iff_eq, contains_eq_mem, decide_eq_true_eq, not_or] at hz
    refine ⟨hz.1, hz.2, fun hv e he heq => ?_⟩
    rw [if_pos hv] at hr
    have hlook := lookupUuid_run h hv hz.1
    cases hf : s.root.snaps.find? fun e => e.uuid == u with
    | none =>
      have hno := List.find?_eq_none.mp hf e he
      simp [heq] at hno
    | some e' =>
      simp [bind_run, attempt, hlook, hf] at hr

/-- A drawn uuid is not zero, not handed out already and not on a list that has any. -/
theorem newUuid_ok (hr : newUuid also s = (.ok u, t)) :
    u ≠ 0 ∧ u ∉ also ∧ (12 ≤ s.root.version → ∀ e ∈ s.root.snaps, e.uuid ≠ u) := by
  have hloop : ∀ (ds : List Nat) (v : Rb), v.walks = [] → v.root = s.root →
      newUuidFrom also ds v = (.ok u, t) →
      u ≠ 0 ∧ u ∉ also ∧ (12 ≤ s.root.version → ∀ e ∈ s.root.snaps, e.uuid ≠ u) := by
    intro ds
    induction ds with
    | nil => exact fun v _ _ hv => absurd hv (by simp [newUuidFrom])
    | cons d ds ih =>
      intro v hw hroot hv
      simp only [newUuidFrom, modify_bind] at hv
      obtain ⟨b, v', ht, hv⟩ := bind_eq_ok.mp hv
      have hq := (Quiet.uuidTaken d also).of_run ht
      cases b with
      | true => exact ih v' (hq.walks hw) (hq.root.trans hroot) hv
      | false =>
        obtain ⟨rfl, rfl⟩ : d = u ∧ v' = t := by simpa using hv
        have hspec := uuidTaken_false (s := { v with draws := ds }) hw ht
        rw [← hroot]
        exact hspec
  unfold newUuid at hr
  exact hloop s.draws s h rfl hr

/-- A raise gives every entry a uuid of its own and changes nothing else of it. -/
theorem giveUuids_ok {l' : List Snapshot} {given : List Nat}
    (hr : giveUuids l given s = (.ok l', t)) :
    l'.map Snapshot.name = l.map Snapshot.name ∧ (∀ e ∈ l', e.uuid ≠ 0 ∧ e.uuid ∉ given) ∧
      (l'.map Snapshot.uuid).Nodup := by
  induction l generalizing l' given s with
  | nil =>
    obtain ⟨rfl, rfl⟩ : [] = l' ∧ s = t := by simpa [giveUuids] using hr
    simp
  | cons e es ih =>
    obtain ⟨u, v, hu, hr⟩ := bind_eq_ok.mp hr
    obtain ⟨rest, w, hw, hr⟩ := bind_eq_ok.mp hr
    obtain ⟨rfl, rfl⟩ : _ = l' ∧ w = t := by simpa using hr
    have hq := (Quiet.newUuid given).of_run hu
    obtain ⟨hu0, hug, -⟩ := newUuid_ok h hu
    obtain ⟨hn, hz, hnd⟩ := ih (hq.walks h) hw
    refine ⟨by simp [hn], ?_, ?_⟩
    · intro x hx
      rcases mem_cons.mp hx with rfl | hx
      · exact ⟨hu0, hug⟩
      · obtain ⟨h0, hg⟩ := hz x hx
        exact ⟨h0, fun hin => hg (mem_append_left _ hin)⟩
    · rw [map_cons, nodup_cons]
      refine ⟨?_, hnd⟩
      intro hin
      obtain ⟨x, hx, heq⟩ := mem_map.mp hin
      exact (hz x hx).2 (by rw [heq]; simp)

end

theorem read_ok (hr : read s = (.ok r, t)) :
    12 ≤ s.root.version ∧ s.root.record = .block r ∧ rollbackCheck r = true := by
  unfold read at hr
  simp only [gets_bind] at hr
  split at hr
  · cases hr
  · rename_i hz
    simp only [Bool.or_eq_true, decide_eq_true_eq, beq_iff_eq, not_or, Nat.not_lt] at hz
    obtain ⟨c, v, -, hr⟩ := bind_eq_ok.mp hr
    cases c with
    | error e => cases hr
    | ok a =>
      have hp : rollbackParse s.root.record = .ok r := (Prod.mk.inj hr).1
      cases hb : s.root.record with
      | none | damaged => simp [hb, rollbackParse] at hp
      | block r' =>
        rw [hb, rollbackParse] at hp
        split at hp
        · rename_i hc
          obtain rfl : r' = r := by simpa using hp
          exact ⟨hz.1, rfl, hc⟩
        · cases hp

/-! ## The invariant of a root -/

def Listed (R : Root) (u : Nat) : Prop := ∃ e ∈ R.snaps, e.uuid = u

/-- A record this root may name: it passes its check once sealed, and the snapshots it
keeps are on the list. -/
structure GoodRec (R : Root) (r : RollbackRec) : Prop where
  version : 12 ≤ R.version
  check : rollbackCheck { r with isSealed := true } = true
  safety : Listed R r.safetyUuid
  target : r.state = statePending → Listed R r.targetUuid

/-- **What every root keeps.** -/
structure RootOk (R : Root) : Prop where
  uuid_ne : 12 ≤ R.version → ∀ e ∈ R.snaps, e.uuid ≠ 0
  uuid_nodup : 12 ≤ R.version → (R.snaps.map Snapshot.uuid).Nodup
  not_damaged : R.record ≠ .damaged
  sealed : ∀ r, R.record = .block r → r.isSealed = true
  good : ∀ r, R.record = .block r → GoodRec R r

/-- Both the open transaction and the last root keep it. -/
structure Sound (s : Rb) : Prop where
  root : RootOk s.root
  disk : RootOk s.disk

theorem RootOk.generation (h : RootOk R) (g : Nat) :
    RootOk { R with generation := g } :=
  { h with good := fun r hr => { h.good r hr with } }

theorem RootOk.check (h : RootOk R) (hr : R.record = .block r) :
    rollbackCheck r = true := by
  have hc := (h.good r hr).check
  have hs := h.sealed r hr
  obtain ⟨sl, st, fl, tu, su, ti, si, g⟩ := r
  obtain rfl : sl = true := hs
  exact hc

theorem RootOk.of_none (hr : R.record = .none) (hz : 12 ≤ R.version → ∀ e ∈ R.snaps, e.uuid ≠ 0)
    (hn : 12 ≤ R.version → (R.snaps.map Snapshot.uuid).Nodup) : RootOk R :=
  ⟨hz, hn, by simp [hr], by simp [hr], by simp [hr]⟩

theorem RootOk.noRecord (h : RootOk R) : RootOk { R with record := .none } :=
  .of_none rfl h.uuid_ne h.uuid_nodup

theorem RootOk.withRecord (h : RootOk R) (hr : GoodRec R r) :
    RootOk { R with record := .block { r with isSealed := true } } := by
  refine ⟨h.uuid_ne, h.uuid_nodup, by simp, ?_, ?_⟩
  · intro r' hr'
    obtain rfl := RecordBlock.block.inj hr'
    rfl
  · intro r' hr'
    obtain rfl := RecordBlock.block.inj hr'
    exact { hr with }

/-! ## Commits -/

/-- What commits and silent calls do: the open transaction is the same but for its
number, and the last root is the old one or the open transaction. -/
structure Settles (s t : Rb) : Prop where
  root : ∃ g, t.root = { s.root with generation := g }
  disk : t.disk = s.disk ∨ ∃ g, t.disk = { s.root with generation := g }
  walks : s.walks = [] → t.walks = []
  mem : s.snapMaxId ≤ t.snapMaxId

theorem Silent.settles (h : Silent s t) : Settles s t :=
  ⟨⟨s.root.generation, h.root⟩, Or.inl h.disk, h.walks, h.mem⟩

theorem Settles.sound (h : Settles s t) (hs : Sound s) : Sound t := by
  obtain ⟨⟨g, hroot⟩, hdisk, -, -⟩ := h
  refine ⟨?_, ?_⟩
  · rw [hroot]
    exact hs.root.generation g
  · rcases hdisk with hdisk | ⟨g', hdisk⟩
    · rw [hdisk]
      exact hs.disk
    · rw [hdisk]
      exact hs.root.generation g'

theorem Settles.trans (s t u : Rb) (h₁ : Settles s t) (h₂ : Settles t u) : Settles s u := by
  obtain ⟨⟨g, hr⟩, hd, hw, hm⟩ := h₁
  obtain ⟨⟨g', hr'⟩, hd', hw', hm'⟩ := h₂
  refine ⟨⟨g', by rw [hr', hr]⟩, ?_, fun h => hw' (hw h), hm.trans hm'⟩
  rcases hd' with hd' | ⟨g'', hd'⟩
  · rw [hd']
    exact hd
  · exact Or.inr ⟨g'', by rw [hd', hr]⟩

theorem Quiet.settles (h : Quiet m) : Moves Settles m :=
  fun s => (h s).settles

theorem cfsCommit_settles : Moves Settles cfsCommit := by
  refine Moves.bind Settles.trans (Quiet.gets _).settles fun f => ?_
  cases f with
  | some e => exact (Quiet.fail e).settles
  | none =>
    refine Moves.bind Settles.trans Quiet.nextOutcome.settles fun o => ?_
    cases o with
    | ok => exact Moves.modify fun s => ⟨⟨_, rfl⟩, Or.inr ⟨_, rfl⟩, id, le_rfl⟩
    | error e => exact (Quiet.fail e).settles
    | abandon e => exact (Quiet.bind (Quiet.cfsFail e) fun _ => Quiet.fail e).settles
    | late e =>
      refine Moves.bind Settles.trans (Moves.modify fun s => ?_) fun _ => (Quiet.fail e).settles
      exact ⟨⟨s.root.generation, rfl⟩, Or.inr ⟨_, rfl⟩, id, le_rfl⟩

theorem commit_settles : Moves Settles commit := by
  refine Moves.bind Settles.trans (Moves.attempt cfsCommit_settles) fun r => ?_
  cases r with
  | ok a => exact (Quiet.pure ()).settles
  | error e => exact (Quiet.bind (Quiet.cfsFail e) fun _ => Quiet.fail e).settles

/-! ## Contracts -/

/-- Both roots are sound, `F` holds of the open transaction, and where `W` says so the list can
be read. -/
structure At (W : Prop) (F : Root → Prop) (s : Rb) : Prop where
  sound : Sound s
  walks : W → s.walks = []
  root : F s.root

/-- **A contract on the open transaction**, with both roots sound wherever the call stops. -/
abbrev Safe (W : Prop) (F : Root → Prop) (m : RM α) (G : α → Root → Prop) : Prop :=
  Triple (At W F) m (fun a => At W (G a)) fun _ => Sound

theorem safe_pure {a : α} (h : ∀ R, F R → G a R) : Safe W F (pure a) G :=
  Triple.pure fun s hs => { hs with root := h s.root hs.root }

theorem safe_fail {err : Errno} : Safe W F (fail err) G := Triple.fail fun _ hs => hs.sound

theorem Safe.pre (h : Safe W F m G) (hF : ∀ R, F' R → F R) : Safe W F' m G :=
  Triple.pre h fun s hs => { hs with root := hF s.root hs.root }

theorem Safe.post (h : Safe W F m G) (hG : ∀ a R, G a R → G' a R) : Safe W F m G' :=
  Triple.post h fun a s hs => { hs with root := hG a s.root hs.root }

/-- What is read of the open transaction is known afterwards. -/
theorem safe_gets {f : Root → β} {k : β → RM α}
    (h : ∀ b, Safe W (fun R => F R ∧ f R = b) (k b) G) :
    Safe W F (gets (fun s => f s.root) >>= k) G :=
  fun s hs => h (f s.root) s { hs with root := ⟨hs.root, rfl⟩ }

/-- A computation that only settles keeps what is said of the open transaction apart from its
number. -/
theorem settles_safe (h : Moves Settles m) (hF : ∀ R g, F R → F { R with generation := g }) :
    Safe W F m fun _ => F := by
  refine Moves.triple h (fun s t ht hs => ?_) fun s t ht hs => ht.sound hs.sound
  refine ⟨ht.sound hs.sound, fun w => ht.walks (hs.walks w), ?_⟩
  obtain ⟨⟨g, hr⟩, -⟩ := ht
  rw [hr]
  exact hF _ g hs.root

theorem settles_any (h : Moves Settles m) : Safe W F m fun _ _ => True :=
  (settles_safe (F := fun _ => True) h fun _ _ h => h).pre fun _ _ => trivial

theorem quiet_reads (h : Quiet m) (hG : ∀ s a t, At W F s → m s = (.ok a, t) → G a s.root) :
    Safe W F m fun a R => F R ∧ G a R := by
  intro s hs
  refine ⟨fun a t ht => ?_, fun e t ht => (h.of_run ht).settles.sound hs.sound⟩
  have hq := h.of_run ht
  refine ⟨hq.settles.sound hs.sound, fun w => hq.walks (hs.walks w), ?_⟩
  rw [hq.root]
  exact ⟨hs.root, hG s a t hs ht⟩

theorem quiet_safe (h : Quiet m) : Safe W F m fun _ => F :=
  (quiet_reads (G := fun _ _ => True) h fun _ _ _ _ _ => trivial).post fun _ _ h => h.1

/-! ## Taking a snapshot -/

/-- A uuid handed to `createEx` is not one of the list's. -/
def FreshFor (uuid : Option Nat) (R : Root) : Prop :=
  ∀ u, uuid = some u → u ≠ 0 ∧ (12 ≤ R.version → ∀ e ∈ R.snaps, e.uuid ≠ u)

/-- What holds while a snapshot is being taken: the list has these names and not the new
uuid. -/
structure Taking (ns : List (List UInt8)) (uuid : Option Nat) (R : Root) : Prop where
  names : R.snaps.map Snapshot.name = ns
  fresh : FreshFor uuid R

theorem snapWalk_ok (h : snapWalk s = (.ok l, t)) :
    l = s.root.snaps := by
  unfold snapWalk at h
  split at h
  · exact (Except.ok.inj (Prod.mk.inj h).1).symm
  · exact (Except.ok.inj (Prod.mk.inj h).1).symm
  · cases h

theorem RootOk.record_none (h : RootOk R) (hv : R.version < 12) : R.record = .none := by
  cases hr : R.record with
  | none => rfl
  | damaged => exact absurd hr h.not_damaged
  | block r =>
    have h12 := (h.good r hr).version
    omega

theorem Quiet.raisePlan (reserved : List Nat) : Quiet (raisePlan reserved) :=
  Quiet.bind Quiet.snapWalk fun l => Quiet.bind Quiet.call fun _ => Quiet.giveUuids l reserved

theorem raisePlan_ok {reserved : List Nat} (h : s.walks = [])
    (hr : raisePlan reserved s = (.ok l, t)) :
    l.map Snapshot.name = s.root.snaps.map Snapshot.name ∧
      (∀ e ∈ l, e.uuid ≠ 0 ∧ e.uuid ∉ reserved) ∧ (l.map Snapshot.uuid).Nodup := by
  obtain ⟨l₀, u, hl, hr⟩ := bind_eq_ok.mp hr
  obtain ⟨_, v, hc, hr⟩ := bind_eq_ok.mp hr
  have h1 := Quiet.snapWalk.of_run hl
  have h2 := Quiet.call.of_run hc
  obtain rfl := snapWalk_ok hl
  exact giveUuids_ok (h2.walks (h1.walks h)) hr

/-- A list given uuids of its own replaces one that had none. -/
theorem raiseApply_spec (hn : l.map Snapshot.name = ns)
    (hz : ∀ e ∈ l, e.uuid ≠ 0 ∧ e.uuid ∉ uuid.toList) (hnd : (l.map Snapshot.uuid).Nodup)
    (hu : ∀ u, uuid = some u → u ≠ 0) :
    Safe W (fun R => R.version < 12) (raiseApply l)
      fun _ R => Taking ns uuid R ∧ 12 ≤ R.version := by
  have hz0 : ∀ e ∈ l, e.uuid ≠ 0 := fun e he => (hz e he).1
  refine Triple.bind (quiet_safe (Quiet.orAbandon Quiet.call)) fun _ => Triple.bind
    (Q := fun _ => At W fun R => R.version = 12 ∧ R.record = .none) (Triple.modify ?_) fun _ =>
      Triple.bind (quiet_safe (Quiet.orAbandon Quiet.call)) fun _ => Triple.modify ?_
  · rintro s ⟨hs, hw, hv⟩
    have hr := hs.root.record_none hv
    exact ⟨⟨.of_none hr (by simp) (by simp), hs.disk⟩, hw, rfl, hr⟩
  · rintro s ⟨hs, hw, hv, hr⟩
    refine ⟨⟨.of_none hr (fun _ => hz0) fun _ => hnd, hs.disk⟩, hw, ⟨hn, ?_⟩, hv.ge⟩
    rintro u rfl
    refine ⟨hu u rfl, fun _ e he heq => ?_⟩
    exact (hz e he).2 (by simp [heq])

/-- A raise keeps the names and gives no entry the reserved uuid. -/
theorem snapRaise_spec : Safe True (Taking ns uuid) (snapRaise uuid.toList)
    fun _ R => Taking ns uuid R ∧ 12 ≤ R.version := by
  refine safe_gets fun v => ?_
  split
  · rename_i hv
    refine safe_pure fun R hR => ?_
    obtain ⟨htk, rfl⟩ := hR
    exact ⟨htk, hv⟩
  split
  · exact safe_fail
  have hplan := quiet_reads (W := True) (Quiet.raisePlan uuid.toList)
    (F := fun R => Taking ns uuid R ∧ R.version < 12)
    (G := fun l R => l.map Snapshot.name = R.snaps.map Snapshot.name ∧
      (∀ e ∈ l, e.uuid ≠ 0 ∧ e.uuid ∉ uuid.toList) ∧ (l.map Snapshot.uuid).Nodup)
    fun s l t hs hr => raisePlan_ok (hs.walks trivial) hr
  refine Triple.bind (hplan.pre ?_) fun l s hs => ?_
  · rintro R ⟨htk, rfl⟩
    exact ⟨htk, by omega⟩
  · obtain ⟨⟨htk, hlt⟩, hn, hz, hnd⟩ := hs.root
    exact raiseApply_spec (hn.trans htk.names) hz hnd (fun u hu => (htk.fresh u hu).1) s
      { hs with root := hlt }

/-- An entry with a uuid of its own joins the list. -/
theorem RootOk.insert (h : RootOk R) {n : Nat} (hn : n ≤ R.snaps.length) (h0 : e.uuid ≠ 0)
    (hu : 12 ≤ R.version → ∀ x ∈ R.snaps, x.uuid ≠ e.uuid) (c m : Nat) :
    RootOk { R with snaps := R.snaps.insertIdx n e, chain := c, maxIdMark := m } := by
  have hlist : ∀ u, Listed R u →
      Listed { R with snaps := R.snaps.insertIdx n e, chain := c, maxIdMark := m } u := by
    rintro u ⟨x, hx, rfl⟩
    exact ⟨x, (mem_insertIdx hn).mpr (Or.inr hx), rfl⟩
  refine ⟨?_, ?_, h.not_damaged, h.sealed, ?_⟩
  · intro hv x hx
    rcases (mem_insertIdx hn).mp hx with rfl | hx
    · exact h0
    · exact h.uuid_ne hv x hx
  · intro hv
    have hp : (R.snaps.insertIdx n e).Perm (e :: R.snaps) := perm_insertIdx e R.snaps hn
    rw [(hp.map Snapshot.uuid).nodup_iff, map_cons, nodup_cons]
    refine ⟨?_, h.uuid_nodup hv⟩
    intro hin
    obtain ⟨x, hx, heq⟩ := mem_map.mp hin
    exact hu hv x hx heq
  · intro r hr
    have hg := h.good r hr
    exact ⟨hg.version, hg.check, hlist _ hg.safety, fun hp => hlist _ (hg.target hp)⟩

theorem foldl_max_le {l : List Nat} {a n : Nat} :
    l.foldl max a ≤ n ↔ a ≤ n ∧ ∀ x ∈ l, x ≤ n := by
  induction l generalizing a with
  | nil => simp
  | cons x l ih => simp [ih, and_assoc]

theorem Quiet.snapMaxId : Quiet snapMaxId :=
  Quiet.bind Quiet.snapWalk fun _ _ => ⟨rfl, rfl, id, (foldl_max_le.mp le_rfl).1⟩

theorem Quiet.maxId : Quiet maxId := by
  refine Quiet.bind Quiet.snapMaxId fun mem => Quiet.bind (Quiet.bind (Quiet.gets _) fun R => ?_)
    fun _ => Quiet.pure _
  split
  · exact Quiet.pure _
  · refine Quiet.bind (Quiet.attempt Quiet.snapWalk) fun r => ?_
    cases r <;> exact Quiet.pure _

theorem Quiet.entryUuid (uuid : Option Nat) : Quiet (entryUuid uuid) := by
  cases uuid with
  | none => exact Quiet.newUuid []
  | some u => exact Quiet.pure u

section

variable (name : List UInt8) (rdonly : Bool)

/-- The new entry, with a fresh uuid, is on the list afterwards. -/
theorem addEntry_spec (top : Nat) (h0 : u ≠ 0) :
    Safe W (fun R => 12 ≤ R.version ∧ ∀ x ∈ R.snaps, x.uuid ≠ u) (addEntry name top u)
      fun e R => 12 ≤ R.version ∧ e ∈ R.snaps ∧ e.uuid = u ∧ e.name = name := by
  refine Triple.gets_skip fun R => Triple.gets_skip fun m => Triple.bind
    (quiet_safe (Quiet.orAbandon Quiet.call)) fun _ => Triple.bind
    (Q := fun _ => At W fun R' => 12 ≤ R'.version ∧ newEntry R (max top m + 1) u name ∈ R'.snaps)
    (Triple.modify ?_) fun _ => safe_pure fun R hR => ⟨hR.1, hR.2, rfl, rfl⟩
  rintro s ⟨hs, hw, hv, hu⟩
  have hn : (if s.root.full then 0 else min s.slot s.root.snaps.length) ≤ s.root.snaps.length := by
    split <;> omega
  refine ⟨⟨hs.root.insert hn h0 (fun _ => hu) _ _, hs.disk⟩, hw, hv, ?_⟩
  exact (mem_insertIdx hn).mpr (Or.inl rfl)

/-- **A snapshot taken** is on the list under a name and a uuid the list did not have. -/
theorem createEx_spec (ns : List (List UInt8)) {name : List UInt8} :
    Safe True (Taking ns uuid) (createEx name uuid) fun e R => name ∉ ns ∧ 12 ≤ R.version ∧
      e ∈ R.snaps ∧ e.name = name ∧ ∀ u, uuid = some u → e.uuid = u := by
  unfold createEx
  split
  · exact safe_fail
  have hfind := quiet_reads (Quiet.find name) (W := True) (F := Taking ns uuid)
    (G := fun r _ => r = Option.none → name ∉ ns) (by
      intro s r t hs hr hnone hin
      rw [find_run (hs.walks trivial)] at hr
      have hr' : (s.root.snaps.find? fun e => e.name == name) = r := by
        simpa using (Prod.mk.inj hr).1
      rw [hnone, List.find?_eq_none] at hr'
      rw [← hs.root.names] at hin
      obtain ⟨e, he, hen⟩ := mem_map.mp hin
      exact hr' e he (by simp [hen]))
  refine Triple.bind hfind fun r => Triple.gets_skip fun v => ?_
  split
  · exact safe_fail
  rename_i hsome
  have hrn : r = Option.none := by simpa using hsome
  split
  · exact safe_fail
  refine Triple.bind (settles_safe cfsCommit_settles fun R g h => ⟨{ h.1 with }, h.2⟩) fun _ =>
    Triple.bind (quiet_safe Quiet.maxId) fun top => ?_
  split
  · exact safe_fail
  intro s hs
  have hname := hs.root.2 hrn
  have huuid := quiet_reads (Quiet.entryUuid uuid) (W := True)
    (F := fun R => Taking ns uuid R ∧ 12 ≤ R.version)
    (G := fun u R => u ≠ 0 ∧ (∀ x ∈ R.snaps, x.uuid ≠ u) ∧ ∀ u', uuid = some u' → u = u') (by
      intro s u t hs hr
      cases uuid with
      | none =>
        obtain ⟨h0, -, hf⟩ := newUuid_ok (hs.walks trivial) hr
        exact ⟨h0, hf hs.root.2, fun u' h => absurd h (by simp)⟩
      | some u' =>
        obtain ⟨rfl, rfl⟩ : u' = u ∧ s = t := by simpa [entryUuid] using hr
        obtain ⟨h0, hf⟩ := hs.root.1.fresh u' rfl
        exact ⟨h0, hf hs.root.2, fun u'' h => Option.some.inj h⟩)
  -- the list of version 12, without the new uuid
  refine (Triple.bind snapRaise_spec fun _ => Triple.bind (quiet_safe Quiet.call) fun _ =>
    Triple.bind huuid fun u => ?_) s { hs with root := hs.root.1 }
  intro s hs
  obtain ⟨⟨-, hv⟩, h0, hf, heq⟩ := hs.root
  refine ((addEntry_spec name top h0).post fun e R hR => ?_) s { hs with root := ⟨hv, hf⟩ }
  obtain ⟨hv', he, hu, hn⟩ := hR
  exact ⟨hname, hv', he, hn, fun u' h => hu.trans (heq u' h)⟩

/-! ## Each operation keeps the invariant -/

theorem write_spec (r : Option RollbackRec) :
    Safe W (fun R => ∀ x, r = some x → GoodRec R x) (write r)
      fun _ R => r = Option.none → R.record = .none := by
  cases r with
  | none =>
    refine Triple.bind (Q := fun _ => At W fun R => R.record = .none) (Triple.modify ?_)
      fun _ => safe_pure fun R hR _ => hR
    rintro s ⟨hs, hw, -⟩
    exact ⟨⟨hs.root.noRecord, hs.disk⟩, hw, rfl⟩
  | some r =>
    refine Triple.bind (Q := fun _ => At W fun R => GoodRec R r) (Triple.modify ?_) fun _ =>
      Triple.bind (quiet_safe Quiet.call) fun _ => Triple.modify ?_
    · rintro s ⟨hs, hw, hr⟩
      exact ⟨⟨hs.root.noRecord, hs.disk⟩, hw, { hr r rfl with }⟩
    · rintro s ⟨hs, hw, hr⟩
      exact ⟨⟨hs.root.withRecord hr, hs.disk⟩, hw, by simp⟩

/-- A commit keeps what the open transaction says of the record. -/
theorem commits_safe {F : RecordBlock → Prop} {m : RM Unit} (h : Moves Settles m) :
    Safe W (fun R => F R.record) m fun _ R => F R.record :=
  settles_safe (F := fun R => F R.record) h fun _ _ h => h

theorem drop_spec {k : RM α} (hk : Safe W (fun R => R.record = .none) k G) :
    Safe W F (do cfsCommit; write Option.none; k) G :=
  Triple.bind (settles_any cfsCommit_settles) fun _ => Triple.bind
    ((write_spec Option.none).pre (by simp)) fun _ => hk.pre fun _ h => h rfl

theorem orAbandon_safe {m : RM Unit} {G : Unit → Root → Prop}
    (h : Triple P m (fun a => At W (G a)) fun _ => Sound) :
    Triple P (orAbandon m) (fun _ => At W fun _ => True) fun _ => Sound := by
  refine Triple.bind (Triple.attempt h) fun r => ?_
  cases r with
  | ok a => exact safe_pure fun _ _ => trivial
  | error e =>
    exact Triple.bind (Q := fun _ => Sound) (Triple.modify fun _ hs => ⟨hs.root, hs.disk⟩)
      fun _ => Triple.fail fun _ hs => hs

theorem read_safe : Safe W F (attempt read)
    fun c R => F R ∧ ∀ r, c = .ok r → R.record = .block r := by
  refine quiet_reads Quiet.read.attempt fun s c t _ ht r hr => ?_
  have hc : (read s).1 = c := by simpa using (Prod.mk.inj ht).1
  exact (read_ok (Prod.ext (hc.trans hr) rfl)).2.1

theorem rollbackCheck_iff (r : RollbackRec) : rollbackCheck r = true ↔
    r.isSealed = true ∧ (r.state = statePending ∨ r.state = stateHeld) ∧
      r.flags &&& (flagFromHeld ^^^ 0xffffffff) = 0 ∧ (r.state = stateHeld → r.flags = 0) ∧
      r.safetyUuid ≠ 0 ∧
      (r.state = statePending → r.targetUuid ≠ 0 ∧ r.targetUuid ≠ r.safetyUuid) := by
  obtain ⟨sl, st, fl, tu, su, ti, si, g⟩ := r
  unfold rollbackCheck
  by_cases h1 : st = statePending <;> by_cases h2 : st = stateHeld <;>
    by_cases h3 : fl &&& (flagFromHeld ^^^ 0xffffffff) = 0 <;> by_cases h4 : su = 0 <;>
    cases sl <;> simp_all

theorem GoodRec.of_held (hst : r.state = stateHeld) (hv : 12 ≤ R.version) (hf : r.flags = 0)
    (h0 : r.safetyUuid ≠ 0) (hl : Listed R r.safetyUuid) : GoodRec R r := by
  have hne : r.state ≠ statePending := by
    rw [hst]
    decide
  refine ⟨hv, (rollbackCheck_iff _).mpr ?_, hl, fun h => absurd h hne⟩
  refine ⟨rfl, Or.inr hst, ?_, fun _ => hf, h0, fun h => absurd h hne⟩
  simp [hf]

theorem GoodRec.heldAgain (h : GoodRec R r) (hp : r.state = statePending) (g : Nat) :
    GoodRec R (heldAgain r g) :=
  have hc := (rollbackCheck_iff _).mp h.check
  .of_held rfl h.version rfl (hc.2.2.2.2.2 hp).1 (h.target hp)

/-- The held record of a switch is one the root may name, if the pending one had no
flag. -/
theorem GoodRec.heldRec (h : GoodRec R r) (hf : r.flags = 0) (g : Nat) :
    GoodRec R (heldRec r g) :=
  have hc := (rollbackCheck_iff _).mp h.check
  .of_held rfl h.version hf hc.2.2.2.2.1 h.safety

theorem cancel_sound : Safe W F cancel fun _ _ => True := by
  refine Triple.bind read_safe fun c => ?_
  cases c with
  | error e =>
    -- a record that does not check out is withdrawn too
    cases e <;> first
      | exact safe_fail
      | exact drop_spec (settles_any commit_settles)
  | ok r =>
    dsimp only
    split
    · exact safe_fail
    rename_i hst
    have hp : r.state = statePending := by simpa using hst
    refine Triple.bind ((commits_safe (F := fun b => b = .block r) cfsCommit_settles).pre
      fun R h => h.2 r rfl) fun _ => Triple.gets_skip fun g => Triple.bind
      (Triple.pre (write_spec _) ?_) fun _ => settles_any commit_settles
    rintro s ⟨hs, hw, hr⟩
    refine ⟨hs, hw, fun x hx => ?_⟩
    split at hx
    · cases hx
      exact (hs.root.good r hr).heldAgain hp g
    · cases hx

/-- **Boot-ok** keeps the invariant, and when it releases a hold no record is left. -/
theorem bootOk_sound : Safe W F bootOk fun b R => b = true → R.record = .none := by
  refine Triple.bind read_safe fun c => ?_
  cases c with
  | error e => exact safe_pure (by simp)
  | ok r =>
    dsimp only
    split
    · exact safe_pure (by simp)
    · exact drop_spec (Triple.bind (commits_safe (F := fun b => b = .none) commit_settles)
        fun _ => safe_pure fun _ h _ => h)

theorem switchTo_sound {t : Snapshot} (hf : r.flags = 0) :
    Safe W (fun R => R.record = .block r) (switchTo t r) fun _ _ => True := by
  have hcall := quiet_safe (W := W) (F := fun R => R.record = .block r) Quiet.call
  refine Triple.bind hcall fun _ => Triple.bind hcall fun _ => Triple.bind hcall fun _ =>
    Triple.bind hcall fun _ => Triple.bind (Q := fun _ => At W fun R => R.record = .block r)
      (Triple.modify ?_) fun _ => Triple.bind hcall fun _ => Triple.gets_skip fun g =>
      Triple.bind (Triple.pre (write_spec _) ?_) fun _ => settles_any cfsCommit_settles
  · rintro s ⟨hs, hw, hr⟩
    have h := hs.root
    exact ⟨⟨{ h with good := fun x hx => { h.good x hx with } }, hs.disk⟩, hw, hr⟩
  · rintro s ⟨hs, hw, hr⟩
    refine ⟨hs, hw, fun x hx => ?_⟩
    cases hx
    exact (hs.root.good r hr).heldRec hf g

/-- A mount's switch applies no record that was asked for under a hold. -/
def NoHeldRequest (R : Root) : Prop :=
  ∀ r, R.record = .block r → r.state = statePending → r.flags = 0

theorem atMount_sound : Safe W NoHeldRequest (atMount rdonly) fun _ _ => True := by
  refine Triple.bind read_safe fun c => ?_
  cases c with
  | error e => exact safe_pure fun _ _ => trivial
  | ok r =>
    dsimp only
    split
    · exact safe_pure fun _ _ => trivial
    rename_i hst
    have hp : r.state = statePending := by simpa using hst
    -- the lookups and the root directory's read change nothing
    refine Triple.bind (quiet_safe (Quiet.lookupUuid r.targetUuid).attempt) fun t => ?_
    cases t with
    | error e => exact safe_pure fun _ _ => trivial
    | ok t =>
      refine Triple.bind (quiet_safe (Quiet.lookupUuid r.safetyUuid).attempt) fun e => ?_
      cases e with
      | error e => exact safe_pure fun _ _ => trivial
      | ok e =>
        dsimp only
        split
        · exact safe_pure fun _ _ => trivial
        refine Triple.bind (quiet_safe Quiet.call.attempt) fun d => ?_
        cases d with
        | error e => exact safe_pure fun _ _ => trivial
        | ok d =>
          dsimp only
          split
          · exact safe_pure fun _ _ => trivial
          · intro s hs
            have hr := hs.root.2 r rfl
            exact (Triple.bind (switchTo_sound (hs.root.1 r hr hp)) fun _ =>
              safe_pure fun _ _ => trivial) s { hs with root := hr }

theorem mount_sound :
    Triple (fun s => Sound s ∧ (rdonly = false → NoHeldRequest s.disk)) (mount rdonly)
      (fun _ => At False fun _ => True) (fun _ => Sound) := by
  refine Triple.bind (Triple.modify (f := reload) (Q := fun _ => At False fun R =>
    rdonly = false → NoHeldRequest R) ?_) fun _ => Triple.gets_skip fun R => ?_
  · rintro s ⟨hs, hno⟩
    exact ⟨⟨hs.disk, hs.disk⟩, False.elim, hno⟩
  split
  · rename_i hc
    have hrw : rdonly = false := by
      simp only [Bool.and_eq_true, Bool.not_eq_true'] at hc
      exact hc.2
    refine Triple.bind (Triple.attempt ((atMount_sound rdonly).pre fun R h => h hrw)) fun c => ?_
    cases c with
    | ok b => exact safe_pure fun _ h => h
    | error e =>
      refine Triple.bind (Q := fun _ => At False fun _ => True) (Triple.modify fun s hs => ?_)
        fun _ => safe_pure fun _ h => h
      exact ⟨⟨hs.disk, hs.disk⟩, False.elim, trivial⟩
  · exact safe_pure fun _ _ => trivial

/-- A request that goes on has found its target, and drawn a uuid the list has not. -/
theorem requestCheck_ok {target name : List UInt8} {given : Option (List UInt8)} {secs : Nat}
    {held : Bool} (hw : s.walks = [])
    (h : requestCheck target given secs s = (.ok (held, name, u), t)) :
    target ∈ s.root.snaps.map Snapshot.name ∧ FreshFor (some u) s.root := by
  unfold requestCheck at h
  simp only [gets_bind] at h
  split at h
  · cases h
  rw [bind_run_ok (find_run hw target)] at h
  cases hf : s.root.snaps.find? fun e => e.name == target with
  | none => simp [hf] at h
  | some x =>
    rw [hf] at h
    dsimp only at h
    have htarget : target ∈ s.root.snaps.map Snapshot.name := by
      have hmem := mem_of_find?_eq_some hf
      have hname := List.find?_some hf
      simp only [beq_iff_eq] at hname
      rw [← hname]
      exact mem_map_of_mem hmem
    split at h
    · cases h
    obtain ⟨c, v, hc, h⟩ := bind_eq_ok.mp h
    have hq := Quiet.read.attempt.of_run hc
    split at h
    · cases h
    obtain ⟨name', w, hn, h⟩ := bind_eq_ok.mp h
    have hq' := (Quiet.safetyName given secs).of_run hn
    obtain ⟨u', z, hu, h⟩ := bind_eq_ok.mp h
    obtain ⟨⟨-, -, rfl⟩, -⟩ : (_ ∧ name' = name ∧ u' = u) ∧ z = t := by simpa using h
    obtain ⟨h0, -, hfresh⟩ := newUuid_ok (hq'.walks (hq.walks hw)) hu
    rw [hq'.1, hq.1] at hfresh
    refine ⟨htarget, fun u'' hu'' => ?_⟩
    cases hu''
    exact ⟨h0, hfresh⟩

/-- The pending record of a request is one the root may name: its target, found by a
name the safety snapshot has not, is another snapshot. -/
theorem pendingRec_good (h : RootOk R) (hv : 12 ≤ R.version) {t : Snapshot} (ht : t ∈ R.snaps)
    (he : e ∈ R.snaps) (hne : t.name ≠ e.name) (held : Bool) (g : Nat) :
    GoodRec R (pendingRec held t e e.uuid g) := by
  have huuid : t.uuid ≠ e.uuid := by
    intro heq
    have := inj_on_of_nodup_map (h.uuid_nodup hv) ht he heq
    exact hne (by rw [this])
  refine ⟨hv, (rollbackCheck_iff _).mpr ?_, ⟨e, he, rfl⟩, fun _ => ⟨t, ht, rfl⟩⟩
  refine ⟨rfl, Or.inl rfl, ?_, ?_, h.uuid_ne hv e he, fun _ => ⟨h.uuid_ne hv t ht, huuid⟩⟩
  · show (if held then flagFromHeld else 0) &&& (flagFromHeld ^^^ 0xffffffff) = 0
    cases held <;> decide
  · intro hst
    exact absurd hst (by decide : statePending ≠ stateHeld)

/-- **A request** keeps the invariant wherever it stops. -/
theorem request_sound (target : List UInt8) (given : Option (List UInt8)) (secs : Nat) :
    Safe True (fun _ => True) (request target given secs) fun _ _ => True := by
  intro s₀ hs₀
  have hcheck := quiet_reads (Quiet.requestCheck target given secs) (W := True)
    (F := fun R => R.snaps.map Snapshot.name = s₀.root.snaps.map Snapshot.name)
    (G := fun c R => target ∈ s₀.root.snaps.map Snapshot.name ∧ FreshFor (some c.2.2) R) (by
      intro s c t hs hr
      obtain ⟨h1, h2⟩ := requestCheck_ok (hs.walks trivial) hr
      exact ⟨hs.root ▸ h1, h2⟩)
  refine (Triple.bind hcheck fun c => ?_) s₀ { hs₀ with root := rfl }
  obtain ⟨held, name, u⟩ := c
  intro s hs
  obtain ⟨hnames, htarget, hfresh⟩ := hs.root
  refine (Triple.bind (createEx_spec _) fun e => ?_) s { hs with root := ⟨hnames, hfresh⟩ }
  intro s hs
  obtain ⟨hname, hv, he, hen, heu⟩ := hs.root
  have hne : target ≠ name := fun h => hname (h ▸ htarget)
  rw [bind_run_ok (find_run (hs.walks trivial) target)]
  cases hf : s.root.snaps.find? fun x => x.name == target with
  | none => exact (Triple.bind (quiet_safe (Quiet.cfsFail .eio)) fun _ => safe_fail) s hs
  | some t =>
    have htm := mem_of_find?_eq_some hf
    have htn : t.name = target := by simpa using List.find?_some hf
    have hgood := fun g => pendingRec_good hs.sound.root hv htm he
      (by rw [htn, hen]; exact hne) held g
    rw [heu u rfl] at hgood
    refine (Triple.gets_skip (P := fun x => x = s) fun g => Triple.bind
      (orAbandon_safe (Triple.pre (write_spec (some (pendingRec held t e u g))) ?_)) fun _ =>
      Triple.bind (settles_any commit_settles) fun _ => safe_pure fun _ h => h) s rfl
    rintro x rfl
    refine { hs with root := fun y hy => ?_ }
    cases hy
    exact hgood g

theorem create_sound : Safe True (fun _ => True) (create name) fun _ _ => True := by
  intro s hs
  refine (Triple.bind (createEx_spec (s.root.snaps.map Snapshot.name)) fun e => Triple.bind
    (settles_any commit_settles) fun _ => safe_pure fun _ h => h) s
    { hs with root := ⟨rfl, fun u hu => absurd hu (by simp)⟩ }

/-! ## What the record protects -/

/-- The record, when there is one, says which snapshots are kept. -/
def keeps (b : RecordBlock) (e : Snapshot) : Bool :=
  match b with
  | .block r =>
    if r.state == statePending then r.safetyUuid == e.uuid || r.targetUuid == e.uuid
    else r.safetyUuid == e.uuid
  | _ => false

theorem protects_run (h : RootOk s.root) (ho : s.outcomes = []) (e : Snapshot) :
    protects e s = (.ok (keeps s.root.record e), s) := by
  have hcall : call s = (.ok (), s) := by
    simp [call, nextOutcome, ho, bind_run]
  cases hr : s.root.record with
  | none =>
    have hread : read s = (.error .enoent, s) := by
      simp [read, hr]
    simp [protects, bind_run, attempt, hread, keeps]
  | damaged => exact absurd hr h.not_damaged
  | block r =>
    have hv := (h.good r hr).version
    have hlow : ¬ s.root.version < 12 := by omega
    have hread : read s = (.ok r, s) := by
      simp [read, hr, hlow, bind_run, attempt, hcall, rollbackParse, h.check hr]
    simp [protects, bind_run, attempt, hread, keeps]

theorem protects_false (h : RootOk s.root) (hp : protects e s = (.ok false, t)) :
    keeps s.root.record e = false := by
  obtain ⟨c, u, hc, hp⟩ := bind_eq_ok.mp hp
  have hc' : (read s).1 = c := by simpa using (Prod.mk.inj hc).1
  have hu : (read s).2 = u := (Prod.mk.inj hc).2
  cases c with
  | ok r =>
    obtain ⟨-, hr, -⟩ := read_ok (Prod.ext hc' hu)
    rw [hr]
    simpa [keeps] using (Prod.mk.inj hp).1
  | error er =>
    cases hr : s.root.record with
    | none => rfl
    | damaged => exact absurd hr h.not_damaged
    | block r =>
      -- a record that is there does not read as absent
      have hv := (h.good r hr).version
      have hlow : ¬ s.root.version < 12 := by omega
      have hne : er ≠ .enoent := by
        rintro rfl
        unfold read at hc'
        simp only [gets_bind, hr, hlow] at hc'
        simp only [decide_false, Bool.false_or, beq_iff_eq, reduceCtorEq, if_false] at hc'
        rw [bind_run] at hc'
        simp only [attempt] at hc'
        cases hcall : (call s).1 with
        | ok a => simp [hcall, rollbackParse, h.check hr] at hc'
        | error e' => simp [hcall] at hc'
      cases er <;> first
        | exact absurd rfl hne
        | cases hp

/-- Deleting a snapshot the record does not keep leaves those it keeps on the list. -/
theorem RootOk.erase (h : RootOk R) (he : keeps R.record e = false) :
    RootOk { R with snaps := R.snaps.erase e } := by
  have hsub : (R.snaps.erase e).Sublist R.snaps := erase_sublist
  refine ⟨?_, ?_, h.not_damaged, h.sealed, ?_⟩
  · exact fun hv x hx => h.uuid_ne hv x (hsub.subset hx)
  · exact fun hv => (hsub.map Snapshot.uuid).nodup (h.uuid_nodup hv)
  · intro r hr
    have hr' : R.record = .block r := hr
    have hg := h.good r hr'
    have hstay : ∀ u, u ≠ e.uuid → Listed R u → Listed { R with snaps := R.snaps.erase e } u := by
      rintro u hu ⟨x, hx, rfl⟩
      have hne : x ≠ e := fun hxe => hu (by rw [hxe])
      exact ⟨x, (mem_erase_of_ne hne).mpr hx, rfl⟩
    rw [hr'] at he
    by_cases hp : r.state = statePending
    · simp only [keeps, hp, beq_self_eq_true, if_true, Bool.or_eq_false_iff,
        beq_eq_false_iff_ne] at he
      exact ⟨hg.version, hg.check, hstay _ he.1 hg.safety, fun _ => hstay _ he.2 (hg.target hp)⟩
    · simp only [keeps, beq_iff_eq, hp, if_false, beq_eq_false_iff_ne] at he
      exact ⟨hg.version, hg.check, hstay _ he hg.safety, fun h => absurd h hp⟩

theorem delete_sound : Safe W F (delete name) fun _ _ => True := by
  refine Triple.bind (quiet_safe Quiet.snapWalk) fun l => ?_
  split
  · exact safe_fail
  rename_i e _
  have hprot := quiet_reads (Quiet.protects e) (W := W) (F := F)
    (G := fun b R => b = false → keeps R.record e = false) (by
      rintro s b t hs ht rfl
      exact protects_false hs.sound.root ht)
  refine Triple.bind hprot fun b => ?_
  split
  · exact safe_fail
  rename_i hb
  split
  · exact safe_fail
  refine Triple.bind (quiet_safe Quiet.call) fun _ => Triple.bind
    (quiet_safe (Quiet.orAbandon Quiet.call)) fun _ => Triple.bind
    (Q := fun _ => At W fun _ => True) (Triple.modify ?_) fun _ =>
      settles_any commit_settles
  rintro s ⟨hs, hw, -, hk⟩
  exact ⟨⟨hs.root.erase (hk (by simpa using hb)), hs.disk⟩, hw, trivial⟩

end

/-! ## Runs -/

/-- An operation on the pool. -/
inductive Op
  | request (target : List UInt8) (given : Option (List UInt8)) (secs : Nat)
  | cancel
  | bootOk
  | mount (rdonly : Bool)
  | create (name : List UInt8)
  | delete (name : List UInt8)
  | dropRecord
  | commit

/-- Run it, whatever it returns. -/
def Op.run : Op → RM Unit
  | .request target given secs => do
    let _ ← Rollback.request target given secs
    pure ()
  | .cancel => Rollback.cancel
  | .bootOk => do
    let _ ← Rollback.bootOk
    pure ()
  | .mount rdonly => do
    let _ ← Rollback.mount rdonly
    pure ()
  | .create name => do
    let _ ← Rollback.create name
    pure ()
  | .delete name => Rollback.delete name
  | .dropRecord => Rollback.dropRecord
  | .commit => cfsCommit

/-- How everything outside the protocol goes during one operation. -/
structure Env where
  walks : List (Option Errno)
  outcomes : List Outcome
  draws : List Nat
  slot : Nat

/-- The state an operation starts in. -/
def Rb.under (s : Rb) (env : Env) : Rb :=
  { s with walks := env.walks, outcomes := env.outcomes, draws := env.draws, slot := env.slot }

/-- One operation, failing or not. -/
def step (op : Op) (env : Env) (s : Rb) : Rb := (op.run (s.under env)).2

/-- A step apart from the two in question: a writable mount that finds a record asked for
under a hold, and an operation that takes a snapshot while the list cannot be read. -/
def Plain : Op → Env → Rb → Prop
  | .request _ _ _, env, _ => env.walks = []
  | .create _, env, _ => env.walks = []
  | .mount rdonly, _, s => rdonly = false → NoHeldRequest s.disk
  | _, _, _ => True

/-- The states a run of plain steps reaches. -/
inductive Reaches (s : Rb) : Rb → Prop
  | start : Reaches s s
  | step {t : Rb} (op : Op) (env : Env) (h : Reaches s t) (hp : Plain op env t) :
      Reaches s (step op env t)

section

variable (h : Triple P m (fun a => At W (G a)) fun _ => Sound) (hs : P s)

include h hs

theorem sound_after : Sound (m s).2 := by
  cases hr : m s with
  | mk r t =>
    cases r with
    | ok a => exact ((h s hs).1 a t hr).sound
    | error e => exact (h s hs).2 e t hr

theorem sound_after_unit : Sound ((m >>= fun _ => pure ()) s).2 :=
  sound_after (Triple.bind h fun _ => safe_pure (G := fun _ _ => True) fun _ _ => trivial) hs

end

theorem dropRecord_sound : Safe W (fun _ => True) dropRecord fun _ _ => True := by
  refine Triple.gets_skip fun R => ?_
  split
  · exact safe_pure fun _ h => h
  · exact ((write_spec Option.none).pre (by simp)).post fun _ _ _ => trivial

/-- **One step** keeps the invariant. -/
theorem step_sound {op : Op} {env : Env} (hs : Sound s) (hp : Plain op env s) :
    Sound (step op env s) := by
  have hu : Sound (s.under env) := ⟨hs.root, hs.disk⟩
  have hat : At False (fun _ => True) (s.under env) := ⟨hu, False.elim, trivial⟩
  cases op with
  | request target given secs =>
    exact sound_after_unit (request_sound target given secs) ⟨hu, fun _ => hp, trivial⟩
  | cancel => exact sound_after cancel_sound hat
  | bootOk => exact sound_after_unit bootOk_sound hat
  | mount rdonly => exact sound_after_unit (mount_sound rdonly) ⟨hu, hp⟩
  | create name => exact sound_after_unit (create_sound name) ⟨hu, fun _ => hp, trivial⟩
  | delete name => exact sound_after (delete_sound name) hat
  | dropRecord => exact sound_after dropRecord_sound hat
  | commit => exact sound_after (settles_any cfsCommit_settles) hat

/-- **A run** keeps it. -/
theorem Reaches.sound (hs : Sound s) (h : Reaches s t) : Sound t := by
  induction h with
  | start => exact hs
  | step op env _ hp ih => exact step_sound ih hp

/-- The record's block can be read, and keeps `e` from deletion. -/
def Protected (s : Rb) (e : Snapshot) : Prop :=
  (protects e { s with outcomes := [] }).1 = .ok true

theorem protected_iff (h : RootOk s.root) (e : Snapshot) :
    Protected s e ↔ keeps s.root.record e = true := by
  unfold Protected
  rw [protects_run (s := { s with outcomes := [] }) h rfl e]
  simp

theorem RootOk.uuid_iff (h : RootOk R) (hv : 12 ≤ R.version) {x : Snapshot} (he : e ∈ R.snaps)
    (hx : x ∈ R.snaps) : x.uuid = e.uuid ↔ e = x := by
  constructor
  · exact fun heq => (inj_on_of_nodup_map (h.uuid_nodup hv) hx he heq).symm
  · exact fun heq => by rw [heq]

/-- **Runs of the rollback protocol.**  In every state a run of plain steps reaches, the
record on the pool passes its check; the snapshots kept are the target and the safety
snapshot while the record is pending, the safety snapshot while it is held, none without
one; and a boot-ok that releases the hold leaves no snapshot kept. -/
theorem rollback_run (hs : Sound s) (h : Reaches s t) :
    t.disk.record ≠ .damaged ∧ (∀ r, t.disk.record = .block r → rollbackCheck r = true) ∧
    (∀ r, t.root.record = .block r → r.state = statePending →
      ∃ target ∈ t.root.snaps, ∃ safety ∈ t.root.snaps, target.uuid = r.targetUuid ∧
        safety.uuid = r.safetyUuid ∧ target ≠ safety ∧
        ∀ e ∈ t.root.snaps, Protected t e ↔ e = target ∨ e = safety) ∧
    (∀ r, t.root.record = .block r → r.state = stateHeld →
      ∃ safety ∈ t.root.snaps, safety.uuid = r.safetyUuid ∧
        ∀ e ∈ t.root.snaps, Protected t e ↔ e = safety) ∧
    (t.root.record = .none → ∀ e, ¬ Protected t e) ∧
    (∀ env u, bootOk (t.under env) = (.ok true, u) → ∀ e, ¬ Protected u e) := by
  have ht := h.sound hs
  refine ⟨ht.disk.not_damaged, fun r hr => ht.disk.check hr, ?_, ?_, ?_, ?_⟩
  · intro r hr hp
    have hg := ht.root.good r hr
    obtain ⟨target, htm, htu⟩ := hg.target hp
    obtain ⟨safety, hsm, hsu⟩ := hg.safety
    have hne := (((rollbackCheck_iff r).mp (ht.root.check hr)).2.2.2.2.2 hp).2
    refine ⟨target, htm, safety, hsm, htu, hsu, ?_, fun e he => ?_⟩
    · rintro rfl
      exact hne (htu.symm.trans hsu)
    · rw [protected_iff ht.root, hr]
      simp only [keeps, hp, beq_self_eq_true, if_true, Bool.or_eq_true, beq_iff_eq]
      rw [← htu, ← hsu, ht.root.uuid_iff hg.version he hsm, ht.root.uuid_iff hg.version he htm]
      exact or_comm
  · intro r hr hp
    have hg := ht.root.good r hr
    obtain ⟨safety, hsm, hsu⟩ := hg.safety
    have hnp : ¬ r.state = statePending := by
      rw [hp]
      decide
    refine ⟨safety, hsm, hsu, fun e he => ?_⟩
    rw [protected_iff ht.root, hr]
    simp only [keeps, beq_iff_eq, hnp, if_false]
    rw [← hsu, ht.root.uuid_iff hg.version he hsm]
  · intro hr e
    rw [protected_iff ht.root, hr]
    simp [keeps]
  · intro env u hb e
    have hu := (bootOk_sound (W := False) (F := fun _ => True) (t.under env)
      ⟨⟨ht.root, ht.disk⟩, False.elim, trivial⟩).1 true u hb
    rw [protected_iff hu.sound.root, hu.root rfl]
    simp [keeps]

/-! ## The switch back -/

/-- A snapshot named by one byte. -/
def snapNamed (c : UInt8) (uuid imapRoot : Nat) : Snapshot :=
  ⟨1, imapRoot, 3, 2, 1, 0, 1, uuid, 0, false, [c]⟩

/-- A pool of format 12 with one snapshot, "a", and no record. -/
def firstRb : Rb where
  root := ⟨12, 1, 2, 2, 1, 3, [snapNamed 97 5 9], 1, 1, .none⟩
  disk := ⟨12, 1, 2, 2, 1, 3, [snapNamed 97 5 9], 1, 1, .none⟩
  snapMaxId := 1
  failed := Option.none
  walks := []
  outcomes := []
  draws := []
  slot := 0

/-- Nothing fails, and this uuid is drawn. -/
def calmEnv (draw : Nat) : Env := ⟨[], [], [draw], 0⟩

/-- Rolled back to "a", with the safety snapshot "b" held. -/
def rolledBack : Rb :=
  step (.mount false) (calmEnv 0) (step (.request [97] (some [98]) 0) (calmEnv 100) firstRb)

/-- Then rolled back to "b" before that boot completed. -/
def rolledBackTwice : Rb :=
  step (.mount false) (calmEnv 0) (step (.request [98] (some [99]) 0) (calmEnv 200) rolledBack)

theorem firstRb_sound : Sound firstRb := by
  have h : RootOk firstRb.root := by
    refine .of_none rfl ?_ fun _ => by decide
    intro _ e he
    obtain rfl : e = snapNamed 97 5 9 := mem_singleton.mp he
    decide
  exact ⟨h, h⟩

/-- The switch back leaves a held record with the pending one's flag: it does not pass
its check, keeps even "a" from deletion, and boot-ok does not release it. -/
theorem rolledBackTwice_unreadable :
    Sound firstRb ∧
      (∃ r, rolledBackTwice.disk.record = .block r ∧ r.state = stateHeld ∧
        rollbackCheck r = false ∧ r.safetyUuid ≠ (snapNamed 97 5 9).uuid) ∧
      Protected rolledBackTwice (snapNamed 97 5 9) ∧
      (bootOk (rolledBackTwice.under (calmEnv 0))).1 = .ok false ∧
      (bootOk (rolledBackTwice.under (calmEnv 0))).2.root.record ≠ .none :=
  ⟨firstRb_sound, ⟨_, rfl, rfl, rfl, by decide⟩, rfl, rfl, by decide⟩

/-- The first switch is a plain step: its held record passes. -/
theorem rollback_run_once :
    ∃ r, rolledBack.disk.record = .block r ∧ r.state = stateHeld ∧ rollbackCheck r = true := by
  have hrun : Reaches firstRb rolledBack := by
    refine Reaches.step _ _ (Reaches.step _ _ Reaches.start rfl) ?_
    intro _ r hr _
    obtain rfl := RecordBlock.block.inj hr
    rfl
  exact ⟨_, rfl, rfl, (rollback_run firstRb_sound hrun).2.1 _ rfl⟩

end CosmoOS.Cosmofs.Rollback
