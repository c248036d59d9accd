import Mathlib.Algebra.Group.Nat.Defs
import Mathlib.Data.Finset.Erase
import Mathlib.Data.Finset.Insert
import Mathlib.Data.Finset.Lattice.Basic

/-!
# The storage pool: members, copies and what a copy missed

A member of the pool is a mirror group: up to four copies, each a device that holds the same blocks.
A copy has a state and a record of the *regions* it missed, and only an ONLINE copy is read from,
outside its own missed regions (its holes).  A write goes to every copy that can take it and
succeeds when an ONLINE one did.

The model is `pool.cee`'s.  A device is the function from its blocks to what they hold, a bitmap the
finite set of the regions marked in it, and what the devices answer is a list of return codes used
up one by one (0 when it runs out).  A device write that fails leaves the block as it was.  Members
have a second slot here, so every copy has a bitmap and the member has the one of regions written
since the last root (`memberBitmaps` allocates them before the slot is attached).

Left out: the counters nothing reads, the notifier, the console lines and the flush flags of a
write.
-/

namespace CosmoOS.Storage

/-! ## Return codes -/

def eio : Int := -5

def eagain : Int := -11

def ebusy : Int := -16

def enodev : Int := -19

def einval : Int := -22

/-! ## The state -/

/-- Regions a bitmap has a bit for. -/
def poolDirtyBits : Nat := 7552

inductive CopyState
  | online | missing | offline | faulted | resilvering
  deriving DecidableEq, Repr

/-- One copy of a member (`struct pool_copy`). -/
structure PoolCopy (β : Type) where
  /-- The device's blocks; `none` for an empty slot. -/
  dev : Option (Nat → β)
  gone : Bool
  state : CopyState
  /-- It missed everything. -/
  whole : Bool
  /-- The last root it holds whole. -/
  since : Nat
  /-- How far a rebuild has come. -/
  cursor : Nat
  /-- Failures in all; the source's counter is this modulo `2 ^ 32`, and so below. -/
  readErrors : Nat
  writeErrors : Nat
  /-- The label tag of a device being rebuilt, and of the one this copy makes room for. -/
  tag : Nat
  peer : Nat
  dirty : Finset Nat

/-- A device that waits to take a copy's place. -/
structure Spare (β : Type) where
  dev : Nat → β
  nblocks : Nat
  gone : Bool
  tag : Nat

/-- A member (`struct spool_member`): its regions cover it. -/
structure SpoolMember (β : Type) where
  copy : Nat → PoolCopy β
  ncopies : Nat
  nblocks : Nat
  regionBlocks : Nat
  /-- The regions written since the last root. -/
  recent : Finset Nat
  regionBlocks_pos : 0 < regionBlocks
  regionBlocks_lt : regionBlocks < 2 ^ 32
  covers : nblocks ≤ regionBlocks * poolDirtyBits

/-- The pool (`struct spool`), with the fault limit of the sysctl and what the devices are
going to answer. -/
structure Spool (β : Type) where
  m : Nat → SpoolMember β
  nmembers : Nat
  epoch : Nat
  faultErrors : Nat
  spares : List (Spare β)
  answers : List Int

/-- Blocks per region of a member of `nblocks` blocks. -/
def regionBlocksFor (nblocks : Nat) : Nat :=
  let r := (nblocks + (poolDirtyBits - 1)) % 2 ^ 64 / poolDirtyBits
  if r ≠ 0 then r % 2 ^ 32 else 1

/-- The regions cover every member a region's 32-bit size can count. -/
theorem regionBlocksFor_covers {nblocks : Nat} (h : nblocks ≤ (2 ^ 32 - 1) * poolDirtyBits) :
    0 < regionBlocksFor nblocks ∧ regionBlocksFor nblocks < 2 ^ 32 ∧
      nblocks ≤ regionBlocksFor nblocks * poolDirtyBits := by
  have hb : poolDirtyBits = 7552 := rfl
  have hmod : (nblocks + (poolDirtyBits - 1)) % 2 ^ 64 = nblocks + 7551 :=
    Nat.mod_eq_of_lt (by omega)
  rw [regionBlocksFor, hmod]
  rw [hb] at h ⊢
  split
  · rw [Nat.mod_eq_of_lt (by omega)]
    omega
  · omega

variable {β : Type}

namespace PoolCopy

section

variable (k : PoolCopy β)

def readable : Bool := k.dev.isSome && k.state = .online

def writable : Bool :=
  k.dev.isSome && (k.state = .online || k.state = .resilvering)

/-- The device takes a block. -/
def put (blk : Nat) (x : β) : PoolCopy β :=
  { k with dev := k.dev.map fun d => Function.update d blk x }

/-- A region is marked as missed. -/
def mark (r : Nat) : PoolCopy β := { k with dirty := insert r k.dirty }

/-- The last part of `copySetState`, the move itself.  A copy that leaves ONLINE misses
writes from here on, and whatever reached it since the last root may be only in its cache. -/
def move (state : CopyState) (epoch : Nat) (recent : Finset Nat) : PoolCopy β :=
  let k :=
    if k.state = .online then
      { k with since := epoch, whole := false, dirty := k.dirty ∪ recent }
    else k
  let k := if state = .online then { k with dirty := ∅ } else k
  { k with state := state }

end

end PoolCopy

namespace SpoolMember

section

variable (m : SpoolMember β) (k : PoolCopy β) (blk : Nat)

/-- The bit of a block's region. -/
def region : Nat :=
  let r := blk / m.regionBlocks
  if poolDirtyBits ≤ r then poolDirtyBits - 1 else r

/-- A block the copy failed to take while another copy took it. -/
def hole : Bool :=
  blk / m.regionBlocks < poolDirtyBits && blk / m.regionBlocks ∈ k.dirty

def readableAt : Bool :=
  k.readable && !m.hole k blk

def onlineCopies : Nat :=
  (List.range m.ncopies).countP fun c => (m.copy c).readable

def modifyCopy (c : Nat) (f : PoolCopy β → PoolCopy β) : SpoolMember β :=
  { m with copy := Function.update m.copy c (f (m.copy c)) }

/-- A block's region has been written since the last root. -/
def markRecent : SpoolMember β :=
  { m with recent := insert (m.region blk) m.recent }

theorem region_eq {blk : Nat} (h : blk < m.nblocks) :
    m.region blk = blk / m.regionBlocks ∧ blk / m.regionBlocks < poolDirtyBits := by
  have hlt : blk / m.regionBlocks < poolDirtyBits := by
    rw [Nat.div_lt_iff_lt_mul m.regionBlocks_pos, Nat.mul_comm]
    exact Nat.lt_of_lt_of_le h m.covers
  exact ⟨if_neg (by show ¬ poolDirtyBits ≤ _; omega), hlt⟩

theorem hole_eq {blk : Nat} (h : blk < m.nblocks) :
    m.hole k blk = decide (m.region blk ∈ k.dirty) := by
  obtain ⟨hr, hlt⟩ := m.region_eq h
  rw [hole, hr, decide_eq_true hlt, Bool.true_and]

end

end SpoolMember

namespace Spool

def copy (p : Spool β) (v c : Nat) : PoolCopy β := (p.m v).copy c

section

variable (p : Spool β) (dva : Nat)

def modifyMember (v : Nat) (f : SpoolMember β → SpoolMember β) : Spool β :=
  { p with m := Function.update p.m v (f (p.m v)) }

def modifyCopy (p : Spool β) (v c : Nat) (f : PoolCopy β → PoolCopy β) : Spool β :=
  p.modifyMember v fun m => m.modifyCopy c f

/-- The next answer of a device. -/
def answer : Int × Spool β :=
  match p.answers with
  | [] => (0, p)
  | rc :: rest => (rc, { p with answers := rest })

/-- The member and the block an address names. -/
def memberOf : Option (Nat × Nat) :=
  let v := dva >>> 56
  let b := dva &&& 0x00FFFFFFFFFFFFFF
  if v < p.nmembers ∧ b < (p.m v).nblocks then some (v, b) else none

/-! ## Copy states -/

def copySetState (v c : Nat) (state : CopyState) : Int × Spool β :=
  if ¬ (v < p.nmembers ∧ c < (p.m v).ncopies) then (einval, p)
  else if (p.copy v c).state = state then (0, p)
  -- the operator may not take the last copy away
  else if state = .offline ∧ (p.copy v c).readable ∧ (p.m v).onlineCopies = 1 then (ebusy, p)
  -- only a copy that missed nothing: anything else is a resilver
  else if state = .online ∧ (p.copy v c).dev.isNone then (enodev, p)
  else if state = .online ∧ ((p.copy v c).whole ∨ (p.copy v c).since ≠ p.epoch) then (eagain, p)
  else if state = .online ∧ (p.copy v c).dirty.Nonempty then (eagain, p)
  else (0, p.modifyCopy v c fun k => k.move state p.epoch (p.m v).recent)

/-- A copy has failed too often: more often than the limit, which 0 turns off. -/
def overLimit (v c : Nat) : Bool :=
  p.faultErrors ≠ 0 &&
    p.faultErrors < ((p.copy v c).readErrors + (p.copy v c).writeErrors) % 2 ^ 32

/-- One failure on a copy: a device that is gone takes it out at once, anything else counts
towards FAULTED, but never the member's last ONLINE copy. -/
def copyFailed (v c : Nat) (rc : Int) : Spool β :=
  if rc = enodev then (p.copySetState v c .missing).2
  else if ¬ p.overLimit v c ∨ (p.copy v c).state = .faulted then p
  else if (p.copy v c).state = .online ∧ (p.m v).onlineCopies = 1 then p
  else (p.copySetState v c .faulted).2

def commitDone (gen : Nat) : Spool β :=
  { p with epoch := gen, m := fun v => { p.m v with recent := ∅ } }

/-! ## Reading and writing -/

/-- What a device's failure is to the caller. -/
def toCaller (rc : Int) : Int := if rc = enodev then eio else rc

def readOne (v blk c : Nat) : Except Int β × Spool β :=
  match p.answer with
  | (rc, q) =>
    if rc = 0 then
      match (p.copy v c).dev with
      | some d => (.ok (d blk), q)
      | none => (.error eio, q)  -- an empty slot, which no caller reads
    else
      let q := q.modifyCopy v c fun k => { k with readErrors := k.readErrors + 1 }
      (.error (toCaller rc), q.copyFailed v c rc)

def readCopy (dva c : Nat) : Except Int β × Spool β :=
  match p.memberOf dva with
  | none => (.error einval, p)
  | some (v, blk) =>
    if ¬ c < (p.m v).ncopies then (.error einval, p)
    else if ¬ (p.m v).readableAt (p.copy v c) blk then (.error enodev, p)
    else p.readOne v blk c

/-- The copies of `pool_read` in turn, with the first error so far. -/
def readFrom (p : Spool β) (v blk : Nat) : List Nat → Int → Except Int β × Spool β
  | [], first => (.error (if first ≠ 0 then first else eio), p)
  | c :: cs, first =>
    if ¬ (p.m v).readableAt (p.copy v c) blk then p.readFrom v blk cs first
    else
      match p.readOne v blk c with
      | (.ok x, p) => (.ok x, p)
      | (.error rc, p) => p.readFrom v blk cs (if first = 0 then rc else first)

/-- `pool_read`: the first ONLINE copy that answers. -/
def read : Except Int β × Spool β :=
  match p.memberOf dva with
  | none => (.error einval, p)
  | some (v, blk) => p.readFrom v blk (List.range (p.m v).ncopies) 0

/-- A write that did not reach a copy; an ONLINE copy's is for the writer to mark. -/
def missed (v c blk : Nat) : Spool β :=
  if (p.copy v c).state ≠ .online then p.modifyCopy v c fun k => k.mark ((p.m v).region blk)
  else p

def writeOne (v blk c : Nat) (x : β) : Int × Spool β :=
  match p.answer with
  | (rc, p) =>
    if rc = 0 then (0, p.modifyCopy v c fun k => k.put blk x)
    else
      let p := p.modifyCopy v c fun k => { k with writeErrors := k.writeErrors + 1 }
      (toCaller rc, (p.missed v c blk).copyFailed v c rc)

/-- `pool_write_copy` -/
def writeCopy (dva c : Nat) (x : β) : Int × Spool β :=
  match p.memberOf dva with
  | none => (einval, p)
  | some (v, blk) =>
    if ¬ c < (p.m v).ncopies then (einval, p)
    else if ¬ (p.copy v c).writable then (enodev, p)
    else
      match p.writeOne v blk c x with
      | (rc, q) =>
        -- a repair that did not take: the copy still lacks the block, and another has it
        if rc ≠ 0 ∧ (p.copy v c).state = .online ∧ (q.copy v c).state = .online ∧
            1 < (q.m v).onlineCopies then
          (rc, q.modifyCopy v c fun k => k.mark ((q.m v).region blk))
        else (rc, q)

end

/-- Where the loop of `pool_write_flags` is. -/
structure Writing (β : Type) where
  p : Spool β
  first : Int
  landed : Bool
  failedOnline : Finset Nat

def writeTurn (v blk : Nat) (x : β) (onlineOnly : Bool) (w : Writing β) (c : Nat) :
    Writing β :=
  let k := w.p.copy v c
  if ¬ k.writable then { w with p := w.p.missed v c blk }
  -- the root, skipped on purpose for a copy being rebuilt: not a block it missed
  else if onlineOnly ∧ ¬ k.readable then w
  else
    match w.p.writeOne v blk c x with
    | (rc, p) =>
      { p := p
        first := if rc ≠ 0 ∧ w.first = 0 then rc else w.first
        landed := w.landed || (rc = 0 && k.state = .online)
        failedOnline :=
          if rc ≠ 0 ∧ k.state = .online then insert c w.failedOnline else w.failedOnline }

/-- An ONLINE copy that failed a write another copy took: a hole. -/
def holeTurn (v blk : Nat) (failedOnline : Finset Nat) (p : Spool β) (c : Nat) : Spool β :=
  if c ∈ failedOnline ∧ (p.copy v c).state = .online then
    p.modifyCopy v c fun k => k.mark ((p.m v).region blk)
  else p

/-- The loops of `pool_write_flags`: every writable copy is attempted, and the write succeeds
when an ONLINE one took it. -/
def writeCopies (p : Spool β) (v blk : Nat) (x : β) (onlineOnly : Bool) : Int × Spool β :=
  let copies := List.range (p.m v).ncopies
  let w := copies.foldl (writeTurn v blk x onlineOnly) ⟨p, 0, false, ∅⟩
  if w.landed then (0, copies.foldl (holeTurn v blk w.failedOnline) w.p)
  else (if w.first ≠ 0 then w.first else eio, w.p)

/-- `pool_write_flags`, with `POOL_WRITE_ONLINE` for the flags. -/
def writeFlags (p : Spool β) (dva : Nat) (x : β) (onlineOnly : Bool) : Int × Spool β :=
  match p.memberOf dva with
  | none => (einval, p)
  | some (v, blk) => (p.modifyMember v fun m => m.markRecent blk).writeCopies v blk x onlineOnly

/-- Where `pool_flush` is in a member. -/
structure Flushing (β : Type) where
  p : Spool β
  mfirst : Int
  flushed : Bool

/-- One copy's flush. -/
def flushTurn (v : Nat) (w : Flushing β) (c : Nat) : Flushing β :=
  let k := w.p.copy v c
  if ¬ k.writable then w
  else
    match w.p.answer with
    | (rc, p) =>
      if rc = 0 then { w with p := p, flushed := w.flushed || k.state = .online }
      else
        let p := p.modifyCopy v c fun k => { k with writeErrors := k.writeErrors + 1 }
        { p :=
            if rc = enodev then (p.copySetState v c .missing).2
            else if ¬ ((p.copy v c).state = .online ∧ (p.m v).onlineCopies = 1) then
              (p.copySetState v c .faulted).2
            else p
          mfirst := if w.mfirst = 0 then rc else w.mfirst
          flushed := w.flushed }

/-- One member's flush: durable on one ONLINE copy is durable. -/
def flushMember (first : Int × Spool β) (v : Nat) : Int × Spool β :=
  let w := (List.range (first.2.m v).ncopies).foldl (flushTurn v) ⟨first.2, 0, false⟩
  if w.flushed = false ∧ first.1 = 0 then
    (if w.mfirst = 0 ∨ w.mfirst = enodev then eio else w.mfirst, w.p)
  else (first.1, w.p)

section

variable (p : Spool β) (v c : Nat)

/-- `pool_flush` -/
def flush : Int × Spool β := (List.range p.nmembers).foldl flushMember (0, p)

/-! ## The regions, and what ends a rebuild -/

def regionClear (v c r : Nat) : Spool β :=
  if v < p.nmembers ∧ c < (p.m v).ncopies ∧ r < poolDirtyBits then
    p.modifyCopy v c fun k => { k with dirty := k.dirty.erase r }
  else p

def regionMissed (v c r : Nat) : Bool :=
  v < p.nmembers && c < (p.m v).ncopies && r < poolDirtyBits &&
    ((p.copy v c).whole || r ∈ (p.copy v c).dirty)

def copyAnyMissed : Bool :=
  v < p.nmembers && c < (p.m v).ncopies &&
    ((p.copy v c).whole || decide (p.copy v c).dirty.Nonempty)

def copyResilvered : Int × Spool β :=
  if ¬ (v < p.nmembers ∧ c < (p.m v).ncopies) then (einval, p)
  else if (p.copy v c).state ≠ .resilvering ∨ (p.copy v c).dev.isNone then (einval, p)
  else
    (0, p.modifyCopy v c fun k =>
      { k with state := .online, whole := false, cursor := 0, since := p.epoch, dirty := ∅ })

def copyReplaceDev (d : Spare β) (state : CopyState) : Int × Spool β :=
  if ¬ (v < p.nmembers ∧ c < (p.m v).ncopies) then (einval, p)
  -- the member's last good copy is not given away
  else if (p.copy v c).readable ∧ (p.m v).onlineCopies = 1 then (ebusy, p)
  else if d.nblocks < (p.m v).nblocks then (einval, p)
  else
    (0, p.modifyCopy v c fun k =>
      { dev := some d.dev, gone := d.gone, state := state, whole := state ≠ .online, since := 0,
        cursor := 0, readErrors := 0, writeErrors := 0, tag := k.tag, peer := 0, dirty := ∅ })

/-- `pool_detach_copy`: the copies after it move down. -/
def detachCopy : Int × Spool β :=
  if ¬ (v < p.nmembers ∧ c < (p.m v).ncopies) then (einval, p)
  else if (p.m v).ncopies = 1 ∨ ((p.copy v c).readable ∧ (p.m v).onlineCopies = 1) then (ebusy, p)
  else
    (0, p.modifyMember v fun m =>
      { m with copy := fun k => if k < c then m.copy k else m.copy (k + 1)
               ncopies := m.ncopies - 1 })

/-- `pool_take_spare`: the first one that is there and large enough, and the others. -/
def takeSpare (v : Nat) : Option (Spare β × Spool β) :=
  if v < p.nmembers then
    match p.spares.findIdx? fun d => !d.gone && (p.m v).nblocks ≤ d.nblocks with
    | none => none
    | some i => p.spares[i]?.map fun d => (d, { p with spares := p.spares.eraseIdx i })
  else none

end

end Spool

end CosmoOS.Storage
