import CosmoOS.Storage.Pool
import CosmoOS.Cosmofs.Pool

/-!
# The resilver

A mirror's copy is rebuilt a window at a time (`rsStep`): the walk goes over the member's blocks,
region by region, and copies every allocated block of a region the copy missed from another copy.
Between the windows the filesystem's writes reach the copy as they reach every other.

A RESILVERING target is read from nowhere; its region's mark goes as the region is begun, and a
write that fails on the copy sets it again.  An ONLINE target with holes is read from outside them;
its mark goes at the region's last block, if no write to the copy failed since the region was begun.

The model is `cosmofs_resilver.cee`'s, over the pool of `Storage.Pool`.  `coins` is what allocations
and the pacing are going to answer: `true` is an allocation that fails, or the lock let go.  Left
out: the console lines, the count of blocks copied, the record of the cursor and the notifier.

Three fields are history.  `last` is the data of the last successful pool write to a block; `live`
says that it is allocated and written since, the last write having succeeded; `lost` that the walk
came to it and no copy but the target could be read.
-/

namespace CosmoOS.Cosmofs

open CosmoOS.Storage

def enomem : Int := -12

def eopnotsupp : Int := -95

/-- What the resilver sees of a mounted filesystem. -/
structure RsFs (β : Type) where
  p : Spool β
  /-- The member table: sizes, and where the superblocks or the label end. -/
  mem : Nat → Member
  /-- The allocation bitmap, by member and block. -/
  bitmap : Nat → Nat → Bool
  failed : Bool
  rdonly : Bool
  version : Nat
  /-- The label of copy `c` of member `v`, the one of a device being rebuilt, an empty block. -/
  label : Nat → Nat → β
  targetLabel : Nat → β
  zeroBlock : β
  rsRegionErrors : Nat
  rsDisagree : Nat
  coins : List Bool
  tags : List Nat
  last : Nat → Nat → β
  live : Nat → Nat → Bool
  lost : Nat → Nat → Bool

namespace RsFs

variable {β : Type} [DecidableEq β]

section

variable (r : RsFs β) (v c : Nat)

/-- The next answer of an allocation or of the pacing. -/
def coin : Bool × RsFs β :=
  match r.coins with
  | [] => (false, r)
  | b :: bs => (b, { r with coins := bs })

def modifyCopy (f : PoolCopy β → PoolCopy β) : RsFs β :=
  { r with p := r.p.modifyCopy v c f }

/-! ## Starting one -/

/-- A label tag: never 0, which means none. -/
def newTag : Nat × RsFs β :=
  match r.tags.dropWhile (· = 0) with
  | [] => (1, { r with tags := [] })
  | t :: ts => (t, { r with tags := ts })

/-- A write straight to the device of a copy. -/
def deviceWrite (v c blk : Nat) (x : β) : Int × RsFs β :=
  match r.p.answer with
  | (rc, p) =>
    if rc = 0 then (0, { r with p := p.modifyCopy v c fun k => k.put blk x })
    else (Spool.toCaller rc, { r with p := p })

/-- `cfs_label_write_dev`, for the target of a resilver. -/
def labelWriteDev : Int × RsFs β :=
  match r.coin with
  | (true, r) => (enomem, r)
  | (false, r) =>
    match r.deviceWrite v c 0 (r.targetLabel v) with
    | (rc, r) =>
      match if rc = 0 ∧ v = 0 then r.deviceWrite v c 1 r.zeroBlock else (rc, r) with
      | (rc, r) =>
        if rc = 0 then
          match r.p.answer with
          | (rc, p) => (Spool.toCaller rc, { r with p := p })
        else (rc, r)

def rsStart : Int × RsFs β :=
  if (r.p.copy v c).dev.isNone then (enodev, r)
  else if r.version < 11 then (eopnotsupp, r)
  else
    match if (r.p.copy v c).tag ≠ 0 then ((r.p.copy v c).tag, r) else r.newTag with
    | (tag, r) =>
      match r.labelWriteDev v c with
      | (rc, r) =>
        if rc ≠ 0 then (rc, r)
        else
          (0, r.modifyCopy v c fun k =>
            { k with tag := tag, cursor := 0, state := .resilvering })

/-- A spare takes the place of a copy that is out. -/
def rsTakeover : Bool × RsFs β :=
  match r.p.takeSpare v with
  | none => (false, r)
  | some (d, p) =>
    match p.copyReplaceDev v c d .resilvering with
    | (rc, p) =>
      if rc ≠ 0 then (false, { r with p := { p with spares := p.spares ++ [d] } })
      else
        let r := { r with p := p.modifyCopy v c fun k => { k with tag := d.tag } }
        match r.rsStart v c with
        | (rc, r) =>
          if rc ≠ 0 then (false, r.modifyCopy v c fun k => { k with state := .faulted })
          else (true, r)

/-! ## The copying -/

/-- No copy of the block but the target can be read. -/
def othersFail (p : Spool β) (v c blk : Nat) : Bool :=
  match (p.readFrom v blk ((List.range (p.m v).ncopies).filter fun e => e ≠ c) 0).1 with
  | .ok _ => false
  | .error _ => true

/-- A second copy that has the block is read too, and a disagreement counted. -/
def rsCheckSources (v target blk : Nat) (got : β) : RsFs β :=
  match (List.range (r.p.m v).ncopies).filter
      fun k => k ≠ target ∧ (r.p.m v).readableAt (r.p.copy v k) blk with
  | _ :: k :: _ =>
    match r.coin with
    | (true, r) => r
    | (false, r) =>
      match r.p.readCopy (dvaOf v blk) k with
      | (.ok x, p) =>
        { r with p := p, rsDisagree := if x = got then r.rsDisagree else r.rsDisagree + 1 }
      | (.error _, p) => { r with p := p }
  | _ => r

/-- One block of the walk is copied. -/
def rsCopy (v c blk : Nat) : RsFs β :=
  let lost := Function.update r.lost v
    (Function.update (r.lost v) blk (r.lost v blk || othersFail r.p v c blk))
  match r.p.read (dvaOf v blk) with
  | (.ok x, p) =>
    let r := rsCheckSources { r with p := p, lost := lost } v c blk x
    { r with p := (r.p.writeCopy (dvaOf v blk) c x).2 }
  | (.error _, p) => { r with p := p, lost := lost }

end

/-- The first copy being rebuilt of a member that has a copy to read from, or else the first
with holes, if another copy can fill them. -/
def targetIn (p : Spool β) (v : Nat) : Option Nat :=
  if (p.m v).onlineCopies = 0 then none
  else
    match (List.range (p.m v).ncopies).find? fun c =>
        (p.copy v c).state = .resilvering && (p.copy v c).dev.isSome with
    | some c => some c
    | none =>
      if (p.m v).onlineCopies ≤ 1 then none
      else (List.range (p.m v).ncopies).find? fun c =>
        (p.copy v c).state = .online && (p.copy v c).dev.isSome && p.copyAnyMissed v c

def rsTarget (p : Spool β) : Option (Nat × Nat) :=
  (List.range p.nmembers).findSome? fun v => (targetIn p v).map fun c => (v, c)

/-- What a target's mark and the error count are set to as its block is begun: an ONLINE
copy's errors are noted at the region's start and its mark goes at the region's end, another
one's mark goes at the start. -/
def rsBegin (r : RsFs β) (v c : Nat) : RsFs β :=
  let k := r.p.copy v c
  let rb := (r.p.m v).regionBlocks
  let inside := k.cursor % rb ≠ 0
  let online := k.state = .online
  let r :=
    if ¬ inside ∧ online then { r with rsRegionErrors := k.writeErrors }
    else if ¬ inside ∧ ¬ k.whole then { r with p := r.p.regionClear v c (k.cursor / rb) }
    else r
  let r := r.modifyCopy v c fun k => { k with cursor := k.cursor + 1 }
  if online ∧ ((k.cursor + 1) % rb = 0 ∨ (r.mem v).nblocks ≤ k.cursor + 1) ∧
      k.writeErrors % 2 ^ 32 = r.rsRegionErrors % 2 ^ 32 then
    { r with p := r.p.regionClear v c (k.cursor / rb) }
  else r

/-- One turn of the walk, and whether it counts as a block copied. -/
def rsTurn (r : RsFs β) (v c : Nat) : Bool × RsFs β :=
  let k := r.p.copy v c
  let rb := (r.p.m v).regionBlocks
  if k.cursor % rb = 0 ∧ ¬ r.p.regionMissed v c (k.cursor / rb) then
    (false, r.modifyCopy v c fun k => { k with cursor := (k.cursor / rb + 1) * rb })
  else
    let fixed := k.cursor < (r.mem v).firstUsable
    -- a rebuilding copy takes the superblocks last; a free block is nothing to copy
    if fixed ∧ k.state ≠ .online ∨ ¬ fixed ∧ ¬ r.bitmap v k.cursor then (false, r.rsBegin v c)
    else (true, (r.rsBegin v c).rsCopy v c k.cursor)

/-- The walk of a window: `true` when the pass is over, `false` when the window is.  Every
turn moves the cursor on, so the member's size is enough fuel. -/
def rsWalk (v c : Nat) : Nat → Option Nat → RsFs β → Bool × RsFs β
  | 0, _, r => (true, r)
  | fuel + 1, budget, r =>
    let k := r.p.copy v c
    if ¬ k.cursor < (r.mem v).nblocks then (true, r)
    -- the target failed or went: its state says so
    else if ¬ (k.state = .resilvering ∨ k.state = .online) ∨ k.dev.isNone then (false, r)
    else
      match r.rsTurn v c with
      | (false, r) => rsWalk v c fuel budget r
      | (true, r) =>
        if budget = some 1 then (false, r)
        else
          match r.coin with
          | (true, r) => (false, r)  -- the lock was let go
          | (false, r) => rsWalk v c fuel (budget.map (· - 1)) r

/-! ## The end of a pass -/

/-- Member 0's superblocks, copied while nothing fails. -/
def superblocks (v c : Nat) : List Nat → RsFs β → Int × RsFs β
  | [], r => (0, r)
  | blk :: blks, r =>
    match r.p.read (dvaOf v blk) with
    | (.error rc, p) => (rc, { r with p := p })
    | (.ok x, p) =>
      match p.writeCopy (dvaOf v blk) c x with
      | (rc, p) =>
        if rc ≠ 0 then (rc, { r with p := p }) else superblocks v c blks { r with p := p }

/-- The copies that make room for the one with tag `tag`, detached. -/
def detachPeers (v tag : Nat) : Nat → Nat → Spool β → Spool β
  | 0, _, p => p
  | fuel + 1, j, p =>
    if ¬ j < (p.m v).ncopies then p
    else if (p.copy v j).peer = 0 ∨ (p.copy v j).peer ≠ tag then detachPeers v tag fuel (j + 1) p
    else
      match p.detachCopy v j with
      | (rc, p) => if rc = 0 then detachPeers v tag fuel j p else detachPeers v tag fuel (j + 1) p

/-- What two copies that disagreed keep: no copy makes room for the one with this tag. -/
def keepPeers (p : Spool β) (v tag : Nat) : Spool β :=
  (List.range (p.m v).ncopies).foldl
    (fun p j => p.modifyCopy v j fun k => if k.peer = tag then { k with peer := 0 } else k) p

section

variable (r : RsFs β)

/-- The blocks below `first_usable`: member 0's superblocks, another member's label. -/
def lowBlocks (v c : Nat) : Int × RsFs β :=
  if v = 0 then superblocks 0 c (List.range (r.mem 0).firstUsable) r
  else
    match r.coin with
    | (true, r) => (enomem, r)
    | (false, r) =>
      match r.p.writeCopy (dvaOf v 0) c (r.label v c) with
      | (rc, p) => (rc, { r with p := p })

/-- `rsFinish`: the blocks below `first_usable` come last, and turn the target into a copy. -/
def rsFinish (v c : Nat) : Int × RsFs β :=
  match r.lowBlocks v c with
  | (rc, r) =>
    if rc ≠ 0 then (rc, r)
    else
      match r.p.answer with
      | (rc, p) =>
        if rc ≠ 0 then (rc, { r with p := p })
        else
          match (p.modifyCopy v c fun k => { k with tag := 0 }).copyResilvered v c with
          | (rc, q) =>
            if rc ≠ 0 then (rc, { r with p := q })
            else
              (0, { r with
                p := detachPeers v (p.copy v c).tag (q.m v).ncopies 0
                  (if r.rsDisagree ≠ 0 then keepPeers q v (p.copy v c).tag else q)
                rsDisagree := 0 })

/-! ## A window -/

/-- A copy whose device was unregistered is MISSING now, not at its next use. -/
def markGone (p : Spool β) : Spool β :=
  (List.range p.nmembers).foldl
    (fun p v => (List.range (p.m v).ncopies).foldl
      (fun p c =>
        let k := p.copy v c
        if k.dev.isSome ∧ k.gone ∧ (k.state = .online ∨ k.state = .resilvering) then
          (p.copySetState v c .missing).2
        else p) p) p

def takeSpares : Bool × RsFs β :=
  (List.range r.p.nmembers).foldl
    (fun s v => (List.range (s.2.p.m v).ncopies).foldl
      (fun s c =>
        let k := s.2.p.copy v c
        if s.2.p.spares ≠ [] ∧ (k.state = .faulted ∨ k.state = .missing) then
          ((s.2.rsTakeover v c).1 || s.1, (s.2.rsTakeover v c).2)
        else s) s) (false, r)

/-- What failed meanwhile goes round, holes are filled, or the target becomes a copy. -/
def passOver (v c : Nat) : RsFs β :=
  if r.p.copyAnyMissed v c ∨ (r.p.copy v c).state = .online then
    r.modifyCopy v c fun k => { k with cursor := 0 }
  else
    match r.rsFinish v c with
    | (rc, r) => if rc ≠ 0 then { r with p := (r.p.copySetState v c .faulted).2 } else r

/-- The end of a pass: every region has been gone through. -/
def rsEnd (v c : Nat) : RsFs β :=
  (r.modifyCopy v c fun k => { k with whole := false }).passOver v c

/-- `rsStep`: one window's worth of the resilver; false when there was nothing to do. -/
def rsStep (budget : Option Nat) : Bool × RsFs β :=
  if r.failed ∨ r.rdonly then (false, r)
  else
    match takeSpares { r with p := markGone r.p } with
    | (took, r) =>
      match rsTarget r.p with
      | none => (took, r)
      | some (v, c) =>
        match rsWalk v c ((r.mem v).nblocks + 1) budget r with
        | (false, r) => (true, r)
        | (true, r) => (true, r.rsEnd v c)

end

end RsFs

end CosmoOS.Cosmofs
