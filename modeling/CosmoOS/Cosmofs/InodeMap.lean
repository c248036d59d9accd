import CosmoOS.Cosmofs.CsumTree

/-!
# The inode map

The two-level map of `cosmofs_alloc.cee` from an inode number to its inode: `imap_root` names an
IMAP1 block of 508 slots, each names an IMAP0 block of 508 slots, each names a block of 15 inodes.
A write walks down and makes every block on the way the open transaction's: copied when a committed
generation wrote it, made where there was none.  A new block is named by the slot it hangs off at
once.

`inodeIn s root ino` is what the map from `root` says of an inode, as a function of the blocks in
view: a missing block says what a zeroed one would (`entry`), so a write that makes the blocks of
its path, or fails after making some, has changed nothing.

The steps of a walk are `Opened`: the block at one position is the transaction's, every other
position has the block it had, and the map says what it said.  From them comes `inodeWrite_spec`.

A saved map root, a snapshot's, is another tree over partly the same blocks.  What it names was
written by a commit, and a write of the live map touches blocks of its own generation and blocks
that were free (`Untouched`).
-/

namespace CosmoOS.Cosmofs.InodeMap

open Lib Fallible SlotTree Function

variable {s : Fs} {x ino d : Nat} {p pl : Payload} {kind : Kind} {r q : List Nat}

/-! ## The functions -/

/-- Inodes an inode block holds (`CFS_INODES_PER_BLOCK`). -/
def inodesPerBlock : Nat := 15

/-- One more than the largest inode number (`CFS_MAX_INODES`). -/
def maxInodes : Nat := 3870960

section

variable (p) (k : Nat) (ino : Nat)

/-- The number within its tree (`CFS_SNAP_INO`). -/
def inoOf : Nat := ino % 2 ^ 48

/-- The tree a tagged inode number names (`CFS_SNAP_TAG`). -/
def tagOf : Nat := truncate32 (ino / 2 ^ 48)

def ptr : Nat :=
  match p with
  | .imap1 slot => slot k
  | .imap0 slot => slot k
  | _ => 0

def setPtr (k d : Nat) : Payload :=
  match p with
  | .imap1 slot => .imap1 (update slot k d)
  | .imap0 slot => .imap0 (update slot k d)
  | p => p

def inodeSlot : Option Inode :=
  match p with
  | .inodes slot => slot k
  | _ => none

end

section

variable (slot : Option (Nat × Nat)) (cur : Nat) (kind : Kind) (ino : Nat)

/-- The address of a map block written where it is kept: in the superblock (`none`), or in a
slot of a held block. -/
def pointAt (blk : Nat) (s : Fs) : Fs :=
  match slot with
  | none => { s with sb := { s.sb with imapRoot := blk } }
  | some (a, k) =>
    match s.bufs a with
    | some b => setBuf a ⟨b.gen, setPtr b.payload k blk⟩ s
    | none => s

/-- A map block fetched, and when `writable` copied on write. -/
def fetch (writable : Bool) : M (Nat × Payload) := do
  let b ← bufGet cur (some kind)
  if !writable then pure (cur, b.payload)
  else do
    let blk ← bufCow cur b
    runIf (blk ≠ cur) (modify (pointAt slot blk))
    pure (blk, b.payload)

/-- The map block below a slot that holds `cur`: a missing one is made when `create` is set. -/
def fetchBelow (writable create : Bool) : M (Nat × Payload) :=
  if cur = 0 then
    if !create then fail .enoent
    else do
      let blk ← bufNew kind
      modify (pointAt slot blk)
      pure (blk, Payload.zero kind)
  else fetch slot cur kind writable

/-- The slot of the IMAP1 block to follow (`cfs_imap_l1_index`). -/
def l1Index : Nat := ino / inodesPerBlock / ptrsPerBlock

/-- The slot of the IMAP0 block to follow (`cfs_imap_l0_index`). -/
def l0Index : Nat := ino / inodesPerBlock % ptrsPerBlock

end

/-- The inode block for `ino` in the map from `imapRoot`.  Missing IMAP0 and inode blocks are
created when `create` is set. -/
def inodeBlockAt (imapRoot ino : Nat) (writable create : Bool) : M (Nat × Payload) :=
  if ino = 0 ∨ ino ≥ maxInodes then fail .eio
  else do
    let l1 ← fetch none imapRoot .imap1 writable
    let l0 ← fetchBelow (some (l1.1, l1Index ino)) (ptr l1.2 (l1Index ino)) .imap0 writable create
    fetchBelow (some (l0.1, l0Index ino)) (ptr l0.2 (l0Index ino)) .inodes writable create

/-- A slot that holds inode `ino`, with links (`cfs_inode_slot_ok`). -/
def inodeSlotOk (i : Inode) (ino : Nat) : Bool := i.ino = ino && i.nlink ≠ 0

/-- Inode `ino` of the tree of `imapRoot`, which has numbers up to `nextIno`. -/
def inodeReadAt (imapRoot nextIno ino : Nat) : M Inode :=
  if ino = 0 ∨ ino ≥ nextIno then fail .enoent
  else do
    let ib ← inodeBlockAt imapRoot ino false false
    match inodeSlot ib.2 (ino % inodesPerBlock) with
    | some i => if inodeSlotOk i ino then pure i else fail .enoent
    | none => fail .enoent

def inodeRead (ino0 : Nat) : M Inode := do
  let sb ← gets Fs.sb
  inodeReadAt sb.imapRoot sb.nextIno (inoOf ino0)

/-- Whether a tagged number may not be written now: only while its tree is the one entered. -/
def tagRefused (tag : Nat) (s : Fs) : Bool :=
  tag ≠ 0 && s.curClone.all fun c => c.id ≠ tag

/-- An inode block's slots changed in place. -/
def modifyInodes (d : Nat) (g : (Nat → Option Inode) → Nat → Option Inode) (s : Fs) : Fs :=
  match s.bufs d with
  | some ⟨gen, .inodes slot⟩ => setBuf d ⟨gen, .inodes (g slot)⟩ s
  | _ => s

/-- Write an inode into the map, stamped with the open transaction's generation. -/
def inodeWrite (ino0 : Nat) (inode : Inode) : M Unit := do
  let refused ← gets (tagRefused (tagOf ino0))
  if refused then fail .erofs
  else do
    let root ← gets fun s => s.sb.imapRoot
    let ib ← inodeBlockAt root (inoOf ino0) true true
    modify fun s => modifyInodes ib.1 (fun slot => update slot
      (inoOf ino0 % inodesPerBlock) (some { inode with generation := s.gen })) s

/-! ## The map in view -/

def mapKind : Nat → Kind
  | 0 => .inodes
  | 1 => .imap0
  | _ => .imap1

/-- The contents of a block that is a map block of height `h`. -/
def held (s : Fs) (h x : Nat) : Option Payload :=
  match node s x with
  | some b => if b.payload.kind = mapKind h then some b.payload else none
  | none => none

theorem held_eq_some {h : Nat} :
    held s h x = some p ↔ ∃ g, node s x = some ⟨g, p⟩ ∧ p.kind = mapKind h := by
  unfold held
  constructor
  · intro hx
    split at hx
    · rename_i b hb
      split at hx
      · cases hx
        exact ⟨b.gen, hb, ‹_›⟩
      · cases hx
    · cases hx
  · rintro ⟨g, hn, hk⟩
    rw [hn]
    exact if_pos hk

theorem held_congr {t : Fs} (hn : node t x = node s x) (h : Nat) : held t h x = held s h x := by
  rw [held, held, hn]

theorem held_zero (s : Fs) (h : Nat) : held s h 0 = none := by
  rw [held, node_zero]

/-- Slot `k` of a block, read as a map block of height `h`. -/
def ptrs (s : Fs) (h x k : Nat) : Nat :=
  match held s h x with
  | some p => ptr p k
  | none => 0

theorem ptrs_of_held {h : Nat} (hx : held s h x = some p) : ptrs s h x = ptr p := by
  funext k
  rw [ptrs, hx]

theorem ptrs_congr {t : Fs} (hn : node t x = node s x) (h : Nat) : ptrs t h x = ptrs s h x := by
  funext k
  rw [ptrs, ptrs, held_congr hn]

section

variable (s) (root : Nat) (q : List Nat)

theorem ptrs_zero (h k : Nat) : ptrs s h 0 k = 0 := by
  rw [ptrs, held_zero]

/-- The block at a position of the map from `root`. -/
def place : Nat := find (ptrs s) 2 root q

theorem place_cons (root k : Nat) (q : List Nat) :
    place s root (k :: q) = ptrs s (2 - q.length) (place s root q) k := rfl

/-- What stands at a position: where there is no block, a zeroed one. -/
def entry : Option Payload :=
  if place s root q = 0 then some (Payload.zero (mapKind (2 - q.length)))
  else held s (2 - q.length) (place s root q)

def slotInode (o : Option Inode) (ino : Nat) : Except Errno Inode :=
  match o with
  | some i => if inodeSlotOk i ino then .ok i else .error .enoent
  | none => .error .enoent

/-- What the map from `root` says of an inode. -/
def inodeIn (root ino : Nat) : Except Errno Inode :=
  if held s 2 root = none then .error .eio
  else if entry s root [l1Index ino] = none then .error .eio
  else
    match entry s root [l0Index ino, l1Index ino] with
    | some p => slotInode (inodeSlot p (ino % inodesPerBlock)) ino
    | none => .error .eio

end

/-! ## The read -/

section Read

variable {s : Fs}

section

variable (hf : s.faults = []) (slot : Option (Nat × Nat))

include hf

/-- With nothing failing, a read of a block is a look at what is in view. -/
theorem bufGet_of_calm (h x : Nat) :
    (held s h x = none → bufGet x (some (mapKind h)) s = (.error .eio, s)) ∧
      ∀ p, held s h x = some p → ∃ g, bufGet x (some (mapKind h)) s = (.ok ⟨g, p⟩, s) := by
  refine ⟨fun hnone => ?_, fun p hp => ?_⟩
  · rcases hget : bufGet x (some (mapKind h)) s with ⟨r, t⟩
    obtain ⟨⟨fl, rfl, hfl⟩, hr⟩ := bufGet_spec hget
    rw [hfl hf, ← hf]
    cases r with
    | ok b =>
      obtain ⟨hv, hview, hk⟩ := hr
      have hheld : held s h x = some b.payload :=
        held_eq_some.mpr ⟨b.gen, node_of_view hv hview, kind_of_kindOk hk⟩
      cases hheld.symm.trans hnone
    | error e => rw [(hr.2 hf).1]
  · obtain ⟨g, hn, hk⟩ := held_eq_some.mp hp
    obtain ⟨hv, hview⟩ := view_of_node hn
    exact ⟨g, bufGet_nil hf hv hview (by simp [kindOk, hk])⟩

theorem fetch_calm (h x : Nat) :
    fetch slot x (mapKind h) false s =
      (match held s h x with
        | some p => .ok (x, p)
        | none => .error .eio, s) := by
  obtain ⟨hnone, hsome⟩ := bufGet_of_calm hf h x
  unfold fetch
  cases hh : held s h x with
  | none => rw [bind_run_error (hnone hh)]
  | some p =>
    obtain ⟨g, hg⟩ := hsome p hh
    rw [bind_run_ok hg]
    rfl

theorem fetchBelow_calm (h x : Nat) :
    fetchBelow slot x (mapKind h) false false s =
      (if x = 0 then .error .enoent
        else match held s h x with
          | some p => .ok (x, p)
          | none => .error .eio, s) := by
  unfold fetchBelow
  by_cases h0 : x = 0
  · rw [if_pos h0, if_pos h0]
    rfl
  · rw [if_neg h0, if_neg h0, fetch_calm hf]

theorem inodeBlockAt_calm {root : Nat} (h0 : ino ≠ 0) (hino : ino < maxInodes) :
    ∃ r, inodeBlockAt root ino false false s = (r, s) ∧
      inodeIn s root ino =
        r.bind fun ib => slotInode (inodeSlot ib.2 (ino % inodesPerBlock)) ino := by
  have h1 : fetch none root .imap1 false s = _ := fetch_calm hf none 2 root
  unfold inodeBlockAt
  rw [if_neg (by omega)]
  cases hl1 : held s 2 root with
  | none =>
    rw [hl1] at h1
    exact ⟨_, bind_run_error h1 _, if_pos hl1⟩
  | some p1 =>
    rw [hl1] at h1
    have ha : ptr p1 (l1Index ino) = place s root [l1Index ino] :=
      (congrFun (ptrs_of_held hl1) _).symm
    have h2 : fetchBelow (some (root, l1Index ino)) (ptr p1 (l1Index ino)) .imap0 false false s =
        _ := fetchBelow_calm hf _ 1 _
    rw [bind_run_ok h1, inodeIn, if_neg (by simp [hl1])]
    rw [ha] at h2 ⊢
    by_cases ha0 : place s root [l1Index ino] = 0
    · -- no IMAP0 block: nothing below it either
      have hb0 : place s root [l0Index ino, l1Index ino] = 0 := by
        rw [place_cons, ha0, ptrs_zero]
      rw [if_pos ha0] at h2
      refine ⟨_, bind_run_error h2 _, ?_⟩
      rw [entry, if_pos ha0, if_neg (by simp), entry, if_pos hb0]
      rfl
    · rw [if_neg ha0] at h2
      rw [entry, if_neg ha0]
      cases hl0 : held s 1 (place s root [l1Index ino]) with
      | none =>
        rw [hl0] at h2
        exact ⟨_, bind_run_error h2 _, if_pos hl0⟩
      | some p0 =>
        rw [hl0] at h2
        have hb : ptr p0 (l0Index ino) = place s root [l0Index ino, l1Index ino] :=
          (congrFun (ptrs_of_held hl0) _).symm
        refine ⟨_, (bind_run_ok h2 _).trans (fetchBelow_calm hf _ 0 _), ?_⟩
        have hh : 2 - [l0Index ino, l1Index ino].length = 0 := rfl
        rw [if_neg (by simp [hl0]), entry, hb, hh]
        by_cases hb0 : place s root [l0Index ino, l1Index ino] = 0
        · rw [if_pos hb0, if_pos hb0]
          rfl
        · rw [if_neg hb0, if_neg hb0]
          cases held s 0 (place s root [l0Index ino, l1Index ino]) <;> rfl

/-- **The read** returns what the map says. -/
theorem inodeReadAt_calm {root nextIno : Nat} (hino : ino < maxInodes) :
    inodeReadAt root nextIno ino s =
      (if ino = 0 ∨ ino ≥ nextIno then .error .enoent else inodeIn s root ino, s) := by
  unfold inodeReadAt
  by_cases hr : ino = 0 ∨ ino ≥ nextIno
  · rw [if_pos hr, if_pos hr]
    rfl
  rw [if_neg hr, if_neg hr]
  obtain ⟨r, hrun, hin⟩ := @inodeBlockAt_calm ino s hf root (fun h0 => hr (.inl h0)) hino
  rw [hin]
  cases r with
  | error e => exact bind_run_error hrun _
  | ok ib =>
    rw [bind_run_ok hrun, Except.bind]
    unfold slotInode
    cases inodeSlot ib.2 (ino % inodesPerBlock) with
    | none => rfl
    | some i =>
      dsimp only
      split <;> rfl

end

end Read

/-! ## What a step of a write keeps -/

/-- A block of the live map. -/
def OnMap (s : Fs) (d : Nat) : Prop := d ≠ 0 ∧ ∃ q, place s s.sb.imapRoot q = d

/-- The live map is a tree, of allocated blocks. -/
structure MapSound (s : Fs) : Prop where
  apart : Apart (ptrs s) 2 s.sb.imapRoot
  taken : ∀ d, OnMap s d → allocated s d = true

/-- A block that a commit wrote and that is still allocated. -/
def Committed (s : Fs) (x : Nat) : Prop :=
  allocated s x = true ∧ ∀ b, view s x = some b → b.gen ≠ s.gen

/-- The blocks that commits wrote read as they did. -/
def Untouched (s t : Fs) : Prop :=
  ∀ x, Committed s x → view t x = view s x ∧ allocated t x = true

/-- The live map may have moved; it says what it said. -/
structure Kept (s t : Fs) : Prop where
  sound : MapSound t
  gen : t.gen = s.gen
  geo : t.geo = s.geo
  nextIno : t.sb.nextIno = s.sb.nextIno
  tells : ∀ ino, inodeIn t t.sb.imapRoot ino = inodeIn s s.sb.imapRoot ino
  untouched : Untouched s t

theorem Committed.of_untouched {t : Fs} (h : Committed s x) (hg : t.gen = s.gen)
    (hu : Untouched s t) : Committed t x := by
  obtain ⟨hv, ha⟩ := hu x h
  refine ⟨ha, fun b hb => ?_⟩
  rw [hv] at hb
  rw [hg]
  exact h.2 b hb

theorem Untouched.trans {t u : Fs} (hg : t.gen = s.gen) (h₁ : Untouched s t)
    (h₂ : Untouched t u) : Untouched s u := by
  intro x hx
  obtain ⟨hv, ha⟩ := h₂ x (hx.of_untouched hg h₁)
  exact ⟨hv.trans (h₁ x hx).1, ha⟩

namespace Kept

variable {s t u : Fs}

theorem trans (h₁ : Kept s t) (h₂ : Kept t u) : Kept s u :=
  ⟨h₂.sound, h₂.gen.trans h₁.gen, h₂.geo.trans h₁.geo, h₂.nextIno.trans h₁.nextIno,
    fun ino => (h₂.tells ino).trans (h₁.tells ino), h₁.untouched.trans h₁.gen h₂.untouched⟩

end Kept

section Congr

variable {s t : Fs} {root : Nat}

section

variable (h : ∀ q, node t (place s root q) = node s (place s root q))

include h

theorem place_congr (q : List Nat) : place t root q = place s root q := by
  induction q with
  | nil => rfl
  | cons k q ih => rw [place_cons, ih, ptrs_congr (h q), place_cons]

theorem entry_congr (q : List Nat) : entry t root q = entry s root q := by
  rw [entry, entry, place_congr h, held_congr (h q)]

theorem inodeIn_congr (ino : Nat) : inodeIn t root ino = inodeIn s root ino := by
  have hroot : held t 2 root = held s 2 root := held_congr (h []) 2
  rw [inodeIn, inodeIn, hroot, entry_congr h, entry_congr h]

end

end Congr

/-- What the map says is what stands at its positions, pointers apart. -/
theorem inodeIn_eq {t : Fs} {root root' : Nat} (htop : held t 2 root' = none ↔ held s 2 root = none)
    (hmid : ∀ k, entry t root' [k] = none ↔ entry s root [k] = none)
    (hleaf : ∀ j k, entry t root' [j, k] = entry s root [j, k]) (ino : Nat) :
    inodeIn t root' ino = inodeIn s root ino := by
  rw [inodeIn, inodeIn, hleaf, if_congr htop rfl (if_congr (hmid _) rfl rfl)]

section

variable {t : Fs} (hs : MapSound s)

include hs

theorem MapSound.congr (hplace : ∀ q, place t t.sb.imapRoot q = place s s.sb.imapRoot q)
    (hgrew : ∀ d, allocated s d = true → allocated t d = true) : MapSound t := by
  refine ⟨fun p q heq hne => ?_, ?_⟩
  · have heq : place t t.sb.imapRoot p = place t t.sb.imapRoot q := heq
    have hne : place t t.sb.imapRoot p ≠ 0 := hne
    rw [hplace] at heq hne
    rw [hplace] at heq
    exact hs.apart p q heq hne
  · rintro d ⟨hd, q, hq⟩
    exact hgrew d (hs.taken d ⟨hd, q, (hplace q).symm.trans hq⟩)

theorem Kept.of_beside (h : Beside s t) : Kept s t := by
  obtain ⟨haside, hsb⟩ := h
  have hnode : ∀ q, node t (place s s.sb.imapRoot q) = node s (place s s.sb.imapRoot q) := by
    intro q
    by_cases h0 : place s s.sb.imapRoot q = 0
    · rw [h0, node_zero, node_zero]
    · exact node_congr haside.geo (haside.view (hs.taken _ ⟨h0, q, rfl⟩))
  have hplace : ∀ q, place t t.sb.imapRoot q = place s s.sb.imapRoot q := by
    rw [hsb]
    exact place_congr hnode
  refine ⟨hs.congr hplace haside.grew, haside.gen, haside.geo, by rw [hsb], fun ino => ?_,
    fun x hx => ⟨haside.view hx.1, haside.grew x hx.1⟩⟩
  rw [hsb]
  exact inodeIn_congr hnode ino

theorem Kept.refl : Kept s s := .of_beside hs (.refl s)

theorem Kept.of_dirty {b : MBlock} (hb : view s d = some b) :
    Kept s (setBuf d b s) ∧ ∀ q, place (setBuf d b s) s.sb.imapRoot q =
      place s s.sb.imapRoot q := by
  have hview : ∀ x, view (setBuf d b s) x = view s x := by
    intro x
    by_cases hx : x = d
    · rw [hx, hb]
      exact view_of_bufs (update_self _ _ _)
    · exact view_congr (update_of_ne hx _ _) rfl
  have hnode : ∀ q, node (setBuf d b s) (place s s.sb.imapRoot q) =
      node s (place s s.sb.imapRoot q) := fun q => node_congr rfl (hview _)
  have hplace := place_congr hnode
  exact ⟨⟨hs.congr hplace fun _ => id, rfl, rfl, rfl, inodeIn_congr hnode,
    fun x hx => ⟨hview x, hx.1⟩⟩, hplace⟩

end

/-! ## One slot pointed at a new block -/

theorem kind_setPtr (p : Payload) (k d : Nat) : (setPtr p k d).kind = p.kind := by
  cases p <;> rfl

theorem ptr_setPtr {h : Nat} (hk : p.kind = mapKind (h + 1)) (k d : Nat) :
    ptr (setPtr p k d) = update (ptr p) k d := by
  cases p with
  | imap1 slot => rfl
  | imap0 slot => rfl
  | _ => cases h <;> simp [Payload.kind, mapKind] at hk

theorem ptr_zero (kind : Kind) : ptr (Payload.zero kind) = fun _ => 0 := by
  cases kind <;> rfl

/-- Where the address of the block at position `P` is kept: the superblock, or a slot of a block
of this transaction. -/
structure Spot (s : Fs) (P : List Nat) (slot : Option (Nat × Nat)) : Prop where
  depth : P.length ≤ 2
  top : P = [] → slot = none
  held : ∀ k r, P = k :: r → slot = some (place s s.sb.imapRoot r, k) ∧
    dvaValid s.geo (place s s.sb.imapRoot r) = true ∧
    ∃ pa, s.bufs (place s s.sb.imapRoot r) = some ⟨s.gen, pa⟩ ∧ pa.kind = mapKind (2 - r.length)

/-- A block `d` that was free has been given what stands at position `P`. -/
structure Refit (s : Fs) (P : List Nat) (d : Nat) (pl : Payload) (v : Fs) : Prop where
  valid : dvaValid s.geo d = true
  was_free : allocated s d = false
  stood : entry s s.sb.imapRoot P = some pl
  kind : pl.kind = mapKind (2 - P.length)
  now : ∀ x, allocated v x = true ↔ allocated s x = true ∨ x = d
  frame : ∃ sp fr fl c, v = { s with
    space := sp, frees := fr, faults := fl, curClone := c
    bufs := update s.bufs d (some ⟨s.gen, pl⟩) }

namespace Refit

variable {s v : Fs} {P : List Nat} {d : Nat} {pl : Payload}

theorem of_new (h0 : place s s.sb.imapRoot P = 0) (hk : kind = mapKind (2 - P.length))
    (ht : Took s d ⟨s.gen, Payload.zero kind⟩ v) : Refit s P d (Payload.zero kind) v := by
  refine ⟨ht.valid, ht.was_free, ?_, by rw [Payload.kind_zero, hk], ht.now, ?_⟩
  · rw [entry, if_pos h0, hk]
  · obtain ⟨sp, fl, rfl⟩ := ht.frame
    exact ⟨_, _, _, _, rfl⟩

theorem of_copy {u : Fs} (hh : InodeMap.held s (2 - P.length) (place s s.sb.imapRoot P) = some pl)
    (ht : Took s d ⟨s.gen, pl⟩ u) (hd : Disposed u [place s s.sb.imapRoot P] v) :
    Refit s P d pl v := by
  have h0 : place s s.sb.imapRoot P ≠ 0 := by
    intro h0
    rw [h0, held_zero] at hh
    cases hh
  have hnow := ht.now
  obtain ⟨g, -, hk⟩ := held_eq_some.mp hh
  refine ⟨ht.valid, ht.was_free, ?_, hk, ?_, ?_⟩
  · rw [entry, if_neg h0, hh]
  · obtain ⟨fr, fl, c, rfl⟩ := hd.frame
    exact hnow
  · obtain ⟨sp, fl, rfl⟩ := ht.frame
    obtain ⟨fr, fl', c, rfl⟩ := hd.frame
    exact ⟨_, _, _, _, rfl⟩

theorem fresh (h : Refit s P d pl v) (hs : MapSound s) (q : List Nat) :
    place s s.sb.imapRoot q ≠ d := by
  rintro rfl
  have hal := hs.taken _ ⟨ne_zero_of_dvaValid h.valid, q, rfl⟩
  rw [h.was_free] at hal
  cases hal

end Refit

/-- The state once the slot names the new block: what every address reads as. -/
structure Pointed (s : Fs) (P : List Nat) (d : Nat) (pl : Payload) (t : Fs) : Prop where
  gen : t.gen = s.gen
  geo : t.geo = s.geo
  disk : t.disk = s.disk
  nextIno : t.sb.nextIno = s.sb.nextIno
  now : ∀ x, allocated t x = true ↔ allocated s x = true ∨ x = d
  new : t.bufs d = some ⟨s.gen, pl⟩
  top : P = [] → t.sb.imapRoot = d
  held : ∀ k r, P = k :: r → t.sb.imapRoot = s.sb.imapRoot ∧
    dvaValid s.geo (place s s.sb.imapRoot r) = true ∧
    ∃ pa, s.bufs (place s s.sb.imapRoot r) = some ⟨s.gen, pa⟩ ∧ pa.kind = mapKind (2 - r.length) ∧
      t.bufs (place s s.sb.imapRoot r) = some ⟨s.gen, setPtr pa k d⟩
  others : ∀ x, x ≠ d → (∀ k r, P = k :: r → x ≠ place s s.sb.imapRoot r) →
    t.bufs x = s.bufs x

theorem Spot.pointed {v : Fs} {P : List Nat} {slot : Option (Nat × Nat)}
    (hs : MapSound s) (hspot : Spot s P slot) (h : Refit s P d pl v) :
    Pointed s P d pl (pointAt slot d v) := by
  have hfresh := h.fresh hs
  have hnow := h.now
  cases P with
  | nil =>
    obtain ⟨sp, fr, fl, c, rfl⟩ := h.frame
    rw [hspot.top rfl]
    exact ⟨rfl, rfl, rfl, rfl, hnow, update_self _ _ _, fun _ => rfl, by simp,
      fun x hx _ => update_of_ne hx _ _⟩
  | cons k r =>
    obtain ⟨hslot, hvalid, pa, hbuf, hk⟩ := hspot.held k r rfl
    have hne := hfresh r
    have hvbuf : v.bufs (place s s.sb.imapRoot r) = some ⟨s.gen, pa⟩ := by
      obtain ⟨sp, fr, fl, c, rfl⟩ := h.frame
      exact (update_of_ne hne _ _).trans hbuf
    have ht : pointAt slot d v =
        setBuf (place s s.sb.imapRoot r) ⟨s.gen, setPtr pa k d⟩ v := by
      rw [hslot, pointAt, hvbuf]
    rw [ht]
    obtain ⟨sp, fr, fl, c, rfl⟩ := h.frame
    refine ⟨rfl, rfl, rfl, rfl, hnow, ?_, by simp, ?_, ?_⟩
    · exact (update_of_ne (Ne.symm hne) _ _).trans (update_self _ _ _)
    · rintro k' r' ⟨⟩
      exact ⟨rfl, hvalid, pa, hbuf, hk, update_self _ _ _⟩
    · intro x hx hx'
      exact (update_of_ne (hx' k r rfl) _ _).trans (update_of_ne hx _ _)

namespace Pointed

variable {s t v : Fs} {P : List Nat} {d : Nat} {pl : Payload}

theorem node_new (h : Pointed s P d pl t) (hr : Refit s P d pl v) : node t d = some ⟨s.gen, pl⟩ :=
  node_of_view (by rw [h.geo]; exact hr.valid) (view_of_bufs h.new)

theorem node_others (h : Pointed s P d pl t) (hx : x ≠ d)
    (hx' : ∀ k r, P = k :: r → x ≠ place s s.sb.imapRoot r) : node t x = node s x :=
  node_congr h.geo (view_congr (h.others x hx hx') h.disk)

theorem held_parent (h : Pointed s P d pl t) {k : Nat} (hP : P = k :: r) :
    ∃ pa, InodeMap.held s (2 - r.length) (place s s.sb.imapRoot r) = some pa ∧
      InodeMap.held t (2 - r.length) (place s s.sb.imapRoot r) = some (setPtr pa k d) := by
  obtain ⟨-, hv, pa, hb, hk, hb'⟩ := h.held k r hP
  refine ⟨pa, held_eq_some.mpr ⟨_, node_of_view hv (view_of_bufs hb), hk⟩,
    held_eq_some.mpr ⟨_, node_of_view (by rw [h.geo]; exact hv) (view_of_bufs hb'), ?_⟩⟩
  rw [kind_setPtr, hk]

end Pointed

theorem entry_root {root : Nat} (h0 : root ≠ 0) :
    InodeMap.entry s root [] = InodeMap.held s 2 root := if_neg h0

/-- A level made this transaction's: the block at position `P` is `d`, with contents `pl`. -/
structure Opened (s : Fs) (P : List Nat) (d : Nat) (pl : Payload) (t : Fs) : Prop
    extends Kept s t where
  here : InodeMap.place t t.sb.imapRoot P = d
  valid : dvaValid t.geo d = true
  buf : t.bufs d = some ⟨t.gen, pl⟩
  kind : pl.kind = mapKind (2 - P.length)

section Step

variable {s t v : Fs} {P : List Nat} {d : Nat} {pl : Payload}

section

variable (hs : MapSound s) (h : Pointed s P d pl t) (hr : Refit s P d pl v) (hlen : P.length ≤ 2)

include hs h hr hlen

/-- **The step**: one position of the map repointed. -/
theorem Pointed.repointed :
    Repointed (ptrs s) (ptrs t) 2 s.sb.imapRoot t.sb.imapRoot P d := by
  have hheld : InodeMap.held t (2 - P.length) d = some pl :=
    held_eq_some.mpr ⟨_, h.node_new hr, hr.kind⟩
  refine ⟨hr.fresh hs, ?_, h.top, ?_, ?_⟩
  · show ptrs t (2 - P.length) d = ptrs s (2 - P.length) (place s s.sb.imapRoot P)
    rw [ptrs_of_held hheld]
    have hst := hr.stood
    unfold entry at hst
    by_cases h0 : place s s.sb.imapRoot P = 0
    · rw [if_pos h0] at hst
      rw [← Option.some.inj hst, ptr_zero, h0]
      funext k
      rw [ptrs_zero]
    · rw [if_neg h0] at hst
      rw [ptrs_of_held hst]
  · intro k r hP
    obtain ⟨hroot, hv, -⟩ := h.held k r hP
    obtain ⟨pa, hpa, hpa'⟩ := h.held_parent hP
    refine ⟨hroot, ne_zero_of_dvaValid hv, ?_⟩
    show ptrs t (2 - r.length) (place s s.sb.imapRoot r) =
      update (ptrs s (2 - r.length) (place s s.sb.imapRoot r)) k d
    obtain ⟨g, -, hk⟩ := held_eq_some.mp hpa
    have hlt : 2 - r.length = (1 - r.length) + 1 := by
      rw [hP, List.length_cons] at hlen
      omega
    rw [ptrs_of_held hpa, ptrs_of_held hpa']
    rw [hlt] at hk
    exact ptr_setPtr hk k d
  · intro n x hx hx'
    exact ptrs_congr (h.node_others hx hx') n

theorem Pointed.place (q : List Nat) :
    InodeMap.place t t.sb.imapRoot q = if q = P then d else InodeMap.place s s.sb.imapRoot q :=
  find_repointed hs.apart (h.repointed hs hr hlen) q

/-- Away from the slot's own block, what stands at a position stays. -/
theorem Pointed.entry (hq : ∀ k r, P = k :: r → q ≠ r) :
    InodeMap.entry t t.sb.imapRoot q = InodeMap.entry s s.sb.imapRoot q := by
  rw [InodeMap.entry, h.place hs hr hlen]
  by_cases hP : q = P
  · subst hP
    rw [if_pos rfl, if_neg (ne_zero_of_dvaValid hr.valid), hr.stood]
    exact held_eq_some.mpr ⟨_, h.node_new hr, hr.kind⟩
  · rw [if_neg hP, InodeMap.entry]
    by_cases h0 : InodeMap.place s s.sb.imapRoot q = 0
    · rw [if_pos h0, if_pos h0]
    · rw [if_neg h0, if_neg h0]
      refine held_congr (h.node_others (hr.fresh hs q) fun k r hPr heq => ?_) _
      exact hq k r hPr (hs.apart q r heq h0)

theorem Pointed.entry_parent {k : Nat} (hP : P = k :: r) :
    InodeMap.entry t t.sb.imapRoot r ≠ none ∧ InodeMap.entry s s.sb.imapRoot r ≠ none := by
  obtain ⟨-, hv, -⟩ := h.held k r hP
  obtain ⟨pa, hpa, hpa'⟩ := h.held_parent hP
  have h0 := ne_zero_of_dvaValid hv
  have hne : r ≠ P := by
    intro heq
    rw [hP] at heq
    have := congrArg List.length heq
    rw [List.length_cons] at this
    omega
  refine ⟨?_, ?_⟩
  · rw [InodeMap.entry, h.place hs hr hlen, if_neg hne, if_neg h0, hpa']
    simp
  · rw [InodeMap.entry, if_neg h0, hpa]
    simp

theorem Pointed.entry_none (q : List Nat) :
    InodeMap.entry t t.sb.imapRoot q = none ↔ InodeMap.entry s s.sb.imapRoot q = none := by
  by_cases hq : ∃ k, P = k :: q
  · obtain ⟨k, hP⟩ := hq
    obtain ⟨ht, hs'⟩ := h.entry_parent hs hr hlen hP
    exact ⟨fun hx => absurd hx ht, fun hx => absurd hx hs'⟩
  · rw [h.entry hs hr hlen]
    rintro k r hP rfl
    exact hq ⟨k, hP⟩

/-- **Repointing a position** leaves what the map says. -/
theorem Pointed.kept (hroot : s.sb.imapRoot ≠ 0) : Kept s t := by
  have hroot' : t.sb.imapRoot ≠ 0 := by
    have hplace := h.place hs hr hlen []
    have htop : t.sb.imapRoot = if [] = P then d else s.sb.imapRoot := hplace
    rw [htop]
    split
    · exact ne_zero_of_dvaValid hr.valid
    · exact hroot
  refine ⟨⟨apart_repointed hs.apart (h.repointed hs hr hlen), ?_⟩, h.gen, h.geo, h.nextIno,
    inodeIn_eq ?_ (fun k => h.entry_none hs hr hlen [k]) (fun j k => ?_), fun x hx => ?_⟩
  · rintro x ⟨hx, q, hq⟩
    rw [h.place hs hr hlen] at hq
    split at hq
    · exact (h.now x).mpr (.inr hq.symm)
    · exact (h.now x).mpr (.inl (hs.taken x ⟨hx, q, hq⟩))
  · rw [← entry_root hroot', ← entry_root hroot]
    exact h.entry_none hs hr hlen []
  · -- a position of two slots is nobody's slot's block
    refine h.entry hs hr hlen fun k' r hP hq => ?_
    rw [hP, ← hq] at hlen
    simp at hlen
  · refine ⟨view_congr (h.others x ?_ fun k r hP hxr => ?_) h.disk, (h.now x).mpr (.inl hx.1)⟩
    · rintro rfl
      have hal := hx.1
      rw [hr.was_free] at hal
      cases hal
    · obtain ⟨-, -, pa, hb, -⟩ := h.held k r hP
      rw [← hxr] at hb
      exact hx.2 _ (view_of_bufs hb) rfl

theorem Pointed.opened (hroot : s.sb.imapRoot ≠ 0) : Opened s P d pl t := by
  refine ⟨h.kept hs hr hlen hroot, ?_, ?_, ?_, hr.kind⟩
  · rw [h.place hs hr hlen, if_pos rfl]
  · rw [h.geo]
    exact hr.valid
  · rw [h.gen]
    exact h.new

end

theorem Opened.spot (h : Opened s P d pl t) (hlt : P.length < 2) (k : Nat) :
    Spot t (k :: P) (some (d, k)) ∧ InodeMap.place t t.sb.imapRoot (k :: P) = ptr pl k := by
  refine ⟨⟨by rw [List.length_cons]; omega, by simp, ?_⟩, ?_⟩
  · rintro k' r ⟨⟩
    rw [h.here]
    exact ⟨rfl, h.valid, pl, h.buf, h.kind⟩
  · have hheld : InodeMap.held t (2 - P.length) d = some pl :=
      held_eq_some.mpr ⟨_, node_of_view h.valid (view_of_bufs h.buf), h.kind⟩
    rw [place_cons, h.here, ptrs_of_held hheld]

end Step

/-! ## The levels of a write -/

section Levels

variable {s t : Fs} {P : List Nat} {slot : Option (Nat × Nat)} {r : Except Errno (Nat × Payload)}

theorem root_ne_zero (h : place s s.sb.imapRoot q ≠ 0) : s.sb.imapRoot ≠ 0 := by
  induction q with
  | nil => exact h
  | cons k q ih =>
    refine ih fun h0 => h ?_
    rw [place_cons, h0, ptrs_zero]

theorem Opened.root (h : Opened s P d pl t) : t.sb.imapRoot ≠ 0 := by
  have hd := ne_zero_of_dvaValid h.valid
  rw [← h.here] at hd
  exact root_ne_zero hd

theorem fetch_write (hs : MapSound s) (hspot : Spot s P slot) (hk : kind = mapKind (2 - P.length))
    (h : fetch slot (place s s.sb.imapRoot P) kind true s = (r, t)) :
    Kept s t ∧ ∀ d pl, r = .ok (d, pl) → Opened s P d pl t := by
  unfold fetch at h
  rcases bind_cases h with ⟨e, hget, rfl⟩ | ⟨b, u, hget, h⟩
  · exact ⟨.of_beside hs (.of_drew (bufGet_spec hget).1), by simp⟩
  obtain ⟨hu, hv, hview, hko⟩ := bufGet_spec hget
  have hkb := kind_of_kindOk hko
  have hread : Kept s u := .of_beside hs (.of_drew hu)
  obtain ⟨fl, rfl, -⟩ := hu
  have h0 := ne_zero_of_dvaValid hv
  have hroot := root_ne_zero h0
  rcases bind_cases h with ⟨e, hcow, rfl⟩ | ⟨d, u, hcow, h⟩
  · exact ⟨hread.trans (.of_beside hread.sound
      (bufCow_spec (s := { s with faults := fl }) hv hcow)), by simp⟩
  have hopen : Opened { s with faults := fl } P d b.payload t ∧ r = .ok (d, b.payload) := by
    rcases bufCow_spec (s := { s with faults := fl }) hv hcow with
      ⟨hg, rfl, rfl⟩ | ⟨w, htook, hdis⟩
    · rw [runIf, if_neg (by simp)] at h
      cases h
      obtain ⟨hkept, hplace⟩ := Kept.of_dirty hread.sound (d := _) (b := b) hview
      have hb : b = ⟨s.gen, b.payload⟩ := by rw [← hg]
      exact ⟨⟨hkept, hplace P, hv, (update_self _ _ _).trans (congrArg some hb),
        by rw [hkb, hk]⟩, rfl⟩
    · have hne : d ≠ place s s.sb.imapRoot P := (htook.ne (hs.taken _ ⟨h0, P, rfl⟩)).symm
      rw [runIf, if_pos hne] at h
      cases h
      have hheld : held s (2 - P.length) (place s s.sb.imapRoot P) = some b.payload :=
        held_eq_some.mpr ⟨_, node_of_view hv hview, by rw [hkb, hk]⟩
      have hrefit : Refit { s with faults := fl } P d b.payload u := .of_copy hheld htook hdis
      have hspot' : Spot { s with faults := fl } P slot := ⟨hspot.depth, hspot.top, hspot.held⟩
      exact ⟨(hspot'.pointed hread.sound hrefit).opened hread.sound hrefit hspot.depth hroot, rfl⟩
  obtain ⟨hopen, rfl⟩ := hopen
  refine ⟨hread.trans hopen.toKept, ?_⟩
  rintro d' pl ⟨⟩
  exact ⟨hread.trans hopen.toKept, hopen.here, hopen.valid, hopen.buf, hopen.kind⟩

/-- **One level of a write**: a missing block is made. -/
theorem fetchBelow_write (hs : MapSound s) (hspot : Spot s P slot)
    (hroot : s.sb.imapRoot ≠ 0) (hk : kind = mapKind (2 - P.length))
    (h : fetchBelow slot (place s s.sb.imapRoot P) kind true true s = (r, t)) :
    Kept s t ∧ ∀ d pl, r = .ok (d, pl) → Opened s P d pl t := by
  unfold fetchBelow at h
  by_cases h0 : place s s.sb.imapRoot P = 0
  · rw [if_pos h0] at h
    rcases bind_cases h with ⟨e, hnew, rfl⟩ | ⟨d, u, hnew, h⟩
    · exact ⟨.of_beside hs (bufNew_spec hnew), by simp⟩
    · rw [modify_bind, pure_run] at h
      cases h
      have hrefit : Refit s P d (Payload.zero kind) u :=
        .of_new h0 hk (bufNew_spec hnew)
      have hopen := (hspot.pointed hs hrefit).opened hs hrefit hspot.depth hroot
      refine ⟨hopen.toKept, ?_⟩
      rintro d' pl ⟨⟩
      exact hopen
  · rw [if_neg h0] at h
    exact fetch_write hs hspot hk h

theorem Opened.of_kept {u : Fs} (h₁ : Kept s u) (h₂ : Opened u P d pl t) : Opened s P d pl t :=
  ⟨h₁.trans h₂.toKept, h₂.here, h₂.valid, h₂.buf, h₂.kind⟩

/-- **The walk of a write.**  Whatever comes of it the map says what it said, and an inode block
it returns is this transaction's. -/
theorem inodeBlockAt_write (hs : MapSound s)
    (h : inodeBlockAt s.sb.imapRoot ino true true s = (r, t)) :
    Kept s t ∧ ∀ d pl, r = .ok (d, pl) → Opened s [l0Index ino, l1Index ino] d pl t := by
  unfold inodeBlockAt at h
  by_cases hrange : ino = 0 ∨ ino ≥ maxInodes
  · rw [if_pos hrange] at h
    cases h
    exact ⟨.refl hs, by simp⟩
  rw [if_neg hrange] at h
  have htop : Spot s [] none := ⟨by simp, fun _ => rfl, by simp⟩
  rcases bind_cases h with ⟨e, h1, rfl⟩ | ⟨⟨d1, p1⟩, u, h1, h⟩
  · exact ⟨(fetch_write hs htop rfl h1).1, by simp⟩
  obtain ⟨hk1, ho1⟩ := fetch_write hs htop rfl h1
  have hop1 := ho1 d1 p1 rfl
  obtain ⟨hspot1, hplace1⟩ := hop1.spot (by simp) (l1Index ino)
  rw [← hplace1] at h
  rcases bind_cases h with ⟨e, h2, rfl⟩ | ⟨⟨d2, p2⟩, v, h2, h⟩
  · exact ⟨hk1.trans (fetchBelow_write hk1.sound hspot1 hop1.root rfl h2).1, by simp⟩
  obtain ⟨hk2, ho2⟩ := fetchBelow_write hk1.sound hspot1 hop1.root rfl h2
  have hop2 := ho2 d2 p2 rfl
  obtain ⟨hspot2, hplace2⟩ := hop2.spot (by simp) (l0Index ino)
  rw [← hplace2] at h
  obtain ⟨hk3, ho3⟩ := fetchBelow_write hk2.sound hspot2 hop2.root rfl h
  have hk12 := hk1.trans hk2
  exact ⟨hk12.trans hk3, fun d pl hd => .of_kept hk12 (ho3 d pl hd)⟩

end Levels

/-! ## The slot -/

section Slot

variable {s t : Fs} {j k d : Nat} {slot : Nat → Option Inode}

theorem held_of_place_ne_zero {root : Nat}
    (h : place s root (k :: q) ≠ 0) : held s (2 - q.length) (place s root q) ≠ none := by
  intro hnone
  rw [place_cons, ptrs, hnone] at h
  exact h rfl

theorem ptrs_of_inodes {g : Nat}
    (h : node s x = some ⟨g, .inodes slot⟩) (n k : Nat) : ptrs s n x k = 0 := by
  cases hh : held s n x with
  | none => rw [ptrs, hh]
  | some p =>
    obtain ⟨g', hn, -⟩ := held_eq_some.mp hh
    rw [h, Option.some.injEq, MBlock.mk.injEq] at hn
    rw [ptrs, hh, ← hn.2]
    rfl

theorem inodeIn_leaf {g root : Nat} (hd : place s root [l0Index ino, l1Index ino] ≠ 0)
    (hn : node s (place s root [l0Index ino, l1Index ino]) = some ⟨g, .inodes slot⟩) :
    inodeIn s root ino = slotInode (slot (ino % inodesPerBlock)) ino := by
  have hmid0 : place s root [l1Index ino] ≠ 0 := by
    intro h0
    rw [place_cons, h0, ptrs_zero] at hd
    exact hd rfl
  have hleaf : entry s root [l0Index ino, l1Index ino] = some (.inodes slot) := by
    rw [entry, if_neg hd]
    exact held_eq_some.mpr ⟨g, hn, rfl⟩
  have htop : held s 2 root ≠ none := held_of_place_ne_zero (q := []) hmid0
  rw [inodeIn, if_neg htop, entry, if_neg hmid0, if_neg (held_of_place_ne_zero hd), hleaf]
  rfl

/-- The inode block written in place: the map as it was, but for that block. -/
theorem Opened.write (h : Opened s [j, k] d (.inodes slot) t) (slot' : Nat → Option Inode) :
    MapSound (setBuf d ⟨t.gen, .inodes slot'⟩ t) ∧
      Untouched t (setBuf d ⟨t.gen, .inodes slot'⟩ t) ∧
      ∀ ino, inodeIn (setBuf d ⟨t.gen, .inodes slot'⟩ t) t.sb.imapRoot ino =
        if [l0Index ino, l1Index ino] = [j, k] then
          slotInode (slot' (ino % inodesPerBlock)) ino
        else inodeIn t t.sb.imapRoot ino := by
  have hnode : ∀ x, x ≠ d → node (setBuf d ⟨t.gen, .inodes slot'⟩ t) x = node t x :=
    fun x hx => node_congr rfl (view_congr (update_of_ne hx _ _) rfl)
  have hnew : node (setBuf d ⟨t.gen, .inodes slot'⟩ t) d = some ⟨t.gen, .inodes slot'⟩ :=
    node_of_view h.valid (view_of_bufs (update_self _ _ _))
  have hold : node t d = some ⟨t.gen, .inodes slot⟩ := node_of_view h.valid (view_of_bufs h.buf)
  have hptrs : ptrs (setBuf d ⟨t.gen, .inodes slot'⟩ t) = ptrs t := by
    funext n x y
    by_cases hx : x = d
    · rw [hx, ptrs_of_inodes hnew, ptrs_of_inodes hold]
    · rw [ptrs_congr (hnode x hx)]
  have hplace : ∀ q, place (setBuf d ⟨t.gen, .inodes slot'⟩ t) t.sb.imapRoot q =
      place t t.sb.imapRoot q := fun q => by rw [place, hptrs, place]
  have hentry : ∀ q, q ≠ [j, k] → entry (setBuf d ⟨t.gen, .inodes slot'⟩ t) t.sb.imapRoot q =
      entry t t.sb.imapRoot q := by
    intro q hq
    rw [entry, entry, hplace]
    by_cases h0 : place t t.sb.imapRoot q = 0
    · rw [if_pos h0, if_pos h0]
    · rw [if_neg h0, if_neg h0]
      refine held_congr (hnode _ fun heq => hq ?_) _
      exact h.sound.apart q [j, k] (heq.trans h.here.symm) h0
  refine ⟨h.sound.congr hplace fun _ => id, fun x hx => ⟨?_, hx.1⟩, fun ino => ?_⟩
  · refine view_congr (update_of_ne ?_ _ _) rfl
    rintro rfl
    exact hx.2 _ (view_of_bufs h.buf) rfl
  · by_cases hino : [l0Index ino, l1Index ino] = [j, k]
    · rw [if_pos hino]
      refine inodeIn_leaf (g := t.gen) ?_ ?_
      · rw [hplace, hino, h.here]
        exact ne_zero_of_dvaValid h.valid
      · rw [hplace, hino, h.here]
        exact hnew
    · have htop : held (setBuf d ⟨t.gen, .inodes slot'⟩ t) 2 t.sb.imapRoot =
          held t 2 t.sb.imapRoot := by
        rw [← entry_root h.root, ← entry_root h.root]
        exact hentry [] (by simp)
      rw [if_neg hino, inodeIn, inodeIn, htop, hentry _ (by simp), hentry _ hino]

theorem slot_ne {i : Nat} (hne : ino ≠ i)
    (h : [l0Index ino, l1Index ino] = [l0Index i, l1Index i]) :
    ino % inodesPerBlock ≠ i % inodesPerBlock := by
  obtain ⟨h0, h1⟩ : l0Index ino = l0Index i ∧ l1Index ino = l1Index i := by simpa using h
  intro hmod
  apply hne
  have hblock : ino / inodesPerBlock = i / inodesPerBlock := by
    rw [← Nat.div_add_mod (ino / inodesPerBlock) ptrsPerBlock,
      ← Nat.div_add_mod (i / inodesPerBlock) ptrsPerBlock]
    unfold l0Index at h0
    unfold l1Index at h1
    rw [h0, h1]
  rw [← Nat.div_add_mod ino inodesPerBlock, ← Nat.div_add_mod i inodesPerBlock, hblock, hmod]

theorem modifyInodes_eq {g : Nat}
    (h : s.bufs d = some ⟨g, .inodes slot⟩) (c : (Nat → Option Inode) → Nat → Option Inode) :
    modifyInodes d c s = setBuf d ⟨g, .inodes (c slot)⟩ s := by
  rw [modifyInodes, h]

end Slot

/-! ## The write -/

theorem inoOf_eq (h : ino < maxInodes) : inoOf ino = ino := by
  unfold maxInodes at h
  rw [inoOf, Nat.mod_eq_of_lt (by omega)]

theorem tagOf_eq (h : ino < maxInodes) : tagOf ino = 0 := by
  unfold maxInodes at h
  rw [tagOf, Nat.div_eq_of_lt (by omega)]
  rfl

/-- **The write of an inode.**  A write that fails has changed nothing the map says; one that
succeeds has changed what it says of the one inode. -/
theorem inodeWrite_spec {t : Fs} {i : Nat} {inode : Inode} {r : Except Errno Unit}
    (hs : MapSound s) (hi : i < maxInodes) (h : inodeWrite i inode s = (r, t)) :
    (∀ e, r = .error e → Kept s t) ∧
      ∀ a, r = .ok a → MapSound t ∧ t.sb.nextIno = s.sb.nextIno ∧ t.gen = s.gen ∧ t.geo = s.geo ∧
        Untouched s t ∧ i ≠ 0 ∧
        inodeIn t t.sb.imapRoot i = slotInode (some { inode with generation := s.gen }) i ∧
        ∀ j, j ≠ i → inodeIn t t.sb.imapRoot j = inodeIn s s.sb.imapRoot j := by
  unfold inodeWrite at h
  rw [gets_bind, if_neg (by rw [tagOf_eq hi]; simp [tagRefused]), gets_bind, inoOf_eq hi] at h
  rcases bind_cases h with ⟨e, hb, rfl⟩ | ⟨⟨d, pl⟩, u, hb, h⟩
  · exact ⟨fun _ _ => (inodeBlockAt_write hs hb).1, by simp⟩
  obtain ⟨hkept, hopen⟩ := inodeBlockAt_write hs hb
  have hop := hopen d pl rfl
  cases h
  have hi0 : i ≠ 0 := by
    rintro rfl
    rw [inodeBlockAt, if_pos (.inl rfl)] at hb
    cases hb
  cases pl with
  | inodes slot =>
    dsimp only
    rw [modifyInodes_eq hop.buf]
    obtain ⟨hsound, hunt, hin⟩ := hop.write (update slot (i % inodesPerBlock)
      (some { inode with generation := u.gen }))
    refine ⟨by simp, fun _ _ => ⟨hsound, hkept.nextIno, hkept.gen, hkept.geo,
      hkept.untouched.trans hkept.gen hunt, hi0, ?_, fun j hj => ?_⟩⟩
    · refine (hin i).trans ?_
      rw [if_pos rfl, update_self, hkept.gen]
    · refine (hin j).trans ?_
      rw [← hkept.tells j]
      by_cases hpos : [l0Index j, l1Index j] = [l0Index i, l1Index i]
      · -- the block already said so before the slot of `i` was written
        rw [if_pos hpos, update_of_ne (slot_ne hj hpos)]
        refine (inodeIn_leaf (g := u.gen) ?_ ?_).symm
        · rw [hpos, hop.here]
          exact ne_zero_of_dvaValid hop.valid
        · rw [hpos, hop.here]
          exact node_of_view hop.valid (view_of_bufs hop.buf)
      · rw [if_neg hpos]
  | _ => exact absurd hop.kind (by simp [Payload.kind, mapKind])

/-! ## The whole -/

/-- What a read returns when nothing fails. -/
def result {α : Type} (m : M α) (s : Fs) : Except Errno α := (m { s with faults := [] }).1

/-- A map root whose blocks are allocated and were all written by commits, as a snapshot's
are. -/
def Saved (s : Fs) (root : Nat) : Prop := ∀ q, place s root q ≠ 0 → Committed s (place s root q)

theorem result_inodeReadAt (s : Fs) (root nextIno : Nat) (h : ino < maxInodes) :
    result (inodeReadAt root nextIno ino) s =
      if ino = 0 ∨ ino ≥ nextIno then .error .enoent else inodeIn s root ino := by
  rw [result, inodeReadAt_calm rfl h]
  rfl

theorem result_inodeRead (s : Fs) (h : ino < maxInodes) :
    result (inodeRead ino) s =
      if ino = 0 ∨ ino ≥ s.sb.nextIno then .error .enoent
      else inodeIn s s.sb.imapRoot ino := by
  rw [← result_inodeReadAt s _ _ h, result, result, inodeRead, gets_bind, inoOf_eq h]

theorem inodeIn_saved {t : Fs} (hg : t.geo = s.geo) (hu : Untouched s t) {root : Nat}
    (hr : Saved s root) (ino : Nat) : inodeIn t root ino = inodeIn s root ino := by
  refine inodeIn_congr (fun q => ?_) ino
  by_cases h0 : place s root q = 0
  · rw [h0, node_zero, node_zero]
  · exact node_congr hg (hu _ (hr q h0)).1

/-- **A write of the inode map.**  Of the inode written a read returns what was written, stamped
with the transaction's generation, if it is an inode at all: its own number, with links, among
the numbers handed out.  Of every other it returns what it returned before, and so does a read
of any through a root that was saved.  A write that fails changes none of them. -/
theorem inode_map_write (s t : Fs) (i : Nat) (inode : Inode) (r : Except Errno Unit)
    (hs : MapSound s) (hi : i < maxInodes) (h : inodeWrite i inode s = (r, t)) :
    MapSound t ∧
      (r = .ok () → result (inodeRead i) t =
        if i < s.sb.nextIno ∧ inode.ino = i ∧ inode.nlink ≠ 0 then
          .ok { inode with generation := s.gen }
        else .error .enoent) ∧
      (∀ j < maxInodes, r = .ok () → j ≠ i → result (inodeRead j) t = result (inodeRead j) s) ∧
      (∀ j < maxInodes, r ≠ .ok () → result (inodeRead j) t = result (inodeRead j) s) ∧
      ∀ root, Saved s root → ∀ nextIno, ∀ j < maxInodes,
        result (inodeReadAt root nextIno j) t = result (inodeReadAt root nextIno j) s := by
  obtain ⟨herr, hok⟩ := inodeWrite_spec hs hi h
  cases r with
  | error e =>
    have hkept := herr e rfl
    refine ⟨hkept.sound, by simp, by simp, fun j hj _ => ?_, fun root hr n j hj => ?_⟩
    · rw [result_inodeRead t hj, result_inodeRead s hj, hkept.nextIno, hkept.tells]
    · rw [result_inodeReadAt t _ _ hj, result_inodeReadAt s _ _ hj,
        inodeIn_saved hkept.geo hkept.untouched hr]
  | ok a =>
    obtain ⟨hsound, hnext, -, hgeo, hunt, hi0, hin, hothers⟩ := hok a rfl
    refine ⟨hsound, fun _ => ?_, fun j hj _ hne => ?_, by simp, fun root hr n j hj => ?_⟩
    · rw [result_inodeRead t hi, hnext, hin]
      by_cases hlt : i < s.sb.nextIno
      · rw [if_neg (by omega), slotInode]
        by_cases hslot : inode.ino = i ∧ inode.nlink ≠ 0
        · rw [if_pos (by simpa [inodeSlotOk] using hslot), if_pos ⟨hlt, hslot⟩]
        · rw [if_neg (by simpa [inodeSlotOk] using hslot), if_neg fun hx => hslot hx.2]
      · rw [if_pos (.inr (Nat.le_of_not_lt hlt)), if_neg fun hx => hlt hx.1]
    · rw [result_inodeRead t hj, result_inodeRead s hj, hnext, hothers j hne]
    · rw [result_inodeReadAt t _ _ hj, result_inodeReadAt s _ _ hj,
        inodeIn_saved hgeo hunt hr]

/-- A pool with a map of one block at each level, written by an earlier transaction, which holds
inode 2. -/
def mappedFs : Fs :=
  { smallFs with
    sb := { smallSuper with imapRoot := 20, nextIno := 4 }
    space := { smallFs.space with bitmap := fun l => l == 20 || l == 21 || l == 22 }
    disk := update (update (update smallFs.disk
      20 (.mblock ⟨1, .imap1 (update (fun _ => 0) 0 21)⟩))
      21 (.mblock ⟨1, .imap0 (update (fun _ => 0) 0 22)⟩))
      22 (.mblock ⟨1, .inodes (update (fun _ => none) 2 (some (oneRunInode ⟨29, 1, 0⟩)))⟩) }

theorem place_mappedFs (h : place mappedFs 20 q ≠ 0) :
    q = [] ∧ place mappedFs 20 q = 20 ∨ q = [0] ∧ place mappedFs 20 q = 21 ∨
      q = [0, 0] ∧ place mappedFs 20 q = 22 := by
  have hup : ∀ k d : Nat, update (fun _ => 0) 0 d k ≠ 0 → k = 0 := by
    intro k d hk
    by_contra hne
    exact hk (update_of_ne hne _ _)
  induction q with
  | nil => exact .inl ⟨rfl, rfl⟩
  | cons k q ih =>
    have hq : place mappedFs 20 q ≠ 0 := fun h0 => h (by rw [place_cons, h0, ptrs_zero])
    rcases ih hq with ⟨rfl, -⟩ | ⟨rfl, -⟩ | ⟨rfl, h22⟩
    · obtain rfl := hup k 21 h
      exact .inr (.inl ⟨rfl, rfl⟩)
    · obtain rfl := hup k 22 h
      exact .inr (.inr ⟨rfl, rfl⟩)
    · rw [place_cons, h22] at h
      exact absurd (ptrs_of_inodes (g := 1) rfl _ _) h

theorem saved_mappedFs : Saved mappedFs 20 := by
  intro q hq
  rcases place_mappedFs hq with ⟨-, h⟩ | ⟨-, h⟩ | ⟨-, h⟩ <;> rw [h]
  all_goals
    refine ⟨rfl, fun b hb => ?_⟩
    cases hb
    decide

theorem mapSound_mappedFs : MapSound mappedFs := by
  refine ⟨fun p q heq hne => ?_, ?_⟩
  · have heq : place mappedFs 20 p = place mappedFs 20 q := heq
    have hp : place mappedFs 20 p ≠ 0 := hne
    have hq : place mappedFs 20 q ≠ 0 := by rwa [← heq]
    rcases place_mappedFs hp with ⟨rfl, h1⟩ | ⟨rfl, h1⟩ | ⟨rfl, h1⟩ <;>
      rcases place_mappedFs hq with ⟨rfl, h2⟩ | ⟨rfl, h2⟩ | ⟨rfl, h2⟩ <;>
      first | rfl | omega
  · rintro d ⟨hd, q, rfl⟩
    exact (saved_mappedFs q hd).1

/-- Inode 3 written beside inode 2: the one is read back, the other is as it was, and the root of
before does not know of the one. -/
theorem inode_map_write_mappedFs :
    ∃ t, inodeWrite 3 { oneRunInode ⟨30, 1, 0⟩ with ino := 3 } mappedFs = (.ok (), t) ∧
      result (inodeRead 3) t =
        .ok { oneRunInode ⟨30, 1, 0⟩ with ino := 3, generation := 2 } ∧
      result (inodeRead 2) t = .ok (oneRunInode ⟨29, 1, 0⟩) ∧
      result (inodeReadAt 20 4 3) t = .error .enoent := by
  have hrun : inodeWrite 3 { oneRunInode ⟨30, 1, 0⟩ with ino := 3 } mappedFs =
      (.ok (), (inodeWrite 3 { oneRunInode ⟨30, 1, 0⟩ with ino := 3 } mappedFs).2) := rfl
  obtain ⟨-, hself, hother, -, hsaved⟩ :=
    inode_map_write mappedFs _ 3 _ _ mapSound_mappedFs (by decide) hrun
  refine ⟨_, hrun, (hself rfl).trans (if_pos (by decide)), ?_, ?_⟩
  · exact (hother 2 (by decide) rfl (by decide)).trans rfl
  · exact (hsaved 20 saved_mappedFs 4 3 (by decide)).trans rfl

/-- An inode without links is written and is then not read. -/
theorem inodeWrite_unlinked :
    (inodeWrite 2 { oneRunInode ⟨29, 1, 0⟩ with nlink := 0 } mappedFs).1 = .ok () ∧
      (inodeRead 2 (inodeWrite 2 { oneRunInode ⟨29, 1, 0⟩ with nlink := 0 } mappedFs).2).1 =
        .error .enoent :=
  ⟨rfl, rfl⟩

end CosmoOS.Cosmofs.InodeMap
