import CosmoOS.Cosmofs.Cow
import CosmoOS.Lib.SlotTree

/-!
# A file's checksums

The checksum index of `cosmofs_csum.cee`.  An inode's `csum_root` names a CSUMIDX block whose 508
slots name CSUM blocks, or, once a file outgrows those, a CSUMIDX2 whose slots name CSUMIDX blocks;
a CSUM block holds 1016 CRCs or 127 authenticated entries.

`csumLevel` reads one block of the index, and in a write makes it this transaction's, named by the
slot it hangs off *at once*.  A write that fails further down therefore leaves part of the path
copied.  `Reshaped` says what it must leave: the blocks may have moved and the entries may not, the
blocks left behind have been given back, and every block the transaction took is on the index or has
been given back too.  It holds after every call; a put that succeeds adds that the one entry has the
new value.

The shape of the index is `SlotTree`'s, and one level's step is one `Repointed`.  That a write
through one slot is not seen through another needs the index to be a tree (`TreeSound`), which every
step keeps.  CRCs and authenticated entries are two formats of one thing (`EntryFormat`).
-/

namespace CosmoOS.Cosmofs

open Lib Fallible SlotTree

/-! ## The functions -/

/-- Slots of an index block that are used (`CFS_CSUMIDX_SPAN`). -/
def csumidxSpan : Nat := 508

/-- The address in slot `k` of an index block. -/
def Payload.slot (p : Payload) (k : Nat) : Nat :=
  match p with
  | .csumidx slot => slot k
  | .csumidx2 slot => slot k
  | _ => 0

def Payload.setSlot (p : Payload) (k d : Nat) : Payload :=
  match p with
  | .csumidx slot => .csumidx (Function.update slot k d)
  | .csumidx2 slot => .csumidx2 (Function.update slot k d)
  | p => p

/-- Where the address of an index block is kept: in the inode (`none`), or in a slot of a
block of this transaction. -/
def setPtr (slot : Option (Nat × Nat)) (blk : Nat) (p : Fs × Inode) : Fs × Inode :=
  match slot with
  | none => (p.1, { p.2 with csumRoot := blk })
  | some (a, k) =>
    match p.1.bufs a with
    | some b => (setBuf a ⟨b.gen, b.payload.setSlot k blk⟩ p.1, p.2)
    | none => p

/-- An index block below a slot that holds `cur`: read (and copied when `writable`), or made
when there is none and `writable`. -/
def csumLevel (slot : Option (Nat × Nat)) (cur : Nat) (kind : Kind) (writable : Bool) :
    IM (Nat × Payload) :=
  if cur = 0 then
    if !writable then fail .enoent
    else do
      let blk ← onFst (bufNew kind)
      modify (setPtr slot blk)
      pure (blk, Payload.zero kind)
  else do
    let b ← onFst (bufGet cur (some kind))
    if !writable then pure (cur, b.payload)
    else do
      -- the test seam: an index block's copy cannot be had, as when the pool is full
      runIf (kind = .csumidx) (onFst (mayFail .enomem))
      let blk ← onFst (bufCow cur b)
      runIf (blk ≠ cur) (modify (setPtr slot blk))
      pure (blk, b.payload)

/-- The kind of block an inode's `csum_root` names. -/
def csumRootKind (root : Nat) : M Kind := do
  let b ← bufGet root none
  let v ← gets fun s => s.sb.version
  if b.payload.kind = .csumidx || (b.payload.kind = .csumidx2 && v ≥ 14) then pure b.payload.kind
  else fail .eio

section

variable (newUuid : List Nat → Nat)

/-- The format must say that a two-level index may be met: a pool below 14 is raised. -/
def csumRaise14 : M Unit := do
  let sb ← gets Fs.sb
  if sb.version ≥ 14 then pure ()
  else if sb.version < 11 || sb.keyRoot ≠ 0 then fail .efbig
  else do
    snapRaise newUuid
    modify fun s => { s with sb := { s.sb with version := 14 } }

/-- The levels from the slot on, each block's slot naming the next, down to a CSUM block. -/
def csumWalk (writable : Bool) :
    List (Kind × Nat) → Option (Nat × Nat) → Nat → IM (Nat × Payload)
  | [], slot, cur => csumLevel slot cur .csum writable
  | (kind, k) :: levels, slot, cur => do
    let r ← csumLevel slot cur kind writable
    csumWalk writable levels (some (r.1, k)) (r.2.slot k)

/-- The index blocks above leaf `index`, with the slots to follow. -/
def csumLevels (two : Bool) (index : Nat) : List (Kind × Nat) :=
  if two then [(.csumidx2, index / csumidxSpan), (.csumidx, index % csumidxSpan)]
  else [(.csumidx, index)]

/-- A new root, whose entry 0 is the old one-level index as it is. -/
def csumGrow : IM Unit := do
  onFst (csumRaise14 newUuid)
  let root ← gets fun p => p.2.csumRoot
  let top ← onFst (bufNew .csumidx2)
  modify (setPtr (some (top, 0)) root)
  modify (setPtr none top)

/-- The kind of an inode's index: a file with no checksums yet begins with one level. -/
def csumKind : IM Kind := do
  let root ← gets fun p => p.2.csumRoot
  if root ≠ 0 then onFst (csumRootKind root) else pure .csumidx

/-- The CSUM block at leaf `index` of the checksum index, created (and copied) when
`writable`. -/
def csumBlockAt (index : Nat) (writable : Bool) : IM (Nat × Payload) :=
  if index ≥ csumidxSpan * csumidxSpan then fail .efbig
  else do
    let kind ← csumKind
    if kind ≠ .csumidx2 && index ≥ csumidxSpan then
      if !writable then fail .enoent
      else do
        csumGrow newUuid
        let root ← gets fun p => p.2.csumRoot
        csumWalk writable (csumLevels true index) none root
    else do
      let root ← gets fun p => p.2.csumRoot
      csumWalk writable (csumLevels (kind = .csumidx2) index) none root

end

/-- How a CSUM block holds entries of a type: so many, each apart from the others. -/
structure EntryFormat (E : Type) where
  perBlock : Nat
  get : (Nat → Nat) → Nat → E
  put : (Nat → Nat) → Nat → E → Nat → Nat
  get_put : ∀ w k e j, get (put w k e) j = if j = k then e else get w j

namespace EntryFormat

variable {E : Type} (f : EntryFormat E)

/-- The leaf an entry is in, of `truncate<u32>`. -/
def index (lblk : Nat) : Nat := truncate32 (lblk / f.perBlock)

/-- Its place there. -/
def slot (lblk : Nat) : Nat := lblk % f.perBlock

end EntryFormat

/-- An authenticated entry: the tag, the nonce a block was sealed with, and a keyless CRC of
the same ciphertext (`struct cfs_csum_aead`). -/
structure Aead where
  tag : Nat
  nonce : Nat
  crc : Nat
  deriving DecidableEq, Repr

/-- One word an entry. -/
def crcFormat : EntryFormat Nat where
  perBlock := 1016
  get w k := w k
  put w k e := Function.update w k e
  get_put w k e j := by
    by_cases h : j = k
    · rw [h, Function.update_self, if_pos rfl]
    · rw [Function.update_of_ne h, if_neg h]

/-- Eight words an entry: the tag from word 0, the nonce from word 4, the CRC in word 7. -/
def aeadFormat : EntryFormat Aead where
  perBlock := 127
  get w k := ⟨w (8 * k), w (8 * k + 4), w (8 * k + 7)⟩
  put w k e x :=
    if x = 8 * k then e.tag else if x = 8 * k + 4 then e.nonce else if x = 8 * k + 7 then e.crc
    else w x
  get_put w k e j := by
    by_cases h : j = k
    · subst h
      simp
    · rw [if_neg h]
      have hoff : ∀ a b, a < 8 → b < 8 → 8 * j + a ≠ 8 * k + b := by omega
      have h00 := hoff 0 0 (by omega) (by omega)
      have h04 := hoff 0 4 (by omega) (by omega)
      have h07 := hoff 0 7 (by omega) (by omega)
      have h40 := hoff 4 0 (by omega) (by omega)
      have h44 := hoff 4 4 (by omega) (by omega)
      have h47 := hoff 4 7 (by omega) (by omega)
      have h70 := hoff 7 0 (by omega) (by omega)
      have h74 := hoff 7 4 (by omega) (by omega)
      have h77 := hoff 7 7 (by omega) (by omega)
      simp only [Nat.add_zero] at h00 h04 h07 h40 h70
      simp only [if_neg h00, if_neg h04, if_neg h07, if_neg h40, if_neg h44, if_neg h47,
        if_neg h70, if_neg h74, if_neg h77]

/-- Words of a CSUM block's buffer changed in place. -/
def modifyCsum (d : Nat) (g : (Nat → Nat) → Nat → Nat) (s : Fs) : Fs :=
  match s.bufs d with
  | some ⟨gen, .csum w⟩ => setBuf d ⟨gen, .csum (g w)⟩ s
  | _ => s

section Entries

variable {E : Type} (f : EntryFormat E) (newUuid : List Nat → Nat)

def entryPut (lblk : Nat) (e : E) : IM Unit := do
  let r ← csumBlockAt newUuid (f.index lblk) true
  modify fun p => (modifyCsum r.1 (fun w => f.put w (f.slot lblk) e) p.1, p.2)

def entryGet (lblk : Nat) : IM E := do
  let r ← csumBlockAt newUuid (f.index lblk) false
  match r.2 with
  | .csum w => pure (f.get w (f.slot lblk))
  | _ => fail .eio

end Entries

section

variable (newUuid : List Nat → Nat) (lblk : Nat)

def csumPut (lblk crc : Nat) : IM Unit :=
  entryPut crcFormat newUuid lblk crc

def csumGet : IM Nat := entryGet crcFormat newUuid lblk

def aeadPut (e : Aead) : IM Unit :=
  entryPut aeadFormat newUuid lblk e

def aeadGet : IM Aead :=
  entryGet aeadFormat newUuid lblk

end

end CosmoOS.Cosmofs
