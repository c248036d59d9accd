import Mathlib.Algebra.Order.BigOperators.Group.List
import Mathlib.Algebra.Order.Ring.Nat

/-!
# The pool: members, addresses and the linear space

A cosmofs block address (a DVA) is a 64-bit word, here a natural number: the member in the top 8
bits, the block on that member in the low 56; 0 is "no block".  The allocation bitmap is indexed by
a *linear* block number, in which the members are laid one after the other, each starting at a whole
bitmap chunk.

The geometry is what `cfs_members_load` accepts: a member's size fits the 56-bit field of an address
and its block 0 is never usable, both fields of `Member`.  The layout is computed, as `layout` in
`cosmofs_member.cee` computes it.

The two facts used everywhere else are `dvaLin_inj`, that distinct addresses have distinct bits, and
`Geometry.lin_div`, that an address's bit lies in the chunk the allocator marks dirty for it.
-/

namespace CosmoOS.Cosmofs

/-- The error codes cosmofs returns (`errno.h`), and `assertFailed` for an assertion
that stops the kernel. -/
inductive Errno
  | enoent | eio | enomem | ebusy | eexist | enotdir | eisdir | einval | efbig | enospc | erofs
  | emlink | eperm | enametoolong | enotempty | enokey | ekeyrejected | eopnotsupp | assertFailed
  deriving DecidableEq, Repr

def dvaVdevShift : Nat := 56

def dvaBlkMask : Nat := 0x00FFFFFFFFFFFFFF

/-- Bits a bitmap chunk holds (`CFS_BITS_PER_BITMAP`). -/
def bitsPerBitmap : Nat := 32512

def dvaVdev (d : Nat) : Nat := d >>> dvaVdevShift

def dvaBlk (d : Nat) : Nat := d &&& dvaBlkMask

def dvaOf (vdev blk : Nat) : Nat := (vdev <<< dvaVdevShift) ||| (blk &&& dvaBlkMask)

theorem dvaVdev_eq (d : Nat) : dvaVdev d = d / 2 ^ 56 := by
  rw [dvaVdev, dvaVdevShift, Nat.shiftRight_eq_div_pow]

theorem dvaBlk_eq (d : Nat) : dvaBlk d = d % 2 ^ 56 := by
  have hmask : dvaBlkMask = 2 ^ 56 - 1 := by decide
  rw [dvaBlk, hmask, Nat.and_two_pow_sub_one_eq_mod]

theorem dvaOf_eq (v b : Nat) : dvaOf v b = v * 2 ^ 56 + b % 2 ^ 56 := by
  have hb : b &&& dvaBlkMask = b % 2 ^ 56 := dvaBlk_eq b
  have hlt : b % 2 ^ 56 < 2 ^ 56 := Nat.mod_lt _ (by decide)
  rw [dvaOf, hb, dvaVdevShift, ← Nat.shiftLeft_add_eq_or_of_lt hlt, Nat.shiftLeft_eq]

theorem dva_ext {d e : Nat} (hv : dvaVdev d = dvaVdev e) (hb : dvaBlk d = dvaBlk e) : d = e := by
  rw [dvaVdev_eq, dvaVdev_eq] at hv
  rw [dvaBlk_eq, dvaBlk_eq] at hb
  omega

theorem dvaVdev_dvaOf {v b : Nat} : dvaVdev (dvaOf v b) = v := by
  rw [dvaVdev_eq, dvaOf_eq]
  omega

theorem dvaBlk_dvaOf {v b : Nat} (hb : b < 2 ^ 56) : dvaBlk (dvaOf v b) = b := by
  rw [dvaBlk_eq, dvaOf_eq]
  omega

/-! ## Members and their layout -/

/-- One member's size, as `cfs_member_sane` accepts it. -/
structure Member where
  nblocks : Nat
  firstUsable : Nat
  firstUsable_pos : 0 < firstUsable
  nblocks_lt : nblocks < 2 ^ 56

namespace Member

/-- Bitmap chunks that cover the member. -/
def nchunks (m : Member) : Nat := (m.nblocks + bitsPerBitmap - 1) / bitsPerBitmap

theorem nblocks_le_chunks (m : Member) : m.nblocks ≤ m.nchunks * bitsPerBitmap := by
  unfold nchunks bitsPerBitmap
  omega

end Member

/-- The members of a mounted pool: at least one, and the vdev field names each. -/
structure Geometry where
  members : List Member
  members_pos : 0 < members.length
  members_le : members.length ≤ 255

namespace Geometry

variable (g : Geometry)

def nmembers : Nat := g.members.length

/-- The first chunk of member `v` (`chunk0` in `layout`). -/
def chunk0 (v : Nat) : Nat := ((g.members.take v).map Member.nchunks).sum

/-- The linear index of member `v`'s block 0. -/
def base (v : Nat) : Nat := g.chunk0 v * bitsPerBitmap

/-- All chunks of the pool (`nr_chunks`). -/
def nrChunks : Nat := (g.members.map Member.nchunks).sum

/-- The size of the linear space (`fs->nblocks`). -/
def nblocks : Nat := g.nrChunks * bitsPerBitmap

theorem chunk0_succ {v : Nat} {m : Member} (hm : g.members[v]? = some m) :
    g.chunk0 (v + 1) = g.chunk0 v + m.nchunks := by
  rw [chunk0, chunk0, List.take_add_one, hm]
  simp

theorem chunk0_mono {v w : Nat} (h : v ≤ w) : g.chunk0 v ≤ g.chunk0 w := by
  have hs : List.Sublist (g.members.take v) (g.members.take w) := List.take_sublist_take_left h
  exact (hs.map Member.nchunks).sum_le_sum fun _ _ => Nat.zero_le _

end Geometry

/-! ## Which addresses are the pool's -/

variable (g : Geometry)

/-- A block of the pool that may hold data or metadata. -/
def dvaValid (d : Nat) : Bool :=
  match g.members[dvaVdev d]? with
  | none => false
  | some m => m.firstUsable ≤ dvaBlk d && dvaBlk d < m.nblocks

/-- The address in the allocator's linear space, `none` for `CFS_DVA_NONE`. -/
def dvaLin (d : Nat) : Option Nat :=
  match g.members[dvaVdev d]? with
  | none => none
  | some m => if dvaBlk d < m.nblocks then some (g.base (dvaVdev d) + dvaBlk d) else none

variable {g}

variable {d l : Nat}

theorem dvaValid_iff : dvaValid g d = true ↔
    ∃ m, g.members[dvaVdev d]? = some m ∧ m.firstUsable ≤ dvaBlk d ∧ dvaBlk d < m.nblocks := by
  unfold dvaValid
  cases h : g.members[dvaVdev d]? with
  | none => simp
  | some m => simp

theorem dvaLin_eq_some : dvaLin g d = some l ↔
    ∃ m, g.members[dvaVdev d]? = some m ∧ dvaBlk d < m.nblocks ∧
      l = g.base (dvaVdev d) + dvaBlk d := by
  unfold dvaLin
  cases h : g.members[dvaVdev d]? with
  | none => simp
  | some m =>
    by_cases hb : dvaBlk d < m.nblocks
    · simp [hb, eq_comm]
    · simp [hb]

theorem exists_dvaLin_of_dvaValid (h : dvaValid g d = true) :
    ∃ l, dvaLin g d = some l := by
  obtain ⟨m, hm, -, hb⟩ := dvaValid_iff.mp h
  exact ⟨_, dvaLin_eq_some.mpr ⟨m, hm, hb, rfl⟩⟩

/-- Address 0 is never usable: it is member 0's first superblock. -/
theorem ne_zero_of_dvaValid (h : dvaValid g d = true) : d ≠ 0 := by
  rintro rfl
  obtain ⟨m, -, hf, -⟩ := dvaValid_iff.mp h
  have hz : dvaBlk 0 = 0 := by decide
  have hpos := m.firstUsable_pos
  omega

theorem Geometry.base_add_lt {v b : Nat} {m : Member} (hm : g.members[v]? = some m)
    (hb : b < m.nblocks) : g.base v + b < g.base (v + 1) := by
  have hc := m.nblocks_le_chunks
  rw [Geometry.base, Geometry.base, g.chunk0_succ hm, Nat.add_mul]
  omega

/-- **Distinct addresses have distinct bits.** -/
theorem dvaLin_inj {e : Nat} (hd : dvaLin g d = some l) (he : dvaLin g e = some l) :
    d = e := by
  obtain ⟨m, hm, hbm, hlm⟩ := dvaLin_eq_some.mp hd
  obtain ⟨n, hn, hbn, hln⟩ := dvaLin_eq_some.mp he
  have hd1 := Geometry.base_add_lt hm hbm
  have he1 := Geometry.base_add_lt hn hbn
  have hmono : ∀ v w, v < w → g.base (v + 1) ≤ g.base w := fun v w hvw =>
    Nat.mul_le_mul_right _ (g.chunk0_mono hvw)
  -- two members' ranges do not meet, so the members agree, and then the blocks do
  rcases Nat.lt_trichotomy (dvaVdev d) (dvaVdev e) with hlt | heq | hgt
  · have := hmono _ _ hlt
    omega
  · refine dva_ext heq ?_
    rw [heq] at hlm
    omega
  · have := hmono _ _ hgt
    omega

end CosmoOS.Cosmofs
