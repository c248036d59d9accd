import CosmoOS.Cosmofs.State
import Mathlib.Data.List.TakeWhile

/-!
# Allocation and the deferred frees

`allocRun` of `cosmofs_alloc.cee` with the scan under it, the two functions that queue a block to be
freed once the next root is on disk, and `allocUndo` of `cosmofs_buf.cee`, which gives a block back
at once.

The callers of the allocator need `Claimed`: the blocks handed out were free, are blocks of one
member, and are now allocated, and nothing else has changed (`allocRun_spec`); a failed call changes
nothing at all.  Of the free functions they need `Frees.all`: whatever happens to a block given back
(queued, exempt, kept for a clone's origin, or leaked because the list could not grow) happens to it
once, and nothing is lost from the lists.
-/

namespace CosmoOS.Cosmofs

open Lib Fallible List

/-- Whether the in-memory bitmap has the block. -/
def allocated (s : Fs) (d : Nat) : Bool := (dvaLin s.geo d).any s.space.bitmap

/-! ## The scan -/

/-- `u64.wrappingSub`. -/
def wrappingSub (a b : Nat) : Nat := (a + 2 ^ 64 - b) % 2 ^ 64

/-- Blocks `b` to `b + len - 1` of member `v` are taken. -/
def claim (s : Fs) (v b len : Nat) : Fs :=
  let base := s.geo.base v
  let c := s.geo.chunk0 v
  { s with space :=
    { bitmap := fun l => (base + b ≤ l && l < base + b + len) || s.space.bitmap l
      bitmapDirty := fun k =>
        (c + b / bitsPerBitmap ≤ k && k ≤ c + (b + len - 1) / bitsPerBitmap) ||
          s.space.bitmapDirty k
      freeBlocks := wrappingSub s.space.freeBlocks len
      memFree := Function.update s.space.memFree v (wrappingSub (s.space.memFree v) len)
      memHint := Function.update s.space.memHint v (b + len) } }

/-- The first free run in blocks `[lo, hi)` of member `v`, claimed. -/
def scanMember (s : Fs) (v lo hi want : Nat) : Option (Nat × Nat × Fs) :=
  let isFree := fun b => !s.space.bitmap (s.geo.base v + b)
  match (List.range' lo (hi - lo)).find? isFree with
  | none => none
  | some b =>
    let len := 1 + ((List.range' (b + 1) (min want (hi - b) - 1)).takeWhile isFree).length
    some (dvaOf v b, len, claim s v b len)

/-- Where a run with no hint should come from: the member with the most room. -/
def pickMember (s : Fs) : Nat :=
  (List.range' 1 (s.geo.nmembers - 1)).foldl
    (fun best v => if s.space.memFree v > s.space.memFree best then v else best) 0

/-- Which reserve an allocation respects (`enum cfs_alloc_class`). -/
inductive AllocClass
  | metadata | data
  deriving DecidableEq

/-- Where the scan of a member begins: at `hint`, unless that is not one of its
blocks. -/
def scanStart (m : Member) (hint : Nat) : Nat :=
  if hint < m.firstUsable || hint ≥ m.nblocks then m.firstUsable else hint

/-- One member's turn: from the hint (or the running hint) to its end, then from its
first block to there. -/
def allocFrom (s : Fs) (hint want first n : Nat) : Option (Nat × Nat × Fs) :=
  let v := (first + n) % s.geo.nmembers
  match s.geo.members[v]? with
  | none => none
  | some m =>
    let start := scanStart m (if n == 0 && dvaValid s.geo hint then dvaBlk hint
      else s.space.memHint v)
    (scanMember s v start m.nblocks want).or (scanMember s v m.firstUsable start want)

/-- Free blocks an allocation of the class may take: data stops at half the reserve. -/
def usableBlocks (s : Fs) (cls : AllocClass) : Nat :=
  let floor := if cls = .data then s.reserve / 2 else 0
  if s.space.freeBlocks > floor then s.space.freeBlocks - floor else 0

/-- The run length asked for: at least one block, at most what is usable. -/
def wantBlocks (want usable : Nat) : Nat :=
  let want := if want = 0 then 1 else want
  if want > usable then truncate32 usable else want

/-- First fit from `hint` (or the running hint), taking up to `want` consecutive free
blocks of one member. -/
def allocRun (cls : AllocClass) (hint want : Nat) : M (Nat × Nat) := fun s =>
  let usable := usableBlocks s cls
  if usable = 0 then (.error .enospc, s)
  else
    let first := if dvaValid s.geo hint then dvaVdev hint else pickMember s
    match (List.range s.geo.nmembers).findSome?
        (allocFrom s hint (wantBlocks want usable) first) with
    | none => (.error .enospc, s)
    | some (start, got, t) => (.ok (start, got), t)

def allocBlock : M Nat := do
  let (blk, _) ← allocRun .metadata 0 1
  pure blk

/-! ## What an allocation does -/

/-- `got` blocks from `start` on were free and are now taken, and nothing but the
allocator's own state has changed. -/
structure Claimed (s : Fs) (start got : Nat) (t : Fs) : Prop where
  got_pos : 0 < got
  valid : ∀ k < got, dvaValid s.geo (start + k) = true
  vdev : ∀ k < got, dvaVdev (start + k) = dvaVdev start
  was_free : ∀ k < got, allocated s (start + k) = false
  bits : ∀ l, t.space.bitmap l = true ↔
    s.space.bitmap l = true ∨ ∃ k < got, dvaLin s.geo (start + k) = some l
  frame : ∃ sp, t = { s with space := sp }

variable {s t : Fs} {start got v b want hint : Nat} {m : Member} {cls : AllocClass}

theorem Claimed.geo (h : Claimed s start got t) : t.geo = s.geo := by
  obtain ⟨sp, rfl⟩ := h.frame
  rfl

/-- What is allocated once the blocks of `D` have been taken. -/
theorem allocated_iff {D : Nat → Prop} (hgeo : t.geo = s.geo)
    (hv : ∀ d, D d → dvaValid s.geo d = true)
    (hb : ∀ l, t.space.bitmap l = true ↔
      s.space.bitmap l = true ∨ ∃ d, D d ∧ dvaLin s.geo d = some l) (d : Nat) :
    allocated t d = true ↔ allocated s d = true ∨ D d := by
  unfold allocated
  rw [hgeo]
  cases hd : dvaLin s.geo d with
  | none =>
    have hnot : ¬ D d := by
      intro hx
      obtain ⟨l, hl⟩ := exists_dvaLin_of_dvaValid (hv d hx)
      cases hd.symm.trans hl
    simp [hnot]
  | some l =>
    simp only [Option.any_some, hb l]
    refine or_congr_right ⟨?_, fun hx => ⟨d, hx, hd⟩⟩
    rintro ⟨e, he, hl⟩
    rw [dvaLin_inj hd hl]
    exact he

theorem Claimed.now (h : Claimed s start got t) (d : Nat) :
    allocated t d = true ↔ allocated s d = true ∨ ∃ k < got, d = start + k := by
  refine allocated_iff (D := fun d => ∃ k < got, d = start + k) h.geo ?_ (fun l => ?_) d
  · rintro _ ⟨k, hk, rfl⟩
    exact h.valid k hk
  · rw [h.bits l]
    refine or_congr_right ⟨fun ⟨k, hk, hl⟩ => ⟨_, ⟨k, hk, rfl⟩, hl⟩, ?_⟩
    rintro ⟨_, ⟨k, hk, rfl⟩, hl⟩
    exact ⟨k, hk, hl⟩

theorem Claimed.now_one (h : Claimed s start 1 t) (d : Nat) :
    allocated t d = true ↔ allocated s d = true ∨ d = start := by
  simpa using h.now d

theorem dvaLin_dvaOf {g : Geometry} (hm : g.members[v]? = some m) (hb : b < m.nblocks) :
    dvaLin g (dvaOf v b) = some (g.base v + b) := by
  have hlt := m.nblocks_lt
  rw [dvaLin_eq_some]
  refine ⟨m, ?_, ?_, ?_⟩
  · rw [dvaVdev_dvaOf, hm]
  · rw [dvaBlk_dvaOf (by omega)]
    exact hb
  · rw [dvaVdev_dvaOf, dvaBlk_dvaOf (by omega)]

theorem dvaValid_dvaOf {g : Geometry} (hm : g.members[v]? = some m) (hf : m.firstUsable ≤ b)
    (hb : b < m.nblocks) : dvaValid g (dvaOf v b) = true := by
  have hlt := m.nblocks_lt
  rw [dvaValid_iff]
  refine ⟨m, ?_, ?_, ?_⟩
  · rw [dvaVdev_dvaOf, hm]
  · rw [dvaBlk_dvaOf (by omega)]
    exact hf
  · rw [dvaBlk_dvaOf (by omega)]
    exact hb

theorem dvaOf_add {k : Nat} (h : b + k < 2 ^ 56) : dvaOf v b + k = dvaOf v (b + k) := by
  rw [dvaOf_eq, dvaOf_eq]
  omega

theorem claim_claimed {len : Nat} (hm : s.geo.members[v]? = some m) (hlen : 0 < len)
    (hf : m.firstUsable ≤ b) (hend : b + len ≤ m.nblocks)
    (hfree : ∀ k < len, s.space.bitmap (s.geo.base v + b + k) = false) :
    Claimed s (dvaOf v b) len (claim s v b len) := by
  have hlt := m.nblocks_lt
  have hadd : ∀ k < len, dvaOf v b + k = dvaOf v (b + k) := fun k hk => dvaOf_add (by omega)
  have hlin : ∀ k < len, dvaLin s.geo (dvaOf v b + k) = some (s.geo.base v + b + k) := by
    intro k hk
    rw [hadd k hk, dvaLin_dvaOf hm (by omega), Nat.add_assoc]
  refine ⟨hlen, ?_, ?_, ?_, ?_, ⟨_, rfl⟩⟩
  · intro k hk
    rw [hadd k hk]
    exact dvaValid_dvaOf hm (by omega) (by omega)
  · intro k hk
    rw [hadd k hk, dvaVdev_dvaOf, dvaVdev_dvaOf]
  · intro k hk
    rw [allocated, hlin k hk]
    exact hfree k hk
  · intro l
    simp only [claim, Bool.or_eq_true, Bool.and_eq_true, decide_eq_true_eq]
    constructor
    · rintro (⟨h1, h2⟩ | h)
      · refine Or.inr ⟨l - (s.geo.base v + b), by omega, ?_⟩
        rw [hlin _ (by omega)]
        congr 1
        omega
      · exact Or.inl h
    · rintro (h | ⟨k, hk, hl⟩)
      · exact Or.inr h
      · rw [hlin k hk, Option.some.injEq] at hl
        omega

theorem mem_takeWhile_range' {p : Nat → Bool} {a n k : Nat}
    (hk : k < ((List.range' a n).takeWhile p).length) : p (a + k) = true ∧ k < n := by
  have hle : ((List.range' a n).takeWhile p).length ≤ (List.range' a n).length :=
    (takeWhile_sublist p).length_le
  rw [length_range'] at hle
  have hmem : ((List.range' a n).takeWhile p).get ⟨k, hk⟩ ∈ (List.range' a n).takeWhile p :=
    get_mem _ _
  have hval : ((List.range' a n).takeWhile p).get ⟨k, hk⟩ = a + k := by
    have hpre := takeWhile_prefix (l := List.range' a n) p
    have hget := hpre.getElem (i := k) hk
    rw [get_eq_getElem, hget, getElem_range']
    omega
  rw [hval] at hmem
  exact ⟨mem_takeWhile_imp hmem, by omega⟩

/-- **What the scan claims**: the first free block inside the bounds and the free blocks
right after it, at most as many as wanted. -/
theorem scanMember_claim {lo hi : Nat} (h : scanMember s v lo hi want = some (start, got, t)) :
    ∃ b, start = dvaOf v b ∧ t = claim s v b got ∧ lo ≤ b ∧ b + got ≤ hi ∧ 0 < got ∧
      got ≤ max want 1 ∧ ∀ k < got, s.space.bitmap (s.geo.base v + b + k) = false := by
  unfold scanMember at h
  simp only at h
  split at h
  · cases h
  · rename_i b hb
    obtain ⟨hfree, hmem⟩ := List.find?_eq_some_iff_append.mp hb
    have hrange : b ∈ List.range' lo (hi - lo) := mem_of_find?_eq_some hb
    rw [mem_range'_1] at hrange
    simp only [Option.some.injEq, Prod.mk.injEq] at h
    obtain ⟨rfl, hlen, rfl⟩ := h
    -- the run is the free block found and the free blocks right after it
    have htail : ∀ k < ((List.range' (b + 1) (min want (hi - b) - 1)).takeWhile
        fun c => !s.space.bitmap (s.geo.base v + c)).length,
        s.space.bitmap (s.geo.base v + (b + 1 + k)) = false ∧ k < min want (hi - b) - 1 := by
      intro k hk
      have := mem_takeWhile_range' hk
      simpa using this
    have hall : ∀ k < got, s.space.bitmap (s.geo.base v + b + k) = false := by
      intro k hk
      cases k with
      | zero => simpa using hfree
      | succ k =>
        have := (htail k (by omega)).1
        rw [show s.geo.base v + b + (k + 1) = s.geo.base v + (b + 1 + k) by omega]
        exact this
    have hbound : got ≤ max (min want (hi - b)) 1 := by
      rcases Nat.lt_or_ge got 2 with h1 | h1
      · omega
      · have := (htail (got - 2) (by omega)).2
        omega
    rw [hlen]
    exact ⟨b, rfl, rfl, by omega, by omega, by omega, by omega, hall⟩

theorem scanStart_ge (m : Member) (hint : Nat) : m.firstUsable ≤ scanStart m hint := by
  unfold scanStart
  split
  · exact Nat.le_refl _
  · rename_i h
    simp only [Bool.or_eq_true, decide_eq_true_eq, not_or, Nat.not_lt] at h
    exact h.1

theorem scanStart_le (h : scanStart m hint ≠ m.firstUsable) :
    scanStart m hint ≤ m.nblocks := by
  unfold scanStart at h ⊢
  split
  · rename_i h1
    rw [if_pos h1] at h
    exact absurd rfl h
  · rename_i h1
    simp only [Bool.or_eq_true, decide_eq_true_eq, not_or, Nat.not_lt, ge_iff_le] at h1
    omega

theorem allocFrom_claim {first n : Nat} (h : allocFrom s hint want first n = some (start, got, t)) :
    ∃ v m b, s.geo.members[v]? = some m ∧ start = dvaOf v b ∧ t = claim s v b got ∧
      m.firstUsable ≤ b ∧ b + got ≤ m.nblocks ∧ 0 < got ∧ got ≤ max want 1 ∧
      ∀ k < got, s.space.bitmap (s.geo.base v + b + k) = false := by
  unfold allocFrom at h
  simp only at h
  split at h
  · cases h
  · rename_i m hm
    rcases Option.or_eq_some_iff.mp h with h1 | ⟨-, h2⟩
    · obtain ⟨b, hst, ht, hlo, hhi, hpos, hle, hfree⟩ := scanMember_claim h1
      exact ⟨_, m, b, hm, hst, ht, Nat.le_trans (scanStart_ge m _) hlo, hhi, hpos, hle, hfree⟩
    · generalize hst : scanStart m _ = st at h2
      obtain ⟨b, hst', ht, hlo, hhi, hpos, hle, hfree⟩ := scanMember_claim h2
      have hend : st ≤ m.nblocks := by
        by_cases heq : st = m.firstUsable
        · -- nothing lies before the first usable block
          omega
        · rw [← hst] at heq ⊢
          exact scanStart_le heq
      exact ⟨_, m, b, hm, hst', ht, hlo, by omega, hpos, hle, hfree⟩

theorem wantBlocks_le (want usable : Nat) : wantBlocks want usable ≤ max want 1 := by
  have htr : truncate32 usable ≤ usable := Nat.mod_le _ _
  unfold wantBlocks
  by_cases h0 : want = 0
  · simp only [h0, if_true]
    split <;> omega
  · simp only [h0, if_false]
    split <;> omega

/-- **A successful allocation** claims free blocks of one member. -/
theorem allocRun_claim (h : allocRun cls hint want s = (.ok (start, got), t)) :
    usableBlocks s cls ≠ 0 ∧ ∃ v m b, s.geo.members[v]? = some m ∧ start = dvaOf v b ∧
      t = claim s v b got ∧ m.firstUsable ≤ b ∧ b + got ≤ m.nblocks ∧ 0 < got ∧
      got ≤ max (wantBlocks want (usableBlocks s cls)) 1 ∧
      ∀ k < got, s.space.bitmap (s.geo.base v + b + k) = false := by
  unfold allocRun at h
  simp only at h
  split at h
  · cases h
  · rename_i husable
    split at h
    · cases h
    · rename_i start' got' t' hsome
      obtain ⟨⟨rfl, rfl⟩, rfl⟩ := h
      obtain ⟨n, -, hn⟩ := exists_of_findSome?_eq_some hsome
      exact ⟨husable, allocFrom_claim hn⟩

theorem allocRun_spec (h : allocRun cls hint want s = (.ok (start, got), t)) :
    Claimed s start got t ∧ got ≤ max want 1 := by
  obtain ⟨-, v, m, b, hm, rfl, rfl, hlo, hhi, hpos, hle, hfree⟩ := allocRun_claim h
  have hw := wantBlocks_le want (usableBlocks s cls)
  exact ⟨claim_claimed hm hpos hlo hhi hfree, by omega⟩

theorem allocRun_error {e : Errno} (h : allocRun cls hint want s = (.error e, t)) :
    e = .enospc ∧ t = s := by
  unfold allocRun at h
  simp only at h
  split at h
  · simp only [Prod.mk.injEq, Except.error.injEq] at h
    exact ⟨h.1.symm, h.2.symm⟩
  · split at h
    · simp only [Prod.mk.injEq, Except.error.injEq] at h
      exact ⟨h.1.symm, h.2.symm⟩
    · cases h

theorem allocRun_one {r : Except Errno (Nat × Nat)} (h : allocRun cls hint 1 s = (r, t)) :
    Ends (fun a => Claimed s a.1 1 t) (fun _ => t = s) r := by
  cases r with
  | ok a =>
    obtain ⟨hc, hle⟩ := allocRun_spec h
    have hpos := hc.got_pos
    rw [show a.2 = 1 by omega] at hc
    exact hc
  | error e => exact (allocRun_error h).2

theorem allocBlock_spec {r : Except Errno Nat} (h : allocBlock s = (r, t)) :
    Ends (fun d => Claimed s d 1 t) (fun _ => t = s) r := by
  rcases bind_cases h with ⟨e, ha, rfl⟩ | ⟨a, u, ha, h⟩
  · exact allocRun_one ha
  · cases h
    exact allocRun_one ha

/-! ## The deferred frees -/

/-- A list with no room grows: doubled, from `init` the first time. -/
def FreeList.grownCap (l : FreeList) (init : Nat) : Nat :=
  if l.cap ≠ 0 then l.cap * 2 % 2 ^ 32 else init

/-- One more entry, when there is room for it or memory for more room. -/
def FreeList.push (l : FreeList) (init d : Nat) (nomem : Bool) : Option FreeList :=
  if l.blocks.length = l.cap then
    if nomem then none else some ⟨l.blocks ++ [d], l.grownCap init⟩
  else some ⟨l.blocks ++ [d], l.cap⟩

/-- The memory a full list asks for before it takes an entry; `true` when refused. -/
def growFault (l : FreeList) (s : Fs) : Bool × Fs :=
  if l.blocks.length = l.cap then takeFault s else (false, s)

/-- "cosmofs: leaking block <blk> (no memory for the free list)". -/
def leaking (d : Nat) (s : Fs) : Fs :=
  { s with frees := { s.frees with leaked := s.frees.leaked ++ [d] } }

/-- Free a block this transaction owns outright: it waits for the root like any
deferred free, but no snapshot is asked about it. -/
def freeBlockExempt (d : Nat) (s : Fs) : Fs :=
  if !dvaValid s.geo d then s
  else
    let (nomem, t) := growFault s.frees.exempt s
    match t.frees.exempt.push 16 d nomem with
    | none => leaking d t
    | some l => { t with frees := { t.frees with exempt := l } }

/-- A block the clone frees, kept when its origin's tree reaches it (or that tree
could not be walked). -/
def cloneFree (c : Clone) (d : Nat) (s : Fs) : Fs :=
  match dvaLin s.geo d with
  | none => s
  | some lin =>
    let (nowalk, t) := if c.walked then (false, s) else takeFault s
    let kept := { t with frees := { t.frees with kept := t.frees.kept ++ [d] } }
    if nowalk then kept
    else
      let u := { t with curClone := some { c with walked := true } }
      if c.originReach lin then { u with frees := { u.frees with kept := u.frees.kept ++ [d] } }
      else freeBlockExempt d u

/-- A block the open transaction frees: reusable once its root is on disk. -/
def freeBlockDeferred (d : Nat) (s : Fs) : Fs :=
  match s.curClone with
  | some c => cloneFree c d s
  | none =>
    if !dvaValid s.geo d then s
    else
      let (nomem, t) := growFault s.frees.pending s
      match t.frees.pending.push 64 d nomem with
      | none => leaking d t
      | some l => { t with frees := { t.frees with pending := l } }

def freeAll (ds : List Nat) (s : Fs) : Fs := ds.foldl (fun s d => freeBlockDeferred d s) s

/-- Give back a block this transaction allocated and nothing has named or written: its
bit is cleared now, not at the next commit. -/
def allocUndo (d : Nat) (s : Fs) : Fs :=
  match dvaLin s.geo d with
  | none => s
  | some lin =>
    if !s.space.bitmap lin then s
    else
      { s with space :=
        { bitmap := Function.update s.space.bitmap lin false
          bitmapDirty := Function.update s.space.bitmapDirty (lin / bitsPerBitmap) true
          freeBlocks := s.space.freeBlocks + 1
          memFree := Function.update s.space.memFree (dvaVdev d) (s.space.memFree (dvaVdev d) + 1)
          memHint := s.space.memHint } }

/-! ## What a free does -/

/-- The blocks `ds` were given back, each to one of the lists; only the lists, the
faults spent on growing them and the clone's walk have changed.  On the live tree they
go to `pending`, or to `leaked` when it could not grow; inside a clone never to `pending`. -/
structure Disposed (s : Fs) (ds : List Nat) (t : Fs) : Prop where
  frame : ∃ fr fl c, t = { s with frees := fr, faults := fl, curClone := c }
  all_perm : t.frees.all.Perm (s.frees.all ++ ds)
  live : s.curClone = none →
    t.curClone = none ∧ t.frees.exempt = s.frees.exempt ∧ t.frees.kept = s.frees.kept
  room : s.curClone = none → s.faults = [] → t.faults = [] ∧
    t.frees.pending.blocks = s.frees.pending.blocks ++ ds ∧ t.frees.leaked = s.frees.leaked
  clone : s.curClone.isSome → t.curClone.isSome ∧ t.frees.pending = s.frees.pending

namespace Disposed

variable {s t u : Fs} {ds es : List Nat}

theorem refl (s : Fs) : Disposed s [] s :=
  ⟨⟨_, _, _, rfl⟩, by simp, fun h => ⟨h, rfl, rfl⟩, fun _ h => ⟨h, by simp, rfl⟩,
    fun h => ⟨h, rfl⟩⟩

theorem trans (h₁ : Disposed s ds t) (h₂ : Disposed t es u) : Disposed s (ds ++ es) u := by
  refine ⟨?_, ?_, ?_, ?_, ?_⟩
  · obtain ⟨fr, fl, c, rfl⟩ := h₁.frame
    obtain ⟨fr', fl', c', rfl⟩ := h₂.frame
    exact ⟨_, _, _, rfl⟩
  · have h := h₂.all_perm.trans (h₁.all_perm.append_right es)
    rwa [append_assoc] at h
  · intro hc
    obtain ⟨hc₁, he₁, hk₁⟩ := h₁.live hc
    obtain ⟨hc₂, he₂, hk₂⟩ := h₂.live hc₁
    exact ⟨hc₂, he₂.trans he₁, hk₂.trans hk₁⟩
  · intro hc hf
    obtain ⟨hf₁, hp₁, hl₁⟩ := h₁.room hc hf
    obtain ⟨hf₂, hp₂, hl₂⟩ := h₂.room (h₁.live hc).1 hf₁
    refine ⟨hf₂, ?_, hl₂.trans hl₁⟩
    rw [hp₂, hp₁, append_assoc]
  · intro hc
    obtain ⟨hc₁, hp₁⟩ := h₁.clone hc
    obtain ⟨hc₂, hp₂⟩ := h₂.clone hc₁
    exact ⟨hc₂, hp₂.trans hp₁⟩

theorem geo (h : Disposed s ds t) : t.geo = s.geo := by
  obtain ⟨fr, fl, c, rfl⟩ := h.frame
  rfl

end Disposed

theorem growFault_frame (l : FreeList) (s : Fs) :
    ∃ fl, (growFault l s).2 = { s with faults := fl } := by
  unfold growFault
  split
  · exact takeFault_frame s
  · exact ⟨_, rfl⟩

variable {s : Fs} {l : FreeList} {d : Nat}

theorem growFault_nil (l : FreeList) (h : s.faults = []) :
    growFault l s = (false, s) := by
  unfold growFault
  rw [takeFault_nil h]
  simp

theorem FreeList.push_blocks {l' : FreeList} {init : Nat} {nomem : Bool}
    (h : l.push init d nomem = some l') : l'.blocks = l.blocks ++ [d] := by
  unfold FreeList.push at h
  split at h
  · split at h
    · cases h
    · rw [← Option.some.inj h]
  · rw [← Option.some.inj h]

theorem FreeList.push_isSome (l : FreeList) (init d : Nat) :
    l.push init d false ≠ none := by
  unfold FreeList.push
  split <;> simp

theorem all_perm_leaked (f : Frees) (d : Nat) :
    ({ f with leaked := f.leaked ++ [d] } : Frees).all.Perm (f.all ++ [d]) := by
  rw [perm_iff_count]
  simp only [Frees.all, count_append]
  omega

theorem all_perm_kept (f : Frees) (d : Nat) :
    ({ f with kept := f.kept ++ [d] } : Frees).all.Perm (f.all ++ [d]) := by
  rw [perm_iff_count]
  simp only [Frees.all, count_append]
  omega

theorem all_perm_exempt (f : Frees) (h : l.blocks = f.exempt.blocks ++ [d]) :
    ({ f with exempt := l } : Frees).all.Perm (f.all ++ [d]) := by
  rw [perm_iff_count]
  simp only [Frees.all, h, count_append]
  omega

theorem all_perm_pending (f : Frees) (h : l.blocks = f.pending.blocks ++ [d]) :
    ({ f with pending := l } : Frees).all.Perm (f.all ++ [d]) := by
  rw [perm_iff_count]
  simp only [Frees.all, h, count_append]
  omega

theorem freeBlockExempt_cases (hd : dvaValid s.geo d = true) :
    ∃ fl f, freeBlockExempt d s = { s with frees := f, faults := fl } ∧
      f.all.Perm (s.frees.all ++ [d]) ∧ f.pending = s.frees.pending := by
  obtain ⟨fl, hg⟩ := growFault_frame s.frees.exempt s
  unfold freeBlockExempt
  simp only [hd, Bool.not_true, Bool.false_eq_true, if_false]
  rcases hgf : growFault s.frees.exempt s with ⟨nomem, t⟩
  rw [hgf] at hg
  rw [hg]
  split
  · exact ⟨_, _, rfl, all_perm_leaked _ d, rfl⟩
  · rename_i l hl
    exact ⟨_, _, rfl, all_perm_exempt _ (FreeList.push_blocks hl), rfl⟩

/-- **A deferred free** puts the block on one list, once. -/
theorem freeBlockDeferred_disposed (hd : dvaValid s.geo d = true) :
    Disposed s [d] (freeBlockDeferred d s) := by
  unfold freeBlockDeferred
  cases hc : s.curClone with
  | none =>
    have hlive : s.curClone.isSome → False := by simp [hc]
    obtain ⟨fl, hg⟩ := growFault_frame s.frees.pending s
    simp only [hd, Bool.not_true, Bool.false_eq_true, if_false]
    rcases hgf : growFault s.frees.pending s with ⟨nomem, t⟩
    rw [hgf] at hg
    simp only at hg ⊢
    rw [hg]
    split
    · rename_i hnone
      refine ⟨⟨_, _, _, rfl⟩, all_perm_leaked _ d, fun _ => ⟨hc, rfl, rfl⟩, ?_,
        fun h => (hlive h).elim⟩
      intro _ hf
      rw [growFault_nil _ hf] at hgf
      rw [← (Prod.mk.inj hgf).1] at hnone
      exact absurd hnone (FreeList.push_isSome _ _ _)
    · rename_i l hl
      have hb := FreeList.push_blocks hl
      refine ⟨⟨_, _, _, rfl⟩, all_perm_pending _ hb, fun _ => ⟨hc, rfl, rfl⟩, ?_,
        fun h => (hlive h).elim⟩
      intro _ hf
      rw [growFault_nil _ hf] at hgf
      rw [(Prod.mk.inj hgf).2] at hf
      rw [hg] at hf
      exact ⟨hf, hb, rfl⟩
  | some c =>
    obtain ⟨lin, hlin⟩ := exists_dvaLin_of_dvaValid hd
    -- only the clone's branch is left, so the two clauses about the live tree are void
    suffices hsuff : ∃ fl f c', cloneFree c d s =
        { s with frees := f, faults := fl, curClone := some c' } ∧
          f.all.Perm (s.frees.all ++ [d]) ∧ f.pending = s.frees.pending by
      obtain ⟨fl, f, c', hs, hp, hpend⟩ := hsuff
      simp only [hs]
      exact ⟨⟨_, _, _, rfl⟩, hp, fun h => absurd (hc.symm.trans h) (by simp),
        fun h => absurd (hc.symm.trans h) (by simp), fun _ => ⟨rfl, hpend⟩⟩
    unfold cloneFree
    simp only [hlin]
    obtain ⟨b, fl, hw⟩ : ∃ b fl, (if c.walked = true then (false, s) else takeFault s) =
        (b, { s with faults := fl }) := by
      split
      · exact ⟨false, s.faults, rfl⟩
      · obtain ⟨fl, ht⟩ := takeFault_frame s
        exact ⟨(takeFault s).1, fl, by rw [← ht]⟩
    rw [hw]
    split
    · exact ⟨_, _, c, by rw [← hc], all_perm_kept _ d, rfl⟩
    · split
      · exact ⟨_, _, _, rfl, all_perm_kept _ d, rfl⟩
      · obtain ⟨fl', f, he, hp⟩ := freeBlockExempt_cases
          (s := { s with faults := fl, curClone := some { c with walked := true } }) hd
        exact ⟨_, _, _, he, hp⟩

theorem freeAll_disposed {ds : List Nat} (h : ∀ d ∈ ds, dvaValid s.geo d = true) :
    Disposed s ds (freeAll ds s) := by
  induction ds generalizing s with
  | nil => exact Disposed.refl s
  | cons d ds ih =>
    have h1 := freeBlockDeferred_disposed (h d (by simp))
    have h2 : Disposed (freeBlockDeferred d s) ds (freeAll ds (freeBlockDeferred d s)) := by
      refine ih ?_
      intro e he
      rw [h1.geo]
      exact h e (mem_cons_of_mem _ he)
    exact h1.trans h2

/-! ## Giving an allocation back -/

/-- What `allocUndo` does to a block it has: the bit goes, and nothing else. -/
theorem allocUndo_bits {lin : Nat} (hl : dvaLin s.geo d = some lin) (l : Nat) :
    (allocUndo d s).space.bitmap l = true ↔ s.space.bitmap l = true ∧ l ≠ lin := by
  unfold allocUndo
  simp only [hl]
  by_cases hb : s.space.bitmap lin = true
  · simp only [hb, Bool.not_true, Bool.false_eq_true, if_false]
    by_cases hll : l = lin
    · subst hll
      simp
    · simp [hll]
  · rw [Bool.not_eq_true] at hb
    simp only [hb, Bool.not_false, if_true]
    constructor
    · intro h
      refine ⟨h, ?_⟩
      rintro rfl
      rw [hb] at h
      cases h
    · exact fun h => h.1

theorem allocUndo_frame (d : Nat) (s : Fs) : ∃ sp, allocUndo d s = { s with space := sp } := by
  unfold allocUndo
  split
  · exact ⟨_, rfl⟩
  · split <;> exact ⟨_, rfl⟩

theorem allocUndo_geo (d : Nat) (s : Fs) : (allocUndo d s).geo = s.geo := by
  obtain ⟨sp, h⟩ := allocUndo_frame d s
  rw [h]

def undoAll (ds : List Nat) (s : Fs) : Fs := ds.foldl (fun s d => allocUndo d s) s

theorem undoAll_cons (d : Nat) (ds : List Nat) (s : Fs) :
    undoAll (d :: ds) s = undoAll ds (allocUndo d s) := rfl

theorem undoAll_frame (ds : List Nat) (s : Fs) : ∃ sp, undoAll ds s = { s with space := sp } := by
  induction ds generalizing s with
  | nil => exact ⟨_, rfl⟩
  | cons d ds ih =>
    obtain ⟨sp, h1⟩ := allocUndo_frame d s
    obtain ⟨sp', h2⟩ := ih (allocUndo d s)
    refine ⟨sp', ?_⟩
    rw [undoAll_cons, h2, h1]

theorem undoAll_bits {ds : List Nat} (hd : ∀ d ∈ ds, dvaValid s.geo d = true) (l : Nat) :
    (undoAll ds s).space.bitmap l = true ↔
      s.space.bitmap l = true ∧ ∀ d ∈ ds, dvaLin s.geo d ≠ some l := by
  induction ds generalizing s with
  | nil => simp [undoAll]
  | cons d ds ih =>
    have hgeo := allocUndo_geo d s
    obtain ⟨lin, hlin⟩ := exists_dvaLin_of_dvaValid (hd d (by simp))
    have h1 : (undoAll ds (allocUndo d s)).space.bitmap l = true ↔ _ := ih (by
      intro e he
      rw [hgeo]
      exact hd e (mem_cons_of_mem _ he))
    rw [undoAll_cons, h1, allocUndo_bits hlin, hgeo]
    simp only [mem_cons, forall_eq_or_imp, hlin, ne_eq, Option.some.injEq]
    constructor
    · rintro ⟨⟨hb, hne⟩, hall⟩
      exact ⟨hb, fun h => hne h.symm, hall⟩
    · rintro ⟨hb, hne, hall⟩
      exact ⟨⟨hb, fun h => hne h.symm⟩, hall⟩

end CosmoOS.Cosmofs
