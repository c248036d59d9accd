import CosmoOS.Lib.Holders
import CosmoOS.Lib.Transition
import CosmoOS.Memory.Regions

/-!
# Copy on write across fork

`vm_space_fork` gives the child the parent's frames.  Private pages are made read-only in both
spaces, and each page-table entry holds a reference on its frame; the first write faults, and
`cow_write_locked` gives the writer a copy, or the frame itself if the count says that nobody else
holds it.  `vm_user_protect` asks the same count before it grants write.  Frames of the page cache
are never written through a private page, but replaced by a copy when a write faults.

## The world

The state is every space's page table, the attributes of every page (what `view` says of the region
list), and of each frame its count, its contents, whether it is the page cache's and how many
references are *owed*: an unmapped entry's is dropped only after the space lock is released.  A step
is one hold of a space lock, over one page where the code loops over pages; fork is one step.
Stores through a writable entry need no lock and are steps as well.  The shootdown comes after the
lock has been let go; until then a processor may store through an entry that is no longer there, a
step that the result leaves out.  The page cache is the environment: it takes frames, changes their
contents and drops them when nothing maps them.

## What is proved

`look` is what a private page reads as; `Event.effect` what it should be, on memories that share
nothing.  Along every run the two agree.  The invariant is `Inv`: an entry of a private page that
allows write is the only entry of its frame, and the count of a frame is, modulo `2 ^ 32`, the
number of its references.
-/

namespace CosmoOS.Memory.CowFork

open Function (forall_update_iff update update_eq_self update_of_ne update_self)

open UserSpace Lib

/-! ## Page tables and frames -/

structure Pte (F : Type) where
  frame : F
  prot : Prot
deriving DecidableEq, Repr

/-- The spaces, their page tables, and the frames.  A page is a space and a page number.  `stale`
are the entries a page had that some processor may still go by: `user_shootdown` comes after the
lock has been let go. -/
structure World (S F D : Type) where
  view : S × ℕ → Option Attr
  pte : S × ℕ → Option (Pte F)
  stale : S × ℕ → List (Pte F)
  refcount : F → ℕ
  cached : F → Bool
  data : F → D
  owed : F → ℕ

/-- `r->kind == VM_REGION_FILE && r->fmap->shared`. -/
def isShared (a : Attr) : Bool := a.kind == .file && a.file.any fun m => m.2.2

/-- `prot & ~VM_PROT_WRITE`. -/
def withoutWrite (p : Prot) : Prot := { p with write := false }

/-- How a fault can fail to be served here: it is another arm's, no memory, an assertion. -/
inductive FaultError where
  | again
  | enomem
  | assertion
deriving DecidableEq, Repr

variable {S F D : Type}

section Functions

variable [DecidableEq S] [DecidableEq F]

section

variable (w : World S F D) (x : S × ℕ) (a : Attr) (write : Bool)

def World.frameAt : Option F := (w.pte x).map Pte.frame

/-- `arch_mmu_map` of a page, or a change of the entry there. -/
def World.setEntry (e : Pte F) : World S F D :=
  { w with pte := update w.pte x (some e)
           stale := update w.stale x ((w.pte x).toList ++ w.stale x) }

/-- A frame from `pmm_alloc_page`, with what is put in it. -/
def World.allocFrame (f : F) (d : D) : World S F D :=
  { w with refcount := update w.refcount f 1, data := update w.data f d }

/-- `pmm_page_get`.  The count has 32 bits. -/
def World.pmmPageGet (f : F) : World S F D :=
  { w with refcount := update w.refcount f ((w.refcount f + 1) % 2 ^ 32) }

/-- A reference to be dropped once the lock is released. -/
def World.owe (f : F) : World S F D :=
  { w with owed := update w.owed f (w.owed f + 1) }

/-- `pmm_page_put`, of a reference that is owed.  At zero the frame is free. -/
def World.pmmPagePut (f : F) : World S F D :=
  { w with refcount := update w.refcount f ((w.refcount f + (2 ^ 32 - 1)) % 2 ^ 32)
           owed := update w.owed f (w.owed f - 1) }

/-! ## The functions -/

/-- `cow_write_locked`, for a page whose region has the attributes `a`. -/
def cowWriteLocked (alloc : Option F) : Except FaultError (World S F D) :=
  match w.pte x with
  | none => .error .again
  | some e =>
    if w.cached e.frame then .error .again
    else if e.prot.write then .ok w
    else if w.refcount e.frame = 1 then .ok (w.setEntry x ⟨e.frame, a.prot⟩)
    else
      match alloc with
      | none => .error .enomem
      | some f =>
        .ok (((w.allocFrame f (w.data e.frame)).setEntry x ⟨f, a.prot⟩).owe e.frame)

/-- `file_fault` in a shared region: the cache's frame, writable for a write that has dirtied
it. -/
def sharedFault (cache : F) : Except FaultError (World S F D) :=
  match w.pte x with
  | some e =>
    if write then
      -- installed clean, dirty now: the one in-place upgrade
      if e.frame = cache then .ok (w.setEntry x ⟨e.frame, a.prot⟩) else .error .assertion
    else .ok w
  | none =>
    .ok ((w.pmmPageGet cache).setEntry x
      ⟨cache, if write then a.prot else withoutWrite a.prot⟩)

/-- `file_fault` for a write in a private region: the page gets a copy of the cache's frame. -/
def copyFault (cache : F) (alloc : Option F) (overLimit : Bool) : Except FaultError (World S F D) :=
  match alloc with
  | none => .error .enomem
  | some f =>
    match w.pte x with
    | some e =>
      if w.cached e.frame then
        if overLimit then .error .enomem
        else .ok (((w.allocFrame f (w.data cache)).setEntry x ⟨f, a.prot⟩).owe e.frame)
      else .ok w
    | none =>
      if overLimit then .error .enomem
      else .ok ((w.allocFrame f (w.data cache)).setEntry x ⟨f, a.prot⟩)

/-- `file_fault` for a read in a private region: the cache's frame, read-only. -/
def readFault (cache : F) : World S F D :=
  match w.pte x with
  | some _ => w
  | none => (w.pmmPageGet cache).setEntry x ⟨cache, withoutWrite a.prot⟩

/-- `file_fault`, once the region has been found again: `cache` is the frame the page cache
gave, `alloc` the frame for a private copy, `overLimit` the test of `limit_anon_pages`. -/
def fileFault (cache : F) (alloc : Option F) (overLimit : Bool) : Except FaultError (World S F D) :=
  if isShared a then sharedFault w x a write cache
  else if write then copyFault w x a cache alloc overLimit
  else .ok (readFault w x a cache)

def frameSharedAnon (f : F) : Bool := !w.cached f && decide (1 < w.refcount f)

/-- What `vm_user_protect` gives a present page of a region with the attributes `a`. -/
def pageProt (f : F) (prot : Prot) : Prot :=
  match a.file with
  | none =>
    if prot.write = false then prot
    else if frameSharedAnon w f then withoutWrite prot else prot
  | some _ => if w.cached f || frameSharedAnon w f then withoutWrite prot else prot

/-- `vm_user_protect`, over one page. -/
def protectPage (prot : Prot) : World S F D :=
  let w' := { w with view := update w.view x (some { a with prot := prot }) }
  match w.pte x with
  | none => w'
  | some e => w'.setEntry x ⟨e.frame, pageProt w a e.frame prot⟩

/-- `user_range_teardown` and `vm_file_map_truncate`, over one page. -/
def teardownPage : World S F D :=
  match w.pte x with
  | none => w
  | some e =>
    { w with pte := update w.pte x none, stale := update w.stale x (e :: w.stale x) }.owe e.frame

/-- A page of a region that is unlinked, torn down. -/
def unmapPage : World S F D :=
  { teardownPage w x with view := update w.view x none }

end

/-- The parent's side of `fork_copy_pages`: a private page that allows write is lowered. -/
def lowerPage (w : World S F D) (x : S × ℕ) : World S F D :=
  match w.view x, w.pte x with
  | some a, some e =>
    if !isShared a && e.prot.write then w.setEntry x ⟨e.frame, withoutWrite e.prot⟩ else w
  | _, _ => w

/-- `fork_copy_pages`, over one page: the child's region is there, the parent's entry is lowered,
and the child has an entry like it with a reference of its own. -/
def forkPage (s d : S) (w : World S F D) (p : ℕ) : World S F D :=
  let w' := lowerPage w (s, p)
  let w' := { w' with view := update w'.view (d, p) (w.view (s, p)) }
  match w'.pte (s, p) with
  | none => w'
  | some e => (w'.pmmPageGet e.frame).setEntry (d, p) e

/-- `vm_space_fork` over the pages it comes to.  If a mapping fails it stops there, with the
parent's page already lowered, and the child is destroyed. -/
def vmSpaceFork (s d : S) (ps : List ℕ) (stop : Option ℕ) (w : World S F D) : World S F D :=
  let w' := ps.foldl (forkPage s d) w
  match stop with
  | none => w'
  | some p => lowerPage w' (s, p)

/-! ## Runs -/

/-- What a step is to the memory that private pages read as. -/
inductive Event (S D : Type) where
  | map (x : S × ℕ) (a : Attr)
  | unmap (x : S × ℕ)
  | truncate (x : S × ℕ)
  | copy (x : S × ℕ) (d : D)
  | store (x : S × ℕ) (g : D → D)
  | lateStore (x : S × ℕ) (g : D → D)
  | fork (s d : S) (ps : List ℕ)
  | silent

/-- The attributes of a user region: anonymous without a file, or a file's with one. -/
def Proper (a : Attr) : Prop := a.kind = .anon ∧ a.file = none ∨ a.kind = .file ∧ a.file.isSome

section Runs

variable [Zero D]

/-- What a page of private memory reads as: the contents of its frame, or zero where nothing has
been faulted in yet.  Where a page of the page cache shows through there is no private memory. -/
def look (w : World S F D) (x : S × ℕ) : Option D :=
  match w.view x with
  | none => none
  | some a =>
    match w.pte x with
    | some e => if w.cached e.frame then none else some (w.data e.frame)
    | none => if a.file.isNone then some 0 else none

/-- **Memories that share nothing**: what each event does to them. -/
def Event.effect (m : S × ℕ → Option D) : Event S D → S × ℕ → Option D
  | .map x a => update m x (if a.file.isNone then some 0 else none)
  | .unmap x => update m x none
  | .truncate x => update m x none
  | .copy x d => update m x (some d)
  | .store x g | .lateStore x g => update m x ((m x).map g)
  | .fork s d ps => fun y => if y.1 = d ∧ y.2 ∈ ps then m (s, y.2) else m y
  | .silent => m

/-- The event of a file fault: a private write that takes a copy. -/
def faultEvent (w : World S F D) (x : S × ℕ) (a : Attr) (write : Bool) (cache : F) : Event S D :=
  if !isShared a && write && ((w.frameAt x).all fun f => w.cached f) then
    .copy x (w.data cache)
  else .silent

/-- The steps, with their events. -/
inductive Step : World S F D → Event S D → World S F D → Prop
  /-- A page of a new region. -/
  | map (w : World S F D) (x : S × ℕ) (a : Attr) (hx : w.view x = none) (ha : Proper a) :
      Step w (.map x a) { w with view := update w.view x (some a) }
  /-- A page of a region that is unmapped, or of a space that dies. -/
  | unmap (w : World S F D) (x : S × ℕ) : Step w (.unmap x) (unmapPage w x)
  /-- A page beyond the new end of its file. -/
  | truncate (w : World S F D) (x : S × ℕ) (a : Attr) (hx : w.view x = some a)
      (hfile : a.kind = .file) : Step w (.truncate x) (teardownPage w x)
  /-- The first access to a page of anonymous memory. -/
  | demandZero (w : World S F D) (x : S × ℕ) (a : Attr) (f : F) (hx : w.view x = some a)
      (hanon : a.kind = .anon) (habsent : w.pte x = none) (hfree : w.refcount f = 0) :
      Step w .silent ((w.allocFrame f 0).setEntry x ⟨f, a.prot⟩)
  /-- A write to a present page of private memory. -/
  | cowWrite (w : World S F D) (x : S × ℕ) (a : Attr) (alloc : Option F) (w' : World S F D)
      (hx : w.view x = some a) (hprivate : isShared a = false) (hwrite : a.prot.write = true)
      (hfree : ∀ f, alloc = some f → w.refcount f = 0)
      (h : cowWriteLocked w x a alloc = .ok w') : Step w .silent w'
  /-- A fault on a page of a file. -/
  | fileFault (w : World S F D) (x : S × ℕ) (a : Attr) (write : Bool) (cache : F)
      (alloc : Option F) (overLimit : Bool) (w' : World S F D) (hx : w.view x = some a)
      (hfile : a.kind = .file) (hwrite : write = true → a.prot.write = true)
      (hcache : w.cached cache = true) (hfree : ∀ f, alloc = some f → w.refcount f = 0)
      (h : fileFault w x a write cache alloc overLimit = .ok w') :
      Step w (faultEvent w x a write cache) w'
  | store (w : World S F D) (x : S × ℕ) (g : D → D) (e : Pte F) (hx : w.pte x = some e)
      (hwrite : e.prot.write = true) :
      Step w (.store x g)
        { w with data := update w.data e.frame (g (w.data e.frame)) }
  /-- A store of a processor that has not been shot down yet. -/
  | lateStore (w : World S F D) (x : S × ℕ) (g : D → D) (e : Pte F) (hx : e ∈ w.stale x)
      (hwrite : e.prot.write = true) :
      Step w (.lateStore x g)
        { w with data := update w.data e.frame (g (w.data e.frame)) }
  /-- `user_shootdown`, over one page. -/
  | shootdown (w : World S F D) (x : S × ℕ) :
      Step w .silent { w with stale := update w.stale x [] }
  | protect (w : World S F D) (x : S × ℕ) (a : Attr) (prot : Prot) (hx : w.view x = some a) :
      Step w .silent (protectPage w x a prot)
  | put (w : World S F D) (f : F) (hf : 0 < w.owed f) : Step w .silent (w.pmmPagePut f)
  | fork (w : World S F D) (s d : S) (ps : List ℕ) (stop : Option ℕ) (hne : s ≠ d)
      (hps : ps.Nodup) (hempty : ∀ p, w.view (d, p) = none) :
      Step w (.fork s d ps) (vmSpaceFork s d ps stop w)
  /-- The page cache takes a frame. -/
  | cacheFill (w : World S F D) (f : F) (c : D) (hfree : w.refcount f = 0) :
      Step w .silent { w.allocFrame f c with cached := update w.cached f true }
  /-- Its contents change: a write to the file. -/
  | cacheWrite (w : World S F D) (f : F) (c : D) (hf : w.cached f = true) :
      Step w .silent { w with data := update w.data f c }
  /-- It drops a frame nothing maps. -/
  | cacheDrop (w : World S F D) (f : F) (hf : w.cached f = true) (hone : w.refcount f = 1) :
      Step w .silent { w with cached := update w.cached f false
                              refcount := update w.refcount f 0 }

/-- No space, no frame in use. -/
structure Initial (w : World S F D) : Prop where
  view : ∀ x, w.view x = none
  pte : ∀ x, w.pte x = none
  stale : ∀ x, w.stale x = []
  refcount : ∀ f, w.refcount f = 0
  cached : ∀ f, w.cached f = false
  owed : ∀ f, w.owed f = 0

end Runs

end Functions

/-! ## The invariant -/

/-- What an entry may be, given the attributes of its page: shared pages map the cache's frames,
anonymous pages never do, and no private page maps one writable. -/
structure Fits (cached : F → Bool) (a : Attr) (e : Pte F) : Prop where
  shared : isShared a = true → cached e.frame = true
  anon : a.file = none → cached e.frame = false
  private' : isShared a = false → e.prot.write = true → cached e.frame = false

/-- The references to a frame. -/
noncomputable def World.references (w : World S F D) (f : F) : ℕ :=
  {x | ∃ e, w.pte x = some e ∧ e.frame = f}.ncard + w.owed f + if w.cached f then 1 else 0

/-- The steps by the tables as they stand, from a world in which no frame has 2^32 references. -/
def Current [DecidableEq S] [DecidableEq F] [Zero D] (w : World S F D) (ev : Event S D)
    (w' : World S F D) : Prop :=
  Step w ev w' ∧ (∀ x g, ev ≠ .lateStore x g) ∧ ∀ f, w.references f < 2 ^ 32

/-- **The invariant of copy on write.** -/
structure Inv (w : World S F D) : Prop where
  finite : ∀ f, (holders w.frameAt f).Finite
  counted : ∀ f, w.refcount f = w.references f % 2 ^ 32
  proper : ∀ x a, w.view x = some a → Proper a
  fits : ∀ x e, w.pte x = some e → ∃ a, w.view x = some a ∧ Fits w.cached a e
  /-- An entry of a private page that allows write is the only one of its frame. -/
  sole : ∀ x e a, w.pte x = some e → w.view x = some a → isShared a = false →
    e.prot.write = true → ∀ y, w.frameAt y = some e.frame → y = x

/-- The page is private and its entry, of frame `f`, allows write. -/
def Owns (w : World S F D) (x : S × ℕ) (f : F) : Prop :=
  ∃ e a, w.pte x = some e ∧ w.view x = some a ∧ isShared a = false ∧ e.prot.write = true ∧
    e.frame = f

variable {w w' : World S F D} {x y : S × ℕ} {f cache : F} {e : Pte F} {a : Attr} {ow : F → ℕ}
    {prot : Prot} {alloc : Option F} {write overLimit : Bool} {s d : S} {p : ℕ} {ps : List ℕ}

theorem frameAt_eq_some :
    w.frameAt x = some f ↔ ∃ e, w.pte x = some e ∧ e.frame = f := by
  rw [World.frameAt, Option.map_eq_some_iff]

theorem frameAt_of_pte (h : w.pte x = some e) :
    w.frameAt x = some e.frame := frameAt_eq_some.mpr ⟨e, h, rfl⟩

theorem frameAt_of_none (h : w.pte x = none) :
    w.frameAt x = none := by
  rw [World.frameAt, h]
  rfl

theorem references_eq (f : F) : w.references f =
    (holders w.frameAt f).ncard + w.owed f + if w.cached f then 1 else 0 := by
  have hset : holders w.frameAt f = {x | ∃ e, w.pte x = some e ∧ e.frame = f} := by
    ext x
    exact frameAt_eq_some
  rw [hset]
  rfl

section

variable (hinv : Inv w)

include hinv

theorem Inv.refcount_lt (f : F) : w.refcount f < 2 ^ 32 := by
  rw [hinv.counted]
  exact Nat.mod_lt _ (by decide)

theorem Inv.of_unheld (hzero : (holders w.frameAt f).ncard = 0) (hx : w.pte x = some e) :
    e.frame ≠ f := by
  rintro rfl
  exact not_held (hinv.finite e.frame) hzero x (frameAt_of_pte hx)

theorem Inv.of_free (hfew : w.references f < 2 ^ 32) (hfree : w.refcount f = 0) :
    (holders w.frameAt f).ncard = 0 ∧ w.owed f = 0 ∧ w.cached f = false := by
  have hcount := hinv.counted f
  rw [Nat.mod_eq_of_lt hfew, references_eq, hfree] at hcount
  refine ⟨by omega, by omega, ?_⟩
  cases hc : w.cached f with
  | false => rfl
  | true =>
    rw [hc] at hcount
    simp at hcount

/-- A frame with one reference, held by an entry, is held by that entry alone. -/
theorem Inv.of_one (hfew : w.references f < 2 ^ 32) (hx : w.frameAt x = some f)
    (hone : w.refcount f ≤ 1) (hy : w.frameAt y = some f) : y = x := by
  have hcount := hinv.counted f
  rw [Nat.mod_eq_of_lt hfew, references_eq] at hcount
  exact sole_holder (hinv.finite f) (by omega) hx hy

theorem Inv.fit (hx : w.view x = some a) (he : w.pte x = some e) : Fits w.cached a e := by
  obtain ⟨a', ha', hfits⟩ := hinv.fits x e he
  rw [hx, Option.some.injEq] at ha'
  rw [ha']
  exact hfits

theorem Inv.pte_eq_none (hx : w.view x = none) : w.pte x = none := by
  cases he : w.pte x with
  | none => rfl
  | some e =>
    obtain ⟨a, ha, -⟩ := hinv.fits x e he
    rw [hx] at ha
    cases ha

theorem Inv.file_isSome (hx : w.view x = some a) (hfile : a.kind = .file) : a.file.isSome := by
  rcases hinv.proper x a hx with ⟨hk, -⟩ | ⟨-, hs⟩
  · rw [hfile] at hk
    cases hk
  · exact hs

theorem Inv.not_owns_of_held (hx : w.frameAt x = some f) (hne : y ≠ x) : ¬ Owns w y f := by
  rintro ⟨e, a, hy, ha, hprivate, hwrite, rfl⟩
  exact hne (hinv.sole y e a hy ha hprivate hwrite x hx).symm

theorem Inv.not_owns_of_cached (hf : w.cached f = true) : ¬ Owns w y f := by
  rintro ⟨e, a, hy, ha, hprivate, hwrite, rfl⟩
  have hclear := (hinv.fit ha hy).private' hprivate hwrite
  rw [hf] at hclear
  cases hclear

theorem Inv.setData (dat : F → D) : Inv { w with data := dat } := { hinv with }

end

theorem Inv.init (h : Initial w) : Inv w := by
  have hempty : ∀ f, holders w.frameAt f = ∅ := by
    intro f
    ext x
    simp [mem_holders, frameAt_of_none (h.pte x)]
  refine ⟨?_, ?_, ?_, ?_, ?_⟩
  · intro f
    rw [hempty f]
    exact Set.finite_empty
  · intro f
    rw [references_eq, hempty f, h.refcount f, h.owed f, h.cached f]
    simp
  · intro x a hx
    rw [h.view x] at hx
    cases hx
  · intro x e hx
    rw [h.pte x] at hx
    cases hx
  · intro x e a hx
    rw [h.pte x] at hx
    cases hx

/-- `vm_user_protect` grants write only where a frame is not the cache's and nobody else's. -/
theorem pageProt_write (hfits : Fits w.cached a e) (h : (pageProt w a e.frame prot).write = true) :
    w.cached e.frame = false ∧ w.refcount e.frame ≤ 1 := by
  rw [pageProt] at h
  cases hfile : a.file with
  | none =>
    rw [hfile] at h
    simp only at h
    have hcached := hfits.anon hfile
    split_ifs at h with hro hsh
    · rw [hro] at h
      cases h
    · simp only [withoutWrite] at h
      cases h
    · refine ⟨hcached, ?_⟩
      simpa [frameSharedAnon, hcached] using hsh
  | some m =>
    rw [hfile] at h
    simp only at h
    split_ifs at h with hkeep
    · simp only [withoutWrite] at h
      cases h
    · simp only [frameSharedAnon, Bool.or_eq_true, Bool.and_eq_true, Bool.not_eq_true',
        decide_eq_true_eq, not_or, not_and, not_lt, Bool.not_eq_true] at hkeep
      exact ⟨hkeep.1, hkeep.2 hkeep.1⟩

/-! ## What private pages read as -/

section Look

variable [Zero D]

/-- **The world stands for memories that share nothing.** -/
structure Refines (w : World S F D) (m : S × ℕ → Option D) : Prop where
  inv : Inv w
  look : look w = m

theorem Inv.refines (hinv : Inv w) : Refines w (look w) := ⟨hinv, rfl⟩

section

variable (hview : (w'.view y).map Attr.file = (w.view y).map Attr.file)
  (hframe : w'.frameAt y = w.frameAt y)

include hview hframe

/-- What a page reads as is settled by the file behind it and by its frame. -/
theorem look_congr (hdata : ∀ f, w.frameAt y = some f →
      w'.cached f = w.cached f ∧ (w.cached f = false → w'.data f = w.data f)) :
    look w' y = look w y := by
  cases hv : w.view y with
  | none =>
    rw [hv, Option.map_none, Option.map_eq_none_iff] at hview
    simp [look, hv, hview]
  | some a =>
    rw [hv, Option.map_some, Option.map_eq_some_iff] at hview
    obtain ⟨a', hv', hfile⟩ := hview
    cases he : w.pte y with
    | none =>
      rw [frameAt_of_none he, World.frameAt, Option.map_eq_none_iff] at hframe
      simp [look, hv, hv', he, hframe, hfile]
    | some e =>
      rw [frameAt_of_pte he, frameAt_eq_some] at hframe
      obtain ⟨e', he', hsame⟩ := hframe
      obtain ⟨hcached, hcontents⟩ := hdata e.frame (frameAt_of_pte he)
      simp only [look, hv, hv', he, he', hsame, hcached]
      cases hc : w.cached e.frame with
      | true => rfl
      | false => simp [hcontents hc]

theorem look_congr_tables (hcached : w'.cached = w.cached) (hdata : w'.data = w.data) :
    look w' y = look w y :=
  look_congr hview hframe fun f _ => ⟨congrFun hcached f, fun _ => congrFun hdata f⟩

end

theorem look_of_pte (hx : w.view x = some a) (he : w.pte x = some e) :
    look w x = if w.cached e.frame then none else some (w.data e.frame) := by
  simp only [look, hx, he]

theorem look_of_absent (hx : w.view x = some a) (he : w.pte x = none) :
    look w x = if a.file.isNone then some 0 else none := by
  simp only [look, hx, he]

end Look

/-! ## Changes of the tables -/

variable [DecidableEq S] [DecidableEq F]

omit [DecidableEq S] in
theorem update_succ (c : F → ℕ) (f g : F) :
    update c f (c f + 1) g = c g + if some f = some g then 1 else 0 := by
  rcases eq_or_ne g f with rfl | hne
  · simp
  · simp [hne, hne.symm]

omit [DecidableEq S] in
theorem Inv.get_mod (hinv : Inv w) (f g : F) :
    update w.refcount f ((w.refcount f + 1) % 2 ^ 32) g =
      (w.refcount g + if some f = some g then 1 else 0) % 2 ^ 32 := by
  rcases eq_or_ne g f with rfl | hne
  · simp
  · simpa [hne, hne.symm] using (Nat.mod_eq_of_lt (hinv.refcount_lt g)).symm

omit [DecidableEq F] in
theorem frameAt_update (w : World S F D) (x : S × ℕ) (v : Option (Pte F))
    (st : S × ℕ → List (Pte F)) : { w with pte := update w.pte x v, stale := st }.frameAt =
      update w.frameAt x (v.map Pte.frame) := by
  funext y
  rcases eq_or_ne y x with rfl | hne
  · simp [World.frameAt]
  · simp [World.frameAt, hne]

/-- **An entry is changed.**  The counts follow the entries, and a new entry fits its page; its
frame is no other page's own, and if it makes the page own it then nothing else has it. -/
theorem Inv.setPte (hinv : Inv w) {v : Option (Pte F)} {rc : F → ℕ} {dat : F → D}
    {st : S × ℕ → List (Pte F)} (hrc : ∀ f, rc f < 2 ^ 32)
    (hcount : ∀ f, (rc f + (if w.frameAt x = some f then 1 else 0) + w.owed f) % 2 ^ 32 =
      (w.refcount f + (if v.map Pte.frame = some f then 1 else 0) + ow f) % 2 ^ 32)
    (hfits : ∀ e, v = some e → ∃ a, w.view x = some a ∧ Fits w.cached a e)
    (hother : ∀ e, v = some e → ∀ y, y ≠ x → ¬ Owns w y e.frame)
    (hsole : ∀ e a, v = some e → w.view x = some a → isShared a = false → e.prot.write = true →
      ∀ y, w.frameAt y = some e.frame → y = x) :
    Inv { w with
      pte := update w.pte x v, stale := st, refcount := rc, owed := ow, data := dat } := by
  have hframe : (World.mk w.view (update w.pte x v) st rc w.cached dat ow).frameAt =
      update w.frameAt x (v.map Pte.frame) := frameAt_update w x v st
  refine ⟨?_, ?_, hinv.proper, ?_, ?_⟩
  · intro f
    rw [hframe]
    exact finite_holders_update (hinv.finite f) x _
  · intro f
    rw [references_eq, hframe]
    have hnew := ncard_holders_update (hinv.finite f) x (v.map Pte.frame)
    have hold := hinv.counted f
    rw [references_eq] at hold
    have hc := hcount f
    have hlt := hrc f
    simp only
    omega
  · exact (forall_update_iff w.pte fun y o => ∀ e, o = some e →
      ∃ a, w.view y = some a ∧ Fits w.cached a e).mpr
      ⟨hfits, fun y _ => hinv.fits y⟩
  · intro y e a hy ha hprivate hwrite z hz
    rw [hframe] at hz
    rcases eq_or_ne y x with rfl | hne
    · simp only [update_self] at hy
      rcases eq_or_ne z y with rfl | hzne
      · rfl
      · rw [update_of_ne hzne] at hz
        exact hsole e a hy ha hprivate hwrite z hz
    · simp only [update_of_ne hne] at hy
      rcases eq_or_ne z x with rfl | hzne
      · rw [update_self, Option.map_eq_some_iff] at hz
        obtain ⟨e', he', hz⟩ := hz
        exact absurd ⟨e, a, hy, ha, hprivate, hwrite, hz.symm⟩ (hother e' he' y hne)
      · rw [update_of_ne hzne] at hz
        exact hinv.sole y e a hy ha hprivate hwrite z hz

omit [DecidableEq F] in
/-- The attributes of a page may change where it has no entry, and otherwise in its protection,
which is not part of what its entry has to fit. -/
theorem Inv.setView (hinv : Inv w) {v : Option Attr} (hv : ∀ a, v = some a → Proper a)
    (hkeep : ∀ e, w.pte x = some e → ∃ a prot, w.view x = some a ∧
      v = some { a with prot := prot }) :
    Inv { w with view := update w.view x v } := by
  refine ⟨hinv.finite, hinv.counted, ?_, ?_, ?_⟩
  · exact (forall_update_iff w.view fun _ o => ∀ a, o = some a → Proper a).mpr
      ⟨hv, fun y _ => hinv.proper y⟩
  · intro y e hy
    rcases eq_or_ne y x with rfl | hne
    · obtain ⟨a, prot, ha, rfl⟩ := hkeep e hy
      have hfits := hinv.fit ha hy
      exact ⟨_, update_self _ _ _, hfits.shared, hfits.anon, hfits.private'⟩
    · obtain ⟨b, hb, hfits⟩ := hinv.fits y e hy
      exact ⟨b, by simpa [hne] using hb, hfits⟩
  · intro y e b hy hb hprivate
    rcases eq_or_ne y x with rfl | hne
    · obtain ⟨a, prot, ha, rfl⟩ := hkeep e hy
      simp only [update_self, Option.some.injEq] at hb
      subst hb
      exact hinv.sole y e a hy ha hprivate
    · simp only [update_of_ne hne] at hb
      exact hinv.sole y e b hy hb hprivate

omit [DecidableEq F] in
theorem Inv.setView_of_absent (hinv : Inv w) (habsent : w.pte x = none) {v : Option Attr}
    (hv : ∀ a, v = some a → Proper a) : Inv { w with view := update w.view x v } := by
  refine hinv.setView hv ?_
  rw [habsent]
  nofun

omit [DecidableEq S] in
/-- A reference that was owed and is dropped leaves the count right. -/
theorem Inv.put (hinv : Inv w) (hf : 0 < w.owed f) :
    Inv (w.pmmPagePut f) := by
  refine { hinv with counted := fun g => ?_ }
  have hcount := hinv.counted g
  rw [references_eq] at hcount ⊢
  change update w.refcount f ((w.refcount f + (2 ^ 32 - 1)) % 2 ^ 32) g =
    ((holders w.frameAt g).ncard + update w.owed f (w.owed f - 1) g +
      if w.cached g then 1 else 0) % 2 ^ 32
  rcases eq_or_ne g f with rfl | hne
  · rw [update_self, update_self]
    omega
  · rw [update_of_ne hne, update_of_ne hne]
    exact hcount

/-! ## Pages that change -/

variable [Zero D]

omit [DecidableEq F] in
theorem look_setView_ne {v : Option Attr} (hne : y ≠ x) :
    look { w with view := update w.view x v } y = look w y :=
  look_congr_tables (by simp [hne]) rfl rfl rfl

section

variable (hinv : Inv w)

include hinv

/-- **A new frame for a page**, from the allocator: it is this page's own, what the page had before
is owed, and the page reads as what was put in it. -/
theorem Inv.installFresh (hx : w.view x = some a) (hprivate : isShared a = false)
    (hfew : w.references f < 2 ^ 32) (hfree : w.refcount f = 0) (prot : Prot) (c : D)
    {st : S × ℕ → List (Pte F)}
    (how : ∀ g, ow g = w.owed g + if w.frameAt x = some g then 1 else 0) :
    Refines { w with pte := update w.pte x (some ⟨f, prot⟩), stale := st
                     refcount := update w.refcount f 1, owed := ow, data := update w.data f c }
      (update (look w) x (some c)) := by
  obtain ⟨hzero, -, hcached⟩ := hinv.of_free hfew hfree
  have hnone := not_held (hinv.finite f) hzero
  refine ⟨hinv.setPte ?_ ?_ ?_ ?_ ?_, Function.eq_update_iff.mpr ⟨?_, fun y hne => ?_⟩⟩
  · exact (forall_update_iff w.refcount fun _ n => n < 2 ^ 32).mpr
      ⟨by decide, fun g _ => hinv.refcount_lt g⟩
  · intro g
    have hnew := update_succ w.refcount f g
    rw [hfree] at hnew
    simp only [how g, hnew, Option.map_some]
    omega
  · rintro _ ⟨⟩
    exact ⟨a, hx, fun h => by simp [hprivate] at h, fun _ => hcached, fun _ _ => hcached⟩
  · rintro _ ⟨⟩ y - ⟨e, -, hy, -, -, -, hf⟩
    exact hinv.of_unheld hzero hy hf
  · rintro _ _ ⟨⟩ - - - y hy
    exact absurd hy (hnone y)
  · simp [look, hx, hcached]
  · refine look_congr rfl (by simp [World.frameAt, hne]) fun g hg => ⟨rfl, fun _ => ?_⟩
    refine update_of_ne ?_ _ _
    rintro rfl
    exact hnone y hg

/-- **The same frame with another protection**: lowered, or raised where nothing else has it. -/
theorem Inv.reprotect (hx : w.view x = some a) (he : w.pte x = some e)
    (hraise : isShared a = false → prot.write = true → w.references e.frame < 2 ^ 32 ∧
      w.cached e.frame = false ∧ w.refcount e.frame ≤ 1) :
    Refines (w.setEntry x ⟨e.frame, prot⟩) (look w) := by
  have hframe := frameAt_of_pte he
  have hfits := hinv.fit hx he
  refine ⟨hinv.setPte ?_ ?_ ?_ ?_ ?_, funext fun y => look_congr_tables rfl ?_ rfl rfl⟩
  · exact hinv.refcount_lt
  · intro f
    rw [hframe, Option.map_some]
  · rintro _ ⟨⟩
    exact ⟨a, hx, hfits.shared, hfits.anon, fun hp hw => (hraise hp hw).2.1⟩
  · rintro _ ⟨⟩ y hne
    exact hinv.not_owns_of_held hframe hne
  · rintro _ b ⟨⟩ hb hp hw y hy
    rw [hx, Option.some.injEq] at hb
    obtain ⟨hfew, -, hone⟩ := hraise (hb ▸ hp) hw
    exact hinv.of_one hfew hframe hone hy
  · rw [World.setEntry, frameAt_update, Option.map_some, ← hframe, update_eq_self]

/-- **An entry for a frame of the cache**, which gains a reference: never writable in a private
page. -/
theorem Inv.installCached (hx : w.view x = some a) (hfile : a.file.isSome)
    (habsent : w.pte x = none) (hcached : w.cached f = true)
    (hprot : isShared a = false → prot.write = false) :
    Refines ((w.pmmPageGet f).setEntry x ⟨f, prot⟩) (look w) := by
  have hnever : isShared a = false → prot.write ≠ true := by
    intro hp hw
    rw [hprot hp] at hw
    cases hw
  refine ⟨hinv.setPte ?_ ?_ ?_ ?_ ?_, ?_⟩
  · intro g
    simp only [World.pmmPageGet, hinv.get_mod]
    exact Nat.mod_lt _ (by decide)
  · intro g
    simp only [World.pmmPageGet, hinv.get_mod, frameAt_of_none habsent, Option.map_some]
    simp [Nat.add_mod]
  · rintro _ ⟨⟩
    refine ⟨a, hx, fun _ => hcached, ?_, fun hp hw => absurd hw (hnever hp)⟩
    intro h
    rw [h] at hfile
    cases hfile
  · rintro _ ⟨⟩ y -
    exact hinv.not_owns_of_cached hcached
  · rintro _ b ⟨⟩ hb hp hw
    rw [hx, Option.some.injEq] at hb
    exact absurd hw (hnever (hb ▸ hp))
  · funext y
    rcases eq_or_ne y x with rfl | hne
    · have hnone : a.file.isNone = false := by
        rw [← Option.not_isSome, hfile]
        rfl
      rw [look_of_absent hx habsent, hnone]
      simp [look, hx, World.setEntry, World.pmmPageGet, hcached]
    · refine look_congr_tables rfl ?_ rfl rfl
      simp [World.frameAt, World.setEntry, World.pmmPageGet, hne]

omit [DecidableEq S] in
/-- **A frame no page has** becomes the page cache's, or stops being it. -/
theorem Inv.setCached (hzero : (holders w.frameAt f).ncard = 0) {b : Bool} {n : ℕ}
    (hn : n = (w.owed f + if b then 1 else 0) % 2 ^ 32) {dat : F → D}
    (hdat : ∀ g, g ≠ f → dat g = w.data g) :
    Refines { w with cached := update w.cached f b, refcount := update w.refcount f n
                     data := dat } (look w) := by
  refine ⟨⟨hinv.finite, ?_, hinv.proper, ?_, hinv.sole⟩, ?_⟩
  · intro g
    have hcount := hinv.counted g
    rw [references_eq] at hcount ⊢
    change update w.refcount f n g = ((holders w.frameAt g).ncard + w.owed g +
      if update w.cached f b g = true then 1 else 0) % 2 ^ 32
    rcases eq_or_ne g f with rfl | hg
    · rw [update_self, update_self, hzero, hn, zero_add]
    · rw [update_of_ne hg, update_of_ne hg]
      exact hcount
  · intro x e hx
    obtain ⟨a, ha, hfits⟩ := hinv.fits x e hx
    have hsame : update w.cached f b e.frame = w.cached e.frame :=
      update_of_ne (hinv.of_unheld hzero hx) _ _
    exact ⟨a, ha, fun h => hsame.trans (hfits.shared h),
      fun h => hsame.trans (hfits.anon h), fun h h' => hsame.trans (hfits.private' h h')⟩
  · funext y
    refine look_congr rfl rfl fun g hg => ?_
    have hgf : g ≠ f := by
      rintro rfl
      exact not_held (hinv.finite g) hzero y hg
    exact ⟨update_of_ne hgf _ _, fun _ => hdat g hgf⟩

/-- A page torn down has no entry; its attributes and all other pages are as they were. -/
theorem Inv.teardown (x : S × ℕ) :
    Inv (teardownPage w x) ∧ (teardownPage w x).pte x = none ∧
      (teardownPage w x).view = w.view ∧ ∀ y, y ≠ x → look (teardownPage w x) y = look w y := by
  rw [teardownPage]
  cases he : w.pte x with
  | none => exact ⟨hinv, he, rfl, fun _ _ => rfl⟩
  | some e =>
    refine ⟨hinv.setPte hinv.refcount_lt ?_ (fun _ h => by cases h) (fun _ h => by cases h)
      (fun _ _ h => by cases h), update_self _ _ _, rfl, fun y hne => ?_⟩
    · intro f
      rw [frameAt_of_pte he, update_succ]
      simp only [Option.map_none, reduceCtorEq, if_false]
      omega
    · refine look_congr_tables rfl ?_ rfl rfl
      simp [World.frameAt, World.owe, hne]

theorem Inv.unmap (x : S × ℕ) : Refines (unmapPage w x) (update (look w) x none) := by
  obtain ⟨htear, hpte, hview, hlook⟩ := hinv.teardown x
  have hset := htear.setView_of_absent hpte (v := none) nofun
  rw [hview] at hset
  refine ⟨hset, Function.eq_update_iff.mpr ⟨by simp [look, unmapPage], fun y hne => ?_⟩⟩
  rw [← hlook y hne, unmapPage, ← hview]
  exact look_setView_ne hne

/-- A truncated page of a file shows the file again. -/
theorem Inv.truncate (hx : w.view x = some a) (hfile : a.kind = .file) :
    Refines (teardownPage w x) (update (look w) x none) := by
  obtain ⟨htear, hpte, hview, hlook⟩ := hinv.teardown x
  refine ⟨htear, Function.eq_update_iff.mpr ⟨?_, hlook⟩⟩
  rw [look_of_absent (by rw [hview, hx]) hpte, ← Option.not_isSome, hinv.file_isSome hx hfile]
  rfl

/-! ## Faults -/

omit hinv [DecidableEq S] [Zero D] in
/-- What is owed when a page gets a new frame: the one it had. -/
theorem owed_of_pte (he : w.pte x = some e) (g : F) :
    update w.owed e.frame (w.owed e.frame + 1) g =
      w.owed g + if w.frameAt x = some g then 1 else 0 := by
  rw [frameAt_of_pte he, update_succ]

variable (hx : w.view x = some a) (hfew : ∀ f, w.references f < 2 ^ 32)

include hx hfew

/-- `cow_write_locked` is not to be seen: the frame is taken back only at one reference, and a copy
is nobody else's. -/
theorem Inv.cowWrite (hprivate : isShared a = false)
    (hfree : ∀ f, alloc = some f → w.refcount f = 0) (h : cowWriteLocked w x a alloc = .ok w') :
    Refines w' (look w) := by
  rw [cowWriteLocked] at h
  cases he : w.pte x with
  | none =>
    rw [he] at h
    cases h
  | some e =>
    rw [he] at h
    simp only at h
    split_ifs at h with hcached hwrite hone
    · cases h
      exact hinv.refines
    · cases h
      exact hinv.reprotect hx he fun _ _ => ⟨hfew _, by simpa using hcached, hone.le⟩
    · cases alloc with
      | none => cases h
      | some f =>
        cases h
        -- the copy reads as the frame it was made from
        have hlook : look w x = some (w.data e.frame) := by
          rw [look_of_pte hx he, if_neg hcached]
        rw [← update_eq_self x (look w), hlook]
        exact hinv.installFresh hx hprivate (hfew f) (hfree f rfl) a.prot _ (owed_of_pte he)

omit hfew in
theorem Inv.sharedFault (hfile : a.file.isSome) (hshared : isShared a = true)
    (hcache : w.cached cache = true) (h : sharedFault w x a write cache = .ok w') :
    Refines w' (look w) := by
  rw [CowFork.sharedFault] at h
  cases he : w.pte x with
  | none =>
    rw [he] at h
    cases h
    exact hinv.installCached hx hfile he hcache fun hp => by simp [hshared] at hp
  | some e =>
    rw [he] at h
    simp only at h
    split_ifs at h with hwrite hsame
    · cases h
      exact hinv.reprotect hx he fun hp => by simp [hshared] at hp
    · cases h
      exact hinv.refines

theorem Inv.copyFault (hprivate : isShared a = false)
    (hfree : ∀ f, alloc = some f → w.refcount f = 0)
    (h : copyFault w x a cache alloc overLimit = .ok w') :
    Refines w' (if (w.frameAt x).all (fun f => w.cached f) then
      update (look w) x (some (w.data cache)) else look w) := by
  cases alloc with
  | none => cases h
  | some f =>
    simp only [CowFork.copyFault] at h
    have hfresh := fun ow st => @Inv.installFresh _ _ _ w x f a ow _ _ _ hinv hx hprivate (hfew f)
      (hfree f rfl) a.prot (w.data cache) st
    cases he : w.pte x with
    | none =>
      rw [he] at h
      simp only at h
      split_ifs at h
      cases h
      rw [frameAt_of_none he, if_pos (by simp)]
      exact hfresh _ _ fun g => by simp [World.allocFrame, frameAt_of_none he]
    | some e =>
      rw [he] at h
      rw [frameAt_of_pte he]
      simp only at h
      split_ifs at h with hcached hlimit
      · cases h
        rw [if_pos (by simpa using hcached)]
        exact hfresh _ _ (owed_of_pte he)
      · cases h
        rw [if_neg (by simpa using hcached)]
        exact hinv.refines

/-- `file_fault`: a private page is given a copy to write to, or the cache's frame to read. -/
theorem Inv.fileFault (hfile : a.kind = .file) (hcache : w.cached cache = true)
    (hfree : ∀ f, alloc = some f → w.refcount f = 0)
    (h : fileFault w x a write cache alloc overLimit = .ok w') :
    Refines w' ((faultEvent w x a write cache).effect (look w)) := by
  have hsome := hinv.file_isSome hx hfile
  unfold CowFork.fileFault at h
  split_ifs at h with hshared hwrite
  · simp only [faultEvent, hshared, Bool.not_true, Bool.false_and]
    exact hinv.sharedFault hx hsome hshared hcache h
  · have hprivate : isShared a = false := by simpa using hshared
    simp only [faultEvent, hprivate, hwrite, Bool.not_false, Bool.true_and]
    have hcopy := hinv.copyFault hx hfew hprivate hfree h
    split_ifs at hcopy ⊢ <;> exact hcopy
  · cases h
    simp only [faultEvent, hwrite, Bool.and_false, Bool.false_and]
    rw [readFault]
    cases he : w.pte x with
    | none => exact hinv.installCached hx hsome he hcache fun _ => rfl
    | some e => exact hinv.refines

theorem Inv.protect (prot : Prot) : Refines (protectPage w x a prot) (look w) := by
  have hset : Inv { w with view := update w.view x (some { a with prot := prot }) } :=
    hinv.setView (by rintro _ ⟨⟩; exact hinv.proper x a hx) fun _ _ => ⟨a, prot, hx, rfl⟩
  have hlook : look { w with view := update w.view x (some { a with prot := prot }) } =
      look w := by
    funext y
    rcases eq_or_ne y x with rfl | hne
    · exact look_congr_tables (by simp [hx]) rfl rfl rfl
    · exact look_setView_ne hne
  simp only [protectPage]
  cases he : w.pte x with
  | none => exact ⟨hset, hlook⟩
  | some e =>
    rw [← hlook]
    refine hset.reprotect (update_self _ _ _) he ?_
    intro _ hw
    exact ⟨hfew _, pageProt_write (hinv.fit hx he) hw⟩

end

/-- **A store** changes the page it is made to, and no other page of private memory. -/
theorem look_store (hinv : Inv w) (hx : w.pte x = some e) (hwrite : e.prot.write = true)
    (g : D → D) :
    look { w with data := update w.data e.frame (g (w.data e.frame)) } =
      update (look w) x ((look w x).map g) := by
  obtain ⟨a, ha, hfits⟩ := hinv.fits x e hx
  refine Function.eq_update_iff.mpr ⟨?_, fun y hne => look_congr rfl rfl ?_⟩
  · simp only [look, ha, hx, update_self]
    split_ifs <;> rfl
  · intro f hf
    refine ⟨rfl, fun hcached => update_of_ne ?_ _ _⟩
    rintro rfl
    cases hsh : isShared a with
    | true =>
      -- a shared page has a frame of the cache, which is nobody's private memory
      rw [hfits.shared hsh] at hcached
      cases hcached
    | false => exact hne (hinv.sole x e a hx ha hsh hwrite y hf)

/-! ## Fork -/

omit [DecidableEq F] [Zero D] in
/-- What lowering a page leaves: the same frame, not writable where the page is private. -/
theorem lowerPage_eq (w : World S F D) (x : S × ℕ) :
    lowerPage w x = w ∨ ∃ a e, w.view x = some a ∧ w.pte x = some e ∧
      lowerPage w x = w.setEntry x ⟨e.frame, withoutWrite e.prot⟩ := by
  cases hv : w.view x with
  | none =>
    simp [lowerPage, hv]
  | some a =>
    cases he : w.pte x with
    | none =>
      simp [lowerPage, hv, he]
    | some e =>
      simp only [lowerPage, hv, he]
      split_ifs
      · exact Or.inr ⟨a, e, rfl, rfl, rfl⟩
      · exact Or.inl rfl

theorem Inv.lower (hinv : Inv w) (x : S × ℕ) : Refines (lowerPage w x) (look w) := by
  rcases lowerPage_eq w x with h | ⟨a, e, ha, he, h⟩
  · rw [h]
    exact hinv.refines
  · rw [h]
    exact hinv.reprotect ha he fun _ hw => by cases hw

omit [DecidableEq F] [Zero D] in
theorem lowerPage_view (w : World S F D) (x : S × ℕ) : (lowerPage w x).view = w.view := by
  rcases lowerPage_eq w x with h | ⟨a, e, -, -, h⟩
  · rw [h]
  · rw [h]
    rfl

omit [DecidableEq F] [Zero D] in
theorem lowerPage_pte_ne (w : World S F D) (hne : y ≠ x) :
    (lowerPage w x).pte y = w.pte y := by
  rcases lowerPage_eq w x with h | ⟨a, e, -, -, h⟩
  · rw [h]
  · rw [h]
    exact update_of_ne hne _ _

omit [DecidableEq F] [Zero D] in
theorem not_owns_lowerPage (w : World S F D) (x : S × ℕ) : ¬ Owns (lowerPage w x) x f := by
  rintro ⟨e, a, he, ha, hprivate, hwrite, -⟩
  rw [lowerPage_view] at ha
  simp only [lowerPage, ha] at he
  cases hw : w.pte x with
  | none =>
    rw [hw] at he
    rw [hw] at he
    cases he
  | some e' =>
    rw [hw] at he
    simp only [hprivate, Bool.not_false, Bool.true_and] at he
    split_ifs at he with hwrite'
    · simp only [World.setEntry, update_self, Option.some.injEq] at he
      subst he
      cases hwrite
    · rw [hw, Option.some.injEq] at he
      subst he
      exact hwrite' hwrite

/-- **One page of a fork**: the child's entry is like the parent's, which is lowered if the page is
private, and the page reads in the child as it does in the parent. -/
theorem Inv.forkPage (hinv : Inv w) (hne : s ≠ d) (habsent : w.pte (d, p) = none) :
    Refines (forkPage s d w p) (update (look w) (d, p) (look w (s, p))) := by
  have hpage : (d, p) ≠ (s, p) := fun h => hne (Prod.ext_iff.mp h).1.symm
  obtain ⟨hlow, hlook⟩ := hinv.lower (s, p)
  have habsent' : (lowerPage w (s, p)).pte (d, p) = none := by
    rw [lowerPage_pte_ne w hpage]
    exact habsent
  have hset := hlow.setView_of_absent habsent' (fun a ha => hinv.proper (s, p) a ha)
  simp only [CowFork.forkPage, ← hlook]
  cases he : (lowerPage w (s, p)).pte (s, p) with
  | none =>
    refine ⟨hset, Function.eq_update_iff.mpr ⟨?_, fun y hy => look_setView_ne hy⟩⟩
    simp only [look, update_self, habsent', he, lowerPage_view]
  | some e =>
    obtain ⟨a, ha, hfits⟩ := hlow.fits (s, p) e he
    rw [lowerPage_view] at ha
    refine ⟨hset.setPte ?_ ?_ ?_ ?_ ?_, Function.eq_update_iff.mpr ⟨?_, fun y hy => ?_⟩⟩
    · intro f
      simp only [World.pmmPageGet, hset.get_mod]
      exact Nat.mod_lt _ (by decide)
    · intro f
      have hnone : World.frameAt { lowerPage w (s, p) with
          view := update (lowerPage w (s, p)).view (d, p) (w.view (s, p)) } (d, p) =
            none := frameAt_of_none habsent'
      simp only [hnone, World.pmmPageGet, hset.get_mod, Option.map_some]
      simp [Nat.add_mod]
    · rintro _ ⟨⟩
      exact ⟨a, by simp only [update_self, ha], hfits.shared, hfits.anon, hfits.private'⟩
    · rintro _ ⟨⟩ y hy ⟨e', a', hpte, hv, hprivate, hwrite, hframe⟩
      simp only [update_of_ne hy] at hv
      have howns : Owns (lowerPage w (s, p)) y e.frame :=
        ⟨e', a', hpte, hv, hprivate, hwrite, hframe⟩
      rcases eq_or_ne y (s, p) with rfl | hys
      · exact not_owns_lowerPage w (s, p) howns
      · exact hlow.not_owns_of_held (frameAt_of_pte he) hys howns
    · rintro _ b ⟨⟩ hb hprivate hwrite
      simp only [update_self, ← lowerPage_view w (s, p)] at hb
      exact absurd ⟨e, b, he, hb, hprivate, hwrite, rfl⟩ (not_owns_lowerPage w (s, p))
    · simp only [look, World.setEntry, World.pmmPageGet, update_self, he, lowerPage_view]
    · refine look_congr_tables ?_ ?_ rfl rfl
      · simp [World.setEntry, World.pmmPageGet, hy]
      · simp [World.frameAt, World.setEntry, World.pmmPageGet, hy]

omit [Zero D] in
theorem forkPage_pte_ne (hs : y ≠ (s, p)) (hd : y ≠ (d, p)) :
    (forkPage s d w p).pte y = w.pte y := by
  simp only [forkPage]
  cases (lowerPage w (s, p)).pte (s, p) with
  | none => exact lowerPage_pte_ne w hs
  | some e =>
    simp only [World.setEntry, World.pmmPageGet, update_of_ne hd]
    exact lowerPage_pte_ne w hs

theorem Inv.foldl_forkPage (hne : s ≠ d) (hps : ps.Nodup) (hinv : Inv w)
    (habsent : ∀ p ∈ ps, w.pte (d, p) = none) :
    Refines (ps.foldl (CowFork.forkPage s d) w) ((Event.fork s d ps).effect (look w)) := by
  induction ps generalizing w with
  | nil => exact ⟨hinv, by simp [Event.effect]⟩
  | cons p ps ih =>
    rw [List.nodup_cons] at hps
    obtain ⟨hpage, hlook⟩ := hinv.forkPage hne (habsent p List.mem_cons_self)
    have hrest : ∀ q ∈ ps, (CowFork.forkPage s d w p).pte (d, q) = none := by
      intro q hq
      have hqp : q ≠ p := by
        rintro rfl
        exact hps.1 hq
      rw [forkPage_pte_ne (fun h => hne (Prod.ext_iff.mp h).1.symm)
        (fun h => hqp (Prod.ext_iff.mp h).2)]
      exact habsent q (List.mem_cons_of_mem p hq)
    obtain ⟨hfold, hread⟩ := ih hps.2 hpage hrest
    refine ⟨hfold, ?_⟩
    rw [List.foldl_cons, hread, hlook]
    funext y
    have hsd : ∀ q : ℕ, (s, q) ≠ (d, p) := fun q h => hne (Prod.ext_iff.mp h).1
    simp only [Event.effect, update_of_ne (hsd _), List.mem_cons]
    rcases eq_or_ne y (d, p) with rfl | hy
    · simp [hps.1]
    · rw [update_of_ne hy]
      have hiff : (y.1 = d ∧ (y.2 = p ∨ y.2 ∈ ps)) ↔ (y.1 = d ∧ y.2 ∈ ps) := by
        constructor
        · rintro ⟨h1, h2 | h2⟩
          · exact absurd (Prod.ext h1 h2) hy
          · exact ⟨h1, h2⟩
        · rintro ⟨h1, h2⟩
          exact ⟨h1, Or.inr h2⟩
      simp only [hiff]

/-! ## Every step -/

/-- **Every step keeps the invariant, and does to private memory what its event says.** -/
theorem Inv.step {ev : Event S D} (hinv : Inv w) (h : Current w ev w') :
    Refines w' (ev.effect (look w)) := by
  obtain ⟨h, hnow, hfew⟩ := h
  cases h with
  | map x a hx ha =>
    have habsent := hinv.pte_eq_none hx
    refine ⟨hinv.setView_of_absent habsent (by rintro _ ⟨⟩; exact ha), ?_⟩
    refine Function.eq_update_iff.mpr ⟨?_, fun y hne => look_setView_ne hne⟩
    simp [look, habsent]
  | unmap x => exact hinv.unmap x
  | truncate x a hx hfile => exact hinv.truncate hx hfile
  | demandZero x a f hx hanon habsent hfree =>
    have hprivate : isShared a = false := by simp [isShared, hanon]
    have hfile : a.file = none := by
      rcases hinv.proper x a hx with ⟨-, hf⟩ | ⟨hk, -⟩
      · exact hf
      · rw [hanon] at hk
        cases hk
    have hlook : look w x = some 0 := by
      rw [look_of_absent hx habsent, hfile]
      rfl
    rw [Event.effect, ← update_eq_self x (look w), hlook]
    exact hinv.installFresh hx hprivate (hfew f) hfree a.prot 0 fun g => by
      simp [World.allocFrame, frameAt_of_none habsent]
  | cowWrite x a alloc w' hx hprivate hwrite hfree h => exact hinv.cowWrite hx hfew hprivate hfree h
  | fileFault x a write cache alloc overLimit w' hx hfile hwrite hcache hfree h =>
    exact hinv.fileFault hx hfew hfile hcache hfree h
  | store x g e hx hwrite => exact ⟨hinv.setData _, look_store hinv hx hwrite g⟩
  | lateStore x g e hx hwrite => exact absurd rfl (hnow x g)
  | shootdown x => exact ⟨{ hinv with }, rfl⟩
  | protect x a prot hx => exact hinv.protect hx hfew prot
  | put f hf => exact ⟨hinv.put hf, rfl⟩
  | fork s d ps stop hne hps hempty =>
    have hfold := hinv.foldl_forkPage hne hps fun p _ => hinv.pte_eq_none (hempty p)
    cases stop with
    | none => exact hfold
    | some p =>
      rw [← hfold.look]
      exact hfold.inv.lower (s, p)
  | cacheFill f c hfree =>
    obtain ⟨hzero, howed, -⟩ := hinv.of_free (hfew f) hfree
    exact hinv.setCached hzero (by rw [howed]; rfl) fun g hg => update_of_ne hg _ _
  | cacheWrite f c hf =>
    refine ⟨hinv.setData _, ?_⟩
    funext y
    refine look_congr rfl rfl ?_
    intro g hg
    refine ⟨rfl, fun hc => update_of_ne ?_ _ _⟩
    rintro rfl
    rw [hf] at hc
    cases hc
  | cacheDrop f hf hone =>
    have hcount := hinv.counted f
    rw [Nat.mod_eq_of_lt (hfew f), references_eq, hf, hone, if_pos rfl] at hcount
    exact hinv.setCached (b := false) (n := 0) (by omega) (by simp; omega) fun _ _ => rfl

/-- A world after a run: the invariant holds, and private memory is what the events make of
empty memories. -/
theorem trace_inv {w₀ : World S F D} (h₀ : Initial w₀) {evs : List (Event S D)}
    (h : Trace Current w₀ evs w) :
    Refines w (evs.foldl Event.effect fun _ => none) := by
  refine Trace.invariant (P := fun evs w => Refines w (evs.foldl Event.effect fun _ => none))
    ⟨Inv.init h₀, ?_⟩ ?_ h
  · funext x
    simp [look, h₀.view x]
  · rintro ls t l u ⟨hinv, hlook⟩ hstep
    rw [List.foldl_append, ← hlook]
    exact hinv.step hstep

theorem Step.store_eq {w w' : World S F D} {g : D → D} (h : Step w (.store x g) w') :
    ∃ e, w.pte x = some e ∧ e.prot.write = true ∧
      w' = { w with data := update w.data e.frame (g (w.data e.frame)) } := by
  generalize hev : Event.store x g = ev at h
  cases h with
  | store x g e hx hwrite =>
    cases hev
    exact ⟨e, hx, hwrite, rfl⟩
  | fileFault =>
    unfold faultEvent at hev
    split at hev <;> cases hev
  | _ => cases hev

/-- Two spaces and two frames, none in use. -/
def emptyWorld : World Bool (Fin 2) ℕ where
  view _ := none
  pte _ := none
  stale _ := []
  refcount _ := 0
  cached _ := false
  data _ := 0
  owed _ := 0

theorem emptyWorld_initial : Initial emptyWorld :=
  ⟨fun _ => rfl, fun _ => rfl, fun _ => rfl, fun _ => rfl, fun _ => rfl, fun _ => rfl⟩

/-- A page of anonymous memory that may be read and written. -/
def anonPage : Attr := ⟨.anon, ⟨true, true, false, false⟩, none⟩

theorem references_lt {w : World Bool (Fin 2) ℕ} (hpte : ∀ s n, w.pte (s, n + 1) = none)
    (howed : ∀ f, w.owed f ≤ 1) (f : Fin 2) : w.references f < 2 ^ 32 := by
  have hpages : {x | ∃ e, w.pte x = some e ∧ e.frame = f} ⊆
    ({(false, 0), (true, 0)} : Finset _) := by
    rintro ⟨s, _ | n⟩ ⟨e, he, -⟩
    · cases s <;> simp
    · rw [hpte s n] at he
      cases he
  have hcard := Set.ncard_le_ncard hpages (Finset.finite_toSet _)
  rw [Set.ncard_coe_finset] at hcard
  have htwo : ({(false, 0), (true, 0)} : Finset (Bool × ℕ)).card = 2 := rfl
  have hone := howed f
  unfold World.references
  split <;> omega

/-- What the condition on the entries leaves out.  A page is written and forked; before the
shootdown of the fork a write fault of the parent copies the page, and a processor that still has
the entry from before the fork stores to the frame that is now the child's: the parent does not read
what was stored, and the child does. -/
theorem late_store_seen_by_child :
    ∃ w : World Bool (Fin 2) ℕ,
      Trace Step emptyWorld [.map (false, 0) anonPage, .silent, .store (false, 0) fun _ => 7,
        .fork false true [0], .silent, .lateStore (false, 0) fun _ => 9] w ∧
      look w (false, 0) = some 7 ∧ look w (true, 0) = some 9 := by
  have h₀ : Trace Step emptyWorld [] emptyWorld := .nil
  have h₁ := h₀.snoc (.map _ (false, 0) anonPage rfl (Or.inl ⟨rfl, rfl⟩))
  have h₂ := h₁.snoc (.demandZero _ (false, 0) anonPage 0 rfl rfl rfl rfl)
  have h₃ := h₂.snoc (.store _ (false, 0) (fun _ => 7) ⟨0, anonPage.prot⟩ rfl rfl)
  have h₄ := h₃.snoc (.fork _ false true [0] none (by decide) (by decide) fun _ => rfl)
  have h₅ := h₄.snoc (.cowWrite _ (false, 0) anonPage (some 1) _ rfl rfl rfl
    (fun f hf => by cases hf; rfl) rfl)
  exact ⟨_, h₅.snoc (.lateStore _ (false, 0) (fun _ => 9) ⟨0, anonPage.prot⟩ (by decide) rfl),
    rfl, rfl⟩

/-- A page of a private file mapping that may be read. -/
def filePage : Attr := ⟨.file, ⟨true, false, false, false⟩, some (1, 0, false)⟩

end CosmoOS.Memory.CowFork
