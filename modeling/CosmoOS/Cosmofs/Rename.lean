import CosmoOS.Cosmofs.Namespace

/-!
# Rename, and what its failure leaves

`renameLocked` publishes the destination first, by repointing the entry it replaces or by adding
one, and then retires the source.  When the source cannot be retired the destination is put back, or
the transaction given up; so an error on a filesystem that is not failed is to mean that nothing
happened.

It does where the undo knows what to put back (`Undoes`).  But the undo does not remember the type
of the entry it repointed, and writes that of a directory or of a regular file, so that a symbolic
link is left with the entry of a file; it removes whichever entry of the new name it finds first,
where a lookup that failed has hidden one; and each of its writes brings the stored link count of
the directory up to that of the vnode.
-/

namespace CosmoOS.Cosmofs.Dir

open Lib Fallible Function

variable {U : Tree} {u : Unit} {e : Errno} {r d : Nat} {f : Found} {bs : List DirBlock}

/-! ## The operation -/

/-- What `vfs_rename2` hands to the filesystem; `replaced` is the inode the new name has,
if any. -/
structure RenameArgs where
  odir : Nat
  oname : List UInt8
  victim : Nat
  ndir : Nat
  nname : List UInt8
  replaced : Option Nat

variable {a : RenameArgs}

def wrapAdd (n : Nat) : Nat := (n + 1) % 2 ^ 32

def wrapSub (n : Nat) : Nat := (n + (2 ^ 32 - 1)) % 2 ^ 32

def unusable : NM Unit := do
  let T ← gets Ns.fs
  if T.failed = none then pure () else fail .eio

/-- The directory is empty, or why that is not known. -/
def emptyDir (i : Nat) : NM Unit := do
  draw .memory
  let T ← gets Ns.fs
  let empty ← dirIsEmpty (T.dirs i)
  if empty then pure () else fail .enotempty

/-- The checks of a call that takes the last name of `i`: an empty directory, and room to
record it. -/
def lastName (i : Nat) : NM Unit := do
  let n ← gets fun s => s.fs.vnode i
  runIf (n.kind = .dir) (emptyDir i)
  runIf (n.kind = .dir ∨ n.nlink = 1) orphanReserve

section

variable (a)

/-- The destination, before the source is touched. -/
def renamePublish (kind : UInt8) : NM Unit :=
  match a.replaced with
  | some r => do
      lastName r
      let f ← dirFind a.ndir a.nname
      dirWriteBlock a.ndir f.lblk (f.repoint a.victim kind).block
  | none => do
      namesAllow a.nname.length
      dirAdd a.ndir a.nname a.victim kind

/-- The source, found again: its block may be the one just written. -/
def renameRetire : NM Unit := do
  let f ← dirFind a.odir a.oname
  dirRemoveSlot a.odir f

/-- The destination as it was, with the type its vnode's kind suggests. -/
def renameUndo : NM Unit := do
  let f ← dirFind a.ndir a.nname
  match a.replaced with
  | some r => do
      let n ← gets fun s => s.fs.vnode r
      let rk := if n.kind = .dir then cfsType .dir else cfsType .reg
      dirWriteBlock a.ndir f.lblk (f.repoint r rk).block
  | none => dirRemoveSlot a.ndir f

/-- One name of what was replaced is gone. -/
def renameReplaced (ndir r : Nat) : NM Unit := do
  let n ← gets fun s => s.fs.vnode r
  let left := if n.kind = .dir then 0 else wrapSub n.nlink
  change fun T => T.setNlink r left
  runIf (left = 0) (orphanAdd r)
  runIf (n.kind = .dir) (change fun T => T.setNlink ndir (wrapSub (T.vnode ndir).nlink))
  vnodeInodeSync r

/-- The victim has another parent. -/
def renameMoved (odir victim ndir : Nat) : NM Unit := do
  change fun T => T.setVnode victim { T.vnode victim with parent := ndir }
  let n ← gets fun s => s.fs.vnode victim
  runIf (n.kind = .dir) do
    change fun T => T.setNlink odir (wrapSub (T.vnode odir).nlink)
    change fun T => T.setNlink ndir (wrapAdd (T.vnode ndir).nlink)
  vnodeInodeSync victim
  vnodeInodeSync odir
  vnodeInodeSync ndir

def renameCounts : NM Unit := do
  match a.replaced with
  | some r => do
      renameReplaced a.ndir r
      runIf (a.odir ≠ a.ndir) (renameMoved a.odir a.victim a.ndir)
  | none => runIf (a.odir ≠ a.ndir) (renameMoved a.odir a.victim a.ndir)

def renameLocked : NM Unit := do
  let f ← dirFind a.odir a.oname
  if f.entry.ino ≠ a.victim then fail .enoent
  else do
    renamePublish a f.entry.kind
    onError (renameRetire a) (orGiveUp (renameUndo a))
    orAbandon (renameCounts a)

/-- `cfs_rename`: every inode the call changes is made writable first. -/
def rename : NM Unit := do
  unusable
  if 255 < a.nname.length then fail .enametoolong
  else do
    draw .memory
    draw .memory
    vnodePrepare
    vnodePrepare
    vnodePrepare
    runIf (a.replaced ≠ none) vnodePrepare
    renameLocked a

/-! ## What a failure may leave -/

/-- The names of the two directories and every link count, in the map and in the vnodes,
are what they were. -/
def Restored (T U : Tree) : Prop :=
  (∀ name, nameMap U.version (U.dirs a.odir) name = nameMap T.version (T.dirs a.odir) name) ∧
  (∀ name, nameMap U.version (U.dirs a.ndir) name = nameMap T.version (T.dirs a.ndir) name) ∧
  ∀ i, (U.vnode i).nlink = (T.vnode i).nlink ∧
    (U.stored i).map Node.nlink = (T.stored i).map Node.nlink

end

/-- A call as the VFS makes it: the source was looked up, so was the target if there is one, it is
not another name of the victim, and the entries are ones a pool of this version can have.  Nothing
is known of the new name where the lookup of the target failed. -/
structure RenameGiven (T : Tree) (a : RenameArgs) : Prop where
  usable : T.failed = none
  source : ∃ k, nameMap T.version (T.dirs a.odir) a.oname = some (a.victim, k)
  target : ∀ r, a.replaced = some r →
    ∃ k, nameMap T.version (T.dirs a.ndir) a.nname = some (r, k)
  other : a.replaced ≠ some a.victim
  readable : Readable T.version (T.dirs a.odir) ∧ Readable T.version (T.dirs a.ndir)

/-- The type the undo gives to the entry of `r`. -/
def undoType (T : Tree) (r : Nat) : UInt8 :=
  if (T.vnode r).kind = .dir then cfsType .dir else cfsType .reg

/-- The undo finds and puts back what was there: the stored link count of the new directory is the
vnode's, and the new name has no entry, or that of what is replaced with the type the undo writes.
-/
structure Undoes (T : Tree) (a : RenameArgs) : Prop where
  counted : (T.stored a.ndir).map Node.nlink = some (T.vnode a.ndir).nlink
  named : nameMap T.version (T.dirs a.ndir) a.nname = a.replaced.map fun r => (r, undoType T r)

variable {T : Tree} {i : Nat} {s t : Ns}

theorem restored_of (ho : entriesOf U.version (U.dirs a.odir) = entriesOf T.version (T.dirs a.odir))
    (hn : entriesOf U.version (U.dirs a.ndir) = entriesOf T.version (T.dirs a.ndir))
    (hv : ∀ i, U.vnode i = T.vnode i)
    (hs : ∀ i, (U.stored i).map Node.nlink = (T.stored i).map Node.nlink) : Restored a T U := by
  refine ⟨fun name => ?_, fun name => ?_, fun i => ⟨?_, hs i⟩⟩
  · rw [nameMap, nameMap, ho]
  · rw [nameMap, nameMap, hn]
  · rw [hv]

/-- Nothing the call reads changed, apart from the format's version. -/
structure Kept (T U : Tree) : Prop where
  dirs : U.dirs = T.dirs
  stored : U.stored = T.stored
  cached : U.cached = T.cached
  version : T.version ≤ U.version

theorem Kept.restored (h : Kept T U) (hg : RenameGiven T a) : Restored a T U := by
  refine restored_of ?_ ?_ (fun i => ?_) fun i => by rw [h.stored]
  · rw [h.dirs, hg.readable.1.entries h.version]
  · rw [h.dirs, hg.readable.2.entries h.version]
  · rw [Tree.vnode, Tree.vnode, h.cached, h.stored]

theorem vnode_sync (T : Tree) (i j : Nat) : (T.sync i).vnode j = T.vnode j := by
  show (T.cached j).getD ((update T.stored i (some (T.vnode i)) j).getD _) = T.vnode j
  by_cases hj : j = i
  · subst hj
    rw [update_self]
    cases hc : T.cached j with
    | none => rfl
    | some n => rw [Tree.vnode, hc]; rfl
  · rw [update_of_ne hj]
    rfl

/-! ## The steps -/

theorem emptyDir_spec {r : Except Errno Unit} (h : emptyDir i s = (r, t)) : t.fs = s.fs ∧
    Ends (fun _ => ∀ b ∈ s.fs.dirs i, ∀ x ∈ b, x = Item.free) (fun _ => True) r := by
  rcases bind_cases h with ⟨e, h1, rfl⟩ | ⟨_, s1, h1, h⟩
  · exact ⟨draw_fs h1, trivial⟩
  rw [← draw_fs h1]
  rw [gets_bind] at h
  rcases bind_cases h with ⟨e, h2, rfl⟩ | ⟨a, s2, h2, h⟩ <;>
    obtain ⟨hs2, hall⟩ := dirIsEmpty_spec h2
  · exact absurd hall id
  cases a with
  | false =>
    cases h
    exact ⟨hs2, trivial⟩
  | true =>
    cases h
    exact ⟨hs2, hall rfl⟩

theorem lastName_spec {r : Except Errno Unit} (h : lastName i s = (r, t)) :
    Ends (fun _ => (∃ c, t.fs = { s.fs with orphanCap := c }) ∧
      ((s.fs.vnode i).kind = .dir → ∀ b ∈ s.fs.dirs i, ∀ x ∈ b, x = Item.free))
      (fun _ => t.fs = s.fs) r := by
  rw [lastName, gets_bind] at h
  rcases bind_cases h with ⟨e, h1, rfl⟩ | ⟨_, s1, h1, h⟩
  · rcases runIf_cases h1 with ⟨_, h1⟩ | ⟨_, h1, -⟩
    · exact (emptyDir_spec h1).1
    · cases h1
  obtain ⟨hs1, hempty⟩ : s1.fs = s.fs ∧
      ((s.fs.vnode i).kind = .dir → ∀ b ∈ s.fs.dirs i, ∀ x ∈ b, x = Item.free) := by
    rcases runIf_ok h1 with ⟨_, h1⟩ | ⟨hk, rfl⟩
    · exact (emptyDir_spec h1).imp_right fun hall _ => hall
    · exact ⟨rfl, fun hd => absurd hd hk⟩
  rw [← hs1] at hempty ⊢
  rcases runIf_cases h with ⟨_, h⟩ | ⟨_, rfl, rfl⟩
  · have hroom := orphanReserve_spec h
    cases r with
    | ok u => exact ⟨hroom, hempty⟩
    | error e => exact hroom
  · exact ⟨⟨t.fs.orphanCap, rfl⟩, hempty⟩

section Publish

variable {a : RenameArgs} {kind : UInt8} {s t : Ns}

theorem renamePublish_error (h : renamePublish a kind s = (.error e, t)) :
    Kept s.fs t.fs ∨ t.fs.failed ≠ none := by
  have keep : ∀ {s' t' : Ns}, Kept s.fs s'.fs → Unchanged s' t' →
      Kept s.fs t'.fs ∨ t'.fs.failed ≠ none := by
    intro s' t' hk hu
    rcases hu with hu | hu
    · exact Or.inl (hu ▸ hk)
    · exact Or.inr hu
  have refl : Kept s.fs s.fs := ⟨rfl, rfl, rfl, Nat.le_refl _⟩
  unfold renamePublish at h
  cases hr : a.replaced with
  | some r =>
    simp only [hr] at h
    rcases bind_eq_error.mp h with h1 | ⟨_, s1, h1, h⟩
    · exact keep refl (Or.inl (lastName_spec h1))
    · obtain ⟨⟨c, hc⟩, -⟩ := lastName_spec h1
      have hk : Kept s.fs s1.fs := by
        rw [hc]
        exact ⟨rfl, rfl, rfl, Nat.le_refl _⟩
      rcases bind_eq_error.mp h with h2 | ⟨f, s2, h2, h⟩
      · exact keep hk (Or.inl (dirFind_spec h2).1)
      · have hs2 := (dirFind_spec h2).1
        exact keep (hs2 ▸ hk) (dirWriteBlock_spec h)
  | none =>
    simp only [hr] at h
    rcases bind_eq_error.mp h with h1 | ⟨_, s1, h1, h⟩
    · exact keep refl (namesAllow_spec h1)
    · obtain ⟨v, hv, hle⟩ := namesAllow_spec h1
      have hk : Kept s.fs s1.fs := by
        rw [hv]
        exact ⟨rfl, rfl, rfl, by show s.fs.version ≤ v; omega⟩
      exact keep hk (dirAdd_spec h)

theorem renamePublish_some (hr : a.replaced = some r) (h : renamePublish a kind s = (.ok u, t)) :
    ((s.fs.vnode r).kind = .dir → ∀ b ∈ s.fs.dirs r, ∀ x ∈ b, x = Item.free) ∧
    ∃ c f, locate s.fs.version a.nname 0 (s.fs.dirs a.ndir) = some f ∧
      t.fs = (({ s.fs with orphanCap := c } : Tree).putDir a.ndir
        (putBlock (s.fs.dirs a.ndir) f.lblk (f.repoint a.victim kind).block)).sync a.ndir := by
  unfold renamePublish at h
  simp only [hr] at h
  obtain ⟨_, s1, h1, h⟩ := bind_eq_ok.mp h
  obtain ⟨⟨c, hc⟩, hempty⟩ := lastName_spec h1
  obtain ⟨f, s2, h2, h⟩ := bind_eq_ok.mp h
  obtain ⟨hs2, hf⟩ := dirFind_spec h2
  have ht := dirWriteBlock_spec h
  rw [hc] at hs2 hf
  rw [hs2] at ht
  exact ⟨hempty, c, f, hf, ht⟩

theorem renamePublish_none (hr : a.replaced = none) (h : renamePublish a kind s = (.ok u, t)) :
    ∃ v, s.fs.version ≤ v ∧ (v = s.fs.version ∨ v = 15) ∧
      Added { s.fs with version := v } a.ndir ⟨a.nname, a.victim, kind⟩ t.fs := by
  unfold renamePublish at h
  simp only [hr] at h
  obtain ⟨_, s1, h1, h⟩ := bind_eq_ok.mp h
  obtain ⟨v, hv, hle⟩ := namesAllow_spec h1
  have hadd : Added s1.fs _ _ t.fs := dirAdd_spec h
  rw [hv] at hadd
  exact ⟨v, by omega, by omega, hadd⟩

end Publish

/-! ## Putting the destination back -/

theorem renameUndo_failed (a : RenameArgs) : Keeps Failed (renameUndo a) := by
  refine Keeps.bind (dirFind_failed _ _) fun f => ?_
  cases a.replaced with
  | some r => exact Keeps.bind (Keeps.gets _) fun _ => dirWriteBlock_failed _ _ _
  | none => exact dirWriteBlock_failed _ _ _

theorem renameRetire_error (h : renameRetire a s = (.error e, t)) : Unchanged s t := by
  rcases bind_eq_error.mp h with h1 | ⟨f, s1, h1, h⟩
  · exact Or.inl (dirFind_spec h1).1
  · have hwrite : Unchanged s1 t := dirWriteBlock_spec h
    exact hwrite.imp_left (·.trans (dirFind_spec h1).1)

/-- A source that stays is followed by an undo that succeeds, or by the end of the
transaction. -/
theorem retire_or_undo (h : onError (renameRetire a) (orGiveUp (renameUndo a)) s = (.error e, t)) :
    t.fs.failed ≠ none ∨ ∃ s1 u, s1.fs = s.fs ∧ renameUndo a s1 = (.ok u, t) := by
  obtain ⟨s1, h1, h2⟩ := onError_eq_error.mp h
  rcases renameRetire_error h1 with hs1 | hs1
  · rcases orGiveUp_fs h2.symm with ⟨u, h3⟩ | h3
    · exact Or.inr ⟨s1, u, hs1, h3⟩
    · exact Or.inl h3
  · rw [h2]
    exact Or.inl (orGiveUp_failed (renameUndo_failed a) s1 hs1)

theorem Found.repoint_back {k rk : UInt8} (hi : f.entry.ino = r)
    (hk : f.entry.kind = rk) : (f.repoint i k).repoint r rk = f := by
  obtain ⟨lblk, before, ⟨name, ino, kind⟩, after⟩ := f
  obtain rfl : ino = r := hi
  obtain rfl : kind = rk := hk
  rfl

/-- `U` is `T` with the blocks `bs` in directory `d`, and the directory's vnode written through. -/
structure Wrote (T U : Tree) (d : Nat) (bs : List DirBlock) : Prop where
  dirs : U.dirs = update T.dirs d bs
  vnode : ∀ i, U.vnode i = T.vnode i
  stored : U.stored = update T.stored d (some (T.vnode d))

theorem wrote_sync (T : Tree) (d : Nat) (bs : List DirBlock) :
    Wrote T ((T.putDir d bs).sync d) d bs :=
  ⟨rfl, fun i => vnode_sync _ d i, rfl⟩

theorem Wrote.again (h : Wrote T U d bs) (bs' : List DirBlock) :
    Wrote T ((U.putDir d bs').sync d) d bs' := by
  obtain ⟨hd, hv, hs⟩ := wrote_sync U d bs'
  refine ⟨?_, fun i => (hv i).trans (h.vnode i), ?_⟩
  · rw [hd, h.dirs, update_idem]
  · rw [hs, h.stored, h.vnode, update_idem]

/-- The stored link counts are what they were where the directory's was its vnode's. -/
theorem Wrote.counts (h : Wrote T U d bs)
    (hd : (T.stored d).map Node.nlink = some (T.vnode d).nlink) (i : Nat) :
    (U.stored i).map Node.nlink = (T.stored i).map Node.nlink := by
  rw [h.stored]
  by_cases hi : i = d
  · subst hi
    rw [update_self, hd]
    rfl
  · rw [update_of_ne hi]

theorem Wrote.dir (h : Wrote T U d bs) : U.dirs d = bs := by
  rw [h.dirs, update_self]

/-- `U` is `T` with the entry `f` pointed at the victim. -/
structure Pointed (a : RenameArgs) (f : Found) (kind : UInt8) (T U : Tree) : Prop
    extends Wrote T U a.ndir (putBlock (T.dirs a.ndir) f.lblk (f.repoint a.victim kind).block) where
  version : U.version = T.version
  failed : U.failed = T.failed

theorem pointed_sync {kind : UInt8} (c : Nat) :
    Pointed a f kind T ((({ T with orphanCap := c } : Tree).putDir a.ndir
      (putBlock (T.dirs a.ndir) f.lblk (f.repoint a.victim kind).block)).sync a.ndir) := by
  obtain ⟨hd, hv, hst⟩ := wrote_sync { T with orphanCap := c } a.ndir
    (putBlock (T.dirs a.ndir) f.lblk (f.repoint a.victim kind).block)
  exact ⟨⟨hd, hv, hst⟩, rfl, rfl⟩

section Undo

variable {T : Tree} {a : RenameArgs} {kind : UInt8} {s t : Ns}

theorem undo_some (hok : Undoes T a) (hr : a.replaced = some r)
    (hf : locate T.version a.nname 0 (T.dirs a.ndir) = some f)
    (hc : direntCheck T.version (f.repoint a.victim kind).entry ≠ 0)
    (hU : Pointed a f kind T s.fs) (h : renameUndo a s = (.ok u, t)) : Restored a T t.fs := by
  obtain ⟨f', s1, h1, h⟩ := bind_eq_ok.mp h
  obtain ⟨hs1, hf'⟩ := dirFind_spec h1
  have hdir := hU.dir
  rw [hU.version, hdir, locate_repoint hf hc] at hf'
  obtain rfl : f.repoint a.victim kind = f' := by simpa using hf'
  simp only [hr, gets_bind, hs1, hU.vnode r] at h
  -- the entry the undo writes is the one that was repointed
  have hent : f.entry.ino = r ∧ f.entry.kind = undoType T r := by
    have htgt := hok.named
    rw [nameMap_of_locate hf, hr] at htgt
    simpa using htgt
  have hrk : f.entry.kind = if (T.vnode r).kind = .dir then cfsType .dir else cfsType .reg :=
    hent.2
  rw [Found.repoint_back hent.1 hrk] at h
  have ht := dirWriteBlock_spec h
  have hback : putBlock (putBlock (T.dirs a.ndir) f.lblk (f.repoint a.victim kind).block)
      (f.repoint a.victim kind).lblk f.block = T.dirs a.ndir := putBlock_block hf _
  rw [hs1, hdir, hback] at ht
  have hback := hU.again (T.dirs a.ndir)
  rw [← ht] at hback
  have hd := hback.dirs
  rw [update_eq_self] at hd
  have hvt : t.fs.version = T.version := by
    rw [ht]
    exact hU.version
  refine restored_of ?_ ?_ hback.vnode (hback.counts hok.counted)
  · rw [hd, hvt]
  · rw [hd, hvt]

theorem undo_none {v : Nat} (hg : RenameGiven T a) (hok : Undoes T a) (hr : a.replaced = none)
    (hv : T.version ≤ v)
    (hadd : Added { T with version := v } a.ndir ⟨a.nname, a.victim, kind⟩ s.fs)
    (hc : direntCheck v ⟨a.nname, a.victim, kind⟩ ≠ 0)
    (h : renameUndo a s = (.ok u, t)) : Restored a T t.fs := by
  obtain ⟨-, -, k, b, pre, x, y, post, hsl, hs⟩ := hadd
  obtain ⟨f', s1, h1, h⟩ := bind_eq_ok.mp h
  obtain ⟨hs1, hf'⟩ := dirFind_spec h1
  have hver : s.fs.version = v := by
    rw [hs]
    rfl
  have hU : Wrote T s.fs a.ndir (pre ++ b :: post) := by
    rw [hs, hsl.put]
    obtain ⟨hd, hvn, hst⟩ := wrote_sync { T with version := v } a.ndir _
    exact ⟨hd, hvn, hst⟩
  have hdir := hU.dir
  have hent : entriesOf v (T.dirs a.ndir) = entriesOf T.version (T.dirs a.ndir) :=
    hg.readable.2.entries hv
  -- no entry had the new name, so the scan finds the one that was added
  have habs : ∀ e ∈ entriesOf v (T.dirs a.ndir), e.name ≠ a.nname := by
    rw [hent]
    refine absent_of_nameMap ?_
    rw [hok.named, hr]
    rfl
  rw [hsl.entries v] at habs
  generalize hf0 : (⟨k, x, ⟨a.nname, a.victim, kind⟩, y⟩ : Found) = f0 at *
  have hin : f0.In v a.nname pre := by
    rw [← hf0]
    exact ⟨rfl, hc, fun e he => habs e (by simp [he]), fun e he => habs e (by simp [he])⟩
  have hblock : f0.block = b := by
    rw [← hf0]
    exact hsl.block.symm
  have hidx : f0.lblk = pre.length := by
    rw [← hf0]
    exact hsl.index
  have hloc : locate v a.nname 0 (pre ++ f0.block :: post) = some f0 :=
    locate_eq hin (by omega)
  rw [hver, hdir, ← hblock, hloc] at hf'
  obtain rfl : f0 = f' := by simpa using hf'
  simp only [hr] at h
  have ht := dirWriteBlock_spec h
  rw [hs1, hdir, hidx, putBlock_mid] at ht
  have hback := hU.again (pre ++ f0.removed :: post)
  rw [← ht] at hback
  have hd := hback.dirs
  have hvt : t.fs.version = v := by
    rw [ht]
    exact hver
  have hn : entriesOf v (t.fs.dirs a.ndir) = entriesOf T.version (T.dirs a.ndir) := by
    rw [hd, update_self, ← hent, hsl.entries v, entriesOf_append, entriesOf_cons,
      Found.removed, entriesIn_append, entriesIn_append, entriesIn_free, ← hf0]
    simp
  refine restored_of ?_ ?_ hback.vnode (hback.counts hok.counted)
  · rw [hvt]
    by_cases ho : a.odir = a.ndir
    · rw [ho]
      exact hn
    · rw [hd, update_of_ne ho, hg.readable.1.entries hv]
  · rw [hvt]
    exact hn

end Undo

/-! ## What the undo does not know -/

/-- What a failed rename leaves when the undo knows what was there. -/
theorem renameLocked_restored {luck : Call → List (Option Errno)}
    (hg : RenameGiven T a) (hok : Undoes T a) (h : renameLocked a ⟨T, luck⟩ = (.error e, t))
    (hf : t.fs.failed = none) :
    Restored a T t.fs := by
  have refl : Kept T T := ⟨rfl, rfl, rfl, Nat.le_refl _⟩
  rcases bind_eq_error.mp h with h1 | ⟨g, s1, h1, h⟩
  · rw [(dirFind_spec h1).1]
    exact refl.restored hg
  obtain ⟨hs1, hloc⟩ := dirFind_spec h1
  split at h
  · obtain rfl := (Prod.mk.inj h).2
    rw [hs1]
    exact refl.restored hg
  rename_i hino
  have hgi : g.entry.ino = a.victim := by simpa using hino
  obtain ⟨_, _, _, _, hgin⟩ := locate_some hloc
  rcases bind_eq_error.mp h with h2 | ⟨_, s2, h2, h⟩
  · rcases renamePublish_error h2 with hk | hk
    · rw [hs1] at hk
      exact hk.restored hg
    · exact absurd hf hk
  rcases bind_eq_error.mp h with h3 | ⟨_, s3, h3, h⟩
  swap
  · exact absurd hf (orAbandon_spec h)
  rcases retire_or_undo h3 with h4 | ⟨s4, u, hs4, h4⟩
  · exact absurd hf h4
  cases hr : a.replaced with
  | some r =>
    obtain ⟨_, c, f, hfl, hs2⟩ := renamePublish_some hr h2
    rw [hs1] at hfl hs2
    obtain ⟨_, _, _, _, hfin⟩ := locate_some hfl
    have hc : direntCheck T.version (f.repoint a.victim g.entry.kind).entry ≠ 0 := by
      rw [← hgi]
      exact direntCheck_repoint hfin.seen hgin.seen
    have hU : Pointed a f g.entry.kind T s4.fs := by
      rw [hs4, hs2]
      exact pointed_sync c
    exact undo_some hok hr hfl hc hU h4
  | none =>
    obtain ⟨v, hv, -, hadd⟩ := renamePublish_none hr h2
    rw [hs1, ← hs4] at hadd
    rw [hs1] at hv
    obtain ⟨hi, hd, _, _⟩ := direntCheck_ne_zero.mp hgin.seen
    rw [hgi] at hi hd
    exact undo_none hg hok hr hv hadd (hadd.check hi hd) h4

theorem dirIsEmpty_smooth {bs : List DirBlock} (hs : Smooth s)
    (h : ∀ b ∈ bs, ∀ x ∈ b, x = Item.free) : dirIsEmpty bs s = (.ok true, s) := by
  induction bs with
  | nil => rfl
  | cons b rest ih =>
    have hr : attempt dirReadBlock s = (.ok (.ok ()), s) := by
      rw [attempt, show dirReadBlock s = (.ok (), s) from draw_calm (hs .read (by decide))]
    have hfree : b.all (· = .free) = true := by simpa using h b (by simp)
    rw [dirIsEmpty, bind_run_ok hr]
    simp only [hfree, if_true]
    exact ih fun b hb => h b (by simp [hb])

theorem lastName_smooth (hs : Smooth s)
    (hk : (s.fs.vnode i).kind = .dir → ∀ b ∈ s.fs.dirs i, ∀ x ∈ b, x = Item.free) :
    ∃ c, lastName i s = (.ok (), { s with fs := { s.fs with orphanCap := c } }) := by
  have h1 : runIf ((s.fs.vnode i).kind = .dir) (emptyDir i) s = (.ok (), s) := by
    rw [runIf]
    split
    · rename_i hdir
      rw [emptyDir, bind_run_ok (draw_calm (hs .memory (by decide))), gets_bind,
        bind_run_ok (dirIsEmpty_smooth hs (hk hdir))]
      rfl
    · rfl
  rw [lastName, gets_bind, bind_run_ok h1, runIf]
  split
  · rw [orphanReserve, gets_bind]
    split
    · exact ⟨s.fs.orphanCap, rfl⟩
    · rw [bind_run_ok (draw_calm (hs .memory (by decide)))]
      exact ⟨_, rfl⟩
  · exact ⟨s.fs.orphanCap, rfl⟩

section Retyped

variable {T : Tree} {a : RenameArgs} {r : Nat} {kind : UInt8} {f : Found} {s : Ns}
  {l : List (Option Errno)}

theorem publish_smooth (kind : UInt8) (hr : a.replaced = some r)
    (hk : (T.vnode r).kind = .dir → ∀ b ∈ T.dirs r, ∀ x ∈ b, x = Item.free)
    (hf : locate T.version a.nname 0 (T.dirs a.ndir) = some f)
    (hfs : s.fs = T) (hs : Smooth s) (hw : s.luck .write = none :: l) :
    ∃ t, renamePublish a kind s = (.ok (), t) ∧ Smooth t ∧ t.luck .write = l ∧
      Pointed a f kind T t.fs := by
  subst hfs
  obtain ⟨c, hlast⟩ := lastName_smooth hs hk
  have hs1 : Smooth ⟨{ s.fs with orphanCap := c }, s.luck⟩ := hs
  have hfind : dirFind a.ndir a.nname ⟨{ s.fs with orphanCap := c }, s.luck⟩
      = (.ok f, ⟨{ s.fs with orphanCap := c }, s.luck⟩) := dirFind_smooth hs1 hf
  refine ⟨_, ?_, hs1.luck _ l, update_self .write l s.luck, pointed_sync c⟩
  unfold renamePublish
  simp only [hr]
  rw [bind_run_ok hlast, bind_run_ok hfind]
  exact dirWriteBlock_smooth hs1 hw

variable (hg : RenameGiven T a) (hr : a.replaced = some r)
  (hf : locate T.version a.nname 0 (T.dirs a.ndir) = some f)
  (hc : direntCheck T.version (f.repoint a.victim kind).entry ≠ 0)
  (hU : Pointed a f kind T s.fs) (hs : Smooth s)

include hg hr hf hc hU hs

theorem retire_fails (hw : s.luck .write = some e :: l) :
    renameRetire a s = (.error e, ⟨s.fs, update s.luck .write l⟩) := by
  obtain ⟨sk, hsrc⟩ := hg.source
  have hstill : nameMap s.fs.version (s.fs.dirs a.odir) a.oname = some (a.victim, sk) := by
    rw [hU.version]
    by_cases ho : a.odir = a.ndir
    · have hne : a.oname ≠ a.nname := by
        intro hx
        obtain ⟨k, htgt⟩ := hg.target r hr
        rw [ho, hx, htgt] at hsrc
        exact hg.other (hr.trans (congrArg some (Prod.mk.inj (Option.some.inj hsrc)).1))
      rw [ho, hU.dir, locate_repoint_ne hf hc hne, ← ho]
      exact hsrc
    · rw [hU.dirs, update_of_ne ho]
      exact hsrc
  obtain ⟨g, hgl, _, _⟩ := locate_of_nameMap hstill
  rw [renameRetire, bind_run_ok (dirFind_smooth hs hgl)]
  exact dirWriteBlock_fails hs hw

theorem undo_retypes (hw : s.luck .write = none :: l) :
    ∃ t, renameUndo a s = (.ok (), t) ∧ t.fs.failed = T.failed ∧
      nameMap t.fs.version (t.fs.dirs a.ndir) a.nname = some (r, undoType T r) ∧
      t.fs.stored a.ndir = some (T.vnode a.ndir) := by
  have hloc : locate s.fs.version a.nname 0 (s.fs.dirs a.ndir)
      = some (f.repoint a.victim kind) := by
    rw [hU.version, hU.dir]
    exact locate_repoint hf hc
  have hfi : f.entry.ino = r := by
    obtain ⟨k, htgt⟩ := hg.target r hr
    rw [nameMap_of_locate hf] at htgt
    exact (Prod.mk.inj (Option.some.inj htgt)).1
  refine ⟨s.written a.ndir f.lblk ((f.repoint a.victim kind).repoint r (undoType T r)).block l,
    ?_, hU.failed, ?_, ?_⟩
  · rw [renameUndo, bind_run_ok (dirFind_smooth hs hloc)]
    simp only [hr, gets_bind, hU.vnode]
    exact dirWriteBlock_smooth hs hw
  · obtain ⟨_, _, _, _, hfin⟩ := locate_some hf
    obtain ⟨h1, h2, h3, h4⟩ := direntCheck_ne_zero.mp hfin.seen
    rw [hfi] at h1 h2
    have hcr : direntCheck s.fs.version
        ((f.repoint a.victim kind).repoint r (undoType T r)).entry ≠ 0 := by
      rw [hU.version]
      exact direntCheck_ne_zero.mpr ⟨h1, h2, h3, h4⟩
    show nameMap s.fs.version (update s.fs.dirs a.ndir _ a.ndir) a.nname = _
    rw [update_self]
    exact nameMap_of_locate (locate_repoint hloc hcr)
  · rw [← hU.vnode a.ndir]
    exact update_self _ _ _

end Retyped

/-- The first write goes well, the second does not, the third does. -/
def secondWriteFails : Call → List (Option Errno)
  | .write => [none, some .eio, none]
  | _ => []

theorem secondWriteFails_smooth (T : Tree) : Smooth ⟨T, secondWriteFails⟩ := by
  intro c hc
  cases c <;> first | rfl | exact absurd rfl hc

/-- **What an undo leaves.**  The destination is written, the source cannot be removed, and the
entry of what was replaced comes back with the type the undo knows. -/
theorem undone_retyped (hg : RenameGiven T a) (hr : a.replaced = some r)
    (hk : (T.vnode r).kind = .dir → ∀ b ∈ T.dirs r, ∀ x ∈ b, x = Item.free) :
    ∃ t, renameLocked a ⟨T, secondWriteFails⟩ = (.error .eio, t) ∧ t.fs.failed = none ∧
      nameMap t.fs.version (t.fs.dirs a.ndir) a.nname = some (r, undoType T r) ∧
      t.fs.stored a.ndir = some (T.vnode a.ndir) := by
  obtain ⟨sk, hsrc⟩ := hg.source
  obtain ⟨g, hgl, hgi, _⟩ := locate_of_nameMap hsrc
  obtain ⟨_, _, _, _, hgin⟩ := locate_some hgl
  obtain ⟨k, htgt⟩ := hg.target r hr
  obtain ⟨f, hfl, _, _⟩ := locate_of_nameMap htgt
  obtain ⟨_, _, _, _, hfin⟩ := locate_some hfl
  have hc : direntCheck T.version (f.repoint a.victim g.entry.kind).entry ≠ 0 := by
    rw [← hgi]
    exact direntCheck_repoint hfin.seen hgin.seen
  have hsm := secondWriteFails_smooth T
  obtain ⟨s2, hpub, hsm2, hw2, hU2⟩ := publish_smooth g.entry.kind hr hk hfl rfl hsm rfl
  have hret := retire_fails hg hr hfl hc hU2 hsm2 hw2
  have hw3 : (⟨s2.fs, update s2.luck .write [none]⟩ : Ns).luck .write = none :: [] :=
    update_self Call.write [none] s2.luck
  have hU3 : Pointed a f g.entry.kind T
      (⟨s2.fs, update s2.luck .write [none]⟩ : Ns).fs := hU2
  obtain ⟨t, hundo, hfail, hleft⟩ := undo_retypes hg hr hfl hc hU3 (hsm2.luck s2.fs [none]) hw3
  refine ⟨t, ?_, hfail.trans hg.usable, hleft⟩
  have hatt : attempt (renameUndo a) ⟨s2.fs, update s2.luck .write [none]⟩
      = (.ok (.ok ()), t) := by
    rw [attempt, hundo]
  rw [renameLocked, bind_run_ok (dirFind_smooth hsm hgl), if_neg (by simpa using hgi),
    bind_run_ok hpub]
  refine bind_run_error (onError_eq_error.mpr ⟨_, hret, ?_⟩) _
  rw [orGiveUp, bind_run_ok hatt]
  rfl

/-- A root directory with the names `a` and `b`, the second of kind `k`. -/
def twoNames (k : Kind) : Tree where
  version := 15
  keyRoot := 0
  nextIno := 4
  dirs := fun d => if d = 1 then [[.head ⟨[97], 2, 1⟩, .head ⟨[98], 3, cfsType k⟩]] else []
  stored := fun i =>
    if i = 1 then some ⟨.dir, 2, 1⟩ else if i = 2 then some ⟨.reg, 1, 1⟩
    else if i = 3 then some ⟨k, 1, 1⟩ else none
  cached := fun _ => none
  inClone := false
  orphans := []
  orphanCap := 8
  failed := none

def aOverB : RenameArgs := ⟨1, [97], 2, 1, [98], some 3⟩

theorem twoNames_given (k : Kind) : RenameGiven (twoNames k) aOverB := by
  have hread : Readable (twoNames k).version ((twoNames k).dirs 1) := by
    intro b hb e he
    obtain rfl : b = [.head ⟨[97], 2, 1⟩, .head ⟨[98], 3, cfsType k⟩] := by
      simpa [twoNames] using hb
    obtain rfl | rfl : e = ⟨[97], 2, 1⟩ ∨ e = ⟨[98], 3, cfsType k⟩ := by simpa using he
    · cases k <;> decide
    · cases k <;> decide
  refine ⟨rfl, ⟨1, ?_⟩, fun r hr => ⟨cfsType k, ?_⟩, by decide, hread, hread⟩
  · cases k <;> decide
  · obtain rfl : 3 = r := by simpa [aOverB] using hr
    cases k <;> decide

end CosmoOS.Cosmofs.Dir
