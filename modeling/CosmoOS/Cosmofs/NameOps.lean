import CosmoOS.Cosmofs.LinkCount

/-!
# Creating, linking and unlinking

The operations of `cosmofs_dir.cee` that add or remove one name, each with its error paths:
a creation that fails gives the inode number back and clears the slot, a link whose count
cannot be stored takes its name back, and the record of unlinked inodes is reserved while
the name is still there.

Each keeps the link counts right.  The proofs name the entries that came and went and the
vnodes that changed, and leave the rest to `Right.op`, or to `Right.born` for an inode that
did not exist before.
-/

namespace CosmoOS.Cosmofs.Dir

open Lib Fallible Function

variable {target v : Nat} {luck : Call → List (Option Errno)} {T : Tree}

/-! ## The operations -/

/-- The tree locked and the directory's inode made writable. -/
def changeBegin : NM Unit := do
  draw .memory
  vnodePrepare

section

variable (dir : Nat) (name : List UInt8) (victim : Nat)

/-- There is no entry of this name, and there may be one. -/
def nameFree : NM Unit := do
  match ← attempt (dirFind dir name) with
  | .ok _ => fail .eexist
  | .error e => if e = .enoent then namesAllow name.length else fail e

/-- The inode in the map and its entry in the directory, or neither. -/
def inodeEnter (inum : Nat) (n : Node) : NM Unit := do
  inodeWrite inum (some n)
  onError (dirAdd dir name inum (cfsType n.kind)) (inodeSlotClear inum)

def createCommon (kind : Kind) : NM Nat := do
  unusable
  if 255 < name.length then fail .enametoolong
  else do
    draw .memory
    changeBegin
    nameFree dir name
    let inum ← inodeAlloc
    onError (inodeEnter dir name inum ⟨kind, if kind = .dir then 2 else 1, dir⟩)
      (inodeDiscard inum)
    runIf (kind = .dir) do
      change fun T => T.setNlink dir (wrapAdd (T.vnode dir).nlink)
      vnodeInodeSync dir
    vnodeGet inum
    pure inum

def create : NM Nat := createCommon dir name .reg

def mkdir : NM Nat := createCommon dir name .dir

/-- The target, of `tlen` bytes, is a data block of the new inode. -/
def symlink (tlen : Nat) : NM Nat := do
  unusable
  let T ← gets Ns.fs
  if name.length = 0 ∨ 255 < name.length then fail .enametoolong
  else if tlen = 0 ∨ 4096 ≤ tlen then fail .enametoolong
  else if T.version < 8 then fail .eopnotsupp
  else do
    draw .memory
    changeBegin
    nameFree dir name
    let inum ← inodeAlloc
    onError (do
        dataWriteBlock
        inodeEnter dir name inum ⟨.lnk, 1, dir⟩)
      (inodeDiscard inum)
    vnodeGet inum
    pure inum

def link (target : Nat) : NM Unit := do
  unusable
  let T ← gets Ns.fs
  if name.length = 0 ∨ 255 < name.length then fail .enametoolong
  else if (T.vnode target).kind = .dir then fail .eperm
  else do
    draw .memory
    draw .memory
    vnodePrepare
    vnodePrepare
    nameFree dir name
    dirAdd dir name target (cfsType (T.vnode target).kind)
    change fun T => T.setNlink target (wrapAdd (T.vnode target).nlink)
    onError (vnodeInodeSync target) do
      change fun T => T.setNlink target (wrapSub (T.vnode target).nlink)
      orGiveUp do
        let f ← dirFind dir name
        dirRemoveSlot dir f

/-- The counts after an entry was removed.  The record of unlinked inodes is written even
when the directory's inode could not be. -/
def unlinkCounts (dir victim : Nat) (rmdir : Bool) : NM Unit := do
  let n ← gets fun s => s.fs.vnode victim
  let left := if rmdir then 0 else wrapSub n.nlink
  change fun T => T.setNlink victim left
  let r ← attempt (runIf (rmdir = true) do
    change fun T => T.setNlink dir (wrapSub (T.vnode dir).nlink)
    vnodeInodeSync dir)
  runIf (left = 0) (orphanAdd victim)
  ofExcept r
  vnodeInodeSync victim

def unlinkCommon (rmdir : Bool) : NM Unit := do
  unusable
  draw .memory
  draw .memory
  vnodePrepare
  vnodePrepare
  let f ← dirFind dir name
  if f.entry.ino ≠ victim then fail .enoent
  else do
    runIf (rmdir = true) (emptyDir victim)
    let n ← gets fun s => s.fs.vnode victim
    runIf (rmdir = true ∨ n.nlink = 1) orphanReserve
    dirRemoveSlot dir f
    unlinkCounts dir victim rmdir

def unlink : NM Unit :=
  unlinkCommon dir name victim false

def rmdir : NM Unit :=
  unlinkCommon dir name victim true

end

/-! ## Link -/

variable {d : Nat} {name : List UInt8} {s t : Ns} {u : Unit}

theorem nameFree_ok (h : nameFree d name s = (.ok u, t)) :
    ∃ v, t.fs = { s.fs with version := v } ∧ s.fs.version ≤ v := by
  obtain ⟨r, s1, h1, h⟩ := bind_eq_ok.mp h
  have h1 := attempt_ok h1
  cases r with
  | ok f => cases h
  | error e =>
    have hs1 := (dirFind_spec h1).1
    dsimp only at h
    split at h
    · obtain ⟨v, hv, hle⟩ := namesAllow_spec h
      rw [hs1] at hv hle
      exact ⟨v, hv, by omega⟩
    · cases h

theorem unusable_bind {α : Type} {g : Unit → NM α} {a : α} (h : (unusable >>= g) s = (.ok a, t)) :
    g () s = (.ok a, t) := by
  obtain ⟨_, s1, h1, h⟩ := bind_eq_ok.mp h
  rw [unusable, gets_bind] at h1
  split at h1 <;> cases h1
  exact h

theorem link_ok (h : link d name target s = (.ok u, t)) :
    (s.fs.vnode target).kind ≠ .dir ∧ ∃ v W, s.fs.version ≤ v ∧
      Added { s.fs with version := v } d ⟨name, target, cfsType (s.fs.vnode target).kind⟩ W ∧
      t.fs = (W.setNlink target (wrapAdd (W.vnode target).nlink)).sync target := by
  have h := unusable_bind h
  rw [gets_bind] at h
  split at h
  · cases h
  split at h
  · cases h
  rename_i hk
  obtain ⟨s2, h2, h⟩ := draw_bind h
  obtain ⟨s3, h3, h⟩ := draw_bind h
  obtain ⟨s4, h4, h⟩ := draw_bind h
  obtain ⟨s5, h5, h⟩ := draw_bind h
  have hs5 : s5.fs = s.fs := h5.trans (h4.trans (h3.trans h2))
  obtain ⟨_, s6, h6, h⟩ := bind_eq_ok.mp h
  obtain ⟨v, hs6, hv⟩ := nameFree_ok h6
  obtain ⟨_, s7, h7, h⟩ := bind_eq_ok.mp h
  have hadd : Added s6.fs _ _ s7.fs := dirAdd_spec h7
  rw [hs5] at hs6 hv
  rw [hs6] at hadd
  exact ⟨hk, v, s7.fs, hv, hadd, vnodeInodeSync_spec (onError_eq_ok.mp h)⟩

theorem link_right (hT : Right T)
    (hd : IsDir T d) (htgt : ∃ n, T.stored target = some n ∧ n.nlink < 65000)
    (hlt : target < T.nextIno) (h : link d name target ⟨T, luck⟩ = (.ok u, t)) : Right t.fs := by
  obtain ⟨n, hn, hmax⟩ := htgt
  obtain ⟨hk, v, W, hv, hadd, ht⟩ := link_ok h
  have hvn : T.vnode target = n := hT.vnode hn
  have htz : target ≠ 0 := by
    rintro rfl
    rw [hT.zero] at hn
    cases hn
  have hcont : target ≠ direntCont := by
    have h1 := hT.room.2
    have h2 : maxInodes < direntCont := by decide
    omega
  have hne : NameEdit T W [] [(d, ⟨name, target, cfsType (T.vnode target).kind⟩)] :=
    nameEdit_add (hT.writable hd) hv hadd (hadd.check htz hcont)
  have hce := ((CountEdit.refl (hne.written hT.written)).more (hne.nextIno ▸ hlt)
    (by rw [hne.vnode, hvn]; omega)).sync (by rw [hne.stored, hn]; simp)
  rw [← ht] at hce
  have hisd : isDirEntry ⟨name, target, cfsType (T.vnode target).kind⟩ = false := by
    rw [Bool.eq_false_iff]
    exact fun hx => hk ((isDirEntry_iff rfl).mp hx)
  refine hT.op hne (hce.mono fun i hi => hi.1.elim hi.2 id) ?_ fun i m hm =>
    ⟨fun _ => ?_, fun hmk => ?_⟩
  · intro q hq
    obtain rfl : q = (d, ⟨name, target, cfsType (T.vnode target).kind⟩) := by simpa using hq
    exact ⟨hlt, n, hn, by rw [hvn]⟩
  · simp [List.count_cons]
  · have hi : ¬ target = i := by
      rintro rfl
      exact hk (hT.vnode hm ▸ hmk)
    simp [hi, hisd]

/-! ## Unlink and rmdir -/

section Unlink

variable {d victim : Nat} {name : List UInt8} {s t : Ns} {u : Unit}

variable {rm : Bool} {bs : List DirBlock}

theorem unlinkCounts_ok (hw : ∀ i n, s.fs.cached i = some n → s.fs.stored i = some n)
    (hd : d < s.fs.nextIno) (hv : victim < s.fs.nextIno)
    (hsd : s.fs.stored d ≠ none) (hsv : s.fs.stored victim ≠ none) (hne : rm = true → d ≠ victim)
    (h0 : 0 < (s.fs.vnode (if rm then d else victim)).nlink)
    (hlt : (s.fs.vnode (if rm then d else victim)).nlink < 2 ^ 32)
    (h : unlinkCounts d victim rm s = (.ok u, t)) :
    CountEdit s.fs t.fs [] [if rm then d else victim] (if rm then [victim] else [])
      fun _ => False := by
  rw [unlinkCounts, gets_bind, change, modify_bind] at h
  obtain ⟨r, s1, h1, h⟩ := bind_eq_ok.mp h
  have h1 := attempt_ok h1
  obtain ⟨_, s2, h2, h⟩ := bind_eq_ok.mp h
  obtain ⟨_, s3, h3, h⟩ := bind_eq_ok.mp h
  have ht := vnodeInodeSync_spec h
  obtain ⟨rfl, rfl⟩ : r = .ok () ∧ s2 = s3 := Prod.mk.inj h3
  have haside : ∃ o f, s2.fs = { s1.fs with orphans := o, failed := f } := by
    rcases runIf_ok h2 with ⟨_, h2⟩ | ⟨_, rfl⟩
    · exact orphanAdd_ok h2
    · exact ⟨s2.fs.orphans, s2.fs.failed, rfl⟩
  obtain ⟨o, f, hs2⟩ := haside
  rw [ht, hs2]
  cases rm with
  | false =>
    rcases runIf_ok h1 with ⟨hx, _⟩ | ⟨_, rfl⟩
    · cases hx
    simp only [Bool.false_eq_true, if_false] at h0 hlt ⊢
    have hce := (((CountEdit.refl hw).less hv h0 hlt).aside o f).sync hsv
    exact hce.mono fun i hi => hi.1.elim hi.2 id
  | true =>
    have h1' := (CountEdit.refl hw).dropped hv
    have hsame : ((s.fs.setNlink victim 0).vnode d).nlink = (s.fs.vnode d).nlink := by
      rw [Tree.setNlink, vnode_setVnode, if_neg (hne rfl)]
    rcases runIf_ok h1 with ⟨_, h1⟩ | ⟨hx, _⟩
    swap
    · exact absurd rfl hx
    rw [change, modify_bind] at h1
    rw [vnodeInodeSync_spec h1]
    simp only [if_true] at h0 hlt ⊢
    have hce := (((h1'.less hd (hsame ▸ h0) (hsame ▸ hlt)).sync hsd).aside o f).sync hsv
    exact hce.mono fun i hi => hi.1.1.elim hi.1.2 fun hx => hx.elim hi.2 id

theorem unlinkCommon_ok (h : unlinkCommon d name victim rm s = (.ok u, t)) :
    ∃ c f, locate s.fs.version name 0 (s.fs.dirs d) = some f ∧ f.entry.ino = victim ∧
      (rm = true → ∀ b ∈ s.fs.dirs victim, ∀ x ∈ b, x = Item.free) ∧
      ∃ w : Ns, w.fs = (({ s.fs with orphanCap := c } : Tree).putDir d
        (putBlock (s.fs.dirs d) f.lblk f.removed)).sync d ∧
        unlinkCounts d victim rm w = (.ok u, t) := by
  obtain ⟨s2, h2, h⟩ := draw_bind (unusable_bind h)
  obtain ⟨s3, h3, h⟩ := draw_bind h
  obtain ⟨s4, h4, h⟩ := draw_bind h
  obtain ⟨s5, h5, h⟩ := draw_bind h
  have hs5 : s5.fs = s.fs := h5.trans (h4.trans (h3.trans h2))
  obtain ⟨f, s6, h6, h⟩ := bind_eq_ok.mp h
  obtain ⟨hs6, hf⟩ := dirFind_spec h6
  rw [hs5] at hs6 hf
  split at h
  · cases h
  rename_i hino
  obtain ⟨_, s7, h7, h⟩ := bind_eq_ok.mp h
  have hs7 : s7.fs = s.fs ∧ (rm = true → ∀ b ∈ s.fs.dirs victim, ∀ x ∈ b, x = Item.free) := by
    rcases runIf_ok h7 with ⟨_, h7⟩ | ⟨hx, rfl⟩
    · obtain ⟨ha, hb⟩ := emptyDir_spec h7
      rw [hs6] at ha hb
      exact ⟨ha, fun _ => hb⟩
    · exact ⟨hs6, fun hr => absurd hr hx⟩
  rw [gets_bind] at h
  obtain ⟨_, s8, h8, h⟩ := bind_eq_ok.mp h
  have hs8 : ∃ c, s8.fs = { s.fs with orphanCap := c } := by
    rw [← hs7.1]
    rcases runIf_ok h8 with ⟨_, h8⟩ | ⟨_, rfl⟩
    · exact orphanReserve_spec h8
    · exact ⟨s8.fs.orphanCap, rfl⟩
  obtain ⟨c, hs8⟩ := hs8
  obtain ⟨_, s9, h9, h⟩ := bind_eq_ok.mp h
  have hs9 : s9.fs = _ := dirWriteBlock_spec h9
  rw [hs8] at hs9
  exact ⟨c, f, hf, by simpa using hino, hs7.2, s9, hs9, h⟩

theorem names_pos {e : DirEntry} (hd : d < T.nextIno)
    (he : e ∈ entriesAt T d) : 0 < names T e.ino := by
  have hpos : 0 < (entriesAt T d).countP fun x => x.ino = e.ino :=
    List.countP_pos_iff.mpr ⟨e, he, by simp⟩
  exact Nat.lt_of_lt_of_le hpos (countP_le_names hd _)

theorem locate_mem {f : Found} (h : locate v name 0 bs = some f) : f.entry ∈ entriesOf v bs := by
  obtain ⟨A, B, _, he, _⟩ := locate_entries h
  rw [he]
  simp

theorem entriesOf_free (h : ∀ b ∈ bs, ∀ x ∈ b, x = Item.free) : entriesOf v bs = [] := by
  refine List.flatMap_eq_nil_iff.mpr fun b hb => List.filterMap_eq_nil_iff.mpr fun x hx => ?_
  rw [h b hb x hx]
  rfl

theorem unlinkCommon_right
    (hT : Right T) (hd : IsDir T d) (hk : rm = true ↔ (T.vnode victim).kind = .dir)
    (h : unlinkCommon d name victim rm ⟨T, luck⟩ = (.ok u, t)) : Right t.fs := by
  obtain ⟨c, f, hf, hino, hempty, w, hw, hcounts⟩ := unlinkCommon_ok h
  have hd' := hT.live_lt hd.live
  obtain ⟨nd, hnd, _⟩ := hd.stored
  have hmem : f.entry ∈ entriesAt T d := locate_mem hf
  obtain ⟨hlt, n, hn, hek⟩ := hT.kinds d f.entry hmem
  have hpos := names_pos hd' hmem
  rw [hino] at hlt hn hpos
  have hvn : T.vnode victim = n := hT.vnode hn
  rw [hvn] at hk
  have hne : NameEdit T w.fs [(d, f.entry)] [] := by
    rw [hw]
    exact nameEdit_remove (hT.writable hd) hf
  have hdv : rm = true → d ≠ victim := by
    rintro hr rfl
    have h0 : entriesAt T d = [] := entriesOf_free (hempty hr)
    rw [h0] at hmem
    cases hmem
  have hisd : isDirEntry f.entry = true ↔ rm = true := (isDirEntry_iff hek).trans hk.symm
  have hcount : 0 < (T.vnode (if rm then d else victim)).nlink ∧
      (T.vnode (if rm then d else victim)).nlink < 2 ^ 32 := by
    cases rm with
    | false =>
      have hfile := hT.file victim n hlt hn fun hx => absurd (hk.mpr hx) (by simp)
      rw [if_neg (by simp), hvn]
      exact ⟨by omega, hT.word _ n hn⟩
    | true =>
      have hdir := hT.dir_links hd
      rw [if_pos rfl]
      omega
  rw [← hne.vnode] at hcount
  have hce := unlinkCounts_ok (hne.written hT.written) (hne.nextIno ▸ hd') (hne.nextIno ▸ hlt)
    (by rw [hne.stored, hnd]; simp) (by rw [hne.stored, hn]; simp) hdv hcount.1 hcount.2 hcounts
  refine hT.op hne hce (fun q hq => absurd hq (by simp)) fun i m hm => ?_
  have hvm : victim = i → m.kind = n.kind := by
    rintro rfl
    rw [Option.some.inj (hm.symm.trans hn)]
  cases rm with
  | false =>
    have hvi : m.kind = .dir → ¬ victim = i := fun hmk hx =>
      absurd (hk.mpr (hvm hx ▸ hmk)) (by simp)
    refine ⟨fun _ => by simp [List.count_cons, hino], fun hmk => ?_⟩
    simp [hino, hvi hmk, hisd]
  | true =>
    have hvi : m.kind ≠ .dir → ¬ victim = i := fun hmk hx => hmk (hvm hx ▸ hk.mp rfl)
    refine ⟨fun hmk => ?_, fun _ => ⟨by simp, fun hkept => ?_⟩⟩
    · have hiv : ¬ i = victim := fun hx => hvi hmk hx.symm
      simp [hino, hvi hmk, hiv, hd.ne_file hm hmk]
    · have hvi : ¬ victim = i := by simpa [hino] using hkept
      have hiv : ¬ i = victim := fun hx => hvi hx.symm
      simp [List.count_cons, hiv, hisd]

end Unlink

/-! ## Create, mkdir and symlink -/

/-- The tree with the next number taken by `n`. -/
def Tree.born (T : Tree) (n : Node) : Tree :=
  { T with
    nextIno := T.nextIno + 1
    stored := update T.stored T.nextIno (some n) }

section Create

variable {T : Tree} {d : Nat} {name : List UInt8} {s t : Ns}

variable {i : Nat} {u : Unit} {n : Node}

theorem inodeAlloc_ok (h : inodeAlloc s = (.ok i, t)) :
    i = s.fs.nextIno ∧ s.fs.nextIno < maxInodes ∧
      t.fs = { s.fs with nextIno := s.fs.nextIno + 1 } := by
  rw [inodeAlloc, gets_bind] at h
  split at h
  · cases h
  · rename_i hn
    obtain ⟨h1, h2⟩ := Prod.mk.inj h
    refine ⟨(Except.ok.inj h1).symm, by omega, ?_⟩
    rw [← h2]

theorem vnodeGet_ok (h : vnodeGet i s = (.ok u, t)) :
    t.fs = s.fs ∨ t.fs = s.fs.setVnode i (s.fs.vnode i) := by
  rw [vnodeGet, gets_bind] at h
  cases hc : s.fs.cached i with
  | some n =>
    simp only [hc] at h
    obtain rfl := (Prod.mk.inj h).2
    exact Or.inl rfl
  | none =>
    simp only [hc] at h
    obtain ⟨_, s1, h1, h⟩ := bind_eq_ok.mp h
    obtain rfl := (Prod.mk.inj h).2
    right
    rw [← draw_fs h1]

theorem inodeEnter_ok {inum : Nat} (h : inodeEnter d name inum n s = (.ok u, t)) :
    Added (s.fs.store inum (some n)) d ⟨name, inum, cfsType n.kind⟩ t.fs := by
  obtain ⟨_, s1, h1, h⟩ := bind_eq_ok.mp h
  rw [← inodeWrite_ok h1]
  exact dirAdd_spec (onError_eq_ok.mp h)

/-- What the three creations do before any vnode changes: an inode of its own and an entry
that names it. -/
structure Entered (T : Tree) (d : Nat) (n : Node) (W : Tree) : Prop where
  room : T.nextIno < maxInodes
  names : ∃ name, NameEdit (T.born n) W [] [(d, ⟨name, T.nextIno, cfsType n.kind⟩)]

theorem entered_of (hT : Right T) (hd : IsDir T d) {W : Tree} (hroom : T.nextIno < maxInodes)
    (hv : T.version ≤ v)
    (hadd : Added { T.born n with version := v } d ⟨name, T.nextIno, cfsType n.kind⟩ W) :
    Entered T d n W := by
  obtain ⟨hread, hunborn, hlt, hsync⟩ := hT.writable hd
  have hst : (T.born n).stored d = T.stored d := update_of_ne (by omega) _ _
  have hcont : T.nextIno ≠ direntCont := by
    have h2 : maxInodes < direntCont := by decide
    omega
  have hwr : Writable (T.born n) d :=
    ⟨hread, fun i hi => hunborn i (Nat.le_of_succ_le hi), Nat.lt_succ_of_lt hlt, by
      rw [Tree.vnode, hst]
      exact hsync⟩
  exact ⟨hroom, name, nameEdit_add hwr hv hadd (hadd.check (Nat.ne_zero_of_lt hlt) hcont)⟩

theorem vnode_born (hT : Sound T) (i : Nat) :
    (T.born n).vnode i = if i = T.nextIno then n else T.vnode i := by
  show (T.cached i).getD ((update T.stored T.nextIno (some n) i).getD _) = _
  by_cases hi : i = T.nextIno
  · rw [hi, (hT.unborn _ (Nat.le_refl _)).2, update_self, if_pos rfl]
    rfl
  · rw [update_of_ne hi, if_neg hi]
    rfl

theorem stored_born {m : Node} (h : (T.born n).stored i = some m) :
    i = T.nextIno ∧ m = n ∨ i ≠ T.nextIno ∧ T.stored i = some m := by
  have h : update T.stored T.nextIno (some n) i = some m := h
  by_cases hi : i = T.nextIno
  · rw [hi, update_self] at h
    exact .inl ⟨hi, (Option.some.inj h).symm⟩
  · rw [update_of_ne hi] at h
    exact .inr ⟨hi, h⟩

theorem names_born (hT : Sound T) (i : Nat) : names (T.born n) i = names T i :=
  names_range (fun i hi => (hT.unborn i hi).1) (Nat.le_succ _) i

theorem Sound.born_written (hT : Sound T) (i : Nat) (m : Node) (hm : (T.born n).cached i = some m) :
    (T.born n).stored i = some m := by
  refine (update_of_ne ?_ _ _).trans (hT.written i m hm)
  rintro rfl
  exact absurd (hm.symm.trans (hT.unborn _ (Nat.le_refl _)).2) (by simp)

theorem Sound.born (hT : Sound T) (hroom : T.nextIno < maxInodes) (hn : n.nlink < 2 ^ 32) :
    Sound (T.born n) := by
  have hst : ∀ {i m}, i < T.nextIno → T.stored i = some m → (T.born n).stored i = some m :=
    fun hi hm => (update_of_ne (by omega) _ _).trans hm
  have hr := hT.room
  refine ⟨(update_of_ne (by omega) _ _).trans hT.zero, hT.born_written,
    ⟨Nat.lt_succ_of_lt hr.1, hroom⟩, fun i hi => hT.unborn i (Nat.le_of_succ_le hi), hT.readable,
    fun x e he => ?_, fun i m hm => ?_, fun i m _ hm hk => ?_, ?_⟩
  · obtain ⟨hlt, m, hm, hk⟩ := hT.kinds x e he
    exact ⟨Nat.lt_succ_of_lt hlt, m, hst hlt hm, hk⟩
  · rcases stored_born hm with ⟨-, rfl⟩ | ⟨-, hm⟩
    · exact hn
    · exact hT.word i m hm
  · rw [names_born hT]
    by_cases hlt : i < T.nextIno
    · rcases stored_born hm with ⟨rfl, -⟩ | ⟨-, hm⟩
      · omega
      · exact hT.oneName i m hlt hm hk
    · rw [hT.names_unborn (by omega)]
      omega
  · obtain ⟨⟨m, hm, hk⟩, h0⟩ := hT.root
    exact ⟨⟨m, hst hr.1 hm, hk⟩, (names_born hT _).trans h0⟩

/-- The counts of a creation: one name for the new inode, one more subdirectory for its
parent when it is a directory. -/
theorem Right.born {W U : Tree} (hT : Right T) (hd : IsDir T d) (hE : Entered T d n W)
    (hc : CountEdit W U (if n.kind = .dir then [d] else []) [] [] fun _ => False)
    (hn : n.nlink = if n.kind = .dir then 2 else 1) : Right U := by
  obtain ⟨hroom, name, hne⟩ := hE
  have hd' := hT.live_lt hd.live
  have hword : n.nlink < 2 ^ 32 := by
    rw [hn]
    split <;> decide
  have hS : Sound (T.born n) := hT.toSound.born hroom hword
  have hnames : ∀ i, names U i = names T i + if T.nextIno = i then 1 else 0 := by
    intro i
    have h := hne.names hc i
    rw [names_born hT.toSound, named_nil, named_cons, named_nil, Nat.zero_add] at h
    exact h
  have hsub : ∀ i, subdirs U i = subdirs T i + if d = i ∧ n.kind = .dir then 1 else 0 := by
    intro i
    have h := hne.subdirs hc i
    rw [tally_nil, tally_cons, tally_nil, if_congr (and_congr_right' (isDirEntry_iff rfl)) rfl rfl,
      Nat.zero_add] at h
    exact h
  have hlink : ∀ i, (U.vnode i).nlink = (if i = T.nextIno then n.nlink else (T.vnode i).nlink) +
      if d = i ∧ n.kind = .dir then 1 else 0 := by
    intro i
    have h := (hc.vnodes i).nlink (by simp)
    rw [hne.vnode, vnode_born hT.toSound, apply_ite Node.nlink] at h
    rw [← Nat.add_zero (U.vnode i).nlink]
    refine h.trans (congrArg _ ?_)
    by_cases hk : n.kind = .dir <;> simp [hk, List.count_cons]
  refine hS.op hne hc (fun q hq => ?_) ?_ fun i m hi hm => ?_
  · obtain rfl : q = (d, ⟨name, T.nextIno, cfsType n.kind⟩) := by simpa using hq
    exact ⟨Nat.lt_succ_self _, n, update_self .., rfl⟩
  · rw [hnames, hT.root.2, if_neg (by have := hT.room; omega)]
  rw [hlink, hnames, hsub]
  rcases stored_born hm with ⟨rfl, rfl⟩ | ⟨hin, hm⟩
  · have hdn : ¬ d = T.nextIno := by omega
    have hs0 : subdirs T T.nextIno = 0 := by
      rw [subdirs, entriesAt, (hT.unborn _ (Nat.le_refl _)).1]
      rfl
    rw [if_pos rfl, if_pos rfl, if_neg fun hx => hdn hx.1, hT.names_unborn (Nat.le_refl _), hs0, hn]
    refine ⟨fun hk => by rw [if_neg hk], fun hk => ⟨by omega, fun _ => ?_⟩⟩
    rw [if_pos hk]
  · have hi : i < T.nextIno := Nat.lt_of_le_of_ne (Nat.le_of_lt_succ hi) hin
    rw [if_neg hin, if_neg (Ne.symm hin), hT.vnode hm]
    refine ⟨fun hk => ?_, fun hk => ⟨hT.oneName i m hi hm hk, fun hl => ?_⟩⟩
    · rw [if_neg fun hx => hd.ne_file hm hk hx.1, hT.file i m hi hm hk]
    · have hl : Live T i := by
        rw [Live, hnames, if_neg (Ne.symm hin)] at hl
        exact hl
      rw [hT.dir i m hi hm hk hl]
      omega

theorem born_counts {W : Tree} {w s1 : Ns} {u' : Unit} (hT : Right T) (hd : IsDir T d)
    (hE : Entered T d n W) (hw : w.fs = W) (hn : n.nlink = if n.kind = .dir then 2 else 1)
    (hp : runIf (n.kind = .dir) (do
      change fun T => T.setNlink d (wrapAdd (T.vnode d).nlink)
      vnodeInodeSync d) w = (.ok u, s1)) (hg : vnodeGet T.nextIno s1 = (.ok u', t)) :
    Right t.fs := by
  subst hw
  obtain ⟨nd, hnd, _⟩ := hd.stored
  have hd' := hT.live_lt hd.live
  obtain ⟨name, hne⟩ := hE.names
  have hst : ∀ {i}, i ≠ T.nextIno → w.fs.stored i = T.stored i := fun hi => by
    rw [hne.stored]
    exact update_of_ne hi _ _
  have hdW : d < w.fs.nextIno := hne.nextIno ▸ Nat.lt_succ_of_lt hd'
  have h0 := CountEdit.refl (hne.written hT.toSound.born_written)
  have hc : CountEdit w.fs s1.fs (if n.kind = .dir then [d] else []) [] [] fun _ => False := by
    rcases runIf_ok hp with ⟨hk, hp⟩ | ⟨hk, rfl⟩
    · rw [change, modify_bind] at hp
      rw [if_pos hk, vnodeInodeSync_spec hp]
      have hroom : (w.fs.vnode d).nlink + 1 < 2 ^ 32 := by
        rw [hne.vnode, vnode_born hT.toSound, if_neg (by omega)]
        exact (hT.dir_links hd).2
      have hs := (h0.more hdW hroom).sync (by rw [hst (i := d) (by omega), hnd]; simp)
      exact hs.mono fun i hi => hi.1.elim hi.2 id
    · rw [if_neg hk]
      exact h0
  rcases vnodeGet_ok hg with ht | ht
  · rw [ht]
    exact hT.born hd hE hc hn
  · rw [ht]
    refine hT.born hd hE (hc.fill (hne.nextIno ▸ Nat.lt_succ_self _) (hc.stored ?_)) hn
    rw [hne.stored]
    exact fun hx => absurd ((update_self ..).symm.trans hx) (by simp)

/-- What the creations begin with: a number, and a format that allows the name. -/
theorem begin_ok {α : Type} {g : Nat → NM α} {a : α}
    (h : (draw .memory >>= fun _ => changeBegin >>= fun _ => nameFree d name >>= fun _ =>
      inodeAlloc >>= g) s = (.ok a, t)) :
    ∃ v w, s.fs.version ≤ v ∧ s.fs.nextIno < maxInodes ∧
      w.fs = { s.fs with version := v, nextIno := s.fs.nextIno + 1 } ∧
      g s.fs.nextIno w = (.ok a, t) := by
  obtain ⟨s1, h1, h⟩ := draw_bind h
  obtain ⟨_, s2, h2, h⟩ := bind_eq_ok.mp h
  obtain ⟨s', h', h2⟩ := draw_bind h2
  have hs2 : s2.fs = s.fs := (draw_fs h2).trans (h'.trans h1)
  obtain ⟨_, s3, h3, h⟩ := bind_eq_ok.mp h
  obtain ⟨v, hs3, hv⟩ := nameFree_ok h3
  rw [hs2] at hs3 hv
  obtain ⟨i, s4, h4, h⟩ := bind_eq_ok.mp h
  obtain ⟨rfl, hroom, hs4⟩ := inodeAlloc_ok h4
  rw [hs3] at hroom hs4 h
  exact ⟨v, s4, hv, hroom, hs4, h⟩

theorem createCommon_right {kind : Kind} (hT : Right T)
    (hd : IsDir T d) (h : createCommon d name kind ⟨T, luck⟩ = (.ok i, t)) : Right t.fs := by
  have h := unusable_bind h
  split at h
  · cases h
  obtain ⟨v, s5, hv, hroom, hs5, h⟩ := begin_ok h
  obtain ⟨_, s6, h6, h⟩ := bind_eq_ok.mp h
  have hadd := inodeEnter_ok (onError_eq_ok.mp h6)
  rw [hs5] at hadd
  have hE := entered_of (n := ⟨kind, if kind = .dir then 2 else 1, d⟩) hT hd hroom hv hadd
  obtain ⟨_, s7, h7, h⟩ := bind_eq_ok.mp h
  obtain ⟨_, s8, h8, h⟩ := bind_eq_ok.mp h
  cases h
  exact born_counts hT hd hE rfl rfl h7 h8

theorem symlink_right {tlen : Nat} (hT : Right T)
    (hd : IsDir T d) (h : symlink d name tlen ⟨T, luck⟩ = (.ok i, t)) : Right t.fs := by
  have h := unusable_bind h
  rw [gets_bind] at h
  split at h
  · cases h
  split at h
  · cases h
  split at h
  · cases h
  obtain ⟨v, s5, hv, hroom, hs5, h⟩ := begin_ok h
  obtain ⟨_, s6, h6, h⟩ := bind_eq_ok.mp h
  obtain ⟨_, s7, h7, h6⟩ := bind_eq_ok.mp (onError_eq_ok.mp h6)
  have hadd := inodeEnter_ok h6
  rw [draw_fs (onError_eq_ok.mp h7), hs5] at hadd
  have hE := entered_of (n := ⟨.lnk, 1, d⟩) hT hd hroom hv hadd
  obtain ⟨_, s8, h8, h⟩ := bind_eq_ok.mp h
  cases h
  have hp : runIf ((⟨.lnk, 1, d⟩ : Node).kind = .dir) (do
      change fun T => T.setNlink d (wrapAdd (T.vnode d).nlink)
      vnodeInodeSync d) s6 = (.ok (), s6) := by
    rfl
  exact born_counts hT hd hE rfl rfl hp h8

end Create

end CosmoOS.Cosmofs.Dir
