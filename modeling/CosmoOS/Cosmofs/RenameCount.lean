import CosmoOS.Cosmofs.NameOps

/-!
# The link counts of a rename, and of every operation

A rename touches up to four inodes, with aliasing: the two directories may be one, and what
is replaced may be a directory.  The names move by an edit of at most three entries; the
counts move in two steps, what was replaced and then the move between directories.

One path leaves a vnode dirty.  A rename that replaces a directory takes one off the count
of the directory it is in, and only a rename between two directories writes that vnode back
afterwards.  `linkCounts_iff` says that this is the only one: every other operation, and
every run of them, leaves right counts in the inode map.
-/

namespace CosmoOS.Cosmofs.Dir

open Lib Fallible Function

variable {u : Unit} {t : Ns} {luck : Call → List (Option Errno)}

/-! ## Rename -/

/-- A rename as the VFS calls it: between directories of the tree, over an entry that was
looked up, not over another name of the victim, and a directory only over a directory. -/
structure RenameCalled (T : Tree) (a : RenameArgs) : Prop where
  odir : IsDir T a.odir
  ndir : IsDir T a.ndir
  target : ∀ r, a.replaced = some r →
    (∃ k, nameMap T.version (T.dirs a.ndir) a.nname = some (r, k)) ∧ r ≠ a.victim ∧
    ((T.vnode r).kind = .dir ↔ (T.vnode a.victim).kind = .dir)

/-- The entry the replaced inode loses. -/
def lost (ndir : Nat) (e : DirEntry) : Option Nat → List (Nat × DirEntry)
  | none => []
  | some _ => [(ndir, e)]

section Rename

variable {T W : Tree} {a : RenameArgs} {er eo en : DirEntry}

theorem find_insert {α : Type} {p : α → Bool} {A B : List α} {e x : α}
    (h : (A ++ B).find? p = some x) :
    (A ++ e :: B).find? p = some x ∨ (A ++ e :: B).find? p = some e := by
  rw [List.find?_append] at h ⊢
  cases hA : A.find? p with
  | some y =>
    rw [hA] at h
    exact Or.inl h
  | none =>
    rw [hA, Option.none_or] at h
    rw [Option.none_or, List.find?_cons]
    split
    · exact Or.inr rfl
    · exact Or.inl h

/-- The names after the source is retired. -/
structure Renamed (T : Tree) (a : RenameArgs) (W : Tree) (er eo en : DirEntry) : Prop where
  names : NameEdit T W (lost a.ndir er a.replaced ++ [(a.odir, eo)]) [(a.ndir, en)]
  replaced : ∀ r, a.replaced = some r → er ∈ entriesAt T a.ndir ∧ er.ino = r ∧
    ((T.vnode r).kind = .dir → entriesAt T r = [])
  source : ∃ e ∈ entriesAt T a.odir, e.ino = a.victim ∧ eo.ino = e.ino ∧ eo.kind = e.kind ∧
    en.ino = e.ino ∧ en.kind = e.kind

theorem publish_names {g : Found} {s : Ns} (hT : Right T) (hcall : RenameCalled T a)
    (hfs : s.fs = T) (hg : locate T.version a.oname 0 (T.dirs a.odir) = some g)
    (hgi : g.entry.ino = a.victim) (h : renamePublish a g.entry.kind s = (.ok u, t)) :
    ∃ er en, NameEdit T t.fs (lost a.ndir er a.replaced) [(a.ndir, en)] ∧
      en.ino = a.victim ∧ en.kind = g.entry.kind ∧
      nameMap t.fs.version (t.fs.dirs a.odir) a.oname = some (a.victim, g.entry.kind) ∧
      ∀ r, a.replaced = some r → er ∈ entriesAt T a.ndir ∧ er.ino = r ∧
        ((T.vnode r).kind = .dir → entriesAt T r = []) := by
  subst hfs
  have hn' := hT.writable hcall.ndir
  have hsrc : nameMap s.fs.version (s.fs.dirs a.odir) a.oname = some (a.victim, g.entry.kind) := by
    rw [nameMap_of_locate hg, hgi]
  obtain ⟨_, _, _, _, hgin⟩ := locate_some hg
  cases hr : a.replaced with
  | some r =>
    obtain ⟨hempty, c, f, hf, ht⟩ := renamePublish_some hr h
    obtain ⟨⟨k, hk⟩, hrv, _⟩ := hcall.target r hr
    obtain ⟨_, _, _, _, hfin⟩ := locate_some hf
    have hfi : f.entry.ino = r := by
      rw [nameMap_of_locate hf] at hk
      exact (Prod.mk.inj (Option.some.inj hk)).1
    have hc : direntCheck s.fs.version (f.repoint a.victim g.entry.kind).entry ≠ 0 := by
      rw [← hgi]
      exact direntCheck_repoint hfin.seen hgin.seen
    refine ⟨f.entry, (f.repoint a.victim g.entry.kind).entry, ?_, rfl, rfl, ?_, ?_⟩
    · rw [ht]
      exact nameEdit_repoint hn' hf hc
    · rw [ht]
      show nameMap s.fs.version (update s.fs.dirs a.ndir _ a.odir) a.oname = _
      by_cases ho : a.odir = a.ndir
      · have hne : a.oname ≠ a.nname := by
          intro hx
          rw [ho, hx, hk] at hsrc
          exact hrv (Prod.mk.inj (Option.some.inj hsrc)).1
        rw [ho, update_self, locate_repoint_ne hf hc hne, ← ho]
        exact hsrc
      · rw [update_of_ne ho]
        exact hsrc
    · intro r' hr'
      obtain rfl : r = r' := Option.some.inj hr'
      exact ⟨locate_mem hf, hfi, fun hd => entriesOf_free (hempty hd)⟩
  | none =>
    obtain ⟨v, hv, -, hadd⟩ := renamePublish_none hr h
    obtain ⟨hi, hd, _, _⟩ := direntCheck_ne_zero.mp hgin.seen
    rw [hgi] at hi hd
    have hc : direntCheck v ⟨a.nname, a.victim, g.entry.kind⟩ ≠ 0 := hadd.check hi hd
    refine ⟨⟨a.nname, a.victim, g.entry.kind⟩, ⟨a.nname, a.victim, g.entry.kind⟩, ?_, rfl, rfl,
      ?_, fun r hr' => absurd hr' (by simp)⟩
    · exact nameEdit_add hn' hv hadd hc
    · obtain ⟨-, -, k, b, pre, x, y, post, hsl, ht⟩ := hadd
      rw [ht]
      show nameMap v (update s.fs.dirs a.ndir _ a.odir) a.oname = _
      by_cases ho : a.odir = a.ndir
      · -- the name may now have two entries, of the same inode
        rw [ho, nameMap, ← (hT.readable a.ndir).entries hv, hsl.entries v] at hsrc
        rw [ho, update_self, nameMap, hsl.entries_put hc]
        obtain ⟨e, he, hek⟩ := Option.map_eq_some_iff.mp hsrc
        rcases find_insert (e := (⟨a.nname, a.victim, g.entry.kind⟩ : DirEntry)) he with h1 | h1
        · rw [h1]
          exact congrArg some hek
        · rw [h1]
          rfl
      · rw [update_of_ne ho, nameMap, (hT.readable a.odir).entries hv]
        exact hsrc

theorem renameLocked_names (hT : Right T)
    (hcall : RenameCalled T a) (h : renameLocked a ⟨T, luck⟩ = (.ok u, t)) :
    ∃ W er eo en, Renamed T a W er eo en ∧ ∃ w : Ns, w.fs = W ∧ renameCounts a w = (.ok u, t) := by
  obtain ⟨g, s1, h1, h⟩ := bind_eq_ok.mp h
  obtain ⟨hs1, hg⟩ := dirFind_spec h1
  split at h
  · cases h
  rename_i hino
  have hgi : g.entry.ino = a.victim := by simpa using hino
  obtain ⟨_, s2, h2, h⟩ := bind_eq_ok.mp h
  obtain ⟨er, en, hV, hei, hek, hmap, hrep⟩ := publish_names hT hcall hs1 hg hgi h2
  obtain ⟨_, s3, h3, h⟩ := bind_eq_ok.mp h
  obtain ⟨g2, s4, h4, h3⟩ := bind_eq_ok.mp (onError_eq_ok.mp h3)
  obtain ⟨hs4, hg2⟩ := dirFind_spec h4
  have hs3 : s3.fs = _ := dirWriteBlock_spec h3
  rw [hs4] at hs3
  have hW : NameEdit s2.fs s3.fs [(a.odir, g2.entry)] [] := by
    rw [hs3]
    exact nameEdit_remove (hV.writable (hT.writable hcall.odir)) hg2
  rw [nameMap_of_locate hg2] at hmap
  obtain ⟨h2i, h2k⟩ := Prod.mk.inj (Option.some.inj hmap)
  refine ⟨s3.fs, er, g2.entry, en, ⟨by simpa using hV.trans hW, hrep, g.entry, locate_mem hg, hgi,
    h2i.trans hgi.symm, h2k, hei.trans hgi.symm, hek⟩, s3, rfl, orAbandon_spec h⟩

/-- What the kinds of the entries say. -/
structure RenameKinds (T : Tree) (a : RenameArgs) (er eo en : DirEntry) : Prop where
  victim : a.victim < T.nextIno ∧ ∃ n, T.stored a.victim = some n ∧ en.kind = cfsType n.kind
  moved : eo.ino = a.victim ∧ en.ino = a.victim ∧
    (isDirEntry eo = true ↔ (T.vnode a.victim).kind = .dir) ∧
    (isDirEntry en = true ↔ (T.vnode a.victim).kind = .dir)
  taken : ∀ r, a.replaced = some r → r < T.nextIno ∧ (∃ n, T.stored r = some n) ∧
    0 < names T r ∧ r ≠ a.odir ∧ r ≠ a.ndir ∧
    (isDirEntry er = true ↔ (T.vnode r).kind = .dir)

theorem Renamed.kinds (hT : Right T) (hcall : RenameCalled T a) (hR : Renamed T a W er eo en) :
    RenameKinds T a er eo en := by
  obtain ⟨e, he, hei, hoi, hok, hni, hnk⟩ := hR.source
  obtain ⟨hlt, n, hn, hek⟩ := hT.kinds _ e he
  rw [hei] at hlt hn
  have hv : T.vnode a.victim = n := hT.vnode hn
  refine ⟨⟨hlt, n, hn, by rw [hnk, hek]⟩, ⟨hoi.trans hei, hni.trans hei, ?_, ?_⟩, ?_⟩
  · rw [hv]
    exact isDirEntry_iff (hok.trans hek)
  · rw [hv]
    exact isDirEntry_iff (hnk.trans hek)
  · intro r hr
    obtain ⟨hmem, heri, hempty⟩ := hR.replaced r hr
    obtain ⟨hr', nr, hnr, hrk⟩ := hT.kinds _ er hmem
    have hpos := names_pos (hT.live_lt hcall.ndir.live) hmem
    rw [heri] at hr' hnr hpos
    have hvr : T.vnode r = nr := hT.vnode hnr
    refine ⟨hr', ⟨nr, hnr⟩, hpos, ?_, ?_, ?_⟩
    -- a replaced directory is empty, and the two the entries are in are not
    · rintro rfl
      obtain ⟨m, hm, hmk⟩ := hcall.odir.stored
      rw [hempty (by rw [hT.vnode hm, hmk])] at he
      cases he
    · rintro rfl
      obtain ⟨m, hm, hmk⟩ := hcall.ndir.stored
      rw [hempty (by rw [hT.vnode hm, hmk])] at hmem
      cases hmem
    · rw [hvr]
      exact isDirEntry_iff hrk

end Rename

/-- The count a name that is taken over counts in: its inode's, or that of the directory it is
in. -/
def takenDown (T : Tree) (ndir : Nat) : Option Nat → List Nat
  | none => []
  | some r => [if (T.vnode r).kind = .dir then ndir else r]

/-- The directory that is taken over. -/
def takenDrop (T : Tree) : Option Nat → List Nat
  | none => []
  | some r => if (T.vnode r).kind = .dir then [r] else []

section RenameCounts

variable {s t : Ns} {u : Unit}

theorem renameReplaced_ok {ndir r : Nat}
    (hw : ∀ i n, s.fs.cached i = some n → s.fs.stored i = some n) (hr : r < s.fs.nextIno)
    (hn : ndir < s.fs.nextIno) (hsr : s.fs.stored r ≠ none) (hne : ndir ≠ r)
    (hlink : ∀ i ∈ takenDown s.fs ndir (some r),
      0 < (s.fs.vnode i).nlink ∧ (s.fs.vnode i).nlink < 2 ^ 32)
    (h : renameReplaced ndir r s = (.ok u, t)) :
    (∀ i, i ≠ r → t.fs.stored i = s.fs.stored i) ∧
    CountEdit s.fs t.fs [] (takenDown s.fs ndir (some r)) (takenDrop s.fs (some r))
      (fun i => (s.fs.vnode r).kind = .dir ∧ i = ndir) := by
  rw [renameReplaced, gets_bind, change, modify_bind] at h
  obtain ⟨_, s1, h1, h⟩ := bind_eq_ok.mp h
  have haside : ∃ o f, s1.fs = { s.fs.setNlink r
      (if (s.fs.vnode r).kind = .dir then 0 else wrapSub (s.fs.vnode r).nlink) with
      orphans := o, failed := f } := by
    rcases runIf_ok h1 with ⟨_, h1⟩ | ⟨_, rfl⟩
    · exact orphanAdd_ok h1
    · exact ⟨s.fs.orphans, s.fs.failed, rfl⟩
  obtain ⟨o, f, hs1⟩ := haside
  obtain ⟨_, s2, h2, h⟩ := bind_eq_ok.mp h
  have ht := vnodeInodeSync_spec h
  have hst1 : s1.fs.stored = s.fs.stored := by
    rw [hs1]
    rfl
  have hstored : s2.fs.stored = s1.fs.stored → ∀ i, i ≠ r → t.fs.stored i = s.fs.stored i := by
    intro hs i hi
    rw [ht, ← hst1, ← hs]
    exact update_of_ne hi _ _
  rcases runIf_ok h2 with ⟨hk, h2⟩ | ⟨hk, rfl⟩
  · obtain rfl := (Prod.mk.inj h2).2
    simp only [takenDown, takenDrop, if_pos hk, List.forall_mem_singleton] at hlink hs1 ⊢
    have hc := ((CountEdit.refl hw).dropped hr).aside o f
    rw [← hs1] at hc
    have hnl : (s1.fs.vnode ndir).nlink = (s.fs.vnode ndir).nlink :=
      (hc.vnodes ndir).nlink (by simpa using hne)
    rw [← hnl] at hlink
    refine ⟨hstored rfl, ?_⟩
    rw [ht]
    refine ((hc.less hn hlink.1 hlink.2).sync hsr).mono ?_
    rintro i ⟨rfl | rfl | hf, hir⟩
    · exact ⟨hk, rfl⟩
    · exact absurd rfl hir
    · exact hf.elim
  · simp only [takenDown, takenDrop, if_neg hk, List.forall_mem_singleton] at hlink hs1 ⊢
    have hc := ((CountEdit.refl hw).less hr hlink.1 hlink.2).aside o f
    rw [← hs1] at hc
    refine ⟨hstored rfl, ?_⟩
    rw [ht]
    exact (hc.sync hsr).mono fun i hi => (hi.1.elim hi.2 id).elim

theorem renameMoved_ok {W : Tree} {down drop : List Nat} {dirty : Nat → Prop}
    {odir victim ndir : Nat} (hc : CountEdit W s.fs [] down drop dirty)
    (hdirty : ∀ i, dirty i → i = ndir) (hdrop : odir ∉ drop ∧ ndir ∉ drop)
    (hdown : down.count odir ≤ 1) (ho : odir < W.nextIno) (hv : victim < W.nextIno)
    (hn : ndir < W.nextIno) (hso : W.stored odir ≠ none) (hsv : W.stored victim ≠ none)
    (hsn : W.stored ndir ≠ none)
    (hol : 2 ≤ (W.vnode odir).nlink ∧ (W.vnode odir).nlink + 1 < 2 ^ 32)
    (hnl : (W.vnode ndir).nlink + 1 < 2 ^ 32)
    (h : runIf (odir ≠ ndir) (renameMoved odir victim ndir) s = (.ok u, t)) :
    CountEdit W t.fs (if (W.vnode victim).kind = .dir then [ndir] else [])
      (if (W.vnode victim).kind = .dir then odir :: down else down) drop
      (fun i => odir = ndir ∧ dirty i) := by
  rcases runIf_ok h with ⟨hne, h⟩ | ⟨hne, rfl⟩
  swap
  · obtain rfl := not_not.mp hne
    split
    · exact (hc.both odir).mono fun i hi => ⟨rfl, hi⟩
    · exact hc.mono fun i hi => ⟨rfl, hi⟩
  rw [renameMoved, change, modify_bind, gets_bind] at h
  obtain ⟨hkind, hword, hnlink⟩ := hc.vnodes victim
  have h1 := hc.vnode (n := { s.fs.vnode victim with parent := ndir }) hv ⟨hkind, hword, hnlink⟩
    fun _ _ => ⟨rfl, rfl, .rfl⟩
  generalize s.fs.setVnode victim { s.fs.vnode victim with parent := ndir } = T1 at h h1
  obtain ⟨_, s2, h2, h⟩ := bind_eq_ok.mp h
  obtain ⟨_, s3, h3, h⟩ := bind_eq_ok.mp h
  obtain ⟨_, s4, h4, h⟩ := bind_eq_ok.mp h
  have hmid : CountEdit W s2.fs (if (W.vnode victim).kind = .dir then [ndir] else [])
      (if (W.vnode victim).kind = .dir then odir :: down else down) drop
      (fun i => i = ndir ∨ i = odir ∨ i = victim ∨ dirty i) := by
    rw [← (h1.vnodes victim).kind]
    rcases runIf_ok h2 with ⟨hk, h2⟩ | ⟨hk, rfl⟩
    · obtain rfl := (Prod.mk.inj h2).2
      rw [if_pos hk, if_pos hk]
      have ho1 := (h1.vnodes odir).nlink hdrop.1
      rw [List.count_nil] at ho1
      have h2' := h1.less ho (by omega) (by omega)
      have hn1 := (h2'.vnodes ndir).nlink hdrop.2
      rw [List.count_nil] at hn1
      exact h2'.more hn (by omega)
    · rw [if_neg hk, if_neg hk]
      exact h1.mono fun i hi => Or.inr (Or.inr hi)
  rw [vnodeInodeSync_spec h, vnodeInodeSync_spec h4, vnodeInodeSync_spec h3]
  refine (((hmid.sync hsv).sync hso).sync hsn).mono ?_
  rintro i ⟨⟨⟨hi | hi | hi | hi, hiv⟩, hio⟩, hin⟩
  · exact absurd hi hin
  · exact absurd hi hio
  · exact absurd hi hiv
  · exact absurd (hdirty i hi) hin

end RenameCounts

variable {T : Tree} {a : RenameArgs} {i : Nat}

/-- The counts a rename leaves: what was replaced first, then the move. -/
theorem renameCounts_ok {er eo en : DirEntry} {w : Ns} (hT : Right T)
    (hcall : RenameCalled T a) (hR : Renamed T a w.fs er eo en) (hK : RenameKinds T a er eo en)
    (h : renameCounts a w = (.ok u, t)) :
    (a.odir = a.ndir → ∀ r, a.replaced = some r → t.fs.stored a.ndir = w.fs.stored a.ndir) ∧
    CountEdit w.fs t.fs (if (T.vnode a.victim).kind = .dir then [a.ndir] else [])
      (if (T.vnode a.victim).kind = .dir then a.odir :: takenDown T a.ndir a.replaced
        else takenDown T a.ndir a.replaced) (takenDrop T a.replaced)
      (fun _ => a.odir = a.ndir ∧ ∃ r, a.replaced = some r ∧ (T.vnode r).kind = .dir) := by
  have hvn : ∀ i, w.fs.vnode i = T.vnode i := hR.names.vnode
  have hnext := hR.names.nextIno
  have hst := hR.names.stored
  have hwr := hR.names.written hT.written
  obtain ⟨no, hno, _⟩ := hcall.odir.stored
  obtain ⟨nn, hnn, _⟩ := hcall.ndir.stored
  have ho' := hT.live_lt hcall.odir.live
  have hn' := hT.live_lt hcall.ndir.live
  obtain ⟨hv', nv, hnv, _⟩ := hK.victim
  have hol := hT.dir_links hcall.odir
  have hnl := hT.dir_links hcall.ndir
  have moved : ∀ {s : Ns} {drop : List Nat} {dirty : Nat → Prop} {down : List Nat},
      CountEdit w.fs s.fs [] down drop dirty → (∀ i, dirty i → i = a.ndir) →
      a.odir ∉ drop ∧ a.ndir ∉ drop → down.count a.odir ≤ 1 →
      runIf (a.odir ≠ a.ndir) (renameMoved a.odir a.victim a.ndir) s = (.ok u, t) →
      CountEdit w.fs t.fs (if (T.vnode a.victim).kind = .dir then [a.ndir] else [])
        (if (T.vnode a.victim).kind = .dir then a.odir :: down else down) drop
        (fun i => a.odir = a.ndir ∧ dirty i) := by
    intro s drop dirty down hc hd hdrop hdown hm
    rw [← hvn] at hol hnl ⊢
    exact renameMoved_ok hc hd hdrop hdown (hnext ▸ ho') (hnext ▸ hv') (hnext ▸ hn')
      (by rw [hst, hno]; simp) (by rw [hst, hnv]; simp) (by rw [hst, hnn]; simp) hol hnl.2 hm
  unfold renameCounts at h
  cases hr : a.replaced with
  | none =>
    simp only [hr] at h
    refine ⟨fun _ r hr' => absurd hr' (by simp), ?_⟩
    exact (moved (CountEdit.refl hwr) (fun _ => False.elim) (by simp) (by simp) h).mono
      fun i hi => hi.2.elim
  | some r =>
    simp only [hr] at h
    obtain ⟨_, s1, h1, h⟩ := bind_eq_ok.mp h
    obtain ⟨hr', ⟨nr, hnr⟩, hpos, hro, hrn, -⟩ := hK.taken r hr
    have hlink : ∀ i ∈ takenDown w.fs a.ndir (some r),
        0 < (w.fs.vnode i).nlink ∧ (w.fs.vnode i).nlink < 2 ^ 32 := by
      intro i hi
      rw [takenDown, List.mem_singleton, hvn] at hi
      rw [hvn, hi]
      split
      · exact ⟨by omega, by omega⟩
      · rename_i hk
        rw [hT.vnode hnr] at hk ⊢
        rw [hT.file r nr hr' hnr hk]
        exact ⟨hpos, hT.file r nr hr' hnr hk ▸ hT.word r nr hnr⟩
    obtain ⟨hkeep, hc⟩ := renameReplaced_ok hwr (hnext ▸ hr') (hnext ▸ hn')
      (by rw [hst, hnr]; simp) (Ne.symm hrn) hlink h1
    simp only [takenDown, takenDrop, hvn] at hc ⊢
    refine ⟨fun ho _ _ => ?_, (moved hc (fun i hi => hi.2) ?_ ?_ h).mono fun i hi =>
      ⟨hi.1, r, rfl, hi.2.1⟩⟩
    · rcases runIf_ok h with ⟨hne, _⟩ | ⟨_, rfl⟩
      · exact absurd ho hne
      · exact hkeep _ (Ne.symm hrn)
    · split <;> simp [Ne.symm hro, Ne.symm hrn]
    · exact List.count_le_length

section RenameRight

variable {T : Tree} {a : RenameArgs} {luck : Call → List (Option Errno)} {t : Ns} {u : Unit}
  {W : Tree} {er eo en : DirEntry}

theorem named_append (i : Nat) (l m : List (Nat × DirEntry)) :
    named i (l ++ m) = named i l + named i m :=
  List.countP_append

theorem renameLocked_right (hT : Right T) (hcall : RenameCalled T a)
    (hslip : ¬ (a.odir = a.ndir ∧ ∃ r, a.replaced = some r ∧ (T.vnode r).kind = .dir))
    (h : renameLocked a ⟨T, luck⟩ = (.ok u, t)) : Right t.fs := by
  obtain ⟨W, er, eo, en, hR, w, rfl, hcounts⟩ := renameLocked_names hT hcall h
  have hK := hR.kinds hT hcall
  have hce := (renameCounts_ok hT hcall hR hK hcounts).2.mono fun _ => hslip
  obtain ⟨hoi, hni, hod, hnd⟩ := hK.moved
  refine hT.op hR.names hce ?_ fun i m hm => ?_
  · intro q hq
    obtain rfl : q = (a.ndir, en) := by simpa using hq
    rw [hni]
    exact hK.victim
  have hvm : T.vnode i = m := hT.vnode hm
  have hio := hcall.odir.ne_file hm
  have hin := hcall.ndir.ne_file hm
  rw [named_append, tally_append]
  cases hr : a.replaced with
  | none =>
    by_cases hk : (T.vnode a.victim).kind = .dir
    · simp only [lost, takenDown, takenDrop, hk, if_true]
      refine ⟨fun hmk => ?_, fun _ => ?_⟩
      · simp [hoi, hni, hio hmk, hin hmk]
      · simp [hoi, hni, hod, hnd, hk, List.count_cons]
        omega
    · simp [lost, takenDown, takenDrop, hk, hoi, hni, hod, hnd]
  | some r =>
    have heri := (hR.replaced r hr).2.1
    have hkr := (hcall.target r hr).2.2
    have hed := (hK.taken r hr).2.2.2.2.2
    have hrm : r = i → m.kind = (T.vnode r).kind := by
      rintro rfl
      rw [hvm]
    by_cases hk : (T.vnode a.victim).kind = .dir
    · simp only [lost, takenDown, takenDrop, hkr.mpr hk, hk, if_true]
      have hri : r = i → m.kind = .dir := fun hx => (hrm hx).trans (hkr.mpr hk)
      refine ⟨fun hmk => ?_, fun _ => ⟨?_, fun hkept => ?_⟩⟩
      · have hir : ¬ i = r := fun hx => hmk (hri hx.symm)
        simp [heri, hoi, hni, hio hmk, hin hmk, hir, Ne.symm hir]
      · simp [hoi, hni]
      · have hne : ¬ r = i := by simpa [heri, hoi, hni] using hkept
        simp [hod, hnd, hed, hkr.mpr hk, hk, List.count_cons, Ne.symm hne]
        omega
    · have hkr' : ¬ (T.vnode r).kind = .dir := mt hkr.mp hk
      simp only [lost, takenDown, takenDrop, hkr', hk, if_false]
      refine ⟨fun hmk => ?_, fun hmk => ?_⟩
      · simp [heri, hoi, hni, List.count_cons]
      · have hri : ¬ r = i := fun hx => hkr' ((hrm hx).symm.trans hmk)
        simp [heri, hoi, hni, hod, hnd, hed, hkr', hk, hri]

/-- The directory of a rename that replaces a directory in it has a subdirectory less and
the count it had. -/
theorem renameLocked_slips (hT : Right T) (hcall : RenameCalled T a) {r : Nat}
    (ho : a.odir = a.ndir) (hr : a.replaced = some r) (hk : (T.vnode r).kind = .dir)
    (h : renameLocked a ⟨T, luck⟩ = (.ok u, t)) : ¬ LinkCounts t.fs := by
  obtain ⟨W, er, eo, en, hR, w, rfl, hcounts⟩ := renameLocked_names hT hcall h
  have hK := hR.kinds hT hcall
  obtain ⟨hkept, hce⟩ := renameCounts_ok hT hcall hR hK hcounts
  obtain ⟨hoi, hni, hod, hnd⟩ := hK.moved
  obtain ⟨_, _, _, _, hrn, hed⟩ := hK.taken r hr
  have hkv : (T.vnode a.victim).kind = .dir := ((hcall.target r hr).2.2).mp hk
  obtain ⟨m, hm, hmk⟩ := hcall.ndir.stored
  have hn' := hT.live_lt hcall.ndir.live
  have hdir := hT.dir _ m hn' hm hmk hcall.ndir.live
  -- the map still has the old count
  have hstored : t.fs.stored a.ndir = some m := by
    rw [hkept ho r hr, hR.names.stored]
    exact hm
  have hname := hR.names.names hce a.ndir
  have hsub := hR.names.subdirs hce a.ndir
  rw [tally_append, tally_cons, tally_nil, tally_cons, tally_nil, hr, lost, tally_cons,
    tally_nil] at hsub
  simp only [hed.mpr hk, hod.mpr hkv, hnd.mpr hkv, ho, and_self, if_true] at hsub
  have heri := (hR.replaced r hr).2.1
  simp only [named_append, hr, lost, named_cons, named_nil, hoi, hni, heri, if_neg hrn] at hname
  have hlive : Live t.fs a.ndir := by
    rcases hcall.ndir.live with hroot | hpos
    · exact Or.inl hroot
    · exact Or.inr (by omega)
  intro hLC
  have hbad := hLC.dir a.ndir m (by rw [hce.nextIno, hR.names.nextIno]; exact hn') hstored hmk hlive
  omega

end RenameRight

/-! ## Every operation -/

inductive Op
  | create (dir : Nat) (name : List UInt8)
  | mkdir (dir : Nat) (name : List UInt8)
  | symlink (dir : Nat) (name : List UInt8) (tlen : Nat)
  | link (dir : Nat) (name : List UInt8) (target : Nat)
  | unlink (dir : Nat) (name : List UInt8) (victim : Nat)
  | rmdir (dir : Nat) (name : List UInt8) (victim : Nat)
  | rename (a : RenameArgs)

def Op.run : Op → NM Unit
  | .create d name => do
      let _ ← Dir.create d name
      pure ()
  | .mkdir d name => do
      let _ ← Dir.mkdir d name
      pure ()
  | .symlink d name tlen => do
      let _ ← Dir.symlink d name tlen
      pure ()
  | .link d name target => Dir.link d name target
  | .unlink d name victim => Dir.unlink d name victim
  | .rmdir d name victim => Dir.rmdir d name victim
  | .rename a => Dir.rename a

/-- What the VFS has checked before it calls the operation. -/
def Op.Called (T : Tree) : Op → Prop
  | .create d _ | .mkdir d _ | .symlink d _ _ => IsDir T d
  | .link d _ target => IsDir T d ∧ target < T.nextIno ∧
      ∃ n, T.stored target = some n ∧ n.nlink < 65000
  | .unlink d _ victim => IsDir T d ∧ (T.vnode victim).kind ≠ .dir
  | .rmdir d _ victim => IsDir T d ∧ (T.vnode victim).kind = .dir
  | .rename a => RenameCalled T a

/-- A rename within one directory that replaces a directory. -/
def Op.Slips (T : Tree) : Op → Prop
  | .rename a => a.odir = a.ndir ∧ ∃ r, a.replaced = some r ∧ (T.vnode r).kind = .dir
  | _ => False

theorem rename_ok {s : Ns} (h : rename a s = (.ok u, t)) :
    ∃ s', s'.fs = s.fs ∧ renameLocked a s' = (.ok u, t) := by
  have h := unusable_bind h
  split at h
  · cases h
  obtain ⟨s2, h2, h⟩ := draw_bind h
  obtain ⟨s3, h3, h⟩ := draw_bind h
  obtain ⟨s4, h4, h⟩ := draw_bind h
  obtain ⟨s5, h5, h⟩ := draw_bind h
  obtain ⟨s6, h6, h⟩ := draw_bind h
  obtain ⟨_, s7, h7, h⟩ := bind_eq_ok.mp h
  have hs6 : s6.fs = s.fs := h6.trans (h5.trans (h4.trans (h3.trans h2)))
  refine ⟨s7, ?_, h⟩
  rcases runIf_ok h7 with ⟨_, h7⟩ | ⟨_, rfl⟩
  · exact (draw_fs h7).trans hs6
  · exact hs6

/-- **The step.**  Every operation but one keeps the tree right. -/
theorem Op.right {op : Op} (hT : Right T) (hcall : op.Called T) (hslip : ¬ op.Slips T)
    (h : op.run ⟨T, luck⟩ = (.ok u, t)) : Right t.fs := by
  cases op with
  | create d name | mkdir d name =>
    obtain ⟨i, s, hs, h⟩ := bind_eq_ok.mp h
    obtain rfl := (Prod.mk.inj h).2
    exact createCommon_right hT hcall hs
  | symlink d name tlen =>
    obtain ⟨i, s, hs, h⟩ := bind_eq_ok.mp h
    obtain rfl := (Prod.mk.inj h).2
    exact symlink_right hT hcall hs
  | link d name target => exact link_right hT hcall.1 hcall.2.2 hcall.2.1 h
  | unlink d name victim | rmdir d name victim =>
    exact unlinkCommon_right hT hcall.1 (by simpa using hcall.2) h
  | rename a =>
    obtain ⟨⟨T', luck'⟩, rfl, h'⟩ := rename_ok h
    exact renameLocked_right hT hcall hslip h'

/-- **When the stored link counts stay right.**  From a tree whose counts are right, a
successful operation leaves right counts in the inode map, of every live inode, exactly
when it is not a rename of one directory over another within their parent. -/
theorem linkCounts_iff (T : Tree) (op : Op) (luck : Call → List (Option Errno)) (t : Ns)
    (hT : Right T) (hcall : op.Called T) (h : op.run ⟨T, luck⟩ = (.ok (), t)) :
    LinkCounts t.fs ↔ ¬ op.Slips T := by
  constructor
  · intro hLC hslip
    cases op with
    | rename a =>
      obtain ⟨ho, r, hr, hk⟩ := hslip
      obtain ⟨⟨T', luck'⟩, rfl, h'⟩ := rename_ok h
      exact renameLocked_slips hT hcall ho hr hk h' hLC
    | create | mkdir | symlink | link | unlink | rmdir => exact hslip
  · intro hslip
    exact (Op.right hT hcall hslip h).toLinkCounts

/-- Runs of operations that succeed and do not replace a directory within one directory. -/
inductive Reaches (T : Tree) : Tree → Prop
  | start : Reaches T T
  | step {U : Tree} {t : Ns} (op : Op) (luck : Call → List (Option Errno)) (h : Reaches T U)
      (hcall : op.Called U) (hslip : ¬ op.Slips U) (hrun : op.run ⟨U, luck⟩ = (.ok (), t)) :
      Reaches T t.fs

/-- **The tree, over whole runs.**  From a tree that is as cosmofs writes it, every such run reaches
one: every entry names an inode of its type, a directory has at most one name and the root none,
the vnodes are written through, and the stored link counts are right. -/
theorem tree_right_run {U : Tree} (hT : Right T) (h : Reaches T U) : Right U := by
  induction h with
  | start => exact hT
  | step op luck _ hcall hslip hrun ih => exact Op.right ih hcall hslip hrun

/-- A root directory with two empty directories, `a` and `b`. -/
def twoDirs : Tree where
  version := 15
  keyRoot := 0
  nextIno := 4
  dirs := fun d =>
    if d = 1 then [[.head ⟨[97], 2, 2⟩, .head ⟨[98], 3, 2⟩, .free]] else []
  stored := fun i =>
    if i = 1 then some ⟨.dir, 4, 1⟩ else if i = 2 then some ⟨.dir, 2, 1⟩
    else if i = 3 then some ⟨.dir, 2, 1⟩ else none
  cached := fun _ => none
  inClone := false
  orphans := []
  orphanCap := 8
  failed := none

theorem twoDirs_entries (d : Nat) :
    entriesAt twoDirs d = if d = 1 then [⟨[97], 2, 2⟩, ⟨[98], 3, 2⟩] else [] := by
  by_cases h : d = 1
  · subst h
    decide
  · simp [entriesAt, twoDirs, h, entriesOf]

theorem twoDirs_names (i : Nat) : names twoDirs i = if i = 2 ∨ i = 3 then 1 else 0 := by
  have hr : twoDirs.nextIno = 4 := rfl
  simp only [names, hr, Finset.sum_range_succ, Finset.sum_range_zero, twoDirs_entries]
  by_cases h2 : i = 2
  · subst h2
    decide
  · by_cases h3 : i = 3
    · subst h3
      decide
    · have h2' : ¬ 2 = i := fun hx => h2 hx.symm
      have h3' : ¬ 3 = i := fun hx => h3 hx.symm
      simp [h2, h3, h2', h3']

theorem twoDirs_stored {n : Node} (h : twoDirs.stored i = some n) :
    (i = 1 ∧ n = ⟨.dir, 4, 1⟩) ∨ (i = 2 ∧ n = ⟨.dir, 2, 1⟩) ∨ (i = 3 ∧ n = ⟨.dir, 2, 1⟩) := by
  simp only [twoDirs] at h
  split at h
  · exact Or.inl ⟨‹_›, (Option.some.inj h).symm⟩
  · split at h
    · exact Or.inr (Or.inl ⟨‹_›, (Option.some.inj h).symm⟩)
    · split at h
      · exact Or.inr (Or.inr ⟨‹_›, (Option.some.inj h).symm⟩)
      · cases h

theorem twoDirs_right : Right twoDirs := by
  refine ⟨⟨rfl, fun i n h => absurd h (by simp [twoDirs]), by decide,
    ?_, ?_, ?_, ?_, ?_, ?_⟩, ?_, ?_⟩
  · intro i hi
    have h1 : ¬ i = 1 := by
      have : 4 ≤ i := hi
      omega
    exact ⟨by simp [twoDirs, h1], rfl⟩
  · intro d b hb e he
    by_cases hd : d = 1
    · obtain rfl : b = [.head ⟨[97], 2, 2⟩, .head ⟨[98], 3, 2⟩, .free] := by
        simpa [twoDirs, hd] using hb
      obtain rfl | rfl : e = ⟨[97], 2, 2⟩ ∨ e = ⟨[98], 3, 2⟩ := by simpa using he
      · decide
      · decide
    · exact absurd hb (by simp [twoDirs, hd])
  · intro d e he
    rw [twoDirs_entries] at he
    split at he
    · obtain rfl | rfl : e = ⟨[97], 2, 2⟩ ∨ e = ⟨[98], 3, 2⟩ := by simpa using he
      · exact ⟨by decide, ⟨.dir, 2, 1⟩, rfl, rfl⟩
      · exact ⟨by decide, ⟨.dir, 2, 1⟩, rfl, rfl⟩
    · cases he
  · intro i n h
    rcases twoDirs_stored h with ⟨_, rfl⟩ | ⟨_, rfl⟩ | ⟨_, rfl⟩ <;> decide
  · intro i n _ _ _
    rw [twoDirs_names]
    split <;> omega
  · exact ⟨⟨⟨.dir, 4, 1⟩, rfl, rfl⟩, by rw [twoDirs_names]; rfl⟩
  · intro i n _ h hk
    rcases twoDirs_stored h with ⟨_, rfl⟩ | ⟨_, rfl⟩ | ⟨_, rfl⟩ <;> exact absurd rfl hk
  · intro i n _ h _ _
    rcases twoDirs_stored h with ⟨rfl, rfl⟩ | ⟨rfl, rfl⟩ | ⟨rfl, rfl⟩ <;> decide

theorem twoDirs_isDir : IsDir twoDirs 1 := ⟨Or.inl rfl, ⟨.dir, 4, 1⟩, rfl, rfl⟩

def allWell : Call → List (Option Errno) := fun _ => []

/-- One directory renamed over the other: the root has one subdirectory and keeps the count
of two. -/
theorem linkCounts_lost :
    Right twoDirs ∧ (Op.rename aOverB).Called twoDirs ∧
    ((Op.rename aOverB).run ⟨twoDirs, allWell⟩).1 = .ok () ∧
    subdirs ((Op.rename aOverB).run ⟨twoDirs, allWell⟩).2.fs 1 = 1 ∧
    ((Op.rename aOverB).run ⟨twoDirs, allWell⟩).2.fs.stored 1 = some ⟨.dir, 4, 1⟩ := by
  refine ⟨twoDirs_right, ⟨twoDirs_isDir, twoDirs_isDir, ?_⟩, rfl, by decide, by decide⟩
  intro r hr
  obtain rfl : 3 = r := by simpa [aOverB] using hr
  exact ⟨⟨2, by decide⟩, by decide, by decide⟩

/-- A file created beside the two directories. -/
theorem linkCounts_create :
    Right twoDirs ∧ (Op.create 1 [99]).Called twoDirs ∧
    LinkCounts ((Op.create 1 [99]).run ⟨twoDirs, allWell⟩).2.fs := by
  refine ⟨twoDirs_right, twoDirs_isDir, ?_⟩
  exact (linkCounts_iff twoDirs (.create 1 [99]) allWell _ twoDirs_right twoDirs_isDir
    (Prod.ext rfl rfl)).mpr id

theorem tree_right_run_create : Right ((Op.create 1 [99]).run ⟨twoDirs, allWell⟩).2.fs :=
  tree_right_run twoDirs_right
    (.step (.create 1 [99]) allWell .start twoDirs_isDir id (Prod.ext rfl rfl))

end CosmoOS.Cosmofs.Dir
