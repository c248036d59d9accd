import CosmoOS.Cosmofs.ResilverCopy

/-!
# A window of the resilver

What a window does to the copies of a pool, block by block: the target's cursor moves on
(`rsBegin`), a block is read and written to the target (`rsCopy`), and every other copy is at most
taken out.

The block is to come from another copy, but `pool_read` takes any copy that can be read, the target
too.  A RESILVERING target is never read.  An ONLINE one is not read in a region that is marked; but
the mark of a region goes before the region's last block is read, and then the target is read if its
number is the least (`readFrom_others` has the two cases in which it is not).
-/

namespace CosmoOS.Cosmofs

open CosmoOS.Storage List

variable {β : Type} {p q : Spool β} {x : β} {v c blk rb : Nat} {k : PoolCopy β}

/-! ## Addresses and copy numbers -/

theorem nblocks_lt (m : SpoolMember β) : m.nblocks < 2 ^ 56 := by
  have hcov := m.covers
  have hlt := m.regionBlocks_lt
  have hbits : poolDirtyBits = 7552 := rfl
  rw [hbits] at hcov
  omega

theorem memberOf_dvaOf {b : Nat} (hv : v < p.nmembers)
    (hb : b < (p.m v).nblocks) : p.memberOf (dvaOf v b) = some (v, b) := by
  have hvdev : dvaOf v b >>> 56 = v := dvaVdev_dvaOf
  have hblk : dvaOf v b &&& 0x00FFFFFFFFFFFFFF = b :=
    dvaBlk_dvaOf (lt_trans hb (nblocks_lt (p.m v)))
  rw [Spool.memberOf]
  simp only [hvdev, hblk]
  exact if_pos ⟨hv, hb⟩

theorem range_split {c n : Nat} (h : c < n) :
    ∃ as bs, List.range n = as ++ c :: bs ∧ (List.range n).filter (fun e => e ≠ c) = as ++ bs ∧
      ∀ e ∈ bs, c < e := by
  obtain ⟨as, bs, hsplit⟩ := append_of_mem (mem_range.mpr h)
  have hpair : (as ++ c :: bs).Pairwise (· < ·) := hsplit ▸ pairwise_lt_range
  obtain ⟨-, htail, hcross⟩ := pairwise_append.mp hpair
  have hlt : ∀ e ∈ as, e < c := fun e he => hcross e he c mem_cons_self
  have hgt : ∀ e ∈ bs, c < e := (pairwise_cons.mp htail).1
  refine ⟨as, bs, hsplit, ?_, hgt⟩
  rw [hsplit, filter_append, filter_cons_of_neg (by simp)]
  rw [filter_eq_self.mpr, filter_eq_self.mpr]
  · intro e he
    simpa using (hgt e he).ne'
  · intro e he
    simpa using (hlt e he).ne

/-- What keeps a read of the target's block off the target: its region is marked, or no copy
after it can be read. -/
def OffTarget (p : Spool β) (v c blk : Nat) : Prop :=
  (p.m v).readableAt (p.copy v c) blk = false ∨
    ∀ e < (p.m v).ncopies, c < e → (p.copy v e).readable = false

/-- The copies are read as if the target were none of them. -/
theorem readFrom_others (hc : c < (p.m v).ncopies) (hoff : OffTarget p v c blk)
    (hok : (p.readFrom v blk ((List.range (p.m v).ncopies).filter fun e => e ≠ c) 0).1 = .ok x) :
    p.readFrom v blk (List.range (p.m v).ncopies) 0 =
      p.readFrom v blk ((List.range (p.m v).ncopies).filter fun e => e ≠ c) 0 := by
  obtain ⟨as, bs, hall, hothers, hgt⟩ := range_split hc
  have hmem : ∀ e ∈ bs, e < (p.m v).ncopies := fun e he =>
    mem_range.mp (hall ▸ mem_append.mpr (.inr (mem_cons_of_mem c he)))
  rw [hothers] at hok
  rw [hothers, hall]
  refine Spool.readFrom_without (hall ▸ nodup_range)
    (hoff.imp id fun hlast => ⟨fun e he => ?_, x, hok⟩)
  rw [SpoolMember.readableAt, hlast e (hmem e he) (hgt e he), Bool.false_and]

/-! ## What is due -/

/-- What a block of a member has to hold: nothing if it is not in use or was lost, else the
data of the last successful write. -/
def RsFs.Due (r : RsFs β) (v b : Nat) (x : β) : Prop :=
  r.live v b = true → r.lost v b = false → x = r.last v b

/-- The resilver writes nothing of its own and puts nothing in use. -/
structure Frame (r r' : RsFs β) : Prop where
  mem : r'.mem = r.mem
  bitmap : r'.bitmap = r.bitmap
  last : r'.last = r.last
  live : r'.live = r.live
  lost : ∀ v b, r.lost v b = true → r'.lost v b = true

namespace Frame

variable {r r' r'' : RsFs β}

theorem refl (r : RsFs β) : Frame r r := ⟨rfl, rfl, rfl, rfl, fun _ _ => id⟩

theorem trans (h : Frame r r') (g : Frame r' r'') : Frame r r'' where
  mem := g.mem.trans h.mem
  bitmap := g.bitmap.trans h.bitmap
  last := g.last.trans h.last
  live := g.live.trans h.live
  lost v b hl := g.lost v b (h.lost v b hl)

/-- What is drawn or counted, and the pool, are no part of it. -/
theorem kept {q : Spool β} {cs : List Bool} {e d : Nat} :
    Frame r { r with p := q, coins := cs, rsRegionErrors := e, rsDisagree := d } :=
  ⟨rfl, rfl, rfl, rfl, fun _ _ => id⟩

theorem due (h : Frame r r') {b : Nat} (hx : r.Due v b x) : r'.Due v b x := by
  intro hlive hlost
  rw [h.last]
  refine hx (h.live ▸ hlive) ?_
  by_contra hl
  rw [Bool.not_eq_false] at hl
  exact absurd ((h.lost v b hl).symm.trans hlost) (by decide)

end Frame

variable {r r' r'' : RsFs β}

/-! ## A block is copied -/

theorem RsFs.coin_eq {b : Bool} (h : r.coin = (b, r')) : ∃ cs, r' = { r with coins := cs } := by
  rw [coin] at h
  split at h
  · cases h
    exact ⟨r.coins, rfl⟩
  · cases h
    exact ⟨_, rfl⟩

/-- Reading the sources again takes copies out at most, and not the first of them. -/
theorem rsCheckSources_spec [DecidableEq β] (h : r.rsCheckSources v c blk x = r') :
    Frame r r' ∧ r'.rsRegionErrors = r.rsRegionErrors ∧ r'.lost = r.lost ∧ Lessened r.p r'.p ∧
      ((∃ e < (r.p.m v).ncopies, e ≠ c ∧ (r.p.m v).readableAt (r.p.copy v e) blk = true) →
        ∃ e < (r.p.m v).ncopies, e ≠ c ∧ (r'.p.copy v e).readable = true) := by
  -- the copies that can be read, of which at most the second changes
  have hreadable : ∀ e, (r.p.m v).readableAt (r.p.copy v e) blk = true →
      (r.p.copy v e).readable = true := by
    intro e he
    rw [SpoolMember.readableAt, Bool.and_eq_true] at he
    exact he.1
  have hmem : ∀ e, e ∈ ((List.range (r.p.m v).ncopies).filter
      fun k => k ≠ c ∧ (r.p.m v).readableAt (r.p.copy v k) blk) ↔
      e < (r.p.m v).ncopies ∧ e ≠ c ∧ (r.p.m v).readableAt (r.p.copy v e) blk = true := by
    simp
  have hnd : ((List.range (r.p.m v).ncopies).filter
      fun k => k ≠ c ∧ (r.p.m v).readableAt (r.p.copy v k) blk).Nodup := nodup_range.filter _
  rw [RsFs.rsCheckSources] at h
  split at h
  · rename_i first k rest hlist
    rw [hlist] at hmem hnd
    obtain ⟨hf, hfc, hfr⟩ := (hmem first).mp (by simp)
    have hne : first ≠ k := fun heq => (nodup_cons.mp hnd).1 (heq ▸ by simp)
    have hfirst := hreadable first hfr
    rcases hcoin : r.coin with ⟨b, r₁⟩
    obtain ⟨cs, rfl⟩ := RsFs.coin_eq hcoin
    simp only [hcoin] at h
    cases b with
    | true =>
      subst h
      exact ⟨.kept, rfl, rfl, .refl _, fun _ => ⟨first, hf, hfc, hfirst⟩⟩
    | false =>
      rcases hread : r.p.readCopy (dvaOf v blk) k with ⟨res, q⟩
      obtain ⟨hless, hkeep⟩ := Spool.readCopy_lessened hread
      rw [← hkeep v first hne] at hfirst
      simp only [hread] at h
      cases res with
      | ok y | error rc =>
        subst h
        exact ⟨.kept, rfl, rfl, hless, fun _ => ⟨first, hf, hfc, hfirst⟩⟩
  · subst h
    refine ⟨.refl r, rfl, rfl, .refl _, ?_⟩
    rintro ⟨e, he, hec, hre⟩
    exact ⟨e, he, hec, hreadable e hre⟩

/-- The write to the target.  If it fails, and the target stays ONLINE, the region is marked:
there is another copy to read. -/
theorem writeCopy_copied {q' : Spool β} {rc : Int} {due : Nat → β → Prop} (hless : Lessened p q)
    (hv : v < p.nmembers) (hc : c < (p.m v).ncopies) (hblk : blk < (p.m v).nblocks) (hx : due blk x)
    (hsrc : (∀ y, due blk y) ∨ ∃ e < (p.m v).ncopies, e ≠ c ∧ (q.copy v e).readable = true)
    (hq : q.writeCopy (dvaOf v blk) c x = (rc, q')) :
    Shape p q' ∧
      (∀ w e, (w, e) ≠ (v, c) → Demoted (p.m w).recent (p.copy w e) (q'.copy w e)) ∧
      Copied blk (blk / (p.m v).regionBlocks) (p.m v).recent due (p.copy v c) (q'.copy v c) := by
  have hcq : c < (q.m v).ncopies := hless.ncopies v ▸ hc
  have hmq : q.memberOf (dvaOf v blk) = some (v, blk) :=
    memberOf_dvaOf (hless.nmembers ▸ hv) (hless.nblocks v ▸ hblk)
  have hregion : (q.m v).region blk = blk / (p.m v).regionBlocks := by
    rw [hless.region v]
    exact ((p.m v).region_eq hblk).1
  rcases Spool.writeCopy_cases hq with ⟨rfl, -, hw⟩ | ⟨v', blk', hm, -, hd, hcase⟩
  · exact ⟨hless.toShape, fun w e _ => hless.copies w e,
      .left (hless.copies v c) (.inl (hw v blk hmq hcq))⟩
  · obtain ⟨rfl, rfl⟩ := Prod.mk.inj (Option.some.inj (hmq.symm.trans hm))
    refine ⟨hless.toShape.trans hd.toShape, fun w e hne => ?_, ?_⟩
    · rw [hd.copy w e hne]
      exact hless.copies w e
    rcases hcase with ⟨-, hput⟩ | ⟨-, k', hdem, hk⟩
    · rw [hput]
      exact .took (hless.copies v c) hx
    · rw [hless.recent, hregion] at hdem
      rw [hregion] at hk
      rcases hk with ⟨hk, hno⟩ | hk
      · rw [hk]
        refine .refused (hless.copies v c) hdem fun hs => ?_
        rcases hsrc with hall | ⟨e, he, hec, hre⟩
        · exact hall
        · have := hno hs e (hless.ncopies v ▸ he) hec
          exact absurd (hre.symm.trans this) (by decide)
      · rw [hk]
        exact .hole (hless.copies v c) hdem

/-- What copying a block comes to: the target is served, the others are at most taken out. -/
structure Served (v c blk : Nat) (r r' : RsFs β) : Prop where
  frame : Frame r r'
  errors : r'.rsRegionErrors = r.rsRegionErrors
  shape : Shape r.p r'.p
  others : ∀ w e, (w, e) ≠ (v, c) → Demoted (r.p.m w).recent (r.p.copy w e) (r'.p.copy w e)
  target : Copied blk (blk / (r.p.m v).regionBlocks) (r.p.m v).recent (r'.Due v) (r.p.copy v c)
    (r'.p.copy v c)

/-- **A block is copied**: from another copy, or it is lost. -/
theorem rsCopy_served [DecidableEq β] (hv : v < r.p.nmembers) (hc : c < (r.p.m v).ncopies)
    (hblk : blk < (r.p.m v).nblocks) (hoff : OffTarget r.p v c blk)
    (hother : ∀ e < (r.p.m v).ncopies, (r.p.m v).readableAt (r.p.copy v e) blk = true → e ≠ c →
      ∀ d, (r.p.copy v e).dev = some d → r.Due v blk (d blk)) :
    Served v c blk r (r.rsCopy v c blk) := by
  have hm := memberOf_dvaOf hv hblk
  rw [RsFs.rsCopy]
  generalize hlost : Function.update r.lost v
    (Function.update (r.lost v) blk (r.lost v blk || RsFs.othersFail r.p v c blk)) = lost
  have hmono : ∀ w b, r.lost w b = true → lost w b = true := by
    intro w b hl
    rw [← hlost]
    by_cases hw : w = v
    · subst hw
      by_cases hb : b = blk
      · subst hb
        simp [hl]
      · simp [hb, hl]
    · rw [Function.update_of_ne hw]
      exact hl
  have hself : lost v blk = (r.lost v blk || RsFs.othersFail r.p v c blk) := by
    rw [← hlost]
    simp
  rcases hq : r.p.readFrom v blk (List.range (r.p.m v).ncopies) 0 with ⟨res, p₁⟩
  obtain ⟨hless, hok, -⟩ := Spool.readFrom_spec nodup_range hq
  -- the read: of another copy, unless none of them can be read
  have hread : lost v blk = true ∨ ∃ x, res = .ok x ∧ r.Due v blk x ∧
      ∃ e < (r.p.m v).ncopies, e ≠ c ∧ (r.p.m v).readableAt (p₁.copy v e) blk = true := by
    rcases hf : r.p.readFrom v blk ((List.range (r.p.m v).ncopies).filter fun e => e ≠ c) 0
      with ⟨res', q⟩
    cases res' with
    | error rc =>
      refine .inl ?_
      rw [hself, RsFs.othersFail, hf]
      simp
    | ok y =>
      have hothers := readFrom_others hc hoff (by rw [hf])
      rw [hf, hq] at hothers
      cases hothers
      obtain ⟨-, hoky, -⟩ := Spool.readFrom_spec (nodup_range.filter _) hf
      obtain ⟨e, he, ⟨d, hd, hdx⟩, hre, hsame⟩ := hoky y rfl
      rw [mem_filter, mem_range, decide_eq_true_eq] at he
      refine .inr ⟨y, rfl, hdx ▸ hother e he.1 hre he.2 d hd, e, he.1, he.2, ?_⟩
      rw [hsame]
      exact hre
  rw [Spool.read, hm]
  dsimp only
  rw [hq]
  cases res with
  | error rc =>
    have hl : lost v blk = true := hread.resolve_right (by rintro ⟨x, hx, -⟩; cases hx)
    refine ⟨⟨rfl, rfl, rfl, rfl, hmono⟩, rfl, hless.toShape, fun w e _ => hless.copies w e, ?_⟩
    exact .left (hless.copies v c) (.inr fun y _ hnl => absurd (hl.symm.trans hnl) (by decide))
  | ok x =>
    dsimp only
    generalize hr₂ : RsFs.rsCheckSources { r with p := p₁, lost := lost } v c blk x = r₂
    obtain ⟨hframe, herrs, hlost₂, hless₂, hkeep⟩ := rsCheckSources_spec hr₂
    have hfr : Frame r { r with p := p₁, lost := lost } := ⟨rfl, rfl, rfl, rfl, hmono⟩
    have hlostdue : lost v blk = true → ∀ y, r₂.Due v blk y := by
      intro hl y _ hnl
      rw [hlost₂] at hnl
      exact absurd (hl.symm.trans hnl) (by decide)
    have hx : r₂.Due v blk x := by
      rcases hread with hl | ⟨y, hy, hdue, -⟩
      · exact hlostdue hl x
      · cases hy
        exact (hfr.trans hframe).due hdue
    obtain ⟨hshape, hothers, htarget⟩ := writeCopy_copied (hless.trans hless₂) hv hc hblk hx (by
        rcases hread with hl | ⟨-, -, -, e, he, hec, hre⟩
        · exact .inl (hlostdue hl)
        · obtain ⟨e', he', hec', hre'⟩ := hkeep ⟨e, by rw [hless.ncopies]; exact he, hec, by
            rw [hless.readableAt]; exact hre⟩
          exact .inr ⟨e', by rw [← hless.ncopies]; exact he', hec', hre'⟩) rfl
    exact ⟨(hfr.trans hframe).trans .kept, herrs, hshape, hothers, htarget⟩

/-! ## A turn of the walk -/

theorem regionClear_eq {r : Nat} (hv : v < p.nmembers) (hc : c < (p.m v).ncopies)
    (hr : r < poolDirtyBits) :
    p.regionClear v c r = p.modifyCopy v c fun k => { k with dirty := k.dirty.erase r } :=
  if_pos ⟨hv, hc, hr⟩

theorem modifyCopy_modifyCopy (p : Spool β) (v c : Nat) (f g : PoolCopy β → PoolCopy β) :
    (p.modifyCopy v c f).modifyCopy v c g = p.modifyCopy v c fun k => g (f k) := by
  simp only [Spool.modifyCopy, Spool.modifyMember, SpoolMember.modifyCopy, Function.update_self,
    Function.update_idem]

section Begin

variable (hv : v < r.p.nmembers) (hc : c < (r.p.m v).ncopies) (hk : r.p.copy v c = k)
  (hrb : (r.p.m v).regionBlocks = rb) (hblk : k.cursor < (r.p.m v).nblocks)

include hv hc hk hrb hblk

theorem rsBegin_online (hs : k.state = .online) {errors : Nat}
    (he : errors = if k.cursor % rb = 0 then k.writeErrors else r.rsRegionErrors) :
    r.rsBegin v c =
      { r with
        rsRegionErrors := errors
        p := r.p.modifyCopy v c fun k' =>
          { k' with
            cursor := k'.cursor + 1
            dirty :=
              if ((k.cursor + 1) % rb = 0 ∨ (r.mem v).nblocks ≤ k.cursor + 1) ∧
                  k.writeErrors % 2 ^ 32 = errors % 2 ^ 32 then k'.dirty.erase (k.cursor / rb)
              else k'.dirty } } := by
  obtain ⟨-, hbit⟩ := (r.p.m v).region_eq hblk
  rw [hrb] at hbit
  have hd := Differs.modifyCopy r.p v c fun k => { k with cursor := k.cursor + 1 }
  have hclear := regionClear_eq (hd.nmembers.symm ▸ hv) (by rwa [hd.ncopies v]) hbit
  rw [modifyCopy_modifyCopy] at hclear
  simp only [RsFs.rsBegin, RsFs.modifyCopy, hk, hrb, hs, he]
  by_cases hin : k.cursor % rb = 0
  · simp only [hin, not_true, ne_eq, not_false_eq_true, and_true, true_and, if_true]
    split
    · rw [hclear]
    · rfl
  · simp only [hin, ne_eq, not_false_eq_true, not_true, and_true, true_and, if_false, false_and]
    split
    · rw [hclear]
    · rfl

theorem rsBegin_rebuild (hs : k.state = .resilvering) :
    r.rsBegin v c =
      { r with
        p := r.p.modifyCopy v c fun k' =>
          { k' with
            cursor := k'.cursor + 1
            dirty := if k.cursor % rb = 0 ∧ k.whole = false then k'.dirty.erase (k.cursor / rb)
              else k'.dirty } } := by
  obtain ⟨-, hbit⟩ := (r.p.m v).region_eq hblk
  rw [hrb] at hbit
  have hon : ¬ k.state = .online := by
    rw [hs]
    decide
  simp only [RsFs.rsBegin, RsFs.modifyCopy, hk, hrb, hon, ne_eq, Decidable.not_not,
    Bool.not_eq_true, and_false, if_false, false_and]
  split
  · rw [regionClear_eq hv hc hbit, modifyCopy_modifyCopy]
  · rfl

end Begin

/-- The resilver's invariant: every copy is tracked, and what is in use is allocated or, in
member 0, below `first_usable`. -/
structure Rebuilding (r : RsFs β) : Prop where
  copies : ∀ v < r.p.nmembers, ∀ c < (r.p.m v).ncopies, Tracked (r.p.m v).regionBlocks
    (r.mem v).firstUsable r.rsRegionErrors (r.Due v) (r.p.copy v c)
  size : ∀ v < r.p.nmembers, (r.mem v).nblocks ≤ (r.p.m v).nblocks
  low : ∀ v < r.p.nmembers, (r.mem v).firstUsable ≤ (r.p.m v).nblocks
  used : ∀ v b, r.live v b = true → b < (r.mem v).nblocks ∧
    (r.bitmap v b = true ∨ b < (r.mem v).firstUsable) ∧ (b < (r.mem v).firstUsable → v = 0)

/-- The invariant during a walk with target copy `c` of member `v`.  If the target is ONLINE,
no copy after it can be read, no other walk is inside a region, and the failures since the
target's region was entered are fewer than the counter has values. -/
structure Walking (r : RsFs β) (v c : Nat) : Prop where
  rebuilding : Rebuilding r
  member : v < r.p.nmembers
  copy : c < (r.p.m v).ncopies
  last : (r.p.copy v c).state = .online → ∀ e < (r.p.m v).ncopies, c < e →
    (r.p.copy v e).readable = false
  others : (r.p.copy v c).state = .online → ∀ w < r.p.nmembers, ∀ e < (r.p.m w).ncopies,
    (w, e) ≠ (v, c) → (r.p.copy w e).state = .online →
      (r.p.copy w e).cursor % (r.p.m w).regionBlocks = 0
  count : (r.p.copy v c).state = .online →
    (r.p.copy v c).cursor % (r.p.m v).regionBlocks ≠ 0 →
      (r.p.copy v c).writeErrors +
        ((r.p.m v).regionBlocks - (r.p.copy v c).cursor % (r.p.m v).regionBlocks) <
          r.rsRegionErrors + 2 ^ 32

theorem Rebuilding.due_end (h : Rebuilding r) {b : Nat} (hb : (r.mem v).nblocks ≤ b) (y : β) :
    r.Due v b y := by
  intro hlive
  have := (h.used v b hlive).1
  omega

abbrev RsFs.Tracks (r : RsFs β) (v : Nat) (k : PoolCopy β) : Prop :=
  Tracked (r.p.m v).regionBlocks (r.mem v).firstUsable r.rsRegionErrors (r.Due v) k

/-- Members of the same size: the copies, and what is in use, have to be seen to. -/
theorem Rebuilding.next (h : Rebuilding r) (hn : r'.p.nmembers = r.p.nmembers)
    (hb : ∀ w, (r'.p.m w).nblocks = (r.p.m w).nblocks) (hmem : r'.mem = r.mem)
    (hused : ∀ w b, r'.live w b = true → b < (r.mem w).nblocks ∧
      (r'.bitmap w b = true ∨ b < (r.mem w).firstUsable) ∧ (b < (r.mem w).firstUsable → w = 0))
    (hc : r'.p.Every r'.Tracks) : Rebuilding r' where
  copies := hc
  size v hv := by
    rw [hmem, hb]
    exact h.size v (hn ▸ hv)
  low v hv := by
    rw [hmem, hb]
    exact h.low v (hn ▸ hv)
  used v b hl := by
    rw [hmem]
    exact hused v b hl

/-- Within the frame only the copies have. -/
theorem Rebuilding.framed (h : Rebuilding r) (hf : Frame r r') (hs : Sized r.p r'.p)
    (hc : ∀ w < r.p.nmembers, ∀ e < (r.p.m w).ncopies, Tracked (r.p.m w).regionBlocks
      (r.mem w).firstUsable r'.rsRegionErrors (r'.Due w) (r'.p.copy w e)) : Rebuilding r' := by
  refine h.next hs.nmembers hs.nblocks hf.mem (fun w b hl => ?_) fun w hw e he => ?_
  · rw [hf.bitmap]
    exact h.used w b (hf.live ▸ hl)
  · rw [RsFs.Tracks, hs.regionBlocks, hf.mem]
    exact hc w (hs.nmembers ▸ hw) e (hs.ncopies w ▸ he)

/-- A turn that leaves the target tracked, and the other copies as they were or out, goes on
with the walk. -/
theorem Walking.after (h : Walking r v c) (hframe : Frame r r') (hshape : Shape r.p r'.p)
    (hothers : ∀ w e, (w, e) ≠ (v, c) → Demoted (r.p.m w).recent (r.p.copy w e) (r'.p.copy w e))
    (herr : r'.rsRegionErrors = r.rsRegionErrors ∨ (r.p.copy v c).state = .online)
    (htarget : Tracked (r.p.m v).regionBlocks (r.mem v).firstUsable r'.rsRegionErrors (r'.Due v)
      (r'.p.copy v c)) (hstate : (r'.p.copy v c).state = .online → (r.p.copy v c).state = .online)
    (hcount : (r'.p.copy v c).state = .online →
      (r'.p.copy v c).cursor % (r.p.m v).regionBlocks ≠ 0 →
        (r'.p.copy v c).writeErrors +
          ((r.p.m v).regionBlocks - (r'.p.copy v c).cursor % (r.p.m v).regionBlocks) <
            r'.rsRegionErrors + 2 ^ 32) : Walking r' v c := by
  refine ⟨h.rebuilding.framed hframe hshape.toSized fun w hw e he => ?_, ?_, ?_, ?_, ?_, ?_⟩
  · by_cases hne : (w, e) = (v, c)
    · cases hne
      exact htarget
    · have hdem := hothers w e hne
      have hold := (h.rebuilding.copies w hw e he).mono fun b x hx => hframe.due hx
      rcases herr with heq | hon
      · rw [heq]
        exact hold.demoted hdem
      · exact (hold.recount (h.others hon w hw e he hne)).demoted hdem
  · rw [hshape.nmembers]
    exact h.member
  · rw [hshape.ncopies]
    exact h.copy
  · intro hs e he hce
    rw [hshape.ncopies] at he
    have hne : (v, e) ≠ (v, c) := fun heq => absurd (Prod.mk.inj heq).2 hce.ne'
    by_contra hre
    have := (hothers v e hne).readable_of (by simpa using hre)
    rw [h.last (hstate hs) e he hce] at this
    cases this
  · intro hs w hw e he hne hon
    rw [hshape.nmembers] at hw
    rw [hshape.ncopies] at he
    have hdem := hothers w e hne
    rw [hshape.regionBlocks, hdem.cursor]
    exact h.others (hstate hs) w hw e he hne (hdem.online_of hon)
  · rw [hshape.regionBlocks]
    exact hcount

/-- What an ONLINE copy is read for is due. -/
theorem Rebuilding.read (h : Rebuilding r) {e : Nat} {d : Nat → β} (hv : v < r.p.nmembers)
    (he : e < (r.p.m v).ncopies) (hblk : blk < (r.p.m v).nblocks)
    (hre : (r.p.m v).readableAt (r.p.copy v e) blk = true) (hd : (r.p.copy v e).dev = some d) :
    r.Due v blk (d blk) := by
  rw [SpoolMember.readableAt, PoolCopy.readable, (r.p.m v).hole_eq _ hblk,
    ((r.p.m v).region_eq hblk).1] at hre
  simp only [Bool.and_eq_true, decide_eq_true_eq, Bool.not_eq_true',
    decide_eq_false_iff_not] at hre
  exact (h.copies v hv e he).online hre.1.2 d hd _ hre.2

theorem Walking.with_coins (h : Walking r v c) (cs : List Bool) :
    Walking { r with coins := cs } v c :=
  { h with rebuilding := { h.rebuilding with } }

/-- A block of the walk begun, but not yet copied: the target is tracked apart from it. -/
structure Begun (r r' : RsFs β) (v c : Nat) : Prop where
  frame : Frame r r'
  differs : Differs r.p r'.p v c
  errors : r'.rsRegionErrors = r.rsRegionErrors ∨ (r.p.copy v c).state = .online
  target : Tracked (r.p.m v).regionBlocks (r.mem v).firstUsable r'.rsRegionErrors
    (fun b y => b ≠ (r.p.copy v c).cursor → r.Due v b y) (r'.p.copy v c)
  cursor : (r'.p.copy v c).cursor = (r.p.copy v c).cursor + 1
  state : (r'.p.copy v c).state = (r.p.copy v c).state
  count : (r.p.copy v c).state = .online → (r'.p.copy v c).writeErrors +
    ((r.p.m v).regionBlocks - (r.p.copy v c).cursor % (r.p.m v).regionBlocks) <
      r'.rsRegionErrors + 2 ^ 32

theorem Walking.begun (h : Walking r v c) (hlt : (r.p.copy v c).cursor < (r.mem v).nblocks)
    (hw : (r.p.copy v c).state = .online ∨ (r.p.copy v c).state = .resilvering) :
    Begun r (r.rsBegin v c) v c := by
  have hblk := lt_of_lt_of_le hlt (h.rebuilding.size v h.member)
  have hpos := (r.p.m v).regionBlocks_pos
  have htr := h.rebuilding.copies v h.member c h.copy
  rcases hw with hs | hs
  · have hcount : (r.p.copy v c).writeErrors +
        ((r.p.m v).regionBlocks - (r.p.copy v c).cursor % (r.p.m v).regionBlocks) <
          (if (r.p.copy v c).cursor % (r.p.m v).regionBlocks = 0 then (r.p.copy v c).writeErrors
            else r.rsRegionErrors) + 2 ^ 32 := by
      by_cases hin : (r.p.copy v c).cursor % (r.p.m v).regionBlocks = 0
      · have := (r.p.m v).regionBlocks_lt
        rw [if_pos hin, hin]
        omega
      · rw [if_neg hin]
        exact h.count hs hin
    rw [rsBegin_online h.member h.copy rfl rfl hblk hs rfl]
    refine ⟨.kept, .modifyCopy _ _ _ _, .inr hs, ?_, ?_, ?_, fun _ => ?_⟩
    · rw [Spool.copy_modifyCopy]
      exact htr.begin_online hpos hs rfl (lt_of_le_of_lt (Nat.le_add_right _ _) hcount)
        fun b hb y => h.rebuilding.due_end hb y
    · rw [Spool.copy_modifyCopy]
    · rw [Spool.copy_modifyCopy]
    · rw [Spool.copy_modifyCopy]
      exact hcount
  · rw [rsBegin_rebuild h.member h.copy rfl rfl hblk hs]
    refine ⟨.kept, .modifyCopy _ _ _ _, .inl rfl, ?_, ?_, ?_, fun hon => ?_⟩
    · rw [Spool.copy_modifyCopy]
      exact htr.begin_rebuild hpos hs
    · rw [Spool.copy_modifyCopy]
    · rw [Spool.copy_modifyCopy]
    · exact absurd (hs.symm.trans hon) (by decide)

/-- What one turn of the walk comes to. -/
structure Moved (r r' : RsFs β) (v c : Nat) : Prop where
  walking : Walking r' v c
  frame : Frame r r'
  shape : Shape r.p r'.p
  cursor : (r.p.copy v c).cursor < (r'.p.copy v c).cursor

theorem Walking.served (h : Walking r v c) (hb : Begun r r' v c)
    (hs : Served v c (r.p.copy v c).cursor r' r'') : Moved r r'' v c := by
  have hframe := hb.frame.trans hs.frame
  have hshape := hb.differs.toShape.trans hs.shape
  have htarget := hs.target
  rw [hb.differs.regionBlocks] at htarget
  obtain ⟨hcur, hwe, hon⟩ := htarget.walk
  rw [hb.cursor] at hcur
  rw [hb.state] at hon
  refine ⟨h.after hframe hshape (fun w e hne => ?_) ?_ ?_ hon fun hs' hin => ?_, hframe, hshape, ?_⟩
  · have := hs.others w e hne
    rwa [hb.differs.recent, hb.differs.copy w e hne] at this
  · rw [hs.errors]
    exact hb.errors
  · rw [hs.errors]
    exact (hb.target.mono fun b y hy hne => hframe.due (hy hne)).copied htarget
  · rw [hcur] at hin ⊢
    have hcount := hb.count (hon hs')
    have hmod := Nat.mod_lt (r.p.copy v c).cursor (r.p.m v).regionBlocks_pos
    rw [hs.errors, mod_succ_of_inside hin]
    omega
  · rw [hcur]
    exact Nat.lt_succ_self _

theorem Walking.passed (h : Walking r v c) (hlt : (r.p.copy v c).cursor < (r.mem v).nblocks)
    (hrb : (r.p.m v).regionBlocks = rb) (hin : (r.p.copy v c).cursor % rb = 0)
    (hmissed : ¬ r.p.regionMissed v c ((r.p.copy v c).cursor / rb) = true) :
    Moved r (r.modifyCopy v c fun k => { k with cursor := (k.cursor / rb + 1) * rb }) v c := by
  have hblk := lt_of_lt_of_le hlt (h.rebuilding.size v h.member)
  obtain ⟨-, hbit⟩ := (r.p.m v).region_eq hblk
  have hpos := (r.p.m v).regionBlocks_pos
  rw [hrb] at hbit hpos
  have hwhole : (r.p.copy v c).whole = false := by
    simp only [Spool.regionMissed, h.member, h.copy, hbit, decide_true, Bool.true_and,
      Bool.or_eq_true, not_or, Bool.not_eq_true] at hmissed
    exact hmissed.1
  have hto : ((r.p.copy v c).cursor / rb + 1) * rb % rb = 0 := Nat.mul_mod_left _ _
  have hd := Differs.modifyCopy r.p v c fun k => { k with cursor := (k.cursor / rb + 1) * rb }
  have hcopy := r.p.copy_modifyCopy v c fun k => { k with cursor := (k.cursor / rb + 1) * rb }
  have htr := h.rebuilding.copies v h.member c h.copy
  rw [hrb] at htr
  refine ⟨h.after .kept hd.toShape (fun w e hne => ?_) (.inl rfl) ?_ ?_ ?_, .kept, hd.toShape, ?_⟩
  · rw [RsFs.modifyCopy, hd.copy w e hne]
    exact .refl _ _
  · rw [RsFs.modifyCopy, hcopy, hrb]
    exact htr.pass hin hto hwhole
  · rw [RsFs.modifyCopy, hcopy]
    exact id
  · rw [RsFs.modifyCopy, hcopy, hrb]
    exact fun _ hne => absurd hto hne
  · rw [RsFs.modifyCopy, hcopy]
    rw [Nat.mul_comm]
    exact Nat.lt_mul_div_succ _ hpos

theorem Walking.fixed (h : Walking r v c) (hb : Begun r (r.rsBegin v c) v c)
    (hns : (r.p.copy v c).state ≠ .online) (hlow : (r.p.copy v c).cursor < (r.mem v).firstUsable) :
    Moved r (r.rsBegin v c) v c := by
  refine ⟨h.after hb.frame hb.differs.toShape (fun w e hne => ?_) hb.errors ?_ ?_ ?_, hb.frame,
    hb.differs.toShape, ?_⟩
  · rw [hb.differs.copy w e hne]
    exact .refl _ _
  · refine hb.target.apart (fun b y hne hy => hb.frame.due (hy hne)) (fun hon => ?_)
      fun _ d _ hf _ => ?_
    · rw [hb.state] at hon
      exact absurd hon hns
    · omega
  · rw [hb.state]
    exact id
  · intro hon
    rw [hb.state] at hon
    exact absurd hon hns
  · rw [hb.cursor]
    exact Nat.lt_succ_self _

section Walk

variable [DecidableEq β]

/-- The block at the cursor is copied from another copy. -/
theorem Walking.copying (h : Walking r v c) (hb : Begun r (r.rsBegin v c) v c)
    (hlt : (r.p.copy v c).cursor < (r.mem v).nblocks)
    (hw : (r.p.copy v c).state = .online ∨ (r.p.copy v c).state = .resilvering) :
    Served v c (r.p.copy v c).cursor (r.rsBegin v c)
      ((r.rsBegin v c).rsCopy v c (r.p.copy v c).cursor) := by
  have hblk := lt_of_lt_of_le hlt (h.rebuilding.size v h.member)
  refine rsCopy_served (hb.differs.nmembers.symm ▸ h.member) ?_ ?_ ?_ ?_
  · rw [hb.differs.ncopies]
    exact h.copy
  · rw [hb.differs.nblocks]
    exact hblk
  · rcases hw with hs | hs
    · refine .inr fun e he hce => ?_
      rw [hb.differs.copy_of_ne hce.ne']
      exact h.last hs e (by rwa [hb.differs.ncopies] at he) hce
    · refine .inl ?_
      rw [SpoolMember.readableAt, PoolCopy.readable, hb.state, hs]
      simp
  · intro e he hre hne d hd
    rw [hb.differs.ncopies] at he
    have hsame := hb.differs.copy_of_ne (w := v) hne
    rw [hb.differs.readableAt, hsame] at hre
    rw [hsame] at hd
    exact hb.frame.due (h.rebuilding.read h.member he hblk hre hd)

/-- **A turn of the walk keeps the invariant** and moves the cursor on. -/
theorem Walking.turn (h : Walking r v c) (hlt : (r.p.copy v c).cursor < (r.mem v).nblocks)
    (hw : (r.p.copy v c).state = .online ∨ (r.p.copy v c).state = .resilvering) :
    Moved r (r.rsTurn v c).2 v c := by
  have hb := h.begun hlt hw
  rw [RsFs.rsTurn]
  dsimp only
  split
  · rename_i hpass
    exact h.passed hlt rfl hpass.1 hpass.2
  · split
    · rename_i hskip
      rcases hskip with ⟨hlow, hns⟩ | ⟨hnot, hfree⟩
      · exact h.fixed hb hns hlow
      · -- nothing is due of a block that is not allocated
        refine h.served hb ⟨.refl _, rfl, .refl _, fun _ _ _ => .refl _ _, ?_⟩
        refine .left (.refl _ _) (.inr fun y => hb.frame.due fun hlive => ?_)
        rcases (h.rebuilding.used v _ hlive).2.1 with hbm | hlow
        · exact absurd hbm hfree
        · exact absurd hlow hnot
    · exact h.served hb (h.copying hb hlt hw)

/-- **A window's walk keeps the invariant**, and if it was over the cursor is at the end. -/
theorem Walking.walk (fuel : Nat) {budget : Option Nat} {ended : Bool} (h : Walking r v c)
    (hfuel : (r.mem v).nblocks < (r.p.copy v c).cursor + fuel)
    (hw : RsFs.rsWalk v c fuel budget r = (ended, r')) :
    Walking r' v c ∧ Frame r r' ∧ Shape r.p r'.p ∧
      (ended = true → (r.mem v).nblocks ≤ (r'.p.copy v c).cursor) := by
  induction fuel generalizing budget r with
  | zero =>
    cases hw
    exact ⟨h, .refl _, .refl _, fun _ => Nat.le_of_lt hfuel⟩
  | succ fuel ih =>
    -- whatever the pacing answers, the walk goes on from the turn's state
    have hgo : ∀ {r₁ : RsFs β} (b : Option Nat) (cs : List Bool), Moved r r₁ v c →
        RsFs.rsWalk v c fuel b { r₁ with coins := cs } = (ended, r') →
        Walking r' v c ∧ Frame r r' ∧ Shape r.p r'.p ∧
          (ended = true → (r.mem v).nblocks ≤ (r'.p.copy v c).cursor) := by
      intro r₁ b cs hm hw
      have hstart : (r₁.mem v).nblocks < (r₁.p.copy v c).cursor + fuel := by
        have := hm.cursor
        rw [hm.frame.mem]
        omega
      obtain ⟨hwalk, hframe, hshape, hend⟩ := ih (hm.walking.with_coins cs) hstart hw
      refine ⟨hwalk, (hm.frame.trans .kept).trans hframe, hm.shape.trans hshape, fun hover => ?_⟩
      rw [← hm.frame.mem]
      exact hend hover
    rw [RsFs.rsWalk] at hw
    split at hw
    · rename_i hover
      cases hw
      exact ⟨h, .refl _, .refl _, fun _ => Nat.le_of_not_lt hover⟩
    rename_i hlt
    split at hw
    · cases hw
      exact ⟨h, .refl _, .refl _, fun hf => absurd hf (by simp)⟩
    rename_i hgone
    rw [not_or, not_not] at hgone
    rcases hturn : r.rsTurn v c with ⟨counts, r₁⟩
    have hm := h.turn (not_not.mp hlt) hgone.1.symm
    rw [hturn] at hm hw
    cases counts with
    | false => exact hgo budget r₁.coins hm hw
    | true =>
      dsimp only at hw
      split at hw
      · cases hw
        exact ⟨hm.walking, hm.frame, hm.shape, fun hf => absurd hf (by simp)⟩
      · rcases hcoin : r₁.coin with ⟨b, r₂⟩
        obtain ⟨cs, rfl⟩ := RsFs.coin_eq hcoin
        rw [hcoin] at hw
        cases b with
        | true =>
          cases hw
          exact ⟨hm.walking.with_coins cs, hm.frame.trans .kept, hm.shape,
            fun hf => absurd hf (by simp)⟩
        | false => exact hgo _ cs hm hw

end Walk

end CosmoOS.Cosmofs
