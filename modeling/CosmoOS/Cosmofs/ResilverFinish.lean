import CosmoOS.Cosmofs.ResilverWalk

/-!
# Before and after the walk

What a window of the resilver does besides its walk.  Before it, copies whose device is gone
are taken out and spares are put in the place of copies that are out; a spare is a copy with
everything to come.  After it, when the pass is over, the target goes round again for what
failed meanwhile, or has its holes filled, or is given the blocks below `first_usable` and
becomes a copy; the copies it replaces are then detached, and those after them move down.
-/

namespace CosmoOS.Cosmofs

open CosmoOS.Storage

variable {β : Type} {r r' r'' : RsFs β} {q : Spool β} {v c : Nat} {due : Nat → β → Prop}
  {blks : List Nat} {rc : Int} {x : β}

/-! ## The pool changes -/

theorem Rebuilding.sized (h : Rebuilding r) (hs : Sized r.p q) (hc : q.Every r.Tracks) :
    Rebuilding { r with p := q } :=
  h.framed .kept hs fun w hw e he => hc w (hs.nmembers ▸ hw) e (hs.ncopies w ▸ he)

theorem Rebuilding.worn (h : Rebuilding r) (hw : Worn r.p q) : Rebuilding { r with p := q } :=
  h.sized hw.toSized (hw.every _ (Tracked.lasting _ _ _ _) h.copies)

theorem Rebuilding.differs (h : Rebuilding r) (hd : Differs r.p q v c)
    (hc : v < r.p.nmembers → c < (r.p.m v).ncopies → r.Tracks v (q.copy v c)) :
    Rebuilding { r with p := q } :=
  h.sized hd.toSized (Spool.Every.differs h.copies hd hc)

theorem Rebuilding.read_due (h : Rebuilding r) {dva blk : Nat}
    (hm : r.p.memberOf dva = some (v, blk)) (hread : r.p.read dva = (.ok x, q)) :
    r.Due v blk x := by
  obtain ⟨-, hok, -⟩ := Spool.read_spec hread
  obtain ⟨v', blk', e, d, hm', hv, hblk, he, hd, hdx, hre⟩ := hok x rfl
  obtain ⟨rfl, rfl⟩ := Prod.mk.inj (Option.some.inj (hm.symm.trans hm'))
  exact hdx ▸ h.read hv he hblk hre hd

/-! ## The superblocks -/

/-- What a copy that is not ONLINE keeps while blocks of it are written: if it is still
RESILVERING, everything but those blocks, and what is due in them. -/
structure Refilled (due : Nat → β → Prop) (blks : List Nat) (k k' : PoolCopy β) : Prop where
  kept : k'.state = .resilvering → k.state = .resilvering ∧ k'.whole = k.whole ∧
    k'.dirty = k.dirty
  filled : k'.state = .resilvering → ∀ d', k'.dev = some d' → ∃ d, k.dev = some d ∧
    ∀ b, b ∈ blks ∨ due b (d b) → due b (d' b)

theorem Refilled.of_demoted {recent : Finset Nat} {k k' : PoolCopy β} (h : Demoted recent k k') :
    Refilled due [] k k' where
  kept hs := by
    rcases h.kept_or_out with ⟨hst, hw, hd⟩ | hout
    · exact ⟨hst ▸ hs, hw, hd⟩
    · exact absurd hs hout.not_resilvering
  filled _ d' hd' := ⟨d', h.dev ▸ hd', fun b hb => hb.resolve_left (by simp)⟩

theorem Refilled.put {blk : Nat} {x : β} (k : PoolCopy β) (hx : due blk x) :
    Refilled due [blk] k (k.put blk x) where
  kept hs := ⟨hs, rfl, rfl⟩
  filled _ d' hd' := by
    obtain ⟨d, hd, rfl⟩ := Option.map_eq_some_iff.mp hd'
    refine ⟨d, hd, fun b hb => ?_⟩
    by_cases heq : b = blk
    · rw [heq, Function.update_self]
      exact hx
    · rw [Function.update_of_ne heq]
      exact hb.resolve_left fun hmem => heq (List.mem_singleton.mp hmem)

theorem Refilled.trans {as bs : List Nat} {k k' k'' : PoolCopy β} (h : Refilled due as k k')
    (g : Refilled due bs k' k'') : Refilled due (as ++ bs) k k'' where
  kept hs := by
    obtain ⟨hs', gw, gd⟩ := g.kept hs
    obtain ⟨hs'', hw, hd⟩ := h.kept hs'
    exact ⟨hs'', gw.trans hw, gd.trans hd⟩
  filled hs d'' hd'' := by
    obtain ⟨d', hd', hg⟩ := g.filled hs d'' hd''
    obtain ⟨d, hd, hf⟩ := h.filled (g.kept hs).1 d' hd'
    refine ⟨d, hd, fun b hb => hg b ?_⟩
    rw [List.mem_append, or_assoc] at hb
    rcases hb with hb | hb | hb
    · exact .inr (hf b (.inl hb))
    · exact .inl hb
    · exact .inr (hf b (.inr hb))

/-- A write to one copy, of what is due. -/
theorem Rebuilding.writeCopy (h : Rebuilding r) {dva blk : Nat}
    (hm : r.p.memberOf dva = some (v, blk)) (hx : r.Due v blk x)
    (hq : r.p.writeCopy dva c x = (rc, q)) :
    Rebuilding { r with p := q } ∧ Shape r.p q ∧
      (rc = 0 → Refilled (r.Due v) [blk] (r.p.copy v c) (q.copy v c)) := by
  have hself : ∀ v' blk', r.p.memberOf dva = some (v', blk') → v' = v ∧ blk' = blk :=
    fun v' blk' h => Prod.mk.inj (Option.some.inj (h.symm.trans hm))
  obtain ⟨hs, hevery⟩ := Spool.Every.writeCopy (Tracked.lasting _ _ _ _) h.copies hq (by
    intro v' blk' k hm' _ hk
    obtain ⟨rfl, rfl⟩ := hself v' blk' hm'
    exact hk.put (fun _ _ _ => id) hx)
  refine ⟨h.sized hs hevery, ?_⟩
  rcases Spool.writeCopy_cases hq with ⟨rfl, hrc, -⟩ | ⟨v', blk', hm', -, hd, hcase⟩
  · exact ⟨.refl _, fun h => absurd h hrc⟩
  · obtain ⟨rfl, rfl⟩ := hself v' blk' hm'
    refine ⟨hd.toShape, fun hrc => ?_⟩
    rcases hcase with ⟨-, hput⟩ | ⟨hne, -⟩
    · rw [hput]
      exact .put _ hx
    · exact absurd hrc hne

/-- **The superblocks are copied** from copies that have them. -/
theorem superblocks_spec [DecidableEq β] (heq : RsFs.superblocks v c blks r = (rc, r'))
    (h : Rebuilding r) (hv : v < r.p.nmembers) (hblks : ∀ b ∈ blks, b < (r.p.m v).nblocks) :
    ∃ q, r' = { r with p := q } ∧ Rebuilding r' ∧ Shape r.p q ∧
      (rc = 0 → Refilled (r.Due v) blks (r.p.copy v c) (q.copy v c)) := by
  induction blks generalizing r with
  | nil =>
    cases heq
    exact ⟨_, rfl, h, .refl _, fun _ => .of_demoted (.refl ∅ _)⟩
  | cons blk blks ih =>
    have hblk := hblks blk (by simp)
    rw [RsFs.superblocks] at heq
    rcases hread : r.p.read (dvaOf v blk) with ⟨res, q⟩
    obtain ⟨hless, -, herr⟩ := Spool.read_spec hread
    have hreb := h.worn hless.worn
    simp only [hread] at heq
    cases res with
    | error rc =>
      cases heq
      exact ⟨q, rfl, hreb, hless.toShape, fun hrc => absurd hrc (herr _ rfl)⟩
    | ok x =>
      have hx := h.read_due (memberOf_dvaOf hv hblk) hread
      rcases hwr : q.writeCopy (dvaOf v blk) c x with ⟨rc₁, q₁⟩
      obtain ⟨hreb₁, hshape, hfill⟩ := hreb.writeCopy
        (memberOf_dvaOf (hless.nmembers ▸ hv) (hless.nblocks v ▸ hblk)) hx hwr
      have hshape₁ := hless.toShape.trans hshape
      simp only [hwr] at heq
      split at heq
      · rename_i hrc
        cases heq
        exact ⟨q₁, rfl, hreb₁, hshape₁, fun h => absurd h hrc⟩
      · rename_i hrc
        obtain ⟨q₂, hr', hreb₂, hshape₂, hfill₂⟩ := ih heq hreb₁ (hshape₁.nmembers.symm ▸ hv)
          fun b hb => by rw [hshape₁.nblocks]; exact hblks b (by simp [hb])
        refine ⟨q₂, hr', hreb₂, hshape₁.trans hshape₂, fun hall => ?_⟩
        exact ((Refilled.of_demoted (hless.copies v c)).trans (hfill (not_not.mp hrc))).trans
          (hfill₂ hall)

/-! ## The end of a pass -/

theorem lowBlocks_spec [DecidableEq β] (heq : r.lowBlocks v c = (rc, r')) (h : Rebuilding r)
    (hv : v < r.p.nmembers) :
    ∃ q cs, r' = { r with p := q, coins := cs } ∧ Rebuilding r' ∧ Shape r.p q ∧
      (rc = 0 → ∃ blks, Refilled (r.Due v) blks (r.p.copy v c) (q.copy v c) ∧
        (v = 0 → ∀ b < (r.mem 0).firstUsable, b ∈ blks)) := by
  rw [RsFs.lowBlocks] at heq
  split at heq
  · rename_i h0
    subst h0
    obtain ⟨q, hr', hreb, hshape, hfill⟩ := superblocks_spec heq h hv fun b hb =>
      lt_of_lt_of_le (List.mem_range.mp hb) (h.low 0 hv)
    exact ⟨q, r.coins, hr', hreb, hshape, fun hrc =>
      ⟨_, hfill hrc, fun _ b hb => List.mem_range.mpr hb⟩⟩
  rename_i h0
  rcases hcoin : r.coin with ⟨b, r₁⟩
  obtain ⟨cs, rfl⟩ := RsFs.coin_eq hcoin
  rw [hcoin] at heq
  have hr : Rebuilding { r with coins := cs } := { h with }
  cases b with
  | true =>
    cases heq
    exact ⟨r.p, cs, rfl, hr, .refl _, fun hrc => absurd hrc (show enomem ≠ 0 by decide)⟩
  | false =>
    -- nothing is due of a label
    have hdue : ∀ y, r.Due v 0 y := by
      intro y hlive
      exact absurd ((h.used v 0 hlive).2.2 (r.mem v).firstUsable_pos) h0
    have hblk : 0 < (r.p.m v).nblocks :=
      lt_of_lt_of_le (r.mem v).firstUsable_pos (h.low v hv)
    rcases hwr : r.p.writeCopy (dvaOf v 0) c (r.label v c) with ⟨rc₁, q⟩
    obtain ⟨hreb, hshape, hfill⟩ := hr.writeCopy (memberOf_dvaOf hv hblk) (hdue _) hwr
    simp only [hwr] at heq
    cases heq
    exact ⟨q, cs, rfl, hreb, hshape, fun hrc => ⟨_, hfill hrc, fun hv0 => absurd hv0 h0⟩⟩

theorem Rebuilding.keepPeers (h : Rebuilding r) (v tag : Nat) :
    Rebuilding { r with p := RsFs.keepPeers r.p v tag } := by
  rw [RsFs.keepPeers]
  generalize List.range (r.p.m v).ncopies = js
  induction js generalizing r with
  | nil => exact h
  | cons j js ih =>
    refine ih (r := { r with p := r.p.modifyCopy v j _ }) (h.differs (.modifyCopy _ _ _ _) ?_)
    intro hv hj
    have htr := h.copies v hv j hj
    rw [Spool.copy_modifyCopy]
    split
    · exact ⟨htr.online, htr.walk, htr.rebuild⟩
    · exact htr

theorem Rebuilding.detachCopy (h : Rebuilding r) (v c : Nat) :
    Rebuilding { r with p := (r.p.detachCopy v c).2 } := by
  rw [Spool.detachCopy]
  split
  · exact h
  · split
    · exact h
    · rename_i hin _
      have hm : ∀ w, w ≠ v → (r.p.modifyMember v fun m =>
          { m with copy := fun k => if k < c then m.copy k else m.copy (k + 1)
                   ncopies := m.ncopies - 1 }).m w = r.p.m w := fun w hw =>
        Function.update_of_ne hw _ _
      have hself : (r.p.modifyMember v fun m =>
          { m with copy := fun k => if k < c then m.copy k else m.copy (k + 1)
                   ncopies := m.ncopies - 1 }).m v =
          { r.p.m v with
            copy := fun k => if k < c then (r.p.m v).copy k else (r.p.m v).copy (k + 1)
            ncopies := (r.p.m v).ncopies - 1 } := Function.update_self _ _ _
      refine h.next rfl (fun w => ?_) rfl h.used fun w hw e he => ?_
      · by_cases hwv : w = v
        · subst hwv
          rw [hself]
        · rw [hm w hwv]
      · rw [RsFs.Tracks, Spool.copy]
        by_cases hwv : w = v
        · subst hwv
          rw [hself] at he ⊢
          have he : e < (r.p.m w).ncopies - 1 := he
          show Tracked _ _ _ _ (if e < c then (r.p.m w).copy e else (r.p.m w).copy (e + 1))
          split
          · exact h.copies w hw e (by omega)
          · exact h.copies w hw (e + 1) (by omega)
        · rw [hm w hwv] at he ⊢
          exact h.copies w hw e he

theorem Rebuilding.detachPeers (h : Rebuilding r) (v tag : Nat) (fuel j : Nat) :
    Rebuilding { r with p := RsFs.detachPeers v tag fuel j r.p } := by
  induction fuel generalizing r j with
  | zero => exact h
  | succ fuel ih =>
    rw [RsFs.detachPeers]
    split
    · exact h
    · split
      · exact ih h (j + 1)
      · rcases hq : r.p.detachCopy v j with ⟨rc, q⟩
        have hd := h.detachCopy v j
        rw [hq] at hd
        dsimp only
        split
        · exact ih hd j
        · exact ih hd (j + 1)

theorem Refilled.resilvered {k k' : PoolCopy β}
    {rb first errors n : Nat} (h : Refilled due blks k k') (htr : Tracked rb first errors due k)
    (hs : k'.state = .resilvering) (hd : k.dirty = ∅) (hn : n ≤ k.cursor)
    (hend : ∀ b, n ≤ b → ∀ y, due b y) (hlow : ∀ b < first, b ∈ blks ∨ ∀ y, due b y) (since : Nat) :
    Tracked rb first errors due
      { k' with state := .online, whole := false, cursor := 0, since := since, dirty := ∅ } := by
  refine ⟨fun _ d' hd' b _ => ?_, fun _ _ _ hin => absurd (Nat.zero_mod rb) hin,
    fun hr => absurd hr (show CopyState.online ≠ .resilvering by decide)⟩
  obtain ⟨hks, -, -⟩ := h.kept hs
  obtain ⟨d, hdev, hfill⟩ := h.filled hs d' hd'
  by_cases hb : b < first
  · rcases hlow b hb with hmem | hall
    · exact hfill b (.inl hmem)
    · exact hall _
  · by_cases hbn : b < n
    · refine hfill b (.inr (htr.rebuild hks d hdev b (by omega) ?_ (fun _ => by omega)
        fun _ _ => by omega))
      rw [hd]
      exact Finset.notMem_empty _
    · exact hend b (by omega) _

theorem Rebuilding.peers (h : Rebuilding r) (differ : Prop) [Decidable differ] (v tag fuel : Nat) :
    Rebuilding { r with
      p := (RsFs.detachPeers v tag fuel 0
        (if differ then RsFs.keepPeers r.p v tag else r.p)) } := by
  split
  · exact (h.keepPeers v tag).detachPeers v tag fuel 0
  · exact h.detachPeers v tag fuel 0

section End

variable [DecidableEq β]

/-- **The target becomes a copy**, or nothing comes of it. -/
theorem Rebuilding.finish (heq : r.rsFinish v c = (rc, r')) (h : Rebuilding r)
    (hv : v < r.p.nmembers) (hc : c < (r.p.m v).ncopies) (hd : (r.p.copy v c).dirty = ∅)
    (hn : (r.mem v).nblocks ≤ (r.p.copy v c).cursor) : Rebuilding r' ∧ Frame r r' := by
  rw [RsFs.rsFinish] at heq
  rcases hlow : r.lowBlocks v c with ⟨rc₁, r₁⟩
  obtain ⟨q, cs, rfl, hreb, hshape, hfill⟩ := lowBlocks_spec hlow h hv
  simp only [hlow] at heq
  split at heq
  · cases heq
    exact ⟨hreb, .kept⟩
  rename_i hrc
  obtain ⟨blks, hblks, hall⟩ := hfill (not_not.mp hrc)
  rcases ha : q.answer with ⟨rc₂, q₁⟩
  obtain ⟨hans, hcopy⟩ := Spool.answer_spec ha v c
  simp only [ha] at heq
  have hreb₁ : Rebuilding { r with p := q₁, coins := cs } :=
    hreb.differs hans fun hv' hc' => hcopy ▸ hreb.copies v hv' c hc'
  split at heq
  · cases heq
    exact ⟨hreb₁, .kept⟩
  -- the tag goes first
  have htag := Differs.modifyCopy q₁ v c fun k => { k with tag := 0 }
  have hself : (q₁.modifyCopy v c fun k => { k with tag := 0 }).copy v c =
      { q.copy v c with tag := 0 } := by
    rw [Spool.copy_modifyCopy, hcopy]
  have hreb₂ : Rebuilding
      { r with p := q₁.modifyCopy v c (fun k => { k with tag := 0 }), coins := cs } := by
    refine hreb₁.differs htag fun hv' hc' => ?_
    have htr := hreb₁.copies v hv' c hc'
    rw [hself, ← hcopy]
    exact ⟨htr.online, htr.walk, htr.rebuild⟩
  rw [Spool.copyResilvered] at heq
  split at heq
  · rw [if_pos (show einval ≠ 0 by decide)] at heq
    cases heq
    exact ⟨hreb₂, .kept⟩
  split at heq
  · rw [if_pos (show einval ≠ 0 by decide)] at heq
    cases heq
    exact ⟨hreb₂, .kept⟩
  rename_i hst
  rw [not_or, not_not, hself] at hst
  have hreb₃ := hreb₂.differs (.modifyCopy _ v c fun k => { k with
      state := .online, whole := false, cursor := 0
      since := (q₁.modifyCopy v c fun k => { k with tag := 0 }).epoch, dirty := ∅ }) (by
    intro _ _
    rw [Spool.copy_modifyCopy, hself]
    have htr := h.copies v hv c hc
    have hdone := hblks.resilvered htr hst.1 hd hn (fun b hb y => h.due_end hb y) (fun b hb => by
      by_cases h0 : v = 0
      · subst h0
        exact .inl (hall rfl b hb)
      · exact .inr fun y hlive => absurd ((h.used v b hlive).2.2 hb) h0) 0
    rw [RsFs.Tracks, htag.regionBlocks, hans.regionBlocks, hshape.regionBlocks]
    exact ⟨hdone.online, hdone.walk, hdone.rebuild⟩)
  have hgone := hreb₃.peers (r.rsDisagree ≠ 0) v (q₁.copy v c).tag
    ((Spool.modifyCopy (q₁.modifyCopy v c fun k => { k with tag := 0 }) v c fun k => { k with
      state := .online, whole := false, cursor := 0
      since := (q₁.modifyCopy v c fun k => { k with tag := 0 }).epoch, dirty := ∅ }).m v).ncopies
  rw [if_neg (by simp)] at heq
  cases heq
  exact ⟨{ hgone with }, .kept⟩

/-- After a pass: the target goes round again, or becomes a copy, or is out. -/
theorem Rebuilding.passOver (h : Rebuilding r) (hv : v < r.p.nmembers)
    (hc : c < (r.p.m v).ncopies) (hw : (r.p.copy v c).whole = false)
    (hn : (r.mem v).nblocks ≤ (r.p.copy v c).cursor) :
    Rebuilding (r.passOver v c) ∧ Frame r (r.passOver v c) := by
  rw [RsFs.passOver]
  split
  · refine ⟨h.differs (.modifyCopy _ v c _) fun _ _ => ?_, .kept⟩
    have hover := (h.copies v hv c hc).pass_over hn fun b hb y => h.due_end hb y
    rw [Spool.copy_modifyCopy]
    exact ⟨hover.online, hover.walk, fun hs d hd b hf hb _ hin => hover.rebuild hs d hd b hf hb
      (fun hwh => absurd hwh (by simp)) hin⟩
  · rename_i hno
    rw [not_or] at hno
    have hclean : (r.p.copy v c).dirty = ∅ := by
      have hmiss := hno.1
      simp only [Spool.copyAnyMissed, hv, hc, hw, decide_true, Bool.true_and, Bool.false_or,
        decide_eq_true_eq, Finset.not_nonempty_iff_eq_empty] at hmiss
      exact hmiss
    rcases hfinish : r.rsFinish v c with ⟨rc, r₁⟩
    obtain ⟨hfin, hframe⟩ := Rebuilding.finish hfinish h hv hc hclean hn
    dsimp only
    split
    · exact ⟨hfin.worn (r₁.p.copySetState_drops v c (by decide) (by decide)).lessened.worn,
        hframe.trans .kept⟩
    · exact ⟨hfin, hframe⟩

/-- **The end of a pass keeps the invariant.** -/
theorem Walking.ended (h : Walking r v c) (hn : (r.mem v).nblocks ≤ (r.p.copy v c).cursor) :
    Rebuilding (r.rsEnd v c) ∧ Frame r (r.rsEnd v c) := by
  have hreb := h.rebuilding
  have hd := Differs.modifyCopy r.p v c fun k => { k with whole := false }
  have hself := r.p.copy_modifyCopy v c fun k => { k with whole := false }
  have hreb₁ := hreb.differs hd fun _ _ => by
    rw [hself]
    exact (hreb.copies v h.member c h.copy).not_whole hn fun b hb y => hreb.due_end hb y
  obtain ⟨hover, hframe⟩ := hreb₁.passOver (v := v) (c := c) (hd.nmembers.symm ▸ h.member)
    (lt_of_lt_of_eq h.copy (hd.ncopies v).symm) (congrArg PoolCopy.whole hself)
    (le_of_le_of_eq hn (congrArg PoolCopy.cursor hself).symm)
  exact ⟨hover, hframe.mem, hframe.bitmap, hframe.last, hframe.live, hframe.lost⟩

end End

/-! ## Spares -/

section Spares

/-- The device of a copy is written to, and its label state changed. -/
structure Touched (v c : Nat) (r r' : RsFs β) : Prop where
  frame : Frame r r'
  errors : r'.rsRegionErrors = r.rsRegionErrors
  differs : Differs r.p r'.p v c
  whole : (r'.p.copy v c).whole = (r.p.copy v c).whole

theorem Touched.refl (v c : Nat) (r : RsFs β) : Touched v c r r :=
  ⟨.refl r, rfl, .refl _ _ _, rfl⟩

theorem Touched.trans (h : Touched v c r r') (g : Touched v c r' r'') : Touched v c r r'' :=
  ⟨h.frame.trans g.frame, g.errors.trans h.errors, h.differs.trans g.differs,
    g.whole.trans h.whole⟩

theorem Touched.answer (h : r.p.answer = (rc, q)) (v c : Nat) :
    Touched v c r { r with p := q } := by
  obtain ⟨hd, hcopy⟩ := Spool.answer_spec h v c
  exact ⟨.kept, rfl, hd, by rw [hcopy]⟩

theorem Touched.modifyCopy (v c : Nat) (r : RsFs β) {f : PoolCopy β → PoolCopy β}
    (hf : ∀ k, (f k).whole = k.whole) : Touched v c r (r.modifyCopy v c f) := by
  refine ⟨.kept, rfl, .modifyCopy _ _ _ _, ?_⟩
  rw [RsFs.modifyCopy, Spool.copy_modifyCopy, hf]

theorem deviceWrite_touched {blk : Nat} (h : r.deviceWrite v c blk x = (rc, r')) :
    Touched v c r r' := by
  rw [RsFs.deviceWrite] at h
  rcases ha : r.p.answer with ⟨rc₁, q⟩
  have hans := Touched.answer ha v c
  simp only [ha] at h
  split at h
  · cases h
    exact hans.trans (.modifyCopy v c { r with p := q } fun _ => rfl)
  · cases h
    exact hans

theorem labelWriteDev_touched (h : r.labelWriteDev v c = (rc, r')) : Touched v c r r' := by
  rw [RsFs.labelWriteDev] at h
  rcases hcoin : r.coin with ⟨b, r₁⟩
  obtain ⟨cs, rfl⟩ := RsFs.coin_eq hcoin
  rw [hcoin] at h
  have hfirst : Touched v c r { r with coins := cs } := ⟨.kept, rfl, .refl _ _ _, rfl⟩
  cases b with
  | true =>
    cases h
    exact hfirst
  | false =>
    dsimp only at h
    rcases hlabel : RsFs.deviceWrite { r with coins := cs } v c 0 (r.targetLabel v) with ⟨rc₁, r₂⟩
    have htwo := hfirst.trans (deviceWrite_touched hlabel)
    rw [hlabel] at h
    dsimp only at h
    rcases hzero : (if rc₁ = 0 ∧ v = 0 then r₂.deviceWrite v c 1 r₂.zeroBlock else (rc₁, r₂)) with
      ⟨rc₂, r₃⟩
    have hthree : Touched v c r r₃ := by
      split at hzero
      · exact htwo.trans (deviceWrite_touched hzero)
      · cases hzero
        exact htwo
    rw [hzero] at h
    dsimp only at h
    split at h
    · rcases ha : r₃.p.answer with ⟨rc₃, q⟩
      rw [ha] at h
      cases h
      exact hthree.trans (.answer ha v c)
    · cases h
      exact hthree

theorem rsStart_touched (h : r.rsStart v c = (rc, r')) : Touched v c r r' ∧
    (rc = 0 → (r'.p.copy v c).state = .resilvering ∧ (r'.p.copy v c).cursor = 0) := by
  rw [RsFs.rsStart] at h
  split at h
  · cases h
    exact ⟨.refl v c r, fun h => absurd h (show enodev ≠ 0 by decide)⟩
  split at h
  · cases h
    exact ⟨.refl v c r, fun h => absurd h (show eopnotsupp ≠ 0 by decide)⟩
  rcases htag : (if (r.p.copy v c).tag ≠ 0 then ((r.p.copy v c).tag, r) else r.newTag) with
    ⟨tag, r₁⟩
  have htouch : Touched v c r r₁ := by
    split at htag
    · cases htag
      exact .refl v c r
    · rw [RsFs.newTag] at htag
      split at htag
      · cases htag
        exact ⟨⟨rfl, rfl, rfl, rfl, fun _ _ => id⟩, rfl, .refl _ _ _, rfl⟩
      · cases htag
        exact ⟨⟨rfl, rfl, rfl, rfl, fun _ _ => id⟩, rfl, .refl _ _ _, rfl⟩
  rw [htag] at h
  dsimp only at h
  rcases hlabel : r₁.labelWriteDev v c with ⟨rc₁, r₂⟩
  have hlab := htouch.trans (labelWriteDev_touched hlabel)
  rw [hlabel] at h
  dsimp only at h
  split at h
  · rename_i hrc
    cases h
    exact ⟨hlab, fun h => absurd h hrc⟩
  · cases h
    refine ⟨hlab.trans (.modifyCopy v c r₂ fun _ => rfl), fun _ => ?_⟩
    rw [RsFs.modifyCopy, Spool.copy_modifyCopy]
    exact ⟨rfl, rfl⟩

/-- What precedes the walk: some copies have changed and are not ONLINE, and the invariant
holds. -/
structure Readied (r r' : RsFs β) : Prop where
  frame : Frame r r'
  errors : r'.rsRegionErrors = r.rsRegionErrors
  sized : Sized r.p r'.p
  copies : ∀ w e, r'.p.copy w e = r.p.copy w e ∨ (r'.p.copy w e).state ≠ .online
  rebuilding : Rebuilding r'

theorem Readied.refl (h : Rebuilding r) : Readied r r :=
  ⟨.refl r, rfl, .refl _, fun _ _ => .inl rfl, h⟩

theorem Readied.trans (h : Readied r r') (g : Readied r' r'') : Readied r r'' where
  frame := h.frame.trans g.frame
  errors := g.errors.trans h.errors
  sized := h.sized.trans g.sized
  copies w e := by
    rcases g.copies w e with heq | hne
    · rw [heq]
      exact h.copies w e
    · exact .inr hne
  rebuilding := g.rebuilding

/-- A copy that is out has another device, with everything to come, or is out still. -/
theorem Readied.replaced (h : Rebuilding r) (hframe : Frame r r')
    (herr : r'.rsRegionErrors = r.rsRegionErrors) (hd : Differs r.p r'.p v c)
    (hk : r'.p.copy v c = r.p.copy v c ∨ (r'.p.copy v c).state = .faulted ∨
      (r'.p.copy v c).state = .resilvering ∧ (r'.p.copy v c).whole = true ∧
        (r'.p.copy v c).cursor = 0) : Readied r r' := by
  refine ⟨hframe, herr, hd.toSized, fun w e => ?_, ?_⟩
  · by_cases hne : (w, e) = (v, c)
    · obtain ⟨rfl, rfl⟩ := Prod.mk.inj hne
      rcases hk with heq | hf | ⟨hs, -⟩
      · exact .inl heq
      · rw [hf]
        exact .inr (by decide)
      · rw [hs]
        exact .inr (by decide)
    · exact .inl (hd.copy w e hne)
  · refine h.framed hframe hd.toSized fun w hw e he => ?_
    rw [herr]
    refine (?_ : Tracked _ _ _ (r.Due w) _).mono fun b x hx => hframe.due hx
    refine Spool.Every.differs h.copies hd (fun hv hc => ?_) w (hd.nmembers ▸ hw) e
      (hd.ncopies w ▸ he)
    rcases hk with heq | hf | ⟨hs, hw, hcur⟩
    · rw [heq]
      exact h.copies v hv c hc
    · refine .of_not_writable fun hwr => ?_
      have := (PoolCopy.writable_iff.mp hwr).2
      rw [hf] at this
      exact absurd this (by decide)
    · refine ⟨fun hon => ?_, fun hon => ?_, fun _ d _ b _ _ hb _ => ?_⟩
      · exact absurd (hs.symm.trans hon) (by decide)
      · exact absurd (hs.symm.trans hon) (by decide)
      · have := hb hw
        omega

end Spares

end CosmoOS.Cosmofs
