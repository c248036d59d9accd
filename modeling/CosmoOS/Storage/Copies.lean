import CosmoOS.Storage.Pool
import Mathlib.Data.List.Perm.Subperm

/-!
# What the pool's operations do to a copy

Each operation of the pool comes down to a few things that can happen to one copy, and every
invariant of the pool is derived from them:

* a copy is taken out or left alone (`Demoted`), which is all a read or a failure does;
* a device write is taken or refused (`Spool.writeOne_spec`);
* a write to every copy leaves each copy in one of six cases (`Outcome`);
* what failures do not end (`Lasting`) a flush keeps, and so does a write to one copy of the data
  that is right for it.
-/

namespace CosmoOS.Storage

open Function List

variable {β : Type} {p q : Spool β} {v c blk : Nat} {x : β} {rc : Int} {s : CopyState}
  {recent : Finset Nat} {k k' k'' : PoolCopy β}

/-! ## One copy changes -/

/-- The members of `q` are those of `p` in number, copies and size. -/
structure Sized (p q : Spool β) : Prop where
  nmembers : q.nmembers = p.nmembers
  ncopies : ∀ w, (q.m w).ncopies = (p.m w).ncopies
  nblocks : ∀ w, (q.m w).nblocks = (p.m w).nblocks
  regionBlocks : ∀ w, (q.m w).regionBlocks = (p.m w).regionBlocks

/-- From `p` to `q` nothing but copies, and what the devices have still to answer, has
changed. -/
structure Shape (p q : Spool β) : Prop extends Sized p q where
  epoch : q.epoch = p.epoch
  faultErrors : q.faultErrors = p.faultErrors
  recent : ∀ w, (q.m w).recent = (p.m w).recent

section Shape

variable {r : Spool β}

theorem Sized.refl (p : Spool β) : Sized p p := ⟨rfl, fun _ => rfl, fun _ => rfl, fun _ => rfl⟩

theorem Sized.trans (h : Sized p q) (g : Sized q r) : Sized p r where
  nmembers := g.nmembers.trans h.nmembers
  ncopies w := (g.ncopies w).trans (h.ncopies w)
  nblocks w := (g.nblocks w).trans (h.nblocks w)
  regionBlocks w := (g.regionBlocks w).trans (h.regionBlocks w)

theorem Sized.region (h : Sized p q) (w : Nat) : (q.m w).region = (p.m w).region := by
  funext blk
  rw [SpoolMember.region, SpoolMember.region, h.regionBlocks w]

theorem Shape.refl (p : Spool β) : Shape p p := ⟨.refl p, rfl, rfl, fun _ => rfl⟩

theorem Shape.trans (h : Shape p q) (g : Shape q r) : Shape p r :=
  ⟨h.toSized.trans g.toSized, g.epoch.trans h.epoch, g.faultErrors.trans h.faultErrors,
    fun w => (g.recent w).trans (h.recent w)⟩

end Shape

/-- A member changes in nothing that counts. -/
theorem Spool.modifyMember_field {γ : Type} (p : Spool β) {f : SpoolMember β → SpoolMember β}
    (g : SpoolMember β → γ) (hg : ∀ m, g (f m) = g m) (w : Nat) :
    g ((p.modifyMember v f).m w) = g (p.m w) := by
  by_cases hw : w = v
  · subst hw
    show g (update p.m w _ w) = _
    rw [update_self, hg]
  · show g (update p.m v _ w) = _
    rw [update_of_ne hw]

theorem Spool.modifyMember_sized (p : Spool β) {f : SpoolMember β → SpoolMember β}
    (hf : ∀ m, (f m).ncopies = m.ncopies ∧ (f m).nblocks = m.nblocks ∧
      (f m).regionBlocks = m.regionBlocks) : Sized p (p.modifyMember v f) :=
  ⟨rfl, p.modifyMember_field _ fun m => (hf m).1, p.modifyMember_field _ fun m => (hf m).2.1,
    p.modifyMember_field _ fun m => (hf m).2.2⟩

/-- From `p` to `q` nothing but copy `c` of member `v`, and what the devices have still to
answer, has changed. -/
structure Differs (p q : Spool β) (v c : Nat) : Prop extends Shape p q where
  copy : ∀ w d, (w, d) ≠ (v, c) → q.copy w d = p.copy w d

namespace Differs

variable {r : Spool β}

theorem refl (p : Spool β) (v c : Nat) : Differs p p v c := ⟨.refl p, fun _ _ _ => rfl⟩

theorem trans (h : Differs p q v c) (g : Differs q r v c) : Differs p r v c :=
  ⟨h.toShape.trans g.toShape, fun w d hne => (g.copy w d hne).trans (h.copy w d hne)⟩

theorem copy_of_ne (h : Differs p q v c) {w e : Nat} (hne : e ≠ c) : q.copy w e = p.copy w e :=
  h.copy w e fun heq => hne (Prod.mk.inj heq).2

theorem forall_copy (h : Differs p q v c) {P : Nat → Nat → PoolCopy β → Prop}
    (hc : P v c (q.copy v c)) {w e : Nat} (hw : P w e (p.copy w e)) : P w e (q.copy w e) := by
  by_cases hne : (w, e) = (v, c)
  · cases hne
    exact hc
  · rw [h.copy w e hne]
    exact hw

theorem modifyCopy (p : Spool β) (v c : Nat) (f : PoolCopy β → PoolCopy β) :
    Differs p (p.modifyCopy v c f) v c := by
  have hs : Sized p (p.modifyCopy v c f) := p.modifyMember_sized fun _ => ⟨rfl, rfl, rfl⟩
  refine ⟨⟨hs, rfl, rfl, p.modifyMember_field SpoolMember.recent fun _ => rfl⟩, ?_⟩
  intro w d hne
  by_cases hw : w = v
  · subst hw
    have hd : d ≠ c := fun h => hne (by rw [h])
    show (update p.m w _ w).copy d = _
    rw [update_self]
    exact update_of_ne hd _ _
  · show (update p.m v _ w).copy d = _
    rw [update_of_ne hw]
    rfl

end Differs

@[simp] theorem Spool.copy_modifyCopy (p : Spool β) (v c : Nat) (f : PoolCopy β → PoolCopy β) :
    (p.modifyCopy v c f).copy v c = f (p.copy v c) := by
  show (update p.m v _ v).copy c = _
  rw [update_self]
  exact update_self _ _ _

theorem Spool.answer_spec (h : p.answer = (rc, q)) (v c : Nat) :
    Differs p q v c ∧ q.copy v c = p.copy v c := by
  rw [Spool.answer] at h
  split at h
  · cases h
    exact ⟨.refl p v c, rfl⟩
  · cases h
    exact ⟨⟨⟨⟨rfl, fun _ => rfl, fun _ => rfl, fun _ => rfl⟩, rfl, rfl, fun _ => rfl⟩,
      fun _ _ _ => rfl⟩, rfl⟩

/-! ## What the operations can do to a copy -/

/-- A copy was taken out: its blocks are as they were, and if it was ONLINE it takes over
the regions written since the last root. -/
structure Out (recent : Finset Nat) (k k' : PoolCopy β) : Prop where
  not_online : k'.state ≠ .online
  not_resilvering : k'.state ≠ .resilvering
  whole : k.state ≠ .online → k'.whole = k.whole
  dirty : k'.dirty = if k.state = .online then k.dirty ∪ recent else k.dirty

/-- A copy is as it was, its read errors apart, or was taken out. -/
structure Demoted (recent : Finset Nat) (k k' : PoolCopy β) : Prop where
  dev : k'.dev = k.dev
  cursor : k'.cursor = k.cursor
  writeErrors : k'.writeErrors = k.writeErrors
  kept_or_out : k'.state = k.state ∧ k'.whole = k.whole ∧ k'.dirty = k.dirty ∨ Out recent k k'

theorem Demoted.refl (recent : Finset Nat) (k : PoolCopy β) : Demoted recent k k :=
  ⟨rfl, rfl, rfl, .inl ⟨rfl, rfl, rfl⟩⟩

section

variable (h : Demoted recent k k')

include h

theorem Demoted.online_of (hs : k'.state = .online) : k.state = .online :=
  h.kept_or_out.elim (fun hk => hk.1.symm.trans hs) fun ho => absurd hs ho.not_online

theorem Demoted.resilvering_of (hs : k'.state = .resilvering) : k.state = .resilvering :=
  h.kept_or_out.elim (fun hk => hk.1.symm.trans hs) fun ho => absurd hs ho.not_resilvering

theorem Demoted.readable_of (hs : k'.readable = true) : k.readable = true := by
  rw [PoolCopy.readable, Bool.and_eq_true, decide_eq_true_eq] at hs ⊢
  exact ⟨h.dev ▸ hs.1, h.online_of hs.2⟩

theorem Demoted.trans (g : Demoted recent k' k'') : Demoted recent k k'' := by
  refine ⟨g.dev.trans h.dev, g.cursor.trans h.cursor, g.writeErrors.trans h.writeErrors, ?_⟩
  rcases h.kept_or_out with ⟨hs, hw, hd⟩ | ho
  · rcases g.kept_or_out with ⟨gs, gw, gd⟩ | go
    · exact .inl ⟨gs.trans hs, gw.trans hw, gd.trans hd⟩
    · refine .inr ⟨go.not_online, go.not_resilvering, fun hk => ?_, ?_⟩
      · exact (go.whole (hs ▸ hk)).trans hw
      · rw [go.dirty, hs, hd]
  · refine .inr ?_
    rcases g.kept_or_out with ⟨gs, gw, gd⟩ | go
    · exact ⟨gs ▸ ho.not_online, gs ▸ ho.not_resilvering, fun hk => gw.trans (ho.whole hk),
        gd.trans ho.dirty⟩
    · refine ⟨go.not_online, go.not_resilvering, fun hk => ?_, ?_⟩
      · exact (go.whole ho.not_online).trans (ho.whole hk)
      · rw [go.dirty, if_neg ho.not_online, ho.dirty]

end

theorem Demoted.move (hs : s ≠ .online) (hr : s ≠ .resilvering) (epoch : Nat)
    (recent : Finset Nat) (k : PoolCopy β) : Demoted recent k (k.move s epoch recent) := by
  unfold PoolCopy.move
  by_cases hk : k.state = .online
  · simp only [hk, if_true, if_neg hs]
    exact ⟨rfl, rfl, rfl, .inr ⟨hs, hr, fun h => absurd hk h, by rw [if_pos hk]⟩⟩
  · simp only [if_neg hk, if_neg hs]
    exact ⟨rfl, rfl, rfl, .inr ⟨hs, hr, fun _ => rfl, by rw [if_neg hk]⟩⟩

/-- Nothing but copy `c` of member `v` has changed, and that was taken out at most. -/
structure Drops (p q : Spool β) (v c : Nat) : Prop extends Differs p q v c where
  demoted : Demoted (p.m v).recent (p.copy v c) (q.copy v c)

section

variable (p v c)

theorem Drops.refl : Drops p p v c := ⟨.refl p v c, .refl _ _⟩

/-- `pool_copy_set_state` refuses, or moves the copy; ONLINE only a copy without a mark. -/
theorem Spool.copySetState_cases (s : CopyState) :
    (p.copySetState v c s).2 = p ∨
      (p.copySetState v c s).2 = p.modifyCopy v c (fun k => k.move s p.epoch (p.m v).recent) ∧
      (s = .online → (p.copy v c).state ≠ .online ∧ (p.copy v c).whole = false ∧
        (p.copy v c).dirty = ∅) := by
  rw [Spool.copySetState]
  split
  · exact .inl rfl
  split
  · exact .inl rfl
  split
  · exact .inl rfl
  split
  · exact .inl rfl
  split
  · exact .inl rfl
  split
  · exact .inl rfl
  rename_i hstate _ _ hepoch hdirty
  refine .inr ⟨rfl, fun hs => ?_⟩
  subst hs
  refine ⟨hstate, ?_, ?_⟩
  · by_contra hw
    exact hepoch ⟨rfl, .inl (by simpa using hw)⟩
  · by_contra hd
    exact hdirty ⟨rfl, Finset.nonempty_iff_ne_empty.mpr hd⟩

theorem Spool.copySetState_drops (hs : s ≠ .online) (hr : s ≠ .resilvering) :
    Drops p (p.copySetState v c s).2 v c := by
  rcases p.copySetState_cases v c s with h | ⟨h, -⟩
  · rw [h]
    exact .refl p v c
  · rw [h]
    refine ⟨.modifyCopy p v c _, ?_⟩
    rw [p.copy_modifyCopy]
    exact .move hs hr _ _ _

theorem Spool.copyFailed_drops (rc : Int) : Drops p (p.copyFailed v c rc) v c := by
  rw [Spool.copyFailed]
  split
  · exact p.copySetState_drops v c (by decide) (by decide)
  split
  · exact .refl p v c
  split
  · exact .refl p v c
  · exact p.copySetState_drops v c (by decide) (by decide)

end

/-- A read changes a copy only by taking it out, and what it gives is the copy's block. -/
theorem Spool.readOne_spec {res : Except Int β} (h : p.readOne v blk c = (res, q)) :
    Drops p q v c ∧ ∀ x, res = .ok x →
      (∃ d, (p.copy v c).dev = some d ∧ d blk = x) ∧ q.copy v c = p.copy v c := by
  rw [Spool.readOne] at h
  rcases ha : p.answer with ⟨rc, q₁⟩
  obtain ⟨hans, hcopy⟩ := Spool.answer_spec ha v c
  simp only [ha] at h
  have hsame : Drops p q₁ v c := ⟨hans, hcopy ▸ .refl _ _⟩
  split at h
  · split at h
    · rename_i d hd
      cases h
      exact ⟨hsame, fun x hx => ⟨⟨d, hd, Except.ok.inj hx⟩, hcopy⟩⟩
    · cases h
      exact ⟨hsame, fun x hx => nomatch hx⟩
  · cases h
    have hcount := Differs.modifyCopy q₁ v c fun k => { k with readErrors := k.readErrors + 1 }
    have hdrop := (q₁.modifyCopy v c
      fun k => { k with readErrors := k.readErrors + 1 }).copyFailed_drops v c rc
    refine ⟨⟨(hans.trans hcount).trans hdrop.toDiffers, ?_⟩, fun x hx => nomatch hx⟩
    have hdem := hdrop.demoted
    rw [hcount.recent, hans.recent, Spool.copy_modifyCopy, hcopy] at hdem
    exact { hdem with kept_or_out := hdem.kept_or_out.imp id fun h => { h with } }

/-- Copies of `p` were taken out, and nothing else. -/
structure Lessened (p q : Spool β) : Prop extends Shape p q where
  copies : ∀ v c, Demoted (p.m v).recent (p.copy v c) (q.copy v c)

theorem Lessened.refl (p : Spool β) : Lessened p p := ⟨.refl p, fun _ _ => .refl _ _⟩

theorem Lessened.trans {p q r : Spool β} (h : Lessened p q) (g : Lessened q r) : Lessened p r := by
  refine ⟨h.toShape.trans g.toShape, fun v c => (h.copies v c).trans ?_⟩
  rw [← h.recent v]
  exact g.copies v c

theorem Drops.lessened (h : Drops p q v c) : Lessened p q :=
  ⟨h.toShape, fun _ _ => h.toDiffers.forall_copy
    (P := fun w e k => Demoted (p.m w).recent (p.copy w e) k) h.demoted (.refl _ _)⟩

/-! ## A read -/

section Read

variable {cs : List Nat} {first : Int} {res : Except Int β}

theorem Shape.readableAt (h : Shape p q) (v blk : Nat) (k : PoolCopy β) :
    (q.m v).readableAt k blk = (p.m v).readableAt k blk := by
  rw [SpoolMember.readableAt, SpoolMember.readableAt, SpoolMember.hole, SpoolMember.hole,
    h.regionBlocks]

namespace Spool

/-- The copies in turn: at most they are taken out.  A read that succeeds gives the block of a
copy that can be read there, and still can; an error is never 0. -/
theorem readFrom_spec (hnd : cs.Nodup) (h : p.readFrom v blk cs first = (res, q)) :
    Lessened p q ∧
      (∀ x, res = .ok x → ∃ e ∈ cs, (∃ d, (p.copy v e).dev = some d ∧ d blk = x) ∧
        (p.m v).readableAt (p.copy v e) blk = true ∧ q.copy v e = p.copy v e) ∧
      ∀ rc, res = .error rc → rc ≠ 0 := by
  induction cs generalizing p first with
  | nil =>
    cases h
    refine ⟨.refl _, fun x hx => (nomatch hx), fun rc hrc => ?_⟩
    obtain rfl := Except.error.inj hrc
    split
    · assumption
    · decide
  | cons c cs ih =>
    obtain ⟨hc, hnd⟩ := nodup_cons.mp hnd
    rw [readFrom] at h
    split at h
    · obtain ⟨hless, hok, herr⟩ := ih hnd h
      refine ⟨hless, fun x hx => ?_, herr⟩
      obtain ⟨e, he, hrest⟩ := hok x hx
      exact ⟨e, by simp [he], hrest⟩
    · rename_i hyes
      rcases hq : p.readOne v blk c with ⟨res₁, q₁⟩
      obtain ⟨hd, hok₁⟩ := readOne_spec hq
      rw [hq] at h
      cases res₁ with
      | ok y =>
        cases h
        refine ⟨hd.lessened, fun x hx => ?_, fun rc hrc => (nomatch hrc)⟩
        obtain ⟨hdev, hcopy⟩ := hok₁ x hx
        exact ⟨c, by simp, hdev, not_not.mp hyes, hcopy⟩
      | error rc =>
        obtain ⟨hless, hok, herr⟩ := ih hnd h
        refine ⟨hd.lessened.trans hless, fun x hx => ?_, herr⟩
        obtain ⟨e, he, hrest⟩ := hok x hx
        rw [hd.copy_of_ne fun heq => hc (heq ▸ he), hd.readableAt] at hrest
        exact ⟨e, by simp [he], hrest⟩

theorem readFrom_none (h : ∀ e ∈ cs, (p.m v).readableAt (p.copy v e) blk = false) :
    ∃ rc, p.readFrom v blk cs first = (.error rc, p) := by
  induction cs with
  | nil => exact ⟨_, rfl⟩
  | cons c cs ih =>
    rw [readFrom, if_pos (by rw [h c (by simp)]; simp)]
    exact ih fun e he => h e (by simp [he])

/-- A copy might as well not be there if it cannot be read, or if none behind it can and the
others give the block: then it is not asked. -/
theorem readFrom_without {as bs : List Nat} (hnd : (as ++ c :: bs).Nodup)
    (hoff : (p.m v).readableAt (p.copy v c) blk = false ∨
      (∀ e ∈ bs, (p.m v).readableAt (p.copy v e) blk = false) ∧
        ∃ x, (p.readFrom v blk (as ++ bs) first).1 = .ok x) :
    p.readFrom v blk (as ++ c :: bs) first = p.readFrom v blk (as ++ bs) first := by
  induction as generalizing p first with
  | nil =>
    rcases hoff with hc | ⟨hbs, x, hok⟩
    · rw [nil_append, nil_append, readFrom, if_pos (by rw [hc]; simp)]
    · obtain ⟨rc, hrc⟩ : ∃ rc, p.readFrom v blk bs first = (.error rc, p) := readFrom_none hbs
      rw [nil_append, hrc] at hok
      cases hok
  | cons a as ih =>
    obtain ⟨ha, hnd⟩ := nodup_cons.mp hnd
    rw [cons_append, readFrom] at hoff
    rw [cons_append, cons_append, readFrom, readFrom]
    split
    · rename_i hno
      rw [if_pos hno] at hoff
      exact ih hnd hoff
    · rename_i hyes
      rw [if_neg hyes] at hoff
      rcases hq : p.readOne v blk a with ⟨res, q⟩
      rw [hq] at hoff
      obtain ⟨hd, -⟩ := readOne_spec hq
      -- the copies behind `a` are as they were
      have hsame : ∀ e ∈ c :: bs, (q.m v).readableAt (q.copy v e) blk =
          (p.m v).readableAt (p.copy v e) blk := by
        intro e he
        have hea : e ≠ a := fun heq => ha (mem_append.mpr (.inr (heq ▸ he)))
        rw [hd.readableAt, hd.copy_of_ne hea]
      cases res with
      | ok y => rfl
      | error rc =>
        refine ih hnd (hoff.imp (fun hc => ?_) fun h => ⟨fun e he => ?_, h.2⟩)
        · rw [hsame c (by simp)]
          exact hc
        · rw [hsame e (by simp [he])]
          exact h.1 e he

theorem readCopy_lessened {dva : Nat} (h : p.readCopy dva c = (res, q)) :
    Lessened p q ∧ ∀ w e, e ≠ c → q.copy w e = p.copy w e := by
  rw [readCopy] at h
  split at h
  · cases h
    exact ⟨.refl _, fun _ _ _ => rfl⟩
  split at h
  · cases h
    exact ⟨.refl _, fun _ _ _ => rfl⟩
  split at h
  · cases h
    exact ⟨.refl _, fun _ _ _ => rfl⟩
  · obtain ⟨hd, -⟩ := readOne_spec h
    exact ⟨hd.lessened, fun w e he => hd.copy_of_ne he⟩

theorem memberOf_some {dva : Nat} (h : p.memberOf dva = some (v, blk)) :
    v < p.nmembers ∧ blk < (p.m v).nblocks := by
  rw [memberOf] at h
  split at h
  · rename_i hb
    cases h
    exact hb
  · cases h

/-- `pool_read`: what it gives is a readable copy's block. -/
theorem read_spec {dva : Nat} (h : p.read dva = (res, q)) :
    Lessened p q ∧
      (∀ x, res = .ok x → ∃ v blk e d, p.memberOf dva = some (v, blk) ∧ v < p.nmembers ∧
        blk < (p.m v).nblocks ∧ e < (p.m v).ncopies ∧ (p.copy v e).dev = some d ∧ d blk = x ∧
        (p.m v).readableAt (p.copy v e) blk = true) ∧
      ∀ rc, res = .error rc → rc ≠ 0 := by
  rw [read] at h
  split at h
  · cases h
    exact ⟨.refl _, fun x hx => (nomatch hx), fun rc hrc => by cases hrc; decide⟩
  · rename_i v blk hm
    obtain ⟨hless, hok, herr⟩ := readFrom_spec nodup_range h
    refine ⟨hless, fun x hx => ?_, herr⟩
    obtain ⟨e, he, ⟨d, hdev, hdx⟩, hread, -⟩ := hok x hx
    obtain ⟨hv, hblk⟩ := memberOf_some hm
    exact ⟨v, blk, e, d, hm, hv, hblk, mem_range.mp he, hdev, hdx, hread⟩

end Spool

end Read

/-! ## A device write -/

/-- The copy a failed write leaves, before it is taken out. -/
def PoolCopy.refused (k : PoolCopy β) (r : Nat) : PoolCopy β :=
  { k with
    writeErrors := k.writeErrors + 1
    dirty := if k.state = .online then k.dirty else insert r k.dirty }

theorem Spool.missed_copy (p : Spool β) (v c blk : Nat) :
    Differs p (p.missed v c blk) v c ∧
      (p.missed v c blk).copy v c =
        if (p.copy v c).state = .online then p.copy v c
        else (p.copy v c).mark ((p.m v).region blk) := by
  rw [Spool.missed]
  by_cases h : (p.copy v c).state = .online
  · rw [if_neg (not_not.mpr h), if_pos h]
    exact ⟨.refl p v c, rfl⟩
  · rw [if_pos h, if_neg h, Spool.copy_modifyCopy]
    exact ⟨.modifyCopy p v c _, rfl⟩

/-- A device write is taken, or refused and counted, with the region marked unless the copy
is ONLINE; a copy refused too often is taken out. -/
theorem Spool.writeOne_spec (h : p.writeOne v blk c x = (rc, q)) :
    Differs p q v c ∧ (rc = 0 ∧ q.copy v c = (p.copy v c).put blk x ∨
      rc ≠ 0 ∧ Demoted (p.m v).recent ((p.copy v c).refused ((p.m v).region blk))
        (q.copy v c)) := by
  rw [Spool.writeOne] at h
  rcases ha : p.answer with ⟨rc₁, q₁⟩
  obtain ⟨hans, hcopy⟩ := Spool.answer_spec ha v c
  simp only [ha] at h
  split at h
  · cases h
    refine ⟨hans.trans (.modifyCopy q₁ v c _), .inl ⟨rfl, ?_⟩⟩
    rw [Spool.copy_modifyCopy, hcopy]
  · rename_i hrc
    cases h
    have hcount := hans.trans (.modifyCopy q₁ v c
      fun k => { k with writeErrors := k.writeErrors + 1 })
    have hk := q₁.copy_modifyCopy v c fun k => { k with writeErrors := k.writeErrors + 1 }
    generalize q₁.modifyCopy v c
      (fun k => { k with writeErrors := k.writeErrors + 1 }) = q₂ at hcount hk ⊢
    obtain ⟨hmiss, hmk⟩ := q₂.missed_copy v c blk
    have hdrop := (q₂.missed v c blk).copyFailed_drops v c rc₁
    refine ⟨(hcount.trans hmiss).trans hdrop.toDiffers, .inr ⟨?_, ?_⟩⟩
    · rw [toCaller]
      split
      · decide
      · exact hrc
    · have hdem := hdrop.demoted
      rw [hmiss.recent, hcount.recent, hmk, hcount.region, hk, hcopy] at hdem
      have hrefused : (if (p.copy v c).state = .online then
            { p.copy v c with writeErrors := (p.copy v c).writeErrors + 1 }
          else PoolCopy.mark
            { p.copy v c with writeErrors := (p.copy v c).writeErrors + 1 }
            ((p.m v).region blk)) = (p.copy v c).refused ((p.m v).region blk) := by
        unfold PoolCopy.refused PoolCopy.mark
        split <;> rfl
      rw [← hrefused]
      exact hdem

/-! ## A write to every copy -/

section Write

variable {r : Nat} {w w' : Spool.Writing β} {onlineOnly : Bool}

theorem PoolCopy.writable_iff : k.writable = true ↔
    k.dev.isSome = true ∧ (k.state = .online ∨ k.state = .resilvering) := by
  simp [PoolCopy.writable]

/-- **What a write to every copy does to one.**  It took the block, was passed over, or has the
region marked; refused by an ONLINE copy, the region is marked if the write succeeded. -/
inductive Outcome (blk r : Nat) (x : β) (recent : Finset Nat) (onlineOnly landed : Prop)
    (k : PoolCopy β) : PoolCopy β → Prop
  | took (hw : k.writable = true) (hl : k.state = .online → landed) :
      Outcome blk r x recent onlineOnly landed k (k.put blk x)
  /-- The root, and a copy being rebuilt. -/
  | skipped (ho : onlineOnly) (hs : k.state = .resilvering) :
      Outcome blk r x recent onlineOnly landed k k
  | missed (hw : ¬ k.writable = true) (hs : k.state ≠ .online) :
      Outcome blk r x recent onlineOnly landed k (k.mark r)
  | empty (hs : k.state = .online) (hd : k.dev = none) :
      Outcome blk r x recent onlineOnly landed k k
  | refused {k' : PoolCopy β} (hw : k.writable = true) (hd : Demoted recent (k.refused r) k')
      (hm : landed → k'.state = .online → r ∈ k'.dirty) :
      Outcome blk r x recent onlineOnly landed k k'
  | hole {k' : PoolCopy β} (hw : k.writable = true) (hd : Demoted recent (k.refused r) k')
      (hs : k'.state = .online) :
      Outcome blk r x recent onlineOnly landed k (k'.mark r)

/-- What the first loop of `pool_write_flags` does to a copy, if later turns may still land the
block: its outcome, or it is ONLINE and refused, and its hole has still to be marked. -/
def Tried (blk r : Nat) (x : β) (recent : Finset Nat) (onlineOnly landed failed : Prop)
    (k k' : PoolCopy β) : Prop :=
  (¬ failed ∧ ∀ landed' : Prop, (landed → landed') →
      Outcome blk r x recent onlineOnly landed' k k') ∨
    failed ∧ k.writable = true ∧ Demoted recent (k.refused r) k'

/-- A later turn of the loop takes nothing of this away. -/
theorem Tried.later {o landed landed' failed failed' : Prop}
    (h : Tried blk r x recent o landed failed k k') (hl : landed → landed')
    (hf : failed' ↔ failed) : Tried blk r x recent o landed' failed' k k' := by
  rcases h with ⟨hno, hout⟩ | ⟨hfail, hrest⟩
  · exact .inl ⟨hf.not.mpr hno, fun l hl' => hout l fun h => hl' (hl h)⟩
  · exact .inr ⟨hf.mpr hfail, hrest⟩

/-- A copy's turn and the marking of its hole. -/
theorem Tried.outcome {o landed failed : Prop} (h : Tried blk r x recent o landed failed k k')
    (hk : (k'' = k' ∧ (landed → failed → k'.state = .online → r ∈ k'.dirty)) ∨
      k'' = k'.mark r ∧ failed ∧ k'.state = .online) : Outcome blk r x recent o landed k k'' := by
  rcases h with ⟨hno, hout⟩ | ⟨hf, hw, hd⟩
  · rcases hk with ⟨rfl, -⟩ | ⟨-, hf, -⟩
    · exact hout _ id
    · exact absurd hf hno
  · rcases hk with ⟨rfl, hm⟩ | ⟨rfl, -, hon⟩
    · exact .refused hw hd fun hl => hm hl hf
    · exact .hole hw hd hon

namespace Spool

theorem writeTurn_spec (hw' : writeTurn v blk x onlineOnly w c = w') (hc : c ∉ w.failedOnline) :
    Differs w.p w'.p v c ∧
      Tried blk ((w.p.m v).region blk) x (w.p.m v).recent (onlineOnly = true)
        (w'.landed = true) (c ∈ w'.failedOnline) (w.p.copy v c) (w'.p.copy v c) ∧
      (w.landed = true → w'.landed = true) ∧
      ∀ e, e ≠ c → (e ∈ w'.failedOnline ↔ e ∈ w.failedOnline) := by
  rw [writeTurn] at hw'
  split at hw'
  · rename_i hw
    subst hw'
    obtain ⟨hd, hcopy⟩ := w.p.missed_copy v c blk
    refine ⟨hd, .inl ⟨hc, fun _ _ => ?_⟩, id, fun _ _ => Iff.rfl⟩
    rw [hcopy]
    split
    · rename_i ho
      refine .empty ho ?_
      by_contra hdev
      exact hw (PoolCopy.writable_iff.mpr ⟨Option.isSome_iff_ne_none.mpr hdev, .inl ho⟩)
    · exact .missed hw (by assumption)
  rename_i hw
  have hw := not_not.mp hw
  obtain ⟨hdev, hstate⟩ := PoolCopy.writable_iff.mp hw
  split at hw'
  · rename_i hroot
    subst hw'
    refine ⟨.refl _ _ _, .inl ⟨hc, fun _ _ => .skipped hroot.1 (hstate.resolve_left fun ho =>
      hroot.2 ?_)⟩, id, fun _ _ => Iff.rfl⟩
    simp [PoolCopy.readable, hdev, ho]
  · rcases hq : w.p.writeOne v blk c x with ⟨rc, q⟩
    obtain ⟨hd, hcase⟩ := writeOne_spec hq
    simp only [hq] at hw'
    subst hw'
    rcases hcase with ⟨rfl, hcopy⟩ | ⟨hrc, hdem⟩
    · refine ⟨hd, .inl ⟨by simpa using hc, fun _ hl => ?_⟩, fun h => by simp [h],
        fun e _ => by simp⟩
      rw [hcopy]
      exact .took hw fun ho => hl (by simp [ho])
    · by_cases ho : (w.p.copy v c).state = .online
      · exact ⟨hd, .inr ⟨by simp [hrc, ho], hw, hdem⟩, fun h => by simp [h],
          fun e he => by simp [hrc, ho, he]⟩
      · refine ⟨hd, .inl ⟨by simpa [ho] using hc, fun _ _ => .refused hw hdem fun _ ho' => ?_⟩,
          fun h => by simp [h], fun e _ => by simp [ho]⟩
        exact absurd (hdem.online_of ho') ho

/-- The whole loop: every copy of the list has had its turn, no other has changed. -/
theorem writeLoop_spec {cs : List Nat} (hw' : cs.foldl (writeTurn v blk x onlineOnly) w = w')
    (hnd : cs.Nodup) (hf : ∀ c ∈ cs, c ∉ w.failedOnline) :
    Shape w.p w'.p ∧ (∀ u c, (u ≠ v ∨ c ∉ cs) → w'.p.copy u c = w.p.copy u c) ∧
      (∀ c ∈ cs, Tried blk ((w.p.m v).region blk) x (w.p.m v).recent (onlineOnly = true)
        (w'.landed = true) (c ∈ w'.failedOnline) (w.p.copy v c) (w'.p.copy v c)) ∧
      (w.landed = true → w'.landed = true) ∧
      ∀ c, c ∉ cs → (c ∈ w'.failedOnline ↔ c ∈ w.failedOnline) := by
  induction cs generalizing w with
  | nil =>
    subst hw'
    exact ⟨.refl _, fun _ _ _ => rfl, by simp, id, fun _ _ => Iff.rfl⟩
  | cons a cs ih =>
    obtain ⟨ha, hnd⟩ := nodup_cons.mp hnd
    have hw : writeTurn v blk x onlineOnly w a = _ := rfl
    obtain ⟨hd, hturn, hland, hfail⟩ := writeTurn_spec hw (hf a (by simp))
    have hne : ∀ c ∈ cs, c ≠ a := fun c hc h => ha (h ▸ hc)
    rw [foldl_cons] at hw'
    obtain ⟨hshape, hcopy, hall, hl, hfo⟩ := ih hw' hnd
      fun c hc => by rw [hfail c (hne c hc)]; exact hf c (by simp [hc])
    refine ⟨hd.toShape.trans hshape, fun u c h => ?_, fun c hc => ?_, fun h => hl (hland h),
      fun c hc => ?_⟩
    · rw [hcopy u c (h.imp id fun hc hm => hc (by simp [hm]))]
      refine hd.copy u c fun heq => ?_
      cases heq
      exact h.elim (absurd rfl) fun hc => hc (by simp)
    · rcases mem_cons.mp hc with rfl | hc
      · rw [hcopy v c (.inr ha)]
        exact hturn.later hl (hfo c ha)
      · have h := hall c hc
        rw [hd.region, hd.recent, hd.copy_of_ne (hne c hc)] at h
        exact h
    · rw [mem_cons, not_or] at hc
      rw [hfo c hc.2, hfail c hc.1]

theorem holeLoop_spec {failed : Finset Nat} {cs : List Nat}
    (hq : cs.foldl (holeTurn v blk failed) p = q) :
    Shape p q ∧ (∀ u c, u ≠ v → q.copy u c = p.copy u c) ∧
      ∀ c, (q.copy v c = p.copy v c ∧ (c ∈ cs → c ∈ failed → (p.copy v c).state = .online →
            (p.m v).region blk ∈ (p.copy v c).dirty)) ∨
          q.copy v c = (p.copy v c).mark ((p.m v).region blk) ∧ c ∈ failed ∧
            (p.copy v c).state = .online := by
  induction cs generalizing p with
  | nil =>
    subst hq
    exact ⟨.refl _, fun _ _ _ => rfl, fun c => .inl ⟨rfl, fun h => absurd h (by simp)⟩⟩
  | cons a cs ih =>
    rw [foldl_cons, holeTurn] at hq
    split at hq
    · rename_i hmem
      have hd := Differs.modifyCopy p v a fun k => k.mark ((p.m v).region blk)
      have hmark : ∀ k : PoolCopy β, (k.mark ((p.m v).region blk)).mark ((p.m v).region blk) =
          k.mark ((p.m v).region blk) := by
        unfold PoolCopy.mark
        simp
      obtain ⟨hshape, hother, hall⟩ := ih hq
      refine ⟨hd.toShape.trans hshape, fun u c hu => ?_, fun c => ?_⟩
      · rw [hother u c hu]
        exact hd.copy u c fun h => hu (Prod.mk.inj h).1
      · have hc := hall c
        rw [hd.region] at hc
        by_cases hca : c = a
        · subst hca
          rw [copy_modifyCopy, hmark] at hc
          exact .inr ⟨hc.elim (fun h => h.1) fun h => h.1, hmem⟩
        · rw [hd.copy_of_ne hca] at hc
          refine hc.imp (fun h => ⟨h.1, fun hm hf ho => ?_⟩) id
          exact h.2 ((mem_cons.mp hm).resolve_left hca) hf ho
    · rename_i hno
      obtain ⟨hshape, hother, hall⟩ := ih hq
      refine ⟨hshape, hother, fun c => (hall c).imp (fun h => ⟨h.1, fun hc hf ho => ?_⟩) id⟩
      rcases mem_cons.mp hc with rfl | hc
      · exact absurd ⟨hf, ho⟩ hno
      · exact h.2 hc hf ho

/-- Both loops of `pool_write_flags`. -/
theorem writeCopies_outcome (h : p.writeCopies v blk x onlineOnly = (rc, q)) :
    Shape p q ∧ (∀ u c, u ≠ v → q.copy u c = p.copy u c) ∧
      ∀ c < (p.m v).ncopies, Outcome blk ((p.m v).region blk) x (p.m v).recent
        (onlineOnly = true) (rc = 0) (p.copy v c) (q.copy v c) := by
  rw [writeCopies] at h
  generalize hw : (List.range (p.m v).ncopies).foldl (writeTurn v blk x onlineOnly)
    ⟨p, 0, false, ∅⟩ = w at h
  obtain ⟨hshape, hcopy, hall, -, -⟩ := writeLoop_spec hw nodup_range (by simp)
  by_cases hl : w.landed = true
  · simp only [if_pos hl] at h
    obtain ⟨rfl, hq⟩ := Prod.mk.inj h
    obtain ⟨hhole, hho, hhc⟩ := holeLoop_spec hq
    refine ⟨hshape.trans hhole, fun u c hu => ?_, fun c hc => ?_⟩
    · rw [hho u c hu, hcopy u c (.inl hu)]
    · have hkc := hhc c
      rw [hshape.region] at hkc
      have hc := mem_range.mpr hc
      exact ((hall c hc).later (fun _ => rfl) Iff.rfl).outcome
        (hkc.imp (fun g => ⟨g.1, fun _ => g.2 hc⟩) id)
  · simp only [if_neg hl] at h
    obtain ⟨rfl, rfl⟩ := Prod.mk.inj h
    have hrc : (if w.first ≠ 0 then w.first else eio) ≠ 0 := by
      split
      · assumption
      · decide
    refine ⟨hshape, fun u c hu => hcopy u c (.inl hu), fun c hc => ?_⟩
    exact ((hall c (mem_range.mpr hc)).later (fun h => absurd h hl) Iff.rfl).outcome
      (.inl ⟨rfl, fun h => absurd h hrc⟩)

end Spool

end Write

/-! ## The operations -/

/-- `pool_write_flags`: every copy of the member is in one of the cases, with the region
among those written since the last root. -/
theorem Spool.writeFlags_outcome {dva : Nat} {onlineOnly : Bool}
    (hm : p.memberOf dva = some (v, blk)) (h : p.writeFlags dva x onlineOnly = (rc, q)) :
    Sized p q ∧ (∀ u c, u ≠ v → q.copy u c = p.copy u c) ∧
      ∀ c < (p.m v).ncopies, Outcome blk ((p.m v).region blk) x
        (insert ((p.m v).region blk) (p.m v).recent) (onlineOnly = true) (rc = 0) (p.copy v c)
        (q.copy v c) := by
  simp only [Spool.writeFlags, hm] at h
  obtain ⟨hshape, hother, hall⟩ := Spool.writeCopies_outcome h
  have hv : (p.modifyMember v fun m => m.markRecent blk).m v = (p.m v).markRecent blk :=
    update_self _ _ _
  have hsized : Sized p (p.modifyMember v fun m => m.markRecent blk) :=
    p.modifyMember_sized fun _ => ⟨rfl, rfl, rfl⟩
  have hcopy : ∀ u c, (p.modifyMember v fun m => m.markRecent blk).copy u c = p.copy u c :=
    fun u c => p.modifyMember_field (f := fun m => m.markRecent blk) (fun m => m.copy c)
      (fun _ => rfl) u
  refine ⟨hsized.trans hshape.toSized, fun u c hu => (hother u c hu).trans (hcopy u c),
    fun c hc => ?_⟩
  have h := hall c (by rw [hv]; exact hc)
  rw [hcopy, hv] at h
  exact h

theorem SpoolMember.one_lt_onlineCopies (m : SpoolMember β) {e : Nat} (hc : c < m.ncopies)
    (he : e < m.ncopies) (hne : c ≠ e) (hrc : (m.copy c).readable = true)
    (hre : (m.copy e).readable = true) : 1 < m.onlineCopies := by
  have hsub : [c, e] ⊆ (List.range m.ncopies).filter fun c => (m.copy c).readable := by
    intro i hi
    rcases mem_cons.mp hi with rfl | hi
    · exact mem_filter.mpr ⟨mem_range.mpr hc, hrc⟩
    · rw [mem_singleton.mp hi]
      exact mem_filter.mpr ⟨mem_range.mpr he, hre⟩
  have hnd : [c, e].Nodup := by simp [hne]
  rw [SpoolMember.onlineCopies, countP_eq_length_filter]
  exact (List.Nodup.subperm hnd hsub).length_le

/-- `pool_write_copy`: nothing, or the copy took the block, or it refused it; an ONLINE copy
that did has the region marked if another copy can be read. -/
theorem Spool.writeCopy_cases {dva : Nat} (h : p.writeCopy dva c x = (rc, q)) :
    (q = p ∧ rc ≠ 0 ∧ ∀ v blk, p.memberOf dva = some (v, blk) → c < (p.m v).ncopies →
        ¬ (p.copy v c).writable = true) ∨
      ∃ v blk, p.memberOf dva = some (v, blk) ∧ (p.copy v c).writable = true ∧
        Differs p q v c ∧
        (rc = 0 ∧ q.copy v c = (p.copy v c).put blk x ∨
          rc ≠ 0 ∧ ∃ k', Demoted (p.m v).recent
            ((p.copy v c).refused ((p.m v).region blk)) k' ∧
            (q.copy v c = k' ∧ (k'.state = .online → ∀ e < (p.m v).ncopies, e ≠ c →
                  (p.copy v e).readable = false) ∨
              q.copy v c = k'.mark ((p.m v).region blk))) := by
  rw [Spool.writeCopy] at h
  split at h
  · rename_i hm
    cases h
    exact .inl ⟨rfl, show einval ≠ 0 by decide, fun v blk h => by simp [hm] at h⟩
  rename_i v blk hm
  have hself : ∀ v' blk', p.memberOf dva = some (v', blk') → v' = v := fun v' blk' h =>
    (Prod.mk.inj (Option.some.inj (h.symm.trans hm))).1
  split at h
  · rename_i hc
    cases h
    refine .inl ⟨rfl, show einval ≠ 0 by decide, fun v' blk' h hc' => ?_⟩
    exact absurd (hself v' blk' h ▸ hc') hc
  rename_i hc
  have hc := not_not.mp hc
  split at h
  · rename_i hw
    cases h
    refine .inl ⟨rfl, show enodev ≠ 0 by decide, fun v' blk' h _ => ?_⟩
    rw [hself v' blk' h]
    exact hw
  rename_i hw
  have hw := not_not.mp hw
  rcases hq : p.writeOne v blk c x with ⟨rc₁, q₁⟩
  obtain ⟨hd, hcase⟩ := Spool.writeOne_spec hq
  simp only [hq] at h
  refine .inr ⟨v, blk, hm, hw, ?_⟩
  rcases hcase with ⟨rfl, hcopy⟩ | ⟨hrc, hdem⟩
  · rw [if_neg (by simp)] at h
    cases h
    exact ⟨hd, .inl ⟨rfl, hcopy⟩⟩
  split at h
  · cases h
    refine ⟨hd.trans (.modifyCopy q₁ v c _), .inr ⟨hrc, _, hdem, .inr ?_⟩⟩
    rw [Spool.copy_modifyCopy, hd.region]
  · rename_i hno
    cases h
    refine ⟨hd, .inr ⟨hrc, _, hdem, .inl ⟨rfl, fun ho e he hec => ?_⟩⟩⟩
    -- were another copy to be read, there would be two, and the region marked
    by_contra hre
    have hqc : (q.copy v c).readable = true := by
      have hqd : (q.copy v c).dev = (p.copy v c).dev := hdem.dev
      simp [PoolCopy.readable, hqd, (PoolCopy.writable_iff.mp hw).1, ho]
    have hqe : (q.copy v e).readable = true := by
      rw [hd.copy_of_ne hec]
      simpa using hre
    refine hno ⟨hrc, hdem.online_of ho, ho,
      (q.m v).one_lt_onlineCopies ?_ ?_ (Ne.symm hec) hqc hqe⟩
    · rw [hd.ncopies]
      exact hc
    · rw [hd.ncopies]
      exact he

/-! ## What lasts -/

/-- A property of the copies, by member, that all of them have. -/
def Spool.Every (I : Nat → PoolCopy β → Prop) (p : Spool β) : Prop :=
  ∀ v < p.nmembers, ∀ c < (p.m v).ncopies, I v (p.copy v c)

/-- A property of copies that failures do not end. -/
structure Lasting (I : Nat → PoolCopy β → Prop) : Prop where
  demoted : ∀ {v recent k k'}, I v k → Demoted recent k k' → I v k'
  counted : ∀ {v k}, I v k → I v { k with writeErrors := k.writeErrors + 1 }
  refused : ∀ {v k} (r : Nat), I v k → I v (k.refused r)
  mark : ∀ {v k} (r : Nat), I v k → I v (k.mark r)

/-- Copies of `p` failed, and nothing else. -/
structure Worn (p q : Spool β) : Prop extends Sized p q where
  every : ∀ I, Lasting I → p.Every I → q.Every I

section Lasting

variable {I : Nat → PoolCopy β → Prop}

theorem Spool.Every.differs (h : p.Every I) (hd : Differs p q v c)
    (hc : v < p.nmembers → c < (p.m v).ncopies → I v (q.copy v c)) : q.Every I := by
  intro w hw e he
  rw [hd.nmembers] at hw
  rw [hd.ncopies] at he
  exact hd.forall_copy (P := fun w e k => w < p.nmembers → e < (p.m w).ncopies → I w k) hc
    (fun hw he => h w hw e he) hw he

theorem Worn.refl (p : Spool β) : Worn p p := ⟨.refl p, fun _ _ => id⟩

theorem Worn.trans {r : Spool β} (h : Worn p q) (g : Worn q r) : Worn p r :=
  ⟨h.toSized.trans g.toSized, fun I hI hp => g.every I hI (h.every I hI hp)⟩

theorem Lessened.worn (h : Lessened p q) : Worn p q := by
  refine ⟨h.toSized, fun I hI hp v hv c hc => ?_⟩
  exact hI.demoted (hp v (h.nmembers ▸ hv) c (h.ncopies v ▸ hc)) (h.copies v c)

theorem Spool.flushTurn_worn (w : Spool.Flushing β) (v c : Nat) :
    Worn w.p (flushTurn v w c).p := by
  rw [flushTurn]
  split
  · exact .refl _
  rcases ha : w.p.answer with ⟨rc, q⟩
  obtain ⟨hans, hcopy⟩ := answer_spec ha v c
  have hq : Worn w.p q := Lessened.worn (Drops.lessened ⟨hans, hcopy ▸ .refl _ _⟩)
  dsimp only
  split
  · exact hq
  have hd := Differs.modifyCopy q v c fun k => { k with writeErrors := k.writeErrors + 1 }
  have hcount := hq.trans ⟨hd.toSized, fun I hI h => h.differs hd fun hv hc => by
    rw [copy_modifyCopy]
    exact hI.counted (h v hv c hc)⟩
  split
  · exact hcount.trans (copySetState_drops _ v c (by decide) (by decide)).lessened.worn
  split
  · exact hcount.trans (copySetState_drops _ v c (by decide) (by decide)).lessened.worn
  · exact hcount

theorem Spool.flush_worn (p : Spool β) : Worn p p.flush.2 := by
  refine foldlRecOn _ _ (motive := fun s : Int × Spool β => Worn p s.2) (.refl p)
    fun s hs v _ => ?_
  have hmember : Worn p ((List.range (s.2.m v).ncopies).foldl (flushTurn v) ⟨s.2, 0, false⟩).p :=
    foldlRecOn _ _ (motive := fun w : Flushing β => Worn p w.p) hs
      fun w hw c _ => hw.trans (flushTurn_worn w v c)
  rw [flushMember]
  split
  · exact hmember
  · exact hmember

/-- A write to one copy, of what keeps the property. -/
theorem Spool.Every.writeCopy {dva : Nat} (hI : Lasting I) (h : p.Every I)
    (hq : p.writeCopy dva c x = (rc, q))
    (hx : ∀ v blk k, p.memberOf dva = some (v, blk) → k.writable = true → I v k →
      I v (k.put blk x)) : Sized p q ∧ q.Every I := by
  rcases Spool.writeCopy_cases hq with ⟨rfl, -, -⟩ | ⟨v, blk, hm, hw, hd, hcase⟩
  · exact ⟨.refl _, h⟩
  refine ⟨hd.toSized, h.differs hd fun hv hc => ?_⟩
  have hk := h v hv c hc
  rcases hcase with ⟨-, hput⟩ | ⟨-, k', hdem, ⟨hk', -⟩ | hk'⟩
  · rw [hput]
    exact hx v blk _ hm hw hk
  · rw [hk']
    exact hI.demoted (hI.refused _ hk) hdem
  · rw [hk']
    exact hI.mark _ (hI.demoted (hI.refused _ hk) hdem)

end Lasting

end CosmoOS.Storage
