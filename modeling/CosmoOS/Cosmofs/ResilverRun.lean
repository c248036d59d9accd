import CosmoOS.Storage.Mirror
import CosmoOS.Cosmofs.ResilverFinish

/-!
# The resilver, over whole runs

Windows of the resilver, in any order with the writes, reads and flushes of the pool and with what
the filesystem puts in use and gives back.  The invariant is `Rebuilding`.

What is asked of the state before a window (`Orderly`) is about ONLINE targets alone: the copy with
holes is the last that can be read, no other walk has stopped inside a region, and the failures
counted since the target's own walk entered its region have not gone round.  The first is where the
order of `rsStep` fails: an ONLINE target with a lower number than a copy that can be read is itself
the source of its region's last block.
-/

namespace CosmoOS.Cosmofs

open CosmoOS.Storage Function

variable {β : Type} {r r' : RsFs β} {v c : Nat}

/-! ## A window -/

theorem takeSpare_eq {p q : Spool β} {d : Storage.Spare β} (h : p.takeSpare v = some (d, q)) :
    ∃ spares, q = { p with spares := spares } := by
  rw [Spool.takeSpare] at h
  split at h
  · split at h
    · cases h
    · obtain ⟨d', -, heq⟩ := Option.map_eq_some_iff.mp h
      exact ⟨_, (Prod.mk.inj heq).2.symm⟩
  · cases h

theorem Rebuilding.with_spares (h : Rebuilding r) (spares : List (Storage.Spare β)) :
    Readied r { r with p := { r.p with spares := spares } } :=
  ⟨.kept, rfl, ⟨rfl, fun _ => rfl, fun _ => rfl, fun _ => rfl⟩,
    fun _ _ => .inl rfl, { h with }⟩

theorem copyReplaceDev_spec {p q : Spool β} {d : Storage.Spare β} {rc : Int}
    (h : p.copyReplaceDev v c d .resilvering = (rc, q)) :
    q = p ∧ rc ≠ 0 ∨ rc = 0 ∧ Differs p q v c ∧ (q.copy v c).whole = true := by
  rw [Spool.copyReplaceDev] at h
  split at h
  · cases h
    exact .inl ⟨rfl, show einval ≠ 0 by decide⟩
  split at h
  · cases h
    exact .inl ⟨rfl, show ebusy ≠ 0 by decide⟩
  split at h
  · cases h
    exact .inl ⟨rfl, show einval ≠ 0 by decide⟩
  · cases h
    refine .inr ⟨rfl, .modifyCopy _ _ _ _, ?_⟩
    rw [Spool.copy_modifyCopy]
    rfl

theorem rsTakeover_readied (h : Rebuilding r) (v c : Nat) : Readied r (r.rsTakeover v c).2 := by
  rw [RsFs.rsTakeover]
  split
  · exact .refl h
  rename_i d q htake
  obtain ⟨spares, rfl⟩ := takeSpare_eq htake
  have hready := h.with_spares spares
  rcases hreplace : Spool.copyReplaceDev { r.p with spares := spares } v c d .resilvering with
    ⟨rc, q⟩
  dsimp only
  rcases copyReplaceDev_spec hreplace with ⟨rfl, hrc⟩ | ⟨rfl, hd, hw⟩
  · rw [if_pos hrc]
    exact h.with_spares _
  rw [if_neg (by simp)]
  -- the spare's device, and its tag
  rcases hs : RsFs.rsStart { r with p := q.modifyCopy v c fun k => { k with tag := d.tag } } v c
    with ⟨rc, r₁⟩
  obtain ⟨htouch, hstart⟩ := rsStart_touched hs
  have hdiff := (hd.trans (.modifyCopy q v c fun k => { k with tag := d.tag })).trans htouch.differs
  have hwhole : (r₁.p.copy v c).whole = true := by
    rw [htouch.whole, Spool.copy_modifyCopy]
    exact hw
  have hframe : Frame { r with p := { r.p with spares := spares } } r₁ :=
    { htouch.frame with }
  dsimp only
  split
  · refine hready.trans (.replaced (v := v) (c := c) hready.rebuilding (hframe.trans .kept)
      htouch.errors (hdiff.trans (.modifyCopy _ _ _ _)) (.inr (.inl ?_)))
    rw [RsFs.modifyCopy, Spool.copy_modifyCopy]
  · rename_i hrc
    obtain ⟨hst, hcur⟩ := hstart (not_not.mp hrc)
    exact hready.trans (.replaced hready.rebuilding hframe htouch.errors hdiff
      (.inr (.inr ⟨hst, hwhole, hcur⟩)))

theorem takeSpares_readied (h : Rebuilding r) : Readied r r.takeSpares.2 := by
  refine List.foldlRecOn _ _ (motive := fun s : Bool × RsFs β => Readied r s.2) (.refl h)
    fun s hs v _ => ?_
  refine List.foldlRecOn _ _ (motive := fun s : Bool × RsFs β => Readied r s.2) hs
    fun t ht c _ => ?_
  dsimp only
  split
  · exact ht.trans (rsTakeover_readied ht.rebuilding v c)
  · exact ht

theorem markGone_readied (h : Rebuilding r) : Readied r { r with p := RsFs.markGone r.p } := by
  refine List.foldlRecOn _ _ (motive := fun q => Readied r { r with p := q }) (.refl h)
    fun q hq v _ => ?_
  refine List.foldlRecOn _ _ (motive := fun q => Readied r { r with p := q }) hq
    fun q hq c _ => ?_
  dsimp only
  split
  · have hd := q.copySetState_drops v c (s := .missing) (by decide) (by decide)
    refine hq.trans ⟨.kept, rfl, hd.toSized, fun w e => ?_,
      hq.rebuilding.worn hd.lessened.worn⟩
    by_cases hne : (w, e) = (v, c)
    · obtain ⟨rfl, rfl⟩ := Prod.mk.inj hne
      rcases q.copySetState_cases w e .missing with heq | ⟨heq, -⟩
      · rw [heq]
        exact .inl rfl
      · refine .inr ?_
        rw [heq, Spool.copy_modifyCopy]
        show CopyState.missing ≠ .online
        decide
    · exact .inl (hd.copy w e hne)
  · exact hq

/-! ## The target -/

theorem targetIn_some {p : Spool β} (h : RsFs.targetIn p v = some c) :
    c < (p.m v).ncopies ∧ ((p.copy v c).state = .resilvering ∨
      (p.copy v c).state = .online ∧ p.copyAnyMissed v c = true) := by
  rw [RsFs.targetIn] at h
  split at h
  · cases h
  · split at h
    · rename_i c' hfind
      cases h
      have hp := List.find?_some hfind
      rw [Bool.and_eq_true, decide_eq_true_eq] at hp
      exact ⟨List.mem_range.mp (List.mem_of_find?_eq_some hfind), .inl hp.1⟩
    · split at h
      · cases h
      · have hp := List.find?_some h
        rw [Bool.and_eq_true, Bool.and_eq_true, decide_eq_true_eq] at hp
        exact ⟨List.mem_range.mp (List.mem_of_find?_eq_some h), .inr ⟨hp.1.1, hp.2⟩⟩

theorem rsTarget_some {p : Spool β} (h : RsFs.rsTarget p = some (v, c)) :
    v < p.nmembers ∧ c < (p.m v).ncopies ∧ ((p.copy v c).state = .resilvering ∨
      (p.copy v c).state = .online ∧ p.copyAnyMissed v c = true) := by
  obtain ⟨w, hw, hmap⟩ := List.exists_of_findSome?_eq_some h
  obtain ⟨e, he, heq⟩ := Option.map_eq_some_iff.mp hmap
  cases heq
  exact ⟨List.mem_range.mp hw, targetIn_some he⟩

/-- The copy is the last of its member that can be read, and no other walk is inside a
region. -/
def Alone (p : Spool β) (v c : Nat) : Prop :=
  (∀ e < (p.m v).ncopies, c < e → (p.copy v e).readable = false) ∧
    ∀ w < p.nmembers, ∀ e < (p.m w).ncopies, (w, e) ≠ (v, c) → (p.copy w e).state = .online →
      (p.copy w e).cursor % (p.m w).regionBlocks = 0

instance (p : Spool β) (v c : Nat) : Decidable (Alone p v c) :=
  inferInstanceAs (Decidable ((∀ e < (p.m v).ncopies, c < e → (p.copy v e).readable = false) ∧ _))

/-- What is asked of the state before a window, of every ONLINE copy. -/
def Orderly (r : RsFs β) : Prop :=
  ∀ v < r.p.nmembers, ∀ c < (r.p.m v).ncopies, (r.p.copy v c).state = .online →
    ((r.p.copy v c).cursor % (r.p.m v).regionBlocks ≠ 0 →
      (r.p.copy v c).writeErrors + (r.p.m v).regionBlocks < r.rsRegionErrors + 2 ^ 32) ∧
    (r.p.copyAnyMissed v c = true → Alone r.p v c)

instance (r : RsFs β) : Decidable (Orderly r) := by
  unfold Orderly
  infer_instance

theorem Readied.walking (h : Readied r r') (ho : Orderly r)
    (ht : RsFs.rsTarget r'.p = some (v, c)) : Walking r' v c := by
  obtain ⟨hv, hc, hstate⟩ := rsTarget_some ht
  have hv₀ : v < r.p.nmembers := h.sized.nmembers ▸ hv
  have hc₀ : c < (r.p.m v).ncopies := h.sized.ncopies v ▸ hc
  -- an ONLINE target is as it was before the window
  have honline : (r'.p.copy v c).state = .online → r'.p.copy v c = r.p.copy v c ∧
      r.p.copyAnyMissed v c = true := by
    intro hs
    have heq := (h.copies v c).resolve_right (not_not.mpr hs)
    refine ⟨heq, ?_⟩
    have hmiss := (hstate.resolve_left fun hr => absurd (hr.symm.trans hs) (by decide)).2
    rwa [Spool.copyAnyMissed, h.sized.nmembers, h.sized.ncopies, heq] at hmiss
  refine ⟨h.rebuilding, hv, hc, fun hs e he hce => ?_, fun hs w hw e he hne hon => ?_,
    fun hs hin => ?_⟩
  · obtain ⟨heq, hmiss⟩ := honline hs
    have hlast := ((ho v hv₀ c hc₀ (heq ▸ hs)).2 hmiss).1 e (h.sized.ncopies v ▸ he) hce
    rcases h.copies v e with hsame | hoff
    · rw [hsame]
      exact hlast
    · rw [PoolCopy.readable, decide_eq_false hoff, Bool.and_false]
  · obtain ⟨heq, hmiss⟩ := honline hs
    have hsame := (h.copies w e).resolve_right (not_not.mpr hon)
    rw [hsame, h.sized.regionBlocks]
    exact ((ho v hv₀ c hc₀ (heq ▸ hs)).2 hmiss).2 w (h.sized.nmembers ▸ hw) e
      (h.sized.ncopies w ▸ he) hne (hsame ▸ hon)
  · obtain ⟨heq, -⟩ := honline hs
    rw [heq, h.sized.regionBlocks] at hin ⊢
    rw [h.errors]
    have := (ho v hv₀ c hc₀ (heq ▸ hs)).1 hin
    omega

/-- **A window keeps the invariant.** -/
theorem Rebuilding.window [DecidableEq β] (h : Rebuilding r) (ho : Orderly r)
    (budget : Option Nat) : Rebuilding (r.rsStep budget).2 ∧ Frame r (r.rsStep budget).2 := by
  rw [RsFs.rsStep]
  split
  · exact ⟨h, .refl r⟩
  have hgone := markGone_readied h
  have hready := hgone.trans (takeSpares_readied hgone.rebuilding)
  rcases hspares : RsFs.takeSpares { r with p := RsFs.markGone r.p } with ⟨took, r₁⟩
  rw [hspares] at hready
  dsimp only at hready ⊢
  split
  · exact ⟨hready.rebuilding, hready.frame⟩
  rename_i v c htarget
  rcases hrun : RsFs.rsWalk v c ((r₁.mem v).nblocks + 1) budget r₁ with ⟨finished, r₂⟩
  obtain ⟨hwalk, hframe, -, hover⟩ := (hready.walking ho htarget).walk _ (by omega) hrun
  have hframe' := hready.frame.trans hframe
  cases finished with
  | false => exact ⟨hwalk.rebuilding, hframe'⟩
  | true =>
    have hn : (r₂.mem v).nblocks ≤ (r₂.p.copy v c).cursor := by
      rw [hframe.mem]
      exact hover rfl
    obtain ⟨hend, hframe''⟩ := hwalk.ended hn
    exact ⟨hend, hframe'.trans hframe''⟩

/-! ## The pool, and what is in use -/

namespace RsFs

/-- The filesystem keeps data in the block. -/
def inUse (r : RsFs β) (v b : Nat) : Bool :=
  b < (r.mem v).nblocks && if b < (r.mem v).firstUsable then v = 0 else r.bitmap v b

/-- A pool write, and the history of it. -/
def written (r : RsFs β) (dva : Nat) (x : β) (onlineOnly : Bool) : RsFs β :=
  match r.p.memberOf dva with
  | none => r
  | some (v, blk) =>
    match r.p.writeFlags dva x onlineOnly with
    | (rc, p) =>
      if rc = 0 then
        { r with
          p := p
          last := update r.last v (update (r.last v) blk x)
          live := update r.live v (update (r.live v) blk (r.inUse v blk))
          lost := update r.lost v (update (r.lost v) blk false) }
      else { r with p := p }

/-- What is asked of a pool write.  The root's, which passes over a copy that is being rebuilt,
is to a block below `first_usable`; and one to a block in use that such a copy is done with is
taken by an ONLINE copy. -/
def Sound (r : RsFs β) (dva : Nat) (x : β) (onlineOnly : Bool) : Prop :=
  ∀ v blk, r.p.memberOf dva = some (v, blk) →
    (onlineOnly = true → blk < (r.mem v).firstUsable) ∧
    (r.live v blk = true → (∃ c < (r.p.m v).ncopies,
      Done (r.p.m v).regionBlocks (r.mem v).firstUsable blk (r.p.copy v c)) →
        (r.p.writeFlags dva x onlineOnly).1 = 0)

/-- A block is allocated: it is in use once it has been written. -/
def alloc (r : RsFs β) (v b : Nat) : RsFs β :=
  if r.bitmap v b = false ∧ (r.mem v).firstUsable ≤ b then
    { r with
      bitmap := update r.bitmap v (update (r.bitmap v) b true)
      live := update r.live v (update (r.live v) b false) }
  else r

/-- A block is given back. -/
def free (r : RsFs β) (v b : Nat) : RsFs β :=
  if (r.mem v).firstUsable ≤ b then
    { r with
      bitmap := update r.bitmap v (update (r.bitmap v) b false)
      live := update r.live v (update (r.live v) b false) }
  else r

end RsFs

section Operations

variable {γ : Type}

theorem update_entry_self (f : Nat → Nat → γ) (v b : Nat) (x : γ) :
    update f v (update (f v) b x) v b = x := by
  rw [update_self, update_self]

theorem update_entry_of_ne (f : Nat → Nat → γ) {v b w a : Nat} (x : γ) (h : (w, a) ≠ (v, b)) :
    update f v (update (f v) b x) w a = f w a := by
  by_cases hw : w = v
  · subst hw
    have ha : a ≠ b := fun heq => h (by rw [heq])
    rw [update_self, update_of_ne ha]
  · rw [update_of_ne hw]

section

variable (h : Rebuilding r)

include h

theorem Rebuilding.due_mono (hp : r'.p = r.p) (hmem : r'.mem = r.mem)
    (herr : r'.rsRegionErrors = r.rsRegionErrors) (hdue : ∀ v b x, r.Due v b x → r'.Due v b x)
    (hused : ∀ v b, r'.live v b = true → r.live v b = true ∧
      (r.bitmap v b = true → r'.bitmap v b = true)) : Rebuilding r' := by
  refine h.next (by rw [hp]) (fun _ => by rw [hp]) hmem (fun v b hlive => ?_) fun v hv c hc => ?_
  · obtain ⟨hold, hbm⟩ := hused v b hlive
    obtain ⟨hlt, huse, hlow⟩ := h.used v b hold
    exact ⟨hlt, huse.imp hbm id, hlow⟩
  · rw [hp] at hv hc
    rw [RsFs.Tracks, hp, hmem, herr]
    exact (h.copies v hv c hc).mono (hdue v)

/-- One block is no longer in use. -/
theorem Rebuilding.dropped (v b : Nat) {bitmap : Nat → Nat → Bool}
    (hbm : ∀ w a, (w, a) ≠ (v, b) → bitmap w a = r.bitmap w a) :
    Rebuilding { r with
      bitmap := bitmap
      live := update r.live v (update (r.live v) b false) } := by
  have hlive : ∀ w a, update r.live v (update (r.live v) b false) w a = true →
      (w, a) ≠ (v, b) ∧ r.live w a = true := by
    intro w a hl
    by_cases hne : (w, a) = (v, b)
    · cases hne
      rw [update_entry_self] at hl
      cases hl
    · rw [update_entry_of_ne _ _ hne] at hl
      exact ⟨hne, hl⟩
  refine h.due_mono rfl rfl rfl (fun w a x hx hl => hx (hlive w a hl).2) fun w a hl => ?_
  obtain ⟨hne, hold⟩ := hlive w a hl
  exact ⟨hold, fun hb => (hbm w a hne).trans hb⟩

theorem Rebuilding.alloc (v b : Nat) : Rebuilding (r.alloc v b) := by
  rw [RsFs.alloc]
  split
  · exact h.dropped v b fun w a hne => update_entry_of_ne _ _ hne
  · exact h

theorem Rebuilding.free (v b : Nat) : Rebuilding (r.free v b) := by
  rw [RsFs.free]
  split
  · exact h.dropped v b fun w a hne => update_entry_of_ne _ _ hne
  · exact h

/-- One block of a member changes, and what is due of it. -/
theorem Rebuilding.entry (v blk : Nat) (hs : Sized r.p r'.p) (hmem : r'.mem = r.mem)
    (herr : r'.rsRegionErrors = r.rsRegionErrors)
    (hdue : ∀ w b y, (w, b) ≠ (v, blk) → r.Due w b y → r'.Due w b y)
    (hother : ∀ w c, w ≠ v → r'.p.copy w c = r.p.copy w c)
    (hself : v < r.p.nmembers → ∀ c < (r.p.m v).ncopies, Tracked (r.p.m v).regionBlocks
      (r.mem v).firstUsable r.rsRegionErrors (r'.Due v) (r'.p.copy v c))
    (hused : ∀ w b, r'.live w b = true → b < (r.mem w).nblocks ∧
      (r'.bitmap w b = true ∨ b < (r.mem w).firstUsable) ∧
        (b < (r.mem w).firstUsable → w = 0)) : Rebuilding r' := by
  refine h.next hs.nmembers hs.nblocks hmem hused fun w hw c hc => ?_
  rw [hs.nmembers] at hw
  rw [hs.ncopies] at hc
  rw [RsFs.Tracks, hs.regionBlocks, hmem, herr]
  by_cases hwv : w = v
  · subst hwv
    exact hself hw c hc
  · rw [hother w c hwv]
    exact (h.copies w hw c hc).mono fun b y => hdue w b y fun heq => hwv (Prod.mk.inj heq).1

/-- **A pool write keeps the invariant.** -/
theorem Rebuilding.written {dva : Nat} {x : β} {onlineOnly : Bool}
    (ho : r.Sound dva x onlineOnly) : Rebuilding (r.written dva x onlineOnly) := by
  rw [RsFs.written]
  split
  · exact h
  rename_i v blk hm
  obtain ⟨hv, hblk⟩ := Spool.memberOf_some hm
  rcases hq : r.p.writeFlags dva x onlineOnly with ⟨rc, p⟩
  obtain ⟨hsized, hother, hcopies⟩ := Spool.writeFlags_outcome hm hq
  rw [((r.p.m v).region_eq hblk).1] at hcopies
  dsimp only
  split
  · -- what was written is what is due of the block now
    rename_i hrc
    have hdue : ∀ w b y, (w, b) ≠ (v, blk) → r.Due w b y →
        RsFs.Due { r with
          last := update r.last v (update (r.last v) blk x)
          live := update r.live v (update (r.live v) blk (r.inUse v blk))
          lost := update r.lost v (update (r.lost v) blk false) } w b y := by
      intro w b y hne hy hlive hlost
      dsimp only at hlive hlost ⊢
      rw [update_entry_of_ne _ _ hne] at hlive hlost ⊢
      exact hy hlive hlost
    refine h.entry v blk hsized rfl rfl hdue hother (fun _ c hc => ?_) fun w b hlive => ?_
    · refine (h.copies v hv c hc).outcome (hcopies c hc) (fun b y hne => ?_) (fun _ _ => ?_)
        (fun hl => absurd hrc hl) (ho v blk hm).1
      · exact hdue v b y fun heq => hne (Prod.mk.inj heq).2
      · exact (update_entry_self _ _ _ _).symm
    · dsimp only at hlive ⊢
      by_cases hne : (w, b) = (v, blk)
      · cases hne
        rw [update_entry_self, RsFs.inUse, Bool.and_eq_true, decide_eq_true_eq] at hlive
        refine ⟨hlive.1, ?_⟩
        split at hlive
        · exact ⟨.inr ‹_›, fun _ => of_decide_eq_true hlive.2⟩
        · exact ⟨.inl hlive.2, fun hlow => absurd hlow ‹_›⟩
      · rw [update_entry_of_ne _ _ hne] at hlive
        exact h.used w b hlive
  · rename_i hrc
    refine h.entry v blk hsized rfl rfl (fun _ _ _ _ hy => hy) hother (fun _ c hc => ?_) h.used
    refine (h.copies v hv c hc).unlanded (hcopies c hc) hrc fun hdone y hlive => absurd ?_ hrc
    have hland := (ho v blk hm).2 hlive ⟨c, hc, hdone⟩
    rwa [hq] at hland

end

end Operations

/-! ## Runs -/

/-- What happens to a mounted filesystem's pool. -/
inductive RsOp (β : Type)
  /-- `pool_write`, and the root's write, which passes over a copy that is being rebuilt. -/
  | write (dva : Nat) (x : β) (onlineOnly : Bool)
  | read (dva : Nat)
  | flush
  | commitDone (gen : Nat)
  | setFaultErrors (limit : Nat)
  /-- A device is unregistered. -/
  | unplug (v c : Nat)
  | alloc (v b : Nat)
  | free (v b : Nat)
  /-- `rsStep`, with what the pacing leaves it. -/
  | window (budget : Option Nat)

namespace RsFs

variable [DecidableEq β]

def step (r : RsFs β) : RsOp β → RsFs β
  | .write dva x onlineOnly => r.written dva x onlineOnly
  | .read dva => { r with p := (r.p.read dva).2 }
  | .flush => { r with p := r.p.flush.2 }
  | .commitDone gen => { r with p := r.p.commitDone gen }
  | .setFaultErrors limit => { r with p := { r.p with faultErrors := limit } }
  | .unplug v c => r.modifyCopy v c fun k => { k with gone := true }
  | .alloc v b => r.alloc v b
  | .free v b => r.free v b
  | .window budget => (r.rsStep budget).2

def run (r : RsFs β) (ops : List (RsOp β)) : RsFs β := ops.foldl step r

/-- Writes are sound, and a window finds the pool in order. -/
def Allowed (r : RsFs β) : RsOp β → Prop
  | .write dva x onlineOnly => r.Sound dva x onlineOnly
  | .window _ => Orderly r
  | _ => True

def AllAllowed : RsFs β → List (RsOp β) → Prop
  | _, [] => True
  | r, op :: ops => r.Allowed op ∧ AllAllowed (r.step op) ops

end RsFs

section Runs

variable [DecidableEq β]

/-- **A step keeps the invariant.** -/
theorem Rebuilding.step {op : RsOp β} (h : Rebuilding r) (hop : r.Allowed op) :
    Rebuilding (r.step op) := by
  cases op with
  | write dva x onlineOnly => exact h.written hop
  | read dva => exact h.worn (Spool.read_spec rfl).1.worn
  | flush => exact h.worn r.p.flush_worn
  | commitDone gen => exact { h with }
  | setFaultErrors limit => exact { h with }
  | unplug v c =>
    refine h.differs (.modifyCopy _ v c _) fun hv hc => ?_
    have htr := h.copies v hv c hc
    rw [Spool.copy_modifyCopy]
    exact ⟨htr.online, htr.walk, htr.rebuild⟩
  | alloc v b => exact h.alloc v b
  | free v b => exact h.free v b
  | window budget => exact (h.window hop budget).1

theorem Rebuilding.run {ops : List (RsOp β)} (h : Rebuilding r) (hops : r.AllAllowed ops) :
    Rebuilding (r.run ops) := by
  induction ops generalizing r with
  | nil => exact h
  | cons op ops ih => exact ih (h.step hops.1) hops.2

/-- The walk of a copy has passed the region of a block. -/
def Passed (r : RsFs β) (v c b : Nat) : Prop :=
  b / (r.p.m v).regionBlocks < (r.p.copy v c).cursor / (r.p.m v).regionBlocks ∨
    (r.mem v).nblocks ≤ (r.p.copy v c).cursor

/-- **A region that is not marked is as it should be.**  In every run of writes, reads,
flushes, roots, allocations and windows of the resilver, with the devices failing anywhere,
whose windows find the pool in order: a block of an ONLINE copy's unmarked region, and one of
a region that the walk of a RESILVERING copy has passed and left unmarked, holds the data of
the last successful pool write to it if it is in use, unless no other copy could be read; and
so does what a read of the pool gives. -/
theorem unmarked_current (r : RsFs β) (h : Rebuilding r) (ops : List (RsOp β))
    (hops : r.AllAllowed ops) :
    (∀ v c b d, v < (r.run ops).p.nmembers → c < ((r.run ops).p.m v).ncopies →
      ((r.run ops).p.copy v c).dev = some d →
      b / ((r.run ops).p.m v).regionBlocks ∉ ((r.run ops).p.copy v c).dirty →
      ((r.run ops).p.copy v c).state = .online ∨
        ((r.run ops).p.copy v c).state = .resilvering ∧
          ((r.run ops).mem v).firstUsable ≤ b ∧ Passed (r.run ops) v c b →
      (r.run ops).Due v b (d b)) ∧
    ∀ dva v blk x, (r.run ops).p.memberOf dva = some (v, blk) →
      ((r.run ops).p.read dva).1 = .ok x → (r.run ops).Due v blk x := by
  have hrun := h.run hops
  refine ⟨fun v c b d hv hc hd hb hcase => ?_, fun dva v blk x hm hx =>
    hrun.read_due hm (Prod.ext hx rfl)⟩
  have htr := hrun.copies v hv c hc
  rcases hcase with hs | ⟨hs, hf, hpassed⟩
  · exact htr.online hs d hd b hb
  · -- a block of a passed region is behind the cursor, or past the end of the member
    rcases hpassed with hlt | hend
    · have hbehind : b < ((r.run ops).p.copy v c).cursor :=
        lt_of_not_ge fun hge => absurd (Nat.div_le_div_right hge) (not_le.mpr hlt)
      exact htr.rebuild hs d hd b hf hb (fun _ => hbehind) fun _ _ => hbehind
    · by_cases hlt : b < ((r.run ops).mem v).nblocks
      · exact htr.rebuild hs d hd b hf hb (fun _ => by omega) fun _ _ => by omega
      · exact hrun.due_end (by omega) _

end Runs

/-! ## A member of two copies -/

/-- A filesystem on a member of two copies, all of whose blocks are in use and hold 0. -/
def zeroFs (answers : List Int) : RsFs Nat where
  p := zeroPool answers
  mem _ := ⟨8, 2, Nat.two_pos, by decide⟩
  bitmap _ _ := true
  failed := false
  rdonly := false
  version := 13
  label _ _ := 1
  targetLabel _ := 2
  zeroBlock := 0
  rsRegionErrors := 0
  rsDisagree := 0
  coins := []
  tags := []
  last _ _ := 0
  live v b := v = 0 && b < 8
  lost _ _ := false

theorem zeroFs_rebuilding (answers : List Int) : Rebuilding (zeroFs answers) := by
  refine ⟨fun v hv c hc => ⟨fun _ d hd b _ _ _ => ?_, fun _ _ _ hin => ?_, fun hs => ?_⟩,
    fun v hv => ?_, fun v hv => ?_, fun v b hl => ?_⟩
  · cases hd
    rfl
  · exact absurd (Nat.mod_one _) hin
  · exact absurd hs (show CopyState.online ≠ .resilvering by decide)
  · show 8 ≤ 8
    decide
  · show 2 ≤ 8
    decide
  · have hl : (decide (v = 0) && decide (b < 8)) = true := hl
    rw [Bool.and_eq_true, decide_eq_true_eq, decide_eq_true_eq] at hl
    exact ⟨hl.2, .inl rfl, fun _ => hl.1⟩

theorem zeroFs_allowed : (zeroFs [0, -5]).AllAllowed [.write 3 7 false, .window none] :=
  ⟨fun _ _ _ => ⟨fun h => absurd h (by decide), fun _ _ => by decide⟩,
    show Orderly ((zeroFs [0, -5]).step (.write 3 7 false)) by decide, trivial⟩

/-- The second copy misses a write and the next window fills its hole. -/
theorem unmarked_current_second :
    ((zeroFs [0, -5]).run [.write 3 7 false]).p.copyAnyMissed 0 1 = true ∧
      ((zeroFs [0, -5]).run [.write 3 7 false, .window none]).p.copyAnyMissed 0 1 = false ∧
      (((zeroFs [0, -5]).run [.write 3 7 false, .window none]).p.copy 0 1).dev.map (fun d => d 3) =
        some 7 ∧
      ((zeroFs [0, -5]).run [.write 3 7 false, .window none]).Due 0 3 7 :=
  ⟨by decide, by decide, by decide, (unmarked_current (zeroFs [0, -5]) (zeroFs_rebuilding _)
    [.write 3 7 false, .window none] zeroFs_allowed).2 3 0 3 7 rfl rfl⟩

/-- **The first copy misses a write and the next window loses it.**  The mark of the region
goes before its block is read, and the read is of the target: it stays ONLINE, without a hole,
and with what it had before the write. -/
theorem rsStep_first_copy_stale :
    ((zeroFs [-5]).run [.write 3 7 false]).p.copyAnyMissed 0 0 = true ∧
      ((zeroFs [-5]).run [.write 3 7 false, .window none]).p.copyAnyMissed 0 0 = false ∧
      ((zeroFs [-5]).run [.write 3 7 false, .window none]).live 0 3 = true ∧
      ((zeroFs [-5]).run [.write 3 7 false, .window none]).lost 0 3 = false ∧
      ((zeroFs [-5]).run [.write 3 7 false, .window none]).last 0 3 = 7 ∧
      (((zeroFs [-5]).run [.write 3 7 false, .window none]).p.copy 0 1).dev.map (fun d => d 3) =
        some 7 ∧
      (((zeroFs [-5]).run [.write 3 7 false, .window none]).p.read 3).1 = .ok 0 := by
  decide

/-- A write that only a copy being rebuilt took is not marked on it: the window turns it ONLINE
with data no write has succeeded with. -/
example :
    let r := ((zeroFs [-5]).modifyCopy 0 1 fun k => { k with state := .resilvering }).run
      [.write 3 7 false, .window none]
    (r.p.copy 0 1).state = .online ∧ r.p.copyAnyMissed 0 1 = false ∧
      (r.p.copy 0 1).dev.map (fun d => d 3) = some 7 ∧ r.live 0 3 = true ∧ r.lost 0 3 = false ∧
      r.last 0 3 = 0 := by
  decide

end CosmoOS.Cosmofs
