import CosmoOS.Cosmofs.ExtentStore

/-!
# New and copied metadata blocks, and the raise of the snapshot list

`bufNew` and `bufCow` of `cosmofs_buf.cee` are how every metadata tree other than the extent chain
is written: a fresh zeroed block, or a copy of a committed one whose old block is given back.  They
allocate as they go, so a change can stop half way; what a caller may rely on then is `Aside`: every
block that was allocated is still and reads as it did.

The raise (`snapRaise` of `cosmofs_snap.cee`) is here because a checksum tree that outgrows one
level, and a long name, raise the format through it.
-/

namespace CosmoOS.Cosmofs

open Lib Fallible

variable {got : Nat} {r : Except Errno Nat}

/-! ## The functions -/

/-- A fresh zeroed metadata block of `kind`, dirty. -/
def bufNew (kind : Kind) : M Nat := do
  let blk ← allocBlock
  onError (mayFail .enomem) (modify (freeBlockDeferred blk))
  modify fun s => setBuf blk ⟨s.gen, Payload.zero kind⟩ s
  pure blk

/-- Where the copy of a block should go: on the member the block is on. -/
def cowHint (g : Geometry) (d : Nat) : Nat :=
  match g.members[dvaVdev d]? with
  | some m => dvaOf (dvaVdev d) m.firstUsable
  | none => 0

/-- Copy a block of a committed generation to a new block in this one; a block already this
generation's is only marked dirty. -/
def bufCow (d : Nat) (b : MBlock) : M Nat := do
  let gen ← gets Fs.gen
  if b.gen = gen then do
    modify (setBuf d b)
    pure d
  else do
    let g ← gets Fs.geo
    let r ← allocRun .metadata (cowHint g d) 1
    onError (mayFail .enomem) (modify (freeBlockDeferred r.1))
    modify (setBuf r.1 ⟨gen, b.payload⟩)
    modify (freeBlockDeferred d)
    pure r.1

/-- The transaction is abandoned: no commit publishes it. -/
def cfsFail (e : Errno) (s : Fs) : Fs :=
  if s.failed = none then { s with failed := some e } else s

/-- Run, and abandon the transaction when it fails. -/
def orFail {α : Type} (m : M α) : M α := fun s =>
  match m s with
  | (.ok a, t) => (.ok a, t)
  | (.error e, t) => (.error e, cfsFail e t)

/-- Blocks of a list followed before it is called a cycle (`CFS_SNAP_MAX_CHAIN`). -/
def snapMaxChain : Nat := 4096

/-- Entries of a version 12 list block (`CFS_SNAPS_PER_BLOCK2`). -/
def snapsPerBlock2 : Nat := 31

/-- A block of the version 11 list. -/
def snaplistGet (d : Nat) : M (Nat × List (Option Snapshot)) := do
  let b ← bufGet d (some .snaplist)
  match b.payload with
  | .snaplist next snap => pure (next, snap)
  | _ => fail .eio

/-- Every live entry of the version 11 list from `blk` on. -/
def snapWalk : Nat → Nat → M (List Snapshot)
  | fuel, blk =>
    if blk = 0 then pure []
    else
      match fuel with
      | 0 => fail .eio
      | fuel + 1 => do
        let r ← snaplistGet blk
        let rest ← snapWalk fuel r.1
        pure (r.2.filterMap id ++ rest)

/-- The blocks of the version 11 list from `blk` on go, exempt: no snapshot preserves
them. -/
def dropSnaplist : Nat → Nat → M Unit
  | fuel, blk =>
    if blk = 0 then pure ()
    else
      match fuel with
      | 0 => fail .eio
      | fuel + 1 => do
        let r ← snaplistGet blk
        modify (freeBlockExempt blk)
        dropSnaplist fuel r.1

/-- One block of the version 12 list, in front of the others. -/
def pushSnaplist2 (maxId : Nat) (snap : List Snapshot) : M Unit := do
  let blk ← bufNew .snaplist2
  modify fun s => setBuf blk ⟨s.gen, .snaplist2 s.sb.snapRoot maxId (snap.map some)⟩ s
  modify fun s => { s with sb := { s.sb with snapRoot := blk } }

/-- The entries as blocks of the version 12 list; `fuel` is their number. -/
def writeSnaplist2 (maxId : Nat) : Nat → List Snapshot → M Unit
  | 0, _ => pure ()
  | fuel + 1, snaps =>
    if snaps = [] then pure ()
    else do
      pushSnaplist2 maxId (snaps.take snapsPerBlock2)
      writeSnaplist2 maxId fuel (snaps.drop snapsPerBlock2)

/-- A uuid for each entry, unlike those given so far. -/
def giveUuids (newUuid : List Nat → Nat) : List Nat → List Snapshot → List Snapshot
  | _, [] => []
  | given, e :: es =>
    { e with uuid := newUuid given } :: giveUuids newUuid (newUuid given :: given) es

/-- What of a raise can fail without having changed anything: the entries with their
uuids. -/
def raisePlan (newUuid : List Nat → Nat) : M (List Snapshot) := do
  let root ← gets fun s => s.sb.snapRoot
  let first ← snapWalk (snapMaxChain + 1) root
  runIf (first.length ≠ 0) (mayFail .enomem)
  let all ← snapWalk (snapMaxChain + 1) root
  if all.length ≠ first.length then fail .eio
  else do
    mayFail .enomem
    pure (giveUuids newUuid [] all)

/-- The change of a raise. -/
def raiseApply (maxId : Nat) (all : List Snapshot) : M Unit := do
  let root ← gets fun s => s.sb.snapRoot
  dropSnaplist (snapMaxChain + 1) root
  modify fun s => { s with sb := { s.sb with snapRoot := 0, version := 12 } }
  writeSnaplist2 maxId all.length all

/-- Raise a version 11 pool to 12. -/
def snapRaise (newUuid : List Nat → Nat) : M Unit := do
  let v ← gets fun s => s.sb.version
  if v ≥ 12 then pure ()
  else if v < 11 then fail .eopnotsupp
  else do
    let all ← raisePlan newUuid
    let before ← gets Fs.snapMaxId
    let maxId := (all.map Snapshot.id).foldl max before
    orFail (raiseApply maxId all)
    modify fun s => { s with snapMaxId := maxId }

/-! ## What may happen beside a block -/

/-- The open transaction went on: blocks that were allocated read as they did. -/
structure Aside (s t : Fs) : Prop where
  geo : t.geo = s.geo
  gen : t.gen = s.gen
  disk : t.disk = s.disk
  version : s.sb.version ≤ t.sb.version
  grew : ∀ d, allocated s d = true → allocated t d = true
  bufs : ∀ d, allocated s d = true → t.bufs d = s.bufs d

namespace Aside

variable {s t u : Fs}

theorem refl (s : Fs) : Aside s s := ⟨rfl, rfl, rfl, Nat.le_refl _, fun _ => id, fun _ _ => rfl⟩

theorem view (h : Aside s t) {d : Nat} (hd : allocated s d = true) : view t d = view s d :=
  view_congr (h.bufs d hd) h.disk

theorem trans (h₁ : Aside s t) (h₂ : Aside t u) : Aside s u :=
  ⟨h₂.geo.trans h₁.geo, h₂.gen.trans h₁.gen, h₂.disk.trans h₁.disk,
    Nat.le_trans h₁.version h₂.version, fun d h => h₂.grew d (h₁.grew d h),
    fun d h => (h₂.bufs d (h₁.grew d h)).trans (h₁.bufs d h)⟩

theorem cfsFail (e : Errno) (s : Fs) : Aside s (cfsFail e s) := by
  unfold Cosmofs.cfsFail
  split
  · exact ⟨rfl, rfl, rfl, Nat.le_refl _, fun _ => id, fun _ _ => rfl⟩
  · exact refl s

end Aside

/-- `Aside`, with the superblock as it was. -/
def Beside (s t : Fs) : Prop := Aside s t ∧ t.sb = s.sb

namespace Beside

theorem refl (s : Fs) : Beside s s := ⟨.refl s, rfl⟩

theorem trans (s t u : Fs) (h₁ : Beside s t) (h₂ : Beside t u) : Beside s u :=
  ⟨h₁.1.trans h₂.1, h₂.2.trans h₁.2⟩

theorem of_drew {s t : Fs} (h : Drew s t) : Beside s t := by
  obtain ⟨fl, rfl, -⟩ := h
  exact ⟨⟨rfl, rfl, rfl, Nat.le_refl _, fun _ => id, fun _ _ => rfl⟩, rfl⟩

end Beside

/-! ## A block taken -/

/-- Block `d` was free and is the transaction's now, with contents `b`. -/
structure Took (s : Fs) (d : Nat) (b : MBlock) (t : Fs) : Prop where
  valid : dvaValid s.geo d = true
  was_free : allocated s d = false
  now : ∀ x, allocated t x = true ↔ allocated s x = true ∨ x = d
  frame : ∃ sp fl, t = { s with
    space := sp, faults := fl, bufs := Function.update s.bufs d (some b) }

namespace Took

variable {s t u : Fs} {d : Nat} {b : MBlock}

theorem geo (h : Took s d b t) : t.geo = s.geo := by
  obtain ⟨sp, fl, rfl⟩ := h.frame
  rfl

theorem bufs (h : Took s d b t) : t.bufs = Function.update s.bufs d (some b) := by
  obtain ⟨sp, fl, rfl⟩ := h.frame
  rfl

theorem ne (h : Took s d b t) {x : Nat} (hx : allocated s x = true) : x ≠ d := by
  rintro rfl
  rw [h.was_free] at hx
  cases hx

theorem of_claimed (hc : Claimed s d 1 u) (ht : Drew u t) (b : MBlock) :
    Took s d b (setBuf d b t) := by
  obtain ⟨fl, rfl, -⟩ := ht
  refine ⟨hc.valid 0 Nat.one_pos, hc.was_free 0 Nat.one_pos, hc.now_one, ?_⟩
  obtain ⟨sp, rfl⟩ := hc.frame
  exact ⟨sp, fl, rfl⟩

theorem setBuf (h : Took s d b t) (b' : MBlock) : Took s d b' (setBuf d b' t) := by
  have hnow := h.now
  obtain ⟨sp, fl, rfl⟩ := h.frame
  refine ⟨h.valid, h.was_free, hnow, sp, fl, ?_⟩
  simp only [Cosmofs.setBuf, Function.update_idem]

end Took

variable {s t : Fs} {d : Nat} {α : Type} {m : M α}

theorem Claimed.given_back {u v : Fs} (hc : Claimed s d 1 u) (hv : Drew u v)
    (h : Disposed v [d] t) : Beside s t := by
  obtain ⟨fl, rfl, -⟩ := hv
  have hnow := hc.now_one
  obtain ⟨sp, rfl⟩ := hc.frame
  obtain ⟨fr, fl', c, rfl⟩ := h.frame
  exact ⟨⟨rfl, rfl, rfl, Nat.le_refl _, fun x hx => (hnow x).mpr (.inl hx), fun _ _ => rfl⟩, rfl⟩

/-- A block claimed and the memory for its buffer: had both, or nothing is kept. -/
theorem buffer_for {β : Type} {blk : β → Nat} {a : M β} {k : β → M α} {r : Except Errno α}
    (hclaim : ∀ {r u}, a s = (r, u) → Ends (fun b => Claimed s (blk b) 1 u) (fun _ => u = s) r)
    (h : (a >>= fun b => onError (mayFail .enomem) (modify (freeBlockDeferred (blk b))) >>= fun _ =>
      k b) s = (r, t)) :
    (∃ e, r = .error e ∧ Beside s t) ∨
      ∃ b u v, Claimed s (blk b) 1 u ∧ Drew u v ∧ k b v = (r, t) := by
  rcases bind_cases h with ⟨e, ha, rfl⟩ | ⟨b, u, ha, h⟩
  · obtain rfl : t = s := hclaim ha
    exact .inl ⟨e, rfl, .refl t⟩
  have hc : Claimed s (blk b) 1 u := hclaim ha
  rcases bind_cases h with ⟨e, hm, rfl⟩ | ⟨_, v, hm, h⟩
  · obtain ⟨v, hm', rfl⟩ := onError_eq_error.mp hm
    have hv := (mayFail_drew hm').1
    have hd : dvaValid v.geo (blk b) = true := by
      obtain ⟨fl, rfl, -⟩ := hv
      rw [hc.geo]
      exact hc.valid 0 Nat.one_pos
    exact .inl ⟨e, rfl, hc.given_back hv (freeBlockDeferred_disposed hd)⟩
  · exact .inr ⟨b, u, v, hc, (mayFail_drew (onError_eq_ok.mp hm)).1, h⟩

/-- **A new block.** -/
theorem bufNew_spec {kind : Kind} (h : bufNew kind s = (r, t)) :
    Ends (fun d => Took s d ⟨s.gen, Payload.zero kind⟩ t) (fun _ => Beside s t) r := by
  rcases buffer_for allocBlock_spec h with ⟨e, rfl, hs⟩ | ⟨b, u, v, hc, hv, h⟩
  · exact hs
  cases h
  have hgen : v.gen = s.gen := by
    obtain ⟨fl, rfl, -⟩ := hv
    obtain ⟨sp, rfl⟩ := hc.frame
    rfl
  rw [← hgen]
  exact .of_claimed hc hv _

/-- **A copy on write**: in place, or to a new block with the old one given back. -/
theorem bufCow_spec {b : MBlock} (hd : dvaValid s.geo d = true) (h : bufCow d b s = (r, t)) :
    Ends (fun x => (b.gen = s.gen ∧ x = d ∧ t = setBuf d b s) ∨
      ∃ u, Took s x ⟨s.gen, b.payload⟩ u ∧ Disposed u [d] t) (fun _ => Beside s t) r := by
  unfold bufCow at h
  simp only [gets_bind] at h
  by_cases hg : b.gen = s.gen
  · rw [if_pos hg] at h
    cases h
    exact .inl ⟨hg, rfl, rfl⟩
  rw [if_neg hg] at h
  simp only [gets_bind] at h
  rcases buffer_for allocRun_one h with ⟨e, rfl, hs⟩ | ⟨a, u, v, hc, hv, h⟩
  · exact hs
  cases h
  refine .inr ⟨_, .of_claimed hc hv _, freeBlockDeferred_disposed ?_⟩
  obtain ⟨fl, rfl, -⟩ := hv
  rw [← hc.geo] at hd
  exact hd

/-! ## The raise -/

theorem freeBlockExempt_beside (hd : dvaValid s.geo d = true) :
    Beside s (freeBlockExempt d s) := by
  obtain ⟨fl, f, heq, -⟩ := freeBlockExempt_cases hd
  rw [heq]
  exact ⟨⟨rfl, rfl, rfl, Nat.le_refl _, fun _ => id, fun _ _ => rfl⟩, rfl⟩

theorem snaplistGet_spec {r : Except Errno (Nat × List (Option Snapshot))}
    (h : snaplistGet d s = (r, t)) :
    Drew s t ∧ Ends (fun _ => dvaValid s.geo d = true) (fun _ => True) r := by
  rcases bind_cases h with ⟨e, hb, rfl⟩ | ⟨b, u, hb, h⟩ <;> obtain ⟨hu, hb⟩ := bufGet_spec hb
  · exact ⟨hu, trivial⟩
  have ht : u = t := by cases hp : b.payload <;> simp only [hp] at h <;> exact (Prod.mk.inj h).2
  subst ht
  cases r with
  | ok a => exact ⟨hu, hb.1⟩
  | error e => exact ⟨hu, trivial⟩

theorem snaplistGet_moves (d : Nat) : Moves Beside (snaplistGet d) := fun _ =>
  .of_drew (snaplistGet_spec rfl).1

theorem mayFail_moves (e : Errno) : Moves Beside (mayFail e) := fun _ =>
  .of_drew (mayFail_drew rfl).1

theorem snapWalk_moves (fuel blk : Nat) : Moves Beside (snapWalk fuel blk) := by
  fun_induction snapWalk fuel blk with
  | case1 => exact Moves.pure Beside.refl _
  | case2 => exact Moves.fail Beside.refl _
  | case3 blk _ fuel ih =>
    exact Moves.bind Beside.trans (snaplistGet_moves blk) fun r =>
      Moves.bind Beside.trans (ih r) fun _ => Moves.pure Beside.refl _

theorem dropSnaplist_moves (fuel blk : Nat) : Moves Beside (dropSnaplist fuel blk) := by
  fun_induction dropSnaplist fuel blk with
  | case1 => exact Moves.pure Beside.refl _
  | case2 => exact Moves.fail Beside.refl _
  | case3 blk _ fuel ih =>
    intro s
    refine bind_after (fun e t hg => .of_drew (snaplistGet_spec hg).1) fun a t hg => ?_
    obtain ⟨hdrew, hv⟩ := snaplistGet_spec hg
    have hfree : Beside t (freeBlockExempt blk t) := by
      obtain ⟨fl, rfl, -⟩ := hdrew
      exact freeBlockExempt_beside hv
    exact Beside.trans _ _ _ (Beside.trans _ _ _ (.of_drew hdrew) hfree) (ih a _)

/-- `Aside`, where a format below 14 stays below it. -/
def Lifted (s t : Fs) : Prop := Aside s t ∧ (s.sb.version < 14 → t.sb.version < 14)

namespace Lifted

theorem refl (s : Fs) : Lifted s s := ⟨.refl s, id⟩

theorem trans (s t u : Fs) (h₁ : Lifted s t) (h₂ : Lifted t u) : Lifted s u :=
  ⟨h₁.1.trans h₂.1, fun h => h₂.2 (h₁.2 h)⟩

theorem of_beside (h : Beside s t) : Lifted s t := ⟨h.1, by rw [h.2]; exact id⟩

theorem to_12 (h : s.sb.version ≤ 12) :
    Lifted s { s with sb := { s.sb with snapRoot := 0, version := 12 } } :=
  ⟨⟨rfl, rfl, rfl, h, fun _ => id, fun _ _ => rfl⟩, fun _ => by show 12 < 14; omega⟩

end Lifted

/-- A block taken for the snapshot list, which then names it. -/
theorem Took.listed {b : MBlock} (h : Took s d b t) (root : Nat) :
    Lifted s { t with sb := { t.sb with snapRoot := root } } := by
  have hnow := h.now
  have hne := fun x => h.ne (x := x)
  obtain ⟨sp, fl, rfl⟩ := h.frame
  exact ⟨⟨rfl, rfl, rfl, Nat.le_refl _, fun x hx => (hnow x).mpr (.inl hx),
    fun x hx => Function.update_of_ne (hne x hx) _ _⟩, id⟩

theorem pushSnaplist2_moves (maxId : Nat) (snap : List Snapshot) :
    Moves Lifted (pushSnaplist2 maxId snap) := by
  intro s
  refine bind_after (fun e t hb => .of_beside (bufNew_spec hb)) fun d t hb => ?_
  have htook : Took s d _ t := bufNew_spec hb
  exact (htook.setBuf ⟨t.gen, .snaplist2 t.sb.snapRoot maxId (snap.map some)⟩).listed d

theorem writeSnaplist2_moves (maxId fuel : Nat) (snaps : List Snapshot) :
    Moves Lifted (writeSnaplist2 maxId fuel snaps) := by
  fun_induction writeSnaplist2 maxId fuel snaps with
  | case1 => exact Moves.pure Lifted.refl _
  | case2 => exact Moves.pure Lifted.refl _
  | case3 _ _ _ ih => exact Moves.bind Lifted.trans (pushSnaplist2_moves maxId _) fun _ => ih

theorem raisePlan_moves (newUuid : List Nat → Nat) : Moves Beside (raisePlan newUuid) := by
  refine Moves.bind Beside.trans (Moves.gets Beside.refl _) fun root =>
    Moves.bind Beside.trans (snapWalk_moves _ root) fun first =>
    Moves.bind Beside.trans ?_ fun _ =>
    Moves.bind Beside.trans (snapWalk_moves _ root) fun all => ?_
  · unfold runIf
    split
    · exact mayFail_moves _
    · exact Moves.pure Beside.refl _
  · split
    · exact Moves.fail Beside.refl _
    · exact Moves.bind Beside.trans (mayFail_moves _) fun _ => Moves.pure Beside.refl _

theorem raiseApply_moves (maxId : Nat) (all : List Snapshot) (hv : s.sb.version ≤ 12) :
    Lifted s (raiseApply maxId all s).2 := by
  unfold raiseApply
  rw [gets_bind]
  have hdrop := dropSnaplist_moves (snapMaxChain + 1) s.sb.snapRoot s
  refine bind_after (fun e t hd => ?_) fun a t hd => ?_ <;> rw [hd] at hdrop
  · exact .of_beside hdrop
  · have hvt : t.sb.version ≤ 12 := by
      rw [hdrop.2]
      exact hv
    exact .trans _ _ _ (.trans _ _ _ (.of_beside hdrop) (.to_12 hvt))
      (writeSnaplist2_moves maxId all.length all _)

theorem orFail_moves (h : Lifted s (m s).2) : Lifted s (orFail m s).2 := by
  unfold orFail
  rcases hm : m s with ⟨r, t⟩
  rw [hm] at h
  cases r with
  | ok a => exact h
  | error e =>
    refine ⟨h.1.trans (.cfsFail e t), fun hs => ?_⟩
    show (cfsFail e t).sb.version < 14
    unfold cfsFail
    split <;> exact h.2 hs

/-- **The raise** changes no block that was allocated, and raises to 12. -/
theorem snapRaise_moves (newUuid : List Nat → Nat) : Moves Lifted (snapRaise newUuid) := by
  intro s
  unfold snapRaise
  rw [gets_bind]
  by_cases h12 : s.sb.version ≥ 12
  · rw [if_pos h12]
    exact .refl s
  rw [if_neg h12]
  by_cases h11 : s.sb.version < 11
  · rw [if_pos h11]
    exact .refl s
  rw [if_neg h11]
  have hplan := raisePlan_moves newUuid s
  refine bind_after (fun e t hp => ?_) fun all t hp => ?_ <;> rw [hp] at hplan
  · exact .of_beside hplan
  have hvt : t.sb.version ≤ 12 := by
    rw [hplan.2]
    omega
  have happly := (Lifted.of_beside hplan).trans _ _ _ (orFail_moves (raiseApply_moves
    ((all.map Snapshot.id).foldl max t.snapMaxId) all hvt))
  rw [gets_bind]
  refine bind_after (fun e u ha => ?_) fun a u ha => ?_ <;> rw [ha] at happly
  · exact happly
  · exact .trans _ _ _ happly ⟨⟨rfl, rfl, rfl, Nat.le_refl _, fun _ => id, fun _ _ => rfl⟩, id⟩

end CosmoOS.Cosmofs
