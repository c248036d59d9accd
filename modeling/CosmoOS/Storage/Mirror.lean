import CosmoOS.Storage.Copies

/-!
# A readable copy is current

Three things say that a copy is stale: its state, the regions marked in its own bitmap, and the
member's bitmap of regions written since the last root, which a copy takes over when it leaves
ONLINE.  They are updated at different points of a write that can lose one copy half way; together
they never let a stale copy be read.

`last v b` is the data of the last pool write to block `b` of member `v` that returned success.  A
copy *holds its own* (`Holds`) when

* ONLINE, it has that data in every block outside its missed regions;
* not ONLINE, it has missed something and says so, or it is not being rebuilt and has that data in
  every block: only a copy without a mark is let ONLINE again.

Nothing here ends a rebuild, so the blocks of a copy being rebuilt are of no concern.

Within `pool_write_flags` the member's bitmap is marked first.  So a copy that fails the write and
is taken out for it takes the mark along, and one that stays ONLINE gets the mark when the loop is
over, if another copy took the write: if none did, the last successful write is still the one it
holds.
-/

namespace CosmoOS.Storage

open Function

variable {β : Type}

variable {dirty : Finset Nat} {d : Nat → β} {x : β} {v : Nat}

/-! ## The invariant -/

/-- Outside the regions in `dirty` a device has the data of `last`. -/
def Fresh (n : Nat) (reg : Nat → Nat) (last : Nat → β) (dirty : Finset Nat) (d : Nat → β) : Prop :=
  ∀ b < n, reg b ∉ dirty → d b = last b

/-- A copy holds its own, in a member of `n` blocks with the regions `reg`. -/
structure Holds (n : Nat) (reg : Nat → Nat) (last : Nat → β) (k : PoolCopy β) : Prop where
  online : k.state = .online → ∀ d, k.dev = some d → Fresh n reg last k.dirty d
  out : k.state ≠ .online → k.whole = true ∨ k.dirty.Nonempty ∨
    k.state ≠ .resilvering ∧ ∀ d, k.dev = some d → ∀ b < n, d b = last b

section Holds

variable {n : Nat} {reg : Nat → Nat} {last : Nat → β} {k k' : PoolCopy β}

theorem Fresh.mono {dirty' : Finset Nat} (h : Fresh n reg last dirty d)
    (hsub : dirty ⊆ dirty') : Fresh n reg last dirty' d :=
  fun b hb hr => h b hb fun hm => hr (hsub hm)

theorem Holds.of_marked (hs : k.state ≠ .online) (h : k.whole = true ∨ k.dirty.Nonempty) :
    Holds n reg last k :=
  ⟨fun ho => absurd ho hs, fun _ => h.elim .inl fun hd => .inr (.inl hd)⟩

section

variable (h : Holds n reg last k)

variable {recent : Finset Nat}

include h

/-- A copy being rebuilt has a mark. -/
theorem Holds.marked (hs : k.state = .resilvering) : k.whole = true ∨ k.dirty.Nonempty := by
  rcases h.out (by rw [hs]; decide) with hw | hd | ⟨hr, -⟩
  · exact .inl hw
  · exact .inr hd
  · exact absurd hs hr

/-- Taking a copy out keeps the invariant: it has a mark now, or it had no hole and nothing
was written since the last root, and then it has every block. -/
theorem Holds.demoted (hd : Demoted recent k k') : Holds n reg last k' := by
  rcases hd.kept_or_out with ⟨hs, hw, hdirty⟩ | ho
  · constructor
    · intro hk d hdev
      rw [hdirty]
      exact h.online (hs ▸ hk) d (hd.dev ▸ hdev)
    · intro hk
      rw [hs, hw, hdirty, hd.dev]
      exact h.out (hs ▸ hk)
  · refine ⟨fun hk => absurd hk ho.not_online, fun _ => ?_⟩
    by_cases hk : k.state = .online
    · rcases Finset.eq_empty_or_nonempty k'.dirty with he | hne
      · refine .inr (.inr ⟨ho.not_resilvering, fun d hdev b hb => ?_⟩)
        have hempty := ho.dirty
        rw [if_pos hk, he] at hempty
        have hk0 : k.dirty = ∅ :=
          Finset.subset_empty.mp (hempty ▸ Finset.subset_union_left)
        exact h.online hk d (hd.dev ▸ hdev) b hb (by rw [hk0]; simp)
      · exact .inr (.inl hne)
    · have hdirty := ho.dirty
      rw [if_neg hk] at hdirty
      rw [ho.whole hk, hdirty, hd.dev]
      rcases h.out hk with hw | hne | ⟨-, hall⟩
      · exact .inl hw
      · exact .inr (.inl hne)
      · exact .inr (.inr ⟨ho.not_resilvering, hall⟩)

theorem Holds.refused (r : Nat) : Holds n reg last (k.refused r) := by
  constructor
  · intro (hk : k.state = .online) d hdev
    show Fresh n reg last (if k.state = .online then k.dirty else insert r k.dirty) d
    rw [if_pos hk]
    exact h.online hk d hdev
  · intro (hk : k.state ≠ .online)
    refine .inr (.inl ?_)
    show (if k.state = .online then k.dirty else insert r k.dirty).Nonempty
    rw [if_neg hk]
    exact Finset.insert_nonempty r k.dirty

theorem Holds.mark (r : Nat) : Holds n reg last (k.mark r) := by
  constructor
  · intro hk d hdev
    exact (h.online hk d hdev).mono (Finset.subset_insert r k.dirty)
  · exact fun _ => .inr (.inl (Finset.insert_nonempty r k.dirty))

/-- A copy that can be written holds its own after it took a block, if the block is what was
last written there. -/
theorem Holds.put {blk : Nat} (hw : k.writable = true) (hx : last blk = x) :
    Holds n reg last (k.put blk x) := by
  constructor
  · intro hk d hdev b hb hr
    obtain ⟨d₀, hd₀, rfl⟩ := Option.map_eq_some_iff.mp hdev
    by_cases hbb : b = blk
    · rw [hbb, update_self, hx]
    · rw [update_of_ne hbb]
      exact h.online hk d₀ hd₀ b hb hr
  · intro hk
    have hrs : k.state = .resilvering := by
      have hw : k.dev.isSome = true ∧ (k.state = .online ∨ k.state = .resilvering) := by
        simpa [PoolCopy.writable] using hw
      exact hw.2.resolve_left hk
    exact (h.marked hrs).elim .inl fun hd => .inr (.inl hd)

theorem Holds.move_online {epoch : Nat} (hs : k.state ≠ .online)
    (hw : k.whole = false) (hd : k.dirty = ∅) : Holds n reg last (k.move .online epoch recent) := by
  unfold PoolCopy.move
  simp only [if_neg hs, if_true]
  refine ⟨fun _ d hdev b hb _ => ?_, fun hk => absurd rfl hk⟩
  rcases h.out hs with hwh | hne | ⟨-, hall⟩
  · rw [hw] at hwh
    cases hwh
  · rw [hd] at hne
    exact absurd hne Finset.not_nonempty_empty
  · exact hall d hdev b hb

end

end Holds

/-- Every copy of the pool holds its own. -/
def Current (p : Spool β) (last : Nat → Nat → β) : Prop :=
  ∀ v < p.nmembers, ∀ c < (p.m v).ncopies,
    Holds (p.m v).nblocks (p.m v).region (last v) (p.copy v c)

section Current

variable {p q : Spool β} {last : Nat → Nat → β}

theorem Holds.lasting (p : Spool β) (last : Nat → Nat → β) :
    Lasting fun v => Holds (p.m v).nblocks (p.m v).region (last v) where
  demoted h hd := h.demoted hd
  counted h := ⟨h.online, h.out⟩
  refused r h := h.refused r
  mark r h := h.mark r

theorem Current.of_every (hs : Sized p q)
    (h : q.Every fun v => Holds (p.m v).nblocks (p.m v).region (last v)) : Current q last := by
  intro v hv c hc
  rw [hs.nblocks, hs.region]
  exact h v hv c hc

theorem Current.worn (h : Current p last) (hw : Worn p q) : Current q last :=
  .of_every hw.toSized (hw.every _ (Holds.lasting p last) h)

theorem Current.copySetState {c : Nat} {s : CopyState} (h : Current p last)
    (hs : s ≠ .resilvering) : Current (p.copySetState v c s).2 last := by
  by_cases ho : s = .online
  · rcases p.copySetState_cases v c s with hq | ⟨hq, hon⟩
    · rw [hq]
      exact h
    · obtain ⟨hk, hw, hd⟩ := hon ho
      have hdif := Differs.modifyCopy p v c fun k => k.move s p.epoch (p.m v).recent
      rw [hq]
      refine .of_every hdif.toSized (Spool.Every.differs h hdif fun hv hc => ?_)
      rw [Spool.copy_modifyCopy, ho]
      exact (h v hv c hc).move_online hk hw hd
  · exact h.worn (p.copySetState_drops v c ho hs).lessened.worn

/-- In a pool that is current, what can be read is the last data written. -/
theorem Current.readable {c blk : Nat} (h : Current p last)
    (hv : v < p.nmembers) (hc : c < (p.m v).ncopies) (hblk : blk < (p.m v).nblocks)
    (hr : (p.m v).readableAt (p.copy v c) blk = true) :
    (p.copy v c).dev.map (fun d => d blk) = some (last v blk) := by
  obtain ⟨⟨hdev, hstate⟩, hh⟩ : ((p.copy v c).dev.isSome = true ∧ (p.copy v c).state = .online) ∧
      (p.m v).hole (p.copy v c) blk = false := by
    simpa [SpoolMember.readableAt, PoolCopy.readable] using hr
  obtain ⟨d, hd⟩ := Option.isSome_iff_exists.mp hdev
  rw [(p.m v).hole_eq _ hblk, decide_eq_false_iff_not] at hh
  rw [hd, Option.map_some]
  exact congrArg some ((h v hv c hc).online hstate d hd blk hblk hh)

end Current

/-! ## A write to every copy -/

section Write

variable {n : Nat} {reg : Nat → Nat} {last : Nat → β} {blk : Nat} {x : β} {k k' : PoolCopy β}
  {recent : Finset Nat} {o landed : Prop}

/-- A copy that took the block, if it is ONLINE, has the new data. -/
theorem Fresh.put (h : Fresh n reg last dirty d) :
    Fresh n reg (update last blk x) dirty (update d blk x) := by
  intro b hb hr
  by_cases hbb : b = blk
  · rw [hbb, update_self, update_self]
  · rw [update_of_ne hbb, update_of_ne hbb]
    exact h b hb hr

/-- A copy that did not, but has the region marked, is as fresh as it was. -/
theorem Fresh.marked (h : Fresh n reg last dirty d)
    (hm : reg blk ∈ dirty) : Fresh n reg (update last blk x) dirty d := by
  intro b hb hr
  have hbb : b ≠ blk := fun heq => hr (heq ▸ hm)
  rw [update_of_ne hbb]
  exact h b hb hr

theorem Demoted.refused_marked {r : Nat} (hr : r ∈ recent) (hd : Demoted recent (k.refused r) k')
    (hk' : k'.state ≠ .online) : k'.dirty.Nonempty := by
  have hdirty : (k.refused r).dirty = if k.state = .online then k.dirty else insert r k.dirty :=
    rfl
  have hstate : (k.refused r).state = k.state := rfl
  rcases hd.kept_or_out with ⟨hs, -, hkd⟩ | ho
  · rw [hs, hstate] at hk'
    rw [hkd, hdirty, if_neg hk']
    exact Finset.insert_nonempty _ _
  · have hkd := ho.dirty
    rw [hstate, hdirty] at hkd
    refine ⟨r, ?_⟩
    rw [hkd]
    split
    · exact Finset.mem_union_right _ hr
    · exact Finset.mem_insert_self _ _

/-- After a write that failed a copy holds its own as before: no ONLINE copy took it. -/
theorem Outcome.holds_failed (h : Outcome blk (reg blk) x recent o landed k k') (hl : ¬ landed)
    (hk : Holds n reg last k) : Holds n reg last k' := by
  cases h with
  | took hw hland =>
    have hrs := (PoolCopy.writable_iff.mp hw).2.resolve_left fun ho => hl (hland ho)
    exact .of_marked (show k.state ≠ .online by rw [hrs]; decide) (hk.marked hrs)
  | skipped ho hs => exact hk
  | missed hw hs => exact hk.mark _
  | empty hs hd => exact hk
  | refused hw hd hm => exact (hk.refused _).demoted hd
  | hole hw hd hs => exact ((hk.refused _).demoted hd).mark _

/-- After a write that succeeded a copy holds its own for the new data. -/
theorem Outcome.holds_landed (h : Outcome blk (reg blk) x recent o landed k k') (hl : landed)
    (hr : reg blk ∈ recent) (hk : Holds n reg last k) :
    Holds n reg (update last blk x) k' := by
  cases h with
  | took hw hland =>
    rcases (PoolCopy.writable_iff.mp hw).2 with ho | hrs
    · refine ⟨fun _ d hd => ?_, fun h => absurd ho h⟩
      obtain ⟨d₀, hd₀, rfl⟩ := Option.map_eq_some_iff.mp hd
      exact (hk.online ho d₀ hd₀).put
    · exact .of_marked (show k.state ≠ .online by rw [hrs]; decide) (hk.marked hrs)
  | skipped ho hs => exact .of_marked (by rw [hs]; decide) (hk.marked hs)
  | missed hw hs =>
    exact .of_marked (show k.state ≠ .online from hs) (.inr (Finset.insert_nonempty _ _))
  | empty hs hd => exact ⟨fun _ d hd' => absurd (hd ▸ hd') (by simp), fun h => absurd hs h⟩
  | refused hw hd hm =>
    by_cases ho : k'.state = .online
    · refine ⟨fun _ d hd' => ?_, fun h => absurd ho h⟩
      exact (((hk.refused _).demoted hd).online ho d hd').marked (hm hl ho)
    · exact .of_marked ho (.inr (hd.refused_marked hr ho))
  | @hole k₁ hw hd hs =>
    refine ⟨fun _ d hd' => ?_, fun h => absurd hs h⟩
    have hfresh := ((hk.refused (reg blk)).demoted hd).online hs d hd'
    exact (hfresh.mono (Finset.subset_insert (reg blk) k₁.dirty)).marked
      (Finset.mem_insert_self _ _)

end Write

/-! ## Every operation keeps the invariant -/

/-- `last` after a write of `x` to block `blk` of member `v`. -/
def written (last : Nat → Nat → β) (v blk : Nat) (x : β) : Nat → Nat → β :=
  update last v (update (last v) blk x)

section Operations

variable {p : Spool β} {last : Nat → Nat → β}

variable {dva : Nat}

/-- `last` after a call of `pool_write_flags`. -/
def afterWrite (p : Spool β) (last : Nat → Nat → β) (dva : Nat) (x : β) (rc : Int) :
    Nat → Nat → β :=
  match p.memberOf dva with
  | none => last
  | some (v, blk) => if rc = 0 then written last v blk x else last

/-- **A write to every copy keeps the invariant**, for the new data if it succeeded and for
the old if it did not. -/
theorem Current.writeFlags {onlineOnly : Bool} (h : Current p last) :
    Current (p.writeFlags dva x onlineOnly).2
      (afterWrite p last dva x (p.writeFlags dva x onlineOnly).1) := by
  rw [afterWrite]
  cases hm : p.memberOf dva with
  | none =>
    rw [Spool.writeFlags, hm]
    exact h
  | some vb =>
    obtain ⟨v, blk⟩ := vb
    rcases hq : p.writeFlags dva x onlineOnly with ⟨rc, q⟩
    obtain ⟨hsized, hother, hall⟩ := Spool.writeFlags_outcome hm hq
    have hr := Finset.mem_insert_self ((p.m v).region blk) (p.m v).recent
    intro u hu c hc
    rw [hsized.nmembers] at hu
    rw [hsized.ncopies] at hc
    rw [hsized.nblocks, hsized.region]
    dsimp only
    by_cases huv : u = v
    · subst huv
      split
      · rename_i hrc
        rw [written, update_self]
        exact (hall c hc).holds_landed hrc hr (h u hu c hc)
      · rename_i hrc
        exact (hall c hc).holds_failed hrc (h u hu c hc)
    · have hlast : (if rc = 0 then written last v blk x else last) u = last u := by
        split
        · rw [written, update_of_ne huv]
        · rfl
      rw [hother u c huv, hlast]
      exact h u hu c hc

/-- A repair, a write of a block's own data to one copy, keeps it. -/
theorem Current.writeCopy {c : Nat} (h : Current p last)
    (hx : ∀ v blk, p.memberOf dva = some (v, blk) → last v blk = x) :
    Current (p.writeCopy dva c x).2 last := by
  obtain ⟨hs, hq⟩ := Spool.Every.writeCopy (Holds.lasting p last) h rfl
    fun v blk k hm hw hk => hk.put hw (hx v blk hm)
  exact .of_every hs hq

/-- A read keeps it, and gives the last data written. -/
theorem Current.read (h : Current p last) :
    Current (p.read dva).2 last ∧ ∀ x, (p.read dva).1 = .ok x →
      ∃ v blk, p.memberOf dva = some (v, blk) ∧ x = last v blk := by
  obtain ⟨hless, hok, -⟩ := Spool.read_spec (rfl : p.read dva = _)
  refine ⟨h.worn hless.worn, fun x hx => ?_⟩
  obtain ⟨v, blk, e, d, hm, hv, hblk, he, hdev, hdx, hread⟩ := hok x hx
  have hlast := h.readable hv he hblk hread
  rw [hdev, Option.map_some, hdx] at hlast
  exact ⟨v, blk, hm, Option.some.inj hlast⟩

theorem Current.commitDone {gen : Nat} (h : Current p last) : Current (p.commitDone gen) last :=
  .of_every (p := p) ⟨rfl, fun _ => rfl, fun _ => rfl, fun _ => rfl⟩ h

end Operations

/-! ## Runs -/

/-- What is done to a pool. -/
inductive PoolOp (β : Type)
  | write (dva : Nat) (x : β) (onlineOnly : Bool)
  | writeCopy (dva c : Nat) (x : β)
  | flush
  | setState (v c : Nat) (state : CopyState)
  | read (dva : Nat)
  | readCopy (dva c : Nat)
  | commitDone (gen : Nat)
  | setFaultErrors (limit : Nat)

/-- A pool, and the data of the last write to each block that returned success. -/
structure Mirror (β : Type) where
  p : Spool β
  last : Nat → Nat → β

variable {s : Mirror β}

namespace Mirror

/-- One call. -/
def step (s : Mirror β) : PoolOp β → Mirror β
  | .write dva x onlineOnly =>
    ⟨(s.p.writeFlags dva x onlineOnly).2,
      afterWrite s.p s.last dva x (s.p.writeFlags dva x onlineOnly).1⟩
  | .writeCopy dva c x => ⟨(s.p.writeCopy dva c x).2, s.last⟩
  | .flush => ⟨s.p.flush.2, s.last⟩
  | .setState v c state => ⟨(s.p.copySetState v c state).2, s.last⟩
  | .read dva => ⟨(s.p.read dva).2, s.last⟩
  | .readCopy dva c => ⟨(s.p.readCopy dva c).2, s.last⟩
  | .commitDone gen => ⟨s.p.commitDone gen, s.last⟩
  | .setFaultErrors limit => ⟨{ s.p with faultErrors := limit }, s.last⟩

/-- The calls in turn. -/
def run (s : Mirror β) (ops : List (PoolOp β)) : Mirror β := ops.foldl step s

/-- What the calls may be: a write to one copy repairs it, with the data of the block's last
successful write, and no rebuild is started. -/
def Allowed (s : Mirror β) : PoolOp β → Prop
  | .writeCopy dva _ x => ∀ v blk, s.p.memberOf dva = some (v, blk) → s.last v blk = x
  | .setState _ _ state => state ≠ .resilvering
  | _ => True

def AllAllowed : Mirror β → List (PoolOp β) → Prop
  | _, [] => True
  | s, op :: ops => s.Allowed op ∧ AllAllowed (s.step op) ops

theorem step_current {op : PoolOp β} (h : Current s.p s.last)
    (hop : s.Allowed op) : Current (s.step op).p (s.step op).last := by
  cases op with
  | write dva x onlineOnly => exact h.writeFlags
  | writeCopy dva c x => exact h.writeCopy hop
  | flush => exact h.worn s.p.flush_worn
  | setState v c state => exact h.copySetState hop
  | read dva => exact h.read.1
  | readCopy dva c => exact h.worn (Spool.readCopy_lessened rfl).1.worn
  | commitDone gen => exact h.commitDone
  | setFaultErrors limit =>
    exact .of_every (p := s.p) ⟨rfl, fun _ => rfl, fun _ => rfl, fun _ => rfl⟩ h

theorem run_current {ops : List (PoolOp β)} (h : Current s.p s.last)
    (hops : s.AllAllowed ops) : Current (s.run ops).p (s.run ops).last := by
  induction ops generalizing s with
  | nil => exact h
  | cons op ops ih => exact ih (step_current h hops.1) hops.2

end Mirror

/-- **A readable copy is current.**  After any run of pool writes, repairs, flushes, state
changes, reads and roots, with the devices failing anywhere, a copy that is ONLINE and has no
hole at a block has the data of the last successful pool write to it, and that is what a
read of the pool gives. -/
theorem readable_current (s : Mirror β) (hs : Current s.p s.last) (ops : List (PoolOp β))
    (hops : s.AllAllowed ops) :
    (∀ v c blk, v < (s.run ops).p.nmembers → c < ((s.run ops).p.m v).ncopies →
      blk < ((s.run ops).p.m v).nblocks →
      ((s.run ops).p.m v).readableAt ((s.run ops).p.copy v c) blk = true →
      ((s.run ops).p.copy v c).dev.map (fun d => d blk) = some ((s.run ops).last v blk)) ∧
    ∀ dva x, ((s.run ops).p.read dva).1 = .ok x →
      ∃ v blk, (s.run ops).p.memberOf dva = some (v, blk) ∧ x = (s.run ops).last v blk := by
  have hcur := Mirror.run_current hs hops
  exact ⟨fun v c blk hv hc hblk hr => hcur.readable hv hc hblk hr, fun dva x hx => hcur.read.2 x hx⟩

/-! ## A member of two copies -/

/-- A copy of blocks that all hold 0. -/
def zeroCopy : PoolCopy Nat where
  dev := some fun _ => 0
  gone := false
  state := .online
  whole := false
  since := 0
  cursor := 0
  readErrors := 0
  writeErrors := 0
  tag := 0
  peer := 0
  dirty := ∅

/-- A pool of one member of eight blocks, with two such copies. -/
def zeroPool (answers : List Int) : Spool Nat where
  m _ :=
    { copy := fun _ => zeroCopy
      ncopies := 2
      nblocks := 8
      regionBlocks := regionBlocksFor 8
      recent := ∅
      regionBlocks_pos := (regionBlocksFor_covers (by decide)).1
      regionBlocks_lt := (regionBlocksFor_covers (by decide)).2.1
      covers := (regionBlocksFor_covers (by decide)).2.2 }
  nmembers := 1
  epoch := 0
  faultErrors := 8
  spares := []
  answers := answers

theorem zeroPool_current (answers : List Int) : Current (zeroPool answers) fun _ _ => 0 := by
  intro v _ c _
  refine ⟨fun _ d hd b _ _ => ?_, fun h => absurd rfl h⟩
  rw [← Option.some.inj hd]

/-- The first copy fails a write, below the fault limit: the second has the new data and is
the one that is read. -/
theorem readable_current_hole :
    ((Mirror.run ⟨zeroPool [-5], fun _ _ => 0⟩ [.write 3 7 false]).p.copy 0 1).dev.map
      (fun d => d 3) =
        some 7 ∧
      ((Mirror.run ⟨zeroPool [-5], fun _ _ => 0⟩ [.write 3 7 false]).p.read 3).1 = .ok 7 :=
  ⟨(readable_current ⟨zeroPool [-5], fun _ _ => 0⟩ (zeroPool_current _) [.write 3 7 false]
    ⟨trivial, trivial⟩).1 0 1 3 (by decide) (by decide) (by decide) (by decide), rfl⟩

/-- A write to one copy that succeeds leaves the other copy readable with what it had: the
data has to be the block's own. -/
theorem writeCopy_one_copy :
    ((zeroPool []).writeCopy 3 0 1).1 = 0 ∧
      (((zeroPool []).writeCopy 3 0 1).2.m 0).readableAt
        (((zeroPool []).writeCopy 3 0 1).2.copy 0 1) 3 = true ∧
      (((zeroPool []).writeCopy 3 0 1).2.copy 0 1).dev.map (fun d => d 3) = some 0 := by
  decide

end CosmoOS.Storage
