import CosmoOS.Storage.Copies
import CosmoOS.Cosmofs.Resilver

/-!
# What a copy has of the blocks in use

The invariant of the resilver, for one copy.  What a block has to hold is a predicate `due` on its
data: nothing for a block that is not in use or that was lost, the data of the last successful write
for any other.  Then (`Tracked`):

* ONLINE, a copy has what is due in every block outside its marked regions, and in the region its
  own walk is inside, if no write to the copy has failed since, also in the blocks behind the
  cursor;
* RESILVERING, it has what is due in every block from `first_usable` on whose region is not marked
  and that the walk has not still to come to: ahead of the cursor when everything was missed, ahead
  of it in the region it is in otherwise.

A copy that is out is of no concern.  Every operation of the pool is one of a few changes to a copy
(`Storage.Copies`), with one lemma for each.
-/

namespace CosmoOS.Cosmofs

open CosmoOS.Storage

variable {β : Type}

/-- What a copy has of what is due, in a member with regions of `rb` blocks of which `first`
are below `first_usable`, when `errors` were counted as the walk entered its region. -/
structure Tracked (rb first errors : Nat) (due : Nat → β → Prop) (k : PoolCopy β) : Prop where
  online : k.state = .online → ∀ d, k.dev = some d → ∀ b, b / rb ∉ k.dirty → due b (d b)
  walk : k.state = .online → ∀ d, k.dev = some d → k.cursor % rb ≠ 0 →
    errors ≤ k.writeErrors ∧
      (k.writeErrors = errors → ∀ b < k.cursor, b / rb = k.cursor / rb → due b (d b))
  rebuild : k.state = .resilvering → ∀ d, k.dev = some d → ∀ b, first ≤ b → b / rb ∉ k.dirty →
    (k.whole = true → b < k.cursor) →
    (k.cursor % rb ≠ 0 → b / rb = k.cursor / rb → b < k.cursor) → due b (d b)

/-- A copy that is being rebuilt is done with a block: no later turn of the walk gives it the
block again. -/
def Done (rb first b : Nat) (k : PoolCopy β) : Prop :=
  k.state = .resilvering ∧ first ≤ b ∧ b / rb ∉ k.dirty ∧ (k.whole = true → b < k.cursor) ∧
    (k.cursor % rb ≠ 0 → b / rb = k.cursor / rb → b < k.cursor)

section Tracked

variable {rb first errors : Nat} {due due' : Nat → β → Prop} {k k' : PoolCopy β}
  {recent : Finset Nat}

theorem Tracked.of_not_writable (h : ¬ k.writable = true) : Tracked rb first errors due k := by
  have hdev : ∀ d, k.dev = some d → k.state ≠ .online ∧ k.state ≠ .resilvering := by
    intro d hd
    rw [PoolCopy.writable_iff, hd, not_and, not_or] at h
    exact h rfl
  exact ⟨fun hs d hd => absurd hs (hdev d hd).1, fun hs d hd => absurd hs (hdev d hd).1,
    fun hs d hd => absurd hs (hdev d hd).2⟩

theorem Tracked.of_out (h : Out recent k k') : Tracked rb first errors due k' := by
  refine .of_not_writable fun hw => ?_
  exact (PoolCopy.writable_iff.mp hw).2.elim h.not_online h.not_resilvering

section

variable (h : Tracked rb first errors due k)

include h

theorem Tracked.mono (hd : ∀ b x, due b x → due' b x) : Tracked rb first errors due' k where
  online hs d hdev b hb := hd _ _ (h.online hs d hdev b hb)
  walk hs d hdev hin :=
    (h.walk hs d hdev hin).imp id fun hw he b hb hr => hd _ _ (hw he b hb hr)
  rebuild hs d hdev b hb hr hw hin := hd _ _ (h.rebuild hs d hdev b hb hr hw hin)

theorem Tracked.recount {errors' : Nat} (hin : k.state = .online → k.cursor % rb = 0) :
    Tracked rb first errors' due k where
  online := h.online
  walk hs _ _ hne := absurd (hin hs) hne
  rebuild := h.rebuild

theorem Tracked.demoted (hd : Demoted recent k k') : Tracked rb first errors due k' := by
  rcases hd.kept_or_out with ⟨hs, hw, hdirty⟩ | ho
  · constructor
    · intro hst d hdev
      rw [hdirty]
      exact h.online (hs ▸ hst) d (hd.dev ▸ hdev)
    · intro hst d hdev
      rw [hd.cursor, hd.writeErrors]
      exact h.walk (hs ▸ hst) d (hd.dev ▸ hdev)
    · intro hst d hdev
      rw [hdirty, hw, hd.cursor]
      exact h.rebuild (hs ▸ hst) d (hd.dev ▸ hdev)
  · exact .of_out ho

/-- A failure counted on a copy puts its walk off. -/
theorem Tracked.counted :
    Tracked rb first errors due { k with writeErrors := k.writeErrors + 1 } where
  online := h.online
  walk hs d hdev hin := by
    obtain ⟨hle, -⟩ := h.walk hs d hdev hin
    refine ⟨Nat.le_succ_of_le hle, fun he => ?_⟩
    have he : k.writeErrors + 1 = errors := he
    omega
  rebuild := h.rebuild

/-- A refused write marks the region, unless the copy is ONLINE. -/
theorem Tracked.refused (r : Nat) : Tracked rb first errors due (k.refused r) := by
  constructor
  · intro (hs : k.state = .online) d hdev b hb
    rw [show (k.refused r).dirty = k.dirty from if_pos hs] at hb
    exact h.online hs d hdev b hb
  · exact h.counted.walk
  · intro (hs : k.state = .resilvering) d hdev b hf hb hw hin
    refine h.rebuild hs d hdev b hf ?_ hw hin
    have hb : b / rb ∉ insert r k.dirty := by
      rwa [show (k.refused r).dirty = insert r k.dirty from if_neg (by rw [hs]; decide)] at hb
    exact fun hm => hb (Finset.mem_insert_of_mem hm)

theorem Tracked.mark (r : Nat) : Tracked rb first errors due (k.mark r) where
  online hs d hdev b hb := h.online hs d hdev b fun hm => hb (Finset.mem_insert_of_mem hm)
  walk := h.walk
  rebuild hs d hdev b hf hb := h.rebuild hs d hdev b hf fun hm => hb (Finset.mem_insert_of_mem hm)

/-- The failure was counted, so the count of a walk inside a region no longer agrees. -/
theorem Tracked.refused_count {r : Nat} (hd : Demoted recent (k.refused r) k')
    (hs : k'.state = .online) {d : Nat → β} (hdev : k'.dev = some d) (hin : k'.cursor % rb ≠ 0) :
    k'.writeErrors ≠ errors := by
  have hwe : k'.writeErrors = k.writeErrors + 1 := hd.writeErrors
  have hcur : k'.cursor = k.cursor := hd.cursor
  have hdv : k'.dev = k.dev := hd.dev
  obtain ⟨hle, -⟩ := h.walk (hd.online_of hs) d (hdv ▸ hdev) (hcur ▸ hin)
  omega

end

theorem Tracked.lasting (rb first : Nat → Nat) (errors : Nat) (due : Nat → Nat → β → Prop) :
    Lasting fun v => Tracked (rb v) (first v) errors (due v) where
  demoted h hd := h.demoted hd
  counted h := h.counted
  refused r h := h.refused r
  mark r h := h.mark r

variable {blk : Nat} {x : β}

section

variable (h : Tracked rb first errors due k)

include h

/-- A copy takes a block; what is due of the others stays what it was. -/
theorem Tracked.put (hne : ∀ b y, b ≠ blk → due b y → due' b y) (hx : due' blk x) :
    Tracked rb first errors due' (k.put blk x) := by
  have hput : ∀ (d : Nat → β) (b : Nat), (b ≠ blk → due b (d b)) →
      due' b (Function.update d blk x b) := by
    intro d b hb
    by_cases hbb : b = blk
    · rw [hbb, Function.update_self]
      exact hx
    · rw [Function.update_of_ne hbb]
      exact hne b _ hbb (hb hbb)
  constructor
  · intro hs d hdev b hb
    obtain ⟨d₀, hd₀, rfl⟩ := Option.map_eq_some_iff.mp hdev
    exact hput d₀ b fun _ => h.online hs d₀ hd₀ b hb
  · intro hs d hdev hin
    obtain ⟨d₀, hd₀, rfl⟩ := Option.map_eq_some_iff.mp hdev
    obtain ⟨hle, hw⟩ := h.walk hs d₀ hd₀ hin
    exact ⟨hle, fun he b hb hr => hput d₀ b fun _ => hw he b hb hr⟩
  · intro hs d hdev b hf hb hw hin
    obtain ⟨d₀, hd₀, rfl⟩ := Option.map_eq_some_iff.mp hdev
    exact hput d₀ b fun _ => h.rebuild hs d₀ hd₀ b hf hb hw hin

/-- A copy that did not take a block stays tracked where nothing is asked of the block. -/
theorem Tracked.apart (hne : ∀ b y, b ≠ blk → due b y → due' b y)
    (ho : k.state = .online → ∀ d, k.dev = some d →
      (blk / rb ∉ k.dirty ∨ k.cursor % rb ≠ 0 ∧ k.writeErrors = errors) → due' blk (d blk))
    (hr : k.state = .resilvering → ∀ d, k.dev = some d → first ≤ blk → blk / rb ∉ k.dirty →
      due' blk (d blk)) :
    Tracked rb first errors due' k := by
  constructor
  · intro hs d hdev b hb
    by_cases hbb : b = blk
    · rw [hbb] at hb ⊢
      exact ho hs d hdev (.inl hb)
    · exact hne b _ hbb (h.online hs d hdev b hb)
  · intro hs d hdev hin
    obtain ⟨hle, hw⟩ := h.walk hs d hdev hin
    refine ⟨hle, fun he b hb hrg => ?_⟩
    by_cases hbb : b = blk
    · rw [hbb]
      exact ho hs d hdev (.inr ⟨hin, he⟩)
    · exact hne b _ hbb (hw he b hb hrg)
  · intro hs d hdev b hf hb hw hin
    by_cases hbb : b = blk
    · rw [hbb] at hf hb ⊢
      exact hr hs d hdev hf hb
    · exact hne b _ hbb (h.rebuild hs d hdev b hf hb hw hin)

section

variable (hd : Demoted recent (k.refused (blk / rb)) k') (hne : ∀ b y, b ≠ blk → due b y → due' b y)

include hd hne

theorem Tracked.refused_apart (hm : k'.state = .online → blk / rb ∈ k'.dirty ∨ ∀ y, due' blk y) :
    Tracked rb first errors due' k' := by
  refine ((h.refused _).demoted hd).apart hne ?_ ?_
  · intro hs d hdev hcase
    rcases hm hs with hmem | hall
    · rcases hcase with hnot | ⟨hin, he⟩
      · exact absurd hmem hnot
      · exact absurd he (h.refused_count hd hs hdev hin)
    · exact hall _
  · intro hs d hdev hf hnot
    have hrs : k.state = .resilvering := hd.resilvering_of hs
    rcases hd.kept_or_out with ⟨-, -, hdirty⟩ | hout
    · rw [hdirty, show (k.refused (blk / rb)).dirty = insert (blk / rb) k.dirty from
        if_neg (by rw [hrs]; decide)] at hnot
      exact absurd (Finset.mem_insert_self _ _) hnot
    · exact absurd hs hout.not_resilvering

theorem Tracked.hole_apart : Tracked rb first errors due' (k'.mark (blk / rb)) := by
  -- with nothing asked of the block first, then the mark makes up for it
  have hfree : Tracked rb first errors (fun b y => b ≠ blk → due' b y) k' :=
    h.refused_apart hd (fun b y hb hy _ => hne b y hb hy) fun _ => .inr fun y hb => absurd rfl hb
  refine (hfree.mark (blk / rb)).apart (fun b y hb hy => hy hb) ?_ ?_
  · intro (hs : k'.state = .online) d hdev hcase
    rcases hcase with hnot | ⟨hin, he⟩
    · exact absurd (Finset.mem_insert_self _ _) hnot
    · exact (h.refused_count hd hs hdev hin he).elim
  · intro _ d hdev hf hnot
    exact absurd (Finset.mem_insert_self _ _) hnot

end

section

variable {o landed : Prop} (hout : Outcome blk (blk / rb) x recent o landed k k')

include hout

/-- **A pool write keeps every copy tracked**: if it succeeded, with its data due of the
block, and if it failed, with nothing due of it.  The root may pass a copy over only below
`first_usable`. -/
theorem Tracked.outcome (hne : ∀ b y, b ≠ blk → due b y → due' b y) (hx : due' blk x)
    (hfail : ¬ landed → ∀ y, due' blk y) (ho : o → blk < first) :
    Tracked rb first errors due' k' := by
  cases hout with
  | took hw hl => exact h.put hne hx
  | skipped hroot hs =>
    refine h.apart hne (fun hon => ?_) fun _ d _ hf _ => ?_
    · rw [hs] at hon
      cases hon
    · have := ho hroot
      omega
  | missed hw hs => exact (Tracked.of_not_writable hw).mark _
  | empty hs hd =>
    refine .of_not_writable fun hw => ?_
    rw [PoolCopy.writable_iff, hd] at hw
    exact absurd hw.1 (by simp)
  | refused hw hd hm =>
    refine h.refused_apart hd hne fun hs => ?_
    by_cases hland : landed
    · exact .inl (hm hland hs)
    · exact .inr (hfail hland)
  | hole hw hd hs => exact h.hole_apart hd hne

/-- A write that no ONLINE copy took leaves a copy with what it had, unless it is being rebuilt
and took a block it is done with. -/
theorem Tracked.unlanded (hl : ¬ landed) (hk : Done rb first blk k → ∀ y, due blk y) :
    Tracked rb first errors due k' := by
  cases hout with
  | took hw hland =>
    have hrs := (PoolCopy.writable_iff.mp hw).2.resolve_left fun ho => hl (hland ho)
    have hoff : (k.put blk x).state ≠ .online := by
      rw [show (k.put blk x).state = .resilvering from hrs]
      decide
    refine ⟨fun hs => absurd hs hoff, fun hs => absurd hs hoff, fun _ d hd b hf hb hw hin => ?_⟩
    obtain ⟨d₀, hd₀, rfl⟩ := Option.map_eq_some_iff.mp hd
    by_cases hbb : b = blk
    · subst hbb
      exact hk ⟨hrs, hf, hb, hw, hin⟩ _
    · rw [Function.update_of_ne hbb]
      exact h.rebuild hrs d₀ hd₀ b hf hb hw hin
  | skipped hroot hs => exact h
  | missed hw hs => exact h.mark _
  | empty hs hd => exact h
  | refused hw hd hm => exact (h.refused _).demoted hd
  | hole hw hd hs => exact ((h.refused _).demoted hd).mark _

end

end

end Tracked

/-! ## A block of the walk -/

/-- What copying a block does to the target: nothing, where it is out or nothing is due of
the block; or it takes what is due; or it refuses it, and has the region marked unless
nothing is due. -/
inductive Copied (blk r : Nat) (recent : Finset Nat) (due : Nat → β → Prop) (k : PoolCopy β) :
    PoolCopy β → Prop
  | left {k' : PoolCopy β} (hd : Demoted recent k k')
      (h : ¬ k'.writable = true ∨ ∀ y, due blk y) : Copied blk r recent due k k'
  | took {k' : PoolCopy β} {x : β} (hd : Demoted recent k k') (hx : due blk x) :
      Copied blk r recent due k (k'.put blk x)
  | refused {k' k'' : PoolCopy β} (hd : Demoted recent k k')
      (hd' : Demoted recent (k'.refused r) k'')
      (h : k''.state = .online → ∀ y, due blk y) : Copied blk r recent due k k''
  | hole {k' k'' : PoolCopy β} (hd : Demoted recent k k')
      (hd' : Demoted recent (k'.refused r) k'') : Copied blk r recent due k (k''.mark r)

section Turn

variable {rb first errors blk : Nat} {due due' : Nat → β → Prop} {k k' : PoolCopy β}
  {recent : Finset Nat}

theorem Tracked.copied (h : Tracked rb first errors (fun b y => b ≠ blk → due b y) k)
    (hc : Copied blk (blk / rb) recent due k k') : Tracked rb first errors due k' := by
  have hne : ∀ b y, b ≠ blk → (b ≠ blk → due b y) → due b y := fun b y hb hy => hy hb
  cases hc with
  | left hd hout =>
    rcases hout with hw | hall
    · exact .of_not_writable hw
    · refine (h.demoted hd).mono fun b y hy => ?_
      by_cases hb : b = blk
      · rw [hb]
        exact hall y
      · exact hy hb
  | took hd hx => exact (h.demoted hd).put hne hx
  | refused hd hd' hout =>
    exact (h.demoted hd).refused_apart hd' hne fun hs => .inr (hout hs)
  | hole hd hd' => exact (h.demoted hd).hole_apart hd' hne

/-- A copied target has its cursor where it was and at most one more failure. -/
theorem Copied.walk (hc : Copied blk (blk / rb) recent due k k') :
    k'.cursor = k.cursor ∧ k'.writeErrors ≤ k.writeErrors + 1 ∧
      (k'.state = .online → k.state = .online) := by
  cases hc with
  | left hd _ => exact ⟨hd.cursor, by rw [hd.writeErrors]; omega, hd.online_of⟩
  | took hd _ => exact ⟨hd.cursor, hd.writeErrors.le.trans (Nat.le_succ _), hd.online_of⟩
  | refused hd hd' _ =>
    exact ⟨hd'.cursor.trans hd.cursor, (hd'.writeErrors.trans (congrArg (· + 1) hd.writeErrors)).le,
      fun hs => hd.online_of (hd'.online_of hs)⟩
  | hole hd hd' =>
    exact ⟨hd'.cursor.trans hd.cursor, (hd'.writeErrors.trans (congrArg (· + 1) hd.writeErrors)).le,
      fun hs => hd.online_of (hd'.online_of hs)⟩

end Turn

/-! ## The cursor -/

section Cursor

variable {rb first errors : Nat} {due : Nat → β → Prop} {k : PoolCopy β}

theorem div_succ_of_inside {b : Nat} (h : (b + 1) % rb ≠ 0) : (b + 1) / rb = b / rb := by
  rw [Nat.succ_div, if_neg fun hd => h (Nat.mod_eq_zero_of_dvd hd), Nat.add_zero]

theorem mod_succ_of_inside {b : Nat} (h : (b + 1) % rb ≠ 0) : (b + 1) % rb = b % rb + 1 := by
  have hdiv := div_succ_of_inside h
  have hsucc := Nat.div_add_mod (b + 1) rb
  have hb := Nat.div_add_mod b rb
  rw [hdiv] at hsucc
  omega

theorem le_of_region_begin {b blk : Nat} (h : b / rb = blk / rb) (hs : blk % rb = 0) :
    blk ≤ b :=
  calc blk = rb * (blk / rb) := (Nat.mul_div_cancel' (Nat.dvd_of_mod_eq_zero hs)).symm
    _ = rb * (b / rb) := by rw [h]
    _ ≤ b := Nat.mul_div_le b rb

theorem le_of_region_end (hrb : 0 < rb) {b blk : Nat} (h : b / rb = blk / rb)
    (he : (blk + 1) % rb = 0) : b ≤ blk := by
  have hdvd : rb ∣ blk + 1 := Nat.dvd_of_mod_eq_zero he
  have hdiv : (blk + 1) / rb = blk / rb + 1 := by rw [Nat.succ_div, if_pos hdvd]
  have hlt : b < rb * (b / rb + 1) := Nat.lt_mul_div_succ b hrb
  rw [h, ← hdiv, Nat.mul_div_cancel' hdvd] at hlt
  omega

/-- The walk of an ONLINE copy goes on: the errors are noted as a region is entered, and the
region's mark goes at its last block if there were no more. -/
theorem Tracked.begin_online (hrb : 0 < rb) (h : Tracked rb first errors due k)
    (hs : k.state = .online) {errors' n : Nat}
    (he : errors' = if k.cursor % rb = 0 then k.writeErrors else errors)
    (hlt : k.writeErrors < errors' + 2 ^ 32) (hend : ∀ b, n ≤ b → ∀ y, due b y) :
    Tracked rb first errors' (fun b y => b ≠ k.cursor → due b y)
      { k with
        cursor := k.cursor + 1
        dirty :=
          if ((k.cursor + 1) % rb = 0 ∨ n ≤ k.cursor + 1) ∧
              k.writeErrors % 2 ^ 32 = errors' % 2 ^ 32 then k.dirty.erase (k.cursor / rb)
          else k.dirty } := by
  have hle : ∀ d, k.dev = some d → errors' ≤ k.writeErrors := by
    intro d hd
    by_cases hin : k.cursor % rb = 0
    · rw [he, if_pos hin]
    · rw [he, if_neg hin]
      exact (h.walk hs d hd hin).1
  -- without a failure, what is behind the cursor in its region is as it should be
  have hfill : ∀ d, k.dev = some d → k.writeErrors = errors' → ∀ b < k.cursor,
      b / rb = k.cursor / rb → due b (d b) := by
    intro d hd hw b hb hr
    by_cases hin : k.cursor % rb = 0
    · have := le_of_region_begin hr hin
      omega
    · rw [he, if_neg hin] at hw
      exact (h.walk hs d hd hin).2 hw b hb hr
  refine ⟨fun _ d hd b hb hne => ?_, fun _ d hd hin => ?_, fun hr => ?_⟩
  · by_cases hm : b / rb ∈ k.dirty
    · -- only the mark of the cursor's region can have gone
      by_cases hclear : ((k.cursor + 1) % rb = 0 ∨ n ≤ k.cursor + 1) ∧
          k.writeErrors % 2 ^ 32 = errors' % 2 ^ 32
      · simp only [if_pos hclear, Finset.mem_erase, not_and] at hb
        have hr : b / rb = k.cursor / rb := by
          by_contra hr
          exact hb hr hm
        have hw : k.writeErrors = errors' := by
          have := hle d hd
          omega
        by_cases hlt' : b < k.cursor
        · exact hfill d hd hw b hlt' hr
        · rcases hclear.1 with hlast | hn
          · have := le_of_region_end hrb hr hlast
            omega
          · exact hend b (by omega) _
      · simp only [if_neg hclear] at hb
        exact absurd hm hb
    · exact h.online hs d hd b hm
  · refine ⟨hle d hd, fun hw b hb hr hne => ?_⟩
    have hb : b < k.cursor + 1 := hb
    rw [div_succ_of_inside hin] at hr
    exact hfill d hd hw b (by omega) hr
  · exact absurd (hs.symm.trans hr) (by decide)

/-- The walk of a RESILVERING copy goes on: the region's mark goes as it is entered. -/
theorem Tracked.begin_rebuild (hrb : 0 < rb) (h : Tracked rb first errors due k)
    (hs : k.state = .resilvering) :
    Tracked rb first errors (fun b y => b ≠ k.cursor → due b y)
      { k with
        cursor := k.cursor + 1
        dirty := if k.cursor % rb = 0 ∧ k.whole = false then k.dirty.erase (k.cursor / rb)
          else k.dirty } := by
  refine ⟨fun hon => absurd (hs.symm.trans hon) (by decide),
    fun hon => absurd (hs.symm.trans hon) (by decide), fun _ d hd b hf hb hw hin hne => ?_⟩
  have hw : k.whole = true → b < k.cursor + 1 := hw
  -- in the cursor's region, only what is behind the cursor is asked for
  have hbehind : b / rb = k.cursor / rb → b < k.cursor := by
    intro hr
    have hlt : b < k.cursor + 1 := by
      by_cases hlast : (k.cursor + 1) % rb = 0
      · have := le_of_region_end hrb hr hlast
        omega
      · exact hin hlast (hr.trans (div_succ_of_inside hlast).symm)
    omega
  refine h.rebuild hs d hd b hf (fun hm => ?_) (fun hwh => ?_) fun _ hr => hbehind hr
  · by_cases hclear : k.cursor % rb = 0 ∧ k.whole = false
    · simp only [if_pos hclear, Finset.mem_erase, not_and] at hb
      have hr : b / rb = k.cursor / rb := by
        by_contra hr
        exact hb hr hm
      have := le_of_region_begin hr hclear.1
      omega
    · simp only [if_neg hclear] at hb
      exact hb hm
  · have := hw hwh
    omega

/-- A region that was not missed is passed over. -/
theorem Tracked.pass (h : Tracked rb first errors due k) {cursor : Nat}
    (hfrom : k.cursor % rb = 0) (hto : cursor % rb = 0) (hw : k.whole = false) :
    Tracked rb first errors due { k with cursor := cursor } where
  online := h.online
  walk _ _ _ hin := absurd hto hin
  rebuild hs d hd b hf hb _ _ :=
    h.rebuild hs d hd b hf hb (fun hwh => absurd (hw.symm.trans hwh) (by decide))
      fun hin => absurd hfrom hin

section

variable (h : Tracked rb first errors due k) {n : Nat} (hn : n ≤ k.cursor)
  (hend : ∀ b, n ≤ b → ∀ y, due b y)

include h hn hend

theorem Tracked.pass_over : Tracked rb first errors due { k with whole := false, cursor := 0 } where
  online := h.online
  walk _ _ _ hin := absurd (Nat.zero_mod rb) hin
  rebuild hs d hd b hf hb _ _ := by
    by_cases hlt : b < n
    · exact h.rebuild hs d hd b hf hb (fun _ => by omega) fun _ _ => by omega
    · exact hend b (by omega) _

theorem Tracked.not_whole : Tracked rb first errors due { k with whole := false } where
  online := h.online
  walk := h.walk
  rebuild hs d hd b hf hb _ hin := by
    by_cases hlt : b < n
    · exact h.rebuild hs d hd b hf hb (fun _ => by omega) hin
    · exact hend b (by omega) _

end

end Cursor

end CosmoOS.Cosmofs
