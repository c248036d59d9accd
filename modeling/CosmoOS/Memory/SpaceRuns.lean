import CosmoOS.Lib.Transition
import CosmoOS.Memory.UserSpace

/-!
# Runs of calls on a user address space

A space starts empty; calls are made on it, its limits are set, a shared-memory attach is taken out
by its tag, and it is forked, after which the child is a space like any other.  In every space of
such a run the footprints of the regions are in order and apart, no region is writable and
executable, and `mapped_pages` is the number of pages mapped; every call that succeeds does what it
asks for, and every call that fails leaves the space as it was.

`map_replace` clears the range by extents and then inserts the new region by footprints, and asserts
that the insert cannot collide.  But a guard page is in no extent: a replacement of the page just
below the stack, or one with a guard of its own just above another region, finds the range clear and
the footprints meeting.  `GuardClear` is the condition under which they do not, and a replacement
that its checks let through returns exactly then.
-/

namespace CosmoOS.Memory.UserSpace

open Lib.Segments List

variable {x : Region}

/-! ## Runs of calls -/

variable {s s' : Space} {c : Call} {base : UInt64} {placed : Option ℕ} {va : ℕ} {l : List Region}
    {fresh : Region}

/-- **Every call** does what it asks for or leaves the space as it was. -/
theorem perform_does (hs : Sound s) {o : Option Result} (h : perform s c = o) :
    Does s (fun placed => c.range placed)
      (fun placed va => c.attr placed (view s.regions) va) o := by
  subst h
  cases c with
  | mapAnon place size prot flags name alloc err => exact mapAnon_does hs
  | mapAnonReplace base size prot flags name alloc spares => exact vmUserMapAnonReplace_does hs
  | mapFile place size prot maxprot flags vn off name tag alloc mappings spares =>
    exact mapFile_does hs
  | unmap base size strict spares => exact vmUserUnmap_does hs
  | protect base size prot spares => exact vmUserProtect_does hs
  | remap base old new alloc => exact vmUserRemap_does hs

/-- A space as `vm_space_create_user` makes it. -/
def Initial (s : Space) : Prop := s.regions = [] ∧ s.mappedPages = 0

/-- What may happen to a space: a call returns, the limits are set, a shared-memory attach is
taken out; or the space is forked, and the run goes on in the child. -/
inductive Step : Space → Space → Prop
  | call (s : Space) (c : Call) (res : Except Errno (Option ℕ)) (s' : Space)
      (h : perform s c = some (res, s')) : Step s s'
  | setLimits (s : Space) (limit : ℕ) : Step s { s with limitMappedPages := limit }
  | unmapTag (s : Space) (tag : ℕ) : Step s (vmUserUnmapTag s tag)
  | fork (s : Space) : Step s (forked s)

theorem pages_filter (p : Region → Bool) (l : List Region) :
    pages (l.filter fun r => !p r) + pages (l.filter p) = pages l := by
  induction l with
  | nil => rfl
  | cons r rest ih =>
    cases hp : p r with
    | true =>
      rw [filter_cons_of_neg (by simp [hp]), filter_cons_of_pos hp, pages_cons,
        pages_cons]
      omega
    | false =>
      rw [filter_cons_of_pos (by simp [hp]), filter_cons_of_neg (by simp [hp]),
        pages_cons, pages_cons]
      omega

theorem sound_unmapTag (hs : Sound s) (tag : ℕ) : Sound (vmUserUnmapTag s tag) := by
  simp only [vmUserUnmapTag]
  split_ifs with htag
  · exact hs
  · refine ⟨hs.good.sublist filter_sublist, ?_⟩
    rw [hs.charged, ← pages_filter (fun r => r.kind == .file &&
      (r.fmap.any fun m => m.tag == tag) && !r.flags.quiesced) s.regions, Nat.add_sub_cancel]

theorem Sound.step (hs : Sound s) (h : Step s s') : Sound s' := by
  cases h with
  | call c res s' h =>
    have hdoes := perform_does hs h
    cases res with
    | error e =>
      rw [show s' = s from hdoes]
      exact hs
    | ok placed => exact hdoes.sound
  | setLimits limit => exact ⟨hs.good, hs.charged⟩
  | unmapTag tag => exact sound_unmapTag hs tag
  | fork => exact ⟨hs.good, rfl⟩

theorem reachable_sound (h : Lib.Reachable Initial Step s) : Sound s := by
  refine Lib.Reachable.invariant ?_ (fun _ _ hs hstep => hs.step hstep) h
  rintro s ⟨hregions, hmapped⟩
  refine ⟨?_, ?_⟩
  · rw [hregions]
    exact Good.nil
  · rw [hregions, hmapped]
    rfl

/-- The call leaves its range mapped: every one does but `vm_user_unmap` and a shrink. -/
def Call.maps : Call → Bool
  | .unmap _ _ _ _ => false
  | .remap _ oldSize newSize _ => !decide (newSize < oldSize)
  | _ => true

/-- The range of a protection that succeeds was mapped before. -/
theorem protect_mapped (hs : Sound s) {size : UInt64} {prot : Prot} {spares : Spares}
    (h : vmUserProtect s base size prot spares = some (.ok placed, s'))
    (hva : base.toNat ≤ va ∧ va < base.toNat + size.toNat) :
    (view s.regions va).isSome := by
  simp only [vmUserProtect] at h
  split_ifs at h with hrange hwx hq hfull hacc hspare
  all_goals try cases h
  obtain ⟨r, hr, hover⟩ :=
    fullyMapped_spec (by simpa [rangeFullyMapped] using hfull) hva.1 hva.2
  have hsome := (view_eq_some hs.good).mpr ⟨r, hr, hover, rfl⟩
  rw [hsome]
  rfl

/-- What is resized is mapped at its base. -/
theorem remap_mapped (hs : Sound s) {old new : UInt64} {alloc : Bool}
    (h : vmUserRemap s base old new alloc = some (.ok placed, s')) :
    (view s.regions base.toNat).isSome := by
  have hlookup : ∃ c, remapLookup s.regions base.toNat old.toNat = .ok c := by
    cases hc : remapLookup s.regions base.toNat old.toNat with
    | ok c => exact ⟨c, rfl⟩
    | error e =>
      simp only [vmUserRemap, hc, fail] at h
      split_ifs at h <;> cases h
  obtain ⟨c, hc⟩ := hlookup
  obtain ⟨hlist, -, hbase, -⟩ := remapLookup_ok hc
  have hmem : c.here ∈ s.regions := by
    rw [← hlist]
    simp [Cursor.list]
  have hover : c.here.base ≤ base.toNat ∧ base.toNat < c.here.stop := by
    have := (hs.good.ok c.here hmem).base_lt_stop
    omega
  have hsome := (view_eq_some hs.good).mpr ⟨c.here, hmem, hover, rfl⟩
  rw [hsome]
  rfl

/-- Where a call asks for something to be mapped, it is there to be asked for. -/
theorem attr_isSome (hs : Sound s) (h : perform s c = some (.ok placed, s'))
    (hmaps : c.maps = true) (hva : (c.range placed).1 ≤ va ∧ va < (c.range placed).2) :
    (c.attr placed (view s.regions) va).isSome := by
  cases c with
  | mapAnon place size prot flags name alloc err => rfl
  | mapAnonReplace base size prot flags name alloc spares => rfl
  | mapFile place size prot maxprot flags vn off name tag alloc mappings spares => rfl
  | unmap base size strict spares => cases hmaps
  | protect base size prot spares =>
    rw [Call.attr, Option.isSome_map]
    exact protect_mapped hs h hva
  | remap base old new alloc =>
    have hnlt : ¬ new < old := by simpa [Call.maps] using hmaps
    rw [Call.attr, if_neg hnlt]
    exact remap_mapped hs h

/-- **The calls on a user address space.**  In every space a run leads to, the footprints of the
regions are in order and apart, no region is writable and executable, and `mapped_pages` is the
number of pages mapped.  A call that fails leaves the space as it was.  One that succeeds changes
the range it asks for, to what it asks for, and nothing else; the range is then mapped, unless it
was to be unmapped; and if more pages are charged than before, they are within the limit. -/
theorem calls_do_as_requested (hs : Lib.Reachable Initial Step s) :
    (s.regions.Pairwise fun a b => a.base < b.base ∧ a.footHi ≤ b.footLo) ∧
      (∀ r ∈ s.regions, r.prot.writeExec = false) ∧
      s.mappedPages = {p : ℕ | (view s.regions (p * pageSize)).isSome}.ncard ∧
      ∀ c : Call,
        (∀ e s', perform s c = some (.error e, s') → s' = s) ∧
        ∀ placed s', perform s c = some (.ok placed, s') →
          (∀ va, view s'.regions va = c.requested placed (view s.regions) va) ∧
          (c.maps = true → ∀ va, (c.range placed).1 ≤ va ∧ va < (c.range placed).2 →
            (view s'.regions va).isSome) ∧
          (s.mappedPages < s'.mappedPages → s'.mappedPages ≤ s'.limitMappedPages) := by
  have hsound := reachable_sound hs
  refine ⟨?_, fun r hr => (hsound.good.ok r hr).wx, ?_, ?_⟩
  · refine hsound.good.laid.imp_of_mem ?_
    intro a b ha _ hab
    refine ⟨?_, hab⟩
    have := (hsound.good.ok a ha).base_lt_stop
    have := stop_le_base_of_foot hab
    omega
  · rw [(ncard_covered hsound.good).1]
    exact hsound.charged
  · intro c
    refine ⟨fun e s' h => perform_does hsound h, ?_⟩
    intro placed s' h
    have hbecame : Became s s' (c.range placed).1 (c.range placed).2
        (c.attr placed (view s.regions)) := perform_does hsound h
    refine ⟨hbecame.view, ?_, ?_⟩
    · intro hmaps va hva
      rw [hbecame.view va, if_pos hva]
      exact attr_isSome hsound h hmaps hva
    · rw [hbecame.limit]
      exact hbecame.grown

/-- A space with nothing but a stack of four pages and the guard below it. -/
def stackSpace : Space where
  regions := [⟨0x500000, 0x4000, ⟨true, true, false, false⟩, .anon,
    ⟨true, false, false, true, false⟩, none, 1⟩]
  mappedPages := 4
  limitMappedPages := 64

theorem stackSpace_reachable : Lib.Reachable Initial Step stackSpace :=
  Lib.Reachable.step (Lib.Reachable.init (s := ⟨[], 0, 64⟩) ⟨rfl, rfl⟩)
    (.call _ (.mapAnon (.fixed 0x500000) 0x4000 ⟨true, true, false, false⟩
      ⟨true, false, false, false, false⟩ 1 true none) (.ok none) _ (by decide))

/-- The stack with its second page unmapped. -/
def holedSpace : Space where
  regions := [⟨0x500000, 0x1000, ⟨true, true, false, false⟩, .anon,
      ⟨true, false, false, true, false⟩, none, 1⟩,
    ⟨0x502000, 0x2000, ⟨true, true, false, false⟩, .anon,
      ⟨false, false, false, true, false⟩, none, 1⟩]
  mappedPages := 3
  limitMappedPages := 64

/-- A page unmapped from the middle of a stack. -/
theorem calls_do_as_requested_stackSpace :
    perform stackSpace (.unmap 0x501000 0x1000 true ⟨true, true⟩) = some (.ok none, holedSpace) ∧
      ∀ va, view holedSpace.regions va =
        (Call.unmap 0x501000 0x1000 true ⟨true, true⟩).requested none
          (view stackSpace.regions) va := by
  have hrun : perform stackSpace (.unmap 0x501000 0x1000 true ⟨true, true⟩) =
      some (.ok none, holedSpace) := by decide
  obtain ⟨-, -, -, hcalls⟩ := calls_do_as_requested stackSpace_reachable
  exact ⟨hrun, ((hcalls _).2 none holedSpace hrun).1⟩

/-! ## Replacing next to a guard -/

/-- The footprints around the range keep clear of the new region's: of a region that begins below
the range, what is left of it there; of one that ends above it, what is left there.  A region cut
at an end of the range has no guard on that side. -/
structure GuardClear (l : List Region) (fresh : Region) : Prop where
  below : ∀ r ∈ l, r.base < fresh.base →
    (if r.stop ≤ fresh.base then r.footHi else fresh.base) ≤ fresh.footLo
  above : ∀ r ∈ l, fresh.stop < r.stop →
    fresh.footHi ≤ if fresh.stop ≤ r.base then r.footLo else fresh.stop

theorem footHi_clipBelow {r : Region} (h : r.base < va) :
    (r.clipBelow va).footHi = if r.stop ≤ va then r.footHi else va := by
  rw [Region.clipBelow]
  split_ifs
  · rfl
  · simp only [Region.footHi, Region.headAt, Bool.false_eq_true, if_false]
    omega

theorem footLo_clipAbove (va : ℕ) (r : Region) :
    (r.clipAbove va).footLo = if va ≤ r.base then r.footLo else va := by
  rw [Region.clipAbove]
  split_ifs <;> simp [Region.footLo, Region.tailAt]

/-- What is left below the range and the new region collide when the footprint of what is left
reaches into the new one's. -/
theorem collides_below (hf : RegionOk fresh) (hx : x.base < fresh.base) :
    fresh.claimed.Collides x ↔ fresh.footLo < x.footHi := by
  constructor
  · exact fun h => h.1
  · intro h
    refine ⟨h, ?_⟩
    have hlo := x.footLo_le
    have hhi := fresh.stop_le_footHi
    have hpos := hf.base_lt_stop
    change x.footLo < fresh.footHi
    omega

theorem collides_above (hf : RegionOk fresh) (hx : fresh.stop < x.stop) :
    fresh.claimed.Collides x ↔ x.footLo < fresh.footHi := by
  constructor
  · exact fun h => h.2
  · intro h
    refine ⟨?_, h⟩
    have hlo := fresh.footLo_le
    have hhi := x.stop_le_footHi
    have hpos := hf.base_lt_stop
    change fresh.footLo < x.footHi
    omega

/-- The new region collides with nothing that is left exactly when the guards are clear. -/
theorem clear_iff_guardClear (hf : RegionOk fresh) :
    (∀ x ∈ below fresh.base l ++ above fresh.stop l, ¬ fresh.claimed.Collides x) ↔
      GuardClear l fresh := by
  have hbelow : ∀ r : Region, r.base < fresh.base →
      (¬ fresh.claimed.Collides (r.clipBelow fresh.base) ↔
        (if r.stop ≤ fresh.base then r.footHi else fresh.base) ≤ fresh.footLo) := by
    intro r hlt
    rw [collides_below hf (by rwa [Region.base_clipBelow]), footHi_clipBelow hlt, not_lt]
  have habove : ∀ r : Region, fresh.stop < r.stop →
      (¬ fresh.claimed.Collides (r.clipAbove fresh.stop) ↔
        fresh.footHi ≤ if fresh.stop ≤ r.base then r.footLo else fresh.stop) := by
    intro r hlt
    rw [collides_above hf (by rwa [Region.stop_clipAbove hlt]), footLo_clipAbove, not_lt]
  constructor
  · intro h
    refine ⟨fun r hr hlt => (hbelow r hlt).mp (h _ ?_), fun r hr hlt => (habove r hlt).mp (h _ ?_)⟩
    · exact mem_append_left _ (mem_below.mpr ⟨r, hr, hlt, rfl⟩)
    · exact mem_append_right _ (mem_above.mpr ⟨r, hr, hlt, rfl⟩)
  · intro h x hx
    rcases mem_append.mp hx with hx | hx
    · obtain ⟨r, hr, hlt, rfl⟩ := mem_below.mp hx
      exact (hbelow r hlt).mpr (h.below r hr hlt)
    · obtain ⟨r, hr, hlt, rfl⟩ := mem_above.mp hx
      exact (habove r hlt).mpr (h.above r hr hlt)

theorem spaceInsert_isSome_iff (hg : Good l) {region : Region} (hr : RegionOk region) :
    (spaceInsert region [] l).isSome ↔ ∀ x ∈ l, ¬ region.Collides x := by
  constructor
  · intro h x hx hcol
    obtain ⟨c, hc⟩ := Option.isSome_iff_exists.mp h
    obtain ⟨-, passed, -, hlist, hpassed, hafter⟩ := spaceInsert_some hr.base_lt_stop hg hc
    rw [← hlist] at hx
    rcases mem_append.mp hx with hx | hx
    · have := hpassed x (mem_reverse.mp hx)
      exact absurd hcol.1 (not_lt.mpr this)
    · have := hafter x hx
      exact absurd hcol.2 (not_lt.mpr this)
  · intro h
    obtain ⟨c, hc⟩ := spaceInsert_of_clear h
    rw [hc]
    rfl

/-- **When a replacement returns.**  In every space a run leads to, and for every prepared region
over a range of the window, `map_replace` returns, with an error and the space as it was or with
success, if and only if its checks refuse it or the guards around the range are clear.  Otherwise
its assertion that the insert cannot collide fails. -/
theorem replace_returns_iff_guardClear (hs : Lib.Reachable Initial Step s)
    (hf : RegionOk fresh) (spares : Spares) :
    (∃ res s', mapReplace s fresh spares = some (res, s') ∧ ∀ e, res = .error e → s' = s) ↔
      Refused s fresh spares ∨ GuardClear s.regions fresh := by
  have hsound := reachable_sound hs
  obtain ⟨l, -, hsame, hdiv⟩ := cutEnds_spec hsound.good hf.validRange
  obtain ⟨hkept, -⟩ := kept_spec hsame hdiv
  rw [← Region.stop] at hkept
  by_cases hrefused : Refused s fresh spares
  · obtain ⟨e, he⟩ := mapReplace_refused hrefused
    exact ⟨fun _ => Or.inl hrefused, fun _ => ⟨_, s, he, fun _ _ => rfl⟩⟩
  · rw [mapReplace_of_passed hsound hf hrefused, or_iff_right hrefused, ← clear_iff_guardClear hf,
      ← spaceInsert_isSome_iff hkept (claimed_ok hf)]
    constructor
    · rintro ⟨res, s', h, -⟩
      obtain ⟨c, hc, -⟩ := Option.map_eq_some_iff.mp h
      rw [hc]
      rfl
    · intro hclear
      obtain ⟨c, hc⟩ := Option.isSome_iff_exists.mp hclear
      rw [hc]
      exact ⟨.ok none, _, rfl, fun _ he => by cases he⟩

/-- The third page of the stack replaced: the guard is two pages away. -/
theorem replace_returns_iff_guardClear_stackSpace :
    ∃ res s', mapReplace stackSpace (anonRegion 0x502000 0x1000 ⟨true, false, false, false⟩
        ⟨false, false, false, false, false⟩ 2) ⟨true, true⟩ = some (res, s') ∧
      ∀ e, res = .error e → s' = stackSpace := by
  have hv : ValidRange 0x502000 0x1000 := by constructor <;> decide
  refine (replace_returns_iff_guardClear stackSpace_reachable
    (regionOk_anon hv rfl ⟨false, false, false, false, false⟩ 2) ⟨true, true⟩).mpr (Or.inr ?_)
  constructor
  · intro r hr
    rw [stackSpace, mem_singleton] at hr
    subst hr
    decide
  · intro r hr
    rw [stackSpace, mem_singleton] at hr
    subst hr
    decide

/-- **A replacement that stops the machine.**  The space has nothing in it but a stack, with the
guard page `vm_user_map_anon` gives it.  Replacing the guard page by an ordinary mapping passes
every check and then fails the assertion; so does a mapping with a guard of its own just above
the stack. -/
theorem replace_guard_page_asserts :
    Lib.Reachable Initial Step stackSpace ∧
      perform stackSpace (.mapAnonReplace 0x4ff000 0x1000 ⟨true, true, false, false⟩
        ⟨false, false, false, false, false⟩ 2 true ⟨true, true⟩) = none ∧
      perform stackSpace (.mapAnonReplace 0x504000 0x1000 ⟨true, true, false, false⟩
        ⟨true, false, false, false, false⟩ 2 true ⟨true, true⟩) = none :=
  ⟨stackSpace_reachable, by decide, by decide⟩

/-! ## Placement -/

section

variable {l : List Region} {size cursor b : ℕ} (hwhole : size % pageSize = 0) (hpos : 0 < size)

include hwhole hpos

/-- First fit goes past no place that fits. -/
theorem firstFit_le (hok : ∀ r ∈ l, RegionOk r) (hal : cursor % pageSize = 0)
    (hlow : userLo ≤ cursor) (hfit : Fits l cursor size b) :
    firstFit size cursor l ≠ 0 ∧ firstFit size cursor l ≤ b := by
  have hlo : 0 < userLo := by decide
  have hhi : userHi < 2 ^ 64 := by decide
  induction l generalizing cursor with
  | nil =>
    have := hfit.low
    have := hfit.high
    rw [firstFit, if_pos (by omega)]
    omega
  | cons r rest ih =>
    obtain ⟨hle, -⟩ := hfit.low
    have hr := hok r mem_cons_self
    have hrlo := r.footLo_le
    have hrhi := hr.high
    have hstop := hr.base_lt_stop
    have hrest {c : ℕ} (hc : c % pageSize = 0) (hl : userLo ≤ c) (hcb : c ≤ b) :=
      ih (fun x hx => hok x (mem_cons_of_mem r hx)) hc hl
        ⟨⟨hcb, by omega⟩, hfit.aligned, hfit.high, fun x hx => hfit.clear x (mem_cons_of_mem r hx)⟩
    rw [firstFit]
    split_ifs with hskip hgap hvalid
    · exact hrest hal hlow hle
    · omega
    · refine absurd ((userRangeValid_iff ?_ ?_).mpr ⟨hal, hwhole, hpos, hlow, ?_⟩) hvalid <;> omega
    · -- a place below the region would have been taken
      have hclear := hfit.clear r mem_cons_self
      have hmod := hr.footHi_mod
      refine hrest ?_ (by omega) (by omega)
      simp only [pageSize] at *
      omega

theorem rangeFirstFitLocked_le {lowest : ℕ} (hok : ∀ r ∈ l, RegionOk r)
    (hfit : Fits l lowest size b) :
    rangeFirstFitLocked l lowest size ≠ 0 ∧ rangeFirstFitLocked l lowest size ≤ b := by
  obtain ⟨hle, hal, hhigh, hclear⟩ := hfit
  have hup : pageAlignUp (max lowest userLo) ≤ b := by
    simp only [pageAlignUp, pageSize] at *
    omega
  have := le_pageAlignUp (max lowest userLo)
  rw [rangeFirstFitLocked, if_neg (by simp only [pageSize] at *; omega)]
  exact firstFit_le hwhole hpos hok (pageAlignUp_mod _) (by omega)
    ⟨⟨hup, hle.2⟩, hal, hhigh, hclear⟩

end

/-- A place that fits is clear for a region there. -/
theorem Fits.insert {l : List Region} {lowest size b : ℕ} (h : Fits l lowest size b) {r : Region}
    (hbase : r.base = b) (hsize : r.size = size) : ∃ c, spaceInsert r [] l = some c := by
  refine spaceInsert_of_clear fun x hx hcol => ?_
  have hclear := h.clear x hx
  have hlow := h.low.2
  have hlo : pageSize ≤ userLo := by decide
  simp only [Region.Collides, Region.footLo, Region.footHi] at hclear hcol
  split_ifs at hclear hcol <;> omega

/-- **A placement is at the lowest place that fits.**  In every space that calls can make, and for
every size in pages, what `range_first_fit_locked` finds is a place from `lowest` on with a free
page on either side, the lowest there is, and it finds one if there is one; so a `map_anon` or a
`map_file` that is left to choose its place, within the limit and with the memory it needs, returns,
and not for want of space, where one fits. -/
theorem placement_lowest {s : Space} {lowest size : UInt64} (hs : Lib.Reachable Initial Step s)
    (hsize : (Place.chosen lowest).rangeOk size = true) :
    (∀ a, rangeFirstFitLocked s.regions lowest.toNat size.toNat = a →
      (a ≠ 0 → Fits s.regions lowest.toNat size.toNat a) ∧
      ∀ b, Fits s.regions lowest.toNat size.toNat b → a ≠ 0 ∧ a ≤ b) ∧
    (s.mappedPages + size.toNat / pageSize ≤ s.limitMappedPages →
      (∃ b, Fits s.regions lowest.toNat size.toNat b) →
      (∀ prot flags name, ∃ res s',
        mapAnon s (.chosen lowest) size prot flags name true none = some (res, s') ∧
          res ≠ .error .enomem) ∧
      ∀ prot maxprot flags vn off name tag mappings spares, ∃ res s',
        mapFile s (.chosen lowest) size prot maxprot flags vn off name tag true mappings spares =
            some (res, s') ∧ res ≠ .error .enomem) := by
  have hgood := (reachable_sound hs).good
  obtain ⟨hwhole, hpos⟩ := Place.rangeOk_chosen.mp hsize
  have hle {b : ℕ} (hb : Fits s.regions lowest.toNat size.toNat b) :=
    rangeFirstFitLocked_le hwhole hpos hgood.ok hb
  refine ⟨?_, fun hlimit hexists => ?_⟩
  · rintro a rfl
    exact ⟨rangeFirstFitLocked_spec hgood, fun b => hle⟩
  obtain ⟨b, hb⟩ := hexists
  have hzero := (hle hb).1
  have hfit := rangeFirstFitLocked_spec hgood hzero
  have hv := validRange_of_chosen hgood hsize hzero
  have hlt := hfit.high
  set base := rangeFirstFitLocked s.regions lowest.toNat size.toNat with hbase
  refine ⟨fun prot flags name => ?_, fun prot maxprot flags vn off name tag mappings spares => ?_⟩
  · obtain ⟨c, hc⟩ := hfit.insert (r := anonRegion base size.toNat prot flags name) rfl rfl
    have hvalid : userRangeValid base size.toNat = true :=
      (userRangeValid_iff (lt_of_le_of_lt (by omega : base ≤ userHi) (by decide))
        size.toNat_lt).mpr hv
    simp only [mapAnon, fail, hsize, Bool.true_eq_false, if_false, ite_self,
      if_neg (not_lt.mpr hlimit), ← hbase, if_neg hzero, hvalid, hc, finishAnon]
    split_ifs
    · exact ⟨_, _, rfl, by simp⟩
    · exact ⟨_, _, rfl, by simp⟩
  · obtain ⟨c, hc⟩ := hfit.insert
      (r := (fileRegion base size.toNat prot maxprot flags vn off.toNat name tag).claimed) rfl rfl
    simp only [mapFile, mapFileChosen, fail, Bool.true_eq_false, if_false,
      if_neg (not_lt.mpr hlimit), ← hbase, if_neg hzero, hc]
    split_ifs <;> exact ⟨_, _, rfl, by simp⟩

/-- Above a stack, with the page on either side kept free. -/
theorem placement_lowest_stackSpace :
    rangeFirstFitLocked stackSpace.regions 0x500000 0x1000 = 0x505000 ∧
      Fits stackSpace.regions 0x500000 0x1000 0x505000 := by
  have hfound : rangeFirstFitLocked stackSpace.regions (0x500000 : UInt64).toNat
      (0x1000 : UInt64).toNat = 0x505000 := by decide
  have hsize : (Place.chosen 0x500000).rangeOk 0x1000 = true := by decide
  exact ⟨hfound, ((placement_lowest stackSpace_reachable hsize).1 _ hfound).1 (by decide)⟩

end CosmoOS.Memory.UserSpace
