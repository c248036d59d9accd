import CosmoOS.Memory.Regions

/-!
# The calls that change a user address space

`vmm.c` maps, unmaps, protects, resizes and replaces ranges of a user address space: the calls cut
the regions at the range's ends, edit those between and join what could be one region again.  What
this does is best seen in the partial function from addresses to attributes (`view`).

`Call` is a call with everything it is given from outside, `perform` what it does.  Besides its
arguments a call is given whether the records it needs were allocated, whether populating failed,
and for a file the mappings the vnode has.  Arguments are 64-bit words.  An assertion that fails
stops the machine; that is `none`.

`map_replace` and the shrinking `vm_user_remap` release the space lock while they tear pages down,
with the range *claimed* in between.  Here a call is one step, and the claim is set and taken back
inside it.

## What is proved

`Call.requested` says what a call asks for.  From a sound space, a call that succeeds makes the
space become that and nothing else, and a call that fails leaves it as it was (`Does`); there is one
lemma for each call.
-/

namespace CosmoOS.Memory.UserSpace

open Lib.Segments List

variable {new : Option ℕ → ℕ → Option Attr} {flags : Flags}

/-! ## Spaces and results -/

/-- `struct vm_space`, as far as the region list goes. -/
structure Space where
  regions : List Region
  mappedPages : ℕ
  limitMappedPages : ℕ
deriving DecidableEq, Repr

/-- The errors of the calls. -/
inductive Errno where
  | einval
  | enomem
  | eexist
  | ebusy
  | efault
  | eacces
  | etxtbsy
deriving DecidableEq, Repr

variable {err : Option Errno}

/-- What a call returns, with the base it chose if it chose one, and the space it leaves. -/
abbrev Result := Except Errno (Option ℕ) × Space

/-- A call that fails before it has changed anything. -/
def fail (s : Space) (e : Errno) : Option Result := some (.error e, s)

/-- Whether the two spare records were allocated. -/
structure Spares where
  first : Bool
  second : Bool
deriving DecidableEq, Repr

/-- Where a mapping goes: at a given base, or at the first gap from an address on. -/
inductive Place where
  | fixed (base : UInt64)
  | chosen (lowest : UInt64)
deriving DecidableEq, Repr

variable {place : Place}

/-- The first test of `map_anon` and `map_file`. -/
def Place.rangeOk (size : UInt64) : Place → Bool
  | .fixed base => userRangeValid base.toNat size.toNat
  | .chosen _ => isPageAligned size.toNat && decide (size.toNat ≠ 0)

/-- The base is left to the call. -/
def Place.isChosen : Place → Bool
  | .fixed _ => false
  | .chosen _ => true

/-! ## The calls -/

/-- The region that `map_anon` makes. -/
def anonRegion (base size : ℕ) (prot : Prot) (flags : Flags) (name : ℕ) : Region :=
  ⟨base, size, prot.withoutUser, .anon, ⟨flags.guardBelow, false, flags.populated, true, false⟩,
    none, name⟩

section

variable (placed : Option ℕ) (s : Space)

/-- The end of `map_anon`, once the region is in: charge it, populate it, merge it.  If
populating fails, the region is dropped and the charge given back. -/
def finishAnon (npages : ℕ) (c : Cursor Region) (populateError : Option Errno) (placed : Option ℕ) :
    Option Result :=
  match populateError with
  | some e =>
    some (.error e, { s with regions := c.remove,
                             mappedPages := s.mappedPages + npages - npages })
  | none =>
    some (.ok placed, { s with regions := regionMergeAround 2 c,
                               mappedPages := s.mappedPages + npages })

/-- `map_anon`.  `populateError` is how populating ends, where it is asked for. -/
def mapAnon (place : Place) (size : UInt64) (prot : Prot) (flags : Flags) (name : ℕ) (alloc : Bool)
    (populateError : Option Errno) : Option Result :=
  let npages := size.toNat / pageSize
  let populateError := if flags.populated ∧ prot ≠ .none then populateError else none
  if place.rangeOk size = false then fail s .einval
  else if prot.writeExec then fail s .einval
  else if alloc = false then fail s .enomem
  else if s.limitMappedPages < s.mappedPages + npages then fail s .enomem
  else
    match place with
    | .fixed base =>
      match spaceInsert (anonRegion base.toNat size.toNat prot flags name) [] s.regions with
      | none => fail s .eexist
      | some c => finishAnon s npages c populateError none
    | .chosen lowest =>
      let base := rangeFirstFitLocked s.regions lowest.toNat size.toNat
      if base = 0 then fail s .enomem
      else if userRangeValid base size.toNat = false then none
      else
        match spaceInsert (anonRegion base size.toNat prot flags name) [] s.regions with
        | none => none
        | some c => finishAnon s npages c populateError (some base)

/-- The check of `map_replace`, `vm_user_unmap` and `vm_user_protect` that a cut has what it
needs, and the cut. -/
def cutEnds (l : List Region) (base size : ℕ) : Option (List Region) :=
  (splitAtEnds l base size).bind fun p =>
    if p.2 = splitsNeeded l base size then some p.1 else none

/-- `r->flags |= VM_REGION_QUIESCED`. -/
def Region.claimed (r : Region) : Region := { r with flags := { r.flags with quiesced := true } }

/-- `r->flags &= ~VM_REGION_QUIESCED`. -/
def Region.released (r : Region) : Region := { r with flags := { r.flags with quiesced := false } }

/-- `region_merge_around` for the region at `base`. -/
def mergeAt (l : List Region) (base : ℕ) : List Region :=
  match spaceFind l base with
  | some c => regionMergeAround 2 c
  | none => l

/-- `map_replace`, for a prepared region. -/
def mapReplace (fresh : Region) (spares : Spares) : Option Result :=
  let npages := fresh.size / pageSize
  let covered := coveredPages s.regions fresh.base fresh.size
  if (spares.first && spares.second) = false then fail s .enomem
  else if rangeQuiesced s.regions fresh.base fresh.size then fail s .ebusy
  else if s.limitMappedPages < s.mappedPages - covered + npages then fail s .enomem
  else
    (cutEnds s.regions fresh.base fresh.size).bind fun l =>
    (unlinkRange l fresh.base fresh.size).bind fun (kept, _) =>
    (spaceInsert fresh.claimed [] kept).bind fun c =>
    -- the claim is released across the whole range
    let l := editVisited Region.base Region.stop fresh.base (fresh.base + fresh.size)
      (fun r => some r.released) c.list
    some (.ok none, { s with regions := mergeAt l fresh.base,
                             mappedPages := s.mappedPages - covered + npages })

def vmUserMapAnonReplace (base size : UInt64) (prot : Prot) (flags : Flags) (name : ℕ)
    (alloc : Bool) (spares : Spares) : Option Result :=
  if userRangeValid base.toNat size.toNat = false then fail s .einval
  else if prot.writeExec then fail s .einval
  else if flags.populated then fail s .einval
  else if alloc = false then fail s .enomem
  else
    mapReplace s (anonRegion base.toNat size.toNat prot { flags with populated := false } name)
      spares

/-- `VM_MAP_SHARED`, `VM_MAP_REPLACE`, `VM_MAP_TEXT`. -/
structure MapFlags where
  shared : Bool
  replace : Bool
  text : Bool
deriving DecidableEq, Repr

/-- Text and a writable shared mapping of the same file cannot coexist, in either order. -/
def clashes (m : FileMap) (other : FileMap) : Bool :=
  if m.text then other.shared && other.maxprot.write
  else other.text && m.shared && m.maxprot.write

/-- The region that `map_file` makes, with its record. -/
def fileRegion (base size : ℕ) (prot maxprot : Prot) (flags : MapFlags) (vn off name tag : ℕ) :
    Region :=
  ⟨base, size, prot.withoutUser, .file, ⟨false, false, false, true, false⟩,
    some ⟨tag, vn, base, off, flags.shared, flags.text, maxprot.withoutUser⟩, name⟩

/-- The record clashes with one on the vnode's list. -/
def recordClashes (region : Region) (mappings : List FileMap) : Bool :=
  region.fmap.any fun m => mappings.any (clashes m)

/-- `map_file` at a base it chooses.  The region is in the list, claimed, before its record is on
the vnode's list; a refusal there takes it out again. -/
def mapFileChosen (region : ℕ → Region) (lowest size : ℕ) (mappings : List FileMap) :
    Option Result :=
  let npages := size / pageSize
  let base := rangeFirstFitLocked s.regions lowest size
  if s.limitMappedPages < s.mappedPages + npages then fail s .enomem
  else if base = 0 then fail s .enomem
  else
    match spaceInsert (region base).claimed [] s.regions with
    | none => none
    | some c =>
      if recordClashes (region base) mappings then
        some (.error .etxtbsy, { s with regions := c.remove,
                                        mappedPages := s.mappedPages + npages - npages })
      else
        some (.ok (some base),
          { s with regions := c.before.reverse ++ c.here.released :: c.after,
                   mappedPages := s.mappedPages + npages })

/-- `map_file` at a base it is given. -/
def mapFileFixed (region : Region) (replace : Bool) (mappings : List FileMap) (spares : Spares) :
    Option Result :=
  let npages := region.size / pageSize
  if recordClashes region mappings then fail s .etxtbsy
  else if replace then mapReplace s region spares
  else if s.limitMappedPages < s.mappedPages + npages then fail s .enomem
  else
    match spaceInsert region [] s.regions with
    | none => fail s .eexist
    | some c =>
      some (.ok none, { s with regions := c.list, mappedPages := s.mappedPages + npages })

/-- `map_file`.  `mappings` are those on the vnode's list, `tag` the next mapping tag. -/
def mapFile (place : Place) (size : UInt64) (prot maxprot : Prot) (flags : MapFlags) (vn : ℕ)
    (off : UInt64) (name tag : ℕ) (alloc : Bool) (mappings : List FileMap) (spares : Spares) :
    Option Result :=
  let region (base : ℕ) : Region :=
    fileRegion base size.toNat prot maxprot flags vn off.toNat name tag
  if place.rangeOk size = false ∨ (place.isChosen && flags.replace) then fail s .einval
  else if isPageAligned off.toNat = false ∨ off + size < off then fail s .einval
  else if prot.writeExec then fail s .einval
  else if prot.withoutUser.exceeds maxprot.withoutUser then fail s .einval
  else if alloc = false then fail s .enomem
  else
    match place with
    | .chosen lowest => mapFileChosen s region lowest.toNat size.toNat mappings
    | .fixed base => mapFileFixed s (region base.toNat) flags.replace mappings spares

/-- The spares a cut would need were not allocated. -/
def lacksSpares (l : List Region) (base size : ℕ) (spares : Spares) : Bool :=
  decide (0 < splitsNeeded l base size) && !spares.first ||
    decide (1 < splitsNeeded l base size) && !spares.second

def vmUserUnmap (base size : UInt64) (strict : Bool) (spares : Spares) : Option Result :=
  let b := base.toNat
  let n := size.toNat
  if userRangeValid b n = false then fail s .einval
  else if rangeQuiesced s.regions b n then fail s .ebusy
  else if strict && !rangeFullyMapped s.regions b n then fail s .einval
  else if lacksSpares s.regions b n spares then fail s .enomem
  else
    (cutEnds s.regions b n).bind fun l =>
    (unlinkRange l b n).bind fun (kept, gone) =>
    some (.ok none, { s with regions := kept, mappedPages := s.mappedPages - pages gone })

/-- The last part of `vm_user_protect`: merge inside the range and with both neighbours. -/
def mergeFrom (cap : ℕ) (c : Cursor Region) : List Region :=
  match c.before with
  | [] => regionMergeForward cap (c.here :: c.after)
  | prev :: before =>
    if regionsMergeable prev c.here then
      before.reverse ++ regionMergeForward cap (prev :: c.here :: c.after)
    else c.before.reverse ++ regionMergeForward cap (c.here :: c.after)

def Region.withProt (prot : Prot) (r : Region) : Region := { r with prot := prot }

/-- The same attributes with another protection. -/
def Attr.withProt (prot : Prot) (a : Attr) : Attr := { a with prot := prot }

def vmUserProtect (base size : UInt64) (prot : Prot) (spares : Spares) : Option Result :=
  let b := base.toNat
  let n := size.toNat
  if userRangeValid b n = false then fail s .einval
  else if prot.writeExec then fail s .einval
  else
    let prot := prot.withoutUser
    if rangeQuiesced s.regions b n then fail s .ebusy
    else if rangeFullyMapped s.regions b n = false then fail s .enomem
    else if (regionsIn s.regions b n).any fun r =>
        r.fmap.any fun m => prot.exceeds m.maxprot then fail s .eacces
    else if lacksSpares s.regions b n spares then fail s .enomem
    else
      (cutEnds s.regions b n).bind fun l =>
      let l := editVisited Region.base Region.stop b (b + n)
        (fun r => some (r.withProt prot)) l
      let l := match firstVisited Region.base Region.stop b (b + n) [] l with
        | some c => mergeFrom 4 c
        | none => l
      some (.ok none, { s with regions := l })

def remapLookup (l : List Region) (base oldSize : ℕ) : Except Errno (Cursor Region) :=
  match spaceFind l base with
  | none => .error .efault
  | some c =>
    if c.here.kind ≠ .anon ∨ c.here.base ≠ base ∨ c.here.size ≠ oldSize then .error .einval
    else if c.here.flags.quiesced then .error .ebusy
    else .ok c

/-- The shrink of `vm_user_remap`.  The tail that is split off stays claimed until its pages are
gone, and is unlinked then. -/
def remapShrink (c : Cursor Region) (base old new : ℕ) : Option Result :=
  (regionSplit c (base + new)).bind fun tail =>
    some (.ok none, { s with regions := tail.remove,
                             mappedPages := s.mappedPages - (old - new) / pageSize })

/-- Its grow, or a request for the size the region has. -/
def remapGrow (c : Cursor Region) (old new : ℕ) : Option Result :=
  if new = old then some (.ok none, s)
  else if rangeFreeExcept c c.here.footLo (c.here.footHi + (new - old)) = false then
    fail s .enomem
  else if s.limitMappedPages < s.mappedPages + (new - old) / pageSize then fail s .enomem
  else
    some (.ok none,
      { s with
        regions := c.before.reverse ++
          regionMergeForward 2 ({ c.here with size := new } :: c.after)
        mappedPages := s.mappedPages + (new - old) / pageSize })

def vmUserRemap (base oldSize newSize : UInt64) (alloc : Bool) : Option Result :=
  let b := base.toNat
  let old := oldSize.toNat
  let new := newSize.toNat
  if (isPageAligned b && isPageAligned old && isPageAligned new) = false then none
  else if old = 0 ∨ new = 0 then none
  else if userRangeValid b new = false then fail s .einval
  else if new < old then
    if alloc = false then fail s .enomem
    else
      match remapLookup s.regions b old with
      | .error e => fail s e
      | .ok c => remapShrink s c b old new
  else
    match remapLookup s.regions b old with
    | .error e => fail s e
    | .ok c => remapGrow s c old new

/-- A call, with what it is given from outside. -/
inductive Call where
  | mapAnon (place : Place) (size : UInt64) (prot : Prot) (flags : Flags) (name : ℕ)
      (alloc : Bool) (populateError : Option Errno)
  | mapAnonReplace (base size : UInt64) (prot : Prot) (flags : Flags) (name : ℕ)
      (alloc : Bool) (spares : Spares)
  | mapFile (place : Place) (size : UInt64) (prot maxprot : Prot) (flags : MapFlags) (vn : ℕ)
      (off : UInt64) (name tag : ℕ) (alloc : Bool) (mappings : List FileMap) (spares : Spares)
  | unmap (base size : UInt64) (strict : Bool) (spares : Spares)
  | protect (base size : UInt64) (prot : Prot) (spares : Spares)
  | remap (base oldSize newSize : UInt64) (alloc : Bool)

def perform : Call → Option Result
  | .mapAnon place size prot flags name alloc populateError =>
    mapAnon s place size prot flags name alloc populateError
  | .mapAnonReplace base size prot flags name alloc spares =>
    vmUserMapAnonReplace s base size prot flags name alloc spares
  | .mapFile place size prot maxprot flags vn off name tag alloc mappings spares =>
    mapFile s place size prot maxprot flags vn off name tag alloc mappings spares
  | .unmap base size strict spares => vmUserUnmap s base size strict spares
  | .protect base size prot spares => vmUserProtect s base size prot spares
  | .remap base oldSize newSize alloc => vmUserRemap s base oldSize newSize alloc

/-- `vm_user_unmap_tag`: each region of the attach is taken out. -/
def vmUserUnmapTag (tag : ℕ) : Space :=
  let ofTag (r : Region) : Bool :=
    r.kind == .file && (r.fmap.any fun m => m.tag == tag) && !r.flags.quiesced
  if tag = 0 then s
  else
    { s with regions := s.regions.filter fun r => !ofTag r
             mappedPages := s.mappedPages - pages (s.regions.filter ofTag) }

/-- The space `vm_space_fork` makes: the regions in order, charged one by one. -/
def forked : Space := { s with mappedPages := pages s.regions }

/-! ## What a call asks for -/

/-- The base a mapping gets: the one given, or the one chosen. -/
def Place.base (place : Place) (placed : Option ℕ) : ℕ :=
  match place with
  | .fixed base => base.toNat
  | .chosen _ => placed.getD 0

/-- The range a call is about, from its first address to the first after it. -/
def Call.range : Call → ℕ × ℕ
  | .mapAnon place size _ _ _ _ _ => (place.base placed, place.base placed + size.toNat)
  | .mapAnonReplace base size _ _ _ _ _ => (base.toNat, base.toNat + size.toNat)
  | .mapFile place size _ _ _ _ _ _ _ _ _ _ =>
    (place.base placed, place.base placed + size.toNat)
  | .unmap base size _ _ => (base.toNat, base.toNat + size.toNat)
  | .protect base size _ _ => (base.toNat, base.toNat + size.toNat)
  | .remap base oldSize newSize _ =>
    (base.toNat + min oldSize.toNat newSize.toNat,
      base.toNat + max oldSize.toNat newSize.toNat)

/-- What it asks to be there, of a space that had `m`: a grown mapping is as it is at its base,
and a protection changes nothing else. -/
def Call.attr (m : ℕ → Option Attr) (va : ℕ) : Call → Option Attr
  | .mapAnon _ _ prot _ _ _ _ => some ⟨.anon, prot.withoutUser, none⟩
  | .mapAnonReplace _ _ prot _ _ _ _ => some ⟨.anon, prot.withoutUser, none⟩
  | .mapFile place _ prot _ flags vn off _ _ _ _ _ =>
    some ⟨.file, prot.withoutUser,
      some (vn, off.toNat + (va - place.base placed), flags.shared)⟩
  | .unmap _ _ _ _ => none
  | .protect _ _ prot _ => (m va).map (Attr.withProt prot.withoutUser)
  | .remap base oldSize newSize _ => if newSize < oldSize then none else m base.toNat

end

/-- **What a call asks for**: the range as given, everything else as it was. -/
def Call.requested (c : Call) (placed : Option ℕ) (m : ℕ → Option Attr) (va : ℕ) :
    Option Attr :=
  if (c.range placed).1 ≤ va ∧ va < (c.range placed).2 then c.attr placed m va else m va

/-! ## Lists edited inside a range -/

theorem RegionOk.attr_single {r : Region} (h : RegionOk r) {va : ℕ}
    (hva : r.base ≤ va ∧ va < r.stop) : view [r] va = some (r.attrAt va) := by
  have hg : Good [r] := ⟨pairwise_singleton _ _, by simpa using h⟩
  rw [view_eq_some hg]
  exact ⟨r, mem_singleton_self r, hva, rfl⟩

variable {l A C : List Region} {region fresh : Region} {c : Cursor Region}
    {base size : UInt64} {s : Space} {prot : Prot} {name : ℕ} {alloc : Bool} {spares : Spares}
    {mappings : List FileMap}

/-- A list around a range that footprints keep clear of. -/
theorem divided_around {M : List Region} (hA : ∀ x ∈ A, x.footHi ≤ region.footLo)
    (hM : ∀ x ∈ M, region.base ≤ x.base ∧ x.base < x.stop ∧ x.stop ≤ region.stop)
    (hC : ∀ x ∈ C, region.footHi ≤ x.footLo) (hok : ∀ x ∈ C, RegionOk x) :
    Divided Region.base Region.stop region.base region.stop (A ++ (M ++ C)) A M C :=
  ⟨rfl, fun x hx => stop_le_base_of_foot (hA x hx), hM,
    fun x hx => ⟨stop_le_base_of_foot (hC x hx), (hok x hx).base_lt_stop⟩⟩

theorem Good.divided (hg : Good (A ++ region :: C)) :
    Divided Region.base Region.stop region.base region.stop (A ++ region :: C) A [region] C := by
  have hlaid := hg.laid
  simp only [pairwise_append, pairwise_cons, mem_cons] at hlaid
  obtain ⟨-, ⟨hC, -⟩, hcross⟩ := hlaid
  refine divided_around (M := [region]) (fun x hx => hcross x hx region (Or.inl rfl))
    (fun x hx => ?_) hC fun x hx => hg.ok x (by simp [hx])
  rw [mem_singleton.mp hx]
  exact ⟨le_refl _, (hg.ok region (by simp)).base_lt_stop, le_refl _⟩

/-- **A list whose middle part is replaced**: the range is as the new part says, everything else
as it was. -/
theorem edited_spec {l' M X : List Region} {a b : ℕ} (hsame : SameMap l l')
    (hdiv : Divided Region.base Region.stop a b l' A M C)
    (hX : ∀ x ∈ X, a ≤ x.base ∧ x.stop ≤ b) (hgood : Good (A ++ (X ++ C))) :
    pages (A ++ (X ++ C)) + pages M = pages l + pages X ∧
      ∀ va, view (A ++ (X ++ C)) va = if a ≤ va ∧ va < b then view X va else view l va := by
  constructor
  · rw [← hsame.pages, hdiv.whole]
    simp only [pages_append]
    omega
  · intro va
    split_ifs with hva
    · exact hdiv.lookup_inside hgood.ordered hva
    · rw [← hsame.view va]
      exact hdiv.lookup_outside hsame.good.ordered hX hgood.ordered
        hva

/-- **What an insert does**: the region is there, everything else as it was. -/
theorem insert_spec (hg : Good l) (hr : RegionOk region) (h : spaceInsert region [] l = some c) :
    c.here = region ∧ c.remove = l ∧ Good c.list ∧
      pages c.list = pages l + region.size / pageSize ∧
      ∀ va, view c.list va =
        if region.base ≤ va ∧ va < region.stop then some (region.attrAt va) else view l va := by
  obtain ⟨hhere, passed, hbefore, hlist, hpassed, hafter⟩ :=
    spaceInsert_some hr.base_lt_stop hg h
  rw [append_nil] at hbefore
  rw [← hbefore] at hlist
  subst hlist
  have hbefore' : ∀ x ∈ c.before.reverse, x.footHi ≤ region.footLo := by
    intro x hx
    rw [hbefore] at hx
    exact hpassed x (mem_reverse.mp hx)
  have hgood : Good c.list := by
    rw [Cursor.list, hhere]
    exact good_between hg hr hbefore' hafter
  have hdiv := divided_around (M := []) hbefore' (by simp) hafter
    fun x hx => hg.ok x (mem_append_right _ hx)
  rw [Cursor.list, hhere] at hgood ⊢
  obtain ⟨hpages, hview⟩ := edited_spec (X := [region]) (SameMap.refl hg) hdiv (by simp) hgood
  refine ⟨rfl, rfl, hgood, hpages, fun va => (hview va).trans ?_⟩
  split_ifs with hva
  · exact hr.attr_single hva
  · rfl

theorem spaceInsert_of_clear (h : ∀ x ∈ l, ¬ region.Collides x) :
    ∃ c, spaceInsert region [] l = some c := by
  cases hs : spaceInsert region [] l with
  | none =>
    obtain ⟨x, hx, hcol⟩ := spaceInsert_none hs
    exact absurd hcol (h x hx)
  | some c => exact ⟨c, rfl⟩

/-- **The cut at the ends of a range**, with no assertion failing. -/
theorem cutEnds_spec (hg : Good l) {base size : ℕ} (hv : ValidRange base size) :
    ∃ l', cutEnds l base size = some l' ∧ SameMap l l' ∧
      Divided Region.base Region.stop base (base + size) l' (below base l)
        (inside base (base + size) l) (above (base + size) l) := by
  obtain ⟨l', hsplit, hsame, hdiv⟩ := splitAtEnds_spec hg hv.aligned hv.whole hv.pos
  refine ⟨l', ?_, hsame, hdiv⟩
  rw [cutEnds, hsplit]
  simp

/-- What is left after unlinking a range. -/
theorem kept_spec {l' M : List Region} {a b : ℕ} (hsame : SameMap l l')
    (hdiv : Divided Region.base Region.stop a b l' A M C) :
    Good (A ++ C) ∧ pages (A ++ C) + pages M = pages l ∧
      ∀ va, view (A ++ C) va = if a ≤ va ∧ va < b then none else view l va := by
  have hsub : (A ++ C).Sublist l' := by
    rw [hdiv.whole]
    exact List.Sublist.append_left (sublist_append_right M C) A
  have hgood : Good (A ++ C) := hsame.good.sublist hsub
  exact ⟨hgood, edited_spec (X := []) hsame hdiv (by simp) hgood⟩

/-- **A middle part whose regions are remade where they are.** -/
theorem remade_spec {f : Region → Region} {g : Attr → Attr} {l' M : List Region} {a b : ℕ}
    (hfoot : ∀ r, (f r).footLo = r.footLo ∧ (f r).footHi = r.footHi)
    (hrange : ∀ r, (f r).base = r.base ∧ (f r).size = r.size)
    (hok : ∀ r, RegionOk r → RegionOk (f r)) (hattr : ∀ r va, (f r).attrAt va = g (r.attrAt va))
    (hsame : SameMap l l') (hdiv : Divided Region.base Region.stop a b l' A M C) :
    Good (A ++ (M.map f ++ C)) ∧ pages (A ++ (M.map f ++ C)) = pages l ∧
      ∀ va, view (A ++ (M.map f ++ C)) va =
        if a ≤ va ∧ va < b then (view l va).map g else view l va := by
  have hstop : ∀ r, (f r).stop = r.stop := fun r => by
    rw [Region.stop, (hrange r).1, (hrange r).2, Region.stop]
  have hwhole := hsame.good
  rw [hdiv.whole] at hwhole
  have hM : Good M := hwhole.sublist
    ((sublist_append_left M C).trans (sublist_append_right A (M ++ C)))
  have hgood : Good (A ++ (M.map f ++ C)) := by
    refine hwhole.replace ⟨?_, ?_⟩ ?_ ?_
    · simp only [pairwise_map, hfoot]
      exact hM.laid
    all_goals
      intro x hx
      obtain ⟨y, hy, rfl⟩ := mem_map.mp hx
    · exact hok y (hM.ok y hy)
    · exact ⟨y, hy, (hfoot y).1.ge⟩
    · exact ⟨y, hy, (hfoot y).2.le⟩
  have hX : ∀ x ∈ M.map f, a ≤ x.base ∧ x.stop ≤ b := by
    intro x hx
    obtain ⟨y, hy, rfl⟩ := mem_map.mp hx
    obtain ⟨hlo, -, hhi⟩ := hdiv.inside y hy
    rw [(hrange y).1, hstop]
    exact ⟨hlo, hhi⟩
  obtain ⟨hpages, hview⟩ := edited_spec hsame hdiv hX hgood
  have hsize : pages (M.map f) = pages M := by
    simp [pages, Function.comp_def, hrange]
  refine ⟨hgood, by omega, fun va => (hview va).trans ?_⟩
  split_ifs with hva
  · have hM' : view l' va = view M va := by
      rw [hdiv.whole]
      exact hdiv.lookup_inside hwhole.ordered hva
    rw [← hsame.view va, hM']
    exact lookup_map f g (fun r => (hrange r).1) hstop hattr hM.ordered va
  · rfl

/-! ## What each call does -/

/-- A space as it is between calls. -/
structure Sound (s : Space) : Prop where
  good : Good s.regions
  charged : s.mappedPages = pages s.regions

/-- The space has become another: `[lo, hi)` is as in `new`, everything else as it was, and what
was charged for more pages is within the limit. -/
structure Became (s s' : Space) (lo hi : ℕ) (new : ℕ → Option Attr) : Prop where
  sound : Sound s'
  view : ∀ va, view s'.regions va = if lo ≤ va ∧ va < hi then new va else view s.regions va
  limit : s'.limitMappedPages = s.limitMappedPages
  grown : s.mappedPages < s'.mappedPages → s'.mappedPages ≤ s.limitMappedPages

/-- What a call that returns may return: an error, with the space as it was, or a space that has
become what was asked for. -/
def Does (s : Space) (range : Option ℕ → ℕ × ℕ) (new : Option ℕ → ℕ → Option Attr) :
    Option Result → Prop
  | none => True
  | some (.error _, s') => s' = s
  | some (.ok placed, s') => Became s s' (range placed).1 (range placed).2 (new placed)

section Does

variable {range : Option ℕ → ℕ × ℕ} {e : Errno} {p : Prop} [Decidable p] {o : Option Result}

theorem does_fail : Does s range new (fail s e) := rfl

/-- A check that fails before anything has changed. -/
theorem Does.unless (h : ¬ p → Does s range new o) :
    Does s range new (if p then fail s e else o) := by
  split_ifs with hp
  · exact does_fail
  · exact h hp

theorem Does.asserted (h : ¬ p → Does s range new o) :
    Does s range new (if p then none else o) := by
  split_ifs with hp
  · trivial
  · exact h hp

end Does

/-- **A list whose middle part is replaced**, then joined where it can be, with what that charges
or gives back. -/
theorem became_of_edit {l' M X : List Region} {a b n : ℕ} {new : ℕ → Option Attr} (hs : Sound s)
    (hsame : SameMap s.regions l') (hdiv : Divided Region.base Region.stop a b l' A M C)
    (hX : ∀ x ∈ X, a ≤ x.base ∧ x.stop ≤ b) (hgood : Good (A ++ (X ++ C)))
    (hl : SameMap (A ++ (X ++ C)) l) (hn : n = s.mappedPages + pages X - pages M)
    (hnew : ∀ va, a ≤ va ∧ va < b → view X va = new va)
    (hgrown : s.mappedPages < n → n ≤ s.limitMappedPages) :
    Became s { s with regions := l, mappedPages := n } a b new := by
  obtain ⟨hpages, hview⟩ := edited_spec hsame hdiv hX hgood
  refine ⟨⟨hl.good, ?_⟩, fun va => (hl.view va).trans ?_, rfl, hgrown⟩
  · have hcharged := hs.charged
    simp only [hl.pages, hn]
    omega
  · rw [hview]
    split_ifs with hva
    · exact hnew va hva
    · rfl

theorem claimed_ok {r : Region} (h : RegionOk r) : RegionOk r.claimed := { h with }

theorem released_ok {r : Region} (h : RegionOk r) : RegionOk r.released := { h with }

theorem sameMap_released {r : Region} (hg : Good (A ++ r :: C)) :
    SameMap (A ++ r :: C) (A ++ r.released :: C) := by
  obtain ⟨hgood, hpages, hview⟩ := remade_spec (f := Region.released) (g := id)
    (fun _ => ⟨rfl, rfl⟩) (fun _ => ⟨rfl, rfl⟩) (fun _ => released_ok) (fun _ _ => rfl)
    (SameMap.refl hg) hg.divided
  refine ⟨hgood, fun va => (hview va).trans ?_, hpages⟩
  rw [Option.map_id, id, ite_self]

/-- A space with one more region in it. -/
theorem became_of_insert (hs : Sound s) (hr : RegionOk region)
    (h : spaceInsert region [] s.regions = some c) (hsame : SameMap c.list l)
    (hlimit : s.mappedPages + region.size / pageSize ≤ s.limitMappedPages) :
    Became s { s with regions := l, mappedPages := s.mappedPages + region.size / pageSize }
      region.base region.stop (fun va => some (region.attrAt va)) := by
  obtain ⟨-, -, -, hpages, hview⟩ := insert_spec hs.good hr h
  refine ⟨⟨hsame.good, ?_⟩, fun va => (hsame.view va).trans (hview va), rfl, fun _ => hlimit⟩
  rw [hsame.pages, hpages, ← hs.charged]

theorem Prot.writeExec_withoutUser (p : Prot) : p.withoutUser.writeExec = p.writeExec := rfl

section

variable {base size : ℕ} (hv : ValidRange base size) (hwx : prot.writeExec = false)

include hv hwx

/-- A region that `map_anon` makes is well formed when its range and its protection are. -/
theorem regionOk_anon (flags : Flags) (name : ℕ) :
    RegionOk (anonRegion base size prot flags name) :=
  { hv with wx := hwx, record := Or.inl ⟨rfl, rfl⟩ }

theorem regionOk_file (maxprot : Prot) (flags : MapFlags) (vn off name tag : ℕ) :
    RegionOk (fileRegion base size prot maxprot flags vn off name tag) :=
  { hv with wx := hwx, record := Or.inr ⟨rfl, rfl⟩ }

end

theorem validRange_of_words (h : userRangeValid base.toNat size.toNat = true) :
    ValidRange base.toNat size.toNat :=
  (userRangeValid_iff base.toNat_lt size.toNat_lt).mp h

theorem Place.rangeOk_chosen {lowest : UInt64} :
    (Place.chosen lowest).rangeOk size = true ↔ size.toNat % pageSize = 0 ∧ 0 < size.toNat := by
  simp [Place.rangeOk, isPageAligned, Nat.pos_iff_ne_zero]

/-- The base that first fit chooses is a valid range. -/
theorem validRange_of_chosen (hg : Good l) {lowest : ℕ}
    (hsize : (Place.chosen 0).rangeOk size = true)
    (h : rangeFirstFitLocked l lowest size.toNat ≠ 0) :
    ValidRange (rangeFirstFitLocked l lowest size.toNat) size.toNat := by
  obtain ⟨hwhole, hpos⟩ := Place.rangeOk_chosen.mp hsize
  have hfit := rangeFirstFitLocked_spec hg h
  exact ⟨hfit.aligned, hwhole, hpos, hfit.low.2, (Nat.le_add_right _ _).trans hfit.high⟩

theorem finishAnon_does (hs : Sound s) (hr : RegionOk region)
    (hc : spaceInsert region [] s.regions = some c)
    (hlimit : s.mappedPages + region.size / pageSize ≤ s.limitMappedPages)
    {placed : Option ℕ} {range : Option ℕ → ℕ × ℕ}
    (hrange : range placed = (region.base, region.stop))
    (hnew : new placed = fun va => some (region.attrAt va)) :
    Does s range new (finishAnon s (region.size / pageSize) c err placed) := by
  obtain ⟨-, hremove, hgood, -⟩ := insert_spec hs.good hr hc
  cases err with
  | some e => simp only [finishAnon, Does, hremove, Nat.add_sub_cancel]
  | none =>
    simp only [finishAnon, Does, hrange, hnew]
    exact became_of_insert hs hr hc (regionMergeAround_sameMap 2 hgood) hlimit

/-- **`map_anon`** does what it is asked or leaves the space as it was. -/
theorem mapAnon_does (hs : Sound s) :
    Does s (fun placed => (place.base placed, place.base placed + size.toNat))
      (fun _ _ => some ⟨.anon, prot.withoutUser, none⟩)
      (mapAnon s place size prot flags name alloc err) := by
  simp only [mapAnon]
  generalize (if flags.populated ∧ prot ≠ .none then err else none) = ended
  refine .unless fun hrange => .unless fun hwx => .unless fun _ => .unless fun hlimit => ?_
  have hwx : prot.writeExec = false := by simpa using hwx
  have hlimit : s.mappedPages + size.toNat / pageSize ≤ s.limitMappedPages := not_lt.mp hlimit
  cases place with
  | fixed base =>
    have hv := validRange_of_words (by simpa [Place.rangeOk] using hrange)
    simp only
    cases hc : spaceInsert (anonRegion base.toNat size.toNat prot flags name) [] s.regions with
    | none => exact does_fail
    | some c => exact finishAnon_does hs (regionOk_anon hv hwx flags name) hc hlimit rfl rfl
  | chosen lowest =>
    refine .unless fun hzero => .asserted fun _ => ?_
    have hv := validRange_of_chosen hs.good (by simpa [Place.rangeOk] using hrange) hzero
    cases hc : spaceInsert (anonRegion (rangeFirstFitLocked s.regions lowest.toNat
        size.toNat) size.toNat prot flags name) [] s.regions with
    | none => trivial
    | some c => exact finishAnon_does hs (regionOk_anon hv hwx flags name) hc hlimit rfl rfl

theorem mergeAt_sameMap (hg : Good l) (base : ℕ) :
    SameMap l (mergeAt l base) := by
  rw [mergeAt]
  cases hf : spaceFind l base with
  | none => exact SameMap.refl hg
  | some c =>
    obtain ⟨hlist, -⟩ := seek_some hf
    have hlist : c.list = l := by simpa using hlist
    rw [← hlist] at hg ⊢
    exact regionMergeAround_sameMap 2 hg

/-- What the checks of `map_replace` refuse. -/
def Refused (s : Space) (fresh : Region) (spares : Spares) : Prop :=
  (spares.first && spares.second) = false ∨
    rangeQuiesced s.regions fresh.base fresh.size = true ∨
    s.limitMappedPages <
      s.mappedPages - coveredPages s.regions fresh.base fresh.size + fresh.size / pageSize

theorem RegionOk.validRange {r : Region} (h : RegionOk r) : ValidRange r.base r.size :=
  { h with }

theorem mapReplace_refused (h : Refused s fresh spares) :
    ∃ e, mapReplace s fresh spares = fail s e := by
  simp only [mapReplace]
  split_ifs with h₁ h₂ h₃
  · exact ⟨_, rfl⟩
  · exact ⟨_, rfl⟩
  · exact ⟨_, rfl⟩
  · rcases h with h | h | h
    · exact absurd h h₁
    · exact absurd h h₂
    · exact absurd h h₃

section

variable (hs : Sound s)

include hs

/-- A replacement that passes the checks comes down to one insert: of the new region between
what is below the range and what is above. -/
theorem mapReplace_of_passed (hf : RegionOk fresh) (h : ¬ Refused s fresh spares) :
    mapReplace s fresh spares =
      (spaceInsert fresh.claimed [] (below fresh.base s.regions ++ above fresh.stop s.regions)).map
        fun c => (.ok none, { s with
          regions := mergeAt (c.before.reverse ++ c.here.released :: c.after) fresh.base
          mappedPages := s.mappedPages - coveredPages s.regions fresh.base fresh.size +
            fresh.size / pageSize }) := by
  obtain ⟨l, hcut, hsame, hdiv⟩ := cutEnds_spec hs.good hf.validRange
  obtain ⟨hgood, -⟩ := kept_spec hsame hdiv
  simp only [Refused, not_or] at h
  simp only [mapReplace]
  rw [if_neg h.1, if_neg h.2.1, if_neg h.2.2, hcut, Option.bind_some, unlinkRange_spec hdiv,
    Option.bind_some]
  rw [← Region.stop] at hgood ⊢
  cases hc : spaceInsert fresh.claimed [] (below fresh.base s.regions ++
      above fresh.stop s.regions) with
  | none => rfl
  | some c =>
    obtain ⟨hhere, -, hcgood, -⟩ := insert_spec hgood (claimed_ok hf) hc
    rw [Cursor.list, hhere] at hcgood
    have hle : fresh.base ≤ fresh.stop := hf.base_le_stop
    rw [Option.bind_some, Option.map_some, Cursor.list, hhere]
    exact congrArg (fun l => some (Except.ok none, { s with
      regions := mergeAt l fresh.base
      mappedPages := s.mappedPages - coveredPages s.regions fresh.base fresh.size +
        fresh.size / pageSize })) (hcgood.divided.editVisited hle _)

/-- **`map_replace`** does what it is asked or leaves the space as it was. -/
theorem mapReplace_does (hf : RegionOk fresh) :
    Does s (fun _ => (fresh.base, fresh.stop)) (fun _ va => some (fresh.attrAt va))
      (mapReplace s fresh spares) := by
  by_cases hrefused : Refused s fresh spares
  · obtain ⟨e, he⟩ := mapReplace_refused hrefused
    rw [he]
    exact does_fail
  rw [mapReplace_of_passed hs hf hrefused]
  cases hc : spaceInsert fresh.claimed [] (below fresh.base s.regions ++
      above fresh.stop s.regions) with
  | none => trivial
  | some c =>
    obtain ⟨l, -, hsame, hdiv⟩ := cutEnds_spec hs.good hf.validRange
    obtain ⟨hgood, hpages, hview⟩ := kept_spec hsame hdiv
    rw [← Region.stop] at hgood hpages hview
    obtain ⟨-, -, hcgood, hcpages, hcview⟩ := insert_spec hgood (claimed_ok hf) hc
    have hone : SameMap c.list _ := sameMap_released hcgood
    have hrel := hone.trans (mergeAt_sameMap hone.good fresh.base)
    have hcovered := coveredPages_eq hs.good fresh.base hf.pos
    rw [← Region.stop] at hcovered
    simp only [Refused, not_or, not_lt] at hrefused
    refine ⟨⟨hrel.good, ?_⟩, ?_, rfl, fun _ => hrefused.2.2⟩
    · rw [hrel.pages, hcpages, hcovered, hs.charged, ← hpages, Nat.add_sub_cancel]
      rfl
    · intro va
      rw [hrel.view, hcview, hview]
      change (if fresh.base ≤ va ∧ va < fresh.stop then some (fresh.attrAt va) else _) = _
      split_ifs <;> rfl

theorem vmUserMapAnonReplace_does :
    Does s (fun _ => (base.toNat, base.toNat + size.toNat))
      (fun _ _ => some ⟨.anon, prot.withoutUser, none⟩)
      (vmUserMapAnonReplace s base size prot flags name alloc spares) := by
  refine .unless fun hrange => .unless fun hwx => .unless fun _ => .unless fun _ => ?_
  have hv := validRange_of_words (by simpa using hrange)
  exact mapReplace_does hs (regionOk_anon hv (by simpa using hwx) _ name)

theorem mapFileFixed_does (hr : RegionOk region) {replace : Bool} :
    Does s (fun _ => (region.base, region.stop)) (fun _ va => some (region.attrAt va))
      (mapFileFixed s region replace mappings spares) := by
  refine .unless fun _ => ?_
  split_ifs with hreplace hlimit
  · exact mapReplace_does hs hr
  · exact does_fail
  · cases hc : spaceInsert region [] s.regions with
    | none => exact does_fail
    | some c =>
      obtain ⟨-, -, hgood, -⟩ := insert_spec hs.good hr hc
      exact became_of_insert hs hr hc (SameMap.refl hgood) (not_lt.mp hlimit)

/-- `map_file` at a base it chooses. -/
theorem mapFileChosen_does {region : ℕ → Region} {lowest size : ℕ}
    (hok : rangeFirstFitLocked s.regions lowest size ≠ 0 →
      RegionOk (region (rangeFirstFitLocked s.regions lowest size)))
    (hbase : ∀ base, (region base).base = base) (hsize : ∀ base, (region base).size = size) :
    Does s (fun placed => (placed.getD 0, placed.getD 0 + size))
      (fun placed va => some ((region (placed.getD 0)).attrAt va))
      (mapFileChosen s region lowest size mappings) := by
  refine .unless fun hlimit => .unless fun hzero => ?_
  set base := rangeFirstFitLocked s.regions lowest size
  have hr := claimed_ok (hok hzero)
  cases hc : spaceInsert (region base).claimed [] s.regions with
  | none => trivial
  | some c =>
    obtain ⟨-, hremove, hgood, -⟩ := insert_spec hs.good hr hc
    simp only
    split_ifs with hclash
    · simp only [Does, hremove, Nat.add_sub_cancel]
    · have hsize' : (region base).claimed.size = size := hsize base
      have hbase' : (region base).claimed.base = base := hbase base
      have hbecame := became_of_insert hs hr hc (sameMap_released hgood)
        (by rw [hsize']; exact not_lt.mp hlimit)
      rw [Region.stop, hsize', hbase'] at hbecame
      exact hbecame

/-- **`map_file`** does what it is asked or leaves the space as it was. -/
theorem mapFile_does {maxprot : Prot} {flags : MapFlags} {vn : ℕ} {off : UInt64} {tag : ℕ} :
    Does s (fun placed => (place.base placed, place.base placed + size.toNat))
      (fun placed va => some ⟨.file, prot.withoutUser,
        some (vn, off.toNat + (va - place.base placed), flags.shared)⟩)
      (mapFile s place size prot maxprot flags vn off name tag alloc mappings spares) := by
  refine .unless fun hrange => .unless fun _ => .unless fun hwx => .unless fun _ =>
    .unless fun _ => ?_
  have hwx : prot.writeExec = false := by simpa using hwx
  rw [not_or] at hrange
  cases place with
  | fixed base =>
    have hv := validRange_of_words (by simpa [Place.rangeOk] using hrange.1)
    exact mapFileFixed_does hs (regionOk_file hv hwx maxprot flags vn off.toNat name tag)
  | chosen lowest =>
    refine mapFileChosen_does hs (fun hzero => ?_) (fun _ => rfl) fun _ => rfl
    have hv := validRange_of_chosen hs.good
      (by simpa [Place.rangeOk] using hrange.1) hzero
    exact regionOk_file hv hwx maxprot flags vn off.toNat name tag

/-- **`vm_user_unmap`** unmaps the range or leaves the space as it was. -/
theorem vmUserUnmap_does {strict : Bool} :
    Does s (fun _ => (base.toNat, base.toNat + size.toNat)) (fun _ _ => none)
      (vmUserUnmap s base size strict spares) := by
  refine .unless fun hrange => .unless fun _ => .unless fun _ => .unless fun _ => ?_
  have hv := validRange_of_words (by simpa using hrange)
  obtain ⟨l, hcut, hsame, hdiv⟩ := cutEnds_spec hs.good hv
  obtain ⟨hgood, -⟩ := kept_spec hsame hdiv
  rw [hcut, Option.bind_some, unlinkRange_spec hdiv, Option.bind_some]
  exact became_of_edit (X := []) hs hsame hdiv (by simp) hgood (SameMap.refl hgood) rfl
    (fun _ _ => rfl) fun hlt => absurd hlt (Nat.sub_le _ _).not_gt

end

theorem mergeFrom_sameMap (cap : ℕ) (hg : Good c.list) :
    SameMap c.list (mergeFrom cap c) := by
  obtain ⟨before, here, after⟩ := c
  cases before with
  | nil => exact regionMergeForward_sameMap cap [] hg
  | cons prev before =>
    simp only [mergeFrom]
    split_ifs with hm
    · rw [Cursor.list_cons] at hg ⊢
      exact regionMergeForward_sameMap cap before.reverse hg
    · exact regionMergeForward_sameMap cap (prev :: before).reverse hg

/-- **`vm_user_protect`** changes the protection over the range or leaves the space as it
was. -/
theorem vmUserProtect_does (hs : Sound s) :
    Does s (fun _ => (base.toNat, base.toNat + size.toNat))
      (fun _ va => (view s.regions va).map (Attr.withProt prot.withoutUser))
      (vmUserProtect s base size prot spares) := by
  refine .unless fun hrange => .unless fun hwx => .unless fun _ => .unless fun _ =>
    .unless fun _ => .unless fun _ => ?_
  have hv := validRange_of_words (by simpa using hrange)
  have hwx : prot.withoutUser.writeExec = false := by
    rw [Prot.writeExec_withoutUser]
    simpa using hwx
  obtain ⟨l, hcut, hsame, hdiv⟩ := cutEnds_spec hs.good hv
  obtain ⟨hgood, hpages, hview⟩ := remade_spec (f := Region.withProt prot.withoutUser)
    (g := Attr.withProt prot.withoutUser) (fun _ => ⟨rfl, rfl⟩) (fun _ => ⟨rfl, rfl⟩)
    (fun _ h => { h with wx := hwx }) (fun _ _ => rfl) hsame hdiv
  have hedit := hdiv.editVisited (Nat.le_add_right _ _)
    fun r => some (r.withProt prot.withoutUser)
  rw [filterMap_eq_map'] at hedit
  rw [hcut, Option.bind_some, hedit]
  have hmerge : ∀ {l : List Region}, Good l → SameMap l
      (match firstVisited Region.base Region.stop base.toNat (base.toNat + size.toNat) [] l with
        | some c => mergeFrom 4 c
        | none => l) := by
    intro l hg
    cases hf : firstVisited Region.base Region.stop base.toNat (base.toNat + size.toNat) []
        l with
    | none => exact SameMap.refl hg
    | some c =>
      have hlist : c.list = l := by simpa using firstVisited_some hf
      rw [← hlist] at hg ⊢
      exact mergeFrom_sameMap 4 hg
  have hm := hmerge hgood
  exact ⟨⟨hm.good, hs.charged.trans (hpages.symm.trans hm.pages.symm)⟩,
    fun va => (hm.view va).trans (hview va), rfl, fun hlt => absurd hlt (lt_irrefl _)⟩

theorem remapLookup_ok {base old : ℕ} (h : remapLookup l base old = .ok c) :
    c.list = l ∧ c.here.kind = .anon ∧ c.here.base = base ∧ c.here.size = old := by
  rw [remapLookup] at h
  cases hf : spaceFind l base with
  | none =>
    rw [hf] at h
    cases h
  | some d =>
    rw [hf] at h
    simp only at h
    split_ifs at h with hbad hq
    cases h
    obtain ⟨hlist, -⟩ := seek_some hf
    push Not at hbad
    exact ⟨by simpa using hlist, hbad⟩

/-- A space whose list is cut at `base + new` and has lost the piece above. -/
theorem became_of_shrink (hs : Sound s) (hlist : c.list = s.regions) {new : ℕ}
    (hwhole : new % pageSize = 0) (hpos : 0 < new) (hlt : new < c.here.size) :
    ∃ tail, regionSplit c (c.here.base + new) = some tail ∧
      Became s { s with regions := tail.remove,
                        mappedPages := s.mappedPages - (c.here.size - new) / pageSize }
        (c.here.base + new) (c.here.base + c.here.size) fun _ => none := by
  have hg : Good (c.before.reverse ++ c.here :: c.after) := by
    rw [← Cursor.list, hlist]
    exact hs.good
  have hr : RegionOk c.here := hg.ok c.here (by simp)
  set va := c.here.base + new with hva
  have hlo : c.here.base < va := by omega
  have hhi : va < c.here.stop := by
    rw [Region.stop]
    omega
  have hal : va % pageSize = 0 := by
    have := hr.aligned
    simp only [pageSize] at *
    omega
  have hsame := sameMap_cut hg hal hlo hhi
  have hdiv : Divided Region.base Region.stop va (c.here.base + c.here.size)
      (c.before.reverse ++ c.here.headAt va :: c.here.tailAt va :: c.after)
      (c.before.reverse ++ [c.here.headAt va]) [c.here.tailAt va] c.after := by
    have htail := hsame.good
    rw [append_cons] at htail ⊢
    have hdiv := htail.divided
    rw [(pieces_cut hlo hhi).stop] at hdiv
    exact hdiv
  obtain ⟨hgood, -⟩ := kept_spec hsame hdiv
  have hal' : isPageAligned va = true := by simpa [isPageAligned] using hal
  refine ⟨_, if_pos ⟨hlo, hhi, hal'⟩, ?_⟩
  have hremove :
    (⟨c.here.headAt va :: c.before, c.here.tailAt va, c.after⟩ : Cursor Region).remove =
      c.before.reverse ++ [c.here.headAt va] ++ c.after := by
    simp [Cursor.remove]
  rw [← Cursor.list, hlist] at hsame
  rw [hremove]
  refine became_of_edit (X := []) hs hsame hdiv (by simp) hgood (SameMap.refl hgood) ?_
    (fun _ _ => rfl) fun hlt => absurd hlt (Nat.sub_le _ _).not_gt
  have hsize : (c.here.tailAt va).size = c.here.size - new := by
    simp only [Region.tailAt]
    omega
  rw [pages_cons, hsize]
  rfl

theorem RegionOk.attrAt_anon {r : Region} (h : RegionOk r) (hk : r.kind = .anon) (va va' : ℕ) :
    r.attrAt va = r.attrAt va' := by
  simp [Region.attrAt, h.fmap_of_anon hk]

theorem became_of_grow (hs : Sound s) (hlist : c.list = s.regions) (hanon : c.here.kind = .anon)
    {new : ℕ} (hv : ValidRange c.here.base new) (hlt : c.here.size < new)
    (hfree : rangeFreeExcept c c.here.footLo (c.here.footHi + (new - c.here.size)) = true)
    (hlimit : s.mappedPages + (new - c.here.size) / pageSize ≤ s.limitMappedPages) :
    Became s
      { s with
        regions := c.before.reverse ++
          regionMergeForward 2 ({ c.here with size := new } :: c.after)
        mappedPages := s.mappedPages + (new - c.here.size) / pageSize }
      (c.here.base + c.here.size) (c.here.base + new)
      fun _ => view s.regions c.here.base := by
  have hg : Good (c.before.reverse ++ c.here :: c.after) := by
    rw [← Cursor.list, hlist]
    exact hs.good
  have hr : RegionOk c.here := hg.ok c.here (by simp)
  set grown : Region := { c.here with size := new } with hgrown
  have hrg : RegionOk grown := { hr with whole := hv.whole, pos := hv.pos, high := hv.high }
  have hfoot : grown.footHi = c.here.footHi + (new - c.here.size) := by
    simp only [Region.footHi, hgrown]
    omega
  have hlaid := hg.laid
  simp only [pairwise_append, pairwise_cons, mem_cons] at hlaid
  obtain ⟨-, ⟨hafter, -⟩, hcross⟩ := hlaid
  have hbelow : ∀ x ∈ c.before.reverse, x.footHi ≤ grown.footLo :=
    fun x hx => hcross x hx c.here (Or.inl rfl)
  have hclear : ∀ x ∈ c.after, grown.footHi ≤ x.footLo := by
    intro x hx
    rw [rangeFreeExcept, all_eq_true] at hfree
    have hx' := hfree x (mem_append_right _ hx)
    simp only [Bool.not_eq_true', decide_eq_false_iff_not, not_and, not_lt] at hx'
    rw [hfoot]
    apply hx'
    have := hafter x hx
    have := c.here.footLo_le
    have := c.here.stop_le_footHi
    have := hr.base_lt_stop
    have := x.footLo_le
    have := x.stop_le_footHi
    have := (hg.ok x (by simp [hx])).base_lt_stop
    omega
  have hkept : Good (c.before.reverse ++ c.after) :=
    hg.sublist (List.Sublist.append_left (sublist_cons_self _ _) _)
  have hgood : Good (c.before.reverse ++ ([grown] ++ c.after)) :=
    good_between hkept hrg hbelow hclear
  have hdiv := divided_around (M := [c.here]) hbelow
    (fun x hx => by
      rw [mem_singleton.mp hx]
      exact ⟨le_refl _, hr.base_lt_stop, Nat.add_le_add_left hlt.le _⟩)
    hclear fun x hx => hg.ok x (by simp [hx])
  have hmerge : SameMap (c.before.reverse ++ grown :: c.after)
      (c.before.reverse ++ regionMergeForward 2 (grown :: c.after)) :=
    regionMergeForward_sameMap 2 c.before.reverse hgood
  have hhere : ∀ {va}, c.here.base ≤ va ∧ va < c.here.stop →
      view s.regions va = some (c.here.attrAt va) := by
    intro va hva
    rw [view_eq_some hs.good]
    exact ⟨c.here, by rw [← hlist]; simp [Cursor.list], hva, rfl⟩
  have hbecame : Became s _ grown.base grown.stop fun va => some (grown.attrAt va) :=
    became_of_edit (X := [grown]) hs (by rw [← hlist]; exact SameMap.refl hg) hdiv (by simp) hgood
      hmerge ?_ (fun va hva => hrg.attr_single hva) fun _ => hlimit
  · refine { hbecame with view := fun va => (hbecame.view va).trans ?_ }
    change (if c.here.base ≤ va ∧ va < c.here.base + new then _ else _) = _
    split_ifs with hva hnew hnew
    · rw [hhere ⟨le_refl _, hr.base_lt_stop⟩]
      exact congrArg some (hr.attrAt_anon hanon va c.here.base)
    · rw [hhere ⟨hva.1, by rw [Region.stop]; omega⟩]
      rfl
    · omega
    · rfl
  · have hsplit := div_pageSize_add (n := new - c.here.size) hr.whole
    rw [Nat.add_sub_cancel' hlt.le] at hsplit
    have hmore := Nat.zero_le ((new - c.here.size) / pageSize)
    simp only [pages_cons, show grown.size = new from rfl]
    omega

/-- **`vm_user_remap`** resizes the mapping or leaves the space as it was. -/
theorem vmUserRemap_does (hs : Sound s) {old new : UInt64} :
    Does s (fun _ => (base.toNat + min old.toNat new.toNat, base.toNat + max old.toNat new.toNat))
      (fun _ _ => if new < old then none else view s.regions base.toNat)
      (vmUserRemap s base old new alloc) := by
  cases hc : remapLookup s.regions base.toNat old.toNat with
  | error e =>
    simp only [vmUserRemap, hc]
    split_ifs <;> trivial
  | ok c =>
    obtain ⟨hlist, hanon, hbase, hsize⟩ := remapLookup_ok hc
    have hlt_iff : new < old ↔ new.toNat < c.here.size := by rw [hsize, UInt64.lt_iff_toNat_lt]
    simp only [vmUserRemap, hc, hlt_iff]
    refine .asserted fun _ => .asserted fun _ => .unless fun hrange => ?_
    have hv := validRange_of_words (by simpa using hrange)
    rw [← hbase] at hv ⊢
    rw [← hsize]
    by_cases hlt : new.toNat < c.here.size
    · rw [if_pos hlt, if_pos hlt]
      refine .unless fun _ => ?_
      obtain ⟨tail, htail, hbecame⟩ := became_of_shrink hs hlist hv.whole hv.pos hlt
      simp only [remapShrink, htail, Option.bind_some, Does, Nat.min_eq_right hlt.le,
        Nat.max_eq_left hlt.le]
      exact hbecame
    · have hle : c.here.size ≤ new.toNat := not_lt.mp hlt
      simp only [Nat.min_eq_left hle, Nat.max_eq_right hle]
      rw [if_neg hlt, if_neg hlt, remapGrow]
      split_ifs with heq hfree hlimit
      · refine ⟨hs, fun va => ?_, rfl, fun hgrow => absurd hgrow (lt_irrefl _)⟩
        rw [heq, if_neg fun h => h.2.not_ge h.1]
      · exact does_fail
      · exact does_fail
      · exact became_of_grow hs hlist hanon hv (by omega) (by simpa using hfree) (not_lt.mp hlimit)

end CosmoOS.Memory.UserSpace
