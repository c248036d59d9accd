import CosmoOS.Cosmofs.Csum

/-!
# What the checksum index stores, and that writing it keeps it

`stored` reads an entry off the blocks in view, with no call that can fail.  `entryGet_spec` says
that the code's get answers that, and `entryPut_spec` that a put changes it for one logical block.

Everything in between is about one step, the pointing of one slot at a new block (`repoint_step`):
the positions of all other blocks stay (`find_repointed`), so each leaf has the words it had.  The
walk is an induction over the levels with that step, and its invariant is `Spot`: the slot about to
be written is the one that names the block at this position, in a block this transaction already
owns.
-/

namespace CosmoOS.Cosmofs

open Lib Fallible SlotTree Function

variable {x lblk d index n : Nat} {s t : Fs} {b : MBlock} {w : Nat → Nat} {p : Fs × Inode}
  {E : Type} {kind : Kind} {levels : List (Kind × Nat)}

/-! ## The index in view -/

/-- The block at `x`, when that is an address. -/
def node (s : Fs) (x : Nat) : Option MBlock := if dvaValid s.geo x then view s x else none

theorem node_zero (s : Fs) : node s 0 = none := by
  have h0 : ¬ dvaValid s.geo 0 = true := fun h => ne_zero_of_dvaValid h rfl
  rw [node, if_neg h0]

theorem node_congr (hg : t.geo = s.geo) (hv : view t x = view s x) : node t x = node s x := by
  rw [node, node, hg, hv]

theorem node_of_view (hv : dvaValid s.geo x = true)
    (h : view s x = some b) : node s x = some b := by
  rw [node, if_pos hv, h]

theorem view_of_node (h : node s x = some b) : dvaValid s.geo x = true ∧ view s x = some b := by
  unfold node at h
  split at h
  · exact ⟨‹_›, h⟩
  · cases h

/-- With nothing failing, a block that is not read is not a node of the kind asked for. -/
theorem kind_ne_of_bufGet_error {k : Kind} {e : Errno}
    (hf : s.faults = []) (h : bufGet x (some k) s = (.error e, t)) (hn : node s x = some b) :
    b.payload.kind ≠ k := by
  rintro rfl
  obtain ⟨hv, hview⟩ := view_of_node hn
  exact absurd (((bufGet_spec h).2.2 hf).2 b hv hview) (by simp [kindOk])

def indexKind : Nat → Kind
  | 0 => .csum
  | 1 => .csumidx
  | _ => .csumidx2

/-- Slot `k` of block `x`, read as a node of height `h`. -/
def slots (s : Fs) (h x k : Nat) : Nat :=
  match node s x with
  | some b => if b.payload.kind = indexKind h then b.payload.slot k else 0
  | none => 0

theorem slots_of_node {h : Nat} (hn : node s x = some b)
    (hk : b.payload.kind = indexKind h) : slots s h x = b.payload.slot := by
  funext k
  rw [slots, hn]
  exact if_pos hk

theorem slots_congr (hn : node t x = node s x) (h : Nat) : slots t h x = slots s h x := by
  funext k
  rw [slots, slots, hn]

theorem slots_zero (s : Fs) (h k : Nat) : slots s h 0 k = 0 := by
  rw [slots, node_zero]

/-- The words of a CSUM block. -/
def words (s : Fs) (x : Nat) : Option (Nat → Nat) :=
  match node s x with
  | some ⟨_, .csum w⟩ => some w
  | _ => none

theorem words_eq_some : words s x = some w ↔ ∃ g, node s x = some ⟨g, .csum w⟩ := by
  rw [words]
  constructor
  · intro h
    split at h
    · rename_i g w' hn
      obtain rfl : w' = w := Option.some.inj h
      exact ⟨g, hn⟩
    · cases h
  · rintro ⟨g, hn⟩
    rw [hn]

section

variable (s) (root : Nat) (p : Fs × Inode)

def csumHeight : Nat :=
  match node s root with
  | some b => if b.payload.kind = .csumidx2 then 2 else 1
  | none => 1

theorem csumHeight_pos : 1 ≤ csumHeight s root ∧ csumHeight s root ≤ 2 := by
  unfold csumHeight
  split
  · split <;> omega
  · omega

/-- The block at a position of an inode's index. -/
def place (q : List Nat) : Nat :=
  find (slots p.1) (csumHeight p.1 p.2.csumRoot) p.2.csumRoot q

theorem place_cons (k : Nat) (q : List Nat) :
    place p (k :: q) = slots p.1 (csumHeight p.1 p.2.csumRoot - q.length) (place p q) k := rfl

def leafPos (h index : Nat) : List Nat :=
  if h = 2 then [index % csumidxSpan, index / csumidxSpan] else [index]

/-- Whether a leaf can be met: in a one-level index only the first, and a two-level index only
where the format says so. -/
def LeafOk (index : Nat) : Prop :=
  index < csumidxSpan * csumidxSpan ∧
    (csumHeight p.1 p.2.csumRoot = 1 → index < csumidxSpan) ∧
    (csumHeight p.1 p.2.csumRoot = 2 → 14 ≤ p.1.sb.version)

end

instance (p : Fs × Inode) (index : Nat) : Decidable (LeafOk p index) := by
  unfold LeafOk
  infer_instance

/-- The entry the index stores for a logical block. -/
def stored {E : Type} (f : EntryFormat E) (p : Fs × Inode) (lblk : Nat) : Option E :=
  if LeafOk p (f.index lblk) then
    (words p.1 (place p (leafPos (csumHeight p.1 p.2.csumRoot) (f.index lblk)))).map
      fun w => f.get w (f.slot lblk)
  else none

theorem stored_eq_some {f : EntryFormat E} {e : E} :
    stored f p lblk = some e ↔ LeafOk p (f.index lblk) ∧
      ∃ w, words p.1 (place p (leafPos (csumHeight p.1 p.2.csumRoot) (f.index lblk))) = some w ∧
        f.get w (f.slot lblk) = e := by
  rw [stored]
  by_cases h : LeafOk p (f.index lblk)
  · rw [if_pos h, Option.map_eq_some_iff]
    exact ⟨fun hw => ⟨h, hw⟩, fun hw => hw.2⟩
  · rw [if_neg h]
    exact ⟨fun hx => absurd hx (by simp), fun hx => absurd hx.1 h⟩

def OnTree (p : Fs × Inode) (d : Nat) : Prop := d ≠ 0 ∧ ∃ q, place p q = d

/-- The index is a tree, of allocated blocks. -/
structure TreeSound (p : Fs × Inode) : Prop where
  apart : Apart (slots p.1) (csumHeight p.1 p.2.csumRoot) p.2.csumRoot
  taken : ∀ d, OnTree p d → allocated p.1 d = true

/-! ## What a write of the index may do -/

/-- The index's blocks moved about. -/
structure Shifted (p q : Fs × Inode) : Prop where
  geo : q.1.geo = p.1.geo
  version : p.1.sb.version ≤ q.1.sb.version
  sound : TreeSound q

/-- The index's blocks moved about; what it stores stayed. -/
structure Reshaped (p q : Fs × Inode) : Prop extends Shifted p q where
  keeps : ∀ {E : Type} (f : EntryFormat E) (l : Nat) (e : E),
    stored f p l = some e → stored f q l = some e

/-- The index's blocks moved about, it is as high as it was, and what it names anew is a
block. -/
structure AsHigh (p q : Fs × Inode) : Prop extends Reshaped p q where
  height : csumHeight q.1 q.2.csumRoot = csumHeight p.1 p.2.csumRoot
  named : ∀ d, OnTree q d → OnTree p d ∨ dvaValid q.1.geo d = true

section

variable {p q r : Fs × Inode}

theorem Shifted.trans (h₁ : Shifted p q) (h₂ : Shifted q r) : Shifted p r :=
  ⟨h₂.geo.trans h₁.geo, Nat.le_trans h₁.version h₂.version, h₂.sound⟩

theorem Reshaped.trans (h₁ : Reshaped p q) (h₂ : Reshaped q r) : Reshaped p r :=
  ⟨h₁.toShifted.trans h₂.toShifted, fun f l e h => h₂.keeps f l e (h₁.keeps f l e h)⟩

theorem AsHigh.trans (h₁ : AsHigh p q) (h₂ : AsHigh q r) : AsHigh p r :=
  ⟨h₁.toReshaped.trans h₂.toReshaped, h₂.height.trans h₁.height, fun d hd =>
    (h₂.named d hd).elim (fun hq => (h₁.named d hq).imp_right (by rw [h₂.geo]; exact id)) .inr⟩

end

/-! ## Steps that leave the index where it is -/

/-- The index's blocks are the same blocks, at the same positions. -/
structure SameNodes (p q : Fs × Inode) : Prop where
  root : q.2.csumRoot = p.2.csumRoot
  height : csumHeight q.1 q.2.csumRoot = csumHeight p.1 p.2.csumRoot
  slots : ∀ d, OnTree p d → ∀ n, slots q.1 n d = slots p.1 n d

namespace SameNodes

variable {p q : Fs × Inode}

theorem of_node (hroot : q.2.csumRoot = p.2.csumRoot)
    (hn : ∀ d, OnTree p d → node q.1 d = node p.1 d) : SameNodes p q := by
  refine ⟨hroot, ?_, fun d hd n => slots_congr (hn d hd) n⟩
  rw [hroot]
  by_cases h0 : p.2.csumRoot = 0
  · rw [h0, csumHeight, csumHeight, node_zero, node_zero]
  · rw [csumHeight, csumHeight, hn _ ⟨h0, [], rfl⟩]

theorem place (h : SameNodes p q) (r : List Nat) : place q r = place p r := by
  induction r with
  | nil => exact h.root
  | cons k r ih =>
    rw [place_cons, place_cons, h.height, ih]
    by_cases h0 : Cosmofs.place p r = 0
    · rw [h0, slots_zero, slots_zero]
    · rw [h.slots _ ⟨h0, r, rfl⟩]

theorem onTree (h : SameNodes p q) (d : Nat) : OnTree q d ↔ OnTree p d := by
  unfold OnTree
  simp only [h.place]

theorem sound (h : SameNodes p q) (hs : TreeSound p)
    (hal : ∀ d, allocated p.1 d = true → allocated q.1 d = true) : TreeSound q := by
  refine ⟨fun a b heq hne => ?_, fun d hd => hal d (hs.taken d ((h.onTree d).mp hd))⟩
  have hab : Cosmofs.place q a = Cosmofs.place q b := heq
  have hna : Cosmofs.place q a ≠ 0 := hne
  rw [h.place, h.place] at hab
  rw [h.place] at hna
  exact hs.apart a b hab hna

theorem leafOk (h : SameNodes p q) (hv : p.1.sb.version ≤ q.1.sb.version)
    (hl : LeafOk p index) : LeafOk q index := by
  obtain ⟨h1, h2, h3⟩ := hl
  rw [LeafOk, h.height]
  exact ⟨h1, h2, fun hh => Nat.le_trans (h3 hh) hv⟩

end SameNodes

section

variable {q : Fs × Inode}

theorem AsHigh.of_node (hs : TreeSound p) (hg : q.1.geo = p.1.geo)
    (hv : p.1.sb.version ≤ q.1.sb.version)
    (hal : ∀ d, allocated p.1 d = true → allocated q.1 d = true)
    (hroot : q.2.csumRoot = p.2.csumRoot)
    (hn : ∀ d, OnTree p d → node q.1 d = node p.1 d) : AsHigh p q := by
  have hsame := SameNodes.of_node hroot hn
  refine ⟨⟨⟨hg, hv, hsame.sound hs hal⟩, fun f l e hst => ?_⟩, hsame.height,
    fun d hd => .inl ((hsame.onTree d).mp hd)⟩
  obtain ⟨hl, w, hw, he⟩ := stored_eq_some.mp hst
  refine stored_eq_some.mpr ⟨hsame.leafOk hv hl, w, ?_, he⟩
  obtain ⟨g, hnode⟩ := words_eq_some.mp hw
  have h0 : place p (leafPos (csumHeight p.1 p.2.csumRoot) (f.index l)) ≠ 0 := by
    intro h0
    rw [h0, node_zero] at hnode
    cases hnode
  rw [hsame.height, hsame.place]
  exact words_eq_some.mpr ⟨g, (hn _ ⟨h0, _, rfl⟩).trans hnode⟩

theorem AsHigh.of_aside (hs : TreeSound p) (h : Aside p.1 t) : AsHigh p (t, p.2) :=
  .of_node hs h.geo h.version h.grew rfl fun d hd => node_congr h.geo (h.view (hs.taken d hd))

end

/-! ## One slot pointed at a new block -/

theorem Payload.kind_setSlot (p : Payload) (k d : Nat) : (p.setSlot k d).kind = p.kind := by
  cases p <;> rfl

theorem Payload.slot_setSlot {p : Payload} {h : Nat} (hk : p.kind = indexKind (h + 1)) (k d : Nat) :
    (p.setSlot k d).slot = update p.slot k d := by
  cases p with
  | csumidx sl => rfl
  | csumidx2 sl => rfl
  | _ => cases h <;> simp [Payload.kind, indexKind] at hk

theorem Payload.slot_zero (kind : Kind) : (Payload.zero kind).slot = fun _ => 0 := by
  cases kind <;> rfl

theorem csumHeight_of_node {root : Nat} (h : node s root = some b)
    (hn : 1 ≤ n ∧ n ≤ 2) (hk : b.payload.kind = indexKind n) : csumHeight s root = n := by
  have hcase : n = 1 ∨ n = 2 := by omega
  rw [csumHeight, h]
  dsimp only
  rcases hcase with rfl | rfl
  · rw [hk]
    rfl
  · rw [hk]
    rfl

/-- The slot is the one that names the block at position `P`, in a block of this
transaction. -/
structure Spot (p : Fs × Inode) (P : List Nat) (slot : Option (Nat × Nat)) : Prop where
  depth : P.length ≤ csumHeight p.1 p.2.csumRoot
  top : P = [] → slot = none
  held : ∀ k r, P = k :: r → slot = some (place p r, k) ∧ dvaValid p.1.geo (place p r) = true ∧
    ∃ g pl, p.1.bufs (place p r) = some ⟨g, pl⟩ ∧
      pl.kind = indexKind (csumHeight p.1 p.2.csumRoot - r.length)

/-- What a new block has been given: nothing, where there was no block, or the contents of the
one there, which has been given back. -/
inductive Refit (p : Fs × Inode) (P : List Nat) (d g : Nat) (pl : Payload) : Fs → Prop
  | new {u : Fs} (h0 : place p P = 0) (hpl : pl = Payload.zero pl.kind)
      (ht : Took p.1 d ⟨g, pl⟩ u) : Refit p P d g pl u
  | copy {u v : Fs} {g' : Nat} (hn : node p.1 (place p P) = some ⟨g', pl⟩)
      (ht : Took p.1 d ⟨g, pl⟩ u) (hd : Disposed u [place p P] v) : Refit p P d g pl v

namespace Refit

variable {p : Fs × Inode} {P : List Nat} {d g : Nat} {pl : Payload} {v : Fs}

section

variable (h : Refit p P d g pl v)

include h

/-- The block as it was taken, before the old one was given back. -/
theorem took : ∃ u, Took p.1 d ⟨g, pl⟩ u ∧
    ∃ fr fl c, v = { u with frees := fr, faults := fl, curClone := c } := by
  cases h with
  | new _ _ ht => exact ⟨v, ht, _, _, _, rfl⟩
  | copy _ ht hd => exact ⟨_, ht, hd.frame⟩

theorem valid : dvaValid p.1.geo d = true := by
  obtain ⟨u, ht, -⟩ := h.took
  exact ht.valid

theorem now (x : Nat) : allocated v x = true ↔ allocated p.1 x = true ∨ x = d := by
  obtain ⟨u, ht, fr, fl, c, rfl⟩ := h.took
  exact ht.now x

theorem frame : ∃ sp fr fl c, v = { p.1 with
    space := sp, frees := fr, faults := fl, curClone := c
    bufs := update p.1.bufs d (some ⟨g, pl⟩) } := by
  obtain ⟨u, ht, fr, fl, c, rfl⟩ := h.took
  obtain ⟨sp, fl', rfl⟩ := ht.frame
  exact ⟨_, _, _, _, rfl⟩

/-- The new block is none of the index's. -/
theorem fresh (hs : TreeSound p) (r : List Nat) : place p r ≠ d := by
  intro heq
  have h0 : place p r ≠ 0 := by
    rw [heq]
    exact ne_zero_of_dvaValid h.valid
  obtain ⟨u, ht, -⟩ := h.took
  exact ht.ne (hs.taken _ ⟨h0, r, rfl⟩) heq

theorem slot (hk : pl.kind = indexKind n) : pl.slot = slots p.1 n (place p P) := by
  cases h with
  | new h0 hpl _ =>
    funext k
    rw [h0, slots_zero, hpl, Payload.slot_zero]
  | copy hn _ _ => rw [slots_of_node hn hk]

end

end Refit

/-- The state once the slot names the new block. -/
structure Pointed (p : Fs × Inode) (P : List Nat) (d g : Nat) (pl : Payload) (v : Fs)
    (q : Fs × Inode) : Prop where
  frame : ∃ sp fr bf fl c, q.1 = { p.1 with
    space := sp, frees := fr, bufs := bf, faults := fl, curClone := c }
  alloc : ∀ x, allocated q.1 x = allocated v x
  new : q.1.bufs d = some ⟨g, pl⟩
  top : P = [] → q.2.csumRoot = d
  holder : ∀ k r, P = k :: r → q.2.csumRoot = p.2.csumRoot ∧ place p r ≠ 0 ∧ place p r ≠ d ∧
    dvaValid p.1.geo (place p r) = true ∧ ∃ ga pa, p.1.bufs (place p r) = some ⟨ga, pa⟩ ∧
      pa.kind = indexKind (csumHeight p.1 p.2.csumRoot - r.length) ∧
      q.1.bufs (place p r) = some ⟨ga, pa.setSlot k d⟩
  others : ∀ x, x ≠ d → (∀ k r, P = k :: r → x ≠ place p r) → q.1.bufs x = p.1.bufs x

theorem Spot.pointed {P : List Nat} {slot : Option (Nat × Nat)} {g : Nat}
    {pl : Payload} {v : Fs} (hs : TreeSound p) (hspot : Spot p P slot) (h : Refit p P d g pl v) :
    Pointed p P d g pl v (setPtr slot d (v, p.2)) := by
  have hbufs : v.bufs = update p.1.bufs d (some ⟨g, pl⟩) := by
    obtain ⟨sp, fr, fl, c, rfl⟩ := h.frame
    rfl
  have hframe := h.frame
  cases P with
  | nil =>
    rw [hspot.top rfl]
    obtain ⟨sp, fr, fl, c, hv⟩ := hframe
    refine ⟨⟨sp, fr, _, fl, c, hv⟩, fun _ => rfl, ?_, fun _ => rfl, by simp, fun x hx _ => ?_⟩
    · show v.bufs d = _
      rw [hbufs, update_self]
    · show v.bufs x = _
      rw [hbufs, update_of_ne hx]
  | cons k r =>
    obtain ⟨rfl, hvalid, ga, pa, hpa, hkind⟩ := hspot.held k r rfl
    have h0 : place p r ≠ 0 := ne_zero_of_dvaValid hvalid
    have hne : place p r ≠ d := h.fresh hs r
    have hva : v.bufs (place p r) = some ⟨ga, pa⟩ := by
      rw [hbufs, update_of_ne hne, hpa]
    have hset : setPtr (some (place p r, k)) d (v, p.2) =
        (setBuf (place p r) ⟨ga, pa.setSlot k d⟩ v, p.2) := by
      rw [setPtr]
      simp only [hva]
    rw [hset]
    obtain ⟨sp, fr, fl, c, hv⟩ := hframe
    refine ⟨⟨sp, fr, _, fl, c, by rw [hv]; rfl⟩, fun _ => rfl, ?_, by simp, ?_, fun x hx hx' => ?_⟩
    · show update v.bufs _ _ d = _
      rw [update_of_ne (Ne.symm hne), hbufs, update_self]
    · rintro k' r' ⟨⟩
      exact ⟨rfl, h0, hne, hvalid, ga, pa, hpa, hkind, update_self _ _ _⟩
    · show update v.bufs _ _ x = _
      rw [update_of_ne (hx' k r rfl), hbufs, update_of_ne hx]

namespace Pointed

variable {p q : Fs × Inode} {P : List Nat} {d g : Nat} {pl : Payload} {v : Fs}

section

variable (h : Pointed p P d g pl v q)

include h

theorem geo : q.1.geo = p.1.geo := by
  obtain ⟨_, _, _, _, _, heq⟩ := h.frame
  rw [heq]

theorem disk : q.1.disk = p.1.disk := by
  obtain ⟨_, _, _, _, _, heq⟩ := h.frame
  rw [heq]

theorem node_new (hr : Refit p P d g pl v) : node q.1 d = some ⟨g, pl⟩ :=
  node_of_view (by rw [h.geo]; exact hr.valid) (view_of_bufs h.new)

theorem node_others (hx : x ≠ d) (hx' : ∀ k r, P = k :: r → x ≠ place p r) :
    node q.1 x = node p.1 x :=
  node_congr h.geo (view_congr (h.others x hx hx') h.disk)

theorem node_leaf (hspot : P.length ≤ csumHeight p.1 p.2.csumRoot) {gx : Nat} (hx : x ≠ d)
    (hn : node p.1 x = some ⟨gx, .csum w⟩) : node q.1 x = some ⟨gx, .csum w⟩ := by
  rw [h.node_others hx]
  · exact hn
  · rintro k r rfl rfl
    obtain ⟨-, -, -, hvalid, ga, pa, hpa, hkind, -⟩ := h.holder k r rfl
    rw [node_of_view hvalid (view_of_bufs hpa), Option.some.injEq, MBlock.mk.injEq] at hn
    rw [hn.2] at hkind
    rw [List.length_cons] at hspot
    obtain ⟨m, hm⟩ : ∃ m, csumHeight p.1 p.2.csumRoot - r.length = m + 1 :=
      ⟨csumHeight p.1 p.2.csumRoot - r.length - 1, by omega⟩
    rw [hm] at hkind
    cases m <;> simp [Payload.kind, indexKind] at hkind

end

theorem height (hs : TreeSound p) (h : Pointed p P d g pl v q) (hr : Refit p P d g pl v)
    (hk : pl.kind = indexKind (csumHeight p.1 p.2.csumRoot - P.length)) :
    csumHeight q.1 q.2.csumRoot = csumHeight p.1 p.2.csumRoot := by
  cases P with
  | nil =>
    rw [h.top rfl]
    exact csumHeight_of_node (h.node_new hr) (csumHeight_pos _ _) hk
  | cons k r =>
    obtain ⟨hroot, h0, hne, hvalid, ga, pa, hpa, hkind, hqa⟩ := h.holder k r rfl
    rw [hroot]
    by_cases hx : p.2.csumRoot = place p r
    · -- the root is the holder: its kind stays
      have hp : node p.1 p.2.csumRoot = some ⟨ga, pa⟩ := by
        rw [hx]
        exact node_of_view hvalid (view_of_bufs hpa)
      have hq : node q.1 p.2.csumRoot = some ⟨ga, pa.setSlot k d⟩ := by
        rw [hx]
        exact node_of_view (by rw [h.geo]; exact hvalid) (view_of_bufs hqa)
      rw [csumHeight, csumHeight, hp, hq]
      dsimp only
      rw [Payload.kind_setSlot]
    · have hd : p.2.csumRoot ≠ d := hr.fresh hs []
      rw [csumHeight, csumHeight, h.node_others hd (by rintro k' r' ⟨⟩; exact hx)]

end Pointed

variable {p q : Fs × Inode} {P : List Nat} {d g : Nat} {pl : Payload} {v : Fs}
    {r : Except Errno (Nat × Payload)} {slot : Option (Nat × Nat)} {newUuid : List Nat → Nat}

/-- A level made this transaction's: the block at position `P` is `d`, with contents `pl`. -/
structure Opened (p : Fs × Inode) (P : List Nat) (d : Nat) (pl : Payload) (q : Fs × Inode) :
    Prop where
  height : csumHeight q.1 q.2.csumRoot = csumHeight p.1 p.2.csumRoot
  here : place q P = d
  valid : dvaValid q.1.geo d = true
  buf : ∃ g, q.1.bufs d = some ⟨g, pl⟩
  kind : pl.kind = indexKind (csumHeight p.1 p.2.csumRoot - P.length)

section

variable (hs : TreeSound p) (h : Pointed p P d g pl v q) (hr : Refit p P d g pl v)
    (hlen : P.length ≤ csumHeight p.1 p.2.csumRoot)
    (hk : pl.kind = indexKind (csumHeight p.1 p.2.csumRoot - P.length))

include hs h hr hlen hk

/-- **The step**: one position of the index repointed. -/
theorem Pointed.repointed :
    Repointed (slots p.1) (slots q.1) (csumHeight p.1 p.2.csumRoot) p.2.csumRoot q.2.csumRoot P
      d := by
  refine ⟨hr.fresh hs, ?_, h.top, ?_, ?_⟩
  · rw [slots_of_node (h.node_new hr) hk]
    exact hr.slot hk
  · rintro k r rfl
    obtain ⟨hroot, h0, hne, hvalid, ga, pa, hpa, hkind, hqa⟩ := h.holder k r rfl
    have hp : node p.1 (place p r) = some ⟨ga, pa⟩ := node_of_view hvalid (view_of_bufs hpa)
    have hq : node q.1 (place p r) = some ⟨ga, pa.setSlot k d⟩ :=
      node_of_view (by rw [h.geo]; exact hvalid) (view_of_bufs hqa)
    refine ⟨hroot, h0, ?_⟩
    rw [List.length_cons] at hlen
    obtain ⟨m, hm⟩ : ∃ m, csumHeight p.1 p.2.csumRoot - r.length = m + 1 :=
      ⟨csumHeight p.1 p.2.csumRoot - r.length - 1, by omega⟩
    show slots q.1 _ (place p r) = update (slots p.1 _ (place p r)) k d
    rw [slots_of_node hp hkind, slots_of_node hq (by rw [Payload.kind_setSlot]; exact hkind)]
    rw [hm] at hkind
    exact Payload.slot_setSlot hkind k d
  · intro n x hx hx'
    exact slots_congr (h.node_others hx hx') n

theorem Pointed.place (r : List Nat) : place q r = if r = P then d else place p r := by
  rw [Cosmofs.place, h.height hs hr hk]
  exact find_repointed hs.apart (h.repointed hs hr hlen hk) r

/-- **The step keeps what the index stores.** -/
theorem Pointed.asHigh : AsHigh p q := by
  have hplace := h.place hs hr hlen hk
  have hheight := h.height hs hr hk
  have hver : q.1.sb = p.1.sb := by
    obtain ⟨_, _, _, _, _, heq⟩ := h.frame
    rw [heq]
  have htree : ∀ x, OnTree q x → OnTree p x ∨ x = d := by
    rintro x ⟨hx0, r, rfl⟩
    rw [hplace] at hx0 ⊢
    by_cases hrP : r = P
    · exact .inr (if_pos hrP)
    · rw [if_neg hrP] at hx0 ⊢
      exact .inl ⟨hx0, r, rfl⟩
  refine ⟨⟨⟨h.geo, by rw [hver], ⟨?_, fun x hx => ?_⟩⟩, ?_⟩, hheight, fun x hx => ?_⟩
  · rw [hheight]
    exact apart_repointed hs.apart (h.repointed hs hr hlen hk)
  · rw [h.alloc, hr.now]
    exact (htree x hx).imp_left (hs.taken x)
  · intro E f l e hst
    obtain ⟨hl, w, hw, he⟩ := stored_eq_some.mp hst
    refine stored_eq_some.mpr ⟨?_, w, ?_, he⟩
    · rw [LeafOk, hheight, hver]
      exact hl
    · rw [hheight, hplace]
      obtain ⟨gx, hn⟩ := words_eq_some.mp hw
      refine words_eq_some.mpr ?_
      by_cases hL : leafPos (csumHeight p.1 p.2.csumRoot) (f.index l) = P
      · rw [if_pos hL]
        rw [hL] at hn
        -- a leaf that was there has been copied
        cases hr with
        | new h0 _ _ =>
          rw [h0, node_zero] at hn
          cases hn
        | copy hn' ht hdis =>
          rw [hn'] at hn
          obtain ⟨rfl, rfl⟩ := MBlock.mk.inj (Option.some.inj hn)
          exact ⟨g, h.node_new (.copy hn' ht hdis)⟩
      · rw [if_neg hL]
        exact ⟨gx, h.node_leaf hlen (hr.fresh hs _) hn⟩
  · rw [h.geo]
    rcases htree x hx with hx | rfl
    · exact .inl hx
    · exact .inr hr.valid

theorem Pointed.opened : Opened p P d pl q :=
  ⟨h.height hs hr hk, by rw [h.place hs hr hlen hk, if_pos rfl], by rw [h.geo]; exact hr.valid,
    ⟨g, h.new⟩, hk⟩

end

/-! ## One level -/

/-- Nothing changed but the faults, and none came up. -/
def OnlyFaults (p q : Fs × Inode) : Prop :=
  ∃ fl, q = ({ p.1 with faults := fl }, p.2) ∧ (p.1.faults = [] → fl = [])

namespace OnlyFaults

theorem refl (p : Fs × Inode) : OnlyFaults p p := ⟨p.1.faults, rfl, id⟩

theorem of_drew (h : Drew p.1 t) : OnlyFaults p (t, p.2) := by
  obtain ⟨fl, rfl, hfl⟩ := h
  exact ⟨fl, rfl, hfl⟩

theorem asHigh (h : OnlyFaults p q) (hs : TreeSound p) : AsHigh p q := by
  obtain ⟨fl, rfl, -⟩ := h
  exact .of_node hs rfl (Nat.le_refl _) (fun _ => id) rfl fun _ _ => rfl

end OnlyFaults

/-- A block of the index that was copied, or was already the transaction's. -/
theorem csumCow_spec (hs : TreeSound p) (hspot : Spot p P slot)
    (hv : dvaValid p.1.geo (place p P) = true) (hb : view p.1 (place p P) = some b)
    (hk : b.payload.kind = indexKind (csumHeight p.1 p.2.csumRoot - P.length))
    (h : (onFst (bufCow (place p P) b) >>= fun blk =>
      runIf (blk ≠ place p P) (modify (setPtr slot blk)) >>= fun _ =>
        pure (blk, b.payload)) p = (r, q)) :
    AsHigh p q ∧ ∀ d pl, r = .ok (d, pl) → Opened p P d pl q := by
  have hcur0 : place p P ≠ 0 := ne_zero_of_dvaValid hv
  rcases onFst_bind_cases h with ⟨e, u, hc, rfl, rfl⟩ | ⟨d, u, hc, h⟩
  · have hbeside : Beside p.1 u := bufCow_spec hv hc
    exact ⟨.of_aside hs hbeside.1, by simp⟩
  rcases bufCow_spec hv hc with ⟨hg, rfl, ht⟩ | ⟨w, htook, hdis⟩
  · obtain rfl : u = setBuf (place p P) b p.1 := ht
    rw [runIf, if_neg (by simp)] at h
    cases h
    -- the block is marked dirty: it is in view what it was
    have hnode : ∀ x, OnTree p x → node (setBuf (place p P) b p.1) x = node p.1 x := by
      intro x _
      refine node_congr rfl ?_
      by_cases hx : x = place p P
      · rw [hx, hb]
        exact view_of_bufs (update_self _ _ _)
      · exact view_congr (update_of_ne hx _ _) rfl
    have hsame : SameNodes p (setBuf (place p P) b p.1, p.2) := .of_node rfl hnode
    refine ⟨.of_node hs rfl (Nat.le_refl _) (fun _ => id) rfl hnode, ?_⟩
    rintro d pl ⟨⟩
    exact ⟨hsame.height, hsame.place P, hv, ⟨b.gen, update_self _ _ _⟩, hk⟩
  · have hne : d ≠ place p P := (htook.ne (hs.taken _ ⟨hcur0, P, rfl⟩)).symm
    rw [runIf, if_pos hne] at h
    cases h
    have hrefit : Refit p P d p.1.gen b.payload u := .copy (node_of_view hv hb) htook hdis
    have hpt := hspot.pointed hs hrefit
    refine ⟨hpt.asHigh hs hrefit hspot.depth hk, ?_⟩
    rintro d' pl ⟨⟩
    exact hpt.opened hs hrefit hspot.depth hk

theorem kind_of_kindOk {k : Kind} (h : kindOk (some k) b = true) : b.payload.kind = k := by
  have hk : k = b.payload.kind := by simpa [kindOk] using h
  exact hk.symm

theorem Spot.faults (h : Spot p P slot) (fl : List Bool) :
    Spot ({ p.1 with faults := fl }, p.2) P slot :=
  ⟨h.depth, h.top, h.held⟩

theorem TreeSound.faults (h : TreeSound p) (fl : List Bool) :
    TreeSound ({ p.1 with faults := fl }, p.2) := ⟨h.apart, h.taken⟩

/-- **One level of a write.** -/
theorem csumLevel_spec (hs : TreeSound p) (hspot : Spot p P slot)
    (hk : kind = indexKind (csumHeight p.1 p.2.csumRoot - P.length))
    (h : csumLevel slot (place p P) kind true p = (r, q)) :
    AsHigh p q ∧ ∀ d pl, r = .ok (d, pl) → Opened p P d pl q := by
  unfold csumLevel at h
  by_cases h0 : place p P = 0
  · rw [if_pos h0] at h
    rcases onFst_bind_cases h with ⟨e, u, hb, rfl, rfl⟩ | ⟨d, u, hb, h⟩
    · have hbeside : Beside p.1 u := bufNew_spec hb
      exact ⟨.of_aside hs hbeside.1, by simp⟩
    cases h
    have hkz : (Payload.zero kind).kind =
        indexKind (csumHeight p.1 p.2.csumRoot - P.length) := by
      rw [Payload.kind_zero, hk]
    have hrefit : Refit p P d p.1.gen (Payload.zero kind) u :=
      .new h0 (by rw [Payload.kind_zero]) (bufNew_spec hb)
    have hpt := hspot.pointed hs hrefit
    refine ⟨hpt.asHigh hs hrefit hspot.depth hkz, ?_⟩
    rintro d' pl ⟨⟩
    exact hpt.opened hs hrefit hspot.depth hkz
  · rw [if_neg h0] at h
    rcases onFst_bind_cases h with ⟨e, u, hb, rfl, rfl⟩ | ⟨b, u, hb, h⟩
    · exact ⟨(OnlyFaults.of_drew (bufGet_spec hb).1).asHigh hs, by simp⟩
    obtain ⟨hu, hv, hview, hko⟩ := bufGet_spec hb
    have hkb := kind_of_kindOk hko
    have hseam : ∀ {rs w}, runIf (kind = .csumidx) (onFst (mayFail .enomem))
        ((u, p.2) : Fs × Inode) = (rs, w) → OnlyFaults p w := by
      intro rs w hw
      unfold runIf at hw
      split at hw
      · obtain ⟨hm, hwi⟩ := onFst_run.mp hw
        obtain ⟨t, i⟩ := w
        obtain rfl : i = p.2 := hwi
        exact .of_drew (hu.trans (mayFail_drew hm).1)
      · cases hw
        exact .of_drew hu
    rcases bind_cases h with ⟨e, hs', rfl⟩ | ⟨a, w, hs', h⟩
    · exact ⟨(hseam hs').asHigh hs, by simp⟩
    · have hre := (hseam hs').asHigh hs
      obtain ⟨fl', rfl, -⟩ := hseam hs'
      obtain ⟨h1, h2⟩ := csumCow_spec (p := ({ p.1 with faults := fl' }, p.2))
        (hs.faults fl') (hspot.faults fl') hv hview (by rw [hkb]; exact hk) h
      refine ⟨hre.trans h1, fun d pl hd => ?_⟩
      obtain ⟨ho1, ho2, ho3, ho4, ho5⟩ := h2 d pl hd
      exact ⟨ho1, ho2, ho3, ho4, ho5⟩

/-! ## The walk -/

/-- Levels for a subtree of a height: an index block for each. -/
def LevelsFor : Nat → List (Kind × Nat) → Prop
  | 0, levels => levels = []
  | h + 1, levels => ∃ k rest, levels = (indexKind (h + 1), k) :: rest ∧ LevelsFor h rest

/-- The position the slots of the levels lead to. -/
def walkPos (levels : List (Kind × Nat)) (P : List Nat) : List Nat :=
  (levels.map Prod.snd).reverse ++ P

theorem LevelsFor.nil (h : LevelsFor n []) : n = 0 := by
  cases n with
  | zero => rfl
  | succ n =>
    obtain ⟨k, rest, hx, -⟩ := h
    cases hx

theorem LevelsFor.cons {l : Kind × Nat} (h : LevelsFor n (l :: levels)) :
    ∃ m k, n = m + 1 ∧ l = (indexKind (m + 1), k) ∧ LevelsFor m levels := by
  cases n with
  | zero => exact absurd h (by simp [LevelsFor])
  | succ n =>
    obtain ⟨k, rest, hx, hrest⟩ := h
    cases hx
    exact ⟨n, k, rfl, rfl, hrest⟩

theorem walkPos_cons (kind : Kind) (k : Nat) (levels : List (Kind × Nat)) (P : List Nat) :
    walkPos ((kind, k) :: levels) P = walkPos levels (k :: P) := by
  simp [walkPos]

theorem Opened.spot (h : Opened p P d pl q) (hlt : P.length < csumHeight p.1 p.2.csumRoot)
    (k : Nat) :
    Spot q (k :: P) (some (d, k)) ∧ place q (k :: P) = pl.slot k := by
  obtain ⟨g, hb⟩ := h.buf
  refine ⟨⟨?_, by simp, ?_⟩, ?_⟩
  · rw [h.height, List.length_cons]
    omega
  · rintro k' r ⟨⟩
    rw [h.here, h.height]
    exact ⟨rfl, h.valid, g, pl, hb, h.kind⟩
  · rw [place_cons, h.here, h.height,
      slots_of_node (node_of_view h.valid (view_of_bufs hb)) h.kind]

/-- **The walk of a write**, level by level. -/
theorem csumWalk_spec (hs : TreeSound p) (hspot : Spot p P slot)
    (hlev : LevelsFor (csumHeight p.1 p.2.csumRoot - P.length) levels)
    (h : csumWalk true levels slot (place p P) p = (r, q)) :
    AsHigh p q ∧ ∀ d pl, r = .ok (d, pl) →
      place q (walkPos levels P) = d ∧ dvaValid q.1.geo d = true ∧
      ∃ g w, q.1.bufs d = some ⟨g, .csum w⟩ := by
  -- the slots of the levels are followed one at a time, each in the block opened before
  induction levels generalizing p P slot with
  | nil =>
    have hkind : Kind.csum = indexKind (csumHeight p.1 p.2.csumRoot - P.length) := by
      rw [hlev.nil]
      rfl
    obtain ⟨h1, h2⟩ := csumLevel_spec hs hspot hkind h
    refine ⟨h1, fun d pl hd => ?_⟩
    obtain ⟨-, hp, hv, ⟨g, hb⟩, hk⟩ := h2 d pl hd
    refine ⟨hp, hv, g, ?_⟩
    rw [hlev.nil] at hk
    cases pl with
    | csum w => exact ⟨w, hb⟩
    | _ => simp [Payload.kind, indexKind] at hk
  | cons l levels ih =>
    obtain ⟨n, k, hn, rfl, hrest⟩ := hlev.cons
    rcases bind_cases h with ⟨e, hl, rfl⟩ | ⟨⟨d, pl⟩, u, hl, h⟩
    · exact ⟨(csumLevel_spec hs hspot (by rw [hn]) hl).1, by simp⟩
    obtain ⟨h1, h2⟩ := csumLevel_spec hs hspot (by rw [hn]) hl
    have hop := h2 d pl rfl
    obtain ⟨hspot', hplace⟩ := hop.spot (by omega) k
    rw [← hplace] at h
    have hlev' : LevelsFor (csumHeight u.1 u.2.csumRoot - (k :: P).length) levels := by
      rw [hop.height, List.length_cons,
        show csumHeight p.1 p.2.csumRoot - (P.length + 1) = n by omega]
      exact hrest
    obtain ⟨h3, h4⟩ := ih h1.sound hspot' hlev' h
    refine ⟨h1.trans h3, fun d' pl' hd => ?_⟩
    rw [walkPos_cons]
    exact h4 d' pl' hd

theorem levelsFor_csumLevels {h : Nat} (index : Nat) (hh : 1 ≤ h ∧ h ≤ 2) :
    LevelsFor h (csumLevels (h = 2) index) := by
  have hcase : h = 1 ∨ h = 2 := by omega
  rcases hcase with rfl | rfl
  · exact ⟨index, [], rfl, rfl⟩
  · exact ⟨index / csumidxSpan, _, rfl, index % csumidxSpan, [], rfl, rfl⟩

theorem walkPos_csumLevels {h : Nat} (index : Nat) (hh : 1 ≤ h ∧ h ≤ 2) :
    walkPos (csumLevels (h = 2) index) [] = leafPos h index := by
  have hcase : h = 1 ∨ h = 2 := by omega
  rcases hcase with rfl | rfl <;> rfl

theorem Spot.root (p : Fs × Inode) : Spot p [] none := ⟨by simp, fun _ => rfl, by simp⟩

/-! ## A second level -/

/-- What the index names are addresses, and a two-level index stands only where the format
says that one may be met. -/
structure IndexOk (p : Fs × Inode) : Prop where
  valid : ∀ d, OnTree p d → dvaValid p.1.geo d = true
  format : csumHeight p.1 p.2.csumRoot = 2 → 14 ≤ p.1.sb.version

/-- What the index stores stayed, though it may have grown. -/
structure Grown (p q : Fs × Inode) : Prop extends Reshaped p q where
  indexOk : IndexOk p → IndexOk q

theorem Grown.trans {r : Fs × Inode} (h₁ : Grown p q) (h₂ : Grown q r) : Grown p r :=
  ⟨h₁.toReshaped.trans h₂.toReshaped, fun h => h₂.indexOk (h₁.indexOk h)⟩

theorem AsHigh.grown (h : AsHigh p q) : Grown p q := by
  refine ⟨h.toReshaped, fun hp => ⟨fun d hd => ?_, fun h2 => ?_⟩⟩
  · rcases h.named d hd with hd | hv
    · rw [h.geo]
      exact hp.valid d hd
    · exact hv
  · rw [h.height] at h2
    exact Nat.le_trans (hp.format h2) h.version

/-- The inode's index is of one level, or there is none yet. -/
def OneLevel (p : Fs × Inode) : Prop :=
  p.2.csumRoot = 0 ∨ ∃ b, node p.1 p.2.csumRoot = some b ∧ b.payload.kind = .csumidx

theorem OneLevel.height (h : OneLevel p) : csumHeight p.1 p.2.csumRoot = 1 := by
  rcases h with h0 | ⟨b, hb, hk⟩
  · rw [h0, csumHeight, node_zero]
  · exact csumHeight_of_node hb (by omega) hk

theorem csumRaise14_spec {r : Except Errno Unit} (h : csumRaise14 newUuid s = (r, t)) :
    Aside s t ∧ ∀ a, r = .ok a → 14 ≤ t.sb.version := by
  unfold csumRaise14 at h
  rw [gets_bind] at h
  by_cases h14 : s.sb.version ≥ 14
  · rw [if_pos h14] at h
    cases h
    exact ⟨.refl s, fun _ _ => h14⟩
  rw [if_neg h14] at h
  split at h
  · cases h
    exact ⟨.refl s, by simp⟩
  have hm := snapRaise_moves newUuid s
  rcases bind_cases h with ⟨e, hr, rfl⟩ | ⟨a, u, hr, h⟩ <;> rw [hr] at hm <;> obtain ⟨hm, hv⟩ := hm
  · exact ⟨hm, by simp⟩
  · cases h
    refine ⟨hm.trans ⟨rfl, rfl, rfl, ?_, fun _ => id, fun _ _ => rfl⟩, fun _ _ => Nat.le_refl 14⟩
    exact Nat.le_of_lt (hv (Nat.lt_of_not_ge h14))

/-- The state under a new root `top`. -/
theorem grown_top {top : Nat} {u : Fs} (hs : TreeSound p) (hone : OneLevel p)
    (h14 : 14 ≤ p.1.sb.version)
    (ht : Took p.1 top ⟨g, .csumidx2 (update (fun _ => 0) 0 p.2.csumRoot)⟩ u) :
    Grown p (u, { p.2 with csumRoot := top }) ∧ csumHeight u top = 2 := by
  have hone' := hone.height
  have htop0 : top ≠ 0 := ne_zero_of_dvaValid ht.valid
  have hnode : node u top = some ⟨g, .csumidx2 (update (fun _ => 0) 0 p.2.csumRoot)⟩ :=
    node_of_view (by rw [ht.geo]; exact ht.valid)
      (view_of_bufs (by rw [ht.bufs, update_self]))
  have hheight : csumHeight u top = 2 := csumHeight_of_node hnode (by omega) rfl
  have hothers : ∀ x, x ≠ top → node u x = node p.1 x := by
    intro x hx
    obtain ⟨sp, fl, rfl⟩ := ht.frame
    exact node_congr rfl (view_congr (update_of_ne hx _ _) rfl)
  have hfresh : ∀ r, find (slots p.1) 1 p.2.csumRoot r ≠ top := by
    intro r heq
    have hplace : place p r = top := by
      rw [place, hone']
      exact heq
    have hal := hs.taken top ⟨htop0, r, hplace⟩
    rw [ht.was_free] at hal
    cases hal
  have hraised : Raised (slots p.1) (slots u) 1 p.2.csumRoot top :=
    ⟨htop0, hfresh, slots_of_node hnode rfl, fun n x hx => slots_congr (hothers x hx) n⟩
  have hplace : ∀ r j, place (u, { p.2 with csumRoot := top }) (r ++ [j]) =
      if j = 0 then place p r else 0 := by
    intro r j
    rw [place, place, hone', hheight]
    exact find_raised (slots_zero p.1) hraised r j
  have hdown : ∀ d, OnTree (u, { p.2 with csumRoot := top }) d → OnTree p d ∨ d = top := by
    rintro d ⟨hd0, r, rfl⟩
    rcases List.eq_nil_or_concat' r with rfl | ⟨r, j, rfl⟩
    · exact .inr rfl
    · rw [hplace] at hd0 ⊢
      by_cases hj : j = 0
      · rw [if_pos hj] at hd0 ⊢
        exact .inl ⟨hd0, r, rfl⟩
      · rw [if_neg hj] at hd0
        exact absurd rfl hd0
  have hsb : u.sb = p.1.sb := by
    obtain ⟨sp, fl, rfl⟩ := ht.frame
    rfl
  refine ⟨⟨⟨⟨ht.geo, by rw [hsb], ⟨?_, fun d hd => ?_⟩⟩, ?_⟩, fun hp =>
    ⟨fun d hd => ?_, fun _ => by rw [hsb]; exact h14⟩⟩, hheight⟩
  · show Apart (slots u) (csumHeight u top) top
    rw [hheight]
    have hap := hs.apart
    rw [hone'] at hap
    exact apart_raised (slots_zero p.1) hap hraised
  · exact (ht.now d).mpr ((hdown d hd).imp_left (hs.taken d))
  · intro E f l e hst
    obtain ⟨⟨hlt, hspan, -⟩, w, hw, he⟩ := stored_eq_some.mp hst
    have hix := hspan hone'
    refine stored_eq_some.mpr ⟨⟨hlt, ?_, ?_⟩, w, ?_, he⟩
    · intro h1
      have h2 : csumHeight u top = 1 := h1
      exact absurd h2 (by omega)
    · intro _
      rw [hsb]
      exact h14
    · have hpos : leafPos 2 (f.index l) = [f.index l] ++ [0] := by
        rw [leafPos, if_pos rfl, Nat.mod_eq_of_lt hix, Nat.div_eq_of_lt hix]
        rfl
      rw [hheight, hpos, hplace, if_pos rfl]
      rw [hone', leafPos, if_neg (by omega)] at hw
      obtain ⟨gx, hn⟩ := words_eq_some.mp hw
      refine words_eq_some.mpr ⟨gx, ?_⟩
      rw [hothers]
      · exact hn
      · intro heq
        have h1 := hfresh [f.index l]
        rw [← hone'] at h1
        exact h1 heq
  · rw [ht.geo]
    rcases hdown d hd with hd | rfl
    · exact hp.valid d hd
    · exact ht.valid

/-- **A second level** over the old index. -/
theorem csumGrow_spec {r : Except Errno Unit} (hs : TreeSound p) (hone : OneLevel p)
    (h : csumGrow newUuid p = (r, q)) :
    Grown p q ∧ ∀ a, r = .ok a → csumHeight q.1 q.2.csumRoot = 2 ∧ 14 ≤ q.1.sb.version := by
  unfold csumGrow at h
  rcases onFst_bind_cases h with ⟨e, u, hraise, rfl, rfl⟩ | ⟨a, u, hraise, h⟩
  · exact ⟨(AsHigh.of_aside hs (csumRaise14_spec hraise).1).grown, by simp⟩
  obtain ⟨haside, hver⟩ := csumRaise14_spec hraise
  have hre : AsHigh p (u, p.2) := .of_aside hs haside
  rcases onFst_bind_cases h with ⟨e, v, hb, rfl, rfl⟩ | ⟨top, v, hb, h⟩
  · have hbeside : Beside u v := bufNew_spec hb
    exact ⟨(hre.trans (.of_aside hre.sound hbeside.1)).grown, by simp⟩
  have htook : Took u top _ v := bufNew_spec hb
  have hvt : v.bufs top = some ⟨u.gen, Payload.zero .csumidx2⟩ := by
    rw [htook.bufs, update_self]
  have hq : q = (setBuf top ⟨u.gen, (Payload.zero .csumidx2).setSlot 0 p.2.csumRoot⟩ v,
      { p.2 with csumRoot := top }) := by
    rw [← (Prod.mk.inj h).2]
    simp only [setPtr, hvt]
  have hone' : OneLevel ((u, p.2) : Fs × Inode) := by
    rcases hone with h0 | ⟨b, hb, hk⟩
    · exact .inl h0
    · have h0 : p.2.csumRoot ≠ 0 := by
        intro h0
        rw [h0, node_zero] at hb
        cases hb
      have hal := hs.taken _ ⟨h0, [], rfl⟩
      exact .inr ⟨b, (node_congr haside.geo (haside.view hal)).trans hb, hk⟩
  obtain ⟨hg, hh⟩ := grown_top (p := (u, p.2)) (g := u.gen) hre.sound hone'
    (hver a rfl) (htook.setBuf ⟨u.gen, (Payload.zero .csumidx2).setSlot 0 p.2.csumRoot⟩)
  rw [hq]
  exact ⟨hre.grown.trans hg, fun _ _ => ⟨hh, Nat.le_trans (hver a rfl) hg.version⟩⟩

/-! ## A leaf -/

/-- **The kind of the root.**  With nothing failing, a root refused is damaged, or of a format
that has no such index. -/
theorem csumKind_spec {r : Except Errno Kind} (h : csumKind p = (r, q)) :
    OnlyFaults p q ∧
      (∀ k, r = .ok k → (k = .csumidx ∧ OneLevel p) ∨
        (k = .csumidx2 ∧ csumHeight p.1 p.2.csumRoot = 2 ∧ 14 ≤ p.1.sb.version)) ∧
      (∀ e, r = .error e → e ≠ .enoent ∧ (p.1.faults = [] → ∀ b,
        node p.1 p.2.csumRoot = some b → b.payload.kind ≠ .csumidx ∧
          (b.payload.kind = .csumidx2 → p.1.sb.version < 14))) := by
  unfold csumKind at h
  rw [gets_bind] at h
  by_cases h0 : p.2.csumRoot = 0
  · rw [if_neg (by simpa using h0)] at h
    cases h
    refine ⟨.refl p, ?_, by simp⟩
    rintro k ⟨⟩
    exact .inl ⟨rfl, .inl h0⟩
  · rw [if_pos h0] at h
    obtain ⟨hk, hi⟩ := onFst_run.mp h
    obtain ⟨t, i⟩ := q
    obtain rfl : i = p.2 := hi
    unfold csumRootKind at hk
    rcases bind_cases hk with ⟨e, hb, rfl⟩ | ⟨b, u, hb, hk⟩
    · obtain ⟨hu, he, hbad⟩ := bufGet_spec hb
      refine ⟨.of_drew hu, by simp, ?_⟩
      rintro e' ⟨⟩
      refine ⟨by rcases he with rfl | rfl <;> simp, fun hf b hn => ?_⟩
      obtain ⟨hv, hview⟩ := view_of_node hn
      cases (hbad hf).2 b hv hview
    obtain ⟨⟨fl, rfl, hfl⟩, hv, hview, -⟩ := bufGet_spec hb
    have hnode := node_of_view hv hview
    rw [gets_bind] at hk
    split at hk
    · rename_i hkind
      cases hk
      refine ⟨⟨fl, rfl, hfl⟩, ?_, by simp⟩
      rintro k ⟨⟩
      simp only [Bool.or_eq_true, Bool.and_eq_true, decide_eq_true_eq] at hkind
      rcases hkind with hkind | ⟨hkind, hver⟩
      · exact .inl ⟨hkind, .inr ⟨b, hnode, hkind⟩⟩
      · exact .inr ⟨hkind, csumHeight_of_node hnode (by omega) hkind, hver⟩
    · rename_i hkind
      cases hk
      refine ⟨⟨fl, rfl, hfl⟩, by simp, ?_⟩
      rintro e ⟨⟩
      refine ⟨by simp, fun _ b' hn => ?_⟩
      cases hnode.symm.trans hn
      simpa using hkind

/-- A leaf that can be written: the block at its position is `d`, with words `w`. -/
structure AtLeaf (q : Fs × Inode) (index d g : Nat) (w : Nat → Nat) : Prop where
  ok : LeafOk q index
  here : place q (leafPos (csumHeight q.1 q.2.csumRoot) index) = d
  valid : dvaValid q.1.geo d = true
  buf : q.1.bufs d = some ⟨g, .csum w⟩

theorem csumBlockAt_write (hs : TreeSound p) (h : csumBlockAt newUuid index true p = (r, q)) :
    Grown p q ∧ ∀ d pl, r = .ok (d, pl) → ∃ g w, AtLeaf q index d g w := by
  unfold csumBlockAt at h
  by_cases hbig : index ≥ csumidxSpan * csumidxSpan
  · rw [if_pos hbig] at h
    cases h
    exact ⟨(AsHigh.of_aside hs (.refl _)).grown, by simp⟩
  rw [if_neg hbig] at h
  -- the walk from the root, once the index is high enough for the leaf
  have hwalk : ∀ u : Fs × Inode, Grown p u →
      (csumHeight u.1 u.2.csumRoot = 1 → index < csumidxSpan) →
      (csumHeight u.1 u.2.csumRoot = 2 → 14 ≤ u.1.sb.version) →
      csumWalk true (csumLevels (csumHeight u.1 u.2.csumRoot = 2) index) none u.2.csumRoot u =
        (r, q) →
      Grown p q ∧ ∀ d pl, r = .ok (d, pl) → ∃ g w, AtLeaf q index d g w := by
    intro u hre h1 h2 hw
    have hpos := csumHeight_pos u.1 u.2.csumRoot
    have hlev : LevelsFor (csumHeight u.1 u.2.csumRoot - ([] : List Nat).length)
        (csumLevels (csumHeight u.1 u.2.csumRoot = 2) index) := levelsFor_csumLevels _ hpos
    obtain ⟨h3, h4⟩ := csumWalk_spec hre.sound (Spot.root u) hlev hw
    refine ⟨hre.trans h3.grown, fun d pl hd => ?_⟩
    obtain ⟨hp, hv, g, w, hb⟩ := h4 d pl hd
    rw [walkPos_csumLevels _ hpos, ← h3.height] at hp
    rw [← h3.height] at h1 h2
    exact ⟨g, w, ⟨Nat.lt_of_not_ge hbig, h1, fun h => Nat.le_trans (h2 h) h3.version⟩, hp, hv, hb⟩
  rcases bind_cases h with ⟨e, hk, rfl⟩ | ⟨kind, u, hk, h⟩ <;>
    obtain ⟨hfaults, hkind, -⟩ := csumKind_spec hk <;>
    have hre := (hfaults.asHigh hs).grown
  · exact ⟨hre, by simp⟩
  obtain ⟨fl, rfl, -⟩ := hfaults
  rcases hkind kind rfl with ⟨rfl, hone⟩ | ⟨rfl, h2, hver⟩
  · have hone' : OneLevel (({ p.1 with faults := fl }, p.2) : Fs × Inode) := hone
    by_cases hspan : index ≥ csumidxSpan
    · rw [if_pos (by simpa using hspan)] at h
      rcases bind_cases h with ⟨e, hgr, rfl⟩ | ⟨a, v, hgr, h⟩ <;>
        obtain ⟨hg1, hg2⟩ := csumGrow_spec hre.sound hone' hgr
      · exact ⟨hre.trans hg1, by simp⟩
      obtain ⟨hh, hver⟩ := hg2 a rfl
      refine hwalk v (hre.trans hg1) (by rw [hh]; omega) (fun _ => hver) ?_
      rw [hh]
      exact h
    · rw [if_neg (by simpa using hspan), gets_bind] at h
      have hh : csumHeight ({ p.1 with faults := fl } : Fs) p.2.csumRoot = 1 := hone'.height
      refine hwalk _ hre (fun _ => Nat.lt_of_not_ge hspan) (by rw [hh]; omega) ?_
      rw [hh]
      exact h
  · rw [if_neg (by simp), gets_bind] at h
    have hh : csumHeight ({ p.1 with faults := fl } : Fs) p.2.csumRoot = 2 := h2
    refine hwalk _ hre (by rw [hh]; omega) (fun _ => hver) ?_
    rw [hh]
    exact h

theorem modifyCsum_eq (h : s.bufs d = some ⟨g, .csum w⟩)
    (c : (Nat → Nat) → Nat → Nat) : modifyCsum d c s = setBuf d ⟨g, .csum (c w)⟩ s := by
  rw [modifyCsum]
  simp only [h]

/-- Words of a leaf changed in place: the index is where it was. -/
theorem AtLeaf.write (h : AtLeaf q index d g w) (w' : Nat → Nat) :
    SameNodes q (setBuf d ⟨g, .csum w'⟩ q.1, q.2) := by
  have hnd : node q.1 d = some ⟨g, .csum w⟩ := node_of_view h.valid (view_of_bufs h.buf)
  have hnd' : node (setBuf d ⟨g, .csum w'⟩ q.1) d = some ⟨g, .csum w'⟩ :=
    node_of_view h.valid (view_of_bufs (update_self _ _ _))
  have hothers : ∀ x, x ≠ d → node (setBuf d ⟨g, .csum w'⟩ q.1) x = node q.1 x := fun x hx =>
    node_congr rfl (view_congr (update_of_ne hx _ _) rfl)
  refine ⟨rfl, ?_, fun x _ n => ?_⟩
  · show csumHeight (setBuf d ⟨g, .csum w'⟩ q.1) q.2.csumRoot = _
    by_cases hx : q.2.csumRoot = d
    · rw [csumHeight, csumHeight, hx, hnd, hnd']
      rfl
    · rw [csumHeight, csumHeight, hothers _ hx]
  · -- a CSUM block has no slots, with the old words and with the new
    by_cases hx : x = d
    · subst hx
      funext k
      rw [slots, slots, hnd, hnd']
      rfl
    · exact slots_congr (hothers x hx) n

theorem leafPos_inj {h a b : Nat} (heq : leafPos h a = leafPos h b) : a = b := by
  unfold leafPos at heq
  split at heq
  · simp only [List.cons.injEq, and_true] at heq
    have ha := Nat.div_add_mod a csumidxSpan
    have hb := Nat.div_add_mod b csumidxSpan
    rw [heq.1, heq.2] at ha
    omega
  · simpa using heq

section Put

variable {E : Type} {f : EntryFormat E} {newUuid : List Nat → Nat} {lblk : Nat} {e : E}
  {p q : Fs × Inode} {r : Except Errno Unit}

/-- Logical blocks are 32-bit, so that an entry is nobody else's. -/
theorem EntryFormat.apart (f : EntryFormat E) {l m : Nat} (hl : l < 2 ^ 32) (hm : m < 2 ^ 32)
    (hi : f.index l = f.index m) (hs : f.slot l = f.slot m) : l = m := by
  have hlt : ∀ n : Nat, n < 2 ^ 32 → truncate32 (n / f.perBlock) = n / f.perBlock := by
    intro n hn
    have hle : n / f.perBlock ≤ n := Nat.div_le_self _ _
    rw [truncate32, Nat.mod_eq_of_lt (by omega)]
  unfold index at hi
  unfold slot at hs
  rw [hlt l hl, hlt m hm] at hi
  rw [← Nat.div_add_mod l f.perBlock, ← Nat.div_add_mod m f.perBlock, hi, hs]

/-- **Storing an entry.**  A put that fails has changed nothing the index stores; one that
succeeds has changed the one entry. -/
theorem entryPut_spec (hs : TreeSound p) (h : entryPut f newUuid lblk e p = (r, q)) :
    TreeSound q ∧ (IndexOk p → IndexOk q) ∧
    (∀ x, r = .error x → ∀ l v, stored f p l = some v → stored f q l = some v) ∧
    (∀ a, r = .ok a → stored f q lblk = some e ∧
      ∀ l x, ¬ (f.index l = f.index lblk ∧ f.slot l = f.slot lblk) →
        stored f p l = some x → stored f q l = some x) := by
  unfold entryPut at h
  rcases bind_cases h with ⟨x, hb, rfl⟩ | ⟨⟨d, pl⟩, u, hb, h⟩ <;>
    obtain ⟨hre, hleaf⟩ := csumBlockAt_write hs hb
  · exact ⟨hre.sound, hre.indexOk, fun _ _ => hre.keeps f, by simp⟩
  cases h
  obtain ⟨g, w, hat⟩ := hleaf d pl rfl
  dsimp only
  rw [modifyCsum_eq hat.buf]
  have hsame := hat.write (f.put w (f.slot lblk) e)
  have hwords : words (setBuf d ⟨g, .csum (f.put w (f.slot lblk) e)⟩ u.1) d =
      some (f.put w (f.slot lblk) e) :=
    words_eq_some.mpr ⟨g, node_of_view hat.valid (view_of_bufs (update_self _ _ _))⟩
  refine ⟨hsame.sound hre.sound fun _ => id, fun hp =>
    ⟨fun x hx => (hre.indexOk hp).valid x ((hsame.onTree x).mp hx), by
      rw [hsame.height]; exact (hre.indexOk hp).format⟩,
      by simp, fun _ _ => ⟨?_, fun l x hne hst => ?_⟩⟩
  · refine stored_eq_some.mpr ⟨hsame.leafOk (Nat.le_refl _) hat.ok, f.put w (f.slot lblk) e, ?_, ?_⟩
    · rw [hsame.height, hsame.place, hat.here, hwords]
    · rw [f.get_put, if_pos rfl]
  · obtain ⟨hl, w₀, hw, hx⟩ := stored_eq_some.mp (hre.keeps f l x hst)
    obtain ⟨g₀, hn⟩ := words_eq_some.mp hw
    have hl' := hsame.leafOk (Nat.le_refl _) hl
    by_cases hd : place u (leafPos (csumHeight u.1 u.2.csumRoot) (f.index l)) = d
    · -- the same leaf, another place in it
      have h0 : place u (leafPos (csumHeight u.1 u.2.csumRoot) (f.index l)) ≠ 0 := by
        rw [hd]
        exact ne_zero_of_dvaValid hat.valid
      have hidx := leafPos_inj (hre.sound.apart _ _ (hd.trans hat.here.symm) h0)
      refine stored_eq_some.mpr ⟨hl', f.put w (f.slot lblk) e, ?_, ?_⟩
      · rw [hsame.height, hsame.place, hd, hwords]
      · rw [f.get_put, if_neg fun hsl => hne ⟨hidx, hsl⟩, ← hx]
        rw [hd, node_of_view hat.valid (view_of_bufs hat.buf), Option.some.injEq,
          MBlock.mk.injEq, Payload.csum.injEq] at hn
        rw [hn.2]
    · refine stored_eq_some.mpr ⟨hl', w₀, ?_, hx⟩
      rw [hsame.height, hsame.place]
      refine words_eq_some.mpr ⟨g₀, ?_⟩
      rw [← hn]
      exact node_congr rfl (view_congr (update_of_ne hd _ _) rfl)

end Put

/-! ## Reading an entry -/

variable {p q : Fs × Inode} {P : List Nat} {w : Nat → Nat} {slot : Option (Nat × Nat)}
    {r : Except Errno (Nat × Payload)} {newUuid : List Nat → Nat}

theorem place_walkPos_zero (h : place p P = 0) (levels : List (Kind × Nat)) :
    place p (walkPos levels P) = 0 := by
  induction levels generalizing P with
  | nil => exact h
  | cons l levels ih =>
    rw [walkPos_cons]
    refine ih ?_
    rw [place_cons, h, slots_zero]

theorem place_ne_zero_of_words (h : words p.1 (place p P) = some w) : place p P ≠ 0 := by
  intro h0
  obtain ⟨g, hnode⟩ := words_eq_some.mp h
  rw [h0, node_zero] at hnode
  cases hnode

theorem node_of_place_ne_zero {k : Nat} (h : place p (k :: P) ≠ 0) :
    ∃ b, node p.1 (place p P) = some b ∧
      b.payload.kind = indexKind (csumHeight p.1 p.2.csumRoot - P.length) := by
  rw [place_cons] at h
  unfold slots at h
  split at h
  · rename_i b hb
    by_cases hk : b.payload.kind = indexKind (csumHeight p.1 p.2.csumRoot - P.length)
    · exact ⟨b, hb, hk⟩
    · exact absurd (if_neg hk) h
  · exact absurd rfl h

/-- A read of one level.  It reports the absence of the block, and with nothing failing it reports
an error at all, only where there is no node of the kind. -/
theorem csumLevel_read {cur : Nat} (h : csumLevel slot cur kind false p = (r, q)) :
    OnlyFaults p q ∧
      (∀ d pl, r = .ok (d, pl) → d = cur ∧ pl.kind = kind ∧ ∃ g, node p.1 cur = some ⟨g, pl⟩) ∧
      (∀ e, r = .error e → e = .enoent ∨ p.1.faults = [] →
        ∀ b, node p.1 cur = some b → b.payload.kind ≠ kind) := by
  unfold csumLevel at h
  by_cases h0 : cur = 0
  · rw [if_pos h0] at h
    cases h
    exact ⟨.refl p, by simp, by simp [h0, node_zero]⟩
  · rw [if_neg h0] at h
    rcases onFst_bind_cases h with ⟨e, u, hb, rfl, rfl⟩ | ⟨b, u, hb, h⟩
    · obtain ⟨hu, he, -⟩ := bufGet_spec hb
      refine ⟨.of_drew hu, by simp, ?_⟩
      rintro e ⟨⟩ (rfl | hf) b hn
      · rcases he with he | he <;> cases he
      · exact kind_ne_of_bufGet_error hf hb hn
    · cases h
      obtain ⟨hu, hv, hview, hko⟩ := bufGet_spec hb
      refine ⟨.of_drew hu, ?_, by simp⟩
      rintro d pl ⟨⟩
      exact ⟨rfl, kind_of_kindOk hko, b.gen, node_of_view hv hview⟩

/-- **The walk of a read.** -/
theorem csumWalk_read (hlev : LevelsFor (csumHeight p.1 p.2.csumRoot - P.length) levels)
    (h : csumWalk false levels slot (place p P) p = (r, q)) :
    OnlyFaults p q ∧
      (∀ d pl, r = .ok (d, pl) →
        ∃ w, pl = .csum w ∧ words p.1 (place p (walkPos levels P)) = some w) ∧
      (∀ e, r = .error e → e = .enoent ∨ p.1.faults = [] →
        words p.1 (place p (walkPos levels P)) = none) := by
  induction levels generalizing p P slot with
  | nil =>
    obtain ⟨h1, h2, h3⟩ := csumLevel_read h
    refine ⟨h1, fun d pl hd => ?_, fun e he hor => ?_⟩
    · obtain ⟨rfl, hk, g, hn⟩ := h2 d pl hd
      cases pl with
      | csum w => exact ⟨w, rfl, words_eq_some.mpr ⟨g, hn⟩⟩
      | _ => simp [Payload.kind] at hk
    · refine Option.eq_none_iff_forall_ne_some.mpr fun w hw => ?_
      obtain ⟨g, hn⟩ := words_eq_some.mp hw
      exact h3 e he hor _ hn rfl
  | cons l levels ih =>
    obtain ⟨n, k, hn, rfl, hrest⟩ := hlev.cons
    rw [walkPos_cons]
    rcases bind_cases h with ⟨e, hl, rfl⟩ | ⟨⟨d, pl⟩, u, hl, h⟩
    · obtain ⟨hfl, -, h3⟩ := csumLevel_read hl
      refine ⟨hfl, by simp, fun e' he hor => ?_⟩
      -- no node here, so nothing below it
      have h0 : place p (k :: P) = 0 := by
        by_contra hne
        obtain ⟨b, hb, hk⟩ := node_of_place_ne_zero hne
        exact h3 e rfl (Except.error.inj he ▸ hor) b hb (hn ▸ hk)
      exact Option.eq_none_iff_forall_ne_some.mpr fun w hw =>
        place_ne_zero_of_words hw (place_walkPos_zero h0 _)
    obtain ⟨⟨fl, rfl, hfl⟩, h2, -⟩ := csumLevel_read hl
    obtain ⟨rfl, hk, g, hnode⟩ := h2 d pl rfl
    have hplace : pl.slot k = place (({ p.1 with faults := fl }, p.2) : Fs × Inode) (k :: P) := by
      show _ = place p (k :: P)
      rw [place_cons, hn, slots_of_node hnode hk]
    have hlev' : LevelsFor (csumHeight p.1 p.2.csumRoot - (k :: P).length) levels := by
      rw [List.length_cons, show csumHeight p.1 p.2.csumRoot - (P.length + 1) = n by omega]
      exact hrest
    rw [hplace] at h
    obtain ⟨⟨fl', hq, hfl'⟩, h5, h6⟩ := ih (p := ({ p.1 with faults := fl }, p.2)) hlev' h
    exact ⟨⟨fl', hq, fun hf => hfl' (hfl hf)⟩, h5, fun e he hor => h6 e he (hor.imp_right hfl)⟩

/-- A leaf is met at its position. -/
def leafWords (p : Fs × Inode) (index : Nat) : Option (Nat → Nat) :=
  words p.1 (place p (leafPos (csumHeight p.1 p.2.csumRoot) index))

theorem root_of_leafWords (hw : leafWords p index = some w) :
    ∃ b, node p.1 p.2.csumRoot = some b ∧
      b.payload.kind = indexKind (csumHeight p.1 p.2.csumRoot) := by
  have hne := place_ne_zero_of_words hw
  unfold leafPos at hne
  split at hne
  · refine node_of_place_ne_zero (P := []) (k := index / csumidxSpan) fun h0 => hne ?_
    rw [place_cons, h0, slots_zero]
  · exact node_of_place_ne_zero (P := []) hne

theorem csumBlockAt_read (h : csumBlockAt newUuid index false p = (r, q)) :
    OnlyFaults p q ∧
      (∀ d pl, r = .ok (d, pl) →
        ∃ w, pl = .csum w ∧ LeafOk p index ∧ leafWords p index = some w) ∧
      (∀ e, r = .error e → e = .enoent ∨ p.1.faults = [] →
        LeafOk p index → leafWords p index = none) := by
  unfold csumBlockAt at h
  by_cases hbig : index ≥ csumidxSpan * csumidxSpan
  · rw [if_pos hbig] at h
    cases h
    exact ⟨.refl p, by simp, fun _ _ _ hok => absurd hok.1 (Nat.not_lt.mpr hbig)⟩
  rw [if_neg hbig] at h
  have hpos := csumHeight_pos p.1 p.2.csumRoot
  rcases bind_cases h with ⟨e, hk, rfl⟩ | ⟨kind, u, hk, h⟩
  · obtain ⟨hfl, -, herr⟩ := csumKind_spec hk
    refine ⟨hfl, by simp, ?_⟩
    rintro e ⟨⟩ (rfl | hf) hok
    · exact absurd rfl (herr _ rfl).1
    refine Option.eq_none_iff_forall_ne_some.mpr fun w hw => ?_
    obtain ⟨b, hb, hkind⟩ := root_of_leafWords hw
    obtain ⟨h1, h2⟩ := (herr _ rfl).2 hf b hb
    obtain hh | hh : csumHeight p.1 p.2.csumRoot = 1 ∨ csumHeight p.1 p.2.csumRoot = 2 := by omega
    · exact h1 (by rw [hkind, hh]; rfl)
    · exact absurd (hok.2.2 hh) (Nat.not_le.mpr (h2 (by rw [hkind, hh]; rfl)))
  obtain ⟨⟨fl, rfl, hfl⟩, hkind, -⟩ := csumKind_spec hk
  -- the walk from the root, where the index is high enough for the leaf
  have hwalk : LeafOk p index →
      csumWalk false (csumLevels (csumHeight p.1 p.2.csumRoot = 2) index) none p.2.csumRoot
        ({ p.1 with faults := fl }, p.2) = (r, q) →
      OnlyFaults p q ∧
        (∀ d pl, r = .ok (d, pl) →
          ∃ w, pl = .csum w ∧ LeafOk p index ∧ leafWords p index = some w) ∧
        (∀ e, r = .error e → e = .enoent ∨ p.1.faults = [] →
          LeafOk p index → leafWords p index = none) := by
    intro hok hw
    have hlev := levelsFor_csumLevels index hpos
    obtain ⟨⟨fl', hq, hfl'⟩, h2, h3⟩ := csumWalk_read
      (p := (({ p.1 with faults := fl }, p.2) : Fs × Inode)) (P := []) hlev hw
    rw [walkPos_csumLevels index hpos] at h2 h3
    refine ⟨⟨fl', hq, fun hf => hfl' (hfl hf)⟩, fun d pl hd => ?_,
      fun e he hor _ => h3 e he (hor.imp_right hfl)⟩
    obtain ⟨w, hpl, hw⟩ := h2 d pl hd
    exact ⟨w, hpl, hok, hw⟩
  rcases hkind kind rfl with ⟨rfl, hone⟩ | ⟨rfl, h2, hver⟩
  · have hh := hone.height
    by_cases hspan : index ≥ csumidxSpan
    · rw [if_pos (by simpa using hspan)] at h
      cases h
      refine ⟨⟨fl, rfl, hfl⟩, by simp, fun _ _ _ hok => ?_⟩
      exact absurd (hok.2.1 hh) (Nat.not_lt.mpr hspan)
    · rw [if_neg (by simpa using hspan), gets_bind] at h
      refine hwalk ⟨Nat.lt_of_not_ge hbig, fun _ => Nat.lt_of_not_ge hspan, by simp [hh]⟩ ?_
      rw [hh]
      exact h
  · rw [if_neg (by simp), gets_bind] at h
    refine hwalk ⟨Nat.lt_of_not_ge hbig, by simp [h2], fun _ => hver⟩ ?_
    rw [h2]
    exact h

/-- **Reading an entry.**  A read changes nothing; what it returns is what the index stores, and
it reports the absence of an entry, or with nothing failing any error, only where the index
stores none. -/
theorem entryGet_spec {f : EntryFormat E} {r : Except Errno E}
    (h : entryGet f newUuid lblk p = (r, q)) :
    OnlyFaults p q ∧
      (∀ e, r = .ok e → stored f p lblk = some e) ∧
      (∀ e, r = .error e → e = .enoent ∨ p.1.faults = [] → stored f p lblk = none) := by
  unfold entryGet at h
  rcases bind_cases h with ⟨e, hb, rfl⟩ | ⟨⟨d, pl⟩, u, hb, h⟩
  · obtain ⟨hq, -, hno⟩ := csumBlockAt_read hb
    refine ⟨hq, by simp, ?_⟩
    rintro e ⟨⟩ hor
    refine Option.eq_none_iff_forall_ne_some.mpr fun x hx => ?_
    obtain ⟨hleaf, w, hw, -⟩ := stored_eq_some.mp hx
    cases (hno e rfl hor hleaf).symm.trans hw
  · obtain ⟨hq, hok, -⟩ := csumBlockAt_read hb
    obtain ⟨w, rfl, hleaf, hw⟩ := hok d pl rfl
    cases h
    refine ⟨hq, ?_, by simp⟩
    rintro e ⟨⟩
    exact stored_eq_some.mpr ⟨hleaf, w, hw, rfl⟩

theorem entryGet_nil {f : EntryFormat E} {e : E} (hf : p.1.faults = [])
    (h : stored f p lblk = some e) : entryGet f newUuid lblk p = (.ok e, p) := by
  rcases hget : entryGet f newUuid lblk p with ⟨r, q⟩
  obtain ⟨⟨fl, rfl, hfl⟩, hok, herr⟩ := entryGet_spec hget
  rw [hfl hf, ← hf]
  cases r with
  | ok e' => cases h.symm.trans (hok e' rfl); rfl
  | error e' => cases h.symm.trans (herr e' rfl (.inr hf))

end CosmoOS.Cosmofs
