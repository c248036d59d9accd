import CosmoOS.Cosmofs.CsumTree

/-!
# The checksums of a file, written and freed

`entryPuts` is any sequence of puts, each of which may fail; `recorded` is what a reader expects of
it, a table in which a put that succeeded sets one entry.  `entryPuts_stored` says that the index
stores what the table says, whatever the puts did to its shape.  A block that had no entry and got
none is not in the table: where its leaf has been made for another, a read finds the leaf's zeros.

`csumFree` gives the whole index back: a loop over the root's slots, in which each block is given
back after those below it, in the order of `SlotTree.blocks` (`GaveBack`).  An index block that
cannot be read is given back without what is below it.  That no block is given back twice is that
the index is a tree.
-/

namespace CosmoOS.Cosmofs

open Lib Fallible SlotTree Function List

variable {d : Nat} {s t : Fs} {p q : Fs × Inode}

/-! ## The functions -/

/-- Each slot of an index block that names a block, in turn. -/
def eachSlot (b : Payload) (free : Nat → Fs → Fs) (s : Fs) : Fs :=
  (List.range ptrsPerBlock).foldl
    (fun s i => if b.slot i ≠ 0 then free (b.slot i) s else s) s

/-- Release a block of a kind and, where it can be read, what is below it. -/
def freeBelow (kind : Kind) (free : Nat → Fs → Fs) (blk : Nat) (s : Fs) : Fs :=
  match bufGet blk (some kind) s with
  | (.ok b, t) => freeBlockDeferred blk (eachSlot b.payload free t)
  | (.error _, t) => freeBlockDeferred blk t

/-- Release a one-level index and its CSUM blocks. -/
def csumFreeIndex : Nat → Fs → Fs := freeBelow .csumidx freeBlockDeferred

/-- Release the whole checksum tree (the inode is being emptied): a one-level index and its
CSUM blocks, or a two-level root, its index blocks and theirs. -/
def csumFree (p : Fs × Inode) : Fs × Inode :=
  if p.2.csumRoot = 0 then p
  else
    match csumRootKind p.2.csumRoot p.1 with
    | (.ok .csumidx2, s) =>
      (freeBelow .csumidx2 csumFreeIndex p.2.csumRoot s, { p.2 with csumRoot := 0 })
    | (_, s) => (csumFreeIndex p.2.csumRoot s, { p.2 with csumRoot := 0 })

/-! ## What a call gives back -/

/-- Of the blocks `ds` some were given back, in their order; all of them when nothing
failed. -/
structure GaveBack (s : Fs) (ds : List Nat) (t : Fs) : Prop where
  disposed : ∃ es, Disposed s es t ∧ es.Sublist ds ∧ (s.faults = [] → es = ds)
  calm : s.faults = [] → t.faults = []

/-- Only the lists of frees, the faults and the clone's walk have changed. -/
def OnlyFrees (s t : Fs) : Prop :=
  ∃ fr fl c, t = { s with frees := fr, faults := fl, curClone := c }

namespace OnlyFrees

variable {s t u : Fs}

theorem trans (h₁ : OnlyFrees s t) (h₂ : OnlyFrees t u) : OnlyFrees s u := by
  obtain ⟨_, _, _, rfl⟩ := h₁
  obtain ⟨_, _, _, rfl⟩ := h₂
  exact ⟨_, _, _, rfl⟩

theorem geo (h : OnlyFrees s t) : t.geo = s.geo := by
  obtain ⟨_, _, _, rfl⟩ := h
  rfl

theorem slots (h : OnlyFrees s t) : slots t = slots s := by
  obtain ⟨_, _, _, rfl⟩ := h
  rfl

end OnlyFrees

namespace GaveBack

variable {s t u : Fs} {ds es : List Nat}

theorem onlyFrees (h : GaveBack s ds t) : OnlyFrees s t := by
  obtain ⟨es, hd, -, -⟩ := h.disposed
  exact hd.frame

theorem refl (s : Fs) : GaveBack s [] s :=
  ⟨⟨[], .refl s, List.Sublist.refl _, fun _ => rfl⟩, id⟩

theorem trans (h₁ : GaveBack s ds t) (h₂ : GaveBack t es u) : GaveBack s (ds ++ es) u := by
  obtain ⟨ds', hd, hsub, hall⟩ := h₁.disposed
  obtain ⟨es', he, hsub', hall'⟩ := h₂.disposed
  refine ⟨⟨ds' ++ es', hd.trans he, hsub.append hsub', fun hs => ?_⟩,
    fun hs => h₂.calm (h₁.calm hs)⟩
  rw [hall hs, hall' (h₁.calm hs)]

theorem of_sublist (h : GaveBack s ds t) (hsub : ds.Sublist es) (hall : s.faults = [] → ds = es) :
    GaveBack s es t := by
  obtain ⟨ds', hd, hsub', hall'⟩ := h.disposed
  exact ⟨⟨ds', hd, hsub'.trans hsub, fun hs => (hall' hs).trans (hall hs)⟩, h.calm⟩

theorem of_faults {fl : List Bool} (hcalm : s.faults = [] → fl = []) :
    GaveBack s [] { s with faults := fl } := by
  refine ⟨⟨[], ⟨⟨_, _, _, rfl⟩, by simp, fun hc => ⟨hc, rfl, rfl⟩, fun _ hs => ?_,
    fun hc => ⟨hc, rfl⟩⟩, List.Sublist.refl _, fun _ => rfl⟩, hcalm⟩
  exact ⟨hcalm hs, by simp, rfl⟩

end GaveBack

theorem freeBlockExempt_calm (hs : s.faults = []) : (freeBlockExempt d s).faults = [] := by
  unfold freeBlockExempt
  rw [growFault_nil _ hs]
  split
  · exact hs
  · dsimp only
    split <;> exact hs

theorem freeBlockDeferred_calm (hs : s.faults = []) : (freeBlockDeferred d s).faults = [] := by
  unfold freeBlockDeferred
  cases hc : s.curClone with
  | none =>
    dsimp only
    rw [growFault_nil _ hs]
    split
    · exact hs
    · split <;> exact hs
  | some c =>
    dsimp only
    unfold cloneFree
    split
    · exact hs
    · have hwalk : (if c.walked = true then (false, s) else takeFault s) = (false, s) := by
        rw [takeFault_nil hs]
        simp
      rw [hwalk]
      simp only [Bool.false_eq_true, if_false]
      split
      · exact hs
      · exact freeBlockExempt_calm hs

theorem GaveBack.of_block (hd : dvaValid s.geo d = true) : GaveBack s [d] (freeBlockDeferred d s) :=
  ⟨⟨[d], freeBlockDeferred_disposed hd, List.Sublist.refl _, fun _ => rfl⟩,
    freeBlockDeferred_calm⟩

/-! ## The loops -/

section Loops

variable {s : Fs} {free : Nat → Fs → Fs} {below : Nat → List Nat}

theorem freed_foldl {slot : Nat → Nat}
    (hfree : ∀ k, slot k ≠ 0 → ∀ t, OnlyFrees s t → GaveBack t (below k) (free (slot k) t))
    (hnone : ∀ k, slot k = 0 → below k = []) (ks : List Nat) (ht : OnlyFrees s t) :
    GaveBack t (ks.flatMap below)
      (ks.foldl (fun u i => if slot i ≠ 0 then free (slot i) u else u) t) := by
  induction ks generalizing t with
  | nil => exact .refl t
  | cons k ks ih =>
    rw [flatMap_cons, foldl_cons]
    by_cases h0 : slot k = 0
    · rw [if_neg (by simpa using h0), hnone k h0, nil_append]
      exact ih ht
    · rw [if_pos h0]
      have hk := hfree k h0 t ht
      exact hk.trans (ih (ht.trans hk.onlyFrees))

/-- A block that cannot be read, or is of another kind, names nothing in view. -/
theorem slots_eq_zero_of_bufGet_error {h blk : Nat} {e : Errno}
    (hf : s.faults = []) (hget : bufGet blk (some (indexKind h)) s = (.error e, t)) (k : Nat) :
    slots s h blk k = 0 := by
  by_contra hk
  cases hn : node s blk with
  | none =>
    rw [slots, hn] at hk
    exact hk rfl
  | some b =>
    rw [slots, hn] at hk
    exact hk (if_neg (kind_ne_of_bufGet_error hf hget hn))

/-- **A block and what is below it.** -/
theorem freeBelow_freed {h blk : Nat} (hv : dvaValid s.geo blk = true)
    (hfree : ∀ k, slots s h blk k ≠ 0 →
      ∀ t, OnlyFrees s t → GaveBack t (below k) (free (slots s h blk k) t))
    (hnone : ∀ k, slots s h blk k = 0 → below k = []) :
    GaveBack s ((List.range ptrsPerBlock).flatMap below ++ [blk])
      (freeBelow (indexKind h) free blk s) := by
  unfold freeBelow
  cases hget : bufGet blk (some (indexKind h)) s with
  | mk r t =>
    have hread : GaveBack s [] t := by
      obtain ⟨⟨fl, rfl, hfl⟩, -⟩ := bufGet_spec hget
      exact .of_faults hfl
    cases r with
    | ok b =>
      obtain ⟨-, -, hview, hko⟩ := bufGet_spec hget
      have hslot : b.payload.slot = slots s h blk :=
        (slots_of_node (node_of_view hv hview) (kind_of_kindOk hko)).symm
      have hloop : GaveBack t ((List.range ptrsPerBlock).flatMap below)
          (eachSlot b.payload free t) := by
        unfold eachSlot
        rw [hslot]
        exact freed_foldl hfree hnone _ hread.onlyFrees
      have hall := hread.trans hloop
      rw [nil_append] at hall
      exact hall.trans (.of_block (by rw [hall.onlyFrees.geo]; exact hv))
    | error e =>
      -- what is below is left behind, unless there is nothing
      have hblk := hread.trans (.of_block (d := blk) (by rw [hread.onlyFrees.geo]; exact hv))
      refine hblk.of_sublist (sublist_append_right _ _) fun hf => ?_
      have hnil : (List.range ptrsPerBlock).flatMap below = [] :=
        flatMap_eq_nil_iff.mpr fun k _ =>
          hnone k (slots_eq_zero_of_bufGet_error hf hget k)
      rw [hnil, nil_append]

end Loops

/-! ## The index as a list -/

/-- A block of the index: one that a path of slots leads to. -/
def TreeBlock (p : Fs × Inode) (d : Nat) : Prop :=
  d ≠ 0 ∧ ∃ q, (∀ k ∈ q, k < ptrsPerBlock) ∧ place p q = d

/-- The blocks at and `h` levels below a position of the index, each after those below it. -/
def subtree (p : Fs × Inode) (h : Nat) (P : List Nat) : List Nat :=
  blocks (slots p.1) (csumHeight p.1 p.2.csumRoot) p.2.csumRoot ptrsPerBlock h P

def treeBlocks (p : Fs × Inode) : List Nat := subtree p (csumHeight p.1 p.2.csumRoot) []

theorem slots_leaf (s : Fs) (x k : Nat) : slots s 0 x k = 0 := by
  unfold slots
  split
  · rename_i b _
    split
    · rename_i hk
      cases hb : b.payload with
      | csum w => rfl
      | _ => simp [hb, Payload.kind, indexKind] at hk
    · rfl
  · rfl

theorem place_deep {q : List Nat} (h : csumHeight p.1 p.2.csumRoot < q.length) : place p q = 0 := by
  cases q with
  | nil => cases h
  | cons k q =>
    rw [length_cons] at h
    rw [place_cons, Nat.sub_eq_zero_of_le (by omega), slots_leaf]

theorem mem_treeBlocks : d ∈ treeBlocks p ↔ TreeBlock p d := by
  rw [treeBlocks, subtree, mem_blocks]
  refine and_congr_right fun hd => ⟨?_, ?_⟩
  · rintro ⟨r, -, hr, hfind⟩
    rw [append_nil] at hfind
    exact ⟨r, hr, hfind⟩
  · rintro ⟨q, hq, hplace⟩
    refine ⟨q, ?_, hq, by rw [append_nil]; exact hplace⟩
    by_contra hlen
    rw [place_deep (Nat.lt_of_not_ge hlen)] at hplace
    exact hd hplace.symm

theorem nodup_treeBlocks (hs : TreeSound p) : (treeBlocks p).Nodup :=
  nodup_blocks hs.apart _ _ _

/-! ## The frees of an index -/

section Frees

variable {p : Fs × Inode}

variable {P : List Nat}

/-- **One level more**: an index block at a position, when what is below each of its slots is
given back. -/
theorem freed_level (hok : IndexOk p) {h : Nat} {free : Nat → Fs → Fs}
    (hlen : P.length + (h + 1) = csumHeight p.1 p.2.csumRoot) (hP : place p P ≠ 0)
    (hfree : ∀ k, place p (k :: P) ≠ 0 →
      ∀ t, OnlyFrees p.1 t → GaveBack t (subtree p h (k :: P)) (free (place p (k :: P)) t))
    (ht : OnlyFrees p.1 t) :
    GaveBack t (subtree p (h + 1) P) (freeBelow (indexKind (h + 1)) free (place p P) t) := by
  have hslot : ∀ k, slots t (h + 1) (place p P) k = place p (k :: P) := by
    intro k
    rw [place_cons, ht.slots, ← hlen, Nat.add_sub_cancel_left]
  have hself : blocks (slots p.1) (csumHeight p.1 p.2.csumRoot) p.2.csumRoot ptrsPerBlock 0 P =
      [place p P] := by
    rw [blocks_zero]
    exact if_neg hP
  have hv : dvaValid t.geo (place p P) = true := by
    rw [ht.geo]
    exact hok.valid _ ⟨hP, P, rfl⟩
  rw [subtree, blocks_succ, hself]
  refine freeBelow_freed hv (fun k hk u hu => ?_) fun k hk => ?_
  · rw [hslot] at hk ⊢
    exact hfree k hk u (ht.trans hu)
  · rw [hslot] at hk
    exact blocks_of_none (slots_zero p.1) hk _ _

theorem freed_leaf (hok : IndexOk p) (hP : place p P ≠ 0)
    (ht : OnlyFrees p.1 t) : GaveBack t (subtree p 0 P) (freeBlockDeferred (place p P) t) := by
  have hself : subtree p 0 P = [place p P] := by
    rw [subtree, blocks_zero]
    exact if_neg hP
  rw [hself]
  refine .of_block ?_
  rw [ht.geo]
  exact hok.valid _ ⟨hP, P, rfl⟩

theorem csumFreeIndex_freed (hok : IndexOk p)
    (hlen : P.length + 1 = csumHeight p.1 p.2.csumRoot) (hP : place p P ≠ 0)
    (ht : OnlyFrees p.1 t) : GaveBack t (subtree p 1 P) (csumFreeIndex (place p P) t) :=
  freed_level hok hlen hP (fun _ hk _ hu => freed_leaf hok hk hu) ht

theorem node_of_height_two (h2 : csumHeight p.1 p.2.csumRoot = 2) :
    ∃ b, node p.1 p.2.csumRoot = some b ∧ b.payload.kind = .csumidx2 := by
  unfold csumHeight at h2
  split at h2
  · rename_i b hb
    split at h2
    · exact ⟨b, hb, ‹_›⟩
    · exact absurd h2 (by omega)
  · exact absurd h2 (by omega)

/-- What `csumFree` makes of its look at the root. -/
theorem csumRootKind_onlyFrees {r : Except Errno Kind}
    (h0 : p.2.csumRoot ≠ 0) (h : csumRootKind p.2.csumRoot p.1 = (r, t)) :
    GaveBack p.1 [] t ∧
      (∀ k, r = .ok k → k = .csumidx ∧ csumHeight p.1 p.2.csumRoot = 1 ∨
        k = .csumidx2 ∧ csumHeight p.1 p.2.csumRoot = 2) ∧
      (p.1.faults = [] → IndexOk p → csumHeight p.1 p.2.csumRoot = 2 → r = .ok .csumidx2) := by
  have hkind : csumKind p = (r, (t, p.2)) := by
    rw [csumKind, gets_bind, if_pos h0, onFst, h]
  obtain ⟨⟨fl, ht, hfl⟩, hk, herr⟩ := csumKind_spec hkind
  obtain rfl : t = { p.1 with faults := fl } := congrArg Prod.fst ht
  refine ⟨.of_faults hfl, fun k hr => ?_, fun hf hok h2 => ?_⟩
  · rcases hk k hr with ⟨rfl, hone⟩ | ⟨rfl, h2, -⟩
    · exact .inl ⟨rfl, hone.height⟩
    · exact .inr ⟨rfl, h2⟩
  · cases r with
    | ok k =>
      rcases hk k rfl with ⟨-, hone⟩ | ⟨rfl, -⟩
      · cases hone.height.symm.trans h2
      · rfl
    | error e =>
      obtain ⟨b, hb, hkb⟩ := node_of_height_two h2
      exact absurd (hok.format h2) (Nat.not_le.mpr (((herr e rfl).2 hf b hb).2 hkb))

theorem slots_of_height_two (h2 : csumHeight p.1 p.2.csumRoot = 2) (k : Nat) :
    slots p.1 1 p.2.csumRoot k = 0 := by
  obtain ⟨b, hb, hkb⟩ := node_of_height_two h2
  rw [slots, hb]
  exact if_neg (by rw [hkb]; simp [indexKind])

/-- **The frees of an index.**  What is given back is blocks of the index, in the order of the
list; when nothing fails, all of it. -/
theorem csumFree_freed (hok : IndexOk p) : GaveBack p.1 (treeBlocks p) (csumFree p).1 := by
  unfold csumFree
  by_cases h0 : p.2.csumRoot = 0
  · have hnil : treeBlocks p = [] := blocks_of_none (P := []) (slots_zero p.1) h0 _ _
    rw [if_pos h0, hnil]
    exact .refl _
  rw [if_neg h0]
  have hpos := csumHeight_pos p.1 p.2.csumRoot
  cases hk : csumRootKind p.2.csumRoot p.1 with
  | mk r t =>
    obtain ⟨hread, hkind, hnil⟩ := csumRootKind_onlyFrees h0 hk
    have hcase : csumHeight p.1 p.2.csumRoot = 1 ∨ csumHeight p.1 p.2.csumRoot = 2 := by omega
    rcases hcase with h1 | h2
    · have hnot : r ≠ .ok .csumidx2 := by
        intro hr
        rcases hkind _ hr with ⟨hx, -⟩ | ⟨-, hx⟩
        · cases hx
        · omega
      have hone := hread.trans (csumFreeIndex_freed (P := []) hok h1.symm h0 hread.onlyFrees)
      rw [nil_append, ← h1] at hone
      split
      · rename_i heq
        exact absurd (Prod.mk.inj heq).1 hnot
      · rename_i s _ heq
        obtain rfl := (Prod.mk.inj heq).2
        exact hone
    · split
      · rename_i s heq
        obtain rfl := (Prod.mk.inj heq).2
        have htwo := hread.trans (freed_level (P := []) hok h2.symm h0
          (fun k hk u hu => csumFreeIndex_freed (P := [k]) hok h2.symm hk hu) hread.onlyFrees)
        rw [nil_append] at htwo
        rw [treeBlocks, h2]
        exact htwo
      · -- the root could not be read: it alone is given back
        rename_i s hne heq
        cases heq
        have hslot : ∀ k, slots t 1 p.2.csumRoot k = 0 := by
          intro k
          rw [hread.onlyFrees.slots]
          exact slots_of_height_two h2 k
        have hroot : GaveBack t ((List.range ptrsPerBlock).flatMap (fun _ => []) ++
            [p.2.csumRoot]) (csumFreeIndex p.2.csumRoot t) := by
          refine freeBelow_freed ?_ (fun k hk => absurd (hslot k) hk) fun _ _ => rfl
          rw [hread.onlyFrees.geo]
          exact hok.valid _ ⟨h0, [], rfl⟩
        have hall := hread.trans hroot
        rw [flatMap_eq_nil_iff.mpr fun _ _ => rfl, nil_append, nil_append] at hall
        refine hall.of_sublist ?_ fun hf => absurd (hnil hf hok h2) hne
        rw [treeBlocks, h2, subtree, blocks_succ, blocks_zero, if_neg (by rw [find_nil]; exact h0)]
        exact sublist_append_right _ _

end Frees

/-! ## A sequence of writes -/

section Writes

variable {E : Type}

def putAll (put : Nat → E → IM Unit) :
    List (Nat × E) → Fs × Inode → List (Except Errno Unit) × (Fs × Inode)
  | [], p => ([], p)
  | (b, e) :: ws, p =>
    let r := put b e p
    let rs := putAll put ws r.2
    (r.1 :: rs.1, rs.2)

/-- The entries after a sequence of writes: a write that succeeded sets one. -/
def recorded (m : Nat → Option E) :
    List (Nat × E) → List (Except Errno Unit) → Nat → Option E
  | (b, e) :: ws, .ok _ :: rs => recorded (update m b (some e)) ws rs
  | _ :: ws, .error _ :: rs => recorded m ws rs
  | _, _ => m

/-- What is read of a logical block when nothing fails. -/
def valueAt (get : Nat → IM E) (p : Fs × Inode) (a : Nat) : Option E :=
  (get a ({ p.1 with faults := [] }, p.2)).1.toOption

/-- The logical block reads as `v`: when nothing fails, and whenever a value is read at all. -/
def ReadsAs (get : Nat → IM E) (a : Nat) (v : E) (q : Fs × Inode) : Prop :=
  (get a ({ q.1 with faults := [] }, q.2)).1 = .ok v ∧
    ∀ fl w, (get a ({ q.1 with faults := fl }, q.2)).1 = .ok w → w = v

/-- After any sequence of writes a logical block reads as the last that succeeded for it, and
as before where there was none. -/
def Remembers (put : Nat → E → IM Unit) (get : Nat → IM E) (p : Fs × Inode) : Prop :=
  ∀ ws : List (Nat × E), (∀ w ∈ ws, w.1 < 2 ^ 32) → ∀ a < 2 ^ 32, ∀ v,
    recorded (valueAt get p) ws (putAll put ws p).1 a = some v → ReadsAs get a v (putAll put ws p).2

variable {f : EntryFormat E} {newUuid : List Nat → Nat}

theorem stored_faults (p : Fs × Inode) (fl : List Bool) (a : Nat) :
    stored f ({ p.1 with faults := fl }, p.2) a = stored f p a := rfl

theorem stored_of_valueAt {a : Nat} {v : E}
    (h : valueAt (entryGet f newUuid) p a = some v) : stored f p a = some v := by
  unfold valueAt at h
  cases hget : entryGet f newUuid a ({ p.1 with faults := [] }, p.2) with
  | mk r q =>
    rw [hget] at h
    cases r with
    | error e => exact absurd h (by simp [Except.toOption])
    | ok w =>
      obtain rfl : w = v := Option.some.inj h
      exact (entryGet_spec hget).2.1 w rfl

theorem readsAs_of_stored {a : Nat} {v : E} (h : stored f q a = some v) :
    ReadsAs (entryGet f newUuid) a v q := by
  refine ⟨?_, fun fl w hw => ?_⟩
  · rw [entryGet_nil rfl (by rw [stored_faults]; exact h)]
  · cases hget : entryGet f newUuid a ({ q.1 with faults := fl }, q.2) with
    | mk r t =>
      rw [hget] at hw
      have hst := (entryGet_spec hget).2.1 w hw
      rw [stored_faults, h] at hst
      exact (Option.some.inj hst).symm

/-- **A sequence of writes**, whatever each did to the shape of the index. -/
theorem putAll_stored {ws : List (Nat × E)} {m : Nat → Option E}
    (hs : TreeSound p) (hok : IndexOk p) (hws : ∀ w ∈ ws, w.1 < 2 ^ 32)
    (hm : ∀ a < 2 ^ 32, ∀ v, m a = some v → stored f p a = some v) :
    TreeSound (putAll (entryPut f newUuid) ws p).2 ∧
      IndexOk (putAll (entryPut f newUuid) ws p).2 ∧
      ∀ a < 2 ^ 32, ∀ v, recorded m ws (putAll (entryPut f newUuid) ws p).1 a = some v →
        stored f (putAll (entryPut f newUuid) ws p).2 a = some v := by
  induction ws generalizing p m with
  | nil => exact ⟨hs, hok, hm⟩
  | cons w ws ih =>
    obtain ⟨b, e⟩ := w
    have hb : b < 2 ^ 32 := hws (b, e) (by simp)
    have hrest : ∀ w ∈ ws, w.1 < 2 ^ 32 := fun w hw => hws w (mem_cons_of_mem _ hw)
    cases hput : entryPut f newUuid b e p with
    | mk r q =>
      obtain ⟨hs', hok', herr, hdone⟩ := entryPut_spec hs hput
      simp only [putAll, hput]
      cases r with
      | error x => exact ih hs' (hok' hok) hrest fun a ha v hv => herr x rfl a v (hm a ha v hv)
      | ok u =>
        obtain ⟨hnew, hold⟩ := hdone u rfl
        refine ih hs' (hok' hok) hrest fun a ha v hv => ?_
        by_cases hab : a = b
        · rw [hab, update_self] at hv
          rw [hab, hnew, hv]
        · rw [update_of_ne hab] at hv
          exact hold a v (fun hsame => hab (f.apart ha hb hsame.1 hsame.2)) (hm a ha v hv)

theorem remembers_entry (hs : TreeSound p) (hok : IndexOk p) :
    Remembers (entryPut f newUuid) (entryGet f newUuid) p := by
  intro ws hws a ha v hv
  have hm : ∀ a < 2 ^ 32, ∀ v, valueAt (entryGet f newUuid) p a = some v →
      stored f p a = some v := fun a _ v h => stored_of_valueAt h
  exact readsAs_of_stored ((putAll_stored hs hok hws hm).2.2 a ha v hv)

end Writes

/-- `csumFree` gives back blocks of the index and no other, none twice, and when nothing fails
all of them; on the live tree they are then queued. -/
def FreesOnce (q : Fs × Inode) : Prop :=
  (csumFree q).2.csumRoot = 0 ∧
    ∃ ds, Disposed q.1 ds (csumFree q).1 ∧ ds.Nodup ∧ (∀ d ∈ ds, TreeBlock q d) ∧
      (q.1.faults = [] → (∀ d, TreeBlock q d → d ∈ ds) ∧ (q.1.curClone = none →
        (csumFree q).1.frees.pending.blocks = q.1.frees.pending.blocks ++ ds))

theorem csumFree_root (p : Fs × Inode) : (csumFree p).2.csumRoot = 0 := by
  unfold csumFree
  split
  · assumption
  · split <;> rfl

theorem freesOnce (hs : TreeSound q) (hok : IndexOk q) : FreesOnce q := by
  obtain ⟨ds, hdis, hsub, hall⟩ := (csumFree_freed hok).disposed
  refine ⟨csumFree_root q, ds, hdis, (nodup_treeBlocks hs).sublist hsub,
    fun d hd => mem_treeBlocks.mp (hsub.subset hd), fun hf => ⟨fun d hd => ?_, fun hc => ?_⟩⟩
  · rw [hall hf]
    exact mem_treeBlocks.mpr hd
  · exact (hdis.room hc hf).2.1

/-! ## The whole -/

/-- **The checksum index.**  After any sequence of writes, each of which may have failed and any
of which may have made the index or put a level above it, a logical block reads as the last
write of it that succeeded, and where there was none as before; then a free of the index gives
back each of its blocks once. -/
theorem csum_index_remembers (newUuid : List Nat → Nat) (p : Fs × Inode) (hs : TreeSound p)
    (hok : IndexOk p) :
    Remembers (csumPut newUuid) (csumGet newUuid) p ∧
      Remembers (aeadPut newUuid) (aeadGet newUuid) p ∧
      (∀ ws, (∀ w ∈ ws, w.1 < 2 ^ 32) → FreesOnce (putAll (csumPut newUuid) ws p).2) ∧
      (∀ ws, (∀ w ∈ ws, w.1 < 2 ^ 32) → FreesOnce (putAll (aeadPut newUuid) ws p).2) := by
  have hfree : ∀ {E : Type} (f : EntryFormat E) (ws : List (Nat × E)),
      (∀ w ∈ ws, w.1 < 2 ^ 32) → FreesOnce (putAll (entryPut f newUuid) ws p).2 := by
    intro E f ws hws
    have hkept : TreeSound (putAll (entryPut f newUuid) ws p).2 ∧
        IndexOk (putAll (entryPut f newUuid) ws p).2 ∧ _ :=
      putAll_stored (m := fun _ => none) hs hok hws (by simp)
    exact freesOnce hkept.1 hkept.2.1
  exact ⟨remembers_entry (f := crcFormat) hs hok, remembers_entry (f := aeadFormat) hs hok,
    hfree crcFormat, hfree aeadFormat⟩

/-- A pool with a one-level index of one leaf, written by an earlier transaction. -/
def leafFs : Fs :=
  { smallFs with
    space := { smallFs.space with bitmap := fun l => l == 20 || l == 21 }
    disk := update (update smallFs.disk
      20 (.mblock ⟨1, .csumidx (update (fun _ => 0) 0 21)⟩))
      21 (.mblock ⟨1, .csum fun _ => 5⟩) }

def leafInode : Inode := { oneRunInode ⟨29, 1, 0⟩ with csumRoot := 20 }

theorem place_leafFs (q : List Nat) : place (leafFs, leafInode) q =
    if q = [] then 20 else if q = [0] then 21 else 0 := by
  match q with
  | [] => rfl
  | [k] =>
    have hk : place (leafFs, leafInode) [k] = update (fun _ => 0) 0 21 k := rfl
    rw [hk, if_neg (by simp)]
    by_cases h0 : k = 0
    · rw [h0, update_self, if_pos rfl]
    · rw [update_of_ne h0, if_neg (by simpa using h0)]
  | k :: j :: q =>
    have hheight : csumHeight leafFs leafInode.csumRoot = 1 := rfl
    rw [place_deep (by rw [hheight, length_cons, length_cons]; omega),
      if_neg (by simp), if_neg (by simp)]

theorem onTree_leafFs (h : OnTree (leafFs, leafInode) d) : d = 20 ∨ d = 21 := by
  obtain ⟨hd, q, hq⟩ := h
  rw [place_leafFs] at hq
  split at hq
  · exact .inl hq.symm
  · split at hq
    · exact .inr hq.symm
    · exact absurd hq.symm hd

theorem treeSound_leafFs : TreeSound (leafFs, leafInode) := by
  refine ⟨?_, fun d hd => ?_⟩
  · intro p q heq hne
    have heq : place (leafFs, leafInode) p = place (leafFs, leafInode) q := heq
    have hne : place (leafFs, leafInode) p ≠ 0 := hne
    rw [place_leafFs] at heq hne
    rw [place_leafFs] at heq
    by_cases hp : p = []
    · by_cases hq : q = []
      · rw [hp, hq]
      · rw [if_pos hp, if_neg hq] at heq
        split at heq <;> exact absurd heq (by omega)
    · rw [if_neg hp] at heq hne
      by_cases hp0 : p = [0]
      · rw [if_pos hp0] at heq
        by_cases hq : q = [0]
        · rw [hp0, hq]
        · rw [if_neg hq] at heq
          split at heq <;> exact absurd heq (by omega)
      · rw [if_neg hp0] at hne
        exact absurd rfl hne
  · rcases onTree_leafFs hd with rfl | rfl <;> rfl

theorem indexOk_leafFs : IndexOk (leafFs, leafInode) := by
  refine ⟨fun d hd => ?_, fun h2 => ?_⟩
  · rcases onTree_leafFs hd with rfl | rfl <;> rfl
  · have hheight : csumHeight leafFs leafInode.csumRoot = 1 := rfl
    exact absurd (hheight.symm.trans h2) (by omega)

/-- An entry of the leaf overwritten, and one written beyond what one level reaches, for which a
level is put above the root: both are read back, and the blocks of the new index are freed. -/
theorem csum_index_remembers_grown :
    ∃ q, (putAll (csumPut List.length) [(3, 9), (2 ^ 20, 11)] (leafFs, leafInode)).2 = q ∧
      csumHeight q.1 q.2.csumRoot = 2 ∧ ReadsAs (csumGet List.length) 3 9 q ∧
      ReadsAs (csumGet List.length) (2 ^ 20) 11 q ∧ FreesOnce q := by
  obtain ⟨hread, -, hfree, -⟩ :=
    csum_index_remembers List.length (leafFs, leafInode) treeSound_leafFs indexOk_leafFs
  have hws : ∀ w ∈ [(3, 9), (2 ^ 20, 11)], w.1 < 2 ^ 32 := by decide
  exact ⟨_, rfl, rfl, hread _ hws 3 (by omega) 9 rfl, hread _ hws (2 ^ 20) (by omega) 11 rfl,
    hfree _ hws⟩

/-- A logical block without an entry reads as absent, and as zero once its neighbour has been
written; and with the root unreadable the leaf below it is not given back. -/
theorem csum_absent_reads_zero :
    (csumGet List.length 1 (smallFs, oneRunInode ⟨29, 1, 0⟩)).1 = .error .enoent ∧
      (csumPut List.length 0 7 (smallFs, oneRunInode ⟨29, 1, 0⟩)).1 = .ok () ∧
      (csumGet List.length 1 (csumPut List.length 0 7 (smallFs, oneRunInode ⟨29, 1, 0⟩)).2).1 =
        .ok 0 ∧
      TreeBlock (leafFs, leafInode) 21 ∧
      (csumFree ({ leafFs with faults := [false, true, false, true] }, leafInode)).1.frees.all =
        [20] :=
  ⟨rfl, rfl, rfl, ⟨by omega, [0], by decide, rfl⟩, rfl⟩

end CosmoOS.Cosmofs
