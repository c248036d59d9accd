import CosmoOS.Cosmofs.ExtentMap
import Mathlib.Data.List.Nodup

/-!
# Storing an inode's runs

`extentsStore` puts a list of runs back: the first ten in the inode, the rest in the chain, whose
existing blocks are copied on write, new ones allocated and surplus ones freed.  The first half
reads the old chain and sets aside every block the copies and the new blocks need; it can fail and
changes nothing.  The second rewrites the inode's runs and the chain and must not fail.

The number set aside is computed from the lengths alone: one block for each kept chain block of an
older generation and one for each block the chain grows by.  `fillChain_spec` is the induction over
the walk that spends it.  Its invariant is that the set-aside has exactly the blocks the rest of the
walk will take, and that the block being filled is linked from the one before it (the *slot*), at
first from the inode.
-/

namespace CosmoOS.Cosmofs

open Lib Fallible Function List

variable {k fuel head : Nat} {e : Errno} {ds : List Nat} {g : Geometry}

/-- A function that changes the filesystem and one inode. -/
abbrev IM : Type → Type := Fallible (Fs × Inode) Errno

/-! ## Buffers of the chain -/

/-- Buffer `d` of the transaction holds `b`, dirty. -/
def setBuf (d : Nat) (b : MBlock) (s : Fs) : Fs := { s with bufs := update s.bufs d (some b) }

/-- Change a chain block's buffer in place. -/
def modifyExt (d : Nat) (f : Nat → List Extent → Nat × List Extent) (s : Fs) : Fs :=
  match s.bufs d with
  | some ⟨g, .extents next ext⟩ => setBuf d ⟨g, .extents (f next ext).1 (f next ext).2⟩ s
  | _ => s

/-- Where the address of the next chain block is kept: in the inode (`none`) or in the
`next` of a chain block. -/
def setSlot (slot : Option Nat) (blk : Nat) (p : Fs × Inode) : Fs × Inode :=
  match slot with
  | none => (p.1, { p.2 with indirect := blk })
  | some a => (modifyExt a (fun _ ext => (blk, ext)) p.1, p.2)

/-- Copy on write into a set-aside block: `bufCow` that cannot fail. -/
def bufCowPrep (d : Nat) (b : ExtBlock) (slot : Option Nat) (prep : List Nat) :
    IM (Nat × List Nat) := do
  let gen ← gets fun p => p.1.gen
  if b.gen = gen then do
    modify fun p => (setBuf d b.toBlock p.1, p.2)
    pure (d, prep)
  else do
    let r ← onFst (prepTake prep)
    modify fun p => (setBuf r.1 ⟨gen, .extents b.next b.ext⟩ p.1, p.2)
    modify fun p => (freeBlockDeferred d p.1, p.2)
    modify (setSlot slot r.1)
    pure r

/-- A new block from the set-aside: `bufNew` that cannot fail. -/
def bufNewPrep (kind : Kind) (prep : List Nat) : IM (Nat × List Nat) := do
  let gen ← gets fun p => p.1.gen
  let r ← onFst (prepTake prep)
  modify fun p => (setBuf r.1 ⟨gen, Payload.zero kind⟩ p.1, p.2)
  pure r

/-! ## The store -/

/-- Runs as a fixed number of slots, the unused ones empty. -/
def padRuns (k : Nat) (runs : List Extent) : List Extent :=
  runs ++ List.replicate (k - runs.length) Extent.zero

theorem padRuns_length {runs : List Extent} (h : runs.length ≤ k) :
    (padRuns k runs).length = k := by
  rw [padRuns, length_append, length_replicate]
  omega

/-- The old chain from `cur` on; `fuel` is the blocks still allowed. -/
def readChain : Nat → Nat → M (List (Nat × ExtBlock))
  | fuel, cur =>
    if cur = 0 then pure []
    else
      match fuel with
      | 0 => fail .eio
      | fuel + 1 => do
        let b ← extBlockGet cur
        let rest ← readChain fuel b.next
        pure ((cur, b) :: rest)

/-- The next block of the chain, linked from `slot`: the kept one, writable, or a new
one. -/
def chainBlock (keep : List (Nat × ExtBlock)) (slot : Option Nat) (prep : List Nat) :
    IM (Nat × List Nat) :=
  match keep with
  | (d, b) :: _ => bufCowPrep d b slot prep
  | [] => do
    let r ← bufNewPrep .extents prep
    modify (setSlot slot r.1)
    pure r

/-- Put the first runs into the block, and end the chain there when it is the last. -/
def putRuns (blk : Nat) (last : Bool) (runs : List Extent) (s : Fs) : Fs :=
  modifyExt blk (fun next _ =>
    (if last then 0 else next, padRuns extentsPerBlock (runs.take extentsPerBlock))) s

/-- Fill the next `n` blocks of the chain with `runs`, reusing the kept ones. -/
def fillChain : List (Nat × ExtBlock) → Nat → List Extent → Option Nat → List Nat → IM (List Nat)
  | _, 0, _, _, prep => pure prep
  | keep, n + 1, runs, slot, prep => do
    let r ← chainBlock keep slot prep
    modify fun p => (putRuns r.1 (n == 0) runs p.1, p.2)
    fillChain keep.tail n (runs.drop extentsPerBlock) (some r.1) r.2

def chainNeed (n : Nat) : Nat :=
  ((if n > cfsDirect then n - cfsDirect else 0) + extentsPerBlock - 1) / extentsPerBlock

/-- The chain's fault seam, passed when a chain block is to be had. -/
def chainNomem (wanted : Bool) : M Unit := if wanted then mayFail .enomem else pure ()

/-- The first half of a store, for a chain of `need` blocks: read the old chain from
`head` and set aside every block the copies and the new blocks need, and change nothing.
Returns the old blocks the new chain reuses, the others, and the set-aside. -/
def storePrepare (head need : Nat) : M (List (Nat × ExtBlock) × List Nat × List Nat) := do
  mayFail .enomem
  let chain ← readChain prepMax head
  let gen ← gets Fs.gen
  let keep := chain.take need
  let cows := (keep.filter fun k => k.2.gen != gen).length
  chainNomem (cows != 0 || need > keep.length)
  let prep ← prepMeta (cows + (need - keep.length))
  pure (keep, (chain.drop need).map Prod.fst, prep)

/-- The inode's direct slots become the first ten runs. -/
def setDirect (ext : List Extent) (i : Inode) : Inode :=
  { i with
    direct := padRuns cfsDirect (ext.take cfsDirect)
    direct_length := padRuns_length (length_take_le _ _) }

/-- The second half of a store, in which nothing can fail. -/
def storeApply (ext : List Extent) (need : Nat) (keep : List (Nat × ExtBlock))
    (drops prep : List Nat) : IM Unit := do
  modify fun p => (p.1, setDirect ext p.2)
  let rest ← fillChain keep need (ext.drop cfsDirect) none prep
  modify fun p => if need = 0 then (p.1, { p.2 with indirect := 0 }) else p
  modify fun p => (freeAll drops p.1, p.2)
  onFst (prepRelease rest)

/-- Store runs back: the first ten in the inode, the rest in the chain. -/
def extentsStore (ext : List Extent) : IM Unit := do
  let max ← gets fun p => p.1.maxExtents
  if ext.length > max then fail .efbig
  else do
    let head ← gets fun p => p.2.indirect
    let r ← onFst (storePrepare head (chainNeed ext.length))
    storeApply ext (chainNeed ext.length) r.1 r.2.1 r.2.2

/-! ## Chains -/

variable {s t : Fs} {cur : Nat} {c : List (Nat × ExtBlock)}

theorem ChainAt.unique {c₁ c₂ : List (Nat × ExtBlock)} (h₁ : ChainAt s cur c₁)
    (h₂ : ChainAt s cur c₂) : c₁ = c₂ := by
  induction c₁ generalizing cur c₂ with
  | nil =>
    cases c₂ with
    | nil => rfl
    | cons kb c₂ => exact absurd h₁ h₂.ne_zero
  | cons kb c₁ ih =>
    cases c₂ with
    | nil => exact absurd h₂ h₁.ne_zero
    | cons kb' c₂ =>
      obtain ⟨d, g, n, e⟩ := kb
      obtain ⟨d', g', n', e'⟩ := kb'
      obtain ⟨rfl, -, hview, hrest⟩ := h₁
      obtain ⟨rfl, -, hview', hrest'⟩ := h₂
      cases hview.symm.trans hview'
      rw [ih hrest hrest']

theorem ChainAt.suffix {c₁ c₂ : List (Nat × ExtBlock)} {d : Nat} {b : ExtBlock}
    (h : ChainAt s cur (c₁ ++ (d, b) :: c₂)) : ChainAt s d ((d, b) :: c₂) := by
  induction c₁ generalizing cur with
  | nil =>
    obtain ⟨rfl, hrest⟩ := h
    exact ⟨rfl, hrest⟩
  | cons kb c₁ ih => exact ih h.2.2.2

/-- A chain that ends has no block twice: the block would have two different tails. -/
theorem ChainAt.nodup (h : ChainAt s cur c) :
    (c.map Prod.fst).Nodup := by
  induction c generalizing cur with
  | nil => simp
  | cons kb c ih =>
    obtain ⟨d, b⟩ := kb
    refine nodup_cons.mpr ⟨?_, ih h.2.2.2⟩
    intro hmem
    obtain ⟨⟨d', b'⟩, hkb, rfl⟩ := mem_map.mp hmem
    obtain ⟨c₁, c₂, rfl⟩ := append_of_mem hkb
    have hself : ChainAt s d' ((d', b) :: (c₁ ++ (d', b') :: c₂)) := ⟨rfl, h.2⟩
    have htail := ChainAt.suffix h.2.2.2
    have heq := congrArg List.length (hself.unique htail)
    simp only [length_cons, length_append] at heq
    omega

theorem ChainAt.valid (h : ChainAt s cur c) :
    ∀ d ∈ c.map Prod.fst, dvaValid s.geo d = true := by
  induction c generalizing cur with
  | nil => simp
  | cons kb c ih =>
    simp only [map_cons, mem_cons, forall_eq_or_imp]
    exact ⟨h.2.1, ih h.2.2.2⟩

theorem readChain_spec {r : Except Errno (List (Nat × ExtBlock))}
    (h : readChain fuel cur s = (r, t)) :
    Drew s t ∧ Ends (fun c => ChainAt s cur c) (fun e => e ≠ .assertFailed) r := by
  fun_induction readChain fuel cur generalizing s t r with
  | case1 =>
    cases h
    exact ⟨.refl _, rfl⟩
  | case2 =>
    cases h
    exact ⟨.refl _, by simp⟩
  | case3 cur _ fuel ih =>
    rcases bind_cases h with ⟨e, hb, rfl⟩ | ⟨b, u, hb, h⟩
    · exact extBlockGet_spec hb
    obtain ⟨hu, hv, hview⟩ := extBlockGet_spec hb
    rcases bind_cases h with ⟨e, hr, rfl⟩ | ⟨rest, v, hr, h⟩
    · exact (ih b hr).imp_left hu.trans
    obtain ⟨hd, hc⟩ := ih b hr
    cases h
    exact ⟨hu.trans hd, rfl, hv, hview, hu.chainAt hc⟩

/-! ## Writing buffers and giving blocks back -/

/-- Buffers were written and the blocks `ds` given back; nothing else has changed. -/
def Wrote (s : Fs) (ds : List Nat) (t : Fs) : Prop := Disposed { s with bufs := t.bufs } ds t

theorem Disposed.bufs (h : Disposed s ds t) : t.bufs = s.bufs := by
  obtain ⟨fr, fl, c, rfl⟩ := h.frame
  rfl

theorem Disposed.withBufs (h : Disposed s ds t) (b : Nat → Option MBlock) :
    Disposed { s with bufs := b } ds { t with bufs := b } := by
  refine ⟨?_, h.all_perm, h.live, h.room, h.clone⟩
  obtain ⟨fr, fl, c, rfl⟩ := h.frame
  exact ⟨fr, fl, c, rfl⟩

namespace Wrote

variable {s t u : Fs} {ds es : List Nat}

theorem trans (h₁ : Wrote s ds t) (h₂ : Wrote t es u) : Wrote s (ds ++ es) u :=
  (Disposed.withBufs h₁ u.bufs).trans h₂

theorem setBuf (d : Nat) (b : MBlock) (s : Fs) : Wrote s [] (setBuf d b s) := Disposed.refl _

theorem of_disposed (h : Disposed s ds t) : Wrote s ds t := by
  unfold Wrote
  rw [h.bufs]
  exact h

theorem frame (h : Wrote s ds t) : ∃ bf fr fl c,
    t = { s with bufs := bf, frees := fr, faults := fl, curClone := c } := by
  obtain ⟨fr, fl, c, ht⟩ := Disposed.frame h
  exact ⟨t.bufs, fr, fl, c, ht⟩

theorem geo (h : Wrote s ds t) : t.geo = s.geo := by
  obtain ⟨bf, fr, fl, c, rfl⟩ := h.frame
  rfl

theorem gen (h : Wrote s ds t) : t.gen = s.gen := by
  obtain ⟨bf, fr, fl, c, rfl⟩ := h.frame
  rfl

theorem space (h : Wrote s ds t) : t.space = s.space := by
  obtain ⟨bf, fr, fl, c, rfl⟩ := h.frame
  rfl

end Wrote

variable {s t : Fs} {d next blk cur n need cap fuel : Nat} {ext acc : List Extent}
    {slot : Option Nat} {p : Fs × Inode} {keep c : List (Nat × ExtBlock)} {prep : List Nat}

theorem view_of_bufs {b : MBlock} (h : s.bufs d = some b) : view s d = some b := by
  rw [view, h]

theorem view_congr (hb : t.bufs d = s.bufs d) (hd : t.disk = s.disk) :
    view t d = view s d := by
  rw [view, view, hb, hd]

/-! ## One block of the chain -/

def slotPtr (slot : Option Nat) (p : Fs × Inode) : Nat :=
  match slot with
  | none => p.2.indirect
  | some a =>
    match p.1.bufs a with
    | some ⟨_, .extents next _⟩ => next
    | _ => 0

/-- A slot is the inode's or that of a chain block written in this transaction. -/
def SlotOk (slot : Option Nat) (s : Fs) : Prop :=
  ∀ a, slot = some a → ∃ g next ext, s.bufs a = some ⟨g, .extents next ext⟩

/-- What writing one block does to the buffers: the slot names the block, the block has
these contents, and the others are untouched. -/
structure Placed (slot : Option Nat) (p : Fs × Inode) (blk next : Nat) (ext : List Extent)
    (ds : List Nat) (q : Fs × Inode) : Prop where
  wrote : Wrote p.1 ds q.1
  block : q.1.bufs blk = some ⟨p.1.gen, .extents next ext⟩
  ptr : slotPtr slot q = blk
  slotExt : ∀ a g nx e, slot = some a → p.1.bufs a = some ⟨g, .extents nx e⟩ →
    q.1.bufs a = some ⟨g, .extents blk e⟩
  others : ∀ x, x ≠ blk → slot ≠ some x → q.1.bufs x = p.1.bufs x
  inode : q.2 = match slot with
    | none => { p.2 with indirect := blk }
    | some _ => p.2

@[simp] theorem setBuf_bufs (d : Nat) (b : MBlock) (s : Fs) :
    (setBuf d b s).bufs = update s.bufs d (some b) := rfl

theorem modifyExt_eq {g : Nat} (h : s.bufs d = some ⟨g, .extents next ext⟩)
    (f : Nat → List Extent → Nat × List Extent) :
    modifyExt d f s = setBuf d ⟨g, .extents (f next ext).1 (f next ext).2⟩ s := by
  unfold modifyExt
  rw [h]

theorem setSlot_self (hs : SlotOk slot p.1) (hp : slotPtr slot p = blk) :
    setSlot slot blk p = p := by
  obtain ⟨s, i⟩ := p
  cases slot with
  | none =>
    obtain rfl : i.indirect = blk := hp
    rfl
  | some a =>
    obtain ⟨g, next, ext, hb⟩ := hs a rfl
    have hb' : s.bufs a = some ⟨g, .extents next ext⟩ := hb
    have hn : next = blk := by simpa [slotPtr, hb'] using hp
    subst hn
    simp only [setSlot, modifyExt_eq hb', setBuf, ← hb', update_eq_self]

theorem placed_of {s₁ : Fs} (hw : Wrote p.1 ds s₁)
    (hb : s₁.bufs = update p.1.bufs blk (some ⟨p.1.gen, .extents next ext⟩))
    (hs : SlotOk slot p.1) (hne : slot ≠ some blk) :
    Placed slot p blk next ext ds (setSlot slot blk (s₁, p.2)) := by
  cases slot with
  | none =>
    refine ⟨hw, ?_, rfl, nofun, fun x hx _ => ?_, rfl⟩
    · exact (congrFun hb blk).trans (update_self _ _ _)
    · exact (congrFun hb x).trans (update_of_ne hx _ _)
  | some a =>
    -- the slot's write touches the slot's block alone, which is not `blk`
    have hab : a ≠ blk := fun h => hne (by rw [h])
    obtain ⟨g, nx, e, ha⟩ := hs a rfl
    have ha' : s₁.bufs a = some ⟨g, .extents nx e⟩ := by rw [hb, update_of_ne hab, ha]
    have hset : setSlot (some a) blk (s₁, p.2) = (setBuf a ⟨g, .extents blk e⟩ s₁, p.2) := by
      rw [setSlot, modifyExt_eq ha']
    rw [hset]
    refine ⟨by simpa using hw.trans (.setBuf _ _ _), ?_, ?_, ?_, fun x hx hxs => ?_, rfl⟩
    · simp only [setBuf_bufs, update_of_ne hab.symm, hb, update_self]
    · simp only [slotPtr, setBuf_bufs, update_self]
    · rintro a' g' nx' e' ⟨⟩ ha'
      cases ha.symm.trans ha'
      simp only [setBuf_bufs, update_self]
    · have hxa : x ≠ a := fun h => hxs (by rw [h])
      simp only [setBuf_bufs, update_of_ne hxa, hb, update_of_ne hx]

/-- A block placed, then given its runs. -/
theorem Placed.put {q : Fs × Inode} (h : Placed slot p blk next ext ds q) (hne : slot ≠ some blk)
    (last : Bool) (runs : List Extent) :
    Placed slot p blk (if last then 0 else next)
      (padRuns extentsPerBlock (runs.take extentsPerBlock)) ds
      (putRuns blk last runs q.1, q.2) := by
  have hput : putRuns blk last runs q.1 = setBuf blk ⟨p.1.gen, .extents (if last then 0 else next)
      (padRuns extentsPerBlock (runs.take extentsPerBlock))⟩ q.1 := modifyExt_eq h.block _
  have hab : ∀ a, slot = some a → a ≠ blk := fun a ha hb => hne (by rw [ha, hb])
  rw [hput]
  refine ⟨by simpa using h.wrote.trans (.setBuf _ _ _), ?_, ?_, fun a g nx e ha hb => ?_,
    fun x hx hxs => ?_, ?_⟩
  · rw [setBuf_bufs, update_self]
  · have hptr := h.ptr
    cases slot with
    | none => exact hptr
    | some a =>
      simp only [slotPtr, setBuf_bufs, update_of_ne (hab a rfl)]
      exact hptr
  · rw [setBuf_bufs, update_of_ne (hab a ha)]
    exact h.slotExt a g nx e ha hb
  · rw [setBuf_bufs, update_of_ne hx, h.others x hx hxs]
  · have hinode := h.inode
    cases slot <;> exact hinode

/-- Blocks of the set-aside the next chain block takes: none when a kept block is
already this generation's. -/
def takes (gen : Nat) : List (Nat × ExtBlock) → Nat
  | (_, b) :: _ => if b.gen = gen then 0 else 1
  | [] => 1

/-- Where the next chain block is written. -/
def placedAt (gen : Nat) (prep : List Nat) : List (Nat × ExtBlock) → Nat
  | (d, b) :: _ => if b.gen = gen then d else prep.headD 0
  | [] => prep.headD 0

/-- The block a copy supersedes. -/
def superseded (gen : Nat) (k : Nat × ExtBlock) : List Nat := if k.2.gen = gen then [] else [k.1]

/-- The link a kept block already has. -/
def oldNext : List (Nat × ExtBlock) → Nat
  | (_, b) :: _ => b.next
  | [] => 0

/-- **One block of the chain**: with the set-aside it needs, the step succeeds, takes
what `takes` says and places the block. -/
theorem chainBlock_spec (hs : SlotOk slot p.1) (hptr : ∀ k ∈ keep.head?, slotPtr slot p = k.1)
    (hvalid : ∀ k ∈ keep.head?, dvaValid p.1.geo k.1 = true)
    (hlen : takes p.1.gen keep ≤ prep.length) (hne : slot ≠ some (placedAt p.1.gen prep keep))
    (last : Bool) (runs : List Extent) :
    ∃ q, chainBlock keep slot prep p =
        (.ok (placedAt p.1.gen prep keep, prep.drop (takes p.1.gen keep)), q) ∧
      Placed slot p (placedAt p.1.gen prep keep) (if last then 0 else oldNext keep)
        (padRuns extentsPerBlock (runs.take extentsPerBlock))
        (keep.head?.toList.flatMap (superseded p.1.gen))
        (putRuns (placedAt p.1.gen prep keep) last runs q.1, q.2) := by
  cases keep with
  | nil =>
    -- a new block
    cases prep with
    | nil => simp [takes] at hlen
    | cons x xs =>
      have hw : Wrote p.1 [] (setBuf x ⟨p.1.gen, Payload.zero .extents⟩ p.1) := Wrote.setBuf _ _ _
      exact ⟨_, rfl, (placed_of hw rfl hs hne).put hne last runs⟩
  | cons k ks =>
    obtain ⟨d, b⟩ := k
    have hd : dvaValid p.1.geo d = true := hvalid (d, b) rfl
    by_cases hg : b.gen = p.1.gen
    · -- a kept block of this generation stays where it is
      have hat : placedAt p.1.gen prep ((d, b) :: ks) = d := if_pos hg
      have htk : takes p.1.gen ((d, b) :: ks) = 0 := if_pos hg
      have hsup : superseded p.1.gen (d, b) = [] := if_pos hg
      rw [hat] at hne
      have hw : Wrote p.1 [] (setBuf d b.toBlock p.1) := Wrote.setBuf _ _ _
      have hbuf : (setBuf d b.toBlock p.1).bufs =
          update p.1.bufs d (some ⟨p.1.gen, .extents b.next b.ext⟩) := by
        rw [setBuf_bufs, ExtBlock.toBlock, hg]
      have hself : setSlot slot d (setBuf d b.toBlock p.1, p.2) =
          (setBuf d b.toBlock p.1, p.2) := by
        have hbufs : ∀ a, slot = some a → (setBuf d b.toBlock p.1).bufs a = p.1.bufs a := by
          intro a ha
          have had : a ≠ d := fun h => hne (by rw [ha, h])
          rw [setBuf_bufs, update_of_ne had]
        refine setSlot_self ?_ ?_
        · intro a ha
          obtain ⟨g, nx, e, hb⟩ := hs a ha
          exact ⟨g, nx, e, (hbufs a ha).trans hb⟩
        · have hold : slotPtr slot p = d := hptr (d, b) rfl
          cases slot with
          | none => exact hold
          | some a =>
            simp only [slotPtr, hbufs a rfl]
            exact hold
      have hpl := (placed_of hw hbuf hs hne).put hne last runs
      rw [hself] at hpl
      refine ⟨(setBuf d b.toBlock p.1, p.2), ?_, ?_⟩
      · rw [hat, htk, chainBlock, bufCowPrep]
        simp only [gets_bind, hg, if_true, modify_bind, pure_run, drop_zero]
      · simpa [hat, oldNext, hsup] using hpl
    · -- a kept block of an older one is copied
      cases prep with
      | nil => simp [takes, hg] at hlen
      | cons x xs =>
        have hat : placedAt p.1.gen (x :: xs) ((d, b) :: ks) = x := if_neg hg
        have htk : takes p.1.gen ((d, b) :: ks) = 1 := if_neg hg
        have hsup : superseded p.1.gen (d, b) = [d] := if_neg hg
        rw [hat] at hne
        have hdis : Disposed (setBuf x ⟨p.1.gen, .extents b.next b.ext⟩ p.1) [d]
            (freeBlockDeferred d (setBuf x ⟨p.1.gen, .extents b.next b.ext⟩ p.1)) :=
          freeBlockDeferred_disposed hd
        have hw := (Wrote.setBuf x ⟨p.1.gen, .extents b.next b.ext⟩ p.1).trans
          (Wrote.of_disposed hdis)
        have hbuf : (freeBlockDeferred d (setBuf x ⟨p.1.gen, .extents b.next b.ext⟩ p.1)).bufs =
            update p.1.bufs x (some ⟨p.1.gen, .extents b.next b.ext⟩) := hdis.bufs
        refine ⟨setSlot slot x (freeBlockDeferred d
          (setBuf x ⟨p.1.gen, .extents b.next b.ext⟩ p.1), p.2), ?_, ?_⟩
        · rw [hat, htk, chainBlock, bufCowPrep]
          simp only [gets_bind, hg, if_false]
          rfl
        · simpa [hat, oldNext, hsup] using (placed_of hw hbuf hs hne).put hne last runs

/-! ## The walk over the chain -/

def chunks : Nat → List Extent → List (List Extent)
  | 0, _ => []
  | n + 1, runs => padRuns extentsPerBlock (runs.take extentsPerBlock) ::
    chunks n (runs.drop extentsPerBlock)

/-- The kept blocks are linked to each other, the first from `cur`. -/
def Linked : Nat → List (Nat × ExtBlock) → Prop
  | _, [] => True
  | cur, (d, b) :: rest => cur = d ∧ Linked b.next rest

section

variable {runs : List Extent} (gen : Nat)

/-- The kept blocks that are not copied. -/
def inPlace (keep : List (Nat × ExtBlock)) : List Nat :=
  (keep.filter fun k => k.2.gen == gen).map Prod.fst

/-- The blocks of the set-aside the rest of the walk takes. -/
def takesAll (keep : List (Nat × ExtBlock)) (n : Nat) : Nat :=
  (keep.filter fun k => k.2.gen != gen).length + (n - keep.length)

/-- What filling the rest of the chain does: the blocks `new` hang off the slot and hold
the runs, the blocks `ds` were given back, and every other buffer is as it was. -/
structure Filled (slot : Option Nat) (p : Fs × Inode) (n : Nat) (runs : List Extent)
    (new : List (Nat × ExtBlock)) (ds : List Nat) (q : Fs × Inode) : Prop where
  wrote : Wrote p.1 ds q.1
  chain : ChainAt q.1 (if n = 0 then 0 else slotPtr slot q) new
  exts : new.map (fun k => k.2.ext) = chunks n runs
  slotExt : ∀ a g nx e, slot = some a → p.1.bufs a = some ⟨g, .extents nx e⟩ →
    ∃ nx', q.1.bufs a = some ⟨g, .extents nx' e⟩ ∧ (n = 0 → nx' = nx)
  others : ∀ x, x ∉ new.map Prod.fst → slot ≠ some x → q.1.bufs x = p.1.bufs x
  inode : q.2 = match slot with
    | none => { p.2 with indirect := q.2.indirect }
    | some _ => p.2

theorem Linked.tail (h : Linked cur keep) :
    Linked (oldNext keep) keep.tail := by
  cases keep with
  | nil => exact trivial
  | cons k ks => exact h.2

theorem takesAll_succ {gen : Nat} (h : keep.length ≤ n + 1) :
    takesAll gen keep (n + 1) = takes gen keep + takesAll gen keep.tail n := by
  cases keep with
  | nil => simp [takesAll, takes]; omega
  | cons k ks =>
    obtain ⟨d, b⟩ := k
    by_cases hg : b.gen = gen
    · simp [takesAll, takes, hg]
    · simp [takesAll, takes, hg]
      omega

theorem perm_placedAt (keep : List (Nat × ExtBlock)) (prep : List Nat)
    (h : takes gen keep ≤ prep.length) :
    (placedAt gen prep keep :: (inPlace gen keep.tail ++ prep.drop (takes gen keep))).Perm
      (inPlace gen keep ++ prep) := by
  cases keep with
  | nil =>
    cases prep with
    | nil => simp [takes] at h
    | cons x xs => simp [placedAt, inPlace, takes]
  | cons k ks =>
    obtain ⟨d, b⟩ := k
    by_cases hg : b.gen = gen
    · simp [placedAt, inPlace, takes, hg]
    · cases prep with
      | nil => simp [takes, hg] at h
      | cons x xs =>
        simp only [placedAt, takes, hg, if_false, headD_cons, tail_cons, inPlace,
          filter_cons, beq_iff_eq, drop_one]
        exact perm_middle.symm

theorem inPlace_sublist (keep : List (Nat × ExtBlock)) :
    (inPlace gen keep).Sublist (keep.map Prod.fst) :=
  filter_sublist.map _

/-- The block placed first, and the rest of the chain filled behind it. -/
theorem Filled.cons {p₁ q : Fs × Inode} {es : List Nat} {new : List (Nat × ExtBlock)}
    (h₁ : Placed slot p blk next (padRuns extentsPerBlock (runs.take extentsPerBlock)) ds p₁)
    (hnext : n = 0 → next = 0) (hv : dvaValid p.1.geo blk = true) (hne : slot ≠ some blk)
    (hs : SlotOk slot p.1) (h₂ : Filled (some blk) p₁ n (runs.drop extentsPerBlock) new es q)
    (hnew : ∀ a, slot = some a → a ∉ new.map Prod.fst) :
    ∃ b, Filled slot p (n + 1) runs ((blk, b) :: new) (ds ++ es) q := by
  obtain ⟨nx, hblk, hnx⟩ := h₂.slotExt blk _ _ _ rfl h₁.block
  refine ⟨⟨p.1.gen, nx, padRuns extentsPerBlock (runs.take extentsPerBlock)⟩, ?_⟩
  -- the rest of the walk leaves the slot alone
  have hslot : ∀ a, slot = some a → q.1.bufs a = p₁.1.bufs a := by
    intro a ha
    refine h₂.others a (hnew a ha) ?_
    rw [← ha]
    exact hne.symm
  have hptr : slotPtr slot q = blk := by
    rw [← h₁.ptr]
    cases slot with
    | none => exact congrArg Inode.indirect h₂.inode
    | some a => simp only [slotPtr, hslot a rfl]
  refine ⟨h₁.wrote.trans h₂.wrote, ?_, ?_, ?_, ?_, ?_⟩
  · rw [if_neg (Nat.succ_ne_zero n), hptr]
    refine ⟨rfl, ?_, view_of_bufs hblk, ?_⟩
    · rw [h₂.wrote.geo, h₁.wrote.geo]
      exact hv
    · have hc := h₂.chain
      by_cases hn : n = 0
      · rw [if_pos hn] at hc
        rw [hnx hn, hnext hn]
        exact hc
      · rw [if_neg hn] at hc
        simpa [slotPtr, hblk] using hc
  · simp [chunks, h₂.exts]
  · intro a g nx' e ha hb
    refine ⟨blk, ?_, fun h => absurd h (Nat.succ_ne_zero n)⟩
    rw [hslot a ha]
    exact h₁.slotExt a g nx' e ha hb
  · intro x hx hxs
    simp only [map_cons, mem_cons, not_or] at hx
    have hxb : (some blk : Option Nat) ≠ some x := fun h => hx.1 (Option.some.inj h).symm
    rw [h₂.others x hx.2 hxb, h₁.others x hx.1 hxs]
  · have hq : q.2 = p₁.2 := h₂.inode
    rw [hq, h₁.inode]
    cases slot <;> rfl

/-- **The walk over the chain**: with exactly the set-aside it takes, it succeeds with
nothing left, every set-aside block ends in the chain, and the superseded blocks are
given back. -/
theorem fillChain_spec {gen : Nat} (runs : List Extent) (hgeo : p.1.geo = g)
    (hgen : p.1.gen = gen) (hs : SlotOk slot p.1) (hlink : Linked (slotPtr slot p) keep)
    (hkeep : keep.length ≤ n) (hlen : prep.length = takesAll gen keep n)
    (hnodup : (inPlace gen keep ++ prep).Nodup)
    (hslot : ∀ a, slot = some a → a ∉ inPlace gen keep ++ prep)
    (hvk : ∀ k ∈ keep, dvaValid g k.1 = true) (hvp : ∀ d ∈ prep, dvaValid g d = true) :
    ∃ q new, fillChain keep n runs slot prep p = (.ok [], q) ∧
      Filled slot p n runs new (keep.flatMap (superseded gen)) q ∧
      (new.map Prod.fst).Perm (inPlace gen keep ++ prep) := by
  induction n generalizing keep runs slot prep p with
  | zero =>
    obtain rfl : keep = [] := eq_nil_of_length_eq_zero (by omega)
    obtain rfl : prep = [] := eq_nil_of_length_eq_zero (by simpa [takesAll] using hlen)
    refine ⟨p, [], rfl, ⟨Disposed.refl _, rfl, rfl, ?_, fun _ _ _ => rfl, ?_⟩, List.Perm.refl _⟩
    · intro a g nx e _ hb
      exact ⟨nx, hb, fun _ => rfl⟩
    · cases slot <;> rfl
  | succ n ih =>
    rw [takesAll_succ hkeep] at hlen
    have htake : takes gen keep ≤ prep.length := by omega
    have hperm := perm_placedAt gen keep prep htake
    have hnd := hperm.nodup_iff.mpr hnodup
    have hhead : ∀ k ∈ keep.head?, k ∈ keep ∧ slotPtr slot p = k.1 := by
      intro k hk
      cases keep with
      | nil => cases hk
      | cons k' ks =>
        obtain rfl : k' = k := by simpa using hk
        exact ⟨mem_cons_self, hlink.1⟩
    have hstep := chainBlock_spec hs (fun k hk => (hhead k hk).2)
      (fun k hk => by rw [hgeo]; exact hvk k (hhead k hk).1) (by rw [hgen]; exact htake)
    rw [hgen] at hstep
    generalize hblk : placedAt gen prep keep = blk at hstep hperm hnd
    have hin : blk ∈ inPlace gen keep ++ prep := hperm.subset mem_cons_self
    have hne : slot ≠ some blk := fun h => hslot _ h hin
    have hvb : dvaValid g blk = true := by
      rcases mem_append.mp hin with hk | hp
      · obtain ⟨k, hk, heq⟩ := mem_map.mp ((inPlace_sublist _ _).subset hk)
        rw [← heq]
        exact hvk k hk
      · exact hvp _ hp
    obtain ⟨q₁, hrun, hpl⟩ := hstep hne (n == 0) runs
    generalize hp₁ : (putRuns blk (n == 0) runs q₁.1, q₁.2) = p₁ at hpl
    -- the rest of the walk, from the block just placed
    have hslot' : SlotOk (some blk) p₁.1 := by
      intro a ha
      cases ha
      exact ⟨_, _, _, hpl.block⟩
    have hlink' : Linked (slotPtr (some blk) p₁) keep.tail := by
      simp only [slotPtr, hpl.block]
      by_cases hn : n = 0
      · have ht : keep.tail = [] := eq_nil_of_length_eq_zero (by
          rw [length_tail]
          omega)
        rw [ht]
        exact trivial
      · simp only [beq_iff_eq, hn, if_false]
        exact hlink.tail
    have hlen' : (prep.drop (takes gen keep)).length = takesAll gen keep.tail n := by
      rw [length_drop]
      omega
    have hout : ∀ a, some blk = some a →
        a ∉ inPlace gen keep.tail ++ prep.drop (takes gen keep) := by
      intro a ha
      rw [← Option.some.inj ha]
      exact (nodup_cons.mp hnd).1
    obtain ⟨q, new, hfill, hf, hp⟩ := ih (runs.drop extentsPerBlock)
      (hpl.wrote.geo.trans hgeo) (hpl.wrote.gen.trans hgen) hslot' hlink'
      (by rw [length_tail]; omega) hlen' (nodup_cons.mp hnd).2 hout
      (fun k hk => hvk k (mem_of_mem_tail hk)) (fun d hd => hvp d (mem_of_mem_drop hd))
    have hnew : ∀ a, slot = some a → a ∉ new.map Prod.fst := by
      intro a ha hmem
      exact hslot a ha (hperm.subset (mem_cons_of_mem _ (hp.subset hmem)))
    have hnext : n = 0 → (if (n == 0) = true then 0 else oldNext keep) = 0 := by
      rintro rfl
      rfl
    obtain ⟨b, hfb⟩ := Filled.cons hpl hnext (by rw [hgeo]; exact hvb) hne hs hf hnew
    refine ⟨q, (blk, b) :: new, ?_, ?_, (hp.cons _).trans hperm⟩
    · rw [fillChain, bind_run_ok hrun, modify_bind, hp₁]
      exact hfill
    · have hds : keep.flatMap (superseded gen) =
          keep.head?.toList.flatMap (superseded gen) ++ keep.tail.flatMap (superseded gen) := by
        cases keep with
        | nil => rfl
        | cons k ks => simp
      rw [hds]
      exact hfb

/-! ## The two halves -/

theorem ChainAt.linked (h : ChainAt s cur c) (n : Nat) : Linked cur (c.take n) := by
  induction c generalizing cur n with
  | nil => simp [Linked]
  | cons k c ih =>
    cases n with
    | zero => exact trivial
    | succ n => exact ⟨h.1, ih h.2.2.2 n⟩

theorem chainNomem_drew {w : Bool} {r : Except Errno Unit} (h : chainNomem w s = (r, t)) :
    Drew s t ∧ ∀ e, r = .error e → e = .enomem := by
  unfold chainNomem at h
  split at h
  · exact mayFail_drew h
  · cases h
    exact ⟨.refl s, nofun⟩

/-- **The first half** reads the old chain and sets aside exactly what the second half
takes.  One that fails has changed nothing but the faults and the space's counters. -/
theorem storePrepare_spec {r : Except Errno (List (Nat × ExtBlock) × List Nat × List Nat)}
    (h : storePrepare head need s = (r, t)) :
    (Calm s → Calm t) ∧ Ends
      (fun a => SetAside s a.2.2 t ∧ a.2.2.length = takesAll s.gen a.1 need ∧
        ∃ old, ChainAt s head old ∧ a.1 = old.take need ∧ a.2.1 = (old.drop need).map Prod.fst)
      (fun e => e ≠ .assertFailed ∧ SameBits s t) r := by
  rcases bind_cases h with ⟨e, hm, rfl⟩ | ⟨_, u, hm, h⟩ <;> obtain ⟨hu, he⟩ := mayFail_drew hm
  · exact ⟨hu.calm, by simp [he e rfl], .of_drew hu⟩
  rcases bind_cases h with ⟨e, hr, rfl⟩ | ⟨old, v, hr, h⟩ <;> obtain ⟨hv, hold⟩ := readChain_spec hr
  · exact ⟨(hu.trans hv).calm, hold, .of_drew (hu.trans hv)⟩
  simp only [gets_bind] at h
  rcases bind_cases h with ⟨e, hn, rfl⟩ | ⟨_, w, hn, h⟩ <;> obtain ⟨hw, he⟩ := chainNomem_drew hn
  · have hall := (hu.trans hv).trans hw
    exact ⟨hall.calm, by simp [he e rfl], .of_drew hall⟩
  have hall := (hu.trans hv).trans hw
  have hgen : v.gen = s.gen := by
    obtain ⟨fl, rfl, -⟩ := hu.trans hv
    rfl
  rcases bind_cases h with ⟨e, hp, rfl⟩ | ⟨prep, x, hp, h⟩ <;>
    obtain ⟨hcalm, hset⟩ := prepMeta_spec hp
  · exact ⟨fun hs => hcalm (hall.calm hs), hset.1, hset.2.before hall⟩
  · cases h
    rw [hgen] at hset
    exact ⟨fun hs => hcalm (hall.calm hs), hset.1.before hall, hset.2, old,
      hu.chainAt hold, rfl, rfl⟩

/-! ## Reading the chain back -/

theorem liveRuns_padRuns (h : ∀ e ∈ runs, extCount e.count ≠ 0) :
    liveRuns (padRuns k runs) = runs := by
  have hz : (List.replicate (k - runs.length) Extent.zero).takeWhile
      (fun e => extCount e.count != 0) = [] := by
    cases k - runs.length <;> rfl
  unfold liveRuns padRuns
  rw [takeWhile_append_of_pos (by simpa using h), hz, append_nil]

theorem flatMap_chunks (h : ∀ e ∈ runs, extCount e.count ≠ 0)
    (hlen : runs.length ≤ extentsPerBlock * n) : (chunks n runs).flatMap liveRuns = runs := by
  induction n generalizing runs with
  | zero => rw [eq_nil_of_length_eq_zero (by omega : runs.length = 0)]; rfl
  | succ n ih =>
    rw [Nat.mul_succ] at hlen
    have hrest : (chunks n (runs.drop extentsPerBlock)).flatMap liveRuns =
        runs.drop extentsPerBlock := ih
      (fun e he => h e (mem_of_mem_drop he)) (by rw [length_drop]; omega)
    rw [chunks, flatMap_cons, hrest,
      liveRuns_padRuns (fun e he => h e (mem_of_mem_take he)), take_append_drop]

end

theorem chainNeed_enough (n : Nat) : n - cfsDirect ≤ extentsPerBlock * chainNeed n := by
  unfold chainNeed extentsPerBlock cfsDirect
  split <;> omega

theorem chainNeed_le (h : n ≤ cfsMaxExtents) : chainNeed n ≤ maxChain := by
  unfold chainNeed maxChain extentsPerBlock cfsDirect
  unfold cfsMaxExtents at h ⊢
  split <;> omega

theorem chunks_length (n : Nat) (runs : List Extent) : (chunks n runs).length = n := by
  induction n generalizing runs with
  | zero => rfl
  | succ n ih => simp [chunks, ih]

/-- Within the bound and with no memory failing, gathering does not fail. -/
theorem gatherRuns_nil {es : List Extent} (hf : s.faults = []) (hcap : 0 < cap)
    (hacc : acc.length ≤ cap) (hmax : (acc ++ es).length ≤ s.maxExtents) :
    ∃ cap', gatherRuns es cap acc s = (.ok (acc ++ es, cap'), s) ∧ 0 < cap' ∧
      (acc ++ es).length ≤ cap' := by
  induction es generalizing cap acc with
  | nil => exact ⟨cap, by simp [gatherRuns], hcap, by simpa using hacc⟩
  | cons e es ih =>
    have hap : acc ++ e :: es = acc ++ [e] ++ es := by simp
    simp only [length_append, length_cons] at hmax
    rw [hap]
    unfold gatherRuns
    split
    · rename_i hfull
      simp only [gets_bind]
      rw [if_neg (by omega), bind_run_ok (mayFail_nil _ hf)]
      refine ih ?_ ?_ ?_
      · split <;> omega
      · rw [length_append, length_singleton]
        split <;> omega
      · simp only [length_append, length_singleton]
        omega
    · refine ih hcap ?_ ?_
      · rw [length_append, length_singleton]
        omega
      · simp only [length_append, length_singleton]
        omega

/-- With nothing failing, a chain within the bounds is loaded. -/
theorem loadChain_nil (hf : s.faults = []) (hc : ChainAt s cur c) (hfuel : c.length ≤ fuel)
    (hcap : 0 < cap) (hacc : acc.length ≤ cap) (hmax : (acc ++ chainRuns c).length ≤ s.maxExtents) :
    loadChain fuel cur cap acc s = (.ok (acc ++ chainRuns c), s) := by
  induction c generalizing fuel cur cap acc with
  | nil =>
    have h0 : cur = 0 := hc
    unfold loadChain
    simp [h0, chainRuns]
  | cons k c ih =>
    obtain ⟨d, b⟩ := k
    obtain ⟨rfl, hv, hview, hrest⟩ := hc
    have hruns : acc ++ chainRuns ((cur, b) :: c) =
        acc ++ liveRuns b.ext ++ chainRuns c := by simp [chainRuns]
    rw [hruns] at hmax ⊢
    cases fuel with
    | zero => simp at hfuel
    | succ fuel =>
      have hlen : (acc ++ liveRuns b.ext).length ≤ s.maxExtents := by
        rw [length_append] at hmax
        omega
      obtain ⟨cap', hg, hpos, hle⟩ := gatherRuns_nil (s := s) hf hcap hacc hlen
      unfold loadChain
      simp only [ne_zero_of_dvaValid hv, if_false]
      rw [bind_run_ok (extBlockGet_nil hf hv hview), bind_run_ok hg]
      exact ih hrest (by simpa using hfuel) hpos hle hmax

/-! ## The whole store -/

theorem SetAside.not_mem {old : List (Nat × ExtBlock)} (h : SetAside s prep t)
    (hal : ∀ k ∈ old, allocated s k.1 = true) : ∀ d ∈ old.map Prod.fst, d ∉ prep := by
  intro d hd hp
  obtain ⟨k, hk, rfl⟩ := mem_map.mp hd
  cases (hal k hk).symm.trans (h.was_free _ hp)

/-- The blocks of the old chain that the new one does not link. -/
def unlinked (old new : List (Nat × ExtBlock)) : List Nat :=
  (old.map Prod.fst).filter fun d => !(new.map Prod.fst).contains d

/-- The old blocks not linked by the new chain are the superseded and the surplus
ones. -/
theorem unlinked_eq {gen : Nat} {old new : List (Nat × ExtBlock)} (hnd : (old.map Prod.fst).Nodup)
    (hdis : ∀ d ∈ old.map Prod.fst, d ∉ prep)
    (hperm : (new.map Prod.fst).Perm (inPlace gen (old.take need) ++ prep)) :
    unlinked old new = (old.take need).flatMap (superseded gen) ++
      (old.drop need).map Prod.fst := by
  have hmem : ∀ k ∈ old, k.1 ∈ new.map Prod.fst ↔ k.1 ∈ inPlace gen (old.take need) := by
    intro k hk
    have hkp := hdis k.1 (mem_map_of_mem hk)
    rw [hperm.mem_iff, mem_append]
    exact ⟨fun h => h.resolve_right hkp, Or.inl⟩
  rw [← take_append_drop need old, map_append] at hnd
  obtain ⟨hndk, -, hdisj⟩ := nodup_append.mp hnd
  have hdrop : ((old.drop need).map Prod.fst).filter
      (fun d => !(new.map Prod.fst).contains d) = (old.drop need).map Prod.fst := by
    rw [filter_eq_self]
    intro d hd
    obtain ⟨k, hk, rfl⟩ := mem_map.mp hd
    have hin : k.1 ∉ new.map Prod.fst := by
      rw [hmem k (mem_of_mem_drop hk)]
      exact fun h => hdisj _ ((inPlace_sublist _ _).subset h) _ hd rfl
    simpa using hin
  have hkeep : ((old.take need).map Prod.fst).filter
      (fun d => !(new.map Prod.fst).contains d) = (old.take need).flatMap (superseded gen) := by
    have hiff : ∀ k ∈ old.take need, (k.1 ∈ new.map Prod.fst ↔ k.2.gen = gen) := by
      intro k hk
      rw [hmem k (mem_of_mem_take hk), inPlace, mem_map]
      constructor
      · rintro ⟨k', hk', heq⟩
        obtain ⟨hk', hg⟩ := mem_filter.mp hk'
        obtain rfl := inj_on_of_nodup_map hndk hk' hk heq
        simpa using hg
      · intro hg
        exact ⟨k, mem_filter.mpr ⟨hk, by simpa using hg⟩, rfl⟩
    generalize old.take need = keep at hiff ⊢
    induction keep with
    | nil => rfl
    | cons k ks ih =>
      have hk := hiff k mem_cons_self
      have hks := ih fun k' hk' => hiff k' (mem_cons_of_mem _ hk')
      by_cases hg : k.2.gen = gen
      · have hin := hk.mpr hg
        rw [map_cons, filter_cons_of_neg (by simpa using hin), hks]
        simp [superseded, hg]
      · have hin : k.1 ∉ new.map Prod.fst := fun h => hg (hk.mp h)
        rw [map_cons, filter_cons_of_pos (by simpa using hin), hks]
        simp [superseded, hg]
  unfold unlinked
  conv_lhs => rw [← take_append_drop need old]
  rw [map_append, filter_append, hkeep, hdrop]

/-- **The second half** cannot fail: the chain it leaves holds the runs after the tenth
and is made of the kept blocks of this transaction and the whole set-aside, and the old
blocks it does not link are given back. -/
theorem storeApply_spec (ext : List Extent) {i : Inode} {old : List (Nat × ExtBlock)}
    (hset : SetAside s prep t) (hlen : prep.length = takesAll s.gen (old.take need) need)
    (hold : ChainAt s i.indirect old) (hal : ∀ k ∈ old, allocated s k.1 = true) :
    ∃ q new, storeApply ext need (old.take need) ((old.drop need).map Prod.fst) prep (t, i) =
        (.ok (), q) ∧ ChainAt q.1 q.2.indirect new ∧
      new.map (fun k => k.2.ext) = chunks need (ext.drop cfsDirect) ∧
      (new.map Prod.fst).Perm (inPlace s.gen (old.take need) ++ prep) ∧
      Wrote t (unlinked old new) q.1 ∧ q.2.direct = (setDirect ext i).direct := by
  have hdis := hset.not_mem hal
  have hsub : (inPlace s.gen (old.take need)).Sublist (old.map Prod.fst) :=
    (inPlace_sublist _ _).trans ((take_sublist _ _).map _)
  have hnodup : (inPlace s.gen (old.take need) ++ prep).Nodup := by
    refine nodup_append.mpr ⟨hsub.nodup hold.nodup, hset.nodup, ?_⟩
    rintro a ha b hb rfl
    exact hdis a (hsub.subset ha) hb
  have hvalid : ∀ k ∈ old, dvaValid s.geo k.1 = true := fun k hk =>
    hold.valid k.1 (mem_map_of_mem hk)
  obtain ⟨q, new, hrun, hf, hperm⟩ := fillChain_spec (ext.drop cfsDirect)
    (p := (t, setDirect ext i)) hset.geo hset.gen (fun a (ha : none = some a) =>
      absurd ha (by simp))
    (hold.linked need) (length_take_le _ _) hlen hnodup (fun a ha => absurd ha (by simp))
    (fun k hk => hvalid k (mem_of_mem_take hk)) hset.valid
  have hun := unlinked_eq hold.nodup hdis hperm
  have hvd : ∀ d ∈ (old.drop need).map Prod.fst, dvaValid q.1.geo d = true := by
    intro d hd
    obtain ⟨k, hk, rfl⟩ := mem_map.mp hd
    rw [hf.wrote.geo, hset.geo]
    exact hvalid k (mem_of_mem_drop hk)
  have hdisposed := freeAll_disposed hvd
  have hfree := Wrote.of_disposed hdisposed
  have hview : ∀ d ∈ new.map Prod.fst,
      view (freeAll ((old.drop need).map Prod.fst) q.1) d = view q.1 d := by
    intro d _
    obtain ⟨fr, fl, c, hfr⟩ := hdisposed.frame
    rw [hfr]
    rfl
  have hrest : storeApply ext need (old.take need) ((old.drop need).map Prod.fst) prep (t, i) =
      (.ok (), (freeAll ((old.drop need).map Prod.fst) q.1,
        if need = 0 then { q.2 with indirect := 0 } else q.2)) := by
    rw [storeApply, modify_bind, bind_run_ok hrun, modify_bind, modify_bind]
    split <;> rfl
  refine ⟨_, new, hrest, ?_, hf.exts, hperm, ?_, ?_⟩
  · have hc := hf.chain
    refine ChainAt.congr (s := q.1) ?_ hfree.geo hview
    by_cases h0 : need = 0
    · rw [if_pos h0] at hc ⊢
      exact hc
    · rw [if_neg h0] at hc ⊢
      exact hc
  · rw [hun]
    exact hf.wrote.trans hfree
  · have hi : q.2 = { setDirect ext i with indirect := q.2.indirect } := hf.inode
    dsimp only
    split <;> exact (congrArg Inode.direct hi :)

/-- Count a chain's runs without gathering them. -/
def countChain : Nat → Nat → Nat → M Nat
  | fuel, next, k =>
    if next = 0 then pure k
    else
      match fuel with
      | 0 => fail .eio
      | fuel + 1 => do
        let b ← extBlockGet next
        countChain fuel b.next (k + (liveRuns b.ext).length)

/-- The runs an inode's map holds, counted without gathering them. -/
def extentsCount (inode : Inode) : M Nat :=
  countChain maxChain inode.indirect (liveRuns inode.direct).length

theorem countChain_nil (hf : s.faults = []) (hc : ChainAt s cur c) (hfuel : c.length ≤ fuel) :
    countChain fuel cur k s = (.ok (k + (chainRuns c).length), s) := by
  induction c generalizing fuel cur k with
  | nil =>
    have h0 : cur = 0 := hc
    unfold countChain
    simp [h0, chainRuns]
  | cons kb c ih =>
    obtain ⟨rfl, hv, hview, hrest⟩ := hc
    cases fuel with
    | zero => simp at hfuel
    | succ fuel =>
      unfold countChain
      simp only [ne_zero_of_dvaValid hv, if_false]
      rw [bind_run_ok (extBlockGet_nil hf hv hview), ih hrest (by simpa using hfuel)]
      simp [chainRuns, Nat.add_assoc]

/-- An inode's runs are a list: its direct slots hold the first ten, its chain the
rest. -/
structure Holds (s : Fs) (i : Inode) (new : List (Nat × ExtBlock)) (ext : List Extent) : Prop where
  direct : i.direct = padRuns cfsDirect (ext.take cfsDirect)
  chain : ChainAt s i.indirect new
  exts : new.map (fun k => k.2.ext) = chunks (chainNeed ext.length) (ext.drop cfsDirect)

namespace Holds

variable {s : Fs} {i : Inode} {new : List (Nat × ExtBlock)} {ext : List Extent}

section

variable (h : Holds s i new ext)

include h

theorem length : new.length = chainNeed ext.length := by
  have hl := congrArg List.length h.exts
  rwa [length_map, chunks_length] at hl

theorem faults (fl : List Bool) : Holds { s with faults := fl } i new ext :=
  ⟨h.direct, h.chain.congr rfl fun _ _ => rfl, h.exts⟩

/-- The direct runs and the chain's are the list. -/
theorem runs (hv : extentsValid g ext = true) :
    liveRuns i.direct = ext.take cfsDirect ∧ chainRuns new = ext.drop cfsDirect := by
  have hlive : ∀ e ∈ ext, extCount e.count ≠ 0 := by
    intro e he
    have hpos := ((extentsValid_iff.mp hv).1 e he).count_pos
    omega
  refine ⟨?_, ?_⟩
  · rw [h.direct, liveRuns_padRuns fun e he => hlive e (mem_of_mem_take he)]
  · have hmap : chainRuns new = (new.map fun k => k.2.ext).flatMap liveRuns := by
      rw [chainRuns, flatMap_map]
    rw [hmap, h.exts]
    refine flatMap_chunks (fun e he => hlive e (mem_of_mem_drop he)) ?_
    rw [length_drop]
    exact chainNeed_enough _

theorem load_eq (hv : extentsValid g ext = true) {ext' : List Extent}
    (hl : extentsLoad i s = (.ok ext', t)) : ext' = ext := by
  obtain ⟨hd, hr⟩ := h.runs hv
  obtain ⟨c, hc, rfl, -⟩ := extentsLoad_ok hl
  rw [hc.unique h.chain, hd, hr, take_append_drop]

/-- With nothing failing, a valid list within the bound is loaded and counted. -/
theorem load (hv : extentsValid s.geo ext = true) (hf : s.faults = [])
    (hmax : s.maxExtents ≤ cfsMaxExtents) (hlen : ext.length ≤ s.maxExtents) :
    extentsLoad i s = (.ok ext, s) ∧ extentsCount i s = (.ok ext.length, s) := by
  obtain ⟨hd, hr⟩ := h.runs hv
  have hfuel : new.length ≤ maxChain := by
    rw [h.length]
    exact chainNeed_le (by omega)
  have hdl : (liveRuns i.direct).length ≤ cfsDirect + extentsPerBlock := by
    rw [hd, length_take]
    omega
  have hload := loadChain_nil hf h.chain hfuel (by decide) hdl
    (by rw [hd, hr, take_append_drop]; exact hlen)
  have hcount := countChain_nil (k := (liveRuns i.direct).length) hf h.chain hfuel
  rw [hd, hr, take_append_drop] at hload
  refine ⟨?_, ?_⟩
  · rw [extentsLoad, bind_run_ok (mayFail_nil _ hf), hd, bind_run_ok hload]
    simp [hv]
  · rw [extentsCount, hcount, hd, hr, ← length_append, take_append_drop]

end

end Holds

/-- Every block of the chain from `cur` is allocated. -/
def ChainAllocated (s : Fs) (cur : Nat) : Prop :=
  ∀ c, ChainAt s cur c → ∀ k ∈ c, allocated s k.1 = true

/-- What a store that succeeds does. -/
structure Stored (s : Fs) (i : Inode) (ext : List Extent) (old new : List (Nat × ExtBlock))
    (t : Fs) (j : Inode) : Prop where
  old_chain : ChainAt s i.indirect old
  holds : Holds t j new ext
  taken : ∀ d, allocated t d = true ↔ allocated s d = true ∨ d ∈ new.map Prod.fst
  freed : ∃ u, SetAside s (new.map Prod.fst |>.filter fun d => !(old.map Prod.fst).contains d) u ∧
    Wrote u (unlinked old new) t ∧ (Calm s → Calm u)

/-- The set-aside is what of the new chain was not in the old one. -/
theorem perm_setAside {gen : Nat} {old new : List (Nat × ExtBlock)}
    (hdis : ∀ d ∈ old.map Prod.fst, d ∉ prep)
    (hperm : (new.map Prod.fst).Perm (inPlace gen (old.take need) ++ prep)) :
    (new.map Prod.fst |>.filter fun d => !(old.map Prod.fst).contains d).Perm prep := by
  have hkept : (inPlace gen (old.take need)).filter
      (fun d => !(old.map Prod.fst).contains d) = [] := by
    rw [filter_eq_nil_iff]
    intro d hd
    have hmem := (take_sublist _ _).map Prod.fst |>.subset ((inPlace_sublist _ _).subset hd)
    simpa using hmem
  have hnew : prep.filter (fun d => !(old.map Prod.fst).contains d) = prep := by
    rw [filter_eq_self]
    intro d hd
    have hmem : d ∉ old.map Prod.fst := fun hin => hdis d hin hd
    simpa using hmem
  refine (hperm.filter _).trans ?_
  rw [filter_append, hkept, hnew, nil_append]

/-- **A store**: one that fails has changed nothing but the faults and the space's counters, and has
not run out of its set-aside. -/
theorem extentsStore_spec {i j : Inode} {r : Except Errno Unit}
    (hal : ChainAllocated s i.indirect) (h : extentsStore ext (s, i) = (r, (t, j))) :
    Ends (fun _ => ext.length ≤ s.maxExtents ∧ ∃ old new, Stored s i ext old new t j)
      (fun e => e ≠ .assertFailed ∧ j = i ∧ SameBits s t) r := by
  unfold extentsStore at h
  simp only [gets_bind] at h
  split at h
  · cases h
    exact ⟨by simp, rfl, .of_drew (.refl s)⟩
  simp only [gets_bind] at h
  rcases onFst_bind_cases h with ⟨e, u, hp, rfl, hq⟩ | ⟨⟨keep, drops, prep⟩, u, hp, h⟩ <;>
    obtain ⟨hcalm, hprep⟩ := storePrepare_spec hp
  · cases hq
    exact ⟨hprep.1, rfl, hprep.2⟩
  obtain ⟨hset, hlen, old, hold, rfl, rfl⟩ := hprep
  have hal' := hal old hold
  obtain ⟨q, new, hrun, hchain, hexts, hperm, hw, hdirect⟩ :=
    storeApply_spec ext hset hlen hold hal'
  cases h.symm.trans hrun
  refine ⟨by omega, old, new, hold, ⟨hdirect, hchain, hexts⟩, fun d => ?_, u,
    hset.perm (perm_setAside (hset.not_mem hal') hperm).symm, hw, hcalm⟩
  have hsp : allocated t d = allocated u d := by
    unfold allocated
    rw [hw.geo, hw.space]
  rw [hsp, hset.now d, hperm.mem_iff, mem_append]
  constructor
  · rintro (h1 | h1)
    · exact Or.inl h1
    · exact Or.inr (Or.inr h1)
  · rintro (h1 | h1 | h1)
    · exact Or.inl h1
    · obtain ⟨k, hk, rfl⟩ := mem_map.mp ((inPlace_sublist _ _).subset h1)
      exact Or.inl (hal' k (mem_of_mem_take hk))
    · exact Or.inr h1

/-- **Store, then load.**  For a valid list and an old chain of allocated blocks, a
store that fails has changed neither the inode, nor the buffers and the pool, nor the
free lists, nor any bit, and never for want of a set-aside block.  One that succeeds
leaves a chain of the length the list needs, from which the list is loaded and counted;
the blocks it took are those of the new chain; and each block of the old chain that the
new one does not link was given back once: outside a clone on `pending_free`, or lost
with a warning when that list could not grow, and inside a clone not on that list. -/
theorem extentsStore_roundtrip {i j : Inode}
    {r : Except Errno Unit} (hv : extentsValid s.geo ext = true)
    (hmax : s.maxExtents ≤ cfsMaxExtents) (hal : ChainAllocated s i.indirect)
    (h : extentsStore ext (s, i) = (r, (t, j))) :
    (∀ e, r = .error e → e ≠ .assertFailed ∧ j = i ∧ t.space.bitmap = s.space.bitmap ∧
      ∃ sp fl, t = { s with space := sp, faults := fl }) ∧
    (∀ a, r = .ok a → ∃ old new, ChainAt s i.indirect old ∧ ChainAt t j.indirect new ∧
      new.length = chainNeed ext.length ∧
      (∀ fl ext' u, extentsLoad j { t with faults := fl } = (.ok ext', u) → ext' = ext) ∧
      (extentsLoad j { t with faults := [] }).1 = .ok ext ∧
      (extentsCount j { t with faults := [] }).1 = .ok ext.length ∧
      (∀ d, allocated t d = true ↔ allocated s d = true ∨ d ∈ new.map Prod.fst) ∧
      (unlinked old new).Nodup ∧ t.frees.all.Perm (s.frees.all ++ unlinked old new) ∧
      (s.curClone = none → t.frees.exempt = s.frees.exempt ∧ t.frees.kept = s.frees.kept ∧
        (s.faults = [] → t.frees.leaked = s.frees.leaked ∧
          t.frees.pending.blocks = s.frees.pending.blocks ++ unlinked old new)) ∧
      (s.curClone.isSome → t.frees.pending = s.frees.pending)) := by
  refine ⟨?_, ?_⟩
  · rintro e rfl
    exact extentsStore_spec hal h
  · rintro a rfl
    obtain ⟨hlen, old, new, hst⟩ := extentsStore_spec hal h
    obtain ⟨u, hset, hw, hcalm⟩ := hst.freed
    obtain ⟨sp, fl, rfl⟩ := hset.frame
    have hgeo : t.geo = s.geo := hw.geo
    have hbound : t.maxExtents = s.maxExtents := by
      obtain ⟨bf, fr, fl', c, rfl⟩ := hw.frame
      rfl
    have hload := (hst.holds.faults []).load (by rw [← hgeo] at hv; exact hv) rfl
      (by rw [← hbound] at hmax; exact hmax) (by rw [← hbound] at hlen; exact hlen)
    refine ⟨old, new, hst.old_chain, hst.holds.chain, hst.holds.length, ?_, ?_, ?_, hst.taken,
      hst.old_chain.nodup.filter _, hw.all_perm, ?_, fun hc => (hw.clone hc).2⟩
    · intro fl' ext' v hl
      exact (hst.holds.faults fl').load_eq hv hl
    · rw [hload.1]
    · rw [hload.2]
    · intro hc
      obtain ⟨-, hex, hk⟩ := hw.live hc
      refine ⟨hex, hk, fun hf => ?_⟩
      obtain ⟨-, hpend, hleak⟩ := hw.room hc (hcalm hf)
      exact ⟨hleak, hpend⟩

/-- Eleven runs of one block, with a hole between each: one more than the inode holds. -/
def elevenRuns : List Extent := (List.range 11).map fun k => ⟨10 + k, 1, 2 * k⟩

/-- The pool with an extent chain of one block, written by an earlier transaction. -/
def chainedFs : Fs :=
  { smallFs with
    space := { smallFs.space with bitmap := fun l => l == 20 }
    disk := update smallFs.disk 20 (.mblock ⟨1, .extents 0 [⟨30, 1, 40⟩]⟩) }

/-- An inode whose chain is that block. -/
def chainedInode : Inode := { oneRunInode ⟨29, 1, 0⟩ with indirect := 20 }

/-- An unsorted list is stored and then refused by the load.  A shorter list drops the
chain's block, which is not queued when the list of pending frees cannot grow.  And where the
bitmap has the chain's block free, the copy is made in its place, and is queued as the old one. -/
theorem extentsStore_loses :
    (extentsStore [⟨10, 1, 5⟩, ⟨11, 1, 0⟩] (smallFs, oneRunInode ⟨29, 1, 0⟩)).1 = .ok () ∧
      (extentsLoad (extentsStore [⟨10, 1, 5⟩, ⟨11, 1, 0⟩] (smallFs, oneRunInode ⟨29, 1, 0⟩)).2.2
        smallFs).1 = .error .eio ∧
      (extentsStore [] ({ chainedFs with faults := [false, false, false, true] },
        chainedInode)).1 = .ok () ∧
      (extentsStore [] ({ chainedFs with faults := [false, false, false, true] },
        chainedInode)).2.1.frees = ⟨⟨[], 0⟩, ⟨[], 0⟩, [20], []⟩ ∧
      ∃ sp : Space, (extentsStore elevenRuns ({ chainedFs with space := sp }, chainedInode)).1 =
          .ok () ∧
        (extentsStore elevenRuns ({ chainedFs with space := sp }, chainedInode)).2.2.indirect = 20 ∧
        (extentsStore elevenRuns
          ({ chainedFs with space := sp }, chainedInode)).2.1.frees.pending.blocks = [20] :=
  ⟨rfl, rfl, rfl, rfl, { smallFs.space with memHint := fun _ => 20 }, rfl, rfl, rfl⟩

theorem chainedFs_allocated : ChainAllocated chainedFs chainedInode.indirect := by
  intro c hc k hk
  have hone : ChainAt chainedFs chainedInode.indirect [(20, ⟨1, 0, [⟨30, 1, 40⟩]⟩)] :=
    ⟨rfl, by decide, rfl, rfl⟩
  rw [hc.unique hone, mem_singleton] at hk
  subst hk
  decide

/-- The eleven runs replace a chain of one block, which is copied. -/
theorem extentsStore_roundtrip_eleven :
    ∃ t j, extentsStore elevenRuns (chainedFs, chainedInode) = (.ok (), (t, j)) ∧
      (extentsLoad j { t with faults := [] }).1 = .ok elevenRuns ∧
      ∃ old new, (unlinked old new).Nodup ∧
        t.frees.pending.blocks = chainedFs.frees.pending.blocks ++ unlinked old new := by
  have hrun : extentsStore elevenRuns (chainedFs, chainedInode) =
      (.ok (), (extentsStore elevenRuns (chainedFs, chainedInode)).2) := rfl
  obtain ⟨old, new, -, -, -, -, hl, -, -, hnd, -, hlive, -⟩ :=
    (extentsStore_roundtrip (by decide) (by decide) chainedFs_allocated hrun).2 () rfl
  exact ⟨_, _, hrun, hl, old, new, hnd, ((hlive rfl).2.2 rfl).2⟩

end CosmoOS.Cosmofs
