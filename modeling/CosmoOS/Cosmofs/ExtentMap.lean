import CosmoOS.Cosmofs.Buf
import Mathlib.Data.List.Find

/-!
# Loading an inode's runs, and the two lookups

An inode keeps its first ten runs itself and the rest in a chain of extent blocks.  `extentsLoad`
gathers them all into one list and checks it; `map` and `mapExt` look in the direct runs first and
load the chain only when those do not answer.

`mapExt` gives the covering run of the loaded list.  `map` gives what `mapBlock` gives over the
loaded list, with one exception: it tests the direct runs' answer for "1" alone, so the "-1" of a
compressed record among them is dropped, and for an inode without a chain the next line answers "0",
a hole (`map_agrees_iff`).
-/

namespace CosmoOS.Cosmofs

open Lib Fallible List

variable {e : Extent}

/-- Runs an inode may have (`CFS_MAX_EXTENTS`). -/
def cfsMaxExtents : Nat := 4096

/-- Blocks of a chain `extentsLoad` follows before it calls it a cycle. -/
def maxChain : Nat := cfsMaxExtents / extentsPerBlock + 1

/-- A chain block: the generation its header carries, the next block, its slots. -/
structure ExtBlock where
  gen : Nat
  next : Nat
  ext : List Extent

def ExtBlock.toBlock (b : ExtBlock) : MBlock := ⟨b.gen, .extents b.next b.ext⟩

def extBlockGet (d : Nat) : M ExtBlock := do
  let b ← bufGet d (some .extents)
  match b.payload with
  | .extents next ext => pure ⟨b.gen, next, ext⟩
  | _ => fail .eio

/-- Append a block's runs to the gathered ones, growing the array (doubled, at most to
the inode's bound) when it is full. -/
def gatherRuns : List Extent → Nat → List Extent → M (List Extent × Nat)
  | [], cap, acc => pure (acc, cap)
  | e :: es, cap, acc =>
    if acc.length = cap then do
      let max ← gets Fs.maxExtents
      if cap ≥ max then fail .efbig
      else do
        mayFail .enomem
        gatherRuns es (if cap * 2 > max then max else cap * 2) (acc ++ [e])
    else gatherRuns es cap (acc ++ [e])

/-- Follow the chain from `next`; `fuel` is the blocks still allowed. -/
def loadChain : Nat → Nat → Nat → List Extent → M (List Extent)
  | fuel, next, cap, acc =>
    if next = 0 then pure acc
    else
      match fuel with
      | 0 => fail .eio
      | fuel + 1 => do
        let b ← extBlockGet next
        let r ← gatherRuns (liveRuns b.ext) cap acc
        loadChain fuel b.next r.2 r.1

/-- Gather the inode's runs. -/
def extentsLoad (inode : Inode) : M (List Extent) := do
  mayFail .enomem
  let ext ← loadChain maxChain inode.indirect (cfsDirect + extentsPerBlock)
    (liveRuns inode.direct)
  let g ← gets Fs.geo
  if extentsValid g ext then pure ext else fail .eio

/-! ## The lookups -/

/-- The pool block of logical block `lblk`: 1, 0 for a hole, -1 for a compressed
record's, or an error. -/
def map (inode : Inode) (lblk : Nat) : M MapAnswer := do
  let g ← gets Fs.geo
  if !directValid g inode.direct then fail .eio
  else
    match mapBlock inode.direct lblk with
    | .block p => pure (.block p)
    | _ =>
      if inode.indirect = 0 then pure .hole
      else do
        let ext ← extentsLoad inode
        pure (mapBlock ext lblk)

/-- The run of sorted runs that covers `lblk`. -/
def findRun : List Extent → Nat → Option Extent
  | [], _ => none
  | e :: es, lblk =>
    if e.covers lblk then some e
    else if e.lblk > lblk then none
    else findRun es lblk

/-- The run that covers logical block `lblk`, none for a hole, or an error. -/
def mapExt (inode : Inode) (lblk : Nat) : M (Option Extent) := do
  let g ← gets Fs.geo
  if !directValid g inode.direct then fail .eio
  else
    match inode.direct.find? fun e => extCount e.count != 0 && e.covers lblk with
    | some e => pure (some e)
    | none =>
      if inode.indirect = 0 then pure none
      else do
        let ext ← extentsLoad inode
        pure (findRun ext lblk)

/-! ## What loading gives -/

theorem payload_extents_of_kindOk {b : MBlock} (h : kindOk (some .extents) b = true) :
    ∃ next ext, b.payload = .extents next ext := by
  have hk : Kind.extents = b.payload.kind := by simpa [kindOk] using h
  cases hp : b.payload with
  | extents next ext => exact ⟨next, ext, rfl⟩
  | _ => rw [hp] at hk; simp [Payload.kind] at hk

variable {d l : Nat} {s t : Fs} {ext es direct : List Extent} {inode : Inode} {g : Geometry}

theorem extBlockGet_spec {r : Except Errno ExtBlock} (h : extBlockGet d s = (r, t)) :
    Drew s t ∧ Ends (fun b => dvaValid s.geo d = true ∧ view s d = some b.toBlock)
      (fun e => e ≠ .assertFailed) r := by
  rcases bind_cases h with ⟨e, hb, rfl⟩ | ⟨b, u, hb, h⟩
  · obtain ⟨hd, he, -⟩ := bufGet_spec hb
    exact ⟨hd, by rcases he with rfl | rfl <;> simp⟩
  obtain ⟨hd, hv, hview, hk⟩ := bufGet_spec hb
  obtain ⟨next, ext, hp⟩ := payload_extents_of_kindOk hk
  simp only [hp] at h
  cases h
  exact ⟨hd, hv, by rw [hview, ExtBlock.toBlock, ← hp]⟩

theorem extBlockGet_nil {b : ExtBlock} (hf : s.faults = []) (hv : dvaValid s.geo d = true)
    (hb : view s d = some b.toBlock) : extBlockGet d s = (.ok b, s) := by
  have hget : bufGet d (some .extents) s = (.ok b.toBlock, s) := bufGet_nil hf hv hb rfl
  rw [extBlockGet, bind_run_ok hget]
  rfl

/-! ### The chain -/

/-- The chain from `cur` on is these blocks, read in the open transaction. -/
def ChainAt (s : Fs) : Nat → List (Nat × ExtBlock) → Prop
  | cur, [] => cur = 0
  | cur, (d, b) :: rest => cur = d ∧ dvaValid s.geo d = true ∧ view s d = some b.toBlock ∧
    ChainAt s b.next rest

variable {cur : Nat} {c : List (Nat × ExtBlock)}

theorem ChainAt.congr (h : ChainAt s cur c) (hg : t.geo = s.geo)
    (hv : ∀ d ∈ c.map Prod.fst, view t d = view s d) : ChainAt t cur c := by
  induction c generalizing cur with
  | nil => exact h
  | cons kb c ih =>
    simp only [map_cons, mem_cons, forall_eq_or_imp] at hv
    exact ⟨h.1, by rw [hg]; exact h.2.1, by rw [hv.1]; exact h.2.2.1, ih h.2.2.2 hv.2⟩

theorem ChainAt.ne_zero {k : Nat × ExtBlock} (h : ChainAt s cur (k :: c)) : cur ≠ 0 :=
  h.1 ▸ ne_zero_of_dvaValid h.2.1

theorem Drew.chainAt (h : Drew s t) (hc : ChainAt t cur c) : ChainAt s cur c := by
  obtain ⟨fl, rfl, -⟩ := h
  exact hc.congr rfl fun _ _ => rfl

def chainRuns (c : List (Nat × ExtBlock)) : List Extent := c.flatMap fun k => liveRuns k.2.ext

theorem gatherRuns_ok {acc acc' : List Extent} {cap cap' : Nat}
    (h : gatherRuns es cap acc s = (.ok (acc', cap'), t)) : Drew s t ∧ acc' = acc ++ es := by
  fun_induction gatherRuns es cap acc generalizing s with
  | case1 cap acc =>
    cases h
    exact ⟨.refl _, by simp⟩
  | case2 e es acc ih =>
    simp only [gets_bind] at h
    split at h
    · cases h
    obtain ⟨_, u, hm, hg⟩ := bind_eq_ok.mp h
    obtain ⟨hd, hacc⟩ := ih _ hg
    exact ⟨(mayFail_drew hm).1.trans hd, by simp [hacc]⟩
  | case3 e es cap acc _ ih =>
    obtain ⟨hd, hacc⟩ := ih h
    exact ⟨hd, by simp [hacc]⟩

/-- A chain loaded is what was gathered before it and the runs of its blocks. -/
theorem loadChain_ok {fuel cap : Nat} {acc : List Extent}
    (h : loadChain fuel cur cap acc s = (.ok ext, t)) :
    Drew s t ∧ ∃ c, ChainAt s cur c ∧ ext = acc ++ chainRuns c := by
  fun_induction loadChain fuel cur cap acc generalizing s with
  | case1 =>
    cases h
    exact ⟨.refl _, [], rfl, by simp [chainRuns]⟩
  | case2 => cases h
  | case3 cur cap acc _ fuel ih =>
    obtain ⟨b, u, hb, h⟩ := bind_eq_ok.mp h
    obtain ⟨hu, hv, hview⟩ := extBlockGet_spec hb
    obtain ⟨⟨acc', cap'⟩, v, hg, h⟩ := bind_eq_ok.mp h
    obtain ⟨hw, rfl⟩ := gatherRuns_ok hg
    obtain ⟨ht, c, hc, hext⟩ := ih _ _ h
    exact ⟨(hu.trans hw).trans ht, (cur, b) :: c, ⟨rfl, hv, hview, (hu.trans hw).chainAt hc⟩,
      by simp [hext, chainRuns]⟩

/-- **What `extentsLoad` returns**: the direct runs followed by the chain's, sorted and
valid; without a chain the direct runs alone. -/
theorem extentsLoad_ok (h : extentsLoad inode s = (.ok ext, t)) :
    ∃ c, ChainAt s inode.indirect c ∧ ext = liveRuns inode.direct ++ chainRuns c ∧
      (inode.indirect = 0 → chainRuns c = []) ∧ extentsValid s.geo ext = true := by
  obtain ⟨_, u, hm, h⟩ := bind_eq_ok.mp h
  obtain ⟨ext', v, hl, h⟩ := bind_eq_ok.mp h
  obtain ⟨hv, c, hc, rfl⟩ := loadChain_ok hl
  obtain ⟨hu, -⟩ := mayFail_drew hm
  obtain ⟨fl, rfl, -⟩ := hu.trans hv
  simp only [gets_bind] at h
  split at h
  · rename_i hval
    cases h
    refine ⟨c, hu.chainAt hc, rfl, fun h0 => ?_, hval⟩
    cases c with
    | nil => rfl
    | cons k c => exact absurd h0 hc.ne_zero
  · cases h

/-! ## The lookups answer from the loaded list -/

theorem find_covers_unique (h : Sorted es) (he : e ∈ es) (hc : e.covers l = true) :
    es.find? (·.covers l) = some e := by
  induction es with
  | nil => cases he
  | cons p es ih =>
    obtain ⟨hp, hs⟩ := pairwise_cons.mp h
    rcases mem_cons.mp he with rfl | he'
    · simp [hc]
    · have hpe := hp e he'
      have hpc : p.covers l = false := by
        rw [Extent.covers_iff] at hc
        rw [← Bool.not_eq_true, Extent.covers_iff]
        omega
      simp only [List.find?_cons, hpc]
      exact ih hs he'

theorem not_covers_of_zero (h : e = Extent.zero) (l : Nat) : e.covers l = false := by
  subst h
  rw [← Bool.not_eq_true, Extent.covers_iff]
  have h0 : Extent.zero.lend = 0 := by decide
  omega

section

variable (h : directValid g direct = true) (l : Nat)

include h

/-- Accepted direct slots are the live runs, sorted and valid, and empty slots. -/
theorem directValid_split :
    extentsValid g (liveRuns direct) = true ∧
      ∃ zs, direct = liveRuns direct ++ zs ∧ ∀ z ∈ zs, z = Extent.zero := by
  have hpre : liveRuns direct = direct.take (liveRuns direct).length :=
    prefix_iff_eq_take.mp ( takeWhile_prefix _)
  unfold directValid at h
  simp only at h
  split at h
  · cases h
  · rename_i hz
    rw [← hpre] at h
    refine ⟨h, direct.drop (liveRuns direct).length, ?_, ?_⟩
    · conv_lhs => rw [← take_append_drop (liveRuns direct).length direct]
      rw [← hpre]
    · intro z hmem
      rw [Bool.not_eq_true, any_eq_false] at hz
      have h1 := hz z hmem
      obtain ⟨st, c, lb⟩ := z
      simp at h1
      simp [Extent.zero, h1]

theorem mapBlock_direct : mapBlock direct l = answerAt (liveRuns direct) l := by
  obtain ⟨hv, zs, hsplit, hzs⟩ := directValid_split h
  have hs := (extentsValid_iff.mp hv).2
  have hexit : ExitSound l (liveRuns direct ++ zs) := by
    refine pairwise_append.mpr ⟨hs.exitSound l, ?_, ?_⟩
    · exact pairwise_of_forall_mem_list fun a _ z hz _ => not_covers_of_zero (hzs z hz) l
    · intro a _ z hz _
      exact not_covers_of_zero (hzs z hz) l
  have hnone : zs.find? (·.covers l) = none := by
    rw [List.find?_eq_none]
    intro z hz
    rw [not_covers_of_zero (hzs z hz)]
    exact Bool.false_ne_true
  conv_lhs => rw [hsplit]
  rw [mapBlock_eq_answerAt hexit]
  unfold answerAt
  rw [List.find?_append, hnone, Option.or_none]

theorem find_direct :
    (direct.find? fun e => extCount e.count != 0 && e.covers l) =
      (liveRuns direct).find? (·.covers l) := by
  obtain ⟨-, zs, hsplit, hzs⟩ := directValid_split h
  have hnone : (zs.find? fun e => extCount e.count != 0 && e.covers l) = none := by
    rw [List.find?_eq_none]
    intro z hz
    rw [not_covers_of_zero (hzs z hz), Bool.and_false]
    exact Bool.false_ne_true
  have hlive : ∀ e ∈ liveRuns direct, (extCount e.count != 0 && e.covers l) = e.covers l := by
    intro e he
    have hcount := mem_takeWhile_imp (p := fun e : Extent => extCount e.count != 0) he
    rw [hcount, Bool.true_and]
  conv_lhs => rw [hsplit]
  rw [List.find?_append, hnone, Option.or_none, List.find?_congr hlive]

end

theorem findRun_eq_find (h : ExitSound l es) :
    findRun es l = es.find? (·.covers l) := by
  induction es with
  | nil => rfl
  | cons e es ih =>
    obtain ⟨he, hes⟩ := pairwise_cons.mp h
    unfold findRun
    by_cases hc : e.covers l = true
    · simp [hc]
    · simp only [hc, List.find?_cons, Bool.false_eq_true, if_false]
      by_cases hp : e.lblk > l
      · rw [if_pos hp, eq_comm, List.find?_eq_none]
        intro e' he'
        rw [he e' he' hp]
        exact Bool.false_ne_true
      · rw [if_neg hp, ih hes]

/-- The answer a run found by `mapExt` stands for. -/
def runAnswer (r : Option Extent) (lblk : Nat) : MapAnswer :=
  match r with
  | none => .hole
  | some e => e.answer lblk

section

variable (hd : directValid s.geo inode.direct = true) (hl : extentsLoad inode s = (.ok ext, t))

include hd hl

/-- `mapExt` gives the covering run of the whole list, direct and chained. -/
theorem mapExt_eq_find : (mapExt inode l s).1 = .ok (ext.find? (·.covers l)) := by
  obtain ⟨c, -, hext, hrest, hv⟩ := extentsLoad_ok hl
  have hs := (extentsValid_iff.mp hv).2
  unfold mapExt
  simp only [gets_bind, hd, Bool.not_true, Bool.false_eq_true, if_false, find_direct hd]
  cases hf : (liveRuns inode.direct).find? (·.covers l) with
  | some e =>
    rw [hext, List.find?_append, hf]
    rfl
  | none =>
    by_cases h0 : inode.indirect = 0
    · rw [hext, hrest h0, append_nil, hf]
      simp [h0]
    · simp only [h0, if_false]
      rw [bind_run_ok hl, findRun_eq_find (hs.exitSound l)]
      rfl

/-- `map` gives the answer of the whole list, unless a direct record is dropped. -/
theorem map_eq_answerAt :
    (map inode l s).1 = .ok (if inode.indirect = 0 ∧ mapBlock inode.direct l = .record then .hole
      else mapBlock ext l) := by
  obtain ⟨c, -, hext, hrest, hv⟩ := extentsLoad_ok hl
  have hs := (extentsValid_iff.mp hv).2
  have hdir := mapBlock_direct hd l
  -- a block answer of the direct runs is the whole list's answer
  have hblock : ∀ p, mapBlock inode.direct l = .block p → mapBlock ext l = .block p := by
    intro p hp
    rw [hs.mapBlock_eq, ← hp, hdir]
    rw [hdir] at hp
    unfold answerAt at hp ⊢
    rw [hext, List.find?_append]
    cases hf : (liveRuns inode.direct).find? (·.covers l) with
    | none => simp [hf] at hp
    | some e => rfl
  -- without a chain the direct runs are the whole list
  have hwhole : inode.indirect = 0 → mapBlock ext l = mapBlock inode.direct l := by
    intro h0
    rw [hs.mapBlock_eq, hdir, hext, hrest h0, append_nil]
  unfold map
  simp only [gets_bind, hd, Bool.not_true, Bool.false_eq_true, if_false]
  cases hm : mapBlock inode.direct l with
  | block p => simp [hblock p hm]
  | record =>
    by_cases h0 : inode.indirect = 0
    · simp [h0]
    · simp only [h0, if_false, false_and]
      rw [bind_run_ok hl]
      rfl
  | hole =>
    by_cases h0 : inode.indirect = 0
    · simp [h0, hwhole h0, hm]
    · simp only [h0, if_false, false_and]
      rw [bind_run_ok hl]
      rfl

end

/-- **Where the two lookups agree with the loaded list.**  For an inode whose runs are
valid, `map` and `mapExt` give the answer of `mapBlock` over the whole list exactly
when the inode has a chain or no compressed direct run covers the block. -/
theorem map_agrees_iff
    (hd : directValid s.geo inode.direct = true) (hl : extentsLoad inode s = (.ok ext, t)) :
    ((map inode l s).1 = .ok (mapBlock ext l) ∧
      ∃ r, (mapExt inode l s).1 = .ok r ∧ runAnswer r l = mapBlock ext l ∧
        ∀ e, r = some e → e ∈ ext ∧ e.covers l = true) ↔
    ¬ (inode.indirect = 0 ∧ ∃ e ∈ inode.direct, extCompressed e.count = true ∧
      e.covers l = true) := by
  obtain ⟨c, -, hext, hrest, hv⟩ := extentsLoad_ok hl
  have hs := (extentsValid_iff.mp hv).2
  have hmap := map_eq_answerAt (l := l) hd hl
  have hdir := mapBlock_direct hd l
  obtain ⟨hvlive, zs, hsplit, hzs⟩ := directValid_split hd
  -- the direct runs answer "record" exactly when a compressed one covers the block
  have hrec : mapBlock inode.direct l = .record ↔
      ∃ e ∈ inode.direct, extCompressed e.count = true ∧ e.covers l = true := by
    rw [hdir]
    constructor
    · intro h
      unfold answerAt at h
      cases hf : (liveRuns inode.direct).find? (·.covers l) with
      | none => simp [hf] at h
      | some e =>
        have hmem := mem_of_find?_eq_some hf
        have hcov := List.find?_some hf
        refine ⟨e, ?_, ?_, hcov⟩
        · rw [hsplit]
          exact mem_append_left _ hmem
        · rw [hf] at h
          simp only [Extent.answer] at h
          split at h
          · assumption
          · cases h
    · rintro ⟨e, he, hcomp, hcov⟩
      have hlive : e ∈ liveRuns inode.direct := by
        rw [hsplit] at he
        rcases mem_append.mp he with he | he
        · exact he
        · rw [not_covers_of_zero (hzs e he)] at hcov
          cases hcov
      have hfind := find_covers_unique (extentsValid_iff.mp hvlive).2 hlive hcov
      simp [answerAt, hfind, Extent.answer, hcomp]
  rw [hmap, ← hrec]
  constructor
  · rintro ⟨hm, -⟩ ⟨h0, hr⟩
    have hwhole : mapBlock ext l = .record := by
      rw [hs.mapBlock_eq, hext, hrest h0, append_nil, ← hdir, hr]
    rw [if_pos ⟨h0, hr⟩, hwhole] at hm
    cases hm
  · intro hcond
    refine ⟨by rw [if_neg hcond], ext.find? (·.covers l), mapExt_eq_find hd hl, ?_, ?_⟩
    · rw [hs.mapBlock_eq]
      rfl
    · intro e he
      exact ⟨mem_of_find?_eq_some he, List.find?_some (p := fun x : Extent => x.covers l) he⟩

/-- An inode with one direct run and no chain. -/
def oneRunInode (e : Extent) : Inode where
  mode := 0
  nlink := 1
  size := 0
  generation := 1
  ino := 2
  direct := e :: List.replicate 9 Extent.zero
  indirect := 0
  csumAlgo := 0
  csumRoot := 0
  compressAlgo := 0
  direct_length := rfl

/-- A record of two logical blocks in one physical block, at pool block 10. -/
def oneRecord : Extent := ⟨10, 0x81000002, 0⟩

/-- The record's inode is valid and loads, yet its first block is mapped as a hole
where the loaded list says "record". -/
theorem map_drops_direct_record :
    directValid smallFs.geo (oneRunInode oneRecord).direct = true ∧
      extentsLoad (oneRunInode oneRecord) smallFs = (.ok [oneRecord], smallFs) ∧
      mapBlock [oneRecord] 0 = .record ∧
      (map (oneRunInode oneRecord) 0 smallFs).1 = .ok .hole :=
  ⟨by decide, rfl, by decide, rfl⟩

/-- An inode whose direct runs, the record the first of them, are all in use, and one run more in
a chain of one block. -/
def tenRunsInode : Inode :=
  { oneRunInode oneRecord with
    direct := oneRecord :: (List.range 9).map fun k => ⟨11 + k, 1, 2 + k⟩
    indirect := 30
    direct_length := rfl }

/-- The pool with the chain's block. -/
def tenRunsFs : Fs :=
  { smallFs with
    disk := Function.update smallFs.disk 30 (.mblock (ExtBlock.toBlock ⟨1, 0, [⟨40, 2, 11⟩]⟩)) }

/-- With a chain both lookups answer for the record, and for the run in the chain. -/
theorem map_agrees_chained :
    (map tenRunsInode 1 tenRunsFs).1 = .ok .record ∧
      (map tenRunsInode 12 tenRunsFs).1 = .ok (.block 41) := by
  have hd : directValid tenRunsFs.geo tenRunsInode.direct = true := by decide
  have hl : extentsLoad tenRunsInode tenRunsFs =
      (.ok (tenRunsInode.direct ++ [⟨40, 2, 11⟩]), tenRunsFs) := rfl
  have hchain (l : Nat) : ¬ (tenRunsInode.indirect = 0 ∧ ∃ e ∈ tenRunsInode.direct,
      extCompressed e.count = true ∧ e.covers l = true) := by
    rintro ⟨h, -⟩
    cases h
  have hrecord := ((map_agrees_iff hd hl).mpr (hchain 1)).1
  have hrun := ((map_agrees_iff hd hl).mpr (hchain 12)).1
  exact ⟨hrecord.trans (by decide), hrun.trans (by decide)⟩

end CosmoOS.Cosmofs
