import CosmoOS.Cosmofs.Space
import Mathlib.Algebra.Order.BigOperators.Group.List
import Mathlib.Algebra.Group.Action.Defs
import Mathlib.Data.List.Count

/-!
# The free counters, and an allocator that never says "no space" too early

Beside the bitmap the allocator counts the free blocks of each member and those of the whole pool.
It decides from the counters alone whether an allocation may be tried and which member to try first,
and only then looks at bits.

`Counted`: a member's counter is the number of clear bits between its first usable block and its
end, as `loadBitmap` counts them at mount, and the pool's is the sum.  Bits outside that range (the
superblocks, the label, the padding) are in no counter.

Under it `allocRun` is exact in both directions (`allocRun_exact`).  A success lowers the two
counters by the blocks handed out and leaves a data allocation's floor, half the reserve, untouched.
A failure means that the free blocks of all members together are at most that floor, which for
metadata is none.
-/

namespace CosmoOS.Cosmofs

open Lib Fallible Function List

/-! ## The invariant -/

/-- The clear bits of a member's usable blocks. -/
def freeCount (s : Fs) (v : Nat) (m : Member) : Nat :=
  (List.range' m.firstUsable (m.nblocks - m.firstUsable)).countP
    fun b => !s.space.bitmap (s.geo.base v + b)

/-- The counters are the bits'. -/
structure Counted (s : Fs) : Prop where
  member : ∀ v m, s.geo.members[v]? = some m → s.space.memFree v = freeCount s v m
  total : s.space.freeBlocks = ((List.range s.geo.nmembers).map s.space.memFree).sum

/-- The free blocks an allocation of the class leaves alone. -/
def classFloor (s : Fs) (cls : AllocClass) : Nat := if cls = .data then s.reserve / 2 else 0

theorem usableBlocks_eq (s : Fs) (cls : AllocClass) :
    usableBlocks s cls = s.space.freeBlocks - classFloor s cls := by
  unfold usableBlocks classFloor
  simp only
  split <;> split <;> omega

variable {s : Fs} {v n b len want : Nat} {m : Member}

theorem Counted.memFree_le (h : Counted s) (hm : s.geo.members[v]? = some m) :
    s.space.memFree v ≤ m.nblocks := by
  have hle : freeCount s v m ≤ (List.range' m.firstUsable (m.nblocks - m.firstUsable)).length :=
    countP_le_length
  rw [length_range'] at hle
  rw [h.member v m hm]
  omega

theorem Counted.total_lt (h : Counted s) : s.space.freeBlocks < 2 ^ 64 := by
  have hsum : ((List.range s.geo.nmembers).map s.space.memFree).sum ≤
      ((List.range s.geo.nmembers).map s.space.memFree).length • 2 ^ 56 := by
    refine sum_le_card_nsmul _ _ ?_
    intro x hx
    obtain ⟨v, hv, rfl⟩ := mem_map.mp hx
    have hlt : v < s.geo.members.length := mem_range.mp hv
    have hm := List.getElem?_eq_getElem hlt
    have hle := h.memFree_le hm
    have hnb := (s.geo.members[v]).nblocks_lt
    omega
  have hn : s.geo.nmembers ≤ 255 := s.geo.members_le
  rw [length_map, length_range, smul_eq_mul] at hsum
  rw [h.total]
  omega

/-! ## Counting after a run is taken or a block given back -/

/-- A stretch of `len` numbers counted by `f` and not by `g`, which agree elsewhere. -/
theorem countP_range'_taken {f g : Nat → Bool} {a : Nat} (hlo : a ≤ b) (hhi : b + len ≤ a + n)
    (hin : ∀ k, b ≤ k → k < b + len → f k = true ∧ g k = false)
    (hout : ∀ k, (k < b ∨ b + len ≤ k) → g k = f k) :
    (List.range' a n).countP g + len = (List.range' a n).countP f := by
  have hsplit : List.range' a n =
      List.range' a (b - a) ++
        (List.range' b len ++ List.range' (b + len) (a + n - (b + len))) := by
    have h1 : List.range' a (b - a) ++ List.range' (a + (b - a)) (a + n - b) = List.range' a n := by
      rw [List.range'_append_1]
      congr 1
      omega
    have h2 : List.range' b len ++ List.range' (b + len) (a + n - (b + len)) =
        List.range' b (a + n - b) := by
      rw [List.range'_append_1]
      congr 1
      omega
    rw [h2, ← h1, Nat.add_sub_cancel' hlo]
  have hfirst : (List.range' a (b - a)).countP g = (List.range' a (b - a)).countP f := by
    refine countP_congr fun k hk => ?_
    rw [mem_range'_1] at hk
    rw [hout k (by omega)]
  have hlast : (List.range' (b + len) (a + n - (b + len))).countP g =
      (List.range' (b + len) (a + n - (b + len))).countP f := by
    refine countP_congr fun k hk => ?_
    rw [mem_range'_1] at hk
    rw [hout k (by omega)]
  have hg : (List.range' b len).countP g = 0 := by
    rw [countP_eq_zero]
    intro k hk
    rw [mem_range'_1] at hk
    rw [(hin k hk.1 hk.2).2]
    exact Bool.false_ne_true
  have hf : (List.range' b len).countP f = len := by
    have hall : (List.range' b len).countP f = (List.range' b len).length := by
      rw [countP_eq_length]
      intro k hk
      rw [mem_range'_1] at hk
      exact (hin k hk.1 hk.2).1
    rwa [length_range'] at hall
  rw [hsplit]
  simp only [countP_append]
  omega

theorem sum_range_update {f : Nat → Nat} {x : Nat} (hv : v < n) (hx : x + len = f v) :
    ((List.range n).map (update f v x)).sum + len = ((List.range n).map f).sum := by
  induction n with
  | zero => exact absurd hv (by omega)
  | succ n ih =>
    rw [range_succ, map_append, map_append, sum_append, sum_append]
    simp only [map_cons, map_nil, sum_cons, sum_nil, Nat.add_zero]
    by_cases hvn : v = n
    · subst hvn
      have hsame : (List.range v).map (update f v x) = (List.range v).map f := by
        refine map_congr_left fun k hk => ?_
        have hne : k ≠ v := by
          have := mem_range.mp hk
          omega
        rw [update_of_ne hne]
      rw [hsame, update_self]
      omega
    · have ih := ih (by omega)
      rw [update_of_ne (fun h => hvn h.symm)]
      omega

theorem Geometry.base_inj {g : Geometry} {w c : Nat} {m' : Member} (hm : g.members[v]? = some m)
    (hm' : g.members[w]? = some m') (hb : b < m.nblocks) (hc : c < m'.nblocks)
    (h : g.base v + b = g.base w + c) : v = w ∧ b = c := by
  have h1 := dvaLin_dvaOf hm hb
  have h2 := dvaLin_dvaOf hm' hc
  rw [← h] at h2
  have heq := dvaLin_inj h1 h2
  have hv : v = w := by
    have := congrArg dvaVdev heq
    rwa [dvaVdev_dvaOf, dvaVdev_dvaOf] at this
  exact ⟨hv, by subst hv; omega⟩

theorem freeCount_claim {w : Nat} {m' : Member} (hm : s.geo.members[v]? = some m)
    (hw : s.geo.members[w]? = some m') (hlo : m.firstUsable ≤ b) (hhi : b + len ≤ m.nblocks)
    (hfree : ∀ k < len, s.space.bitmap (s.geo.base v + b + k) = false) :
    freeCount (claim s v b len) w m' + (if w = v then len else 0) = freeCount s w m' := by
  have hbit : ∀ c, (claim s v b len).space.bitmap (s.geo.base w + c) =
      ((decide (s.geo.base v + b ≤ s.geo.base w + c) &&
        decide (s.geo.base w + c < s.geo.base v + b + len)) ||
          s.space.bitmap (s.geo.base w + c)) := fun c => rfl
  split
  · rename_i hwv
    subst hwv
    obtain rfl : m = m' := Option.some.inj (hm.symm.trans hw)
    refine countP_range'_taken hlo (by omega) ?_ ?_
    · intro k h1 h2
      have hf := hfree (k - b) (by omega)
      rw [show s.geo.base w + b + (k - b) = s.geo.base w + k by omega] at hf
      refine ⟨by rw [hf]; rfl, ?_⟩
      show (!(claim s w b len).space.bitmap (s.geo.base w + k)) = false
      rw [hbit, decide_eq_true (by omega), decide_eq_true (by omega)]
      rfl
    · intro k hk
      show (!(claim s w b len).space.bitmap (s.geo.base w + k)) = !s.space.bitmap (s.geo.base w + k)
      rw [hbit]
      rcases hk with hk | hk
      · rw [decide_eq_false (show ¬ s.geo.base w + b ≤ s.geo.base w + k by omega)]
        rfl
      · rw [decide_eq_false (show ¬ s.geo.base w + k < s.geo.base w + b + len by omega),
          Bool.and_false]
        rfl
  · rename_i hwv
    refine countP_congr fun k hk => ?_
    rw [mem_range'_1] at hk
    show (!(claim s v b len).space.bitmap (s.geo.base w + k)) = true ↔ _
    have hnot : ¬ (s.geo.base v + b ≤ s.geo.base w + k ∧
        s.geo.base w + k < s.geo.base v + b + len) := by
      rintro ⟨h1, h2⟩
      have hin := Geometry.base_inj hm hw
        (show s.geo.base w + k - s.geo.base v < m.nblocks by omega) (show k < m'.nblocks by omega)
        (by omega)
      exact hwv hin.1.symm
    have hout : (decide (s.geo.base v + b ≤ s.geo.base w + k) &&
        decide (s.geo.base w + k < s.geo.base v + b + len)) = false := by
      rw [← Bool.not_eq_true, Bool.and_eq_true, decide_eq_true_eq, decide_eq_true_eq]
      exact hnot
    rw [hbit, hout, Bool.false_or]

/-- The counters after a claim. -/
theorem Counted.claim (h : Counted s) (hm : s.geo.members[v]? = some m) (hlo : m.firstUsable ≤ b)
    (hhi : b + len ≤ m.nblocks) (hfree : ∀ k < len, s.space.bitmap (s.geo.base v + b + k) = false) :
    len ≤ s.space.memFree v ∧ len ≤ s.space.freeBlocks ∧
      (claim s v b len).space.memFree v = s.space.memFree v - len ∧
      (∀ w, w ≠ v → (CosmoOS.Cosmofs.claim s v b len).space.memFree w = s.space.memFree w) ∧
      (CosmoOS.Cosmofs.claim s v b len).space.freeBlocks = s.space.freeBlocks - len ∧
      Counted (CosmoOS.Cosmofs.claim s v b len) := by
  have hown := freeCount_claim hm hm hlo hhi hfree
  rw [if_pos rfl, ← h.member v m hm] at hown
  have hv : v < s.geo.nmembers := (List.getElem?_eq_some_iff.mp hm).1
  have hsum : ((List.range s.geo.nmembers).map
      (update s.space.memFree v (s.space.memFree v - len))).sum + len =
        ((List.range s.geo.nmembers).map s.space.memFree).sum :=
    sum_range_update hv (by omega)
  rw [← h.total] at hsum
  have htot := h.total_lt
  have hmem := h.memFree_le hm
  have hnb := m.nblocks_lt
  have hm64 : wrappingSub (s.space.memFree v) len = s.space.memFree v - len := by
    rw [wrappingSub]
    omega
  have hf64 : wrappingSub s.space.freeBlocks len = s.space.freeBlocks - len := by
    rw [wrappingSub]
    omega
  have hmf : (CosmoOS.Cosmofs.claim s v b len).space.memFree =
      update s.space.memFree v (s.space.memFree v - len) := by
    show update s.space.memFree v (wrappingSub (s.space.memFree v) len) = _
    rw [hm64]
  refine ⟨by omega, by omega, ?_, ?_, hf64, ?_, ?_⟩
  · rw [hmf, update_self]
  · intro w hw
    rw [hmf, update_of_ne hw]
  · intro w m' hw
    have hw' : s.geo.members[w]? = some m' := hw
    have hc := freeCount_claim hm hw' hlo hhi hfree
    rw [hmf]
    by_cases hwv : w = v
    · subst hwv
      rw [if_pos rfl] at hc
      rw [update_self, h.member w m' hw']
      omega
    · rw [if_neg hwv] at hc
      rw [update_of_ne hwv, h.member w m' hw']
      omega
  · show wrappingSub s.space.freeBlocks len = _
    rw [hmf, hf64]
    have hg : (CosmoOS.Cosmofs.claim s v b len).geo.nmembers = s.geo.nmembers := rfl
    rw [hg]
    omega

/-! ## No space means no space -/

theorem scanMember_none {lo hi : Nat} (h : scanMember s v lo hi want = none) :
    ∀ b, lo ≤ b → b < hi → s.space.bitmap (s.geo.base v + b) = true := by
  intro b hlo hhi
  unfold scanMember at h
  simp only at h
  split at h
  · rename_i hnone
    rw [List.find?_eq_none] at hnone
    have hb := hnone b (mem_range'_1.mpr (by omega))
    simpa using hb
  · cases h

theorem allocFrom_none {hint first : Nat} (hv : (first + n) % s.geo.nmembers = v)
    (hm : s.geo.members[v]? = some m) (h : allocFrom s hint want first n = none) :
    freeCount s v m = 0 := by
  unfold allocFrom at h
  simp only [hv, hm] at h
  obtain ⟨h1, h2⟩ := Option.or_eq_none_iff.mp h
  rw [freeCount, countP_eq_zero]
  intro b hb
  rw [mem_range'_1] at hb
  -- the two scans meet where the first began
  have hbit : s.space.bitmap (s.geo.base v + b) = true := by
    rcases Nat.lt_or_ge b (scanStart m (if n == 0 && dvaValid s.geo hint then dvaBlk hint
        else s.space.memHint v)) with hlt | hge
    · exact scanMember_none h2 b hb.1 hlt
    · exact scanMember_none h1 b hge (by omega)
  rw [hbit]
  exact Bool.false_ne_true

theorem exists_turn (first : Nat) (hv : v < n) : ∃ k < n, (first + k) % n = v := by
  have hf : first % n < n := Nat.mod_lt _ (by omega)
  refine ⟨(v + n - first % n) % n, Nat.mod_lt _ (by omega), ?_⟩
  rw [← Nat.mod_add_mod, Nat.add_mod_mod]
  rw [show first % n + (v + n - first % n) = v + n by omega, Nat.add_mod_right]
  exact Nat.mod_eq_of_lt hv

/-- With usable blocks counted, some member has one. -/
theorem Counted.allocRun_error {t : Fs} {cls : AllocClass} {hint : Nat} {e : Errno}
    (hc : Counted s) (h : allocRun cls hint want s = (.error e, t)) :
    s.space.freeBlocks ≤ classFloor s cls := by
  have hus := usableBlocks_eq s cls
  unfold allocRun at h
  simp only at h
  split at h
  · omega
  · split at h
    · rename_i hnone
      rw [List.findSome?_eq_none_iff] at hnone
      have hzero : s.space.freeBlocks = 0 := by
        rw [hc.total, sum_eq_zero_iff]
        intro x hx
        obtain ⟨v, hv, rfl⟩ := mem_map.mp hx
        have hlt : v < s.geo.nmembers := mem_range.mp hv
        obtain ⟨m, hm⟩ : ∃ m, s.geo.members[v]? = some m := ⟨_, List.getElem?_eq_getElem hlt⟩
        obtain ⟨k, hk, hturn⟩ :=
          exists_turn (if dvaValid s.geo hint then dvaVdev hint else pickMember s) hlt
        rw [hc.member v m hm]
        exact allocFrom_none hturn hm (hnone k (mem_range.mpr hk))
      omega
    · cases h

/-- With the requested length a 32-bit word, no more is asked for than the class may have. -/
theorem wantBlocks_le_usable {usable : Nat} (hw : want < 2 ^ 32) (hu : usable ≠ 0) :
    wantBlocks want usable ≤ usable ∧ 1 ≤ wantBlocks want usable := by
  unfold wantBlocks truncate32
  simp only
  split <;> split <;> omega

theorem Counted.full (hc : Counted s) (h : s.space.freeBlocks = 0)
    (hm : s.geo.members[v]? = some m) (hlo : m.firstUsable ≤ b) (hhi : b < m.nblocks) :
    s.space.bitmap (s.geo.base v + b) = true := by
  have hv : v < s.geo.nmembers := (List.getElem?_eq_some_iff.mp hm).1
  rw [hc.total, sum_eq_zero_iff] at h
  have hzero := h _ (mem_map_of_mem (mem_range.mpr hv))
  rw [hc.member v m hm, freeCount, countP_eq_zero] at hzero
  have hb := hzero b (mem_range'_1.mpr (by omega))
  simpa using hb

/-- **The allocator is exact.**  With counters that are the bits', a run handed out is of
one to `want` blocks (one when none were asked for) inside one member's usable range, free
before and taken after; no other bit changes; that member's counter and the pool's fall by
its length, no other counter moves, and a data allocation leaves its floor.  A failure is
`-ENOSPC`, changes nothing, and means that the free blocks are no more than the class's
floor; where that is zero, every usable block of every member is taken. -/
theorem allocRun_exact {cls : AllocClass} {hint want : Nat} {s t : Fs}
    {r : Except Errno (Nat × Nat)} (hc : Counted s) (hw : want < 2 ^ 32)
    (h : allocRun cls hint want s = (r, t)) :
    (∀ start got, r = .ok (start, got) → 1 ≤ got ∧ got ≤ max want 1 ∧
      (∃ v m b, s.geo.members[v]? = some m ∧ start = dvaOf v b ∧ m.firstUsable ≤ b ∧
        b + got ≤ m.nblocks ∧ got ≤ s.space.memFree v ∧
        t.space.memFree v = s.space.memFree v - got ∧
        ∀ w, w ≠ v → t.space.memFree w = s.space.memFree w) ∧
      (∀ k < got, allocated s (start + k) = false ∧ allocated t (start + k) = true) ∧
      (∀ l, (∀ k < got, dvaLin s.geo (start + k) ≠ some l) →
        t.space.bitmap l = s.space.bitmap l) ∧
      got ≤ s.space.freeBlocks ∧ t.space.freeBlocks = s.space.freeBlocks - got ∧
      classFloor s cls ≤ t.space.freeBlocks ∧ Counted t) ∧
    (∀ e, r = .error e → e = .enospc ∧ t = s ∧ s.space.freeBlocks ≤ classFloor s cls ∧
      (classFloor s cls = 0 → ∀ v m b, s.geo.members[v]? = some m → m.firstUsable ≤ b →
        b < m.nblocks → s.space.bitmap (s.geo.base v + b) = true)) := by
  refine ⟨?_, ?_⟩
  · rintro start got rfl
    have hspec := allocRun_spec h
    obtain ⟨hus, v, m, b, hm, rfl, rfl, hlo, hhi, hpos, hle, hfree⟩ := allocRun_claim h
    obtain ⟨hmem, htot, hmv, hmw, hfb, hct⟩ := hc.claim hm hlo hhi hfree
    obtain ⟨hw1, hw2⟩ := wantBlocks_le_usable hw hus
    have hueq := usableBlocks_eq s cls
    refine ⟨hpos, hspec.2, ⟨v, m, b, hm, rfl, hlo, hhi, hmem, hmv, hmw⟩, ?_, ?_, htot, hfb, ?_,
      hct⟩
    · intro k hk
      exact ⟨hspec.1.was_free k hk, (hspec.1.now _).mpr (Or.inr ⟨k, hk, rfl⟩)⟩
    · intro l hl
      rw [Bool.eq_iff_iff, hspec.1.bits l]
      constructor
      · rintro (hx | ⟨k, hk, hkl⟩)
        · exact hx
        · exact absurd hkl (hl k hk)
      · exact Or.inl
    · rw [hfb]
      omega
  · rintro e rfl
    obtain ⟨he, ht⟩ := allocRun_error h
    have hfloor := hc.allocRun_error h
    refine ⟨he, ht, hfloor, ?_⟩
    intro hz v m b hm hlo hhi
    exact hc.full (by omega) hm hlo hhi

theorem smallFs_counted : Counted smallFs := by
  refine ⟨?_, rfl⟩
  intro v m hm
  have hlt : v < 1 := (List.getElem?_eq_some_iff.mp hm).1
  obtain rfl : v = 0 := by omega
  cases hm
  rfl

/-- Asked for no block, the allocator hands out one. -/
theorem allocRun_want_zero :
    Counted smallFs ∧ (∃ t, allocRun .metadata 0 0 smallFs = (.ok (2, 1), t)) ∧ ¬ 1 ≤ 0 :=
  ⟨smallFs_counted, ⟨_, rfl⟩, by decide⟩

/-- A pool of two members, of which two blocks of the first and three of the second are free, and
which keeps two from data. -/
def nearlyFullFs : Fs :=
  { smallFs with
    geo := ⟨smallGeometry.members ++ smallGeometry.members, by decide, by decide⟩
    reserve := 4
    space :=
      ⟨fun l => !([9, 10] ++ List.range' (bitsPerBitmap + 20) 3).contains l, fun _ => false, 5,
        fun v => 2 + v, fun _ => 2⟩ }

theorem nearlyFullFs_counted : Counted nearlyFullFs := by
  refine ⟨fun v m hm => ?_, rfl⟩
  have hlt : v < 2 := (List.getElem?_eq_some_iff.mp hm).1
  obtain rfl | rfl : v = 0 ∨ v = 1 := by omega
  all_goals
    cases hm
    rfl

/-- Eight data blocks are asked for: the three of the second member are handed out, which leaves
the two kept, and the next allocation of data fails. -/
theorem allocRun_exact_nearlyFull :
    ∃ t, allocRun .data 0 8 nearlyFullFs = (.ok (dvaOf 1 20, 3), t) ∧ Counted t ∧
      t.space.freeBlocks = 2 ∧ allocRun .data 0 1 t = (.error .enospc, t) := by
  have hrun : allocRun .data 0 8 nearlyFullFs =
      (.ok (dvaOf 1 20, 3), (allocRun .data 0 8 nearlyFullFs).2) := rfl
  obtain ⟨-, -, -, -, -, -, hfb, -, hct⟩ :=
    (allocRun_exact nearlyFullFs_counted (by decide) hrun).1 _ 3 rfl
  have huse : usableBlocks (allocRun .data 0 8 nearlyFullFs).2 .data = 0 := by
    rw [usableBlocks_eq, hfb]
    rfl
  have hfull {s : Fs} (h : usableBlocks s .data = 0) :
      allocRun .data 0 1 s = (.error .enospc, s) := if_pos h
  exact ⟨_, hrun, hct, hfb, hfull huse⟩

end CosmoOS.Cosmofs
