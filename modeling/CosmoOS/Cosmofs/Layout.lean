import CosmoOS.Cosmofs.Pool

/-!
# The member table and its layout

`membersLoad` reads the member table, checks every entry against what the format can express, and
lays the members out one after the other in the linear space the bitmap is indexed by (`layout`),
each at a whole bitmap chunk.  `linDva` finds the member of a linear number by a walk over the
table, and stops at the first member that begins behind it.

The arithmetic is the machine's: a chunk count is cut to 32 bits and a base to 64, and the limits on
an entry see to it that nothing is lost.  Before version 4 there is no table, and the one member has
the superblock's size, which no limit but the device's holds.

What the walk relies on is `Apart`: a later member begins behind the blocks and the chunks of an
earlier one.
-/

namespace CosmoOS.Cosmofs.Members

/-- What one allocation index can cover: 508 chunks (`CFS_MAX_BLOCKS`). -/
def maxBlocks : Nat := 16516096

/-- An entry of the member table, as far as the load reads it. -/
structure Entry where
  nblocks : Nat
  firstUsable : Nat
  allocRoot : Nat
  freeBlocks : Nat
  copies : Nat

/-- A member of the mounted pool. -/
structure MemState where
  nblocks : Nat
  firstUsable : Nat
  base : Nat
  chunk0 : Nat
  nchunks : Nat
  deriving DecidableEq

/-- A member table entry, for member `v` of `nmembers`. -/
def memberSane (e : Entry) (v nmembers : Nat) : Bool :=
  if e.nblocks < 64 || e.nblocks > maxBlocks then false
  else if (e.nblocks + bitsPerBitmap - 1) / bitsPerBitmap > 508 then false
  else if e.firstUsable < (if v = 0 then 2 else 1) || e.firstUsable ≥ e.nblocks then false
  else if dvaVdev e.allocRoot ≥ nmembers then false
  else e.copies ≤ 4 && e.freeBlocks ≤ e.nblocks

def membersCountOk (count : Nat) : Bool := count != 0 && count ≤ 63 && count ≤ 255

/-- Lay the members out behind `base`, the next chunk being `chunk`. -/
def layout : Nat → Nat → List MemState → List MemState
  | _, _, [] => []
  | base, chunk, m :: ms =>
    let nchunks := (m.nblocks + bitsPerBitmap - 1) / bitsPerBitmap % 2 ^ 32
    { m with base := base, chunk0 := chunk, nchunks := nchunks } ::
      layout ((base + nchunks * bitsPerBitmap) % 2 ^ 64) ((chunk + nchunks) % 2 ^ 32) ms

/-- What a load meets: how the calls it makes end, and the blocks of each member's device. -/
structure Env where
  table : Except Errno Unit
  memory : Except Errno Unit
  assembleMember : Nat → Except Errno Unit
  setupCopies : Nat → Except Errno Unit
  has : Nat → Nat

/-- Member `v` of `n`: its entry checked, its devices found. -/
def loadMember (env : Env) (entry : Nat → Entry) (n v : Nat) : Except Errno MemState :=
  if !memberSane (entry v) v n then .error .eio
  else do
    env.assembleMember v
    if (entry v).nblocks > env.has v then .error .eio
    else pure ⟨(entry v).nblocks, (entry v).firstUsable, 0, 0, 0⟩

def loadMembers (env : Env) (entry : Nat → Entry) (n : Nat) : Nat → Except Errno (List MemState)
  | 0 => pure []
  | k + 1 => do
    let ms ← loadMembers env entry n k
    let m ← loadMember env entry n k
    pure (ms ++ [m])

/-- The member table read, checked and assembled: `count` members, with these entries. -/
def membersLoad (env : Env) (version totalBlocks count : Nat) (entry : Nat → Entry) :
    Except Errno (List MemState) :=
  if version < 4 then do
    env.memory
    pure (layout 0 0 [⟨totalBlocks, 2, 0, 0, 0⟩])
  else do
    env.table
    if !membersCountOk count then .error .eio
    else do
      env.memory
      let ms ← loadMembers env entry count count
      (List.range count).forM env.setupCopies
      pure (layout 0 0 ms)

/-- The address in the linear space, `none` for `CFS_DVA_NONE`. -/
def dvaLin (ms : List MemState) (d : Nat) : Option Nat :=
  match ms[dvaVdev d]? with
  | none => none
  | some m => if dvaBlk d ≥ m.nblocks then none else some (m.base + dvaBlk d)

/-- The walk of `linDva`, at member `v`. -/
def linDvaFrom (lin v : Nat) : List MemState → Option Nat
  | [] => none
  | m :: ms =>
    if lin < m.base then none
    else if lin < m.base + m.nblocks then some (dvaOf v (lin - m.base))
    else if lin < m.base + m.nchunks * bitsPerBitmap then none
    else linDvaFrom lin (v + 1) ms

/-- The address of linear number `lin`, `none` where no block is behind it. -/
def linDva (ms : List MemState) (lin : Nat) : Option Nat := linDvaFrom lin 0 ms

/-! ## The walk and the layout -/

/-- A later member begins behind the blocks and behind the chunks of an earlier one. -/
def Apart (m n : MemState) : Prop :=
  m.base + m.nblocks ≤ n.base ∧ m.base + m.nchunks * bitsPerBitmap ≤ n.base

variable {ms : List MemState} {lin v i : Nat} {m : MemState}

theorem linDvaFrom_of_mem (h : ms.Pairwise Apart) (hm : ms[i]? = some m) (hle : m.base ≤ lin)
    (hlt : lin < m.base + m.nblocks) :
    linDvaFrom lin v ms = some (dvaOf (v + i) (lin - m.base)) := by
  induction ms generalizing v i with
  | nil => cases hm
  | cons n ms ih =>
    obtain ⟨hn, hms⟩ := List.pairwise_cons.mp h
    cases i with
    | zero =>
      obtain rfl : n = m := Option.some.inj hm
      rw [linDvaFrom, if_neg (by omega), if_pos hlt, Nat.add_zero]
    | succ i =>
      obtain ⟨hblocks, hchunks⟩ := hn m (List.mem_of_getElem? hm)
      rw [linDvaFrom, if_neg (by omega), if_neg (by omega), if_neg (by omega), ih hms hm,
        Nat.add_assoc, Nat.add_comm 1 i]

theorem linDvaFrom_none (h : ∀ m ∈ ms, lin < m.base ∨ m.base + m.nblocks ≤ lin) :
    linDvaFrom lin v ms = none := by
  induction ms generalizing v with
  | nil => rfl
  | cons n ms ih =>
    obtain ⟨hn, hms⟩ := List.forall_mem_cons.mp h
    rw [linDvaFrom, ih hms]
    split
    · rfl
    · rw [if_neg (by omega), ite_self]

/-- **The layout keeps the members apart**, where the sum of their sizes fits. -/
theorem layout_apart (base chunk : Nat) (hsize : ∀ m ∈ ms, m.nblocks ≤ maxBlocks)
    (hsum : base + ms.length * maxBlocks < 2 ^ 64) : (layout base chunk ms).Pairwise Apart ∧
      ∀ m ∈ layout base chunk ms, base ≤ m.base ∧ m.nblocks ≤ maxBlocks := by
  induction ms generalizing base chunk with
  | nil => exact ⟨.nil, by simp [layout]⟩
  | cons m ms ih =>
    obtain ⟨hm, hms⟩ := List.forall_mem_cons.mp hsize
    rw [List.length_cons, Nat.add_mul, Nat.one_mul] at hsum
    rw [layout]
    generalize hn : (m.nblocks + bitsPerBitmap - 1) / bitsPerBitmap % 2 ^ 32 = nchunks
    -- the chunks cover the blocks, and are no more than one index covers
    have hcover : m.nblocks ≤ nchunks * bitsPerBitmap ∧ nchunks * bitsPerBitmap ≤ maxBlocks := by
      unfold maxBlocks bitsPerBitmap at *
      omega
    obtain ⟨hap, hlater⟩ := ih (base + nchunks * bitsPerBitmap) ((chunk + nchunks) % 2 ^ 32) hms
      (by omega)
    rw [Nat.mod_eq_of_lt (by omega : base + nchunks * bitsPerBitmap < 2 ^ 64)]
    refine ⟨List.pairwise_cons.mpr ⟨fun n hn => ?_, hap⟩,
      List.forall_mem_cons.mpr ⟨⟨Nat.le_refl _, hm⟩, fun n hn => ?_⟩⟩
    · have hn := (hlater n hn).1
      exact ⟨Nat.le_trans (Nat.add_le_add_left hcover.1 base) hn, hn⟩
    · obtain ⟨hbase, hblocks⟩ := hlater n hn
      exact ⟨by omega, hblocks⟩

/-! ## What a load leaves -/

theorem bind_ok {α β : Type} {x : Except Errno α} {f : α → Except Errno β} {b : β}
    (h : (x >>= f) = .ok b) : ∃ a, x = .ok a ∧ f a = .ok b := by
  cases x with
  | error e => cases h
  | ok a => exact ⟨a, rfl, h⟩

variable {env : Env} {version totalBlocks count : Nat} {entry : Nat → Entry}

theorem loadMember_size {n k : Nat} (h : loadMember env entry n k = .ok m) :
    m.nblocks ≤ maxBlocks := by
  unfold loadMember at h
  split at h
  · cases h
  rename_i hs
  obtain ⟨-, -, h⟩ := bind_ok h
  split at h
  · cases h
  obtain rfl := Except.ok.inj h
  by_contra hgt
  simp [memberSane, show maxBlocks < (entry k).nblocks by simpa using hgt] at hs

theorem loadMembers_size {n k : Nat} (h : loadMembers env entry n k = .ok ms) :
    ms.length = k ∧ ∀ m ∈ ms, m.nblocks ≤ maxBlocks := by
  induction k generalizing ms with
  | zero =>
    obtain rfl := Except.ok.inj h
    simp
  | succ k ih =>
    obtain ⟨ms', hms, h⟩ := bind_ok h
    obtain ⟨m, hm, h⟩ := bind_ok h
    obtain rfl := Except.ok.inj h
    obtain ⟨hlen, hall⟩ := ih hms
    exact ⟨by simp [hlen], List.forall_mem_append.mpr ⟨hall, by simpa using loadMember_size hm⟩⟩

theorem membersLoad_ok (h : membersLoad env version totalBlocks count entry = .ok ms)
    (hold : version < 4 → totalBlocks ≤ 2 ^ 56) :
    ms.Pairwise Apart ∧ ∀ m ∈ ms, m.nblocks ≤ 2 ^ 56 := by
  unfold membersLoad at h
  split at h
  · rename_i hv
    obtain ⟨-, -, h⟩ := bind_ok h
    obtain rfl := Except.ok.inj h
    exact ⟨List.pairwise_singleton .., by simpa [layout] using hold hv⟩
  obtain ⟨-, -, h⟩ := bind_ok h
  split at h
  · cases h
  rename_i hcount
  obtain ⟨-, -, h⟩ := bind_ok h
  obtain ⟨ms', hms, h⟩ := bind_ok h
  obtain ⟨-, -, h⟩ := bind_ok h
  obtain rfl := Except.ok.inj h
  obtain ⟨hlen, hall⟩ := loadMembers_size hms
  have hfew : count ≤ 63 := by
    by_contra hgt
    simp [membersCountOk, hgt] at hcount
  have hsum : 0 + ms'.length * maxBlocks < 2 ^ 64 := by
    rw [hlen, maxBlocks]
    omega
  obtain ⟨hap, hlaid⟩ := layout_apart 0 0 hall hsum
  exact ⟨hap, fun m hm => (hlaid m hm).2.trans (by decide)⟩

/-- **Addresses and linear numbers.**  Whatever table was accepted, the members have
disjoint intervals of linear numbers; `linDva` takes the number of a member's block back to
the block, `dvaLin` takes the block of a number in an interval back to the number, and every
other number has no block. -/
theorem lin_bijective (env : Env) (version totalBlocks count : Nat) (entry : Nat → Entry)
    (h : membersLoad env version totalBlocks count entry = .ok ms)
    (hold : version < 4 → totalBlocks ≤ 2 ^ 56) :
    ms.Pairwise (fun m n => m.base + m.nblocks ≤ n.base) ∧
    (∀ d m, ms[dvaVdev d]? = some m → dvaBlk d < m.nblocks →
      ∃ l, m.base ≤ l ∧ l < m.base + m.nblocks ∧ dvaLin ms d = some l ∧ linDva ms l = some d) ∧
    (∀ l, ∀ m ∈ ms, m.base ≤ l → l < m.base + m.nblocks →
      ∃ d, linDva ms l = some d ∧ dvaLin ms d = some l) ∧
    ∀ l, (∀ m ∈ ms, l < m.base ∨ m.base + m.nblocks ≤ l) → linDva ms l = none := by
  obtain ⟨hap, hsize⟩ := membersLoad_ok h hold
  have hlin : ∀ d m, ms[dvaVdev d]? = some m → dvaBlk d < m.nblocks →
      dvaLin ms d = some (m.base + dvaBlk d) := by
    intro d m hm hb
    simp [dvaLin, hm, hb]
  refine ⟨hap.imp fun hmn => hmn.1, fun d m hm hb => ?_, fun l m hm hle hlt => ?_,
    fun l => linDvaFrom_none⟩
  · refine ⟨m.base + dvaBlk d, by omega, by omega, hlin d m hm hb, ?_⟩
    rw [linDva, linDvaFrom_of_mem hap hm (by omega) (by omega), Nat.add_sub_cancel_left]
    refine congrArg some (dva_ext ?_ ?_)
    · rw [dvaVdev_dvaOf, Nat.zero_add]
    · have := hsize m (List.mem_of_getElem? hm)
      rw [dvaBlk_dvaOf (by omega)]
  · obtain ⟨v, hv⟩ := List.getElem?_of_mem hm
    refine ⟨_, linDvaFrom_of_mem hap hv hle hlt, ?_⟩
    have hb : dvaBlk (dvaOf (0 + v) (l - m.base)) = l - m.base :=
      dvaBlk_dvaOf (by have := hsize m hm; omega)
    rw [hlin _ m (by rw [dvaVdev_dvaOf, Nat.zero_add]; exact hv) (by omega), hb,
      Nat.add_sub_cancel' hle]

/-- Two members, the first one block longer than a chunk. -/
def twoEntries (v : Nat) : Entry :=
  if v = 0 then ⟨bitsPerBitmap + 1, 2, 0, 0, 1⟩ else ⟨64, 1, 0, 0, 1⟩

def calmEnv : Env := ⟨.ok (), .ok (), fun _ => .ok (), fun _ => .ok (), fun _ => maxBlocks⟩

/-- The padding of the first member has no block, the second begins at the third chunk. -/
theorem lin_bijective_twoEntries :
    ∃ ms, membersLoad calmEnv 15 (bitsPerBitmap + 65) 2 twoEntries = .ok ms ∧
      linDva ms (bitsPerBitmap + 1) = none ∧
      ∃ d, linDva ms (2 * bitsPerBitmap) = some d ∧ dvaLin ms d = some (2 * bitsPerBitmap) := by
  refine ⟨_, rfl, ?_⟩
  obtain ⟨-, -, hin, hout⟩ := lin_bijective calmEnv 15 (bitsPerBitmap + 65) 2 twoEntries rfl
    (by decide)
  refine ⟨hout _ (by decide), hin _ _ (List.mem_cons_of_mem _ List.mem_cons_self) ?_ ?_⟩
  · decide
  · decide

end CosmoOS.Cosmofs.Members
