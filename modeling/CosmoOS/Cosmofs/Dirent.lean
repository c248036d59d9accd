import Mathlib.Data.List.Basic
import Mathlib.Logic.Function.Basic
import CosmoOS.Cosmofs.Directory

/-!
# Directory entries in a block

A directory block is 64 slots of 64 bytes.  An entry's head has its inode number, its type, the
length of its name, the number of its continuations and the first 48 bytes of the name; a
continuation is marked by an inode number no inode has and holds 56 bytes more.  The functions are
those of `cfsparse.cee` that read an entry and those of `cosmofs.cee` that find room for one and
write it.

`Cosmofs.Directory` has the same blocks as lists of items.  The two are tied by `Lays`: what a walk
from one slot to another meets.  Every reader walks a block in the same steps, and so sees the
items; an edit changes the slots of one item (`Lays.congr`).

Numbers of eight bytes are kept as numbers, the bytes of a slot behind them as bytes.
-/

namespace CosmoOS.Cosmofs

open Dir Function List

/-- A slot: its first eight bytes as a number, the others by their offset. -/
structure Slot where
  ino : Nat
  byte : Nat → UInt8

abbrev RawBlock := Nat → Slot

def zeroSlot : Slot := ⟨0, fun _ => 0⟩

namespace RawBlock

section

variable (b : RawBlock) (s ino : Nat) (kind : UInt8) (name : List UInt8)

def setIno : RawBlock :=
  update b s { b s with ino := ino }

def setByte (s i : Nat) (x : UInt8) : RawBlock :=
  update b s { b s with byte := update (b s).byte i x }

def nameLen (s : Nat) : Nat := ((b s).byte 9).toNat

def extra (s : Nat) : Nat := ((b s).byte 10).toNat

/-! ## Reading an entry -/

/-- `direntCheck`: the slots of the entry whose head is slot `s`, or 0 when it is none. -/
def direntCheck (s version : Nat) : Nat :=
  if 64 ≤ s then 0
  else if (b s).ino = 0 ∨ (b s).ino = direntCont ∨ b.nameLen s = 0 then 0
  else if nameMax version < b.nameLen s ∨ b.extra s ≠ direntExtra (b.nameLen s) then 0
  else if 64 ≤ s + b.extra s then 0
  else if ∀ k < b.extra s, (b (s + 1 + k)).ino = direntCont then 1 + b.extra s
  else 0

/-- Where the name's bytes from `n` on are: a slot, an offset in it and how many. -/
def segment (s n len : Nat) : Nat × Nat × Nat :=
  if n < 48 then (s, 16 + n, if len < 48 then len - n else 48 - n)
  else
    let k := (n - 48) / 56 + 1
    let i := (n - 48) % 56
    (s + k, 8 + i, if len - n < 56 - i then len - n else 56 - i)

def bytesAt (g : Nat × Nat × Nat) : List UInt8 :=
  (List.range g.2.2).map fun i => (b g.1).byte (g.2.1 + i)

/-- The name's bytes from `n` on, a segment at a time; `fuel` is enough when it is `len`. -/
def nameFrom (b : RawBlock) (s len : Nat) : Nat → Nat → List UInt8
  | 0, _ => []
  | fuel + 1, n =>
    if n < len then
      b.bytesAt (segment s n len) ++ nameFrom b s len fuel (n + (segment s n len).2.2)
    else []

/-- `cfs_dirent_name`: the checked entry's name. -/
def direntName (s : Nat) : List UInt8 := b.nameFrom s (b.nameLen s) (b.nameLen s) 0

/-- The comparison of `cfs_dirent_name_eq`, from byte `n` on. -/
def nameEqFrom (b : RawBlock) (s : Nat) (name : List UInt8) : Nat → Nat → Bool
  | 0, _ => true
  | fuel + 1, n =>
    if n < name.length then
      b.bytesAt (segment s n name.length) ==
          (name.drop n).take (segment s n name.length).2.2 &&
        nameEqFrom b s name fuel (n + (segment s n name.length).2.2)
    else true

def direntNameEq (s : Nat) (name : List UInt8) : Bool :=
  b.nameLen s = name.length && b.nameEqFrom s name name.length 0

/-- The entry a reader sees at a checked head. -/
def entry (s : Nat) : DirEntry := ⟨b.direntName s, (b s).ino, (b s).byte 8⟩

/-! ## Writing one -/

/-- `n` slots of zeros from slot `s` on. -/
def clear (s n : Nat) : RawBlock := fun t =>
  if s ≤ t ∧ t < s + n then zeroSlot else b t

/-- Bytes written one after another into slot `t`. -/
def putBytes (b : RawBlock) (t : Nat) : Nat → List UInt8 → RawBlock
  | _, [] => b
  | i, x :: xs => putBytes (b.setByte t i x) t (i + 1) xs

/-- `k` continuations from slot `t` on, with the rest of the name. -/
def putConts (b : RawBlock) (t : Nat) : Nat → List UInt8 → RawBlock
  | 0, _ => b
  | k + 1, rest =>
    putConts (((b.setIno t direntCont).putBytes t 8 (rest.take 56))) (t + 1) k (rest.drop 56)

/-- The head of an entry, in cleared slots. -/
def putHead : RawBlock :=
  (((((b.clear s (1 + direntExtra name.length)).setIno s ino).setByte s 8 kind).setByte s 9
    (UInt8.ofNat name.length)).setByte s 10 (UInt8.ofNat (direntExtra name.length))).putBytes s 16
    (name.take 48)

/-- `direntPut`: the entry for `name` at slot `s`, whose slots are free. -/
def direntPut : RawBlock :=
  (b.putHead s ino kind name).putConts (s + 1) (direntExtra name.length) (name.drop 48)

end

/-- `freeRun` from slot `s` on, `run` free slots before it. -/
def freeRunFrom (b : RawBlock) (need : Nat) : Nat → Nat → Nat → Option Nat
  | 0, _, _ => none
  | left + 1, s, run =>
    if (b s).ino = 0 then
      if run + 1 = need then some (s + 1 - need) else freeRunFrom b need left (s + 1) (run + 1)
    else freeRunFrom b need left (s + 1) 0

/-- `freeRun`: the first slot that starts `need` consecutive free slots. -/
def freeRun (b : RawBlock) (need : Nat) : Option Nat := b.freeRunFrom need 64 0 0

end RawBlock

/-! ## Names -/

namespace RawBlock

section

variable (b : RawBlock) (s : Nat) (name : List UInt8)

/-- Byte `i` of the name whose head is slot `s`. -/
def nameByte (s i : Nat) : UInt8 :=
  if i < 48 then (b s).byte (16 + i) else (b (s + 1 + (i - 48) / 56)).byte (8 + (i - 48) % 56)

/-- A segment has name bytes one after another, and not more than there are. -/
theorem bytesAt_segment {n len : Nat} (h : n < len) :
    0 < (segment s n len).2.2 ∧ n + (segment s n len).2.2 ≤ len ∧
      b.bytesAt (segment s n len) =
        (List.range' n (segment s n len).2.2).map (b.nameByte s) := by
  have hmap : ∀ {t o c : Nat}, (∀ i < c, (b t).byte (o + i) = b.nameByte s (n + i)) →
      b.bytesAt (t, o, c) = (List.range' n c).map (b.nameByte s) := by
    intro t o c hi
    rw [bytesAt, List.range'_eq_map_range, map_map]
    exact map_congr_left fun i hm => hi i (mem_range.mp hm)
  rw [segment]
  split
  · rename_i hn
    refine ⟨?_, ?_, hmap fun i hi => ?_⟩
    · show 0 < if len < 48 then len - n else 48 - n
      split <;> omega
    · show n + (if len < 48 then len - n else 48 - n) ≤ len
      split <;> omega
    · have hlt : n + i < 48 := by
        split at hi <;> omega
      rw [nameByte, if_pos hlt, Nat.add_assoc]
  · rename_i hn
    refine ⟨?_, ?_, hmap fun i hi => ?_⟩
    · show 0 < if len - n < 56 - (n - 48) % 56 then len - n else 56 - (n - 48) % 56
      split <;> omega
    · show n + (if len - n < 56 - (n - 48) % 56 then len - n else 56 - (n - 48) % 56) ≤ len
      split <;> omega
    · have hlt : (n - 48) % 56 + i < 56 := by
        split at hi <;> omega
      have hdiv : (n + i - 48) / 56 = (n - 48) / 56 := by omega
      have hmod : (n + i - 48) % 56 = (n - 48) % 56 + i := by omega
      rw [nameByte, if_neg (by omega), hdiv, hmod, Nat.add_assoc 8, Nat.add_comm _ 1,
        Nat.add_assoc s]

theorem nameFrom_eq (s len : Nat) {fuel n : Nat} (h : len - n ≤ fuel) :
    b.nameFrom s len fuel n = (List.range' n (len - n)).map (b.nameByte s) := by
  induction fuel generalizing n with
  | zero => rw [show len - n = 0 by omega]; rfl
  | succ fuel ih =>
    rw [nameFrom]
    split
    · rename_i hn
      obtain ⟨hpos, hle, hseg⟩ := b.bytesAt_segment s hn
      rw [hseg, ih (by omega), ← map_append, List.range'_append_1]
      congr 2
      omega
    · rw [show len - n = 0 by omega]
      rfl

theorem direntName_eq : b.direntName s = (List.range' 0 (b.nameLen s)).map (b.nameByte s) :=
  b.nameFrom_eq s (b.nameLen s) (by omega)

theorem direntName_length : (b.direntName s).length = b.nameLen s := by
  rw [direntName_eq, length_map, length_range']

theorem nameEqFrom_iff {fuel n : Nat} (h : name.length - n ≤ fuel) :
    b.nameEqFrom s name fuel n = true ↔
      (List.range' n (name.length - n)).map (b.nameByte s) = name.drop n := by
  induction fuel generalizing n with
  | zero =>
    rw [show name.length - n = 0 by omega, drop_eq_nil_of_le (by omega)]
    exact ⟨fun _ => rfl, fun _ => rfl⟩
  | succ fuel ih =>
    rw [nameEqFrom]
    split
    · rename_i hn
      obtain ⟨hpos, hle, hseg⟩ := b.bytesAt_segment s hn
      generalize (segment s n name.length).2.2 = c at hpos hle hseg
      -- the segment and the rest, on either side
      have hleft : List.range' n (name.length - n) =
          List.range' n c ++ List.range' (n + c) (name.length - (n + c)) := by
        rw [List.range'_append_1]
        congr 1
        omega
      have hright : name.drop n = (name.drop n).take c ++ name.drop (n + c) := by
        rw [← drop_drop, take_append_drop]
      have hlen : ((List.range' n c).map (b.nameByte s)).length =
          ((name.drop n).take c).length := by
        rw [length_map, length_range', length_take, length_drop]
        omega
      rw [Bool.and_eq_true, beq_iff_eq, ih (by omega), hseg, hleft, map_append]
      exact ⟨fun ⟨h1, h2⟩ => by rw [h1, h2]; exact hright.symm,
        fun heq => append_inj (heq.trans hright) hlen⟩
    · rw [show name.length - n = 0 by omega, drop_eq_nil_of_le (by omega)]
      exact ⟨fun _ => rfl, fun _ => rfl⟩

theorem direntNameEq_iff : b.direntNameEq s name = true ↔ b.direntName s = name := by
  rw [direntNameEq, Bool.and_eq_true, decide_eq_true_eq, b.nameEqFrom_iff s name (by omega)]
  constructor
  · rintro ⟨hlen, heq⟩
    rw [direntName_eq, hlen]
    exact heq
  · intro heq
    have hlen : b.nameLen s = name.length := by rw [← heq, direntName_length]
    refine ⟨hlen, ?_⟩
    rw [direntName_eq, hlen] at heq
    exact heq

end

end RawBlock

/-! ## What a put entry reads as -/

namespace RawBlock

variable {b : RawBlock} {s t : Nat}

@[simp] theorem setIno_self (b : RawBlock) (s ino : Nat) :
    b.setIno s ino s = { b s with ino := ino } := update_self _ _ _

theorem setIno_of_ne {ino : Nat} (h : t ≠ s) : b.setIno s ino t = b t :=
  update_of_ne h _ _

@[simp] theorem setByte_self (b : RawBlock) (s i : Nat) (x : UInt8) :
    b.setByte s i x s = { b s with byte := update (b s).byte i x } :=
  update_self _ _ _

variable {i k : Nat} {xs : List UInt8}

theorem setByte_of_ne {x : UInt8} (h : t ≠ s) : b.setByte s i x t = b t :=
  update_of_ne h _ _

theorem putBytes_of_ne (h : t ≠ s) : b.putBytes s i xs t = b t := by
  induction xs generalizing b i with
  | nil => rfl
  | cons x xs ih =>
    rw [putBytes, ih]
    exact setByte_of_ne h

theorem putBytes_ino (b : RawBlock) (s i : Nat) (xs : List UInt8) :
    (b.putBytes s i xs s).ino = (b s).ino := by
  induction xs generalizing b i with
  | nil => rfl
  | cons x xs ih =>
    rw [putBytes, ih, setByte_self]

theorem putBytes_before {j : Nat} (h : j < i) :
    (b.putBytes s i xs s).byte j = (b s).byte j := by
  induction xs generalizing b i with
  | nil => rfl
  | cons x xs ih =>
    rw [putBytes, ih (by omega), setByte_self]
    exact update_of_ne (by omega) _ _

theorem putBytes_at (h : k < xs.length) :
    (b.putBytes s i xs s).byte (i + k) = xs.getD k 0 := by
  induction xs generalizing b i k with
  | nil => cases h
  | cons x xs ih =>
    rw [putBytes]
    cases k with
    | zero =>
      rw [putBytes_before (by omega), setByte_self]
      exact update_self _ _ _
    | succ k =>
      rw [show i + (k + 1) = i + 1 + k by omega, ih (by simpa using h)]
      rfl

theorem putConts_of_ne {rest : List UInt8} (h : t < s ∨ s + k ≤ t) :
    b.putConts s k rest t = b t := by
  induction k generalizing b s rest with
  | zero => rfl
  | succ k ih =>
    rw [putConts, ih (by omega), putBytes_of_ne (by omega), setIno_of_ne (by omega)]

/-- A continuation is marked and has its part of the name. -/
theorem putConts_at {j : Nat} {rest : List UInt8} (h : j < k) :
    (b.putConts s k rest (s + j)).ino = direntCont ∧
      ∀ i < 56, 56 * j + i < rest.length →
        (b.putConts s k rest (s + j)).byte (8 + i) = rest.getD (56 * j + i) 0 := by
  induction k generalizing b s rest j with
  | zero => exact absurd h (by omega)
  | succ k ih =>
    rw [putConts]
    cases j with
    | zero =>
      rw [show s + 0 = s from rfl, putConts_of_ne (.inl (by omega)), putBytes_ino, setIno_self]
      refine ⟨rfl, fun i hi hlen => ?_⟩
      have hk : i < (rest.take 56).length := by
        rw [length_take]
        omega
      rw [putBytes_at hk, Nat.mul_zero, Nat.zero_add, getD_eq_getElem?_getD,
        getD_eq_getElem?_getD, List.getElem?_take_of_lt hi]
    | succ j =>
      obtain ⟨hino, hbytes⟩ : _ ∧ ∀ i < 56, 56 * j + i < (rest.drop 56).length → _ :=
        ih (b := (b.setIno s direntCont).putBytes s 8 (rest.take 56)) (s := s + 1) (j := j)
          (by omega)
      rw [show s + (j + 1) = s + 1 + j by omega]
      refine ⟨hino, fun i hi hlen => ?_⟩
      rw [hbytes i hi (by rw [length_drop]; omega), getD_eq_getElem?_getD,
        getD_eq_getElem?_getD, List.getElem?_drop]
      congr 2
      omega

theorem direntExtra_le {len : Nat} (h : len ≤ 255) : direntExtra len ≤ 4 := by
  rw [direntExtra]
  split <;> omega

section Put

variable {ino version : Nat} {kind : UInt8} {name : List UInt8}

theorem direntPut_of_ne (h : t < s ∨ s + 1 + direntExtra name.length ≤ t) :
    b.direntPut s ino kind name t = b t := by
  have hne : t ≠ s := by omega
  have hclear : b.clear s (1 + direntExtra name.length) t = b t := if_neg (by omega)
  rw [direntPut, putConts_of_ne (by omega), putHead, putBytes_of_ne hne, setByte_of_ne hne,
    setByte_of_ne hne, setByte_of_ne hne, setIno_of_ne hne, hclear]

theorem direntPut_head (b : RawBlock) (s ino : Nat) (kind : UInt8) (h : name.length ≤ 255) :
    (b.direntPut s ino kind name s).ino = ino ∧
      (b.direntPut s ino kind name s).byte 8 = kind ∧
      (b.direntPut s ino kind name).nameLen s = name.length ∧
      (b.direntPut s ino kind name).extra s = direntExtra name.length ∧
      ∀ i < 48, i < name.length → (b.direntPut s ino kind name s).byte (16 + i) =
        name.getD i 0 := by
  have hself : b.direntPut s ino kind name s = b.putHead s ino kind name s :=
    putConts_of_ne (.inl (Nat.lt_succ_self s))
  have hextra := direntExtra_le h
  have hlow : ∀ j < 16, (b.putHead s ino kind name s).byte j =
      (((((b.clear s (1 + direntExtra name.length)).setIno s ino).setByte s 8 kind).setByte s 9
        (UInt8.ofNat name.length)).setByte s 10 (UInt8.ofNat (direntExtra name.length)) s).byte j :=
    fun j hj => putBytes_before hj
  refine ⟨?_, ?_, ?_, ?_, fun i hi hlen => ?_⟩
  · rw [hself, putHead, putBytes_ino, setByte_self, setByte_self, setByte_self, setIno_self]
  · rw [hself, hlow 8 (by omega), setByte_self, setByte_self, setByte_self]
    simp [update_of_ne]
  · rw [nameLen, hself, hlow 9 (by omega), setByte_self, setByte_self, setByte_self]
    simp only [ne_eq, Nat.reduceEqDiff, not_false_eq_true, update_of_ne,
      update_self, UInt8.toNat_ofNat']
    omega
  · rw [extra, hself, hlow 10 (by omega), setByte_self]
    simp only [update_self, UInt8.toNat_ofNat']
    omega
  · rw [hself, putHead, putBytes_at (by rw [length_take]; omega), getD_eq_getElem?_getD,
      getD_eq_getElem?_getD, List.getElem?_take_of_lt hi]

/-- **A put entry reads back.** -/
theorem direntPut_entry (b : RawBlock) (kind : UInt8) (hpos : name.length ≠ 0)
    (hmax : name.length ≤ nameMax version)
    (hino : ino ≠ 0) (hcont : ino ≠ direntCont) (hs : s + direntExtra name.length < 64) :
    (b.direntPut s ino kind name).direntCheck s version = 1 + direntExtra name.length ∧
      (b.direntPut s ino kind name).entry s = ⟨name, ino, kind⟩ := by
  have hlen : name.length ≤ 255 := by
    rw [nameMax] at hmax
    split at hmax <;> omega
  obtain ⟨h1, h2, h3, h4, h5⟩ := direntPut_head b s ino kind hlen
  -- the continuations hold the name from byte 48 on
  have hconts : ∀ k < direntExtra name.length,
      (b.direntPut s ino kind name (s + 1 + k)).ino = direntCont ∧ ∀ i < 56,
        56 * k + i < (name.drop 48).length →
          (b.direntPut s ino kind name (s + 1 + k)).byte (8 + i) =
            (name.drop 48).getD (56 * k + i) 0 := fun k hk => putConts_at hk
  have hbyte : ∀ i < name.length, (b.direntPut s ino kind name).nameByte s i = name.getD i 0 := by
    intro i hi
    rw [nameByte]
    split
    · rename_i hlow
      exact h5 i hlow hi
    · have hk : (i - 48) / 56 < direntExtra name.length := by
        rw [direntExtra, if_neg (by omega)]
        omega
      rw [(hconts _ hk).2 _ (by omega) (by rw [length_drop]; omega),
        getD_eq_getElem?_getD, getD_eq_getElem?_getD, List.getElem?_drop]
      congr 2
      omega
  constructor
  · rw [direntCheck, if_neg (by omega), h1, h3, h4, if_neg (by omega),
      if_neg (by simp only [ne_eq, not_true, or_false]; omega), if_neg (by omega),
      if_pos fun k hk => (hconts k hk).1]
  · rw [entry, h1, h2]
    congr 1
    rw [direntName_eq, h3]
    refine ext_getElem (by simp) fun i hi hi' => ?_
    rw [getElem_map, getElem_range', Nat.zero_add, Nat.one_mul, hbyte i hi',
      getD_eq_getElem?_getD, List.getElem?_eq_getElem hi', Option.getD_some]

end Put

end RawBlock

/-! ## What a walk meets -/

/-- A walk from slot `s` to slot `t` of the block meets these items. -/
inductive Lays (version : Nat) (b : RawBlock) : Nat → Nat → List Item → Prop
  | nil (s : Nat) : Lays version b s s []
  | free {s t : Nat} {is : List Item} (hs : s < 64) (h : (b s).ino = 0)
      (rest : Lays version b (s + 1) t is) : Lays version b s t (.free :: is)
  | junk {s t : Nat} {is : List Item} (hs : s < 64) (h : (b s).ino ≠ 0)
      (hc : b.direntCheck s version = 0) (rest : Lays version b (s + 1) t is) :
      Lays version b s t (.junk :: is)
  | head {s t : Nat} {is : List Item} (hc : b.direntCheck s version ≠ 0)
      (rest : Lays version b (s + b.direntCheck s version) t is) :
      Lays version b s t (.head (b.entry s) :: is)

namespace RawBlock

/-- The items from slot `s` on. -/
def itemsFrom (version : Nat) (b : RawBlock) : Nat → Nat → List Item
  | 0, _ => []
  | fuel + 1, s =>
    if 64 ≤ s then []
    else if (b s).ino = 0 then .free :: itemsFrom version b fuel (s + 1)
    else if b.direntCheck s version = 0 then .junk :: itemsFrom version b fuel (s + 1)
    else .head (b.entry s) :: itemsFrom version b fuel (s + b.direntCheck s version)

def items (version : Nat) (b : RawBlock) : DirBlock := b.itemsFrom version 64 0

/-- What an accepted head is. -/
theorem direntCheck_spec {b : RawBlock} {s version : Nat} (h : b.direntCheck s version ≠ 0) :
    s + b.extra s < 64 ∧ (b s).ino ≠ 0 ∧ (b s).ino ≠ direntCont ∧ b.nameLen s ≠ 0 ∧
      b.nameLen s ≤ nameMax version ∧ b.extra s = direntExtra (b.nameLen s) ∧
      (∀ k < b.extra s, (b (s + 1 + k)).ino = direntCont) ∧
      b.direntCheck s version = 1 + b.extra s := by
  rw [direntCheck] at h ⊢
  split at h
  · exact absurd rfl h
  split at h
  · exact absurd rfl h
  split at h
  · exact absurd rfl h
  split at h
  · exact absurd rfl h
  split at h
  · rename_i h1 h2 h3 h4 h5
    rw [not_or, not_or] at h2
    rw [not_or, not_not] at h3
    rw [if_neg h1, if_neg (by rw [not_or, not_or]; exact h2),
      if_neg (by rw [not_or, not_not]; exact h3), if_neg h4, if_pos h5]
    exact ⟨by omega, h2.1, h2.2.1, h2.2.2, by omega, h3.2, h5, rfl⟩
  · exact absurd rfl h

theorem direntCheck_congr {b b' : RawBlock} {s version : Nat} (h : b.direntCheck s version ≠ 0)
    (heq : ∀ t, s ≤ t → t < s + b.direntCheck s version → b' t = b t) :
    b'.direntCheck s version = b.direntCheck s version ∧ b'.entry s = b.entry s := by
  obtain ⟨h1, h2, h3, h4, h5, h6, h7, h8⟩ := direntCheck_spec h
  have hs : b' s = b s := heq s (by omega) (by omega)
  have hlen : b'.nameLen s = b.nameLen s := by rw [nameLen, nameLen, hs]
  have hex : b'.extra s = b.extra s := by rw [extra, extra, hs]
  have hname : b'.direntName s = b.direntName s := by
    rw [direntName_eq, direntName_eq, hlen]
    refine map_congr_left fun i hi => ?_
    have hi : i < b.nameLen s := by simpa using hi
    rw [nameByte, nameByte]
    split
    · rw [hs]
    · have hk : (i - 48) / 56 < b.extra s := by
        rw [h6, direntExtra, if_neg (by omega)]
        omega
      rw [heq _ (by omega) (by omega)]
  constructor
  · rw [direntCheck, direntCheck, hlen, hex, hs]
    congr 4
    refine if_congr ?_ rfl rfl
    exact ⟨fun h k hk => by rw [← heq _ (by omega) (by omega)]; exact h k hk,
      fun h k hk => by rw [heq _ (by omega) (by omega)]; exact h k hk⟩
  · rw [entry, entry, hname, hs]

end RawBlock

section Lays

variable {version s t u : Nat} {b b' : RawBlock} {is js : List Item}

theorem Lays.le (h : Lays version b s t is) : s ≤ t := by
  induction h with
  | nil => exact Nat.le_refl _
  | free hs _ _ ih => omega
  | junk hs _ _ _ ih => omega
  | head hc _ ih => omega

theorem Lays.append (h : Lays version b s t is) (g : Lays version b t u js) :
    Lays version b s u (is ++ js) := by
  induction h with
  | nil => exact g
  | free hs h0 _ ih => exact .free hs h0 (ih g)
  | junk hs h0 hc _ ih => exact .junk hs h0 hc (ih g)
  | head hc _ ih => exact .head hc (ih g)

theorem Lays.congr (h : Lays version b s t is) (hb : ∀ i, s ≤ i → i < t → b' i = b i)
    (hjunk : Item.junk ∉ is) : Lays version b' s t is := by
  induction h with
  | nil s => exact .nil s
  | @free s t is hs h0 rest ih =>
    have hle := rest.le
    refine .free hs (by rw [hb s (by omega) (by omega)]; exact h0)
      (ih (fun i hi hit => hb i (by omega) hit) fun hm => hjunk (by simp [hm]))
  | junk hs h0 hc rest ih => exact absurd (by simp) hjunk
  | @head s t is hc rest ih =>
    have hle := rest.le
    have hsame : ∀ i, s ≤ i → i < s + b.direntCheck s version → b' i = b i :=
      fun i hi hit => hb i hi (by omega)
    obtain ⟨hcheck, hentry⟩ := RawBlock.direntCheck_congr hc hsame
    rw [← hentry]
    rw [← hcheck] at hc rest ih hle
    exact .head hc (ih (fun i hi hit => hb i (by omega) hit) fun hm => hjunk (by simp [hm]))

/-- The items of a block are what the walk over it meets. -/
theorem RawBlock.lays_itemsFrom (version : Nat) (b : RawBlock) {fuel s : Nat}
    (hf : 64 ≤ s + fuel) (hs : s ≤ 64) : Lays version b s 64 (b.itemsFrom version fuel s) := by
  induction fuel generalizing s with
  | zero =>
    obtain rfl : s = 64 := by omega
    exact .nil 64
  | succ fuel ih =>
    rw [RawBlock.itemsFrom]
    split
    · obtain rfl : s = 64 := by omega
      exact .nil 64
    split
    · exact .free (by omega) ‹_› (ih (by omega) (by omega))
    split
    · exact .junk (by omega) ‹_› ‹_› (ih (by omega) (by omega))
    · rename_i hc
      obtain ⟨hlt, -, -, -, -, -, -, heq⟩ := RawBlock.direntCheck_spec hc
      exact .head hc (ih (by omega) (by omega))

theorem RawBlock.lays_items (version : Nat) (b : RawBlock) :
    Lays version b 0 64 (b.items version) :=
  b.lays_itemsFrom version (by omega) (by omega)

theorem Lays.unique (h : Lays version b s t is) (g : Lays version b s t js) : is = js := by
  induction h generalizing js with
  | nil s =>
    cases g with
    | nil => rfl
    | free hs h0 rest | junk hs h0 hc rest | head hc rest => exact absurd rest.le (by omega)
  | free hs h0 rest ih =>
    cases g with
    | nil => exact absurd rest.le (by omega)
    | free _ _ rest' => rw [ih rest']
    | junk _ h0' _ _ => exact absurd h0 h0'
    | head hc _ => exact absurd h0 (RawBlock.direntCheck_spec hc).2.1
  | junk hs h0 hc rest ih =>
    cases g with
    | nil => exact absurd rest.le (by omega)
    | free _ h0' _ => exact absurd h0' h0
    | junk _ _ _ rest' => rw [ih rest']
    | head hc' _ => exact absurd hc hc'
  | head hc rest ih =>
    cases g with
    | nil => exact absurd rest.le (by omega)
    | free _ h0 _ => exact absurd h0 (RawBlock.direntCheck_spec hc).2.1
    | junk _ _ hc' _ => exact absurd hc' hc
    | head _ rest' => rw [ih rest']

theorem Lays.items_eq (h : Lays version b 0 64 is) : b.items version = is :=
  (b.lays_items version).unique h

end Lays

/-! ## Free slots, and edits -/

section Edit

variable {version s t u : Nat} {b : RawBlock} {is : List Item}

section

variable {n : Nat} (h : Lays version b s t is)

include h

/-- A free slot is an item of its own: no entry goes over it. -/
theorem Lays.split_free (hu : s ≤ u) (hut : u < t) (h0 : (b u).ino = 0) :
    ∃ x y, is = x ++ .free :: y ∧ Lays version b s u x ∧ Lays version b (u + 1) t y := by
  induction h with
  | nil => omega
  | @free s t is hs hz rest ih =>
    by_cases heq : u = s
    · subst heq
      exact ⟨[], is, rfl, .nil u, rest⟩
    · obtain ⟨x, y, rfl, hx, hy⟩ := ih (by omega) hut
      exact ⟨.free :: x, y, rfl, .free hs hz hx, hy⟩
  | @junk s t is hs hz hc rest ih =>
    have hne : u ≠ s := fun heq => hz (heq ▸ h0)
    obtain ⟨x, y, rfl, hx, hy⟩ := ih (by omega) hut
    exact ⟨.junk :: x, y, rfl, .junk hs hz hc hx, hy⟩
  | @head s t is hc rest ih =>
    obtain ⟨h1, h2, -, -, -, -, h7, h8⟩ := RawBlock.direntCheck_spec hc
    -- the head and its continuations are not free
    have hbehind : s + b.direntCheck s version ≤ u := by
      by_contra hlt
      by_cases heq : u = s
      · exact h2 (heq ▸ h0)
      · have hk := h7 (u - s - 1) (by omega)
        rw [show s + 1 + (u - s - 1) = u by omega, h0] at hk
        cases hk
    obtain ⟨x, y, rfl, hx, hy⟩ := ih hbehind hut
    exact ⟨.head (b.entry s) :: x, y, rfl, .head hc hx, hy⟩

theorem Lays.run_free (hn : s + n ≤ t) (h0 : ∀ i < n, (b (s + i)).ino = 0) :
    ∃ y, is = List.replicate n .free ++ y ∧ Lays version b (s + n) t y := by
  induction n generalizing s is with
  | zero => exact ⟨is, rfl, h⟩
  | succ n ih =>
    have hz : (b s).ino = 0 := h0 0 (Nat.succ_pos n)
    cases h with
    | nil => omega
    | free hs _ rest =>
      obtain ⟨y, rfl, hy⟩ := ih rest (by omega) fun i hi => by
        rw [show s + 1 + i = s + (i + 1) by omega]
        exact h0 (i + 1) (by omega)
      refine ⟨y, rfl, ?_⟩
      rw [show s + (n + 1) = s + 1 + n by omega]
      exact hy
    | junk hs hne _ _ => exact absurd hz hne
    | head hc _ => exact absurd hz (RawBlock.direntCheck_spec hc).2.1

/-- Consecutive free slots, and what is around them. -/
theorem Lays.split_run (hu : s ≤ u) (hn : 0 < n) (hut : u + n ≤ t)
    (h0 : ∀ i < n, (b (u + i)).ino = 0) :
    ∃ x y, is = x ++ List.replicate n .free ++ y ∧ Lays version b s u x ∧
      Lays version b (u + n) t y := by
  obtain ⟨x, y, rfl, hx, hy⟩ := h.split_free hu (by omega) (h0 0 hn)
  obtain ⟨n, rfl⟩ : ∃ m, n = m + 1 := ⟨n - 1, by omega⟩
  obtain ⟨z, rfl, hz⟩ := hy.run_free (n := n) (by omega) fun i hi => by
    rw [show u + 1 + i = u + (i + 1) by omega]
    exact h0 (i + 1) (by omega)
  refine ⟨x, z, by simp [replicate_succ], hx, ?_⟩
  rw [show u + (n + 1) = u + 1 + n by omega]
  exact hz

end

theorem RawBlock.freeRunFrom_some {need left run p : Nat} (hrun : run ≤ s)
    (h0 : ∀ i < run, (b (s - run + i)).ino = 0) (h : b.freeRunFrom need left s run = some p) :
    p + need ≤ s + left ∧ ∀ i < need, (b (p + i)).ino = 0 := by
  induction left generalizing s run with
  | zero => exact absurd h (by simp [RawBlock.freeRunFrom])
  | succ left ih =>
    rw [RawBlock.freeRunFrom] at h
    split at h
    · rename_i hz
      have hrun' : ∀ i < run + 1, (b (s + 1 - (run + 1) + i)).ino = 0 := by
        intro i hi
        by_cases heq : i = run
        · rw [heq, show s + 1 - (run + 1) + run = s by omega]
          exact hz
        · rw [show s + 1 - (run + 1) = s - run by omega]
          exact h0 i (by omega)
      split at h
      · rename_i hneed
        obtain rfl : s + 1 - need = p := by simpa using h
        subst hneed
        exact ⟨by omega, hrun'⟩
      · obtain ⟨hle, hall⟩ := ih (by omega) hrun' h
        exact ⟨by omega, hall⟩
    · obtain ⟨hle, hall⟩ := ih (by omega) (fun i hi => absurd hi (by omega)) h
      exact ⟨by omega, hall⟩

theorem RawBlock.freeRun_some {need p : Nat} (h : b.freeRun need = some p) :
    p + need ≤ 64 ∧ ∀ i < need, (b (p + i)).ino = 0 := by
  obtain ⟨hle, h0⟩ := RawBlock.freeRunFrom_some (Nat.zero_le 0) (fun i hi => absurd hi (by omega)) h
  exact ⟨by omega, h0⟩

/-- **An entry put into free slots** is an item where they were. -/
theorem RawBlock.items_put {ino p : Nat} (kind : UInt8) {name : List UInt8}
    (hjunk : Item.junk ∉ b.items version)
    (h : b.freeRun (1 + direntExtra name.length) = some p) (hpos : name.length ≠ 0)
    (hmax : name.length ≤ nameMax version) (hino : ino ≠ 0) (hcont : ino ≠ direntCont) :
    ∃ x y, b.items version = x ++ List.replicate (1 + direntExtra name.length) .free ++ y ∧
      (b.direntPut p ino kind name).items version = x ++ .head ⟨name, ino, kind⟩ :: y := by
  obtain ⟨hle, h0⟩ := RawBlock.freeRun_some h
  obtain ⟨x, y, heq, hx, hy⟩ :=
    (b.lays_items version).split_run (Nat.zero_le p) (by omega) hle h0
  rw [heq] at hjunk
  obtain ⟨hcheck, hentry⟩ := RawBlock.direntPut_entry b kind hpos hmax hino hcont
    (show p + direntExtra name.length < 64 by omega)
  refine ⟨x, y, heq, Lays.items_eq ?_⟩
  have hx' : Lays version (b.direntPut p ino kind name) 0 p x :=
    hx.congr (fun i _ hi => RawBlock.direntPut_of_ne (.inl hi)) fun hm => hjunk (by simp [hm])
  have hy' : Lays version (b.direntPut p ino kind name) (p + (1 + direntExtra name.length)) 64 y :=
    hy.congr (fun i hi _ => RawBlock.direntPut_of_ne (.inr (by omega))) fun hm =>
      hjunk (by simp [hm])
  rw [← hcheck] at hy'
  rw [← hentry]
  exact hx'.append (.head (by rw [hcheck]; omega) hy')

theorem Lays.of_free {n : Nat} (hs : s + n ≤ 64) (h0 : ∀ i < n, (b (s + i)).ino = 0) :
    Lays version b s (s + n) (List.replicate n .free) := by
  induction n generalizing s with
  | zero => exact .nil s
  | succ n ih =>
    refine .free (by omega) (h0 0 (Nat.succ_pos n)) ?_
    rw [show s + (n + 1) = s + 1 + n by omega]
    refine ih (by omega) fun i hi => ?_
    rw [show s + 1 + i = s + (i + 1) by omega]
    exact h0 (i + 1) (by omega)

/-- **An entry cleared** leaves free slots where it was. -/
theorem Lays.clear {x y : List Item} (hx : Lays version b 0 s x)
    (hc : b.direntCheck s version ≠ 0)
    (hy : Lays version b (s + b.direntCheck s version) 64 y) (hjunk : Item.junk ∉ x ++ y) :
    (b.clear s (1 + b.extra s)).items version =
      x ++ List.replicate (b.direntCheck s version) .free ++ y := by
  obtain ⟨h1, -, -, -, -, -, -, h8⟩ := RawBlock.direntCheck_spec hc
  rw [h8] at hy ⊢
  have hx' : Lays version (b.clear s (1 + b.extra s)) 0 s x :=
    hx.congr (fun i _ hi => if_neg (by omega)) fun hm => hjunk (by simp [hm])
  have hy' : Lays version (b.clear s (1 + b.extra s)) (s + (1 + b.extra s)) 64 y :=
    hy.congr (fun i hi _ => if_neg (by omega)) fun hm => hjunk (by simp [hm])
  refine Lays.items_eq ((hx'.append (.of_free (by omega) fun i hi => ?_)).append hy')
  rw [RawBlock.clear, if_pos (by omega)]
  rfl

end Edit

end CosmoOS.Cosmofs
