import Mathlib.Algebra.Group.Nat.Defs
import Mathlib.Data.List.Basic

/-!
# Directory blocks

A directory is a list of blocks of slots.  An entry takes one slot, and one more for each 56 bytes
of a name over 48, consecutive and in one block.  Here a block is the list of what its slots hold: a
free slot, an entry (its head and its continuations together), or a slot no reader accepts.  Whether
an entry is accepted depends on the pool's version (`direntCheck`).

`locate` is what a scan for a name finds; `Found` remembers the block around the entry, as the
buffer of `cfs_dir_find` does.  What an edit does to the entries is said once for each of the three:
an entry repointed, removed (`Found.In.entries`), or put into free slots (`Slotted`).
-/

namespace CosmoOS.Cosmofs.Dir

open List

variable {i : Nat}

/-! ## Entries and blocks -/

inductive Kind
  | reg
  | dir
  | lnk
  deriving DecidableEq, Repr

/-- The type byte of an entry for an inode of this kind (`CFS_TYPE_*`). -/
def cfsType : Kind → UInt8
  | .reg => 1
  | .dir => 2
  | .lnk => 3

theorem cfsType_inj {a b : Kind} (h : cfsType a = cfsType b) : a = b := by
  revert h
  cases a <;> cases b <;> decide

structure DirEntry where
  name : List UInt8
  ino : Nat
  kind : UInt8
  deriving DecidableEq, Repr

/-- What a directory block holds, slot by slot; an entry's slots are one item. -/
inductive Item
  | free
  | junk
  | head (e : DirEntry)
  deriving DecidableEq, Repr

abbrev DirBlock := List Item

variable {post : List DirBlock}

/-- The inode number that marks a continuation slot. -/
def direntCont : Nat := 2 ^ 64 - 1

/-- The continuations a name of `len` bytes needs. -/
def direntExtra (len : Nat) : Nat := if len ≤ 48 then 0 else (len - 48 + 56 - 1) / 56

section

variable (version : Nat) (bs : List DirBlock) (f : Found)

/-- The longest name of a pool of this version. -/
def nameMax : Nat := if 15 ≤ version then 255 else 47

/-- The slots of the entry, or 0 when a pool of `version` has no such entry. -/
def direntCheck (e : DirEntry) : Nat :=
  if e.ino = 0 ∨ e.ino = direntCont ∨ e.name.length = 0 ∨ nameMax version < e.name.length then 0
  else 1 + direntExtra e.name.length

/-- The entry a reader sees in an item. -/
def entryAt : Item → Option DirEntry
  | .head e => if direntCheck version e = 0 then none else some e
  | _ => none

def entriesIn (b : DirBlock) : List DirEntry := b.filterMap (entryAt version)

/-- The entries of a directory, in the order a scan meets them. -/
def entriesOf : List DirEntry :=
  bs.flatMap (entriesIn version)

/-- What `name` is in the directory: the inode number and the entry's type. -/
def nameMap (name : List UInt8) : Option (Nat × UInt8) :=
  ((entriesOf version bs).find? fun e => e.name = name).map fun e => (e.ino, e.kind)

/-- The first `need` consecutive free slots: what comes before them and after them.
`run` counts the free slots since `seen`. -/
def freeRun (need : Nat) : Nat → List Item → DirBlock → Option (List Item × List Item)
  | _, _, [] => none
  | run, seen, .free :: rest =>
    if run + 1 = need then some (seen, rest) else freeRun need (run + 1) seen rest
  | run, seen, i :: rest => freeRun need 0 (seen ++ List.replicate run .free ++ [i]) rest

def zeroBlock : DirBlock := List.replicate 64 .free

/-- Where `cfs_dir_find` found an entry: the block, and what the block holds around it. -/
structure Found where
  lblk : Nat
  before : List Item
  entry : DirEntry
  after : List Item

/-- The block the entry was found in. -/
def Found.block : DirBlock := f.before ++ .head f.entry :: f.after

/-- The entry pointed at `ino` of type `kind`. -/
def Found.repoint (ino : Nat) (kind : UInt8) : Found :=
  { f with entry := { f.entry with ino := ino, kind := kind } }

/-- The block with the entry's slots free. -/
def Found.removed : DirBlock :=
  f.before ++ List.replicate (1 + direntExtra f.entry.name.length) .free ++ f.after

/-- The first entry of the block named `name`. -/
def findIn (version : Nat) (name : List UInt8) (lblk : Nat) : List Item → DirBlock → Option Found
  | _, [] => none
  | seen, i :: rest =>
    match entryAt version i with
    | some e =>
      if e.name = name then some ⟨lblk, seen, e, rest⟩
      else findIn version name lblk (seen ++ [i]) rest
    | none => findIn version name lblk (seen ++ [i]) rest

/-- The directory's blocks with block `lblk` replaced, or added at the end. -/
def putBlock (lblk : Nat) (b : DirBlock) : List DirBlock :=
  if lblk < bs.length then bs.set lblk b else bs ++ [b]

end

/-! ## Scanning a block -/

variable {b seen : List Item} {v w k : Nat} {e : DirEntry} {bs pre : List DirBlock}
    {name : List UInt8} {f : Found}

theorem entryAt_eq_some {i : Item} (h : entryAt v i = some e) :
    i = .head e ∧ direntCheck v e ≠ 0 := by
  cases i with
  | free => exact absurd h (by simp [entryAt])
  | junk => exact absurd h (by simp [entryAt])
  | head x =>
    by_cases hx : direntCheck v x = 0
    · exact absurd h (by simp [entryAt, hx])
    · obtain rfl : x = e := by simpa [entryAt, hx] using h
      exact ⟨rfl, hx⟩

theorem entryAt_head (h : direntCheck v e ≠ 0) :
    entryAt v (.head e) = some e := by
  simp [entryAt, h]

theorem entriesIn_append (v : Nat) (x y : List Item) :
    entriesIn v (x ++ y) = entriesIn v x ++ entriesIn v y :=
  filterMap_append

theorem entriesIn_free (v n : Nat) : entriesIn v (List.replicate n .free) = [] := by
  induction n with
  | zero => rfl
  | succ n ih =>
    exact ih

theorem entriesIn_head (h : direntCheck v e ≠ 0) (y : List Item) :
    entriesIn v (.head e :: y) = e :: entriesIn v y :=
  filterMap_cons_some (entryAt_head h)

theorem entriesOf_append (v : Nat) (x y : List DirBlock) :
    entriesOf v (x ++ y) = entriesOf v x ++ entriesOf v y :=
  flatMap_append

theorem entriesOf_cons (v : Nat) (b : DirBlock) (y : List DirBlock) :
    entriesOf v (b :: y) = entriesIn v b ++ entriesOf v y :=
  flatMap_cons

theorem freeRun_some {need run : Nat} {p : List Item × List Item}
    (h : freeRun need run seen b = some p) :
    seen ++ List.replicate run .free ++ b = p.1 ++ List.replicate need .free ++ p.2 := by
  induction b generalizing run seen with
  | nil => exact absurd h (by simp [freeRun])
  | cons i rest ih =>
    -- a free slot lengthens the run, anything else starts a new one behind it
    have step : ∀ j : Item, freeRun need 0 (seen ++ List.replicate run .free ++ [j]) rest = some p →
        seen ++ List.replicate run .free ++ j :: rest
          = p.1 ++ List.replicate need .free ++ p.2 := by
      intro j hj
      rw [← ih hj]
      simp
    cases i with
    | free =>
      rw [freeRun] at h
      split at h
      · rename_i hn
        obtain rfl : (seen, rest) = p := by simpa using h
        rw [← hn, replicate_succ']
        simp
      · rw [← ih h, replicate_succ']
        simp
    | junk => exact step _ h
    | head e => exact step _ h

/-! ## Versions -/

theorem direntCheck_ne_zero : direntCheck v e ≠ 0 ↔
    e.ino ≠ 0 ∧ e.ino ≠ direntCont ∧ e.name.length ≠ 0 ∧ e.name.length ≤ nameMax v := by
  rw [direntCheck]
  split
  · rename_i hx
    omega
  · rename_i hx
    omega

theorem nameMax_mono (h : v ≤ w) : nameMax v ≤ nameMax w := by
  unfold nameMax
  split <;> split <;> omega

/-- What a version accepts, the later ones accept. -/
theorem direntCheck_mono (h : v ≤ w) (he : direntCheck v e ≠ 0) :
    direntCheck w e ≠ 0 := by
  obtain ⟨h1, h2, h3, h4⟩ := direntCheck_ne_zero.mp he
  exact direntCheck_ne_zero.mpr ⟨h1, h2, h3, Nat.le_trans h4 (nameMax_mono h)⟩

/-- Every entry is one a pool of version `v` can have. -/
def Readable (v : Nat) (bs : List DirBlock) : Prop :=
  ∀ b ∈ bs, ∀ e, Item.head e ∈ b → direntCheck v e ≠ 0

/-- A raise shows no entry that was not there. -/
theorem Readable.entries (h : Readable v bs) (hw : v ≤ w) :
    entriesOf w bs = entriesOf v bs := by
  refine flatMap_congr fun b hb => filterMap_congr fun i hi => ?_
  cases i with
  | free => rfl
  | junk => rfl
  | head e =>
    have he := h b hb e hi
    rw [entryAt_head he, entryAt_head (direntCheck_mono hw he)]

/-- A block whose entries were in the block it replaces, or are readable themselves. -/
theorem Readable.mid {b b' : DirBlock} (h : Readable v (pre ++ b :: post))
    (hb : ∀ e, Item.head e ∈ b' → Item.head e ∈ b ∨ direntCheck v e ≠ 0) :
    Readable v (pre ++ b' :: post) := by
  intro c hc e he
  rcases mem_append.mp hc with hc | hc
  · exact h c (mem_append_left _ hc) e he
  · rcases mem_cons.mp hc with rfl | hc
    · rcases hb e he with hb | hb
      · exact h b (mem_append_right _ mem_cons_self) e hb
      · exact hb
    · exact h c (mem_append_right _ (mem_cons_of_mem _ hc)) e he

theorem Readable.mono (h : Readable v bs) (hw : v ≤ w) :
    Readable w bs := fun b hb e he => direntCheck_mono hw (h b hb e he)

/-! ## Finding a name -/

/-- The first entry named `name` of the blocks. -/
def locate (version : Nat) (name : List UInt8) : Nat → List DirBlock → Option Found
  | _, [] => none
  | lblk, b :: rest =>
    match findIn version name lblk [] b with
    | some f => some f
    | none => locate version name (lblk + 1) rest

/-- `f` is the first entry named `name`, behind the blocks `pre`. -/
structure Found.In (f : Found) (v : Nat) (name : List UInt8) (pre : List DirBlock) : Prop where
  named : f.entry.name = name
  seen : direntCheck v f.entry ≠ 0
  earlier : ∀ e ∈ entriesOf v pre, e.name ≠ name
  first : ∀ e ∈ entriesIn v f.before, e.name ≠ name

theorem findIn_append {x : List Item} (hx : ∀ e ∈ entriesIn v x, e.name ≠ name) (y : List Item) :
    findIn v name k seen (x ++ y) = findIn v name k (seen ++ x) y := by
  induction x generalizing seen with
  | nil => rw [nil_append, append_nil]
  | cons i x ih =>
    have hrest : findIn v name k (seen ++ [i]) (x ++ y) = findIn v name k (seen ++ i :: x) y := by
      rw [append_cons seen i x]
      refine ih fun e he => hx e ?_
      rw [show i :: x = [i] ++ x from rfl, entriesIn_append]
      exact mem_append_right _ he
    rw [cons_append, findIn]
    cases he : entryAt v i with
    | none => exact hrest
    | some e =>
      have hne : e.name ≠ name := hx e (mem_filterMap.mpr ⟨i, mem_cons_self, he⟩)
      simp only [hne, if_false]
      exact hrest

/-- The scan of a block finds the first entry of the name, if there is one. -/
theorem findIn_spec (v : Nat) (name : List UInt8) (k : Nat) (seen b : List Item) :
    findIn v name k seen b = none ∧ (∀ e ∈ entriesIn v b, e.name ≠ name) ∨
      ∃ x e y, b = x ++ .head e :: y ∧ findIn v name k seen b = some ⟨k, seen ++ x, e, y⟩ ∧
        e.name = name ∧ direntCheck v e ≠ 0 ∧ ∀ e ∈ entriesIn v x, e.name ≠ name := by
  induction b generalizing seen with
  | nil => exact .inl ⟨rfl, by simp [entriesIn]⟩
  | cons i rest ih =>
    by_cases hi : ∀ e ∈ entriesIn v [i], e.name ≠ name
    · rw [show i :: rest = [i] ++ rest from rfl, findIn_append hi]
      rcases ih (seen ++ [i]) with ⟨hnone, hrest⟩ | ⟨x, e, y, rfl, hsome, hn, hc, hx⟩
      · refine .inl ⟨hnone, fun e he => ?_⟩
        rw [entriesIn_append, mem_append] at he
        exact he.elim (hi e) (hrest e)
      · refine .inr ⟨[i] ++ x, e, y, rfl, by rw [hsome, append_assoc], hn, hc, fun e he => ?_⟩
        rw [entriesIn_append, mem_append] at he
        exact he.elim (hi e) (hx e)
    · push Not at hi
      obtain ⟨e, hm, hn⟩ := hi
      obtain ⟨j, hj, he⟩ := mem_filterMap.mp hm
      obtain rfl := mem_singleton.mp hj
      obtain ⟨rfl, hc⟩ := entryAt_eq_some he
      refine .inr ⟨[], e, rest, rfl, ?_, hn, hc, by simp [entriesIn]⟩
      rw [findIn, he, append_nil]
      exact if_pos hn

theorem locate_append (h : ∀ e ∈ entriesOf v pre, e.name ≠ name) :
    locate v name k (pre ++ bs) = locate v name (k + pre.length) bs := by
  induction pre generalizing k with
  | nil => rfl
  | cons b rest ih =>
    have hb : findIn v name k [] b = none := by
      rw [← append_nil b, findIn_append fun e he => h e (by
        rw [entriesOf_cons]
        exact mem_append_left _ he)]
      rfl
    rw [cons_append, locate, hb, length_cons, Nat.add_comm rest.length, ← Nat.add_assoc]
    exact ih fun e he => h e (by rw [entriesOf_cons]; exact mem_append_right _ he)

theorem locate_eq_none (h : ∀ e ∈ entriesOf v bs, e.name ≠ name) : locate v name k bs = none := by
  rw [← append_nil bs, locate_append h]
  rfl

theorem locate_eq (hin : f.In v name pre) (hl : f.lblk = k + pre.length) :
    locate v name k (pre ++ f.block :: post) = some f := by
  rw [locate_append hin.earlier, ← hl, locate, Found.block, findIn_append hin.first, findIn,
    entryAt_head hin.seen]
  simp only [hin.named, if_true]
  rfl

theorem locate_spec (v : Nat) (name : List UInt8) (k : Nat) (bs : List DirBlock) :
    locate v name k bs = none ∧ (∀ e ∈ entriesOf v bs, e.name ≠ name) ∨
      ∃ f pre post, locate v name k bs = some f ∧ bs = pre ++ f.block :: post ∧
        f.lblk = k + pre.length ∧ f.In v name pre := by
  induction bs generalizing k with
  | nil => exact .inl ⟨rfl, by simp [entriesOf]⟩
  | cons b rest ih =>
    rw [locate]
    rcases findIn_spec v name k [] b with ⟨hnone, hb⟩ | ⟨x, e, y, rfl, hsome, hn, hc, hx⟩
    · rw [hnone]
      rcases ih (k + 1) with ⟨hnone, hrest⟩ | ⟨f, pre, post, hsome, rfl, hl, hin⟩
      · refine .inl ⟨hnone, fun e he => ?_⟩
        rw [entriesOf_cons, mem_append] at he
        exact he.elim (hb e) (hrest e)
      · refine .inr ⟨f, b :: pre, post, hsome, rfl, ?_, hin.named, hin.seen, fun e he => ?_,
          hin.first⟩
        · rw [hl, length_cons]
          omega
        · rw [entriesOf_cons, mem_append] at he
          exact he.elim (hb e) (hin.earlier e)
    · rw [hsome]
      exact .inr ⟨_, [], rest, rfl, rfl, rfl, hn, hc, by simp [entriesOf], hx⟩

theorem locate_some (h : locate v name k bs = some f) :
    ∃ pre post, bs = pre ++ f.block :: post ∧ f.lblk = k + pre.length ∧ f.In v name pre := by
  obtain ⟨hnone, -⟩ | ⟨g, pre, post, hsome, hfound⟩ := locate_spec v name k bs
  · rw [hnone] at h
    cases h
  · rw [hsome] at h
    cases h
    exact ⟨pre, post, hfound⟩

theorem locate_none (h : locate v name k bs = none) : ∀ e ∈ entriesOf v bs, e.name ≠ name := by
  obtain ⟨-, hne⟩ | ⟨g, pre, post, hsome, -⟩ := locate_spec v name k bs
  · exact hne
  · rw [hsome] at h
    cases h

theorem putBlock_mid (pre post : List DirBlock) (b b' : DirBlock) :
    putBlock (pre ++ b :: post) pre.length b' = pre ++ b' :: post := by
  have hlt : pre.length < (pre ++ b :: post).length := by
    rw [length_append, length_cons]
    omega
  rw [putBlock, if_pos hlt, set_append_right _ _ (Nat.le_refl _), Nat.sub_self, set_cons_zero]

theorem putBlock_end (bs : List DirBlock) (b : DirBlock) :
    putBlock bs bs.length b = bs ++ [b] := by
  rw [putBlock, if_neg (Nat.lt_irrefl _)]

/-! ## What an edit does to the entries -/

/-- The block a name is in, and the blocks around it. -/
theorem locate_put (h : locate v name 0 bs = some f) :
    ∃ pre post, bs = pre ++ f.block :: post ∧ f.In v name pre ∧ f.lblk = pre.length ∧
      ∀ b, putBlock bs f.lblk b = pre ++ b :: post := by
  obtain ⟨pre, post, rfl, hl, hin⟩ := locate_some h
  rw [Nat.zero_add] at hl
  exact ⟨pre, post, rfl, hin, hl, fun b => hl ▸ putBlock_mid pre post _ b⟩

theorem locate_entries (h : locate v name 0 bs = some f) :
    ∃ A B, (∀ e ∈ A, e.name ≠ name) ∧ entriesOf v bs = A ++ f.entry :: B ∧
      entriesOf v (putBlock bs f.lblk f.removed) = A ++ B ∧
      ∀ i k, direntCheck v (f.repoint i k).entry ≠ 0 →
        entriesOf v (putBlock bs f.lblk (f.repoint i k).block)
          = A ++ (f.repoint i k).entry :: B := by
  obtain ⟨pre, post, rfl, hin, -, hput⟩ := locate_put h
  refine ⟨entriesOf v pre ++ entriesIn v f.before, entriesIn v f.after ++ entriesOf v post,
    fun e he => ?_, ?_, ?_, fun i k hc => ?_⟩
  · exact (mem_append.mp he).elim (hin.earlier e) (hin.first e)
  · rw [entriesOf_append, entriesOf_cons, Found.block, entriesIn_append, entriesIn_head hin.seen]
    simp
  · rw [hput, entriesOf_append, entriesOf_cons, Found.removed, entriesIn_append, entriesIn_append,
      entriesIn_free]
    simp
  · rw [hput, entriesOf_append, entriesOf_cons, Found.block, entriesIn_append, entriesIn_head hc]
    simp [Found.repoint]

/-! ## The map of names -/

theorem find_first {A B : List DirEntry} (hA : ∀ x ∈ A, x.name ≠ name) (he : e.name = name) :
    (A ++ e :: B).find? (fun x => x.name = name) = some e := by
  rw [List.find?_append, List.find?_eq_none.mpr fun x hx => by simpa using hA x hx,
    Option.none_or, List.find?_cons_of_pos (by simpa using he)]

theorem nameMap_of_locate (h : locate v name 0 bs = some f) :
    nameMap v bs name = some (f.entry.ino, f.entry.kind) := by
  obtain ⟨_, _, _, hin, _⟩ := locate_put h
  obtain ⟨A, B, hA, he, _, _⟩ := locate_entries h
  rw [nameMap, he, find_first hA hin.named]
  rfl

theorem locate_of_nameMap {k : UInt8} (h : nameMap v bs name = some (i, k)) :
    ∃ f, locate v name 0 bs = some f ∧ f.entry.ino = i ∧ f.entry.kind = k := by
  cases hl : locate v name 0 bs with
  | some f =>
    rw [nameMap_of_locate hl] at h
    obtain ⟨hi, hk⟩ : f.entry.ino = i ∧ f.entry.kind = k := by simpa using h
    exact ⟨f, rfl, hi, hk⟩
  | none =>
    rw [nameMap, List.find?_eq_none.mpr fun e he => by simpa using locate_none hl e he] at h
    cases h

theorem absent_of_nameMap (h : nameMap v bs name = none) : ∀ e ∈ entriesOf v bs, e.name ≠ name := by
  cases hl : locate v name 0 bs with
  | some f => exact absurd (nameMap_of_locate hl) (by rw [h]; simp)
  | none => exact locate_none hl

section Repoint

variable {v : Nat} {name : List UInt8} {bs : List DirBlock} {f : Found}

theorem putBlock_block (h : locate v name 0 bs = some f) (b : DirBlock) :
    putBlock (putBlock bs f.lblk b) f.lblk f.block = bs := by
  obtain ⟨pre, post, rfl, _, hl, hput⟩ := locate_put h
  rw [hput, hl, putBlock_mid]

section

variable (h : locate v name 0 bs = some f) {k : UInt8}
  (hc : direntCheck v (f.repoint i k).entry ≠ 0)

include h hc

theorem locate_repoint :
    locate v name 0 (putBlock bs f.lblk (f.repoint i k).block) = some (f.repoint i k) := by
  obtain ⟨pre, post, -, hin, hl, hput⟩ := locate_put h
  rw [hput]
  exact locate_eq ⟨hin.named, hc, hin.earlier, hin.first⟩ (hl.trans (Nat.zero_add _).symm)

theorem locate_repoint_ne {other : List UInt8} (hne : other ≠ name) :
    nameMap v (putBlock bs f.lblk (f.repoint i k).block) other = nameMap v bs other := by
  obtain ⟨_, _, _, hin, _⟩ := locate_put h
  obtain ⟨A, B, _, he, _, hr⟩ := locate_entries h
  have hn : f.entry.name ≠ other := fun hx => hne (hx.symm.trans hin.named)
  have hn' : (f.repoint i k).entry.name ≠ other := hn
  rw [nameMap, nameMap, he, hr i k hc, List.find?_append, List.find?_append,
    List.find?_cons_of_neg (by simpa using hn'), List.find?_cons_of_neg (by simpa using hn)]

end

/-- An entry the pool's version reads can name any inode. -/
theorem direntCheck_repoint (hf : direntCheck v f.entry ≠ 0) {k : UInt8}
    (he : direntCheck v e ≠ 0) : direntCheck v (f.repoint e.ino k).entry ≠ 0 := by
  obtain ⟨_, _, h3, h4⟩ := direntCheck_ne_zero.mp hf
  obtain ⟨h1, h2, _, _⟩ := direntCheck_ne_zero.mp he
  exact direntCheck_ne_zero.mpr ⟨h1, h2, h3, h4⟩

theorem readable_repoint (hr : Readable v bs) (h : locate v name 0 bs = some f)
    {k : UInt8} (hc : direntCheck v (f.repoint i k).entry ≠ 0) :
    Readable v (putBlock bs f.lblk (f.repoint i k).block) := by
  obtain ⟨pre, post, rfl, _, _, hput⟩ := locate_put h
  rw [hput]
  refine hr.mid fun e he => ?_
  rcases mem_append.mp he with he | he
  · exact Or.inl (mem_append_left _ he)
  · rcases mem_cons.mp he with he | he
    · obtain rfl : e = (f.repoint i k).entry := by simpa using he
      exact Or.inr hc
    · exact Or.inl (mem_append_right _ (mem_cons_of_mem _ he))

theorem readable_removed (hr : Readable v bs) (h : locate v name 0 bs = some f) :
    Readable v (putBlock bs f.lblk f.removed) := by
  obtain ⟨pre, post, rfl, _, _, hput⟩ := locate_put h
  rw [hput]
  refine hr.mid fun e he => Or.inl ?_
  rw [Found.removed, mem_append, mem_append] at he
  rcases he with (he | he) | he
  · exact mem_append_left _ he
  · exact absurd he (by simp)
  · exact mem_append_right _ (mem_cons_of_mem _ he)

end Repoint

/-! ## A new entry -/

/-- Block `k` of the directory becomes `b`, which has `e` where it had free slots; it is
one of the blocks, or a block of free slots added behind them. -/
structure Slotted (e : DirEntry) (need : Nat) (bs : List DirBlock) (k : Nat) (b : DirBlock)
    (pre : List DirBlock) (x y : List Item) (post : List DirBlock) : Prop where
  block : b = x ++ .head e :: y
  index : k = pre.length
  was : bs = pre ++ (x ++ List.replicate need .free ++ y) :: post ∨
    (bs = pre ∧ post = [] ∧ x ++ List.replicate need .free ++ y = zeroBlock)

section Slotted

variable {e : DirEntry} {need k : Nat} {bs pre post : List DirBlock} {b : DirBlock}
  {x y : List Item}

section

variable (h : Slotted e need bs k b pre x y post)

include h

theorem Slotted.put : putBlock bs k b = pre ++ b :: post := by
  rw [h.index]
  rcases h.was with rfl | ⟨rfl, hp, _⟩
  · exact putBlock_mid pre post _ b
  · rw [putBlock_end, hp]

/-- Before, the same entries without the new one. -/
theorem Slotted.entries (v : Nat) : entriesOf v bs
      = (entriesOf v pre ++ entriesIn v x) ++ (entriesIn v y ++ entriesOf v post) := by
  rcases h.was with rfl | ⟨rfl, rfl, hz⟩
  · rw [entriesOf_append, entriesOf_cons, entriesIn_append, entriesIn_append, entriesIn_free]
    simp
  · have hxy : entriesIn v x ++ entriesIn v y = [] := by
      have h0 : entriesIn v zeroBlock = [] := entriesIn_free v 64
      rw [← hz, entriesIn_append, entriesIn_append, entriesIn_free] at h0
      simpa using h0
    obtain ⟨hx, hy⟩ := append_eq_nil_iff.mp hxy
    rw [hx, hy]
    simp [entriesOf]

theorem Slotted.entries_put (hc : direntCheck v e ≠ 0) : entriesOf v (putBlock bs k b)
      = (entriesOf v pre ++ entriesIn v x) ++ e :: (entriesIn v y ++ entriesOf v post) := by
  rw [h.put, entriesOf_append, entriesOf_cons, h.block, entriesIn_append, entriesIn_head hc]
  simp

theorem Slotted.readable (hr : Readable v bs) (hc : direntCheck v e ≠ 0) :
    Readable v (putBlock bs k b) := by
  have hb : ∀ a, Item.head a ∈ b → Item.head a ∈ x ++ List.replicate need .free ++ y ∨
      direntCheck v a ≠ 0 := by
    intro a ha
    rw [h.block, mem_append, mem_cons] at ha
    rcases ha with ha | ha | ha
    · exact Or.inl (by simp [ha])
    · obtain rfl : a = e := by simpa using ha
      exact Or.inr hc
    · exact Or.inl (by simp [ha])
  rw [h.put]
  rcases h.was with rfl | ⟨rfl, rfl, hz⟩
  · exact hr.mid hb
  · have hzero : Readable v (bs ++ zeroBlock :: []) := by
      intro c hc' a ha
      rcases mem_append.mp hc' with hc' | hc'
      · exact hr c hc' a ha
      · obtain rfl : c = zeroBlock := by simpa using hc'
        exact absurd ha (by simp [zeroBlock])
    refine hzero.mid fun a ha => ?_
    rw [← hz]
    exact hb a ha

end

end Slotted

end CosmoOS.Cosmofs.Dir
