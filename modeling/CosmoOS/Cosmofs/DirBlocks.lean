import Mathlib.Data.List.Nodup
import CosmoOS.Cosmofs.Pool
import CosmoOS.Cosmofs.Dirent

/-!
# A directory is a finite map

The operations of `cosmofs.cee` on a directory's blocks (`dirFind`, `dirAdd`, `dirRemoveSlot`) and
the walk of `readdir`, over blocks of slots (`Cosmofs.Dirent`).

A directory is well formed when every slot of its blocks is free, an accepted head or a continuation
of one, and no name is there twice.  Then it is a map: `found` is what `dirFind` gives for a name
when every block can be read, an added name is in it, a removed one is not, and nothing else
changes.

`readdir` hands out entries until its caller takes no more, and leaves a position.  What is still to
come from a position (`Rest`) is the invariant: so the calls of a walk resumed at each position give
`.`, `..` and every entry, in order and once.

`answers` are what block reads, block writes, the inode's write and allocations are going to return.
Left out: times, and the size of a directory in bytes, which is its blocks.
-/

namespace CosmoOS.Cosmofs

open Dir List

variable {b : RawBlock} {is : List Item} {fuel lblk : Nat} {name : List UInt8}

/-! ## The operations -/

/-- A directory, and what is going to happen to its reads and writes. -/
structure Directory where
  version : Nat
  ino : Nat
  parent : Nat
  blocks : List RawBlock
  /-- Unmounted, or the transaction was abandoned. -/
  unusable : Bool
  answers : List (Option Errno)

variable {d : Directory}

/-- Where `dirFind` found an entry, and the block as it left it. -/
structure Place where
  lblk : Nat
  slot : Nat
  block : RawBlock

namespace RawBlock

/-- A block of zeros. -/
def zero : RawBlock := fun _ => zeroSlot

/-- The scan of a block in `dirFind`, from slot `s` on. -/
def findFrom (b : RawBlock) (version : Nat) (name : List UInt8) : Nat → Nat → Option Nat
  | 0, _ => none
  | fuel + 1, s =>
    if 64 ≤ s then none
    else if b.direntCheck s version ≠ 0 then
      if b.direntNameEq s name then some s
      else findFrom b version name fuel (s + b.direntCheck s version)
    else findFrom b version name fuel (s + 1)

end RawBlock

namespace Directory

/-- The next answer: an error, or none. -/
def answer (d : Directory) : Option Errno × Directory :=
  match d.answers with
  | [] => (none, d)
  | rc :: rest => (rc, { d with answers := rest })

def dirReadBlock (d : Directory) (lblk : Nat) : Except Errno RawBlock × Directory :=
  match d.answer with
  | (some rc, d) => (.error rc, d)
  | (none, d) => (.ok (d.blocks.getD lblk RawBlock.zero), d)

/-- `cfs_dir_write_block`: the block, and then the inode. -/
def dirWriteBlock (d : Directory) (lblk : Nat) (b : RawBlock) : Option Errno × Directory :=
  match d.answer with
  | (some rc, d) => (some rc, d)
  | (none, d) =>
    answer { d with
      blocks := if lblk < d.blocks.length then d.blocks.set lblk b else d.blocks ++ [b] }

/-- The blocks from `lblk` on, `left` of them. -/
def dirFindFrom (name : List UInt8) : Nat → Nat → Directory → Except Errno Place × Directory
  | 0, _, d => (.error .enoent, d)
  | left + 1, lblk, d =>
    match d.dirReadBlock lblk with
    | (.error rc, d) => (.error rc, d)
    | (.ok b, d) =>
      match b.findFrom d.version name 64 0 with
      | some s => (.ok ⟨lblk, s, b⟩, d)
      | none => dirFindFrom name left (lblk + 1) d

/-- `cfs_dir_find` -/
def dirFind (d : Directory) (name : List UInt8) : Except Errno Place × Directory :=
  if 255 < name.length then (.error .enametoolong, d)
  else if 47 < name.length ∧ d.version < 15 then (.error .enoent, d)
  else dirFindFrom name d.blocks.length 0 d

/-- The blocks from `lblk` on, and then a new one. -/
def dirAddFrom (name : List UInt8) (ino kind : Nat) :
    Nat → Nat → Directory → Option Errno × Directory
  | 0, lblk, d =>
    match RawBlock.zero.freeRun (1 + direntExtra name.length) with
    | some s =>
      d.dirWriteBlock lblk (RawBlock.zero.direntPut s (ino % 2 ^ 48) (UInt8.ofNat kind) name)
    | none => (some .enospc, d)
  | left + 1, lblk, d =>
    match d.dirReadBlock lblk with
    | (.error rc, d) => (some rc, d)
    | (.ok b, d) =>
      match b.freeRun (1 + direntExtra name.length) with
      -- an entry names an inode of its own tree, untagged
      | some s => d.dirWriteBlock lblk (b.direntPut s (ino % 2 ^ 48) (UInt8.ofNat kind) name)
      | none => dirAddFrom name ino kind left (lblk + 1) d

/-- `cfs_dir_add` -/
def dirAdd (d : Directory) (name : List UInt8) (ino kind : Nat) : Option Errno × Directory :=
  if name.length = 0 ∨ nameMax d.version < name.length then (some .enametoolong, d)
  else dirAddFrom name ino kind d.blocks.length 0 d

/-- `cfs_dir_remove_slot` -/
def dirRemoveSlot (d : Directory) (p : Place) : Option Errno × Directory :=
  d.dirWriteBlock p.lblk (p.block.clear p.slot (1 + p.block.extra p.slot))

end Directory

/-- What `readdir` hands out: a name, an inode number, and whether it is a directory. -/
structure Emit where
  name : List UInt8
  ino : Nat
  dir : Bool
  deriving DecidableEq, Repr

def Emit.of (e : DirEntry) : Emit := ⟨e.name, e.ino, e.kind = 2⟩

/-- What a call of `readdir` returns: its result, the position it leaves, what was taken. -/
structure Listed where
  rc : Option Errno
  pos : Nat
  out : List Emit
  d : Directory

namespace Directory

/-- The loop of `readdir` at slot `i` of the directory, where the position is `i + 2`; the
caller takes `room` more.  Every turn moves on, so the slots still to come are enough fuel. -/
def readdirLoop : Nat → Nat → Nat → Directory → Listed
  | 0, _, i, d => ⟨none, i + 2, [], d⟩
  | fuel + 1, room, i, d =>
    if ¬ i < d.blocks.length * 64 then ⟨none, i + 2, [], d⟩
    else
      match d.dirReadBlock (i / 64) with
      | (.error rc, d) => ⟨some rc, i + 2, [], d⟩
      | (.ok b, d) =>
        -- the rest of a name whose head was returned, or a free slot
        if (b (i % 64)).ino = direntCont ∨ (b (i % 64)).ino = 0 then
          readdirLoop fuel room (i + 1) d
        else if b.direntCheck (i % 64) d.version = 0 then ⟨some .eio, i + 2, [], d⟩
        else
          match room with
          | 0 => ⟨none, i + 2, [], d⟩
          | room + 1 =>
            let l := readdirLoop fuel room (i + b.direntCheck (i % 64) d.version) d
            { l with out := Emit.of (b.entry (i % 64)) :: l.out }

section

variable (d) (pos room : Nat)

/-- The entries, from a position behind the dots. -/
def readdirEntries : Listed :=
  match d.answer with
  | (some _, d) => ⟨some .enomem, pos, [], d⟩
  | (none, d) => readdirLoop (d.blocks.length * 64) room (pos - 2) d

/-- From `..` on. -/
def readdirParent : Listed :=
  if pos = 1 then
    match room with
    | 0 => ⟨none, 1, [], d⟩
    | room + 1 =>
      let l := d.readdirEntries 2 room
      { l with out := ⟨[46, 46], d.parent, true⟩ :: l.out }
  else d.readdirEntries pos room

/-- `cfs_dir_readdir`, for a caller that takes `room` entries and then no more. -/
def readdir : Listed :=
  if d.unusable then ⟨some .eio, pos, [], d⟩
  else if pos = 0 then
    match room with
    | 0 => ⟨none, 0, [], d⟩
    | room + 1 =>
      let l := d.readdirParent 1 room
      { l with out := ⟨[46], d.ino, true⟩ :: l.out }
  else d.readdirParent pos room

end

/-- Calls one after another, each from the position the last one left. -/
def readdirs (d : Directory) (pos : Nat) : List Nat → List Emit
  | [] => []
  | room :: rooms =>
    (d.readdir pos room).out ++ readdirs (d.readdir pos room).d (d.readdir pos room).pos rooms

end Directory

/-! ## Finding -/

/-- The entry at an accepted head is one a reader of items accepts, and takes as many slots. -/
theorem RawBlock.entry_check {s version : Nat} (h : b.direntCheck s version ≠ 0) :
    Dir.direntCheck version (b.entry s) = b.direntCheck s version := by
  obtain ⟨-, h2, h3, h4, h5, h6, -, h8⟩ := direntCheck_spec h
  have hlen : (b.entry s).name.length = b.nameLen s := b.direntName_length s
  rw [Dir.direntCheck, hlen, h8, h6, if_neg]
  rintro (h | h | h | h)
  · exact h2 h
  · exact h3 h
  · exact h4 h
  · omega

/-- What a scan for `name` from slot `s` on has to give: the first entry of the name among the
items there. -/
def Scanned (version : Nat) (b : RawBlock) (name : List UInt8) (s : Nat) (is : List Item)
    (r : Option Nat) : Prop :=
  r = none ∧ (∀ e ∈ entriesIn version is, e.name ≠ name) ∨
    ∃ p x y, r = some p ∧ is = x ++ .head (b.entry p) :: y ∧ b.direntName p = name ∧
      (∀ e ∈ entriesIn version x, e.name ≠ name) ∧ Lays version b s p x ∧
      b.direntCheck p version ≠ 0 ∧ Lays version b (p + b.direntCheck p version) 64 y

/-- An item that is no entry of the name is passed. -/
theorem Scanned.cons {version s s' : Nat} {r : Option Nat} {i : Item}
    (h : Scanned version b name s' is r) (hi : ∀ e ∈ entriesIn version [i], e.name ≠ name)
    (hlay : ∀ {t x}, Lays version b s' t x → Lays version b s t (i :: x)) :
    Scanned version b name s (i :: is) r := by
  have hcons : ∀ {x}, (∀ e ∈ entriesIn version x, e.name ≠ name) →
      ∀ e ∈ entriesIn version (i :: x), e.name ≠ name := by
    intro x hx e he
    rw [show i :: x = [i] ++ x from rfl, entriesIn_append, mem_append] at he
    exact he.elim (hi e) (hx e)
  rcases h with ⟨rfl, hnone⟩ | ⟨p, x, y, rfl, rfl, hname, hx, hlx, hc, hly⟩
  · exact .inl ⟨rfl, hcons hnone⟩
  · exact .inr ⟨p, i :: x, y, rfl, rfl, hname, hcons hx, hlay hlx, hc, hly⟩

/-- **The scan of a block finds what the items have.** -/
theorem Lays.findFrom {version s : Nat} (h : Lays version b s 64 is) (name : List UInt8)
    (hf : 64 ≤ s + fuel) : Scanned version b name s is (b.findFrom version name fuel s) := by
  generalize ht : 64 = t at h
  induction h generalizing fuel with
  | nil s =>
    subst ht
    refine .inl ⟨?_, by simp [entriesIn]⟩
    cases fuel with
    | zero => rfl
    | succ fuel => rw [RawBlock.findFrom, if_pos (Nat.le_refl _)]
  | @free s t is hs h0 rest ih =>
    obtain ⟨fuel, rfl⟩ : ∃ m, fuel = m + 1 := ⟨fuel - 1, by omega⟩
    have hc : b.direntCheck s version = 0 := by
      by_contra hc
      exact (RawBlock.direntCheck_spec hc).2.1 h0
    rw [RawBlock.findFrom, if_neg (by omega), if_neg (not_not.mpr hc)]
    exact (ih (show 64 ≤ s + 1 + fuel by omega) ht).cons (by simp [entriesIn, entryAt])
      (.free hs h0)
  | @junk s t is hs h0 hc rest ih =>
    obtain ⟨fuel, rfl⟩ : ∃ m, fuel = m + 1 := ⟨fuel - 1, by omega⟩
    rw [RawBlock.findFrom, if_neg (by omega), if_neg (not_not.mpr hc)]
    exact (ih (show 64 ≤ s + 1 + fuel by omega) ht).cons (by simp [entriesIn, entryAt])
      (.junk hs h0 hc)
  | @head s t is hc rest ih =>
    have hlt := (RawBlock.direntCheck_spec hc).1
    obtain ⟨fuel, rfl⟩ : ∃ m, fuel = m + 1 := ⟨fuel - 1, by omega⟩
    rw [RawBlock.findFrom, if_neg (by omega), if_pos hc]
    by_cases hname : b.direntName s = name
    · rw [if_pos ((b.direntNameEq_iff s name).mpr hname)]
      exact .inr ⟨s, [], is, rfl, rfl, hname, by simp [entriesIn], .nil s, hc, ht ▸ rest⟩
    · rw [if_neg fun heq => hname ((b.direntNameEq_iff s name).mp heq)]
      have hfuel : 64 ≤ s + b.direntCheck s version + fuel := by omega
      refine (ih hfuel ht).cons (fun e he => ?_) (.head hc)
      obtain rfl : e = b.entry s := by
        rw [entriesIn_head (by rw [RawBlock.entry_check hc]; exact hc)] at he
        simpa [entriesIn] using he
      exact hname

namespace Directory

variable {d d₁ d' : Directory} {as : List (Option Errno)}

def items (d : Directory) : List DirBlock := d.blocks.map fun b => b.items d.version

@[simp] theorem length_items (d : Directory) : d.items.length = d.blocks.length := length_map _

theorem answer_spec {rc : Option Errno} (h : d.answer = (rc, d')) :
    ∃ as, d' = { d with answers := as } ∧ (d.answers = [] → as = [] ∧ rc = none) := by
  rw [answer] at h
  split at h
  · rename_i hans
    cases h
    exact ⟨d.answers, rfl, fun _ => ⟨hans, rfl⟩⟩
  · rename_i hans
    cases h
    exact ⟨_, rfl, fun hnil => absurd (hans.symm.trans hnil) (by simp)⟩

theorem dirReadBlock_spec {res : Except Errno RawBlock} (h : d.dirReadBlock lblk = (res, d'))
    (hlt : lblk < d.blocks.length) :
    ∃ as, d' = { d with answers := as } ∧ (d.answers = [] → as = []) ∧
      ((∃ b, res = .ok b ∧ d.blocks[lblk]? = some b) ∨
        (∃ e, res = .error e) ∧ d.answers ≠ []) := by
  rcases ha : d.answer with ⟨rc, d₁⟩
  obtain ⟨as, rfl, has⟩ := answer_spec ha
  rw [dirReadBlock, ha] at h
  cases rc with
  | none =>
    cases h
    exact ⟨as, rfl, fun hans => (has hans).1, .inl ⟨_, rfl, by simp [hlt]⟩⟩
  | some e =>
    cases h
    exact ⟨as, rfl, fun hans => (has hans).1, .inr ⟨⟨e, rfl⟩, fun hans => by cases (has hans).2⟩⟩

/-- A place is where the items have the name, at or behind block `k`. -/
structure Holds (d : Directory) (name : List UInt8) (k : Nat) (p : Place)
    (f : Found) : Prop where
  block : d.blocks[p.lblk]? = some p.block
  located : locate d.version name k (d.items.drop k) = some f
  lblk : f.lblk = p.lblk
  entry : f.entry = p.block.entry p.slot
  checked : p.block.direntCheck p.slot d.version ≠ 0
  before : Lays d.version p.block 0 p.slot f.before
  after : Lays d.version p.block (p.slot + p.block.direntCheck p.slot d.version) 64 f.after

theorem drop_items {k : Nat} (h : d.blocks[k]? = some b) :
    d.items.drop k = b.items d.version :: d.items.drop (k + 1) := by
  obtain ⟨hlt, heq⟩ := List.getElem?_eq_some_iff.mp h
  rw [drop_eq_getElem_cons (by rw [length_items]; exact hlt)]
  simp only [items, getElem_map, heq]

theorem dirFindFrom_spec {left : Nat} {res : Except Errno Place}
    (h : dirFindFrom name left lblk d = (res, d')) (hl : lblk + left = d.blocks.length) :
    (∃ as, d' = { d with answers := as }) ∧ ((∃ p f, res = .ok p ∧ Holds d name lblk p f) ∨
      (∃ e, res = .error e) ∧
        (d.answers = [] → locate d.version name lblk (d.items.drop lblk) = none)) := by
  induction left generalizing lblk d with
  | zero =>
    cases h
    refine ⟨⟨_, rfl⟩, .inr ⟨⟨_, rfl⟩, fun _ => ?_⟩⟩
    rw [drop_eq_nil_of_le (by rw [length_items]; omega)]
    rfl
  | succ left ih =>
    rcases hr : d.dirReadBlock lblk with ⟨read, d₁⟩
    rw [dirFindFrom, hr] at h
    obtain ⟨as, rfl, has, ⟨b, rfl, hb⟩ | ⟨⟨e, rfl⟩, hne⟩⟩ := dirReadBlock_spec hr (by omega)
    · dsimp only at h
      rcases (b.lays_items d.version).findFrom name (show 64 ≤ 0 + 64 by omega) with
        ⟨hraw, hnone⟩ | ⟨p, x, y, hraw, heq, hname, hfirst, hx, hc, hy⟩
      · -- not in this block: the others
        have hstep : locate d.version name lblk (d.items.drop lblk) =
            locate d.version name (lblk + 1) (d.items.drop (lblk + 1)) := by
          have hblock : ∀ e ∈ entriesOf d.version [b.items d.version], e.name ≠ name := by
            simpa [entriesOf] using hnone
          rw [drop_items hb]
          exact locate_append hblock
        rw [hraw] at h
        obtain ⟨hsame, ⟨p, f, rfl, hf⟩ | ⟨herr, hnot⟩⟩ :=
          ih h (show lblk + 1 + left = d.blocks.length by omega)
        · exact ⟨hsame, .inl ⟨p, f, rfl, hf.block, hstep.trans hf.located, hf.lblk, hf.entry,
            hf.checked, hf.before, hf.after⟩⟩
        · exact ⟨hsame, .inr ⟨herr, fun hans => hstep.trans (hnot (has hans))⟩⟩
      · rw [hraw] at h
        cases h
        refine ⟨⟨as, rfl⟩, .inl ⟨_, ⟨lblk, x, b.entry p, y⟩, rfl, hb, ?_, rfl, rfl, hc, hx, hy⟩⟩
        have hin : Found.In ⟨lblk, x, b.entry p, y⟩ d.version name [] :=
          ⟨hname, by rw [RawBlock.entry_check hc]; exact hc, by simp [entriesOf], hfirst⟩
        rw [drop_items hb, heq]
        exact locate_eq hin rfl
    · cases h
      exact ⟨⟨as, rfl⟩, .inr ⟨⟨e, rfl⟩, fun hans => absurd hans hne⟩⟩

/-- **What `dirFind` finds.**  A place it gives is where the first entry of the name is; and
if every block could be read, there is none when it gives none. -/
theorem dirFind_spec {res : Except Errno Place} (h : d.dirFind name = (res, d')) :
    (∃ as, d' = { d with answers := as }) ∧ ((∃ p f, res = .ok p ∧ Holds d name 0 p f) ∨
      (∃ e, res = .error e) ∧ (d.answers = [] → locate d.version name 0 d.items = none)) := by
  -- a name over the version's bound is no entry's
  have hlong : nameMax d.version < name.length → locate d.version name 0 d.items = none := by
    intro hlt
    refine locate_eq_none fun e he heq => ?_
    obtain ⟨b, -, hb⟩ := mem_flatMap.mp he
    obtain ⟨i, -, hi⟩ := mem_filterMap.mp hb
    obtain ⟨-, hc⟩ := entryAt_eq_some hi
    have := (direntCheck_ne_zero.mp hc).2.2.2
    rw [heq] at this
    omega
  rw [dirFind] at h
  split at h
  · cases h
    refine ⟨⟨d.answers, rfl⟩, .inr ⟨⟨_, rfl⟩, fun _ => hlong ?_⟩⟩
    rw [nameMax]
    split <;> omega
  split at h
  · cases h
    refine ⟨⟨d.answers, rfl⟩, .inr ⟨⟨_, rfl⟩, fun _ => hlong ?_⟩⟩
    rw [nameMax, if_neg (by omega)]
    omega
  · exact dirFindFrom_spec h (by omega)

/-! ## The map -/

/-- What `dirFind` gives for a name when every block can be read: an inode number and a
type. -/
def found (d : Directory) (name : List UInt8) : Option (Nat × UInt8) :=
  match ({ d with answers := [] } : Directory).dirFind name with
  | (.ok p, _) => some ((p.block p.slot).ino, (p.block p.slot).byte 8)
  | (.error _, _) => none

/-- The blocks are well formed: `direntCheck` accepts every slot that a walk stands on. -/
def Accepted (d : Directory) : Prop := ∀ b ∈ d.blocks, Item.junk ∉ b.items d.version

def Distinct (d : Directory) : Prop := ((entriesOf d.version d.items).map DirEntry.name).Nodup

theorem Holds.nameMap {p : Place} {f : Found} (hf : Holds d name 0 p f) :
    nameMap d.version d.items name = some ((p.block p.slot).ino, (p.block p.slot).byte 8) := by
  have hloc : locate d.version name 0 d.items = some f := hf.located
  rw [nameMap_of_locate hloc, hf.entry]
  rfl

theorem found_eq (d : Directory) (name : List UInt8) :
    d.found name = nameMap d.version d.items name := by
  rcases hfind : ({ d with answers := [] } : Directory).dirFind name with ⟨res, d'⟩
  rw [found, hfind]
  obtain ⟨-, ⟨p, f, rfl, hf⟩ | ⟨⟨e, rfl⟩, hnone⟩⟩ := dirFind_spec hfind
  · exact hf.nameMap.symm
  · have hloc : locate d.version name 0 d.items = none := hnone rfl
    rw [nameMap, List.find?_eq_none.mpr fun x hx => by simpa using locate_none hloc x hx]
    rfl

/-- `d'` has one entry more, and the others in the same order. -/
structure Inserted (e : DirEntry) (d d' : Directory) : Prop where
  version : d'.version = d.version
  entries : ∃ A B, entriesOf d.version d.items = A ++ B ∧
    entriesOf d.version d'.items = A ++ e :: B

section Inserted

variable {e : DirEntry} (h : Inserted e d d')

include h

theorem Inserted.found_of_ne {other : List UInt8} (hne : other ≠ e.name) :
    d'.found other = d.found other := by
  obtain ⟨A, B, hd, hd'⟩ := h.entries
  rw [found_eq, found_eq, h.version, nameMap, nameMap, hd, hd', List.find?_append,
    List.find?_append, List.find?_cons_of_neg (by simpa using Ne.symm hne)]

theorem Inserted.found_self (hnew : d.found e.name = none) :
    d'.found e.name = some (e.ino, e.kind) := by
  obtain ⟨A, B, hd, hd'⟩ := h.entries
  rw [found_eq] at hnew
  have habsent := absent_of_nameMap hnew
  rw [hd] at habsent
  rw [found_eq, h.version, nameMap, hd',
    find_first (fun x hx => habsent x (mem_append_left _ hx)) rfl]
  rfl

theorem Inserted.distinct_iff : d'.Distinct ↔ d.Distinct ∧ d.found e.name = none := by
  obtain ⟨A, B, hd, hd'⟩ := h.entries
  have habsent : d.found e.name = none ↔ e.name ∉ (A ++ B).map DirEntry.name := by
    rw [found_eq, nameMap, hd, Option.map_eq_none_iff, List.find?_eq_none]
    simp [or_imp, forall_and]
  rw [habsent, Distinct, Distinct, h.version, hd, hd', map_append, map_cons, nodup_middle,
    nodup_cons, map_append, and_comm]

end Inserted

/-- The blocks with one written. -/
def put (d : Directory) (lblk : Nat) (b : RawBlock) (as : List (Option Errno)) : Directory :=
  { d with
    blocks := if lblk < d.blocks.length then d.blocks.set lblk b else d.blocks ++ [b]
    answers := as }

theorem dirWriteBlock_ok (h : d.dirWriteBlock lblk b = (none, d')) :
    ∃ as, d' = d.put lblk b as := by
  rcases ha : d.answer with ⟨rc, d₁⟩
  obtain ⟨as, rfl, -⟩ := answer_spec ha
  rw [dirWriteBlock, ha] at h
  cases rc with
  | some e => cases h
  | none =>
    obtain ⟨as', rfl, -⟩ := answer_spec h
    exact ⟨as', rfl⟩

theorem put_items (d : Directory) (lblk : Nat) (b : RawBlock) (as : List (Option Errno)) :
    (d.put lblk b as).items = putBlock d.items lblk (b.items d.version) := by
  rw [putBlock, length_items]
  show List.map (fun b => b.items d.version)
    (if lblk < d.blocks.length then d.blocks.set lblk b else d.blocks ++ [b]) = _
  split
  · exact map_set
  · exact map_append

theorem Accepted.put (hw : d.Accepted) (hb : Item.junk ∉ b.items d.version) :
    (d.put lblk b as).Accepted := by
  intro x hx
  have hx : x ∈ if lblk < d.blocks.length then d.blocks.set lblk b else d.blocks ++ [b] := hx
  have hor : x ∈ d.blocks ∨ x = b := by
    split at hx
    · exact mem_or_eq_of_mem_set hx
    · simpa using hx
  rcases hor with hx | rfl
  · exact hw x hx
  · exact hb

theorem zero_items (version : Nat) :
    RawBlock.zero.items version = zeroBlock :=
  Lays.items_eq (Lays.of_free (s := 0) (n := 64) (by omega) fun _ _ => rfl)

theorem dirAddFrom_ok {ino kind left : Nat}
    (h : dirAddFrom name ino kind left lblk d = (none, d')) (hl : lblk + left = d.blocks.length) :
    ∃ k b s as, (d.blocks[k]? = some b ∨ k = d.blocks.length ∧ b = RawBlock.zero) ∧
      b.freeRun (1 + direntExtra name.length) = some s ∧
      d' = d.put k (b.direntPut s (ino % 2 ^ 48) (UInt8.ofNat kind) name) as := by
  induction left generalizing lblk d with
  | zero =>
    rw [dirAddFrom] at h
    split at h
    · rename_i s hs
      obtain ⟨as, rfl⟩ := dirWriteBlock_ok h
      exact ⟨lblk, RawBlock.zero, s, as, .inr ⟨by omega, rfl⟩, hs, rfl⟩
    · cases h
  | succ left ih =>
    rcases hr : d.dirReadBlock lblk with ⟨read, d₁⟩
    rw [dirAddFrom, hr] at h
    obtain ⟨as, rfl, -, ⟨b, rfl, hb⟩ | ⟨⟨e, rfl⟩, -⟩⟩ := dirReadBlock_spec hr (by omega)
    · dsimp only at h
      split at h
      · rename_i s hs
        obtain ⟨as', rfl⟩ := dirWriteBlock_ok h
        exact ⟨lblk, b, s, as', .inl hb, hs, rfl⟩
      · exact ih (d := { d with answers := as }) h (show lblk + 1 + left = d.blocks.length by omega)
    · cases h

/-- **A name is added**: the new entry is in free slots of a block, or of a new one. -/
theorem dirAdd_inserted (hw : d.Accepted) {ino kind : Nat} (hino : ino % 2 ^ 48 ≠ 0)
    (h : d.dirAdd name ino kind = (none, d')) :
    d'.Accepted ∧ Inserted ⟨name, ino % 2 ^ 48, UInt8.ofNat kind⟩ d d' := by
  rw [dirAdd] at h
  split at h
  · cases h
  rename_i hlen
  rw [not_or] at hlen
  have hcont : ino % 2 ^ 48 ≠ direntCont := by
    rw [direntCont]
    omega
  obtain ⟨k, b, s, as, hk, hs, rfl⟩ := dirAddFrom_ok h (by omega)
  have hjunk : Item.junk ∉ b.items d.version := by
    rcases hk with hb | ⟨-, rfl⟩
    · exact hw b (mem_of_getElem? hb)
    · rw [zero_items]
      simp [zeroBlock]
  obtain ⟨x, y, hold, hnew⟩ := RawBlock.items_put (UInt8.ofNat kind) hjunk hs hlen.1 (by omega) hino
    hcont
  have hsl : Slotted ⟨name, ino % 2 ^ 48, UInt8.ofNat kind⟩ (1 + direntExtra name.length) d.items k
      (x ++ .head ⟨name, ino % 2 ^ 48, UInt8.ofNat kind⟩ :: y) (d.items.take k) x y
      (d.items.drop (k + 1)) := by
    refine ⟨rfl, ?_, ?_⟩
    · rw [length_take, length_items]
      rcases hk with hb | ⟨rfl, -⟩
      · have := (List.getElem?_eq_some_iff.mp hb).1
        omega
      · omega
    · rcases hk with hb | ⟨rfl, rfl⟩
      · refine .inl ?_
        rw [← hold, ← drop_items hb, take_append_drop]
      · refine .inr ⟨?_, ?_, ?_⟩
        · rw [← length_items, take_length]
        · exact drop_eq_nil_of_le (by rw [length_items]; omega)
        · rw [← hold, zero_items]
  refine ⟨hw.put ?_, rfl, _, _, hsl.entries d.version, ?_⟩
  · rw [hnew]
    rw [hold] at hjunk
    simp only [mem_append, mem_cons, not_or, reduceCtorEq, false_or] at hjunk ⊢
    exact ⟨hjunk.1.1, hjunk.2⟩
  · rw [put_items, hnew]
    exact hsl.entries_put
      (direntCheck_ne_zero.mpr ⟨hino, hcont, hlen.1, show name.length ≤ _ by omega⟩)

/-- **What was found is removed**: its slots are free. -/
theorem dirRemoveSlot_inserted (hw : d.Accepted) {p : Place} (hfind : d.dirFind name = (.ok p, d₁))
    (h : d₁.dirRemoveSlot p = (none, d')) :
    d'.Accepted ∧ ∃ e, e.name = name ∧ Inserted e d' d := by
  obtain ⟨⟨as, rfl⟩, ⟨p, f, heq, hf⟩ | ⟨⟨e, heq⟩, -⟩⟩ := dirFind_spec hfind
  swap
  · cases heq
  cases heq
  obtain ⟨as', rfl⟩ := dirWriteBlock_ok h
  have hloc : locate d.version name 0 d.items = some f := hf.located
  have hwas : p.block.items d.version = f.before ++ .head f.entry :: f.after := by
    rw [hf.entry]
    exact Lays.items_eq (hf.before.append (.head hf.checked hf.after))
  have hjunk := hw p.block (mem_of_getElem? hf.block)
  rw [hwas] at hjunk
  -- the block is the one the items had it in, with the entry's slots free
  have hcleared : (p.block.clear p.slot (1 + p.block.extra p.slot)).items d.version =
      f.removed := by
    have hslots : p.block.direntCheck p.slot d.version = 1 + direntExtra f.entry.name.length := by
      rw [hf.entry]
      obtain ⟨-, -, -, -, -, h6, -, h8⟩ := RawBlock.direntCheck_spec hf.checked
      rw [h8, h6]
      congr 2
      exact (p.block.direntName_length p.slot).symm
    rw [hf.before.clear hf.checked hf.after (by simpa using hjunk), hslots]
    rfl
  obtain ⟨A, B, -, hall, hrem, -⟩ := locate_entries hloc
  obtain ⟨pre, post, -, hfirst, -⟩ := locate_put hloc
  refine ⟨Accepted.put hw ?_, f.entry, hfirst.named, rfl, A, B, ?_, hall⟩
  · rw [hcleared, Found.removed]
    simpa using hjunk
  · rw [put_items, ← hf.lblk]
    exact (congrArg _ (congrArg _ hcleared)).trans hrem

end Directory

/-! ## The walk of `readdir` -/

namespace Directory

/-- What a whole walk is to give: the dots, and the entries in their order. -/
def listing (d : Directory) : List Emit :=
  ⟨[46], d.ino, true⟩ :: ⟨[46, 46], d.parent, true⟩ ::
    (entriesOf d.version d.items).map Emit.of

variable {i room pos : Nat} {es : List Emit} {as : List (Option Errno)} {l : Listed}

section

variable (d pos es)

/-- The entries from slot `i` of the directory on. -/
def Ahead (i : Nat) (es : List DirEntry) : Prop :=
  (∀ b, d.blocks[i / 64]? = some b → ∃ is, Lays d.version b (i % 64) 64 is ∧ Item.junk ∉ is ∧
    es = entriesIn d.version is ++ entriesOf d.version (d.items.drop (i / 64 + 1))) ∧
  (d.blocks.length ≤ i / 64 → es = [])

def RestEntries : Prop :=
  ∃ rest, es = rest.map Emit.of ∧ 2 ≤ pos ∧ Ahead d (pos - 2) rest

/-- What is still to come from a position. -/
def Rest : Prop :=
  pos = 0 ∧ es = d.listing ∨ pos = 1 ∧ es = d.listing.tail ∨ RestEntries d pos es

end

theorem Ahead.rest {es : List DirEntry} (h : Ahead d i es) : Rest d (i + 2) (es.map Emit.of) :=
  .inr (.inr ⟨es, rfl, by omega, h⟩)

theorem Ahead.of_block (hw : d.Accepted) (k : Nat) :
    Ahead d (64 * k) (entriesOf d.version (d.items.drop k)) := by
  have hdiv : 64 * k / 64 = k := by omega
  have hmod : 64 * k % 64 = 0 := by omega
  refine ⟨fun b hb => ?_, fun hle => ?_⟩
  · rw [hdiv] at hb ⊢
    rw [hmod]
    exact ⟨b.items d.version, b.lays_items d.version, hw b (mem_of_getElem? hb),
      by rw [drop_items hb, entriesOf_cons]⟩
  · rw [hdiv] at hle
    rw [drop_eq_nil_of_le (by rw [length_items]; exact hle)]
    rfl

/-- On over slots of a block to the rest of it. -/
theorem Ahead.move (hw : d.Accepted) {n : Nat}
    (hb : d.blocks[i / 64]? = some b) (h : Lays d.version b (i % 64 + n) 64 is)
    (hj : Item.junk ∉ is) :
    Ahead d (i + n) (entriesIn d.version is ++
      entriesOf d.version (d.items.drop (i / 64 + 1))) := by
  have hn := h.le
  by_cases hlt : i % 64 + n < 64
  · have hdiv : (i + n) / 64 = i / 64 := by omega
    have hmod : (i + n) % 64 = i % 64 + n := by omega
    refine ⟨fun b' hb' => ?_, fun hle => ?_⟩
    · rw [hdiv, hb] at hb'
      cases hb'
      rw [hdiv, hmod]
      exact ⟨is, h, hj, rfl⟩
    · rw [hdiv] at hle
      have := (List.getElem?_eq_some_iff.mp hb).1
      omega
  · -- the end of the block is the start of the next
    have hend : i % 64 + n = 64 := by omega
    rw [hend] at h
    obtain rfl : is = [] := h.unique (.nil 64)
    rw [show i + n = 64 * (i / 64 + 1) by omega]
    exact .of_block hw _

/-- What a call comes to, when `es` was ahead: it gave the front of it, not more than the
caller takes, the position has the rest, and without an error there was no more to take. -/
structure Gave (d : Directory) (room : Nat) (es : List Emit) (l : Listed) : Prop where
  same : ∃ as, l.d = { d with answers := as }
  split : ∃ es', es = l.out ++ es' ∧ Rest d l.pos es'
  le : l.out.length ≤ room
  all : d.answers = [] → l.out = es.take room ∧ l.rc = none ∧ l.d = d

theorem Gave.nothing {rc : Option Errno} (h : Rest d pos es)
    (hall : d.answers = [] → (es = [] ∨ room = 0) ∧ rc = none ∧ as = []) :
    Gave d room es ⟨rc, pos, [], { d with answers := as }⟩ := by
  refine ⟨⟨as, rfl⟩, ⟨es, rfl, h⟩, Nat.zero_le _, fun hans => ?_⟩
  obtain ⟨hes, hrc, has⟩ := hall hans
  refine ⟨?_, hrc, ?_⟩
  · rcases hes with rfl | rfl
    · exact take_nil.symm
    · exact take_zero.symm
  · show { d with answers := as } = d
    rw [has, ← hans]

/-- The call goes on after a read or an allocation; what is ahead does not depend on the
answers. -/
theorem Gave.after (h : Gave { d with answers := as } room es l)
    (has : d.answers = [] → as = []) : Gave d room es l := by
  refine ⟨h.same, h.split, h.le, fun hans => ?_⟩
  obtain ⟨hout, hrc, hd⟩ := h.all (has hans)
  refine ⟨hout, hrc, hd.trans ?_⟩
  rw [has hans, ← hans]

theorem Gave.cons (h : Gave d room es l) (e : Emit) :
    Gave d (room + 1) (e :: es) { l with out := e :: l.out } := by
  obtain ⟨es', heq, hrest⟩ := h.split
  refine ⟨h.same, ⟨es', by rw [heq]; rfl, hrest⟩, Nat.succ_le_succ h.le, fun hans => ?_⟩
  obtain ⟨hout, hrc, hd⟩ := h.all hans
  exact ⟨by rw [take_succ_cons, hout], hrc, hd⟩

theorem Ahead.gave_end {es : List DirEntry} (h : Ahead d i es) (hle : d.blocks.length * 64 ≤ i) :
    Gave d room (es.map Emit.of) ⟨none, i + 2, [], d⟩ := by
  refine .nothing h.rest fun hans => ⟨.inl ?_, rfl, hans⟩
  rw [h.2 (by omega)]
  rfl

section

variable (hw : d.Accepted)

include hw

/-- **The loop of `readdir`** gives the entries ahead, one after another. -/
theorem readdirLoop_gave {es : List DirEntry} (h : Ahead d i es)
    (hfuel : d.blocks.length * 64 ≤ i + fuel) :
    Gave d room (es.map Emit.of) (readdirLoop fuel room i d) := by
  induction fuel generalizing d room i es with
  | zero => exact h.gave_end (by omega)
  | succ fuel ih =>
    rcases hr : d.dirReadBlock (i / 64) with ⟨read, d₁⟩
    rw [readdirLoop, hr]
    split
    · exact h.gave_end (by omega)
    obtain ⟨as, rfl, has, ⟨b, rfl, hb⟩ | ⟨⟨e, rfl⟩, hne⟩⟩ := dirReadBlock_spec hr (by omega)
    swap
    · exact .nothing h.rest fun hans => absurd hans hne
    obtain ⟨is, hlay, hj, rfl⟩ := h.1 b hb
    -- what follows from a later slot of the block
    have hgo : ∀ {n room : Nat} {js : List Item}, 0 < n →
        Lays d.version b (i % 64 + n) 64 js → Item.junk ∉ js →
        Gave d room ((entriesIn d.version js ++
          entriesOf d.version (d.items.drop (i / 64 + 1))).map Emit.of)
          (readdirLoop fuel room (i + n) { d with answers := as }) := by
      intro n room js hn hjs hjunk
      have hnext := Ahead.move hw hb hjs hjunk
      exact (ih (d := { d with answers := as }) hw hnext
        (show d.blocks.length * 64 ≤ _ by omega)).after has
    dsimp only
    generalize hslot : i % 64 = s at hlay hgo ⊢
    -- the item at the slot
    cases hlay with
    | nil => omega
    | @free _ _ is hs h0 rest =>
      rw [if_pos (.inr h0)]
      show Gave d _ ((entriesIn d.version is ++ _).map Emit.of) _
      exact hgo Nat.one_pos rest fun hm => hj (mem_cons_of_mem _ hm)
    | junk hs h0 hc rest => exact absurd mem_cons_self hj
    | @head _ _ is hc rest =>
      obtain ⟨hlt64, h2, h3, -, -, -, -, h8⟩ := RawBlock.direntCheck_spec hc
      rw [if_neg (not_or.mpr ⟨h3, h2⟩), if_neg hc]
      cases room with
      | zero => exact .nothing h.rest fun hans => ⟨.inr rfl, rfl, has hans⟩
      | succ room =>
        rw [entriesIn_head (by rw [RawBlock.entry_check hc]; exact hc), cons_append, map_cons]
        exact (hgo (by omega) rest fun hm => hj (mem_cons_of_mem _ hm)).cons _

/-! ## Calls of `readdir` -/

theorem readdirEntries_gave (h : RestEntries d pos es) :
    Gave d room es (d.readdirEntries pos room) := by
  rcases ha : d.answer with ⟨rc, d₁⟩
  obtain ⟨as, rfl, has⟩ := answer_spec ha
  rw [readdirEntries, ha]
  cases rc with
  | none =>
    obtain ⟨rest, rfl, -, hahead⟩ := h
    exact (readdirLoop_gave (d := { d with answers := as }) hw hahead
      (Nat.le_add_left _ _)).after fun hans => (has hans).1
  | some e => exact .nothing (.inr (.inr h)) fun hans => by cases (has hans).2

theorem readdirParent_gave (h : pos = 1 ∧ es = d.listing.tail ∨ RestEntries d pos es) :
    Gave d room es (d.readdirParent pos room) := by
  rw [readdirParent.eq_def]
  rcases h with ⟨rfl, rfl⟩ | h
  · rw [if_pos rfl]
    cases room with
    | zero => exact .nothing (.inr (.inl ⟨rfl, rfl⟩)) fun hans => ⟨.inr rfl, rfl, hans⟩
    | succ room => exact (readdirEntries_gave hw ⟨_, rfl, by omega, .of_block hw 0⟩).cons _
  · obtain ⟨-, -, hpos, -⟩ := id h
    rw [if_neg (by omega)]
    exact readdirEntries_gave hw h

/-- **A call of `readdir`** gives the front of what is still to come. -/
theorem readdir_gave (hu : d.unusable = false) (h : Rest d pos es) :
    Gave d room es (d.readdir pos room) := by
  rw [readdir.eq_def, if_neg (by rw [hu]; decide)]
  rcases h with ⟨rfl, rfl⟩ | h
  · rw [if_pos rfl]
    cases room with
    | zero => exact .nothing (.inl ⟨rfl, rfl⟩) fun hans => ⟨.inr rfl, rfl, hans⟩
    | succ room => exact (readdirParent_gave hw (.inl ⟨rfl, rfl⟩)).cons _
  · have hpos : pos ≠ 0 := by
      rcases h with ⟨rfl, -⟩ | ⟨-, -, hpos, -⟩
      · decide
      · omega
    rw [if_neg hpos]
    exact readdirParent_gave hw h

/-- **Resumed calls** give what was to come, one after another. -/
theorem readdirs_eq (hu : d.unusable = false) (hans : d.answers = []) (h : Rest d pos es)
    (rooms : List Nat) : d.readdirs pos rooms = es.take rooms.sum := by
  induction rooms generalizing pos es with
  | nil => exact take_zero.symm
  | cons room rooms ih =>
    have hg : Gave d room es (d.readdir pos room) := readdir_gave hw hu h
    obtain ⟨es', heq, hrest⟩ := hg.split
    obtain ⟨hout, -, hd⟩ := hg.all hans
    have hdrop : es' = es.drop room := by
      have hsplit := take_append_drop room es
      rw [← hout] at hsplit
      exact append_cancel_left (heq.symm.trans hsplit.symm)
    rw [readdirs, hd, ih hrest, sum_cons, take_add, hout, hdrop]

/-- Whatever fails meanwhile, nothing is given twice or left out. -/
theorem readdirs_isPrefixOf (hu : d.unusable = false) (h : Rest d pos es) (rooms : List Nat) :
    d.readdirs pos rooms <+: es := by
  induction rooms generalizing d pos es with
  | nil => exact nil_prefix
  | cons room rooms ih =>
    have hg : Gave d room es (d.readdir pos room) := readdir_gave hw hu h
    obtain ⟨es', heq, hrest⟩ := hg.split
    obtain ⟨as, hd⟩ := hg.same
    rw [readdirs, hd, heq, prefix_append_right_inj]
    exact ih (d := { d with answers := as }) hw hu hrest

end

theorem mem_entries_iff {es : List DirEntry} (h : (es.map DirEntry.name).Nodup) (e : DirEntry) :
    e ∈ es ↔ es.find? (fun x => x.name = e.name) = some e := by
  refine ⟨fun he => ?_, mem_of_find?_eq_some⟩
  obtain ⟨A, B, rfl⟩ := append_of_mem he
  rw [map_append, map_cons, nodup_middle, nodup_cons] at h
  refine find_first (fun x hx heq => h.1 ?_) rfl
  exact mem_append_left _ (mem_map.mpr ⟨x, hx, heq⟩)

/-- The listing has each entry of the map, and nothing else. -/
theorem mem_listing (hdist : d.Distinct) (e : Emit) :
    e ∈ d.listing.drop 2 ↔
      ∃ kind, d.found e.name = some (e.ino, kind) ∧ e.dir = (kind = 2 : Bool) := by
  have hdrop : d.listing.drop 2 = (entriesOf d.version d.items).map Emit.of := rfl
  rw [hdrop, mem_map, found_eq]
  constructor
  · rintro ⟨x, hx, rfl⟩
    refine ⟨x.kind, ?_, rfl⟩
    have hfind := (mem_entries_iff hdist x).mp hx
    show Option.map _ (List.find? (fun y : DirEntry => y.name = x.name) _) = _
    rw [hfind]
    rfl
  · rintro ⟨kind, hfound, hdir⟩
    obtain ⟨x, hx, heq⟩ := Option.map_eq_some_iff.mp hfound
    obtain ⟨hino, rfl⟩ := Prod.mk.inj heq
    have hname : x.name = e.name := by simpa using List.find?_some hx
    refine ⟨x, mem_of_find?_eq_some hx, ?_⟩
    rw [Emit.of, hname, hino, ← hdir]

/-- An empty directory, as `mkdir` leaves it. -/
def fresh : Directory := ⟨15, 1, 1, [], false, []⟩

theorem fresh_accepted : fresh.Accepted := fun _ h => absurd h (by simp [fresh])

/-- A name of more than one slot, and a name beside it. -/
def filled : Directory := ((fresh.dirAdd (List.replicate 100 97) 7 1).2.dirAdd [98] 8 2).2

end Directory

end CosmoOS.Cosmofs
