import CosmoOS.Lib.Tally
import CosmoOS.Cosmofs.Rename
import Mathlib.Data.List.Nodup
import Mathlib.Data.List.Perm.Subperm

/-!
# Link counts

A file's count is the number of entries that name it; a directory's is two and the number of its
subdirectories.  An operation edits a few entries and changes a few vnodes, and each changed vnode
has to be written through to the inode map by a call of its own.

What an operation does to the entries is an `Edit`, the lists of what went and what came
(`NameEdit`); what it does to the counts a `CountEdit`: the inodes whose counts went up and down,
and which vnodes are still dirty.  `Sound.op` and `Right.op` turn the two into the invariant: if the
lists agree, and no vnode is left dirty, the stored counts are right again.
-/

namespace CosmoOS.Cosmofs.Dir

open Lib Fallible Function List

variable {n : Node} {e : DirEntry}

/-! ## Right counts -/

def entriesAt (T : Tree) (d : Nat) : List DirEntry := entriesOf T.version (T.dirs d)

/-- The entries that name inode `i`, in all directories. -/
def names (T : Tree) (i : Nat) : Nat :=
  ∑ d ∈ Finset.range T.nextIno, (entriesAt T d).countP fun e => e.ino = i

def isDirEntry (e : DirEntry) : Bool := e.kind = cfsType .dir

def subdirs (T : Tree) (d : Nat) : Nat := (entriesAt T d).countP isDirEntry

/-- The root, or an inode with a name. -/
def Live (T : Tree) (i : Nat) : Prop := i = rootIno ∨ 0 < names T i

/-- The stored counts are right: a file's is the number of its names (none, for one that
is unlinked and still open), a live directory's is two and its subdirectories. -/
structure LinkCounts (T : Tree) : Prop where
  file : ∀ i n, i < T.nextIno → T.stored i = some n → n.kind ≠ .dir → n.nlink = names T i
  dir : ∀ i n, i < T.nextIno → T.stored i = some n → n.kind = .dir → Live T i →
    n.nlink = 2 + subdirs T i

/-- A tree as cosmofs writes it: the vnodes are written through, the entries name inodes
of their type, and a directory has one name, the root none. -/
structure Sound (T : Tree) : Prop where
  zero : T.stored 0 = none
  written : ∀ i n, T.cached i = some n → T.stored i = some n
  room : rootIno < T.nextIno ∧ T.nextIno ≤ maxInodes
  unborn : ∀ i, T.nextIno ≤ i → T.dirs i = [] ∧ T.cached i = none
  readable : ∀ d, Readable T.version (T.dirs d)
  kinds : ∀ d, ∀ e ∈ entriesAt T d, e.ino < T.nextIno ∧
    ∃ n, T.stored e.ino = some n ∧ e.kind = cfsType n.kind
  word : ∀ i n, T.stored i = some n → n.nlink < 2 ^ 32
  oneName : ∀ i n, i < T.nextIno → T.stored i = some n → n.kind = .dir → names T i ≤ 1
  root : (∃ n, T.stored rootIno = some n ∧ n.kind = .dir) ∧ names T rootIno = 0

structure Right (T : Tree) : Prop extends Sound T, LinkCounts T

variable {T : Tree} {i : Nat}

theorem Sound.vnode (h : Sound T) (hn : T.stored i = some n) : T.vnode i = n := by
  rw [Tree.vnode]
  cases hc : T.cached i with
  | none =>
    rw [hn]
    rfl
  | some m =>
    have hm := h.written i m hc
    rw [hn] at hm
    exact (Option.some.inj hm).symm

theorem Sound.synced (h : Sound T) (hn : T.stored i = some n) : T.stored i = some (T.vnode i) := by
  rw [h.vnode hn, hn]

/-- The directories not yet numbered have no entries to count. -/
theorem names_range (hu : ∀ i, T.nextIno ≤ i → T.dirs i = []) {m : Nat} (hm : T.nextIno ≤ m)
    (i : Nat) :
    ∑ d ∈ Finset.range m, (entriesAt T d).countP (fun e => e.ino = i) = names T i := by
  refine (Finset.sum_subset (Finset.range_subset_range.mpr hm) fun d _ hd => ?_).symm
  have hle : T.nextIno ≤ d := by simpa using hd
  rw [entriesAt, hu d hle]
  rfl

theorem Sound.names_unborn (h : Sound T) (hi : T.nextIno ≤ i) :
    names T i = 0 := by
  refine Finset.sum_eq_zero fun d _ => countP_eq_zero.mpr fun e he hx => ?_
  have hlt := (h.kinds d e he).1
  have hei : e.ino = i := by simpa using hx
  omega

theorem Sound.live_lt (h : Sound T) (hl : Live T i) : i < T.nextIno := by
  rcases hl with rfl | hl
  · exact h.room.1
  · by_contra hge
    rw [h.names_unborn (by omega)] at hl
    exact absurd hl (by omega)

/-! ## Edits of names -/

structure IsDir (T : Tree) (d : Nat) : Prop where
  live : Live T d
  stored : ∃ n, T.stored d = some n ∧ n.kind = .dir

/-- The lists say how many names of `i` went and came. -/
def named (i : Nat) (l : List (Nat × DirEntry)) : Nat := l.countP fun q => q.2.ino = i

@[simp] theorem named_nil (i : Nat) : named i [] = 0 := rfl

@[simp] theorem named_cons (i : Nat) (q : Nat × DirEntry) (l : List (Nat × DirEntry)) :
    named i (q :: l) = named i l + if q.2.ino = i then 1 else 0 := by
  rw [named, countP_cons]
  simp [named]

/-- From `T` to `W` entries of numbered directories were edited and nothing else. -/
structure NameEdit (T W : Tree) (gone new : List (Nat × DirEntry)) : Prop where
  edit : Edit (entriesAt T) (entriesAt W) gone new
  place : ∀ q, q ∈ gone ∨ q ∈ new → q.1 < T.nextIno
  stored : W.stored = T.stored
  cached : W.cached = T.cached
  nextIno : W.nextIno = T.nextIno
  readable : ∀ d, Readable W.version (W.dirs d)
  unborn : ∀ i, T.nextIno ≤ i → T.dirs i = [] ∧ W.dirs i = []

/-- A directory that can be edited: its vnode is written through. -/
structure Writable (T : Tree) (d : Nat) : Prop where
  readable : ∀ x, Readable T.version (T.dirs x)
  unborn : ∀ i, T.nextIno ≤ i → T.dirs i = []
  lt : d < T.nextIno
  synced : T.stored d = some (T.vnode d)

theorem Sound.writable {d : Nat} (h : Sound T) (hd : IsDir T d) : Writable T d := by
  obtain ⟨n, hn, -⟩ := hd.stored
  exact ⟨h.readable, fun i hi => (h.unborn i hi).1, h.live_lt hd.live, h.synced hn⟩

section NameEdit

variable {W : Tree} {gone new : List (Nat × DirEntry)} {d v c : Nat}

theorem NameEdit.vnode (h : NameEdit T W gone new) (i : Nat) : W.vnode i = T.vnode i := by
  rw [Tree.vnode, Tree.vnode, h.stored, h.cached]

theorem NameEdit.written (h : NameEdit T W gone new)
    (hT : ∀ i n, T.cached i = some n → T.stored i = some n) (i : Nat) (n : Node)
    (hn : W.cached i = some n) : W.stored i = some n := by
  rw [h.stored]
  exact hT i n (h.cached ▸ hn)

theorem NameEdit.writable (h : NameEdit T W gone new) (hd : Writable T d) : Writable W d := by
  refine ⟨h.readable, fun i hi => (h.unborn i (h.nextIno ▸ hi)).2, h.nextIno.symm ▸ hd.lt, ?_⟩
  rw [h.stored, h.vnode]
  exact hd.synced

theorem NameEdit.trans {V : Tree} {a b c d : List (Nat × DirEntry)} (h1 : NameEdit T V a b)
    (h2 : NameEdit V W c d) : NameEdit T W (a ++ c) (b ++ d) := by
  refine ⟨h1.edit.trans h2.edit, fun q hq => ?_, h2.stored.trans h1.stored,
    h2.cached.trans h1.cached, h2.nextIno.trans h1.nextIno, h2.readable, fun i hi =>
    ⟨(h1.unborn i hi).1, (h2.unborn i (h1.nextIno.symm ▸ hi)).2⟩⟩
  rw [mem_append, mem_append, or_or_or_comm] at hq
  exact hq.elim (h1.place q) fun hq => h1.nextIno ▸ h2.place q hq

theorem stored_sync {i : Nat} (h : T.stored i = some (T.vnode i)) :
    (T.sync i).stored = T.stored := by
  show update T.stored i (some (T.vnode i)) = T.stored
  rw [← h, update_eq_self]

section

variable (hd : Writable T d) {name : List UInt8} {f : Found}

include hd

/-- The blocks of one directory are written, in a format that may have been raised. -/
theorem nameEdit_write {bs : List DirBlock} (hv : T.version ≤ v) (hb : Readable v bs)
    (he : Edit (entriesAt T) (update (entriesAt T) d (entriesOf v bs)) gone new)
    (hat : ∀ q, q ∈ gone ∨ q ∈ new → q.1 = d) :
    NameEdit T ((({ T with version := v, orphanCap := c } : Tree).putDir d bs).sync d)
      gone new := by
  have hw : (({ T with version := v, orphanCap := c } : Tree).putDir d bs).stored d
      = some ((({ T with version := v, orphanCap := c } : Tree).putDir d bs).vnode d) := hd.synced
  have hsame : (fun x => entriesOf v (T.dirs x)) = entriesAt T :=
    funext fun x => (hd.readable x).entries hv
  have hent : entriesAt ((({ T with version := v, orphanCap := c } : Tree).putDir d bs).sync d)
      = update (entriesAt T) d (entriesOf v bs) := by
    funext x
    rw [← hsame]
    exact apply_update (fun _ => entriesOf v) T.dirs d bs x
  have hlt := hd.lt
  refine ⟨hent ▸ he, fun q hq => hat q hq ▸ hlt, stored_sync hw, rfl, rfl, ?_, fun i hi => ?_⟩
  · exact (forall_update_iff T.dirs fun _ b => Readable v b).mpr
      ⟨hb, fun x _ => (hd.readable x).mono hv⟩
  · exact ⟨hd.unborn i hi, (update_of_ne (by omega) _ _).trans (hd.unborn i hi)⟩

theorem nameEdit_remove (hf : locate T.version name 0 (T.dirs d) = some f) :
    NameEdit T ((({ T with orphanCap := c } : Tree).putDir d
      (putBlock (T.dirs d) f.lblk f.removed)).sync d) [(d, f.entry)] [] := by
  obtain ⟨A, B, _, he, hrem, _⟩ := locate_entries hf
  refine nameEdit_write hd (Nat.le_refl _) (readable_removed (hd.readable d) hf) ?_ (by simp)
  rw [hrem]
  exact Edit.remove he

theorem nameEdit_repoint {k : UInt8} (hf : locate T.version name 0 (T.dirs d) = some f)
    (hc : direntCheck T.version (f.repoint i k).entry ≠ 0) :
    NameEdit T ((({ T with orphanCap := c } : Tree).putDir d
      (putBlock (T.dirs d) f.lblk (f.repoint i k).block)).sync d)
      [(d, f.entry)] [(d, (f.repoint i k).entry)] := by
  obtain ⟨A, B, _, he, _, hrep⟩ := locate_entries hf
  refine nameEdit_write hd (Nat.le_refl _) (readable_repoint (hd.readable d) hf hc) ?_ (by simp)
  rw [hrep i k hc]
  exact Edit.replace he

theorem nameEdit_add {U : Tree} (hv : T.version ≤ v) (h : Added { T with version := v } d e U)
    (hc : direntCheck v e ≠ 0) : NameEdit T U [] [(d, e)] := by
  obtain ⟨-, -, k, b, pre, x, y, post, hsl, rfl⟩ := h
  refine nameEdit_write hd hv (hsl.readable ((hd.readable d).mono hv) hc) ?_ (by simp)
  rw [hsl.entries_put hc]
  refine Edit.insert ?_
  rw [← hsl.entries v]
  exact ((hd.readable d).entries hv).symm

end

end NameEdit

/-! ## Changes of counts -/

theorem wrapAdd_eq {n : Nat} (h : n + 1 < 2 ^ 32) : wrapAdd n = n + 1 := Nat.mod_eq_of_lt h

theorem wrapSub_eq {n : Nat} (h0 : 0 < n) (h : n < 2 ^ 32) : wrapSub n = n - 1 := by
  have hn : n + (2 ^ 32 - 1) = (n - 1) + 2 ^ 32 := by omega
  rw [wrapSub, hn, Nat.add_mod_right, Nat.mod_eq_of_lt (by omega)]

/-- A vnode whose count went up and down by as much, if it was not dropped. -/
structure Counted (n n' : Node) (up down : Nat) (dropped : Prop) : Prop where
  kind : n'.kind = n.kind
  word : n.nlink < 2 ^ 32 → n'.nlink < 2 ^ 32
  nlink : ¬ dropped → n'.nlink + down = n.nlink + up

/-- From `W` to `U` vnodes were changed.  A count went up by one for every time the inode is in
`up` and down for every time it is in `down`; that of one in `drop` is not looked at again.
All but the `dirty` ones are written through. -/
structure CountEdit (W U : Tree) (up down drop : List Nat) (dirty : Nat → Prop) : Prop where
  dirs : U.dirs = W.dirs
  version : U.version = W.version
  nextIno : U.nextIno = W.nextIno
  vnodes : ∀ i, Counted (W.vnode i) (U.vnode i) (up.count i) (down.count i) (i ∈ drop)
  synced : ∀ i n, ¬ dirty i → U.cached i = some n → U.stored i = some n
  domain : ∀ i, U.stored i = none ↔ W.stored i = none
  unborn : ∀ i, W.nextIno ≤ i → U.cached i = W.cached i

section CountEdit

variable {W U : Tree} {up down drop : List Nat} {dirty : Nat → Prop}

theorem CountEdit.refl (hW : ∀ i n, W.cached i = some n → W.stored i = some n) :
    CountEdit W W [] [] [] (fun _ => False) :=
  ⟨rfl, rfl, rfl, fun _ => ⟨rfl, id, fun _ => rfl⟩, fun i n _ => hW i n, fun _ => .rfl,
    fun _ _ => rfl⟩

theorem vnode_setVnode (T : Tree) (i j : Nat) (n : Node) :
    (T.setVnode i n).vnode j = if j = i then n else T.vnode j := by
  show (update T.cached i (some n) j).getD ((T.stored j).getD _) = _
  by_cases hj : j = i
  · subst hj
    rw [update_self, if_pos rfl]
    rfl
  · rw [update_of_ne hj, if_neg hj]
    rfl

section

variable (h : CountEdit W U up down drop dirty)

include h

/-- The record of unlinked inodes and the failed mark are no counts. -/
theorem CountEdit.aside (o : List Nat) (f : Option Errno) :
    CountEdit W { U with orphans := o, failed := f } up down drop dirty :=
  { h with }

section

variable (hi : i < W.nextIno)

include hi

/-- A vnode is changed. -/
theorem CountEdit.vnode {up' down' drop' : List Nat}
    (hn : Counted (W.vnode i) n (up'.count i) (down'.count i) (i ∈ drop')) (hsame : ∀ j, j ≠ i →
      up'.count j = up.count j ∧ down'.count j = down.count j ∧ (j ∈ drop' ↔ j ∈ drop)) :
    CountEdit W (U.setVnode i n) up' down' drop' (fun j => j = i ∨ dirty j) := by
  have hother : ∀ j, j ≠ i → (U.setVnode i n).cached j = U.cached j :=
    fun j hj => update_of_ne hj _ _
  refine { h with vnodes := fun j => ?_, synced := fun j m hj hm => ?_, unborn := fun j hj => ?_ }
  · rw [vnode_setVnode]
    by_cases hji : j = i
    · rw [if_pos hji, hji]
      exact hn
    · obtain ⟨h1, h2, h3⟩ := hsame j hji
      rw [if_neg hji, h1, h2, h3]
      exact h.vnodes j
  · rw [hother j fun hx => hj (Or.inl hx)] at hm
    exact h.synced j m (fun hd => hj (Or.inr hd)) hm
  · rw [hother j (by omega)]
    exact h.unborn j hj

theorem CountEdit.more (hlt : (U.vnode i).nlink + 1 < 2 ^ 32) :
    CountEdit W (U.setNlink i (wrapAdd (U.vnode i).nlink)) (i :: up) down drop
      (fun j => j = i ∨ dirty j) := by
  obtain ⟨hk, -, hn⟩ := h.vnodes i
  rw [wrapAdd_eq hlt]
  refine h.vnode hi ⟨hk, fun _ => hlt, fun hd => ?_⟩ fun j hj =>
    ⟨count_cons_of_ne (Ne.symm hj), rfl, .rfl⟩
  have := hn hd
  rw [count_cons_self]
  show (U.vnode i).nlink + 1 + _ = _
  omega

theorem CountEdit.less (h0 : 0 < (U.vnode i).nlink) (hlt : (U.vnode i).nlink < 2 ^ 32) :
    CountEdit W (U.setNlink i (wrapSub (U.vnode i).nlink)) up (i :: down) drop
      (fun j => j = i ∨ dirty j) := by
  obtain ⟨hk, -, hn⟩ := h.vnodes i
  rw [wrapSub_eq h0 hlt]
  refine h.vnode hi ⟨hk, fun _ => Nat.lt_of_le_of_lt (Nat.sub_le _ _) hlt, fun hd => ?_⟩ fun j hj =>
    ⟨rfl, count_cons_of_ne (Ne.symm hj), .rfl⟩
  have := hn hd
  rw [count_cons_self]
  show (U.vnode i).nlink - 1 + _ = _
  omega

theorem CountEdit.dropped :
    CountEdit W (U.setNlink i 0) up down (i :: drop) (fun j => j = i ∨ dirty j) :=
  h.vnode hi ⟨(h.vnodes i).kind, fun _ => Nat.two_pow_pos 32, fun hd => absurd (by simp) hd⟩
    fun j hj => ⟨rfl, rfl, by simp [hj]⟩

end

theorem CountEdit.sync (hs : W.stored i ≠ none) :
    CountEdit W (U.sync i) up down drop (fun j => dirty j ∧ j ≠ i) := by
  refine { h with vnodes := fun j => ?_, synced := fun j n hj hn => ?_, domain := fun j => ?_ }
  · rw [vnode_sync]
    exact h.vnodes j
  · have hc : U.cached j = some n := hn
    show update U.stored i (some (U.vnode i)) j = some n
    by_cases hji : j = i
    · subst hji
      rw [update_self, Tree.vnode, hc]
      rfl
    · rw [update_of_ne hji]
      exact h.synced j n (fun hd => hj ⟨hd, hji⟩) hc
  · show update U.stored i (some (U.vnode i)) j = none ↔ _
    by_cases hji : j = i
    · subst hji
      simp [hs]
    · rw [update_of_ne hji]
      exact h.domain j

/-- A vnode is made for an inode, as the map has it. -/
theorem CountEdit.fill (hi : i < W.nextIno) (hs : U.stored i = some (U.vnode i)) :
    CountEdit W (U.setVnode i (U.vnode i)) up down drop dirty := by
  have hv := h.vnode hi (h.vnodes i) fun _ _ => ⟨rfl, rfl, .rfl⟩
  refine { hv with synced := fun j n hj hc => ?_ }
  by_cases hji : j = i
  · subst hji
    have hc : update U.cached j (some (U.vnode j)) j = some n := hc
    rw [update_self] at hc
    exact hs.trans hc
  · exact hv.synced j n (not_or.mpr ⟨hji, hj⟩) hc

/-- A count that goes up and down again. -/
theorem CountEdit.both (d : Nat) : CountEdit W U (d :: up) (d :: down) drop dirty := by
  refine { h with vnodes := fun i => { h.vnodes i with nlink := fun hd => ?_ } }
  have := (h.vnodes i).nlink hd
  rw [count_cons, count_cons]
  omega

theorem CountEdit.mono {dirty' : Nat → Prop} (hall : ∀ i, dirty i → dirty' i) :
    CountEdit W U up down drop dirty' :=
  { h with synced := fun i n hi => h.synced i n (mt (hall i) hi) }

theorem CountEdit.entriesAt : entriesAt U = entriesAt W := by
  funext x
  rw [Dir.entriesAt, Dir.entriesAt, h.version, h.dirs]

end

theorem CountEdit.stored (h : CountEdit W U up down drop fun _ => False) (hs : W.stored i ≠ none) :
    U.stored i = some (U.vnode i) := by
  rw [Tree.vnode]
  cases hc : U.cached i with
  | some n => exact h.synced i n id hc
  | none =>
    obtain ⟨n, hn⟩ := Option.ne_none_iff_exists'.mp (mt (h.domain i).mp hs)
    rw [hn]
    rfl

end CountEdit

section Op

variable {T W U : Tree} {gone new : List (Nat × DirEntry)} {up down drop : List Nat}
  {dirty : Nat → Prop}

section

variable (hn : NameEdit T W gone new) (hc : CountEdit W U up down drop dirty)

include hn hc

theorem NameEdit.names (i : Nat) : names U i + named i gone = Dir.names T i + named i new := by
  have hnext : T.nextIno ≤ U.nextIno := Nat.le_of_eq (hc.nextIno.trans hn.nextIno).symm
  have hedit : Edit (Dir.entriesAt T) (Dir.entriesAt U) gone new := hc.entriesAt ▸ hn.edit
  have ht := hedit.total (fun e => decide (e.ino = i)) (Finset.range U.nextIno)
    (fun q hq => Finset.mem_range.mpr (Nat.lt_of_lt_of_le (hn.place q (.inl hq)) hnext))
    (fun q hq => Finset.mem_range.mpr (Nat.lt_of_lt_of_le (hn.place q (.inr hq)) hnext))
  rw [names_range (fun i hi => (hn.unborn i hi).1) hnext] at ht
  exact ht

theorem NameEdit.subdirs (d : Nat) :
    subdirs U d + tally isDirEntry d gone = Dir.subdirs T d + tally isDirEntry d new := by
  rw [Dir.subdirs, hc.entriesAt]
  exact hn.edit d isDirEntry

end

/-- **What an operation has to keep.**  The names are edited, then the counts: the tree is right
if every count is what the edited entries say, and every vnode is written through. -/
theorem Sound.op (hT : Sound T) (hn : NameEdit T W gone new)
    (hc : CountEdit W U up down drop fun _ => False)
    (hnew : ∀ q ∈ new, q.2.ino < T.nextIno ∧
      ∃ n, T.stored q.2.ino = some n ∧ q.2.kind = cfsType n.kind)
    (hroot : names U rootIno = 0)
    (hcount : ∀ i n, i < T.nextIno → T.stored i = some n →
      (n.kind ≠ .dir → (U.vnode i).nlink = names U i) ∧
      (n.kind = .dir → names U i ≤ 1 ∧ (Live U i → (U.vnode i).nlink = 2 + subdirs U i))) :
    Right U := by
  have hnext : U.nextIno = T.nextIno := hc.nextIno.trans hn.nextIno
  have hst : ∀ i n, T.stored i = some n →
      U.stored i = some (U.vnode i) ∧ (U.vnode i).kind = n.kind := by
    intro i n h
    refine ⟨hc.stored (by rw [hn.stored, h]; simp), ?_⟩
    rw [(hc.vnodes i).kind, hn.vnode, hT.vnode h]
  have hnone : ∀ i, T.stored i = none → U.stored i = none := by
    intro i h
    rw [hc.domain, hn.stored]
    exact h
  -- an inode of the map was there before, of the same kind
  have hwas : ∀ {i n'}, U.stored i = some n' →
      U.vnode i = n' ∧ ∃ n, T.stored i = some n ∧ n'.kind = n.kind := by
    intro i n' hs'
    cases hs : T.stored i with
    | none =>
      rw [hnone i hs] at hs'
      cases hs'
    | some n =>
      obtain ⟨h1, hk⟩ := hst i n hs
      obtain rfl : U.vnode i = n' := Option.some.inj (h1.symm.trans hs')
      exact ⟨rfl, n, rfl, hk⟩
  refine ⟨⟨hnone 0 hT.zero, fun i n => hc.synced i n id, hnext ▸ hT.room, ?_, ?_, ?_, ?_, ?_, ?_⟩,
    ?_, ?_⟩
  · intro i hi
    rw [hnext] at hi
    rw [hc.dirs, hc.unborn i (hn.nextIno ▸ hi), hn.cached]
    exact ⟨(hn.unborn i hi).2, (hT.unborn i hi).2⟩
  · intro d
    rw [hc.version, hc.dirs]
    exact hn.readable d
  · intro d e hd
    rw [hc.entriesAt] at hd
    have hkind : e.ino < T.nextIno ∧ ∃ n, T.stored e.ino = some n ∧ e.kind = cfsType n.kind :=
      (hn.edit.mem hd).elim (hT.kinds d e) (hnew _)
    obtain ⟨hlt, n, hs, hk⟩ := hkind
    obtain ⟨hs', hk'⟩ := hst _ n hs
    exact ⟨hnext ▸ hlt, _, hs', by rw [hk', hk]⟩
  · intro i n' hs'
    obtain ⟨rfl, n, hs, -⟩ := hwas hs'
    refine (hc.vnodes i).word ?_
    rw [hn.vnode, hT.vnode hs]
    exact hT.word i n hs
  · intro i n' hi hs' hk
    obtain ⟨-, n, hs, hk'⟩ := hwas hs'
    exact ((hcount i n (hnext ▸ hi) hs).2 (hk'.symm.trans hk)).1
  · obtain ⟨⟨n, hs, hk⟩, -⟩ := hT.root
    obtain ⟨hs', hk'⟩ := hst _ n hs
    exact ⟨⟨_, hs', hk'.trans hk⟩, hroot⟩
  · intro i n' hi hs' hk
    obtain ⟨rfl, n, hs, hk'⟩ := hwas hs'
    exact (hcount i n (hnext ▸ hi) hs).1 (hk' ▸ hk)
  · intro i n' hi hs' hk hlive
    obtain ⟨rfl, n, hs, hk'⟩ := hwas hs'
    exact ((hcount i n (hnext ▸ hi) hs).2 (hk'.symm.trans hk)).2 hlive

/-- **An operation on inodes that exist.**  The lists agree: every count moves by what the edit
says, but for a directory whose name went. -/
theorem Right.op (hT : Right T) (hn : NameEdit T W gone new)
    (hc : CountEdit W U up down drop fun _ => False)
    (hnew : ∀ q ∈ new, q.2.ino < T.nextIno ∧
      ∃ n, T.stored q.2.ino = some n ∧ q.2.kind = cfsType n.kind)
    (hcount : ∀ i n, T.stored i = some n →
      (n.kind ≠ .dir → i ∉ drop ∧ up.count i + named i gone = down.count i + named i new) ∧
      (n.kind = .dir → named i new ≤ named i gone ∧ (named i gone = named i new →
        i ∉ drop ∧ up.count i + tally isDirEntry i gone = down.count i + tally isDirEntry i new))) :
    Right U := by
  have hnames := hn.names hc
  have hsub := hn.subdirs hc
  have hlink : ∀ i n, T.stored i = some n → i ∉ drop →
      (U.vnode i).nlink + down.count i = n.nlink + up.count i := by
    intro i n hs hd
    rw [(hc.vnodes i).nlink hd, hn.vnode, hT.vnode hs]
  refine hT.toSound.op hn hc hnew ?_ fun i n hlt hs => ?_
  · obtain ⟨⟨n, hs, hk⟩, h0⟩ := hT.root
    have hle := ((hcount _ n hs).2 hk).1
    have := hnames rootIno
    omega
  obtain ⟨hfile, hdir⟩ := hcount i n hs
  have hname := hnames i
  refine ⟨fun hk => ?_, fun hk => ⟨?_, fun hlive => ?_⟩⟩
  · obtain ⟨hd, h1⟩ := hfile hk
    have h2 := hT.file i n hlt hs hk
    have h3 := hlink i n hs hd
    omega
  · have hle := (hdir hk).1
    have hone := hT.oneName i n hlt hs hk
    omega
  · obtain ⟨hle, hcounts⟩ := hdir hk
    have hone := hT.oneName i n hlt hs hk
    -- a directory that is still in the tree has kept its name
    have hkept : named i gone = named i new ∧ Live T i := by
      rcases hlive with rfl | hpos
      · have := hT.root.2
        exact ⟨by omega, Or.inl rfl⟩
      · exact ⟨by omega, Or.inr (by omega)⟩
    obtain ⟨hd, h1⟩ := hcounts hkept.1
    have h2 := hT.dir i n hlt hs hk hkept.2
    have h3 := hlink i n hs hd
    have := hsub i
    omega

end Op

/-! ## What the VFS promises -/

theorem IsDir.ne_file {d : Nat} (h : IsDir T d) (hn : T.stored i = some n) (hk : n.kind ≠ .dir) :
    ¬ d = i := by
  rintro rfl
  obtain ⟨m, hm, hmk⟩ := h.stored
  exact hk (Option.some.inj (hm.symm.trans hn) ▸ hmk)

theorem isDirEntry_iff {k : Kind} (h : e.kind = cfsType k) : isDirEntry e = true ↔ k = .dir := by
  rw [isDirEntry, decide_eq_true_iff, h]
  exact ⟨cfsType_inj, fun hk => by rw [hk]⟩

theorem countP_le_names {d : Nat} (hd : d < T.nextIno) (i : Nat) :
    (entriesAt T d).countP (fun e => e.ino = i) ≤ names T i :=
  Finset.single_le_sum (f := fun d => (entriesAt T d).countP fun e => e.ino = i)
    (fun _ _ => Nat.zero_le _) (Finset.mem_range.mpr hd)

/-- Each subdirectory has one name, so there are no more of them than inodes. -/
theorem Sound.subdirs_le (h : Sound T) {d : Nat} (hd : d < T.nextIno) :
    subdirs T d ≤ T.nextIno := by
  have hsub : ((entriesAt T d).filter isDirEntry).map DirEntry.ino ⊆ List.range T.nextIno := by
    intro i hi
    obtain ⟨e, he, rfl⟩ := mem_map.mp hi
    exact mem_range.mpr (h.kinds d e (mem_filter.mp he).1).1
  have hnd : (((entriesAt T d).filter isDirEntry).map DirEntry.ino).Nodup := by
    refine nodup_iff_count_le_one.mpr fun i => ?_
    by_cases hi : i ∈ ((entriesAt T d).filter isDirEntry).map DirEntry.ino
    · obtain ⟨e, he, rfl⟩ := mem_map.mp hi
      obtain ⟨hed, hek⟩ := mem_filter.mp he
      obtain ⟨hlt, n, hn, hk⟩ := h.kinds d e hed
      have hone := h.oneName e.ino n hlt hn ((isDirEntry_iff hk).mp hek)
      have hle := countP_le_names hd e.ino
      have hcount : (((entriesAt T d).filter isDirEntry).map DirEntry.ino).count e.ino
          ≤ (entriesAt T d).countP fun x => x.ino = e.ino := by
        rw [List.count, countP_map]
        exact List.Sublist.countP_le filter_sublist
      omega
    · rw [count_eq_zero_of_not_mem hi]
      omega
  have hlen := (subperm_of_subset hnd hsub).length_le
  rw [length_map, length_range] at hlen
  rw [subdirs, countP_eq_length_filter]
  exact hlen

theorem Right.dir_links (h : Right T) {d : Nat} (hd : IsDir T d) :
    2 ≤ (T.vnode d).nlink ∧ (T.vnode d).nlink + 1 < 2 ^ 32 := by
  obtain ⟨n, hn, hk⟩ := hd.stored
  have hlt := h.live_lt hd.live
  have hc := h.dir d n hlt hn hk hd.live
  have hs := h.subdirs_le hlt
  have hr := h.room.2
  have : maxInodes = 3870960 := rfl
  rw [h.vnode hn]
  omega

end CosmoOS.Cosmofs.Dir
