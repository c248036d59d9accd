import Mathlib.Algebra.GroupWithZero.Nat
import Mathlib.Data.List.Perm.Basic
import Mathlib.Algebra.BigOperators.Group.List.Basic
import Mathlib.Tactic.Cases

/-!
# Reassembly

A stream arrives in pieces, out of order and overlapping.  A piece has a position on the stream; the
pieces that wait for what is before them are a queue.

* `Agrees`: the bytes of a list are those of the stream from a position.
* `Queued`: a queue is in order, its pieces are apart and not empty, and all agree with the stream.
  The ends of the stream that have been seen are a parameter: a piece that carries an end has one no
  later than where it stops.
* `scan` and `place` put a new piece into a queue: what it covers goes, and it is refused when it
  would overlap what stays (`scan_spec`, `Queued.place`).
* `drain` takes off a queue what has become contiguous, as far as there is room (`Queued.drain`).
-/

namespace CosmoOS.Lib.Reassembly

open List

variable {β : Type*} {stream : ℕ → β} {ends : ℕ → Prop}

variable {data : List β} {pos : ℕ}

/-! ## Bytes of a stream -/

/-- The bytes of a list are those of the stream from a position. -/
def Agrees (stream : ℕ → β) (pos : ℕ) (data : List β) : Prop :=
  ∀ i b, data[i]? = some b → b = stream (pos + i)

theorem Agrees.nil (pos : ℕ) : Agrees stream pos [] := by
  intro i b hb
  contradiction

theorem Agrees.take (h : Agrees stream pos data) (n : ℕ) : Agrees stream pos (data.take n) := by
  intro i b hb
  rw [List.getElem?_take] at hb
  split_ifs at hb
  exact h i b hb

theorem Agrees.drop (h : Agrees stream pos data) (n : ℕ) :
    Agrees stream (pos + n) (data.drop n) := by
  intro i b hb
  rw [List.getElem?_drop] at hb
  rw [Nat.add_assoc]
  exact h (n + i) b hb

theorem Agrees.append {left right : List β} (hl : Agrees stream pos left)
    (hr : Agrees stream (pos + left.length) right) : Agrees stream pos (left ++ right) := by
  intro i b hb
  rcases Nat.lt_or_ge i left.length with hi | hi
  · rw [List.getElem?_append_left hi] at hb
    exact hl i b hb
  · rw [List.getElem?_append_right hi] at hb
    rw [hr _ b hb]
    congr 1
    omega

/-- A list that agrees with the stream from its beginning is a beginning of the stream. -/
theorem Agrees.eq_map_range (h : Agrees stream 0 data) :
    data = (List.range data.length).map stream := by
  refine ext_getElem (by simp) ?_
  intro i hi _
  rw [getElem_map, getElem_range, h i _ (List.getElem?_eq_getElem hi), Nat.zero_add]

/-! ## Pieces -/

/-- A piece of the stream; `fin` says that an end of the stream came with it. -/
structure Piece (β : Type*) where
  pos : ℕ
  data : List β
  fin : Bool

variable {ps : List (Piece β)} {x : Piece β}

/-- Where a piece stops. -/
def Piece.stop (x : Piece β) : ℕ := x.pos + x.data.length

/-- The bytes of a queue. -/
def bytes (ps : List (Piece β)) : ℕ := (ps.map fun x => x.data.length).sum

theorem bytes_cons (x : Piece β) (ps : List (Piece β)) :
    bytes (x :: ps) = x.data.length + bytes ps := by
  rw [bytes, bytes, map_cons, sum_cons]

/-- **A queue.** -/
structure Queued (stream : ℕ → β) (ends : ℕ → Prop) (ps : List (Piece β)) : Prop where
  order : ps.Pairwise fun x y => x.stop ≤ y.pos
  full : ∀ x ∈ ps, 0 < x.data.length
  agrees : ∀ x ∈ ps, Agrees stream x.pos x.data
  fin : ∀ x ∈ ps, x.fin = true → ∃ f, ends f ∧ f ≤ x.stop

theorem Queued.nil : Queued stream ends [] where
  order := .nil
  full := fun _ => nofun
  agrees := fun _ => nofun
  fin := fun _ => nofun

theorem Queued.sublist {qs : List (Piece β)} (h : Queued stream ends ps) (hs : qs.Sublist ps) :
    Queued stream ends qs where
  order := h.order.sublist hs
  full := fun x hx => h.full x (hs.subset hx)
  agrees := fun x hx => h.agrees x (hs.subset hx)
  fin := fun x hx => h.fin x (hs.subset hx)

theorem Queued.tail (h : Queued stream ends (x :: ps)) : Queued stream ends ps :=
  h.sublist (sublist_cons_self x ps)

theorem Queued.mono {ends' : ℕ → Prop} (h : Queued stream ends ps)
    (he : ∀ f, ends f → ends' f) : Queued stream ends' ps where
  order := h.order
  full := h.full
  agrees := h.agrees
  fin := by
    intro x hx hfin
    obtain ⟨f, hf, hle⟩ := h.fin x hx hfin
    exact ⟨f, he f hf, hle⟩

/-! ## A new piece -/

/-- What a new piece from `lo` to `hi` meets in the queue: what stays, the bytes that go because
it covers them, whether an end of the stream went with them, and whether it may be queued. -/
def scan (lo hi : ℕ) : List (Piece β) → List (Piece β) × ℕ × Bool × Bool
  | [] => ([], 0, false, true)
  | x :: ps =>
    if x.stop ≤ lo ∨ hi ≤ x.pos then
      match scan lo hi ps with
      | (kept, gone, f, ok) => (x :: kept, gone, f, ok)
    else if lo ≤ x.pos ∧ x.stop ≤ hi then
      match scan lo hi ps with
      | (kept, gone, f, ok) => (kept, x.data.length + gone, x.fin || f, ok)
    else (x :: ps, 0, false, false)

structure Scanned (lo hi : ℕ) (ps : List (Piece β)) (r : List (Piece β) × ℕ × Bool × Bool) :
    Prop where
  sublist : r.1.Sublist ps
  bytes : bytes r.1 + r.2.1 = bytes ps
  /-- What stays is apart from a piece that may be queued. -/
  apart : r.2.2.2 = true → ∀ x ∈ r.1, x.stop ≤ lo ∨ hi ≤ x.pos
  /-- An end of the stream that went came with something the new piece covers. -/
  fin : r.2.2.1 = true → ∃ x ∈ ps, x.fin = true ∧ x.stop ≤ hi

theorem scan_spec (lo hi : ℕ) (ps : List (Piece β)) : Scanned lo hi ps (scan lo hi ps) := by
  induction ps with
  | nil => exact ⟨.slnil, rfl, fun _ _ => nofun, nofun⟩
  | cons y ps ih =>
    rw [scan]
    rcases hscan : scan lo hi ps with ⟨kept, gone, f, ok⟩
    rw [hscan] at ih
    have hbytes := ih.bytes
    have hfin : f = true → ∃ x ∈ y :: ps, x.fin = true ∧ x.stop ≤ hi := by
      intro hf
      obtain ⟨x, hx, hxf⟩ := ih.fin hf
      exact ⟨x, mem_cons_of_mem y hx, hxf⟩
    split_ifs with hapart hcov
    · refine ⟨ih.sublist.cons_cons y, ?_, ?_, hfin⟩
      · rw [bytes_cons, bytes_cons]
        dsimp only at hbytes ⊢
        omega
      · exact fun hok => forall_mem_cons.mpr ⟨hapart, ih.apart hok⟩
    · refine ⟨ih.sublist.cons y, ?_, ih.apart, fun hf => ?_⟩
      · rw [bytes_cons]
        dsimp only at hbytes ⊢
        omega
      · rcases Bool.or_eq_true _ _ ▸ hf with hy | hps
        · exact ⟨y, mem_cons_self, hy, hcov.2⟩
        · exact hfin hps
    · exact ⟨List.Sublist.refl _, rfl, nofun, nofun⟩

/-- The place of a piece in the order. -/
def place (x : Piece β) : List (Piece β) → List (Piece β)
  | [] => [x]
  | y :: ps => if y.pos < x.pos then y :: place x ps else x :: y :: ps

theorem place_perm (x : Piece β) (ps : List (Piece β)) : (place x ps).Perm (x :: ps) := by
  induction ps with
  | nil => exact .refl _
  | cons y ps ih =>
    rw [place]
    split_ifs
    · exact (ih.cons y).trans (List.Perm.swap x y ps)
    · exact .refl _

theorem place_bytes (x : Piece β) (ps : List (Piece β)) :
    bytes (place x ps) = x.data.length + bytes ps := by
  exact ((place_perm x ps).map _).sum_eq

/-- **A piece that is apart from the queue keeps its place in the order.** -/
theorem place_order (hx : 0 < x.data.length)
    (hfull : ∀ y ∈ ps, 0 < y.data.length) (horder : ps.Pairwise fun y z => y.stop ≤ z.pos)
    (hapart : ∀ y ∈ ps, y.stop ≤ x.pos ∨ x.stop ≤ y.pos) :
    (place x ps).Pairwise fun y z => y.stop ≤ z.pos := by
  induction ps with
  | nil => exact pairwise_singleton _ x
  | cons y ps ih =>
    rw [pairwise_cons] at horder
    have hy := hapart y mem_cons_self
    have hlen := hfull y mem_cons_self
    have htail := ih (fun z hz => hfull z (mem_cons_of_mem y hz)) horder.2
      (fun z hz => hapart z (mem_cons_of_mem y hz))
    unfold Piece.stop at hy
    rw [place]
    split_ifs with hlt
    · refine pairwise_cons.mpr ⟨?_, htail⟩
      intro z hz
      rcases mem_cons.mp ((place_perm x ps).subset hz) with rfl | hz
      · unfold Piece.stop
        omega
      · exact horder.1 z hz
    · have hxy : x.stop ≤ y.pos := by
        unfold Piece.stop
        omega
      refine pairwise_cons.mpr ⟨?_, pairwise_cons.mpr horder⟩
      intro z hz
      rcases mem_cons.mp hz with rfl | hz
      · exact hxy
      · have hyz := horder.1 z hz
        unfold Piece.stop at hxy hyz ⊢
        omega

theorem Queued.place (h : Queued stream ends ps)
    (hfull : 0 < x.data.length) (hagrees : Agrees stream x.pos x.data)
    (hfin : x.fin = true → ∃ f, ends f ∧ f ≤ x.stop)
    (hapart : ∀ y ∈ ps, y.stop ≤ x.pos ∨ x.stop ≤ y.pos) : Queued stream ends (place x ps) := by
  have hall : ∀ {P : Piece β → Prop}, P x → (∀ y ∈ ps, P y) → ∀ y ∈ Reassembly.place x ps, P y :=
    fun hx hps y hy => forall_mem_cons.mpr ⟨hx, hps⟩ y ((place_perm x ps).subset hy)
  exact ⟨place_order hfull h.full h.order hapart, hall hfull h.full, hall hagrees h.agrees,
    hall hfin h.fin⟩

/-! ## What has become contiguous -/

/-- What `drain` gives: the bytes taken, the queue that is left, how many bytes left the queue, and
whether an end of the stream was reached. -/
structure Drained (β : Type*) where
  taken : List β
  rest : List (Piece β)
  gone : ℕ
  fin : Bool

/-- Takes off the queue what is contiguous with `pos`, as far as there is room. -/
def drain (pos room : ℕ) : List (Piece β) → Drained β
  | [] => ⟨[], [], 0, false⟩
  | x :: ps =>
    if pos < x.pos then ⟨[], x :: ps, 0, false⟩
    else if x.stop ≤ pos then
      let r := drain pos room ps
      ⟨r.taken, r.rest, x.data.length + r.gone, (x.fin && x.stop = pos) || r.fin⟩
    else
      let skip := pos - x.pos
      let want := x.data.length - skip
      let n := min want room
      let chunk := (x.data.drop skip).take n
      if n < want then
        ⟨chunk, ⟨pos + n, x.data.drop (skip + n), x.fin⟩ :: ps, skip + n, false⟩
      else
        let r := drain (pos + n) (room - n) ps
        ⟨chunk ++ r.taken, r.rest, x.data.length + r.gone, x.fin || r.fin⟩

theorem length_chunk (data : List β) (skip n : ℕ) (h : n ≤ data.length - skip) :
    ((data.drop skip).take n).length = n := by
  rw [length_take, length_drop]
  omega

/-- The first piece without its beginning stands where that piece stood. -/
theorem Queued.cut (h : Queued stream ends (x :: ps)) {n : ℕ} (hn : n < x.data.length) :
    Queued stream ends (⟨x.pos + n, x.data.drop n, x.fin⟩ :: ps) := by
  have hstop : Piece.stop ⟨x.pos + n, x.data.drop n, x.fin⟩ = x.stop := by
    simp only [Piece.stop, length_drop]
    omega
  have htail := h.tail
  refine ⟨pairwise_cons.mpr ⟨?_, htail.order⟩, forall_mem_cons.mpr ⟨?_, htail.full⟩,
    forall_mem_cons.mpr ⟨(h.agrees x mem_cons_self).drop n, htail.agrees⟩,
    forall_mem_cons.mpr ⟨?_, htail.fin⟩⟩
  · rw [hstop]
    exact (pairwise_cons.mp h.order).1
  · rw [length_drop]
    omega
  · rw [hstop]
    exact h.fin x mem_cons_self

/-- What has been taken off a queue from `pos`. -/
structure Drains (stream : ℕ → β) (ends : ℕ → Prop) (pos room : ℕ) (ps : List (Piece β))
    (d : Drained β) : Prop where
  length : d.taken.length ≤ room
  agrees : Agrees stream pos d.taken
  queued : Queued stream ends d.rest
  /-- Every piece that is left is a piece of the queue, or the rest of one. -/
  rest : ∀ y ∈ d.rest, ∃ x ∈ ps, x.pos ≤ y.pos ∧ y.stop = x.stop
  count : d.rest.length ≤ ps.length
  bytes : bytes d.rest + d.gone = bytes ps
  /-- An end that is reached is behind what has been taken. -/
  fin : d.fin = true → ∃ f, ends f ∧ f ≤ pos + d.taken.length

theorem Queued.drain (h : Queued stream ends ps) (pos room : ℕ) :
    Drains stream ends pos room ps (drain pos room ps) := by
  induction ps generalizing pos room with
  | nil => exact ⟨Nat.zero_le _, .nil pos, h, fun _ => nofun, Nat.le_refl _, rfl, nofun⟩
  | cons x ps ih =>
    have hself : ∀ y ∈ x :: ps, ∃ z ∈ x :: ps, z.pos ≤ y.pos ∧ y.stop = z.stop :=
      fun y hy => ⟨y, hy, Nat.le_refl _, rfl⟩
    have hrest : ∀ pos room, ∀ y ∈ (Reassembly.drain pos room ps).rest,
        ∃ z ∈ x :: ps, z.pos ≤ y.pos ∧ y.stop = z.stop := by
      intro pos room y hy
      obtain ⟨z, hz, hzy⟩ := (ih h.tail pos room).rest y hy
      exact ⟨z, mem_cons_of_mem x hz, hzy⟩
    simp only [Reassembly.drain]
    split_ifs with hlt hstop hpart
    · exact ⟨Nat.zero_le _, .nil pos, h, hself, Nat.le_refl _, rfl, nofun⟩
    · -- everything in it has been taken already
      have htail := ih h.tail pos room
      refine ⟨htail.length, htail.agrees, htail.queued, hrest _ _, Nat.le_succ_of_le htail.count,
        ?_, fun hf => ?_⟩
      · rw [bytes_cons, ← htail.bytes]
        dsimp only
        omega
      · rcases Bool.or_eq_true _ _ ▸ hf with hx | hps
        · rw [Bool.and_eq_true] at hx
          obtain ⟨f, hf, hle⟩ := h.fin x mem_cons_self hx.1
          exact ⟨f, hf, by omega⟩
        · exact htail.fin hps
    all_goals
      have hmin := Nat.min_le_left (x.data.length - (pos - x.pos)) room
      have hmin' := Nat.min_le_right (x.data.length - (pos - x.pos)) room
      have hchunk := length_chunk x.data (pos - x.pos) _ hmin
      have hagrees := ((h.agrees x mem_cons_self).drop (pos - x.pos)).take
        (min (x.data.length - (pos - x.pos)) room)
      rw [Nat.add_sub_cancel' (by omega)] at hagrees
      generalize min (x.data.length - (pos - x.pos)) room = n at *
    · have hpos : x.pos + (pos - x.pos + n) = pos + n := by omega
      have hcut := h.cut (n := pos - x.pos + n) (by omega)
      rw [hpos] at hcut
      refine ⟨hchunk.trans_le hmin', hagrees, hcut, ?_, Nat.le_refl _, ?_, nofun⟩
      · refine forall_mem_cons.mpr ⟨⟨x, mem_cons_self, ?_, ?_⟩,
          fun y hy => hself y (mem_cons_of_mem x hy)⟩
        · dsimp only
          omega
        · simp only [Piece.stop, length_drop]
          omega
      · rw [bytes_cons, bytes_cons, length_drop]
        dsimp only
        omega
    · have htail := ih h.tail (pos + n) (room - n)
      have hlen := htail.length
      refine ⟨?_, hagrees.append (hchunk.symm ▸ htail.agrees), htail.queued, hrest _ _,
        Nat.le_succ_of_le htail.count, ?_, fun hf => ?_⟩
      · rw [length_append, hchunk]
        omega
      · rw [bytes_cons, ← htail.bytes]
        dsimp only
        omega
      · rw [length_append, hchunk, ← Nat.add_assoc]
        rcases Bool.or_eq_true _ _ ▸ hf with hx | hps
        · obtain ⟨f, hf, hle⟩ := h.fin x mem_cons_self hx
          refine ⟨f, hf, ?_⟩
          unfold Piece.stop at *
          omega
        · exact htail.fin hps

end CosmoOS.Lib.Reassembly
