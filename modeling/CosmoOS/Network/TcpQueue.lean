import CosmoOS.Lib.Reassembly
import CosmoOS.Lib.Serial
import CosmoOS.Network.TcpCalls

/-!
# The receiving side

What a connection keeps about receiving (`Pcb.rcv`) is read against the stream that the peer sends:
a byte's position is how many bytes of the stream are before it, and its number is that position
counted from `irs + 1`, wrapped.

* `Held` ties the two together.  The bytes returned and those in the ring are a beginning of the
  stream, `rcv_nxt` is the number of the position behind them, and the out-of-order queue is a queue
  of pieces of the stream.
* The queue compares numbers, which is right only as long as its pieces are close to `rcv_nxt`.
  Ahead of it they are, by the window; behind it they are within the `lag` that `Held` carries.
  Then the functions on numbers do what those of `Lib.Reassembly` do on positions.
* `Held.insert`, `Held.takeData`, `Held.takeFin` and `Held.recv` are what the functions of
  `Network.Tcp` do to it.
-/

namespace CosmoOS.Network.Tcp

open Lib.Serial Lib.Reassembly List

variable {β : Type} {stream : ℕ → β} {ends : ℕ → Prop}

/-! ## Numbers of positions -/

theorem num_natCast_add (base : Seq) (y n : ℕ) :
    num base ((y + n : ℕ) : ℤ) = num base y + BitVec.ofNat 32 n := by
  exact num_add base y n

section Compare

variable (base : Seq) {y z : ℕ}

section

variable (hlo : z ≤ y + 2 ^ 31) (hhi : y < z + 2 ^ 31)

include hlo hhi

theorem toInt_num_natCast : (num base y - num base z).toInt = (y : ℤ) - z :=
  toInt_num_sub base (by omega) (by omega)

theorem seqLeq_num : seqLeq (num base y) (num base z) = decide (y ≤ z) := by
  unfold seqLeq
  rw [toInt_num_natCast base hlo hhi]
  exact decide_eq_decide.mpr (by omega)

theorem seqGeq_num : seqGeq (num base y) (num base z) = decide (z ≤ y) := by
  unfold seqGeq
  rw [toInt_num_natCast base hlo hhi]
  exact decide_eq_decide.mpr (by omega)

theorem seqLt_num : seqLt (num base y) (num base z) = decide (y < z) := by
  unfold seqLt
  rw [toInt_num_natCast base hlo hhi]
  exact decide_eq_decide.mpr (by omega)

theorem num_eq_num_iff : num base y = num base z ↔ y = z := by
  constructor
  · intro heq
    have hint := toInt_num_natCast base hlo hhi
    rw [heq, BitVec.sub_self, BitVec.toInt_zero] at hint
    omega
  · rintro rfl
    rfl

end

theorem toNat_num_sub (hle : z ≤ y) (hhi : y < z + 2 ^ 32) :
    (num base y - num base z).toNat = y - z := by
  have hahead := ahead_num base (y := y) (z := z) (by omega) (by omega)
  rw [ahead] at hahead
  omega

end Compare

/-! ## The queue, by positions -/

section

variable (base : Seq)

/-- A piece as the queue holds it. -/
def entry (x : Piece β) : OooSeg β := ⟨num base x.pos, x.data, x.fin⟩

theorem entry_stop (x : Piece β) :
    (entry base x).seq + BitVec.ofNat 32 (entry base x).data.length = num base x.stop :=
  (num_natCast_add base x.pos x.data.length).symm

/-- A piece is close to a position. -/
def Near (pos : ℕ) (x : Piece β) : Prop := pos ≤ x.pos + 2 ^ 30 ∧ x.stop ≤ pos + 2 ^ 18

theorem pos_le_stop (x : Piece β) : x.pos ≤ x.stop := Nat.le_add_right _ _

/-- **The scan of the queue, by positions.** -/
theorem oooScan_map {pos lo hi : ℕ} (hlo : pos ≤ lo) (hle : lo ≤ hi) (hhi : hi ≤ pos + 2 ^ 18)
    (ps : List (Piece β)) (hnear : ∀ x ∈ ps, Near pos x) :
    oooScan (num base lo) (num base hi) (ps.map (entry base)) =
      ((scan lo hi ps).1.map (entry base), (scan lo hi ps).2) := by
  induction ps with
  | nil => rfl
  | cons x ps ih =>
    have htail := ih fun y hy => hnear y (mem_cons_of_mem x hy)
    obtain ⟨hback, hstop⟩ := hnear x mem_cons_self
    have hpos := pos_le_stop x
    simp only [map_cons, oooScan, scan, entry_stop]
    rw [seqLeq_num base (by omega) (by omega), seqGeq_num base (y := hi) (by omega) (by omega),
      show (entry base x).seq = num base x.pos from rfl,
      seqGeq_num base (by omega) (by omega), seqLeq_num base (by omega) (by omega), htail]
    simp only [Bool.or_eq_true, Bool.and_eq_true, decide_eq_true_eq]
    split_ifs <;> rfl

theorem oooPlace_map {pos : ℕ} {x : Piece β} (hlo : pos ≤ x.pos) (hhi : x.stop ≤ pos + 2 ^ 18)
    (ps : List (Piece β)) (hnear : ∀ y ∈ ps, Near pos y) :
    oooPlace (entry base x) (ps.map (entry base)) = (place x ps).map (entry base) := by
  induction ps with
  | nil => rfl
  | cons y ps ih =>
    have htail := ih fun z hz => hnear z (mem_cons_of_mem y hz)
    obtain ⟨hback, hstop⟩ := hnear y mem_cons_self
    have hpos := pos_le_stop x
    have hpos' := pos_le_stop y
    simp only [map_cons, oooPlace, place]
    rw [show (entry base y).seq = num base y.pos from rfl,
      show (entry base x).seq = num base x.pos from rfl,
      seqLt_num base (by omega) (by omega), htail]
    simp only [decide_eq_true_eq]
    split_ifs <;> rfl

/-- **The drain of the queue, by positions.** -/
theorem oooDrain_eq (ps : List (Piece β)) (p : Pcb β) (pos : ℕ) (fin : Bool)
    (hnxt : p.rcvNxt = num base pos) (hback : ∀ x ∈ ps, pos + p.rcvSpace < x.pos + 2 ^ 31)
    (hstop : ∀ x ∈ ps, x.stop ≤ pos + 2 ^ 18) :
    oooDrain p (ps.map (entry base)) fin =
      ({ p with
          rcvbuf := p.rcvbuf ++ (drain pos p.rcvSpace ps).taken
          rcvNxt := num base ((pos + (drain pos p.rcvSpace ps).taken.length : ℕ) : ℤ)
          ooo := (drain pos p.rcvSpace ps).rest.map (entry base)
          oooBytes := p.oooBytes - (drain pos p.rcvSpace ps).gone },
        fin || (drain pos p.rcvSpace ps).fin) := by
  induction ps generalizing p pos fin with
  | nil => simp [oooDrain, drain, hnxt]
  | cons x ps ih =>
    have hback' := fun y hy => hback y (mem_cons_of_mem x hy)
    have hstop' := fun y hy => hstop y (mem_cons_of_mem x hy)
    have hxback := hback x mem_cons_self
    have hxstop := hstop x mem_cons_self
    have hxlen : x.stop = x.pos + x.data.length := rfl
    simp only [map_cons, oooDrain, drain, entry_stop]
    rw [hnxt, show (entry base x).seq = num base x.pos from rfl,
      show (entry base x).data = x.data from rfl, show (entry base x).fin = x.fin from rfl,
      seqLeq_num base (by omega) (by omega), seqLeq_num base (by omega) (by omega)]
    simp only [Bool.not_eq_true', decide_eq_false_iff_not, decide_eq_true_eq, Nat.not_le]
    by_cases hlt : pos < x.pos
    · rw [if_pos hlt, if_pos hlt]
      simp [entry]
    · rw [if_neg hlt, if_neg hlt]
      by_cases hold : x.stop ≤ pos
      · -- everything in it has been delivered
        rw [if_pos hold, if_pos hold]
        have hrec := ih { p with rcvNxt := num base pos, oooBytes := p.oooBytes - x.data.length }
          pos (fin || (x.fin && decide (x.stop = pos))) rfl hback' hstop'
        have heq : (num base x.stop = num base pos) = (x.stop = pos) :=
          propext (num_eq_num_iff base (by omega) (by omega))
        simp only [heq]
        refine hrec.trans ?_
        simp only [Pcb.rcvSpace, Nat.sub_sub, Bool.or_assoc]
      · rw [if_neg hold, if_neg hold, toNat_num_sub base (by omega) (by omega)]
        have hmin := Nat.min_le_left (x.data.length - (pos - x.pos)) p.rcvSpace
        have hmin' := Nat.min_le_right (x.data.length - (pos - x.pos)) p.rcvSpace
        have hchunk := length_chunk x.data (pos - x.pos) _ hmin
        generalize hn : min (x.data.length - (pos - x.pos)) p.rcvSpace = n at *
        have hnum : num base pos + BitVec.ofNat 32 n = num base ((pos + n : ℕ) : ℤ) :=
          (num_natCast_add base pos n).symm
        have hrest : num base x.pos + BitVec.ofNat 32 (pos - x.pos + n) =
            num base ((pos + n : ℕ) : ℤ) := by
          rw [← num_natCast_add]
          congr 2
          omega
        rw [hnum, hrest]
        split_ifs with hpart
        · simp [hchunk, entry]
        · have hspace : tcpRcvbuf -
              (p.rcvbuf ++ (x.data.drop (pos - x.pos)).take n).length = p.rcvSpace - n := by
            rw [length_append, hchunk, Pcb.rcvSpace, Nat.sub_sub]
          have hrec := ih { p with
              rcvbuf := p.rcvbuf ++ (x.data.drop (pos - x.pos)).take n
              rcvNxt := num base ((pos + n : ℕ) : ℤ)
              oooBytes := p.oooBytes - x.data.length } (pos + n) (fin || x.fin) rfl
            (by
              intro y hy
              have hy' := hback' y hy
              rw [Pcb.rcvSpace, hspace]
              omega)
            (by
              intro y hy
              have hy' := hstop' y hy
              omega)
          refine hrec.trans ?_
          simp only [Pcb.rcvSpace] at hspace ⊢
          rw [hspace]
          simp only [Nat.sub_sub, append_assoc, length_append, hchunk, Nat.add_assoc,
            Bool.or_assoc]

end

/-! ## What a connection keeps about receiving -/

/-- The receiving side of a connection. -/
structure Rcv (β : Type) where
  irs : Seq
  rcvNxt : Seq
  rcvWnd : ℕ
  rcvbuf : List β
  ooo : List (OooSeg β)
  oooBytes : ℕ
  finRcvd : Bool

def Pcb.rcv (p : Pcb β) : Rcv β :=
  ⟨p.irs, p.rcvNxt, p.rcvWnd, p.rcvbuf, p.ooo, p.oooBytes, p.finRcvd⟩

/-- The position behind everything that has been taken, when `back` has been returned. -/
def Rcv.pos (back : List β) (r : Rcv β) : ℕ :=
  back.length + r.rcvbuf.length + if r.finRcvd then 1 else 0

/-- The out-of-order queue is a queue of these pieces. -/
structure Pieces (stream : ℕ → β) (ends : ℕ → Prop) (lag pos : ℕ) (r : Rcv β)
    (ps : List (Piece β)) : Prop where
  ooo : r.ooo = ps.map (entry (r.irs + 1))
  queued : Queued stream ends ps
  bytes : r.oooBytes = bytes ps
  count : ps.length ≤ tcpOooMax
  near : ∀ x ∈ ps, pos ≤ x.pos + lag ∧ x.stop ≤ pos + 2 ^ 18

/-- **The receiving side holds the stream**, when `back` has been returned. -/
structure Held (stream : ℕ → β) (ends : ℕ → Prop) (lag : ℕ) (back : List β) (r : Rcv β) :
    Prop where
  nxt : r.rcvNxt = num (r.irs + 1) (r.pos back)
  agrees : Agrees stream 0 (back ++ r.rcvbuf)
  ring : r.rcvbuf.length ≤ tcpRcvbuf
  wnd : r.rcvWnd ≤ tcpRcvbuf
  queue : ∃ ps, Pieces stream ends lag (r.pos back) r ps
  fin : r.finRcvd = true → ∃ f, ends f ∧ f ≤ (back ++ r.rcvbuf).length

variable {lag : ℕ} {back : List β} {r : Rcv β} {p : Pcb β}

theorem Pieces.none (pos : ℕ) (hooo : r.ooo = []) (hbytes : r.oooBytes = 0) :
    Pieces stream ends lag pos r [] where
  ooo := hooo
  queued := .nil
  bytes := hbytes
  count := Nat.zero_le _
  near := fun _ => nofun

section

variable (h : Held stream ends lag back r)

include h

theorem Held.mono {ends' : ℕ → Prop} (he : ∀ f, ends f → ends' f) :
    Held stream ends' lag back r :=
  { h with
    queue := by
      obtain ⟨ps, hps⟩ := h.queue
      exact ⟨ps, hps.ooo, hps.queued.mono he, hps.bytes, hps.count, hps.near⟩
    fin := by
      intro hfin
      obtain ⟨f, hf, hle⟩ := h.fin hfin
      exact ⟨f, he f hf, hle⟩ }

theorem Held.lag_le {lag' : ℕ} (hle : lag ≤ lag') : Held stream ends lag' back r := by
  obtain ⟨ps, hps⟩ := h.queue
  refine { h with queue := ⟨ps, { hps with near := fun x hx => ?_ }⟩ }
  have hx := hps.near x hx
  exact ⟨by omega, hx.2⟩

/-- **The queue has nothing old in it**: what its numbers say of that is what its positions say. -/
theorem Held.recent {old : ℕ} (hlag : lag < 2 ^ 31)
    (hold : ∀ e ∈ r.ooo, (r.rcvNxt - e.seq).toInt ≤ old) : Held stream ends old back r := by
  obtain ⟨ps, hps⟩ := h.queue
  refine { h with queue := ⟨ps, { hps with near := fun x hx => ?_ }⟩ }
  obtain ⟨hback, hstop⟩ := hps.near x hx
  have hpos := pos_le_stop x
  have hmem : entry (r.irs + 1) x ∈ r.ooo := by
    rw [hps.ooo]
    exact mem_map_of_mem hx
  have hint := hold _ hmem
  rw [h.nxt, show (entry (r.irs + 1) x).seq = num (r.irs + 1) x.pos from rfl,
    toInt_num_natCast _ (by omega) (by omega)] at hint
  exact ⟨by omega, hstop⟩

theorem Held.flush : Held stream ends lag back { r with ooo := [], oooBytes := 0 } :=
  { h with queue := ⟨[], .none _ rfl rfl⟩ }

/-- **Bytes are returned.** -/
theorem Held.recv {n : ℕ} (hn : n ≤ r.rcvbuf.length) :
    Held stream ends lag (back ++ r.rcvbuf.take n)
      { r with rcvbuf := r.rcvbuf.drop n, rcvWnd := tcpRcvbuf - (r.rcvbuf.drop n).length } := by
  have hgot : back ++ r.rcvbuf.take n ++ r.rcvbuf.drop n = back ++ r.rcvbuf := by
    rw [append_assoc, take_append_drop]
  have hpos : Rcv.pos (back ++ r.rcvbuf.take n)
      { r with rcvbuf := r.rcvbuf.drop n, rcvWnd := tcpRcvbuf - (r.rcvbuf.drop n).length } =
      r.pos back := by
    simp only [Rcv.pos, length_append, length_take, length_drop]
    omega
  constructor
  · rw [hpos]
    exact h.nxt
  · rw [hgot]
    exact h.agrees
  · have hring := h.ring
    simp only [length_drop]
    omega
  · exact Nat.sub_le _ _
  · obtain ⟨ps, hps⟩ := h.queue
    rw [hpos]
    exact ⟨ps, { hps with }⟩
  · rw [hgot]
    exact h.fin

end

/-! ## Data that is out of order -/

/-- **The queue takes a segment of the stream.** -/
theorem Held.insert (h : Held stream ends lag back p.rcv) (hlag : lag ≤ 2 ^ 30) (off : ℕ)
    (data : List β) (fin : Bool) (hdata : 0 < data.length) (hoff : off + data.length ≤ 2 ^ 18)
    (hagrees : Agrees stream (p.rcv.pos back + off) data)
    (hfin : fin = true → ends (p.rcv.pos back + off + data.length)) :
    Held stream ends lag back (oooInsert p (p.rcvNxt + BitVec.ofNat 32 off) data fin).rcv := by
  obtain ⟨ps, hps⟩ := h.queue
  have hnxt : p.rcvNxt = num (p.irs + 1) (p.rcv.pos back) := h.nxt
  have hooo : p.ooo = ps.map (entry (p.irs + 1)) := hps.ooo
  have hbytes : p.oooBytes = bytes ps := hps.bytes
  have hnear : ∀ x ∈ ps, Near (p.rcv.pos back) x := by
    intro x hx
    have hx := hps.near x hx
    exact ⟨by omega, hx.2⟩
  generalize hpos : p.rcv.pos back = pos at *
  obtain ⟨hsub, hsum, hapart, hends⟩ := scan_spec (pos + off) (pos + off + data.length) ps
  rw [hnxt, ← num_natCast_add, oooInsert, ← num_natCast_add, hooo,
    oooScan_map _ (Nat.le_add_right pos off) (Nat.le_add_right _ _) (by omega) ps hnear]
  rcases hscan : scan (pos + off) (pos + off + data.length) ps with ⟨kept, gone, f, ok⟩
  rw [hscan] at hsub hsum hapart hends
  simp only at hsub hsum hapart hends ⊢
  have hkept := hps.queued.sublist hsub
  -- what stays of the queue, with or without the segment
  have hqueue : ∀ qs n, Queued stream ends qs → n = bytes qs → qs.length ≤ tcpOooMax →
      (∀ x ∈ qs, pos ≤ x.pos + lag ∧ x.stop ≤ pos + 2 ^ 18) → Held stream ends lag back
        { p.rcv with ooo := qs.map (entry (p.irs + 1)), oooBytes := n } := by
    intro qs n hqs hn hlen hclose
    refine ⟨hpos ▸ h.nxt, h.agrees, h.ring, h.wnd, ⟨qs, rfl, hqs, hn, hlen, ?_⟩, h.fin⟩
    exact hpos ▸ hclose
  have hnear' : ∀ x ∈ kept, pos ≤ x.pos + lag ∧ x.stop ≤ pos + 2 ^ 18 := fun x hx =>
    hps.near x (hsub.subset hx)
  have hrefused := hqueue kept (p.oooBytes - gone) hkept (by omega)
    (hsub.length_le.trans hps.count) hnear'
  split_ifs with hok hfull
  · exact hrefused
  · exact hrefused
  · simp only [Bool.not_eq_true', Bool.not_eq_false] at hok
    simp only [length_map, Bool.or_eq_true, decide_eq_true_eq, not_or] at hfull
    have hplace := oooPlace_map (p.irs + 1) (x := ⟨pos + off, data, fin || f⟩)
      (Nat.le_add_right pos off) (by simp only [Piece.stop]; omega) kept
      fun x hx => hnear x (hsub.subset hx)
    have hperm := place_perm ⟨pos + off, data, fin || f⟩ kept
    have hlen := hperm.length_eq
    have hsublen := hsub.length_le
    have hcount := hps.count
    rw [length_cons] at hlen
    rw [show (⟨num (p.irs + 1) ((pos + off : ℕ) : ℤ), data, fin || f⟩ : OooSeg β) =
      entry (p.irs + 1) ⟨pos + off, data, fin || f⟩ from rfl, hplace]
    refine hqueue _ _ (hkept.place hdata hagrees ?_ (hapart hok)) ?_ ?_ ?_
    · intro hf
      rcases Bool.or_eq_true _ _ ▸ hf with hf | hf
      · exact ⟨_, hfin hf, Nat.le_refl _⟩
      · obtain ⟨x, hx, hxf, hle⟩ := hends hf
        obtain ⟨z, hz, hzle⟩ := hps.queued.fin x hx hxf
        exact ⟨z, hz, hzle.trans hle⟩
    · rw [place_bytes]
      dsimp only
      omega
    · omega
    · intro x hx
      rcases mem_cons.mp (hperm.subset hx) with rfl | hx
      · simp only [Piece.stop]
        omega
      · exact hnear' x hx

/-! ## Data that is in order -/

/-- Bytes go into the ring, and the queue becomes what is ahead of them. -/
theorem Held.append (h : Held stream ends lag back r) (hfin : r.finRcvd = false)
    (chunk : List β) (lag' : ℕ) (hchunk : Agrees stream (r.pos back) chunk)
    (hfit : r.rcvbuf.length + chunk.length ≤ tcpRcvbuf) {ps : List (Piece β)}
    (hqueued : Queued stream ends ps) (hcount : ps.length ≤ tcpOooMax)
    (hnear : ∀ x ∈ ps, r.pos back + chunk.length ≤ x.pos + lag' ∧
      x.stop ≤ r.pos back + chunk.length + 2 ^ 18) :
    Held stream ends lag' back
      { irs := r.irs
        rcvNxt := num (r.irs + 1) ((r.pos back + chunk.length : ℕ) : ℤ)
        rcvWnd := tcpRcvbuf - (r.rcvbuf ++ chunk).length
        rcvbuf := r.rcvbuf ++ chunk
        ooo := ps.map (entry (r.irs + 1))
        oooBytes := bytes ps
        finRcvd := false } := by
  have hlen : r.pos back = (back ++ r.rcvbuf).length := by
    rw [Rcv.pos, hfin, length_append]
    rfl
  have hpos : ∀ q : Rcv β, q.rcvbuf = r.rcvbuf ++ chunk → q.finRcvd = false →
      q.pos back = r.pos back + chunk.length := by
    intro q hbuf hf
    rw [Rcv.pos, hbuf, hf, hlen, length_append, length_append]
    simp only [Bool.false_eq_true, if_false]
    omega
  refine ⟨?_, ?_, ?_, Nat.sub_le _ _, ⟨ps, rfl, hqueued, rfl, hcount, ?_⟩, nofun⟩
  · exact congrArg (fun z : ℕ => num (r.irs + 1) (z : ℤ)) (hpos _ rfl rfl).symm
  · rw [← append_assoc]
    refine h.agrees.append ?_
    rw [Nat.zero_add, ← hlen]
    exact hchunk
  · rw [length_append]
    exact hfit
  · rw [hpos _ rfl rfl]
    exact hnear

/-- **In-order data is taken**, with what the queue has behind it. -/
theorem Held.takeData (h : Held stream ends lag back p.rcv) (hlag : lag ≤ 2 ^ 30)
    (hfin : p.finRcvd = false) {data : List β} (hdata : Agrees stream (p.rcv.pos back) data) :
    Held stream ends (lag + tcpRcvbuf) back (takeData p data).1.rcv ∧
      (takeData p data).1.finRcvd = false ∧
      ((takeData p data).2 = true →
        ∃ f, ends f ∧ f ≤ (back ++ (takeData p data).1.rcvbuf).length) ∧
      (data.length ≤ p.rcvSpace →
        p.rcv.pos back + data.length ≤ (back ++ (takeData p data).1.rcvbuf).length) := by
  obtain ⟨ps, hps⟩ := h.queue
  have hnxt : p.rcvNxt = num (p.irs + 1) (p.rcv.pos back) := h.nxt
  have hooo : p.ooo = ps.map (entry (p.irs + 1)) := hps.ooo
  have hbytes : p.oooBytes = bytes ps := hps.bytes
  have hring : p.rcvbuf.length ≤ tcpRcvbuf := h.ring
  have hlen : p.rcv.pos back = back.length + p.rcvbuf.length := by
    rw [Rcv.pos, show p.rcv.finRcvd = false from hfin]
    rfl
  have hspace : p.rcvbuf.length + p.rcvSpace = tcpRcvbuf := by
    rw [Pcb.rcvSpace]
    omega
  simp only [Tcp.takeData]
  generalize hpos : p.rcv.pos back = pos at *
  generalize hn : min data.length p.rcvSpace = n at *
  have htake : (data.take n).length = n := by
    rw [length_take]
    omega
  rw [hnxt, ← num_natCast_add, hooo]
  split_ifs with hpart
  · -- the ring is full: the queue is not looked at
    refine ⟨?_, hfin, False.elim, fun hfits => absurd hfits (by omega)⟩
    have hheld := h.append hfin (data.take n) (lag + tcpRcvbuf) (hpos ▸ hdata.take n)
      (by rw [htake]; change p.rcvbuf.length + n ≤ _; omega) hps.queued hps.count (by
        intro x hx
        obtain ⟨hback, hstop⟩ := hps.near x hx
        rw [htake, hpos]
        omega)
    rw [htake, hpos, ← hbytes, ← hfin] at hheld
    exact hheld
  · -- all of it fits, and the queue is drained
    have hwhole : n = data.length := by omega
    have hroom : tcpRcvbuf - (p.rcvbuf ++ data.take n).length = p.rcvSpace - n := by
      rw [length_append, htake]
      omega
    have hdrain := oooDrain_eq (p.irs + 1) ps
      { p with
        rcvbuf := p.rcvbuf ++ data.take n
        rcvNxt := num (p.irs + 1) ((pos + n : ℕ) : ℤ)
        ooo := ps.map (entry (p.irs + 1)) } (pos + n) false rfl
      (by
        intro x hx
        have hx := hps.near x hx
        rw [Pcb.rcvSpace, hroom]
        have hbuf : tcpRcvbuf = 65536 := rfl
        omega)
      (by
        intro x hx
        have hx := hps.near x hx
        omega)
    have hroom' : Pcb.rcvSpace { p with
        rcvbuf := p.rcvbuf ++ data.take n
        rcvNxt := num (p.irs + 1) ((pos + n : ℕ) : ℤ)
        ooo := ps.map (entry (p.irs + 1)) } = p.rcvSpace - n := hroom
    rw [hroom'] at hdrain
    rw [hdrain]
    simp only [Bool.false_or]
    obtain ⟨htaken, hagrees, hqueued, hrest, hcount, hgone, hend⟩ :=
      hps.queued.drain (pos + n) (p.rcvSpace - n)
    generalize drain (pos + n) (p.rcvSpace - n) ps = d at *
    have hchunk : (data.take n ++ d.taken).length = n + d.taken.length := by
      rw [length_append, htake]
    refine ⟨?_, hfin, ?_, ?_⟩
    · have hheld := h.append hfin (data.take n ++ d.taken) (lag + tcpRcvbuf)
        (by
          rw [hpos]
          refine (hdata.take n).append ?_
          rw [htake]
          exact hagrees)
        (by
          rw [hchunk]
          change p.rcvbuf.length + (n + d.taken.length) ≤ _
          omega) hqueued (hcount.trans hps.count)
        (by
          intro y hy
          obtain ⟨x, hx, hle, hstop⟩ := hrest y hy
          have hx := hps.near x hx
          rw [hchunk, hpos]
          omega)
      rw [hchunk, hpos, ← Nat.add_assoc, ← append_assoc, ← hfin,
        show bytes d.rest = p.oooBytes - d.gone by omega] at hheld
      exact hheld
    · intro hf
      obtain ⟨f, hf, hle⟩ := hend hf
      refine ⟨f, hf, ?_⟩
      rw [append_assoc, length_append, length_append, hchunk]
      omega
    · intro _
      rw [append_assoc, length_append, length_append, hchunk]
      omega

/-! ## The end of the stream -/

/-- **The FIN is taken.** -/
theorem Held.takeFin (h : Held stream ends lag back p.rcv) (hfin : p.finRcvd = false)
    (hend : ∃ f, ends f ∧ f ≤ (back ++ p.rcvbuf).length) :
    Held stream ends (lag + 1) back (takeFin p).rcv := by
  have hrcv : (Tcp.takeFin p).rcv = { p.rcv with finRcvd := true, rcvNxt := p.rcvNxt + 1 } := by
    simp only [Tcp.takeFin]
    split
    · rfl
    · split_ifs <;> rfl
    · rfl
    · rfl
  have hpos : Rcv.pos back { p.rcv with finRcvd := true, rcvNxt := p.rcvNxt + 1 } =
      p.rcv.pos back + 1 := by
    rw [Rcv.pos, Rcv.pos, show p.rcv.finRcvd = false from hfin]
    rfl
  rw [hrcv]
  obtain ⟨ps, hps⟩ := h.queue
  refine ⟨?_, h.agrees, h.ring, h.wnd, ⟨ps, hps.ooo, hps.queued, hps.bytes, hps.count, ?_⟩,
    fun _ => hend⟩
  · rw [hpos, num_natCast_add, ← h.nxt]
    rfl
  · intro x hx
    have hx := hps.near x hx
    rw [hpos]
    omega

end CosmoOS.Network.Tcp
