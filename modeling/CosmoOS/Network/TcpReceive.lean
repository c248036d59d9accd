import CosmoOS.Network.TcpKept
import CosmoOS.Network.TcpReset
import CosmoOS.Network.TcpRuns

/-!
# What is delivered

The bytes that `recv` has returned and those that wait in the ring are a beginning of the stream
that the peer sends, whatever the order in which its segments arrive, however often, and however
cut; and the FIN is taken only when every byte before it has been.

`inputLocked` calls `oooDrain` only when an in-order segment fits into the ring whole.  When it does
not, what the queue holds stays there and falls behind `rcv_nxt`.  Numbers are compared on a circle,
so that a segment half the circle behind is taken for one that is ahead, and when `rcv_nxt` has come
round to it its old bytes are delivered as new ones.

* `Arrives` is a segment of the stream, and `Trimmed` what `trim` leaves of it.
* `Receives` is the receiving side and its state; `Receives.input` and `Receives.recv` are what a
  segment and `recv` do to it, and `Kept` (of `Network.TcpKept`) what every other call does.
* `delivered_is_stream` is what holds when no step finds the queue with something old in it.
-/

namespace CosmoOS.Network.Tcp

open Lib.Serial Lib.Reassembly List Bool

variable {β : Type} {stream : ℕ → β} {ends : ℕ → Prop} {lag : ℕ} {back : List β} {p q : Pcb β}

variable {g' : In β} {skip m : ℕ} {st : State} {R : Rules β} {r : Rcv β} {ooo : List (OooSeg ℕ)}

/-! ## A segment that arrives -/

/-- Where the data of a segment are on the stream: of the positions with its number, the one
nearest to `rcv_nxt`. -/
def Rcv.place (back : List β) (r : Rcv β) (g : In β) : ℤ :=
  r.pos back + (g.seq - r.rcvNxt).toInt

/-- Where the stream ends, by a segment with a FIN. -/
def Rcv.finAt (back : List β) (r : Rcv β) (g : In β) : ℕ :=
  (r.place back g + g.data.length).toNat

/-- **A segment of the stream**, in a packet. -/
structure Arrives (stream : ℕ → β) (back : List β) (r : Rcv β) (g : In β) : Prop where
  length : g.data.length ≤ 65535
  data : ∀ (i : ℕ) (x : β), g.data[i]? = some x → 0 ≤ r.place back g + i →
    x = stream (r.place back g + i).toNat

/-- What is left of a segment when what is before `rcv_nxt` is cut off: `off` after `rcv_nxt`, of
the data without the first `skip`. -/
structure Trimmed (p : Pcb β) (g g' : In β) (off skip : ℕ) : Prop where
  seq : g'.seq = p.rcvNxt + BitVec.ofNat 32 off
  off_le : off ≤ tcpRcvbuf
  data : g'.data = g.data.drop skip
  skip_le : skip ≤ g.data.length
  place : (g.seq - p.rcvNxt).toInt = (off : ℤ) - skip
  fin : g'.flags.fin = g.flags.fin

variable {g : In β} {off n : ℕ} {b : Batch β}

theorem off_le_of_acceptable (hacc : acceptable p g = true) (hlt : seqLt g.seq p.rcvNxt = false)
    (hlen : g.data.length ≤ 65535) (hwnd : p.rcvWnd ≤ tcpRcvbuf) :
    (g.seq - p.rcvNxt).toNat ≤ tcpRcvbuf := by
  have hhalf : (g.seq - p.rcvNxt).toNat < 2 ^ 31 := by
    simp only [seqLt, decide_eq_false_iff_not] at hlt
    rw [toInt_eq] at hlt
    split_ifs at hlt <;> omega
  simp only [acceptable, seqLt, seqGeq] at hacc
  split_ifs at hacc with hzero hclosed
  · rw [of_decide_eq_true hacc, BitVec.sub_self]
    exact Nat.zero_le _
  · simp only [Bool.and_eq_true, decide_eq_true_eq] at hacc
    obtain ⟨-, hend⟩ := hacc
    rw [toInt_eq] at hend
    split_ifs at hend <;> bv_omega
  · simp only [Bool.and_eq_true, or_eq_true, decide_eq_true_eq, ge_iff_le] at hacc
    rcases hacc.2 with ⟨-, hend⟩ | ⟨hfrom, hend⟩
    · rw [toInt_eq] at hend
      split_ifs at hend <;> bv_omega
    · rw [toInt_eq] at hfrom hend
      split_ifs at hfrom hend <;> bv_omega

/-- **What is cut off a segment.** -/
theorem trim_trimmed (hacc : acceptable p g = true) (hlen : g.data.length ≤ 65535)
    (hwnd : p.rcvWnd ≤ tcpRcvbuf) : ∃ off skip, Trimmed p g (trim p g) off skip := by
  cases hlt : seqLt g.seq p.rcvNxt with
  | true =>
    rw [acceptable_of_seqLt hlt] at hacc
    have hahead := ahead_lt_length_of_straddles (by omega) hacc
    have hseq := trim_seq_of_straddles (by omega) hacc
    refine ⟨0, ahead g.seq p.rcvNxt, ?_, Nat.zero_le _, ?_, Nat.le_of_lt hahead, ?_, ?_⟩
    · rw [hseq]
      exact (BitVec.add_zero _).symm
    · have hskip : min (p.rcvNxt - g.seq).toNat g.data.length = ahead g.seq p.rcvNxt :=
        min_eq_left (Nat.le_of_lt hahead)
      simp only [trim, hlt, if_true, hskip]
    · simp only [seqLt, decide_eq_true_eq] at hlt
      rw [toInt_eq] at hlt ⊢
      unfold ahead
      split_ifs at hlt ⊢ <;> bv_omega
    · simp only [trim, hlt, if_true]
  | false =>
    have hoff := off_le_of_acceptable hacc hlt hlen hwnd
    rw [trim_of_not_seqLt hlt]
    refine ⟨ahead p.rcvNxt g.seq, 0, (add_ahead _ _).symm, hoff, rfl, Nat.zero_le _, ?_, rfl⟩
    simp only [seqLt, decide_eq_false_iff_not] at hlt
    rw [toInt_eq] at hlt ⊢
    unfold ahead
    split_ifs at hlt ⊢ <;> omega

/-- What is left of a segment of the stream is of the stream. -/
theorem Trimmed.agrees (ht : Trimmed p g g' off skip)
    (ha : Arrives stream back p.rcv g) : Agrees stream (p.rcv.pos back + off) g'.data := by
  have hplace : p.rcv.place back g = (p.rcv.pos back : ℤ) + (off - skip) :=
    congrArg (fun z : ℤ => (p.rcv.pos back : ℤ) + z) ht.place
  intro i x hx
  rw [ht.data, List.getElem?_drop] at hx
  have hdata := ha.data (skip + i) x hx
  rw [hdata (by omega)]
  congr 1
  omega

theorem Trimmed.finAt (ht : Trimmed p g g' off skip) :
    p.rcv.finAt back g = p.rcv.pos back + off + g'.data.length := by
  have hplace : p.rcv.place back g = (p.rcv.pos back : ℤ) + (off - skip) :=
    congrArg (fun z : ℤ => (p.rcv.pos back : ℤ) + z) ht.place
  have hskip := ht.skip_le
  rw [Rcv.finAt, hplace, ht.data, length_drop]
  omega

/-! ## A segment -/

/-- The receiving side, and the state it is in. -/
structure Receives (stream : ℕ → β) (ends : ℕ → Prop) (lag : ℕ) (back : List β) (p : Pcb β) :
    Prop where
  held : Held stream ends lag back p.rcv
  late : p.finRcvd = true → p.state.late = true
  begun : p.state.begun = true

theorem Receives.lag_le {lag' : ℕ} (h : Receives stream ends lag back p) (hle : lag ≤ lag') :
    Receives stream ends lag' back p :=
  ⟨h.held.lag_le hle, h.late, h.begun⟩

theorem Kept.finRcvd (h : Kept p q) : q.finRcvd = p.finRcvd := by
  rcases h.rcv with hr | hr
  · exact congrArg Rcv.finRcvd hr
  · exact congrArg Rcv.finRcvd hr

theorem Kept.rcvbuf (h : Kept p q) : q.rcvbuf = p.rcvbuf := by
  rcases h.rcv with hr | hr
  · exact congrArg Rcv.rcvbuf hr
  · exact congrArg Rcv.rcvbuf hr

theorem Kept.rcvNxt (h : Kept p q) : q.rcvNxt = p.rcvNxt := by
  rcases h.rcv with hr | hr
  · exact congrArg Rcv.rcvNxt hr
  · exact congrArg Rcv.rcvNxt hr

theorem Kept.pos (h : Kept p q) (back : List β) : q.rcv.pos back = p.rcv.pos back := by
  rcases h.rcv with hr | hr <;> rw [hr]
  rfl

theorem Receives.kept (h : Receives stream ends lag back p) (hk : Kept p q) :
    Receives stream ends lag back q := by
  refine ⟨?_, ?_, hk.state.begun h.begun⟩
  · rcases hk.rcv with hr | hr <;> rw [hr]
    · exact h.held
    · exact h.held.flush
  · rw [hk.finRcvd]
    exact fun hfin => hk.state.late (h.late hfin)

theorem finAcked_kept (p : Pcb β) : Kept p (finAcked p).1 := by
  unfold finAcked
  split
  · next hst => exact orphanFinWait2_kept (.goes .finWait1 .finWait2 rfl hst rfl (by decide))
  · next hst => exact .goes .closing .timeWait rfl hst rfl (by decide)
  · exact endLocked_kept (.same rfl rfl)
  · exact .same rfl rfl

theorem ackInput_kept (p : Pcb β) (g : In β) (b : Batch β) : Kept p (ackInput p g b).1 := by
  unfold ackInput
  split_ifs
  · change Kept p (newAck p g.ack).1
    rw [newAck_eq]
    split_ifs
    · exact Kept.trans (q := taken p g.ack) (.same rfl rfl) (finAcked_kept _)
    · exact .same rfl rfl
  · change Kept p (dupAck p b).1
    simp only [dupAck]
    split_ifs <;> exact .same rfl rfl
  · exact .same rfl rfl

theorem updateWindow_kept (h : Kept p q) (g : In β) : Kept p (updateWindow q g) := by
  unfold updateWindow
  split_ifs
  · exact h.trans (.same rfl rfl)
  · exact h

theorem late_takeFin (h : p.state.past = true) : (takeFin p).state.late = true := by
  simp only [takeFin]
  split
  · rfl
  · split_ifs <;> rfl
  · rfl
  · next h1 h2 h3 =>
      simp only [State.past, or_eq_true] at h
      rcases h with h | h
      · exfalso
        cases hst : p.state <;> rw [hst] at h <;> try cases h
        · exact h1 hst
        · exact h2 hst
        · exact h3 hst
      · exact h

theorem Receives.finInput (h : Receives stream ends lag back p) (hpast : p.state.past = true)
    {finNow drainedFin : Bool}
    (hend : p.finRcvd = false →
      ((finNow && decide (g.seq + BitVec.ofNat 32 g.data.length = p.rcvNxt)) || drainedFin) =
        true → ∃ f, ends f ∧ f ≤ (back ++ p.rcvbuf).length) :
    Receives stream ends (lag + 1) back (finInput p g b finNow drainedFin).1 := by
  simp only [Tcp.finInput]
  split_ifs with hfin hstate
  · simp only [Bool.and_eq_true, not_eq_true'] at hfin
    obtain ⟨hhere, hnot⟩ := hfin
    have htaken := h.held.takeFin hnot (hend hnot hhere)
    have hlate := late_takeFin hpast
    have hnext : Receives stream ends (lag + 1) back (takeFin p) := by
      refine ⟨htaken, fun _ => hlate, ?_⟩
      cases hst : (takeFin p).state <;> rw [hst] at hlate <;> first | rfl | cases hlate
    exact hnext.kept (.output (.same rfl rfl))
  · exact (h.lag_le (Nat.le_succ _)).kept (.output (.same rfl rfl))
  · exact h.lag_le (Nat.le_succ _)

theorem ackData_kept (p : Pcb β) (b : Batch β) : Kept p (ackData p b).1 := by
  unfold ackData
  split_ifs
  · exact .output (.same rfl rfl)
  · exact .same rfl rfl

theorem not_late_of_takes (h : st.takes = true) : st.late = false := by
  cases st <;> first | rfl | cases h

/-- A segment of the stream that begins `off` after `rcv_nxt`. -/
structure Offered (stream : ℕ → β) (ends : ℕ → Prop) (back : List β) (p : Pcb β) (g : In β)
    (off : ℕ) : Prop where
  seq : g.seq = p.rcvNxt + BitVec.ofNat 32 off
  off_le : off ≤ tcpRcvbuf
  length : g.data.length ≤ 65535
  agrees : Agrees stream (p.rcv.pos back + off) g.data
  fin : g.flags.fin = true → ends (p.rcv.pos back + off + g.data.length)

theorem Offered.kept (h : Offered stream ends back p g off) (hk : Kept p q) :
    Offered stream ends back q g off := by
  refine ⟨?_, h.off_le, h.length, ?_, ?_⟩
  · rw [hk.rcvNxt]
    exact h.seq
  · rw [hk.pos]
    exact h.agrees
  · rw [hk.pos]
    exact h.fin

section

variable (h : Receives stream ends lag back p) (hlag : lag ≤ 2 ^ 30)

include h hlag

/-- **The data and the FIN of a segment.** -/
theorem Receives.dataInput (hpast : p.state.past = true) (hg : Offered stream ends back p g off)
    (b : Batch β) : Receives stream ends (lag + tcpRcvbuf + 1) back (dataInput p g b).1 := by
  obtain ⟨hseq, hoff, hlen, hagrees, hfin⟩ := hg
  have hbuf : tcpRcvbuf = 65536 := rfl
  have hpos : p.finRcvd = false → p.rcv.pos back = (back ++ p.rcvbuf).length := by
    intro hnot
    rw [Rcv.pos, show p.rcv.finRcvd = false from hnot, length_append]
    rfl
  have hzero : p.rcvNxt + BitVec.ofNat 32 off = p.rcvNxt → off = 0 := by
    intro heq
    bv_omega
  simp only [Tcp.dataInput]
  by_cases htakes : (g.data.length ≠ 0 && p.state.takes) = true
  · rw [if_pos htakes]
    simp only [ne_eq, Bool.and_eq_true, decide_eq_true_eq] at htakes
    obtain ⟨hdata, htakes⟩ := htakes
    have hnot : p.finRcvd = false := by
      by_contra hrcvd
      rw [not_eq_false] at hrcvd
      exact absurd (h.late hrcvd) (by rw [not_late_of_takes htakes]; decide)
    by_cases hnext : g.seq = p.rcvNxt
    · -- in order
      rw [if_pos hnext]
      obtain rfl := hzero (hseq.symm.trans hnext)
      obtain ⟨hheld, hnot', hdrained, hwhole⟩ := h.held.takeData hlag hnot hagrees
      have hst : (takeData p g.data).1.state = p.state :=
        congrArg Snd.state (snd_takeData p g.data)
      have htaken : Receives stream ends (lag + tcpRcvbuf) back (takeData p g.data).1 := by
        refine ⟨hheld, fun hrcvd => ?_, ?_⟩
        · exact absurd (hrcvd.symm.trans hnot') (by decide)
        · rw [hst]
          exact h.begun
      have hkept := ackData_kept (takeData p g.data).1 b
      have hpast' := hkept.state.past (by rw [hst]; exact hpast)
      refine Receives.finInput (htaken.kept hkept) hpast' ?_
      intro _ hhere
      rw [hkept.rcvbuf]
      simp only [or_eq_true, Bool.and_eq_true, decide_eq_true_eq] at hhere
      rcases hhere with ⟨⟨hflag, hfits⟩, -⟩ | hhere
      · exact ⟨_, hfin hflag, hwhole hfits⟩
      · exact hdrained hhere
    · -- a hole before it
      rw [if_neg hnext, hseq]
      have hheld := h.held.insert hlag off g.data g.flags.fin
        (Nat.pos_of_ne_zero hdata) (by omega) hagrees hfin
      have hst : (oooInsert p (p.rcvNxt + BitVec.ofNat 32 off) g.data g.flags.fin).state =
          p.state :=
        congrArg Snd.state (snd_oooInsert p _ g.data g.flags.fin)
      have hrcvd : (oooInsert p (p.rcvNxt + BitVec.ofNat 32 off) g.data g.flags.fin).finRcvd =
          false := by
        simp only [oooInsert]
        split_ifs <;> exact hnot
      have hqueued : Receives stream ends lag back
          (oooInsert p (p.rcvNxt + BitVec.ofNat 32 off) g.data g.flags.fin) := by
        refine ⟨hheld, fun hf => ?_, ?_⟩
        · exact absurd (hf.symm.trans hrcvd) (by decide)
        · rw [hst]
          exact h.begun
      have hpast' : (oooInsert p (p.rcvNxt + BitVec.ofNat 32 off) g.data
          g.flags.fin).state.past = true := by
        rw [hst]
        exact hpast
      refine (hqueued.finInput hpast' ?_).lag_le (by omega)
      exact fun _ h => absurd h Bool.false_ne_true
  · rw [if_neg htakes]
    refine (h.finInput hpast ?_).lag_le (by omega)
    intro hnot hhere
    simp only [Bool.or_false, Bool.and_eq_true, decide_eq_true_eq] at hhere
    obtain ⟨⟨hflag, hempty⟩, hhere⟩ := hhere
    rw [hempty, hseq] at hhere
    obtain rfl := hzero ((BitVec.add_zero _).symm.trans hhere)
    refine ⟨_, hfin hflag, ?_⟩
    rw [hempty, hpos hnot]
    exact Nat.le_refl _

theorem Receives.inputAccepted (hpast : p.state.past = true) (hg : Offered stream ends back p g off)
    (b : Batch β) : Receives stream ends (lag + tcpRcvbuf + 1) back (inputAccepted p g b).1 := by
  have hkept : Kept p (ackInput { p with keepProbes := 0 } g { b with quiet := false }).1 :=
    Kept.trans (q := { p with keepProbes := 0 }) (.same rfl rfl) (ackInput_kept _ g _)
  simp only [Tcp.inputAccepted]
  rcases hack : ackInput { p with keepProbes := 0 } g { b with quiet := false } with
    ⟨q, b', _ | _⟩
  · rw [hack] at hkept
    have hkept := updateWindow_kept hkept g
    exact (h.kept hkept).dataInput hlag (hkept.state.past hpast) (hg.kept hkept) b'
  · rw [hack] at hkept
    exact (h.kept hkept).lag_le (by omega)

/-- A segment that is acceptable, and trimmed. -/
theorem Receives.inputAcceptable (hstate : p.state = .synRcvd ∨ p.state.past = true)
    (hg : Offered stream ends back p g off) (g₀ : In β) (b : Batch β) :
    Receives stream ends (lag + tcpRcvbuf + 1) back (inputAcceptable p g g₀ b).1 := by
  have hsame : Receives stream ends (lag + tcpRcvbuf + 1) back p := h.lag_le (by omega)
  simp only [Tcp.inputAcceptable]
  split_ifs with hrst hseq hrcvd hsyn hack hold hrcvd hbad
  · exact hsame
  · exact hsame.kept (endLocked_kept (.same rfl rfl))
  · exact hsame.kept (endLocked_kept (.same rfl rfl))
  · exact hsame
  · exact hsame
  · exact hsame
  · exact hsame
  · have hkept : Kept p (openSynRcvd p g) :=
      .goes .synRcvd .established rfl hrcvd rfl (by decide)
    exact (h.kept hkept).inputAccepted hlag rfl (hg.kept hkept) b
  · exact h.inputAccepted hlag (hstate.resolve_left hrcvd) hg b

end

theorem inputTimeWait_kept (p : Pcb β) (g : In β) (b : Batch β) :
    Kept p (inputTimeWait p g b).1 := by
  simp only [inputTimeWait]
  split_ifs <;> exact .same rfl rfl

theorem synRcvd_or_past (h : st.begun = true) : st = .synRcvd ∨ st.past = true := by
  cases st <;> first | exact .inr rfl | exact .inl rfl | cases h

/-- **A segment of the stream.** -/
theorem Receives.input (h : Receives stream ends lag back p) (hlag : lag ≤ 2 ^ 30)
    (ha : Arrives stream back p.rcv g) (hends : g.flags.fin = true → ends (p.rcv.finAt back g))
    (b : Batch β) :
    Receives stream ends (lag + tcpRcvbuf + 1) back (perform p b (.input g)).1 := by
  have hsame : Receives stream ends (lag + tcpRcvbuf + 1) back p := h.lag_le (by omega)
  have hbegun := h.begun
  simp only [perform, inputLocked]
  split_ifs with hdead hsent hwait hacc
  · exact hsame
  · rw [hsent] at hbegun
    cases hbegun
  · exact hsame.kept (inputTimeWait_kept p g b)
  · exact hsame
  · exact hsame
  · rw [not_eq_true', not_eq_false] at hacc
    obtain ⟨off, skip, ht⟩ := trim_trimmed hacc ha.length h.held.wnd
    have hlen : (trim p g).data.length ≤ 65535 := by
      rw [ht.data, length_drop]
      have hle := ha.length
      omega
    refine h.inputAcceptable hlag (synRcvd_or_past hbegun)
      ⟨ht.seq, ht.off_le, hlen, ht.agrees ha, ?_⟩ g b
    intro hfin
    rw [← ht.finAt]
    exact hends (ht.fin ▸ hfin)

/-- **Bytes are returned.** -/
theorem Receives.recv (h : Receives stream ends lag back p) (len : ℕ) (b : Batch β) :
    Receives stream ends lag (back ++ (recv p len b).1) (recv p len b).2.2.1 := by
  have hdata : (Tcp.recv p len b).1 = p.rcvbuf.take (min p.rcvbuf.length len) := rfl
  rw [hdata]
  simp only [Tcp.recv]
  generalize hn : min p.rcvbuf.length len = n
  by_cases hzero : n = 0
  · rw [hzero, take_zero, append_nil]
    exact h
  · have hheld := h.held.recv (n := n) (by change n ≤ p.rcvbuf.length; omega)
    have hnext : Receives stream ends lag (back ++ p.rcvbuf.take n) { p with
        rcvbuf := p.rcvbuf.drop n, rcvWnd := tcpRcvbuf - (p.rcvbuf.drop n).length } :=
      ⟨hheld, h.late, h.begun⟩
    rw [if_pos hzero]
    split_ifs
    · exact hnext.kept (.output (.same rfl rfl))
    · exact hnext

/-! ## The beginning -/

/-- Nothing has been received. -/
structure Fresh (r : Rcv β) : Prop where
  rcvbuf : r.rcvbuf = []
  ooo : r.ooo = []
  oooBytes : r.oooBytes = 0
  finRcvd : r.finRcvd = false
  rcvWnd : r.rcvWnd = tcpRcvbuf

theorem Fresh.kept (h : Fresh p.rcv) (hk : Kept p q) : Fresh q.rcv := by
  rcases hk.rcv with hr | hr
  · rw [hr]
    exact h
  · rw [hr]
    exact ⟨h.rcvbuf, rfl, rfl, h.finRcvd, h.rcvWnd⟩

/-- **The peer's first byte is the next.** -/
theorem Fresh.held (h : Fresh p.rcv) (hnxt : p.rcvNxt = p.irs + 1) :
    Held stream ends lag [] p.rcv := by
  have hpos : p.rcv.pos [] = 0 := by
    rw [Rcv.pos, h.rcvbuf, h.finRcvd]
    rfl
  refine ⟨?_, ?_, ?_, ?_, ⟨[], .none _ h.ooo h.oooBytes⟩, ?_⟩
  · rw [hpos]
    exact hnxt.trans (num_zero _).symm
  · rw [h.rcvbuf]
    exact Agrees.nil 0
  · rw [h.rcvbuf]
    exact Nat.zero_le _
  · rw [h.rcvWnd]
  · rw [h.finRcvd]
    exact fun h => absurd h Bool.false_ne_true

theorem Turn.synSent {s t : Snd β} (h : Turn R s t) (hs : s.state ≠ .synSent) :
    t.state ≠ .synSent := by
  cases h with
  | mk t wnd mss pathMss hacks hmss =>
    cases hacks with
    | stay => exact hs
    | ack a hstate hlo hhi hrule => exact (Room.acked_state_ne hstate.2.1 hstate.2.2.1).1
    | opens a hstate hlo hhi hrule => exact nofun
    | synAck a hstate hlo hhi hrule => exact nofun

theorem Move.synSent {s t : Snd β} {gs : List (Seg β)} {ds : List β}
    (h : Move R s gs ds t) (hs : s.state ≠ .synSent) : t.state ≠ .synSent := by
  cases h with
  | queueFin st h hrule => cases h <;> exact nofun
  | peerFin st h => cases h <;> exact nofun
  | synRcvd hstate => exact nofun
  | close killed => exact nofun
  | _ => exact hs

theorem perform_synSent (call : Call β) (hb : b.segs = []) (hroom : Room p.snd)
    (h : (perform p b call).1.state = .synSent) : p.state = .synSent := by
  by_contra hp
  obtain ⟨s, gs, hturn, hmoves, -⟩ := perform_turn {} p call hb hroom (.trivial _ _)
  exact Moves.invariant (P := fun _ s => s.state ≠ .synSent)
    (fun _ _ _ _ _ hs hm => hm.synSent hs) hmoves [] (hturn.synSent hp) h

/-- `inputLocked` in `SYN_SENT`: nothing has happened to the receiving side, or the peer's SYN has
been taken. -/
theorem inputSynSent_rcv (p : Pcb β) (g : In β) (b : Batch β) :
    Kept p (inputSynSent p g b).1 ∧
        ((inputSynSent p g b).1.state = p.state ∨ (inputSynSent p g b).1.state = .closed) ∨
      (inputSynSent p g b).1.rcv = { p.rcv with irs := g.seq, rcvNxt := g.seq + 1 } ∧
        ((inputSynSent p g b).1.state = .established ∨
          (inputSynSent p g b).1.state = .synRcvd) := by
  simp only [inputSynSent]
  split_ifs
  · exact .inl ⟨.same rfl rfl, .inl rfl⟩
  · exact .inl ⟨.same rfl rfl, .inl rfl⟩
  · refine .inl ⟨endLocked_kept (.same rfl rfl), ?_⟩
    unfold endLocked killLocked
    split_ifs
    · exact .inr rfl
    · exact .inl rfl
    · exact .inr rfl
  · exact .inl ⟨.same rfl rfl, .inl rfl⟩
  · exact .inl ⟨.same rfl rfl, .inl rfl⟩
  · exact .inr ⟨rcv_outputLocked _ _, .inl (state_outputLocked _ _)⟩
  · exact .inr ⟨rfl, .inr rfl⟩

theorem perform_fresh (call : Call β) (h : Fresh p.rcv) (hp : p.state = .synSent)
    (hq : (perform p b call).1.state = .synSent) : Fresh (perform p b call).1.rcv := by
  cases call with
  | input g =>
    have hinput : perform p b (.input g) = inputSynSent p g b := by
      simp [perform, inputLocked, hp]
    rw [hinput] at hq ⊢
    rcases inputSynSent_rcv p g b with ⟨hkept, -⟩ | ⟨-, hst | hst⟩
    · exact h.kept hkept
    · rw [hq] at hst
      cases hst
    · rw [hq] at hst
      cases hst
  | recv len =>
    have hbuf : p.rcvbuf = [] := h.rcvbuf
    have hnone : (Tcp.recv p len b).2.2.1 = p := by
      simp [Tcp.recv, hbuf]
    change Fresh (Tcp.recv p len b).2.2.1.rcv
    rw [hnone]
    exact h
  | _ => exact h.kept (perform_kept p b _ (fun _ h => by cases h) fun _ h => by cases h)

/-- **Until the peer's SYN nothing has been received.** -/
theorem Runs.fresh {C : Pcb β → Call β → Prop} {w : Conn β} (h : Runs C w)
    (hstate : w.pcb.state = .synSent) : Fresh w.pcb.rcv := by
  refine Runs.invariant (P := fun w => w.pcb.state = .synSent → Fresh w.pcb.rcv) ?_ ?_ h hstate
  · rintro w (⟨q, iss, pathMss, b, hq, hkilled, hmss⟩ | ⟨iss, irs, peerMss, pathMss, g, hack, hmss⟩)
    · exact fun _ => ⟨rfl, rfl, rfl, rfl, rfl⟩
    · exact nofun
  · rintro w gs w' hroom hfresh ⟨b, call, hb, hc⟩ hst
    have hp := perform_synSent call hb hroom hst
    exact perform_fresh call (hfresh hp) hp hst

/-! ## Runs -/

/-- A connection, with what has been returned and the ends of the stream that have arrived. -/
structure Rx (β : Type) where
  pcb : Pcb β
  /-- The bytes that `recv` has returned. -/
  back : List β
  /-- Where the stream ends, by the FINs that have arrived. -/
  ends : List ℕ

/-- The bytes returned, and those that wait in the ring. -/
def Rx.got (w : Rx β) : List β := w.back ++ w.pcb.rcvbuf

/-- What a call returns. -/
def returned (p : Pcb β) (b : Batch β) : Call β → List β
  | .recv len => (recv p len b).1
  | _ => []

/-- The end of the stream that comes with a call. -/
def Rx.finOf (w : Rx β) : Call β → List ℕ
  | .input g => if g.flags.fin then [w.pcb.rcv.finAt w.back g] else []
  | _ => []

/-- After a call. -/
def Rx.next (w : Rx β) (b : Batch β) (call : Call β) : Rx β :=
  ⟨(perform w.pcb b call).1, w.back ++ returned w.pcb b call, w.ends ++ w.finOf call⟩

/-- The stream begins: the connection is the child of a listener, or has taken the SYN that
answers its own. -/
inductive RxStarts : Rx β → Prop
  | child (iss irs : Seq) (peerMss pathMss : ℕ) (g : In β) :
      RxStarts ⟨child iss irs peerMss pathMss g, [], []⟩
  | syn (w : Conn β) (hruns : Runs (fun _ _ => True) w) (hstate : w.pcb.state = .synSent)
      (b : Batch β) (g : In β)
      (hopen : (perform w.pcb b (.input g)).1.state = .established ∨
        (perform w.pcb b (.input g)).1.state = .synRcvd) :
      RxStarts ⟨(perform w.pcb b (.input g)).1, [], []⟩

/-- A call on a connection that meets the condition; a segment that arrives is of the stream. -/
inductive RxStep (stream : ℕ → β) (C : Pcb β → Prop) : Rx β → Rx β → Prop
  | call (w : Rx β) (b : Batch β) (call : Call β) (hc : C w.pcb)
      (harrives : ∀ g, call = .input g → Arrives stream w.back w.pcb.rcv g) :
      RxStep stream C w (w.next b call)

/-- The connections that runs reach. -/
def RxRuns (stream : ℕ → β) (C : Pcb β → Prop) : Rx β → Prop :=
  Lib.Reachable RxStarts (RxStep stream C)

/-- No segment in the queue begins a quarter of the circle behind `rcv_nxt`. -/
def Recent (p : Pcb β) : Prop := ∀ e ∈ p.ooo, (p.rcvNxt - e.seq).toInt < 2 ^ 30

instance (p : Pcb β) : Decidable (Recent p) :=
  inferInstanceAs (Decidable (∀ e ∈ p.ooo, (p.rcvNxt - e.seq).toInt < 2 ^ 30))

/-- How far behind `rcv_nxt` the queue may be after a step. -/
def maxLag : ℕ := 2 ^ 30 + tcpRcvbuf + 1

variable {w w' : Rx β} {C : Pcb β → Prop}

theorem RxStarts.receives (h : RxStarts w) :
    Receives stream (· ∈ w.ends) maxLag w.back w.pcb := by
  cases h with
  | child iss irs peerMss pathMss g =>
    exact ⟨Fresh.held ⟨rfl, rfl, rfl, rfl, rfl⟩ rfl, nofun, rfl⟩
  | syn w hruns hstate b g hopen =>
    have hfresh := hruns.fresh hstate
    have hinput : perform w.pcb b (.input g) = inputSynSent w.pcb g b := by
      simp [perform, inputLocked, hstate]
    rw [hinput] at hopen ⊢
    rcases inputSynSent_rcv w.pcb g b with ⟨-, hst⟩ | ⟨hrcv, -⟩
    · exfalso
      rw [hstate] at hst
      rcases hst with hst | hst <;> rw [hst] at hopen <;> rcases hopen with h | h <;> cases h
    · have hfresh' : Fresh (inputSynSent w.pcb g b).1.rcv := by
        rw [hrcv]
        exact { hfresh with }
      have hirs : (inputSynSent w.pcb g b).1.irs = g.seq := congrArg Rcv.irs hrcv
      have hnxt : (inputSynSent w.pcb g b).1.rcvNxt = g.seq + 1 := congrArg Rcv.rcvNxt hrcv
      refine ⟨hfresh'.held (by rw [hnxt, hirs]), fun hfin => ?_, ?_⟩
      · exact absurd (hfin.symm.trans hfresh'.finRcvd) (by decide)
      · rcases hopen with hst | hst <;> rw [hst] <;> rfl

/-- **A step.** -/
theorem RxStep.receives (hs : RxStep stream Recent w w')
    (h : Receives stream (· ∈ w.ends) maxLag w.back w.pcb) :
    Receives stream (· ∈ w'.ends) maxLag w'.back w'.pcb := by
  cases hs with
  | call b call hc harrives =>
    have hends : ∀ f, f ∈ w.ends → f ∈ w.ends ++ w.finOf call := fun f hf =>
      mem_append_left _ hf
    have hrecent : Receives stream (· ∈ w.ends ++ w.finOf call) (2 ^ 30) w.back w.pcb :=
      ⟨(h.held.recent (by decide) fun e he => Int.le_of_lt (hc e he)).mono hends,
        h.late, h.begun⟩
    by_cases hinput : ∃ g, call = .input g
    · obtain ⟨g, rfl⟩ := hinput
      have hnext := hrecent.input (Nat.le_refl _) (harrives g rfl) (by
        intro hfin
        exact mem_append_right _ (by simp [Rx.finOf, hfin])) b
      change Receives stream _ maxLag (w.back ++ []) _
      rw [append_nil]
      exact hnext
    · by_cases hrecv : ∃ len, call = .recv len
      · obtain ⟨len, rfl⟩ := hrecv
        exact (hrecent.recv len b).lag_le (by unfold maxLag; omega)
      · have hkept := perform_kept w.pcb b call (fun g hg => hinput ⟨g, hg⟩)
          fun len hl => hrecv ⟨len, hl⟩
        have hnone : returned w.pcb b call = [] := by
          cases call <;> first | rfl | exact absurd ⟨_, rfl⟩ hrecv
        change Receives stream _ maxLag (w.back ++ returned w.pcb b call) _
        rw [hnone, append_nil]
        exact (hrecent.kept hkept).lag_le (by unfold maxLag; omega)

theorem RxRuns.receives (h : RxRuns stream Recent w) :
    Receives stream (· ∈ w.ends) maxLag w.back w.pcb :=
  Lib.Reachable.invariant (P := fun w => Receives stream (· ∈ w.ends) maxLag w.back w.pcb)
    (fun _ h => h.receives) (fun _ _ h hs => hs.receives h) h

/-- The segments of the queue are in the order of their numbers, and none has a number in common
with another. -/
theorem Held.sorted (h : Held stream ends lag back r) (hlag : lag < 2 ^ 31 - 2 ^ 18) :
    r.ooo.Pairwise fun x y =>
      seqLt x.seq y.seq = true ∧ seqLeq (x.seq + BitVec.ofNat 32 x.data.length) y.seq = true := by
  obtain ⟨ps, hps⟩ := h.queue
  rw [hps.ooo, pairwise_map]
  refine hps.queued.order.imp_of_mem ?_
  intro x y hx hy hxy
  have hfull := hps.queued.full x hx
  obtain ⟨hxback, hxstop⟩ := hps.near x hx
  obtain ⟨hyback, hystop⟩ := hps.near y hy
  have hxpos : x.stop = x.pos + x.data.length := rfl
  have hypos := pos_le_stop y
  constructor
  · change seqLt (num (r.irs + 1) x.pos) (num (r.irs + 1) y.pos) = true
    rw [seqLt_num _ (by omega) (by omega), decide_eq_true_eq]
    omega
  · rw [entry_stop]
    change seqLeq (num (r.irs + 1) x.stop) (num (r.irs + 1) y.pos) = true
    rw [seqLeq_num _ (by omega) (by omega), decide_eq_true_eq]
    exact hxy

theorem Held.oooBytes (h : Held stream ends lag back r) :
    r.oooBytes = (r.ooo.map fun e => e.data.length).sum ∧ r.ooo.length ≤ tcpOooMax := by
  obtain ⟨ps, hps⟩ := h.queue
  rw [hps.bytes, hps.ooo, map_map, length_map]
  exact ⟨rfl, hps.count⟩

/-- **What is delivered is the stream.**  In every run in which no step finds the queue with a
segment that begins a quarter of the circle or more behind `rcv_nxt`: the bytes returned and those
in the ring are a beginning of the stream, `rcv_nxt` is the number behind them (and behind the FIN
once that is taken), the queue is in order and without overlap, counted and bounded, and the FIN is
taken only behind every byte before it. -/
theorem delivered_is_stream (stream : ℕ → β) (w : Rx β) (h : RxRuns stream Recent w) :
    w.got = (List.range w.got.length).map stream ∧
      w.pcb.rcvNxt = w.pcb.irs + 1 +
        BitVec.ofNat 32 (w.got.length + if w.pcb.finRcvd then 1 else 0) ∧
      (w.pcb.ooo.Pairwise fun x y =>
        seqLt x.seq y.seq = true ∧
          seqLeq (x.seq + BitVec.ofNat 32 x.data.length) y.seq = true) ∧
      w.pcb.oooBytes = (w.pcb.ooo.map fun e => e.data.length).sum ∧
      w.pcb.ooo.length ≤ tcpOooMax ∧
      (w.pcb.finRcvd = true → ∃ f ∈ w.ends, f ≤ w.got.length) := by
  have hheld := h.receives.held
  refine ⟨hheld.agrees.eq_map_range, ?_, hheld.sorted (by decide), hheld.oooBytes.1,
    hheld.oooBytes.2, hheld.fin⟩
  have hnxt : w.pcb.rcvNxt = num (w.pcb.irs + 1) (w.pcb.rcv.pos w.back) := hheld.nxt
  rw [hnxt, num, BitVec.ofInt_natCast, Rcv.pos, Rx.got, length_append]
  rfl

/-- A connection just opened, with two segments of a stream: the second before the first. -/
def reordered : Rx ℕ :=
  let second : In ℕ :=
    { seq := 101, ack := 1, data := [11, 12], win := 1000, flags := { ack := true }, mss := none }
  let first : In ℕ :=
    { seq := 100, ack := 1, data := [10], win := 1000, flags := { ack := true }, mss := none }
  (Rx.next ⟨openConn.pcb, [], []⟩ {} (.input second)).next {} (.input first)

theorem reordered_runs : RxRuns (fun n => n + 10) Recent reordered := by
  have hopen : RxRuns (fun n => n + 10) Recent ⟨openConn.pcb, [], []⟩ :=
    Lib.Reachable.init (.child 0 99 1460 1460 _)
  refine Lib.Reachable.step (hopen.step (.call _ {} _ (by decide) ?second))
    (.call _ {} _ (by decide) ?first)
  case second =>
    rintro g ⟨⟩
    refine ⟨by decide, fun i x hx _ => ?_⟩
    rcases i with _ | _ | i
    · cases hx
      decide
    · cases hx
      decide
    · cases hx
  case first =>
    rintro g ⟨⟩
    refine ⟨by decide, fun i x hx _ => ?_⟩
    rcases i with _ | i
    · cases hx
      decide
    · cases hx

theorem delivered_is_stream_reordered :
    RxRuns (fun n => n + 10) Recent reordered ∧ reordered.got = [10, 11, 12] ∧
      reordered.got = (List.range reordered.got.length).map fun n => n + 10 :=
  ⟨reordered_runs, by decide, (delivered_is_stream (fun n => n + 10) reordered reordered_runs).1⟩

/-! ## Round the circle -/

/-- The position with the number of the queue's byte, one time round. -/
def aliased : ℕ := 2 ^ 32 + 65535

/-- A stream of zeros, but for one byte. -/
def zeros (n : ℕ) : ℕ := if n = aliased then 1 else 0

/-- The connection that receives it: its peer's numbers begin at zero. -/
def zerosChild : Pcb ℕ :=
  child 0 (-1) 1460 1460
    { seq := 0, ack := 1, data := [], win := 1000, flags := { ack := true }, mss := none }

/-- An acknowledgement of nothing new, with zeros. -/
def zerosSeg (pos n : ℕ) : In ℕ :=
  { seq := BitVec.ofNat 32 pos, ack := 1, data := List.replicate n 0, win := 1000
    flags := { ack := true }, mss := none }

/-- The receiving side at a position, with zeros in the ring. -/
def zerosRcv (pos n : ℕ) (ooo : List (OooSeg ℕ)) : Rcv ℕ :=
  { irs := -1, rcvNxt := BitVec.ofNat 32 pos, rcvWnd := tcpRcvbuf - n
    rcvbuf := List.replicate n 0, ooo := ooo, oooBytes := (ooo.map fun e => e.data.length).sum
    finRcvd := false }

/-- What is left behind in the queue. -/
def stale : OooSeg ℕ := ⟨65535, [0], false⟩

theorem fields_of_zerosRcv {q : Pcb ℕ} {pos : ℕ} (h : q.rcv = zerosRcv pos n ooo) :
    q.irs = -1 ∧ q.rcvNxt = BitVec.ofNat 32 pos ∧ q.rcvWnd = tcpRcvbuf - n ∧
      q.rcvbuf = List.replicate n 0 ∧ q.ooo = ooo ∧
      q.oooBytes = (ooo.map fun e => e.data.length).sum ∧ q.finRcvd = false :=
  Rcv.mk.inj h

theorem snd_outputLocked_idle {p : Pcb ℕ} {b : Batch ℕ} (h : p.snd = zerosChild.snd) :
    (outputLocked p b).1.snd = zerosChild.snd := by
  have hlen : sendLen p = 0 := by
    have hbuf : p.sndbuf = [] := congrArg Snd.buf h
    simp [sendLen, hbuf]
  have hfin : p.finQueued = false := congrArg Snd.finQueued h
  have hdata : outputData p b = (p, b, false) := by
    simp [outputData, outputLoop, hlen, outputFin, hfin]
  simp only [outputLocked, hdata]
  unfold outputAck
  split_ifs <;> exact h

/-- **A segment of zeros, up to its data.** -/
theorem perform_zerosSeg {p : Pcb ℕ} (h : p.snd = zerosChild.snd) (b : Batch ℕ) {pos : ℕ}
    (hn : n ≠ 0) (hacc : acceptable p (zerosSeg pos n) = true)
    (hlt : seqLt (zerosSeg pos n).seq p.rcvNxt = false) :
    ∃ q b', q.rcv = p.rcv ∧ q.snd = zerosChild.snd ∧
      perform p b (.input (zerosSeg pos n)) = dataInput q (zerosSeg pos n) b' := by
  have hst : p.state = .established := congrArg Snd.state h
  have huna : p.sndUna = 1 := congrArg Snd.una h
  have hmax : p.sndMax = 1 := congrArg Snd.high h
  have hwnd : p.sndWnd = 1000 := congrArg Snd.wnd h
  have hlo : seqLt 1#32 (1#32 - BitVec.ofNat 32 tcpMaxWindow) = false := by decide
  have hhi : seqGt 1#32 1#32 = false := by decide
  have hinput : perform p b (.input (zerosSeg pos n)) =
      inputAccepted p (zerosSeg pos n) b := by
    simp only [perform, inputLocked, hst, hacc, trim_of_not_seqLt hlt, inputAcceptable]
    simp [zerosSeg, huna, hmax, hlo, hhi]
  refine ⟨updateWindow { p with keepProbes := 0 } (zerosSeg pos n), { b with quiet := false },
    ?_, ?_, ?_⟩
  · unfold updateWindow
    split_ifs <;> rfl
  · unfold updateWindow
    split_ifs
    · simp only [setSndWnd, Pcb.snd, zerosSeg, ← hwnd]
      exact h
    · exact h
  · rw [hinput]
    simp [inputAccepted, ackInput, isNewAck, isDupAck, zerosSeg, huna, hmax, hhi, hn]

theorem finInput_idle {p : Pcb ℕ} (h : p.snd = zerosChild.snd) (g : In ℕ) (b : Batch ℕ) :
    (finInput p g b false false).1.rcv = p.rcv ∧
      (finInput p g b false false).1.snd = zerosChild.snd := by
  have hst : p.state = .established := congrArg Snd.state h
  have hout : finInput p g b false false = outputLocked p b := by
    simp [finInput, hst]
  rw [hout]
  exact ⟨rcv_outputLocked p b, snd_outputLocked_idle h⟩

theorem ackData_idle {p : Pcb ℕ} (h : p.snd = zerosChild.snd) (b : Batch ℕ) :
    (ackData p b).1.rcv = p.rcv ∧ (ackData p b).1.snd = zerosChild.snd := by
  unfold ackData
  split_ifs
  · exact ⟨rcv_outputLocked _ b, snd_outputLocked_idle h⟩
  · exact ⟨rfl, h⟩

theorem dataInput_next {q : Pcb ℕ} (h : q.snd = zerosChild.snd) {pos : ℕ} (b : Batch ℕ)
    (hn : n ≠ 0) (hseq : (zerosSeg pos n).seq = q.rcvNxt)
    (hfin : (takeData q (List.replicate n 0)).2 = false) :
    (dataInput q (zerosSeg pos n) b).1.rcv = (takeData q (List.replicate n 0)).1.rcv ∧
      (dataInput q (zerosSeg pos n) b).1.snd = zerosChild.snd := by
  have hst : q.state = .established := congrArg Snd.state h
  have hdata : (zerosSeg pos n).data = List.replicate n 0 := rfl
  have hsnd : (takeData q (List.replicate n 0)).1.snd = zerosChild.snd :=
    (snd_takeData q _).trans h
  have hack := ackData_idle hsnd b
  have hrest := finInput_idle hack.2 (zerosSeg pos n)
    (ackData (takeData q (List.replicate n 0)).1 b).2
  have hinput : dataInput q (zerosSeg pos n) b =
      finInput (ackData (takeData q (List.replicate n 0)).1 b).1 (zerosSeg pos n)
        (ackData (takeData q (List.replicate n 0)).1 b).2 false
        (takeData q (List.replicate n 0)).2 := by
    unfold dataInput
    rw [hdata, if_pos (by simp [hn, hst, State.takes]), if_pos hseq]
    rfl
  rw [hinput, hfin]
  exact ⟨hrest.1.trans hack.1, hrest.2⟩

theorem ofNat_add (x y : ℕ) :
    BitVec.ofNat 32 x + BitVec.ofNat 32 y = BitVec.ofNat 32 (x + y) := by
  rw [BitVec.ofNat_add]

theorem takeData_fits {q : Pcb ℕ} {pos : ℕ} (h : q.rcv = zerosRcv pos n [stale])
    (hm : m ≤ tcpRcvbuf - n) (hlt : pos + m < 65535) :
    (takeData q (List.replicate m 0)).1.rcv = zerosRcv (pos + m) (n + m) [stale] ∧
      (takeData q (List.replicate m 0)).2 = false := by
  obtain ⟨hirs, hnxt, -, hbuf, hooo, hbytes, hfin⟩ := fields_of_zerosRcv h
  have hmin : min m (tcpRcvbuf - n) = m := Nat.min_eq_left hm
  have hfar : seqLeq stale.seq (BitVec.ofNat 32 (pos + m)) = false := by
    have hsub : stale.seq - BitVec.ofNat 32 (pos + m) = BitVec.ofNat 32 (65535 - (pos + m)) := by
      change 65535#32 - _ = _
      bv_omega
    rw [seqLeq, hsub, toInt_eq, BitVec.toNat_ofNat, decide_eq_false_iff_not]
    split_ifs <;> omega
  simp only [takeData, Pcb.rcvSpace, Pcb.rcv, hbuf, hnxt, hooo, hbytes, hirs, hfin,
    length_replicate, hmin, lt_irrefl, if_false, take_replicate, min_self,
    replicate_append_replicate, ofNat_add, oooDrain, hfar, Bool.not_false, if_true]
  exact ⟨rfl, trivial⟩

/-- Zeros that do not fit into the ring: the queue is not looked at. -/
theorem takeData_short {q : Pcb ℕ} {pos : ℕ}
    (h : q.rcv = zerosRcv pos n ooo) (hn : n ≤ tcpRcvbuf) (hm : tcpRcvbuf - n < m) :
    (takeData q (List.replicate m 0)).1.rcv = zerosRcv (pos + (tcpRcvbuf - n)) tcpRcvbuf ooo ∧
      (takeData q (List.replicate m 0)).2 = false := by
  obtain ⟨hirs, hnxt, -, hbuf, hooo, hbytes, hfin⟩ := fields_of_zerosRcv h
  have hmin : min m (tcpRcvbuf - n) = tcpRcvbuf - n := by omega
  have hmin' : min (tcpRcvbuf - n) m = tcpRcvbuf - n := by omega
  have hring : n + (tcpRcvbuf - n) = tcpRcvbuf := by omega
  simp only [takeData, Pcb.rcvSpace, Pcb.rcv, hbuf, hnxt, hooo, hbytes, hirs, hfin,
    length_replicate, hmin, if_pos hm, take_replicate, hmin',
    replicate_append_replicate, hring, ofNat_add]
  exact ⟨rfl, trivial⟩

/-- A connection on its way round the circle. -/
structure Round (pos n : ℕ) (ooo : List (OooSeg ℕ)) (w : Rx ℕ) : Prop where
  runs : RxRuns zeros (fun _ => True) w
  rcv : w.pcb.rcv = zerosRcv pos n ooo
  snd : w.pcb.snd = zerosChild.snd
  back : w.back.length + n = pos

namespace Round

variable {pos n : ℕ} {ooo : List (OooSeg ℕ)} {w : Rx ℕ}

section

variable (h : Round pos n ooo w)

include h

theorem arrives (hm : m ≤ 65535) (hlt : pos + m ≤ aliased) :
    Arrives zeros w.back w.pcb.rcv (zerosSeg pos m) := by
  have hback := h.back
  have hplace : w.pcb.rcv.place w.back (zerosSeg pos m) = pos := by
    have hpos : w.pcb.rcv.pos w.back = pos := by
      rw [h.rcv]
      simp only [Rcv.pos, zerosRcv, length_replicate, Bool.false_eq_true, if_false]
      omega
    have hseq : (zerosSeg pos m).seq = w.pcb.rcv.rcvNxt := (congrArg Rcv.rcvNxt h.rcv).symm
    rw [Rcv.place, hpos, hseq, BitVec.sub_self]
    rfl
  refine ⟨by simpa [zerosSeg] using hm, ?_⟩
  intro i x hx _
  rw [hplace]
  simp only [zerosSeg, List.getElem?_replicate, Option.ite_none_right_eq_some,
    Option.some.injEq] at hx
  have hne : ((pos : ℕ) + (i : ℤ)).toNat ≠ aliased := by omega
  rw [← hx.2, zeros, if_neg hne]

theorem acceptable (hm : m ≠ 0) (hn : n < tcpRcvbuf) :
    Tcp.acceptable w.pcb (zerosSeg pos m) = true ∧
      seqLt (zerosSeg pos m).seq w.pcb.rcvNxt = false := by
  have hbuf : tcpRcvbuf = 65536 := rfl
  obtain ⟨-, hnxt, hwnd, -⟩ := fields_of_zerosRcv h.rcv
  have hend : (BitVec.ofNat 32 pos -
      (BitVec.ofNat 32 pos + BitVec.ofNat 32 (tcpRcvbuf - n))).toInt < 0 := by
    have hsub : BitVec.ofNat 32 pos - (BitVec.ofNat 32 pos + BitVec.ofNat 32 (tcpRcvbuf - n)) =
        -BitVec.ofNat 32 (tcpRcvbuf - n) := by
      bv_omega
    rw [hsub, toInt_eq, BitVec.toNat_neg, BitVec.toNat_ofNat]
    split_ifs <;> omega
  have hseq : (zerosSeg pos m).seq = BitVec.ofNat 32 pos := rfl
  have hlen : (zerosSeg pos m).data.length = m := length_replicate
  constructor
  · have hzero : tcpRcvbuf - n ≠ 0 := by omega
    simp only [Tcp.acceptable, hlen, hm, if_false, hseq, hnxt, hwnd, seqGeq, seqLt, hend]
    simp [hzero]
  · rw [hseq, hnxt, seqLt, BitVec.sub_self]
    rfl

/-- A segment that is next. -/
theorem input {r : Rcv ℕ} (hm : m ≠ 0) (hlen : m ≤ 65535) (hn : n < tcpRcvbuf)
    (hlt : pos + m ≤ aliased) (htake : ∀ q : Pcb ℕ, q.rcv = zerosRcv pos n ooo →
      (takeData q (List.replicate m 0)).1.rcv = r ∧
        (takeData q (List.replicate m 0)).2 = false) :
    ∃ w', RxRuns zeros (fun _ => True) w' ∧ w'.pcb.rcv = r ∧ w'.pcb.snd = zerosChild.snd ∧
      w'.back = w.back := by
  obtain ⟨hacc, hbefore⟩ := h.acceptable hm hn
  obtain ⟨q, b, hrcv, hsnd, hinput⟩ := perform_zerosSeg h.snd {} hm hacc hbefore
  have hq : q.rcv = zerosRcv pos n ooo := hrcv.trans h.rcv
  have hseq : (zerosSeg pos m).seq = q.rcvNxt := (congrArg Rcv.rcvNxt hq).symm
  obtain ⟨hnext, hfin⟩ := htake q hq
  have hdata := dataInput_next hsnd b hm hseq hfin
  refine ⟨w.next {} (.input (zerosSeg pos m)), h.runs.step (.call w {} _ trivial ?_), ?_, ?_, ?_⟩
  · rintro g ⟨⟩
    exact h.arrives hlen hlt
  · change (perform w.pcb {} (.input (zerosSeg pos m))).1.rcv = r
    rw [hinput]
    exact hdata.1.trans hnext
  · change (perform w.pcb {} (.input (zerosSeg pos m))).1.snd = zerosChild.snd
    rw [hinput]
    exact hdata.2
  · exact append_nil _

/-- The ring is filled, and the queue is not looked at. -/
theorem short (hlen : m ≤ 65535) (hn : n < tcpRcvbuf) (hm : tcpRcvbuf - n < m)
    (hlt : pos + m ≤ aliased) : ∃ w', Round (pos + (tcpRcvbuf - n)) tcpRcvbuf ooo w' := by
  obtain ⟨w', hruns, hrcv, hsnd, hback⟩ := h.input (by omega) hlen hn hlt fun q hq =>
    takeData_short hq (Nat.le_of_lt hn) hm
  refine ⟨w', hruns, hrcv, hsnd, ?_⟩
  have hpos := h.back
  rw [hback]
  omega

theorem recv (hm : m ≠ 0) (hle : m ≤ n) : ∃ w', Round pos (n - m) ooo w' := by
  have hbuf : w.pcb.rcvbuf = List.replicate n 0 := congrArg Rcv.rcvbuf h.rcv
  have hmin : min n m = m := by omega
  have hdata : (Tcp.recv w.pcb m {}).1 = List.replicate m 0 := by
    simp only [Tcp.recv, hbuf, length_replicate, hmin, take_replicate]
    rw [Nat.min_eq_left hle]
  have hnext : (Tcp.recv w.pcb m {}).2.2.1.rcv = zerosRcv pos (n - m) ooo ∧
      (Tcp.recv w.pcb m {}).2.2.1.snd = zerosChild.snd := by
    have hrcv : Pcb.rcv { w.pcb with
        rcvbuf := List.replicate (n - m) 0, rcvWnd := tcpRcvbuf - (n - m) } =
        zerosRcv pos (n - m) ooo := by
      obtain ⟨hirs, hnxt, -, -, hooo, hbytes, hfin⟩ := fields_of_zerosRcv h.rcv
      simp only [Pcb.rcv, zerosRcv, hirs, hnxt, hooo, hbytes, hfin]
    simp only [Tcp.recv, hbuf, length_replicate, hmin, drop_replicate, Pcb.rcvSpace]
    split_ifs
    · exact ⟨(rcv_outputLocked _ _).trans hrcv, snd_outputLocked_idle h.snd⟩
    · exact ⟨hrcv, h.snd⟩
  have hrun := h.runs.step (.call w {} (.recv m) trivial fun _ h => by cases h)
  refine ⟨w.next {} (.recv m), hrun, hnext.1, hnext.2, ?_⟩
  change (w.back ++ (Tcp.recv w.pcb m {}).1).length + (n - m) = pos
  rw [hdata, length_append, length_replicate]
  have hpos := h.back
  omega

end

/-- The queue's byte comes first, then zeros in order until the ring is almost full. -/
theorem fill (k : ℕ) (hk : k < 64) : ∃ w, Round (2 ^ 10 * k) (2 ^ 10 * k) [stale] w := by
  have hbuf : tcpRcvbuf = 65536 := rfl
  induction k with
  | zero =>
    have hchild : Round 0 0 [] ⟨zerosChild, [], []⟩ :=
      ⟨.init (.child 0 (-1) 1460 1460 _), rfl, rfl, rfl⟩
    refine ⟨_, hchild.runs.step (.call _ {} (.input (zerosSeg 65535 1)) trivial ?_), rfl, rfl, rfl⟩
    rintro g ⟨⟩
    refine ⟨by decide, fun i x hx _ => ?_⟩
    rcases i with _ | i
    · cases hx
      decide
    · cases hx
  | succ k ih =>
    obtain ⟨w, hw⟩ := ih (by omega)
    obtain ⟨w', hruns, hrcv, hsnd, hback⟩ := hw.input (m := 2 ^ 10) (by decide) (by decide)
      (by omega) (by unfold aliased; omega) fun q hq => takeData_fits hq (by omega) (by omega)
    refine ⟨w', hruns, hrcv, hsnd, ?_⟩
    have hpos := hw.back
    rw [hback]
    omega

/-- **Round the circle**: as long as every segment overfills the ring, the queue is not looked
at. -/
theorem go (k : ℕ) (hk : k < 2 ^ 22) :
    ∃ w, Round (tcpRcvbuf + 2 ^ 10 * k) tcpRcvbuf [stale] w := by
  have hbuf : tcpRcvbuf = 65536 := rfl
  induction k with
  | zero =>
    obtain ⟨w, hw⟩ := fill 63 (by decide)
    exact hw.short (m := 2 ^ 10 + 1) (by decide) (by decide) (by decide) (by decide)
  | succ k ih =>
    obtain ⟨w, hw⟩ := ih (by omega)
    obtain ⟨w', hw'⟩ := hw.recv (m := 2 ^ 10) (by decide) (by decide)
    obtain ⟨w'', hw''⟩ := hw'.short (m := 2 ^ 10 + 1) (by decide) (by decide) (by decide)
      (by unfold aliased; omega)
    refine ⟨w'', ?_⟩
    rw [show tcpRcvbuf + 2 ^ 10 * (k + 1) =
      tcpRcvbuf + 2 ^ 10 * k + (tcpRcvbuf - (tcpRcvbuf - 2 ^ 10)) by omega]
    exact hw''

end Round

/-- One time round, the queue's segment is taken for the one behind the next bytes. -/
theorem takeData_stale {q : Pcb ℕ} (h : q.rcv = zerosRcv (2 ^ 32 + 64512) 64512 [stale]) :
    (takeData q (List.replicate 1023 0)).1.rcv =
        { zerosRcv 0 65536 [] with rcvNxt := BitVec.ofNat 32 65536 } ∧
      (takeData q (List.replicate 1023 0)).2 = false := by
  obtain ⟨hirs, -, -, hbuf, hooo, -, hfin⟩ := fields_of_zerosRcv h
  have hnxt : q.rcvNxt = 64512 := congrArg Rcv.rcvNxt h
  have hbytes : q.oooBytes = 1 := congrArg Rcv.oooBytes h
  have hmin : min 1023 (tcpRcvbuf - 64512) = 1023 := by decide
  have hnear : seqLeq stale.seq (64512 + BitVec.ofNat 32 1023) = true := by decide
  have hahead : seqLeq (stale.seq + BitVec.ofNat 32 1) (64512 + BitVec.ofNat 32 1023) = false := by
    decide
  have hskip : (64512 + BitVec.ofNat 32 1023 - stale.seq).toNat = 0 := by decide
  have hone : min 1 (tcpRcvbuf - (64512 + 1023)) = 1 := by decide
  have hstale : stale.data = List.replicate 1 0 := rfl
  simp only [takeData, Pcb.rcvSpace, Pcb.rcv, hbuf, hnxt, hooo, hbytes, hirs, hfin,
    length_replicate, hmin, lt_irrefl, if_false, oooDrain, hnear, hahead, hskip,
    take_replicate, min_self, replicate_append_replicate, Bool.not_true,
    Bool.false_eq_true, hstale, Nat.sub_zero, hone, drop_zero]
  exact ⟨rfl, rfl⟩

/-- The peer sends zeros, the last byte of the window first, then those before it, and from the
moment the ring is full always one byte more than it has room for, and the connection is read each
time.  The byte behind the hole stays in the queue; four gigabytes later `rcv_nxt` comes to its
number again, and it is delivered in the place of a byte that is not zero.  No segment has more
than 1025 bytes. -/
theorem stale_segment_delivered :
    ∃ (stream : ℕ → ℕ) (w : Rx ℕ), RxRuns stream (fun _ => True) w ∧
      w.got ≠ (List.range w.got.length).map stream := by
  obtain ⟨w, hw⟩ := Round.go (2 ^ 22 - 1) (by decide)
  obtain ⟨w', hw'⟩ := hw.recv (m := 2 ^ 10) (by decide) (by decide)
  obtain ⟨v, hruns, hrcv, -, hback⟩ := hw'.input (m := 1023) (by decide) (by decide) (by decide)
    (by decide) fun q hq => takeData_stale hq
  refine ⟨zeros, v, hruns, ?_⟩
  have hbuf : v.pcb.rcvbuf = List.replicate 65536 0 := congrArg Rcv.rcvbuf hrcv
  have hlen : v.back.length = 2 ^ 32 := by
    have hsum := hw'.back
    have hring : tcpRcvbuf = 65536 := rfl
    rw [hback]
    omega
  have hlast : v.got[aliased]? = some 0 := by
    rw [Rx.got, List.getElem?_append_right (by rw [hlen]; decide), hlen, hbuf,
      List.getElem?_replicate, if_pos (by decide)]
  intro heq
  rw [heq, List.getElem?_map, List.getElem?_range] at hlast
  · cases hlast
  · rw [Rx.got, length_append, hlen, hbuf, length_replicate]
    decide

end CosmoOS.Network.Tcp
