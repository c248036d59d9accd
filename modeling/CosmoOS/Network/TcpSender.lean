import CosmoOS.Network.Tcp

/-!
# What the sending side of a connection can do

The sending half of a connection is a few variables (`Snd`).  A call changes them first by a *turn*:
an acknowledgement is taken, or opens the connection, and the peer's window and the segment size are
what they will be for the rest of the call.  Then come *moves*, which leave those and `snd_una` as
they are: a segment of data, a FIN, a fast retransmit, a restart from `snd_una`, data queued by the
application, a change of state.  `Network.TcpCalls` shows that this is all that the calls do.

Six of them carry a rule (`Rules`), which says when they may be made.  A property that not every one
of them keeps is proved for those that its rules allow.

`Room` is what turns and moves keep under any rules: `snd_nxt` is between `snd_una` and `snd_max`,
and `snd_max` is at most one number beyond the bytes in the ring.
-/

namespace CosmoOS.Network.Tcp

open Lib.Serial List

variable {β : Type}

/-! ## The sender -/

/-- The sending side of a connection. -/
structure Snd (β : Type) where
  state : State
  iss : Seq
  una : Seq
  nxt : Seq
  high : Seq
  wnd : ℕ
  mss : ℕ
  pathMss : ℕ
  buf : List β
  finQueued : Bool
  finSent : Bool
  /-- The retransmission timer's bit. -/
  probing : Bool
  killed : Bool

def Pcb.snd (p : Pcb β) : Snd β :=
  ⟨p.state, p.iss, p.sndUna, p.sndNxt, p.sndMax, p.sndWnd, p.mss, p.pathMss, p.sndbuf,
    p.finQueued, p.finSent, p.work.rexmit, p.killed⟩

namespace Snd

section

variable (s : Snd β) (a : Seq)

/-- How far `snd_nxt` is ahead of `snd_una`. -/
def off : ℕ := ahead s.una s.nxt

/-- How far `snd_max` is ahead of `snd_una`. -/
def top : ℕ := ahead s.una s.high

/-- `snd_nxt` moves up, and `snd_max` with it. -/
def advance (n : ℕ) : Snd β :=
  let nxt := s.nxt + BitVec.ofNat 32 n
  { s with nxt := nxt, high := if seqGt nxt s.high then nxt else s.high }

/-- The acknowledgement is taken for the FIN's. -/
def takesFin : Bool := s.finSent && a = s.high

/-- Where the acknowledgement of its own FIN takes a connection. -/
def afterFin : State → State
  | .finWait1 => .finWait2
  | .closing => .timeWait
  | .lastAck => .closed
  | st => st

def acked : Snd β :=
  { s with
    buf := s.buf.drop (if s.takesFin a then ahead s.una a - 1 else ahead s.una a)
    una := a
    nxt := if seqLt s.nxt a then a else s.nxt
    state := if s.takesFin a then afterFin s.state else s.state }

end

end Snd

/-! ## Turns and moves -/

/-- A segment that carries neither data nor a FIN. -/
def Seg.plain (g : Seg β) : Prop := g.data = [] ∧ g.flags.fin = false

/-- When the moves are allowed that a property may not survive. -/
structure Rules (β : Type) where
  fast : Snd β → Prop := fun _ => True
  ack : Snd β → Seq → Prop := fun _ _ => True
  opens : Snd β → Seq → Prop := fun _ _ => True
  synAck : Snd β → Seq → Prop := fun _ _ => True
  queueFin : Snd β → Prop := fun _ => True
  probe : Prop := True

/-- What moves `snd_una`. -/
inductive Acks (R : Rules β) : Snd β → Snd β → Prop
  | stay (s : Snd β) : Acks R s s
  | ack (s : Snd β) (a : Seq)
      (hstate : s.state ≠ .closed ∧ s.state ≠ .synSent ∧ s.state ≠ .synRcvd ∧
        s.state ≠ .timeWait)
      (hlo : seqGt a s.una = true) (hhi : seqLeq a s.high = true) (hrule : R.ack s a) :
      Acks R s (s.acked a)
  | opens (s : Snd β) (a : Seq) (hstate : s.state = .synRcvd) (hlo : seqLt a s.una = false)
      (hhi : seqGt a s.nxt = false) (hrule : R.opens s a) :
      Acks R s { s with una := a, state := .established }
  | synAck (s : Snd β) (a : Seq) (hstate : s.state = .synSent) (hlo : seqLeq a s.iss = false)
      (hhi : seqGt a s.nxt = false) (hrule : R.synAck s a) :
      Acks R s { s with una := a, state := .established }

/-- A turn: what moves `snd_una`, and the window and the sizes that hold from then on. -/
inductive Turn (R : Rules β) (s : Snd β) : Snd β → Prop
  | mk (t : Snd β) (wnd mss pathMss : ℕ) (hacks : Acks R s t)
      (hmss : 0 < s.mss → 0 < s.pathMss → 0 < mss ∧ 0 < pathMss) :
      Turn R s { t with wnd := wnd, mss := mss, pathMss := pathMss }

/-- Where the peer's FIN takes a connection. -/
inductive PeerFin (s : Snd β) : State → Prop
  | closeWait (h : s.state = .established) : PeerFin s .closeWait
  | closing (h : s.state = .finWait1) (hfin : ¬ (s.finSent = true ∧ s.una = s.high)) :
      PeerFin s .closing
  | timeWait1 (h : s.state = .finWait1) (hfin : s.finSent = true ∧ s.una = s.high) :
      PeerFin s .timeWait
  | timeWait2 (h : s.state = .finWait2) : PeerFin s .timeWait

/-- Where the application's close takes a connection. -/
inductive OwnFin (s : Snd β) : State → Prop
  | finWait1 (h : s.state = .established ∨ s.state = .synRcvd) : OwnFin s .finWait1
  | lastAck (h : s.state = .closeWait) : OwnFin s .lastAck

/-- A move, with the segments that it builds and the bytes that it takes from the application. -/
inductive Move (R : Rules β) : Snd β → List (Seg β) → List β → Snd β → Prop
  | plain (s : Snd β) (g : Seg β) (h : g.plain) : Move R s [g] [] s
  | data (s : Snd β) (n : ℕ) (g : Seg β) (hstate : s.state.sends = true) (hpos : 0 < n)
      (hlen : s.off + n ≤ s.buf.length) (hmss : n ≤ s.mss ∨ n = 1)
      (hwnd : s.off + n ≤ s.wnd ∨ (n = 1 ∧ s.off = 0 ∧ s.wnd = 0 ∧ s.probing = true))
      (hseq : g.seq = s.nxt) (hdata : g.data = (s.buf.drop s.off).take n)
      (hfin : g.flags.fin = false) : Move R s [g] [] (s.advance n)
  | fin (s : Snd β) (g : Seg β) (hstate : s.state.sends = true) (hqueued : s.finQueued = true)
      (hsent : s.finSent = false) (hoff : s.off = s.buf.length) (hseq : g.seq = s.nxt)
      (hdata : g.data = []) : Move R s [g] [] { s.advance 1 with finSent := true }
  | fast (s : Snd β) (g : Seg β) (hstate : s.state ≠ .closed) (hrule : R.fast s)
      (hseq : g.seq = s.una)
      (hdata : g.data = s.buf.take (min s.buf.length s.mss)) (hfin : g.flags.fin = false) :
      Move R s [g] [] s
  | restart (s : Snd β)
      (hstate : s.state ≠ .closed ∧ s.state ≠ .synSent ∧ s.state ≠ .timeWait) :
      Move R s [] [] { s with nxt := s.una, finSent := false }
  | write (s : Snd β) (data : List β) (hstate : s.state = .established ∨ s.state = .closeWait)
      (hqueued : s.finQueued = false) (hlen : s.buf.length + data.length ≤ tcpSndbuf) :
      Move R s [] data { s with buf := s.buf ++ data }
  | queueFin (s : Snd β) (st : State) (h : OwnFin s st) (hrule : R.queueFin s) :
      Move R s [] [] { s with state := st, finQueued := true }
  | peerFin (s : Snd β) (st : State) (h : PeerFin s st) : Move R s [] [] { s with state := st }
  | synRcvd (s : Snd β) (hstate : s.state = .synSent) :
      Move R s [] [] { s with state := .synRcvd }
  | probe (s : Snd β) (b : Bool) (hrule : b = true → R.probe) :
      Move R s [] [] { s with probing := b }
  | close (s : Snd β) (killed : Bool) :
      Move R s [] [] { s with state := .closed, killed := killed }

inductive Moves (R : Rules β) : Snd β → List (Seg β) → List β → Snd β → Prop
  | refl (s : Snd β) : Moves R s [] [] s
  | head {s t u : Snd β} {gs gs' : List (Seg β)} {ds ds' : List β} (h : Move R s gs ds t)
      (hs : Moves R t gs' ds' u) : Moves R s (gs ++ gs') (ds ++ ds') u

section Moves

variable {R : Rules β} {s t u : Snd β} {gs gs' : List (Seg β)} {ds ds' : List β}

theorem Move.moves (h : Move R s gs ds t) : Moves R s gs ds t := by
  have hone := Moves.head h (Moves.refl t)
  rwa [append_nil, append_nil] at hone

theorem Moves.trans (h : Moves R s gs ds t) (h' : Moves R t gs' ds' u) :
    Moves R s (gs ++ gs') (ds ++ ds') u := by
  induction h with
  | refl s => exact h'
  | head hm _ ih =>
    rw [append_assoc, append_assoc]
    exact .head hm (ih h')

variable {P : List β → Snd β → Prop}

/-- **The rule for moves**: what each keeps, with the bytes taken so far, all of them keep. -/
theorem Moves.invariant (hstep : ∀ app s gs ds t, P app s → Move R s gs ds t → P (app ++ ds) t)
    (h : Moves R s gs ds t) (app : List β) (hs : P app s) : P (app ++ ds) t := by
  induction h generalizing app with
  | refl s => rwa [append_nil]
  | head hm _ ih =>
    rw [← append_assoc]
    exact ih _ (hstep _ _ _ _ _ hs hm)

/-- **The rule for segments**: what holds of each segment when it is built, and is kept by the
moves after it, holds of all of them at the end. -/
theorem Moves.each {Q : List β → Snd β → Seg β → Prop}
    (hstep : ∀ app s gs ds t, P app s → Move R s gs ds t → P (app ++ ds) t)
    (hseg : ∀ app s gs ds t, P app s → Move R s gs ds t → ∀ g ∈ gs, Q (app ++ ds) t g)
    (hkeep : ∀ app s gs ds t g, P app s → Move R s gs ds t → Q app s g → Q (app ++ ds) t g)
    (h : Moves R s gs ds t) (app : List β) (hs : P app s) : ∀ g ∈ gs, Q (app ++ ds) t g := by
  have hlater : ∀ {s t : Snd β} {gs : List (Seg β)} {ds app : List β} (g : Seg β),
      Moves R s gs ds t → P app s → Q app s g → Q (app ++ ds) t g := by
    intro s t gs ds app g h
    induction h generalizing app with
    | refl s => exact fun _ hg => by rwa [append_nil]
    | head hm _ ih =>
      rw [← append_assoc]
      exact fun hs hg => ih (hstep _ _ _ _ _ hs hm) (hkeep _ _ _ _ _ g hs hm hg)
  induction h generalizing app with
  | refl s => simp
  | head hm hms ih =>
    have ht := hstep _ _ _ _ _ hs hm
    rw [← append_assoc]
    intro g hg
    rcases mem_append.mp hg with hg | hg
    · exact hlater g hms ht (hseg _ _ _ _ _ hs hm g hg)
    · exact ih _ ht g hg

end Moves

/-! ## The numbers stay close -/

section

variable (base : Seq) {a b : Seq} (ha : ahead base a < 2 ^ 31) (hb : ahead base b < 2 ^ 31)

include ha hb

theorem seqGt_iff : seqGt a b = true ↔ ahead base b < ahead base a := by
  rw [seqGt, toInt_sub_eq base ha hb, decide_eq_true_eq]
  omega

theorem seqLt_iff : seqLt a b = true ↔ ahead base a < ahead base b := by
  rw [seqLt, toInt_sub_eq base ha hb, decide_eq_true_eq]
  omega

end

theorem ahead_le_of_between (base : Seq) {a b : Seq} (hb : ahead base b < 2 ^ 31)
    (hlo : 0 ≤ (a - base).toInt) (hhi : (a - b).toInt ≤ 0) : ahead base a ≤ ahead base b := by
  have ha : ahead base a < 2 ^ 31 := by
    rw [toInt_eq] at hlo
    unfold ahead at *
    split_ifs at hlo <;> omega
  rw [toInt_sub_eq base ha hb] at hhi
  omega

/-- **What is always so of a sender.** -/
structure Room (s : Snd β) : Prop where
  off_le : s.off ≤ s.top
  top_le : s.top ≤ s.buf.length + 1
  len_le : s.buf.length ≤ tcpSndbuf
  fin : s.finSent = true → s.finQueued = true
  /-- A FIN that counts as sent is behind the bytes in the ring, or it has been acknowledged. -/
  finTop : s.finSent = true → s.buf.length + 1 ≤ s.top ∨ (s.top = 0 ∧ s.buf = [])
  /-- Before the connection is open nothing is queued, and only the SYN has been sent. -/
  syn : s.state = .synSent ∨ s.state = .synRcvd →
    s.una = s.iss ∧ s.high = s.iss + 1 ∧ s.buf = [] ∧ s.finQueued = false
  synSent : s.state = .synSent → s.nxt = s.iss + 1
  killed : s.killed = true → s.state = .closed

namespace Room

variable {R : Rules β} {s t : Snd β}

variable {gs : List (Seg β)} {ds : List β}

theorem top_lt (h : Room s) : s.top < 2 ^ 31 := by
  have htop := h.top_le
  have hlen := h.len_le
  rw [tcpSndbuf] at hlen
  omega

theorem off_lt (h : Room s) : s.off < 2 ^ 31 := lt_of_le_of_lt h.off_le h.top_lt

variable {a : Seq} {st : State} {n : ℕ}

/-- An acknowledgement of something new is ahead of `snd_una`, and not ahead of `snd_max`. -/
theorem ack_range (h : Room s) (hlo : seqGt a s.una = true) (hhi : seqLeq a s.high = true) :
    0 < ahead s.una a ∧ ahead s.una a ≤ s.top := by
  rw [seqGt, decide_eq_true_eq] at hlo
  rw [seqLeq, decide_eq_true_eq] at hhi
  exact ⟨((toInt_sub_pos _ _).mp hlo).1, ahead_le_of_between _ h.top_lt (le_of_lt hlo) hhi⟩

theorem top_rebase (ha : ahead s.una a ≤ s.top) :
    ahead a s.high = s.top - ahead s.una a := ahead_rebase ha

theorem off_rebase (h : Room s) (ha : ahead s.una a ≤ s.top) :
    ahead a (if seqLt s.nxt a then a else s.nxt) = s.off - ahead s.una a := by
  have htop := h.top_lt
  have hlt := seqLt_iff s.una h.off_lt (lt_of_le_of_lt ha htop)
  split_ifs with hnxt
  · have hoff := hlt.mp hnxt
    have hself := ahead_self a
    unfold Snd.off at *
    omega
  · have hoff : ahead s.una a ≤ s.off := by
      by_contra hcontra
      exact hnxt (hlt.mpr (by unfold Snd.off at hcontra; omega))
    exact ahead_rebase hoff

theorem off_acked (h : Room s) (ha : ahead s.una a ≤ s.top) :
    (s.acked a).off = s.off - ahead s.una a := h.off_rebase ha

theorem top_acked (ha : ahead s.una a ≤ s.top) :
    (s.acked a).top = s.top - ahead s.una a := top_rebase ha

theorem takesFin_top (h : s.takesFin a = true) : ahead s.una a = s.top := by
  simp only [Snd.takesFin, Bool.and_eq_true, decide_eq_true_eq] at h
  rw [h.2]
  rfl

theorem length_acked (s : Snd β) (a : Seq) :
    (s.acked a).buf.length =
      s.buf.length - if s.takesFin a then ahead s.una a - 1 else ahead s.una a :=
  length_drop

theorem afterFin_ne (hsent : st ≠ .synSent) (hrcvd : st ≠ .synRcvd) :
    Snd.afterFin st ≠ .synSent ∧ Snd.afterFin st ≠ .synRcvd := by
  cases st <;> simp_all [Snd.afterFin]

theorem acked_state_ne (hsent : s.state ≠ .synSent) (hrcvd : s.state ≠ .synRcvd) :
    (s.acked a).state ≠ .synSent ∧ (s.acked a).state ≠ .synRcvd := by
  simp only [Snd.acked]
  split_ifs
  · exact afterFin_ne hsent hrcvd
  · exact ⟨hsent, hrcvd⟩

section

variable (h : Room s)

include h

/-- A FIN that counts as sent stays behind the bytes that an acknowledgement leaves. -/
theorem finTop_acked (hlo : seqGt a s.una = true) (hhi : seqLeq a s.high = true)
    (hsent : s.finSent = true) :
    (s.acked a).buf.length + 1 ≤ (s.acked a).top ∨
      ((s.acked a).top = 0 ∧ (s.acked a).buf = []) := by
  obtain ⟨hpos, hle⟩ := h.ack_range hlo hhi
  have hfin : s.buf.length + 1 ≤ s.top := by
    rcases h.finTop hsent with hfin | ⟨hzero, -⟩
    · exact hfin
    · omega
  rw [top_acked hle, ← length_eq_zero_iff, length_acked]
  cases htakes : s.takesFin a with
  | true =>
    rw [takesFin_top htakes]
    simp only [if_true]
    omega
  | false =>
    simp only [Bool.false_eq_true, if_false]
    omega

theorem acked
    (hstate : s.state ≠ .closed ∧ s.state ≠ .synSent ∧ s.state ≠ .synRcvd ∧ s.state ≠ .timeWait)
    (hlo : seqGt a s.una = true) (hhi : seqLeq a s.high = true) : Room (s.acked a) := by
  obtain ⟨hpos, hle⟩ := h.ack_range hlo hhi
  have hoff := h.off_acked hle
  have htop := top_acked hle
  have hsyn := acked_state_ne (a := a) hstate.2.1 hstate.2.2.1
  have hroom := h.off_le
  have hring := h.top_le
  refine ⟨by omega, ?_, ?_, h.fin, h.finTop_acked hlo hhi, ?_, fun hs => absurd hs hsyn.1, ?_⟩
  · rw [htop, length_acked]
    split_ifs with htakes
    · rw [takesFin_top htakes]
      omega
    · omega
  · have hlen := h.len_le
    rw [length_acked]
    omega
  · rintro (hs | hs)
    · exact absurd hs hsyn.1
    · exact absurd hs hsyn.2
  · intro hk
    exact absurd (h.killed hk) hstate.1

/-- The connection is opened by an acknowledgement from `snd_una` to `snd_nxt`. -/
theorem opened (hstate : s.state = .synSent ∨ s.state = .synRcvd) (hle : ahead s.una a ≤ s.off) :
    Room { s with una := a, state := .established } := by
  have hoff : ahead a s.nxt = s.off - ahead s.una a := ahead_rebase hle
  have htop : ahead a s.high = s.top - ahead s.una a := ahead_rebase (le_trans hle h.off_le)
  have hroom := h.off_le
  have hring := h.top_le
  have hsent : s.finSent ≠ true := by
    intro hs
    have hqueued := h.fin hs
    rw [(h.syn hstate).2.2.2] at hqueued
    cases hqueued
  refine ⟨?_, ?_, h.len_le, h.fin, fun hs => absurd hs hsent, by simp, by simp, fun hk => ?_⟩
  · simp only [Snd.off, Snd.top]
    omega
  · simp only [Snd.top]
    omega
  · have hclosed := h.killed hk
    rcases hstate with hs | hs <;> rw [hs] at hclosed <;> cases hclosed

theorem opens_range (hlo : seqLt a s.una = false) (hhi : seqGt a s.nxt = false) :
    ahead s.una a ≤ s.off := by
  simp only [seqLt, seqGt, decide_eq_false_iff_not, not_lt, gt_iff_lt] at hlo hhi
  exact ahead_le_of_between _ h.off_lt hlo hhi

theorem synAck_eq (hstate : s.state = .synSent) (hlo : seqLeq a s.iss = false)
    (hhi : seqGt a s.nxt = false) : a = s.iss + 1 := by
  have hnxt := h.synSent hstate
  simp only [seqLeq, seqGt, decide_eq_false_iff_not, not_le, not_lt, gt_iff_lt] at hlo hhi
  have hone : ahead s.iss (s.iss + 1) = 1 := ahead_base_add s.iss (n := 1) (by omega)
  have hpos := ((toInt_sub_pos _ _).mp hlo).1
  have hle := ahead_le_of_between s.iss (b := s.nxt) (by rw [hnxt, hone]; omega)
    (le_of_lt hlo) hhi
  rw [hnxt, hone] at hle
  exact ahead_inj s.iss (by omega)

theorem acks (ht : Acks R s t) : Room t := by
  cases ht with
  | stay => exact h
  | ack a hstate hlo hhi => exact h.acked hstate hlo hhi
  | opens a hstate hlo hhi => exact h.opened (.inr hstate) (h.opens_range hlo hhi)
  | synAck a hstate hlo hhi =>
    have ha := h.synAck_eq hstate hlo hhi
    refine h.opened (.inl hstate) (le_of_eq ?_)
    rw [Snd.off, h.synSent hstate, ha]

theorem turn (ht : Turn R s t) : Room t := by
  obtain ⟨t, wnd, mss, pathMss, hacks, -⟩ := ht
  exact { h.acks hacks with }

end

theorem off_advance (hlt : s.off + n < 2 ^ 31) : (s.advance n).off = s.off + n :=
  ahead_add s.una s.nxt (by unfold Snd.off at hlt; omega)

theorem top_advance (htop : s.top < 2 ^ 31) (hlt : s.off + n < 2 ^ 31) :
    (s.advance n).top = max s.top (s.off + n) := by
  have hoff : ahead s.una (s.nxt + BitVec.ofNat 32 n) = s.off + n := off_advance hlt
  have hgt := seqGt_iff s.una (a := s.nxt + BitVec.ofNat 32 n) (b := s.high)
    (by rw [hoff]; exact hlt) htop
  simp only [Snd.advance, Snd.top] at *
  split_ifs with h
  · have := hgt.mp h
    omega
  · have : ¬ ahead s.una s.high < s.off + n := fun hlt => h (hgt.mpr (by omega))
    omega

theorem sends_ne (h : st.sends = true) : st ≠ .synSent ∧ st ≠ .synRcvd := by
  cases st <;> simp_all [State.sends]

section

variable (h : Room s)

include h

/-- `snd_nxt` moves up, by bytes that are in the ring, or by the FIN behind them. -/
theorem advance (hstate : s.state.sends = true) (hle : s.off + n ≤ s.buf.length + 1)
    (hsent : s.finSent = true → s.off + n ≤ s.buf.length) : Room (s.advance n) := by
  have hlen := h.len_le
  have hring := h.top_le
  rw [tcpSndbuf] at hlen
  have hlt : s.off + n < 2 ^ 31 := by omega
  have hoff := off_advance hlt
  have htop := top_advance h.top_lt hlt
  refine ⟨by omega, ?_, h.len_le, h.fin, ?_, ?_, ?_, h.killed⟩
  · rw [htop]
    exact max_le hring hle
  · intro hs
    rw [htop]
    refine (h.finTop hs).imp (fun hfin => le_trans hfin (le_max_left _ _)) ?_
    rintro ⟨hzero, hbuf⟩
    have hnone := hsent hs
    rw [hbuf, length_nil] at hnone
    exact ⟨by omega, hbuf⟩
  · rintro (hs | hs)
    · exact absurd hs (sends_ne hstate).1
    · exact absurd hs (sends_ne hstate).2
  · exact fun hs => absurd hs (sends_ne hstate).1

theorem restart (hstate : s.state ≠ .closed ∧ s.state ≠ .synSent ∧ s.state ≠ .timeWait) :
    Room { s with nxt := s.una, finSent := false } := by
  refine { h with
    off_le := ?_, fin := by simp, finTop := by simp, synSent := fun hs => absurd hs hstate.2.1 }
  rw [Snd.off, ahead_self]
  exact Nat.zero_le _

theorem write {data : List β} (hstate : s.state = .established ∨ s.state = .closeWait)
    (hqueued : s.finQueued = false) (hlen : s.buf.length + data.length ≤ tcpSndbuf) :
    Room { s with buf := s.buf ++ data } := by
  have hring : s.top ≤ (s.buf ++ data).length + 1 := by
    rw [length_append]
    have := h.top_le
    omega
  refine ⟨h.off_le, hring, ?_, h.fin, fun hs => ?_, ?_, h.synSent, h.killed⟩
  · rwa [length_append]
  · have hfin := h.fin hs
    rw [hqueued] at hfin
    cases hfin
  · rintro (hs | hs) <;> rcases hstate with hst | hst <;> rw [hst] at hs <;> cases hs

/-- A change of state, to one that is not on the way to the opening. -/
theorem enter (finQueued : Bool) (hqueued : s.finQueued = true → finQueued = true)
    (hst : st ≠ .synSent ∧ st ≠ .synRcvd) (hstate : s.state ≠ .closed) :
    Room { s with state := st, finQueued := finQueued } := by
  refine ⟨h.off_le, h.top_le, h.len_le, fun hs => hqueued (h.fin hs), h.finTop, ?_,
    fun hs => absurd hs hst.1, fun hk => absurd (h.killed hk) hstate⟩
  rintro (hs | hs)
  · exact absurd hs hst.1
  · exact absurd hs hst.2

/-- **A move keeps what is always so.** -/
theorem move (hm : Move R s gs ds t) : Room t := by
  cases hm with
  | plain g _ => exact h
  | data n g hstate hpos hlen hmss hwnd hseq hdata hfin =>
    exact h.advance hstate (by omega) fun _ => hlen
  | fin g hstate hqueued hsent hoff hseq hdata =>
    have hunsent : s.finSent = true → s.off + 1 ≤ s.buf.length := by
      intro hs
      rw [hsent] at hs
      cases hs
    have := h.advance (n := 1) hstate (by omega) hunsent
    refine { this with fin := fun _ => hqueued, finTop := fun _ => .inl ?_ }
    -- the FIN is the number behind the ring
    have hlen := h.len_le
    rw [tcpSndbuf] at hlen
    have htop := top_advance (n := 1) h.top_lt (by omega)
    have hmax := le_max_right s.top (s.off + 1)
    rw [← htop, hoff] at hmax
    exact hmax
  | fast g _ _ _ _ _ => exact h
  | restart hstate => exact h.restart hstate
  | write _ hstate hqueued hlen => exact h.write hstate hqueued hlen
  | queueFin st hown _ =>
    refine h.enter true (fun _ => rfl) ?_ ?_
    · cases hown <;> simp
    · cases hown with
      | finWait1 hs => rcases hs with hs | hs <;> simp [hs]
      | lastAck hs => simp [hs]
  | peerFin st hpeer =>
    refine h.enter s.finQueued id ?_ ?_
    · cases hpeer <;> simp
    · cases hpeer <;> simp [*]
  | synRcvd hstate =>
    refine { h with
      syn := fun _ => h.syn (.inl hstate), synSent := by simp, killed := fun hk => ?_ }
    have hclosed := h.killed hk
    rw [hstate] at hclosed
    cases hclosed
  | probe b _ =>
    exact { h with }
  | close killed =>
    exact { h with syn := by simp, synSent := by simp, killed := fun _ => rfl }

theorem moves (hm : Moves R s gs ds t) : Room t := by
  have hstep : ∀ (app : List β) (s : Snd β) gs ds t, Room s → Move R s gs ds t → Room t :=
    fun _ _ _ _ _ h hm => h.move hm
  exact hm.invariant (P := fun _ s => Room s) hstep [] h

end

end Room

end CosmoOS.Network.Tcp
