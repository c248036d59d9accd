import CosmoOS.Network.TcpStream

/-!
# The FIN

The FIN is to have the number behind the application's last byte, each time it is sent, and its
acknowledgement is to take the connection on to its next state.  `inputLocked` knows that
acknowledgement by `fin_sent`, which every restart from `snd_una` clears, and by `snd_max`.  Three
things go wrong with that, and the runs without them are `FinKept`.

* An acknowledgement of the FIN that arrives between a restart and the FIN's being sent again is
  taken for one of data; the state is what it was, and the FIN is sent again with the next number.
* A connection closed in `SYN_RCVD` has its SYN in front of `snd_nxt`; a restart sends the FIN with
  the SYN's number.
* A connection opened without an acknowledgement of its SYN (`SynAcked`) sends everything one number
  low.

`FinOk` is what the runs without them keep: while the connection can send, the ring holds the
application's bytes from `snd_una` on and the FIN's number has not been acknowledged.
-/

namespace CosmoOS.Network.Tcp

open Lib.Serial List

variable {β : Type} {R : Rules β} {s t : Snd β} {app : List β} {gs : List (Seg β)} {ds : List β}

/-! ## While the FIN is not acknowledged -/

/-- The states in which the connection's own FIN is on its way. -/
def State.finishing : State → Bool
  | .finWait1 | .closing | .lastAck => true
  | _ => false

/-- The ring holds the application's bytes from the `k`-th on, and none of what has been
acknowledged is the FIN. -/
structure Unfinished (app : List β) (s : Snd β) (k : ℕ) : Prop extends Synced app s k where
  queued : s.finQueued = s.state.finishing
  le : k ≤ app.length

/-- Nothing is written before the connection is open; while it can send, its FIN is not
acknowledged; and a connection that is not closed and cannot send has nothing to send. -/
structure FinOk (app : List β) (s : Snd β) : Prop where
  before : s.state = .synSent ∨ s.state = .synRcvd → app = []
  sending : s.state.sends = true → ∃ k, Unfinished app s k
  idle : s.state.sends = false → s.state ≠ .closed → s.buf = []

theorem FinOk.of_unfinished {k : ℕ} (h : Unfinished app s k) (hsends : s.state.sends = true) :
    FinOk app s := by
  refine ⟨fun hs => ?_, fun _ => ⟨k, h⟩, fun hs => absurd (hsends.symm.trans hs) (by decide)⟩
  rcases hs with hs | hs <;> rw [hs] at hsends <;> cases hsends

theorem FinOk.of_idle (hsends : s.state.sends = false)
    (happ : s.state = .synSent ∨ s.state = .synRcvd → app = [])
    (hbuf : s.state ≠ .closed → s.buf = []) : FinOk app s :=
  ⟨happ, fun hs => absurd (hs.symm.trans hsends) (by decide), fun _ => hbuf⟩

namespace Unfinished

variable {k : ℕ}

theorem length (h : Unfinished app s k) : k + s.buf.length = app.length := by
  have hle := h.le
  rw [h.buf, length_drop]
  omega

theorem fin_number (h : Unfinished app s k) :
    s.una + BitVec.ofNat 32 s.buf.length = s.iss + 1 + BitVec.ofNat 32 app.length := by
  rw [h.una, BitVec.add_assoc, ← BitVec.ofNat_add, h.length]

theorem top_of_finSent (h : Room s) (hsent : s.finSent = true) (hpos : 0 < s.top) :
    s.top = s.buf.length + 1 := by
  have hring := h.top_le
  rcases h.finTop hsent with hfin | ⟨hzero, -⟩ <;> omega

theorem acked (h : Unfinished app s k) (hroom : Room s) {a : Seq} (hlo : seqGt a s.una = true)
    (hhi : seqLeq a s.high = true) (htakes : s.takesFin a = false)
    (hle : ahead s.una a ≤ s.buf.length) : Unfinished app (s.acked a) (k + ahead s.una a) := by
  have hlen := h.length
  have hstate : (s.acked a).state = s.state := by
    simp only [Snd.acked, htakes, Bool.false_eq_true, if_false]
  exact ⟨h.toSynced.acked hroom hlo hhi, by rw [hstate]; exact h.queued, by omega⟩

theorem of_eq (h : Unfinished app s k) (hqueued : t.finQueued = t.state.finishing)
    (huna : t.una = s.una) (hiss : t.iss = s.iss) (hbuf : t.buf = s.buf)
    (htop : t.finQueued = false → s.finQueued = false ∧ t.top ≤ max s.top s.buf.length) :
    Unfinished app t k :=
  ⟨h.toSynced.of_eq huna hiss hbuf htop, hqueued, h.le⟩

end Unfinished

/-! ## Turns and moves -/

/-- The rules of the runs in which the FIN is kept. -/
def finRules : Rules β where
  opens s a := a ≠ s.una
  queueFin s := s.state ≠ .synRcvd
  ack s a := s.finQueued = true → s.finSent = false → s.top = s.buf.length + 1 → a ≠ s.high

variable {a : Seq} {k : ℕ} {st : State} {g : Seg β} {p : Pcb β}

theorem FinOk.opened (hstate : s.state = .synSent ∨ s.state = .synRcvd) (hroom : Room s)
    (h : FinOk app s) (ha : a = s.iss + 1) :
    FinOk app { s with una := a, state := .established } := by
  obtain ⟨huna, hhigh, hbuf, hqueued⟩ := hroom.syn hstate
  refine .of_unfinished (k := 0)
    ⟨.of_syn (h.before hstate) hbuf ha fun _ => ?_, hqueued, Nat.zero_le _⟩ rfl
  rw [Snd.top, hhigh, ha]
  exact ahead_self _

/-- **An acknowledgement**, in a state that sends: of bytes, or of the FIN. -/
theorem FinOk.acked (hroom : Room s) (hsends : s.state.sends = true) (h : Unfinished app s k)
    (hlo : seqGt a s.una = true) (hhi : seqLeq a s.high = true) (hrule : finRules.ack s a) :
    FinOk app (s.acked a) := by
  obtain ⟨hpos, hle⟩ := hroom.ack_range hlo hhi
  have hring := hroom.top_le
  cases htakes : s.takesFin a with
  | true =>
    have hsent : s.finSent = true := by
      simp only [Snd.takesFin, Bool.and_eq_true] at htakes
      exact htakes.1
    have hall := Room.takesFin_top htakes
    have htop := Unfinished.top_of_finSent hroom hsent (by omega)
    have hbuf : (s.acked a).buf = [] := by
      rw [← length_eq_zero_iff, Room.length_acked, htakes]
      simp only [if_true]
      omega
    have hfinishing : s.state.finishing = true := by rw [← h.queued, hroom.fin hsent]
    have hstate : (s.acked a).state = Snd.afterFin s.state := by
      simp only [Snd.acked, htakes, if_true]
    refine .of_idle ?_ ?_ fun _ => hbuf <;> rw [hstate] <;>
      cases hst : s.state <;> simp_all [State.finishing, State.sends, Snd.afterFin]
  | false =>
    have hstate : (s.acked a).state = s.state := by
      simp only [Snd.acked, htakes, Bool.false_eq_true, if_false]
    refine .of_unfinished (h.acked hroom hlo hhi htakes ?_) (by rw [hstate]; exact hsends)
    by_contra hbeyond
    -- then everything up to the FIN's number is acknowledged, and the FIN does not count as sent
    have hall : ahead s.una a = s.top := by omega
    have ha : a = s.high := ahead_inj s.una hall
    have hqueued : s.finQueued = true := by
      cases hq : s.finQueued with
      | true => rfl
      | false =>
        have hbytes := (h.bytes hq).2
        omega
    have hsent : s.finSent = false := by
      simpa [Snd.takesFin, ha] using htakes
    exact hrule hqueued hsent (by omega) ha

theorem FinOk.acks (hroom : Room s) (h : FinOk app s) (ht : Acks finRules s t) :
    FinOk app t := by
  cases ht with
  | stay => exact h
  | ack a hstate hlo hhi hr =>
    cases hsends : s.state.sends with
    | true =>
      obtain ⟨k, hk⟩ := h.sending hsends
      exact FinOk.acked hroom hsends hk hlo hhi hr
    | false =>
      have hsame : (s.acked a).state = s.state := by
        cases hst : s.state <;> simp_all [Snd.acked, Snd.afterFin, State.sends]
      refine .of_idle (by rw [hsame, hsends]) (by rw [hsame]; exact h.before) fun _ => ?_
      simp [Snd.acked, h.idle hsends hstate.1]
  | opens a hstate hlo hhi hr =>
    exact h.opened (.inr hstate) hroom (hroom.opens_eq hstate hlo hhi hr)
  | synAck a hstate hlo hhi hr =>
    exact h.opened (.inl hstate) hroom (hroom.synAck_eq hstate hlo hhi)

theorem FinOk.turn (hroom : Room s) (h : FinOk app s) (ht : Turn finRules s t) :
    FinOk app t := by
  obtain ⟨t, wnd, mss, pathMss, hacks, -⟩ := ht
  have h' := h.acks hroom hacks
  exact ⟨h'.before, fun hs => (h'.sending hs).imp fun _ hk => { hk with }, h'.idle⟩

/-- The same ring, in the same state. -/
theorem FinOk.same (h : FinOk app s) (hstate : t.state = s.state)
    (hqueued : t.finQueued = s.finQueued) (huna : t.una = s.una) (hiss : t.iss = s.iss)
    (hbuf : t.buf = s.buf) (htop : s.state.sends = true → s.finQueued = false →
      t.top ≤ max s.top s.buf.length) : FinOk app t := by
  refine ⟨by rw [hstate]; exact h.before, fun hs => ?_, by rw [hstate, hbuf]; exact h.idle⟩
  rw [hstate] at hs
  obtain ⟨k, hk⟩ := h.sending hs
  refine ⟨k, hk.of_eq (by rw [hstate, hqueued]; exact hk.queued) huna hiss hbuf fun hq => ?_⟩
  rw [hqueued] at hq
  exact ⟨hq, htop hs hq⟩

theorem FinOk.peerFin (hroom : Room s) (h : FinOk app s) (hp : PeerFin s st) :
    FinOk app { s with state := st } := by
  cases hp with
  | closeWait hs | closing hs hfin =>
    obtain ⟨k, hk⟩ := h.sending (by rw [hs]; rfl)
    have hqueued := hk.queued
    rw [hs] at hqueued
    exact .of_unfinished (hk.of_eq hqueued rfl rfl rfl fun hq => ⟨hq, le_max_left _ _⟩) rfl
  | timeWait1 hs hfin =>
    -- its own FIN has been acknowledged
    have htop : s.top = 0 := by
      rw [Snd.top, ← hfin.2]
      exact ahead_self _
    refine .of_idle rfl (by simp) fun _ => ?_
    rcases hroom.finTop hfin.1 with hle | ⟨-, hbuf⟩
    · omega
    · exact hbuf
  | timeWait2 hs =>
    exact .of_idle rfl (by simp) fun _ => h.idle (by rw [hs]; rfl) (by simp [hs])

theorem FinOk.queueFin (h : FinOk app s) (ho : OwnFin s st) (hne : s.state ≠ .synRcvd) :
    FinOk app { s with state := st, finQueued := true } := by
  have hsends : s.state.sends = true := by
    cases ho with
    | finWait1 hs => rw [hs.resolve_right hne]; rfl
    | lastAck hs => rw [hs]; rfl
  obtain ⟨k, hk⟩ := h.sending hsends
  cases ho <;> exact .of_unfinished (hk.of_eq rfl rfl rfl rfl fun hq => by cases hq) rfl

theorem FinOk.write (h : FinOk app s) (data : List β)
    (hstate : s.state = .established ∨ s.state = .closeWait) (hqueued : s.finQueued = false) :
    FinOk (app ++ data) { s with buf := s.buf ++ data } := by
  have hsends : s.state.sends = true := by
    rcases hstate with hs | hs <;> rw [hs] <;> rfl
  obtain ⟨k, hk⟩ := h.sending hsends
  refine .of_unfinished ⟨hk.toSynced.write hqueued data, hk.queued, ?_⟩ hsends
  rw [length_append]
  exact le_trans hk.le (Nat.le_add_right _ _)

/-- **A move keeps the FIN's number.** -/
theorem FinOk.move (hroom : Room s) (h : FinOk app s)
    (hm : Move finRules s gs ds t) : FinOk (app ++ ds) t := by
  have hlen := hroom.len_le
  rw [tcpSndbuf] at hlen
  cases hm with
  | write _ hstate hqueued _ => exact h.write ds hstate hqueued
  | plain g _ | fast g _ _ _ _ _ => rwa [append_nil]
  | data n g hstate hpos hin hmss hwnd hseq hdata hfin =>
    rw [append_nil]
    refine h.same rfl rfl rfl rfl rfl fun _ _ => ?_
    rw [Room.top_advance hroom.top_lt (by omega)]
    exact max_le_max_left _ hin
  | fin g hstate hqueued hsent hoff hseq hdata =>
    rw [append_nil]
    refine h.same rfl rfl rfl rfl rfl fun _ hq => ?_
    exact absurd (hqueued.symm.trans hq) (by decide)
  | restart hstate | probe b _ =>
    rw [append_nil]
    exact h.same rfl rfl rfl rfl rfl fun _ _ => le_max_left _ _
  | queueFin st hown hrule =>
    rw [append_nil]
    exact h.queueFin hown hrule
  | peerFin st hpeer =>
    rw [append_nil]
    exact h.peerFin hroom hpeer
  | synRcvd hstate =>
    rw [append_nil]
    exact .of_idle rfl (fun _ => h.before (.inl hstate)) fun _ => (hroom.syn (.inl hstate)).2.2.1
  | close killed => exact .of_idle rfl (by simp) fun hne => absurd rfl hne

/-! ## The segments -/

/-- A FIN has the number behind the application's bytes, and data have numbers before it. -/
structure FinNumbered (app : List β) (s : Snd β) (g : Seg β) : Prop where
  fin : g.flags.fin = true → s.finQueued = true ∧
    g.seq = s.iss + 1 + BitVec.ofNat 32 app.length ∧ g.data = []
  data : g.data ≠ [] → ∃ k, g.seq = s.iss + 1 + BitVec.ofNat 32 k ∧
    k + g.data.length ≤ app.length

theorem FinNumbered.of_ring {x n : ℕ} (h : Unfinished app s k)
    (hseq : g.seq = s.una + BitVec.ofNat 32 x) (hdata : g.data = (s.buf.drop x).take n)
    (hfin : g.flags.fin = false) (hin : x + n ≤ s.buf.length) : FinNumbered app s g := by
  have hlen := h.length
  refine ⟨fun hf => ?_, fun _ => ⟨k + x, ?_, ?_⟩⟩
  · rw [hfin] at hf
    cases hf
  · rw [hseq, h.una, BitVec.add_assoc, ← BitVec.ofNat_add]
  · rw [hdata, length_take, length_drop]
    omega

theorem FinNumbered.of_empty (hdata : g.data = []) (hfin : g.flags.fin = false) :
    FinNumbered app s g := by
  refine ⟨fun hf => ?_, fun hne => absurd hdata hne⟩
  rw [hfin] at hf
  cases hf

theorem FinNumbered.of_move (h : FinOk app s) (hm : Move R s gs ds t)
    (hg : g ∈ gs) : FinNumbered app s g := by
  cases hm with
  | plain g' hplain =>
    rw [mem_singleton.mp hg]
    exact .of_empty hplain.1 hplain.2
  | data n g' hstate hpos hin hmss hwnd hseq hdata hfin =>
    rw [mem_singleton.mp hg]
    obtain ⟨k, hk⟩ := h.sending hstate
    exact .of_ring hk (by rw [hseq]; exact (add_ahead s.una s.nxt).symm) hdata hfin hin
  | fin g' hstate hqueued hsent hoff hseq hdata =>
    rw [mem_singleton.mp hg]
    obtain ⟨k, hk⟩ := h.sending hstate
    refine ⟨fun _ => ⟨hqueued, ?_, hdata⟩, fun hne => absurd hdata hne⟩
    rw [hseq, ← hk.fin_number, ← hoff]
    exact (add_ahead s.una s.nxt).symm
  | fast g' hstate _ hseq hdata hfin =>
    rw [mem_singleton.mp hg]
    cases hsends : s.state.sends with
    | true =>
      obtain ⟨k, hk⟩ := h.sending hsends
      exact .of_ring (x := 0) hk (by simp [hseq]) (by simpa using hdata) hfin (by omega)
    | false =>
      refine .of_empty ?_ hfin
      rw [hdata, h.idle hsends hstate, take_nil]
  | restart | write | queueFin | peerFin | synRcvd | probe | close => cases hg

theorem FinNumbered.move (h : FinNumbered app s g) (hm : Move R s gs ds t) :
    FinNumbered (app ++ ds) t g := by
  have hdata : g.data ≠ [] → ∃ k, g.seq = s.iss + 1 + BitVec.ofNat 32 k ∧
      k + g.data.length ≤ (app ++ ds).length := by
    intro hne
    obtain ⟨k, hseq, hle⟩ := h.data hne
    refine ⟨k, hseq, ?_⟩
    rw [length_append]
    omega
  cases hm with
  | write data _ hqueued _ =>
    refine ⟨fun hf => ?_, hdata⟩
    have hcontra := (h.fin hf).1
    rw [hqueued] at hcontra
    cases hcontra
  | queueFin st _ _ =>
    refine ⟨fun hf => ⟨rfl, ?_⟩, hdata⟩
    rw [append_nil]
    exact (h.fin hf).2
  | _ =>
    refine ⟨fun hf => ?_, hdata⟩
    rw [append_nil]
    exact h.fin hf

/-! ## Runs -/

/-- What the runs are without, in which the FIN is kept: an opening without an acknowledgement of
the SYN, a close before the connection is open, and an acknowledgement of the FIN between a restart
and the FIN's being sent again. -/
structure FinKept (p : Pcb β) (call : Call β) : Prop where
  syn : SynAcked p call
  close : call = .shutdownWrite ∨ call = .close → p.state ≠ .synRcvd
  ack : ∀ g, call = .input g → accepts p g = true → p.finQueued = true → p.finSent = false →
    (p.sndMax - p.sndUna).toNat = p.sndbuf.length + 1 → g.ack ≠ p.sndMax

theorem FinKept.allowed {call : Call β} (h : FinKept p call) :
    Allowed finRules p call where
  __ := Allowed.trivial p call
  input g hg := { (Allowed.trivial p call).input g hg with
    ack := fun _ _ _ hacc _ => h.ack g hg hacc
    opens := h.syn g hg }
  queueFin := h.close

theorem Starts.finOk {w : Conn β} (h : Starts w) : FinOk w.app w.pcb.snd := by
  cases h with
  | connect q iss pathMss b hstate hkilled hmss =>
    exact .of_idle rfl (fun _ => rfl) fun _ => rfl
  | child iss irs peerMss pathMss g hack hmss =>
    exact .of_unfinished ⟨.of_syn rfl rfl rfl fun _ => ahead_self _, rfl, Nat.zero_le _⟩ rfl

theorem FinOk.moves (hroom : Room s) (h : FinOk app s)
    (hm : Moves finRules s gs ds t) : FinOk (app ++ ds) t := by
  refine (hm.invariant (P := fun app s => Room s ∧ FinOk app s) ?_ app ⟨hroom, h⟩).2
  exact fun _ _ _ _ _ h hm => ⟨h.1.move hm, h.2.move h.1 hm⟩

/-- **In every run in which the FIN is kept**, its number is not acknowledged while it is still to
be sent. -/
theorem Runs.finOk {w : Conn β} (h : Runs FinKept w) : FinOk w.app w.pcb.snd := by
  refine h.invariant (P := fun w => FinOk w.app w.pcb.snd) (fun _ => Starts.finOk) ?_
  intro w gs w' hroom hw hs
  cases hs with
  | call b call hb hc =>
    obtain ⟨s, gs, hturn, hmoves, -⟩ := perform_turn finRules w.pcb call hb hroom hc.allowed
    exact (hw.turn hroom hturn).moves (hroom.turn hturn) hmoves

theorem finQueued_turn (ht : Turn R s t) : t.finQueued = s.finQueued := by
  obtain ⟨t, wnd, mss, pathMss, hacks, -⟩ := ht
  cases hacks <;> rfl

theorem finQueued_moves (hm : Moves R s gs ds t) (h : s.finQueued = true) :
    t.finQueued = true ∧ ds = [] := by
  induction hm with
  | refl s => exact ⟨h, rfl⟩
  | head hm _ ih =>
    cases hm with
    | write data _ hqueued _ =>
      rw [hqueued] at h
      cases h
    | queueFin st _ _ => exact ih rfl
    | _ => exact ih h

/-! ## The acknowledgement of the FIN -/

theorem state_finInput (p : Pcb β) (g : In β) (b : Batch β) (finNow drainedFin : Bool) :
    (finInput p g b finNow drainedFin).1.state = p.state ∨
      (finInput p g b finNow drainedFin).1.state = (takeFin p).state := by
  simp only [finInput]
  split_ifs
  · exact .inr (state_outputLocked _ b)
  · exact .inl (state_outputLocked _ b)
  · exact .inl rfl

theorem takeFin_state_congr {q : Pcb β} (h : q.state = p.state)
    (hst : p.state = .finWait2 ∨ p.state = .timeWait) :
    (takeFin q).state = p.state ∨ (takeFin q).state = .timeWait := by
  rcases hst with hst | hst
  · exact .inr (by simp [takeFin, h, hst, enterTimeWait])
  · exact .inl (by simp [takeFin, h, hst])

section

variable (p) (g : In β) (b : Batch β)

theorem state_ackData : (ackData p b).1.state = p.state := by
  unfold ackData
  split_ifs
  · exact state_outputLocked _ b
  · rfl

/-- The data and the peer's FIN take a connection that has nothing to send at most to
`TIME_WAIT`. -/
theorem state_dataInput (hst : p.state = .finWait2 ∨ p.state = .timeWait) :
    (dataInput p g b).1.state = p.state ∨ (dataInput p g b).1.state = .timeWait := by
  have hfin : ∀ (q : Pcb β) b finNow drainedFin, q.state = p.state →
      (finInput q g b finNow drainedFin).1.state = p.state ∨
        (finInput q g b finNow drainedFin).1.state = .timeWait := by
    intro q b finNow drainedFin hq
    rcases state_finInput q g b finNow drainedFin with h | h
    · exact .inl (h.trans hq)
    · rw [h]
      exact takeFin_state_congr hq hst
  unfold dataInput
  split_ifs
  · refine hfin _ _ _ _ ((state_ackData _ b).trans ?_)
    exact congrArg Snd.state (snd_takeData p g.data)
  · exact hfin _ _ _ _ (congrArg Snd.state (snd_oooInsert p g.seq g.data g.flags.fin))
  · exact hfin _ _ _ _ rfl

/-- What an accepted segment leads to that acknowledges the FIN. -/
theorem inputAccepted_fin (hkilled : p.killed = false) (hnew : isNewAck p g = true)
    (htakes : p.snd.takesFin g.ack = true) :
    (p.state = .finWait1 → (inputAccepted p g b).1.state = .finWait2 ∨
      (inputAccepted p g b).1.state = .timeWait) ∧
    (p.state = .closing → (inputAccepted p g b).1.state = .timeWait) ∧
    (p.state = .lastAck → (inputAccepted p g b).1.state = .closed) := by
  have hnew' : isNewAck { p with keepProbes := 0 } g = true := hnew
  have htakes' : (Pcb.snd { p with keepProbes := 0 }).takesFin g.ack = true := htakes
  have hack : newAck { p with keepProbes := 0 } g.ack =
      finAcked (taken { p with keepProbes := 0 } g.ack) := by
    rw [newAck_eq, if_pos htakes']
  generalize hq : taken { p with keepProbes := 0 } g.ack = q at hack
  have hst : q.state = p.state := by
    subst hq
    rfl
  have hk : q.killed = false := by
    subst hq
    exact hkilled
  have hupd : ∀ r : Pcb β, (updateWindow r g).state = r.state := by
    intro r
    obtain ⟨w, hw, -⟩ := snd_updateWindow r g
    exact congrArg Snd.state hw
  simp only [inputAccepted, ackInput, hnew', if_true, hack]
  refine ⟨fun hs => ?_, fun hs => ?_, fun hs => ?_⟩
  · have horphan : (orphanFinWait2 { q with state := .finWait2 }).state = .finWait2 :=
      congrArg Snd.state (snd_orphanFinWait2 _)
    simp only [finAcked, hst, hs]
    have hend := state_dataInput
      (updateWindow (orphanFinWait2 { q with state := .finWait2 }) g) g { b with quiet := false }
      (.inl ((hupd _).trans horphan))
    rw [hupd, horphan] at hend
    exact hend
  · simp only [finAcked, hst, hs]
    have hend := state_dataInput (updateWindow (enterTimeWait q) g) g { b with quiet := false }
      (.inr (hupd _))
    rw [hupd] at hend
    exact hend.elim id id
  · simp only [finAcked, hst, hs]
    obtain ⟨k, hend⟩ := snd_endLocked hk
    exact congrArg Snd.state hend

end

theorem State.synchronized_of_finishing (h : st.finishing = true) :
    st.synchronized = true := by
  cases st <;> simp_all [State.finishing, State.synchronized]

theorem State.sends_of_finishing (h : st.finishing = true) : st.sends = true := by
  cases st <;> simp_all [State.finishing, State.sends]

/-- A number a little ahead of `snd_una` is not before the oldest that is looked at. -/
theorem not_too_old (una : Seq) {n : ℕ} (hn : n ≤ tcpSndbuf + 1) :
    seqLt (una + BitVec.ofNat 32 n) (una - BitVec.ofNat 32 tcpMaxWindow) = false := by
  rw [tcpSndbuf] at hn
  have hbase : una - BitVec.ofNat 32 tcpMaxWindow + BitVec.ofNat 32 tcpMaxWindow = una := by
    bv_omega
  have hahead := ahead_base_add (una - BitVec.ofNat 32 tcpMaxWindow) (n := tcpMaxWindow) (by decide)
  rw [hbase] at hahead
  have hmax : tcpMaxWindow = 65535 := rfl
  have hadd := ahead_add (una - BitVec.ofNat 32 tcpMaxWindow) una (n := n) (by omega)
  have hself := ahead_self (una - BitVec.ofNat 32 tcpMaxWindow)
  have hiff := seqLt_iff (una - BitVec.ofNat 32 tcpMaxWindow)
    (a := una + BitVec.ofNat 32 n) (b := una - BitVec.ofNat 32 tcpMaxWindow) (by omega) (by omega)
  rw [← Bool.not_eq_true, hiff]
  omega

/-- The acknowledgement of the FIN is recognised. -/
theorem Unfinished.takes (hroom : Room p.snd) (h : Unfinished app p.snd k)
    (ha : a = p.iss + 1 + BitVec.ofNat 32 (app.length + 1)) (hhi : seqGt a p.sndMax = false)
    (hfin : p.finQueued = true → p.finSent = false → p.snd.top = p.snd.buf.length + 1 →
      a ≠ p.sndMax) :
    p.snd.takesFin a = true ∧ seqGt a p.sndUna = true ∧ seqLeq a p.sndMax = true ∧
      seqLt a (p.sndUna - BitVec.ofNat 32 tcpMaxWindow) = false := by
  have hlen := hroom.len_le
  have hsmall : p.snd.buf.length + 1 < 2 ^ 31 := by
    rw [tcpSndbuf] at hlen
    omega
  have ha' : a = p.sndUna + BitVec.ofNat 32 (p.snd.buf.length + 1) := by
    have hnum := h.fin_number
    rw [ha, BitVec.ofNat_add, ← BitVec.add_assoc, BitVec.ofNat_add, ← BitVec.add_assoc]
    exact congrArg (· + BitVec.ofNat 32 1) hnum.symm
  have hahead : ahead p.snd.una a = p.snd.buf.length + 1 := by
    rw [ha']
    exact ahead_base_add _ (by omega)
  have htop := hroom.top_le
  have hgt := seqGt_iff p.snd.una (a := a) (b := p.sndMax) (by omega) hroom.top_lt
  have hreach : p.snd.top = p.snd.buf.length + 1 := by
    by_contra hne
    have hbeyond : seqGt a p.sndMax = true := hgt.mpr (by
      rw [hahead]
      exact lt_of_le_of_ne htop hne)
    rw [hhi] at hbeyond
    cases hbeyond
  have hhigh : a = p.sndMax := ahead_inj p.snd.una (hahead.trans hreach.symm)
  have hqueued : p.finQueued = true := by
    cases hq : p.finQueued with
    | true => rfl
    | false =>
      have hbytes := (h.bytes hq).2
      omega
  refine ⟨?_, ?_, ?_, ?_⟩
  · cases hsent : p.finSent with
    | true => simp [Snd.takesFin, Pcb.snd, hsent, hhigh]
    | false => exact absurd hhigh (hfin hqueued hsent hreach)
  · refine (seqGt_iff p.snd.una (by omega) ?_).mpr ?_
    · rw [show ahead p.snd.una p.sndUna = 0 from ahead_self _]
      omega
    · rw [show ahead p.snd.una p.sndUna = 0 from ahead_self _, hahead]
      omega
  · rw [hhigh]
    simp [seqLeq]
  · rw [ha']
    exact not_too_old _ (by omega)

/-- **The FIN has one number, and its acknowledgement is recognised.**  In every run in which the
FIN is kept, and for every further call that keeps it:

* every FIN that is transmitted has the number behind the application's bytes, and all data have
  numbers before it; nothing more is taken from the application once a FIN is queued;
* `snd_max` is never beyond the number after the FIN's;
* an accepted acknowledgement of the FIN's number that is not beyond `snd_max` takes `FIN_WAIT_1`
  to `FIN_WAIT_2`, or on to `TIME_WAIT`, `CLOSING` to `TIME_WAIT` and `LAST_ACK` to `CLOSED`. -/
theorem fin_has_one_number (w : Conn β) (h : Runs FinKept w) (b : Batch β) (hb : b.segs = [])
    (call : Call β) (hc : FinKept w.pcb call) :
    (∀ g ∈ (perform w.pcb b call).2.sent,
      (g.flags.fin = true →
        g.seq = w.pcb.iss + 1 + BitVec.ofNat 32 (w.next b call).app.length ∧ g.data = []) ∧
      (g.data ≠ [] → ∃ k, g.seq = w.pcb.iss + 1 + BitVec.ofNat 32 k ∧
        k + g.data.length ≤ (w.next b call).app.length)) ∧
    (w.pcb.finQueued = true →
      (w.next b call).pcb.finQueued = true ∧ (w.next b call).app = w.app) ∧
    ((w.next b call).pcb.state.sends = true → ∃ n ≤ (w.next b call).app.length + 1,
      (w.next b call).pcb.sndMax = w.pcb.iss + 1 + BitVec.ofNat 32 n) ∧
    (∀ g, call = .input g → accepts w.pcb g = true → seqGt g.ack w.pcb.sndMax = false →
      g.ack = w.pcb.iss + 1 + BitVec.ofNat 32 (w.app.length + 1) →
      (w.pcb.state = .finWait1 → (w.next b call).pcb.state = .finWait2 ∨
        (w.next b call).pcb.state = .timeWait) ∧
      (w.pcb.state = .closing → (w.next b call).pcb.state = .timeWait) ∧
      (w.pcb.state = .lastAck → (w.next b call).pcb.state = .closed)) := by
  have hroom := h.room
  have hok := h.finOk
  obtain ⟨s, gs, hturn, hmoves, hsent⟩ := perform_turn finRules w.pcb call hb hroom hc.allowed
  have hroom' := hroom.turn hturn
  have hok' := hok.turn hroom hturn
  have hiss : (perform w.pcb b call).1.snd.iss = w.pcb.iss :=
    (iss_moves hmoves).trans (iss_turn hturn)
  refine ⟨fun g hg => ?_, fun hq => ?_, fun hsends => ?_, ?_⟩
  · have hnum := hmoves.each (P := fun app s => Room s ∧ FinOk app s) (Q := FinNumbered)
      (fun _ _ _ _ _ h hm => ⟨h.1.move hm, h.2.move h.1 hm⟩)
      (fun _ _ _ _ _ h hm g hg => (FinNumbered.of_move h.2 hm hg).move hm)
      (fun _ _ _ _ _ _ _ hm hq => hq.move hm) w.app ⟨hroom', hok'⟩ g (hsent hg)
    refine ⟨fun hf => ?_, fun hne => ?_⟩
    · rw [← hiss]
      exact (hnum.fin hf).2
    · rw [← hiss]
      exact hnum.data hne
  · have hqueued : s.finQueued = true := (finQueued_turn hturn).trans hq
    obtain ⟨hstill, hnone⟩ := finQueued_moves hmoves hqueued
    refine ⟨hstill, ?_⟩
    simp only [Conn.next, hnone, append_nil]
  · obtain ⟨k, hk⟩ := (hok'.moves hroom' hmoves).sending hsends
    have htop := (hroom'.moves hmoves).top_le
    have hlen := hk.length
    refine ⟨k + (perform w.pcb b call).1.snd.top, ?_, ?_⟩
    · simp only [Conn.next]
      omega
    · rw [← hiss]
      exact ofNat_add_ahead hk.una
  · rintro g rfl hacc hhi ha
    have hcases : w.pcb.state.finishing = true →
        (w.pcb.state = .finWait1 → (w.next b (.input g)).pcb.state = .finWait2 ∨
          (w.next b (.input g)).pcb.state = .timeWait) ∧
        (w.pcb.state = .closing → (w.next b (.input g)).pcb.state = .timeWait) ∧
        (w.pcb.state = .lastAck → (w.next b (.input g)).pcb.state = .closed) := by
      intro hfinishing
      obtain ⟨k, hk⟩ := hok.sending (State.sends_of_finishing hfinishing)
      obtain ⟨htakes, hgt, hle, hlo⟩ := hk.takes hroom ha hhi fun hq hs ht =>
        hc.ack g rfl hacc hq hs ht
      have hkilled : w.pcb.killed = false := by
        cases hk' : w.pcb.killed with
        | false => rfl
        | true =>
          rw [show w.pcb.state = .closed from hroom.killed hk'] at hfinishing
          cases hfinishing
      have hnew : isNewAck w.pcb (trim w.pcb g) = true := by
        simp [isNewAck, trim_ack, hgt, hle]
      have hfin := inputAccepted_fin w.pcb (trim w.pcb g) b hkilled hnew
        (by rw [trim_ack]; exact htakes)
      simp only [Conn.next]
      rw [perform_accepted w.pcb g b (State.synchronized_of_finishing hfinishing) hacc hlo hhi]
      exact hfin
    refine ⟨fun hs => ?_, fun hs => ?_, fun hs => ?_⟩
    · exact (hcases (by rw [hs]; rfl)).1 hs
    · exact (hcases (by rw [hs]; rfl)).2.1 hs
    · exact (hcases (by rw [hs]; rfl)).2.2 hs

/-- Two bytes and the FIN are sent, and the timer has all three sent again. -/
def closedConn : Conn ℕ :=
  (((openConn.next {} (.send [7, 8])).next {} .shutdownWrite).next {} (.timer .rexmit)).next {}
    (.work false 0)

/-- The FIN of `closedConn` has number 3 both times, and its acknowledgement takes the connection
to `FIN_WAIT_2`. -/
theorem fin_has_one_number_closedConn :
    FinKept closedConn.pcb (.input (ackSegment 4 1000)) ∧ closedConn.pcb.state = .finWait1 ∧
      ((closedConn.next {} (.input (ackSegment 4 1000))).pcb.state = .finWait2 ∨
        (closedConn.next {} (.input (ackSegment 4 1000))).pcb.state = .timeWait) := by
  have hcall {p : Pcb ℕ} {call : Call ℕ} (hstate : p.state ≠ .synRcvd)
      (hcall : ∀ g, call ≠ .input g) : FinKept p call :=
    ⟨fun g hg => absurd hg (hcall g), fun _ => hstate, fun g hg => absurd hg (hcall g)⟩
  have h₁ := (openConn_runs FinKept).step
    (.call _ {} (.send [7, 8]) rfl (hcall (by decide) fun _ => by simp))
  have h₂ := h₁.step (.call _ {} .shutdownWrite rfl (hcall (by decide) fun _ => by simp))
  have h₃ := h₂.step (.call _ {} (.timer .rexmit) rfl (hcall (by decide) fun _ => by simp))
  have hrun := h₃.step (.call _ {} (.work false 0) rfl (hcall (by decide) fun _ => by simp))
  have hc : FinKept closedConn.pcb (.input (ackSegment 4 1000)) := by
    refine ⟨fun _ _ hs => ?_, fun h => ?_, fun _ _ _ _ hs => ?_⟩
    · cases hs
    · rcases h with h | h <;> cases h
    · cases hs
  refine ⟨hc, by decide, ?_⟩
  exact ((fin_has_one_number closedConn hrun {} rfl (.input (ackSegment 4 1000)) hc).2.2.2 _ rfl
    (by decide) (by decide) (by decide)).1 (by decide)

/-- Two bytes and the FIN have been sent, the peer has shrunk its window to one byte, and the timer
has begun again with the first byte. -/
def restartedConn : Conn ℕ :=
  ((((openConn.next {} (.send [7, 8])).next {} .shutdownWrite).next {}
    (.input (ackSegment 1 1))).next {} (.timer .rexmit)).next {} (.work false 0)

/-- The FIN of `restartedConn` was sent with number 3.  Its acknowledgement leaves the connection in
`FIN_WAIT_1`, and the FIN is sent again with number 4. -/
theorem fin_renumbered :
    Runs (fun _ _ => True) restartedConn ∧
      ((perform (openConn.next {} (.send [7, 8])).pcb {} .shutdownWrite).2.sent.map
        fun g => (g.flags.fin, g.seq)) = [(true, 3)] ∧
      (perform restartedConn.pcb {} (.input (ackSegment 4 1000))).1.state = .finWait1 ∧
      ((perform restartedConn.pcb {} (.input (ackSegment 4 1000))).2.sent.map
        fun g => (g.flags.fin, g.seq)) = [(true, 4)] := by
  refine ⟨?_, by decide, by decide, by decide⟩
  have h₁ := (openConn_runs (fun _ _ => True)).step (.call _ {} (.send [7, 8]) rfl True.intro)
  have h₂ := h₁.step (.call _ {} .shutdownWrite rfl True.intro)
  have h₃ := h₂.step (.call _ {} (.input (ackSegment 1 1)) rfl True.intro)
  have h₄ := h₃.step (.call _ {} (.timer .rexmit) rfl True.intro)
  exact h₄.step (.call _ {} (.work false 0) rfl True.intro)

/-- The other two conditions.  A connection closed in `SYN_RCVD` has its FIN sent with number 0, the
SYN's, when the timer expires; and one opened by an acknowledgement of nothing, after two bytes,
with number 2. -/
theorem fin_misnumbered :
    (∃ w : Conn ℕ, Runs (fun _ _ => True) w ∧ w.app = [] ∧
      ((perform w.pcb {} (.work false 0)).2.sent.map fun g => (g.flags.fin, g.seq)) =
        [(true, 0)]) ∧
      ∃ w : Conn ℕ, Runs (fun _ _ => True) w ∧ w.app = [7, 8] ∧
        ((perform w.pcb {} .shutdownWrite).2.sent.map fun g => (g.flags.fin, g.seq)) =
          [(true, 2)] := by
  have hsyn := (callingConn_runs (fun _ _ => True)).step
    (.call _ {} (.input synSegment) rfl trivial)
  have hclosed := hsyn.step (.call _ {} .shutdownWrite rfl trivial)
  have hopen := hsyn.step (.call _ {} (.input (ackSegment 0 1000)) rfl trivial)
  refine ⟨⟨_, hclosed.step (.call _ {} (.timer .rexmit) rfl trivial), by decide, by decide⟩,
    ⟨_, hopen.step (.call _ {} (.send [7, 8]) rfl trivial), by decide, by decide⟩⟩

end CosmoOS.Network.Tcp
