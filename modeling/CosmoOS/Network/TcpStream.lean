import CosmoOS.Network.TcpRuns

/-!
# The bytes that are sent

The byte with number `s` is to be the application's byte `s - iss - 1`, whichever way it leaves: by
the window, by a fast retransmit or after a restart.  All three read the ring at `s - snd_una`, so
the ring has to hold the application's bytes from `snd_una - iss - 1` on.

* `Stream` is that invariant: the connection's SYN has been acknowledged (`Synced`), or nothing has
  been written.
* Every turn and every move keeps it but one: the opening from `SYN_RCVD` by an acknowledgement of
  `snd_una` itself, which `inputLocked` takes, since it compares with `seqLt` where the opening from
  `SYN_SENT` compares with `seqLeq`.  The connection is then open with `snd_una` at its SYN, and the
  ring is read one byte too far.
* `bytes_numbered` is what holds in every run without such a segment.
-/

namespace CosmoOS.Network.Tcp

open Lib.Serial List

variable {β : Type} {R : Rules β} {s t : Snd β} {app : List β}

/-! ## The ring and the application's bytes -/

/-- The ring holds the application's bytes from the `k`-th on, and `snd_una` is the number of the
`k`-th. -/
structure Synced (app : List β) (s : Snd β) (k : ℕ) : Prop where
  una : s.una = s.iss + 1 + BitVec.ofNat 32 k
  buf : s.buf = app.drop k
  /-- As long as no FIN is queued, only bytes have been sent. -/
  bytes : s.finQueued = false → k ≤ app.length ∧ s.top ≤ s.buf.length

/-- The SYN has been acknowledged, or nothing has been written. -/
inductive Stream (app : List β) (s : Snd β) : Prop
  | synced (k : ℕ) (h : Synced app s k) (hstate : s.state ≠ .synSent ∧ s.state ≠ .synRcvd)
  | silent (happ : app = []) (hbuf : s.buf = []) (huna : s.una = s.iss)
      (hstate : s.state ≠ .established ∧ s.state ≠ .closeWait)

variable {a : Seq} {k : ℕ} {gs : List (Seg β)} {ds : List β} {g : Seg β} {call : Call β}
    {w : Conn β}

theorem ofNat_add_ahead {base una : Seq} (h : una = base + BitVec.ofNat 32 k) :
    a = base + BitVec.ofNat 32 (k + ahead una a) := by
  have hadd := add_ahead una a
  rw [h, BitVec.add_assoc, ← BitVec.ofNat_add] at hadd
  rw [h]
  exact hadd.symm

theorem Synced.acked (h : Synced app s k) (hroom : Room s) (hlo : seqGt a s.una = true)
    (hhi : seqLeq a s.high = true) :
    Synced app (s.acked a) (k + ahead s.una a) := by
  obtain ⟨hpos, hle⟩ := hroom.ack_range hlo hhi
  have hlen : s.buf.length = app.length - k := by rw [h.buf, length_drop]
  refine ⟨ofNat_add_ahead h.una, ?_, ?_⟩
  · simp only [Snd.acked]
    cases htakes : s.takesFin a with
    | true =>
      -- the FIN's number is behind the ring, and nothing is left in it
      have hsent : s.finSent = true := by
        simp only [Snd.takesFin, Bool.and_eq_true] at htakes
        exact htakes.1
      have htop := Room.takesFin_top htakes
      have hfin : s.buf.length + 1 ≤ s.top := by
        rcases hroom.finTop hsent with hfin | ⟨hzero, -⟩
        · exact hfin
        · omega
      simp only [if_true]
      rw [drop_of_length_le (by omega), drop_of_length_le (by omega)]
    | false =>
      simp only [Bool.false_eq_true, if_false]
      rw [h.buf, drop_drop]
  · intro hqueued
    obtain ⟨hk, htop⟩ := h.bytes hqueued
    have hsent : s.takesFin a = false := by
      cases htakes : s.takesFin a with
      | false => rfl
      | true =>
        simp only [Snd.takesFin, Bool.and_eq_true] at htakes
        have hcontra := hroom.fin htakes.1
        rw [show s.finQueued = false from hqueued] at hcontra
        cases hcontra
    rw [Room.top_acked hle, Room.length_acked, hsent]
    simp only [Bool.false_eq_true, if_false]
    omega

theorem Synced.of_syn (happ : app = []) (hbuf : t.buf = []) (huna : t.una = t.iss + 1)
    (htop : t.finQueued = false → t.top = 0) : Synced app t 0 := by
  subst happ
  refine ⟨by simp [huna], by rw [hbuf, drop_nil], fun h => ⟨le_of_eq rfl, ?_⟩⟩
  rw [htop h]
  exact Nat.zero_le _

theorem eq_add_one {base : Seq} (hle : ahead base a ≤ 1) (hne : a ≠ base) : a = base + 1 := by
  have hone : ahead base (base + 1) = 1 := ahead_base_add base (n := 1) (by omega)
  have hpos : ahead base a ≠ 0 := by
    intro hzero
    exact hne (ahead_inj base (hzero.trans (ahead_self base).symm))
  exact ahead_inj base (by omega)

/-- The opening from `SYN_RCVD` by anything but `snd_una` itself acknowledges exactly the SYN. -/
theorem Room.opens_eq (h : Room s) (hstate : s.state = .synRcvd) (hlo : seqLt a s.una = false)
    (hhi : seqGt a s.nxt = false) (hne : a ≠ s.una) : a = s.iss + 1 := by
  obtain ⟨huna, hhigh, -⟩ := h.syn (.inr hstate)
  have htop : s.top = 1 := by
    rw [Snd.top, huna, hhigh]
    exact ahead_base_add s.iss (n := 1) (by omega)
  have hoff := h.off_le
  rw [← huna]
  exact eq_add_one (le_trans (h.opens_range hlo hhi) (by omega)) hne

/-- The connection is opened by an acknowledgement of its SYN. -/
theorem Stream.opened (h : Stream app s) (hroom : Room s)
    (hstate : s.state = .synSent ∨ s.state = .synRcvd) (ha : a = s.iss + 1) :
    Stream app { s with una := a, state := .established } := by
  obtain ⟨-, hhigh, hbuf, -⟩ := hroom.syn hstate
  have happ : app = [] := by
    cases h with
    | synced k hk hs => exact absurd hstate (not_or.mpr hs)
    | silent happ _ _ _ => exact happ
  refine .synced 0 (.of_syn happ hbuf ha fun _ => ?_) (by simp)
  rw [Snd.top, hhigh, ha]
  exact ahead_self _

section

variable (hrule : ∀ s a, R.opens s a → a ≠ s.una) (hroom : Room s) (h : Stream app s)

include hrule hroom h

/-- **A turn keeps the stream**, if no acknowledgement opens the connection that does not
acknowledge its SYN. -/
theorem Stream.acks (ht : Acks R s t) : Stream app t := by
  cases ht with
  | stay => exact h
  | ack a hstate hlo hhi hr =>
    cases h with
    | synced k hk hs =>
      exact .synced _ (hk.acked hroom hlo hhi) (Room.acked_state_ne hs.1 hs.2)
    | silent happ hbuf huna hs =>
      -- only the SYN is there to be acknowledged
      obtain ⟨hpos, hle⟩ := hroom.ack_range hlo hhi
      have hring := hroom.top_le
      rw [hbuf, length_nil] at hring
      have ha : a = s.iss + 1 := by
        rw [← huna]
        refine eq_add_one (by omega) ?_
        rintro rfl
        rw [ahead_self] at hpos
        omega
      refine .synced 0 (.of_syn happ ?_ ha fun _ => ?_)
        (Room.acked_state_ne hstate.2.1 hstate.2.2.1)
      · simp only [Snd.acked, hbuf, drop_nil]
      · rw [Room.top_acked hle]
        omega
  | opens a hstate hlo hhi hr =>
    exact h.opened hroom (.inr hstate) (hroom.opens_eq hstate hlo hhi (hrule s a hr))
  | synAck a hstate hlo hhi hr =>
    exact h.opened hroom (.inl hstate) (hroom.synAck_eq hstate hlo hhi)

theorem Stream.turn (ht : Turn R s t) : Stream app t := by
  obtain ⟨t, wnd, mss, pathMss, hacks, -⟩ := ht
  cases h.acks hrule hroom hacks with
  | synced k hk hs => exact .synced k ⟨hk.una, hk.buf, hk.bytes⟩ hs
  | silent happ hbuf huna hs => exact .silent happ hbuf huna hs

end

/-- What only lowers what is claimed of `snd_max` keeps the ring. -/
theorem Synced.of_eq (h : Synced app s k) (huna : t.una = s.una) (hiss : t.iss = s.iss)
    (hbuf : t.buf = s.buf)
    (htop : t.finQueued = false → s.finQueued = false ∧ t.top ≤ max s.top s.buf.length) :
    Synced app t k := by
  refine ⟨by rw [huna, hiss, h.una], by rw [hbuf, h.buf], fun hq => ?_⟩
  obtain ⟨hq', hle⟩ := htop hq
  obtain ⟨hk, hbytes⟩ := h.bytes hq'
  rw [hbuf]
  exact ⟨hk, le_trans hle (max_le hbytes (le_of_eq rfl))⟩

/-- The same ring, in the same state. -/
theorem Stream.same (h : Stream app s) (huna : t.una = s.una) (hiss : t.iss = s.iss)
    (hbuf : t.buf = s.buf) (hstate : t.state = s.state)
    (htop : t.finQueued = false → s.finQueued = false ∧ t.top ≤ max s.top s.buf.length) :
    Stream app t := by
  cases h with
  | synced k hk hs => exact .synced k (hk.of_eq huna hiss hbuf htop) (by rwa [hstate])
  | silent happ hbuf' huna' hs =>
    exact .silent happ (hbuf.trans hbuf') (by rw [huna, hiss, huna']) (by rwa [hstate])

/-- A change of the state alone. -/
theorem Stream.enter (h : Stream app s) {st : State} (finQueued killed : Bool)
    (hqueued : finQueued = false → s.finQueued = false)
    (hst : st ≠ .synSent ∧ st ≠ .synRcvd)
    (hopen : st = .established ∨ st = .closeWait → s.state = .established ∨ s.state = .closeWait) :
    Stream app { s with state := st, finQueued := finQueued, killed := killed } := by
  cases h with
  | synced k hk hs =>
    exact .synced k (hk.of_eq rfl rfl rfl fun hq => ⟨hqueued hq, le_max_left _ _⟩) hst
  | silent happ hbuf huna hs =>
    refine .silent happ hbuf huna ⟨fun heq => ?_, fun heq => ?_⟩
    · exact (hopen (.inl heq)).elim hs.1 hs.2
    · exact (hopen (.inr heq)).elim hs.1 hs.2

/-- The bytes that are written go into the ring. -/
theorem Synced.write (h : Synced app s k) (hqueued : s.finQueued = false) (data : List β) :
    Synced (app ++ data) { s with buf := s.buf ++ data } k := by
  obtain ⟨hle, htop⟩ := h.bytes hqueued
  have hring : s.top ≤ (s.buf ++ data).length := by
    rw [length_append]
    omega
  refine ⟨h.una, ?_, fun _ => ⟨?_, hring⟩⟩
  · rw [drop_append_of_le_length hle, ← h.buf]
  · rw [length_append]
    omega

theorem Stream.write (h : Stream app s) (data : List β)
    (hstate : s.state = .established ∨ s.state = .closeWait) (hqueued : s.finQueued = false) :
    Stream (app ++ data) { s with buf := s.buf ++ data } := by
  cases h with
  | synced k hk hs => exact .synced k (hk.write hqueued data) hs
  | silent happ hbuf huna hs => exact absurd hstate (not_or.mpr hs)

/-- **A move keeps the stream.** -/
theorem Stream.move (hroom : Room s) (h : Stream app s) (hm : Move R s gs ds t) :
    Stream (app ++ ds) t := by
  have hlen := hroom.len_le
  rw [tcpSndbuf] at hlen
  cases hm with
  | plain g _ | fast g _ _ _ _ _ => rwa [append_nil]
  | data n g hstate hpos hin hmss hwnd hseq hdata hfin =>
    rw [append_nil]
    refine h.same rfl rfl rfl rfl fun hq => ⟨hq, ?_⟩
    rw [Room.top_advance hroom.top_lt (by omega)]
    exact max_le_max_left _ hin
  | fin g hstate hqueued hsent hoff hseq hdata =>
    rw [append_nil]
    exact h.same rfl rfl rfl rfl fun hq => absurd (hqueued.symm.trans hq) (by decide)
  | restart hstate | probe b _ =>
    rw [append_nil]
    exact h.same rfl rfl rfl rfl fun hq => ⟨hq, le_max_left _ _⟩
  | write _ hstate hqueued _ => exact h.write ds hstate hqueued
  | queueFin st hown _ =>
    rw [append_nil]
    refine h.enter true s.killed (by simp) ?_ ?_
    · cases hown <;> simp
    · cases hown <;> simp
  | peerFin st hpeer =>
    rw [append_nil]
    refine h.enter s.finQueued s.killed id ?_ ?_
    · cases hpeer <;> simp
    · cases hpeer <;> simp [*]
  | synRcvd hstate =>
    rw [append_nil]
    cases h with
    | synced k hk hs => exact absurd hstate hs.1
    | silent happ hbuf huna hs => exact .silent happ hbuf huna (by simp)
  | close killed =>
    rw [append_nil]
    exact h.enter s.finQueued killed id (by simp) (by simp)

/-! ## The segments -/

/-- The data of a segment are the application's bytes that its number says, and they are still in
the ring. -/
def Numbered (app : List β) (s : Snd β) (g : Seg β) : Prop :=
  g.data = [] ∨ ∃ k, g.seq = s.iss + 1 + BitVec.ofNat 32 k ∧
    g.data = (app.drop k).take g.data.length ∧ k + g.data.length ≤ app.length ∧
    app.length ≤ k + s.buf.length

theorem Numbered.of_ring {x n : ℕ} (h : Stream app s) (hseq : g.seq = s.una + BitVec.ofNat 32 x)
    (hdata : g.data = (s.buf.drop x).take n) (hin : x + n ≤ s.buf.length) : Numbered app s g := by
  cases h with
  | synced k hk hs =>
    have hring : s.buf.length = app.length - k := by rw [hk.buf, length_drop]
    have hlen : g.data.length = n := by
      rw [hdata, length_take, length_drop]
      omega
    rcases Nat.eq_zero_or_pos n with rfl | hpos
    · exact .inl (by rw [hdata, take_zero])
    · refine .inr ⟨k + x, ?_, ?_, by omega, by omega⟩
      · rw [hseq, hk.una, BitVec.add_assoc, ← BitVec.ofNat_add]
      · rw [hlen, hdata, hk.buf, drop_drop]
  | silent happ hbuf huna hs =>
    refine .inl ?_
    rw [hdata, hbuf, drop_nil, take_nil]

theorem Numbered.of_move (h : Stream app s) (hm : Move R s gs ds t) (hg : g ∈ gs) :
    Numbered app s g := by
  cases hm with
  | plain g' hplain =>
    rw [mem_singleton.mp hg]
    exact .inl hplain.1
  | data n g' hstate hpos hin hmss hwnd hseq hdata hfin =>
    rw [mem_singleton.mp hg]
    exact .of_ring h (by rw [hseq]; exact (add_ahead s.una s.nxt).symm) hdata hin
  | fin g' hstate hqueued hsent hoff hseq hdata =>
    rw [mem_singleton.mp hg]
    exact .inl hdata
  | fast g' _ _ hseq hdata hfin =>
    rw [mem_singleton.mp hg]
    exact .of_ring (x := 0) h (by simp [hseq]) (by simpa using hdata) (by omega)
  | restart | write | queueFin | peerFin | synRcvd | probe | close => cases hg

/-- Numbered segments stay numbered: the ring only grows. -/
theorem Numbered.move (h : Numbered app s g) (hm : Move R s gs ds t) :
    Numbered (app ++ ds) t g := by
  rcases h with h | ⟨k, hseq, hdata, hle, hring⟩
  · exact .inl h
  · refine .inr ⟨k, ?_, ?_, ?_, ?_⟩
    · cases hm <;> exact hseq
    · rw [drop_append_of_le_length (by omega),
        take_append_of_le_length (by rw [length_drop]; omega)]
      exact hdata
    · rw [length_append]
      omega
    · cases hm with
      | write data _ _ _ =>
        simp only [length_append]
        omega
      | _ =>
        rw [append_nil]
        exact hring

/-! ## Runs -/

/-- No segment opens the connection from `SYN_RCVD` whose acknowledgement is `snd_una` itself. -/
def SynAcked (p : Pcb β) (call : Call β) : Prop :=
  ∀ g, call = .input g → p.state = .synRcvd → accepts p g = true → g.ack ≠ p.sndUna

/-- The openings are by a segment, and from `SYN_RCVD` by one that acknowledges the SYN. -/
def openRules (call : Call β) : Rules β where
  opens s a := a ≠ s.una ∧ ∃ g, call = .input g ∧ g.flags.ack = true ∧ g.ack = a
  synAck _ a := ∃ g, call = .input g ∧ g.flags.ack = true ∧ g.ack = a

theorem openRules_ne (s : Snd β) (a : Seq) (h : (openRules call).opens s a) :
    a ≠ s.una := h.1

theorem trim_flags_ack (p : Pcb β) (g : In β) : (trim p g).flags.ack = g.flags.ack := by
  unfold trim
  split_ifs <;> rfl

theorem SynAcked.allowed {p : Pcb β} (h : SynAcked p call) :
    Allowed (openRules call) p call := by
  refine { Allowed.trivial p call with input := fun g hg =>
    { (Allowed.trivial p call).input g hg with opens := fun hstate hacc => ?_, synAck := ?_ } }
  · refine ⟨h g hg hstate hacc, g, hg, ?_, rfl⟩
    simp only [accepts, Bool.and_eq_true, trim_flags_ack] at hacc
    exact hacc.2
  · exact fun _ hack => ⟨g, hg, hack, rfl⟩

theorem Starts.stream (h : Starts w) : Stream w.app w.pcb.snd := by
  cases h with
  | connect q iss pathMss b hstate hkilled hmss =>
    refine .silent rfl rfl rfl ?_
    constructor <;> intro h <;> cases h
  | child iss irs peerMss pathMss g hack hmss =>
    refine .synced 0 (.of_syn rfl rfl rfl fun _ => ahead_self _) ?_
    constructor <;> intro h <;> cases h

theorem Stream.moves (hroom : Room s) (h : Stream app s) (hm : Moves R s gs ds t) :
    Stream (app ++ ds) t := by
  refine (hm.invariant (P := fun app s => Room s ∧ Stream app s) ?_ app ⟨hroom, h⟩).2
  exact fun _ _ _ _ _ h hm => ⟨h.1.move hm, h.2.move h.1 hm⟩

theorem Stream.step {C : Pcb β → Call β → Prop} {w' : Conn β}
    (hC : ∀ p call, C p call → SynAcked p call) (hroom : Room w.pcb.snd)
    (h : Stream w.app w.pcb.snd) (hs : Step C w gs w') : Stream w'.app w'.pcb.snd := by
  cases hs with
  | call b call hb hc =>
    obtain ⟨s, gs, hturn, hmoves, -⟩ :=
      perform_turn (openRules call) w.pcb call hb hroom (hC _ _ hc).allowed
    exact (h.turn openRules_ne hroom hturn).moves (hroom.turn hturn) hmoves

/-- **In every run in which the SYN is acknowledged before the connection is open**, the ring holds
the application's bytes. -/
theorem Runs.stream {C : Pcb β → Call β → Prop} (hC : ∀ p call, C p call → SynAcked p call)
    (h : Runs C w) : Stream w.app w.pcb.snd :=
  h.invariant (fun _ => Starts.stream) fun _ _ _ hroom hw hs => hw.step hC hroom hs

theorem iss_move (hm : Move R s gs ds t) : t.iss = s.iss := by
  cases hm <;> rfl

theorem iss_moves (hm : Moves R s gs ds t) : t.iss = s.iss := by
  induction hm with
  | refl s => rfl
  | head hm _ ih => rw [ih, iss_move hm]

theorem iss_turn (ht : Turn R s t) : t.iss = s.iss := by
  obtain ⟨t, wnd, mss, pathMss, hacks, -⟩ := ht
  cases hacks <;> rfl

theorem state_move (hm : Move R s gs ds t) (h : s.state ≠ .established) :
    t.state ≠ .established := by
  cases hm with
  | queueFin st hown _ => cases hown <;> simp
  | peerFin st hpeer => cases hpeer <;> simp
  | synRcvd | close => simp
  | _ => exact h

theorem state_moves (hm : Moves R s gs ds t) (h : s.state ≠ .established) :
    t.state ≠ .established := by
  induction hm with
  | refl s => exact h
  | head hm _ ih => exact ih (state_move hm h)

/-- A turn opens a connection by acknowledging its SYN. -/
theorem opened_turn (hroom : Room s) (ht : Turn (openRules call) s t) (h : s.state ≠ .established)
    (ho : t.state = .established) :
    ∃ g, call = .input g ∧ g.flags.ack = true ∧ g.ack = s.iss + 1 := by
  obtain ⟨t, wnd, mss, pathMss, hacks, -⟩ := ht
  cases hacks with
  | stay => exact absurd ho h
  | ack a hstate hlo hhi hr =>
    simp only [Snd.acked] at ho
    split_ifs at ho
    · cases hst : s.state <;> simp_all [Snd.afterFin]
    · exact absurd ho h
  | opens a hstate hlo hhi hr =>
    obtain ⟨hne, g, hg, hack, hga⟩ := hr
    exact ⟨g, hg, hack, hga.trans (hroom.opens_eq hstate hlo hhi hne)⟩
  | synAck a hstate hlo hhi hr =>
    obtain ⟨g, hg, hack, hga⟩ := hr
    exact ⟨g, hg, hack, hga.trans (hroom.synAck_eq hstate hlo hhi)⟩

/-- **Every byte that is transmitted is the application's byte of its number.**  In every run in
which no segment opens the connection from `SYN_RCVD` that acknowledges nothing, and for every
further call: the data of every segment that the call transmits with number `iss + 1 + k` are the
application's bytes from the `k`-th on, none of them further back than the ring is long; once
something is written the ring is what follows the bytes before `snd_una`; and the connection
becomes `ESTABLISHED` only by a segment that acknowledges its SYN. -/
theorem bytes_numbered (w : Conn β) (h : Runs SynAcked w) (b : Batch β) (hb : b.segs = [])
    (call : Call β) (hc : SynAcked w.pcb call) :
    (∀ g ∈ (perform w.pcb b call).2.sent, g.data = [] ∨
      ∃ k, g.seq = w.pcb.iss + 1 + BitVec.ofNat 32 k ∧
        g.data = ((w.next b call).app.drop k).take g.data.length ∧
        k + g.data.length ≤ (w.next b call).app.length ∧
        (w.next b call).app.length ≤ k + tcpSndbuf) ∧
    ((w.next b call).app ≠ [] → ∃ k,
      (w.next b call).pcb.sndUna = w.pcb.iss + 1 + BitVec.ofNat 32 k ∧
        (w.next b call).pcb.sndbuf = (w.next b call).app.drop k) ∧
    (w.pcb.state ≠ .established → (w.next b call).pcb.state = .established →
      ∃ g, call = .input g ∧ g.flags.ack = true ∧ g.ack = w.pcb.iss + 1) := by
  have hroom := h.room
  have hstream := h.stream fun _ _ h => h
  obtain ⟨s, gs, hturn, hmoves, hsent⟩ :=
    perform_turn (openRules call) w.pcb call hb hroom hc.allowed
  have hroom' := hroom.turn hturn
  have hstream' := hstream.turn openRules_ne hroom hturn
  have hiss : (perform w.pcb b call).1.snd.iss = w.pcb.iss :=
    (iss_moves hmoves).trans (iss_turn hturn)
  have hend := hstream'.moves hroom' hmoves
  have hlen := (hroom'.moves hmoves).len_le
  refine ⟨fun g hg => ?_, fun happ => ?_, fun hclosed hopen => ?_⟩
  · have hnum := hmoves.each (P := fun app s => Room s ∧ Stream app s) (Q := Numbered)
      (fun _ _ _ _ _ h hm => ⟨h.1.move hm, h.2.move h.1 hm⟩)
      (fun _ _ _ _ _ h hm g hg => (Numbered.of_move h.2 hm hg).move hm)
      (fun _ _ _ _ _ _ _ hm hq => hq.move hm) w.app ⟨hroom', hstream'⟩ g (hsent hg)
    rw [Numbered, hiss] at hnum
    refine hnum.imp id ?_
    rintro ⟨k, hseq, hdata, hle, hring⟩
    exact ⟨k, hseq, hdata, hle, le_trans hring (Nat.add_le_add_left hlen k)⟩
  · cases hend with
    | synced k hk hs =>
      refine ⟨k, ?_, hk.buf⟩
      rw [← hiss]
      exact hk.una
    | silent hnil _ _ _ => exact absurd hnil happ
  · have hturned : s.state = .established := by
      by_contra hne
      exact state_moves hmoves hne hopen
    exact opened_turn hroom hturn hclosed hturned

/-- The peer's SYN, as in a simultaneous open. -/
def synSegment : In ℕ :=
  { seq := 99, ack := 0, data := [], win := 1000, flags := { syn := true }, mss := none }

/-- The peer's SYN comes and then its acknowledgement of the connection's; two bytes are sent, and
the timer expires. -/
def resentConn : Conn ℕ :=
  (((callingConn.next {} (.input synSegment)).next {} (.input (ackSegment 1 1000))).next {}
    (.send [7, 8])).next {} (.timer .rexmit)

/-- The two bytes are sent again, with the same number. -/
theorem bytes_numbered_resentConn :
    ((perform resentConn.pcb {} (.work false 0)).2.sent.map fun g => (g.seq, g.data)) =
        [(1, [7, 8])] ∧
      ∀ g ∈ (perform resentConn.pcb {} (.work false 0)).2.sent, g.data = [] ∨
        ∃ k, g.seq = resentConn.pcb.iss + 1 + BitVec.ofNat 32 k ∧
          g.data = ((resentConn.next {} (.work false 0)).app.drop k).take g.data.length ∧
          k + g.data.length ≤ (resentConn.next {} (.work false 0)).app.length ∧
          (resentConn.next {} (.work false 0)).app.length ≤ k + tcpSndbuf := by
  have h₁ := (callingConn_runs SynAcked).step (.call _ {} (.input synSegment) rfl fun _ _ h => by
    cases h)
  have h₂ := h₁.step (.call _ {} (.input (ackSegment 1 1000)) rfl fun g hg => by
    cases hg
    decide)
  have h₃ := h₂.step (.call _ {} (.send [7, 8]) rfl fun _ hg => by cases hg)
  have h₄ := h₃.step (.call _ {} (.timer .rexmit) rfl fun _ hg => by cases hg)
  exact ⟨by decide, (bytes_numbered _ h₄ {} rfl (.work false 0) fun _ hg => by cases hg).1⟩

/-- The connection after the peer's SYN and the acknowledgement of nothing. -/
def skippedConn : Conn ℕ :=
  (callingConn.next {} (.input synSegment)).next {} (.input (ackSegment 0 1000))

/-- The acknowledgement of nothing opens the connection; of the two bytes then written, the second
is transmitted with the first one's number. -/
theorem first_byte_skipped :
    Runs (fun _ _ => True) skippedConn ∧ skippedConn.pcb.state = .established ∧
      skippedConn.pcb.sndUna = skippedConn.pcb.iss ∧
      ((perform skippedConn.pcb {} (.send [7, 8])).2.sent.map fun g => (g.seq, g.data)) =
        [(skippedConn.pcb.iss + 1, [8])] := by
  refine ⟨?_, by decide, by decide, by decide⟩
  have h₁ : Runs (fun _ _ => True) (callingConn.next {} (.input synSegment)) :=
    (callingConn_runs _).step (.call _ {} (.input synSegment) rfl True.intro)
  exact h₁.step (.call _ {} (.input (ackSegment 0 1000)) rfl True.intro)

end CosmoOS.Network.Tcp
