import CosmoOS.Network.TcpSender

/-!
# Every call is a turn and then moves

What each function of `Network.Tcp` does to `Snd`, with the segments it puts into the batch, is a
sequence of the moves of `Network.TcpSender`.

* `outputLocked_does`: the output is moves: one for each segment of data, one for the FIN, one for a
  pure acknowledgement.
* `ackInput_acts`: taking an acknowledgement is a turn, or a fast retransmit.
* `perform_acts`: a call is a turn and then moves, when the rules allow what the call does
  (`Allowed`, which states each rule of the connection and the call as they are before the call).
-/

namespace CosmoOS.Network.Tcp

open Lib.Serial

variable {β : Type} {R : Rules β} {p q : Pcb β} {b b' : Batch β} {ds ds' : List β}
  {r r' : Pcb β × Batch β}

variable {g : Seg β} {flags : Flags} {opt : Bool} {seq : Seq} {st : State}

/-! ## Doing -/

section

variable (R p b ds)

/-- From a connection and a batch the moves lead to another, with the bytes taken. -/
def Does (r : Pcb β × Batch β) : Prop :=
  ∃ gs, r.2.segs = b.segs ++ gs ∧ Moves R p.snd gs ds r.1.snd

def Acts (r : Pcb β × Batch β) : Prop :=
  ∃ s gs, Turn R p.snd s ∧ r.2.segs = b.segs ++ gs ∧ Moves R s gs ds r.1.snd

end

theorem Does.same (hsnd : r.1.snd = p.snd) (hsegs : r.2.segs = b.segs) : Does R p b [] r :=
  ⟨[], by rw [hsegs, List.append_nil], hsnd ▸ .refl _⟩

theorem Does.refl (p : Pcb β) (b : Batch β) : Does R p b [] (p, b) := .same rfl rfl

theorem Does.move (hm : Move R p.snd [] ds r.1.snd) (hsegs : r.2.segs = b.segs) :
    Does R p b ds r :=
  ⟨[], by rw [hsegs, List.append_nil], hm.moves⟩

theorem Does.trans (h : Does R p b ds r) (h' : Does R r.1 r.2 ds' r') :
    Does R p b (ds ++ ds') r' := by
  obtain ⟨gs, hsegs, hmoves⟩ := h
  obtain ⟨gs', hsegs', hmoves'⟩ := h'
  refine ⟨gs ++ gs', ?_, hmoves.trans hmoves'⟩
  rw [hsegs', hsegs, List.append_assoc]

theorem Does.andThen (h : Does R p b [] r) (h' : Does R r.1 r.2 [] r') : Does R p b [] r' :=
  h.trans h'

theorem Does.congr (hsnd : q.snd = p.snd) (hsegs : b'.segs = b.segs) (h : Does R q b' ds r) :
    Does R p b ds r := by
  unfold Does at *
  rwa [hsnd, hsegs] at h

/-- An acknowledgement taken, with the window. -/
theorem Acks.turn {s t : Snd β} (h : Acks R s t) (hmss : t.mss = s.mss)
    (hpath : t.pathMss = s.pathMss) (w : ℕ) : Turn R s { t with wnd := w } :=
  .mk t w t.mss t.pathMss h fun h h' => ⟨hmss ▸ h, hpath ▸ h'⟩

theorem Does.acts (h : Does R p b ds r) : Acts R p b ds r := by
  obtain ⟨gs, hsegs, hmoves⟩ := h
  exact ⟨_, gs, (Acks.stay _).turn rfl rfl _, hsegs, hmoves⟩

theorem Does.after (hturn : Turn R p.snd q.snd) (h : Does R q b ds r) : Acts R p b ds r := by
  obtain ⟨gs, hsegs, hmoves⟩ := h
  exact ⟨_, gs, hturn, hsegs, hmoves⟩

/-! ## Segments -/

theorem push_segs {ok : Bool} (h : b.push g = (ok, b')) :
    b'.segs = b.segs ++ if ok then [g] else [] := by
  unfold Batch.push at h
  split_ifs at h
  · cases h
    exact (List.append_nil _).symm
  · split at h <;> cases h
    · exact (List.append_nil _).symm
    · rfl

theorem push_plain (p : Pcb β) (b : Batch β) (hg : g.plain) : Does R p b [] (p, (b.push g).2) := by
  rcases hb : b.push g with ⟨_ | _, b'⟩
  · exact ⟨_, push_segs hb, .refl _⟩
  · exact ⟨_, push_segs hb, (Move.plain _ g hg).moves⟩

theorem buildSegment_plain (p q : Pcb β) (b : Batch β) (flags : Flags) (seq : Seq) (opt : Bool)
    (hfin : flags.fin = false) : Does R p b [] (p, (buildSegment q b flags seq 0 opt).2) :=
  push_plain p b ⟨by simp, hfin⟩

theorem buildSegment_eq_true {n : ℕ} (h : buildSegment p b flags seq n opt = (true, b')) :
    ∃ g : Seg β, b'.segs = b.segs ++ [g] ∧ g.flags = flags ∧ g.seq = seq ∧
      g.data = (p.sndbuf.drop (ahead p.sndUna seq)).take n :=
  ⟨_, push_segs h, rfl, rfl, rfl⟩

theorem buildSegment_eq_false {n : ℕ}
    (h : buildSegment p b flags seq n opt = (false, b')) : b'.segs = b.segs :=
  (push_segs h).trans (List.append_nil _)

section

variable (turns : ℕ) (p : Pcb β) (b : Batch β) (sent : Bool)

theorem buildRst_does (flags : Flags) (seq ack : Seq) (n : ℕ) :
    Does R p b [] (p, buildRst b flags seq ack n) := by
  unfold buildRst
  split_ifs
  · exact .refl p b
  · exact push_plain p b ⟨rfl, rfl⟩
  all_goals exact push_plain p b ⟨rfl, rfl⟩

theorem challengeAck_does : Does R p b [] (p, challengeAck p b) := by
  unfold challengeAck
  split_ifs
  · exact .refl p b
  · exact buildSegment_plain p p b _ _ _ rfl

/-! ## Output -/

/-- The next data segment is in the ring, no longer than the segment size, and inside the window
unless it is the probe. -/
theorem sendLen_spec (h : sendLen p ≠ 0) :
    p.snd.off + sendLen p ≤ p.snd.buf.length ∧ (sendLen p ≤ p.snd.mss ∨ sendLen p = 1) ∧
      (p.snd.off + sendLen p ≤ p.snd.wnd ∨
        (sendLen p = 1 ∧ p.snd.off = 0 ∧ p.snd.wnd = 0 ∧ p.snd.probing = true)) := by
  have hoff : p.snd.off = (p.sndNxt - p.sndUna).toNat := rfl
  obtain ⟨n, hn⟩ : ∃ n, n = sendLen p := ⟨_, rfl⟩
  rw [← hn] at h ⊢
  rw [hoff]
  simp only [sendLen] at hn
  simp only [Pcb.snd]
  split_ifs at hn with hbig hsilly hzero hprobe
  · exact absurd hn h
  · exact absurd hn h
  · simp only [ne_eq, Bool.and_eq_true, decide_eq_true_eq] at hprobe
    obtain ⟨⟨⟨havail, hwnd⟩, ho⟩, hbit⟩ := hprobe
    refine ⟨by omega, .inr hn, .inr ⟨hn, ho, hwnd, hbit⟩⟩
  · exact absurd hn h
  · exact ⟨by omega, by omega, by omega⟩

theorem snd_outputTimers : (outputTimers p sent).snd = p.snd := by
  cases sent <;> rfl

/-- What the output leaves alone: everything but what it keeps about what it sends. -/
def Pcb.still : Pcb β :=
  { p with
    sndNxt := 0, sndMax := 0, finSent := false, delackPending := false, ackNow := false
    armed := {} }

theorem still_outputLoop : (outputLoop turns p b sent).1.still = p.still := by
  induction turns generalizing p b sent with
  | zero => rfl
  | succ turns ih =>
    rw [outputLoop]
    split_ifs
    · rfl
    · split
      · rfl
      · exact ih (Tcp.advance p (sendLen p)) _ true

theorem still_outputFin : (outputFin p b sent).1.still = p.still := by
  unfold outputFin
  split_ifs
  · split <;> rfl
  · rfl

theorem still_outputData : (outputData p b).1.still = p.still := by
  unfold outputData
  split_ifs
  · exact (still_outputFin _ _ _).trans (still_outputLoop (batchMax + 1) p b false)
  · rfl

theorem still_outputAck : (outputAck p b sent).1.still = p.still := by
  unfold outputAck
  split_ifs <;> rfl

theorem still_outputTimers : (outputTimers p sent).still = p.still := by
  cases sent <;> rfl

/-- **What the output leaves alone.** -/
theorem still_outputLocked : (outputLocked p b).1.still = p.still :=
  (still_outputTimers _ _).trans ((still_outputAck _ _ _).trans (still_outputData p b))

theorem state_outputLocked : (outputLocked p b).1.state = p.state :=
  (congrArg Pcb.state (still_outputLocked p b) :)

end

theorem buildSegment_data (hstate : p.state.sends = true) (hn : sendLen p ≠ 0)
    (h : buildSegment p b (dataFlags p (sendLen p)) p.sndNxt (sendLen p) false = (true, b')) :
    Does R p b [] (advance p (sendLen p), b') := by
  obtain ⟨hlen, hmss, hwnd⟩ := sendLen_spec p hn
  obtain ⟨g, hsegs, hflags, hseq, hdata⟩ := buildSegment_eq_true h
  refine ⟨[g], hsegs, Move.moves (.data _ (sendLen p) g hstate (Nat.pos_of_ne_zero hn) hlen hmss
    hwnd hseq hdata ?_)⟩
  rw [hflags]
  rfl

section

variable (turns : ℕ) (p : Pcb β) (b : Batch β) (sent : Bool)

/-- **The loop is moves**, one for each segment. -/
theorem outputLoop_does (hstate : p.state.sends = true) :
    Does R p b [] ((outputLoop turns p b sent).1, (outputLoop turns p b sent).2.1) := by
  induction turns generalizing p b sent with
  | zero => exact .refl p b
  | succ turns ih =>
    rw [outputLoop]
    split_ifs with hzero
    · exact .refl p b
    · rcases hb : buildSegment p b (dataFlags p (sendLen p)) p.sndNxt (sendLen p) false with
        ⟨_ | _, b'⟩
      · exact .same rfl (buildSegment_eq_false hb)
      · exact (buildSegment_data hstate hzero hb).andThen (ih _ b' true hstate)

theorem outputFin_does (hstate : p.state.sends = true) :
    Does R p b [] ((outputFin p b sent).1, (outputFin p b sent).2.1) := by
  unfold outputFin
  split_ifs with hfin
  · simp only [Bool.and_eq_true, Bool.not_eq_true', decide_eq_true_eq] at hfin
    obtain ⟨⟨hqueued, hsent⟩, hoff⟩ := hfin
    rcases hb : buildSegment p b { fin := true, ack := true } p.sndNxt 0 false with ⟨_ | _, b'⟩
    · exact .same rfl (buildSegment_eq_false hb)
    · obtain ⟨g, hsegs, -, hseq, hdata⟩ := buildSegment_eq_true hb
      exact ⟨[g], hsegs, Move.moves (.fin _ g hstate hqueued hsent hoff hseq hdata)⟩
  · exact .refl p b

theorem outputData_does : Does R p b [] ((outputData p b).1, (outputData p b).2.1) := by
  unfold outputData
  split_ifs with hstate
  · have hst : (outputLoop (batchMax + 1) p b false).1.state = p.state :=
      (congrArg Pcb.state (still_outputLoop (batchMax + 1) p b false) :)
    exact (outputLoop_does (batchMax + 1) p b false hstate).andThen
      (outputFin_does _ _ _ (by rw [hst]; exact hstate))
  · exact .refl p b

theorem outputAck_does : Does R p b [] ((outputAck p b sent).1, (outputAck p b sent).2.1) := by
  unfold outputAck
  split_ifs
  · exact buildSegment_plain p p b _ _ _ rfl
  · exact .refl p b

/-- **The output is moves.** -/
theorem outputLocked_does : Does R p b [] (outputLocked p b) := by
  have hdata := outputData_does (R := R) p b
  have hack := outputAck_does (R := R) (outputData p b).1 (outputData p b).2.1
    (outputData p b).2.2
  exact (hdata.andThen hack).andThen (.same (snd_outputTimers _ _) rfl)

end

/-- The output, after what does not change the sending side. -/
theorem outputLocked_does_of (hsnd : q.snd = p.snd) (hsegs : b'.segs = b.segs) :
    Does R p b [] (outputLocked q b') :=
  (outputLocked_does q b').congr hsnd hsegs

/-! ## Ways through the calls

The timers' work and most calls of the socket layer are put together of a few small changes.  A
relation that has those has the calls: what a call does to the sending side, what it leaves of the
receiving side and what it does to the counters is looked at for the changes only. -/

/-- The connection, but for what no number, queue, state or counter depends on. -/
def Pcb.idle (p : Pcb β) : Pcb β :=
  { p with
    cwnd := 0, ssthresh := 0, dupacks := 0, armed := {}, keepProbes := 0, delackPending := false
    ackNow := false, sock := false }

/-- **A relation with the small changes in it.** -/
structure Way (R : Rules β) (Q : Pcb β × Batch β → Pcb β × Batch β → Prop) : Prop where
  trans : ∀ {x y z}, Q x y → Q y z → Q x z
  same : ∀ {p q : Pcb β} {b b' : Batch β}, q.idle = p.idle → b'.segs = b.segs → Q (p, b) (q, b')
  plain : ∀ (p : Pcb β) (b : Batch β) {g : Seg β}, g.plain → Q (p, b) (p, (b.push g).2)
  output : ∀ (p : Pcb β) (b : Batch β), Q (p, b) (outputLocked p b)
  close : ∀ (p : Pcb β) (b : Batch β) (k : Bool),
    Q (p, b) ({ oooFlush p with state := .closed, killed := k }, b)
  error : ∀ (p : Pcb β) (b : Batch β) {e : Int}, e ≠ -etimedout →
    Q (p, b) ({ p with error := e }, b)
  queueFin : ∀ {p : Pcb β} (b : Batch β) {st : State}, OwnFin p.snd st → R.queueFin p.snd →
    Q (p, b) ({ p with state := st, finQueued := true }, b)

/-- With what the retransmission timer and the keepalive timer change, too. -/
structure TimedWay (R : Rules β) (Q : Pcb β × Batch β → Pcb β × Batch β → Prop) : Prop
    extends Way R Q where
  restart : ∀ {p : Pcb β} (b : Batch β),
    p.state ≠ .closed ∧ p.state ≠ .synSent ∧ p.state ≠ .timeWait →
    Q (p, b) ({ p with sndNxt := p.sndUna, finSent := false }, b)
  work : ∀ (p : Pcb β) (b : Batch β) {w : Timers}, (w.rexmit = true → R.probe) →
    Q (p, b) ({ p with work := w }, b)
  count : ∀ (p : Pcb β) (b : Batch β) (n : ℕ) (e : Int),
    Q (p, b) ({ p with rexmitCount := n, error := e }, b)

section Ways

variable {Q : Pcb β × Batch β → Pcb β × Batch β → Prop}

namespace Way

variable (h : Way R Q) (p : Pcb β) (b : Batch β)

include h

theorem refl (x : Pcb β × Batch β) : Q x x := h.same rfl rfl

theorem segment (q : Pcb β) (flags : Flags) (seq : Seq) (opt : Bool) (hfin : flags.fin = false) :
    Q (p, b) (p, (buildSegment q b flags seq 0 opt).2) :=
  h.plain p b ⟨by simp, hfin⟩

theorem kill : Q (p, b) (killLocked p, b) := by
  unfold killLocked
  split_ifs
  · exact h.refl _
  · exact h.trans (h.close p b true) (h.same rfl rfl)

theorem ends : Q (p, b) (endLocked p, b) := by
  unfold endLocked
  split_ifs
  · exact h.trans (h.close p b p.killed) (h.same rfl rfl)
  · exact h.kill p b

theorem orphan : Q (p, b) (orphanFinWait2 p, b) := by
  unfold orphanFinWait2
  split_ifs <;> exact h.same rfl rfl

theorem outputFin {st : State} (hfin : OwnFin p.snd st) (hrule : R.queueFin p.snd) :
    Q (p, b) (outputLocked { p with state := st, finQueued := true } b) :=
  h.trans (h.queueFin b hfin hrule) (h.output _ b)

theorem shutdown (hrule : R.queueFin p.snd) : Q (p, b) (shutdownWrite p b).2 := by
  have hfinWait1 := fun hst => h.outputFin p b (.finWait1 hst) hrule
  have hlastAck := fun hst => h.outputFin p b (.lastAck hst) hrule
  unfold shutdownWrite
  split
  next hst => exact hfinWait1 (.inl hst)
  next hst => exact hfinWait1 (.inr hst)
  next hst => exact hlastAck hst
  next => exact h.refl _

/-- `close` of a connection that can still send: a reset if there is unread data, else the FIN. -/
theorem closeFin {st : State} (hfin : OwnFin p.snd st) (hrule : R.queueFin p.snd)
    (hst : (if p.state = .closeWait then State.lastAck else .finWait1) = st) :
    Q (p, b)
      (if (p.rcvbuf.length > 0 || p.ooo.length > 0) = true then
        (killLocked p, (buildSegment p b { rst := true, ack := true } p.sndNxt 0 false).2)
      else
        outputLocked { p with
          state := if p.state = .closeWait then .lastAck else .finWait1,
          finQueued := true } b) := by
  by_cases hunread : (p.rcvbuf.length > 0 || p.ooo.length > 0) = true
  · rw [if_pos hunread]
    exact h.trans (h.segment p b p _ _ _ rfl) (h.kill _ _)
  · rw [if_neg hunread, hst]
    exact h.outputFin p b hfin hrule

theorem closes (hrule : R.queueFin p.snd) : Q (p, b) (Tcp.close p b) := by
  have hsock : Q (p, b) ({ p with sock := false }, b) := h.same rfl rfl
  have hfin := fun st (hfin : OwnFin p.snd st) => h.closeFin { p with sock := false } b hfin hrule
  refine h.trans hsock ?_
  simp only [Tcp.close]
  split
  next => exact h.kill _ b
  next => exact h.kill _ b
  next => exact h.kill _ b
  next hst => exact hfin _ (.finWait1 (.inr hst)) (by simp [hst])
  next hst => exact hfin _ (.finWait1 (.inl hst)) (by simp [hst])
  next hst => exact hfin _ (.lastAck hst) (by simp [hst])
  next => exact h.orphan _ b

theorem result (refused : Bool) : Q (p, b) (outputResult p refused, b) := by
  have herror := h.error p b (e := -eperm) (by decide)
  unfold outputResult
  cases refused with
  | true =>
    simp only [if_true]
    split
    next => exact h.trans herror (h.ends _ b)
    next => exact h.trans herror (h.ends _ b)
    case h_9 => exact h.refl _
    all_goals
      split_ifs
      · exact herror
      · exact h.refl _
  | false =>
    simp only [Bool.false_eq_true, if_false]
    split_ifs
    · exact h.error p b (by decide)
    · exact h.refl _

end Way

namespace TimedWay

variable (h : TimedWay R Q) (p : Pcb β) (b : Batch β)

include h

theorem keep (idle : Bool) (cnt : ℕ) : Q (p, b) (keepFire p b idle cnt) := by
  simp only [keepFire]
  split_ifs
  · exact h.refl _
  · exact h.ends p b
  · exact h.refl _
  · exact h.same rfl rfl
  · exact h.trans (h.count p b p.rexmitCount (-etimedout)) (h.ends _ b)
  · exact h.trans (h.segment p b _ _ _ _ rfl) (h.same rfl rfl)

/-- The retransmission timer: the SYN again, or a restart from `snd_una`. -/
theorem rexmit (hrule : R.probe) (hclosed : p.state ≠ .closed) (hwait : p.state ≠ .timeWait) :
    Q (p, b) (rexmitFire p b) := by
  have hcount := h.count p b (p.rexmitCount + 1)
  have hsegment := fun q flags opt hfin =>
    h.trans (hcount p.error) (h.segment _ b q flags p.iss opt hfin)
  simp only [rexmitFire]
  split_ifs with hmax hsent hrcvd
  · exact h.trans (hcount (-etimedout)) (h.ends _ b)
  · exact h.trans (hsegment _ _ _ rfl) (h.same rfl rfl)
  · exact h.trans (hsegment _ _ _ rfl) (h.same rfl rfl)
  · -- the output with the timer's bit set, after which it is cleared
    have hclear : ∀ x : Pcb β × Batch β,
        Q x ({ x.1 with work := { x.1.work with rexmit := false } }, x.2) :=
      fun x => h.work x.1 x.2 (by simp)
    have hrestart := h.trans (hcount p.error) (h.restart b ⟨hclosed, hsent, hwait⟩)
    have hprobe := h.trans hrestart (h.work _ b (w := { p.work with rexmit := true })
      fun _ => hrule)
    refine h.trans (h.trans ?_ (h.output _ b)) (hclear _)
    exact h.trans hprobe (h.same rfl rfl)

theorem acks (flags : Timers) (hrule : flags.rexmit = true → R.probe)
    (hclosed : p.state ≠ .closed) :
    Q (p, b) (workAcks p flags b) := by
  have hfire : ∀ (q : Pcb β) (b : Batch β), q.state = p.state → Q (q, b)
      (if (!flags.rexmit || q.state = .listen || q.state = .timeWait || !rexmitDue q) = true
        then (q, b) else rexmitFire q b) := by
    intro q b hst
    split_ifs with hskip
    · exact h.refl _
    · simp only [Bool.or_eq_true, Bool.not_eq_true', decide_eq_true_eq, not_or,
        Bool.not_eq_false] at hskip
      exact h.rexmit q b (hrule hskip.1.1.1) (hst ▸ hclosed) hskip.1.2
  simp only [workAcks]
  cases flags.delack with
  | true =>
    have hready : Q (p, b) ({ p with ackNow := p.delackPending }, b) := h.same rfl rfl
    exact h.trans (h.trans hready (h.output _ b)) (hfire _ _ (state_outputLocked _ b))
  | false => exact hfire p b rfl

theorem works (idle : Bool) (cnt : ℕ) (hrule : p.work.rexmit = true → R.probe) :
    Q (p, b) (pcbWork p b idle cnt) := by
  refine h.trans (h.work p b (w := {}) (by simp)) ?_
  simp only [pcbWork, workLocked]
  split_ifs with hclosed hwait hkeep
  · exact h.refl _
  · exact h.ends _ b
  · exact h.keep _ b idle cnt
  · exact h.trans (h.keep _ b idle cnt) (h.acks _ _ p.work hrule (by assumption))
  · exact h.acks _ b p.work hrule hclosed

theorem kick (t : Timer) (hrule : R.probe) : Q (p, b) (timerKick p t, b) := by
  unfold timerKick
  split_ifs
  · exact h.trans (h.work p b (w := p.work.set true t) fun _ => hrule) (h.same rfl rfl)
  · exact h.refl _

end TimedWay

end Ways

/-- **What a call does to the sending side is moves.** -/
theorem does_way : TimedWay R fun x y => Does R x.1 x.2 [] y where
  trans h h' := h.andThen h'
  same hidle hsegs := .same (congrArg Pcb.snd hidle :) hsegs
  plain p b _ hg := push_plain p b hg
  output := outputLocked_does
  close _ _ k := .move (.close _ k) rfl
  error _ _ _ _ := .same rfl rfl
  queueFin _ _ hfin hrule := .move (.queueFin _ _ hfin hrule) rfl
  restart _ hst := .move (.restart _ hst) rfl
  work _ _ w hrule := .move (.probe _ w.rexmit hrule) rfl
  count _ _ _ _ := .same rfl rfl

theorem endLocked_does_of (hsnd : q.snd = p.snd) (hsegs : b'.segs = b.segs) :
    Does R p b [] (endLocked q, b') :=
  Does.congr hsnd hsegs (does_way.ends q b')

section

variable (p) (g : In β) (b : Batch β)

theorem snd_orphanFinWait2 : (orphanFinWait2 p).snd = p.snd := by
  unfold orphanFinWait2
  split_ifs <;> rfl

/-! ## What leaves the sending side alone -/

/-- The connection, apart from its receiving side. -/
def Pcb.sending : Pcb β :=
  { p with rcvNxt := 0, rcvWnd := 0, rcvbuf := [], ooo := [], oooBytes := 0 }

theorem sending_oooDrain (es : List (OooSeg β)) (p : Pcb β) (fin : Bool) :
    (oooDrain p es fin).1.sending = p.sending := by
  induction es generalizing p fin with
  | nil => rfl
  | cons e es ih =>
    simp only [oooDrain]
    split_ifs
    · rfl
    · exact ih _ _
    · rfl
    · exact ih _ _

theorem sending_oooInsert (seq : Seq) (data : List β) (fin : Bool) :
    (oooInsert p seq data fin).sending = p.sending := by
  simp only [oooInsert]
  split_ifs <;> rfl

theorem sending_takeData (data : List β) : (takeData p data).1.sending = p.sending := by
  simp only [takeData]
  split_ifs
  · rfl
  · exact sending_oooDrain _ { p with
      rcvbuf := p.rcvbuf ++ data.take (min data.length p.rcvSpace)
      rcvNxt := p.rcvNxt + BitVec.ofNat 32 (min data.length p.rcvSpace) } false

theorem snd_oooInsert (seq : Seq) (data : List β) (fin : Bool) :
    (oooInsert p seq data fin).snd = p.snd :=
  (congrArg Pcb.snd (sending_oooInsert p seq data fin) :)

theorem snd_takeData (data : List β) : (takeData p data).1.snd = p.snd :=
  (congrArg Pcb.snd (sending_takeData p data) :)

/-! ## Input -/

theorem takeFin_does : Does R p b [] (takeFin p, b) := by
  simp only [takeFin]
  split
  next hst => exact .move (.peerFin _ _ (.closeWait hst)) rfl
  next hst =>
    split_ifs with hfin
    · simp only [Bool.and_eq_true, decide_eq_true_eq] at hfin
      exact .move (.peerFin _ _ (.timeWait1 hst hfin)) rfl
    · simp only [Bool.and_eq_true, decide_eq_true_eq] at hfin
      exact .move (.peerFin _ _ (.closing hst hfin)) rfl
  next hst => exact .move (.peerFin _ _ (.timeWait2 hst)) rfl
  next => exact .same rfl rfl

theorem finInput_does (finNow drainedFin : Bool) :
    Does R p b [] (finInput p g b finNow drainedFin) := by
  simp only [finInput]
  split_ifs
  · exact (takeFin_does p b).andThen (outputLocked_does_of rfl rfl)
  · exact outputLocked_does p b
  · exact .refl p b

theorem ackData_does : Does R p b [] (ackData p b) := by
  unfold ackData
  split_ifs
  · exact outputLocked_does_of rfl rfl
  · exact .same rfl rfl

theorem dataInput_does : Does R p b [] (dataInput p g b) := by
  unfold dataInput
  split_ifs
  · have htake : Does R p b [] ((takeData p g.data).1, b) := .same (snd_takeData p g.data) rfl
    exact (htake.andThen (ackData_does _ _)).andThen (finInput_does _ _ _ _ _)
  · have hins : Does R p b [] (oooInsert p g.seq g.data g.flags.fin, b) :=
      .same (snd_oooInsert p g.seq g.data g.flags.fin) rfl
    exact (hins.andThen (buildSegment_plain _ _ _ _ _ _ rfl)).andThen (finInput_does _ _ _ _ _)
  · exact finInput_does _ _ _ _ _

theorem snd_updateWindow :
    ∃ w, (updateWindow p g).snd = { p.snd with wnd := w } ∧ (w = g.win ∨ w = p.sndWnd) := by
  unfold updateWindow
  split_ifs
  · exact ⟨g.win, rfl, .inl rfl⟩
  · exact ⟨p.sndWnd, rfl, .inr rfl⟩

theorem dupAck_does (hstate : p.state ≠ .closed)
    (hfast : p.dupacks = 2 → fastLen p ≠ 0 → R.fast p.snd) :
    Does R p b [] (dupAck p b) ∧ (dupAck p b).1.snd = p.snd := by
  simp only [dupAck]
  split_ifs with hthird hlen
  · refine ⟨?_, rfl⟩
    have hrule : R.fast p.snd := hfast (by simpa using hthird) hlen
    rcases hb : buildSegment
        { p with
          dupacks := p.dupacks + 1, ssthresh := halfFlight p, cwnd := halfFlight p }
        b { ack := true } p.sndUna (fastLen p) false with ⟨_ | _, b'⟩
    · exact .same rfl (congrArg (fun x => x.2.segs) hb |>.trans (buildSegment_eq_false hb))
    · obtain ⟨g, hsegs, hflags, hseq, hdata⟩ := buildSegment_eq_true hb
      refine ⟨[g], (congrArg (fun x => x.2.segs) hb).trans hsegs,
        Move.moves (.fast _ g hstate hrule hseq ?_ (by rw [hflags]))⟩
      rw [hdata, ahead_self]
      rfl
  · exact ⟨.same rfl rfl, rfl⟩
  · exact ⟨.same rfl rfl, rfl⟩

/-- The connection after an acknowledgement of something new, before the FIN's is looked at. -/
def taken (a : Seq) : Pcb β :=
  { p with
    sndbuf := p.sndbuf.drop (if p.snd.takesFin a then ahead p.sndUna a - 1 else ahead p.sndUna a)
    sndUna := a
    sndNxt := if seqLt p.sndNxt a then a else p.sndNxt
    rexmitCount := 0, dupacks := 0, cwnd := growCwnd p }

theorem newAck_eq (a : Seq) :
    newAck p a = if p.snd.takesFin a then finAcked (taken p a) else (taken p a, false) := rfl

end

theorem snd_taken {a : Seq} (h : p.snd.takesFin a = false) :
    (taken p a).snd = p.snd.acked a := by
  simp only [taken, Snd.acked, h]
  rfl

theorem snd_taken_fin {a : Seq} (h : p.snd.takesFin a = true) :
    { (taken p a).snd with state := Snd.afterFin (taken p a).state } = p.snd.acked a := by
  simp only [taken, Snd.acked, h]
  rfl

theorem snd_endLocked (h : p.killed = false) :
    ∃ k, (endLocked p).snd = { p.snd with state := .closed, killed := k } := by
  unfold endLocked
  split_ifs
  · exact ⟨p.killed, rfl⟩
  · simp only [killLocked, h, Bool.false_eq_true, if_false]
    exact ⟨true, rfl⟩

/-- The acknowledgement of its own FIN takes a connection on, or ends it. -/
theorem finAcked_cases (q : Pcb β) :
    ((finAcked q).2 = false ∧
        (finAcked q).1.snd = { q.snd with state := Snd.afterFin q.state }) ∨
      ((finAcked q).2 = true ∧ (finAcked q).1 = endLocked q) := by
  unfold finAcked
  split
  next hst => exact .inl ⟨rfl, (snd_orphanFinWait2 _).trans (by rw [hst]; rfl)⟩
  next hst => exact .inl ⟨rfl, by rw [hst]; rfl⟩
  next hst => exact .inr ⟨rfl, rfl⟩
  next h1 h2 h3 =>
    refine .inl ⟨rfl, ?_⟩
    have hafter : Snd.afterFin q.state = q.state := by
      cases hst : q.state <;> simp_all [Snd.afterFin]
    rw [hafter]
    rfl

/-- **An acknowledgement of something new is a turn**, and the end of the connection if it was the
last that was wanted. -/
theorem newAck_cases (a : Seq) (hkilled : p.killed = false) :
    ((newAck p a).2 = false ∧ (newAck p a).1.snd = p.snd.acked a) ∨
      ((newAck p a).2 = true ∧
        ∃ k, (newAck p a).1.snd = { p.snd.acked a with state := .closed, killed := k }) := by
  rw [newAck_eq]
  cases hfin : p.snd.takesFin a with
  | false => exact .inl ⟨rfl, snd_taken hfin⟩
  | true =>
    have hacked := snd_taken_fin hfin
    simp only [if_true]
    rcases finAcked_cases (taken p a) with ⟨hgo, hsnd⟩ | ⟨hend, heq⟩
    · exact .inl ⟨hgo, hsnd.trans hacked⟩
    · obtain ⟨k, hk⟩ := snd_endLocked (p := taken p a) hkilled
      refine .inr ⟨hend, k, ?_⟩
      rw [heq, hk, ← hacked]

section

variable (p) (g : In β) (b : Batch β)

theorem inputAccepted_of_old (hstate : p.state ≠ .closed) (hnew : isNewAck p g = false)
    (hfast : isDupAck p g = true → p.dupacks = 2 → fastLen p ≠ 0 → R.fast p.snd) :
    ∃ w gs, (inputAccepted p g b).2.segs = b.segs ++ gs ∧
      Moves R { p.snd with wnd := w } gs [] (inputAccepted p g b).1.snd := by
  have hnew' : isNewAck { p with keepProbes := 0 } g = false := hnew
  simp only [inputAccepted, ackInput, hnew', Bool.false_eq_true, if_false]
  by_cases hdup : isDupAck { p with keepProbes := 0 } g = true
  · -- the window is the one the segment repeats
    obtain ⟨⟨gs, hsegs, hmoves⟩, hsnd⟩ :=
      dupAck_does { p with keepProbes := 0 } { b with quiet := false } hstate (hfast hdup)
    have hwin : g.win = p.sndWnd := by
      simp only [isDupAck, Bool.and_eq_true, decide_eq_true_eq] at hdup
      exact hdup.2
    rw [if_pos hdup]
    generalize dupAck { p with keepProbes := 0 } { b with quiet := false } = d at *
    obtain ⟨w, hupd, hw⟩ := snd_updateWindow d.1 g
    have hwnd : d.1.sndWnd = p.sndWnd := congrArg Snd.wnd hsnd
    have hsame : (updateWindow d.1 g).snd = p.snd := by
      rw [hupd, hsnd]
      rcases hw with rfl | rfl
      · rw [hwin]
        rfl
      · rw [hwnd]
        rfl
    obtain ⟨gs', hsegs', hmoves'⟩ := dataInput_does (R := R) (updateWindow d.1 g) g d.2
    refine ⟨p.sndWnd, gs ++ gs', ?_, ?_⟩
    · rw [hsegs', hsegs, List.append_assoc]
    · rw [hsame] at hmoves'
      rw [hsnd] at hmoves
      exact hmoves.trans hmoves'
  · rw [if_neg hdup]
    obtain ⟨w, hupd, -⟩ := snd_updateWindow { p with keepProbes := 0 } g
    obtain ⟨gs, hsegs, hmoves⟩ := dataInput_does (R := R)
      (updateWindow { p with keepProbes := 0 } g) g { b with quiet := false }
    exact ⟨w, gs, hsegs, hupd ▸ hmoves⟩

theorem inputAccepted_of_new (hnew : isNewAck p g = true)
    (hstate : p.state ≠ .closed ∧ p.state ≠ .synSent ∧ p.state ≠ .synRcvd ∧
      p.state ≠ .timeWait) (hkilled : p.killed = false) (hrule : R.ack p.snd g.ack) :
    Acts R p b [] (inputAccepted p g b) := by
  have hnew' : isNewAck { p with keepProbes := 0 } g = true := hnew
  have hrange := hnew
  simp only [isNewAck, Bool.and_eq_true] at hrange
  have hacks : Acks R p.snd (p.snd.acked g.ack) := .ack _ _ hstate hrange.1 hrange.2 hrule
  simp only [inputAccepted, ackInput, hnew', if_true]
  rcases newAck_cases (p := { p with keepProbes := 0 }) g.ack hkilled with
    ⟨hgo, hsnd⟩ | ⟨hend, k, hsnd⟩
  · rcases hn : newAck { p with keepProbes := 0 } g.ack with ⟨q, ended⟩
    rw [hn] at hgo hsnd
    subst hgo
    obtain ⟨w, hupd, -⟩ := snd_updateWindow q g
    refine Does.after (q := updateWindow q g) ?_
      ((dataInput_does (updateWindow q g) g { b with quiet := false }).congr rfl rfl)
    rw [hupd, hsnd]
    exact hacks.turn rfl rfl w
  · rcases hn : newAck { p with keepProbes := 0 } g.ack with ⟨q, ended⟩
    rw [hn] at hend hsnd
    subst hend
    refine ⟨p.snd.acked g.ack, [], hacks.turn rfl rfl _, (List.append_nil _).symm, ?_⟩
    rw [hsnd]
    exact (Move.close _ k).moves

/-- The segment is not refused before its acknowledgement is looked at. -/
def accepts : Bool :=
  acceptable p g && !(trim p g).flags.rst && !(trim p g).flags.syn && (trim p g).flags.ack

/-- What the rules say of a segment that arrives. -/
structure AllowedInput (R : Rules β) (p : Pcb β) (g : In β) : Prop where
  ack : p.state ≠ .synSent → p.state ≠ .synRcvd → p.state ≠ .timeWait → accepts p g = true →
    isNewAck p (trim p g) = true → R.ack p.snd g.ack
  fast : p.state ≠ .synSent → p.state ≠ .synRcvd → p.state ≠ .timeWait → accepts p g = true →
    isDupAck p (trim p g) = true → p.dupacks = 2 → R.fast p.snd
  opens : p.state = .synRcvd → accepts p g = true → R.opens p.snd g.ack
  synAck : p.state = .synSent → g.flags.ack = true → R.synAck p.snd g.ack

theorem trim_ack : (trim p g).ack = g.ack := by
  unfold trim
  split_ifs <;> rfl

theorem inputAccepted_openSynRcvd (hstate : p.state = .synRcvd) (hbuf : p.sndbuf = [])
    (hlo : seqLt g.ack p.sndUna = false) (hhi : seqGt g.ack p.sndNxt = false)
    (hrule : R.opens p.snd g.ack) : Acts R p b [] (inputAccepted (openSynRcvd p g) g b) := by
  have hnew : isNewAck (openSynRcvd p g) g = false := by
    simp [isNewAck, openSynRcvd, establishedLocked, setSndWnd, seqGt]
  obtain ⟨w, gs, hsegs, hmoves⟩ := inputAccepted_of_old (R := R) (openSynRcvd p g) g b
    (by simp [openSynRcvd, establishedLocked]) hnew (by
    intro _ _ hlen
    exact absurd (by simp [fastLen, openSynRcvd, establishedLocked, setSndWnd, hbuf]) hlen)
  exact ⟨_, gs, .mk _ w p.mss p.pathMss (.opens _ _ hstate hlo hhi hrule) fun h h' => ⟨h, h'⟩,
    hsegs, hmoves⟩

theorem inputAcceptable_acts (hroom : Room p.snd)
    (hstate : p.state ≠ .closed ∧ p.state ≠ .synSent ∧ p.state ≠ .timeWait)
    (hacc : acceptable p g = true) (hallow : AllowedInput R p g) :
    Acts R p b [] (inputAcceptable p (trim p g) g b) := by
  simp only [inputAcceptable]
  split_ifs with hrst hseq hcode hsyn hnoack hold hrcvd hrange
  · exact (challengeAck_does p b).acts
  · exact Does.acts (endLocked_does_of rfl rfl)
  · exact Does.acts (endLocked_does_of rfl rfl)
  · exact (challengeAck_does p b).acts
  · exact (Does.refl p b).acts
  · exact (challengeAck_does p b).acts
  · exact (buildRst_does p b _ _ _ _).acts
  all_goals
    have haccepts : accepts p g = true := by
      simp only [Bool.not_eq_true, Bool.not_eq_false'] at hrst hsyn hnoack
      simp [accepts, hacc, hrst, hsyn, hnoack]
  · have hopens := hallow.opens hrcvd haccepts
    rw [← trim_ack p g] at hopens
    simp only [Bool.or_eq_true, not_or, Bool.not_eq_true] at hrange
    exact inputAccepted_openSynRcvd p (trim p g) b hrcvd (hroom.syn (.inr hrcvd)).2.2.1 hrange.1
      hrange.2 hopens
  · by_cases hnew : isNewAck p (trim p g) = true
    · have hack := hallow.ack hstate.2.1 hrcvd hstate.2.2 haccepts hnew
      rw [← trim_ack p g] at hack
      have hkilled : p.killed = false := by
        cases hk : p.killed with
        | false => rfl
        | true => exact absurd (hroom.killed hk) hstate.1
      exact inputAccepted_of_new p (trim p g) b hnew ⟨hstate.1, hstate.2.1, hrcvd, hstate.2.2⟩
        hkilled hack
    · obtain ⟨w, gs, hsegs, hmoves⟩ := inputAccepted_of_old (R := R) p (trim p g) b hstate.1
        (by simpa using hnew)
        fun hdup hcount _ => hallow.fast hstate.2.1 hrcvd hstate.2.2 haccepts hdup hcount
      exact ⟨_, gs, (Acks.stay _).turn rfl rfl w, hsegs, hmoves⟩

theorem parseMss_pos {mss : Option ℕ} {dflt : ℕ} (h : 0 < dflt) : 0 < parseMss mss dflt := by
  unfold parseMss
  split
  · exact h
  · split_ifs with hmin
    · decide
    · rw [tcpMinMss] at hmin
      omega

theorem inputSynSent_acts (hstate : p.state = .synSent)
    (hrule : g.flags.ack = true → R.synAck p.snd g.ack) : Acts R p b [] (inputSynSent p g b) := by
  have hmss : 0 < p.snd.mss → 0 < p.snd.pathMss →
      0 < min (parseMss g.mss p.mss) p.pathMss ∧ 0 < p.pathMss :=
    fun h h' => ⟨lt_min (parseMss_pos h) h', h'⟩
  simp only [inputSynSent]
  split_ifs with hbad hrst hend hrst' hsyn hack
  · exact (Does.refl p b).acts
  · exact (buildRst_does p b _ _ _ _).acts
  · exact Does.acts (endLocked_does_of rfl rfl)
  · exact (Does.refl p b).acts
  · exact (Does.refl p b).acts
  · simp only [hack, Bool.true_and, Bool.or_eq_true, not_or, Bool.not_eq_true] at hbad
    refine Does.after (q := establishedLocked { takeSyn p g with sndUna := g.ack }) ?_
      (outputLocked_does_of rfl rfl)
    have hacks : Acks R p.snd { p.snd with una := g.ack, state := .established } :=
      .synAck _ g.ack hstate hbad.1 hbad.2 (hrule hack)
    exact .mk _ g.win (min (parseMss g.mss p.mss) p.pathMss) p.pathMss hacks hmss
  · refine Does.after (q := takeSyn p g)
      (.mk _ g.win _ p.pathMss (.stay _) hmss) ?_
    have hrcvd : Does R (takeSyn p g) b [] ({ takeSyn p g with state := .synRcvd }, b) :=
      .move (.synRcvd _ hstate) rfl
    refine hrcvd.andThen ?_
    have hbuild := buildSegment_plain (R := R) { takeSyn p g with state := .synRcvd }
      { takeSyn p g with state := .synRcvd } { b with quiet := false }
      { syn := true, ack := true } p.iss true rfl
    exact (hbuild.congr (p := { takeSyn p g with state := .synRcvd }) (b := b) rfl rfl).andThen
      (.same rfl rfl)

theorem inputTimeWait_does : Does R p b [] (inputTimeWait p g b) := by
  simp only [inputTimeWait]
  split_ifs
  · exact .refl p b
  · exact challengeAck_does p b
  · have hbuild := buildSegment_plain (R := R) p p { b with quiet := false }
      { ack := true } p.sndNxt false rfl
    exact (hbuild.congr (b := b) rfl rfl).andThen (.same rfl rfl)
  · exact .refl p b

theorem inputLocked_acts (hroom : Room p.snd) (hstate : p.state ≠ .closed)
    (hallow : AllowedInput R p g) : Acts R p b [] (inputLocked p g b) := by
  unfold inputLocked
  split_ifs with hsent hwait hacc hrst
  · exact inputSynSent_acts p g b hsent (hallow.synAck hsent)
  · exact (inputTimeWait_does p g b).acts
  · exact (Does.refl p b).acts
  · exact (buildSegment_plain p p b _ _ _ rfl).acts
  · exact inputAcceptable_acts p g b hroom ⟨hstate, hsent, hwait⟩ (by simpa using hacc) hallow

/-- The states in which acknowledgements are taken. -/
def State.synchronized : State → Bool
  | .established | .finWait1 | .finWait2 | .closeWait | .closing | .lastAck => true
  | _ => false

/-- An accepted segment in such a state, with an acknowledgement that is not out of range. -/
theorem perform_accepted (hstate : p.state.synchronized = true) (hacc : accepts p g = true)
    (hlo : seqLt g.ack (p.sndUna - BitVec.ofNat 32 tcpMaxWindow) = false)
    (hhi : seqGt g.ack p.sndMax = false) :
    perform p b (.input g) = inputAccepted p (trim p g) b := by
  simp only [accepts, Bool.and_eq_true, Bool.not_eq_true'] at hacc
  obtain ⟨⟨⟨hok, hrst⟩, hsyn⟩, hack⟩ := hacc
  have hne : p.state ≠ .closed ∧ p.state ≠ .listen ∧ p.state ≠ .synSent ∧ p.state ≠ .timeWait ∧
      p.state ≠ .synRcvd := by
    cases hst : p.state <;> simp_all [State.synchronized]
  obtain ⟨h1, h2, h3, h4, h5⟩ := hne
  simp [perform, inputLocked, inputAcceptable, h1, h2, h3, h4, h5, hok, hrst, hsyn, hack, trim_ack,
    hlo, hhi]

/-! ## The calls of the socket layer -/

/-- The bytes a call takes from the application. -/
def written : Call β → List β
  | .send data => sendTakes p data
  | _ => []

/-- When `send` takes nothing. -/
def refuses : Bool :=
  p.error ≠ 0 || (p.state ≠ .established && p.state ≠ .closeWait) || p.finQueued

end

theorem send_of_refuses (h : refuses p = true) (data : List β) (b : Batch β) :
    (send p data b).2 = (p, b) := by
  simp only [refuses, Bool.or_eq_true] at h
  unfold send
  split_ifs with herr hstate hwhich hfin
  · rfl
  · rfl
  · rfl
  · rfl
  · rcases h with (h | h) | h
    · exact absurd (by simpa using h) herr
    · exact absurd h hstate
    · exact absurd h hfin

theorem send_of_not_refuses (h : refuses p = false) (data : List β) (b : Batch β) :
    (send p data b).2 =
      if min data.length p.sndSpace ≠ 0 then
        outputLocked { p with sndbuf := p.sndbuf ++ data.take (min data.length p.sndSpace) } b
      else ({ p with sndbuf := p.sndbuf ++ data.take (min data.length p.sndSpace) }, b) := by
  simp only [refuses, Bool.or_eq_false_iff, decide_eq_false_iff_not, not_not] at h
  obtain ⟨⟨herr, hstate⟩, hfin⟩ := h
  simp only [send, herr, hstate, hfin, ne_eq, not_true_eq_false, if_false, Bool.false_eq_true]

theorem send_does (p : Pcb β) (data : List β) (b : Batch β) (hlen : p.sndbuf.length ≤ tcpSndbuf) :
    Does R p b (sendTakes p data) (send p data b).2 := by
  cases hr : refuses p with
  | true =>
    have htakes : sendTakes p data = [] := if_pos hr
    rw [htakes, send_of_refuses hr]
    exact .refl p b
  | false =>
    have htakes : sendTakes p data = data.take (min data.length p.sndSpace) := by
      rw [sendTakes, if_neg]
      rw [← refuses, hr]
      decide
    have hspec := hr
    simp only [refuses, Bool.or_eq_false_iff, Bool.and_eq_false_iff, decide_eq_false_iff_not,
      not_not] at hspec
    have hroom : p.sndbuf.length + (data.take (min data.length p.sndSpace)).length ≤
        tcpSndbuf := by
      rw [List.length_take, Pcb.sndSpace]
      omega
    have hwrite : Does R p b (sendTakes p data)
        ({ p with sndbuf := p.sndbuf ++ data.take (min data.length p.sndSpace) }, b) := by
      rw [htakes]
      exact .move (.write _ _ hspec.1.2 hspec.2 hroom) rfl
    rw [send_of_not_refuses hr]
    split_ifs
    · rw [← List.append_nil (sendTakes p data)]
      exact hwrite.trans (outputLocked_does _ b)
    · exact hwrite

theorem recv_does (p : Pcb β) (len : ℕ) (b : Batch β) : Does R p b [] (recv p len b).2.2 := by
  simp only [recv]
  split_ifs
  · exact outputLocked_does_of rfl rfl
  · exact .same rfl rfl
  · exact .refl p b

theorem pmtuNotify_acts (p : Pcb β) (seq : Seq) (mtu overhead : ℕ) (b : Batch β) :
    Acts R p b [] (pmtuNotify p seq mtu overhead b).2 := by
  unfold pmtuNotify
  extract_lets mss q r
  have hpos : 0 < mss := by
    simp only [mss]
    split_ifs <;> omega
  split
  · exact (Does.refl p b).acts
  · rename_i hskip
    simp only [Bool.or_eq_true, decide_eq_true_eq, not_or] at hskip
    obtain ⟨⟨⟨⟨⟨-, hclosed⟩, hwait⟩, hsent⟩, -⟩, -⟩ := hskip
    have hturn : Turn R p.snd q.snd := by
      refine .mk p.snd p.sndWnd (if p.mss > mss then mss else p.mss) mss (.stay _) fun h _ => ?_
      refine ⟨?_, hpos⟩
      split_ifs
      · exact hpos
      · exact h
    have hrestart : Does R q b [] ({ q with sndNxt := q.sndUna, finSent := false }, b) :=
      .move (.restart _ ⟨hclosed, hsent, hwait⟩) rfl
    exact Does.after hturn (hrestart.andThen (outputLocked_does_of rfl rfl))

/-! ## Calls -/

/-- What the rules say of a call, and of the connection before it. -/
structure Allowed (R : Rules β) (p : Pcb β) (call : Call β) : Prop where
  input : ∀ g, call = .input g → AllowedInput R p g
  queueFin : call = .shutdownWrite ∨ call = .close → R.queueFin p.snd
  timer : ∀ t, call = .timer t → R.probe
  probe : p.work.rexmit = true → R.probe

/-- **Every call is a turn and then moves.** -/
theorem perform_acts (p : Pcb β) (b : Batch β) (call : Call β) (hroom : Room p.snd)
    (hallow : Allowed R p call) : Acts R p b (written p call) (perform p b call) := by
  cases call with
  | input g =>
    by_cases hclosed : (p.state = .closed || p.state = .listen) = true
    · simp only [perform, hclosed, if_true]
      exact (Does.refl p b).acts
    · simp only [perform, hclosed]
      simp only [Bool.or_eq_true, decide_eq_true_eq, not_or] at hclosed
      exact inputLocked_acts p g b hroom hclosed.1 (hallow.input g rfl)
  | timer t => exact (does_way.kick p b t (hallow.timer t rfl)).acts
  | work idle cnt => exact (does_way.works p b idle cnt hallow.probe).acts
  | send data => exact (send_does p data b hroom.len_le).acts
  | recv len => exact (recv_does p len b).acts
  | shutdownWrite => exact (does_way.shutdown p b (hallow.queueFin (.inl rfl))).acts
  | close => exact (does_way.closes p b (hallow.queueFin (.inr rfl))).acts
  | pmtuNotify seq mtu overhead => exact pmtuNotify_acts p seq mtu overhead b
  | outputResult refused => exact (does_way.result p b refused).acts
  | accept =>
    have hsame : Does R p b [] ({ p with sock := true }, b) := .same rfl rfl
    exact hsame.acts

end CosmoOS.Network.Tcp
