import CosmoOS.Network.TcpRuns

/-!
# What has been sent, and what may be

* `snd_max` is beyond everything that has been transmitted, so that an acknowledgement of it is
  never refused.  The output raises `snd_max` with every segment; a fast retransmit does not, and
  sends again from `snd_una` as much as one segment holds, whether or not that has been sent before.
* No data go beyond the peer's window, but for the one-byte probe of a closed one.  The output looks
  at the window; a fast retransmit does not.

Both hold in every run in which a fast retransmit is within the bound (`FastCounted`,
`FastInWindow`), and both fail with the same one: a probe into a closed window, answered three
times, is followed by a whole segment.
-/

namespace CosmoOS.Network.Tcp

open Lib.Serial List

variable {β : Type} {R : Rules β} {s t : Snd β} {gs : List (Seg β)} {ds : List β}

variable {call : Call β} {p : Pcb β} {g : Seg β} {w : Conn β} {expired : Prop}

/-! ## What moves leave -/

theorem una_move (hm : Move R s gs ds t) : t.una = s.una := by
  cases hm <;> rfl

theorem una_moves (hm : Moves R s gs ds t) : t.una = s.una := by
  induction hm with
  | refl s => rfl
  | head hm _ ih => rw [ih, una_move hm]

theorem top_acks (hroom : Room s) (ht : Acks R s t) : t.top = s.top - ahead s.una t.una := by
  cases ht with
  | stay => rw [ahead_self, Nat.sub_zero]
  | ack a hstate hlo hhi hr => exact Room.top_acked (hroom.ack_range hlo hhi).2
  | opens a hstate hlo hhi hr =>
    exact ahead_rebase (le_trans (hroom.opens_range hlo hhi) hroom.off_le)
  | synAck a hstate hlo hhi hr =>
    refine ahead_rebase ?_
    obtain ⟨huna, hhigh, -⟩ := hroom.syn (.inl hstate)
    rw [hroom.synAck_eq hstate hlo hhi, hhigh]

theorem top_turn (hroom : Room s) (ht : Turn R s t) : t.top = s.top - ahead s.una t.una := by
  obtain ⟨t, wnd, mss, pathMss, hacks, -⟩ := ht
  have htop : t.top = s.top - ahead s.una t.una := top_acks hroom hacks
  exact htop

theorem top_move (hroom : Room s) (hm : Move R s gs ds t) : s.top ≤ t.top := by
  have hlen := hroom.len_le
  rw [tcpSndbuf] at hlen
  cases hm with
  | data n g hstate hpos hin hmss hwnd hseq hdata hfin =>
    rw [Room.top_advance hroom.top_lt (by omega)]
    exact le_max_left _ _
  | fin g hstate hqueued hsent hoff hseq hdata =>
    have htop := Room.top_advance (n := 1) hroom.top_lt (by omega)
    exact le_of_le_of_eq (le_max_left _ _) htop.symm
  | _ => exact le_of_eq rfl

/-! ## `snd_max` -/

/-- A fast retransmit, when the segment brings one, repeats only what `snd_max` counts. -/
def FastCounted (p : Pcb β) (call : Call β) : Prop :=
  ∀ g, call = .input g → accepts p g = true → isDupAck p (trim p g) = true → p.dupacks = 2 →
    fastLen p ≤ (p.sndMax - p.sndUna).toNat

def countedRules : Rules β where
  fast s := min s.buf.length s.mss ≤ s.top

theorem FastCounted.allowed (h : FastCounted p call) : Allowed countedRules p call where
  __ := Allowed.trivial p call
  input g hg := { (Allowed.trivial p call).input g hg with fast := fun _ _ _ => h g hg }

theorem Seg.reach_le (una : Seq) (g : Seg β) :
    g.reach una ≤ ahead una g.seq + g.data.length + 1 := by
  unfold Seg.reach
  split_ifs <;> omega

theorem Seg.reach_le_of_data (una : Seq) (hfin : g.flags.fin = false) :
    g.reach una ≤ ahead una g.seq + g.data.length := by
  simp only [Seg.reach, hfin, Bool.false_eq_true, if_false, Nat.add_zero]
  split_ifs
  · exact Nat.zero_le _
  · exact le_of_eq rfl

theorem reach_move (hroom : Room s) (hm : Move countedRules s gs ds t) :
    ∀ g ∈ gs, g.reach t.una ≤ t.top := by
  have hlen := hroom.len_le
  rw [tcpSndbuf] at hlen
  intro g hg
  cases hm with
  | plain g' hplain =>
    rw [mem_singleton.mp hg]
    simp [Seg.reach, hplain.1, hplain.2]
  | data n g' hstate hpos hin hmss hwnd hseq hdata hfin =>
    rw [mem_singleton.mp hg, Room.top_advance hroom.top_lt (by omega)]
    have hn : g'.data.length ≤ n := by
      rw [hdata, length_take]
      exact min_le_left _ _
    have hreach : g'.reach s.una ≤ s.off + n := by
      refine le_trans (Seg.reach_le_of_data s.una hfin) ?_
      rw [hseq]
      exact Nat.add_le_add_left hn _
    exact le_trans hreach (le_max_right _ _)
  | fin g' hstate hqueued hsent hoff hseq hdata =>
    rw [mem_singleton.mp hg]
    have htop := Room.top_advance (n := 1) hroom.top_lt (by omega)
    have hreach : g'.reach s.una ≤ s.off + 1 := by
      refine le_trans (Seg.reach_le s.una g') (le_of_eq ?_)
      rw [hseq, hdata]
      rfl
    exact le_trans hreach (le_of_le_of_eq (le_max_right _ _) htop.symm)
  | fast g' hstate hrule hseq hdata hfin =>
    rw [mem_singleton.mp hg]
    have hn : g'.data.length ≤ min s.buf.length s.mss := by
      rw [hdata, length_take]
      exact min_le_left _ _
    have hrule' : min s.buf.length s.mss ≤ s.top := hrule
    refine le_trans (Seg.reach_le_of_data s.una hfin) ?_
    rw [hseq, ahead_self, Nat.zero_add]
    exact le_trans hn hrule'
  | restart | write | queueFin | peerFin | synRcvd | probe | close => cases hg

theorem foldr_max_le {l : List ℕ} {a n : ℕ} (ha : a ≤ n) (hl : ∀ x ∈ l, x ≤ n) :
    l.foldr max a ≤ n := by
  induction l with
  | nil => exact ha
  | cons x l ih =>
    refine max_le (hl x (mem_cons_self ..)) (ih fun y hy => hl y ?_)
    exact mem_cons_of_mem _ hy

theorem reach_step {w' : Conn β} (hroom : Room w.pcb.snd) (h : w.reach ≤ w.pcb.snd.top)
    (hs : Step FastCounted w gs w') : w'.reach ≤ w'.pcb.snd.top := by
  cases hs with
  | call b call hb hc =>
    obtain ⟨s, gs, hturn, hmoves, hsent⟩ :=
      perform_turn countedRules w.pcb call hb hroom hc.allowed
    have hroom' := hroom.turn hturn
    have huna : (perform w.pcb b call).1.sndUna = s.una := una_moves hmoves
    have hmono := hmoves.invariant (P := fun _ u => Room u ∧ s.top ≤ u.top)
      (fun _ _ _ _ _ h hm => ⟨h.1.move hm, le_trans h.2 (top_move h.1 hm)⟩) w.app
      ⟨hroom', le_of_eq rfl⟩
    have hsegs := hmoves.each (P := fun _ s => Room s) (Q := fun _ s g => g.reach s.una ≤ s.top)
      (fun _ _ _ _ _ h hm => h.move hm) (fun _ _ _ _ _ h hm => reach_move h hm)
      (fun _ _ _ _ _ g h hm hq => by
        rw [una_move hm]
        exact le_trans hq (top_move h hm)) w.app hroom'
    refine foldr_max_le ?_ ?_
    · rw [huna]
      refine le_trans ?_ hmono.2
      rw [top_turn hroom hturn]
      exact Nat.sub_le_sub_right h _
    · intro x hx
      obtain ⟨g, hg, rfl⟩ := mem_map.mp hx
      exact hsegs g (hsent hg)

theorem Runs.reach_le (h : Runs FastCounted w) : w.reach ≤ w.pcb.snd.top := by
  refine h.invariant ?_ fun _ _ _ hroom hw hs => reach_step hroom hw hs
  intro w hw
  cases hw <;> exact Nat.zero_le _

/-- **`snd_max` is beyond everything transmitted.**  In every run whose fast retransmits repeat
only what `snd_max` counts: `snd_una`, `snd_nxt` and `snd_max` are in order; everything that has
been transmitted is before `snd_max`; and no acknowledgement of a number up to the end of what has
been transmitted is beyond it. -/
theorem transmitted_below_sndMax (w : Conn β) (h : Runs FastCounted w) :
    seqLeq w.pcb.sndUna w.pcb.sndNxt = true ∧ seqLeq w.pcb.sndNxt w.pcb.sndMax = true ∧
      w.reach ≤ ahead w.pcb.sndUna w.pcb.sndMax ∧
      ∀ k ≤ w.reach, seqGt (w.pcb.sndUna + BitVec.ofNat 32 k) w.pcb.sndMax = false := by
  have hroom := h.room
  have hreach := h.reach_le
  have hoff := hroom.off_lt
  have htop := hroom.top_lt
  have hle := hroom.off_le
  simp only [Snd.off, Snd.top, Pcb.snd] at hoff htop hle hreach
  have hself := ahead_self w.pcb.sndUna
  refine ⟨?_, ?_, hreach, fun k hk => ?_⟩
  · rw [seqLeq, toInt_sub_eq w.pcb.sndUna (by omega) hoff, decide_eq_true_eq]
    omega
  · rw [seqLeq, toInt_sub_eq w.pcb.sndUna hoff htop, decide_eq_true_eq]
    omega
  · have hahead := ahead_base_add w.pcb.sndUna (n := k) (by omega)
    rw [seqGt, toInt_sub_eq w.pcb.sndUna (by omega) htop, decide_eq_false_iff_not]
    omega

/-- Two bytes are sent, and the peer acknowledges twice that it does not have them. -/
def twiceConn : Conn ℕ :=
  ((openConn.next {} (.send [7, 8])).next {} (.input (ackSegment 1 1000))).next {}
    (.input (ackSegment 1 1000))

theorem twiceConn_runs {C : Pcb ℕ → Call ℕ → Prop}
    (hC : ∀ p call, (∀ g, call = .input g → p.dupacks ≠ 2) → C p call) : Runs C twiceConn := by
  have h₁ := (openConn_runs C).step (.call _ {} (.send [7, 8]) rfl (hC _ _ fun g hg => by cases hg))
  have h₂ := h₁.step (.call _ {} (.input (ackSegment 1 1000)) rfl (hC _ _ fun _ _ => by decide))
  exact h₂.step (.call _ {} (.input (ackSegment 1 1000)) rfl (hC _ _ fun _ _ => by decide))

/-- The third acknowledgement has the two bytes sent again, and `snd_max` counts them. -/
theorem transmitted_below_sndMax_twiceConn :
    ((perform twiceConn.pcb {} (.input (ackSegment 1 1000))).2.sent.map fun g => g.data) =
      [[7, 8]] ∧
      (twiceConn.next {} (.input (ackSegment 1 1000))).reach = 2 ∧
      (twiceConn.next {} (.input (ackSegment 1 1000))).reach ≤
        ahead (twiceConn.next {} (.input (ackSegment 1 1000))).pcb.sndUna
          (twiceConn.next {} (.input (ackSegment 1 1000))).pcb.sndMax := by
  have hruns : Runs FastCounted twiceConn :=
    twiceConn_runs fun p call h g hg _ _ hdup => absurd hdup (h g hg)
  have hrun : Runs FastCounted (twiceConn.next {} (.input (ackSegment 1 1000))) := by
    refine hruns.step (.call _ {} (.input (ackSegment 1 1000)) rfl ?_)
    rintro g hg
    cases hg
    decide
  exact ⟨by decide, by decide, (transmitted_below_sndMax _ hrun).2.2.1⟩

/-! ## A fast retransmit after a probe -/

/-- A connection whose peer has closed its window. -/
def shutConn : Conn ℕ :=
  ⟨child 0 99 1460 1460
    { seq := 100, ack := 1, data := [], win := 0, flags := { ack := true }, mss := none }, [], 0⟩

/-- The peer's acknowledgement of `ack`, with the window still closed. -/
def shutAck (ack : Seq) : In ℕ :=
  { seq := 100, ack := ack, data := [], win := 0, flags := { ack := true }, mss := none }

/-- Ten bytes are written, the timer probes the window with the first, and the peer answers the
probe twice without taking the byte. -/
def probedConn : Conn ℕ :=
  ((((shutConn.next {} (.send (List.replicate 10 7))).next {} (.timer .rexmit)).next {}
    (.work false 0)).next {} (.input (shutAck 1))).next {} (.input (shutAck 1))

/-- The third answer brings the fast retransmit. -/
def repeatedConn : Conn ℕ := probedConn.next {} (.input (shutAck 1))

theorem probedConn_runs : Runs (fun _ _ => True) probedConn := by
  have h₀ : Runs (fun _ _ => True) shutConn :=
    Lib.Reachable.init (.child 0 99 1460 1460 _ rfl (by decide))
  have h₁ := h₀.step (.call _ {} (.send (List.replicate 10 7)) rfl True.intro)
  have h₂ := h₁.step (.call _ {} (.timer .rexmit) rfl True.intro)
  have h₃ := h₂.step (.call _ {} (.work false 0) rfl True.intro)
  have h₄ := h₃.step (.call _ {} (.input (shutAck 1)) rfl True.intro)
  exact h₄.step (.call _ {} (.input (shutAck 1)) rfl True.intro)

/-- All ten bytes have been transmitted, `snd_max` counts one, and the acknowledgement of the ten
is refused. -/
theorem fast_retransmit_uncounted :
    Runs (fun _ _ => True) repeatedConn ∧ repeatedConn.reach = 10 ∧
      ahead repeatedConn.pcb.sndUna repeatedConn.pcb.sndMax = 1 ∧
      seqGt (repeatedConn.pcb.sndUna + 10) repeatedConn.pcb.sndMax = true ∧
      (perform repeatedConn.pcb {}
        (.input (shutAck (repeatedConn.pcb.sndUna + 10)))).1 = repeatedConn.pcb := by
  refine ⟨?_, by decide, by decide, by decide, by decide⟩
  exact probedConn_runs.step (.call _ {} (.input (shutAck 1)) rfl True.intro)

/-! ## The peer's window -/

/-- A fast retransmit, when the segment brings one, is inside the peer's window. -/
def FastInWindow (p : Pcb β) (call : Call β) : Prop :=
  ∀ g, call = .input g → accepts p g = true → isDupAck p (trim p g) = true → p.dupacks = 2 →
    fastLen p ≤ p.sndWnd

/-- A fast retransmit is inside the window, and the timer's bit is set only when it has expired. -/
def windowRules (expired : Prop) : Rules β where
  fast s := min s.buf.length s.mss ≤ s.wnd
  probe := expired

theorem FastInWindow.allowed (h : FastInWindow p call) :
    Allowed (windowRules (p.work.rexmit = true ∨ ∃ t, call = .timer t)) p call where
  __ := Allowed.trivial p call
  input g hg := { (Allowed.trivial p call).input g hg with fast := fun _ _ _ => h g hg }
  timer t ht := .inr ⟨t, ht⟩
  probe := .inl

/-- The data of a segment are no longer than the segment size, and inside the window unless they
are the probe's one byte. -/
def InWindow (expired : Prop) (s : Snd β) (g : Seg β) : Prop :=
  g.data = [] ∨ (g.data.length ≤ s.mss ∧ (ahead s.una g.seq + g.data.length ≤ s.wnd ∨
    (g.data.length = 1 ∧ g.seq = s.una ∧ s.wnd = 0 ∧ expired)))

/-- What is kept while a call builds its segments. -/
structure Probes (expired : Prop) (s : Snd β) : Prop where
  mss_pos : 0 < s.mss
  probing : s.probing = true → expired

theorem Probes.move (h : Probes expired s)
    (hm : Move (windowRules expired) s gs ds t) : Probes expired t := by
  cases hm with
  | probe b hrule => exact ⟨h.mss_pos, hrule⟩
  | _ => exact ⟨h.mss_pos, h.probing⟩

theorem InWindow.move (h : InWindow expired s g)
    (hm : Move (windowRules expired) s gs ds t) : InWindow expired t g := by
  cases hm <;> exact h

theorem InWindow.of_move (h : Probes expired s)
    (hm : Move (windowRules expired) s gs ds t) : ∀ g ∈ gs, InWindow expired s g := by
  intro g hg
  cases hm with
  | plain g' hplain =>
    rw [mem_singleton.mp hg]
    exact .inl hplain.1
  | data n g' hstate hpos hin hmss hwnd hseq hdata hfin =>
    rw [mem_singleton.mp hg]
    have hn : g'.data.length = n := by
      rw [hdata, length_take, length_drop]
      omega
    refine .inr ⟨?_, ?_⟩
    · have := h.mss_pos
      omega
    · rw [hn, hseq]
      refine hwnd.imp id ?_
      rintro ⟨hone, hoff, hzero, hprobe⟩
      refine ⟨hone, ?_, hzero, h.probing hprobe⟩
      exact ahead_inj s.una (hoff.trans (ahead_self s.una).symm)
  | fin g' hstate hqueued hsent hoff hseq hdata =>
    rw [mem_singleton.mp hg]
    exact .inl hdata
  | fast g' hstate hrule hseq hdata hfin =>
    rw [mem_singleton.mp hg]
    have hrule' : min s.buf.length s.mss ≤ s.wnd := hrule
    have hn : g'.data.length ≤ min s.buf.length s.mss := by
      rw [hdata, length_take]
      exact min_le_left _ _
    refine .inr ⟨le_trans hn (min_le_right _ _), .inl ?_⟩
    rw [hseq, ahead_self, Nat.zero_add]
    exact le_trans hn hrule'
  | restart | write | queueFin | peerFin | synRcvd | probe | close => cases hg

def Sized (s : Snd β) : Prop := 0 < s.mss ∧ 0 < s.pathMss

theorem Sized.turn (h : Sized s) (ht : Turn R s t) : Sized t := by
  obtain ⟨t, wnd, mss, pathMss, -, hmss⟩ := ht
  exact hmss h.1 h.2

theorem Sized.moves (h : Sized s) (hm : Moves R s gs ds t) : Sized t := by
  induction hm with
  | refl s => exact h
  | head hm _ ih => exact ih (by cases hm <;> exact h)

theorem Runs.sized {C : Pcb β → Call β → Prop} (h : Runs C w) : Sized w.pcb.snd := by
  refine h.invariant (P := fun w => Sized w.pcb.snd) ?_ ?_
  · intro w hw
    cases hw with
    | connect q iss pathMss b hstate hkilled hmss => exact ⟨hmss, hmss⟩
    | child iss irs peerMss pathMss g hack hmss =>
      refine ⟨?_, hmss.2⟩
      have hmin : 0 < if peerMss < pathMss then peerMss else pathMss := by
        split_ifs
        · exact hmss.1
        · exact hmss.2
      exact hmin
  · intro w gs w' hroom hw hs
    cases hs with
    | call b call hb hc =>
      obtain ⟨s, gs, hturn, hmoves, -⟩ := perform_turn {} w.pcb call hb hroom (.trivial _ _)
      exact (hw.turn hturn).moves hmoves

theorem probing_turn (ht : Turn R s t) : t.probing = s.probing := by
  obtain ⟨t, wnd, mss, pathMss, hacks, -⟩ := ht
  cases hacks <;> rfl

/-- **No data beyond the window.**  In every run whose fast retransmits are inside the peer's
window, and for every further call: no segment carries more than `mss` bytes, and the last byte of
each is within `snd_wnd` of `snd_una`, but for the one byte at `snd_una` that is sent into a closed
window when the retransmission timer has expired. -/
theorem data_in_window (w : Conn β) (h : Runs FastInWindow w) (b : Batch β) (hb : b.segs = [])
    (call : Call β) (hc : FastInWindow w.pcb call) :
    ∀ g ∈ (perform w.pcb b call).2.sent, g.data = [] ∨
      (g.data.length ≤ (w.next b call).pcb.mss ∧
        (ahead (w.next b call).pcb.sndUna g.seq + g.data.length ≤ (w.next b call).pcb.sndWnd ∨
          (g.data.length = 1 ∧ g.seq = (w.next b call).pcb.sndUna ∧
            (w.next b call).pcb.sndWnd = 0 ∧ w.pcb.work.rexmit = true))) := by
  obtain ⟨s, gs, hturn, hmoves, hsent⟩ := perform_turn _ w.pcb call hb h.room hc.allowed
  have hprobes : Probes (w.pcb.work.rexmit = true ∨ ∃ t, call = .timer t) s := by
    refine ⟨(h.sized.turn hturn).1, fun hp => .inl ?_⟩
    rw [probing_turn hturn] at hp
    exact hp
  have hsegs := hmoves.each (P := fun _ s => Probes _ s) (Q := fun _ s g => InWindow _ s g)
    (fun _ _ _ _ _ h hm => h.move hm)
    (fun _ _ _ _ _ h hm g hg => (InWindow.of_move h hm g hg).move hm)
    (fun _ _ _ _ _ _ _ hm hq => hq.move hm) w.app hprobes
  intro g hg
  refine (hsegs g (hsent hg)).imp id ?_
  rintro ⟨hmss, hwnd⟩
  refine ⟨hmss, hwnd.imp id ?_⟩
  rintro ⟨hone, hseq, hzero, hexp | ⟨t, rfl⟩⟩
  · exact ⟨hone, hseq, hzero, hexp⟩
  · -- the timer itself transmits nothing
    have hnone : (perform w.pcb b (.timer t)).2.sent = [] := by
      simp [perform, Batch.sent, hb]
    rw [hnone] at hg
    cases hg

/-- The fast retransmit of the two bytes is inside the window. -/
theorem data_in_window_twiceConn :
    ((perform twiceConn.pcb {} (.input (ackSegment 1 1000))).2.sent.map fun g => g.data) =
      [[7, 8]] ∧
    ∀ g ∈ (perform twiceConn.pcb {} (.input (ackSegment 1 1000))).2.sent, g.data = [] ∨
      (g.data.length ≤ (twiceConn.next {} (.input (ackSegment 1 1000))).pcb.mss ∧
        (ahead (twiceConn.next {} (.input (ackSegment 1 1000))).pcb.sndUna g.seq + g.data.length ≤
            (twiceConn.next {} (.input (ackSegment 1 1000))).pcb.sndWnd ∨
          (g.data.length = 1 ∧ g.seq = (twiceConn.next {} (.input (ackSegment 1 1000))).pcb.sndUna ∧
            (twiceConn.next {} (.input (ackSegment 1 1000))).pcb.sndWnd = 0 ∧
            twiceConn.pcb.work.rexmit = true))) := by
  have hruns : Runs FastInWindow twiceConn :=
    twiceConn_runs fun p call h g hg _ _ hdup => absurd hdup (h g hg)
  refine ⟨by decide, data_in_window twiceConn hruns {} rfl (.input (ackSegment 1 1000))
    fun g hg => ?_⟩
  cases hg
  decide

/-- The window is closed, and ten bytes are transmitted into it. -/
theorem fast_retransmit_into_closed_window :
    Runs (fun _ _ => True) probedConn ∧
      ((perform probedConn.pcb {} (.input (shutAck 1))).2.sent.map fun g => g.data.length) = [10] ∧
      probedConn.pcb.sndWnd = 0 ∧
      (perform probedConn.pcb {} (.input (shutAck 1))).1.sndWnd = 0 :=
  ⟨probedConn_runs, by decide, by decide, by decide⟩

end CosmoOS.Network.Tcp
