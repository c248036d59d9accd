import CosmoOS.Network.TcpQueue

/-!
# Calls that receive nothing

Only a segment's data and `recv` change what a connection has received.  Every other call leaves
the receiving side as it is, or empties the queue because the connection has ended (`Kept`).  The
states go `Onward`: a connection that has taken its peer's FIN, or ended, never again takes data.
-/

namespace CosmoOS.Network.Tcp

variable {β : Type} {p q : Pcb β}

/-! ## The states -/

/-- The peer has closed, or the connection has ended. -/
def State.late : State → Bool
  | .closed | .closeWait | .closing | .lastAck | .timeWait => true
  | _ => false

/-- The handshake is behind. -/
def State.past (st : State) : Bool := st.takes || st.late

/-- The peer's SYN has been taken. -/
def State.begun : State → Bool
  | .synSent | .listen => false
  | _ => true

/-- **A connection goes on from a state to another.** -/
structure Onward (st st' : State) : Prop where
  late : st.late = true → st'.late = true
  past : st.past = true → st'.past = true
  begun : st.begun = true → st'.begun = true

instance (st st' : State) : Decidable (Onward st st') :=
  decidable_of_iff ((st.late = true → st'.late = true) ∧ (st.past = true → st'.past = true) ∧
      (st.begun = true → st'.begun = true))
    ⟨fun h => ⟨h.1, h.2.1, h.2.2⟩, fun h => ⟨h.late, h.past, h.begun⟩⟩

theorem Onward.refl (st : State) : Onward st st := ⟨id, id, id⟩

theorem Onward.end (st : State) : Onward st .closed := ⟨fun _ => rfl, fun _ => rfl, fun _ => rfl⟩

theorem Onward.trans {a b c : State} (h : Onward a b) (h' : Onward b c) : Onward a c :=
  ⟨h'.late ∘ h.late, h'.past ∘ h.past, h'.begun ∘ h.begun⟩

/-! ## What leaves the receiving side alone -/

/-- **What a call does to the receiving side** when it takes nothing and returns nothing: the queue
may be emptied, at the end of the connection. -/
structure Kept (p q : Pcb β) : Prop where
  rcv : q.rcv = p.rcv ∨ q.rcv = { p.rcv with ooo := [], oooBytes := 0 }
  state : Onward p.state q.state

theorem Kept.same (hrcv : q.rcv = p.rcv) (hstate : q.state = p.state) : Kept p q :=
  ⟨.inl hrcv, by rw [hstate]; exact .refl _⟩

theorem Kept.goes (st st' : State) (hrcv : q.rcv = p.rcv) (hp : p.state = st)
    (hq : q.state = st') (h : Onward st st') : Kept p q :=
  ⟨.inl hrcv, by rw [hp, hq]; exact h⟩

theorem Kept.trans {r : Pcb β} (h : Kept p q) (h' : Kept q r) : Kept p r := by
  refine ⟨?_, h.state.trans h'.state⟩
  rcases h'.rcv with hr | hr
  · rw [hr]
    exact h.rcv
  · refine .inr ?_
    rw [hr]
    rcases h.rcv with hq | hq <;> rw [hq]

theorem rcv_outputLocked (p : Pcb β) (b : Batch β) : (outputLocked p b).1.rcv = p.rcv := by
  have h := congrArg Pcb.rcv (still_outputLocked p b)
  exact h

theorem Kept.output {b : Batch β} (h : Kept p q) : Kept p (outputLocked q b).1 :=
  h.trans (.same (rcv_outputLocked q b) (state_outputLocked q b))

theorem OwnFin.onward {s : Snd β} {st : State} (h : OwnFin s st) : Onward s.state st := by
  cases h with
  | finWait1 h => rcases h with h | h <;> rw [h] <;> decide
  | lastAck h =>
    rw [h]
    decide

/-- **What the small changes leave of the receiving side.** -/
theorem kept_way : TimedWay ({} : Rules β) fun x y => Kept x.1 y.1 where
  trans := Kept.trans
  same hidle _ := .same (congrArg Pcb.rcv hidle :) (congrArg Pcb.state hidle :)
  plain _ _ _ _ := .same rfl rfl
  output p b := .same (rcv_outputLocked p b) (state_outputLocked p b)
  close _ _ _ := ⟨.inr rfl, .end _⟩
  error _ _ _ _ := .same rfl rfl
  queueFin _ _ hfin _ := ⟨.inl rfl, hfin.onward⟩
  restart _ _ := .same rfl rfl
  work _ _ _ _ := .same rfl rfl
  count _ _ _ _ := .same rfl rfl

theorem endLocked_kept (h : Kept p q) : Kept p (endLocked q) := h.trans (kept_way.ends q {})

theorem orphanFinWait2_kept (h : Kept p q) : Kept p (orphanFinWait2 q) :=
  h.trans (kept_way.orphan q {})

theorem send_kept (p : Pcb β) (data : List β) (b : Batch β) : Kept p (send p data b).2.1 := by
  simp only [send]
  split_ifs
  · exact .same rfl rfl
  · exact .same rfl rfl
  · exact .same rfl rfl
  · exact .same rfl rfl
  · exact .output (.same rfl rfl)
  · exact .same rfl rfl

theorem pmtuNotify_kept (p : Pcb β) (seq : Seq) (mtu overhead : ℕ) (b : Batch β) :
    Kept p (pmtuNotify p seq mtu overhead b).2.1 := by
  unfold pmtuNotify
  extract_lets mss q
  split
  · exact .same rfl rfl
  · exact .output (.same rfl rfl)

/-- **Every call but `recv` and a segment leaves the receiving side alone.** -/
theorem perform_kept (p : Pcb β) (b : Batch β) (call : Call β) (hinput : ∀ g, call ≠ .input g)
    (hrecv : ∀ len, call ≠ .recv len) : Kept p (perform p b call).1 := by
  cases call with
  | input g => exact absurd rfl (hinput g)
  | timer t => exact kept_way.kick p b t True.intro
  | work idle cnt => exact kept_way.works p b idle cnt fun _ => True.intro
  | send data => exact send_kept p data b
  | recv len => exact absurd rfl (hrecv len)
  | shutdownWrite => exact kept_way.shutdown p b True.intro
  | close => exact kept_way.closes p b True.intro
  | pmtuNotify seq mtu overhead => exact pmtuNotify_kept p seq mtu overhead b
  | outputResult refused => exact kept_way.result p b refused
  | accept => exact .same rfl rfl

end CosmoOS.Network.Tcp
