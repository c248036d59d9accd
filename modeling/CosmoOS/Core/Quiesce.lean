import CosmoOS.Lib.Transition
import Mathlib.Algebra.Group.Nat.Defs
import Mathlib.Data.List.Basic
import Mathlib.Logic.Function.Basic
import Mathlib.Order.Nat

/-!
# Quiescence

`quiesce_core.h` and `quiesce.cee`: an object that readers may hold without a lock is freed only
after a *grace period*, in which every processor has been outside every read section.  A waiter
advances the epoch; a processor at a quiescent point loads the epoch and publishes it as seen; the
waiter is done when every processor that was online has published its epoch or a later one.

## The steps

Each load and each store is a step of its own:

* a processor opens and closes read sections, nested, while it is online;
* a publication is a load of the epoch and, later, an exchange.  In the idle loop a handler may run
  between the two, with sections and publications of its own; so the epochs a processor has loaded
  and not yet published are a stack, and `seen_epoch` may go back;
* a processor comes online by a publication and then its flag (`sched_start_cpu`), after
  `quiesce_init`; until then only the boot processor is online;
* a waiter advances the epoch, reads the processors' flags one by one, publishes for its own
  processor, and reads the epochs seen and the flags again until nothing is pending.
  `synchronize_quiesce` asserts that it is called outside every read section of its processor;
* the callback worker takes the whole list, waits for a grace period, turns the list around and
  runs the callbacks.  A head may be submitted again from the moment its callback starts.

The loop's waits and kicks, time stamps and counters are left out.

## What is proved

The invariant of a waiter with the target `T`: whatever epoch from `T` on a processor has published,
**or has loaded and is about to publish**, the sections open there at the call have ended (`Ended`),
for the load came after the advance, when no section was open.
-/

namespace CosmoOS.Core.Quiesce

open Function List

/-- `QUIESCE_MAX_CPUS`. -/
def maxCpus : Nat := 64

/-! ## Processors -/

/-- A processor on its way up: not started, publishing, published, online. -/
inductive Power where
  | off
  | publishing
  | published
  | online
deriving DecidableEq, Repr

/-- A processor: the read sections open on it, innermost first, the epochs loaded for a publication
that is not yet made, and `seen_epoch`. -/
structure Cpu where
  power : Power
  sections : List Nat
  loads : List Nat
  seen : Nat
deriving DecidableEq, Repr

/-! ## Waiters and the worker -/

/-- Where a call of `synchronize_quiesce` is. -/
inductive Phase where
  | idle
  | called
  | sampling (target i : Nat) (online : Nat → Bool)
  | own (target : Nat) (online : Nat → Bool)
  | ownLoaded (target : Nat) (online : Nat → Bool) (cpu : Nat)
  | scanning (target : Nat) (online : Nat → Bool) (i : Nat) (pending : Nat → Bool)
  | masking (target : Nat) (online : Nat → Bool) (i : Nat) (pending : Nat → Bool)
  | returned

/-- The epoch a call waits for, 0 where it has none. -/
def Phase.target : Phase → Nat
  | .sampling target _ _ => target
  | .own target _ => target
  | .ownLoaded target _ _ => target
  | .scanning target _ _ _ => target
  | .masking target _ _ _ => target
  | .idle => 0
  | .called => 0
  | .returned => 0

def Phase.busy : Phase → Bool
  | .idle => false
  | .returned => false
  | _ => true

/-- A waiter, with the read sections that were open on each processor when it called. -/
structure Waiter where
  phase : Phase
  opened : Nat → List Nat

/-- A submission: the head and its callback. -/
structure Entry (Head Fn : Type) where
  head : Head
  callback : Fn
deriving DecidableEq, Repr

/-- Where the worker is, with the batch it took; `began` is the number of submissions made when it
called `synchronize_quiesce`. -/
inductive Worker (Head Fn : Type) where
  | waiting
  | swapped (batch : List (Entry Head Fn))
  | syncing (batch : List (Entry Head Fn)) (began : Nat)
  | running (ordered : List (Entry Head Fn)) (began : Nat)

/-- Everything.  The worker's own waiter is `none`.  `submitted` and `ran` record what was submitted
and run so far, `ran` with the `began` of the grace period that was waited for. -/
structure System (Thread Head Fn : Type) where
  epoch : Nat
  ready : Bool
  nextSection : Nat
  cpu : Nat → Cpu
  waiter : Option Thread → Waiter
  cbHead : List (Entry Head Fn)
  cbPending : Nat
  pending : Head → Bool
  worker : Worker Head Fn
  submitted : List (Entry Head Fn)
  ran : List (Entry Head Fn × Nat)

variable {Thread Head Fn : Type}

/-- The loop that turns the batch around. -/
def orderBatch : List (Entry Head Fn) → List (Entry Head Fn) → List (Entry Head Fn)
  | [], ordered => ordered
  | h :: batch, ordered => orderBatch batch (h :: ordered)

theorem orderBatch_eq (batch ordered : List (Entry Head Fn)) :
    orderBatch batch ordered = batch.reverse ++ ordered := by
  induction batch generalizing ordered with
  | nil => rfl
  | cons h batch ih => rw [orderBatch, ih, reverse_cons, append_assoc]; rfl

namespace System

variable [DecidableEq Thread]

section

variable (w : System Thread Head Fn) (t : Option Thread) (p : Phase)

/-- `cpu_online`. -/
def isOnline (c : Nat) : Bool := (w.cpu c).power == .online

def setCpu (c : Nat) (k : Cpu) : System Thread Head Fn :=
  { w with cpu := update w.cpu c k }

def setPhase : System Thread Head Fn :=
  { w with waiter := update w.waiter t { w.waiter t with phase := p } }

/-- A call of `synchronize_quiesce` begins. -/
def enter : System Thread Head Fn :=
  { w with waiter := update w.waiter t ⟨.called, fun c => (w.cpu c).sections⟩ }

theorem setPhase_self : (w.setPhase t p).waiter t = { w.waiter t with phase := p } :=
  update_self t _ w.waiter

theorem setPhase_of_ne {t u : Option Thread} (h : u ≠ t) (p : Phase) :
    (w.setPhase t p).waiter u = w.waiter u :=
  update_of_ne h _ w.waiter

theorem enter_self : (w.enter t).waiter t = ⟨.called, fun c => (w.cpu c).sections⟩ :=
  update_self t _ w.waiter

def noCpus : Nat → Bool := fun _ => false

/-- What comes after the waiter's own publication. -/
def afterOwn (target : Nat) (online : Nat → Bool) : Phase :=
  if w.ready then .scanning target online 0 noCpus else .returned

end

variable [DecidableEq Head]

/-- **One step.** -/
inductive Step : System Thread Head Fn → System Thread Head Fn → Prop
  | readLock (w : System Thread Head Fn) (c : Nat) :
    (w.cpu c).power = .online →
    Step w { w.setCpu c { w.cpu c with sections := w.nextSection :: (w.cpu c).sections } with
      nextSection := w.nextSection + 1 }
  | readUnlock (w : System Thread Head Fn) (c s : Nat) (rest : List Nat) :
    (w.cpu c).sections = s :: rest → Step w (w.setCpu c { w.cpu c with sections := rest })
  /-- Q1: a quiescent point, the epoch is loaded. -/
  | publishLoad (w : System Thread Head Fn) (c : Nat) :
    (w.cpu c).power = .online → (w.cpu c).sections = [] →
    Step w (w.setCpu c { w.cpu c with loads := w.epoch :: (w.cpu c).loads })
  /-- Q2: the epoch is published. -/
  | publishExchange (w : System Thread Head Fn) (c e : Nat) (rest : List Nat) :
    (w.cpu c).power = .online → (w.cpu c).sections = [] → (w.cpu c).loads = e :: rest →
    Step w (w.setCpu c { w.cpu c with loads := rest, seen := e })
  /-- A processor comes up: its own publication, and then its flag. -/
  | riseLoad (w : System Thread Head Fn) (c : Nat) :
    w.ready = true → c < maxCpus → (w.cpu c).power = .off →
    Step w (w.setCpu c { w.cpu c with power := .publishing, loads := w.epoch :: (w.cpu c).loads })
  | riseExchange (w : System Thread Head Fn) (c e : Nat) (rest : List Nat) :
    (w.cpu c).power = .publishing → (w.cpu c).loads = e :: rest →
    Step w (w.setCpu c { w.cpu c with power := .published, loads := rest, seen := e })
  | riseOnline (w : System Thread Head Fn) (c : Nat) :
    (w.cpu c).power = .published → Step w (w.setCpu c { w.cpu c with power := .online })
  | init (w : System Thread Head Fn) : Step w { w with ready := true }
  /-- A thread on `c` calls `synchronize_quiesce`. -/
  | call (w : System Thread Head Fn) (t : Thread) (c : Nat) :
    (w.waiter (some t)).phase = .idle → (w.cpu c).power = .online → (w.cpu c).sections = [] →
    Step w (w.enter (some t))
  | advance (w : System Thread Head Fn) (t : Option Thread) :
    (w.waiter t).phase = .called →
    Step w { w.setPhase t (.sampling (w.epoch + 1) 0 noCpus) with epoch := w.epoch + 1 }
  /-- The flag of one processor is read. -/
  | sample (w : System Thread Head Fn) (t : Option Thread) (target i : Nat)
      (online : Nat → Bool) :
    (w.waiter t).phase = .sampling target i online → i < maxCpus →
    Step w (w.setPhase t (.sampling target (i + 1) (update online i (w.isOnline i))))
  | sampled (w : System Thread Head Fn) (t : Option Thread) (target i : Nat)
      (online : Nat → Bool) :
    (w.waiter t).phase = .sampling target i online → maxCpus ≤ i →
    Step w (w.setPhase t (.own target online))
  /-- The waiter publishes for the processor it is on. -/
  | ownLoad (w : System Thread Head Fn) (t : Option Thread) (target : Nat)
      (online : Nat → Bool) (c : Nat) :
    (w.waiter t).phase = .own target online → (w.cpu c).power = .online →
    (w.cpu c).sections = [] →
    Step w ((w.setCpu c { w.cpu c with loads := w.epoch :: (w.cpu c).loads }).setPhase t
      (.ownLoaded target online c))
  | ownExchange (w : System Thread Head Fn) (t : Option Thread) (target : Nat)
      (online : Nat → Bool) (c e : Nat) (rest : List Nat) :
    (w.waiter t).phase = .ownLoaded target online c → (w.cpu c).sections = [] →
    (w.cpu c).loads = e :: rest →
    Step w ((w.setCpu c { w.cpu c with loads := rest, seen := e }).setPhase t
      (w.afterOwn target online))
  /-- W2: the epoch one processor has seen is read. -/
  | scan (w : System Thread Head Fn) (t : Option Thread) (target : Nat) (online : Nat → Bool)
      (i : Nat) (pending : Nat → Bool) :
    (w.waiter t).phase = .scanning target online i pending → i < maxCpus →
    Step w (w.setPhase t (.scanning target online (i + 1)
      (update pending i (online i && decide ((w.cpu i).seen < target)))))
  | scanned (w : System Thread Head Fn) (t : Option Thread) (target : Nat) (online : Nat → Bool)
      (i : Nat) (pending : Nat → Bool) :
    (w.waiter t).phase = .scanning target online i pending → maxCpus ≤ i →
    Step w (w.setPhase t (.masking target online 0 pending))
  /-- A processor that is not online is not waited for. -/
  | mask (w : System Thread Head Fn) (t : Option Thread) (target : Nat) (online : Nat → Bool)
      (i : Nat) (pending : Nat → Bool) :
    (w.waiter t).phase = .masking target online i pending → i < maxCpus →
    Step w (w.setPhase t (.masking target online (i + 1)
      (update pending i (pending i && w.isOnline i))))
  | done (w : System Thread Head Fn) (t : Option Thread) (target : Nat) (online : Nat → Bool)
      (i : Nat) (pending : Nat → Bool) :
    (w.waiter t).phase = .masking target online i pending → maxCpus ≤ i →
    (∀ c < maxCpus, pending c = false) → Step w (w.setPhase t .returned)
  | again (w : System Thread Head Fn) (t : Option Thread) (target : Nat) (online : Nat → Bool)
      (i : Nat) (pending : Nat → Bool) (c : Nat) :
    (w.waiter t).phase = .masking target online i pending → maxCpus ≤ i → c < maxCpus →
    pending c = true → Step w (w.setPhase t (.scanning target online 0 noCpus))
  | leave (w : System Thread Head Fn) (t : Thread) :
    (w.waiter (some t)).phase = .returned → Step w (w.setPhase (some t) .idle)
  /-- `call_quiesce`: the head goes on the front of the list.  An overflow of the count is a panic,
  as is a head that is pending. -/
  | submit (w : System Thread Head Fn) (h : Head) (f : Fn) :
    w.pending h = false → w.cbPending + 1 < 2 ^ 32 →
    Step w { w with
      pending := update w.pending h true
      cbHead := ⟨h, f⟩ :: w.cbHead
      cbPending := w.cbPending + 1
      submitted := w.submitted ++ [⟨h, f⟩] }
  | swap (w : System Thread Head Fn) :
    w.ready = true → w.worker = .waiting → w.cbPending ≠ 0 →
    Step w { w with worker := .swapped w.cbHead, cbHead := [], cbPending := 0 }
  | workerCall (w : System Thread Head Fn) (batch : List (Entry Head Fn)) (c : Nat) :
    w.worker = .swapped batch → (w.waiter none).phase = .idle → (w.cpu c).power = .online →
    (w.cpu c).sections = [] →
    Step w { w.enter none with worker := .syncing batch w.submitted.length }
  | workerReturn (w : System Thread Head Fn) (batch : List (Entry Head Fn)) (began : Nat) :
    w.worker = .syncing batch began → (w.waiter none).phase = .returned →
    Step w { w with worker := .running (orderBatch batch []) began }
  /-- The head is released and its callback started. -/
  | run (w : System Thread Head Fn) (e : Entry Head Fn) (rest : List (Entry Head Fn))
      (began : Nat) :
    w.worker = .running (e :: rest) began →
    Step w { w with
      worker := .running rest began
      pending := update w.pending e.head false
      ran := w.ran ++ [(e, began)] }
  | runDone (w : System Thread Head Fn) (began : Nat) :
    w.worker = .running [] began → Step w { w.setPhase none .idle with worker := .waiting }

/-- At boot: processor 0 is online, nothing has been called or submitted. -/
structure Initial (w : System Thread Head Fn) : Prop where
  ready : w.ready = false
  cpu : ∀ c, w.cpu c = ⟨if c = 0 then .online else .off, [], [], 0⟩
  waiter : ∀ t, (w.waiter t).phase = .idle
  cb : w.cbHead = [] ∧ w.cbPending = 0 ∧ w.worker = .waiting
  log : w.submitted = [] ∧ w.ran = []

end System

/-! ## What a waiter knows -/

namespace System

variable {w w' : System Thread Head Fn} {o : Nat → List Nat}

section

variable (w o)

/-- An epoch that a processor has published, or has loaded to publish it. -/
def Announced (c e : Nat) : Prop :=
  e = (w.cpu c).seen ∨ e ∈ (w.cpu c).loads

/-- None of the sections `o` that were open on processor `c` is open there any more. -/
def Ended (c : Nat) : Prop :=
  ∀ s ∈ o c, s ∉ (w.cpu c).sections

/-- A processor that announces the target, or a later epoch, has ended its sections. -/
def Settled (target : Nat) : Prop :=
  ∀ c e, w.Announced c e → target ≤ e → w.Ended o c

/-- Every processor that had a section open is in the mask. -/
def Covers (online : Nat → Bool) (n : Nat) : Prop :=
  ∀ c < n, o c ≠ [] → online c = true

/-- **The processors.** -/
structure Base (w : System Thread Head Fn) : Prop where
  announced : ∀ c e, w.Announced c e → e ≤ w.epoch
  offline : ∀ c, (w.cpu c).power ≠ .online → (w.cpu c).sections = []
  bounded : ∀ c, (w.cpu c).power ≠ .off → c < maxCpus
  boot : w.ready = false → ∀ c, c ≠ 0 → (w.cpu c).power = .off
  zero : (w.cpu 0).power = .online
  fresh : ∀ c, ∀ s ∈ (w.cpu c).sections, s < w.nextSection

/-- What is known of a waiter, by phase. -/
def PhaseOk : Phase → Prop
  | .idle => True
  | .called => True
  | .sampling target i online => w.Settled o target ∧ Covers o online i
  | .own target online => w.Settled o target ∧ Covers o online maxCpus
  | .ownLoaded target online c =>
    w.Settled o target ∧ Covers o online maxCpus ∧ (w.cpu c).power = .online
  | .scanning target online i pending =>
    w.Settled o target ∧ Covers o online maxCpus ∧ ∀ c < i, pending c = false → w.Ended o c
  | .masking target online _ pending =>
    w.Settled o target ∧ Covers o online maxCpus ∧
      ∀ c < maxCpus, pending c = false → w.Ended o c
  | .returned => ∀ c, w.Ended o c

end

/-- **A waiter.**  The sections it waits for are old ones, on processors that are online; until
`quiesce_init` there are none. -/
structure WaiterOk (w : System Thread Head Fn) (k : Waiter) : Prop where
  old : k.phase ≠ .idle → ∀ c, ∀ s ∈ k.opened c, s < w.nextSection
  online : k.phase ≠ .idle → ∀ c, k.opened c ≠ [] → (w.cpu c).power = .online
  boot : k.phase ≠ .idle → w.ready = false → ∀ c, k.opened c = []
  target : k.phase.target ≤ w.epoch
  phase : w.PhaseOk k.opened k.phase

/-- **What a step can do to the processors**: a section that is new has a new number, and an epoch
that is newly announced is the current one, loaded outside every section. -/
structure Evolves (w w' : System Thread Head Fn) : Prop where
  epoch : w.epoch ≤ w'.epoch
  nextSection : w.nextSection ≤ w'.nextSection
  ready : w'.ready = false → w.ready = false
  online : ∀ c, (w.cpu c).power = .online → (w'.cpu c).power = .online
  sections : ∀ c, ∀ s ∈ (w'.cpu c).sections, s ∈ (w.cpu c).sections ∨ w.nextSection ≤ s
  announced : ∀ c e, w'.Announced c e → w.Announced c e ∨ (w'.cpu c).sections = []

variable {c n : Nat} {k : Cpu}

theorem Evolves.ended (h : Evolves w w') (hold : ∀ s ∈ o c, s < w.nextSection) (he : w.Ended o c) :
    w'.Ended o c := by
  intro s hs hs'
  rcases h.sections c s hs' with hm | hge
  · exact he s hs hm
  · exact absurd (hold s hs) (Nat.not_lt.mpr hge)

theorem Evolves.settled (h : Evolves w w') (hold : ∀ c, ∀ s ∈ o c, s < w.nextSection) {target : Nat}
    (hs : w.Settled o target) : w'.Settled o target := by
  intro c e ha ht
  rcases h.announced c e ha with ha | hnil
  · exact h.ended (hold c) (hs c e ha ht)
  · intro s _ hm
    rw [hnil] at hm
    cases hm

/-- **What a waiter knows stays true.** -/
theorem WaiterOk.mono {k : Waiter} (hk : WaiterOk w k) (h : Evolves w w') : WaiterOk w' k := by
  by_cases hidle : k.phase = .idle
  · refine ⟨fun hn => absurd hidle hn, fun hn => absurd hidle hn, fun hn => absurd hidle hn,
      hk.target.trans h.epoch, ?_⟩
    rw [hidle]
    trivial
  have hold := hk.old hidle
  refine ⟨fun _ c s hs => (hold c s hs).trans_le h.nextSection,
    fun _ c hc => h.online c (hk.online hidle c hc), fun _ hr => hk.boot hidle (h.ready hr),
    hk.target.trans h.epoch, ?_⟩
  have hp := hk.phase
  cases hph : k.phase with
  | idle | called => trivial
  | sampling target i online | own target online =>
    rw [hph] at hp
    exact ⟨h.settled hold hp.1, hp.2⟩
  | ownLoaded target online c =>
    rw [hph] at hp
    exact ⟨h.settled hold hp.1, hp.2.1, h.online c hp.2.2⟩
  | scanning target online i pending | masking target online i pending =>
    rw [hph] at hp
    exact ⟨h.settled hold hp.1, hp.2.1, fun c hc hf => h.ended (hold c) (hp.2.2 c hc hf)⟩
  | returned =>
    rw [hph] at hp
    exact fun c => h.ended (hold c) (hp c)

/-- **A step of the processors.** -/
structure Goes (w w' : System Thread Head Fn) : Prop where
  base : Base w'
  evolves : Evolves w w'

/-- Only the processors, the sections and the flag count. -/
theorem Goes.beside (h : Goes w w') {epoch cbPending : Nat} {waiter : Option Thread → Waiter}
    {cbHead submitted : List (Entry Head Fn)} {pending : Head → Bool} {worker : Worker Head Fn}
    {ran : List (Entry Head Fn × Nat)} (he : w'.epoch ≤ epoch) :
    Goes w ⟨epoch, w'.ready, w'.nextSection, w'.cpu, waiter, cbHead, cbPending, pending, worker,
      submitted, ran⟩ :=
  ⟨{ h.base with announced := fun c e ha => (h.base.announced c e ha).trans he },
    { h.evolves with epoch := h.evolves.epoch.trans he }⟩

theorem Base.stay (h : Base w) : Goes w w :=
  ⟨h, le_refl _, le_refl _, id, fun _ => id, fun _ _ => .inl, fun _ _ => .inl⟩

/-- A power state that a processor may come to. -/
structure Rises (w : System Thread Head Fn) (c : Nat) (p : Power) : Prop where
  online : (w.cpu c).power = .online → p = .online
  bounded : p ≠ .off → c < maxCpus
  boot : w.ready = false → c ≠ 0 → p = .off

theorem Base.stays (h : Base w) (c : Nat) : Rises w c (w.cpu c).power :=
  ⟨id, h.bounded c, fun hr => h.boot hr c⟩

theorem Base.rises (h : Base w) (hoff : (w.cpu c).power ≠ .off) (hon : (w.cpu c).power ≠ .online)
    (p : Power) : Rises w c p :=
  ⟨fun ho => absurd ho hon, fun _ => h.bounded c hoff, fun hr h0 => absurd (h.boot hr c h0) hoff⟩

/-- **A step of one processor.**  What it announces anew is the current epoch, outside every
section. -/
theorem Base.cpuStep (h : Base w) (hn : w.nextSection ≤ n)
    (hann : ∀ e, e = k.seen ∨ e ∈ k.loads → w.Announced c e ∨ e = w.epoch ∧ k.sections = [])
    (hoff : k.power ≠ .online → k.sections = []) (hp : Rises w c k.power)
    (hsec : ∀ s ∈ k.sections, s ∈ (w.cpu c).sections ∨ w.nextSection ≤ s)
    (hf : ∀ s ∈ k.sections, s < n) : Goes w { w.setCpu c k with nextSection := n } := by
  have hle : ∀ e, e = k.seen ∨ e ∈ k.loads → e ≤ w.epoch := by
    intro e he
    rcases hann e he with ha | ⟨rfl, -⟩
    exacts [h.announced c e ha, le_refl _]
  have hzero : (update w.cpu c k 0).power = .online := by
    by_cases h0 : 0 = c
    · subst h0
      exact hp.online h.zero
    · rw [update_of_ne h0]
      exact h.zero
  refine ⟨⟨fun d => ?_, fun d => ?_, fun d => ?_, fun hr d => ?_, hzero, fun d => ?_⟩,
    le_refl _, hn, id, fun d => ?_, fun d => ?_, fun d => ?_⟩ <;> by_cases hd : d = c
  all_goals first
    | (subst hd; simp only [Announced, System.setCpu, update_self])
    | simp only [Announced, System.setCpu, update_of_ne hd]
  · exact hle
  · exact h.announced d
  · exact hoff
  · exact h.offline d
  · exact hp.bounded
  · exact h.bounded d
  · exact hp.boot hr
  · exact h.boot hr d
  · exact hf
  · exact fun s hs => (h.fresh d s hs).trans_le hn
  · exact hp.online
  · exact id
  · exact hsec
  · exact fun s hs => .inl hs
  · exact fun e he => (hann e he).imp id And.right
  · exact fun e he => .inl he

/-- **The epoch is loaded**, outside every section. -/
theorem Base.load (h : Base w) {p : Power} (hsec : (w.cpu c).sections = []) (hp : Rises w c p) :
    Goes w (w.setCpu c { w.cpu c with power := p, loads := w.epoch :: (w.cpu c).loads }) := by
  refine h.cpuStep (le_refl _) (fun e ha => ?_) (fun _ => hsec) hp (fun s hs => .inl hs) (h.fresh c)
  rcases ha with ha | ha
  · exact .inl (.inl ha)
  · rcases mem_cons.mp ha with ha | ha
    · exact .inr ⟨ha, hsec⟩
    · exact .inl (.inr ha)

/-- **An epoch that was loaded is published.** -/
theorem Base.exchange (h : Base w) {e : Nat} {p : Power} {rest : List Nat}
    (hl : (w.cpu c).loads = e :: rest) (hsec : (w.cpu c).sections = []) (hp : Rises w c p) :
    Goes w (w.setCpu c { w.cpu c with power := p, loads := rest, seen := e }) := by
  refine h.cpuStep (le_refl _) (fun x ha => .inl (.inr ?_)) (fun _ => hsec) hp
    (fun s hs => .inl hs) (h.fresh c)
  rw [hl]
  rcases ha with rfl | ha
  · exact mem_cons_self
  · exact mem_cons_of_mem e ha

end System

/-! ## The callbacks -/

/-- What the worker has taken and not run, in the order of submission. -/
def Worker.inFlight : Worker Head Fn → List (Entry Head Fn)
  | .waiting => []
  | .swapped batch => batch.reverse
  | .syncing batch _ => batch.reverse
  | .running ordered _ => ordered

/-- The grace period the worker waits for, or has waited for, began after the submission of all it
has taken. -/
def Worker.Timely (ran : Nat) : Worker Head Fn → Prop
  | .waiting => True
  | .swapped _ => True
  | .syncing batch began => ran + batch.length ≤ began
  | .running ordered began => ran + ordered.length ≤ began

/-- Where the worker's own waiter is. -/
def Worker.At : Worker Head Fn → Phase → Prop
  | .waiting, p => p = .idle
  | .swapped _, p => p = .idle
  | .syncing _ _, p => p ≠ .idle
  | .running _ _, p => p = .returned

namespace System

variable {w w' : System Thread Head Fn}

/-- **The callbacks.**  What was submitted is what was run, what the worker has taken and what is on
the list, in this order. -/
structure WorkerOk (w : System Thread Head Fn) : Prop where
  log : w.submitted = w.ran.map Prod.fst ++ w.worker.inFlight ++ w.cbHead.reverse
  timely : w.worker.Timely w.ran.length
  ran : ∀ (k : Nat) e began, w.ran[k]? = some (e, began) → k < began
  count : w.cbPending = w.cbHead.length
  at_ : w.worker.At (w.waiter none).phase

/-- **A callback is run**: it is the oldest of those taken, and its grace period began after it was
submitted. -/
theorem WorkerOk.run (h : WorkerOk w) {e : Entry Head Fn} {rest : List (Entry Head Fn)}
    {began : Nat} (hw : w.worker = .running (e :: rest) began) (pending : Head → Bool) :
    WorkerOk { w with
      worker := .running rest began
      pending := pending
      ran := w.ran ++ [(e, began)] } := by
  have hlog := h.log
  have htimely := h.timely
  rw [hw] at hlog htimely
  simp only [Worker.Timely, length_cons] at htimely
  have hat := h.at_
  rw [hw] at hat
  refine ⟨?_, ?_, fun k x n hk => ?_, h.count, hat⟩
  · dsimp only
    rw [hlog]
    simp [Worker.inFlight]
  · simp only [Worker.Timely, length_append, length_cons, length_nil]
    omega
  · dsimp only at hk
    rw [List.getElem?_append] at hk
    split_ifs at hk with hlt
    · exact h.ran k x n hk
    · have hl := (List.getElem?_eq_some_iff.mp hk).1
      have hk0 : k = w.ran.length := by
        simp only [length_cons, length_nil] at hl
        omega
      subst hk0
      simp only [Nat.sub_self, List.getElem?_cons_zero, Option.some.injEq, Prod.mk.injEq] at hk
      omega

/-! ## The steps keep it -/

/-- **The invariant.** -/
structure Inv (w : System Thread Head Fn) : Prop where
  base : Base w
  waiters : ∀ t, WaiterOk w (w.waiter t)
  worker : WorkerOk w

theorem Inv.of_initial (h : Initial w) : Inv w := by
  refine ⟨⟨fun c e ha => ?_, fun c _ => ?_, fun c hp => ?_, fun _ c hc => ?_, ?_, fun c s hs => ?_⟩,
    fun t => ⟨fun hn => absurd (h.waiter t) hn, fun hn => absurd (h.waiter t) hn,
      fun hn => absurd (h.waiter t) hn, ?_, ?_⟩, ⟨?_, ?_, ?_, ?_, ?_⟩⟩
  · rw [Announced, h.cpu c] at ha
    rcases ha with rfl | ha
    · exact Nat.zero_le _
    · cases ha
  · rw [h.cpu c]
  · rw [h.cpu c] at hp
    by_cases hc : c = 0
    · rw [hc]
      decide
    · exact absurd (if_neg hc) hp
  · rw [h.cpu c]
    exact if_neg hc
  · rw [h.cpu 0]
    rfl
  · rw [h.cpu c] at hs
    cases hs
  · rw [h.waiter t]
    exact Nat.zero_le _
  · rw [h.waiter t]
    trivial
  · rw [h.log.1, h.log.2, h.cb.1, h.cb.2.2]
    rfl
  · rw [h.cb.2.2]
    trivial
  · intro k e began hk
    rw [h.log.2] at hk
    cases hk
  · rw [h.cb.1, h.cb.2.1]
    rfl
  · rw [h.cb.2.2]
    exact h.waiter none

theorem Inv.goes (h : Inv w) {epoch nextSection : Nat} {ready : Bool} {cpu : Nat → Cpu}
    (hg : Goes w { w with epoch, ready, nextSection, cpu }) :
    Inv { w with epoch, ready, nextSection, cpu } :=
  ⟨hg.base, fun t => (h.waiters t).mono hg.evolves, { h.worker with }⟩

theorem Inv.setWorker (h : Inv w) {cbPending : Nat} {cbHead submitted : List (Entry Head Fn)}
    {pending : Head → Bool} {worker : Worker Head Fn} {ran : List (Entry Head Fn × Nat)}
    (hw : WorkerOk { w with cbHead, cbPending, pending, worker, submitted, ran }) :
    Inv { w with cbHead, cbPending, pending, worker, submitted, ran } :=
  have hg : Goes w { w with cbHead, cbPending, pending, worker, submitted, ran } :=
    h.base.stay.beside (le_refl _)
  ⟨hg.base, fun t => (h.waiters t).mono hg.evolves, hw⟩

variable {c target i : Nat} {t : Option Thread} {online pending : Nat → Bool}

/-- A call: the sections that are open now are those it waits for. -/
theorem WaiterOk.enter (h : Base w) (hon : (w.cpu c).power = .online)
    (hsec : (w.cpu c).sections = []) : WaiterOk w ⟨.called, fun c => (w.cpu c).sections⟩ := by
  have honline : ∀ d, (w.cpu d).sections ≠ [] → (w.cpu d).power = .online := by
    intro d hd
    by_contra hoff
    exact hd (h.offline d hoff)
  refine ⟨fun _ => h.fresh, fun _ => honline, fun _ hr d => ?_, Nat.zero_le _, trivial⟩
  -- until `quiesce_init` the caller's processor is the only one
  have key : ∀ d, (w.cpu d).power = .online → d = 0 := by
    intro d hd
    by_contra h0
    rw [h.boot hr d h0] at hd
    cases hd
  by_contra hd
  have hd0 := key d (honline d hd)
  have hc0 := key c hon
  rw [hd0, ← hc0] at hd
  exact hd hsec

theorem WaiterOk.idle (w : System Thread Head Fn) (o : Nat → List Nat) : WaiterOk w ⟨.idle, o⟩ :=
  ⟨fun hn => absurd rfl hn, fun hn => absurd rfl hn, fun hn => absurd rfl hn, Nat.zero_le _,
    trivial⟩

theorem ended_update {o : Nat → List Nat} {n : Nat} {b : Bool}
    (hend : ∀ c < n, c ≠ i → pending c = false → w.Ended o c)
    (hi : o i ≠ [] → b = false → w.Ended o i) :
    ∀ c < n, update pending i b c = false → w.Ended o c := by
  intro c hc hf s hs
  by_cases hci : c = i
  · subst hci
    rw [update_self] at hf
    exact hi (ne_nil_of_mem hs) hf s hs
  · rw [update_of_ne hci] at hf
    exact hend c hc hci hf s hs

variable [DecidableEq Thread]

theorem WaiterOk.update {f : Option Thread → Waiter} {k : Waiter} (hk : WaiterOk w k)
    (h : ∀ u, WaiterOk w (f u)) (u : Option Thread) : WaiterOk w (update f t k u) := by
  by_cases hu : u = t
  · subst hu
    rw [update_self]
    exact hk
  · rw [update_of_ne hu]
    exact h u

section

variable (h : Inv w)

include h

/-- A waiter that has called moves on; the processors may have moved with it. -/
theorem Inv.setPhase {p : Phase} (hb : (w.waiter t).phase.busy = true) (hpi : p ≠ .idle)
    {epoch nextSection : Nat} {ready : Bool} {cpu : Nat → Cpu}
    (hg : Goes w { w with epoch, ready, nextSection, cpu }) (htarget : p.target ≤ epoch)
    (hp : PhaseOk { w with epoch, ready, nextSection, cpu } (w.waiter t).opened p) :
    Inv ({ w with epoch, ready, nextSection, cpu }.setPhase t p) := by
  have hne : (w.waiter t).phase ≠ .idle := fun hidle => by rw [hidle] at hb; cases hb
  have hk : ∀ u, WaiterOk { w with epoch, ready, nextSection, cpu } (w.waiter u) :=
    fun u => (h.waiters u).mono hg.evolves
  have hset : Goes { w with epoch, ready, nextSection, cpu }
      ({ w with epoch, ready, nextSection, cpu }.setPhase t p) := hg.base.stay.beside (le_refl _)
  refine ⟨hset.base, fun u => .mono (.update (k := { w.waiter t with phase := p }) ?_ hk u)
    hset.evolves, { h.worker with at_ := ?_ }⟩
  · exact ⟨fun _ => (hk t).old hne, fun _ => (hk t).online hne, fun _ => (hk t).boot hne, htarget,
      hp⟩
  have hat := h.worker.at_
  by_cases hu : t = none
  · subst hu
    rw [setPhase_self]
    -- only the worker's call has a waiter on its way
    cases hwk : w.worker with
    | waiting | swapped batch =>
      rw [hwk] at hat
      exact absurd hat hne
    | syncing batch began => exact hpi
    | running ordered began =>
      rw [hwk] at hat
      rw [hat] at hb
      cases hb
  · rw [setPhase_of_ne _ (Ne.symm hu)]
    exact hat

/-- A waiter that has called moves on alone. -/
theorem Inv.move {p₀ p : Phase} (hat : (w.waiter t).phase = p₀) (hb : p₀.busy = true)
    (hpi : p ≠ .idle) (htarget : p.target ≤ p₀.target)
    (hp : w.PhaseOk (w.waiter t).opened p₀ → w.PhaseOk (w.waiter t).opened p) :
    Inv (w.setPhase t p) := by
  subst hat
  have hk := h.waiters t
  exact h.setPhase hb hpi h.base.stay (htarget.trans hk.target) (hp hk.phase)

/-- The flag of one more processor is read: one with a section to wait for is online. -/
theorem Inv.sample (hp : (w.waiter t).phase = .sampling target i online) :
    Inv (w.setPhase t (.sampling target (i + 1) (update online i (w.isOnline i)))) := by
  refine h.move hp rfl nofun (le_refl _)
    fun hph => ⟨hph.1, fun c hc ho => ?_⟩
  by_cases hci : c = i
  · subst hci
    rw [update_self, isOnline, (h.waiters t).online (by rw [hp]; simp) c ho]
    rfl
  · rw [update_of_ne hci]
    exact hph.2 c (by omega) ho

/-- The epoch of one more processor is read: one that is not pending has ended its sections. -/
theorem Inv.scan (hp : (w.waiter t).phase = .scanning target online i pending) (hi : i < maxCpus) :
    Inv (w.setPhase t (.scanning target online (i + 1)
      (update pending i (online i && decide ((w.cpu i).seen < target))))) := by
  refine h.move hp rfl nofun (le_refl _) fun ⟨hset, hcov, hend⟩ =>
    ⟨hset, hcov, ended_update (fun c hc hne => hend c (by omega)) fun ho hf => ?_⟩
  rw [hcov i hi ho, Bool.true_and, decide_eq_false_iff_not] at hf
  exact hset i _ (.inl rfl) (Nat.le_of_not_lt hf)

/-- A processor is taken off the mask for being offline: it has no section to wait for. -/
theorem Inv.mask (hp : (w.waiter t).phase = .masking target online i pending) (hi : i < maxCpus) :
    Inv (w.setPhase t (.masking target online (i + 1)
      (update pending i (pending i && w.isOnline i)))) := by
  refine h.move hp rfl nofun (le_refl _) fun ⟨hset, hcov, hend⟩ =>
    ⟨hset, hcov, ended_update (fun c hc _ => hend c hc) fun ho hf => ?_⟩
  rw [isOnline, (h.waiters t).online (by rw [hp]; simp) i ho] at hf
  exact hend i hi (by simpa using hf)

/-- **Nothing is pending**: every section has ended. -/
theorem Inv.done (hp : (w.waiter t).phase = .masking target online i pending)
    (hall : ∀ c < maxCpus, pending c = false) : Inv (w.setPhase t .returned) := by
  refine h.move hp rfl nofun (Nat.zero_le _) fun hph c => ?_
  by_cases hc : c < maxCpus
  · exact hph.2.2 c hc (hall c hc)
  · intro s hs
    have ho : (w.waiter t).opened c ≠ [] := ne_nil_of_mem hs
    have hon := (h.waiters t).online (by rw [hp]; simp) c ho
    exact absurd (h.base.bounded c (by rw [hon]; decide)) hc

theorem Inv.ownLoad (hp : (w.waiter t).phase = .own target online) (hon : (w.cpu c).power = .online)
    (hsec : (w.cpu c).sections = []) :
    Inv ((w.setCpu c { w.cpu c with loads := w.epoch :: (w.cpu c).loads }).setPhase t
      (.ownLoaded target online c)) := by
  obtain ⟨hold, -, -, ht, hph⟩ := h.waiters t
  rw [hp] at hold ht hph
  have hg := h.base.load hsec (h.base.stays c)
  exact h.setPhase (by rw [hp]; rfl) (by simp) hg ht
    ⟨hg.evolves.settled (hold nofun) hph.1, hph.2, hg.evolves.online c hon⟩

/-- The waiter publishes for its own processor.  Before `quiesce_init` it returns at once, and there
was no section to wait for. -/
theorem Inv.ownExchange {e : Nat} {rest : List Nat}
    (hp : (w.waiter t).phase = .ownLoaded target online c) (hsec : (w.cpu c).sections = [])
    (hl : (w.cpu c).loads = e :: rest) :
    Inv ((w.setCpu c { w.cpu c with loads := rest, seen := e }).setPhase t
      (w.afterOwn target online)) := by
  obtain ⟨hold, -, hboot, ht, hph⟩ := h.waiters t
  rw [hp] at hold hboot ht hph
  have hg := h.base.exchange hl hsec (h.base.stays c)
  rw [afterOwn]
  split
  · exact h.setPhase (by rw [hp]; rfl) (by simp) hg ht
      ⟨hg.evolves.settled (hold nofun) hph.1, hph.2.1, fun c hc => absurd hc (Nat.not_lt_zero _)⟩
  · next hr =>
    refine h.setPhase (by rw [hp]; rfl) (by simp) hg (Nat.zero_le _) (fun d s hs => ?_)
    rw [hboot nofun (by simpa using hr) d] at hs
    cases hs

/-- **Every step keeps the invariant.** -/
theorem Inv.step [DecidableEq Head] (hstep : Step w w') : Inv w' := by
  have hbase := h.base
  cases hstep with
  | readLock c hon =>
    have hg := hbase.cpuStep (c := c) (n := w.nextSection + 1)
      (k := { w.cpu c with sections := w.nextSection :: (w.cpu c).sections }) (Nat.le_succ _)
      (fun e ha => .inl ha) (fun hp => absurd hon hp) (hbase.stays c)
      (fun s hs => (mem_cons.mp hs).symm.imp id fun hs => hs.ge)
      (fun s hs => (mem_cons.mp hs).elim (fun hs => hs ▸ Nat.lt_succ_self _)
        fun hs => Nat.lt_succ_of_lt (hbase.fresh c s hs))
    exact h.goes hg
  | readUnlock c s rest hs =>
    have hsub : ∀ x ∈ rest, x ∈ (w.cpu c).sections := fun x hx => hs ▸ mem_cons_of_mem s hx
    have hg := hbase.cpuStep (c := c) (n := w.nextSection)
      (k := { w.cpu c with sections := rest }) (le_refl _) (fun e ha => .inl ha)
      (fun hp => by
        have hnil := hbase.offline c hp
        rw [hs] at hnil
        cases hnil)
      (hbase.stays c) (fun x hx => .inl (hsub x hx)) (fun x hx => hbase.fresh c x (hsub x hx))
    exact h.goes hg
  | publishLoad c hon hsec =>
    exact h.goes (hbase.load hsec (hbase.stays c))
  | publishExchange c e rest hon hsec hl =>
    exact h.goes (hbase.exchange hl hsec (hbase.stays c))
  | riseLoad c hr hc hoff =>
    have hrises : Rises w c .publishing := ⟨by simp [hoff], fun _ => hc, by simp [hr]⟩
    exact h.goes (hbase.load (hbase.offline c (by simp [hoff])) hrises)
  | riseExchange c e rest hp hl =>
    have hrises := hbase.rises (c := c) (by simp [hp]) (by simp [hp]) .published
    exact h.goes (hbase.exchange hl (hbase.offline c (by simp [hp])) hrises)
  | riseOnline c hp =>
    have hg := hbase.cpuStep (c := c) (n := w.nextSection)
      (k := { w.cpu c with power := .online }) (le_refl _) (fun e ha => .inl ha)
      (fun hp => absurd rfl hp) (hbase.rises (by simp [hp]) (by simp [hp]) .online)
      (fun s hs => .inl hs) (hbase.fresh c)
    exact h.goes hg
  | init =>
    refine h.goes
      ⟨⟨hbase.announced, hbase.offline, hbase.bounded, nofun, hbase.zero, hbase.fresh⟩,
        le_refl _, le_refl _, nofun, fun _ => id, fun _ _ => .inl, fun _ _ => .inl⟩
  | call t c hidle hon hsec =>
    have hg : Goes w (w.enter (some t)) := hbase.stay.beside (le_refl _)
    exact ⟨hg.base, fun u => (WaiterOk.update (.enter hbase hon hsec) h.waiters u).mono hg.evolves,
      { h.worker with }⟩
  | advance t hp =>
    refine h.setPhase (by rw [hp]; rfl) (by simp) (hbase.stay.beside (Nat.le_succ _)) (le_refl _)
      ⟨fun c e ha ht => ?_, fun c hc => absurd hc (Nat.not_lt_zero _)⟩
    -- no processor can have announced the new epoch
    exact absurd (hbase.announced c e ha) (Nat.not_le.mpr ht)
  | sample t target i online hp hi => exact h.sample hp
  | sampled t target i online hp hi =>
    exact h.move hp rfl nofun (le_refl _) fun hph =>
      ⟨hph.1, fun c hc => hph.2 c (hc.trans_le hi)⟩
  | ownLoad t target online c hp hon hsec => exact h.ownLoad hp hon hsec
  | ownExchange t target online c e rest hp hsec hl => exact h.ownExchange hp hsec hl
  | scan t target online i pending hp hi => exact h.scan hp hi
  | scanned t target online i pending hp hi =>
    exact h.move hp rfl nofun (le_refl _) fun hph =>
      ⟨hph.1, hph.2.1, fun c hc => hph.2.2 c (hc.trans_le hi)⟩
  | mask t target online i pending hp hi => exact h.mask hp hi
  | done t target online i pending hp hi hall => exact h.done hp hall
  | again t target online i pending c hp hi hc hpend =>
    exact h.move hp rfl nofun (le_refl _) fun hph =>
      ⟨hph.1, hph.2.1, fun c hc => absurd hc (Nat.not_lt_zero _)⟩
  | leave t hp =>
    have hg : Goes w (w.setPhase (some t) .idle) := hbase.stay.beside (le_refl _)
    exact ⟨hg.base, fun u => (WaiterOk.update (.idle w _) h.waiters u).mono hg.evolves,
      { h.worker with }⟩
  | submit hd f hpend hcount =>
    refine h.setWorker ⟨?_, h.worker.timely, h.worker.ran, ?_, h.worker.at_⟩
    · dsimp only
      rw [h.worker.log, reverse_cons]
      simp only [append_assoc]
    · dsimp only
      rw [h.worker.count, length_cons]
  | swap hr hw hc =>
    have hlog := h.worker.log
    have hat := h.worker.at_
    rw [hw] at hlog hat
    refine h.setWorker ⟨?_, trivial, h.worker.ran, rfl, hat⟩
    rw [hlog]
    simp [Worker.inFlight]
  | workerCall batch c hw hidle hon hsec =>
    have hlog := h.worker.log
    rw [hw] at hlog
    have hg : Goes w { w.enter none with worker := .syncing batch w.submitted.length } :=
      hbase.stay.beside (le_refl _)
    refine ⟨hg.base, fun u => (WaiterOk.update (.enter hbase hon hsec) h.waiters u).mono hg.evolves,
      ⟨hlog, ?_, h.worker.ran, h.worker.count, ?_⟩⟩
    · have hlen := congrArg List.length hlog
      simp only [Worker.inFlight, length_append, length_map, length_reverse]
        at hlen
      simp only [Worker.Timely, System.enter]
      omega
    · rw [enter_self]
      simp [Worker.At]
  | workerReturn batch began hw hp =>
    have hlog := h.worker.log
    have htimely := h.worker.timely
    rw [hw] at hlog htimely
    refine h.setWorker ⟨?_, ?_, h.worker.ran, h.worker.count, hp⟩
    · dsimp only
      rw [orderBatch_eq, append_nil]
      exact hlog
    · rw [orderBatch_eq, append_nil]
      simpa [Worker.Timely] using htimely
  | run e rest began hw => exact h.setWorker (h.worker.run hw _)
  | runDone began hw =>
    have hlog := h.worker.log
    rw [hw] at hlog
    have hg : Goes w { w.setPhase none .idle with worker := .waiting } :=
      hbase.stay.beside (le_refl _)
    exact ⟨hg.base, fun u => (WaiterOk.update (.idle w _) h.waiters u).mono hg.evolves,
      ⟨hlog, trivial, h.worker.ran, h.worker.count, rfl⟩⟩

end

end System
end CosmoOS.Core.Quiesce
