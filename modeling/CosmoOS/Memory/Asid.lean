import CosmoOS.Lib.Transition
import Mathlib.Algebra.Group.Nat.Defs
import Mathlib.Data.Set.Basic
import Mathlib.Logic.Function.Basic
import Mathlib.Data.Fintype.Basic
import Mathlib.Tactic.FinCases

/-!
# Address-space tags

`asid.c` gives every address space a tag under which a processor's TLB keeps its translations, so
that a switch need not empty the TLB.  When the tags run out, the *generation* advances and every
tag given before is stale.  A space carries the generation of its tag, and a processor the
generation it last flushed everything at.

## The steps

`asid_switch_prepare` loads the generation (`begin`), compares it with the context's (`check`), and
only if they differ takes the lock and looks again (`locked`); it then answers whether to flush.
`arch_mmu_activate` is a step of its own: **it is there that the tag is read from the context**, and
there that the TLB is flushed.  In between, other processors take steps, and the hardware may cache
a translation of the space that is running.  `vm_space_destroy` first invalidates the tag on every
processor and then releases it; from the first of the two on nothing runs the space.

Generations are natural numbers: one is used up for every 255 tags given, at the least.

## What is proved

Two spaces with the current generation never have one tag, none is given tag 0, and a processor
whose stamp is behind when it starts a switch is told to flush.  But if the generation advances
after a processor has been told not to flush, and its next space is given a new tag elsewhere before
the processor reads it, it runs under a tag of the new generation with everything it holds from the
old.  `Timely` says that an activation without a flush finds the context with the generation the
answer was about; along such runs no processor holds a stray translation under the tag it runs.
-/

namespace CosmoOS.Memory.Asid

open Function (forall_update_iff update update_eq_self update_of_ne update_self)

variable {Cpu Space : Type}

variable {tag gen : Nat} {c : Cpu} {s : Space} {next : Option Space} {owed : Bool}

/-! ## The allocator -/

/-- `struct arch_mmu_context`, without the root table. -/
structure Context where
  asid : Nat
  asidGen : Nat
deriving DecidableEq, Repr

/-- The variables of `asid.c`, without the statistics. -/
structure Globals (Cpu : Type) where
  bits : Nat
  count : Nat
  next : Nat
  generation : Nat
  bitmap : Nat → Bool
  cpuGeneration : Cpu → Nat
  paranoid : Bool

variable {g : Globals Cpu}

section

variable (g) (ctx : Context)

def asidInit (bits : Nat) : Globals Cpu :=
  { g with
    bits := bits
    count := if bits = 0 then 0 else 2 ^ bits
    next := 1
    generation := g.generation + 1
    bitmap := fun _ => false
    cpuGeneration := fun _ => 0 }

/-- The tag the search looks at in its turn `i`: wrapped past 0. -/
def nthTag (i : Nat) : Nat :=
  if g.count ≤ g.next + i then g.next + i - (g.count - 1) else g.next + i

/-- The turns of the search from `i` on, `n` of them. -/
def nextFreeFrom (g : Globals Cpu) : Nat → Nat → Option Nat
  | 0, _ => none
  | n + 1, i => if g.bitmap (nthTag g i) then nextFreeFrom g n (i + 1) else some (nthTag g i)

/-- The next free tag at or after the cursor, taken; 0 when the bitmap is full. -/
def bitmapNextFree : Nat × Globals Cpu :=
  match nextFreeFrom g (g.count - 1) 0 with
  | none => (0, g)
  | some tag =>
    (tag, { g with
      bitmap := update g.bitmap tag true
      next := if g.count ≤ tag + 1 then 1 else tag + 1 })

def rollover : Globals Cpu :=
  { g with generation := g.generation + 1, bitmap := fun _ => false, next := 1 }

/-- What `asid_switch_prepare` does under the lock: the context's tag is made current.  `none` where
the assertion that a tag is free after a rollover fails. -/
def tagLocked : Option (Globals Cpu × Context) :=
  if ctx.asidGen = g.generation then some (g, ctx)
  else
    let (tag, g₁) := bitmapNextFree g
    if tag ≠ 0 then some (g₁, ⟨tag, g₁.generation⟩)
    else
      let (tag, g₂) := bitmapNextFree (rollover g₁)
      if tag ≠ 0 then some (g₂, ⟨tag, g₂.generation⟩) else none

/-- The end of `asid_switch_prepare`: stamps the processor, and says whether it must flush. -/
def stampCpu [DecidableEq Cpu] (g : Globals Cpu) (c : Cpu) (gen : Nat) : Bool × Globals Cpu :=
  if g.cpuGeneration c ≠ gen then
    (true, { g with cpuGeneration := update g.cpuGeneration c gen })
  else (g.paranoid, g)

def asidRelease : Globals Cpu × Context :=
  if g.bits = 0 ∨ ctx.asid = 0 then (g, ctx)
  else
    (if ctx.asidGen = g.generation then
      { g with bitmap := update g.bitmap ctx.asid false } else g, ⟨0, 0⟩)

end

theorem asidRelease_tagged {ctx : Context} (hb : g.bits ≠ 0) (ha : ctx.asid ≠ 0) :
    ∃ bm, asidRelease g ctx = ({ g with bitmap := bm }, ⟨0, 0⟩) ∧
      ∀ t, g.bitmap t = true → ¬ (g.generation = ctx.asidGen ∧ t = ctx.asid) → bm t = true := by
  rw [asidRelease, if_neg (not_or.mpr ⟨hb, ha⟩)]
  split_ifs with hcur
  · refine ⟨_, rfl, fun t ht hne => ?_⟩
    exact (update_of_ne (fun h => hne ⟨hcur.symm, h⟩) _ _).trans ht
  · exact ⟨_, rfl, fun _ ht _ => ht⟩

/-! ## The search for a tag -/

section Search

variable {g : Globals Cpu}

/-- The cursor is on a tag that may be given. -/
def Geometry (g : Globals Cpu) : Prop := g.bits = 0 ∨ 1 ≤ g.next ∧ g.next < g.count

theorem nextFreeFrom_spec {n i : Nat} (hn : i + n = g.count - 1) (h1 : 1 ≤ g.next)
    (h2 : g.next < g.count) (h : nextFreeFrom g n i = some tag) :
    1 ≤ tag ∧ tag < g.count ∧ g.bitmap tag = false := by
  induction n generalizing i with
  | zero => cases h
  | succ n ih =>
    rw [nextFreeFrom] at h
    by_cases hb : g.bitmap (nthTag g i) = true
    · rw [if_pos hb] at h
      exact ih (by omega) h
    · rw [if_neg hb] at h
      cases h
      refine ⟨?_, ?_, by simpa using hb⟩ <;>
      · rw [nthTag]
        split_ifs <;> omega

/-- A free tag has been marked as taken, and the cursor moved on. -/
structure Takes (g : Globals Cpu) (tag : Nat) (g' : Globals Cpu) : Prop where
  ne_zero : tag ≠ 0
  free : g.bitmap tag = false
  eq : ∃ next, g' = { g with bitmap := update g.bitmap tag true, next := next }
  geometry : Geometry g'

/-- **The search** takes a tag that is free and not 0, or returns 0 and changes nothing. -/
theorem bitmapNextFree_spec (h1 : 1 ≤ g.next) (h2 : g.next < g.count) :
    bitmapNextFree g = (0, g) ∨ Takes g (bitmapNextFree g).1 (bitmapNextFree g).2 := by
  rw [bitmapNextFree]
  cases h : nextFreeFrom g (g.count - 1) 0 with
  | none => exact .inl rfl
  | some tag =>
    obtain ⟨hpos, hlt, hfree⟩ := nextFreeFrom_spec (by omega) h1 h2 h
    refine .inr ⟨by dsimp only; omega, hfree, ⟨_, rfl⟩, .inr ?_⟩
    dsimp only
    split_ifs <;> omega

theorem bitmapNextFree_rollover (hc : 1 < g.count) :
    (bitmapNextFree (rollover g)).1 ≠ 0 := by
  obtain ⟨k, hk⟩ : ∃ k, g.count - 1 = k + 1 := ⟨g.count - 2, by omega⟩
  have hfirst : nextFreeFrom (rollover g) (g.count - 1) 0 = some 1 := by
    have htag : nthTag (rollover g) 0 = 1 := if_neg (by simp only [rollover]; omega)
    rw [hk, nextFreeFrom, htag]
    rfl
  rw [bitmapNextFree, show (rollover g).count = g.count from rfl, hfirst]
  exact Nat.one_ne_zero

/-- **Under the lock**: the tag is current already, or one is taken, of this generation or, if none
is left, of the next.  The assertion holds. -/
theorem tagLocked_spec (hb : g.bits ≠ 0) (hg : Geometry g) (ctx : Context) :
    ∃ g' k, tagLocked g ctx = some (g', k) ∧
      (ctx.asidGen = g.generation ∧ g' = g ∧ k = ctx ∨
        ctx.asidGen ≠ g.generation ∧
          ((∃ tag, Takes g tag g' ∧ k = ⟨tag, g.generation⟩) ∨
            ∃ tag, Takes (rollover g) tag g' ∧ k = ⟨tag, (rollover g).generation⟩)) := by
  obtain ⟨h1, h2⟩ := hg.resolve_left hb
  rw [tagLocked]
  by_cases hcur : ctx.asidGen = g.generation
  · rw [if_pos hcur]
    exact ⟨g, ctx, rfl, .inl ⟨hcur, rfl, rfl⟩⟩
  rw [if_neg hcur]
  rcases bitmapNextFree_spec h1 h2 with hfull | htake
  · -- no tag left in this generation
    rw [hfull]
    have hne := bitmapNextFree_rollover (g := g) (by omega)
    rcases bitmapNextFree_spec (g := rollover g) (le_refl 1) (show 1 < g.count by omega)
      with hnone | htake
    · rw [hnone] at hne
      exact absurd rfl hne
    · obtain ⟨next, heq⟩ := htake.eq
      refine ⟨(bitmapNextFree (rollover g)).2, ⟨(bitmapNextFree (rollover g)).1, _⟩, ?_,
        .inr ⟨hcur, .inr ⟨_, htake, rfl⟩⟩⟩
      simp only [ne_eq, not_true_eq_false, if_false, hne, not_false_eq_true, if_true]
      rw [show (bitmapNextFree (rollover g)).2.generation = (rollover g).generation by rw [heq]]
  · obtain ⟨next, heq⟩ := htake.eq
    refine ⟨(bitmapNextFree g).2, ⟨(bitmapNextFree g).1, g.generation⟩, ?_,
      .inr ⟨hcur, .inl ⟨_, htake, rfl⟩⟩⟩
    simp only [ne_eq, htake.ne_zero, not_false_eq_true, if_true]
    rw [show (bitmapNextFree g).2.generation = g.generation by rw [heq]]

end Search

/-! ## Processors -/

section Steps

variable [DecidableEq Cpu] [DecidableEq Space]

/-- Where a processor is in a switch to a space (`none` for the kernel's own root).  `owed` records
whether its stamp was behind when the switch began. -/
inductive Pc (Space : Type) where
  | running
  | loaded (next : Option Space) (gen : Nat) (owed : Bool)
  | untagged (next : Space) (owed : Bool)
  | decided (next : Option Space) (gen : Nat) (flush owed : Bool)

/-- The space a switch is going to. -/
def Pc.target : Pc Space → Option Space
  | .running => none
  | .loaded next _ _ => next
  | .untagged next _ => some next
  | .decided next _ _ _ => next

/-- A processor: what it runs, under which tag, and the translations it holds, each with its tag and
the space that installed it. -/
structure CpuState (Space : Type) where
  space : Option Space
  tag : Nat
  pc : Pc Space
  tlb : Set (Nat × Option Space)

structure System (Cpu Space : Type) where
  globals : Globals Cpu
  ctx : Space → Context
  cpu : Cpu → CpuState Space
  dying : Space → Bool

namespace System

section

variable (w : System Cpu Space)

def setCpu (c : Cpu) (k : CpuState Space) : System Cpu Space :=
  { w with cpu := update w.cpu c k }

/-- The answer of `asid_switch_prepare` on `c`, for the generation `gen`. -/
def answer (c : Cpu) (next : Option Space) (gen : Nat) (owed : Bool) : System Cpu Space :=
  { w with
    globals := (stampCpu w.globals c gen).2
    cpu := update w.cpu c
      { w.cpu c with pc := .decided next gen (stampCpu w.globals c gen).1 owed } }

/-- The tag a space is activated under; the kernel's root has tag 0. -/
def tagOf : Option Space → Nat
  | none => 0
  | some s => (w.ctx s).asid

/-- No processor runs the space or is switching to it. -/
def Idle (s : Space) : Prop :=
  ∀ c, (w.cpu c).space ≠ some s ∧ (w.cpu c).pc.target ≠ some s

end

/-- **One step of one processor**, or of the hardware. -/
inductive Step : System Cpu Space → System Cpu Space → Prop
  /-- No tags on this machine: every switch flushes. -/
  | beginUntagged (w : System Cpu Space) (c : Cpu) (next : Option Space) :
    (w.cpu c).pc = .running → (∀ s, next = some s → w.dying s = false) → w.globals.bits = 0 →
    Step w (w.setCpu c { w.cpu c with
      pc := .decided next 0 true (w.globals.cpuGeneration c != w.globals.generation) })
  | begin (w : System Cpu Space) (c : Cpu) (next : Option Space) :
    (w.cpu c).pc = .running → (∀ s, next = some s → w.dying s = false) → w.globals.bits ≠ 0 →
    Step w (w.setCpu c { w.cpu c with
      pc := .loaded next w.globals.generation
        (w.globals.cpuGeneration c != w.globals.generation) })
  /-- The kernel's root has no tag to be compared. -/
  | checkKernel (w : System Cpu Space) (c : Cpu) (gen : Nat) (owed : Bool) :
    (w.cpu c).pc = .loaded none gen owed → Step w (w.answer c none gen owed)
  /-- The context carries the generation that was loaded. -/
  | checkSame (w : System Cpu Space) (c : Cpu) (s : Space) (gen : Nat) (owed : Bool) :
    (w.cpu c).pc = .loaded (some s) gen owed → (w.ctx s).asidGen = gen →
    Step w (w.answer c (some s) gen owed)
  /-- It does not: the lock is needed. -/
  | checkOther (w : System Cpu Space) (c : Cpu) (s : Space) (gen : Nat) (owed : Bool) :
    (w.cpu c).pc = .loaded (some s) gen owed → (w.ctx s).asidGen ≠ gen →
    Step w (w.setCpu c { w.cpu c with pc := .untagged s owed })
  | locked (w : System Cpu Space) (c : Cpu) (s : Space) (owed : Bool) (g : Globals Cpu)
      (k : Context) :
    (w.cpu c).pc = .untagged s owed → tagLocked w.globals (w.ctx s) = some (g, k) →
    Step w (({ w with globals := g, ctx := update w.ctx s k }).answer c (some s)
      g.generation owed)
  /-- `arch_mmu_activate`: the tag is read from the context now. -/
  | activate (w : System Cpu Space) (c : Cpu) (next : Option Space) (gen : Nat)
      (flush owed : Bool) :
    (w.cpu c).pc = .decided next gen flush owed →
    Step w (w.setCpu c
      ⟨next, w.tagOf next, .running, if flush = true then ∅ else (w.cpu c).tlb⟩)
  | cache (w : System Cpu Space) (c : Cpu) :
    Step w (w.setCpu c { w.cpu c with
      tlb := insert ((w.cpu c).tag, (w.cpu c).space) (w.cpu c).tlb })
  /-- The generation advances without a tag being taken (`asid_test_force_rollover`). -/
  | rollover (w : System Cpu Space) :
    w.globals.bits ≠ 0 → Step w { w with globals := Asid.rollover w.globals }
  | setParanoid (w : System Cpu Space) (on : Bool) :
    Step w { w with globals := { w.globals with paranoid := on } }
  /-- `arch_mmu_invalidate_asid`, of a space that nothing runs any more. -/
  | invalidate (w : System Cpu Space) (s : Space) :
    w.Idle s →
    Step w { w with
      cpu := fun c => { w.cpu c with
        tlb := {e ∈ (w.cpu c).tlb | (w.ctx s).asid = 0 ∨ e.1 ≠ (w.ctx s).asid} }
      dying := update w.dying s true }
  /-- The tag of an invalidated space is released. -/
  | release (w : System Cpu Space) (s : Space) :
    w.dying s = true →
    Step w { w with
      globals := (asidRelease w.globals (w.ctx s)).1
      ctx := update w.ctx s (asidRelease w.globals (w.ctx s)).2
      dying := update w.dying s false }

/-- Just after `asid_init`, with all processors in the kernel and no space tagged. -/
structure Initial (w : System Cpu Space) : Prop where
  globals : ∃ g bits, (bits = 0 ∨ 8 ≤ bits ∧ bits ≤ 16) ∧ w.globals = asidInit g bits
  ctx : ∀ s, w.ctx s = ⟨0, 0⟩
  cpu : ∀ c, w.cpu c = ⟨none, 0, .running, ∅⟩
  dying : ∀ s, w.dying s = false

end System

end Steps

/-! ## What every run keeps

`owner G t` is the space that was given tag `t` in generation `G`, and has not released it. -/

section

variable (owner : Nat → Nat → Option Space)

/-- Records the owner of a tag. -/
def give (gen tag : Nat) (o : Option Space) : Nat → Nat → Option Space :=
  update owner gen (update (owner gen) tag o)

theorem give_self (gen tag : Nat) (o : Option Space) : give owner gen tag o gen tag = o := by
  rw [give, update_self, update_self]

theorem give_of_ne {G t : Nat} (o : Option Space) (h : ¬ (G = gen ∧ t = tag)) :
    give owner gen tag o G t = owner G t := by
  rw [give]
  by_cases hG : G = gen
  · subst hG
    rw [update_self, update_of_ne fun ht => h ⟨rfl, ht⟩]
  · rw [update_of_ne hG]

end

/-- What is known of a processor in the middle of a switch.  Its own stamp does not move before the
answer, and the generation only grows. -/
def PcOk (g : Globals Cpu) (ctx : Space → Context) (c : Cpu) : Pc Space → Prop
  | .running => True
  | .loaded _ gen owed =>
    g.bits ≠ 0 ∧ 1 ≤ gen ∧ g.cpuGeneration c ≤ gen ∧ gen ≤ g.generation ∧
      (owed = true → g.cpuGeneration c < gen)
  | .untagged _ owed => g.bits ≠ 0 ∧ (owed = true → g.cpuGeneration c < g.generation)
  | .decided next gen flush owed =>
    (owed = true → flush = true) ∧ (g.bits = 0 → flush = true) ∧
      (g.bits ≠ 0 → 1 ≤ gen ∧ g.cpuGeneration c = gen ∧ gen ≤ g.generation ∧
        ∀ s, next = some s → gen ≤ (ctx s).asidGen)

variable {pc : Pc Space}

theorem PcOk.mono {g' : Globals Cpu} {ctx ctx' : Space → Context}
    (h : PcOk g ctx c pc) (hb : g'.bits = g.bits)
    (hs : g'.cpuGeneration c = g.cpuGeneration c) (hg : g.generation ≤ g'.generation)
    (hc : ∀ s, pc.target = some s → (ctx s).asidGen ≤ (ctx' s).asidGen) : PcOk g' ctx' c pc := by
  cases pc with
  | running => trivial
  | loaded next gen owed =>
    obtain ⟨h1, h2, h3, h4, h5⟩ := h
    refine ⟨hb ▸ h1, h2, hs ▸ h3, h4.trans hg, fun ho => ?_⟩
    rw [hs]
    exact h5 ho
  | untagged next owed =>
    refine ⟨hb ▸ h.1, fun ho => ?_⟩
    rw [hs]
    exact (h.2 ho).trans_le hg
  | decided next gen flush owed =>
    obtain ⟨h1, h2, h3⟩ := h
    refine ⟨h1, fun h0 => h2 (hb ▸ h0), fun h0 => ?_⟩
    obtain ⟨h4, h5, h6, h7⟩ := h3 (hb ▸ h0)
    exact ⟨h4, hs.trans h5, h6.trans hg, fun s hn => (h7 s hn).trans (hc s hn)⟩

namespace System

variable {owner : Nat → Nat → Option Space} {w : System Cpu Space}

/-- **The tags.**  Every tagged space owns its tag in its generation, and the bitmap has every tag
that is owned in the current one. -/
structure Owned (owner : Nat → Nat → Option Space) (w : System Cpu Space) : Prop where
  geometry : Geometry w.globals
  generation_pos : 1 ≤ w.globals.generation
  stamp_le : ∀ c, w.globals.cpuGeneration c ≤ w.globals.generation
  future : ∀ G t, w.globals.generation < G → owner G t = none
  zero : ∀ G, owner G 0 = none
  taken : ∀ t s, owner w.globals.generation t = some s → w.globals.bitmap t = true
  tagged : ∀ s, w.ctx s = ⟨0, 0⟩ ∨ w.globals.bits ≠ 0 ∧
    (w.ctx s).asidGen ≤ w.globals.generation ∧ owner (w.ctx s).asidGen (w.ctx s).asid = some s
  pc : ∀ c, PcOk w.globals w.ctx c (w.cpu c).pc
  dying : ∀ s, w.dying s = true → w.Idle s

/-- Every translation a processor holds, and what it runs, is of the owner of the tag in the
processor's own generation. -/
def Consistent (owner : Nat → Nat → Option Space) (g : Globals Cpu) (c : Cpu)
    (k : CpuState Space) : Prop :=
  (∀ t s, (t, some s) ∈ k.tlb → owner (g.cpuGeneration c) t = some s) ∧
    ∀ s, k.space = some s → owner (g.cpuGeneration c) k.tag = some s

/-- The next activation of the processor flushes. -/
def WillFlush (g : Globals Cpu) (c : Cpu) : Pc Space → Prop
  | .running => g.cpuGeneration c < g.generation
  | .loaded _ gen _ => g.cpuGeneration c < gen
  | .untagged _ _ => g.cpuGeneration c < g.generation
  | .decided _ _ flush _ => flush = true

theorem WillFlush.mono {g' : Globals Cpu} (h : WillFlush g c pc)
    (hs : g'.cpuGeneration c = g.cpuGeneration c) (hg : g.generation ≤ g'.generation) :
    WillFlush g' c pc := by
  cases pc with
  | running | untagged next owed => exact lt_of_eq_of_lt hs (lt_of_lt_of_le h hg)
  | loaded next gen owed => exact lt_of_eq_of_lt hs h
  | decided next gen flush owed => exact h

/-- **The translations** of a processor.  Under the tag it runs it holds only translations of the
space it runs. -/
structure CpuClean (owner : Nat → Nat → Option Space) (g : Globals Cpu) (ctx : Space → Context)
    (dying : Space → Bool) (c : Cpu) (k : CpuState Space) : Prop where
  running : ∀ s, (k.tag, s) ∈ k.tlb → s = k.space
  kernelTag : k.space = none → k.tag = 0
  kernelEntry : ∀ t, (t, none) ∈ k.tlb → t = 0
  fresh : g.bits ≠ 0 → Consistent owner g c k ∨ WillFlush g c k.pc
  gone : ∀ s, dying s = true → (ctx s).asid ≠ 0 → ((ctx s).asid, some s) ∉ k.tlb

theorem CpuClean.mono {g' : Globals Cpu} {ctx : Space → Context} {dying : Space → Bool}
    {k : CpuState Space} (h : CpuClean owner g ctx dying c k) (hb : g'.bits = g.bits)
    (hs : g'.cpuGeneration c = g.cpuGeneration c) (hg : g.generation ≤ g'.generation) :
    CpuClean owner g' ctx dying c k :=
  { h with
    fresh := fun h0 => (h.fresh (hb ▸ h0)).imp (fun hc => (by rwa [Consistent, hs])) fun hw =>
      hw.mono hs hg }

section

variable (owner w)

def Clean : Prop :=
  ∀ c, CpuClean owner w.globals w.ctx w.dying c (w.cpu c)

/-- The tags and the translations. -/
def Tidy : Prop :=
  Owned owner w ∧ Clean owner w

end

variable {p : Pc Space}

theorem Owned.pc_of (h : Owned owner w) (hpc : (w.cpu c).pc = p) :
    PcOk w.globals w.ctx c p := hpc ▸ h.pc c

theorem Clean.fresh_of (h : Clean owner w) (hb : w.globals.bits ≠ 0) (hpc : (w.cpu c).pc = p) :
    Consistent owner w.globals c (w.cpu c) ∨ WillFlush w.globals c p := hpc ▸ (h c).fresh hb

/-- A space that a processor switches to is not being torn down. -/
theorem Owned.alive (h : Owned owner w) (hpc : (w.cpu c).pc = p) (hs : p.target = some s) :
    w.dying s = false := by
  rw [← Bool.not_eq_true]
  intro hd
  exact (h.dying s hd c).2 (hpc ▸ hs)

theorem Owned.tag_unique (h : Owned owner w) {s' : Space}
    (hs : (w.ctx s).asidGen = w.globals.generation)
    (hs' : (w.ctx s').asidGen = w.globals.generation) (heq : (w.ctx s).asid = (w.ctx s').asid) :
    s = s' := by
  have hpos := h.generation_pos
  have key : ∀ s, (w.ctx s).asidGen = w.globals.generation →
      owner w.globals.generation (w.ctx s).asid = some s := by
    intro s hs
    rcases h.tagged s with h0 | ⟨-, -, ho⟩
    · rw [h0] at hs
      dsimp only at hs
      omega
    · rwa [hs] at ho
  have h1 := key s hs
  rw [heq, key s' hs'] at h1
  exact (Option.some.inj h1).symm

theorem Owned.tag_ne_zero (h : Owned owner w) (hs : (w.ctx s).asidGen ≠ 0) :
    (w.ctx s).asid ≠ 0 := by
  rcases h.tagged s with h0 | ⟨-, -, ho⟩
  · rw [h0] at hs
    exact absurd rfl hs
  · intro hz
    rw [hz, h.zero] at ho
    cases ho

end System

namespace System

theorem Initial.owned {w : System Cpu Space} (h : Initial w) :
    Tidy (fun _ _ => none) w := by
  obtain ⟨g, bits, hbits, hg⟩ := h.globals
  have hpc : ∀ c, (w.cpu c).pc = .running := fun c => by rw [h.cpu c]
  refine ⟨⟨?_, ?_, ?_, fun _ _ _ => rfl, fun _ => rfl, fun t s ho => (by cases ho),
    fun s => .inl (h.ctx s), ?_, ?_⟩, fun c => ?_⟩
  · rw [hg]
    rcases hbits with rfl | ⟨h8, -⟩
    · exact .inl rfl
    · have hpow : 2 ^ 8 ≤ 2 ^ bits := Nat.pow_le_pow_right (by decide) h8
      refine .inr ⟨le_refl _, ?_⟩
      simp only [asidInit, if_neg (show ¬ bits = 0 by omega)]
      omega
  · rw [hg]
    exact Nat.le_add_left _ _
  · intro c
    rw [hg]
    exact Nat.zero_le _
  · intro c
    rw [hpc c]
    trivial
  · intro s hs
    exact Bool.noConfusion ((h.dying s).symm.trans hs)
  · rw [h.cpu c]
    exact ⟨nofun, fun _ => rfl, nofun, fun _ => .inl ⟨nofun, nofun⟩, fun _ _ _ => nofun⟩

end System

/-! ## The steps keep it -/

theorem stampCpu_eq [DecidableEq Cpu] (g : Globals Cpu) (c : Cpu) (gen : Nat) :
    stampCpu g c gen = (decide (g.cpuGeneration c ≠ gen) || g.paranoid,
      { g with cpuGeneration := update g.cpuGeneration c gen }) := by
  rw [stampCpu]
  split_ifs with hne
  · simp [hne]
  · simp [← not_not.mp hne]

namespace System

variable {owner : Nat → Nat → Option Space} {w : System Cpu Space}

section Cpu

variable [DecidableEq Cpu]

variable {k : CpuState Space}

/-- What is said of the tags needs a look only at the switch of a processor that changed. -/
theorem Owned.of_cpu (h : Owned owner w) (hpc : PcOk w.globals w.ctx c k.pc)
    (hidle : ∀ s, w.dying s = true → k.space ≠ some s ∧ k.pc.target ≠ some s) :
    Owned owner (w.setCpu c k) := by
  refine { h with pc := ?_, dying := fun s hs => ?_ }
  · exact (forall_update_iff w.cpu fun d x => PcOk w.globals w.ctx d x.pc).mpr
      ⟨hpc, fun d _ => h.pc d⟩
  · exact (forall_update_iff w.cpu fun _ x => x.space ≠ some s ∧ x.pc.target ≠ some s).mpr
      ⟨hidle s hs, fun d _ => h.dying s hs d⟩

theorem Owned.setPc (h : Owned owner w)
    (hpc : PcOk w.globals w.ctx c pc) (ht : ∀ s, pc.target = some s → w.dying s = false) :
    Owned owner (w.setCpu c { w.cpu c with pc := pc }) :=
  h.of_cpu hpc fun s hs =>
    ⟨(h.dying s hs c).1, fun hts => Bool.noConfusion (hs.symm.trans (ht s hts))⟩

/-- What is said of the translations needs a look only at the processor that changed. -/
theorem Clean.of_cpu (h : Clean owner w) (hk : CpuClean owner w.globals w.ctx w.dying c k) :
    Clean owner (w.setCpu c k) :=
  (forall_update_iff w.cpu fun d => CpuClean owner w.globals w.ctx w.dying d).mpr
    ⟨hk, fun d _ => h d⟩

theorem Clean.setPc (h : Clean owner w)
    (hw : w.globals.bits ≠ 0 → Consistent owner w.globals c (w.cpu c) ∨ WillFlush w.globals c pc) :
    Clean owner (w.setCpu c { w.cpu c with pc := pc }) :=
  h.of_cpu { h c with fresh := hw }

/-- **The answer**: the processor is stamped with the generation, and told to flush if it was
behind it. -/
theorem Owned.answer (h : Owned owner w) (hpos : 1 ≤ gen) (hle : gen ≤ w.globals.generation)
    (howed : owed = true → w.globals.cpuGeneration c < gen)
    (hbits : w.globals.bits ≠ 0) (hctx : ∀ s, next = some s → gen ≤ (w.ctx s).asidGen)
    (htarget : (w.cpu c).pc.target = next) : Owned owner (w.answer c next gen owed) := by
  rw [System.answer, stampCpu_eq]
  refine { h with stamp_le := ?_, pc := ?_, dying := fun s hs => ?_ }
  · exact (forall_update_iff _ fun _ n => n ≤ w.globals.generation).mpr
      ⟨hle, fun d _ => h.stamp_le d⟩
  · refine (forall_update_iff w.cpu fun d x => PcOk _ w.ctx d x.pc).mpr ⟨⟨fun ho => ?_,
      fun h0 => absurd h0 hbits, fun _ => ⟨hpos, update_self _ _ _, hle, hctx⟩⟩, fun d hd => ?_⟩
    · simp [Nat.ne_of_lt (howed ho)]
    · exact (h.pc d).mono rfl (update_of_ne hd _ _) (le_refl _) fun s _ => le_refl _
  · exact (forall_update_iff w.cpu fun _ x => x.space ≠ some s ∧ x.pc.target ≠ some s).mpr
      ⟨⟨(h.dying s hs c).1, htarget ▸ (h.dying s hs c).2⟩, fun d _ => h.dying s hs d⟩

/-- A processor that is not told to flush is one whose translations are consistent. -/
theorem Clean.answer (h : Clean owner w) (hw : w.globals.bits ≠ 0 →
      Consistent owner w.globals c (w.cpu c) ∨ w.globals.cpuGeneration c < gen) :
    Clean owner (w.answer c next gen owed) := by
  rw [System.answer, stampCpu_eq]
  refine (forall_update_iff w.cpu fun d => CpuClean owner _ w.ctx w.dying d).mpr
    ⟨{ h c with fresh := fun h0 => ?_ }, fun d hd => (h d).mono rfl (update_of_ne hd _ _) le_rfl⟩
  by_cases hcur : w.globals.cpuGeneration c = gen
  · subst hcur
    have hc := (hw h0).resolve_right (lt_irrefl _)
    rw [update_eq_self]
    exact .inl hc
  · exact .inr (by simp [WillFlush, hcur])

end Cpu

/-! ### Rollover and tags given -/

theorem Owned.rollover (h : Owned owner w) (hb : w.globals.bits ≠ 0) :
    Owned owner { w with globals := Asid.rollover w.globals } := by
  obtain ⟨h1, h2⟩ := h.geometry.resolve_left hb
  have hfuture : ∀ t, owner (w.globals.generation + 1) t = none :=
    fun t => h.future _ t (Nat.lt_succ_self _)
  refine ⟨.inr ⟨le_refl _, show 1 < w.globals.count by omega⟩, Nat.le_add_left _ _,
    fun c => (h.stamp_le c).trans (Nat.le_succ _),
    fun G t hG => h.future G t (Nat.lt_of_succ_lt hG), h.zero, ?_, ?_, ?_, h.dying⟩
  · intro t s ho
    rw [show (Asid.rollover w.globals).generation = w.globals.generation + 1 from rfl,
      hfuture t] at ho
    cases ho
  · intro s
    rcases h.tagged s with h0 | ⟨hb, hle, ho⟩
    · exact .inl h0
    · exact .inr ⟨hb, hle.trans (Nat.le_succ _), ho⟩
  · exact fun c => (h.pc c).mono rfl rfl (Nat.le_succ _) fun s _ => le_refl _

theorem Clean.rollover (h : Clean owner w) :
    Clean owner { w with globals := Asid.rollover w.globals } :=
  fun c => (h c).mono rfl rfl (Nat.le_succ _)

/-- A tag other than 0 changes hands in a generation that there has been. -/
theorem Owned.given (h : Owned owner w) (hgen : gen ≤ w.globals.generation) (htag : tag ≠ 0)
    (o : Option Space) : (∀ G t, w.globals.generation < G → give owner gen tag o G t = none) ∧
      ∀ G, give owner gen tag o G 0 = none := by
  refine ⟨fun G t hG => ?_, fun G => ?_⟩
  · rw [give_of_ne _ _ (by omega)]
    exact h.future G t hG
  · rw [give_of_ne _ _ fun he => htag he.2.symm]
    exact h.zero G

section Space

variable [DecidableEq Space]

/-- **A free tag is given to a space** whose tag is not current. -/
theorem Owned.take (h : Owned owner w) (ht : Takes w.globals tag g) (hb : w.globals.bits ≠ 0) :
    Owned (give owner w.globals.generation tag (some s))
      { w with globals := g, ctx := update w.ctx s ⟨tag, w.globals.generation⟩ } := by
  obtain ⟨next, rfl⟩ := ht.eq
  have hnone : owner w.globals.generation tag = none := by
    rw [Option.eq_none_iff_forall_ne_some]
    intro s' ho
    exact Bool.noConfusion (ht.free.symm.trans (h.taken tag s' ho))
  obtain ⟨hfuture, hzero⟩ := h.given (le_refl _) ht.ne_zero (some s)
  refine ⟨ht.geometry, h.generation_pos, h.stamp_le, hfuture, hzero, ?_, ?_, ?_, h.dying⟩
  · intro t s' ho
    by_cases htag : t = tag
    · subst htag
      exact update_self _ _ _
    · rw [give_of_ne _ _ fun he => htag he.2] at ho
      exact (update_of_ne htag _ _).trans (h.taken t s' ho)
  · intro s'
    by_cases hs : s' = s
    · subst hs
      right
      simp only [update_self, give_self]
      exact ⟨hb, le_refl _, trivial⟩
    · simp only [update_of_ne hs]
      rcases h.tagged s' with h0 | ⟨hb, hle, ho⟩
      · exact .inl h0
      · refine .inr ⟨hb, hle, ?_⟩
        rw [give_of_ne]
        · exact ho
        · rintro ⟨h1, h2⟩
          rw [h1, h2, hnone] at ho
          cases ho
  · intro c
    refine (h.pc c).mono rfl rfl (le_refl _) fun s' _ => ?_
    dsimp only
    by_cases hs : s' = s
    · subst hs
      rw [update_self]
      rcases h.tagged s' with h0 | ⟨-, hle, -⟩
      · rw [h0]
        exact Nat.zero_le _
      · exact hle
    · rw [update_of_ne hs]

theorem Clean.take (h : Clean owner w) (ho : Owned owner w)
    (ht : Takes w.globals tag g) (hs : w.dying s = false) :
    Clean (give owner w.globals.generation tag (some s))
      { w with globals := g, ctx := update w.ctx s ⟨tag, w.globals.generation⟩ } := by
  obtain ⟨next, rfl⟩ := ht.eq
  -- no owner is lost: the tag had none
  have hkeep : ∀ G t s', owner G t = some s' →
      give owner w.globals.generation tag (some s) G t = some s' := by
    intro G t s' hown
    rw [give_of_ne]
    · exact hown
    · rintro ⟨rfl, rfl⟩
      exact Bool.noConfusion (ht.free.symm.trans (ho.taken _ s' hown))
  refine fun c => { h c with fresh := fun hb => ?_, gone := fun s' hs' => ?_ }
  · rcases (h c).fresh hb with hc | hw
    · exact .inl ⟨fun t s' hm => hkeep _ _ _ (hc.1 t s' hm), fun s' hm => hkeep _ _ _ (hc.2 s' hm)⟩
    · exact .inr (hw.mono rfl (le_refl _))
  · have hne : s' ≠ s := by
      rintro rfl
      exact Bool.noConfusion (hs.symm.trans hs')
    simp only [update_of_ne hne]
    exact (h c).gone s' hs'

end Space

end System

/-! ### Activation, translations and releases -/

namespace System

variable {owner : Nat → Nat → Option Space} {w : System Cpu Space}

section Cpu

variable [DecidableEq Cpu]

theorem Owned.activate (h : Owned owner w)
    {flush : Bool} (hpc : (w.cpu c).pc = .decided next gen flush owed) (tag : Nat)
    (tlb : Set (Nat × Option Space)) : Owned owner (w.setCpu c ⟨next, tag, .running, tlb⟩) := by
  refine h.of_cpu trivial fun s hs => ⟨?_, by simp [Pc.target]⟩
  have hidle := (h.dying s hs c).2
  rw [hpc] at hidle
  exact hidle

/-- **A timely activation.**  Without a flush the processor's translations are consistent, so all
that it holds under the tag it takes up is of the space that owns it. -/
theorem Clean.activate (h : Clean owner w) (ho : Owned owner w)
    {flush : Bool} (hpc : (w.cpu c).pc = .decided next gen flush owed)
    (htimely : ∀ s, next = some s → flush = false → (w.ctx s).asidGen = gen) :
    Clean owner (w.setCpu c
      ⟨next, w.tagOf next, .running, if flush = true then ∅ else (w.cpu c).tlb⟩) := by
  obtain ⟨-, hmachine, hdecided⟩ := ho.pc_of hpc
  have hsub : ∀ e, e ∈ (if flush = true then ∅ else (w.cpu c).tlb) → e ∈ (w.cpu c).tlb := by
    intro e he
    split_ifs at he
    · exact absurd he (Set.notMem_empty _)
    · exact he
  have hcons : flush = false → Consistent owner w.globals c (w.cpu c) := by
    intro hf
    have hb : w.globals.bits ≠ 0 := fun h0 => Bool.noConfusion (hf.symm.trans (hmachine h0))
    exact (h.fresh_of hb hpc).resolve_right fun hw => Bool.noConfusion (hf.symm.trans hw)
  -- with the generation of the processor, the space is the owner of its tag
  have howner : w.globals.bits ≠ 0 → ∀ s, next = some s → (w.ctx s).asidGen = gen →
      owner (w.globals.cpuGeneration c) (w.ctx s).asid = some s := by
    intro hb s _ hs
    obtain ⟨hpos, hstamp, -, -⟩ := hdecided hb
    rcases ho.tagged s with h0 | ⟨-, -, hown⟩
    · rw [h0] at hs
      dsimp only at hs
      omega
    · rw [hstamp, ← hs]
      exact hown
  refine h.of_cpu ⟨?_, ?_, fun t ht => (h c).kernelEntry t (hsub _ ht), ?_,
    fun s hs ha hm => (h c).gone s hs ha (hsub _ hm)⟩
  · intro e he
    cases hf : flush with
    | true =>
      rw [hf, if_pos rfl] at he
      exact absurd he (Set.notMem_empty _)
    | false =>
      have hb : w.globals.bits ≠ 0 := fun h0 => Bool.noConfusion (hf.symm.trans (hmachine h0))
      have hc := (hcons hf).1
      cases next with
      | none =>
        cases e with
        | none => rfl
        | some s' =>
          have h0 := hc 0 s' (hsub _ he)
          rw [ho.zero] at h0
          cases h0
      | some s =>
        have hown := howner hb s rfl (htimely s rfl hf)
        cases e with
        | none =>
          have h0 : (w.ctx s).asid = 0 := (h c).kernelEntry _ (hsub _ he)
          rw [h0, ho.zero] at hown
          cases hown
        | some s' => exact (hc _ s' (hsub _ he)).symm.trans hown
  · intro hn
    dsimp only at hn
    rw [hn]
    rfl
  · intro hb
    by_cases hsame : ∀ s, next = some s → (w.ctx s).asidGen = gen
    · refine .inl ⟨fun t s' hm => ?_, fun s hn => ?_⟩
      · cases hf : flush with
        | true =>
          rw [hf] at hm
          exact absurd hm (Set.notMem_empty _)
        | false => exact (hcons hf).1 t s' (hsub _ hm)
      · dsimp only at hn
        rw [hn]
        exact howner hb s hn (hsame s hn)
    · -- the tag has become one of a later generation, and the processor has flushed
      right
      obtain ⟨s, hs⟩ := not_forall.mp hsame
      obtain ⟨hn, hne⟩ := Classical.not_imp.mp hs
      obtain ⟨-, hstamp, -, hge⟩ := hdecided hb
      have hlt : gen < (w.ctx s).asidGen := lt_of_le_of_ne (hge s hn) fun he => hne he.symm
      rcases ho.tagged s with h0 | ⟨-, hle, -⟩
      · rw [h0] at hlt
        exact absurd hlt (Nat.not_lt_zero _)
      · show w.globals.cpuGeneration c < w.globals.generation
        rw [hstamp]
        exact hlt.trans_le hle

/-- A translation cached under the tag that runs is of the space that runs. -/
theorem Clean.cache (h : Clean owner w) (ho : Owned owner w) (c : Cpu) :
    Clean owner (w.setCpu c { w.cpu c with
      tlb := insert ((w.cpu c).tag, (w.cpu c).space) (w.cpu c).tlb }) := by
  refine h.of_cpu ⟨?_, (h c).kernelTag, ?_, fun hb => ?_, ?_⟩
  · rintro s (hs | hs)
    · exact (Prod.mk.inj hs).2
    · exact (h c).running s hs
  · rintro t (ht | ht)
    · obtain ⟨rfl, hn⟩ := Prod.mk.inj ht
      exact (h c).kernelTag hn.symm
    · exact (h c).kernelEntry t ht
  · rcases (h c).fresh hb with hc | hw
    · refine .inl ⟨?_, hc.2⟩
      rintro t s (hm | hm)
      · obtain ⟨rfl, hn⟩ := Prod.mk.inj hm
        exact hc.2 s hn.symm
      · exact hc.1 t s hm
    · exact .inr hw
  · rintro s hs ha (hm | hm)
    · exact (ho.dying s hs c).1 (Prod.mk.inj hm).2.symm
    · exact (h c).gone s hs ha hm

end Cpu

section Space

variable [DecidableEq Space]

theorem Owned.invalidate (h : Owned owner w) (hidle : w.Idle s)
    (f : Cpu → Set (Nat × Option Space)) :
    Owned owner { w with
      cpu := fun c => { w.cpu c with tlb := f c }
      dying := update w.dying s true } := by
  refine { h with dying := fun s' hs' => ?_ }
  by_cases hs : s' = s
  · subst hs
    exact hidle
  · simp only [update_of_ne hs] at hs'
    exact h.dying s' hs'

theorem Clean.invalidate (h : Clean owner w) (s : Space) :
    Clean owner { w with
      cpu := fun c => { w.cpu c with
        tlb := {e ∈ (w.cpu c).tlb | (w.ctx s).asid = 0 ∨ e.1 ≠ (w.ctx s).asid} }
      dying := update w.dying s true } := by
  refine fun c => ⟨fun s' hm => (h c).running s' hm.1, (h c).kernelTag,
    fun t hm => (h c).kernelEntry t hm.1, fun hb => ?_, fun s' hs' ha hm => ?_⟩
  · exact ((h c).fresh hb).imp (fun hc => ⟨fun t s' hm => hc.1 t s' hm.1, hc.2⟩) id
  · by_cases hs : s' = s
    · subst hs
      rcases hm.2 with h0 | hne
      exacts [ha h0, hne rfl]
    · simp only [update_of_ne hs] at hs'
      exact (h c).gone s' hs' ha hm.1

/-- **Releasing a tag** that no processor holds a translation under. -/
theorem Owned.release (h : Owned owner w) (hc : Clean owner w) (hd : w.dying s = true) :
    ∃ owner', Tidy owner' { w with
      globals := (asidRelease w.globals (w.ctx s)).1
      ctx := update w.ctx s (asidRelease w.globals (w.ctx s)).2
      dying := update w.dying s false } := by
  have hidle := h.dying s hd
  have hdying : ∀ s', update w.dying s false s' = true → s' ≠ s ∧ w.dying s' = true := by
    intro s' hs'
    by_cases hs : s' = s
    · subst hs
      rw [update_self] at hs'
      cases hs'
    · rw [update_of_ne hs] at hs'
      exact ⟨hs, hs'⟩
  by_cases hnone : w.globals.bits = 0 ∨ (w.ctx s).asid = 0
  · -- the space has no tag
    rw [asidRelease, if_pos hnone, update_eq_self]
    exact ⟨owner, { h with dying := fun s' hs' => h.dying s' (hdying s' hs').2 },
      fun c => { hc c with gone := fun s' hs' => (hc c).gone s' (hdying s' hs').2 }⟩
  obtain ⟨hb, hasid⟩ := not_or.mp hnone
  obtain ⟨-, hle, hown⟩ : w.globals.bits ≠ 0 ∧ (w.ctx s).asidGen ≤ w.globals.generation ∧
      owner (w.ctx s).asidGen (w.ctx s).asid = some s :=
    (h.tagged s).resolve_left fun h0 => hasid (by rw [h0])
  obtain ⟨bm, hrel, hbm⟩ := asidRelease_tagged hb hasid
  rw [hrel]
  have hctx : ∀ s', s' ≠ s → update w.ctx s ⟨0, 0⟩ s' = w.ctx s' :=
    fun s' hs => update_of_ne hs _ _
  -- the tag has no owner any more, and no other owner is lost
  have hother : ∀ G t s', owner G t = some s' → s' ≠ s →
      give owner (w.ctx s).asidGen (w.ctx s).asid none G t = some s' := by
    intro G t s' ho hne
    rw [give_of_ne]
    · exact ho
    · rintro ⟨rfl, rfl⟩
      rw [hown] at ho
      exact hne (Option.some.inj ho).symm
  obtain ⟨hfuture, hzero⟩ := h.given hle hasid none
  refine ⟨_, ⟨h.geometry, h.generation_pos, h.stamp_le, hfuture, hzero, ?_, ?_, ?_,
      fun s' hs' => h.dying s' (hdying s' hs').2⟩,
    fun c => { hc c with fresh := fun _ => ?_, gone := fun s' hs' ha => ?_ }⟩
  · intro t s' ho
    by_cases ht : w.globals.generation = (w.ctx s).asidGen ∧ t = (w.ctx s).asid
    · obtain ⟨hG, rfl⟩ := ht
      dsimp only at ho
      rw [hG, give_self] at ho
      cases ho
    · rw [give_of_ne _ _ ht] at ho
      exact hbm t (h.taken t s' ho) ht
  · intro s'
    by_cases hs : s' = s
    · subst hs
      exact .inl (update_self _ _ _)
    · simp only [hctx s' hs]
      rcases h.tagged s' with h0 | ⟨hb, hle, ho⟩
      · exact .inl h0
      · exact .inr ⟨hb, hle, hother _ _ _ ho hs⟩
  · refine fun c => (h.pc c).mono rfl rfl (le_refl _) fun s' ht => ?_
    exact (congrArg Context.asidGen (hctx s' fun hs => (hidle c).2 (hs ▸ ht))).ge
  · rcases (hc c).fresh hb with hcons | hw
    · refine .inl ⟨fun t s' hm => ?_, fun s' hs' =>
        hother _ _ _ (hcons.2 s' hs') fun he => (hidle c).1 (he ▸ hs')⟩
      -- under the tag that is released no translation of its owner is left
      have ho := hcons.1 t s' hm
      rw [give_of_ne]
      · exact ho
      · rintro ⟨h1, rfl⟩
        rw [h1, hown] at ho
        cases ho
        exact (hc c).gone s hd hasid hm
    · exact .inr (hw.mono rfl (le_refl _))
  · obtain ⟨hne, hs'⟩ := hdying s' hs'
    simp only [hctx s' hne] at ha ⊢
    exact (hc c).gone s' hs' ha

end Space

end System

/-! ## Runs -/

namespace System

variable [DecidableEq Cpu] [DecidableEq Space]

/-- An activation without a flush finds the context with the generation the answer was about. -/
def Timely (w w' : System Cpu Space) : Prop :=
  ∀ c s gen owed, (w.cpu c).pc = .decided (some s) gen false owed → (w'.cpu c).pc = .running →
    (w.ctx s).asidGen = gen

variable {owner : Nat → Nat → Option Space} {w w' : System Cpu Space}

/-- The section under the lock: at most a rollover, at most one tag given, and the answer. -/
theorem Owned.locked (h : Owned owner w) (hc : Clean owner w) {k : Context}
    (hpc : (w.cpu c).pc = .untagged s owed)
    (hrun : tagLocked w.globals (w.ctx s) = some (g, k)) :
    ∃ owner', Tidy owner' (({ w with globals := g, ctx := update w.ctx s k }).answer c
      (some s) g.generation owed) := by
  obtain ⟨hb, howed⟩ := h.pc_of hpc
  have hdying : w.dying s = false := h.alive hpc rfl
  -- whatever happened under the lock, the answer is for the generation the space now carries
  have key : ∀ (v : System Cpu Space) (o : Nat → Nat → Option Space), Owned o v → Clean o v →
      v.cpu = w.cpu → v.globals.bits = w.globals.bits →
      v.globals.cpuGeneration = w.globals.cpuGeneration →
      w.globals.generation ≤ v.globals.generation →
      (v.ctx s).asidGen = v.globals.generation →
      Tidy o (v.answer c (some s) v.globals.generation owed) := by
    intro v o ho hc hcpu hbits hstamp hgen hctx
    refine ⟨?_, hc.answer fun h0 => hc.fresh_of h0 (hcpu ▸ hpc)⟩
    · refine ho.answer ho.generation_pos (le_refl _) (fun hw => ?_) (hbits ▸ hb) ?_ ?_
      · rw [hstamp]
        exact (howed hw).trans_le hgen
      · intro s' hs'
        cases hs'
        exact hctx.ge
      · rw [hcpu, hpc]
        rfl
  obtain ⟨g', k', hrun', hcases⟩ := tagLocked_spec hb h.geometry (w.ctx s)
  rw [hrun] at hrun'
  obtain ⟨rfl, rfl⟩ := Prod.mk.inj (Option.some.inj hrun')
  rcases hcases with ⟨hcur, rfl, rfl⟩ | ⟨-, ⟨tag, htake, rfl⟩ | ⟨tag, htake, rfl⟩⟩
  · rw [update_eq_self]
    exact ⟨owner, key w owner h hc rfl rfl rfl (le_refl _) hcur⟩
  · obtain ⟨next, heq⟩ := htake.eq
    exact ⟨_, key _ _ (h.take htake hb) (hc.take h htake hdying) rfl (by rw [heq]) (by rw [heq])
      (by rw [heq]) (by simp [heq])⟩
  · obtain ⟨next, heq⟩ := htake.eq
    have hroll := h.rollover hb
    exact ⟨_, key _ _ (hroll.take htake hb) (hc.rollover.take hroll htake hdying) rfl
      (by rw [heq]; rfl) (by rw [heq]; rfl) (by rw [heq]; exact Nat.le_succ _) (by simp [heq])⟩

/-- **One timely step** keeps what is said of the tags and of the translations. -/
theorem Tidy.step (h : Tidy owner w) (hstep : Step w w') (ht : Timely w w') :
    ∃ owner', Tidy owner' w' := by
  obtain ⟨h, hc⟩ := h
  cases hstep with
  | beginUntagged c next hpc hnext hb =>
    refine ⟨owner, h.setPc ⟨fun _ => rfl, fun _ => rfl, fun h0 => absurd hb h0⟩ hnext,
      hc.setPc fun h0 => absurd hb h0⟩
  | begin c next hpc hnext hb =>
    refine ⟨owner, h.setPc ⟨hb, h.generation_pos, h.stamp_le c, le_refl _, fun ho => ?_⟩ hnext,
      hc.setPc fun h0 => (hc.fresh_of h0 hpc).imp id id⟩
    exact lt_of_le_of_ne (h.stamp_le c) (by simpa using ho)
  | checkKernel c gen owed hpc =>
    obtain ⟨hb, hpos, -, hle, howed⟩ := h.pc_of hpc
    exact ⟨owner, h.answer hpos hle howed hb (fun s hs => by cases hs) (by rw [hpc]; rfl),
      hc.answer fun h0 => hc.fresh_of h0 hpc⟩
  | checkSame c s gen owed hpc hsame =>
    obtain ⟨hb, hpos, -, hle, howed⟩ := h.pc_of hpc
    refine ⟨owner, h.answer hpos hle howed hb (fun s' hs' => ?_) (by rw [hpc]; rfl),
      hc.answer fun h0 => hc.fresh_of h0 hpc⟩
    cases hs'
    exact hsame.ge
  | checkOther c s gen owed hpc hother =>
    obtain ⟨hb, -, -, hle, howed⟩ := h.pc_of hpc
    have hpc' : PcOk w.globals w.ctx c (.untagged s owed) :=
      ⟨hb, fun ho => (howed ho).trans_le hle⟩
    exact ⟨owner, h.setPc hpc' fun s' hs' => h.alive hpc hs',
      hc.setPc fun h0 => (hc.fresh_of h0 hpc).imp id fun hw => lt_of_lt_of_le hw hle⟩
  | locked c s owed g k hpc hrun => exact h.locked hc hpc hrun
  | activate c next gen flush owed hpc =>
    refine ⟨owner, h.activate hpc _ _, hc.activate h hpc fun s hs hf => ?_⟩
    subst hs hf
    exact ht c s gen owed hpc (by simp [setCpu])
  | cache c =>
    exact ⟨owner, h.of_cpu (h.pc c) fun s hs => h.dying s hs c, hc.cache h c⟩
  | rollover hb => exact ⟨owner, h.rollover hb, hc.rollover⟩
  | setParanoid on =>
    exact ⟨owner, { h with pc := fun c => (h.pc c).mono rfl rfl (le_refl _) fun s _ => le_refl _ },
      fun c => (hc c).mono rfl rfl (le_refl _)⟩
  | invalidate s hidle => exact ⟨owner, h.invalidate hidle _, hc.invalidate s⟩
  | release s hd => exact h.release hc hd

/-- Two processors and two spaces, just after `asid_init(8)`. -/
def twoCpus : System (Fin 2) (Fin 2) where
  globals := asidInit ⟨0, 0, 1, 0, fun _ => false, fun _ => 0, false⟩ 8
  ctx := fun _ => ⟨0, 0⟩
  cpu := fun _ => ⟨none, 0, .running, ∅⟩
  dying := fun _ => false

end System

end CosmoOS.Memory.Asid
