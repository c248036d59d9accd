import CosmoOS.Network.FirewallFlows
import Mathlib.Algebra.Order.BigOperators.Group.Finset
import Mathlib.Data.Fintype.Card

/-!
# The shares of the flow table

A new flow is refused where the living flows of its initiator are as many as its share.  Only the
host and an attached guest can open one, and the shares of the host and of eight guests are together
the table: within its share an initiator always finds a slot, so that a flood of opening datagrams
starves only its sender.
-/

namespace CosmoOS.Network.Firewall

open Function Lib

variable {st st' : State} {c c' : Config} {f f' : Flow} {k : Key} {v : View} {i : Fin 320}
  {now now' quota : ℕ} {ip : UInt32}

/-- The living flows that count against an address. -/
def charged (st : State) (ip : UInt32) (now : ℕ) : Finset (Fin 320) :=
  {i | (st.flows i).isLive now ∧ (st.flows i).guestIp = ip}

def share (ip : UInt32) : ℕ := if ip = hostGuestIp then flowQuotaHost else flowQuotaPerGuest

def guestIps (c : Config) : Finset UInt32 :=
  ({g | g ≠ host ∧ (c.guests g).attached} : Finset (Fin 9)).image fun g => (c.guests g).ip

/-- A flow of the host's, or one that an attached guest opened. -/
def Owned (c : Config) (f : Flow) : Prop :=
  f.guestIp = hostGuestIp ∨ f.aIp = f.guestIp ∧ f.guestIp ∈ guestIps c

/-- No address has more living flows than its share, and only the host and attached guests have
any. -/
structure InShare (st : State) (now : ℕ) : Prop where
  le : ∀ ip, (charged st ip now).card ≤ share ip
  owned : ∀ i, (st.flows i).isLive now → Owned st.toConfig (st.flows i)

theorem countP_charged (st : State) (ip : UInt32) (now : ℕ) : (List.finRange 320).countP
    (fun i => (st.flows i).isLive now && (st.flows i).guestIp == ip) =
      (charged st ip now).card := by
  rw [List.countP_eq_length_filter,
    ← List.toFinset_card_of_nodup ((List.nodup_finRange _).filter _)]
  congr 1
  ext i
  simp [charged]

theorem flowSlot_some (h : flowSlot st ip quota now = some i) :
    (charged st ip now).card < quota := by
  rw [flowSlot, countP_charged] at h
  split at h
  · cases h
  · omega

theorem mem_guestIps : ip ∈ guestIps c ↔
    ∃ g, g ≠ host ∧ (c.guests g).attached = true ∧ (c.guests g).ip = ip := by
  simp [guestIps, and_assoc]

theorem guestFind_mem {g : Fin 9} (h : guestFind c ip = some g) : ip ∈ guestIps c := by
  have hg := List.find?_some h
  simp only [Bool.and_eq_true, beq_iff_eq] at hg
  exact mem_guestIps.mpr ⟨g, guestFind_ne h, hg.1.2, hg.2⟩

theorem sum_share (c : Config) : ∑ ip ∈ insert hostGuestIp (guestIps c), share ip ≤ 320 := by
  have hguests : ((insert hostGuestIp (guestIps c)).erase hostGuestIp).card ≤ 8 := by
    refine (Finset.card_le_card (Finset.erase_insert_subset _ _)).trans
      (Finset.card_image_le.trans ?_)
    exact (Finset.card_le_card (fun g hg => by simp_all : _ ⊆ Finset.univ.erase host)).trans
      (by decide)
  have hshare : ∀ ip ∈ (insert hostGuestIp (guestIps c)).erase hostGuestIp, share ip = 32 :=
    fun ip hip => if_neg (Finset.ne_of_mem_erase hip)
  rw [← Finset.add_sum_erase _ _ (Finset.mem_insert_self _ _), Finset.sum_const_nat hshare,
    show share hostGuestIp = 64 from rfl]
  omega

section

variable (h : InShare st now)

include h

/-- **A slot for whoever is within their share.** -/
theorem InShare.flowSlot_isSome (hq : quota ≤ share ip)
    (hip : ip ∈ insert hostGuestIp (guestIps st.toConfig))
    (hlt : (charged st ip now).card < quota) : (flowSlot st ip quota now).isSome := by
  rw [flowSlot, countP_charged, if_neg (not_le.mpr hlt), List.find?_isSome]
  by_contra hfull
  -- all 320 flows would live, each counted against its owner
  have hlive : ∀ i, (st.flows i).isLive now := by simpa using hfull
  have hsum : ∑ a ∈ insert hostGuestIp (guestIps st.toConfig), (charged st a now).card = 320 := by
    have hcard := Finset.card_eq_sum_card_fiberwise (f := fun i => (st.flows i).guestIp)
      (s := Finset.univ) (t := insert hostGuestIp (guestIps st.toConfig))
      fun i _ => Finset.mem_insert.mpr ((h.owned i (hlive i)).imp id And.right)
    rw [Finset.card_fin] at hcard
    refine (Finset.sum_congr rfl fun a _ => ?_).trans hcard.symm
    simp [charged, hlive]
  have hless := Finset.sum_lt_sum (fun a _ => h.le a) ⟨ip, hip, hlt.trans_le hq⟩
  have := sum_share st.toConfig
  omega

theorem InShare.mono (hk : ∀ i, (st'.flows i).isLive now' → (st.flows i).isLive now ∧
    (st'.flows i).guestIp = (st.flows i).guestIp ∧
      (Owned st.toConfig (st.flows i) → Owned st'.toConfig (st'.flows i))) :
    InShare st' now' := by
  refine ⟨fun ip => (Finset.card_le_card fun i hi => ?_).trans (h.le ip), fun i hi => ?_⟩
  · rw [charged, Finset.mem_filter_univ] at hi ⊢
    obtain ⟨hl, heq, -⟩ := hk i hi.1
    exact ⟨hl, heq ▸ hi.2⟩
  · obtain ⟨hl, -, hown⟩ := hk i hi
    exact hown (h.owned i hl)

/-- One flow is changed: a living one, or within the share. -/
theorem InShare.update (hf : st'.flows = update st.flows i f) (hc : st'.toConfig = st.toConfig)
    (hi : (st.flows i).isLive now ∧ f.guestIp = (st.flows i).guestIp ∧ f.aIp = (st.flows i).aIp ∨
      (charged st f.guestIp now).card < share f.guestIp ∧ Owned st.toConfig f) :
    InShare st' now := by
  have hother : ∀ j ≠ i, st'.flows j = st.flows j := fun j hj => by rw [hf, update_of_ne hj]
  have hself : st'.flows i = f := by rw [hf, update_self]
  rcases hi with ⟨hi, hip, ha⟩ | ⟨hlt, hown⟩
  · exact h.mono fun j hj => by grind [Owned]
  · refine ⟨fun ip => ?_, fun j hj => ?_⟩
    · by_cases heq : f.guestIp = ip
      · have hsub : charged st' ip now ⊆ insert i (charged st ip now) := fun j hj => by
          grind [charged]
        have hcard := (Finset.card_le_card hsub).trans (Finset.card_insert_le _ _)
        grind
      · exact (Finset.card_le_card fun j hj => by grind [charged]).trans (h.le ip)
    · have := h.owned j
      grind

theorem InShare.fill (hslot : flowSlot st ip quota now = some i) (hq : quota ≤ share ip)
    (hip : ip = hostGuestIp ∨ k.src = ip ∧ ip ∈ guestIps st.toConfig)
    (hf : st'.flows = Function.update st.flows i (flowFill ip k v now))
    (hc : st'.toConfig = st.toConfig) : InShare st' now := by
  have hfill : (flowFill ip k v now).guestIp = ip ∧ (flowFill ip k v now).aIp = k.src := by
    unfold flowFill
    split <;> exact ⟨rfl, rfl⟩
  refine h.update hf hc (.inr ?_)
  rw [Owned, hfill.1, hfill.2]
  exact ⟨(flowSlot_some hslot).trans_le hq, hip⟩

theorem InShare.keep (p : Flow → Bool) (hc : ∀ f, p f = true → Owned st.toConfig f → Owned c f) :
    InShare { st.keep p with toConfig := c } now := by
  refine h.mono fun i hi => ?_
  simp only [State.keep, Flow.isLive, Bool.and_eq_true] at hi ⊢
  exact ⟨⟨hi.1.1, hi.2⟩, trivial, hc _ hi.1.2⟩

theorem InShare.forwardNew (dir : UInt8) : InShare (forwardNew st dir k v now).2 now := by
  fun_cases Firewall.forwardNew st dir k v now with
  | case1 | case3 => exact h
  | case2 verdict hopen slot hslot =>
    refine h.fill hslot ?_ (.inr ⟨rfl, ?_⟩) rfl rfl
    · unfold share
      split <;> decide
    · -- what is accepted on the way to a guest is some guest's
      cases hg : guestFind st.toConfig k.src with
      | some g => exact guestFind_mem hg
      | none =>
        obtain ⟨haccept, hdir, -⟩ := hopen
        simp only [verdict, hg, if_pos hdir] at haccept
        cases haccept

theorem InShare.refreshed (hr : Refreshed st st' now) : InShare st' now := by
  obtain ⟨i, f, hlive, hf, hip, hk, hc⟩ := hr
  exact h.update hf hc (.inl ⟨hlive, hip, congrArg (fun x => x.2.1) hk⟩)

end

theorem Call.mem_guestIps {call : Call} (hcall : ∀ a, call ≠ .purge a) (h : ip ∈ guestIps c) :
    ip ∈ guestIps (call.apply c) := by
  obtain ⟨g, hne, hatt, hip⟩ := Firewall.mem_guestIps.mp h
  refine Firewall.mem_guestIps.mpr ⟨g, hne, ?_⟩
  cases call with
  | attach a gateway =>
    simp only [apply, guestAttach]
    split
    · exact ⟨hatt, hip⟩
    · rename_i i hi
      by_cases hgi : g = i
      · subst hgi
        rcases Option.or_eq_some_iff.mp hi with hi | ⟨-, hi⟩
        · have := List.find?_some hi
          simp_all [guestReset]
        · have := List.find?_some hi
          simp_all
      · simp only [update_of_ne hgi]
        exact ⟨hatt, hip⟩
  | purge a => exact absurd rfl (hcall a)
  | flush => simp [apply, Firewall.flush, outFastUpdate, update_of_ne hne, hatt, guestReset, hip]
  | add a i rule =>
    simp only [apply]
    fun_cases ruleAdd c a i rule <;> simp [Except.toOption, outFastUpdate, hatt, hip]
    grind
  | del a rule =>
    simp only [apply]
    fun_cases ruleDel c a rule <;> simp [Except.toOption, outFastUpdate, hatt, hip]
    grind
  | policy a dir v =>
    simp only [apply]
    fun_cases policySet c a dir v <;> simp [Except.toOption, outFastUpdate, hatt, hip]
    grind

theorem guestPurge_mem {a : UInt32} (h : ip ∈ guestIps c) (hne : ip ≠ a) :
    ip ∈ guestIps (guestPurge c a) := by
  rw [guestPurge]
  split
  · exact h
  · rename_i i hi
    obtain ⟨g, hg, hatt, hip⟩ := mem_guestIps.mp h
    have hi := List.find?_some hi
    have hgi : g ≠ i := by
      rintro rfl
      simp_all
    refine mem_guestIps.mpr ⟨g, hg, ?_⟩
    simp only [update_of_ne hgi]
    exact ⟨hatt, hip⟩

theorem InShare.apply (h : InShare st now) (act : Act) : InShare (act.apply st now) now := by
  cases act with
  | forward outFlags m k =>
    rw [Act.apply]
    rcases forwardVerdict_cases st outFlags rfl now with hr | ⟨dir, heq, -⟩
    · exact h.refreshed hr
    · rw [heq]
      exact h.forwardNew dir
  | send outFlags m k =>
    rw [Act.apply]
    split
    · exact h
    · rename_i v _
      rcases hostRecord_cases st k v now with hr | heq | ⟨-, slot, hslot, hf, hc⟩
      · exact h.refreshed hr
      · rwa [heq]
      · exact h.fill hslot (le_of_eq rfl) (.inl rfl) hf hc
  | receive m k =>
    rw [Act.apply]
    rcases hostVerdict_cases st m k now with hr | heq
    · exact h.refreshed hr
    · rwa [heq]
  | control call =>
    have hkept (hcall : ∀ a, call ≠ .purge a) :
        InShare { st with toConfig := call.apply st.toConfig } now :=
      h.mono fun i hi => ⟨hi, rfl, Or.imp id (And.imp id (call.mem_guestIps hcall))⟩
    cases call with
    | purge ip =>
      refine h.keep _ fun f hf => Or.imp id fun hown => ⟨hown.1, guestPurge_mem hown.2 ?_⟩
      rw [← hown.1]
      rintro rfl
      simp at hf
    | flush => exact h.mono fun i hi => by cases hi
    | _ => exact hkept (fun _ hc => by cases hc)
  | age =>
    exact h.keep (c := st.toConfig) (fun f => decide (now < f.expiresNs)) fun _ _ hown => hown

/-- **A flood starves only its sender.**  In every run, whatever datagrams come and however time
passes, the living flows that count against an address are never more than its share of the
table; and the host, and every attached guest, finds a slot for a new flow exactly as long as its
own flows are fewer than its quota, whatever the others do. -/
theorem flows_in_share {C : State → Act → ℕ → Prop} {s : Sys}
    (h : Reachable (· = {}) (Step C) s) {now : ℕ} (hnow : s.now ≤ now) (ip : UInt32) :
    (charged s.st ip now).card ≤ (if ip = hostGuestIp then 64 else 32) ∧
    (ip = hostGuestIp →
      ((flowSlot s.st ip flowQuotaHost now).isSome ↔ (charged s.st ip now).card < 64)) ∧
    ((guestFind s.st.toConfig ip).isSome →
      ((flowSlot s.st ip flowQuotaPerGuest now).isSome ↔ (charged s.st ip now).card < 32)) := by
  have hlater {st : State} {t t' : ℕ} (hs : InShare st t) (hle : t ≤ t') : InShare st t' := by
    refine hs.mono fun i hi => ⟨?_, rfl, id⟩
    simp only [Flow.isLive, Bool.and_eq_true, decide_eq_true_eq] at hi ⊢
    exact ⟨hi.1, hle.trans_lt hi.2⟩
  have hin : InShare s.st s.now := by
    refine Reachable.invariant (P := fun s => InShare s.st s.now) ?_ ?_ h
    · rintro _ rfl
      exact ⟨fun ip => by simp [charged, Flow.isLive], fun i hi => by cases hi⟩
    · rintro s t hs ⟨act, hle, -, ht⟩
      rw [ht]
      exact (hlater hs hle).apply act
  have hin := hlater hin hnow
  have hslot {quota : ℕ} (hsome : (flowSlot s.st ip quota now).isSome) :
      (charged s.st ip now).card < quota :=
    flowSlot_some (Option.some_get hsome).symm
  refine ⟨hin.le ip, ?_, fun hg => ⟨hslot, ?_⟩⟩
  · rintro rfl
    exact ⟨hslot, hin.flowSlot_isSome (le_of_eq rfl) (Finset.mem_insert_self _ _)⟩
  · obtain ⟨g, hg⟩ := Option.isSome_iff_exists.mp hg
    refine hin.flowSlot_isSome ?_ (Finset.mem_insert_of_mem (guestFind_mem hg))
    unfold share
    split <;> decide

/-- The first of two guests opens as many connections as it may: it finds no slot for another, and
the second does. -/
theorem flows_in_share_flood : ∃ s : Sys, (charged s.st 1 s.now).card = 32 ∧
    ((flowSlot s.st 1 flowQuotaPerGuest s.now).isSome ↔ (charged s.st 1 s.now).card < 32) ∧
    ((flowSlot s.st 2 flowQuotaPerGuest s.now).isSome ↔ (charged s.st 2 s.now).card < 32) := by
  have hinit : Reachable (· = {}) (Step fun _ _ _ => True) {} := Reachable.init rfl
  obtain ⟨s, hs, hp⟩ := Reachable.of_run
    (fun s a t (h : some ⟨Act.apply s.st s.now a, s.now⟩ = some t) => by
      cases h
      exact ⟨a, le_rfl, trivial, rfl⟩) hinit
    (opened ++ (List.range 31).map fun i => syn 1 2 (5001 + .ofNat i) 80)
    (fun s => decide ((charged s.st 1 s.now).card = 32 ∧ (guestFind s.st.toConfig 1).isSome ∧
      (guestFind s.st.toConfig 2).isSome)) (by decide +kernel)
  obtain ⟨hcard, h₁, h₂⟩ := of_decide_eq_true hp
  exact ⟨s, hcard, (flows_in_share hs le_rfl 1).2.2 h₁, (flows_in_share hs le_rfl 2).2.2 h₂⟩

end CosmoOS.Network.Firewall
