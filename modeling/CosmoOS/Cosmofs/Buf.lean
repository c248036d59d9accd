import CosmoOS.Cosmofs.Space

/-!
# Metadata buffers: reading, making, copying on write, and the set-aside

The functions of `cosmofs_buf.cee` that every metadata tree is written with.  What a
block reads as is `view`: the transaction's buffer if it has one, else the pool's
block.  A buffer is written only at an address this transaction owns: one just
allocated, or one whose header already carries the transaction's number.

The set-aside (`prepMeta`, `prepTake`, `prepRelease`) is how a change that must not
stop half way is made: every block it will need is allocated first, all or nothing.
A set-aside is a list of addresses; taking from it is taking its head.
-/

namespace CosmoOS.Cosmofs

open Lib Fallible List

/-- Pointers a block of pointers holds (`CFS_PTRS_PER_BLOCK`). -/
def ptrsPerBlock : Nat := 508

/-- Runs a chain block holds (`CFS_EXTENTS_PER_BLOCK`). -/
def extentsPerBlock : Nat := 253

/-- The largest set-aside (`CFS_PREP_MAX`). -/
def prepMax : Nat := 18

/-- The contents of a fresh zeroed block of a kind. -/
def Payload.zero : Kind → Payload
  | .imap1 => .imap1 fun _ => 0
  | .imap0 => .imap0 fun _ => 0
  | .inodes => .inodes fun _ => none
  | .allocidx => .allocidx fun _ => 0
  | .bitmap => .bitmap fun _ => false
  | .extents => .extents 0 (List.replicate extentsPerBlock Extent.zero)
  | .csumidx => .csumidx fun _ => 0
  | .csum => .csum fun _ => 0
  | .snaplist => .snaplist 0 []
  | .deadlist => .deadlist 0 []
  | .members => .members []
  | .keys => .keys
  | .freelog => .freelog 0 []
  | .orphan => .orphan 0 []
  | .snaplist2 => .snaplist2 0 0 []
  | .rollback => .rollback ⟨false, 0, 0, 0, 0, 0, 0, 0⟩
  | .copystate => .copystate
  | .csumidx2 => .csumidx2 fun _ => 0

theorem Payload.kind_zero (k : Kind) : (Payload.zero k).kind = k := by
  cases k <;> rfl

/-! ## Reading -/

/-- What the block reads as in the open transaction. -/
def view (s : Fs) (d : Nat) : Option MBlock :=
  match s.bufs d with
  | some b => some b
  | none =>
    match s.disk d with
    | .mblock b => some b
    | _ => none

/-- The kind asked for; `none` is any. -/
def kindOk (want : Option Kind) (b : MBlock) : Bool := want.all fun k => k == b.payload.kind

/-- The block at `d`, checked: from the transaction's buffers, or read from the pool. -/
def bufGet (d : Nat) (want : Option Kind) : M MBlock := fun s =>
  if !dvaValid s.geo d then (.error .eio, s)
  else
    match s.bufs d with
    | some b => if kindOk want b then (.ok b, s) else (.error .eio, s)
    | none =>
      match mayFail .enomem s with
      | (.error e, t) => (.error e, t)
      | (.ok _, t) =>
        match mayFail .eio t with
        | (.error e, u) => (.error e, u)
        | (.ok _, u) =>
          match u.disk d with
          | .mblock b => if kindOk want b then (.ok b, u) else (.error .eio, u)
          | _ => (.error .eio, u)

variable {d n : Nat} {want : Option Kind} {s t u : Fs} {e : Errno} {ds : List Nat}

/-- **A read** changes nothing but the faults.  A block read is the block in view; an error is of
memory, of the device, or of a block that is not the one asked for, and with nothing failing it
is the last. -/
theorem bufGet_spec {r : Except Errno MBlock} (h : bufGet d want s = (r, t)) :
    Drew s t ∧ Ends (fun b => dvaValid s.geo d = true ∧ view s d = some b ∧ kindOk want b = true)
      (fun e => (e = .eio ∨ e = .enomem) ∧ (s.faults = [] → e = .eio ∧
        ∀ b, dvaValid s.geo d = true → view s d = some b → kindOk want b = false)) r := by
  unfold bufGet at h
  unfold view
  cases hv : dvaValid s.geo d with
  | false =>
    rw [hv] at h
    cases h
    exact ⟨.refl s, .inl rfl, fun _ => ⟨rfl, nofun⟩⟩
  | true =>
  rw [hv] at h
  cases hb : s.bufs d with
  | some b =>
    simp only [hb, Bool.not_true, Bool.false_eq_true, if_false] at h
    split at h <;> cases h
    next hk => exact ⟨.refl s, rfl, rfl, hk⟩
    next hk => exact ⟨.refl s, .inl rfl, by simp [hk]⟩
  | none =>
  simp only [hb, Bool.not_true, Bool.false_eq_true, if_false] at h
  obtain ⟨fl, hfl, hm | ⟨hne, hm⟩⟩ := mayFail_cases .enomem s
  · obtain ⟨fl', hfl', hm' | ⟨hne, hm'⟩⟩ := mayFail_cases .eio { s with faults := fl }
    · -- the block comes from the pool
      have hdrew : Drew s { s with faults := fl' } := ⟨fl', rfl, fun hf => hfl' (hfl hf)⟩
      simp only [hm, hm'] at h
      cases hd : s.disk d with
      | mblock b =>
        simp only [hd] at h
        split at h <;> cases h
        next hk => exact ⟨hdrew, rfl, rfl, hk⟩
        next hk => exact ⟨hdrew, .inl rfl, by simp [hk]⟩
      | _ =>
        simp only [hd] at h
        cases h
        exact ⟨hdrew, .inl rfl, by simp⟩
    · simp only [hm, hm'] at h
      cases h
      exact ⟨⟨fl', rfl, fun hf => hfl' (hfl hf)⟩, .inl rfl, fun hf => absurd (hfl hf) hne⟩
  · simp only [hm] at h
    cases h
    exact ⟨⟨fl, rfl, hfl⟩, .inr rfl, fun hf => absurd hf hne⟩

theorem bufGet_nil {b : MBlock} (hf : s.faults = []) (hv : dvaValid s.geo d = true)
    (hb : view s d = some b) (hk : kindOk want b = true) :
    bufGet d want s = (.ok b, s) := by
  rcases hget : bufGet d want s with ⟨r, t⟩
  obtain ⟨⟨fl, rfl, hfl⟩, hr⟩ := bufGet_spec hget
  cases r with
  | ok b' =>
    cases hb.symm.trans hr.2.1
    rw [hfl hf, ← hf]
  | error e => cases ((hr.2 hf).2 b hv hb).symm.trans hk

/-! ## The set-aside -/

/-- Allocate `n` more blocks and the memory of their buffers; a failure gives back the
block in hand and those of `acc`. -/
def prepLoop : Nat → List Nat → M (List Nat)
  | 0, acc => pure acc
  | n + 1, acc => do
    let r ← onError (allocRun .metadata 0 1) (modify (undoAll acc))
    onError (mayFail .enomem) (modify fun s => undoAll acc (allocUndo r.1 s))
    prepLoop n (acc ++ [r.1])

/-- Metadata blocks set aside before a change that must not stop half way: all or
nothing. -/
def prepMeta (n : Nat) : M (List Nat) := if n > prepMax then fail .efbig else prepLoop n []

/-- What the change did not take goes back. -/
def prepRelease (p : List Nat) : M Unit := modify (undoAll p)

/-- The next set-aside block; to run out of them is an assertion failure. -/
def prepTake : List Nat → M (Nat × List Nat)
  | [] => fail .assertFailed
  | d :: p => pure (d, p)

/-- `ds` are distinct free blocks of `s` that `t` has taken, with the space and some
faults spent on it. -/
structure SetAside (s : Fs) (ds : List Nat) (t : Fs) : Prop where
  nodup : ds.Nodup
  valid : ∀ d ∈ ds, dvaValid s.geo d = true
  was_free : ∀ d ∈ ds, allocated s d = false
  bits : ∀ l, t.space.bitmap l = true ↔
    s.space.bitmap l = true ∨ ∃ d ∈ ds, dvaLin s.geo d = some l
  frame : ∃ sp fl, t = { s with space := sp, faults := fl }

theorem SetAside.geo (h : SetAside s ds t) : t.geo = s.geo := by
  obtain ⟨sp, fl, rfl⟩ := h.frame
  rfl

theorem SetAside.gen (h : SetAside s ds t) : t.gen = s.gen := by
  obtain ⟨sp, fl, rfl⟩ := h.frame
  rfl

theorem SetAside.nil (s : Fs) : SetAside s [] s :=
  ⟨nodup_nil, by simp, by simp, by simp, _, _, rfl⟩

/-- What is allocated once blocks are set aside. -/
theorem SetAside.now (h : SetAside s ds t) (d : Nat) :
    allocated t d = true ↔ allocated s d = true ∨ d ∈ ds := allocated_iff h.geo h.valid h.bits d

/-- No bit has changed, and nothing else but the counters of the space and the faults. -/
def SameBits (s t : Fs) : Prop :=
  t.space.bitmap = s.space.bitmap ∧ ∃ sp fl, t = { s with space := sp, faults := fl }

theorem SameBits.of_drew (h : Drew s t) : SameBits s t := by
  obtain ⟨fl, rfl, -⟩ := h
  exact ⟨rfl, _, _, rfl⟩

theorem SameBits.before (h : SameBits t u) (hs : Drew s t) : SameBits s u := by
  obtain ⟨fl, rfl, -⟩ := hs
  obtain ⟨hb, sp, fl', rfl⟩ := h
  exact ⟨hb, sp, fl', rfl⟩

/-- Giving a set-aside back restores every bit. -/
theorem SetAside.undo (h : SetAside s ds t) :
    SameBits s (undoAll ds t) := by
  have hfr := undoAll_frame ds t
  obtain ⟨sp, fl, rfl⟩ := h.frame
  refine ⟨?_, ?_⟩
  · funext l
    have hb := undoAll_bits (s := { s with space := sp, faults := fl }) h.valid l
    have hs := h.bits l
    cases hl : s.space.bitmap l with
    | true =>
      rw [hb, hs]
      refine ⟨Or.inl hl, ?_⟩
      intro d hd hdl
      have hfree := h.was_free d hd
      have hdl' : dvaLin s.geo d = some l := hdl
      rw [allocated, hdl', Option.any_some, hl] at hfree
      cases hfree
    | false =>
      rw [← Bool.not_eq_true, hb, hs, hl]
      rintro ⟨h1 | ⟨d, hd, hdl⟩, h2⟩
      · cases h1
      · exact h2 d hd hdl
  · obtain ⟨sp', h'⟩ := hfr
    exact ⟨sp', fl, h'⟩

theorem SetAside.snoc (h : SetAside s ds t) (hc : Claimed t d 1 u) :
    SetAside s (ds ++ [d]) u := by
  have hd : dvaValid t.geo d = true := hc.valid 0 Nat.one_pos
  have hfree : allocated t d = false := hc.was_free 0 Nat.one_pos
  rw [h.geo] at hd
  have hnot : ¬ (allocated s d = true ∨ d ∈ ds) := by
    rw [← h.now, hfree]
    exact Bool.false_ne_true
  have hwas : allocated s d = false := by
    rw [← Bool.not_eq_true]
    exact fun hx => hnot (Or.inl hx)
  refine ⟨?_, forall_mem_append.mpr ⟨h.valid, forall_mem_singleton.mpr hd⟩,
    forall_mem_append.mpr ⟨h.was_free, forall_mem_singleton.mpr hwas⟩, fun l => ?_, ?_⟩
  · refine nodup_append.mpr ⟨h.nodup, by simp, ?_⟩
    rintro a ha b hb rfl
    rw [mem_singleton.mp hb] at ha
    exact hnot (Or.inr ha)
  · rw [hc.bits l, h.bits l, h.geo]
    simp [or_and_right, exists_or, or_assoc]
  · obtain ⟨sp, rfl⟩ := hc.frame
    obtain ⟨sp', fl, rfl⟩ := h.frame
    exact ⟨sp, fl, rfl⟩

theorem SetAside.drew (h : SetAside s ds t) (hu : Drew t u) : SetAside s ds u := by
  obtain ⟨fl, rfl, -⟩ := hu
  refine ⟨h.nodup, h.valid, h.was_free, h.bits, ?_⟩
  obtain ⟨sp, fl', rfl⟩ := h.frame
  exact ⟨sp, fl, rfl⟩

theorem SetAside.before (h : SetAside t ds u) (hs : Drew s t) : SetAside s ds u := by
  obtain ⟨fl, rfl, -⟩ := hs
  refine ⟨h.nodup, h.valid, h.was_free, h.bits, ?_⟩
  obtain ⟨sp, fl', rfl⟩ := h.frame
  exact ⟨sp, fl', rfl⟩

theorem SetAside.perm {es : List Nat} (h : SetAside s ds t) (hp : ds.Perm es) :
    SetAside s es t := by
  refine ⟨hp.nodup_iff.mp h.nodup, ?_, ?_, ?_, h.frame⟩
  · exact fun d hd => h.valid d (hp.mem_iff.mpr hd)
  · exact fun d hd => h.was_free d (hp.mem_iff.mpr hd)
  · intro l
    rw [h.bits l]
    simp only [hp.mem_iff]

theorem undoAll_calm (ds : List Nat) (s : Fs) (h : Calm s) : Calm (undoAll ds s) := by
  obtain ⟨sp, hu⟩ := undoAll_frame ds s
  rw [hu]
  exact h

/-- **The loop of a set-aside** takes `n` more blocks, or has given back all it took. -/
theorem prepLoop_spec {acc : List Nat} {r : Except Errno (List Nat)} (h : SetAside s acc t)
    (hl : prepLoop n acc t = (r, u)) : (Calm t → Calm u) ∧
      Ends (fun ds => SetAside s ds u ∧ ds.length = acc.length + n)
        (fun e => e ≠ .assertFailed ∧ SameBits s u) r := by
  induction n generalizing acc t with
  | zero =>
    cases hl
    exact ⟨id, h, rfl⟩
  | succ n ih =>
    rcases bind_cases hl with ⟨e, ha, rfl⟩ | ⟨⟨d, got⟩, v, ha, hl⟩
    · obtain ⟨w, hw, rfl⟩ := onError_eq_error.mp ha
      obtain ⟨rfl, rfl⟩ := allocRun_error hw
      exact ⟨undoAll_calm acc _, by simp, h.undo⟩
    have hc : Claimed t d 1 v := allocRun_one (onError_eq_ok.mp ha)
    have hsn := h.snoc hc
    have hcalm : Calm t → Calm v := by
      obtain ⟨sp, rfl⟩ := hc.frame
      exact id
    rcases bind_cases hl with ⟨e, hm, rfl⟩ | ⟨_, w, hm, hl⟩
    · obtain ⟨w, hw, rfl⟩ := onError_eq_error.mp hm
      obtain ⟨hdrew, he⟩ := mayFail_drew hw
      -- the block in hand goes back first, then the others
      have hswap : (acc ++ [d]).Perm ([d] ++ acc) := perm_append_comm
      exact ⟨fun hs => undoAll_calm (d :: acc) _ (hdrew.calm (hcalm hs)), by simp [he e rfl],
        ((hsn.drew hdrew).perm hswap).undo⟩
    obtain ⟨hdrew, -⟩ := mayFail_drew (onError_eq_ok.mp hm)
    obtain ⟨hcalm', hr⟩ := ih (hsn.drew hdrew) hl
    refine ⟨fun hs => hcalm' (hdrew.calm (hcalm hs)), ?_⟩
    cases r with
    | ok ds =>
      refine ⟨hr.1, ?_⟩
      rw [hr.2, length_append, length_singleton]
      omega
    | error e => exact hr

/-- **A set-aside** is all or nothing: `n` blocks that were free, or no change to any
bit and to nothing else but the faults. -/
theorem prepMeta_spec {r : Except Errno (List Nat)} (h : prepMeta n s = (r, t)) :
    (Calm s → Calm t) ∧ Ends (fun ds => SetAside s ds t ∧ ds.length = n)
      (fun e => e ≠ .assertFailed ∧ SameBits s t) r := by
  unfold prepMeta at h
  split at h
  · cases h
    exact ⟨id, by simp, .of_drew (.refl s)⟩
  · simpa using prepLoop_spec (SetAside.nil s) h

end CosmoOS.Cosmofs
