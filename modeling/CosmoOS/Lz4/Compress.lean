import CosmoOS.Lz4.Decode

/-!
# The LZ4 compressor, and the round trip

`compress` walks the input once.  At every position it looks up the last position with the same hash
of four bytes, takes a match if the four bytes agree and the distance fits two bytes, runs the match
on as far as the input repeats, and writes a sequence: the literals since the last match, and the
match.  What is left at the end is written as literals.  It gives up as soon as the next thing to
write does not fit.

What has been written is a block (`Lz4.Format`) whose sequences expand to the input up to `anchor`,
with every match inside the limits of the format (`Limits`), and every position in the hash table is
behind `ip` (`Written`).  The hash itself carries nothing: a candidate is compared with the input
before it is used, so any table of earlier positions would do, one cut to 32 bits too.  That a match
that overlaps the bytes it codes decodes to them is `Lz77.copyMatch_take`.
-/

namespace CosmoOS.Lz4

open Lz77 List

/-- No match may start this near the end. -/
def mfLimit : Nat := 12

/-- The last bytes of a block are literals. -/
def lastLiterals : Nat := 5

section

variable (src : List UInt8) (i : Nat) (dcap : Nat)

def byteAt : UInt8 := src.getD i default

def load32 : Nat :=
  (byteAt src i).toNat ||| (byteAt src (i + 1)).toNat <<< 8 |||
    (byteAt src (i + 2)).toNat <<< 16 ||| (byteAt src (i + 3)).toNat <<< 24

/-- Knuth's multiplicative hash over four bytes. -/
def hash4 (v : Nat) : Nat := (v * 2654435761 % 2 ^ 32) >>> 20

/-! ## Writing -/

/-- One byte of output, if it fits. -/
def put (op : List UInt8) (b : UInt8) : Option (List UInt8) :=
  if dcap ≤ op.length then none else some (op ++ [b])

/-- The loop of `emit_length`; it runs `len / 255` times, so `len` turns are enough. -/
def emitLengthLoop (dcap : Nat) : Nat → List UInt8 → Nat → Option (List UInt8)
  | 0, op, len => put dcap op (UInt8.ofNat len)
  | turns + 1, op, len =>
    if 255 ≤ len then
      (put dcap op 255).bind fun op => emitLengthLoop dcap turns op (len - 255)
    else put dcap op (UInt8.ofNat len)

def emitLength (op : List UInt8) (len : Nat) : Option (List UInt8) :=
  emitLengthLoop dcap len op len

def copyOut (op bytes : List UInt8) : Option (List UInt8) :=
  if dcap - op.length < bytes.length then none else some (op ++ bytes)

/-- The first half of a sequence, and the whole of the last one: the token with the literal
length, what the length has more, the literals. -/
def emitLiterals (op lit : List UInt8) : Option (List UInt8) :=
  (put dcap op (UInt8.ofNat (nibble lit.length <<< 4))).bind fun op =>
    (if 15 ≤ lit.length then emitLength dcap op (lit.length - 15) else some op).bind fun op =>
      copyOut dcap op lit

/-- The second half: the offset, the match length into the token at `tok`, what the length
has more. -/
def emitMatch (tok : Nat) (op : List UInt8) (off mlen : Nat) : Option (List UInt8) :=
  (copyOut dcap op [UInt8.ofNat (off &&& 0xFF), UInt8.ofNat (off >>> 8)]).bind fun op =>
    let code := mlen - minMatch
    let op := op.modify tok (· ||| UInt8.ofNat (nibble code))
    if 15 ≤ code then emitLength dcap op (code - 15) else some op

/-! ## The walk -/

/-- How far a match runs: `room` is what is left before the bytes that must be literals. -/
def matchLength (src : List UInt8) (cand ip : Nat) : Nat → Nat → Nat
  | 0, mlen => mlen
  | room + 1, mlen =>
    if byteAt src (ip + mlen) = byteAt src (cand + mlen) then
      matchLength src cand ip room (mlen + 1)
    else mlen

structure Walk where
  ip : Nat
  anchor : Nat
  /-- The most recent position of each hash, cut to 32 bits; 0 is no position. -/
  table : Nat → Nat
  op : List UInt8

def compressTurn (w : Walk) : Option Walk :=
  let h := hash4 (load32 src w.ip)
  let cand := w.table h
  let table := fun k => if k = h then w.ip % 2 ^ 32 else w.table k
  if cand = 0 ∨ 65535 < w.ip - cand ∨ load32 src cand ≠ load32 src w.ip then
    some { w with ip := w.ip + 1, table := table }
  else
    let limit := src.length - lastLiterals
    let mlen := matchLength src cand w.ip (limit - (w.ip + minMatch)) minMatch
    (emitLiterals dcap w.op ((src.drop w.anchor).take (w.ip - w.anchor))).bind fun op =>
      (emitMatch dcap w.op.length op (w.ip - cand) mlen).map fun op =>
        { ip := w.ip + mlen, anchor := w.ip + mlen, table := table, op := op }

/-- The walk.  Every turn goes at least one byte on, so the fuel is the input's length. -/
def compressLoop (src : List UInt8) (dcap : Nat) : Nat → Walk → Option Walk
  | 0, w => some w
  | fuel + 1, w =>
    if w.ip < src.length - mfLimit then
      (compressTurn src dcap w).bind (compressLoop src dcap fuel)
    else some w

/-- `lz4_compress`: the compressed bytes, or nothing where the source returns 0. -/
def compress : Option (List UInt8) :=
  -- position 0 is never a match target: 0 means "empty" in the table
  (if src.length < mfLimit + minMatch then some ⟨0, 0, fun _ => 0, []⟩
    else compressLoop src dcap src.length ⟨1, 0, fun _ => 0, []⟩).bind fun w =>
      emitLiterals dcap w.op (src.drop w.anchor)

end

/-! ## What is written -/

variable {dcap mlen : Nat} {op op' src : List UInt8} {w w' : Walk}

theorem put_some {b : UInt8} (h : put dcap op b = some op') :
    op' = op ++ [b] := by
  rw [put] at h
  split at h
  · cases h
  · exact (Option.some.inj h).symm

theorem copyOut_some {bytes : List UInt8} (h : copyOut dcap op bytes = some op') :
    op' = op ++ bytes := by
  rw [copyOut] at h
  split at h
  · cases h
  · exact (Option.some.inj h).symm

theorem emitLengthLoop_some {turns len : Nat} (ht : len ≤ turns)
    (h : emitLengthLoop dcap turns op len = some op') : op' = op ++ chain len := by
  induction turns generalizing op len with
  | zero =>
    rw [chain_of_lt (by omega)]
    exact put_some h
  | succ turns ih =>
    rw [emitLengthLoop] at h
    split at h
    · rename_i hlen
      obtain ⟨op₁, h1, h⟩ := Option.bind_eq_some_iff.mp h
      rw [ih (by omega) h, put_some h1, chain_of_le hlen, append_assoc,
        singleton_append]
    · rw [chain_of_lt (by omega)]
      exact put_some h

theorem emitLength_more {len : Nat}
    (h : (if 15 ≤ len then emitLength dcap op (len - 15) else some op) = some op') :
    op' = op ++ more len := by
  rw [more]
  split at h
  · rw [if_pos (by assumption)]
    exact emitLengthLoop_some (Nat.le_refl _) h
  · rw [if_neg (by assumption), append_nil]
    exact (Option.some.inj h).symm

theorem emitLiterals_some {lit : List UInt8} (h : emitLiterals dcap op lit = some op') :
    op' = op ++ UInt8.ofNat (nibble lit.length <<< 4) :: (more lit.length ++ lit) := by
  obtain ⟨op₁, h1, h⟩ := Option.bind_eq_some_iff.mp h
  obtain ⟨op₂, h2, h⟩ := Option.bind_eq_some_iff.mp h
  rw [copyOut_some h, emitLength_more h2, put_some h1]
  simp

theorem emitLiterals_last {last : List UInt8} (h : emitLiterals dcap op last = some op') :
    op' = op ++ encodeLast last := by
  have hzero : nibble 0 = 0 := rfl
  rw [emitLiterals_some h, encodeLast, token, hzero, Nat.or_zero]

theorem modify_length_cons (op r : List UInt8) (b : UInt8) (f : UInt8 → UInt8) :
    (op ++ b :: r).modify op.length f = op ++ f b :: r := by
  rw [modify_eq_take_cons_drop (by simp)]
  simp

theorem emit_sequence {off : Nat} {op₁ op₂ lit : List UInt8}
    (h1 : emitLiterals dcap op lit = some op₁)
    (h2 : emitMatch dcap op.length op₁ off mlen = some op₂) :
    op₂ = op ++ encodeSequence ⟨lit, off, mlen⟩ := by
  obtain ⟨op₃, h3, h4⟩ := Option.bind_eq_some_iff.mp h2
  rw [emitLength_more h4, copyOut_some h3, emitLiterals_some h1, append_assoc,
    cons_append, modify_length_cons, ← UInt8.ofNat_or]
  simp [encodeSequence, token, offsetBytes]

/-! ## Matches -/

theorem load32_eq (src : List UInt8) (i : Nat) :
    load32 src i = (byteAt src i).toNat + 2 ^ 8 * (byteAt src (i + 1)).toNat +
      2 ^ 16 * (byteAt src (i + 2)).toNat + 2 ^ 24 * (byteAt src (i + 3)).toNat := by
  have h0 := (byteAt src i).toNat_lt
  have h1 := (byteAt src (i + 1)).toNat_lt
  have h2 := (byteAt src (i + 2)).toNat_lt
  have join : ∀ {k a b : Nat}, b < 2 ^ k → b ||| a <<< k = b + 2 ^ k * a := by
    intro k a b hb
    rw [Nat.shiftLeft_eq, Nat.or_comm, Nat.mul_comm a, ← Nat.two_pow_add_eq_or_of_lt hb,
      Nat.add_comm]
  rw [load32, join h0, join (by omega : _ + 2 ^ 8 * _ < 2 ^ 16),
    join (by omega : _ + 2 ^ 8 * _ + 2 ^ 16 * _ < 2 ^ 24)]

theorem load32_inj {i j : Nat} (h : load32 src i = load32 src j) :
    ∀ k < minMatch, byteAt src (i + k) = byteAt src (j + k) := by
  rw [load32_eq, load32_eq] at h
  have hlt := fun n => (byteAt src n).toNat_lt
  have h0 := hlt i
  have h1 := hlt (i + 1)
  have h2 := hlt (i + 2)
  have g0 := hlt j
  have g1 := hlt (j + 1)
  have g2 := hlt (j + 2)
  intro k hk
  rw [← UInt8.toNat_inj]
  match k, hk with
  | 0, _ => rw [Nat.add_zero, Nat.add_zero]; omega
  | 1, _ => omega
  | 2, _ => omega
  | 3, _ => omega

/-- The match runs as far as the input repeats and no further than the room. -/
theorem matchLength_spec {cand ip : Nat} (room : Nat)
    (h : ∀ k < mlen, byteAt src (cand + k) = byteAt src (ip + k)) :
    mlen ≤ matchLength src cand ip room mlen ∧
      matchLength src cand ip room mlen ≤ mlen + room ∧
      ∀ k < matchLength src cand ip room mlen, byteAt src (cand + k) = byteAt src (ip + k) := by
  induction room generalizing mlen with
  | zero => exact ⟨Nat.le_refl _, Nat.le_refl _, h⟩
  | succ room ih =>
    rw [matchLength]
    split
    · rename_i heq
      obtain ⟨hlo, hhi, hall⟩ := @ih (mlen + 1) (by
        intro k hk
        rcases Nat.lt_succ_iff_lt_or_eq.mp hk with hk | rfl
        · exact h k hk
        · exact heq.symm)
      exact ⟨by omega, by omega, hall⟩
    · exact ⟨Nat.le_refl _, by omega, h⟩

/-- The limits of the format on a match that is written to `p` in `n` bytes of output. -/
structure Limits (n p : Nat) (q : Sequence UInt8) : Prop where
  start : p + mfLimit < n
  last : p + q.length + lastLiterals ≤ n
  pos : 0 < q.offset
  offset : q.offset ≤ 65535
  reach : q.offset ≤ p
  length : minMatch ≤ q.length

theorem Limits.inReach {n p : Nat} {q : Sequence UInt8} (h : Limits n p q) : InReach p q :=
  ⟨⟨h.length, Nat.lt_succ_of_le h.offset⟩, h.pos, h.reach⟩

/-- The invariant of the walk. -/
structure Written (src : List UInt8) (w : Walk) : Prop where
  anchor_le : w.anchor ≤ w.ip
  ip_le : w.ip ≤ src.length
  table : ∀ h, w.table h < w.ip
  block : ∃ qs, w.op = qs.flatMap encodeSequence ∧ expand [] qs = src.take w.anchor ∧
    Each (Limits src.length) 0 qs

/-- A match the walk may take at its position: it starts `offset` back and runs for `mlen`
bytes that the input has there already. -/
structure Repeats (src : List UInt8) (ip offset mlen : Nat) : Prop where
  pos : 0 < offset
  reach : offset ≤ ip
  near : offset ≤ 65535
  length : minMatch ≤ mlen
  last : ip + mlen + lastLiterals ≤ src.length
  same : ∀ k < mlen, byteAt src (ip - offset + k) = byteAt src (ip + k)

/-- What a turn of the walk can do: go one byte on, or write a sequence whose match repeats
the input. -/
theorem compressTurn_cases (ht : ∀ h, w.table h < w.ip) (hip : w.ip + 12 < src.length)
    (h : compressTurn src dcap w = some w') :
    (∀ k, w'.table k ≤ w.ip) ∧
      (w'.ip = w.ip + 1 ∧ w'.anchor = w.anchor ∧ w'.op = w.op ∨
        ∃ offset mlen, Repeats src w.ip offset mlen ∧ w'.ip = w.ip + mlen ∧
          w'.anchor = w.ip + mlen ∧
          w'.op = w.op ++ encodeSequence
            ⟨(src.drop w.anchor).take (w.ip - w.anchor), offset, mlen⟩) := by
  have hrecord : ∀ h k, (if k = h then w.ip % 2 ^ 32 else w.table k) ≤ w.ip := by
    intro h k
    split
    · exact Nat.mod_le _ _
    · exact Nat.le_of_lt (ht k)
  rw [compressTurn] at h
  split at h
  · rw [← Option.some.inj h]
    exact ⟨hrecord _, .inl ⟨rfl, rfl, rfl⟩⟩
  · rename_i hno
    simp only [not_or, Nat.not_lt, Decidable.not_not] at hno
    obtain ⟨hc0, hoff, hload⟩ := hno
    obtain ⟨op₁, h1, h⟩ := Option.bind_eq_some_iff.mp h
    obtain ⟨op₂, h2, h⟩ := Option.map_eq_some_iff.mp h
    have hbehind := ht (hash4 (load32 src w.ip))
    obtain ⟨hmin, hroom, hsame⟩ := matchLength_spec
      (src.length - lastLiterals - (w.ip + minMatch)) (load32_inj hload)
    have h5 : lastLiterals = 5 := rfl
    have h4 : minMatch = 4 := rfl
    rw [← h]
    refine ⟨hrecord _, .inr ⟨_, _, ⟨?_, ?_, hoff, hmin, ?_, ?_⟩, rfl, rfl, emit_sequence h1 h2⟩⟩
    · omega
    · omega
    · omega
    · rw [Nat.sub_sub_self (Nat.le_of_lt hbehind)]
      exact hsame

/-- A sequence that repeats the input takes the block on to the end of its match. -/
theorem Repeats.block {qs : List (Sequence UInt8)} {a ip offset : Nat}
    (hr : Repeats src ip offset mlen) (hip : ip + mfLimit < src.length) (ha : a ≤ ip)
    (hexp : expand [] qs = src.take a) (heach : Each (Limits src.length) 0 qs) :
    expand [] (qs ++ [⟨(src.drop a).take (ip - a), offset, mlen⟩]) = src.take (ip + mlen) ∧
      Each (Limits src.length) 0 (qs ++ [⟨(src.drop a).take (ip - a), offset, mlen⟩]) := by
  have hlast := hr.last
  have hplace : (expand [] qs).length + ((src.drop a).take (ip - a)).length = ip := by
    rw [hexp, length_take, length_take, length_drop]
    omega
  constructor
  · rw [expand_append, hexp, expand_cons, expand_nil]
    exact Sequence.expand_take ha hr.pos hr.reach (by omega) hr.same
  · refine Each.snoc [] heach ?_
    rw [hplace]
    exact ⟨hip, hlast, hr.pos, hr.near, hr.reach, hr.length⟩

/-- **A turn of the walk keeps the invariant**, and goes on. -/
theorem Written.turn (hw : Written src w) (hip : w.ip < src.length - mfLimit)
    (h : compressTurn src dcap w = some w') :
    Written src w' ∧ w.ip < w'.ip := by
  have h12 : mfLimit = 12 := rfl
  have hanchor := hw.anchor_le
  obtain ⟨qs, hop, hexp, heach⟩ := hw.block
  obtain ⟨ht, ⟨hi, ha, ho⟩ | ⟨offset, mlen, hr, hi, ha, ho⟩⟩ :=
    compressTurn_cases hw.table (by omega) h
  · have hlt : w.ip < w'.ip := by omega
    refine ⟨⟨by omega, by omega, fun k => Nat.lt_of_le_of_lt (ht k) hlt, qs, ?_, ?_, heach⟩, hlt⟩
    · rw [ho, hop]
    · rw [ha, hexp]
  · have hmin : 4 ≤ mlen := hr.length
    have hlast := hr.last
    have hlt : w.ip < w'.ip := by omega
    obtain ⟨hexp, heach⟩ := hr.block (by omega) hanchor hexp heach
    refine ⟨⟨by omega, by omega, fun k => Nat.lt_of_le_of_lt (ht k) hlt, _, ?_, ?_, heach⟩, hlt⟩
    · rw [ho, hop, flatMap_append, flatMap_cons, flatMap_nil, append_nil]
    · rw [ha, hexp]

/-- The whole walk keeps the invariant, and with fuel for every position left it ends where
no match may start. -/
theorem Written.loop {fuel : Nat} (hw : Written src w) (hf : src.length - mfLimit ≤ w.ip + fuel)
    (h : compressLoop src dcap fuel w = some w') :
    Written src w' ∧ src.length - mfLimit ≤ w'.ip := by
  induction fuel generalizing w with
  | zero =>
    rw [← Option.some.inj h]
    exact ⟨hw, hf⟩
  | succ fuel ih =>
    rw [compressLoop] at h
    split at h
    · rename_i hip
      obtain ⟨w₁, h1, h⟩ := Option.bind_eq_some_iff.mp h
      obtain ⟨hw₁, hlt⟩ := hw.turn hip h1
      exact ih hw₁ (by omega) h
    · rename_i hip
      rw [← Option.some.inj h]
      exact ⟨hw, Nat.not_lt.mp hip⟩

/-- What the compressor returns is a block that writes the input, with every match inside
the limits. -/
theorem compress_block {bytes : List UInt8} (h : compress src dcap = some bytes) :
    ∃ qs last, bytes = encode qs last ∧ expand [] qs ++ last = src ∧
      Each (Limits src.length) 0 qs := by
  obtain ⟨w, hwalk, h⟩ := Option.bind_eq_some_iff.mp h
  have hblock : ∃ qs, w.op = qs.flatMap encodeSequence ∧ expand [] qs = src.take w.anchor ∧
      Each (Limits src.length) 0 qs := by
    split at hwalk
    · rw [← Option.some.inj hwalk]
      exact ⟨[], rfl, rfl, trivial⟩
    · rename_i hlen
      have h16 : mfLimit + minMatch = 16 := rfl
      have hstart : Written src ⟨1, 0, fun _ => 0, []⟩ :=
        ⟨by simp, by show 1 ≤ _; omega, by simp, [], rfl, rfl, trivial⟩
      exact (hstart.loop (by omega) hwalk).1.block
  obtain ⟨qs, hop, hexp, heach⟩ := hblock
  refine ⟨qs, src.drop w.anchor, ?_, ?_, heach⟩
  · rw [emitLiterals_last h, hop, encode]
  · rw [hexp, take_append_drop]

/-! ## The round trip -/

/-- A buffer: its length is a `size_t`. -/
structure Buffer where
  bytes : List UInt8
  length_lt : bytes.length < 2 ^ 64

/-- **Round trip and format limits.**  If the compressor returns bytes, then the decoder
gives the source back from them into any output that can hold it, and however the bytes are
read as a block, every match starts more than twelve bytes before the end, leaves the last
five bytes to literals, and has an offset from 1 to 65535. -/
theorem decompress_compress (src : Buffer) (dcap ocap : Nat) (bytes : List UInt8)
    (h : compress src.bytes dcap = some bytes) (hcap : src.bytes.length ≤ ocap) :
    0 < bytes.length ∧ decompress bytes ocap = (src.bytes.length, src.bytes) ∧
      (∃ qs last, (∀ q ∈ qs, Fits q) ∧ bytes = encode qs last) ∧
      ∀ qs last, (∀ q ∈ qs, Fits q) → bytes = encode qs last →
        Each (Limits src.bytes.length) 0 qs := by
  obtain ⟨qs, last, hbytes, hsrc, heach⟩ := compress_block h
  have hreach : Each InReach 0 qs := heach.mono fun _ _ hl => hl.inReach
  have hfits : ∀ q ∈ qs, Fits q := Each.all (hreach.mono fun _ _ hr => hr.fits)
  have hlen : (expand [] qs).length + last.length = src.bytes.length := by
    rw [← length_append, hsrc]
  refine ⟨?_, ?_, ⟨qs, last, hfits, hbytes⟩, ?_⟩
  · rw [hbytes, encode, encodeLast, length_append, length_cons]
    omega
  · have hrun : decompressLoop ocap (encode qs last).length (encode qs last) [] = _ :=
      decompressLoop_encode hreach (by rw [hlen]; exact hcap)
        (by rw [hlen]; exact src.length_lt) (Nat.le_refl _)
    rw [decompress, hbytes, hrun, hsrc]
  · intro ps l hps hl
    obtain ⟨rfl, -⟩ := encode_inj hfits hps (hbytes.symm.trans hl)
    exact heach

/-- Twenty equal bytes: two literals, a match of 13 that overlaps itself, five literals. -/
theorem decompress_compress_run :
    decompress [41, 97, 97, 1, 0, 80, 97, 97, 97, 97, 97] 32 = (20, List.replicate 20 97) :=
  (decompress_compress ⟨List.replicate 20 97, by decide⟩ 40 32
    [41, 97, 97, 1, 0, 80, 97, 97, 97, 97, 97] (by decide) (by decide)).2.1

end CosmoOS.Lz4
