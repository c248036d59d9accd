import CosmoOS.Lz4.Format

/-!
# The LZ4 block decoder

`decompress` reads bytes that came off a disk.  Every length and offset is checked against both
buffers before it is used, in the order of the source: a length that wraps or runs off the input,
literals longer than what is left of the input or of the output, an offset of 0 or one that reaches
before the start of the output, a match longer than the output.

The input is the list of bytes not yet read, the output the list of bytes written.  What comes back
is the returned length, with 0 for malformed input, and the bytes written.

`decompressLoop_encode` is the decoder's half of the round trip.
-/

namespace CosmoOS.Lz4

open Lz77 List

variable {out' last : List UInt8} {tok : UInt8} {fuel : Nat} {q : Sequence UInt8}

/-- `moreLength`: a length nibble of 15 continued, with the bytes after it. -/
def moreLength : List UInt8 → Nat → Option (Nat × List UInt8)
  | [], _ => none
  | b :: ip, total =>
    -- checkedAdd: a length that wraps is not a length
    if 2 ^ 64 ≤ total + b.toNat then none
    else if b ≠ 255 then some (total + b.toNat, ip)
    else moreLength ip (total + b.toNat)

variable {ip ip' out : List UInt8} {dcap : Nat}

theorem moreLength_chain {len start : Nat} (h : start + len < 2 ^ 64) :
    moreLength (chain len ++ ip) start = some (start + len, ip) := by
  -- one turn of the loop for each byte of 255, with that much moved into the total
  induction len using Nat.strongRecOn generalizing start with
  | ind len ih =>
    by_cases hlen : len < 255
    · have hb : (UInt8.ofNat len).toNat = len :=
        UInt8.toNat_ofNat_of_lt' (by show _ < 256; omega)
      rw [chain_of_lt hlen, cons_append, nil_append, moreLength, hb,
        if_neg (by omega), if_pos (ofNat_ne_255 hlen)]
    · have hb : (255 : UInt8).toNat = 255 := rfl
      rw [chain_of_le (by omega), cons_append, moreLength, hb, if_neg (by omega),
        if_neg (by simp), ih (len - 255) (by omega) (by omega),
        show start + 255 + (len - 255) = start + len by omega]

/-- A length as the decoder reads it: the nibble, and the bytes after it if it is 15. -/
def readLength (nib : Nat) (ip : List UInt8) : Option (Nat × List UInt8) :=
  if nib = 15 then moreLength ip nib else some (nib, ip)

theorem readLength_more {len : Nat} (h : len < 2 ^ 64) :
    readLength (nibble len) (more len ++ ip) = some (len, ip) := by
  rw [readLength, nibble, more]
  by_cases hlen : 15 ≤ len
  · rw [if_pos hlen, if_pos hlen, if_pos rfl, moreLength_chain (by omega),
      show 15 + (len - 15) = len by omega]
  · rw [if_neg hlen, if_neg hlen, if_neg (by omega), nil_append]

/-- What a turn of the decoder's loop comes to: the function returns, or the loop goes on
with the input left and the output so far. -/
inductive Turn where
  | ret (length : Nat) (out : List UInt8)
  | next (ip out : List UInt8)
  deriving DecidableEq, Repr

/-- The second half of a turn of the loop: the literals have been copied. -/
def decodeMatch (dcap : Nat) (tok : UInt8) (ip out : List UInt8) : Turn :=
  if out.length = dcap then .ret out.length out  -- the output is complete
  else
    match ip with
    | [] => .ret out.length out  -- the last sequence has no match
    | [_] => .ret 0 out
    | lo :: hi :: ip =>
      -- a match before the start of the output
      if readOffset lo hi = 0 ∨ out.length < readOffset lo hi then .ret 0 out
      else
        match readLength (tok.toNat &&& 15) ip with
        | none => .ret 0 out
        | some (mlen, ip) =>
          if dcap - out.length < (mlen + minMatch) % 2 ^ 64 then .ret 0 out
          else
            .next ip
              (copyMatch out (out.length - readOffset lo hi) ((mlen + minMatch) % 2 ^ 64))

/-- One turn of the loop: the token has been read. -/
def decodeTurn (dcap : Nat) (tok : UInt8) (ip out : List UInt8) : Turn :=
  match readLength (tok.toNat >>> 4) ip with
  | none => .ret 0 out
  | some (lit, ip) =>
    if ip.length < lit ∨ dcap - out.length < lit then .ret 0 out
    else decodeMatch dcap tok (ip.drop lit) (out ++ ip.take lit)

/-- The decoder's loop.  Every turn reads a byte, so the fuel is the input's length. -/
def decompressLoop (dcap : Nat) : Nat → List UInt8 → List UInt8 → Nat × List UInt8
  | 0, _, out => (out.length, out)
  | fuel + 1, ip, out =>
    match ip with
    | [] => (out.length, out)
    | tok :: ip =>
      if out.length < dcap then
        match decodeTurn dcap tok ip out with
        | .ret n out => (n, out)
        | .next ip out => decompressLoop dcap fuel ip out
      else (out.length, out)

/-- `lz4_decompress`: the decompressed length, or 0, and the bytes written. -/
def decompress (src : List UInt8) (dcap : Nat) : Nat × List UInt8 :=
  decompressLoop dcap src.length src []

/-! ## Input from anywhere -/

section Safe

variable {src : List UInt8} {n : Nat}

theorem moreLength_suffix {total : Nat} (h : moreLength ip total = some (n, ip')) : ip' <:+ ip := by
  induction ip generalizing total with
  | nil => cases h
  | cons b ip ih =>
    rw [moreLength] at h
    split at h
    · cases h
    · split at h
      · cases h
        exact suffix_cons b _
      · exact (ih h).trans (suffix_cons b ip)

theorem readLength_suffix {nib : Nat} (h : readLength nib ip = some (n, ip')) : ip' <:+ ip := by
  rw [readLength] at h
  split at h
  · exact moreLength_suffix h
  · cases h
    exact suffix_rfl

theorem copyMatch_subset {start : Nat} (hs : start < out.length) (hout : out ⊆ src) :
    copyMatch out start n ⊆ src := by
  induction n generalizing out start with
  | zero => exact hout
  | succ n ih =>
    refine ih (by simpa using hs) (append_subset.mpr ⟨hout, ?_⟩)
    rw [getD_eq_getElem _ _ hs]
    simpa using hout (getElem_mem hs)

/-- A turn that keeps to the output's size and to the bytes of the block, and reads on. -/
def Turn.Safe (src : List UInt8) (dcap : Nat) (ip : List UInt8) : Turn → Prop
  | .ret n out => out.length ≤ dcap ∧ out ⊆ src ∧ (n = 0 ∨ n = out.length)
  | .next ip' out => out.length ≤ dcap ∧ out ⊆ src ∧ ip' <:+ ip

section

variable (hlen : out.length ≤ dcap) (hout : out ⊆ src)

include hlen hout

theorem decodeMatch_safe (hip : ip <:+ ip') :
    (decodeMatch dcap tok ip out).Safe src dcap ip' := by
  rw [decodeMatch.eq_def]
  repeat' split
  all_goals first | exact ⟨hlen, hout, .inl rfl⟩ | exact ⟨hlen, hout, .inr rfl⟩ | skip
  rename_i hread _
  refine ⟨?_, copyMatch_subset (by omega) hout, (readLength_suffix hread).trans (.trans ?_ hip)⟩
  · rw [copyMatch_length]
    omega
  · exact (suffix_cons _ _).trans (suffix_cons _ _)

theorem decodeTurn_safe (hip : ip ⊆ src) : (decodeTurn dcap tok ip out).Safe src dcap ip := by
  rw [decodeTurn]
  repeat' split
  all_goals first | exact ⟨hlen, hout, .inl rfl⟩ | skip
  rename_i lit ip' hread _
  have hsuf := readLength_suffix hread
  refine decodeMatch_safe ?_ (append_subset.mpr ⟨hout, ?_⟩) ((drop_suffix lit ip').trans hsuf)
  · rw [length_append, length_take]
    omega
  · exact fun b hb => hip (hsuf.mem (mem_of_mem_take hb))

theorem decompressLoop_safe (hip : ip ⊆ src) (h : decompressLoop dcap fuel ip out = (n, out')) :
    (Turn.ret n out').Safe src dcap [] := by
  induction fuel generalizing ip out with
  | zero =>
    cases h
    exact ⟨hlen, hout, .inr rfl⟩
  | succ fuel ih =>
    cases ip with
    | nil =>
      cases h
      exact ⟨hlen, hout, .inr rfl⟩
    | cons tok ip =>
      have hrest : ip ⊆ src := fun b hb => hip (mem_cons_of_mem tok hb)
      have hturn : (decodeTurn dcap tok ip out).Safe src dcap ip := decodeTurn_safe hlen hout hrest
      rw [decompressLoop] at h
      split at h
      · split at h <;> rename_i heq <;> rw [heq] at hturn
        · cases h
          exact hturn
        · exact ih hturn.1 hturn.2.1 (fun b hb => hrest (hturn.2.2.subset hb)) h
      · cases h
        exact ⟨hlen, hout, .inr rfl⟩

end

/-- The loop never runs out of fuel: with as much as the input is long, more changes
nothing. -/
theorem decompressLoop_fuel (h : ip.length ≤ fuel) :
    decompressLoop dcap (fuel + 1) ip out = decompressLoop dcap fuel ip out := by
  induction fuel generalizing ip out with
  | zero =>
    rw [eq_nil_of_length_eq_zero (by omega : ip.length = 0)]
    rfl
  | succ fuel ih =>
    cases ip with
    | nil => rfl
    | cons tok ip =>
      rw [decompressLoop, decompressLoop]
      split
      · rename_i hlen
        have hturn : (decodeTurn dcap tok ip out).Safe (out ++ ip) dcap ip := decodeTurn_safe
          (Nat.le_of_lt hlen) (subset_append_left out ip) (subset_append_right out ip)
        split
        · rfl
        · rename_i ip' out' heq
          rw [heq] at hturn
          exact ih (Nat.le_trans hturn.2.2.length_le (by simpa using h))
      · rfl

/-- **Any bytes are safe to decode.**  Whatever the block, the loop makes at most one turn a byte of
it: allowed that many turns or more, it ends the same way.  What is written fits the output and
consists of bytes of the block; and the length returned is that of what is written, or 0. -/
theorem decompress_any (src : List UInt8) (dcap : Nat) :
    (∀ fuel, src.length ≤ fuel → decompressLoop dcap fuel src [] = decompress src dcap) ∧
      (decompress src dcap).2.length ≤ dcap ∧ (decompress src dcap).2 ⊆ src ∧
      ((decompress src dcap).1 = 0 ∨ (decompress src dcap).1 = (decompress src dcap).2.length) := by
  have hlen : ([] : List UInt8).length ≤ dcap := Nat.zero_le dcap
  refine ⟨fun fuel h => ?_, decompressLoop_safe hlen (nil_subset src) (fun _ => id) rfl⟩
  induction h with
  | refl => rfl
  | step h ih => exact (decompressLoop_fuel h).trans ih

end Safe

/-! ## Reading a block back -/

/-- A match the decoder can copy: its two lengths fit the format, and it starts inside what
has been written before `p`. -/
structure InReach (p : Nat) (q : Sequence UInt8) : Prop where
  fits : Fits q
  pos : 0 < q.offset
  reach : q.offset ≤ p

theorem decodeMatch_sequence (hq : InReach out.length q)
    (hcap : out.length + q.length ≤ dcap) (hsize : q.length < 2 ^ 64) :
    decodeMatch dcap (token q.literals.length (q.length - minMatch))
        (offsetBytes q.offset ++ (more (q.length - minMatch) ++ ip)) out =
      .next ip (copyMatch out (out.length - q.offset) q.length) := by
  have hmin : 4 ≤ q.length := hq.fits.length
  have hreach := hq.reach
  have hpos := hq.pos
  have hmod : (q.length - minMatch + minMatch) % 2 ^ 64 = q.length := by
    rw [Nat.sub_add_cancel hq.fits.length, Nat.mod_eq_of_lt hsize]
  rw [decodeMatch.eq_def, if_neg (by omega)]
  simp only [offsetBytes, cons_append, nil_append]
  rw [readOffset_bytes hq.fits.offset, if_neg (by omega), token_low,
    readLength_more (by omega)]
  simp only
  rw [hmod, if_neg (by omega)]

theorem decodeTurn_sequence (hq : InReach (out.length + q.literals.length) q)
    (hcap : out.length + q.size ≤ dcap) (hsize : out.length + q.size < 2 ^ 64) :
    decodeTurn dcap (token q.literals.length (q.length - minMatch))
        (more q.literals.length ++ (q.literals ++ (offsetBytes q.offset ++
          (more (q.length - minMatch) ++ ip)))) out = .next ip (q.expand out) := by
  have hsz : q.size = q.literals.length + q.length := rfl
  rw [decodeTurn, token_high, readLength_more (by omega)]
  simp only [length_append, take_left, drop_left]
  rw [← length_append] at hq
  rw [if_neg (by omega), decodeMatch_sequence hq (by rw [length_append]; omega) (by omega),
    Sequence.expand]

theorem decodeTurn_last (hcap : out.length + last.length ≤ dcap)
    (hsize : out.length + last.length < 2 ^ 64) :
    decodeTurn dcap (token last.length 0) (more last.length ++ last) out =
      .ret (out ++ last).length (out ++ last) := by
  have h : readLength (nibble last.length) (more last.length ++ last) = some (last.length, last) :=
    readLength_more (by omega)
  rw [decodeTurn, token_high, h]
  simp only [take_length, drop_length]
  rw [if_neg (by omega), decodeMatch]
  split <;> rfl

/-- **The bytes of a block decode to what the block writes.** -/
theorem decompressLoop_encode {qs : List (Sequence UInt8)}
    (hq : Each InReach out.length qs) (hcap : (expand out qs).length + last.length ≤ dcap)
    (hsize : (expand out qs).length + last.length < 2 ^ 64)
    (hfuel : (encode qs last).length ≤ fuel) :
    decompressLoop dcap fuel (encode qs last) out =
      ((expand out qs ++ last).length, expand out qs ++ last) := by
  -- on the sequences: a full output before one of them would leave its match no room
  induction qs generalizing out fuel with
  | nil =>
    obtain ⟨fuel, rfl⟩ := Nat.exists_eq_succ_of_ne_zero
      (fun h => by simp [encodeLast, h] at hfuel : fuel ≠ 0)
    rw [encode_nil, encodeLast, decompressLoop]
    simp only [expand_nil] at hcap hsize ⊢
    by_cases hfull : out.length < dcap
    · rw [if_pos hfull, decodeTurn_last hcap hsize]
    · have hlast : last = [] := eq_nil_of_length_eq_zero (by omega)
      rw [if_neg hfull, hlast, append_nil]
  | cons q qs ih =>
    have hle := length_le_expand (q.expand out) qs
    rw [Sequence.expand_length] at hle
    rw [expand_cons] at hcap hsize
    have hmin : 4 ≤ q.length := hq.1.fits.length
    have hsz : q.size = q.literals.length + q.length := rfl
    have hq2 := hq.2
    rw [← Sequence.expand_length] at hq2
    obtain ⟨fuel, rfl⟩ := Nat.exists_eq_succ_of_ne_zero
      (fun h => by simp [encodeSequence, h] at hfuel : fuel ≠ 0)
    rw [encode_cons, length_append, encodeSequence, length_cons] at hfuel
    simp only [encode_cons, encodeSequence, cons_append, append_assoc]
    rw [decompressLoop, expand_cons, if_pos (by omega),
      decodeTurn_sequence hq.1 (by omega) (by omega)]
    exact ih hq2 hcap hsize (by omega)

end CosmoOS.Lz4
