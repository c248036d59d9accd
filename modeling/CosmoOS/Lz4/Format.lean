import CosmoOS.Lib.Lz77
import Mathlib.Algebra.Group.Nat.Defs

/-!
# The LZ4 block format

A block is a list of sequences and some last literals.  A sequence is a token byte, whose
high nibble is the literal length and whose low nibble the match length less four; the
literals; a two-byte offset, low byte first; and the match.  A nibble of 15 means *more*: a
chain of bytes follows, added up while each is 255.  The last sequence has literals and no
offset.

`encode` writes a block down, and `encode_inj` says that the bytes name the block: nothing
else in the format reads as the same bytes.  So what is said of *the* sequences of a stream
is said of the stream.
-/

namespace CosmoOS.Lz4

open Lz77

/-- The shortest match the format can name. -/
def minMatch : Nat := 4

/-! ## Lengths -/

/-- What a length leaves in its nibble. -/
def nibble (len : Nat) : Nat := if 15 ≤ len then 15 else len

theorem nibble_lt (len : Nat) : nibble len < 16 := by
  rw [nibble]
  split <;> omega

/-- The chain of bytes that carries a length on. -/
def chain (len : Nat) : List UInt8 :=
  List.replicate (len / 255) 255 ++ [UInt8.ofNat (len % 255)]

theorem chain_of_lt {len : Nat} (h : len < 255) : chain len = [UInt8.ofNat len] := by
  rw [chain, Nat.div_eq_of_lt h, Nat.mod_eq_of_lt h]
  rfl

theorem chain_of_le {len : Nat} (h : 255 ≤ len) : chain len = 255 :: chain (len - 255) := by
  have hd : len / 255 = (len - 255) / 255 + 1 := by omega
  have hm : len % 255 = (len - 255) % 255 := by omega
  rw [chain, hd, hm]
  rfl

variable {a b : Nat} {r s l m : List UInt8}

theorem ofNat_inj_of_lt (ha : a < 256) (hb : b < 256) (h : UInt8.ofNat a = UInt8.ofNat b) :
    a = b := by
  have h := congrArg UInt8.toNat h
  rwa [UInt8.toNat_ofNat_of_lt' ha, UInt8.toNat_ofNat_of_lt' hb] at h

theorem ofNat_ne_255 (ha : a < 255) : UInt8.ofNat a ≠ 255 := by
  intro h
  have h := ofNat_inj_of_lt (b := 255) (by omega) (by omega) h
  omega

theorem chain_inj (h : chain a ++ r = chain b ++ s) :
    a = b ∧ r = s := by
  -- on the number of full bytes: a byte of 255 goes on, any other one ends the chain
  induction a using Nat.strongRecOn generalizing b with
  | ind a ih =>
    by_cases ha : a < 255 <;> by_cases hb : b < 255
    · rw [chain_of_lt ha, chain_of_lt hb] at h
      obtain ⟨hab, hrs⟩ := List.cons.inj h
      exact ⟨ofNat_inj_of_lt (by omega) (by omega) hab, hrs⟩
    · rw [chain_of_lt ha, chain_of_le (by omega)] at h
      exact absurd (List.cons.inj h).1 (ofNat_ne_255 ha)
    · rw [chain_of_le (by omega), chain_of_lt hb] at h
      exact absurd (List.cons.inj h).1.symm (ofNat_ne_255 hb)
    · rw [chain_of_le (by omega), chain_of_le (by omega : 255 ≤ b)] at h
      obtain ⟨hab, hrs⟩ := ih (a - 255) (by omega) (List.cons.inj h).2
      exact ⟨by omega, hrs⟩

/-- What of a length does not fit its nibble. -/
def more (len : Nat) : List UInt8 := if 15 ≤ len then chain (len - 15) else []

theorem more_inj (hn : nibble a = nibble b) (h : more a ++ r = more b ++ s) : a = b ∧ r = s := by
  rw [nibble, nibble] at hn
  by_cases ha : 15 ≤ a <;> by_cases hb : 15 ≤ b
  · rw [more, more, if_pos ha, if_pos hb] at h
    obtain ⟨hab, hrs⟩ := chain_inj h
    exact ⟨by omega, hrs⟩
  · rw [if_pos ha, if_neg hb] at hn
    omega
  · rw [if_neg ha, if_pos hb] at hn
    omega
  · rw [if_neg ha, if_neg hb] at hn
    rw [more, more, if_neg ha, if_neg hb] at h
    exact ⟨hn, h⟩

/-! ## The token -/

section

variable (lit code : Nat) (q : Sequence UInt8)

/-- The token of a literal length and a match length less four. -/
def token : UInt8 := UInt8.ofNat (nibble lit <<< 4 ||| nibble code)

theorem nibbles_read : ∀ a < 16, ∀ b < 16,
    (UInt8.ofNat (a <<< 4 ||| b)).toNat >>> 4 = a ∧
      (UInt8.ofNat (a <<< 4 ||| b)).toNat &&& 15 = b := by
  decide

@[simp] theorem token_high : (token lit code).toNat >>> 4 = nibble lit :=
  (nibbles_read _ (nibble_lt lit) _ (nibble_lt code)).1

@[simp] theorem token_low : (token lit code).toNat &&& 15 = nibble code :=
  (nibbles_read _ (nibble_lt lit) _ (nibble_lt code)).2

theorem token_inj {c d : Nat} (h : token a b = token c d) :
    nibble a = nibble c ∧ nibble b = nibble d := by
  constructor
  · rw [← token_high a b, h, token_high]
  · rw [← token_low a b, h, token_low]

/-! ## The offset -/

def offsetBytes (offset : Nat) : List UInt8 :=
  [UInt8.ofNat (offset &&& 0xFF), UInt8.ofNat (offset >>> 8)]

def readOffset (lo hi : UInt8) : Nat := lo.toNat ||| (hi.toNat <<< 8)

theorem readOffset_bytes {offset : Nat} (h : offset < 65536) :
    readOffset (UInt8.ofNat (offset &&& 0xFF)) (UInt8.ofNat (offset >>> 8)) = offset := by
  have hlo : offset &&& 0xFF = offset % 2 ^ 8 := Nat.and_two_pow_sub_one_eq_mod offset 8
  have hhi : offset >>> 8 = offset / 2 ^ 8 := Nat.shiftRight_eq_div_pow offset 8
  rw [readOffset, hlo, hhi, UInt8.toNat_ofNat_of_lt' (by show _ < 256; omega),
    UInt8.toNat_ofNat_of_lt' (by show _ < 256; omega), Nat.shiftLeft_eq, Nat.or_comm,
    Nat.mul_comm, ← Nat.two_pow_add_eq_or_of_lt (by omega)]
  omega

/-! ## Blocks -/

/-- What two bytes and a nibble can name of a match. -/
structure Fits (q : Sequence UInt8) : Prop where
  length : minMatch ≤ q.length
  offset : q.offset < 65536

def encodeSequence : List UInt8 :=
  token q.literals.length (q.length - minMatch) ::
    (more q.literals.length ++ (q.literals ++ (offsetBytes q.offset ++
      more (q.length - minMatch))))

def encodeLast (last : List UInt8) : List UInt8 :=
  token last.length 0 :: (more last.length ++ last)

/-- A block, written down. -/
def encode (qs : List (Sequence UInt8)) (last : List UInt8) : List UInt8 :=
  qs.flatMap encodeSequence ++ encodeLast last

@[simp] theorem encode_nil (last : List UInt8) : encode [] last = encodeLast last := rfl

@[simp] theorem encode_cons (qs : List (Sequence UInt8)) (last : List UInt8) :
    encode (q :: qs) last = encodeSequence q ++ encode qs last := by
  rw [encode, List.flatMap_cons, List.append_assoc, encode]

end

theorem literals_inj (hn : nibble l.length = nibble m.length)
    (h : more l.length ++ (l ++ r) = more m.length ++ (m ++ s)) : l = m ∧ r = s := by
  obtain ⟨hlen, h⟩ := more_inj hn h
  exact List.append_inj h hlen

theorem encodeSequence_inj {q p : Sequence UInt8} (hq : Fits q) (hp : Fits p)
    (h : encodeSequence q ++ r = encodeSequence p ++ s) : q = p ∧ r = s := by
  simp only [encodeSequence, List.cons_append, List.append_assoc] at h
  obtain ⟨htok, h⟩ := List.cons.inj h
  obtain ⟨hlit, hcode⟩ := token_inj htok
  obtain ⟨hl, h⟩ := literals_inj hlit h
  obtain ⟨hlo, h⟩ := List.cons.inj h
  obtain ⟨hhi, h⟩ := List.cons.inj h
  obtain ⟨hm, hrs⟩ := more_inj hcode h
  have hoff : q.offset = p.offset := by
    rw [← readOffset_bytes hq.offset, ← readOffset_bytes hp.offset, hlo, hhi]
  have hlen : q.length = p.length := by
    have hq := hq.length
    have hp := hp.length
    omega
  cases q
  cases p
  exact ⟨by simp_all, hrs⟩

/-- The last sequence is not the start of another: after its literals nothing is left. -/
theorem encodeLast_ne {q : Sequence UInt8} {last : List UInt8} :
    encodeLast last ≠ encodeSequence q ++ r := by
  intro h
  simp only [encodeLast, encodeSequence, List.cons_append, List.append_assoc] at h
  obtain ⟨htok, h⟩ := List.cons.inj h
  obtain ⟨-, h⟩ := literals_inj (r := []) (token_inj htok).1 (by rw [List.append_nil]; exact h)
  exact absurd h (by simp [offsetBytes])

theorem encodeLast_inj (h : encodeLast l = encodeLast m) : l = m := by
  obtain ⟨htok, h⟩ := List.cons.inj h
  have h : more l.length ++ (l ++ []) = more m.length ++ (m ++ []) := by
    rw [List.append_nil, List.append_nil]
    exact h
  exact (literals_inj (token_inj htok).1 h).1

/-- **The bytes name the block.** -/
theorem encode_inj {qs ps : List (Sequence UInt8)} (hq : ∀ q ∈ qs, Fits q) (hp : ∀ p ∈ ps, Fits p)
    (h : encode qs l = encode ps m) :
    qs = ps ∧ l = m := by
  induction qs generalizing ps with
  | nil =>
    cases ps with
    | nil => exact ⟨rfl, encodeLast_inj h⟩
    | cons p ps =>
      rw [encode_cons] at h
      exact absurd h encodeLast_ne
  | cons q qs ih =>
    cases ps with
    | nil =>
      rw [encode_cons] at h
      exact absurd h.symm encodeLast_ne
    | cons p ps =>
      rw [encode_cons, encode_cons] at h
      obtain ⟨hqp, h⟩ := encodeSequence_inj (hq q (by simp)) (hp p (by simp)) h
      obtain ⟨hqs, hl⟩ := ih (fun q hm => hq q (by simp [hm])) (fun p hm => hp p (by simp [hm])) h
      exact ⟨by rw [hqp, hqs], hl⟩

end CosmoOS.Lz4
