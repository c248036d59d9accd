import CosmoOS.Lib.OnesComplement
import Mathlib.Algebra.Group.Nat.Defs
import Mathlib.Data.List.Basic

/-!
# The Internet checksum of a chain of buffers

`cksum.cee`: the running sum of a message's words, over the buffers of a chain whose boundaries may
fall within a word, and the transport checksum a driver leaves to be completed in software.  Sums
are `u32` that wrap, here natural numbers below `2 ^ 32`; a folded checksum is a `u16`.  A chain is
the list of its buffers' bytes; a packet's `pkt.len` is the length of its chain.

A buffer that begins within a word gives its first byte as that word's low one, so the sum of a
chain is the sum of its bytes laid flat, whatever the division (`chainPartial_eq`).  The completed
checksum verifies when its field is a word of the sum, at an even offset; at an odd one it does not.
-/

namespace CosmoOS.Network.Cksum

open Lib.OnesComplement

/-! ## The sums -/

/-- A byte is the high one of its word at an even place, and the low one at an odd place. -/
def addByte (s : ℕ) (x : UInt8 × ℕ) : ℕ := (s + x.1.toNat * (256 - 255 * (x.2 % 2))) % 2 ^ 32

section

variable (data : List UInt8) (bufs : List (List UInt8))

def cksumPartial (s : ℕ) : ℕ := data.zipIdx.foldl addByte s

/-- The bytes of a `u16` exchanged. -/
def swap16 (h : ℕ) : ℕ := h % 256 * 256 + h / 256

/-- The ones' complement of the folded sum, in network byte order. -/
def cksumFold (s : ℕ) : ℕ := swap16 (flip (fold s))

/-- What a transport leaves in the checksum field: the folded sum of the pseudo-header, not
inverted (`cksum_partial_field`). -/
def partialField (pseudo : ℕ) : ℕ := flip (cksumFold pseudo)

/-! ## Chains -/

/-- The buffer of the byte `skip` bytes in, and where in it that byte is. -/
def skipBufs : List (List UInt8) → ℕ → List (List UInt8) × ℕ
  | [], skip => ([], skip)
  | b :: bs, skip => if skip ≥ b.length then skipBufs bs (skip - b.length) else (b :: bs, skip)

/-- The bytes of one buffer added: the first of them is a low byte if the last buffer began a
word. -/
def sumBuf (bytes : List UInt8) (odd : Bool) (s : ℕ) : Bool × ℕ :=
  match odd, bytes with
  | true, b :: rest => (rest.length % 2 == 1, cksumPartial rest ((s + b.toNat) % 2 ^ 32))
  | odd, bytes => (odd || bytes.length % 2 == 1, cksumPartial bytes s)

def sumBufs : List (List UInt8) → ℕ → ℕ → Bool → ℕ → ℕ
  | [], _, _, _, s => s
  | b :: bs, skip, left, odd, s =>
    if left = 0 then s
    else
      let take := min (b.length - skip) left
      let r := sumBuf ((b.drop skip).take take) odd s
      sumBufs bs 0 (left - take) r.1 r.2

def chainPartial (first : List (List UInt8)) (off want s : ℕ) : ℕ :=
  let m := skipBufs first off
  sumBufs m.1 m.2 want false s

/-! ## The completed checksum -/

/-- A packet: its first buffer, the others, and its header. -/
structure Packet where
  first : List UInt8
  rest : List (List UInt8)
  len : ℕ
  csumFlags : UInt16
  csumStart : UInt16
  csumOffset : UInt16
  whole : len = (first :: rest).flatten.length

def Packet.bytes (p : Packet) : List UInt8 := (p.first :: p.rest).flatten

/-- The bytes the checksum is over. -/
def Packet.range (p : Packet) : List UInt8 := p.bytes.drop p.csumStart.toNat

/-- Where the checksum is written. -/
def Packet.field (p : Packet) : ℕ := p.csumStart.toNat + p.csumOffset.toNat

def netCsumUdp : UInt16 := 2

def netCsumTx : UInt16 := 3

/-- A `u16` read and written in memory order. -/
def loadU16 (l : List UInt8) (i : ℕ) : ℕ := (l.getD i 0).toNat + 256 * (l.getD (i + 1) 0).toNat

def storeU16 (l : List UInt8) (i c : ℕ) : List UInt8 :=
  (l.set i (UInt8.ofNat c)).set (i + 1) (UInt8.ofNat (c / 256))

theorem storeU16_whole (p : Packet) (i c : ℕ) :
    p.len = (storeU16 p.first i c :: p.rest).flatten.length := by
  rw [p.whole]
  simp [storeU16]

def csumComplete (p : Packet) : Bool × Packet :=
  let start := p.csumStart.toNat
  if start ≥ p.len ∨ p.field + 2 > p.first.length then (false, p)
  else
    let c := cksumFold (chainPartial (p.first :: p.rest) start (p.len - start) 0)
    let c := if p.csumFlags &&& netCsumUdp ≠ 0 ∧ c = 0 then 0xffff else c
    (true, { p with
      first := storeU16 p.first p.field c
      csumFlags := p.csumFlags &&& (netCsumTx ^^^ 0xffff)
      whole := storeU16_whole p p.field c })

/-! ## The sum of a chain is the sum of its bytes -/

/-- The sum of bytes the first of which is a low byte when `odd` is set. -/
def sumFrom : Bool → List UInt8 → ℕ → ℕ
  | _, [], s => s
  | odd, b :: l, s => sumFrom (!odd) l ((s + b.toNat * if odd then 1 else 256) % 2 ^ 32)

theorem foldl_addByte (n s : ℕ) :
    (data.zipIdx n).foldl addByte s = sumFrom (n % 2 == 1) data s := by
  induction data generalizing n s with
  | nil => rfl
  | cons b data ih =>
    rw [List.zipIdx_cons, List.foldl_cons, ih, sumFrom]
    rcases Nat.mod_two_eq_zero_or_one n with h | h <;> simp [addByte, h, Nat.add_mod]

theorem cksumPartial_eq (s : ℕ) : cksumPartial data s = sumFrom false data s :=
  foldl_addByte data 0 s

theorem sumFrom_append (odd : Bool) (a b : List UInt8) (s : ℕ) :
    sumFrom odd (a ++ b) s = sumFrom (odd ^^ a.length % 2 == 1) b (sumFrom odd a s) := by
  induction a generalizing odd s with
  | nil => simp [sumFrom]
  | cons x a ih =>
    rw [List.cons_append, sumFrom, ih, sumFrom, List.length_cons]
    congr 1
    rcases Nat.mod_two_eq_zero_or_one a.length with h | h <;> cases odd <;> simp [h, Nat.add_mod]

/-- **One buffer**, wherever its words begin. -/
theorem sumBuf_eq (bytes : List UInt8) (odd : Bool) (s : ℕ) :
    sumBuf bytes odd s = (odd ^^ bytes.length % 2 == 1, sumFrom odd bytes s) := by
  fun_cases sumBuf bytes odd s with
  | case1 b rest =>
    rw [cksumPartial_eq, sumFrom, List.length_cons]
    rcases Nat.mod_two_eq_zero_or_one rest.length with h | h <;> simp [h, Nat.add_mod]
  | case2 =>
    rw [cksumPartial_eq]
    cases odd with
    | false => simp
    | true =>
      cases bytes with
      | nil => rfl
      | cons b rest => simp_all

theorem sumBufs_eq (skip left : ℕ) (odd : Bool) (s : ℕ) (h : ∀ b ∈ bufs.head?, skip ≤ b.length) :
    sumBufs bufs skip left odd s = sumFrom odd ((bufs.flatten.drop skip).take left) s := by
  induction bufs generalizing skip left odd s with
  | nil => simp [sumBufs, sumFrom]
  | cons b bs ih =>
    have hskip : skip ≤ b.length := h b rfl
    rw [sumBufs, List.flatten_cons, List.drop_append_of_le_length hskip, List.take_append]
    by_cases h0 : left = 0
    · subst h0
      simp [sumFrom]
    · have htake : (b.drop skip).take (min (b.length - skip) left) = (b.drop skip).take left := by
        rw [← List.length_drop, ← List.take_take, List.take_of_length_le (List.length_take_le' ..)]
      have hleft : left - min (b.length - skip) left = left - (b.drop skip).length := by
        rw [List.length_drop]
        omega
      rw [if_neg h0]
      dsimp only
      rw [htake, hleft, sumBuf_eq, ih _ _ _ _ fun _ _ => Nat.zero_le _, sumFrom_append,
        List.drop_zero]

theorem skipBufs_eq (off : ℕ) :
    (skipBufs bufs off).1.flatten.drop (skipBufs bufs off).2 = bufs.flatten.drop off ∧
      ∀ b ∈ (skipBufs bufs off).1.head?, (skipBufs bufs off).2 ≤ b.length := by
  fun_induction skipBufs bufs off with
  | case1 off => simp
  | case2 off b bs hle ih =>
    refine ⟨ih.1.trans ?_, ih.2⟩
    rw [List.flatten_cons, List.drop_append, List.drop_eq_nil_of_le hle, List.nil_append]
  | case3 off b bs hlt =>
    refine ⟨rfl, ?_⟩
    rintro _ ⟨⟩
    omega

/-- **The sum of a chain** is that of its bytes laid flat. -/
theorem chainPartial_eq (off want s : ℕ) :
    chainPartial bufs off want s = cksumPartial ((bufs.flatten.drop off).take want) s := by
  obtain ⟨hflat, hskip⟩ := skipBufs_eq bufs off
  rw [chainPartial, sumBufs_eq _ _ _ _ _ hskip, hflat, cksumPartial_eq]

/-! ## The sum as a number -/

theorem sumFrom_eq (s : ℕ) (hs : s < 2 ^ 32) : sumFrom false data s = (s + sum data) % 2 ^ 32 := by
  fun_induction sum data generalizing s with
  | case1 => exact (Nat.mod_eq_of_lt hs).symm
  | case2 a =>
    simp only [sumFrom, Bool.false_eq_true, if_false]
    rw [Nat.mul_comm]
  | case3 a b l ih =>
    simp only [sumFrom, Bool.not_false, Bool.not_true, Bool.false_eq_true, if_false, if_true]
    rw [ih _ (Nat.mod_lt _ (by decide))]
    omega

theorem sum_le : sum data ≤ 65535 * ((data.length + 1) / 2) := by
  fun_induction sum data with
  | case1 => exact Nat.zero_le _
  | case2 a =>
    have ha := a.toNat_lt
    simp
    omega
  | case3 a b l ih =>
    have ha := a.toNat_lt
    have hb := b.toNat_lt
    simp only [List.length_cons]
    omega

end

theorem cksumPartial_eq_add {data : List UInt8} {s : ℕ} (hlen : data.length ≤ 65535)
    (hs : s < 2 ^ 31) : cksumPartial data s = s + sum data := by
  have hle := sum_le data
  rw [cksumPartial_eq, sumFrom_eq _ _ (by omega), Nat.mod_eq_of_lt (by omega)]

theorem fold_lt (x : ℕ) : fold x < 65536 := by
  rw [fold_eq]
  split <;> omega

theorem swap16_lt {h : ℕ} (hh : h < 65536) : swap16 h < 65536 := by
  have hdiv : h / 256 < 256 := by omega
  rw [swap16]
  omega

theorem swap16_flip {h : ℕ} (hh : h < 65536) : flip (swap16 (flip h)) = swap16 h := by
  have hdiv : h / 256 < 256 := by omega
  rw [flip_eq, flip_eq, Nat.mod_eq_of_lt hh, Nat.mod_eq_of_lt (swap16_lt (by omega)), swap16,
    swap16]
  omega

theorem storeU16_swap16 {l : List UInt8} {i h : ℕ} (hh : h < 65536) :
    storeU16 l i (swap16 h) = putBe16 l i h := by
  have hdiv : h / 256 < 256 := by omega
  have hlo : UInt8.ofNat (swap16 h) = UInt8.ofNat (h / 256) := by
    rw [UInt8.ofNat_eq_iff_mod_eq_toNat, UInt8.toNat_ofNat', swap16]
    omega
  have hhi : UInt8.ofNat (swap16 h / 256) = UInt8.ofNat h := by
    have hswap : swap16 h / 256 = h % 256 := by
      rw [swap16]
      omega
    rw [UInt8.ofNat_eq_iff_mod_eq_toNat, UInt8.toNat_ofNat', hswap]
    omega
  rw [storeU16, putBe16, hlo, hhi]

/-- A field that holds the partial sum holds the folded sum of the pseudo-header, as a word. -/
theorem be16_of_partialField {l : List UInt8} {i pseudo : ℕ}
    (h : loadU16 l i = partialField pseudo) : be16 l i = fold pseudo := by
  have ha := (l.getD i 0).toNat_lt
  have hb := (l.getD (i + 1) 0).toNat_lt
  have hf := fold_lt pseudo
  have hdiv : fold pseudo / 256 < 256 := by omega
  rw [loadU16, partialField, cksumFold, swap16_flip hf, swap16] at h
  rw [be16]
  omega

/-- The word that is written in the end. -/
def finalWord (udp : Prop) [Decidable udp] (s : ℕ) : ℕ :=
  if udp ∧ flip (fold s) = 0 then 65535 else flip (fold s)

theorem finalWord_spec (udp : Prop) [Decidable udp] (s : ℕ) :
    finalWord udp s < 65536 ∧ (udp → finalWord udp s ≠ 0) ∧
      (s + finalWord udp s) % 65535 = 0 ∧ 0 < s + finalWord udp s ∧
      (if udp ∧ cksumFold s = 0 then 0xffff else cksumFold s) = swap16 (finalWord udp s) := by
  have hf := fold_lt s
  have hflip := flip_eq (fold s)
  have hfold := fold_eq s
  have hzero : cksumFold s = 0 ↔ flip (fold s) = 0 := by
    rw [cksumFold, swap16]
    omega
  have hmod : (s + flip (fold s)) % 65535 = 0 ∧ 0 < s + flip (fold s) := by
    split at hfold <;> omega
  rw [finalWord]
  simp only [hzero]
  by_cases hz : udp ∧ flip (fold s) = 0
  · rw [if_pos hz, if_pos hz]
    exact ⟨by decide, by simp, by omega, by omega, rfl⟩
  · rw [if_neg hz, if_neg hz]
    exact ⟨by omega, fun hu h0 => hz ⟨hu, h0⟩, hmod.1, hmod.2, rfl⟩

/-- **A word that completes the sum**, at an even offset. -/
theorem cksumFold_putBe16 {l : List UInt8} {off v pseudo : ℕ} (heven : off % 2 = 0)
    (hoff : off + 2 ≤ l.length) (hfield : be16 l off = fold pseudo) (hv : v < 65536)
    (hmod : (sum l + v) % 65535 = 0) (hpos : 0 < sum l + v) :
    cksumFold (pseudo + sum (putBe16 l off v)) = 0 := by
  have hput : sum (putBe16 l (2 * (off / 2)) v) + be16 l (2 * (off / 2)) = sum l + v :=
    sum_putBe16 (by omega) hv
  have hhalf : 2 * (off / 2) = off := by omega
  rw [hhalf, hfield, fold_eq] at hput
  have hmax : fold (pseudo + sum (putBe16 l off v)) = 65535 := by
    rw [fold_eq_max]
    split at hput <;> omega
  rw [cksumFold, hmax]
  rfl

variable {p : Packet}

theorem length_range (p : Packet) : p.range.length = p.len - p.csumStart.toNat := by
  rw [Packet.range, List.length_drop, p.whole]
  rfl

theorem be16_range (hfield : p.field + 2 ≤ p.first.length) :
    be16 p.range p.csumOffset.toNat = be16 p.first p.field := by
  have hget : ∀ i, p.csumStart.toNat + i < p.first.length →
      p.range.getD i 0 = p.first.getD (p.csumStart.toNat + i) 0 := by
    intro i hi
    rw [Packet.range, Packet.bytes, List.flatten_cons, List.getD_eq_getElem?_getD,
      List.getElem?_drop, List.getElem?_append_left hi, ← List.getD_eq_getElem?_getD]
  rw [be16, be16, hget _ (by rw [Packet.field] at hfield; omega),
    hget _ (by rw [Packet.field] at hfield; omega), Packet.field, Nat.add_assoc]

theorem range_putBe16 {q : Packet} (hfield : p.field + 2 ≤ p.first.length) {v : ℕ}
    (hstart : q.csumStart = p.csumStart) (hrest : q.rest = p.rest)
    (hfirst : q.first = putBe16 p.first p.field v) :
    q.range = putBe16 p.range p.csumOffset.toNat v := by
  have hoff : p.field - p.csumStart.toNat = p.csumOffset.toNat := Nat.add_sub_cancel_left ..
  have hle : p.csumStart.toNat ≤ p.field := Nat.le_add_right ..
  have hflat : q.bytes = putBe16 p.bytes p.field v := by
    rw [Packet.bytes, hfirst, hrest, Packet.bytes, List.flatten_cons, List.flatten_cons, putBe16,
      putBe16, List.set_append_left _ _ (by omega), List.set_append_left _ _ (by simp; omega)]
  rw [Packet.range, hstart, hflat, putBe16, List.drop_set, if_neg (by omega), List.drop_set,
    if_neg (by omega), hoff, Nat.sub_add_comm hle, hoff]
  rfl

/-- **What is completed**: one word of the first buffer. -/
theorem csumComplete_spec (hlen : p.len ≤ 65535) (hstart : p.csumStart.toNat < p.len)
    (hfield : p.field + 2 ≤ p.first.length) :
    ∃ q, csumComplete p = (true, q) ∧ q.first = putBe16 p.first p.field
        (finalWord (p.csumFlags &&& netCsumUdp ≠ 0) (sum p.range)) ∧
      q.range = putBe16 p.range p.csumOffset.toNat
        (finalWord (p.csumFlags &&& netCsumUdp ≠ 0) (sum p.range)) := by
  have hsum : chainPartial (p.first :: p.rest) p.csumStart.toNat (p.len - p.csumStart.toNat) 0 =
      sum p.range := by
    rw [chainPartial_eq, ← length_range]
    change cksumPartial (p.range.take _) 0 = _
    rw [List.take_length, cksumPartial_eq_add (by rw [length_range]; omega) (by decide),
      Nat.zero_add]
  have hrun : ¬ (p.csumStart.toNat ≥ p.len ∨ p.field + 2 > p.first.length) := by omega
  obtain ⟨hlt, -, -, -, hword⟩ := finalWord_spec (p.csumFlags &&& netCsumUdp ≠ 0) (sum p.range)
  have hfirst : (csumComplete p).2.first = putBe16 p.first p.field
      (finalWord (p.csumFlags &&& netCsumUdp ≠ 0) (sum p.range)) := by
    rw [csumComplete, if_neg hrun]
    dsimp only
    rw [hsum, hword, storeU16_swap16 hlt]
  refine ⟨(csumComplete p).2, Prod.ext ?_ rfl, hfirst, range_putBe16 hfield ?_ ?_ hfirst⟩ <;>
    rw [csumComplete, if_neg hrun]

/-- **The checksum over a divided packet.**  The sum of a chain folds as the sum of its bytes laid
flat does.  Where the field holds the pseudo-header's sum and is a word of the range, the packet
verifies once it is completed, and a UDP checksum is never zero. -/
theorem csum_complete_verifies :
    (∀ (bufs : List (List UInt8)) (off len s : ℕ), cksumFold (chainPartial bufs off len s) =
        cksumFold (cksumPartial ((bufs.flatten.drop off).take len) s)) ∧
    ∀ (p : Packet) (pseudo : ℕ), p.len ≤ 65535 → pseudo < 2 ^ 31 → p.csumStart.toNat < p.len →
      p.field + 2 ≤ p.first.length → p.csumOffset.toNat % 2 = 0 →
      loadU16 p.first p.field = partialField pseudo →
      ∃ q, csumComplete p = (true, q) ∧ cksumFold (cksumPartial q.range pseudo) = 0 ∧
        (p.csumFlags &&& netCsumUdp ≠ 0 → loadU16 q.first p.field ≠ 0) := by
  refine ⟨fun bufs off len s => by rw [chainPartial_eq], ?_⟩
  intro p pseudo hlen hpseudo hstart hfield heven hload
  obtain ⟨q, hq, hfirst, hrange⟩ := csumComplete_spec hlen hstart hfield
  obtain ⟨hlt, hudp, hmod, hpos, -⟩ := finalWord_spec (p.csumFlags &&& netCsumUdp ≠ 0)
    (sum p.range)
  have hlength := length_range p
  have hfirst_le : p.first.length ≤ p.len := by
    rw [p.whole]
    simp
  refine ⟨q, hq, ?_, fun hflag h0 => hudp hflag ?_⟩
  · rw [hrange, cksumPartial_eq_add (by rw [length_putBe16]; omega) hpseudo]
    refine cksumFold_putBe16 heven ?_ ?_ hlt hmod hpos
    · rw [Packet.field] at hfield
      omega
    · rw [be16_range hfield]
      exact be16_of_partialField hload
  · have hword := be16_putBe16 hfield hlt
    rw [← hfirst] at hword
    rw [← hword, be16]
    rw [loadU16] at h0
    omega

/-- A datagram whose first buffer ends within a word of its data. -/
def splitDatagram : Packet :=
  ⟨[0, 1, 0, 2, 0, 9, 0, 30, 5], [[], [6, 7]], 11, 2, 0, 6, rfl⟩

theorem csum_complete_verifies_split :
    cksumFold (chainPartial [[1, 2, 3], [], [4, 5]] 1 4 7) =
        cksumFold (cksumPartial [2, 3, 4, 5] 7) ∧
      ∃ q, csumComplete splitDatagram = (true, q) ∧ cksumFold (cksumPartial q.range 30) = 0 ∧
        loadU16 q.first 6 ≠ 0 := by
  obtain ⟨hchain, hcomplete⟩ := csum_complete_verifies
  obtain ⟨q, hq, hsum, hudp⟩ := hcomplete splitDatagram 30 (by decide) (by decide) (by decide)
    (by decide) (by decide) (by rw [partialField, cksumFold, fold_eq]; decide)
  exact ⟨hchain [[1, 2, 3], [], [4, 5]] 1 4 7, q, hq, hsum, hudp (by decide)⟩

/-- A segment that asks for its checksum at an odd offset. -/
def oddSegment : Packet := ⟨[1, 0, 0, 0], [], 4, 1, 0, 1, rfl⟩

/-- A field at an odd offset lies in two words of the sum, with its bytes exchanged: what is written
there does not complete it. -/
theorem csum_complete_odd :
    ∃ q, csumComplete oddSegment = (true, q) ∧
      loadU16 oddSegment.first oddSegment.field = partialField 0 ∧
      cksumFold (cksumPartial q.range 0) ≠ 0 := by
  obtain ⟨q, hq, -, hrange⟩ := csumComplete_spec (p := oddSegment) (by decide) (by decide)
    (by decide)
  refine ⟨q, hq, by rw [partialField, cksumFold, fold_eq]; decide, ?_⟩
  rw [hrange]
  simp only [finalWord, cksumFold, fold_eq]
  decide

end CosmoOS.Network.Cksum
