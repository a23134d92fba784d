import HustOS.Foundations.Leb128
import HustOS.Foundations.Outcome
import HustOS.Kernel
import Mathlib.Data.BitVec
import Mathlib.Data.Nat.Bitwise
import Mathlib.Tactic.IntervalCases

/-!
# Reading LEB128 numbers

`read_uleb128` and `read_sleb128` of `kernel/elf.c`, over the bytes that the cursor goes through.
Both have the same loop (`lebLoop`), which shifts the seven bits of each byte to their place in 64
bits; a shift by 64 or more, which the eleventh byte would need, is undefined. `read_uleb128` reads
every encoding of a number that has at most ten bytes (`readUleb128To_encodes`).

`read_sleb128` extends the sign with `-(1 << shift)`, where `1` is an `int`, so a negative number of
five to nine bytes is shifted out of it (`readSleb128_encode_iff`).
-/

namespace HustOS.Elf

open Foundations

/-! ## The readers -/

/-- The loop of `read_uleb128` and `read_sleb128`, for `k` more bytes: the value, the shift, the
last byte and the cursor behind it. -/
def lebLoop (mem : Buf) : ℕ → BitVec 64 → ℕ → ℕ → Except Fault (BitVec 64 × ℕ × UInt8 × ℕ)
  | 0, _, _, _ => throw (.undefined "((uint64)b & 0x7F) << shift")
  | k + 1, value, shift, off =>
    let b := mem off
    let value := value ||| (BitVec.ofNat 64 (b.toNat % 128)) <<< shift
    if b.toNat < 128 then return (value, shift + 7, b, off + 1)
    else lebLoop mem k value (shift + 7) (off + 1)

/-- `read_uleb128`: the number and the cursor behind it. -/
def readUleb128 (mem : Buf) (off : ℕ) : Except Fault (BitVec 64 × ℕ) := do
  let (value, _, _, off) ← lebLoop mem 10 0 0 off
  return (value, off)

/-- `read_sleb128`. The sign is extended by a shift of the `int` 1. -/
def readSleb128 (mem : Buf) (off : ℕ) : Except Fault (BitVec 64 × ℕ) := do
  let (value, shift, b, off) ← lebLoop mem 10 0 0 off
  if shift < 64 ∧ 64 ≤ b.toNat % 128 then
    if 32 ≤ shift then throw (.undefined "1 << shift")
    return (value ||| (-((1 : BitVec 32) <<< shift)).signExtend 64, off)
  return (value, off)

variable {mem : Buf} {off k shift : ℕ} {bs : List UInt8} {value : BitVec 64}

/-! ## The loop -/

/-- A byte is put above the bits that are there. -/
theorem or_shiftLeft {v : BitVec 64} (hv : v.toNat < 2 ^ shift) (x : ℕ) (hx : x < 2 ^ 64) :
    v ||| (BitVec.ofNat 64 x) <<< shift = BitVec.ofNat 64 (v.toNat + x * 2 ^ shift) := by
  have hor : x <<< shift ||| v.toNat = x <<< shift + v.toNat :=
    (Nat.shiftLeft_add_eq_or_of_lt hv x).symm
  apply BitVec.eq_of_toNat_eq
  rw [BitVec.toNat_or, BitVec.toNat_shiftLeft, BitVec.toNat_ofNat, BitVec.toNat_ofNat,
    Nat.mod_eq_of_lt hx, Nat.or_comm]
  calc x <<< shift % 2 ^ 64 ||| v.toNat
      = x <<< shift % 2 ^ 64 ||| v.toNat % 2 ^ 64 := by rw [Nat.mod_eq_of_lt v.isLt]
    _ = (x <<< shift ||| v.toNat) % 2 ^ 64 := (Nat.or_mod_two_pow).symm
    _ = (v.toNat + x * 2 ^ shift) % 2 ^ 64 := by rw [hor, Nat.shiftLeft_eq, Nat.add_comm]

/-- **The loop** reads a number of at most `k` bytes. -/
theorem lebLoop_at (h : IsLeb bs) (hat : mem.At off bs) (hk : bs.length ≤ k)
    (hshift : shift + 7 * k ≤ 70) (hv : value.toNat < 2 ^ shift) :
    ∃ b, lebLoop mem k value shift off =
        .ok (BitVec.ofNat 64 (value.toNat + uleb bs * 2 ^ shift), shift + 7 * bs.length, b,
          off + bs.length) ∧ (64 ≤ b.toNat % 128 ↔ signBit bs = true) := by
  induction h generalizing k shift off value with
  | last b h =>
    obtain ⟨k, rfl⟩ : ∃ j, k = j + 1 := ⟨k - 1, by simp at hk; omega⟩
    obtain ⟨rfl, -⟩ := hat
    refine ⟨mem off, ?_, by simp [signBit]⟩
    have hx : (mem off).toNat % 128 < 2 ^ 64 := by omega
    simp only [lebLoop, h, if_true, pure_eq_ok, or_shiftLeft hv _ hx, uleb, List.length_singleton,
      Nat.mul_zero, Nat.add_zero, Nat.mul_one]
  | cons b bs h hleb ih =>
    obtain ⟨k, rfl⟩ : ∃ j, k = j + 1 := ⟨k - 1, by simp at hk; omega⟩
    obtain ⟨rfl, hat⟩ := hat
    have hpos := hleb.length_pos
    have hx : (mem off).toNat % 128 < 2 ^ 64 := by omega
    have hlen : bs.length ≤ k := by simpa using hk
    -- the bits read so far end below the next shift, which is at most 63
    have hlt : value.toNat + (mem off).toNat % 128 * 2 ^ shift < 2 ^ (shift + 7) := by
      have hb : (mem off).toNat % 128 < 128 := Nat.mod_lt _ (by decide)
      rw [pow_add]
      nlinarith
    have h64 : 2 ^ (shift + 7) ≤ 2 ^ 64 := Nat.pow_le_pow_right (by decide) (by omega)
    have hval : (BitVec.ofNat 64 (value.toNat + (mem off).toNat % 128 * 2 ^ shift)).toNat =
        value.toNat + (mem off).toNat % 128 * 2 ^ shift := by
      rw [BitVec.toNat_ofNat, Nat.mod_eq_of_lt (hlt.trans_le h64)]
    obtain ⟨b, hb, hs⟩ := ih hat hlen (by omega) (hval.symm ▸ hlt)
    refine ⟨b, ?_, by rw [hs, signBit_cons hleb.ne_nil]⟩
    rw [lebLoop]
    simp only [or_shiftLeft hv _ hx, Nat.not_lt.2 h, if_false, hb, hval, uleb, List.length_cons]
    rw [show value.toNat + (mem off).toNat % 128 * 2 ^ shift + uleb bs * 2 ^ (shift + 7) =
        value.toNat + ((mem off).toNat % 128 + 128 * uleb bs) * 2 ^ shift by ring,
      show shift + 7 + 7 * bs.length = shift + 7 * (bs.length + 1) by ring,
      show off + 1 + bs.length = off + (bs.length + 1) by ring]

/-- The loop at the start of a reader. -/
theorem lebLoop_start (h : IsLeb bs) (hat : mem.At off bs) (hlen : bs.length ≤ 10) :
    ∃ b, lebLoop mem 10 0 0 off =
        .ok (BitVec.ofNat 64 (uleb bs), 7 * bs.length, b, off + bs.length) ∧
      (64 ≤ b.toNat % 128 ↔ signBit bs = true) := by
  have hv : (0 : BitVec 64).toNat < 2 ^ 0 := by decide
  obtain ⟨b, hb, hs⟩ := lebLoop_at h hat hlen (by decide) hv
  refine ⟨b, ?_, hs⟩
  simpa using hb

/-- **`read_uleb128`** reads a number of at most ten bytes. -/
theorem readUleb128_at (h : IsLeb bs) (hat : mem.At off bs) (hlen : bs.length ≤ 10) :
    readUleb128 mem off = .ok (BitVec.ofNat 64 (uleb bs), off + bs.length) := by
  obtain ⟨b, hb, -⟩ := lebLoop_start h hat hlen
  rw [readUleb128, hb]
  rfl

/-- `read_uleb128` with the place for the result, which may be `NULL`: what is written there, and
the cursor. -/
def readUleb128To (out : Option (BitVec 64)) (mem : Buf) (off : ℕ) :
    Except Fault (Option (BitVec 64) × ℕ) := do
  let (value, off) ← readUleb128 mem off
  return (out.map fun _ => value, off)

/-- **Decoding inverts encoding.** From any encoding of a 64-bit number in at most ten bytes
`read_uleb128` reads the number, if it has a place for it, and goes to the end of the encoding. -/
theorem readUleb128To_encodes (n : ℕ) (hn : n < 2 ^ 64) (bs : List UInt8) (h : EncodesUleb n bs)
    (hlen : bs.length ≤ 10) (mem : Buf) (off : ℕ) (hat : mem.At off bs)
    (out : Option (BitVec 64)) :
    ∃ value : BitVec 64, value.toNat = n ∧
      readUleb128To out mem off = .ok (out.map fun _ => value, off + bs.length) := by
  obtain ⟨hleb, rfl⟩ := encodesUleb_iff.1 h
  refine ⟨BitVec.ofNat 64 (uleb bs), ?_, ?_⟩
  · rw [BitVec.toNat_ofNat, Nat.mod_eq_of_lt hn]
  · rw [readUleb128To, readUleb128_at hleb hat hlen, ok_bind]
    rfl

/-- The case of 300 in three bytes, one more than it needs, with and without a place for it. -/
theorem readUleb128To_encodes_padded :
    let mem : Buf := fun i => [7, 172, 130, 0, 9].getD i 0
    readUleb128To (some 0) mem 1 = .ok (some 300, 4) ∧
        readUleb128To none mem 1 = .ok (none, 4) := by
  intro mem
  have h : EncodesUleb 300 [172, 130, 0] := .cons 300 _ (.cons 2 _ (.last 0 (by decide)))
  have hat : mem.At 1 [172, 130, 0] := ⟨rfl, rfl, rfl, trivial⟩
  have hread := readUleb128To_encodes 300 (by decide) _ h (by decide) mem 1 hat
  obtain ⟨value, hvalue, hsome⟩ := hread (some 0)
  obtain ⟨_, _, hnone⟩ := hread none
  have h300 : value = 300 := BitVec.eq_of_toNat_eq hvalue
  exact ⟨h300 ▸ hsome, hnone⟩

/-! ## The sign -/

/-- The `int` of all ones above the bits of `l` bytes. -/
theorem neg_shiftLeft {l : ℕ} (hl : l ≤ 4) :
    (-((1 : BitVec 32) <<< (7 * l))).signExtend 64 = BitVec.ofNat 64 (2 ^ 64 - 128 ^ l) := by
  interval_cases l <;> decide

/-- The sign is extended by setting the bits above the number. -/
theorem or_sign {x l : ℕ} (hx : x < 128 ^ l) (hl : l ≤ 4) :
    BitVec.ofNat 64 x ||| BitVec.ofNat 64 (2 ^ 64 - 128 ^ l) = BitVec.ofInt 64 (x - 128 ^ l) := by
  have hpow : 128 ^ l = 2 ^ (7 * l) := (pow_mul 2 7 l).symm
  have hle : 2 ^ (7 * l) ≤ 2 ^ 28 := Nat.pow_le_pow_right (by decide) (by omega)
  rw [hpow] at hx
  have hsub : 2 ^ 64 - 128 ^ l = (2 ^ (64 - 7 * l) - 1) * 2 ^ (7 * l) := by
    rw [hpow, Nat.sub_mul, ← pow_add, show 64 - 7 * l + 7 * l = 64 by omega, one_mul]
  have hbits : BitVec.ofNat 64 (2 ^ 64 - 128 ^ l) =
      (BitVec.ofNat 64 (2 ^ (64 - 7 * l) - 1)) <<< (7 * l) := by
    apply BitVec.eq_of_toNat_eq
    have hlt : 2 ^ (64 - 7 * l) - 1 < 2 ^ 64 :=
      (Nat.sub_lt (by positivity) (by decide)).trans_le
        (Nat.pow_le_pow_right (by decide) (by omega))
    rw [BitVec.toNat_shiftLeft, BitVec.toNat_ofNat, BitVec.toNat_ofNat, hsub, Nat.shiftLeft_eq,
      Nat.mod_eq_of_lt hlt]
  have hxt : (BitVec.ofNat 64 x).toNat = x := Nat.mod_eq_of_lt (by omega)
  have hlt : 2 ^ (64 - 7 * l) - 1 < 2 ^ 64 :=
    (Nat.sub_lt (by positivity) (by decide)).trans_le (Nat.pow_le_pow_right (by decide) (by omega))
  rw [hbits, or_shiftLeft (hxt.symm ▸ hx) _ hlt, hxt, ← hsub]
  apply BitVec.eq_of_toNat_eq
  have hint : ((128 : ℤ) ^ l) = ((128 ^ l : ℕ) : ℤ) := by push_cast; ring
  rw [BitVec.toNat_ofNat, BitVec.toNat_ofInt, hint, hpow]
  omega

/-- **`read_sleb128`** reads a number of at most ten bytes, but a negative one only if it has at
most four bytes, or ten. -/
theorem readSleb128_at (h : IsLeb bs) (hat : mem.At off bs) (hlen : bs.length ≤ 10) :
    readSleb128 mem off =
      if signBit bs = true ∧ 5 ≤ bs.length ∧ bs.length ≤ 9 then .error (.undefined "1 << shift")
      else .ok (BitVec.ofInt 64 (sleb bs), off + bs.length) := by
  obtain ⟨b, hb, hs⟩ := lebLoop_start h hat hlen
  rw [readSleb128, hb, ok_bind]
  simp only [hs]
  cases hsign : signBit bs with
  | false =>
    have hval : sleb bs = (uleb bs : ℕ) := by simp [sleb, hsign]
    simp only [Bool.false_eq_true, and_false, false_and, if_false, pure_eq_ok, hval,
      BitVec.ofInt_natCast]
  | true =>
    have hval : sleb bs = uleb bs - 128 ^ bs.length := by simp [sleb, hsign]
    by_cases h64 : 7 * bs.length < 64
    · by_cases h32 : 32 ≤ 7 * bs.length
      · simp only [h64, h32, and_self, if_true, throw_eq_error, error_bind]
        rw [if_pos ⟨trivial, by omega, by omega⟩]
      · have h4 : bs.length ≤ 4 := by omega
        have hnot : ¬ (True ∧ 5 ≤ bs.length ∧ bs.length ≤ 9) := by omega
        simp only [h64, h32, and_self, if_true, if_false, pure_eq_ok, neg_shiftLeft h4,
          or_sign (uleb_lt bs) h4, hval, hnot]
    · have h10 : bs.length = 10 := by omega
      have hval64 : BitVec.ofNat 64 (uleb bs) = BitVec.ofInt 64 (sleb bs) := by
        rw [hval, h10]
        apply BitVec.eq_of_toNat_eq
        rw [BitVec.toNat_ofNat, BitVec.toNat_ofInt]
        omega
      rw [if_neg (fun h => h64 h.1), if_neg (by omega), hval64]
      rfl

/-- **Reading what was encoded.** `read_sleb128` gives back a 64-bit integer from its shortest
encoding, and goes to the end of it, exactly if the integer is not negative, or has at most 28 bits,
or needs all ten bytes. -/
theorem readSleb128_encode_iff (n : ℤ) (hn : -2 ^ 63 ≤ n ∧ n < 2 ^ 63)
    (hat : mem.At off (encodeSleb n)) :
    readSleb128 mem off = .ok (BitVec.ofInt 64 n, off + (encodeSleb n).length) ↔
      0 ≤ n ∨ -2 ^ 27 ≤ n ∨ n < -2 ^ 62 := by
  have hleb := isLeb_encodeSleb n
  have h10 := (length_encodeSleb_le_iff (n := n) 9).2 (by omega)
  have h9 := length_encodeSleb_le_iff (n := n) 8
  have h4 := length_encodeSleb_le_iff (n := n) 3
  have hneg : signBit (encodeSleb n) = true ↔ n < 0 := by
    rw [signBit_eq_true_iff, sleb_encodeSleb]
  rw [readSleb128_at hleb hat h10, sleb_encodeSleb]
  simp only [hneg]
  split
  · rename_i h
    exact ⟨(nomatch ·), fun hor => by omega⟩
  · rename_i h
    simp only [true_iff]
    omega

/-- The case of -1, one byte with the sign in it. -/
theorem readSleb128_encode_iff_minusOne :
    readSleb128 (fun _ => 127) 5 = .ok (BitVec.ofInt 64 (-1), 6) := by
  have hcode : encodeSleb (-1) = [127] := by
    rw [encodeSleb, if_pos (by decide)]
    rfl
  have hat : Buf.At (fun _ => 127) 5 (encodeSleb (-1)) := by
    rw [hcode]
    exact ⟨rfl, trivial⟩
  have h := (readSleb128_encode_iff (-1) (by decide) hat).2 (Or.inr (Or.inl (by decide)))
  rwa [hcode] at h

/-- -2^27-1 needs five bytes, and its sign is lost. -/
theorem longNegative_undecoded : ¬ ∀ (n : ℤ) (mem : Buf) (off : ℕ), -2 ^ 63 ≤ n ∧ n < 2 ^ 63 →
    mem.At off (encodeSleb n) →
    readSleb128 mem off = .ok (BitVec.ofInt 64 n, off + (encodeSleb n).length) := by
  intro hall
  have hat : Buf.At (fun i => (encodeSleb (-2 ^ 27 - 1)).getD i 0) 0 (encodeSleb (-2 ^ 27 - 1)) :=
    Buf.at_getD _
  have h := hall (-2 ^ 27 - 1) _ 0 (by decide) hat
  rw [readSleb128_at (isLeb_encodeSleb _) hat
    ((length_encodeSleb_le_iff 9).2 (by decide)), if_pos] at h
  · exact nomatch h
  · refine ⟨?_, ?_, (length_encodeSleb_le_iff 8).2 (by decide)⟩
    · rw [signBit_eq_true_iff, sleb_encodeSleb]
      decide
    · have h4 := (length_encodeSleb_le_iff (n := -2 ^ 27 - 1) 3).not.2 (by decide)
      omega

end HustOS.Elf
