import HustOS.Foundations.Bytes
import Mathlib.Algebra.Order.Ring.Int
import Mathlib.Data.Int.Basic
import Mathlib.Tactic.Linarith

/-!
# LEB128 numbers

Numbers of any size as bytes of seven bits each, lowest first, every byte but the last with its high
bit set. A byte sequence of this form (`IsLeb`) has an unsigned value (`uleb`) and a signed one
(`sleb`), where the highest bit of the last byte counts negatively. `EncodesUleb` are the encodings
of a natural number, the shortest and the padded ones (`encodesUleb_iff`). `encodeSleb` is the
shortest encoding of an integer: it is a LEB128 number (`isLeb_encodeSleb`) with the value encoded
(`sleb_encodeSleb`), and its length is what the size of the integer asks for
(`length_encodeSleb_le_iff`).
-/

namespace HustOS.Foundations

/-- The `n` low bytes of a number, lowest first. -/
def leBytes : ℕ → ℕ → List UInt8
  | 0, _ => []
  | n + 1, v => UInt8.ofNat v :: leBytes n (v / 256)

/-- Every byte but the last has its high bit set. -/
inductive IsLeb : List UInt8 → Prop
  | last (b : UInt8) (h : b.toNat < 128) : IsLeb [b]
  | cons (b : UInt8) (bs : List UInt8) (h : 128 ≤ b.toNat) (rest : IsLeb bs) : IsLeb (b :: bs)

/-- The unsigned value. -/
def uleb : List UInt8 → ℕ
  | [] => 0
  | b :: bs => b.toNat % 128 + 128 * uleb bs

/-- The last byte has the bit of the sign. -/
def signBit : List UInt8 → Bool
  | [] => false
  | [b] => decide (64 ≤ b.toNat % 128)
  | _ :: bs => signBit bs

/-- The signed value. -/
def sleb (bs : List UInt8) : ℤ := uleb bs - if signBit bs then 128 ^ bs.length else 0

variable {b : UInt8} {bs : List UInt8} {n : ℤ}

theorem IsLeb.ne_nil (h : IsLeb bs) : bs ≠ [] := by
  cases h <;> exact List.cons_ne_nil _ _

theorem IsLeb.length_pos (h : IsLeb bs) : 0 < bs.length :=
  List.length_pos_iff.2 h.ne_nil

theorem signBit_cons (h : bs ≠ []) : signBit (b :: bs) = signBit bs := by
  cases bs with
  | nil => exact absurd rfl h
  | cons _ _ => rfl

theorem uleb_lt (bs : List UInt8) : uleb bs < 128 ^ bs.length := by
  induction bs with
  | nil => decide
  | cons b bs ih =>
    rw [uleb, List.length_cons, pow_succ]
    have hb : b.toNat % 128 < 128 := Nat.mod_lt _ (by decide)
    omega

theorem sleb_cons (h : bs ≠ []) : sleb (b :: bs) = (b.toNat % 128 : ℕ) + 128 * sleb bs := by
  rw [sleb, sleb, signBit_cons h, uleb, List.length_cons]
  split
  · push_cast
    ring
  · push_cast
    ring

/-! ## Unsigned encodings -/

/-- The bytes encode the number: its groups of seven bits, lowest first, up to a last one with
nothing above it. More groups of zeros may follow the highest bits. -/
inductive EncodesUleb : ℕ → List UInt8 → Prop
  | last (n : ℕ) (h : n < 128) : EncodesUleb n [UInt8.ofNat n]
  | cons (n : ℕ) (bs : List UInt8) (rest : EncodesUleb (n / 128) bs) :
      EncodesUleb n (UInt8.ofNat (n % 128 + 128) :: bs)

/-- **The encodings of a number** are the LEB128 numbers with its value. -/
theorem encodesUleb_iff {n : ℕ} : EncodesUleb n bs ↔ IsLeb bs ∧ uleb bs = n := by
  constructor
  · intro h
    induction h with
    | last n h =>
      have hbyte : (UInt8.ofNat n).toNat = n := by
        rw [UInt8.toNat_ofNat']
        omega
      refine ⟨.last _ (hbyte.symm ▸ h), ?_⟩
      rw [uleb, uleb, hbyte]
      omega
    | cons n bs rest ih =>
      have hbyte : (UInt8.ofNat (n % 128 + 128)).toNat = n % 128 + 128 := by
        rw [UInt8.toNat_ofNat']
        omega
      refine ⟨.cons _ _ (by omega) ih.1, ?_⟩
      rw [uleb, ih.2, hbyte]
      omega
  · rintro ⟨h, rfl⟩
    induction h with
    | last b h =>
      have hval : uleb [b] = b.toNat := by
        rw [uleb, uleb]
        omega
      rw [hval]
      have hlast := EncodesUleb.last b.toNat h
      rwa [UInt8.ofNat_toNat] at hlast
    | cons b bs h rest ih =>
      have hlt := b.toNat_lt
      have hdiv : uleb (b :: bs) / 128 = uleb bs := by
        rw [uleb]
        omega
      have hmod : uleb (b :: bs) % 128 + 128 = b.toNat := by
        rw [uleb]
        omega
      have hcons := EncodesUleb.cons (uleb (b :: bs)) bs (hdiv.symm ▸ ih)
      rwa [hmod, UInt8.ofNat_toNat] at hcons

/-! ## The shortest encoding -/

/-- The shortest encoding of an integer. -/
def encodeSleb (n : ℤ) : List UInt8 :=
  if -64 ≤ n ∧ n < 64 then [UInt8.ofNat (n % 128).toNat]
  else UInt8.ofNat ((n % 128).toNat + 128) :: encodeSleb (n / 128)
termination_by n.natAbs
decreasing_by omega

theorem isLeb_encodeSleb (n : ℤ) : IsLeb (encodeSleb n) := by
  induction n using encodeSleb.induct with
  | case1 n h =>
    rw [encodeSleb, if_pos h]
    refine .last _ ?_
    rw [UInt8.toNat_ofNat']
    omega
  | case2 n h ih =>
    rw [encodeSleb, if_neg h]
    refine .cons _ _ ?_ ih
    rw [UInt8.toNat_ofNat']
    omega

theorem encodeSleb_ne_nil (n : ℤ) : encodeSleb n ≠ [] := (isLeb_encodeSleb n).ne_nil

/-- **The value of an encoding** is the integer encoded. -/
theorem sleb_encodeSleb (n : ℤ) : sleb (encodeSleb n) = n := by
  induction n using encodeSleb.induct with
  | case1 n h =>
    rw [encodeSleb, if_pos h]
    simp only [sleb, uleb, signBit, List.length_singleton, UInt8.toNat_ofNat', pow_one,
      decide_eq_true_iff]
    split <;> omega
  | case2 n h ih =>
    rw [encodeSleb, if_neg h, sleb_cons (encodeSleb_ne_nil _), ih, UInt8.toNat_ofNat']
    omega

/-- **The length of an encoding.** -/
theorem length_encodeSleb_le_iff (l : ℕ) :
    (encodeSleb n).length ≤ l + 1 ↔ -(64 * 128 ^ l) ≤ n ∧ n < 64 * 128 ^ l := by
  induction l generalizing n with
  | zero =>
    rw [encodeSleb]
    split
    · rename_i h
      simpa using h
    · rename_i h
      have hpos := List.length_pos_iff.2 (encodeSleb_ne_nil (n / 128))
      simp only [List.length_cons, pow_zero, mul_one]
      omega
  | succ l ih =>
    have hpow : (64 * 128 ^ (l + 1) : ℤ) = 64 * 128 ^ l * 128 := by ring
    have hone : (1 : ℤ) ≤ 128 ^ l := one_le_pow₀ (by decide)
    rw [encodeSleb]
    split
    · simp only [List.length_singleton, hpow]
      omega
    · rw [List.length_cons, Nat.add_le_add_iff_right, ih, hpow]
      generalize (64 * 128 ^ l : ℤ) = x
      omega

theorem signBit_eq_true_iff : signBit bs = true ↔ sleb bs < 0 := by
  have hlt : (uleb bs : ℤ) < 128 ^ bs.length := by exact_mod_cast uleb_lt bs
  rw [sleb]
  cases hs : signBit bs with
  | true => simpa using hlt
  | false => simp

end HustOS.Foundations
