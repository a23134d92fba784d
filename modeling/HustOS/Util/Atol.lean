import HustOS.Util.Snprintf

/-!
# Reading numbers

`atol` of `util/string.c`: blanks, a sign, and decimal digits. It checks neither that they are digits
nor that the number fits; here a value that is no `long` is an error. It reads back what `%ld`
prints, for every `long` that has a negative (`atol_printed`).
-/

namespace HustOS.Util

open Foundations Text Snprintf

variable {v : ℕ} {x : ℤ} {c : UInt8} {str : List UInt8}

/-- A value of the type `long`. -/
def long (v : ℤ) : Except Fault ℤ :=
  if -2 ^ 63 ≤ v ∧ v < 2 ^ 63 then return v else throw (.undefined "long")

/-- The loop of `atol` over the digits. -/
def atolLoop : List UInt8 → ℤ → Except Fault ℤ
  | [], res => return res
  | c :: str, res => do
    let res ← long (res * 10)
    let res ← long (res + (c.toNat - 48))
    atolLoop str res

/-- `atol`, on the bytes of the string. -/
def atol (str : List UInt8) : Except Fault ℤ := do
  let str := str.dropWhile (· = ' '.toUInt8)
  let sign := str.head? = some '-'.toUInt8
  let str := if sign ∨ str.head? = some '+'.toUInt8 then str.tail else str
  let res ← atolLoop str 0
  if sign then long (-res) else return res

theorem long_of_lt (h : -2 ^ 63 ≤ x ∧ x < 2 ^ 63) : long x = .ok x := if_pos h

theorem atolLoop_append (str str' : List UInt8) (res : ℤ) :
    atolLoop (str ++ str') res = (atolLoop str res >>= atolLoop str') := by
  induction str generalizing res with
  | nil => rfl
  | cons c str ih =>
    rw [List.cons_append, atolLoop, atolLoop]
    cases long (res * 10) with
    | error e => rfl
    | ok res =>
      simp only [ok_bind]
      cases long (res + (c.toNat - 48)) with
      | error e => rfl
      | ok res => exact ih res

theorem toNat_digit (hv : v < 10) : (digit v).toNat = 48 + v := by
  interval_cases v <;> rfl

/-- A digit behind the number `res`. -/
theorem atolLoop_digit {res : ℕ} (hv : v < 10) (h : 10 * res + v < 2 ^ 63) :
    atolLoop [digit v] res = .ok ↑(10 * res + v) := by
  rw [atolLoop, toNat_digit hv, long_of_lt (by omega), ok_bind, long_of_lt (by omega), ok_bind,
    atolLoop, pure_eq_ok]
  congr 1
  omega

theorem atolLoop_numeral (hv : v < 2 ^ 63) : atolLoop (numeral 10 v) 0 = .ok ↑v := by
  induction v using Nat.strong_induction_on with
  | _ v ih =>
    rcases Nat.lt_or_ge v 10 with hlt | hge
    · rw [numeral_of_lt (by omega) hlt]
      simpa using atolLoop_digit hlt (by omega : 10 * 0 + v < 2 ^ 63)
    · rw [numeral_of_le (by omega) (by omega) hge, atolLoop_append, ih (v / 10) (by omega) (by omega),
        ok_bind, atolLoop_digit (Nat.mod_lt v (by omega)) (by omega), Nat.div_add_mod]

/-- A numeral starts with a digit. -/
theorem numeral_head (v : ℕ) : ∃ d < 10, (numeral 10 v).head? = some (digit d) := by
  induction v using Nat.strong_induction_on with
  | _ v ih =>
    rcases Nat.lt_or_ge v 10 with hlt | hge
    · exact ⟨v, hlt, by rw [numeral_of_lt (by omega) hlt]; rfl⟩
    · obtain ⟨d, hd, hhead⟩ := ih (v / 10) (by omega)
      refine ⟨d, hd, ?_⟩
      rw [numeral_of_le (by omega) (by omega) hge, List.head?_append, hhead]
      rfl

theorem digit_ne (hv : v < 10) :
    digit v ≠ ' '.toUInt8 ∧ digit v ≠ '-'.toUInt8 ∧ digit v ≠ '+'.toUInt8 := by
  interval_cases v <;> decide

/-- **What `%ld` prints, `atol` reads**, behind any number of blanks. -/
theorem atol_printed (k : ℕ) (hx : -2 ^ 63 < x) (hx' : x < 2 ^ 63) :
    atol (List.replicate k ' '.toUInt8 ++ decimal x) = .ok x := by
  obtain ⟨d, hd, hhead⟩ := numeral_head x.natAbs
  obtain ⟨hblank, hminus, hplus⟩ := digit_ne hd
  have hdrop : (List.replicate k ' '.toUInt8 ++ decimal x).dropWhile (· = ' '.toUInt8) =
      decimal x := by
    rw [List.dropWhile_append_of_pos (by simp)]
    rw [decimal]
    split
    · rfl
    · cases hn : numeral 10 x.natAbs with
      | nil => rfl
      | cons c str =>
        rw [hn, List.head?_cons, Option.some.injEq] at hhead
        rw [List.nil_append, List.dropWhile_cons_of_neg (by simpa [hhead] using hblank)]
  rw [atol, hdrop, decimal]
  by_cases hneg : x < 0
  · rw [if_pos hneg]
    have habs : -|x| = x := by rw [abs_of_neg hneg, neg_neg]
    simp [atolLoop_numeral (v := x.natAbs) (by omega), habs, long_of_lt ⟨hx.le, hx'⟩]
  · rw [if_neg hneg, List.nil_append]
    have hpos : (x.natAbs : ℤ) = x := by omega
    simp [hhead, hminus, hplus, atolLoop_numeral (v := x.natAbs) (by omega), hpos]

theorem atol_printed_small : atol (List.replicate 2 ' '.toUInt8 ++ decimal (-40)) = .ok (-40) :=
  atol_printed 2 (by decide) (by decide)

end HustOS.Util
