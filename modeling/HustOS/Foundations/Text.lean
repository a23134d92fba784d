import HustOS.Foundations.Bytes
import Mathlib.Data.List.GetD
import Mathlib.Tactic.IntervalCases

/-!
# Text in bounded buffers

Numerals as bytes (`numeral`, with leading zeros `padded`), and what a printer leaves in a buffer of
`n` bytes when it stores each byte of a text that has its place in front of the last byte, and goes
on counting: the first `n - 1` bytes of the text (`stored`), and behind them the zero byte that ends
the string (`ended`).
-/

namespace HustOS.Foundations.Text

open Buf

variable {b v w n i pos : ℕ} {r r' : List UInt8} {c : UInt8} {out : Buf}

/-! ## Numerals -/

/-- The digit `d`, in lower case. -/
def digit (d : ℕ) : UInt8 := if d < 10 then UInt8.ofNat (48 + d) else UInt8.ofNat (97 + d - 10)

/-- The numeral of `v` in base `b`, the highest digit first. -/
def numeral (b v : ℕ) : List UInt8 := (Nat.toDigits b v).map fun c => UInt8.ofNat c.toNat

/-- The numeral with zeros in front of it up to `w` digits. -/
def padded (w b v : ℕ) : List UInt8 := (numeral b v).leftpad w 48

theorem toNat_digitChar (hv : v < 16) : UInt8.ofNat v.digitChar.toNat = digit v := by
  interval_cases v <;> rfl

theorem numeral_of_lt (hb : b ≤ 16) (hv : v < b) : numeral b v = [digit v] := by
  rw [numeral, Nat.toDigits_of_lt_base hv, List.map_singleton, toNat_digitChar (by omega)]

theorem numeral_of_le (hb : b ≤ 16) (h1 : 1 < b) (hv : b ≤ v) :
    numeral b v = numeral b (v / b) ++ [digit (v % b)] := by
  rw [numeral, Nat.toDigits_of_base_le h1 hv, List.map_append, List.map_singleton,
    toNat_digitChar ((Nat.mod_lt v (by omega)).trans_le hb), numeral]

/-- The `w` lowest digits of `v`. -/
def places (b : ℕ) : ℕ → ℕ → List UInt8
  | 0, _ => []
  | w + 1, v => places b w (v / b) ++ [digit (v % b)]

/-- The bytes of the text in front of the last one of the buffer. -/
def stored (n : ℕ) (r : List UInt8) (out : Buf) : Buf := fun i =>
  if i < r.length ∧ i + 1 < n then r.getD i 0 else out i

/-- The text cut to the buffer, and the zero byte behind it. -/
def ended (n : ℕ) (r : List UInt8) (out : Buf) : Buf :=
  if n = 0 then out else out.setCstr 0 (r.take (n - 1))

end HustOS.Foundations.Text
