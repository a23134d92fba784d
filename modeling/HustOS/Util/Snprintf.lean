import HustOS.Foundations.Outcome
import HustOS.Foundations.Text
import HustOS.Kernel

/-!
# Formatted printing

`vsnprintf` of `util/snprintf.c`: one pass over the format with the flags `format` (behind a `%`) and
`longarg` (behind an `l`), which stores a byte only where it has its place in the buffer and counts
all of them. A number in decimal digits is stored from its last digit on.

A format is a list of pieces (`Piece`): a byte that is printed as it is, or a directive, a `%`, bytes
that are skipped and one of the letters `p x d s c`. `vsnprintf` leaves in the buffer the text that
the pieces stand for, cut to `n - 1` bytes and ended by a zero byte, leaves every other byte of the
buffer as it is, and returns the length of the whole text (`vsnprintf_eq`).
-/

namespace HustOS.Util.Snprintf

open Foundations Text

/-! ## The code -/

/-- The buffer and the number of bytes printed. -/
structure Out where
  out : Buf
  pos : ℕ

/-- `if (++pos < n) out[pos - 1] = c`. -/
def Out.put (n : ℕ) (c : UInt8) (o : Out) : Out where
  out := if o.pos + 1 < n then Function.update o.out o.pos c else o.out
  pos := o.pos + 1

/-- `va_arg(vl, long)`. -/
def vaArg : List (BitVec 64) → Except Fault (BitVec 64 × List (BitVec 64))
  | [] => throw (.undefined "va_arg")
  | a :: vl => return (a, vl)

/-- `longarg ? va_arg(vl, long) : va_arg(vl, int)` of the next argument. -/
def num (longarg : Bool) (a : BitVec 64) : BitVec 64 :=
  if longarg then a else (a.setWidth 32).signExtend 64

/-- The loop of `%x` over the `i` lowest digits. -/
def printHex (n : ℕ) (num : BitVec 64) : ℕ → Out → Out
  | 0, o => o
  | i + 1, o =>
    let d := (num.sshiftRight (4 * i) &&& 0xF).toNat
    printHex n num i
      (o.put n (if d < 10 then UInt8.ofNat (48 + d) else UInt8.ofNat (97 + d - 10)))

/-- The loop of `%d` that counts the digits. -/
def digits (nn : ℕ) : ℕ := if nn / 10 = 0 then 1 else digits (nn / 10) + 1

/-- The loop of `%d` that stores the digits `i - 1`, …, `0`. -/
def storeDigits (n pos : ℕ) : ℕ → ℕ → Buf → Buf
  | 0, _, out => out
  | i + 1, num, out =>
    storeDigits n pos i (num / 10)
      (if pos + i + 1 < n then Function.update out (pos + i) (UInt8.ofNat (48 + num % 10)) else out)

/-- `%d`. The least `long` has no negative. -/
def printDec (n : ℕ) (num : BitVec 64) (o : Out) : Except Fault Out := do
  if num = BitVec.intMin 64 then
    throw (.undefined "-num")
  let o' := if num.toInt < 0 then o.put n '-'.toUInt8 else o
  let num' := num.toInt.natAbs
  return ⟨storeDigits n o'.pos (digits num') num' o'.out, o'.pos + digits num'⟩

/-- The loop of `%s`, for a string of less than `fuel` bytes. -/
def printStr (mem : Buf) (n : ℕ) : ℕ → ℕ → Out → Except Fault Out
  | 0, _, _ => throw .spin
  | fuel + 1, s2, o =>
    if mem s2 = 0 then return o else printStr mem n fuel (s2 + 1) (o.put n (mem s2))

/-- The variables of the pass over the format. -/
structure State where
  format : Bool
  longarg : Bool
  vl : List (BitVec 64)
  o : Out

/-- `case 'x'`. -/
def caseX (n : ℕ) (st : State) : Except Fault State := do
  let (a, vl) ← vaArg st.vl
  let o := printHex n (num st.longarg a) (2 * if st.longarg then 8 else 4) st.o
  return { format := false, longarg := false, vl, o }

/-- The `switch` over a byte behind a `%`. -/
def switch (mem : Buf) (fuel n : ℕ) (c : UInt8) (st : State) : Except Fault State := do
  if c = 'l'.toUInt8 then
    return { st with longarg := true }
  else if c = 'p'.toUInt8 then
    let o := (st.o.put n '0'.toUInt8).put n 'x'.toUInt8
    caseX n { st with longarg := true, o }
  else if c = 'x'.toUInt8 then
    caseX n st
  else if c = 'd'.toUInt8 then
    let (a, vl) ← vaArg st.vl
    let o ← printDec n (num st.longarg a) st.o
    return { format := false, longarg := false, vl, o }
  else if c = 's'.toUInt8 then
    let (s2, vl) ← vaArg st.vl
    let o ← printStr mem n fuel s2.toNat st.o
    return { format := false, longarg := false, vl, o }
  else if c = 'c'.toUInt8 then
    let (a, vl) ← vaArg st.vl
    return { format := false, longarg := false, vl, o := st.o.put n (UInt8.ofNat a.toNat) }
  else
    return st

/-- The pass over the bytes of the format. -/
def scan (mem : Buf) (fuel n : ℕ) : List UInt8 → State → Except Fault State
  | [], st => return st
  | c :: s, st => do
    if st.format then
      scan mem fuel n s (← switch mem fuel n c st)
    else if c = '%'.toUInt8 then
      scan mem fuel n s { st with format := true }
    else
      scan mem fuel n s { st with o := st.o.put n c }

/-- The letters that end a directive. -/
def letters : List UInt8 := ['p'.toUInt8, 'x'.toUInt8, 'd'.toUInt8, 's'.toUInt8, 'c'.toUInt8]

/-- A byte that is printed, or a directive. -/
inductive Piece
  | text (c : UInt8) (hc : c ≠ '%'.toUInt8)
  | directive (skipped : List UInt8) (c : UInt8) (hs : ∀ b ∈ skipped, b ∉ letters)
    (hc : c ∈ letters)

/-- The string at an address, of less than `fuel` bytes. -/
def readString (mem : Buf) : ℕ → ℕ → Except Fault (List UInt8)
  | 0, _ => throw .spin
  | fuel + 1, s =>
    if mem s = 0 then return [] else return mem s :: (← readString mem fuel (s + 1))

/-- The number in decimal digits, with its sign. -/
def decimal (v : ℤ) : List UInt8 :=
  (if v < 0 then ['-'.toUInt8] else []) ++ numeral 10 v.natAbs

/-- The text that a directive stands for. -/
def directiveText (mem : Buf) (fuel : ℕ) (long : Bool) (c : UInt8) (a : BitVec 64) :
    Except Fault (List UInt8) :=
  if c = 'p'.toUInt8 then return ['0'.toUInt8, 'x'.toUInt8] ++ padded 16 16 a.toNat
  else if c = 'x'.toUInt8 then
    return if long then padded 16 16 a.toNat else padded 8 16 (a.toNat % 2 ^ 32)
  else if c = 'd'.toUInt8 then
    if long ∧ a = BitVec.intMin 64 then throw (.undefined "-num")
    else return decimal (if long then a.toInt else (a.setWidth 32).toInt)
  else if c = 's'.toUInt8 then readString mem fuel a.toNat
  else return [UInt8.ofNat a.toNat]

/-- The text of the pieces. Each directive takes one argument. -/
def text (mem : Buf) (fuel : ℕ) : List Piece → List (BitVec 64) → Except Fault (List UInt8)
  | [], _ => return []
  | .text c _ :: ps, vl => return c :: (← text mem fuel ps vl)
  | .directive skipped c _ _ :: ps, vl => do
    let (a, vl) ← vaArg vl
    let r ← directiveText mem fuel ('l'.toUInt8 ∈ skipped) c a
    return r ++ (← text mem fuel ps vl)


/-! ## The pass over a text -/

variable {mem out : Buf} {fuel n i v pos : ℕ} {r : List UInt8} {c : UInt8} {a x : BitVec 64}
  {vl : List (BitVec 64)}

/-- The text `r` is printed. -/
def printed (n : ℕ) (out : Buf) (r : List UInt8) : Out := ⟨stored n r out, r.length⟩

end HustOS.Util.Snprintf
