import HustOS.Elf.File
import HustOS.Elf.Leb128
import HustOS.Foundations.Dwarf

/-!
# Building the line table

`make_addr_line` of `kernel/elf.c`: the interpreter of the `.debug_line` section, over the bytes of
`debug_line`. The tables behind the section (`dir`, `file`, `line`) are lists, of which the first
two have room for 64 entries. Loops that end at a byte of the section take the number of rounds that
they may go as fuel.

The table is that of the format, without all but the last of consecutive rows with one address
(`makeAddrLine_rows`), if each unit is one sequence of instructions that the code reads as the
format says (`Plain`). It does not skip the opcodes 10 to 12, which go to the case of the special
ones, nor the operands of extended opcodes that it does not know, and it takes what follows the end
of a sequence for the next unit.
-/

namespace HustOS.Elf

open Foundations Foundations.Dwarf

/-! ## The tables -/

/-- `addr_line`. -/
abbrev AddrLine : Type := Row

/-- `code_file`: where the name is, and the index of the directory. -/
structure CodeFile where
  file : ℕ
  dir : BitVec 64
  deriving DecidableEq

/-- `dir`, `file` and `line` of the process; a directory is where its name is. -/
structure LineTable where
  dir : List ℕ
  file : List CodeFile
  line : List AddrLine
  deriving DecidableEq

/-- The fields of `debug_header` that are used. -/
structure DebugHeader where
  minInstructionLength : ℕ
  lineBase : ℤ
  lineRange : ℕ
  opcodeBase : ℕ

/-- The header at an offset. -/
def DebugHeader.at (mem : Buf) (off : ℕ) : DebugHeader where
  minInstructionLength := (mem (off + 10)).toNat
  lineBase := (mem (off + 12)).toBitVec.toInt
  lineRange := (mem (off + 13)).toNat
  opcodeBase := (mem (off + 14)).toNat

variable {mem : Buf} {off k fuel base : ℕ} {regs : AddrLine} {line : List AddrLine}
  {dh : DebugHeader}
  {p : Params} {i : Instr} {e : Extended} {name : List UInt8} {u : LineUnit}

/-! ## One instruction -/

/-- The name stands at the place, with its zero byte. -/
def NameAt (mem : Buf) (off : ℕ) (name : List UInt8) : Prop := mem.At off (name ++ [0])

/-- The first byte of a name. -/
theorem NameAt.ne_zero (h : NameAt mem off name) (hne : name ≠ []) (h0 : (0 : UInt8) ∉ name) :
    mem off ≠ 0 := by
  cases name with
  | nil => exact absurd rfl hne
  | cons b name =>
    rw [h.1]
    exact fun he => h0 (he ▸ List.mem_cons_self ..)

/-- A file of the table is a file of a unit, behind `dirBase` directories of other units. -/
def FileAt (mem : Buf) (dirBase : ℕ) (c : CodeFile) (e : FileEntry) : Prop :=
  NameAt mem c.file e.name ∧ c.dir = BitVec.ofNat 64 (uleb e.dir) - 1 + BitVec.ofNat 64 dirBase

/-- The end of a sequence. -/
def endSequence : Instr := .extended [1] .endSequence

/-- The start address of a sequence. -/
def setAddress (addr : BitVec 64) : Instr := .extended [9] (.setAddress addr)

end HustOS.Elf
