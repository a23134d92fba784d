import HustOS.Foundations.DeviceTree
import HustOS.Kernel
import Mathlib.Data.BitVec
import Mathlib.Tactic.IntervalCases

/-!
# Scanning the device tree

`spike_interface/dts_parse.c`: `fdt_scan` walks over the structure block of a flattened device tree
and calls back for each node and property. The machine reads words with their lowest byte first, so
each word goes through `bswap` (`toNat_bswap_word`).

A node is visited in three steps: `open` when it begins, `prop` for each of its properties, and
`done` before its first child begins, or at its end. The scan of an encoded tree is these visits in
the order of the tree (`fdtScan_eq`), the cell counts being those that the code knows at the time
(`Items.visits`): they default to 2 and 1 only for the first child of a node, and each following
child starts with those of the one before.
-/

namespace HustOS.Boot

open Foundations Foundations.DeviceTree Buf

/-! ## Words -/

/-- `bswap`. -/
def bswap (x : BitVec 32) : BitVec 32 :=
  let y := (x &&& 0x00FF00FF) <<< 8 ||| (x &&& 0xFF00FF00) >>> 8
  (y &&& 0x0000FFFF) <<< 16 ||| (y &&& 0xFFFF0000) >>> 16

/-- The word at an address, as the machine loads it. -/
def word (mem : Buf) (lex : ℕ) : BitVec 32 := BitVec.ofNat 32 (mem.u32 lex)

/-- `strlen`, a loop over the bytes of the string. -/
def strlen (mem : Buf) : ℕ → ℕ → Except Fault ℕ
  | 0, _ => throw .spin
  | fuel + 1, s => if mem s = 0 then return 0 else return (← strlen mem fuel (s + 1)) + 1

/-! ## The scan -/

abbrev FDT_MAGIC : ℕ := 0xd00dfeed
abbrev FDT_VERSION : ℕ := 17

/-- `struct fdt_scan_node`: the address of the name and the cell counts. -/
structure FdtScanNode where
  name : ℕ
  addressCells : ℤ
  sizeCells : ℤ
  deriving DecidableEq

/-- A pointer to a node, with what `parent` leads to from there on; `[]` is `NULL`. -/
abbrev NodePtr : Type := List FdtScanNode

/-- `struct fdt_scan_prop`: the addresses of the name and the value, and the length. -/
structure FdtScanProp where
  node : NodePtr
  name : ℕ
  value : ℕ
  len : ℤ

/-- `struct fdt_cb`: the functions that are called back, and read the memory. -/
structure FdtCb (σ : Type) where
  cbOpen : Option (Buf → NodePtr → σ → Except Fault σ)
  cbProp : Buf → FdtScanProp → σ → Except Fault σ
  cbDone : Option (Buf → NodePtr → σ → Except Fault σ)
  cbClose : Option (Buf → NodePtr → σ → Except Fault (ℤ × σ))

/-- What `fdt_scan_helper` leaves: the memory, the address it returns, the node it was called for, and
what the callbacks keep. -/
structure Scanned (σ : Type) where
  mem : Buf
  lex : ℕ
  node : NodePtr
  extra : σ

/-- The local variables of `fdt_scan_helper`. -/
structure Scan (σ : Type) extends Scanned σ where
  child : FdtScanNode
  last : Bool

/-- `"#address-cells"`. -/
def addressCellsName : List UInt8 := "#address-cells".toUTF8.toList

/-- `"#size-cells"`. -/
def sizeCellsName : List UInt8 := "#size-cells".toUTF8.toList

/-- The default cell counts, as per the FDT spec. The name is set when a node begins. -/
def FdtScanNode.start : FdtScanNode := ⟨0, 2, 1⟩

/-- A property with the cell counts of its node changes them. -/
def NodePtr.setCells (isAddress isSize : Bool) (cells : ℤ) : NodePtr → NodePtr
  | [] => []
  | n :: above =>
    let n := if isAddress then { n with addressCells := cells } else n
    let n := if isSize then { n with sizeCells := cells } else n
    n :: above

/-- `while (lex != lex_next) *lex++ = bswap(FDT_NOP)`. -/
def eraseWords (mem : Buf) (lex lexNext : ℕ) : Buf :=
  mem.setWords lex (fun _ => (bswap (BitVec.ofNat 32 NOP)).toNat) ((lexNext - lex) / 4)

variable {σ : Type}

namespace FdtCb

/-- A callback that is `NULL` is not called. -/
def call (f : Option (Buf → NodePtr → σ → Except Fault σ)) (mem : Buf) (node : NodePtr)
    (extra : σ) : Except Fault σ :=
  match f with
  | none => return extra
  | some f => f mem node extra

/-- `if (!last && node && cb->done) cb->done(node, cb->extra)`. -/
def finish (cb : FdtCb σ) (s : Scan σ) : Except Fault σ :=
  if s.last ∨ s.node = [] then return s.extra else call cb.cbDone s.mem s.node s.extra

/-- A property at `lex`. -/
def scanProp (cb : FdtCb σ) (strings : ℕ) (s : Scan σ) : Except Fault (Scan σ) := do
  if s.last then throw (.assertion "!last")
  let name := strings + (bswap (word s.mem (s.lex + 8))).toNat
  let len := (bswap (word s.mem (s.lex + 4))).toInt
  let node := s.node.setCells (s.mem.strcmpEq name addressCellsName)
    (s.mem.strcmpEq name sizeCellsName) (bswap (word s.mem (s.lex + 12))).toInt
  let extra ← cb.cbProp s.mem ⟨node, name, s.lex + 12, len⟩ s.extra
  return { s with
    lex := ((s.lex : ℤ) + 4 * (3 + (len + 3).tdiv 4)).toNat
    node := node
    extra := extra }

/-- `fdt_scan_helper`. -/
def fdtScanHelper (cb : FdtCb σ) (strings : ℕ) : ℕ → Scan σ → Except Fault (Scanned σ)
  | 0, _ => throw .spin
  | fuel + 1, s => do
    let token := (bswap (word s.mem s.lex)).toNat
    if token = NOP then
      fdtScanHelper cb strings fuel { s with lex := s.lex + 4 }
    else if token = PROP then
      let s ← cb.scanProp strings s
      fdtScanHelper cb strings fuel s
    else if token = BEGIN_NODE then
      let extra ← cb.finish s
      let child := { s.child with name := s.lex + 4 }
      let extra ← call cb.cbOpen s.mem (child :: s.node) extra
      let n ← strlen s.mem fuel child.name
      let r ← fdtScanHelper cb strings fuel
        { s with
          lex := s.lex + 4 * (2 + n / 4)
          node := child :: s.node
          child := .start
          last := false
          extra := extra }
      let child := r.node.headD child
      let (ret, extra) ← match cb.cbClose with
        | none => pure (0, r.extra)
        | some f => f r.mem (child :: s.node) r.extra
      let mem := if ret = -1 then eraseWords r.mem s.lex r.lex else r.mem
      fdtScanHelper cb strings fuel
        { s with mem := mem, lex := r.lex, child := child, last := true, extra := extra }
    else if token = END_NODE then
      return { s.toScanned with lex := s.lex + 4, extra := ← cb.finish s }
    else
      return { s.toScanned with extra := ← cb.finish s }

/-- `fdt_scan`. -/
def fdtScan (cb : FdtCb σ) (fuel : ℕ) (mem : Buf) (fdt : ℕ) (extra : σ) : Except Fault σ := do
  let magic := (bswap (word mem fdt)).toNat
  let lastCompVersion := (bswap (word mem (fdt + 24))).toNat
  if magic ≠ FDT_MAGIC ∨ lastCompVersion > FDT_VERSION then return extra
  let strings := fdt + (bswap (word mem (fdt + 12))).toNat
  let lex := fdt + (bswap (word mem (fdt + 8))).toNat
  let r ← cb.fdtScanHelper strings fuel ⟨⟨mem, lex, [], extra⟩, .start, false⟩
  return r.extra

end FdtCb

/-- The loop of `fdt_get_address` and `fdt_get_size`: the address behind the cells, and their
value. -/
def getCells (mem : Buf) : ℕ → ℕ → BitVec 64 → ℕ × BitVec 64
  | 0, value, result => (value, result)
  | cells + 1, value, result =>
    getCells mem cells (value + 4) ((result <<< 32) + (bswap (word mem value)).setWidth 64)

/-- `fdt_get_address`. -/
def fdtGetAddress (mem : Buf) (node : FdtScanNode) (value : ℕ) : ℕ × BitVec 64 :=
  getCells mem node.addressCells.toNat value 0

/-- `fdt_get_size`. -/
def fdtGetSize (mem : Buf) (node : FdtScanNode) (value : ℕ) : ℕ × BitVec 64 :=
  getCells mem node.sizeCells.toNat value 0

/-! ## What is loaded -/

variable {mem : Buf} {off n : ℕ} {bs name value : List UInt8}

theorem bswap_append (a b c d : BitVec 8) : bswap (d ++ c ++ b ++ a) = a ++ b ++ c ++ d := by
  apply BitVec.eq_of_getLsbD_eq
  intro i hi
  simp only [bswap, BitVec.getLsbD_or, BitVec.getLsbD_and, BitVec.getLsbD_shiftLeft,
    BitVec.getLsbD_ushiftRight, BitVec.getLsbD_append]
  interval_cases i <;> simp

theorem toNat_append_byte {w : ℕ} (x : BitVec w) (a : BitVec 8) :
    (x ++ a).toNat = x.toNat * 256 + a.toNat := by
  rw [BitVec.toNat_append, ← Nat.shiftLeft_add_eq_or_of_lt a.isLt, Nat.shiftLeft_eq]

theorem word_eq (mem : Buf) (lex : ℕ) : word mem lex =
    (mem (lex + 3)).toBitVec ++ (mem (lex + 2)).toBitVec ++ (mem (lex + 1)).toBitVec ++
      (mem lex).toBitVec := by
  apply BitVec.eq_of_toNat_eq
  rw [word, BitVec.toNat_ofNat, Nat.mod_eq_of_lt (u32_lt mem lex), toNat_append_byte,
    toNat_append_byte, toNat_append_byte, u32]
  simp only [UInt8.toNat_toBitVec]
  ring

/-- The words of the tree are big-endian. -/
theorem toNat_bswap_word (mem : Buf) (lex : ℕ) : (bswap (word mem lex)).toNat = be32 mem lex := by
  rw [word_eq, bswap_append, toNat_append_byte, toNat_append_byte, toNat_append_byte, be32]
  simp only [UInt8.toNat_toBitVec]
  ring

theorem strlen_eq {fuel : ℕ} (h0 : (0 : UInt8) ∉ bs) (hat : At mem off (bs ++ [0]))
    (hfuel : bs.length < fuel) : strlen mem fuel off = .ok bs.length := by
  induction bs generalizing off fuel with
  | nil =>
    obtain ⟨fuel, rfl⟩ : ∃ n, fuel = n + 1 := ⟨fuel - 1, by simp at hfuel; omega⟩
    rw [strlen, if_pos hat.1]
    rfl
  | cons c bs ih =>
    obtain ⟨fuel, rfl⟩ : ∃ n, fuel = n + 1 := ⟨fuel - 1, by simp at hfuel; omega⟩
    obtain ⟨hc, hrest⟩ := hat
    rw [List.mem_cons, not_or] at h0
    rw [strlen, hc, if_neg (Ne.symm h0.1), ih h0.2 hrest (by simpa using hfuel)]
    rfl

/-- Comparing the name of a property with another name compares the names. -/
theorem strcmpEq_of_at {s : List UInt8} (h0 : (0 : UInt8) ∉ bs) (hs : (0 : UInt8) ∉ s)
    (hat : At mem off (bs ++ [0])) : mem.strcmpEq off s = decide (bs = s) := by
  rw [Bool.eq_iff_iff, decide_eq_true_eq,
    strcmpEq_iff (n := bs.length + s.length + 1) hs (by omega), cstr_of_at h0 hat (by omega)]

/-! ## Trees -/

/-- A property in the block, with the address of its value. -/
structure Located where
  name : List UInt8
  value : List UInt8
  addr : ℕ

/-- The property changes the cell counts of its node. -/
def Located.setCells (p : Located) (node : NodePtr) : NodePtr :=
  node.setCells (p.name = addressCellsName) (p.name = sizeCellsName)
    (BitVec.ofNat 32 (beNat (p.value.take 4))).toInt

/-- The properties before the first child, where the items stand at `lex`. -/
def ownProps : Items → ℕ → List Located
  | .nil, _ => []
  | .nop rest, lex => ownProps rest (lex + 4)
  | .prop name value rest, lex =>
    ⟨name, value, lex + 12⟩ :: ownProps rest (lex + 12 + padded value.length)
  | .node _ _ _, _ => []

/-- A visit of a node: the nodes above it, the node as it is opened, and its properties. -/
structure Visit where
  above : NodePtr
  opened : FdtScanNode
  props : List Located

/-- The node behind its properties. -/
def Visit.node (v : Visit) : NodePtr :=
  v.props.foldl (fun node p => p.setCells node) (v.opened :: v.above)

/-- The nodes of the items in the order of the block: a node comes before those that it holds. The
first child of a node starts with the default cell counts, and each other one with those that the
child before it ended with. -/
def visits : Items → ℕ → NodePtr → FdtScanNode → List Visit
  | .nil, _, _, _ => []
  | .nop rest, lex, node, child => visits rest (lex + 4) node child
  | .prop _ value rest, lex, node, child => visits rest (lex + 12 + padded value.length) node child
  | .node name body rest, lex, node, child =>
    let inner := lex + 4 + padded (name.length + 1)
    let v : Visit := ⟨node, { child with name := lex + 4 }, ownProps body inner⟩
    v :: (visits body inner v.node .start ++
      visits rest (inner + body.size + 4) node (v.node.headD v.opened))

/-- The steps of the scan: the items, and the characters of the names of nodes. -/
def steps : Items → ℕ
  | .nil => 1
  | .nop rest => steps rest + 1
  | .prop _ _ rest => steps rest + 1
  | .node name body rest => steps body + steps rest + name.length + 1

theorem one_le_steps (items : Items) : 1 ≤ steps items := by
  cases items <;> simp [steps]

namespace FdtCb

/-- The callbacks for properties, where `nameAddr` gives the addresses of their names. -/
def runProps (cb : FdtCb σ) (mem : Buf) (nameAddr : List UInt8 → ℕ) :
    List Located → NodePtr → σ → Except Fault σ
  | [], _, extra => return extra
  | p :: props, node, extra => do
    let extra ← cb.cbProp mem ⟨p.setCells node, nameAddr p.name, p.addr, p.value.length⟩ extra
    runProps cb mem nameAddr props (p.setCells node) extra

/-- The callbacks for a node: `open`, its properties, `done`. -/
def visit (cb : FdtCb σ) (mem : Buf) (nameAddr : List UInt8 → ℕ) (extra : σ) (v : Visit) :
    Except Fault σ := do
  let extra ← call cb.cbOpen mem (v.opened :: v.above) extra
  let extra ← cb.runProps mem nameAddr v.props (v.opened :: v.above) extra
  call cb.cbDone mem v.node extra

end FdtCb

/-- The block of strings has the name of the property at `nameoff`, its length is an `int`, and a
property with a cell count has a word as its value. -/
structure Stored (mem : Buf) (strings : ℕ) (nameoff : List UInt8 → ℕ) (name value : List UInt8) :
    Prop where
  no_zero : (0 : UInt8) ∉ name
  at_name : At mem (strings + nameoff name) (name ++ [0])
  nameoff_lt : nameoff name < 2 ^ 32
  length : value.length < 2 ^ 31
  cells : name = addressCellsName ∨ name = sizeCellsName → 4 ≤ value.length

instance (mem : Buf) (strings : ℕ) (nameoff : List UInt8 → ℕ) (name value : List UInt8) :
    Decidable (Stored mem strings nameoff name value) :=
  decidable_of_iff ((0 : UInt8) ∉ name ∧ At mem (strings + nameoff name) (name ++ [0]) ∧
    nameoff name < 2 ^ 32 ∧ value.length < 2 ^ 31 ∧
    (name = addressCellsName ∨ name = sizeCellsName → 4 ≤ value.length))
    ⟨fun h => ⟨h.1, h.2.1, h.2.2.1, h.2.2.2.1, h.2.2.2.2⟩, fun h => ⟨h.1, h.2, h.3, h.4, h.5⟩⟩

section Scan

variable {cb : FdtCb σ} {strings fuel tok : ℕ} {nameoff : List UInt8 → ℕ} {s : Scan σ}
  {items body rest : Items}

theorem token_eq {l : List UInt8} (hat : At mem off (beWord n ++ l)) (hn : n < 2 ^ 32) :
    (bswap (word mem off)).toNat = n := by
  rw [toNat_bswap_word, be32_of_at (at_append.1 hat).1 hn]

/-- Behind a property stand the other items. -/
theorem at_prop {l : List UInt8}
    (hat : At mem off ((Items.prop name value rest).encode nameoff ++ l)) :
    At mem (off + 12 + padded value.length) (rest.encode nameoff ++ l) := by
  simp only [Items.encode, List.append_assoc, at_append, length_beWord, length_pad] at hat ⊢
  exact hat.2.2.2.2

/-- Behind the beginning of a node stand its name, what it holds up to its end, and the other
items. -/
theorem at_node {l : List UInt8}
    (hat : At mem off ((Items.node name body rest).encode nameoff ++ l)) :
    At mem (off + 4) (name ++ [0]) ∧
      At mem (off + 4 + padded (name.length + 1)) (body.encode nameoff ++ beWord END_NODE) ∧
      At mem (off + 4 + padded (name.length + 1) + body.size + 4) (rest.encode nameoff ++ l) := by
  have hname : (pad (name ++ [0])).length = padded (name.length + 1) := by simp
  simp only [Items.encode, List.append_assoc, at_append, hname, length_beWord,
    Items.length_encode] at hat ⊢
  obtain ⟨-, hpad, hbody, hend, hrest⟩ := hat
  rw [pad] at hpad
  exact ⟨at_append.1 (at_append.1 hpad).1, ⟨hbody, hend⟩, hrest⟩

theorem setCells_false (node : NodePtr) (cells : ℤ) : node.setCells false false cells = node := by
  cases node <;> simp [NodePtr.setCells]

theorem foldl_setCells_ne_nil (props : List Located) {node : NodePtr} (h : node ≠ []) :
    props.foldl (fun node p => p.setCells node) node ≠ [] := by
  induction props generalizing node with
  | nil => exact h
  | cons p props ih =>
    refine ih ?_
    cases node with
    | nil => exact absurd rfl h
    | cons n above => exact List.cons_ne_nil _ _

/-- Cell counts are read as the first word of the value. -/
theorem setCells_stored (h : Stored mem strings nameoff name value) (hat : At mem off value)
    (node : NodePtr) :
    node.setCells (mem.strcmpEq (strings + nameoff name) addressCellsName)
      (mem.strcmpEq (strings + nameoff name) sizeCellsName) (bswap (word mem off)).toInt =
      Located.setCells ⟨name, value, off⟩ node := by
  rw [strcmpEq_of_at h.no_zero (by decide +kernel) h.at_name,
    strcmpEq_of_at h.no_zero (by decide +kernel) h.at_name, Located.setCells]
  by_cases hcells : name = addressCellsName ∨ name = sizeCellsName
  · have hbe := be32_eq_beNat hat (h.cells hcells)
    rw [← toNat_bswap_word] at hbe
    rw [← hbe, BitVec.ofNat_toNat, BitVec.setWidth_eq]
  · rw [not_or] at hcells
    simp [hcells.1, hcells.2, setCells_false]

/-- **A property** is called back with its name, its value and its length. -/
theorem scanProp_eq (hlast : s.last = false) (hs : Stored s.mem strings nameoff name value)
    (hat : At s.mem s.lex ((Items.prop name value rest).encode nameoff)) :
    cb.scanProp strings s = (do
      let p : Located := ⟨name, value, s.lex + 12⟩
      let extra ← cb.cbProp s.mem
        ⟨p.setCells s.node, strings + nameoff name, p.addr, value.length⟩ s.extra
      return { s with
        lex := s.lex + 12 + padded value.length
        node := p.setCells s.node
        extra := extra }) := by
  obtain ⟨-, hat⟩ := at_append.1 hat
  obtain ⟨hlen, hat⟩ := at_append.1 hat
  obtain ⟨hname, hat⟩ := at_append.1 hat
  change At s.mem (s.lex + 4) _ at hlen
  change At s.mem (s.lex + 8) _ at hname
  have hvalue : At s.mem (s.lex + 12) value := (at_append.1 (at_append.1 hat).1).1
  have hb := hs.length
  have hl : (bswap (word s.mem (s.lex + 4))).toInt = value.length := by
    have := toNat_bswap_word s.mem (s.lex + 4)
    rw [be32_of_at hlen (by omega)] at this
    rw [BitVec.toInt_eq_toNat_of_lt (by omega), this]
  have hn : (bswap (word s.mem (s.lex + 8))).toNat = nameoff name := by
    rw [toNat_bswap_word, be32_of_at hname hs.nameoff_lt]
  have hlex : ((s.lex : ℤ) + 4 * (3 + ((value.length : ℤ) + 3).tdiv 4)).toNat =
      s.lex + 12 + padded value.length := by
    rw [padded, Int.tdiv_eq_ediv_of_nonneg (by omega)]
    omega
  simp only [FdtCb.scanProp, hlast, hn, hl, hlex, setCells_stored hs hvalue, Bool.false_eq_true,
    if_false, pure_eq_ok]

/-- The calls for a part of the block that stands inside the node of `s`. -/
def FdtCb.runItems (cb : FdtCb σ) (mem : Buf) (nameAddr : List UInt8 → ℕ) (items : Items)
    (s : Scan σ) : Except Fault (NodePtr × σ) := do
  let props := ownProps items s.lex
  let node := props.foldl (fun node p => p.setCells node) s.node
  let extra ← cb.runProps mem nameAddr props s.node s.extra
  let extra ← cb.finish { s with node := node, extra := extra }
  let extra ← (visits items s.lex node s.child).foldlM (cb.visit mem nameAddr) extra
  return (node, extra)

theorem ownProps_noProps (h : items.NoProps) (lex : ℕ) : ownProps items lex = [] := by
  induction items generalizing lex with
  | nil => rfl
  | nop rest ih => exact ih h _
  | prop _ _ rest => exact absurd h id
  | node _ body rest => rfl

/-- Behind the first child there are only visits. -/
theorem runItems_noProps {nameAddr : List UInt8 → ℕ} (hlast : s.last = true) (h : items.NoProps) :
    cb.runItems mem nameAddr items s = (do
      let extra ← (visits items s.lex s.node s.child).foldlM (cb.visit mem nameAddr) s.extra
      return (s.node, extra)) := by
  simp only [FdtCb.runItems, ownProps_noProps h, FdtCb.runProps, FdtCb.finish, hlast,
    List.foldl_nil, pure_bind, true_or, if_true]

/-- **The scan of encoded items** makes the calls of their tree, and returns behind their end. -/
theorem fdtScanHelper_eq (hclose : cb.cbClose = none) (htok : tok = END_NODE ∨ tok = END) :
    steps items ≤ fuel → (s.last = true → items.NoProps) →
    items.WellFormed (Stored s.mem strings nameoff) →
    At s.mem s.lex (items.encode nameoff ++ beWord tok) →
    cb.fdtScanHelper strings fuel s = (do
      let (node, extra) ← cb.runItems s.mem (fun name => strings + nameoff name) items s
      return ⟨s.mem, s.lex + items.size + (if tok = END_NODE then 4 else 0), node, extra⟩) := by
  intro hfuel hlast hwf hat
  induction items generalizing fuel s tok with
  | nil =>
    obtain ⟨fuel, rfl⟩ : ∃ k, fuel = k + 1 := ⟨fuel - 1, by simp only [steps] at hfuel; omega⟩
    have htoken : (bswap (word s.mem s.lex)).toNat = tok := by
      rw [toNat_bswap_word, be32_of_at hat (by rcases htok with rfl | rfl <;> decide)]
    rw [FdtCb.fdtScanHelper, htoken]
    rcases htok with rfl | rfl <;>
      simp [FdtCb.runItems, ownProps, visits, FdtCb.runProps, Items.size]
  | nop rest ih =>
    obtain ⟨fuel, rfl⟩ : ∃ k, fuel = k + 1 := ⟨fuel - 1, by simp only [steps] at hfuel; omega⟩
    rw [Items.encode, List.append_assoc] at hat
    have hrest := ih (s := { s with lex := s.lex + 4 }) htok
      (by simpa only [steps, Nat.add_le_add_iff_right] using hfuel) hlast hwf (at_append.1 hat).2
    rw [FdtCb.fdtScanHelper, token_eq hat (by decide), if_pos rfl, hrest, Items.size,
      ← Nat.add_assoc]
    rfl
  | prop name value rest ih =>
    obtain ⟨fuel, rfl⟩ : ∃ k, fuel = k + 1 := ⟨fuel - 1, by simp only [steps] at hfuel; omega⟩
    have hfalse : s.last = false := by
      by_contra hne
      exact hlast (by simpa using hne)
    have htoken := hat
    rw [Items.encode, List.append_assoc] at htoken
    rw [FdtCb.fdtScanHelper, token_eq htoken (by decide), if_neg (by decide), if_pos rfl,
      scanProp_eq hfalse hwf.1 (at_append.1 hat).1]
    have hsteps : steps rest ≤ fuel := by simpa only [steps, Nat.add_le_add_iff_right] using hfuel
    have hrest := fun node extra => ih (s := { s with
        lex := s.lex + 12 + padded value.length, node := node, extra := extra }) htok
      hsteps (by simp [hfalse]) hwf.2 (at_prop hat)
    simp only [FdtCb.runItems, ownProps, FdtCb.runProps, visits, List.foldl_cons, bind_assoc,
      pure_bind]
    refine bind_congr fun extra => ?_
    rw [hrest]
    simp only [FdtCb.runItems, Items.size, bind_assoc, pure_bind, ← Nat.add_assoc]
    rfl
  | node name body rest ihb ih =>
    obtain ⟨fuel, rfl⟩ : ∃ k, fuel = k + 1 := ⟨fuel - 1, by simp only [steps] at hfuel; omega⟩
    simp only [steps] at hfuel
    obtain ⟨hzero, hbody, hno, hrest⟩ := hwf
    obtain ⟨hname, hatb, hatr⟩ := at_node hat
    have htoken := hat
    rw [Items.encode, List.append_assoc] at htoken
    rw [FdtCb.fdtScanHelper, token_eq htoken (by decide), if_neg (by decide), if_neg (by decide),
      if_pos rfl]
    have hlex : s.lex + 4 * (2 + name.length / 4) = s.lex + 4 + padded (name.length + 1) := by
      rw [padded]
      omega
    have hinner := fun child extra => ihb
      (s := ⟨⟨s.mem, s.lex + 4 + padded (name.length + 1), child :: s.node, extra⟩, .start, false⟩)
      (.inl rfl) (by omega : steps body ≤ fuel) (by simp) hbody hatb
    have houter := fun child extra => ih
      (s := ⟨⟨s.mem, s.lex + 4 + padded (name.length + 1) + body.size + 4, s.node, extra⟩, child,
        true⟩) htok (by omega : steps rest ≤ fuel) (fun _ => hno) hrest hatr
    have hpos := one_le_steps body
    have hlen := strlen_eq hzero hname (by omega : name.length < fuel)
    simp only [FdtCb.runItems, ownProps, FdtCb.runProps, visits, List.foldl_nil, pure_bind,
      bind_assoc, hclose, hlen, ok_bind, hlex, List.foldlM_cons, List.foldlM_append, FdtCb.visit]
    refine bind_congr fun extra => bind_congr fun extra => ?_
    rw [hinner]
    simp only [FdtCb.runItems, bind_assoc, pure_bind]
    refine bind_congr fun extra => ?_
    rw [FdtCb.finish, if_neg (by simp [foldl_setCells_ne_nil])]
    refine bind_congr fun extra => bind_congr fun extra => ?_
    rw [if_neg (by decide), if_pos trivial]
    refine (houter _ extra).trans ?_
    rw [runItems_noProps rfl hno]
    simp only [bind_assoc, pure_bind, Items.size, ← Nat.add_assoc]
    rfl

end Scan

/-- A device tree at an address: a header that the code understands, the block of the items behind
`off_dt_struct`, and the names of their properties behind `off_dt_strings`. -/
structure Blob (mem : Buf) (fdt : ℕ) (nameoff : List UInt8 → ℕ) (items : Items) : Prop where
  magic : be32 mem fdt = FDT_MAGIC
  version : be32 mem (fdt + 24) ≤ FDT_VERSION
  block : At mem (fdt + be32 mem (fdt + 8)) (items.encode nameoff ++ beWord END)
  stored : items.WellFormed (Stored mem (fdt + be32 mem (fdt + 12)) nameoff)
  noProps : items.NoProps

/-- The visits of a device tree. -/
def fdtVisits (mem : Buf) (fdt : ℕ) (items : Items) : List Visit :=
  visits items (fdt + be32 mem (fdt + 8)) [] .start

/-- The name and the value of a property stand in the memory. -/
structure Located.Holds (mem : Buf) (strings : ℕ) (nameoff : List UInt8 → ℕ) (p : Located) :
    Prop where
  stored : Stored mem strings nameoff p.name p.value
  at_value : At mem p.addr p.value
  addr_pos : 0 < p.addr

section Holds

variable {strings lex : ℕ} {nameoff : List UInt8 → ℕ} {items body rest : Items} {l : List UInt8}

/-- Behind a token that is skipped stand the other items. -/
theorem at_nop (hat : At mem off ((Items.nop rest).encode nameoff ++ l)) :
    At mem (off + 4) (rest.encode nameoff ++ l) := by
  rw [Items.encode, List.append_assoc] at hat
  exact (at_append.1 hat).2

theorem holds_ownProps (hwf : items.WellFormed (Stored mem strings nameoff))
    (hat : At mem lex (items.encode nameoff ++ l)) :
    ∀ p ∈ ownProps items lex, p.Holds mem strings nameoff := by
  induction items generalizing lex with
  | nil => simp [ownProps]
  | nop rest ih => exact ih hwf (at_nop hat)
  | prop name value rest ih =>
    intro p hp
    rcases List.mem_cons.1 hp with rfl | hp
    · have hvalue := hat
      simp only [Items.encode, List.append_assoc, at_append, length_beWord] at hvalue
      refine ⟨hwf.1, ?_, Nat.succ_pos _⟩
      have hpad := hvalue.2.2.2.1
      rw [pad] at hpad
      exact (at_append.1 hpad).1
    · exact ih hwf.2 (at_prop hat) p hp
  | node name body rest => simp [ownProps]

/-- The properties of all nodes stand in the memory. -/
theorem holds_visits {node : NodePtr} {child : FdtScanNode}
    (hwf : items.WellFormed (Stored mem strings nameoff))
    (hat : At mem lex (items.encode nameoff ++ l)) :
    ∀ v ∈ visits items lex node child, ∀ p ∈ v.props, p.Holds mem strings nameoff := by
  induction items generalizing lex node child l with
  | nil => simp [visits]
  | nop rest ih => exact ih hwf (at_nop hat)
  | prop name value rest ih => exact ih hwf.2 (at_prop hat)
  | node name body rest ihb ih =>
    obtain ⟨-, hbody, -, hrest⟩ := hwf
    obtain ⟨-, hatb, hatr⟩ := at_node hat
    intro v hv
    rcases List.mem_cons.1 hv with rfl | hv
    · exact holds_ownProps hbody hatb
    rcases List.mem_append.1 hv with hv | hv
    · exact ihb hbody hatb v hv
    · exact ih hrest hatr v hv

end Holds

/-- **`fdt_scan`** visits the nodes of the tree in the order in which they begin. -/
theorem fdtScan_eq {cb : FdtCb σ} {fdt fuel : ℕ} {nameoff : List UInt8 → ℕ} {items : Items}
    (h : Blob mem fdt nameoff items) (hclose : cb.cbClose = none) (hfuel : steps items ≤ fuel)
    (extra : σ) : cb.fdtScan fuel mem fdt extra = (fdtVisits mem fdt items).foldlM
      (cb.visit mem fun name => fdt + be32 mem (fdt + 12) + nameoff name) extra := by
  have hscan := fdtScanHelper_eq
    (s := ⟨⟨mem, fdt + be32 mem (fdt + 8), [], extra⟩, .start, false⟩) hclose (.inr rfl) hfuel
    (fun _ => h.noProps) h.stored h.block
  have hheader : ¬ (be32 mem fdt ≠ FDT_MAGIC ∨ be32 mem (fdt + 24) > FDT_VERSION) := by
    rw [not_or, not_not, not_lt]
    exact ⟨h.magic, h.version⟩
  simp only [FdtCb.fdtScan, toNat_bswap_word, hheader, if_false, hscan, FdtCb.runItems,
    ownProps_noProps h.noProps, FdtCb.runProps, FdtCb.finish, List.foldl_nil, or_true, if_true,
    bind_assoc, pure_bind]
  exact bind_pure _

/-! ## A small tree -/

/-- The names of the properties, one behind the other. -/
def smallNames : List UInt8 :=
  "#address-cells\x00#size-cells\x00device_type\x00reg\x00compatible\x00".toUTF8.toList

/-- The place of a name in the block of strings. -/
def smallNameoff (name : List UInt8) : ℕ :=
  if name = addressCellsName then 0 else if name = sizeCellsName then 15
  else if name.length = 11 then 27 else if name.length = 3 then 39 else 43

/-- A tree with 128 MB of memory from `0x80000000` on and the host interface. -/
def smallTree : Items :=
  .node [] (.prop addressCellsName (beWord 2) <| .prop sizeCellsName (beWord 2) <|
    .node "memory@80000000".toUTF8.toList
      (.prop "device_type".toUTF8.toList "memory\x00".toUTF8.toList <|
        .prop "reg".toUTF8.toList (beWord 0 ++ beWord 0x80000000 ++ beWord 0 ++ beWord 0x8000000)
        .nil) <|
    .nop <| .node "htif".toUTF8.toList
      (.prop "compatible".toUTF8.toList "ucb,htif0\x00".toUTF8.toList .nil) .nil) .nil

/-- The tree with its header at the address zero. -/
def smallBlob : Buf :=
  let block := smallTree.encode smallNameoff ++ beWord END
  let bytes := beWord FDT_MAGIC ++ beWord (40 + block.length + smallNames.length) ++ beWord 40 ++
    beWord (40 + block.length) ++ beWord 0 ++ beWord 17 ++ beWord 16 ++ beWord 0 ++
    beWord smallNames.length ++ beWord block.length ++ block ++ smallNames
  fun i => bytes.getD i 0

theorem blob_small : Blob smallBlob 0 smallNameoff smallTree := by
  constructor <;> decide +kernel

/-- Callbacks that count the nodes and the properties. -/
def countCb : FdtCb (ℕ × ℕ) :=
  ⟨some fun _ _ n => .ok (n.1 + 1, n.2), fun _ _ n => .ok (n.1, n.2 + 1), none, none⟩

example : countCb.fdtScan 100 smallBlob 0 (0, 0) = .ok (3, 5) := by decide +kernel

end HustOS.Boot
