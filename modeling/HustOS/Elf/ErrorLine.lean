import HustOS.Elf.LineTable

/-!
# The line of a fault

`handle_mtrap` of `kernel/machine/mtrap.c` for an illegal instruction, up to the report of the line:
a row of the line table with exactly the address of the instruction is searched, up to an entry with
address 0, and the names of its file and of the directory of that are copied.

A row stands for all instructions up to the next one, but an address between two rows is not found,
so the report is made from the entry that stops the search (`handleMtrap_iff`).
-/

namespace HustOS.Elf

open Foundations Foundations.Dwarf

/-! ## The report -/

/-- A 64-bit number as an `int`. -/
def toInt32 (x : BitVec 64) : ℤ := (x.setWidth 32).toInt

/-- An entry of an array; there are no others. -/
def entryAt {α : Type} (l : List α) (i : ℤ) (what : String) : Except Fault α :=
  if i < 0 then throw (.undefined what)
  else match l[i.toNat]? with
    | none => throw (.undefined what)
    | some a => return a

/-- The row with the greatest address up to `pc`. -/
def NearestRow (l : List AddrLine) (pc : BitVec 64) (r : AddrLine) : Prop :=
  r ∈ l ∧ r.addr ≤ pc ∧ ∀ r' ∈ l, r'.addr ≤ pc → r'.addr ≤ r.addr

/-- The addresses of the rows increase. -/
def Increasing (l : List AddrLine) : Prop := l.Pairwise fun r r' => r.addr < r'.addr

/-- The names of file `file` of the table and of its directory. -/
def Names (mem : Buf) (t : LineTable) (file : BitVec 64) (d n : List UInt8) : Prop :=
  ∃ c o, t.file[file.toNat]? = some c ∧ 0 ≤ toInt32 c.dir ∧ t.dir[(toInt32 c.dir).toNat]? = some o ∧
    (NameAt mem o d ∧ (0 : UInt8) ∉ d) ∧ NameAt mem c.file n ∧ (0 : UInt8) ∉ n

/-- Whether an entry ends the search. -/
def stops (pc : BitVec 64) (r : AddrLine) : Bool := decide (r.addr = 0 ∨ r.addr = pc)

/-- An instruction at which a row starts, in a table without the address 0. -/
def StartsRow (t : LineTable) (pc : BitVec 64) : Prop :=
  (∃ r ∈ t.line, r.addr = pc) ∧ ∀ r ∈ t.line, r.addr ≠ 0

variable {mem : Buf} {t : LineTable} {behind l : List AddrLine} {pc file : BitVec 64}
  {r r' z : AddrLine} {off n : ℕ} {s : List UInt8} {line1 : ℤ} {rep : Report}

/-! ## Its parts -/

/-- A string of a buffer, with its end. -/
theorem nameAt_iff : (NameAt mem off s ∧ (0 : UInt8) ∉ s) ∧ s.length < n ↔
    mem.cstr n off = s ∧ s.length < n := by
  induction s generalizing off n with
  | nil =>
    cases n with
    | zero => simp
    | succ n =>
      rw [NameAt, Buf.cstr]
      split
      · rename_i h
        simp [h]
      · rename_i h
        simp [h]
  | cons b s ih =>
    cases n with
    | zero => simp
    | succ n =>
      have hiff : (NameAt mem (off + 1) s ∧ (0 : UInt8) ∉ s) ∧ s.length < n ↔
          mem.cstr n (off + 1) = s ∧ s.length < n := ih
      rw [NameAt] at hiff
      rw [NameAt, Buf.cstr, List.cons_append, Buf.at_cons, List.mem_cons, not_or,
        List.length_cons, Nat.succ_lt_succ_iff]
      split
      · rename_i h
        simp only [h, reduceCtorEq, false_and, iff_false]
        exact fun hh => hh.1.2.1 hh.1.1.1
      · rename_i h
        rw [List.cons.injEq]
        constructor
        · rintro ⟨⟨⟨hb, hat⟩, -, h0⟩, hlen⟩
          exact ⟨⟨hb, (hiff.1 ⟨⟨hat, h0⟩, hlen⟩).1⟩, hlen⟩
        · rintro ⟨⟨hb, hs⟩, hlen⟩
          obtain ⟨⟨hat, h0⟩, -⟩ := hiff.2 ⟨hs, hlen⟩
          exact ⟨⟨⟨hb, hat⟩, fun he => h (hb.trans he.symm), h0⟩, hlen⟩

/-- Different rows have different addresses. -/
theorem Increasing.eq (h : Increasing l) (hr : r ∈ l) (hr' : r' ∈ l) (he : r.addr = r'.addr) :
    r = r' := by
  have hnd : (l.map Row.addr).Nodup := List.pairwise_map.2 (h.imp fun hlt => BitVec.ne_of_lt hlt)
  exact List.inj_on_of_nodup_map hnd hr hr' he

/-- Names are told by what is in memory. -/
theorem Names.unique {d n d' n' : List UInt8} (h : Names mem t file d n) (hlen : d.length < 1000)
    (hlen' : n.length < 1000) (h' : Names mem t file d' n') (hd' : d'.length < 1000)
    (hn' : n'.length < 1000) : d = d' ∧ n = n' := by
  obtain ⟨c, o, hc, -, ho, hd, hn⟩ := h
  obtain ⟨c', o', hc', -, ho', hd₁, hn₁⟩ := h'
  obtain rfl := Option.some.inj (hc.symm.trans hc')
  obtain rfl := Option.some.inj (ho.symm.trans ho')
  constructor
  · exact (nameAt_iff.1 ⟨hd, hlen⟩).1.symm.trans (nameAt_iff.1 ⟨hd₁, hd'⟩).1
  · exact (nameAt_iff.1 ⟨hn, hlen'⟩).1.symm.trans (nameAt_iff.1 ⟨hn₁, hn'⟩).1

/-- **An instruction at which a row starts** is found. -/
theorem StartsRow.find? (h : StartsRow t pc) (hinc : Increasing t.line) (hr : r ∈ t.line)
    (hpc : r.addr = pc) : (t.line ++ behind).find? (stops pc) = some r := by
  have hsome : (t.line.find? (stops pc)).isSome = true := by
    rw [List.find?_isSome]
    exact ⟨r, hr, decide_eq_true (.inr hpc)⟩
  obtain ⟨z, hz⟩ := Option.isSome_iff_exists.1 hsome
  have hmem : z ∈ t.line := List.mem_of_find?_eq_some hz
  have hstop : stops pc z = true := List.find?_some hz
  have hzpc : z.addr = pc := (of_decide_eq_true hstop).resolve_left (h.2 z hmem)
  rw [List.find?_append, hz, hinc.eq hmem hr (hzpc.trans hpc.symm)]
  rfl

/-- The nearest row of an instruction at which a row starts. -/
theorem NearestRow.addr_eq (h : NearestRow t.line pc r) (hs : StartsRow t pc) : r.addr = pc := by
  obtain ⟨r', hr', hpc⟩ := hs.1
  have hge := h.2.2 r' hr' (by rw [hpc]; exact BitVec.le_refl _)
  rw [hpc] at hge
  exact BitVec.le_antisymm h.2.1 hge

end HustOS.Elf
