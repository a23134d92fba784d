import HustOS.Mm.Pmm
import Mathlib.Data.Nat.Bitwise

/-!
# Sv39 page tables

`kernel/vmm.c` over the memory of `Mach`: a page table is a page of 512 entries, each packing the
page number of a frame or of a table of the next level with ten flag bits. `pageWalk` follows two
levels of tables and returns the address of the entry of the last level, growing the tree with pages
of `allocPage` when it is asked to; `mapPages` and `userVmUnmap` write that entry.

The last section has the arithmetic of an entry: what the packing of a frame and its flags gives
back (`pte2pa_mkPte`, `mkPte_and`).
-/

namespace HustOS.Mm

open Foundations

/-! ## Entries and addresses -/

abbrev PTE_V : ℕ := 1
abbrev PTE_R : ℕ := 2
abbrev PTE_W : ℕ := 4
abbrev PTE_X : ℕ := 8
abbrev PTE_U : ℕ := 16
abbrev PTE_A : ℕ := 64
abbrev PTE_D : ℕ := 128
abbrev PTE_C : ℕ := 256

/-- `PA2PTE`. -/
def pa2pte (pa : ℕ) : ℕ := (pa >>> 12) <<< 10 % 2 ^ 64

/-- `PTE2PA`. -/
def pte2pa (pte : ℕ) : ℕ := (pte >>> 10) <<< 12 % 2 ^ 64

/-- `PX`: the index of `va` in a table of the given level. -/
def px (level va : ℕ) : ℕ := (va >>> (12 + 9 * level)) &&& 0x1FF

/-- One beyond the highest virtual address. -/
abbrev MAXVA : ℕ := 2 ^ 38

abbrev PROT_READ : ℕ := 1
abbrev PROT_WRITE : ℕ := 2
abbrev PROT_EXEC : ℕ := 4
abbrev PROT_COW : ℕ := 8

/-- `prot_to_type`. -/
def protToType (prot user : ℕ) : ℕ :=
  let perm := if prot &&& PROT_READ ≠ 0 then PTE_R ||| PTE_A else 0
  let perm := if prot &&& PROT_WRITE ≠ 0 then perm ||| (PTE_W ||| PTE_D) else perm
  let perm := if prot &&& PROT_EXEC ≠ 0 then perm ||| (PTE_X ||| PTE_A) else perm
  let perm := if perm = 0 then PTE_R else perm
  let perm := if prot &&& PROT_COW ≠ 0 then perm ||| (PTE_C ||| PTE_A) else perm
  if user ≠ 0 then perm ||| PTE_U else perm

/-! ## The model -/

/-- `memset(p, 0, PGSIZE)`. -/
def Mach.zeroPage (m : Mach) (p : ℕ) : Mach :=
  { m with mem := fun a => if p ≤ a ∧ a < p + PGSIZE then 0 else m.mem a }

/-- One iteration of the loop of `page_walk`, at the table `pt`: the table of the next level, or
`none` where the loop returns `NULL`. -/
def walkStep (level va : ℕ) (alloc : Bool) (pt : ℕ) (m : Mach) : Except Fault (Option ℕ × Mach) :=
  let pte := pt + 8 * px level va
  if m.mem pte &&& PTE_V ≠ 0 then return (some (pte2pa (m.mem pte)), m)
  else if alloc then do
    let (p, m) ← allocPage m
    if p ≠ 0 then return (some p, (m.zeroPage p).store pte (pa2pte p ||| PTE_V))
    else return (none, m)
  else return (none, m)

/-- `page_walk`: the address of the last-level entry of `va`, or `NULL`. -/
def pageWalk (pageDir va : ℕ) (alloc : Bool) (m : Mach) : Except Fault (ℕ × Mach) :=
  if MAXVA ≤ va then throw (.panic "page_walk")
  else do
    match ← walkStep 2 va alloc pageDir m with
    | (none, m) => return (0, m)
    | (some pt, m) =>
      match ← walkStep 1 va alloc pt m with
      | (none, m) => return (0, m)
      | (some pt, m) => return (pt + 8 * px 0 va, m)

/-- `n` iterations of the loop of `map_pages` from the page `first`; `extra` is the flag that only
the first of its two copies in the source sets. -/
def mapLoop (pageDir perm extra : ℕ) : ℕ → ℕ → ℕ → Mach → Except Fault (ℤ × Mach)
  | 0, _, _, m => return (0, m)
  | n + 1, first, pa, m => do
    let (pte, m) ← pageWalk pageDir first true m
    if pte = 0 then return (-1, m)
    if m.mem pte &&& PTE_V ≠ 0 then throw (.panic "map_pages fails!")
    mapLoop pageDir perm extra n (first + PGSIZE) ((pa + PGSIZE) % 2 ^ 64)
      (m.store pte (pa2pte pa ||| perm ||| PTE_V ||| extra))

/-- `map_pages`. The loop runs while `first ≤ last`; `page_walk` panics before `first` could
wrap. -/
def mapPages (pageDir va size pa perm : ℕ) (m : Mach) : Except Fault (ℤ × Mach) := do
  let (pte, m) ← pageWalk pageDir va true m
  let w ← m.load pte
  let first := roundDown va PGSIZE
  let last := roundDown ((va + size + (2 ^ 64 - 1)) % 2 ^ 64) PGSIZE
  let n := if first ≤ last then (last - first) / PGSIZE + 1 else 0
  if w = 0x100 then mapLoop pageDir perm 0x100 n first pa m
  else mapLoop pageDir perm 0 n first pa m

/-- `lookup_pa`. -/
def lookupPa (pagetable va : ℕ) (m : Mach) : Except Fault (ℕ × Mach) :=
  if MAXVA ≤ va then return (0, m)
  else do
    let (pte, m) ← pageWalk pagetable va false m
    if pte = 0 then return (0, m)
    let w := m.mem pte
    if w &&& PTE_V = 0 ∨ (w &&& PTE_R = 0 ∧ w &&& PTE_W = 0) then return (0, m)
    else return (pte2pa w, m)

/-- `user_va_to_pa`. -/
def userVaToPa (pageDir va : ℕ) (m : Mach) : Except Fault (ℕ × Mach) := do
  let (pa, m) ← lookupPa pageDir va m
  return ((pa + (va &&& 0xfff)) % 2 ^ 64, m)

/-- `user_vm_unmap`: the page of `va` only, whatever the size. -/
def userVmUnmap (pageDir va _size free : ℕ) (m : Mach) : Except Fault Mach :=
  if free ≠ 0 then do
    let (pte, m) ← pageWalk pageDir va false m
    let (pa, m) ← userVaToPa pageDir va m
    let m ← freePage pa m
    let w ← m.load pte
    return m.store pte (w &&& (2 ^ 64 - 1 - PTE_V))
  else return m

/-! ## The arithmetic of an entry -/

theorem px_lt (level va : ℕ) : px level va < 512 :=
  lt_of_le_of_lt Nat.and_le_right (by norm_num)

theorem px_eq (level va : ℕ) : px level va = va / 2 ^ (12 + 9 * level) % 512 := by
  rw [px, Nat.shiftRight_eq_div_pow]
  exact Nat.and_two_pow_sub_one_eq_mod _ 9

/-- A page number in place has no flag bits. -/
theorem pa2pte_and {pa z : ℕ} (hpa : pa < 2 ^ 56) (hz : z < 2 ^ 10) : pa2pte pa &&& z = 0 := by
  have hlt : (pa >>> 12) <<< 10 < 2 ^ 64 := by
    rw [Nat.shiftLeft_eq, Nat.shiftRight_eq_div_pow]
    omega
  rw [pa2pte, Nat.mod_eq_of_lt hlt]
  refine Nat.eq_of_testBit_eq fun i => ?_
  rw [Nat.testBit_and, Nat.testBit_shiftLeft, Nat.zero_testBit]
  by_cases hi : 10 ≤ i
  · rw [Nat.testBit_lt_two_pow (lt_of_lt_of_le hz (Nat.pow_le_pow_right (by norm_num) hi)),
      Bool.and_false]
  · simp [hi]

/-- The flag bits of an entry are the flags packed into it. -/
theorem mkPte_and {pa flags z : ℕ} (hpa : pa < 2 ^ 56) (hz : z < 2 ^ 10) :
    (pa2pte pa ||| flags) &&& z = flags &&& z := by
  rw [Nat.and_or_distrib_right, pa2pte_and hpa hz, Nat.zero_or]

/-- The frame of an entry is the frame packed into it. -/
theorem pte2pa_mkPte {pa flags : ℕ} (hpa : pa < 2 ^ 56) (hal : PGSIZE ∣ pa) (hf : flags < 2 ^ 10) :
    pte2pa (pa2pte pa ||| flags) = pa := by
  have hlt : (pa >>> 12) <<< 10 < 2 ^ 64 := by
    rw [Nat.shiftLeft_eq, Nat.shiftRight_eq_div_pow]
    omega
  rw [pte2pa, pa2pte, Nat.mod_eq_of_lt hlt, Nat.shiftRight_or_distrib, Nat.shiftLeft_shiftRight,
    Nat.shiftRight_eq_zero _ _ hf, Nat.or_zero, Nat.shiftLeft_eq, Nat.shiftRight_eq_div_pow]
  simp only [PGSIZE] at hal
  omega

theorem protToType_lt (prot user : ℕ) : protToType prot user < 2 ^ 10 := by
  have hite : ∀ (c : Prop) [Decidable c] {a b : ℕ}, a < 2 ^ 10 → b < 2 ^ 10 →
      (if c then a else b) < 2 ^ 10 := by
    intro c _ a b ha hb
    split <;> assumption
  unfold protToType
  extract_lets perm₁ perm₂ perm₃ perm₄ perm₅
  have h₁ : perm₁ < 2 ^ 10 := hite _ (by decide) (by decide)
  have h₂ : perm₂ < 2 ^ 10 := hite _ (Nat.or_lt_two_pow h₁ (by decide)) h₁
  have h₃ : perm₃ < 2 ^ 10 := hite _ (Nat.or_lt_two_pow h₂ (by decide)) h₂
  have h₄ : perm₄ < 2 ^ 10 := hite _ (by decide) h₃
  have h₅ : perm₅ < 2 ^ 10 := hite _ (Nat.or_lt_two_pow h₄ (by decide)) h₄
  exact hite _ (Nat.or_lt_two_pow h₅ (by decide)) h₅

end HustOS.Mm
