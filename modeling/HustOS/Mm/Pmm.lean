import HustOS.Kernel
import HustOS.Foundations.Chain
import Mathlib.Data.Set.Insert
import Mathlib.Data.List.Perm.Subperm
import Mathlib.Tactic.Common
import Mathlib.Tactic.Ring

/-!
# The physical page allocator

`kernel/pmm.c`: the free pages are a linked list whose nodes are the pages themselves, the first
word of a free page holding the address of the next one. `createFreepageList` pushes every page of
the managed memory, `allocPage` pops the first, `freePage` pushes, and `allocTwoPage` takes two
adjacent pages out of the middle by following three links.

The memory is a word at each address, shared with whoever holds the pages handed out, so a run
interleaves the allocator's calls with arbitrary stores into pages that are not free
(`PmmRun.store`). `PmmRun.inv` finds the list of free pages in every state of every run;
`allocTwoPage_spec` says which two pages leave it.
-/

namespace HustOS.Mm

open Foundations

/-! ## The model -/

/-- Physical memory, with the allocator's globals. -/
structure Mach where
  /-- The 64-bit word at an address. -/
  mem : ℕ → ℕ
  freeMemStartAddr : ℕ
  freeMemEndAddr : ℕ
  /-- `g_free_mem_list.next`. -/
  gFreeMemList : ℕ
  /-- The semaphore that guards the list. -/
  count5 : ℤ

/-- `ROUNDUP` of `util/functions.h`, in `uint64` arithmetic. -/
def roundUp (a b : ℕ) : ℕ := ((a + (2 ^ 64 - 1)) % 2 ^ 64 / b + 1) * b % 2 ^ 64

/-- `ROUNDDOWN` of `util/functions.h`. -/
def roundDown (a b : ℕ) : ℕ := a / b * b

abbrev DRAM_BASE : ℕ := 0x80000000

abbrev KERN_BASE : ℕ := 0x80000000

abbrev PKE_MAX_ALLOWABLE_RAM : ℕ := 128 * 1024 * 1024

namespace Mach

/-- A load through a pointer. -/
def load (m : Mach) (a : ℕ) : Except Fault ℕ :=
  if a = 0 then throw .nullDeref else return m.mem a

/-- A store to an address. -/
def store (m : Mach) (a v : ℕ) : Mach := { m with mem := Function.update m.mem a v }

@[simp] theorem store_self (m : Mach) (a v : ℕ) : (m.store a v).mem a = v :=
  Function.update_self _ _ _

theorem store_of_ne (m : Mach) (v : ℕ) {a b : ℕ} (h : b ≠ a) : (m.store a v).mem b = m.mem b :=
  Function.update_of_ne h _ _

theorem store_store (m : Mach) (a v w : ℕ) : (m.store a v).store a w = m.store a w := by
  simp only [store, Function.update_idem]

theorem store_comm (m : Mach) {a b : ℕ} (v w : ℕ) (h : a ≠ b) :
    (m.store a v).store b w = (m.store b w).store a v := by
  simp only [store, Function.update_comm h]

theorem store_mem (m : Mach) (a : ℕ) : m.store a (m.mem a) = m := by
  simp only [store, Function.update_eq_self]

end Mach

/-- `sem_P`: spins while the counter is not positive. -/
def semP (m : Mach) : Except Fault Mach :=
  if m.count5 ≤ 0 then throw .spin else return { m with count5 := m.count5 - 1 }

/-- `sem_V`. -/
def semV (m : Mach) : Mach := { m with count5 := m.count5 + 1 }

/-- `free_page`. -/
def freePage (pa : ℕ) (m : Mach) : Except Fault Mach :=
  if pa < m.freeMemStartAddr ∨ m.freeMemEndAddr ≤ pa then throw (.panic "free_page 0x%lx")
  else return { m.store pa m.gFreeMemList with gFreeMemList := pa }

/-- The loop of `create_freepage_list`, from the page `p`. Its `fuel` bounds the iterations. -/
def createLoop : ℕ → ℕ → ℕ → Mach → Except Fault Mach
  | 0, _, _, _ => throw .spin
  | fuel + 1, p, stop, m =>
    if (p + PGSIZE) % 2 ^ 64 < stop then do
      let m ← freePage p m
      createLoop fuel ((p + PGSIZE) % 2 ^ 64) stop m
    else return m

/-- `create_freepage_list`. -/
def createFreepageList (start stop : ℕ) (m : Mach) : Except Fault Mach :=
  createLoop (stop / PGSIZE + 1) (roundUp start PGSIZE) stop { m with gFreeMemList := 0 }

/-- `alloc_page`: the first free page, or `NULL`. -/
def allocPage (m : Mach) : Except Fault (ℕ × Mach) := do
  let m ← semP m
  let n := m.gFreeMemList
  if n = 0 then return (n, semV m)
  else return (n, semV { m with gFreeMemList := m.mem n })

/-- The loop of `alloc_two_page`: the node `n` in front of the first pair of adjacent pages, or in
front of the last node. Each iteration moves to another page of the list, so the number of pages
below the end of memory bounds them. -/
def twoPageLoop (m : Mach) : ℕ → ℕ → Except Fault ℕ
  | 0, _ => throw .spin
  | fuel + 1, n => do
    let n₁ ← m.load n
    let n₂ ← m.load n₁
    if n₂ ≠ 0 ∧ (n₁ + (2 ^ 64 - PGSIZE)) % 2 ^ 64 ≠ n₂ then twoPageLoop m fuel n₁
    else return n

/-- `alloc_two_page`. -/
def allocTwoPage (m : Mach) : Except Fault (ℕ × Mach) := do
  let m ← semP m
  let n ← twoPageLoop m (m.freeMemEndAddr / PGSIZE + 1) m.gFreeMemList
  let n₁ ← m.load n
  let n₂ ← m.load n₁
  if n₂ = 0 then throw (.panic "alloc two page fault!")
  let n₃ ← m.load n₂
  return (n₂, semV (m.store n n₃))

/-- `pmm_init`, from the end of the kernel image and the size of the machine's memory. -/
def pmmInit (gKernelEnd gMemSize : ℕ) (mem : ℕ → ℕ) : Except Fault Mach := do
  let pkeKernelSize := (gKernelEnd + (2 ^ 64 - KERN_BASE)) % 2 ^ 64
  let start := roundUp gKernelEnd PGSIZE
  let gMemSize := min PKE_MAX_ALLOWABLE_RAM gMemSize
  if gMemSize < pkeKernelSize then
    throw (.panic "Error when recomputing physical memory size (g_mem_size).")
  let stop := (gMemSize + DRAM_BASE) % 2 ^ 64
  createFreepageList start stop
    { mem, freeMemStartAddr := start, freeMemEndAddr := stop, gFreeMemList := 0, count5 := 1 }

/-! ## Walking to a pair of pages -/

/-- Where the loop of `allocTwoPage` stops: one node before the end of the list, or in front of two
nodes the second of which is the page below the first. -/
theorem twoPageLoop_ok {m : Mach} {fuel n r : ℕ} {l : List ℕ} (c : Chain 0 m.mem n (n :: l))
    (h : twoPageLoop m fuel n = .ok r) :
    ∃ pre rest, n :: l = pre ++ r :: rest ∧
      ((∃ a, rest = [a]) ∨
        ∃ a b post, rest = a :: b :: post ∧ (a + (2 ^ 64 - PGSIZE)) % 2 ^ 64 = b) := by
  induction fuel generalizing n l with
  | zero => simp [twoPageLoop] at h
  | succ fuel ih =>
    obtain ⟨-, hn, c₁⟩ := c
    match l, c₁ with
    | [], c₁ =>
      rw [Chain.nil_iff] at c₁
      simp [twoPageLoop, Mach.load, hn, c₁] at h
    | [a], ⟨ha, ha', c₂⟩ =>
      rw [Chain.nil_iff] at c₂
      simp [twoPageLoop, Mach.load, hn, ha, ha', c₂] at h
      exact ⟨[], [a], by simp [h], .inl ⟨a, rfl⟩⟩
    | a :: b :: post, ⟨ha, ha', hb, hb', c₂⟩ =>
      have hstep : twoPageLoop m (fuel + 1) n =
          if (a + (2 ^ 64 - PGSIZE)) % 2 ^ 64 ≠ b then twoPageLoop m fuel a else .ok n := by
        simp [twoPageLoop, Mach.load, hn, ha, ha', hb, hb']
      rw [hstep] at h
      split at h
      · obtain ⟨pre, rest, hl, hr⟩ := ih (l := b :: post) ⟨rfl, ha', hb, hb', c₂⟩ h
        exact ⟨n :: pre, rest, by simp [hl], hr⟩
      · rename_i hab
        cases h
        exact ⟨[], a :: b :: post, rfl, .inr ⟨a, b, post, rfl, not_not.1 hab⟩⟩

/-- Enough fuel for the nodes of the list is enough. -/
theorem twoPageLoop_ne_spin {m : Mach} {fuel n : ℕ} {l : List ℕ} (c : Chain 0 m.mem n l)
    (hf : l.length ≤ fuel) (h0 : 0 < fuel) : twoPageLoop m fuel n ≠ .error .spin := by
  induction fuel generalizing n l with
  | zero => simp at h0
  | succ fuel ih =>
    by_cases hn : n = 0
    · simp [twoPageLoop, Mach.load, hn]
    obtain ⟨l₁, rfl, c₁⟩ := c.exists_cons hn
    by_cases hn₁ : m.mem n = 0
    · simp [twoPageLoop, Mach.load, hn, hn₁]
    obtain ⟨l₂, rfl, c₂⟩ := c₁.exists_cons hn₁
    simp only [List.length_cons] at hf
    have hstep : twoPageLoop m (fuel + 1) n =
        if m.mem (m.mem n) ≠ 0 ∧
            (m.mem n + (2 ^ 64 - PGSIZE)) % 2 ^ 64 ≠ m.mem (m.mem n) then
          twoPageLoop m fuel (m.mem n) else .ok n := by
      simp [twoPageLoop, Mach.load, hn, hn₁]
    rw [hstep]
    split
    · exact ih c₁ (by simpa using hf) (by omega)
    · simp

/-! ## Two adjacent pages -/

theorem nodup_twoPage {pre post : List ℕ} {n a b : ℕ} (hnd : (pre ++ n :: a :: b :: post).Nodup) :
    (pre ++ n :: post).Nodup := by
  refine hnd.sublist (List.Sublist.append_left (List.Sublist.cons_cons n ?_) pre)
  exact (List.sublist_cons_self b post).trans (List.sublist_cons_self _ _)

/-- **`alloc_two_page`** unlinks two adjacent pages behind a page `n` of the list, and writes the
link of this page only. -/
theorem allocTwoPage_ok {m m' : Mach} {l : List ℕ} {r : ℕ} (hchain : Chain 0 m.mem m.gFreeMemList l)
    (hnd : l.Nodup) (hpage : ∀ q ∈ l, PGSIZE ∣ q ∧ q < 2 ^ 63) (hu : m.count5 = 1)
    (e : allocTwoPage m = .ok (r, m')) :
    ∃ pre n post v, l = pre ++ n :: (r + PGSIZE) :: r :: post ∧ m' = m.store n v ∧
      Chain 0 m'.mem m'.gFreeMemList (pre ++ n :: post) := by
  rw [allocTwoPage, semP, if_neg (by omega)] at e
  simp only [pure_eq_ok, ok_bind, bind_ok_iff] at e
  obtain ⟨n, hloop, n₁, h₁, n₂, h₂, e⟩ := e
  have hhead : m.gFreeMemList ≠ 0 := by
    intro h0
    simp [twoPageLoop, Mach.load, h0] at hloop
  obtain ⟨l₀, rfl, c₀⟩ := hchain.exists_cons hhead
  obtain ⟨pre, rest, hl, hrest⟩ :=
    twoPageLoop_ok (m := { m with count5 := m.count5 - 1 }) hchain hloop
  have cn : Chain 0 m.mem n (n :: rest) := Chain.suffix (hl ▸ hchain)
  obtain ⟨-, hn, cn⟩ := cn
  rcases hrest with ⟨a, rfl⟩ | ⟨a, b, post, rfl, hab⟩
  · -- one node before the end: the kernel panics
    obtain ⟨ha, ha', hb⟩ := cn
    rw [Chain.nil_iff] at hb
    simp only [Mach.load, hn, if_false, pure_eq_ok, Except.ok.injEq] at h₁
    obtain rfl : a = n₁ := by rw [← h₁, ha]
    simp [Mach.load, ha', hb] at h₂
    simp [← h₂] at e
  · obtain ⟨ha, ha', hb, hb', cb⟩ := cn
    simp only [Mach.load, hn, if_false, pure_eq_ok, Except.ok.injEq] at h₁
    obtain rfl : a = n₁ := by rw [← h₁, ha]
    simp only [Mach.load, ha', if_false, pure_eq_ok, Except.ok.injEq] at h₂
    obtain rfl : b = n₂ := by rw [← h₂, hb]
    simp only [hb', if_false, Mach.load, pure_eq_ok, ok_bind, Except.ok.injEq, Prod.mk.injEq,
      semV, Mach.store] at e
    obtain ⟨rfl, rfl⟩ := e
    have hmem : a ∈ m.gFreeMemList :: l₀ := by
      rw [hl]
      simp
    obtain ⟨⟨j, hj⟩, hlt⟩ := hpage a hmem
    obtain hab' : b + PGSIZE = a := by simp only [PGSIZE] at *; omega
    have hc : m.count5 - 1 + 1 = m.count5 := by omega
    refine ⟨pre, n, post, m.mem b, by rw [hl, hab'], ?_, ?_⟩
    · simp only [Mach.store, hc]
    · rw [hl] at hnd hchain
      have c : Chain 0 m.mem m.gFreeMemList (pre ++ n :: ([a, b] ++ post)) := by simpa using hchain
      exact c.unlink (nodup_twoPage hnd) cb

/-! ## The invariant of the free list -/

/-- The free pages of `m` are `l`, in the order of the list, those handed out are `out`, and
together they are the pages `all`. -/
structure PmmInv (all : Set ℕ) (m : Mach) (l : List ℕ) (out : Set ℕ) : Prop where
  chain : Chain 0 m.mem m.gFreeMemList l
  nodup : l.Nodup
  disjoint : ∀ p ∈ l, p ∉ out
  part : ∀ p, p ∈ l ∨ p ∈ out ↔ p ∈ all
  aligned : ∀ p ∈ all, PGSIZE ∣ p
  range : ∀ p ∈ all, m.freeMemStartAddr ≤ p ∧ p < m.freeMemEndAddr
  pos : 0 < m.freeMemStartAddr
  bound : m.freeMemEndAddr < 2 ^ 63
  unlocked : m.count5 = 1

namespace PmmInv

variable {all out : Set ℕ} {m m' : Mach} {l : List ℕ} {p r : ℕ}

theorem mem_all (h : PmmInv all m l out) (hp : p ∈ l) : p ∈ all := (h.part p).1 (.inl hp)

/-- A list of distinct pages of the memory is no longer than the memory. -/
theorem length_le (h : PmmInv all m l out) : l.length ≤ m.freeMemEndAddr / PGSIZE + 1 := by
  have hnd : (l.map (· / PGSIZE)).Nodup := by
    refine List.Nodup.map_on (fun a ha b hb hab => ?_) h.nodup
    obtain ⟨a, rfl⟩ := h.aligned a (h.mem_all ha)
    obtain ⟨b, rfl⟩ := h.aligned b (h.mem_all hb)
    simpa using hab
  have hsub : l.map (· / PGSIZE) ⊆ List.range (m.freeMemEndAddr / PGSIZE + 1) := by
    intro k hk
    obtain ⟨p, hp, rfl⟩ := List.mem_map.1 hk
    have hlt := (h.range p (h.mem_all hp)).2
    rw [List.mem_range, Nat.lt_succ_iff]
    exact Nat.div_le_div_right hlt.le
  simpa using (hnd.subperm hsub).length_le

/-- `free_page` of a page handed out puts it in front of the list. -/
theorem freePage (h : PmmInv all m l out) (hp : p ∈ out) (e : Mm.freePage p m = .ok m') :
    PmmInv all m' (p :: l) (out \ {p}) := by
  have hr := h.range p ((h.part p).1 (.inr hp))
  have hne : p ≠ 0 := by have := h.pos; omega
  have hl : p ∉ l := fun hm => h.disjoint p hm hp
  rw [Mm.freePage, if_neg (by omega)] at e
  cases e
  refine
    { chain := h.chain.push hne hl
      nodup := List.nodup_cons.2 ⟨hl, h.nodup⟩
      disjoint := ?_
      part := fun q => ?_
      aligned := h.aligned
      range := h.range
      pos := h.pos
      bound := h.bound
      unlocked := h.unlocked }
  · intro q hq hq'
    rcases List.mem_cons.1 hq with rfl | hq
    · exact hq'.2 rfl
    · exact h.disjoint q hq hq'.1
  · rw [← h.part q]
    by_cases hq : q = p
    · simp [hq, hp]
    · simp [hq]

/-- `alloc_page` takes the first page of the list, if there is one. -/
theorem allocPage (h : PmmInv all m l out) (e : Mm.allocPage m = .ok (r, m')) :
    (l = [] ∧ r = 0 ∧ PmmInv all m' [] out) ∨
      ∃ l', l = r :: l' ∧ PmmInv all m' l' (insert r out) := by
  have hu := h.unlocked
  rw [Mm.allocPage, semP, if_neg (by omega)] at e
  simp only [pure_eq_ok, ok_bind] at e
  have hcount : m.count5 - 1 + 1 = 1 := by omega
  by_cases hn : m.gFreeMemList = 0
  · obtain rfl : l = [] := Chain.eq_nil (hn ▸ h.chain)
    simp only [hn, if_true, semV, Except.ok.injEq, Prod.mk.injEq] at e
    obtain ⟨rfl, rfl⟩ := e
    exact .inl ⟨rfl, rfl, { h with chain := rfl, unlocked := hcount }⟩
  · obtain ⟨l', rfl, c⟩ := h.chain.exists_cons hn
    simp only [hn, if_false, semV, Except.ok.injEq, Prod.mk.injEq] at e
    obtain ⟨rfl, rfl⟩ := e
    have hnd := List.nodup_cons.1 h.nodup
    refine .inr ⟨l', rfl,
      { h with
        chain := c
        nodup := hnd.2
        disjoint := ?_
        part := fun q => ?_
        unlocked := hcount }⟩
    · rintro q hq (rfl | hq')
      · exact hnd.1 hq
      · exact h.disjoint q (by simp [hq]) hq'
    · rw [← h.part q]
      simp only [List.mem_cons, Set.mem_insert_iff]
      tauto

/-- Whoever holds a page may write anything into it. -/
theorem store (h : PmmInv all m l out) (hp : p ∈ out) {a v : ℕ} (ha : p ≤ a)
    (ha' : a < p + PGSIZE) : PmmInv all (m.store a v) l out := by
  have hal : a ∉ l := by
    intro hm
    obtain ⟨j, rfl⟩ := h.aligned a (h.mem_all hm)
    obtain ⟨k, rfl⟩ := h.aligned p ((h.part p).1 (.inr hp))
    obtain rfl : j = k := by simp only [PGSIZE] at *; omega
    exact h.disjoint _ hm hp
  exact { h with chain := h.chain.update_of_notMem hal }

/-- **`alloc_two_page` takes two adjacent pages**: the pages `r + PGSIZE` and `r`, which follow
each other on the list, leave it, and the others keep their order. -/
theorem allocTwoPage (h : PmmInv all m l out) (e : Mm.allocTwoPage m = .ok (r, m')) :
    ∃ pre post, l = pre ++ (r + PGSIZE) :: r :: post ∧
      PmmInv all m' (pre ++ post) (insert (r + PGSIZE) (insert r out)) := by
  have hpage : ∀ q ∈ l, PGSIZE ∣ q ∧ q < 2 ^ 63 := fun q hq =>
    ⟨h.aligned q (h.mem_all hq), (h.range q (h.mem_all hq)).2.trans h.bound⟩
  obtain ⟨pre, n, post, v, rfl, rfl, hchain⟩ :=
    allocTwoPage_ok h.chain h.nodup hpage h.unlocked e
  have hmem : ∀ q, q ∈ pre ++ n :: (r + PGSIZE) :: r :: post ↔
      q ∈ pre ∨ q = n ∨ q = r + PGSIZE ∨ q = r ∨ q ∈ post := by
    intro q
    simp
  have hnd := h.nodup
  have hnd' : (pre ++ n :: post).Nodup := nodup_twoPage hnd
  refine ⟨pre ++ [n], post, by simp, ?_⟩
  refine
    { chain := by simpa using hchain
      nodup := by simpa using hnd'
      disjoint := ?_
      part := fun q => ?_
      aligned := h.aligned
      range := h.range
      pos := h.pos
      bound := h.bound
      unlocked := h.unlocked }
  · intro q hq
    have hq' : q ∈ pre ∨ q = n ∨ q ∈ post := by simpa using hq
    have hqo := h.disjoint q ((hmem q).2 (by tauto))
    rw [List.nodup_append, List.nodup_cons, List.nodup_cons, List.nodup_cons] at hnd
    grind
  · rw [← h.part q, hmem q]
    simp only [List.mem_append, List.mem_singleton, Set.mem_insert_iff]
    tauto

/-- The loop of `alloc_two_page` ends. -/
theorem allocTwoPage_ne_spin (h : PmmInv all m l out) : Mm.allocTwoPage m ≠ .error .spin := by
  have hu := h.unlocked
  rw [Mm.allocTwoPage, semP, if_neg (by omega)]
  have hloop := twoPageLoop_ne_spin (m := { m with count5 := m.count5 - 1 }) h.chain h.length_le
    (Nat.succ_pos _)
  intro e
  simp only [pure_eq_ok, ok_bind, bind_error_iff, Mach.load, throw_eq_error] at e
  rcases e with e | ⟨n, -, e⟩
  · exact hloop e
  · split_ifs at e <;> simp at e
    split_ifs at e <;> simp at e
    split_ifs at e
    simp at e

end PmmInv

/-! ## The initial list -/

/-- The pages `create_freepage_list` puts on the list: the aligned ones from `start` on whose end
is below `stop`. -/
def pagesOf (start stop : ℕ) : Set ℕ := {p | PGSIZE ∣ p ∧ start ≤ p ∧ p + PGSIZE < stop}

/-- The loop frees every page from `p` on, as if they had been handed out before. -/
theorem createLoop_spec {fuel p start stop : ℕ} {m : Mach} {l : List ℕ}
    (hstart : m.freeMemStartAddr = start) (hstop : m.freeMemEndAddr = stop)
    (h : PmmInv (pagesOf start stop) m l {q ∈ pagesOf start stop | p ≤ q})
    (hp : PGSIZE ∣ p) (hsp : start ≤ p) (hps : p < 2 ^ 63)
    (hf : stop ≤ p + PGSIZE * fuel) :
    ∃ m' l', createLoop (fuel + 1) p stop m = .ok m' ∧ PmmInv (pagesOf start stop) m' l' ∅ := by
  induction fuel generalizing p m l with
  | zero =>
    have hlt : ¬ (p + PGSIZE) % 2 ^ 64 < stop := by simp only [PGSIZE] at *; omega
    refine ⟨m, l, by simp only [createLoop, hlt, if_false, pure_eq_ok], ?_⟩
    convert h using 1
    ext q
    simp only [pagesOf, Set.mem_empty_iff_false, Set.mem_ofPred_eq, false_iff]
    simp only [PGSIZE] at *
    omega
  | succ fuel ih =>
    by_cases hlt : (p + PGSIZE) % 2 ^ 64 < stop
    · have hlt' : p + PGSIZE < stop := by simp only [PGSIZE] at *; omega
      have hbd := h.bound
      obtain ⟨m₁, hm₁⟩ : ∃ m₁, freePage p m = .ok m₁ := by
        refine ⟨_, if_neg ?_⟩
        simp only [PGSIZE] at *
        omega
      have h₁ := h.freePage ⟨⟨hp, hsp, hlt'⟩, le_rfl⟩ hm₁
      have hmod : (p + PGSIZE) % 2 ^ 64 = p + PGSIZE := by simp only [PGSIZE] at *; omega
      have hset : {q ∈ pagesOf start stop | p ≤ q} \ {p} =
          {q ∈ pagesOf start stop | p + PGSIZE ≤ q} := by
        ext q
        simp only [Set.mem_sdiff, Set.mem_ofPred_eq, Set.mem_singleton_iff, pagesOf, and_assoc]
        simp only [PGSIZE] at *
        omega
      have hsame : m₁.freeMemStartAddr = start ∧ m₁.freeMemEndAddr = stop := by
        rw [freePage] at hm₁
        split at hm₁
        · cases hm₁
        · cases hm₁
          exact ⟨hstart, hstop⟩
      rw [hset] at h₁
      obtain ⟨m', l', hm', h'⟩ := ih (p := p + PGSIZE) hsame.1 hsame.2 h₁
        (by simpa using hp) (by omega) (by omega) (by rw [Nat.mul_succ] at hf; omega)
      refine ⟨m', l', ?_, h'⟩
      rw [createLoop, if_pos hlt, hm₁, ok_bind, hmod, hm']
    · refine ⟨m, l, by rw [createLoop, if_neg hlt, pure_eq_ok], ?_⟩
      convert h using 1
      ext q
      simp only [pagesOf, Set.mem_empty_iff_false, Set.mem_ofPred_eq, false_iff]
      simp only [PGSIZE] at *
      omega

/-- `create_freepage_list` puts the pages of the managed memory on an empty list. -/
theorem createFreepageList_spec {start stop : ℕ} {m : Mach} (hstart : m.freeMemStartAddr = start)
    (hstop : m.freeMemEndAddr = stop) (hdvd : PGSIZE ∣ start) (hpos : 0 < start)
    (hlt : start < 2 ^ 63) (hbd : stop < 2 ^ 63) (hu : m.count5 = 1) :
    ∃ m' l, createFreepageList start stop m = .ok m' ∧ PmmInv (pagesOf start stop) m' l ∅ := by
  have hround : roundUp start PGSIZE = start := by
    simp only [roundUp, PGSIZE] at *
    omega
  have h₀ : PmmInv (pagesOf start stop) { m with gFreeMemList := 0 } []
      {q ∈ pagesOf start stop | start ≤ q} :=
    { chain := rfl
      nodup := List.nodup_nil
      disjoint := by simp
      part := by
        intro q
        simp only [List.not_mem_nil, false_or, pagesOf, Set.mem_ofPred_eq, and_iff_left_iff_imp]
        exact fun hq => hq.2.1
      aligned := fun q hq => hq.1
      range := fun q hq => ⟨hstart ▸ hq.2.1, hstop ▸ lt_of_le_of_lt (Nat.le_add_right _ _) hq.2.2⟩
      pos := hstart ▸ hpos
      bound := hstop ▸ hbd
      unlocked := hu }
  have hfuel : stop ≤ start + PGSIZE * (stop / PGSIZE) := by
    have := Nat.le_of_dvd hpos hdvd
    simp only [PGSIZE] at *
    omega
  rw [createFreepageList, hround]
  exact createLoop_spec hstart hstop h₀ hdvd le_rfl hlt hfuel

/-- **The initial list** is a list of pages of the managed memory, whatever the machine's size. -/
theorem pmmInit_spec {gKernelEnd gMemSize : ℕ} {mem : ℕ → ℕ} {m : Mach}
    (h : pmmInit gKernelEnd gMemSize mem = .ok m) : ∃ all l, PmmInv all m l ∅ := by
  rw [pmmInit] at h
  split at h
  · simp at h
  rename_i hsize
  have hs : PGSIZE ∣ roundUp gKernelEnd PGSIZE ∧ 0 < roundUp gKernelEnd PGSIZE ∧
      roundUp gKernelEnd PGSIZE < 2 ^ 63 := by
    simp only [roundUp, PGSIZE, KERN_BASE, PKE_MAX_ALLOWABLE_RAM] at *
    omega
  have hst : (min PKE_MAX_ALLOWABLE_RAM gMemSize + DRAM_BASE) % 2 ^ 64 < 2 ^ 63 := by
    simp only [PKE_MAX_ALLOWABLE_RAM, DRAM_BASE] at *
    omega
  generalize (min PKE_MAX_ALLOWABLE_RAM gMemSize + DRAM_BASE) % 2 ^ 64 = stop at h hst
  generalize roundUp gKernelEnd PGSIZE = start at h hs
  obtain ⟨m', l, hm', h'⟩ := createFreepageList_spec
    (m := ⟨mem, start, stop, 0, 1⟩) rfl rfl hs.1 hs.2.1 hs.2.2 hst rfl
  obtain rfl : m' = m := Except.ok.inj (hm'.symm.trans h)
  exact ⟨_, l, h'⟩

/-! ## Runs -/

/-- `PmmRun m₀ m out`: a sequence of calls, none of which panics, leads from `m₀`, with no page
handed out, to `m` with the pages `out` handed out. Between the calls the holders of these pages
write into them. -/
inductive PmmRun (m₀ : Mach) : Mach → Set ℕ → Prop
  | start : PmmRun m₀ m₀ ∅
  | allocNone {m m' : Mach} {out : Set ℕ} : PmmRun m₀ m out → allocPage m = .ok (0, m') →
      PmmRun m₀ m' out
  | alloc {m m' : Mach} {out : Set ℕ} {r : ℕ} : PmmRun m₀ m out → allocPage m = .ok (r, m') →
      r ≠ 0 → PmmRun m₀ m' (insert r out)
  | allocTwo {m m' : Mach} {out : Set ℕ} {r : ℕ} : PmmRun m₀ m out →
      allocTwoPage m = .ok (r, m') → PmmRun m₀ m' (insert (r + PGSIZE) (insert r out))
  | free {m m' : Mach} {out : Set ℕ} {p : ℕ} : PmmRun m₀ m out → p ∈ out →
      freePage p m = .ok m' → PmmRun m₀ m' (out \ {p})
  | store {m : Mach} {out : Set ℕ} {p a v : ℕ} : PmmRun m₀ m out → p ∈ out → p ≤ a →
      a < p + PGSIZE → PmmRun m₀ (m.store a v) out

/-- The invariant of the initial state holds in every state of a run. -/
theorem PmmRun.inv {m₀ m : Mach} {out all : Set ℕ} {l₀ : List ℕ} (run : PmmRun m₀ m out)
    (h₀ : PmmInv all m₀ l₀ ∅) : ∃ l, PmmInv all m l out := by
  induction run with
  | start => exact ⟨l₀, h₀⟩
  | allocNone _ e ih =>
    obtain ⟨l, h⟩ := ih
    rcases h.allocPage e with ⟨-, -, h'⟩ | ⟨l', rfl, h'⟩
    · exact ⟨[], h'⟩
    · exact absurd rfl (h.chain.ne_null 0 (by simp))
  | alloc _ e hr ih =>
    obtain ⟨l, h⟩ := ih
    rcases h.allocPage e with ⟨-, h0, -⟩ | ⟨l', -, h'⟩
    · exact absurd h0 hr
    · exact ⟨l', h'⟩
  | allocTwo _ e ih =>
    obtain ⟨l, h⟩ := ih
    obtain ⟨pre, post, -, h'⟩ := h.allocTwoPage e
    exact ⟨pre ++ post, h'⟩
  | free _ hp e ih =>
    obtain ⟨l, h⟩ := ih
    exact ⟨_, h.freePage hp e⟩
  | store _ hp ha ha' ih =>
    obtain ⟨l, h⟩ := ih
    exact ⟨l, h.store hp ha ha'⟩

/-- **The free list over every run**: the list is a chain of distinct page-aligned addresses of the
managed memory, apart from the pages handed out, with which it makes up the initial list; and
`alloc_two_page` takes `r + PGSIZE` and `r`, adjacent on the list, out of it and keeps the order of
the rest. -/
theorem free_list_of_run {gKernelEnd gMemSize : ℕ} {mem : ℕ → ℕ} {m₀ m : Mach}
    {out : Set ℕ} (hinit : pmmInit gKernelEnd gMemSize mem = .ok m₀)
    (run : PmmRun m₀ m out) :
    ∃ l₀ l, Chain 0 m₀.mem m₀.gFreeMemList l₀ ∧ Chain 0 m.mem m.gFreeMemList l ∧ l.Nodup ∧
      (∀ p ∈ l, PGSIZE ∣ p ∧ m.freeMemStartAddr ≤ p ∧ p < m.freeMemEndAddr) ∧
      (∀ p ∈ l, p ∉ out) ∧ (∀ p, p ∈ l ∨ p ∈ out ↔ p ∈ l₀) ∧
      (∀ r m', allocTwoPage m = .ok (r, m') → ∃ pre post, l = pre ++ (r + PGSIZE) :: r :: post ∧
        Chain 0 m'.mem m'.gFreeMemList (pre ++ post)) ∧
      allocTwoPage m ≠ .error .spin := by
  obtain ⟨all, l₀, h₀⟩ := pmmInit_spec hinit
  obtain ⟨l, h⟩ := run.inv h₀
  refine ⟨l₀, l, h₀.chain, h.chain, h.nodup, ?_, h.disjoint, ?_, ?_, ?_⟩
  · intro p hp
    exact ⟨h.aligned p (h.mem_all hp), h.range p (h.mem_all hp)⟩
  · intro p
    rw [h.part p, ← h₀.part p]
    simp
  · intro r m' e
    obtain ⟨pre, post, hl, h'⟩ := h.allocTwoPage e
    exact ⟨pre, post, hl, h'.chain⟩
  · exact h.allocTwoPage_ne_spin

/-- On a machine with three free pages `alloc_two_page` takes the two lower ones. -/
theorem free_list_of_run_three : ∃ m₀ m l, pmmInit 0x80001000 0x5000 (fun _ => 0) = .ok m₀ ∧
    PmmRun m₀ m {0x80002000, 0x80001000} ∧ Chain 0 m.mem m.gFreeMemList l ∧ l.Nodup := by
  have hinit : ∃ m₀, pmmInit 0x80001000 0x5000 (fun _ => 0) = .ok m₀ ∧
      ∃ m, allocTwoPage m₀ = .ok (0x80001000, m) := ⟨_, rfl, _, rfl⟩
  obtain ⟨m₀, h₀, m, h⟩ := hinit
  have run : PmmRun m₀ m {0x80002000, 0x80001000} := by
    simpa [PGSIZE] using PmmRun.start.allocTwo h
  obtain ⟨-, l, -, c, hnd, -⟩ := free_list_of_run h₀ run
  exact ⟨m₀, m, l, h₀, run, c, hnd⟩

end HustOS.Mm
