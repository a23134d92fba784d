import HustOS.Mm.Space

/-!
# `better_malloc`

`kernel/syscall.c`: an allocator of blocks smaller than a page. All processes share its tables `p`:
a page of them holds two lists of at most 99 entries, `c` with virtual and `b` with physical
addresses, which are linked by indices and share the number `n` of their entries. An allocation
scans a table for the first free entry of another size than the request: an entry of exactly that
size is only marked as used, and the scan goes on. The entry found is cut in two (`cut`), or, if it
is too small, the call starts again with another size.

`block_alloc` and `block_alloc_va` have the same loops; what they share is `scanPages` and `cut`.
-/

namespace HustOS.Mm.Better

open Foundations

/-! ## The tables -/

/-- `block`; `stop` is the member `end`. -/
structure Block where
  flag : ℕ
  start : ℕ
  stop : ℕ
  index : ℕ

/-- `end - start`, on 64 bits. -/
def Block.size (e : Block) : ℕ := ((e.stop - e.start : ℤ) % 2 ^ 64).toNat

/-- An array of blocks. -/
abbrev Table : Type := ℕ → Block

/-- Change the entry `j`. -/
def Table.modify (t : Table) (j : ℕ) (f : Block → Block) : Table := Function.update t j (f (t j))

/-- `page`. -/
structure Page where
  b : Table
  c : Table
  n : ℕ
  vaild : ℕ

/-- The global variables of the allocator. `leave` is an `int`, here as the 64 bits it is extended
to. -/
structure Malloc where
  first : ℕ
  p : ℕ → Page
  leave : ℕ
  gMallocPage : ℕ
  gUfreePage : ℕ

/-- The variables before the first call. -/
def Malloc.init : Malloc where
  first := 0
  p := fun _ => { b := fun _ => ⟨0, 0, 0, 0⟩, c := fun _ => ⟨0, 0, 0, 0⟩, n := 0, vaild := 0 }
  leave := 0
  gMallocPage := 0
  gUfreePage := USER_FREE_ADDRESS_START

/-- The 64 bits of `x` converted to `int`. -/
def toInt (x : ℕ) : ℕ :=
  if x % 2 ^ 32 < 2 ^ 31 then x % 2 ^ 32 else x % 2 ^ 32 + (2 ^ 64 - 2 ^ 32)

/-! ## Scanning and cutting -/

/-- The two tables of a page. -/
inductive Side
  | b
  | c

/-- A table of a page. -/
def Page.table (x : Page) : Side → Table
  | .b => x.b
  | .c => x.c

/-- The page with another table. -/
def Page.withTable (x : Page) (t : Table) : Side → Page
  | .b => { x with b := t }
  | .c => { x with c := t }

/-- The inner loop from the entry `j` on, over `k` entries: the free entries of the size `a1` are
marked, up to a free entry of another size. -/
def scanEntries (a1 : ℕ) : ℕ → ℕ → Table → Table × Option ℕ
  | 0, _, t => (t, none)
  | k + 1, j, t =>
    if (t j).flag ≠ 0 then scanEntries a1 k (j + 1) t
    else if (t j).size = a1 then scanEntries a1 k (j + 1) (t.modify j ({ · with flag := 1 }))
    else (t, some j)

/-- The outer loop from the page `i` on, over `k` pages. -/
def scanPages (side : Side) (a1 : ℕ) : ℕ → ℕ → (ℕ → Page) → (ℕ → Page) × Option (ℕ × ℕ)
  | 0, _, p => (p, none)
  | k + 1, i, p =>
    if (p i).vaild ≠ 1 then scanPages side a1 k (i + 1) p
    else match scanEntries a1 99 1 ((p i).table side) with
      | (t, none) => scanPages side a1 k (i + 1) (Function.update p i ((p i).withTable t side))
      | (t, some j) => (Function.update p i ((p i).withTable t side), some (i, j))

/-- What becomes of the rest of an entry that is cut. -/
inductive Rest
  /-- A new last entry. -/
  | tail
  /-- Nothing: the next entry starts where the entry ended. -/
  | merged
  /-- A new entry in front of the next one. -/
  | inserted
  deriving DecidableEq

/-- Link the new entry `n + 1` behind the entry `j`. -/
def newEntry (n j : ℕ) (t : Table) : Table :=
  let t := t.modify j ({ · with index := n + 1 })
  t.modify (n + 1) ({ · with index := n + 1, start := (t j).stop, flag := 0 })

/-- Take `a1` bytes from the entry `j` of a table with `n` entries. -/
def cut (a1 n j : ℕ) (t : Table) : Except Fault (Rest × Table) :=
  let stop := (t j).stop
  let index := (t j).index
  let t := t.modify j fun e => { e with flag := 1, stop := (e.start + a1) % 2 ^ 64 }
  if j = n then
    if 99 ≤ n then throw (.undefined "n + 1")
    else return (.tail, (newEntry n j t).modify (n + 1) ({ · with stop := stop }))
  else if 99 < index then throw (.undefined "index")
  else if (t index).flag = 0 then return (.merged, t.modify index ({ · with start := stop }))
  else if 99 ≤ n then throw (.undefined "n + 1")
  else
    let t := newEntry n j t
    return (.inserted, t.modify (n + 1) ({ · with stop := (t index).start }))

/-- `block_alloc`: 0 if there is no free entry, 5 if the first one is too small. -/
def blockAlloc (a1 : ℕ) (m : Malloc) : Except Fault (ℕ × Malloc) :=
  let a1 := toInt a1
  match scanPages .b a1 99 1 m.p with
  | (p, none) => return (0, { m with p := p })
  | (p, some (i, j)) =>
    if a1 < ((p i).b j).size then do
      let (rest, t) ← cut a1 (p i).n j (p i).b
      let n := if rest = .merged then (p i).n else (p i).n + 1
      return ((t j).start, { m with
        p := Function.update p i { p i with b := t, n := n }
        leave := if rest = .tail then 0 else m.leave })
    else return (5, { m with p := p })

/-- `block_alloc_va`, which leaves `n` to `block_alloc`. An entry that is too small is marked, and
its size in the other table put into `leave`. -/
def blockAllocVa (a1 : ℕ) (m : Malloc) : Except Fault (ℕ × Malloc) :=
  let a1 := toInt a1
  match scanPages .c a1 99 1 m.p with
  | (p, none) => return (0, { m with p := p })
  | (p, some (i, j)) =>
    if a1 < ((p i).c j).size then do
      let (_, t) ← cut a1 (p i).n j (p i).c
      return ((t j).start, { m with p := Function.update p i { p i with c := t }, leave := 0 })
    else return (5, { m with
      p := Function.update p i { p i with c := (p i).c.modify j ({ · with flag := 1 }) }
      leave := toInt ((p i).b j).size })

/-! ## Freeing -/

/-- Both tables change in the entry `j`. -/
def Page.modify (x : Page) (j : ℕ) (f g : Block → Block) : Page :=
  { x with c := x.c.modify j f, b := x.b.modify j g }

/-- The body of `block_free_va` for a page whose entry `j` has the address. The entry before it is
always the first one, as `front` is set again for every page. -/
def release (j : ℕ) (x : Page) : Except Fault Page :=
  let front := 1
  let unused : Page := x.modify j ({ · with flag := 0 }) ({ · with flag := 0 })
  let index1 := (x.c j).index
  let next := x.c index1
  let nextB := x.b index1
  if 99 < index1 then throw (.undefined "index")
  else if j = 1 then
    if next.flag = 0 then
      if 99 < next.index then throw (.undefined "index")
      else pure <| x.modify j
        ({ · with index := (x.c next.index).index, flag := 0, stop := next.stop })
        ({ · with index := (x.b next.index).index, flag := 0, stop := nextB.stop })
    else pure unused
  else if index1 = j then
    if (x.c front).flag = 0 then
      pure <| x.modify front
        ({ · with index := front, stop := (x.b j).stop })
        ({ · with index := front, stop := (x.b j).stop })
    else pure unused
  else if (x.c front).flag = 0 then
    if next.flag = 0 then
      pure <| x.modify front
        ({ · with stop := next.stop, index := next.index })
        ({ · with stop := nextB.stop, index := nextB.index })
    else
      pure <| x.modify front
        ({ · with stop := (x.c j).stop, index := index1 })
        ({ · with stop := (x.b j).stop, index := index1 })
  else if next.flag = 0 then
    pure <| x.modify j
      ({ · with stop := next.stop, index := next.index, flag := 0 })
      ({ · with stop := nextB.stop, index := nextB.index, flag := 0 })
  else pure unused

/-- The loop of `block_free_va` from the page `i` on, over `k` pages. It looks at one entry of a
page: the first one of the first page, and then the one whose index stands in the entry before. -/
def freeLoop (va : ℕ) : ℕ → ℕ → ℕ → (ℕ → Page) → Except Fault (ℕ → Page)
  | 0, _, _, p => return p
  | k + 1, i, j, p =>
    if (p i).vaild ≠ 1 then freeLoop va k (i + 1) j p
    else if 99 < j then throw (.undefined "j")
    else do
      let x ← if ((p i).c j).start = va then release j (p i) else pure (p i)
      freeLoop va k (i + 1) (x.c j).index (Function.update p i x)

/-- `block_free_va`. -/
def blockFreeVa (va : ℕ) (m : Malloc) : Except Fault Malloc := do
  return { m with p := ← freeLoop va 99 1 1 m.p }

/-- `sys_user_better_free_page`. -/
def sysUserBetterFreePage (va : ℕ) (m : Malloc) : Except Fault Malloc := blockFreeVa va m

/-! ## Allocating -/

/-- The page `i` of the tables comes into use, with the addresses from `gUfreePage` on, of which the
next `a1` are skipped. -/
def Malloc.usePage (m : Malloc) (i a1 : ℕ) : Malloc :=
  { m with
    p := Function.update m.p i { m.p i with
      n := 1
      vaild := 1
      c := (m.p i).c.modify 1 ({ · with
        start := m.gUfreePage, stop := (m.gUfreePage + PGSIZE) % 2 ^ 64, index := 1 }) }
    gUfreePage := (m.gUfreePage + a1) % 2 ^ 64 }

/-- The page `i` of the tables gets `size` bytes of physical memory. -/
def Malloc.setPa (m : Malloc) (i pa size : ℕ) : Malloc :=
  { m with p := Function.update m.p i { m.p i with
      b := (m.p i).b.modify 1 ({ · with start := pa, stop := (pa + size) % 2 ^ 64, index := 1 }) } }

/-- The first loop of the first call: the number of the last page, or 100. -/
def firstLoop (pa : ℕ) : ℕ → ℕ → ℕ → Malloc → Except Fault (ℕ × Malloc)
  | 0, i, _, m => return (i, m)
  | k + 1, i, a1, m =>
    if (m.p i).vaild ≠ 0 then firstLoop pa k (i + 1) a1 m
    else do
      let (r, m) ← blockAllocVa a1 ((m.usePage i a1).setPa i pa PGSIZE)
      if r = 5 then
        let (_, m) ← blockAlloc a1 m
        firstLoop pa k (i + 1) m.leave m
      else return (i, m)

/-- The permissions of a page of the allocator. -/
abbrev betterPerm : ℕ := protToType (PROT_WRITE ||| PROT_READ) 1

/-- The second loop of the first call: `k` pages are mapped from `gMallocPage` on. -/
def mapLoop (pagetable : ℕ) : ℕ → ℕ → Malloc → Mach → Except Fault (Malloc × Mach)
  | 0, _, m, mach => return (m, mach)
  | k + 1, pa, m, mach => do
    let (pte, mach) ← pageWalk pagetable m.gMallocPage true mach
    let w ← mach.load pte
    let mach ← if w &&& PTE_V ≠ 0 then userVmUnmap pagetable m.gMallocPage PGSIZE 1 mach
      else pure mach
    let mach ← userVmMap pagetable m.gMallocPage PGSIZE pa betterPerm mach
    let (pa, mach) ← allocPage mach
    mapLoop pagetable k pa { m with gMallocPage := (m.gMallocPage + PGSIZE) % 2 ^ 64 } mach

/-- The first call of all, by the process with the page table. -/
def firstCall (pagetable a1 : ℕ) (m : Malloc) (mach : Mach) : Except Fault (ℕ × Malloc × Mach) := do
  let (pa, mach) ← allocPage mach
  let va := m.gUfreePage
  let (i, m) ← firstLoop pa 99 1 a1 { m with gMallocPage := m.gUfreePage, first := 1 }
  let (m, mach) ← mapLoop pagetable i pa m mach
  return (va, m, mach)

/-- The number of the first page of the tables that is not in use. -/
def unusedPage (p : ℕ → Page) : Option ℕ := (List.range' 1 99).find? fun i => (p i).vaild = 0

/-- The page table gets a page, and the tables one of theirs. -/
def addPage (pagetable a1 : ℕ) (m : Malloc) (mach : Mach) : Except Fault (Malloc × Mach) := do
  let (pa, mach) ← allocPage mach
  let mach ← userVmMap pagetable m.gMallocPage PGSIZE pa betterPerm mach
  let m := { m with gMallocPage := (m.gMallocPage + PGSIZE) % 2 ^ 64 }
  match unusedPage m.p with
  | none => return (m, mach)
  | some i => do
    let (_, m) ← blockAllocVa a1 (m.usePage i a1)
    let (_, m) ← blockAlloc a1 (m.setPa i pa a1)
    return (m, mach)

/-- The body of the endless loop of a later call: it returns an address, or goes on with a size. -/
def round (pagetable a1 : ℕ) (m : Malloc) (mach : Mach) :
    Except Fault ((ℕ ⊕ ℕ) × Malloc × Mach) := do
  let (va, m) ← blockAllocVa a1 m
  if va ≠ 0 ∧ va ≠ 5 then
    let (_, m) ← blockAlloc a1 m
    return (.inl va, m, mach)
  else if va = 5 then
    let a1 := m.leave
    let (_, m) ← blockAllocVa a1 m
    let (_, m) ← blockAlloc a1 m
    return (.inr a1, m, mach)
  else
    let va := m.gUfreePage
    let (m, mach) ← addPage pagetable a1 m mach
    return (if m.leave = 0 then .inl va else .inr a1, m, mach)

/-- `sys_user_better_allocate_page`, called with `a1` by the process with the page table, returns
`va`. -/
inductive SysUserBetterAllocatePage (pagetable : ℕ) :
    ℕ → Malloc → Mach → ℕ → Malloc → Mach → Prop
  | first {a1 va : ℕ} {m m' : Malloc} {mach mach' : Mach} (fresh : m.first = 0)
      (run : firstCall pagetable a1 m mach = .ok (va, m', mach')) :
      SysUserBetterAllocatePage pagetable a1 m mach va m' mach'
  | returns {a1 va : ℕ} {m m' : Malloc} {mach mach' : Mach} (used : m.first ≠ 0)
      (run : round pagetable a1 m mach = .ok (.inl va, m', mach')) :
      SysUserBetterAllocatePage pagetable a1 m mach va m' mach'
  | again {a1 a1' va : ℕ} {m m₁ m' : Malloc} {mach mach₁ mach' : Mach} (used : m.first ≠ 0)
      (run : round pagetable a1 m mach = .ok (.inr a1', m₁, mach₁))
      (rest : SysUserBetterAllocatePage pagetable a1' m₁ mach₁ va m' mach') :
      SysUserBetterAllocatePage pagetable a1 m mach va m' mach'

end HustOS.Mm.Better
