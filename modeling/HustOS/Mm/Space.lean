import HustOS.Mm.PageTable

/-!
# Address spaces

What builds and changes the address space of a process: `alloc_process` and `do_fork` of
`kernel/process.c`, `sys_user_allocate_page` and `sys_user_free_page` of `kernel/syscall.c`, and
`handle_user_page_fault` of `kernel/strap.c`, together with the loads and stores of a process in
user mode, which the hardware translates by the same tables.

The memory holds the page tables, the free list and the contents of all pages. What a process
structure records of its address space is a `Space`; its `mapped_info` is a list, and the number of
pages of the heap segment, which nothing reads, is left out, as are the kernel stack and the open
files beyond the pages that are allocated for them. A fork by a process that is not the running one
does not occur, so `current` is the parent.
-/

namespace HustOS.Mm

open Foundations

/-! ## Bytes and blocks of memory -/

namespace Mach

/-- The byte at an address; the word that holds it is little endian. -/
def byte (m : Mach) (a : ℕ) : ℕ := m.mem (a / 8 * 8) / 256 ^ (a % 8) % 256

/-- A store of a byte. -/
def setByte (m : Mach) (a b : ℕ) : Mach :=
  let w := m.mem (a / 8 * 8)
  m.store (a / 8 * 8)
    (w / 256 ^ (a % 8 + 1) * 256 ^ (a % 8 + 1) + b % 256 * 256 ^ (a % 8) + w % 256 ^ (a % 8))

/-- `memset(p, 0, n)`. -/
def memset (m : Mach) (p n : ℕ) : Except Fault Mach :=
  if p = 0 then throw .nullDeref
  else return { m with mem := fun a => if p ≤ a ∧ a < p + n then 0 else m.mem a }

/-- `memcpy(dest, src, n)` of aligned blocks. -/
def memcpy (m : Mach) (dest src n : ℕ) : Except Fault Mach :=
  if dest = 0 ∨ src = 0 then throw .nullDeref
  else return { m with mem := fun a =>
    if dest ≤ a ∧ a < dest + n then m.mem (src + (a - dest)) else m.mem a }

/-- A store through a pointer. -/
def poke (m : Mach) (p v : ℕ) : Except Fault Mach :=
  if p = 0 then throw .nullDeref else return m.store p v

end Mach

/-- `user_vm_map`. -/
def userVmMap (pageDir va size pa perm : ℕ) (m : Mach) : Except Fault Mach := do
  let (r, m) ← mapPages pageDir va size pa perm m
  if r ≠ 0 then throw (.panic "fail to user_vm_map .\n")
  return m

/-! ## The address space of a process -/

/-- Where the linker puts the kernel: the end of its image and the page of the trap vector. -/
structure Layout where
  gKernelEnd : ℕ
  trapSecStart : ℕ
  /-- The section is aligned to a page (`kernel/kernel.lds`). -/
  aligned : PGSIZE ∣ trapSecStart
  inside : trapSecStart < gKernelEnd
  gKernelEnd_le : gKernelEnd ≤ 2 ^ 56

/-- `enum segment_type`. -/
inductive SegType
  | stack
  | context
  | system
  | heap
  | code
  | data
  deriving DecidableEq

/-- `mapped_region`. -/
structure Region where
  va : ℕ
  npages : ℕ
  segType : SegType

/-- What a process structure says about the address space. -/
structure Space where
  pagetable : ℕ
  trapframe : ℕ
  /-- The used part of `mapped_info`. -/
  regions : List Region
  heapTop : ℕ
  heapBottom : ℕ
  /-- `free_pages_address`, the last one first. -/
  freePages : List ℕ

/-- The kernel supports at most 32 processes. -/
abbrev NPROC : ℕ := 32

abbrev MAX_HEAP_PAGES : ℕ := 32

abbrev USER_STACK_TOP : ℕ := 0x7ffff000

abbrev USER_FREE_ADDRESS_START : ℕ := PGSIZE * 1024

/-- `sizeof(trapframe)`. -/
abbrev TRAPFRAME_SIZE : ℕ := 280

/-- The pages that `alloc_process` takes before it maps any: those of the trapframe, the page
directory and the user stack are returned, those of the kernel stack and of `mapped_info` are
not. -/
def processPages (m : Mach) : Except Fault (ℕ × ℕ × ℕ × Mach) := do
  let (trapframe, m) ← allocPage m
  let m ← m.memset trapframe TRAPFRAME_SIZE
  let (pagetable, m) ← allocPage m
  let m ← m.memset pagetable PGSIZE
  let (_kstack, m) ← allocPage m
  let (userStack, m) ← allocPage m
  -- `regs.sp` is the second register of the trapframe
  let m := m.store (trapframe + 8) USER_STACK_TOP
  let (mappedInfo, m) ← allocPage m
  let m ← m.memset mappedInfo PGSIZE
  return (trapframe, pagetable, userStack, m)

/-- The pages that `alloc_process` maps. -/
def processMaps (lay : Layout) (trapframe pagetable userStack : ℕ) (m : Mach) :
    Except Fault Mach := do
  let m ← userVmMap pagetable (USER_STACK_TOP - PGSIZE) PGSIZE userStack
    (protToType (PROT_WRITE ||| PROT_READ) 1) m
  let m ← userVmMap pagetable trapframe PGSIZE trapframe
    (protToType (PROT_WRITE ||| PROT_READ) 0) m
  userVmMap pagetable lay.trapSecStart PGSIZE lay.trapSecStart
    (protToType (PROT_READ ||| PROT_EXEC) 0) m

/-- `alloc_process`, once a free process structure is found. -/
def allocProcess (lay : Layout) (m : Mach) : Except Fault (Space × Mach) := do
  let (trapframe, pagetable, userStack, m) ← processPages m
  let m ← processMaps lay trapframe pagetable userStack m
  -- `init_proc_file_management`
  let (pfiles, m) ← allocPage m
  if pfiles = 0 then throw .nullDeref
  let p : Space :=
    { pagetable, trapframe
      regions := [⟨USER_STACK_TOP - PGSIZE, 1, .stack⟩, ⟨trapframe, 1, .context⟩,
        ⟨lay.trapSecStart, 1, .system⟩, ⟨USER_FREE_ADDRESS_START, 0, .heap⟩]
      heapTop := USER_FREE_ADDRESS_START
      heapBottom := USER_FREE_ADDRESS_START
      freePages := [] }
  return (p, m)

/-! ## System calls -/

/-- The page of the heap that `sys_user_allocate_page` chooses: the one released last, or a new one
at the top. -/
def heapVa (p : Space) : Except Fault (ℕ × Space) :=
  match p.freePages with
  | va :: rest =>
    if va < p.heapTop then return (va, { p with freePages := rest })
    else throw (.assertion "va < current[readtp()]->user_heap.heap_top")
  | [] => return (p.heapTop, { p with heapTop := (p.heapTop + PGSIZE) % 2 ^ 64 })

/-- `sys_user_allocate_page`. -/
def sysUserAllocatePage (p : Space) (m : Mach) : Except Fault (ℕ × Space × Mach) := do
  let (pa, m) ← allocPage m
  let (va, p) ← heapVa p
  let m ← userVmMap p.pagetable va PGSIZE pa (protToType (PROT_WRITE ||| PROT_READ) 1) m
  return (va, p, m)

/-- `sys_user_free_page`. The link that `free_page` stores traps to machine mode where the address
is not a multiple of 8. -/
def sysUserFreePage (va : ℕ) (p : Space) (m : Mach) : Except Fault (Space × Mach) := do
  let m ← userVmUnmap p.pagetable va PGSIZE 1 m
  if va % 8 ≠ 0 then throw (.panic "Misaligned AMO!")
  if MAX_HEAP_PAGES ≤ p.freePages.length then throw (.undefined "free_pages_address[]")
  return ({ p with freePages := va :: p.freePages }, m)

/-- The index of a released page in the heap, as `do_fork` computes it. -/
def heapIndex (p : Space) (va : ℕ) : ℕ := (va + (2 ^ 64 - p.heapBottom)) % 2 ^ 64 / PGSIZE

/-- `free_block_filter[index]`: set for the released pages; the `memset` clears 32 bytes, so only
the first eight of the others are zero, and the rest are `junk` on the stack. -/
def freeBlockFilter (p : Space) (junk : ℕ → ℕ) (index : ℕ) : ℕ :=
  if index ∈ p.freePages.map (heapIndex p) then 1
  else if 4 * index < MAX_HEAP_PAGES then 0
  else junk index

/-- The loop of `do_fork` over `n` blocks of the heap. -/
def forkHeapLoop (parent : Space) (junk : ℕ → ℕ) (pagetable : ℕ) : ℕ → ℕ → Mach →
    Except Fault Mach
  | 0, _, m => return m
  | n + 1, block, m => do
    let index := heapIndex parent block
    if MAX_HEAP_PAGES ≤ index then throw (.undefined "free_block_filter[]")
    if freeBlockFilter parent junk index ≠ 0 then
      forkHeapLoop parent junk pagetable n (block + PGSIZE) m
    else
      let (pte, m) ← pageWalk pagetable block true m
      let m ← m.poke pte 0x100
      let (pa, m) ← lookupPa parent.pagetable block m
      let m ← userVmMap pagetable block PGSIZE pa (protToType (PROT_READ ||| PROT_COW) 1) m
      forkHeapLoop parent junk pagetable n (block + PGSIZE) m

/-- The number of blocks from the bottom of the heap to its top. -/
def heapBlocks (p : Space) : ℕ := (p.heapTop - p.heapBottom + (PGSIZE - 1)) / PGSIZE

/-- The loop of `do_fork` over the pages of a data segment. -/
def forkDataLoop (parent : Space) (pagetable : ℕ) : ℕ → ℕ → Mach → Except Fault Mach
  | 0, _, m => return m
  | n + 1, va, m => do
    let (addr, m) ← lookupPa parent.pagetable va m
    let (newaddr, m) ← allocPage m
    let m ← m.memcpy newaddr addr PGSIZE
    let (_, m) ← mapPages pagetable va PGSIZE newaddr (protToType (PROT_WRITE ||| PROT_READ) 1) m
    forkDataLoop parent pagetable n (va + PGSIZE) m

/-- One iteration of the loop of `do_fork` over the regions of the parent. -/
def forkRegion (parent : Space) (junk : ℕ → ℕ) (region : Region) (child : Space) (m : Mach) :
    Except Fault (Space × Mach) :=
  match region.segType with
  | .context => do
    let m ← m.memcpy child.trapframe parent.trapframe TRAPFRAME_SIZE
    return (child, m)
  | .stack => do
    let (dest, m) ← lookupPa child.pagetable (USER_STACK_TOP - PGSIZE) m
    let (src, m) ← lookupPa parent.pagetable region.va m
    let m ← m.memcpy dest src PGSIZE
    return (child, m)
  | .heap => do
    if ¬ ∀ va ∈ parent.freePages, heapIndex parent va < MAX_HEAP_PAGES then
      throw (.undefined "free_block_filter[]")
    let m ← forkHeapLoop parent junk child.pagetable (heapBlocks parent) parent.heapBottom m
    return ({ child with
      heapTop := parent.heapTop, heapBottom := parent.heapBottom, freePages :=
        parent.freePages }, m)
  | .code => do
    let (pa, m) ← lookupPa parent.pagetable region.va m
    let (_, m) ← mapPages child.pagetable region.va (region.npages * PGSIZE) pa
      (protToType (PROT_EXEC ||| PROT_READ) 1) m
    return ({ child with regions := child.regions ++ [region] }, m)
  | .data => do
    let m ← forkDataLoop parent child.pagetable region.npages region.va m
    return ({ child with regions := child.regions ++ [region] }, m)
  | .system => return (child, m)

/-- The loop of `do_fork` over the regions of the parent. -/
def forkLoop (parent : Space) (junk : ℕ → ℕ) : List Region → Space → Mach →
    Except Fault (Space × Mach)
  | [], child, m => return (child, m)
  | region :: regions, child, m => do
    let (child, m) ← forkRegion parent junk region child m
    forkLoop parent junk regions child m

/-- `do_fork`, over the `junk` on its stack. -/
def doFork (lay : Layout) (junk : ℕ → ℕ) (parent : Space) (m : Mach) :
    Except Fault (Space × Mach) := do
  let (child, m) ← allocProcess lay m
  let (child, m) ← forkLoop parent junk parent.regions child m
  -- `regs.a0` is the tenth register of the trapframe
  return (child, m.store (child.trapframe + 72) 0)

/-! ## User mode -/

/-- `handle_user_page_fault` of a store fault. The source tests `*pte&&0x100!=0`, which holds of
every entry but zero. -/
def handleUserPageFault (stval sp : ℕ) (p : Space) (m : Mach) : Except Fault Mach := do
  let (pa, m) ← lookupPa p.pagetable stval m
  if stval < sp ∧ pa = 0 then throw (.panic "this address is not available!")
  let (pa, m) ← allocPage m
  let (pte, m) ← pageWalk p.pagetable stval true m
  let w ← m.load pte
  let m := if w ≠ 0 then m.store pte (w &&& 0xffffeffe) else m
  let (_, m) ← mapPages p.pagetable stval 1 pa (protToType (PROT_WRITE ||| PROT_READ) 1) m
  return m

/-- The physical address to which the hardware translates `va` for an access in user mode that needs
the permissions `perm`. -/
def translate (pagetable perm va : ℕ) (m : Mach) : Option ℕ :=
  if MAXVA ≤ va then none
  else
    match pteOf pagetable va m with
    | none => none
    | some w =>
      if w &&& (PTE_V ||| PTE_U ||| perm) = PTE_V ||| PTE_U ||| perm then
        some (pte2pa w + va % PGSIZE)
      else none

/-- A store of a byte at a physical address. -/
def storeAccess (pa b : ℕ) (m : Mach) : Except Fault Mach :=
  if pa < DRAM_BASE then throw (.panic "Store/AMO access fault!") else return m.setByte pa b

/-- A store of a byte in user mode, with the page fault if there is one and the second attempt. -/
def userStore (va sp b : ℕ) (p : Space) (m : Mach) : Except Fault Mach :=
  match translate p.pagetable PTE_W va m with
  | some pa => storeAccess pa b m
  | none => do
    let m ← handleUserPageFault va sp p m
    match translate p.pagetable PTE_W va m with
    | some pa => storeAccess pa b m
    | none => throw .spin

/-- A load of a byte in user mode. A load fault changes nothing, so the process repeats it for
ever. -/
def userLoad (va sp : ℕ) (p : Space) (m : Mach) : Except Fault ℕ :=
  match translate p.pagetable PTE_R va m with
  | some pa => if pa < DRAM_BASE then throw (.panic "Load access fault!") else return m.byte pa
  | none => do
    let (pa, _) ← lookupPa p.pagetable va m
    if va < sp ∧ pa = 0 then throw (.panic "this address is not available!")
    throw .spin

/-! ## Runs -/

/-- The memory and the address spaces of the processes, in the order of their process ids. -/
structure Sys where
  mach : Mach
  spaces : List Space

/-- What the process `i` does next. -/
inductive Event
  | allocate (i : ℕ)
  | free (i va : ℕ)
  | fork (i : ℕ) (junk : ℕ → ℕ)
  | store (i va sp b : ℕ)

/-- The address space of a process that exists. -/
def Sys.space (s : Sys) (i : ℕ) : Except Fault Space :=
  match s.spaces[i]? with
  | some p => return p
  | none => throw (.undefined "current")

/-- An event from its trap to the return to user mode. -/
def exec (lay : Layout) (e : Event) (s : Sys) : Except Fault Sys :=
  match e with
  | .allocate i => do
    let p ← s.space i
    let (_, p, m) ← sysUserAllocatePage p s.mach
    return { mach := m, spaces := s.spaces.set i p }
  | .free i va => do
    let p ← s.space i
    let (p, m) ← sysUserFreePage va p s.mach
    return { mach := m, spaces := s.spaces.set i p }
  | .fork i junk => do
    let p ← s.space i
    if NPROC ≤ s.spaces.length then throw (.panic "cannot find any free process structure.\n")
    let (child, m) ← doFork lay junk p s.mach
    return { mach := m, spaces := s.spaces ++ [child] }
  | .store i va sp b => do
    let p ← s.space i
    let m ← userStore va sp b p s.mach
    return { s with mach := m }

/-- A page of a program: its page number, its contents by words, and the type of the segment if one
starts there. -/
structure ProgPage where
  vpn : ℕ
  contents : ℕ → ℕ
  segType : Option SegType

/-- The pages of a program are allocated, mapped and filled one by one. -/
def loadPages : List ProgPage → Space → Mach → Except Fault (Space × Mach)
  | [], p, m => return (p, m)
  | page :: prog, p, m => do
    let (pa, m) ← allocPage m
    if pa = 0 then throw (.panic "uvmalloc mem alloc falied\n")
    let m ← userVmMap p.pagetable (PGSIZE * page.vpn) PGSIZE pa
      (protToType (PROT_WRITE ||| PROT_READ ||| PROT_EXEC) 1) m
    let m := { m with mem := fun a =>
      if pa ≤ a ∧ a < pa + PGSIZE then page.contents (a - pa) else m.mem a }
    if page.segType ≠ none ∧ page.segType ≠ some .code ∧ page.segType ≠ some .data then
      throw (.panic "unknown program segment encountered, segment flag:%d.\n")
    let regions := page.segType.elim [] fun t => [⟨PGSIZE * page.vpn, 1, t⟩]
    loadPages prog { p with regions := p.regions ++ regions } m

/-- `load_user_program` for a program whose pages are apart from the stack and the trapframe. -/
def loadUserProgram (lay : Layout) (prog : List ProgPage) (s : Sys) : Except Fault Sys := do
  if NPROC ≤ s.spaces.length then throw (.panic "cannot find any free process structure.\n")
  let (p, m) ← allocProcess lay s.mach
  let (p, m) ← loadPages prog p m
  return { mach := m, spaces := s.spaces ++ [p] }

/-- The states of the runs whose events satisfy `C` where they happen. The rest of the kernel, from
`kern_vm_init` to the file system, takes pages at any time. -/
inductive Run (lay : Layout) (C : Sys → Event → Prop) : Sys → Prop
  | boot {m : Mach} {gMemSize : ℕ} {mem : ℕ → ℕ}
      (init : pmmInit lay.gKernelEnd gMemSize mem = .ok m) : Run lay C ⟨m, []⟩
  | take {s : Sys} {p : ℕ} {m : Mach} (run : Run lay C s) (alloc : allocPage s.mach = .ok (p, m)) :
      Run lay C { s with mach := m }
  | load {s s' : Sys} {prog : List ProgPage} (run : Run lay C s)
      (load : loadUserProgram lay prog s = .ok s') : Run lay C s'
  | step {s s' : Sys} {e : Event} (run : Run lay C s) (cond : C s e)
      (exec : exec lay e s = .ok s') : Run lay C s'

/-- Boot with an empty memory, one process without a program, and then events. -/
def runFrom (lay : Layout) (gMemSize : ℕ) (es : List Event) : Except Fault Sys := do
  let m ← pmmInit lay.gKernelEnd gMemSize fun _ => 0
  let s ← loadUserProgram lay [] ⟨m, []⟩
  es.foldlM (fun s e => exec lay e s) s

theorem Run.foldlM {lay : Layout} {C : Sys → Event → Prop} {es : List Event} {s s' : Sys}
    (run : Run lay C s) (hC : ∀ e ∈ es, ∀ s, C s e)
    (h : es.foldlM (fun s e => Mm.exec lay e s) s = .ok s') : Run lay C s' := by
  induction es generalizing s with
  | nil =>
    cases h
    exact run
  | cons e es ih =>
    rw [List.foldlM_cons] at h
    obtain ⟨s₁, h₁, h⟩ := (bind_ok_iff _ _ _).1 h
    exact ih (run.step (hC e List.mem_cons_self s) h₁)
      (fun e' he' => hC e' (List.mem_cons_of_mem e he')) h

theorem Run.of_runFrom {lay : Layout} {C : Sys → Event → Prop} {gMemSize : ℕ} {es : List Event}
    {s : Sys} (h : runFrom lay gMemSize es = .ok s) (hC : ∀ e ∈ es, ∀ s, C s e) : Run lay C s := by
  rw [runFrom] at h
  obtain ⟨m, h₁, h⟩ := (bind_ok_iff _ _ _).1 h
  obtain ⟨s₁, h₂, h⟩ := (bind_ok_iff _ _ _).1 h
  exact Run.foldlM (.load (.boot h₁) h₂) hC h

end HustOS.Mm
