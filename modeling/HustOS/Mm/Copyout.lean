import HustOS.Foundations.Traced
import HustOS.Mm.FreePages
import Mathlib.Data.List.TakeWhile

/-!
# Results of system calls in user memory

`sys_user_read`, `sys_user_stat`, `sys_user_disk_stat`, `sys_user_readdir` and `sys_user_rcwd` of
`kernel/syscall.c` hand their results over through a pointer of the process. Each translates the
pointer once, by `lookup_pa` or `user_va_to_pa`, and the functions below it in `kernel/proc_file.c`,
`kernel/vfs.c` and `kernel/rfs.c` store through the physical address, which the kernel maps to
itself.

A call is a `Traced` computation whose trace has every byte it stores for the process, with the
virtual address that the byte stands for. The file system is a parameter (`Files`): what it answers
is arbitrary, and so is what it does to the memory on the way. The text of a string is taken before
its first byte is stored.

`copyout_iff` says when all those bytes go where the process itself could have stored them: neither
translation asks whether the process may write to the page, and neither is asked again at the end of
the page.
-/

namespace HustOS.Mm

open Foundations Traced

/-! ## Stores of the kernel -/

/-- What the kernel page table maps writable: from the end of the text to the end of the memory. -/
structure KernelMap where
  etext : ℕ
  top : ℕ
  above : KERN_BASE ≤ etext
  top_le : top ≤ DRAM_BASE + PKE_MAX_ALLOWABLE_RAM

/-- A byte stored for a process: its virtual and its physical address, and the memory in which its
pointer was translated. -/
structure Write where
  va : ℕ
  pa : ℕ
  mach : Mach

/-- The process may itself store a byte there. -/
def Write.Allowed (pt : ℕ) (w : Write) : Prop := translate pt PTE_W w.va w.mach = some w.pa

abbrev Kern (α : Type) : Type := Traced Write Fault Mach α

/-- A pointer of a process and its translation. -/
structure UserPtr where
  va : ℕ
  pa : ℕ
  mach : Mach

/-- The translation of a pointer by `lookup`. -/
def translated (va : ℕ) (lookup : Mach → Except Fault (ℕ × Mach)) : Kern UserPtr :=
  lift fun m => do
    let (pa, m') ← lookup m
    return (⟨va, pa, m⟩, m')

/-- A store of `size` bytes at an offset from a pointer. -/
structure KernStore where
  offset : ℕ
  size : ℕ
  value : ℕ

/-- The store does not trap. -/
def KernStore.Reaches (km : KernelMap) (pa : ℕ) (st : KernStore) : Prop :=
  let a := (pa + st.offset) % 2 ^ 64
  a % st.size = 0 ∧ km.etext ≤ a ∧ a + st.size ≤ km.top

instance (km : KernelMap) (pa : ℕ) (st : KernStore) : Decidable (st.Reaches km pa) :=
  inferInstanceAs (Decidable (_ ∧ _ ∧ _))

/-- The bytes of a store, from the first on. -/
def KernStore.bytes (p : UserPtr) (st : KernStore) : List Write :=
  (List.range st.size).map fun j =>
    ⟨(p.va + st.offset + j) % 2 ^ 64, (p.pa + st.offset) % 2 ^ 64 + j, p.mach⟩

/-- A store of the kernel through a translated pointer. -/
def kernStore (km : KernelMap) (p : UserPtr) (st : KernStore) : Kern Unit := fun m =>
  let a := (p.pa + st.offset) % 2 ^ 64
  if st.Reaches km p.pa then
    (st.bytes p, .ok ((), (List.range st.size).foldl
      (fun m j => m.setByte (a + j) (st.value / 256 ^ j % 256)) m))
  else ([], .error (if a % st.size = 0 then .panic "usertrap: not from user mode"
    else .panic "Misaligned AMO!"))

/-- Stores one after another. -/
def kernStores (km : KernelMap) (p : UserPtr) : List KernStore → Kern Unit
  | [] => return ()
  | st :: l => do
    kernStore km p st
    kernStores km p l

/-- The stores of `strcpy`: the bytes of the string up to its first zero, and a zero. -/
def strcpyStores (offset : ℕ) : List ℕ → List KernStore
  | [] => [⟨offset, 1, 0⟩]
  | c :: s => if c = 0 then [⟨offset, 1, 0⟩] else ⟨offset, 1, c⟩ :: strcpyStores (offset + 1) s

/-! ## The calls -/

/-- `struct istat`. -/
structure Istat where
  stInum : ℕ
  stSize : ℕ
  stType : ℕ
  stNlinks : ℕ
  stBlocks : ℕ

/-- An entry of a directory. -/
structure Direntry where
  name : List ℕ
  inum : ℕ

/-- What the file system answers. -/
structure Files where
  /-- `readable` of an open file. -/
  readable : ℤ → Mach → Bool
  /-- `vfs_read`: the length it returns and the buffer. -/
  vfsRead : ℤ → ℕ → Mach → Except Fault ((ℕ × (ℕ → ℕ)) × Mach)
  /-- The fields of the vinode of an open file. -/
  vinode : ℤ → Mach → Istat
  /-- The fields of the disk inode of an open file, if it can be read. -/
  readDinode : ℤ → Mach → Except Fault (Option Istat × Mach)
  /-- The release of the page of the disk inode. -/
  freeDinode : Mach → Except Fault (Unit × Mach)
  /-- The next entry of an open directory, if there is one. -/
  direntry : ℤ → Mach → Except Fault (Option Direntry × Mach)
  /-- The name of the working directory. -/
  cwdName : Mach → List ℕ

/-- The value of an `int` as a `uint64`. -/
def sext32 (x : ℕ) : ℕ := if x % 2 ^ 32 < 2 ^ 31 then x % 2 ^ 32 else x % 2 ^ 32 + (2 ^ 64 - 2 ^ 32)

/-- `MAX_FILE_NAME_LEN`, the place of `inum` in `struct dir`. -/
abbrev MAX_FILE_NAME_LEN : ℕ := 32

/-- The stores of `vfs_stat`. -/
def vfsStatStores (st : Istat) : List KernStore :=
  [⟨0, 4, st.stInum⟩, ⟨4, 4, st.stSize⟩, ⟨8, 4, st.stType⟩, ⟨12, 4, st.stNlinks⟩,
    ⟨16, 4, st.stBlocks⟩]

/-- The stores of `rfs_disk_stat`. -/
def rfsDiskStatStores (st : Istat) : List KernStore := ⟨0, 4, 1⟩ :: vfsStatStores st

/-- The stores of `rfs_readdir`. -/
def rfsReaddirStores (e : Direntry) : List KernStore :=
  strcpyStores 0 e.name ++ [⟨MAX_FILE_NAME_LEN, 4, e.inum⟩]

/-- The stores of `do_read` for a buffer of `count` bytes, to which it adds a zero. -/
def doReadStores (count : ℕ) (buffer : ℕ → ℕ) : List KernStore :=
  strcpyStores 0 ((List.range count).map buffer)

section Calls

variable (km : KernelMap) (files : Files) (pt : ℕ)

/-- `do_read`. -/
def doRead (fd : ℤ) (buf : UserPtr) (count : ℕ) : Kern ℕ := do
  let m ← Traced.get
  if files.readable fd m then
    let (len, buffer) ← lift (files.vfsRead fd count)
    kernStores km buf (doReadStores count buffer)
    return sext32 len
  else fail (.panic "do_read: no readable file!\n")

/-- The address, and the number of bytes that the iteration of `sys_user_read` at `i` asks for. -/
def readChunk (bufva count i : ℕ) : ℕ × ℕ :=
  let addr := (bufva + i) % 2 ^ 64
  let off := addr - roundDown addr PGSIZE
  (addr, if count - i < PGSIZE - off then count - i else PGSIZE - off)

/-- The body of the loop of `sys_user_read`: what `do_read` returns. -/
def readBody (fd : ℤ) (bufva count i : ℕ) : Kern ℕ := do
  let (addr, len) := readChunk bufva count i
  let p ← translated addr (lookupPa pt addr)
  let off := addr - roundDown addr PGSIZE
  doRead km files fd { p with pa := (p.pa + off) % 2 ^ 64 } len

/-- The loop of `sys_user_read`, for at most `fuel` iterations. -/
def readLoop (fd : ℤ) (bufva count : ℕ) : ℕ → ℕ → Kern ℕ
  | 0, _ => fail .spin
  | fuel + 1, i =>
    if i < count then do
      let r ← readBody km files pt fd bufva count i
      if r < (readChunk bufva count i).2 then return sext32 (i + r)
      else readLoop fd bufva count fuel (sext32 (i + r))
    else return count

/-- `sys_user_read`. -/
def sysUserRead (fuel : ℕ) (fd : ℤ) (bufva count : ℕ) : Kern ℕ :=
  readLoop km files pt fd bufva count fuel 0

/-- `sys_user_stat`. -/
def sysUserStat (fd : ℤ) (istat : ℕ) : Kern ℕ := do
  let pistat ← translated istat (userVaToPa pt istat)
  let m ← Traced.get
  kernStores km pistat (vfsStatStores (files.vinode fd m))
  return 0

/-- `sys_user_disk_stat`. -/
def sysUserDiskStat (fd : ℤ) (istat : ℕ) : Kern ℕ := do
  let pistat ← translated istat (userVaToPa pt istat)
  match ← lift (files.readDinode fd) with
  | none => return 2 ^ 64 - 1
  | some dinode =>
    kernStores km pistat (rfsDiskStatStores dinode)
    lift files.freeDinode
    return 0

/-- `sys_user_readdir`. -/
def sysUserReaddir (fd : ℤ) (vdir : ℕ) : Kern ℕ := do
  let pdir ← translated vdir (userVaToPa pt vdir)
  match ← lift (files.direntry fd) with
  | none => return 2 ^ 64 - 1
  | some e =>
    kernStores km pdir (rfsReaddirStores e)
    return 0

/-- `sys_user_rcwd`. -/
def sysUserRcwd (path : ℕ) : Kern ℕ := do
  let p ← translated path (userVaToPa pt path)
  let m ← Traced.get
  kernStores km p (strcpyStores 0 (files.cwdName m))
  return 0

end Calls

/-- A system call that hands its result over through a pointer. -/
inductive OutCall
  | read (fd : ℤ) (bufva count : ℕ)
  | stat (fd : ℤ) (istat : ℕ)
  | diskStat (fd : ℤ) (istat : ℕ)
  | readdir (fd : ℤ) (vdir : ℕ)
  | rcwd (path : ℕ)

/-- A call of the process with the page table `pt`. -/
def OutCall.run (km : KernelMap) (files : Files) (pt fuel : ℕ) : OutCall → Kern ℕ
  | .read fd bufva count => sysUserRead km files pt fuel fd bufva count
  | .stat fd istat => sysUserStat km files pt fd istat
  | .diskStat fd istat => sysUserDiskStat km files pt fd istat
  | .readdir fd vdir => sysUserReaddir km files pt fd vdir
  | .rcwd path => sysUserRcwd km files pt path

/-! ## When the process could have stored the result itself -/

/-- The process may write to the page of `va`, whose frame is `f`. -/
def UserFrame (pt va : ℕ) (m : Mach) (f : ℕ) : Prop :=
  va < MAXVA ∧ ∃ w ∈ pteOf pt va m,
    w &&& (PTE_V ||| PTE_U ||| PTE_W) = PTE_V ||| PTE_U ||| PTE_W ∧ pte2pa w = f

/-- The process may write to the page of `va` and to the page `d` pages further on, and the frames
are as far apart as the pages. -/
def PagesOk (pt va : ℕ) (m : Mach) (d : ℕ) : Prop :=
  ∃ f, UserFrame pt va m f ∧
    UserFrame pt ((va + d * PGSIZE) % 2 ^ 64) m ((f + d * PGSIZE) % 2 ^ 64)

/-- The physical address that the kernel finds for a pointer. -/
def destOf (pt va : ℕ) (m : Mach) : ℕ := (userVaToPa pt va m).toOption.elim 0 Prod.fst

/-- The stores `l` through the pointer `va` in the memory `m`: those that come before the first that
traps are to pages that the process may write to, in frames that follow each other. -/
def OutputOk (km : KernelMap) (pt va : ℕ) (m : Mach) (l : List KernStore) : Prop :=
  ∀ st ∈ l.takeWhile fun st => decide (st.Reaches km (destOf pt va m)), ∀ j < st.size,
    PagesOk pt va m ((va % PGSIZE + st.offset + j) / PGSIZE)

/-- The states `i` and `m` in which the loop of `sys_user_read` tests its condition. -/
inductive ReadAt (km : KernelMap) (files : Files) (pt : ℕ) (fd : ℤ) (bufva count : ℕ) (m₀ : Mach) :
    ℕ → Mach → Prop
  | start : ReadAt km files pt fd bufva count m₀ 0 m₀
  | next {i r : ℕ} {m m' : Mach} (here : ReadAt km files pt fd bufva count m₀ i m) (lt : i < count)
      (body : (readBody km files pt fd bufva count i m).2 = .ok (r, m'))
      (full : (readChunk bufva count i).2 ≤ r) : ReadAt km files pt fd bufva count m₀
        (sext32 (i + r)) m'

/-- The condition on a call in the memory `m`. -/
def OutCall.Ok (km : KernelMap) (files : Files) (pt : ℕ) (m : Mach) : OutCall → Prop
  | .read fd bufva count => ∀ i m', ReadAt km files pt fd bufva count m i m' → i < count →
      files.readable fd m' → ∀ len buffer m'',
      files.vfsRead fd (readChunk bufva count i).2 m' = .ok ((len, buffer), m'') →
      OutputOk km pt (readChunk bufva count i).1 m'
        (doReadStores (readChunk bufva count i).2 buffer)
  | .stat fd istat => OutputOk km pt istat m (vfsStatStores (files.vinode fd m))
  | .diskStat fd istat => ∀ dinode m', files.readDinode fd m = .ok (some dinode, m') →
      OutputOk km pt istat m (rfsDiskStatStores dinode)
  | .readdir fd vdir => ∀ e m', files.direntry fd m = .ok (some e, m') →
      OutputOk km pt vdir m (rfsReaddirStores e)
  | .rcwd path => OutputOk km pt path m (strcpyStores 0 (files.cwdName m))

/-! ## The translation of a pointer -/

/-- Two addresses of one page have one entry. -/
theorem pteOf_page {pt va va' : ℕ} (m : Mach) (h : va / PGSIZE = va' / PGSIZE) :
    pteOf pt va m = pteOf pt va' m := by
  have hpx : ∀ level, px level va = px level va' := by
    intro level
    have hdiv : ∀ x : ℕ, x / 2 ^ (12 + 9 * level) = x / PGSIZE / 2 ^ (9 * level) := by
      intro x
      rw [Nat.div_div_eq_div_mul, pow_add]
      rfl
    rw [px_eq, px_eq, hdiv, hdiv, h]
  have hidx : ∀ level, idx level va = idx level va' := fun level => Fin.ext (hpx level)
  rw [pteOf, pteOf, hidx, hidx, hpx]

/-- What `lookup_pa` returns in any memory: a frame, which is that of the page if the process may
write to it and it is not `NULL`. -/
theorem exists_lookupPa (pt va : ℕ) (m : Mach) : ∃ f, lookupPa pt va m = .ok (f, m) ∧ PGSIZE ∣ f ∧
    f < 2 ^ 64 ∧ (f ≠ 0 → va < MAXVA ∧ ∀ f', UserFrame pt va m f' → f' = f) := by
  by_cases hva : MAXVA ≤ va
  · exact ⟨0, if_pos hva, dvd_zero _, by decide, fun h => absurd rfl h⟩
  rw [lookupPa, if_neg hva, pageWalk_false (by omega)]
  simp only [ok_bind, pure_eq_ok]
  cases hq : nodeAt (entry m) pt [idx 2 va, idx 1 va] with
  | none => exact ⟨0, rfl, dvd_zero _, by decide, fun h => absurd rfl h⟩
  | some q =>
    simp only [Option.map_some, Option.getD_some]
    split
    · exact ⟨0, rfl, dvd_zero _, by decide, fun h => absurd rfl h⟩
    · split
      · exact ⟨0, rfl, dvd_zero _, by decide, fun h => absurd rfl h⟩
      · refine ⟨_, rfl, ?_, ?_, fun _ => ⟨by omega, ?_⟩⟩
        · rw [pte2pa, Nat.shiftLeft_eq]
          exact (Nat.dvd_mod_iff (by decide)).2 (Dvd.intro_left _ rfl)
        · exact Nat.mod_lt _ (by decide)
        · rintro f' ⟨-, w, hw, -, rfl⟩
          rw [pteOf, hq] at hw
          exact congrArg pte2pa (Option.some.inj hw).symm

/-! ## Stores that do not trap -/

section Stores

variable {km : KernelMap} {pt : ℕ} {p : UserPtr} {st : KernStore} {P : Write → Prop} {m : Mach}

theorem kernStore_of_reaches (h : st.Reaches km p.pa) (m : Mach) :
    ∃ m', kernStore km p st m = (st.bytes p, .ok ((), m')) :=
  ⟨_, if_pos h⟩

theorem kernStore_of_traps (h : ¬ st.Reaches km p.pa) (m : Mach) :
    ∃ e, kernStore km p st m = ([], .error e) :=
  ⟨_, if_neg h⟩

/-- The bytes stored are those of the stores before the first that traps. -/
theorem emits_kernStores (l : List KernStore) (m : Mach) : Emits P (kernStores km p l) m ↔
    ∀ st ∈ l.takeWhile fun st => decide (st.Reaches km p.pa), ∀ w ∈ st.bytes p, P w := by
  induction l generalizing m with
  | nil => simp [kernStores]
  | cons st l ih =>
    rw [kernStores, emits_bind]
    by_cases h : st.Reaches km p.pa
    · obtain ⟨m', hm'⟩ := kernStore_of_reaches h m
      simp only [Emits, hm', List.takeWhile_cons, h, decide_true, if_true, List.forall_mem_cons,
        Except.ok.injEq, Prod.mk.injEq]
      refine and_congr_right fun _ => ⟨fun hl => (ih m').1 (hl () m' ⟨trivial, rfl⟩), ?_⟩
      rintro hl a m'' ⟨-, rfl⟩
      exact (ih m').2 hl
    · obtain ⟨e, he⟩ := kernStore_of_traps h m
      simp [Emits, he, h]

/-- The pointer `p` is the translation of its address to the frame `f` in its memory. -/
structure PointsTo (pt : ℕ) (p : UserPtr) (f : ℕ) : Prop where
  lookup : lookupPa pt p.va p.mach = .ok (f, p.mach)
  pa_eq : p.pa = (f + p.va % PGSIZE) % 2 ^ 64
  aligned : PGSIZE ∣ f
  lt : f < 2 ^ 64
  frame : f ≠ 0 → p.va < MAXVA ∧ ∀ f', UserFrame pt p.va p.mach f' → f' = f

theorem translate_iff {va pa : ℕ} : translate pt PTE_W va m = some pa ↔
    ∃ f, UserFrame pt va m f ∧ f + va % PGSIZE = pa := by
  by_cases hva : MAXVA ≤ va
  · simp [translate, UserFrame, hva]
  rw [translate, if_neg hva]
  simp only [UserFrame, not_le.1 hva, true_and, Option.mem_def]
  cases pteOf pt va m with
  | none => simp
  | some w =>
    by_cases hw : w &&& (PTE_V ||| PTE_U ||| PTE_W) = PTE_V ||| PTE_U ||| PTE_W
    · simp [hw]
    · simp [hw]

/-- A byte is where the process could have stored it if its page may be written to and the frame of
that page is as far from the frame of the pointer as the page from that of the pointer. -/
theorem PointsTo.allowed_iff {f j : ℕ} (h : PointsTo pt p f) (hr : st.Reaches km p.pa)
    (hj : j < st.size) {d : ℕ} (hd : d = (p.va % PGSIZE + st.offset + j) / PGSIZE) :
    Write.Allowed pt ⟨(p.va + st.offset + j) % 2 ^ 64, (p.pa + st.offset) % 2 ^ 64 + j, p.mach⟩ ↔
      UserFrame pt ((p.va + d * PGSIZE) % 2 ^ 64) p.mach ((f + d * PGSIZE) % 2 ^ 64) := by
  have hlt : (p.pa + st.offset) % 2 ^ 64 + j < 2 ^ 64 := by
    have h₁ := hr.2.2
    have h₂ := km.top_le
    simp only [DRAM_BASE, PKE_MAX_ALLOWABLE_RAM] at *
    omega
  obtain ⟨c, hc⟩ := h.aligned
  have hpa := h.pa_eq
  simp only [PGSIZE] at *
  have hpage : (p.va + st.offset + j) % 2 ^ 64 / 4096 =
    (p.va + d * 4096) % 2 ^ 64 / 4096 := by omega
  -- the physical address, split into its frame and its offset
  have hsplit : (p.pa + st.offset) % 2 ^ 64 + j =
      (f + d * 4096) % 2 ^ 64 + (p.va + st.offset + j) % 2 ^ 64 % 4096 := by omega
  rw [Write.Allowed, translate_iff]
  constructor
  · rintro ⟨f', ⟨hmax, w, hw, hbits, hf'⟩, heq⟩
    refine ⟨by simp only [MAXVA] at *; omega, w, ?_, hbits, by simp only [PGSIZE] at *; omega⟩
    rwa [pteOf_page p.mach hpage] at hw
  · rintro ⟨hmax, w, hw, hbits, hf'⟩
    refine ⟨_, ⟨by simp only [MAXVA] at *; omega, w, ?_, hbits, hf'⟩, hsplit.symm⟩
    rwa [pteOf_page p.mach hpage]

/-- A result is stored from its start on. -/
def FromStart (l : List KernStore) : Prop := ∀ st ∈ l.head?, st.offset = 0 ∧ 0 < st.size

/-- **One result.** Its bytes are where the process could have stored them if and only if its pages
and frames are as `OutputOk` says. -/
theorem PointsTo.emits_iff {f : ℕ} (h : PointsTo pt p f) {l : List KernStore} (hl : FromStart l)
    (m : Mach) : Emits (Write.Allowed pt) (kernStores km p l) m ↔ OutputOk km pt p.va p.mach l := by
  have hdest : destOf pt p.va p.mach = p.pa := by
    have hand : p.va &&& 0xfff = p.va % PGSIZE := Nat.and_two_pow_sub_one_eq_mod _ 12
    rw [destOf, userVaToPa, h.lookup, h.pa_eq, ← hand]
    rfl
  rw [emits_kernStores, OutputOk, hdest]
  simp only [KernStore.bytes, List.forall_mem_map, List.mem_range]
  -- a store that is reached comes after the first one, whose address is not `NULL`
  have hfirst : ∀ st ∈ l.takeWhile fun st => decide (st.Reaches km p.pa),
      ∃ st₀ ∈ l.takeWhile fun st => decide (st.Reaches km p.pa),
        st₀.offset = 0 ∧ 0 < st₀.size ∧ st₀.Reaches km p.pa := by
    intro st hst
    cases l with
    | nil => cases hst
    | cons st₀ l =>
      rw [List.takeWhile_cons] at hst ⊢
      by_cases h₀ : st₀.Reaches km p.pa
      · obtain ⟨ho, hs⟩ := hl st₀ rfl
        simp only [h₀, decide_true, if_true]
        exact ⟨st₀, List.mem_cons_self, ho, hs, h₀⟩
      · simp [h₀] at hst
  have hreach : ∀ st ∈ l.takeWhile (fun st => decide (st.Reaches km p.pa)), st.Reaches km p.pa := by
    intro st hst
    have := List.mem_takeWhile_imp hst
    exact of_decide_eq_true this
  have hframe : ∀ st : KernStore, st.offset = 0 → st.Reaches km p.pa → f ≠ 0 := by
    rintro st ho ⟨-, hge, -⟩ rfl
    have := h.pa_eq
    have := km.above
    simp only [ho, PGSIZE, KERN_BASE] at *
    omega
  constructor
  · intro hall st hst j hj
    obtain ⟨st₀, hst₀, ho, hs, hr₀⟩ := hfirst st hst
    have h₀ := (h.allowed_iff hr₀ hs rfl).1 (hall st₀ hst₀ 0 hs)
    have hva := (h.frame (hframe st₀ ho hr₀)).1
    have hd : (p.va % PGSIZE + st₀.offset + 0) / PGSIZE = 0 := by
      simp only [ho, PGSIZE]
      omega
    rw [hd, Nat.zero_mul, Nat.add_zero, Nat.add_zero, Nat.mod_eq_of_lt h.lt,
      Nat.mod_eq_of_lt (lt_trans hva (by decide))] at h₀
    exact ⟨f, h₀, (h.allowed_iff (hreach st hst) hj rfl).1 (hall st hst j hj)⟩
  · intro hok st hst j hj
    obtain ⟨f', hf', hd⟩ := hok st hst j hj
    obtain ⟨st₀, -, ho, -, hr₀⟩ := hfirst st hst
    obtain rfl := (h.frame (hframe st₀ ho hr₀)).2 f' hf'
    exact (h.allowed_iff (hreach st hst) hj rfl).2 hd

end Stores

/-! ## The calls -/

section Calls

variable {km : KernelMap} {files : Files} {pt : ℕ} {m : Mach} {α : Type} {P : Write → Prop}

theorem exists_pointsTo (pt va : ℕ) (m : Mach) :
    ∃ f, PointsTo pt ⟨va, (f + va % PGSIZE) % 2 ^ 64, m⟩ f := by
  obtain ⟨f, hf, hdvd, hlt, hframe⟩ := exists_lookupPa pt va m
  exact ⟨f, hf, rfl, hdvd, hlt, hframe⟩

theorem emits_translated {va pa : ℕ} {lookup : Mach → Except Fault (ℕ × Mach)}
    (h : lookup m = .ok (pa, m)) (k : UserPtr → Kern α) :
    Emits P (translated va lookup >>= k) m ↔ Emits P (k ⟨va, pa, m⟩) m := by
  rw [translated, emits_lift_bind]
  simp only [h, ok_bind, pure_eq_ok, Except.ok.injEq, Prod.mk.injEq]
  refine ⟨fun hk => hk _ _ ⟨rfl, rfl⟩, ?_⟩
  rintro hk p m' ⟨rfl, rfl⟩
  exact hk

theorem emits_then_pure (x : Kern Unit) (a : α) :
    Emits P (do x; return a) m ↔ Emits P x m := by
  rw [emits_bind]
  exact and_iff_left fun _ m' _ => emits_pure a m'

/-- A call that translates its pointer, finds an `answer` and then stores it. -/
theorem emits_call {β : Type} (va : ℕ) (answer : Mach → Except Fault (β × Mach))
    (stores : β → List KernStore) (rest : UserPtr → β → Kern α) (hl : ∀ b, FromStart (stores b))
    (hrest : ∀ p b m, Emits (Write.Allowed pt) (rest p b) m ↔
      Emits (Write.Allowed pt) (kernStores km p (stores b)) m) :
    Emits (Write.Allowed pt) (do
      let p ← translated va (userVaToPa pt va)
      let b ← lift answer
      rest p b) m ↔
      ∀ b m', answer m = .ok (b, m') → OutputOk km pt va m (stores b) := by
  obtain ⟨f, hf⟩ := exists_pointsTo pt va m
  have hpa : userVaToPa pt va m = .ok ((f + va % PGSIZE) % 2 ^ 64, m) := by
    have hand : va &&& 0xfff = va % PGSIZE := Nat.and_two_pow_sub_one_eq_mod _ 12
    rw [userVaToPa, hf.lookup, ← hand]
    rfl
  rw [emits_translated hpa, emits_lift_bind]
  refine forall_congr' fun b => forall_congr' fun m' => imp_congr_right fun _ => ?_
  rw [hrest]
  exact hf.emits_iff (hl b) m'

/-- The same for a call whose answer is in the memory. -/
theorem emits_answer (va : ℕ) (stores : Mach → List KernStore)
    (hl : ∀ m, FromStart (stores m)) (r : α) :
    Emits (Write.Allowed pt) (do
      let p ← translated va (userVaToPa pt va)
      let m ← Traced.get
      kernStores km p (stores m)
      return r) m ↔ OutputOk km pt va m (stores m) := by
  refine (emits_call va (fun m => .ok (m, m)) stores
    (fun p m => do kernStores km p (stores m); return r) hl fun _ _ _ =>
      emits_then_pure _ r).trans ?_
  simp

/-- A result that there may not be. -/
theorem outputOk_elim {β : Type} {va : ℕ} {stores : β → List KernStore}
    {answer : Except Fault (Option β × Mach)} :
    (∀ o m', answer = .ok (o, m') → OutputOk km pt va m (o.elim [] stores)) ↔
      ∀ b m', answer = .ok (some b, m') → OutputOk km pt va m (stores b) := by
  refine ⟨fun h b m' e => h (some b) m' e, fun h o m' e => ?_⟩
  cases o with
  | none => exact fun st hst => absurd hst (List.not_mem_nil)
  | some b => exact h b m' e

theorem fromStart_elim {β : Type} {stores : β → List KernStore} (h : ∀ b, FromStart (stores b))
    (o : Option β) : FromStart (o.elim [] stores) := by
  cases o with
  | none => exact nofun
  | some b => exact h b

theorem fromStart_strcpy (s : List ℕ) (l : List KernStore) : FromStart (strcpyStores 0 s ++ l) := by
  intro st hst
  cases s with
  | nil =>
    obtain rfl := Option.some.inj hst
    decide
  | cons c s =>
    by_cases hc : c = 0
    · rw [strcpyStores, if_pos hc] at hst
      obtain rfl := Option.some.inj hst
      decide
    · rw [strcpyStores, if_neg hc] at hst
      obtain rfl := Option.some.inj hst
      exact ⟨rfl, Nat.one_pos⟩

theorem fromStart_strcpy' (s : List ℕ) : FromStart (strcpyStores 0 s) := by
  have := fromStart_strcpy s []
  rwa [List.append_nil] at this

theorem fromStart_stat (st : Istat) : FromStart (vfsStatStores st) := by
  intro s hs
  obtain rfl := Option.some.inj hs
  exact ⟨rfl, Nat.succ_pos 3⟩

theorem fromStart_diskStat (st : Istat) : FromStart (rfsDiskStatStores st) := by
  intro s hs
  obtain rfl := Option.some.inj hs
  exact ⟨rfl, Nat.succ_pos 3⟩

/-- One iteration of the loop of `sys_user_read`. -/
theorem emits_readBody (fd : ℤ) (bufva count i : ℕ) :
    Emits (Write.Allowed pt) (readBody km files pt fd bufva count i) m ↔
      (files.readable fd m → ∀ len buffer m',
        files.vfsRead fd (readChunk bufva count i).2 m = .ok ((len, buffer), m') →
        OutputOk km pt (readChunk bufva count i).1 m
          (doReadStores (readChunk bufva count i).2 buffer)) := by
  obtain ⟨f, hf⟩ := exists_pointsTo pt (readChunk bufva count i).1 m
  have hoff : ∀ a, a - roundDown a PGSIZE = a % PGSIZE := by
    intro a
    simp only [roundDown, PGSIZE]
    omega
  rw [readBody, emits_translated hf.lookup]
  simp only [hoff, doRead]
  rw [Traced.get, emits_lift_bind]
  simp only [Except.ok.injEq, Prod.mk.injEq]
  by_cases hr : files.readable fd m
  · constructor
    · intro h _ len buffer m' hm'
      have h := h m m ⟨rfl, rfl⟩
      rw [if_pos hr, emits_lift_bind] at h
      have h := h _ _ hm'
      rw [emits_then_pure] at h
      exact (hf.emits_iff (fromStart_strcpy' _) m').1 h
    · rintro h _ _ ⟨rfl, rfl⟩
      rw [if_pos hr, emits_lift_bind]
      rintro ⟨len, buffer⟩ m' hm'
      rw [emits_then_pure]
      exact (hf.emits_iff (fromStart_strcpy' _) m').2 (h hr len buffer m' hm')
  · refine ⟨fun _ h => absurd h hr, ?_⟩
    rintro - _ _ ⟨rfl, rfl⟩
    rw [if_neg hr]
    exact emits_lift _ _

/-- The loop of `sys_user_read`. -/
theorem emits_sysUserRead (fd : ℤ) (bufva count : ℕ) :
    (∀ fuel, Emits P (sysUserRead km files pt fuel fd bufva count) m) ↔
      ∀ i m', ReadAt km files pt fd bufva count m i m' → i < count →
        Emits P (readBody km files pt fd bufva count i) m' := by
  have hstep : ∀ fuel i m', i < count →
      (Emits P (readLoop km files pt fd bufva count (fuel + 1) i) m' ↔
        Emits P (readBody km files pt fd bufva count i) m' ∧ ∀ r m'',
          (readBody km files pt fd bufva count i m').2 = .ok (r, m'') →
          (readChunk bufva count i).2 ≤ r →
          Emits P (readLoop km files pt fd bufva count fuel (sext32 (i + r))) m'') := by
    intro fuel i m' hi
    rw [readLoop, if_pos hi, emits_bind]
    refine and_congr_right fun _ => forall_congr' fun r => forall_congr' fun m'' =>
      imp_congr_right fun _ => ?_
    by_cases hr : r < (readChunk bufva count i).2
    · rw [if_pos hr]
      exact iff_of_true (emits_pure _ _) fun hle => absurd hr (not_lt.2 hle)
    · rw [if_neg hr]
      exact ⟨fun h _ => h, fun h => h (not_lt.1 hr)⟩
  constructor
  · intro h
    have hall : ∀ i m', ReadAt km files pt fd bufva count m i m' →
        ∀ fuel, Emits P (readLoop km files pt fd bufva count fuel i) m' := by
      intro i m' hat
      induction hat with
      | start => exact h
      | next _ lt body full ih =>
        exact fun fuel => ((hstep fuel _ _ lt).1 (ih (fuel + 1))).2 _ _ body full
    exact fun i m' hat hi => ((hstep 0 i m' hi).1 (hall i m' hat 1)).1
  · intro h fuel
    have hall : ∀ fuel i m', ReadAt km files pt fd bufva count m i m' →
        Emits P (readLoop km files pt fd bufva count fuel i) m' := by
      intro fuel
      induction fuel with
      | zero => exact fun i m' _ => emits_lift _ _
      | succ fuel ih =>
        intro i m' hat
        by_cases hi : i < count
        · exact (hstep fuel i m' hi).2
            ⟨h i m' hat hi, fun r m'' body full => ih _ _ (hat.next hi body full)⟩
        · rw [readLoop, if_neg hi]
          exact emits_pure _ _
    exact hall fuel 0 m .start

/-- **The results of the system calls.** Whatever the page table and the pointer, every byte that a
call stores for the process is in a frame which the process may write to at that address, if and
only if the pages and frames of each piece of the result are as `OutCall.Ok` says. -/
theorem copyout_iff (km : KernelMap) (files : Files) (pt : ℕ) (m : Mach) (c : OutCall) :
    (∀ fuel, Emits (Write.Allowed pt) (c.run km files pt fuel) m) ↔ c.Ok km files pt m := by
  cases c with
  | read fd bufva count => simp only [OutCall.run, OutCall.Ok, emits_sysUserRead, emits_readBody]
  | stat fd istat =>
    simp only [OutCall.run, OutCall.Ok, forall_const]
    exact emits_answer istat
      (fun m => vfsStatStores (files.vinode fd m)) (fun m => fromStart_stat _) 0
  | diskStat fd istat =>
    simp only [OutCall.run, OutCall.Ok, forall_const]
    refine .trans ?_ outputOk_elim
    refine emits_call istat (files.readDinode fd) (fun o => o.elim [] rfsDiskStatStores) _
      (fromStart_elim fromStart_diskStat) fun p o m' => ?_
    cases o with
    | none => exact iff_of_true (emits_pure _ _) (emits_pure _ _)
    | some dinode =>
      rw [emits_bind]
      refine and_iff_left fun _ m'' _ => ?_
      rw [emits_lift_bind]
      exact fun _ m _ => emits_pure _ m
  | readdir fd vdir =>
    simp only [OutCall.run, OutCall.Ok, forall_const]
    refine .trans ?_ outputOk_elim
    refine emits_call vdir (files.direntry fd) (fun o => o.elim [] rfsReaddirStores) _
      (fromStart_elim fun e => fromStart_strcpy e.name _) fun p o m' => ?_
    cases o with
    | none => exact iff_of_true (emits_pure _ _) (emits_pure _ _)
    | some e => exact emits_then_pure _ _
  | rcwd path =>
    simp only [OutCall.run, OutCall.Ok, forall_const]
    exact emits_answer path
      (fun m => strcpyStores 0 (files.cwdName m)) (fun m => fromStart_strcpy' _) 0

end Calls

/-! ## A result in the trapframe -/

/-- A file system without open files, whose root is the working directory. -/
def rootFiles : Files where
  readable _ _ := false
  vfsRead _ _ _ := .error .nullDeref
  vinode _ _ := ⟨0, 0, 0, 0, 0⟩
  readDinode _ _ := .error .nullDeref
  freeDinode m := .ok ((), m)
  direntry _ m := .ok (none, m)
  cwdName _ := [0x2f]

/-- The map of a kernel with one page of text, in a memory of 32 pages. -/
def smallMap : KernelMap where
  etext := 0x80001000
  top := 0x80020000
  above := by decide
  top_le := by decide

/-- What `sys_user_rcwd` stores for the process `i` after a fork: the addresses of each byte, and
the one to which the process itself would have stored it. -/
def rcwdAfterFork (i path : ℕ) : Option (List (ℕ × ℕ × Option ℕ)) :=
  (runFrom smallKernel 0x20000 forkedHeap).toOption.bind fun s => s.spaces[i]?.map fun p =>
    ((OutCall.rcwd path).run smallMap rootFiles p.pagetable 1 s.mach).1.map fun w =>
      (w.va, w.pa, translate p.pagetable PTE_W w.va w.mach)

/-- **The kernel writes to the trapframe.** The page is mapped in the page table of the process, but
not for the process. -/
theorem copyout_lost : ¬ ∀ lay s, Run lay (fun _ _ => True) s → ∀ p ∈ s.spaces, ∀ km files c fuel,
    Emits (Write.Allowed p.pagetable) (OutCall.run km files p.pagetable fuel c) s.mach := by
  intro hall
  have htest : rcwdAfterFork 0 0x8001e000 =
      some [(0x8001e000, 0x8001e000, none), (0x8001e001, 0x8001e001, none)] := by decide +kernel
  obtain ⟨s, hs, htest⟩ := Option.bind_eq_some_iff.1 htest
  obtain ⟨p, hp, htest⟩ := Option.map_eq_some_iff.1 htest
  obtain ⟨w, hw, heq⟩ := List.mem_map.1 (htest ▸ List.mem_cons_self)
  have hok := hall smallKernel s (.of_runFrom (toOption_eq_some.1 hs) fun _ _ _ => trivial) p
    (List.mem_of_getElem? hp) smallMap rootFiles (.rcwd 0x8001e000) 1 w hw
  rw [Write.Allowed, (Prod.mk.inj (Prod.mk.inj heq).2).2] at hok
  cases hok

-- a frame that is shared copy-on-write, and a string that ends in the next page
example : rcwdAfterFork 1 0x400000 =
    some [(0x400000, 0x80014000, none), (0x400001, 0x80014001, none)] := by decide +kernel
example : rcwdAfterFork 0 0x400fff =
    some [(0x400fff, 0x80014fff, some 0x80014fff), (0x401000, 0x80015000, none)] :=
      by decide +kernel

end HustOS.Mm
