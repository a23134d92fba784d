import HustOS.Elf.Load
import HustOS.Mm.Copyout

/-!
# The argument of a program

`do_exec` of `kernel/syscall.c` makes a new process, loads the program into it, and copies the
argument to its stack: the string at 8 bytes below the top, and a pointer to it 8 bytes below that.
Both the argument and its place are translated once, and the bytes are copied to the physical
addresses from there on. So the argument arrives exactly if it has room in 8 bytes, as long as it
does not go over the end of a page (`execArg_iff`).
-/

namespace HustOS.Elf

open Foundations Mm

/-! ## The kernel's own accesses -/

/-- The kernel page table for a layout: the page of the trap vector is in the text
(`kernel/kernel.lds`). -/
structure LinkedMap (lay : Layout) extends KernelMap where
  text : lay.trapSecStart + PGSIZE ≤ etext

/-- `strlen`, over at most `n` bytes that the kernel can read. -/
def strlenLoop (m : Mach) : ℕ → ℕ → Except Fault ℕ
  | 0, _ => throw (.panic "usertrap: not from user mode")
  | n + 1, a => if m.byte a = 0 then return 0 else return (← strlenLoop m n (a + 1)) + 1

/-- `strlen`. -/
def strlen (km : KernelMap) (a : ℕ) (m : Mach) : Except Fault ℕ :=
  if a < KERN_BASE then throw (.panic "usertrap: not from user mode")
  else strlenLoop m (km.top - a) a

/-- A place that the kernel page table maps writable. -/
def KernelMap.check (km : KernelMap) (a : ℕ) : Except Fault Unit :=
  if a < km.etext ∨ km.top ≤ a then throw (.panic "usertrap: not from user mode") else return ()

/-- `memcpy(dest, src, n)` byte by byte, with the places that are written. -/
def memcpyBytes (km : KernelMap) : ℕ → ℕ → ℕ → Mach → Except Fault (List ℕ × Mach)
  | 0, _, _, m => return ([], m)
  | n + 1, dest, src, m => do
    KernelMap.check km dest
    let (written, m) ← memcpyBytes km n (dest + 1) (src + 1) (m.setByte dest (m.byte src))
    return (dest :: written, m)

/-! ## `do_exec` -/

/-- The places of the registers `sp`, `a0` and `a1` and of `epc` in a trapframe. -/
abbrev REG_SP : ℕ := 8

abbrev REG_A0 : ℕ := 72

abbrev REG_A1 : ℕ := 80

abbrev TRAPFRAME_EPC : ℕ := 264

/-- The file system takes pages. -/
def takePages : ℕ → Mach → Except Fault Mach
  | 0, m => return m
  | n + 1, m => do
    let (_, m) ← allocPage m
    takePages n m

/-- `load_bincode_from_host_elf` for a file; the numbers of pages are those that `vfs_open` and
`vfs_close` take. -/
def loadBincodeFromHostElf (f : File) (opened closed : ℕ) (p : Space) (m : Mach) :
    Except Fault (Space × Mach) := do
  let m ← takePages opened m
  if (elfInit ⟨f, 0⟩).1 ≠ .ok then throw (.panic "fail to init elfloader.\n")
  let (status, _, p, m) ← elfLoad (elfInit ⟨f, 0⟩).2.1 (elfInit ⟨f, 0⟩).2.2 p m
  if status ≠ .ok then throw (.panic "Fail on loading elf.\n")
  let m := m.store (p.trapframe + TRAPFRAME_EPC) (elfInit ⟨f, 0⟩).2.1.entry
  let m ← takePages closed m
  return (p, m)

/-- The page of heap that `do_exec` maps. -/
def firstHeapPage (p : Space) (m : Mach) : Except Fault (Space × Mach) := do
  let (pa, m) ← allocPage m
  let va := p.heapTop
  let m ← userVmMap p.pagetable va PGSIZE pa (protToType (PROT_WRITE ||| PROT_READ) 1) m
  let m ← m.memset pa PGSIZE
  return ({ p with heapTop := (va + PGSIZE) % 2 ^ 64 }, m)

/-- What `do_exec` switches to, and the places that the copy of the argument has written. -/
structure Executed where
  space : Space
  mach : Mach
  written : List ℕ

/-- The end of `do_exec`: the argument and the pointer to it are put on the stack. -/
def pushArgument (km : KernelMap) (argv : ℕ) (p : Space) (m : Mach) : Except Fault Executed := do
  let vsp := (m.mem (p.trapframe + REG_SP) + (2 ^ 64 - 8)) % 2 ^ 64
  let (sp, m) ← userVaToPa p.pagetable vsp m
  let n ← strlen km argv m
  let (written, m) ← memcpyBytes km (1 + n) sp argv m
  let (sp2, m) ← userVaToPa p.pagetable ((vsp + (2 ^ 64 - 8)) % 2 ^ 64) m
  KernelMap.check km sp2
  let m := m.store sp2 vsp
  let m := m.store (p.trapframe + REG_SP)
    ((m.mem (p.trapframe + REG_SP) + (2 ^ 64 - 16)) % 2 ^ 64)
  let m := m.store (p.trapframe + REG_A1) ((vsp + (2 ^ 64 - 8)) % 2 ^ 64)
  let m := m.store (p.trapframe + REG_A0) 1
  return ⟨p, m, written ++ (List.range 8).map (sp2 + ·)⟩

/-- `do_exec` up to `switch_to`, for the file `f` of the program and the address of the argument. -/
def doExec (lay : Layout) (km : KernelMap) (f : File) (opened closed : ℕ) (caller : Space)
    (para : ℕ) (m : Mach) : Except Fault Executed := do
  let (argv, m) ← userVaToPa caller.pagetable para m
  let (p, m) ← allocProcess lay m
  let (p, m) ← loadBincodeFromHostElf f opened closed p m
  let (p, m) ← firstHeapPage p m
  pushArgument km argv p m

/-! ## The property -/

/-- A process reads the string `t` at `va`, with its final zero. -/
def ReadsString (p : Space) (m : Mach) (va : ℕ) (t : List UInt8) : Prop :=
  ∀ i ≤ t.length, LoadsByte p m (va + i) (t.getD i 0).toNat

/-- The registers and the stack of the new program have the argument, and nothing but the page of
the stack was written for it. -/
structure ArgPassed (x : Executed) (t : List UInt8) : Prop where
  argc : x.mach.mem (x.space.trapframe + REG_A0) = 1
  argv : ∃ w < 2 ^ 64, ReadsString x.space x.mach w t ∧ ∀ i < 8,
    LoadsByte x.space x.mach (x.mach.mem (x.space.trapframe + REG_A1) + i) (w / 256 ^ i % 256)
  inside : ∃ us, MapsTo x.space x.mach (USER_STACK_TOP - PGSIZE) us ∧
    ∀ a ∈ x.written, us ≤ a ∧ a < us + PGSIZE

variable {lay : Layout} {km : KernelMap} {m m' m₀ : Mach} {p p' caller : Space} {f : File}
  {roots kept kept₀ : Set ℕ} {pm : ℕ → PageMap} {l : List ℕ} {r va a n q src dest argv us g : ℕ}
  {t : List UInt8} {x : Executed} {written : List ℕ}

/-! ## Strings in memory -/

theorem strlenLoop_ok (e : strlenLoop m n a = .ok q) :
    (∀ i < q, m.byte (a + i) ≠ 0) ∧ m.byte (a + q) = 0 := by
  induction n generalizing a q with
  | zero => cases e
  | succ n ih =>
    rw [strlenLoop] at e
    split at e
    · rename_i h0
      cases e
      exact ⟨fun i hi => absurd hi (Nat.not_lt_zero i), h0⟩
    · rename_i h0
      obtain ⟨k, e₁, e⟩ := (bind_ok_iff _ _ _).1 e
      cases e
      obtain ⟨hne, hz⟩ := ih e₁
      refine ⟨fun i hi => ?_, by rw [← hz, Nat.add_assoc, Nat.add_comm 1]⟩
      cases i with
      | zero => exact h0
      | succ i =>
        have := hne i (by omega)
        rwa [Nat.add_assoc, Nat.add_comm 1] at this

theorem getD_toNat_ne_zero {i : ℕ} (h0 : 0 ∉ t) (hi : i < t.length) : (t.getD i 0).toNat ≠ 0 := by
  rw [List.getD_eq_getElem _ _ hi]
  intro hz
  have : t[i] = 0 := UInt8.toNat_inj.1 hz
  exact h0 (this ▸ List.getElem_mem hi)

/-- `strlen` of a string in memory. -/
theorem strlen_eq (h : ∀ i ≤ t.length, m.byte (a + i) = (t.getD i 0).toNat) (h0 : 0 ∉ t)
    (e : strlen km a m = .ok n) : n = t.length := by
  rw [strlen] at e
  split at e
  · cases e
  obtain ⟨hne, hz⟩ := strlenLoop_ok e
  rcases Nat.lt_trichotomy n t.length with hlt | heq | hgt
  · rw [h n hlt.le] at hz
    exact absurd hz (getD_toNat_ne_zero h0 hlt)
  · exact heq
  · have hend := hne _ hgt
    rw [h _ le_rfl, List.getD_eq_default _ _ le_rfl] at hend
    exact absurd rfl hend

theorem check_ok {u : Unit} (e : KernelMap.check km a = .ok u) : km.etext ≤ a ∧ a < km.top := by
  rw [KernelMap.check] at e
  split at e
  · cases e
  · omega

/-- The places that `memcpy` writes. -/
theorem memcpyBytes_written (e : memcpyBytes km n dest src m = .ok (written, m')) :
    written = (List.range n).map (dest + ·) ∧ (0 < n → km.etext ≤ dest) := by
  induction n generalizing dest src m written with
  | zero =>
    cases e
    exact ⟨rfl, fun h => absurd h (lt_irrefl 0)⟩
  | succ n ih =>
    rw [memcpyBytes] at e
    obtain ⟨u, e₀, e⟩ := (bind_ok_iff _ _ _).1 e
    obtain ⟨⟨w, m₁⟩, e₁, e⟩ := (bind_ok_iff _ _ _).1 e
    cases e
    refine ⟨?_, fun _ => (check_ok e₀).1⟩
    rw [(ih e₁).1, List.range_succ_eq_map, List.map_cons, List.map_map, Nat.add_zero]
    refine congrArg (dest :: ·) (List.map_congr_left fun i _ => ?_)
    simp only [Function.comp_apply]
    omega

/-- The bytes at a place. -/
def Mach.bytesFrom (m : Mach) (a n : ℕ) : List UInt8 :=
  (List.range n).map fun i => UInt8.ofNat (m.byte (a + i))

/-- **`memcpy` of apart places.** -/
theorem memcpyBytes_eq (hd : dest + n ≤ src ∨ src + n ≤ dest)
    (e : memcpyBytes km n dest src m = .ok (written, m')) :
    m' = m.writeBytes dest (Mach.bytesFrom m src n) := by
  induction n generalizing dest src m written with
  | zero =>
    cases e
    rfl
  | succ n ih =>
    rw [memcpyBytes] at e
    obtain ⟨u, -, e⟩ := (bind_ok_iff _ _ _).1 e
    obtain ⟨⟨w, m₁⟩, e₁, e⟩ := (bind_ok_iff _ _ _).1 e
    cases e
    have hlt : m.byte src < 2 ^ 8 := Nat.mod_lt _ (by decide)
    have hb : (UInt8.ofNat (m.byte (src + 0))).toNat = m.byte src := by
      rw [Nat.add_zero, UInt8.toNat_ofNat', Nat.mod_eq_of_lt hlt]
    have htail : Mach.bytesFrom (m.setByte dest (m.byte src)) (src + 1) n =
        (List.range n).map fun i => UInt8.ofNat (m.byte (src + (i + 1))) := by
      refine List.map_congr_left fun i hi => ?_
      have hi' := List.mem_range.1 hi
      rw [Mach.byte_setByte, if_neg (by omega), Nat.add_assoc, Nat.add_comm 1]
    rw [ih (by omega) e₁, htail, Mach.bytesFrom, List.range_succ_eq_map, List.map_cons,
      List.map_map, Mach.writeBytes, hb]
    rfl

/-! ## The new process -/

/-- The segments of a program start at pages, and none at the page that becomes the trapframe. -/
structure ProgramOk (f : File) (m : Mach) : Prop where
  aligned : Aligned f (elfInit ⟨f, 0⟩).2.1.phnum (elfInit ⟨f, 0⟩).2.1.phoff
  trapframe : ∀ ph ∈ loadHeaders f (elfInit ⟨f, 0⟩).2.1.phnum (elfInit ⟨f, 0⟩).2.1.phoff,
    ph.vaddr ≠ m.gFreeMemList

/-- The pages that were kept before the process was made and that it may map. -/
def sharedPages (lay : Layout) (kept₀ : Set ℕ) : Set ℕ :=
  {x | x ∈ kept₀ → x = 0 ∨ x = lay.trapSecStart}

/-- The process `p` on the way through `do_exec`: the pages `kept₀` of before are as they were, and
the trapframe and the stack are where they were mapped. -/
structure Executing (lay : Layout) (kept₀ : Set ℕ) (m₀ : Mach) (roots : Set ℕ) (p : Space)
    (m : Mach) (pm : ℕ → PageMap) (kept : Set ℕ) (l : List ℕ) : Prop
    extends Loading p.pagetable (sharedPages lay kept₀) m roots pm kept l where
  sub : kept₀ ⊆ kept
  same : SameOn kept₀ m₀ m
  trapSec : lay.trapSecStart < m.freeMemStartAddr
  trapframe : NewTrapframe (pm p.pagetable) m p.trapframe
  new : p.trapframe ∉ kept₀ ∧ p.trapframe ≠ 0
  stack : Readable (pm p.pagetable) stackVpn
  apart : p.trapframe / PGSIZE ≠ stackVpn
  heap : p.heapTop = USER_FREE_ADDRESS_START

/-- The page of the trapframe is kept. -/
theorem trapframe_keep {map map' : PageMap} (h : NewTrapframe map m a)
    (hk : KeepsPage map m map' m' (a / PGSIZE)) : NewTrapframe map' m' a := by
  obtain ⟨perm, hv⟩ := h.entry
  obtain ⟨hv', hs⟩ := hk a perm hv
  refine ⟨⟨perm, hv'⟩, (hs.mem a (Set.mem_singleton a) _ (Nat.le_add_right a 8) ?_).trans h.sp⟩
  simp only [PGSIZE]
  omega

namespace Executing

theorem start {spaces : List Space} (h : SysInv lay m₀ spaces pm kept₀)
    (e : allocProcess lay m₀ = .ok (p, m)) : p.trapframe = m₀.gFreeMemList ∧ ∃ pm kept l,
      Executing lay kept₀ m₀ (insert p.pagetable (rootsOf spaces)) p m pm kept l := by
  obtain ⟨pm', kept', l, h', hnew, hsub, hs, ⟨us, hst⟩, htf, hnt⟩ := allocProcess_loading h e
  refine ⟨htf, pm', kept', l, h', hsub, hs, hs.start ▸ h.low.1, hnt, hnew.trapframe.2,
    ⟨us, _, hst.stack, by decide⟩, fun he => ?_, hnew.heapTop⟩
  obtain ⟨perm, hv⟩ := hnt.entry
  rw [he, hst.stack] at hv
  exact hst.apart (Prod.mk.inj (Option.some.inj hv)).1

theorem take (h : Executing lay kept₀ m₀ roots p m pm kept l) (e : allocPage m = .ok (q, m')) :
    ∃ l', Executing lay kept₀ m₀ roots p m' pm (insert q kept) l' := by
  obtain ⟨l', h', hs⟩ := h.toLoading.take e
  exact ⟨l', h', h.sub.trans (Set.subset_insert q kept),
    h.same.trans (hs.mono (Set.subset_univ _)), hs.start ▸ h.trapSec,
    trapframe_keep h.trapframe fun g perm hv => ⟨hv, hs.mono (Set.subset_univ _)⟩, h.new,
      h.stack, h.apart,
    h.heap⟩

theorem takePages (h : Executing lay kept₀ m₀ roots p m pm kept l)
    (e : takePages n m = .ok m') : ∃ kept l, Executing lay kept₀ m₀ roots p m' pm kept l := by
  induction n generalizing m kept l with
  | zero =>
    cases e
    exact ⟨kept, l, h⟩
  | succ n ih =>
    rw [Elf.takePages] at e
    obtain ⟨⟨q, m₁⟩, e₁, e⟩ := (bind_ok_iff _ _ _).1 e
    obtain ⟨l₁, h₁⟩ := h.take e₁
    exact ih h₁ e

/-- **The program is loaded.** -/
theorem load {o o' : OpenFile} {ehdr : ElfHeader} (h : Executing lay kept₀ m₀ roots p m pm kept l)
    (ha : Aligned o.bytes ehdr.phnum ehdr.phoff)
    (ht : ∀ ph ∈ loadHeaders o.bytes ehdr.phnum ehdr.phoff, ph.vaddr ≠ p.trapframe)
    (e : elfLoad ehdr o p m = .ok (.ok, o', p', m')) :
    p'.trapframe = p.trapframe ∧
      ∃ pm kept l, Executing lay kept₀ m₀ roots p' m' pm kept l := by
  have hhead := ha.headers
  rw [elfLoad, intOffset_of_lt (by omega)] at e
  obtain ⟨⟨g, rfl⟩, pm', kept', l', h', hspare, -, hread, hkeep⟩ := h.toLoading.loop ha e
  have hlow : ∀ x ∈ kept₀, x ∈ sharedPages lay kept₀ → x < m.freeMemStartAddr := by
    intro x hx ho
    rcases ho hx with rfl | rfl
    · exact h.low
    · exact h.trapSec
  obtain ⟨perm, hv⟩ := h.trapframe.entry
  have hal : PGSIZE ∣ p.trapframe :=
    (h.spaces.keptPage _ (h.spaces.framed _ h.root _ _ perm hv)).1
  have htf : ∀ ph ∈ loadHeaders o.bytes ehdr.phnum ehdr.phoff,
      p.trapframe / PGSIZE ≠ ph.vaddr / PGSIZE := by
    intro ph hph he
    refine ht ph hph ?_
    rw [← Nat.div_mul_cancel (ha.aligned ph hph), ← Nat.div_mul_cancel hal, he]
  exact ⟨rfl, pm', kept', l', h', fun x hx => hspare.sub x (h.sub hx) (hlow x hx),
    h.same.trans (hspare.same.mono fun x hx => ⟨h.sub hx, hlow x hx⟩),
    hspare.same.start ▸ h.trapSec, trapframe_keep h.trapframe (hkeep _ htf), h.new,
      hread _ h.stack, h.apart,
    h.heap⟩

/-- A word of the trapframe other than the stack pointer is written. -/
theorem setReg (h : Executing lay kept₀ m₀ roots p m pm kept l) (ha : a < PGSIZE) (hne : a ≠ 8)
    (w : ℕ) : Executing lay kept₀ m₀ roots p (m.store (p.trapframe + a) w) pm kept l := by
  obtain ⟨perm, hv⟩ := h.trapframe.entry
  have hk := h.spaces.framed _ h.root _ _ perm hv
  have ht : Touches p.trapframe m (m.store (p.trapframe + a) w) :=
    Mach.store_touches (Nat.le_add_right _ a) (by omega)
  obtain ⟨h', hs⟩ := h.spaces.write hk ht.mem ht.head ht.lock ht.start
  refine ⟨h.toLoading.shrink h' hs.start (fun _ _ _ hv => hv) h.pool, h.sub,
    h.same.trans (hs.mono fun x hx => ⟨h.sub hx, ?_⟩), hs.start ▸ h.trapSec,
    ⟨h.trapframe.entry, ?_⟩, h.new, h.stack, h.apart, h.heap⟩
  · rintro rfl
    exact h.new.1 hx
  · rw [Mach.store_of_ne _ _ (by omega), h.trapframe.sp]

/-- **`load_bincode_from_host_elf`.** -/
theorem loadBincode {opened closed : ℕ} (h : Executing lay kept₀ m₀ roots p m pm kept l)
    (hf : ProgramOk f m₀) (htf : p.trapframe = m₀.gFreeMemList)
    (e : loadBincodeFromHostElf f opened closed p m = .ok (p', m')) :
    ∃ pm kept l, Executing lay kept₀ m₀ roots p' m' pm kept l := by
  rw [loadBincodeFromHostElf] at e
  obtain ⟨m₁, e₁, e⟩ := (bind_ok_iff _ _ _).1 e
  obtain ⟨kept₁, l₁, h₁⟩ := h.takePages e₁
  dsimp only at e
  split at e
  · cases e
  obtain ⟨⟨status, o, p₂, m₂⟩, e₂, e⟩ := (bind_ok_iff _ _ _).1 e
  dsimp only at e
  by_cases hst : status = .ok
  swap
  · rw [if_pos hst] at e
    cases e
  rw [if_neg (not_not.2 hst)] at e
  subst hst
  obtain ⟨m₃, e₃, e⟩ := (bind_ok_iff _ _ _).1 e
  cases e
  have hbytes : (elfInit ⟨f, 0⟩).2.2.bytes = f := elfInit_bytes _
  obtain ⟨-, pm₂, kept₂, l₂, h₂⟩ := h₁.load (hbytes.symm ▸ hf.aligned)
    (fun ph hph => by
      rw [hbytes] at hph
      rw [htf]
      exact hf.trapframe ph hph) e₂
  obtain ⟨kept₃, l₃, h₃⟩ :=
    (h₂.setReg (a := TRAPFRAME_EPC) (by decide) (by decide) _).takePages e₃
  exact ⟨pm₂, kept₃, l₃, h₃⟩

end Executing

/-- What the copy of the argument finds: the stack of the new process is on the page `us`. -/
structure StackReady (lay : Layout) (kept₀ : Set ℕ) (m₀ : Mach) (roots : Set ℕ) (p : Space)
    (m : Mach) (pm : ℕ → PageMap) (kept : Set ℕ) (l : List ℕ) (us : ℕ) : Prop where
  spaces : Spaces m roots pm kept l
  root : p.pagetable ∈ roots
  same : SameOn kept₀ m₀ m
  trapframe : NewTrapframe (pm p.pagetable) m p.trapframe
  stack : ∃ perm, pm p.pagetable stackVpn = some (us, perm) ∧ Allows PTE_R perm
  shared : us ∈ sharedPages lay kept₀
  apart : us ≠ p.trapframe

/-- **The first page of heap** is mapped besides. -/
theorem Executing.firstHeapPage (h : Executing lay kept₀ m₀ roots p m pm kept l)
    (e : firstHeapPage p m = .ok (p', m')) :
    ∃ pm kept l us, StackReady lay kept₀ m₀ roots p' m' pm kept l us := by
  rw [Elf.firstHeapPage] at e
  obtain ⟨⟨pa, m₁⟩, e₁, e⟩ := (bind_ok_iff _ _ _).1 e
  obtain ⟨m₂, e₂, e⟩ := (bind_ok_iff _ _ _).1 e
  obtain ⟨m₃, e₃, e⟩ := (bind_ok_iff _ _ _).1 e
  cases e
  obtain ⟨h0, ht, -⟩ := Mach.memset_ok e₃ le_rfl
  obtain ⟨-, -, -, hq⟩ := h.spaces.take e₁
  obtain ⟨hpa, hun⟩ := hq h0
  obtain ⟨l₁, h₁⟩ := h.take e₁
  rw [h.heap] at e₂
  obtain ⟨-, -, hnone, hs₂, l₂, h₂, -⟩ := h₁.spaces.map h₁.root (.inr ⟨rfl, by decide⟩)
    (Stage.mappable_fresh (Set.mem_insert pa kept) (fun _ => hun) _) (protToType_lt _ _) (by decide)
    (Stage.userVmMap_ok e₂)
  obtain ⟨h₃, hs₃⟩ := h₂.write (Set.mem_insert pa kept) ht.mem ht.head ht.lock ht.start
  obtain ⟨us, perm, hus, hr⟩ := h.stack
  obtain ⟨perm', htf⟩ := h.trapframe.entry
  have hold : ∀ x ∈ kept, x ∈ insert pa kept \ {pa} := fun x hx =>
    ⟨.inr hx, fun he => hpa (Set.mem_singleton_iff.1 he ▸ hx)⟩
  have hs : SameOn kept m₁ m' := (hs₂.mono (Set.subset_insert pa kept)).trans (hs₃.mono hold)
  refine ⟨_, _, l₂, us, h₃, h.root, h₁.same.trans (hs.mono h.sub), ?_,
    ⟨perm, mapAt_keep hnone hus, hr⟩, h.mapped _ us perm hus, ?_⟩
  · exact trapframe_keep h₁.trapframe fun g perm hv => ⟨mapAt_keep hnone hv,
      hs.mono (Set.singleton_subset_iff.2 (h.spaces.framed _ h.root _ g perm hv))⟩
  · intro he
    rw [he] at hus
    exact h.apart (h.spaces.home _ h.root _ h.root _ _ _ _ _ h.new.2 htf hus)

/-! ## The copy -/

theorem byte_store {i w : ℕ} (ha : 8 ∣ a) (hi : i < 8) :
    (m.store a w).byte (a + i) = w / 256 ^ i % 256 := by
  obtain ⟨y, rfl⟩ := ha
  have hword : (8 * y + i) / 8 * 8 = 8 * y := by omega
  rw [Mach.byte, hword, Mach.store_self, show (8 * y + i) % 8 = i by omega]

theorem byte_store_of_ne {b w : ℕ} (ha : 8 ∣ a) (hb : ¬ (a ≤ b ∧ b < a + 8)) :
    (m.store a w).byte b = m.byte b := by
  rw [Mach.byte, Mach.byte, Mach.store_of_ne]
  omega

/-- `user_va_to_pa` of a mapped page. -/
theorem userVaToPa_of_map {map : PageMap} {perm : ℕ} (h : PtInv r m map)
    (hv : map (va / PGSIZE) = some (g, perm)) :
    userVaToPa r va m = .ok (g + va % PGSIZE, m) := by
  have hlt := (h.frameOk hv).lt
  rw [userVaToPa, h.lookupPa, hv, ok_bind, show (0xfff : ℕ) = 2 ^ 12 - 1 from rfl,
    Nat.and_two_pow_sub_one_eq_mod]
  simp only [Option.elim_some, PGSIZE, pure_eq_ok]
  rw [Nat.mod_eq_of_lt (by omega)]

theorem dvd_pte2pa (w : ℕ) : PGSIZE ∣ pte2pa w := by
  rw [pte2pa, Nat.shiftLeft_eq]
  simp only [PGSIZE]
  omega

/-- The places on the page of the stack. -/
theorem stackVa {k : ℕ} (hk : k < PGSIZE) : (USER_STACK_TOP - PGSIZE + k) / PGSIZE = stackVpn ∧
    (USER_STACK_TOP - PGSIZE + k) % PGSIZE = k := by
  simp only [stackVpn, USER_STACK_TOP, PGSIZE] at *
  omega

namespace StackReady

variable {km : LinkedMap lay}

/-- The kernel writes to the page of the stack, so it is none that was kept before. -/
theorem new (h : StackReady lay kept₀ m₀ roots p m pm kept l us) (hn : 0 < n)
    (e : memcpyBytes km.toKernelMap n (us + 0xff8) src m = .ok (written, m')) : us ∉ kept₀ := by
  intro hk
  have hle := (memcpyBytes_written e).2 hn
  have habove := km.above
  have htext := km.text
  rcases h.shared hk with rfl | rfl <;> simp only [KERN_BASE, PGSIZE] at * <;> omega

/-- The first steps of the copy. -/
theorem push_ok (h : StackReady lay kept₀ m₀ roots p m pm kept l us)
    (e : pushArgument km.toKernelMap argv p m = .ok x) :
    ∃ n written m₁ sp2 m₂, strlen km.toKernelMap argv m = .ok n ∧
      memcpyBytes km.toKernelMap (1 + n) (us + 0xff8) argv m = .ok (written, m₁) ∧
      userVaToPa p.pagetable (USER_STACK_TOP - PGSIZE + 0xff0) m₁ = .ok (sp2, m₂) ∧
      x = ⟨p, (((m₂.store sp2 (USER_STACK_TOP - 8)).store (p.trapframe + REG_SP)
          (((m₂.store sp2 (USER_STACK_TOP - 8)).mem (p.trapframe + REG_SP) + (2 ^ 64 - 16)) %
            2 ^ 64)).store (p.trapframe + REG_A1) (USER_STACK_TOP - 16)).store
          (p.trapframe + REG_A0) 1, written ++ (List.range 8).map (sp2 + ·)⟩ := by
  obtain ⟨perm, hv, -⟩ := h.stack
  have hv' : pm p.pagetable ((USER_STACK_TOP - 8) / PGSIZE) = some (us, perm) := hv
  have hsp : userVaToPa p.pagetable (USER_STACK_TOP - 8) m = .ok (us + 0xff8, m) :=
    userVaToPa_of_map (h.spaces.table _ h.root) hv'
  have hvsp : (USER_STACK_TOP + (2 ^ 64 - 8)) % 2 ^ 64 = USER_STACK_TOP - 8 := by decide
  have hvsp2 : (USER_STACK_TOP - 8 + (2 ^ 64 - 8)) % 2 ^ 64 = USER_STACK_TOP - PGSIZE + 0xff0 := by
    decide
  rw [pushArgument, h.trapframe.sp] at e
  dsimp only at e
  rw [hvsp, hsp, ok_bind, hvsp2] at e
  obtain ⟨n, e₁, e⟩ := (bind_ok_iff _ _ _).1 e
  obtain ⟨⟨written, m₁⟩, e₂, e⟩ := (bind_ok_iff _ _ _).1 e
  obtain ⟨⟨sp2, m₂⟩, e₃, e⟩ := (bind_ok_iff _ _ _).1 e
  obtain ⟨-, -, e⟩ := (bind_ok_iff _ _ _).1 e
  cases e
  exact ⟨n, written, m₁, sp2, m₂, e₁, e₂, e₃, rfl⟩

/-- A copy that stays on the page of the stack has at most 8 bytes. -/
theorem length_le (h : StackReady lay kept₀ m₀ roots p m pm kept l us) (hn : n = t.length)
    (e : memcpyBytes km.toKernelMap (1 + n) (us + 0xff8) src m = .ok (written, m'))
    (hx : x.written = written ++ (List.range 8).map (q + ·)) (hp : ArgPassed x t) :
    t.length ≤ 7 := by
  obtain ⟨us', ⟨-, w, -, -, rfl⟩, hin⟩ := hp.inside
  obtain ⟨perm, hv, -⟩ := h.stack
  have hal := (h.spaces.keptPage us (h.spaces.framed _ h.root _ us perm hv)).1
  have hal' := dvd_pte2pa w
  have hmem : ∀ i < 1 + n, us + 0xff8 + i ∈ x.written := by
    intro i hi
    rw [hx, (memcpyBytes_written e).1]
    exact List.mem_append_left _ (List.mem_map.2 ⟨i, List.mem_range.2 hi, rfl⟩)
  have hfirst := hin _ (hmem 0 (by omega))
  have hlast := hin _ (hmem n (by omega))
  obtain ⟨y, hy⟩ := hal
  obtain ⟨z, hz⟩ := hal'
  simp only [PGSIZE] at *
  omega

/-- **A short argument is passed.** -/
theorem passed {off : ℕ} (h : StackReady lay kept₀ m₀ roots p m pm kept l us) (hg : g ∈ kept₀)
    (hal : PGSIZE ∣ g) (hoff : off + t.length < PGSIZE) (hn : n = t.length) (hlen : t.length ≤ 7)
    (ht : ∀ i ≤ t.length, m.byte (g + off + i) = (t.getD i 0).toNat)
    (e₂ : memcpyBytes km.toKernelMap (1 + n) (us + 0xff8) (g + off) m = .ok (written, m'))
    (e₃ : userVaToPa p.pagetable (USER_STACK_TOP - PGSIZE + 0xff0) m' = .ok (q, m₁))
    (hx : x = ⟨p, (((m₁.store q (USER_STACK_TOP - 8)).store (p.trapframe + REG_SP) a).store
      (p.trapframe + REG_A1) (USER_STACK_TOP - 16)).store (p.trapframe + REG_A0) 1,
      written ++ (List.range 8).map (q + ·)⟩) : ArgPassed x t := by
  obtain ⟨perm, hv, hread⟩ := h.stack
  have husk := h.spaces.framed _ h.root _ us perm hv
  have husp := (h.spaces.keptPage us husk).1
  have hne : g ≠ us := fun he => h.new (by omega) e₂ (he ▸ hg)
  -- the string
  have hapart : us + 0xff8 + (1 + n) ≤ g + off ∨ g + off + (1 + n) ≤ us + 0xff8 := by
    obtain ⟨y, rfl⟩ := hal
    obtain ⟨z, rfl⟩ := husp
    simp only [PGSIZE] at *
    omega
  have hlenw : (Mach.bytesFrom m (g + off) (1 + n)).length = 1 + n := by
    rw [Mach.bytesFrom, List.length_map, List.length_range]
  have hm' := memcpyBytes_eq hapart e₂
  have hbytes : ∀ i ≤ t.length, m'.byte (us + 0xff8 + i) = (t.getD i 0).toNat := by
    intro i hi
    have hlt : m.byte (g + off + i) < 2 ^ 8 := Nat.mod_lt _ (by decide)
    rw [hm', Mach.byte_writeBytes, hlenw, if_pos ⟨by omega, by omega⟩, Nat.add_sub_cancel_left,
      ← ht i hi, Mach.bytesFrom, List.getD_eq_getElem _ _ (by simp; omega), List.getElem_map,
      List.getElem_range, UInt8.toNat_ofNat', Nat.mod_eq_of_lt hlt]
  have hglob := Mach.writeBytes_globals (m := m) (p := us + 0xff8)
    (Mach.bytesFrom m (g + off) (1 + n))
  rw [← hm'] at hglob
  have hout : ∀ b, ¬ (us ≤ b ∧ b < us + PGSIZE) → m'.mem b = m.mem b := by
    intro b hb
    rw [hm']
    refine Mach.writeBytes_mem ?_
    rw [hlenw]
    obtain ⟨z, rfl⟩ := husp
    simp only [PGSIZE] at *
    omega
  obtain ⟨h', -⟩ := h.spaces.write husk hout hglob.1 hglob.2.1 hglob.2.2
  -- the pointer
  obtain ⟨hdiv, hmod⟩ := stackVa (k := 0xff0) (by decide)
  rw [userVaToPa_of_map (h'.table _ h.root) (hdiv.symm ▸ hv), hmod] at e₃
  obtain ⟨rfl, rfl⟩ := Prod.mk.inj (Except.ok.inj e₃)
  have htouch : Touches us m' (m'.store (us + 0xff0) (USER_STACK_TOP - 8)) :=
    Mach.store_touches (Nat.le_add_right us _) (by simp only [PGSIZE]; omega)
  obtain ⟨h₂, -⟩ := h'.write husk htouch.mem htouch.head htouch.lock htouch.start
  have h8 : 8 ∣ us + 0xff0 := by
    obtain ⟨z, rfl⟩ := husp
    simp only [PGSIZE]
    omega
  -- the registers
  obtain ⟨perm', htf⟩ := h.trapframe.entry
  have htfk := h.spaces.framed _ h.root _ _ perm' htf
  set m₂ := m'.store (us + 0xff0) (USER_STACK_TOP - 8) with hm₂
  set m₃ := ((m₂.store (p.trapframe + REG_SP) a).store (p.trapframe + REG_A1)
    (USER_STACK_TOP - 16)).store (p.trapframe + REG_A0) 1 with hm₃
  have hregs : ∀ b, ¬ (p.trapframe ≤ b ∧ b < p.trapframe + PGSIZE) → m₃.mem b = m₂.mem b := by
    intro b hb
    have hne : ∀ reg < PGSIZE, b ≠ p.trapframe + reg := by
      rintro reg hreg rfl
      omega
    rw [hm₃, Mach.store_of_ne _ _ (hne _ (by decide)), Mach.store_of_ne _ _ (hne _ (by decide)),
      Mach.store_of_ne _ _ (hne _ (by decide))]
  obtain ⟨h₃, hs₃⟩ := h₂.write htfk hregs rfl rfl rfl
  have hbyte : ∀ k < PGSIZE, m₃.byte (us + k) = m₂.byte (us + k) := fun k hk =>
    hs₃.byte ⟨husk, fun he => h.apart (Set.mem_singleton_iff.1 he)⟩ husp hk
  have hloads : ∀ k < PGSIZE, ∀ b, m₂.byte (us + k) = b →
      LoadsByte p m₃ (USER_STACK_TOP - PGSIZE + k) b := by
    intro k hk b hb
    obtain ⟨hdiv, hmod⟩ := stackVa hk
    rw [loadsByte_iff (h₃.table _ h.root) (hdiv.symm ▸ hv) hread, hmod, hbyte k hk, hb]
  have ha1 : m₃.mem (p.trapframe + REG_A1) = USER_STACK_TOP - PGSIZE + 0xff0 := by
    rw [hm₃, Mach.store_of_ne _ _ (by simp only [REG_A1, REG_A0]; omega), Mach.store_self]
    decide
  rw [hx]
  refine ⟨Mach.store_self _ _ _, ⟨USER_STACK_TOP - 8, by decide, fun i hi => ?_, fun i hi => ?_⟩,
    us, (mapsTo_iff (h₃.table _ h.root)).2 ⟨perm, hv⟩, fun b hb => ?_⟩
  · have hva : USER_STACK_TOP - 8 + i = USER_STACK_TOP - PGSIZE + (0xff8 + i) := by
      simp only [USER_STACK_TOP, PGSIZE]
      omega
    rw [hva]
    refine hloads _ (by simp only [PGSIZE]; omega) _ ?_
    rw [hm₂, byte_store_of_ne h8 (by omega), ← Nat.add_assoc, hbytes i hi]
  · dsimp only
    rw [ha1, Nat.add_assoc]
    refine hloads _ (by simp only [PGSIZE]; omega) _ ?_
    rw [hm₂, ← Nat.add_assoc, byte_store h8 hi]
  · dsimp only at hb
    rw [(memcpyBytes_written e₂).1] at hb
    simp only [List.mem_append, List.mem_map, List.mem_range] at hb
    simp only [PGSIZE]
    rcases hb with ⟨i, hi, rfl⟩ | ⟨i, hi, rfl⟩ <;> omega

end StackReady

/-! ## The argument -/

/-- A string on one page of a process is on one frame, from the address that `user_va_to_pa` gives
on. -/
theorem exists_argv {spaces : List Space} (h : SysInv lay m spaces pm kept) (hp : p ∈ spaces)
    (hpage : va % PGSIZE + t.length < PGSIZE) (ht : ReadsString p m va t) :
    ∃ g ∈ kept, PGSIZE ∣ g ∧ userVaToPa p.pagetable va m = .ok (g + va % PGSIZE, m) ∧
      ∀ i ≤ t.length, m.byte (g + va % PGSIZE + i) = (t.getD i 0).toNat := by
  obtain ⟨l, hl⟩ := h.tables
  have hinv := hl.table _ (mem_rootsOf hp)
  obtain ⟨pa, hpa, -⟩ := ht 0 (Nat.zero_le _)
  rw [Nat.add_zero, hinv.translate (by decide)] at hpa
  obtain ⟨⟨g, perm⟩, hv, hpa⟩ := Option.bind_eq_some_iff.1 hpa
  have hr := (Option.ite_none_right_eq_some.1 hpa).1
  obtain ⟨hg, hal⟩ := h.framed (mem_rootsOf hp) hv
  refine ⟨g, hg, hal, userVaToPa_of_map hinv hv, fun i hi => ?_⟩
  have hsplit : (va + i) / PGSIZE = va / PGSIZE ∧ (va + i) % PGSIZE = va % PGSIZE + i := by
    simp only [PGSIZE] at *
    omega
  have hv' : pm p.pagetable ((va + i) / PGSIZE) = some (g, perm) := hsplit.1.symm ▸ hv
  have hload := (loadsByte_iff hinv hv' hr).1 (ht i hi)
  rw [hsplit.2, ← Nat.add_assoc] at hload
  exact hload

/-- **The argument arrives exactly if it has at most 7 characters**, when it does not go over the
end of a page and the program starts no segment at its trapframe or off the pages. -/
theorem execArg_iff {s : Sys} {km : LinkedMap lay} {opened closed para : ℕ}
    (run : Run lay EventOk s) (hp : caller ∈ s.spaces) (prog : ProgramOk f s.mach) (h0 : 0 ∉ t)
    (ht : ReadsString caller s.mach para t) (hpage : para % PGSIZE + t.length < PGSIZE)
    (exec : doExec lay km.toKernelMap f opened closed caller para s.mach = .ok x) :
    ArgPassed x t ↔ t.length ≤ 7 := by
  obtain ⟨pm, kept, h⟩ := run.inv fun _ _ hc => hc
  obtain ⟨g, hg, hal, hargv, hbytes⟩ := exists_argv h hp hpage ht
  rw [doExec, hargv, ok_bind] at exec
  dsimp only at exec
  obtain ⟨⟨p, m₁⟩, e₁, exec⟩ := (bind_ok_iff _ _ _).1 exec
  obtain ⟨⟨p₂, m₂⟩, e₂, exec⟩ := (bind_ok_iff _ _ _).1 exec
  obtain ⟨⟨p₃, m₃⟩, e₃, exec⟩ := (bind_ok_iff _ _ _).1 exec
  obtain ⟨htf, pm₁, kept₁, l₁, h₁⟩ := Executing.start h e₁
  obtain ⟨pm₂, kept₂, l₂, h₂⟩ := h₁.loadBincode prog htf e₂
  obtain ⟨pm₃, kept₃, l₃, us, h₃⟩ := h₂.firstHeapPage e₃
  obtain ⟨n, written, m₄, sp2, m₅, hlen, hcopy, hsp2, hx⟩ := h₃.push_ok exec
  have hsame : ∀ i ≤ t.length, m₃.byte (g + para % PGSIZE + i) = (t.getD i 0).toNat := by
    intro i hi
    rw [Nat.add_assoc, h₃.same.byte hg hal (by omega), ← Nat.add_assoc, hbytes i hi]
  have hn := strlen_eq hsame h0 hlen
  constructor
  · exact h₃.length_le hn hcopy (by rw [hx])
  · exact fun hle => h₃.passed hg hal hpage hn hle hsame hcopy hsp2 hx

/-! ## Seven and eight characters -/

/-- The map of a kernel with one page of text, in a memory of 64 pages. -/
def smallLinked : LinkedMap smallKernel where
  etext := 0x80001000
  top := 0x80040000
  above := Mm.smallMap.above
  top_le := by decide
  text := by decide

/-- The string `12...` of `n` characters. -/
def digits (n : ℕ) : List UInt8 := (List.range n).map fun i => UInt8.ofNat (0x31 + i)

/-- A process writes the string to its heap and executes a program with it. -/
def execDigits (n : ℕ) : Except Fault (Sys × Space × Executed) := do
  let s ← runFrom smallKernel 0x40000 (.allocate 0 ::
    (List.range n).map fun i => .store 0 (0x400010 + i) 0 (0x31 + i))
  let p ← s.space 0
  let x ← doExec smallKernel smallLinked.toKernelMap (oneSegment 0) 0 0 p 0x400010 s.mach
  return (s, p, x)

theorem exists_execDigits (n : ℕ) (hn : n = 7 ∨ n = 8) : ∃ s p x, Run smallKernel EventOk s ∧
    p ∈ s.spaces ∧ ReadsString p s.mach 0x400010 (digits n) ∧ ProgramOk (oneSegment 0) s.mach ∧
      doExec smallKernel smallLinked.toKernelMap (oneSegment 0) 0 0 p 0x400010 s.mach = .ok x ∧
      execDigits n = .ok (s, p, x) := by
  have htest : (execDigits n).toOption.map (fun r =>
      (decide (r.1.mach.gFreeMemList = 0x10000), (List.range (n + 1)).map fun i =>
        (translate r.2.1.pagetable PTE_R (0x400010 + i) r.1.mach).map r.1.mach.byte)) =
      some (false, (List.range (n + 1)).map fun i => some ((digits n).getD i 0).toNat) := by
    rcases hn with rfl | rfl <;> decide +kernel
  obtain ⟨⟨s, p, x⟩, hx, heq⟩ := Option.map_eq_some_iff.1 htest
  obtain ⟨hhead, hread⟩ := Prod.mk.inj heq
  have hrun := toOption_eq_some.1 hx
  rw [execDigits] at hrun
  obtain ⟨s₀, e₀, hrun⟩ := (bind_ok_iff _ _ _).1 hrun
  obtain ⟨p₀, e₁, hrun⟩ := (bind_ok_iff _ _ _).1 hrun
  obtain ⟨x₀, e₂, hrun⟩ := (bind_ok_iff _ _ _).1 hrun
  cases hrun
  have hlen : (digits n).length = n := by rw [digits, List.length_map, List.length_range]
  have hload : loadHeaders (oneSegment 0) (elfInit ⟨oneSegment 0, 0⟩).2.1.phnum
      (elfInit ⟨oneSegment 0, 0⟩).2.1.phoff = [⟨1, 6, 120, 0x10000, 1, 2⟩] := by decide +kernel
  refine ⟨s, p, x, .of_runFrom e₀ fun e he s => ?_, List.mem_of_getElem? (Sys.space_ok e₁),
    fun i hi => ?_, ⟨⟨?_, ?_⟩, ?_⟩, e₂, toOption_eq_some.1 hx⟩
  · rcases List.mem_cons.1 he with rfl | he
    · trivial
    · obtain ⟨i, -, rfl⟩ := List.mem_map.1 he
      trivial
  · rw [hlen] at hi
    have hi' := List.map_inj_left.1 hread i (List.mem_range.2 (by omega))
    exact Option.map_eq_some_iff.1 hi'
  · decide +kernel
  · rw [hload]
    decide
  · rw [hload]
    intro ph hph he
    obtain rfl := List.mem_singleton.1 hph
    exact of_decide_eq_false hhead he.symm

/-- Seven characters arrive. -/
theorem execArg_iff_seven : ∃ s p x, Run smallKernel EventOk s ∧ p ∈ s.spaces ∧
    doExec smallKernel smallLinked.toKernelMap (oneSegment 0) 0 0 p 0x400010 s.mach = .ok x ∧
      ArgPassed x (digits 7) := by
  obtain ⟨s, p, x, run, hp, hread, prog, e, -⟩ := exists_execDigits 7 (.inl rfl)
  exact ⟨s, p, x, run, hp, e,
    (execArg_iff run hp prog (by decide) hread (by decide) e).2 (by decide)⟩

/-- **Eight characters do not arrive**: the final zero goes to the page behind the stack. -/
theorem execArg_lost : ¬ ∀ lay (km : LinkedMap lay) f opened closed s caller para t x,
    Run lay EventOk s → caller ∈ s.spaces → 0 ∉ t → t.length < 256 →
    ReadsString caller s.mach para t →
    doExec lay km.toKernelMap f opened closed caller para s.mach = .ok x → ArgPassed x t := by
  intro hall
  obtain ⟨s, p, x, run, hp, hread, -, e, hx⟩ := exists_execDigits 8 (.inr rfl)
  have hpass := hall smallKernel smallLinked _ 0 0 s p _ _ x run hp (by decide) (by decide) hread e
  have htest : (execDigits 8).toOption.map (fun r => r.2.2.written) =
      some ((List.range 9).map (0x8002eff8 + ·) ++ (List.range 8).map (0x8002eff0 + ·)) := by
    decide +kernel
  rw [hx] at htest
  have hwritten : x.written = _ := Option.some.inj htest
  obtain ⟨us, ⟨-, w, -, -, rfl⟩, hin⟩ := hpass.inside
  rw [hwritten] at hin
  have hfirst := hin 0x8002eff8 (by decide)
  have hlast := hin 0x8002f000 (by decide)
  obtain ⟨y, hy⟩ := dvd_pte2pa w
  simp only [PGSIZE] at *
  omega

end HustOS.Elf
