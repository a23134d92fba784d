import HustOS.Mm.Copyout
import HustOS.Mm.Isolation

/-!
# Paths in user memory

`sys_user_open`, `sys_user_opendir`, `sys_user_mkdir`, `sys_user_link`, `sys_user_unlink` and
`sys_user_exec` of `kernel/syscall.c` take paths from the memory of the process. Each translates a
pointer once, by `user_va_to_pa`, and the functions of the file system read the bytes from the
physical address on, up to the first zero. `do_exec` makes the new process in between.

So a path is read as the process wrote it exactly if it ends on the page where it begins, or the
memory behind the frame of that page goes on with it (`paths_iff`), as it does if the frames follow
each other like the pages (`goesOn_of_frames`).
-/

namespace HustOS.Mm

open Foundations

/-! ## The calls -/

/-- The bytes from an address on up to the first zero, if it is among the next `n`. -/
def cstringLoop (m : Mach) : ℕ → ℕ → Except Fault (List UInt8)
  | 0, _ => throw (.panic "usertrap: not from user mode")
  | n + 1, a => do
    if m.byte a = 0 then
      return []
    let rest ← cstringLoop m n (a + 1)
    return UInt8.ofNat (m.byte a) :: rest

/-- The string that the kernel reads at a physical address. -/
def KernelMap.cstring (km : KernelMap) (a : ℕ) (m : Mach) : Except Fault (List UInt8) :=
  if a < KERN_BASE then throw (.panic "usertrap: not from user mode")
  else cstringLoop m (km.top - a) a

section Calls

variable (km : KernelMap) (pt : ℕ)

/-- The path at a pointer of a process. -/
def userPath (va : ℕ) (m : Mach) : Except Fault (List UInt8) := do
  let (pa, m) ← userVaToPa pt va m
  km.cstring pa m

/-- The path of `sys_user_open`, before it looks for a dot. -/
def sysUserOpen (pathva : ℕ) (m : Mach) : Except Fault (List UInt8) := userPath km pt pathva m

/-- The path of `sys_user_opendir`. -/
def sysUserOpendir (pathva : ℕ) (m : Mach) : Except Fault (List UInt8) := userPath km pt pathva m

/-- The path of `sys_user_mkdir`. -/
def sysUserMkdir (pathva : ℕ) (m : Mach) : Except Fault (List UInt8) := userPath km pt pathva m

/-- The paths of `sys_user_link`. -/
def sysUserLink (vfn1 vfn2 : ℕ) (m : Mach) : Except Fault (List UInt8 × List UInt8) := do
  let (pfn1, m) ← userVaToPa pt vfn1 m
  let (pfn2, m) ← userVaToPa pt vfn2 m
  let fn1 ← km.cstring pfn1 m
  let fn2 ← km.cstring pfn2 m
  return (fn1, fn2)

/-- The path of `sys_user_unlink`. -/
def sysUserUnlink (vfn : ℕ) (m : Mach) : Except Fault (List UInt8) := userPath km pt vfn m

/-- The path of `sys_user_exec`: `do_exec` makes the new process before
`load_bincode_from_host_elf` reads it. -/
def sysUserExec (lay : Layout) (s para : ℕ) (m : Mach) : Except Fault (List UInt8) := do
  let (filename, m) ← userVaToPa pt s m
  let (_, m) ← userVaToPa pt para m
  let (_, m) ← allocProcess lay m
  km.cstring filename m

end Calls

/-- A system call that takes paths. -/
inductive PathCall
  | open (pathva : ℕ)
  | opendir (pathva : ℕ)
  | mkdir (pathva : ℕ)
  | link (vfn1 vfn2 : ℕ)
  | unlink (vfn : ℕ)
  | exec (s para : ℕ)

namespace PathCall

/-- The pointers to the paths. -/
def args : PathCall → List ℕ
  | «open» pathva | opendir pathva | mkdir pathva => [pathva]
  | link vfn1 vfn2 => [vfn1, vfn2]
  | unlink vfn => [vfn]
  | exec s _ => [s]

/-- The paths that a call of the process with the page table `pt` takes. -/
def paths (lay : Layout) (km : KernelMap) (pt : ℕ) (m : Mach) :
    PathCall → Except Fault (List (List UInt8))
  | «open» pathva => return [← sysUserOpen km pt pathva m]
  | opendir pathva => return [← sysUserOpendir km pt pathva m]
  | mkdir pathva => return [← sysUserMkdir km pt pathva m]
  | link vfn1 vfn2 => do
    let (fn1, fn2) ← sysUserLink km pt vfn1 vfn2 m
    return [fn1, fn2]
  | unlink vfn => return [← sysUserUnlink km pt vfn m]
  | exec s para => return [← sysUserExec km pt lay s para m]

/-- The memory in which the paths are read. -/
def readIn (lay : Layout) (m : Mach) : PathCall → Except Fault Mach
  | exec _ _ => do
    let (_, m) ← allocProcess lay m
    return m
  | _ => return m

end PathCall

/-! ## The property -/

/-- The string `t` is in the memory of the process from `va` on, with its final zero. -/
structure UserString (km : KernelMap) (pt : ℕ) (m : Mach) (va : ℕ) (t : List UInt8) : Prop where
  noZero : 0 ∉ t
  bytes : ∀ i ≤ t.length, ∃ pa, translate pt PTE_R (va + i) m = some pa ∧ KERN_BASE ≤ pa ∧
    pa < km.top ∧ m.byte pa = (t.getD i 0).toNat
  /-- The table of the first page is not at the address 0. -/
  table : ∀ q ∈ nodeAt (entry m) pt [idx 2 va, idx 1 va], q ≠ 0

/-- The frame of the page of `va`. -/
def frameOf (pt : ℕ) (m : Mach) (va : ℕ) : Option ℕ := (pteOf pt va m).map pte2pa

/-- The memory `m'` goes on behind the frame of the page of `va` with what the string has behind
that page. -/
def GoesOn (km : KernelMap) (pt : ℕ) (m m' : Mach) (va : ℕ) (t : List UInt8) : Prop :=
  ∀ f ∈ frameOf pt m va, ∀ i ≤ t.length, PGSIZE ≤ va % PGSIZE + i →
    f + (va % PGSIZE + i) < km.top ∧ m'.byte (f + (va % PGSIZE + i)) = (t.getD i 0).toNat

/-- The free pages are pages, and neither the page `f` nor that of the trap vector is free. -/
structure InUse (lay : Layout) (m : Mach) (f : ℕ) : Prop where
  unlocked : m.count5 = 1
  trapSec : PGSIZE ∣ lay.trapSecStart ∧ lay.trapSecStart < 2 ^ 56
  free : ∃ l, Chain 0 m.mem m.gFreeMemList l ∧ l.Nodup ∧
    ∀ q ∈ l, (PGSIZE ∣ q ∧ q < 2 ^ 56) ∧ q ≠ f ∧ q ≠ lay.trapSecStart

variable {lay : Layout} {km : KernelMap} {pt : ℕ} {m m' : Mach} {va a n f : ℕ} {t : List UInt8}

/-! ## Strings that the kernel reads -/

theorem cstringLoop_succ : cstringLoop m (n + 1) a = .ok t ↔ m.byte a = 0 ∧ t = [] ∨
    m.byte a ≠ 0 ∧ ∃ rest, cstringLoop m n (a + 1) = .ok rest ∧
      t = UInt8.ofNat (m.byte a) :: rest := by
  rw [cstringLoop]
  by_cases hz : m.byte a = 0
  · simp [hz, eq_comm]
  · simp only [hz, if_false, false_and, false_or, ne_eq, not_false_eq_true, true_and]
    refine (bind_ok_iff _ _ _).trans (exists_congr fun rest => and_congr_right fun _ => ?_)
    exact ⟨fun h => (Except.ok.inj h).symm, fun h => congrArg _ h.symm⟩

/-- The loop returns the string that is in memory, if it comes to its end. -/
theorem cstringLoop_iff (h0 : 0 ∉ t) : cstringLoop m n a = .ok t ↔
    t.length < n ∧ ∀ i ≤ t.length, m.byte (a + i) = (t.getD i 0).toNat := by
  induction t generalizing n a with
  | nil =>
    cases n with
    | zero => exact ⟨nofun, fun h => absurd h.1 (lt_irrefl 0)⟩
    | succ n =>
      rw [cstringLoop_succ]
      simp
  | cons c t ih =>
    obtain ⟨hc, h0⟩ : (0 : UInt8) ≠ c ∧ 0 ∉ t := by simpa using h0
    cases n with
    | zero => exact ⟨nofun, fun h => absurd h.1 (Nat.not_lt_zero _)⟩
    | succ n =>
      have hbyte : m.byte a < 2 ^ 8 := Nat.mod_lt _ (by decide)
      have hhead : UInt8.ofNat (m.byte a) = c ↔ m.byte a = c.toNat := by
        rw [← UInt8.toNat_inj, UInt8.toNat_ofNat', Nat.mod_eq_of_lt hbyte]
      rw [cstringLoop_succ]
      constructor
      · rintro (⟨-, h⟩ | ⟨-, rest, hrest, h⟩)
        · cases h
        · obtain ⟨hcb, rfl⟩ := List.cons.inj h
          obtain ⟨hlt, hbytes⟩ := (ih h0).1 hrest
          refine ⟨Nat.succ_lt_succ hlt, fun i hi => ?_⟩
          cases i with
          | zero => exact hhead.1 hcb.symm
          | succ i =>
            rw [List.getD_cons_succ, ← hbytes i (Nat.le_of_succ_le_succ hi), Nat.add_right_comm,
              Nat.add_assoc]
      · rintro ⟨hlt, hbytes⟩
        have hfirst : m.byte a = c.toNat := hbytes 0 (Nat.zero_le _)
        refine .inr ⟨fun hz => hc ?_, t, (ih h0).2 ⟨Nat.lt_of_succ_lt_succ hlt, fun i hi => ?_⟩, ?_⟩
        · rw [← UInt8.toNat_inj, ← hfirst, hz]
          rfl
        · have := hbytes (i + 1) (Nat.succ_le_succ hi)
          rwa [← Nat.add_assoc, Nat.add_right_comm] at this
        · rw [hhead.2 hfirst]

/-- **A string is read** exactly if its bytes are there, in the memory that the kernel maps. -/
theorem cstring_iff (h0 : 0 ∉ t) : km.cstring a m = .ok t ↔ KERN_BASE ≤ a ∧
    a + t.length < km.top ∧ ∀ i ≤ t.length, m.byte (a + i) = (t.getD i 0).toNat := by
  rw [KernelMap.cstring]
  by_cases ha : a < KERN_BASE
  · rw [if_pos ha]
    exact ⟨nofun, fun h => absurd ha (not_lt.2 h.1)⟩
  · rw [if_neg ha, cstringLoop_iff h0, Nat.lt_sub_iff_add_lt']
    exact (and_iff_right (not_lt.1 ha)).symm

/-! ## The first page of a string -/

/-- The table of `va` leads to the frame `f`, where the first page of the string is. -/
structure FirstPage (km : KernelMap) (pt : ℕ) (m : Mach) (va : ℕ) (t : List UInt8) (f : ℕ) :
    Prop where
  frame : frameOf pt m va = some f
  aligned : PGSIZE ∣ f
  above : KERN_BASE ≤ f + va % PGSIZE
  below : f < km.top
  translated : userVaToPa pt va m = .ok (f + va % PGSIZE, m)
  bytes : ∀ i ≤ t.length, va % PGSIZE + i < PGSIZE → f + (va % PGSIZE + i) < km.top ∧
    m.byte (f + (va % PGSIZE + i)) = (t.getD i 0).toNat

/-- What a translation says of the last-level entry. -/
theorem translate_some {perm pa : ℕ} (h : translate pt perm va m = some pa) : va < MAXVA ∧
    ∃ w, pteOf pt va m = some w ∧ w &&& (PTE_V ||| PTE_U ||| perm) = PTE_V ||| PTE_U ||| perm ∧
      pa = pte2pa w + va % PGSIZE := by
  rw [translate] at h
  split at h
  · cases h
  · rename_i hva
    split at h
    · cases h
    · rename_i w hw
      obtain ⟨hbits, h⟩ := Option.ite_none_right_eq_some.1 h
      exact ⟨not_le.1 hva, w, hw, hbits, (Option.some.inj h).symm⟩

/-- A word has the bits that it has with others. -/
theorem land_of_bits {w p b : ℕ} (h : w &&& p = p) (hb : p &&& b = b) : w &&& b = b :=
  calc w &&& b = w &&& (p &&& b) := by rw [hb]
    _ = p &&& b := by rw [← Nat.land_assoc, h]
    _ = b := hb

/-- `lookup_pa` of a page that the process may read. -/
theorem lookupPa_of_readable {w : ℕ} (hva : va < MAXVA) (hw : pteOf pt va m = some w)
    (hbits : w &&& (PTE_V ||| PTE_U ||| PTE_R) = PTE_V ||| PTE_U ||| PTE_R)
    (htable : ∀ q ∈ nodeAt (entry m) pt [idx 2 va, idx 1 va], q ≠ 0) :
    lookupPa pt va m = .ok (pte2pa w, m) := by
  rw [lookupPa, if_neg (not_le.2 hva), pageWalk_false hva, ok_bind]
  rw [pteOf] at hw
  obtain ⟨q, hq, rfl⟩ := Option.map_eq_some_iff.1 hw
  rw [hq]
  simp only [Option.map_some, Option.getD_some]
  have hne : q + 8 * px 0 va ≠ 0 := fun h => htable q hq (Nat.eq_zero_of_add_eq_zero_right h)
  rw [if_neg hne, if_neg]
  · rfl
  · rintro (h | ⟨h, -⟩)
    · exact absurd ((land_of_bits hbits (by decide)).symm.trans h) (by decide)
    · exact absurd ((land_of_bits hbits (by decide)).symm.trans h) (by decide)

theorem UserString.firstPage (hs : UserString km pt m va t) :
    ∃ f, FirstPage km pt m va t f := by
  obtain ⟨pa, hpa, habove, hbelow, -⟩ := hs.bytes 0 (Nat.zero_le _)
  obtain ⟨hva, w, hw, hbits, rfl⟩ := translate_some hpa
  rw [Nat.add_zero] at hva hw habove hbelow
  have htop := km.top_le
  have hlt : pte2pa w + va % PGSIZE < 2 ^ 64 := by
    simp only [DRAM_BASE, PKE_MAX_ALLOWABLE_RAM] at *
    omega
  have hand : va &&& 0xfff = va % PGSIZE := Nat.and_two_pow_sub_one_eq_mod _ 12
  refine ⟨pte2pa w, ?_, ?_, habove, by omega, ?_, fun i hi hpage => ?_⟩
  · rw [frameOf, hw]
    rfl
  · rw [pte2pa, Nat.shiftLeft_eq]
    exact (Nat.dvd_mod_iff (by decide)).2 (Dvd.intro_left _ rfl)
  · rw [userVaToPa, lookupPa_of_readable hva hw hbits hs.table, ok_bind, hand]
    dsimp only
    rw [Nat.mod_eq_of_lt hlt]
    rfl
  · obtain ⟨pa, hpa, -, htop, hbyte⟩ := hs.bytes i hi
    obtain ⟨-, w', hw', -, rfl⟩ := translate_some hpa
    have hsplit : (va + i) / PGSIZE = va / PGSIZE ∧ (va + i) % PGSIZE = va % PGSIZE + i := by
      simp only [PGSIZE] at *
      omega
    rw [pteOf_page m hsplit.1] at hw'
    obtain rfl := Option.some.inj (hw.symm.trans hw')
    rw [hsplit.2] at htop hbyte
    exact ⟨htop, hbyte⟩

/-- What is read at the address of the first byte, in a memory with the same first page. -/
theorem FirstPage.cstring_iff (hp : FirstPage km pt m va t f) (h0 : 0 ∉ t)
    (hsame : ∀ off < PGSIZE, m'.byte (f + off) = m.byte (f + off)) :
    km.cstring (f + va % PGSIZE) m' = .ok t ↔ GoesOn km pt m m' va t := by
  rw [Mm.cstring_iff h0]
  constructor
  · rintro ⟨-, htop, hbytes⟩ f' hf' i hi -
    obtain rfl := Option.some.inj (hp.frame.symm.trans hf')
    rw [← Nat.add_assoc]
    exact ⟨by omega, hbytes i hi⟩
  · intro hgo
    have hall : ∀ i ≤ t.length, f + (va % PGSIZE + i) < km.top ∧
        m'.byte (f + (va % PGSIZE + i)) = (t.getD i 0).toNat := by
      intro i hi
      rcases Nat.lt_or_ge (va % PGSIZE + i) PGSIZE with hpage | hpage
      · rw [hsame _ hpage]
        exact hp.bytes i hi hpage
      · exact hgo f hp.frame i hi hpage
    refine ⟨hp.above, ?_, fun i hi => ?_⟩
    · rw [Nat.add_assoc]
      exact (hall _ le_rfl).1
    · rw [Nat.add_assoc]
      exact (hall i hi).2

/-! ## The paths -/

/-- `alloc_process` does not touch a page in use. -/
theorem InUse.same {p : Space} (hu : InUse lay m f) (hf : PGSIZE ∣ f) (hlt : f < 2 ^ 56)
    (e : allocProcess lay m = .ok (p, m')) {off : ℕ} (hoff : off < PGSIZE) :
    m'.byte (f + off) = m.byte (f + off) := by
  obtain ⟨l, hchain, hnodup, hl⟩ := hu.free
  have hspaces : Spaces m ∅ (fun _ _ => none) {0, f, lay.trapSecStart} l := by
    refine ⟨hchain, hnodup, hu.unlocked, fun q hq => (hl q hq).1, fun _ h => h.elim,
      fun _ h => h.elim, fun _ h => h.elim, ?_, fun _ h => h.elim, ?_, fun _ h => h.elim,
      fun _ h => h.elim, .inl rfl⟩
    · rintro x (rfl | rfl | rfl)
      · exact ⟨dvd_zero _, by decide⟩
      · exact ⟨hf, hlt⟩
      · exact hu.trapSec
    · rintro x (rfl | rfl | rfl) hx
      · exact hchain.ne_null 0 hx rfl
      · exact (hl _ hx).2.1 rfl
      · exact (hl _ hx).2.2 rfl
  obtain ⟨_, _, _, -, hstage, -⟩ :=
    (Stage.start hspaces .refl).allocProcess (fun _ h => h.elim) (.inr (.inr rfl)) e
  exact hstage.same.byte (.inr (.inl rfl)) hf hoff

/-- A system call whose paths are strings of the process; the page of the program's path is in
use. -/
structure PathCall.Args (lay : Layout) (km : KernelMap) (pt : ℕ) (m m' : Mach) (call : PathCall)
    (ts : List (List UInt8)) : Prop where
  strings : List.Forall₂ (UserString km pt m) call.args ts
  reads : call.readIn lay m = .ok m'
  inUse : ∀ s para, call = .exec s para → ∀ f ∈ frameOf pt m s, InUse lay m f

theorem userPath_iff (hs : UserString km pt m va t) :
    userPath km pt va m = .ok t ↔ GoesOn km pt m m va t := by
  obtain ⟨f, hp⟩ := hs.firstPage
  rw [userPath, hp.translated]
  exact hp.cstring_iff hs.noZero fun _ _ => rfl

theorem sysUserLink_iff {va' : ℕ} {t' : List UInt8} (hs : UserString km pt m va t)
    (hs' : UserString km pt m va' t') : sysUserLink km pt va va' m = .ok (t, t') ↔
      GoesOn km pt m m va t ∧ GoesOn km pt m m va' t' := by
  rw [← userPath_iff hs, ← userPath_iff hs']
  obtain ⟨f, hp⟩ := hs.firstPage
  obtain ⟨f', hp'⟩ := hs'.firstPage
  rw [sysUserLink, userPath, userPath, hp.translated, hp'.translated, ok_bind, ok_bind]
  dsimp only
  rw [hp'.translated, ok_bind]
  simp only [bind_ok_iff, pure_eq_ok, Except.ok.injEq, Prod.mk.injEq, ok_bind]
  constructor
  · rintro ⟨a, ha, b, hb, rfl, rfl⟩
    exact ⟨ha, hb⟩
  · rintro ⟨ha, hb⟩
    exact ⟨t, ha, t', hb, rfl, rfl⟩

theorem sysUserExec_iff {para : ℕ} {p : Space} (hs : UserString km pt m va t)
    (hu : ∀ f ∈ frameOf pt m va, InUse lay m f) (e : allocProcess lay m = .ok (p, m')) :
    sysUserExec km pt lay va para m = .ok t ↔ GoesOn km pt m m' va t := by
  obtain ⟨f, hp⟩ := hs.firstPage
  obtain ⟨g, hg, -⟩ := exists_lookupPa pt para m
  have hlt : f < 2 ^ 56 := by
    have hbelow := hp.below
    have htop := km.top_le
    simp only [DRAM_BASE, PKE_MAX_ALLOWABLE_RAM] at htop
    omega
  rw [sysUserExec, hp.translated, ok_bind]
  dsimp only
  rw [userVaToPa, hg, ok_bind]
  dsimp only
  rw [pure_eq_ok, ok_bind]
  dsimp only
  rw [e]
  exact hp.cstring_iff hs.noZero fun off hoff =>
    (hu f (Option.mem_def.2 hp.frame)).same hp.aligned hlt e hoff

theorem list_single_iff {x : Except Fault (List UInt8)} :
    (do return [← x]) = Except.ok [t] ↔ x = .ok t := by
  rw [bind_ok_iff]
  simp

/-- **Paths of a process.** What a system call takes is what the process wrote exactly if each path
ends on the page where it begins or the memory behind the frame of that page goes on with it. -/
theorem paths_iff {call : PathCall} {ts : List (List UInt8)}
    (h : call.Args lay km pt m m' ts) : call.paths lay km pt m = .ok ts ↔
      List.Forall₂ (GoesOn km pt m m') call.args ts := by
  have hstrings := h.strings
  cases call with
  | link vfn1 vfn2 =>
    obtain rfl := Except.ok.inj h.reads
    obtain ⟨fn1, ts, hs₁, hrest, rfl⟩ := List.forall₂_cons_left_iff.1 hstrings
    obtain ⟨fn2, ts, hs₂, hnil, rfl⟩ := List.forall₂_cons_left_iff.1 hrest
    obtain rfl := List.forall₂_nil_left_iff.1 hnil
    simp only [PathCall.args, List.forall₂_cons, List.forall₂_nil_left_iff, and_true]
    rw [← sysUserLink_iff hs₁ hs₂, PathCall.paths, bind_ok_iff]
    constructor
    · rintro ⟨⟨a, b⟩, hab, heq⟩
      cases heq
      exact hab
    · exact fun hab => ⟨_, hab, rfl⟩
  | exec s para =>
    obtain ⟨⟨p, m₁⟩, e, heq⟩ := (bind_ok_iff _ _ _).1 h.reads
    obtain rfl := Except.ok.inj heq
    obtain ⟨t, ts, hs, hnil, rfl⟩ := List.forall₂_cons_left_iff.1 hstrings
    obtain rfl := List.forall₂_nil_left_iff.1 hnil
    simp only [PathCall.args, List.forall₂_cons, List.forall₂_nil_left_iff, and_true]
    rw [← sysUserExec_iff hs (h.inUse s para rfl) e, PathCall.paths, list_single_iff]
  | «open» va | opendir va | mkdir va | unlink va =>
    obtain rfl := Except.ok.inj h.reads
    obtain ⟨t, ts, hs, hnil, rfl⟩ := List.forall₂_cons_left_iff.1 hstrings
    obtain rfl := List.forall₂_nil_left_iff.1 hnil
    simp only [PathCall.args, List.forall₂_cons, List.forall₂_nil_left_iff, and_true]
    rw [← userPath_iff hs, PathCall.paths, list_single_iff]
    rfl

/-- The memory goes on with a string if the frames follow each other like the pages. -/
theorem goesOn_of_frames (hs : UserString km pt m va t)
    (hf : ∀ f ∈ frameOf pt m va, ∀ i ≤ t.length,
      frameOf pt m (va + i) = some (f + (va % PGSIZE + i) / PGSIZE * PGSIZE)) :
    GoesOn km pt m m va t := by
  intro f hfr i hi _
  obtain ⟨pa, hpa, -, htop, hbyte⟩ := hs.bytes i hi
  obtain ⟨-, w, hw, -, rfl⟩ := translate_some hpa
  have hframe := hf f hfr i hi
  rw [frameOf, hw] at hframe
  have hsum : pte2pa w + (va + i) % PGSIZE = f + (va % PGSIZE + i) := by
    rw [Option.some.inj hframe]
    simp only [PGSIZE]
    omega
  rw [← hsum]
  exact ⟨htop, hbyte⟩

/-- In every run the page of a string is in use. -/
theorem UserString.inUse {s : Sys} {p : Space} (run : Run lay EventOk s) (hp : p ∈ s.spaces)
    (hs : UserString km p.pagetable s.mach va t) (hf : f ∈ frameOf p.pagetable s.mach va) :
    InUse lay s.mach f := by
  obtain ⟨pm, kept, h⟩ := run.inv fun _ _ hc => hc
  obtain ⟨l, hl⟩ := h.tables
  obtain ⟨pa, hpa, -⟩ := hs.bytes 0 (Nat.zero_le _)
  obtain ⟨hva, w, hw, hbits, -⟩ := translate_some hpa
  rw [Nat.add_zero] at hva hw
  rw [frameOf, hw] at hf
  have hvalid : w &&& PTE_V ≠ 0 := fun hz =>
     absurd ((land_of_bits hbits (by decide)).symm.trans hz) (by decide)
  obtain ⟨perm, hmap⟩ := (PtInv.pteOf_iff (hl.table _ (mem_rootsOf hp)) hva).1 ⟨w, hw, hvalid, rfl⟩
  obtain rfl := Option.some.inj hf
  have hk := hl.framed _ (mem_rootsOf hp) _ _ perm hmap
  refine ⟨hl.unlocked, hl.keptPage _ h.trapSec, l, hl.chain, hl.nodup,
    fun q hq => ⟨hl.page q hq, ?_, ?_⟩⟩
  · rintro rfl
    exact hl.keptPool _ hk hq
  · rintro rfl
    exact hl.keptPool _ h.trapSec hq

/-! ## A path on two pages -/

instance (km : KernelMap) (pt : ℕ) (m : Mach) (va : ℕ) (t : List UInt8) :
    Decidable (UserString km pt m va t) :=
  decidable_of_iff (0 ∉ t ∧
    (∀ i ∈ List.range (t.length + 1), (translate pt PTE_R (va + i) m).any fun pa =>
      decide (KERN_BASE ≤ pa ∧ pa < km.top ∧ m.byte pa = (t.getD i 0).toNat)) ∧
    (nodeAt (entry m) pt [idx 2 va, idx 1 va]).all (fun q => decide (q ≠ 0)) = true) <| by
    constructor
    · rintro ⟨h0, hbytes, htable⟩
      refine ⟨h0, fun i hi => ?_, fun q hq => ?_⟩
      · obtain ⟨pa, hpa, h⟩ := (Option.any_eq_true _ _).1
          (hbytes i (List.mem_range.2 (Nat.lt_succ_of_le hi)))
        exact ⟨pa, hpa, of_decide_eq_true h⟩
      · exact of_decide_eq_true ((Option.all_eq_true _ _).1 htable q hq)
    · rintro ⟨h0, hbytes, htable⟩
      refine ⟨h0, fun i hi => ?_, ?_⟩
      · obtain ⟨pa, hpa, h⟩ := hbytes i (Nat.le_of_lt_succ (List.mem_range.1 hi))
        exact (Option.any_eq_true _ _).2 ⟨pa, hpa, decide_eq_true h⟩
      · exact (Option.all_eq_true _ _).2 fun q hq => decide_eq_true (htable q hq)

/-- A process with two pages of heap writes the string `/ab` there. -/
def writtenAt (va : ℕ) : Except Fault (Sys × Space) := do
  let s ← runFrom smallKernel 0x20000 [.allocate 0, .allocate 0, .store 0 va 0 0x2f,
    .store 0 (va + 1) 0 0x61, .store 0 (va + 2) 0 0x62, .store 0 (va + 3) 0 0]
  let p ← s.space 0
  return (s, p)

theorem writtenAt_run {s : Sys} {p : Space} (h : writtenAt va = .ok (s, p)) :
    Run smallKernel EventOk s ∧ p ∈ s.spaces := by
  rw [writtenAt] at h
  obtain ⟨s₀, e₀, h⟩ := (bind_ok_iff _ _ _).1 h
  obtain ⟨p₀, e₁, h⟩ := (bind_ok_iff _ _ _).1 h
  cases h
  refine ⟨.of_runFrom e₀ fun e he s => ?_, List.mem_of_getElem? (Sys.space_ok e₁)⟩
  simp only [List.mem_cons, List.not_mem_nil, or_false] at he
  rcases he with rfl | rfl | rfl | rfl | rfl | rfl <;> trivial

/-- The path `/ab` of a program, on one page. -/
theorem paths_iff_exec : ∃ (s : Sys) (p : Space) (m' : Mach),
    (PathCall.exec 0x400000 0).Args smallKernel smallMap p.pagetable s.mach m' [[47, 97, 98]] ∧
    ((PathCall.exec 0x400000 0).paths smallKernel smallMap p.pagetable s.mach =
      .ok [[47, 97, 98]] ↔
      List.Forall₂ (GoesOn smallMap p.pagetable s.mach m') [0x400000] [[47, 97, 98]]) := by
  have htest : (writtenAt 0x400000).toOption.map (fun r =>
      (decide (UserString smallMap r.2.pagetable r.1.mach 0x400000 [47, 97, 98]),
        ((PathCall.exec 0x400000 0).readIn smallKernel r.1.mach).toOption.isSome)) =
      some (true, true) := by
    decide +kernel
  obtain ⟨⟨s, p⟩, hw, heq⟩ := Option.map_eq_some_iff.1 htest
  obtain ⟨hstring, hread⟩ := Prod.mk.inj heq
  obtain ⟨run, hp⟩ := writtenAt_run (toOption_eq_some.1 hw)
  obtain ⟨m', hm'⟩ := Option.isSome_iff_exists.1 hread
  have hs := of_decide_eq_true hstring
  have hargs : (PathCall.exec 0x400000 0).Args smallKernel smallMap p.pagetable s.mach m'
      [[47, 97, 98]] := by
    refine ⟨.cons hs .nil, toOption_eq_some.1 hm', fun s' para hcall f hf => ?_⟩
    cases hcall
    exact hs.inUse run hp hf
  exact ⟨s, p, m', hargs, paths_iff hargs⟩

/-- **A path on two pages is cut.** The process writes `/ab` at the end of a page, with the `b` on
the next one; `sys_user_mkdir` takes `/a`. -/
theorem path_cut : ∃ s p, Run smallKernel EventOk s ∧ p ∈ s.spaces ∧
    UserString smallMap p.pagetable s.mach 0x400ffe [47, 97, 98] ∧
    (PathCall.mkdir 0x400ffe).paths smallKernel smallMap p.pagetable s.mach = .ok [[47, 97]] := by
  have htest : (writtenAt 0x400ffe).toOption.map (fun r =>
      (decide (UserString smallMap r.2.pagetable r.1.mach 0x400ffe [47, 97, 98]),
        ((PathCall.mkdir 0x400ffe).paths smallKernel smallMap r.2.pagetable
          r.1.mach).toOption)) = some (true, some [[47, 97]]) := by
    decide +kernel
  obtain ⟨⟨s, p⟩, hw, heq⟩ := Option.map_eq_some_iff.1 htest
  obtain ⟨hstring, hpath⟩ := Prod.mk.inj heq
  obtain ⟨run, hp⟩ := writtenAt_run (toOption_eq_some.1 hw)
  exact ⟨s, p, run, hp, of_decide_eq_true hstring, toOption_eq_some.1 hpath⟩

end HustOS.Mm
