import HustOS.Elf.File
import HustOS.Mm.Segments

/-!
# Loading the segments of a program

`elf_load` of `kernel/elf.c` goes over the program headers of an open file. For each segment,
`elf_alloc_mb` maps one frame, or two adjacent ones for a segment of a page or more, and
`elf_fpread` reads the segment to the first frame.

The start of the segment in its page is not taken into account, nor is it that the file has `filesz`
bytes of the `memsz` of the segment. So the segment is what the format says only if it starts at a
page and the file has zeros behind its bytes (`elfLoad_iff`).
-/

namespace HustOS.Elf

open Foundations Mm

/-! ## The file -/

/-- An open file of the host, with the offset of the next read. -/
structure OpenFile where
  bytes : File
  pos : ℕ

/-- `elf_fpread`: a `vfs_lseek`, which leaves the offset as it is for a negative one, and a
`vfs_read`. -/
def OpenFile.fpread (o : OpenFile) (nb off : ℕ) : List UInt8 × OpenFile :=
  let pos := if off < 2 ^ 63 then off else o.pos
  let bs := (o.bytes.drop pos).take nb
  (bs, { o with pos := pos + bs.length })

abbrev ELF_MAGIC : ℕ := 0x464C457F

/-- A number that is kept in an `int`, as a `uint64`. -/
def intOffset (n : ℕ) : ℕ :=
  if n % 2 ^ 32 < 2 ^ 31 then n % 2 ^ 32 else n % 2 ^ 32 + (2 ^ 64 - 2 ^ 32)

/-! ## The memory of a segment -/

/-- The permissions of the pages of a segment. -/
abbrev segmentPerm : ℕ := protToType (PROT_WRITE ||| PROT_READ ||| PROT_EXEC) 1

/-- The start of `elf_alloc_mb`: a page that is mapped already is unmapped. -/
def clearPage (pagetable va : ℕ) (m : Mach) : Except Fault Mach := do
  let (pte, m) ← pageWalk pagetable va true m
  let w ← m.load pte
  if w &&& PTE_V ≠ 0 then userVmUnmap pagetable va PGSIZE 1 m else return m

/-- The two branches of `elf_alloc_mb`: `n` pages from `alloc` are cleared and mapped. -/
def mapBlock (alloc : Mach → Except Fault (ℕ × Mach)) (n pagetable va : ℕ) (m : Mach) :
    Except Fault (ℕ × Mach) := do
  let (pa, m) ← alloc m
  if pa = 0 then throw (.panic "uvmalloc mem alloc falied\n")
  let m ← m.memset pa (PGSIZE * n)
  let m ← userVmMap pagetable va (PGSIZE * n) pa segmentPerm m
  return (pa, m)

/-- `elf_alloc_mb`. -/
def elfAllocMb (pagetable va size : ℕ) (m : Mach) : Except Fault (ℕ × Mach) := do
  if 2 * PGSIZE ≤ size then throw (.assertion "size < 2 * PGSIZE")
  let m ← clearPage pagetable va m
  if size < PGSIZE then mapBlock allocPage 1 pagetable va m
  else mapBlock allocTwoPage 2 pagetable va m

/-! ## The loop -/

abbrev ELF_PROG_LOAD : ℕ := 1

abbrev SEGMENT_READABLE : ℕ := 4

abbrev SEGMENT_EXECUTABLE : ℕ := 1

abbrev SEGMENT_WRITABLE : ℕ := 2

/-- `elf_status`. -/
inductive ElfStatus
  | ok
  | eio
  | enomem
  | notelf
  | err
  deriving DecidableEq

/-- `elf_init`. -/
def elfInit (o : OpenFile) : ElfStatus × ElfHeader × OpenFile :=
  let (bs, o) := o.fpread ELF_HEADER_SIZE 0
  let ehdr := ElfHeader.ofBuf fun i => bs.getD i 0
  if bs.length ≠ ELF_HEADER_SIZE then (.eio, ehdr, o)
  else if ehdr.magic ≠ ELF_MAGIC then (.notelf, ehdr, o)
  else (.ok, ehdr, o)

/-- The number of places of `mapped_info`. -/
abbrev MAPPED_REGIONS : ℕ := PGSIZE / 16

/-- The type of a segment, by its flags. -/
def segmentType (flags : ℕ) : Except Fault SegType :=
  if flags = SEGMENT_READABLE ||| SEGMENT_EXECUTABLE then return .code
  else if flags = SEGMENT_READABLE ||| SEGMENT_WRITABLE then return .data
  else throw (.panic "unknown program segment encountered, segment flag:%d.\n")

/-- The entry of `mapped_info` for a segment: the first place whose address is zero. -/
def recordRegion (p : Space) (ph : ElfProgHeader) : Except Fault Space := do
  let segType ← segmentType ph.flags
  let region : Region := ⟨ph.vaddr, 1, segType⟩
  match p.regions.findIdx? (fun g => g.va = 0) with
  | some j => return { p with regions := p.regions.set j region }
  | none =>
    if MAPPED_REGIONS ≤ p.regions.length then throw (.undefined "mapped_info[]")
    return { p with regions := p.regions ++ [region] }

/-- One iteration of the loop of `elf_load`, with the header that was read. -/
def elfLoadSegment (ph : ElfProgHeader) (o : OpenFile) (p : Space) (m : Mach) :
    Except Fault (ElfStatus × OpenFile × Space × Mach) :=
  if ph.type ≠ ELF_PROG_LOAD then return (.ok, o, p, m)
  else if ph.memsz < ph.filesz then return (.err, o, p, m)
  else if (ph.vaddr + ph.memsz) % 2 ^ 64 < ph.vaddr then return (.err, o, p, m)
  else do
    let (dest, m) ← elfAllocMb p.pagetable ph.vaddr ph.memsz m
    let (bs, o) := o.fpread ph.memsz ph.off
    let m := m.writeBytes dest bs
    if bs.length ≠ ph.memsz then return (.eio, o, p, m)
    else do
      let p ← recordRegion p ph
      return (.ok, o, p, m)

/-- The loop of `elf_load` over `n` headers from `off` on. -/
def elfLoadLoop : ℕ → ℕ → OpenFile → Space → Mach →
    Except Fault (ElfStatus × OpenFile × Space × Mach)
  | 0, _, o, p, m => return (.ok, o, p, m)
  | n + 1, off, o, p, m => do
    let (bs, o) := o.fpread PROG_HEADER_SIZE off
    if bs.length ≠ PROG_HEADER_SIZE then return (.eio, o, p, m)
    else do
      let ph := ElfProgHeader.ofBuf fun i => bs.getD i 0
      let (status, o, p, m) ← elfLoadSegment ph o p m
      if status ≠ .ok then return (status, o, p, m)
      else elfLoadLoop n (intOffset (off + PROG_HEADER_SIZE)) o p m

/-- `elf_load`. -/
def elfLoad (ehdr : ElfHeader) (o : OpenFile) (p : Space) (m : Mach) :
    Except Fault (ElfStatus × OpenFile × Space × Mach) :=
  elfLoadLoop ehdr.phnum (intOffset ehdr.phoff) o p m

/-! ## The property -/

/-- What `alloc_process` makes among other processes; opening the file of the program takes pages
after it. -/
inductive FreshProcess (lay : Layout) : Space → Mach → Prop
  | alloc {s : Sys} {p : Space} {m : Mach} (run : Run lay EventOk s)
      (alloc : allocProcess lay s.mach = .ok (p, m)) : FreshProcess lay p m
  | take {p : Space} {q : ℕ} {m m' : Mach} (fresh : FreshProcess lay p m)
      (alloc : allocPage m = .ok (q, m')) : FreshProcess lay p m'

/-- A process loads the byte `b` at `va`. -/
def LoadsByte (p : Space) (m : Mach) (va b : ℕ) : Prop :=
  ∃ pa, translate p.pagetable PTE_R va m = some pa ∧ m.byte pa = b

/-- The segment of a header is in memory: the bytes of the file, and zeros behind them. -/
def SegmentLoaded (f : File) (p : Space) (m : Mach) (ph : ElfProgHeader) : Prop :=
  ∀ k < ph.memsz, LoadsByte p m (ph.vaddr + k)
    (if k < ph.filesz then (f.buf (ph.off + k)).toNat else 0)

/-- A valid entry of the tables of a process maps the page of `va` to the frame `f`. -/
def MapsTo (p : Space) (m : Mach) (va f : ℕ) : Prop :=
  va < MAXVA ∧ ∃ w, pteOf p.pagetable va m = some w ∧ w &&& PTE_V ≠ 0 ∧ pte2pa w = f

/-- The page `f` is on the free list. -/
def IsFree (m : Mach) (f : ℕ) : Prop := ∃ l, Chain 0 m.mem m.gFreeMemList l ∧ f ∈ l

/-- The frames that a process maps in `m'` are its own: it has mapped them in `m` already, or they
were free there; and they are not free now. -/
def OwnFrames (p : Space) (m : Mach) (p' : Space) (m' : Mach) : Prop :=
  ∀ va f, MapsTo p' m' va f → ((∃ va', MapsTo p m va' f) ∨ IsFree m f) ∧ ¬ IsFree m' f

/-- `n` program headers of a file, from an offset on. -/
def progHeaders (f : File) : ℕ → ℕ → List ElfProgHeader
  | 0, _ => []
  | n + 1, off => ElfProgHeader.ofBuf (bytesAt f.buf off) :: progHeaders f n
    (off + PROG_HEADER_SIZE)

/-- The headers of the segments that are loaded. -/
def loadHeaders (f : File) (n off : ℕ) : List ElfProgHeader :=
  (progHeaders f n off).filter fun ph => ph.type = ELF_PROG_LOAD

/-- The segments start at pages. The offset of a header is kept in an `int`. -/
structure Aligned (f : File) (n off : ℕ) : Prop where
  headers : off + PROG_HEADER_SIZE * n < 2 ^ 31
  aligned : ∀ ph ∈ loadHeaders f n off, PGSIZE ∣ ph.vaddr

/-- The segments start at pages, a later one not inside an earlier one. -/
structure Paged (f : File) (n off : ℕ) : Prop extends Aligned f n off where
  offset : ∀ ph ∈ loadHeaders f n off, ph.off < 2 ^ 63
  apart : (loadHeaders f n off).Pairwise fun a b =>
    ¬ (a.vaddr ≤ b.vaddr ∧ b.vaddr < a.vaddr + a.memsz)

/-- The file has zeros where the segments have no bytes in the file. -/
def ZeroTails (f : File) (n off : ℕ) : Prop :=
  ∀ ph ∈ loadHeaders f n off, ∀ k, ph.filesz ≤ k → k < ph.memsz → f.buf (ph.off + k) = 0

/-! ## The tables of the process -/

variable {lay : Layout} {m m' : Mach} {roots kept kept' own : Set ℕ} {pm pm' : ℕ → PageMap}
  {l l' : List ℕ} {r va pa n q off : ℕ} {p p' : Space} {o o' : OpenFile} {ph : ElfProgHeader}
  {f : File}

/-- The tables of `r` map frames of `own`, which nobody else maps unless they are below the free
memory; the free pages are in `own` too. -/
structure Loading (r : ℕ) (own : Set ℕ) (m : Mach) (roots : Set ℕ) (pm : ℕ → PageMap)
    (kept : Set ℕ) (l : List ℕ) : Prop where
  spaces : Spaces m roots pm kept l
  root : r ∈ roots
  low : 0 < m.freeMemStartAddr
  sole : ∀ v f perm, pm r v = some (f, perm) → m.freeMemStartAddr ≤ f →
    ∀ r' ∈ roots, ∀ v' perm', pm r' v' = some (f, perm') → r' = r
  mapped : ∀ v f perm, pm r v = some (f, perm) → f ∈ own
  pool : ∀ x ∈ l, x ∈ own

/-- The kept pages that are not the process's stay kept, with their contents. -/
structure SparesOthers (own : Set ℕ) (m : Mach) (kept : Set ℕ) (m' : Mach) (kept' : Set ℕ) :
    Prop where
  sub : ∀ x ∈ kept, (x ∈ own → x < m.freeMemStartAddr) → x ∈ kept'
  same : SameOn {x | x ∈ kept ∧ (x ∈ own → x < m.freeMemStartAddr)} m m'

theorem SparesOthers.refl : SparesOthers own m kept m kept := ⟨fun _ hx _ => hx, .refl⟩

theorem SparesOthers.trans {m'' : Mach} {kept'' : Set ℕ} (h : SparesOthers own m kept m' kept')
    (h' : SparesOthers own m' kept' m'' kept'') : SparesOthers own m kept m'' kept'' where
  sub x hx ho := h'.sub x (h.sub x hx ho) (h.same.start ▸ ho)
  same := h.same.trans (h'.same.mono fun x hx => ⟨h.sub x hx.1 hx.2, h.same.start ▸ hx.2⟩)

namespace Loading

/-- No frame more is mapped. -/
theorem shrink (h : Loading r own m roots pm kept l) (hs : Spaces m' roots pm' kept' l')
    (hstart : m'.freeMemStartAddr = m.freeMemStartAddr)
    (hpm : ∀ r' v x, pm' r' v = some x → pm r' v = some x) (hpool : ∀ x ∈ l', x ∈ own) :
    Loading r own m' roots pm' kept' l' where
  spaces := hs
  root := h.root
  low := hstart ▸ h.low
  sole v f perm hv hle r' hr' v' perm' hv' :=
    h.sole v f perm (hpm r v _ hv) (hstart ▸ hle) r' hr' v' perm' (hpm r' v' _ hv')
  mapped v f perm hv := h.mapped v f perm (hpm r v _ hv)
  pool := hpool

/-- **A page is cleared.** -/
theorem clearPage (h : Loading r own m roots pm kept l) (hva : PGSIZE ∣ va)
    (e : clearPage r va m = .ok m') :
    ∃ kept' l', Loading r own m' roots (mapAt pm r (va / PGSIZE) none) kept' l' ∧
      SameOn kept' m m' ∧ (∀ x ∈ kept, (x ∈ own → x < m.freeMemStartAddr) → x ∈ kept') ∧
      va < MAXVA := by
  rw [Elf.clearPage] at e
  obtain ⟨⟨pte, m₁⟩, e₁, e⟩ := (bind_ok_iff _ _ _).1 e
  obtain ⟨w, e₂, e⟩ := (bind_ok_iff _ _ _).1 e
  obtain ⟨l₁, h₁, hs₁, hlt, hpte, hsuf⟩ := h.spaces.walk h.root e₁
  have h0 : pte ≠ 0 := by
    rintro rfl
    cases e₂
  obtain ⟨q, rfl, hq⟩ := hpte h0
  rw [Mach.load, if_neg h0] at e₂
  obtain rfl := Except.ok.inj e₂
  have hinv := h₁.table r h.root
  have hl₁ : ∀ x ∈ l₁, x ∈ own := fun x hx => h.pool x (hsuf.subset hx)
  have hload := h.shrink h₁ hs₁.start (fun _ _ _ hv => hv) hl₁
  have hvalid := (hinv.leafWord hlt hq).valid_iff fun _ _ => hinv.frameOk
  rcases hv : pm r (va / PGSIZE) with _ | ⟨f, perm⟩
  · rw [if_neg (not_not.2 (hvalid.2 hv))] at e
    cases e
    refine ⟨kept, l₁, ?_, hs₁, fun x hx _ => hx, hlt⟩
    rw [mapAt, ← hv, Function.update_eq_self, Function.update_eq_self]
    exact hload
  · rw [if_pos fun hw => by simp [hvalid.1 hw] at hv] at e
    obtain ⟨-, -, -, hle, -⟩ := hinv.unmap_ok hv e
    rw [Nat.mod_eq_zero_of_dvd hva, Nat.add_zero] at hle
    have hf0 : f ≠ 0 := by
      have := hload.low
      omega
    have hother : ∀ r' ∈ roots, ∀ v perm', pm r' v = some (f, perm') → r' = r ∧ v = va / PGSIZE :=
      fun r' hr' v perm' hv' => ⟨hload.sole _ f perm hv hle r' hr' v perm' hv',
        h₁.home r' hr' r h.root v _ f perm' perm hf0 hv' hv⟩
    obtain ⟨hs₂, h₂⟩ := h₁.unmap h.root hva hv hf0 hother e
    refine ⟨kept \ {f}, f :: l₁, hload.shrink h₂ hs₂.start (fun r' v x hx => ?_) ?_,
      (hs₁.mono Set.sdiff_subset).trans hs₂, fun x hx ho => ⟨hx, ?_⟩, hlt⟩
    · rw [mapAt_apply] at hx
      split at hx
      · cases hx
      · exact hx
    · rintro x (_ | ⟨_, hx⟩)
      · exact h.mapped _ f perm hv
      · exact hl₁ x hx
    · rintro rfl
      have hlt := ho (h.mapped _ x perm hv)
      rw [← hs₁.start] at hlt
      omega

/-- What the two branches of `elf_alloc_mb` take: `n` adjacent pages of the free list. -/
def Draws (alloc : Mach → Except Fault (ℕ × Mach)) (n : ℕ) : Prop :=
  ∀ {m m' : Mach} {roots kept : Set ℕ} {pm : ℕ → PageMap} {l : List ℕ} {q : ℕ},
    Spaces m roots pm kept l → alloc m = .ok (q, m') → q ≠ 0 →
    ∃ l', Spaces m' roots pm (framesOf q n ∪ kept) l' ∧ SameOn kept m m' ∧
      (∀ x ∈ framesOf q n, x ∈ l) ∧ ∀ x ∈ l', x ∈ l

theorem draws_allocPage : Draws allocPage 1 := by
  intro m m' roots kept pm l q h e h0
  obtain ⟨l', rfl, h', hs⟩ := h.take_cons e h0
  have hone : framesOf q 1 = {q} := by
    ext x
    simp only [framesOf, Nat.lt_one_iff, exists_eq_left, Nat.mul_zero, Nat.add_zero,
      Set.mem_ofPred_eq, Set.mem_singleton_iff]
  rw [hone]
  refine ⟨l', h', hs.mono (Set.subset_univ _), ?_, fun x hx => List.mem_cons_of_mem _ hx⟩
  intro x hx
  obtain rfl := Set.mem_singleton_iff.1 hx
  exact List.mem_cons_self

theorem draws_allocTwoPage : Draws allocTwoPage 2 := by
  intro m m' roots kept pm l q h e h0
  obtain ⟨l', h', hs, hq, hq', hsub⟩ := h.takeTwo e
  have htwo : framesOf q 2 = {q, q + PGSIZE} := by
    ext x
    simp only [framesOf, Set.mem_ofPred_eq, Set.mem_insert_iff, Set.mem_singleton_iff]
    constructor
    · rintro ⟨t, ht, rfl⟩
      simp only [PGSIZE]
      omega
    · rintro (rfl | rfl)
      · exact ⟨0, by omega, rfl⟩
      · exact ⟨1, by omega, rfl⟩
  rw [htwo]
  refine ⟨l', h', hs, ?_, hsub⟩
  rintro x (rfl | rfl)
  · exact hq
  · exact hq'

/-- The places of `n` pages are in their frames. -/
theorem exists_frame {a : ℕ} (h₁ : pa ≤ a) (h₂ : a < pa + PGSIZE * n) :
    ∃ x ∈ framesOf pa n, x ≤ a ∧ a < x + PGSIZE := by
  refine ⟨pa + PGSIZE * ((a - pa) / PGSIZE), ⟨(a - pa) / PGSIZE, ?_, rfl⟩, ?_⟩ <;>
    · simp only [PGSIZE] at *
      omega

/-- What is written to frames that are not kept leaves the kept ones alone. -/
theorem sameOn_of_outside (h : Spaces m roots pm (framesOf pa n ∪ kept) l)
    (hnew : ∀ x ∈ framesOf pa n, x ∉ kept) (hstart : m'.freeMemStartAddr = m.freeMemStartAddr)
    (hm : ∀ a, ¬ (pa ≤ a ∧ a < pa + PGSIZE * n) → m'.mem a = m.mem a) : SameOn kept m m' := by
  refine ⟨hstart, fun y hy a h₁ h₂ => hm a fun ⟨h₃, h₄⟩ => ?_⟩
  obtain ⟨x, hx, hxa⟩ := exists_frame h₃ h₄
  refine page_apart (h.keptPage y (.inr hy)).1 (h.keptPage x (.inl hx)).1 ?_ h₁ h₂ hxa
  rintro rfl
  exact hnew y hx hy

/-- **A block is mapped**: adjacent frames that were free, filled with zeros. -/
theorem mapBlock {alloc : Mach → Except Fault (ℕ × Mach)} (h : Loading r own m roots pm kept l)
    (ha : Draws alloc n) (hn : 0 < n) (hn₂ : n ≤ 2) (hva : PGSIZE ∣ va) (hlt : va < MAXVA)
    (e : mapBlock alloc n r va m = .ok (pa, m')) :
    ∃ l', Loading r own m' roots
        (Function.update pm r (mapRange (pm r) (va / PGSIZE) n pa segmentPerm))
        (framesOf pa n ∪ kept) l' ∧
      SameOn kept m m' ∧ (∀ x ∈ framesOf pa n, x ∉ kept) ∧
      (∀ t < n, pm r (va / PGSIZE + t) = none) := by
  rw [Elf.mapBlock] at e
  obtain ⟨⟨q, m₁⟩, e₁, e⟩ := (bind_ok_iff _ _ _).1 e
  by_cases h0 : q = 0
  · simp only [h0, if_true, throw_eq_error, error_bind] at e
    cases e
  simp only [h0, if_false] at e
  obtain ⟨m₂, e₂, e⟩ := (bind_ok_iff _ _ _).1 e
  obtain ⟨m₃, e₃, e⟩ := (bind_ok_iff _ _ _).1 e
  cases e
  obtain ⟨l₁, h₁, hs₁, hnew, hsub⟩ := ha h.spaces e₁ h0
  have hfree : ∀ x ∈ framesOf pa n, x ∉ kept ∧ ∀ r ∈ roots, ∀ v perm, pm r v ≠ some (x, perm) :=
    fun x hx => h.spaces.unmapped (hnew x hx)
  -- the pages are cleared
  rw [Mach.memset, if_neg h0] at e₂
  have hzero : ∀ a, ¬ (pa ≤ a ∧ a < pa + PGSIZE * n) → m₂.mem a = m₁.mem a := by
    intro a ha
    rw [← Except.ok.inj e₂]
    exact if_neg ha
  have hglob : m₂.gFreeMemList = m₁.gFreeMemList ∧ m₂.count5 = m₁.count5 ∧
      m₂.freeMemStartAddr = m₁.freeMemStartAddr := by
    rw [← Except.ok.inj e₂]
    exact ⟨rfl, rfl, rfl⟩
  have h₂ := h₁.writeRange (fun a h₁ h₂ => (exists_frame h₁ h₂).imp fun x hx => ⟨.inl hx.1, hx.2⟩)
    hzero hglob.1 hglob.2.1
  have hs₂ := sameOn_of_outside h₁ (fun x hx => (hfree x hx).1) hglob.2.2 hzero
  -- and mapped
  have hend : va + PGSIZE * n < 2 ^ 64 := by
    simp only [PGSIZE, MAXVA] at *
    omega
  have e₄ := h₂.mapPages_loop h.root hva hn hend (Stage.userVmMap_ok e₃)
  obtain ⟨l₃, h₃, hs₃, hsuf, hnone⟩ := h₂.mapRun h.root hva (fun t ht => .inl ⟨t, ht, rfl⟩)
    (fun t ht r' hr' v perm => (hfree _ ⟨t, ht, rfl⟩).2 r' hr' v perm) (protToType_lt _ _)
    (by decide) e₄
  have hs : SameOn kept m m' := (hs₁.trans hs₂).trans (hs₃.mono Set.subset_union_right)
  have hcases : ∀ v f perm, Function.update pm r (mapRange (pm r) (va / PGSIZE) n pa segmentPerm) r
      v = some (f, perm) → f ∈ framesOf pa n ∨ pm r v = some (f, perm) := by
    intro v f perm hv
    rw [Function.update_self, mapRange] at hv
    split at hv
    · exact .inl ⟨v - va / PGSIZE, by omega, (Prod.mk.inj (Option.some.inj hv)).1.symm⟩
    · exact .inr hv
  refine ⟨l₃, ⟨h₃, h.root, hs.start ▸ h.low, ?_, ?_, ?_⟩, hs, fun x hx => (hfree x hx).1, hnone⟩
  · intro v f perm hv hle r' hr' v' perm' hv'
    by_contra hne
    rw [Function.update_of_ne hne] at hv'
    rcases hcases v f perm hv with hf | hv
    · exact (hfree f hf).2 r' hr' v' perm' hv'
    · exact hne (h.sole v f perm hv (hs.start ▸ hle) r' hr' v' perm' hv')
  · intro v f perm hv
    rcases hcases v f perm hv with hf | hv
    · exact h.pool f (hnew f hf)
    · exact h.mapped v f perm hv
  · exact fun x hx => h.pool x (hsub x (hsuf.subset hx))

end Loading

/-! ## One segment -/

/-- The entry of a page and what is there are as before. -/
def KeepsPage (map : PageMap) (m : Mach) (map' : PageMap) (m' : Mach) (v : ℕ) : Prop :=
  ∀ g perm, map v = some (g, perm) → map' v = some (g, perm) ∧ SameOn {g} m m'

theorem KeepsPage.trans {map map' map'' : PageMap} {m'' : Mach} {v : ℕ}
    (h : KeepsPage map m map' m' v) (h' : KeepsPage map' m' map'' m'' v) :
    KeepsPage map m map'' m'' v := by
  intro g perm hv
  obtain ⟨hv', hs⟩ := h g perm hv
  obtain ⟨hv'', hs'⟩ := h' g perm hv'
  exact ⟨hv'', hs.trans hs'⟩

/-- A process may read the page `v`. -/
def Readable (map : PageMap) (v : ℕ) : Prop := ∃ g perm, map v = some (g, perm) ∧ Allows PTE_R perm

theorem KeepsPage.readable {map map' : PageMap} {v : ℕ} (h : KeepsPage map m map' m' v)
    (hr : Readable map v) : Readable map' v := by
  obtain ⟨g, perm, hv, hp⟩ := hr
  exact ⟨g, perm, (h g perm hv).1, hp⟩

/-- The bytes of the file for a segment are in memory, all `memsz` of them. -/
def RawLoaded (f : File) (map : PageMap) (m : Mach) (ph : ElfProgHeader) : Prop :=
  ∀ k < ph.memsz, ∃ g, map ((ph.vaddr + k) / PGSIZE) = some (g, segmentPerm) ∧
    m.byte (g + (ph.vaddr + k) % PGSIZE) = (f.buf (ph.off + k)).toNat

theorem page_add {k : ℕ} (hva : PGSIZE ∣ va) :
    (va + k) / PGSIZE = va / PGSIZE + k / PGSIZE ∧ (va + k) % PGSIZE = k % PGSIZE := by
  obtain ⟨x, rfl⟩ := hva
  simp only [PGSIZE]
  omega

/-- A segment that a later one does not start in is kept. -/
theorem RawLoaded.keep {map map' : PageMap} (h : RawLoaded f map m ph)
    (hal : ∀ v g perm, map v = some (g, perm) → PGSIZE ∣ g)
    (hk : ∀ v, (∀ k < ph.memsz, (ph.vaddr + k) / PGSIZE = v → KeepsPage map m map' m' v)) :
    RawLoaded f map' m' ph := by
  intro k hlt
  obtain ⟨g, hv, hb⟩ := h k hlt
  obtain ⟨hv', hs⟩ := hk _ k hlt rfl g _ hv
  exact ⟨g, hv', (hs.byte (Set.mem_singleton g) (hal _ g _ hv) (offset_lt _)).trans hb⟩

namespace Loading

/-- **The memory of a segment, with its bytes.** -/
theorem fill {size : ℕ} {bs : List UInt8} (h : Loading r own m roots pm kept l) (hva : PGSIZE ∣ va)
    (hbs : bs.length ≤ size) (e : elfAllocMb r va size m = .ok (pa, m')) :
    ∃ pm' kept' l', Loading r own (m'.writeBytes pa bs) roots pm' kept' l' ∧
      SparesOthers own m kept (m'.writeBytes pa bs) kept' ∧
      (∀ v, v ≠ va / PGSIZE → KeepsPage (pm r) m (pm' r) (m'.writeBytes pa bs) v) ∧
      Readable (pm' r) (va / PGSIZE) ∧
      ∀ k < bs.length, ∃ g, pm' r ((va + k) / PGSIZE) = some (g, segmentPerm) ∧
        (m'.writeBytes pa bs).byte (g + (va + k) % PGSIZE) = (bs.getD k 0).toNat := by
  rw [elfAllocMb] at e
  by_cases hsize : 2 * PGSIZE ≤ size
  · simp only [hsize, if_true, throw_eq_error, error_bind] at e
    cases e
  simp only [hsize, if_false] at e
  obtain ⟨m₁, e₁, e⟩ := (bind_ok_iff _ _ _).1 e
  obtain ⟨kept₁, l₁, h₁, hs₁, hsub₁, hlt⟩ := h.clearPage hva e₁
  obtain ⟨n, hn, l₂, h₂, hs₂, hnew, hnone⟩ : ∃ n, size < PGSIZE * n ∧ ∃ l₂,
      Loading r own m' roots
        (Function.update (mapAt pm r (va / PGSIZE) none) r
          (mapRange (mapAt pm r (va / PGSIZE) none r) (va / PGSIZE) n pa segmentPerm))
        (framesOf pa n ∪ kept₁) l₂ ∧
      SameOn kept₁ m₁ m' ∧ (∀ x ∈ framesOf pa n, x ∉ kept₁) ∧
      ∀ t < n, mapAt pm r (va / PGSIZE) none r (va / PGSIZE + t) = none := by
    split at e
    · exact ⟨1, by omega, h₁.mapBlock draws_allocPage (by decide) (by decide) hva hlt e⟩
    · exact ⟨2, by omega, h₁.mapBlock draws_allocTwoPage (by decide) (by decide) hva hlt e⟩
  have hpos : 0 < n := by
    rcases Nat.eq_zero_or_pos n with rfl | hpos
    · omega
    · exact hpos
  have hpa : PGSIZE ∣ pa := (h₂.spaces.keptPage pa (.inl ⟨0, hpos, rfl⟩)).1
  -- the bytes are written inside the frames
  have hout : ∀ a, ¬ (pa ≤ a ∧ a < pa + PGSIZE * n) →
      (m'.writeBytes pa bs).mem a = m'.mem a := by
    intro a ha
    refine Mach.writeBytes_mem ?_
    obtain ⟨x, rfl⟩ := hpa
    simp only [PGSIZE] at *
    omega
  obtain ⟨hhead, hlock, hstart⟩ := Mach.writeBytes_globals (m := m') (p := pa) bs
  have h₃ := h₂.spaces.writeRange
    (fun a h₁ h₂ => (exists_frame h₁ h₂).imp fun x hx => ⟨.inl hx.1, hx.2⟩) hout hhead hlock
  have hs₃ := sameOn_of_outside h₂.spaces hnew hstart hout
  have hs := (hs₁.trans hs₂).trans hs₃
  refine ⟨_, _, _, h₂.shrink h₃ hstart (fun _ _ _ hv => hv) h₂.pool,
    ⟨fun x hx ho => .inr (hsub₁ x hx ho), hs.mono fun x hx => hsub₁ x hx.1 hx.2⟩, ?_,
    ⟨pa, segmentPerm, ?_, by decide⟩, fun k hk => ?_⟩
  · intro v hv g perm hg
    have hg₁ : mapAt pm r (va / PGSIZE) none r v = some (g, perm) := by
      rw [mapAt_apply, if_neg fun hne => hv hne.2, hg]
    have hrange : ¬ (va / PGSIZE ≤ v ∧ v < va / PGSIZE + n) := by
      rintro ⟨hle, hvn⟩
      have := hnone (v - va / PGSIZE) (by omega)
      rw [Nat.add_sub_cancel' hle, hg₁] at this
      cases this
    refine ⟨by rw [Function.update_self, mapRange, if_neg hrange, hg₁], hs.mono ?_⟩
    exact Set.singleton_subset_iff.2 (h₁.spaces.framed r h.root v g perm hg₁)
  · rw [Function.update_self, mapRange, if_pos ⟨le_rfl, by omega⟩, Nat.sub_self, Nat.mul_zero,
      Nat.add_zero]
  · have hkn : k / PGSIZE < n := Nat.div_lt_of_lt_mul (by omega)
    obtain ⟨hdiv, hmod⟩ := page_add (k := k) hva
    refine ⟨pa + PGSIZE * (k / PGSIZE), ?_, ?_⟩
    · rw [Function.update_self, mapRange, hdiv,
        if_pos ⟨Nat.le_add_right _ _, by omega⟩, Nat.add_sub_cancel_left]
    · rw [hmod, Nat.add_assoc, Nat.div_add_mod, Mach.byte_writeBytes,
        if_pos ⟨by omega, by omega⟩, Nat.add_sub_cancel_left]

end Loading

/-! ## The file is read -/

theorem OpenFile.fpread_bytes (o : OpenFile) (nb off : ℕ) : (o.fpread nb off).2.bytes = o.bytes :=
  rfl

/-- What is read of a place is what the file has there. -/
theorem OpenFile.fpread_getD {nb k : ℕ} (hoff : off < 2 ^ 63) (hk : k < nb) :
    (o.fpread nb off).1.getD k 0 = File.buf o.bytes (off + k) := by
  simp only [OpenFile.fpread, if_pos hoff, File.buf, List.getD_eq_getElem?_getD,
    List.getElem?_take_of_lt hk, List.getElem?_drop]

theorem elfInit_bytes (o : OpenFile) : (elfInit o).2.2.bytes = o.bytes := by
  unfold elfInit
  dsimp only
  split
  · rfl
  · split <;> rfl

theorem recordRegion_ok (e : recordRegion p ph = .ok p') : ∃ g, p' = { p with regions := g } := by
  rw [recordRegion] at e
  obtain ⟨segType, -, e⟩ := (bind_ok_iff _ _ _).1 e
  split at e
  · cases e
    exact ⟨_, rfl⟩
  · split at e
    · cases e
    · cases e
      exact ⟨_, rfl⟩

theorem intOffset_of_lt (h : off < 2 ^ 31) : intOffset off = off := by
  rw [intOffset, Nat.mod_eq_of_lt (by omega), if_pos h]

/-- The header of a segment comes before the others. -/
theorem loadHeaders_succ (f : File) (n off : ℕ) : loadHeaders f (n + 1) off =
    if (ElfProgHeader.ofBuf (bytesAt f.buf off)).type = ELF_PROG_LOAD then
      ElfProgHeader.ofBuf (bytesAt f.buf off) :: loadHeaders f n (off + PROG_HEADER_SIZE)
    else loadHeaders f n (off + PROG_HEADER_SIZE) := by
  simp only [loadHeaders, progHeaders, List.filter_cons, decide_eq_true_eq]

/-- The segments behind the first header. -/
theorem loadHeaders_sublist (f : File) (n off : ℕ) :
    (loadHeaders f n (off + PROG_HEADER_SIZE)).Sublist (loadHeaders f (n + 1) off) :=
  (List.sublist_cons_self _ _).filter _

theorem Aligned.tail (h : Aligned f (n + 1) off) : Aligned f n (off + PROG_HEADER_SIZE) := by
  have hhead := h.headers
  refine ⟨?_, fun ph hph => h.aligned ph ((loadHeaders_sublist f n off).subset hph)⟩
  simp only [PROG_HEADER_SIZE] at *
  omega

theorem Paged.tail (h : Paged f (n + 1) off) : Paged f n (off + PROG_HEADER_SIZE) where
  toAligned := h.toAligned.tail
  offset ph hph := h.offset ph ((loadHeaders_sublist f n off).subset hph)
  apart := h.apart.sublist (loadHeaders_sublist f n off)

namespace Loading

/-- **One segment.** -/
theorem segment (h : Loading p.pagetable own m roots pm kept l) (hload : ph.type = ELF_PROG_LOAD)
    (hva : PGSIZE ∣ ph.vaddr) (e : elfLoadSegment ph o p m = .ok (.ok, o', p', m')) :
    o'.bytes = o.bytes ∧ (∃ g, p' = { p with regions := g }) ∧ ∃ pm' kept' l',
      Loading p.pagetable own m' roots pm' kept' l' ∧ SparesOthers own m kept m' kept' ∧
      (ph.off < 2 ^ 63 → RawLoaded o.bytes (pm' p.pagetable) m' ph) ∧
      Readable (pm' p.pagetable) (ph.vaddr / PGSIZE) ∧
      ∀ v, v ≠ ph.vaddr / PGSIZE → KeepsPage (pm p.pagetable) m (pm' p.pagetable) m' v := by
  rw [elfLoadSegment, if_neg (not_not.2 hload)] at e
  split at e
  · cases e
  split at e
  · cases e
  obtain ⟨⟨dest, m₁⟩, e₁, e⟩ := (bind_ok_iff _ _ _).1 e
  dsimp only at e
  split at e
  · cases e
  rename_i hlen
  obtain ⟨p₁, e₂, e⟩ := (bind_ok_iff _ _ _).1 e
  cases e
  obtain ⟨pm', kept', l', h', hspare, hkeep, hread, hbytes⟩ := h.fill hva (not_not.1 hlen).le e₁
  refine ⟨rfl, recordRegion_ok e₂, pm', kept', l', h', hspare, fun hoff k hk => ?_, hread, hkeep⟩
  obtain ⟨g, hg, hb⟩ := hbytes k (by omega)
  exact ⟨g, hg, by rw [hb, OpenFile.fpread_getD hoff hk]⟩

/-- **The loop over the headers.** The pages in which no segment starts are as before, and the
segments are in memory at the end if none starts inside an earlier one. -/
theorem loop (h : Loading p.pagetable own m roots pm kept l) (ha : Aligned o.bytes n off)
    (e : elfLoadLoop n off o p m = .ok (.ok, o', p', m')) :
    (∃ g, p' = { p with regions := g }) ∧ ∃ pm' kept' l',
      Loading p.pagetable own m' roots pm' kept' l' ∧ SparesOthers own m kept m' kept' ∧
      (Paged o.bytes n off →
        ∀ ph ∈ loadHeaders o.bytes n off, RawLoaded o.bytes (pm' p.pagetable) m' ph) ∧
      (∀ v, Readable (pm p.pagetable) v → Readable (pm' p.pagetable) v) ∧
      ∀ v, (∀ ph ∈ loadHeaders o.bytes n off, v ≠ ph.vaddr / PGSIZE) →
        KeepsPage (pm p.pagetable) m (pm' p.pagetable) m' v := by
  induction n generalizing off o p m pm kept l with
  | zero =>
    cases e
    exact ⟨⟨_, rfl⟩, pm, kept, l, h, .refl, fun _ ph hph => absurd hph List.not_mem_nil,
      fun v hv => hv, fun v _ g perm hv => ⟨hv, .refl⟩⟩
  | succ n ih =>
    have hhead := ha.headers
    simp only [PROG_HEADER_SIZE] at hhead
    rw [elfLoadLoop] at e
    dsimp only at e
    split at e
    · cases e
    have hph : ElfProgHeader.ofBuf (fun i => (o.fpread PROG_HEADER_SIZE off).1.getD i 0) =
        ElfProgHeader.ofBuf (bytesAt (File.buf o.bytes) off) :=
      ElfProgHeader.ofBuf_congr fun i hi => OpenFile.fpread_getD (by omega) hi
    rw [hph] at e
    set ph := ElfProgHeader.ofBuf (bytesAt (File.buf o.bytes) off) with hphdef
    obtain ⟨⟨status, o₁, p₁, m₁⟩, e₁, e⟩ := (bind_ok_iff _ _ _).1 e
    dsimp only at e
    by_cases hst : status = .ok
    swap
    · rw [if_pos hst] at e
      cases e
      exact absurd rfl hst
    rw [if_neg (not_not.2 hst), intOffset_of_lt (by simp only [PROG_HEADER_SIZE]; omega)] at e
    subst hst
    by_cases hload : ph.type = ELF_PROG_LOAD
    · have hcons : loadHeaders o.bytes (n + 1) off =
          ph :: loadHeaders o.bytes n (off + PROG_HEADER_SIZE) := by
        rw [loadHeaders_succ, ← hphdef, if_pos hload]
      have hmem : ph ∈ loadHeaders o.bytes (n + 1) off := hcons ▸ List.mem_cons_self
      have hva := ha.aligned ph hmem
      obtain ⟨hb₁, ⟨g, rfl⟩, pm₁, kept₁, l₁, h₁, hspare, hraw, hread, hkeep⟩ :=
        h.segment hload hva e₁
      rw [OpenFile.fpread_bytes] at hb₁ hraw
      obtain ⟨⟨g', rfl⟩, pm', kept', l', h', hspare', hraw', hread', hkeep'⟩ :=
        ih (p := { p with regions := g }) h₁ (hb₁ ▸ ha.tail) e
      rw [hb₁] at hraw' hkeep'
      refine ⟨⟨g', rfl⟩, pm', kept', l', h', hspare.trans hspare', fun hp => ?_,
        fun v hv => hread' v ?_, fun v hv => ?_⟩
      · rw [hcons]
        rintro x (_ | ⟨_, hx⟩)
        · refine (hraw (hp.offset ph hmem)).keep (fun v g perm hv => ?_)
            fun v k hk hkv => hkeep' v fun b hb hbv => ?_
          · exact (h₁.spaces.keptPage g (h₁.spaces.framed _ h₁.root v g perm hv)).1
          -- a later segment does not start in a page of this one
          · have hnot := (List.pairwise_cons.1 (hcons ▸ hp.apart)).1 b hb
            have hbva := ha.aligned b (hcons ▸ List.mem_cons_of_mem _ hb)
            obtain ⟨y, hy⟩ := hva
            obtain ⟨z, hz⟩ := hbva
            simp only [PGSIZE] at *
            omega
        · exact hraw' hp.tail x hx
      · by_cases hpage : v = ph.vaddr / PGSIZE
        · exact hpage ▸ hread
        · exact (hkeep v hpage).readable hv
      · rw [hcons] at hv
        have hv₁ := hkeep v (hv ph List.mem_cons_self)
        exact hv₁.trans (hkeep' v fun b hb => hv b (List.mem_cons_of_mem _ hb))
    · have hskip : loadHeaders o.bytes (n + 1) off =
          loadHeaders o.bytes n (off + PROG_HEADER_SIZE) := by
        rw [loadHeaders_succ, ← hphdef, if_neg hload]
      rw [elfLoadSegment, if_pos hload] at e₁
      cases e₁
      obtain ⟨hp', pm', kept', l', h', hspare, hraw, hread, hkeep⟩ :=
        ih (o := (o.fpread PROG_HEADER_SIZE off).2) h ha.tail e
      refine ⟨hp', pm', kept', l', h', hspare, fun hp => ?_, hread, fun v hv => ?_⟩
      · rw [hskip]
        exact hraw hp.tail
      · rw [hskip] at hv
        exact hkeep v hv

end Loading

/-! ## A fresh process -/

theorem mapsTo_iff {va g : ℕ} {map : PageMap} (h : PtInv p.pagetable m map) :
    MapsTo p m va g ↔ ∃ perm, map (va / PGSIZE) = some (g, perm) := by
  constructor
  · rintro ⟨hva, hw⟩
    exact (h.pteOf_iff hva).1 hw
  · rintro ⟨perm, hv⟩
    have hva : va < MAXVA := by
      by_contra hge
      rw [h.bound _ (by simp only [MAXVA, PGSIZE] at *; omega)] at hv
      cases hv
    exact ⟨hva, (h.pteOf_iff hva).2 ⟨perm, hv⟩⟩

/-- **The frames of a new process** are its own: those of the pages kept before it that it maps are
below the free memory. -/
theorem allocProcess_loading {spaces : List Space} (h : SysInv lay m spaces pm kept)
    (e : allocProcess lay m = .ok (p, m')) :
    ∃ pm' kept' l, Loading p.pagetable {x | x ∈ kept → x = 0 ∨ x = lay.trapSecStart} m'
        (insert p.pagetable (rootsOf spaces)) pm' kept' l ∧
      Fresh lay kept (rootsOf spaces) pm pm' kept' p ∧ kept ⊆ kept' ∧ SameOn kept m m' ∧
      (∃ us, OnlyStack pm' p us) ∧ p.trapframe = m.gFreeMemList ∧
      NewTrapframe (pm' p.pagetable) m' p.trapframe := by
  obtain ⟨_, pm', kept', -, h', hnew, hst, hframe, htf, hnt⟩ :=
    (h.stage .refl).allocProcess h.fixed h.trapSec e
  obtain ⟨l, hl⟩ := h'.spaces
  have hlow := h.low
  rw [← h'.same.start] at hlow
  have hpos : 0 < m'.freeMemStartAddr := lt_of_lt_of_le (by decide) hlow.2
  refine ⟨pm', kept', l, ⟨hl, Set.mem_insert _ _, hpos, ?_, ?_, ?_⟩, hnew, h'.sub, h'.same, hst,
    htf, hnt⟩
  · intro v f perm hv hle r' hr' v' perm' hv'
    refine hr'.resolve_right fun hr' => ?_
    obtain ⟨l₀, hl₀⟩ := h.tables
    rw [hnew.old r' hr'] at hv'
    have hk := hl₀.framed r' hr' v' f perm' hv'
    rcases hframe v f perm hv with rfl | rfl | hne
    · omega
    · omega
    · exact hne hk
  · intro v f perm hv hk
    rcases hframe v f perm hv with hf | hf | hne
    · exact .inr hf
    · exact .inl hf
    · exact absurd hk hne
  · exact fun x hx hk => absurd hx (hl.keptPool x (h'.sub hk))

/-- **A page is taken.** -/
theorem Loading.take (h : Loading r own m roots pm kept l) (e : allocPage m = .ok (q, m')) :
    ∃ l', Loading r own m' roots pm (insert q kept) l' ∧ SameOn Set.univ m m' := by
  obtain ⟨l', h', hs, -⟩ := h.spaces.take e
  have hsub : ∀ x ∈ l', x ∈ l := by
    by_cases h0 : q = 0
    · rw [allocPage_eq h.spaces.unlocked] at e
      obtain ⟨rfl, rfl⟩ := Prod.mk.inj (Except.ok.inj e)
      have hc := h'.chain
      simp only [h0] at hc
      rw [hc.eq_nil]
      exact fun x hx => absurd hx List.not_mem_nil
    · obtain ⟨l₁, rfl, h₁, -⟩ := h.spaces.take_cons e h0
      rw [h'.chain.unique h₁.chain]
      exact fun x hx => List.mem_cons_of_mem _ hx
  exact ⟨l', h.shrink h' hs.start (fun _ _ _ hv => hv) fun x hx => h.pool x (hsub x hx), hs⟩

/-- **The frames of a fresh process** are its own. -/
theorem FreshProcess.loading (fresh : FreshProcess lay p m) :
    ∃ roots pm kept l, Loading p.pagetable {g | (∃ va, MapsTo p m va g) ∨ IsFree m g} m roots pm
      kept l := by
  suffices h : ∃ own roots pm kept l, Loading p.pagetable own m roots pm kept l by
    obtain ⟨own, roots, pm, kept, l, h⟩ := h
    refine ⟨roots, pm, kept, l, { h with mapped := fun v g perm hv => .inl ⟨PGSIZE * v, ?_⟩
                                         pool := fun x hx => .inr ⟨l, h.spaces.chain, hx⟩ }⟩
    rw [mapsTo_iff (h.spaces.table _ h.root), Nat.mul_div_cancel_left _ (by decide)]
    exact ⟨perm, hv⟩
  induction fresh with
  | alloc run e =>
    obtain ⟨pm, kept, h⟩ := run.inv fun _ _ hc => hc
    obtain ⟨pm', kept', l, h', -⟩ := allocProcess_loading h e
    exact ⟨_, _, pm', kept', l, h'⟩
  | take fresh e ih =>
    obtain ⟨own, roots, pm, kept, l, h⟩ := ih
    obtain ⟨l', h', -⟩ := h.take e
    exact ⟨own, roots, pm, _, l', h'⟩

/-! ## The whole file -/

/-- A process loads the bytes of the frame that its page is mapped to. -/
theorem loadsByte_iff {map : PageMap} {g perm b : ℕ} (h : PtInv p.pagetable m map)
    (hv : map (va / PGSIZE) = some (g, perm)) (hr : Allows PTE_R perm) :
    LoadsByte p m va b ↔ m.byte (g + va % PGSIZE) = b := by
  rw [LoadsByte, h.translate (by decide), hv, Option.bind_some, if_pos hr]
  simp only [Option.some.injEq, exists_eq_left']

/-- A process loads the bytes of a segment that is in memory. -/
theorem RawLoaded.loads {map : PageMap} (h : RawLoaded f map m ph) (ht : PtInv p.pagetable m map)
    {k b : ℕ} (hk : k < ph.memsz) :
    LoadsByte p m (ph.vaddr + k) b ↔ (f.buf (ph.off + k)).toNat = b := by
  obtain ⟨g, hg, hb⟩ := h k hk
  rw [loadsByte_iff ht hg (by decide), hb]

/-- **The segments are what the format says exactly if the file has zeros behind their bytes**,
where they start at pages, a later one not inside an earlier one. The frames are always those of the
process. -/
theorem elfLoad_iff {ehdr : ElfHeader} (fresh : FreshProcess lay p m)
    (load : elfLoad ehdr o p m = .ok (.ok, o', p', m'))
    (paged : Paged o.bytes ehdr.phnum ehdr.phoff) :
    ((∀ ph ∈ loadHeaders o.bytes ehdr.phnum ehdr.phoff, SegmentLoaded o.bytes p' m' ph) ∧
      OwnFrames p m p' m') ↔ ZeroTails o.bytes ehdr.phnum ehdr.phoff := by
  obtain ⟨roots, pm, kept, l, h⟩ := fresh.loading
  have hhead := paged.headers
  rw [elfLoad, intOffset_of_lt (by omega)] at load
  obtain ⟨⟨g, rfl⟩, pm', kept', l', h', -, hraw, -⟩ := h.loop paged.toAligned load
  have ht : PtInv { p with regions := g }.pagetable m' (pm' p.pagetable) :=
    h'.spaces.table _ h'.root
  have hown : OwnFrames p m { p with regions := g } m' := by
    intro va g hg
    obtain ⟨perm, hv⟩ := (mapsTo_iff ht).1 hg
    refine ⟨h'.mapped _ g perm hv, fun ⟨l₁, hc, hgl⟩ => ?_⟩
    obtain rfl := hc.unique h'.spaces.chain
    exact h'.spaces.keptPool g (h'.spaces.framed _ h'.root _ g perm hv) hgl
  constructor
  · rintro ⟨hseg, -⟩ ph hph k hk hlt
    have hb := (RawLoaded.loads (hraw paged ph hph) ht hlt).1 (hseg ph hph k hlt)
    rw [if_neg (by omega)] at hb
    exact UInt8.toNat_inj.1 hb
  · intro hz
    refine ⟨fun ph hph k hk => (RawLoaded.loads (hraw paged ph hph) ht hk).2 ?_, hown⟩
    split
    · rfl
    · rw [hz ph hph k (by omega) hk]
      rfl

/-- A file with one segment: one byte that is in the file, and one that is not, in whose place the
file has `b`. -/
def oneSegment (b : UInt8) : File :=
  leBytes 4 ELF_MAGIC ++ List.replicate 28 0 ++ leBytes 8 64 ++ List.replicate 16 0 ++
    leBytes 2 1 ++ List.replicate 6 0 ++
    (leBytes 4 ELF_PROG_LOAD ++ leBytes 4 (SEGMENT_READABLE ||| SEGMENT_WRITABLE) ++
      leBytes 8 120 ++ leBytes 8 0x10000 ++ leBytes 8 0 ++ leBytes 8 1 ++ leBytes 8 2 ++
      leBytes 8 PGSIZE) ++ [7, b]

/-- The first process is made, and its file is loaded. -/
def loadFirst (f : File) :
    Except Fault ((Space × Mach) × (ElfStatus × ElfHeader × OpenFile) ×
      (ElfStatus × OpenFile × Space × Mach)) := do
  let m ← pmmInit smallKernel.gKernelEnd 0x20000 fun _ => 0
  let (p, m) ← allocProcess smallKernel m
  let r ← elfLoad (elfInit ⟨f, 0⟩).2.1 (elfInit ⟨f, 0⟩).2.2 p m
  return ((p, m), elfInit ⟨f, 0⟩, r)

theorem exists_loadFirst (b : UInt8) (hb : b = 0 ∨ b = 9) : ∃ p m ehdr o o' p' m',
    FreshProcess smallKernel p m ∧ elfInit ⟨oneSegment b, 0⟩ = (.ok, ehdr, o) ∧
      elfLoad ehdr o p m = .ok (.ok, o', p', m') ∧ o.bytes = oneSegment b ∧
      loadHeaders (oneSegment b) ehdr.phnum ehdr.phoff = [⟨1, 6, 120, 0x10000, 1, 2⟩] ∧
      ehdr.phnum = 1 ∧ ehdr.phoff = 64 ∧
      (translate p'.pagetable PTE_R 0x10001 m').map m'.byte = some b.toNat := by
  have htest : (loadFirst (oneSegment b)).toOption.map (fun x =>
      ((x.2.1.1, x.2.2.1, x.2.1.2.1.phnum, x.2.1.2.1.phoff),
        (loadHeaders (oneSegment b) x.2.1.2.1.phnum x.2.1.2.1.phoff,
          (translate x.2.2.2.2.1.pagetable PTE_R 0x10001 x.2.2.2.2.2).map x.2.2.2.2.2.byte))) =
      some ((.ok, .ok, 1, 64), ([⟨1, 6, 120, 0x10000, 1, 2⟩], some b.toNat)) := by
    rcases hb with rfl | rfl <;> decide +kernel
  obtain ⟨⟨⟨p, m⟩, ⟨st, ehdr, o⟩, st', o', p', m'⟩, hx, heq⟩ := Option.map_eq_some_iff.1 htest
  simp only [Prod.mk.injEq] at heq
  obtain ⟨⟨rfl, rfl, hnum, hoff⟩, hhead, hbyte⟩ := heq
  have hrun := toOption_eq_some.1 hx
  rw [loadFirst] at hrun
  obtain ⟨m₀, e₀, hrun⟩ := (bind_ok_iff _ _ _).1 hrun
  obtain ⟨⟨p₁, m₁⟩, e₁, hrun⟩ := (bind_ok_iff _ _ _).1 hrun
  obtain ⟨r, e₂, hrun⟩ := (bind_ok_iff _ _ _).1 hrun
  obtain ⟨h₁, hrun⟩ := Prod.mk.inj (Except.ok.inj hrun)
  obtain ⟨h₂, rfl⟩ := Prod.mk.inj hrun
  cases h₁
  rw [h₂] at e₂
  have ho := elfInit_bytes ⟨oneSegment b, 0⟩
  rw [h₂] at ho
  exact ⟨p, m, ehdr, o, o', p', m', .alloc (.boot e₀) e₁, h₂, e₂, ho, hhead, hnum, hoff, hbyte⟩

/-- The file has a zero behind the segment. -/
theorem elfLoad_iff_zero : ∃ p m o o' p' m', FreshProcess smallKernel p m ∧
    o.bytes = oneSegment 0 ∧ SegmentLoaded (oneSegment 0) p' m' ⟨1, 6, 120, 0x10000, 1, 2⟩ ∧
      OwnFrames p m p' m' ∧ ∃ ehdr, elfLoad ehdr o p m = .ok (.ok, o', p', m') := by
  obtain ⟨p, m, ehdr, o, o', p', m', fresh, -, load, ho, hhead, hnum, hoff, -⟩ :=
    exists_loadFirst 0 (.inl rfl)
  have paged : Paged o.bytes ehdr.phnum ehdr.phoff := by
    rw [ho]
    refine ⟨⟨?_, ?_⟩, ?_, ?_⟩
    · rw [hnum, hoff]
      decide
    · rw [hhead]
      decide
    · rw [hhead]
      simp
    · rw [hhead]
      exact List.pairwise_singleton _ _
  have tails : ZeroTails o.bytes ehdr.phnum ehdr.phoff := by
    intro ph hph k h₁ h₂
    rw [ho, hhead] at hph
    obtain rfl := List.mem_singleton.1 hph
    obtain rfl : k = 1 := by
      simp only at h₁ h₂
      omega
    rw [ho]
    decide
  obtain ⟨hseg, hown⟩ := (elfLoad_iff fresh load paged).2 tails
  rw [ho, hhead] at hseg
  exact ⟨p, m, o, o', p', m', fresh, ho, hseg _ (List.mem_singleton_self _), hown, ehdr, load⟩

/-- **The next byte of the file in the place of a zero**: a process loads 9 from the second byte of
a segment with one byte in the file. -/
theorem elfLoad_lost : ¬ ∀ lay f p m ehdr o o' p' m', FreshProcess lay p m →
    elfInit ⟨f, 0⟩ = (.ok, ehdr, o) → elfLoad ehdr o p m = .ok (.ok, o', p', m') →
    (loadHeaders f ehdr.phnum ehdr.phoff).Pairwise (fun a b => ∀ x,
      ¬ ((a.vaddr ≤ x ∧ x < a.vaddr + a.memsz) ∧ b.vaddr ≤ x ∧ x < b.vaddr + b.memsz)) →
    (∀ ph ∈ loadHeaders f ehdr.phnum ehdr.phoff, SegmentLoaded f p' m' ph) ∧
      OwnFrames p m p' m' := by
  intro hall
  obtain ⟨p, m, ehdr, o, o', p', m', fresh, init, load, -, hhead, -, -, hbyte⟩ :=
    exists_loadFirst 9 (.inr rfl)
  obtain ⟨hseg, -⟩ := hall smallKernel _ p m ehdr o o' p' m' fresh init load (by
    rw [hhead]
    exact List.pairwise_singleton _ _)
  rw [hhead] at hseg
  obtain ⟨pa, hpa, hb⟩ := hseg _ (List.mem_singleton_self _) 1 (by decide)
  rw [hpa, Option.map_some, hb] at hbyte
  exact absurd hbyte (by decide)

end HustOS.Elf
