import HustOS.Mm.Isolation

/-!
# The books of the page heap

A process that takes pages with `sys_user_allocate_page` and releases those that it has with
`sys_user_free_page`, in any order, from the moment it is loaded (`HeapRun`). The kernel keeps three
records of its heap: the top of the heap, the released pages and the page table. They agree
(`Heap.Books`) because every call moves one page from one side of an account to the other
(`Ledger`), and because the frame of a page of the heap is mapped nowhere else.

The array of released pages has `MAX_HEAP_PAGES` places and its count is not checked, so a call that
releases a page when all of them are taken writes behind it; and a heap that grows into a page that
the process already maps panics. These are the only ways to fail (`Heap.Fits`).
-/

namespace HustOS.Mm

open Foundations

/-! ## Accounts -/

section Ledger

variable {α : Type*} {page mapped : α → Prop} {free live : List α} {x : α}

/-- The pages of an account are `free` or `live`, each of them once, and those are mapped. -/
structure Ledger (page mapped : α → Prop) (free live : List α) : Prop where
  free_nodup : free.Nodup
  live_nodup : live.Nodup
  free_iff : ∀ x, x ∈ free ↔ page x ∧ ¬ mapped x
  live_iff : ∀ x, x ∈ live ↔ page x ∧ mapped x

namespace Ledger

theorem congr {page' mapped' : α → Prop} (h : Ledger page mapped free live)
    (hpage : ∀ x, page' x ↔ page x) (hmapped : ∀ x, page x → (mapped' x ↔ mapped x)) :
    Ledger page' mapped' free live where
  free_nodup := h.free_nodup
  live_nodup := h.live_nodup
  free_iff x := by
    rw [h.free_iff, hpage]
    exact and_congr_right fun hx => not_congr (hmapped x hx).symm
  live_iff x := by
    rw [h.live_iff, hpage]
    exact and_congr_right fun hx => (hmapped x hx).symm

/-- A free page that is given. -/
theorem pop (h : Ledger page mapped (x :: free) live) :
    Ledger page (fun y => y = x ∨ mapped y) free (x :: live) := by
  obtain ⟨hx, hfree⟩ := List.nodup_cons.1 h.free_nodup
  obtain ⟨hpage, hunmapped⟩ := (h.free_iff x).1 List.mem_cons_self
  refine ⟨hfree, List.nodup_cons.2 ⟨fun hm => ?_, h.live_nodup⟩, fun y => ?_, fun y => ?_⟩
  · exact hunmapped ((h.live_iff x).1 hm).2
  · have hy := h.free_iff y
    rw [List.mem_cons] at hy
    by_cases hxy : y = x
    · subst hxy
      simp [hx]
    · simpa [hxy] using hy
  · rw [List.mem_cons, h.live_iff]
    by_cases hxy : y = x
    · simp [hxy, hpage]
    · simp [hxy]

/-- A page at the end of the heap that is given, where none is free. -/
theorem grow (h : Ledger page mapped [] live) (hx : ¬ page x) :
    Ledger (fun y => page y ∨ y = x) (fun y => y = x ∨ mapped y) [] (x :: live) := by
  refine ⟨List.nodup_nil, List.nodup_cons.2 ⟨fun hm => hx ((h.live_iff x).1 hm).1, h.live_nodup⟩,
    fun y => ?_, fun y => ?_⟩
  · have hy := h.free_iff y
    simp only [List.not_mem_nil, false_iff, not_and, not_not] at hy ⊢
    rintro (hy' | hy')
    · exact .inr (hy hy')
    · exact .inl hy'
  · rw [List.mem_cons, h.live_iff]
    by_cases hxy : y = x
    · simp [hxy]
    · simp [hxy]

/-- A page that is released. -/
theorem push [DecidableEq α] (h : Ledger page mapped free live) (hx : x ∈ live) :
    Ledger page (fun y => y ≠ x ∧ mapped y) (x :: free) (live.erase x) := by
  obtain ⟨hpage, hmapped⟩ := (h.live_iff x).1 hx
  refine ⟨List.nodup_cons.2 ⟨fun hm => ((h.free_iff x).1 hm).2 hmapped, h.free_nodup⟩,
    h.live_nodup.erase x, fun y => ?_, fun y => ?_⟩
  · rw [List.mem_cons, h.free_iff]
    by_cases hxy : y = x
    · simp [hxy, hpage]
    · simp [hxy]
  · rw [h.live_nodup.mem_erase_iff, h.live_iff]
    tauto

end Ledger

end Ledger

/-! ## The calls of a process -/

/-- The calls of the page heap. -/
inductive HeapCall
  | allocate
  | free (va : ℕ)

/-- A process and the memory, with the pages that the process has been given and has not
released. -/
structure Heap where
  live : List ℕ
  space : Space
  mach : Mach

namespace Heap

/-- A call. -/
def call (h : Heap) : HeapCall → Except Fault Heap
  | .allocate => do
    let (va, p, m) ← sysUserAllocatePage h.space h.mach
    return ⟨va :: h.live, p, m⟩
  | .free va => do
    let (p, m) ← sysUserFreePage va h.space h.mach
    return ⟨h.live.erase va, p, m⟩

/-- There is a page for the request, and only a page that was given is released. -/
def Proper (h : Heap) : HeapCall → Prop
  | .allocate => h.mach.gFreeMemList ≠ 0
  | .free va => va ∈ h.live

/-- `va` is the address of a page of the heap. -/
def IsPage (h : Heap) (va : ℕ) : Prop :=
  PGSIZE ∣ va ∧ h.space.heapBottom ≤ va ∧ va < h.space.heapTop

/-- A valid entry of the page table maps the page of `va`. -/
def Maps (h : Heap) (va : ℕ) : Prop := ∃ f, Sys.Maps ⟨h.mach, [h.space]⟩ 0 va f

/-- **The books**: no more pages are free than there are places for them, and the free pages are the
pages of the heap that are not mapped. -/
structure Books (h : Heap) : Prop where
  count : h.space.freePages.length ≤ MAX_HEAP_PAGES
  ledger : Ledger h.IsPage h.Maps h.space.freePages h.live

/-- The call fits: there is a place for the page that is released; a heap without free pages does
not grow into a page that is mapped. -/
def Fits (h : Heap) : HeapCall → Prop
  | .allocate => h.space.freePages = [] → h.space.heapTop < MAXVA ∧ ¬ h.Maps h.space.heapTop
  | .free _ => h.space.freePages.length < MAX_HEAP_PAGES

instance (h : Heap) : DecidablePred h.Proper
  | .allocate => inferInstanceAs (Decidable (_ ≠ 0))
  | .free va => inferInstanceAs (Decidable (va ∈ h.live))

/-- Proper calls one after the other. -/
def calls : List HeapCall → Heap → Option Heap
  | [], h => some h
  | c :: cs, h => if h.Proper c then (h.call c).toOption.bind (calls cs) else none

end Heap

/-- There are pages for the frame of a request and for the tables on the way to it. -/
def Heap.PagesLast (h : Heap) : Prop :=
  ∃ l, Chain 0 h.mach.mem h.mach.gFreeMemList l ∧ 5 ≤ l.length

/-- The page given between `h` and `h'` was not mapped, and the process may read and write it. -/
def Heap.Gives (h h' : Heap) : Prop :=
  ∃ va, h'.live = va :: h.live ∧ ¬ h.Maps va ∧ ∀ kind, kind = PTE_R ∨ kind = PTE_W →
    translate h'.space.pagetable kind va h'.mach = some h.mach.gFreeMemList

/-- The states of the runs in which a process that has been loaded makes proper calls that satisfy
`C` where they happen. The rest of the kernel takes pages at any time. -/
inductive HeapRun (lay : Layout) (C : Heap → HeapCall → Prop) : Heap → Prop
  | load {s : Sys} {p : Space} (run : Run lay (fun _ _ => False) s) (one : s.spaces = [p]) :
      HeapRun lay C ⟨[], p, s.mach⟩
  | take {h : Heap} {q : ℕ} {m : Mach} (run : HeapRun lay C h)
      (alloc : allocPage h.mach = .ok (q, m)) : HeapRun lay C { h with mach := m }
  | step {h h' : Heap} {c : HeapCall} (run : HeapRun lay C h) (proper : h.Proper c) (cond : C h c)
      (call : h.call c = .ok h') : HeapRun lay C h'

/-! ## The managed memory -/

variable {lay : Layout} {m m' : Mach} {pm : ℕ → PageMap} {kept : Set ℕ} {p p' : Space}

/-- The memory that the page allocator manages is the same. -/
def SameEnds (m m' : Mach) : Prop :=
  m'.freeMemStartAddr = m.freeMemStartAddr ∧ m'.freeMemEndAddr = m.freeMemEndAddr

theorem SameEnds.refl : SameEnds m m := ⟨rfl, rfl⟩

theorem SameEnds.trans {m'' : Mach} (h : SameEnds m m') (h' : SameEnds m' m'') : SameEnds m m'' :=
  ⟨h'.1.trans h.1, h'.2.trans h.2⟩

/-- Whatever else it does, `x` keeps the managed memory. -/
def KeepsEnds {α : Type} (x : Except Fault α) (mach : α → Mach) (m : Mach) : Prop :=
  Sat x (fun a => SameEnds m (mach a)) fun _ => True

namespace KeepsEnds

variable {α β : Type} {x : Except Fault α} {f : α → Except Fault β} {mach : α → Mach}
  {mach' : β → Mach}

theorem pure {a : α} (h : SameEnds m (mach a)) : KeepsEnds (.ok a) mach m := h

theorem throw {e : Fault} : KeepsEnds (.error e) mach m := trivial

/-- The memory is not changed at all. -/
theorem const : KeepsEnds x (fun _ => m) m := by
  rcases x with e | a
  · exact .throw
  · exact .pure .refl

theorem bind (hx : KeepsEnds x mach m) (hf : ∀ a, KeepsEnds (f a) mach' (mach a)) :
    KeepsEnds (x >>= f) mach' m :=
  Sat.bind hx fun a ha => (hf a).mono fun _ hb => ha.trans hb

theorem of_ok {a : α} (hx : KeepsEnds x mach m) (e : x = .ok a) : SameEnds m (mach a) := by
  subst e
  exact hx

end KeepsEnds

theorem allocPage_ends : KeepsEnds (allocPage m) Prod.snd m := by
  rw [allocPage, semP]
  split
  · exact .throw
  · rw [pure_eq_ok, ok_bind]
    dsimp only
    split
    · exact .pure ⟨rfl, rfl⟩
    · exact .pure ⟨rfl, rfl⟩

theorem walkStep_ends {level va pt : ℕ} {alloc : Bool} :
    KeepsEnds (walkStep level va alloc pt m) Prod.snd m := by
  rw [walkStep]
  dsimp only
  split
  · exact .pure .refl
  split
  · refine allocPage_ends.bind fun r => ?_
    obtain ⟨q, m₁⟩ := r
    dsimp only
    split
    · exact .pure ⟨rfl, rfl⟩
    · exact .pure .refl
  · exact .pure .refl

theorem pageWalk_ends {pt va : ℕ} {alloc : Bool} :
    KeepsEnds (pageWalk pt va alloc m) Prod.snd m := by
  rw [pageWalk]
  split
  · exact .throw
  refine walkStep_ends.bind fun r => ?_
  obtain ⟨_ | q, m₁⟩ := r
  · exact .pure .refl
  refine walkStep_ends.bind fun r => ?_
  obtain ⟨_ | q, m₂⟩ := r
  · exact .pure .refl
  · exact .pure .refl

theorem mapLoop_ends {pt perm extra n first pa : ℕ} :
    KeepsEnds (mapLoop pt perm extra n first pa m) Prod.snd m := by
  induction n generalizing first pa m with
  | zero => exact .pure .refl
  | succ n ih =>
    rw [mapLoop]
    refine pageWalk_ends.bind fun r => ?_
    obtain ⟨pte, m₁⟩ := r
    dsimp only
    split
    · exact .pure .refl
    split
    · exact .throw
    · exact ih

theorem mapPages_ends {pt va size pa perm : ℕ} :
    KeepsEnds (mapPages pt va size pa perm m) Prod.snd m := by
  rw [mapPages]
  refine pageWalk_ends.bind fun r => ?_
  obtain ⟨pte, m₁⟩ := r
  dsimp only
  rw [Mach.load]
  split
  · exact .throw
  rw [pure_eq_ok, ok_bind]
  split
  · exact mapLoop_ends
  · exact mapLoop_ends

theorem userVmMap_ends {pt va size pa perm : ℕ} :
    KeepsEnds (userVmMap pt va size pa perm m) id m := by
  rw [userVmMap]
  refine mapPages_ends.bind fun r => ?_
  obtain ⟨z, m₁⟩ := r
  dsimp only
  split
  · exact .throw
  · exact .pure .refl

theorem memset_ends {q n : ℕ} : KeepsEnds (m.memset q n) id m := by
  rw [Mach.memset]
  split
  · exact .throw
  · exact .pure ⟨rfl, rfl⟩

theorem processPages_ends : KeepsEnds (processPages m) (fun r => r.2.2.2) m := by
  rw [processPages]
  refine allocPage_ends.bind fun r₁ => memset_ends.bind fun m₁ => ?_
  refine allocPage_ends.bind fun r₂ => memset_ends.bind fun m₂ => ?_
  refine allocPage_ends.bind fun r₃ => allocPage_ends.bind fun r₄ => ?_
  refine allocPage_ends.bind fun r₅ => ?_
  exact memset_ends.bind fun m₃ => .pure .refl

theorem processMaps_ends {tf pt us : ℕ} : KeepsEnds (processMaps lay tf pt us m) id m := by
  rw [processMaps]
  exact userVmMap_ends.bind fun m₁ => userVmMap_ends.bind fun m₂ => userVmMap_ends

theorem allocProcess_ends : KeepsEnds (allocProcess lay m) Prod.snd m := by
  rw [allocProcess]
  refine processPages_ends.bind
    fun r => processMaps_ends.bind fun m₁ => allocPage_ends.bind fun r => ?_
  obtain ⟨pf, m₂⟩ := r
  by_cases h0 : pf = 0
  · simp only [h0, if_true]
    exact .throw
  · simp only [h0, if_false]
    exact .pure .refl

theorem loadPages_ends {prog : List ProgPage} : KeepsEnds (loadPages prog p m) Prod.snd m := by
  induction prog generalizing p m with
  | nil => exact .pure .refl
  | cons page prog ih =>
    rw [loadPages]
    refine allocPage_ends.bind fun r => ?_
    dsimp only
    split
    · exact .throw
    refine userVmMap_ends.bind fun m₁ => ?_
    split
    · exact .throw
    · exact ih

theorem loadUserProgram_ends {prog : List ProgPage} {s : Sys} :
    KeepsEnds (loadUserProgram lay prog s) Sys.mach s.mach := by
  rw [loadUserProgram]
  split
  · exact .throw
  · exact allocProcess_ends.bind fun r => loadPages_ends.bind fun r => .pure .refl

theorem sysUserAllocatePage_ends :
    KeepsEnds (sysUserAllocatePage p m) (fun r => r.2.2) m := by
  rw [sysUserAllocatePage]
  refine allocPage_ends.bind fun r => KeepsEnds.const.bind fun v => ?_
  exact userVmMap_ends.bind fun m₂ => .pure .refl

/-- The pages that the allocator does not manage. -/
def Outside (m : Mach) : Set ℕ :=
  {x | PGSIZE ∣ x ∧ x < 2 ^ 56 ∧ ¬ (m.freeMemStartAddr ≤ x ∧ x < m.freeMemEndAddr)}

theorem Outside.congr (h : SameEnds m m') : Outside m' = Outside m := by
  rw [Outside, Outside, h.1, h.2]

/-- **Boot**: the free pages are managed. -/
theorem SysInv.boot_outside {gMemSize : ℕ} {mem : ℕ → ℕ}
    (e : pmmInit lay.gKernelEnd gMemSize mem = .ok m) :
    ∃ kept, SysInv lay m [] (fun _ _ => none) kept ∧ Outside m ⊆ kept := by
  have h := SysInv.boot e
  obtain ⟨l, hl⟩ := h.tables
  obtain ⟨all, l', hp⟩ := pmmInit_spec e
  obtain rfl := hl.chain.unique hp.chain
  have hroots : ∀ r, r ∉ rootsOf [] := fun r => List.not_mem_nil
  refine ⟨{0, lay.trapSecStart} ∪ Outside m, ?_, Set.subset_union_right⟩
  refine { h with
    tables := ⟨l, { hl with
      keptPage := ?_
      keptTable := fun r hr => absurd hr (hroots r)
      keptPool := ?_
      framed := fun r hr => absurd hr (hroots r)
      null := .inl hl.null }⟩
    space := fun p hp => absurd hp List.not_mem_nil
    trapSec := .inl h.trapSec }
  · rintro x (hx | hx)
    · exact hl.keptPage x hx
    · exact ⟨hx.1, hx.2.1⟩
  · rintro x (hx | hx)
    · exact hl.keptPool x hx
    · exact fun hm => hx.2.2 (hp.range x (hp.mem_all hm))

/-- A loaded process has an empty heap. -/
def EmptyHeap (p : Space) : Prop := p.heapTop = p.heapBottom ∧ p.freePages = []

theorem loadPages_emptyHeap {prog : List ProgPage} (hp : EmptyHeap p)
    (e : loadPages prog p m = .ok (p', m')) : EmptyHeap p' := by
  induction prog generalizing p m with
  | nil =>
    cases e
    exact hp
  | cons page prog ih =>
    rw [loadPages] at e
    obtain ⟨⟨q, m₁⟩, -, e⟩ := (bind_ok_iff _ _ _).1 e
    dsimp only at e
    split at e
    · cases e
    obtain ⟨m₂, -, e⟩ := (bind_ok_iff _ _ _).1 e
    split at e
    · cases e
    · exact ih (by exact hp) e

/-- **Before the process runs**: what is not managed is kept, and the heap of the process is
empty. -/
theorem Run.outside {s : Sys} (run : Run lay (fun _ _ => False) s) :
    ∃ pm kept, SysInv lay s.mach s.spaces pm kept ∧ Outside s.mach ⊆ kept ∧
      ∀ p ∈ s.spaces, EmptyHeap p := by
  induction run with
  | boot init =>
    obtain ⟨kept, h, hout⟩ := SysInv.boot_outside init
    exact ⟨_, kept, h, hout, fun p hp => absurd hp List.not_mem_nil⟩
  | take _ alloc ih =>
    obtain ⟨pm, kept, h, hout, hempty⟩ := ih
    obtain ⟨n', -, h', -⟩ := (h.stage .refl).take alloc
    refine ⟨_, _, h.of_stage h' h.fixed, ?_, hempty⟩
    rw [Outside.congr (allocPage_ends.of_ok alloc)]
    exact hout.trans (Set.subset_insert _ _)
  | @load s s' prog _ load ih =>
    obtain ⟨pm, kept, h, hout, hempty⟩ := ih
    obtain ⟨-, pm', kept', -, -, h', hsub⟩ := h.load .refl load
    refine ⟨pm', kept', h', ?_, ?_⟩
    · rw [Outside.congr (loadUserProgram_ends.of_ok load)]
      exact hout.trans hsub
    · rw [loadUserProgram] at load
      split at load
      · cases load
      obtain ⟨⟨p, m₁⟩, e₁, load⟩ := (bind_ok_iff _ _ _).1 load
      obtain ⟨⟨p', m₂⟩, e₂, load⟩ := (bind_ok_iff _ _ _).1 load
      cases load
      obtain ⟨_, _, _, -, -, hf, -⟩ := (h.stage .refl).allocProcess h.fixed h.trapSec e₁
      have hp' := loadPages_emptyHeap ⟨hf.heapTop.trans hf.heapBottom.symm, hf.freePages⟩ e₂
      intro x hx
      rcases List.mem_append.1 hx with hx | hx
      · exact hempty x hx
      · exact List.mem_singleton.1 hx ▸ hp'
  | step _ cond => exact cond.elim

/-! ## The invariant -/

/-- The address chosen by `sys_user_allocate_page`: the last page released, or the top. -/
theorem heapVa_cases {va : ℕ} (e : heapVa p = .ok (va, p')) :
    (∃ rest, p.freePages = va :: rest ∧ p' = { p with freePages := rest }) ∨
      p.freePages = [] ∧ va = p.heapTop ∧
        p' = { p with heapTop := (p.heapTop + PGSIZE) % 2 ^ 64 } := by
  rw [heapVa] at e
  split at e
  · rename_i va' rest hfree
    split at e
    · obtain ⟨rfl, rfl⟩ := Prod.mk.inj (Except.ok.inj e)
      exact .inl ⟨rest, hfree, rfl⟩
    · cases e
  · rename_i hfree
    obtain ⟨rfl, rfl⟩ := Prod.mk.inj (Except.ok.inj e)
    exact .inr ⟨hfree, rfl, rfl⟩

theorem sysUserAllocatePage_ok {va : ℕ} (e : sysUserAllocatePage p m = .ok (va, p', m')) :
    ∃ q m₁, allocPage m = .ok (q, m₁) ∧ heapVa p = .ok (va, p') ∧
      userVmMap p'.pagetable va PGSIZE q (protToType (PROT_WRITE ||| PROT_READ) 1) m₁ = .ok m' := by
  rw [sysUserAllocatePage] at e
  obtain ⟨⟨q, m₁⟩, e₁, e⟩ := (bind_ok_iff _ _ _).1 e
  obtain ⟨⟨va', p₁⟩, e₂, e⟩ := (bind_ok_iff _ _ _).1 e
  obtain ⟨m₂, e₃, e⟩ := (bind_ok_iff _ _ _).1 e
  cases e
  exact ⟨q, m₁, e₁, e₂, e₃⟩

/-- Two pages with the same number. -/
theorem page_ext {va va' : ℕ} (hva : PGSIZE ∣ va) (hva' : PGSIZE ∣ va')
    (e : va / PGSIZE = va' / PGSIZE) : va = va' := by
  rw [← Nat.div_mul_cancel hva, e, Nat.div_mul_cancel hva']

/-- The page of `va` is mapped to a frame. -/
def OnFrame (map : PageMap) (va : ℕ) : Prop := map (va / PGSIZE) ≠ none

theorem onFrame_mapAt {r va x : ℕ} {e : Option (ℕ × ℕ)} (hva : PGSIZE ∣ va) (hx : PGSIZE ∣ x) :
    OnFrame (mapAt pm r (va / PGSIZE) e r) x ↔ if x = va then e ≠ none else OnFrame (pm r) x := by
  rw [OnFrame, mapAt_apply]
  by_cases hxva : x = va
  · simp [hxva]
  · have hne : x / PGSIZE ≠ va / PGSIZE := fun e => hxva (page_ext hx hva e)
    simp [hxva, hne, OnFrame]

/-- **The invariant**: the account of the pages in terms of the map, and where the frames of the
pages that were given come from. -/
structure HeapInv (lay : Layout) (h : Heap) (pm : ℕ → PageMap) (kept : Set ℕ) : Prop where
  inv : SysInv lay h.mach [h.space] pm kept
  outside : Outside h.mach ⊆ kept
  count : h.space.freePages.length ≤ MAX_HEAP_PAGES
  bottom : h.space.heapBottom ≤ h.space.heapTop
  ledger : Ledger h.IsPage (OnFrame (pm h.space.pagetable)) h.space.freePages h.live
  frame : ∀ va ∈ h.live, ∀ f perm, pm h.space.pagetable (va / PGSIZE) = some (f, perm) →
    f ≠ h.space.trapframe ∧ h.mach.freeMemStartAddr ≤ f ∧ f < h.mach.freeMemEndAddr

namespace HeapInv

variable {h h' : Heap} {va : ℕ}

theorem space (hi : HeapInv lay h pm kept) : SpaceOk kept h.space :=
  hi.inv.space h.space (List.mem_singleton_self _)

theorem load {s : Sys} (run : Run lay (fun _ _ => False) s) (one : s.spaces = [p]) :
    ∃ pm kept, HeapInv lay ⟨[], p, s.mach⟩ pm kept := by
  obtain ⟨pm, kept, h, hout, hempty⟩ := run.outside
  rw [one] at h hempty
  obtain ⟨htop, hfree⟩ := hempty p (List.mem_singleton_self _)
  have hno : ∀ va, ¬ Heap.IsPage ⟨[], p, s.mach⟩ va := by
    rintro va ⟨-, h₁, h₂⟩
    simp only at h₁ h₂
    omega
  refine ⟨pm, kept, h, hout, ?_, htop.ge, ?_, fun va hva => absurd hva List.not_mem_nil⟩
  · rw [hfree]
    exact Nat.zero_le _
  · rw [hfree]
    exact ⟨List.nodup_nil, List.nodup_nil, fun x => by simp [hno], fun x => by simp [hno]⟩

theorem take {q : ℕ} (hi : HeapInv lay h pm kept) (e : allocPage h.mach = .ok (q, m)) :
    HeapInv lay { h with mach := m } pm (insert q kept) := by
  have hends := allocPage_ends.of_ok e
  obtain ⟨n', -, h', -⟩ := (hi.inv.stage .refl).take e
  refine ⟨hi.inv.of_stage h' hi.inv.fixed, ?_, hi.count, hi.bottom, hi.ledger, ?_⟩
  · exact (Outside.congr hends).subset.trans (hi.outside.trans (Set.subset_insert _ _))
  · intro va hva f perm hf
    rw [hends.1, hends.2]
    exact hi.frame va hva f perm hf

/-- The page that `sys_user_allocate_page` chooses, and the account after it. -/
theorem heapVa (hi : HeapInv lay h pm kept) (hlt : va < MAXVA) (x : ℕ × ℕ)
    (e : Mm.heapVa h.space = .ok (va, p'))
    (hnone : pm h.space.pagetable (va / PGSIZE) = none) :
    p'.heapBottom = h.space.heapBottom ∧ p'.heapBottom ≤ p'.heapTop ∧
      p'.trapframe = h.space.trapframe ∧ p'.freePages.length ≤ MAX_HEAP_PAGES ∧
      Ledger (Heap.IsPage ⟨va :: h.live, p', m⟩)
        (OnFrame (mapAt pm h.space.pagetable (va / PGSIZE) (some x) h.space.pagetable))
        p'.freePages (va :: h.live) := by
  have htop := hi.space.heapTop
  have hbottom := hi.bottom
  rcases heapVa_cases e with ⟨rest, hfree, rfl⟩ | ⟨hfree, rfl, rfl⟩
  · have hcount := hi.count
    have hledger := hi.ledger
    rw [hfree] at hcount hledger
    have hva : PGSIZE ∣ va := ((hledger.free_iff va).1 List.mem_cons_self).1.1
    refine ⟨rfl, hbottom, rfl, (Nat.le_succ _).trans hcount, ?_⟩
    refine hledger.pop.congr (fun _ => Iff.rfl) fun y hy => ?_
    rw [onFrame_mapAt hva hy.1]
    by_cases hyva : y = va
    · simp [hyva]
    · simp [hyva]
  · have hmod : (h.space.heapTop + PGSIZE) % 2 ^ 64 = h.space.heapTop + PGSIZE := by
      simp only [PGSIZE, MAXVA] at *
      omega
    have hledger := hi.ledger
    rw [hfree] at hledger
    have hnot : ¬ h.IsPage h.space.heapTop := fun hp => absurd hp.2.2 (Nat.lt_irrefl _)
    refine ⟨rfl, ?_, rfl, hi.count, ?_⟩
    · rw [hmod]
      exact hbottom.trans (Nat.le_add_right _ _)
    · dsimp only
      rw [hfree]
      refine (hledger.grow hnot).congr (fun y => ?_) fun y hy => ?_
      · -- the page at the old top is the only one more
        rw [Heap.IsPage, Heap.IsPage, hmod]
        dsimp only
        constructor
        · rintro ⟨hdvd, hle, hlt'⟩
          by_cases hy : y < h.space.heapTop
          · exact .inl ⟨hdvd, hle, hy⟩
          · refine .inr ?_
            obtain ⟨a, rfl⟩ := hdvd
            obtain ⟨b, hb⟩ := htop.1
            simp only [PGSIZE] at *
            omega
        · rintro (⟨hdvd, hle, hlt'⟩ | rfl)
          · exact ⟨hdvd, hle, by omega⟩
          · exact ⟨htop.1, hbottom, Nat.lt_add_of_pos_right (by decide)⟩
      · have hdvd : PGSIZE ∣ y := hy.elim (·.1) (· ▸ htop.1)
        rw [onFrame_mapAt htop.1 hdvd]
        by_cases hyva : y = h.space.heapTop
        · simp [hyva]
        · simp [hyva]

/-- **A page that is given** was not mapped, and is on the first free page. -/
theorem allocate (hi : HeapInv lay h pm kept) (hpage : h.mach.gFreeMemList ≠ 0)
    (e : sysUserAllocatePage h.space h.mach = .ok (va, p', m')) :
    p'.pagetable = h.space.pagetable ∧ pm h.space.pagetable (va / PGSIZE) = none ∧ va < MAXVA ∧
      HeapInv lay ⟨va :: h.live, p', m'⟩ (mapAt pm h.space.pagetable (va / PGSIZE)
        (some (h.mach.gFreeMemList, protToType (PROT_WRITE ||| PROT_READ) 1)))
        (insert h.mach.gFreeMemList kept) := by
  obtain ⟨-, -, -, hsys, hpt, -, hnone, hnew⟩ := hi.inv.allocate (i := 0) .refl rfl e
  have hends := sysUserAllocatePage_ends.of_ok e
  have hout := Outside.congr hends
  obtain ⟨-, -, -, hva, -⟩ := sysUserAllocatePage_ok e
  obtain ⟨l, hl⟩ := hsys.tables
  have hroot : h.space.pagetable ∈ rootsOf [p'] := hpt ▸ mem_rootsOf (List.mem_singleton_self p')
  have hlt : va < MAXVA := by
    by_contra hge
    have hb := (hl.table _ hroot).bound (va / PGSIZE) (by simp only [MAXVA, PGSIZE] at *; omega)
    rw [mapAt_self] at hb
    cases hb
  obtain ⟨hbot, hle, htf, hcount, hledger⟩ := hi.heapVa (m := m') hlt _ hva hnone
  refine ⟨hpt, hnone, hlt, hsys, ?_, hcount, hle, hpt.symm ▸ hledger, ?_⟩
  · exact hout.subset.trans (hi.outside.trans (Set.subset_insert _ _))
  · intro x hx f perm hf
    dsimp only at hf ⊢
    rw [hpt, mapAt_apply] at hf
    rw [htf, hends.1, hends.2]
    by_cases hxva : x / PGSIZE = va / PGSIZE
    · -- the frame was free, so it is managed, and no trapframe
      rw [if_pos ⟨rfl, hxva⟩] at hf
      obtain ⟨rfl, -⟩ := Prod.mk.inj (Option.some.inj hf)
      have hkept := hnew hpage
      obtain ⟨hdvd, h56⟩ := hl.keptPage _ (Set.mem_insert _ _)
      refine ⟨fun he => hkept (he ▸ hi.space.trapframe.1), ?_⟩
      by_contra hrange
      exact hkept (hi.outside ⟨hdvd, h56, hrange⟩)
    · rw [if_neg fun hh => hxva hh.2] at hf
      rcases List.mem_cons.1 hx with rfl | hx
      · exact absurd rfl hxva
      · exact hi.frame x hx f perm hf

/-- The frame of a page that was given. -/
theorem live_frame (hi : HeapInv lay h pm kept) (hva : va ∈ h.live) :
    PGSIZE ∣ va ∧ ∃ f perm, pm h.space.pagetable (va / PGSIZE) = some (f, perm) := by
  obtain ⟨hp, hmapped⟩ := (hi.ledger.live_iff va).1 hva
  obtain ⟨⟨f, perm⟩, hf⟩ := Option.ne_none_iff_exists'.1 hmapped
  exact ⟨hp.1, f, perm, hf⟩

/-- **A page that is released.** -/
theorem free (hi : HeapInv lay h pm kept) (hva : va ∈ h.live)
    (e : sysUserFreePage va h.space h.mach = .ok (p', m')) :
    ∃ kept', HeapInv lay ⟨h.live.erase va, p', m'⟩ (mapAt pm h.space.pagetable (va / PGSIZE) none)
      kept' := by
  obtain ⟨hdvd, f, perm, hf⟩ := hi.live_frame hva
  obtain ⟨htf, hstart, hend⟩ := hi.frame va hva f perm hf
  have hlow := hi.inv.low.2
  have h0 : f ≠ 0 := by
    rintro rfl
    simp only [PGSIZE] at hlow
    omega
  obtain ⟨l, hl⟩ := hi.inv.tables
  have hroots : ∀ r ∈ rootsOf [h.space], r = h.space.pagetable := fun r hr =>
    List.mem_singleton.1 hr
  have hother : ∀ r ∈ rootsOf [h.space], ∀ v perm', pm r v = some (f, perm') →
      r = h.space.pagetable ∧ v = va / PGSIZE := fun r hr v perm' hv =>
    ⟨hroots r hr, hl.home r hr _ (mem_rootsOf (List.mem_singleton_self _)) v _ f perm'
      perm h0 hv hf⟩
  have htf' : ∀ p ∈ [h.space], p.trapframe ≠ f := fun p hp =>
    List.mem_singleton.1 hp ▸ htf.symm
  obtain ⟨-, -, -, hsys⟩ := hi.inv.free (i := 0) .refl rfl hdvd hf htf' hother e
  obtain ⟨e₁, rfl, -⟩ := SysInv.sysUserFreePage_ok e
  obtain ⟨q, -, -, -, rfl⟩ := (hl.table _ (mem_rootsOf (List.mem_singleton_self _))).unmap_ok hf e₁
  have hlen : h.space.freePages.length < MAX_HEAP_PAGES := by
    by_contra hge
    have hmod : va % 8 = 0 := by
      obtain ⟨a, rfl⟩ := hdvd
      simp only [PGSIZE]
      omega
    simp only [sysUserFreePage, e₁, ok_bind, hmod, not_lt.1 hge, ne_eq, not_true, if_false, if_true,
      throw_eq_error, error_bind] at e
    cases e
  refine ⟨kept \ {f}, hsys, ?_, hlen, hi.bottom, ?_, ?_⟩
  · exact fun x hx => ⟨hi.outside hx, fun (he : x = f) => hx.2.2 (by rw [he]; exact ⟨hstart, hend⟩)⟩
  · refine (hi.ledger.push hva).congr (fun _ => Iff.rfl) fun y hy => ?_
    rw [onFrame_mapAt hdvd hy.1]
    by_cases hyva : y = va
    · simp [hyva]
    · simp [hyva]
  · intro x hx f' perm' hf'
    dsimp only at hf' ⊢
    rw [mapAt_apply] at hf'
    split at hf'
    · cases hf'
    · exact hi.frame x (List.mem_of_mem_erase hx) f' perm' hf'

/-- **A release returns** exactly if there is a place for the page. -/
theorem free_iff (hi : HeapInv lay h pm kept) (hva : va ∈ h.live) :
    (∃ r, sysUserFreePage va h.space h.mach = .ok r) ↔
      h.space.freePages.length < MAX_HEAP_PAGES := by
  obtain ⟨hdvd, f, perm, hf⟩ := hi.live_frame hva
  obtain ⟨-, hstart, hend⟩ := hi.frame va hva f perm hf
  obtain ⟨l, hl⟩ := hi.inv.tables
  obtain ⟨q, -, -, heq⟩ :=
    (hl.table _ (mem_rootsOf (List.mem_singleton_self _))).unmap_eq hf PGSIZE
  rw [Nat.mod_eq_zero_of_dvd hdvd, Nat.add_zero, if_neg (by omega)] at heq
  have hmod : va % 8 = 0 := by
    obtain ⟨a, rfl⟩ := hdvd
    simp only [PGSIZE]
    omega
  rw [sysUserFreePage, heq, ok_bind]
  by_cases hlen : MAX_HEAP_PAGES ≤ h.space.freePages.length
  · simp [hmod, hlen]
  · have hlt := not_le.1 hlen
    simp [hmod, hlen, hlt]

/-- The first free page, and the others. -/
theorem alloc_eq (hi : HeapInv lay h pm kept) {l : List ℕ}
    (hl : Chain 0 h.mach.mem h.mach.gFreeMemList l) (h0 : l ≠ []) :
    ∃ q l' m₁, l = q :: l' ∧ allocPage h.mach = .ok (q, m₁) ∧
      Spaces m₁ (rootsOf [h.space]) pm (insert q kept) l' ∧ q ≠ 0 ∧ q ∉ kept := by
  obtain ⟨l₀, hs⟩ := hi.inv.tables
  obtain rfl := hl.unique hs.chain
  rcases l with _ | ⟨q, l'⟩
  · exact absurd rfl h0
  have e := allocPage_eq hs.unlocked
  obtain ⟨hq, hq0, hchain⟩ := hl
  rw [hq, if_neg hq0] at e
  obtain ⟨l₁, hs₁, -, hnew⟩ := hs.take e
  obtain rfl := hs₁.chain.unique hchain
  exact ⟨q, l₁, _, rfl, e, hs₁, hq0, (hnew hq0).1⟩

/-- **A request returns** if the page it chooses is not mapped and the pages last for the frame and
the tables. -/
theorem allocate_ok (hi : HeapInv lay h pm kept) {l : List ℕ}
    (hl : Chain 0 h.mach.mem h.mach.gFreeMemList l) (hlen : 5 ≤ l.length)
    (hfits : h.space.freePages = [] → h.space.heapTop < MAXVA ∧
      pm h.space.pagetable (h.space.heapTop / PGSIZE) = none) :
    ∃ r, sysUserAllocatePage h.space h.mach = .ok r := by
  obtain ⟨q, l', m₁, rfl, e₁, hs, hq0, hq⟩ := hi.alloc_eq hl (by rintro rfl; simp at hlen)
  have hroot : h.space.pagetable ∈ rootsOf [h.space] := mem_rootsOf (List.mem_singleton_self _)
  obtain ⟨va, p', e₂, hpt, hdvd, hlt, hnone⟩ : ∃ va p', Mm.heapVa h.space = .ok (va, p') ∧
      p'.pagetable = h.space.pagetable ∧ PGSIZE ∣ va ∧ va < MAXVA ∧
      pm h.space.pagetable (va / PGSIZE) = none := by
    rcases hfree : h.space.freePages with _ | ⟨va, rest⟩
    · rw [Mm.heapVa, hfree]
      exact ⟨_, _, rfl, rfl, hi.space.heapTop.1, hfits hfree⟩
    · have hva : va ∈ h.space.freePages := hfree ▸ List.mem_cons_self
      obtain ⟨⟨hdvd, -, hlt⟩, hunmapped⟩ := (hi.ledger.free_iff va).1 hva
      rw [Mm.heapVa, hfree]
      dsimp only
      rw [if_pos hlt]
      exact ⟨_, _, rfl, rfl, hdvd, hlt.trans_le hi.space.heapTop.2, not_not.1 hunmapped⟩
  have hone : npages PGSIZE = 1 := rfl
  have hframe : ∀ f ∈ framesOf q (npages PGSIZE), f = q := by
    rintro f ⟨t, ht, rfl⟩
    rw [hone, Nat.lt_one_iff] at ht
    rw [ht, Nat.mul_zero, Nat.add_zero]
  have hpool := hs.pool hroot
  have hkept : q ∈ Spaces.Others m₁ (rootsOf [h.space]) (insert q kept) h.space.pagetable :=
    .inl (Set.mem_insert _ _)
  obtain ⟨hqdvd, hq56⟩ := hs.keptPage q (Set.mem_insert _ _)
  have args : MapArgs h.space.pagetable m₁ (pm h.space.pagetable) va PGSIZE q
      (protToType (PROT_WRITE ||| PROT_READ) 1) l' :=
    { va_aligned := hdvd
      pa_aligned := hqdvd
      pos := by decide
      va_le := by
        obtain ⟨a, rfl⟩ := hdvd
        simp only [PGSIZE, MAXVA] at *
        omega
      pa_lt := fun f hf => hframe f hf ▸ hq56
      free := fun t ht => by
        rw [hone, Nat.lt_one_iff] at ht
        rw [ht, Nat.add_zero]
        exact hnone
      perm_type := ⟨_, _, rfl⟩
      readable := by decide
      pool := { hpool with
        apart := fun x hx hf => hpool.apart x hx (hframe x hf ▸ hkept)
        frames_table := fun f hf => hpool.frames_table f (hframe f hf ▸ hkept) } }
  rcases (hs.table _ hroot).mapPages args with ⟨hshort, -⟩ | ⟨m', e₃, -⟩
  · rw [hone] at hshort
    simp only [List.length_cons] at hlen
    omega
  · simp only [sysUserAllocatePage, e₁, e₂, ok_bind, hpt, Stage.userVmMap_eq e₃, pure_eq_ok]
    exact ⟨_, rfl⟩

theorem maps_iff (hi : HeapInv lay h pm kept) : h.Maps va ↔ OnFrame (pm h.space.pagetable) va := by
  have hiff : ∀ f, Sys.Maps ⟨h.mach, [h.space]⟩ 0 va f ↔
      ∃ perm, pm h.space.pagetable (va / PGSIZE) = some (f, perm) := fun f =>
    SysInv.maps_iff (s := ⟨h.mach, [h.space]⟩) hi.inv rfl
  rw [Heap.Maps, OnFrame, Option.ne_none_iff_exists']
  constructor
  · rintro ⟨f, hf⟩
    obtain ⟨perm, hv⟩ := (hiff f).1 hf
    exact ⟨(f, perm), hv⟩
  · rintro ⟨⟨f, perm⟩, hv⟩
    exact ⟨f, (hiff f).2 ⟨perm, hv⟩⟩

theorem books (hi : HeapInv lay h pm kept) : h.Books :=
  ⟨hi.count, hi.ledger.congr (fun _ => Iff.rfl) fun _ _ => hi.maps_iff⟩

/-- **A call keeps the invariant.** -/
theorem call {c : HeapCall} (hi : HeapInv lay h pm kept) (proper : h.Proper c)
    (e : h.call c = .ok h') : ∃ pm' kept', HeapInv lay h' pm' kept' := by
  cases c with
  | allocate =>
    obtain ⟨⟨va, p', m'⟩, e₁, e⟩ := (bind_ok_iff _ _ _).1 e
    cases e
    obtain ⟨-, -, -, h'⟩ := hi.allocate proper e₁
    exact ⟨_, _, h'⟩
  | free va =>
    obtain ⟨⟨p', m'⟩, e₁, e⟩ := (bind_ok_iff _ _ _).1 e
    cases e
    obtain ⟨kept', h'⟩ := hi.free proper e₁
    exact ⟨_, kept', h'⟩

/-- A request that returns gives a page. -/
theorem gives (hi : HeapInv lay h pm kept) (proper : h.Proper .allocate)
    (e : h.call .allocate = .ok h') : h.Gives h' := by
  obtain ⟨⟨va, p', m'⟩, e₁, e⟩ := (bind_ok_iff _ _ _).1 e
  cases e
  obtain ⟨hpt, hnone, -, h'⟩ := hi.allocate proper e₁
  refine ⟨va, rfl, fun hm => hi.maps_iff.1 hm hnone, fun kind hkind => ?_⟩
  have hdvd : PGSIZE ∣ va := ((h'.ledger.live_iff va).1 List.mem_cons_self).1.1
  have hk : kind < 2 ^ 10 ∧ Allows kind (protToType (PROT_WRITE ||| PROT_READ) 1) := by
    rcases hkind with rfl | rfl <;> decide
  have htrans := h'.inv.translate (List.mem_singleton_self _) hk.1 va
  dsimp only at htrans
  rw [hpt, mapAt_self, Option.bind_some, if_pos hk.2, Nat.mod_eq_zero_of_dvd hdvd] at htrans
  rw [hpt, htrans]
  rfl

/-- A call that returns fits. -/
theorem fits {c : HeapCall} (hi : HeapInv lay h pm kept) (proper : h.Proper c)
    (e : h.call c = .ok h') : h.Fits c := by
  cases c with
  | allocate =>
    obtain ⟨⟨va, p', m'⟩, e₁, -⟩ := (bind_ok_iff _ _ _).1 e
    obtain ⟨-, hnone, hlt, -⟩ := hi.allocate proper e₁
    obtain ⟨-, -, -, hva, -⟩ := sysUserAllocatePage_ok e₁
    intro hfree
    rcases heapVa_cases hva with ⟨rest, hcons, -⟩ | ⟨-, rfl, -⟩
    · rw [hfree] at hcons
      cases hcons
    · exact ⟨hlt, fun hm => hi.maps_iff.1 hm hnone⟩
  | free va =>
    obtain ⟨r, e₁, -⟩ := (bind_ok_iff _ _ _).1 e
    exact (hi.free_iff proper).1 ⟨r, e₁⟩

/-- **A call returns** exactly if it fits, where the pages last. -/
theorem call_iff {c : HeapCall} (hi : HeapInv lay h pm kept) (proper : h.Proper c)
    (hlast : c = .allocate → h.PagesLast) : (∃ h', h.call c = .ok h') ↔ h.Fits c := by
  refine ⟨fun ⟨h', e⟩ => hi.fits proper e, fun hfits => ?_⟩
  cases c with
  | allocate =>
    obtain ⟨l, hl, hlen⟩ := hlast rfl
    rw [Heap.Fits, hi.maps_iff, OnFrame, not_not] at hfits
    obtain ⟨r, e₁⟩ := hi.allocate_ok hl hlen hfits
    rw [Heap.call, e₁]
    exact ⟨_, rfl⟩
  | free va =>
    obtain ⟨r, e₁⟩ := (hi.free_iff proper).2 hfits
    rw [Heap.call, e₁]
    exact ⟨_, rfl⟩

end HeapInv

/-! ## Runs -/

variable {C : Heap → HeapCall → Prop} {h h' : Heap}

theorem HeapRun.inv (run : HeapRun lay C h) : ∃ pm kept, HeapInv lay h pm kept := by
  induction run with
  | load run one => exact HeapInv.load run one
  | take _ alloc ih =>
    obtain ⟨pm, kept, hi⟩ := ih
    exact ⟨pm, _, hi.take alloc⟩
  | step _ proper _ call ih =>
    obtain ⟨pm, kept, hi⟩ := ih
    exact hi.call proper call

/-- **The page heap keeps its books** in every run whose calls fit: the released pages are those of
the heap that are not mapped, and there is a place for each; a page that is given was not mapped,
and is then readable and writable; and a proper call returns exactly if it fits. -/
theorem heapBooks_of_run (run : HeapRun lay Heap.Fits h) :
    h.Books ∧ (∀ h', h.Proper .allocate → h.call .allocate = .ok h' → h.Gives h') ∧
      ∀ c, h.Proper c → (c = .allocate → h.PagesLast) → ((∃ h', h.call c = .ok h') ↔ h.Fits c) := by
  obtain ⟨pm, kept, hi⟩ := run.inv
  exact ⟨hi.books, fun h' => hi.gives, fun c => hi.call_iff⟩

/-! ## More free pages than there are places -/

theorem HeapRun.calls {cs : List HeapCall} (run : HeapRun lay Heap.Fits h)
    (e : h.calls cs = some h') : HeapRun lay Heap.Fits h' := by
  induction cs generalizing h with
  | nil =>
    cases e
    exact run
  | cons c cs ih =>
    rw [Heap.calls] at e
    split at e
    · rename_i proper
      obtain ⟨h₁, e₁, e⟩ := Option.bind_eq_some_iff.1 e
      have call : h.call c = .ok h₁ := toOption_eq_some.1 e₁
      obtain ⟨pm, kept, hi⟩ := run.inv
      exact ih (run.step proper (hi.fits proper call) call) e
    · cases e

theorem HeapRun.mono {C' : Heap → HeapCall → Prop} (run : HeapRun lay C h)
    (hC : ∀ h c, C h c → C' h c) : HeapRun lay C' h := by
  induction run with
  | load run one => exact .load run one
  | take _ alloc ih => exact ih.take alloc
  | step _ proper cond call ih => exact ih.step proper (hC _ _ cond) call

/-- A process without a program, in a machine with 64 pages. -/
def loaded : Option Heap :=
  (runFrom smallKernel 0x40000 []).toOption.bind fun s =>
    match s.spaces with
    | [p] => some ⟨[], p, s.mach⟩
    | _ => none

theorem HeapRun.loaded (e : Mm.loaded = some h) : HeapRun smallKernel Heap.Fits h := by
  obtain ⟨s, hs, e⟩ := Option.bind_eq_some_iff.1 e
  split at e
  · rename_i p hp
    cases e
    exact .load (.of_runFrom (toOption_eq_some.1 hs) fun e he => absurd he List.not_mem_nil) hp
  · cases e

/-- Two requests and a release: the page released is the one of the two that is not mapped. -/
theorem heapBooks_of_run_released : ∃ h, HeapRun smallKernel Heap.Fits h ∧ h.Books ∧
    h.live = [0x401000] ∧ h.space.freePages = [0x400000] := by
  have htest : (loaded.bind (Heap.calls [.allocate, .allocate, .free 0x400000])).map
      (fun h => (h.live, h.space.freePages)) = some ([0x401000], [0x400000]) := by decide +kernel
  obtain ⟨h, hh, heq⟩ := Option.map_eq_some_iff.1 htest
  obtain ⟨h₀, hloaded, hcalls⟩ := Option.bind_eq_some_iff.1 hh
  obtain ⟨hlive, hfree⟩ := Prod.mk.inj heq
  have run : HeapRun smallKernel Heap.Fits h := (HeapRun.loaded hloaded).calls hcalls
  exact ⟨h, run, (heapBooks_of_run run).1, hlive, hfree⟩

/-- All pages of a heap of 33 pages but one are released. -/
def releases : List HeapCall :=
  List.replicate 33 .allocate ++
    (List.range 32).map fun k => .free (USER_FREE_ADDRESS_START + PGSIZE * k)

set_option maxRecDepth 10000 in
/-- **The 33rd free page** has no place: a process that releases all of its 33 pages overruns the
array of free pages. -/
theorem heapBooks_lost : ¬ ∀ lay h c, HeapRun lay (fun _ _ => True) h → h.Proper c →
    (c = .allocate → h.PagesLast) → ∃ h', h.call c = .ok h' ∧ h'.Books := by
  intro hall
  have htest : (loaded.bind (Heap.calls releases)).map
      (fun h => (h.live, h.space.freePages.length)) = some ([0x420000], 32) := by decide +kernel
  obtain ⟨h, hh, heq⟩ := Option.map_eq_some_iff.1 htest
  obtain ⟨h₀, hloaded, hcalls⟩ := Option.bind_eq_some_iff.1 hh
  obtain ⟨hlive, hfree⟩ := Prod.mk.inj heq
  have run : HeapRun smallKernel Heap.Fits h := (HeapRun.loaded hloaded).calls hcalls
  have proper : h.Proper (.free 0x420000) := by
    rw [Heap.Proper, hlive]
    exact List.mem_singleton_self _
  obtain ⟨h', e, -⟩ := hall smallKernel h _ (run.mono fun _ _ _ => trivial) proper nofun
  obtain ⟨pm, kept, hi⟩ := run.inv
  have hfits : h.space.freePages.length < MAX_HEAP_PAGES := hi.fits proper e
  rw [hfree] at hfits
  exact absurd hfits (by decide)

end HustOS.Mm
