import HustOS.Mm.Isolation

/-!
# Store page faults

What `handle_user_page_fault` does to the mappings of the processes. The handler takes the first
free page, clears the valid bit of the entry of the address, whatever the entry is, and maps the
page there with the permission to write.

* `cow_iff`: a page mapped copy-on-write gets a frame of its own, but not the bytes it had: they are
  those of the old frame exactly if the first free page holds these bytes already.
* `storeFault_iff`: a page that is mapped, and not copy-on-write, keeps its mapping exactly if the
  handler panics on it; the handler makes a code page writable.
-/

namespace HustOS.Mm

open Foundations

variable {lay : Layout} {m m' : Mach} {pm : ℕ → PageMap} {kept : Set ℕ} {spaces : List Space}
  {p : Space} {s : Sys} {va sp f perm r w : ℕ}

/-! ## Mappings -/

/-- The last-level entry of `va`, if it is valid. -/
def validEntry (pagetable va : ℕ) (m : Mach) : Option ℕ :=
  if MAXVA ≤ va then none else (pteOf pagetable va m).filter fun w => w &&& PTE_V ≠ 0

/-- The process has mapped the page of `va` with the flag of copy-on-write. -/
def Cow (p : Space) (va : ℕ) (m : Mach) : Prop :=
  ∃ w, validEntry p.pagetable va m = some w ∧ w &&& PTE_C ≠ 0

/-- The entry of a frame with its permissions. -/
def leafEntry (x : ℕ × ℕ) : ℕ := pa2pte x.1 ||| (x.2 ||| PTE_V)

theorem FrameOk.leafEntry_and {z : ℕ} (h : FrameOk f perm) (hz : z < 2 ^ 10) :
    leafEntry (f, perm) &&& z = (perm ||| PTE_V) &&& z :=
  mkPte_and h.lt hz

theorem FrameOk.pte2pa_leafEntry (h : FrameOk f perm) : pte2pa (leafEntry (f, perm)) = f :=
  pte2pa_mkPte h.lt h.aligned (Nat.or_lt_two_pow h.perm_lt (by decide))

theorem FrameOk.allows_iff {kind : ℕ} (h : FrameOk f perm) (hk : kind < 2 ^ 10) :
    Allows kind perm ↔
      leafEntry (f, perm) &&& (PTE_V ||| PTE_U ||| kind) = PTE_V ||| PTE_U ||| kind := by
  rw [h.leafEntry_and (Nat.or_lt_two_pow (by decide) hk), Allows]

/-- **The mappings are the map.** -/
theorem PtInv.validEntry_eq {map : PageMap} (h : PtInv r m map) (va : ℕ) :
    validEntry r va m = (map (va / PGSIZE)).map leafEntry := by
  by_cases hva : MAXVA ≤ va
  · rw [validEntry, if_pos hva, h.bound _ (by simp only [MAXVA, PGSIZE] at *; omega),
      Option.map_none]
  have hlt : va < MAXVA := by omega
  rw [validEntry, if_neg hva, pteOf]
  cases hq : nodeAt (entry m) r [idx 2 va, idx 1 va] with
  | none =>
    have hv := h.absent _ _ (idx 0 va) hq
    rw [vpn_idx hlt] at hv
    rw [hv]
    rfl
  | some q =>
    have hw := h.leafWord hlt hq
    have hval := hw.valid_iff fun _ _ => h.frameOk
    rcases hv : map (va / PGSIZE) with _ | ⟨f, perm⟩
    · rw [Option.map_some, Option.map_none, Option.filter_some, if_neg]
      simpa using hval.2 hv
    · rw [hv] at hw hval
      rw [Option.map_some, Option.map_some, Option.filter_some, if_pos]
      · exact congrArg some hw
      · simpa using hval.not.2 (Option.some_ne_none _)

/-- A page that is mapped has its table. -/
theorem PtInv.nodeAt_of_mapped {map : PageMap} {x : ℕ × ℕ} (h : PtInv r m map)
    (hv : map (va / PGSIZE) = some x) :
    va < MAXVA ∧ ∃ q, nodeAt (entry m) r [idx 2 va, idx 1 va] = some q := by
  have hva : va < MAXVA := by
    by_contra hge
    rw [h.bound _ (by simp only [MAXVA, PGSIZE] at *; omega)] at hv
    cases hv
  refine ⟨hva, Option.ne_none_iff_exists'.1 fun hq => ?_⟩
  have hnone := h.absent _ _ (idx 0 va) hq
  rw [vpn_idx hva, hv] at hnone
  cases hnone

namespace SysInv

theorem validEntry_eq (h : SysInv lay m spaces pm kept) (hp : p ∈ spaces) (va : ℕ) :
    validEntry p.pagetable va m = (pm p.pagetable (va / PGSIZE)).map leafEntry := by
  obtain ⟨l, hl⟩ := h.tables
  exact (hl.table _ (mem_rootsOf hp)).validEntry_eq va

theorem frameOk (h : SysInv lay m spaces pm kept) (hp : p ∈ spaces) {v : ℕ}
    (hv : pm p.pagetable v = some (f, perm)) : FrameOk f perm := by
  obtain ⟨l, hl⟩ := h.tables
  exact (hl.table _ (mem_rootsOf hp)).frameOk hv

/-- A mapping is a frame with permissions in the map. -/
theorem of_validEntry (h : SysInv lay m spaces pm kept) (hp : p ∈ spaces)
    (hw : validEntry p.pagetable va m = some w) :
    ∃ f perm, pm p.pagetable (va / PGSIZE) = some (f, perm) ∧ FrameOk f perm ∧
      w = leafEntry (f, perm) := by
  rw [h.validEntry_eq hp] at hw
  obtain ⟨⟨f, perm⟩, hv, hw⟩ := Option.map_eq_some_iff.1 hw
  exact ⟨f, perm, hv, h.frameOk hp hv, hw.symm⟩

/-! ## The handler on a page that is mapped -/

/-- The handler panics below the stack pointer where the process maps no frame. -/
theorem fault_panics (h : SysInv lay m spaces pm kept) (hp : p ∈ spaces) (hsp : va < sp)
    (hv : (pm p.pagetable (va / PGSIZE)).elim 0 Prod.fst = 0) :
    handleUserPageFault va sp p m = .error (.panic "this address is not available!") := by
  rw [handleUserPageFault, ((h.stage .refl).lookup (mem_rootsOf hp) va).1, ok_bind]
  simp only [hv, hsp, and_self, if_true, throw_eq_error, error_bind]

/-- **The handler returns** on a page that is mapped, unless the frame is 0 and the address is below
the stack pointer. -/
theorem fault_returns (h : SysInv lay m spaces pm kept) (hp : p ∈ spaces)
    (hv : pm p.pagetable (va / PGSIZE) = some (f, perm)) (hsp : ¬ (va < sp ∧ f = 0)) :
    ∃ m', handleUserPageFault va sp p m = .ok m' := by
  have hr := mem_rootsOf hp
  obtain ⟨l, hl⟩ := h.tables
  have hlook := ((h.stage .refl).lookup hr va).1
  rw [hv, Option.elim_some] at hlook
  obtain ⟨m₁, halloc⟩ : ∃ m₁, allocPage m = .ok (m.gFreeMemList, m₁) :=
    ⟨_, allocPage_eq hl.unlocked⟩
  obtain ⟨n₁, -, h₁, -⟩ := (h.stage .refl).take halloc
  obtain ⟨l₁, hl₁⟩ := h₁.spaces
  -- the table of the page is there, so the walk takes no page
  obtain ⟨hva, q, hq⟩ := (hl₁.table _ hr).nodeAt_of_mapped hv
  have hwalk := pageWalk_at hva hq true
  have hq0 := ((hl₁.table _ hr).page q ⟨_, by simp, hq⟩).2.1
  have h0 : q + 8 * px 0 va ≠ 0 := by omega
  -- the entry that the handler leaves is not valid, so `map_pages` does not panic
  set w := m₁.mem (q + 8 * px 0 va) with hw
  have hq' : nodeAt (entry (m₁.store (q + 8 * px 0 va) (w &&& 0xffffeffe))) p.pagetable
      [idx 2 va, idx 1 va] = some q :=
    ((hl₁.table _ hr).nodeAt_store (k := idx 0 va) hq _ (by simp)).trans hq
  have hval : (w &&& 0xffffeffe) &&& PTE_V = 0 := by
    rw [Nat.and_assoc]
    exact Nat.and_zero _
  obtain ⟨m', hmap⟩ : ∃ m', mapPages p.pagetable va 1 m.gFreeMemList
      (protToType (PROT_WRITE ||| PROT_READ) 1)
      (m₁.store (q + 8 * px 0 va) (w &&& 0xffffeffe)) = .ok (0, m') := by
    rw [mapPages_at hva (Spaces.OnePage.last (.inl rfl) hva) hq' h0, Mach.store_self,
      if_neg (not_not.2 hval)]
    exact ⟨_, rfl⟩
  have hload : m₁.load (q + 8 * px 0 va) = .ok w := if_neg h0
  refine ⟨m', ?_⟩
  simp only [handleUserPageFault, hlook, ok_bind, hsp, if_false, halloc, hwalk, hload,
    Mach.clear_eq hw.symm, hmap, pure_eq_ok]

end SysInv

/-! ## Copy-on-write pages -/

/-- The fault at `va`, which was mapped to the frame `f`, has copied the page: the process may write
to a frame just taken with the bytes of `f`, and everything else is as before. -/
structure CopiedOnWrite (s : Sys) (p : Space) (va f : ℕ) (m' : Mach) : Prop where
  fresh : ∃ q m₁, allocPage s.mach = .ok (q, m₁) ∧ q ≠ 0 ∧
    translate p.pagetable PTE_W va m' = some (q + va % PGSIZE) ∧
    ∀ off < PGSIZE, m'.byte (q + off) = s.mach.byte (f + off)
  old : ∀ off < PGSIZE, m'.byte (f + off) = s.mach.byte (f + off)
  others : ∀ p' ∈ s.spaces, p'.pagetable ≠ p.pagetable → ∀ va',
    validEntry p'.pagetable va' m' = validEntry p'.pagetable va' s.mach
  rest : ∀ va', va' / PGSIZE ≠ va / PGSIZE →
    validEntry p.pagetable va' m' = validEntry p.pagetable va' s.mach ∧
      ∀ w, validEntry p.pagetable va' s.mach = some w → ∀ off < PGSIZE,
        m'.byte (pte2pa w + off) = s.mach.byte (pte2pa w + off)

/-- A fault changes the mapping of its own page only. -/
theorem SysInv.validEntry_fault {p' : Space} {q perm' va' : ℕ} (h : SysInv lay m spaces pm kept)
    (h' : SysInv lay m' spaces (mapAt pm p.pagetable (va / PGSIZE) (some (q, perm')))
      (insert q kept))
    (hp' : p' ∈ spaces) (hne : ¬ (p'.pagetable = p.pagetable ∧ va' / PGSIZE = va / PGSIZE)) :
    validEntry p'.pagetable va' m' = validEntry p'.pagetable va' m := by
  rw [h'.validEntry_eq hp', h.validEntry_eq hp', mapAt_apply, if_neg hne]

/-- What a fault leaves: the first free page with its bytes, which the process may write, and the
pages that were kept. -/
theorem SysInv.faulted (h : SysInv lay m spaces pm kept) (hp : p ∈ spaces)
    (e : handleUserPageFault va sp p m = .ok m') :
    ∃ perm', Allows PTE_W perm' ∧ SameOn kept m m' ∧
      (∀ off < PGSIZE, m'.byte (m.gFreeMemList + off) = m.byte (m.gFreeMemList + off)) ∧
      SysInv lay m' spaces (mapAt pm p.pagetable (va / PGSIZE) (some (m.gFreeMemList, perm')))
        (insert m.gFreeMemList kept) := by
  obtain ⟨_, q, perm', -, rfl, -, hwr, -, hs, hst, h'⟩ := h.fault .refl hp e
  refine ⟨perm', hwr, hst.same, fun off hoff => ?_, h'⟩
  exact hs.byte rfl (h'.framed (mem_rootsOf hp) (mapAt_self _ _ _ _)).2 hoff

/-- **A fault copies the page** exactly if the first free page has its bytes already. -/
theorem SysInv.copiedOnWrite_iff (h : SysInv lay s.mach s.spaces pm kept) (hp : p ∈ s.spaces)
    (hw : validEntry p.pagetable va s.mach = some w) :
    (∃ m', handleUserPageFault va sp p s.mach = .ok m' ∧ CopiedOnWrite s p va (pte2pa w) m') ↔
      ¬ (va < sp ∧ pte2pa w = 0) ∧ s.mach.gFreeMemList ≠ 0 ∧
        ∀ off < PGSIZE, s.mach.byte (s.mach.gFreeMemList + off) = s.mach.byte (pte2pa w + off) := by
  obtain ⟨f, perm, hv, hf, rfl⟩ := h.of_validEntry hp hw
  rw [hf.pte2pa_leafEntry]
  obtain ⟨l, hl⟩ := h.tables
  have halloc := allocPage_eq hl.unlocked
  constructor
  · rintro ⟨m', e, hc⟩
    obtain ⟨perm', -, -, hbyte, -⟩ := h.faulted hp e
    obtain ⟨q, m₁, ha, hq0, -, hcopy⟩ := hc.fresh
    obtain ⟨rfl, -⟩ := Prod.mk.inj (Except.ok.inj (halloc.symm.trans ha))
    refine ⟨fun hsp => ?_, hq0, fun off hoff => (hbyte off hoff).symm.trans (hcopy off hoff)⟩
    rw [h.fault_panics hp hsp.1 (by rw [hv]; exact hsp.2)] at e
    cases e
  · rintro ⟨hsp, hq0, hsame⟩
    obtain ⟨m', e⟩ := h.fault_returns hp hv hsp
    obtain ⟨perm', hwr, hs, hbyte, h'⟩ := h.faulted hp e
    have hkept : ∀ {p' va' f' perm'}, p' ∈ s.spaces →
      pm p'.pagetable (va' / PGSIZE) = some (f', perm') →
        ∀ off < PGSIZE, m'.byte (f' + off) = s.mach.byte (f' + off) := by
      intro p' va' f' perm' hp' hv' off hoff
      obtain ⟨hk, hd⟩ := h.framed (mem_rootsOf hp') hv'
      exact hs.byte hk hd hoff
    refine ⟨m', e, ⟨_, _, halloc, hq0, ?_, fun off hoff => ?_⟩, hkept hp hv,
      fun p' hp' hne va' => ?_,
      fun va' hne => ⟨?_, fun w hw' => ?_⟩⟩
    · rw [h'.translate hp (by decide), mapAt_self, Option.bind_some, if_pos hwr]
    · rw [hbyte off hoff, hsame off hoff]
    · exact h.validEntry_fault h' hp' fun e => hne e.1
    · exact h.validEntry_fault h' hp fun e => hne e.2
    · obtain ⟨f', perm', hv', hf', rfl⟩ := h.of_validEntry hp hw'
      rw [hf'.pte2pa_leafEntry]
      exact hkept hp hv'

/-- **A copy-on-write fault.** In every state of every run in which the pages that are released may
be released, a page that a process maps, copy-on-write or not, is copied exactly if there is a free
page, the first one holds the bytes of the old frame already, and the handler does not panic. -/
theorem cow_iff (run : Run lay EventOk s) (hp : p ∈ s.spaces)
    (hw : validEntry p.pagetable va s.mach = some w) :
    (∃ m', handleUserPageFault va sp p s.mach = .ok m' ∧ CopiedOnWrite s p va (pte2pa w) m') ↔
      ¬ (va < sp ∧ pte2pa w = 0) ∧ s.mach.gFreeMemList ≠ 0 ∧
        ∀ off < PGSIZE, s.mach.byte (s.mach.gFreeMemList + off) = s.mach.byte (pte2pa w + off) := by
  obtain ⟨pm, kept, h⟩ := run.inv fun _ _ hc => hc
  exact h.copiedOnWrite_iff hp hw

/-- A process takes a page of heap, stores 7 there and forks. -/
def cowHeap : Except Fault Sys :=
  runFrom smallKernel 0x20000 [.allocate 0, .store 0 0x400000 0 7, .fork 0 fun _ => 0]

theorem exists_cowHeap : ∃ s p w, (∀ C : Sys → Event → Prop, (∀ s, C s (.allocate 0) ∧
      C s (.store 0 0x400000 0 7) ∧ C s (.fork 0 fun _ => 0)) → Run smallKernel C s) ∧
    p ∈ s.spaces ∧ validEntry p.pagetable 0x400000 s.mach = some w ∧ w &&& PTE_C ≠ 0 ∧
    s.mach.byte s.mach.gFreeMemList ≠ s.mach.byte (pte2pa w) := by
  have htest : cowHeap.toOption.bind (fun s => s.spaces[1]?.bind fun p =>
      (validEntry p.pagetable 0x400000 s.mach).map fun w =>
        (w &&& PTE_C, s.mach.byte s.mach.gFreeMemList, s.mach.byte (pte2pa w))) =
      some (PTE_C, 0, 7) := by decide +kernel
  obtain ⟨s, hs, htest⟩ := Option.bind_eq_some_iff.1 htest
  obtain ⟨p, hp, htest⟩ := Option.bind_eq_some_iff.1 htest
  obtain ⟨w, hw, htest⟩ := Option.map_eq_some_iff.1 htest
  simp only [Prod.mk.injEq] at htest
  refine ⟨s, p, w, fun C hC => .of_runFrom (toOption_eq_some.1 hs) fun e he s => ?_,
    List.mem_of_getElem? hp, hw, by rw [htest.1]; decide, by rw [htest.2.1, htest.2.2]; decide⟩
  simp only [List.mem_cons, List.not_mem_nil, or_false] at he
  rcases he with rfl | rfl | rfl
  · exact (hC s).1
  · exact (hC s).2.1
  · exact (hC s).2.2

/-- The child stores to a page that it shares: the page it gets is not a copy. -/
theorem cow_iff_child : ∃ s p w, Run smallKernel EventOk s ∧ p ∈ s.spaces ∧
    validEntry p.pagetable 0x400000 s.mach = some w ∧ w &&& PTE_C ≠ 0 ∧
    ¬ ∃ m', handleUserPageFault 0x400000 0x400000 p s.mach = .ok m' ∧
      CopiedOnWrite s p 0x400000 (pte2pa w) m' := by
  obtain ⟨s, p, w, hrun, hp, hw, hcow, hne⟩ := exists_cowHeap
  have run := hrun EventOk fun _ => ⟨trivial, trivial, trivial⟩
  refine ⟨s, p, w, run, hp, hw, hcow, fun h => hne ?_⟩
  simpa using ((cow_iff run hp hw).1 h).2.2 0 (by decide)

/-- **The page is lost.** The child stores to a page of heap that it shares with its parent, and the
byte that the parent had stored there is gone. -/
theorem cow_lost : ¬ ∀ lay s p va sp w, Run lay (fun _ _ => True) s → p ∈ s.spaces →
    validEntry p.pagetable va s.mach = some w → w &&& PTE_C ≠ 0 → sp ≤ va →
    ∃ m', handleUserPageFault va sp p s.mach = .ok m' ∧ CopiedOnWrite s p va (pte2pa w) m' := by
  intro hall
  obtain ⟨s, p, w, hrun, hp, hw, hcow, hne⟩ := exists_cowHeap
  obtain ⟨pm, kept, h⟩ := (hrun EventOk fun _ => ⟨trivial, trivial, trivial⟩).inv fun _ _ hc => hc
  have hcopy := hall smallKernel s p 0x400000 0x400000 w
    (hrun _ fun _ => ⟨trivial, trivial, trivial⟩) hp hw hcow le_rfl
  apply hne
  simpa using ((h.copiedOnWrite_iff hp hw).1 hcopy).2.2 0 (by decide)

/-! ## Pages without the right to write -/

/-- The fault at `va` gives no right that the process did not have: a page that it may not write
keeps its frame and its rights, and a mapping changes only where the page was copy-on-write, or was
not mapped and not below the stack pointer. -/
structure NoNewRights (s : Sys) (p : Space) (va sp : ℕ) (m' : Mach) : Prop where
  kept : ∀ w, validEntry p.pagetable va s.mach = some w → w &&& PTE_W = 0 → w &&& PTE_C = 0 →
    validEntry p.pagetable va m' = some w
  only : ∀ p' ∈ s.spaces, ∀ va',
    validEntry p'.pagetable va' m' ≠ validEntry p'.pagetable va' s.mach →
      p'.pagetable = p.pagetable ∧ va' / PGSIZE = va / PGSIZE ∧
        (Cow p va s.mach ∨ validEntry p.pagetable va s.mach = none ∧ sp ≤ va)

/-- A fault on a page that is not mapped is one at or above the stack pointer. -/
theorem SysInv.fault_unmapped (h : SysInv lay m spaces pm kept) (hp : p ∈ spaces)
    (hv : pm p.pagetable (va / PGSIZE) = none) (e : handleUserPageFault va sp p m = .ok m') :
    sp ≤ va := by
  by_contra hlt
  rw [h.fault_panics hp (by omega) (by rw [hv]; rfl)] at e
  cases e

/-- **A fault gives no new right** exactly if its page is not mapped, is copy-on-write, or the
handler panics on it. -/
theorem SysInv.noNewRights_iff (h : SysInv lay s.mach s.spaces pm kept) (hp : p ∈ s.spaces)
    (fault : Mm.translate p.pagetable PTE_W va s.mach = none) :
    (∀ m', handleUserPageFault va sp p s.mach = .ok m' → NoNewRights s p va sp m') ↔
      ∀ w, validEntry p.pagetable va s.mach = some w →
        w &&& PTE_C ≠ 0 ∨ (va < sp ∧ pte2pa w = 0) := by
  constructor
  · intro hall w hw
    obtain ⟨f, perm, hv, hf, rfl⟩ := h.of_validEntry hp hw
    rw [hf.pte2pa_leafEntry]
    by_contra hno
    obtain ⟨hcow, hsp⟩ := not_or.1 hno
    obtain ⟨m', e⟩ := h.fault_returns hp hv hsp
    obtain ⟨perm', hwr, -, -, h'⟩ := h.faulted hp e
    -- the new entry lets the store through, which the old one did not
    have hne : validEntry p.pagetable va m' ≠ validEntry p.pagetable va s.mach := by
      intro heq
      rw [h'.validEntry_eq hp, mapAt_self, hw] at heq
      have hf' := h'.frameOk hp (mapAt_self _ _ _ _)
      have hold : Allows PTE_W perm := by
        rw [hf.allows_iff (by decide), ← Option.some.inj heq]
        exact (hf'.allows_iff (by decide)).1 hwr
      rw [h.translate hp (by decide), hv, Option.bind_some, if_pos hold] at fault
      cases fault
    obtain ⟨-, -, hc | ⟨hnone, -⟩⟩ := (hall m' e).only p hp va hne
    · obtain ⟨w, hw', hc⟩ := hc
      obtain rfl := Option.some.inj (hw.symm.trans hw')
      exact hcow hc
    · rw [hw] at hnone
      cases hnone
  · intro hcond m' e
    obtain ⟨perm', -, -, -, h'⟩ := h.faulted hp e
    have hmapped : ∀ w, validEntry p.pagetable va s.mach = some w → w &&& PTE_C ≠ 0 := by
      intro w hw
      obtain ⟨f, perm, hv, hf, rfl⟩ := h.of_validEntry hp hw
      refine (hcond _ hw).resolve_right fun hsp => ?_
      rw [hf.pte2pa_leafEntry] at hsp
      rw [h.fault_panics hp hsp.1 (by rw [hv]; exact hsp.2)] at e
      cases e
    refine ⟨fun w hw _ hc => absurd hc (hmapped w hw), fun p' hp' va' hne => ?_⟩
    obtain ⟨hpt, hpage⟩ := not_not.1 fun hn => hne (h.validEntry_fault h' hp' hn)
    refine ⟨hpt, hpage, ?_⟩
    cases hw : validEntry p.pagetable va s.mach with
    | some w => exact .inl ⟨w, hw, hmapped w hw⟩
    | none =>
      rw [h.validEntry_eq hp, Option.map_eq_none_iff] at hw
      exact .inr ⟨rfl, h.fault_unmapped hp hw e⟩

/-- **A store fault.** In every state of every run in which the pages that are released may be
released, a store fault gives no new right exactly if its page is not mapped, or is mapped
copy-on-write, or is mapped to the frame 0 and the address is below the stack pointer, where the
handler panics. -/
theorem storeFault_iff (run : Run lay EventOk s) (hp : p ∈ s.spaces)
    (fault : translate p.pagetable PTE_W va s.mach = none) :
    (∀ m', handleUserPageFault va sp p s.mach = .ok m' → NoNewRights s p va sp m') ↔
      ∀ w, validEntry p.pagetable va s.mach = some w →
        w &&& PTE_C ≠ 0 ∨ (va < sp ∧ pte2pa w = 0) := by
  obtain ⟨pm, kept, h⟩ := run.inv fun _ _ hc => hc
  exact h.noNewRights_iff hp fault

/-- A program with one page of code forks. -/
def forkedProgram : Except Fault Sys := do
  let m ← pmmInit smallKernel.gKernelEnd 0x20000 fun _ => 0
  let s ← loadUserProgram smallKernel [⟨16, fun _ => 0, some .code⟩] ⟨m, []⟩
  exec smallKernel (.fork 0 fun _ => 0) s

theorem exists_forkedProgram : ∃ s p w, (∀ C : Sys → Event → Prop,
      (∀ s, C s (.fork 0 fun _ => 0)) → Run smallKernel C s) ∧
    p ∈ s.spaces ∧ translate p.pagetable PTE_W 0x10000 s.mach = none ∧
    validEntry p.pagetable 0x10000 s.mach = some w ∧ w &&& PTE_C = 0 ∧ pte2pa w ≠ 0 := by
  have htest : forkedProgram.toOption.bind (fun s => s.spaces[1]?.bind fun p =>
      (validEntry p.pagetable 0x10000 s.mach).map fun w =>
        (translate p.pagetable PTE_W 0x10000 s.mach, w &&& PTE_C, decide (pte2pa w = 0))) =
      some (none, 0, false) := by decide +kernel
  obtain ⟨s, hs, htest⟩ := Option.bind_eq_some_iff.1 htest
  obtain ⟨p, hp, htest⟩ := Option.bind_eq_some_iff.1 htest
  obtain ⟨w, hw, htest⟩ := Option.map_eq_some_iff.1 htest
  simp only [Prod.mk.injEq, decide_eq_false_iff_not] at htest
  have hsteps := toOption_eq_some.1 hs
  rw [forkedProgram] at hsteps
  obtain ⟨m, e₁, hsteps⟩ := (bind_ok_iff _ _ _).1 hsteps
  obtain ⟨s₁, e₂, e₃⟩ := (bind_ok_iff _ _ _).1 hsteps
  exact ⟨s, p, w, fun C hC => .step (.load (.boot e₁) e₂) (hC s₁) e₃, List.mem_of_getElem? hp,
    htest.1, hw, htest.2⟩

/-- The code page of a child, to which it stores, gets writable. -/
theorem storeFault_iff_code : ∃ s p, Run smallKernel EventOk s ∧ p ∈ s.spaces ∧
    translate p.pagetable PTE_W 0x10000 s.mach = none ∧
    ¬ ∀ m', handleUserPageFault 0x10000 USER_STACK_TOP p s.mach = .ok m' →
      NoNewRights s p 0x10000 USER_STACK_TOP m' := by
  obtain ⟨s, p, w, hrun, hp, fault, hw, hcow, hf⟩ := exists_forkedProgram
  have run := hrun EventOk fun _ => trivial
  refine ⟨s, p, run, hp, fault, fun h => ?_⟩
  rcases (storeFault_iff run hp fault).1 h w hw with hc | hc
  · exact hc hcow
  · exact hf hc.2

/-- **A code page becomes writable.** A child stores to its code page, which it shares with its
parent and may not write, and gets another frame there that it may write. -/
theorem rights_gained : ¬ ∀ lay s p va sp m', Run lay (fun _ _ => True) s → p ∈ s.spaces →
    translate p.pagetable PTE_W va s.mach = none →
    handleUserPageFault va sp p s.mach = .ok m' → NoNewRights s p va sp m' := by
  intro hall
  obtain ⟨s, p, w, hrun, hp, fault, hw, hcow, hf⟩ := exists_forkedProgram
  obtain ⟨pm, kept, h⟩ := (hrun EventOk fun _ => trivial).inv fun _ _ hc => hc
  have hno := fun m' =>
    hall smallKernel s p 0x10000 USER_STACK_TOP m' (hrun _ fun _ => trivial) hp fault
  rcases (h.noNewRights_iff hp fault).1 hno w hw with hc | hc
  · exact hc hcow
  · exact hf hc.2

end HustOS.Mm
