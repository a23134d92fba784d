import HustOS.Mm.StoreFault

/-!
# The copy that a fork makes

What a child has of the address space of its parent. `do_fork` does not go through the page table of
the parent but through its records: the regions of `mapped_info`, the top of the heap and the list
of released pages.

* `Transfers` is what one part of `do_fork` does: it gives the child copies of some pages, and keeps
  everything else.
* `fork_copies_iff`: the child gets a copy of the whole address space exactly if the records of the
  parent, and the words left on the kernel stack where `free_block_filter` is not cleared, lead to
  all the pages that it maps.
-/

namespace HustOS.Mm

open Foundations

variable {lay : Layout} {m₀ m m' m'' n n' : Mach} {kept₀ kept kept' kept₁ S S' : Set ℕ}
  {pm₀ pm pm' : ℕ → PageMap} {map₀ map map' map'' : PageMap} {spaces : List Space} {s : Sys}
  {parent child child' p : Space} {junk : ℕ → ℕ} {tf v f perm va w : ℕ}

/-! ## Copies of pages -/

/-- The entry `v` of `map` lets the process use a page, not its trapframe, with the words that
`map₀` had there in the memory `m₀`. -/
def Cloned (m₀ : Mach) (map₀ map : PageMap) (tf : ℕ) (m : Mach) (v : ℕ) : Prop :=
  ∃ f perm, map v = some (f, perm) ∧ perm &&& PTE_U ≠ 0 ∧ f ≠ tf ∧
    ∀ a < PGSIZE, m.mem (f + a) = m₀.mem ((map₀ v).elim 0 Prod.fst + a)

theorem Cloned.mono (h : Cloned m₀ map₀ map tf m v) (hv : map' v = map v) (hs : SameOn kept m m')
    (hk : ∀ v f perm, map v = some (f, perm) → f ∈ kept) : Cloned m₀ map₀ map' tf m' v := by
  obtain ⟨f, perm, hf, hu, hne, hw⟩ := h
  refine ⟨f, perm, hv.trans hf, hu, hne, fun a ha => ?_⟩
  rw [hs.mem f (hk v f perm hf) _ (Nat.le_add_right _ _) (Nat.add_lt_add_left ha _)]
  exact hw a ha

/-- A write to the trapframe. -/
theorem Cloned.touch (h : Cloned m₀ map₀ map tf m v) (ht : Touches tf m m') (htf : PGSIZE ∣ tf)
    (hk : ∀ v f perm, map v = some (f, perm) → PGSIZE ∣ f) : Cloned m₀ map₀ map tf m' v := by
  obtain ⟨f, perm, hf, hu, hne, hw⟩ := h
  refine ⟨f, perm, hf, hu, hne, fun a ha => ?_⟩
  rw [ht.mem, hw a ha]
  obtain ⟨x, rfl⟩ := hk v f perm hf
  obtain ⟨y, rfl⟩ := htf
  simp only [PGSIZE] at *
  omega

/-- A part of `do_fork` that copies the pages `S`: it keeps the pages `kept` as they are, and the
other entries of the child. -/
structure Transfers (m₀ : Mach) (map₀ : PageMap) (tf : ℕ) (S : Set ℕ) (map map' : PageMap)
    (kept : Set ℕ) (m m' : Mach) : Prop where
  same : SameOn kept m m'
  cloned : ∀ v ∈ S, Cloned m₀ map₀ map' tf m' v
  rest : ∀ v, v ∉ S → map' v = map v

namespace Transfers

theorem nothing : Transfers m₀ map₀ tf ∅ map map kept m m :=
  ⟨.refl, fun _ hv => absurd hv (Set.notMem_empty _), fun _ _ => rfl⟩

/-- What was copied before is still a copy. -/
theorem keep (h : Transfers m₀ map₀ tf S map map' kept m m') (hc : Cloned m₀ map₀ map tf m v)
    (hk : ∀ v f perm, map v = some (f, perm) → f ∈ kept) : Cloned m₀ map₀ map' tf m' v := by
  by_cases hv : v ∈ S
  · exact h.cloned v hv
  · exact hc.mono (h.rest v hv) h.same hk

theorem trans (h : Transfers m₀ map₀ tf S map map' kept m m')
    (h' : Transfers m₀ map₀ tf S' map' map'' kept' m' m'') (hsub : kept ⊆ kept')
    (hk : ∀ v f perm, map' v = some (f, perm) → f ∈ kept') :
    Transfers m₀ map₀ tf (S ∪ S') map map'' kept m m'' where
  same := h.same.trans (h'.same.mono hsub)
  cloned v hv := hv.elim (fun hv => h'.keep (h.cloned v hv) hk) (h'.cloned v)
  rest v hv := (h'.rest v fun hv' => hv (.inr hv')).trans (h.rest v fun hv' => hv (.inl hv'))

end Transfers

/-! ## The parts of `do_fork` -/

/-- The pages of the heap that `do_fork` does not skip. -/
def heapPages (parent : Space) (junk : ℕ → ℕ) : Set ℕ :=
  {v | ∃ k < heapBlocks parent, freeBlockFilter parent junk k = 0 ∧ v = blockVpn k}

/-- The first pages of the regions `gs`. -/
def regionPages (gs : List Region) : Set ℕ := {v | ∃ g ∈ gs, v = g.va / PGSIZE}

namespace Forking

theorem framed (h : Forking lay m₀ kept₀ pm₀ spaces child pm kept m n) :
    ∀ v f perm, pm child.pagetable v = some (f, perm) → f ∈ kept := by
  obtain ⟨l, hl⟩ := h.stage.spaces
  exact fun v f perm hv => hl.framed _ h.root v f perm hv

theorem aligned (h : Forking lay m₀ kept₀ pm₀ spaces child pm kept m n) {x : ℕ} (hx : x ∈ kept) :
    PGSIZE ∣ x := by
  obtain ⟨l, hl⟩ := h.stage.spaces
  exact (hl.keptPage x hx).1

/-- The frames of the parent are pages that were kept before the fork. -/
theorem parent_frame (h₀ : SysInv lay m₀ spaces pm₀ kept₀) (hp : parent ∈ spaces) (v : ℕ) :
    (pm₀ parent.pagetable v).elim 0 Prod.fst ∈ kept₀ := by
  obtain ⟨l, hl⟩ := h₀.tables
  rcases hv : pm₀ parent.pagetable v with _ | ⟨f, perm⟩
  · exact hl.null
  · exact hl.framed _ (mem_rootsOf hp) v f perm hv

/-- They have the words that they had. -/
theorem parent_words (h : Forking lay m₀ kept₀ pm₀ spaces child pm kept m n)
    (h₀ : SysInv lay m₀ spaces pm₀ kept₀) (hp : parent ∈ spaces) (v : ℕ) {a : ℕ} (ha : a < PGSIZE) :
    m.mem ((pm₀ parent.pagetable v).elim 0 Prod.fst + a) =
      m₀.mem ((pm₀ parent.pagetable v).elim 0 Prod.fst + a) :=
  h.stage.same.mem _ (parent_frame h₀ hp v) _ (Nat.le_add_right _ _) (Nat.add_lt_add_left ha _)

/-- A page that is mapped to the frame of the parent is a copy. -/
theorem shared_cloned (h : Forking lay m₀ kept₀ pm₀ spaces child pm kept m n)
    (h₀ : SysInv lay m₀ spaces pm₀ kept₀) (hp : parent ∈ spaces)
    (hv : pm child.pagetable v = some ((pm₀ parent.pagetable v).elim 0 Prod.fst, perm))
    (hu : perm &&& PTE_U ≠ 0) :
    Cloned m₀ (pm₀ parent.pagetable) (pm child.pagetable) child.trapframe m v := by
  refine ⟨_, perm, hv, hu, fun he => h.trapframe ?_, fun a ha => h.parent_words h₀ hp v ha⟩
  rw [← he]
  exact parent_frame h₀ hp v

/-- **The heap** is transferred, except for the blocks that are skipped. -/
theorem heap_transfers {g : Region} (h : Forking lay m₀ kept₀ pm₀ spaces child pm kept m n)
    (h₀ : SysInv lay m₀ spaces pm₀ kept₀) (hp : parent ∈ spaces) (ht : g.segType = .heap)
    (e : forkRegion parent junk g child m = .ok (child', m')) :
    ∃ n' pm', child'.pagetable = child.pagetable ∧ child'.trapframe = child.trapframe ∧
      heapBlocks parent ≤ MAX_HEAP_PAGES ∧
      Transfers m₀ (pm₀ parent.pagetable) child.trapframe (heapPages parent junk)
        (pm child.pagetable) (pm' child.pagetable) kept m m' ∧
      Forking lay m₀ kept₀ pm₀ spaces child' pm' kept m' n' := by
  obtain ⟨n', pm', -, rfl, hmax, hs, hc, hrest, h'⟩ :=
    h.heapRegion hp (h₀.space parent hp) ht e
  refine ⟨n', pm', rfl, rfl, hmax, ⟨hs, ?_, fun v hv => hrest v ?_⟩, h'⟩
  · rintro v ⟨k, hk, hfilter, rfl⟩
    have hv := hc k hk hfilter
    rw [h'.old _ (mem_rootsOf hp)] at hv
    exact h'.shared_cloned h₀ hp hv (by decide)
  · exact fun j hj hfilter hvj => hv ⟨j, hj, hfilter, hvj⟩

/-- **A code or data segment** is transferred. -/
theorem segment_transfers {g : Region} (h : Forking lay m₀ kept₀ pm₀ spaces child pm kept m n)
    (h₀ : SysInv lay m₀ spaces pm₀ kept₀) (hp : parent ∈ spaces) (hg : g ∈ parent.regions)
    (ht : g.segType = .code ∨ g.segType = .data)
    (e : forkRegion parent junk g child m = .ok (child', m')) :
    ∃ n' pm' kept', child'.pagetable = child.pagetable ∧ child'.trapframe = child.trapframe ∧
      kept ⊆ kept' ∧ Transfers m₀ (pm₀ parent.pagetable) child.trapframe {g.va / PGSIZE}
        (pm child.pagetable) (pm' child.pagetable) kept m m' ∧
      Forking lay m₀ kept₀ pm₀ spaces child' pm' kept' m' n' := by
  have hok := h₀.space parent hp
  have hrest : ∀ (e : Option (ℕ × ℕ)) (v : ℕ), v ∉ ({g.va / PGSIZE} : Set ℕ) →
      mapAt pm child.pagetable (g.va / PGSIZE) e child.pagetable v = pm child.pagetable v :=
    fun e v hv => by rw [mapAt_apply, if_neg fun he => hv he.2]
  rcases ht with ht | ht
  · obtain ⟨n', -, rfl, -, hs, h'⟩ := h.codeRegion hp hok hg ht e
    refine ⟨n', _, kept, rfl, rfl, le_rfl, ⟨hs, ?_, hrest _⟩, h'⟩
    rintro v rfl
    have hv := mapAt_self pm child.pagetable (g.va / PGSIZE)
      (some ((pm parent.pagetable (g.va / PGSIZE)).elim 0 Prod.fst,
        protToType (PROT_EXEC ||| PROT_READ) 1))
    rw [h.old _ (mem_rootsOf hp)] at hv h'
    have hc := h'.shared_cloned h₀ hp hv (by decide)
    rw [h.old _ (mem_rootsOf hp)]
    exact hc
  · obtain ⟨n', q, -, rfl, hq, -, hs, hw, h'⟩ := h.dataRegion hp hok hg h₀.trapSec ht e
    refine ⟨n', _, _, rfl, rfl, Set.subset_insert q kept, ⟨hs, ?_, hrest _⟩, h'⟩
    rintro v rfl
    refine ⟨q, _, mapAt_self _ _ _ _, by decide, fun he => hq (he ▸ h.ok.trapframe.1),
      fun a ha => ?_⟩
    rw [hw a ha, h.old _ (mem_rootsOf hp)]
    exact h.parent_words h₀ hp _ ha

/-- **The segments** are transferred, one after the other. -/
theorem segments_transfer {gs : List Region} (h : Forking lay m₀ kept₀ pm₀ spaces child pm kept m n)
    (h₀ : SysInv lay m₀ spaces pm₀ kept₀) (hp : parent ∈ spaces)
      (hgs : ∀ g ∈ gs, g ∈ parent.regions)
    (ht : ∀ g ∈ gs, g.segType = .code ∨ g.segType = .data)
    (e : forkLoop parent junk gs child m = .ok (child', m')) :
    ∃ n' pm' kept', child'.pagetable = child.pagetable ∧ child'.trapframe = child.trapframe ∧
      kept ⊆ kept' ∧ Transfers m₀ (pm₀ parent.pagetable) child.trapframe (regionPages gs)
        (pm child.pagetable) (pm' child.pagetable) kept m m' ∧
      Forking lay m₀ kept₀ pm₀ spaces child' pm' kept' m' n' := by
  induction gs generalizing child pm kept m n with
  | nil =>
    cases e
    have hnone : regionPages [] = ∅ := by
      ext v
      simp [regionPages]
    exact ⟨n, pm, kept, rfl, rfl, le_rfl, hnone ▸ .nothing, h⟩
  | cons g gs ih =>
    rw [forkLoop] at e
    obtain ⟨⟨child₁, m₁⟩, e₁, e⟩ := (bind_ok_iff _ _ _).1 e
    obtain ⟨n₁, pm₁, kept₁, hpt, htf, hsub, ht₁, h₁⟩ := h.segment_transfers h₀ hp
      (hgs g List.mem_cons_self) (ht g List.mem_cons_self) e₁
    obtain ⟨n', pm', kept', hpt', htf', hsub', ht', h'⟩ := ih h₁
      (fun g hg => hgs g (List.mem_cons_of_mem _ hg))
      (fun g hg => ht g (List.mem_cons_of_mem _ hg)) e
    have hunion : regionPages (g :: gs) = {g.va / PGSIZE} ∪ regionPages gs := by
      ext v
      simp [regionPages]
    rw [hpt, htf] at ht'
    rw [hunion]
    exact ⟨n', pm', kept', hpt'.trans hpt, htf'.trans htf, hsub.trans hsub',
      ht₁.trans ht' hsub (hpt ▸ h₁.framed), h'⟩

end Forking

/-! ## The records of a process -/

/-- The regions that `alloc_process` registers. -/
def newRegions (lay : Layout) (trapframe : ℕ) : List Region :=
  [⟨USER_STACK_TOP - PGSIZE, 1, .stack⟩, ⟨trapframe, 1, .context⟩, ⟨lay.trapSecStart, 1, .system⟩,
    ⟨USER_FREE_ADDRESS_START, 0, .heap⟩]

/-- The regions of the process are those of `alloc_process`, and then code and data segments. -/
def Registered (lay : Layout) (p : Space) : Prop :=
  ∃ gs : List Region, p.regions = newRegions lay p.trapframe ++ gs ∧
    ∀ g ∈ gs, g.segType = .code ∨ g.segType = .data

/-- The process structure `p'` differs from `p` in the heap and by segments that are added. -/
def Registers (p p' : Space) : Prop :=
  p'.trapframe = p.trapframe ∧ ∃ gs : List Region, p'.regions = p.regions ++ gs ∧
    ∀ g ∈ gs, g.segType = .code ∨ g.segType = .data

theorem Registers.refl (p : Space) : Registers p p :=
  ⟨rfl, [], (List.append_nil _).symm, fun _ hg => absurd hg List.not_mem_nil⟩

theorem Registers.trans {p₁ p₂ p₃ : Space} (h : Registers p₁ p₂) (h' : Registers p₂ p₃) :
    Registers p₁ p₃ := by
  obtain ⟨ht, gs, hr, hgs⟩ := h
  obtain ⟨ht', gs', hr', hgs'⟩ := h'
  refine ⟨ht'.trans ht, gs ++ gs', by rw [hr', hr, List.append_assoc], fun g hg => ?_⟩
  exact (List.mem_append.1 hg).elim (hgs g) (hgs' g)

theorem Registered.registers {p' : Space} (h : Registered lay p) (hr : Registers p p') :
    Registered lay p' := by
  obtain ⟨gs, hgs, ht⟩ := h
  obtain ⟨htf, gs', hgs', ht'⟩ := hr
  refine ⟨gs ++ gs', by rw [hgs', hgs, htf, List.append_assoc], fun g hg => ?_⟩
  exact (List.mem_append.1 hg).elim (ht g) (ht' g)

theorem allocProcess_registered (e : allocProcess lay m = .ok (p, m')) : Registered lay p := by
  rw [allocProcess] at e
  obtain ⟨⟨tf, pt, us, m₁⟩, e₁, e⟩ := (bind_ok_iff _ _ _).1 e
  obtain ⟨m₂, e₂, e⟩ := (bind_ok_iff _ _ _).1 e
  obtain ⟨⟨pf, m₃⟩, e₃, e⟩ := (bind_ok_iff _ _ _).1 e
  by_cases hpf : pf = 0
  · simp only [hpf, if_true, throw_eq_error, error_bind] at e
    cases e
  · simp only [hpf, if_false, pure_eq_ok] at e
    cases e
    exact ⟨[], (List.append_nil _).symm, fun _ hg => absurd hg List.not_mem_nil⟩

theorem registers_region {g : Region} (ht : g.segType = .code ∨ g.segType = .data) :
    Registers p { p with regions := p.regions ++ [g] } :=
  ⟨rfl, [g], rfl, fun _ hg => List.mem_singleton.1 hg ▸ ht⟩

theorem forkRegion_registers {g : Region}
    (e : forkRegion parent junk g child m = .ok (child', m')) : Registers child child' := by
  rw [forkRegion] at e
  split at e
  · obtain ⟨m₁, -, e⟩ := (bind_ok_iff _ _ _).1 e
    cases e
    exact .refl _
  · obtain ⟨⟨_, _⟩, -, e⟩ := (bind_ok_iff _ _ _).1 e
    obtain ⟨⟨_, _⟩, -, e⟩ := (bind_ok_iff _ _ _).1 e
    obtain ⟨m₁, -, e⟩ := (bind_ok_iff _ _ _).1 e
    cases e
    exact .refl _
  · split at e
    · cases e
    obtain ⟨m₁, -, e⟩ := (bind_ok_iff _ _ _).1 e
    cases e
    exact ⟨rfl, [], (List.append_nil _).symm, fun _ hg => absurd hg List.not_mem_nil⟩
  · rename_i ht
    obtain ⟨⟨_, _⟩, -, e⟩ := (bind_ok_iff _ _ _).1 e
    obtain ⟨⟨_, _⟩, -, e⟩ := (bind_ok_iff _ _ _).1 e
    cases e
    exact registers_region (.inl ht)
  · rename_i ht
    obtain ⟨m₁, -, e⟩ := (bind_ok_iff _ _ _).1 e
    cases e
    exact registers_region (.inr ht)
  · cases e
    exact .refl _

theorem forkLoop_registers {gs : List Region}
    (e : forkLoop parent junk gs child m = .ok (child', m')) : Registers child child' := by
  induction gs generalizing child m with
  | nil =>
    cases e
    exact .refl _
  | cons g gs ih =>
    rw [forkLoop] at e
    obtain ⟨⟨child₁, m₁⟩, e₁, e⟩ := (bind_ok_iff _ _ _).1 e
    exact (forkRegion_registers e₁).trans (ih e)

theorem doFork_registered (e : doFork lay junk parent m = .ok (child, m')) :
    Registered lay child := by
  rw [doFork] at e
  obtain ⟨⟨child₁, m₁⟩, e₁, e⟩ := (bind_ok_iff _ _ _).1 e
  obtain ⟨⟨child₂, m₂⟩, e₂, e⟩ := (bind_ok_iff _ _ _).1 e
  cases e
  exact (allocProcess_registered e₁).registers (forkLoop_registers e₂)

theorem loadPages_registers {prog : List ProgPage} {p' : Space}
    (e : loadPages prog p m = .ok (p', m')) : Registers p p' := by
  induction prog generalizing p m with
  | nil =>
    cases e
    exact .refl _
  | cons page prog ih =>
    rw [loadPages] at e
    obtain ⟨⟨q, m₁⟩, -, e⟩ := (bind_ok_iff _ _ _).1 e
    by_cases h0 : q = 0
    · simp only [h0, if_true, throw_eq_error, error_bind] at e
      cases e
    simp only [h0, if_false] at e
    obtain ⟨m₂, -, e⟩ := (bind_ok_iff _ _ _).1 e
    by_cases ht : page.segType ≠ none ∧ page.segType ≠ some .code ∧ page.segType ≠ some .data
    · rw [if_pos ht] at e
      cases e
    rw [if_neg ht] at e
    refine .trans ?_ (ih e)
    refine ⟨rfl, _, rfl, fun g hg => ?_⟩
    cases hs : page.segType with
    | none =>
      rw [hs] at hg
      exact absurd hg List.not_mem_nil
    | some t =>
      rw [hs] at hg ht
      obtain rfl := List.mem_singleton.1 hg
      simpa [or_iff_not_imp_left] using ht

theorem heapVa_registers {p' : Space} (e : heapVa p = .ok (va, p')) : Registers p p' := by
  rw [heapVa] at e
  split at e
  · split at e
    · cases e
      exact ⟨rfl, [], (List.append_nil _).symm, fun _ hg => absurd hg List.not_mem_nil⟩
    · cases e
  · cases e
    exact ⟨rfl, [], (List.append_nil _).symm, fun _ hg => absurd hg List.not_mem_nil⟩

theorem exec_registered {s' : Sys} {ev : Event} (h : ∀ p ∈ s.spaces, Registered lay p)
    (e : exec lay ev s = .ok s') : ∀ p ∈ s'.spaces, Registered lay p := by
  have hset : ∀ {i : ℕ} {p p' : Space}, s.space i = .ok p → Registers p p' →
      ∀ q ∈ s.spaces.set i p', Registered lay q := by
    intro i p p' ep hr q hq
    rcases List.mem_or_eq_of_mem_set hq with hq | rfl
    · exact h q hq
    · exact (h p (List.mem_of_getElem? (Sys.space_ok ep))).registers hr
  cases ev with
  | allocate i =>
    rw [exec] at e
    obtain ⟨p, ep, e⟩ := (bind_ok_iff _ _ _).1 e
    obtain ⟨⟨va, p', m'⟩, e₁, e⟩ := (bind_ok_iff _ _ _).1 e
    cases e
    rw [sysUserAllocatePage] at e₁
    obtain ⟨⟨_, _⟩, -, e₁⟩ := (bind_ok_iff _ _ _).1 e₁
    obtain ⟨⟨va', p₁⟩, e₂, e₁⟩ := (bind_ok_iff _ _ _).1 e₁
    obtain ⟨_, -, e₁⟩ := (bind_ok_iff _ _ _).1 e₁
    cases e₁
    exact hset ep (heapVa_registers e₂)
  | free i va =>
    rw [exec] at e
    obtain ⟨p, ep, e⟩ := (bind_ok_iff _ _ _).1 e
    obtain ⟨⟨p', m'⟩, e₁, e⟩ := (bind_ok_iff _ _ _).1 e
    cases e
    obtain ⟨-, rfl, -⟩ := SysInv.sysUserFreePage_ok e₁
    exact hset ep ⟨rfl, [], (List.append_nil _).symm, fun _ hg => absurd hg List.not_mem_nil⟩
  | fork i junk =>
    rw [exec] at e
    obtain ⟨p, ep, e⟩ := (bind_ok_iff _ _ _).1 e
    by_cases hn : NPROC ≤ s.spaces.length
    · rw [if_pos hn] at e
      cases e
    rw [if_neg hn] at e
    obtain ⟨⟨child, m'⟩, e₁, e⟩ := (bind_ok_iff _ _ _).1 e
    cases e
    intro q hq
    rcases List.mem_append.1 hq with hq | hq
    · exact h q hq
    · exact List.mem_singleton.1 hq ▸ doFork_registered e₁
  | store i va sp b =>
    rw [exec] at e
    obtain ⟨p, ep, e⟩ := (bind_ok_iff _ _ _).1 e
    obtain ⟨m', -, e⟩ := (bind_ok_iff _ _ _).1 e
    cases e
    exact h

/-- **The records along a run.** -/
theorem Run.registered {C : Sys → Event → Prop} (run : Run lay C s) :
    ∀ p ∈ s.spaces, Registered lay p := by
  induction run with
  | boot _ => exact fun _ hp => absurd hp List.not_mem_nil
  | take _ _ ih => exact ih
  | load _ load ih =>
    rw [loadUserProgram] at load
    split at load
    · cases load
    obtain ⟨⟨p, m₁⟩, e₁, load⟩ := (bind_ok_iff _ _ _).1 load
    obtain ⟨⟨p', m₂⟩, e₂, load⟩ := (bind_ok_iff _ _ _).1 load
    cases load
    intro q hq
    rcases List.mem_append.1 hq with hq | hq
    · exact ih q hq
    · exact List.mem_singleton.1 hq ▸ (allocProcess_registered e₁).registers
        (loadPages_registers e₂)
  | step _ _ e ih => exact exec_registered ih e

/-! ## The whole fork -/

/-- The pages that `do_fork` copies: the top page of the stack, the heap but for the blocks that are
skipped, and the first pages of the code and data segments. -/
def forkPages (parent : Space) (junk : ℕ → ℕ) : Set ℕ :=
  {stackVpn} ∪ (heapPages parent junk ∪
    regionPages (parent.regions.filter fun g => g.segType = .code ∨ g.segType = .data))

/-- What `do_fork` leaves: copies of the pages `S` and nothing else that the child may use, and the
trapframe of the parent with `a0 = 0`. -/
structure ForkDone (m : Mach) (parent child : Space) (S : Set ℕ) (map₀ map : PageMap) (m' : Mach) :
    Prop where
  cloned : ∀ v ∈ S, Cloned m map₀ map child.trapframe m' v
  only : ∀ v f perm, map v = some (f, perm) → perm &&& PTE_U ≠ 0 → v ∈ S
  a0 : m'.mem (child.trapframe + 72) = 0
  trapframe : ∀ a < TRAPFRAME_SIZE, a ≠ 72 →
    m'.mem (child.trapframe + a) = m.mem (parent.trapframe + a)

theorem Touches.mem_page {x y a : ℕ} (h : Touches x m m') (hx : PGSIZE ∣ x) (hy : PGSIZE ∣ y)
    (hne : y ≠ x) (ha : a < PGSIZE) : m'.mem (y + a) = m.mem (y + a) := by
  refine h.mem _ ?_
  obtain ⟨i, rfl⟩ := hx
  obtain ⟨j, rfl⟩ := hy
  simp only [PGSIZE] at *
  omega

namespace Forking

/-- **The stack and the trapframe** are copied before anything else. -/
theorem base {us : ℕ} {m₁ m₂ : Mach} {child₁ child₂ : Space}
    (h : Forking lay m₀ kept₀ pm₀ spaces child pm kept m n) (h₀ : SysInv lay m₀ spaces pm₀ kept₀)
    (hp : parent ∈ spaces) (hst : OnlyStack pm child us)
    (e₁ : forkRegion parent junk ⟨USER_STACK_TOP - PGSIZE, 1, .stack⟩ child m = .ok (child₁, m₁))
    (e₂ : forkRegion parent junk ⟨parent.trapframe, 1, .context⟩ child₁ m₁ = .ok (child₂, m₂)) :
    ∃ n₂, child₂ = child ∧
      Cloned m₀ (pm₀ parent.pagetable) (pm child.pagetable) child.trapframe m₂ stackVpn ∧
      (∀ a < TRAPFRAME_SIZE, m₂.mem (child.trapframe + a) = m₀.mem (parent.trapframe + a)) ∧
      Forking lay m₀ kept₀ pm₀ spaces child pm kept m₂ n₂ := by
  obtain ⟨n₁, us', perm, -, rfl, hus, ht₁, hw₁, h₁⟩ := h.stackRegion hp rfl e₁
  obtain ⟨n₂, -, rfl, ht₂, hw₂, h₂⟩ := h₁.contextRegion rfl e₂
  obtain ⟨rfl, -⟩ := Prod.mk.inj (Option.some.inj (hst.stack.symm.trans hus))
  have hptf := (h₀.space parent hp).trapframe.1
  refine ⟨n₂, rfl, ⟨us, _, hst.stack, by decide, hst.apart, fun a ha => ?_⟩, fun a ha => ?_, h₂⟩
  · rw [ht₂.mem_page (h₂.aligned h₂.ok.trapframe.1)
      (h₂.aligned (h₂.framed _ _ _ hst.stack)) hst.apart
      ha, hw₁ a ha, h.old _ (mem_rootsOf hp)]
    exact h.parent_words h₀ hp stackVpn ha
  · have hlt : a < PGSIZE := lt_trans ha (by decide)
    rw [hw₂ a ha]
    exact h₁.stage.same.mem _ hptf _ (Nat.le_add_right _ _) (Nat.add_lt_add_left hlt _)

end Forking

/-- **`do_fork`** copies the pages that the records of the parent lead to. -/
theorem SysInv.forkDone (h : SysInv lay m spaces pm kept) (hp : parent ∈ spaces)
    (hreg : Registered lay parent) (e : Mm.doFork lay junk parent m = .ok (child, m')) :
    ∃ pm' kept', SysInv lay m' (spaces ++ [child]) pm' kept' ∧
      heapBlocks parent ≤ MAX_HEAP_PAGES ∧
      ForkDone m parent child (forkPages parent junk) (pm parent.pagetable)
          (pm' child.pagetable) m' := by
  rw [Mm.doFork] at e
  obtain ⟨⟨child₁, m₁⟩, e₁, e⟩ := (bind_ok_iff _ _ _).1 e
  obtain ⟨⟨child₂, m₂⟩, e₂, e⟩ := (bind_ok_iff _ _ _).1 e
  cases e
  obtain ⟨n₁, pm₁, kept₁, -, h₁, us, hst⟩ := h.allocProcess .refl e₁
  obtain ⟨gs, hgs, hty⟩ := hreg
  have hmem : ∀ g ∈ gs, g ∈ parent.regions := fun g hg => hgs ▸ List.mem_append_right _ hg
  have hfilter : parent.regions.filter (fun g => g.segType = .code ∨ g.segType = .data) = gs := by
    rw [hgs, List.filter_append, List.filter_eq_self.2 fun g hg => decide_eq_true (hty g hg)]
    rfl
  -- the regions of `alloc_process` come first
  rw [hgs] at e₂
  simp only [newRegions, List.cons_append, List.nil_append, forkLoop] at e₂
  obtain ⟨⟨c₁, x₁⟩, f₁, e₃⟩ := (bind_ok_iff _ _ _).1 e₂
  obtain ⟨⟨c₂, x₂⟩, f₂, e₄⟩ := (bind_ok_iff _ _ _).1 e₃
  obtain ⟨⟨c₃, x₃⟩, f₃, e₅⟩ := (bind_ok_iff _ _ _).1 e₄
  obtain ⟨⟨c₄, x₄⟩, f₄, e₆⟩ := (bind_ok_iff _ _ _).1 e₅
  obtain ⟨n₂, rfl, hstack, hwords, h₂⟩ := h₁.base h hp hst f₁ f₂
  obtain ⟨rfl, rfl⟩ := Prod.mk.inj (Except.ok.inj f₃)
  obtain ⟨n₃, pm₃, hpt, htf, hmax, ht₃, h₃⟩ := h₂.heap_transfers h hp rfl f₄
  obtain ⟨n₄, pm₄, kept₄, hpt', htf', hsub, ht₄, h₄⟩ := h₃.segments_transfer h hp hmem hty e₆
  rw [hpt, htf] at ht₄
  have ht := ht₃.trans ht₄ le_rfl (hpt ▸ h₃.framed)
  -- `a0` is cleared
  have hpt₂ := hpt'.trans hpt
  have htf₂ := htf'.trans htf
  have htouch : ∀ m : Mach, Touches child.trapframe m (m.store (child.trapframe + 72) 0) :=
    fun m => Mach.store_touches (by omega) (by simp only [PGSIZE]; omega)
  have h₅ := h₄.write h₄.ok.trapframe.1 h₄.trapframe (htouch m₂) (htouch n₄)
  have hkeep : ∀ v, Cloned m (pm parent.pagetable) (pm₄ child.pagetable) child.trapframe m₂ v →
      Cloned m (pm parent.pagetable) (pm₄ child.pagetable) child.trapframe
        (m₂.store (child.trapframe + 72) 0) v := fun v hc =>
    hc.touch (htouch m₂) (h₄.aligned h₄.ok.trapframe.1) fun v f perm hv =>
      h₄.aligned (h₄.framed v f perm hv)
  refine ⟨pm₄, kept₄, h₅.sysInv h, hmax, fun v hv => hkeep v ?_, fun v f perm hv hu => ?_,
    Mach.store_self _ _ _, fun a ha hne => ?_⟩
  · rw [forkPages, hfilter] at hv
    rw [hpt₂, htf₂]
    exact hv.elim (fun hv => hv ▸ ht.keep hstack h₂.framed) (ht.cloned v)
  · rw [forkPages, hfilter]
    by_contra hnot
    rw [hpt₂, ht.rest v fun hv' => hnot (.inr hv')] at hv
    exact hnot (.inl (hst.user v f perm hv hu))
  · have hlt : a < PGSIZE := lt_trans ha (by decide)
    have hk := h₂.ok.trapframe.1
    rw [Mach.store_of_ne _ _ (by omega), htf₂, ← hwords a ha]
    exact ht.same.mem _ hk _ (Nat.le_add_right _ _) (Nat.add_lt_add_left hlt _)

/-! ## What the records lead to -/

/-- The last-level entry of `va`, if the process may use the page. -/
def userEntry (pagetable va : ℕ) (m : Mach) : Option ℕ :=
  (validEntry pagetable va m).filter fun w => w &&& PTE_U ≠ 0

theorem SysInv.userEntry_iff (h : SysInv lay m spaces pm kept) (hp : p ∈ spaces) :
    userEntry p.pagetable va m = some w ↔ ∃ f perm, pm p.pagetable (va / PGSIZE) = some (f, perm) ∧
      perm &&& PTE_U ≠ 0 ∧ w = leafEntry (f, perm) := by
  have hu : ∀ {f perm}, pm p.pagetable (va / PGSIZE) = some (f, perm) →
      leafEntry (f, perm) &&& PTE_U = perm &&& PTE_U := by
    intro f perm hv
    rw [(h.frameOk hp hv).leafEntry_and (by decide), Nat.and_or_distrib_right]
    exact Nat.or_zero _
  rw [userEntry, Option.filter_eq_some_iff, decide_eq_true_iff]
  constructor
  · rintro ⟨hw, hu'⟩
    obtain ⟨f, perm, hv, -, rfl⟩ := h.of_validEntry hp hw
    exact ⟨f, perm, hv, hu hv ▸ hu', rfl⟩
  · rintro ⟨f, perm, hv, hu', rfl⟩
    rw [h.validEntry_eq hp, hv, hu hv]
    exact ⟨rfl, hu'⟩

/-- The child has a copy of the address space of the parent: the pages that the parent may use, with
their bytes, none of the released pages of the heap, and the trapframe but for `a0 = 0`. -/
structure ForkCopies (m : Mach) (parent : Space) (m' : Mach) (child : Space) : Prop where
  pages : ∀ va w, userEntry parent.pagetable va m = some w →
    ∃ w', userEntry child.pagetable va m' = some w' ∧
      ∀ off < PGSIZE, m'.byte (pte2pa w' + off) = m.byte (pte2pa w + off)
  freed : ∀ va ∈ parent.freePages, parent.heapBottom ≤ va → va < parent.heapTop →
    userEntry child.pagetable va m' = none
  a0 : m'.mem (child.trapframe + 72) = 0
  trapframe : ∀ k < TRAPFRAME_SIZE / 8, k ≠ 9 →
    m'.mem (child.trapframe + 8 * k) = m.mem (parent.trapframe + 8 * k)

/-- The records of the parent lead `do_fork` to the page of `va`: it is the top page of the stack,
the first page of a code or data segment, or a page of the heap that is not released and, from the
ninth on, for which the word on the kernel stack is zero. -/
inductive Found (parent : Space) (junk : ℕ → ℕ) (va : ℕ) : Prop
  | stack (page : va / PGSIZE = stackVpn)
  | segment (g : Region) (mem : g ∈ parent.regions) (type : g.segType = .code ∨ g.segType = .data)
      (page : va / PGSIZE = g.va / PGSIZE)
  | heap (bottom : parent.heapBottom ≤ va) (top : va < parent.heapTop)
      (kept : heapIndex parent va ∉ parent.freePages.map (heapIndex parent))
      (clear : 4 * heapIndex parent va < MAX_HEAP_PAGES ∨ junk (heapIndex parent va) = 0)

theorem freeBlockFilter_eq_zero {k : ℕ} : freeBlockFilter parent junk k = 0 ↔
    k ∉ parent.freePages.map (heapIndex parent) ∧ (4 * k < MAX_HEAP_PAGES ∨ junk k = 0) := by
  rw [freeBlockFilter]
  split
  · rename_i hk
    simp [hk]
  · rename_i hk
    split
    · rename_i hlt
      simp [hk, hlt]
    · rename_i hlt
      simp [hk, hlt]

theorem SpaceOk.mem_heapPages (hok : SpaceOk kept parent) :
    va / PGSIZE ∈ heapPages parent junk ↔ parent.heapBottom ≤ va ∧ va < parent.heapTop ∧
      freeBlockFilter parent junk (heapIndex parent va) = 0 := by
  obtain ⟨⟨t, ht⟩, hmax⟩ := hok.heapTop
  have hb := hok.heapBottom
  rw [ht] at hmax
  simp only [heapPages, Set.mem_ofPred_eq, heapBlocks, blockVpn, hb, ht]
  constructor
  · rintro ⟨k, hk, hfilter, hv⟩
    have hidx : heapIndex parent va = k := by
      rw [heapIndex, hb]
      simp only [USER_FREE_ADDRESS_START, PGSIZE, MAXVA] at *
      omega
    rw [hidx]
    simp only [USER_FREE_ADDRESS_START, PGSIZE] at *
    exact ⟨by omega, by omega, hfilter⟩
  · rintro ⟨hlo, hhi, hfilter⟩
    refine ⟨heapIndex parent va, ?_, hfilter, ?_⟩ <;> rw [heapIndex, hb] <;>
      simp only [USER_FREE_ADDRESS_START, PGSIZE, MAXVA] at * <;> omega

theorem mem_regionPages_filter : va / PGSIZE ∈
      regionPages (parent.regions.filter fun g => g.segType = .code ∨ g.segType = .data) ↔
    ∃ g ∈ parent.regions, (g.segType = .code ∨ g.segType = .data) ∧
        va / PGSIZE = g.va / PGSIZE := by
  simp only [regionPages, Set.mem_ofPred_eq, List.mem_filter, decide_eq_true_iff, and_assoc]

/-- **The pages that are copied are those that the records lead to.** -/
theorem SpaceOk.found_iff (hok : SpaceOk kept parent) :
    va / PGSIZE ∈ forkPages parent junk ↔ Found parent junk va := by
  rw [forkPages, Set.mem_union, Set.mem_union, Set.mem_singleton_iff, hok.mem_heapPages,
    mem_regionPages_filter, freeBlockFilter_eq_zero]
  constructor
  · rintro (hst | ⟨hlo, hhi, hk, hc⟩ | ⟨g, hg, ht, hv⟩)
    · exact .stack hst
    · exact .heap hlo hhi hk hc
    · exact .segment g hg ht hv
  · rintro (hst | ⟨g, hg, ht, hv⟩ | ⟨hlo, hhi, hk, hc⟩)
    · exact .inl hst
    · exact .inr (.inr ⟨g, hg, ht, hv⟩)
    · exact .inr (.inl ⟨hlo, hhi, hk, hc⟩)

/-- A released page of the heap is copied only as the page of a segment. -/
theorem SpaceOk.freed_iff (hok : SpaceOk kept parent) (hmax : heapBlocks parent ≤ MAX_HEAP_PAGES)
    (hva : va ∈ parent.freePages) (hlo : parent.heapBottom ≤ va) (hhi : va < parent.heapTop) :
    va / PGSIZE ∈ forkPages parent junk ↔ ∃ g ∈ parent.regions,
      (g.segType = .code ∨ g.segType = .data) ∧ va / PGSIZE = g.va / PGSIZE := by
  rw [forkPages, Set.mem_union, Set.mem_union, Set.mem_singleton_iff, hok.mem_heapPages,
    mem_regionPages_filter, freeBlockFilter_eq_zero]
  have hst : va / PGSIZE ≠ stackVpn := by
    have hb := hok.heapBottom
    simp only [heapBlocks, stackVpn, USER_STACK_TOP, USER_FREE_ADDRESS_START, PGSIZE,
      MAX_HEAP_PAGES] at *
    omega
  have hk : heapIndex parent va ∈ parent.freePages.map (heapIndex parent) := List.mem_map_of_mem hva
  simp only [hst, hk, not_true, false_and, and_false, false_or]

/-! ## The theorem -/

/-- The bytes of a copy. -/
theorem byte_of_words {f f' off : ℕ} (hf : PGSIZE ∣ f) (hf' : PGSIZE ∣ f') (hoff : off < PGSIZE)
    (hw : ∀ a < PGSIZE, m'.mem (f' + a) = m.mem (f + a)) : m'.byte (f' + off) =
        m.byte (f + off) := by
  obtain ⟨x, rfl⟩ := hf
  obtain ⟨y, rfl⟩ := hf'
  have hword : ∀ z, (PGSIZE * z + off) / 8 * 8 = PGSIZE * z + off / 8 * 8 ∧
      (PGSIZE * z + off) % 8 = off % 8 := by
    intro z
    simp only [PGSIZE]
    omega
  rw [Mach.byte, Mach.byte, (hword x).1, (hword x).2, (hword y).1, (hword y).2, hw]
  omega

/-- **A fork copies the address space** exactly if the records of the parent lead to all the pages
that it maps. In every state of every run in which the pages that are released may be released, and
for whatever the kernel stack holds, the child that `do_fork` returns has a copy of the address
space of the parent exactly if every page that the parent may use is the top page of the stack, the
first page of a code or data segment, or a page of the heap that is not released and, from the ninth
on, meets a zero on the kernel stack; and no segment starts on a released page of the heap. -/
theorem fork_copies_iff (run : Run lay EventOk s) (hp : parent ∈ s.spaces)
    (fork : doFork lay junk parent s.mach = .ok (child, m')) :
    ForkCopies s.mach parent m' child ↔
      (∀ va w, userEntry parent.pagetable va s.mach = some w → Found parent junk va) ∧
        ∀ g ∈ parent.regions, g.segType = .code ∨ g.segType = .data → ∀ va ∈ parent.freePages,
          parent.heapBottom ≤ va → va < parent.heapTop → va / PGSIZE ≠ g.va / PGSIZE := by
  obtain ⟨pm, kept, h⟩ := run.inv fun _ _ hc => hc
  obtain ⟨pm', kept', h', hmax, hd⟩ := h.forkDone hp (run.registered parent hp) fork
  have hok := h.space parent hp
  have hc : child ∈ s.spaces ++ [child] := List.mem_append_right _ List.mem_cons_self
  -- the child may use exactly the pages that are copied
  have huser : ∀ va w, userEntry child.pagetable va m' = some w →
      va / PGSIZE ∈ forkPages parent junk := by
    intro va w hw
    obtain ⟨f, perm, hv, hu, -⟩ := (h'.userEntry_iff hc).1 hw
    exact hd.only _ f perm hv hu
  constructor
  · intro hcopy
    refine ⟨fun va w hw => ?_, fun g hg ht va hva hlo hhi heq => ?_⟩
    · obtain ⟨w', hw', -⟩ := hcopy.pages va w hw
      exact hok.found_iff.1 (huser va w' hw')
    · have hin : va / PGSIZE ∈ forkPages parent junk :=
        (hok.freed_iff hmax hva hlo hhi).2 ⟨g, hg, ht, heq⟩
      obtain ⟨f, perm, hv, hu, -⟩ := hd.cloned _ hin
      have hnone := hcopy.freed va hva hlo hhi
      rw [(h'.userEntry_iff hc).2 ⟨f, perm, hv, hu, rfl⟩] at hnone
      cases hnone
  · rintro ⟨hfound, hseg⟩
    refine ⟨fun va w hw => ?_, fun va hva hlo hhi => ?_, hd.a0, fun k hk hne => ?_⟩
    · obtain ⟨f, perm, hv, hu, rfl⟩ := (h.userEntry_iff hp).1 hw
      obtain ⟨f', perm', hv', hu', -, hwords⟩ := hd.cloned _ (hok.found_iff.2 (hfound va _ hw))
      rw [hv] at hwords
      refine ⟨_, (h'.userEntry_iff hc).2 ⟨f', perm', hv', hu', rfl⟩, fun off hoff => ?_⟩
      rw [(h.frameOk hp hv).pte2pa_leafEntry, (h'.frameOk hc hv').pte2pa_leafEntry]
      exact byte_of_words (h.frameOk hp hv).aligned (h'.frameOk hc hv').aligned hoff hwords
    · refine Option.eq_none_iff_forall_ne_some.2 fun w hw => ?_
      obtain ⟨g, hg, ht, heq⟩ := (hok.freed_iff hmax hva hlo hhi).1 (huser va w hw)
      exact hseg g hg ht va hva hlo hhi heq
    · refine hd.trapframe (8 * k) ?_ ?_
      · simp only [TRAPFRAME_SIZE] at *
        omega
      · omega

/-- A process with one code page stores to the page below its stack, which grows. -/
def grownStack : Except Fault Sys := do
  let m ← pmmInit smallKernel.gKernelEnd 0x20000 fun _ => 0
  let s ← loadUserProgram smallKernel [⟨0x10, fun _ => 0, some .code⟩] ⟨m, []⟩
  exec smallKernel (.store 0 0x7fffd000 0x7fffd000 7) s

theorem exists_grownStack : ∃ s p child m' w, (∀ C : Sys → Event → Prop,
      (∀ s, C s (.store 0 0x7fffd000 0x7fffd000 7)) → Run smallKernel C s) ∧ p ∈ s.spaces ∧
    doFork smallKernel (fun _ => 0) p s.mach = .ok (child, m') ∧
    userEntry p.pagetable 0x7fffd000 s.mach = some w ∧
    userEntry child.pagetable 0x7fffd000 m' = none ∧ ¬ Found p (fun _ => 0) 0x7fffd000 := by
  have htest : grownStack.toOption.bind (fun s => s.spaces[0]?.bind fun p =>
      (doFork smallKernel (fun _ => 0) p s.mach).toOption.map fun r =>
        (p.heapTop, p.regions.map Region.va, userEntry p.pagetable 0x7fffd000 s.mach,
          userEntry r.1.pagetable 0x7fffd000 r.2)) =
      some (0x400000, [0x7fffe000, 0x8001e000, 0x80000000, 0x400000, 0x10000], some 0x200044d7,
        none) := by decide +kernel
  obtain ⟨s, hs, htest⟩ := Option.bind_eq_some_iff.1 htest
  obtain ⟨p, hp, htest⟩ := Option.bind_eq_some_iff.1 htest
  obtain ⟨⟨child, m'⟩, hf, htest⟩ := Option.map_eq_some_iff.1 htest
  simp only [Prod.mk.injEq] at htest
  obtain ⟨htop, hregions, hw, hnone⟩ := htest
  refine ⟨s, p, child, m', _, fun C hC => ?_, List.mem_of_getElem? hp,
    toOption_eq_some.1 hf, hw, hnone,
    fun hfound => ?_⟩
  · have hs := toOption_eq_some.1 hs
    rw [grownStack] at hs
    obtain ⟨m, h₁, hs⟩ := (bind_ok_iff _ _ _).1 hs
    obtain ⟨s₁, h₂, hs⟩ := (bind_ok_iff _ _ _).1 hs
    exact .step (.load (.boot h₁) h₂) (hC s₁) hs
  · cases hfound with
    | stack page => exact absurd page (by decide)
    | segment g hg _ page =>
      have hva := List.mem_map_of_mem (f := Region.va) hg
      rw [hregions] at hva
      simp only [List.mem_cons, List.not_mem_nil, or_false] at hva
      simp only [PGSIZE] at page
      omega
    | heap _ top =>
      rw [htop] at top
      omega

/-- The fork of a process whose stack has grown is not a copy. -/
theorem fork_copies_iff_grownStack : ∃ s p child m', Run smallKernel EventOk s ∧ p ∈ s.spaces ∧
    doFork smallKernel (fun _ => 0) p s.mach = .ok (child, m') ∧
        ¬ ForkCopies s.mach p m' child := by
  obtain ⟨s, p, child, m', w, hrun, hp, hf, hw, -, hfound⟩ := exists_grownStack
  have run := hrun EventOk fun _ => trivial
  exact ⟨s, p, child, m', run, hp, hf, fun hcopy =>
    hfound (((fork_copies_iff run hp hf).1 hcopy).1 _ w hw)⟩

/-- **The second page of the stack is lost.** -/
theorem stackGrowth_lost : ¬ ∀ lay s parent junk child m', Run lay (fun _ _ => True) s →
    parent ∈ s.spaces → doFork lay junk parent s.mach = .ok (child, m') →
    ForkCopies s.mach parent m' child := by
  intro hall
  obtain ⟨s, p, child, m', w, hrun, hp, hf, hw, hnone, -⟩ := exists_grownStack
  obtain ⟨w', hw', -⟩ :=
    (hall smallKernel s p _ child m' (hrun _ fun _ => trivial) hp hf).pages _ w hw
  rw [hnone] at hw'
  cases hw'

end HustOS.Mm
