import HustOS.Mm.Ownership

/-!
# Forking an address space

`do_fork` builds the address space of the child region by region: the trapframe, the stack and the
data segments are copied to pages of its own, the code and the heap are mapped to the frames of the
parent. `Forking` is what holds between the regions; it keeps the tables of all other processes and
the contents of the pages that were in use. At the end the child maps the heap of the parent
(`Copied`), without the permission to write.
-/

namespace HustOS.Mm

open Foundations

variable {lay : Layout} {m₀ m m' n n' : Mach} {kept₀ kept : Set ℕ} {pm₀ pm : ℕ → PageMap}
  {spaces : List Space} {parent child child' : Space} {junk : ℕ → ℕ} {va size pa perm : ℕ}

/-- The address space of `child` while `do_fork` builds it, from the memory `m₀` with the pages
`kept₀`, and in a twin. -/
structure Forking (lay : Layout) (m₀ : Mach) (kept₀ : Set ℕ) (pm₀ : ℕ → PageMap)
    (spaces : List Space)
    (child : Space) (pm : ℕ → PageMap) (kept : Set ℕ) (m n : Mach) : Prop where
  stage : Stage m₀ kept₀ (insert child.pagetable (rootsOf spaces)) pm kept m n
  fixed : Fixed lay (insert child.pagetable (rootsOf spaces)) pm
  fresh : child.pagetable ∉ rootsOf spaces
  old : ∀ r ∈ rootsOf spaces, pm r = pm₀ r
  trapframe : child.trapframe ∉ kept₀
  stack : ∃ us perm, pm child.pagetable stackVpn = some (us, perm) ∧ (us = 0 ∨ us ∉ kept₀)
  readOnly : ReadOnly kept₀ (pm child.pagetable)
  ok : SpaceOk kept child

/-- The permissions of the heap pages of a child. -/
abbrev forkPerm : ℕ := protToType (PROT_READ ||| PROT_COW) 1

/-- The page number of a block of the heap. -/
def blockVpn (k : ℕ) : ℕ := USER_FREE_ADDRESS_START / PGSIZE + k

/-- The child maps those of the first `n` blocks of the heap that `do_fork` does not skip to the
frames of the parent. -/
def Copied (parent child : Space) (junk : ℕ → ℕ) (pm : ℕ → PageMap) (n : ℕ) : Prop :=
  ∀ k < n, freeBlockFilter parent junk k = 0 → pm child.pagetable (blockVpn k) =
    some ((pm parent.pagetable (blockVpn k)).elim 0 Prod.fst, forkPerm)

theorem Fixed.shared {roots : Set ℕ} {r v : ℕ} (h : Fixed lay roots pm) (hr : r ∈ roots)
    (hv : (pm r v).elim 0 Prod.fst = lay.trapSecStart) :
    lay.trapSecStart = 0 ∨ v = lay.trapSecStart / PGSIZE := by
  rcases hrv : pm r v with _ | ⟨f, perm⟩
  · rw [hrv] at hv
    exact .inl hv.symm
  · rw [hrv] at hv
    exact h r hr v perm (hv ▸ hrv)

namespace Forking

theorem root (_ : Forking lay m₀ kept₀ pm₀ spaces child pm kept m n) :
    child.pagetable ∈ insert child.pagetable (rootsOf spaces) :=
  Set.mem_insert _ _

/-- Writing to a page of the child. -/
theorem write {x : ℕ} (h : Forking lay m₀ kept₀ pm₀ spaces child pm kept m n) (hx : x ∈ kept)
    (hx₀ : x ∉ kept₀) (hm : Touches x m m') (hn : Touches x n n') :
    Forking lay m₀ kept₀ pm₀ spaces child pm kept m' n' :=
  { h with stage := h.stage.write hx hx₀ hm hn }

/-- A page that is taken for the child. -/
theorem take {q : ℕ} (h : Forking lay m₀ kept₀ pm₀ spaces child pm kept m n)
    (e : allocPage m = .ok (q, m')) :
    ∃ n', allocPage n = .ok (q, n') ∧
      Forking lay m₀ kept₀ pm₀ spaces child pm (insert q kept) m' n' ∧
      (q ≠ 0 → q ∉ kept ∧ ∀ r ∈ insert child.pagetable (rootsOf spaces), ∀ v perm,
        pm r v ≠ some (q, perm)) := by
  obtain ⟨n', e', hs, hq⟩ := h.stage.take e
  exact ⟨n', e', { h with stage := hs, ok := h.ok.mono (Set.subset_insert q kept) }, hq⟩

/-- An entry of the child that is written. -/
theorem entry {v : ℕ} (h : Forking lay m₀ kept₀ pm₀ spaces child pm kept m n)
    (hs : Stage m₀ kept₀ (insert child.pagetable (rootsOf spaces))
      (mapAt pm child.pagetable v (some (pa, perm))) kept m' n')
    (hfix : pa = lay.trapSecStart → lay.trapSecStart = 0 ∨ v = lay.trapSecStart / PGSIZE)
    (hro : Allows PTE_W perm → Allows PTE_R perm ∧ (pa ∈ kept₀ → pa = 0)) (hv : v ≠ stackVpn) :
    Forking lay m₀ kept₀ pm₀ spaces child (mapAt pm child.pagetable v (some (pa, perm)))
        kept m' n' := by
  obtain ⟨us, perm', hst, hus⟩ := h.stack
  refine { h with
    stage := hs
    fixed := h.fixed.mapAt fun _ he => hfix (Prod.mk.inj (Option.some.inj he)).1
    old := fun r hr => ?_
    stack := ⟨us, perm', ?_, hus⟩
    readOnly := h.readOnly.mapAt hro }
  · have hne : r ≠ child.pagetable := fun e => h.fresh (e ▸ hr)
    rw [mapAt_of_ne hne]
    exact h.old r hr
  · rw [mapAt_apply, if_neg fun e => hv e.2.symm, hst]

/-- A free entry of the child that is mapped. -/
theorem map {z : ℤ} (h : Forking lay m₀ kept₀ pm₀ spaces child pm kept m n)
    (hone : Spaces.OnePage va size)
    (hf : Spaces.Mappable (insert child.pagetable (rootsOf spaces)) pm kept va pa)
    (hfix : pa = lay.trapSecStart → lay.trapSecStart = 0 ∨ va / PGSIZE = lay.trapSecStart / PGSIZE)
    (hro : Allows PTE_W perm → Allows PTE_R perm ∧ (pa ∈ kept₀ → pa = 0)) (hperm : perm < 2 ^ 10)
    (hread : perm &&& (PTE_R ||| PTE_W) ≠ 0)
    (e : mapPages child.pagetable va size pa perm m = .ok (z, m')) :
    ∃ n', mapPages child.pagetable va size pa perm n = .ok (z, n') ∧
      pm child.pagetable (va / PGSIZE) = none ∧ SameOn kept m m' ∧
      Forking lay m₀ kept₀ pm₀ spaces child
        (mapAt pm child.pagetable (va / PGSIZE) (some (pa, perm))) kept m' n' := by
  obtain ⟨n', e', hnone, -, hs⟩ := h.stage.rebase.map h.root hone hf hperm hread e
  refine ⟨n', e', hnone, hs.same, h.entry (h.stage.after hs) hfix hro fun hv => ?_⟩
  obtain ⟨us, perm', hst, -⟩ := h.stack
  rw [hv, hst] at hnone
  cases hnone

/-- `lookup_pa` in the tables of a process that was there. -/
theorem shared (h : Forking lay m₀ kept₀ pm₀ spaces child pm kept m n) (hp : parent ∈ spaces)
    (va : ℕ) :
    (lookupPa parent.pagetable va m =
        .ok ((pm parent.pagetable (va / PGSIZE)).elim 0 Prod.fst, m) ∧
      lookupPa parent.pagetable va n =
        .ok ((pm parent.pagetable (va / PGSIZE)).elim 0 Prod.fst, n)) ∧
      Spaces.Mappable (insert child.pagetable (rootsOf spaces)) pm kept va
        ((pm parent.pagetable (va / PGSIZE)).elim 0 Prod.fst) ∧
      ((pm parent.pagetable (va / PGSIZE)).elim 0 Prod.fst = lay.trapSecStart →
        lay.trapSecStart = 0 ∨ va / PGSIZE = lay.trapSecStart / PGSIZE) := by
  have hr : parent.pagetable ∈ insert child.pagetable (rootsOf spaces) := .inr (mem_rootsOf hp)
  exact ⟨h.stage.lookup hr va, h.stage.mappable_shared hr va, h.fixed.shared hr⟩

/-! ## The heap -/

theorem block_dvd (k : ℕ) : PGSIZE ∣ USER_FREE_ADDRESS_START + PGSIZE * k :=
  Nat.dvd_add (by decide) (Nat.dvd_mul_right _ _)

theorem block_vpn (k : ℕ) : (USER_FREE_ADDRESS_START + PGSIZE * k) / PGSIZE = blockVpn k :=
  Nat.add_mul_div_left _ _ (by decide)

theorem blockVpn_ne_stackVpn {k : ℕ} (hk : k < MAX_HEAP_PAGES) : blockVpn k ≠ stackVpn := by
  simp only [blockVpn, stackVpn, USER_STACK_TOP, USER_FREE_ADDRESS_START, PGSIZE,
    MAX_HEAP_PAGES] at *
  omega

theorem heapIndex_block (hb : parent.heapBottom = USER_FREE_ADDRESS_START) {k : ℕ}
    (hk : k ≤ 2 ^ 26) : heapIndex parent (parent.heapBottom + PGSIZE * k) = k := by
  rw [heapIndex, hb]
  simp only [USER_FREE_ADDRESS_START, PGSIZE]
  omega

/-- **One block of the heap.** -/
theorem heapBlock {pte k : ℕ} {m₁ m₂ m₃ : Mach}
    (h : Forking lay m₀ kept₀ pm₀ spaces child pm kept m n)
    (hp : parent ∈ spaces) (hva : va = USER_FREE_ADDRESS_START + PGSIZE * k)
      (hk : k < MAX_HEAP_PAGES)
    (ew : pageWalk child.pagetable va true m = .ok (pte, m₁)) (ep : m₁.poke pte 0x100 = .ok m₂)
    (el : lookupPa parent.pagetable va m₂ = .ok (pa, m₃))
    (em : userVmMap child.pagetable va PGSIZE pa forkPerm m₃ = .ok m') :
    ∃ n₁ n₂ n', pageWalk child.pagetable va true n = .ok (pte, n₁) ∧ n₁.poke pte 0x100 = .ok n₂ ∧
      lookupPa parent.pagetable va n₂ = .ok (pa, n₂) ∧
      userVmMap child.pagetable va PGSIZE pa forkPerm n₂ = .ok n' ∧ SameOn kept m m' ∧
      Forking lay m₀ kept₀ pm₀ spaces child (mapAt pm child.pagetable (blockVpn k)
        (some ((pm parent.pagetable (blockVpn k)).elim 0 Prod.fst, forkPerm))) kept m' n' := by
  have hv : va / PGSIZE = blockVpn k := hva ▸ block_vpn k
  obtain ⟨h0, rfl⟩ := Mach.poke_ok ep
  obtain ⟨l, hl⟩ := h.stage.spaces
  obtain ⟨l', h₁, -, -, hpte, -⟩ := hl.walk h.root ew
  obtain ⟨n₁, fw, t₁⟩ := h.stage.twin.walk hl h.root ew
  obtain ⟨q, rfl, hq⟩ := hpte h0
  have hne : parent.pagetable ≠ child.pagetable := fun e => h.fresh (e ▸ mem_rootsOf hp)
  have hq' : nodeAt (Mm.entry n₁) child.pagetable [idx 2 va, idx 1 va] = some q :=
    (t₁.nodeAt_eq h₁ h.root (by simp)).trans hq
  have fl : lookupPa parent.pagetable va (n₁.store (q + 8 * px 0 va) 0x100) =
      .ok ((pm parent.pagetable (va / PGSIZE)).elim 0 Prod.fst,
        n₁.store (q + 8 * px 0 va) 0x100) :=
    (t₁.spaces h₁).lookup_store h.root (.inr (mem_rootsOf hp)) hne ⟨_, by simp, hq'⟩
  rw [h₁.lookup_store h.root (.inr (mem_rootsOf hp)) hne ⟨_, by simp, hq⟩] at el
  obtain ⟨rfl, rfl⟩ := Prod.mk.inj (Except.ok.inj el)
  obtain ⟨-, hmap, hfix⟩ := h.shared hp va
  obtain ⟨n₁', n', fw', -, fm, hs⟩ :=
    h.stage.rebase.remap h.root (.inr ⟨rfl, hva ▸ block_dvd k⟩) hmap
    (protToType_lt _ _) (by decide) ew h0 (Stage.userVmMap_ok em)
  obtain ⟨-, rfl⟩ := Prod.mk.inj (Except.ok.inj (fw.symm.trans fw'))
  have hperm : forkPerm ||| (if 0x100 = 0x100 then 0x100 else 0) = forkPerm := by decide
  rw [hperm] at hs
  refine ⟨n₁, _, n', fw, if_neg h0, fl, Stage.userVmMap_eq fm, hs.same, ?_⟩
  rw [← hv]
  exact h.entry (h.stage.after hs) hfix
    (fun hw => absurd hw (by decide)) (hv ▸ blockVpn_ne_stackVpn hk)

/-- **The loop over the heap.** -/
theorem heapLoop {c k : ℕ} (h : Forking lay m₀ kept₀ pm₀ spaces child pm kept m n)
    (hp : parent ∈ spaces)
    (hb : parent.heapBottom = USER_FREE_ADDRESS_START) (hk : k + c ≤ 2 ^ 26)
    (hc : Copied parent child junk pm k)
    (e : forkHeapLoop parent junk child.pagetable c (parent.heapBottom + PGSIZE * k) m = .ok m') :
    ∃ n' pm', forkHeapLoop parent junk child.pagetable c
      (parent.heapBottom + PGSIZE * k) n = .ok n' ∧
      Forking lay m₀ kept₀ pm₀ spaces child pm' kept m' n' ∧
      Copied parent child junk pm' (k + c) ∧ SameOn kept m m' ∧ (c ≠ 0 → k + c ≤ MAX_HEAP_PAGES) ∧
      ∀ v, (∀ j < k + c, freeBlockFilter parent junk j = 0 → v ≠ blockVpn j) →
        pm' child.pagetable v = pm child.pagetable v := by
  induction c generalizing k pm m n with
  | zero =>
    cases e
    exact ⟨n, pm, rfl, h, hc, .refl, nofun, fun _ _ => rfl⟩
  | succ c ih =>
    have hblock : parent.heapBottom + PGSIZE * k + PGSIZE =
        parent.heapBottom + PGSIZE * (k + 1) := by
      ring
    rw [forkHeapLoop, heapIndex_block hb (by omega), hblock] at e
    rw [forkHeapLoop, heapIndex_block hb (by omega), hblock]
    have hk' : k < MAX_HEAP_PAGES := by
      by_contra hge
      simp only [Nat.not_lt.1 hge, if_true, throw_eq_error, error_bind] at e
      cases e
    simp only [Nat.not_le.2 hk', if_false] at e ⊢
    -- the blocks before this one keep what they are mapped to
    have hnext : ∀ pm', (∀ j < k,
      pm' child.pagetable (blockVpn j) = pm child.pagetable (blockVpn j)) →
        pm' parent.pagetable = pm parent.pagetable → (freeBlockFilter parent junk k = 0 →
          pm' child.pagetable (blockVpn k) =
            some ((pm parent.pagetable (blockVpn k)).elim 0 Prod.fst, forkPerm)) →
        Copied parent child junk pm' (k + 1) := by
      intro pm' hbelow hpar hnew j hj hfilter
      rw [hpar]
      rcases Nat.lt_succ_iff_lt_or_eq.1 hj with hj | rfl
      · rw [hbelow j hj]
        exact hc j hj hfilter
      · exact hnew hfilter
    by_cases hfilter : freeBlockFilter parent junk k = 0
    · simp only [hfilter, ne_eq, not_true, if_false] at e ⊢
      obtain ⟨⟨pte, m₁⟩, e₁, e⟩ := (bind_ok_iff _ _ _).1 e
      obtain ⟨m₂, e₂, e⟩ := (bind_ok_iff _ _ _).1 e
      obtain ⟨⟨pa, m₃⟩, e₃, e⟩ := (bind_ok_iff _ _ _).1 e
      obtain ⟨m₄, e₄, e⟩ := (bind_ok_iff _ _ _).1 e
      rw [hb] at e₁ e₃ e₄
      obtain ⟨n₁, n₂, n₃, f₁, f₂, f₃, f₄, hs, h'⟩ := h.heapBlock hp rfl hk' e₁ e₂ e₃ e₄
      rw [← hb] at f₁ f₃ f₄
      simp only [f₁, f₂, f₃, f₄, ok_bind]
      have hne : parent.pagetable ≠ child.pagetable := fun e => h.fresh (e ▸ mem_rootsOf hp)
      have hc' := hnext _ (fun j hj => ?_) (mapAt_of_ne hne) (fun _ => mapAt_self _ _ _ _)
      · obtain ⟨n', pm', f, h'', hc'', hs', hmax, hrest⟩ := ih h' (by omega) hc' e
        rw [show k + (c + 1) = k + 1 + c by omega]
        refine ⟨n', pm', f, h'', hc'', hs.trans hs', fun _ => by omega, fun v hv => ?_⟩
        rw [hrest v hv, mapAt_apply, if_neg fun e => hv k (by omega) hfilter e.2]
      · rw [mapAt_apply, if_neg]
        rintro ⟨-, hj'⟩
        simp only [blockVpn] at hj'
        omega
    · simp only [hfilter, ne_eq, not_false_iff, if_true] at e ⊢
      have hc' := hnext pm (fun _ _ => rfl) rfl fun h0 => absurd h0 hfilter
      obtain ⟨n', pm', f, h'', hc'', hs, hmax, hrest⟩ := ih h (by omega) hc' e
      rw [show k + (c + 1) = k + 1 + c by omega]
      exact ⟨n', pm', f, h'', hc'', hs, fun _ => by omega, hrest⟩

/-! ## The regions -/

/-- Mapping free entries of the child keeps what it has of the heap. -/
theorem copied_mono {pm' : ℕ → PageMap} {kept' : Set ℕ} {c : ℕ}
    (h : Forking lay m₀ kept₀ pm₀ spaces child pm kept m n)
    (h' : Forking lay m₀ kept₀ pm₀ spaces child' pm' kept' m' n') (hp : parent ∈ spaces)
    (hpt : child'.pagetable = child.pagetable)
    (hkeep : ∀ v x, pm child.pagetable v = some x → pm' child.pagetable v = some x)
    (hc : Copied parent child junk pm c) : Copied parent child' junk pm' c := by
  intro k hk hfilter
  rw [hpt, h'.old _ (mem_rootsOf hp), ← h.old _ (mem_rootsOf hp)]
  exact hkeep _ _ (hc k hk hfilter)

/-- **One page of a data segment.** -/
theorem dataPage (h : Forking lay m₀ kept₀ pm₀ spaces child pm kept m n) (hp : parent ∈ spaces)
    (hva : PGSIZE ∣ va) (hsec : lay.trapSecStart ∈ kept₀)
    (e : forkDataLoop parent child.pagetable 1 va m = .ok m') :
    ∃ n' q, forkDataLoop parent child.pagetable 1 va n = .ok n' ∧ q ∉ kept ∧
      pm child.pagetable (va / PGSIZE) = none ∧ SameOn kept m m' ∧
      (∀ a < PGSIZE, m'.mem (q + a) =
        m.mem ((pm parent.pagetable (va / PGSIZE)).elim 0 Prod.fst + a)) ∧
      Forking lay m₀ kept₀ pm₀ spaces child (mapAt pm child.pagetable (va / PGSIZE)
        (some (q, protToType (PROT_WRITE ||| PROT_READ) 1))) (insert q kept) m' n' := by
  rw [forkDataLoop, (h.shared hp va).1.1, ok_bind] at e
  rw [forkDataLoop, (h.shared hp va).1.2, ok_bind]
  obtain ⟨⟨q, m₁⟩, e₁, e⟩ := (bind_ok_iff _ _ _).1 e
  obtain ⟨m₂, e₂, e⟩ := (bind_ok_iff _ _ _).1 e
  obtain ⟨⟨z, m₃⟩, e₃, e⟩ := (bind_ok_iff _ _ _).1 e
  cases e
  obtain ⟨n₁, f₁, h₁, hq⟩ := h.take e₁
  obtain ⟨n₁', -, hs₁, -⟩ := h.stage.rebase.take e₁
  obtain ⟨h0, hs, ht⟩ := Mach.memcpy_ok e₂ le_rfl
  obtain ⟨n₂, f₂, ht'⟩ := n₁.memcpy_eq h0 hs le_rfl
  obtain ⟨n₂', -, ht''⟩ := n₁'.memcpy_eq h0 hs le_rfl
  obtain ⟨hqk, hun⟩ := hq h0
  have hq₀ : q ∉ kept₀ := fun hm => hqk (h.stage.sub hm)
  have h₂ := h₁.write (Set.mem_insert q kept) hq₀ ht ht'
  have hs₂ := hs₁.write (Set.mem_insert q kept) hqk ht ht''
  obtain ⟨n₃, f₃, hnone, hs₃, h₃⟩ := h₂.map (.inr ⟨rfl, hva⟩)
    (Stage.mappable_fresh (Set.mem_insert q kept) (fun _ => hun) va)
    (fun e => absurd (e ▸ hsec) hq₀) (fun _ => ⟨by decide, fun hk => absurd hk hq₀⟩)
    (protToType_lt _ _) (by decide) e₃
  obtain ⟨l, hl⟩ := h.stage.spaces
  refine ⟨n₃, q, ?_, hqk, hnone, hs₂.same.trans (hs₃.mono (Set.subset_insert q kept)),
    fun a ha => ?_, h₃⟩
  · simp only [f₁, f₂, f₃, ok_bind, forkDataLoop, pure_eq_ok]
  · rw [hs₃.mem q (Set.mem_insert q kept) _ (by omega) (by omega), Mach.memcpy_mem e₂ ha]
    refine hs₁.same.mem _ ?_ _ (Nat.le_add_right _ _) (Nat.add_lt_add_left ha _)
    rcases hv : pm parent.pagetable (va / PGSIZE) with _ | ⟨f, perm⟩
    · exact hl.null
    · exact hl.framed _ (.inr (mem_rootsOf hp)) _ f perm hv

/-- Regions that the child registers. -/
theorem addRegions {gs : List Region} (h : Forking lay m₀ kept₀ pm₀ spaces child pm kept m n)
    (hgs : ∀ g ∈ gs, PGSIZE ∣ g.va ∧ (g.segType = .code ∨ g.segType = .data → g.npages = 1)) :
    Forking lay m₀ kept₀ pm₀ spaces { child with regions := child.regions ++ gs } pm kept m n := by
  refine { h with ok := { h.ok with aligned := ?_, single := ?_, heap := ?_ } }
  · intro g hg
    rcases List.mem_append.1 hg with hg | hg
    · exact h.ok.aligned g hg
    · exact (hgs g hg).1
  · intro g hg
    rcases List.mem_append.1 hg with hg | hg
    · exact h.ok.single g hg
    · exact (hgs g hg).2
  · obtain ⟨g, hg, ht⟩ := h.ok.heap
    exact ⟨g, List.mem_append_left _ hg, ht⟩

/-- The registered region of a code or data segment. -/
theorem addRegion {g : Region} (h : Forking lay m₀ kept₀ pm₀ spaces child pm kept m n)
    (hva : PGSIZE ∣ g.va) (hone : g.npages = 1) :
    Forking lay m₀ kept₀ pm₀ spaces { child with regions := child.regions ++ [g] } pm kept m n := by
  refine h.addRegions fun g' hg => ?_
  obtain rfl := List.mem_singleton.1 hg
  exact ⟨hva, fun _ => hone⟩

section Region

variable {g : Region}

/-- **The trapframe** is copied. -/
theorem contextRegion (h : Forking lay m₀ kept₀ pm₀ spaces child pm kept m n)
    (ht : g.segType = .context) (e : forkRegion parent junk g child m = .ok (child', m')) :
    ∃ n', forkRegion parent junk g child n = .ok (child, n') ∧ child' = child ∧
      Touches child.trapframe m m' ∧
      (∀ a < TRAPFRAME_SIZE, m'.mem (child.trapframe + a) = m.mem (parent.trapframe + a)) ∧
      Forking lay m₀ kept₀ pm₀ spaces child pm kept m' n' := by
  simp only [forkRegion, ht] at e ⊢
  obtain ⟨m₁, e₁, e⟩ := (bind_ok_iff _ _ _).1 e
  cases e
  obtain ⟨h0, hs, htouch⟩ := Mach.memcpy_ok e₁ (by decide)
  obtain ⟨n₁, f₁, htouch'⟩ := n.memcpy_eq (k := TRAPFRAME_SIZE) h0 hs (by decide)
  refine ⟨n₁, ?_, rfl, htouch, fun a ha => Mach.memcpy_mem e₁ ha,
    h.write h.ok.trapframe.1 h.trapframe htouch htouch'⟩
  simp only [f₁, ok_bind, pure_eq_ok]

/-- **The page of the stack** is copied. -/
theorem stackRegion (h : Forking lay m₀ kept₀ pm₀ spaces child pm kept m n) (hp : parent ∈ spaces)
    (ht : g.segType = .stack) (e : forkRegion parent junk g child m = .ok (child', m')) :
    ∃ n' us perm, forkRegion parent junk g child n = .ok (child, n') ∧ child' = child ∧
      pm child.pagetable stackVpn = some (us, perm) ∧ Touches us m m' ∧
      (∀ a < PGSIZE, m'.mem (us + a) =
        m.mem ((pm parent.pagetable (g.va / PGSIZE)).elim 0 Prod.fst + a)) ∧
      Forking lay m₀ kept₀ pm₀ spaces child pm kept m' n' := by
  obtain ⟨us, perm, hst, hus⟩ := h.stack
  obtain ⟨hlook, hlook'⟩ := h.stage.lookup h.root (USER_STACK_TOP - PGSIZE)
  rw [hst] at hlook hlook'
  simp only [forkRegion, ht, hlook, hlook', (h.shared hp g.va).1, Option.elim_some, ok_bind] at e ⊢
  obtain ⟨m₁, e₁, e⟩ := (bind_ok_iff _ _ _).1 e
  cases e
  obtain ⟨l, hl⟩ := h.stage.spaces
  have hk := hl.framed _ h.root _ us perm hst
  obtain ⟨h0, hs, htouch⟩ := Mach.memcpy_ok e₁ le_rfl
  obtain ⟨n₁, f₁, htouch'⟩ := n.memcpy_eq h0 hs le_rfl
  refine ⟨n₁, us, perm, ?_, rfl, hst, htouch, fun a ha => Mach.memcpy_mem e₁ ha,
    h.write hk (hus.resolve_left h0) htouch htouch'⟩
  simp only [f₁, ok_bind, pure_eq_ok]

/-- **The heap** is shared. -/
theorem heapRegion {kept₁ : Set ℕ} (h : Forking lay m₀ kept₀ pm₀ spaces child pm kept m n)
    (hp : parent ∈ spaces) (hok : SpaceOk kept₁ parent) (ht : g.segType = .heap)
    (e : forkRegion parent junk g child m = .ok (child', m')) :
    ∃ n' pm', forkRegion parent junk g child n = .ok (child', n') ∧
      child' = { child with
        heapTop := parent.heapTop, heapBottom := parent.heapBottom, freePages :=
          parent.freePages } ∧
      heapBlocks parent ≤ MAX_HEAP_PAGES ∧ SameOn kept m m' ∧
      Copied parent child' junk pm' (heapBlocks parent) ∧
      (∀ v, (∀ j < heapBlocks parent, freeBlockFilter parent junk j = 0 → v ≠ blockVpn j) →
        pm' child.pagetable v = pm child.pagetable v) ∧
      Forking lay m₀ kept₀ pm₀ spaces child' pm' kept m' n' := by
  simp only [forkRegion, ht] at e ⊢
  by_cases hfree : ∀ va ∈ parent.freePages, heapIndex parent va < MAX_HEAP_PAGES
  · rw [if_neg (not_not.2 hfree)] at e
    obtain ⟨m₁, e₁, e⟩ := (bind_ok_iff _ _ _).1 e
    cases e
    have hn : 0 + heapBlocks parent ≤ 2 ^ 26 := by
      have := hok.heapTop.2
      simp only [heapBlocks, PGSIZE, MAXVA] at *
      omega
    obtain ⟨n₁, pm', f₁, h', hc, hs, hmax, hrest⟩ :=
      h.heapLoop (k := 0) hp hok.heapBottom hn nofun e₁
    rw [Nat.zero_add] at hc hmax hrest
    refine ⟨n₁, pm', ?_, rfl, ?_, hs, hc, hrest, { h' with
      ok := { h'.ok with
        heapBottom := hok.heapBottom, heapTop := hok.heapTop, freePages := hok.freePages } }⟩
    · rw [Nat.mul_zero, Nat.add_zero] at f₁
      rw [if_neg (not_not.2 hfree), f₁, ok_bind, pure_eq_ok]
    · by_cases h0 : heapBlocks parent = 0
      · omega
      · exact hmax h0
  · rw [if_pos hfree] at e
    cases e

/-- **A code segment** is shared. -/
theorem codeRegion {kept₁ : Set ℕ} (h : Forking lay m₀ kept₀ pm₀ spaces child pm kept m n)
    (hp : parent ∈ spaces) (hok : SpaceOk kept₁ parent) (hg : g ∈ parent.regions)
    (ht : g.segType = .code) (e : forkRegion parent junk g child m = .ok (child', m')) :
    ∃ n', forkRegion parent junk g child n = .ok (child', n') ∧
      child' = { child with regions := child.regions ++ [g] } ∧
      pm child.pagetable (g.va / PGSIZE) = none ∧ SameOn kept m m' ∧
      Forking lay m₀ kept₀ pm₀ spaces child' (mapAt pm child.pagetable (g.va / PGSIZE)
        (some ((pm parent.pagetable (g.va / PGSIZE)).elim 0 Prod.fst,
          protToType (PROT_EXEC ||| PROT_READ) 1))) kept m' n' := by
  have hone := hok.single g hg (.inl ht)
  obtain ⟨hlook, hmap, hfix⟩ := h.shared hp g.va
  simp only [forkRegion, ht, hlook, hone, Nat.one_mul, ok_bind] at e ⊢
  obtain ⟨⟨z, m₁⟩, e₁, e⟩ := (bind_ok_iff _ _ _).1 e
  cases e
  obtain ⟨n₁, f₁, hnone, hs, h₁⟩ := h.map (.inr ⟨rfl, hok.aligned g hg⟩) hmap hfix
    (fun hw => absurd hw (by decide)) (protToType_lt _ _) (by decide) e₁
  refine ⟨n₁, ?_, rfl, hnone, hs, h₁.addRegion (hok.aligned g hg) hone⟩
  simp only [f₁, ok_bind, pure_eq_ok]

/-- **A data segment** is copied. -/
theorem dataRegion {kept₁ : Set ℕ} (h : Forking lay m₀ kept₀ pm₀ spaces child pm kept m n)
    (hp : parent ∈ spaces) (hok : SpaceOk kept₁ parent) (hg : g ∈ parent.regions)
    (hsec : lay.trapSecStart ∈ kept₀) (ht : g.segType = .data)
    (e : forkRegion parent junk g child m = .ok (child', m')) :
    ∃ n' q, forkRegion parent junk g child n = .ok (child', n') ∧
      child' = { child with regions := child.regions ++ [g] } ∧ q ∉ kept ∧
      pm child.pagetable (g.va / PGSIZE) = none ∧ SameOn kept m m' ∧
      (∀ a < PGSIZE, m'.mem (q + a) =
        m.mem ((pm parent.pagetable (g.va / PGSIZE)).elim 0 Prod.fst + a)) ∧
      Forking lay m₀ kept₀ pm₀ spaces child' (mapAt pm child.pagetable (g.va / PGSIZE)
        (some (q, protToType (PROT_WRITE ||| PROT_READ) 1))) (insert q kept) m' n' := by
  have hone := hok.single g hg (.inr ht)
  simp only [forkRegion, ht, hone] at e ⊢
  obtain ⟨m₁, e₁, e⟩ := (bind_ok_iff _ _ _).1 e
  cases e
  obtain ⟨n₁, q, f₁, hq, hnone, hs, hw, h₁⟩ := h.dataPage hp (hok.aligned g hg) hsec e₁
  refine ⟨n₁, q, ?_, rfl, hq, hnone, hs, hw, h₁.addRegion (hok.aligned g hg) hone⟩
  simp only [f₁, ok_bind, pure_eq_ok]

/-- **One region.** -/
theorem region {kept₁ : Set ℕ} (h : Forking lay m₀ kept₀ pm₀ spaces child pm kept m n)
    (hp : parent ∈ spaces) (hok : SpaceOk kept₁ parent) (hg : g ∈ parent.regions)
    (hsec : lay.trapSecStart ∈ kept₀) (e : forkRegion parent junk g child m = .ok (child', m')) :
    ∃ n' pm' kept', forkRegion parent junk g child n = .ok (child', n') ∧
      Forking lay m₀ kept₀ pm₀ spaces child' pm' kept' m' n' ∧
      (g.segType = .heap ∨ Copied parent child junk pm (heapBlocks parent) →
        Copied parent child' junk pm' (heapBlocks parent)) := by
  rcases ht : g.segType with _ | _ | _ | _ | _ | _
  · -- the stack
    obtain ⟨n', us, perm, f, rfl, -, -, -, h'⟩ := h.stackRegion hp ht e
    exact ⟨n', pm, kept, f, h', fun hc => hc.resolve_left nofun⟩
  · -- the trapframe
    obtain ⟨n', f, rfl, -, -, h'⟩ := h.contextRegion ht e
    exact ⟨n', pm, kept, f, h', fun hc => hc.resolve_left nofun⟩
  · -- the trap vector
    simp only [forkRegion, ht] at e ⊢
    cases e
    exact ⟨n, pm, kept, rfl, h, fun hc => hc.resolve_left nofun⟩
  · -- the heap
    obtain ⟨n', pm', f, -, -, -, hc, -, h'⟩ := h.heapRegion hp hok ht e
    exact ⟨n', pm', kept, f, h', fun _ => hc⟩
  · -- the code
    obtain ⟨n', f, rfl, hnone, -, h'⟩ := h.codeRegion hp hok hg ht e
    exact ⟨n', _, kept, f, h', fun hc =>
      h.copied_mono h' hp rfl (fun v x hx => mapAt_keep hnone hx) (hc.resolve_left nofun)⟩
  · -- the data
    obtain ⟨n', q, f, rfl, -, hnone, -, -, h'⟩ := h.dataRegion hp hok hg hsec ht e
    exact ⟨n', _, _, f, h', fun hc =>
      h.copied_mono h' hp rfl (fun v x hx => mapAt_keep hnone hx) (hc.resolve_left nofun)⟩

end Region

/-- **The loop over the regions.** -/
theorem loop {gs : List Region} {kept₁ : Set ℕ}
    (h : Forking lay m₀ kept₀ pm₀ spaces child pm kept m n)
    (hp : parent ∈ spaces) (hok : SpaceOk kept₁ parent) (hgs : ∀ g ∈ gs, g ∈ parent.regions)
    (hsec : lay.trapSecStart ∈ kept₀) (e : forkLoop parent junk gs child m = .ok (child', m')) :
    ∃ n' pm' kept', forkLoop parent junk gs child n = .ok (child', n') ∧
      Forking lay m₀ kept₀ pm₀ spaces child' pm' kept' m' n' ∧
      ((∃ g ∈ gs, g.segType = .heap) ∨ Copied parent child junk pm (heapBlocks parent) →
        Copied parent child' junk pm' (heapBlocks parent)) := by
  induction gs generalizing child pm kept m n with
  | nil =>
    cases e
    exact ⟨n, pm, kept, rfl, h, fun hc => hc.resolve_left fun ⟨g, hg, _⟩ =>
      absurd hg List.not_mem_nil⟩
  | cons g gs ih =>
    rw [forkLoop] at e
    obtain ⟨⟨child₁, m₁⟩, e₁, e⟩ := (bind_ok_iff _ _ _).1 e
    obtain ⟨n₁, pm₁, kept', f₁, h₁, hc₁⟩ := h.region hp hok (hgs g List.mem_cons_self) hsec e₁
    obtain ⟨n', pm', kept', f, h', hc'⟩ :=
      ih h₁ (fun g' hg' => hgs g' (List.mem_cons_of_mem g hg')) e
    refine ⟨n', pm', kept', ?_, h', fun hc => hc' ?_⟩
    · simp only [forkLoop, f₁, f, ok_bind]
    rcases hc with ⟨g', hg', ht⟩ | hc
    · rcases List.mem_cons.1 hg' with rfl | hg'
      · exact .inr (hc₁ (.inl ht))
      · exact .inl ⟨g', hg', ht⟩
    · exact .inr (hc₁ (.inr hc))

/-- **The pages of a program.** -/
theorem loadPages {prog : List ProgPage} (h : Forking lay m₀ kept₀ pm₀ spaces child pm kept m n)
    (hsec : lay.trapSecStart ∈ kept₀) (e : loadPages prog child m = .ok (child', m')) :
    ∃ n' pm' kept', loadPages prog child n = .ok (child', n') ∧
      Forking lay m₀ kept₀ pm₀ spaces child' pm' kept' m' n' := by
  induction prog generalizing child pm kept m n with
  | nil =>
    cases e
    exact ⟨n, pm, kept, rfl, h⟩
  | cons page prog ih =>
    rw [Mm.loadPages] at e
    obtain ⟨⟨q, m₁⟩, e₁, e⟩ := (bind_ok_iff _ _ _).1 e
    by_cases h0 : q = 0
    · simp only [h0, if_true, throw_eq_error, error_bind] at e
      cases e
    simp only [h0, if_false] at e
    obtain ⟨m₂, e₂, e⟩ := (bind_ok_iff _ _ _).1 e
    by_cases ht : page.segType ≠ none ∧ page.segType ≠ some .code ∧ page.segType ≠ some .data
    · rw [if_pos ht] at e
      cases e
    rw [if_neg ht] at e
    obtain ⟨n₁, f₁, h₁, hq⟩ := h.take e₁
    have hq₀ : q ∉ kept₀ := fun hm => (hq h0).1 (h.stage.sub hm)
    obtain ⟨n₂, f₂, -, -, h₂⟩ := h₁.map (.inr ⟨rfl, Nat.dvd_mul_right _ _⟩)
      (Stage.mappable_fresh (Set.mem_insert q kept) (fun h0 => (hq h0).2) _)
      (fun e => absurd (e ▸ hsec) hq₀) (fun _ => ⟨by decide, fun hk => absurd hk hq₀⟩)
      (protToType_lt _ _) (by decide) (Stage.userVmMap_ok e₂)
    have htouch : ∀ m : Mach, Touches q m { m with mem := fun a =>
        if q ≤ a ∧ a < q + PGSIZE then page.contents (a - q) else m.mem a } := fun m =>
      ⟨fun a ha => if_neg ha, rfl, rfl, rfl, rfl⟩
    have h₃ := h₂.write (Set.mem_insert q kept) hq₀ (htouch m₂) (htouch n₂)
    have hregions : ∀ g ∈ page.segType.elim ([] : List Region) fun t => [⟨PGSIZE * page.vpn, 1, t⟩],
        PGSIZE ∣ g.va ∧ (g.segType = .code ∨ g.segType = .data → g.npages = 1) := by
      intro g hg
      cases hs : page.segType with
      | none =>
        rw [hs] at hg
        exact absurd hg List.not_mem_nil
      | some t =>
        rw [hs] at hg
        obtain rfl := List.mem_singleton.1 hg
        exact ⟨Nat.dvd_mul_right _ _, fun _ => rfl⟩
    obtain ⟨n', pm', kept', f, h'⟩ := ih (h₃.addRegions hregions) e
    refine ⟨n', pm', kept', ?_, h'⟩
    simp only [Mm.loadPages, f₁, ok_bind, h0, if_false, Stage.userVmMap_eq f₂, ht]
    exact f

/-- The invariant of all processes, once the child is one of them. -/
theorem sysInv (h : Forking lay m₀ kept₀ pm₀ spaces child pm kept m n)
    (h₀ : SysInv lay m₀ spaces pm₀ kept₀) : SysInv lay m (spaces ++ [child]) pm kept where
  tables := rootsOf_concat spaces child ▸ h.stage.spaces
  distinct := by
    rw [List.map_append, List.map_singleton, ← List.concat_eq_append]
    exact h₀.distinct.concat h.fresh
  space p hp := by
    rcases List.mem_append.1 hp with hp | hp
    · exact (h₀.space p hp).mono h.stage.sub
    · exact List.mem_singleton.1 hp ▸ h.ok
  fixed := rootsOf_concat spaces child ▸ h.fixed
  trapSec := h.stage.sub h₀.trapSec
  low := h.stage.same.start ▸ h₀.low

end Forking

/-- A new process. -/
theorem SysInv.allocProcess (h : SysInv lay m spaces pm kept) (t : Twin kept m n)
    (e : allocProcess lay m = .ok (child, m')) :
    ∃ n' pm' kept', allocProcess lay n = .ok (child, n') ∧
      Forking lay m kept pm spaces child pm' kept' m' n' ∧ ∃ us, OnlyStack pm' child us := by
  obtain ⟨n', pm', kept', f, hs, hf, hst, -⟩ := (h.stage t).allocProcess h.fixed h.trapSec e
  refine ⟨n', pm', kept', f, ⟨hs, hf.fixed, hf.pagetable, hf.old, hf.trapframe.2.1, hf.stack,
    hf.readOnly, ?_⟩, hst⟩
  obtain ⟨l, hl⟩ := hs.spaces
  refine
    { trapframe := ⟨hf.trapframe.1, hf.trapframe.2.2⟩
      heapBottom := hf.heapBottom
      heapTop := ?_
      freePages := ?_
      aligned := ?_
      single := ?_
      heap := ?_ }
  · rw [hf.heapTop]
    exact ⟨by decide, by decide⟩
  · rw [hf.freePages]
    exact fun va hva => absurd hva List.not_mem_nil
  · rw [hf.regions]
    simp only [List.forall_mem_cons, List.not_mem_nil, false_implies, implies_true, and_true]
    exact ⟨by decide, (hl.keptPage _ hf.trapframe.1).1, lay.aligned, by decide⟩
  · rw [hf.regions]
    simp
  · rw [hf.regions]
    exact ⟨_, .tail _ (.tail _ (.tail _ (.head _))), rfl⟩

/-- **`do_fork`** makes a child that maps the heap of the parent and leaves the pages in use as they
are. -/
theorem SysInv.doFork (h : SysInv lay m spaces pm kept) (t : Twin kept m n) (hp : parent ∈ spaces)
    (e : doFork lay junk parent m = .ok (child, m')) :
    ∃ n' pm' kept', Mm.doFork lay junk parent n = .ok (child, n') ∧ Twin kept' m' n' ∧
      SysInv lay m' (spaces ++ [child]) pm' kept' ∧ SameOn kept m m' ∧
      (∀ p ∈ spaces, pm' p.pagetable = pm p.pagetable) ∧ ReadOnly kept (pm' child.pagetable) ∧
      Copied parent child junk pm' (heapBlocks parent) := by
  rw [Mm.doFork] at e
  obtain ⟨⟨child₁, m₁⟩, e₁, e⟩ := (bind_ok_iff _ _ _).1 e
  obtain ⟨⟨child₂, m₂⟩, e₂, e⟩ := (bind_ok_iff _ _ _).1 e
  cases e
  obtain ⟨n₁, pm₁, kept₁, f₁, h₁, -⟩ := h.allocProcess t e₁
  have hok := h.space parent hp
  obtain ⟨n₂, pm₂, kept₂, f₂, h₂, hc⟩ := h₁.loop hp hok (fun _ hg => hg) h.trapSec e₂
  have htouch : ∀ m : Mach, Touches child.trapframe m (m.store (child.trapframe + 72) 0) := fun m =>
    Mach.store_touches (by omega) (by simp only [PGSIZE]; omega)
  have h₃ := h₂.write h₂.ok.trapframe.1 h₂.trapframe (htouch m₂) (htouch n₂)
  refine ⟨_, pm₂, kept₂, ?_, h₃.stage.twin, h₃.sysInv h, h₃.stage.same,
    fun p hp => h₃.old _ (mem_rootsOf hp), h₃.readOnly, hc (.inl hok.heap)⟩
  simp only [Mm.doFork, f₁, f₂, ok_bind, pure_eq_ok]

end HustOS.Mm
