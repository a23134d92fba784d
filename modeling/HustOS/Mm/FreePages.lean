import HustOS.Mm.Fork

/-!
# The free pages are nobody's

Over the runs of any number of processes, from boot on: the pages on the free list are aligned and
apart, and none of them is mapped by a process, a trapframe or a page table (`FreeApart`). The
frames of a heap are shared after a fork and not counted, and the address given to
`sys_user_free_page` is not checked, so this is lost as soon as a process releases an address that
is not aligned, or a frame that is a trapframe or mapped elsewhere (`FreeOk`); it holds in all runs
without such a call (`freeApart_of_run`).
-/

namespace HustOS.Mm

open Foundations

variable {lay : Layout} {m m' : Mach} {kept : Set ℕ} {pm : ℕ → PageMap} {l : List ℕ}
  {spaces : List Space} {p p' : Space} {r va f i : ℕ} {s s' : Sys}

/-! ## The property -/

/-- A valid entry of the last level of the tables of the process `i` maps the page of `va` to the
frame `f`. -/
def Sys.Maps (s : Sys) (i va f : ℕ) : Prop :=
  ∃ p w, s.spaces[i]? = some p ∧ va < MAXVA ∧ pteOf p.pagetable va s.mach = some w ∧
    w &&& PTE_V ≠ 0 ∧ pte2pa w = f

/-- The page `q` is nobody's: not mapped, not a trapframe, not a table. -/
structure Sys.Nobodys (s : Sys) (q : ℕ) : Prop where
  unmapped : ∀ i va, ¬ s.Maps i va q
  trapframe : ∀ p ∈ s.spaces, p.trapframe ≠ q
  table : ∀ p ∈ s.spaces, ¬ IsTable p.pagetable s.mach q

/-- The free list is a list of aligned pages, each of them once and nobody's. -/
def FreeApart (s : Sys) : Prop :=
  ∃ l, Chain 0 s.mach.mem s.mach.gFreeMemList l ∧ l.Nodup ∧
    ∀ q ∈ l, PGSIZE ∣ q ∧ s.Nobodys q

/-- The address `va` that the process `i` releases is aligned, and its frame is neither a trapframe
nor mapped at another page or by another process. -/
def FreeOk (s : Sys) (i va : ℕ) : Prop :=
  PGSIZE ∣ va ∧ ∀ f, s.Maps i va f → (∀ p ∈ s.spaces, p.trapframe ≠ f) ∧
    ∀ j va', s.Maps j va' f → j = i ∧ va' / PGSIZE = va / PGSIZE

/-- The condition on an event. -/
def EventOk (s : Sys) : Event → Prop
  | .free i va => FreeOk s i va
  | _ => True

/-- The valid entries are the map. -/
theorem PtInv.pteOf_iff {map : PageMap} (h : PtInv r m map) (hva : va < MAXVA) :
    (∃ w, pteOf r va m = some w ∧ w &&& PTE_V ≠ 0 ∧ pte2pa w = f) ↔
      ∃ perm, map (va / PGSIZE) = some (f, perm) := by
  rw [pteOf]
  cases hq : nodeAt (entry m) r [idx 2 va, idx 1 va] with
  | none =>
    have hv := h.absent _ _ (idx 0 va) hq
    rw [vpn_idx hva] at hv
    simp [hv]
  | some q =>
    have hw := h.leafWord hva hq
    have hvalid := hw.valid_iff fun _ _ => h.frameOk
    simp only [Option.map_some, Option.some.injEq, exists_eq_left']
    rcases hv : map (va / PGSIZE) with _ | ⟨g, perm⟩
    · simp [hvalid.2 hv]
    · rw [hv] at hw hvalid
      have hf := h.frameOk hv
      have hpa : pte2pa (m.mem (q + 8 * px 0 va)) = g := by
        rw [hw]
        exact pte2pa_mkPte hf.lt hf.aligned (Nat.or_lt_two_pow hf.perm_lt (by decide))
      rw [hpa, ne_eq, hvalid]
      simp

theorem SysInv.maps_iff (h : SysInv lay s.mach s.spaces pm kept) (hi : s.spaces[i]? = some p) :
    s.Maps i va f ↔ ∃ perm, pm p.pagetable (va / PGSIZE) = some (f, perm) := by
  obtain ⟨l, hl⟩ := h.tables
  have hinv := hl.table _ (SysInv.root_mem hi)
  constructor
  · rintro ⟨p', w, hp', hva, hw⟩
    obtain rfl := Option.some.inj (hi.symm.trans hp')
    exact (hinv.pteOf_iff hva).1 ⟨w, hw⟩
  · rintro ⟨perm, hv⟩
    have hva : va < MAXVA := by
      by_contra hge
      rw [hinv.bound _ (by simp only [MAXVA, PGSIZE] at *; omega)] at hv
      cases hv
    obtain ⟨w, hw⟩ := (hinv.pteOf_iff hva).2 ⟨perm, hv⟩
    exact ⟨p, w, hi, hva, hw⟩

theorem SysInv.freeApart (h : SysInv lay s.mach s.spaces pm kept) : FreeApart s := by
  obtain ⟨l, hl⟩ := h.tables
  refine ⟨l, hl.chain, hl.nodup, fun q hq => ⟨(hl.page q hq).1, fun i va hm => ?_, fun p hp e => ?_,
    fun p hp => hl.tablePool _ (mem_rootsOf hp) q hq⟩⟩
  · obtain ⟨p, w, hi, -⟩ := id hm
    obtain ⟨perm, hv⟩ := (h.maps_iff hi).1 hm
    exact hl.keptPool q (hl.framed _ (SysInv.root_mem hi) _ q perm hv) hq
  · exact hl.keptPool q (e ▸ (h.space p hp).trapframe.1) hq

/-! ## Boot -/

theorem createLoop_globals {fuel p stop : ℕ} (e : createLoop fuel p stop m = .ok m') :
    m'.freeMemStartAddr = m.freeMemStartAddr ∧ m'.freeMemEndAddr = m.freeMemEndAddr ∧
      m'.count5 = m.count5 := by
  induction fuel generalizing p m with
  | zero => cases e
  | succ fuel ih =>
    rw [createLoop] at e
    split at e
    · obtain ⟨m₁, e₁, e⟩ := (bind_ok_iff _ _ _).1 e
      rw [freePage] at e₁
      split at e₁
      · cases e₁
      · cases e₁
        have hglobals := ih e
        exact hglobals
    · cases e
      exact ⟨rfl, rfl, rfl⟩

/-- What `pmm_init` leaves in the globals. -/
theorem pmmInit_globals {gKernelEnd gMemSize : ℕ} {mem : ℕ → ℕ}
    (e : pmmInit gKernelEnd gMemSize mem = .ok m) :
    m.freeMemStartAddr = roundUp gKernelEnd PGSIZE ∧ m.freeMemEndAddr < 2 ^ 56 ∧ m.count5 = 1 := by
  rw [pmmInit] at e
  split at e
  · cases e
  obtain ⟨h₁, h₂, h₃⟩ := createLoop_globals e
  refine ⟨h₁, ?_, h₃⟩
  rw [h₂]
  simp only [PKE_MAX_ALLOWABLE_RAM, DRAM_BASE]
  omega

/-- **Boot.** -/
theorem SysInv.boot {gMemSize : ℕ} {mem : ℕ → ℕ}
    (e : pmmInit lay.gKernelEnd gMemSize mem = .ok m) :
    SysInv lay m [] (fun _ _ => none) {0, lay.trapSecStart} := by
  obtain ⟨all, l, h⟩ := pmmInit_spec e
  obtain ⟨hstart, hend, hlock⟩ := pmmInit_globals e
  have hin := lay.inside
  have hle := lay.gKernelEnd_le
  have hlow : lay.trapSecStart < m.freeMemStartAddr ∧ PGSIZE ≤ m.freeMemStartAddr := by
    rw [hstart]
    simp only [roundUp, PGSIZE]
    omega
  have hrange : ∀ q ∈ l, m.freeMemStartAddr ≤ q ∧ q < 2 ^ 56 := fun q hq =>
    ⟨(h.range q (h.mem_all hq)).1, (h.range q (h.mem_all hq)).2.trans hend⟩
  have hroots : ∀ r, r ∉ rootsOf [] := fun r => List.not_mem_nil
  refine ⟨⟨l, ?_⟩, List.nodup_nil, fun p hp => absurd hp List.not_mem_nil,
    fun r hr => absurd hr (hroots r), .inr rfl, hlow⟩
  exact
    { chain := h.chain
      nodup := h.nodup
      unlocked := hlock
      page := fun q hq => ⟨h.aligned q (h.mem_all hq), (hrange q hq).2⟩
      table := fun r hr => absurd hr (hroots r)
      apart := fun r hr => absurd hr (hroots r)
      tablePool := fun r hr => absurd hr (hroots r)
      keptPage := by
        rintro x (rfl | rfl)
        · exact ⟨Nat.dvd_zero _, by decide⟩
        · exact ⟨lay.aligned, by omega⟩
      keptTable := fun r hr => absurd hr (hroots r)
      keptPool := by
        rintro x (rfl | rfl) hx
        · have := (hrange _ hx).1
          omega
        · have := (hrange _ hx).1
          omega
      framed := fun r hr => absurd hr (hroots r)
      home := fun r hr => absurd hr (hroots r)
      null := .inl rfl }

/-! ## Runs -/

theorem Sys.space_ok (e : s.space i = .ok p) : s.spaces[i]? = some p := by
  rw [Sys.space] at e
  split at e
  · rename_i q hq
    cases e
    exact hq
  · cases e

theorem Sys.space_twin {n : Mach} (e : s.space i = .ok p) : Sys.space ⟨n, s.spaces⟩ i = .ok p :=
  e

/-- **A step keeps the invariant**, if a page that it releases may be released; and it does the same
in a twin. -/
theorem SysInv.exec {ev : Event} {n : Mach} (h : SysInv lay s.mach s.spaces pm kept)
    (t : Twin kept s.mach n) (hc : EventOk s ev) (e : exec lay ev s = .ok s') :
    ∃ n' pm' kept', Mm.exec lay ev ⟨n, s.spaces⟩ = .ok ⟨n', s'.spaces⟩ ∧ Twin kept' s'.mach n' ∧
      SysInv lay s'.mach s'.spaces pm' kept' := by
  cases ev with
  | allocate i =>
    rw [Mm.exec] at e
    obtain ⟨p, ep, e⟩ := (bind_ok_iff _ _ _).1 e
    obtain ⟨⟨va, p', m'⟩, e₁, e⟩ := (bind_ok_iff _ _ _).1 e
    cases e
    obtain ⟨n', f₁, t', h', -⟩ := h.allocate t (Sys.space_ok ep) e₁
    refine ⟨n', _, _, ?_, t', h'⟩
    simp only [Mm.exec, Sys.space_twin ep, f₁, ok_bind, pure_eq_ok]
  | free i va =>
    rw [Mm.exec] at e
    obtain ⟨p, ep, e⟩ := (bind_ok_iff _ _ _).1 e
    obtain ⟨⟨p', m'⟩, e₁, e⟩ := (bind_ok_iff _ _ _).1 e
    cases e
    have hi := Sys.space_ok ep
    obtain ⟨f, perm, hv⟩ := h.free_mapped hi e₁
    obtain ⟨hva, hok⟩ := hc
    obtain ⟨htf, hother⟩ := hok f ((h.maps_iff hi).2 ⟨perm, hv⟩)
    have hother' : ∀ r ∈ rootsOf s.spaces, ∀ v perm', pm r v = some (f, perm') →
        r = p.pagetable ∧ v = va / PGSIZE := by
      intro r hr v perm' hv'
      obtain ⟨q, hq, rfl⟩ := List.mem_map.1 hr
      obtain ⟨j, hj⟩ := List.getElem?_of_mem hq
      have hm : s.Maps j (PGSIZE * v) f :=
        (h.maps_iff hj).2 ⟨perm', by rw [Nat.mul_div_cancel_left _ (by decide)]; exact hv'⟩
      obtain ⟨rfl, hv''⟩ := hother j _ hm
      rw [Nat.mul_div_cancel_left _ (by decide)] at hv''
      obtain rfl := Option.some.inj (hi.symm.trans hj)
      exact ⟨rfl, hv''⟩
    obtain ⟨n', f₁, t', h'⟩ := h.free t hi hva hv htf hother' e₁
    refine ⟨n', _, _, ?_, t', h'⟩
    simp only [Mm.exec, Sys.space_twin ep, f₁, ok_bind, pure_eq_ok]
  | fork i junk =>
    rw [Mm.exec] at e
    obtain ⟨p, ep, e⟩ := (bind_ok_iff _ _ _).1 e
    by_cases hn : NPROC ≤ s.spaces.length
    · rw [if_pos hn] at e
      cases e
    rw [if_neg hn] at e
    obtain ⟨⟨child, m'⟩, e₁, e⟩ := (bind_ok_iff _ _ _).1 e
    cases e
    obtain ⟨n', pm', kept', f₁, t', h', -⟩ :=
      h.doFork t (List.mem_of_getElem? (Sys.space_ok ep)) e₁
    refine ⟨n', pm', kept', ?_, t', h'⟩
    simp only [Mm.exec, Sys.space_twin ep, hn, if_false, f₁, ok_bind, pure_eq_ok]
  | store i va sp b =>
    rw [Mm.exec] at e
    obtain ⟨p, ep, e⟩ := (bind_ok_iff _ _ _).1 e
    obtain ⟨m', e₁, e⟩ := (bind_ok_iff _ _ _).1 e
    cases e
    obtain ⟨n', pm', kept', f₁, t', h'⟩ :=
      h.userStore_twin t (List.mem_of_getElem? (Sys.space_ok ep)) e₁ b
    refine ⟨n', pm', kept', ?_, t', h'⟩
    simp only [Mm.exec, Sys.space_twin ep, f₁, ok_bind, pure_eq_ok]

/-- **Loading a program keeps the invariant**, and does the same in a twin. -/
theorem SysInv.load {prog : List ProgPage} {n : Mach} (h : SysInv lay s.mach s.spaces pm kept)
    (t : Twin kept s.mach n) (e : loadUserProgram lay prog s = .ok s') :
    ∃ n' pm' kept', loadUserProgram lay prog ⟨n, s.spaces⟩ = .ok ⟨n', s'.spaces⟩ ∧
      Twin kept' s'.mach n' ∧ SysInv lay s'.mach s'.spaces pm' kept' ∧ kept ⊆ kept' := by
  rw [loadUserProgram] at e
  by_cases hn : NPROC ≤ s.spaces.length
  · rw [if_pos hn] at e
    cases e
  rw [if_neg hn] at e
  obtain ⟨⟨p, m₁⟩, e₁, e⟩ := (bind_ok_iff _ _ _).1 e
  obtain ⟨⟨p', m₂⟩, e₂, e⟩ := (bind_ok_iff _ _ _).1 e
  cases e
  obtain ⟨n₁, pm₁, kept₁, f₁, h₁, -⟩ := h.allocProcess t e₁
  obtain ⟨n₂, pm₂, kept₂, f₂, h₂⟩ := h₁.loadPages h.trapSec e₂
  refine ⟨n₂, pm₂, kept₂, ?_, h₂.stage.twin, h₂.sysInv h, h₂.stage.sub⟩
  simp only [loadUserProgram, hn, if_false, f₁, f₂, ok_bind, pure_eq_ok]

/-- **The invariant along a run.** -/
theorem Run.inv {C : Sys → Event → Prop} (run : Run lay C s) (hC : ∀ s e, C s e → EventOk s e) :
    ∃ pm kept, SysInv lay s.mach s.spaces pm kept := by
  induction run with
  | boot init => exact ⟨_, _, SysInv.boot init⟩
  | take _ alloc ih =>
    obtain ⟨pm, kept, h⟩ := ih
    obtain ⟨n', -, h', -⟩ := (h.stage .refl).take alloc
    exact ⟨_, _, h.of_stage h' h.fixed⟩
  | load _ load ih =>
    obtain ⟨pm, kept, h⟩ := ih
    obtain ⟨-, pm', kept', -, -, h', -⟩ := h.load .refl load
    exact ⟨pm', kept', h'⟩
  | step _ cond e ih =>
    obtain ⟨pm, kept, h⟩ := ih
    obtain ⟨-, pm', kept', -, -, h'⟩ := h.exec .refl (hC _ _ cond) e
    exact ⟨pm', kept', h'⟩

theorem SysInv.index_inj {j : ℕ} (h : SysInv lay m spaces pm kept) (hi : spaces[i]? = some p)
    (hj : spaces[j]? = some p') (e : p'.pagetable = p.pagetable) : i = j := by
  obtain ⟨hlt, -⟩ := List.getElem?_eq_some_iff.1 hi
  refine (List.getElem?_inj (by rwa [List.length_map]) h.distinct).1 ?_
  rw [List.getElem?_map, List.getElem?_map, hi, hj, Option.map_some, Option.map_some, e]

/-- An entry other than the one that `user_vm_unmap` clears still maps its frame. -/
theorem SysInv.maps_of_unmap {j va' f' perm perm' : ℕ} (h : SysInv lay m spaces pm kept)
    (hi : spaces[i]? = some p) (hva : PGSIZE ∣ va)
      (hv : pm p.pagetable (va / PGSIZE) = some (f, perm))
    (e : userVmUnmap p.pagetable va PGSIZE 1 m = .ok m') (hj : spaces[j]? = some p')
    (hva' : va' < MAXVA) (hv' : pm p'.pagetable (va' / PGSIZE) = some (f', perm'))
    (hne : ¬ (j = i ∧ va' / PGSIZE = va / PGSIZE)) :
    ∃ w, pteOf p'.pagetable va' m' = some w ∧ w &&& PTE_V ≠ 0 ∧ pte2pa w = f' := by
  obtain ⟨l, hl⟩ := h.tables
  have hr := SysInv.root_mem hi
  have hr' := SysInv.root_mem hj
  by_cases hij : i = j
  · subst hij
    obtain rfl := Option.some.inj (hi.symm.trans hj)
    refine (((hl.table _ hr).userVmUnmap hva (by rw [hv]; exact nofun) e).pteOf_iff hva').2
      ⟨perm', ?_⟩
    rw [Function.update_of_ne fun e => hne ⟨rfl, e⟩, hv']
  · obtain ⟨q, hq, -, -, rfl⟩ := (hl.table _ hr).unmap_ok hv e
    rw [Nat.mod_eq_zero_of_dvd hva, Nat.add_zero]
    have hqt : IsTable p.pagetable m q := ⟨_, by simp, hq⟩
    have hfk := hl.framed _ hr _ f perm hv
    refine (((hl.table _ hr').congr fun x hx k => ?_).pteOf_iff hva').2 ⟨perm', hv'⟩
    have hxp := ((hl.table _ hr').page x hx).1
    have hpte : x + 8 * k.1 ≠ q + 8 * px 0 va := by
      intro e
      obtain ⟨rfl, -⟩ := slot_inj hxp ((hl.table _ hr).page q hqt).1 k.2 (px_lt 0 va) e
      exact hij (h.index_inj hi hj (hl.apart _ hr' _ hr x hx hqt))
    have hf : x + 8 * k.1 ≠ f := by
      intro e
      obtain ⟨rfl, -⟩ := slot_inj (b := 0) hxp (hl.keptPage f hfk).1 k.2 (by omega) (by omega)
      exact hl.keptTable _ hr' x hfk hx
    exact (Mach.store_of_ne _ _ hpte).trans (Mach.store_of_ne _ _ hf)

/-- A release after which the free pages are nobody's was one of a page that may be released. -/
theorem SysInv.freeOk_of_freeApart (h : SysInv lay s.mach s.spaces pm kept)
    (e : Mm.exec lay (.free i va) s = .ok s') (ha : FreeApart s') : FreeOk s i va := by
  rw [Mm.exec] at e
  obtain ⟨p, ep, e⟩ := (bind_ok_iff _ _ _).1 e
  obtain ⟨⟨p', m'⟩, e₁, e⟩ := (bind_ok_iff _ _ _).1 e
  cases e
  have hi := Sys.space_ok ep
  have hr := SysInv.root_mem hi
  obtain ⟨f, perm, hv⟩ := h.free_mapped hi e₁
  obtain ⟨e₂, rfl, -⟩ := SysInv.sysUserFreePage_ok e₁
  obtain ⟨l, hl⟩ := h.tables
  -- the address released is the first of the list
  obtain ⟨q, hq, -, hle, hm'⟩ := (hl.table _ hr).unmap_ok hv e₂
  have hhead : m'.gFreeMemList = f + va % PGSIZE := by rw [hm']
  have hlow := h.low.2
  obtain ⟨l', hchain, -, hl'⟩ := ha
  have h0 : m'.gFreeMemList ≠ 0 := by
    simp only [PGSIZE] at *
    omega
  obtain ⟨rest, rfl, -⟩ := hchain.exists_cons h0
  obtain ⟨hdvd, hnobody⟩ := hl' _ List.mem_cons_self
  simp only [hhead] at hdvd hnobody
  have hva : PGSIZE ∣ va := by
    have hfp := (hl.keptPage f (hl.framed _ hr _ f perm hv)).1
    exact (Nat.dvd_mod_iff dvd_rfl).1 ((Nat.dvd_add_right hfp).1 hdvd)
  rw [Nat.mod_eq_zero_of_dvd hva, Nat.add_zero] at hnobody
  refine ⟨hva, fun f' hf' => ?_⟩
  obtain ⟨perm', hv'⟩ := (h.maps_iff hi).1 hf'
  obtain ⟨rfl, -⟩ := Prod.mk.inj (Option.some.inj (hv.symm.trans hv'))
  obtain ⟨hlt, -⟩ := List.getElem?_eq_some_iff.1 hi
  -- the process structures differ in the list of released pages only
  have hset : ∀ (j : ℕ) (g : Space), s.spaces[j]? = some g → ∃ g' : Space,
    g'.pagetable = g.pagetable ∧
      g'.trapframe = g.trapframe ∧
      (s.spaces.set i { p with freePages := va :: p.freePages })[j]? = some g' := by
    intro j g hj
    by_cases hij : i = j
    · subst hij
      obtain rfl := Option.some.inj (hi.symm.trans hj)
      exact ⟨{ p with freePages := va :: p.freePages }, rfl, rfl, List.getElem?_set_self hlt⟩
    · exact ⟨g, rfl, rfl, (List.getElem?_set_ne hij).trans hj⟩
  constructor
  · intro g hg
    obtain ⟨j, hj⟩ := List.getElem?_of_mem hg
    obtain ⟨g', -, htf, hj'⟩ := hset j g hj
    exact htf ▸ hnobody.trapframe g' (List.mem_of_getElem? hj')
  · intro j va' hm
    by_contra hne
    obtain ⟨g, w, hj, hva', -⟩ := id hm
    obtain ⟨perm₂, hv₂⟩ := (h.maps_iff hj).1 hm
    obtain ⟨w', hw'⟩ := h.maps_of_unmap hi hva hv e₂ hj hva' hv₂ hne
    obtain ⟨g', hpt, -, hj'⟩ := hset j g hj
    exact hnobody.unmapped j va' ⟨g', w', hj', hva', hpt ▸ hw'⟩

/-- **The free pages are nobody's** in every state of every run in which the pages that are released
may be released; and a release keeps this only if that page may be. -/
theorem freeApart_of_run (run : Run lay EventOk s) :
    FreeApart s ∧ ∀ i va s', exec lay (.free i va) s = .ok s' → (FreeApart s' ↔ FreeOk s i va) := by
  obtain ⟨pm, kept, h⟩ := run.inv fun _ _ hc => hc
  refine ⟨h.freeApart, fun i va s' e => ⟨h.freeOk_of_freeApart e, fun hok => ?_⟩⟩
  have hev : EventOk s (.free i va) := hok
  obtain ⟨-, pm', kept', -, -, h'⟩ := h.exec .refl hev e
  exact h'.freeApart

/-- A kernel of one page, with the trap vector at its start. -/
def smallKernel : Layout where
  gKernelEnd := 0x80001000
  trapSecStart := 0x80000000
  aligned := by decide
  inside := by decide
  gKernelEnd_le := by decide

/-- A process that has taken a page of heap and forked. -/
def forkedHeap : List Event := [.allocate 0, .fork 0 fun _ => 0]

/-- In the state after a fork, all free pages are nobody's. -/
theorem freeApart_of_run_forked : ∃ s, Run smallKernel EventOk s ∧ s.spaces.length = 2 ∧
    FreeApart s := by
  have htest : (runFrom smallKernel 0x20000 forkedHeap).toOption.map (fun s => s.spaces.length) =
      some 2 := by decide +kernel
  obtain ⟨s, hs, hlen⟩ := Option.map_eq_some_iff.1 htest
  have run : Run smallKernel EventOk s := by
    refine .of_runFrom (toOption_eq_some.1 hs) fun e he s => ?_
    rcases List.mem_cons.1 he with rfl | he
    · trivial
    · obtain rfl := List.mem_singleton.1 he
      trivial
  exact ⟨s, run, hlen, (freeApart_of_run run).1⟩

/-- **A page that is freed while it is mapped.** The parent releases the page of heap it shares with
the child: the page is on the free list, and the child still maps it. -/
theorem freeApart_lost : ¬ ∀ lay s, Run lay (fun _ _ => True) s → FreeApart s := by
  intro hall
  have htest : (runFrom smallKernel 0x20000 (forkedHeap ++ [.free 0 0x400000])).toOption.map
      (fun s => (s.mach.gFreeMemList,
        s.spaces[1]?.bind fun p => pteOf p.pagetable 0x400000 s.mach)) =
      some (0x80014000, some 0x20005153) := by decide +kernel
  obtain ⟨s, hs, heq⟩ := Option.map_eq_some_iff.1 htest
  obtain ⟨hhead, hpte⟩ := Prod.mk.inj heq
  obtain ⟨p, hp, hw⟩ := Option.bind_eq_some_iff.1 hpte
  obtain ⟨l, hchain, -, hl⟩ := hall smallKernel s
    (.of_runFrom (toOption_eq_some.1 hs) fun _ _ _ => trivial)
  obtain ⟨rest, rfl, -⟩ := hchain.exists_cons (by rw [hhead]; decide)
  refine (hl _ List.mem_cons_self).2.unmapped 1 0x400000 ⟨p, _, hp, by decide, hw, by decide, ?_⟩
  rw [hhead]
  decide

end HustOS.Mm
