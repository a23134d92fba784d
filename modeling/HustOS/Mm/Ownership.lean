import HustOS.Mm.Twin

/-!
# The pages of the processes

The invariant of a run of processes (`SysInv`): the directories of the processes are apart, the
frames that they map, their trapframes and the page of the trap vector are kept pages. It is proved
operation by operation, over `Stage`, a memory that comes from an earlier one without a write to the
pages that were kept there, together with a twin in which the same operations are done.
-/

namespace HustOS.Mm

open Foundations

variable {lay : Layout} {m₀ m m' n n' : Mach} {roots kept₀ kept : Set ℕ} {pm : ℕ → PageMap}
  {l : List ℕ} {r va size pa perm q x k : ℕ}

/-! ## Writing to one page -/

theorem Mach.memset_eq (m : Mach) (h0 : x ≠ 0) (hk : k ≤ PGSIZE) :
    ∃ m', m.memset x k = .ok m' ∧ Touches x m m' ∧ ∀ a, x ≤ a → a < x + k → m'.mem a = 0 := by
  refine ⟨_, if_neg h0, ⟨fun a ha => if_neg ?_, rfl, rfl, rfl, rfl⟩, fun a h₁ h₂ => if_pos ⟨h₁, h₂⟩⟩
  exact fun h => ha ⟨h.1, by omega⟩

theorem Mach.memset_ok (e : m.memset x k = .ok m') (hk : k ≤ PGSIZE) :
    x ≠ 0 ∧ Touches x m m' ∧ ∀ a, x ≤ a → a < x + k → m'.mem a = 0 := by
  have h0 : x ≠ 0 := by
    rintro rfl
    cases e
  obtain ⟨m₁, e₁, h⟩ := m.memset_eq h0 hk
  obtain rfl := Except.ok.inj (e₁.symm.trans e)
  exact ⟨h0, h⟩

theorem Mach.memcpy_eq (m : Mach) {src : ℕ} (h0 : x ≠ 0) (hs : src ≠ 0) (hk : k ≤ PGSIZE) :
    ∃ m', m.memcpy x src k = .ok m' ∧ Touches x m m' := by
  refine ⟨_, if_neg (not_or.2 ⟨h0, hs⟩), ⟨fun a ha => if_neg ?_, rfl, rfl, rfl, rfl⟩⟩
  exact fun h => ha ⟨h.1, by omega⟩

theorem Mach.memcpy_ok {src : ℕ} (e : m.memcpy x src k = .ok m') (hk : k ≤ PGSIZE) :
    x ≠ 0 ∧ src ≠ 0 ∧ Touches x m m' := by
  have h0 : ¬ (x = 0 ∨ src = 0) := by
    intro h0
    rw [memcpy, if_pos h0] at e
    cases e
  obtain ⟨hx, hs⟩ := not_or.1 h0
  obtain ⟨m₁, e₁, h⟩ := m.memcpy_eq hx hs hk
  obtain rfl := Except.ok.inj (e₁.symm.trans e)
  exact ⟨hx, hs, h⟩

theorem Mach.memcpy_mem {src a : ℕ} (e : m.memcpy x src k = .ok m') (ha : a < k) :
    m'.mem (x + a) = m.mem (src + a) := by
  rw [memcpy] at e
  split at e
  · cases e
  · cases e
    have hin : x ≤ x + a ∧ x + a < x + k := by omega
    simp only [hin, and_self, if_true, Nat.add_sub_cancel_left]

theorem Mach.poke_ok {v : ℕ} (e : m.poke x v = .ok m') : x ≠ 0 ∧ m' = m.store x v := by
  rw [poke] at e
  split at e
  · cases e
  · rename_i h0
    cases e
    exact ⟨h0, rfl⟩

/-! ## Stages -/

/-- The memory `m`, with the tables `pm` and the pages `kept`, comes from `m₀` without a write to
the pages `kept₀`; the memory `n` is a twin of it. -/
structure Stage (m₀ : Mach) (kept₀ roots : Set ℕ) (pm : ℕ → PageMap) (kept : Set ℕ) (m n : Mach) :
    Prop where
  spaces : ∃ l, Spaces m roots pm kept l
  sub : kept₀ ⊆ kept
  same : SameOn kept₀ m₀ m
  twin : Twin kept m n

namespace Stage

theorem start (h : Spaces m roots pm kept l) (t : Twin kept m n) : Stage m kept roots pm kept m n :=
  ⟨⟨l, h⟩, le_rfl, .refl, t⟩

/-- The pages kept at the end of one stage are those of the next. -/
theorem rebase (h : Stage m₀ kept₀ roots pm kept m n) : Stage m kept roots pm kept m n :=
  ⟨h.spaces, le_rfl, .refl, h.twin⟩

theorem after {pm' : ℕ → PageMap} {kept' roots' : Set ℕ} (h : Stage m₀ kept₀ roots pm kept m n)
    (h' : Stage m kept roots' pm' kept' m' n') : Stage m₀ kept₀ roots' pm' kept' m' n' :=
  ⟨h'.spaces, h.sub.trans h'.sub, h.same.trans (h'.same.mono h.sub), h'.twin⟩

theorem head (h : Stage m₀ kept₀ roots pm kept m n) (e : allocPage m = .ok (q, m')) :
    q = m.gFreeMemList ∧ SameOn Set.univ m m' := by
  obtain ⟨l, hl⟩ := h.spaces
  obtain ⟨-, -, hs, -⟩ := hl.take e
  rw [allocPage_eq hl.unlocked] at e
  exact ⟨(Prod.mk.inj (Except.ok.inj e)).1.symm, hs⟩

theorem take (h : Stage m₀ kept₀ roots pm kept m n) (e : allocPage m = .ok (q, m')) :
    ∃ n', allocPage n = .ok (q, n') ∧ Stage m₀ kept₀ roots pm (insert q kept) m' n' ∧
      (q ≠ 0 → q ∉ kept ∧ ∀ r ∈ roots, ∀ v perm, pm r v ≠ some (q, perm)) := by
  obtain ⟨l, hl⟩ := h.spaces
  obtain ⟨l', h', hs, hq⟩ := hl.take e
  obtain ⟨n', e', -, t⟩ := h.twin.take hl e
  exact ⟨n', e', ⟨⟨l', h'⟩, h.sub.trans (Set.subset_insert q kept),
    h.same.trans (hs.mono (Set.subset_univ _)), t⟩, hq⟩

theorem write (h : Stage m₀ kept₀ roots pm kept m n) (hx : x ∈ kept) (hx₀ : x ∉ kept₀)
    (hm : Touches x m m') (hn : Touches x n n') : Stage m₀ kept₀ roots pm kept m' n' := by
  obtain ⟨l, hl⟩ := h.spaces
  obtain ⟨h', hs⟩ := hl.write hx hm.mem hm.head hm.lock hm.start
  refine ⟨⟨l, h'⟩, h.sub, h.same.trans (hs.mono fun y hy => ⟨h.sub hy, ?_⟩),
    h.twin.write hl hx hm hn⟩
  rintro rfl
  exact hx₀ hy

theorem map {z : ℤ} (h : Stage m₀ kept₀ roots pm kept m n) (hr : r ∈ roots)
    (hone : Spaces.OnePage va size) (hf : Spaces.Mappable roots pm kept va pa)
    (hperm : perm < 2 ^ 10) (hread : perm &&& (PTE_R ||| PTE_W) ≠ 0)
    (e : mapPages r va size pa perm m = .ok (z, m')) :
    ∃ n', mapPages r va size pa perm n = .ok (z, n') ∧ pm r (va / PGSIZE) = none ∧ va < MAXVA ∧
      Stage m₀ kept₀ roots (mapAt pm r (va / PGSIZE) (some (pa, perm))) kept m' n' := by
  obtain ⟨l, hl⟩ := h.spaces
  obtain ⟨-, hva, hnone, hs, l', h', -⟩ := hl.map hr hone hf hperm hread e
  obtain ⟨n', e', t⟩ := h.twin.map hl hr hone e
  exact ⟨n', e', hnone, hva, ⟨l', h'⟩, h.sub, h.same.trans (hs.mono h.sub), t⟩

theorem userVmMap_ok (e : userVmMap r va size pa perm m = .ok m') :
    mapPages r va size pa perm m = .ok (0, m') := by
  rw [userVmMap] at e
  obtain ⟨⟨z, m₁⟩, e₁, e⟩ := (bind_ok_iff _ _ _).1 e
  by_cases hz : z = 0
  · subst hz
    cases e
    exact e₁
  · simp only [ne_eq, hz, not_false_iff, if_true] at e
    cases e

theorem userVmMap_eq (e : mapPages r va size pa perm m = .ok (0, m')) :
    userVmMap r va size pa perm m = .ok m' := by
  rw [userVmMap, e]
  rfl

theorem vmMap (h : Stage m₀ kept₀ roots pm kept m n) (hr : r ∈ roots)
    (hone : Spaces.OnePage va size) (hf : Spaces.Mappable roots pm kept va pa)
    (hperm : perm < 2 ^ 10) (hread : perm &&& (PTE_R ||| PTE_W) ≠ 0)
    (e : userVmMap r va size pa perm m = .ok m') :
    ∃ n', userVmMap r va size pa perm n = .ok n' ∧ pm r (va / PGSIZE) = none ∧ va < MAXVA ∧
      Stage m₀ kept₀ roots (mapAt pm r (va / PGSIZE) (some (pa, perm))) kept m' n' := by
  obtain ⟨n', e', h'⟩ := h.map hr hone hf hperm hread (userVmMap_ok e)
  exact ⟨n', userVmMap_eq e', h'⟩

/-- **A walk, a word in the entry and `map_pages`**, as the page fault handler and `do_fork` do
it. -/
theorem remap {pte w : ℕ} {z : ℤ} {m₁ : Mach} (h : Stage m₀ kept₀ roots pm kept m n)
    (hr : r ∈ roots)
    (hone : Spaces.OnePage va size) (hf : Spaces.Mappable roots pm kept va pa)
    (hperm : perm < 2 ^ 10) (hread : perm &&& (PTE_R ||| PTE_W) ≠ 0)
    (ew : pageWalk r va true m = .ok (pte, m₁)) (h0 : pte ≠ 0)
    (e : mapPages r va size pa perm (m₁.store pte w) = .ok (z, m')) :
    ∃ n₁ n', pageWalk r va true n = .ok (pte, n₁) ∧ n₁.mem pte = m₁.mem pte ∧
      mapPages r va size pa perm (n₁.store pte w) = .ok (z, n') ∧
      Stage m₀ kept₀ roots (mapAt pm r (va / PGSIZE)
        (some (pa, perm ||| if w = 0x100 then 0x100 else 0))) kept m' n' := by
  obtain ⟨l, hl⟩ := h.spaces
  obtain ⟨l', h₁, hs₁, hva, hpte, -⟩ := hl.walk hr ew
  obtain ⟨n₁, f₁, t₁⟩ := h.twin.walk hl hr ew
  obtain ⟨q, rfl, hq⟩ := hpte h0
  obtain ⟨-, -, hs, h'⟩ := h₁.remap hr hone hf hperm hread hva hq e
  obtain ⟨n', f', t'⟩ := t₁.remap h₁ hr hone hva hq e
  exact ⟨n₁, n', f₁, t₁.slot h₁ hr ⟨_, by simp, hq⟩ (idx 0 va), f', ⟨l', h'⟩, h.sub,
    h.same.trans ((hs₁.trans hs).mono h.sub), t'⟩

/-- A page that nobody maps may be mapped anywhere. -/
theorem mappable_fresh (hq : q ∈ kept)
    (hun : q ≠ 0 → ∀ r ∈ roots, ∀ v perm, pm r v ≠ some (q, perm)) (va : ℕ) :
    Spaces.Mappable roots pm kept va q := by
  refine ⟨hq, ?_⟩
  by_cases h0 : q = 0
  · exact .inl h0
  · exact .inr fun r hr v perm hv => absurd hv (hun h0 r hr v perm)

/-- What one process maps at a page, another may map there. -/
theorem mappable_shared (h : Stage m₀ kept₀ roots pm kept m n) (hr : r ∈ roots) (va : ℕ) :
    Spaces.Mappable roots pm kept va ((pm r (va / PGSIZE)).elim 0 Prod.fst) := by
  obtain ⟨l, hl⟩ := h.spaces
  rcases hv : pm r (va / PGSIZE) with _ | ⟨f, perm⟩
  · exact ⟨hl.null, .inl rfl⟩
  · refine ⟨hl.framed r hr _ f perm hv, ?_⟩
    by_cases h0 : f = 0
    · exact .inl h0
    · exact .inr fun r' hr' v perm' hv' => hl.home r' hr' r hr v _ f perm' perm h0 hv' hv

theorem lookup (h : Stage m₀ kept₀ roots pm kept m n) (hr : r ∈ roots) (va : ℕ) :
    lookupPa r va m = .ok ((pm r (va / PGSIZE)).elim 0 Prod.fst, m) ∧
      lookupPa r va n = .ok ((pm r (va / PGSIZE)).elim 0 Prod.fst, n) := by
  obtain ⟨l, hl⟩ := h.spaces
  exact ⟨(hl.table r hr).lookupPa va, ((h.twin.spaces hl).table r hr).lookupPa va⟩

/-- **A zeroed page becomes a directory.** -/
theorem root (h : Stage m₀ kept₀ roots pm (insert q kept) m n) (hq : q ∉ kept) (h0 : q ≠ 0)
    (hsub : kept₀ ⊆ kept) (hm : ∀ a, q ≤ a → a < q + PGSIZE → m.mem a = 0)
    (hn : ∀ a, q ≤ a → a < q + PGSIZE → n.mem a = 0)
    (hun : ∀ r ∈ roots, ∀ v perm, pm r v ≠ some (q, perm)) :
    q ∉ roots ∧
      Stage m₀ kept₀ (insert q roots) (Function.update pm q fun _ => none) kept m n := by
  obtain ⟨l, hl⟩ := h.spaces
  have h' := hl.root (Set.mem_insert q kept) h0
    (fun k => hm _ (slot_mem q k).1 (slot_mem q k).2) hun
  rw [Set.insert_sdiff_self_of_notMem hq] at h'
  exact ⟨fun hr => hl.keptTable q hr q (Set.mem_insert q kept) (isTable_root q m), ⟨l, h'⟩, hsub,
    h.same, h.twin.root hm hn⟩

end Stage

/-! ## A new process -/

/-- An entry with the permissions `perm` lets a user access of the kind `kind` through. -/
def Allows (kind perm : ℕ) : Prop :=
  (perm ||| PTE_V) &&& (PTE_V ||| PTE_U ||| kind) = PTE_V ||| PTE_U ||| kind

instance (kind perm : ℕ) : Decidable (Allows kind perm) := inferInstanceAs (Decidable (_ = _))

/-- The page of the trap vector is mapped at its own address only. -/
def Fixed (lay : Layout) (roots : Set ℕ) (pm : ℕ → PageMap) : Prop :=
  ∀ r ∈ roots, ∀ v perm, pm r v = some (lay.trapSecStart, perm) →
    lay.trapSecStart = 0 ∨ v = lay.trapSecStart / PGSIZE

theorem Fixed.mapAt {v : ℕ} {e : Option (ℕ × ℕ)} (h : Fixed lay roots pm)
    (he : ∀ perm, e = some (lay.trapSecStart, perm) →
      lay.trapSecStart = 0 ∨ v = lay.trapSecStart / PGSIZE) : Fixed lay roots (mapAt pm r v e) := by
  intro r' hr' v' perm hv'
  rw [mapAt_apply] at hv'
  split at hv'
  · rename_i hrv
    rw [hrv.2]
    exact he perm hv'
  · exact h r' hr' v' perm hv'

/-- The process does not map the pages `kept₀` for writing, and what it may write it may read. -/
def ReadOnly (kept₀ : Set ℕ) (map : PageMap) : Prop :=
  ∀ v f perm, map v = some (f, perm) → Allows PTE_W perm →
    Allows PTE_R perm ∧ (f ∈ kept₀ → f = 0)

theorem ReadOnly.mapAt {v : ℕ} (h : ReadOnly kept₀ (pm r))
    (hf : Allows PTE_W perm → Allows PTE_R perm ∧ (pa ∈ kept₀ → pa = 0)) :
    ReadOnly kept₀ (mapAt pm r v (some (pa, perm)) r) := by
  intro v' f perm' hv' hw
  rw [mapAt_apply] at hv'
  split at hv'
  · obtain ⟨rfl, rfl⟩ := Prod.mk.inj (Option.some.inj hv')
    exact hf hw
  · exact h v' f perm' hv' hw

/-- The page of the stack of a new process. -/
abbrev stackVpn : ℕ := (USER_STACK_TOP - PGSIZE) / PGSIZE

/-- What `alloc_process` makes: a process `p` whose directory, trapframe and stack are on pages that
were free, and whose heap is empty. -/
structure Fresh (lay : Layout) (kept₀ roots : Set ℕ) (pm₀ pm : ℕ → PageMap) (kept : Set ℕ)
    (p : Space) : Prop where
  pagetable : p.pagetable ∉ roots
  old : ∀ r ∈ roots, pm r = pm₀ r
  fixed : Fixed lay (insert p.pagetable roots) pm
  trapframe : p.trapframe ∈ kept ∧ p.trapframe ∉ kept₀ ∧ p.trapframe ≠ 0
  stack : ∃ us perm, pm p.pagetable stackVpn = some (us, perm) ∧ (us = 0 ∨ us ∉ kept₀)
  readOnly : ReadOnly kept₀ (pm p.pagetable)
  regions : p.regions = [⟨USER_STACK_TOP - PGSIZE, 1, .stack⟩, ⟨p.trapframe, 1, .context⟩,
    ⟨lay.trapSecStart, 1, .system⟩, ⟨USER_FREE_ADDRESS_START, 0, .heap⟩]
  heapTop : p.heapTop = USER_FREE_ADDRESS_START
  heapBottom : p.heapBottom = USER_FREE_ADDRESS_START
  freePages : p.freePages = []

/-- The stack `us` is the only page of a new process that it may use itself. -/
structure OnlyStack (pm : ℕ → PageMap) (p : Space) (us : ℕ) : Prop where
  stack : pm p.pagetable stackVpn = some (us, protToType (PROT_WRITE ||| PROT_READ) 1)
  apart : us ≠ p.trapframe
  user : ∀ v f perm, pm p.pagetable v = some (f, perm) → perm &&& PTE_U ≠ 0 → v = stackVpn

/-- The pages of a new process: its trapframe `tf`, its directory `pt` and its stack `us` were free,
and nobody maps them. -/
structure NewPages (kept₀ roots : Set ℕ) (pm : ℕ → PageMap) (kept : Set ℕ)
    (tf pt us : ℕ) : Prop where
  pagetable : pt ∉ roots
  trapframe : tf ∈ kept ∧ tf ∉ kept₀ ∧ tf ≠ 0
  trapframe_unmapped : ∀ r ∈ roots, ∀ v perm, pm r v ≠ some (tf, perm)
  stack : us ∈ kept ∧ (us = 0 ∨ us ∉ kept₀ ∧ us ≠ tf)
  stack_unmapped : us ≠ 0 → ∀ r ∈ roots, ∀ v perm, pm r v ≠ some (us, perm)

theorem Stage.processPages {tf pt us : ℕ} (h : Stage m₀ kept₀ roots pm kept m n)
    (e : processPages m = .ok (tf, pt, us, m')) :
    ∃ n' kept', processPages n = .ok (tf, pt, us, n') ∧
      Stage m₀ kept₀ (insert pt roots) (Function.update pm pt fun _ => none) kept' m' n' ∧
      NewPages kept₀ roots pm kept' tf pt us ∧ tf = m.gFreeMemList ∧
      m'.mem (tf + 8) = USER_STACK_TOP := by
  rw [Mm.processPages] at e
  obtain ⟨⟨tf', m₁⟩, e₁, e⟩ := (bind_ok_iff _ _ _).1 e
  obtain ⟨m₂, e₂, e⟩ := (bind_ok_iff _ _ _).1 e
  obtain ⟨⟨pt', m₃⟩, e₃, e⟩ := (bind_ok_iff _ _ _).1 e
  obtain ⟨m₄, e₄, e⟩ := (bind_ok_iff _ _ _).1 e
  obtain ⟨⟨ks, m₅⟩, e₅, e⟩ := (bind_ok_iff _ _ _).1 e
  obtain ⟨⟨us', m₆⟩, e₆, e⟩ := (bind_ok_iff _ _ _).1 e
  obtain ⟨⟨mi, m₇⟩, e₇, e⟩ := (bind_ok_iff _ _ _).1 e
  obtain ⟨m₈, e₈, e⟩ := (bind_ok_iff _ _ _).1 e
  cases e
  -- the trapframe
  obtain ⟨htf0, ht₂, -⟩ := Mach.memset_ok e₂ (by decide)
  obtain ⟨n₁, f₁, h₁, hq⟩ := h.take e₁
  obtain ⟨n₂, f₂, ht₂', -⟩ := n₁.memset_eq (k := TRAPFRAME_SIZE) htf0 (by decide)
  obtain ⟨htf, htfun⟩ := hq htf0
  have htf₀ : tf ∉ kept₀ := fun hm => htf (h.sub hm)
  have h₂ := h₁.write (Set.mem_insert tf kept) htf₀ ht₂ ht₂'
  -- the page directory
  obtain ⟨hpt0, ht₄, hz⟩ := Mach.memset_ok e₄ le_rfl
  obtain ⟨n₃, f₃, h₃, hq⟩ := h₂.take e₃
  obtain ⟨n₄, f₄, ht₄', hz'⟩ := n₃.memset_eq hpt0 le_rfl
  obtain ⟨hpt, hptun⟩ := hq hpt0
  have h₄ := h₃.write (Set.mem_insert _ _) (fun hm => hpt (h₂.sub hm)) ht₄ ht₄'
  obtain ⟨hroot, h₄⟩ := h₄.root hpt hpt0 h₂.sub hz hz' hptun
  -- the kernel stack, the user stack and the page of `mapped_info`
  obtain ⟨n₅, f₅, h₅, -⟩ := h₄.take e₅
  obtain ⟨n₆, f₆, h₆, hus⟩ := h₅.take e₆
  have htf₆ : tf ∈ insert us (insert ks (insert tf kept)) := .inr (.inr (.inl rfl))
  have htouch : ∀ m : Mach, Touches tf m (m.store (tf + 8) USER_STACK_TOP) := fun m =>
    Mach.store_touches (by omega) (by simp only [PGSIZE]; omega)
  have h₆' := h₆.write htf₆ htf₀ (htouch m₆) (htouch n₆)
  obtain ⟨hmi0, ht₈, -⟩ := Mach.memset_ok e₈ le_rfl
  obtain ⟨n₇, f₇, h₇, hq⟩ := h₆'.take e₇
  obtain ⟨n₈, f₈, ht₈', -⟩ := n₇.memset_eq hmi0 le_rfl
  obtain ⟨hmi, -⟩ := hq hmi0
  have h₈ := h₇.write (Set.mem_insert _ _) (fun hm => hmi (h₆'.sub hm)) ht₈ ht₈'
  -- the stack pointer is not on the page of `mapped_info`
  have hsp : m'.mem (tf + 8) = USER_STACK_TOP := by
    obtain ⟨l, hl⟩ := h₇.spaces
    have hne : tf ≠ mi := fun e => hmi (e ▸ htf₆)
    have hout := page_apart (hl.keptPage tf (.inr htf₆)).1 (hl.keptPage mi (.inl rfl)).1 hne
      (Nat.le_add_right tf 8) (by simp only [PGSIZE]; omega)
    rw [ht₈.mem _ hout, (h₆'.head e₇).2.mem tf (Set.mem_univ _) _ (Nat.le_add_right tf 8)
      (by simp only [PGSIZE]; omega), Mach.store_self]
  refine ⟨n₈, _, ?_, h₈, ⟨hroot, ⟨.inr htf₆, htf₀, htf0⟩, htfun, ⟨.inr (.inl rfl), ?_⟩,
    fun h0 r hr v perm hv => ?_⟩, (h.head e₁).1, hsp⟩
  · simp only [Mm.processPages, f₁, f₂, f₃, f₄, f₅, f₆, f₇, f₈, ok_bind, pure_eq_ok]
  · by_cases h0 : us = 0
    · exact .inl h0
    · exact .inr ⟨fun hm => (hus h0).1 (h₅.sub hm), fun e => (hus h0).1 (.inr (.inl e))⟩
  · have hne : r ≠ pt := fun e => hroot (e ▸ hr)
    refine (hus h0).2 r (.inr hr) v perm ?_
    rw [Function.update_of_ne hne]
    exact hv

theorem Stage.processMaps {tf pt us : ℕ}
    (h : Stage m₀ kept₀ (insert pt roots) (Function.update pm pt fun _ => none) kept m n)
    (hfix : Fixed lay roots pm) (hsec : lay.trapSecStart ∈ kept₀)
    (hp : NewPages kept₀ roots pm kept tf pt us) (e : processMaps lay tf pt us m = .ok m') :
    ∃ n' pm', processMaps lay tf pt us n = .ok n' ∧
      Stage m₀ kept₀ (insert pt roots) pm' kept m' n' ∧ Fixed lay (insert pt roots) pm' ∧
      (∀ r ∈ roots, pm' r = pm r) ∧
      pm' pt stackVpn = some (us, protToType (PROT_WRITE ||| PROT_READ) 1) ∧
      (∀ v f perm, pm' pt v = some (f, perm) → perm &&& PTE_U ≠ 0 → v = stackVpn) ∧
      ReadOnly kept₀ (pm' pt) ∧
      (∀ v f perm, pm' pt v = some (f, perm) → f = lay.trapSecStart ∨ f = tf ∨ f = us) ∧
      SameOn kept m m' ∧ ∃ perm, pm' pt (tf / PGSIZE) = some (tf, perm) := by
  rw [Mm.processMaps] at e
  obtain ⟨m₁, e₁, e⟩ := (bind_ok_iff _ _ _).1 e
  obtain ⟨m₂, e₂, e₃⟩ := (bind_ok_iff _ _ _).1 e
  have hpt : pt ∈ insert pt roots := Set.mem_insert pt roots
  set pm₁ := mapAt (Function.update pm pt fun _ => none) pt stackVpn
    (some (us, protToType (PROT_WRITE ||| PROT_READ) 1)) with hpm₁
  set pm₂ := mapAt pm₁ pt (tf / PGSIZE) (some (tf, protToType (PROT_WRITE ||| PROT_READ) 0))
  -- a mapping of the tables before these is one of the old tables
  have hold : ∀ r ∈ insert pt roots, ∀ v x, Function.update pm pt (fun _ => none) r v = some x →
      r ∈ roots ∧ pm r v = some x := by
    intro r hr v x hv
    by_cases hne : r = pt
    · rw [hne, Function.update_self] at hv
      cases hv
    · rw [Function.update_of_ne hne] at hv
      exact ⟨hr.resolve_left hne, hv⟩
  have hus : us = lay.trapSecStart → lay.trapSecStart = 0 := by
    rintro rfl
    exact hp.stack.2.resolve_right fun h => h.1 hsec
  -- the stack
  obtain ⟨n₁, f₁, -, -, h₁⟩ := h.rebase.vmMap hpt (.inr ⟨rfl, by decide⟩)
    (mappable_fresh hp.stack.1 (fun h0 r hr v perm hv =>
      hp.stack_unmapped h0 r (hold r hr v _ hv).1 v perm (hold r hr v _ hv).2) _)
    (protToType_lt _ _) (by decide) e₁
  have hfix₁ : Fixed lay (insert pt roots) pm₁ := by
    refine Fixed.mapAt (fun r hr v perm hv => ?_) fun perm hs => ?_
    · exact hfix r (hold r hr v _ hv).1 v perm (hold r hr v _ hv).2
    · exact .inl (hus (Prod.mk.inj (Option.some.inj hs)).1)
  -- the trapframe
  have htf : Spaces.Mappable (insert pt roots) pm₁ kept tf tf := by
    refine mappable_fresh hp.trapframe.1 (fun _ r hr v perm hv => ?_) _
    rw [hpm₁, mapAt_apply] at hv
    split at hv
    · have he := (Prod.mk.inj (Option.some.inj hv)).1
      exact hp.stack.2.elim (fun h0 => hp.trapframe.2.2 (he ▸ h0)) fun hne => hne.2 he
    · exact hp.trapframe_unmapped r (hold r hr v _ hv).1 v perm (hold r hr v _ hv).2
  obtain ⟨l, hl⟩ := h.spaces
  obtain ⟨n₂, f₂, hne₂, -, h₂⟩ := h₁.vmMap hpt (.inr ⟨rfl, (hl.keptPage tf hp.trapframe.1).1⟩) htf
    (protToType_lt _ _) (by decide) e₂
  have hfix₂ : Fixed lay (insert pt roots) pm₂ :=
    hfix₁.mapAt fun perm hs => absurd ((Prod.mk.inj (Option.some.inj hs)).1 ▸ hsec) hp.trapframe.2.1
  -- the trap vector
  have htrap : Spaces.Mappable (insert pt roots) pm₂ kept lay.trapSecStart lay.trapSecStart := by
    refine ⟨h.sub hsec, ?_⟩
    by_cases h0 : lay.trapSecStart = 0
    · exact .inl h0
    · exact .inr fun r hr v perm hv => (hfix₂ r hr v perm hv).resolve_left h0
  obtain ⟨n₃, f₃, hne₃, -, h₃⟩ := h₂.vmMap hpt (.inr ⟨rfl, lay.aligned⟩) htrap (protToType_lt _ _)
    (by decide) e₃
  have hro : ReadOnly kept₀ (Function.update pm pt (fun _ => none) pt) := by
    intro v f perm hv
    rw [Function.update_self] at hv
    cases hv
  have hro₁ : ReadOnly kept₀ (pm₁ pt) := hro.mapAt fun _ =>
    ⟨by decide, fun hk => hp.stack.2.resolve_right fun h => h.1 hk⟩
  have hro₂ : ReadOnly kept₀ (pm₂ pt) := hro₁.mapAt fun hw => absurd hw (by decide)
  refine ⟨n₃, _, ?_, h.after h₃, hfix₂.mapAt fun _ _ => .inr rfl, fun r hr => ?_,
    mapAt_keep hne₃ (mapAt_keep hne₂ (mapAt_self _ _ _ _)), fun v f perm hv hu => ?_,
    hro₂.mapAt fun hw => absurd hw (by decide), fun v f perm hv => ?_, h₃.same, _,
    mapAt_keep hne₃ (mapAt_self _ _ _ _)⟩
  · simp only [Mm.processMaps, f₁, f₂, f₃, ok_bind]
  · have hne : r ≠ pt := fun e => hp.pagetable (e ▸ hr)
    rw [mapAt_of_ne hne, mapAt_of_ne hne, mapAt_of_ne hne, Function.update_of_ne hne]
  · -- the entries of the trap vector and of the trapframe are the kernel's
    rw [mapAt_apply] at hv
    split at hv
    · rw [← (Prod.mk.inj (Option.some.inj hv)).2] at hu
      exact absurd (by decide) hu
    · rw [mapAt_apply] at hv
      split at hv
      · rw [← (Prod.mk.inj (Option.some.inj hv)).2] at hu
        exact absurd (by decide) hu
      · rw [mapAt_apply, Function.update_self] at hv
        split at hv
        · rename_i he
          exact he.2
        · cases hv
  · rw [mapAt_apply, mapAt_apply, mapAt_apply, Function.update_self] at hv
    split_ifs at hv
    · exact .inl (Prod.mk.inj (Option.some.inj hv)).1.symm
    · exact .inr (.inl (Prod.mk.inj (Option.some.inj hv)).1.symm)
    · exact .inr (.inr (Prod.mk.inj (Option.some.inj hv)).1.symm)

/-- A process's trapframe `tf` is mapped at its own address, and the stack of the process is
empty. -/
structure NewTrapframe (map : PageMap) (m : Mach) (tf : ℕ) : Prop where
  entry : ∃ perm, map (tf / PGSIZE) = some (tf, perm)
  sp : m.mem (tf + 8) = USER_STACK_TOP

/-- **`alloc_process`.** -/
theorem Stage.allocProcess {p : Space} (h : Stage m₀ kept₀ roots pm kept m n)
    (hfix : Fixed lay roots pm) (hsec : lay.trapSecStart ∈ kept₀)
    (e : allocProcess lay m = .ok (p, m')) :
    ∃ n' pm' kept', allocProcess lay n = .ok (p, n') ∧
      Stage m₀ kept₀ (insert p.pagetable roots) pm' kept' m' n' ∧
      Fresh lay kept₀ roots pm pm' kept' p ∧ (∃ us, OnlyStack pm' p us) ∧
      (∀ v f perm, pm' p.pagetable v = some (f, perm) →
        f = lay.trapSecStart ∨ f = 0 ∨ f ∉ kept₀) ∧
      p.trapframe = m.gFreeMemList ∧ NewTrapframe (pm' p.pagetable) m' p.trapframe := by
  rw [Mm.allocProcess] at e
  obtain ⟨⟨tf, pt, us, m₁⟩, e₁, e⟩ := (bind_ok_iff _ _ _).1 e
  obtain ⟨m₂, e₂, e⟩ := (bind_ok_iff _ _ _).1 e
  obtain ⟨⟨pf, m₃⟩, e₃, e⟩ := (bind_ok_iff _ _ _).1 e
  have hpf : pf ≠ 0 := by
    rintro rfl
    cases e
  simp only [hpf, if_false, pure_eq_ok] at e
  obtain ⟨rfl, rfl⟩ := Prod.mk.inj (Except.ok.inj e)
  obtain ⟨n₁, kept₁, f₁, h₁, hp, hhead, hsp⟩ := h.processPages e₁
  obtain ⟨n₂, pm', f₂, h₂, hfix', hold, hst, huser, hro, hall, hs, hentry⟩ :=
    h₁.processMaps hfix hsec hp e₂
  obtain ⟨n₃, f₃, h₃, -⟩ := h₂.take e₃
  have htf := hp.trapframe
  refine ⟨n₃, pm', _, ?_, h₃, ⟨hp.pagetable, hold, hfix', ⟨.inr htf.1, htf.2⟩,
    ⟨us, _, hst, hp.stack.2.imp_right And.left⟩, hro, rfl, rfl, rfl, rfl⟩, ⟨us, hst, ?_, huser⟩,
    fun v f perm hv => ?_, hhead, hentry, ?_⟩
  · simp only [Mm.allocProcess, f₁, f₂, f₃, ok_bind, hpf, if_false, pure_eq_ok]
  · exact hp.stack.2.elim (fun h0 => h0 ▸ htf.2.2.symm) And.right
  · rcases hall v f perm hv with rfl | rfl | rfl
    · exact .inl rfl
    · exact .inr (.inr htf.2.1)
    · exact .inr (hp.stack.2.imp_right And.left)
  · have hin : tf ≤ tf + 8 ∧ tf + 8 < tf + PGSIZE := ⟨by omega, by simp only [PGSIZE]; omega⟩
    exact ((h₂.head e₃).2.mem tf (Set.mem_univ _) _ hin.1 hin.2).trans
      ((hs.mem tf htf.1 _ hin.1 hin.2).trans hsp)

/-! ## The invariant -/

/-- The page directories of some processes. -/
def rootsOf (spaces : List Space) : Set ℕ := {r | r ∈ spaces.map Space.pagetable}

theorem mem_rootsOf {spaces : List Space} {p : Space} (hp : p ∈ spaces) :
    p.pagetable ∈ rootsOf spaces :=
  List.mem_map_of_mem hp

theorem rootsOf_concat (spaces : List Space) (p : Space) :
    rootsOf (spaces ++ [p]) = insert p.pagetable (rootsOf spaces) := by
  ext r
  simp only [rootsOf, List.map_append, List.map_cons, List.map_nil, List.mem_append,
    List.mem_singleton,
    Set.mem_ofPred_eq, Set.mem_insert_iff, or_comm]

/-- What a process structure says of pages is about whole pages, the trapframe is a page of its own,
and the loaded segments have one page each. -/
structure SpaceOk (kept : Set ℕ) (p : Space) : Prop where
  trapframe : p.trapframe ∈ kept ∧ p.trapframe ≠ 0
  heapBottom : p.heapBottom = USER_FREE_ADDRESS_START
  heapTop : PGSIZE ∣ p.heapTop ∧ p.heapTop ≤ MAXVA
  freePages : ∀ va ∈ p.freePages, PGSIZE ∣ va
  aligned : ∀ g ∈ p.regions, PGSIZE ∣ g.va
  single : ∀ g ∈ p.regions, g.segType = .code ∨ g.segType = .data → g.npages = 1
  heap : ∃ g ∈ p.regions, g.segType = .heap

theorem SpaceOk.mono {kept' : Set ℕ} {p : Space} (h : SpaceOk kept p) (hk : kept ⊆ kept') :
    SpaceOk kept' p :=
  { h with trapframe := ⟨hk h.trapframe.1, h.trapframe.2⟩ }

/-- **The invariant of the processes.** -/
structure SysInv (lay : Layout) (m : Mach) (spaces : List Space) (pm : ℕ → PageMap) (kept : Set ℕ) :
    Prop where
  tables : ∃ l, Spaces m (rootsOf spaces) pm kept l
  distinct : (spaces.map Space.pagetable).Nodup
  space : ∀ p ∈ spaces, SpaceOk kept p
  fixed : Fixed lay (rootsOf spaces) pm
  trapSec : lay.trapSecStart ∈ kept
  low : lay.trapSecStart < m.freeMemStartAddr ∧ PGSIZE ≤ m.freeMemStartAddr

namespace SysInv

variable {spaces : List Space} {p p' : Space} {i : ℕ}

theorem stage (h : SysInv lay m spaces pm kept) (t : Twin kept m n) :
    Stage m kept (rootsOf spaces) pm kept m n := by
  obtain ⟨l, hl⟩ := h.tables
  exact .start hl t

/-- A twin satisfies the invariant as well. -/
theorem twin (h : SysInv lay m spaces pm kept) (t : Twin kept m n) :
    SysInv lay n spaces pm kept := by
  obtain ⟨l, hl⟩ := h.tables
  exact { h with tables := ⟨l, t.spaces hl⟩, low := t.start ▸ h.low }

/-- The invariant after a stage that keeps the processes. -/
theorem of_stage {pm' : ℕ → PageMap} {kept' : Set ℕ} (h : SysInv lay m spaces pm kept)
    (hs : Stage m kept (rootsOf spaces) pm' kept' m' n') (hfix : Fixed lay (rootsOf spaces) pm') :
    SysInv lay m' spaces pm' kept' where
  tables := hs.spaces
  distinct := h.distinct
  space p hp := (h.space p hp).mono hs.sub
  fixed := hfix
  trapSec := hs.sub h.trapSec
  low := hs.same.start ▸ h.low

/-- A process structure that is written. -/
theorem set (h : SysInv lay m spaces pm kept) (hi : spaces[i]? = some p)
    (hp : p'.pagetable = p.pagetable) (ok : SpaceOk kept p') :
    SysInv lay m (spaces.set i p') pm kept := by
  have hmap : (spaces.set i p').map Space.pagetable = spaces.map Space.pagetable := by
    rw [List.map_set, hp]
    refine List.ext_getElem? fun j => ?_
    rw [List.getElem?_set]
    split
    · rename_i hij
      subst hij
      obtain ⟨hlt, hi'⟩ := List.getElem?_eq_some_iff.1 hi
      simp [hlt, hi']
    · rfl
  have hroots : rootsOf (spaces.set i p') = rootsOf spaces := by rw [rootsOf, hmap, rootsOf]
  refine ⟨?_, hmap ▸ h.distinct, fun p hp => ?_, hroots.symm ▸ h.fixed, h.trapSec, h.low⟩
  · rw [hroots]
    exact h.tables
  · rcases List.mem_or_eq_of_mem_set hp with hp | rfl
    · exact h.space p hp
    · exact ok

theorem root_mem (hi : spaces[i]? = some p) : p.pagetable ∈ rootsOf spaces :=
  mem_rootsOf (List.mem_of_getElem? hi)

/-- A page just taken is not the page of the trap vector. -/
theorem fixed_fresh {v perm : ℕ} (h : SysInv lay m spaces pm kept) (hq : q ≠ 0 → q ∉ kept) :
    Fixed lay (rootsOf spaces) (mapAt pm r v (some (q, perm))) := by
  refine h.fixed.mapAt fun perm' hs => .inl ?_
  have he : q = lay.trapSecStart := (Prod.mk.inj (Option.some.inj hs)).1
  by_contra h0
  exact hq (he ▸ h0) (he ▸ h.trapSec)

/-! ## System calls -/

/-- The page of the heap that `sys_user_allocate_page` chooses. -/
theorem heapVa_ok (ok : SpaceOk kept p) (e : heapVa p = .ok (va, p')) :
    p'.pagetable = p.pagetable ∧ PGSIZE ∣ va ∧ (va < MAXVA → SpaceOk kept p') := by
  rw [heapVa] at e
  split at e
  · rename_i va' rest hfree
    split at e
    · obtain ⟨rfl, rfl⟩ := Prod.mk.inj (Except.ok.inj e)
      refine ⟨rfl, ok.freePages va' (hfree ▸ List.mem_cons_self), fun _ => ?_⟩
      exact { ok with
        freePages := fun x hx => ok.freePages x (hfree ▸ List.mem_cons_of_mem _ hx) }
    · cases e
  · obtain ⟨rfl, rfl⟩ := Prod.mk.inj (Except.ok.inj e)
    refine ⟨rfl, ok.heapTop.1, fun hva => ?_⟩
    have hdvd := ok.heapTop.1
    have htop : (p.heapTop + PGSIZE) % 2 ^ 64 = p.heapTop + PGSIZE := by
      simp only [PGSIZE, MAXVA] at *
      omega
    have hle : p.heapTop + PGSIZE ≤ MAXVA := by
      simp only [PGSIZE, MAXVA] at *
      omega
    rw [htop]
    exact { ok with heapTop := ⟨(Nat.dvd_add_self_right).2 hdvd, hle⟩ }

/-- **`sys_user_allocate_page`** maps the first free page as it is. -/
theorem allocate (h : SysInv lay m spaces pm kept) (t : Twin kept m n) (hi : spaces[i]? = some p)
    (e : sysUserAllocatePage p m = .ok (va, p', m')) :
    ∃ n', sysUserAllocatePage p n = .ok (va, p', n') ∧
      Twin (insert m.gFreeMemList kept) m' n' ∧
      SysInv lay m' (spaces.set i p') (mapAt pm p.pagetable (va / PGSIZE)
        (some (m.gFreeMemList, protToType (PROT_WRITE ||| PROT_READ) 1)))
        (insert m.gFreeMemList kept) ∧ p'.pagetable = p.pagetable ∧
      SameOn {m.gFreeMemList} m m' ∧ pm p.pagetable (va / PGSIZE) = none ∧
      (m.gFreeMemList ≠ 0 → m.gFreeMemList ∉ kept) := by
  rw [sysUserAllocatePage] at e
  obtain ⟨⟨pa, m₁⟩, e₁, e⟩ := (bind_ok_iff _ _ _).1 e
  obtain ⟨⟨va', p₁⟩, e₂, e⟩ := (bind_ok_iff _ _ _).1 e
  obtain ⟨m₂, e₃, e⟩ := (bind_ok_iff _ _ _).1 e
  cases e
  obtain ⟨hpt, hva, hok⟩ := heapVa_ok (h.space p (List.mem_of_getElem? hi)) e₂
  obtain ⟨n₁, f₁, h₁, hq⟩ := (h.stage t).take e₁
  obtain ⟨rfl, hs₁⟩ := (h.stage t).head e₁
  rw [hpt] at e₃
  obtain ⟨n₂, f₃, hnone, hlt, h₂⟩ := h₁.rebase.vmMap (root_mem hi) (.inr ⟨rfl, hva⟩)
    (Stage.mappable_fresh (Set.mem_insert _ kept) (fun h0 => (hq h0).2) va) (protToType_lt _ _)
    (by decide) e₃
  have h' := h.of_stage (h₁.after h₂) (h.fixed_fresh fun h0 => (hq h0).1)
  refine ⟨n₂, ?_, h₂.twin, h'.set hi hpt ((hok hlt).mono (Set.subset_insert _ kept)), hpt,
    (hs₁.mono (Set.subset_univ _)).trans (h₂.same.mono ?_), hnone, fun h0 => (hq h0).1⟩
  · rw [← hpt] at f₃
    simp only [sysUserAllocatePage, f₁, e₂, f₃, ok_bind, pure_eq_ok]
  · exact Set.singleton_subset_iff.2 (Set.mem_insert _ _)

theorem sysUserFreePage_ok (e : sysUserFreePage va p m = .ok (p', m')) :
    userVmUnmap p.pagetable va PGSIZE 1 m = .ok m' ∧
      p' = { p with freePages := va :: p.freePages } ∧
      ∀ n n', userVmUnmap p.pagetable va PGSIZE 1 n = .ok n' →
        sysUserFreePage va p n = .ok (p', n') := by
  rw [sysUserFreePage] at e
  obtain ⟨m₁, e₁, e⟩ := (bind_ok_iff _ _ _).1 e
  by_cases h8 : va % 8 = 0
  · by_cases hlen : MAX_HEAP_PAGES ≤ p.freePages.length
    · simp only [h8, hlen, ne_eq, not_true, if_false, if_true, throw_eq_error, error_bind] at e
      cases e
    · simp only [h8, hlen, ne_eq, not_true, if_false, pure_eq_ok] at e
      obtain ⟨rfl, rfl⟩ := Prod.mk.inj (Except.ok.inj e)
      refine ⟨e₁, rfl, fun n n' e' => ?_⟩
      simp only [sysUserFreePage, e', ok_bind, h8, hlen, ne_eq, not_true, if_false, pure_eq_ok]
  · simp only [h8, ne_eq, not_false_iff, if_true, throw_eq_error, error_bind] at e
    cases e

/-- `sys_user_free_page` of a page that is not mapped panics. -/
theorem free_mapped (h : SysInv lay m spaces pm kept) (hi : spaces[i]? = some p)
    (e : sysUserFreePage va p m = .ok (p', m')) :
    ∃ f perm, pm p.pagetable (va / PGSIZE) = some (f, perm) := by
  have e₁ := (sysUserFreePage_ok e).1
  rcases hv : pm p.pagetable (va / PGSIZE) with _ | ⟨f, perm⟩
  · rw [userVmUnmap, if_pos (by decide)] at e₁
    obtain ⟨⟨pte, m₂⟩, e₂, e₃⟩ := (bind_ok_iff _ _ _).1 e₁
    have hm : m₂ = m := by
      by_cases hva : va < MAXVA
      · rw [pageWalk_false hva] at e₂
        exact (Prod.mk.inj (Except.ok.inj e₂)).2.symm
      · rw [pageWalk, if_pos (by omega)] at e₂
        cases e₂
    subst hm
    have hpa : userVaToPa p.pagetable va m₂ = .ok ((0 + (va &&& 0xfff)) % 2 ^ 64, m₂) := by
      rw [userVaToPa, ((h.stage .refl).lookup (root_mem hi) va).1, hv]
      rfl
    have hlt : (0 + (va &&& 0xfff)) % 2 ^ 64 < m₂.freeMemStartAddr := by
      have hand : va &&& 0xfff ≤ 0xfff := Nat.and_le_right
      have hlow := h.low.2
      simp only [PGSIZE] at hlow
      omega
    simp only [hpa, ok_bind, freePage, hlt, true_or, if_true, throw_eq_error, error_bind] at e₃
    cases e₃
  · exact ⟨f, perm, rfl⟩

/-- **`sys_user_free_page`** of a frame that is no trapframe and that nothing else maps. -/
theorem free {f : ℕ} (h : SysInv lay m spaces pm kept) (t : Twin kept m n)
    (hi : spaces[i]? = some p) (hva : PGSIZE ∣ va)
    (hv : pm p.pagetable (va / PGSIZE) = some (f, perm)) (htf : ∀ p ∈ spaces, p.trapframe ≠ f)
    (hother : ∀ r ∈ rootsOf spaces, ∀ v perm', pm r v = some (f, perm') →
      r = p.pagetable ∧ v = va / PGSIZE)
    (e : sysUserFreePage va p m = .ok (p', m')) :
    ∃ n', sysUserFreePage va p n = .ok (p', n') ∧ Twin (kept \ {f}) m' n' ∧
      SysInv lay m' (spaces.set i p') (mapAt pm p.pagetable (va / PGSIZE) none) (kept \ {f}) := by
  obtain ⟨e₁, rfl, htwin⟩ := sysUserFreePage_ok e
  obtain ⟨l, hl⟩ := h.tables
  obtain ⟨q, -, -, hle, -⟩ := (hl.table _ (root_mem hi)).unmap_ok hv e₁
  rw [Nat.mod_eq_zero_of_dvd hva, Nat.add_zero] at hle
  have hlow := h.low
  have h0 : f ≠ 0 := by
    rintro rfl
    simp only [PGSIZE] at hlow
    omega
  obtain ⟨hs, h₁⟩ := hl.unmap (root_mem hi) hva hv h0 hother e₁
  obtain ⟨n', e₁', t'⟩ := t.unmap hl (root_mem hi) hva hv h0 hother e₁
  have hsec : lay.trapSecStart ∈ kept \ {f} :=
    ⟨h.trapSec, fun (e : lay.trapSecStart = f) => by omega⟩
  have hok : ∀ p ∈ spaces, SpaceOk (kept \ {f}) p := fun p hp =>
    { h.space p hp with
      trapframe := ⟨⟨(h.space p hp).trapframe.1, htf p hp⟩, (h.space p hp).trapframe.2⟩ }
  have hfix : Fixed lay (rootsOf spaces) (mapAt pm p.pagetable (va / PGSIZE) none) :=
    h.fixed.mapAt nofun
  have h' : SysInv lay m' spaces (mapAt pm p.pagetable (va / PGSIZE) none) (kept \ {f}) :=
    ⟨⟨_, h₁⟩, h.distinct, hok, hfix, hsec, hs.start ▸ h.low⟩
  refine ⟨n', htwin n n' e₁', t', h'.set hi rfl ?_⟩
  have hp := hok p (List.mem_of_getElem? hi)
  refine { hp with freePages := ?_ }
  rintro x (_ | ⟨_, hx⟩)
  · exact hva
  · exact hp.freePages x hx

end SysInv

/-! ## User mode -/

/-- **The hardware translates by the map.** -/
theorem PtInv.translate {kind : ℕ} {map : PageMap} (h : PtInv r m map)
    (hk : kind < 2 ^ 10) (va : ℕ) :
    translate r kind va m = (map (va / PGSIZE)).bind fun x =>
      if Allows kind x.2 then some (x.1 + va % PGSIZE) else none := by
  by_cases hva : MAXVA ≤ va
  · rw [Mm.translate, if_pos hva, h.bound _ (by simp only [MAXVA, PGSIZE] at *; omega)]
    rfl
  have hlt : va < MAXVA := by omega
  have hflags : PTE_V ||| PTE_U ||| kind < 2 ^ 10 := Nat.or_lt_two_pow (by decide) hk
  rw [Mm.translate, if_neg hva, pteOf]
  cases hq : nodeAt (entry m) r [idx 2 va, idx 1 va] with
  | none =>
    have hv := h.absent _ _ (idx 0 va) hq
    rw [vpn_idx hlt] at hv
    rw [hv]
    rfl
  | some q =>
    have hw := h.leafWord hlt hq
    rcases hv : map (va / PGSIZE) with _ | ⟨f, perm⟩
    · rw [hv] at hw
      have hno : ¬ m.mem (q + 8 * px 0 va) &&& (PTE_V ||| PTE_U ||| kind) =
          PTE_V ||| PTE_U ||| kind := by
        intro he
        have hw' : m.mem (q + 8 * px 0 va) % 2 = 0 := (Nat.and_one_is_mod _).symm.trans hw.1
        have hbit := congrArg (Nat.testBit · 0) he
        simp [hw'] at hbit
      simp only [Option.map_some, hno, if_false, Option.bind_none]
    · rw [hv] at hw
      have hf := h.frameOk hv
      simp only [Option.map_some, Option.bind_some, Allows]
      rw [hw, mkPte_and hf.lt hflags,
        pte2pa_mkPte hf.lt hf.aligned (Nat.or_lt_two_pow hf.perm_lt (by decide))]
      rfl

/-- The handler does not write an entry that is zero, which is as good as writing it back. -/
theorem Mach.clear_eq {pte w : ℕ} (hw : m.mem pte = w) :
    (if w ≠ 0 then m.store pte (w &&& 0xffffeffe) else m) = m.store pte (w &&& 0xffffeffe) := by
  by_cases hw0 : w = 0
  · subst hw0
    rw [if_neg (by decide), Nat.zero_and, ← hw, Mach.store_mem]
  · rw [if_pos hw0]

theorem Mach.setByte_touches {a b : ℕ} (hx : PGSIZE ∣ x) (h₁ : x ≤ a) (h₂ : a < x + PGSIZE) :
    Touches x m (m.setByte a b) := by
  obtain ⟨y, rfl⟩ := hx
  refine Mach.store_touches ?_ ?_ <;> simp only [PGSIZE] at * <;> omega

namespace SysInv

variable {spaces : List Space} {p p' : Space} {i : ℕ}

/-- **A store fault** maps the first free page, as it is, at the page of the address. -/
theorem fault {stval sp : ℕ} (h : SysInv lay m spaces pm kept) (t : Twin kept m n) (hp : p ∈ spaces)
    (e : handleUserPageFault stval sp p m = .ok m') :
    ∃ n' q perm, handleUserPageFault stval sp p n = .ok n' ∧ q = m.gFreeMemList ∧
      (q ≠ 0 → q ∉ kept) ∧ Allows PTE_W perm ∧ Allows PTE_R perm ∧ SameOn {q} m m' ∧
      Stage m kept (rootsOf spaces) (mapAt pm p.pagetable (stval / PGSIZE) (some (q, perm)))
        (insert q kept) m' n' ∧
      SysInv lay m' spaces (mapAt pm p.pagetable (stval / PGSIZE) (some (q, perm)))
        (insert q kept) := by
  have hr := mem_rootsOf hp
  obtain ⟨hlook, hlook'⟩ := (h.stage t).lookup hr stval
  rw [handleUserPageFault, hlook, ok_bind] at e
  by_cases hav : stval < sp ∧ (pm p.pagetable (stval / PGSIZE)).elim 0 Prod.fst = 0
  · simp only [hav, and_self, if_true, throw_eq_error, error_bind] at e
    cases e
  simp only [hav, if_false] at e
  obtain ⟨⟨q, m₁⟩, e₁, e⟩ := (bind_ok_iff _ _ _).1 e
  obtain ⟨⟨pte, m₂⟩, e₂, e⟩ := (bind_ok_iff _ _ _).1 e
  obtain ⟨w, e₃, e⟩ := (bind_ok_iff _ _ _).1 e
  obtain ⟨⟨z, m₃⟩, e₄, e⟩ := (bind_ok_iff _ _ _).1 e
  cases e
  obtain ⟨n₁, f₁, h₁, hq⟩ := (h.stage t).take e₁
  obtain ⟨hhead, hs₁⟩ := (h.stage t).head e₁
  have h0 : pte ≠ 0 := by
    rintro rfl
    cases e₃
  have hw : m₂.mem pte = w := by
    rw [Mach.load, if_neg h0] at e₃
    exact Except.ok.inj e₃
  simp only [Mach.clear_eq hw] at e₄
  obtain ⟨n₂, n₃, f₂, hw', f₄, h₂⟩ := h₁.rebase.remap hr (.inl rfl)
    (Stage.mappable_fresh (Set.mem_insert q kept) (fun h0 => (hq h0).2) stval) (protToType_lt _ _)
    (by decide) e₂ h0 e₄
  have h₂' := h₁.after h₂
  refine ⟨n₃, q, _, ?_, hhead, fun h0 => (hq h0).1, ?_, ?_,
    (hs₁.mono (Set.subset_univ _)).trans (h₂.same.mono ?_), h₂',
    h.of_stage h₂' (h.fixed_fresh fun h0 => (hq h0).1)⟩
  · have hload : n₂.load pte = .ok w := (if_neg h0).trans (congrArg _ (hw'.trans hw))
    simp only [handleUserPageFault, hlook', ok_bind, hav, if_false, f₁, f₂, hload,
      Mach.clear_eq (hw'.trans hw), f₄, pure_eq_ok]
  · split <;> decide
  · split <;> decide
  · exact Set.singleton_subset_iff.2 (Set.mem_insert _ _)

/-- A write to a kept page. -/
theorem write (h : SysInv lay m spaces pm kept) (hx : x ∈ kept) (ht : Touches x m m') :
    SysInv lay m' spaces pm kept := by
  obtain ⟨l, hl⟩ := h.tables
  obtain ⟨h', hs⟩ := hl.write hx ht.mem ht.head ht.lock ht.start
  exact ⟨⟨l, h'⟩, h.distinct, h.space, h.fixed, h.trapSec, hs.start ▸ h.low⟩

theorem translate {kind : ℕ} (h : SysInv lay m spaces pm kept) (hp : p ∈ spaces)
    (hk : kind < 2 ^ 10)
    (va : ℕ) : translate p.pagetable kind va m =
      (pm p.pagetable (va / PGSIZE)).bind fun x =>
        if Allows kind x.2 then some (x.1 + va % PGSIZE) else none := by
  obtain ⟨l, hl⟩ := h.tables
  exact (hl.table _ (mem_rootsOf hp)).translate hk va

theorem storeAccess {f perm b : ℕ} (h : SysInv lay m spaces pm kept) (hp : p ∈ spaces)
    (hv : pm p.pagetable (va / PGSIZE) = some (f, perm))
    (e : storeAccess (f + va % PGSIZE) b m = .ok m') :
    DRAM_BASE ≤ f ∧ m' = m.setByte (f + va % PGSIZE) b ∧ SysInv lay m' spaces pm kept := by
  have hmod : va % PGSIZE < PGSIZE := Nat.mod_lt _ (by decide)
  rw [Mm.storeAccess] at e
  split at e
  · cases e
  rename_i hlow
  cases e
  obtain ⟨l, hl⟩ := h.tables
  have hf := hl.framed _ (mem_rootsOf hp) _ f perm hv
  refine ⟨?_, rfl, h.write hf (Mach.setByte_touches (hl.keptPage f hf).1 (by omega) (by omega))⟩
  have hfp := (hl.keptPage f hf).1
  simp only [PGSIZE, DRAM_BASE] at *
  omega

/-- **A store of a byte in user mode**: to the frame of its page, if that may be written, else to
the page that the fault maps. -/
theorem userStore {sp b : ℕ} (h : SysInv lay m spaces pm kept) (hp : p ∈ spaces)
    (e : userStore va sp b p m = .ok m') :
    (∃ f perm, pm p.pagetable (va / PGSIZE) = some (f, perm) ∧ Allows PTE_W perm ∧
      DRAM_BASE ≤ f ∧ m' = m.setByte (f + va % PGSIZE) b ∧ SysInv lay m' spaces pm kept) ∨
    ∃ q perm m₁, (∀ f perm, pm p.pagetable (va / PGSIZE) = some (f, perm) → ¬ Allows PTE_W perm) ∧
      q ∉ kept ∧ DRAM_BASE ≤ q ∧ Allows PTE_W perm ∧ Allows PTE_R perm ∧ SameOn kept m m₁ ∧
      m' = m₁.setByte (q + va % PGSIZE) b ∧
      SysInv lay m' spaces (mapAt pm p.pagetable (va / PGSIZE) (some (q, perm)))
          (insert q kept) := by
  rw [Mm.userStore] at e
  split at e
  · rename_i pa ht
    rw [h.translate hp (by decide)] at ht
    obtain ⟨⟨f, perm⟩, hv, ht⟩ := Option.bind_eq_some_iff.1 ht
    obtain ⟨hw, ht⟩ := Option.ite_none_right_eq_some.1 ht
    rw [← Option.some.inj ht] at e
    obtain ⟨h0, hm, h'⟩ := h.storeAccess hp hv e
    exact .inl ⟨f, perm, hv, hw, h0, hm, h'⟩
  · rename_i ht
    rw [h.translate hp (by decide)] at ht
    obtain ⟨m₁, e₁, e⟩ := (bind_ok_iff _ _ _).1 e
    obtain ⟨n₁, q, perm, -, -, hq, hw, hrd, -, hs, h₁⟩ := h.fault .refl hp e₁
    rw [h₁.translate hp (by decide), mapAt_self, Option.bind_some, if_pos hw] at e
    obtain ⟨h0, hm, h'⟩ := h₁.storeAccess hp (mapAt_self _ _ _ _) e
    have hq0 : q ≠ 0 := by
      simp only [DRAM_BASE] at h0
      omega
    refine .inr ⟨q, perm, m₁, fun f perm hv hw => ?_, hq hq0, h0, hw, hrd, hs.same, hm, h'⟩
    rw [hv, Option.bind_some, if_pos hw] at ht
    cases ht

/-- A store of any byte to the same place in a twin. -/
theorem storeAccess_twin {f perm b : ℕ} (h : SysInv lay m spaces pm kept) (t : Twin kept m n)
    (hp : p ∈ spaces) (hv : pm p.pagetable (va / PGSIZE) = some (f, perm))
    (e : Mm.storeAccess (f + va % PGSIZE) b m = .ok m') (b' : ℕ) :
    ∃ n', Mm.storeAccess (f + va % PGSIZE) b' n = .ok n' ∧ Twin kept m' n' := by
  have hmod : va % PGSIZE < PGSIZE := Nat.mod_lt _ (by decide)
  obtain ⟨hlow, rfl, -⟩ := h.storeAccess hp hv e
  obtain ⟨l, hl⟩ := h.tables
  have hf := hl.framed _ (mem_rootsOf hp) _ f perm hv
  have htouch : ∀ (m : Mach) (b : ℕ), Touches f m (m.setByte (f + va % PGSIZE) b) := fun m b =>
    Mach.setByte_touches (hl.keptPage f hf).1 (by omega) (by omega)
  exact ⟨_, if_neg (by omega), t.write hl hf (htouch m b) (htouch n b')⟩

/-- **A store of a byte in user mode**, and of another one in a twin. -/
theorem userStore_twin {sp b : ℕ} (h : SysInv lay m spaces pm kept) (t : Twin kept m n)
    (hp : p ∈ spaces) (e : Mm.userStore va sp b p m = .ok m') (b' : ℕ) :
    ∃ n' pm' kept', Mm.userStore va sp b' p n = .ok n' ∧ Twin kept' m' n' ∧
      SysInv lay m' spaces pm' kept' := by
  have hk : PTE_W < 2 ^ 10 := by decide
  have htr := h.translate hp hk va
  have htr' := (h.twin t).translate hp hk va
  have heq : Mm.translate p.pagetable PTE_W va n = Mm.translate p.pagetable PTE_W va m :=
    htr'.trans htr.symm
  rw [Mm.userStore] at e
  rw [Mm.userStore, heq]
  split at e
  · rename_i pa ht
    rw [htr] at ht
    obtain ⟨⟨f, perm⟩, hv, ht⟩ := Option.bind_eq_some_iff.1 ht
    obtain ⟨-, ht⟩ := Option.ite_none_right_eq_some.1 ht
    obtain rfl := Option.some.inj ht
    obtain ⟨n', f₁, t'⟩ := h.storeAccess_twin t hp hv e b'
    exact ⟨n', pm, kept, f₁, t', (h.storeAccess hp hv e).2.2⟩
  · obtain ⟨m₁, e₁, e⟩ := (bind_ok_iff _ _ _).1 e
    obtain ⟨n₁, q, perm, f₁, -, -, hw, -, -, hs, h₁⟩ := h.fault t hp e₁
    have hq := mapAt_self pm p.pagetable (va / PGSIZE) (some (q, perm))
    have htr₁ : ∀ {x : Mach}, SysInv lay x spaces
        (mapAt pm p.pagetable (va / PGSIZE) (some (q, perm))) (insert q kept) →
        Mm.translate p.pagetable PTE_W va x = some (q + va % PGSIZE) := by
      intro x hx
      rw [hx.translate hp (by decide), hq, Option.bind_some, if_pos hw]
    rw [htr₁ h₁] at e
    obtain ⟨n', f₂, t'⟩ := h₁.storeAccess_twin hs.twin hp hq e b'
    refine ⟨n', _, _, ?_, t', (h₁.storeAccess hp hq e).2.2⟩
    simp only [f₁, ok_bind, htr₁ (h₁.twin hs.twin), f₂]

end SysInv

end HustOS.Mm
