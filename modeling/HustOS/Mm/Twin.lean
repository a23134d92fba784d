import HustOS.Mm.Spaces

/-!
# Two memories with the same tables

`Twin kept m n`: the memories `m` and `n` have the same globals, the same links between the free
pages, and agree on every page that is neither kept nor free, which the page tables are. The kernel
reads nothing else to decide what it does, so an operation that succeeds in `m` succeeds in `n`,
returns the same, and leaves memories that are twins again. What the pages hold may differ: the
bytes of the processes, and whatever a free page has behind its link.

There is one lemma for each operation of `Spaces`.
-/

namespace HustOS.Mm

open Foundations

variable {m m' n n' : Mach} {roots kept : Set ℕ} {pm : ℕ → PageMap} {l : List ℕ}
  {r va size pa perm pte q w x : ℕ}

/-! ## Writing to one page -/

/-- Nothing but the page `x` is written. -/
structure Touches (x : ℕ) (m m' : Mach) : Prop where
  mem : ∀ a, ¬ (x ≤ a ∧ a < x + PGSIZE) → m'.mem a = m.mem a
  head : m'.gFreeMemList = m.gFreeMemList
  lock : m'.count5 = m.count5
  start : m'.freeMemStartAddr = m.freeMemStartAddr
  stop : m'.freeMemEndAddr = m.freeMemEndAddr

theorem Mach.store_touches {a v : ℕ} (h₁ : x ≤ a) (h₂ : a < x + PGSIZE) :
    Touches x m (m.store a v) := by
  refine ⟨fun b hb => Mach.store_of_ne _ _ ?_, rfl, rfl, rfl, rfl⟩
  rintro rfl
  exact hb ⟨h₁, h₂⟩

/-- An entry is not where a free page starts. -/
theorem Spaces.slot_notMem (h : Spaces m roots pm kept l) (hr : r ∈ roots) (hx : IsTable r m x)
    (k : Fin 512) : x + 8 * k.1 ∉ l := by
  intro hm
  obtain ⟨hxq, -⟩ := slot_inj (b := 0) ((h.table r hr).page x hx).1 (h.page _ hm).1 k.2 (by omega)
    (by omega)
  exact h.tablePool r hr _ hm (hxq ▸ hx)

/-! ## Twins -/

/-- The memories differ in the pages `kept` and behind the links of the free pages only. -/
structure Twin (kept : Set ℕ) (m n : Mach) : Prop where
  start : n.freeMemStartAddr = m.freeMemStartAddr
  stop : n.freeMemEndAddr = m.freeMemEndAddr
  head : n.gFreeMemList = m.gFreeMemList
  lock : n.count5 = m.count5
  link : ∀ l, Chain 0 m.mem m.gFreeMemList l → ∀ q ∈ l, n.mem q = m.mem q
  mem : ∀ l, Chain 0 m.mem m.gFreeMemList l → ∀ x, PGSIZE ∣ x → x ∉ kept → x ∉ l →
    ∀ a, x ≤ a → a < x + PGSIZE → n.mem a = m.mem a

namespace Twin

theorem refl : Twin kept m m :=
  ⟨rfl, rfl, rfl, rfl, fun _ _ _ _ => rfl, fun _ _ _ _ _ _ _ _ _ => rfl⟩

/-- The free list of a memory is one, so it is enough to look at it. -/
theorem of_chain (c : Chain 0 m.mem m.gFreeMemList l)
    (hstart : n.freeMemStartAddr = m.freeMemStartAddr) (hstop : n.freeMemEndAddr = m.freeMemEndAddr)
    (hhead : n.gFreeMemList = m.gFreeMemList) (hlock : n.count5 = m.count5)
    (hlink : ∀ q ∈ l, n.mem q = m.mem q)
    (hmem : ∀ x, PGSIZE ∣ x → x ∉ kept → x ∉ l → ∀ a, x ≤ a → a < x + PGSIZE → n.mem a = m.mem a) :
    Twin kept m n :=
  ⟨hstart, hstop, hhead, hlock, fun _ c' => c.unique c' ▸ hlink, fun _ c' => c.unique c' ▸ hmem⟩

/-- The tables are the same. -/
theorem slot (t : Twin kept m n) (h : Spaces m roots pm kept l) (hr : r ∈ roots)
    (hx : IsTable r m x) (k : Fin 512) : n.mem (x + 8 * k) = m.mem (x + 8 * k) :=
  t.mem l h.chain x ((h.table r hr).page x hx).1 (fun hk => h.keptTable r hr x hk hx)
    (fun hl => h.tablePool r hr x hl hx) _ (slot_mem x k).1 (slot_mem x k).2

theorem spaces (t : Twin kept m n) (h : Spaces m roots pm kept l) : Spaces n roots pm kept l :=
  h.congr (fun _ hr _ hx k => t.slot h hr hx k) (t.link l h.chain) t.head t.lock

theorem nodeAt_eq (t : Twin kept m n) (h : Spaces m roots pm kept l) (hr : r ∈ roots)
    {P : List (Fin 512)} (hP : P.length ≤ 2) : nodeAt (entry n) r P = nodeAt (entry m) r P :=
  nodeAt_congr (fun y ⟨Y, hY, hy⟩ k => entry_congr (t.slot h hr ⟨Y, by omega, hy⟩ k)) hP

/-- **Two writes to a kept page.** -/
theorem write (t : Twin kept m n) (h : Spaces m roots pm kept l) (hx : x ∈ kept)
    (hm : Touches x m m') (hn : Touches x n n') : Twin kept m' n' := by
  have hxp := (h.keptPage x hx).1
  have hfree : ∀ q ∈ l, ¬ (x ≤ q ∧ q < x + PGSIZE) := by
    intro q hq
    have hne : q ≠ x := fun e => h.keptPool x hx (e ▸ hq)
    exact page_apart (h.page q hq).1 hxp hne le_rfl (by simp only [PGSIZE]; omega)
  have c : Chain 0 m'.mem m'.gFreeMemList l :=
    hm.head ▸ h.chain.congr fun q hq => hm.mem q (hfree q hq)
  refine .of_chain c (hn.start.trans (t.start.trans hm.start.symm))
    (hn.stop.trans (t.stop.trans hm.stop.symm)) (hn.head.trans (t.head.trans hm.head.symm))
    (hn.lock.trans (t.lock.trans hm.lock.symm)) (fun q hq => ?_) fun y hy hyk hyl a h₁ h₂ => ?_
  · rw [hn.mem q (hfree q hq), hm.mem q (hfree q hq)]
    exact t.link l h.chain q hq
  · have hout := page_apart hy hxp (fun e => hyk (e ▸ hx)) h₁ h₂
    rw [hn.mem a hout, hm.mem a hout]
    exact t.mem l h.chain y hy hyk hyl a h₁ h₂

/-- **The same word in both memories.** -/
theorem store {a v : ℕ} (t : Twin kept m n) (c : Chain 0 m.mem m.gFreeMemList l) (ha : a ∉ l) :
    Twin kept (m.store a v) (n.store a v) := by
  have hmem : ∀ b, n.mem b = m.mem b → (n.store a v).mem b = (m.store a v).mem b := by
    intro b hb
    by_cases hab : b = a
    · rw [hab, Mach.store_self, Mach.store_self]
    · rw [Mach.store_of_ne _ _ hab, Mach.store_of_ne _ _ hab, hb]
  exact .of_chain (c.update_of_notMem ha) t.start t.stop t.head t.lock
    (fun q hq => hmem q (t.link l c q hq))
    (fun x hx hk hl b h₁ h₂ => hmem b (t.mem l c x hx hk hl b h₁ h₂))

/-- **A page becomes a directory.** -/
theorem root (t : Twin (insert q kept) m n) (hm : ∀ a, q ≤ a → a < q + PGSIZE → m.mem a = 0)
    (hn : ∀ a, q ≤ a → a < q + PGSIZE → n.mem a = 0) : Twin kept m n := by
  refine ⟨t.start, t.stop, t.head, t.lock, t.link, fun l c x hx hk hl a h₁ h₂ => ?_⟩
  by_cases hxq : x = q
  · subst hxq
    rw [hm a h₁ h₂, hn a h₁ h₂]
  · exact t.mem l c x hx (fun h => h.elim hxq hk) hl a h₁ h₂

end Twin

/-- `alloc_page` when the list is not locked. -/
theorem allocPage_eq (hlock : m.count5 = 1) : allocPage m = .ok (m.gFreeMemList,
    { m with gFreeMemList := if m.gFreeMemList = 0 then 0 else m.mem m.gFreeMemList }) := by
  have hc : m.count5 - 1 + 1 = m.count5 := by omega
  rw [allocPage, semP, if_neg (by omega)]
  simp only [pure_eq_ok, ok_bind]
  by_cases h0 : m.gFreeMemList = 0
  · rw [if_pos h0, if_pos h0, semV]
    simp only [hc]
    rw [← h0]
  · rw [if_neg h0, if_neg h0, semV]
    simp only [hc]

namespace Twin

/-- **A page from the free list.** -/
theorem take (t : Twin kept m n) (h : Spaces m roots pm kept l) (e : allocPage m = .ok (q, m')) :
    ∃ n', allocPage n = .ok (q, n') ∧ n'.mem = n.mem ∧ Twin (insert q kept) m' n' := by
  rw [allocPage_eq h.unlocked] at e
  obtain ⟨rfl, rfl⟩ := Prod.mk.inj (Except.ok.inj e)
  rw [allocPage_eq (t.lock.trans h.unlocked), t.head]
  refine ⟨_, rfl, rfl, ?_⟩
  by_cases h0 : m.gFreeMemList = 0
  · simp only [h0, if_true]
    have hl : l = [] := Chain.eq_nil (h0 ▸ h.chain)
    subst hl
    refine .of_chain (l := []) rfl t.start t.stop rfl t.lock nofun fun x hx hk hl => ?_
    exact t.mem [] h.chain x hx (fun h => hk (.inr h)) hl
  · obtain ⟨l', rfl, c⟩ := h.chain.exists_cons h0
    simp only [h0, if_false]
    refine .of_chain c t.start t.stop (t.link _ h.chain _ List.mem_cons_self) t.lock
      (fun q hq => t.link _ h.chain q (List.mem_cons_of_mem _ hq)) fun x hx hk hl => ?_
    refine t.mem _ h.chain x hx (fun h => hk (.inr h)) fun h => ?_
    rcases List.mem_cons.1 h with rfl | h
    · exact hk (.inl rfl)
    · exact hl h

/-- **One level of a walk.** -/
theorem walkStep {p level : ℕ} {o : Option ℕ} (t : Twin kept m n) (h : Spaces m roots pm kept l)
    (hr : r ∈ roots) (hp : IsTable r m p) (e : walkStep level va true p m = .ok (o, m')) :
    ∃ n', Mm.walkStep level va true p n = .ok (o, n') ∧ Twin kept m' n' := by
  have hword := t.slot h hr hp ⟨px level va, px_lt level va⟩
  simp only at hword
  rw [Mm.walkStep] at e ⊢
  rw [hword]
  by_cases hv : m.mem (p + 8 * px level va) &&& PTE_V ≠ 0
  · rw [if_pos hv] at e ⊢
    cases e
    exact ⟨n, rfl, t⟩
  rw [if_neg hv, if_pos rfl] at e ⊢
  obtain ⟨⟨q, m₁⟩, e₁, e⟩ := (bind_ok_iff _ _ _).1 e
  obtain ⟨n₁, f₁, -, t₁⟩ := t.take h e₁
  obtain ⟨l₁, h₁, hs₁, -⟩ := h.take e₁
  simp only [f₁, ok_bind]
  by_cases h0 : q = 0
  · simp only [h0, ne_eq, not_true, if_false, pure_eq_ok] at e ⊢
    obtain ⟨rfl, rfl⟩ := Prod.mk.inj (Except.ok.inj e)
    subst h0
    exact ⟨n₁, rfl, by rwa [Set.insert_eq_of_mem h.null] at t₁⟩
  · simp only [ne_eq, h0, not_false_iff, if_true, pure_eq_ok] at e ⊢
    obtain ⟨rfl, rfl⟩ := Prod.mk.inj (Except.ok.inj e)
    have hzero : ∀ m : Mach, Touches q m (m.zeroPage q) ∧
        ∀ a, q ≤ a → a < q + PGSIZE → (m.zeroPage q).mem a = 0 := fun m =>
      ⟨⟨fun a ha => if_neg ha, rfl, rfl, rfl, rfl⟩, fun a h₁ h₂ => if_pos ⟨h₁, h₂⟩⟩
    have t₂ := (t₁.write h₁ (Set.mem_insert q kept) (hzero m₁).1 (hzero n₁).1).root (hzero m₁).2
      (hzero n₁).2
    refine ⟨_, rfl, t₂.store (l := l₁) ?_ ?_⟩
    · exact (h₁.write (Set.mem_insert q kept) (hzero m₁).1.mem rfl rfl rfl).1.chain
    · have hp₁ : IsTable r m₁ p := by
        refine (Spaces.tables_iff (fun x _ k => ?_) p).2 hp
        exact hs₁.mem x trivial _ (slot_mem x k).1 (slot_mem x k).2
      exact h₁.slot_notMem hr hp₁ ⟨px level va, px_lt level va⟩

/-- **A walk that may allocate.** -/
theorem walk (t : Twin kept m n) (h : Spaces m roots pm kept l) (hr : r ∈ roots)
    (e : pageWalk r va true m = .ok (pte, m')) :
    ∃ n', pageWalk r va true n = .ok (pte, n') ∧ Twin kept m' n' := by
  rw [pageWalk] at e ⊢
  split at e
  · cases e
  rename_i hva
  rw [if_neg hva]
  obtain ⟨⟨o₁, m₁⟩, e₁, e⟩ := (bind_ok_iff _ _ _).1 e
  obtain ⟨n₁, f₁, t₁⟩ := t.walkStep h hr (isTable_root r m) e₁
  obtain ⟨l₁, h₁, -, hq₁, -⟩ := h.walkStep hr nodeAt_nil (by simp) e₁
  simp only [f₁, ok_bind]
  cases o₁ with
  | none =>
    cases e
    exact ⟨n₁, rfl, t₁⟩
  | some p =>
    obtain ⟨⟨o₂, m₂⟩, e₂, e⟩ := (bind_ok_iff _ _ _).1 e
    obtain ⟨n₂, f₂, t₂⟩ := t₁.walkStep h₁ hr ⟨_, by simp, hq₁ p rfl⟩ e₂
    simp only [f₂, ok_bind]
    cases o₂ with
    | none =>
      cases e
      exact ⟨n₂, rfl, t₂⟩
    | some q =>
      cases e
      exact ⟨n₂, rfl, t₂⟩

/-- **`map_pages` over an entry** that holds any word. -/
theorem remap {x : ℕ} {z : ℤ} (t : Twin kept m n) (h : Spaces m roots pm kept l) (hr : r ∈ roots)
    (hone : Spaces.OnePage va size) (hva : va < MAXVA)
    (hq : nodeAt (entry m) r [idx 2 va, idx 1 va] = some q)
    (e : mapPages r va size pa perm (m.store (q + 8 * px 0 va) x) = .ok (z, m')) :
    ∃ n', mapPages r va size pa perm (n.store (q + 8 * px 0 va) x) = .ok (z, n') ∧
        Twin kept m' n' := by
  have hqt : IsTable r m q := ⟨_, by simp, hq⟩
  have hq0 := ((h.table r hr).page q hqt).2.1
  have hm : nodeAt (entry (m.store (q + 8 * px 0 va) x)) r [idx 2 va, idx 1 va] = some q :=
    ((h.table r hr).nodeAt_store (k := idx 0 va) hq _ (by simp)).trans hq
  have hq' : nodeAt (entry n) r [idx 2 va, idx 1 va] = some q :=
    (t.nodeAt_eq h hr (by simp)).trans hq
  have hn : nodeAt (entry (n.store (q + 8 * px 0 va) x)) r [idx 2 va, idx 1 va] = some q :=
    (((t.spaces h).table r hr).nodeAt_store (k := idx 0 va) hq' _ (by simp)).trans hq'
  rw [mapPages_at hva (hone.last hva) hm (by omega), Mach.store_self] at e
  rw [mapPages_at hva (hone.last hva) hn (by omega), Mach.store_self]
  split at e
  · cases e
  rename_i hx
  obtain ⟨rfl, rfl⟩ := Prod.mk.inj (Except.ok.inj e)
  rw [if_neg hx, Mach.store_store, Mach.store_store]
  exact ⟨_, rfl, t.store h.chain (h.slot_notMem hr hqt (idx 0 va))⟩

/-- **`map_pages` of one page.** -/
theorem map {z : ℤ} (t : Twin kept m n) (h : Spaces m roots pm kept l) (hr : r ∈ roots)
    (hone : Spaces.OnePage va size) (e : mapPages r va size pa perm m = .ok (z, m')) :
    ∃ n', mapPages r va size pa perm n = .ok (z, n') ∧ Twin kept m' n' := by
  have e' := e
  rw [mapPages] at e'
  obtain ⟨⟨pte, m₁⟩, e₁, e'⟩ := (bind_ok_iff _ _ _).1 e'
  obtain ⟨l', h₁, -, hva, hpte, -⟩ := h.walk hr e₁
  obtain ⟨n₁, f₁, t₁⟩ := t.walk h hr e₁
  have h0 : pte ≠ 0 := by
    rintro rfl
    cases e'
  obtain ⟨q, rfl, hq⟩ := hpte h0
  have hq' : nodeAt (entry n₁) r [idx 2 va, idx 1 va] = some q :=
    (t₁.nodeAt_eq h₁ hr (by simp)).trans hq
  -- what follows the walk is the same as after a walk in its result
  have hwalk : ∀ {m m₁ : Mach}, pageWalk r va true m = .ok (q + 8 * px 0 va, m₁) →
      nodeAt (entry m₁) r [idx 2 va, idx 1 va] = some q →
      mapPages r va size pa perm m = mapPages r va size pa perm
        (m₁.store (q + 8 * px 0 va) (m₁.mem (q + 8 * px 0 va))) := by
    intro m m₁ hw hq
    rw [Mach.store_mem, mapPages, mapPages, hw, pageWalk_at hva hq true]
  have hword := t₁.slot h₁ hr ⟨_, by simp, hq⟩ (idx 0 va)
  rw [hwalk e₁ hq] at e
  rw [hwalk f₁ hq', show n₁.mem (q + 8 * px 0 va) = m₁.mem (q + 8 * px 0 va) from hword]
  exact t₁.remap h₁ hr hone hva hq e

/-- **`user_vm_unmap` of a mapped page.** -/
theorem unmap {f : ℕ} (t : Twin kept m n) (h : Spaces m roots pm kept l) (hr : r ∈ roots)
    (hva : PGSIZE ∣ va) (hv : pm r (va / PGSIZE) = some (f, perm)) (h0 : f ≠ 0)
    (hother : ∀ r' ∈ roots, ∀ v perm', pm r' v = some (f, perm') → r' = r ∧ v = va / PGSIZE)
    (e : userVmUnmap r va size 1 m = .ok m') :
    ∃ n', userVmUnmap r va size 1 n = .ok n' ∧ Twin (kept \ {f}) m' n' := by
  have hchain := (h.unmap hr hva hv h0 hother e).2.chain
  obtain ⟨q, hq, -, hm⟩ := (h.table r hr).unmap_eq hv size
  obtain ⟨q', hq', -, hn⟩ := ((t.spaces h).table r hr).unmap_eq hv size
  obtain rfl : q = q' :=
    Option.some.inj (hq.symm.trans ((t.nodeAt_eq h hr (by simp)).symm.trans hq'))
  have hword := t.slot h hr ⟨_, by simp, hq⟩ (idx 0 va)
  rw [t.start, t.stop, t.head,
    show n.mem (q + 8 * px 0 va) = m.mem (q + 8 * px 0 va) from hword] at hn
  rw [hm] at e
  split at e
  · cases e
  rename_i hrange
  rw [if_neg hrange] at hn
  obtain rfl := Except.ok.inj e
  rw [Nat.mod_eq_zero_of_dvd hva, Nat.add_zero] at hn hchain ⊢
  -- the two stores leave the same words where there were the same, and at the link
  have hmem : ∀ b w, b = f ∨ n.mem b = m.mem b →
      ((n.store f m.gFreeMemList).store (q + 8 * px 0 va) w).mem b =
        ((m.store f m.gFreeMemList).store (q + 8 * px 0 va) w).mem b := by
    intro b w hb
    by_cases hbq : b = q + 8 * px 0 va
    · rw [hbq, Mach.store_self, Mach.store_self]
    · rw [Mach.store_of_ne _ _ hbq, Mach.store_of_ne _ _ hbq]
      by_cases hbf : b = f
      · rw [hbf, Mach.store_self, Mach.store_self]
      · rw [Mach.store_of_ne _ _ hbf, Mach.store_of_ne _ _ hbf, hb.resolve_left hbf]
  refine ⟨_, hn, .of_chain hchain t.start t.stop rfl t.lock (fun b hb => hmem b _ ?_)
    fun x hx hk hl a h₁ h₂ => hmem a _ (.inr ?_)⟩
  · exact (List.mem_cons.1 hb).imp_right (t.link l h.chain b)
  · have hxf : x ≠ f := fun e => hl (e ▸ List.mem_cons_self)
    exact t.mem l h.chain x hx (fun hm => hk ⟨hm, hxf⟩) (fun hm => hl (List.mem_cons_of_mem f hm)) a
      h₁ h₂

end Twin

end HustOS.Mm
