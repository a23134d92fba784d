import HustOS.Mm.Space

/-!
# Several page tables in one memory

`Spaces m roots pm kept l`: the memory `m` holds the page tables with the directories `roots`, each
a map `pm r` from pages to frames, and the free list `l`. The pages `kept` are those handed out that
are neither tables nor free; the frames that the tables map are among them, each at the same page in
all tables that map it. Tables, free pages and kept pages are apart, so an operation on one table
leaves the others alone (`Spaces.replace`).

One lemma for each thing that happens to a page: it is taken from the free list (`Spaces.take`),
becomes a directory (`Spaces.root`), is mapped (`Spaces.leaf`, `Spaces.map`), written
(`Spaces.write`), or given back (`Spaces.give`).
-/

namespace HustOS.Mm

open Foundations

variable {m m' : Mach} {roots kept kept' : Set ℕ} {pm : ℕ → PageMap} {l l' : List ℕ}
  {r va size pa perm pte q w : ℕ}

/-- The pages of `kept` have the same contents, and the free memory starts where it did. -/
structure SameOn (kept : Set ℕ) (m m' : Mach) : Prop where
  start : m'.freeMemStartAddr = m.freeMemStartAddr
  mem : ∀ x ∈ kept, ∀ a, x ≤ a → a < x + PGSIZE → m'.mem a = m.mem a

theorem SameOn.refl : SameOn kept m m := ⟨rfl, fun _ _ _ _ _ => rfl⟩

theorem SameOn.trans {m'' : Mach} (h : SameOn kept m m') (h' : SameOn kept m' m'') :
    SameOn kept m m'' :=
  ⟨h'.start.trans h.start, fun x hx a ha hb => (h'.mem x hx a ha hb).trans (h.mem x hx a ha hb)⟩

theorem SameOn.mono (h : SameOn kept' m m') (hk : kept ⊆ kept') : SameOn kept m m' :=
  ⟨h.start, fun x hx => h.mem x (hk hx)⟩

/-- The maps after the entry of the page `v` in the tables of `r` has become `e`. -/
def mapAt (pm : ℕ → PageMap) (r v : ℕ) (e : Option (ℕ × ℕ)) : ℕ → PageMap :=
  Function.update pm r (Function.update (pm r) v e)

theorem mapAt_apply (pm : ℕ → PageMap) (r v : ℕ) (e : Option (ℕ × ℕ)) (r' v' : ℕ) :
    mapAt pm r v e r' v' = if r' = r ∧ v' = v then e else pm r' v' := by
  by_cases hr : r' = r
  · subst hr
    simp only [mapAt, Function.update_self, Function.update_apply, true_and]
  · simp only [mapAt, Function.update_of_ne hr, hr, false_and, if_false]

@[simp] theorem mapAt_self (pm : ℕ → PageMap) (r v : ℕ) (e : Option (ℕ × ℕ)) :
    mapAt pm r v e r v = e := by
  simp only [mapAt, Function.update_self]

theorem mapAt_of_ne {pm : ℕ → PageMap} {r v r' : ℕ} {e : Option (ℕ × ℕ)} (h : r' ≠ r) :
    mapAt pm r v e r' = pm r' :=
  Function.update_of_ne h _ _

/-- What is mapped stays mapped when a free entry is filled. -/
theorem mapAt_keep {pm : ℕ → PageMap} {r v r' v' : ℕ} {e : Option (ℕ × ℕ)} {x : ℕ × ℕ}
    (hnone : pm r v = none) (hx : pm r' v' = some x) : mapAt pm r v e r' v' = some x := by
  rw [mapAt_apply, if_neg, hx]
  rintro ⟨rfl, rfl⟩
  rw [hnone] at hx
  cases hx

/-- The page tables of a memory, its free pages and its kept pages. -/
structure Spaces (m : Mach) (roots : Set ℕ) (pm : ℕ → PageMap) (kept : Set ℕ) (l : List ℕ) :
    Prop where
  chain : Chain 0 m.mem m.gFreeMemList l
  nodup : l.Nodup
  unlocked : m.count5 = 1
  page : ∀ q ∈ l, PGSIZE ∣ q ∧ q < 2 ^ 56
  table : ∀ r ∈ roots, PtInv r m (pm r)
  apart : ∀ r ∈ roots, ∀ r' ∈ roots, ∀ x, IsTable r m x → IsTable r' m x → r = r'
  tablePool : ∀ r ∈ roots, ∀ x ∈ l, ¬ IsTable r m x
  keptPage : ∀ x ∈ kept, PGSIZE ∣ x ∧ x < 2 ^ 56
  keptTable : ∀ r ∈ roots, ∀ x ∈ kept, ¬ IsTable r m x
  keptPool : ∀ x ∈ kept, x ∉ l
  framed : ∀ r ∈ roots, ∀ v f perm, pm r v = some (f, perm) → f ∈ kept
  home : ∀ r ∈ roots, ∀ r' ∈ roots, ∀ v v' f perm perm', f ≠ 0 → pm r v = some (f, perm) →
    pm r' v' = some (f, perm') → v = v'
  null : 0 ∈ kept

/-- Pages are apart or equal. -/
theorem page_apart {x y a : ℕ} (hx : PGSIZE ∣ x) (hy : PGSIZE ∣ y) (hxy : x ≠ y) (h₁ : x ≤ a)
    (h₂ : a < x + PGSIZE) : ¬ (y ≤ a ∧ a < y + PGSIZE) := by
  obtain ⟨x, rfl⟩ := hx
  obtain ⟨y, rfl⟩ := hy
  simp only [PGSIZE] at *
  omega

/-- An entry lies in its table. -/
theorem slot_mem (x : ℕ) (k : Fin 512) : x ≤ x + 8 * k.1 ∧ x + 8 * k.1 < x + PGSIZE := by
  simp only [PGSIZE]
  omega

theorem isTable_root (r : ℕ) (m : Mach) : IsTable r m r := ⟨[], by simp, rfl⟩

namespace Spaces

/-- The pages in use other than the tables of `r`. -/
def Others (m : Mach) (roots kept : Set ℕ) (r : ℕ) : Set ℕ :=
  {x | x ∈ kept ∨ ∃ r' ∈ roots, r' ≠ r ∧ IsTable r' m x}

theorem pool (h : Spaces m roots pm kept l) (hr : r ∈ roots) :
    FreshPool r m (pm r) (Others m roots kept r) l where
  chain := h.chain
  nodup := h.nodup
  unlocked := h.unlocked
  page := h.page
  table := h.tablePool r hr
  frame q hq v f perm hv e := h.keptPool f (h.framed r hr v f perm hv) (e ▸ hq)
  apart q hq hx := by
    rcases hx with hx | ⟨r', hr', -, hx⟩
    · exact h.keptPool q hx hq
    · exact h.tablePool r' hr' q hq hx
  frames_table x hx ht := by
    rcases hx with hx | ⟨r', hr', hne, hx⟩
    · exact h.keptTable r hr x hx ht
    · exact hne (h.apart r' hr' r hr x hx ht)

/-- A memory that agrees on the tables of `r` has the same ones. -/
theorem tables_iff
    (hm : ∀ x, IsTable r m x → ∀ k : Fin 512, m'.mem (x + 8 * k) = m.mem (x + 8 * k)) (x : ℕ) :
    IsTable r m' x ↔ IsTable r m x :=
  isTable_congr fun y ⟨Y, hY, hy⟩ k => entry_congr (hm y ⟨Y, by omega, hy⟩ k)

/-- **An operation on the tables of `r`** and the free list, which leaves the other tables alone. -/
theorem replace {map : PageMap} (h : Spaces m roots pm kept l)
    (hinv : PtInv r m' map) (hpool : FreshPool r m' map (Others m roots kept r) l')
    (hsame : ∀ r' ∈ roots, r' ≠ r → ∀ x, IsTable r' m x → ∀ k : Fin 512,
      m'.mem (x + 8 * k) = m.mem (x + 8 * k))
    (hframe : ∀ v f perm, map v = some (f, perm) → f ∈ kept)
    (hhome : ∀ r' ∈ roots, ∀ v v' f perm perm', f ≠ 0 → map v = some (f, perm) →
      Function.update pm r map r' v' = some (f, perm') → v = v') :
    Spaces m' roots (Function.update pm r map) kept l' := by
  have htab : ∀ r' ∈ roots, r' ≠ r → ∀ x, IsTable r' m' x ↔ IsTable r' m x :=
    fun r' hr' hne => tables_iff (hsame r' hr' hne)
  have hother : ∀ r' ∈ roots, r' ≠ r → ∀ x, IsTable r' m' x → ¬ IsTable r m' x := by
    intro r' hr' hne x hx hx'
    exact hpool.frames_table x (.inr ⟨r', hr', hne, (htab r' hr' hne x).1 hx⟩) hx'
  refine
    { chain := hpool.chain
      nodup := hpool.nodup
      unlocked := hpool.unlocked
      page := hpool.page
      table := fun r' hr' => ?_
      apart := fun r₁ h₁ r₂ h₂ x hx₁ hx₂ => ?_
      tablePool := fun r' hr' x hx hx' => ?_
      keptPage := h.keptPage
      keptTable := fun r' hr' x hx hx' => ?_
      keptPool := fun x hx hx' => hpool.apart x hx' (.inl hx)
      framed := fun r' hr' v f perm hv => ?_
      home := fun r₁ h₁ r₂ h₂ v v' f perm perm' h0 hv hv' => ?_
      null := h.null }
  · by_cases hne : r' = r
    · rw [hne, Function.update_self]
      exact hinv
    · rw [Function.update_of_ne hne]
      exact (h.table r' hr').congr (hsame r' hr' hne)
  · by_cases hne₁ : r₁ = r
    · by_cases hne₂ : r₂ = r
      · rw [hne₁, hne₂]
      · exact absurd (hne₁ ▸ hx₁) (hother r₂ h₂ hne₂ x hx₂)
    · by_cases hne₂ : r₂ = r
      · exact absurd (hne₂ ▸ hx₂) (hother r₁ h₁ hne₁ x hx₁)
      · exact h.apart r₁ h₁ r₂ h₂ x ((htab r₁ h₁ hne₁ x).1 hx₁) ((htab r₂ h₂ hne₂ x).1 hx₂)
  · by_cases hne : r' = r
    · exact hpool.table x hx (hne ▸ hx')
    · exact hpool.apart x hx (.inr ⟨r', hr', hne, (htab r' hr' hne x).1 hx'⟩)
  · by_cases hne : r' = r
    · exact hpool.frames_table x (.inl hx) (hne ▸ hx')
    · exact h.keptTable r' hr' x hx ((htab r' hr' hne x).1 hx')
  · by_cases hne : r' = r
    · rw [hne, Function.update_self] at hv
      exact hframe v f perm hv
    · rw [Function.update_of_ne hne] at hv
      exact h.framed r' hr' v f perm hv
  · by_cases hne : r₁ = r
    · rw [hne, Function.update_self] at hv
      exact hhome r₂ h₂ v v' f perm perm' h0 hv hv'
    · by_cases hne' : r₂ = r
      · rw [hne', Function.update_self] at hv'
        exact (hhome r₁ h₁ v' v f perm' perm h0 hv' hv).symm
      · rw [Function.update_of_ne hne] at hv
        rw [Function.update_of_ne hne'] at hv'
        exact h.home r₁ h₁ r₂ h₂ v v' f perm perm' h0 hv hv'

/-- A memory that agrees on the tables and the links of the free pages. -/
theorem congr (h : Spaces m roots pm kept l)
    (ht : ∀ r ∈ roots, ∀ x, IsTable r m x → ∀ k : Fin 512, m'.mem (x + 8 * k) = m.mem (x + 8 * k))
    (hl : ∀ q ∈ l, m'.mem q = m.mem q) (hhead : m'.gFreeMemList = m.gFreeMemList)
    (hlock : m'.count5 = m.count5) : Spaces m' roots pm kept l := by
  have htab : ∀ r ∈ roots, ∀ x, IsTable r m' x ↔ IsTable r m x := fun r hr =>
    tables_iff (ht r hr)
  exact
    { chain := hhead ▸ h.chain.congr hl
      nodup := h.nodup
      unlocked := hlock.trans h.unlocked
      page := h.page
      table := fun r hr => (h.table r hr).congr (ht r hr)
      apart := fun r hr r' hr' x hx hx' =>
        h.apart r hr r' hr' x ((htab r hr x).1 hx) ((htab r' hr' x).1 hx')
      tablePool := fun r hr x hx hx' => h.tablePool r hr x hx ((htab r hr x).1 hx')
      keptPage := h.keptPage
      keptTable := fun r hr x hx hx' => h.keptTable r hr x hx ((htab r hr x).1 hx')
      keptPool := h.keptPool
      framed := h.framed
      home := h.home
      null := h.null }

/-- **Writing into a kept page.** -/
theorem write {x : ℕ} (h : Spaces m roots pm kept l) (hx : x ∈ kept)
    (hm : ∀ a, ¬ (x ≤ a ∧ a < x + PGSIZE) → m'.mem a = m.mem a)
    (hhead : m'.gFreeMemList = m.gFreeMemList) (hlock : m'.count5 = m.count5)
    (hstart : m'.freeMemStartAddr = m.freeMemStartAddr) :
    Spaces m' roots pm kept l ∧ SameOn (kept \ {x}) m m' := by
  have hxp := (h.keptPage x hx).1
  refine ⟨h.congr (fun r hr y hy k => hm _ ?_) (fun q hq => hm _ ?_) hhead hlock,
    hstart, fun y hy a h₁ h₂ => hm a (page_apart (h.keptPage y hy.1).1 hxp hy.2 h₁ h₂)⟩
  · have hne : y ≠ x := fun e => h.keptTable r hr x hx (e ▸ hy)
    exact page_apart ((h.table r hr).page y hy).1 hxp hne (slot_mem y k).1 (slot_mem y k).2
  · have hne : q ≠ x := fun e => h.keptPool x hx (e ▸ hq)
    exact page_apart (h.page q hq).1 hxp hne le_rfl (by simp only [PGSIZE]; omega)

/-- A memory that agrees on the tables, with a free list from which the pages `new` are gone. -/
theorem draw {new : Set ℕ} (h : Spaces m roots pm kept l)
    (ht : ∀ r ∈ roots, ∀ x, IsTable r m x → ∀ k : Fin 512, m'.mem (x + 8 * k) = m.mem (x + 8 * k))
    (hchain : Chain 0 m'.mem m'.gFreeMemList l') (hnd : l'.Nodup) (hlock : m'.count5 = m.count5)
    (hsub : ∀ x ∈ l', x ∈ l) (hnew : ∀ x ∈ new, x ∈ l ∧ x ∉ l') :
    Spaces m' roots pm (new ∪ kept) l' := by
  have htab : ∀ r ∈ roots, ∀ x, IsTable r m' x ↔ IsTable r m x := fun r hr =>
    tables_iff (ht r hr)
  exact
    { chain := hchain
      nodup := hnd
      unlocked := hlock.trans h.unlocked
      page := fun x hx => h.page x (hsub x hx)
      table := fun r hr => (h.table r hr).congr (ht r hr)
      apart := fun r hr r' hr' x hx hx' =>
        h.apart r hr r' hr' x ((htab r hr x).1 hx) ((htab r' hr' x).1 hx')
      tablePool := fun r hr x hx hx' => h.tablePool r hr x (hsub x hx) ((htab r hr x).1 hx')
      keptPage := by
        rintro x (hx | hx)
        · exact h.page x (hnew x hx).1
        · exact h.keptPage x hx
      keptTable := by
        rintro r hr x (hx | hx) hx'
        · exact h.tablePool r hr x (hnew x hx).1 ((htab r hr x).1 hx')
        · exact h.keptTable r hr x hx ((htab r hr x).1 hx')
      keptPool := by
        rintro x (hx | hx)
        · exact (hnew x hx).2
        · exact fun hm => h.keptPool x hx (hsub x hm)
      framed := fun r hr v f perm hv => .inr (h.framed r hr v f perm hv)
      home := h.home
      null := .inr h.null }

/-- A free page is not kept, and nobody maps it. -/
theorem unmapped (h : Spaces m roots pm kept l) (hq : q ∈ l) :
    q ∉ kept ∧ ∀ r ∈ roots, ∀ v perm, pm r v ≠ some (q, perm) := by
  have hnot : q ∉ kept := fun hk => h.keptPool q hk hq
  exact ⟨hnot, fun r hr v perm hv => hnot (h.framed r hr v q perm hv)⟩

/-- **A page from the free list** is kept, and nobody maps it; `NULL` where the list is empty. -/
theorem take (h : Spaces m roots pm kept l) (e : allocPage m = .ok (q, m')) :
    ∃ l', Spaces m' roots pm (insert q kept) l' ∧ SameOn Set.univ m m' ∧
      (q ≠ 0 → q ∉ kept ∧ ∀ r ∈ roots, ∀ v perm, pm r v ≠ some (q, perm)) := by
  have hc : m.count5 - 1 + 1 = m.count5 := by omega
  have hu := h.unlocked
  rw [allocPage, semP, if_neg (by omega)] at e
  simp only [pure_eq_ok, ok_bind] at e
  by_cases h0 : m.gFreeMemList = 0
  · rw [if_pos h0] at e
    obtain ⟨rfl, rfl⟩ := Prod.mk.inj (Except.ok.inj e)
    refine ⟨l, ?_, ⟨rfl, fun _ _ _ _ _ => rfl⟩, fun hne => absurd h0 hne⟩
    have hk : insert m.gFreeMemList kept = kept := Set.insert_eq_of_mem (h0 ▸ h.null)
    rw [hk]
    exact h.congr (fun _ _ _ _ _ => rfl) (fun _ _ => rfl) rfl hc
  · rw [if_neg h0] at e
    obtain ⟨rfl, rfl⟩ := Prod.mk.inj (Except.ok.inj e)
    obtain ⟨l', rfl, c⟩ := h.chain.exists_cons h0
    have hnd := List.nodup_cons.1 h.nodup
    refine ⟨l', ?_, ⟨rfl, fun _ _ _ _ _ => rfl⟩, fun _ => h.unmapped List.mem_cons_self⟩
    rw [Set.insert_eq]
    refine h.draw (fun _ _ _ _ _ => rfl) c hnd.2 hc (fun x hx => List.mem_cons_of_mem _ hx) ?_
    intro x hx
    obtain rfl := Set.mem_singleton_iff.1 hx
    exact ⟨List.mem_cons_self, hnd.1⟩

/-- `alloc_page` where it does not return `NULL`: the first page leaves the free list. -/
theorem take_cons (h : Spaces m roots pm kept l) (e : allocPage m = .ok (q, m')) (h0 : q ≠ 0) :
    ∃ l', l = q :: l' ∧ Spaces m' roots pm (insert q kept) l' ∧ SameOn Set.univ m m' := by
  obtain ⟨l₁, h₁, hs, -⟩ := h.take e
  have hu := h.unlocked
  rw [allocPage, semP, if_neg (by omega)] at e
  simp only [pure_eq_ok, ok_bind] at e
  split at e
  · rename_i hnull
    exact absurd ((Prod.mk.inj (Except.ok.inj e)).1.symm.trans hnull) h0
  · obtain ⟨rfl, rfl⟩ := Prod.mk.inj (Except.ok.inj e)
    obtain ⟨l', rfl, c⟩ := h.chain.exists_cons h0
    obtain rfl := h₁.chain.unique c
    exact ⟨l₁, rfl, h₁, hs⟩

/-- **Two adjacent pages from the free list** are kept. -/
theorem takeTwo (h : Spaces m roots pm kept l) (e : allocTwoPage m = .ok (q, m')) :
    ∃ l', Spaces m' roots pm ({q, q + PGSIZE} ∪ kept) l' ∧ SameOn kept m m' ∧ q ∈ l ∧
      q + PGSIZE ∈ l ∧ ∀ x ∈ l', x ∈ l := by
  have hpage : ∀ x ∈ l, PGSIZE ∣ x ∧ x < 2 ^ 63 := fun x hx =>
    ⟨(h.page x hx).1, (h.page x hx).2.trans (by decide)⟩
  obtain ⟨pre, n, post, v, rfl, rfl, hchain⟩ :=
    allocTwoPage_ok h.chain h.nodup hpage h.unlocked e
  have hn : n ∈ pre ++ n :: (q + PGSIZE) :: q :: post := by simp
  have hnd := h.nodup
  refine ⟨pre ++ n :: post, h.draw (fun r hr x hx k => ?_) hchain (nodup_twoPage hnd) rfl ?_ ?_,
    ⟨rfl, fun x hx a h₁ h₂ => ?_⟩, by simp, by simp, ?_⟩
  · refine Mach.store_of_ne _ _ fun he => ?_
    have hxp := ((h.table r hr).page x hx).1
    obtain ⟨rfl, -⟩ := slot_inj (b := 0) hxp (h.page n hn).1 k.2 (by omega) (by simpa using he)
    exact h.tablePool r hr _ hn hx
  · intro x hx
    simp only [List.mem_append, List.mem_cons] at hx ⊢
    tauto
  · rw [List.nodup_append, List.nodup_cons, List.nodup_cons, List.nodup_cons] at hnd
    rintro x (rfl | rfl) <;> simp only [List.mem_append, List.mem_cons] at hnd ⊢ <;> grind
  · refine Mach.store_of_ne _ _ ?_
    rintro rfl
    exact page_apart (h.keptPage x hx).1 (h.page a hn).1 (fun he => h.keptPool x hx (he ▸ hn)) h₁ h₂
      ⟨le_rfl, by simp only [PGSIZE]; omega⟩
  · intro x hx
    simp only [List.mem_append, List.mem_cons] at hx ⊢
    tauto

/-- **A page becomes a directory.** -/
theorem root (h : Spaces m roots pm kept l) (hq : q ∈ kept) (h0 : q ≠ 0)
    (hzero : ∀ k : Fin 512, m.mem (q + 8 * k) = 0)
    (hun : ∀ r ∈ roots, ∀ v perm, pm r v ≠ some (q, perm)) :
    Spaces m (insert q roots) (Function.update pm q fun _ => none) (kept \ {q}) l := by
  have hnot : ∀ r ∈ roots, r ≠ q := by
    rintro r hr rfl
    exact h.keptTable r hr r hq (isTable_root r m)
  have hself : ∀ x, IsTable q m x → x = q := fun x ⟨_, _, hx⟩ => (nodeAt_zero hzero hx).2
  have hqp := h.keptPage q hq
  refine
    { chain := h.chain
      nodup := h.nodup
      unlocked := h.unlocked
      page := h.page
      table := ?_
      apart := ?_
      tablePool := ?_
      keptPage := fun x hx => h.keptPage x hx.1
      keptTable := ?_
      keptPool := fun x hx => h.keptPool x hx.1
      framed := ?_
      home := ?_
      null := ⟨h.null, fun e => h0 e.symm⟩ }
  · rintro r (rfl | hr)
    · rw [Function.update_self]
      exact ptInv_zero hqp.1 h0 hqp.2 hzero
    · rw [Function.update_of_ne (hnot r hr)]
      exact h.table r hr
  · rintro r (rfl | hr) r' (rfl | hr') x hx hx'
    · rfl
    · exact absurd (hself x hx ▸ hx') (h.keptTable r' hr' _ hq)
    · exact absurd (hself x hx' ▸ hx) (h.keptTable r hr _ hq)
    · exact h.apart r hr r' hr' x hx hx'
  · rintro r (rfl | hr) x hx hx'
    · exact h.keptPool r hq (hself x hx' ▸ hx)
    · exact h.tablePool r hr x hx hx'
  · rintro r (rfl | hr) x hx hx'
    · exact hx.2 (hself x hx')
    · exact h.keptTable r hr x hx.1 hx'
  · rintro r (rfl | hr) v f perm hv
    · rw [Function.update_self] at hv
      cases hv
    · rw [Function.update_of_ne (hnot r hr)] at hv
      exact ⟨h.framed r hr v f perm hv, fun e => hun r hr v perm (e ▸ hv)⟩
  · rintro r (rfl | hr) r' (rfl | hr') v v' f perm perm' hf hv hv'
    · rw [Function.update_self] at hv
      cases hv
    · rw [Function.update_self] at hv
      cases hv
    · rw [Function.update_self] at hv'
      cases hv'
    · rw [Function.update_of_ne (hnot r hr)] at hv
      rw [Function.update_of_ne (hnot r' hr')] at hv'
      exact h.home r hr r' hr' v v' f perm perm' hf hv hv'

/-- **A page goes back to the free list.** -/
theorem give {f : ℕ} (h : Spaces m roots pm kept l) (hf : f ∈ kept) (h0 : f ≠ 0)
    (hun : ∀ r ∈ roots, ∀ v perm, pm r v ≠ some (f, perm)) :
    Spaces { m.store f m.gFreeMemList with gFreeMemList := f } roots pm (kept \ {f}) (f :: l) := by
  have hnot := h.keptPool f hf
  have hw : Spaces (m.store f m.gFreeMemList) roots pm kept l := by
    refine (h.write hf (fun a ha => Mach.store_of_ne _ _ ?_) rfl rfl rfl).1
    rintro rfl
    exact ha ⟨le_rfl, by simp only [PGSIZE]; omega⟩
  exact
    { chain := h.chain.push h0 hnot
      nodup := List.nodup_cons.2 ⟨hnot, h.nodup⟩
      unlocked := h.unlocked
      page := by
        rintro x (_ | ⟨_, hx⟩)
        · exact h.keptPage f hf
        · exact h.page x hx
      table := fun r hr => (hw.table r hr).congr fun _ _ _ => rfl
      apart := hw.apart
      tablePool := by
        rintro r hr x (_ | ⟨_, hx⟩)
        · exact hw.keptTable r hr f hf
        · exact hw.tablePool r hr x hx
      keptPage := fun x hx => h.keptPage x hx.1
      keptTable := fun r hr x hx => hw.keptTable r hr x hx.1
      keptPool := by
        rintro x hx (_ | ⟨_, hm⟩)
        · exact hx.2 rfl
        · exact h.keptPool x hx.1 hm
      framed := fun r hr v g perm hv =>
        ⟨h.framed r hr v g perm hv, fun e => hun r hr v perm (e ▸ hv)⟩
      home := h.home
      null := ⟨h.null, fun e => h0 e.symm⟩ }

/-! ## Walking and mapping -/

/-- What one level of a walk may write: the table it reads, and the page it takes. -/
theorem walkStep_mem {p level : ℕ} {map : PageMap} {frames : Set ℕ} {o : Option ℕ}
    (hl : FreshPool r m map frames l) (e : Mm.walkStep level va true p m = .ok (o, m')) :
    m'.freeMemStartAddr = m.freeMemStartAddr ∧
      ∀ y, PGSIZE ∣ p → PGSIZE ∣ y → y ≠ p → y ∉ l → ∀ a, y ≤ a → a < y + PGSIZE →
        m'.mem a = m.mem a := by
  rw [Mm.walkStep] at e
  split at e
  · cases e
    exact ⟨rfl, fun _ _ _ _ _ _ _ _ => rfl⟩
  · rw [if_pos rfl] at e
    rcases hl.allocPage with ⟨rfl, ha⟩ | ⟨q, l', rfl, hq0, ha⟩
    · simp only [ha, ok_bind, ne_eq, not_true, if_false] at e
      cases e
      exact ⟨rfl, fun _ _ _ _ _ _ _ _ => rfl⟩
    · simp only [ha, ok_bind, ne_eq, hq0, not_false_iff, if_true] at e
      cases e
      refine ⟨rfl, fun y hp hy hyp hyq a h₁ h₂ => ?_⟩
      have hne : a ≠ p + 8 * px level va := by
        rintro rfl
        exact page_apart hy hp hyp h₁ h₂ (slot_mem p ⟨_, px_lt level va⟩)
      have hout : ¬ (q ≤ a ∧ a < q + PGSIZE) :=
        page_apart hy (hl.page q List.mem_cons_self).1 (fun e => hyq (e ▸ List.mem_cons_self)) h₁ h₂
      exact (Mach.store_of_ne _ _ hne).trans (if_neg hout)

/-- **One level of a walk** in the tables of `r`. -/
theorem walkStep {p level : ℕ} {P : List (Fin 512)} {o : Option ℕ} (h : Spaces m roots pm kept l)
    (hr : r ∈ roots) (hP : nodeAt (entry m) r P = some p) (hlen : P.length < 2)
    (e : Mm.walkStep level va true p m = .ok (o, m')) :
    ∃ l', Spaces m' roots pm kept l' ∧ SameOn kept m m' ∧
      (∀ q, o = some q → nodeAt (entry m') r (P ++ [idx level va]) = some q) ∧ l' <:+ l := by
  have hpt : IsTable r m p := ⟨P, by omega, hP⟩
  have hpp := ((h.table r hr).page p hpt).1
  obtain ⟨hstart, hmem⟩ := walkStep_mem (h.pool hr) e
  rcases (h.table r hr).walkStep level va (h.pool hr) hP hlen with
    ⟨-, e'⟩ | ⟨q, m₁, l', e', ⟨-, hsuf⟩, w, hq⟩
  · rw [e'] at e
    cases e
    exact ⟨l, h, .refl, nofun, List.suffix_rfl⟩
  · rw [e'] at e
    cases e
    refine ⟨l', ?_, ⟨hstart,
      fun x hx => hmem x hpp (h.keptPage x hx).1 ?_ (h.keptPool x hx)⟩, ?_, hsuf⟩
    · rw [← Function.update_eq_self r pm]
      refine h.replace w.inv w.pool (fun r' hr' hne x hx k => ?_) (h.framed r hr) ?_
      · have hxp : x ≠ p := fun e => hne (h.apart r' hr' r hr x hx (e ▸ hpt))
        exact hmem x hpp ((h.table r' hr').page x hx).1 hxp (fun hm => h.tablePool r' hr' x hm hx) _
          (slot_mem x k).1 (slot_mem x k).2
      · rw [Function.update_eq_self]
        exact h.home r hr
    · exact fun e => h.keptTable r hr x hx (e ▸ hpt)
    · rintro q' hq'
      cases hq'
      exact hq

/-- **A walk that may allocate** in the tables of `r`. -/
theorem walk (h : Spaces m roots pm kept l) (hr : r ∈ roots)
    (e : pageWalk r va true m = .ok (pte, m')) :
    ∃ l', Spaces m' roots pm kept l' ∧ SameOn kept m m' ∧ va < MAXVA ∧
      (pte ≠ 0 → ∃ q, pte = q + 8 * px 0 va ∧
        nodeAt (entry m') r [idx 2 va, idx 1 va] = some q) ∧ l' <:+ l := by
  rw [pageWalk] at e
  split at e
  · cases e
  rename_i hva
  obtain ⟨⟨o₁, m₁⟩, e₁, e⟩ := (bind_ok_iff _ _ _).1 e
  obtain ⟨l₁, h₁, s₁, hq₁, hsuf₁⟩ := h.walkStep hr nodeAt_nil (by simp) e₁
  cases o₁ with
  | none =>
    cases e
    exact ⟨l₁, h₁, s₁, by omega, fun h0 => absurd rfl h0, hsuf₁⟩
  | some p =>
    obtain ⟨⟨o₂, m₂⟩, e₂, e⟩ := (bind_ok_iff _ _ _).1 e
    obtain ⟨l₂, h₂, s₂, hq₂, hsuf₂⟩ := h₁.walkStep hr (hq₁ p rfl) (by simp) e₂
    refine ⟨l₂, ?_⟩
    cases o₂ with
    | none =>
      cases e
      exact ⟨h₂, s₁.trans s₂, by omega, fun h0 => absurd rfl h0, hsuf₂.trans hsuf₁⟩
    | some q =>
      cases e
      exact ⟨h₂, s₁.trans s₂, by omega, fun _ => ⟨q, rfl, hq₂ q rfl⟩, hsuf₂.trans hsuf₁⟩

/-- **Writing the entry of `va`.** -/
theorem leaf {e : Option (ℕ × ℕ)} (h : Spaces m roots pm kept l) (hr : r ∈ roots) (hva : va < MAXVA)
    (hq : nodeAt (entry m) r [idx 2 va, idx 1 va] = some q) (hw : LeafWord w e)
    (he : ∀ f perm, e = some (f, perm) → FrameOk f perm ∧ f ∈ kept ∧
      (f = 0 ∨ ∀ r ∈ roots, ∀ v perm, pm r v = some (f, perm) → v = va / PGSIZE)) :
    Spaces (m.store (q + 8 * px 0 va) w) roots (mapAt pm r (va / PGSIZE) e) kept l ∧
      SameOn kept m (m.store (q + 8 * px 0 va) w) := by
  have hqt : IsTable r m q := ⟨_, by simp, hq⟩
  have hqp := ((h.table r hr).page q hqt).1
  have hsame : ∀ y, PGSIZE ∣ y → y ≠ q → ∀ a, y ≤ a → a < y + PGSIZE →
      (m.store (q + 8 * px 0 va) w).mem a = m.mem a := by
    intro y hy hne a h₁ h₂
    refine Mach.store_of_ne _ _ ?_
    rintro rfl
    exact page_apart hy hqp hne h₁ h₂ (slot_mem q ⟨_, px_lt 0 va⟩)
  obtain ⟨hinv, htab⟩ := (h.table r hr).storeLeaf (k := idx 0 va) hq hw
    (fun f perm hf => ⟨(he f perm hf).1, h.keptTable r hr f (he f perm hf).2.1⟩)
    (fun _ => by rw [vpn_idx hva]; simp only [PGSIZE, MAXVA] at *; omega)
  have hpool := (h.pool hr).storeLeaf (v := va / PGSIZE) hqp hqt htab
    (fun f perm hf => .inl (he f perm hf).2.1)
  rw [vpn_idx hva] at hinv
  refine ⟨h.replace hinv hpool ?_ ?_ ?_, rfl, fun x hx => hsame x (h.keptPage x hx).1 ?_⟩
  · intro r' hr' hne x hx k
    have hxq : x ≠ q := fun e => hne (h.apart r' hr' r hr x hx (e ▸ hqt))
    exact hsame x ((h.table r' hr').page x hx).1 hxq _ (slot_mem x k).1 (slot_mem x k).2
  · intro v f perm hv
    rw [Function.update_apply] at hv
    split at hv
    · exact (he f perm hv).2.1
    · exact h.framed r hr v f perm hv
  · intro r' hr' v v' f perm perm' h0 hv hv'
    -- a mapping is the new one or one there was
    have hold : ∀ r' x z, mapAt pm r (va / PGSIZE) e r' x = some (f, z) →
        (x = va / PGSIZE ∧ e = some (f, z)) ∨ pm r' x = some (f, z) := by
      intro r' x z hx
      rw [mapAt_apply] at hx
      split at hx
      · rename_i hxv
        exact .inl ⟨hxv.2, hx⟩
      · exact .inr hx
    have hnew : ∀ r' ∈ roots, ∀ x z z', e = some (f, z) → pm r' x = some (f, z') →
        x = va / PGSIZE :=
      fun r' hr' x z z' he' hx => ((he f z he').2.2.resolve_left h0) r' hr' x z' hx
    have hv : mapAt pm r (va / PGSIZE) e r v = some (f, perm) := by
      rw [mapAt, Function.update_self]
      exact hv
    rcases hold r v perm hv with ⟨hv, he₁⟩ | hv <;> rcases hold r' v' perm' hv' with
      ⟨hv', he₂⟩ | hv'
    · exact hv.trans hv'.symm
    · exact hv.trans (hnew r' hr' v' perm perm' he₁ hv').symm
    · exact (hnew r hr v perm' perm he₂ hv).trans hv'.symm
    · exact h.home r hr r' hr' v v' f perm perm' h0 hv hv'
  · exact fun e => h.keptTable r hr x hx (e ▸ hqt)

/-- `lookup_pa` in one table is not affected by a store to another. -/
theorem lookup_store {r' va' : ℕ} (h : Spaces m roots pm kept l) (hr : r ∈ roots) (hr' : r' ∈ roots)
    (hne : r' ≠ r) (hq : IsTable r m q) :
    lookupPa r' va' (m.store (q + 8 * px 0 va) w) =
      .ok ((pm r' (va' / PGSIZE)).elim 0 Prod.fst, m.store (q + 8 * px 0 va) w) := by
  refine ((h.table r' hr').congr fun x hx k => Mach.store_of_ne _ _ fun e => ?_).lookupPa va'
  obtain ⟨rfl, -⟩ := slot_inj ((h.table r' hr').page x hx).1 ((h.table r hr).page q hq).1 k.2
    (px_lt 0 va) e
  exact hne (h.apart r' hr' r hr x hx hq)

/-- `va` and `size` stand for one page. -/
def OnePage (va size : ℕ) : Prop := size = 1 ∨ size = PGSIZE ∧ PGSIZE ∣ va

theorem OnePage.last (h : OnePage va size) (hva : va < MAXVA) :
    roundDown ((va + size + (2 ^ 64 - 1)) % 2 ^ 64) PGSIZE = roundDown va PGSIZE := by
  simp only [OnePage, roundDown, PGSIZE, MAXVA] at *
  omega

/-- What makes a frame one that `r` may map at the page of `va`. -/
structure Mappable (roots : Set ℕ) (pm : ℕ → PageMap) (kept : Set ℕ) (va pa : ℕ) : Prop where
  kept : pa ∈ kept
  home : pa = 0 ∨ ∀ r ∈ roots, ∀ v perm, pm r v = some (pa, perm) → v = va / PGSIZE

theorem frameOk (h : Spaces m roots pm kept l) (hf : Mappable roots pm kept va pa)
    (hperm : perm < 2 ^ 10) (hread : perm &&& (PTE_R ||| PTE_W) ≠ 0) : FrameOk pa perm :=
  ⟨(h.keptPage pa hf.kept).1, (h.keptPage pa hf.kept).2, hperm, hread⟩

/-- **`map_pages` over an entry** that holds any word. -/
theorem remap {x : ℕ} {z : ℤ} (h : Spaces m roots pm kept l) (hr : r ∈ roots)
    (hone : OnePage va size) (hf : Mappable roots pm kept va pa) (hperm : perm < 2 ^ 10)
    (hread : perm &&& (PTE_R ||| PTE_W) ≠ 0) (hva : va < MAXVA)
    (hq : nodeAt (entry m) r [idx 2 va, idx 1 va] = some q)
    (e : mapPages r va size pa perm (m.store (q + 8 * px 0 va) x) = .ok (z, m')) :
    z = 0 ∧ x &&& PTE_V = 0 ∧ SameOn kept m m' ∧
      Spaces m' roots (mapAt pm r (va / PGSIZE)
        (some (pa, perm ||| if x = 0x100 then 0x100 else 0))) kept l := by
  have hq0 := ((h.table r hr).page q ⟨_, by simp, hq⟩).2.1
  have hq' : nodeAt (entry (m.store (q + 8 * px 0 va) x)) r [idx 2 va, idx 1 va] = some q :=
    ((h.table r hr).nodeAt_store (k := idx 0 va) hq _ (by simp)).trans hq
  rw [mapPages_at hva (hone.last hva) hq' (by omega), Mach.store_self] at e
  split at e
  · cases e
  rename_i hx
  obtain ⟨rfl, rfl⟩ := Prod.mk.inj (Except.ok.inj e)
  rw [Mach.store_store]
  set extra := if x = 0x100 then 0x100 else 0 with hextra
  have hlt : extra < 2 ^ 10 := by
    rw [hextra]
    split <;> decide
  have hread' : (perm ||| extra) &&& (PTE_R ||| PTE_W) ≠ 0 := by
    rw [Nat.and_or_distrib_right, ne_eq, Nat.or_eq_zero_iff]
    exact fun h => hread h.1
  have hw : LeafWord (pa2pte pa ||| perm ||| PTE_V ||| extra) (some (pa, perm ||| extra)) := by
    rw [LeafWord, Nat.or_assoc, Nat.or_assoc, Nat.or_comm PTE_V, Nat.or_assoc]
  obtain ⟨h', hs⟩ := h.leaf hr hva hq hw (by
    rintro f perm' hf'
    cases hf'
    exact ⟨h.frameOk hf (Nat.or_lt_two_pow hperm hlt) hread', hf.kept, hf.home⟩)
  exact ⟨rfl, not_not.1 hx, hs, h'⟩

/-- **`map_pages` of one page.** -/
theorem map {z : ℤ} (h : Spaces m roots pm kept l) (hr : r ∈ roots) (hone : OnePage va size)
    (hf : Mappable roots pm kept va pa) (hperm : perm < 2 ^ 10)
    (hread : perm &&& (PTE_R ||| PTE_W) ≠ 0) (e : mapPages r va size pa perm m = .ok (z, m')) :
    z = 0 ∧ va < MAXVA ∧ pm r (va / PGSIZE) = none ∧ SameOn kept m m' ∧
      ∃ l', Spaces m' roots (mapAt pm r (va / PGSIZE) (some (pa, perm))) kept l' ∧ l' <:+ l := by
  rw [mapPages] at e
  obtain ⟨⟨pte, m₁⟩, e₁, e⟩ := (bind_ok_iff _ _ _).1 e
  obtain ⟨l', h₁, hs₁, hva, hpte, hsuf⟩ := h.walk hr e₁
  have h0 : pte ≠ 0 := by
    rintro rfl
    cases e
  obtain ⟨q, rfl, hq⟩ := hpte h0
  have e' : mapPages r va size pa perm
      (m₁.store (q + 8 * px 0 va) (m₁.mem (q + 8 * px 0 va))) = .ok (z, m') := by
    rw [Mach.store_mem, mapPages, pageWalk_at hva hq true]
    exact e
  obtain ⟨hz, hx, hs, h'⟩ := h₁.remap hr hone hf hperm hread hva hq e'
  have hw := (h₁.table r hr).leafWord hva hq
  have hnone := (hw.valid_iff fun _ _ => (h₁.table r hr).frameOk).1 hx
  rw [hnone] at hw
  rw [if_neg hw.2, Nat.or_zero] at h'
  exact ⟨hz, hva, hnone, hs₁.trans hs, l', h', hsuf⟩

/-- **`user_vm_unmap` of a mapped page**, whose frame it gives back. -/
theorem unmap {f : ℕ} (h : Spaces m roots pm kept l) (hr : r ∈ roots) (hva : PGSIZE ∣ va)
    (hv : pm r (va / PGSIZE) = some (f, perm)) (h0 : f ≠ 0)
    (hother : ∀ r' ∈ roots, ∀ v perm', pm r' v = some (f, perm') → r' = r ∧ v = va / PGSIZE)
    (e : userVmUnmap r va size 1 m = .ok m') :
    SameOn (kept \ {f}) m m' ∧
      Spaces m' roots (mapAt pm r (va / PGSIZE) none) (kept \ {f}) (f :: l) := by
  obtain ⟨q, hq, hva', -, rfl⟩ := (h.table r hr).unmap_ok hv e
  rw [Nat.mod_eq_zero_of_dvd hva, Nat.add_zero]
  have hfk := h.framed r hr _ f perm hv
  have hqt : IsTable r m q := ⟨_, by simp, hq⟩
  have hqp := ((h.table r hr).page q hqt).1
  have hw := (h.table r hr).leafWord hva' hq
  rw [hv] at hw
  -- the entry is cleared first, since the two stores are apart
  have hcomm : (m.store f m.gFreeMemList).store (q + 8 * px 0 va)
      (m.mem (q + 8 * px 0 va) &&& (2 ^ 64 - 1 - PTE_V)) =
      (m.store (q + 8 * px 0 va) (m.mem (q + 8 * px 0 va) &&& (2 ^ 64 - 1 - PTE_V))).store f
        m.gFreeMemList := by
    refine Mach.store_comm _ _ _ fun e => ?_
    obtain ⟨rfl, -⟩ := slot_inj (a := 0) (h.keptPage f hfk).1 hqp (by omega) (px_lt 0 va)
      (by simpa using e)
    exact h.keptTable r hr f hfk hqt
  obtain ⟨h', hs⟩ := h.leaf hr hva' hq (hw.clear ((h.table r hr).frameOk hv)) nofun
  have hun : ∀ r' ∈ roots, ∀ v perm', mapAt pm r (va / PGSIZE) none r' v ≠ some (f, perm') := by
    intro r' hr' v perm' hv'
    rw [mapAt_apply] at hv'
    split at hv'
    · cases hv'
    · rename_i hne
      exact hne (hother r' hr' v perm' hv')
  rw [hcomm]
  refine ⟨⟨rfl, fun x hx a h₁ h₂ => ?_⟩, h'.give hfk h0 hun⟩
  have hne : a ≠ f := by
    rintro rfl
    exact page_apart (h.keptPage x hx.1).1 (h.keptPage a hfk).1 hx.2 h₁ h₂
      ⟨le_rfl, by simp only [PGSIZE]; omega⟩
  exact (Mach.store_of_ne _ _ hne).trans (hs.mem x hx.1 a h₁ h₂)

end Spaces

end HustOS.Mm
