import HustOS.Mm.Vmm
import HustOS.Foundations.Tree

/-!
# A page table is a map from pages to frames

The tables reachable from a page directory form a tree of depth two in memory (`entry`, `PtInv`),
whose last level holds the map `pm` from page numbers to frames with their permissions. The
invariant keeps the tables apart from each other and from the frames, which is what makes a store to
one entry leave every other translation alone.

* `PtInv.walkStep`, `PtInv.pageWalk`: walking grows the tree with fresh pages and keeps the map.
* `PtInv.storeLeaf`: writing a last-level entry changes the map at one page.
* `VmRun`: runs of `mapPages` and `userVmUnmap`, interleaved with kernel code that leaves the tables
  alone; the map is what `lookupPa` computes in each of their states.
-/

namespace HustOS.Mm

open Foundations

/-- A partial map from page numbers to a frame and its permission bits. -/
abbrev PageMap : Type := ℕ → Option (ℕ × ℕ)

/-- The table that entry `i` of the table at `p` points to. -/
def entry (m : Mach) (p : ℕ) (i : Fin 512) : Option ℕ :=
  if m.mem (p + 8 * i) &&& PTE_V ≠ 0 then some (pte2pa (m.mem (p + 8 * i))) else none

/-- The pages that hold the tables of the page directory `pt`. -/
def IsTable (pt : ℕ) (m : Mach) (p : ℕ) : Prop := IsNode (entry m) pt 2 p

/-- The page number with the given indices at the three levels. -/
def vpn (i j k : Fin 512) : ℕ := (i * 512 + j) * 512 + k

/-- The index of an address at a level. -/
def idx (level va : ℕ) : Fin 512 := ⟨px level va, px_lt level va⟩

/-- A frame and a permission that an entry of the last level can hold. -/
structure FrameOk (f perm : ℕ) : Prop where
  aligned : PGSIZE ∣ f
  lt : f < 2 ^ 56
  perm_lt : perm < 2 ^ 10
  readable : perm &&& (PTE_R ||| PTE_W) ≠ 0

/-- The word of a last-level entry. A free entry is not the mark `0x100`, which `map_pages` treats
apart. -/
def LeafWord (w : ℕ) : Option (ℕ × ℕ) → Prop
  | none => w &&& PTE_V = 0 ∧ w ≠ 0x100
  | some (f, perm) => w = pa2pte f ||| (perm ||| PTE_V)

/-- The tables of `pt` are a tree of pages that holds the map `pm`. -/
structure PtInv (pt : ℕ) (m : Mach) (pm : PageMap) : Prop where
  placed : Placed (entry m) pt 2
  page : ∀ p, IsTable pt m p → PGSIZE ∣ p ∧ p ≠ 0 ∧ p < 2 ^ 56
  leaf : ∀ i j k q, nodeAt (entry m) pt [i, j] = some q →
    LeafWord (m.mem (q + 8 * k.1)) (pm (vpn i j k))
  absent : ∀ i j k, nodeAt (entry m) pt [i, j] = none → pm (vpn i j k) = none
  frame : ∀ v f perm, pm v = some (f, perm) → FrameOk f perm ∧ ¬ IsTable pt m f
  bound : ∀ v, 2 ^ 26 ≤ v → pm v = none

/-- The pages `alloc_page` will return are not in use: neither tables, nor mapped frames, nor among
`frames`, the frames about to be mapped, which are not tables either. -/
structure FreshPool (pt : ℕ) (m : Mach) (pm : PageMap) (frames : Set ℕ) (l : List ℕ) : Prop where
  chain : Chain 0 m.mem m.gFreeMemList l
  nodup : l.Nodup
  unlocked : m.count5 = 1
  page : ∀ q ∈ l, PGSIZE ∣ q ∧ q < 2 ^ 56
  table : ∀ q ∈ l, ¬ IsTable pt m q
  frame : ∀ q ∈ l, ∀ v f perm, pm v = some (f, perm) → f ≠ q
  apart : ∀ q ∈ l, q ∉ frames
  frames_table : ∀ f ∈ frames, ¬ IsTable pt m f

/-! ## Addresses of entries -/

theorem slot_inj {p q a b : ℕ} (hp : PGSIZE ∣ p) (hq : PGSIZE ∣ q) (ha : a < 512) (hb : b < 512)
    (h : p + 8 * a = q + 8 * b) : p = q ∧ a = b := by
  simp only [PGSIZE] at *
  omega

theorem vpn_idx {va : ℕ} (h : va < MAXVA) : vpn (idx 2 va) (idx 1 va) (idx 0 va) = va / PGSIZE := by
  simp only [MAXVA] at h
  simp only [vpn, idx, px_eq, PGSIZE]
  norm_num
  omega

theorem vpn_inj {i j k i' j' k' : Fin 512} (h : vpn i j k = vpn i' j' k') :
    i = i' ∧ j = j' ∧ k = k' := by
  simp only [vpn] at h
  omega

/-- Tables agree with memories that agree on their entries. -/
theorem entry_congr {m m' : Mach} {p : ℕ} {i : Fin 512}
    (h : m'.mem (p + 8 * i) = m.mem (p + 8 * i)) : entry m' p i = entry m p i := by
  rw [entry, entry, h]

theorem isTable_congr {pt p : ℕ} {m m' : Mach}
    (h : ∀ r, IsNode (entry m) pt 1 r → ∀ k, entry m' r k = entry m r k) :
    IsTable pt m' p ↔ IsTable pt m p := by
  refine exists_congr fun P => and_congr_right fun hP => ?_
  rw [nodeAt_congr h hP]

namespace PtInv

variable {pt p q va level : ℕ} {m m' : Mach} {pm : PageMap} {frames : Set ℕ} {l : List ℕ}
  {P : List (Fin 512)} {i j k : Fin 512}

/-- Memories that agree on the tables hold the same map. -/
theorem congr (h : PtInv pt m pm)
    (hm : ∀ p, IsTable pt m p → ∀ k : Fin 512, m'.mem (p + 8 * k) = m.mem (p + 8 * k)) :
    PtInv pt m' pm := by
  have he : ∀ r, IsNode (entry m) pt 1 r → ∀ k, entry m' r k = entry m r k := by
    rintro r ⟨R, hR, hr⟩ k
    exact entry_congr (hm r ⟨R, by omega, hr⟩ k)
  have hn : ∀ R : List (Fin 512), R.length ≤ 2 → nodeAt (entry m') pt R = nodeAt (entry m) pt R :=
    fun R hR => nodeAt_congr he hR
  refine
    { placed := ?_
      page := fun p hp => h.page p ((isTable_congr he).1 hp)
      leaf := ?_
      absent := ?_
      frame := fun v f perm hv =>
        ⟨(h.frame v f perm hv).1, fun hf => (h.frame v f perm hv).2 ((isTable_congr he).1 hf)⟩
      bound := h.bound }
  · intro R S p hR hS hr hs
    rw [hn R hR] at hr
    rw [hn S hS] at hs
    exact h.placed R S p hR hS hr hs
  · intro i j k q hq
    rw [hn _ (by simp)] at hq
    rw [hm q ⟨[i, j], by simp, hq⟩]
    exact h.leaf i j k q hq
  · intro i j k hq
    rw [hn _ (by simp)] at hq
    exact h.absent i j k hq

/-- **Growing the tree**: a fresh zeroed page put into a free slot of an inner table. -/
theorem grow (h : PtInv pt m pm) (hP : nodeAt (entry m) pt P = some p) (hlen : P.length < 2)
    (hnone : entry m p i = none) (hq : PGSIZE ∣ q ∧ q ≠ 0 ∧ q < 2 ^ 56) (hqt : ¬ IsTable pt m q)
    (hqf : ∀ v f perm, pm v = some (f, perm) → f ≠ q) :
    PtInv pt ((m.zeroPage q).store (p + 8 * i) (pa2pte q ||| PTE_V)) pm ∧
      ∀ R : List (Fin 512), R.length ≤ 2 →
        nodeAt (entry ((m.zeroPage q).store (p + 8 * i) (pa2pte q ||| PTE_V))) pt R =
          if R = P ++ [i] then some q else nodeAt (entry m) pt R := by
  set m' := (m.zeroPage q).store (p + 8 * i) (pa2pte q ||| PTE_V) with hm'
  have hpt : IsTable pt m p := ⟨P, by omega, hP⟩
  have hpp := h.page p hpt
  have hpq : p ≠ q := fun e => hqt (e ▸ hpt)
  -- the words of the memory after the growth
  have hword : ∀ r (k : Fin 512), PGSIZE ∣ r → m'.mem (r + 8 * k) =
      if r = p ∧ k = i then pa2pte q ||| PTE_V else if r = q then 0 else m.mem (r + 8 * k) := by
    intro r k hr
    by_cases hrk : r = p ∧ k = i
    · rw [if_pos hrk, hrk.1, hrk.2]
      exact Mach.store_self _ _ _
    · have hne : r + 8 * k.1 ≠ p + 8 * i.1 := by
        intro e
        obtain ⟨e₁, e₂⟩ := slot_inj hr hpp.1 k.2 i.2 e
        exact hrk ⟨e₁, Fin.ext e₂⟩
      rw [if_neg hrk]
      rw [Mach.store_of_ne _ _ hne]
      have hin : q ≤ r + 8 * k.1 ∧ r + 8 * k.1 < q + PGSIZE ↔ r = q := by
        have := hq.1
        simp only [PGSIZE] at *
        omega
      simp only [Mach.zeroPage, hin]
  have hentry : ∀ r, IsTable pt m r → ∀ k, ¬ (r = p ∧ k = i) → entry m' r k = entry m r k := by
    intro r hr k hrk
    refine entry_congr ?_
    rw [hword r k (h.page r hr).1, if_neg hrk, if_neg (fun e : r = q => hqt (e ▸ hr))]
  have hnew : entry m' p i = some q := by
    have hw : m'.mem (p + 8 * i) = pa2pte q ||| PTE_V := by
      rw [hword p i hpp.1, if_pos ⟨rfl, rfl⟩]
    rw [entry, hw, if_pos, pte2pa_mkPte hq.2.2 hq.1 (by decide)]
    rw [mkPte_and hq.2.2 (by decide)]
    decide
  have hleaf : ∀ k, entry m' q k = none := by
    intro k
    have hw : m'.mem (q + 8 * k) = 0 := by
      rw [hword q k hq.1, if_neg (fun e => hpq e.1.symm), if_pos rfl]
    rw [entry, hw, if_neg (by decide)]
  have hsame : ∀ r, IsNode (entry m) pt (2 - 1) r → ∀ k, ¬ (r = p ∧ k = i) →
      entry m' r k = entry m r k :=
    fun r ⟨R, hR, hr⟩ k hk => hentry r ⟨R, by omega, hr⟩ k hk
  have hn : ∀ R : List (Fin 512), R.length ≤ 2 → nodeAt (entry m') pt R =
      if R = P ++ [i] then some q else nodeAt (entry m) pt R :=
    fun R hR => h.placed.nodeAt_extend hP hlen hnone hnew hsame hleaf hR
  have htab : ∀ r, IsTable pt m' r → r = q ∨ IsTable pt m r := by
    rintro r ⟨R, hR, hr⟩
    rw [hn R hR] at hr
    split at hr
    · exact .inl (Option.some.inj hr).symm
    · exact .inr ⟨R, hR, hr⟩
  refine ⟨?_, hn⟩
  refine
    { placed := h.placed.extend hP hlen hnone hnew hsame hleaf hqt
      page := ?_
      leaf := ?_
      absent := ?_
      frame := ?_
      bound := h.bound }
  · intro r hr
    rcases htab r hr with rfl | hr
    · exact hq
    · exact h.page r hr
  · intro a b c r hr
    rw [hn _ (by simp)] at hr
    split at hr
    · -- the new table is of the last level, and empty
      rename_i hab
      obtain rfl := Option.some.inj hr
      have hold : nodeAt (entry m) pt [a, b] = none := by
        rw [hab, nodeAt_concat, hP, Option.bind_some, hnone]
      rw [hword q c hq.1, if_neg (fun e => hpq e.1.symm), if_pos rfl, h.absent a b c hold]
      exact ⟨by decide, by decide⟩
    · have hr' : IsTable pt m r := ⟨[a, b], by simp, hr⟩
      have hrp : ¬ (r = p ∧ c = i) := by
        rintro ⟨rfl, -⟩
        have := h.placed _ _ _ (by simp) (by omega) hr hP
        simp [← this] at hlen
      rw [hword r c (h.page r hr').1, if_neg hrp, if_neg (fun e : r = q => hqt (e ▸ hr'))]
      exact h.leaf a b c r hr
  · intro a b c hab
    rw [hn _ (by simp)] at hab
    split at hab
    · cases hab
    · exact h.absent a b c hab
  · intro v f perm hv
    refine ⟨(h.frame v f perm hv).1, fun hf => ?_⟩
    rcases htab f hf with rfl | hf
    · exact hqf v f perm hv rfl
    · exact (h.frame v f perm hv).2 hf

end PtInv

/-! ## Walking -/

section Walk

variable {pt p va level : ℕ} {m : Mach} {pm : PageMap} {frames : Set ℕ} {l : List ℕ}
  {P : List (Fin 512)}

/-- What a walk leaves: the map, a pool of fresh pages, and the tables there were. -/
structure Walked (pt : ℕ) (pm : PageMap) (frames : Set ℕ) (m m' : Mach) (l l' : List ℕ) : Prop where
  inv : PtInv pt m' pm
  pool : FreshPool pt m' pm frames l'
  keep : ∀ R : List (Fin 512), R.length ≤ 2 → ∀ q, nodeAt (entry m) pt R = some q →
    nodeAt (entry m') pt R = some q

theorem Walked.refl (h : PtInv pt m pm) (hl : FreshPool pt m pm frames l) :
    Walked pt pm frames m m l l :=
  ⟨h, hl, fun _ _ _ hq => hq⟩

theorem Walked.trans {m₁ m₂ : Mach} {l₁ l₂ : List ℕ} (h₁ : Walked pt pm frames m m₁ l l₁)
    (h₂ : Walked pt pm frames m₁ m₂ l₁ l₂) : Walked pt pm frames m m₂ l l₂ :=
  ⟨h₂.inv, h₂.pool, fun R hR q hq => h₂.keep R hR q (h₁.keep R hR q hq)⟩

/-- `alloc_page` on a pool takes its first page. -/
theorem FreshPool.allocPage (hl : FreshPool pt m pm frames l) :
    (l = [] ∧ Mm.allocPage m = .ok (0, m)) ∨
      ∃ q l', l = q :: l' ∧ q ≠ 0 ∧
          Mm.allocPage m = .ok (q, { m with gFreeMemList := m.mem q }) := by
  have hu := hl.unlocked
  have hc : m.count5 - 1 + 1 = m.count5 := by omega
  rcases l with _ | ⟨q, l'⟩
  · refine .inl ⟨rfl, ?_⟩
    have h0 : m.gFreeMemList = 0 := hl.chain
    rw [Mm.allocPage, semP, if_neg (by omega)]
    simp only [pure_eq_ok, ok_bind, h0, if_true, semV, hc]
    rw [← h0]
  · refine .inr ⟨q, l', rfl, hl.chain.2.1, ?_⟩
    obtain ⟨hq, hq0, -⟩ := hl.chain
    rw [Mm.allocPage, semP, if_neg (by omega)]
    simp only [pure_eq_ok, ok_bind, hq, hq0, if_false, semV, hc]

/-- The pool after its first page has become the table in slot `i` of `p`. -/
theorem FreshPool.grow {q : ℕ} {l' : List ℕ} {i : Fin 512} (h : PtInv pt m pm)
    (hl : FreshPool pt m pm frames (q :: l')) (hP : nodeAt (entry m) pt P = some p)
    (hlen : P.length < 2)
    (hn : ∀ R : List (Fin 512), R.length ≤ 2 →
      nodeAt (entry ((m.zeroPage q).store (p + 8 * i) (pa2pte q ||| PTE_V))) pt R =
        if R = P ++ [i] then some q else nodeAt (entry m) pt R) :
    FreshPool pt { (m.zeroPage q).store (p + 8 * i) (pa2pte q ||| PTE_V) with
      gFreeMemList := m.mem q } pm frames l' := by
  have hpt : IsTable pt m p := ⟨P, by omega, hP⟩
  have hnd := List.nodup_cons.1 hl.nodup
  have hq := hl.page q (by simp)
  refine
    { chain := ?_
      nodup := hnd.2
      unlocked := hl.unlocked
      page := fun r hr => hl.page r (by simp [hr])
      table := ?_
      frame := fun r hr => hl.frame r (by simp [hr])
      apart := fun r hr => hl.apart r (by simp [hr])
      frames_table := ?_ }
  · -- the links of the remaining pages are neither on the new page nor in the slot
    refine hl.chain.2.2.congr fun r hr => ?_
    have hr' := hl.page r (by simp [hr])
    have hrq : r ≠ q := fun e => hnd.1 (e ▸ hr)
    have hrp : r ≠ p + 8 * i.1 := by
      intro e
      obtain ⟨rfl, -⟩ := slot_inj (a := 0) hr'.1 (h.page p hpt).1 (by omega) i.2 (by simpa using e)
      exact hl.table r (by simp [hr]) hpt
    refine (Mach.store_of_ne _ _ hrp).trans ?_
    have hin : ¬ (q ≤ r ∧ r < q + PGSIZE) := by
      obtain ⟨a, ha⟩ := hr'.1
      obtain ⟨b, hb⟩ := hq.1
      simp only [PGSIZE] at *
      omega
    simp only [Mach.zeroPage, hin, if_false]
  · rintro r hr ⟨R, hR, hr'⟩
    rw [show nodeAt (entry { (m.zeroPage q).store (p + 8 * i) (pa2pte q ||| PTE_V) with
      gFreeMemList := m.mem q }) pt R = _ from hn R hR] at hr'
    split at hr'
    · exact hnd.1 (Option.some.inj hr' ▸ hr)
    · exact hl.table r (by simp [hr]) ⟨R, hR, hr'⟩
  · rintro f hf ⟨R, hR, hr⟩
    rw [show nodeAt (entry { (m.zeroPage q).store (p + 8 * i) (pa2pte q ||| PTE_V) with
      gFreeMemList := m.mem q }) pt R = _ from hn R hR] at hr
    split at hr
    · exact hl.apart q (by simp) (Option.some.inj hr ▸ hf)
    · exact hl.frames_table f hf ⟨R, hR, hr⟩

/-- **One level of a walk** ends at the table of the next level, or with the pool used up. -/
theorem PtInv.walkStep (level va : ℕ) (h : PtInv pt m pm) (hl : FreshPool pt m pm frames l)
    (hP : nodeAt (entry m) pt P = some p) (hlen : P.length < 2) :
    (l = [] ∧ Mm.walkStep level va true p m = .ok (none, m)) ∨
      ∃ q m' l', Mm.walkStep level va true p m = .ok (some q, m') ∧
        (l.length ≤ l'.length + 1 ∧ l' <:+ l) ∧
        Walked pt pm frames m m' l l' ∧ nodeAt (entry m') pt (P ++ [idx level va]) = some q := by
  by_cases hv : m.mem (p + 8 * px level va) &&& PTE_V ≠ 0
  · -- the next table exists
    refine .inr ⟨_, m, l, if_pos hv, ⟨by omega, List.suffix_rfl⟩, .refl h hl, ?_⟩
    rw [nodeAt_concat, hP, Option.bind_some, entry]
    exact if_pos hv
  · have hnone : entry m p (idx level va) = none := if_neg hv
    rcases hl.allocPage with ⟨rfl, ha⟩ | ⟨q, l', rfl, hq0, ha⟩
    · refine .inl ⟨rfl, ?_⟩
      simp only [Mm.walkStep, if_neg hv, if_true, ha, ok_bind, ne_eq, not_true, if_false,
        pure_eq_ok]
    · have hq := hl.page q (by simp)
      obtain ⟨hg, hn⟩ := h.grow (q := q) hP hlen hnone ⟨hq.1, hq0, hq.2⟩ (hl.table q (by simp))
        (hl.frame q (by simp))
      refine .inr ⟨q, { (m.zeroPage q).store (p + 8 * px level va) (pa2pte q ||| PTE_V) with
        gFreeMemList := m.mem q }, l', ?_, ⟨by simp, List.suffix_cons q l'⟩, ?_, ?_⟩
      · simp only [Mm.walkStep, if_neg hv, if_true, ha, ok_bind, ne_eq, hq0, not_false_iff,
          pure_eq_ok]
        rfl
      · refine ⟨hg.congr fun _ _ _ => rfl, FreshPool.grow h hl hP hlen hn, fun R hR r hr => ?_⟩
        refine (hn R hR).trans ?_
        rw [if_neg, hr]
        rintro rfl
        rw [nodeAt_concat, hP, Option.bind_some, hnone] at hr
        cases hr
      · refine (hn _ (by simp; omega)).trans ?_
        rw [if_pos rfl]

/-- **A walk that may allocate** ends at the last-level table of `va`, or with the pool used up. -/
theorem PtInv.pageWalk (h : PtInv pt m pm) (hl : FreshPool pt m pm frames l) (hva : va < MAXVA) :
    (l.length < 2 ∧ ∃ m', Mm.pageWalk pt va true m = .ok (0, m')) ∨
      ∃ q m' l', Mm.pageWalk pt va true m = .ok (q + 8 * px 0 va, m') ∧ l.length ≤ l'.length + 2 ∧
        Walked pt pm frames m m' l l' ∧
        nodeAt (entry m') pt [idx 2 va, idx 1 va] = some q := by
  have hva' : ¬ MAXVA ≤ va := by omega
  have h₀ : nodeAt (entry m) pt [] = some pt := nodeAt_nil
  rcases h.walkStep 2 va hl h₀ (by simp) with
    ⟨rfl, e₁⟩ | ⟨p₁, m₁, l₁, e₁, ⟨hl₁, -⟩, w₁, hp₁⟩
  · refine .inl ⟨by simp, m, ?_⟩
    simp only [Mm.pageWalk, if_neg hva', e₁, ok_bind, pure_eq_ok]
  · rcases w₁.inv.walkStep 1 va w₁.pool hp₁ (by simp) with
      ⟨rfl, e₂⟩ | ⟨q, m₂, l₂, e₂, ⟨hl₂, -⟩, w₂, hq⟩
    · refine .inl ⟨by simp at hl₁; omega, m₁, ?_⟩
      simp only [Mm.pageWalk, if_neg hva', e₁, e₂, ok_bind, pure_eq_ok]
    · refine .inr ⟨q, m₂, l₂, ?_, by omega, w₁.trans w₂, hq⟩
      simp only [Mm.pageWalk, if_neg hva', e₁, e₂, ok_bind, pure_eq_ok]

/-- A walk that may not allocate reads the tables. -/
theorem pageWalk_false (hva : va < MAXVA) :
    Mm.pageWalk pt va false m =
      .ok (((nodeAt (entry m) pt [idx 2 va, idx 1 va]).map (· + 8 * px 0 va)).getD 0, m) := by
  have hstep : ∀ level p, Mm.walkStep level va false p m = .ok (entry m p (idx level va), m) := by
    intro level p
    by_cases hv : m.mem (p + 8 * px level va) &&& PTE_V ≠ 0
    · rw [show entry m p (idx level va) = _ from if_pos hv]
      exact if_pos hv
    · rw [show entry m p (idx level va) = none from if_neg hv]
      exact if_neg hv
  have hva' : ¬ MAXVA ≤ va := by omega
  have hn : nodeAt (entry m) pt [idx 2 va, idx 1 va] =
      (entry m pt (idx 2 va)).bind (entry m · (idx 1 va)) := by
    rw [show [idx 2 va, idx 1 va] = [] ++ [idx 2 va] ++ [idx 1 va] from rfl, nodeAt_concat,
      nodeAt_concat, nodeAt_nil, Option.bind_some]
  rw [hn, Mm.pageWalk, if_neg hva']
  simp only [hstep, ok_bind, pure_eq_ok]
  cases entry m pt (idx 2 va) with
  | none => rfl
  | some p =>
    simp only [hstep, ok_bind, Option.bind_some]
    cases entry m p (idx 1 va) <;> rfl

/-- A walk to a table that exists. -/
theorem pageWalk_at {q : ℕ} (hva : va < MAXVA)
    (hq : nodeAt (entry m) pt [idx 2 va, idx 1 va] = some q) (alloc : Bool) :
    Mm.pageWalk pt va alloc m = .ok (q + 8 * px 0 va, m) := by
  have hstep : ∀ level p q, entry m p (idx level va) = some q →
      Mm.walkStep level va alloc p m = .ok (some q, m) := by
    intro level p q hp
    rw [entry] at hp
    split at hp
    · rename_i hv
      rw [← Option.some.inj hp]
      exact if_pos hv
    · cases hp
  rw [show [idx 2 va, idx 1 va] = [] ++ [idx 2 va] ++ [idx 1 va] from rfl, nodeAt_concat,
    nodeAt_concat, nodeAt_nil, Option.bind_some] at hq
  obtain ⟨p, hp, hq⟩ := Option.bind_eq_some_iff.1 hq
  rw [Mm.pageWalk, if_neg (by omega), hstep 2 pt p hp]
  simp only [ok_bind, hstep 1 p q hq, pure_eq_ok]

/-- The pages of the addresses of a page are found by the same walk. -/
theorem pageWalk_roundDown (alloc : Bool) :
    Mm.pageWalk pt (roundDown va PGSIZE) alloc m = Mm.pageWalk pt va alloc m := by
  have hpx : ∀ level, px level (roundDown va PGSIZE) = px level va := by
    intro level
    rw [px_eq, px_eq, roundDown, pow_add, ← Nat.div_div_eq_div_mul, ← Nat.div_div_eq_div_mul]
    simp only [PGSIZE]
    norm_num
  have hle : MAXVA ≤ roundDown va PGSIZE ↔ MAXVA ≤ va := by
    simp only [MAXVA, roundDown, PGSIZE]
    omega
  simp only [Mm.pageWalk, Mm.walkStep, hpx, hle]

/-- **`map_pages` of one page** whose table exists. -/
theorem mapPages_at {q size pa perm : ℕ} (hva : va < MAXVA)
    (hone : roundDown ((va + size + (2 ^ 64 - 1)) % 2 ^ 64) PGSIZE = roundDown va PGSIZE)
    (hq : nodeAt (entry m) pt [idx 2 va, idx 1 va] = some q) (h0 : q + 8 * px 0 va ≠ 0) :
    Mm.mapPages pt va size pa perm m =
      if m.mem (q + 8 * px 0 va) &&& PTE_V ≠ 0 then .error (.panic "map_pages fails!")
      else .ok (0, m.store (q + 8 * px 0 va) (pa2pte pa ||| perm ||| PTE_V |||
        if m.mem (q + 8 * px 0 va) = 0x100 then 0x100 else 0)) := by
  have hwalk := pageWalk_at hva hq true
  rw [Mm.mapPages, hwalk, hone]
  simp only [ok_bind, Mach.load, h0, if_false, pure_eq_ok, le_refl, if_true, Nat.sub_self,
    Nat.zero_div, Nat.zero_add]
  split <;> simp only [mapLoop, pageWalk_roundDown, hwalk, ok_bind, h0, if_false, throw_eq_error,
    error_bind, pure_eq_ok]

end Walk

/-! ## Reading and writing an entry -/

theorem LeafWord.valid_iff {w : ℕ} {e : Option (ℕ × ℕ)} (hw : LeafWord w e)
    (he : ∀ f perm, e = some (f, perm) → FrameOk f perm) : w &&& PTE_V = 0 ↔ e = none := by
  rcases e with _ | ⟨f, perm⟩
  · simpa using hw.1
  · have hf := he f perm rfl
    rw [hw, mkPte_and hf.lt (by decide), Nat.and_or_distrib_right]
    simp

/-- An entry whose valid bit is cleared is free. -/
theorem LeafWord.clear {w f perm : ℕ} (hw : LeafWord w (some (f, perm))) (hf : FrameOk f perm) :
    LeafWord (w &&& (2 ^ 64 - 1 - PTE_V)) none := by
  have hbit : ∀ z < 2 ^ 10, (w &&& (2 ^ 64 - 1 - PTE_V)) &&& z =
      (perm ||| PTE_V) &&& ((2 ^ 64 - 1 - PTE_V) &&& z) := by
    intro z hz
    rw [Nat.and_assoc, hw, mkPte_and hf.lt (lt_of_le_of_lt Nat.and_le_right hz)]
  refine ⟨?_, fun heq => ?_⟩
  · rw [hbit _ (by decide)]
    exact Nat.and_zero _
  · have h6 := hbit (PTE_R ||| PTE_W) (by decide)
    rw [heq, show (2 ^ 64 - 1 - PTE_V) &&& (PTE_R ||| PTE_W) = PTE_R ||| PTE_W by decide,
      Nat.and_or_distrib_right] at h6
    have h6' : perm &&& (PTE_R ||| PTE_W) = 0 := by
      have : (0x100 : ℕ) &&& (PTE_R ||| PTE_W) = 0 := by decide
      rw [this, eq_comm, Nat.or_eq_zero_iff] at h6
      exact h6.1
    exact hf.readable h6'

namespace PtInv

variable {pt p q va n pa perm w : ℕ} {m m' : Mach} {pm : PageMap} {frames : Set ℕ} {l : List ℕ}
  {i j k : Fin 512}

theorem frameOk (h : PtInv pt m pm) {v f perm : ℕ} (hv : pm v = some (f, perm)) : FrameOk f perm :=
  (h.frame v f perm hv).1

/-- The word of the entry of `va`, once its table exists. -/
theorem leafWord (h : PtInv pt m pm) (hva : va < MAXVA)
    (hq : nodeAt (entry m) pt [idx 2 va, idx 1 va] = some q) :
    LeafWord (m.mem (q + 8 * px 0 va)) (pm (va / PGSIZE)) := by
  have := h.leaf (idx 2 va) (idx 1 va) (idx 0 va) q hq
  rwa [vpn_idx hva] at this

/-- **`lookup_pa` computes the map.** -/
theorem lookupPa (h : PtInv pt m pm) (va : ℕ) :
    Mm.lookupPa pt va m = .ok ((pm (va / PGSIZE)).elim 0 Prod.fst, m) := by
  by_cases hva : MAXVA ≤ va
  · have hv : pm (va / PGSIZE) = none := by
      refine h.bound _ ?_
      simp only [MAXVA, PGSIZE] at *
      omega
    rw [Mm.lookupPa, if_pos hva, hv]
    rfl
  rw [Mm.lookupPa, if_neg hva, pageWalk_false (by omega)]
  simp only [ok_bind]
  cases hq : nodeAt (entry m) pt [idx 2 va, idx 1 va] with
  | none =>
    have hv := h.absent _ _ (idx 0 va) hq
    rw [vpn_idx (by omega)] at hv
    simp [hv]
  | some q =>
    have hq0 := (h.page q ⟨_, by simp, hq⟩).2.1
    have hw := h.leafWord (by omega) hq
    have hval := hw.valid_iff fun _ _ => h.frameOk
    have hne : q + 8 * px 0 va ≠ 0 := by omega
    simp only [Option.map_some, Option.getD_some, hne, if_false, hval, pure_eq_ok]
    rcases hv : pm (va / PGSIZE) with _ | ⟨f, perm⟩
    · simp
    · have hf := h.frameOk hv
      rw [hv] at hw
      have hflag : ∀ z < 2 ^ 10, m.mem (q + 8 * px 0 va) &&& z = (perm ||| PTE_V) &&& z := by
        intro z hz
        rw [hw, mkPte_and hf.lt hz]
      have hrw : ¬ (m.mem (q + 8 * px 0 va) &&& PTE_R = 0 ∧
          m.mem (q + 8 * px 0 va) &&& PTE_W = 0) := by
        rintro ⟨hr, hw'⟩
        rw [hflag _ (by decide), Nat.and_or_distrib_right, Nat.or_eq_zero_iff] at hr hw'
        refine hf.readable ?_
        rw [Nat.and_or_distrib_left, hr.1, hw'.1]
        rfl
      simp only [reduceCtorEq, hrw, or_self, if_false, Option.elim_some]
      rw [hw, pte2pa_mkPte hf.lt hf.aligned (Nat.or_lt_two_pow hf.perm_lt (by decide))]

/-- A store to a last-level table leaves the inner tables alone. -/
theorem entry_store (h : PtInv pt m pm) (hq : nodeAt (entry m) pt [i, j] = some q) {r : ℕ}
    (hr : IsNode (entry m) pt 1 r) (c : Fin 512) :
    entry (m.store (q + 8 * k) w) r c = entry m r c := by
  obtain ⟨R, hR, hr⟩ := hr
  refine entry_congr (Mach.store_of_ne _ _ fun e => ?_)
  obtain ⟨rfl, -⟩ := slot_inj (h.page r ⟨R, by omega, hr⟩).1 (h.page q ⟨_, by simp, hq⟩).1 c.2 k.2 e
  -- an inner table is not the last-level table `q`
  have := h.placed _ _ _ (by simp) (by omega) hq hr
  simp [← this] at hR

theorem nodeAt_store (h : PtInv pt m pm) (hq : nodeAt (entry m) pt [i, j] = some q)
    (R : List (Fin 512)) (hR : R.length ≤ 2) :
    nodeAt (entry (m.store (q + 8 * k) w)) pt R = nodeAt (entry m) pt R :=
  nodeAt_congr (fun _ hr c => h.entry_store hq hr c) hR

/-- **Writing a last-level entry** changes the map at one page, and no table. -/
theorem storeLeaf (h : PtInv pt m pm) {e : Option (ℕ × ℕ)}
    (hq : nodeAt (entry m) pt [i, j] = some q) (hw : LeafWord w e)
    (he : ∀ f perm, e = some (f, perm) → FrameOk f perm ∧ ¬ IsTable pt m f)
    (hb : e ≠ none → vpn i j k < 2 ^ 26) :
    PtInv pt (m.store (q + 8 * k) w) (Function.update pm (vpn i j k) e) ∧
      ∀ r, IsTable pt (m.store (q + 8 * k) w) r ↔ IsTable pt m r := by
  have hqp := h.page q ⟨_, by simp, hq⟩
  have hmem : ∀ r (c : Fin 512), PGSIZE ∣ r → ¬ (r = q ∧ c = k) →
      (m.store (q + 8 * k) w).mem (r + 8 * c) = m.mem (r + 8 * c) := by
    intro r c hr hrc
    refine Mach.store_of_ne _ _ fun e => hrc ?_
    obtain ⟨e₁, e₂⟩ := slot_inj hr hqp.1 c.2 k.2 e
    exact ⟨e₁, Fin.ext e₂⟩
  have hn := h.nodeAt_store (w := w) (k := k) hq
  have htab : ∀ r, IsTable pt (m.store (q + 8 * k) w) r ↔ IsTable pt m r :=
    fun r => isTable_congr fun _ hr c => h.entry_store hq hr c
  refine ⟨?_, htab⟩
  refine
    { placed := ?_
      page := fun r hr => h.page r ((htab r).1 hr)
      leaf := ?_
      absent := ?_
      frame := ?_
      bound := ?_ }
  · intro R S r hR hS hr hs
    rw [hn R hR] at hr
    rw [hn S hS] at hs
    exact h.placed R S r hR hS hr hs
  · intro a b c r hr
    rw [hn _ (by simp)] at hr
    by_cases habc : a = i ∧ b = j ∧ c = k
    · obtain ⟨rfl, rfl, rfl⟩ := habc
      obtain rfl := Option.some.inj (hr.symm.trans hq)
      rw [Function.update_self, Mach.store_self]
      exact hw
    · rw [Function.update_of_ne fun e => habc (vpn_inj e), hmem r c (h.page r ⟨_, by simp, hr⟩).1]
      · exact h.leaf a b c r hr
      · rintro ⟨rfl, rfl⟩
        have := h.placed _ _ _ (by simp) (by simp) hr hq
        simp at this
        exact habc ⟨this.1, this.2, rfl⟩
  · intro a b c hab
    rw [hn _ (by simp)] at hab
    rw [Function.update_of_ne, h.absent a b c hab]
    intro e
    obtain ⟨rfl, rfl, -⟩ := vpn_inj e
    simp [hq] at hab
  · intro v f perm hv
    rw [htab]
    rw [Function.update_apply] at hv
    split at hv
    · exact he f perm hv
    · exact h.frame v f perm hv
  · intro v hv
    rw [Function.update_apply]
    split
    · rename_i hvi
      by_contra hne
      have := hb hne
      omega
    · exact h.bound v hv

end PtInv

/-- Writing an entry whose frame is among `frames` leaves the pool fresh. -/
theorem FreshPool.storeLeaf {pt q v w : ℕ} {m : Mach} {pm : PageMap} {frames : Set ℕ} {l : List ℕ}
    {k : Fin 512} {e : Option (ℕ × ℕ)} (hl : FreshPool pt m pm frames l) (hal : PGSIZE ∣ q)
    (hq : IsTable pt m q) (htab : ∀ r, IsTable pt (m.store (q + 8 * k) w) r ↔ IsTable pt m r)
    (he : ∀ f perm, e = some (f, perm) → f ∈ frames) :
    FreshPool pt (m.store (q + 8 * k) w) (Function.update pm v e) frames l := by
  refine
    { chain := ?_
      nodup := hl.nodup
      unlocked := hl.unlocked
      page := hl.page
      table := fun r hr => (htab r).not.2 (hl.table r hr)
      frame := ?_
      apart := hl.apart
      frames_table := fun f hf => (htab f).not.2 (hl.frames_table f hf) }
  · refine hl.chain.update_of_notMem fun hm => ?_
    obtain ⟨e₁, -⟩ := slot_inj (b := 0) hal (hl.page _ hm).1 k.2 (by omega) (by simp)
    exact hl.table _ hm (e₁ ▸ hq)
  · intro r hr x f perm hx
    rw [Function.update_apply] at hx
    split at hx
    · rintro rfl
      exact hl.apart f hr (he f perm hx)
    · exact hl.frame r hr x f perm hx

/-! ## Mapping a range -/

/-- The map after `n` pages from page number `v` on are mapped to frames from `pa` on. -/
def mapRange (pm : PageMap) (v n pa perm : ℕ) : PageMap :=
  fun x => if v ≤ x ∧ x < v + n then some (pa + PGSIZE * (x - v), perm) else pm x

theorem mapRange_zero (pm : PageMap) (v pa perm : ℕ) : mapRange pm v 0 pa perm = pm := by
  funext x
  exact if_neg (by omega)

/-- Mapping a range page by page. -/
theorem mapRange_succ (pm : PageMap) (v n pa perm : ℕ) : mapRange pm v (n + 1) pa perm =
    mapRange (Function.update pm v (some (pa, perm))) (v + 1) n (pa + PGSIZE) perm := by
  funext x
  rcases Nat.lt_trichotomy x v with hx | rfl | hx
  · rw [mapRange, mapRange, if_neg (by omega), if_neg (by omega), Function.update_of_ne (by omega)]
  · rw [mapRange, mapRange, if_pos (by omega), if_neg (by omega), Function.update_self]
    simp
  · by_cases hn : x < v + (n + 1)
    · rw [mapRange, mapRange, if_pos (by omega), if_pos (by omega)]
      rw [show x - v = x - (v + 1) + 1 by omega]
      simp only [Option.some.injEq, Prod.mk.injEq, and_true]
      ring
    · rw [mapRange, mapRange, if_neg (by omega), if_neg (by omega),
        Function.update_of_ne (by omega)]

/-- The frames of a range. -/
def framesOf (pa n : ℕ) : Set ℕ := {f | ∃ t < n, f = pa + PGSIZE * t}

namespace PtInv

variable {pt va n pa perm : ℕ} {m m' : Mach} {pm : PageMap} {frames : Set ℕ} {l : List ℕ}

/-- **The loop of `map_pages`** maps its pages, or uses up the pool. -/
theorem mapLoop (h : PtInv pt m pm) (hl : FreshPool pt m pm frames l) (hva : PGSIZE ∣ va)
    (hend : va + PGSIZE * n ≤ MAXVA) (hfree : ∀ t < n, pm (va / PGSIZE + t) = none)
    (hpa : PGSIZE ∣ pa) (hlt : ∀ f ∈ framesOf pa n, f < 2 ^ 56) (hfr : framesOf pa n ⊆ frames)
    (hperm : perm < 2 ^ 10) (hread : perm &&& (PTE_R ||| PTE_W) ≠ 0) :
    (l.length < 2 * n ∧ ∃ m', Mm.mapLoop pt perm 0 n va pa m = .ok (-1, m')) ∨
      ∃ m', Mm.mapLoop pt perm 0 n va pa m = .ok (0, m') ∧
        PtInv pt m' (mapRange pm (va / PGSIZE) n pa perm) := by
  induction n generalizing va pa m pm l with
  | zero =>
    refine .inr ⟨m, rfl, ?_⟩
    rwa [mapRange_zero]
  | succ n ih =>
    have hva' : va < MAXVA := by simp only [PGSIZE, MAXVA] at *; omega
    have hmem : pa ∈ framesOf pa (n + 1) := ⟨0, by omega, by simp⟩
    rcases h.pageWalk hl hva' with ⟨hlen, m₁, e⟩ | ⟨q, m₁, l₁, e, hlen, w, hq⟩
    · refine .inl ⟨by omega, m₁, ?_⟩
      simp only [Mm.mapLoop, e, ok_bind, if_true, pure_eq_ok]
    have hqt : IsTable pt m₁ q := ⟨_, by simp, hq⟩
    have hqp := w.inv.page q hqt
    have hne : q + 8 * px 0 va ≠ 0 := by omega
    have hw := w.inv.leafWord hva' hq
    have hnone : pm (va / PGSIZE) = none := by simpa using hfree 0 (by omega)
    rw [hnone] at hw
    -- the new entry, and the state after it is stored
    have hleaf : LeafWord (pa2pte pa ||| perm ||| PTE_V ||| 0) (some (pa, perm)) := by
      simp only [LeafWord, Nat.or_zero, Nat.or_assoc]
    have hfok : ∀ f perm', some (pa, perm) = some (f, perm') →
        FrameOk f perm' ∧ ¬ IsTable pt m₁ f := by
      rintro f perm' hf
      cases hf
      exact ⟨⟨hpa, hlt pa hmem, hperm, hread⟩, w.pool.frames_table pa (hfr hmem)⟩
    have hvpn := vpn_idx hva'
    obtain ⟨hs, htab⟩ := w.inv.storeLeaf (k := idx 0 va) hq hleaf hfok
      (fun _ => by rw [hvpn]; simp only [PGSIZE, MAXVA] at *; omega)
    have hpool := w.pool.storeLeaf (v := vpn (idx 2 va) (idx 1 va) (idx 0 va)) hqp.1 hqt htab
      (e := some (pa, perm)) (by rintro f perm' hf; cases hf; exact hfr hmem)
    rw [hvpn] at hs hpool
    have hdiv : (va + PGSIZE) / PGSIZE = va / PGSIZE + 1 := Nat.add_div_right _ (by decide)
    have hmod : (pa + PGSIZE) % 2 ^ 64 = pa + PGSIZE := by
      have := hlt pa hmem
      simp only [PGSIZE] at *
      omega
    have hstep : Mm.mapLoop pt perm 0 (n + 1) va pa m = Mm.mapLoop pt perm 0 n (va + PGSIZE)
        (pa + PGSIZE) (m₁.store (q + 8 * px 0 va) (pa2pte pa ||| perm ||| PTE_V ||| 0)) := by
      simp only [Mm.mapLoop, e, ok_bind, hne, if_false, hw.1, ne_eq, not_true, hmod]
    have hsub : framesOf (pa + PGSIZE) n ⊆ framesOf pa (n + 1) := by
      rintro f ⟨t, ht, rfl⟩
      exact ⟨t + 1, by omega, by ring⟩
    have hfree' : ∀ t < n, Function.update pm (va / PGSIZE) (some (pa, perm))
        ((va + PGSIZE) / PGSIZE + t) = none := by
      intro t ht
      rw [hdiv, Function.update_of_ne (by omega)]
      simpa [Nat.add_assoc, Nat.add_comm 1] using hfree (t + 1) (by omega)
    rw [hstep, mapRange_succ, ← hdiv]
    rcases ih hs hpool ((Nat.dvd_add_self_right).2 hva) (by rw [Nat.mul_succ] at hend; omega) hfree'
      ((Nat.dvd_add_self_right).2 hpa) (fun f hf => hlt f (hsub hf)) (hsub.trans hfr) with
      ⟨hlen', e'⟩ | h'
    · exact .inl ⟨by omega, e'⟩
    · exact .inr h'

/-- The number of pages that `map_pages` maps for a size. -/
theorem mapPages_count {size : ℕ} (hva : PGSIZE ∣ va) (hpos : 0 < size) (hend : va + size ≤ MAXVA) :
    roundDown va PGSIZE = va ∧
      roundDown ((va + size + (2 ^ 64 - 1)) % 2 ^ 64) PGSIZE =
          va + PGSIZE * ((size - 1) / PGSIZE) := by
  simp only [roundDown, PGSIZE, MAXVA] at *
  omega

end PtInv

/-- The pages of a range of `size` bytes from a page boundary on. -/
def npages (size : ℕ) : ℕ := (size - 1) / PGSIZE + 1

/-- The arguments and the state with which `map_pages` is called: aligned addresses in range, a
range of free pages, permissions of `prot_to_type`, frames that are not tables, and an `alloc_page`
whose pages `l` are not in use. -/
structure MapArgs (pt : ℕ) (m : Mach) (pm : PageMap) (va size pa perm : ℕ) (l : List ℕ) : Prop where
  va_aligned : PGSIZE ∣ va
  pa_aligned : PGSIZE ∣ pa
  pos : 0 < size
  va_le : va + size ≤ MAXVA
  pa_lt : ∀ f ∈ framesOf pa (npages size), f < 2 ^ 56
  free : ∀ t < npages size, pm (va / PGSIZE + t) = none
  perm_type : ∃ prot user, perm = protToType prot user
  readable : perm &&& (PTE_R ||| PTE_W) ≠ 0
  pool : FreshPool pt m pm (framesOf pa (npages size)) l

namespace PtInv

variable {pt va size pa perm : ℕ} {m m' : Mach} {pm : PageMap} {l : List ℕ}

/-- **`map_pages` maps the range**, or the pool of `alloc_page` is used up on the way. -/
theorem mapPages (h : PtInv pt m pm) (a : MapArgs pt m pm va size pa perm l) :
    (l.length < 2 * npages size + 2 ∧
      (Mm.mapPages pt va size pa perm m = .error .nullDeref ∨
        ∃ m', Mm.mapPages pt va size pa perm m = .ok (-1, m'))) ∨
      ∃ m', Mm.mapPages pt va size pa perm m = .ok (0, m') ∧
        PtInv pt m' (mapRange pm (va / PGSIZE) (npages size) pa perm) := by
  have hva' : va < MAXVA := by have := a.va_le; have := a.pos; omega
  obtain ⟨hfirst, hlast⟩ := mapPages_count a.va_aligned a.pos a.va_le
  have hn : (va + PGSIZE * ((size - 1) / PGSIZE) - va) / PGSIZE + 1 = npages size := by
    simp only [npages, PGSIZE]
    omega
  have hend : va + PGSIZE * npages size ≤ MAXVA := by
    have := a.va_le
    have := a.va_aligned
    have := a.pos
    simp only [npages, PGSIZE, MAXVA] at *
    omega
  rcases h.pageWalk a.pool hva' with ⟨hlen, m₁, e⟩ | ⟨q, m₁, l₁, e, hlen, w, hq⟩
  · refine .inl ⟨by omega, .inl ?_⟩
    simp only [Mm.mapPages, e, ok_bind, Mach.load, if_true, throw_eq_error, error_bind]
  have hqp := w.inv.page q ⟨_, by simp, hq⟩
  have hne : q + 8 * px 0 va ≠ 0 := by omega
  have hw := w.inv.leafWord hva' hq
  rw [show pm (va / PGSIZE) = none by simpa using a.free 0 (by simp [npages])] at hw
  have hstep : Mm.mapPages pt va size pa perm m = Mm.mapLoop pt perm 0 (npages size) va pa m₁ := by
    simp only [Mm.mapPages, e, ok_bind, Mach.load, hne, if_false, pure_eq_ok, hfirst, hlast, hw.2,
      Nat.le_add_right, if_true, hn]
  obtain ⟨prot, user, hperm⟩ := a.perm_type
  rw [hstep]
  rcases w.inv.mapLoop w.pool a.va_aligned hend a.free a.pa_aligned a.pa_lt le_rfl
    (hperm ▸ protToType_lt prot user) a.readable with ⟨hlen', e'⟩ | h'
  · exact .inl ⟨by omega, .inr e'⟩
  · exact .inr h'

/-- **`user_vm_unmap` of a mapped page**: the frame is pushed on the free list, at the offset that
the address has in its page, and the valid bit of the entry is cleared. -/
theorem unmap_eq {f : ℕ} (h : PtInv pt m pm) (hv : pm (va / PGSIZE) = some (f, perm)) (size : ℕ) :
    ∃ q, nodeAt (entry m) pt [idx 2 va, idx 1 va] = some q ∧ va < MAXVA ∧
      Mm.userVmUnmap pt va size 1 m =
        if f + va % PGSIZE < m.freeMemStartAddr ∨ m.freeMemEndAddr ≤ f + va % PGSIZE then
          .error (.panic "free_page 0x%lx")
        else .ok { (m.store (f + va % PGSIZE) m.gFreeMemList).store (q + 8 * px 0 va)
            (m.mem (q + 8 * px 0 va) &&& (2 ^ 64 - 1 - PTE_V)) with
          gFreeMemList := f + va % PGSIZE } := by
  have hva' : va < MAXVA := by
    by_contra hge
    rw [h.bound _ (by simp only [MAXVA, PGSIZE] at *; omega)] at hv
    cases hv
  obtain ⟨q, hq⟩ : ∃ q, nodeAt (entry m) pt [idx 2 va, idx 1 va] = some q := by
    rw [← Option.ne_none_iff_exists']
    intro hq
    have := h.absent _ _ (idx 0 va) hq
    rw [vpn_idx hva', hv] at this
    cases this
  have hqt : IsTable pt m q := ⟨_, by simp, hq⟩
  have hqp := h.page q hqt
  have hne : q + 8 * px 0 va ≠ 0 := by omega
  have hfok := h.frame _ _ _ hv
  have hoff : (f + (va &&& 0xfff)) % 2 ^ 64 = f + va % PGSIZE := by
    have := hfok.1.lt
    rw [show (0xfff : ℕ) = 2 ^ 12 - 1 from rfl, Nat.and_two_pow_sub_one_eq_mod]
    simp only [PGSIZE]
    omega
  -- the entry is not on the frame that is freed
  have hslot : q + 8 * px 0 va ≠ f + va % PGSIZE := by
    intro he
    refine hfok.2 (?_ : IsTable pt m f)
    obtain ⟨x, hx⟩ := hqp.1
    obtain ⟨y, hy⟩ := hfok.1.aligned
    have hlt := px_lt 0 va
    have : q = f := by
      simp only [PGSIZE] at *
      omega
    exact this ▸ hqt
  have hword : (m.store (f + va % PGSIZE) m.gFreeMemList).mem (q + 8 * px 0 va) =
      m.mem (q + 8 * px 0 va) := Mach.store_of_ne _ _ hslot
  refine ⟨q, hq, hva', ?_⟩
  simp only [Mm.userVmUnmap, ne_eq, one_ne_zero, not_false_iff, if_true, pageWalk_false hva', hq,
    ok_bind, Option.map_some, Option.getD_some, userVaToPa, h.lookupPa, hv, Option.elim_some,
    pure_eq_ok, hoff, freePage]
  split
  · rfl
  · simp only [ok_bind, Mach.load, hne, if_false, pure_eq_ok, hword]
    rfl

theorem unmap_ok {f : ℕ} (h : PtInv pt m pm) (hv : pm (va / PGSIZE) = some (f, perm))
    (e : Mm.userVmUnmap pt va size 1 m = .ok m') :
    ∃ q, nodeAt (entry m) pt [idx 2 va, idx 1 va] = some q ∧ va < MAXVA ∧
      m.freeMemStartAddr ≤ f + va % PGSIZE ∧
      m' = { (m.store (f + va % PGSIZE) m.gFreeMemList).store (q + 8 * px 0 va)
          (m.mem (q + 8 * px 0 va) &&& (2 ^ 64 - 1 - PTE_V)) with
        gFreeMemList := f + va % PGSIZE } := by
  obtain ⟨q, hq, hva', heq⟩ := h.unmap_eq hv size
  rw [heq] at e
  split at e
  · cases e
  · exact ⟨q, hq, hva', by omega, (Except.ok.inj e).symm⟩

/-- **`user_vm_unmap` of a mapped page** removes it from the map. -/
theorem userVmUnmap (h : PtInv pt m pm) (hva : PGSIZE ∣ va) (hv : pm (va / PGSIZE) ≠ none)
    (e : Mm.userVmUnmap pt va size 1 m = .ok m') :
    PtInv pt m' (Function.update pm (va / PGSIZE) none) := by
  obtain ⟨⟨f, perm⟩, hv⟩ := Option.ne_none_iff_exists'.1 hv
  obtain ⟨q, hq, hva', -, rfl⟩ := h.unmap_ok hv e
  have hfok := h.frame _ _ _ hv
  rw [Nat.mod_eq_zero_of_dvd hva, Nat.add_zero]
  -- freeing the frame does not touch the tables
  have hentry : ∀ r, IsTable pt m r → ∀ c : Fin 512,
      (m.store f m.gFreeMemList).mem (r + 8 * c) = m.mem (r + 8 * c) := by
    intro r hr c
    refine Mach.store_of_ne _ _ fun e => hfok.2 ?_
    obtain ⟨rfl, -⟩ := slot_inj (b := 0) (h.page r hr).1 hfok.1.aligned c.2 (by omega)
      (by simpa using e)
    exact hr
  have hchild : ∀ r, IsNode (entry m) pt (2 - 1) r → ∀ c,
      entry (m.store f m.gFreeMemList) r c = entry m r c := by
    rintro r ⟨R, hR, hr⟩ c
    exact entry_congr (hentry r ⟨R, by omega, hr⟩ c)
  have hq₁ : nodeAt (entry (m.store f m.gFreeMemList)) pt [idx 2 va, idx 1 va] = some q := by
    rw [nodeAt_congr hchild (by simp), hq]
  have hw := h.leafWord hva' hq
  rw [hv] at hw
  have hs := ((h.congr hentry).storeLeaf (k := idx 0 va) hq₁ (hw.clear hfok.1) (by simp)
    (by simp)).1
  rw [vpn_idx hva'] at hs
  exact hs.congr fun _ _ _ => rfl

end PtInv

/-! ## Runs -/

/-- `VmRun pt m pm`: from a zeroed page directory `pt`, a sequence of calls of `map_pages` and
`user_vm_unmap` that return, interleaved with kernel code that leaves the tables alone, leads to
the memory `m`; `pm` is what has been mapped and not unmapped since. -/
inductive VmRun (pt : ℕ) : Mach → PageMap → Prop
  | start {m : Mach} : PGSIZE ∣ pt → pt ≠ 0 → pt < 2 ^ 56 →
    (∀ k : Fin 512, m.mem (pt + 8 * k) = 0) →
      VmRun pt m fun _ => none
  | other {m m' : Mach} {pm : PageMap} : VmRun pt m pm →
      (∀ p, IsTable pt m p → ∀ a, p ≤ a → a < p + PGSIZE → m'.mem a = m.mem a) → VmRun pt m' pm
  | map {m m' : Mach} {pm : PageMap} {va size pa perm : ℕ} {l : List ℕ} : VmRun pt m pm →
      MapArgs pt m pm va size pa perm l → mapPages pt va size pa perm m = .ok (0, m') →
      VmRun pt m' (mapRange pm (va / PGSIZE) (npages size) pa perm)
  | unmap {m m' : Mach} {pm : PageMap} {va : ℕ} : VmRun pt m pm → PGSIZE ∣ va →
      pm (va / PGSIZE) ≠ none → userVmUnmap pt va PGSIZE 1 m = .ok m' →
      VmRun pt m' (Function.update pm (va / PGSIZE) none)

/-- A zeroed page directory has no further table. -/
theorem nodeAt_zero {pt p : ℕ} {m : Mach} (hz : ∀ k : Fin 512, m.mem (pt + 8 * k) = 0)
    {R : List (Fin 512)} (hR : nodeAt (entry m) pt R = some p) : R = [] ∧ p = pt := by
  rcases R with _ | ⟨k, R⟩
  · exact ⟨rfl, (Option.some.inj hR).symm⟩
  · have hk : entry m pt k = none := by rw [entry, hz, if_neg (by decide)]
    rw [nodeAt, List.foldlM_cons, hk] at hR
    cases hR

/-- A zeroed page directory holds the empty map. -/
theorem ptInv_zero {pt : ℕ} {m : Mach} (hal : PGSIZE ∣ pt) (h0 : pt ≠ 0) (hlt : pt < 2 ^ 56)
    (hz : ∀ k : Fin 512, m.mem (pt + 8 * k) = 0) : PtInv pt m fun _ => none where
  placed _ _ _ _ _ hR hS := (nodeAt_zero hz hR).1.trans (nodeAt_zero hz hS).1.symm
  page := by
    rintro p ⟨R, -, hR⟩
    obtain ⟨-, rfl⟩ := nodeAt_zero hz hR
    exact ⟨hal, h0, hlt⟩
  leaf i j k q hq := by simpa using (nodeAt_zero hz hq).1
  absent _ _ _ _ := rfl
  frame _ _ _ hv := by cases hv
  bound _ _ := rfl

theorem VmRun.inv {pt : ℕ} {m : Mach} {pm : PageMap} (run : VmRun pt m pm) : PtInv pt m pm := by
  induction run with
  | start hal h0 hlt hz => exact ptInv_zero hal h0 hlt hz
  | other _ hm ih =>
    refine ih.congr fun p hp k => hm p hp _ (by omega) ?_
    simp only [PGSIZE]
    omega
  | map _ a e ih =>
    rcases ih.mapPages a with ⟨-, e' | ⟨m', e'⟩⟩ | ⟨m', e', h⟩
    · rw [e] at e'
      cases e'
    · rw [e] at e'
      cases e'
    · rw [e] at e'
      cases e'
      exact h
  | unmap _ hva hv e ih => exact ih.userVmUnmap hva hv e

/-- The last-level entry of a virtual address, if its table exists. -/
def pteOf (pt va : ℕ) (m : Mach) : Option ℕ :=
  (nodeAt (entry m) pt [idx 2 va, idx 1 va]).map fun q => m.mem (q + 8 * px 0 va)

/-- **The page table is the map of what has been mapped.** In every state of every run `lookup_pa`
returns the frame last mapped at the page of its argument, and `0` where there is none; the entries
of the pages mapped hold their frame and permission, and those of all others are invalid; and
`map_pages` does not panic: with enough pages for its tables it returns. -/
theorem pageTable_of_run {pt : ℕ} {m : Mach} {pm : PageMap} (run : VmRun pt m pm) :
    (∀ va, lookupPa pt va m = .ok ((pm (va / PGSIZE)).elim 0 Prod.fst, m)) ∧
      (∀ va < MAXVA, ∀ f perm, pm (va / PGSIZE) = some (f, perm) →
        pteOf pt va m = some (pa2pte f ||| (perm ||| PTE_V))) ∧
      (∀ va < MAXVA, pm (va / PGSIZE) = none → ∀ w ∈ pteOf pt va m, w &&& PTE_V = 0) ∧
      ∀ va size pa perm l, MapArgs pt m pm va size pa perm l →
        (∀ msg, mapPages pt va size pa perm m ≠ .error (.panic msg)) ∧
        (2 * npages size + 2 ≤ l.length → ∃ m', mapPages pt va size pa perm m = .ok (0, m')) := by
  have h := run.inv
  refine ⟨h.lookupPa, ?_, ?_, ?_⟩
  · intro va hva f perm hv
    rw [pteOf]
    cases hq : nodeAt (entry m) pt [idx 2 va, idx 1 va] with
    | none =>
      have := h.absent _ _ (idx 0 va) hq
      rw [vpn_idx hva, hv] at this
      cases this
    | some q =>
      have hw := h.leafWord hva hq
      rw [hv] at hw
      exact congrArg some hw
  · intro va hva hv w hw
    obtain ⟨q, hq, rfl⟩ := Option.map_eq_some_iff.1 hw
    have hw := h.leafWord hva hq
    rw [hv] at hw
    exact hw.1
  · intro va size pa perm l a
    rcases h.mapPages a with ⟨hlen, e | ⟨m', e⟩⟩ | ⟨m', e, -⟩
    · rw [e]
      exact ⟨by simp, by omega⟩
    · rw [e]
      exact ⟨by simp, by omega⟩
    · rw [e]
      exact ⟨by simp, fun _ => ⟨m', rfl⟩⟩

/-- A memory with a zeroed page at `0x1000` and two free pages behind it. -/
def twoFree : Mach where
  mem := fun a => if a = 0x2000 then 0x3000 else 0
  freeMemStartAddr := 0x2000
  freeMemEndAddr := 0x10000
  gFreeMemList := 0x2000
  count5 := 1

/-- Mapping one page and looking it up, in a memory with just enough pages for the two tables. -/
theorem pageTable_of_run_one : ∃ m, VmRun 0x1000 m (mapRange (fun _ => none) 5 1 0x8000 198) ∧
    lookupPa 0x1000 0x5123 m = .ok (0x8000, m) ∧ lookupPa 0x1000 0x6000 m = .ok (0, m) := by
  have hz : ∀ k : Fin 512, twoFree.mem (0x1000 + 8 * k) = 0 := by
    intro k
    have : 0x1000 + 8 * k.1 ≠ 0x2000 := by omega
    simp only [twoFree, this, if_false]
  have htab : ∀ p, IsTable 0x1000 twoFree p → p = 0x1000 :=
    fun p ⟨_, _, hR⟩ => (nodeAt_zero hz hR).2
  have args : MapArgs 0x1000 twoFree (fun _ => none) 0x5000 0x1000 0x8000 198 [0x2000, 0x3000] :=
    { va_aligned := by decide
      pa_aligned := by decide
      pos := by decide
      va_le := by decide
      pa_lt := by
        rintro f ⟨t, ht, rfl⟩
        simp only [npages, PGSIZE] at *
        omega
      free := fun _ _ => rfl
      perm_type := ⟨3, 0, rfl⟩
      readable := by decide
      pool :=
        { chain := ⟨rfl, by decide, rfl, by decide, rfl⟩
          nodup := by decide
          unlocked := rfl
          page := by simp [PGSIZE]
          table := by
            intro q hq hq'
            have := htab q hq'
            simp [this] at hq
          frame := fun _ _ _ _ _ hv => by cases hv
          apart := by
            rintro q hq ⟨t, ht, rfl⟩
            simp only [npages, PGSIZE, List.mem_cons, List.not_mem_nil, or_false] at *
            omega
          frames_table := by
            rintro f ⟨t, ht, rfl⟩ hf
            have := htab _ hf
            omega } }
  have hmap : ∃ m, mapPages 0x1000 0x5000 0x1000 0x8000 198 twoFree = .ok (0, m) := ⟨_, rfl⟩
  obtain ⟨m, hm⟩ := hmap
  have run : VmRun 0x1000 m (mapRange (fun _ => none) 5 1 0x8000 198) :=
    (VmRun.start (by decide) (by decide) (by decide) hz).map args hm
  have h := (pageTable_of_run run).1
  exact ⟨m, run, h 0x5123, h 0x6000⟩

end HustOS.Mm
