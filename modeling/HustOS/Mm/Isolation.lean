import HustOS.Mm.FreePages
import HustOS.Foundations.Bytes

/-!
# Fork isolation

After a fork the parent and the child load and store bytes of the heap. The frames are shared: the
child maps them without the permission to write, the parent as before. A store without permission
faults, and the handler maps a page just taken, without copying the old one. So a load returns what
its process stored there, or else the byte at the fork, exactly as long as nobody wrote to the frame
it reads and its page is not a page from a fault (`LoadOk`); `isolation_of_accesses` is about every
interleaving.
-/

namespace HustOS.Mm

open Foundations

variable {lay : Layout} {m₁ m m' : Mach} {kept₁ kept : Set ℕ} {pm₁ pm : ℕ → PageMap}
  {spaces : List Space} {va f perm b i : ℕ}

/-! ## The property -/

/-- The two processes of a fork. -/
inductive Side
  | parent
  | child
  deriving DecidableEq

/-- Where a side is among the processes, for a fork by the process `i` when there are `n`. -/
def Side.index (i n : ℕ) : Side → ℕ
  | .parent => i
  | .child => n

/-- A byte that was stored. -/
structure Stored where
  side : Side
  va : ℕ
  b : ℕ

/-- The last byte that a side stored at an address, the last store first. -/
def lastStore (side : Side) (va : ℕ) : List Stored → Option ℕ
  | [] => none
  | x :: h => if x.side = side ∧ x.va = va then some (x.b % 256) else lastStore side va h

/-- A side has stored to a page. -/
def Touched (h : List Stored) (side : Side) (v : ℕ) : Prop :=
  ∃ x ∈ h, x.side = side ∧ x.va / PGSIZE = v

/-- At the fork by the process `i`, `va` is an address of the heap that is mapped, and `b` the byte
there. -/
def ForkByte (s : Sys) (i va b : ℕ) : Prop :=
  ∃ p, s.spaces[i]? = some p ∧ p.heapBottom ≤ va ∧ va < p.heapTop ∧
    ∀ sp, userLoad va sp p s.mach = .ok b

/-- The stores of the two sides after the fork, to addresses of the heap that were mapped; loads
change nothing. -/
inductive Accesses (lay : Layout) (s₀ : Sys) (i : ℕ) (s₁ : Sys) : List Stored → Sys → Prop
  | fork : Accesses lay s₀ i s₁ [] s₁
  | store {h : List Stored} {s s' : Sys} {side : Side} {va b₀ sp b : ℕ}
      (before : Accesses lay s₀ i s₁ h s) (heap : ForkByte s₀ i va b₀)
      (exec : exec lay (.store (side.index i s₀.spaces.length) va sp b) s = .ok s') :
      Accesses lay s₀ i s₁ (⟨side, va, b⟩ :: h) s'

/-- The process `i` may write to `va`. -/
def Writable (s : Sys) (i va : ℕ) : Prop :=
  ∃ p pa, s.spaces[i]? = some p ∧ translate p.pagetable PTE_W va s.mach = some pa

/-- `do_fork` skips the page of `va`. -/
def Skipped (s : Sys) (i : ℕ) (junk : ℕ → ℕ) (va : ℕ) : Prop :=
  ∃ p, s.spaces[i]? = some p ∧ freeBlockFilter p junk (heapIndex p va) ≠ 0

/-- A load of `va` after the stores `h`, for a fork by the process `i` in the state `s`: the process
has stored that byte itself; or it still has the frame of the fork, and nobody has written the byte
there. -/
def LoadOk (s : Sys) (i : ℕ) (junk : ℕ → ℕ) (h : List Stored) (va : ℕ) : Side → Prop
  | .parent => lastStore .parent va h ≠ none ∨ Writable s i va ∨ ¬ Touched h .parent (va / PGSIZE)
  | .child => lastStore .child va h ≠ none ∨
      (¬ Skipped s i junk va ∧ ¬ Touched h .child (va / PGSIZE) ∧
        (Writable s i va → lastStore .parent va h = none))

/-! ## Bytes -/

theorem Mach.byte_setByte (m : Mach) (a b a' : ℕ) :
    (m.setByte a b).byte a' = if a' = a then b % 256 else m.byte a' := by
  have hb : b % 256 < 256 := Nat.mod_lt _ (by decide)
  rw [byte, setByte]
  by_cases hw : a' / 8 * 8 = a / 8 * 8
  · rw [hw, store_self, digit_setDigit hb, byte, hw]
    refine if_congr ?_ rfl rfl
    omega
  · rw [store_of_ne _ _ hw, if_neg (fun e => hw (by rw [e])), byte]

/-- The bytes of a page that is kept. -/
theorem SameOn.byte {off : ℕ} (h : SameOn kept m m') (hf : f ∈ kept) (hp : PGSIZE ∣ f)
    (ho : off < PGSIZE) : m'.byte (f + off) = m.byte (f + off) := by
  obtain ⟨y, rfl⟩ := hp
  rw [Mach.byte, Mach.byte, h.mem _ hf]
  · simp only [PGSIZE] at *
    omega
  · simp only [PGSIZE] at *
    omega

theorem page_offset_inj {f g o u : ℕ} (hf : PGSIZE ∣ f) (hg : PGSIZE ∣ g) (ho : o < PGSIZE)
    (hu : u < PGSIZE) (e : f + o = g + u) : f = g ∧ o = u := by
  obtain ⟨x, rfl⟩ := hf
  obtain ⟨y, rfl⟩ := hg
  simp only [PGSIZE] at *
  omega

theorem offset_lt (va : ℕ) : va % PGSIZE < PGSIZE := Nat.mod_lt _ (by decide)

theorem va_ext {va va' : ℕ} (h₁ : va / PGSIZE = va' / PGSIZE) (h₂ : va % PGSIZE = va' % PGSIZE) :
    va = va' := by
  rw [← Nat.div_add_mod va PGSIZE, h₁, h₂, Nat.div_add_mod]

/-! ## Stores -/

theorem lastStore_cons_self (side : Side) (va b : ℕ) (h : List Stored) :
    lastStore side va (⟨side, va, b⟩ :: h) = some (b % 256) :=
  if_pos ⟨rfl, rfl⟩

theorem lastStore_cons_of_ne {side side' : Side} {va va' : ℕ} (b : ℕ) (h : List Stored)
    (hne : ¬ (side' = side ∧ va' = va)) :
    lastStore side va (⟨side', va', b⟩ :: h) = lastStore side va h :=
  if_neg hne

theorem touched_of_lastStore {side : Side} {h : List Stored} (hb : lastStore side va h = some b) :
    Touched h side (va / PGSIZE) := by
  induction h with
  | nil => cases hb
  | cons x h ih =>
    rw [lastStore] at hb
    split at hb
    · rename_i hx
      exact ⟨x, List.mem_cons_self, hx.1, by rw [hx.2]⟩
    · obtain ⟨y, hy, hy'⟩ := ih hb
      exact ⟨y, List.mem_cons_of_mem x hy, hy'⟩

theorem touched_cons {side side' : Side} {va' v : ℕ} {h : List Stored} :
    Touched (⟨side', va', b⟩ :: h) side v ↔ (side' = side ∧ va' / PGSIZE = v) ∨
        Touched h side v := by
  simp only [Touched, List.mem_cons, exists_eq_or_imp]

/-! ## The invariant -/

section Split

variable {root : Side → ℕ} {heap : ℕ → Prop} {h : List Stored} {side : Side}

/-- The state at the fork: the tables `pm₁` of the two sides, at `root`. The child may not write to
a frame of the parent. -/
structure Forked (lay : Layout) (m₁ : Mach) (spaces : List Space) (root : Side → ℕ)
    (pm₁ : ℕ → PageMap) (kept₁ : Set ℕ) (heap : ℕ → Prop) : Prop where
  inv : SysInv lay m₁ spaces pm₁ kept₁
  mem : ∀ side, root side ∈ rootsOf spaces
  ne : root .child ≠ root .parent
  readOnly : ∀ v v' f perm perm', pm₁ (root .child) v = some (f, perm) →
    pm₁ (root .parent) v' = some (f, perm') → f ≠ 0 → ¬ Allows PTE_W perm
  readable : ∀ v f perm, pm₁ (root .child) v = some (f, perm) → Allows PTE_W perm →
    Allows PTE_R perm
  heap : ∀ va, heap va → ∃ f perm, pm₁ (root .parent) (va / PGSIZE) = some (f, perm) ∧
    DRAM_BASE ≤ f ∧ Allows PTE_R perm

/-- The entry of a page lets its side write. -/
def CanWrite (map : PageMap) (v : ℕ) : Prop := ∃ f perm, map v = some (f, perm) ∧ Allows PTE_W perm

/-- The entry of a page of a side maps a page from a fault, which that side has alone. -/
def FromFault (root : Side → ℕ) (kept₁ : Set ℕ) (pm : ℕ → PageMap) (side : Side) (v : ℕ) : Prop :=
  ∃ q perm, pm (root side) v = some (q, perm) ∧ q ∉ kept₁ ∧ Allows PTE_W perm ∧ Allows PTE_R perm ∧
    ∀ side' ≠ side, ∀ v' perm', pm (root side') v' ≠ some (q, perm')

/-- **The two sides apart**, after the stores `h`: an entry is that of the fork, which its side may
write to if it has stored there, or from a fault. -/
structure Split (lay : Layout) (m₁ : Mach) (spaces : List Space) (root : Side → ℕ)
    (pm₁ : ℕ → PageMap) (kept₁ : Set ℕ) (heap : ℕ → Prop) (h : List Stored) (m : Mach)
    (pm : ℕ → PageMap) (kept : Set ℕ) : Prop where
  inv : SysInv lay m spaces pm kept
  sub : kept₁ ⊆ kept
  entry : ∀ side va, heap va →
    (pm (root side) (va / PGSIZE) = pm₁ (root side) (va / PGSIZE) ∧
      (Touched h side (va / PGSIZE) → CanWrite (pm₁ (root side)) (va / PGSIZE))) ∨
    (FromFault root kept₁ pm side (va / PGSIZE) ∧ Touched h side (va / PGSIZE) ∧
      ¬ CanWrite (pm₁ (root side)) (va / PGSIZE))
  shared : ∀ va f perm, heap va → pm₁ (root .parent) (va / PGSIZE) = some (f, perm) →
    m.byte (f + va % PGSIZE) =
      if Allows PTE_W perm then (lastStore .parent va h).getD (m₁.byte (f + va % PGSIZE))
      else m₁.byte (f + va % PGSIZE)
  own : ∀ side va b, heap va → lastStore side va h = some b →
    ∃ f perm, pm (root side) (va / PGSIZE) = some (f, perm) ∧ DRAM_BASE ≤ f ∧
      m.byte (f + va % PGSIZE) = b

theorem SysInv.framed {r v : ℕ} (h : SysInv lay m spaces pm kept) (hr : r ∈ rootsOf spaces)
    (hv : pm r v = some (f, perm)) : f ∈ kept ∧ PGSIZE ∣ f := by
  obtain ⟨l, hl⟩ := h.tables
  have hf := hl.framed r hr v f perm hv
  exact ⟨hf, (hl.keptPage f hf).1⟩

theorem SysInv.home {r r' v v' perm' : ℕ} (h : SysInv lay m spaces pm kept)
    (hr : r ∈ rootsOf spaces)
    (hr' : r' ∈ rootsOf spaces) (h0 : f ≠ 0) (hv : pm r v = some (f, perm))
    (hv' : pm r' v' = some (f, perm')) : v = v' := by
  obtain ⟨l, hl⟩ := h.tables
  exact hl.home r hr r' hr' v v' f perm perm' h0 hv hv'

namespace Split

theorem root_inj (hf : Forked lay m₁ spaces root pm₁ kept₁ heap) {side' : Side}
    (e : root side' = root side) : side' = side := by
  have hne := hf.ne
  cases side <;> cases side'
  · rfl
  · exact absurd e hne
  · exact absurd e.symm hne
  · rfl

theorem start (hf : Forked lay m₁ spaces root pm₁ kept₁ heap) :
    Split lay m₁ spaces root pm₁ kept₁ heap [] m₁ pm₁ kept₁ where
  inv := hf.inv
  sub := le_rfl
  entry _ _ _ := .inl ⟨rfl, fun ⟨_, hx, _⟩ => absurd hx List.not_mem_nil⟩
  shared va f perm _ _ := by simp only [lastStore, Option.getD_none, ite_self]
  own _ _ _ _ hb := by cases hb

/-- The two sides do not both write to one frame of the fork. -/
theorem not_both (hf : Forked lay m₁ spaces root pm₁ kept₁ heap) {side' : Side} {v v' perm' : ℕ}
    (hne : side' ≠ side) (h0 : f ≠ 0) (hv : pm₁ (root side) v = some (f, perm))
    (hv' : pm₁ (root side') v' = some (f, perm')) (hw : Allows PTE_W perm)
    (hw' : Allows PTE_W perm') : False := by
  cases side <;> cases side'
  · exact hne rfl
  · exact hf.readOnly v' v f perm' perm hv' hv h0 hw'
  · exact hf.readOnly v v' f perm perm' hv hv' h0 hw
  · exact hne rfl

/-- An entry that maps a page of the fork is that of the fork. -/
theorem entry_eq (hs : Split lay m₁ spaces root pm₁ kept₁ heap h m pm kept) (hva : heap va)
    (hv : pm (root side) (va / PGSIZE) = some (f, perm)) (hk : f ∈ kept₁) :
    pm₁ (root side) (va / PGSIZE) = some (f, perm) := by
  rcases hs.entry side va hva with ⟨he, -⟩ | ⟨⟨q, perm', hq, hk', -⟩, -⟩
  · rw [← he, hv]
  · obtain ⟨rfl, -⟩ := Prod.mk.inj (Option.some.inj (hv.symm.trans hq))
    exact absurd hk hk'

/-- **A store to a frame that may be written.** -/
theorem direct (hf : Forked lay m₁ spaces root pm₁ kept₁ heap)
    (hs : Split lay m₁ spaces root pm₁ kept₁ heap h m pm kept) (hva : heap va)
    (hv : pm (root side) (va / PGSIZE) = some (f, perm)) (hw : Allows PTE_W perm)
      (hd : DRAM_BASE ≤ f)
    (hinv : SysInv lay (m.setByte (f + va % PGSIZE) b) spaces pm kept) :
    Split lay m₁ spaces root pm₁ kept₁ heap (⟨side, va, b⟩ :: h) (m.setByte (f + va % PGSIZE) b) pm
      kept := by
  have hfp := (hs.inv.framed (hf.mem side) hv).2
  have h0 : f ≠ 0 := by
    simp only [DRAM_BASE] at hd
    omega
  refine ⟨hinv, hs.sub, fun side' va' hva' => ?_, fun va' g perm' hva' hg => ?_,
    fun side' va' b' hva' hb' => ?_⟩
  · rcases hs.entry side' va' hva' with ⟨he, ht⟩ | ⟨hff, ht, hn⟩
    · refine .inl ⟨he, fun ht' => ?_⟩
      rcases touched_cons.1 ht' with ⟨rfl, hpage⟩ | ht'
      · rw [← hpage]
        rw [← hpage] at he
        exact ⟨f, perm, he ▸ hv, hw⟩
      · exact ht ht'
    · exact .inr ⟨hff, touched_cons.2 (.inr ht), hn⟩
  · obtain ⟨hgk, hgp⟩ := hf.inv.framed (hf.mem .parent) hg
    rw [Mach.byte_setByte]
    by_cases hsame : g + va' % PGSIZE = f + va % PGSIZE
    · -- the byte of the frame that is stored: it is the parent who may write there
      obtain ⟨rfl, hoff⟩ := page_offset_inj hgp hfp (offset_lt va') (offset_lt va) hsame
      have hv₁ := hs.entry_eq hva hv hgk
      have hpage := hf.inv.home (hf.mem .parent) (hf.mem side) h0 hg hv₁
      obtain rfl := va_ext hpage hoff
      cases side with
      | parent =>
        obtain ⟨-, rfl⟩ := Prod.mk.inj (Option.some.inj (hg.symm.trans hv₁))
        rw [if_pos rfl, if_pos hw, lastStore_cons_self, Option.getD_some]
      | child => exact absurd hw (hf.readOnly _ _ g perm perm' hv₁ hg h0)
    · rw [if_neg hsame, hs.shared va' g perm' hva' hg]
      by_cases hw' : Allows PTE_W perm'
      · rw [if_pos hw', if_pos hw', lastStore_cons_of_ne]
        rintro ⟨rfl, rfl⟩
        rcases hs.entry .parent va hva with ⟨he, -⟩ | ⟨-, -, hn⟩
        · obtain ⟨rfl, -⟩ := Prod.mk.inj (Option.some.inj (hv.symm.trans (he.trans hg)))
          exact hsame rfl
        · exact hn ⟨g, perm', hg, hw'⟩
      · rw [if_neg hw', if_neg hw']
  · by_cases heq : side = side' ∧ va = va'
    · obtain ⟨rfl, rfl⟩ := heq
      rw [lastStore_cons_self] at hb'
      refine ⟨f, perm, hv, hd, ?_⟩
      rw [Mach.byte_setByte, if_pos rfl]
      exact Option.some.inj hb'
    · rw [lastStore_cons_of_ne b h heq] at hb'
      obtain ⟨g, perm', hg, hgd, hbyte⟩ := hs.own side' va' b' hva' hb'
      refine ⟨g, perm', hg, hgd, ?_⟩
      rw [Mach.byte_setByte, if_neg, hbyte]
      intro hsame
      have hgp := (hs.inv.framed (hf.mem side') hg).2
      obtain ⟨rfl, hoff⟩ := page_offset_inj hgp hfp (offset_lt va') (offset_lt va) hsame
      have hpage := hs.inv.home (hf.mem side') (hf.mem side) h0 hg hv
      obtain rfl := va_ext hpage hoff
      have hne : side' ≠ side := fun e => heq ⟨e.symm, rfl⟩
      -- both sides have stored to the same frame
      rcases hs.entry side va' hva with ⟨he, -⟩ | ⟨⟨q, _, hq, -, -, -, hq'⟩, -⟩
      · rcases hs.entry side' va' hva' with ⟨he', ht'⟩ | ⟨⟨q, _, hq, -, -, -, hq'⟩, -⟩
        · obtain ⟨g', perm₂, hg', hw₂⟩ := ht' (touched_of_lastStore hb')
          obtain ⟨rfl, rfl⟩ := Prod.mk.inj (Option.some.inj (hg.symm.trans (he'.trans hg')))
          exact not_both hf hne h0 (he ▸ hv) hg' hw hw₂
        · obtain ⟨rfl, -⟩ := Prod.mk.inj (Option.some.inj (hg.symm.trans hq))
          exact hq' side hne.symm _ _ hv
      · obtain ⟨rfl, -⟩ := Prod.mk.inj (Option.some.inj (hv.symm.trans hq))
        exact hq' side' hne _ _ hg

/-- A page whose entry does not let its side write is one of the fork, and untouched. -/
theorem untouched (hs : Split lay m₁ spaces root pm₁ kept₁ heap h m pm kept) (hva : heap va)
    (hno : ∀ f perm, pm (root side) (va / PGSIZE) = some (f, perm) → ¬ Allows PTE_W perm) :
    ¬ CanWrite (pm₁ (root side)) (va / PGSIZE) ∧ ¬ Touched h side (va / PGSIZE) := by
  rcases hs.entry side va hva with ⟨he, ht⟩ | ⟨⟨q, perm, hq, -, hw, -⟩, -⟩
  · have hn : ¬ CanWrite (pm₁ (root side)) (va / PGSIZE) := fun ⟨f, perm, hv, hw⟩ =>
      hno f perm (he.trans hv) hw
    exact ⟨hn, fun ht' => hn (ht ht')⟩
  · exact absurd hw (hno q perm hq)

/-- **A store that faults.** -/
theorem fault {q : ℕ} (hf : Forked lay m₁ spaces root pm₁ kept₁ heap)
    (hs : Split lay m₁ spaces root pm₁ kept₁ heap h m pm kept) (hva : heap va)
    (hno : ∀ f perm, pm (root side) (va / PGSIZE) = some (f, perm) → ¬ Allows PTE_W perm)
    (hq : q ∉ kept) (hd : DRAM_BASE ≤ q) (hw : Allows PTE_W perm) (hrd : Allows PTE_R perm)
      (hm : SameOn kept m m')
    (hinv : SysInv lay (m'.setByte (q + va % PGSIZE) b) spaces
      (mapAt pm (root side) (va / PGSIZE) (some (q, perm))) (insert q kept)) :
    Split lay m₁ spaces root pm₁ kept₁ heap (⟨side, va, b⟩ :: h) (m'.setByte (q + va % PGSIZE) b)
      (mapAt pm (root side) (va / PGSIZE) (some (q, perm))) (insert q kept) := by
  obtain ⟨hn, hnt⟩ := hs.untouched hva hno
  have hqp := (hinv.framed (hf.mem side) (mapAt_self _ _ _ _)).2
  -- the pages in use before keep their bytes
  have hbyte : ∀ g ∈ kept, PGSIZE ∣ g → ∀ o < PGSIZE,
      (m'.setByte (q + va % PGSIZE) b).byte (g + o) = m.byte (g + o) := by
    intro g hg hgp o ho
    rw [Mach.byte_setByte, if_neg, hm.byte hg hgp ho]
    intro e
    obtain ⟨rfl, -⟩ := page_offset_inj hgp hqp ho (offset_lt va) e
    exact hq hg
  -- an entry other than the new one is as before
  have hother : ∀ side' v, ¬ (side' = side ∧ v = va / PGSIZE) →
      mapAt pm (root side) (va / PGSIZE) (some (q, perm)) (root side') v = pm (root side') v := by
    intro side' v hne
    rw [mapAt_apply, if_neg]
    exact fun e => hne ⟨root_inj hf e.1, e.2⟩
  have hfresh : ∀ side' v perm', pm (root side') v ≠ some (q, perm') := fun side' v perm' hv =>
    hq (hs.inv.framed (hf.mem side') hv).1
  refine ⟨hinv, hs.sub.trans (Set.subset_insert q kept), fun side' va' hva' => ?_,
    fun va' g perm' hva' hg => ?_, fun side' va' b' hva' hb' => ?_⟩
  · by_cases heq : side' = side ∧ va' / PGSIZE = va / PGSIZE
    · obtain ⟨rfl, hpage⟩ := heq
      rw [hpage]
      refine .inr ⟨⟨q, perm, mapAt_self _ _ _ _, fun hk => hq (hs.sub hk), hw, hrd, ?_⟩,
        touched_cons.2 (.inl ⟨rfl, rfl⟩), hn⟩
      intro side' hne v' perm' hv'
      rw [hother side' v' fun e => hne e.1] at hv'
      exact hfresh side' v' perm' hv'
    · rw [hother side' _ heq]
      rcases hs.entry side' va' hva' with ⟨he,
        ht⟩ | ⟨⟨q', perm', hq', hk', hw', hrd', ho'⟩, ht, hn'⟩
      · refine .inl ⟨he, fun ht' => ht ?_⟩
        exact (touched_cons.1 ht').resolve_left fun e => heq ⟨e.1.symm, e.2.symm⟩
      · refine .inr ⟨⟨q', perm', (hother side' _ heq).trans hq', hk', hw', hrd', ?_⟩,
          touched_cons.2 (.inr ht), hn'⟩
        intro side₂ hne v' perm₂ hv'
        rw [mapAt_apply] at hv'
        split at hv'
        · obtain ⟨rfl, -⟩ := Prod.mk.inj (Option.some.inj hv')
          exact hfresh side' _ perm' hq'
        · exact ho' side₂ hne v' perm₂ hv'
  · obtain ⟨hgk, hgp⟩ := hf.inv.framed (hf.mem .parent) hg
    rw [hbyte g (hs.sub hgk) hgp _ (offset_lt va'), hs.shared va' g perm' hva' hg]
    by_cases hw' : Allows PTE_W perm'
    · rw [if_pos hw', if_pos hw', lastStore_cons_of_ne]
      rintro ⟨rfl, rfl⟩
      exact hn ⟨g, perm', hg, hw'⟩
    · rw [if_neg hw', if_neg hw']
  · by_cases heq : side = side' ∧ va = va'
    · obtain ⟨rfl, rfl⟩ := heq
      rw [lastStore_cons_self] at hb'
      refine ⟨q, perm, mapAt_self _ _ _ _, hd, ?_⟩
      rw [Mach.byte_setByte, if_pos rfl]
      exact Option.some.inj hb'
    · rw [lastStore_cons_of_ne b h heq] at hb'
      obtain ⟨g, perm', hg, hgd, hb⟩ := hs.own side' va' b' hva' hb'
      obtain ⟨hgk, hgp⟩ := hs.inv.framed (hf.mem side') hg
      refine ⟨g, perm', ?_, hgd, (hbyte g hgk hgp _ (offset_lt va')).trans hb⟩
      rw [hother, hg]
      rintro ⟨rfl, hpage⟩
      exact hnt (hpage ▸ touched_of_lastStore hb')

/-- **What a load finds**: the entry of the page, and there the byte that the side stored last, or
the one of the fork if the frame is still that of the fork and nobody has written to the byte. -/
theorem load (hf : Forked lay m₁ spaces root pm₁ kept₁ heap)
    (hs : Split lay m₁ spaces root pm₁ kept₁ heap h m pm kept) (hva : heap va)
    (hg : pm₁ (root .parent) (va / PGSIZE) = some (f, perm))
    (hok : lastStore side va h ≠ none ∨
      ((∃ perm', pm₁ (root side) (va / PGSIZE) = some (f, perm') ∧ Allows PTE_R perm') ∧
        (Touched h side (va / PGSIZE) → CanWrite (pm₁ (root side)) (va / PGSIZE)) ∧
        (Allows PTE_W perm → lastStore .parent va h = none))) :
    ∃ g perm', pm (root side) (va / PGSIZE) = some (g, perm') ∧ Allows PTE_R perm' ∧ DRAM_BASE ≤ g ∧
      m.byte (g + va % PGSIZE) = (lastStore side va h).getD (m₁.byte (f + va % PGSIZE)) := by
  cases hl : lastStore side va h with
  | some b =>
    obtain ⟨g, perm', hv, hd, hb⟩ := hs.own side va b hva hl
    refine ⟨g, perm', hv, ?_, hd, hb⟩
    rcases hs.entry side va hva with ⟨he, ht⟩ | ⟨⟨q, perm₂, hq, -, -, hrd, -⟩, -⟩
    · rw [he] at hv
      obtain ⟨g', perm₂, hv', hw⟩ := ht (touched_of_lastStore hl)
      obtain ⟨rfl, rfl⟩ := Prod.mk.inj (Option.some.inj (hv.symm.trans hv'))
      cases side with
      | parent =>
        obtain ⟨f', perm₃, hv₃, -, hrd⟩ := hf.heap va hva
        obtain ⟨rfl, rfl⟩ := Prod.mk.inj (Option.some.inj (hv.symm.trans hv₃))
        exact hrd
      | child => exact hf.readable _ g perm' hv hw
    · obtain ⟨rfl, rfl⟩ := Prod.mk.inj (Option.some.inj (hv.symm.trans hq))
      exact hrd
  | none =>
    obtain ⟨⟨perm', hv, hrd⟩, ht, hpar⟩ := hok.resolve_left fun hne => hne hl
    rcases hs.entry side va hva with ⟨he, -⟩ | ⟨-, ht', hn⟩
    · obtain ⟨f', perm₂, hv₂, hd, -⟩ := hf.heap va hva
      obtain ⟨rfl, -⟩ := Prod.mk.inj (Option.some.inj (hg.symm.trans hv₂))
      refine ⟨f, perm', he.trans hv, hrd, hd, ?_⟩
      rw [hs.shared va f perm hva hg, Option.getD_none]
      split
      · rename_i hw
        rw [hpar hw, Option.getD_none]
      · rfl
    · exact absurd (ht ht') hn

end Split

end Split

/-! ## Interleavings -/

/-- The directories of the two sides. -/
def Side.root (parent child : Space) : Side → ℕ
  | .parent => parent.pagetable
  | .child => child.pagetable

section Interleave

variable {s₀ s₁ s : Sys} {junk : ℕ → ℕ} {h : List Stored} {parent child p : Space}

/-- A load that faults does not return. -/
theorem SysInv.fault_ne_ok (hi : SysInv lay m spaces pm kept) (hp : p ∈ spaces) (va sp b : ℕ) :
    (do
      let (pa, _) ← lookupPa p.pagetable va m
      if va < sp ∧ pa = 0 then throw (.panic "this address is not available!")
      throw .spin : Except Fault ℕ) ≠ .ok b := by
  intro e
  rw [((hi.stage .refl).lookup (mem_rootsOf hp) _).1, ok_bind] at e
  by_cases hc : va < sp ∧ (pm p.pagetable (va / PGSIZE)).elim 0 Prod.fst = 0
  · simp only [hc, and_self, if_true, throw_eq_error, error_bind] at e
    cases e
  · simp only [hc, if_false] at e
    cases e

/-- **A load in user mode** reads the frame of its page. -/
theorem SysInv.userLoad_iff (hi : SysInv lay m spaces pm kept) (hp : p ∈ spaces) (sp : ℕ) :
    userLoad va sp p m = .ok b ↔ ∃ f perm, pm p.pagetable (va / PGSIZE) = some (f, perm) ∧
      Allows PTE_R perm ∧ DRAM_BASE ≤ f ∧ m.byte (f + va % PGSIZE) = b := by
  have hmem := mem_rootsOf hp
  have hfault := hi.fault_ne_ok hp va sp
  rw [userLoad, hi.translate hp (by decide)]
  rcases hv : pm p.pagetable (va / PGSIZE) with _ | ⟨f, perm⟩
  · simp only [Option.bind_none]
    exact ⟨fun e => absurd e (hfault b), by simp⟩
  · by_cases hrd : Allows PTE_R perm
    · have hfp := (hi.framed hmem hv).2
      have hlow : f + va % PGSIZE < DRAM_BASE ↔ ¬ DRAM_BASE ≤ f := by
        simp only [PGSIZE, DRAM_BASE] at *
        omega
      simp only [Option.bind_some, hrd, if_true]
      by_cases hd : DRAM_BASE ≤ f
      · rw [if_neg (by omega)]
        simp [hrd, hd]
      · rw [if_pos (hlow.2 hd)]
        simp [hd]
    · simp only [Option.bind_some, hrd, if_false]
      refine ⟨fun e => absurd e (hfault b), ?_⟩
      rintro ⟨f', perm', hv', hrd', -⟩
      obtain ⟨rfl, rfl⟩ := Prod.mk.inj (Option.some.inj hv')
      exact absurd hrd' hrd

/-- **The state after `do_fork`.** -/
theorem SysInv.forked (h₀ : SysInv lay s₀.mach s₀.spaces pm kept)
    (fork : Mm.exec lay (.fork i junk) s₀ = .ok s₁) :
    ∃ parent child pm₁ kept₁, s₀.spaces[i]? = some parent ∧ s₁.spaces = s₀.spaces ++ [child] ∧
      Forked lay s₁.mach s₁.spaces (Side.root parent child) pm₁ kept₁
        (fun va => ∃ b, ForkByte s₀ i va b) ∧
      SameOn kept s₀.mach s₁.mach ∧ pm₁ parent.pagetable = pm parent.pagetable ∧
      Copied parent child junk pm₁ (heapBlocks parent) := by
  rw [Mm.exec] at fork
  obtain ⟨parent, ep, fork⟩ := (bind_ok_iff _ _ _).1 fork
  by_cases hn : NPROC ≤ s₀.spaces.length
  · rw [if_pos hn] at fork
    cases fork
  rw [if_neg hn] at fork
  obtain ⟨⟨child, m'⟩, e₁, fork⟩ := (bind_ok_iff _ _ _).1 fork
  cases fork
  have hi := Sys.space_ok ep
  have hp := List.mem_of_getElem? hi
  obtain ⟨-, pm₁, kept₁, -, -, h₁, hsame, hold, hro, hc⟩ := h₀.doFork .refl hp e₁
  have hparent : parent ∈ s₀.spaces ++ [child] := List.mem_append_left _ hp
  have hchild : child ∈ s₀.spaces ++ [child] := List.mem_append_right _ (List.mem_singleton.2 rfl)
  refine ⟨parent, child, pm₁, kept₁, hi, rfl, ?_, hsame, hold parent hp, hc⟩
  refine
    { inv := h₁
      mem := fun side => ?_
      ne := fun e => ?_
      readOnly := fun v v' f perm perm' hv hv' h0 hw => ?_
      readable := fun v f perm hv hw => (hro v f perm hv hw).1
      heap := ?_ }
  · cases side with
    | parent => exact mem_rootsOf hparent
    | child => exact mem_rootsOf hchild
  · have hlt := (List.getElem?_eq_some_iff.1 hi).1
    have hj : (s₀.spaces ++ [child])[s₀.spaces.length]? = some child := by simp
    have hi' : (s₀.spaces ++ [child])[i]? = some parent := by
      rw [List.getElem?_append_left hlt, hi]
    have := h₁.index_inj hi' hj e
    omega
  · have hv₀ : pm parent.pagetable v' = some (f, perm') := by
      rw [← hold parent hp]
      exact hv'
    exact h0 ((hro v f perm hv hw).2 (h₀.framed (mem_rootsOf hp) hv₀).1)
  · rintro va ⟨b, p, hp', -, -, hload⟩
    obtain rfl := Option.some.inj (hi.symm.trans hp')
    obtain ⟨f, perm, hv, hrd, hd, -⟩ := (h₀.userLoad_iff hp 0).1 (hload 0)
    exact ⟨f, perm, by rw [← hv, ← hold parent hp]; rfl, hd, hrd⟩

theorem side_root {side : Side} (hi : s₀.spaces[i]? = some parent)
    (hs₁ : s₁.spaces = s₀.spaces ++ [child])
    (hp : s₁.spaces[side.index i s₀.spaces.length]? = some p) :
    p.pagetable = Side.root parent child side := by
  rw [hs₁] at hp
  cases side with
  | parent =>
    have hlt := (List.getElem?_eq_some_iff.1 hi).1
    rw [Side.index, List.getElem?_append_left hlt, hi] at hp
    rw [← Option.some.inj hp, Side.root]
  | child =>
    rw [Side.index, List.getElem?_concat_length] at hp
    rw [← Option.some.inj hp, Side.root]

/-- **The two sides after any stores.** -/
theorem Accesses.split {pm₁ : ℕ → PageMap} {kept₁ : Set ℕ} {parent child : Space}
    (acc : Accesses lay s₀ i s₁ h s) (hi : s₀.spaces[i]? = some parent)
    (hs₁ : s₁.spaces = s₀.spaces ++ [child])
    (hf : Forked lay s₁.mach s₁.spaces (Side.root parent child) pm₁ kept₁
      (fun va => ∃ b, ForkByte s₀ i va b)) :
    s.spaces = s₁.spaces ∧ ∃ pm kept, Split lay s₁.mach s₁.spaces (Side.root parent child) pm₁ kept₁
      (fun va => ∃ b, ForkByte s₀ i va b) h s.mach pm kept := by
  induction acc with
  | fork => exact ⟨rfl, pm₁, kept₁, Split.start hf⟩
  | @store h s s' side va b₀ sp b _ heap exec ih =>
    obtain ⟨hsp, pm, kept, hs⟩ := ih
    rw [Mm.exec] at exec
    obtain ⟨p, ep, exec⟩ := (bind_ok_iff _ _ _).1 exec
    obtain ⟨m', e₁, exec⟩ := (bind_ok_iff _ _ _).1 exec
    cases exec
    refine ⟨hsp, ?_⟩
    have hp := Sys.space_ok ep
    rw [hsp] at hp
    have hroot : p.pagetable = Side.root parent child side := side_root hi hs₁ hp
    rcases hs.inv.userStore (List.mem_of_getElem? hp) e₁ with
      ⟨f, perm, hv, hw, hd, rfl, h'⟩ | ⟨q, perm, m₂, hno, hq, hd, hw, hrd, hm, rfl, h'⟩
    · rw [hroot] at hv
      exact ⟨pm, kept, Split.direct hf hs ⟨b₀, heap⟩ hv hw hd h'⟩
    · rw [hroot] at hno h'
      exact ⟨_, _, Split.fault hf hs ⟨b₀, heap⟩ hno hq hd hw hrd hm h'⟩

/-- The block of an address of the heap. -/
theorem heapIndex_va (hb : parent.heapBottom = USER_FREE_ADDRESS_START)
    (ht : PGSIZE ∣ parent.heapTop ∧ parent.heapTop ≤ MAXVA) (h₁ : parent.heapBottom ≤ va)
    (h₂ : va < parent.heapTop) :
    heapIndex parent va < heapBlocks parent ∧ blockVpn (heapIndex parent va) = va / PGSIZE := by
  rw [heapIndex, heapBlocks, blockVpn, hb]
  rw [hb] at h₁
  simp only [USER_FREE_ADDRESS_START, PGSIZE, MAXVA] at *
  omega

/-- **Fork isolation.** In every interleaving of stores of the parent and the child, a load returns
the byte that its process stored last at the address, or the byte at the fork if it has not stored
there, if the load is one that is `LoadOk`. -/
theorem isolation_of_accesses (run : Run lay EventOk s₀)
    (fork : exec lay (.fork i junk) s₀ = .ok s₁) (acc : Accesses lay s₀ i s₁ h s) (side : Side)
    (heap : ForkByte s₀ i va b) (hp : s.spaces[side.index i s₀.spaces.length]? = some p)
    (ok : LoadOk s₀ i junk h va side) (sp : ℕ) :
    userLoad va sp p s.mach = .ok ((lastStore side va h).getD b) := by
  obtain ⟨pm₀, kept₀, h₀⟩ := run.inv fun _ _ hc => hc
  obtain ⟨parent, child, pm₁, kept₁, hi, hs₁, hf, hsame, hold, hc⟩ := h₀.forked fork
  obtain ⟨hsp, pm, kept, hs⟩ := acc.split hi hs₁ hf
  rw [hsp] at hp
  have hroot := side_root hi hs₁ hp
  have hpar := List.mem_of_getElem? hi
  -- the byte at the fork
  obtain ⟨p₀, hi₀, hbot, htop, hload⟩ := id heap
  obtain rfl := Option.some.inj (hi.symm.trans hi₀)
  obtain ⟨f, perm, hv₀, hrd, hd, rfl⟩ := (h₀.userLoad_iff hpar 0).1 (hload 0)
  obtain ⟨hfk, hfp⟩ := h₀.framed (mem_rootsOf hpar) hv₀
  have hv₁ : pm₁ (Side.root parent child .parent) (va / PGSIZE) = some (f, perm) := by
    rw [← hv₀, ← hold]
    rfl
  have hwr : Allows PTE_W perm → Writable s₀ i va := by
    intro hw
    refine ⟨parent, f + va % PGSIZE, hi, ?_⟩
    rw [h₀.translate hpar (by decide), hv₀, Option.bind_some, if_pos hw]
  have hwr' : Writable s₀ i va → Allows PTE_W perm := by
    rintro ⟨p', pa, hi', ht⟩
    obtain rfl := Option.some.inj (hi.symm.trans hi')
    rw [h₀.translate hpar (by decide), hv₀, Option.bind_some] at ht
    exact (Option.ite_none_right_eq_some.1 ht).1
  have hok : lastStore side va h ≠ none ∨
      ((∃ perm', pm₁ (Side.root parent child side) (va / PGSIZE) = some (f, perm') ∧
          Allows PTE_R perm') ∧
        (Touched h side (va / PGSIZE) →
          CanWrite (pm₁ (Side.root parent child side)) (va / PGSIZE)) ∧
        (Allows PTE_W perm → lastStore .parent va h = none)) := by
    by_cases hl : lastStore side va h = none
    swap
    · exact .inl hl
    cases side with
    | parent =>
      refine .inr ⟨⟨perm, hv₁, hrd⟩, fun ht => ?_, fun _ => hl⟩
      have hw := (ok.resolve_left fun hne => hne hl).resolve_right fun hn => hn ht
      exact ⟨f, perm, hv₁, hwr' hw⟩
    | child =>
      obtain ⟨hskip, hnt, hlast⟩ := ok.resolve_left fun hne => hne hl
      have hpok := h₀.space parent hpar
      obtain ⟨hk, hvpn⟩ := heapIndex_va hpok.heapBottom hpok.heapTop hbot htop
      have hfilter : freeBlockFilter parent junk (heapIndex parent va) = 0 := by
        by_contra hne
        exact hskip ⟨parent, hi, hne⟩
      have hcopy := hc _ hk hfilter
      rw [hvpn, hold, hv₀] at hcopy
      exact .inr ⟨⟨forkPerm, hcopy, by decide⟩, fun ht => absurd ht hnt, fun hw => hlast (hwr hw)⟩
  obtain ⟨g, perm', hg, hrd', hd', hbyte⟩ := Split.load hf hs ⟨_, heap⟩ hv₁ hok
  rw [hs.inv.userLoad_iff (List.mem_of_getElem? hp)]
  refine ⟨g, perm', hroot ▸ hg, hrd', hd', hbyte.trans ?_⟩
  rw [hsame.byte hfk hfp (offset_lt va)]

end Interleave

/-! ## A page shared and written -/

/-- A process takes a page of heap and forks, and then one side stores a byte there. -/
def storeAfterFork (side : Side) : Except Fault (Sys × Sys × Sys) := do
  let s₀ ← runFrom smallKernel 0x20000 [.allocate 0]
  let s₁ ← exec smallKernel (.fork 0 fun _ => 0) s₀
  let s ← exec smallKernel (.store (side.index 0 1) 0x400000 0 7) s₁
  return (s₀, s₁, s)

theorem exists_storeAfterFork (side : Side) : ∃ s₀ s₁ s p q, storeAfterFork side = .ok (s₀, s₁, s) ∧
    (∀ C : Sys → Event → Prop, (∀ s, C s (.allocate 0)) → Run smallKernel C s₀) ∧
      exec smallKernel (.fork 0 fun _ => 0) s₀ = .ok s₁ ∧ s₀.spaces.length = 1 ∧
      Accesses smallKernel s₀ 0 s₁ [⟨side, 0x400000, 7⟩] s ∧ ForkByte s₀ 0 0x400000 0 ∧
      s.spaces[0]? = some p ∧ s.spaces[1]? = some q := by
  have htest : (storeAfterFork side).toOption.map (fun x =>
      ([x.1.spaces.length, x.2.2.spaces.length, x.1.mach.byte 0x80014000],
          x.1.spaces[0]?.map fun p =>
        (p.heapBottom, p.heapTop, translate p.pagetable PTE_R 0x400000 x.1.mach))) =
      some ([1, 2, 0], some (0x400000, 0x401000, some 0x80014000)) := by
    cases side <;> decide +kernel
  obtain ⟨⟨s₀, s₁, s⟩, hs, heq⟩ := Option.map_eq_some_iff.1 htest
  have hrun := toOption_eq_some.1 hs
  simp only [Prod.mk.injEq, List.cons.injEq, and_true] at heq
  obtain ⟨⟨hlen₀, hlen, hbyte⟩, hp₀⟩ := heq
  obtain ⟨p₀, hi₀, hp₀⟩ := Option.map_eq_some_iff.1 hp₀
  simp only [Prod.mk.injEq] at hp₀
  obtain ⟨hbot, htop, htr⟩ := hp₀
  obtain ⟨p, hp⟩ : ∃ p, s.spaces[0]? = some p := ⟨_, List.getElem?_eq_getElem (by omega)⟩
  obtain ⟨q, hq⟩ : ∃ q, s.spaces[1]? = some q := ⟨_, List.getElem?_eq_getElem (by omega)⟩
  have hbyte₀ : ForkByte s₀ 0 0x400000 0 := by
    refine ⟨p₀, hi₀, by omega, by omega, fun sp => ?_⟩
    rw [userLoad, htr, hbyte.symm]
    rfl
  have hsteps := hrun
  rw [storeAfterFork] at hsteps
  obtain ⟨t₀, e₀, hsteps⟩ := (bind_ok_iff _ _ _).1 hsteps
  obtain ⟨t₁, e₁, hsteps⟩ := (bind_ok_iff _ _ _).1 hsteps
  obtain ⟨t, e₂, hsteps⟩ := (bind_ok_iff _ _ _).1 hsteps
  cases hsteps
  rw [← hlen₀] at e₂
  refine ⟨s₀, s₁, s, p, q, hrun, fun C hC => .of_runFrom e₀ fun e he s => ?_, e₁, hlen₀,
    .store .fork hbyte₀ e₂, hbyte₀, hp, hq⟩
  obtain rfl := List.mem_singleton.1 he
  exact hC s

/-- The child stores a byte and loads it, and the parent still loads the byte of the fork. -/
theorem isolation_of_accesses_child : ∃ s₀ s₁ s p q, Run smallKernel EventOk s₀ ∧
    exec smallKernel (.fork 0 fun _ => 0) s₀ = .ok s₁ ∧
    Accesses smallKernel s₀ 0 s₁ [⟨.child, 0x400000, 7⟩] s ∧ s.spaces[0]? = some p ∧
    s.spaces[1]? = some q ∧ userLoad 0x400000 0 q s.mach = .ok 7 ∧
    userLoad 0x400000 0 p s.mach = .ok 0 := by
  obtain ⟨s₀, s₁, s, p, q, -, hrun, hfork, hlen, hacc, hbyte, hp, hq⟩ :=
    exists_storeAfterFork .child
  have run := hrun EventOk fun _ => trivial
  refine ⟨s₀, s₁, s, p, q, run, hfork, hacc, hp, hq, ?_, ?_⟩
  · exact isolation_of_accesses run hfork hacc .child hbyte (by rw [hlen]; exact hq) (.inl nofun) 0
  · refine isolation_of_accesses run hfork hacc .parent hbyte hp (.inr (.inr ?_)) 0
    rintro ⟨x, hx, hside, -⟩
    obtain rfl := List.mem_singleton.1 hx
    cases hside

/-- **The parent's store is visible to the child.** The parent may still write to the page that it
shares with the child. -/
theorem isolation_lost : ¬ ∀ lay s₀ s₁ s i junk h side va b p sp, Run lay (fun _ _ => True) s₀ →
    exec lay (.fork i junk) s₀ = .ok s₁ → Accesses lay s₀ i s₁ h s → ForkByte s₀ i va b →
    s.spaces[side.index i s₀.spaces.length]? = some p →
    userLoad va sp p s.mach = .ok ((lastStore side va h).getD b) := by
  intro hall
  obtain ⟨s₀, s₁, s, p, q, hrun, hC, hfork, hlen, hacc, hbyte, -, hq⟩ :=
    exists_storeAfterFork .parent
  have hload := hall smallKernel s₀ s₁ s 0 _ _ .child 0x400000 0 q 0
    (hC _ fun _ => trivial) hfork hacc
    hbyte (by rw [hlen]; exact hq)
  have htest : (storeAfterFork .parent).toOption.bind (fun x => x.2.2.spaces[1]?.bind fun q =>
      (userLoad 0x400000 0 q x.2.2.mach).toOption) = some 7 := by decide +kernel
  rw [hrun] at htest
  simp only [Except.toOption, Option.bind_some, hq, hload] at htest
  cases htest

end HustOS.Mm
