import HustOS.Mm.BetterMalloc

/-!
# Calls that `better_malloc` serves from the first page

What `block_alloc_va` and `block_alloc` do if the first free entry of the first page has more bytes
than are asked for (`allocate_iff`), for each way to cut an entry (`cut_tail`, `cut_merged`,
`cut_inserted`, `cut_self`), and what `block_free_va` does if no other page is in use.
-/

namespace HustOS.Mm.Better

open Foundations

variable {a1 n i j k pa va r : ℕ} {t : Table} {p : ℕ → Page} {x : Page} {m m' : Malloc}
  {mach mach' : Mach}

/-! ## Entries -/

@[simp] theorem Table.modify_same (t : Table) (j : ℕ) (f : Block → Block) :
    t.modify j f j = f (t j) := Function.update_self ..

theorem Table.modify_of_ne (t : Table) (f : Block → Block) (h : i ≠ j) : t.modify j f i = t i :=
  Function.update_of_ne h ..

theorem Block.size_of_le {e : Block} (h : e.start ≤ e.stop) (hlt : e.stop < 2 ^ 64) :
    e.size = e.stop - e.start := by
  rw [Block.size]
  omega

/-- An entry that ends at 0 is taken to end at `2 ^ 64`. -/
theorem Block.size_of_stop {e : Block} (h0 : e.stop = 0) (h : 0 < e.start)
    (hlt : e.start < 2 ^ 64) :
    e.size = 2 ^ 64 - e.start := by
  rw [Block.size]
  omega

theorem toInt_of_lt (h : a1 < 2 ^ 31) : toInt a1 = a1 := by
  rw [toInt, Nat.mod_eq_of_lt (by omega), if_pos h]

/-! ## Scanning -/

/-- `j` is the first free entry of the table. -/
structure FirstFree (t : Table) (j : ℕ) : Prop where
  pos : 1 ≤ j
  le : j ≤ 99
  free : (t j).flag = 0
  used : ∀ i, 1 ≤ i → i < j → (t i).flag ≠ 0

theorem FirstFree.unique (h : FirstFree t i) (h' : FirstFree t j) : i = j := by
  rcases lt_trichotomy i j with hlt | heq | hgt
  · exact absurd h.free (h'.used i h.pos hlt)
  · exact heq
  · exact absurd h'.free (h.used j h'.pos hgt)

/-- The first entry of a table, where it is free. -/
theorem FirstFree.one (h : (t 1).flag = 0) : FirstFree t 1 :=
  ⟨le_rfl, by omega, h, fun i h₁ h₂ => by omega⟩

theorem scanEntries_first (hle : j ≤ i) (hlt : i < j + k)
    (hused : ∀ l, j ≤ l → l < i → (t l).flag ≠ 0) (hfree : (t i).flag = 0)
    (hsize : (t i).size ≠ a1) : scanEntries a1 k j t = (t, some i) := by
  induction k generalizing j with
  | zero => omega
  | succ k ih =>
    rw [scanEntries]
    by_cases hji : j = i
    · subst hji
      rw [if_neg (not_not.2 hfree), if_neg hsize]
    · rw [if_pos (hused j le_rfl (by omega))]
      exact ih (by omega) (by omega) fun l hl hlt => hused l (by omega) hlt

theorem scanPages_first (side : Side) (hv : (p 1).vaild = 1)
    (h : FirstFree ((p 1).table side) j) (hsize : (((p 1).table side) j).size ≠ a1) :
    scanPages side a1 99 1 p = (p, some (1, j)) := by
  have hpage : (p 1).withTable ((p 1).table side) side = p 1 := by
    cases side <;> rfl
  have hle := h.le
  rw [scanPages, if_neg (not_not.2 hv),
    scanEntries_first h.pos (by omega) h.used h.free hsize]
  dsimp only
  rw [hpage, Function.update_eq_self]

/-! ## Cutting -/

/-- The last entry is cut. -/
theorem cut_tail (t : Table) (a1 : ℕ) (hn : n < 99) (hlt : (t n).start + a1 < 2 ^ 64) :
    ∃ t', cut a1 n n t = .ok (.tail, t') ∧
      t' n = ⟨1, (t n).start, (t n).start + a1, n + 1⟩ ∧
      t' (n + 1) = ⟨0, (t n).start + a1, (t n).stop, n + 1⟩ ∧
      ∀ i, i ≠ n → i ≠ n + 1 → t' i = t i := by
  have hne : n + 1 ≠ n := by omega
  rw [cut, if_pos rfl, if_neg (by omega), pure_eq_ok]
  refine ⟨_, rfl, ?_, ?_, fun i hi hi' => ?_⟩
  · simp only [newEntry, Table.modify_same, Table.modify_of_ne _ _ hne.symm, Nat.mod_eq_of_lt hlt]
  · simp only [newEntry, Table.modify_same, Nat.mod_eq_of_lt hlt]
  · simp only [newEntry, Table.modify_of_ne _ _ hi', Table.modify_of_ne _ _ hi]

/-- The next entry takes the rest. -/
theorem cut_merged (t : Table) (a1 : ℕ) (hj : j ≠ n) (hi : (t j).index ≤ 99) (hne : (t j).index ≠ j)
    (hfree : (t (t j).index).flag = 0) (hlt : (t j).start + a1 < 2 ^ 64) :
    ∃ t', cut a1 n j t = .ok (.merged, t') ∧
      t' j = ⟨1, (t j).start, (t j).start + a1, (t j).index⟩ ∧
      t' (t j).index = { t (t j).index with start := (t j).stop } ∧
      ∀ i, i ≠ j → i ≠ (t j).index → t' i = t i := by
  rw [cut, if_neg hj, if_neg (by omega)]
  dsimp only
  rw [Table.modify_of_ne _ _ hne, if_pos hfree, pure_eq_ok]
  refine ⟨_, rfl, ?_, ?_, fun i hij hii => ?_⟩
  · rw [Table.modify_of_ne _ _ hne.symm, Table.modify_same, Nat.mod_eq_of_lt hlt]
  · rw [Table.modify_same, Table.modify_of_ne _ _ hne]
  · rw [Table.modify_of_ne _ _ hii, Table.modify_of_ne _ _ hij]

/-- The next entry is in use, and a new one takes the rest. -/
theorem cut_inserted (t : Table) (a1 : ℕ) (hj : j < n) (hn : n < 99) (hi : (t j).index ≤ n)
    (hne : (t j).index ≠ j) (hused : (t (t j).index).flag ≠ 0) (hlt : (t j).start + a1 < 2 ^ 64) :
    ∃ t', cut a1 n j t = .ok (.inserted, t') ∧
      t' j = ⟨1, (t j).start, (t j).start + a1, n + 1⟩ ∧
      t' (n + 1) = ⟨0, (t j).start + a1, (t (t j).index).start, n + 1⟩ ∧
      ∀ i, i ≠ j → i ≠ n + 1 → t' i = t i := by
  have hjn : j ≠ n + 1 := by omega
  have hin : (t j).index ≠ n + 1 := by omega
  rw [cut, if_neg (by omega), if_neg (by omega)]
  dsimp only
  rw [Table.modify_of_ne _ _ hne, if_neg hused, if_neg (by omega), pure_eq_ok]
  refine ⟨_, rfl, ?_, ?_, fun i hij hii => ?_⟩
  · simp only [newEntry, Table.modify_same, Table.modify_of_ne _ _ hjn, Nat.mod_eq_of_lt hlt]
  · simp only [newEntry, Table.modify_same, Table.modify_of_ne _ _ hin, Table.modify_of_ne _ _ hne,
      Nat.mod_eq_of_lt hlt]
  · simp only [newEntry, Table.modify_of_ne _ _ hii, Table.modify_of_ne _ _ hij]

/-- The second entry is its own next one in a table of one entry: it is the new entry, and loses
the bytes in front of its new start. -/
theorem cut_self (t : Table) (a1 : ℕ) (hi : (t 2).index = 2) (hlt : (t 2).start + a1 < 2 ^ 64) :
    ∃ t', cut a1 1 2 t = .ok (.inserted, t') ∧
      t' 2 = ⟨0, (t 2).start + a1, (t 2).start + a1, 2⟩ ∧ ∀ i, i ≠ 2 → t' i = t i := by
  rw [cut, if_neg (by decide), if_neg (by omega)]
  dsimp only
  rw [hi, Table.modify_same, if_neg one_ne_zero, if_neg (by decide), pure_eq_ok]
  refine ⟨_, rfl, ?_, fun i h2 => ?_⟩
  · simp only [newEntry, Table.modify_same, Nat.mod_eq_of_lt hlt]
  · simp only [newEntry, Table.modify_of_ne _ _ h2]

/-! ## Allocating -/

variable {t' u' : Table} {rest rest' : Rest}

/-- A page after its two tables have been cut. -/
def Page.withCuts (x : Page) (b c : Table) (rest : Rest) : Page :=
  { x with b := b, c := c, n := if rest = .merged then x.n else x.n + 1 }

theorem blockAllocVa_of_cut (hv : (m.p 1).vaild = 1) (h : FirstFree (m.p 1).c j)
    (hlt : a1 < ((m.p 1).c j).size) (ha : a1 < 2 ^ 31)
    (hcut : cut a1 (m.p 1).n j (m.p 1).c = .ok (rest, t')) :
    blockAllocVa a1 m = .ok ((t' j).start,
      { m with p := Function.update m.p 1 { m.p 1 with c := t' }, leave := 0 }) := by
  have hscan := scanPages_first .c hv h hlt.ne'
  rw [blockAllocVa, toInt_of_lt ha, hscan]
  dsimp only
  rw [if_pos hlt, hcut, ok_bind]
  rfl

theorem blockAlloc_of_cut (hv : (m.p 1).vaild = 1) (h : FirstFree (m.p 1).b j)
    (hlt : a1 < ((m.p 1).b j).size) (ha : a1 < 2 ^ 31) (hleave : m.leave = 0)
    (hcut : cut a1 (m.p 1).n j (m.p 1).b = .ok (rest, t')) :
    blockAlloc a1 m = .ok ((t' j).start,
      { m with p := Function.update m.p 1 ((m.p 1).withCuts t' (m.p 1).c rest) }) := by
  have hscan := scanPages_first .b hv h hlt.ne'
  rw [blockAlloc, toInt_of_lt ha, hscan]
  dsimp only
  rw [if_pos hlt, hcut, ok_bind]
  dsimp only
  rw [hleave, ite_self, pure_eq_ok, ← hleave]
  rfl

/-- **A call that is served** by cutting a free entry of the first page in both tables. -/
theorem allocate_iff (hused : m.first ≠ 0) (hv : (m.p 1).vaild = 1) (ha : a1 < 2 ^ 31)
    (hc : FirstFree (m.p 1).c j) (hcs : a1 < ((m.p 1).c j).size)
    (hcut : cut a1 (m.p 1).n j (m.p 1).c = .ok (rest, t'))
    (hb : FirstFree (m.p 1).b k) (hbs : a1 < ((m.p 1).b k).size)
    (hbcut : cut a1 (m.p 1).n k (m.p 1).b = .ok (rest', u')) (hva : 5 < (t' j).start)
    {pagetable : ℕ} :
    SysUserBetterAllocatePage pagetable a1 m mach va m' mach' ↔
      va = (t' j).start ∧ mach' = mach ∧
        m' = { m with p := Function.update m.p 1 ((m.p 1).withCuts u' t' rest'), leave := 0 } := by
  set m₁ : Malloc :=
    { m with p := Function.update m.p 1 { m.p 1 with c := t' }, leave := 0 } with hm₁
  have hp₁ : m₁.p 1 = { m.p 1 with c := t' } := Function.update_self 1 _ m.p
  have e₁ : blockAllocVa a1 m = .ok ((t' j).start, m₁) := blockAllocVa_of_cut hv hc hcs ha hcut
  have e₂ := blockAlloc_of_cut (m := m₁) (by rwa [hp₁]) (by rwa [hp₁]) (by rwa [hp₁]) ha rfl
    (by rwa [hp₁])
  have hround : round pagetable a1 m mach = .ok (.inl (t' j).start,
      { m with p := Function.update m.p 1 ((m.p 1).withCuts u' t' rest'), leave := 0 }, mach) := by
    rw [round, e₁, ok_bind]
    dsimp only
    rw [if_pos ⟨by omega, by omega⟩, e₂, ok_bind, hp₁]
    dsimp only
    rw [hm₁, Function.update_idem]
    rfl
  constructor
  · intro h
    cases h with
    | first fresh => exact absurd fresh hused
    | returns _ run =>
      rw [hround] at run
      cases run
      exact ⟨rfl, rfl, rfl⟩
    | again _ run =>
      rw [hround] at run
      cases run
  · rintro ⟨rfl, rfl, rfl⟩
    exact .returns hused hround

/-- A call that returns has cut the first free entry. -/
theorem cut_of_allocate {pagetable : ℕ} (hused : m.first ≠ 0) (hv : (m.p 1).vaild = 1)
    (ha : a1 < 2 ^ 31) (hc : FirstFree (m.p 1).c j) (hcs : a1 < ((m.p 1).c j).size)
    (h : SysUserBetterAllocatePage pagetable a1 m mach va m' mach') :
    ∃ r, cut a1 (m.p 1).n j (m.p 1).c = .ok r := by
  have hround : ∃ r, round pagetable a1 m mach = .ok r := by
    cases h with
    | first fresh => exact absurd fresh hused
    | returns _ run => exact ⟨_, run⟩
    | again _ run => exact ⟨_, run⟩
  obtain ⟨r, hr⟩ := hround
  obtain ⟨s, hs, -⟩ := (bind_ok_iff _ _ _).1 hr
  have hscan := scanPages_first .c hv hc hcs.ne'
  rw [blockAllocVa, toInt_of_lt ha, hscan] at hs
  dsimp only at hs
  rw [if_pos hcs] at hs
  obtain ⟨r', hr', -⟩ := (bind_ok_iff _ _ _).1 hs
  exact ⟨r', hr'⟩

/-- A new entry needs a place. -/
theorem room_of_cut {r : Rest × Table} (h : cut a1 n j t = .ok r)
    (hnew : j = n ∨ (t j).index ≠ j ∧ (t (t j).index).flag ≠ 0) : n < 99 := by
  by_contra hn
  rw [not_lt] at hn
  rw [cut] at h
  dsimp only at h
  rcases hnew with rfl | ⟨hne, hused⟩
  · rw [if_pos rfl, if_pos hn] at h
    cases h
  · rw [Table.modify_of_ne _ _ hne, if_neg hused, if_pos hn] at h
    split at h
    · cases h
    · split at h <;> cases h

/-! ## Freeing -/

/-- The first page of the tables is the only one in use. -/
structure OnlyFirst (p : ℕ → Page) : Prop where
  first : (p 1).vaild = 1
  others : ∀ i, i ≠ 1 → (p i).vaild = 0

theorem OnlyFirst.update (h : OnlyFirst p) (hx : x.vaild = 1) :
    OnlyFirst (Function.update p 1 x) := by
  refine ⟨by rwa [Function.update_self], fun i hi => ?_⟩
  rw [Function.update_of_ne hi]
  exact h.others i hi

theorem freeLoop_unused (h : ∀ l, i ≤ l → (p l).vaild = 0) : freeLoop va k i j p = .ok p := by
  induction k generalizing i with
  | zero => rfl
  | succ k ih =>
    rw [freeLoop, if_pos (by rw [h i le_rfl]; decide)]
    exact ih fun l hl => h l (by omega)

/-- `block_free_va` looks at the first entry of the first page only. -/
theorem blockFreeVa_eq (h : OnlyFirst m.p) : blockFreeVa va m =
    if ((m.p 1).c 1).start = va then
      (release 1 (m.p 1)).map fun x => { m with p := Function.update m.p 1 x }
    else .ok m := by
  have hrest : ∀ x : Page, ∀ l, 1 + 1 ≤ l → (Function.update m.p 1 x l).vaild = 0 := by
    intro x l hl
    have hne : l ≠ 1 := by omega
    rw [Function.update_of_ne hne]
    exact h.others l hne
  rw [blockFreeVa, freeLoop, if_neg (not_not.2 h.first), if_neg (by decide)]
  by_cases hva : ((m.p 1).c 1).start = va
  · rw [if_pos hva, if_pos hva]
    cases release 1 (m.p 1) with
    | error e => rfl
    | ok x =>
      rw [ok_bind]
      dsimp only
      rw [freeLoop_unused (hrest x)]
      rfl
  · rw [if_neg hva, if_neg hva, pure_eq_ok, ok_bind]
    dsimp only
    rw [freeLoop_unused (hrest _), Function.update_eq_self]
    rfl

/-- The first entry is released, and the next one is free. -/
theorem release_merged (hi : (x.c 1).index ≤ 99) (hnext : (x.c (x.c 1).index).flag = 0)
    (hi' : (x.c (x.c 1).index).index ≤ 99) :
    release 1 x = .ok (x.modify 1
      (fun e => { e with
        index := (x.c (x.c (x.c 1).index).index).index, flag := 0,
        stop := (x.c (x.c 1).index).stop })
      (fun e => { e with
        index := (x.b (x.c (x.c 1).index).index).index, flag := 0,
        stop := (x.b (x.c 1).index).stop })) := by
  rw [release, if_neg (by omega), if_pos rfl, if_pos hnext, if_neg (by omega)]
  rfl

/-- The first entry is released, and the next one is in use. -/
theorem release_alone (hi : (x.c 1).index ≤ 99) (hnext : (x.c (x.c 1).index).flag ≠ 0) :
    release 1 x = .ok (x.modify 1 (fun e => { e with flag := 0 }) fun e => { e with flag := 0 }) :=
    by
  rw [release, if_neg (by omega), if_pos rfl, if_neg hnext]
  rfl

end HustOS.Mm.Better
