import HustOS.Mm.BetterPhases
import HustOS.Mm.FreePages

/-!
# Runs of `better_malloc`

The calls of the allocator in any order. If every allocation is served by cutting the first free
entry, which has more bytes than are asked for, the blocks have no byte in common
(`betterApart_of_run`), and a release of the first block makes its bytes free where the entry behind
it is free (`betterFree_of_run`); a release of any other block does nothing (`betterFree_lost`), and
four calls for one byte give blocks that overlap (`betterApart_lost`).
-/

namespace HustOS.Mm.Better

open Foundations

/-! ## The calls -/

/-- The variables of the allocator, the machine with its processes, the number of the process that
made the first call, and the blocks, by address and length, that are returned and not released. -/
structure State where
  m : Malloc
  sys : Sys
  owner : Option ℕ
  live : List (ℕ × ℕ)

/-- The calls. -/
inductive Call
  /-- `better_malloc(n)` by the process `i`. -/
  | allocate (i n : ℕ)
  /-- `better_free(va)`. -/
  | free (va : ℕ)

/-- A call that returns. -/
inductive Step (s : State) : Call → State → Prop
  | allocate {i n va : ℕ} {p : Space} {m' : Malloc} {mach' : Mach}
      (caller : s.sys.spaces[i]? = some p)
      (run : SysUserBetterAllocatePage p.pagetable n s.m s.sys.mach va m' mach') :
      Step s (.allocate i n)
        ⟨m', { s.sys with mach := mach' }, some (s.owner.getD i), (va, n) :: s.live⟩
  | free {va : ℕ} {m' : Malloc} (run : sysUserBetterFreePage va s.m = .ok m') :
      Step s (.free va) { s with m := m', live := s.live.filter fun u => u.1 ≠ va }

/-- The runs of the allocator whose calls satisfy `C` where they happen, from a state of the kernel
in which it has not been called. -/
inductive BetterRun (lay : Layout) (C : State → Call → Prop) : State → Prop
  | start {sys : Sys} (run : Run lay EventOk sys) : BetterRun lay C ⟨.init, sys, none, []⟩
  | step {s s' : State} {c : Call} (run : BetterRun lay C s) (cond : C s c) (step : Step s c s') :
      BetterRun lay C s'

/-- The first free entry of the first page has more than `n` bytes; and if it is the last entry of
its list, it is the last entry of the table, or the table has one entry. -/
def CutsFirst (n : ℕ) (x : Page) : Prop :=
  ∃ j, FirstFree x.c j ∧ n < (x.c j).size ∧ ((x.c j).index = j → x.n = j ∨ x.n = 1)

/-- An allocation of 1 to `PGSIZE` bytes is served by cutting the first free entry; the first one of
all takes less than a page, and there is a free page for it. -/
def Served (s : State) : Call → Prop
  | .allocate _ n => 0 < n ∧ n ≤ PGSIZE ∧
    if s.m.first = 0 then n < PGSIZE ∧ s.sys.mach.gFreeMemList ≠ 0 else CutsFirst n (s.m.p 1)
  | .free _ => True

/-- The address is in a block. -/
def InBlock (u : ℕ × ℕ) (a : ℕ) : Prop := u.1 ≤ a ∧ a < u.1 + u.2

/-- The address is in a free entry of a page in use. -/
def Malloc.FreeAt (m : Malloc) (a : ℕ) : Prop :=
  ∃ i j, (1 ≤ i ∧ i ≤ 99) ∧ (1 ≤ j ∧ j ≤ 99) ∧ (m.p i).vaild = 1 ∧ ((m.p i).c j).flag = 0 ∧
    ((m.p i).c j).start ≤ a ∧ a < ((m.p i).c j).stop

/-- The variables `m'` after the release of the block `u`: its bytes are free, and besides them only
bytes of no block have become free; the entries of the other blocks are as they were; and a call of
the process for as many bytes returns the block again, and takes no page. -/
structure Frees (pagetable : ℕ) (s : State) (u : ℕ × ℕ) (m' : Malloc) : Prop where
  block : ∀ a, InBlock u a → m'.FreeAt a
  kept : ∀ a, s.m.FreeAt a → m'.FreeAt a
  only : ∀ a, m'.FreeAt a → s.m.FreeAt a ∨ InBlock u a ∨ ∀ v ∈ s.live, ¬ InBlock v a
  entries : ∀ i j, ((s.m.p i).c j).start ≠ u.1 →
    (m'.p i).c j = (s.m.p i).c j ∧ (m'.p i).b j = (s.m.p i).b j
  again : ∃ m'', ∀ va m₁ mach₁,
    SysUserBetterAllocatePage pagetable u.2 m' s.sys.mach va m₁ mach₁ ↔
      va = u.1 ∧ m₁ = m'' ∧ mach₁ = s.sys.mach

/-- The address is that of the first entry of the first page, and the entry behind it is free. -/
def FreesFirst (m : Malloc) (va : ℕ) : Prop :=
  ((m.p 1).c 1).start = va ∧ ((m.p 1).c ((m.p 1).c 1).index).flag = 0

/-! ## The invariant -/

/-- The allocator after its first call. -/
structure InUse (m : Malloc) (live : List (ℕ × ℕ)) (pa : ℕ) : Prop where
  range : Range USER_FREE_ADDRESS_START (USER_FREE_ADDRESS_START + PGSIZE) pa
  used : m.first ≠ 0
  only : OnlyFirst m.p
  phase : Phase USER_FREE_ADDRESS_START (USER_FREE_ADDRESS_START + PGSIZE) pa (m.p 1)
  live : Live USER_FREE_ADDRESS_START (USER_FREE_ADDRESS_START + PGSIZE) (m.p 1) live

variable {lay : Layout} {s s' : State} {m m' : Malloc} {live : List (ℕ × ℕ)} {u : ℕ × ℕ}
  {lo hi pa a1 va n pagetable : ℕ} {x x' : Page} {mach mach' : Mach}

theorem range_start (h0 : 0 < pa) (h : pa < 2 ^ 56) :
    Range USER_FREE_ADDRESS_START (USER_FREE_ADDRESS_START + PGSIZE) pa where
  low := by decide
  page := rfl
  fits := by decide
  pos := h0
  pa_fits := by
    simp only [PGSIZE]
    omega

/-- **An allocation that cuts the first free entry** returns a block of the page; if it is the
second one and the first block is in use, this takes twice the bytes. The first block is given where
it is free. -/
theorem Phase.serve (hr : Range lo hi pa) (h : Phase lo hi pa x) (hl : Live lo hi x live)
    (hpos : 0 < a1) (hfirst : CutsFirst a1 x)
    (hcut : ∀ j, FirstFree x.c j → a1 < (x.c j).size → ∃ r, cut a1 x.n j x.c = .ok r) :
    ∃ va x', lo ≤ va ∧ Cuts a1 x va x' ∧ x'.vaild = x.vaild ∧ Phase lo hi pa x' ∧
      Live lo hi x' ((va, a1) :: live) ∧
      ((x.n = 1 → (x.c 1).flag ≠ 0 → (x.c 1).stop + 2 * a1 ≤ hi) → va + a1 ≤ hi) ∧
      ((x.c 1).flag = 0 → va = lo) := by
  have hfits := hr.fits
  obtain ⟨j, hj, hsize, hlast⟩ := hfirst
  obtain ⟨r, hr'⟩ := hcut j hj hsize
  cases h with
  | once h =>
    have hj2 : FirstFree x.c 2 := by
      refine ⟨by decide, by decide, by rw [h.second], fun i h1 h2 => ?_⟩
      obtain rfl : i = 1 := by omega
      exact h.used
    obtain rfl := hj.unique hj2
    have hless := h.less
    have hmore := h.more
    rw [h.second, Block.size_of_le hless.le (by dsimp only; omega)] at hsize
    dsimp only at hsize
    obtain ⟨x', hc, hv, hp, hl'⟩ := h.serve hr hl hpos (by omega)
    refine ⟨_, x', by omega, hc, hv, hp, hl', fun hroom => ?_, fun hfree => absurd hfree h.used⟩
    have hroom := hroom h.n h.used
    omega
  | again h =>
    obtain rfl := hj.unique (.one (by rw [h.head]))
    have hpage := hr.page
    rw [h.head, Block.size_of_le (by dsimp only; omega) (by dsimp only; omega)] at hsize
    dsimp only at hsize
    obtain ⟨x', hc, hv, hp, hl'⟩ := h.serve hr hl hpos (by omega)
    exact ⟨lo, x', le_rfl, hc, hv, hp, hl', fun _ => by omega, fun _ => rfl⟩
  | row h =>
    have hmore := h.more
    have hbehind := h.behind
    have hless := h.less
    by_cases hflag : (x.c 1).flag = 0
    · obtain rfl := hj.unique (.one hflag)
      have h3 := h.head hflag
      have hused := (h.used 2 le_rfl (by omega)).1
      have hroom := room_of_cut hr' (.inr (by rw [h.index]; exact ⟨by decide, hused⟩))
      rw [Block.size_of_le (by rw [h.start]; omega) (by omega), h.start] at hsize
      obtain ⟨x', hc, hv, hp, hl'⟩ := h.serve_head hr hl hflag hroom hpos (by omega)
      exact ⟨lo, x', le_rfl, hc, hv, hp, hl', fun _ => by omega, fun _ => rfl⟩
    · obtain rfl := hj.unique (h.firstFree hflag).1
      have hroom := room_of_cut hr' (.inl rfl)
      have hstop := h.last.2.1
      rw [Block.size_of_le (by omega) (by omega), hstop] at hsize
      obtain ⟨x', hc, hv, hp, hl'⟩ := h.serve hr hl hflag hroom hpos (by omega)
      exact ⟨_, x', by omega, hc, hv, hp, hl', fun _ => by omega, fun h0 => absurd h0 hflag⟩
  | loop h =>
    have hmore := h.more
    have htop := h.top
    by_cases hflag : (x.c 1).flag = 0
    · obtain rfl := hj.unique (.one hflag)
      have hstop := (h.free hflag).1
      rw [Block.size_of_le (by rw [h.start]; omega) (by omega), h.start] at hsize
      obtain ⟨x', hc, hv, hp, hl'⟩ := h.serve hr hl hflag hpos (by omega)
      exact ⟨lo, x', le_rfl, hc, hv, hp, hl', fun _ => by omega, fun _ => rfl⟩
    · -- the first free entry is empty, or cannot be cut
      obtain ⟨k, hk2, hk99, hkfree, hbefore, hor⟩ := h.stuck
      have hk : FirstFree x.c k := by
        refine ⟨by omega, hk99, hkfree, fun i h1 hik => ?_⟩
        rcases eq_or_ne i 1 with rfl | hi1
        · exact hflag
        · exact hbefore i (by omega) hik
      obtain rfl := hj.unique hk
      rcases hor with ⟨rfl, hempty⟩ | ⟨hindex, hlt⟩
      · have hempty := hempty hflag
        rw [Block.size_of_le hempty.le (by omega), hempty, Nat.sub_self] at hsize
        omega
      · have htwo := h.two
        have hn := hlast hindex
        omega

/-! ## The first call -/

/-- The tables of the first call before its block is cut. -/
def firstTables (pa n : ℕ) : Malloc :=
  Malloc.setPa (Malloc.usePage { Malloc.init with
    gMallocPage := USER_FREE_ADDRESS_START, first := 1 } 1 n) 1 pa PGSIZE

section FirstTables

variable (pa n : ℕ) {j : ℕ}

theorem firstTables_c : ((firstTables pa n).p 1).c 1 =
    ⟨0, USER_FREE_ADDRESS_START, USER_FREE_ADDRESS_START + PGSIZE, 1⟩ := by
  simp [firstTables, Malloc.setPa, Malloc.usePage, Malloc.init]
  decide

theorem firstTables_b (h : pa + PGSIZE < 2 ^ 64) :
    ((firstTables pa n).p 1).b 1 = ⟨0, pa, pa + PGSIZE, 1⟩ := by
  simpa [firstTables, Malloc.setPa, Malloc.usePage, Malloc.init] using h

theorem firstTables_of_ne (h : j ≠ 1) : ((firstTables pa n).p 1).c j = ⟨0, 0, 0, 0⟩ ∧
    ((firstTables pa n).p 1).b j = ⟨0, 0, 0, 0⟩ := by
  simp [firstTables, Malloc.setPa, Malloc.usePage, Malloc.init, Table.modify_of_ne _ _ h]

theorem firstTables_only : OnlyFirst (firstTables pa n).p := by
  refine ⟨by simp [firstTables, Malloc.setPa, Malloc.usePage], fun i hi => ?_⟩
  simp [firstTables, Malloc.setPa, Malloc.usePage, Malloc.init, Function.update_of_ne hi]

theorem firstTables_n : ((firstTables pa n).p 1).n = 1 := by
  simp [firstTables, Malloc.setPa, Malloc.usePage]

end FirstTables

/-- The tables after the first call, which the first page serves. -/
theorem firstLoop_eq (hr : Range USER_FREE_ADDRESS_START (USER_FREE_ADDRESS_START + PGSIZE) pa)
    (hpos : 0 < n) (hn : n < PGSIZE) :
    ∃ m, firstLoop pa 99 1 n
        { Malloc.init with gMallocPage := USER_FREE_ADDRESS_START, first := 1 } = .ok (1, m) ∧
      m.gMallocPage = USER_FREE_ADDRESS_START ∧ m.first = 1 ∧ OnlyFirst m.p ∧
      Once USER_FREE_ADDRESS_START (USER_FREE_ADDRESS_START + PGSIZE) pa (m.p 1) ∧
      (m.p 1).c 1 = ⟨1, USER_FREE_ADDRESS_START, USER_FREE_ADDRESS_START + n, 2⟩ := by
  have hfits := hr.pa_fits
  have hrange := hr.fits
  have honly : OnlyFirst (firstTables pa n).p := firstTables_only pa n
  have hb2 := (firstTables_of_ne pa n (j := 2) (by decide)).2
  have hless : USER_FREE_ADDRESS_START + n < USER_FREE_ADDRESS_START + PGSIZE :=
    Nat.add_lt_add_left hn _
  have hcut := cut_tail ((firstTables pa n).p 1).c n (n := 1) (by decide) (by
    rw [firstTables_c pa n]
    exact hless.trans (by decide))
  obtain ⟨c, hcut, hc1, hc2, hcrest⟩ := hcut
  rw [firstTables_c pa n] at hc1 hc2
  dsimp only [Nat.reduceAdd] at hc1 hc2
  have e := blockAllocVa_of_cut (m := firstTables pa n) (j := 1) honly.first
    (.one (by rw [firstTables_c pa n])) (by
      rw [firstTables_c pa n]
      exact size_of_lt hless (by decide))
    (hn.trans (by decide)) (by rw [firstTables_n pa n, hcut])
  refine ⟨{ firstTables pa n with
    p := Function.update (firstTables pa n).p 1 { (firstTables pa n).p 1 with c := c },
      leave := 0 },
    ?_, rfl, rfl, honly.update honly.first, ?_, ?_⟩
  · have hunused : (Malloc.init.p 1).vaild = 0 := rfl
    rw [firstLoop, if_neg (not_not.2 hunused)]
    change (blockAllocVa n (firstTables pa n) >>= _) = _
    rw [e, ok_bind, hc1]
    rfl
  · dsimp only
    rw [Function.update_self]
    exact
      { n := firstTables_n pa n
        used := by
          dsimp only
          rw [hc1]
          exact one_ne_zero
        start := by
          dsimp only
          rw [hc1]
        index := by
          dsimp only
          rw [hc1]
        more := by
          dsimp only
          rw [hc1]
          exact Nat.lt_add_of_pos_right hpos
        less := by
          dsimp only
          rw [hc1]
          exact hless
        second := by
          dsimp only
          rw [hc2, hc1]
        rest := fun j h3 _ => by
          dsimp only
          rw [hcrest j (by omega) (by omega), (firstTables_of_ne pa n (by omega)).1]
        b := firstTables_b pa n (by omega)
        bsecond := hb2 }
  · dsimp only
    rw [Function.update_self]
    exact hc1

/-- One page is mapped, in the place of the one that is mapped there. -/
theorem mapLoop_one {m₁ : Malloc} (h : mapLoop pagetable 1 pa m mach = .ok (m₁, mach')) :
    ∃ pte mach₁ w mach₂ mach₃ q, pageWalk pagetable m.gMallocPage true mach = .ok (pte, mach₁) ∧
      mach₁.load pte = .ok w ∧
      (if w &&& PTE_V ≠ 0 then userVmUnmap pagetable m.gMallocPage PGSIZE 1 mach₁
        else .ok mach₁) = .ok mach₂ ∧
      userVmMap pagetable m.gMallocPage PGSIZE pa betterPerm mach₂ = .ok mach₃ ∧
      allocPage mach₃ = .ok (q, mach') ∧
      m₁ = { m with gMallocPage := (m.gMallocPage + PGSIZE) % 2 ^ 64 } := by
  rw [mapLoop] at h
  obtain ⟨⟨pte, mach₁⟩, e₁, h⟩ := (bind_ok_iff _ _ _).1 h
  obtain ⟨w, e₂, h⟩ := (bind_ok_iff _ _ _).1 h
  dsimp only at h
  obtain ⟨mach₂, e₃, h⟩ : ∃ mach₂,
      (if w &&& PTE_V ≠ 0 then userVmUnmap pagetable m.gMallocPage PGSIZE 1 mach₁
        else .ok mach₁) = .ok mach₂ ∧
      (userVmMap pagetable m.gMallocPage PGSIZE pa betterPerm mach₂ >>= fun mach =>
        allocPage mach >>= fun r =>
          mapLoop pagetable 0 r.1 { m with gMallocPage := (m.gMallocPage + PGSIZE) % 2 ^ 64 } r.2) =
        .ok (m₁, mach') := by
    split at h
    · rename_i hw
      obtain ⟨mach₂, e₃, h⟩ := (bind_ok_iff _ _ _).1 h
      exact ⟨mach₂, by rw [if_pos hw, e₃], h⟩
    · rename_i hw
      exact ⟨mach₁, by rw [if_neg hw], h⟩
  obtain ⟨mach₃, e₄, h⟩ := (bind_ok_iff _ _ _).1 h
  obtain ⟨⟨q, mach₄⟩, e₅, h⟩ := (bind_ok_iff _ _ _).1 h
  dsimp only at h
  rw [mapLoop] at h
  cases h
  exact ⟨pte, mach₁, w, mach₂, mach₃, q, e₁, e₂, e₃, e₄, e₅, rfl⟩

/-- **The first call** returns the first bytes of the first page, on the page that it has taken. -/
theorem firstCall_ok (hpos : 0 < n) (hn : n < PGSIZE)
    (hpa : ∀ q m', allocPage mach = .ok (q, m') → 0 < q ∧ q < 2 ^ 56)
    (h : firstCall pagetable n .init mach = .ok (va, m', mach')) :
    ∃ pa mach₁ m₁, allocPage mach = .ok (pa, mach₁) ∧ m₁.gMallocPage = USER_FREE_ADDRESS_START ∧
      mapLoop pagetable 1 pa m₁ mach₁ = .ok (m', mach') ∧ va = USER_FREE_ADDRESS_START ∧
      InUse m' [(va, n)] pa := by
  rw [firstCall] at h
  obtain ⟨⟨pa, mach₁⟩, e₁, h⟩ := (bind_ok_iff _ _ _).1 h
  obtain ⟨h0, hlt⟩ := hpa pa mach₁ e₁
  have hr := range_start h0 hlt
  obtain ⟨m₁, e₂, hg, hfirst, honly, honce, hc1⟩ := firstLoop_eq hr hpos hn
  dsimp only at h
  change (firstLoop pa 99 1 n
    { Malloc.init with gMallocPage := USER_FREE_ADDRESS_START, first := 1 } >>= _) = _ at h
  rw [e₂, ok_bind] at h
  obtain ⟨⟨m₂, mach₂⟩, e₃, h⟩ := (bind_ok_iff _ _ _).1 h
  cases h
  obtain ⟨-, -, -, -, -, -, -, -, -, -, -, rfl⟩ := mapLoop_one e₃
  refine ⟨pa, mach₁, m₁, e₁, hg, e₃, rfl, hr, by rw [hfirst]; exact one_ne_zero, honly,
    .once honce, ?_⟩
  have htop : (m₁.p 1).top = USER_FREE_ADDRESS_START + PGSIZE := by
    rw [Page.top, honce.index, honce.second]
    rfl
  exact
    { apart := List.pairwise_singleton _ _
      inside := fun u hu => by
        obtain rfl := List.mem_singleton.1 hu
        exact ⟨hpos, le_rfl, Nat.lt_add_of_pos_right (by decide)⟩
      free := fun u hu j h1 h99 hj => by
        obtain rfl := List.mem_singleton.1 hu
        dsimp only at hj ⊢
        rcases eq_or_ne j 1 with rfl | hj1
        · exact absurd hj honce.used
        · rcases eq_or_ne j 2 with rfl | hj2
          · rw [honce.second, hc1]
            exact .inl le_rfl
          · rw [honce.rest j (by omega) h99]
            exact .inr (Nat.zero_le _)
      head := fun u hu _ => by
        obtain rfl := List.mem_singleton.1 hu
        dsimp only
        rw [hc1]
        exact ⟨one_ne_zero, rfl⟩
      above := fun u hu hne => by
        obtain rfl := List.mem_singleton.1 hu
        exact absurd rfl hne }

/-! ## The later calls -/

theorem Phase.start (h : Phase lo hi pa x) : (x.c 1).start = lo := by
  cases h with
  | once h => exact h.start
  | again h => rw [h.head]
  | row h => exact h.start
  | loop h => exact h.start

theorem Phase.two_le (h : Phase lo hi pa x) : 2 ≤ (x.c 1).index := by
  cases h with
  | once h => exact h.index.ge
  | again h => rw [h.head]
  | row h => exact h.index.ge
  | loop h => exact h.index.1

/-- What a release of the first block does. -/
theorem InUse.release (h : InUse m live pa) : ∃ x',
    sysUserBetterFreePage USER_FREE_ADDRESS_START m =
      .ok { m with p := Function.update m.p 1 x' } ∧
    Released USER_FREE_ADDRESS_START (m.p 1) x' ∧
    InUse { m with p := Function.update m.p 1 x' }
      (live.filter fun u => u.1 ≠ USER_FREE_ADDRESS_START) pa := by
  obtain ⟨x', e, hp, hx⟩ := h.phase.release
  refine ⟨x', ?_, hx, h.range, h.used, h.only.update (hx.vaild.trans h.only.first), ?_, ?_⟩
  · rw [sysUserBetterFreePage, blockFreeVa_eq h.only, if_pos h.phase.start, e]
    rfl
  · dsimp only
    rwa [Function.update_self]
  · dsimp only
    rw [Function.update_self]
    exact h.live.release hx.c hx.stop hx.top

/-- A release of anything else does nothing. -/
theorem InUse.free_other (h : InUse m live pa) (hva : va ≠ USER_FREE_ADDRESS_START) :
    sysUserBetterFreePage va m = .ok m := by
  rw [sysUserBetterFreePage, blockFreeVa_eq h.only, if_neg]
  rw [h.phase.start]
  exact hva.symm

theorem InUse.free (h : InUse m live pa) (e : sysUserBetterFreePage va m = .ok m') :
    InUse m' (live.filter fun u => u.1 ≠ va) pa := by
  by_cases hva : va = USER_FREE_ADDRESS_START
  · subst hva
    obtain ⟨x', e', -, h'⟩ := h.release
    rw [e] at e'
    cases e'
    exact h'
  · rw [h.free_other hva] at e
    cases e
    exact { h with live := h.live.filter _ }

theorem InUse.allocate (h : InUse m live pa) (hpos : 0 < n) (hn : n ≤ PGSIZE)
    (hfirst : CutsFirst n (m.p 1))
    (run : SysUserBetterAllocatePage pagetable n m mach va m' mach') :
    mach' = mach ∧ USER_FREE_ADDRESS_START ≤ va ∧ InUse m' ((va, n) :: live) pa ∧
      (((m.p 1).n = 1 → ((m.p 1).c 1).flag ≠ 0 →
        ((m.p 1).c 1).stop + 2 * n ≤ USER_FREE_ADDRESS_START + PGSIZE) →
        va + n ≤ USER_FREE_ADDRESS_START + PGSIZE) := by
  have hsmall : n < 2 ^ 31 := hn.trans_lt (by decide)
  obtain ⟨va', x', hlo, hcuts, hv, hp, hl, hin, -⟩ := h.phase.serve h.range h.live hpos hfirst
    fun j hj hsize => cut_of_allocate h.used h.only.first hsmall hj hsize run
  have hva : 5 < va' := h.range.low.trans_le hlo
  obtain ⟨rfl, rfl, rfl⟩ := (hcuts.allocate_iff h.used h.only.first hsmall hva).1 run
  refine ⟨rfl, hlo, ⟨h.range, h.used, h.only.update (hv.trans h.only.first), ?_, ?_⟩, hin⟩
  · dsimp only
    rwa [Function.update_self]
  · dsimp only
    rwa [Function.update_self]

/-! ## Runs -/

/-- **The invariant of the allocator**: it has not been called, or its tables are in one of the
phases. -/
def Inv (lay : Layout) (s : State) : Prop :=
  s.m = .init ∧ s.live = [] ∧ Run lay EventOk s.sys ∨ ∃ pa, InUse s.m s.live pa

/-- A page that is taken. -/
theorem taken_page (run : Run lay EventOk s.sys) (h0 : s.sys.mach.gFreeMemList ≠ 0) {q : ℕ}
    (e : allocPage s.sys.mach = .ok (q, mach)) : 0 < q ∧ q < 2 ^ 56 := by
  obtain ⟨pm, kept, hi⟩ := run.inv fun _ _ h => h
  obtain ⟨l, hl⟩ := hi.tables
  obtain ⟨rfl, -⟩ := (hi.stage .refl).head e
  obtain ⟨l', rfl, -⟩ := hl.take_cons e h0
  exact ⟨Nat.pos_of_ne_zero h0, (hl.page _ List.mem_cons_self).2⟩

theorem init_free : sysUserBetterFreePage va .init = .ok .init := by
  rw [sysUserBetterFreePage, blockFreeVa, freeLoop_unused fun _ _ => rfl]
  rfl

theorem allocate_init (h : SysUserBetterAllocatePage pagetable n .init mach va m' mach') :
    firstCall pagetable n .init mach = .ok (va, m', mach') := by
  cases h with
  | first _ run => exact run
  | returns used => exact absurd rfl used
  | again used => exact absurd rfl used

theorem Inv.step {c : Call} (h : Inv lay s) (served : Served s c) (step : Step s c s') :
    Inv lay s' := by
  cases step with
  | allocate caller run =>
    obtain ⟨hpos, hn, served⟩ := served
    rcases h with ⟨hm, hlive, hrun⟩ | ⟨pa, h⟩
    · rw [if_pos (by rw [hm]; rfl)] at served
      rw [hm] at run
      obtain ⟨pa, -, -, -, -, -, -, h'⟩ := firstCall_ok hpos served.1
        (fun q m' => taken_page hrun served.2) (allocate_init run)
      refine .inr ⟨pa, ?_⟩
      dsimp only
      rw [hlive]
      exact h'
    · rw [if_neg h.used] at served
      exact .inr ⟨pa, (h.allocate hpos hn served run).2.2.1⟩
  | free run =>
    rcases h with ⟨hm, hlive, hrun⟩ | ⟨pa, h⟩
    · rw [hm, init_free] at run
      cases run
      refine .inl ⟨rfl, ?_, hrun⟩
      dsimp only
      rw [hlive]
      rfl
    · exact .inr ⟨pa, h.free run⟩

theorem BetterRun.inv {C : State → Call → Prop} (run : BetterRun lay C s)
    (hC : ∀ s c, C s c → Served s c) : Inv lay s := by
  induction run with
  | start run => exact .inl ⟨rfl, rfl, run⟩
  | step _ cond step ih => exact ih.step (hC _ _ cond) step

/-- **Live blocks have no byte in common** in the runs whose allocations are all served by cutting
the first free entry. -/
theorem betterApart_of_run (run : BetterRun lay Served s) : s.live.Pairwise Apart := by
  rcases run.inv fun _ _ h => h with ⟨-, hlive, -⟩ | ⟨pa, h⟩
  · rw [hlive]
    exact .nil
  · exact h.live.apart

/-! ## A release of the first block -/

/-- A block in front of a free entry ends before it does. -/
theorem Phase.stop_lt (h : Phase lo hi pa x) (used : (x.c 1).flag ≠ 0)
    (free : (x.c (x.c 1).index).flag = 0) : (x.c 1).stop < x.top ∧ x.top ≤ hi := by
  have htop : x.top = (x.c (x.c 1).index).stop := by rw [Page.top, if_pos free]
  cases h with
  | once h =>
    rw [htop, h.index, h.second]
    exact ⟨h.less, le_rfl⟩
  | again h =>
    rw [h.head] at used
    exact absurd rfl used
  | row h =>
    have hn : x.n = 2 := by
      by_contra hn
      rw [h.index] at free
      exact (h.used 2 le_rfl (lt_of_le_of_ne h.two (Ne.symm hn))).1 free
    rw [h.top, if_pos hn]
    exact ⟨h.behind.trans_lt h.less, le_rfl⟩
  | loop h =>
    rw [htop]
    exact ⟨h.used used, h.top⟩

/-- The first entry is cut where the one behind it is free as well. -/
theorem Phase.cut_head (hr : Range lo hi pa) (h : Phase lo hi pa x) (head : (x.c 1).flag = 0)
    (free : (x.c (x.c 1).index).flag = 0) (ha : lo + a1 < hi) :
    ∃ r, cut a1 x.n 1 x.c = .ok r := by
  have hfits := hr.fits
  cases h with
  | once h => exact absurd head h.used
  | again h =>
    have hn := h.n
    have hstart : (x.c x.n).start + a1 < 2 ^ 64 := by
      rw [hn, h.head]
      dsimp only
      omega
    obtain ⟨c, hcut, -⟩ := cut_tail _ _ (by omega) hstart
    rw [hn] at hcut ⊢
    exact ⟨_, hcut⟩
  | row h =>
    rw [h.index] at free
    have h3 := h.head head
    exact absurd free (h.used 2 le_rfl (by omega)).1
  | loop h =>
    have htwo := h.two
    have hle := h.le
    obtain ⟨hd2, hdn⟩ := h.index
    obtain ⟨c, hcut, -⟩ := cut_merged x.c a1 (j := 1) (n := x.n) (by omega) (by omega)
      (by omega) free (by rw [h.start]; omega)
    exact ⟨_, hcut⟩

theorem InUse.frees (h : InUse s.m s.live pa) (hu : u ∈ s.live) (hfirst : FreesFirst s.m u.1) :
    ∃ m', sysUserBetterFreePage u.1 s.m = .ok m' ∧ ∀ pagetable, Frees pagetable s u m' := by
  obtain ⟨hstart, hfree⟩ := hfirst
  have hulo : u.1 = USER_FREE_ADDRESS_START := hstart.symm.trans h.phase.start
  obtain ⟨hused, hstop⟩ := h.live.head u hu hulo
  obtain ⟨hlt, htop⟩ := h.phase.stop_lt hused hfree
  obtain ⟨x', e, hx, h'⟩ := h.release
  rw [← hulo] at e
  have hx₁ : (Function.update s.m.p 1 x') 1 = x' := Function.update_self ..
  have hvaild : x'.vaild = 1 := hx.vaild.trans h.only.first
  -- the block is the first one
  have hsame : ∀ v ∈ s.live, v.1 = USER_FREE_ADDRESS_START → v = u := by
    intro v hv hvlo
    have hvstop := (h.live.head v hv hvlo).2
    exact Prod.ext (hvlo.trans hulo.symm) (by omega)
  refine ⟨_, e, fun pagetable => ⟨fun a ha => ?_, fun a ha => ?_, fun a ha => ?_, fun i j hij => ?_,
    ?_⟩⟩
  · refine ⟨1, 1, by decide, by decide, ?_⟩
    dsimp only
    rw [hx₁, hx.flag, hx.start, hx.stop]
    obtain ⟨hle, halt⟩ := ha
    exact ⟨hvaild, rfl, by omega, by omega⟩
  · obtain ⟨i, j, hi, hj, hv, hflag, hle, halt⟩ := ha
    have hi1 : i = 1 := by
      by_contra hne
      rw [h.only.others i hne] at hv
      cases hv
    subst hi1
    have hj1 : j ≠ 1 := by
      rintro rfl
      exact hused hflag
    refine ⟨1, j, hi, hj, ?_⟩
    dsimp only
    rw [hx₁, hx.c j hj1]
    exact ⟨hvaild, hflag, hle, halt⟩
  · obtain ⟨i, j, hi, hj, hv, hflag, hle, halt⟩ := ha
    dsimp only at hv hflag hle halt
    have hi1 : i = 1 := by
      by_contra hne
      rw [Function.update_of_ne hne, h.only.others i hne] at hv
      cases hv
    subst hi1
    rw [hx₁] at hv hflag hle halt
    rcases eq_or_ne j 1 with rfl | hj1
    · rw [hx.stop] at halt
      by_cases hin : InBlock u a
      · exact .inr (.inl hin)
      · refine .inr (.inr fun v hv hav => ?_)
        by_cases hvlo : v.1 = USER_FREE_ADDRESS_START
        · rw [hsame v hv hvlo] at hav
          exact hin hav
        · have habove := h.live.above v hv hvlo
          exact absurd hav.1 (by omega)
    · rw [hx.c j hj1] at hflag hle halt
      exact .inl ⟨1, j, hi, hj, h.only.first, hflag, hle, halt⟩
  · dsimp only
    rcases eq_or_ne i 1 with rfl | hi1
    · have hj1 : j ≠ 1 := by
        rintro rfl
        exact hij hstart
      rw [hx₁]
      exact ⟨hx.c j hj1, hx.b j hj1⟩
    · rw [Function.update_of_ne hi1]
      exact ⟨rfl, rfl⟩
  · have hp := h'.phase
    have hl := h'.live
    dsimp only at hp hl
    rw [hx₁] at hp hl
    have hsize : u.2 < (x'.c 1).size := by
      refine size_of_lt ?_ ?_
      · rw [hx.start, hx.stop]
        omega
      · rw [hx.stop]
        have hfits := h.range.fits
        omega
    obtain ⟨hpos, -, -⟩ := h.live.inside u hu
    have hsmall : u.2 < 2 ^ 31 := by
      have hpage : USER_FREE_ADDRESS_START + u.2 < USER_FREE_ADDRESS_START + PGSIZE := by omega
      simp only [PGSIZE] at hpage
      omega
    have htwo := h.phase.two_le
    have hfree' : (x'.c (x'.c 1).index).flag = 0 := by rwa [hx.index, hx.c _ (by omega)]
    have hcut := hp.cut_head h.range hx.flag hfree' (by omega : USER_FREE_ADDRESS_START + u.2 < _)
    have hfirst : CutsFirst u.2 x' :=
      ⟨1, .one hx.flag, hsize, fun he => absurd he (by rw [hx.index]; omega)⟩
    obtain ⟨va, x'', hlo, hcuts, -, -, -, -, hva⟩ :=
        hp.serve h.range hl hpos hfirst fun j hj _ => by
      obtain rfl := hj.unique (.one hx.flag)
      exact hcut
    have hva := hva hx.flag
    rw [hva, ← hulo, ← hx₁] at hcuts
    rw [← hx₁] at hvaild
    refine ⟨{ s.m with p := Function.update s.m.p 1 x'', leave := 0 }, fun r m₁ mach₁ => ?_⟩
    refine (Cuts.allocate_iff (m := { s.m with p := Function.update s.m.p 1 x' }) hcuts h.used
      hvaild hsmall (by rw [hulo]; exact h.range.low)).trans ?_
    dsimp only
    rw [Function.update_idem]
    exact and_congr_right fun _ => and_comm

/-- **A release of the first block** frees it where the entry behind it is free, in the runs whose
allocations are all served by cutting the first free entry. -/
theorem betterFree_of_run (run : BetterRun lay Served s) (hu : u ∈ s.live)
    (hfirst : FreesFirst s.m u.1) :
    ∃ m', sysUserBetterFreePage u.1 s.m = .ok m' ∧ ∀ pagetable, Frees pagetable s u m' := by
  rcases run.inv fun _ _ h => h with ⟨-, hlive, -⟩ | ⟨pa, h⟩
  · rw [hlive] at hu
    cases hu
  · exact h.frees hu hfirst

/-- A release of any other block frees none of its bytes. -/
theorem InUse.not_frees (h : InUse s.m s.live pa) (hu : u ∈ s.live)
    (hne : u.1 ≠ USER_FREE_ADDRESS_START) (e : sysUserBetterFreePage u.1 s.m = .ok m') :
    ¬ Frees pagetable s u m' := by
  intro hf
  rw [h.free_other hne] at e
  cases e
  obtain ⟨hpos, -, -⟩ := h.live.inside u hu
  obtain ⟨i, j, -, hj, hv, hflag, hle, hlt⟩ := hf.block u.1 ⟨le_rfl, by omega⟩
  have hi1 : i = 1 := by
    by_contra hne
    rw [h.only.others i hne] at hv
    cases hv
  subst hi1
  rcases h.live.free u hu j hj.1 hj.2 hflag with hend | hge
  · omega
  · omega

/-! ## Runs that are computed -/

/-- `sys_user_better_allocate_page`, where it returns in at most the given number of rounds. -/
def answer (pagetable : ℕ) : ℕ → ℕ → Malloc → Mach → Option (ℕ × Malloc × Mach)
  | 0, _, _, _ => none
  | k + 1, n, m, mach =>
    if m.first = 0 then (firstCall pagetable n m mach).toOption
    else match round pagetable n m mach with
      | .ok (.inl va, m', mach') => some (va, m', mach')
      | .ok (.inr n', m', mach') => answer pagetable k n' m' mach'
      | .error _ => none

/-- A call, where it returns. -/
def State.call (s : State) : Call → Option State
  | .allocate i n => s.sys.spaces[i]?.bind fun p =>
    (answer p.pagetable 8 n s.m s.sys.mach).map fun r =>
      ⟨r.2.1, { s.sys with mach := r.2.2 }, some (s.owner.getD i), (r.1, n) :: s.live⟩
  | .free va => (sysUserBetterFreePage va s.m).toOption.map fun m' =>
    { s with m := m', live := s.live.filter fun u => u.1 ≠ va }

theorem answer_some {k : ℕ} (h : answer pagetable k n m mach = some (va, m', mach')) :
    SysUserBetterAllocatePage pagetable n m mach va m' mach' := by
  induction k generalizing n m mach with
  | zero => cases h
  | succ k ih =>
    rw [answer] at h
    split at h
    · rename_i fresh
      exact .first fresh (toOption_eq_some.1 h)
    · rename_i used
      split at h
      · rename_i run
        cases h
        exact .returns used run
      · rename_i run
        exact .again used run (ih h)
      · cases h

theorem State.call_step {c : Call} (h : s.call c = some s') : Step s c s' := by
  cases c with
  | allocate i n =>
    obtain ⟨p, hp, h⟩ := Option.bind_eq_some_iff.1 h
    obtain ⟨⟨va, m', mach'⟩, hr, rfl⟩ := Option.map_eq_some_iff.1 h
    exact .allocate hp (answer_some hr)
  | free va =>
    obtain ⟨m', hm, rfl⟩ := Option.map_eq_some_iff.1 h
    exact .free (toOption_eq_some.1 hm)

/-- Calls that satisfy `C` where they happen. -/
def State.calls (C : State → Call → Prop) [∀ s c, Decidable (C s c)] : List Call → State →
    Option State
  | [], s => some s
  | c :: cs, s => if C s c then (s.call c).bind (State.calls C cs) else none

theorem BetterRun.calls {C : State → Call → Prop} [∀ s c, Decidable (C s c)] {cs : List Call}
    (run : BetterRun lay C s) (e : s.calls C cs = some s') : BetterRun lay C s' := by
  induction cs generalizing s with
  | nil =>
    cases e
    exact run
  | cons c cs ih =>
    rw [State.calls] at e
    split at e
    · rename_i cond
      obtain ⟨s₁, h₁, e⟩ := Option.bind_eq_some_iff.1 e
      exact ih (run.step cond (State.call_step h₁)) e
    · cases e

theorem BetterRun.mono {C C' : State → Call → Prop} (run : BetterRun lay C s)
    (hC : ∀ s c, C s c → C' s c) : BetterRun lay C' s := by
  induction run with
  | start run => exact .start run
  | step _ cond step ih => exact ih.step (hC _ _ cond) step

instance (t : Table) (j : ℕ) : Decidable (FirstFree t j) :=
  decidable_of_iff (1 ≤ j ∧ j ≤ 99 ∧ (t j).flag = 0 ∧ ∀ i < j, 1 ≤ i → (t i).flag ≠ 0)
    ⟨fun ⟨h1, h99, hfree, hused⟩ => ⟨h1, h99, hfree, fun i hi hij => hused i hij hi⟩,
      fun h => ⟨h.pos, h.le, h.free, fun i hij hi => h.used i hi hij⟩⟩

instance (n : ℕ) (x : Page) : Decidable (CutsFirst n x) :=
  decidable_of_iff (∃ j ∈ List.range 100, FirstFree x.c j ∧ n < (x.c j).size ∧
      ((x.c j).index = j → x.n = j ∨ x.n = 1))
    ⟨fun ⟨j, _, h⟩ => ⟨j, h⟩, fun ⟨j, h⟩ =>
      ⟨j, List.mem_range.2 (Nat.lt_succ_of_le h.1.le), h⟩⟩

instance (s : State) (c : Call) : Decidable (Served s c) :=
  match c with
  | .allocate _ n => inferInstanceAs (Decidable (0 < n ∧ n ≤ PGSIZE ∧ if s.m.first = 0 then
      n < PGSIZE ∧ s.sys.mach.gFreeMemList ≠ 0 else CutsFirst n (s.m.p 1)))
  | .free _ => inferInstanceAs (Decidable True)

instance (m : Malloc) (va : ℕ) : Decidable (FreesFirst m va) :=
  inferInstanceAs (Decidable (_ ∧ _))

/-- One process allocates 1 to `PGSIZE` bytes, and releases what it has been given. -/
def OneProcess (s : State) : Call → Prop
  | .allocate i n => i = 0 ∧ 1 ≤ n ∧ n ≤ PGSIZE
  | .free va => ∃ u ∈ s.live, u.1 = va

instance (s : State) (c : Call) : Decidable (OneProcess s c) :=
  match c with
  | .allocate i n => inferInstanceAs (Decidable (i = 0 ∧ 1 ≤ n ∧ n ≤ PGSIZE))
  | .free va => inferInstanceAs (Decidable (∃ u ∈ s.live, u.1 = va))

/-- A process without a program, in a machine with 64 pages, that has made the calls. -/
def computed (C : State → Call → Prop) [∀ s c, Decidable (C s c)] (cs : List Call) : Option State :=
  (runFrom smallKernel 0x40000 []).toOption.bind fun sys => State.calls C cs ⟨.init, sys, none, []⟩

theorem BetterRun.computed {C : State → Call → Prop} [∀ s c, Decidable (C s c)] {cs : List Call}
    (e : Better.computed C cs = some s) : BetterRun smallKernel C s := by
  obtain ⟨sys, hsys, e⟩ := Option.bind_eq_some_iff.1 e
  refine .calls (.start ?_) e
  exact .of_runFrom (toOption_eq_some.1 hsys) fun e he => absurd he List.not_mem_nil

/-- After the release of the first block, the page is cut into two blocks in a row. -/
theorem betterApart_of_run_row : ∃ s, BetterRun smallKernel Served s ∧
    s.live = [(0x400032, 30), (0x400000, 50)] ∧ s.live.Pairwise Apart := by
  have htest : (computed Served [.allocate 0 100, .free 0x400000, .allocate 0 50,
      .allocate 0 30]).map (·.live) = some [(0x400032, 30), (0x400000, 50)] := by decide +kernel
  obtain ⟨s, hs, hlive⟩ := Option.map_eq_some_iff.1 htest
  have run := BetterRun.computed hs
  exact ⟨s, run, hlive, betterApart_of_run run⟩

/-- **Four calls for one byte** return the third byte of the page twice. -/
theorem betterApart_lost :
    ¬ ∀ lay s, BetterRun lay OneProcess s → s.live.Pairwise Apart := by
  intro hall
  have htest : (computed OneProcess [.allocate 0 1, .allocate 0 1, .allocate 0 1,
      .allocate 0 1]).map (·.live) =
        some [(0x400002, 1), (0x400001, 1), (0x400002, 1), (0x400000, 1)] := by decide +kernel
  obtain ⟨s, hs, hlive⟩ := Option.map_eq_some_iff.1 htest
  have hapart := hall smallKernel s (.computed hs)
  rw [hlive] at hapart
  have htwice : Apart (0x400002, 1) (0x400002, 1) := List.rel_of_pairwise_cons hapart (by simp)
  rcases htwice with h | h
  · exact absurd h (by decide)
  · exact absurd h (by decide)

/-- The first of the blocks that the page has been cut into is released, and given again. -/
theorem betterFree_of_run_again : ∃ s, BetterRun smallKernel Served s ∧
    s.live = [(0x400000, 50)] ∧ ∃ m', sysUserBetterFreePage 0x400000 s.m = .ok m' ∧
      ∀ pagetable, Frees pagetable s (0x400000, 50) m' := by
  have htest : (computed Served [.allocate 0 100, .free 0x400000, .allocate 0 50]).map
      (fun s => (s.live, decide (FreesFirst s.m 0x400000))) = some ([(0x400000, 50)], true) := by
    decide +kernel
  obtain ⟨s, hs, heq⟩ := Option.map_eq_some_iff.1 htest
  obtain ⟨hlive, hfirst⟩ := Prod.mk.inj heq
  have run := BetterRun.computed hs
  have hmem : (0x400000, 50) ∈ s.live := by
    rw [hlive]
    exact List.mem_singleton_self _
  exact ⟨s, run, hlive, betterFree_of_run run hmem (of_decide_eq_true hfirst)⟩

/-- **The second block is not released**: a process calls for 100 and for 50 bytes, and releases the
second block. -/
theorem betterFree_lost : ¬ ∀ lay s p u, BetterRun lay OneProcess s →
    s.sys.spaces[0]? = some p → u ∈ s.live →
      ∃ m', sysUserBetterFreePage u.1 s.m = .ok m' ∧ Frees p.pagetable s u m' := by
  intro hall
  have htest : (computed (fun s c => OneProcess s c ∧ Served s c) [.allocate 0 100,
      .allocate 0 50]).map (fun s => (s.live, s.sys.spaces.length)) =
        some ([(0x400096, 50), (0x400000, 100)], 1) := by decide +kernel
  obtain ⟨s, hs, heq⟩ := Option.map_eq_some_iff.1 htest
  obtain ⟨hlive, hlen⟩ := Prod.mk.inj heq
  have run := BetterRun.computed hs
  have hmem : (0x400096, 50) ∈ s.live := by
    rw [hlive]
    exact List.mem_cons_self
  have hspace : s.sys.spaces[0]? = some (s.sys.spaces[0]) := List.getElem?_eq_getElem (by omega)
  obtain ⟨m', e, hf⟩ := hall smallKernel s _ _ (run.mono fun _ _ h => h.1) hspace hmem
  rcases run.inv fun _ _ h => h.2 with ⟨-, hnone, -⟩ | ⟨pa, h⟩
  · rw [hlive] at hnone
    cases hnone
  · exact h.not_frees hmem (by decide) e hf

end HustOS.Mm.Better
