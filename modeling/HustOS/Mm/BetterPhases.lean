import HustOS.Mm.BetterTables

/-!
# The tables of `better_malloc`

The states of the first page of the tables in runs whose allocations are all served by cutting a
larger entry: after the first call (`Once`), after the release of its block (`Again`), while the
blocks stand in a row and the last entry is what is left of the page (`Row`), and once an entry that
is not the last one has been cut (`Loop`), when only the first entry can be cut any more. `Live`
says where the blocks are that have been returned and not released.
-/

namespace HustOS.Mm.Better

open Foundations

/-! ## The phases -/

/-- The addresses of the first page of the allocator, and of the page of memory behind it. -/
structure Range (lo hi pa : ℕ) : Prop where
  low : 5 < lo
  page : hi = lo + PGSIZE
  fits : hi < 2 ^ 63
  pos : 0 < pa
  pa_fits : pa + PGSIZE < 2 ^ 63

/-- After the first call: it cut the first entry in one of the tables only. -/
structure Once (lo hi pa : ℕ) (x : Page) : Prop where
  n : x.n = 1
  used : (x.c 1).flag ≠ 0
  start : (x.c 1).start = lo
  index : (x.c 1).index = 2
  more : lo < (x.c 1).stop
  less : (x.c 1).stop < hi
  second : x.c 2 = ⟨0, (x.c 1).stop, hi, 2⟩
  rest : ∀ j, 3 ≤ j → j ≤ 99 → (x.c j).stop = 0
  b : x.b 1 = ⟨0, pa, pa + PGSIZE, 1⟩
  bsecond : x.b 2 = ⟨0, 0, 0, 0⟩

/-- After the release of the first block. -/
structure Again (lo hi pa : ℕ) (x : Page) : Prop where
  n : x.n = 1
  head : x.c 1 = ⟨0, lo, hi, 2⟩
  second : (x.c 2).flag = 0 ∧ (x.c 2).index = 2 ∧ (x.c 2).stop = hi
  rest : ∀ j, 3 ≤ j → j ≤ 99 → (x.c j).stop = 0
  b : x.b 1 = ⟨0, pa, 0, 0⟩
  bsecond : x.b 2 = ⟨0, 0, 0, 0⟩

/-- Blocks in a row, and the rest of the page behind them. -/
structure Row (lo hi pa : ℕ) (x : Page) : Prop where
  two : 2 ≤ x.n
  le : x.n ≤ 99
  head : (x.c 1).flag = 0 → 3 ≤ x.n
  start : (x.c 1).start = lo
  index : (x.c 1).index = 2
  more : lo < (x.c 1).stop
  link : (x.c 2).start = (x.c 1).stop
  used : ∀ j, 2 ≤ j → j < x.n → (x.c j).flag ≠ 0 ∧ (x.b j).flag ≠ 0
  last : (x.c x.n).flag = 0 ∧ (x.c x.n).stop = hi ∧ (x.c x.n).index = x.n
  behind : (x.c 1).stop ≤ (x.c x.n).start
  less : (x.c x.n).start < hi
  rest : ∀ j, x.n < j → j ≤ 99 → (x.c j).stop = 0
  b : (x.b 1).start = pa ∧ (x.b 1).stop = pa + ((x.c 1).stop - lo) ∧ (x.b 1).index = 2
  bflag : (x.b 1).flag = 0 ↔ (x.c 1).flag = 0
  blink : (x.b 2).start = (x.b 1).stop
  blast : x.b x.n = ⟨0, pa + ((x.c x.n).start - lo), 0, x.n⟩

/-- The first entry borders on a free one, which takes its rest; another entry cannot be cut. -/
structure Loop (lo hi pa : ℕ) (x : Page) : Prop where
  two : 2 ≤ x.n
  le : x.n ≤ 99
  start : (x.c 1).start = lo
  index : 2 ≤ (x.c 1).index ∧ (x.c 1).index ≤ x.n
  next : (x.c (x.c 1).index).flag = 0 ∧ (x.c (x.c 1).index).index = (x.c 1).index
  top : (x.c (x.c 1).index).stop ≤ hi
  more : lo < (x.c 1).stop
  free : (x.c 1).flag = 0 →
    (x.c 1).stop = (x.c (x.c 1).index).stop ∧ (x.b 1).stop = (x.b (x.c 1).index).stop
  used : (x.c 1).flag ≠ 0 → (x.c 1).stop < (x.c (x.c 1).index).stop
  others : ∀ j, 2 ≤ j → j ≤ 99 → j ≠ (x.c 1).index → (x.c j).flag = 0 →
    (x.c j).stop ≤ lo ∨ (x.c (x.c 1).index).stop ≤ (x.c j).start
  stuck : ∃ j, 2 ≤ j ∧ j ≤ 99 ∧ (x.c j).flag = 0 ∧ (∀ i, 2 ≤ i → i < j → (x.c i).flag ≠ 0) ∧
    (j = (x.c 1).index ∧ ((x.c 1).flag ≠ 0 → (x.c j).start = (x.c j).stop) ∨
      (x.c j).index = j ∧ j < x.n)
  b : (x.b 1).start = pa ∧ (x.b 1).index = (x.c 1).index
  bnext : (x.b (x.c 1).index).flag = 0 ∧ (x.b (x.c 1).index).index = (x.c 1).index
  bflag : (x.b 1).flag = 0 ↔ (x.c 1).flag = 0
  room : (x.b (x.c 1).index).stop = 0 ∨
    pa + ((x.c (x.c 1).index).stop - lo) ≤ (x.b (x.c 1).index).stop ∧
      (x.b (x.c 1).index).stop ≤ pa + PGSIZE

/-- The states of the first page of the tables. -/
inductive Phase (lo hi pa : ℕ) (x : Page) : Prop
  | once (h : Once lo hi pa x)
  | again (h : Again lo hi pa x)
  | row (h : Row lo hi pa x)
  | loop (h : Loop lo hi pa x)

/-! ## The blocks -/

/-- Two blocks, given by address and length, have no byte in common. -/
def Apart (u v : ℕ × ℕ) : Prop := u.1 + u.2 ≤ v.1 ∨ v.1 + v.2 ≤ u.1

/-- Up to here goes the first entry when it is released. -/
def Page.top (x : Page) : ℕ :=
  if (x.c (x.c 1).index).flag = 0 then (x.c (x.c 1).index).stop else (x.c 1).stop

/-- The blocks that are returned and not released. -/
structure Live (lo hi : ℕ) (x : Page) (live : List (ℕ × ℕ)) : Prop where
  apart : live.Pairwise Apart
  inside : ∀ u ∈ live, 0 < u.2 ∧ lo ≤ u.1 ∧ u.1 < hi
  free : ∀ u ∈ live, ∀ j, 1 ≤ j → j ≤ 99 → (x.c j).flag = 0 →
    u.1 + u.2 ≤ (x.c j).start ∨ (x.c j).stop ≤ u.1
  head : ∀ u ∈ live, u.1 = lo → (x.c 1).flag ≠ 0 ∧ (x.c 1).stop = lo + u.2
  above : ∀ u ∈ live, u.1 ≠ lo → x.top ≤ u.1

variable {lo hi pa a1 va : ℕ} {x x' : Page} {live : List (ℕ × ℕ)}

/-- Where nothing is released that the tables know of. -/
theorem Live.filter (h : Live lo hi x live) (f : ℕ × ℕ → Bool) : Live lo hi x (live.filter f) where
  apart := h.apart.filter f
  inside u hu := h.inside u (List.mem_filter.1 hu).1
  free u hu := h.free u (List.mem_filter.1 hu).1
  head u hu := h.head u (List.mem_filter.1 hu).1
  above u hu := h.above u (List.mem_filter.1 hu).1

/-- One block more, and the entries that change. -/
theorem Live.cons (h : Live lo hi x live) (hpos : 0 < a1) (hlo : lo ≤ va) (hhi : va < hi)
    (hapart : ∀ u ∈ live, Apart (va, a1) u)
    (hnew : ∀ j, 1 ≤ j → j ≤ 99 → (x'.c j).flag = 0 →
      va + a1 ≤ (x'.c j).start ∨ (x'.c j).stop ≤ va)
    (hfree : ∀ u ∈ live, ∀ j, 1 ≤ j → j ≤ 99 → (x'.c j).flag = 0 → x'.c j ≠ x.c j →
      u.1 + u.2 ≤ (x'.c j).start ∨ (x'.c j).stop ≤ u.1)
    (hhead : va = lo ∧ (x'.c 1).flag ≠ 0 ∧ (x'.c 1).stop = lo + a1 ∧ (x.c 1).flag = 0 ∨
      va ≠ lo ∧ x'.top ≤ va ∧ x'.c 1 = x.c 1)
    (htop : ∀ u ∈ live, u.1 ≠ lo → x'.top ≤ u.1) : Live lo hi x' ((va, a1) :: live) where
  apart := List.pairwise_cons.2 ⟨hapart, h.apart⟩
  inside := List.forall_mem_cons.2 ⟨⟨hpos, hlo, hhi⟩, h.inside⟩
  free := by
    refine List.forall_mem_cons.2 ⟨hnew, fun u hu j h1 h99 hj => ?_⟩
    by_cases hsame : x'.c j = x.c j
    · rw [hsame] at hj ⊢
      exact h.free u hu j h1 h99 hj
    · exact hfree u hu j h1 h99 hj hsame
  head := by
    refine List.forall_mem_cons.2 ⟨fun hva => ?_, fun u hu hlo => ?_⟩
    · obtain ⟨-, hflag, hstop, -⟩ | ⟨hne, -, -⟩ := hhead
      · exact ⟨hflag, hstop⟩
      · exact absurd hva hne
    · obtain ⟨-, -, -, hfree⟩ | ⟨-, -, hsame⟩ := hhead
      · exact absurd hfree (h.head u hu hlo).1
      · rw [hsame]
        exact h.head u hu hlo
  above := by
    refine List.forall_mem_cons.2 ⟨fun hne => ?_, htop⟩
    obtain ⟨heq, -⟩ | ⟨-, htop', -⟩ := hhead
    · exact absurd heq hne
    · exact htop'

/-- The first block is released. -/
theorem Live.release (h : Live lo hi x live) (hc : ∀ j, j ≠ 1 → x'.c j = x.c j)
    (hstop : (x'.c 1).stop = x.top) (htop : x'.top = x.top) :
    Live lo hi x' (live.filter fun u => u.1 ≠ lo) where
  apart := h.apart.filter _
  inside u hu := h.inside u (List.mem_filter.1 hu).1
  free u hu j h1 h99 hj := by
    obtain ⟨hu, hne⟩ := List.mem_filter.1 hu
    rw [decide_eq_true_iff] at hne
    by_cases hj1 : j = 1
    · subst hj1
      rw [hstop]
      exact .inr (h.above u hu hne)
    · rw [hc j hj1] at hj ⊢
      exact h.free u hu j h1 h99 hj
  head u hu hlo := by
    obtain ⟨-, hne⟩ := List.mem_filter.1 hu
    rw [decide_eq_true_iff] at hne
    exact absurd hlo hne
  above u hu hne := by
    rw [htop]
    exact h.above u (List.mem_filter.1 hu).1 hne

/-! ## Freeing the first entry -/

/-- A page with other first entries. -/
def Page.withHead (x : Page) (c b : Block) : Page :=
  { x with c := Function.update x.c 1 c, b := Function.update x.b 1 b }

section WithHead

variable {c b : Block} {j : ℕ}

@[simp] theorem withHead_c : (x.withHead c b).c 1 = c := by simp [Page.withHead]

@[simp] theorem withHead_b : (x.withHead c b).b 1 = b := by simp [Page.withHead]

@[simp] theorem withHead_n : (x.withHead c b).n = x.n := rfl

@[simp] theorem withHead_vaild : (x.withHead c b).vaild = x.vaild := rfl

theorem withHead_c_of_ne (h : j ≠ 1) : (x.withHead c b).c j = x.c j := Function.update_of_ne h ..

theorem withHead_b_of_ne (h : j ≠ 1) : (x.withHead c b).b j = x.b j := Function.update_of_ne h ..

theorem withHead_top (h : c.index ≠ 1) : (x.withHead c b).top =
    if (x.c c.index).flag = 0 then (x.c c.index).stop else c.stop := by
  rw [Page.top, withHead_c, withHead_c_of_ne h]

end WithHead

/-- The first entry is released, and the next one is free and the last one of the list. -/
theorem release_next (hi : (x.c 1).index ≤ 99) (hfree : (x.c (x.c 1).index).flag = 0)
    (hlast : (x.c (x.c 1).index).index = (x.c 1).index) :
    release 1 x = .ok (x.withHead
      ⟨0, (x.c 1).start, (x.c (x.c 1).index).stop, (x.c 1).index⟩
      ⟨0, (x.b 1).start, (x.b (x.c 1).index).stop, (x.b (x.c 1).index).index⟩) := by
  rw [release_merged hi hfree (by omega), hlast, hlast]
  rfl

theorem release_used (hi : (x.c 1).index ≤ 99) (hused : (x.c (x.c 1).index).flag ≠ 0) :
    release 1 x = .ok (x.withHead { x.c 1 with flag := 0 } { x.b 1 with flag := 0 }) :=
  release_alone hi hused

/-- What a release of the first entry leaves. -/
structure Released (lo : ℕ) (x x' : Page) : Prop where
  c : ∀ j, j ≠ 1 → x'.c j = x.c j
  b : ∀ j, j ≠ 1 → x'.b j = x.b j
  n : x'.n = x.n
  vaild : x'.vaild = x.vaild
  flag : (x'.c 1).flag = 0
  start : (x'.c 1).start = lo
  index : (x'.c 1).index = (x.c 1).index
  stop : (x'.c 1).stop = x.top
  top : x'.top = x.top

theorem released_withHead {c b : Block} (hflag : c.flag = 0) (hstart : c.start = lo)
    (hstop : c.stop = x.top) (hindex : c.index = (x.c 1).index) (hne : (x.c 1).index ≠ 1) :
    Released lo x (x.withHead c b) where
  c _ := withHead_c_of_ne
  b _ := withHead_b_of_ne
  n := rfl
  vaild := rfl
  flag := by rw [withHead_c, hflag]
  start := by rw [withHead_c, hstart]
  index := by rw [withHead_c, hindex]
  stop := by rw [withHead_c, hstop]
  top := by
    rw [withHead_top (by omega), hindex, hstop, Page.top]
    split <;> rfl

theorem Once.release (h : Once lo hi pa x) :
    ∃ x', Better.release 1 x = .ok x' ∧ Again lo hi pa x' ∧ Released lo x x' := by
  have e := release_next (x := x) (by rw [h.index]; decide) (by rw [h.index, h.second])
    (by rw [h.index, h.second])
  have htop : x.top = hi := by
    rw [Page.top, h.index, h.second]
    rfl
  rw [h.index, h.second, h.start, h.bsecond, h.b] at e
  refine ⟨_, e, ?_, ?_⟩
  · exact
      { n := h.n
        head := withHead_c
        second := by
          rw [withHead_c_of_ne (by decide), h.second]
          exact ⟨rfl, rfl, rfl⟩
        rest := fun j h3 h99 => by
          rw [withHead_c_of_ne (by omega)]
          exact h.rest j h3 h99
        b := withHead_b
        bsecond := by
          rw [withHead_b_of_ne (by decide)]
          exact h.bsecond }
  · exact released_withHead rfl rfl htop.symm h.index.symm (by rw [h.index]; decide)

theorem Again.release (h : Again lo hi pa x) :
    ∃ x', Better.release 1 x = .ok x' ∧ Again lo hi pa x' ∧ Released lo x x' := by
  obtain ⟨hfree, hindex, hstop⟩ := h.second
  have hi2 : (x.c 1).index = 2 := by rw [h.head]
  have e := release_next (x := x) (by rw [hi2]; decide) (by rw [hi2, hfree]) (by rw [hi2, hindex])
  have htop : x.top = hi := by rw [Page.top, hi2, if_pos hfree, hstop]
  rw [hi2, hstop, h.bsecond, h.b, h.head] at e
  refine ⟨_, e, ?_, ?_⟩
  · exact
      { n := h.n
        head := withHead_c
        second := by
          rw [withHead_c_of_ne (by decide)]
          exact h.second
        rest := fun j h3 h99 => by
          rw [withHead_c_of_ne (by omega)]
          exact h.rest j h3 h99
        b := withHead_b
        bsecond := by
          rw [withHead_b_of_ne (by decide)]
          exact h.bsecond }
  · exact released_withHead rfl rfl htop.symm hi2.symm (by rw [hi2]; decide)

theorem Row.top (h : Row lo hi pa x) : x.top = if x.n = 2 then hi else (x.c 1).stop := by
  rw [Page.top, h.index]
  by_cases hn : x.n = 2
  · have hlast := h.last
    rw [hn] at hlast
    rw [if_pos hlast.1, if_pos hn, hlast.2.1]
  · have hused := h.used 2 le_rfl (lt_of_le_of_ne h.two (Ne.symm hn))
    rw [if_neg hused.1, if_neg hn]

theorem Loop.top_eq (h : Loop lo hi pa x) : x.top = (x.c (x.c 1).index).stop := by
  rw [Page.top, if_pos h.next.1]

/-- Two blocks in a row: the first one, and the rest of the page. -/
theorem Row.release_two (h : Row lo hi pa x) (hn : x.n = 2) :
    ∃ x', Better.release 1 x = .ok x' ∧ Loop lo hi pa x' ∧ Released lo x x' := by
  have hlast := h.last
  have hblast := h.blast
  rw [hn] at hlast hblast
  obtain ⟨hfree, hstop, hlast⟩ := hlast
  have htop := h.top
  rw [if_pos hn] at htop
  have e := release_next (x := x) (by rw [h.index]; decide) (by rw [h.index, hfree])
    (by rw [h.index, hlast])
  rw [h.index, hstop, h.start, h.b.1, hblast] at e
  have hc2 : ∀ {c b : Block}, (x.withHead c b).c 2 = x.c 2 := withHead_c_of_ne (by decide)
  have hb2 : ∀ {c b : Block}, (x.withHead c b).b 2 = x.b 2 := withHead_b_of_ne (by decide)
  have hlohi := h.behind.trans_lt h.less
  refine ⟨_, e, ?_, released_withHead rfl rfl htop.symm h.index.symm (by rw [h.index]; decide)⟩
  exact
    { two := h.two
      le := h.le
      start := by rw [withHead_c]
      index := by
        rw [withHead_c, withHead_n, hn]
        exact ⟨le_rfl, le_rfl⟩
      next := by
        rw [withHead_c, hc2]
        exact ⟨hfree, hlast⟩
      top := by
        rw [withHead_c, hc2]
        exact hstop.le
      more := by
        rw [withHead_c]
        exact h.more.trans hlohi
      free := fun _ => by
        rw [withHead_c, withHead_b, hc2, hb2, hstop, hblast]
        exact ⟨rfl, rfl⟩
      used := fun hne => by
        rw [withHead_c] at hne
        exact absurd rfl hne
      others := fun j h2 h99 hne hj => by
        rw [withHead_c] at hne
        change j ≠ 2 at hne
        rw [withHead_c_of_ne (by omega), h.rest j (by omega) h99]
        exact .inl (Nat.zero_le lo)
      stuck := by
        refine ⟨2, le_rfl, by decide, by rw [hc2, hfree], fun i hi hi' => by omega, .inl ?_⟩
        rw [withHead_c]
        exact ⟨rfl, fun hne => absurd rfl hne⟩
      b := by
        rw [withHead_c, withHead_b]
        exact ⟨rfl, rfl⟩
      bnext := by
        rw [withHead_c, hb2, hblast]
        exact ⟨rfl, rfl⟩
      bflag := by rw [withHead_c, withHead_b]
      room := by
        rw [withHead_c, hb2, hblast]
        exact .inl rfl }

/-- More than two blocks in a row. -/
theorem Row.release_more (h : Row lo hi pa x) (hn : x.n ≠ 2) :
    ∃ x', Better.release 1 x = .ok x' ∧ Row lo hi pa x' ∧ Released lo x x' := by
  have hn3 : 3 ≤ x.n := by
    have := h.two
    omega
  have hused := h.used 2 le_rfl (by omega)
  have htop := h.top
  rw [if_neg hn] at htop
  have e := release_used (x := x) (by rw [h.index]; decide) (by rw [h.index]; exact hused.1)
  have hc : ∀ {c b : Block} {j : ℕ}, 2 ≤ j → (x.withHead c b).c j = x.c j := fun hj =>
    withHead_c_of_ne (by omega)
  have hb : ∀ {c b : Block} {j : ℕ}, 2 ≤ j → (x.withHead c b).b j = x.b j := fun hj =>
    withHead_b_of_ne (by omega)
  refine ⟨_, e, ?_, released_withHead rfl h.start htop.symm rfl (by rw [h.index]; decide)⟩
  exact
    { two := h.two
      le := h.le
      head := fun _ => hn3
      start := by rw [withHead_c, h.start]
      index := by rw [withHead_c, h.index]
      more := by
        rw [withHead_c]
        exact h.more
      link := by rw [withHead_c, hc le_rfl, h.link]
      used := fun j h2 hj => by
        rw [hc h2, hb h2]
        exact h.used j h2 hj
      last := by
        rw [withHead_n, hc h.two]
        exact h.last
      behind := by
        rw [withHead_n, withHead_c, hc h.two]
        exact h.behind
      less := by
        rw [withHead_n, hc h.two]
        exact h.less
      rest := fun j hj h99 => by
        rw [withHead_n] at hj
        rw [hc (by omega)]
        exact h.rest j hj h99
      b := by
        rw [withHead_c, withHead_b]
        exact h.b
      bflag := by rw [withHead_c, withHead_b]
      blink := by rw [hb le_rfl, withHead_b, h.blink]
      blast := by rw [withHead_n, hb h.two, hc h.two, h.blast] }

theorem Loop.release (h : Loop lo hi pa x) :
    ∃ x', Better.release 1 x = .ok x' ∧ Loop lo hi pa x' ∧ Released lo x x' := by
  obtain ⟨h2, hle⟩ := h.index
  have hle99 := h.le
  obtain ⟨hfree, hlast⟩ := h.next
  have e := release_next (x := x) (by omega) hfree hlast
  rw [h.start, h.b.1, h.bnext.2] at e
  have hcd : ∀ {c b : Block}, (x.withHead c b).c (x.c 1).index = x.c (x.c 1).index :=
    withHead_c_of_ne (by omega)
  have hbd : ∀ {c b : Block}, (x.withHead c b).b (x.c 1).index = x.b (x.c 1).index :=
    withHead_b_of_ne (by omega)
  have hmore : lo < (x.c (x.c 1).index).stop := by
    have hmore := h.more
    by_cases hflag : (x.c 1).flag = 0
    · rw [← (h.free hflag).1]
      exact hmore
    · exact hmore.trans (h.used hflag)
  refine ⟨_, e, ?_, released_withHead rfl rfl h.top_eq.symm rfl (by omega)⟩
  exact
    { two := h.two
      le := h.le
      start := by rw [withHead_c]
      index := by
        rw [withHead_c]
        exact h.index
      next := by
        rw [withHead_c, hcd]
        exact h.next
      top := by
        rw [withHead_c, hcd]
        exact h.top
      more := by
        rw [withHead_c]
        exact hmore
      free := fun _ => by
        rw [withHead_c, withHead_b, hcd, hbd]
        exact ⟨rfl, rfl⟩
      used := fun hne => by
        rw [withHead_c] at hne
        exact absurd rfl hne
      others := fun j hj h99 hne hjfree => by
        rw [withHead_c] at hne ⊢
        rw [withHead_c_of_ne (by omega)] at hjfree ⊢
        rw [hcd]
        exact h.others j hj h99 hne hjfree
      stuck := by
        obtain ⟨j, hj, h99, hjfree, hbefore, hor⟩ := h.stuck
        refine ⟨j, hj, h99, by rwa [withHead_c_of_ne (by omega)], fun i hi hij => ?_, ?_⟩
        · rw [withHead_c_of_ne (by omega)]
          exact hbefore i hi hij
        · rw [withHead_c, withHead_c_of_ne (by omega)]
          exact hor.imp (fun hd => ⟨hd.1, fun hne => absurd rfl hne⟩) id
      b := by
        rw [withHead_c, withHead_b]
        exact ⟨rfl, rfl⟩
      bnext := by
        rw [withHead_c, hbd]
        exact h.bnext
      bflag := by rw [withHead_c, withHead_b]
      room := by
        rw [withHead_c, hcd, hbd]
        exact h.room }

/-- **The first entry can always be released.** -/
theorem Phase.release (h : Phase lo hi pa x) :
    ∃ x', Better.release 1 x = .ok x' ∧ Phase lo hi pa x' ∧ Released lo x x' := by
  cases h with
  | once h =>
    obtain ⟨x', e, h', hx⟩ := h.release
    exact ⟨x', e, .again h', hx⟩
  | again h =>
    obtain ⟨x', e, h', hx⟩ := h.release
    exact ⟨x', e, .again h', hx⟩
  | row h =>
    by_cases hn : x.n = 2
    · obtain ⟨x', e, h', hx⟩ := h.release_two hn
      exact ⟨x', e, .loop h', hx⟩
    · obtain ⟨x', e, h', hx⟩ := h.release_more hn
      exact ⟨x', e, .row h', hx⟩
  | loop h =>
    obtain ⟨x', e, h', hx⟩ := h.release
    exact ⟨x', e, .loop h', hx⟩

/-! ## Serving an allocation -/

/-- The page `x'` is `x` after both tables have been cut for `a1` bytes at `va`. -/
def Cuts (a1 : ℕ) (x : Page) (va : ℕ) (x' : Page) : Prop :=
  ∃ j k rest rest' c b, FirstFree x.c j ∧ a1 < (x.c j).size ∧ cut a1 x.n j x.c = .ok (rest, c) ∧
    FirstFree x.b k ∧ a1 < (x.b k).size ∧ cut a1 x.n k x.b = .ok (rest', b) ∧
    (c j).start = va ∧ x' = x.withCuts b c rest'

theorem Cuts.allocate_iff {m m' : Malloc} {mach mach' : Mach} {pagetable r : ℕ}
    (h : Cuts a1 (m.p 1) va x') (hused : m.first ≠ 0) (hv : (m.p 1).vaild = 1) (ha : a1 < 2 ^ 31)
    (hva : 5 < va) :
    SysUserBetterAllocatePage pagetable a1 m mach r m' mach' ↔
      r = va ∧ mach' = mach ∧ m' = { m with p := Function.update m.p 1 x', leave := 0 } := by
  obtain ⟨j, k, rest, rest', c, b, hc, hcs, hcut, hb, hbs, hbcut, rfl, rfl⟩ := h
  exact Better.allocate_iff hused hv ha hc hcs hcut hb hbs hbcut hva

theorem size_of_lt {e : Block} (h : e.start + a1 < e.stop) (hlt : e.stop < 2 ^ 64) :
    a1 < e.size := by
  rw [Block.size_of_le (by omega) hlt]
  omega

@[simp] theorem withCuts_c {b c : Table} {rest : Rest} : (x.withCuts b c rest).c = c := rfl

@[simp] theorem withCuts_b {b c : Table} {rest : Rest} : (x.withCuts b c rest).b = b := rfl

theorem withCuts_n {b c : Table} {rest : Rest} (h : rest ≠ .merged) :
    (x.withCuts b c rest).n = x.n + 1 := if_neg h

@[simp] theorem withCuts_merged {b c : Table} : (x.withCuts b c .merged).n = x.n := by
  simp [Page.withCuts]

/-- After the release of the first block, the page is cut anew. -/
theorem Again.serve (hr : Range lo hi pa) (h : Again lo hi pa x) (hl : Live lo hi x live)
    (hpos : 0 < a1) (ha : lo + a1 < hi) :
    ∃ x', Cuts a1 x lo x' ∧ x'.vaild = x.vaild ∧ Phase lo hi pa x' ∧
      Live lo hi x' ((lo, a1) :: live) := by
  have hfits := hr.fits
  have hpa := hr.pos
  have hpafits := hr.pa_fits
  obtain ⟨hfree, hindex, hstop⟩ := h.second
  have hn := h.n
  have hc1 : x.c x.n = ⟨0, lo, hi, 2⟩ := by rw [hn, h.head]
  have hb1 : x.b x.n = ⟨0, pa, 0, 0⟩ := by rw [hn, h.b]
  have hcut := cut_tail x.c a1 (n := x.n) (by omega) (by rw [hc1]; dsimp only; omega)
  have hbcut := cut_tail x.b a1 (n := x.n) (by omega)
    (by rw [hb1]; simp only [PGSIZE] at *; omega)
  obtain ⟨c, hcut, hcn, hcn', hcrest⟩ := hcut
  obtain ⟨b, hbcut, hbn, hbn', hbrest⟩ := hbcut
  rw [hc1] at hcn hcn'
  rw [hb1] at hbn hbn'
  rw [hn] at hcut hbcut hcn hcn' hbn hbn' hcrest hbrest
  dsimp only [Nat.reduceAdd] at hcn hcn' hbn hbn'
  -- nothing is live: the first entry goes up to the end of the page
  have hnone : ∀ u ∈ live, False := by
    intro u hu
    obtain ⟨-, -, hlt⟩ := hl.inside u hu
    by_cases hlo : u.1 = lo
    · have hhead := (hl.head u hu hlo).1
      rw [h.head] at hhead
      exact hhead rfl
    · have habove := hl.above u hu hlo
      rw [Page.top, h.head, if_pos hfree, hstop] at habove
      omega
  have hrow : Row lo hi pa (x.withCuts b c .tail) := by
    have hn' : (x.withCuts b c .tail).n = 2 := by rw [withCuts_n (by decide), hn]
    exact
      { two := hn'.ge
        le := by rw [hn']; decide
        head := fun hflag => by
          rw [withCuts_c, hcn] at hflag
          cases hflag
        start := by rw [withCuts_c, hcn]
        index := by rw [withCuts_c, hcn]
        more := by
          rw [withCuts_c, hcn]
          exact Nat.lt_add_of_pos_right hpos
        link := by rw [withCuts_c, hcn, hcn']
        used := fun j h2 hj => by omega
        last := by
          rw [hn', withCuts_c, hcn']
          exact ⟨rfl, rfl, rfl⟩
        behind := by rw [hn', withCuts_c, hcn, hcn']
        less := by
          rw [hn', withCuts_c, hcn']
          exact ha
        rest := fun j hj h99 => by
          rw [withCuts_c, hcrest j (by omega) (by omega)]
          exact h.rest j (by omega) h99
        b := by
          rw [withCuts_c, withCuts_b, hcn, hbn]
          exact ⟨rfl, by dsimp only; omega, rfl⟩
        bflag := by rw [withCuts_c, withCuts_b, hcn, hbn]
        blink := by rw [withCuts_b, hbn, hbn']
        blast := by
          rw [hn', withCuts_c, withCuts_b, hcn', hbn']
          dsimp only
          rw [Nat.add_sub_cancel_left] }
  refine ⟨_, ⟨1, 1, _, _, c, b, .one (by rw [h.head]), ?_, by rw [hn, hcut], .one (by rw [h.b]), ?_,
    by rw [hn, hbcut], by rw [hcn], rfl⟩, rfl, .row hrow, ?_⟩
  · rw [h.head]
    exact size_of_lt ha (by dsimp only; omega)
  · rw [h.b, Block.size_of_stop rfl hpa (by dsimp only; simp only [PGSIZE] at *; omega)]
    dsimp only
    simp only [PGSIZE] at *
    have := hr.page
    omega
  · refine hl.cons hpos le_rfl (by omega) (fun u hu => (hnone u hu).elim) (fun j h1 h99 hj => ?_)
      (fun u hu => (hnone u hu).elim) (.inl ⟨rfl, ?_⟩) fun u hu => (hnone u hu).elim
    · rw [withCuts_c] at hj ⊢
      rcases eq_or_ne j 1 with rfl | hj1
      · rw [hcn] at hj
        cases hj
      · rcases eq_or_ne j 2 with rfl | hj2
        · rw [hcn']
          exact .inl le_rfl
        · rw [hcrest j hj1 hj2, h.rest j (by omega) h99]
          exact .inr (Nat.zero_le lo)
    · rw [withCuts_c, hcn, h.head]
      exact ⟨one_ne_zero, rfl, rfl⟩

/-- The second call, with the first block in use: the second entry is cut, and is its own rest. -/
theorem Once.serve (hr : Range lo hi pa) (h : Once lo hi pa x) (hl : Live lo hi x live)
    (hpos : 0 < a1) (ha : (x.c 1).stop + a1 < hi) :
    ∃ x', Cuts a1 x ((x.c 1).stop + a1) x' ∧ x'.vaild = x.vaild ∧ Phase lo hi pa x' ∧
      Live lo hi x' (((x.c 1).stop + a1, a1) :: live) := by
  have hfits := hr.fits
  have hpafits := hr.pa_fits
  have hpage := hr.page
  have hmore := h.more
  have hn := h.n
  have hcut := cut_self x.c a1 (by rw [h.second]) (by
    rw [h.second]
    dsimp only
    omega)
  have hbcut := cut_tail x.b a1 (n := x.n) (by omega) (by
    rw [hn, h.b]
    simp only [PGSIZE] at *
    omega)
  obtain ⟨c, hcut, hc2, hcrest⟩ := hcut
  obtain ⟨b, hbcut, hbn, hbn', -⟩ := hbcut
  rw [h.second] at hc2
  rw [hn] at hbcut hbn hbn'
  rw [h.b] at hbn hbn'
  dsimp only [Nat.reduceAdd] at hc2 hbn hbn'
  have hc1 : c 1 = x.c 1 := hcrest 1 (by decide)
  have htop : ∀ {b' : Table}, (x.withCuts b' c .tail).top = (x.c 1).stop + a1 := by
    intro b'
    rw [Page.top, withCuts_c, hc1, h.index, hc2, if_pos rfl]
  -- the only live block is the first one
  have honly : ∀ u ∈ live, u.1 = lo ∧ (x.c 1).stop = lo + u.2 := by
    intro u hu
    obtain ⟨-, -, hlt⟩ := hl.inside u hu
    by_cases hlo : u.1 = lo
    · exact ⟨hlo, (hl.head u hu hlo).2⟩
    · have habove := hl.above u hu hlo
      rw [Page.top, h.index, h.second, if_pos rfl] at habove
      exact absurd hlt habove.not_gt
  have hloop : Loop lo hi pa (x.withCuts b c .tail) := by
    have hn' : (x.withCuts b c .tail).n = 2 := by rw [withCuts_n (by decide), hn]
    exact
      { two := hn'.ge
        le := by rw [hn']; decide
        start := by rw [withCuts_c, hc1, h.start]
        index := by
          rw [withCuts_c, hc1, h.index, hn']
          exact ⟨le_rfl, le_rfl⟩
        next := by
          rw [withCuts_c, hc1, h.index, hc2]
          exact ⟨rfl, rfl⟩
        top := by
          rw [withCuts_c, hc1, h.index, hc2]
          exact ha.le
        more := by
          rw [withCuts_c, hc1]
          exact hmore
        free := fun hflag => by
          rw [withCuts_c, hc1] at hflag
          exact absurd hflag h.used
        used := fun _ => by
          rw [withCuts_c, hc1, h.index, hc2]
          exact Nat.lt_add_of_pos_right hpos
        others := fun j h2 h99 hne _ => by
          rw [withCuts_c, hc1, h.index] at hne
          rw [withCuts_c, hcrest j hne, h.rest j (by omega) h99]
          exact .inl (Nat.zero_le lo)
        stuck := by
          refine ⟨2, le_rfl, by decide, by rw [withCuts_c, hc2], fun i hi hi' => by omega, .inl ?_⟩
          rw [withCuts_c, hc1, hc2]
          exact ⟨h.index.symm, fun _ => rfl⟩
        b := by
          rw [withCuts_b, withCuts_c, hbn, hc1, h.index]
          exact ⟨rfl, rfl⟩
        bnext := by
          rw [withCuts_b, withCuts_c, hc1, h.index, hbn']
          exact ⟨rfl, rfl⟩
        bflag := by
          rw [withCuts_b, withCuts_c, hbn, hc1]
          exact iff_of_false one_ne_zero h.used
        room := by
          rw [withCuts_b, withCuts_c, hc1, h.index, hbn', hc2]
          refine .inr ⟨?_, le_rfl⟩
          dsimp only
          omega }
  refine ⟨_, ⟨2, 1, _, _, c, b, ⟨by decide, by decide, by rw [h.second], fun i h1 h2 => ?_⟩, ?_,
    by rw [hn, hcut], .one (by rw [h.b]), ?_, by rw [hn, hbcut], by rw [hc2], rfl⟩, rfl,
    .loop hloop, ?_⟩
  · obtain rfl : i = 1 := by omega
    exact h.used
  · rw [h.second]
    exact size_of_lt ha (by dsimp only; omega)
  · rw [h.b]
    refine size_of_lt ?_ ?_
    · dsimp only
      omega
    · dsimp only
      omega
  · refine hl.cons hpos (by omega) ha (fun u hu => ?_) (fun j h1 h99 hj => ?_)
      (fun u hu j h1 h99 hj hne => ?_) (.inr ⟨by omega, htop.le, hc1⟩) fun u hu hne => ?_
    · obtain ⟨hlo, hstop⟩ := honly u hu
      refine .inr ?_
      dsimp only
      omega
    · rw [withCuts_c] at hj ⊢
      rcases eq_or_ne j 2 with rfl | hj2
      · rw [hc2]
        exact .inr le_rfl
      · rw [hcrest j hj2] at hj ⊢
        rcases eq_or_ne j 1 with rfl | hj1
        · exact absurd hj h.used
        · rw [h.rest j (by omega) h99]
          exact .inr (Nat.zero_le _)
    · rw [withCuts_c] at hj hne ⊢
      obtain ⟨hlo, hstop⟩ := honly u hu
      rcases eq_or_ne j 2 with rfl | hj2
      · rw [hc2]
        refine .inl ?_
        dsimp only
        omega
      · exact absurd (hcrest j hj2) hne
    · exact absurd (honly u hu).1 hne

/-- The first free entry of a row whose first block is in use is the last one. -/
theorem Row.firstFree (h : Row lo hi pa x) (hused : (x.c 1).flag ≠ 0) :
    FirstFree x.c x.n ∧ FirstFree x.b x.n := by
  have h2 := h.two
  refine ⟨⟨by omega, h.le, h.last.1, fun i h1 hi => ?_⟩,
    ⟨by omega, h.le, by rw [h.blast], fun i h1 hi => ?_⟩⟩
  · rcases eq_or_ne i 1 with rfl | hi1
    · exact hused
    · exact (h.used i (by omega) hi).1
  · rcases eq_or_ne i 1 with rfl | hi1
    · rwa [ne_eq, h.bflag]
    · exact (h.used i (by omega) hi).2

/-- A block more in the row. -/
theorem Row.serve (hr : Range lo hi pa) (h : Row lo hi pa x) (hl : Live lo hi x live)
    (hused : (x.c 1).flag ≠ 0) (hn : x.n < 99) (hpos : 0 < a1)
    (ha : (x.c x.n).start + a1 < hi) :
    ∃ x', Cuts a1 x (x.c x.n).start x' ∧ x'.vaild = x.vaild ∧ Phase lo hi pa x' ∧
      Live lo hi x' (((x.c x.n).start, a1) :: live) := by
  have hfits := hr.fits
  have hpos' := hr.pos
  have hpafits := hr.pa_fits
  have hpage := hr.page
  have h2 := h.two
  have hmore := h.more
  have hbehind := h.behind
  obtain ⟨hfree, hstop, hindex⟩ := h.last
  obtain ⟨hfirst, hbfirst⟩ := h.firstFree hused
  have hb : (x.b x.n).start = pa + ((x.c x.n).start - lo) := by rw [h.blast]
  have hroom : pa + ((x.c x.n).start - lo) + a1 < 2 ^ 63 := by
    simp only [PGSIZE] at *
    omega
  obtain ⟨c, hcut, hcn, hcn', hcrest⟩ :=
    cut_tail x.c a1 (n := x.n) hn (by omega)
  obtain ⟨b, hbcut, hbn, hbn', hbrest⟩ :=
    cut_tail x.b a1 (n := x.n) hn (by omega)
  rw [h.blast] at hbn hbn'
  dsimp only at hbn hbn'
  rw [hstop] at hcn'
  have hc1 : c 1 = x.c 1 := hcrest 1 (by omega) (by omega)
  have hb1 : b 1 = x.b 1 := hbrest 1 (by omega) (by omega)
  have hcstart : (c 2).start = (x.c 2).start := by
    rcases eq_or_ne x.n 2 with hn2 | hn2
    · rw [hn2] at hcn
      rw [hcn]
    · rw [hcrest 2 hn2.symm (by omega)]
  have hbstart : (b 2).start = (x.b 2).start := by
    rcases eq_or_ne x.n 2 with hn2 | hn2
    · have hb' := h.blast
      rw [hn2] at hbn hb'
      rw [hbn, hb']
    · rw [hbrest 2 hn2.symm (by omega)]
  have hn' : (x.withCuts b c .tail).n = x.n + 1 := withCuts_n (by decide)
  have hrow : Row lo hi pa (x.withCuts b c .tail) :=
    { two := by omega
      le := by omega
      head := fun _ => by omega
      start := by rw [withCuts_c, hc1, h.start]
      index := by rw [withCuts_c, hc1, h.index]
      more := by rwa [withCuts_c, hc1]
      link := by rw [withCuts_c, hc1, hcstart, h.link]
      used := fun j hj hjn => by
        rw [withCuts_b, withCuts_c]
        rcases eq_or_ne j x.n with rfl | hne
        · rw [hcn, hbn]
          exact ⟨one_ne_zero, one_ne_zero⟩
        · rw [hcrest j hne (by omega), hbrest j hne (by omega)]
          exact h.used j hj (by omega)
      last := by
        rw [hn', withCuts_c, hcn']
        exact ⟨rfl, rfl, rfl⟩
      behind := by
        rw [hn', withCuts_c, hcn', hc1]
        dsimp only
        omega
      less := by
        rw [hn', withCuts_c, hcn']
        exact ha
      rest := fun j hj h99 => by
        rw [withCuts_c, hcrest j (by omega) (by omega)]
        exact h.rest j (by omega) h99
      b := by
        rw [withCuts_b, withCuts_c, hc1, hb1]
        exact h.b
      bflag := by
        rw [withCuts_b, withCuts_c, hc1, hb1]
        exact h.bflag
      blink := by rw [withCuts_b, hbstart, hb1, h.blink]
      blast := by
        rw [hn', withCuts_b, withCuts_c, hbn', hcn', Block.mk.injEq]
        exact ⟨rfl, by dsimp only; omega, rfl, rfl⟩ }
  have hends : ∀ u ∈ live, u.1 + u.2 ≤ (x.c x.n).start := by
    intro u hu
    obtain ⟨-, -, hlt⟩ := hl.inside u hu
    rcases hl.free u hu x.n (by omega) h.le hfree with hle | hge
    · exact hle
    · omega
  have htop := hrow.top
  rw [if_neg (by omega), withCuts_c, hc1] at htop
  have htop' : (x.c 1).stop ≤ x.top := by
    rw [h.top]
    split <;> omega
  refine ⟨_, ⟨x.n, x.n, _, _, c, b, hfirst, size_of_lt (by omega) (by omega), hcut, hbfirst, ?_,
    hbcut, by rw [hcn], rfl⟩, rfl, .row hrow, ?_⟩
  · rw [Block.size_of_stop (by rw [h.blast]) (by omega) (by omega), hb]
    simp only [PGSIZE] at *
    omega
  · refine hl.cons hpos (by omega) (by omega) (fun u hu => .inr (hends u hu))
      (fun j h1 h99 hj => ?_) (fun u hu j h1 h99 hj hne => ?_) (.inr ⟨by omega, by omega, hc1⟩)
      fun u hu hne => ?_
    · rw [withCuts_c] at hj ⊢
      rcases eq_or_ne j (x.n + 1) with rfl | hjn'
      · rw [hcn']
        exact .inl le_rfl
      · rcases eq_or_ne j x.n with rfl | hjn
        · rw [hcn] at hj
          cases hj
        · rw [hcrest j hjn hjn'] at hj ⊢
          have hge : x.n < j := by
            by_contra hle
            exact hfirst.used j h1 (by omega) hj
          rw [h.rest j hge h99]
          exact .inr (Nat.zero_le _)
    · rw [withCuts_c] at hj hne ⊢
      rcases eq_or_ne j (x.n + 1) with rfl | hjn'
      · have hend := hends u hu
        rw [hcn']
        refine .inl ?_
        dsimp only
        omega
      · rcases eq_or_ne j x.n with rfl | hjn
        · rw [hcn] at hj
          cases hj
        · exact absurd (hcrest j hjn hjn') hne
    · rw [htop]
      exact htop'.trans (hl.above u hu hne)

/-- The first block of a row is given again: a new entry takes its rest. -/
theorem Row.serve_head (hr : Range lo hi pa) (h : Row lo hi pa x) (hl : Live lo hi x live)
    (hfree : (x.c 1).flag = 0) (hn : x.n < 99) (hpos : 0 < a1) (ha : lo + a1 < (x.c 1).stop) :
    ∃ x', Cuts a1 x lo x' ∧ x'.vaild = x.vaild ∧ Phase lo hi pa x' ∧
      Live lo hi x' ((lo, a1) :: live) := by
  have hfits := hr.fits
  have hpafits := hr.pa_fits
  have hpage := hr.page
  have h3 := h.head hfree
  have hbehind := h.behind
  have hless := h.less
  have hused2 := h.used 2 le_rfl (by omega)
  obtain ⟨hbstart, hbstop, hbindex⟩ := h.b
  have hroom : pa + ((x.c 1).stop - lo) < 2 ^ 63 := by
    simp only [PGSIZE] at *
    omega
  obtain ⟨c, hcut, hc1, hcn', hcrest⟩ :=
    cut_inserted x.c a1 (n := x.n) (j := 1) (by omega) hn (by rw [h.index]; omega)
      (by rw [h.index]; decide) (by rw [h.index]; exact hused2.1) (by rw [h.start]; omega)
  obtain ⟨b, hbcut, hb1, hbn', hbrest⟩ :=
    cut_inserted x.b a1 (n := x.n) (j := 1) (by omega) hn (by rw [hbindex]; omega)
      (by rw [hbindex]; decide) (by rw [hbindex]; exact hused2.2) (by rw [hbstart]; omega)
  rw [h.start] at hc1 hcn'
  rw [hbstart] at hb1 hbn'
  rw [h.index, h.link] at hcn'
  rw [hbindex, h.blink, hbstop] at hbn'
  have hn' : (x.withCuts b c .inserted).n = x.n + 1 := withCuts_n (by decide)
  have htop : (x.withCuts b c .inserted).top = (x.c 1).stop := by
    rw [Page.top, withCuts_c, hc1]
    dsimp only
    rw [hcn', if_pos rfl]
  have hxtop := h.top
  rw [if_neg (by omega)] at hxtop
  -- what is free is the new entry, the last one of the row, and what is behind it
  have hothers : ∀ j, 2 ≤ j → j ≤ 99 → j ≠ x.n + 1 → (c j).flag = 0 →
      (c j).stop = 0 ∨ (x.c 1).stop ≤ (c j).start := by
    intro j h2 h99 hne hj
    rw [hcrest j (by omega) hne] at hj ⊢
    rcases lt_trichotomy j x.n with hlt | rfl | hgt
    · exact absurd hj (h.used j h2 hlt).1
    · exact .inr hbehind
    · exact .inl (h.rest j hgt h99)
  have hloop : Loop lo hi pa (x.withCuts b c .inserted) :=
    { two := by omega
      le := by omega
      start := by rw [withCuts_c, hc1]
      index := by
        rw [withCuts_c, hc1, hn']
        dsimp only
        omega
      next := by
        rw [withCuts_c, hc1]
        dsimp only
        rw [hcn']
        exact ⟨rfl, rfl⟩
      top := by
        rw [withCuts_c, hc1]
        dsimp only
        rw [hcn']
        dsimp only
        omega
      more := by
        rw [withCuts_c, hc1]
        exact Nat.lt_add_of_pos_right hpos
      free := fun hflag => by
        rw [withCuts_c, hc1] at hflag
        cases hflag
      used := fun _ => by
        rw [withCuts_c, hc1]
        dsimp only
        rw [hcn']
        exact ha
      others := fun j h2 h99 hne hj => by
        rw [withCuts_c, hc1] at hne ⊢
        dsimp only at hne ⊢
        rw [hcn']
        exact (hothers j h2 h99 hne hj).imp (fun h0 => h0.le.trans (Nat.zero_le lo)) id
      stuck := by
        refine ⟨x.n, h.two, h.le, ?_, fun i hi hin => ?_, .inr ?_⟩
        · rw [withCuts_c, hcrest x.n (by omega) (by omega)]
          exact h.last.1
        · rw [withCuts_c, hcrest i (by omega) (by omega)]
          exact (h.used i hi hin).1
        · rw [hn', withCuts_c, hcrest x.n (by omega) (by omega)]
          exact ⟨h.last.2.2, Nat.lt_succ_self x.n⟩
      b := by
        rw [withCuts_b, withCuts_c, hb1, hc1]
        exact ⟨rfl, rfl⟩
      bnext := by
        rw [withCuts_b, withCuts_c, hc1]
        dsimp only
        rw [hbn']
        exact ⟨rfl, rfl⟩
      bflag := by rw [withCuts_b, withCuts_c, hb1, hc1]
      room := by
        rw [withCuts_b, withCuts_c, hc1]
        dsimp only
        rw [hbn', hcn']
        refine .inr ⟨le_rfl, ?_⟩
        dsimp only
        omega }
  refine ⟨_, ⟨1, 1, _, _, c, b, .one hfree, size_of_lt (by rw [h.start]; omega) (by omega), hcut,
    .one (h.bflag.2 hfree), size_of_lt (by rw [hbstart, hbstop]; omega) (by rw [hbstop]; omega),
    hbcut, by rw [hc1], rfl⟩, rfl, .loop hloop, ?_⟩
  have habove : ∀ u ∈ live, u.1 ≠ lo ∧ (x.c 1).stop ≤ u.1 := by
    intro u hu
    have hne : u.1 ≠ lo := fun hlo => (hl.head u hu hlo).1 hfree
    exact ⟨hne, hxtop ▸ hl.above u hu hne⟩
  refine hl.cons hpos le_rfl (by omega) (fun u hu => .inl ?_) (fun j h1 h99 hj => ?_)
    (fun u hu j h1 h99 hj hne => ?_) (.inl ⟨rfl, ?_⟩) fun u hu hne => ?_
  · have hu' := (habove u hu).2
    dsimp only
    omega
  · rw [withCuts_c] at hj ⊢
    rcases eq_or_ne j 1 with rfl | hj1
    · rw [hc1] at hj
      cases hj
    · rcases eq_or_ne j (x.n + 1) with rfl | hjn
      · rw [hcn']
        exact .inl le_rfl
      · rcases hothers j (by omega) h99 hjn hj with h0 | hge
        · exact .inr (by omega)
        · exact .inl (by omega)
  · rw [withCuts_c] at hj hne ⊢
    rcases eq_or_ne j 1 with rfl | hj1
    · rw [hc1] at hj
      cases hj
    · rcases eq_or_ne j (x.n + 1) with rfl | hjn
      · rw [hcn']
        exact .inr (habove u hu).2
      · exact absurd (hcrest j hj1 hjn) hne
  · rw [withCuts_c, hc1]
    exact ⟨one_ne_zero, rfl, hfree⟩
  · rw [htop]
    exact (habove u hu).2

/-- The first entry is cut again, and the next one takes its rest. -/
theorem Loop.serve (hr : Range lo hi pa) (h : Loop lo hi pa x) (hl : Live lo hi x live)
    (hfree : (x.c 1).flag = 0) (hpos : 0 < a1) (ha : lo + a1 < (x.c 1).stop) :
    ∃ x', Cuts a1 x lo x' ∧ x'.vaild = x.vaild ∧ Phase lo hi pa x' ∧
      Live lo hi x' ((lo, a1) :: live) := by
  have hfits := hr.fits
  have hpos' := hr.pos
  have hpafits := hr.pa_fits
  have hpage := hr.page
  have htwo := h.two
  have hle := h.le
  have htophi := h.top
  have hroom := h.room
  obtain ⟨hd2, hdn⟩ := h.index
  obtain ⟨hdfree, hdindex⟩ := h.next
  obtain ⟨hstop, hbstop⟩ := h.free hfree
  obtain ⟨hbstart, hbindex⟩ := h.b
  obtain ⟨hbdfree, hbdindex⟩ := h.bnext
  obtain ⟨c, hcut, hc1, hcd, hcrest⟩ :=
    cut_merged x.c a1 (n := x.n) (j := 1) (by omega) (by omega) (by omega) hdfree
      (by rw [h.start]; omega)
  have hpage' : pa + a1 < 2 ^ 63 := by
    simp only [PGSIZE] at *
    omega
  obtain ⟨b, hbcut, hb1, hbd, hbrest⟩ :=
    cut_merged x.b a1 (n := x.n) (j := 1) (by omega) (by rw [hbindex]; omega)
      (by rw [hbindex]; omega) (by rw [hbindex]; exact hbdfree) (by rw [hbstart]; omega)
  rw [h.start] at hc1
  rw [hbstart, hbindex] at hb1
  rw [hbindex] at hbd hbrest
  have hn' : (x.withCuts b c .merged).n = x.n := withCuts_merged
  have htop : (x.withCuts b c .merged).top = x.top := by
    rw [h.top_eq, Page.top, withCuts_c, hc1]
    dsimp only
    rw [hcd, if_pos hdfree]
  have hloop : Loop lo hi pa (x.withCuts b c .merged) :=
    { two := by omega
      le := by omega
      start := by rw [withCuts_c, hc1]
      index := by
        rw [withCuts_c, hc1, hn']
        exact h.index
      next := by
        rw [withCuts_c, hc1]
        dsimp only
        rw [hcd]
        exact h.next
      top := by
        rw [withCuts_c, hc1]
        dsimp only
        rw [hcd]
        exact htophi
      more := by
        rw [withCuts_c, hc1]
        exact Nat.lt_add_of_pos_right hpos
      free := fun hflag => by
        rw [withCuts_c, hc1] at hflag
        cases hflag
      used := fun _ => by
        rw [withCuts_c, hc1]
        dsimp only
        rw [hcd]
        dsimp only
        omega
      others := fun j h2 h99 hne hj => by
        rw [withCuts_c, hc1] at hne ⊢
        rw [withCuts_c] at hj
        dsimp only at hne ⊢
        rw [hcrest j (by omega) hne] at hj ⊢
        rw [hcd]
        exact h.others j h2 h99 hne hj
      stuck := by
        obtain ⟨j, h2, h99, hj, hbefore, hor⟩ := h.stuck
        refine ⟨j, h2, h99, ?_, fun i hi hij => ?_, ?_⟩
        · rw [withCuts_c]
          rcases eq_or_ne j (x.c 1).index with rfl | hjd
          · rw [hcd]
            exact hdfree
          · rwa [hcrest j (by omega) hjd]
        · rw [withCuts_c]
          have hused := hbefore i hi hij
          rcases eq_or_ne i (x.c 1).index with rfl | hid
          · exact absurd hdfree hused
          · rwa [hcrest i (by omega) hid]
        · rw [withCuts_c, hc1, hn']
          rcases eq_or_ne j (x.c 1).index with rfl | hjd
          · refine .inl ⟨rfl, fun _ => ?_⟩
            rw [hcd, hstop]
          · rw [hcrest j (by omega) hjd]
            exact .inr (hor.resolve_left fun hd => hjd hd.1)
      b := by
        rw [withCuts_b, withCuts_c, hb1, hc1]
        exact ⟨rfl, rfl⟩
      bnext := by
        rw [withCuts_b, withCuts_c, hc1]
        dsimp only
        rw [hbd]
        exact ⟨hbdfree, hbdindex⟩
      bflag := by rw [withCuts_b, withCuts_c, hb1, hc1]
      room := by
        rw [withCuts_b, withCuts_c, hc1]
        dsimp only
        rw [hbd, hcd]
        exact hroom }
  have hbsize : a1 < (x.b 1).size := by
    rcases hroom with h0 | ⟨hge, hle'⟩
    · rw [Block.size_of_stop (by rw [hbstop, h0]) (by omega) (by omega), hbstart]
      simp only [PGSIZE] at *
      omega
    · exact size_of_lt (by rw [hbstart, hbstop]; omega) (by rw [hbstop]; omega)
  refine ⟨_, ⟨1, 1, _, _, c, b, .one hfree, size_of_lt (by rw [h.start]; omega) (by omega), hcut,
    .one (h.bflag.2 hfree), hbsize, hbcut, by rw [hc1], rfl⟩, rfl, .loop hloop, ?_⟩
  have habove : ∀ u ∈ live, u.1 ≠ lo ∧ (x.c 1).stop ≤ u.1 := by
    intro u hu
    have hne : u.1 ≠ lo := fun hlo => (hl.head u hu hlo).1 hfree
    have habove := hl.above u hu hne
    rw [h.top_eq, ← hstop] at habove
    exact ⟨hne, habove⟩
  refine hl.cons hpos le_rfl (by omega) (fun u hu => .inl ?_) (fun j h1 h99 hj => ?_)
    (fun u hu j h1 h99 hj hne => ?_) (.inl ⟨rfl, ?_⟩) fun u hu hne => ?_
  · have hu' := (habove u hu).2
    dsimp only
    omega
  · rw [withCuts_c] at hj ⊢
    rcases eq_or_ne j 1 with rfl | hj1
    · rw [hc1] at hj
      cases hj
    · rcases eq_or_ne j (x.c 1).index with rfl | hjd
      · rw [hcd]
        refine .inl ?_
        dsimp only
        omega
      · rw [hcrest j hj1 hjd] at hj ⊢
        rcases h.others j (by omega) h99 hjd hj with hstop' | hge
        · exact .inr hstop'
        · exact .inl (by omega)
  · rw [withCuts_c] at hj hne ⊢
    rcases eq_or_ne j 1 with rfl | hj1
    · rw [hc1] at hj
      cases hj
    · rcases eq_or_ne j (x.c 1).index with rfl | hjd
      · rw [hcd]
        refine .inr ?_
        dsimp only
        rw [← hstop]
        exact (habove u hu).2
      · exact absurd (hcrest j hj1 hjd) hne
  · rw [withCuts_c, hc1]
    exact ⟨one_ne_zero, rfl, hfree⟩
  · rw [htop]
    exact hl.above u hu hne

end HustOS.Mm.Better
