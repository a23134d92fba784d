import HustOS.Mm.BetterRuns
import HustOS.Mm.Ownership

/-!
# Whose memory `better_malloc` returns

The tables of the allocator are global, and its page is mapped once, by the first call, in the page
table of the process that makes it. So a block is the memory of its caller if the caller is that
process and the block ends in the page (`betterOwn_of_run`); any other process is given an address
that it does not map (`betterOwn_lost`).
-/

namespace HustOS.Mm

open Foundations

variable {m m₁ m₂ m₃ : Mach} {roots kept : Set ℕ} {pm : ℕ → PageMap} {l : List ℕ}
  {r va pa perm : ℕ}

/-- A page is unmapped and its frame given back, another frame is mapped in its place, and a page is
taken, which is the frame. -/
theorem Spaces.swap {f perm' q' : ℕ} (h : Spaces m roots pm kept l) (hr : r ∈ roots)
    (hdvd : PGSIZE ∣ va) (hv : pm r (va / PGSIZE) = some (f, perm'))
    (hstart : 0 < m.freeMemStartAddr) (hf : Mappable roots pm kept va pa) (hperm : perm < 2 ^ 10)
    (hread : perm &&& (PTE_R ||| PTE_W) ≠ 0) (e₁ : userVmUnmap r va PGSIZE 1 m = .ok m₁)
    (e₂ : userVmMap r va PGSIZE pa perm m₁ = .ok m₂) (e₃ : allocPage m₂ = .ok (q', m₃)) :
    Spaces m₃ roots (mapAt pm r (va / PGSIZE) (some (pa, perm))) kept l := by
  obtain ⟨q, hq, hva, hlow, rfl⟩ := (h.table r hr).unmap_ok hv e₁
  rw [Nat.mod_eq_zero_of_dvd hdvd, Nat.add_zero] at hlow e₂
  have hfk := h.framed r hr _ f perm' hv
  have hfp := (h.keptPage f hfk).1
  have hqt : IsTable r m q := ⟨_, by simp, hq⟩
  have hqp := (h.table r hr).page q hqt
  have hw := (h.table r hr).leafWord hva hq
  rw [hv] at hw
  have hclear := hw.clear ((h.table r hr).frameOk hv)
  have hslot : ∀ {x : ℕ} (k : Fin 512), IsTable r m x → x + 8 * k.1 ≠ f := by
    intro x k hx he
    obtain ⟨rfl, -⟩ := slot_inj (a := k.1) (b := 0) ((h.table r hr).page x hx).1 hfp k.2 (by omega)
      (by simpa using he)
    exact h.keptTable r hr x hfk hx
  have hne : q + 8 * px 0 va ≠ f := hslot ⟨_, px_lt 0 va⟩ hqt
  set w' := m.mem (q + 8 * px 0 va) &&& (2 ^ 64 - 1 - PTE_V) with hw'
  set M : Mach := { (m.store f m.gFreeMemList).store (q + 8 * px 0 va) w' with
    gFreeMemList := f } with hM
  have hmem : M.mem = ((m.store (q + 8 * px 0 va) w').store f m.gFreeMemList).mem := by
    rw [Mach.store_comm _ _ _ hne]
  -- the tables of the machine in which the other frame is mapped
  have hq₁ : nodeAt (entry M) r [idx 2 va, idx 1 va] = some q := by
    refine (nodeAt_congr (fun x hx k => ?_) (d := 2) (by simp)).trans hq
    obtain ⟨R, hR, hx⟩ := hx
    refine Eq.trans (entry_congr ?_) ((h.table r hr).entry_store (k := idx 0 va) (w := w') hq
      ⟨R, hR, hx⟩ k)
    rw [hmem]
    exact Mach.store_of_ne _ _ (hslot k ⟨R, by omega, hx⟩)
  have hslotMem : M.mem (q + 8 * px 0 va) = w' := by
    rw [hmem, Mach.store_of_ne _ _ hne, Mach.store_self]
  have hone : OnePage va PGSIZE := .inr ⟨rfl, hdvd⟩
  have e₂' := Stage.userVmMap_ok e₂
  rw [mapPages_at hva (hone.last hva) hq₁ (by omega), hslotMem, if_neg (not_not.2 hclear.1),
    if_neg hclear.2] at e₂'
  obtain ⟨-, rfl⟩ := Prod.mk.inj (Except.ok.inj e₂')
  set w := pa2pte pa ||| perm ||| PTE_V ||| 0 with hw₁
  have hm₃ : m₃ = (m.store (q + 8 * px 0 va) w).store f m.gFreeMemList := by
    have hhead : (M.store (q + 8 * px 0 va) w).mem f = m.gFreeMemList := by
      rw [Mach.store_of_ne _ _ hne.symm, hmem, Mach.store_self]
    have hf0 : (M.store (q + 8 * px 0 va) w).gFreeMemList ≠ 0 := by
      change f ≠ 0
      omega
    have hlock : (M.store (q + 8 * px 0 va) w).count5 = 1 := h.unlocked
    rw [allocPage_eq hlock, if_neg hf0] at e₃
    obtain ⟨-, rfl⟩ := Prod.mk.inj (Except.ok.inj e₃)
    change { M.store (q + 8 * px 0 va) w with
      gFreeMemList := (M.store (q + 8 * px 0 va) w).mem f } = _
    rw [hhead, ← Mach.store_comm _ _ _ hne.symm, hM]
    simp only [Mach.store, Function.update_idem]
  have hword : LeafWord w (some (pa, perm)) := by
    rw [LeafWord, hw₁, Nat.or_zero, Nat.or_assoc]
  obtain ⟨h', -⟩ := h.leaf hr hva hq hword (by
    rintro f perm' hf'
    cases hf'
    exact ⟨h.frameOk hf hperm hread, hf.kept, hf.home⟩)
  rw [hm₃]
  refine (h'.write hfk (fun a ha => Mach.store_of_ne _ _ ?_) rfl rfl rfl).1
  rintro rfl
  exact ha ⟨le_rfl, Nat.lt_add_of_pos_right (by decide)⟩

namespace Better

/-! ## The property -/

/-- Every byte of the block is mapped in the page table of the process `i`, which may read and write
it, to a frame that no other process maps. -/
def OwnMemory (sys : Sys) (i : ℕ) (u : ℕ × ℕ) : Prop :=
  ∀ a, InBlock u a → ∃ p f, sys.spaces[i]? = some p ∧
    (∀ kind, kind = PTE_R ∨ kind = PTE_W →
      translate p.pagetable kind a sys.mach = some (f + a % PGSIZE)) ∧
    ∀ j b, j ≠ i → ¬ sys.Maps j b f

/-- The second allocation leaves room for its bytes twice, if the first block is in use. -/
def RoomTwice (n : ℕ) (m : Malloc) : Prop :=
  m.first ≠ 0 → (m.p 1).n = 1 → ((m.p 1).c 1).flag ≠ 0 →
    ((m.p 1).c 1).stop + 2 * n ≤ USER_FREE_ADDRESS_START + PGSIZE

/-- An allocation by the process that made the first call is served by cutting the first free entry,
with room for it. -/
def OwnServed (s : State) : Call → Prop
  | .allocate i n => Served s (.allocate i n) ∧ s.owner.getD i = i ∧ RoomTwice n s.m
  | .free _ => True

/-! ## The page of the allocator -/

/-- The process `i` maps the page of the allocator to the frame `pa`, and no other one does. -/
structure Owned (sys : Sys) (i pa : ℕ) (p : Space) (pm : ℕ → PageMap) : Prop where
  space : sys.spaces[i]? = some p
  distinct : (sys.spaces.map Space.pagetable).Nodup
  tables : ∃ kept l, Spaces sys.mach (rootsOf sys.spaces) pm kept l
  mapped : pm p.pagetable (USER_FREE_ADDRESS_START / PGSIZE) = some (pa, betterPerm)
  others : ∀ r ∈ rootsOf sys.spaces, r ≠ p.pagetable → ∀ v perm, pm r v ≠ some (pa, perm)

theorem Owned.own {sys : Sys} {i a : ℕ} {p : Space} (h : Owned sys i pa p pm)
    (hlo : USER_FREE_ADDRESS_START ≤ a) (hhi : a < USER_FREE_ADDRESS_START + PGSIZE) :
    (∀ kind, kind = PTE_R ∨ kind = PTE_W →
      translate p.pagetable kind a sys.mach = some (pa + a % PGSIZE)) ∧
    ∀ j b, j ≠ i → ¬ sys.Maps j b pa := by
  obtain ⟨kept, l, hl⟩ := h.tables
  have hpage : a / PGSIZE = USER_FREE_ADDRESS_START / PGSIZE := by
    simp only [USER_FREE_ADDRESS_START, PGSIZE] at *
    omega
  refine ⟨fun kind hkind => ?_, ?_⟩
  · have hk : kind < 2 ^ 10 ∧ Allows kind betterPerm := by
      rcases hkind with rfl | rfl <;> decide
    rw [(hl.table _ (SysInv.root_mem h.space)).translate hk.1, hpage, h.mapped, Option.bind_some,
      if_pos hk.2]
  · rintro j b hji ⟨p', w, hp', hb, hw⟩
    have hne : p'.pagetable ≠ p.pagetable := by
      intro e
      obtain ⟨hlt, -⟩ := List.getElem?_eq_some_iff.1 h.space
      refine hji ((List.getElem?_inj (by rwa [List.length_map]) h.distinct).1 ?_).symm
      rw [List.getElem?_map, List.getElem?_map, h.space, hp', Option.map_some, Option.map_some, e]
    obtain ⟨perm, hv⟩ := ((hl.table _ (SysInv.root_mem hp')).pteOf_iff hb).1 ⟨w, hw⟩
    exact h.others _ (SysInv.root_mem hp') hne _ _ hv

/-- The first call maps its frame, whatever was mapped there. -/
theorem mapLoop_spaces {mach mach' : Mach} {a a' : Malloc} (h : Spaces mach roots pm kept l)
    (hr : r ∈ roots) (hpa : pa ∈ kept) (hun : ∀ r ∈ roots, ∀ v perm, pm r v ≠ some (pa, perm))
    (hstart : 0 < mach.freeMemStartAddr) (hg : a.gMallocPage = USER_FREE_ADDRESS_START)
    (e : mapLoop r 1 pa a mach = .ok (a', mach')) :
    ∃ kept' l', Spaces mach' roots (mapAt pm r (USER_FREE_ADDRESS_START / PGSIZE)
      (some (pa, betterPerm))) kept' l' := by
  obtain ⟨pte, mach₁, w, mach₂, mach₃, q', e₁, e₂, e₃, e₄, e₅, -⟩ := mapLoop_one e
  rw [hg] at e₁ e₃ e₄
  obtain ⟨l₁, h₁, hs₁, hva, hpte, -⟩ := h.walk hr e₁
  have h0 : pte ≠ 0 := by
    rintro rfl
    cases e₂
  obtain ⟨q, rfl, hq⟩ := hpte h0
  rw [Mach.load, if_neg h0] at e₂
  obtain rfl := Except.ok.inj e₂
  have hdvd : PGSIZE ∣ USER_FREE_ADDRESS_START := ⟨1024, rfl⟩
  have hf : Spaces.Mappable roots pm kept USER_FREE_ADDRESS_START pa :=
    Stage.mappable_fresh hpa (fun _ => hun) _
  have hleaf := (h₁.table r hr).leafWord hva hq
  have hvalid := hleaf.valid_iff fun _ _ => (h₁.table r hr).frameOk
  split at e₃
  · rename_i hw
    obtain ⟨⟨f, perm'⟩, hv⟩ := Option.ne_none_iff_exists'.1 (mt hvalid.2 hw)
    exact ⟨_, _, h₁.swap hr hdvd hv (hs₁.start ▸ hstart) hf (protToType_lt _ _)
      (by decide) e₃ e₄ e₅⟩
  · obtain rfl := Except.ok.inj e₃
    obtain ⟨-, -, -, -, l₃, h₃, -⟩ :=
      h₁.map hr (.inr ⟨rfl, hdvd⟩) hf (protToType_lt _ _) (by decide)
      (Stage.userVmMap_ok e₄)
    obtain ⟨l₄, h₄, -⟩ := h₃.take e₅
    exact ⟨_, _, h₄⟩

/-! ## Runs -/

variable {lay : Layout} {s s' : State} {m' : Malloc} {mach' : Mach} {i n : ℕ} {p : Space}

/-- The allocator has not been called, or its page is that of the process of the first call. -/
def OwnInv (lay : Layout) (s : State) : Prop :=
  s.m = .init ∧ s.live = [] ∧ s.owner = none ∧ Run lay EventOk s.sys ∨
    ∃ pa k p pm, InUse s.m s.live pa ∧ s.owner = some k ∧ Owned s.sys k pa p pm

theorem OwnInv.allocate (h : OwnInv lay s) (cond : OwnServed s (.allocate i n))
    (caller : s.sys.spaces[i]? = some p)
    (run : SysUserBetterAllocatePage p.pagetable n s.m s.sys.mach va m' mach') :
    OwnMemory { s.sys with mach := mach' } i (va, n) ∧
      OwnInv lay ⟨m', { s.sys with mach := mach' }, some (s.owner.getD i), (va, n) :: s.live⟩ := by
  obtain ⟨⟨hpos, hn, served⟩, howner, hroom⟩ := cond
  -- the page belongs to the caller, and the block lies in it
  obtain ⟨pa, p', pm, hin, hown, hlo, hhi⟩ : ∃ pa p' pm, InUse m' ((va, n) :: s.live) pa ∧
      Owned { s.sys with mach := mach' } i pa p' pm ∧ USER_FREE_ADDRESS_START ≤ va ∧
      va + n ≤ USER_FREE_ADDRESS_START + PGSIZE := by
    rcases h with ⟨hm, hlive, hnone, hrun⟩ | ⟨pa, k, p', pm, h, hk, hown⟩
    · rw [if_pos (by rw [hm]; rfl)] at served
      rw [hm] at run
      obtain ⟨pa, mach₁, m₁, e, hg, hmap, rfl, hin⟩ := firstCall_ok hpos served.1
        (fun q m' => taken_page hrun served.2) (allocate_init run)
      obtain ⟨pm, kept, hi⟩ := hrun.inv fun _ _ h => h
      obtain ⟨h0, -⟩ := taken_page hrun served.2 e
      obtain ⟨l, hl⟩ := hi.tables
      obtain ⟨l₁, h₁, hs₁, hfresh⟩ := hl.take e
      have hun := (hfresh h0.ne').2
      have hstart : 0 < mach₁.freeMemStartAddr :=
        hs₁.start ▸ (Nat.lt_of_lt_of_le (by decide) hi.low.2)
      have hroot := SysInv.root_mem caller
      have htables := mapLoop_spaces h₁ hroot (Set.mem_insert _ _) hun hstart hg hmap
      refine ⟨pa, p, _, by rw [hlive]; exact hin, ⟨caller, hi.distinct, htables, mapAt_self .., ?_⟩,
        le_rfl, Nat.add_le_add_left hn _⟩
      intro r hr hne v perm
      rw [mapAt_of_ne hne]
      exact hun r hr v perm
    · rw [if_neg h.used] at served
      rw [hk] at howner
      obtain rfl : k = i := howner
      obtain ⟨rfl, hlo, hin, hhi⟩ := h.allocate hpos hn served run
      exact ⟨pa, p', pm, hin, hown, hlo, hhi (hroom h.used)⟩
  refine ⟨fun a ha => ?_, .inr ⟨pa, i, p', pm, hin, congrArg some howner, hown⟩⟩
  obtain ⟨hkind, hothers⟩ := hown.own (hlo.trans ha.1) (ha.2.trans_le hhi)
  exact ⟨p', pa, hown.space, hkind, hothers⟩

theorem OwnInv.step {c : Call} (h : OwnInv lay s) (cond : OwnServed s c) (step : Step s c s') :
    OwnInv lay s' := by
  cases step with
  | allocate caller run => exact (h.allocate cond caller run).2
  | free run =>
    rcases h with ⟨hm, hlive, hnone, hrun⟩ | ⟨pa, k, p', pm, h, hk, hown⟩
    · rw [hm, init_free] at run
      cases run
      refine .inl ⟨rfl, ?_, hnone, hrun⟩
      dsimp only
      rw [hlive]
      rfl
    · exact .inr ⟨pa, k, p', pm, h.free run, hk, hown⟩

/-- **A block is the memory of its caller** in the runs whose allocations are all made by one
process and served by cutting the first free entry, with room for it. -/
theorem betterOwn_of_run (run : BetterRun lay OwnServed s) (cond : OwnServed s (.allocate i n))
    (caller : s.sys.spaces[i]? = some p)
    (call : SysUserBetterAllocatePage p.pagetable n s.m s.sys.mach va m' mach') :
    OwnMemory { s.sys with mach := mach' } i (va, n) := by
  have h : OwnInv lay s := by
    clear cond caller call
    induction run with
    | start run => exact .inl ⟨rfl, rfl, rfl, run⟩
    | step _ cond step ih => exact ih.step cond step
  exact (h.allocate cond caller call).1

instance (n : ℕ) (m : Malloc) : Decidable (RoomTwice n m) :=
  inferInstanceAs (Decidable (_ → _ → _ → _))

instance (s : State) (c : Call) : Decidable (OwnServed s c) :=
  match c with
  | .allocate _ _ => inferInstanceAs (Decidable (_ ∧ _ ∧ _))
  | .free _ => inferInstanceAs (Decidable True)

/-- The second of two blocks in a row. -/
theorem betterOwn_of_run_row : ∃ s p va m' mach', BetterRun smallKernel OwnServed s ∧
    s.sys.spaces[0]? = some p ∧
    SysUserBetterAllocatePage p.pagetable 30 s.m s.sys.mach va m' mach' ∧
    OwnMemory { s.sys with mach := mach' } 0 (va, 30) := by
  have htest : ((computed OwnServed [.allocate 0 100, .free 0x400000, .allocate 0 50]).bind fun s =>
      s.sys.spaces[0]?.bind fun p => (answer p.pagetable 8 30 s.m s.sys.mach).map fun _ =>
        decide (OwnServed s (.allocate 0 30))) = some true := by decide +kernel
  obtain ⟨s, hs, h⟩ := Option.bind_eq_some_iff.1 htest
  obtain ⟨p, hp, h⟩ := Option.bind_eq_some_iff.1 h
  obtain ⟨⟨va, m', mach'⟩, hr, hcond⟩ := Option.map_eq_some_iff.1 h
  have run := BetterRun.computed hs
  have call := answer_some hr
  exact ⟨s, p, va, m', mach', run, hp, call,
    betterOwn_of_run run (of_decide_eq_true hcond) hp call⟩

/-- The allocations are for 1 to `PGSIZE` bytes. -/
def Sized (_ : State) : Call → Prop
  | .allocate _ n => 1 ≤ n ∧ n ≤ PGSIZE
  | .free _ => True

instance (s : State) (c : Call) : Decidable (Sized s c) :=
  match c with
  | .allocate _ n => inferInstanceAs (Decidable (1 ≤ n ∧ n ≤ PGSIZE))
  | .free _ => inferInstanceAs (Decidable True)

/-- Two processes without a program, the first of which has been given 100 bytes. -/
def shared : Option State :=
  (runFrom smallKernel 0x60000 []).toOption.bind fun sys =>
    (loadUserProgram smallKernel [] sys).toOption.bind fun sys =>
      State.calls Sized [.allocate 0 100] ⟨.init, sys, none, []⟩

/-- **The second process** is given an address of the page that the first one has mapped, and does
not map it. -/
theorem betterOwn_lost : ¬ ∀ lay s i n p va m' mach', BetterRun lay Sized s → 1 ≤ n → n ≤ PGSIZE →
    s.sys.spaces[i]? = some p →
      SysUserBetterAllocatePage p.pagetable n s.m s.sys.mach va m' mach' →
        OwnMemory { s.sys with mach := mach' } i (va, n) := by
  intro hall
  have htest : (shared.bind fun s => s.sys.spaces[1]?.bind fun p =>
      (answer p.pagetable 8 50 s.m s.sys.mach).map fun r =>
        (r.1, translate p.pagetable PTE_R r.1 r.2.2)) = some (0x400096, none) := by decide +kernel
  obtain ⟨s, hs, h⟩ := Option.bind_eq_some_iff.1 htest
  obtain ⟨p, hp, h⟩ := Option.bind_eq_some_iff.1 h
  obtain ⟨⟨va, m', mach'⟩, hr, heq⟩ := Option.map_eq_some_iff.1 h
  obtain ⟨rfl, hnone⟩ := Prod.mk.inj heq
  obtain ⟨sys, hsys, hs⟩ := Option.bind_eq_some_iff.1 hs
  obtain ⟨sys', hsys', hs⟩ := Option.bind_eq_some_iff.1 hs
  have start : Run smallKernel EventOk sys :=
    .of_runFrom (toOption_eq_some.1 hsys) fun e he => absurd he List.not_mem_nil
  have run : BetterRun smallKernel Sized s :=
    .calls (.start (start.load (toOption_eq_some.1 hsys'))) hs
  obtain ⟨p', f, hp', hkind, -⟩ := hall smallKernel s 1 50 p 0x400096 m' mach' run (by decide)
    (by decide) hp (answer_some hr) 0x400096 ⟨le_rfl, by decide⟩
  obtain rfl := Option.some.inj (hp.symm.trans hp')
  rw [hkind PTE_R (.inl rfl)] at hnone
  cases hnone

end Better

end HustOS.Mm
