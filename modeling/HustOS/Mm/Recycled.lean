import HustOS.Mm.Isolation

/-!
# Recycled pages

Two runs of the kernel in which the same happens, except that one process stores other bytes in its
heap (`Twins`). What the kernel does depends on the tables and the free list only, so the two runs
go on in the same way, and a process that obtains a page, from `sys_user_allocate_page` or because
it stores to a page that is not there, obtains the same one in both.

No path clears the page. It was put on the free list by `free_page`, which writes its first word,
and it is handed out with the bytes that it had: `recycled_iff` says that the process loads the same
bytes in both runs if and only if the first free page has the same bytes behind its link.
-/

namespace HustOS.Mm

open Foundations

variable {lay : Layout} {a i j v : ℕ} {e : Event} {own : ℕ → Option ℕ} {s s' t t' : Sys}
  {pm : ℕ → PageMap} {kept : Set ℕ} {p : Space}

/-! ## Two runs -/

/-- The address `va` is in the heap of the process `i`. -/
def InHeap (s : Sys) (i va : ℕ) : Prop :=
  ∃ p, s.spaces[i]? = some p ∧ p.heapBottom ≤ va ∧ va < p.heapTop

/-- The states of two runs that differ in the bytes that the process `a` stores in its heap, and
whose events satisfy `C` where they happen. -/
inductive Twins (lay : Layout) (C : Sys → Event → Prop) (a : ℕ) : Sys → Sys → Prop
  | same {s : Sys} (run : Run lay C s) : Twins lay C a s s
  | take {s t : Sys} {p q : ℕ} {m n : Mach} (twins : Twins lay C a s t)
      (alloc : allocPage s.mach = .ok (p, m)) (alloc' : allocPage t.mach = .ok (q, n)) :
      Twins lay C a { s with mach := m } { t with mach := n }
  | load {s t s' t' : Sys} {prog : List ProgPage} (twins : Twins lay C a s t)
      (load : loadUserProgram lay prog s = .ok s') (load' : loadUserProgram lay prog t = .ok t') :
      Twins lay C a s' t'
  | step {s t s' t' : Sys} {e : Event} (twins : Twins lay C a s t) (cond : C s e)
      (exec : exec lay e s = .ok s') (exec' : Mm.exec lay e t = .ok t') : Twins lay C a s' t'
  | secret {s t s' t' : Sys} {va sp b c : ℕ} (twins : Twins lay C a s t) (heap : InHeap s a va)
      (exec : exec lay (.store a va sp b) s = .ok s')
      (exec' : Mm.exec lay (.store a va sp c) t = .ok t') :
      Twins lay C a s' t'

/-- The event `e` gives the process `j` a new page, the page `v` of its address space; the process
has stored the bytes `own` there itself. -/
inductive Obtains (s : Sys) (j : ℕ) : Event → ℕ → (ℕ → Option ℕ) → Prop
  | allocate {p p' : Space} {va : ℕ} {m : Mach} (space : s.spaces[j]? = some p)
      (call : sysUserAllocatePage p s.mach = .ok (va, p', m)) :
      Obtains s j (.allocate j) (va / PGSIZE) fun _ => none
  | grow {p : Space} {va sp b : ℕ} (space : s.spaces[j]? = some p)
      (fault : translate p.pagetable PTE_W va s.mach = none) :
      Obtains s j (.store j va sp b) (va / PGSIZE) fun off =>
        if off = va % PGSIZE then some (b % 256) else none

/-- The process `j` loads the same bytes from its page `v` in both states. -/
def SameLoads (s t : Sys) (j v : ℕ) : Prop :=
  ∀ p ∈ s.spaces[j]?, ∀ q ∈ t.spaces[j]?, ∀ va, va / PGSIZE = v → ∀ sp b,
    userLoad va sp p s.mach = .ok b ↔ userLoad va sp q t.mach = .ok b

/-- The first free page has different bytes behind its link in the two states, at an offset where
there are no bytes `own`. -/
def Recycled (s t : Sys) (own : ℕ → Option ℕ) : Prop :=
  DRAM_BASE ≤ s.mach.gFreeMemList ∧ ∃ off, 8 ≤ off ∧ off < PGSIZE ∧ own off = none ∧
    s.mach.byte (s.mach.gFreeMemList + off) ≠ t.mach.byte (s.mach.gFreeMemList + off)

/-- **The two runs go on in the same way.** -/
theorem Twins.inv (h : Twins lay EventOk a s t) : t.spaces = s.spaces ∧
    ∃ pm kept, SysInv lay s.mach s.spaces pm kept ∧ Twin kept s.mach t.mach := by
  induction h with
  | same run =>
    obtain ⟨pm, kept, h⟩ := run.inv fun _ _ hc => hc
    exact ⟨rfl, pm, kept, h, .refl⟩
  | take _ alloc alloc' ih =>
    obtain ⟨hsp, pm, kept, h, ht⟩ := ih
    obtain ⟨n', f, h', -⟩ := (h.stage ht).take alloc
    obtain ⟨-, rfl⟩ := Prod.mk.inj (Except.ok.inj (alloc'.symm.trans f))
    exact ⟨hsp, _, _, h.of_stage h' h.fixed, h'.twin⟩
  | @load s t s' t' prog _ load load' ih =>
    obtain ⟨hsp, pm, kept, h, ht⟩ := ih
    obtain ⟨n', pm', kept', f, ht', h', -⟩ := h.load ht load
    rw [← hsp] at f
    obtain rfl := Except.ok.inj (load'.symm.trans f)
    exact ⟨rfl, pm', kept', h', ht'⟩
  | @step s t s' t' e _ cond exec exec' ih =>
    obtain ⟨hsp, pm, kept, h, ht⟩ := ih
    obtain ⟨n', pm', kept', f, ht', h'⟩ := h.exec ht cond exec
    rw [← hsp] at f
    obtain rfl := Except.ok.inj (exec'.symm.trans f)
    exact ⟨rfl, pm', kept', h', ht'⟩
  | @secret s t s' t' va sp b c _ heap e e' ih =>
    obtain ⟨hsp, pm, kept, h, ht⟩ := ih
    rw [Mm.exec] at e e'
    obtain ⟨p, ep, e⟩ := (bind_ok_iff _ _ _).1 e
    obtain ⟨m', e₁, e⟩ := (bind_ok_iff _ _ _).1 e
    obtain ⟨p', ep', e'⟩ := (bind_ok_iff _ _ _).1 e'
    obtain ⟨n', e₁', e'⟩ := (bind_ok_iff _ _ _).1 e'
    cases e
    cases e'
    have hi := Sys.space_ok ep
    obtain rfl : p' = p := by
      have hi' := Sys.space_ok ep'
      rw [hsp, hi] at hi'
      exact (Option.some.inj hi').symm
    obtain ⟨n'', pm', kept', f, ht', h'⟩ := h.userStore_twin ht (List.mem_of_getElem? hi) e₁ c
    obtain rfl := Except.ok.inj (e₁'.symm.trans f)
    exact ⟨hsp, pm', kept', h', ht'⟩

/-! ## A page that is obtained -/

/-- **The page that is obtained** is the first free one, with its contents. -/
theorem SysInv.obtains (h : SysInv lay s.mach s.spaces pm kept) (ho : Obtains s j e v own)
    (he : Mm.exec lay e s = .ok s') :
    ∃ p pm' kept' perm, s'.spaces[j]? = some p ∧ SysInv lay s'.mach s'.spaces pm' kept' ∧
      pm' p.pagetable v = some (s.mach.gFreeMemList, perm) ∧ Allows PTE_R perm ∧
      ∀ off < PGSIZE, s'.mach.byte (s.mach.gFreeMemList + off) =
        (own off).getD (s.mach.byte (s.mach.gFreeMemList + off)) := by
  cases ho with
  | @allocate p p' va m hj call =>
    rw [Mm.exec] at he
    obtain ⟨p₁, ep, he⟩ := (bind_ok_iff _ _ _).1 he
    obtain ⟨⟨va', p₂, m'⟩, e₁, he⟩ := (bind_ok_iff _ _ _).1 he
    cases he
    obtain rfl := Option.some.inj (hj.symm.trans (Sys.space_ok ep))
    obtain ⟨rfl, heq⟩ := Prod.mk.inj (Except.ok.inj (call.symm.trans e₁))
    obtain ⟨rfl, rfl⟩ := Prod.mk.inj heq
    obtain ⟨-, -, -, h', hpt, hs, -⟩ := h.allocate .refl hj call
    have hv := mapAt_self pm p.pagetable (va / PGSIZE)
      (some (s.mach.gFreeMemList, protToType (PROT_WRITE ||| PROT_READ) 1))
    rw [← hpt] at h' hv
    obtain ⟨hlt, -⟩ := List.getElem?_eq_some_iff.1 hj
    have hj' : (s.spaces.set j p')[j]? = some p' := List.getElem?_set_self hlt
    have hdvd := (h'.framed (root_mem hj') hv).2
    refine ⟨p', _, _, _, hj', h', hv, by decide, fun off hoff => ?_⟩
    exact hs.byte rfl hdvd hoff
  | @grow p va sp b hj fault =>
    rw [Mm.exec] at he
    obtain ⟨p₁, ep, he⟩ := (bind_ok_iff _ _ _).1 he
    obtain ⟨m', e₁, he⟩ := (bind_ok_iff _ _ _).1 he
    cases he
    obtain rfl := Option.some.inj (hj.symm.trans (Sys.space_ok ep))
    have hp := List.mem_of_getElem? hj
    rw [Mm.userStore, fault] at e₁
    obtain ⟨m₁, e₂, e₁⟩ := (bind_ok_iff _ _ _).1 e₁
    obtain ⟨-, q, perm, -, rfl, -, hw, hrd, hs, -, h₁⟩ := h.fault .refl hp e₂
    have hv := mapAt_self pm p.pagetable (va / PGSIZE) (some (s.mach.gFreeMemList, perm))
    rw [h₁.translate hp (by decide), hv, Option.bind_some, if_pos hw] at e₁
    obtain ⟨-, rfl, h'⟩ := h₁.storeAccess hp hv e₁
    have hdvd := (h'.framed (mem_rootsOf hp) hv).2
    refine ⟨p, _, _, perm, hj, h', hv, hrd, fun off hoff => ?_⟩
    rw [Mach.byte_setByte]
    by_cases hown : off = va % PGSIZE
    · simp only [hown, if_true, Option.getD_some]
    · simp only [hown, Nat.add_right_inj, if_false, Option.getD_none]
      exact hs.byte rfl hdvd hoff

/-- What gives a process a new page gives it the same page in the other run. -/
theorem Obtains.twin {n : Mach} (ho : Obtains s j e v own) (h : SysInv lay s.mach s.spaces pm kept)
    (ht : Twin kept s.mach n) : Obtains ⟨n, s.spaces⟩ j e v own := by
  cases ho with
  | allocate hj call =>
    obtain ⟨n', f, -⟩ := h.allocate ht hj call
    exact .allocate hj f
  | grow hj fault =>
    have hp := List.mem_of_getElem? hj
    refine .grow hj ?_
    rw [(h.twin ht).translate hp (by decide), ← h.translate hp (by decide)]
    exact fault

/-- What is loaded from a page that both runs map to the same frame. -/
theorem sameLoads_iff {pm' : ℕ → PageMap} {kept' : Set ℕ} {f perm perm' : ℕ}
    (hs : SysInv lay s.mach s.spaces pm kept) (ht : SysInv lay t.mach t.spaces pm' kept')
    (hsp : s.spaces[j]? = some p) (htp : t.spaces[j]? = some p)
    (hv : pm p.pagetable v = some (f, perm)) (hv' : pm' p.pagetable v = some (f, perm'))
    (hrd : Allows PTE_R perm) (hrd' : Allows PTE_R perm') :
    SameLoads s t j v ↔
      (DRAM_BASE ≤ f → ∀ off < PGSIZE, s.mach.byte (f + off) = t.mach.byte (f + off)) := by
  have hload : ∀ {x : Sys} {pm : ℕ → PageMap} {kept : Set ℕ} {perm : ℕ},
      SysInv lay x.mach x.spaces pm kept → x.spaces[j]? = some p →
        pm p.pagetable v = some (f, perm) →
      Allows PTE_R perm → ∀ va, va / PGSIZE = v → ∀ sp b, userLoad va sp p x.mach = .ok b ↔
        DRAM_BASE ≤ f ∧ x.mach.byte (f + va % PGSIZE) = b := by
    intro x pm kept perm hx hxp hv hrd va hva sp b
    rw [hx.userLoad_iff (List.mem_of_getElem? hxp), hva, hv]
    constructor
    · rintro ⟨f', perm', heq, -, hd, hb⟩
      obtain ⟨rfl, -⟩ := Prod.mk.inj (Option.some.inj heq)
      exact ⟨hd, hb⟩
    · rintro ⟨hd, hb⟩
      exact ⟨f, perm, rfl, hrd, hd, hb⟩
  constructor
  · intro h hd off hoff
    have hva : (PGSIZE * v + off) / PGSIZE = v ∧ (PGSIZE * v + off) % PGSIZE = off := by
      simp only [PGSIZE] at *
      omega
    have hiff := h p hsp p htp _ hva.1 0 (t.mach.byte (f + off))
    rw [hload hs hsp hv hrd _ hva.1, hload ht htp hv' hrd' _ hva.1, hva.2] at hiff
    exact (hiff.2 ⟨hd, rfl⟩).2
  · intro h p₁ hp₁ p₂ hp₂ va hva sp b
    obtain rfl := Option.some.inj (hsp.symm.trans hp₁)
    obtain rfl := Option.some.inj (htp.symm.trans hp₂)
    rw [hload hs hsp hv hrd _ hva, hload ht htp hv' hrd' _ hva]
    refine and_congr_right fun hd => ?_
    rw [h hd _ (offset_lt va)]

/-- The bytes of the link of the first free page. -/
theorem SysInv.link_byte {m n : Mach} {spaces : List Space} {off : ℕ}
    (h : SysInv lay m spaces pm kept) (ht : Twin kept m n) (hd : DRAM_BASE ≤ m.gFreeMemList)
    (hoff : off < 8) : n.byte (m.gFreeMemList + off) = m.byte (m.gFreeMemList + off) := by
  obtain ⟨l, hl⟩ := h.tables
  obtain ⟨l', rfl, -⟩ := hl.chain.exists_cons (by simp only [DRAM_BASE] at hd; omega)
  have hdvd := (hl.page _ List.mem_cons_self).1
  have hword : (m.gFreeMemList + off) / 8 * 8 = m.gFreeMemList := by
    simp only [PGSIZE] at hdvd
    omega
  rw [Mach.byte, Mach.byte, hword, ht.link _ hl.chain _ List.mem_cons_self]

/-- **Recycled pages.** In every two runs that differ in bytes that a process stores in its heap, a
process that obtains a new page obtains the same one in both, and loads the same bytes from it if
and only if the first free page had the same bytes behind its link. -/
theorem recycled_iff (h : Twins lay EventOk a s t) (ho : Obtains s j e v own)
    (he : exec lay e s = .ok s') : ∃ t', exec lay e t = .ok t' ∧ t'.spaces = s'.spaces ∧
      (SameLoads s' t' j v ↔ ¬ Recycled s t own) := by
  obtain ⟨hsp, pm, kept, hinv, htwin⟩ := h.inv
  have hc : EventOk s e := by
    cases ho <;> trivial
  obtain ⟨n', -, -, f, -, -⟩ := hinv.exec htwin hc he
  have ho' := ho.twin hinv htwin
  obtain ⟨p, pm₁, kept₁, perm₁, hp, h₁, hv₁, hrd₁, hbytes⟩ := hinv.obtains ho he
  obtain ⟨p', pm₂, kept₂, perm₂, hp', h₂, hv₂, hrd₂, hbytes'⟩ :=
    (hinv.twin htwin).obtains (s := ⟨_, _⟩)
    ho' f
  obtain rfl := Option.some.inj (hp.symm.trans hp')
  simp only [htwin.head] at hv₂ hbytes'
  rw [← hsp] at f
  refine ⟨⟨n', s'.spaces⟩, f, rfl, (sameLoads_iff h₁ h₂ hp hp hv₁ hv₂ hrd₁ hrd₂).trans ?_⟩
  rw [Recycled, not_and, not_exists]
  refine imp_congr_right fun hd => forall_congr' fun off => ?_
  constructor
  · rintro heq ⟨-, hoff, hown, hne⟩
    have hb := heq hoff
    rw [hbytes off hoff, hbytes' off hoff, hown] at hb
    exact hne hb
  · intro hno hoff
    rw [hbytes off hoff, hbytes' off hoff]
    rcases hown : own off with _ | b
    · by_cases h8 : 8 ≤ off
      · by_contra hne
        exact hno ⟨h8, hoff, hown, hne⟩
      · -- the link is the same
        exact (hinv.link_byte htwin hd (by omega)).symm
    · rfl

/-! ## A page with the bytes of its last owner -/

/-- A process forks, takes a page of heap and stores a byte there. -/
def storeByte (b : ℕ) : Except Fault Sys := do
  let s ← runFrom smallKernel 0x20000 [.fork 0 fun _ => 0, .allocate 0]
  exec smallKernel (.store 0 0x400008 0 b) s

/-- The byte that the child loads from a page that it takes once the parent has released its own,
with the state before the request, the state after it and the address of the page. -/
def loadReleased (b : ℕ) : Except Fault (ℕ × ℕ × Sys × Sys) := do
  let s ← storeByte b
  let s ← exec smallKernel (.free 0 0x400000) s
  let p ← s.space 1
  let (va, p, m) ← sysUserAllocatePage p s.mach
  let c ← userLoad 0x400008 0 p m
  return (c, va, s, { mach := m, spaces := s.spaces.set 1 p })

/-- The process stores different bytes. -/
theorem storeByte_twins {C : Sys → Event → Prop} {b c : ℕ} (hfork : ∀ s, C s (.fork 0 fun _ => 0))
    (halloc : ∀ s, C s (.allocate 0)) (hs : storeByte b = .ok s) (ht : storeByte c = .ok t) :
    Twins smallKernel C 0 s t := by
  obtain ⟨s₀, h₀, hs⟩ := (bind_ok_iff _ _ _).1 hs
  obtain ⟨t₀, h₀', ht⟩ := (bind_ok_iff _ _ _).1 ht
  obtain rfl := Except.ok.inj (h₀.symm.trans h₀')
  have run : Run smallKernel C s₀ := by
    refine .of_runFrom h₀ fun e he s => ?_
    rcases List.mem_cons.1 he with rfl | he
    · exact hfork s
    · obtain rfl := List.mem_singleton.1 he
      exact halloc s
  have hheap : (runFrom smallKernel 0x20000 [.fork 0 fun _ => 0, .allocate 0]).toOption.bind
      (fun s => s.spaces[0]?.map fun p => (p.heapBottom, p.heapTop)) =
      some (0x400000, 0x401000) := by decide +kernel
  rw [h₀] at hheap
  obtain ⟨p, hp, heq⟩ := Option.map_eq_some_iff.1 hheap
  obtain ⟨hbot, htop⟩ := Prod.mk.inj heq
  refine (Twins.same run).secret ⟨p, hp, ?_, ?_⟩ hs ht
  · rw [hbot]
    decide
  · rw [htop]
    decide

theorem obtains_of_exec (he : exec lay (.allocate j) s = .ok s') :
    ∃ v, Obtains s j (.allocate j) v fun _ => none := by
  rw [exec] at he
  obtain ⟨p, ep, he⟩ := (bind_ok_iff _ _ _).1 he
  obtain ⟨⟨va, p', m⟩, e₁, -⟩ := (bind_ok_iff _ _ _).1 he
  exact ⟨_, .allocate (Sys.space_ok ep) e₁⟩

/-- The parts of such a run. -/
theorem loadReleased_ok {b c va : ℕ} (h : loadReleased b = .ok (c, va, s, s')) :
    (∃ s₀, storeByte b = .ok s₀ ∧ exec smallKernel (.free 0 0x400000) s₀ = .ok s) ∧
    Obtains s 1 (.allocate 1) (va / PGSIZE) (fun _ => none) ∧
    exec smallKernel (.allocate 1) s = .ok s' ∧
    ∃ p, s'.spaces[1]? = some p ∧ userLoad 0x400008 0 p s'.mach = .ok c := by
  rw [loadReleased] at h
  obtain ⟨s₀, hstore, h⟩ := (bind_ok_iff _ _ _).1 h
  obtain ⟨s₁, hfree, h⟩ := (bind_ok_iff _ _ _).1 h
  obtain ⟨p, hp, h⟩ := (bind_ok_iff _ _ _).1 h
  obtain ⟨⟨va', p', m⟩, halloc, h⟩ := (bind_ok_iff _ _ _).1 h
  obtain ⟨c', hload, h⟩ := (bind_ok_iff _ _ _).1 h
  cases h
  have hspace := Sys.space_ok hp
  obtain ⟨hlt, -⟩ := List.getElem?_eq_some_iff.1 hspace
  refine ⟨⟨s₀, hstore, hfree⟩, .allocate hspace halloc, ?_, p', List.getElem?_set_self hlt, hload⟩
  rw [exec, hp, ok_bind, halloc]
  rfl

/-- The child obtains a page while the parent keeps its own. -/
theorem recycled_iff_kept : ∃ s t s' v, Twins smallKernel EventOk 0 s t ∧
    Obtains s 1 (.allocate 1) v (fun _ => none) ∧ exec smallKernel (.allocate 1) s = .ok s' ∧
    ∃ t', exec smallKernel (.allocate 1) t = .ok t' ∧ t'.spaces = s'.spaces ∧
      (SameLoads s' t' 1 v ↔ ¬ Recycled s t fun _ => none) := by
  have htest : ((storeByte 1).bind fun s => (exec smallKernel (.allocate 1) s).bind fun s' =>
      (storeByte 2).map fun t => s'.spaces.length + t.spaces.length).toOption = some 4 := by
    decide +kernel
  obtain ⟨s, hs, h⟩ := (bind_ok_iff _ _ _).1 (toOption_eq_some.1 htest)
  obtain ⟨s', he, h⟩ := (bind_ok_iff _ _ _).1 h
  obtain ⟨t, ht⟩ : ∃ t, storeByte 2 = .ok t := by
    rcases ht : storeByte 2 with _ | t
    · rw [ht] at h
      cases h
    · exact ⟨t, rfl⟩
  obtain ⟨v, ho⟩ := obtains_of_exec he
  have twins : Twins smallKernel EventOk 0 s t :=
    storeByte_twins (fun _ => trivial) (fun _ => trivial) hs ht
  exact ⟨s, t, s', v, twins, ho, he, recycled_iff twins ho he⟩

/-- **A page with the bytes of its last owner.** The parent releases the page in which it has stored
a byte, and the child loads this byte from the page it obtains. -/
theorem recycled_leak : ¬ ∀ lay a j s t e v own s' t', j ≠ a → Twins lay (fun _ _ => True) a s t →
    Obtains s j e v own → exec lay e s = .ok s' → exec lay e t = .ok t' → SameLoads s' t' j v := by
  intro hall
  have h₁ : (loadReleased 1).toOption.map (fun x => (x.1, x.2.1)) = some (1, 0x400000) := by
    decide +kernel
  have h₂ : (loadReleased 2).toOption.map (fun x => (x.1, x.2.1)) = some (2, 0x400000) := by
    decide +kernel
  obtain ⟨⟨c, va, s, s'⟩, hs, heq⟩ := Option.map_eq_some_iff.1 h₁
  obtain ⟨rfl, rfl⟩ := Prod.mk.inj heq
  obtain ⟨⟨c', va', t, t'⟩, ht, heq'⟩ := Option.map_eq_some_iff.1 h₂
  obtain ⟨rfl, rfl⟩ := Prod.mk.inj heq'
  obtain ⟨⟨s₀, hstore, hfree⟩, ho, he, p, hp, hload⟩ := loadReleased_ok (toOption_eq_some.1 hs)
  obtain ⟨⟨t₀, hstore', hfree'⟩, -, he', q, hq, hload'⟩ := loadReleased_ok (toOption_eq_some.1 ht)
  have twins : Twins smallKernel (fun _ _ => True) 0 s t :=
    (storeByte_twins (fun _ => trivial) (fun _ => trivial) hstore hstore').step trivial hfree hfree'
  have hsame := hall _ _ _ _ _ _ _ _ _ _ (by decide) twins ho he he' p hp q hq 0x400008
    (by decide) 0
  have hone := (hsame 1).1 hload
  rw [hload'] at hone
  cases hone

end HustOS.Mm
