import Mathlib.Data.Fin.Basic
import Mathlib.Logic.Function.Basic
import Mathlib.Tactic.Common

/-!
# The kernel lock

`sem_P` and `sem_V` of `kernel/sync_utils.h` on a counter that starts with one, as `alloc_page`,
`alloc_two_page` and `alloc_process` use them: any number of harts, one instruction at a time.
`sem_P` loads the counter until it is positive and then takes one off it with an atomic addition.
The load and the addition are two instructions, so a second hart may load the same positive value
between them and enter too. The lock excludes exactly as long as this does not happen
(`excludes_of_run`).
-/

namespace HustOS.Proc.Lock

variable {n : ℕ}

/-! ## The instructions -/

/-- Where a hart is. -/
inductive Pc
  /-- Before `sem_P`. -/
  | out
  /-- In `sem_P`, behind an `lw` that has loaded `local`. -/
  | loaded (loc : BitVec 32)
  /-- Past `sem_P` and not yet past `sem_V`. -/
  | inside
  deriving DecidableEq

/-- The counter and the harts. -/
structure Harts (n : ℕ) where
  semaphore : BitVec 32
  pc : Fin n → Pc

namespace Harts

/-- The hart `h` loads the counter. -/
def lw (h : Fin n) (s : Harts n) : Harts n :=
  { s with pc := Function.update s.pc h (.loaded s.semaphore) }

/-- The hart `h` adds `x` to the counter and goes on at `pc`. -/
def amoadd (x : BitVec 32) (pc : Pc) (h : Fin n) (s : Harts n) : Harts n where
  semaphore := s.semaphore + x
  pc := Function.update s.pc h pc

/-- The next instruction of the hart `h` on the counter. What it does inside does not touch the
counter. -/
def step (h : Fin n) (s : Harts n) : Harts n :=
  match s.pc h with
  | .out => s.lw h
  | .loaded loc => if loc.toInt ≤ 0 then s.lw h else s.amoadd (-1) .inside h
  | .inside => s.amoadd 1 .out h

@[simp] theorem lw_pc (h : Fin n) (s : Harts n) : (s.lw h).pc h = .loaded s.semaphore :=
  Function.update_self ..

@[simp] theorem amoadd_pc (x : BitVec 32) (pc : Pc) (h : Fin n) (s : Harts n) :
    (s.amoadd x pc h).pc h = pc :=
  Function.update_self ..

@[simp] theorem lw_semaphore (h : Fin n) (s : Harts n) : (s.lw h).semaphore = s.semaphore := rfl

@[simp] theorem amoadd_semaphore (x : BitVec 32) (pc : Pc) (h : Fin n) (s : Harts n) :
    (s.amoadd x pc h).semaphore = s.semaphore + x := rfl

/-- The counter is free, and all harts are outside. -/
def start (n : ℕ) : Harts n where
  semaphore := 1
  pc _ := .out

end Harts

/-- The states of the runs of the harts in any order, where each instruction satisfies `C`. -/
inductive Run (C : Harts n → Fin n → Prop) : Harts n → Prop
  | start : Run C (Harts.start n)
  | step {s : Harts n} {h : Fin n} (run : Run C s) (cond : C s h) : Run C (s.step h)

/-- At most one hart is inside. -/
def Excludes (s : Harts n) : Prop := ∀ h h', s.pc h = .inside → s.pc h' = .inside → h = h'

/-- The hart has loaded a positive counter and its addition is next. -/
def Passed (s : Harts n) (h : Fin n) : Prop := ∃ loc, s.pc h = .loaded loc ∧ 0 < loc.toInt

/-- The next instruction of the hart `h` loads a positive counter while another hart is between its
load and its addition. -/
def Overtakes (s : Harts n) (h : Fin n) : Prop :=
  s.pc h ≠ .inside ∧ ¬ Passed s h ∧ 0 < s.semaphore.toInt ∧ ∃ h', Passed s h'

/-! ## One instruction -/

variable {s : Harts n} {h h' : Fin n}

/-- The three instructions on the counter. -/
theorem step_cases (s : Harts n) (h : Fin n) :
    (s.pc h ≠ .inside ∧ ¬ Passed s h ∧ s.step h = s.lw h) ∨
    (Passed s h ∧ s.step h = s.amoadd (-1) .inside h) ∨
    (s.pc h = .inside ∧ s.step h = s.amoadd 1 .out h) := by
  rw [Harts.step]
  cases hpc : s.pc h with
  | out => exact .inl ⟨nofun, fun ⟨_, hl, _⟩ => by simp [hpc] at hl, rfl⟩
  | loaded loc =>
    by_cases hloc : loc.toInt ≤ 0
    · refine .inl ⟨nofun, ?_, if_pos hloc⟩
      rintro ⟨loc', hl, hpos⟩
      obtain rfl := Pc.loaded.inj (hpc.symm.trans hl)
      omega
    · exact .inr (.inl ⟨⟨loc, hpc, by omega⟩, if_neg hloc⟩)
  | inside => exact .inr (.inr ⟨rfl, rfl⟩)

/-- The hart has passed the test of `sem_P` and is not past `sem_V`. -/
def Engaged (s : Harts n) (h : Fin n) : Prop := Passed s h ∨ s.pc h = .inside

/-- What holds while nobody overtakes. -/
structure Ok (s : Harts n) : Prop where
  one : ∀ h h', Engaged s h → Engaged s h' → h = h'
  free : (∀ h, s.pc h ≠ .inside) → s.semaphore = 1
  taken : ∀ h, s.pc h = .inside → s.semaphore = 0

/-- The other harts stay where they are. -/
theorem step_pc_of_ne (hne : h' ≠ h) : (s.step h).pc h' = s.pc h' := by
  rcases step_cases s h with ⟨-, -, e⟩ | ⟨-, e⟩ | ⟨-, e⟩ <;>
    · rw [e]
      exact Function.update_of_ne hne _ _

theorem engaged_step_of_ne (hne : h' ≠ h) : Engaged (s.step h) h' ↔ Engaged s h' := by
  rw [Engaged, Engaged, Passed, Passed, step_pc_of_ne hne]

/-- If the hart `h` is engaged after its instruction, and nobody else was, then it is the only
one. -/
theorem one_step (hother : ∀ h', Engaged s h' → h' = h) :
    ∀ h₁ h₂, Engaged (s.step h) h₁ → Engaged (s.step h) h₂ → h₁ = h₂ := by
  have heq : ∀ h', Engaged (s.step h) h' → h' = h := by
    intro h' he
    by_contra hne
    exact hne (hother h' ((engaged_step_of_ne hne).1 he))
  intro h₁ h₂ he₁ he₂
  rw [heq h₁ he₁, heq h₂ he₂]

/-- A load: the hart passes the test only if nobody else has. -/
theorem Ok.step_lw (ok : Ok s) (hno : ¬ Overtakes s h) (hin : s.pc h ≠ .inside)
    (hpass : ¬ Passed s h) (e : s.step h = s.lw h) : Ok (s.step h) := by
  have hpc : ∀ h', (s.step h).pc h' = .inside ↔ s.pc h' = .inside := by
    intro h'
    by_cases hh : h' = h
    · subst hh
      rw [e, Harts.lw_pc]
      simp [hin]
    · rw [step_pc_of_ne hh]
  have hsem : (s.step h).semaphore = s.semaphore := by rw [e, Harts.lw_semaphore]
  refine ⟨?_, fun hall => ?_, fun h' hh' => ?_⟩
  · by_cases hpos : 0 < s.semaphore.toInt
    · refine one_step fun h' he => ?_
      rcases he with hp | hi
      · exact absurd ⟨hin, hpass, hpos, h', hp⟩ hno
      · rw [ok.taken h' hi] at hpos
        exact absurd hpos (by decide)
    · have hout : ¬ Engaged (s.step h) h := by
        rintro (⟨loc, hl, hloc⟩ | hi)
        · rw [e, Harts.lw_pc] at hl
          obtain rfl := Pc.loaded.inj hl
          exact hpos hloc
        · exact hin ((hpc h).1 hi)
      intro h₁ h₂ he₁ he₂
      have hne₁ : h₁ ≠ h := fun heq => hout (heq ▸ he₁)
      have hne₂ : h₂ ≠ h := fun heq => hout (heq ▸ he₂)
      exact ok.one h₁ h₂ ((engaged_step_of_ne hne₁).1 he₁) ((engaged_step_of_ne hne₂).1 he₂)
  · rw [hsem]
    exact ok.free fun h' hi => hall h' ((hpc h').2 hi)
  · rw [hsem]
    exact ok.taken h' ((hpc h').1 hh')

theorem Ok.step (ok : Ok s) (hno : ¬ Overtakes s h) : Ok (s.step h) := by
  rcases step_cases s h with ⟨hin, hpass, e⟩ | ⟨hpass, e⟩ | ⟨hin, e⟩
  · exact ok.step_lw hno hin hpass e
  · -- nobody is inside, since the hart is the only one that is engaged
    have hother : ∀ h', Engaged s h' → h' = h := fun h' he => ok.one h' h he (.inl hpass)
    have hout : ∀ h', s.pc h' ≠ .inside := by
      intro h' hi
      obtain rfl := hother h' (.inr hi)
      obtain ⟨loc, hl, -⟩ := hpass
      rw [hi] at hl
      cases hl
    have hsem : (s.step h).semaphore = 0 := by
      rw [e, Harts.amoadd_semaphore, ok.free hout]
      decide
    refine ⟨one_step hother, fun hall => ?_, fun _ _ => hsem⟩
    exact absurd (by rw [e, Harts.amoadd_pc]) (hall h)
  · have hother : ∀ h', Engaged s h' → h' = h := fun h' he => ok.one h' h he (.inr hin)
    have hsem : (s.step h).semaphore = 1 := by
      rw [e, Harts.amoadd_semaphore, ok.taken h hin]
      decide
    refine ⟨one_step hother, fun _ => hsem, fun h' hi => ?_⟩
    by_cases hh : h' = h
    · rw [hh, e, Harts.amoadd_pc] at hi
      cases hi
    · rw [step_pc_of_ne hh] at hi
      exact absurd (hother h' (.inr hi)) hh

/-! ## Runs -/

theorem Run.ok (run : Run (fun s h => ¬ Overtakes s h) s) : Ok s := by
  induction run with
  | start =>
    refine ⟨fun h h' he => ?_, fun _ => rfl, nofun⟩
    rcases he with ⟨_, hl, _⟩ | hi
    · cases hl
    · cases hi
  | step _ cond ih => exact ih.step cond

/-- After an addition the hart is inside. -/
theorem step_of_passed (hp : Passed s h) : (s.step h).pc h = .inside := by
  rcases step_cases s h with ⟨-, hpass, -⟩ | ⟨-, e⟩ | ⟨hin, -⟩
  · exact absurd hp hpass
  · rw [e, Harts.amoadd_pc]
  · obtain ⟨loc, hl, -⟩ := hp
    rw [hin] at hl
    cases hl

/-- A hart that overtakes enters together with the one it has overtaken. -/
theorem Overtakes.enters (ho : Overtakes s h) :
    ∃ h', ¬ Excludes (((s.step h).step h').step h) := by
  obtain ⟨hin, hpass, hpos, h', hp'⟩ := ho
  have hne : h' ≠ h := by
    rintro rfl
    exact hpass hp'
  have e : s.step h = s.lw h := by
    rcases step_cases s h with ⟨-, -, e⟩ | ⟨hp, -⟩ | ⟨hi, -⟩
    · exact e
    · exact absurd hp hpass
    · exact absurd hi hin
  have hp : Passed ((s.step h).step h') h := by
    refine ⟨s.semaphore, ?_, hpos⟩
    rw [step_pc_of_ne hne.symm, e, Harts.lw_pc]
  have hi' : ((s.step h).step h').pc h' = .inside := by
    obtain ⟨loc, hl, hloc⟩ := hp'
    exact step_of_passed ⟨loc, by rw [step_pc_of_ne hne, hl], hloc⟩
  refine ⟨h', fun hex => hne ?_⟩
  refine hex h' h ?_ (step_of_passed hp)
  rw [step_pc_of_ne hne, hi']

/-- **The kernel lock.** In every run in which no hart loads a positive counter between the load and
the addition of another one, at most one hart is inside; and a hart that does so is inside together
with the other one two instructions later. -/
theorem excludes_of_run (run : Run (fun s h => ¬ Overtakes s h) s) :
    Excludes s ∧ ∀ h, Overtakes s h → ∃ h', ¬ Excludes (((s.step h).step h').step h) :=
  ⟨fun h h' hi hi' => run.ok.one h h' (.inr hi) (.inr hi'), fun _ ho => ho.enters⟩

/-- The first of two harts is inside. -/
theorem excludes_of_run_one : ∃ s : Harts 2, Run (fun s h => ¬ Overtakes s h) s ∧
    s.pc 0 = .inside ∧ Excludes s := by
  have hno : ∀ s : Harts 2, (∀ h, ¬ Passed s h) → ¬ Overtakes s 0 := by
    rintro s hs ⟨-, -, -, h', hp⟩
    exact hs h' hp
  have run₁ : Run (fun s h => ¬ Overtakes s h) ((Harts.start 2).step 0) :=
    .step .start (hno _ fun h ⟨_, hl, _⟩ => nomatch hl)
  have hpass : Passed ((Harts.start 2).step 0) 0 := ⟨1, rfl, by decide⟩
  have run₂ := run₁.step (h := 0) fun ho => ho.2.1 hpass
  exact ⟨_, run₂, step_of_passed hpass, (excludes_of_run run₂).1⟩

/-- **Two harts inside.** Both load the counter before either of them adds to it. -/
theorem excludes_lost : ¬ ∀ n ≥ 2, ∀ s : Harts n, Run (fun _ _ => True) s → Excludes s := by
  intro hall
  have run : Run (fun _ _ => True) (((((Harts.start 2).step 0).step 1).step 0).step 1) :=
    .step (.step (.step (.step .start trivial) trivial) trivial) trivial
  have h := hall 2 (le_refl 2) _ run 0 1 (by decide) (by decide)
  exact absurd h (by decide)

end HustOS.Proc.Lock
