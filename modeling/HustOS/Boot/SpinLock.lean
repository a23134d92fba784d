import Mathlib.Data.Fin.Basic
import Mathlib.Logic.Function.Basic
import Mathlib.Tactic.Common

/-!
# The spin lock of the host interface

`spinlock_lock` and `spinlock_unlock` of `spike_interface/atomic.h`: any number of harts, one access
to the lock at a time. `spinlock_lock` loads the lock until it is zero, and then swaps it for -1
with `atomic_swap`. The swap is a load and a store; `disable_irqsave`, which stands around them,
does nothing. Two things can come between them. A second hart may load the same zero, and both
enter. Or the hart that is inside gives the lock back, and the store takes it for nobody: no hart
enters any more. The lock excludes and stays usable as long as neither happens (`spinlock_of_run`).
-/

namespace HustOS.Boot.SpinLock

variable {n : ℕ}

/-! ## The accesses -/

/-- Where a hart is. -/
inductive Pc
  /-- In front of the loop of `spinlock_lock`, or in it. -/
  | out
  /-- The loop has loaded a zero. -/
  | zero
  /-- In `atomic_swap`, behind the load of `res`. -/
  | loaded (res : ℤ)
  /-- Past `spinlock_lock` and not yet past `spinlock_unlock`. -/
  | inside
  deriving DecidableEq

/-- The lock and the harts. -/
structure Harts (n : ℕ) where
  lock : ℤ
  pc : Fin n → Pc

namespace Harts

/-- The lock holds `x`, and the hart `h` goes on at `pc`. -/
def goto (x : ℤ) (pc : Pc) (h : Fin n) (s : Harts n) : Harts n where
  lock := x
  pc := Function.update s.pc h pc

/-- The next access of the hart `h` to the lock. What it does inside does not touch the lock. -/
def step (h : Fin n) (s : Harts n) : Harts n :=
  match s.pc h with
  | .out => s.goto s.lock (if s.lock = 0 then .zero else .out) h
  | .zero => s.goto s.lock (.loaded s.lock) h
  | .loaded res => s.goto (-1) (if res = 0 then .inside else .out) h
  | .inside => s.goto 0 .out h

/-- `SPINLOCK_INIT`, and all harts are outside. -/
def start (n : ℕ) : Harts n where
  lock := 0
  pc _ := .out

/-- The harts of a list have their turns one after the other. -/
def stepAll (s : Harts n) (hs : List (Fin n)) : Harts n := hs.foldl (fun s h => s.step h) s

variable {s : Harts n} {h h' : Fin n} {x : ℤ} {pc : Pc}

@[simp] theorem goto_lock : (s.goto x pc h).lock = x := rfl

@[simp] theorem goto_pc : (s.goto x pc h).pc h = pc := Function.update_self ..

theorem goto_pc_of_ne (hne : h' ≠ h) : (s.goto x pc h).pc h' = s.pc h' :=
  Function.update_of_ne hne ..

theorem step_out (hpc : s.pc h = .out) :
    s.step h = s.goto s.lock (if s.lock = 0 then .zero else .out) h := by
  simp only [step, hpc]

theorem step_zero (hpc : s.pc h = .zero) : s.step h = s.goto s.lock (.loaded s.lock) h := by
  simp only [step, hpc]

theorem step_loaded {res : ℤ} (hpc : s.pc h = .loaded res) :
    s.step h = s.goto (-1) (if res = 0 then .inside else .out) h := by
  simp only [step, hpc]

theorem step_inside (hpc : s.pc h = .inside) : s.step h = s.goto 0 .out h := by
  simp only [step, hpc]

/-- The other harts stay where they are. -/
theorem step_pc_of_ne (hne : h' ≠ h) : (s.step h).pc h' = s.pc h' := by
  rw [step]
  split <;> exact goto_pc_of_ne hne

end Harts

/-- The states of the runs of the harts in any order, where each access satisfies `C`. -/
inductive Run (C : Harts n → Fin n → Prop) : Harts n → Prop
  | start : Run C (Harts.start n)
  | step {s : Harts n} {h : Fin n} (run : Run C s) (cond : C s h) : Run C (s.step h)

/-- At most one hart is inside. -/
def Excludes (s : Harts n) : Prop := ∀ h h', s.pc h = .inside → s.pc h' = .inside → h = h'

/-- The load of the swap comes between the load of a zero and the store of another hart. -/
def Overtakes (s : Harts n) (h : Fin n) : Prop := s.pc h = .zero ∧ ∃ h', s.pc h' = .loaded 0

/-- The hart gives the lock back between the load and the store of another hart. -/
def Loses (s : Harts n) (h : Fin n) : Prop := s.pc h = .inside ∧ ∃ h' res, s.pc h' = .loaded res

/-- The next access of the hart breaks up the swap of another one. -/
def Disturbs (s : Harts n) (h : Fin n) : Prop := Overtakes s h ∨ Loses s h

/-! ## One access -/

variable {s s' : Harts n} {h h' : Fin n}

/-- A hart that is alone at the lock breaks up no swap. -/
theorem not_disturbs_of_out (hout : ∀ h' ≠ h, s.pc h' = .out) : ¬ Disturbs s h := by
  have heq : ∀ h' res, s.pc h' = .loaded res → h' = h := by
    intro h' res hl
    by_contra hne
    rw [hout h' hne] at hl
    cases hl
  rintro (⟨hpc, h', hl⟩ | ⟨hpc, h', res, hl⟩)
  · rw [heq h' 0 hl, hpc] at hl
    cases hl
  · rw [heq h' res hl, hpc] at hl
    cases hl

/-- The hart is inside, or its store is next and brings it there. -/
def Takes (s : Harts n) (h : Fin n) : Prop := s.pc h = .inside ∨ s.pc h = .loaded 0

/-- What holds while nobody disturbs a swap. -/
structure Ok (s : Harts n) : Prop where
  one : ∀ h h', Takes s h → Takes s h' → h = h'
  held : ∀ h, s.pc h = .inside → s.lock = -1
  free : (∀ h, s.pc h ≠ .inside) → s.lock = 0
  busy : ∀ h res, s.pc h = .loaded res → res ≠ 0 → ∃ h', s.pc h' = .inside

theorem Ok.lock_eq_zero (ok : Ok s) (hl : s.pc h = .loaded 0) : s.lock = 0 := by
  refine ok.free fun h' hi => ?_
  obtain rfl := ok.one h h' (.inr hl) (.inl hi)
  rw [hl] at hi
  cases hi

/-- `Ok` depends on the lock, on who is inside and on the loads only. -/
theorem Ok.congr (ok : Ok s) (hlock : s'.lock = s.lock)
    (hin : ∀ h', s'.pc h' = .inside ↔ s.pc h' = .inside)
    (hload : ∀ h' res, s'.pc h' = .loaded res → s.pc h' = .loaded res) : Ok s' where
  one h h' ht ht' := ok.one h h' (ht.imp (hin h).1 (hload h 0)) (ht'.imp (hin h').1 (hload h' 0))
  held h' hi := hlock.trans (ok.held h' ((hin h').1 hi))
  free hall := hlock.trans (ok.free fun h' hi => hall h' ((hin h').2 hi))
  busy h' res hl hres :=
    (ok.busy h' res (hload h' res hl) hres).imp fun h'' hi => (hin h'').2 hi

theorem Ok.step_out (ok : Ok s) (hpc : s.pc h = .out) : Ok (s.step h) := by
  have hself : (s.step h).pc h = .zero ∨ (s.step h).pc h = .out := by
    rw [Harts.step_out hpc, Harts.goto_pc]
    split
    · exact .inl rfl
    · exact .inr rfl
  refine ok.congr (by rw [Harts.step_out hpc, Harts.goto_lock]) (fun h' => ?_) fun h' res hl => ?_
  · by_cases hh : h' = h
    · subst hh
      rcases hself with he | he <;> simp [he, hpc]
    · rw [Harts.step_pc_of_ne hh]
  · by_cases hh : h' = h
    · subst hh
      rcases hself with he | he <;> simp [he] at hl
    · rwa [Harts.step_pc_of_ne hh] at hl

/-- The load of the swap: it loads a zero only if nobody else has. -/
theorem Ok.step_zero (ok : Ok s) (hno : ¬ Overtakes s h) (hpc : s.pc h = .zero) :
    Ok (s.step h) := by
  have hne : ∀ h', Takes s h' → h' ≠ h := by
    rintro h' ht rfl
    rcases ht with hi | hl
    · rw [hpc] at hi
      cases hi
    · rw [hpc] at hl
      cases hl
  have hin : ∀ h', (s.step h).pc h' = .inside ↔ s.pc h' = .inside := by
    intro h'
    by_cases hh : h' = h
    · subst hh
      rw [Harts.step_zero hpc, Harts.goto_pc, hpc]
      simp
    · rw [Harts.step_pc_of_ne hh]
  have hself : (s.step h).pc h = .loaded s.lock := by rw [Harts.step_zero hpc, Harts.goto_pc]
  have hlock : (s.step h).lock = s.lock := by rw [Harts.step_zero hpc, Harts.goto_lock]
  have hbusy : s.lock ≠ 0 → ∃ h', s.pc h' = .inside := by
    intro hl
    by_contra hall
    exact hl (ok.free fun h' hi => hall ⟨h', hi⟩)
  have htakes : ∀ h', Takes (s.step h) h' → h' ≠ h → Takes s h' := by
    intro h' ht hh
    rwa [Takes, Harts.step_pc_of_ne hh] at ht
  refine ⟨?_, fun h' hi => ?_, fun hall => ?_, fun h' res hl hres => ?_⟩
  · by_cases hz : s.lock = 0
    · -- nobody else is inside or has loaded a zero
      have heq : ∀ h', Takes (s.step h) h' → h' = h := by
        intro h' ht
        by_contra hh
        rcases htakes h' ht hh with hi | hl
        · have := ok.held h' hi
          omega
        · exact hno ⟨hpc, h', hl⟩
      intro h₁ h₂ ht₁ ht₂
      rw [heq h₁ ht₁, heq h₂ ht₂]
    · have hnot : ∀ h', Takes (s.step h) h' → h' ≠ h := by
        rintro h' ht rfl
        rcases ht with hi | hl
        · rw [hself] at hi
          cases hi
        · rw [hself] at hl
          exact hz (Pc.loaded.inj hl)
      intro h₁ h₂ ht₁ ht₂
      exact ok.one h₁ h₂ (htakes h₁ ht₁ (hnot h₁ ht₁)) (htakes h₂ ht₂ (hnot h₂ ht₂))
  · exact hlock.trans (ok.held h' ((hin h').1 hi))
  · exact hlock.trans (ok.free fun h' hi => hall h' ((hin h').2 hi))
  · have hex : ∃ h'', s.pc h'' = .inside := by
      by_cases hh : h' = h
      · subst hh
        rw [hself] at hl
        exact hbusy (Pc.loaded.inj hl ▸ hres)
      · rw [Harts.step_pc_of_ne hh] at hl
        exact ok.busy h' res hl hres
    exact hex.imp fun h'' hi => (hin h'').2 hi

/-- The store of the swap. -/
theorem Ok.step_loaded (ok : Ok s) {res : ℤ} (hpc : s.pc h = .loaded res) : Ok (s.step h) := by
  by_cases hres : res = 0
  · subst hres
    have he : s.step h = s.goto (-1) .inside h := by rw [Harts.step_loaded hpc, if_pos rfl]
    have hself : (s.step h).pc h = .inside := by rw [he, Harts.goto_pc]
    have heq : ∀ h', Takes (s.step h) h' → h' = h := by
      intro h' ht
      by_contra hh
      rw [Takes, Harts.step_pc_of_ne hh] at ht
      exact hh (ok.one h' h ht (.inr hpc))
    refine ⟨fun h₁ h₂ ht₁ ht₂ => ?_, fun _ _ => ?_, fun hall => ?_, fun _ _ _ _ => ⟨h, hself⟩⟩
    · rw [heq h₁ ht₁, heq h₂ ht₂]
    · rw [he, Harts.goto_lock]
    · exact absurd hself (hall h)
  · -- the lock was taken when it was loaded, and still is
    obtain ⟨h₀, hi₀⟩ := ok.busy h res hpc hres
    have he : s.step h = s.goto (-1) .out h := by rw [Harts.step_loaded hpc, if_neg hres]
    refine ok.congr ?_ (fun h' => ?_) fun h' res' hl => ?_
    · rw [he, Harts.goto_lock, ok.held h₀ hi₀]
    · by_cases hh : h' = h
      · subst hh
        rw [he, Harts.goto_pc, hpc]
        simp
      · rw [Harts.step_pc_of_ne hh]
    · by_cases hh : h' = h
      · subst hh
        rw [he, Harts.goto_pc] at hl
        cases hl
      · rwa [Harts.step_pc_of_ne hh] at hl

/-- The store of `spinlock_unlock`, while nobody is in the middle of a swap. -/
theorem Ok.step_inside (ok : Ok s) (hno : ¬ Loses s h) (hpc : s.pc h = .inside) :
    Ok (s.step h) := by
  have he : s.step h = s.goto 0 .out h := Harts.step_inside hpc
  have hself : (s.step h).pc h = .out := by rw [he, Harts.goto_pc]
  have hout : ∀ h', (s.step h).pc h' ≠ .inside := by
    intro h' hi
    by_cases hh : h' = h
    · rw [hh, hself] at hi
      cases hi
    · rw [Harts.step_pc_of_ne hh] at hi
      exact hh (ok.one h' h (.inl hi) (.inl hpc))
  have hload : ∀ h' res, (s.step h).pc h' ≠ .loaded res := by
    intro h' res hl
    by_cases hh : h' = h
    · rw [hh, hself] at hl
      cases hl
    · rw [Harts.step_pc_of_ne hh] at hl
      exact hno ⟨hpc, h', res, hl⟩
  refine ⟨fun h₁ _ ht _ => ?_, fun h' hi => absurd hi (hout h'), fun _ => ?_,
    fun h' res hl => absurd hl (hload h' res)⟩
  · rcases ht with hi | hl
    · exact absurd hi (hout h₁)
    · exact absurd hl (hload h₁ 0)
  · rw [he, Harts.goto_lock]

theorem Ok.step (ok : Ok s) (hno : ¬ Disturbs s h) : Ok (s.step h) := by
  cases hpc : s.pc h with
  | out => exact ok.step_out hpc
  | zero => exact ok.step_zero (fun ho => hno (.inl ho)) hpc
  | loaded res => exact ok.step_loaded hpc
  | inside => exact ok.step_inside (fun hl => hno (.inr hl)) hpc

/-! ## Swaps that are broken up -/

/-- A hart that overtakes enters together with the one it has overtaken. -/
theorem Overtakes.enters (ok : Ok s) (ho : Overtakes s h) :
    ∃ h', ¬ Excludes (((s.step h).step h').step h) := by
  obtain ⟨hpc, h', hl⟩ := ho
  have hne : h' ≠ h := by
    rintro rfl
    rw [hpc] at hl
    cases hl
  have hstore : ∀ {t : Harts n} {k : Fin n}, t.pc k = .loaded 0 → (t.step k).pc k = .inside := by
    intro t k hk
    rw [Harts.step_loaded hk, Harts.goto_pc, if_pos rfl]
  have hload : (s.step h).pc h = .loaded 0 := by
    rw [Harts.step_zero hpc, Harts.goto_pc, ok.lock_eq_zero hl]
  have hi' : ((s.step h).step h').pc h' = .inside :=
    hstore (by rw [Harts.step_pc_of_ne hne, hl])
  refine ⟨h', fun hex => hne (hex h' h ?_ (hstore ?_))⟩
  · rw [Harts.step_pc_of_ne hne, hi']
  · rw [Harts.step_pc_of_ne hne.symm, hload]

/-- The lock is taken, and no hart has it or is about to get it. -/
def Lost (s : Harts n) : Prop := s.lock = -1 ∧ ∀ h, ¬ Takes s h

theorem Lost.step (hl : Lost s) : Lost (s.step h) := by
  obtain ⟨hlock, hnot⟩ := hl
  have hgoto : ∀ {pc}, pc ≠ .inside → pc ≠ .loaded 0 → Lost (s.goto (-1) pc h) := by
    intro pc hi hz
    refine ⟨rfl, fun h' => ?_⟩
    by_cases hh : h' = h
    · subst hh
      rw [Takes, Harts.goto_pc]
      exact not_or.2 ⟨hi, hz⟩
    · rw [Takes, Harts.goto_pc_of_ne hh]
      exact hnot h'
  cases hpc : s.pc h with
  | out =>
    rw [Harts.step_out hpc, hlock]
    exact hgoto (by simp) (by simp)
  | zero =>
    rw [Harts.step_zero hpc, hlock]
    exact hgoto (by simp) (by simp)
  | loaded res =>
    have hres : res ≠ 0 := by
      rintro rfl
      exact hnot h (.inr hpc)
    rw [Harts.step_loaded hpc, if_neg hres]
    exact hgoto (by simp) (by simp)
  | inside => exact absurd (.inl hpc) (hnot h)

theorem Lost.stepAll (hl : Lost s) (hs : List (Fin n)) : Lost (s.stepAll hs) := by
  induction hs generalizing s with
  | nil => exact hl
  | cons h hs ih => exact ih hl.step

/-- The store behind a lock that was given back takes it for nobody. -/
theorem Loses.lost (ok : Ok s) (hl : Loses s h) : ∃ h', Lost ((s.step h).step h') := by
  obtain ⟨hpc, h', res, hl'⟩ := hl
  have hne : h' ≠ h := by
    rintro rfl
    rw [hpc] at hl'
    cases hl'
  have hres : res ≠ 0 := by
    rintro rfl
    exact hne (ok.one h' h (.inr hl') (.inl hpc))
  have hself : (s.step h).pc h = .out := by rw [Harts.step_inside hpc, Harts.goto_pc]
  have hl₁ : (s.step h).pc h' = .loaded res := by rw [Harts.step_pc_of_ne hne, hl']
  have he : (s.step h).step h' = (s.step h).goto (-1) .out h' := by
    rw [Harts.step_loaded hl₁, if_neg hres]
  refine ⟨h', ?_⟩
  rw [he]
  refine ⟨rfl, fun h'' ht => ?_⟩
  by_cases hh : h'' = h'
  · subst hh
    rw [Takes, Harts.goto_pc] at ht
    simp at ht
  · rw [Takes, Harts.goto_pc_of_ne hh] at ht
    by_cases hh' : h'' = h
    · subst hh'
      rw [hself] at ht
      simp at ht
    · rw [Harts.step_pc_of_ne hh'] at ht
      exact hh' (ok.one h'' h ht (.inl hpc))

/-! ## Runs -/

theorem ok_start : Ok (Harts.start n) where
  one _ _ ht := by simp [Takes, Harts.start] at ht
  held _ hi := by cases hi
  free _ := rfl
  busy _ _ hl := by cases hl

theorem Run.ok (run : Run (fun s h => ¬ Disturbs s h) s) : Ok s := by
  induction run with
  | start => exact ok_start
  | step _ cond ih => exact ih.step cond

/-- **The spin lock.** In every run in which no access breaks up the swap of another hart, at most
one hart is inside, and the lock is free exactly if nobody is. A load that breaks up a swap lets
both harts in; an unlock that does so lets nobody in any more, whatever the harts do. -/
theorem spinlock_of_run (run : Run (fun s h => ¬ Disturbs s h) s) :
    Excludes s ∧ (s.lock = 0 ↔ ∀ h, s.pc h ≠ .inside) ∧
    (∀ h, Overtakes s h → ∃ h', ¬ Excludes (((s.step h).step h').step h)) ∧
    ∀ h, Loses s h → ∃ h', ∀ hs h'', (((s.step h).step h').stepAll hs).pc h'' ≠ .inside := by
  refine ⟨fun h h' hi hi' => run.ok.one h h' (.inl hi) (.inl hi'),
    ⟨fun hz h hi => ?_, run.ok.free⟩, fun _ ho => ho.enters run.ok, fun h hl => ?_⟩
  · have := run.ok.held h hi
    omega
  · obtain ⟨h', hlost⟩ := hl.lost run.ok
    exact ⟨h', fun hs h'' hi => (hlost.stepAll hs).2 h'' (.inl hi)⟩

/-- The first of two harts is inside. -/
theorem spinlock_of_run_one : ∃ s : Harts 2, Run (fun s h => ¬ Disturbs s h) s ∧
    s.pc 0 = .inside ∧ Excludes s := by
  have hno : ∀ s : Harts 2, s.pc 1 = .out → ¬ Disturbs s 0 := by
    intro s hout
    refine not_disturbs_of_out fun h' hne => ?_
    obtain rfl : h' = 1 := by omega
    exact hout
  have run : Run (fun s h => ¬ Disturbs s h) ((((Harts.start 2).step 0).step 0).step 0) :=
    .step (.step (.step .start (hno _ rfl)) (hno _ rfl)) (hno _ rfl)
  exact ⟨_, run, by decide, (spinlock_of_run run).1⟩

end HustOS.Boot.SpinLock
