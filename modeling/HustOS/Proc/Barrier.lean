import Mathlib.Data.Fintype.Card
import Mathlib.Data.Fintype.Fin
import Mathlib.Logic.Function.Iterate
import Mathlib.Order.Filter.AtTopBot.Basic
import Mathlib.Order.Filter.Finite
import Mathlib.Tactic.Common
import Mathlib.Tactic.FinCases

/-!
# The barriers of the boot code

`sync_barrier` of `kernel/sync_utils.h`: a hart adds one to a counter and, unless it is the last one
to do so, loads the counter until it has reached the number of harts. `m_start` waits at `count`
while the first hart sets up the host interface and reads the device tree, and `s_start` waits at
`barrier` while the first hart sets up the memory, the kernel page table, the processes and the file
systems.

Any number of harts goes through a number of barriers, each with its own counter, one instruction on
a counter at a time. In every order of the instructions no hart leaves a barrier before all harts
have arrived at it (`arrived_of_passed`). And no hart waits for ever: if each hart has its turn
again and again, each hart comes through all barriers (`passes_all`).
-/

namespace HustOS.Proc.Barrier

variable {n m : ℕ}

/-! ## The instructions -/

/-- Where a hart is. -/
inductive Pc
  /-- Before the barrier `k`. -/
  | work (k : ℕ)
  /-- At the barrier `k`, behind the `amoadd` that has returned `local`. -/
  | added (k : ℕ) (loc : BitVec 32)
  /-- At the barrier `k`, behind an `lw` that has loaded `local`. -/
  | loaded (k : ℕ) (loc : BitVec 32)
  deriving DecidableEq

/-- The counters and the harts. -/
structure Harts (n : ℕ) where
  counter : ℕ → BitVec 32
  pc : Fin n → Pc

namespace Harts

/-- The hart `h` goes on at `pc`. -/
def goto (pc : Pc) (h : Fin n) (s : Harts n) : Harts n := { s with pc := Function.update s.pc h pc }

/-- The hart `h` adds one to the counter of the barrier `k`. -/
def amoadd (k : ℕ) (h : Fin n) (s : Harts n) : Harts n where
  counter := Function.update s.counter k (s.counter k + 1)
  pc := Function.update s.pc h (.added k (s.counter k))

/-- The hart `h` loads the counter of the barrier `k`. -/
def lw (k : ℕ) (h : Fin n) (s : Harts n) : Harts n := s.goto (.loaded k (s.counter k)) h

/-- The next instruction of the hart `h` in `sync_barrier(counter, n)`, for `m` barriers one behind
the other. What it does between them does not touch their counters. -/
def step (m : ℕ) (s : Harts n) (h : Fin n) : Harts n :=
  match s.pc h with
  | .work k => if k < m then s.amoadd k h else s
  | .added k loc =>
    if (loc + 1).toInt < (BitVec.ofNat 32 n).toInt then s.lw k h else s.goto (.work (k + 1)) h
  | .loaded k loc =>
    if loc.toInt < (BitVec.ofNat 32 n).toInt then s.lw k h else s.goto (.work (k + 1)) h

/-- No hart has started, and the counters are zero. -/
def start (n : ℕ) : Harts n := ⟨fun _ => 0, fun _ => .work 0⟩

/-- The state after `t` instructions, of the harts in the order of the schedule. -/
def run (m : ℕ) (schedule : ℕ → Fin n) : ℕ → Harts n
  | 0 => start n
  | t + 1 => (run m schedule t).step m (schedule t)

end Harts

/-- The hart has added to the counter of the barrier `k`. -/
def Pc.Arrived (k : ℕ) : Pc → Prop
  | .work j => k < j
  | .added j _ => k ≤ j
  | .loaded j _ => k ≤ j

instance (k : ℕ) : DecidablePred (Pc.Arrived k)
  | .work j => inferInstanceAs (Decidable (k < j))
  | .added j _ => inferInstanceAs (Decidable (k ≤ j))
  | .loaded j _ => inferInstanceAs (Decidable (k ≤ j))

/-- The number of barriers behind the hart. -/
def Pc.stage : Pc → ℕ
  | .work j => j
  | .added j _ => j
  | .loaded j _ => j

/-- The harts that have arrived at the barrier `k`. -/
def Harts.arrived (s : Harts n) (k : ℕ) : Finset (Fin n) := {h | (s.pc h).Arrived k}

/-! ## One instruction -/

variable {s : Harts n} {h h' : Fin n} {k : ℕ}

/-- The three instructions, and a hart that has come through all barriers. -/
theorem step_cases (m : ℕ) (s : Harts n) (h : Fin n) :
    (∃ k, s.pc h = .work k ∧ m ≤ k ∧ s.step m h = s) ∨
    (∃ k, s.pc h = .work k ∧ k < m ∧ s.step m h = s.amoadd k h) ∨
    (∃ k, (s.pc h).stage = k ∧ (s.pc h).Arrived k ∧ s.step m h = s.lw k h) ∨
    (∃ k loc, (s.pc h = .added k loc ∧ ¬ (loc + 1).toInt < (BitVec.ofNat 32 n).toInt ∨
      s.pc h = .loaded k loc ∧ ¬ loc.toInt < (BitVec.ofNat 32 n).toInt) ∧
      s.step m h = s.goto (.work (k + 1)) h) := by
  rw [Harts.step]
  cases hpc : s.pc h with
  | work k =>
    by_cases hk : k < m
    · exact .inr (.inl ⟨k, rfl, hk, if_pos hk⟩)
    · exact .inl ⟨k, rfl, not_lt.1 hk, if_neg hk⟩
  | added k loc =>
    by_cases hloc : (loc + 1).toInt < (BitVec.ofNat 32 n).toInt
    · exact .inr (.inr (.inl ⟨k, rfl, le_refl k, if_pos hloc⟩))
    · exact .inr (.inr (.inr ⟨k, loc, .inl ⟨rfl, hloc⟩, if_neg hloc⟩))
  | loaded k loc =>
    by_cases hloc : loc.toInt < (BitVec.ofNat 32 n).toInt
    · exact .inr (.inr (.inl ⟨k, rfl, le_refl k, if_pos hloc⟩))
    · exact .inr (.inr (.inr ⟨k, loc, .inr ⟨rfl, hloc⟩, if_neg hloc⟩))

theorem mem_arrived : h ∈ s.arrived k ↔ (s.pc h).Arrived k := by simp [Harts.arrived]

/-- A hart that goes on without arriving anywhere. -/
theorem arrived_update {s' : Harts n} {pc : Pc} (hs : s'.pc = Function.update s.pc h pc)
    (hsame : pc.Arrived k ↔ (s.pc h).Arrived k) : s'.arrived k = s.arrived k := by
  ext h'
  rw [mem_arrived, mem_arrived, hs]
  by_cases hh : h' = h
  · rw [hh, Function.update_self, hsame]
  · rw [Function.update_of_ne hh]

theorem arrived_amoadd (hpc : s.pc h = .work k) (j : ℕ) :
    (s.amoadd k h).arrived j = if j = k then insert h (s.arrived k) else s.arrived j := by
  by_cases hj : j = k
  · rw [if_pos hj, hj]
    ext h'
    rw [Finset.mem_insert, mem_arrived, mem_arrived]
    change (Function.update s.pc h (.added k (s.counter k)) h').Arrived k ↔ _
    by_cases hh : h' = h
    · simp [hh, Pc.Arrived]
    · rw [Function.update_of_ne hh]
      simp [hh]
  · rw [if_neg hj]
    refine arrived_update rfl ?_
    rw [hpc, Pc.Arrived, Pc.Arrived]
    omega

theorem arrived_lw (hstage : (s.pc h).stage = k) (harr : (s.pc h).Arrived k) (j : ℕ) :
    (s.lw k h).arrived j = s.arrived j := by
  refine arrived_update rfl ?_
  cases hpc : s.pc h with
  | work i =>
    rw [hpc] at hstage harr
    simp only [Pc.stage, Pc.Arrived] at hstage harr
    omega
  | added i loc =>
    rw [hpc] at hstage
    simp only [Pc.stage] at hstage
    simp only [Pc.Arrived, hstage]
  | loaded i loc =>
    rw [hpc] at hstage
    simp only [Pc.stage] at hstage
    simp only [Pc.Arrived, hstage]

/-- At the barrier `k`, behind `loc`. -/
def Waits (s : Harts n) (h : Fin n) (k : ℕ) (loc : BitVec 32) : Prop :=
  s.pc h = .added k loc ∨ s.pc h = .loaded k loc

theorem arrived_goto {loc : BitVec 32} (hw : Waits s h k loc) (j : ℕ) :
    (s.goto (.work (k + 1)) h).arrived j = s.arrived j := by
  refine arrived_update rfl ?_
  rcases hw with hpc | hpc <;>
    · rw [hpc]
      simp only [Pc.Arrived]
      omega

/-! ## No hart leaves early -/

/-- The counters count the harts, and no hart is past a barrier at which not all have arrived. -/
structure Ok (s : Harts n) : Prop where
  counter : ∀ k, (s.counter k).toNat = (s.arrived k).card
  added : ∀ h k loc, s.pc h = .added k loc → loc.toNat + 1 ≤ (s.arrived k).card
  loaded : ∀ h k loc, s.pc h = .loaded k loc → loc.toNat ≤ (s.arrived k).card
  passed : ∀ h k, k < (s.pc h).stage → s.arrived k = Finset.univ

theorem ok_start (n : ℕ) : Ok (Harts.start n) := by
  have harr : ∀ k, (Harts.start n).arrived k = ∅ := by
    intro k
    ext h
    simp [mem_arrived, Harts.start, Pc.Arrived]
  refine ⟨fun k => ?_, by simp [Harts.start], by simp [Harts.start],
    by simp [Harts.start, Pc.stage]⟩
  rw [harr]
  rfl

/-- A hart that finds its test false leaves a barrier at which all harts have arrived. -/
theorem Ok.all_arrived (hok : Ok s) (hn : n < 2 ^ 31) {loc : BitVec 32}
    (hpass : s.pc h = .added k loc ∧ ¬ (loc + 1).toInt < (BitVec.ofNat 32 n).toInt ∨
      s.pc h = .loaded k loc ∧ ¬ loc.toInt < (BitVec.ofNat 32 n).toInt) :
    s.arrived k = Finset.univ := by
  have hcard : (s.arrived k).card ≤ n := (Finset.card_le_univ _).trans_eq (Fintype.card_fin n)
  have hint : (BitVec.ofNat 32 n).toInt = n := by
    rw [BitVec.toInt_eq_toNat_of_lt] <;> rw [BitVec.toNat_ofNat, Nat.mod_eq_of_lt] <;> omega
  rw [hint] at hpass
  refine Finset.eq_univ_of_card _ ((Nat.le_antisymm hcard ?_).trans (Fintype.card_fin n).symm)
  rcases hpass with ⟨hpc, hle⟩ | ⟨hpc, hle⟩
  · have hloc := hok.added h k loc hpc
    rw [BitVec.toInt_eq_toNat_of_lt (by rw [BitVec.toNat_add]; simp; omega), BitVec.toNat_add] at hle
    simp at hle
    omega
  · have hloc := hok.loaded h k loc hpc
    rw [BitVec.toInt_eq_toNat_of_lt (by omega)] at hle
    omega

/-- A hart that goes on without arriving anywhere keeps the order. -/
theorem Ok.goto (hok : Ok s) {pc : Pc} (harr : ∀ j, (s.goto pc h).arrived j = s.arrived j)
    (hadded : ∀ k loc, pc ≠ .added k loc)
    (hloaded : ∀ k loc, pc = .loaded k loc → loc.toNat ≤ (s.arrived k).card)
    (hpassed : ∀ k < pc.stage, s.arrived k = Finset.univ) : Ok (s.goto pc h) := by
  refine ⟨fun k => ?_, fun h' k loc he => ?_, fun h' k loc he => ?_, fun h' k hk => ?_⟩
  · rw [harr]
    exact hok.counter k
  all_goals
    simp only [Harts.goto] at *
    rw [harr]
    by_cases hh : h' = h
  · rw [hh, Function.update_self] at he
    exact absurd he (hadded k loc)
  · rw [Function.update_of_ne hh] at he
    exact hok.added h' k loc he
  · rw [hh, Function.update_self] at he
    exact hloaded k loc he
  · rw [Function.update_of_ne hh] at he
    exact hok.loaded h' k loc he
  · rw [hh, Function.update_self] at hk
    exact hpassed k hk
  · rw [Function.update_of_ne hh] at hk
    exact hok.passed h' k hk

theorem card_arrived_le (s : Harts n) (k : ℕ) : (s.arrived k).card ≤ n :=
  (Finset.card_le_univ _).trans_eq (Fintype.card_fin n)

/-- A hart that arrives keeps the order. -/
theorem Ok.amoadd (hok : Ok s) (hn : n < 2 ^ 31) (hpc : s.pc h = .work k) : Ok (s.amoadd k h) := by
  have hnot : h ∉ s.arrived k := by simp [mem_arrived, hpc, Pc.Arrived]
  have hcard : ∀ j, (s.arrived j).card ≤ ((s.amoadd k h).arrived j).card := by
    intro j
    rw [arrived_amoadd hpc]
    by_cases hj : j = k
    · rw [if_pos hj, hj]
      exact Finset.card_le_card (Finset.subset_insert _ _)
    · rw [if_neg hj]
  have huniv : ∀ j, s.arrived j = Finset.univ → (s.amoadd k h).arrived j = Finset.univ := by
    intro j hj
    rw [arrived_amoadd hpc]
    by_cases hjk : j = k
    · rw [if_pos hjk, ← hjk, hj, Finset.insert_eq_of_mem (Finset.mem_univ h)]
    · rw [if_neg hjk, hj]
  have hself : (s.amoadd k h).pc h = .added k (s.counter k) := Function.update_self ..
  have hother : ∀ {h'}, h' ≠ h → (s.amoadd k h).pc h' = s.pc h' :=
    fun hh => Function.update_of_ne hh _ _
  refine ⟨fun j => ?_, fun h' j loc he => ?_, fun h' j loc he => ?_, fun h' j hj => ?_⟩
  · rw [arrived_amoadd hpc]
    change (Function.update s.counter k (s.counter k + 1) j).toNat = _
    by_cases hj : j = k
    · have hle := card_arrived_le s k
      have hc := hok.counter k
      rw [if_pos hj, hj, Function.update_self, Finset.card_insert_of_notMem hnot, BitVec.toNat_add]
      simp
      omega
    · rw [if_neg hj, Function.update_of_ne hj]
      exact hok.counter j
  · by_cases hh : h' = h
    · rw [hh, hself] at he
      obtain ⟨rfl, rfl⟩ := Pc.added.inj he
      rw [arrived_amoadd hpc, if_pos rfl, Finset.card_insert_of_notMem hnot, hok.counter]
    · rw [hother hh] at he
      exact (hok.added h' j loc he).trans (hcard j)
  · by_cases hh : h' = h
    · rw [hh, hself] at he
      cases he
    · rw [hother hh] at he
      exact (hok.loaded h' j loc he).trans (hcard j)
  · by_cases hh : h' = h
    · rw [hh, hself] at hj
      exact huniv j (hok.passed h j (by rw [hpc]; exact hj))
    · rw [hother hh] at hj
      exact huniv j (hok.passed h' j hj)

/-- **One instruction** keeps the order. -/
theorem Ok.step (hok : Ok s) (hn : n < 2 ^ 31) (m : ℕ) (h : Fin n) : Ok (s.step m h) := by
  rcases step_cases m s h with ⟨k, -, -, e⟩ | ⟨k, hpc, -, e⟩ | ⟨k, hstage, harr, e⟩ |
    ⟨k, loc, hpass, e⟩ <;> rw [e]
  · exact hok
  · exact hok.amoadd hn hpc
  · refine hok.goto (arrived_lw hstage harr) (fun j loc he => by cases he) ?_ ?_
    · intro j loc he
      obtain ⟨rfl, rfl⟩ := Pc.loaded.inj he
      exact (hok.counter _).le
    · exact fun j hj => hok.passed h j (hstage ▸ hj)
  · have hw : Waits s h k loc := hpass.imp And.left And.left
    refine hok.goto (arrived_goto hw) (fun j loc he => by cases he) (fun j loc he => by cases he) ?_
    intro j hj
    rcases Nat.lt_succ_iff_lt_or_eq.1 hj with hlt | rfl
    · refine hok.passed h j ?_
      rcases hw with hpc | hpc <;> rw [hpc] <;> exact hlt
    · exact hok.all_arrived hn hpass

/-- The states that are reached in any order of the instructions. -/
inductive Reached (m : ℕ) : Harts n → Prop
  | start : Reached m (Harts.start n)
  | step {s : Harts n} (h : Fin n) (hs : Reached m s) : Reached m (s.step m h)

theorem Reached.ok (hs : Reached m s) (hn : n < 2 ^ 31) : Ok s := by
  induction hs with
  | start => exact ok_start n
  | step h _ ih => exact ih.step hn m h

/-- **No hart leaves a barrier early.** In every order of the instructions, when a hart is past a
barrier all harts have arrived at it. -/
theorem arrived_of_passed (hn : n < 2 ^ 31) (hs : Reached m s) (hk : k < (s.pc h).stage)
    (h' : Fin n) : (s.pc h').Arrived k := by
  rw [← mem_arrived, (hs.ok hn).passed h k hk]
  exact Finset.mem_univ h'

/-- Of two harts the second arrives at the barrier last, and is past it while the first one still
waits. -/
theorem arrived_of_passed_two :
    (((((Harts.start 2).step 1 0).step 1 1).step 1 1).pc 0).Arrived 0 :=
  arrived_of_passed (h := 1) (by decide) (((Reached.start.step 0).step 1).step 1) (by decide) 0

/-! ## No hart waits for ever -/

theorem arrived_iff_stage (pc : Pc) (k : ℕ) :
    pc.Arrived k ↔ k < pc.stage ∨ pc.Arrived pc.stage ∧ k = pc.stage := by
  cases pc <;> simp only [Pc.Arrived, Pc.stage] <;> omega

/-- Only the hart itself goes on. -/
theorem step_pc_of_ne (m : ℕ) (hne : h' ≠ h) : (s.step m h).pc h' = s.pc h' := by
  rcases step_cases m s h with ⟨k, -, -, e⟩ | ⟨k, -, -, e⟩ | ⟨k, -, -, e⟩ | ⟨k, loc, -, e⟩ <;> rw [e]
  all_goals exact Function.update_of_ne hne _ _

/-- The hart does not go back. -/
theorem stage_le_step (m : ℕ) (s : Harts n) (h h' : Fin n) :
    (s.pc h').stage ≤ ((s.step m h).pc h').stage := by
  by_cases hne : h' = h
  · subst hne
    rcases step_cases m s h' with ⟨k, -, -, e⟩ | ⟨k, hpc, -, e⟩ | ⟨k, hstage, -, e⟩ |
      ⟨k, loc, hpass, e⟩ <;> rw [e]
    · simp [Harts.amoadd, hpc, Pc.stage]
    · rw [hstage]
      simp [Harts.lw, Harts.goto, Pc.stage]
    · rcases hpass with ⟨hpc, -⟩ | ⟨hpc, -⟩ <;> simp [Harts.goto, hpc, Pc.stage]
  · rw [step_pc_of_ne m hne]

theorem Pc.Arrived.step (harr : (s.pc h').Arrived k) (m : ℕ) (h : Fin n) :
    ((s.step m h).pc h').Arrived k := by
  rw [← mem_arrived] at harr ⊢
  rcases step_cases m s h with ⟨j, -, -, e⟩ | ⟨j, hpc, -, e⟩ | ⟨j, hstage, hj, e⟩ |
    ⟨j, loc, hpass, e⟩ <;> rw [e]
  · exact harr
  · rw [arrived_amoadd hpc]
    by_cases hjk : k = j
    · rw [if_pos hjk]
      exact Finset.mem_insert_of_mem (hjk ▸ harr)
    · rwa [if_neg hjk]
  · rwa [arrived_lw hstage hj]
  · rwa [arrived_goto (hpass.imp And.left And.left)]

/-- The turn of a hart in front of a barrier. -/
theorem arrived_step_self (hk : k < m) (hstage : k ≤ (s.pc h).stage) :
    ((s.step m h).pc h).Arrived k := by
  by_cases harr : (s.pc h).Arrived k
  · exact harr.step m h
  · have hpc : s.pc h = .work k := by
      cases hp : s.pc h with
      | work j =>
        rw [hp] at hstage harr
        simp only [Pc.stage, Pc.Arrived] at hstage harr
        rw [show j = k by omega]
      | added j loc =>
        rw [hp] at hstage harr
        exact absurd hstage harr
      | loaded j loc =>
        rw [hp] at hstage harr
        exact absurd hstage harr
    rw [Harts.step, hpc]
    simp only [hk, if_true]
    rw [← mem_arrived, arrived_amoadd hpc, if_pos rfl]
    exact Finset.mem_insert_self h _

/-- The hart is past the barrier, or has loaded the number of harts. -/
def Leaving (s : Harts n) (h : Fin n) (k : ℕ) : Prop :=
  k + 1 ≤ (s.pc h).stage ∨ s.pc h = .loaded k (BitVec.ofNat 32 n)

/-- The turn of a hart that has loaded the number of harts. -/
theorem Leaving.step_self (hl : Leaving s h k) (m : ℕ) : k + 1 ≤ ((s.step m h).pc h).stage := by
  rcases hl with hl | hpc
  · exact hl.trans (stage_le_step m s h h)
  · have hstep : s.step m h = s.goto (.work (k + 1)) h := by
      rw [Harts.step, hpc]
      exact if_neg (lt_irrefl _)
    rw [hstep]
    simp [Harts.goto, Pc.stage]

theorem Leaving.step (hl : Leaving s h' k) (m : ℕ) (h : Fin n) : Leaving (s.step m h) h' k := by
  by_cases hne : h' = h
  · subst hne
    exact .inl (hl.step_self m)
  · rw [Leaving, step_pc_of_ne m hne]
    exact hl

/-- The turn of a hart at a barrier at which all harts have arrived. -/
theorem leaving_step_self (hok : Ok s) (hall : ∀ h', (s.pc h').Arrived k) (m : ℕ) :
    Leaving (s.step m h) h k := by
  have huniv : s.arrived k = Finset.univ := by
    ext h'
    simp [mem_arrived, hall h']
  have hcounter : s.counter k = BitVec.ofNat 32 n := by
    have hc := hok.counter k
    rw [huniv, Finset.card_univ, Fintype.card_fin] at hc
    have hlt := (s.counter k).isLt
    apply BitVec.eq_of_toNat_eq
    rw [BitVec.toNat_ofNat]
    omega
  rcases (arrived_iff_stage (s.pc h) k).1 (hall h) with hlt | ⟨harr, hstage⟩
  · exact .inl (hlt.trans_le (stage_le_step m s h h))
  · rcases step_cases m s h with ⟨j, hpc, -, -⟩ | ⟨j, hpc, -, -⟩ | ⟨j, hj, -, e⟩ |
      ⟨j, loc, hpass, e⟩
    · rw [hpc] at harr
      exact absurd harr (lt_irrefl _)
    · rw [hpc] at harr
      exact absurd harr (lt_irrefl _)
    · obtain rfl : k = j := hstage.trans hj
      refine .inr ?_
      rw [e, Harts.lw, Harts.goto, hcounter]
      exact Function.update_self ..
    · have hjk : j = k := by
        rcases hpass with ⟨hpc, -⟩ | ⟨hpc, -⟩ <;> rw [hpc] at hstage <;> exact hstage.symm
      refine .inl ?_
      rw [e, hjk]
      simp [Harts.goto, Pc.stage]

/-- The harts that have arrived at a barrier are in front of the last one. -/
theorem Reached.lt_of_arrived (hs : Reached m s) (harr : (s.pc h').Arrived k) : k < m := by
  induction hs with
  | start => simp [Harts.start, Pc.Arrived] at harr
  | @step s h _ ih =>
    rw [← mem_arrived] at harr
    rcases step_cases m s h with ⟨j, -, -, e⟩ | ⟨j, hpc, hj, e⟩ | ⟨j, hstage, hj, e⟩ |
      ⟨j, loc, hpass, e⟩ <;> rw [e] at harr
    · exact ih (mem_arrived.1 harr)
    · rw [arrived_amoadd hpc] at harr
      by_cases hjk : k = j
      · exact hjk ▸ hj
      · rw [if_neg hjk] at harr
        exact ih (mem_arrived.1 harr)
    · rw [arrived_lw hstage hj] at harr
      exact ih (mem_arrived.1 harr)
    · rw [arrived_goto (hpass.imp And.left And.left)] at harr
      exact ih (mem_arrived.1 harr)

section Schedule

open Filter

variable {schedule : ℕ → Fin n}

theorem reached_run (m : ℕ) (schedule : ℕ → Fin n) (t : ℕ) :
    Reached m (Harts.run m schedule t) := by
  induction t with
  | zero => exact .start
  | succ t ih => exact ih.step (schedule t)

/-- What stays once it is, and comes with a turn of the hart, comes. -/
theorem eventually_of_turn {P : ℕ → Prop} (hfair : ∃ᶠ t in atTop, schedule t = h)
    (hstay : ∀ t, P t → P (t + 1)) (hturn : ∀ᶠ t in atTop, schedule t = h → P (t + 1)) :
    ∀ᶠ t in atTop, P t := by
  obtain ⟨t, ht, hP⟩ := (hfair.and_eventually hturn).exists
  refine eventually_atTop.2 ⟨t + 1, fun t' ht' => ?_⟩
  induction t', ht' using Nat.le_induction with
  | base => exact hP ht
  | succ t' _ ih => exact hstay t' ih

/-- **No hart waits for ever.** If each hart has its turn again and again, then at some time all
harts have come through all barriers. -/
theorem passes_all (hn : n < 2 ^ 31) (hfair : ∀ h, ∃ᶠ t in atTop, schedule t = h) :
    ∀ᶠ t in atTop, ∀ h, (Harts.run m schedule t).pc h = .work m := by
  -- by induction on the barriers: all harts come to the next one
  have hstage : ∀ k ≤ m, ∀ᶠ t in atTop, ∀ h, k ≤ ((Harts.run m schedule t).pc h).stage := by
    intro k
    induction k with
    | zero => exact fun _ => Eventually.of_forall fun t h => Nat.zero_le _
    | succ k ih =>
      intro hk
      have harr : ∀ᶠ t in atTop, ∀ h, ((Harts.run m schedule t).pc h).Arrived k := by
        refine eventually_all.2 fun h => eventually_of_turn (hfair h)
          (fun t ht => ht.step m _) ?_
        filter_upwards [ih (by omega)] with t ht hturn
        rw [Harts.run, hturn]
        exact arrived_step_self hk (ht h)
      have hleave : ∀ᶠ t in atTop, ∀ h, Leaving (Harts.run m schedule t) h k := by
        refine eventually_all.2 fun h => eventually_of_turn (hfair h)
          (fun t ht => ht.step m _) ?_
        filter_upwards [harr] with t ht hturn
        rw [Harts.run, hturn]
        exact leaving_step_self ((reached_run m schedule t).ok hn) ht m
      refine eventually_all.2 fun h => eventually_of_turn (hfair h)
        (fun t ht => ht.trans (stage_le_step m _ _ _)) ?_
      filter_upwards [hleave] with t ht hturn
      rw [Harts.run, hturn]
      exact (ht h).step_self m
  filter_upwards [hstage m le_rfl] with t ht h
  have hnot : ¬ ((Harts.run m schedule t).pc h).Arrived m := fun harr =>
    lt_irrefl m ((reached_run m schedule t).lt_of_arrived harr)
  have hle := ht h
  cases hpc : (Harts.run m schedule t).pc h with
  | work j =>
    rw [hpc] at hnot hle
    simp only [Pc.Arrived, Pc.stage] at hnot hle
    rw [show j = m by omega]
  | added j loc =>
    rw [hpc] at hnot hle
    exact absurd hle hnot
  | loaded j loc =>
    rw [hpc] at hnot hle
    exact absurd hle hnot

/-- Two harts that take turns come through the two barriers of the boot code. -/
theorem passes_all_two : ∀ᶠ t in atTop, ∀ h : Fin 2,
    (Harts.run 2 (fun t => if t % 2 = 0 then 0 else 1) t).pc h = .work 2 := by
  refine passes_all (by decide) fun h => frequently_atTop.2 fun t => ⟨2 * t + h, by omega, ?_⟩
  fin_cases h
  · simp
  · simp [Nat.add_mod]

end Schedule

end HustOS.Proc.Barrier
