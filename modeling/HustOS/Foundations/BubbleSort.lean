import Mathlib.Algebra.Group.End
import Mathlib.Data.List.Range
import Mathlib.Logic.Equiv.Basic
import Mathlib.Order.Defs.LinearOrder
import Mathlib.Tactic.Common
import Mathlib.Tactic.SplitIfs

/-!
# Sorting an array in place by exchanging neighbours

The cells of an array below `n` are sorted by a key: a pass goes through the cells up to a bound and
exchanges neighbours that are out of order (`bubblePass`), and the passes go to a bound that gets
smaller (`bubblePasses`, `bubbleSort`). The cells are permuted, those with one key stay in their
order and those from `n` on stay (`StablePermutes`, `stablePermutes_bubbleSort`); a pass leaves a
greatest cell at its bound (`le_bubblePass`), so the cells behind the bound are sorted, and in the
end all are (`bubbleSort_sorted`).
-/

namespace HustOS.Foundations

variable {α β : Type*}

/-! ## Permuted cells -/

variable {key : α → β} {u v w : ℕ → α} {i j k m n : ℕ}

/-- The cells below `n` are permuted, the others are those of before. -/
def Permutes (n : ℕ) (v w : ℕ → α) : Prop :=
  ∃ σ : Equiv.Perm ℕ, (∀ i, n ≤ i → σ i = i) ∧ w = v ∘ σ

theorem Permutes.eq_of_le (h : Permutes n v w) (hi : n ≤ i) : w i = v i := by
  obtain ⟨σ, hσ, rfl⟩ := h
  exact congrArg v (hσ i hi)

/-- A cell that is permuted stays below `n`. -/
theorem Permutes.exists_lt (h : Permutes n v w) (hi : i < n) : ∃ j < n, w i = v j := by
  obtain ⟨σ, hσ, rfl⟩ := h
  refine ⟨σ i, ?_, rfl⟩
  by_contra hj
  have hfix := σ.injective (hσ (σ i) (Nat.le_of_not_lt hj))
  omega

/-- Every cell is still there. -/
theorem Permutes.exists_lt' (h : Permutes n v w) (hi : i < n) : ∃ j < n, w j = v i := by
  obtain ⟨σ, hσ, rfl⟩ := h
  have hinv : σ (σ.symm i) = i := σ.apply_symm_apply i
  refine ⟨σ.symm i, ?_, congrArg v hinv⟩
  by_contra hj
  have hfix := hσ (σ.symm i) (Nat.le_of_not_lt hj)
  omega

/-- Different cells stay different. -/
theorem Permutes.injOn (h : Permutes n v w) (hinj : ∀ i < n, ∀ j < n, v i = v j → i = j)
    (hi : i < n) (hj : j < n) (he : w i = w j) : i = j := by
  obtain ⟨σ, hσ, rfl⟩ := h
  have hlt : ∀ i < n, σ i < n := by
    intro i hi
    by_contra hle
    have hfix := σ.injective (hσ (σ i) (Nat.le_of_not_lt hle))
    omega
  exact σ.injective (hinj _ (hlt i hi) _ (hlt j hj) he)

/-- The cells below `n` are permuted, those with one key in the order they had. -/
def StablePermutes (key : α → β) (n : ℕ) (v w : ℕ → α) : Prop :=
  ∃ σ : Equiv.Perm ℕ, (∀ i, n ≤ i → σ i = i) ∧ w = v ∘ σ ∧
    ∀ i j, i < j → key (w i) = key (w j) → σ i < σ j

theorem StablePermutes.refl (key : α → β) (n : ℕ) (v : ℕ → α) : StablePermutes key n v v :=
  ⟨1, fun _ _ => rfl, rfl, fun _ _ hij _ => hij⟩

theorem StablePermutes.trans (h : StablePermutes key n u v) (h' : StablePermutes key n v w) :
    StablePermutes key n u w := by
  obtain ⟨σ, hσ, rfl, hs⟩ := h
  obtain ⟨τ, hτ, rfl, ht⟩ := h'
  refine ⟨σ * τ, fun i hi => ?_, rfl, fun i j hij he => ?_⟩
  · rw [Equiv.Perm.mul_apply, hτ i hi, hσ i hi]
  · exact hs _ _ (ht i j hij he) he

theorem StablePermutes.mono (h : StablePermutes key m v w) (hmn : m ≤ n) :
    StablePermutes key n v w := by
  obtain ⟨σ, hσ, hw⟩ := h
  exact ⟨σ, fun i hi => hσ i (hmn.trans hi), hw⟩

theorem StablePermutes.permutes (h : StablePermutes key n v w) : Permutes n v w := by
  obtain ⟨σ, hσ, hw, -⟩ := h
  exact ⟨σ, hσ, hw⟩

/-! ## The algorithm -/

variable [LinearOrder β]

/-- Two neighbours are exchanged if they are out of order. -/
def bubbleStep (key : α → β) (v : ℕ → α) (j : ℕ) : ℕ → α :=
  if key (v (j + 1)) < key (v j) then
    Function.update (Function.update v j (v (j + 1))) (j + 1) (v j)
  else v

/-- The neighbours up to cell `m`, from the front. -/
def bubblePass (key : α → β) (v : ℕ → α) (m : ℕ) : ℕ → α :=
  (List.range m).foldl (bubbleStep key) v

/-- The first `k` passes over `n` cells. -/
def bubblePasses (key : α → β) (n : ℕ) (v : ℕ → α) (k : ℕ) : ℕ → α :=
  (List.range k).foldl (fun v i => bubblePass key v (n - 1 - i)) v

/-- All passes over `n` cells. -/
def bubbleSort (key : α → β) (n : ℕ) (v : ℕ → α) : ℕ → α := bubblePasses key n v (n - 1)

theorem bubblePass_succ (key : α → β) (v : ℕ → α) (m : ℕ) :
    bubblePass key v (m + 1) = bubbleStep key (bubblePass key v m) m := by
  simp [bubblePass, List.range_succ]

theorem bubblePasses_succ (key : α → β) (n : ℕ) (v : ℕ → α) (k : ℕ) :
    bubblePasses key n v (k + 1) = bubblePass key (bubblePasses key n v k) (n - 1 - k) := by
  simp [bubblePasses, List.range_succ]

/-! ## What is kept -/

theorem stablePermutes_bubbleStep (key : α → β) (v : ℕ → α) (j : ℕ) :
    StablePermutes key (j + 2) v (bubbleStep key v j) := by
  rw [bubbleStep]
  split
  · rename_i hlt
    have hswap : Function.update (Function.update v j (v (j + 1))) (j + 1) (v j) =
        v ∘ Equiv.swap j (j + 1) := by
      funext i
      simp only [Function.update_apply, Function.comp_apply, Equiv.swap_apply_def]
      split
      · simp_all
      · split <;> simp_all
    refine ⟨Equiv.swap j (j + 1), fun i hi => ?_, hswap, fun i k hik he => ?_⟩
    · exact Equiv.swap_apply_of_ne_of_ne (by omega) (by omega)
    · rw [hswap] at he
      by_cases hjk : i = j ∧ k = j + 1
      · -- the two that are exchanged have different keys
        obtain ⟨rfl, rfl⟩ := hjk
        simp only [Function.comp_apply, Equiv.swap_apply_left, Equiv.swap_apply_right] at he
        exact absurd he hlt.ne
      · simp only [Equiv.swap_apply_def]
        split_ifs <;> omega
  · exact .refl _ _ _

theorem stablePermutes_bubblePass (key : α → β) (v : ℕ → α) (m : ℕ) :
    StablePermutes key (m + 1) v (bubblePass key v m) := by
  induction m with
  | zero => exact .refl _ _ _
  | succ m ih =>
    rw [bubblePass_succ]
    exact (ih.mono (by omega)).trans (stablePermutes_bubbleStep key _ m)

theorem permutes_bubblePass (key : α → β) (v : ℕ → α) (m : ℕ) :
    Permutes (m + 1) v (bubblePass key v m) :=
  (stablePermutes_bubblePass key v m).permutes

theorem stablePermutes_bubblePasses (key : α → β) (v : ℕ → α) (k : ℕ) :
    StablePermutes key n v (bubblePasses key n v k) := by
  induction k with
  | zero => exact .refl _ _ _
  | succ k ih =>
    rw [bubblePasses_succ]
    cases n with
    | zero =>
      rw [Nat.zero_sub]
      exact ih
    | succ n => exact ih.trans ((stablePermutes_bubblePass key _ _).mono (by omega))

/-- **The cells are permuted**, and cells with one key keep their order. -/
theorem stablePermutes_bubbleSort (key : α → β) (n : ℕ) (v : ℕ → α) :
    StablePermutes key n v (bubbleSort key n v) :=
  stablePermutes_bubblePasses key v (n - 1)

/-! ## The order -/

/-- A pass leaves a greatest cell at its end. -/
theorem le_bubblePass (key : α → β) (v : ℕ → α) (m : ℕ) (hj : j ≤ m) :
    key (bubblePass key v m j) ≤ key (bubblePass key v m m) := by
  induction m generalizing j with
  | zero => rw [Nat.le_zero.1 hj]
  | succ m ih =>
    rw [bubblePass_succ, bubbleStep]
    generalize bubblePass key v m = w at ih
    split
    · rename_i hlt
      rw [Function.update_self, Function.update_apply, Function.update_apply]
      split
      · exact le_rfl
      · split
        · exact hlt.le
        · exact ih (by omega)
    · rename_i hle
      rcases Nat.lt_or_eq_of_le hj with hj | rfl
      · exact (ih (Nat.lt_succ_iff.1 hj)).trans (not_lt.1 hle)
      · exact le_rfl

/-- After `k` passes the last `k` cells are in order and behind all others. -/
theorem bubblePasses_sorted (hk : k ≤ n - 1) (hij : i < j) (hj : n - k ≤ j) (hn : j < n) :
    key (bubblePasses key n v k i) ≤ key (bubblePasses key n v k j) := by
  induction k generalizing i j with
  | zero => omega
  | succ k ih =>
    rw [bubblePasses_succ]
    generalize hm : n - 1 - k = m
    have hp := permutes_bubblePass key (bubblePasses key n v k) m
    rcases Nat.lt_or_ge m j with hmj | hjm
    · -- behind the pass nothing moved, and what the pass moved was in front
      rw [hp.eq_of_le (i := j) (by omega)]
      rcases Nat.lt_or_ge m i with hmi | him
      · rw [hp.eq_of_le (i := i) (by omega)]
        exact ih (by omega) hij (by omega) hn
      · obtain ⟨i', hi', he⟩ := hp.exists_lt (i := i) (by omega)
        rw [he]
        exact ih (by omega) (by omega) (by omega) hn
    · obtain rfl : j = m := by omega
      exact le_bubblePass key _ j hij.le

/-- **The cells are sorted.** -/
theorem bubbleSort_sorted (key : α → β) (v : ℕ → α) (hij : i < j) (hj : j < n) :
    key (bubbleSort key n v i) ≤ key (bubbleSort key n v j) :=
  bubblePasses_sorted le_rfl hij (by omega) hj

end HustOS.Foundations
