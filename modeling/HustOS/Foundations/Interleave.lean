import HustOS.Foundations.Outcome
import Mathlib.Data.List.Basic
import Mathlib.Logic.Function.Basic

/-!
# Interleaved clients

Clients perform operations on one state, in any order; an operation returns a result or fails. The
clients are undisturbed when each of them gets the results that it gets when it is alone
(`Undisturbed`).

They are when, for each client, a relation between the states of the run and of the run alone is
kept by its own operations, which return the same in both, and by those of the others (`Separates`).
-/

namespace HustOS.Foundations

variable {σ ι α ρ β ε : Type} [DecidableEq ι]

/-- What belongs to one client. -/
def only (i : ι) (l : List (ι × β)) : List (ι × β) := l.filter fun o => o.1 = i

@[simp] theorem only_nil (i : ι) : only i ([] : List (ι × β)) = [] := rfl

theorem only_cons_self (i : ι) (b : β) (l : List (ι × β)) :
    only i ((i, b) :: l) = (i, b) :: only i l :=
  List.filter_cons_of_pos (by simp)

theorem only_cons_of_ne {i j : ι} (h : j ≠ i) (b : β) (l : List (ι × β)) :
    only i ((j, b) :: l) = only i l :=
  List.filter_cons_of_neg (by simpa using h)

section Run

variable (step : σ → ι → α → Except ε (ρ × σ))

/-- Perform operations, each by its client: their results. -/
def interleave : σ → List (ι × α) → Except ε (List (ι × ρ))
  | _, [] => .ok []
  | s, (i, a) :: ops => do
    let (r, s) ← step s i a
    let rs ← interleave s ops
    return (i, r) :: rs

/-- Every client gets the results that it gets when it is alone. -/
def Undisturbed (s : σ) (ops : List (ι × α)) : Prop :=
  ∃ rs, interleave step s ops = .ok rs ∧ ∀ i, interleave step s (only i ops) = .ok (only i rs)

/-- `C` holds of each operation in the state in which it is performed. -/
def EachStep (C : σ → ι → α → Prop) : σ → List (ι × α) → Prop
  | _, [] => True
  | s, (i, a) :: ops => C s i a ∧ ∀ r s', step s i a = .ok (r, s') → EachStep C s' ops

/-- The states `s` of the run and `t` of the run alone stay alike to the client `i`, through its own
operations, which return the same in both, and through those of the others. -/
structure Separates (C : σ → ι → α → Prop) (Alike : ι → σ → σ → Prop) : Prop where
  own : ∀ i s t a, Alike i s t → C s i a →
    ∃ r s' t', step s i a = .ok (r, s') ∧ step t i a = .ok (r, t') ∧ Alike i s' t'
  other : ∀ i s t j a r s', Alike i s t → j ≠ i → C s j a → step s j a = .ok (r, s') → Alike i s' t

variable {step} {C : σ → ι → α → Prop} {Alike : ι → σ → σ → Prop}

/-- The results from states alike, by induction on the operations. -/
theorem Separates.results (h : Separates step C Alike) {s : σ} {ops : List (ι × α)}
    (hC : EachStep step C s ops) {alone : ι → σ} (halike : ∀ i, Alike i s (alone i)) :
    ∃ rs, interleave step s ops = .ok rs ∧
      ∀ i, interleave step (alone i) (only i ops) = .ok (only i rs) := by
  induction ops generalizing s alone with
  | nil => exact ⟨[], rfl, fun _ => rfl⟩
  | cons op ops ih =>
    obtain ⟨j, a⟩ := op
    obtain ⟨hhead, htail⟩ := hC
    obtain ⟨r, s', t', hs, ht, hj⟩ := h.own j s (alone j) a (halike j) hhead
    have halike' : ∀ i, Alike i s' (Function.update alone j t' i) := by
      intro i
      by_cases hij : i = j
      · subst hij
        rw [Function.update_self]
        exact hj
      · rw [Function.update_of_ne hij]
        exact h.other i s (alone i) j a r s' (halike i) (Ne.symm hij) hhead hs
    obtain ⟨rs, hrun, halone⟩ := ih (htail r s' hs) halike'
    refine ⟨(j, r) :: rs, ?_, fun i => ?_⟩
    · rw [interleave, hs, ok_bind]
      dsimp only
      rw [hrun]
      rfl
    · by_cases hij : i = j
      · subst hij
        have hrest := halone i
        rw [Function.update_self] at hrest
        rw [only_cons_self, only_cons_self, interleave, ht, ok_bind]
        dsimp only
        rw [hrest]
        rfl
      · have hrest := halone i
        rw [Function.update_of_ne hij] at hrest
        rw [only_cons_of_ne (Ne.symm hij), only_cons_of_ne (Ne.symm hij)]
        exact hrest

/-- **Separated clients are undisturbed.** -/
theorem Separates.undisturbed (h : Separates step C Alike) {s : σ} {ops : List (ι × α)}
    (hC : EachStep step C s ops) (hrefl : ∀ i, Alike i s s) : Undisturbed step s ops :=
  h.results hC hrefl

end Run

end HustOS.Foundations
