import Mathlib.Data.List.Induction
import Mathlib.Tactic.Common

/-!
# Trees of bounded depth laid out in a memory

A memory gives each node `p` and index `i` a child, or none: `child : α → ι → Option α`. From a root
the node at a path is found by following the indices (`nodeAt`). `Placed child root d` says that
the paths of length at most `d` lead to different nodes, so that the nodes form a tree there.

`Placed.nodeAt_extend` and `Placed.extend` describe the growth of such a tree: a missing child is
filled with a fresh node that has no children itself, and nothing else changes.
-/

namespace HustOS.Foundations

variable {α ι : Type*} {child child' : α → ι → Option α} {root p q r : α} {d : ℕ} {P Q : List ι}
  {i : ι}

/-- The node at the end of a path. -/
def nodeAt (child : α → ι → Option α) (root : α) (path : List ι) : Option α :=
  path.foldlM child root

@[simp] theorem nodeAt_nil : nodeAt child root [] = some root := rfl

theorem nodeAt_concat : nodeAt child root (P ++ [i]) = (nodeAt child root P).bind (child · i) := by
  rw [nodeAt, List.foldlM_append]
  simp only [List.foldlM_cons, List.foldlM_nil, Option.bind_eq_bind]
  cases h : nodeAt child root P with
  | none => rw [nodeAt] at h; simp [h]
  | some p => rw [nodeAt] at h; simp [h]

/-- `p` is a node at depth at most `d`. -/
def IsNode (child : α → ι → Option α) (root : α) (d : ℕ) (p : α) : Prop :=
  ∃ P : List ι, P.length ≤ d ∧ nodeAt child root P = some p

/-- Paths of length at most `d` to the same node are equal. -/
def Placed (child : α → ι → Option α) (root : α) (d : ℕ) : Prop :=
  ∀ (P Q : List ι) (p : α), P.length ≤ d → Q.length ≤ d → nodeAt child root P = some p →
    nodeAt child root Q = some p → P = Q

/-- Children that agree on the inner nodes give the same nodes. -/
theorem nodeAt_congr (h : ∀ r, IsNode child root (d - 1) r → ∀ k, child' r k = child r k)
    (hP : P.length ≤ d) : nodeAt child' root P = nodeAt child root P := by
  induction P using List.reverseRecOn with
  | nil => rfl
  | append_singleton R k ih =>
    rw [List.length_append, List.length_singleton] at hP
    rw [nodeAt_concat, nodeAt_concat, ih (by omega)]
    cases hR : nodeAt child root R with
    | none => rfl
    | some r => exact h r ⟨R, by omega, hR⟩ k

section Extend

variable (hpl : Placed child root d) (hP : nodeAt child root P = some p) (hd : P.length < d)
  (hnone : child p i = none) (hnew : child' p i = some q)
  (hsame : ∀ r, IsNode child root (d - 1) r → ∀ k, ¬ (r = p ∧ k = i) → child' r k = child r k)
  (hleaf : ∀ k, child' q k = none)
include hpl hP hd hnone hnew hsame hleaf

/-- **The nodes after a growth**: the new child, and the nodes there were. -/
theorem Placed.nodeAt_extend [DecidableEq ι] {R : List ι} (hR : R.length ≤ d) :
    nodeAt child' root R = if R = P ++ [i] then some q else nodeAt child root R := by
  induction R using List.reverseRecOn with
  | nil => rw [if_neg (by simp), nodeAt_nil, nodeAt_nil]
  | append_singleton R k ih =>
    rw [List.length_append, List.length_singleton] at hR
    rw [nodeAt_concat, ih (by omega)]
    by_cases hRi : R = P ++ [i]
    · -- below the new node there is nothing, before or after
      subst hRi
      have hne : P ++ [i] ++ [k] ≠ P ++ [i] := by simp
      rw [if_pos rfl, if_neg hne, Option.bind_some, hleaf, nodeAt_concat, nodeAt_concat, hP,
        Option.bind_some, hnone, Option.bind_none]
    · rw [if_neg hRi, nodeAt_concat]
      cases hr : nodeAt child root R with
      | none =>
        have hne : R ++ [k] ≠ P ++ [i] := by
          intro e
          obtain ⟨rfl, -⟩ := List.append_inj' e rfl
          simp [hP] at hr
        rw [if_neg hne]
        rfl
      | some r =>
        rw [Option.bind_some, Option.bind_some]
        by_cases hrk : r = p ∧ k = i
        · obtain ⟨rfl, rfl⟩ := hrk
          obtain rfl := hpl R P r (by omega) (by omega) hr hP
          rw [if_pos rfl, hnew]
        · have hne : R ++ [k] ≠ P ++ [i] := by
            intro e
            obtain ⟨rfl, hk⟩ := List.append_inj' e rfl
            exact hrk ⟨Option.some.inj (hr.symm.trans hP), by simpa using hk⟩
          rw [if_neg hne]
          exact hsame r ⟨R, by omega, hr⟩ k hrk

/-- A growth by a node that was not in the tree leaves a tree. -/
theorem Placed.extend [DecidableEq ι] (hq : ¬ IsNode child root d q) : Placed child' root d := by
  intro R S r hR hS hr hs
  have e := fun {R : List ι} (hR : R.length ≤ d) =>
    hpl.nodeAt_extend hP hd hnone hnew hsame hleaf hR
  rw [e hR] at hr
  rw [e hS] at hs
  split at hr <;> split at hs
  · simp_all
  · cases hr
    exact absurd ⟨S, hS, hs⟩ hq
  · cases hs
    exact absurd ⟨R, hR, hr⟩ hq
  · exact hpl R S r hR hS hr hs

end Extend

end HustOS.Foundations
