import Mathlib.Data.List.Basic
import Mathlib.Data.List.TakeWhile

/-!
# Maximal runs

The maximal runs of a list between the elements that separate them: the list is cut at every
separator and the empty pieces, between neighbouring separators and at the ends, are left out. The
runs are found from the front: separators are skipped (`runs_append_left`), and a run goes up to the
next separator (`runs_append_cons`) or to the end of the list (`runs_of_forall_not`).
-/

namespace HustOS.Foundations

variable {α : Type*} {p : α → Bool} {d r s t : List α} {c : α}

/-- The maximal runs of elements that do not satisfy `p`, in order. -/
def runs (p : α → Bool) (s : List α) : List (List α) := (s.splitOnP p).filter (!·.isEmpty)

@[simp] theorem runs_nil (p : α → Bool) : runs p [] = [] := by
  simp [runs]

theorem runs_cons (h : p c = true) : runs p (c :: s) = runs p s := by
  rw [runs, List.splitOnP_cons_eq_if_modifyHead, if_pos h, List.filter_cons_of_neg (by simp)]
  rfl

/-- Separators in front are skipped. -/
theorem runs_append_left (h : ∀ a ∈ d, p a = true) : runs p (d ++ s) = runs p s := by
  induction d with
  | nil => rfl
  | cons a d ih =>
    rw [List.cons_append, runs_cons (h a (List.mem_cons_self ..))]
    exact ih fun b hb => h b (List.mem_cons_of_mem _ hb)

/-- A list without separators is one run. -/
theorem runs_of_forall_not (h : ∀ a ∈ r, p a = false) (hr : r ≠ []) : runs p r = [r] := by
  rw [runs, List.splitOnP_eq_singleton h, List.filter_cons_of_pos (by simpa using hr)]
  rfl

/-- A run ends at the next separator. -/
theorem runs_append_cons (h : ∀ a ∈ r, p a = false) (hr : r ≠ []) (hc : p c = true) :
    runs p (r ++ c :: s) = r :: runs p s := by
  rw [runs, List.splitOnP_append_cons_of_forall_mem h c hc,
    List.filter_cons_of_pos (by simpa using hr)]
  rfl

/-- No run goes over a separator. -/
theorem runs_append_sep (hc : p c = true) : runs p (s ++ c :: t) = runs p s ++ runs p t := by
  rw [runs, List.splitOnP_append_cons s t hc, List.filter_append]
  rfl

/-- A list is all separators, or it has a first run, up to a separator or the end. -/
theorem exists_first_run (p : α → Bool) (s : List α) :
    (∀ a ∈ s, p a = true) ∨ ∃ d r t, s = d ++ (r ++ t) ∧ (∀ a ∈ d, p a = true) ∧ r ≠ [] ∧
      (∀ a ∈ r, p a = false) ∧ (t = [] ∨ ∃ c t', t = c :: t' ∧ p c = true) := by
  have hd : ∀ a ∈ s.takeWhile p, p a = true := fun a ha => List.mem_takeWhile_imp ha
  have hs : s.takeWhile p ++ s.dropWhile p = s := List.takeWhile_append_dropWhile
  generalize s.takeWhile p = d at hd hs
  rcases hw : s.dropWhile p with _ | ⟨b, w⟩
  · rw [hw, List.append_nil] at hs
    exact .inl (hs ▸ hd)
  · -- the run starts with `b`
    have hb : p b = false := by
      have hhead := List.head?_dropWhile_not p s
      rw [hw] at hhead
      simpa using hhead
    rw [hw] at hs
    have hr : ∀ a ∈ (b :: w).takeWhile (!p ·), p a = false := fun a ha => by
      simpa using List.mem_takeWhile_imp ha
    have hne : (b :: w).takeWhile (!p ·) ≠ [] := by simp [hb]
    have ht : (b :: w).takeWhile (!p ·) ++ (b :: w).dropWhile (!p ·) = b :: w :=
      List.takeWhile_append_dropWhile
    refine .inr ⟨d, _, _, by rw [ht, hs], hd, hne, hr, ?_⟩
    rcases hcut : (b :: w).dropWhile (!p ·) with _ | ⟨c, t'⟩
    · exact .inl rfl
    · have hhead := List.head?_dropWhile_not (!p ·) (b :: w)
      rw [hcut] at hhead
      exact .inr ⟨c, t', rfl, by simpa using hhead⟩

end HustOS.Foundations
