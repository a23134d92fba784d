import Mathlib.Logic.Function.Basic
import Mathlib.Data.List.Nodup

/-!
# Linked lists threaded through a memory

A singly linked list lives in a memory `next : α → α`: from a head, each node holds the address of
the following one, and `null` ends the list. `Chain null next h l` says that the list from `h` has
the nodes `l`, in order.

* The nodes are determined by the memory (`Chain.unique`), and a memory that agrees on them holds
  the same chain (`Chain.congr`, `Chain.update_of_notMem`).
* A push writes the new node only (`Chain.push`); an insertion at the rear writes the new node and
  the last one (`Chain.concat`); `Chain.unlink` bypasses a segment behind a node by one write to
  that node.
-/

namespace HustOS.Foundations

variable {α : Type*} {null : α} {next next' : α → α}

/-- From `h`, the memory `next` holds the list `l`, ended by `null`. -/
def Chain (null : α) (next : α → α) : α → List α → Prop
  | h, [] => h = null
  | h, p :: l => h = p ∧ p ≠ null ∧ Chain null next (next p) l

namespace Chain

@[simp] theorem nil_iff {h : α} : Chain null next h [] ↔ h = null := Iff.rfl

@[simp] theorem cons_iff {h p : α} {l : List α} :
    Chain null next h (p :: l) ↔ h = p ∧ p ≠ null ∧ Chain null next (next p) l := Iff.rfl

theorem eq_nil {l : List α} (c : Chain null next null l) : l = [] := by
  cases l with
  | nil => rfl
  | cons p l => exact absurd c.1.symm c.2.1

theorem exists_cons {h : α} {l : List α} (c : Chain null next h l) (hh : h ≠ null) :
    ∃ l', l = h :: l' ∧ Chain null next (next h) l' := by
  cases l with
  | nil => exact absurd c hh
  | cons p l =>
    obtain ⟨rfl, -, c⟩ := c
    exact ⟨l, rfl, c⟩

theorem ne_null {h : α} {l : List α} (c : Chain null next h l) : ∀ p ∈ l, p ≠ null := by
  induction l generalizing h with
  | nil => simp
  | cons p l ih =>
    obtain ⟨-, hp, c⟩ := c
    simpa using ⟨hp, ih c⟩

/-- The memory determines the nodes. -/
theorem unique {h : α} {l l' : List α} (c : Chain null next h l) (c' : Chain null next h l') :
    l = l' := by
  induction l generalizing h l' with
  | nil => cases c; exact (eq_nil c').symm
  | cons p l ih =>
    obtain ⟨rfl, hp, c⟩ := c
    obtain ⟨l'', rfl, c''⟩ := c'.exists_cons hp
    rw [ih c c'']

theorem congr {h : α} {l : List α} (c : Chain null next h l) (hn : ∀ p ∈ l, next' p = next p) :
    Chain null next' h l := by
  induction l generalizing h with
  | nil => exact c
  | cons p l ih =>
    obtain ⟨rfl, hp, c⟩ := c
    refine ⟨rfl, hp, ?_⟩
    rw [hn h (by simp)]
    exact ih c fun q hq => hn q (by simp [hq])

/-- What follows a prefix of the chain is a chain. -/
theorem suffix {h p : α} {pre l : List α} (c : Chain null next h (pre ++ p :: l)) :
    Chain null next p (p :: l) := by
  induction pre generalizing h with
  | nil =>
    obtain ⟨rfl, hp, c⟩ := c
    exact ⟨rfl, hp, c⟩
  | cons q pre ih => exact ih c.2.2

/-- Pointing the last node at a new one, whose link is `null`, puts the new node behind it. -/
theorem concat {h p a : α} {pre : List α} (c : Chain null next h (pre ++ [p]))
    (hpre : ∀ q ∈ pre, next' q = next q) (hp : next' p = a) (ha : a ≠ null)
    (hend : next' a = null) : Chain null next' h (pre ++ [p] ++ [a]) := by
  induction pre generalizing h with
  | nil =>
    obtain ⟨rfl, hnull, -⟩ := c
    exact ⟨rfl, hnull, hp, ha, hend⟩
  | cons q pre ih =>
    obtain ⟨rfl, hnull, c⟩ := c
    refine ⟨rfl, hnull, ?_⟩
    rw [hpre h List.mem_cons_self]
    exact ih c fun q hq => hpre q (List.mem_cons_of_mem _ hq)

variable [DecidableEq α]

theorem update_of_notMem {h a v : α} {l : List α} (c : Chain null next h l) (ha : a ∉ l) :
    Chain null (Function.update next a v) h l :=
  c.congr fun _ hp => Function.update_of_ne (ne_of_mem_of_not_mem hp ha) _ _

/-- Writing the old head to a node outside the list puts the node in front. -/
theorem push {h a : α} {l : List α} (c : Chain null next h l) (hnull : a ≠ null) (ha : a ∉ l) :
    Chain null (Function.update next a h) a (a :: l) :=
  ⟨rfl, hnull, by simpa using c.update_of_notMem ha⟩

/-- **Bypassing a segment**: pointing the node `p` at what follows the segment `seg` unlinks the
segment and leaves the order of the rest. -/
theorem unlink {h p v : α} {pre seg post : List α}
    (c : Chain null next h (pre ++ p :: (seg ++ post))) (hnd : (pre ++ p :: post).Nodup)
    (hv : Chain null next v post) :
    Chain null (Function.update next p v) h (pre ++ p :: post) := by
  have hp : p ∉ post := by
    intro hp
    simp [List.nodup_append, hp] at hnd
  induction pre generalizing h with
  | nil =>
    obtain ⟨rfl, hnull, -⟩ := c
    exact ⟨rfl, hnull, by simpa using hv.update_of_notMem hp⟩
  | cons q pre ih =>
    obtain ⟨rfl, hnull, c⟩ := c
    have hq : h ≠ p := by
      rintro rfl
      simp at hnd
    refine ⟨rfl, hnull, ?_⟩
    rw [Function.update_of_ne hq]
    exact ih c (by simpa using (List.nodup_cons.1 hnd).2)

end Chain

end HustOS.Foundations
