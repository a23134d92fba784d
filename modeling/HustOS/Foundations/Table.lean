import Mathlib.Algebra.BigOperators.Group.Finset.Basic
import Mathlib.Data.List.AList
import Mathlib.Tactic.Common

/-!
# Counting the values of a table

A table maps each of finitely many keys to a value (`AList`). `tally s p` counts the keys whose
value satisfies `p`; an insertion or an erasure changes it by at most one (`tally_insert`,
`tally_erase`), and it only depends on `p` at the values that occur (`tally_congr`).

A total over a finite set of keys of a function changes at one key by what the value there changes
(`sum_update_add`).
-/

namespace HustOS.Foundations

variable {κ ν : Type*} [DecidableEq κ] {s : AList fun _ : κ => ν} {a a' : κ} {v : ν}
  {p q : ν → Prop} [DecidablePred p] [DecidablePred q]

/-- The number of keys whose value satisfies `p`. -/
def tally (s : AList fun _ : κ => ν) (p : ν → Prop) [DecidablePred p] : ℕ :=
  s.entries.countP fun e => p e.2

omit [DecidableEq κ] in
@[simp] theorem tally_empty : tally (∅ : AList fun _ : κ => ν) p = 0 := rfl

theorem mem_entries_iff {e : Sigma fun _ : κ => ν} :
    e ∈ s.entries ↔ s.lookup e.1 = some e.2 :=
  (AList.mem_lookup_iff (s := s)).symm

theorem tally_insert (h : s.lookup a = none) :
    tally (s.insert a v) p = tally s p + if p v then 1 else 0 := by
  have ha : a ∉ s := AList.lookup_eq_none.1 h
  rw [tally, tally, AList.entries_insert_of_notMem ha, List.countP_cons]
  simp

theorem entries_perm_erase (h : s.lookup a = some v) :
    s.entries.Perm (⟨a, v⟩ :: (s.erase a).entries) := by
  have hmem : a ∈ s.entries.keys := by
    have : a ∈ s := AList.lookup_isSome.1 (by rw [h]; rfl)
    exact this
  obtain ⟨v', l₁, l₂, hl, he, hk⟩ := List.exists_of_kerase hmem
  have hv : v' = v := by
    have : s.lookup a = some v' := (mem_entries_iff (s := s) (e := ⟨a, v'⟩)).1 (by rw [he]; simp)
    exact Option.some.inj (this.symm.trans h)
  subst hv
  rw [show (s.erase a).entries = l₁ ++ l₂ from hk, he]
  exact List.perm_middle

theorem tally_erase (h : s.lookup a = some v) :
    tally (s.erase a) p + (if p v then 1 else 0) = tally s p := by
  rw [tally, tally, (entries_perm_erase h).countP_eq, List.countP_cons]
  simp

/-- The keys of a new value. -/
theorem keys_insert_of_lookup (h : s.lookup a = none) : (s.insert a v).keys = a :: s.keys := by
  rw [AList.keys_insert, List.erase_of_not_mem]
  exact AList.lookup_eq_none.1 h

/-- The count along any list of the keys. -/
theorem tally_eq_countP {l : List κ} (h : l.Perm s.keys) :
    tally s p = l.countP fun a => (s.lookup a).any fun v => p v := by
  rw [h.countP_eq, AList.keys, List.keys, List.countP_map, tally]
  refine List.countP_congr fun e he => ?_
  simp [mem_entries_iff.1 he]

theorem tally_congr (h : ∀ a v, s.lookup a = some v → (p v ↔ q v)) : tally s p = tally s q := by
  refine List.countP_congr fun e he => ?_
  simpa using h e.1 e.2 (mem_entries_iff.1 he)

theorem tally_pos_iff : 0 < tally s p ↔ ∃ a v, s.lookup a = some v ∧ p v := by
  rw [tally, List.countP_pos_iff]
  constructor
  · rintro ⟨e, he, hp⟩
    exact ⟨e.1, e.2, mem_entries_iff.1 he, by simpa using hp⟩
  · rintro ⟨a, v, h, hp⟩
    exact ⟨⟨a, v⟩, mem_entries_iff.2 h, by simpa using hp⟩

theorem lookup_insert_eq (s : AList fun _ : κ => ν) (a a' : κ) (v : ν) :
    (s.insert a v).lookup a' = if a' = a then some v else s.lookup a' := by
  split
  · subst a'
    exact AList.lookup_insert s
  · rename_i h
    exact AList.lookup_insert_ne h

theorem lookup_erase_eq (s : AList fun _ : κ => ν) (a a' : κ) :
    (s.erase a).lookup a' = if a' = a then none else s.lookup a' := by
  split
  · subst a'
    exact AList.lookup_erase a s
  · rename_i h
    exact AList.lookup_erase_ne h

theorem tally_insert_of_lookup {w : ν} (h : s.lookup a = some w) :
    tally (s.insert a v) p + (if p w then 1 else 0) = tally s p + if p v then 1 else 0 := by
  rw [← tally_erase h, tally, tally, AList.entries_insert, List.countP_cons]
  change List.countP _ (List.kerase a s.entries) + _ + _ = List.countP _ (List.kerase a s.entries) +
    _ + _
  simp only [decide_eq_true_eq]
  omega

/-- A total after the function is changed at one place. -/
theorem sum_update_add {ι α : Type*} [DecidableEq ι] {t : Finset ι} {d : ι} (hd : d ∈ t)
    (f : ι → α) (a : α) (g : α → ℕ) :
    ∑ i ∈ t, g (Function.update f d a i) + g (f d) = ∑ i ∈ t, g (f i) + g a := by
  rw [← Finset.add_sum_erase t _ hd, ← Finset.add_sum_erase t (fun i => g (f i)) hd,
    Function.update_self]
  have hrest : ∑ i ∈ t.erase d, g (Function.update f d a i) = ∑ i ∈ t.erase d, g (f i) := by
    refine Finset.sum_congr rfl fun i hi => ?_
    rw [Function.update_of_ne (Finset.ne_of_mem_erase hi)]
  rw [hrest]
  omega

end HustOS.Foundations
