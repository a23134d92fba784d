import HustOS.Proc.Identity
import Mathlib.Data.Fin.Tuple.Basic

/-!
# Waiting for any child

`process_wait(-1)` looks at the children in the order of their elements in `procs[]`. Its loop
leaves at the first one, whatever the status of that child is: if the child has not ended the caller
sleeps, though a child further on may be a zombie. It knows a child by the pointer to the parent,
where the search for a given process id compares process ids; a parent that runs as the copy made by
`schedule(1)` no longer has that address, and finds no child at all.

The answer is right exactly if the first element that points at the caller is a zombie, or if no
child is a zombie and the elements that point at the caller are not missing any child
(`waitsRight_iff`).
-/

namespace HustOS.Proc

open Foundations

variable {s : Sched} {i j : Fin NPROC}

/-! ## The purpose -/

/-- The caller of a wait for any child leaves through `schedule`, from the wait queue. -/
def WaitBlocks (s : Sched) : Prop :=
  processWait (-1) s = (do let s' ← sleep s; return (none, s'))

/-- What the caller is told, by the children that it has. -/
structure WaitsRight (s : Sched) : Prop where
  /-- If a child has ended the call returns at once, with the process id of such a child. -/
  zombie : (∃ i, ChildOf s s.pid i ∧ (s.mem (.procs i)).status = .zombie) →
    ∃ i, ChildOf s s.pid i ∧ (s.mem (.procs i)).status = .zombie ∧
      processWait (-1) s = .ok (some (s.mem (.procs i)).pid, s)
  /-- It blocks if there are children and none of them has ended. -/
  blocks : WaitBlocks s ↔
    (∃ i, ChildOf s s.pid i) ∧ ∀ i, ChildOf s s.pid i → (s.mem (.procs i)).status ≠ .zombie
  /-- It fails if there is no child. -/
  none : processWait (-1) s = .ok (some (-1), s) ↔ ∀ i, ¬ ChildOf s s.pid i

/-! ## What the loop stops at -/

/-- The element `i` points at the structure of the caller. -/
def PointsAt (s : Sched) (i : Fin NPROC) : Prop :=
  (s.mem (.procs i)).parent ≠ .null ∧ (s.mem (.procs i)).parent = s.current

instance (s : Sched) (i : Fin NPROC) : Decidable (PointsAt s i) :=
  inferInstanceAs (Decidable (_ ∧ _))

/-- The first element that points at the caller. -/
def FirstAt (s : Sched) (i : Fin NPROC) : Prop :=
  PointsAt s i ∧ ∀ j < i, ¬ PointsAt s j

theorem FirstAt.unique (hi : FirstAt s i) (hj : FirstAt s j) : i = j := by
  rcases lt_trichotomy i j with h | h | h
  · exact absurd hi.1 (hj.2 i h)
  · exact h
  · exact absurd hj.1 (hi.2 j h)

theorem waitedChild_eq_find (s : Sched) :
    waitedChild (-1) s = Fin.find? fun i => decide (PointsAt s i) := by
  rw [waitedChild, if_pos rfl, Fin.find?_eq_find?_finRange]
  rfl

theorem waitedChild_any : waitedChild (-1) s = some i ↔ FirstAt s i := by
  rw [waitedChild_eq_find, Fin.find?_eq_some_iff, FirstAt]
  simp only [decide_eq_true_eq, decide_eq_false_iff_not]

theorem waitedChild_eq_none : waitedChild (-1) s = none ↔ ∀ i, ¬ PointsAt s i := by
  rw [waitedChild_eq_find, Fin.find?_eq_none_iff]
  simp only [decide_eq_false_iff_not]

/-- An element in use that points at the caller is a child. -/
theorem PointsAt.childOf (h : PointsAt s i) (hmade : (s.mem (.procs i)).status ≠ .free) :
    ChildOf s s.pid i :=
  ⟨hmade, h.1, by rw [h.2, Sched.pid]⟩

/-! ## The three answers -/

theorem processWait_of_zombie (h : FirstAt s i) (hz : (s.mem (.procs i)).status = .zombie) :
    processWait (-1) s = .ok (some (s.mem (.procs i)).pid, s) := by
  rw [processWait, waitedChild_any.2 h]
  dsimp only
  rw [if_pos hz]
  rfl

theorem processWait_of_alive (h : FirstAt s i) (hz : (s.mem (.procs i)).status ≠ .zombie) :
    WaitBlocks s := by
  rw [WaitBlocks, processWait, waitedChild_any.2 h]
  dsimp only
  rw [if_neg hz]

theorem processWait_of_none (h : ∀ i, ¬ PointsAt s i) :
    processWait (-1) s = .ok (some (-1), s) := by
  rw [processWait, waitedChild_eq_none.2 h]
  rfl

/-- A call that blocks does not return. -/
theorem WaitBlocks.ne (h : WaitBlocks s) (r : ℤ) : processWait (-1) s ≠ .ok (some r, s) := by
  rw [h]
  cases sleep s with
  | error f => exact nofun
  | ok s' => exact nofun

/-- **Waiting for any child.** The answer is right exactly if the first element that points at the
caller is a zombie, or if no child is a zombie and there is a child just if there is such an
element. -/
theorem waitsRight_iff (s : Sched) : WaitsRight s ↔
    (∃ i, FirstAt s i ∧ (s.mem (.procs i)).status = .zombie) ∨
      (∀ i, ChildOf s s.pid i → (s.mem (.procs i)).status ≠ .zombie) ∧
        ((∃ i, PointsAt s i) ↔ ∃ i, ChildOf s s.pid i) := by
  cases hw : waitedChild (-1) s with
  | none =>
    have hno := waitedChild_eq_none.1 hw
    have hret := processWait_of_none hno
    have hnot : ¬ WaitBlocks s := fun h => h.ne _ hret
    constructor
    · intro h
      have hchild := h.none.1 hret
      exact .inr ⟨fun i hi => absurd hi (hchild i),
        fun ⟨i, hi⟩ => absurd hi (hno i), fun ⟨i, hi⟩ => absurd hi (hchild i)⟩
    · rintro (⟨i, hi, -⟩ | ⟨-, hiff⟩)
      · exact absurd hi.1 (hno i)
      · have hchild : ∀ i, ¬ ChildOf s s.pid i := fun i hi =>
          (hiff.2 ⟨i, hi⟩).elim hno
        exact ⟨fun ⟨i, hi, _⟩ => absurd hi (hchild i),
          ⟨fun h => absurd h hnot, fun ⟨⟨i, hi⟩, _⟩ => absurd hi (hchild i)⟩,
          ⟨fun _ => hchild, fun _ => hret⟩⟩
  | some i =>
    have hfirst := waitedChild_any.1 hw
    by_cases hz : (s.mem (.procs i)).status = .zombie
    · have hret := processWait_of_zombie hfirst hz
      have hchild : ChildOf s s.pid i := hfirst.1.childOf (by rw [hz]; exact nofun)
      refine ⟨fun _ => .inl ⟨i, hfirst, hz⟩, fun _ => ⟨fun _ => ⟨i, hchild, hz, hret⟩, ?_, ?_⟩⟩
      · exact ⟨fun h => absurd hret (h.ne _), fun h => absurd hz (h.2 i hchild)⟩
      · refine ⟨fun h => ?_, fun h => absurd hchild (h i)⟩
        -- a process id is not negative
        rw [hret] at h
        have hpid : (((s.mem (.procs i)).pid : ℕ) : ℤ) = -1 := by
          simpa using congrArg Prod.fst (Except.ok.inj h)
        omega
    · have hblocks := processWait_of_alive hfirst hz
      constructor
      · intro h
        obtain ⟨hsome, hall⟩ := h.blocks.1 hblocks
        exact .inr ⟨hall, fun _ => hsome, fun _ => ⟨i, hfirst.1⟩⟩
      · rintro (⟨j, hj, hjz⟩ | ⟨hall, hiff⟩)
        · rw [hj.unique hfirst] at hjz
          exact absurd hjz hz
        · have hsome := hiff.1 ⟨i, hfirst.1⟩
          exact ⟨fun ⟨j, hj, hjz⟩ => absurd hjz (hall j hj),
            ⟨fun _ => ⟨hsome, hall⟩, fun _ => hblocks⟩,
            ⟨fun h => absurd h (hblocks.ne _), fun h => hsome.elim fun j hj => absurd hj (h j)⟩⟩

/-- **A zombie that is overlooked.** Of two children the second has ended, and the wait blocks. -/
theorem waitsRight_fails : ¬ ∀ s, Reachable s → WaitsRight s := by
  intro hall
  obtain ⟨s, hs, -, ht⟩ := exists_run (C := fun _ _ => True) [.fork, .fork, .yield, .yield, .exit]
    (fun s => s.pid = 0 ∧ waitedChild (-1) s = some 1 ∧ (s.mem (.procs 1)).status = .ready ∧
      ChildOf s 0 2 ∧ (s.mem (.procs 2)).status = .zombie) (by decide +kernel)
  obtain ⟨hpid, hfirst, hready, hchild, hz⟩ := of_decide_eq_true ht
  have hblocks := processWait_of_alive (waitedChild_any.1 hfirst) (by rw [hready]; exact nofun)
  have h := (hall s hs).blocks.1 hblocks
  exact h.2 2 (hpid ▸ hchild) hz

end HustOS.Proc
