import Mathlib.Data.List.Range
import Mathlib.Logic.Basic

/-!
# Computations that may fail

Code that may stop with an error is a value of `Except ε α`, a `do` block threading its state
explicitly. A successful run of a sequence is a successful run of each part (`bind_ok_iff`), and
an error of a sequence comes from one of its parts (`bind_error_iff`); the simp set below reduces
the other forms a `do` block produces.

`Sat x P E` is the total postcondition of a computation: what it returns satisfies `P` and what it
fails with satisfies `E`. A sequence is proved part by part (`Sat.bind`).
-/

namespace HustOS.Foundations

universe u

variable {ε : Type*} {α β : Type u}

@[simp] theorem ok_bind (a : α) (f : α → Except ε β) : (Except.ok a >>= f) = f a := rfl

@[simp] theorem error_bind (e : ε) (f : α → Except ε β) :
    ((Except.error e : Except ε α) >>= f) = Except.error e := rfl

@[simp] theorem pure_eq_ok (a : α) : (pure a : Except ε α) = Except.ok a := rfl

@[simp] theorem throw_eq_error (e : ε) : (throw e : Except ε α) = Except.error e := rfl

/-- A sequence returns when its first part does and the rest does on its value. -/
theorem bind_ok_iff (x : Except ε α) (f : α → Except ε β) (r : β) :
    (x >>= f) = Except.ok r ↔ ∃ a, x = Except.ok a ∧ f a = Except.ok r := by
  rcases x with e | a <;> simp

/-- A sequence fails in its first part or in the rest. -/
theorem bind_error_iff (x : Except ε α) (f : α → Except ε β) (e : ε) :
    (x >>= f) = Except.error e ↔
      x = Except.error e ∨ ∃ a, x = Except.ok a ∧ f a = Except.error e := by
  rcases x with e' | a <;> simp

/-- The last step of a fold over a range. -/
theorem foldlM_range_succ (f : α → ℕ → Except ε α) (a : α) (n : ℕ) :
    (List.range (n + 1)).foldlM f a = ((List.range n).foldlM f a >>= fun b => f b n) := by
  rw [List.range_succ, List.foldlM_append]
  simp only [List.foldlM_cons, List.foldlM_nil, bind_pure]

theorem toOption_eq_some {x : Except ε α} {a : α} : x.toOption = some a ↔ x = .ok a := by
  cases x with
  | error e => exact ⟨nofun, nofun⟩
  | ok b => exact ⟨fun h => congrArg _ (Option.some.inj h), fun h => congrArg _ (Except.ok.inj h)⟩

/-! ## Postconditions -/

/-- What a computation returns satisfies `P`, and what it fails with satisfies `E`. -/
def Sat (x : Except ε α) (P : α → Prop) (E : ε → Prop) : Prop :=
  match x with
  | .ok a => P a
  | .error e => E e

variable {x : Except ε α} {f : α → Except ε β} {P P' : α → Prop} {Q : β → Prop} {E : ε → Prop}

@[simp] theorem sat_ok (a : α) : Sat (Except.ok a) P E ↔ P a := Iff.rfl

@[simp] theorem sat_error (e : ε) : Sat (Except.error e : Except ε α) P E ↔ E e := Iff.rfl

theorem Sat.bind (hx : Sat x P E) (hf : ∀ a, P a → Sat (f a) Q E) : Sat (x >>= f) Q E := by
  rcases x with e | a
  · exact hx
  · exact hf a hx

theorem Sat.mono (hx : Sat x P E) (h : ∀ a, P a → P' a) : Sat x P' E := by
  rcases x with e | a
  · exact hx
  · exact h a hx

/-- Two descriptions of what is returned. -/
theorem Sat.and {E' : ε → Prop} (hx : Sat x P E) (hx' : Sat x P' E') :
    Sat x (fun a => P a ∧ P' a) E := by
  rcases x with e | a
  · exact hx
  · exact ⟨hx, hx'⟩

/-- What holds of everything. -/
theorem sat_true (x : Except ε α) (h : ∀ a, P a) : Sat x P fun _ => True := by
  rcases x with e | a
  · trivial
  · exact h a

theorem Sat.mono' {E' : ε → Prop} (hx : Sat x P E) (h : ∀ e, E e → E' e) : Sat x P E' := by
  rcases x with e | a
  · exact h e hx
  · exact hx

end HustOS.Foundations
