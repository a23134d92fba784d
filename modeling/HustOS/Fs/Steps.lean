import HustOS.Fs.Edits

/-!
# Sequences of transitions

`Steps P s s'` is a sequence of transitions from `s` to `s'` whose tags all satisfy `P`. It keeps
the invariant, and whatever each of its transitions keeps (`Steps.keeps`); a quiet sequence keeps
the volume, the disk and the bitmap (`Quiet`).
-/

namespace HustOS.Fs

open Foundations

variable {s s' s'' : State} {P Q : Tag → Prop} {tag : Tag} {t p d v w i j b k : ℕ} {e : Dentry}
  {x : Vinode} {n : Name}

/-- A sequence of transitions with tags that satisfy `P`. -/
inductive Steps (P : Tag → Prop) (s : State) : State → Prop
  | refl : Steps P s s
  | tail {s' s'' : State} {tag : Tag} (steps : Steps P s s') (step : Trans s' tag s'')
      (tag : P tag) : Steps P s s''

namespace Steps

theorem single (h : Trans s tag s') (ht : P tag) : Steps P s s' := .tail .refl h ht

theorem trans (h : Steps P s s') (h' : Steps P s' s'') : Steps P s s'' := by
  induction h' with
  | refl => exact h
  | tail _ step ht ih => exact .tail ih step ht

theorem mono (h : Steps P s s') (hPQ : ∀ tag, P tag → Q tag) : Steps Q s s' := by
  induction h with
  | refl => exact .refl
  | tail _ step ht ih => exact .tail ih step (hPQ _ ht)

/-- **What every transition keeps, a sequence keeps.** -/
theorem keeps {I : State → Prop} (h : Steps P s s') (hs : I s)
    (hI : ∀ s s' tag, P tag → Trans s tag s' → I s → I s') : I s' := by
  induction h with
  | refl => exact hs
  | tail _ step ht ih => exact hI _ _ _ ht step ih

theorem inv (h : Steps P s s') (hs : Inv s) : Inv s' :=
  h.keeps hs fun _ _ _ _ ht hi => ht.inv hi

end Steps

/-- What a quiet sequence of transitions leaves as it is. -/
structure Quiet (s s' : State) : Prop where
  disk : s'.disk = s.disk
  freemap : s'.freemap = s.freemap
  vol : s'.vol = s.vol
  sb : s'.sb = s.sb
  root : s'.vfsRootDentry = s.vfsRootDentry

theorem Trans.quiet (ht : Trans s .quiet s') (h : Inv s) : Quiet s s' := by
  cases ht with
  | scratch buf pages => exact ⟨rfl, rfl, rfl, rfl, rfl⟩
  | load inUse absent page lt => exact ⟨rfl, rfl, h.vol_load inUse absent page, rfl, rfl⟩
  | enter dir node mem absent page lt =>
    exact ⟨rfl, rfl, And.left (vol_of_ref h (by rfl) (by rfl) node (by rfl) (by rfl)), rfl, rfl⟩
  | leave hashed node file closed =>
    exact ⟨rfl, rfl, And.left (vol_of_ref h (by rfl) (by rfl) node (by rfl) (by rfl)), rfl, rfl⟩
  | openFile hashed absent lt => exact ⟨rfl, rfl, rfl, rfl, rfl⟩
  | seek file same => exact ⟨rfl, rfl, rfl, rfl, rfl⟩
  | @cacheDir i v x c node =>
    refine ⟨rfl, rfl, vol_congr h.good (fun k => ?_) (fun _ _ => rfl) rfl, rfl, rfl⟩
    refine node_congr rfl (fun u _ => ?_) fun _ => rfl
    by_cases hu : u = v
    · dsimp only
      rw [hu, Function.update_self, node.vinode]
      rfl
    · exact congrArg (Option.map Vinode.toDinode) (Function.update_of_ne hu _ _)

/-- The tag of a quiet transition. -/
abbrev IsQuiet (tag : Tag) : Prop := tag = .quiet

theorem Steps.quiet (h : Steps IsQuiet s s') (hs : Inv s) : Quiet s s' := by
  have hboth : Inv s' ∧ Quiet s s' := by
    refine h.keeps (I := fun s' => Inv s' ∧ Quiet s s') ⟨hs, rfl, rfl, rfl, rfl, rfl⟩ ?_
    rintro s₁ s₂ tag rfl ht ⟨hi, hq⟩
    have hq' := ht.quiet hi
    exact ⟨ht.inv hi, hq'.disk.trans hq.disk, hq'.freemap.trans hq.freemap, hq'.vol.trans hq.vol,
      hq'.sb.trans hq.sb, hq'.root.trans hq.root⟩
  exact hboth.2

end HustOS.Fs
