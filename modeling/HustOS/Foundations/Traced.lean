import HustOS.Foundations.Outcome
import Mathlib.Tactic.Common

/-!
# Computations that leave a trace

A computation over a state `σ` that may fail and that records what it emits. What it has emitted
when it fails stays emitted, so a property of the trace (`Emits`) is about the whole of what the
computation did, whether it returns or not; `Always` is that property from every state. A sequence
emits what its first part does, and then what the rest does where the first part returns
(`emits_bind`).

`Runs x s l a s'` says what a run that returns has emitted (`Runs.bind`, `Runs.of_bind`).
`Spec P x s Q E` is the triple of such a computation: what it emits satisfies `P`, what it returns
`Q` and what it fails with `E`. Sequences are proved part by part (`Spec.bind`).
-/

namespace HustOS.Foundations

/-- A computation over the state `σ` that emits values of `ω` and may fail with an `ε`. -/
def Traced (ω ε σ α : Type) : Type := σ → List ω × Except ε (α × σ)

namespace Traced

variable {ω ε σ α β : Type}

protected def pure (a : α) : Traced ω ε σ α := fun s => ([], .ok (a, s))

protected def bind (x : Traced ω ε σ α) (f : α → Traced ω ε σ β) : Traced ω ε σ β := fun s =>
  match x s with
  | (l, .error e) => (l, .error e)
  | (l, .ok (a, s')) => (l ++ (f a s').1, (f a s').2)

instance : Monad (Traced ω ε σ) where
  pure := Traced.pure
  bind := Traced.bind

/-- A computation that emits nothing. -/
def lift (f : σ → Except ε (α × σ)) : Traced ω ε σ α := fun s => ([], f s)

/-- The state. -/
def get : Traced ω ε σ σ := lift fun s => .ok (s, s)

/-- A value computed from the state. -/
def read (f : σ → Except ε α) : Traced ω ε σ α := lift fun s => do return (← f s, s)

/-- A change of the state. -/
def act (f : σ → Except ε σ) : Traced ω ε σ Unit := lift fun s => do return ((), ← f s)

/-- Failure. -/
def fail (e : ε) : Traced ω ε σ α := lift fun _ => .error e

/-- Every value that the computation emits from the state `s` satisfies `P`. -/
def Emits (P : ω → Prop) (x : Traced ω ε σ α) (s : σ) : Prop := ∀ w ∈ (x s).1, P w

variable {P : ω → Prop}

@[simp] theorem emits_lift (f : σ → Except ε (α × σ)) (s : σ) :
    Emits P (lift f : Traced ω ε σ α) s := nofun

@[simp] theorem emits_pure (a : α) (s : σ) : Emits P (pure a : Traced ω ε σ α) s := nofun

/-- A sequence emits what its parts emit. -/
theorem emits_bind (x : Traced ω ε σ α) (f : α → Traced ω ε σ β) (s : σ) :
    Emits P (x >>= f) s ↔
      Emits P x s ∧ ∀ a s', (x s).2 = .ok (a, s') → Emits P (f a) s' := by
  have hb : (x >>= f) s = match x s with
      | (l, .error e) => (l, .error e)
      | (l, .ok (a, s')) => (l ++ (f a s').1, (f a s').2) := rfl
  simp only [Emits, hb]
  rcases x s with ⟨l, e | ⟨a, s'⟩⟩
  · simp
  · simp only [List.mem_append, or_imp, forall_and, Except.ok.injEq, Prod.mk.injEq, and_imp]
    refine and_congr_right fun _ => ⟨?_, fun h => h a s' rfl rfl⟩
    rintro h b t rfl rfl
    exact h

/-- A sequence whose first part returns emits what that part does, and then what the rest does. -/
theorem emits_bind_of_ok {x : Traced ω ε σ α} {s s' : σ} {a : α} (h : (x s).2 = .ok (a, s'))
    (f : α → Traced ω ε σ β) : Emits P (x >>= f) s ↔ Emits P x s ∧ Emits P (f a) s' := by
  rw [emits_bind, h]
  refine and_congr_right fun _ => ⟨fun hf => hf a s' rfl, fun hf b t hbt => ?_⟩
  obtain ⟨rfl, rfl⟩ := Prod.mk.inj (Except.ok.inj hbt)
  exact hf

/-- After a part that emits nothing, a sequence emits what the rest does. -/
theorem emits_lift_bind (g : σ → Except ε (α × σ)) (f : α → Traced ω ε σ β) (s : σ) :
    Emits P (lift g >>= f) s ↔ ∀ a s', g s = .ok (a, s') → Emits P (f a) s' := by
  rw [emits_bind]
  exact and_iff_right (emits_lift g s)

/-! ## Emitting -/

/-- Emit `w` and then compute. -/
def emit (w : ω) (f : σ → Except ε (α × σ)) : Traced ω ε σ α := fun s => ([w], f s)

/-- Emit `w`. -/
def tell (w : ω) : Traced ω ε σ Unit := emit w fun s => .ok ((), s)

@[simp] theorem emits_emit (w : ω) (f : σ → Except ε (α × σ)) (s : σ) :
    Emits P (emit w f) s ↔ P w := by
  simp [Emits, emit]

@[simp] theorem emits_read (f : σ → Except ε α) (s : σ) :
    Emits P (read f : Traced ω ε σ α) s := nofun

@[simp] theorem emits_act (f : σ → Except ε σ) (s : σ) :
    Emits P (act f : Traced ω ε σ Unit) s := nofun

@[simp] theorem emits_get (s : σ) : Emits P (get : Traced ω ε σ σ) s := nofun

@[simp] theorem emits_fail (e : ε) (s : σ) : Emits P (fail e : Traced ω ε σ α) s := nofun

@[simp] theorem emits_tell (w : ω) (s : σ) : Emits P (tell w : Traced ω ε σ Unit) s ↔ P w :=
  emits_emit w _ s

/-- The computation emits values with `P` only, from whatever state. -/
def Always (P : ω → Prop) (x : Traced ω ε σ α) : Prop := ∀ s, Emits P x s

namespace Always

variable {x y : Traced ω ε σ α} {f : α → Traced ω ε σ β}

theorem pure (a : α) : Always P (Pure.pure a : Traced ω ε σ α) := fun s => emits_pure a s

theorem get : Always P (Traced.get : Traced ω ε σ σ) := fun s => emits_get s

theorem lift (g : σ → Except ε (α × σ)) : Always P (Traced.lift g : Traced ω ε σ α) :=
  fun s => emits_lift g s

theorem read (g : σ → Except ε α) : Always P (Traced.read g : Traced ω ε σ α) :=
  fun s => emits_read g s

theorem act (g : σ → Except ε σ) : Always P (Traced.act g : Traced ω ε σ Unit) :=
  fun s => emits_act g s

theorem fail (e : ε) : Always P (Traced.fail e : Traced ω ε σ α) := fun s => emits_fail e s

theorem tell {w : ω} (h : P w) : Always P (Traced.tell w : Traced ω ε σ Unit) :=
  fun s => (emits_tell w s).2 h

theorem bind (hx : Always P x) (hf : ∀ a, Always P (f a)) : Always P (x >>= f) := fun s =>
  (emits_bind x f s).2 ⟨hx s, fun a s' _ => hf a s'⟩

theorem ite {c : Prop} [Decidable c] (hx : Always P x) (hy : Always P y) :
    Always P (if c then x else y) := by
  split
  · exact hx
  · exact hy

end Always

/-! ## Without the trace -/

@[simp] theorem snd_pure (a : α) (s : σ) :
    ((pure a : Traced ω ε σ α) s).2 = .ok (a, s) := rfl

@[simp] theorem snd_lift (f : σ → Except ε (α × σ)) (s : σ) :
    ((lift f : Traced ω ε σ α) s).2 = f s := rfl

@[simp] theorem snd_emit (w : ω) (f : σ → Except ε (α × σ)) (s : σ) : ((emit w f) s).2 = f s := rfl

@[simp] theorem snd_get (s : σ) : ((get : Traced ω ε σ σ) s).2 = .ok (s, s) := rfl

@[simp] theorem snd_read (f : σ → Except ε α) (s : σ) :
    ((read f : Traced ω ε σ α) s).2 = do return (← f s, s) := rfl

@[simp] theorem snd_act (f : σ → Except ε σ) (s : σ) :
    ((act f : Traced ω ε σ Unit) s).2 = do return ((), ← f s) := rfl

@[simp] theorem snd_tell (w : ω) (s : σ) : ((tell w : Traced ω ε σ Unit) s).2 = .ok ((), s) := rfl

@[simp] theorem snd_fail (e : ε) (s : σ) : ((fail e : Traced ω ε σ α) s).2 = .error e := rfl

/-- A sequence computes its first part and then the rest. -/
@[simp] theorem snd_bind (x : Traced ω ε σ α) (f : α → Traced ω ε σ β) (s : σ) :
    ((x >>= f) s).2 = (x s).2 >>= fun r => (f r.1 r.2).2 := by
  change (Traced.bind x f s).2 = _
  rw [Traced.bind]
  rcases x s with ⟨l, e | ⟨a, s'⟩⟩ <;> rfl

theorem snd_ite (c : Prop) [Decidable c] (x y : Traced ω ε σ α) (s : σ) :
    ((if c then x else y) s).2 = if c then (x s).2 else (y s).2 := by
  split <;> rfl

/-! ## Runs that return -/

/-- The computation emits `l` and returns `a` in the state `s'`. -/
def Runs (x : Traced ω ε σ α) (s : σ) (l : List ω) (a : α) (s' : σ) : Prop := x s = (l, .ok (a, s'))

namespace Runs

variable {x : Traced ω ε σ α} {f : α → Traced ω ε σ β} {s s' s'' : σ} {l l' : List ω}
  {a : α} {b : β}

theorem snd (h : Runs x s l a s') : (x s).2 = .ok (a, s') := congrArg Prod.snd h

/-- A computation that returns has emitted something. -/
theorem of_snd (h : (x s).2 = .ok (a, s')) : ∃ l, Runs x s l a s' := ⟨(x s).1, Prod.ext rfl h⟩

/-- A computation has one run from a state. -/
theorem unique (h : Runs x s l a s') {a' : α} (h' : Runs x s l' a' s'') :
    l = l' ∧ a = a' ∧ s' = s'' := by
  obtain ⟨hl, hr⟩ := Prod.mk.inj (h.symm.trans h')
  obtain ⟨ha, hs⟩ := Prod.mk.inj (Except.ok.inj hr)
  exact ⟨hl, ha, hs⟩

theorem congr (h : Runs x s l a s') (hs : s' = s'') : Runs x s l a s'' := hs ▸ h

theorem pure : Runs (Pure.pure a : Traced ω ε σ α) s [] a s := rfl

theorem get : Runs (Traced.get : Traced ω ε σ σ) s [] s s := rfl

theorem tell (w : ω) : Runs (Traced.tell w : Traced ω ε σ Unit) s [w] () s := rfl

theorem lift {g : σ → Except ε (α × σ)} (h : g s = .ok (a, s')) :
    Runs (Traced.lift g : Traced ω ε σ α) s [] a s' := congrArg (Prod.mk []) h

theorem read {g : σ → Except ε α} (h : g s = .ok a) :
    Runs (Traced.read g : Traced ω ε σ α) s [] a s := lift (by rw [h]; rfl)

theorem act {g : σ → Except ε σ} (h : g s = .ok s') :
    Runs (Traced.act g : Traced ω ε σ Unit) s [] () s' := lift (by rw [h]; rfl)

theorem bind (h : Runs x s l a s') (hf : Runs (f a) s' l' b s'') :
    Runs (x >>= f) s (l ++ l') b s'' := by
  change Traced.bind x f s = _
  rw [Traced.bind, h]
  dsimp only
  rw [hf]

/-- A part that emits nothing. -/
theorem quiet_bind (h : Runs x s [] a s') (hf : Runs (f a) s' l b s'') : Runs (x >>= f) s l b s'' :=
  bind h hf

theorem tell_bind {w : ω} {f : Unit → Traced ω ε σ β} (hf : Runs (f ()) s l b s'') :
    Runs (Traced.tell w >>= f) s (w :: l) b s'' :=
  bind (tell w) hf

theorem of_lift {g : σ → Except ε (α × σ)} (h : Runs (Traced.lift g) s l a s') :
    l = [] ∧ g s = .ok (a, s') :=
  ⟨(congrArg Prod.fst h).symm, h.snd⟩

theorem of_read {g : σ → Except ε α} (h : Runs (Traced.read g) s l a s') :
    l = [] ∧ g s = .ok a ∧ s' = s := by
  obtain ⟨hl, hg⟩ := h.of_lift
  cases hgs : g s with
  | error e =>
    rw [hgs] at hg
    cases hg
  | ok b =>
    rw [hgs] at hg
    cases hg
    exact ⟨hl, rfl, rfl⟩

theorem of_act {g : σ → Except ε σ} {u : Unit} (h : Runs (Traced.act g) s l u s') :
    l = [] ∧ g s = .ok s' := by
  obtain ⟨hl, hg⟩ := h.of_lift
  cases hgs : g s with
  | error e =>
    rw [hgs] at hg
    cases hg
  | ok t =>
    rw [hgs] at hg
    cases hg
    exact ⟨hl, rfl⟩

/-- A run that returns is a run of each part. -/
theorem of_bind (h : Runs (x >>= f) s l b s'') :
    ∃ l₁ a s' l₂, Runs x s l₁ a s' ∧ Runs (f a) s' l₂ b s'' ∧ l = l₁ ++ l₂ := by
  change Traced.bind x f s = _ at h
  rw [Traced.bind] at h
  rcases hx : x s with ⟨l₁, e | ⟨a, s'⟩⟩
  · rw [hx] at h
    cases h
  · rw [hx] at h
    dsimp only at h
    obtain ⟨hl, hrest⟩ := Prod.mk.inj h
    exact ⟨l₁, a, s', _, hx, Prod.ext rfl hrest, hl.symm⟩

/-- What the rest of a run emits the whole run emits. -/
theorem mem_of_bind {w : ω} (h : Runs (x >>= f) s l b s'')
    (hf : ∀ a s' l', Runs (f a) s' l' b s'' → w ∈ l') : w ∈ l := by
  obtain ⟨l₁, a, s', l₂, -, hrest, rfl⟩ := h.of_bind
  exact List.mem_append_right _ (hf a s' l₂ hrest)

end Runs

/-! ## Triples -/

variable {Q : α → σ → Prop} {R : β → σ → Prop} {E : ε → Prop} {x : Traced ω ε σ α}
  {f : α → Traced ω ε σ β} {s : σ}

/-- What the computation emits satisfies `P`, what it returns `Q` and what it fails with `E`. -/
structure Spec (P : ω → Prop) (x : Traced ω ε σ α) (s : σ) (Q : α → σ → Prop) (E : ε → Prop) :
    Prop where
  emits : Emits P x s
  sat : Sat (x s).2 (fun r => Q r.1 r.2) E

namespace Spec

theorem pure {a : α} (h : Q a s) : Spec P (Pure.pure a : Traced ω ε σ α) s Q E :=
  ⟨emits_pure a s, h⟩

theorem lift {g : σ → Except ε (α × σ)} (h : Sat (g s) (fun r => Q r.1 r.2) E) :
    Spec P (Traced.lift g : Traced ω ε σ α) s Q E :=
  ⟨emits_lift g s, h⟩

theorem emit {w : ω} {g : σ → Except ε (α × σ)} (hw : P w) (h : Sat (g s) (fun r => Q r.1 r.2) E) :
    Spec P (Traced.emit w g) s Q E :=
  ⟨(emits_emit w g s).2 hw, h⟩

theorem bind (h : Spec P x s Q E) (hf : ∀ a s', Q a s' → Spec P (f a) s' R E) :
    Spec P (x >>= f) s R E := by
  have hsat := h.sat
  refine ⟨(emits_bind x f s).2 ⟨h.emits, fun a s' ha => ?_⟩, ?_⟩
  · rw [ha] at hsat
    exact (hf a s' hsat).emits
  · rw [snd_bind]
    exact Sat.bind hsat fun r hr => (hf r.1 r.2 hr).sat

/-- After a read of the state the rest goes on with it. -/
theorem bind_get {f : σ → Traced ω ε σ β} (h : Spec P (f s) s R E) :
    Spec P (Traced.get >>= f) s R E :=
  ⟨h.emits, h.sat⟩

theorem mono {Q' : α → σ → Prop} (h : Spec P x s Q E) (hQ : ∀ a s', Q a s' → Q' a s') :
    Spec P x s Q' E :=
  ⟨h.emits, h.sat.mono fun r => hQ r.1 r.2⟩

theorem imp {P' : ω → Prop} (h : Spec P x s Q E) (hP : ∀ w, P w → P' w) : Spec P' x s Q E :=
  ⟨fun w hw => hP w (h.emits w hw), h.sat⟩

theorem mono' {E' : ε → Prop} (h : Spec P x s Q E) (hE : ∀ e, E e → E' e) : Spec P x s Q E' :=
  ⟨h.emits, h.sat.mono' hE⟩

/-- A computation that never fails satisfies any condition on failures. -/
theorem total (h : Spec P x s Q fun _ => False) : Spec P x s Q E := h.mono' fun _ he => he.elim

end Spec

end Traced

end HustOS.Foundations
