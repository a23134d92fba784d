import HustOS.Proc.Exec

/-!
# Runs of the scheduler

A run starts with the first process and goes on with events that return. In every state of every run
the queues are lists and the places of the processes are in order (`Run.inv`); the lists themselves
are read off the links (`Sched.readyQueue`, `Sched.waitQueue`).

The structures stay the elements of `procs[]` unless a process exits whose parent sleeps
(`Step.own`), and a process becomes a zombie only by its own exit (`Step.zombie_iff`).
-/

namespace HustOS.Proc

open Foundations

variable {s s' : Sched} {v v' : View} {e : Event} {a p : Addr} {C : Sched → Event → Prop}

/-! ## The queues of a state -/

/-- The structures that are linked from an address. -/
def linkedFrom (mem : Addr → Process) : ℕ → Addr → List Addr
  | 0, _ => []
  | fuel + 1, a => if a = .null then [] else a :: linkedFrom mem fuel (mem a).queueNext

/-- The structures in the ready queue. -/
def Sched.readyQueue (s : Sched) : List Addr := linkedFrom s.mem FUEL s.readyQueueHead

/-- The structures in the wait queue. -/
def Sched.waitQueue (s : Sched) : List Addr := linkedFrom s.mem FUEL s.waitQueueHead

theorem linkedFrom_eq {mem : Addr → Process} {l : List Addr} {fuel : ℕ}
    (c : Chain .null (nextOf mem) a l) (hf : l.length < fuel) : linkedFrom mem fuel a = l := by
  induction l generalizing a fuel with
  | nil =>
    obtain ⟨fuel, rfl⟩ := Nat.exists_eq_succ_of_ne_zero hf.ne'
    rw [linkedFrom, if_pos (Chain.nil_iff.1 c)]
  | cons q l ih =>
    obtain ⟨rfl, hnull, c⟩ := c
    obtain ⟨fuel, rfl⟩ := Nat.exists_eq_succ_of_ne_zero (Nat.ne_of_gt (Nat.zero_lt_of_lt hf))
    rw [linkedFrom, if_neg hnull]
    exact congrArg _ (ih c (by simpa using hf))

theorem Queued.readyQueue (h : Queued s v) : s.readyQueue = v.ready :=
  linkedFrom_eq h.ready (length_lt h.ready (List.nodup_append.1 h.nodup).1)

theorem Queued.waitQueue (h : Queued s v) : s.waitQueue = v.wait :=
  linkedFrom_eq h.wait (length_lt h.wait (List.nodup_append.1 h.nodup).2.1)

/-! ## Runs -/

/-- The states of the runs whose events satisfy `C` where they happen. -/
inductive Run (C : Sched → Event → Prop) : Sched → Prop
  | init {s : Sched} (junk : Addr → Process) (start : sStart junk = .ok s) : Run C s
  | step {s s' : Sched} {e : Event} (run : Run C s) (cond : C s e) (exec : exec e s = .ok s') :
      Run C s'

/-- The states of all runs. -/
abbrev Reachable : Sched → Prop := Run fun _ _ => True

theorem Run.mono {D : Sched → Event → Prop} (h : Run C s) (hCD : ∀ s e, C s e → D s e) :
    Run D s := by
  induction h with
  | init junk start => exact .init junk start
  | step _ cond exec ih => exact .step ih (hCD _ _ cond) exec

/-- The first process runs alone. -/
def started (junk : Addr → Process) : Sched :=
  { initProcPool junk with
    mem := Function.update (initProcPool junk).mem (.procs 0)
      { (initProcPool junk).mem (.procs 0) with status := .running }
    current := .procs 0 }

theorem sStart_eq (junk : Addr → Process) : sStart junk = .ok (started junk) := by
  have hfind : (List.finRange NPROC).find? (fun i =>
      ((initProcPool junk).mem (.procs i)).status = .free) = some 0 := rfl
  rw [sStart, allocProcess, hfind]
  simp [insertToReadyQueue, insertToQueue, schedule, dispatch, Sched.deref, Sched.write, started,
    initProcPool]

theorem started_of_ne {junk : Addr → Process} {i : Fin NPROC} (hi : i ≠ 0) :
    (started junk).core (.procs i) = (initProcPool junk).mem (.procs i) := by
  have hmem : (started junk).mem (.procs i) = (initProcPool junk).mem (.procs i) :=
    Function.update_of_ne (fun e => hi (Addr.procs.inj e)) _ _
  rw [Sched.core, coreOf, hmem]
  rfl

theorem started_inv (junk : Addr → Process) : Inv (started junk) ⟨.procs 0, [], []⟩ := by
  have hother : ∀ i, i ≠ 0 → ((started junk).core (.procs i)).status = .free := by
    intro i hi
    rw [started_of_ne hi]
    rfl
  have hpid : ∀ i, ((started junk).core (.procs i)).pid = i := by
    intro i
    by_cases hi : i = 0
    · rw [hi]
      rfl
    · rw [started_of_ne hi]
      rfl
  refine ⟨⟨rfl, rfl, rfl, List.nodup_nil⟩, ?_⟩
  refine
    { null := by simp [View.places]
      nodup := List.nodup_singleton _
      running := rfl
      isReady := fun a ha => absurd ha List.not_mem_nil
      isBlocked := fun a ha => absurd ha List.not_mem_nil
      pid := hpid
      live := fun a ha => ?_
      placed := fun i hi => ?_
      copy := fun i hi => ?_ }
  · rw [List.mem_singleton.1 ha, hpid]
    exact ⟨fun h => Status.noConfusion h, fun h => Status.noConfusion h⟩
  · refine ⟨.procs 0, List.mem_cons_self, ?_⟩
    by_contra hne
    rw [hpid] at hne
    exact hi.1 (hother i fun e => hne e.symm)
  · cases List.mem_singleton.1 hi

/-- **In every state of a run the processes are in order.** -/
theorem Run.inv (h : Run C s) : ∃ v, Inv s v := by
  induction h with
  | init junk start =>
    rw [sStart_eq] at start
    obtain rfl := Except.ok.inj start
    exact ⟨_, started_inv junk⟩
  | step _ _ exec ih =>
    obtain ⟨v, hv⟩ := ih
    obtain ⟨v', hs⟩ := exec_step hv exec
    exact ⟨v', hs.inv hv⟩

/-- What holds of the first state and is kept by the steps of a run holds in all its states. -/
theorem Run.keeps {I : Sched → View → Prop} (h : Run C s)
    (hinit : ∀ junk, I (started junk) ⟨.procs 0, [], []⟩)
    (hstep : ∀ s v e s' v', C s e → Inv s v → I s v → Step s v e s' v' → I s' v') :
    ∃ v, Inv s v ∧ I s v := by
  induction h with
  | init junk start =>
    rw [sStart_eq] at start
    obtain rfl := Except.ok.inj start
    exact ⟨_, started_inv junk, hinit junk⟩
  | step _ cond exec ih =>
    obtain ⟨v, hv, hI⟩ := ih
    obtain ⟨v', hs⟩ := exec_step hv exec
    exact ⟨v', hs.inv hv, hstep _ _ _ _ _ cond hv hI hs⟩

/-- A state has one view. -/
theorem Inv.view_eq (h : Inv s v) : v = ⟨s.current, s.readyQueue, s.waitQueue⟩ := by
  rw [h.queued.current, h.queued.readyQueue, h.queued.waitQueue]

/-! ## Runs on given events -/

/-- The events of a list one after the other, each of them allowed by `C`. -/
def execAll (C : Sched → Event → Prop) [∀ s e, Decidable (C s e)] :
    List Event → Sched → Option Sched
  | [], s => some s
  | e :: es, s => if C s e then (exec e s).toOption.bind (execAll C es) else none

theorem execAll_append [∀ s e, Decidable (C s e)] {es es' : List Event} :
    execAll C (es ++ es') s = some s' ↔
      ∃ s₁, execAll C es s = some s₁ ∧ execAll C es' s₁ = some s' := by
  induction es generalizing s with
  | nil => simp [execAll]
  | cons e es ih =>
    rw [List.cons_append, execAll, execAll]
    split
    · simp only [Option.bind_eq_some_iff, ih]
      exact ⟨fun ⟨t, ht, s₁, h₁, h₂⟩ => ⟨s₁, ⟨t, ht, h₁⟩, h₂⟩,
        fun ⟨s₁, ⟨t, ht, h₁⟩, h₂⟩ => ⟨t, ht, s₁, h₁, h₂⟩⟩
    · simp

theorem execAll_singleton [∀ s e, Decidable (C s e)] :
    execAll C [e] s = some s' ↔ C s e ∧ exec e s = .ok s' := by
  rw [execAll]
  split
  · rename_i hC
    simp [execAll, hC, toOption_eq_some]
  · rename_i hC
    simp [hC]

theorem Run.execAll [∀ s e, Decidable (C s e)] {es : List Event} (h : Run C s)
    (he : execAll C es s = some s') : Run C s' := by
  induction es generalizing s with
  | nil => exact Option.some.inj he ▸ h
  | cons e es ih =>
    rw [Proc.execAll] at he
    split at he
    · rename_i hC
      obtain ⟨s₁, h₁, he⟩ := Option.bind_eq_some_iff.1 he
      exact ih (h.step hC (toOption_eq_some.1 h₁)) he
    · cases he

/-- Stacks that hold nothing. -/
def blank : Addr → Process := fun _ =>
  { pid := 0, status := .free, parent := .null, queueNext := .null, tickCount := 0, sem := 0 }

/-- A run on given events reaches a state that passes a test. -/
theorem exists_run [∀ s e, Decidable (C s e)] (es : List Event) (test : Sched → Bool)
    (h : (Proc.execAll C es (started blank)).any test = true) :
    ∃ s, Run C s ∧ Proc.execAll C es (started blank) = some s ∧ test s = true := by
  obtain ⟨s, hs, ht⟩ := (Option.any_eq_true _ _).1 h
  exact ⟨s, (Run.init blank (sStart_eq blank)).execAll hs, hs, ht⟩

/-! ## Structures in `procs[]` -/

/-- No structure is a copy. -/
def View.Own (v : View) : Prop := ∀ a ∈ v.places, ∃ i, a = .procs i

/-- A step copies no structure, unless a process exits whose parent sleeps. -/
theorem Step.own (hs : Step s v e s' v') (hv : v.Own)
    (hexit : e = .exit → NoParent s.core v) : v'.Own := by
  have hperm : ∀ {w : View}, (∀ a ∈ w.places, a ∈ v.places) → w.Own := fun hw a ha => hv a (hw a ha)
  cases hs with
  | @fork _ i free effect =>
    intro a ha
    simp only [View.places, List.mem_cons, List.mem_append, List.not_mem_nil, or_false] at ha
    rcases ha with rfl | (ha | rfl) | ha
    · exact hv _ List.mem_cons_self
    · exact hv a (List.mem_cons_of_mem _ (List.mem_append_left _ ha))
    · exact ⟨i, rfl⟩
    · exact hv a (List.mem_cons_of_mem _ (List.mem_append_right _ ha))
  | rotate start next effect =>
    refine hperm fun a ha => ?_
    rw [View.places, ← List.cons_append, ← next] at ha
    simp only [View.places, List.mem_cons, List.mem_append, List.not_mem_nil, or_false] at ha ⊢
    tauto
  | tick slice effect => exact hv
  | sleep start next effect =>
    refine hperm fun a ha => ?_
    simp only [View.places, next, List.mem_cons, List.mem_append, List.not_mem_nil,
      or_false] at ha ⊢
    tauto
  | semNew lt effect => exact hv
  | semP high effect => exact hv
  | semV nobody effect => exact hv
  | wake high wait before sem effect =>
    refine hperm fun a ha => ?_
    simp only [View.places, wait, List.mem_cons, List.mem_append] at ha ⊢
    tauto
  | wait result effect => exact hv
  | exit alone next same effect =>
    refine hperm fun a ha => ?_
    simp only [View.places, next, List.mem_cons, List.mem_append] at ha ⊢
    tauto
  | wakeParent parent next effect =>
    rcases hexit rfl with hp | hp
    · exact absurd hp parent.parent
    · refine absurd parent.pid (hp _ ?_)
      rw [parent.wait]
      exact List.mem_append_right _ List.mem_cons_self

/-! ## Zombies -/

theorem zombie_withStatus {c : Addr → Process} {st : Status} {b : Addr} (hst : st ≠ .zombie)
    (ha : (c a).status ≠ .zombie) :
    (withStatus c a st b).status = .zombie ↔ (c b).status = .zombie := by
  by_cases hb : b = a
  · rw [hb, withStatus_self]
    exact ⟨fun e => absurd e hst, fun e => absurd e ha⟩
  · rw [withStatus_of_ne hb]

/-- A process becomes a zombie by its exit and stays one. -/
theorem Step.zombie_iff (hs : Step s v e s' v') (h : Inv s v) (i : Fin NPROC) :
    (s'.core (.procs i)).status = .zombie ↔
      (s.core (.procs i)).status = .zombie ∨ e = .exit ∧ i = s.pid := by
  have hpid : s.pid = (s.core v.cur).pid := by
    rw [Sched.pid, h.queued.current]
    rfl
  have hrunning : Status.running ≠ .zombie := by decide
  have hrun : (s.core v.cur).status ≠ .zombie := by
    rw [h.ok.running]
    decide
  have hready : ∀ a ∈ v.ready, (s.core a).status ≠ .zombie := by
    intro a ha
    rw [h.ok.isReady a ha]
    decide
  have hz : (zombied s.core v.cur (.procs i)).status = .zombie ↔
      (s.core (.procs i)).status = .zombie ∨ i = s.pid := by
    by_cases hi : i = s.pid
    · refine ⟨fun _ => .inr hi, fun _ => zombied_status (.inr ?_)⟩
      rw [hi, hpid]
    · rw [h.ok.zombied_procs (hpid ▸ hi)]
      exact ⟨.inl, fun hor => hor.resolve_right hi⟩
  have hswitch : ∀ {c : Addr → Process} {st : Status} {q : Addr}, st ≠ .zombie →
      (∀ a, (c a).status = (s.core a).status) → (s.core q).status ≠ .zombie →
      ((withStatus (withStatus c v.cur st) q .running (.procs i)).status = .zombie ↔
        (s.core (.procs i)).status = .zombie) := by
    intro c st q hst hc hq
    have hcur : (c v.cur).status ≠ .zombie := by rwa [hc]
    rw [zombie_withStatus hrunning ((zombie_withStatus hst hcur).not.2 (by rwa [hc])),
      zombie_withStatus hst hcur, hc]
  cases hs with
  | @fork _ j free effect =>
    rw [effect.core]
    by_cases hj : i = j
    · rw [hj, Function.update_self, free]
      simp
    · rw [Function.update_of_ne fun e => hj (Addr.procs.inj e)]
      simp
  | rotate start next effect =>
    have hst : Status.ready ≠ .zombie := by decide
    rw [effect.core, hswitch hst (fun a => (start.core a).2)]
    · cases start <;> simp
    · have hq := next ▸ List.mem_cons_self
      rcases List.mem_append.1 hq with hq | hq
      · exact hready _ hq
      · rw [List.mem_singleton.1 hq]
        exact hrun
  | tick slice effect =>
    rw [effect.core]
    by_cases hi : .procs i = v.cur
    · rw [hi, Function.update_self]
      simp
    · rw [Function.update_of_ne hi]
      simp
  | sleep start next effect =>
    have hst : Status.blocked ≠ .zombie := by decide
    rw [effect.core, hswitch hst (fun a => (start.core a).2)]
    · cases start <;> simp
    · exact hready _ (next ▸ List.mem_cons_self)
  | semNew lt effect => simp [effect.core]
  | semP high effect => simp [effect.core]
  | semV nobody effect => simp [effect.core]
  | @wake a1 s' pre post p high wait before sem effect =>
    have hp : (s.core p).status ≠ .zombie := by
      rw [h.ok.isBlocked p (by rw [wait]; simp)]
      decide
    have hst : Status.ready ≠ .zombie := by decide
    rw [effect.core, zombie_withStatus hst hp]
    simp
  | wait result effect => simp [effect.core]
  | @exit c s' q rest alone next same effect =>
    have hq : q ∈ v.ready := next ▸ List.mem_cons_self
    have hne : q ≠ .stack s.pid := by
      rintro rfl
      rw [hpid] at hq
      exact h.ok.stack_notMem (a := v.cur) List.mem_cons_self
        (List.mem_cons_of_mem _ (List.mem_append_left _ hq))
    have hc : (c q).status ≠ .zombie := by
      rw [same q hne, h.ok.zombied_eq (List.mem_append_left _ hq)]
      exact hready q hq
    rw [effect.core, zombie_withStatus hrunning hc, same _ (by simp), hz]
    simp
  | @wakeParent s' pre post rest p q parent next effect =>
    have hc : (Function.update (zombied s.core v.cur) (.stack s.pid)
        { s.core p with status := .ready } q).status ≠ .zombie := by
      by_cases hq : q = .stack s.pid
      · rw [hq, Function.update_self]
        simp
      · have hmem := next ▸ List.mem_cons_self
        have hr := (List.mem_append.1 hmem).resolve_right fun hm => hq (List.mem_singleton.1 hm)
        rw [Function.update_of_ne hq, h.ok.zombied_eq (List.mem_append_left _ hr)]
        exact hready q hr
    rw [effect.core, zombie_withStatus hrunning hc, Function.update_of_ne (by simp), hz]
    simp

/-! ## Sleepers -/

/-- A sleeper keeps its field `sem`. -/
theorem Step.sem_eq (hs : Step s v e s' v') (h : Inv s v) (hp : p ∈ v.wait) :
    (s'.core p).sem = (s.core p).sem := by
  have hplace : p ∈ v.places := List.mem_cons_of_mem _ (List.mem_append_right _ hp)
  have hcur : p ≠ v.cur := fun e => h.ok.cur_notMem.2 (e ▸ hp)
  have hstack : p ≠ .stack s.pid := by
    rintro rfl
    rw [h.pid_eq] at hplace
    exact h.ok.stack_notMem (a := v.cur) List.mem_cons_self hplace
  cases hs with
  | @fork _ i free effect =>
    have hne : p ≠ .procs i := fun e => h.notMem_of_free free (e ▸ hplace)
    rw [effect.core, Function.update_of_ne hne]
  | rotate start next effect =>
    rw [effect.core, withStatus_sem, withStatus_sem]
    cases start with
    | yield => rfl
    | tick expired => rw [Function.update_of_ne hcur]
  | tick slice effect => rw [effect.core, Function.update_of_ne hcur]
  | sleep start next effect =>
    rw [effect.core, withStatus_sem, withStatus_sem]
    cases start with
    | semP low => rw [Function.update_of_ne hcur]
    | wait child alive => rfl
  | semNew lt effect => rw [effect.core]
  | semP high effect => rw [effect.core]
  | semV nobody effect => rw [effect.core]
  | wake high wait before sem effect => rw [effect.core, withStatus_sem]
  | wait result effect => rw [effect.core]
  | exit alone next same effect =>
    rw [effect.core, withStatus_sem, same p hstack, zombied, withStatus_sem, withStatus_sem]
  | wakeParent parent next effect =>
    rw [effect.core, withStatus_sem, Function.update_of_ne hstack, zombied, withStatus_sem,
      withStatus_sem]

end HustOS.Proc
