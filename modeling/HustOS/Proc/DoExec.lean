import HustOS.Proc.Identity

/-!
# Processes that execute a program

`do_exec` loads the program into a second process structure and copies its fields into the running
one, the process id among them. The structure of the caller is marked as a zombie before (`free_p`),
and the second one stays in use. So the process goes on under another id, with the status of a
process that has ended, and its parent does not find it under the id that fork returned. The ids
identify the processes as long as nobody calls `do_exec` (`identified_iff`).

Of the address space and the program nothing is modelled: a program that cannot be loaded stops the
run.
-/

namespace HustOS.Proc

open Foundations

variable {s s' : Sched} {v v' : View} {e : Event} {i p : Fin NPROC}

/-! ## `do_exec` -/

/-- `free_p`. -/
def freeP (proc : Addr) (s : Sched) : Sched :=
  let pid := (s.mem proc).pid
  { s with
    mem := fun a =>
      match a with
      | .procs i =>
        if (s.mem (.procs i)).pid = pid then { s.mem (.procs i) with status := .zombie }
        else s.mem (.procs i)
      | a => s.mem a }

/-- `do_exec`, up to its `switch_to`. The trapframe of the second structure becomes that of the
caller together with its process id. -/
def doExec (s : Sched) : Except Fault Sched := do
  let (p, s) ← allocProcess s
  let s := freeP s.current s
  let new := s.mem (.procs p)
  let s := s.write s.current
    { s.mem s.current with
      queueNext := new.queueNext
      tickCount := new.tickCount
      pid := new.pid }
  return { s with a0 := Function.update s.a0 new.pid 1 }

/-- A trap of the running process: one of the events, or `sys_user_exec`. -/
inductive Call
  | event (e : Event)
  | exec

/-- What a trap does. -/
def Call.run (c : Call) (s : Sched) : Except Fault Sched :=
  match c with
  | .event e => Proc.exec e s
  | .exec => doExec s

/-- The states of the runs whose traps satisfy `C` where they happen. -/
inductive Calls (C : Sched → Call → Prop) : Sched → Prop
  | init {s : Sched} (junk : Addr → Process) (start : sStart junk = .ok s) : Calls C s
  | step {s s' : Sched} {c : Call} (calls : Calls C s) (cond : C s c) (run : c.run s = .ok s') :
      Calls C s'

/-! ## Process ids -/

/-- The process ids identify the processes. -/
structure Identified (s : Sched) : Prop where
  unique : ∀ i j, i ≠ j → (s.mem (.procs i)).status ≠ .free → (s.mem (.procs j)).status ≠ .free →
    (s.mem (.procs i)).pid ≠ (s.mem (.procs j)).pid
  /-- The element that fork has given a child is found by a wait for its process id. -/
  finds : ∀ c, ChildOf s s.pid c → waitedChild c s = some c

/-- The running process is the same one, and nothing else was made. -/
structure SameProcess (s s' : Sched) : Prop where
  pid : s'.pid = s.pid
  parent : (s'.mem s'.current).parent = (s.mem s.current).parent
  running : (s'.mem s'.current).status = .running
  slots : ∀ i, (s'.mem (.procs i)).status = .free ↔ (s.mem (.procs i)).status = .free

/-- A process that was made keeps its parent. -/
theorem Step.parent_eq (hs : Step s v e s' v') (hi : (s.core (.procs i)).status ≠ .free) :
    (s'.core (.procs i)).parent = (s.core (.procs i)).parent := by
  have hupdate : ∀ x : Process, x.parent = (s.core v.cur).parent →
      (Function.update s.core v.cur x (.procs i)).parent = (s.core (.procs i)).parent := by
    intro x hx
    by_cases hc : .procs i = v.cur
    · rw [hc, Function.update_self, hx]
    · rw [Function.update_of_ne hc]
  cases hs with
  | @fork _ j free effect =>
    have hj : i ≠ j := by
      rintro rfl
      exact hi free
    rw [effect.core, Function.update_of_ne fun e => hj (Addr.procs.inj e)]
  | rotate start next effect =>
    rw [effect.core, withStatus_parent, withStatus_parent]
    cases start with
    | yield => rfl
    | tick expired => exact hupdate _ rfl
  | tick slice effect =>
    rw [effect.core]
    exact hupdate _ rfl
  | sleep start next effect =>
    rw [effect.core, withStatus_parent, withStatus_parent]
    cases start with
    | wait child alive => rfl
    | semP low => exact hupdate _ rfl
  | semNew lt effect => rw [effect.core]
  | semP high effect => rw [effect.core]
  | semV nobody effect => rw [effect.core]
  | wake high wait before sem effect => rw [effect.core, withStatus_parent]
  | wait result effect => rw [effect.core]
  | exit alone next same effect =>
    rw [effect.core, withStatus_parent, same _ (by simp), zombied_parent]
  | wakeParent parent next effect =>
    rw [effect.core, withStatus_parent, Function.update_of_ne (by simp), zombied_parent]

/-- The first process is nobody's child. -/
theorem Run.first {C : Sched → Event → Prop} (h : Run C s) :
    ∃ v, Inv s v ∧ (s.core (.procs 0)).status ≠ .free ∧ (s.core (.procs 0)).parent = .null := by
  refine h.keeps (I := fun s _ =>
    (s.core (.procs 0)).status ≠ .free ∧ (s.core (.procs 0)).parent = .null) ?_ ?_
  · intro junk
    exact ⟨nofun, rfl⟩
  · intro s v e s' v' _ _ hI hs
    exact ⟨hs.ne_free hI.1, (hs.parent_eq hI.1).trans hI.2⟩

/-- Without `do_exec` the process ids identify the processes. -/
theorem Run.identified {C : Sched → Event → Prop} (h : Run C s) : Identified s := by
  obtain ⟨v, hv, -, hnull⟩ := h.first
  have hpid : ∀ i, (s.mem (.procs i)).pid = i := hv.ok.pid
  refine ⟨fun i j hij _ _ => ?_, fun c hc => waitedChild_of_child hv hc ?_⟩
  · rwa [hpid, hpid]
  · have hpos : c ≠ 0 := by
      rintro rfl
      exact hc.parent hnull
    have : (c : ℕ) ≠ 0 := fun h0 => hpos (Fin.ext h0)
    omega

theorem freeP_pid (proc a : Addr) : ((freeP proc s).mem a).pid = (s.mem a).pid := by
  cases a with
  | procs i =>
    simp only [freeP]
    split <;> rfl
  | null => rfl
  | stack i => rfl

/-- The process goes on with the id of an element that was free. -/
theorem doExec_ok (h : Inv s v) (he : doExec s = .ok s') :
    s'.pid ≠ s.pid ∧ (s.mem (.procs s'.pid)).status = .free := by
  rw [doExec] at he
  obtain ⟨⟨p, s₁⟩, ha, he⟩ := (bind_ok_iff _ _ _).1 he
  rw [allocProcess] at ha
  split at ha
  · cases ha
  rename_i j hf
  cases ha
  have hfree := List.find?_some hf
  rw [decide_eq_true_eq] at hfree
  have hnew : (s'.mem s'.current).pid = p := by
    cases he
    simp only [Sched.write, Function.update_self, freeP_pid]
    exact h.ok.pid p
  have hlive := (h.ok.live v.cur List.mem_cons_self).1
  rw [Sched.pid, hnew]
  refine ⟨?_, hfree⟩
  rintro rfl
  rw [← h.pid_eq] at hlive
  exact hlive hfree

/-- A run without `do_exec` is a run of events. -/
theorem Calls.run (h : Calls (fun _ c => c ≠ .exec) s) : Reachable s := by
  induction h with
  | init junk start => exact .init junk start
  | @step s s' c _ cond run ih =>
    cases c with
    | event e => exact ih.step trivial run
    | exec => exact absurd rfl cond

theorem Calls.of_run (h : Reachable s) : Calls (fun _ _ => True) s := by
  induction h with
  | init junk start => exact .init junk start
  | @step s s' e _ _ exec ih => exact ih.step (c := .event e) trivial exec

/-- **Process ids.** In every state of every run without `do_exec` the process ids identify the
processes, and a further call keeps this, and the process that makes it, exactly if it is no
`do_exec`. -/
theorem identified_iff (h : Calls (fun _ c => c ≠ .exec) s) : Identified s ∧
    ∀ (c : Call) (s' : Sched), c.run s = .ok s' →
      (Identified s' ∧ (c = .exec → SameProcess s s') ↔ c ≠ .exec) := by
  refine ⟨h.run.identified, fun c s' hrun => ⟨?_, ?_⟩⟩
  · rintro ⟨-, hsame⟩ rfl
    obtain ⟨v, hv⟩ := h.run.inv
    exact (doExec_ok hv hrun).1 (hsame rfl).pid
  · intro hc
    exact ⟨(h.step hc hrun).run.identified, fun e => absurd e hc⟩

/-- A fork, from the first state. -/
theorem identified_iff_fork : ∃ s s', Calls (fun _ c => c ≠ .exec) s ∧
    (Call.event .fork).run s = .ok s' ∧ Identified s' := by
  have htest : (exec .fork (started blank)).toOption.isSome = true := by decide +kernel
  obtain ⟨s', hs'⟩ := Option.isSome_iff_exists.1 htest
  have hcalls : Calls (fun _ c => c ≠ .exec) (started blank) := .init blank (sStart_eq blank)
  have hrun : (Call.event .fork).run (started blank) = .ok s' := toOption_eq_some.1 hs'
  exact ⟨_, s', hcalls, hrun, (((identified_iff hcalls).2 _ s' hrun).2 nofun).1⟩

/-- **A child that its parent does not find.** A child executes a program and yields. Its element
and the one that `do_exec` took have the same process id, and a wait for the id that fork returned
finds no child. -/
theorem identified_lost : ¬ ∀ s, Calls (fun _ _ => True) s → Identified s ∧
    ∀ s', doExec s = .ok s' → SameProcess s s' := by
  intro hall
  obtain ⟨s, hrun, hs, -⟩ := exists_run (C := fun _ _ => True) [.fork, .yield] (fun _ => true)
    (by decide +kernel)
  have htest : ((Proc.execAll (fun _ _ => True) [.fork, .yield] (started blank)).bind fun s =>
      (doExec s).toOption.bind fun s' => (exec .yield s').toOption).any (fun s =>
        s.pid = 0 ∧ ChildOf s 0 1 ∧ waitedChild 1 s = none) = true := by decide +kernel
  rw [hs, Option.bind_some] at htest
  obtain ⟨s₂, hs₂, ht⟩ := (Option.any_eq_true _ _).1 htest
  obtain ⟨s₁, hs₁, hs₂⟩ := Option.bind_eq_some_iff.1 hs₂
  obtain ⟨hpid, hchild, hnone⟩ := of_decide_eq_true ht
  have hcalls : Calls (fun _ _ => True) s := .of_run hrun
  have hcalls₂ : Calls (fun _ _ => True) s₂ :=
    (hcalls.step (c := .exec) trivial (toOption_eq_some.1 hs₁)).step (c := .event .yield) trivial
      (toOption_eq_some.1 hs₂)
  have hfinds := (hall s₂ hcalls₂).1.finds 1 (hpid ▸ hchild)
  cases hnone.symm.trans hfinds

end HustOS.Proc
