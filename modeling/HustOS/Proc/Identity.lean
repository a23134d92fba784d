import HustOS.Proc.Run

/-!
# Exit and wait

The exit of a process whose parent sleeps queues a copy of the parent's structure, on the stack of
the process that exits. So the structures stay the elements of `procs[]` exactly as long as no
process exits while its parent sleeps (`identity_of_run`).

A wait for a child that has ended returns its process id. A wait that sleeps never returns: the
process goes on with the number of the system call in `a0` (`wait_iff_zombie`).
-/

namespace HustOS.Proc

open Foundations

variable {s s' s₁ s₂ : Sched} {v v' : View} {e : Event} {i c : Fin NPROC}

/-! ## The structures of the processes -/

/-- The running process and those in the queues. -/
def Sched.places (s : Sched) : List Addr := s.current :: (s.readyQueue ++ s.waitQueue)

theorem Inv.places (h : Inv s v) : s.places = v.places := by
  rw [Sched.places, h.queued.current, h.queued.readyQueue, h.queued.waitQueue]
  rfl

/-- Every process is represented by its element of `procs[]`, with the right status. -/
structure Identity (s : Sched) : Prop where
  own : ∀ a ∈ s.places, ∃ i, a = .procs i
  single : (s.places.map fun a => (s.mem a).pid).Nodup
  running : (s.mem (.procs (s.mem s.current).pid)).status = .running
  isReady : ∀ a ∈ s.readyQueue, (s.mem (.procs (s.mem a).pid)).status = .ready

/-- Every structure in use is one that was in use before. -/
def Kept (s s' : Sched) : Prop := ∀ a ∈ s'.places, a ∈ s.places

/-- The parent of the running process is in the wait queue. -/
def ParentSleeps (s : Sched) : Prop :=
  (s.mem s.current).parent ≠ .null ∧
    ∃ a ∈ s.waitQueue, (s.mem a).pid = (s.mem (s.mem s.current).parent).pid

instance (s : Sched) : Decidable (ParentSleeps s) := by
  unfold ParentSleeps
  infer_instance

theorem Queued.noParent_iff (h : Queued s v) : NoParent s.core v ↔ ¬ ParentSleeps s := by
  rw [ParentSleeps, h.current, h.waitQueue]
  simp only [not_and, not_exists]
  exact or_iff_not_imp_left

/-- The structures are those of `procs[]` where no place is a copy. -/
theorem Inv.identity (h : Inv s v) (hown : v.Own) : Identity s := by
  have hself : ∀ a ∈ v.places, Addr.procs (s.mem a).pid = a := by
    intro a ha
    obtain ⟨i, rfl⟩ := hown a ha
    exact congrArg _ (h.ok.pid i)
  refine ⟨?_, ?_, ?_, fun a ha => ?_⟩
  · rw [h.places]
    exact hown
  · rw [h.places]
    exact h.ok.nodup
  · rw [h.queued.current, hself _ List.mem_cons_self]
    exact h.ok.running
  · rw [h.queued.readyQueue] at ha
    rw [hself a (List.mem_cons_of_mem _ (List.mem_append_left _ ha))]
    exact h.ok.isReady a ha

/-- An exit brings no structure into use, unless the parent sleeps. -/
theorem Step.exit_iff (hs : Step s v .exit s' v') (h : Inv s v) (hown : v.Own) :
    (Identity s' ∧ Kept s s') ↔ ¬ ParentSleeps s := by
  have h' := hs.inv h
  rw [← h.queued.noParent_iff]
  constructor
  · rintro ⟨hid, -⟩
    cases hs with
    | rotate start next effect => cases start
    | sleep start next effect => cases start
    | exit alone next same effect => exact alone
    | @wakeParent s' pre post rest p q parent next effect =>
      -- the copy is running or ready, and it is not an element of `procs[]`
      have hmem : Addr.stack s.pid ∈ s'.places := by
        rw [h'.places, View.places, ← List.cons_append, ← next]
        simp
      obtain ⟨i, hi⟩ := hid.own _ hmem
      cases hi
  · intro hno
    have hown' := hs.own hown fun _ => hno
    refine ⟨h'.identity hown', fun a ha => ?_⟩
    rw [h.places]
    rw [h'.places] at ha
    cases hs with
    | rotate start next effect => cases start
    | sleep start next effect => cases start
    | exit alone next same effect =>
      rw [View.places, next]
      exact List.mem_cons_of_mem _ ha
    | wakeParent parent next effect =>
      obtain ⟨i, hi⟩ := hown' (.stack s.pid) (by
        rw [View.places, ← List.cons_append, ← next]
        simp)
      cases hi

/-- **Processes keep their structures as long as no process exits while its parent sleeps**, and
such an exit is the end of it. -/
theorem identity_of_run (h : Run (fun s e => e = .exit → ¬ ParentSleeps s) s) :
    Identity s ∧ ∀ s', exec .exit s = .ok s' → (Identity s' ∧ Kept s s' ↔ ¬ ParentSleeps s) := by
  obtain ⟨v, hv, hown⟩ := h.keeps (I := fun _ v => v.Own)
    (fun _ a ha => ⟨0, List.mem_singleton.1 ha⟩)
    fun s v e s' v' hC hv hown hs => hs.own hown fun he => hv.queued.noParent_iff.2 (hC he)
  refine ⟨hv.identity hown, fun s' he => ?_⟩
  obtain ⟨v', hs⟩ := exec_step hv he
  exact hs.exit_iff hv hown

theorem identity_of_run_child_first :
    ∃ s, Run (fun s e => e = .exit → ¬ ParentSleeps s) s ∧ (s.mem (.procs 1)).status = .zombie ∧
      Identity s := by
  obtain ⟨s, hs, -, ht⟩ := exists_run (C := fun s e => e = .exit → ¬ ParentSleeps s)
    [.fork, .yield, .exit, .wait 1] (fun s => (s.mem (.procs 1)).status = .zombie)
    (by decide +kernel)
  exact ⟨s, hs, of_decide_eq_true ht, (identity_of_run hs).1⟩

/-- A child exits while its parent waits for it: the parent goes on in a structure that is not in
`procs[]`, and its element of `procs[]` stays blocked. -/
theorem identity_lost :
    ∃ s s', execAll (fun _ _ => True) [.fork, .wait 1] (started blank) = some s ∧
    exec .exit s = .ok s' ∧ s'.current = .stack 1 ∧ (s'.mem (.procs 0)).status = .blocked ∧
    ¬ Identity s' := by
  obtain ⟨s', -, hs', ht⟩ := exists_run (C := fun _ _ => True) [.fork, .wait 1, .exit]
    (fun s => s.current = .stack 1 ∧ (s.mem (.procs 0)).status = .blocked) (by decide +kernel)
  obtain ⟨hcur, hst⟩ := of_decide_eq_true ht
  obtain ⟨s, hs, he⟩ := execAll_append.1
    (show execAll _ ([.fork, .wait 1] ++ [.exit]) _ = _ from hs')
  refine ⟨s, s', hs, (execAll_singleton.1 he).2, hcur, hst, fun hid => ?_⟩
  obtain ⟨i, hi⟩ := hid.own s'.current List.mem_cons_self
  rw [hcur] at hi
  cases hi

/-! ## Wait -/

/-- The process `c` is a child of the process `i`, live or a zombie. -/
structure ChildOf (s : Sched) (i c : Fin NPROC) : Prop where
  made : (s.mem (.procs c)).status ≠ .free
  parent : (s.mem (.procs c)).parent ≠ .null
  pid : (s.mem (s.mem (.procs c)).parent).pid = i

instance (s : Sched) (i c : Fin NPROC) : Decidable (ChildOf s i c) :=
  decidable_of_iff ((s.mem (.procs c)).status ≠ .free ∧ (s.mem (.procs c)).parent ≠ .null ∧
    (s.mem (s.mem (.procs c)).parent).pid = i)
    ⟨fun ⟨h₁, h₂, h₃⟩ => ⟨h₁, h₂, h₃⟩, fun h => ⟨h.made, h.parent, h.pid⟩⟩

/-- Events during which the process `i` does not run. -/
inductive Away (i : Fin NPROC) (s : Sched) : Sched → Prop
  | refl : Away i s s
  | step {s₁ s₂ : Sched} {e : Event} (away : Away i s s₁) (other : s₁.pid ≠ i)
      (exec : exec e s₁ = .ok s₂) : Away i s s₂

/-- The process `i`, which may have lost the processor in the state `s`, goes on in the state
`s'`. -/
structure Resumes (i : Fin NPROC) (s s' : Sched) : Prop where
  away : Away i s s'
  runs : s'.pid = i

/-- A process that runs is not away. -/
theorem Away.eq_of_pid (h : Away i s s₁) (hi : s.pid = i) : s₁ = s := by
  induction h with
  | refl => rfl
  | step away other exec ih => exact absurd (ih ▸ hi) other

theorem withStatus_ne_free {c : Addr → Process} {a b : Addr} {st : Status} (hst : st ≠ .free)
    (hb : (c b).status ≠ .free) : (withStatus c a st b).status ≠ .free := by
  by_cases hba : b = a
  · rw [hba, withStatus_self]
    exact hst
  · rwa [withStatus_of_ne hba]

/-- No element of `procs[]` is freed. -/
theorem Step.ne_free (hs : Step s v e s' v') (hi : (s.core (.procs i)).status ≠ .free) :
    (s'.core (.procs i)).status ≠ .free := by
  cases hs with
  | @fork _ j free effect =>
    have hj : i ≠ j := by
      rintro rfl
      exact hi free
    rwa [effect.core, Function.update_of_ne fun e => hj (Addr.procs.inj e)]
  | rotate start next effect =>
    rw [effect.core]
    refine withStatus_ne_free (by decide) (withStatus_ne_free (by decide) ?_)
    rwa [(start.core _).2]
  | tick slice effect =>
    rw [effect.core]
    by_cases hc : .procs i = v.cur
    · rw [hc] at hi ⊢
      rwa [Function.update_self]
    · rwa [Function.update_of_ne hc]
  | sleep start next effect =>
    rw [effect.core]
    refine withStatus_ne_free (by decide) (withStatus_ne_free (by decide) ?_)
    rwa [(start.core _).2]
  | semNew lt effect => rwa [effect.core]
  | semP high effect => rwa [effect.core]
  | semV nobody effect => rwa [effect.core]
  | wake high wait before sem effect =>
    rw [effect.core]
    exact withStatus_ne_free (by decide) hi
  | wait result effect => rwa [effect.core]
  | exit alone next same effect =>
    rw [effect.core]
    refine withStatus_ne_free (by decide) ?_
    rw [same _ (by simp), zombied]
    exact withStatus_ne_free (by decide) (withStatus_ne_free (by decide) hi)
  | wakeParent parent next effect =>
    rw [effect.core]
    refine withStatus_ne_free (by decide) ?_
    rw [Function.update_of_ne (by simp), zombied]
    exact withStatus_ne_free (by decide) (withStatus_ne_free (by decide) hi)

/-- A process that does not run stays alive. -/
theorem Step.live (hs : Step s v e s' v') (h : Inv s v) (hi : Live s.core i) (hne : s.pid ≠ i) :
    Live s'.core i := by
  refine ⟨hs.ne_free hi.1, fun hz => ?_⟩
  rcases (hs.zombie_iff h i).1 hz with hz | ⟨-, he⟩
  · exact hi.2 hz
  · exact hne he.symm

/-- The saved `a0` of a process that does not run stays. -/
theorem Step.a0_of_ne (hs : Step s v e s' v') (hi : Live s.core i) (hne : s.pid ≠ i) :
    s'.a0 i = s.a0 i := by
  have hsaved : ∀ e, s.saved e i = s.a0 i := fun e => Function.update_of_ne hne.symm _ _
  cases hs with
  | @fork _ j free effect =>
    have hj : i ≠ j := by
      rintro rfl
      exact hi.1 free
    rw [effect.a0, Function.update_of_ne hne.symm, Function.update_of_ne hj]
  | rotate start next effect => rw [effect.a0, hsaved]
  | tick slice effect => rw [effect.a0, hsaved]
  | sleep start next effect => rw [effect.a0, hsaved]
  | semNew lt effect => rw [effect.a0, Function.update_of_ne hne.symm]
  | semP high effect => rw [effect.a0, Function.update_of_ne hne.symm]
  | semV nobody effect => rw [effect.a0, Function.update_of_ne hne.symm]
  | wake high wait before sem effect => rw [effect.a0, Function.update_of_ne hne.symm]
  | wait result effect => rw [effect.a0, Function.update_of_ne hne.symm]
  | exit alone next same effect => rw [effect.a0, hsaved]
  | wakeParent parent next effect => rw [effect.a0, hsaved]

/-- A sleeper finds in `a0` what it left there. -/
theorem Away.a0 (h : Away i s s₁) (hv : ∃ v, Inv s v) (hi : Live s.core i) :
    s₁.a0 i = s.a0 i ∧ Live s₁.core i ∧ ∃ v, Inv s₁ v := by
  induction h with
  | refl => exact ⟨rfl, hi, hv⟩
  | step away other exec ih =>
    obtain ⟨ha0, hlive, v₁, hv₁⟩ := ih
    obtain ⟨v₂, hs⟩ := exec_step hv₁ exec
    exact ⟨(hs.a0_of_ne hlive other).trans ha0, hs.live hv₁ hlive other, v₂, hs.inv hv₁⟩

theorem waitedChild_of_child (h : Inv s v) (hc : ChildOf s s.pid c) (hpos : 0 < (c : ℤ)) :
    waitedChild c s = some c := by
  have hpid : ∀ i, (s.mem (.procs i)).pid = i := h.ok.pid
  rw [waitedChild, if_neg (by omega), if_pos hpos]
  cases hf : (List.finRange NPROC).find? fun i => (s.mem (.procs i)).parent ≠ .null ∧
      (s.mem (s.mem (.procs i)).parent).pid = (s.mem s.current).pid ∧
      ((s.mem (.procs i)).pid : ℤ) = c with
  | none =>
    have hnot := List.find?_eq_none.1 hf c (List.mem_finRange c)
    refine absurd (decide_eq_true ?_) hnot
    exact ⟨hc.parent, hc.pid, by rw [hpid]⟩
  | some i =>
    have hi := List.find?_some hf
    rw [decide_eq_true_eq, hpid] at hi
    exact congrArg some (Fin.ext (Int.ofNat.inj hi.2.2))

/-- **A wait for a child ends with the child ended and its process id as the result exactly if the
child had ended before the call.** -/
theorem wait_iff_zombie (h : Reachable s) (hc : ChildOf s s.pid c) (hpos : 0 < (c : ℤ))
    (hw : exec (.wait c) s = .ok s₁) (hres : Resumes s.pid s₁ s₂) :
    (s₂.mem (.procs c)).status = .zombie ∧ s₂.a0 s.pid = c ↔
      (s.mem (.procs c)).status = .zombie := by
  obtain ⟨v, hv⟩ := h.inv
  obtain ⟨v₁, hs⟩ := exec_step hv hw
  have h₁ := hs.inv hv
  have hchild := waitedChild_of_child hv hc hpos
  cases hs with
  | rotate start next effect => cases start
  | sleep start next effect =>
    cases start with
    | wait child alive =>
      -- the caller sleeps, with the number of the call in `a0`
      have hc' := Option.some.inj (child.symm.trans hchild)
      have hlive : Live s₁.core s.pid := by
        have hl := h₁.ok.live v.cur (by simp [View.places])
        rwa [effect.core, withStatus_pid, withStatus_pid, ← hv.pid_eq, ← effect.core] at hl
      have ha0 := (hres.away.a0 ⟨_, h₁⟩ hlive).1
      rw [effect.a0, Sched.saved, Function.update_self] at ha0
      refine ⟨fun hr => ?_, fun hz => absurd hz (hc' ▸ alive)⟩
      have hcall : (94 : ℤ) = c := ha0.symm.trans hr.2
      have hlt : (c : ℕ) < 32 := c.isLt
      omega
  | wait result effect =>
    have hpid : s₁.pid = s.pid := by
      rw [h₁.pid_eq, hv.pid_eq, effect.core]
    rw [hres.away.eq_of_pid hpid]
    cases result with
    | none child =>
      rw [child] at hchild
      cases hchild
    | zombie child ended =>
      have hc' := Option.some.inj (child.symm.trans hchild)
      rw [hc'] at ended
      refine ⟨fun _ => ended, fun _ => ⟨?_, ?_⟩⟩
      · have hz : (s₁.core (.procs c)).status = .zombie := by rwa [effect.core]
        exact hz
      · rw [effect.a0, Function.update_self, hc']

theorem wait_iff_zombie_after_exit : ∃ s s₁, Reachable s ∧ ChildOf s s.pid 1 ∧
    exec (.wait 1) s = .ok s₁ ∧ ((s₁.mem (.procs 1)).status = .zombie ∧ s₁.a0 s.pid = 1 ↔
      (s.mem (.procs 1)).status = .zombie) := by
  obtain ⟨s₁, -, hs₁, ht⟩ := exists_run (C := fun _ _ => True) [.fork, .yield, .exit, .wait 1]
    (fun s => s.pid = 0) (by decide +kernel)
  obtain ⟨s, hs, he⟩ := execAll_append.1
    (show execAll _ ([.fork, .yield, .exit] ++ [.wait 1]) _ = _ from hs₁)
  have hw := (execAll_singleton.1 he).2
  have htest : (execAll (fun _ _ => True) [.fork, .yield, .exit] (started blank)).all
      (fun s => s.pid = 0 ∧ ChildOf s 0 1) = true := by decide +kernel
  rw [hs] at htest
  obtain ⟨hpid, hc⟩ := of_decide_eq_true htest
  rw [← hpid] at hc
  have hrun : Reachable s := (Run.init blank (sStart_eq blank)).execAll hs
  exact ⟨s, s₁, hrun, hc, hw,
    wait_iff_zombie hrun hc (by decide) hw ⟨.refl, (of_decide_eq_true ht).trans hpid.symm⟩⟩

/-- The parent waits first and the child exits afterwards: the parent goes on with the number of the
system call as the result. -/
theorem wait_loses_result : ∃ s s₁ s₂, Reachable s ∧ ChildOf s s.pid 1 ∧
    exec (.wait 1) s = .ok s₁ ∧ Resumes s.pid s₁ s₂ ∧ s₂.a0 s.pid = 94 ∧
    ¬ ((s₂.mem (.procs 1)).status = .zombie ∧ s₂.a0 s.pid = 1) := by
  obtain ⟨s₂, -, hs₂, ht⟩ := exists_run (C := fun _ _ => True) [.fork, .wait 1, .exit]
    (fun s => s.pid = 0 ∧ s.a0 0 = 94) (by decide +kernel)
  obtain ⟨s₁, hs₁, he⟩ := execAll_append.1
    (show execAll _ ([.fork, .wait 1] ++ [.exit]) _ = _ from hs₂)
  obtain ⟨s, hs, hw⟩ := execAll_append.1 (show execAll _ ([.fork] ++ [.wait 1]) _ = _ from hs₁)
  have htest₁ : (execAll (fun _ _ => True) [.fork, .wait 1] (started blank)).all
      (fun s => s.pid = 1) = true := by decide +kernel
  have htest : (execAll (fun _ _ => True) [.fork] (started blank)).all
      (fun s => s.pid = 0 ∧ ChildOf s 0 1) = true := by decide +kernel
  rw [hs₁] at htest₁
  rw [hs] at htest
  have hpid₁ := of_decide_eq_true htest₁
  obtain ⟨hpid, hc⟩ := of_decide_eq_true htest
  obtain ⟨hpid₂, ha0⟩ := of_decide_eq_true ht
  rw [← hpid] at hc ha0
  have hother : s₁.pid ≠ s.pid := by
    rw [hpid₁, hpid]
    decide
  refine ⟨s, s₁, s₂, (Run.init blank (sStart_eq blank)).execAll hs, hc, (execAll_singleton.1 hw).2,
    ⟨.step .refl hother (execAll_singleton.1 he).2, hpid₂.trans hpid.symm⟩, ha0, fun hr => ?_⟩
  rw [ha0] at hr
  exact absurd hr.2 (by decide)

end HustOS.Proc
