import HustOS.Proc.Identity

/-!
# Children that are waited for

`process_wait` returns the process id of a child that has ended, and means to free its element of
`procs[]`; it compares the status with `FREE` instead. The element stays a zombie, so the next wait
reports the same child again and `alloc_process` never gives the element out a second time. A run
keeps the promises of `ReapedOnce` exactly as long as no wait finds a child that has ended
(`reapedOnce_iff`).
-/

namespace HustOS.Proc

open Foundations

variable {s s' : Sched} {v v' : View} {e : Event} {i : Fin NPROC} {C : Sched → Event → Prop}
  {u : Finset (Fin NPROC)}

/-! ## Reports -/

/-- The child whose process id the call returns. -/
def reported (s : Sched) : Event → Option (Fin NPROC)
  | .wait pid =>
    match processWait pid s with
    | .ok (some r, _) => (List.finRange NPROC).find? fun i : Fin NPROC => r = i
    | _ => none
  | _ => none

/-- The call is a wait whose loop stops at a child that has ended. -/
def FindsZombie (s : Sched) : Event → Prop
  | .wait pid => ∃ i, waitedChild pid s = some i ∧ (s.mem (.procs i)).status = .zombie
  | _ => False

instance (s : Sched) : (e : Event) → Decidable (FindsZombie s e)
  | .wait pid => inferInstanceAs (Decidable (∃ i, waitedChild pid s = some i ∧ _))
  | .fork | .yield | .tick _ | .exit | .semNew _ | .semP _ | .semV _ => instDecidableFalse

/-- The processes that have been made and that no wait has reported, after an event. -/
def unreapedAfter (u : Finset (Fin NPROC)) (s : Sched) (e : Event) (s' : Sched) :
    Finset (Fin NPROC) :=
  Finset.univ.filter fun i => reported s e ≠ some i ∧
    (i ∈ u ∨ (s.mem (.procs i)).status = .free ∧ (s'.mem (.procs i)).status ≠ .free)

/-- The states of the runs whose events satisfy `C` where they happen, with the processes that no
wait has reported. -/
inductive Reaping (C : Sched → Event → Prop) : Sched → Finset (Fin NPROC) → Prop
  | init {s : Sched} (junk : Addr → Process) (start : sStart junk = .ok s) : Reaping C s {0}
  | step {s s' : Sched} {u : Finset (Fin NPROC)} {e : Event} (run : Reaping C s u) (cond : C s e)
      (exec : exec e s = .ok s') : Reaping C s' (unreapedAfter u s e s')

/-- What the next event may rely on. -/
structure ReapedOnce (s : Sched) (u : Finset (Fin NPROC)) (e : Event) : Prop where
  /-- No wait has reported the child before. -/
  once : ∀ i, reported s e = some i → i ∈ u
  /-- The element of a child that is reported can be given out again. -/
  freed : ∀ i s', reported s e = some i → exec e s = .ok s' → (s'.mem (.procs i)).status = .free
  /-- There is an element for a new process. -/
  room : e = .fork → u.card < NPROC → ∃ r, allocProcess s = .ok r

/-! ## One event -/

theorem find_pid_iff {r : ℤ} :
    ((List.finRange NPROC).find? fun j : Fin NPROC => r = j) = some i ↔ r = i := by
  constructor
  · intro hf
    have hr := List.find?_some hf
    exact of_decide_eq_true hr
  · rintro rfl
    rcases hf : (List.finRange NPROC).find? fun j : Fin NPROC => (i : ℤ) = j with _ | j
    · have hne := List.find?_eq_none.1 hf i (List.mem_finRange i)
      exact absurd (decide_eq_true rfl) hne
    · have hij := List.find?_some hf
      rw [decide_eq_true_eq] at hij
      rw [Fin.ext (Int.ofNat.inj hij)]

/-- A wait reports the child at which its loop stops, if it has ended. -/
theorem reported_iff (h : Inv s v) : reported s e = some i ↔
    ∃ pid, e = .wait pid ∧ waitedChild pid s = some i ∧ (s.mem (.procs i)).status = .zombie := by
  have hpid : ∀ i, (s.mem (.procs i)).pid = i := h.ok.pid
  cases e with
  | wait pid =>
    simp only [reported, processWait, Event.wait.injEq, exists_eq_left']
    rcases hc : waitedChild pid s with _ | c
    · simp [pure, Except.pure, List.find?_eq_some_iff_append]
    · by_cases hz : (s.mem (.procs c)).status = .zombie
      · simp only [hz, if_true, pure, Except.pure, hpid, find_pid_iff]
        constructor
        · intro hci
          obtain rfl := Fin.ext (Int.ofNat.inj hci)
          exact ⟨rfl, hz⟩
        · rintro ⟨hci, -⟩
          rw [Option.some.inj hci]
      · simp only [hz, if_false]
        constructor
        · intro hr
          rcases hsl : sleep s with f | s₁
          · simp [hsl, bind, Except.bind] at hr
          · simp [hsl, bind, Except.bind, pure, Except.pure] at hr
        · rintro ⟨hci, hi⟩
          exact absurd (Option.some.inj hci ▸ hi) hz
  | _ => simp [reported]

theorem findsZombie_iff (h : Inv s v) : FindsZombie s e ↔ ∃ i, reported s e = some i := by
  simp only [reported_iff h]
  cases e with
  | wait pid => simp [FindsZombie]
  | _ => simp [FindsZombie]

/-- A report leaves the child a zombie. -/
theorem exec_of_reported (h : Inv s v) (hr : reported s e = some i) :
    ∃ s', exec e s = .ok s' ∧ (s'.mem (.procs i)).status = .zombie := by
  obtain ⟨pid, rfl, hc, hz⟩ := (reported_iff h).1 hr
  have hcur : s.current ≠ .null := h.queued.current ▸ h.ok.cur_ne
  have hc' : ∀ f, waitedChild pid { s with a0 := f } = some i := fun _ => hc
  suffices h : ∃ f, exec (.wait pid) s = .ok { s with a0 := f } by
    obtain ⟨f, hf⟩ := h
    exact ⟨_, hf, hz⟩
  simp only [exec, hcur, if_false, handle, processWait, hc', hz, if_true]
  exact ⟨_, rfl⟩

/-- There is an element for a new process as long as one is free. -/
theorem allocProcess_of_free (hi : (s.mem (.procs i)).status = .free) :
    ∃ r, allocProcess s = .ok r := by
  rw [allocProcess]
  rcases hf : (List.finRange NPROC).find? fun i => (s.mem (.procs i)).status = .free with _ | j
  · have hne := List.find?_eq_none.1 hf i (List.mem_finRange i)
    exact absurd (decide_eq_true hi) hne
  · exact ⟨_, rfl⟩

/-! ## Runs -/

/-- While no wait finds a child that has ended, the elements in use are those of the processes that
were made. -/
theorem Reaping.inv (h : Reaping (fun s e => ¬ FindsZombie s e) s u) :
    ∃ v, Inv s v ∧ ∀ i, i ∈ u ↔ (s.mem (.procs i)).status ≠ .free := by
  induction h with
  | init junk start =>
    rw [sStart_eq] at start
    obtain rfl := Except.ok.inj start
    refine ⟨_, started_inv junk, fun i => ?_⟩
    by_cases hi : i = 0
    · subst hi
      simp [started]
    · have hcore : ((started junk).core (.procs i)).status = .free := by
        rw [started_of_ne hi]
        rfl
      have hfree : ((started junk).mem (.procs i)).status = .free := hcore
      simp [hi, hfree]
  | @step s s' u e _ cond exec ih =>
    obtain ⟨v, hv, hu⟩ := ih
    obtain ⟨v', hs⟩ := exec_step hv exec
    refine ⟨v', hs.inv hv, fun i => ?_⟩
    have hno : reported s e ≠ some i := fun hr => cond ((findsZombie_iff hv).2 ⟨i, hr⟩)
    have hkeep : (s.mem (.procs i)).status ≠ .free → (s'.mem (.procs i)).status ≠ .free :=
      hs.ne_free
    simp only [unreapedAfter, Finset.mem_filter, Finset.mem_univ, true_and, hno, ne_eq,
      not_false_eq_true, hu]
    tauto

/-- **Reaped once.** In every run in which no wait has found a child that has ended, the next event
keeps the promises exactly if it is no such wait either. -/
theorem reapedOnce_iff (h : Reaping (fun s e => ¬ FindsZombie s e) s u) (e : Event) :
    ReapedOnce s u e ↔ ¬ FindsZombie s e := by
  obtain ⟨v, hv, hu⟩ := h.inv
  rw [findsZombie_iff hv]
  constructor
  · rintro hr ⟨i, hi⟩
    obtain ⟨s', he, hz⟩ := exec_of_reported hv hi
    have hfree := hr.freed i s' hi he
    rw [hz] at hfree
    cases hfree
  · intro hno
    refine ⟨fun i hi => absurd ⟨i, hi⟩ hno, fun i s' hi => absurd ⟨i, hi⟩ hno, fun _ hcard => ?_⟩
    have hne : u ≠ Finset.univ := by
      rintro rfl
      simp at hcard
    obtain ⟨i, hi⟩ : ∃ i, i ∉ u := by
      by_contra hall
      exact hne (Finset.eq_univ_iff_forall.2 fun i => not_not.1 (not_exists.1 hall i))
    exact allocProcess_of_free (i := i) (not_not.1 (mt (hu i).2 hi))

/-! ## A child that is reported twice -/

/-- A run on given events, with the processes that no wait has reported. -/
def reapAll (C : Sched → Event → Prop) [∀ s e, Decidable (C s e)] :
    List Event → Sched → Finset (Fin NPROC) → Option (Sched × Finset (Fin NPROC))
  | [], s, u => some (s, u)
  | e :: es, s, u =>
    if C s e then (exec e s).toOption.bind fun s' => reapAll C es s' (unreapedAfter u s e s')
    else none

theorem Reaping.reapAll [∀ s e, Decidable (C s e)] {es : List Event}
    {x : Sched × Finset (Fin NPROC)}
    (h : Reaping C s u) (he : reapAll C es s u = some x) : Reaping C x.1 x.2 := by
  induction es generalizing s u with
  | nil => exact Option.some.inj he ▸ h
  | cons e es ih =>
    rw [Proc.reapAll] at he
    split at he
    · rename_i hC
      obtain ⟨s₁, h₁, he⟩ := Option.bind_eq_some_iff.1 he
      exact ih (h.step hC (toOption_eq_some.1 h₁)) he
    · cases he

theorem exists_reaping [∀ s e, Decidable (C s e)] (es : List Event)
    (test : Sched × Finset (Fin NPROC) → Bool)
    (h : (Proc.reapAll C es (started blank) {0}).any test = true) :
    ∃ s u, Reaping C s u ∧ test (s, u) = true := by
  obtain ⟨⟨s, u⟩, hs, ht⟩ := (Option.any_eq_true _ _).1 h
  exact ⟨s, u, (Reaping.init blank (sStart_eq blank)).reapAll hs, ht⟩

/-- The child has ended, and the parent may still fork. -/
theorem reapedOnce_iff_child_ended : ∃ s u, Reaping (fun s e => ¬ FindsZombie s e) s u ∧
    u = {0, 1} ∧ (s.mem (.procs 1)).status = .zombie ∧
    (ReapedOnce s u .fork ↔ ¬ FindsZombie s .fork) := by
  obtain ⟨s, u, hr, ht⟩ := exists_reaping (C := fun s e => ¬ FindsZombie s e) [.fork, .yield, .exit]
    (fun x => x.2 = {0, 1} ∧ (x.1.mem (.procs 1)).status = .zombie) (by decide +kernel)
  obtain ⟨hu, hz⟩ := of_decide_eq_true ht
  exact ⟨s, u, hr, hu, hz, reapedOnce_iff hr .fork⟩

/-- **A child that is reported twice.** The parent has been told that the child has ended; its
element is still a zombie, and the next wait reports it again. -/
theorem reported_twice : ¬ ∀ s u e, Reaping (fun _ _ => True) s u → ReapedOnce s u e := by
  intro hall
  obtain ⟨s, u, hr, ht⟩ := exists_reaping (C := fun _ _ => True) [.fork, .yield, .exit, .wait 1]
    (fun x => 1 ∉ x.2 ∧ (x.1.mem (.procs 1)).status = .zombie ∧ reported x.1 (.wait 1) = some 1)
    (by decide +kernel)
  obtain ⟨hu, -, hrep⟩ := of_decide_eq_true ht
  exact hu ((hall s u (.wait 1) hr).once 1 hrep)

end HustOS.Proc
