import HustOS.Proc.Run

/-!
# Why a process sleeps

One wait queue holds the processes that sleep in `sem_P` and those that sleep in `process_wait`.
`wake_wait_queue` selects by the field `sem`, which a process keeps after its last `sem_P`, and
`schedule(1)` selects by the process id of the parent. The history of a run records why each sleeper
went to sleep; a sleeper leaves the queue for that reason exactly if the selected one sleeps for the
reason that the selection takes for granted (`leaves_for_reason_iff`).
-/

namespace HustOS.Proc

open Foundations

variable {s s' : Sched} {v v' : View} {e : Event} {p : Addr} {pre post : List Addr}

/-! ## Histories -/

/-- What a sleeper has called. -/
inductive Reason
  | sem (a1 : ℤ)
  | child (pid : ℤ)
  deriving DecidableEq

/-- The reason for which a process sleeps after its event. -/
def Event.reason : Event → Option Reason
  | .semP a1 => some (.sem a1)
  | .wait pid => some (.child pid)
  | _ => none

/-- The reasons of the sleepers after an event. -/
def reasonsAfter (why : Addr → Option Reason) (s : Sched) (e : Event) (s' : Sched) (p : Addr) :
    Option Reason :=
  if p ∉ s'.waitQueue then none
  else if p ∈ s.waitQueue then why p
  else e.reason

/-- An event of a run, with the reasons of the sleepers before it. -/
structure Moment where
  before : Sched
  why : Addr → Option Reason
  event : Event
  after : Sched

/-- The events of a run up to a state, with the reasons of the sleepers there. -/
inductive History : List Moment → Sched → (Addr → Option Reason) → Prop
  | init {s : Sched} (junk : Addr → Process) (start : sStart junk = .ok s) :
      History [] s fun _ => none
  | step {log : List Moment} {s s' : Sched} {why : Addr → Option Reason} {e : Event}
      (run : History log s why) (exec : exec e s = .ok s') :
      History (⟨s, why, e, s'⟩ :: log) s' (reasonsAfter why s e s')

/-- The running process is a child for which the sleeper waits that has called wait with `pid`. -/
def WaitsFor (s : Sched) (p : Addr) (pid : ℤ) : Prop :=
  (s.mem s.current).parent ≠ .null ∧ (s.mem (s.mem s.current).parent).pid = (s.mem p).pid ∧
    (pid = -1 ∨ pid = s.pid)

/-- The event that a sleeper waits for. -/
def Answers (s : Sched) (e : Event) (p : Addr) : Option Reason → Prop
  | some (.sem a1) => e = .semV a1
  | some (.child pid) => e = .exit ∧ WaitsFor s p pid
  | none => False

/-- Every process that leaves the wait queue leaves it for the reason it entered it. -/
def Moment.Right (m : Moment) : Prop :=
  ∀ p ∈ m.before.waitQueue, p ∉ m.after.waitQueue → Answers m.before m.event p (m.why p)

/-- The sleeper that the event selects sleeps for a reason of its kind: the first one with the
semaphore of a `sem_V` is not one that waits for a child, and the parent of a process that exits
waits for this child or for any. -/
def Moment.Allowed (m : Moment) : Prop :=
  match m.event with
  | .semV a1 => 0 ≤ m.before.l a1 + 1 →
      ∀ p ∈ m.before.waitQueue.find? fun p => (m.before.mem p).sem = a1,
        ∀ pid, m.why p ≠ some (.child pid)
  | .exit => (m.before.mem m.before.current).parent ≠ .null →
      ∀ p ∈ m.before.waitQueue,
        (m.before.mem p).pid = (m.before.mem (m.before.mem m.before.current).parent).pid →
        m.why p = some (.child (-1)) ∨ m.why p = some (.child m.before.pid)
  | _ => True

/-! ## Steps -/

/-- The reason of each sleeper is recorded, and its field `sem` is that of its `sem_P`. -/
def Known (s : Sched) (v : View) (why : Addr → Option Reason) : Prop :=
  ∀ p ∈ v.wait, why p = some (.sem (s.core p).sem) ∨ ∃ pid, why p = some (.child pid)

variable {why : Addr → Option Reason}

/-- Where nobody leaves the wait queue, nobody leaves it for a wrong reason. -/
theorem right_of_subset (h : Inv s v) (h' : Inv s' v') (hw : ∀ p ∈ v.wait, p ∈ v'.wait) :
    Moment.Right ⟨s, why, e, s'⟩ := by
  intro p hp hp'
  refine absurd (hw p ?_) ?_
  · exact h.queued.waitQueue ▸ hp
  · exact h'.queued.waitQueue ▸ hp'

/-- One sleeper leaves. -/
theorem right_iff (h : Inv s v) (h' : Inv s' v') (hw : v.wait = pre ++ p :: post)
    (hw' : v'.wait = pre ++ post) :
    Moment.Right ⟨s, why, e, s'⟩ ↔ Answers s e p (why p) := by
  have hnodup := (List.nodup_append.1 h.queued.nodup).2.1
  rw [hw] at hnodup
  have hnot : p ∉ pre ++ post := (List.nodup_cons.1 (List.nodup_middle.1 hnodup)).1
  simp only [Moment.Right, h.queued.waitQueue, h'.queued.waitQueue, hw, hw']
  constructor
  · exact fun hr => hr p (by simp) hnot
  · intro ha q hq hq'
    have hqp : q = p := by
      by_contra hne
      exact hq' (by simpa [hne] using hq)
    rwa [hqp]

/-- A step is right exactly if it is allowed. -/
theorem Step.right_iff_allowed (hs : Step s v e s' v') (h : Inv s v) (hk : Known s v why) :
    Moment.Right ⟨s, why, e, s'⟩ ↔ Moment.Allowed ⟨s, why, e, s'⟩ := by
  have h' := hs.inv h
  have hstay : (∀ p ∈ v.wait, p ∈ v'.wait) → Moment.Allowed ⟨s, why, e, s'⟩ →
      (Moment.Right ⟨s, why, e, s'⟩ ↔ Moment.Allowed ⟨s, why, e, s'⟩) :=
    fun hw ha => ⟨fun _ => ha, fun _ => right_of_subset h h' hw⟩
  cases hs with
  | fork free effect => exact hstay (fun _ hp => hp) trivial
  | rotate start next effect =>
    refine hstay (fun _ hp => hp) ?_
    cases start <;> trivial
  | tick slice effect => exact hstay (fun _ hp => hp) trivial
  | sleep start next effect =>
    refine hstay (fun _ hp => List.mem_append_left _ hp) ?_
    cases start <;> trivial
  | semNew lt effect => exact hstay (fun _ hp => hp) trivial
  | semP high effect => exact hstay (fun _ hp => hp) trivial
  | @semV a1 s' nobody effect =>
    refine hstay (fun _ hp => hp) fun hl p hp => ?_
    have hmem := List.mem_of_find?_eq_some hp
    have hsem := List.find?_some hp
    rw [h.queued.waitQueue] at hmem
    exact absurd (of_decide_eq_true hsem) (nobody hl p hmem)
  | @wake a1 s' pre post p high wait before sem effect =>
    rw [right_iff h h' wait rfl]
    have hfind : s.waitQueue.find? (fun p => (s.mem p).sem = a1) = some p := by
      rw [h.queued.waitQueue, wait, List.find?_append, List.find?_eq_none.2]
      · have hp : (s.mem p).sem = a1 := sem
        simp [hp]
      · intro q hq
        have hne : (s.mem q).sem ≠ a1 := before q hq
        simpa using hne
    have hallowed : Moment.Allowed ⟨s, why, .semV a1, s'⟩ ↔ ∀ pid, why p ≠ some (.child pid) := by
      constructor
      · exact fun ha => ha high p hfind
      · intro ha _ q hq
        obtain rfl := Option.some.inj (hfind.symm.trans hq)
        exact ha
    rw [hallowed]
    rcases hk p (wait ▸ by simp) with hp | ⟨pid, hp⟩
    · rw [hp, sem]
      exact ⟨fun _ _ => nofun, fun _ => rfl⟩
    · rw [hp]
      refine ⟨fun ha => ?_, fun ha => absurd rfl (ha pid)⟩
      cases ha.1
  | wait result effect => exact hstay (fun _ hp => hp) trivial
  | exit alone next same effect =>
    refine hstay (fun _ hp => hp) fun hne p hp hpid => ?_
    rw [h.queued.waitQueue] at hp
    rw [h.queued.current] at hne hpid
    rcases alone with hnull | hall
    · exact absurd hnull hne
    · exact absurd hpid (hall p hp)
  | @wakeParent s' pre post rest p q parent next effect =>
    rw [right_iff h h' parent.wait rfl]
    have hp : p ∈ v.wait := parent.wait ▸ by simp
    have hpar : (s.mem s.current).parent ≠ .null := by
      rw [h.queued.current]
      exact parent.parent
    have hpid : (s.mem p).pid = (s.mem (s.mem s.current).parent).pid := by
      rw [h.queued.current]
      exact parent.pid
    have hallowed : Moment.Allowed ⟨s, why, .exit, s'⟩ ↔
        why p = some (.child (-1)) ∨ why p = some (.child s.pid) := by
      constructor
      · exact fun ha => ha hpar p (h.queued.waitQueue ▸ hp) hpid
      · intro ha _ q hq hqpid
        rw [h.queued.waitQueue] at hq
        -- two sleepers never have one process id
        have hqp : q = p := List.inj_on_of_nodup_map h.ok.nodup
          (List.mem_cons_of_mem _ (List.mem_append_right _ hq))
          (List.mem_cons_of_mem _ (List.mem_append_right _ hp)) (hqpid.trans hpid.symm)
        rwa [hqp]
    rw [hallowed]
    rcases hk p hp with hw | ⟨pid, hw⟩
    · rw [hw]
      exact ⟨nofun, fun ha => by rcases ha with ha | ha <;> cases ha⟩
    · rw [hw, Option.some.injEq, Option.some.injEq, Reason.child.injEq, Reason.child.injEq]
      exact ⟨fun ha => ha.2.2.2, fun ha => ⟨rfl, hpar, hpid.symm, ha⟩⟩

/-- A step keeps the record of the reasons. -/
theorem Step.known (hs : Step s v e s' v') (h : Inv s v) (hk : Known s v why) :
    Known s' v' (reasonsAfter why s e s') := by
  have h' := hs.inv h
  have hsame : ∀ p ∈ v.wait, p ∈ v'.wait → reasonsAfter why s e s' p =
      some (.sem (s'.core p).sem) ∨ ∃ pid, reasonsAfter why s e s' p = some (.child pid) := by
    intro p hp hp'
    rw [reasonsAfter, h.queued.waitQueue, h'.queued.waitQueue, if_neg (not_not.2 hp'), if_pos hp,
      hs.sem_eq h hp]
    exact hk p hp
  have hkeep : (∀ p ∈ v'.wait, p ∈ v.wait) → Known s' v' (reasonsAfter why s e s') :=
    fun hw p hp' => hsame p (hw p hp') hp'
  cases hs with
  | fork free effect => exact hkeep fun _ hp => hp
  | rotate start next effect => exact hkeep fun _ hp => hp
  | tick slice effect => exact hkeep fun _ hp => hp
  | sleep start next effect =>
    intro p hp'
    by_cases hp : p ∈ v.wait
    · exact hsame p hp hp'
    · rw [reasonsAfter, h.queued.waitQueue, h'.queued.waitQueue, if_neg (not_not.2 hp'), if_neg hp]
      have hpc : p = v.cur := by simpa [hp] using hp'
      cases start with
      | semP low =>
        rw [hpc, effect.core, withStatus_sem, withStatus_sem, Function.update_self]
        exact .inl rfl
      | wait child alive => exact .inr ⟨_, rfl⟩
  | semNew lt effect => exact hkeep fun _ hp => hp
  | semP high effect => exact hkeep fun _ hp => hp
  | semV nobody effect => exact hkeep fun _ hp => hp
  | wake high wait before sem effect =>
    refine hkeep fun p hp => ?_
    rw [wait]
    simp only [List.mem_append, List.mem_cons] at hp ⊢
    tauto
  | wait result effect => exact hkeep fun _ hp => hp
  | exit alone next same effect => exact hkeep fun _ hp => hp
  | wakeParent parent next effect =>
    refine hkeep fun p hp => ?_
    rw [parent.wait]
    simp only [List.mem_append, List.mem_cons] at hp ⊢
    tauto

/-! ## Runs -/

theorem History.known {log : List Moment} (h : History log s why) :
    (∃ v, Inv s v ∧ Known s v why) ∧ ∀ m ∈ log, m.Right ↔ m.Allowed := by
  induction h with
  | init junk start =>
    rw [sStart_eq] at start
    obtain rfl := Except.ok.inj start
    exact ⟨⟨_, started_inv junk, fun p hp => absurd hp List.not_mem_nil⟩,
      fun m hm => absurd hm List.not_mem_nil⟩
  | step run exec ih =>
    obtain ⟨⟨v, hv, hk⟩, hlog⟩ := ih
    obtain ⟨v', hs⟩ := exec_step hv exec
    refine ⟨⟨v', hs.inv hv, hs.known hv hk⟩, fun m hm => ?_⟩
    rcases List.mem_cons.1 hm with rfl | hm
    · exact hs.right_iff_allowed hv hk
    · exact hlog m hm

/-- **In a run every process leaves the wait queue for the reason it entered it, exactly if at every
event the selected sleeper sleeps for a reason of the kind of the event.** -/
theorem leaves_for_reason_iff {log : List Moment} (h : History log s why) :
    (∀ m ∈ log, m.Right) ↔ ∀ m ∈ log, m.Allowed :=
  forall₂_congr h.known.2

/-- The history of the events of a list. -/
def recordAll : List Event → List Moment → Sched → (Addr → Option Reason) →
    Option (List Moment × Sched × (Addr → Option Reason))
  | [], log, s, why => some (log, s, why)
  | e :: es, log, s, why => (exec e s).toOption.bind fun s' =>
      recordAll es (⟨s, why, e, s'⟩ :: log) s' (reasonsAfter why s e s')

theorem History.recordAll {es : List Event} {log log' : List Moment}
    {why' : Addr → Option Reason} (h : History log s why)
    (he : recordAll es log s why = some (log', s', why')) : History log' s' why' := by
  induction es generalizing log s why with
  | nil =>
    obtain ⟨rfl, hr⟩ := Prod.mk.inj (Option.some.inj he)
    obtain ⟨rfl, rfl⟩ := Prod.mk.inj hr
    exact h
  | cons e es ih =>
    obtain ⟨s₁, h₁, he⟩ := Option.bind_eq_some_iff.1 he
    exact ih (h.step (toOption_eq_some.1 h₁)) he

/-- The history of the events of a list from the start, with a test. -/
theorem exists_history (es : List Event) (test : List Moment → Bool)
    (h : (recordAll es [] (started blank) fun _ => none).any (fun x => test x.1) = true) :
    ∃ log s why, History log s why ∧ test log = true := by
  obtain ⟨⟨log, s, why⟩, hs, ht⟩ := (Option.any_eq_true _ _).1 h
  exact ⟨log, s, why, (History.init blank (sStart_eq blank)).recordAll hs, ht⟩

theorem leaves_for_reason_iff_child_exits : ∃ log s why, History log s why ∧ log.length = 3 ∧
    ((∀ m ∈ log, m.Right) ↔ ∀ m ∈ log, m.Allowed) := by
  obtain ⟨log, s, why, h, ht⟩ := exists_history [.fork, .wait 1, .exit]
    (fun log => log.length = 3) (by decide +kernel)
  exact ⟨log, s, why, h, of_decide_eq_true ht, leaves_for_reason_iff h⟩

/-- A process sleeps on a semaphore and its child exits: the process leaves the wait queue without
any `sem_V`. -/
theorem leaves_for_wrong_reason : ∃ log s why, History log s why ∧ ∃ m ∈ log, m.event = .exit ∧
    .procs 0 ∈ m.before.waitQueue ∧ .procs 0 ∉ m.after.waitQueue ∧
    m.why (.procs 0) = some (.sem 1) ∧ ¬ m.Right := by
  obtain ⟨log, s, why, h, ht⟩ := exists_history [.semNew 0, .fork, .semP 1, .exit]
    (fun log => log.any fun m => m.event = .exit ∧ .procs 0 ∈ m.before.waitQueue ∧
      .procs 0 ∉ m.after.waitQueue ∧ m.why (.procs 0) = some (.sem 1)) (by decide +kernel)
  obtain ⟨m, hm, ht⟩ := List.any_eq_true.1 ht
  obtain ⟨he, hp, hp', hw⟩ := of_decide_eq_true ht
  refine ⟨log, s, why, h, m, hm, he, hp, hp', hw, fun hr => ?_⟩
  have ha := hr _ hp hp'
  rw [hw, he] at ha
  cases ha

end HustOS.Proc
