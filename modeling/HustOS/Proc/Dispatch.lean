import HustOS.Proc.Identity

/-!
# The calls of `schedule`

`schedule` takes the head of the ready queue. That the queue may be empty is tested in the `else`
branch of the handling of an exit, so an exit with sleepers in the wait queue skips the test: if the
parent is not among the sleepers and nobody is ready, the dispatcher loads through a null pointer
(`AtCall.exit_noParent`). This is the only way in which a call goes wrong
(`scheduleRight_iff`).

A call is described by the state in which it is made (`CallsSchedule`), so that the queues already
hold the process that gives the processor away.
-/

namespace HustOS.Proc

open Foundations

variable {s s₁ s' : Sched} {v : View} {e : Event} {type : ℤ}

/-! ## The calls -/

/-- The event `e` of the running process calls `schedule(type)` in the state `s₁`. -/
inductive CallsSchedule (s : Sched) : Event → ℤ → Sched → Prop
  | yield {s₁ : Sched} (queue : insertToReadyQueue s.current s = .ok s₁) :
      CallsSchedule s .yield 0 s₁
  | tick {a0 : ℤ} {s₁ : Sched} (expired : (s.mem s.current).tickCount + 1 ≥ 2)
      (queue : insertToReadyQueue s.current
        (s.write s.current { s.mem s.current with tickCount := 0 }) = .ok s₁) :
      CallsSchedule s (.tick a0) 0 s₁
  | wait {pid : ℤ} {i : Fin NPROC} {s₁ : Sched} (child : waitedChild pid s = some i)
      (alive : (s.mem (.procs i)).status ≠ .zombie)
      (queue : insertToWaitQueue s.current s = .ok s₁) : CallsSchedule s (.wait pid) 0 s₁
  | semP {a1 : ℤ} {s₁ : Sched} (index : semCheck a1 = .ok ())
      (range : intCheck (s.l a1 - 1) = .ok ()) (low : ¬ s.l a1 - 1 ≥ 0)
      (queue : insertToWaitQueue s.current
        ({ s with l := Function.update s.l a1 (s.l a1 - 1) }.write s.current
          { s.mem s.current with sem := a1 }) = .ok s₁) : CallsSchedule s (.semP a1) 0 s₁
  | exit : CallsSchedule s .exit 1 (freeProcess s.current s)

/-- The event ends with that call. -/
theorem CallsSchedule.handle (h : CallsSchedule s e type s₁) :
    handle e s = (do return (none, ← schedule type s₁)) := by
  cases h with
  | yield queue =>
    rw [Proc.handle, sysUserYield, queue]
    rfl
  | tick expired queue =>
    rw [Proc.handle, rrsched]
    dsimp only
    rw [if_pos expired]
    change (insertToReadyQueue s.current _ >>= _) >>= _ = _
    rw [queue]
    rfl
  | wait child alive queue =>
    rw [Proc.handle, processWait, child]
    dsimp only
    rw [if_neg alive, sleep, queue]
    rfl
  | semP index range low queue =>
    rw [Proc.handle, sysUserSemP, index, ok_bind, range, ok_bind]
    dsimp only
    rw [if_neg low, sleep]
    change (insertToWaitQueue s.current _ >>= _) >>= _ = _
    rw [queue]
    rfl
  | exit => rfl

/-- The calls of `schedule` in all runs. -/
inductive Called : ℤ → Sched → Prop
  /-- The call at the end of `s_start`. -/
  | start (junk : Addr → Process) {i : Fin NPROC} {s s₁ : Sched}
      (alloc : allocProcess (initProcPool junk) = .ok (i, s))
      (queue : insertToReadyQueue (.procs i) s = .ok s₁) : Called 0 s₁
  /-- A call by an event, which begins with a trap. -/
  | event {s s₁ : Sched} {e : Event} {type : ℤ} (run : Reachable s)
      (call : CallsSchedule { s with a0 := s.saved e } e type s₁) : Called type s₁

/-! ## What a call does -/

/-- A process gets the processor. -/
inductive Dispatches (type : ℤ) (s s' : Sched) : Prop
  /-- The head of the ready queue, which is `READY`. -/
  | head {rest : List Addr} (queue : s.readyQueue = s'.current :: rest)
      (ready : (s.mem s'.current).status = .ready)
      (running : (s'.mem s'.current).status = .running)
  /-- The parent that the exit wakes. Nobody is in front of it in the ready queue. -/
  | parent {p : Addr} (exits : type = 1) (nobody : s.readyQueue = []) (sleeper : p ∈ s.waitQueue)
      (pid : (s.mem p).pid = (s.mem (s.mem s.current).parent).pid)
      (copy : s'.current = .stack s.pid) (same : s'.pid = (s.mem p).pid)
      (running : (s'.mem s'.current).status = .running)

/-- A call of `schedule` does one of the three things that it is for. -/
inductive ScheduleRight (type : ℤ) (s : Sched) : Prop
  | dispatch {s' : Sched} (result : schedule type s = .ok s') (effect : Dispatches type s s')
  | shutdown (idle : ∀ i, (s.mem (.procs i)).status = .free ∨ (s.mem (.procs i)).status = .zombie)
      (result : schedule type s = .error (.shutdown 0))
  | panic (result : schedule type s =
      .error (.panic "Not handled: we should let system wait for unfinished processes.\n"))

/-- A process exits while others sleep, its parent is not among them, and nobody is ready. -/
structure Stranded (type : ℤ) (s : Sched) : Prop where
  exits : type = 1
  sleepers : s.waitQueue ≠ []
  nobody : s.readyQueue = []
  parent : ¬ ParentSleeps s

/-! ## The state at a call -/

/-- The queues of the state in which `schedule(type)` is called. -/
structure AtCall (type : ℤ) (s : Sched) (v : View) : Prop where
  arg : type = 0 ∨ type = 1
  queued : Queued s v
  isReady : ∀ a ∈ v.ready, (s.core a).status = .ready
  cur : type = 1 → v.cur ≠ .null
  stack : type = 1 → .stack s.pid ∉ v.ready ++ v.wait

theorem CallsSchedule.atCall (h : Inv s v) (hc : CallsSchedule s e type s₁) :
    ∃ v₁, AtCall type s₁ v₁ := by
  have hcur := h.ok.cur_notMem
  have hnull := h.ok.cur_ne
  have hnot : v.cur ∉ v.ready ++ v.wait := by simpa using hcur
  cases hc with
  | yield queue =>
    obtain ⟨s₂, h₂, hm, hready⟩ := h.queued.requeue hcur hnull h.ok.isReady
    obtain rfl := Except.ok.inj (queue.symm.trans h₂)
    exact ⟨_, .inl rfl, hm.queued, hready, nofun, nofun⟩
  | tick expired queue =>
    obtain ⟨hq, hs⟩ := h.write_cur { s.mem s.current with tickCount := 0 }
    rw [← h.queued.current] at hq hs
    obtain ⟨s₂, h₂, hm, hready⟩ := hq.requeue hcur hnull hs
    obtain rfl := Except.ok.inj (queue.symm.trans h₂)
    exact ⟨_, .inl rfl, hm.queued, hready, nofun, nofun⟩
  | wait child alive queue =>
    obtain ⟨s₂, h₂, hm, hready⟩ := h.queued.block hcur hnull h.ok.isReady
    obtain rfl := Except.ok.inj (queue.symm.trans h₂)
    exact ⟨_, .inl rfl, hm.queued, hready, nofun, nofun⟩
  | @semP a1 _ index range low queue =>
    have hInv : Inv { s with l := Function.update s.l a1 (s.l a1 - 1) } v :=
      ⟨h.queued.trapped _, h.ok⟩
    obtain ⟨hq, hs⟩ := hInv.write_cur { s.mem s.current with sem := a1 }
    rw [← h.queued.current] at hq hs
    obtain ⟨s₂, h₂, hm, hready⟩ := hq.block hcur hnull hs
    obtain rfl := Except.ok.inj (queue.symm.trans h₂)
    exact ⟨_, .inl rfl, hm.queued, hready, nofun, nofun⟩
  | exit =>
    rw [h.queued.current]
    exact ⟨v, .inr rfl, freeProcess_queued h, freeProcess_isReady h, fun _ => hnull,
      fun _ => freeProcess_stack h⟩

theorem Called.atCall (h : Called type s) : ∃ v, AtCall type s v := by
  cases h with
  | @start junk i s₀ s₁ alloc queue =>
    have hs₀ : s₀.current = .null ∧ s₀.readyQueueHead = .null ∧ s₀.waitQueueHead = .null := by
      rw [allocProcess] at alloc
      split at alloc
      · cases alloc
      · rw [← (Prod.mk.inj (Except.ok.inj alloc)).2]
        exact ⟨rfl, rfl, rfl⟩
    have hq : Queued s₀ ⟨.null, [], []⟩ := ⟨hs₀.1, hs₀.2.1, hs₀.2.2, List.nodup_nil⟩
    have hne : Addr.procs i ≠ .null := by simp
    obtain ⟨s₂, h₂, hm⟩ := hq.insertToReadyQueue List.not_mem_nil List.not_mem_nil hne
    obtain rfl := Except.ok.inj (queue.symm.trans h₂)
    have hone : (0 : ℤ) ≠ 1 := by decide
    refine ⟨_, .inl rfl, hm.queued, fun a ha => ?_, fun e => absurd e hone, fun e => absurd e hone⟩
    rw [List.nil_append, List.mem_singleton] at ha
    rw [Sched.core, hm.core, ha, withStatus_self]
  | event run call =>
    obtain ⟨v, hv⟩ := run.inv
    exact call.atCall (hv.trapped _)

/-! ## Outcomes -/

namespace AtCall

/-- A process from the head of the ready queue goes on. -/
theorem dispatches_head {q : Addr} {rest : List Addr} {c : Addr → Process} {v' : View}
    (h : AtCall type s v) (hq : v.ready = q :: rest) (hm : Moves s s' (withStatus c q .running) v')
    (hv : v'.cur = q) : Dispatches type s s' := by
  have hcur : s'.current = q := hm.queued.current.trans hv
  have hready : s.readyQueue = s'.current :: rest := by rw [h.queued.readyQueue, hq, hcur]
  refine .head hready ?_ ?_
  · rw [hcur]
    exact h.isReady q (hq ▸ List.mem_cons_self)
  · have hst : (coreOf s'.mem q).status = .running := by rw [hm.core, withStatus_self]
    rw [hcur]
    exact hst

/-- The tail of `schedule` tests whether the ready queue is empty. -/
theorem plain (h : AtCall type s v) (he : schedule type s = schedule 0 s) :
    ScheduleRight type s := by
  have htail : schedule 0 s =
      if s.readyQueueHead = .null then
        if ∀ i, (s.mem (.procs i)).status = .free ∨ (s.mem (.procs i)).status = .zombie then
          .error (.shutdown 0)
        else .error (.panic "Not handled: we should let system wait for unfinished processes.\n")
      else dispatch s := by
    rw [schedule, if_neg (by simp)]
    rfl
  rw [htail] at he
  rcases hr : v.ready with _ | ⟨q, rest⟩
  · have hhead : s.readyQueueHead = .null := Chain.nil_iff.1 (hr ▸ h.queued.ready)
    rw [if_pos hhead] at he
    by_cases hidle : ∀ i, (s.mem (.procs i)).status = .free ∨ (s.mem (.procs i)).status = .zombie
    · rw [if_pos hidle] at he
      exact .shutdown hidle he
    · rw [if_neg hidle] at he
      exact .panic he
  · have hhead : s.readyQueueHead ≠ .null := by
      intro e
      have hnil := Chain.eq_nil (e ▸ h.queued.ready)
      rw [hr] at hnil
      cases hnil
    obtain ⟨s', hd, hm⟩ := h.queued.dispatch hr (h.isReady q (hr ▸ List.mem_cons_self))
    rw [if_neg hhead, hd] at he
    exact .dispatch he (h.dispatches_head hr hm rfl)

/-- The exit of a process whose parent does not sleep, while others do: the dispatcher does not test
whether the ready queue is empty. -/
theorem exit_noParent (h : AtCall 1 s v) (hw : v.wait ≠ []) (hno : NoParent s.core v) :
    (∃ s' q rest, schedule 1 s = .ok s' ∧ v.ready = q :: rest ∧ Dispatches 1 s s') ∨
      v.ready = [] ∧ schedule 1 s = .error .nullDeref := by
  obtain ⟨x, hx⟩ := h.queued.schedule_of_noParent (h.cur rfl) hw hno
  have hq := h.queued.write (x := x) fun hm => absurd hm (h.stack rfl)
  rcases hr : v.ready with _ | ⟨q, rest⟩
  · have hhead : (s.write (.stack s.pid) x).readyQueueHead = .null :=
      Chain.nil_iff.1 (hr ▸ hq.ready)
    refine .inr ⟨rfl, ?_⟩
    rw [hx, dispatch, Sched.deref, if_pos hhead]
    rfl
  · have hne : q ≠ .stack s.pid := by
      rintro rfl
      exact h.stack rfl (by rw [hr]; simp)
    have hready : ((s.write (.stack s.pid) x).core q).status = .ready := by
      rw [core_write, Function.update_of_ne hne]
      exact h.isReady q (hr ▸ List.mem_cons_self)
    obtain ⟨s', hd, hm⟩ := hq.dispatch hr hready
    refine .inl ⟨s', q, rest, hx.trans hd, rfl, ?_⟩
    exact h.dispatches_head hr ⟨hm.queued, hm.core, hm.l, hm.len, hm.a0⟩ rfl

/-- The exit of a process whose parent sleeps. -/
theorem exit_parentAt {pre post : List Addr} {p : Addr} (h : AtCall 1 s v)
    (hp : ParentAt s.core v pre p post) : ScheduleRight 1 s := by
  obtain ⟨s', q, rest, he, hq, hm⟩ :=
    h.queued.wakes_parent hp (h.cur rfl) (h.stack rfl) h.isReady
  refine .dispatch he ?_
  rcases hr : v.ready with _ | ⟨q', rest'⟩
  · rw [hr] at hq
    obtain ⟨rfl, -⟩ := List.cons.inj hq
    have hcur : s'.current = .stack s.pid := hm.queued.current
    have hst : (coreOf s'.mem (.stack s.pid)).status = .running := by
      rw [hm.core, withStatus_self]
    have hpid : (coreOf s'.mem (.stack s.pid)).pid = (s.core p).pid := by
      rw [hm.core, withStatus_pid, Function.update_self]
    have hparent : (s.core p).pid = (s.mem (s.mem s.current).parent).pid := by
      rw [hp.pid, h.queued.current]
      rfl
    refine .parent rfl ?_ (p := p) ?_ hparent hcur ?_ ?_
    · rw [h.queued.readyQueue, hr]
    · rw [h.queued.waitQueue, hp.wait]
      simp
    · rw [Sched.pid, hcur]
      exact hpid
    · rw [hcur]
      exact hst
  · have hq' : v.ready = q :: rest' := by
      rw [hr, List.cons_append] at hq
      rw [hr, (List.cons.inj hq).1]
    exact h.dispatches_head hq' hm rfl

end AtCall

theorem AtCall.stranded_iff (h : AtCall type s v) :
    Stranded type s ↔ type = 1 ∧ v.wait ≠ [] ∧ v.ready = [] ∧ NoParent s.core v := by
  rw [h.queued.noParent_iff, ← h.queued.readyQueue, ← h.queued.waitQueue]
  constructor
  · intro hs
    exact ⟨hs.exits, hs.sleepers, hs.nobody, hs.parent⟩
  · rintro ⟨h₁, h₂, h₃, h₄⟩
    exact ⟨h₁, h₂, h₃, h₄⟩

theorem AtCall.outcome (h : AtCall type s v) : ScheduleRight type s ∧ ¬ Stranded type s ∨
    schedule type s = .error .nullDeref ∧ Stranded type s := by
  rw [h.stranded_iff]
  rcases h.arg with rfl | rfl
  · exact .inl ⟨h.plain rfl, fun hs => absurd hs.1 (by decide)⟩
  by_cases hw : v.wait = []
  · exact .inl ⟨h.plain (h.queued.schedule_of_wait_nil hw), fun hs => hs.2.1 hw⟩
  by_cases hno : NoParent s.core v
  · rcases h.exit_noParent hw hno with ⟨s', q, rest, he, hr, hd⟩ | ⟨hr, he⟩
    · refine .inl ⟨.dispatch he hd, fun hs => ?_⟩
      rw [hr] at hs
      cases hs.2.2.1
    · exact .inr ⟨he, rfl, hw, hr, hno⟩
  · obtain ⟨pre, p, post, hp⟩ := Queued.exists_parentAt hno
    exact .inl ⟨h.exit_parentAt hp, fun hs => hno hs.2.2.2⟩

theorem ScheduleRight.ne_nullDeref (h : ScheduleRight type s) :
    schedule type s ≠ .error .nullDeref := by
  cases h with
  | dispatch result => rw [result]; exact nofun
  | shutdown _ result => rw [result]; exact nofun
  | panic result => rw [result]; exact nofun

/-- **The calls of `schedule`.** A call in a run dispatches a process that is ready, shuts the idle
machine down or panics, exactly if it is no exit with sleepers in the wait queue, the parent not
among them and nobody ready. -/
theorem scheduleRight_iff (h : Called type s) : ScheduleRight type s ↔ ¬ Stranded type s := by
  obtain ⟨v, hv⟩ := h.atCall
  rcases hv.outcome with ⟨hright, hno⟩ | ⟨he, hs⟩
  · exact ⟨fun _ => hno, fun _ => hright⟩
  · exact ⟨fun hright => absurd he hright.ne_nullDeref, fun hno => absurd hs hno⟩

/-- The exit of the first process while its child sleeps at a semaphore. -/
theorem exists_stranded : ∃ s, Called 1 s ∧ Stranded 1 s := by
  obtain ⟨s, hs, -, ht⟩ := exists_run (C := fun _ _ => True)
    [.semNew 0, .fork, .yield, .semP 1]
    (fun s =>
      let s₁ := freeProcess s.current { s with a0 := s.saved .exit }
      s₁.waitQueue ≠ [] ∧ s₁.readyQueue = [] ∧ ¬ ParentSleeps s₁) (by decide +kernel)
  obtain ⟨hwait, hready, hparent⟩ := of_decide_eq_true ht
  exact ⟨_, .event hs .exit, rfl, hwait, hready, hparent⟩

/-- The child exits while its parent waits for it. -/
theorem scheduleRight_iff_parent_sleeps :
    ∃ s, Called 1 s ∧ s.readyQueue = [] ∧ s.waitQueue ≠ [] ∧ ParentSleeps s ∧
      (ScheduleRight 1 s ↔ ¬ Stranded 1 s) := by
  obtain ⟨s, hs, -, ht⟩ := exists_run (C := fun _ _ => True) [.fork, .wait 1]
    (fun s =>
      let s₁ := freeProcess s.current { s with a0 := s.saved .exit }
      s₁.readyQueue = [] ∧ s₁.waitQueue ≠ [] ∧ ParentSleeps s₁) (by decide +kernel)
  obtain ⟨hready, hwait, hparent⟩ := of_decide_eq_true ht
  have hcall : Called 1 _ := .event hs .exit
  exact ⟨_, hcall, hready, hwait, hparent, scheduleRight_iff hcall⟩

/-- **A dispatch from an empty queue.** -/
theorem schedule_from_empty : ∃ s, Called 1 s ∧ s.readyQueue = [] ∧
    schedule 1 s = .error .nullDeref ∧ ¬ ScheduleRight 1 s := by
  obtain ⟨s, hs, hstr⟩ := exists_stranded
  obtain ⟨v, hv⟩ := hs.atCall
  rcases hv.outcome with ⟨-, hno⟩ | ⟨he, -⟩
  · exact absurd hstr hno
  · exact ⟨s, hs, hstr.nobody, he, fun hright => hright.ne_nullDeref he⟩

/-! ## Null pointers -/

section Faults

variable {mem : Addr → Process} {proc p front : Addr} {fuel : ℕ} {status : Status} {a1 : ℤ}

theorem lastLoop_sat : Sat (lastLoop mem proc fuel p) (fun _ => True) (· = .spin) := by
  induction fuel generalizing p with
  | zero => exact rfl
  | succ fuel ih =>
    rw [lastLoop]
    split
    · trivial
    · split
      · trivial
      · exact ih

theorem insertToQueue_sat :
    Sat (insertToQueue status proc p mem) (fun _ => True) (· = .spin) := by
  rw [insertToQueue]
  split
  · trivial
  · refine lastLoop_sat.bind fun r _ => ?_
    cases r with
    | none => trivial
    | some q => trivial

theorem insertToReadyQueue_sat :
    Sat (insertToReadyQueue proc s) (fun _ => True) (· = .spin) :=
  insertToQueue_sat.bind fun _ _ => trivial

theorem insertToWaitQueue_sat : Sat (insertToWaitQueue proc s) (fun _ => True) (· = .spin) :=
  insertToQueue_sat.bind fun _ _ => trivial

theorem wakeLoop_sat : Sat (wakeLoop mem a1 fuel front p) (fun _ => True) (· = .spin) := by
  induction fuel generalizing front p with
  | zero => exact rfl
  | succ fuel ih =>
    rw [wakeLoop]
    split
    · trivial
    · split
      · trivial
      · exact ih

theorem wakeWaitQueue_sat : Sat (wakeWaitQueue a1 s) (fun _ => True) (· = .spin) := by
  rw [wakeWaitQueue]
  split
  · refine wakeLoop_sat.bind fun r _ => ?_
    cases r with
    | none => trivial
    | some r => trivial
  · trivial

theorem allocProcess_sat : Sat (allocProcess s) (fun _ => True) (· ≠ .nullDeref) := by
  rw [allocProcess]
  split
  · exact fun h => Fault.noConfusion h
  · trivial

theorem semCheck_sat : Sat (semCheck a1) (fun _ => True) (· ≠ .nullDeref) := by
  rw [semCheck]
  split
  · trivial
  · exact nofun

theorem intCheck_sat : Sat (intCheck a1) (fun _ => True) (· ≠ .nullDeref) := by
  rw [intCheck]
  split
  · trivial
  · exact nofun

theorem ne_nullDeref_of_spin : ∀ f : Fault, f = .spin → f ≠ .nullDeref := by
  rintro _ rfl
  exact nofun

/-- Only a call of `schedule` loads through a null pointer. -/
theorem handle_sat (hno : ∀ type s₁, ¬ CallsSchedule s e type s₁) :
    Sat (handle e s) (fun _ => True) (· ≠ .nullDeref) := by
  cases e with
  | fork =>
    refine Sat.bind (P := fun _ => True) ?_ fun _ _ => trivial
    refine allocProcess_sat.bind fun _ _ => ?_
    exact (insertToReadyQueue_sat.mono' ne_nullDeref_of_spin).bind fun _ _ => trivial
  | yield =>
    have hsat : Sat (insertToReadyQueue s.current s) _ _ :=
      insertToReadyQueue_sat.mono' ne_nullDeref_of_spin
    rw [handle, sysUserYield]
    rcases hq : insertToReadyQueue s.current s with f | s₁
    · rw [hq] at hsat
      exact hsat
    · exact absurd (.yield hq) (hno _ _)
  | tick a0 =>
    rw [handle, rrsched]
    dsimp only
    split
    · rename_i hover
      set x : Process := { s.mem s.current with tickCount := 0 }
      have hsat : Sat (insertToReadyQueue s.current (s.write s.current x)) _ _ :=
        insertToReadyQueue_sat.mono' ne_nullDeref_of_spin
      change Sat ((insertToReadyQueue s.current (s.write s.current x) >>= _) >>= _) _ _
      rcases hq : insertToReadyQueue s.current (s.write s.current x) with f | s₁
      · rw [hq] at hsat
        exact hsat
      · exact absurd (.tick hover hq) (hno _ _)
    · trivial
  | wait pid =>
    rw [handle, processWait]
    split
    · trivial
    · rename_i i hi
      split
      · trivial
      · rename_i hz
        have hsat : Sat (insertToWaitQueue s.current s) _ _ :=
          insertToWaitQueue_sat.mono' ne_nullDeref_of_spin
        rw [sleep]
        rcases hq : insertToWaitQueue s.current s with f | s₁
        · rw [hq] at hsat
          exact hsat
        · exact absurd (.wait hi hz hq) (hno _ _)
  | exit => exact absurd .exit (hno _ _)
  | semNew a1 =>
    refine Sat.bind (P := fun _ => True) ?_ fun _ _ => trivial
    exact semCheck_sat.bind fun _ _ => trivial
  | semP a1 =>
    rw [handle, sysUserSemP]
    rcases hi : semCheck a1 with f | u
    · have hsat : Sat (semCheck a1) _ _ := semCheck_sat
      rw [hi] at hsat
      exact hsat
    rcases hr : intCheck (s.l a1 - 1) with f | u'
    · have hsat : Sat (intCheck (s.l a1 - 1)) _ _ := intCheck_sat
      rw [hr] at hsat
      exact hsat
    rw [ok_bind, ok_bind]
    dsimp only
    split
    · trivial
    · rename_i hlow
      set s₀ : Sched := { s with l := Function.update s.l a1 (s.l a1 - 1) }
      set x : Process := { s.mem s.current with sem := a1 }
      have hsat : Sat (insertToWaitQueue s.current (s₀.write s.current x)) _ _ :=
        insertToWaitQueue_sat.mono' ne_nullDeref_of_spin
      change Sat ((insertToWaitQueue s.current (s₀.write s.current x) >>= _) >>= _) _ _
      rcases hq : insertToWaitQueue s.current (s₀.write s.current x) with f | s₁
      · rw [hq] at hsat
        exact hsat
      · exact absurd (.semP hi hr hlow hq) (hno _ _)
  | semV a1 =>
    refine Sat.bind (P := fun _ => True) ?_ fun _ _ => trivial
    refine semCheck_sat.bind fun _ _ => intCheck_sat.bind fun _ _ => ?_
    exact (wakeWaitQueue_sat.mono' ne_nullDeref_of_spin).bind fun _ _ => trivial

end Faults

theorem exec_error_iff {f : Fault} (hcur : s.current ≠ .null) :
    exec e s = .error f ↔ handle e { s with a0 := s.saved e } = .error f := by
  rw [exec, if_neg hcur]
  change (handle e { s with a0 := s.saved e } >>= _) = _ ↔ _
  rw [bind_error_iff, or_iff_left]
  rintro ⟨⟨r, s₁⟩, -, hr⟩
  cases r with
  | none => cases hr
  | some r => cases hr

/-- In a run only such an exit loads through a null pointer. -/
theorem exec_nullDeref_iff (h : Reachable s) : exec e s = .error .nullDeref ↔
    e = .exit ∧ Stranded 1 (freeProcess s.current { s with a0 := s.saved e }) := by
  obtain ⟨v, hv⟩ := h.inv
  rw [exec_error_iff (hv.queued.current ▸ hv.ok.cur_ne)]
  constructor
  · intro he
    by_cases hcall : ∃ type s₁, CallsSchedule { s with a0 := s.saved e } e type s₁
    · obtain ⟨type, s₁, hc⟩ := hcall
      rw [hc.handle, bind_error_iff] at he
      have hnull := he.resolve_right fun ⟨_, _, hr⟩ => by cases hr
      have hs : Stranded type s₁ := by
        by_contra hno
        exact ((scheduleRight_iff (.event h hc)).2 hno).ne_nullDeref hnull
      cases hc with
      | exit => exact ⟨rfl, hs⟩
      | yield _ => exact absurd hs.exits (by decide)
      | tick _ _ => exact absurd hs.exits (by decide)
      | wait _ _ _ => exact absurd hs.exits (by decide)
      | semP _ _ _ _ => exact absurd hs.exits (by decide)
    · have hsat := handle_sat fun type s₁ hc => hcall ⟨type, s₁, hc⟩
      rw [he] at hsat
      exact absurd rfl hsat
  · rintro ⟨rfl, hs⟩
    have hcall : Called 1 _ := .event h .exit
    obtain ⟨v₁, hv₁⟩ := hcall.atCall
    rcases hv₁.outcome with ⟨-, hno⟩ | ⟨he, -⟩
    · exact absurd hs hno
    · change (schedule 1 _ >>= _) = _
      rw [he]
      rfl

end HustOS.Proc
