import HustOS.Proc.Steps

/-!
# Every event is a step

The functions of the scheduler, called in a state with the invariant, do what `Step` says
(`exec_step`). A function that schedules is a list operation on the view followed by the dispatch of
the head of the ready queue; `schedule(1)` first takes the parent of the exiting process out of the
wait queue and queues the copy (`Queued.schedule_one`).
-/

namespace HustOS.Proc

open Foundations

variable {s s' : Sched} {v : View} {a p : Addr} {e : Event} {pre post : List Addr}
  {i : Fin NPROC} {a1 : ℤ}

theorem core_write (s : Sched) (a : Addr) (x : Process) :
    (s.write a x).core = Function.update s.core a x.core := by
  funext b
  by_cases hb : b = a
  · subst hb
    simp [Sched.core, coreOf, Sched.write]
  · simp [Sched.core, coreOf, Sched.write, hb]

namespace Queued

variable (h : Queued s v)

include h

/-- A store to a structure keeps the queues if it keeps the link of a structure in them. -/
theorem write {x : Process}
    (hx : a ∈ v.ready ++ v.wait → x.queueNext = (s.mem a).queueNext) : Queued (s.write a x) v := by
  have hnext : ∀ b ∈ v.ready ++ v.wait, nextOf (s.write a x).mem b = nextOf s.mem b := by
    intro b hb
    by_cases hba : b = a
    · subst hba
      simpa [nextOf, Sched.write] using hx hb
    · simp [nextOf, Sched.write, hba]
  refine ⟨h.current, h.ready.congr fun b hb => ?_, h.wait.congr fun b hb => ?_, h.nodup⟩
  · exact hnext b (List.mem_append_left _ hb)
  · exact hnext b (List.mem_append_right _ hb)

/-- The registers and the semaphores do not matter. -/
theorem trapped (f : Fin NPROC → ℤ) {l : ℤ → ℤ} {len : ℤ} :
    Queued { s with a0 := f, l := l, len := len } v :=
  ⟨h.current, h.ready, h.wait, h.nodup⟩

/-- The running process goes to the rear of the ready queue. -/
theorem requeue (hcur : v.cur ∉ v.ready ∧ v.cur ∉ v.wait) (hnull : v.cur ≠ .null)
    (hs : ∀ a ∈ v.ready, (s.core a).status = .ready) :
    ∃ s₁, Proc.insertToReadyQueue s.current s = .ok s₁ ∧
      Moves s s₁ (withStatus s.core v.cur .ready) { v with ready := v.ready ++ [v.cur] } ∧
      ∀ a ∈ v.ready ++ [v.cur], (s₁.core a).status = .ready := by
  obtain ⟨s₁, h₁, hm⟩ := h.insertToReadyQueue hcur.1 hcur.2 hnull
  rw [← h.current] at h₁
  refine ⟨s₁, h₁, hm, fun a ha => ?_⟩
  rw [Sched.core, hm.core]
  by_cases hac : a = v.cur
  · rw [hac, withStatus_self]
  · rw [withStatus_of_ne hac]
    refine hs a ?_
    rcases List.mem_append.1 ha with ha | ha
    · exact ha
    · exact absurd (List.mem_singleton.1 ha) hac

/-- The running process goes to the rear of the wait queue. -/
theorem block (hcur : v.cur ∉ v.ready ∧ v.cur ∉ v.wait) (hnull : v.cur ≠ .null)
    (hs : ∀ a ∈ v.ready, (s.core a).status = .ready) :
    ∃ s₁, Proc.insertToWaitQueue s.current s = .ok s₁ ∧
      Moves s s₁ (withStatus s.core v.cur .blocked) { v with wait := v.wait ++ [v.cur] } ∧
      ∀ a ∈ v.ready, (s₁.core a).status = .ready := by
  obtain ⟨s₁, h₁, hm⟩ := h.insertToWaitQueue hcur.1 hcur.2 hnull
  rw [← h.current] at h₁
  refine ⟨s₁, h₁, hm, fun a ha => ?_⟩
  have hac : a ≠ v.cur := fun e => hcur.1 (e ▸ ha)
  rw [Sched.core, hm.core, withStatus_of_ne hac]
  exact hs a ha

/-- The running process is queued and the first of the queue goes on. -/
theorem rotate (hcur : v.cur ∉ v.ready ∧ v.cur ∉ v.wait) (hnull : v.cur ≠ .null)
    (hs : ∀ a ∈ v.ready, (s.core a).status = .ready)
    (he : (Proc.insertToReadyQueue s.current s >>= schedule 0) = .ok s') :
    ∃ q rest, v.ready ++ [v.cur] = q :: rest ∧
      Moves s s' (withStatus (withStatus s.core v.cur .ready) q .running) ⟨q, rest, v.wait⟩ := by
  obtain ⟨s₁, h₁, hm, hready⟩ := h.requeue hcur hnull hs
  rw [h₁, ok_bind] at he
  obtain ⟨q, rest, hq, hm'⟩ := hm.queued.schedule_zero hready he
  rw [hm.core] at hm'
  exact ⟨q, rest, hq, hm.trans hm'⟩

/-- The running process sleeps and the first of the ready queue goes on. -/
theorem sleep (hcur : v.cur ∉ v.ready ∧ v.cur ∉ v.wait) (hnull : v.cur ≠ .null)
    (hs : ∀ a ∈ v.ready, (s.core a).status = .ready) (he : Proc.sleep s = .ok s') :
    ∃ q rest, v.ready = q :: rest ∧
      Moves s s' (withStatus (withStatus s.core v.cur .blocked) q .running)
        ⟨q, rest, v.wait ++ [v.cur]⟩ := by
  obtain ⟨s₁, h₁, hm, hready⟩ := h.block hcur hnull hs
  rw [Proc.sleep, h₁, ok_bind] at he
  obtain ⟨q, rest, hq, hm'⟩ := hm.queued.schedule_zero hready he
  rw [hm.core] at hm'
  exact ⟨q, rest, hq, hm.trans hm'⟩

/-- The copy of the sleeping parent is queued. -/
theorem scheduleParent {t : Addr} (hp : v.wait = pre ++ p :: post)
    (hbefore : ∀ a ∈ pre, (s.core a).pid ≠ (s.core t).pid) (hpid : (s.core p).pid = (s.core t).pid)
    (ht : t ∉ v.ready ++ v.wait) (hnull : t ≠ .null)
    (hs : ∀ a ∈ v.ready, (s.core a).status = .ready) :
    ∃ s' q rest, Proc.scheduleParent t s = .ok s' ∧ v.ready ++ [t] = q :: rest ∧
      Moves s s' (withStatus (withStatus s.core t .ready) q .running) ⟨q, rest, pre ++ post⟩ := by
  have hc := h.wait
  have hnd := h.nodup
  rw [hp] at hc hnd ht
  have hndw := (List.nodup_append.1 hnd).2.1
  have hloop : unlinkLoop (s.mem t).pid s.waitQueueHead FUEL s.waitQueueHead .null s.mem =
      .ok (unlinked s.mem s.waitQueueHead p pre) := by
    change unlinkLoop (s.core t).pid _ _ _ _ _ = _
    rw [unlinkLoop_eq hc (length_lt hc hndw).le hbefore hpid (fun _ => rfl) fun e => absurd rfl e]
    rcases List.eq_nil_or_concat' pre with rfl | ⟨pre, f, rfl⟩
    · rfl
    · have hf : f ≠ .null := hc.ne_null f (by simp)
      simp [unlinked, hf]
  set s₁ : Sched := { s with
    waitQueueHead := (unlinked s.mem s.waitQueueHead p pre).1
    mem := (unlinked s.mem s.waitQueueHead p pre).2 } with hs₁
  have hcore : s₁.core = s.core := coreOf_unlinked
  have hq₁ : Queued s₁ ⟨v.cur, v.ready, pre ++ post⟩ := by
    refine ⟨h.current, h.ready.congr fun a ha => ?_, chain_unlinked hc hndw, ?_⟩
    · refine congrArg Process.queueNext (unlinked_of_notMem fun hm => ?_)
      exact (List.nodup_append.1 hnd).2.2 a ha a (by simp [hm]) rfl
    · refine hnd.sublist (List.Sublist.append_left ?_ _)
      exact List.Sublist.append_left (List.sublist_cons_self p post) pre
  have ht₁ : t ∉ v.ready ∧ t ∉ pre ++ post := by
    simp only [List.mem_append, List.mem_cons, not_or] at ht ⊢
    exact ⟨ht.1, ht.2.1, ht.2.2.2⟩
  rw [Proc.scheduleParent, hloop, ok_bind]
  dsimp only
  split
  · obtain ⟨s₂, h₂, hm⟩ := hq₁.insertToReadyQueue ht₁.1 ht₁.2 hnull
    obtain ⟨q, rest, hq⟩ : ∃ q rest, v.ready ++ [t] = q :: rest := by
      cases v.ready <;> simp
    have hready : (coreOf s₂.mem q).status = .ready := by
      have hmem : q ∈ v.ready ++ [t] := hq ▸ List.mem_cons_self
      rw [hm.core]
      by_cases hqt : q = t
      · simp [hqt, withStatus]
      · rw [withStatus, Function.update_of_ne hqt]
        change (s₁.core q).status = _
        rw [hcore]
        refine hs q ?_
        rcases List.mem_append.1 hmem with hmem | hmem
        · exact hmem
        · exact absurd (List.mem_singleton.1 hmem) hqt
    obtain ⟨s₃, h₃, hm'⟩ := hm.queued.dispatch hq hready
    have he : (Proc.insertToReadyQueue t s₁ >>= Proc.dispatch) = .ok s₃ := by
      rw [h₂]
      exact h₃
    refine ⟨s₃, q, rest, he, hq, ?_⟩
    rw [hm.core] at hm'
    have := hm.trans hm'
    change Moves s₁ _ (withStatus (withStatus s₁.core t .ready) q .running) _ at this
    rw [hcore] at this
    exact ⟨this.queued, this.core, this.l, this.len, this.a0⟩
  · rename_i hnone
    have hr : v.ready = [] := Chain.eq_nil (not_not.1 hnone ▸ h.ready)
    have hw := hq₁.write (a := t) (x := { s₁.mem t with status := .running }) fun hm =>
      absurd hm (by simp only [List.mem_append, not_or] at ht₁ ⊢; exact ht₁)
    have hw₁ := hw.ready
    have hw₂ := hw.nodup
    rw [hr] at hw₁ hw₂
    refine ⟨_, t, [], rfl, by rw [hr]; rfl, ⟨rfl, hw₁, hw.wait, hw₂⟩, ?_, rfl, rfl, rfl⟩
    have := core_write s₁ t { s₁.mem t with status := .running }
    rw [hcore] at this
    refine Eq.trans this ?_
    rw [withStatus, withStatus, Function.update_self, Function.update_idem, ← hcore]
    rfl

/-! ### The branches of `schedule(1)` -/

/-- If nobody waits, `schedule(1)` is `schedule(0)`. -/
theorem schedule_of_wait_nil (hw : v.wait = []) : schedule 1 s = schedule 0 s := by
  have hnone : s.waitQueueHead = .null := Chain.nil_iff.1 (hw ▸ h.wait)
  simp only [schedule, hnone, ne_eq, not_true_eq_false, false_and, if_false]

theorem waitQueueHead_ne (hw : v.wait ≠ []) : s.waitQueueHead ≠ .null := fun e =>
  hw (Chain.eq_nil (e ▸ h.wait))

/-- If somebody waits and the parent does not, the dispatcher goes on without a look at the head of
the ready queue. -/
theorem schedule_of_noParent (hnull : v.cur ≠ .null) (hw : v.wait ≠ []) (hno : NoParent s.core v) :
    ∃ x, schedule 1 s = Proc.dispatch (s.write (.stack s.pid) x) := by
  have hcur : s.current ≠ .null := h.current ▸ hnull
  have hhead := h.waitQueueHead_ne hw
  rw [schedule, if_pos ⟨hhead, rfl⟩, Sched.deref, if_neg hcur, pure_eq_ok, ok_bind]
  by_cases hpar : (s.mem s.current).parent = .null
  · exact ⟨_, if_neg (not_not.2 hpar)⟩
  · have hpid : (s.core (s.core v.cur).parent).pid = (s.mem (s.mem s.current).parent).pid := by
      rw [h.current]
      rfl
    obtain ⟨rest, hrest, -⟩ := h.wait.exists_cons hhead
    have hlen := (length_lt h.wait (List.nodup_append.1 h.nodup).2.1).le
    have hno' : ∀ a ∈ s.waitQueueHead :: rest,
        (s.mem a).pid ≠ (s.mem (s.mem s.current).parent).pid := by
      rw [← hpid, ← hrest]
      exact hno.resolve_left (by rw [← h.current]; exact hpar)
    obtain ⟨t, ht⟩ := searchLoop_none (hrest ▸ h.wait) (hrest ▸ hlen) hno'
    rw [if_pos hpar, ht]
    exact ⟨t, rfl⟩

/-- If the parent waits, its structure is copied to the stack. -/
theorem schedule_of_parentAt (hnull : v.cur ≠ .null) (hp : ParentAt s.core v pre p post) :
    schedule 1 s = Proc.scheduleParent (.stack s.pid) (s.write (.stack s.pid) (s.mem p)) := by
  have hcur : s.current ≠ .null := h.current ▸ hnull
  have hhead := h.waitQueueHead_ne (by rw [hp.wait]; simp)
  have hpar : (s.mem s.current).parent ≠ .null := by
    rw [h.current]
    exact hp.parent
  have hpid : (s.core (s.core v.cur).parent).pid = (s.mem (s.mem s.current).parent).pid := by
    rw [h.current]
    rfl
  have hlen := (length_lt h.wait (List.nodup_append.1 h.nodup).2.1).le
  have hc := h.wait
  rw [hp.wait] at hc hlen
  rw [schedule, if_pos ⟨hhead, rfl⟩, Sched.deref, if_neg hcur, pure_eq_ok, ok_bind, if_pos hpar,
    searchLoop_some hc hlen (hpid ▸ hp.before) (hpid ▸ hp.pid)]
  rfl

omit h in
/-- The parent waits, unless there is none among the sleepers. -/
theorem exists_parentAt {c : Addr → Process} (hno : ¬ NoParent c v) :
    ∃ pre p post, ParentAt c v pre p post := by
  rw [NoParent, not_or] at hno
  obtain ⟨pre, p, post, hp, hbefore, hpid⟩ := exists_first hno.2
  exact ⟨pre, p, post, hno.1, hp, hbefore, hpid⟩

/-- The first of the ready queue goes on, or the copy if nobody is ready. -/
theorem wakes_parent (hp : ParentAt s.core v pre p post) (hnull : v.cur ≠ .null)
    (hstack : .stack s.pid ∉ v.ready ++ v.wait) (hs : ∀ a ∈ v.ready, (s.core a).status = .ready) :
    ∃ s' q rest, schedule 1 s = .ok s' ∧ v.ready ++ [.stack s.pid] = q :: rest ∧
      Moves s s' (withStatus (Function.update s.core (.stack s.pid)
        { s.core p with status := .ready }) q .running) ⟨q, rest, pre ++ post⟩ := by
  have hpm : p ∈ v.ready ++ v.wait := by
    rw [hp.wait]
    simp
  have hne : ∀ a ∈ v.ready ++ v.wait, a ≠ .stack s.pid := by
    rintro a ha rfl
    exact hstack ha
  have hcore := core_write s (.stack s.pid) (s.mem p)
  have hpid' : ((s.write (.stack s.pid) (s.mem p)).core p).pid =
      ((s.write (.stack s.pid) (s.mem p)).core (.stack s.pid)).pid := by
    rw [hcore, Function.update_of_ne (hne p hpm), Function.update_self]
    rfl
  have hbefore' : ∀ a ∈ pre, ((s.write (.stack s.pid) (s.mem p)).core a).pid ≠
      ((s.write (.stack s.pid) (s.mem p)).core (.stack s.pid)).pid := by
    intro a ha
    have ham : a ∈ v.ready ++ v.wait := by
      rw [hp.wait]
      simp [ha]
    rw [hcore, Function.update_of_ne (hne a ham), Function.update_self]
    exact fun e => hp.before a ha (e.trans hp.pid)
  have hready : ∀ a ∈ v.ready, ((s.write (.stack s.pid) (s.mem p)).core a).status = .ready := by
    intro a ha
    rw [hcore, Function.update_of_ne (hne a (List.mem_append_left _ ha))]
    exact hs a ha
  have hwrite : Queued (s.write (.stack s.pid) (s.mem p)) v := h.write fun hm => absurd hm hstack
  obtain ⟨s', q, rest, he, hq, hm⟩ :=
    hwrite.scheduleParent hp.wait hbefore' hpid' hstack nofun hready
  refine ⟨s', q, rest, (h.schedule_of_parentAt hnull hp).trans he, hq, ?_⟩
  have hst : withStatus (Function.update s.core (.stack s.pid) (s.mem p).core)
      (.stack s.pid) .ready =
      Function.update s.core (.stack s.pid) { s.core p with status := .ready } := by
    rw [withStatus, Function.update_self, Function.update_idem]
    rfl
  rw [hcore, hst] at hm
  exact ⟨hm.queued, hm.core, hm.l, hm.len, hm.a0⟩

/-- `schedule(1)`: the head of the ready queue goes on, after a copy of the parent was queued if it
slept. -/
theorem schedule_one (hnull : v.cur ≠ .null) (hstack : .stack s.pid ∉ v.ready ++ v.wait)
    (hs : ∀ a ∈ v.ready, (s.core a).status = .ready) (he : schedule 1 s = .ok s') :
    (∃ q rest c, NoParent s.core v ∧ v.ready = q :: rest ∧
      (∀ a, a ≠ .stack s.pid → c a = s.core a) ∧
      Moves s s' (withStatus c q .running) ⟨q, rest, v.wait⟩) ∨
    ∃ pre p post q rest, ParentAt s.core v pre p post ∧ v.ready ++ [.stack s.pid] = q :: rest ∧
      Moves s s' (withStatus (Function.update s.core (.stack s.pid)
        { s.core p with status := .ready }) q .running) ⟨q, rest, pre ++ post⟩ := by
  by_cases hno : NoParent s.core v
  · by_cases hw : v.wait = []
    · rw [h.schedule_of_wait_nil hw] at he
      obtain ⟨q, rest, hq, hm⟩ := h.schedule_zero hs he
      exact .inl ⟨q, rest, s.core, hno, hq, fun _ _ => rfl, hm⟩
    · -- the local variable is written though the parent is not found
      obtain ⟨x, hx⟩ := h.schedule_of_noParent hnull hw hno
      have hcore : ∀ a, a ≠ .stack s.pid → (s.write (.stack s.pid) x).core a = s.core a := by
        intro a ha
        rw [core_write, Function.update_of_ne ha]
      have hready : ∀ a ∈ v.ready, ((s.write (.stack s.pid) x).core a).status = .ready := by
        intro a ha
        rw [hcore a fun e => hstack (e ▸ List.mem_append_left _ ha)]
        exact hs a ha
      obtain ⟨q, rest, hq, hm⟩ :=
        (h.write fun hm => absurd hm hstack).dispatch_ok hready (hx ▸ he)
      exact .inl ⟨q, rest, _, hno, hq, hcore, hm.queued, hm.core, hm.l, hm.len, hm.a0⟩
  · obtain ⟨pre, p, post, hp⟩ := exists_parentAt hno
    obtain ⟨s₁, q, rest, h₁, hq, hm⟩ := h.wakes_parent hp hnull hstack hs
    obtain rfl := Except.ok.inj (he.symm.trans h₁)
    exact .inr ⟨pre, p, post, q, rest, hp, hq, hm⟩

end Queued

/-- What a trap does before and after the system call. -/
theorem exec_ok (h : Inv s v) (he : exec e s = .ok s') :
    ∃ r s₁, handle e { s with a0 := s.saved e } = .ok (r, s₁) ∧
      s' = match r with
        | none => s₁
        | some r => { s₁ with a0 := Function.update s₁.a0 s.pid r } := by
  have hnull : s.current ≠ .null := h.queued.current ▸ h.ok.cur_ne
  rw [exec, if_neg hnull] at he
  dsimp only at he
  obtain ⟨⟨r, s₁⟩, hh, he⟩ := (bind_ok_iff _ _ _).1 he
  refine ⟨r, s₁, hh, ?_⟩
  cases r with
  | none => exact (Except.ok.inj he).symm
  | some r => exact (Except.ok.inj he).symm

section Calls

variable (h : Inv s v)

include h

theorem Inv.pid_eq : s.pid = (s.core v.cur).pid := by
  rw [Sched.pid, h.queued.current]
  rfl

theorem Inv.notMem_of_free (hi : (s.core (.procs i)).status = .free) : .procs i ∉ v.places := by
  intro hm
  have := (h.ok.live _ hm).1
  rw [h.ok.pid] at this
  exact this hi

/-- The state at the start of the system call. -/
theorem Inv.trapped (f : Fin NPROC → ℤ) : Inv { s with a0 := f } v := ⟨h.queued.trapped f, h.ok⟩

theorem doFork_ok {r : ℤ} (he : doFork s.current s = .ok (r, s')) :
    ∃ i : Fin NPROC, (s.core (.procs i)).status = .free ∧ r = i ∧
      Effect s' ⟨v.cur, v.ready ++ [.procs i], v.wait⟩
        (Function.update s.core (.procs i)
          { s.core (.procs i) with status := .ready, parent := v.cur })
        s.l s.len (Function.update s.a0 i 0) := by
  obtain ⟨⟨i, s₁⟩, ha, he⟩ := (bind_ok_iff _ _ _).1 he
  obtain ⟨s₂, hi, he⟩ := (bind_ok_iff _ _ _).1 he
  obtain ⟨hr, rfl⟩ := Prod.mk.inj (Except.ok.inj he)
  rw [allocProcess] at ha
  split at ha
  · cases ha
  rename_i j hj
  obtain ⟨rfl, rfl⟩ := Prod.mk.inj (Except.ok.inj ha)
  have hfind := List.find?_some hj
  have hfree : (s.core (.procs j)).status = .free := of_decide_eq_true hfind
  have hq : .procs j ∉ v.ready ++ v.wait := fun hm =>
    h.notMem_of_free hfree (List.mem_cons_of_mem _ hm)
  set x : Process := { s.mem (.procs j) with status := .ready, parent := s.current } with hx
  have hi' : insertToReadyQueue (.procs j)
      ({ s with a0 := Function.update s.a0 j 0 }.write (.procs j) x) = .ok s₂ := by
    simpa [Sched.write, hx] using hi
  have hq₁ := (h.trapped (Function.update s.a0 j 0)).queued.write (a := .procs j) (x := x)
    fun hm => absurd hm hq
  obtain ⟨s₃, hi₃, hm⟩ := hq₁.insertToReadyQueue (fun hm => hq (List.mem_append_left _ hm))
    (fun hm => hq (List.mem_append_right _ hm)) (by simp)
  obtain rfl := Except.ok.inj (hi₃.symm.trans hi')
  have hcore : s₃.core = Function.update s.core (.procs j)
      { s.core (.procs j) with status := .ready, parent := v.cur } := by
    have hw := core_write { s with a0 := Function.update s.a0 j 0 } (.procs j) x
    have hm' : s₃.core = withStatus _ _ _ := hm.core
    rw [hm']
    change withStatus (Sched.core _) _ _ = _
    rw [hw, withStatus, Function.update_self, Function.update_idem, hx, h.queued.current]
    rfl
  refine ⟨j, hfree, ?_, hm.queued, hcore, hm.l, hm.len, hm.a0⟩
  have hpid : (s₃.core (.procs j)).pid = j := by
    rw [hcore, Function.update_self]
    exact h.ok.pid j
  rw [← hr]
  exact congrArg (fun i : Fin NPROC => (i : ℤ)) hpid

/-- A store to the structure of the running process. -/
theorem Inv.write_cur (x : Process) : Queued (s.write v.cur x) v ∧
    ∀ a ∈ v.ready, ((s.write v.cur x).core a).status = .ready := by
  have hcur := h.ok.cur_notMem
  have hnot : v.cur ∉ v.ready ++ v.wait := by simpa using hcur
  refine ⟨h.queued.write fun hm => absurd hm hnot, fun a ha => ?_⟩
  have hne : a ≠ v.cur := fun e => hcur.1 (e ▸ ha)
  rw [core_write, Function.update_of_ne hne]
  exact h.ok.isReady a ha

theorem rrsched_ok (he : rrsched s = .ok s') :
    (∃ q rest, (s.core v.cur).tickCount + 1 ≥ 2 ∧ v.ready ++ [v.cur] = q :: rest ∧
      Moves s s' (withStatus (withStatus
        (Function.update s.core v.cur { s.core v.cur with tickCount := 0 }) v.cur
          .ready) q .running)
        ⟨q, rest, v.wait⟩) ∨
    ((s.core v.cur).tickCount + 1 < 2 ∧ Moves s s' (Function.update s.core v.cur
      { s.core v.cur with tickCount := (s.core v.cur).tickCount + 1 }) v) := by
  rw [rrsched, h.queued.current] at he
  dsimp only at he
  split at he
  · rename_i hover
    obtain ⟨hq, hs⟩ := h.write_cur { s.mem v.cur with tickCount := 0 }
    obtain ⟨q, rest, hn, hm⟩ := hq.rotate h.ok.cur_notMem h.ok.cur_ne hs he
    rw [core_write] at hm
    exact .inl ⟨q, rest, hover, hn, hm.queued, hm.core, hm.l, hm.len, hm.a0⟩
  · rename_i hover
    obtain rfl := Except.ok.inj he
    exact .inr ⟨not_le.1 hover, (h.write_cur _).1, core_write _ _ _, rfl, rfl, rfl⟩

theorem sleep_ok (he : sleep s = .ok s') : ∃ q rest, v.ready = q :: rest ∧
    Moves s s' (withStatus (withStatus s.core v.cur .blocked) q .running)
      ⟨q, rest, v.wait ++ [v.cur]⟩ :=
  h.queued.sleep h.ok.cur_notMem h.ok.cur_ne h.ok.isReady he

theorem processWait_ok {pid : ℤ} {r : Option ℤ} (he : processWait pid s = .ok (r, s')) :
    (∃ n, r = some n ∧ WaitResult s pid n ∧ s' = s) ∨
      ∃ i q rest, r = none ∧ waitedChild pid s = some i ∧
        (s.core (.procs i)).status ≠ .zombie ∧ v.ready = q :: rest ∧
        Moves s s' (withStatus (withStatus s.core v.cur .blocked) q .running)
          ⟨q, rest, v.wait ++ [v.cur]⟩ := by
  rw [processWait] at he
  split at he
  · rename_i hnone
    obtain ⟨rfl, rfl⟩ := Prod.mk.inj (Except.ok.inj he)
    exact .inl ⟨-1, rfl, .none hnone, rfl⟩
  · rename_i i hi
    split at he
    · rename_i hz
      obtain ⟨rfl, rfl⟩ := Prod.mk.inj (Except.ok.inj he)
      refine .inl ⟨_, rfl, ?_, rfl⟩
      have hpid : (s.mem (.procs i)).pid = i := h.ok.pid i
      rw [hpid]
      exact .zombie hi hz
    · rename_i hz
      obtain ⟨s₁, hs, he⟩ := (bind_ok_iff _ _ _).1 he
      obtain ⟨rfl, rfl⟩ := Prod.mk.inj (Except.ok.inj he)
      obtain ⟨q, rest, hq, hm⟩ := sleep_ok h hs
      exact .inr ⟨i, q, rest, rfl, hi, hz, hq, hm⟩

theorem sysUserSemP_ok {r : Option ℤ} (he : sysUserSemP a1 s = .ok (r, s')) :
    (r = some 1 ∧ 0 ≤ s.l a1 - 1 ∧
      s' = { s with l := Function.update s.l a1 (s.l a1 - 1) }) ∨
    ∃ q rest, r = none ∧ s.l a1 - 1 < 0 ∧ v.ready = q :: rest ∧
      Effect s' ⟨q, rest, v.wait ++ [v.cur]⟩ (withStatus (withStatus
        (Function.update s.core v.cur { s.core v.cur with sem := a1 }) v.cur .blocked) q .running)
        (Function.update s.l a1 (s.l a1 - 1)) s.len s.a0 := by
  obtain ⟨-, -, he⟩ := (bind_ok_iff _ _ _).1 he
  obtain ⟨-, -, he⟩ := (bind_ok_iff _ _ _).1 he
  dsimp only at he
  split at he
  · rename_i hl
    obtain ⟨rfl, rfl⟩ := Prod.mk.inj (Except.ok.inj he)
    exact .inl ⟨rfl, hl, rfl⟩
  · rename_i hl
    obtain ⟨s₁, hs, he⟩ := (bind_ok_iff _ _ _).1 he
    obtain ⟨rfl, rfl⟩ := Prod.mk.inj (Except.ok.inj he)
    have hcur := h.ok.cur_notMem
    have hnot : v.cur ∉ v.ready ++ v.wait := by simpa using hcur
    set s₀ : Sched := { s with l := Function.update s.l a1 (s.l a1 - 1) } with hs₀
    have hq₀ : Queued s₀ v := h.queued.trapped _
    rw [h.queued.current] at hs
    have hq := hq₀.write (a := v.cur) (x := { s.mem v.cur with sem := a1 })
      fun hm => absurd hm hnot
    have hcore := core_write s₀ v.cur { s.mem v.cur with sem := a1 }
    have hready : ∀ a ∈ v.ready,
        ((s₀.write v.cur { s.mem v.cur with sem := a1 }).core a).status = .ready := by
      intro a ha
      have hne : a ≠ v.cur := fun e => hcur.1 (e ▸ ha)
      rw [hcore, Function.update_of_ne hne]
      exact h.ok.isReady a ha
    obtain ⟨q, rest, hn, hm⟩ := hq.sleep hcur h.ok.cur_ne hready hs
    rw [hcore] at hm
    exact .inr ⟨q, rest, rfl, not_le.1 hl, hn, hm.queued, hm.core, hm.l, hm.len, hm.a0⟩

theorem sysUserSemV_ok {r : ℤ} (he : sysUserSemV a1 s = .ok (r, s')) : r = 1 ∧
    (((0 ≤ s.l a1 + 1 → ∀ a ∈ v.wait, (s.core a).sem ≠ a1) ∧
      s' = { s with l := Function.update s.l a1 (s.l a1 + 1) }) ∨
    ∃ pre p post, 0 ≤ s.l a1 + 1 ∧ v.wait = pre ++ p :: post ∧
      (∀ a ∈ pre, (s.core a).sem ≠ a1) ∧ (s.core p).sem = a1 ∧
      Effect s' ⟨v.cur, p :: v.ready, pre ++ post⟩ (withStatus s.core p .ready)
        (Function.update s.l a1 (s.l a1 + 1)) s.len s.a0) := by
  obtain ⟨-, -, he⟩ := (bind_ok_iff _ _ _).1 he
  obtain ⟨-, -, he⟩ := (bind_ok_iff _ _ _).1 he
  obtain ⟨s₁, hs, he⟩ := (bind_ok_iff _ _ _).1 he
  obtain ⟨rfl, rfl⟩ := Prod.mk.inj (Except.ok.inj he)
  refine ⟨rfl, ?_⟩
  set s₀ : Sched := { s with l := Function.update s.l a1 (s.l a1 + 1) } with hs₀
  have hq₀ : Queued s₀ v := h.queued.trapped _
  have hl : s₀.l a1 = s.l a1 + 1 := Function.update_self _ _ _
  by_cases hno : 0 ≤ s.l a1 + 1 → ∀ a ∈ v.wait, (s.core a).sem ≠ a1
  · rw [hq₀.wakeWaitQueue_none (hl ▸ hno)] at hs
    exact .inl ⟨hno, (Except.ok.inj hs).symm⟩
  · obtain ⟨hpos, hex⟩ := Classical.not_imp.1 hno
    obtain ⟨pre, p, post, hp, hbefore, hsem⟩ := exists_first hex
    obtain ⟨s₂, hw, hm⟩ := hq₀.wakeWaitQueue_some hp hbefore hsem (hl ▸ hpos)
    obtain rfl := Except.ok.inj (hs.symm.trans hw)
    exact .inr ⟨pre, p, post, hpos, hp, hbefore, hsem, hm.queued, hm.core, hm.l, hm.len, hm.a0⟩

theorem freeProcess_mem (a : Addr) : (freeProcess v.cur s).mem a =
    if a = v.cur ∨ a = .procs (s.mem v.cur).pid then { s.mem a with status := .zombie }
    else s.mem a := by
  have hpid : ∀ i, (s.mem (.procs i)).pid = i := h.ok.pid
  unfold freeProcess
  by_cases ha : a = v.cur
  · subst ha
    rw [if_pos (.inl rfl)]
    dsimp only
    rw [Function.update_self]
    split
    · rename_i i hi
      rw [hi]
      split <;> rfl
    · rfl
  · dsimp only
    rw [Function.update_of_ne ha]
    split
    · rename_i i
      rw [hpid]
      by_cases hi : i = (s.mem v.cur).pid
      · rw [if_pos hi, if_pos (.inr (congrArg Addr.procs hi))]
      · rw [if_neg hi, if_neg (not_or.2 ⟨ha, fun e => hi (Addr.procs.inj e)⟩)]
    · rename_i hnot
      rw [if_neg (not_or.2 ⟨ha, hnot _⟩)]

theorem freeProcess_core : (freeProcess v.cur s).core = zombied s.core v.cur := by
  funext a
  rw [zombied_apply, Sched.core, coreOf, freeProcess_mem h]
  change (if a = v.cur ∨ a = .procs (s.core v.cur).pid then _ else _ : Process).core = _
  split <;> rfl

theorem freeProcess_queued : Queued (freeProcess v.cur s) v := by
  have hnext : ∀ a, nextOf (freeProcess v.cur s).mem a = nextOf s.mem a := by
    intro a
    rw [nextOf, freeProcess_mem h]
    split <;> rfl
  exact ⟨h.queued.current, h.queued.ready.congr fun a _ => hnext a,
    h.queued.wait.congr fun a _ => hnext a, h.queued.nodup⟩

theorem freeProcess_pid : (freeProcess v.cur s).pid = s.pid := by
  change ((freeProcess v.cur s).core (freeProcess v.cur s).current).pid = (s.core s.current).pid
  rw [freeProcess_core h, zombied_pid]
  rfl

/-- The stack of the process that exits is not in use. -/
theorem freeProcess_stack : .stack (freeProcess v.cur s).pid ∉ v.ready ++ v.wait := by
  rw [freeProcess_pid h, h.pid_eq]
  exact fun hm => h.ok.stack_notMem List.mem_cons_self (List.mem_cons_of_mem _ hm)

theorem freeProcess_isReady : ∀ a ∈ v.ready, ((freeProcess v.cur s).core a).status = .ready := by
  intro a ha
  rw [freeProcess_core h, h.ok.zombied_eq (List.mem_append_left _ ha)]
  exact h.ok.isReady a ha

theorem sysUserExit_ok (he : sysUserExit s = .ok s') :
    (∃ q rest c, NoParent s.core v ∧ v.ready = q :: rest ∧
      (∀ a, a ≠ .stack s.pid → c a = zombied s.core v.cur a) ∧
      Moves s s' (withStatus c q .running) ⟨q, rest, v.wait⟩) ∨
    ∃ pre p post q rest, ParentAt s.core v pre p post ∧ v.ready ++ [.stack s.pid] = q :: rest ∧
      Moves s s' (withStatus (Function.update (zombied s.core v.cur) (.stack s.pid)
        { s.core p with status := .ready }) q .running) ⟨q, rest, pre ++ post⟩ := by
  rw [sysUserExit, h.queued.current] at he
  have hcore := freeProcess_core h
  have hpid := freeProcess_pid h
  rcases (freeProcess_queued h).schedule_one h.ok.cur_ne (freeProcess_stack h)
      (freeProcess_isReady h) he with
    ⟨q, rest, c, hno, hq, hc, hm⟩ | ⟨pre, p, post, q, rest, hp, hq, hm⟩
  · rw [hcore] at hno hc
    rw [hpid] at hc
    refine .inl ⟨q, rest, c, ?_, hq, hc, hm.queued, hm.core, hm.l, hm.len, hm.a0⟩
    simpa [NoParent] using hno
  · rw [hcore] at hp hm
    rw [hpid] at hq hm
    have hpm : p ∈ v.ready ++ v.wait := by
      rw [hp.wait]
      simp
    rw [h.ok.zombied_eq hpm] at hm
    refine .inr ⟨pre, p, post, q, rest, ?_, hq, hm.queued, hm.core, hm.l, hm.len, hm.a0⟩
    exact ⟨by simpa using hp.parent, hp.wait, by simpa using hp.before, by simpa using hp.pid⟩

end Calls

/-- **Every event that returns is a step.** -/
theorem exec_step (h : Inv s v) (he : exec e s = .ok s') : ∃ v', Step s v e s' v' := by
  obtain ⟨r, s₁, hh, rfl⟩ := exec_ok h he
  have h₀ := h.trapped (s.saved e)
  have hret : ∀ n : ℤ, Function.update (s.saved e) s.pid n = Function.update s.a0 s.pid n :=
    fun n => Function.update_idem _ _ _
  cases e with
  | fork =>
    obtain ⟨⟨n, s₂⟩, hf, hr⟩ := (bind_ok_iff _ _ _).1 hh
    obtain ⟨rfl, rfl⟩ := Prod.mk.inj (Except.ok.inj hr)
    obtain ⟨i, hfree, rfl, heff⟩ := doFork_ok h₀ hf
    have ha0 : Function.update s₂.a0 s.pid (i : ℤ) =
        Function.update (Function.update s.a0 i 0) s.pid i := by
      rw [heff.a0]
      funext j
      by_cases hj : j = s.pid
      · rw [hj, Function.update_self, Function.update_self]
      · rw [Function.update_of_ne hj, Function.update_of_ne hj]
        by_cases hji : j = i
        · rw [hji, Function.update_self, Function.update_self]
        · rw [Function.update_of_ne hji, Function.update_of_ne hji]
          exact Function.update_of_ne hj _ _
    exact ⟨_, .fork hfree ⟨heff.queued.trapped _, heff.core, heff.l, heff.len, ha0⟩⟩
  | yield =>
    obtain ⟨s₂, hf, hr⟩ := (bind_ok_iff _ _ _).1 hh
    obtain ⟨rfl, rfl⟩ := Prod.mk.inj (Except.ok.inj hr)
    obtain ⟨q, rest, hn, hm⟩ := h₀.queued.rotate h.ok.cur_notMem h.ok.cur_ne h.ok.isReady hf
    exact ⟨_, .rotate .yield hn ⟨hm.queued, hm.core, hm.l, hm.len, hm.a0⟩⟩
  | tick a0 =>
    obtain ⟨s₂, hf, hr⟩ := (bind_ok_iff _ _ _).1 hh
    obtain ⟨rfl, rfl⟩ := Prod.mk.inj (Except.ok.inj hr)
    rcases rrsched_ok h₀ hf with ⟨q, rest, hover, hn, hm⟩ | ⟨hslice, hm⟩
    · exact ⟨_, .rotate (.tick hover) hn ⟨hm.queued, hm.core, hm.l, hm.len, hm.a0⟩⟩
    · exact ⟨_, .tick hslice ⟨hm.queued, hm.core, hm.l, hm.len, hm.a0⟩⟩
  | wait pid =>
    rcases processWait_ok h₀ hh with ⟨n, rfl, hres, rfl⟩ | ⟨i, q, rest, rfl, hi, hz, hn, hm⟩
    · have hres' : WaitResult s pid n := by
        cases hres with
        | none hc => exact .none hc
        | zombie hc hz => exact .zombie hc hz
      exact ⟨_, .wait hres' ⟨h.queued.trapped _, rfl, rfl, rfl, hret n⟩⟩
    · exact ⟨_, .sleep (.wait hi hz) hn ⟨hm.queued, hm.core, hm.l, hm.len, hm.a0⟩⟩
  | exit =>
    obtain ⟨s₂, hf, hr⟩ := (bind_ok_iff _ _ _).1 hh
    obtain ⟨rfl, rfl⟩ := Prod.mk.inj (Except.ok.inj hr)
    rcases sysUserExit_ok h₀ hf with
      ⟨q, rest, c, hno, hn, hc, hm⟩ | ⟨pre, p, post, q, rest, hp, hn, hm⟩
    · exact ⟨_, .exit hno hn hc ⟨hm.queued, hm.core, hm.l, hm.len, hm.a0⟩⟩
    · exact ⟨_, .wakeParent hp hn ⟨hm.queued, hm.core, hm.l, hm.len, hm.a0⟩⟩
  | semNew a1 =>
    obtain ⟨⟨n, s₂⟩, hf, hr⟩ := (bind_ok_iff _ _ _).1 hh
    obtain ⟨rfl, rfl⟩ := Prod.mk.inj (Except.ok.inj hr)
    obtain ⟨u, hc, hf⟩ := (bind_ok_iff _ _ _).1 hf
    obtain ⟨rfl, rfl⟩ := Prod.mk.inj (Except.ok.inj hf)
    unfold semCheck at hc
    split at hc
    · rename_i hlt
      exact ⟨_, .semNew hlt.2 ⟨h.queued.trapped _, rfl, rfl, rfl, hret _⟩⟩
    · cases hc
  | semP a1 =>
    rcases sysUserSemP_ok h₀ hh with ⟨rfl, hl, rfl⟩ | ⟨q, rest, rfl, hl, hn, heff⟩
    · exact ⟨_, .semP hl ⟨h.queued.trapped _, rfl, rfl, rfl, hret 1⟩⟩
    · exact ⟨_, .sleep (.semP hl) hn heff⟩
  | semV a1 =>
    obtain ⟨⟨n, s₂⟩, hf, hr⟩ := (bind_ok_iff _ _ _).1 hh
    obtain ⟨rfl, rfl⟩ := Prod.mk.inj (Except.ok.inj hr)
    obtain ⟨rfl, hv⟩ := sysUserSemV_ok h₀ hf
    rcases hv with ⟨hno, rfl⟩ | ⟨pre, p, post, hl, hw, hbefore, hsem, heff⟩
    · exact ⟨_, .semV hno ⟨h.queued.trapped _, rfl, rfl, rfl, hret 1⟩⟩
    · refine ⟨_, .wake hl hw hbefore hsem ⟨heff.queued.trapped _, heff.core, heff.l, heff.len, ?_⟩⟩
      rw [heff.a0]
      exact hret 1

end HustOS.Proc
