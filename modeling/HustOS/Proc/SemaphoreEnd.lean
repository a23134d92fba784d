import HustOS.Proc.Discipline
import HustOS.Proc.Dispatch
import HustOS.Proc.SemaphoreRun

/-!
# The end of the three processes

The running process can always go on, and a timer interrupt never fails (`progress`): a process does
not go to sleep and does not exit with nobody ready, for then the others would wait for each other,
and their semaphores count that one of them has been given its turn. The one exception is the exit
of the last process, behind which the machine shuts down.
-/

namespace HustOS.Proc

open Foundations

variable {s s' : Sched} {v v' : View} {e : Event} {i : Fin NPROC} {a1 : ℤ}

/-! ## Events that return -/

/-- The dispatcher finds a process. -/
theorem Queued.schedule_returns (h : Queued s v) (hs : ∀ a ∈ v.ready, (s.core a).status = .ready)
    (hr : v.ready ≠ []) : ∃ s', schedule 0 s = .ok s' := by
  obtain ⟨q, rest, hq⟩ := List.exists_cons_of_ne_nil hr
  have hhead : s.readyQueueHead ≠ .null := by
    have hready := h.ready
    rw [hq] at hready
    exact hready.1 ▸ hready.2.1
  obtain ⟨s', hd, -⟩ := h.dispatch hq (hs q (hq ▸ List.mem_cons_self))
  refine ⟨s', ?_⟩
  rw [schedule, if_neg (by simp), if_neg hhead, hd]

namespace Inv

variable (h : Inv s v)

include h

theorem exec_returns (hh : ∃ r, handle e { s with a0 := s.saved e } = .ok r) :
    ∃ s', exec e s = .ok s' := by
  obtain ⟨⟨r, s₁⟩, hr⟩ := hh
  have hnull : s.current ≠ .null := h.queued.current ▸ h.ok.cur_ne
  rw [exec, if_neg hnull]
  change ∃ s', (handle e { s with a0 := s.saved e } >>= _) = .ok s'
  rw [hr]
  cases r with
  | none => exact ⟨_, rfl⟩
  | some r => exact ⟨_, rfl⟩

theorem semNew_returns (hlen : 0 ≤ s.len + 1 ∧ s.len + 1 < NSEM) :
    ∃ s', exec (.semNew a1) s = .ok s' := by
  have hc : semCheck (s.len + 1) = .ok () := if_pos hlen
  refine h.exec_returns ⟨(some (s.len + 1), { s with
    a0 := s.saved (.semNew a1)
    len := s.len + 1
    l := Function.update s.l (s.len + 1) a1 }), ?_⟩
  change ((semCheck (s.len + 1) >>= _) >>= _) = _
  rw [hc]
  rfl

theorem doFork_returns (hfree : (s.core (.procs i)).status = .free) :
    ∃ r, doFork s.current s = .ok r := by
  obtain ⟨j, hj⟩ : ∃ j, (List.finRange NPROC).find?
      (fun i => (s.mem (.procs i)).status = .free) = some j := by
    rw [← Option.isSome_iff_exists, List.find?_isSome]
    exact ⟨i, List.mem_finRange i, decide_eq_true hfree⟩
  have hfree' : (s.core (.procs j)).status = .free := by
    have hfound := List.find?_some hj
    exact of_decide_eq_true hfound
  have hnot : .procs j ∉ v.ready ++ v.wait := fun hm =>
    h.notMem_of_free hfree' (List.mem_cons_of_mem _ hm)
  have hq := (h.trapped (Function.update s.a0 j 0)).queued.write (a := .procs j)
    (x := { s.mem (.procs j) with status := .ready, parent := s.current }) fun hm => absurd hm hnot
  obtain ⟨s₁, h₁, -⟩ := hq.insertToReadyQueue (fun hm => hnot (List.mem_append_left _ hm))
    (fun hm => hnot (List.mem_append_right _ hm)) (by simp)
  have halloc : allocProcess s = .ok (j,
      { s.write (.procs j) { s.mem (.procs j) with status := .used } with
        a0 := Function.update s.a0 j 0 }) := by
    rw [allocProcess, hj]
    rfl
  refine ⟨((s₁.mem (.procs j)).pid, s₁), ?_⟩
  rw [doFork, halloc, ok_bind]
  dsimp only
  have he : insertToReadyQueue (.procs j)
      (({ s.write (.procs j) { s.mem (.procs j) with status := .used } with
        a0 := Function.update (Function.update s.a0 j 0) j 0 } : Sched).write (.procs j)
        { (s.write (.procs j) { s.mem (.procs j) with status := .used }).mem (.procs j) with
          status := .ready, parent := s.current }) = .ok s₁ := by
    rw [← h₁]
    simp [Sched.write]
  rw [he]
  rfl

theorem fork_returns (hfree : (s.core (.procs i)).status = .free) :
    ∃ s', exec .fork s = .ok s' := by
  obtain ⟨r, hr⟩ := (h.trapped (s.saved .fork)).doFork_returns hfree
  refine h.exec_returns ⟨(some r.1, r.2), ?_⟩
  rw [handle]
  change (doFork s.current { s with a0 := s.saved .fork } >>= _) = _
  rw [hr]
  rfl

theorem semV_returns (hindex : 0 ≤ a1 ∧ a1 < NSEM)
    (hrange : -2 ^ 31 ≤ s.l a1 + 1 ∧ s.l a1 + 1 < 2 ^ 31) : ∃ s', exec (.semV a1) s = .ok s' := by
  have hc : semCheck a1 = .ok () := if_pos hindex
  have hr : intCheck (s.l a1 + 1) = .ok () := if_pos hrange
  have hq : Queued { s with
      a0 := s.saved (.semV a1), l := Function.update s.l a1 (s.l a1 + 1) } v := h.queued.trapped _
  obtain ⟨s₁, h₁⟩ : ∃ s₁, wakeWaitQueue a1 { s with
      a0 := s.saved (.semV a1), l := Function.update s.l a1 (s.l a1 + 1) } = .ok s₁ := by
    by_cases hno : 0 ≤ Function.update s.l a1 (s.l a1 + 1) a1 → ∀ a ∈ v.wait, (s.core a).sem ≠ a1
    · exact ⟨_, hq.wakeWaitQueue_none hno⟩
    · obtain ⟨hpos, hex⟩ := Classical.not_imp.1 hno
      obtain ⟨pre, p, post, hp, hbefore, hsem⟩ := exists_first hex
      obtain ⟨s₂, hw, -⟩ := hq.wakeWaitQueue_some hp hbefore hsem hpos
      exact ⟨s₂, hw⟩
  refine h.exec_returns ⟨(some 1, s₁), ?_⟩
  change ((semCheck a1 >>= fun _ => intCheck (s.l a1 + 1) >>= _) >>= _) = _
  rw [hc, ok_bind, hr, ok_bind]
  rw [h₁]
  rfl

/-- `sem_P` returns at once, or somebody else can run. -/
theorem semP_returns (hindex : 0 ≤ a1 ∧ a1 < NSEM)
    (hrange : -2 ^ 31 ≤ s.l a1 - 1 ∧ s.l a1 - 1 < 2 ^ 31)
    (hready : s.l a1 - 1 < 0 → v.ready ≠ []) : ∃ s', exec (.semP a1) s = .ok s' := by
  have hc : semCheck a1 = .ok () := if_pos hindex
  have hr : intCheck (s.l a1 - 1) = .ok () := if_pos hrange
  by_cases hhigh : s.l a1 - 1 ≥ 0
  · refine h.exec_returns ⟨(some 1, { s with
      a0 := s.saved (.semP a1)
      l := Function.update s.l a1 (s.l a1 - 1) }), ?_⟩
    change (semCheck a1 >>= fun _ => intCheck (s.l a1 - 1) >>= _) = _
    rw [hc, ok_bind, hr, ok_bind]
    exact if_pos hhigh
  · have hInv : Inv { s with
        a0 := s.saved (.semP a1), l := Function.update s.l a1 (s.l a1 - 1) } v :=
      ⟨h.queued.trapped _, h.ok⟩
    obtain ⟨hq, hs⟩ := hInv.write_cur { s.mem s.current with sem := a1 }
    rw [← h.queued.current] at hq hs
    obtain ⟨s₁, h₁, hm, hs₁⟩ := hq.block h.ok.cur_notMem h.ok.cur_ne hs
    obtain ⟨s₂, h₂⟩ := hm.queued.schedule_returns hs₁ (hready (not_le.1 hhigh))
    have hcall : CallsSchedule { s with a0 := s.saved (.semP a1) } (.semP a1) 0 s₁ :=
      .semP hc hr hhigh h₁
    refine h.exec_returns ⟨(none, s₂), ?_⟩
    rw [hcall.handle, h₂]
    rfl

theorem sysUserExit_returns (hno : NoParent s.core v) (hready : v.ready ≠ []) :
    ∃ s', sysUserExit s = .ok s' := by
  have hcall : AtCall 1 (freeProcess v.cur s) v :=
    ⟨.inr rfl, freeProcess_queued h, freeProcess_isReady h, fun _ => h.ok.cur_ne,
      fun _ => freeProcess_stack h⟩
  rw [sysUserExit, h.queued.current]
  by_cases hw : v.wait = []
  · rw [hcall.queued.schedule_of_wait_nil hw]
    exact hcall.queued.schedule_returns hcall.isReady hready
  · have hno' : NoParent (freeProcess v.cur s).core v := by
      rw [freeProcess_core h]
      simpa [NoParent] using hno
    rcases hcall.exit_noParent hw hno' with ⟨s', -, -, he, -⟩ | ⟨hr, -⟩
    · exact ⟨s', he⟩
    · exact absurd hr hready

/-- The exit of a process whose parent does not sleep, with somebody else to run. -/
theorem exit_returns (hno : NoParent s.core v) (hready : v.ready ≠ []) :
    ∃ s', exec .exit s = .ok s' := by
  obtain ⟨s', hs'⟩ := (h.trapped (s.saved .exit)).sysUserExit_returns hno hready
  refine h.exec_returns ⟨(none, s'), ?_⟩
  rw [handle, hs']
  rfl

theorem sysUserExit_shutdown (hready : v.ready = []) (hwait : v.wait = [])
    (hothers : ∀ i, i ≠ s.pid →
      (s.core (.procs i)).status = .free ∨ (s.core (.procs i)).status = .zombie) :
    sysUserExit s = .error (.shutdown 0) := by
  have hq := freeProcess_queued h
  have hidle : ∀ i, ((freeProcess v.cur s).mem (.procs i)).status = .free ∨
      ((freeProcess v.cur s).mem (.procs i)).status = .zombie := by
    intro i
    rw [freeProcess_mem h]
    by_cases hi : Addr.procs i = v.cur ∨ Addr.procs i = .procs (s.mem v.cur).pid
    · rw [if_pos hi]
      exact .inr rfl
    · rw [if_neg hi]
      refine hothers i fun e => hi (.inr ?_)
      rw [e, h.pid_eq]
      rfl
  have hhead : (freeProcess v.cur s).readyQueueHead = .null :=
    Chain.nil_iff.1 (hready ▸ hq.ready)
  rw [sysUserExit, h.queued.current, hq.schedule_of_wait_nil hwait, schedule, if_neg (by simp),
    if_pos hhead, if_pos hidle]
  rfl

/-- The exit of the last process. -/
theorem exit_shutdown (hready : v.ready = []) (hwait : v.wait = [])
    (hothers : ∀ i, i ≠ s.pid →
      (s.core (.procs i)).status = .free ∨ (s.core (.procs i)).status = .zombie) :
    exec .exit s = .error (.shutdown 0) := by
  rw [exec_error_iff (h.queued.current ▸ h.ok.cur_ne), handle,
    (h.trapped (s.saved .exit)).sysUserExit_shutdown hready hwait hothers]
  rfl

/-- A timer interrupt. -/
theorem tick_returns (a0 : ℤ) : ∃ s', exec (.tick a0) s = .ok s' := by
  by_cases hover : (s.mem s.current).tickCount + 1 ≥ 2
  · exact h.exec_total (e := .tick a0) (by rw [scheduleCalls, if_pos hover])
  · refine h.exec_returns ⟨(none, { s with a0 := s.saved (.tick a0) }.write s.current
      { s.mem s.current with tickCount := (s.mem s.current).tickCount + 1 }), ?_⟩
    change (rrsched { s with a0 := s.saved (.tick a0) } >>= _) = _
    rw [rrsched]
    dsimp only
    rw [if_neg hover]
    rfl

end Inv

namespace SemaphoreApp

variable {role : ℕ → Fin NPROC} {n j k : ℕ} {x x' : App} {u : User} {r : ℤ} {child : Bool}

/-! ## Nobody waits in vain -/

/-- A process in its loop or at its end knows how many were made. -/
theorem Place.kind (h : Place k n r u) (hsite : u.site = .semP child ∨ u.site = .exit) :
    k = 0 ∧ 2 ≤ n ∨ (k = 1 ∨ k = 2) ∧ n = 3 := by
  unfold Place at h
  rcases hsite with hsite | hsite
  · simp only [hsite] at h
    exact h.2.kind
  · simpa only [hsite] using h

/-- A process that is at its end or asleep. -/
def Stuck (x : App) (v : View) (role : ℕ → Fin NPROC) (j : ℕ) : Prop :=
  (x.user (role j)).Ended ∨ .procs (role j) ∈ v.wait

namespace Ring

variable (h : Ring x v role n)

include h

/-- Somebody else is ready, or all the others are stuck. -/
theorem ready_or (hv : v.cur = .procs (role k)) (hk : k < n) :
    v.ready ≠ [] ∨ ∀ j < n, j ≠ k → Stuck x v role j := by
  refine or_iff_not_imp_left.2 fun hready j hj hjk => ?_
  by_contra hfree
  obtain ⟨hend, hwait⟩ := not_or.1 hfree
  have hm := (h.kernel.place hj).1 hend
  rcases List.mem_cons.1 hm with he | hm
  · exact hjk (h.kernel.inj j hj k hk (Addr.procs.inj (he.trans hv)))
  · rcases List.mem_append.1 hm with hm | hm
    · rw [not_not.1 hready] at hm
      cases hm
    · exact hwait hm

/-- The numbers of a process that is stuck. -/
theorem stuck (hj : j < n) (hs : Stuck x v role j) :
    (count User.asked x.user role n j = 10 ∧ count User.printed x.user role n j = 10 ∧
        count User.given x.user role n j = 10 ∧ 0 ≤ x.s.l (j + 1) ∨
      x.s.l (j + 1) = -1 ∧ count User.asked x.user role n j = count User.given x.user role n j + 1) ∧
      (j = 0 ∧ 2 ≤ n ∨ (j = 1 ∨ j = 2) ∧ n = 3) := by
  have hle := h.le
  have hlow := h.tokens.low j (by omega)
  rcases hs with hend | hwait
  · refine ⟨.inl ⟨?_, ?_, ?_, ?_⟩, (h.place j hj).kind (.inr hend.1 : _ = Site.semP true ∨ _)⟩
    · rw [count_of_lt hj, User.asked, hend.1]
    · rw [count_of_lt hj, User.printed, hend.1]
    · rw [count_of_lt hj, User.given, hend.1]
    · by_contra hneg
      have hm := (h.tokens.sleeps j hj).2 (not_le.1 hneg)
      have hplace : .procs (role j) ∈ v.places :=
        List.mem_cons_of_mem _ (List.mem_append_right _ hm)
      exact (h.kernel.place hj).2 hplace hend
  · have hneg := (h.tokens.sleeps j hj).1 hwait
    obtain ⟨⟨child, hsite⟩, -⟩ := h.tokens.behind j hj hwait
    have hasleep := h.asleep hj hneg
    exact ⟨.inr ⟨by omega, by omega⟩, (h.place j hj).kind (.inl hsite)⟩

/-- If all the others are stuck, all three have been made. -/
theorem all_made (hk : k < n) (hsite : (x.user (role k)).site = .semP child ∨
    (x.user (role k)).site = .exit) (hs : ∀ j < n, j ≠ k → Stuck x v role j) : n = 3 := by
  have hkind := (h.place k hk).kind hsite
  have hle := h.le
  by_contra hn
  have h1 := (h.stuck (j := 1) (by omega) (hs 1 (by omega) (by omega))).2
  omega

/-- A process that has to sleep finds somebody to run. -/
theorem semP_ready (hk : k < n) (hv : v.cur = .procs (role k))
    (hsite : (x.user (role k)).site = .semP child) (hret : (x.user (role k)).returned = false)
    (hlow : x.s.l (k + 1) - 1 < 0) : v.ready ≠ [] := by
  refine (h.ready_or hv hk).resolve_right fun hs => ?_
  obtain rfl := h.all_made hk (.inl hsite) hs
  have hawake := h.awake hk hv
  have hplace := h.place k hk
  have hmine : count User.asked x.user role 3 k = (x.user (role k)).i ∧
      count User.given x.user role 3 k = (x.user (role k)).i := by
    rw [count_of_lt hk, count_of_lt hk]
    simp [User.asked, User.given, hsite, hret]
  have hi : (x.user (role k)).i < 10 := by
    rw [Place, hsite] at hplace
    exact hplace.1
  have hc := h.counters
  have hstuck : ∀ j < 3, j ≠ k → _ := fun j hj hjk => (h.stuck hj (hs j hj hjk)).1
  obtain rfl | rfl | rfl : k = 0 ∨ k = 1 ∨ k = 2 := by omega
  · have h1 := hstuck 1 (by omega) (by omega)
    have h2 := hstuck 2 (by omega) (by omega)
    simp only [Nat.cast_zero, zero_add, Nat.cast_one, Nat.cast_ofNat, Int.reduceAdd] at *
    omega
  · have h0 := hstuck 0 (by omega) (by omega)
    have h2 := hstuck 2 (by omega) (by omega)
    simp only [Nat.cast_zero, zero_add, Nat.cast_one, Nat.cast_ofNat, Int.reduceAdd] at *
    omega
  · have h0 := hstuck 0 (by omega) (by omega)
    have h1 := hstuck 1 (by omega) (by omega)
    simp only [Nat.cast_zero, zero_add, Nat.cast_one, Nat.cast_ofNat, Int.reduceAdd] at *
    omega

/-- A process that exits finds somebody to run, or all the others are at their end. -/
theorem exit_ready (hk : k < n) (hv : v.cur = .procs (role k))
    (hsite : (x.user (role k)).site = .exit) :
    v.ready ≠ [] ∨ n = 3 ∧ (∀ j < n, j ≠ k → (x.user (role j)).Ended) ∧
      ∀ j < n, count User.printed x.user role n j = 10 := by
  refine (h.ready_or hv hk).imp_right fun hs => ?_
  obtain rfl := h.all_made hk (.inr hsite : _ = Site.semP true ∨ _) hs
  have hawake := h.awake hk hv
  have hmine : count User.asked x.user role 3 k = 10 ∧ count User.printed x.user role 3 k = 10 ∧
      count User.given x.user role 3 k = 10 := by
    rw [count_of_lt hk, count_of_lt hk, count_of_lt hk]
    simp [User.asked, User.printed, User.given, hsite]
  have hc := h.counters
  have ho0 := h.ordered 0
  have ho1 := h.ordered 1
  have ho2 := h.ordered 2
  have hstuck : ∀ j < 3, j ≠ k → _ := fun j hj hjk => (h.stuck hj (hs j hj hjk)).1
  have hhigh : ∀ j < 3, j ≠ k → 0 ≤ x.s.l (j + 1) ∧ count User.printed x.user role 3 j = 10 := by
    obtain rfl | rfl | rfl : k = 0 ∨ k = 1 ∨ k = 2 := by omega
    · have h1 := hstuck 1 (by omega) (by omega)
      have h2 := hstuck 2 (by omega) (by omega)
      intro j hj hjk
      obtain rfl | rfl : j = 1 ∨ j = 2 := by omega
      all_goals
        simp only [Nat.cast_zero, zero_add, Nat.cast_one, Nat.cast_ofNat, Int.reduceAdd] at *
        omega
    · have h0 := hstuck 0 (by omega) (by omega)
      have h2 := hstuck 2 (by omega) (by omega)
      intro j hj hjk
      obtain rfl | rfl : j = 0 ∨ j = 2 := by omega
      all_goals
        simp only [Nat.cast_zero, zero_add, Nat.cast_one, Nat.cast_ofNat, Int.reduceAdd] at *
        omega
    · have h0 := hstuck 0 (by omega) (by omega)
      have h1 := hstuck 1 (by omega) (by omega)
      intro j hj hjk
      obtain rfl | rfl : j = 0 ∨ j = 1 := by omega
      all_goals
        simp only [Nat.cast_zero, zero_add, Nat.cast_one, Nat.cast_ofNat, Int.reduceAdd] at *
        omega
  refine ⟨rfl, fun j hj hjk => ?_, fun j hj => ?_⟩
  · refine (hs j hj hjk).resolve_right fun hm => ?_
    exact absurd ((h.tokens.sleeps j hj).1 hm) (not_lt.2 (hhigh j hj hjk).1)
  · by_cases hjk : j = k
    · rw [hjk]
      exact hmine.2.1
    · exact (hhigh j hj hjk).2

end Ring

/-! ## Progress -/

/-- The last line is printed and the last process shuts the machine down. -/
structure Finished (x : App) : Prop where
  out : x.out = (List.range 30).map line
  call : x.cur.call = .sys .exit
  shutdown : exec .exit x.s = .error (.shutdown 0)

/-- The exit of the last process. -/
theorem Ring.finished (h : Ring x v role n) (hk : k < n) (hcur : role k = x.s.pid)
    (hv : v.cur = .procs (role k)) (hsite : (x.user (role k)).site = .exit) (hn : n = 3)
    (hend : ∀ j < n, j ≠ k → (x.user (role j)).Ended)
    (hprinted : ∀ j < n, count User.printed x.user role n j = 10) : Finished x := by
  subst hn
  have hplaces : ∀ p ∈ v.ready ++ v.wait, False := by
    intro p hp
    have hm : p ∈ v.places := List.mem_cons_of_mem _ hp
    obtain ⟨i, rfl⟩ := h.kernel.own p hm
    have hl := h.kernel.inv.ok.live _ hm
    rw [h.kernel.inv.ok.pid] at hl
    obtain ⟨j, hj, rfl⟩ := (h.kernel.made i).1 hl.1
    by_cases hjk : j = k
    · rw [hjk, ← hv] at hp
      rcases List.mem_append.1 hp with hp | hp
      · exact h.kernel.inv.ok.cur_notMem.1 hp
      · exact h.kernel.inv.ok.cur_notMem.2 hp
    · exact hl.2 ((h.kernel.zombie j hj).2 (hend j hj hjk))
  have hnil := List.append_eq_nil_iff.1 (List.eq_nil_iff_forall_not_mem.2 hplaces)
  refine ⟨?_, ?_, h.kernel.inv.exit_shutdown hnil.1 hnil.2 fun i hi => ?_⟩
  · rw [h.out, hprinted 0 (by omega), hprinted 1 (by omega), hprinted 2 (by omega)]
  · rw [App.cur, ← hcur]
    exact User.call_exit.2 hsite
  · by_cases hmade : ∃ j < 3, role j = i
    · obtain ⟨j, hj, rfl⟩ := hmade
      have hjk : j ≠ k := fun e => hi (e ▸ hcur)
      exact .inr ((h.kernel.zombie j hj).2 (hend j hj hjk))
    · exact .inl (not_not.1 ((h.kernel.made i).not.2 hmade))

/-- A free element of `procs[]`. -/
theorem Kernel.exists_free {s : Sched} {user : Fin NPROC → User} (h : Kernel s v user role n)
    (hn : n ≤ 3) : ∃ i, (s.core (.procs i)).status = .free := by
  by_contra hno
  have hsurj : Function.Surjective fun j : Fin n => role j := by
    intro i
    obtain ⟨j, hj, hji⟩ := (h.made i).1 fun hi => hno ⟨i, hi⟩
    exact ⟨⟨j, hj⟩, hji⟩
  have hcard := Fintype.card_le_of_surjective _ hsurj
  rw [Fintype.card_fin, Fintype.card_fin] at hcard
  have hnproc : NPROC = 32 := rfl
  omega

/-- The running process goes on, unless it is the last one. -/
theorem Ring.works_or_finished (h : Ring x v role n) : (∃ x', Works x x') ∨ Finished x := by
  obtain ⟨k, hk, hcur, hv, hend⟩ := h.kernel.cur
  have hu : x.cur = x.user (role k) := by rw [App.cur, hcur]
  have hplace := h.place k hk
  have hle := h.le
  have hnsem : NSEM = 100 := rfl
  cases hret : x.cur.returned with
  | true => exact .inl ⟨_, .resume hret⟩
  | false =>
    have hsys : ∀ {e}, x.cur.call = .sys e → (∃ s', exec e x.s = .ok s') → ∃ x', Works x x' :=
      fun hcall hexec => hexec.elim fun s' hs' => ⟨_, .sys hret hcall hs'⟩
    have hbound : ∀ j : ℕ, j < 3 → -1 ≤ x.s.l (j + 1) ∧ x.s.l (j + 1) ≤ 11 := by
      intro j hj
      have hc := h.tokens.counter j hj
      have ho := h.ordered ((j + 2) % 3)
      refine ⟨h.tokens.low j hj, ?_⟩
      split at hc <;> omega
    cases hsite : (x.user (role k)).site with
    | newMain => simp [Place, hsite] at hplace
    | newChild => simp [Place, hsite] at hplace
    | forkMain =>
      obtain ⟨i, hi⟩ := h.kernel.exists_free hle
      exact .inl (hsys (by rw [hu]; exact User.call_fork.2 (.inl hsite))
        (h.kernel.inv.fork_returns hi))
    | forkChild =>
      obtain ⟨i, hi⟩ := h.kernel.exists_free hle
      exact .inl (hsys (by rw [hu]; exact User.call_fork.2 (.inr hsite))
        (h.kernel.inv.fork_returns hi))
    | print child => exact .inl ⟨_, .print hret (by rw [hu]; exact hplace.call_print hsite)⟩
    | semP child =>
      have hb := hbound k (by omega)
      refine .inl (hsys (by rw [hu]; exact hplace.call_semP (h.vars k hk) hsite)
        (h.kernel.inv.semP_returns ⟨by omega, by omega⟩ ⟨by omega, by omega⟩ ?_))
      exact h.semP_ready hk hv hsite (hu ▸ hret)
    | semV child =>
      have hb := hbound ((k + 1) % 3) (by omega)
      exact .inl (hsys (by rw [hu]; exact hplace.call_semV (h.vars k hk) hsite)
        (h.kernel.inv.semV_returns ⟨by omega, by omega⟩ ⟨by omega, by omega⟩))
    | exit =>
      rcases h.exit_ready hk hv hsite with hready | ⟨hn, hends, hprinted⟩
      · exact .inl (hsys (by rw [hu]; exact User.call_exit.2 hsite)
          (h.kernel.inv.exit_returns (h.noParent hk hv hsite) hready))
      · exact .inr (h.finished hk hcur hv hsite hn hends hprinted)

/-- The first process goes on. -/
theorem Setup.exists_works (h : Setup x v) : ∃ x', Works x x' := by
  have hm := h.making
  have hu := h.cur.2.1
  have hnsem : NSEM = 100 := rfl
  cases hret : x.cur.returned with
  | true => exact ⟨_, .resume hret⟩
  | false =>
    have hret' := hu ▸ hret
    unfold Making at hm
    cases hsite : (x.user 0).site with
    | newMain =>
      simp only [hsite, hret', Bool.false_eq_true, if_false] at hm
      obtain ⟨s', hs'⟩ : ∃ s', exec (.semNew 1) x.s = .ok s' :=
        h.kernel.inv.semNew_returns ⟨by omega, by omega⟩
      exact ⟨_, .sys hret (by rw [hu, User.call, hsite]) hs'⟩
    | newChild =>
      simp only [hsite, hret', Bool.false_eq_true, if_false] at hm
      obtain ⟨s', hs'⟩ : ∃ s', exec (.semNew 0) x.s = .ok s' :=
        h.kernel.inv.semNew_returns ⟨by omega, by omega⟩
      exact ⟨_, .sys hret (by rw [hu, User.call, hsite]) hs'⟩
    | _ => simp [hsite] at hm

theorem Good.works_or_finished {m : ℕ} (h : Good x m) :
    (∀ a0, ∃ s', exec (.tick a0) x.s = .ok s') ∧ ((∃ x', Works x x') ∨ Finished x) := by
  cases h with
  | setup h left => exact ⟨h.kernel.inv.tick_returns, .inl h.exists_works⟩
  | ring h left => exact ⟨h.kernel.inv.tick_returns, h.works_or_finished⟩

/-- **The three processes come to their end.** In every state that is reached a timer interrupt
returns, and the running process goes on, unless all thirty lines are printed and its exit shuts the
machine down. -/
theorem progress (h : Reached k x) : (∀ a0, ∃ s', exec (.tick a0) x.s = .ok s') ∧
    ((∃ x', Works x x') ∨ Finished x) := by
  obtain ⟨m, hm, -⟩ := h.good
  exact hm.works_or_finished

/-- A process that has not run. -/
def User.start : User where
  site := .newMain
  returned := false
  mainSem := 0
  childSem _ := 0
  pid := 0
  i := 0

/-- The start. -/
def App.start : App := ⟨started blank, fun _ => .start, []⟩

theorem reached_start : Reached 0 App.start := .start blank _ (sStart_eq blank) rfl rfl

theorem progress_start : (∀ a0, ∃ s', exec (.tick a0) App.start.s = .ok s') ∧
    ((∃ x', Works App.start x') ∨ Finished App.start) :=
  progress reached_start

/-- The end is reached from every state. -/
theorem Good.finishes {m : ℕ} (h : Good x m) (hr : Reached k x) :
    ∃ k' x', Reached k' x' ∧ Finished x' := by
  induction m using Nat.strong_induction_on generalizing k x with
  | _ m ih =>
    rcases h.works_or_finished.2 with ⟨x', hw⟩ | hf
    · obtain ⟨m', hm', hlt⟩ := h.works hw
      exact ih m' (by omega) hm' (hr.work hw)
    · exact ⟨k, x, hr, hf⟩

/-- **The order of the lines.** However the timer interrupts the three processes, they print the
first lines of the fixed order, at most thirty, and go through at most 259 steps. -/
theorem order_of_run (h : Reached k x) :
    k ≤ 259 ∧ ∃ m ≤ 30, x.out = (List.range m).map line := by
  obtain ⟨m, hm, hk⟩ := h.good
  exact ⟨by omega, hm.lines⟩

/-- A run to its end. -/
theorem order_of_run_end : ∃ k x, Reached k x ∧ Finished x ∧
    k ≤ 259 ∧ ∃ m ≤ 30, x.out = (List.range m).map line := by
  obtain ⟨m, hm, -⟩ := reached_start.good
  obtain ⟨k, x, hr, hf⟩ := hm.finishes reached_start
  exact ⟨k, x, hr, hf, order_of_run hr⟩

end SemaphoreApp

end HustOS.Proc
