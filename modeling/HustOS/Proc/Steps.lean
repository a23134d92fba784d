import HustOS.Proc.Queues

/-!
# What an event does

`Step s v e s' v'` lists what the event `e` of the running process does to the state and to the view
of the queues, with the conditions under which the code does it: a process is made, the running one
goes to the rear of the ready queue, sleeps, or exits, and a sleeper is woken by a semaphore or by
the exit of a child. Every event that returns is one of these steps (`exec_step`), and each of them
keeps the invariant `Inv`: the places of the view have different processes, each with the status of
its place.

The structure of a parent that an exit wakes is a copy, so a place is an element of `procs[]` or a
copy on the stack of a process that has exited (`Ok.copy`).
-/

namespace HustOS.Proc

open Foundations

variable {s s' : Sched} {v v' : View} {c c' : Addr → Process} {a p q : Addr} {e : Event}
  {pre post rest : List Addr} {i : Fin NPROC} {a1 : ℤ}

/-- The structures without their links. -/
def Sched.core (s : Sched) : Addr → Process := coreOf s.mem

/-- The process that runs. -/
def Sched.pid (s : Sched) : Fin NPROC := (s.mem s.current).pid

/-- The saved registers after the trap of an event. -/
def Sched.saved (s : Sched) (e : Event) : Fin NPROC → ℤ := Function.update s.a0 s.pid e.a0

/-! ## The invariant -/

/-- The process exists and has not exited. -/
def Live (c : Addr → Process) (i : Fin NPROC) : Prop :=
  (c (.procs i)).status ≠ .free ∧ (c (.procs i)).status ≠ .zombie

/-- The places hold the live processes, one each, with the status of the place. -/
structure Ok (c : Addr → Process) (v : View) : Prop where
  null : .null ∉ v.places
  nodup : (v.places.map fun a => (c a).pid).Nodup
  running : (c v.cur).status = .running
  isReady : ∀ a ∈ v.ready, (c a).status = .ready
  isBlocked : ∀ a ∈ v.wait, (c a).status = .blocked
  pid : ∀ i, (c (.procs i)).pid = i
  live : ∀ a ∈ v.places, Live c (c a).pid
  placed : ∀ i, Live c i → ∃ a ∈ v.places, (c a).pid = i
  copy : ∀ i, .stack i ∈ v.places → (c (.procs i)).status = .zombie

/-- The queues are those of the view, and the view is in order. -/
structure Inv (s : Sched) (v : View) : Prop where
  queued : Queued s v
  ok : Ok s.core v

/-! ## Steps -/

/-- The structures after the exit of the process at `cur`. -/
def zombied (c : Addr → Process) (cur : Addr) : Addr → Process :=
  withStatus (withStatus c (.procs (c cur).pid) .zombie) cur .zombie

/-- The state `s'` in all its parts. -/
structure Effect (s' : Sched) (v' : View) (c : Addr → Process) (l : ℤ → ℤ) (len : ℤ)
    (a0 : Fin NPROC → ℤ) : Prop where
  queued : Queued s' v'
  core : s'.core = c
  l : s'.l = l
  len : s'.len = len
  a0 : s'.a0 = a0

/-- The events that send the running process to the rear of the ready queue, with the structures
before that. -/
inductive Rotates (s : Sched) (v : View) : Event → (Addr → Process) → Prop
  | yield : Rotates s v .yield s.core
  | tick {a0 : ℤ} (expired : (s.core v.cur).tickCount + 1 ≥ 2) :
      Rotates s v (.tick a0) (Function.update s.core v.cur { s.core v.cur with tickCount := 0 })

/-- The events that put the running process to sleep, with the structures and semaphores before
that. -/
inductive Sleeps (s : Sched) (v : View) : Event → (Addr → Process) → (ℤ → ℤ) → Prop
  | semP {a1 : ℤ} (low : s.l a1 - 1 < 0) :
      Sleeps s v (.semP a1) (Function.update s.core v.cur { s.core v.cur with sem := a1 })
        (Function.update s.l a1 (s.l a1 - 1))
  | wait {pid : ℤ} {i : Fin NPROC} (child : waitedChild pid s = some i)
      (alive : (s.core (.procs i)).status ≠ .zombie) : Sleeps s v (.wait pid) s.core s.l

/-- The result of a wait that returns. -/
inductive WaitResult (s : Sched) (pid : ℤ) : ℤ → Prop
  | none (child : waitedChild pid s = none) : WaitResult s pid (-1)
  | zombie {i : Fin NPROC} (child : waitedChild pid s = some i)
      (ended : (s.core (.procs i)).status = .zombie) : WaitResult s pid i

/-- No sleeper is the parent of the running process. -/
def NoParent (c : Addr → Process) (v : View) : Prop :=
  (c v.cur).parent = .null ∨ ∀ a ∈ v.wait, (c a).pid ≠ (c (c v.cur).parent).pid

/-- The first sleeper, behind `pre`, with the process id of the parent of the running process. -/
structure ParentAt (c : Addr → Process) (v : View) (pre : List Addr) (p : Addr)
    (post : List Addr) : Prop where
  parent : (c v.cur).parent ≠ .null
  wait : v.wait = pre ++ p :: post
  before : ∀ a ∈ pre, (c a).pid ≠ (c (c v.cur).parent).pid
  pid : (c p).pid = (c (c v.cur).parent).pid

/-- What the event `e` of the running process does. -/
inductive Step (s : Sched) (v : View) : Event → Sched → View → Prop
  /-- A child at the rear of the ready queue. -/
  | fork {s' : Sched} {i : Fin NPROC} (free : (s.core (.procs i)).status = .free)
      (effect : Effect s' ⟨v.cur, v.ready ++ [.procs i], v.wait⟩
        (Function.update s.core (.procs i)
          { s.core (.procs i) with status := .ready, parent := v.cur })
        s.l s.len (Function.update (Function.update s.a0 i 0) s.pid i)) :
      Step s v .fork s' ⟨v.cur, v.ready ++ [.procs i], v.wait⟩
  /-- The running process goes to the rear of the ready queue. -/
  | rotate {e : Event} {c : Addr → Process} {s' : Sched} {q : Addr} {rest : List Addr}
      (start : Rotates s v e c) (next : v.ready ++ [v.cur] = q :: rest)
      (effect : Effect s' ⟨q, rest, v.wait⟩ (withStatus (withStatus c v.cur .ready) q .running)
        s.l s.len (s.saved e)) :
      Step s v e s' ⟨q, rest, v.wait⟩
  /-- A tick within the time slice. -/
  | tick {a0 : ℤ} {s' : Sched} (slice : (s.core v.cur).tickCount + 1 < 2)
      (effect : Effect s' v (Function.update s.core v.cur
          { s.core v.cur with tickCount := (s.core v.cur).tickCount + 1 })
        s.l s.len (s.saved (.tick a0))) :
      Step s v (.tick a0) s' v
  /-- The running process sleeps. -/
  | sleep {e : Event} {c : Addr → Process} {l : ℤ → ℤ} {s' : Sched} {q : Addr} {rest : List Addr}
      (start : Sleeps s v e c l) (next : v.ready = q :: rest)
      (effect : Effect s' ⟨q, rest, v.wait ++ [v.cur]⟩
        (withStatus (withStatus c v.cur .blocked) q .running) l s.len (s.saved e)) :
      Step s v e s' ⟨q, rest, v.wait ++ [v.cur]⟩
  /-- A new semaphore. -/
  | semNew {a1 : ℤ} {s' : Sched} (lt : s.len + 1 < NSEM)
      (effect : Effect s' v s.core (Function.update s.l (s.len + 1) a1) (s.len + 1)
        (Function.update s.a0 s.pid (s.len + 1))) :
      Step s v (.semNew a1) s' v
  /-- `sem_P` returns at once. -/
  | semP {a1 : ℤ} {s' : Sched} (high : 0 ≤ s.l a1 - 1)
      (effect : Effect s' v s.core (Function.update s.l a1 (s.l a1 - 1)) s.len
        (Function.update s.a0 s.pid 1)) :
      Step s v (.semP a1) s' v
  /-- `sem_V` wakes nobody. -/
  | semV {a1 : ℤ} {s' : Sched}
      (nobody : 0 ≤ s.l a1 + 1 → ∀ a ∈ v.wait, (s.core a).sem ≠ a1)
      (effect : Effect s' v s.core (Function.update s.l a1 (s.l a1 + 1)) s.len
        (Function.update s.a0 s.pid 1)) :
      Step s v (.semV a1) s' v
  /-- `sem_V` wakes the first sleeper with the semaphore. -/
  | wake {a1 : ℤ} {s' : Sched} {pre post : List Addr} {p : Addr} (high : 0 ≤ s.l a1 + 1)
      (wait : v.wait = pre ++ p :: post) (before : ∀ a ∈ pre, (s.core a).sem ≠ a1)
      (sem : (s.core p).sem = a1)
      (effect : Effect s' ⟨v.cur, p :: v.ready, pre ++ post⟩ (withStatus s.core p .ready)
        (Function.update s.l a1 (s.l a1 + 1)) s.len (Function.update s.a0 s.pid 1)) :
      Step s v (.semV a1) s' ⟨v.cur, p :: v.ready, pre ++ post⟩
  /-- `process_wait` returns. -/
  | wait {pid r : ℤ} {s' : Sched} (result : WaitResult s pid r)
      (effect : Effect s' v s.core s.l s.len (Function.update s.a0 s.pid r)) :
      Step s v (.wait pid) s' v
  /-- The running process exits and its parent does not sleep. -/
  | exit {c : Addr → Process} {s' : Sched} {q : Addr} {rest : List Addr} (alone : NoParent s.core v)
      (next : v.ready = q :: rest)
      (same : ∀ a, a ≠ .stack s.pid → c a = zombied s.core v.cur a)
      (effect : Effect s' ⟨q, rest, v.wait⟩ (withStatus c q .running) s.l s.len (s.saved .exit)) :
      Step s v .exit s' ⟨q, rest, v.wait⟩
  /-- The running process exits and a copy of its sleeping parent is made ready. -/
  | wakeParent {s' : Sched} {pre post rest : List Addr} {p q : Addr}
      (parent : ParentAt s.core v pre p post) (next : v.ready ++ [.stack s.pid] = q :: rest)
      (effect : Effect s' ⟨q, rest, pre ++ post⟩
        (withStatus (Function.update (zombied s.core v.cur) (.stack s.pid)
          { s.core p with status := .ready }) q .running)
        s.l s.len (s.saved .exit)) :
      Step s v .exit s' ⟨q, rest, pre ++ post⟩

/-! ## Places -/

theorem Ok.nodup_places (h : Ok c v) : v.places.Nodup := h.nodup.of_map

theorem Ok.cur_ne (h : Ok c v) : v.cur ≠ .null := fun e => h.null (e ▸ List.mem_cons_self)

theorem Ok.cur_notMem (h : Ok c v) : v.cur ∉ v.ready ∧ v.cur ∉ v.wait := by
  have := (List.nodup_cons.1 h.nodup_places).1
  rw [List.mem_append, not_or] at this
  exact this

/-- A place of a process other than the running one. -/
theorem Ok.pid_ne (h : Ok c v) (ha : a ∈ v.ready ++ v.wait) : (c a).pid ≠ (c v.cur).pid := by
  have := (List.nodup_cons.1 h.nodup).1
  exact fun e => this (List.mem_map.2 ⟨a, ha, e⟩)

/-! ## The structures after an exit -/

@[simp] theorem zombied_pid (c : Addr → Process) (cur a : Addr) :
    (zombied c cur a).pid = (c a).pid := by
  rw [zombied, withStatus_pid, withStatus_pid]

@[simp] theorem zombied_parent (c : Addr → Process) (cur a : Addr) :
    (zombied c cur a).parent = (c a).parent := by
  rw [zombied, withStatus_parent, withStatus_parent]

theorem zombied_apply (c : Addr → Process) (cur a : Addr) : zombied c cur a =
    if a = cur ∨ a = .procs (c cur).pid then { c a with status := .zombie } else c a := by
  unfold zombied withStatus
  by_cases h₁ : a = cur
  · subst h₁
    by_cases h₂ : a = .procs (c a).pid
    · simp [← h₂]
    · simp [h₂]
  · by_cases h₂ : a = .procs (c cur).pid
    · subst h₂
      simp [h₁]
    · simp [h₁, h₂]

theorem zombied_of_ne {cur : Addr} (h₁ : a ≠ cur) (h₂ : a ≠ .procs (c cur).pid) :
    zombied c cur a = c a := by
  rw [zombied_apply, if_neg (not_or.2 ⟨h₁, h₂⟩)]

theorem zombied_status {cur : Addr} (h : a = cur ∨ a = .procs (c cur).pid) :
    (zombied c cur a).status = .zombie := by
  rw [zombied_apply, if_pos h]

/-- The exit does not touch the structures in the queues. -/
theorem Ok.zombied_eq (h : Ok c v) (ha : a ∈ v.ready ++ v.wait) : zombied c v.cur a = c a := by
  refine zombied_of_ne ?_ ?_
  · rintro rfl
    exact (List.nodup_cons.1 h.nodup_places).1 ha
  · intro e
    refine h.pid_ne ha ?_
    rw [e, h.pid]

/-- The stack of a live process holds no structure in use. -/
theorem Ok.stack_notMem (h : Ok c v) (ha : a ∈ v.places) : .stack (c a).pid ∉ v.places := fun hm =>
  (h.live a ha).2 (h.copy _ hm)

/-! ## Steps keep the invariant -/

/-- The statuses of the places of a view. -/
structure Statuses (c : Addr → Process) (v : View) : Prop where
  running : (c v.cur).status = .running
  isReady : ∀ a ∈ v.ready, (c a).status = .ready
  isBlocked : ∀ a ∈ v.wait, (c a).status = .blocked

theorem Statuses.live (h : Statuses c v) (ha : a ∈ v.places) :
    (c a).status ≠ .free ∧ (c a).status ≠ .zombie := by
  rcases List.mem_cons.1 ha with rfl | ha
  · rw [h.running]
    exact ⟨nofun, nofun⟩
  · rcases List.mem_append.1 ha with ha | ha
    · rw [h.isReady a ha]
      exact ⟨nofun, nofun⟩
    · rw [h.isBlocked a ha]
      exact ⟨nofun, nofun⟩

theorem Ok.statuses (h : Ok c v) : Statuses c v := ⟨h.running, h.isReady, h.isBlocked⟩

/-- The same structures at the same places in another order. -/
theorem Ok.rearrange (h : Ok c v) (hperm : v'.places.Perm v.places)
    (hpid : ∀ a, (c' a).pid = (c a).pid)
    (hsame : ∀ i, .procs i ∉ v.places → (c' (.procs i)).status = (c (.procs i)).status)
    (hs : Statuses c' v') : Ok c' v' := by
  have hlive : ∀ i, Live c' i ↔ Live c i := by
    intro i
    by_cases hi : .procs i ∈ v.places
    · have hl := h.live _ hi
      rw [h.pid] at hl
      exact ⟨fun _ => hl, fun _ => hs.live (hperm.mem_iff.2 hi)⟩
    · rw [Live, Live, hsame i hi]
  have hpids : (fun a => (c' a).pid) = fun a => (c a).pid := funext hpid
  refine
    { null := fun hm => h.null (hperm.mem_iff.1 hm)
      nodup := ?_
      running := hs.running
      isReady := hs.isReady
      isBlocked := hs.isBlocked
      pid := fun i => (hpid _).trans (h.pid i)
      live := fun a ha => ?_
      placed := fun i hi => ?_
      copy := fun i hi => ?_ }
  · rw [hpids]
    exact (hperm.map _).nodup_iff.2 h.nodup
  · rw [hlive, hpid]
    exact h.live a (hperm.mem_iff.1 ha)
  · obtain ⟨a, ha, hai⟩ := h.placed i ((hlive i).1 hi)
    exact ⟨a, hperm.mem_iff.2 ha, (hpid a).trans hai⟩
  · have hz := h.copy i (hperm.mem_iff.1 hi)
    rw [hsame i fun hm => ?_, hz]
    have hl := (h.live _ hm).2
    rw [h.pid] at hl
    exact hl hz

/-- The other fields of the structures do not matter. -/
theorem Ok.congr (h : Ok c v) (hpid : ∀ a, (c' a).pid = (c a).pid)
    (hst : ∀ a, (c' a).status = (c a).status) : Ok c' v := by
  refine h.rearrange (List.Perm.refl _) hpid (fun i _ => hst _) ⟨?_, fun a ha => ?_, fun a ha => ?_⟩
  · rw [hst, h.running]
  · rw [hst, h.isReady a ha]
  · rw [hst, h.isBlocked a ha]

/-- A new process at the rear of the ready queue. -/
theorem Ok.fork (h : Ok c v) (hfree : (c (.procs i)).status = .free) :
    Ok (Function.update c (.procs i) { c (.procs i) with status := .ready, parent := v.cur })
      ⟨v.cur, v.ready ++ [.procs i], v.wait⟩ := by
  have hnot : .procs i ∉ v.places := by
    intro hm
    have := (h.live _ hm).1
    rw [h.pid] at this
    exact this hfree
  have hne : ∀ a ∈ v.places, a ≠ .procs i := fun a ha e => hnot (e ▸ ha)
  have hperm : (View.places ⟨v.cur, v.ready ++ [.procs i], v.wait⟩).Perm
      (.procs i :: v.places) := by
    simp only [View.places, List.append_assoc, List.singleton_append]
    exact (List.Perm.cons _ List.perm_middle).trans (List.Perm.swap _ _ _)
  set c' := Function.update c (.procs i)
    { c (.procs i) with status := .ready, parent := v.cur } with hc'
  have hpid : ∀ a, (c' a).pid = (c a).pid := by
    intro a
    by_cases ha : a = .procs i
    · rw [ha, hc', Function.update_self]
    · rw [hc', Function.update_of_ne ha]
  have hother : ∀ a, a ≠ .procs i → c' a = c a := fun a ha => Function.update_of_ne ha _ _
  have hself : (c' (.procs i)).status = .ready := by rw [hc', Function.update_self]
  have hlive : ∀ j, Live c' j ↔ j = i ∨ Live c j := by
    intro j
    by_cases hj : j = i
    · rw [hj, Live, hself]
      exact ⟨fun _ => .inl rfl, fun _ => ⟨nofun, nofun⟩⟩
    · rw [Live, hother _ fun e => hj (Addr.procs.inj e)]
      exact ⟨.inr, fun hl => hl.resolve_left hj⟩
  have hpids : (fun a => (c' a).pid) = fun a => (c a).pid := funext hpid
  refine
    { null := fun hm => ?_
      nodup := ?_
      running := ?_
      isReady := fun a ha => ?_
      isBlocked := fun a ha => ?_
      pid := fun j => (hpid _).trans (h.pid j)
      live := fun a ha => ?_
      placed := fun j hj => ?_
      copy := fun j hj => ?_ }
  · rcases List.mem_cons.1 (hperm.mem_iff.1 hm) with hm | hm
    · cases hm
    · exact h.null hm
  · rw [hpids, (hperm.map _).nodup_iff, List.map_cons, List.nodup_cons]
    refine ⟨fun hm => ?_, h.nodup⟩
    obtain ⟨a, ha, hai⟩ := List.mem_map.1 hm
    have hl := (h.live a ha).1
    rw [hai, h.pid] at hl
    exact hl hfree
  · rw [hother _ (hne _ List.mem_cons_self)]
    exact h.running
  · rcases List.mem_append.1 ha with ha | ha
    · rw [hother _ (hne a (List.mem_cons_of_mem _ (List.mem_append_left _ ha)))]
      exact h.isReady a ha
    · rw [List.mem_singleton.1 ha, hself]
  · rw [hother _ (hne a (List.mem_cons_of_mem _ (List.mem_append_right _ ha)))]
    exact h.isBlocked a ha
  · rw [hlive, hpid]
    rcases List.mem_cons.1 (hperm.mem_iff.1 ha) with rfl | ha
    · exact .inl (h.pid i)
    · exact .inr (h.live a ha)
  · rcases (hlive j).1 hj with rfl | hj
    · exact ⟨.procs j, hperm.mem_iff.2 List.mem_cons_self, (hpid _).trans (h.pid j)⟩
    · obtain ⟨a, ha, haj⟩ := h.placed j hj
      exact ⟨a, hperm.mem_iff.2 (List.mem_cons_of_mem _ ha), (hpid a).trans haj⟩
  · have hj' : .stack j ∈ v.places := by
      rcases List.mem_cons.1 (hperm.mem_iff.1 hj) with hj | hj
      · cases hj
      · exact hj
    have hz := h.copy j hj'
    rw [hother, hz]
    intro e
    rw [e, hfree] at hz
    cases hz

theorem Rotates.core (h : Rotates s v e c) (a : Addr) :
    (c a).pid = (s.core a).pid ∧ (c a).status = (s.core a).status := by
  cases h with
  | yield => exact ⟨rfl, rfl⟩
  | tick expired =>
    by_cases ha : a = v.cur
    · rw [ha, Function.update_self]
      exact ⟨rfl, rfl⟩
    · rw [Function.update_of_ne ha]
      exact ⟨rfl, rfl⟩

theorem Sleeps.core {l : ℤ → ℤ} (h : Sleeps s v e c l) (a : Addr) :
    (c a).pid = (s.core a).pid ∧ (c a).status = (s.core a).status := by
  cases h with
  | wait child alive => exact ⟨rfl, rfl⟩
  | semP low =>
    by_cases ha : a = v.cur
    · rw [ha, Function.update_self]
      exact ⟨rfl, rfl⟩
    · rw [Function.update_of_ne ha]
      exact ⟨rfl, rfl⟩

/-- The running process changes places with the head of the ready queue. -/
theorem Ok.switch {st : Status} {c₀ : Addr → Process} (h : Ok c v) (hq : q ∈ v'.places)
    (hcore : ∀ a, (c₀ a).pid = (c a).pid ∧ (c₀ a).status = (c a).status)
    (hperm : v'.places.Perm v.places)
    (hs : Statuses (withStatus (withStatus c₀ v.cur st) q .running) v') :
    Ok (withStatus (withStatus c₀ v.cur st) q .running) v' := by
  refine h.rearrange hperm (fun a => ?_) (fun i hi => ?_) hs
  · rw [withStatus_pid, withStatus_pid]
    exact (hcore a).1
  · have h₁ : .procs i ≠ q := fun e => hi (hperm.mem_iff.1 (e ▸ hq))
    have h₂ : .procs i ≠ v.cur := fun e => hi (e ▸ List.mem_cons_self)
    rw [withStatus_of_ne h₁, withStatus_of_ne h₂]
    exact (hcore _).2

theorem Ok.rotate {c₀ : Addr → Process} (h : Ok c v)
    (hcore : ∀ a, (c₀ a).pid = (c a).pid ∧ (c₀ a).status = (c a).status)
    (hn : v.ready ++ [v.cur] = q :: rest) :
    Ok (withStatus (withStatus c₀ v.cur .ready) q .running) ⟨q, rest, v.wait⟩ := by
  have hperm : (View.places ⟨q, rest, v.wait⟩).Perm v.places := by
    rw [View.places, ← List.cons_append, ← hn, List.append_assoc]
    exact List.perm_middle
  have hnd := hperm.nodup_iff.2 h.nodup_places
  refine h.switch List.mem_cons_self hcore hperm ⟨withStatus_self, fun a ha => ?_, fun a ha => ?_⟩
  · have hne : a ≠ q := fun e => (List.nodup_cons.1 hnd).1 (e ▸ List.mem_append_left _ ha)
    rw [withStatus_of_ne hne]
    by_cases hac : a = v.cur
    · rw [hac, withStatus_self]
    · rw [withStatus_of_ne hac, (hcore a).2]
      have hmem : a ∈ v.ready ++ [v.cur] := hn ▸ List.mem_cons_of_mem _ ha
      rcases List.mem_append.1 hmem with hmem | hmem
      · exact h.isReady a hmem
      · exact absurd (List.mem_singleton.1 hmem) hac
  · have hne : a ≠ q := fun e => (List.nodup_cons.1 hnd).1 (e ▸ List.mem_append_right _ ha)
    have hac : a ≠ v.cur := fun e => h.cur_notMem.2 (e ▸ ha)
    rw [withStatus_of_ne hne, withStatus_of_ne hac, (hcore a).2]
    exact h.isBlocked a ha

theorem Ok.sleep {c₀ : Addr → Process} (h : Ok c v)
    (hcore : ∀ a, (c₀ a).pid = (c a).pid ∧ (c₀ a).status = (c a).status)
    (hn : v.ready = q :: rest) :
    Ok (withStatus (withStatus c₀ v.cur .blocked) q .running) ⟨q, rest, v.wait ++ [v.cur]⟩ := by
  have hperm : (View.places ⟨q, rest, v.wait ++ [v.cur]⟩).Perm v.places := by
    rw [View.places, View.places, hn, ← List.cons_append, ← List.append_assoc]
    exact List.perm_append_singleton _ _
  have hnd := hperm.nodup_iff.2 h.nodup_places
  refine h.switch List.mem_cons_self hcore hperm ⟨withStatus_self, fun a ha => ?_, fun a ha => ?_⟩
  · have hne : a ≠ q := fun e => (List.nodup_cons.1 hnd).1 (e ▸ List.mem_append_left _ ha)
    have hmem : a ∈ v.ready := hn ▸ List.mem_cons_of_mem _ ha
    have hac : a ≠ v.cur := fun e => h.cur_notMem.1 (e ▸ hmem)
    rw [withStatus_of_ne hne, withStatus_of_ne hac, (hcore a).2]
    exact h.isReady a hmem
  · have hne : a ≠ q := fun e => (List.nodup_cons.1 hnd).1 (e ▸ List.mem_append_right _ ha)
    rw [withStatus_of_ne hne]
    by_cases hac : a = v.cur
    · rw [hac, withStatus_self]
    · rw [withStatus_of_ne hac, (hcore a).2]
      rcases List.mem_append.1 ha with ha | ha
      · exact h.isBlocked a ha
      · exact absurd (List.mem_singleton.1 ha) hac

/-- A sleeper is put in front of the ready queue. -/
theorem Ok.wake (h : Ok c v) (hw : v.wait = pre ++ p :: post) :
    Ok (withStatus c p .ready) ⟨v.cur, p :: v.ready, pre ++ post⟩ := by
  have hperm : (View.places ⟨v.cur, p :: v.ready, pre ++ post⟩).Perm v.places := by
    rw [View.places, View.places, hw]
    refine List.Perm.cons _ ?_
    refine List.Perm.trans ?_ (List.Perm.append_left v.ready List.perm_middle.symm)
    exact List.perm_middle.symm
  have hnd := List.nodup_cons.1 (hperm.nodup_iff.2 h.nodup_places)
  have hp := List.nodup_cons.1 hnd.2
  have hpw : p ∈ v.places := hperm.mem_iff.1 (by simp [View.places])
  refine h.rearrange hperm (fun a => withStatus_pid) (fun i hi => ?_) ⟨?_, fun a ha => ?_,
    fun a ha => ?_⟩
  · have hne : .procs i ≠ p := fun e => hi (e ▸ hpw)
    rw [withStatus_of_ne hne]
  · have hne : v.cur ≠ p := fun e => hnd.1 (e ▸ List.mem_cons_self)
    rw [withStatus_of_ne hne]
    exact h.running
  · rcases List.mem_cons.1 ha with rfl | ha
    · exact withStatus_self
    · have hne : a ≠ p := fun e => hp.1 (e ▸ List.mem_append_left _ ha)
      rw [withStatus_of_ne hne]
      exact h.isReady a ha
  · have hne : a ≠ p := fun e => hp.1 (e ▸ List.mem_append_right _ ha)
    rw [withStatus_of_ne hne]
    refine h.isBlocked a ?_
    rw [hw]
    rcases List.mem_append.1 ha with ha | ha
    · exact List.mem_append_left _ ha
    · exact List.mem_append_right _ (List.mem_cons_of_mem _ ha)

theorem Ok.zombied_procs (h : Ok c v) (hi : i ≠ (c v.cur).pid) :
    zombied c v.cur (.procs i) = c (.procs i) := by
  refine zombied_of_ne ?_ fun e => hi (Addr.procs.inj e)
  intro e
  rw [← e, h.pid] at hi
  exact hi rfl

/-- The running process exits, `q` goes on, and the others are where they were or copied to its
stack. -/
theorem Ok.of_exit {c₁ : Addr → Process} (h : Ok c v)
    (hprocs : ∀ i, c₁ (.procs i) = zombied c v.cur (.procs i))
    (hq : q ∈ v.ready ∨ q = .stack (c v.cur).pid) (hnull : .null ∉ v'.places)
    (hpids : (v'.places.map fun a => (withStatus c₁ q .running a).pid).Perm
      ((v.ready ++ v.wait).map fun a => (c a).pid))
    (hcopy : ∀ i, .stack i ∈ v'.places → i = (c v.cur).pid ∨ .stack i ∈ v.places)
    (hs : Statuses (withStatus c₁ q .running) v') : Ok (withStatus c₁ q .running) v' := by
  set me := (c v.cur).pid with hme
  have hqi : ∀ i, .procs i = q → i ≠ me ∧ Live c i := by
    rintro i rfl
    have hr : .procs i ∈ v.ready := hq.resolve_right nofun
    have hpid := h.pid_ne (List.mem_append_left _ hr)
    have hl := h.live (.procs i) (List.mem_cons_of_mem _ (List.mem_append_left _ hr))
    rw [h.pid] at hpid hl
    exact ⟨hpid, hl⟩
  have hz : (withStatus c₁ q .running (.procs me)).status = .zombie := by
    rw [withStatus_of_ne fun e => (hqi me e).1 rfl, hprocs]
    exact zombied_status (.inr rfl)
  have hlive : ∀ i, i ≠ me → (Live (withStatus c₁ q .running) i ↔ Live c i) := by
    intro i hne
    by_cases hi : .procs i = q
    · rw [Live, hi, withStatus_self]
      exact ⟨fun _ => (hqi i hi).2, fun _ => ⟨nofun, nofun⟩⟩
    · rw [Live, withStatus_of_ne hi, hprocs, h.zombied_procs hne]
      rfl
  have hnd := List.nodup_cons.1 h.nodup
  refine
    { null := hnull
      nodup := hpids.nodup_iff.2 hnd.2
      running := hs.running
      isReady := hs.isReady
      isBlocked := hs.isBlocked
      pid := fun i => by rw [withStatus_pid, hprocs, zombied_pid, h.pid]
      live := fun a ha => ?_
      placed := fun i hi => ?_
      copy := fun i hi => ?_ }
  · have hmem := hpids.mem_iff.1 (List.mem_map_of_mem ha)
    obtain ⟨b, hb, hba⟩ := List.mem_map.1 hmem
    rw [← hba, hlive _ (h.pid_ne hb)]
    exact h.live b (List.mem_cons_of_mem _ hb)
  · have hne : i ≠ me := by
      rintro rfl
      exact hi.2 hz
    obtain ⟨b, hb, hbi⟩ := h.placed i ((hlive i hne).1 hi)
    have hb' : b ∈ v.ready ++ v.wait := by
      rcases List.mem_cons.1 hb with rfl | hb
      · exact absurd hbi.symm hne
      · exact hb
    have hmem := hpids.mem_iff.2 (List.mem_map_of_mem hb')
    obtain ⟨a, ha, hai⟩ := List.mem_map.1 hmem
    exact ⟨a, ha, hai.trans hbi⟩
  · by_cases hne : i = me
    · rw [hne]
      exact hz
    · have hzi := h.copy i ((hcopy i hi).resolve_left hne)
      rw [withStatus_of_ne fun e => (hqi i e).2.2 hzi, hprocs, h.zombied_procs hne]
      exact hzi

/-- The running process exits and nobody is woken. -/
theorem Ok.exit {c₁ : Addr → Process} (h : Ok c v) (hn : v.ready = q :: rest)
    (hsame : ∀ a, a ≠ .stack (c v.cur).pid → c₁ a = zombied c v.cur a) :
    Ok (withStatus c₁ q .running) ⟨q, rest, v.wait⟩ := by
  have hplaces : View.places ⟨q, rest, v.wait⟩ = v.ready ++ v.wait := by
    rw [View.places, hn, List.cons_append]
  have hold : ∀ a ∈ v.ready ++ v.wait, c₁ a = c a := by
    intro a ha
    rw [hsame, h.zombied_eq ha]
    rintro rfl
    exact h.stack_notMem (a := v.cur) List.mem_cons_self (List.mem_cons_of_mem _ ha)
  have hqne : ∀ a ∈ rest ++ v.wait, a ≠ q := by
    have hnd := (List.nodup_cons.1 h.nodup_places).2
    rw [hn, List.cons_append] at hnd
    exact fun a ha e => (List.nodup_cons.1 hnd).1 (e ▸ ha)
  have hs : Statuses (withStatus c₁ q .running) ⟨q, rest, v.wait⟩ := by
    refine ⟨withStatus_self, fun a ha => ?_, fun a ha => ?_⟩
    · have ha' : a ∈ v.ready := hn ▸ List.mem_cons_of_mem _ ha
      rw [withStatus_of_ne (hqne a (List.mem_append_left _ ha)),
        hold a (List.mem_append_left _ ha')]
      exact h.isReady a ha'
    · rw [withStatus_of_ne (hqne a (List.mem_append_right _ ha)),
        hold a (List.mem_append_right _ ha)]
      exact h.isBlocked a ha
  refine h.of_exit (fun i => hsame _ (by simp)) (.inl (by rw [hn]; exact List.mem_cons_self)) ?_ ?_
    (fun i hi => ?_) hs
  · rw [hplaces]
    exact fun hm => h.null (List.mem_cons_of_mem _ hm)
  · rw [hplaces]
    refine List.Perm.of_eq (List.map_congr_left fun a ha => ?_)
    rw [withStatus_pid, hold a ha]
  · rw [hplaces] at hi
    exact .inr (List.mem_cons_of_mem _ hi)

/-- The running process exits and its parent `p` is copied to its stack. -/
theorem Ok.wakeParent (h : Ok c v) (hw : v.wait = pre ++ p :: post)
    (hn : v.ready ++ [.stack (c v.cur).pid] = q :: rest) :
    Ok (withStatus (Function.update (zombied c v.cur) (.stack (c v.cur).pid)
      { c p with status := .ready }) q .running) ⟨q, rest, pre ++ post⟩ := by
  set me := (c v.cur).pid with hme
  set c₁ := Function.update (zombied c v.cur) (.stack me) { c p with status := .ready } with hc₁
  have hplaces : View.places ⟨q, rest, pre ++ post⟩ = v.ready ++ .stack me :: (pre ++ post) := by
    rw [View.places, ← List.cons_append, ← hn, List.append_assoc, List.singleton_append]
  have hstack : .stack me ∉ v.places := h.stack_notMem (a := v.cur) List.mem_cons_self
  have hsub : ∀ a ∈ v.ready ++ (pre ++ post), a ∈ v.ready ++ v.wait := by
    intro a ha
    rw [hw]
    simp only [List.mem_append, List.mem_cons] at ha ⊢
    tauto
  have hold : ∀ a ∈ v.ready ++ (pre ++ post), c₁ a = c a := by
    intro a ha
    have hne : a ≠ .stack me := by
      rintro rfl
      exact hstack (List.mem_cons_of_mem _ (hsub _ ha))
    rw [hc₁, Function.update_of_ne hne, h.zombied_eq (hsub a ha)]
  have hself : c₁ (.stack me) = { c p with status := .ready } := Function.update_self _ _ _
  have hqne : ∀ a ∈ rest ++ (pre ++ post), a ≠ q := by
    have hnd : (q :: (rest ++ (pre ++ post))).Nodup := by
      have : q :: (rest ++ (pre ++ post)) = v.ready ++ .stack me :: (pre ++ post) := hplaces
      rw [this, List.perm_middle.nodup_iff, List.nodup_cons]
      refine ⟨fun hm => hstack (List.mem_cons_of_mem _ (hsub _ hm)), ?_⟩
      have hnd := (List.nodup_cons.1 h.nodup_places).2
      rw [hw] at hnd
      refine hnd.sublist (List.Sublist.append_left ?_ _)
      exact List.Sublist.append_left (List.sublist_cons_self p post) pre
    exact fun a ha e => (List.nodup_cons.1 hnd).1 (e ▸ ha)
  have hs : Statuses (withStatus c₁ q .running) ⟨q, rest, pre ++ post⟩ := by
    refine ⟨withStatus_self, fun a ha => ?_, fun a ha => ?_⟩
    · rw [withStatus_of_ne (hqne a (List.mem_append_left _ ha))]
      have ha' : a ∈ v.ready ++ [.stack me] := hn ▸ List.mem_cons_of_mem _ ha
      rcases List.mem_append.1 ha' with ha' | ha'
      · rw [hold a (List.mem_append_left _ ha')]
        exact h.isReady a ha'
      · rw [List.mem_singleton.1 ha', hself]
    · rw [withStatus_of_ne (hqne a (List.mem_append_right _ ha)),
        hold a (List.mem_append_right _ ha)]
      refine h.isBlocked a ?_
      rw [hw]
      simp only [List.mem_append, List.mem_cons] at ha ⊢
      tauto
  refine h.of_exit (fun i => Function.update_of_ne (by simp) _ _) ?_ ?_ ?_ (fun i hi => ?_) hs
  · have hq : q ∈ v.ready ++ [.stack me] := hn ▸ List.mem_cons_self
    exact (List.mem_append.1 hq).imp_right List.mem_singleton.1
  · rw [hplaces, List.perm_middle.mem_iff]
    intro hm
    rcases List.mem_cons.1 hm with hm | hm
    · cases hm
    · exact h.null (List.mem_cons_of_mem _ (hsub _ hm))
  · -- the copy has the process id of the parent
    have hcopy : (View.places ⟨q, rest, pre ++ post⟩).map
        (fun a => (withStatus c₁ q .running a).pid) =
        (v.ready ++ p :: (pre ++ post)).map fun a => (c a).pid := by
      rw [hplaces, List.map_append, List.map_append, List.map_cons, List.map_cons, withStatus_pid,
        hself]
      congr 1
      · refine List.map_congr_left fun a ha => ?_
        rw [withStatus_pid, hold a (List.mem_append_left _ ha)]
      · congr 1
        refine List.map_congr_left fun a ha => ?_
        rw [withStatus_pid, hold a (List.mem_append_right _ ha)]
    rw [hcopy, hw]
    exact (List.Perm.append_left _ List.perm_middle.symm).map _
  · rw [hplaces, List.perm_middle.mem_iff] at hi
    rcases List.mem_cons.1 hi with hi | hi
    · exact .inl (Addr.stack.inj hi)
    · exact .inr (List.mem_cons_of_mem _ (hsub _ hi))

/-- **A step keeps the invariant.** -/
theorem Step.inv (hs : Step s v e s' v') (h : Inv s v) : Inv s' v' := by
  have hpid : s.pid = (s.core v.cur).pid := by
    rw [Sched.pid, h.queued.current]
    rfl
  cases hs with
  | fork free effect => exact ⟨effect.queued, effect.core ▸ h.ok.fork free⟩
  | rotate start next effect =>
    exact ⟨effect.queued, effect.core ▸ h.ok.rotate start.core next⟩
  | tick slice effect =>
    refine ⟨effect.queued, effect.core ▸ h.ok.congr (fun a => ?_) fun a => ?_⟩
    · by_cases ha : a = v.cur
      · rw [ha, Function.update_self]
      · rw [Function.update_of_ne ha]
    · by_cases ha : a = v.cur
      · rw [ha, Function.update_self]
      · rw [Function.update_of_ne ha]
  | sleep start next effect => exact ⟨effect.queued, effect.core ▸ h.ok.sleep start.core next⟩
  | semNew lt effect => exact ⟨effect.queued, effect.core ▸ h.ok⟩
  | semP high effect => exact ⟨effect.queued, effect.core ▸ h.ok⟩
  | semV nobody effect => exact ⟨effect.queued, effect.core ▸ h.ok⟩
  | wake high wait before sem effect => exact ⟨effect.queued, effect.core ▸ h.ok.wake wait⟩
  | wait result effect => exact ⟨effect.queued, effect.core ▸ h.ok⟩
  | exit alone next same effect =>
    rw [hpid] at same
    exact ⟨effect.queued, effect.core ▸ h.ok.exit next same⟩
  | wakeParent parent next effect =>
    rw [hpid] at next effect
    exact ⟨effect.queued, effect.core ▸ h.ok.wakeParent parent.wait next⟩

end HustOS.Proc
