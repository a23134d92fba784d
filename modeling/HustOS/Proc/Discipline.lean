import HustOS.Proc.Run

/-!
# The discipline of the queues

Without exit and wait no structure is ever copied and no process ends. Every process that exists is
then at exactly one place, with the status of that place, and as long as processes only fork, yield
and are interrupted the ready queue is served in its order: `n` calls of `schedule` dispatch the
first `n` processes of the queue, and what comes in goes behind the others (`Turns.queue`).
-/

namespace HustOS.Proc

open Foundations

variable {s s' s₁ : Sched} {v v₁ : View} {e : Event} {n : ℕ}

/-! ## Runs without exit and wait -/

/-- The events other than exit and wait. -/
def Event.Plain : Event → Prop
  | .exit => False
  | .wait _ => False
  | _ => True

instance (e : Event) : Decidable e.Plain :=
  match e with
  | .exit => .isFalse not_false
  | .wait _ => .isFalse not_false
  | .fork => .isTrue trivial
  | .yield => .isTrue trivial
  | .tick _ => .isTrue trivial
  | .semNew _ => .isTrue trivial
  | .semP _ => .isTrue trivial
  | .semV _ => .isTrue trivial

/-- The processes are at the places `cur`, `ready` and `wait`, one each, with the status of the
place. -/
structure Placed (s : Sched) (cur : Fin NPROC) (ready wait : List (Fin NPROC)) : Prop where
  current : s.current = .procs cur
  readyQueue : Chain .null (nextOf s.mem) s.readyQueueHead (ready.map .procs)
  waitQueue : Chain .null (nextOf s.mem) s.waitQueueHead (wait.map .procs)
  nodup : (cur :: (ready ++ wait)).Nodup
  everyone : ∀ i, (s.mem (.procs i)).status ≠ .free ↔ i ∈ cur :: (ready ++ wait)
  running : (s.mem (.procs cur)).status = .running
  isReady : ∀ i ∈ ready, (s.mem (.procs i)).status = .ready
  isBlocked : ∀ i ∈ wait, (s.mem (.procs i)).status = .blocked

/-- The elements of `procs[]` in a list of addresses. -/
theorem exists_map_procs {l : List Addr} (h : ∀ a ∈ l, ∃ i, a = Addr.procs i) :
    ∃ l' : List (Fin NPROC), l = l'.map .procs := by
  induction l with
  | nil => exact ⟨[], rfl⟩
  | cons a l ih =>
    obtain ⟨i, rfl⟩ := h a List.mem_cons_self
    obtain ⟨l', rfl⟩ := ih fun a ha => h a (List.mem_cons_of_mem _ ha)
    exact ⟨i :: l', rfl⟩

/-- The places of a state without copies and zombies. -/
theorem Inv.placed (h : Inv s v) (hown : v.Own)
    (hz : ∀ i, (s.core (.procs i)).status ≠ .zombie) :
    ∃ cur ready wait, Placed s cur ready wait ∧
      v = ⟨.procs cur, ready.map .procs, wait.map .procs⟩ := by
  obtain ⟨cur, ready, wait⟩ := v
  obtain ⟨cur, rfl⟩ := hown _ List.mem_cons_self
  obtain ⟨ready, rfl⟩ := exists_map_procs fun a ha =>
    hown a (List.mem_cons_of_mem _ (List.mem_append_left _ ha))
  obtain ⟨wait, rfl⟩ := exists_map_procs fun a ha =>
    hown a (List.mem_cons_of_mem _ (List.mem_append_right _ ha))
  have hplaces : View.places ⟨.procs cur, ready.map .procs, wait.map .procs⟩ =
      (cur :: (ready ++ wait)).map .procs := by
    simp [View.places]
  have hmem : ∀ i, Addr.procs i ∈ (cur :: (ready ++ wait)).map Addr.procs ↔
      i ∈ cur :: (ready ++ wait) := fun i => List.mem_map_of_injective fun _ _ => Addr.procs.inj
  refine ⟨cur, ready, wait, ?_, rfl⟩
  refine
    { current := h.queued.current
      readyQueue := h.queued.ready
      waitQueue := h.queued.wait
      nodup := ?_
      everyone := fun i => ⟨fun hi => ?_, fun hi => ?_⟩
      running := h.ok.running
      isReady := fun i hi => h.ok.isReady _ (List.mem_map_of_mem hi)
      isBlocked := fun i hi => h.ok.isBlocked _ (List.mem_map_of_mem hi) }
  · have hn := h.ok.nodup_places
    rw [hplaces] at hn
    exact hn.of_map
  · obtain ⟨a, ha, hai⟩ := h.ok.placed i ⟨hi, hz i⟩
    obtain ⟨j, rfl⟩ := hown a ha
    rw [h.ok.pid] at hai
    rw [hplaces, hmem] at ha
    exact hai ▸ ha
  · have hl := h.ok.live (.procs i) (by rw [hplaces, hmem]; exact hi)
    rw [h.ok.pid] at hl
    exact hl.1

/-- In a run without exit and wait no structure is a copy and no process a zombie. -/
theorem Run.own (h : Run (fun _ e => e.Plain) s) :
    ∃ v, Inv s v ∧ v.Own ∧ ∀ i, (s.core (.procs i)).status ≠ .zombie := by
  refine h.keeps (I := fun s v => v.Own ∧ ∀ i, (s.core (.procs i)).status ≠ .zombie) ?_ ?_
  · intro junk
    refine ⟨fun a ha => ⟨0, List.mem_singleton.1 ha⟩, fun i => ?_⟩
    by_cases hi : i = 0
    · rw [hi]
      exact nofun
    · rw [started_of_ne hi]
      exact nofun
  · rintro s v e s' v' hplain h ⟨hown, hz⟩ hs
    have hexit : e ≠ .exit := by
      rintro rfl
      exact hplain
    refine ⟨hs.own hown fun e => absurd e hexit, fun i hi => ?_⟩
    rcases (hs.zombie_iff h i).1 hi with hi | ⟨he, -⟩
    · exact hz i hi
    · exact hexit he

/-! ## Turns -/

/-- The events fork, yield and tick. -/
def Event.IsTurn : Event → Prop
  | .fork => True
  | .yield => True
  | .tick _ => True
  | _ => False

/-- How often a fork, a yield or a tick calls `schedule`. -/
def scheduleCalls (s : Sched) : Event → ℕ
  | .yield => 1
  | .tick _ => if (s.mem s.current).tickCount + 1 ≥ 2 then 1 else 0
  | _ => 0

/-- Forks, yields and ticks with `n` calls of `schedule`. -/
inductive Turns (s : Sched) : ℕ → Sched → Prop
  | refl : Turns s 0 s
  | step {n : ℕ} {s₁ s₂ : Sched} {e : Event} (turns : Turns s n s₁) (turn : e.IsTurn)
      (exec : exec e s₁ = .ok s₂) : Turns s (n + scheduleCalls s₁ e) s₂

/-- What a fork, a yield or a tick does to the running process and the ready queue. -/
theorem Step.turn (hs : Step s v e s' v₁) (h : Inv s v) (he : e.IsTurn) :
    scheduleCalls s e = 0 ∧ v₁.cur = v.cur ∧ (∃ ys, v₁.ready = v.ready ++ ys) ∨
      scheduleCalls s e = 1 ∧ v.ready ++ [v.cur] = v₁.cur :: v₁.ready := by
  have htick : (s.mem s.current).tickCount = (s.core v.cur).tickCount := by
    rw [h.queued.current]
    rfl
  cases hs with
  | fork free effect => exact .inl ⟨rfl, rfl, _, rfl⟩
  | rotate start next effect =>
    refine .inr ⟨?_, next⟩
    cases start with
    | yield => rfl
    | tick expired => rw [scheduleCalls, htick, if_pos expired]
  | tick slice effect =>
    refine .inl ⟨?_, rfl, [], (List.append_nil _).symm⟩
    rw [scheduleCalls, htick, if_neg (not_le.2 slice)]
  | sleep start next effect => cases start <;> cases he
  | semNew lt effect => cases he
  | semP high effect => cases he
  | semV nobody effect => cases he
  | wake high wait before sem effect => cases he
  | wait result effect => cases he
  | exit alone next same effect => cases he
  | wakeParent parent next effect => cases he

/-- After `n` calls of `schedule` the first `n` processes of the ready queue are gone, the others
stand as before, and new ones behind them. -/
theorem Turns.queue (ht : Turns s n s₁) (h : Inv s v) (hn : n ≤ v.ready.length) :
    ∃ v₁, Inv s₁ v₁ ∧ ∃ ys, v₁.ready = v.ready.drop n ++ ys := by
  induction ht with
  | refl => exact ⟨v, h, [], (List.append_nil _).symm⟩
  | @step n s₁ s₂ e turns turn exec ih =>
    obtain ⟨v₁, h₁, ys, hys⟩ := ih (by omega)
    obtain ⟨v₂, hs⟩ := exec_step h₁ exec
    refine ⟨v₂, hs.inv h₁, ?_⟩
    rcases hs.turn h₁ turn with ⟨hc, -, zs, hzs⟩ | ⟨hc, hnext⟩
    · exact ⟨ys ++ zs, by rw [hzs, hys, hc, List.append_assoc, Nat.add_zero]⟩
    · rw [hc] at hn ⊢
      rw [hys, List.drop_eq_getElem_cons (by omega)] at hnext
      rw [List.append_assoc, List.cons_append] at hnext
      exact ⟨ys ++ [v₁.cur], (List.cons.inj hnext).2.symm⟩

/-! ## Every call of `schedule` dispatches -/

namespace Queued

/-- A process that is queued finds the ready queue with somebody to run. -/
theorem rotates (h : Queued s v) (hcur : v.cur ∉ v.ready ∧ v.cur ∉ v.wait) (hnull : v.cur ≠ .null)
    (hs : ∀ a ∈ v.ready, (s.core a).status = .ready) :
    ∃ s', (Proc.insertToReadyQueue s.current s >>= schedule 0) = .ok s' := by
  obtain ⟨s₁, h₁, hm⟩ := h.insertToReadyQueue hcur.1 hcur.2 hnull
  obtain ⟨q, rest, hq⟩ : ∃ q rest, v.ready ++ [v.cur] = q :: rest := by
    cases v.ready with
    | nil => exact ⟨_, _, rfl⟩
    | cons a l => exact ⟨_, _, rfl⟩
  have hstatus : (coreOf s₁.mem q).status = .ready := by
    have hmem : q ∈ v.ready ++ [v.cur] := hq ▸ List.mem_cons_self
    rw [hm.core]
    by_cases hqc : q = v.cur
    · rw [hqc, withStatus_self]
    · rw [withStatus_of_ne hqc]
      exact hs q ((List.mem_append.1 hmem).resolve_right fun hm => hqc (List.mem_singleton.1 hm))
  obtain ⟨s₂, h₂, -⟩ := hm.queued.dispatch hq hstatus
  have hne : s₁.readyQueueHead ≠ .null := by
    have hready := hm.queued.ready
    rw [hq] at hready
    exact hready.1 ▸ hready.2.1
  refine ⟨s₂, ?_⟩
  rw [h.current, h₁, ok_bind, schedule, if_neg (by simp), if_neg hne, h₂]

end Queued

theorem rrsched_total (h : Inv s v) (hover : (s.mem s.current).tickCount + 1 ≥ 2) :
    ∃ s', rrsched s = .ok s' := by
  obtain ⟨hq, hs⟩ := h.write_cur { s.mem v.cur with tickCount := 0 }
  obtain ⟨s', hs'⟩ := hq.rotates h.ok.cur_notMem h.ok.cur_ne hs
  rw [← h.queued.current] at hs'
  refine ⟨s', ?_⟩
  unfold rrsched
  rw [if_pos hover]
  exact hs'

/-- A fork, yield or tick that calls `schedule` returns. -/
theorem Inv.exec_total (h : Inv s v) (hc : scheduleCalls s e = 1) : ∃ s', exec e s = .ok s' := by
  have hnull : s.current ≠ .null := h.queued.current ▸ h.ok.cur_ne
  have h₀ := h.trapped (s.saved e)
  have hexec : ∀ s', handle e { s with a0 := s.saved e } = .ok (none, s') → exec e s = .ok s' := by
    intro s' hs'
    rw [exec, if_neg hnull]
    change (handle e { s with a0 := s.saved e } >>= _) = _
    rw [hs']
    rfl
  cases e with
  | yield =>
    obtain ⟨s', hs'⟩ := h₀.queued.rotates h.ok.cur_notMem h.ok.cur_ne h.ok.isReady
    refine ⟨s', hexec s' ?_⟩
    rw [handle, sysUserYield, hs']
    rfl
  | tick a0 =>
    have hover : (s.mem s.current).tickCount + 1 ≥ 2 := by
      by_contra hlt
      rw [scheduleCalls, if_neg hlt] at hc
      cases hc
    obtain ⟨s', hs'⟩ := rrsched_total h₀ hover
    refine ⟨s', hexec s' ?_⟩
    rw [handle, hs']
    rfl
  | fork => cases hc
  | wait pid => cases hc
  | exit => cases hc
  | semNew a1 => cases hc
  | semP a1 => cases hc
  | semV a1 => cases hc

/-! ## The discipline -/

/-- As long as only forks, yields and ticks occur, the process at position `k` of the queue `ready`
is dispatched by the `k + 1`-th call of `schedule` from the state on and by none before. -/
def Fifo (s : Sched) (ready : List (Fin NPROC)) : Prop :=
  ∀ (k : ℕ) (hk : k < ready.length) (n : ℕ) (s₁ : Sched) (e : Event), n ≤ k → Turns s n s₁ →
    scheduleCalls s₁ e = 1 →
    ∃ s₂, exec e s₁ = .ok s₂ ∧ (s₂.current = .procs ready[k] ↔ n = k)

theorem Inv.fifo {ready : List (Fin NPROC)} (h : Inv s v) (hready : v.ready = ready.map .procs) :
    Fifo s ready := by
  intro k hk n s₁ e hn ht hc
  have hlen : v.ready.length = ready.length := by rw [hready, List.length_map]
  obtain ⟨v₁, h₁, ys, hys⟩ := ht.queue h (by omega)
  obtain ⟨s₂, he⟩ := h₁.exec_total hc
  refine ⟨s₂, he, ?_⟩
  obtain ⟨v₂, hs⟩ := exec_step h₁ he
  have hturn : e.IsTurn := by
    cases e with
    | yield => trivial
    | tick a0 => trivial
    | fork => cases hc
    | wait pid => cases hc
    | exit => cases hc
    | semNew a1 => cases hc
    | semP a1 => cases hc
    | semV a1 => cases hc
  have hlt : n < ready.length := by omega
  have hnext : Addr.procs ready[n] = v₂.cur := by
    rcases hs.turn h₁ hturn with ⟨h0, -⟩ | ⟨-, hnext⟩
    · rw [hc] at h0
      cases h0
    · rw [hys, List.drop_eq_getElem_cons (hlen ▸ hlt)] at hnext
      rw [← (List.cons.inj hnext).1]
      simp [hready]
  have hnodup : ready.Nodup := by
    have hn := (List.nodup_append.1 h.queued.nodup).1
    rw [hready] at hn
    exact hn.of_map
  rw [(hs.inv h₁).queued.current, ← hnext, Addr.procs.injEq, hnodup.getElem_inj_iff]

/-- **Queue discipline.** In every state of a run of forks, yields, ticks and semaphore operations
each process that exists is in one of the three places, once and with the status of that place, the
two queues are lists, and the ready queue is served in its order. -/
theorem queue_discipline (h : Run (fun _ e => e.Plain) s) :
    ∃ cur ready wait, Placed s cur ready wait ∧ Fifo s ready := by
  obtain ⟨v, hv, hown, hz⟩ := h.own
  obtain ⟨cur, ready, wait, hp, rfl⟩ := hv.placed hown hz
  exact ⟨cur, ready, wait, hp, hv.fifo rfl⟩

theorem queue_discipline_two_children :
    ∃ s, Run (fun _ e => e.Plain) s ∧ s.readyQueue = [.procs 2, .procs 0] ∧
      ∃ cur ready wait, Placed s cur ready wait ∧ Fifo s ready := by
  obtain ⟨s, hs, -, ht⟩ := exists_run (C := fun _ e => e.Plain) [.fork, .fork, .yield]
    (fun s => s.readyQueue = [.procs 2, .procs 0]) (by decide +kernel)
  exact ⟨s, hs, of_decide_eq_true ht, queue_discipline hs⟩

end HustOS.Proc
