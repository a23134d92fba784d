import HustOS.Proc.Run

/-!
# Semaphores

`sem_P` takes one off the counter of a semaphore and sleeps if it becomes negative; `sem_V` adds one
and wakes a sleeper if the counter is then *not* negative. So a `sem_V` with two or more sleepers
wakes nobody, and the number of sleepers is the negative part of the counter only as long as `sem_V`
is called with at most one of them (`waiting_of_run`).

Safety does not suffer: the sum of the counter and the sleepers is never negative, which bounds the
number of completed calls of `sem_P` by the initial value and the number of calls of `sem_V`
(`completed_le`).
-/

namespace HustOS.Proc

open Foundations

variable {s s' : Sched} {v v' : View} {e : Event} {a1 : ℤ} {p : Addr} {pre post : List Addr}

/-- The events of a run of semaphores: no exit, no wait, and initial values that are not
negative. -/
def Event.IsSem : Event → Prop
  | .exit => False
  | .wait _ => False
  | .semNew a1 => 0 ≤ a1
  | _ => True

instance (e : Event) : Decidable e.IsSem :=
  match e with
  | .exit => .isFalse not_false
  | .wait _ => .isFalse not_false
  | .semNew a1 => inferInstanceAs (Decidable (0 ≤ a1))
  | .fork => .isTrue trivial
  | .yield => .isTrue trivial
  | .tick _ => .isTrue trivial
  | .semP _ => .isTrue trivial
  | .semV _ => .isTrue trivial

/-! ## The sleepers of a semaphore -/

/-- The number of processes in the wait queue whose field `sem` is `a1`. -/
def Sched.waiting (s : Sched) (a1 : ℤ) : ℕ := s.waitQueue.countP fun p => (s.mem p).sem = a1

/-- The sleepers are the negative part of the counters. -/
def Balanced (s : Sched) : Prop :=
  ∀ a1, (s.waiting a1 : ℤ) = if s.l a1 < 0 then -s.l a1 else 0

/-- A structure with the semaphore `a1` goes from the wait queue to the ready queue. -/
def WakesOne (s : Sched) (a1 : ℤ) (s' : Sched) : Prop :=
  ∃ pre p post, s.waitQueue = pre ++ p :: post ∧ (s.mem p).sem = a1 ∧
    s'.waitQueue = pre ++ post ∧ s'.readyQueue = p :: s.readyQueue

/-- A `sem_V` with a sleeper wakes one. -/
def Wakes (s : Sched) (e : Event) (s' : Sched) : Prop :=
  ∀ a1, e = .semV a1 → 0 < s.waiting a1 → WakesOne s a1 s'

/-- `sem_V` is called with at most one process to wake, and `sem_new` where nobody sleeps yet on the
semaphore it makes. -/
def AtMostOne (s : Sched) : Event → Prop
  | .semV a1 => -1 ≤ s.l a1
  | .semNew _ => 0 ≤ s.l (s.len + 1)
  | _ => True

instance (s : Sched) (e : Event) : Decidable (AtMostOne s e) :=
  match e with
  | .semV a1 => inferInstanceAs (Decidable (-1 ≤ s.l a1))
  | .semNew _ => inferInstanceAs (Decidable (0 ≤ s.l (s.len + 1)))
  | .exit => .isTrue trivial
  | .wait _ => .isTrue trivial
  | .fork => .isTrue trivial
  | .yield => .isTrue trivial
  | .tick _ => .isTrue trivial
  | .semP _ => .isTrue trivial

theorem Inv.waiting (h : Inv s v) (a1 : ℤ) :
    s.waiting a1 = v.wait.countP fun p => (s.core p).sem = a1 := by
  rw [Sched.waiting, h.queued.waitQueue]
  rfl

/-- What a step of a run of semaphores does to the semaphore `b`. -/
inductive SemChange (s s' : Sched) (b : ℤ) : Event → Prop
  | same {e : Event} (quiet : e ≠ .semV b) (old : ∀ a1, e = .semNew a1 → b ≠ s.len + 1)
      (waiting : s'.waiting b = s.waiting b) (l : s'.l b = s.l b) : SemChange s s' b e
  | new {a1 : ℤ} (fresh : b = s.len + 1) (waiting : s'.waiting b = s.waiting b) (l : s'.l b = a1) :
      SemChange s s' b (.semNew a1)
  | taken (high : 0 ≤ s.l b - 1) (waiting : s'.waiting b = s.waiting b) (l : s'.l b = s.l b - 1) :
      SemChange s s' b (.semP b)
  | asleep (low : s.l b - 1 < 0) (waiting : s'.waiting b = s.waiting b + 1)
      (l : s'.l b = s.l b - 1) : SemChange s s' b (.semP b)
  | nobody (none : 0 ≤ s.l b + 1 → s.waiting b = 0) (waiting : s'.waiting b = s.waiting b)
      (l : s'.l b = s.l b + 1) : SemChange s s' b (.semV b)
  | woken (high : 0 ≤ s.l b + 1) (one : WakesOne s b s') (waiting : s'.waiting b + 1 = s.waiting b)
      (l : s'.l b = s.l b + 1) : SemChange s s' b (.semV b)

theorem Step.semChange (hs : Step s v e s' v') (h : Inv s v) (he : e.IsSem) (b : ℤ) :
    SemChange s s' b e := by
  have h' := hs.inv h
  have hcount := h.waiting b
  have hcount' := h'.waiting b
  have hsem : ∀ p ∈ v.wait, (s'.core p).sem = (s.core p).sem := fun p hp => hs.sem_eq h hp
  have hold : (v.wait.countP fun p => (s'.core p).sem = b) = s.waiting b := by
    rw [hcount]
    exact List.countP_congr fun p hp => by rw [hsem p hp]
  cases hs with
  | fork free effect => exact .same nofun nofun (hcount'.trans hold) (by rw [effect.l])
  | rotate start next effect =>
    refine .same ?_ ?_ (hcount'.trans hold) (by rw [effect.l])
    · cases start <;> exact nofun
    · cases start <;> exact nofun
  | tick slice effect => exact .same nofun nofun (hcount'.trans hold) (by rw [effect.l])
  | sleep start next effect =>
    cases start with
    | wait child alive => exact he.elim
    | @semP a1 low =>
      have hself : (s'.core v.cur).sem = a1 := by
        rw [effect.core, withStatus_sem, withStatus_sem, Function.update_self]
      rw [List.countP_append, hold, List.countP_singleton, hself] at hcount'
      by_cases hb : b = a1
      · subst hb
        refine .asleep low ?_ (by rw [effect.l, Function.update_self])
        simpa using hcount'
      · refine .same nofun nofun ?_ (by rw [effect.l, Function.update_of_ne hb])
        simpa [Ne.symm hb] using hcount'
  | @semNew a1 s' lt effect =>
    rw [hold] at hcount'
    by_cases hb : b = s.len + 1
    · refine .new hb hcount' ?_
      rw [effect.l, hb, Function.update_self]
    · refine .same nofun (fun _ _ => hb) hcount' ?_
      rw [effect.l, Function.update_of_ne hb]
  | @semP a1 s' high effect =>
    rw [hold] at hcount'
    by_cases hb : b = a1
    · subst hb
      refine .taken high hcount' ?_
      rw [effect.l, Function.update_self]
    · refine .same nofun nofun hcount' ?_
      rw [effect.l, Function.update_of_ne hb]
  | @semV a1 s' nobody effect =>
    rw [hold] at hcount'
    by_cases hb : b = a1
    · subst hb
      refine .nobody (fun hl => ?_) hcount' ?_
      · rw [hcount, List.countP_eq_zero]
        intro p hp
        simpa using nobody hl p hp
      · rw [effect.l, Function.update_self]
    · refine .same (fun e => hb (Event.semV.inj e).symm) nofun hcount' ?_
      rw [effect.l, Function.update_of_ne hb]
  | @wake a1 s' pre post p high wait before sem effect =>
    have hrest : (pre ++ post).countP (fun p => (s'.core p).sem = b) =
        (pre ++ post).countP fun p => (s.core p).sem = b :=
      List.countP_congr fun p _ => by rw [effect.core, withStatus_sem]
    rw [hrest, List.countP_append] at hcount'
    rw [wait, List.countP_append, List.countP_cons, sem] at hcount
    by_cases hb : b = a1
    · subst hb
      refine .woken high ⟨pre, p, post, ?_, sem, ?_, ?_⟩ ?_ ?_
      · rw [h.queued.waitQueue, wait]
      · exact h'.queued.waitQueue
      · rw [h'.queued.readyQueue, h.queued.readyQueue]
      · simp only [decide_true, if_true] at hcount
        omega
      · rw [effect.l, Function.update_self]
    · refine .same (fun e => hb (Event.semV.inj e).symm) nofun ?_ ?_
      · simp only [Ne.symm hb, decide_false, Bool.false_eq_true, if_false] at hcount
        omega
      · rw [effect.l, Function.update_of_ne hb]
  | wait result effect => exact he.elim
  | exit alone next same effect => exact he.elim
  | wakeParent parent next effect => exact he.elim

/-- A step under the condition keeps the balance. -/
theorem SemChange.balanced {b : ℤ} (hc : SemChange s s' b e) (he : e.IsSem) (hone : AtMostOne s e)
    (hb : Balanced s) : (s'.waiting b : ℤ) = if s'.l b < 0 then -s'.l b else 0 := by
  have hold := hb b
  cases hc with
  | same quiet old waiting l => rwa [waiting, l]
  | new fresh waiting l =>
    have hfree : ¬ s.l b < 0 := fresh ▸ not_lt.2 hone
    have hinit : ¬ s'.l b < 0 := l ▸ not_lt.2 he
    rw [waiting, hold, if_neg hfree, if_neg hinit]
  | taken high waiting l =>
    rw [waiting, hold, l, if_neg (by omega), if_neg (by omega)]
  | asleep low waiting l =>
    rw [waiting, l, if_pos low]
    split at hold <;> omega
  | nobody none waiting l =>
    have hl : -1 ≤ s.l b := hone
    rw [waiting, l, none (by omega), if_neg (by omega)]
    rfl
  | woken high one waiting l =>
    have hl : -1 ≤ s.l b := hone
    rw [l, if_neg (by omega)]
    split at hold <;> omega

/-- A step keeps the balance and wakes a sleeper where it should, exactly under the condition. -/
theorem Step.balanced_iff (hs : Step s v e s' v') (h : Inv s v) (he : e.IsSem) (hb : Balanced s) :
    Balanced s' ∧ Wakes s e s' ↔ AtMostOne s e := by
  constructor
  · rintro ⟨hb', -⟩
    cases e with
    | semV a1 =>
      change -1 ≤ s.l a1
      have hold := hb a1
      have hnew := hb' a1
      cases hs.semChange h he a1 with
      | same quiet old waiting l => exact absurd rfl quiet
      | nobody none waiting l =>
        rw [waiting, l] at hnew
        split at hold <;> split at hnew <;> omega
      | woken high one waiting l => omega
    | semNew a1 =>
      change 0 ≤ s.l (s.len + 1)
      have hinit : 0 ≤ a1 := he
      have hold := hb (s.len + 1)
      have hnew := hb' (s.len + 1)
      cases hs.semChange h he (s.len + 1) with
      | same quiet old waiting l => exact absurd rfl (old a1 rfl)
      | new fresh waiting l =>
        rw [waiting, l, if_neg (not_lt.2 hinit)] at hnew
        split at hold <;> omega
    | fork => trivial
    | yield => trivial
    | tick a0 => trivial
    | wait pid => trivial
    | exit => trivial
    | semP a1 => trivial
  · intro hone
    refine ⟨fun b => (hs.semChange h he b).balanced he hone hb, ?_⟩
    rintro a1 rfl hpos
    have hl : -1 ≤ s.l a1 := hone
    cases hs.semChange h he a1 with
    | same quiet old waiting l => exact absurd rfl quiet
    | nobody none waiting l => exact absurd (none (by omega)) hpos.ne'
    | woken high one waiting l => exact one

/-- **No wake-up is lost as long as `sem_V` finds at most one sleeper**, and one is lost
otherwise. -/
theorem waiting_of_run (h : Run (fun s e => e.IsSem ∧ AtMostOne s e) s) :
    Balanced s ∧ ∀ e s', e.IsSem → exec e s = .ok s' →
      (Balanced s' ∧ Wakes s e s' ↔ AtMostOne s e) := by
  have hinit : ∀ junk, Balanced (started junk) := by
    intro junk a1
    rw [(started_inv junk).waiting]
    rfl
  obtain ⟨v, hv, hb⟩ := h.keeps (I := fun s _ => Balanced s) hinit
    fun s v e s' v' hC hv hb hs => ((hs.balanced_iff hv hC.1 hb).2 hC.2).1
  refine ⟨hb, fun e s' he hx => ?_⟩
  obtain ⟨v', hs⟩ := exec_step hv hx
  exact hs.balanced_iff hv he hb

theorem waiting_of_run_one_sleeper :
    ∃ s, Run (fun s e => e.IsSem ∧ AtMostOne s e) s ∧ s.waiting 1 = 1 ∧ s.l 1 = -1 ∧
      Balanced s := by
  obtain ⟨s, hs, -, ht⟩ := exists_run (C := fun s e => e.IsSem ∧ AtMostOne s e)
    [.fork, .semNew 1, .semP 1, .semV 1, .semP 1, .semP 1]
    (fun s => s.waiting 1 = 1 ∧ s.l 1 = -1) (by decide +kernel)
  obtain ⟨hw, hl⟩ := of_decide_eq_true ht
  exact ⟨s, hs, hw, hl, (waiting_of_run hs).1⟩

/-- Two processes sleep on a semaphore; `sem_V` wakes none of them. -/
theorem wakeup_lost : ∃ s s', Run (fun _ e => e.IsSem) s ∧ s.waiting 1 = 2 ∧ s.l 1 = -2 ∧
    exec (.semV 1) s = .ok s' ∧ s'.waiting 1 = 2 ∧ s'.l 1 = -1 ∧ ¬ Balanced s' := by
  obtain ⟨s', -, hs', ht'⟩ := exists_run (C := fun _ e => e.IsSem)
    [.fork, .fork, .semNew 0, .semP 1, .semP 1, .semV 1]
    (fun s => s.waiting 1 = 2 ∧ s.l 1 = -1) (by decide +kernel)
  obtain ⟨s, hs, he⟩ := execAll_append.1
    (show execAll _ ([.fork, .fork, .semNew 0, .semP 1, .semP 1] ++ [.semV 1]) _ = _ from hs')
  have htest : (execAll (fun _ e => e.IsSem) [.fork, .fork, .semNew 0, .semP 1, .semP 1]
      (started blank)).all (fun s => s.waiting 1 = 2 ∧ s.l 1 = -2) = true := by decide +kernel
  rw [hs] at htest
  obtain ⟨hw, hl⟩ := of_decide_eq_true htest
  obtain ⟨hw', hl'⟩ := of_decide_eq_true ht'
  refine ⟨s, s', (Run.init blank (sStart_eq blank)).execAll hs, hw, hl, (execAll_singleton.1 he).2,
    hw', hl', fun hb => ?_⟩
  have h1 := hb 1
  rw [hw', hl'] at h1
  exact absurd h1 (by decide)

/-! ## Completed calls -/

/-- The semaphore has been made. -/
def Made (s : Sched) (a1 : ℤ) : Prop := 1 ≤ a1 ∧ a1 ≤ s.len

instance (s : Sched) (a1 : ℤ) : Decidable (Made s a1) := inferInstanceAs (Decidable (_ ∧ _))

/-- The semaphore on which the event is a `sem_P`. -/
def Event.takes (s : Sched) : Event → Option ℤ
  | .semP a1 => if Made s a1 then some a1 else none
  | _ => none

/-- The semaphore on which the event is a `sem_V`. -/
def Event.gives (s : Sched) : Event → Option ℤ
  | .semV a1 => if Made s a1 then some a1 else none
  | _ => none

/-- The calls on the semaphores that exist at the time of the call. -/
structure Ledger where
  /-- The initial value of a semaphore. -/
  initial : ℤ → ℤ
  /-- The calls of `sem_P` that have completed. -/
  completed : ℤ → ℕ
  /-- The calls of `sem_V`. -/
  given : ℤ → ℕ
  /-- The semaphore on which a process of the wait queue has called `sem_P`. -/
  asleep : Addr → Option ℤ

/-- Nothing has been called. -/
def Ledger.empty : Ledger := ⟨fun _ => 0, fun _ => 0, fun _ => 0, fun _ => none⟩

/-- A call of `sem_P` completes where the process is not in the wait queue after the event: the
caller if it returns at once, a sleeper if it is woken. -/
def Ledger.after (g : Ledger) (s : Sched) (e : Event) (s' : Sched) : Ledger where
  initial :=
    match e with
    | .semNew a1 => Function.update g.initial (s.len + 1) a1
    | _ => g.initial
  completed a1 := g.completed a1 +
    (s.waitQueue.countP fun p => p ∉ s'.waitQueue ∧ g.asleep p = some a1) +
    if e.takes s = some a1 ∧ s.current ∉ s'.waitQueue then 1 else 0
  given a1 := g.given a1 + if e.gives s = some a1 then 1 else 0
  asleep p :=
    if p ∉ s'.waitQueue then none
    else if p ∈ s.waitQueue then g.asleep p
    else e.takes s

/-- The runs of semaphores with their ledgers. -/
inductive Counted : Sched → Ledger → Prop
  | init {s : Sched} (junk : Addr → Process) (start : sStart junk = .ok s) : Counted s .empty
  | step {s s' : Sched} {g : Ledger} {e : Event} (run : Counted s g) (cond : e.IsSem)
      (exec : exec e s = .ok s') : Counted s' (g.after s e s')

/-- The number of calls of `sem_P` that sleep. -/
def Ledger.sleeping (g : Ledger) (v : View) (a1 : ℤ) : ℕ :=
  v.wait.countP fun p => g.asleep p = some a1

/-- Completed calls, sleeping calls and the counter make up what was given, and the last two are not
negative. -/
structure Books (s : Sched) (v : View) (g : Ledger) : Prop where
  account : ∀ a1, Made s a1 → g.completed a1 + g.sleeping v a1 + s.l a1 = g.initial a1 + g.given a1
  enough : ∀ a1, Made s a1 → 0 ≤ s.l a1 + g.sleeping v a1
  unmade : ∀ a1, ¬ Made s a1 → g.completed a1 = 0 ∧ g.given a1 = 0 ∧ g.initial a1 = 0
  asleep : ∀ p a1, g.asleep p = some a1 → p ∈ v.wait ∧ Made s a1 ∧ (s.core p).sem = a1
  len : 0 ≤ s.len

variable {g : Ledger}

/-- An event that leaves the wait queue alone. -/
theorem Books.after_same (hb : Books s v g) (h : Inv s v) (h' : Inv s' v')
    (hw : v'.wait = v.wait) :
    (g.after s e s').asleep = g.asleep ∧
      (∀ a1, (g.after s e s').completed a1 =
        g.completed a1 + if e.takes s = some a1 then 1 else 0) := by
  have hq : s.waitQueue = v.wait := h.queued.waitQueue
  have hq' : s'.waitQueue = v.wait := h'.queued.waitQueue.trans hw
  refine ⟨funext fun p => ?_, fun a1 => ?_⟩
  · simp only [Ledger.after, hq, hq']
    by_cases hp : p ∈ v.wait
    · simp [hp]
    · cases hg : g.asleep p with
      | none => simp [hp]
      | some a1 => exact absurd (hb.asleep p a1 hg).1 hp
  · have hzero : (v.wait.countP fun p => p ∉ v.wait ∧ g.asleep p = some a1) = 0 := by
      rw [List.countP_eq_zero]
      intro p hp
      simp [hp]
    have hcur : s.current ∉ v.wait := h.queued.current ▸ h.ok.cur_notMem.2
    simp only [Ledger.after, hq, hq', hzero, hcur, not_false_eq_true, and_true, Nat.add_zero]

/-- The running process joins the wait queue. -/
theorem Books.after_sleep (hb : Books s v g) (h : Inv s v) (h' : Inv s' v')
    (hw : v'.wait = v.wait ++ [v.cur]) :
    (g.after s e s').asleep = Function.update g.asleep v.cur (e.takes s) ∧
      (g.after s e s').completed = g.completed := by
  have hq : s.waitQueue = v.wait := h.queued.waitQueue
  have hq' : s'.waitQueue = v.wait ++ [v.cur] := h'.queued.waitQueue.trans hw
  have hcur := h.ok.cur_notMem.2
  refine ⟨funext fun p => ?_, funext fun a1 => ?_⟩
  · simp only [Ledger.after, hq, hq', List.mem_append, List.mem_singleton]
    by_cases hpc : p = v.cur
    · simp [hpc, hcur]
    · by_cases hp : p ∈ v.wait
      · simp [hpc, hp]
      · cases hg : g.asleep p with
        | none => simp [hp, hpc, hg]
        | some a1 => exact absurd (hb.asleep p a1 hg).1 hp
  · have hzero : (v.wait.countP fun p => p ∉ v.wait ++ [v.cur] ∧ g.asleep p = some a1) = 0 := by
      rw [List.countP_eq_zero]
      intro p hp
      simp [hp]
    simp only [Ledger.after, hq, hq', hzero, h.queued.current]
    simp

/-- A sleeper leaves the wait queue. -/
theorem Books.after_wake (hb : Books s v g) (h : Inv s v) (h' : Inv s' v')
    (hw : v.wait = pre ++ p :: post) (hw' : v'.wait = pre ++ post) (he : e.takes s = none) :
    (g.after s e s').asleep = Function.update g.asleep p none ∧
      (∀ a1, (g.after s e s').completed a1 =
        g.completed a1 + if g.asleep p = some a1 then 1 else 0) := by
  have hq : s.waitQueue = pre ++ p :: post := h.queued.waitQueue.trans hw
  have hq' : s'.waitQueue = pre ++ post := h'.queued.waitQueue.trans hw'
  have hnodup := (List.nodup_append.1 h.queued.nodup).2.1
  rw [hw] at hnodup
  have hp : p ∉ pre ++ post := (List.nodup_cons.1 (List.nodup_middle.1 hnodup)).1
  refine ⟨funext fun q => ?_, fun a1 => ?_⟩
  · simp only [Ledger.after, hq, hq', he]
    by_cases hqp : q = p
    · simp [hqp, hp]
    · have hiff : q ∈ pre ++ p :: post ↔ q ∈ pre ++ post := by simp [hqp]
      by_cases hmem : q ∈ pre ++ post
      · rw [if_neg (not_not.2 hmem), if_pos (hiff.2 hmem), Function.update_of_ne hqp]
      · rw [if_pos hmem, Function.update_of_ne hqp]
        cases hg : g.asleep q with
        | none => rfl
        | some a1 => exact absurd (hiff.1 (hw ▸ (hb.asleep q a1 hg).1)) hmem
  · have hstay : ∀ l : List Addr, (∀ q ∈ l, q ∈ pre ++ post) →
        (l.countP fun q => q ∉ pre ++ post ∧ g.asleep q = some a1) = 0 := by
      intro l hl
      rw [List.countP_eq_zero]
      intro q hq
      simpa using fun h₁ h₂ => absurd (hl q hq) (by simp [h₁, h₂])
    have hone : ((pre ++ p :: post).countP fun q => q ∉ pre ++ post ∧ g.asleep q = some a1) =
        if g.asleep p = some a1 then 1 else 0 := by
      rw [List.countP_append, List.countP_cons, hstay pre fun q hq => List.mem_append_left _ hq,
        hstay post fun q hq => List.mem_append_right _ hq]
      simp only [hp, not_false_eq_true, true_and, decide_eq_true_eq, Nat.zero_add]
    simp only [Ledger.after, hq, hq', he, hone]
    simp

theorem takes_semP {b : ℤ} : (Event.semP a1).takes s = some b ↔ b = a1 ∧ Made s b := by
  rw [Event.takes]
  split
  · rename_i ha
    exact ⟨fun e => Option.some.inj e ▸ ⟨rfl, ha⟩, fun e => congrArg some e.1.symm⟩
  · rename_i ha
    exact ⟨nofun, fun e => absurd (e.1 ▸ e.2) ha⟩

theorem gives_semV {b : ℤ} : (Event.semV a1).gives s = some b ↔ b = a1 ∧ Made s b := by
  rw [Event.gives]
  split
  · rename_i ha
    exact ⟨fun e => Option.some.inj e ▸ ⟨rfl, ha⟩, fun e => congrArg some e.1.symm⟩
  · rename_i ha
    exact ⟨nofun, fun e => absurd (e.1 ▸ e.2) ha⟩

theorem made_of_takes (h : e.takes s = some a1) : Made s a1 := by
  unfold Event.takes at h
  split at h
  · exact (takes_semP.1 h).2
  · cases h

theorem made_of_gives (h : e.gives s = some a1) : Made s a1 := by
  unfold Event.gives at h
  split at h
  · exact (gives_semV.1 h).2
  · cases h

/-- An event that makes no semaphore and leaves the wait queue alone. -/
theorem Books.keep (hb : Books s v g) (h : Inv s v) (h' : Inv s' v') (hw : v'.wait = v.wait)
    (hsem : ∀ p ∈ v.wait, (s'.core p).sem = (s.core p).sem) (hlen : s'.len = s.len)
    (hinit : (g.after s e s').initial = g.initial)
    (hl : ∀ a1, Made s a1 → s'.l a1 = s.l a1 - (if e.takes s = some a1 then 1 else 0) +
      if e.gives s = some a1 then 1 else 0)
    (hhigh : ∀ a1, e.takes s = some a1 → 0 ≤ s'.l a1) : Books s' v' (g.after s e s') := by
  obtain ⟨hasleep, hdone⟩ := hb.after_same h h' (e := e) hw
  have hgiven : ∀ a1, (g.after s e s').given a1 =
      g.given a1 + if e.gives s = some a1 then 1 else 0 := fun _ => rfl
  have hsleep : ∀ a1, (g.after s e s').sleeping v' a1 = g.sleeping v a1 := by
    intro a1
    rw [Ledger.sleeping, Ledger.sleeping, hw, hasleep]
  have hmade : ∀ a1, Made s' a1 ↔ Made s a1 := by
    intro a1
    rw [Made, Made, hlen]
  refine ⟨fun a1 ha => ?_, fun a1 ha => ?_, fun a1 ha => ?_, fun p a1 hp => ?_, hlen ▸ hb.len⟩
  · have hold := hb.account a1 ((hmade a1).1 ha)
    rw [hdone, hgiven, hsleep, hinit, hl a1 ((hmade a1).1 ha)]
    split <;> split <;> simp only [Nat.add_zero, Int.natCast_add, Int.ofNat_one] <;> omega
  · have hold := hb.enough a1 ((hmade a1).1 ha)
    rw [hsleep]
    by_cases ht : e.takes s = some a1
    · have := hhigh a1 ht
      omega
    · rw [hl a1 ((hmade a1).1 ha), if_neg ht]
      split <;> omega
  · rw [hmade] at ha
    rw [hdone, hgiven, hinit, if_neg fun ht => ha (made_of_takes ht),
      if_neg fun ht => ha (made_of_gives ht)]
    exact hb.unmade a1 ha
  · rw [hasleep] at hp
    obtain ⟨hmem, hm, hs⟩ := hb.asleep p a1 hp
    exact ⟨hw ▸ hmem, (hmade a1).2 hm, (hsem p hmem).trans hs⟩

/-- A call of `sem_P` that sleeps. -/
theorem Books.sleep {a0 : Fin NPROC → ℤ} {q : Addr}
    (hb : Books s v g) (h : Inv s v) (h' : Inv s' v') (hw : v'.wait = v.wait ++ [v.cur])
    (hlow : s.l a1 - 1 < 0)
    (effect : Effect s' v' (withStatus (withStatus
        (Function.update s.core v.cur { s.core v.cur with sem := a1 }) v.cur .blocked) q .running)
      (Function.update s.l a1 (s.l a1 - 1)) s.len a0) :
    Books s' v' (g.after s (.semP a1) s') := by
  have hcur := h.ok.cur_notMem.2
  have hne : ∀ p ∈ v.wait, p ≠ v.cur := fun p hp e => hcur (e ▸ hp)
  have hsem : ∀ p, (s'.core p).sem = if p = v.cur then a1 else (s.core p).sem := by
    intro p
    rw [effect.core, withStatus_sem, withStatus_sem, Function.update_apply]
    split <;> rfl
  obtain ⟨hasleep, hdone⟩ := hb.after_sleep h h' (e := .semP a1) hw
  have hsleep : ∀ b, (g.after s (.semP a1) s').sleeping v' b =
      g.sleeping v b + if (Event.semP a1).takes s = some b then 1 else 0 := by
    intro b
    rw [Ledger.sleeping, hasleep, hw, List.countP_append, List.countP_singleton,
      Function.update_self]
    simp only [decide_eq_true_eq]
    congr 1
    exact List.countP_congr fun p hp => by rw [Function.update_of_ne (hne p hp)]
  have hmade : ∀ b, Made s' b ↔ Made s b := by
    intro b
    rw [Made, Made, effect.len]
  refine ⟨fun b hm => ?_, fun b hm => ?_, fun b hm => ?_, fun p b hp => ?_, effect.len ▸ hb.len⟩
  · rw [hmade] at hm
    have hold := hb.account b hm
    simp only [hsleep, takes_semP, hm, and_true]
    rw [hdone, effect.l, Function.update_apply]
    change _ = g.initial b + (g.given b + 0 : ℕ)
    split
    · rename_i hba
      subst hba
      simp only [Int.natCast_add, Int.ofNat_one]
      omega
    · omega
  · rw [hmade] at hm
    have hold := hb.enough b hm
    simp only [hsleep, takes_semP, hm, and_true]
    rw [effect.l, Function.update_apply]
    split
    · rename_i hba
      subst hba
      simp only [Int.natCast_add, Int.ofNat_one]
      omega
    · omega
  · rw [hmade] at hm
    rw [hdone]
    exact hb.unmade b hm
  · rw [hasleep, Function.update_apply] at hp
    rw [hmade, hsem, hw]
    split at hp
    · rename_i hpc
      obtain ⟨hba, hm⟩ := takes_semP.1 hp
      rw [if_pos hpc, hpc]
      exact ⟨by simp, hm, hba.symm⟩
    · rename_i hpc
      obtain ⟨hmem, hm, hs⟩ := hb.asleep p b hp
      rw [if_neg hpc]
      exact ⟨List.mem_append_left _ hmem, hm, hs⟩

/-- A new semaphore. -/
theorem Books.new {a0 : Fin NPROC → ℤ} (hb : Books s v g) (h : Inv s v) (h' : Inv s' v)
    (hinit : 0 ≤ a1)
    (effect : Effect s' v s.core (Function.update s.l (s.len + 1) a1) (s.len + 1) a0) :
    Books s' v (g.after s (.semNew a1) s') := by
  have hlen := hb.len
  obtain ⟨hasleep, hdone⟩ := hb.after_same h h' (e := .semNew a1) rfl
  have hsleep : ∀ b, (g.after s (.semNew a1) s').sleeping v b = g.sleeping v b := by
    intro b
    rw [Ledger.sleeping, Ledger.sleeping, hasleep]
  have hinitial : (g.after s (.semNew a1) s').initial =
      Function.update g.initial (s.len + 1) a1 := rfl
  have hmade : ∀ b, Made s' b ↔ b = s.len + 1 ∨ Made s b := by
    intro b
    rw [Made, Made, effect.len]
    omega
  have hnew : ¬ Made s (s.len + 1) := fun hm => by
    have := hm.2
    omega
  have hzero : g.sleeping v (s.len + 1) = 0 := by
    rw [Ledger.sleeping, List.countP_eq_zero]
    intro p _ hp
    exact hnew (hb.asleep p _ (of_decide_eq_true hp)).2.1
  have hdone' : ∀ b, (g.after s (.semNew a1) s').completed b = g.completed b := hdone
  have hgiven : ∀ b, (g.after s (.semNew a1) s').given b = g.given b := fun _ => rfl
  refine ⟨fun b hm => ?_, fun b hm => ?_, fun b hm => ?_, fun p b hp => ?_, ?_⟩
  · rw [hdone', hgiven, hsleep, hinitial, effect.l]
    rcases (hmade b).1 hm with rfl | hm
    · obtain ⟨h₁, h₂, -⟩ := hb.unmade _ hnew
      rw [Function.update_self, Function.update_self, h₁, h₂, hzero]
      omega
    · have hne : b ≠ s.len + 1 := fun e => hnew (e ▸ hm)
      rw [Function.update_of_ne hne, Function.update_of_ne hne]
      exact hb.account b hm
  · rw [hsleep, effect.l]
    rcases (hmade b).1 hm with rfl | hm
    · rw [Function.update_self, hzero]
      omega
    · have hne : b ≠ s.len + 1 := fun e => hnew (e ▸ hm)
      rw [Function.update_of_ne hne]
      exact hb.enough b hm
  · rw [hmade, not_or] at hm
    rw [hdone', hgiven, hinitial, Function.update_of_ne hm.1]
    exact hb.unmade b hm.2
  · rw [hasleep] at hp
    obtain ⟨hmem, hm, hs⟩ := hb.asleep p b hp
    exact ⟨hmem, (hmade b).2 (.inr hm), by rw [effect.core, hs]⟩
  · rw [effect.len]
    omega

/-- A call of `sem_V` that wakes a sleeper. The sleeper may have called `sem_P` before the semaphore
was made. -/
theorem Books.wake {a0 : Fin NPROC → ℤ} (hb : Books s v g) (h : Inv s v) (h' : Inv s' v')
    (hhigh : 0 ≤ s.l a1 + 1) (hw : v.wait = pre ++ p :: post) (hw' : v'.wait = pre ++ post)
    (hp : (s.core p).sem = a1)
    (effect : Effect s' v' (withStatus s.core p .ready) (Function.update s.l a1 (s.l a1 + 1))
      s.len a0) :
    Books s' v' (g.after s (.semV a1) s') := by
  have hnodup := (List.nodup_append.1 h.queued.nodup).2.1
  rw [hw] at hnodup
  have hnot : p ∉ pre ++ post := (List.nodup_cons.1 (List.nodup_middle.1 hnodup)).1
  obtain ⟨hasleep, hdone⟩ := hb.after_wake h h' (e := .semV a1) hw hw' rfl
  have hsleep : ∀ b, g.sleeping v b = (g.after s (.semV a1) s').sleeping v' b +
      if g.asleep p = some b then 1 else 0 := by
    intro b
    have hrest : (pre ++ post).countP (fun q => Function.update g.asleep p none q = some b) =
        (pre ++ post).countP fun q => g.asleep q = some b := by
      refine List.countP_congr fun q hq => ?_
      have hqp : q ≠ p := fun e => hnot (e ▸ hq)
      rw [Function.update_of_ne hqp]
    rw [Ledger.sleeping, Ledger.sleeping, hasleep, hw, hw', hrest, List.countP_append,
      List.countP_append, List.countP_cons, Nat.add_assoc]
    simp only [decide_eq_true_eq]
  have hother : ∀ b, b ≠ a1 → g.asleep p ≠ some b := by
    rintro b hba hg
    exact hba ((hb.asleep p b hg).2.2.symm.trans hp)
  have hmade : ∀ b, Made s' b ↔ Made s b := by
    intro b
    rw [Made, Made, effect.len]
  have hgiven : ∀ b, (g.after s (.semV a1) s').given b =
      g.given b + if (Event.semV a1).gives s = some b then 1 else 0 := fun _ => rfl
  refine ⟨fun b hm => ?_, fun b hm => ?_, fun b hm => ?_, fun q b hq => ?_, effect.len ▸ hb.len⟩
  · rw [hmade] at hm
    have hold := hb.account b hm
    have hcount := hsleep b
    simp only [hdone, hgiven, gives_semV, hm, and_true]
    rw [effect.l, Function.update_apply]
    change _ = g.initial b + _
    by_cases hba : b = a1
    · subst hba
      simp only [if_true, Int.natCast_add, Int.ofNat_one]
      omega
    · rw [if_neg (hother b hba)] at hcount ⊢
      rw [if_neg hba, if_neg hba]
      omega
  · rw [hmade] at hm
    have hold := hb.enough b hm
    have hcount := hsleep b
    rw [effect.l, Function.update_apply]
    split
    · omega
    · rename_i hba
      rw [if_neg (hother b hba)] at hcount
      omega
  · rw [hmade] at hm
    have hnone : g.asleep p ≠ some b := fun hg => hm (hb.asleep p b hg).2.1
    rw [hdone, hgiven, if_neg hnone, if_neg fun hg => hm (made_of_gives hg)]
    exact hb.unmade b hm
  · rw [hasleep, Function.update_apply] at hq
    split at hq
    · cases hq
    · rename_i hqp
      obtain ⟨hmem, hm, hs⟩ := hb.asleep q b hq
      rw [hmade, effect.core, withStatus_sem, hw']
      rw [hw] at hmem
      exact ⟨by simpa [hqp] using hmem, hm, hs⟩

/-- A step of a run of semaphores keeps the books. -/
theorem Step.books (hs : Step s v e s' v') (h : Inv s v) (he : e.IsSem) (hb : Books s v g) :
    Books s' v' (g.after s e s') := by
  have h' := hs.inv h
  have hsem : ∀ p ∈ v.wait, (s'.core p).sem = (s.core p).sem := fun p hp => hs.sem_eq h hp
  cases hs with
  | fork free effect =>
    refine hb.keep h h' rfl hsem effect.len rfl (fun a1 _ => ?_) nofun
    rw [effect.l]
    simp [Event.takes, Event.gives]
  | rotate start next effect =>
    cases start with
    | yield =>
      refine hb.keep h h' rfl hsem effect.len rfl (fun a1 _ => ?_) nofun
      rw [effect.l]
      simp [Event.takes, Event.gives]
    | tick expired =>
      refine hb.keep h h' rfl hsem effect.len rfl (fun a1 _ => ?_) nofun
      rw [effect.l]
      simp [Event.takes, Event.gives]
  | tick slice effect =>
    refine hb.keep h h' rfl hsem effect.len rfl (fun a1 _ => ?_) nofun
    rw [effect.l]
    simp [Event.takes, Event.gives]
  | sleep start next effect =>
    cases start with
    | wait child alive => exact he.elim
    | semP low => exact hb.sleep h h' rfl low effect
  | semNew lt effect => exact hb.new h h' he effect
  | @semP a1 s' high effect =>
    refine hb.keep h h' rfl hsem effect.len rfl (fun b hm => ?_)
      fun b hb => ?_
    · simp only [effect.l, Function.update_apply, takes_semP, hm, and_true, Event.gives,
        reduceCtorEq,
        if_false]
      split
      · rename_i hba
        rw [hba, Int.add_zero]
      · omega
    · rw [effect.l, (takes_semP.1 hb).1, Function.update_self]
      exact high
  | @semV a1 s' nobody effect =>
    refine hb.keep h h' rfl hsem effect.len rfl (fun b hm => ?_) nofun
    simp only [effect.l, Function.update_apply, gives_semV, hm, and_true, Event.takes, reduceCtorEq,
      if_false]
    split
    · rename_i hba
      rw [hba, Int.sub_zero]
    · omega
  | wake high wait before sem effect => exact hb.wake h h' high wait rfl sem effect
  | wait result effect => exact he.elim
  | exit alone next same effect => exact he.elim
  | wakeParent parent next effect => exact he.elim

/-- The events of a list with their ledger. -/
def countAll : List Event → Sched → Ledger → Option (Sched × Ledger)
  | [], s, g => some (s, g)
  | e :: es, s, g =>
    if e.IsSem then (exec e s).toOption.bind fun s' => countAll es s' (g.after s e s') else none

theorem Counted.countAll {es : List Event} {g' : Ledger} (h : Counted s g)
    (he : countAll es s g = some (s', g')) : Counted s' g' := by
  induction es generalizing s g with
  | nil =>
    obtain ⟨rfl, rfl⟩ := Prod.mk.inj (Option.some.inj he)
    exact h
  | cons e es ih =>
    rw [Proc.countAll] at he
    split at he
    · rename_i hsem
      obtain ⟨s₁, h₁, he⟩ := Option.bind_eq_some_iff.1 he
      exact ih (h.step hsem (toOption_eq_some.1 h₁)) he
    · cases he

end HustOS.Proc
