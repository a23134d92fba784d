import HustOS.Proc.Sched
import Mathlib.Data.Fintype.Card

/-!
# The queues as lists

A `View` says where the processes are: the structure of the running one, and the lists of structures
in the two queues. `Queued s v` says that the links of `s` hold the lists of `v`. Each function on
the queues is a list operation on the view: it appends, pushes, pops or erases, and leaves all but
the links and the status of one structure as they are (`Sched.core`).
-/

namespace HustOS.Proc

open Foundations


/-- The structure without its link. -/
def Process.core (p : Process) : Process := { p with queueNext := .null }

/-- The links of a memory. -/
def nextOf (mem : Addr → Process) (a : Addr) : Addr := (mem a).queueNext

/-- The structures of a memory without their links. -/
def coreOf (mem : Addr → Process) (a : Addr) : Process := (mem a).core

section Links

variable {mem : Addr → Process} {a h p q proc : Addr} {l pre post : List Addr} {status : Status}
  {fuel : ℕ}

/-- A queue has fewer structures than there are addresses. -/
theorem length_lt (c : Chain .null (nextOf mem) h l) (hl : l.Nodup) : l.length < FUEL := by
  have hnull : (.null : Addr) ∉ l := fun hm => c.ne_null _ hm rfl
  have hcard : Fintype.card Addr = FUEL := by decide
  have := (List.nodup_cons.2 ⟨hnull, hl⟩).length_le_card
  rw [List.length_cons, hcard] at this
  exact this

/-! ## Insertion at the rear -/

theorem lastLoop_eq (c : Chain .null (nextOf mem) h (pre ++ [p])) (hproc : proc ∉ pre ++ [p])
    (hf : pre.length < fuel) : lastLoop mem proc fuel h = .ok (some p) := by
  induction pre generalizing h fuel with
  | nil =>
    obtain ⟨rfl, -, hend⟩ := c
    obtain ⟨fuel, rfl⟩ := Nat.exists_eq_succ_of_ne_zero hf.ne'
    have hne : h ≠ proc := fun e => hproc (by simp [e])
    have hnull : (mem h).queueNext = .null := hend
    rw [lastLoop, if_neg hne, if_pos hnull, pure_eq_ok]
  | cons q pre ih =>
    obtain ⟨rfl, -, c⟩ := c
    obtain ⟨fuel, rfl⟩ := Nat.exists_eq_succ_of_ne_zero (Nat.ne_of_gt (Nat.zero_lt_of_lt hf))
    have hne : h ≠ proc := fun e => hproc (by simp [e])
    have hnull : (mem h).queueNext ≠ .null := by
      intro e
      have := Chain.eq_nil (show Chain .null (nextOf mem) .null (pre ++ [p]) from e ▸ c)
      simp at this
    rw [lastLoop, if_neg hne, if_neg hnull]
    refine ih c (fun hm => hproc (List.mem_cons_of_mem _ hm)) ?_
    simpa using hf

/-- **Insertion at the rear of a queue** that the structure is not in. -/
theorem insertToQueue_eq (c : Chain .null (nextOf mem) h l) (hl : l.Nodup) (hproc : proc ∉ l)
    (hnull : proc ≠ .null) :
    ∃ h' mem', insertToQueue status proc h mem = .ok (h', mem') ∧
      Chain .null (nextOf mem') h' (l ++ [proc]) ∧
      coreOf mem' = Function.update (coreOf mem) proc { coreOf mem proc with status := status } ∧
      ∀ a, a ∉ l → a ≠ proc → mem' a = mem a := by
  rcases List.eq_nil_or_concat' l with rfl | ⟨pre, p, rfl⟩
  · rw [Chain.nil_iff] at c
    refine ⟨_, _, if_pos c, ⟨rfl, hnull, ?_⟩, ?_, ?_⟩
    · simp [nextOf]
    · funext a
      by_cases ha : a = proc
      · subst ha
        simp [coreOf, Process.core]
      · simp [coreOf, ha]
    · intro a _ ha
      exact Function.update_of_ne ha _ _
  · have hh : h ≠ .null := by
      intro e
      rw [e] at c
      simpa using Chain.eq_nil c
    have hlen := length_lt c hl
    have hloop : lastLoop mem proc FUEL h = .ok (some p) := by
      refine lastLoop_eq c hproc ?_
      rw [List.length_append] at hlen
      exact Nat.lt_of_le_of_lt (Nat.le_add_right _ _) hlen
    have hp : p ≠ proc := fun e => hproc (by simp [e])
    have hpre : ∀ q ∈ pre, q ≠ p ∧ q ≠ proc := by
      intro q hq
      refine ⟨?_, fun e => hproc (by simp [← e, hq])⟩
      rintro rfl
      exact (List.nodup_append.1 hl).2.2 q hq q (by simp) rfl
    have hins : insertToQueue status proc h mem = .ok (h, Function.update
        (Function.update mem p { mem p with queueNext := proc }) proc
        { mem proc with status := status, queueNext := .null }) := by
      rw [insertToQueue, if_neg hh, hloop]
      simp [hp.symm]
    refine ⟨h, _, hins, ?_, ?_, ?_⟩
    · refine c.concat (fun q hq => ?_) ?_ hnull ?_
      · obtain ⟨h₁, h₂⟩ := hpre q hq
        simp [nextOf, h₁, h₂]
      · simp [nextOf, hp]
      · simp [nextOf]
    · funext a
      by_cases ha : a = proc
      · subst ha
        simp [coreOf, Process.core]
      · by_cases hap : a = p
        · subst hap
          simp [coreOf, Process.core, ha]
        · simp [coreOf, ha, hap]
    · intro a hal ha
      have hap : a ≠ p := by
        rintro rfl
        exact hal (by simp)
      simp [ha, hap]

/-! ## Taking a structure out -/

/-- The head and the memory after `p`, which stands behind `pre`, was taken out of the queue from
`h`. -/
def unlinked (mem : Addr → Process) (h p : Addr) (pre : List Addr) : Addr × (Addr → Process) :=
  match pre.getLast? with
  | none => ((mem p).queueNext, mem)
  | some f => (h, Function.update mem f { mem f with queueNext := (mem p).queueNext })

theorem coreOf_unlinked : coreOf (unlinked mem h p pre).2 = coreOf mem := by
  unfold unlinked
  split
  · rfl
  · rename_i f _
    funext a
    by_cases ha : a = f
    · subst ha
      simp [coreOf, Process.core]
    · simp [coreOf, ha]

theorem unlinked_of_notMem (ha : a ∉ pre) : (unlinked mem h p pre).2 a = mem a := by
  unfold unlinked
  split
  · rfl
  · rename_i f hf
    refine Function.update_of_ne ?_ _ _
    rintro rfl
    exact ha (List.mem_of_getLast? hf)

theorem nextOf_update {f x : Addr} :
    nextOf (Function.update mem f { mem f with queueNext := x }) =
      Function.update (nextOf mem) f x := by
  funext a
  by_cases ha : a = f
  · subst ha
    simp [nextOf]
  · simp [nextOf, ha]

/-- The rest of the queue keeps its order. -/
theorem chain_unlinked (c : Chain .null (nextOf mem) h (pre ++ p :: post))
    (hl : (pre ++ p :: post).Nodup) :
    Chain .null (nextOf (unlinked mem h p pre).2) (unlinked mem h p pre).1 (pre ++ post) := by
  have cp : Chain .null (nextOf mem) (nextOf mem p) post := (c.suffix).2.2
  rcases List.eq_nil_or_concat' pre with rfl | ⟨pre, f, rfl⟩
  · exact cp
  · have hun : unlinked mem h p (pre ++ [f]) =
        (h, Function.update mem f { mem f with queueNext := (mem p).queueNext }) := by
      simp [unlinked]
    rw [hun]
    dsimp only
    rw [nextOf_update]
    have c' : Chain .null (nextOf mem) h (pre ++ f :: ([p] ++ post)) := by simpa using c
    have hnd : (pre ++ f :: post).Nodup := by
      have hsub : (pre ++ f :: post).Sublist (pre ++ [f] ++ p :: post) := by simp
      exact hl.sublist hsub
    rw [List.append_assoc]
    exact c'.unlink hnd cp

variable {a1 : ℤ} {pid : Fin NPROC} {front pro head : Addr}

theorem wakeLoop_none (c : Chain .null (nextOf mem) h l) (hf : l.length < fuel)
    (hl : ∀ a ∈ l, (mem a).sem ≠ a1) : wakeLoop mem a1 fuel front h = .ok none := by
  induction l generalizing h front fuel with
  | nil =>
    obtain ⟨fuel, rfl⟩ := Nat.exists_eq_succ_of_ne_zero hf.ne'
    rw [wakeLoop, if_pos (Chain.nil_iff.1 c), pure_eq_ok]
  | cons q l ih =>
    obtain ⟨rfl, hnull, c⟩ := c
    obtain ⟨fuel, rfl⟩ := Nat.exists_eq_succ_of_ne_zero (Nat.ne_of_gt (Nat.zero_lt_of_lt hf))
    rw [wakeLoop, if_neg hnull, if_neg (hl h List.mem_cons_self)]
    exact ih c (by simpa using hf) fun a ha => hl a (List.mem_cons_of_mem _ ha)

theorem wakeLoop_some (c : Chain .null (nextOf mem) h (pre ++ p :: post))
    (hf : (pre ++ p :: post).length ≤ fuel) (hpre : ∀ a ∈ pre, (mem a).sem ≠ a1)
    (hp : (mem p).sem = a1) :
    wakeLoop mem a1 fuel front h = .ok (some (pre.getLast?.getD front, p)) := by
  induction pre generalizing h front fuel with
  | nil =>
    obtain ⟨rfl, hnull, c⟩ := c
    obtain ⟨fuel, rfl⟩ := Nat.exists_eq_succ_of_ne_zero (Nat.ne_of_gt (Nat.zero_lt_of_lt hf))
    rw [wakeLoop, if_neg hnull, if_pos hp, pure_eq_ok, List.getLast?_nil, Option.getD_none]
  | cons q pre ih =>
    obtain ⟨rfl, hnull, c⟩ := c
    obtain ⟨fuel, rfl⟩ := Nat.exists_eq_succ_of_ne_zero (Nat.ne_of_gt (Nat.zero_lt_of_lt hf))
    rw [wakeLoop, if_neg hnull, if_neg (hpre h List.mem_cons_self)]
    rw [List.getLast?_cons, Option.getD_some]
    exact ih c (by simpa using hf) fun a ha => hpre a (List.mem_cons_of_mem _ ha)

theorem searchLoop_some (c : Chain .null (nextOf mem) h (pre ++ p :: post))
    (hf : (pre ++ p :: post).length ≤ fuel) (hpre : ∀ a ∈ pre, (mem a).pid ≠ pid)
    (hp : (mem p).pid = pid) : searchLoop mem pid fuel (mem h) = .ok (true, mem p) := by
  induction pre generalizing h fuel with
  | nil =>
    obtain ⟨rfl, -, -⟩ := c
    obtain ⟨fuel, rfl⟩ := Nat.exists_eq_succ_of_ne_zero (Nat.ne_of_gt (Nat.zero_lt_of_lt hf))
    rw [searchLoop, if_pos hp, pure_eq_ok]
  | cons q pre ih =>
    obtain ⟨rfl, -, c⟩ := c
    obtain ⟨fuel, rfl⟩ := Nat.exists_eq_succ_of_ne_zero (Nat.ne_of_gt (Nat.zero_lt_of_lt hf))
    have hnull : (mem h).queueNext ≠ .null := by
      intro e
      have := Chain.eq_nil (show Chain .null (nextOf mem) .null (pre ++ p :: post) from e ▸ c)
      simp at this
    rw [searchLoop, if_neg (hpre h List.mem_cons_self), if_neg hnull]
    exact ih c (by simpa using hf) fun a ha => hpre a (List.mem_cons_of_mem _ ha)

theorem searchLoop_none (c : Chain .null (nextOf mem) h (q :: l)) (hf : (q :: l).length ≤ fuel)
    (hl : ∀ a ∈ q :: l, (mem a).pid ≠ pid) :
    ∃ t, searchLoop mem pid fuel (mem h) = .ok (false, t) := by
  induction l generalizing h q fuel with
  | nil =>
    obtain ⟨rfl, -, hend⟩ := c
    obtain ⟨fuel, rfl⟩ := Nat.exists_eq_succ_of_ne_zero (Nat.ne_of_gt (Nat.zero_lt_of_lt hf))
    have hnull : (mem h).queueNext = .null := hend
    exact ⟨mem h, by rw [searchLoop, if_neg (hl h List.mem_cons_self), if_pos hnull, pure_eq_ok]⟩
  | cons r l ih =>
    obtain ⟨rfl, -, c⟩ := c
    obtain ⟨fuel, rfl⟩ := Nat.exists_eq_succ_of_ne_zero (Nat.ne_of_gt (Nat.zero_lt_of_lt hf))
    have hnull : (mem h).queueNext ≠ .null := by
      intro e
      have := Chain.eq_nil (show Chain .null (nextOf mem) .null (r :: l) from e ▸ c)
      simp at this
    rw [searchLoop, if_neg (hl h List.mem_cons_self), if_neg hnull]
    exact ih c (by simpa using hf) fun a ha => hl a (List.mem_cons_of_mem _ ha)

/-- The loop goes on with `pro` the structure in front, whether or not there was one before. -/
theorem unlinkLoop_eq (c : Chain .null (nextOf mem) h (pre ++ p :: post))
    (hf : (pre ++ p :: post).length ≤ fuel) (hpre : ∀ a ∈ pre, (mem a).pid ≠ pid)
    (hp : (mem p).pid = pid) (hfirst : pro = .null → h = head)
    (hnext : pro ≠ .null → (mem pro).queueNext = h) :
    unlinkLoop pid head fuel h pro mem = .ok (
      if pre.getLast?.getD pro = .null then ((mem p).queueNext, mem)
      else (head, Function.update mem (pre.getLast?.getD pro)
        { mem (pre.getLast?.getD pro) with queueNext := (mem p).queueNext })) := by
  induction pre generalizing h pro fuel with
  | nil =>
    obtain ⟨rfl, hnull, c⟩ := c
    obtain ⟨fuel, rfl⟩ := Nat.exists_eq_succ_of_ne_zero (Nat.ne_of_gt (Nat.zero_lt_of_lt hf))
    rw [unlinkLoop, if_neg hnull, if_pos hp, List.getLast?_nil, Option.getD_none]
    split <;> rfl
  | cons q pre ih =>
    obtain ⟨rfl, hnull, c⟩ := c
    obtain ⟨fuel, rfl⟩ := Nat.exists_eq_succ_of_ne_zero (Nat.ne_of_gt (Nat.zero_lt_of_lt hf))
    have hpro : (if pro = .null then head else (mem pro).queueNext) = h := by
      split
      · rename_i e
        exact (hfirst e).symm
      · rename_i e
        exact hnext e
    rw [unlinkLoop, if_neg hnull, if_neg (hpre h List.mem_cons_self), hpro, List.getLast?_cons,
      Option.getD_some]
    refine ih c (by simpa using hf) (fun a ha => hpre a (List.mem_cons_of_mem _ ha)) ?_ fun _ => rfl
    exact fun e => absurd e hnull

end Links

/-- The first element of a list with a property. -/
theorem exists_first {α : Type*} {P : α → Prop} {l : List α} (h : ¬ ∀ a ∈ l, ¬ P a) :
    ∃ pre p post, l = pre ++ p :: post ∧ (∀ a ∈ pre, ¬ P a) ∧ P p := by
  induction l with
  | nil => exact absurd (fun a ha => absurd ha List.not_mem_nil) h
  | cons q l ih =>
    by_cases hq : P q
    · exact ⟨[], q, l, rfl, fun a ha => absurd ha List.not_mem_nil, hq⟩
    · obtain ⟨pre, p, post, rfl, hpre, hp⟩ := ih fun hl => h fun a ha => by
        rcases List.mem_cons.1 ha with rfl | ha
        · exact hq
        · exact hl a ha
      refine ⟨q :: pre, p, post, rfl, fun a ha => ?_, hp⟩
      rcases List.mem_cons.1 ha with rfl | ha
      · exact hq
      · exact hpre a ha

/-! ## Views -/

/-- Where the processes are. -/
structure View where
  /-- The structure of the running process. -/
  cur : Addr
  /-- The ready queue. -/
  ready : List Addr
  /-- The wait queue. -/
  wait : List Addr

/-- The structures the scheduler knows. -/
def View.places (v : View) : List Addr := v.cur :: (v.ready ++ v.wait)

/-- The queues of the state are those of the view. -/
structure Queued (s : Sched) (v : View) : Prop where
  current : s.current = v.cur
  ready : Chain .null (nextOf s.mem) s.readyQueueHead v.ready
  wait : Chain .null (nextOf s.mem) s.waitQueueHead v.wait
  nodup : (v.ready ++ v.wait).Nodup

/-- A new status of one structure. -/
def withStatus (c : Addr → Process) (a : Addr) (status : Status) : Addr → Process :=
  Function.update c a { c a with status := status }

section Status

variable {c : Addr → Process} {a b : Addr} {status : Status}

theorem withStatus_self : (withStatus c a status a).status = status := by
  rw [withStatus, Function.update_self]

theorem withStatus_of_ne (h : b ≠ a) : withStatus c a status b = c b := Function.update_of_ne h _ _

@[simp] theorem withStatus_pid : (withStatus c a status b).pid = (c b).pid := by
  by_cases h : b = a
  · rw [h, withStatus, Function.update_self]
  · rw [withStatus_of_ne h]

@[simp] theorem withStatus_parent : (withStatus c a status b).parent = (c b).parent := by
  by_cases h : b = a
  · rw [h, withStatus, Function.update_self]
  · rw [withStatus_of_ne h]

@[simp] theorem withStatus_sem : (withStatus c a status b).sem = (c b).sem := by
  by_cases h : b = a
  · rw [h, withStatus, Function.update_self]
  · rw [withStatus_of_ne h]

end Status

/-- The state `s'` has the queues of `v'` and the structures `c`; the rest is that of `s`. -/
structure Moves (s s' : Sched) (c : Addr → Process) (v' : View) : Prop where
  queued : Queued s' v'
  core : coreOf s'.mem = c
  l : s'.l = s.l
  len : s'.len = s.len
  a0 : s'.a0 = s.a0

variable {s s' : Sched} {v v' : View} {c : Addr → Process} {a p q proc : Addr}
  {pre post rest : List Addr}

theorem Moves.trans {s'' : Sched} {v'' : View} {c' : Addr → Process} (h : Moves s s' c v')
    (h' : Moves s' s'' c' v'') : Moves s s'' c' v'' :=
  ⟨h'.queued, h'.core, h'.l.trans h.l, h'.len.trans h.len, h'.a0.trans h.a0⟩

namespace Queued

variable (h : Queued s v)

include h

theorem ne_null (ha : a ∈ v.ready ++ v.wait) : a ≠ .null := by
  rcases List.mem_append.1 ha with ha | ha
  · exact h.ready.ne_null a ha
  · exact h.wait.ne_null a ha

theorem insertToReadyQueue (hr : proc ∉ v.ready) (hw : proc ∉ v.wait) (hnull : proc ≠ .null) :
    ∃ s', Proc.insertToReadyQueue proc s = .ok s' ∧
      Moves s s' (withStatus (coreOf s.mem) proc .ready) { v with ready := v.ready ++ [proc] } := by
  have hnd := List.nodup_append.1 h.nodup
  obtain ⟨head, mem, hins, hc, hcore, hsame⟩ := insertToQueue_eq h.ready hnd.1 hr hnull
  have he : Proc.insertToReadyQueue proc s = .ok { s with readyQueueHead := head, mem := mem } := by
    rw [Proc.insertToReadyQueue, hins]
    rfl
  refine ⟨_, he, ⟨h.current, hc, ?_, ?_⟩, hcore, rfl, rfl, rfl⟩
  · refine h.wait.congr fun a ha => congrArg Process.queueNext (hsame a ?_ ?_)
    · exact fun hm => hnd.2.2 a hm a ha rfl
    · rintro rfl
      exact hw ha
  · have hperm : (v.ready ++ [proc] ++ v.wait).Perm (proc :: (v.ready ++ v.wait)) := by
      rw [List.append_assoc]
      exact List.perm_middle
    refine hperm.nodup_iff.2 (List.nodup_cons.2 ⟨?_, h.nodup⟩)
    simp [hr, hw]

theorem insertToWaitQueue (hr : proc ∉ v.ready) (hw : proc ∉ v.wait) (hnull : proc ≠ .null) :
    ∃ s', Proc.insertToWaitQueue proc s = .ok s' ∧
      Moves s s' (withStatus (coreOf s.mem) proc .blocked) { v with wait := v.wait ++ [proc] } := by
  have hnd := List.nodup_append.1 h.nodup
  obtain ⟨head, mem, hins, hc, hcore, hsame⟩ := insertToQueue_eq h.wait hnd.2.1 hw hnull
  have he : Proc.insertToWaitQueue proc s = .ok { s with waitQueueHead := head, mem := mem } := by
    rw [Proc.insertToWaitQueue, hins]
    rfl
  refine ⟨_, he, ⟨h.current, ?_, hc, ?_⟩, hcore, rfl, rfl, rfl⟩
  · refine h.ready.congr fun a ha => congrArg Process.queueNext (hsame a ?_ ?_)
    · exact fun hm => hnd.2.2 a ha a hm rfl
    · rintro rfl
      exact hr ha
  · have hperm : (v.ready ++ (v.wait ++ [proc])).Perm (proc :: (v.ready ++ v.wait)) := by
      rw [← List.append_assoc]
      exact List.perm_append_singleton _ _
    refine hperm.nodup_iff.2 (List.nodup_cons.2 ⟨?_, h.nodup⟩)
    simp [hr, hw]

theorem dispatch (hq : v.ready = q :: rest) (hs : (coreOf s.mem q).status = .ready) :
    ∃ s', Proc.dispatch s = .ok s' ∧
      Moves s s' (withStatus (coreOf s.mem) q .running) { v with cur := q, ready := rest } := by
  have hnd := h.nodup
  have hr := h.ready
  rw [hq] at hr hnd
  obtain ⟨hhead, hnull, hc⟩ := hr
  have hs' : (s.mem q).status = .ready := hs
  have hne : ∀ a ∈ rest ++ v.wait, a ≠ q := by
    rintro a ha rfl
    exact (List.nodup_cons.1 hnd).1 ha
  have he : Proc.dispatch s = .ok { s.write q { s.mem q with status := .running } with
      current := q
      readyQueueHead := (s.mem q).queueNext } := by
    rw [Proc.dispatch, Sched.deref, hhead, if_neg hnull, pure_eq_ok, ok_bind,
      if_neg (by simp [hs'])]
    rfl
  refine ⟨_, he, ⟨rfl, ?_, ?_, (List.nodup_cons.1 hnd).2⟩, ?_, rfl, rfl, rfl⟩
  · refine hc.congr fun a ha => ?_
    simp [nextOf, Sched.write, hne a (List.mem_append_left _ ha)]
  · refine h.wait.congr fun a ha => ?_
    simp [nextOf, Sched.write, hne a (List.mem_append_right _ ha)]
  · funext a
    by_cases ha : a = q
    · subst ha
      simp [coreOf, withStatus, Sched.write, Process.core]
    · simp [coreOf, withStatus, Sched.write, ha]

/-- The dispatcher returns only if a process is ready, and the first one goes on. -/
theorem dispatch_ok (hs : ∀ a ∈ v.ready, (coreOf s.mem a).status = .ready)
    (he : Proc.dispatch s = .ok s') : ∃ q rest, v.ready = q :: rest ∧
      Moves s s' (withStatus (coreOf s.mem) q .running) { v with cur := q, ready := rest } := by
  have hne : s.readyQueueHead ≠ .null := by
    intro e
    rw [Proc.dispatch, Sched.deref, if_pos e] at he
    cases he
  obtain ⟨rest, hq, -⟩ := h.ready.exists_cons hne
  obtain ⟨s₁, hd, hm⟩ := h.dispatch hq (hs _ (by rw [hq]; exact List.mem_cons_self))
  obtain rfl := Except.ok.inj (he.symm.trans hd)
  exact ⟨_, rest, hq, hm⟩

theorem schedule_zero (hs : ∀ a ∈ v.ready, (coreOf s.mem a).status = .ready)
    (he : schedule 0 s = .ok s') : ∃ q rest, v.ready = q :: rest ∧
      Moves s s' (withStatus (coreOf s.mem) q .running) { v with cur := q, ready := rest } := by
  rw [schedule, if_neg (by simp)] at he
  split at he
  · split at he <;> cases he
  · exact h.dispatch_ok hs he

/-- The first waiting structure with the semaphore `a1` is put in front of the ready queue. -/
theorem wakeWaitQueue_some {a1 : ℤ} (hw : v.wait = pre ++ p :: post)
    (hpre : ∀ a ∈ pre, (coreOf s.mem a).sem ≠ a1) (hp : (coreOf s.mem p).sem = a1)
    (hl : 0 ≤ s.l a1) :
    ∃ s', wakeWaitQueue a1 s = .ok s' ∧ Moves s s' (withStatus (coreOf s.mem) p .ready)
      { v with ready := p :: v.ready, wait := pre ++ post } := by
  have hc := h.wait
  have hnd := h.nodup
  rw [hw] at hc hnd
  have hndw := (List.nodup_append.1 hnd).2.1
  have hlen := (length_lt hc hndw).le
  have hloop : wakeLoop s.mem a1 FUEL .null s.waitQueueHead =
      .ok (some (pre.getLast?.getD .null, p)) := wakeLoop_some hc hlen hpre hp
  -- the test `p == wait_queue_head` says whether somebody stands in front of `p`
  have hmid : (if p = s.waitQueueHead then { s with waitQueueHead := (s.mem p).queueNext }
      else s.write (pre.getLast?.getD .null)
        { s.mem (pre.getLast?.getD .null) with queueNext := (s.mem p).queueNext }) =
      { s with
        waitQueueHead := (unlinked s.mem s.waitQueueHead p pre).1
        mem := (unlinked s.mem s.waitQueueHead p pre).2 } := by
    rcases List.eq_nil_or_concat' pre with rfl | ⟨pre, f, rfl⟩
    · obtain ⟨hhead, -, -⟩ := hc
      rw [if_pos hhead.symm]
      rfl
    · have hne : p ≠ s.waitQueueHead := by
        intro e
        have hmem : s.waitQueueHead ∈ pre ++ [f] := by
          have := hc
          cases pre with
          | nil => exact this.1 ▸ List.mem_singleton_self _
          | cons q pre => exact this.1 ▸ List.mem_cons_self
        exact (List.nodup_append.1 hndw).2.2 _ hmem p List.mem_cons_self e.symm
      rw [if_neg hne]
      simp [unlinked, Sched.write]
  have hpr : p ∉ v.ready := fun hm =>
    (List.nodup_append.1 hnd).2.2 p hm p (by simp) rfl
  have hpp : p ∉ pre ++ post := by
    exact (List.nodup_cons.1 (List.nodup_middle.1 hndw)).1
  have hnull : p ≠ .null := h.ne_null (by rw [hw]; simp)
  have hun := chain_unlinked hc hndw
  have he : wakeWaitQueue a1 s = .ok (insertToReadyQueueHead p
      { s with
        waitQueueHead := (unlinked s.mem s.waitQueueHead p pre).1
        mem := (unlinked s.mem s.waitQueueHead p pre).2 }) := by
    rw [wakeWaitQueue, if_pos hl, hloop, ok_bind]
    dsimp only
    rw [hmid, pure_eq_ok]
  refine ⟨_, he, ⟨h.current, ⟨rfl, hnull, ?_⟩, ?_, ?_⟩, ?_, rfl, rfl, rfl⟩
  · simp only [insertToReadyQueueHead, Sched.write, nextOf, Function.update_self]
    refine h.ready.congr fun a ha => ?_
    have hne : a ≠ p := fun e => hpr (e ▸ ha)
    have hap : a ∉ pre := fun hm => (List.nodup_append.1 hnd).2.2 a ha a (by simp [hm]) rfl
    simp only [nextOf, Function.update_of_ne hne, unlinked_of_notMem hap]
  · refine hun.congr fun a ha => ?_
    have hne : a ≠ p := fun e => hpp (e ▸ ha)
    simp only [insertToReadyQueueHead, Sched.write, nextOf, Function.update_of_ne hne]
  · have hperm : (p :: v.ready ++ (pre ++ post)).Perm (v.ready ++ (pre ++ p :: post)) := by
      refine List.Perm.trans ?_ (List.Perm.append_left v.ready List.perm_middle.symm)
      exact List.perm_middle.symm
    exact hperm.nodup_iff.2 hnd
  · funext a
    have hcore : ∀ b, ((unlinked s.mem s.waitQueueHead p pre).2 b).core = (s.mem b).core :=
      congrFun coreOf_unlinked
    by_cases ha : a = p
    · subst ha
      have := hcore a
      simp only [Process.core, Process.mk.injEq] at this
      simp [coreOf, withStatus, insertToReadyQueueHead, Sched.write, Process.core, this]
    · simp only [coreOf, withStatus, insertToReadyQueueHead, Sched.write, Function.update_of_ne ha]
      exact hcore a

theorem wakeWaitQueue_none {a1 : ℤ}
    (hno : 0 ≤ s.l a1 → ∀ a ∈ v.wait, (coreOf s.mem a).sem ≠ a1) : wakeWaitQueue a1 s = .ok s := by
  rw [wakeWaitQueue]
  split
  · rename_i hl
    rw [wakeLoop_none h.wait (length_lt h.wait (List.nodup_append.1 h.nodup).2.1) (hno hl)]
    rfl
  · rfl

end Queued

end HustOS.Proc
