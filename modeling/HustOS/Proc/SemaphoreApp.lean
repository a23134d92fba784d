import HustOS.Proc.DoExec

/-!
# Three processes that print in turn

`user/app_semaphore_challengex.c`: a process makes three semaphores and a child, which makes a child
of its own. Each of the three goes ten times through a loop: `sem_P` on its own semaphore, a line of
output, and `sem_V` on the semaphore of the next process.

The processes run on the kernel of `HustOS.Proc.Sched`. A step (`Works`) is a system call of the
running process or its way from one call to the next, and between the steps the timer interrupts at
any time (`Ticks`). A fork copies the variables of a process, so the number `k` of a process in the
order of the forks, its role, decides which branch of the program it is in (`Place`) and which
semaphores it calls (`Place.call_semP`, `Place.call_semV`).
-/

namespace HustOS.Proc

open Foundations

variable {s s' : Sched} {v v' : View} {e : Event} {i : Fin NPROC}

/-- Only a fork makes a process. -/
theorem Step.free_stays (hs : Step s v e s' v') (h : Inv s v) (hfork : e ≠ .fork)
    (hi : (s.core (.procs i)).status = .free) : (s'.core (.procs i)).status = .free := by
  have hnot := h.notMem_of_free hi
  have hcur : .procs i ≠ v.cur := fun he => hnot (he ▸ List.mem_cons_self)
  have hready : ∀ {q}, q ∈ v.ready → .procs i ≠ q := fun hq he =>
    hnot (he ▸ List.mem_cons_of_mem _ (List.mem_append_left _ hq))
  have hz : zombied s.core v.cur (.procs i) = s.core (.procs i) := by
    refine zombied_of_ne hcur fun he => ?_
    have hl := (h.ok.live v.cur List.mem_cons_self).1
    rw [← Addr.procs.inj he] at hl
    exact hl hi
  cases hs with
  | fork free effect => exact absurd rfl hfork
  | @rotate _ _ _ q _ start next effect =>
    have hq : .procs i ≠ q := by
      rcases List.mem_append.1 (next ▸ List.mem_cons_self) with hq | hq
      · exact hready hq
      · exact List.mem_singleton.1 hq ▸ hcur
    rw [effect.core, withStatus_of_ne hq, withStatus_of_ne hcur, (start.core _).2, hi]
  | tick slice effect => rw [effect.core, Function.update_of_ne hcur, hi]
  | sleep start next effect =>
    rw [effect.core, withStatus_of_ne (hready (next ▸ List.mem_cons_self)), withStatus_of_ne hcur,
      (start.core _).2, hi]
  | semNew lt effect => rw [effect.core, hi]
  | semP high effect => rw [effect.core, hi]
  | semV nobody effect => rw [effect.core, hi]
  | @wake _ _ _ _ p high wait before sem effect =>
    have hp : .procs i ≠ p := fun he => hnot (he ▸ List.mem_cons_of_mem _
      (List.mem_append_right _ (wait ▸ List.mem_append_right _ List.mem_cons_self)))
    rw [effect.core, withStatus_of_ne hp, hi]
  | wait result effect => rw [effect.core, hi]
  | exit alone next same effect =>
    rw [effect.core, withStatus_of_ne (hready (next ▸ List.mem_cons_self)), same _ (by simp), hz, hi]
  | @wakeParent _ _ _ _ _ q parent next effect =>
    have hq : .procs i ≠ q := by
      rcases List.mem_append.1 (next ▸ List.mem_cons_self) with hq | hq
      · exact hready hq
      · exact fun he => by cases he.trans (List.mem_singleton.1 hq)
    rw [effect.core, withStatus_of_ne hq, Function.update_of_ne (by simp), hz, hi]

namespace SemaphoreApp

/-! ## The program -/

/-- A system call in the text of the program. The loop stands there twice, for the parent and for the
children. -/
inductive Site
  | newMain
  | newChild
  | forkMain
  | forkChild
  | semP (child : Bool)
  | print (child : Bool)
  | semV (child : Bool)
  | exit
  deriving DecidableEq

/-- A process in user mode: in front of a system call, or behind it with its result in `a0`. -/
structure User where
  site : Site
  returned : Bool
  mainSem : ℤ
  childSem : ℕ → ℤ
  pid : ℤ
  i : ℕ

/-- `"Parent print %d\n"` and `"Child%d print %d\n"`. -/
inductive Line
  | parent (i : ℕ)
  | child (c i : ℕ)
  deriving DecidableEq

/-- A system call: one of those that move processes, or `printu`. -/
inductive Call
  | sys (e : Event)
  | print (line : Line)

/-- `pid == 0`. -/
def User.isZero (u : User) : ℕ := if u.pid = 0 then 1 else 0

/-- The system call of a process. -/
def User.call (u : User) : Call :=
  match u.site with
  | .newMain => .sys (.semNew 1)
  | .newChild => .sys (.semNew 0)
  | .forkMain => .sys .fork
  | .forkChild => .sys .fork
  | .semP true => .sys (.semP (u.childSem u.isZero))
  | .print true => .print (.child u.isZero u.i)
  | .semV true => .sys (.semV (if u.pid ≠ 0 then u.childSem 1 else u.mainSem))
  | .semP false => .sys (.semP u.mainSem)
  | .print false => .print (.parent u.i)
  | .semV false => .sys (.semV (u.childSem 0))
  | .exit => .sys .exit

/-- In front of a system call. -/
def User.goto (site : Site) (u : User) : User := { u with site := site, returned := false }

/-- Behind the system call that it makes. -/
def User.back (u : User) : User := { u with returned := true }

/-- The head of a `for` loop, `i < 10`. -/
def User.loop (child : Bool) (u : User) : User :=
  if u.i < 10 then u.goto (.semP child) else u.goto .exit

/-- From the result of a system call to the next one. -/
def User.resume (r : ℤ) (u : User) : User :=
  match u.site with
  | .newMain => User.goto .newChild { u with mainSem := r, i := 0 }
  | .newChild =>
    let u : User := { u with childSem := Function.update u.childSem u.i r, i := u.i + 1 }
    if u.i < 2 then u.goto .newChild else u.goto .forkMain
  | .forkMain =>
    let u : User := { u with pid := r }
    if u.pid = 0 then u.goto .forkChild else User.loop false { u with i := 0 }
  | .forkChild => User.loop true { u with pid := r, i := 0 }
  | .semP child => u.goto (.print child)
  | .print child => u.goto (.semV child)
  | .semV child => User.loop child { u with i := u.i + 1 }
  | .exit => u

/-! ## Runs -/

/-- The kernel, the processes in user mode, and the lines printed. -/
structure App where
  s : Sched
  user : Fin NPROC → User
  out : List Line

namespace App

/-- The running process in user mode. -/
def cur (x : App) : User := x.user x.s.pid

/-- The processes behind a system call of the running one. A fork copies it. -/
def behind (x : App) (e : Event) (s' : Sched) : Fin NPROC → User := fun i =>
  if i = x.s.pid ∨ e = .fork ∧ (i : ℤ) = s'.a0 x.s.pid then x.cur.back
  else x.user i

end App

/-- A step other than a timer interrupt: the running process goes on behind a system call, or makes
the next one. -/
inductive Works (x : App) : App → Prop
  | resume (returned : x.cur.returned = true) :
      Works x { x with user := Function.update x.user x.s.pid (x.cur.resume (x.s.a0 x.s.pid)) }
  | sys {e : Event} {s' : Sched} (ready : x.cur.returned = false) (call : x.cur.call = .sys e)
      (exec : exec e x.s = .ok s') : Works x { x with s := s', user := x.behind e s' }
  | print {line : Line} (ready : x.cur.returned = false) (call : x.cur.call = .print line) :
      Works x
        { s := { x.s with a0 := Function.update x.s.a0 x.s.pid 0 }
          user := Function.update x.user x.s.pid x.cur.back
          out := x.out ++ [line] }

/-- A timer interrupt. A result that the process has not used yet is still in `a0`. -/
inductive Ticks (x : App) : App → Prop
  | tick {a0 : ℤ} {s' : Sched} (kept : x.cur.returned = true → a0 = x.s.a0 x.s.pid)
      (exec : exec (.tick a0) x.s = .ok s') : Ticks x { x with s := s' }

/-- The states that are reached in `k` steps and any number of timer interrupts. -/
inductive Reached : ℕ → App → Prop
  | start {s : Sched} (junk : Addr → Process) (user : Fin NPROC → User)
      (start : sStart junk = .ok s) (site : (user 0).site = .newMain)
      (ready : (user 0).returned = false) : Reached 0 ⟨s, user, []⟩
  | work {k : ℕ} {x x' : App} (h : Reached k x) (step : Works x x') : Reached (k + 1) x'
  | tick {k : ℕ} {x x' : App} (h : Reached k x) (step : Ticks x x') : Reached k x'

/-- The lines in their order. -/
def line (m : ℕ) : Line :=
  match m % 3 with
  | 0 => .parent (m / 3)
  | 1 => .child 0 (m / 3)
  | _ => .child 1 (m / 3)

/-! ## The progress of a process -/

namespace User

/-- A process that has exited. -/
def Ended (u : User) : Prop := u.site = .exit ∧ u.returned = true

/-- The calls of `sem_P` made. -/
def asked (u : User) : ℕ :=
  match u.site with
  | .semP _ => if u.returned then u.i + 1 else u.i
  | .print _ => u.i + 1
  | .semV _ => u.i + 1
  | .exit => 10
  | _ => 0

/-- The lines printed. -/
def printed (u : User) : ℕ :=
  match u.site with
  | .semP _ => u.i
  | .print _ => if u.returned then u.i + 1 else u.i
  | .semV _ => u.i + 1
  | .exit => 10
  | _ => 0

/-- The calls of `sem_V` made. -/
def given (u : User) : ℕ :=
  match u.site with
  | .semP _ => u.i
  | .print _ => u.i
  | .semV _ => if u.returned then u.i + 1 else u.i
  | .exit => 10
  | _ => 0

/-- The steps that are left for the process and for those it will make, at most. -/
def left (u : User) : ℕ :=
  match u.site with
  | .newMain => 259 - if u.returned then 1 else 0
  | .newChild => 257 - 2 * u.i - if u.returned then 1 else 0
  | .forkMain => if u.returned then 126 else 253
  | .forkChild => if u.returned then 62 else 125
  | .semP _ => 61 - 6 * u.i - if u.returned then 1 else 0
  | .print _ => 59 - 6 * u.i - if u.returned then 1 else 0
  | .semV _ => 57 - 6 * u.i - if u.returned then 1 else 0
  | .exit => if u.returned then 0 else 1

end User


/-! ## What the kernel keeps -/

variable {user user' : Fin NPROC → User} {role : ℕ → Fin NPROC} {n j k : ℕ}

/-- The processes that were made are those of the roles below `n`, each the child of the one before,
and those that have exited are zombies. -/
structure Kernel (s : Sched) (v : View) (user : Fin NPROC → User) (role : ℕ → Fin NPROC) (n : ℕ) :
    Prop where
  inv : Inv s v
  own : v.Own
  zero : role 0 = 0
  pos : 1 ≤ n
  inj : ∀ j < n, ∀ k < n, role j = role k → j = k
  made : ∀ i, (s.core (.procs i)).status ≠ .free ↔ ∃ k < n, role k = i
  zombie : ∀ k < n, (s.core (.procs (role k))).status = .zombie ↔ (user (role k)).Ended
  parent : ∀ k < n, (s.core (.procs (role k))).parent =
    if k = 0 then .null else .procs (role (k - 1))

/-- The running process has a role and has not exited. -/
theorem Kernel.cur (h : Kernel s v user role n) :
    ∃ k < n, role k = s.pid ∧ v.cur = .procs (role k) ∧ ¬ (user (role k)).Ended := by
  obtain ⟨i, hi⟩ := h.own v.cur List.mem_cons_self
  have hrun := h.inv.ok.running
  have hpid : s.pid = i := by rw [h.inv.pid_eq, hi, h.inv.ok.pid]
  obtain ⟨k, hk, hrole⟩ := (h.made i).1 (by rw [← hi, hrun]; decide)
  refine ⟨k, hk, hrole.trans hpid.symm, by rw [hi, hrole], fun hend => ?_⟩
  have hz := (h.zombie k hk).2 hend
  rw [hrole, ← hi, hrun] at hz
  cases hz

/-- A process that has not exited runs, is ready or sleeps. -/
theorem Kernel.place (h : Kernel s v user role n) (hk : k < n) :
    ¬ (user (role k)).Ended ↔ .procs (role k) ∈ v.places := by
  have hmade := (h.made (role k)).2 ⟨k, hk, rfl⟩
  rw [← h.zombie k hk]
  constructor
  · intro hz
    obtain ⟨a, ha, hai⟩ := h.inv.ok.placed (role k) ⟨hmade, hz⟩
    obtain ⟨i, rfl⟩ := h.own a ha
    rw [h.inv.ok.pid] at hai
    exact hai ▸ ha
  · intro hm
    have hl := (h.inv.ok.live _ hm).2
    rwa [h.inv.ok.pid] at hl

/-- A step other than a fork keeps the roles. -/
theorem Kernel.step (h : Kernel s v user role n) (hs : Step s v e s' v') (hfork : e ≠ .fork)
    (hexit : e = .exit → NoParent s.core v)
    (hend : ∀ k < n, (user' (role k)).Ended ↔
      (user (role k)).Ended ∨ e = .exit ∧ role k = s.pid) : Kernel s' v' user' role n where
  inv := hs.inv h.inv
  own := hs.own h.own hexit
  zero := h.zero
  pos := h.pos
  inj := h.inj
  made i := by
    rw [← h.made i]
    exact ⟨fun h' hf => h' (hs.free_stays h.inv hfork hf), hs.ne_free⟩
  zombie k hk := by rw [hs.zombie_iff h.inv, h.zombie k hk, hend k hk]
  parent k hk := by rw [hs.parent_eq ((h.made _).2 ⟨k, hk, rfl⟩), h.parent k hk]

/-- The registers do not matter. -/
theorem Kernel.registers (h : Kernel s v user role n) (f : Fin NPROC → ℤ)
    (hend : ∀ k < n, (user' (role k)).Ended ↔ (user (role k)).Ended) :
    Kernel { s with a0 := f } v user' role n :=
  { h with
    inv := h.inv.trapped f
    zombie := fun k hk => (h.zombie k hk).trans (hend k hk).symm }

/-! ## What the processes keep -/

/-- The variables that a fork copies. -/
structure Vars (u : User) : Prop where
  mainSem : u.mainSem = 1
  first : u.childSem 0 = 2
  second : u.childSem 1 = 3

/-- The loop of the role `k`, when `n` processes have been made. -/
def Looping (k n : ℕ) (child : Bool) (u : User) : Prop :=
  k = 0 ∧ child = false ∧ 2 ≤ n ∨ (k = 1 ∨ k = 2) ∧ child = true ∧ n = 3 ∧ (u.pid = 0 ↔ k = 2)

/-- Where the process of the role `k` is, with `r` in its register `a0`. -/
def Place (k n : ℕ) (r : ℤ) (u : User) : Prop :=
  match u.site with
  | .newMain => False
  | .newChild => False
  | .forkMain =>
    if u.returned = true then k = 0 ∧ 2 ≤ n ∧ r ≠ 0 ∨ k = 1 ∧ n = 2 ∧ r = 0 else k = 0 ∧ n = 1
  | .forkChild =>
    if u.returned = true then n = 3 ∧ (k = 1 ∧ r ≠ 0 ∨ k = 2 ∧ r = 0) else k = 1 ∧ n = 2
  | .semP child => u.i < 10 ∧ Looping k n child u
  | .print child => u.i < 10 ∧ Looping k n child u
  | .semV child => u.i < 10 ∧ Looping k n child u
  | .exit => k = 0 ∧ 2 ≤ n ∨ (k = 1 ∨ k = 2) ∧ n = 3

/-- The register only matters behind a fork. -/
theorem Place.register {r r' : ℤ} {u : User} (h : Place k n r u)
    (hr : u.returned = true → u.site = .forkMain ∨ u.site = .forkChild → r' = r) :
    Place k n r' u := by
  unfold Place at h ⊢
  cases hsite : u.site <;> rw [hsite] at h hr <;> try exact h
  all_goals
    simp only at h ⊢
    by_cases hret : u.returned = true
    · rw [hr hret (by simp)]
      exact h
    · rwa [if_neg hret] at h ⊢

/-- What does not change from behind a system call to the next one. -/
structure Resumes (k n : ℕ) (u u' : User) : Prop where
  vars : Vars u'
  place : ∀ r, Place k n r u'
  ready : u'.returned = false
  asked : u'.asked = u.asked
  printed : u'.printed = u.printed
  given : u'.given = u.given
  left : u'.left + 1 ≤ u.left


variable {u : User} {r : ℤ} {child : Bool}

theorem Looping.kind (h : Looping k n child u) :
    k = 0 ∧ 2 ≤ n ∨ (k = 1 ∨ k = 2) ∧ n = 3 := by
  rcases h with ⟨hk, -, hn⟩ | ⟨hk, -, hn, -⟩
  · exact .inl ⟨hk, hn⟩
  · exact .inr ⟨hk, hn⟩

/-- The head of the loop. -/
theorem Looping.loop (h : Looping k n child u) (hv : Vars u) :
    Vars (u.loop child) ∧ (∀ r, Place k n r (u.loop child)) ∧ (u.loop child).returned = false := by
  unfold User.loop
  split
  · rename_i hi
    exact ⟨⟨hv.mainSem, hv.first, hv.second⟩, fun r => ⟨hi, h⟩, rfl⟩
  · exact ⟨⟨hv.mainSem, hv.first, hv.second⟩, fun r => h.kind, rfl⟩

theorem Place.resumes (h : Place k n r u) (hv : Vars u) (hret : u.returned = true)
    (hend : ¬ u.Ended) : Resumes k n u (u.resume r) := by
  unfold Place at h
  unfold User.resume
  cases hsite : u.site with
  | newMain => simp [hsite] at h
  | newChild => simp [hsite] at h
  | forkMain =>
    simp only [hsite, hret, if_true] at h ⊢
    rcases h with ⟨hk, hn, hr⟩ | ⟨hk, hn, hr⟩
    · rw [if_neg hr]
      obtain ⟨hv', hp, hready⟩ := Looping.loop (u := { u with pid := r, i := 0 })
        (.inl ⟨hk, rfl, hn⟩) ⟨hv.mainSem, hv.first, hv.second⟩
      exact ⟨hv', hp, hready, by simp [User.asked, User.loop, User.goto, hsite],
        by simp [User.printed, User.loop, User.goto, hsite],
        by simp [User.given, User.loop, User.goto, hsite],
        by simp [User.left, User.loop, User.goto, hsite, hret]⟩
    · rw [if_pos hr]
      exact ⟨⟨hv.mainSem, hv.first, hv.second⟩, fun r' => ⟨hk, hn⟩, rfl,
        by simp [User.asked, User.goto, hsite], by simp [User.printed, User.goto, hsite],
        by simp [User.given, User.goto, hsite], by simp [User.left, User.goto, hsite, hret]⟩
  | forkChild =>
    simp only [hsite, hret, if_true] at h ⊢
    have hl : Looping k n true { u with pid := r, i := 0 } := by
      obtain ⟨hn, hk⟩ := h
      refine .inr ⟨by omega, rfl, hn, ?_⟩
      simp only
      omega
    obtain ⟨hv', hp, hready⟩ := hl.loop ⟨hv.mainSem, hv.first, hv.second⟩
    exact ⟨hv', hp, hready, by simp [User.asked, User.loop, User.goto, hsite],
      by simp [User.printed, User.loop, User.goto, hsite],
      by simp [User.given, User.loop, User.goto, hsite],
      by simp [User.left, User.loop, User.goto, hsite, hret]⟩
  | semP child =>
    simp only [hsite] at h ⊢
    have hi := h.1
    exact ⟨⟨hv.mainSem, hv.first, hv.second⟩, fun r' => h, rfl,
      by simp [User.asked, User.goto, hsite, hret], by simp [User.printed, User.goto, hsite],
      by simp [User.given, User.goto, hsite], by simp [User.left, User.goto, hsite, hret]; omega⟩
  | print child =>
    simp only [hsite] at h ⊢
    have hi := h.1
    exact ⟨⟨hv.mainSem, hv.first, hv.second⟩, fun r' => h, rfl,
      by simp [User.asked, User.goto, hsite], by simp [User.printed, User.goto, hsite, hret],
      by simp [User.given, User.goto, hsite], by simp [User.left, User.goto, hsite, hret]; omega⟩
  | semV child =>
    simp only [hsite] at h ⊢
    obtain ⟨hi, hl⟩ := h
    have hl' : Looping k n child { u with i := u.i + 1 } := hl
    obtain ⟨hv', hp, hready⟩ := hl'.loop ⟨hv.mainSem, hv.first, hv.second⟩
    by_cases hlt : u.i + 1 < 10
    · exact ⟨hv', hp, hready, by simp [User.loop, User.goto, User.asked, hsite, hlt],
        by simp [User.loop, User.goto, User.printed, hsite, hlt],
        by simp [User.loop, User.goto, User.given, hsite, hret, hlt],
        by simp [User.loop, User.goto, User.left, hsite, hret, hlt]; omega⟩
    · have hi' : u.i = 9 := by omega
      exact ⟨hv', hp, hready, by simp [User.loop, User.goto, User.asked, hsite, hi'],
        by simp [User.loop, User.goto, User.printed, hsite, hi'],
        by simp [User.loop, User.goto, User.given, hsite, hret, hi'],
        by simp [User.loop, User.goto, User.left, hsite, hret, hi']⟩
  | exit => exact absurd ⟨hsite, hret⟩ hend

/-- The semaphore that the role `k` waits for. -/
theorem Place.call_semP (h : Place k n r u) (hv : Vars u) (hsite : u.site = .semP child) :
    u.call = .sys (.semP (k + 1)) := by
  rw [Place, hsite] at h
  rw [User.call, hsite]
  rcases h.2 with ⟨rfl, rfl, -⟩ | ⟨hk, rfl, -, hpid⟩
  · simp only [hv.mainSem]
    rfl
  · rcases hk with rfl | rfl
    · simp [User.isZero, hpid, hv.first]
    · simp [User.isZero, hpid, hv.second]

/-- The semaphore of the next role. -/
theorem Place.call_semV (h : Place k n r u) (hv : Vars u) (hsite : u.site = .semV child) :
    u.call = .sys (.semV (((k + 1) % 3 : ℕ) + 1)) := by
  rw [Place, hsite] at h
  rw [User.call, hsite]
  rcases h.2 with ⟨rfl, rfl, -⟩ | ⟨hk, rfl, -, hpid⟩
  · simp only [hv.first]
    rfl
  · rcases hk with rfl | rfl
    · simp [hpid, hv.second]
    · simp [hpid, hv.mainSem]

theorem Place.call_print (h : Place k n r u) (hsite : u.site = .print child) :
    u.call = .print (line (3 * u.i + k)) := by
  rw [Place, hsite] at h
  rw [User.call, hsite, line]
  rcases h.2 with ⟨rfl, rfl, -⟩ | ⟨hk, rfl, -, hpid⟩
  · simp
  · rcases hk with rfl | rfl
    · rw [show (3 * u.i + 1) % 3 = 1 by omega, show (3 * u.i + 1) / 3 = u.i by omega]
      simp [User.isZero, hpid]
    · rw [show (3 * u.i + 2) % 3 = 2 by omega, show (3 * u.i + 2) / 3 = u.i by omega]
      simp [User.isZero, hpid]

/-! ## The semaphores -/

/-- A number of the process with the role `k`, zero before it is made. -/
def count (f : User → ℕ) (user : Fin NPROC → User) (role : ℕ → Fin NPROC) (n k : ℕ) : ℕ :=
  if k < n then f (user (role k)) else 0

/-- The counters of the three semaphores, and who sleeps. -/
structure Tokens (s : Sched) (v : View) (user : Fin NPROC → User) (role : ℕ → Fin NPROC) (n : ℕ) :
    Prop where
  counter : ∀ k : ℕ, k < 3 → s.l (k + 1) + count User.asked user role n k =
    (if k = 0 then 1 else 0) + count User.given user role n ((k + 2) % 3)
  low : ∀ k : ℕ, k < 3 → -1 ≤ s.l (k + 1)
  sleeps : ∀ k : ℕ, k < n → (.procs (role k) ∈ v.wait ↔ s.l (k + 1) < 0)
  sem : ∀ k : ℕ, k < n → .procs (role k) ∈ v.wait → (s.core (.procs (role k))).sem = k + 1
  behind : ∀ k : ℕ, k < n → .procs (role k) ∈ v.wait →
    (∃ child, (user (role k)).site = .semP child) ∧ (user (role k)).returned = true

/-- What holds in every state behind the three calls of `sem_new`. -/
structure Ring (x : App) (v : View) (role : ℕ → Fin NPROC) (n : ℕ) : Prop where
  kernel : Kernel x.s v x.user role n
  le : n ≤ 3
  vars : ∀ k < n, Vars (x.user (role k))
  place : ∀ k < n, Place k n (x.s.a0 (role k)) (x.user (role k))
  tokens : Tokens x.s v x.user role n
  out : x.out = (List.range (count User.printed x.user role n 0 +
    count User.printed x.user role n 1 + count User.printed x.user role n 2)).map line

end SemaphoreApp

end HustOS.Proc
