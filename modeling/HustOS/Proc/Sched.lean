import HustOS.Kernel
import HustOS.Foundations.Chain
import Mathlib.Algebra.Ring.Int.Defs
import Mathlib.Data.Fintype.Sum
import Mathlib.Data.List.FinRange
import Mathlib.Tactic.Common
import Mathlib.Tactic.DeriveFintype

/-!
# Processes and their queues

`kernel/sched.c` with the parts of `kernel/process.c`, `kernel/syscall.c` and `kernel/strap.c` that
move processes: fork, yield, the timer, wait, exit and the semaphores, on one hart. The ready queue
and the wait queue are threaded through the field `queue_next` of the process structures, so the
state has a memory of structures and the heads of the queues.

A structure is an element of `procs[]`, or the local variable `t` into which `schedule(1)` copies
the structure of a waiting parent. `t` lies on the kernel stack of the process that exits and stays
there, since that stack is never used again.

The address spaces are left out: a page that cannot be allocated only stops a run earlier. Of a
trapframe the model has the register `a0`, the result of a system call; a copy of a structure shares
the trapframe, which is therefore named by the process id.
-/

namespace HustOS.Proc

open Foundations

/-! ## The state -/

/-- The kernel supports at most 32 processes. -/
abbrev NPROC : ℕ := 32

/-- The length of the array `l` of semaphores. -/
abbrev NSEM : ℤ := 100

/-- `enum proc_status`. -/
inductive Status
  | free
  | ready
  | running
  | blocked
  | zombie
  | used
  deriving DecidableEq

/-- A pointer to a process structure. -/
inductive Addr
  | null
  /-- `&procs[i]`. -/
  | procs (i : Fin NPROC)
  /-- `&t` of `schedule(1)`, on the kernel stack of the process `i`. -/
  | stack (i : Fin NPROC)
  deriving DecidableEq, Fintype

/-- The fields of a process structure that scheduling reads. -/
structure Process where
  pid : Fin NPROC
  status : Status
  parent : Addr
  queueNext : Addr
  tickCount : ℤ
  sem : ℤ

/-- The process structures and the globals of the scheduler. -/
structure Sched where
  /-- The structure at an address. -/
  mem : Addr → Process
  current : Addr
  readyQueueHead : Addr
  waitQueueHead : Addr
  /-- The counters of the semaphores. -/
  l : ℤ → ℤ
  /-- The number of semaphores made. -/
  len : ℤ
  /-- `trapframe->regs.a0` of a process. -/
  a0 : Fin NPROC → ℤ

namespace Sched

/-- A load through a pointer. -/
def deref (s : Sched) (p : Addr) : Except Fault Process :=
  if p = .null then throw .nullDeref else return s.mem p

/-- A store of a structure. -/
def write (s : Sched) (p : Addr) (x : Process) : Sched :=
  { s with mem := Function.update s.mem p x }

end Sched

/-! ## The queues -/

/-- As many iterations as there are addresses. -/
abbrev FUEL : ℕ := 2 * NPROC + 1

/-- The loop of both insertions: the last structure of the queue from `p` on, or `none` where it
finds `proc` in the queue. -/
def lastLoop (mem : Addr → Process) (proc : Addr) : ℕ → Addr → Except Fault (Option Addr)
  | 0, _ => throw .spin
  | fuel + 1, p =>
    if p = proc then return none
    else if (mem p).queueNext = .null then return some p
    else lastLoop mem proc fuel (mem p).queueNext

/-- Insertion at the rear of the queue from `head`, with the status of that queue. -/
def insertToQueue (status : Status) (proc head : Addr) (mem : Addr → Process) :
    Except Fault (Addr × (Addr → Process)) :=
  if head = .null then
    return (proc, Function.update mem proc { mem proc with status := status, queueNext := .null })
  else do
    match ← lastLoop mem proc FUEL head with
    | none => return (head, mem)
    | some p =>
      let mem := Function.update mem p { mem p with queueNext := proc }
      return (head,
        Function.update mem proc { mem proc with status := status, queueNext := .null })

/-- `insert_to_ready_queue`. -/
def insertToReadyQueue (proc : Addr) (s : Sched) : Except Fault Sched := do
  let (head, mem) ← insertToQueue .ready proc s.readyQueueHead s.mem
  return { s with readyQueueHead := head, mem := mem }

/-- `insert_to_wait_queue`. -/
def insertToWaitQueue (proc : Addr) (s : Sched) : Except Fault Sched := do
  let (head, mem) ← insertToQueue .blocked proc s.waitQueueHead s.mem
  return { s with waitQueueHead := head, mem := mem }

/-- `insert_to_ready_queue_head`. -/
def insertToReadyQueueHead (proc : Addr) (s : Sched) : Sched :=
  { s.write proc { s.mem proc with status := .ready, queueNext := s.readyQueueHead } with
    readyQueueHead := proc }

/-- The loop of `wake_wait_queue`: the first structure from `p` on whose field `sem` is `a1`, with
the one in front of it. -/
def wakeLoop (mem : Addr → Process) (a1 : ℤ) : ℕ → Addr → Addr →
    Except Fault (Option (Addr × Addr))
  | 0, _, _ => throw .spin
  | fuel + 1, front, p =>
    if p = .null then return none
    else if (mem p).sem = a1 then return some (front, p)
    else wakeLoop mem a1 fuel p (mem p).queueNext

/-- `wake_wait_queue`. -/
def wakeWaitQueue (a1 : ℤ) (s : Sched) : Except Fault Sched :=
  if 0 ≤ s.l a1 then do
    match ← wakeLoop s.mem a1 FUEL .null s.waitQueueHead with
    | none => return s
    | some (front, p) =>
      let s :=
        if p = s.waitQueueHead then { s with waitQueueHead := (s.mem p).queueNext }
        else s.write front { s.mem front with queueNext := (s.mem p).queueNext }
      return insertToReadyQueueHead p s
  else return s

/-! ## `schedule` -/

/-- The head of the ready queue gets the processor. -/
def dispatch (s : Sched) : Except Fault Sched := do
  let p ← s.deref s.readyQueueHead
  if p.status ≠ .ready then throw (.assertion "current[cpu]->status == READY")
  return { s.write s.readyQueueHead { p with status := .running } with
    current := s.readyQueueHead
    readyQueueHead := p.queueNext }

/-- The search of `schedule(1)`: the local `t` runs through copies of the structures of the wait
queue up to one with the process id `pid`. -/
def searchLoop (mem : Addr → Process) (pid : Fin NPROC) : ℕ → Process →
    Except Fault (Bool × Process)
  | 0, _ => throw .spin
  | fuel + 1, t =>
    if t.pid = pid then return (true, t)
    else if t.queueNext = .null then return (false, t)
    else searchLoop mem pid fuel (mem t.queueNext)

/-- The second loop of `schedule(1)`: it takes the first structure with the process id `pid` out of
the wait queue. `w` is the value of `wait_queue_head` during the loop, `head` the one it had before,
and `pro` the structure in front of `w`. -/
def unlinkLoop (pid : Fin NPROC) (head : Addr) : ℕ → Addr → Addr → (Addr → Process) →
    Except Fault (Addr × (Addr → Process))
  | 0, _, _, _ => throw .spin
  | fuel + 1, w, pro, mem =>
    if w = .null then throw .nullDeref
    else if (mem w).pid = pid then
      if pro = .null then return ((mem w).queueNext, mem)
      else return (head, Function.update mem pro { mem pro with queueNext := (mem w).queueNext })
    else
      unlinkLoop pid head fuel (mem w).queueNext
        (if pro = .null then head else (mem pro).queueNext) mem

/-- `schedule(1)` when the parent of the exiting process was found in the wait queue: the copy at
`t` is queued, or runs at once if nobody is ready. -/
def scheduleParent (t : Addr) (s : Sched) : Except Fault Sched := do
  let head := s.waitQueueHead
  let (waitQueueHead, mem) ← unlinkLoop (s.mem t).pid head FUEL head .null s.mem
  let s := { s with waitQueueHead := waitQueueHead, mem := mem }
  if s.readyQueueHead ≠ .null then
    let s ← insertToReadyQueue t s
    dispatch s
  else return { s.write t { s.mem t with status := .running } with current := t }

/-- `schedule`. It leaves through `switch_to`, so what it returns is the state in which the next
process goes on. -/
def schedule (type : ℤ) (s : Sched) : Except Fault Sched :=
  if s.waitQueueHead ≠ .null ∧ type = 1 then do
    let cur ← s.deref s.current
    if cur.parent ≠ .null then
      let (flag, t) ← searchLoop s.mem (s.mem cur.parent).pid FUEL (s.mem s.waitQueueHead)
      let s := s.write (.stack cur.pid) t
      if flag then scheduleParent (.stack cur.pid) s else dispatch s
    else dispatch (s.write (.stack cur.pid) (s.mem s.waitQueueHead))
  else if s.readyQueueHead = .null then
    if ∀ i, (s.mem (.procs i)).status = .free ∨ (s.mem (.procs i)).status = .zombie then
      throw (.shutdown 0)
    else throw (.panic "Not handled: we should let system wait for unfinished processes.\n")
  else dispatch s

/-! ## Processes -/

/-- `free_process`. -/
def freeProcess (proc : Addr) (s : Sched) : Sched :=
  let pid := (s.mem proc).pid
  let mem : Addr → Process := fun a =>
    match a with
    | .procs i =>
      if (s.mem (.procs i)).pid = pid then { s.mem (.procs i) with status := .zombie }
      else s.mem (.procs i)
    | a => s.mem a
  { s with mem := Function.update mem proc { mem proc with status := .zombie } }

/-- `alloc_process`: the first free element of `procs[]`, with a zeroed trapframe. -/
def allocProcess (s : Sched) : Except Fault (Fin NPROC × Sched) :=
  match (List.finRange NPROC).find? fun i => (s.mem (.procs i)).status = .free with
  | none => throw (.panic "cannot find any free process structure.\n")
  | some i =>
    return (i,
      { s.write (.procs i) { s.mem (.procs i) with status := .used } with
        a0 := Function.update s.a0 i 0 })

/-- `do_fork`, without the address space. -/
def doFork (parent : Addr) (s : Sched) : Except Fault (ℤ × Sched) := do
  let (i, s) ← allocProcess s
  let s := { s with a0 := Function.update s.a0 i 0 }
  let s := s.write (.procs i) { s.mem (.procs i) with status := .ready, parent := parent }
  let s ← insertToReadyQueue (.procs i) s
  return ((s.mem (.procs i)).pid, s)

/-- The caller sleeps in the wait queue and another process is scheduled. -/
def sleep (s : Sched) : Except Fault Sched := do
  let s ← insertToWaitQueue s.current s
  schedule 0 s

/-- The child the loops of `process_wait` stop at. -/
def waitedChild (pid : ℤ) (s : Sched) : Option (Fin NPROC) :=
  if pid = -1 then
    (List.finRange NPROC).find? fun i =>
      (s.mem (.procs i)).parent ≠ .null ∧ (s.mem (.procs i)).parent = s.current
  else if pid > 0 then
    (List.finRange NPROC).find? fun i =>
      (s.mem (.procs i)).parent ≠ .null ∧
        (s.mem (s.mem (.procs i)).parent).pid = (s.mem s.current).pid ∧
        ((s.mem (.procs i)).pid : ℤ) = pid
  else none

/-- `process_wait`. The result is `none` where the call leaves through `schedule`. A zombie stays
one: the source compares its status with `FREE` where it seems to assign it. -/
def processWait (pid : ℤ) (s : Sched) : Except Fault (Option ℤ × Sched) := do
  match waitedChild pid s with
  | none => return (some (-1), s)
  | some i =>
    if (s.mem (.procs i)).status = .zombie then return (some (s.mem (.procs i)).pid, s)
    else
      let s ← sleep s
      return (none, s)

/-! ## System calls and the timer -/

/-- The indices of the array of semaphores. -/
def semCheck (a1 : ℤ) : Except Fault Unit :=
  if 0 ≤ a1 ∧ a1 < NSEM then return () else throw (.undefined "l[a1]")

/-- The result of an `int` addition. -/
def intCheck (x : ℤ) : Except Fault Unit :=
  if -2 ^ 31 ≤ x ∧ x < 2 ^ 31 then return () else throw (.undefined "int overflow")

/-- `sys_user_sem_new`. -/
def sysUserSemNew (a1 : ℤ) (s : Sched) : Except Fault (ℤ × Sched) := do
  let len := s.len + 1
  semCheck len
  return (len, { s with len := len, l := Function.update s.l len a1 })

/-- `sys_user_sem_P`. -/
def sysUserSemP (a1 : ℤ) (s : Sched) : Except Fault (Option ℤ × Sched) := do
  semCheck a1
  intCheck (s.l a1 - 1)
  let s' := { s with l := Function.update s.l a1 (s.l a1 - 1) }
  if s.l a1 - 1 ≥ 0 then return (some 1, s')
  else
    let s' := s'.write s'.current { s'.mem s'.current with sem := a1 }
    let s' ← sleep s'
    return (none, s')

/-- `sys_user_sem_V`. -/
def sysUserSemV (a1 : ℤ) (s : Sched) : Except Fault (ℤ × Sched) := do
  semCheck a1
  intCheck (s.l a1 + 1)
  let s ← wakeWaitQueue a1 { s with l := Function.update s.l a1 (s.l a1 + 1) }
  return (1, s)

/-- `sys_user_exit` on the only hart. -/
def sysUserExit (s : Sched) : Except Fault Sched :=
  schedule 1 (freeProcess s.current s)

/-- `sys_user_yield`. -/
def sysUserYield (s : Sched) : Except Fault Sched := do
  let s ← insertToReadyQueue s.current s
  schedule 0 s

/-- `rrsched`. -/
def rrsched (s : Sched) : Except Fault Sched := do
  let cur := s.mem s.current
  if cur.tickCount + 1 ≥ 2 then
    let s := s.write s.current { cur with tickCount := 0 }
    let s ← insertToReadyQueue s.current s
    schedule 0 s
  else return s.write s.current { cur with tickCount := cur.tickCount + 1 }

/-- What the running process does next. -/
inductive Event
  | fork
  | yield
  /-- A timer interrupt while the register `a0` of the process holds a value. -/
  | tick (a0 : ℤ)
  | wait (pid : ℤ)
  | exit
  | semNew (a1 : ℤ)
  | semP (a1 : ℤ)
  | semV (a1 : ℤ)
  deriving DecidableEq

/-- What the trap saves as `a0`: the number of the system call (`kernel/syscall.h`), or whatever the
register holds at a timer interrupt. -/
def Event.a0 : Event → ℤ
  | .exit => 65
  | .fork => 68
  | .yield => 69
  | .wait _ => 94
  | .semNew _ => 101
  | .semP _ => 102
  | .semV _ => 103
  | .tick a0 => a0

/-- `do_syscall` of a system call and `rrsched` of a timer interrupt. The result is `none` where no
call returns one: it leaves through `schedule`, or it is the timer. -/
def handle (e : Event) (s : Sched) : Except Fault (Option ℤ × Sched) :=
  match e with
  | .fork => do
    let (r, s) ← doFork s.current s
    return (some r, s)
  | .yield => do return (none, ← sysUserYield s)
  | .wait pid => processWait pid s
  | .exit => do return (none, ← sysUserExit s)
  | .semNew a1 => do
    let (r, s) ← sysUserSemNew a1 s
    return (some r, s)
  | .semP a1 => sysUserSemP a1 s
  | .semV a1 => do
    let (r, s) ← sysUserSemV a1 s
    return (some r, s)
  | .tick _ => do return (none, ← rrsched s)

/-- `smode_trap_handler`, from the trap to the `switch_to` that ends it. The trap saves `a0`, which
holds the number of a system call; `handle_syscall` stores the result of a call that returns. -/
def exec (e : Event) (s : Sched) : Except Fault Sched := do
  if s.current = .null then throw (.assertion "current[tp]")
  let pid := (s.mem s.current).pid
  let (r, s) ← handle e { s with a0 := Function.update s.a0 pid e.a0 }
  match r with
  | none => return s
  | some r => return { s with a0 := Function.update s.a0 pid r }

/-! ## The start -/

/-- `init_proc_pool`, over whatever the stacks hold. -/
def initProcPool (junk : Addr → Process) : Sched where
  mem a :=
    match a with
    | .procs i =>
      { pid := i, status := .free, parent := .null, queueNext := .null, tickCount := 0, sem := 0 }
    | a => junk a
  current := .null
  readyQueueHead := .null
  waitQueueHead := .null
  l _ := 0
  len := 0
  a0 _ := 0

/-- The end of `s_start`: the first process is loaded and scheduled. -/
def sStart (junk : Addr → Process) : Except Fault Sched := do
  let (i, s) ← allocProcess (initProcPool junk)
  let s ← insertToReadyQueue (.procs i) s
  schedule 0 s

end HustOS.Proc
