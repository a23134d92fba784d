import HustOS.Boot.SpinLock
import HustOS.Kernel

/-!
# System calls of the host

`frontend_syscall` of `spike_interface/spike_utils.c`, with `do_tohost_fromhost` of
`spike_interface/spike_htif.c` below it: any number of harts, one access to the memory they share at
a time. A call writes its number and its arguments to `magic_mem`, the address of `magic_mem` to
`tohost`, waits for an answer in `fromhost`, and takes the result from `magic_mem[0]`. The calls
share one `magic_mem`, behind a spin lock; a second one is around the two registers.

The host is a parameter: it takes a request from `tohost`, reads the words of `magic_mem`, does the
call, writes the result to the first word, and answers when `fromhost` is zero. Between these steps
the harts go on.

As long as no hart breaks up a swap on the lock of `frontend_syscall`, the host serves each call
once, every call that returns has the result that the host has computed for its own words, and
`__check_fromhost` never finds an answer that is not from the console (`frontendSyscall_of_run`).
Nothing is asked of the second lock: whoever is at it has the first one, since the functions for
single characters, which take the second lock alone, have no caller in the kernel.
-/

namespace HustOS.Boot

open Foundations

/-- A request: the number of the call and seven arguments. -/
abbrev Words : Type := Fin 8 → BitVec 64

namespace Htif

variable {n : ℕ} {W : Type}

/-! ## The harts and the host -/

/-- Where a hart is in `frontend_syscall`. -/
inductive Pc
  /-- Not in a call. -/
  | idle
  /-- At `spinlock_lock(&lock)`. -/
  | lock
  /-- In front of the store of `magic_mem[i]`. -/
  | store (i : Fin 8)
  /-- At `spinlock_lock(&htif_lock)`. -/
  | lockHtif
  /-- At the loop of `__set_tohost`. -/
  | waitTohost
  /-- In front of the store to `tohost`. -/
  | setTohost
  /-- At the loop of `do_tohost_fromhost`. -/
  | waitFromhost
  /-- At `spinlock_unlock(&htif_lock)`. -/
  | unlockHtif
  /-- In front of the load of `magic_mem[0]`. -/
  | load
  /-- At `spinlock_unlock(&lock)`. -/
  | unlock (ret : BitVec 64)
  deriving DecidableEq

/-- Where the host is. -/
inductive HostPc
  /-- It looks at `tohost`. -/
  | idle
  /-- It has taken a request. -/
  | taken
  /-- It has done the call, and has not answered yet. -/
  | done
  deriving DecidableEq

end Htif

/-- The memory that the harts share with each other and with the host, and where all of them are.
`world` is what the calls of the host work on. The last two members are no part of the source: the
calls that the host has done and those that have returned, each with its result. -/
structure Htif (n : ℕ) (W : Type) where
  lock : SpinLock.Harts n
  htifLock : SpinLock.Harts n
  magicMem : Words
  tohost : BitVec 64
  fromhost : BitVec 64
  htifConsoleBuf : ℤ
  pc : Fin n → Htif.Pc
  args : Fin n → Words
  host : Htif.HostPc
  world : W
  served : List (Words × BitVec 64)
  returned : List (Words × BitVec 64)

namespace Htif

variable {n : ℕ} {W : Type}

/-- `FROMHOST_DEV`. -/
def fromhostDev (x : BitVec 64) : BitVec 64 := x >>> 56

/-- `FROMHOST_CMD`. -/
def fromhostCmd (x : BitVec 64) : BitVec 64 := (x <<< 8) >>> 56

/-- `FROMHOST_DATA`. -/
def fromhostData (x : BitVec 64) : BitVec 64 := (x <<< 16) >>> 16

/-- `TOHOST_CMD`. -/
def tohostCmd (dev cmd payload : BitVec 64) : BitVec 64 := dev <<< 56 ||| cmd <<< 48 ||| payload

/-- The hart `h` goes on at `pc`. -/
def goto (pc : Pc) (h : Fin n) (s : Htif n W) : Htif n W :=
  { s with pc := Function.update s.pc h pc }

/-- `__check_fromhost`. -/
def checkFromhost (s : Htif n W) : Except Fault (Htif n W) :=
  if s.fromhost = 0 then .ok s
  else if fromhostDev s.fromhost ≠ 1 then .error (.assertion "FROMHOST_DEV(fh) == 1")
  else if fromhostCmd s.fromhost = 0 then
    .ok { s with
      fromhost := 0
      htifConsoleBuf := 1 + (fromhostData s.fromhost % 256).toNat }
  else if fromhostCmd s.fromhost = 1 then .ok { s with fromhost := 0 }
  else .error (.assertion "0")

/-- The next access of the hart `h`. The load of an answer and the store that clears it are one, as
the host does not write to `fromhost` in between. -/
def step (magic : BitVec 64) (h : Fin n) (s : Htif n W) : Except Fault (Htif n W) :=
  match s.pc h with
  | .idle => .ok s
  | .lock =>
    let l := s.lock.step h
    .ok ({ s with lock := l }.goto (if l.pc h = SpinLock.Pc.inside then .store 0 else .lock) h)
  | .store i =>
    .ok ({ s with magicMem := Function.update s.magicMem i (s.args h i) }.goto
      (if i = 7 then .lockHtif else .store (i + 1)) h)
  | .lockHtif =>
    let l := s.htifLock.step h
    .ok ({ s with htifLock := l }.goto
      (if l.pc h = SpinLock.Pc.inside then .waitTohost else .lockHtif) h)
  | .waitTohost => if s.tohost = 0 then .ok (s.goto .setTohost h) else s.checkFromhost
  | .setTohost => .ok ({ s with tohost := tohostCmd 0 0 magic }.goto .waitFromhost h)
  | .waitFromhost =>
    if s.fromhost = 0 then .ok s
    else if fromhostDev s.fromhost = 0 ∧ fromhostCmd s.fromhost = 0 then
      .ok ({ s with fromhost := 0 }.goto .unlockHtif h)
    else s.checkFromhost
  | .unlockHtif => .ok ({ s with htifLock := s.htifLock.step h }.goto .load h)
  | .load => .ok (s.goto (.unlock (s.magicMem 0)) h)
  | .unlock ret =>
    .ok ({ s with lock := s.lock.step h, returned := s.returned ++ [(s.args h, ret)] }.goto .idle h)

/-- What can happen next. -/
inductive Event (n : ℕ)
  /-- The hart `h` calls `frontend_syscall`. -/
  | call (h : Fin n) (words : Words)
  /-- The next access of the hart `h`. -/
  | step (h : Fin n)
  /-- The host takes a request. -/
  | take
  /-- The host does the call. -/
  | serve
  /-- The host answers. -/
  | answer

/-- One event, for the address of `magic_mem` and what the host does for a call. An event that is
not possible changes nothing. -/
def exec (magic : BitVec 64) (serve : Words → W → BitVec 64 × W) (s : Htif n W) :
    Event n → Except Fault (Htif n W)
  | .call h words =>
    .ok (if s.pc h = .idle then
      { s with args := Function.update s.args h words }.goto .lock h else s)
  | .step h => s.step magic h
  | .take =>
    .ok (if s.host = .idle ∧ s.tohost ≠ 0 then { s with tohost := 0, host := .taken } else s)
  | .serve =>
    .ok (if s.host = .taken then
      { s with
        magicMem := Function.update s.magicMem 0 (serve s.magicMem s.world).1
        world := (serve s.magicMem s.world).2
        host := .done
        served := s.served ++ [(s.magicMem, (serve s.magicMem s.world).1)] }
      else s)
  | .answer =>
    .ok (if s.host = .done ∧ s.fromhost = 0 then { s with fromhost := 1, host := .idle } else s)

/-- Nobody is in a call, and the host has nothing to do. -/
def start (w : W) (console : ℤ) (words : Words) : Htif n W where
  lock := .start n
  htifLock := .start n
  magicMem := words
  tohost := 0
  fromhost := 0
  htifConsoleBuf := console
  pc _ := .idle
  args _ := words
  host := .idle
  world := w
  served := []
  returned := []

/-- The event is no access to the lock of `frontend_syscall` that breaks up the swap of a hart. -/
def Calm (s : Htif n W) : Event n → Prop
  | .step h => s.pc h = .lock ∨ (∃ ret, s.pc h = .unlock ret) → ¬ SpinLock.Disturbs s.lock h
  | _ => True

/-- The states of the runs from `w` whose events satisfy `C`. -/
inductive Reached (C : Htif n W → Event n → Prop) (magic : BitVec 64)
    (serve : Words → W → BitVec 64 × W) (w : W) : Htif n W → Prop
  | start (console : ℤ) (words : Words) : Reached C magic serve w (start w console words)
  | exec {s s' : Htif n W} {e : Event n} (run : Reached C magic serve w s) (cond : C s e)
      (ok : exec magic serve s e = .ok s') : Reached C magic serve w s'

/-- The results of calls that the host does one after the other, from `w` on. -/
def results (serve : Words → W → BitVec 64 × W) : W → List Words → List (Words × BitVec 64)
  | _, [] => []
  | w, x :: xs => (x, (serve x w).1) :: results serve (serve x w).2 xs

/-- What they leave behind. -/
def worldAfter (serve : Words → W → BitVec 64 × W) (w : W) (xs : List Words) : W :=
  xs.foldl (fun w x => (serve x w).2) w

section Results

variable {serve : Words → W → BitVec 64 × W} (w : W) (xs : List Words) (x : Words)

theorem results_concat :
    results serve w (xs ++ [x]) =
      results serve w xs ++ [(x, (serve x (worldAfter serve w xs)).1)] := by
  induction xs generalizing w with
  | nil => rfl
  | cons y xs ih => exact congrArg _ (ih _)

theorem worldAfter_concat :
    worldAfter serve w (xs ++ [x]) = (serve x (worldAfter serve w xs)).2 :=
  List.foldl_concat ..

end Results

/-! ## The invariant -/

/-- The hart is past `spinlock_lock(&lock)`. -/
def Pc.Critical : Pc → Prop
  | .idle => False
  | .lock => False
  | _ => True

/-- There is no request and no answer. -/
def Silent (s : Htif n W) : Prop := s.tohost = 0 ∧ s.fromhost = 0 ∧ s.host = .idle

/-- Nobody is at the lock. -/
def Unlocked (l : SpinLock.Harts n) : Prop := SpinLock.Ok l ∧ ∀ h, l.pc h = .out

/-- Nobody but the hart `h` is at the lock. -/
def OnlyAt (l : SpinLock.Harts n) (h : Fin n) : Prop := SpinLock.Ok l ∧ ∀ h' ≠ h, l.pc h' = .out

/-- The hart `h` has the second lock. -/
def Holds (s : Htif n W) (h : Fin n) : Prop :=
  OnlyAt s.htifLock h ∧ s.htifLock.pc h = .inside

/-- The call of the hart `h` is not served yet. -/
def Unserved (s : Htif n W) (h : Fin n) : Prop := s.served = s.returned ∧ s.magicMem = s.args h

/-- The call of the hart `h` is served with the result `ret`, and has not returned. -/
def Served (s : Htif n W) (h : Fin n) (ret : BitVec 64) : Prop :=
  s.served = s.returned ++ [(s.args h, ret)]

/-- The request of the hart `h` is in `tohost`, at the host, or answered. -/
def Sent (s : Htif n W) (h : Fin n) : Prop :=
  (s.tohost ≠ 0 ∧ s.fromhost = 0 ∧ s.host = .idle ∧ Unserved s h) ∨
  (s.tohost = 0 ∧ s.fromhost = 0 ∧ s.host = .taken ∧ Unserved s h) ∨
  (s.tohost = 0 ∧ s.fromhost = 0 ∧ s.host = .done ∧ Served s h (s.magicMem 0)) ∨
  (s.tohost = 0 ∧ s.fromhost = 1 ∧ s.host = .idle ∧ Served s h (s.magicMem 0))

/-- What holds while the hart `h` is at a place behind the first lock. -/
def Phase (s : Htif n W) (h : Fin n) : Pc → Prop
  | .idle => True
  | .lock => True
  | .store i => Silent s ∧ Unlocked s.htifLock ∧ s.served = s.returned ∧
      ∀ j < i, s.magicMem j = s.args h j
  | .lockHtif => Silent s ∧ OnlyAt s.htifLock h ∧ Unserved s h
  | .waitTohost => Silent s ∧ Holds s h ∧ Unserved s h
  | .setTohost => Silent s ∧ Holds s h ∧ Unserved s h
  | .waitFromhost => Holds s h ∧ Sent s h
  | .unlockHtif => Silent s ∧ Holds s h ∧ Served s h (s.magicMem 0)
  | .load => Silent s ∧ Unlocked s.htifLock ∧ Served s h (s.magicMem 0)
  | .unlock ret => Silent s ∧ Unlocked s.htifLock ∧ Served s h ret

/-- What holds in all states that are reached. -/
structure Inv (serve : Words → W → BitVec 64 × W) (w : W) (s : Htif n W) : Prop where
  ok : SpinLock.Ok s.lock
  inside : ∀ h, s.lock.pc h = .inside ↔ (s.pc h).Critical
  idle : ∀ h, s.pc h = .idle → s.lock.pc h = .out
  served : s.served = results serve w (s.served.map Prod.fst)
  world : s.world = worldAfter serve w (s.served.map Prod.fst)
  outside : (∀ h, ¬ (s.pc h).Critical) →
    Silent s ∧ Unlocked s.htifLock ∧ s.served = s.returned
  phase : ∀ h, Phase s h (s.pc h)

section Lemmas

variable {s s' : Htif n W} {h h' : Fin n} {pc : Pc} {l l' : SpinLock.Harts n}
  {serve : Words → W → BitVec 64 × W} {w : W} {magic : BitVec 64}

@[simp] theorem goto_pc : (s.goto pc h).pc h = pc := Function.update_self ..

theorem goto_pc_of_ne (hne : h' ≠ h) : (s.goto pc h).pc h' = s.pc h' :=
  Function.update_of_ne hne ..

/-- What holds of all places after one hart has gone on. -/
theorem forall_goto (P : Fin n → Pc → Prop) (hself : P h pc) (hother : ∀ h' ≠ h, P h' (s.pc h'))
    (h' : Fin n) : P h' ((s.goto pc h).pc h') := by
  by_cases hne : h' = h
  · rw [hne, goto_pc]
    exact hself
  · rw [goto_pc_of_ne hne]
    exact hother h' hne

theorem OnlyAt.step (ho : OnlyAt l h) : OnlyAt (l.step h) h :=
  ⟨ho.1.step (SpinLock.not_disturbs_of_out ho.2), fun h' hne => by
    rw [SpinLock.Harts.step_pc_of_ne hne, ho.2 h' hne]⟩

theorem OnlyAt.unlock (ho : OnlyAt l h) (hi : l.pc h = .inside) : Unlocked (l.step h) := by
  refine ⟨ho.step.1, fun h' => ?_⟩
  by_cases hne : h' = h
  · rw [hne, SpinLock.Harts.step_inside hi, SpinLock.Harts.goto_pc]
  · exact ho.step.2 h' hne

theorem Unlocked.onlyAt (hu : Unlocked l) (h : Fin n) : OnlyAt l h := ⟨hu.1, fun h' _ => hu.2 h'⟩

theorem phase_of_not_critical (hnot : ¬ pc.Critical) : Phase s h pc := by
  cases pc with
  | idle => trivial
  | lock => trivial
  | _ => exact absurd trivial hnot

/-- One hart at most is past the first lock. -/
theorem Inv.one (inv : Inv serve w s) (hc : (s.pc h).Critical) (hc' : (s.pc h').Critical) :
    h = h' :=
  inv.ok.one h h' (.inl ((inv.inside h).2 hc)) (.inl ((inv.inside h').2 hc'))

/-- There is no request and no answer, unless a hart waits for one. -/
theorem Inv.silent_or (inv : Inv serve w s) :
    Silent s ∨ ∃ h, s.pc h = .waitFromhost ∧ Holds s h ∧ Sent s h := by
  by_cases hc : ∃ h, (s.pc h).Critical
  · obtain ⟨h, hc⟩ := hc
    have hp := inv.phase h
    cases hpc : s.pc h with
    | idle => exact (hpc ▸ hc : Pc.Critical .idle).elim
    | lock => exact (hpc ▸ hc : Pc.Critical .lock).elim
    | waitFromhost =>
      rw [hpc] at hp
      exact .inr ⟨h, hpc, hp⟩
    | _ =>
      rw [hpc] at hp
      exact .inl hp.1
  · exact .inl (inv.outside fun h hh => hc ⟨h, hh⟩).1

/-! ## One event -/

/-- A change that only the hart behind the first lock, or the host, makes. -/
theorem Inv.work (inv : Inv serve w s) (hc : (s.pc h).Critical) (hlock : s'.lock = s.lock)
    (hpc : ∀ h' ≠ h, s'.pc h' = s.pc h') (hc' : (s'.pc h).Critical)
    (hserved : s'.served = results serve w (s'.served.map Prod.fst))
    (hworld : s'.world = worldAfter serve w (s'.served.map Prod.fst))
    (hphase : Phase s' h (s'.pc h)) : Inv serve w s' := by
  have hother : ∀ h' ≠ h, ¬ (s'.pc h').Critical := by
    intro h' hne hcrit
    rw [hpc h' hne] at hcrit
    exact hne (inv.one hcrit hc)
  refine ⟨hlock ▸ inv.ok, fun h' => ?_, fun h' hid => ?_, hserved, hworld,
    fun hall => absurd hc' (hall h), fun h' => ?_⟩
  · rw [hlock, inv.inside]
    by_cases hne : h' = h
    · rw [hne]
      exact iff_of_true hc hc'
    · rw [hpc h' hne]
  · by_cases hne : h' = h
    · rw [hne] at hid
      exact (hid ▸ hc' : Pc.Critical .idle).elim
    · rw [hlock]
      exact inv.idle h' (hpc h' hne ▸ hid)
  · by_cases hne : h' = h
    · rw [hne]
      exact hphase
    · exact phase_of_not_critical (hother h' hne)

/-- The hart `h` goes on behind the first lock. -/
theorem Inv.goes (inv : Inv serve w s) (hc : (s.pc h).Critical) (hlock : s'.lock = s.lock)
    (hpc : s'.pc = s.pc) (hserved : s'.served = s.served) (hworld : s'.world = s.world)
    (hcrit : pc.Critical) (hphase : Phase (s'.goto pc h) h pc) : Inv serve w (s'.goto pc h) := by
  refine inv.work hc hlock (fun h' hne => ?_) ?_ ?_ ?_ ?_
  · rw [goto_pc_of_ne hne, hpc]
  · rwa [goto_pc]
  · exact (hserved ▸ inv.served : s'.served = results serve w (s'.served.map Prod.fst))
  · exact (hserved ▸ hworld ▸ inv.world : s'.world = worldAfter serve w (s'.served.map Prod.fst))
  · rwa [goto_pc]

/-- If a hart in front of the first lock has gone on, and now nobody is behind it, nobody was. -/
theorem Inv.outside_of_other (inv : Inv serve w s) (hc : ¬ (s.pc h).Critical)
    (hpc : ∀ h' ≠ h, s'.pc h' = s.pc h') (hall : ∀ h', ¬ (s'.pc h').Critical) :
    Silent s ∧ Unlocked s.htifLock ∧ s.served = s.returned := by
  refine inv.outside fun h' hc' => ?_
  by_cases hne : h' = h
  · exact hc (hne ▸ hc')
  · refine hall h' ?_
    rw [hpc h' hne]
    exact hc'

/-- A hart calls. -/
theorem Inv.call (inv : Inv serve w s) (hpc : s.pc h = .idle) (words : Words) :
    Inv serve w ({ s with args := Function.update s.args h words }.goto .lock h) where
  ok := inv.ok
  inside := by
    refine forall_goto (fun h' pc => s.lock.pc h' = .inside ↔ pc.Critical) ?_
      fun h' _ => inv.inside h'
    rw [inv.idle h hpc]
    exact iff_of_false (by simp) id
  idle := forall_goto (fun h' pc => pc = .idle → s.lock.pc h' = .out) (by simp)
    fun h' _ => inv.idle h'
  served := inv.served
  world := inv.world
  outside := by
    refine inv.outside_of_other ?_ fun h' hne => goto_pc_of_ne hne
    rw [hpc]
    exact id
  phase := by
    refine forall_goto (Phase _) trivial fun h' hne => ?_
    have hargs : Function.update s.args h words h' = s.args h' := Function.update_of_ne hne ..
    have hp := inv.phase h'
    cases hpc' : s.pc h' with
    | idle => trivial
    | lock => trivial
    | _ =>
      rw [hpc'] at hp
      simpa only [Phase, Silent, Holds, Sent, Unserved, Served, goto, hargs] using hp

/-- The hart gets the first lock. -/
theorem Inv.enter (inv : Inv serve w s) (hpc : s.pc h = .lock) (ok : SpinLock.Ok (s.lock.step h))
    (hi : (s.lock.step h).pc h = .inside) :
    Inv serve w ({ s with lock := s.lock.step h }.goto (.store 0) h) := by
  have hother : ∀ h' ≠ h, (s.lock.step h).pc h' = s.lock.pc h' :=
    fun h' hne => SpinLock.Harts.step_pc_of_ne hne
  -- nobody else is behind the lock
  have hnone : ∀ h', ¬ (s.pc h').Critical := by
    intro h' hc
    by_cases hne : h' = h
    · rw [hne, hpc] at hc
      exact hc
    · refine hne (ok.one h' h (.inl ?_) (.inl hi))
      rw [hother h' hne]
      exact (inv.inside h').2 hc
  obtain ⟨hsilent, hunlocked, hsame⟩ := inv.outside hnone
  refine ⟨ok, ?_, ?_, inv.served, inv.world, fun hall => absurd ?_ (hall h), ?_⟩
  · refine forall_goto (fun h' pc => (s.lock.step h).pc h' = .inside ↔ pc.Critical)
      (iff_of_true hi trivial) fun h' hne => ?_
    rw [hother h' hne]
    exact inv.inside h'
  · refine forall_goto (fun h' pc => pc = .idle → (s.lock.step h).pc h' = .out) (by simp)
      fun h' hne => ?_
    rw [hother h' hne]
    exact inv.idle h'
  · rw [goto_pc]
    trivial
  · exact forall_goto (Phase _) ⟨hsilent, hunlocked, hsame, fun j hj => absurd hj (by simp)⟩
      fun h' _ => phase_of_not_critical (hnone h')

/-- The hart does not get the first lock yet. -/
theorem Inv.spin (inv : Inv serve w s) (hpc : s.pc h = .lock) (ok : SpinLock.Ok (s.lock.step h))
    (hi : (s.lock.step h).pc h ≠ .inside) :
    Inv serve w ({ s with lock := s.lock.step h }.goto .lock h) := by
  have hother : ∀ h' ≠ h, (s.lock.step h).pc h' = s.lock.pc h' :=
    fun h' hne => SpinLock.Harts.step_pc_of_ne hne
  refine ⟨ok, ?_, ?_, inv.served, inv.world,
    inv.outside_of_other ?_ fun h' hne => goto_pc_of_ne hne, ?_⟩
  · refine forall_goto (fun h' pc => (s.lock.step h).pc h' = .inside ↔ pc.Critical)
      (iff_of_false hi id) fun h' hne => ?_
    rw [hother h' hne]
    exact inv.inside h'
  · refine forall_goto (fun h' pc => pc = .idle → (s.lock.step h).pc h' = .out) (by simp)
      fun h' hne => ?_
    rw [hother h' hne]
    exact inv.idle h'
  · rw [hpc]
    exact id
  · exact forall_goto (Phase _) trivial fun h' _ => inv.phase h'

/-- An access to the first lock that does not break up a swap. -/
theorem Inv.lock (inv : Inv serve w s) (hpc : s.pc h = .lock)
    (hno : ¬ SpinLock.Disturbs s.lock h) :
    Inv serve w ({ s with lock := s.lock.step h }.goto
      (if (s.lock.step h).pc h = SpinLock.Pc.inside then .store 0 else .lock) h) := by
  split_ifs with hi
  · exact inv.enter hpc (inv.ok.step hno) hi
  · exact inv.spin hpc (inv.ok.step hno) hi

/-- The hart returns. -/
theorem Inv.unlock (inv : Inv serve w s) {ret : BitVec 64} (hpc : s.pc h = .unlock ret)
    (hno : ¬ SpinLock.Disturbs s.lock h) :
    Inv serve w ({ s with
      lock := s.lock.step h
      returned := s.returned ++ [(s.args h, ret)] }.goto .idle h) := by
  have hc : (s.pc h).Critical := by
    rw [hpc]
    trivial
  have hself : (s.lock.step h).pc h = .out := by
    rw [SpinLock.Harts.step_inside ((inv.inside h).2 hc), SpinLock.Harts.goto_pc]
  have hother : ∀ h' ≠ h, (s.lock.step h).pc h' = s.lock.pc h' :=
    fun h' hne => SpinLock.Harts.step_pc_of_ne hne
  have hp := inv.phase h
  rw [hpc] at hp
  obtain ⟨hsilent, hunlocked, hserved⟩ := hp
  refine ⟨inv.ok.step hno, ?_, ?_, inv.served, inv.world,
    fun _ => ⟨hsilent, hunlocked, hserved⟩, ?_⟩
  · refine forall_goto (fun h' pc => (s.lock.step h).pc h' = .inside ↔ pc.Critical) ?_
      fun h' hne => ?_
    · rw [hself]
      exact iff_of_false (by simp) id
    · rw [hother h' hne]
      exact inv.inside h'
  · refine forall_goto (fun h' pc => pc = .idle → (s.lock.step h).pc h' = .out) (fun _ => hself)
      fun h' hne => ?_
    rw [hother h' hne]
    exact inv.idle h'
  · exact forall_goto (Phase _) trivial fun h' hne =>
      phase_of_not_critical fun hc' => hne (inv.one hc' hc)

/-- A store to `magic_mem`. -/
theorem Inv.store (inv : Inv serve w s) {i : Fin 8} (hpc : s.pc h = .store i) :
    Inv serve w ({ s with magicMem := Function.update s.magicMem i (s.args h i) }.goto
      (if i = 7 then .lockHtif else .store (i + 1)) h) := by
  have hp := inv.phase h
  rw [hpc] at hp
  obtain ⟨hsilent, hunlocked, hsame, hwords⟩ := hp
  have hstored : ∀ j, j = i ∨ j < i →
      Function.update s.magicMem i (s.args h i) j = s.args h j := by
    rintro j (rfl | hj)
    · exact Function.update_self ..
    · rw [Function.update_of_ne (Fin.ne_of_lt hj), hwords j hj]
  refine inv.goes (by rw [hpc]; trivial) rfl rfl rfl rfl ?_ ?_
  · split <;> trivial
  · split_ifs with hi
    · refine ⟨hsilent, hunlocked.onlyAt h, hsame, funext fun j => hstored j ?_⟩
      have hlast : ∀ j : Fin 8, j = 7 ∨ j < 7 := by decide
      exact hi ▸ hlast j
    · refine ⟨hsilent, hunlocked, hsame, fun j hj => hstored j ?_⟩
      have hsucc : ∀ i j : Fin 8, i ≠ 7 → j < i + 1 → j = i ∨ j < i := by decide
      exact hsucc i j hi hj

/-- An access to the second lock. -/
theorem Inv.lockHtif (inv : Inv serve w s) (hpc : s.pc h = .lockHtif) :
    Inv serve w ({ s with htifLock := s.htifLock.step h }.goto
      (if (s.htifLock.step h).pc h = SpinLock.Pc.inside then .waitTohost else .lockHtif) h) := by
  have hp := inv.phase h
  rw [hpc] at hp
  obtain ⟨hsilent, honly, hunserved⟩ := hp
  refine inv.goes (by rw [hpc]; trivial) rfl rfl rfl rfl ?_ ?_
  · split <;> trivial
  · split_ifs with hi
    · exact ⟨hsilent, ⟨honly.step, hi⟩, hunserved⟩
    · exact ⟨hsilent, honly.step, hunserved⟩

/-- The next access of a hart returns and keeps the invariant. -/
theorem Inv.step (inv : Inv serve w s) (hmagic : magic ≠ 0) (hcalm : s.Calm (.step h)) :
    ∃ s', s.step magic h = .ok s' ∧ Inv serve w s' := by
  have hp := inv.phase h
  unfold Htif.step
  cases hpc : s.pc h <;> rw [hpc] at hp
  case idle => exact ⟨s, rfl, inv⟩
  case lock => exact ⟨_, rfl, inv.lock hpc (hcalm (.inl hpc))⟩
  case store i => exact ⟨_, rfl, inv.store hpc⟩
  case lockHtif => exact ⟨_, rfl, inv.lockHtif hpc⟩
  case waitTohost =>
    obtain ⟨hsilent, hholds, hunserved⟩ := hp
    refine ⟨s.goto .setTohost h, if_pos hsilent.1, ?_⟩
    exact inv.goes (by rw [hpc]; trivial) rfl rfl rfl rfl trivial ⟨hsilent, hholds, hunserved⟩
  case setTohost =>
    obtain ⟨hsilent, hholds, hunserved⟩ := hp
    refine ⟨_, rfl, inv.goes (by rw [hpc]; trivial) rfl rfl rfl rfl trivial ⟨hholds, .inl ?_⟩⟩
    exact ⟨by simpa [goto, tohostCmd] using hmagic, hsilent.2.1, hsilent.2.2, hunserved⟩
  case waitFromhost =>
    obtain ⟨hholds, hsent⟩ := hp
    by_cases hfrom : s.fromhost = 0
    · exact ⟨s, if_pos hfrom, inv⟩
    · -- an answer that is there is one for a system call
      rcases hsent with ⟨-, hf, -⟩ | ⟨-, hf, -⟩ | ⟨-, hf, -⟩ | ⟨hto, hf, hhost, hserved⟩
      · exact absurd hf hfrom
      · exact absurd hf hfrom
      · exact absurd hf hfrom
      · have hcmd : fromhostDev s.fromhost = 0 ∧ fromhostCmd s.fromhost = 0 := by
          rw [hf]
          decide
        refine ⟨_, by rw [if_neg hfrom, if_pos hcmd], ?_⟩
        exact inv.goes (by rw [hpc]; trivial) rfl rfl rfl rfl trivial
          ⟨⟨hto, rfl, hhost⟩, hholds, hserved⟩
  case unlockHtif =>
    obtain ⟨hsilent, hholds, hserved⟩ := hp
    refine ⟨_, rfl, inv.goes (by rw [hpc]; trivial) rfl rfl rfl rfl trivial ?_⟩
    exact ⟨hsilent, hholds.1.unlock hholds.2, hserved⟩
  case load =>
    refine ⟨s.goto (.unlock (s.magicMem 0)) h, rfl, ?_⟩
    exact inv.goes (by rw [hpc]; trivial) rfl rfl rfl rfl trivial hp
  case unlock ret => exact ⟨_, rfl, inv.unlock hpc (hcalm (.inr ⟨ret, hpc⟩))⟩

/-- The host takes a request. -/
theorem Inv.take (inv : Inv serve w s) (hto : s.tohost ≠ 0) :
    Inv serve w { s with tohost := 0, host := .taken } := by
  rcases inv.silent_or with hsilent | ⟨h, hpc, hholds, hsent⟩
  · exact absurd hsilent.1 hto
  · rcases hsent with ⟨-, hf, -, hunserved⟩ | ⟨hto', -⟩ | ⟨hto', -⟩ | ⟨hto', -⟩
    · refine inv.work (h := h) (by rw [hpc]; trivial) rfl (fun _ _ => rfl)
        (by rw [hpc]; trivial) inv.served inv.world ?_
      rw [hpc]
      exact ⟨hholds, .inr (.inl ⟨rfl, hf, rfl, hunserved⟩)⟩
    · exact absurd hto' hto
    · exact absurd hto' hto
    · exact absurd hto' hto

/-- The host does the call that it has taken. -/
theorem Inv.serves (inv : Inv serve w s) (hhost : s.host = .taken) :
    Inv serve w { s with
      magicMem := Function.update s.magicMem 0 (serve s.magicMem s.world).1
      world := (serve s.magicMem s.world).2
      host := .done
      served := s.served ++ [(s.magicMem, (serve s.magicMem s.world).1)] } := by
  rcases inv.silent_or with hsilent | ⟨h, hpc, hholds, hsent⟩
  · cases hhost.symm.trans hsilent.2.2
  · rcases hsent with ⟨-, -, hi, -⟩ | ⟨hto, hf, -, hsame, hwords⟩ | ⟨-, -, hi, -⟩ | ⟨-, -, hi, -⟩
    · cases hhost.symm.trans hi
    · refine inv.work (h := h) (by rw [hpc]; trivial) rfl (fun _ _ => rfl)
        (by rw [hpc]; trivial) ?_ ?_ ?_
      · rw [List.map_append, List.map_singleton, results_concat, ← inv.served, ← inv.world]
      · rw [List.map_append, List.map_singleton, worldAfter_concat, ← inv.world]
      · rw [hpc]
        refine ⟨hholds, .inr (.inr (.inl ⟨hto, hf, rfl, ?_⟩))⟩
        simp only [Served, Function.update_self, hsame, hwords]
    · cases hhost.symm.trans hi
    · cases hhost.symm.trans hi

/-- The host answers. -/
theorem Inv.answer (inv : Inv serve w s) (hhost : s.host = .done) :
    Inv serve w { s with fromhost := 1, host := .idle } := by
  rcases inv.silent_or with hsilent | ⟨h, hpc, hholds, hsent⟩
  · cases hhost.symm.trans hsilent.2.2
  · rcases hsent with ⟨-, -, hi, -⟩ | ⟨-, -, hi, -⟩ | ⟨hto, -, -, hserved⟩ | ⟨-, -, hi, -⟩
    · cases hhost.symm.trans hi
    · cases hhost.symm.trans hi
    · refine inv.work (h := h) (by rw [hpc]; trivial) rfl (fun _ _ => rfl)
        (by rw [hpc]; trivial) inv.served inv.world ?_
      rw [hpc]
      exact ⟨hholds, .inr (.inr (.inr ⟨hto, rfl, rfl, hserved⟩))⟩
    · cases hhost.symm.trans hi

/-- An event that breaks up no swap returns and keeps the invariant. -/
theorem Inv.exec (inv : Inv serve w s) (hmagic : magic ≠ 0) {e : Event n} (hcalm : s.Calm e) :
    ∃ s', exec magic serve s e = .ok s' ∧ Inv serve w s' := by
  cases e with
  | call h words =>
    refine ⟨_, rfl, ?_⟩
    split_ifs with hpc
    · exact inv.call hpc words
    · exact inv
  | step h => exact inv.step hmagic hcalm
  | take =>
    refine ⟨_, rfl, ?_⟩
    split_ifs with hh
    · exact inv.take hh.2
    · exact inv
  | serve =>
    refine ⟨_, rfl, ?_⟩
    split_ifs with hh
    · exact inv.serves hh
    · exact inv
  | answer =>
    refine ⟨_, rfl, ?_⟩
    split_ifs with hh
    · exact inv.answer hh.1
    · exact inv

/-! ## Runs -/

theorem inv_start (w : W) (console : ℤ) (words : Words) :
    Inv serve w (start w console words : Htif n W) where
  ok := SpinLock.ok_start
  inside _ := iff_of_false (by simp [start, SpinLock.Harts.start]) id
  idle _ _ := rfl
  served := rfl
  world := rfl
  outside _ := ⟨⟨rfl, rfl, rfl⟩, ⟨SpinLock.ok_start, fun _ => rfl⟩, rfl⟩
  phase _ := trivial

theorem Reached.inv (hmagic : magic ≠ 0) (run : Reached Calm magic serve w s) :
    Inv serve w s := by
  induction run with
  | start console words => exact inv_start w console words
  | exec _ cond ok ih =>
    obtain ⟨s', hs', inv'⟩ := ih.exec hmagic cond
    cases hs'.symm.trans ok
    exact inv'

/-- At most one call is served and has not returned. -/
theorem Inv.returned (inv : Inv serve w s) :
    ∃ l, l.length ≤ 1 ∧ s.served = s.returned ++ l := by
  have hsame : s.served = s.returned → ∃ l, l.length ≤ 1 ∧ s.served = s.returned ++ l :=
    fun he => ⟨[], by simp, by simp [he]⟩
  by_cases hc : ∃ h, (s.pc h).Critical
  · obtain ⟨h, hc⟩ := hc
    have hp := inv.phase h
    cases hpc : s.pc h <;> rw [hpc] at hp hc
    case idle => exact hc.elim
    case lock => exact hc.elim
    case store => exact hsame hp.2.2.1
    case lockHtif => exact hsame hp.2.2.1
    case waitTohost => exact hsame hp.2.2.1
    case setTohost => exact hsame hp.2.2.1
    case waitFromhost =>
      rcases hp.2 with ⟨-, -, -, hu⟩ | ⟨-, -, -, hu⟩ | ⟨-, -, -, hs⟩ | ⟨-, -, -, hs⟩
      · exact hsame hu.1
      · exact hsame hu.1
      · exact ⟨_, le_rfl, hs⟩
      · exact ⟨_, le_rfl, hs⟩
    case unlockHtif => exact ⟨_, le_rfl, hp.2.2⟩
    case load => exact ⟨_, le_rfl, hp.2.2⟩
    case unlock => exact ⟨_, le_rfl, hp.2.2⟩
  · exact hsame (inv.outside fun h hh => hc ⟨h, hh⟩).2.2

/-- **System calls of the host.** In every run in which no access breaks up a swap on the lock of
`frontend_syscall`, the calls that have returned are the calls that the host has served, once each
and in this order, but for one call at most that has not returned yet; each has the result that the
host has for its own words behind the calls before it. And every event that breaks up no swap
returns: no assertion fails. -/
theorem frontendSyscall_of_run (hmagic : magic ≠ 0) (run : Reached Calm magic serve w s) :
    (∃ l, l.length ≤ 1 ∧ s.served = s.returned ++ l) ∧
    s.served = results serve w (s.served.map Prod.fst) ∧
    ∀ e, s.Calm e → ∃ s', exec magic serve s e = .ok s' :=
  have inv := run.inv hmagic
  ⟨inv.returned, inv.served, fun _ hcalm => (inv.exec hmagic hcalm).imp fun _ hs => hs.1⟩

end Lemmas

/-! ## Two harts -/

/-- A test for `Calm` that is computed: the hart is in front of a swap, or alone at the lock. -/
def calmCheck (s : Htif n W) : Event n → Bool
  | .step h => s.lock.pc h = .out || decide (∀ h', h' ≠ h → s.lock.pc h' = .out)
  | _ => true

theorem calm_of_check {s : Htif n W} {e : Event n} (hc : s.calmCheck e = true) : s.Calm e := by
  cases e with
  | step h =>
    intro _
    rcases Bool.or_eq_true_iff.1 hc with hout | hout
    · have hpc : s.lock.pc h = .out := of_decide_eq_true hout
      rintro (⟨hz, -⟩ | ⟨hi, -⟩)
      · cases hpc.symm.trans hz
      · cases hpc.symm.trans hi
    · exact SpinLock.not_disturbs_of_out (of_decide_eq_true hout)
  | _ => trivial

/-- The events of a list, if each passes a test and returns. -/
def execAll (check : Htif n W → Event n → Bool) (magic : BitVec 64)
    (serve : Words → W → BitVec 64 × W) (s : Htif n W) : List (Event n) → Option (Htif n W)
  | [] => some s
  | e :: es =>
    if check s e then
      (exec magic serve s e).toOption.bind fun s' => execAll check magic serve s' es
    else none

theorem Reached.execAll {C : Htif n W → Event n → Prop} {check : Htif n W → Event n → Bool}
    (hcheck : ∀ {s e}, check s e = true → C s e) {magic : BitVec 64}
    {serve : Words → W → BitVec 64 × W} {w : W} {s s' : Htif n W}
    (run : Reached C magic serve w s) {es : List (Event n)}
    (hes : s.execAll check magic serve es = some s') : Reached C magic serve w s' := by
  induction es generalizing s with
  | nil =>
    cases hes
    exact run
  | cons e es ih =>
    rw [Htif.execAll] at hes
    split_ifs at hes with hc
    obtain ⟨s₁, hs₁, hes⟩ := Option.bind_eq_some_iff.1 hes
    exact ih (run.exec (hcheck hc) (toOption_eq_some.1 hs₁)) hes

/-- A host that adds the number of the calls so far to the number of the call. -/
def serveSum (words : Words) (k : ℕ) : BitVec 64 × ℕ := (words 0 + BitVec.ofNat 64 k, k + 1)

/-- Two harts call. -/
def calls : List (Event 2) := [.call 0 fun _ => 1, .call 1 fun _ => 2]

/-- The host takes, does and answers a request, and the hart `h` takes the result. -/
def finish (h : Fin 2) : List (Event 2) :=
  [.take, .serve, .answer] ++ List.replicate 4 (.step h)

/-- The second hart spins until the first one has its result. -/
theorem frontendSyscall_of_run_two : ∃ s : Htif 2 ℕ, Reached Calm 16 serveSum 5 s ∧
    s.returned.map Prod.snd = [6, 8] ∧ ∃ l, l.length ≤ 1 ∧ s.served = s.returned ++ l := by
  have hall : ((start 5 0 fun _ => 0).execAll calmCheck 16 serveSum
      (calls ++ List.replicate 3 (.step 0) ++ [.step 1] ++ List.replicate 13 (.step 0) ++
        finish 0 ++ List.replicate 16 (.step 1) ++ finish 1)).map
      (fun s => s.returned.map Prod.snd) = some [6, 8] := by decide +kernel
  obtain ⟨s, hs, hr⟩ := Option.map_eq_some_iff.1 hall
  have run := (Reached.start 0 fun _ => 0).execAll calm_of_check hs
  exact ⟨s, run, hr, (frontendSyscall_of_run (by decide) run).1⟩

/-- **A result for the wrong call.** The first hart is inside with the second one, which writes its
words over those of the first. -/
theorem frontendSyscall_lost : ¬ ∀ s : Htif 2 ℕ, Reached (fun _ _ => True) 16 serveSum 5 s →
    ∃ l, s.served = s.returned ++ l := by
  intro hfor
  have hall : ((start 5 0 fun _ => 0).execAll (fun _ _ => true) 16 serveSum
      (calls ++ [.step 0, .step 0, .step 1, .step 1, .step 0, .step 1] ++
        List.replicate 8 (.step 0) ++ List.replicate 8 (.step 1) ++
        List.replicate 5 (.step 0) ++ finish 0)).map
      (fun s => (s.served.map fun c => c.1 0, s.returned.map fun c => c.1 0)) =
        some ([2], [1]) := by decide +kernel
  obtain ⟨s, hs, hc⟩ := Option.map_eq_some_iff.1 hall
  obtain ⟨l, hl⟩ := hfor s ((Reached.start 0 fun _ => 0).execAll (fun _ => trivial) hs)
  obtain ⟨hserved, hreturned⟩ := Prod.mk.inj hc
  rw [hl, List.map_append, hreturned] at hserved
  cases hserved

end Htif

end HustOS.Boot
