import HustOS.Proc.SemaphoreApp

/-!
# The order of the lines

Every step of the three processes keeps `Ring`: the counter of a semaphore is the number of the
calls of `sem_V` on it less that of the calls of `sem_P`, and only the owner of the semaphore sleeps
on it. A process prints between its `sem_P` and the `sem_V` for the next one, so the numbers of the
lines that the three have printed differ by at most one, and the next line is that of the process
whose turn it is (`Ring.turn`).
-/

namespace HustOS.Proc

open Foundations

variable {s s' : Sched} {v v' : View} {e : Event}

/-- A step other than a fork writes no register but that of the running process. -/
theorem Step.a0_eq (hs : Step s v e s' v') (hfork : e ≠ .fork) {i : Fin NPROC} (hi : i ≠ s.pid) :
    s'.a0 i = s.a0 i := by
  have hsaved : s.saved e i = s.a0 i := Function.update_of_ne hi _ _
  cases hs with
  | fork free effect => exact absurd rfl hfork
  | rotate start next effect => rw [effect.a0, hsaved]
  | tick slice effect => rw [effect.a0, hsaved]
  | sleep start next effect => rw [effect.a0, hsaved]
  | semNew lt effect => rw [effect.a0, Function.update_of_ne hi]
  | semP high effect => rw [effect.a0, Function.update_of_ne hi]
  | semV nobody effect => rw [effect.a0, Function.update_of_ne hi]
  | wake high wait before sem effect => rw [effect.a0, Function.update_of_ne hi]
  | wait result effect => rw [effect.a0, Function.update_of_ne hi]
  | exit alone next same effect => rw [effect.a0, hsaved]
  | wakeParent parent next effect => rw [effect.a0, hsaved]

/-- A tick, and an exit that wakes nobody, leave the semaphores and the sleepers alone. -/
theorem Step.quiet (hs : Step s v e s' v')
    (he : (∃ a0, e = .tick a0) ∨ e = .exit ∧ NoParent s.core v) :
    s'.l = s.l ∧ v'.wait = v.wait := by
  cases hs with
  | rotate start next effect => exact ⟨effect.l, rfl⟩
  | tick slice effect => exact ⟨effect.l, rfl⟩
  | exit alone next same effect => exact ⟨effect.l, rfl⟩
  | wakeParent parent next effect =>
    obtain ⟨a0, he⟩ | ⟨-, hno⟩ := he
    · cases he
    · rcases hno with hno | hno
      · exact absurd hno parent.parent
      · refine absurd parent.pid (hno _ ?_)
        rw [parent.wait]
        exact List.mem_append_right _ List.mem_cons_self
  | sleep start next effect =>
    obtain ⟨a0, he⟩ | ⟨he, -⟩ := he
    · subst he
      cases start
    · subst he
      cases start
  | fork free effect => simp at he
  | semNew lt effect => simp at he
  | semP high effect => simp at he
  | semV nobody effect => simp at he
  | wake high wait before sem effect => simp at he
  | wait result effect => simp at he

namespace SemaphoreApp

variable {user user' : Fin NPROC → User} {role : ℕ → Fin NPROC} {n j k : ℕ} {x x' : App}
  {u w : User} {r r' : ℤ} {child : Bool} {f : User → ℕ}

/-! ## Counts -/

theorem count_of_lt (hk : k < n) : count f user role n k = f (user (role k)) := if_pos hk

theorem count_of_le (hk : n ≤ k) : count f user role n k = 0 := if_neg (not_lt.2 hk)

/-- One process goes on. -/
theorem Kernel.count_update (h : Kernel s v user role n) (hk : k < n) :
    count f (Function.update user (role k) w) role n j =
      if j = k then f w else count f user role n j := by
  by_cases hjk : j = k
  · rw [if_pos hjk, hjk, count_of_lt hk, Function.update_self]
  · rw [if_neg hjk]
    by_cases hj : j < n
    · rw [count_of_lt hj, count_of_lt hj,
        Function.update_of_ne fun e => hjk (h.inj j hj k hk e)]
    · rw [count_of_le (not_lt.1 hj), count_of_le (not_lt.1 hj)]

/-- A number that does not change. -/
theorem Kernel.count_same (h : Kernel s v user role n) (hk : k < n)
    (hf : f w = f (user (role k))) :
    count f (Function.update user (role k) w) role n j = count f user role n j := by
  rw [h.count_update hk]
  split
  · rename_i hjk
    rw [hjk, count_of_lt hk, hf]
  · rfl

theorem App.behind_of_ne (he : e ≠ .fork) :
    x.behind e s' = Function.update x.user x.s.pid x.cur.back := by
  funext i
  by_cases hi : i = x.s.pid
  · rw [hi, Function.update_self, App.behind, if_pos (.inl rfl)]
  · rw [Function.update_of_ne hi, App.behind, if_neg fun h => he (h.resolve_left hi).1]

/-! ## The numbers of one process -/

/-- Behind a system call other than a fork. -/
theorem Place.returned (h : Place k n r u) (hfork : u.site ≠ .forkMain ∧ u.site ≠ .forkChild) :
    Place k n r' u.back := by
  unfold Place at h ⊢
  unfold User.back
  cases hsite : u.site with
  | newMain => simp [hsite] at h
  | newChild => simp [hsite] at h
  | forkMain => exact absurd hsite hfork.1
  | forkChild => exact absurd hsite hfork.2
  | semP child => rwa [hsite] at h
  | print child => rwa [hsite] at h
  | semV child => rwa [hsite] at h
  | exit => rwa [hsite] at h

/-- A process asks, prints and gives in turn. -/
theorem Place.ordered (h : Place k n r u) : u.given ≤ u.printed ∧ u.printed ≤ u.asked ∧
    u.asked ≤ u.given + 1 ∧ u.asked ≤ 10 := by
  unfold Place at h
  unfold User.given User.printed User.asked
  cases hsite : u.site <;> simp only [hsite] at h ⊢ <;> try omega
  all_goals
    cases hret : u.returned <;> simp <;> omega

theorem User.call_exit : u.call = .sys .exit ↔ u.site = .exit := by
  unfold User.call
  cases u.site with
  | semP child => cases child <;> simp
  | print child => cases child <;> simp
  | semV child => cases child <;> simp
  | _ => simp

theorem User.call_fork : u.call = .sys .fork ↔ u.site = .forkMain ∨ u.site = .forkChild := by
  unfold User.call
  cases u.site with
  | semP child => cases child <;> simp
  | print child => cases child <;> simp
  | semV child => cases child <;> simp
  | _ => simp

theorem User.ended_back : u.back.Ended ↔ u.site = .exit := and_iff_left rfl

/-- Only the call that prints makes a line. -/
theorem User.printed_returned (h : ∀ child, u.site ≠ .print child) :
    u.back.printed = u.printed := by
  unfold User.back User.printed
  cases hs : u.site with
  | print child => exact absurd hs (h child)
  | _ => rfl

/-- A process that sleeps has not printed the line it has asked for. -/
theorem User.asleep (hsite : u.site = .semP child) (hret : u.returned = true) :
    u.printed + 1 = u.asked ∧ u.given + 1 = u.asked := by
  simp [User.printed, User.asked, User.given, hsite, hret]

/-! ## The numbers of the three -/

namespace Ring

variable (h : Ring x v role n)

include h

/-- The running process does not sleep. -/
theorem awake (hk : k < n) (hcur : v.cur = .procs (role k)) : 0 ≤ x.s.l (k + 1) := by
  by_contra hneg
  have hm := (h.tokens.sleeps k hk).2 (not_le.1 hneg)
  rw [← hcur] at hm
  exact h.kernel.inv.ok.cur_notMem.2 hm

theorem ordered (j : ℕ) : count User.given x.user role n j ≤ count User.printed x.user role n j ∧
    count User.printed x.user role n j ≤ count User.asked x.user role n j ∧
    count User.asked x.user role n j ≤ count User.given x.user role n j + 1 ∧
    count User.asked x.user role n j ≤ 10 := by
  by_cases hj : j < n
  · rw [count_of_lt hj, count_of_lt hj, count_of_lt hj]
    exact (h.place j hj).ordered
  · rw [count_of_le (not_lt.1 hj), count_of_le (not_lt.1 hj), count_of_le (not_lt.1 hj)]
    omega

theorem asleep (hj : j < n) (hneg : x.s.l (j + 1) < 0) :
    count User.printed x.user role n j + 1 = count User.asked x.user role n j ∧
    count User.given x.user role n j + 1 = count User.asked x.user role n j := by
  obtain ⟨⟨child, hsite⟩, hret⟩ := h.tokens.behind j hj ((h.tokens.sleeps j hj).2 hneg)
  rw [count_of_lt hj, count_of_lt hj, count_of_lt hj]
  exact User.asleep hsite hret

/-- The semaphore of a process that has not been made is not negative. -/
theorem high (hj : j < 3) (hn : n ≤ j) : 0 ≤ x.s.l (j + 1) := by
  have hc := h.tokens.counter j hj
  rw [count_of_le hn] at hc
  split at hc <;> omega

/-- The lines printed are those of the `sem_P` behind which a process is not asleep. -/
theorem printed_le (hj : j < 3) : (count User.printed x.user role n j : ℤ) ≤
    count User.asked x.user role n j + min (x.s.l (j + 1)) 0 := by
  have hlow := h.tokens.low j hj
  have ho := h.ordered j
  by_cases hneg : x.s.l (j + 1) < 0
  · by_cases hn : n ≤ j
    · have := h.high hj hn
      omega
    · have := h.asleep (not_le.1 hn) hneg
      omega
  · omega

/-- The counters of the three semaphores. -/
theorem counters :
    x.s.l 1 + count User.asked x.user role n 0 = 1 + count User.given x.user role n 2 ∧
    x.s.l 2 + count User.asked x.user role n 1 = count User.given x.user role n 0 ∧
    x.s.l 3 + count User.asked x.user role n 2 = count User.given x.user role n 1 := by
  refine ⟨?_, ?_, ?_⟩
  · simpa using h.tokens.counter 0 (by omega)
  · simpa using h.tokens.counter 1 (by omega)
  · simpa using h.tokens.counter 2 (by omega)

/-- A line that was printed was asked for, and the process is not asleep on that semaphore. -/
theorem lines :
    (count User.printed x.user role n 0 : ℤ) ≤
      count User.asked x.user role n 0 + min (x.s.l 1) 0 ∧
    (count User.printed x.user role n 1 : ℤ) ≤
      count User.asked x.user role n 1 + min (x.s.l 2) 0 ∧
    (count User.printed x.user role n 2 : ℤ) ≤
      count User.asked x.user role n 2 + min (x.s.l 3) 0 := by
  refine ⟨?_, ?_, ?_⟩
  · simpa using h.printed_le (j := 0) (by omega)
  · simpa using h.printed_le (j := 1) (by omega)
  · simpa using h.printed_le (j := 2) (by omega)

/-- The process in front of its line number `i` is the one whose turn it is. -/
theorem turn (hk : k < n) (hcur : v.cur = .procs (role k))
    (hsite : (x.user (role k)).site = .print child) (hret : (x.user (role k)).returned = false) :
    count User.printed x.user role n 0 + count User.printed x.user role n 1 +
      count User.printed x.user role n 2 = 3 * (x.user (role k)).i + k := by
  have hle := h.le
  have hawake := h.awake hk hcur
  have hmine : count User.printed x.user role n k = (x.user (role k)).i ∧
      count User.asked x.user role n k = (x.user (role k)).i + 1 ∧
      count User.given x.user role n k = (x.user (role k)).i := by
    rw [count_of_lt hk, count_of_lt hk, count_of_lt hk]
    simp [User.printed, User.asked, User.given, hsite, hret]
  have hc := h.counters
  have hl := h.lines
  have ho0 := h.ordered 0
  have ho1 := h.ordered 1
  have ho2 := h.ordered 2
  obtain rfl | rfl | rfl : k = 0 ∨ k = 1 ∨ k = 2 := by omega
  · simp only [Nat.cast_zero, zero_add] at hawake
    omega
  · simp only [Nat.cast_one, one_add_one_eq_two] at hawake
    omega
  · simp only [Nat.cast_ofNat, Int.reduceAdd] at hawake
    omega

end Ring

/-! ## The semaphores over a step -/

/-- A sleeper is another process than the running one. -/
theorem Kernel.others (h : Kernel s v user role n) (hcur : v.cur = .procs (role k))
    (hj : .procs (role j) ∈ v.wait) : Function.update user (role k) w (role j) = user (role j) := by
  refine Function.update_of_ne (fun e => ?_) _ _
  rw [e, ← hcur] at hj
  exact h.inv.ok.cur_notMem.2 hj

/-- A sleeper has a role. -/
theorem Kernel.role_of_wait (h : Kernel s v user role n) {p : Addr} (hp : p ∈ v.wait) :
    ∃ j < n, p = .procs (role j) := by
  have hplace : p ∈ v.places := List.mem_cons_of_mem _ (List.mem_append_right _ hp)
  obtain ⟨i, rfl⟩ := h.own p hplace
  have hl := (h.inv.ok.live _ hplace).1
  rw [h.inv.ok.pid] at hl
  obtain ⟨j, hj, rfl⟩ := (h.made i).1 hl
  exact ⟨j, hj, rfl⟩

/-- Nothing that the semaphores depend on changes. -/
theorem Tokens.keep (t : Tokens s v user role n) (hl : s'.l = s.l) (hw : v'.wait = v.wait)
    (hsem : ∀ p ∈ v.wait, (s'.core p).sem = (s.core p).sem)
    (hasked : ∀ j, count User.asked user' role n j = count User.asked user role n j)
    (hgiven : ∀ j, count User.given user' role n j = count User.given user role n j)
    (hsame : ∀ j < n, .procs (role j) ∈ v.wait → user' (role j) = user (role j)) :
    Tokens s' v' user' role n where
  counter j hj := by
    rw [hl, hasked, hgiven]
    exact t.counter j hj
  low j hj := by
    rw [hl]
    exact t.low j hj
  sleeps j hj := by
    rw [hl, hw]
    exact t.sleeps j hj
  sem j hj hm := by
    rw [hw] at hm
    rw [hsem _ hm]
    exact t.sem j hj hm
  behind j hj hm := by
    rw [hw] at hm
    rw [hsame j hj hm]
    exact t.behind j hj hm

/-- A `sem_P` of the role `k`, which sleeps if the semaphore was zero. -/
theorem Tokens.semP (t : Tokens s v user role n) (h : Kernel s v user role n) (hk : k < n)
    (hcur : v.cur = .procs (role k)) (hawake : 0 ≤ s.l (k + 1))
    (hl : s'.l = Function.update s.l (k + 1) (s.l (k + 1) - 1))
    (hw : ∀ j < n, .procs (role j) ∈ v'.wait ↔
      .procs (role j) ∈ v.wait ∨ j = k ∧ s.l (k + 1) - 1 < 0)
    (hsem : ∀ j < n, .procs (role j) ∈ v'.wait → (s'.core (.procs (role j))).sem = j + 1)
    (hasked : w.asked = (user (role k)).asked + 1) (hgiven : w.given = (user (role k)).given)
    (hsite : w.site = .semP child) (hret : w.returned = true) :
    Tokens s' v' (Function.update user (role k) w) role n := by
  have hself : s'.l (k + 1) = s.l (k + 1) - 1 := by rw [hl, Function.update_self]
  have hother : ∀ j : ℕ, j ≠ k → s'.l (j + 1) = s.l (j + 1) := by
    intro j hj
    rw [hl, Function.update_of_ne]
    omega
  have hnot : .procs (role k) ∉ v.wait := hcur ▸ h.inv.ok.cur_notMem.2
  refine
    { counter := fun j hj => ?_
      low := fun j hj => ?_
      sleeps := fun j hj => ?_
      sem := hsem
      behind := fun j hj hm => ?_ }
  · have hc := t.counter j hj
    rw [h.count_update hk, h.count_same hk hgiven]
    by_cases hjk : j = k
    · rw [if_pos hjk, hasked]
      subst hjk
      rw [count_of_lt hk] at hc
      rw [hself]
      push_cast
      omega
    · rw [if_neg hjk, hother j hjk, hc]
  · by_cases hjk : j = k
    · rw [hjk, hself]
      omega
    · rw [hother j hjk]
      exact t.low j hj
  · rw [hw j hj]
    by_cases hjk : j = k
    · subst hjk
      rw [hself]
      exact ⟨fun hor => (hor.resolve_left hnot).2, fun hlt => .inr ⟨rfl, hlt⟩⟩
    · rw [hother j hjk, ← t.sleeps j hj]
      exact ⟨fun hor => hor.resolve_right fun he => hjk he.1, .inl⟩
  · by_cases hjk : j = k
    · rw [hjk, Function.update_self]
      exact ⟨⟨child, hsite⟩, hret⟩
    · have hm' := ((hw j hj).1 hm).resolve_right fun he => hjk he.1
      rw [h.others hcur hm']
      exact t.behind j hj hm'

/-- A `sem_V` of the role `k` for the next one, which wakes it if it sleeps. -/
theorem Tokens.semV (t : Tokens s v user role n) (h : Kernel s v user role n) (hk : k < n)
    (hn : n ≤ 3) (hcur : v.cur = .procs (role k)) (hj : j = (k + 1) % 3)
    (hl : s'.l = Function.update s.l (j + 1) (s.l (j + 1) + 1))
    (hw : ∀ i < n, .procs (role i) ∈ v'.wait ↔ .procs (role i) ∈ v.wait ∧ i ≠ j)
    (hsem : ∀ p ∈ v.wait, (s'.core p).sem = (s.core p).sem)
    (hasked : w.asked = (user (role k)).asked) (hgiven : w.given = (user (role k)).given + 1) :
    Tokens s' v' (Function.update user (role k) w) role n := by
  have hself : s'.l (j + 1) = s.l (j + 1) + 1 := by rw [hl, Function.update_self]
  have hother : ∀ i : ℕ, i ≠ j → s'.l (i + 1) = s.l (i + 1) := by
    intro i hi
    rw [hl, Function.update_of_ne]
    omega
  refine
    { counter := fun i hi => ?_
      low := fun i hi => ?_
      sleeps := fun i hi => ?_
      sem := fun i hi hm => ?_
      behind := fun i hi hm => ?_ }
  · have hc := t.counter i hi
    rw [h.count_same hk hasked, h.count_update hk]
    by_cases hij : i = j
    · have hik : (i + 2) % 3 = k := by omega
      rw [hik, count_of_lt hk] at hc
      rw [if_pos hik, hgiven]
      subst hij
      rw [hself]
      push_cast
      omega
    · have hik : (i + 2) % 3 ≠ k := by omega
      rw [if_neg hik, hother i hij, hc]
  · have hlow := t.low i hi
    by_cases hij : i = j
    · subst hij
      rw [hself]
      omega
    · rwa [hother i hij]
  · rw [hw i hi]
    by_cases hij : i = j
    · have hlow := t.low i (by omega)
      subst hij
      rw [hself]
      exact ⟨fun hm => absurd rfl hm.2, fun hneg => by omega⟩
    · rw [hother i hij, ← t.sleeps i hi]
      exact ⟨And.left, fun hm => ⟨hm, hij⟩⟩
  · have hm' := ((hw i hi).1 hm).1
    rw [hsem _ hm']
    exact t.sem i hi hm'
  · have hm' := ((hw i hi).1 hm).1
    rw [h.others hcur hm']
    exact t.behind i hi hm'

/-! ## Steps -/

/-- The lines of the numbers of lines printed. -/
def Printed (user : Fin NPROC → User) (role : ℕ → Fin NPROC) (n : ℕ) (out : List Line) : Prop :=
  out = (List.range (count User.printed user role n 0 + count User.printed user role n 1 +
    count User.printed user role n 2)).map line

/-- The running process goes on to `w`. -/
theorem Ring.goes {out : List Line} (h : Ring x v role n) (hk : k < n) (hcur : role k = x.s.pid)
    (kernel : Kernel s' v' (Function.update x.user (role k) w) role n) (vars : Vars w)
    (place : Place k n (s'.a0 (role k)) w) (a0 : ∀ i, i ≠ x.s.pid → s'.a0 i = x.s.a0 i)
    (tokens : Tokens s' v' (Function.update x.user (role k) w) role n)
    (printed : Printed (Function.update x.user (role k) w) role n out) :
    Ring ⟨s', Function.update x.user (role k) w, out⟩ v' role n where
  kernel := kernel
  le := h.le
  vars j hj := by
    change Vars (Function.update x.user (role k) w (role j))
    by_cases hjk : role j = role k
    · rw [hjk, Function.update_self]
      exact vars
    · rw [Function.update_of_ne hjk]
      exact h.vars j hj
  place j hj := by
    change Place j n (s'.a0 (role j)) (Function.update x.user (role k) w (role j))
    by_cases hjk : role j = role k
    · rw [hjk, Function.update_self, h.kernel.inj j hj k hk hjk]
      exact place
    · rw [Function.update_of_ne hjk, a0 _ (hcur ▸ hjk)]
      exact h.place j hj
  tokens := tokens
  out := printed

/-- Nothing is printed. -/
theorem Ring.printed_same (h : Ring x v role n) (hk : k < n)
    (hw : w.printed = (x.user (role k)).printed) :
    Printed (Function.update x.user (role k) w) role n x.out := by
  rw [Printed, h.kernel.count_same hk hw, h.kernel.count_same hk hw, h.kernel.count_same hk hw]
  exact h.out

/-- The running process makes a system call that leaves the semaphores alone, or goes on behind
one. -/
theorem Ring.goes_quiet (h : Ring x v role n) (hk : k < n) (hcur : role k = x.s.pid)
    (hv : v.cur = .procs (role k))
    (kernel : Kernel s' v' (Function.update x.user (role k) w) role n) (vars : Vars w)
    (place : Place k n (s'.a0 (role k)) w) (a0 : ∀ i, i ≠ x.s.pid → s'.a0 i = x.s.a0 i)
    (hl : s'.l = x.s.l) (hw : v'.wait = v.wait)
    (hsem : ∀ p ∈ v.wait, (s'.core p).sem = (x.s.core p).sem)
    (asked : w.asked = (x.user (role k)).asked) (given : w.given = (x.user (role k)).given)
    (printed : w.printed = (x.user (role k)).printed) :
    Ring ⟨s', Function.update x.user (role k) w, x.out⟩ v' role n := by
  refine h.goes hk hcur kernel vars place a0 (h.tokens.keep hl hw hsem (fun j => ?_) (fun j => ?_)
    fun j _ hj => h.kernel.others hv hj) (h.printed_same hk printed)
  · exact h.kernel.count_same hk asked
  · exact h.kernel.count_same hk given

/-- The running process goes on behind a system call. -/
theorem Ring.resume (h : Ring x v role n) (hret : x.cur.returned = true) :
    Ring { x with user := Function.update x.user x.s.pid (x.cur.resume (x.s.a0 x.s.pid)) }
      v role n := by
  obtain ⟨k, hk, hcur, hv, hend⟩ := h.kernel.cur
  have hu : x.cur = x.user (role k) := by rw [App.cur, hcur]
  have hr := (h.place k hk).resumes (h.vars k hk) (hu ▸ hret) hend
  rw [← hcur, hu]
  refine h.goes_quiet hk hcur hv ?_ hr.vars (hr.place _) (fun _ _ => rfl) rfl rfl (fun _ _ => rfl)
    hr.asked hr.given hr.printed
  refine h.kernel.registers x.s.a0 fun j hj => ?_
  by_cases hjk : role j = role k
  · rw [hjk, Function.update_self]
    refine ⟨fun he => ?_, fun he => absurd he hend⟩
    have hready := hr.ready
    rw [he.2] at hready
    cases hready
  · rw [Function.update_of_ne hjk]

/-- The running process in front of a system call other than a fork, and behind it. -/
theorem Ring.system (h : Ring x v role n) (hk : k < n) (hcur : role k = x.s.pid)
    (hret : (x.user (role k)).returned = false) (hcall : (x.user (role k)).call = .sys e)
    (hfork : e ≠ .fork) (hs : Step x.s v e s' v') (hexit : e = .exit → NoParent x.s.core v)
    (tokens : Tokens s' v'
      (Function.update x.user (role k) (x.user (role k)).back) role n) :
    Ring { x with s := s', user := x.behind e s' } v' role n := by
  have hu : x.cur = x.user (role k) := by rw [App.cur, hcur]
  have hsite : (x.user (role k)).site ≠ .forkMain ∧ (x.user (role k)).site ≠ .forkChild := by
    rw [← not_or, ← User.call_fork, hcall]
    exact fun he => hfork (Call.sys.inj he)
  have hends : (x.user (role k)).back.Ended ↔ e = .exit := by
    rw [User.ended_back, ← User.call_exit, hcall, Call.sys.injEq]
  have hnot : ¬ (x.user (role k)).Ended := fun he => by simp [he.2] at hret
  rw [App.behind_of_ne hfork, hu, ← hcur]
  refine h.goes hk hcur (h.kernel.step hs hfork hexit fun j hj => ?_) ?_
    ((h.place k hk).returned hsite) (fun i hi => hs.a0_eq hfork hi) tokens (h.printed_same hk ?_)
  · by_cases hjk : role j = role k
    · rw [hjk, Function.update_self, hends]
      exact ⟨fun he => .inr ⟨he, hcur⟩, fun hor => (hor.resolve_left hnot).1⟩
    · rw [Function.update_of_ne hjk]
      exact ⟨.inl, fun hor => hor.resolve_right fun he => hjk (he.2.trans hcur.symm)⟩
  · exact ⟨(h.vars k hk).mainSem, (h.vars k hk).first, (h.vars k hk).second⟩
  · refine User.printed_returned fun child hsite => ?_
    cases child <;> simp [User.call, hsite] at hcall

/-- `sem_P` on its own semaphore. -/
theorem Ring.semP (h : Ring x v role n) (hk : k < n) (hcur : role k = x.s.pid)
    (hv : v.cur = .procs (role k)) (hsite : (x.user (role k)).site = .semP child)
    (hret : (x.user (role k)).returned = false) (hs : Step x.s v (.semP (k + 1)) s' v') :
    Ring { x with s := s', user := x.behind (.semP (k + 1)) s' } v' role n := by
  have hcall := (h.place k hk).call_semP (h.vars k hk) hsite
  have hawake := h.awake hk hv
  have hasked : (x.user (role k)).back.asked = (x.user (role k)).asked + 1 := by
    simp [User.asked, User.back, hsite, hret]
  have hgiven : (x.user (role k)).back.given = (x.user (role k)).given := by
    simp [User.given, User.back, hsite]
  have hsem : ∀ p ∈ v.wait, (s'.core p).sem = (x.s.core p).sem := fun p hp =>
    hs.sem_eq h.kernel.inv hp
  refine h.system hk hcur hret hcall (by simp) hs (by simp) ?_
  cases hs with
  | rotate start next effect => cases start
  | sleep start next effect =>
    cases start with
    | semP low =>
      refine h.tokens.semP h.kernel hk hv hawake effect.l (fun j hj => ?_) (fun j hj hm => ?_)
        hasked hgiven hsite rfl
      · rw [List.mem_append, List.mem_singleton, hv, Addr.procs.injEq]
        exact or_congr_right
          ⟨fun he => ⟨h.kernel.inj j hj k hk he, low⟩, fun he => congrArg role he.1⟩
      · rcases List.mem_append.1 hm with hm | hm
        · rw [hsem _ hm]
          exact h.tokens.sem j hj hm
        · have hjk := List.mem_singleton.1 hm
          rw [effect.core, withStatus_sem, withStatus_sem, hjk, Function.update_self,
            h.kernel.inj j hj k hk (Addr.procs.inj (hjk.trans hv))]
  | semP high effect =>
    refine h.tokens.semP h.kernel hk hv hawake effect.l (fun j hj => ?_) (fun j hj hm => ?_)
      hasked hgiven hsite rfl
    · exact ⟨.inl, fun hor => hor.resolve_right fun he => absurd he.2 (not_lt.2 high)⟩
    · rw [effect.core]
      exact h.tokens.sem j hj hm

/-- `sem_V` on the semaphore of the next process, which wakes it if it sleeps. -/
theorem Ring.semV (h : Ring x v role n) (hk : k < n) (hcur : role k = x.s.pid)
    (hv : v.cur = .procs (role k)) (hsite : (x.user (role k)).site = .semV child)
    (hret : (x.user (role k)).returned = false)
    (hs : Step x.s v (.semV (((k + 1) % 3 : ℕ) + 1)) s' v') :
    Ring { x with s := s', user := x.behind (.semV (((k + 1) % 3 : ℕ) + 1)) s' } v' role n := by
  have hcall := (h.place k hk).call_semV (h.vars k hk) hsite
  have hasked : (x.user (role k)).back.asked = (x.user (role k)).asked := by
    simp [User.asked, User.back, hsite]
  have hgiven : (x.user (role k)).back.given = (x.user (role k)).given + 1 := by
    have hplace := h.place k hk
    rw [Place, hsite] at hplace
    simp [User.given, User.back, hsite, hret]
  have hsem : ∀ p ∈ v.wait, (s'.core p).sem = (x.s.core p).sem := fun p hp =>
    hs.sem_eq h.kernel.inv hp
  refine h.system hk hcur hret hcall (by simp) hs (by simp) ?_
  generalize hj : (k + 1) % 3 = j at hs
  cases hs with
  | rotate start next effect => cases start
  | sleep start next effect => cases start
  | semV nobody effect =>
    refine h.tokens.semV h.kernel hk h.le hv hj.symm effect.l (fun i hi => ?_) hsem hasked hgiven
    refine ⟨fun hm => ⟨hm, ?_⟩, And.left⟩
    rintro rfl
    have hneg := (h.tokens.sleeps i hi).1 hm
    have hlow := h.tokens.low i (by omega)
    exact nobody (by omega) _ hm (h.tokens.sem i hi hm)
  | @wake _ _ pre post p high wait before sem effect =>
    have hp : p ∈ v.wait := by
      rw [wait]
      exact List.mem_append_right _ List.mem_cons_self
    obtain ⟨m, hm, rfl⟩ := h.kernel.role_of_wait hp
    have hmj : m = j := by
      have he := (h.tokens.sem m hm hp).symm.trans sem
      omega
    have hnd := (List.nodup_append.1 h.kernel.inv.queued.nodup).2.1
    rw [wait, List.nodup_middle, List.nodup_cons] at hnd
    refine h.tokens.semV h.kernel hk h.le hv hj.symm effect.l (fun i hi => ?_) hsem hasked hgiven
    rw [wait, ← hmj]
    constructor
    · intro hi'
      refine ⟨by simp only [List.mem_append, List.mem_cons] at hi' ⊢; tauto, ?_⟩
      rintro rfl
      exact hnd.1 hi'
    · rintro ⟨hi', hne⟩
      simp only [List.mem_append, List.mem_cons, Addr.procs.injEq] at hi' ⊢
      rcases hi' with hi' | hi' | hi'
      · exact .inl hi'
      · exact absurd (h.kernel.inj i hi m hm hi') hne
      · exact .inr hi'

/-- The parent of a process that exits does not sleep: it has no more lines to wait for. -/
theorem Ring.noParent (h : Ring x v role n) (hk : k < n) (hv : v.cur = .procs (role k))
    (hsite : (x.user (role k)).site = .exit) : NoParent x.s.core v := by
  rw [NoParent, hv, h.kernel.parent k hk]
  split
  · exact .inl rfl
  · rename_i hpos
    refine .inr fun p hp => ?_
    obtain ⟨j, hj, rfl⟩ := h.kernel.role_of_wait hp
    rw [h.kernel.inv.ok.pid, h.kernel.inv.ok.pid]
    intro he
    have hjk := h.kernel.inj j hj (k - 1) (by omega) he
    have hle := h.le
    have hneg := (h.tokens.sleeps j hj).1 hp
    have hawake := h.awake hk hv
    have hmine : count User.asked x.user role n k = 10 := by
      rw [count_of_lt hk]
      simp [User.asked, hsite]
    have hasleep := h.asleep hj hneg
    have ho := h.ordered j
    have hc := h.counters
    obtain ⟨rfl, rfl⟩ | ⟨rfl, rfl⟩ : k = 1 ∧ j = 0 ∨ k = 2 ∧ j = 1 := by omega
    · simp only [Nat.cast_one, one_add_one_eq_two] at hawake
      omega
    · simp only [Nat.cast_ofNat, Int.reduceAdd] at hawake
      omega

theorem Ring.exit (h : Ring x v role n) (hk : k < n) (hcur : role k = x.s.pid)
    (hv : v.cur = .procs (role k)) (hsite : (x.user (role k)).site = .exit)
    (hret : (x.user (role k)).returned = false) (hs : Step x.s v .exit s' v') :
    Ring { x with s := s', user := x.behind .exit s' } v' role n := by
  have hno := h.noParent hk hv hsite
  have hq := hs.quiet (.inr ⟨rfl, hno⟩)
  refine h.system hk hcur hret (User.call_exit.2 hsite) (by simp) hs (fun _ => hno) ?_
  refine h.tokens.keep hq.1 hq.2 (fun p hp => hs.sem_eq h.kernel.inv hp) (fun j => ?_) (fun j => ?_)
    fun j _ hj => h.kernel.others hv hj
  · exact h.kernel.count_same hk (by simp [User.asked, User.back, hsite])
  · exact h.kernel.count_same hk (by simp [User.given, User.back, hsite])

/-- The process whose turn it is prints its line. -/
theorem Ring.print (h : Ring x v role n) (hk : k < n) (hcur : role k = x.s.pid)
    (hv : v.cur = .procs (role k)) (hsite : (x.user (role k)).site = .print child)
    (hret : (x.user (role k)).returned = false) :
    Ring
      { s := { x.s with a0 := Function.update x.s.a0 x.s.pid 0 }
        user := Function.update x.user x.s.pid x.cur.back
        out := x.out ++ [line (3 * (x.user (role k)).i + k)] } v role n := by
  have hu : x.cur = x.user (role k) := by rw [App.cur, hcur]
  have hasked : (x.user (role k)).back.asked = (x.user (role k)).asked := by
    simp [User.asked, User.back, hsite]
  have hgiven : (x.user (role k)).back.given = (x.user (role k)).given := by
    simp [User.given, User.back, hsite]
  have hprinted : (x.user (role k)).back.printed = (x.user (role k)).printed + 1 := by
    simp [User.printed, User.back, hsite, hret]
  have hnot : ¬ (x.user (role k)).Ended := fun he => by simp [he.2] at hret
  rw [hu, ← hcur]
  refine h.goes hk hcur (h.kernel.registers _ fun j hj => ?_) ?_
    ((h.place k hk).returned (by simp [hsite])) (fun i hi => ?_) ?_ ?_
  · by_cases hjk : role j = role k
    · rw [hjk, Function.update_self, User.ended_back, hsite]
      exact ⟨fun he => Site.noConfusion he, fun he => absurd he hnot⟩
    · rw [Function.update_of_ne hjk]
  · exact ⟨(h.vars k hk).mainSem, (h.vars k hk).first, (h.vars k hk).second⟩
  · exact Function.update_of_ne (hcur ▸ hi) _ _
  · exact h.tokens.keep rfl rfl (fun _ _ => rfl) (fun j => h.kernel.count_same hk hasked)
      (fun j => h.kernel.count_same hk hgiven) fun j _ hj => h.kernel.others hv hj
  · have hturn := h.turn hk hv hsite hret
    have hle := h.le
    have hsucc : ∀ m, count User.printed (Function.update x.user (role k) (x.user (role k)).back)
        role n m = count User.printed x.user role n m + if m = k then 1 else 0 := by
      intro m
      rw [h.kernel.count_update hk]
      split
      · rename_i hm
        rw [hm, count_of_lt hk, hprinted]
      · rfl
    rw [Printed, hsucc, hsucc, hsucc]
    have htotal : ∀ a b c : ℕ, a + (if 0 = k then 1 else 0) + (b + if 1 = k then 1 else 0) +
        (c + if 2 = k then 1 else 0) = a + b + c + 1 := by
      intro a b c
      split_ifs <;> omega
    rw [htotal, List.range_succ, List.map_append, ← h.out, hturn]
    rfl

/-- A timer interrupt. -/
theorem Ring.tick {a0 : ℤ} (h : Ring x v role n)
    (hkept : x.cur.returned = true → a0 = x.s.a0 x.s.pid) (hs : Step x.s v (.tick a0) s' v') :
    Ring { x with s := s' } v' role n := by
  have hq := hs.quiet (.inl ⟨a0, rfl⟩)
  have hself : s'.a0 x.s.pid = a0 := by
    cases hs with
    | rotate start next effect => rw [effect.a0]; exact Function.update_self _ _ _
    | tick slice effect => rw [effect.a0]; exact Function.update_self _ _ _
    | sleep start next effect => cases start
  refine
    { kernel := h.kernel.step hs (by simp) (by simp) fun k hk => by simp
      le := h.le
      vars := h.vars
      place := fun k hk => ?_
      tokens := h.tokens.keep hq.1 hq.2 (fun p hp => hs.sem_eq h.kernel.inv hp) (fun _ => rfl)
        (fun _ => rfl) fun _ _ _ => rfl
      out := h.out }
  refine (h.place k hk).register fun hret _ => ?_
  change s'.a0 (role k) = _
  by_cases hcur : role k = x.s.pid
  · rw [hcur, hself]
    exact hkept (by rw [App.cur, ← hcur]; exact hret)
  · exact hs.a0_eq (by simp) hcur

end SemaphoreApp

end HustOS.Proc
