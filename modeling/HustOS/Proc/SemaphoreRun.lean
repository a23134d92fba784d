import HustOS.Proc.SemaphoreOrder

/-!
# The runs of the three processes

A fork of the last process gives the next role to its child (`Ring.fork`), and every other step is
one of those of `HustOS.Proc.SemaphoreOrder` (`Ring.works`). Each lowers the number of the steps
that are left to the processes made so far and to those they will make. Up to the first fork the
first process runs alone and makes the semaphores (`Setup`). So every state of every run is
`Good`, and at most 259 steps lead to it (`Reached.good`).
-/

namespace HustOS.Proc

open Foundations

namespace SemaphoreApp

variable {s s' : Sched} {v v' : View} {e : Event} {user user' : Fin NPROC → User}
  {role : ℕ → Fin NPROC} {n j k : ℕ} {x x' : App} {u : User} {r : ℤ} {child : Bool}
  {f : User → ℕ}

/-! ## A new process -/

/-- The roles with a new one. -/
def newRole (role : ℕ → Fin NPROC) (n : ℕ) (i : Fin NPROC) : ℕ → Fin NPROC :=
  Function.update role n i

theorem newRole_of_lt {i : Fin NPROC} (hk : k < n) : newRole role n i k = role k :=
  Function.update_of_ne hk.ne _ _

theorem newRole_self {i : Fin NPROC} : newRole role n i n = i := Function.update_self _ _ _

/-- A process in front of its fork. -/
structure Forks (k n : ℕ) (u : User) : Prop where
  last : n = k + 1
  lt : n < 3
  site : u.site = .forkMain ∧ k = 0 ∨ u.site = .forkChild ∧ k = 1
  ready : u.returned = false

theorem Place.forks (h : Place k n r u) (hsite : u.site = .forkMain ∨ u.site = .forkChild)
    (hret : u.returned = false) : Forks k n u := by
  unfold Place at h
  rcases hsite with hsite | hsite
  · simp only [hsite, hret, Bool.false_eq_true, if_false] at h
    exact ⟨by omega, by omega, .inl ⟨hsite, h.1⟩, hret⟩
  · simp only [hsite, hret, Bool.false_eq_true, if_false] at h
    exact ⟨by omega, by omega, .inr ⟨hsite, h.1⟩, hret⟩

/-- A parent goes on with the id of its child. -/
theorem Forks.parent (h : Forks k n u) (hr : r ≠ 0) : Place k (n + 1) r u.back := by
  have hlast := h.last
  unfold Place User.back
  rcases h.site with ⟨hsite, hk⟩ | ⟨hsite, hk⟩
  · simp only [hsite, if_true]
    exact .inl ⟨hk, by omega, hr⟩
  · simp only [hsite, if_true]
    exact ⟨by omega, .inl ⟨hk, hr⟩⟩

/-- A child goes on with zero. -/
theorem Forks.newborn (h : Forks k n u) : Place n (n + 1) 0 u.back := by
  have hlast := h.last
  unfold Place User.back
  rcases h.site with ⟨hsite, hk⟩ | ⟨hsite, hk⟩
  · simp only [hsite, if_true]
    exact .inr ⟨by omega, by omega, trivial⟩
  · simp only [hsite, if_true]
    exact ⟨by omega, .inr ⟨by omega, trivial⟩⟩

/-- The processes that do not fork stay where they are. -/
theorem Forks.other {u' : User} (h : Forks k n u) (hj : j < k) (hp : Place j n r u') :
    Place j (n + 1) r u' := by
  have hlast := h.last
  have hlt := h.lt
  have hloop : ∀ {child}, Looping j n child u' → Looping j (n + 1) child u' := by
    intro child hl
    rcases hl with ⟨h0, hc, hn⟩ | ⟨h0, -, hn, -⟩
    · exact .inl ⟨h0, hc, by omega⟩
    · omega
  unfold Place at hp ⊢
  cases hsite : u'.site with
  | newMain => simp [hsite] at hp
  | newChild => simp [hsite] at hp
  | forkMain =>
    simp only [hsite] at hp ⊢
    split at hp
    · rename_i hret
      rw [if_pos hret]
      rcases hp with hp | hp
      · exact .inl ⟨hp.1, by omega, hp.2.2⟩
      · omega
    · omega
  | forkChild =>
    simp only [hsite] at hp ⊢
    split at hp <;> omega
  | semP child =>
    simp only [hsite] at hp ⊢
    exact ⟨hp.1, hloop hp.2⟩
  | print child =>
    simp only [hsite] at hp ⊢
    exact ⟨hp.1, hloop hp.2⟩
  | semV child =>
    simp only [hsite] at hp ⊢
    exact ⟨hp.1, hloop hp.2⟩
  | exit =>
    simp only [hsite] at hp ⊢
    omega

/-- A process that forks has not asked, printed or given. -/
theorem Forks.zero (h : Forks k n u) :
    (u.asked = 0 ∧ u.printed = 0 ∧ u.given = 0) ∧ ¬ u.Ended ∧
      u.back.asked = 0 ∧ u.back.printed = 0 ∧ u.back.given = 0 ∧ ¬ u.back.Ended := by
  rcases h.site with ⟨hsite, -⟩ | ⟨hsite, -⟩
  · simp [User.asked, User.printed, User.given, User.Ended, User.back, hsite]
  · simp [User.asked, User.printed, User.given, User.Ended, User.back, hsite]

/-- The child of the process with the last role gets the next one. -/
theorem Kernel.fork {i : Fin NPROC} (h : Kernel s v user role n) (hs : Step s v .fork s' v')
    (hv : v.cur = .procs (role k)) (hk : n = k + 1) (hfree : (s.core (.procs i)).status = .free)
    (hcore : s'.core = Function.update s.core (.procs i)
      { s.core (.procs i) with status := .ready, parent := v.cur })
    (hend : ∀ j < n, (user' (role j)).Ended ↔ (user (role j)).Ended) (hnew : ¬ (user' i).Ended) :
    Kernel s' v' user' (newRole role n i) (n + 1) := by
  have hnot : ∀ j < n, role j ≠ i := by
    rintro j hj rfl
    exact (h.made (role j)).2 ⟨j, hj, rfl⟩ hfree
  have hself : s'.core (.procs i) =
      { s.core (.procs i) with status := .ready, parent := v.cur } := by
    rw [hcore, Function.update_self]
  have hother : ∀ m, m ≠ i → s'.core (.procs m) = s.core (.procs m) := fun m hm => by
    rw [hcore, Function.update_of_ne fun e => hm (Addr.procs.inj e)]
  have hlt : ∀ {j}, j < n + 1 → j ≠ n → j < n := fun hj hne => by omega
  refine
    { inv := hs.inv h.inv
      own := hs.own h.own (by simp)
      zero := (newRole_of_lt h.pos).trans h.zero
      pos := by omega
      inj := fun j hj m hm he => ?_
      made := fun m => ⟨fun hm => ?_, ?_⟩
      zombie := fun j hj => ?_
      parent := fun j hj => ?_ }
  · by_cases hjn : j = n <;> by_cases hmn : m = n
    · rw [hjn, hmn]
    · rw [hjn, newRole_self, newRole_of_lt (hlt hm hmn)] at he
      exact absurd he.symm (hnot m (hlt hm hmn))
    · rw [hmn, newRole_self, newRole_of_lt (hlt hj hjn)] at he
      exact absurd he (hnot j (hlt hj hjn))
    · rw [newRole_of_lt (hlt hj hjn), newRole_of_lt (hlt hm hmn)] at he
      exact h.inj j (hlt hj hjn) m (hlt hm hmn) he
  · by_cases hmi : m = i
    · exact ⟨n, by omega, newRole_self.trans hmi.symm⟩
    · rw [hother m hmi] at hm
      obtain ⟨j, hj, rfl⟩ := (h.made m).1 hm
      exact ⟨j, by omega, newRole_of_lt hj⟩
  · rintro ⟨j, hj, rfl⟩
    by_cases hjn : j = n
    · rw [hjn, newRole_self, hself]
      simp
    · rw [newRole_of_lt (hlt hj hjn), hother _ (hnot j (hlt hj hjn))]
      exact (h.made _).2 ⟨j, hlt hj hjn, rfl⟩
  · by_cases hjn : j = n
    · rw [hjn, newRole_self, hself]
      simp [hnew]
    · rw [newRole_of_lt (hlt hj hjn), hother _ (hnot j (hlt hj hjn)), h.zombie j (hlt hj hjn),
        hend j (hlt hj hjn)]
  · by_cases hjn : j = n
    · rw [hjn, newRole_self, hself, if_neg (by omega), newRole_of_lt (by omega), hv, hk]
      rfl
    · rw [newRole_of_lt (hlt hj hjn), hother _ (hnot j (hlt hj hjn)), h.parent j (hlt hj hjn)]
      split
      · rfl
      · rw [newRole_of_lt (by omega)]

/-- The processes and their registers after a fork of the role `k`. -/
structure Forked (x : App) (role : ℕ → Fin NPROC) (n k : ℕ) (s' : Sched) (i : Fin NPROC) :
    Prop where
  fresh : ∀ j < n, role j ≠ i
  back : ∀ j, j = role k ∨ j = i → x.behind .fork s' j = (x.user (role k)).back
  same : ∀ j < n, j ≠ k → x.behind .fork s' (role j) = x.user (role j)
  parent : s'.a0 (role k) = i
  nonzero : (i : ℤ) ≠ 0
  newborn : s'.a0 i = 0
  others : ∀ j < n, j ≠ k → s'.a0 (role j) = x.s.a0 (role j)

theorem Ring.forked {i : Fin NPROC} (h : Ring x v role n) (hk : k < n) (hcur : role k = x.s.pid)
    (hfree : (x.s.core (.procs i)).status = .free)
    (ha0 : s'.a0 = Function.update (Function.update x.s.a0 i 0) x.s.pid i) :
    Forked x role n k s' i := by
  have hu : x.cur = x.user (role k) := by rw [App.cur, hcur]
  have hnot : ∀ j < n, role j ≠ i := by
    rintro j hj rfl
    exact (h.kernel.made (role j)).2 ⟨j, hj, rfl⟩ hfree
  have hpid : s'.a0 (role k) = i := by rw [ha0, hcur, Function.update_self]
  have hne : ∀ j < n, j ≠ k → role j ≠ x.s.pid := fun j hj hjk he =>
    hjk (h.kernel.inj j hj k hk (he.trans hcur.symm))
  refine
    { fresh := hnot
      back := fun j hj => ?_
      same := fun j hj hjk => ?_
      parent := hpid
      nonzero := fun hi => ?_
      newborn := ?_
      others := fun j hj hjk => ?_ }
  · rw [App.behind, if_pos, hu]
    rcases hj with rfl | rfl
    · exact .inl hcur
    · exact .inr ⟨rfl, by rw [← hcur, hpid]⟩
  · rw [App.behind, if_neg]
    rintro (he | ⟨-, he⟩)
    · exact hne j hj hjk he
    · rw [← hcur, hpid] at he
      exact hnot j hj (Fin.ext (Int.ofNat.inj he))
  · have hi0 : i = 0 := Fin.ext (Int.ofNat.inj hi)
    exact hnot 0 h.kernel.pos (h.kernel.zero.trans hi0.symm)
  · rw [ha0, Function.update_of_ne (hcur ▸ (hnot k hk).symm), Function.update_self]
  · rw [ha0, Function.update_of_ne (hne j hj hjk), Function.update_of_ne (hnot j hj)]

/-- A number that is zero at a fork. -/
theorem Forked.count_eq {i : Fin NPROC} (hf : Forked x role n k s' i)
    (h0 : f (x.user (role k)) = 0) (h0' : f (x.user (role k)).back = 0) (j : ℕ) :
    count f (x.behind .fork s') (newRole role n i) (n + 1) j = count f x.user role n j := by
  by_cases hj : j < n
  · rw [count_of_lt hj, count_of_lt (by omega), newRole_of_lt hj]
    by_cases hjk : j = k
    · rw [hjk, hf.back _ (.inl rfl), h0, h0']
    · rw [hf.same j hj hjk]
  · rw [count_of_le (not_lt.1 hj)]
    by_cases hjn : j = n
    · rw [count_of_lt (by omega), hjn, newRole_self, hf.back _ (.inr rfl), h0']
    · rw [count_of_le (by omega)]

/-- The semaphores after a fork. -/
theorem Ring.fork_tokens {i : Fin NPROC} (h : Ring x v role n) (hv : v.cur = .procs (role k))
    (hf : Forks k n (x.user (role k))) (hd : Forked x role n k s' i)
    (hfree : (x.s.core (.procs i)).status = .free) (hl : s'.l = x.s.l) (hw : v'.wait = v.wait)
    (hsem : ∀ p ∈ v.wait, (s'.core p).sem = (x.s.core p).sem) :
    Tokens s' v' (x.behind .fork s') (newRole role n i) (n + 1) := by
  obtain ⟨⟨ha, -, hg⟩, -, ha', -, hg', -⟩ := hf.zero
  have hwait : .procs i ∉ v.wait := fun hm => h.kernel.inv.notMem_of_free hfree
    (List.mem_cons_of_mem _ (List.mem_append_right _ hm))
  have hrole : ∀ {j}, j < n + 1 → .procs (newRole role n i j) ∈ v.wait → j < n := by
    intro j hj hm
    by_contra hjn
    obtain rfl : j = n := by omega
    rw [newRole_self] at hm
    exact hwait hm
  refine
    { counter := fun j hj => ?_
      low := fun j hj => ?_
      sleeps := fun j hj => ?_
      sem := fun j hj hm => ?_
      behind := fun j hj hm => ?_ }
  · rw [hd.count_eq ha ha', hd.count_eq hg hg', hl]
    exact h.tokens.counter j hj
  · rw [hl]
    exact h.tokens.low j hj
  · rw [hl, hw]
    by_cases hjn : j < n
    · rw [newRole_of_lt hjn]
      exact h.tokens.sleeps j hjn
    · obtain rfl : j = n := by omega
      have hhigh := h.high hf.lt le_rfl
      rw [newRole_self]
      exact ⟨fun hm => absurd hm hwait, fun hneg => absurd hneg (not_lt.2 hhigh)⟩
  · rw [hw] at hm
    have hjn := hrole hj hm
    rw [newRole_of_lt hjn] at hm ⊢
    rw [hsem _ hm]
    exact h.tokens.sem j hjn hm
  · rw [hw] at hm
    have hjn := hrole hj hm
    rw [newRole_of_lt hjn] at hm ⊢
    have hjk : j ≠ k := by
      rintro rfl
      exact h.kernel.inv.ok.cur_notMem.2 (hv ▸ hm)
    rw [hd.same j hjn hjk]
    exact h.tokens.behind j hjn hm

/-- The last process makes the next one. -/
theorem Ring.fork (h : Ring x v role n) (hk : k < n) (hcur : role k = x.s.pid)
    (hv : v.cur = .procs (role k)) (hf : Forks k n (x.user (role k)))
    (hs : Step x.s v .fork s' v') :
    ∃ i, Forked x role n k s' i ∧
      Ring { x with s := s', user := x.behind .fork s' } v' (newRole role n i) (n + 1) := by
  have hstep := hs
  cases hs with
  | rotate start _ _ => cases start
  | sleep start _ _ => cases start
  | @fork _ i free effect =>
    have hd := h.forked hk hcur free effect.a0
    obtain ⟨⟨-, hp, -⟩, hend, -, hp', -, hend'⟩ := hf.zero
    have hlast := hf.last
    have hlt := hf.lt
    have hle : ∀ {j}, j < n + 1 → j ≠ n → j < n := fun hj hne => by omega
    have hnew : ¬ (x.behind .fork s' i).Ended := by rwa [hd.back i (.inr rfl)]
    refine ⟨i, hd,
      { kernel := h.kernel.fork hstep hv hlast free effect.core (fun j hj => ?_) hnew
        le := by omega
        vars := fun j hj => ?_
        place := fun j hj => ?_
        tokens := h.fork_tokens hv hf hd free effect.l rfl fun p hp => hstep.sem_eq h.kernel.inv hp
        out := ?_ }⟩
    · change (x.behind .fork s' (role j)).Ended ↔ _
      by_cases hjk : j = k
      · rw [hjk, hd.back _ (.inl rfl)]
        exact ⟨fun he => absurd he hend', fun he => absurd he hend⟩
      · rw [hd.same j hj hjk]
    · have hvars := h.vars k hk
      have hb : Vars (x.user (role k)).back := ⟨hvars.mainSem, hvars.first, hvars.second⟩
      change Vars (x.behind .fork s' (newRole role n i j))
      by_cases hjn : j = n
      · rwa [hjn, newRole_self, hd.back _ (.inr rfl)]
      · rw [newRole_of_lt (hle hj hjn)]
        by_cases hjk : j = k
        · rwa [hjk, hd.back _ (.inl rfl)]
        · rw [hd.same j (hle hj hjn) hjk]
          exact h.vars j (hle hj hjn)
    · change Place j (n + 1) (s'.a0 (newRole role n i j)) (x.behind .fork s' (newRole role n i j))
      by_cases hjn : j = n
      · rw [hjn, newRole_self, hd.back _ (.inr rfl), hd.newborn]
        exact hf.newborn
      · rw [newRole_of_lt (hle hj hjn)]
        by_cases hjk : j = k
        · rw [hjk, hd.back _ (.inl rfl), hd.parent]
          exact hf.parent hd.nonzero
        · rw [hd.same j (hle hj hjn) hjk, hd.others j (hle hj hjn) hjk]
          exact hf.other (by omega) (h.place j (hle hj hjn))
    · change x.out = _
      rw [h.out, hd.count_eq hp hp', hd.count_eq hp hp', hd.count_eq hp hp']

/-! ## Every step -/

/-- The steps that are left, at most. -/
def App.left (x : App) (role : ℕ → Fin NPROC) (n : ℕ) : ℕ :=
  count User.left x.user role n 0 + count User.left x.user role n 1 +
    count User.left x.user role n 2

/-- A system call is a step of its process. -/
theorem Place.left_back (h : Place k n r u) (hret : u.returned = false)
    (hfork : u.site ≠ .forkMain ∧ u.site ≠ .forkChild) : u.back.left + 1 ≤ u.left := by
  unfold Place at h
  cases hsite : u.site with
  | newMain => simp [hsite] at h
  | newChild => simp [hsite] at h
  | forkMain => exact absurd hsite hfork.1
  | forkChild => exact absurd hsite hfork.2
  | semP child =>
    simp only [hsite] at h
    simp [User.left, User.back, hsite, hret]
    omega
  | print child =>
    simp only [hsite] at h
    simp [User.left, User.back, hsite, hret]
    omega
  | semV child =>
    simp only [hsite] at h
    simp [User.left, User.back, hsite, hret]
    omega
  | exit => simp [User.left, User.back, hsite, hret]

theorem Ring.left_update {w : User} (h : Ring x v role n) (hk : k < n)
    (hw : w.left + 1 ≤ (x.user (role k)).left) (hx : x'.user = Function.update x.user (role k) w) :
    x'.left role n + 1 ≤ x.left role n := by
  have hle := h.le
  have hmine : count User.left x.user role n k = (x.user (role k)).left := count_of_lt hk
  rw [App.left, App.left, hx, h.kernel.count_update hk, h.kernel.count_update hk,
    h.kernel.count_update hk]
  obtain rfl | rfl | rfl : k = 0 ∨ k = 1 ∨ k = 2 := by omega
  · simp only [if_true, show (1 : ℕ) ≠ 0 by decide, show (2 : ℕ) ≠ 0 by decide, if_false]
    omega
  · simp only [if_true, show (0 : ℕ) ≠ 1 by decide, show (2 : ℕ) ≠ 1 by decide, if_false]
    omega
  · simp only [if_true, show (0 : ℕ) ≠ 2 by decide, show (1 : ℕ) ≠ 2 by decide, if_false]
    omega

/-- The two processes behind a fork have fewer steps left than the one in front of it. -/
theorem Forked.left_lt {i : Fin NPROC} (hd : Forked x role n k s' i)
    (hf : Forks k n (x.user (role k))) :
    App.left { x with s := s', user := x.behind .fork s' } (newRole role n i) (n + 1) + 1 ≤
      x.left role n := by
  have hlast := hf.last
  have hcount : ∀ m, count User.left (x.behind .fork s') (newRole role n i) (n + 1) m =
      if m = k ∨ m = n then (x.user (role k)).back.left else count User.left x.user role n m := by
    intro m
    by_cases hm : m < n
    · rw [count_of_lt (by omega), newRole_of_lt hm]
      by_cases hmk : m = k
      · rw [if_pos (.inl hmk), hmk, hd.back _ (.inl rfl)]
      · rw [if_neg (by omega), hd.same m hm hmk, count_of_lt hm]
    · by_cases hmn : m = n
      · rw [if_pos (.inr hmn), count_of_lt (by omega), hmn, newRole_self, hd.back _ (.inr rfl)]
      · rw [if_neg (by omega), count_of_le (by omega), count_of_le (by omega)]
  have hmine : count User.left x.user role n k = (x.user (role k)).left := count_of_lt (by omega)
  have hnew : count User.left x.user role n n = 0 := count_of_le le_rfl
  have hready := hf.ready
  rw [App.left, App.left]
  change count User.left (x.behind .fork s') _ _ _ + count User.left (x.behind .fork s') _ _ _ +
    count User.left (x.behind .fork s') _ _ _ + 1 ≤ _
  rw [hcount, hcount, hcount]
  rcases hf.site with ⟨hsite, rfl⟩ | ⟨hsite, rfl⟩
  · obtain rfl : n = 1 := hlast
    have hback : (x.user (role 0)).back.left = 126 := by simp [User.left, User.back, hsite]
    have hleft : (x.user (role 0)).left = 253 := by simp [User.left, hsite, hready]
    simp [hback]
    omega
  · obtain rfl : n = 2 := hlast
    have hback : (x.user (role 1)).back.left = 62 := by simp [User.left, User.back, hsite]
    have hleft : (x.user (role 1)).left = 125 := by simp [User.left, hsite, hready]
    simp [hback]
    omega

/-- **A step keeps the order** and lowers the number of the steps that are left. -/
theorem Ring.works (h : Ring x v role n) (hw : Works x x') :
    ∃ v' role' n', Ring x' v' role' n' ∧ x'.left role' n' + 1 ≤ x.left role n := by
  obtain ⟨k, hk, hcur, hv, hend⟩ := h.kernel.cur
  have hu : x.cur = x.user (role k) := by rw [App.cur, hcur]
  have hplace := h.place k hk
  cases hw with
  | resume returned =>
    have hr := hplace.resumes (h.vars k hk) (hu ▸ returned) hend
    exact ⟨v, role, n, h.resume returned, h.left_update hk hr.left (by rw [hu, ← hcur])⟩
  | @print line ready call =>
    rw [hu] at ready call
    obtain ⟨child, hsite⟩ : ∃ child, (x.user (role k)).site = .print child := by
      unfold User.call at call
      cases hs : (x.user (role k)).site with
      | print child => exact ⟨child, rfl⟩
      | semP child => cases child <;> simp [hs] at call
      | semV child => cases child <;> simp [hs] at call
      | _ => simp [hs] at call
    have hline := hplace.call_print hsite
    rw [call] at hline
    obtain rfl := Call.print.inj hline
    have hleft := hplace.left_back ready (by simp [hsite])
    exact ⟨v, role, n, h.print hk hcur hv hsite ready, h.left_update hk hleft (by rw [hu, ← hcur])⟩
  | @sys e s' ready call exec =>
    rw [hu] at ready call
    obtain ⟨v', hs⟩ := exec_step h.kernel.inv exec
    by_cases hfork : e = .fork
    · subst hfork
      have hf := hplace.forks (User.call_fork.1 call) ready
      obtain ⟨i, hd, hring⟩ := h.fork hk hcur hv hf hs
      exact ⟨v', _, _, hring, hd.left_lt hf⟩
    · have hleft := hplace.left_back ready
        (not_or.1 fun hsite => hfork (Call.sys.inj (call.symm.trans (User.call_fork.2 hsite))))
      refine ⟨v', role, n, ?_, h.left_update hk hleft (by
        rw [← hu, hcur]
        exact App.behind_of_ne hfork)⟩
      cases hsite : (x.user (role k)).site with
      | newMain => simp [Place, hsite] at hplace
      | newChild => simp [Place, hsite] at hplace
      | forkMain => exact absurd (Call.sys.inj (call.symm.trans (User.call_fork.2 (.inl hsite)))) hfork
      | forkChild =>
        exact absurd (Call.sys.inj (call.symm.trans (User.call_fork.2 (.inr hsite)))) hfork
      | semP child =>
        obtain rfl := Call.sys.inj (call.symm.trans (hplace.call_semP (h.vars k hk) hsite))
        exact h.semP hk hcur hv hsite ready hs
      | print child => cases child <;> simp [User.call, hsite] at call
      | semV child =>
        obtain rfl := Call.sys.inj (call.symm.trans (hplace.call_semV (h.vars k hk) hsite))
        exact h.semV hk hcur hv hsite ready hs
      | exit =>
        obtain rfl := Call.sys.inj (call.symm.trans (User.call_exit.2 hsite))
        exact h.exit hk hcur hv hsite ready hs

/-! ## The first process alone -/

/-- How far the first process is with the semaphores, with `r` in its register `a0`. -/
def Making (s : Sched) (u : User) (r : ℤ) : Prop :=
  match u.site with
  | .newMain => if u.returned = true then s.len = 1 ∧ s.l 1 = 1 ∧ r = 1 else s.len = 0
  | .newChild => u.i < 2 ∧ u.mainSem = 1 ∧ s.l 1 = 1 ∧
      (∀ m < u.i, u.childSem m = m + 2 ∧ s.l (m + 2) = 0) ∧
      if u.returned = true then s.len = u.i + 2 ∧ s.l (u.i + 2) = 0 ∧ r = u.i + 2
      else s.len = u.i + 1
  | _ => False

/-- What holds up to the last call of `sem_new`. -/
structure Setup (x : App) (v : View) : Prop where
  kernel : Kernel x.s v x.user (fun _ => 0) 1
  out : x.out = []
  making : Making x.s (x.user 0) (x.s.a0 0)

theorem Setup.cur (h : Setup x v) : x.s.pid = 0 ∧ x.cur = x.user 0 ∧ v.wait = [] := by
  obtain ⟨k, hk, hcur, hv, -⟩ := h.kernel.cur
  refine ⟨hcur.symm, by rw [App.cur, ← hcur], ?_⟩
  cases hw : v.wait with
  | nil => rfl
  | cons p l =>
    have hp : p ∈ v.wait := by
      rw [hw]
      exact List.mem_cons_self
    obtain ⟨j, hj, rfl⟩ := h.kernel.role_of_wait hp
    exact absurd (hv ▸ hp) h.kernel.inv.ok.cur_notMem.2

/-- The semaphores that have been made when the first process forks. -/
theorem Setup.ring (h : Setup x v) {u : User} (hsite : u.site = .forkMain)
    (hret : u.returned = false) (hvars : Vars u) (hl : x.s.l 1 = 1 ∧ x.s.l 2 = 0 ∧ x.s.l 3 = 0) :
    Ring { x with user := Function.update x.user 0 u } v (fun _ => 0) 1 := by
  have hkernel : Kernel x.s v (Function.update x.user 0 u) (fun _ => 0) 1 := by
    refine h.kernel.registers x.s.a0 fun k hk => ?_
    obtain ⟨-, -, -, -, hend⟩ := h.kernel.cur
    rw [Function.update_self]
    exact ⟨fun he => Site.noConfusion (hsite.symm.trans he.1), fun he => absurd he hend⟩
  have hcount : ∀ {f : User → ℕ}, f u = 0 → ∀ j,
      count f (Function.update x.user 0 u) (fun _ => 0) 1 j = 0 := by
    intro f h0 j
    by_cases hj : j < 1
    · rw [count_of_lt hj, Function.update_self, h0]
    · exact count_of_le (not_lt.1 hj)
  have hasked : u.asked = 0 := by simp [User.asked, hsite]
  have hgiven : u.given = 0 := by simp [User.given, hsite]
  have hprinted : u.printed = 0 := by simp [User.printed, hsite]
  have hwait := h.cur.2.2
  refine
    { kernel := hkernel
      le := by omega
      vars := fun k hk => ?_
      place := fun k hk => ?_
      tokens :=
        { counter := fun k hk => ?_
          low := fun k hk => ?_
          sleeps := fun k hk => ?_
          sem := fun k hk hm => ?_
          behind := fun k hk hm => ?_ }
      out := ?_ }
  · change Vars (Function.update x.user 0 u 0)
    rwa [Function.update_self]
  · change Place k 1 _ (Function.update x.user 0 u 0)
    rw [Function.update_self]
    simp only [Place, hsite, hret, Bool.false_eq_true, if_false, and_true]
    omega
  · change x.s.l (k + 1) + _ = _
    rw [hcount hasked, hcount hgiven]
    obtain rfl | rfl | rfl : k = 0 ∨ k = 1 ∨ k = 2 := by omega
    · simpa using hl.1
    · simpa using hl.2.1
    · simpa using hl.2.2
  · change -1 ≤ x.s.l (k + 1)
    obtain rfl | rfl | rfl : k = 0 ∨ k = 1 ∨ k = 2 := by omega
    · simp [hl.1]
    · simp [hl.2.1]
    · simp [hl.2.2]
  · obtain rfl : k = 0 := by omega
    rw [hwait]
    change _ ↔ x.s.l ((0 : ℕ) + 1) < 0
    simp [hl.1]
  · rw [hwait] at hm
    cases hm
  · rw [hwait] at hm
    cases hm
  · change x.out = _
    rw [h.out, hcount hprinted, hcount hprinted, hcount hprinted]
    rfl

/-- The first process, in front of the system call `w` or behind it. -/
theorem Setup.goes (h : Setup x v) {w : User} (hw : ¬ w.Ended)
    (kernel : Kernel s' v' x.user (fun _ => 0) 1) (making : Making s' w (s'.a0 0)) :
    Setup { x with s := s', user := Function.update x.user 0 w } v' := by
  obtain ⟨-, -, -, -, hend⟩ := h.kernel.cur
  refine ⟨kernel.registers s'.a0 fun k hk => ?_, h.out, ?_⟩
  · change (Function.update x.user 0 w 0).Ended ↔ _
    rw [Function.update_self]
    exact ⟨fun he => absurd he hw, fun he => absurd he hend⟩
  · change Making s' (Function.update x.user 0 w 0) (s'.a0 0)
    rwa [Function.update_self]

/-- The first process goes on behind a `sem_new`, to the next one or to its fork. -/
theorem Setup.resume (h : Setup x v) (hret : x.cur.returned = true) :
    (Setup { x with user := Function.update x.user 0 ((x.user 0).resume (x.s.a0 0)) } v ∨
      Ring { x with user := Function.update x.user 0 ((x.user 0).resume (x.s.a0 0)) } v
        (fun _ => 0) 1) ∧
      ((x.user 0).resume (x.s.a0 0)).left + 1 ≤ (x.user 0).left := by
  have hm := h.making
  rw [h.cur.2.1] at hret
  unfold Making at hm
  cases hsite : (x.user 0).site with
  | newMain =>
    simp only [hsite, hret, if_true] at hm
    obtain ⟨hlen, hl, hr⟩ := hm
    refine ⟨.inl (h.goes (fun he => ?_) h.kernel ?_), ?_⟩
    · simp [User.Ended, User.resume, User.goto, hsite] at he
    · simp [Making, User.resume, User.goto, hsite, hlen, hl, hr]
    · simp [User.left, User.resume, User.goto, hsite, hret]
  | newChild =>
    simp only [hsite, hret, if_true] at hm
    obtain ⟨hi, hmain, hl, hmade, hlen, hl', hr⟩ := hm
    by_cases hi' : (x.user 0).i + 1 < 2
    · have h0 : (x.user 0).i = 0 := by omega
      refine ⟨.inl (h.goes (fun he => ?_) h.kernel ?_), ?_⟩
      · simp [User.Ended, User.resume, User.goto, hsite, h0] at he
      · rw [h0] at hlen hl' hr
        simpa [Making, User.resume, User.goto, hsite, h0, hlen, hl, hr, hmain] using hl'
      · simp [User.left, User.resume, User.goto, hsite, hret, h0]
    · have h1 : (x.user 0).i = 1 := by omega
      rw [h1] at hlen hl' hr
      obtain ⟨hfirst, hl₂⟩ := hmade 0 (by omega)
      refine ⟨.inr (h.ring ?_ ?_ ⟨?_, ?_, ?_⟩ ⟨hl, by simpa using hl₂, by simpa using hl'⟩), ?_⟩
      · simp [User.resume, User.goto, hsite, h1]
      · simp [User.resume, User.goto, hsite, h1]
      · simp [User.resume, User.goto, hsite, h1, hmain]
      · simpa [User.resume, User.goto, hsite, h1] using hfirst
      · simp [User.resume, User.goto, hsite, h1, hr]
      · simp [User.left, User.resume, User.goto, hsite, hret, h1]
  | _ => simp [hsite] at hm

/-- A `sem_new`. -/
theorem Setup.semNew (h : Setup x v) (hret : x.cur.returned = false)
    (hcall : x.cur.call = .sys e) (hs : Step x.s v e s' v') :
    Setup { x with s := s', user := x.behind e s' } v' ∧
      (x.user 0).back.left + 1 ≤ (x.user 0).left := by
  have hm := h.making
  obtain ⟨hpid, hu, -⟩ := h.cur
  rw [hu] at hret hcall
  have hkernel : e ≠ .fork → e ≠ .exit → Kernel s' v' x.user (fun _ => 0) 1 := fun hfork hexit =>
    h.kernel.step hs hfork (fun he => absurd he hexit) fun k hk =>
      ⟨.inl, fun hor => hor.resolve_right fun he => hexit he.1⟩
  unfold Making at hm
  cases hsite : (x.user 0).site with
  | newMain =>
    simp only [hsite, hret, Bool.false_eq_true, if_false] at hm
    rw [User.call, hsite] at hcall
    obtain rfl := Call.sys.inj hcall
    rw [App.behind_of_ne (by simp), hu, hpid]
    refine ⟨h.goes (fun he => ?_) (hkernel (by simp) (by simp)) ?_, ?_⟩
    · simp [User.ended_back, hsite] at he
    · cases hs with
      | rotate start next effect => cases start
      | sleep start next effect => cases start
      | semNew lt effect =>
        simp [Making, User.back, hsite, effect.len, effect.l, effect.a0, hm, hpid]
    · simp [User.left, User.back, hsite, hret]
  | newChild =>
    simp only [hsite, hret, Bool.false_eq_true, if_false] at hm
    obtain ⟨hi, hmain, hl, hmade, hlen⟩ := hm
    rw [User.call, hsite] at hcall
    obtain rfl := Call.sys.inj hcall
    rw [App.behind_of_ne (by simp), hu, hpid]
    refine ⟨h.goes (fun he => ?_) (hkernel (by simp) (by simp)) ?_, ?_⟩
    · simp [User.ended_back, hsite] at he
    · cases hs with
      | rotate start next effect => cases start
      | sleep start next effect => cases start
      | semNew lt effect =>
        have hnext : x.s.len + 1 = (x.user 0).i + 2 := by omega
        have hl' : s'.l = Function.update x.s.l ((x.user 0).i + 2) 0 := by rw [effect.l, hnext]
        have hlen' : s'.len = (x.user 0).i + 2 := by rw [effect.len, hnext]
        have ha0 : s'.a0 0 = (x.user 0).i + 2 := by
          rw [effect.a0, hpid, Function.update_self, hnext]
        simp only [Making, User.back, hsite, if_true]
        refine ⟨hi, hmain, ?_, fun m hm => ⟨(hmade m hm).1, ?_⟩, hlen', ?_, ha0⟩
        · rw [hl', Function.update_of_ne (by omega), hl]
        · rw [hl', Function.update_of_ne (by omega)]
          exact (hmade m hm).2
        · rw [hl', Function.update_self]
    · simp [User.left, User.back, hsite, hret]
      omega
  | _ => simp [hsite] at hm

/-- A timer interrupt. -/
theorem Setup.tick {a0 : ℤ} (h : Setup x v)
    (hkept : x.cur.returned = true → a0 = x.s.a0 x.s.pid) (hs : Step x.s v (.tick a0) s' v') :
    Setup { x with s := s' } v' := by
  obtain ⟨hpid, hu, -⟩ := h.cur
  have hself : s'.a0 0 = a0 ∧ s'.len = x.s.len := by
    rw [← hpid]
    cases hs with
    | rotate start next effect =>
      rw [effect.a0]
      exact ⟨Function.update_self _ _ _, effect.len⟩
    | tick slice effect =>
      rw [effect.a0]
      exact ⟨Function.update_self _ _ _, effect.len⟩
    | sleep start next effect => cases start
  refine ⟨h.kernel.step hs (by simp) (by simp) fun k hk => by simp, h.out, ?_⟩
  have hm := h.making
  change Making s' (x.user 0) (s'.a0 0)
  have hl := (hs.quiet (.inl ⟨a0, rfl⟩)).1
  unfold Making at hm ⊢
  rw [hself.1, hself.2, hl]
  by_cases hret : (x.user 0).returned = true
  · rwa [hkept (hu ▸ hret), hpid]
  · cases hsite : (x.user 0).site <;> simp only [hsite, hret, Bool.false_eq_true, if_false] at hm ⊢
    · exact hm
    · exact hm

/-! ## Runs -/

/-- What holds in a state with at most `m` steps left. -/
inductive Good (x : App) (m : ℕ) : Prop
  | setup {v : View} (setup : Setup x v) (left : (x.user 0).left = m)
  | ring {v : View} {role : ℕ → Fin NPROC} {n : ℕ} (ring : Ring x v role n)
      (left : x.left role n = m)

variable {m : ℕ}

theorem Good.works (h : Good x m) (hw : Works x x') : ∃ m', Good x' m' ∧ m' + 1 ≤ m := by
  cases h with
  | @ring v role n h left =>
    obtain ⟨v', role', n', h', hl⟩ := h.works hw
    exact ⟨_, .ring h' rfl, left ▸ hl⟩
  | @setup v h left =>
    obtain ⟨hpid, hu, -⟩ := h.cur
    cases hw with
    | resume returned =>
      obtain ⟨hr, hl⟩ := h.resume returned
      rw [hu, hpid]
      rcases hr with hr | hr
      · refine ⟨_, .setup hr rfl, ?_⟩
        have hself : (Function.update x.user 0 ((x.user 0).resume (x.s.a0 0)) 0).left =
            ((x.user 0).resume (x.s.a0 0)).left := by rw [Function.update_self]
        exact left ▸ hself ▸ hl
      · refine ⟨_, .ring hr rfl, ?_⟩
        have hone : App.left { x with
            user := Function.update x.user 0 ((x.user 0).resume (x.s.a0 0)) } (fun _ => 0) 1 =
            ((x.user 0).resume (x.s.a0 0)).left := by
          rw [App.left, count_of_lt (by omega), count_of_le (by omega), count_of_le (by omega)]
          change (Function.update x.user 0 _ 0).left + 0 + 0 = _
          rw [Function.update_self]
          rfl
        omega
    | @sys e s' ready call exec =>
      obtain ⟨v', hs⟩ := exec_step h.kernel.inv exec
      obtain ⟨hr, hl⟩ := h.semNew ready call hs
      refine ⟨_, .setup hr rfl, ?_⟩
      have hback : x.behind e s' 0 = (x.user 0).back := by rw [App.behind, if_pos (.inl hpid.symm), hu]
      change (x.behind e s' 0).left + 1 ≤ m
      rw [hback]
      omega
    | @print line ready call =>
      have hm := h.making
      rw [hu] at call
      unfold Making at hm
      cases hsite : (x.user 0).site with
      | newMain => simp [User.call, hsite] at call
      | newChild => simp [User.call, hsite] at call
      | _ => simp [hsite] at hm

theorem Good.ticks (h : Good x m) (ht : Ticks x x') : Good x' m := by
  cases ht with
  | @tick a0 s' kept exec =>
    cases h with
    | setup h left =>
      obtain ⟨v', hs⟩ := exec_step h.kernel.inv exec
      exact .setup (h.tick kept hs) left
    | ring h left =>
      obtain ⟨v', hs⟩ := exec_step h.kernel.inv exec
      exact .ring (h.tick kept hs) left

/-- The first process in front of its first system call. -/
theorem Setup.start (junk : Addr → Process) (user : Fin NPROC → User)
    (hsite : (user 0).site = .newMain) (hret : (user 0).returned = false) :
    Setup ⟨started junk, user, []⟩ ⟨.procs 0, [], []⟩ := by
  have hrunning : ((started junk).core (.procs 0)).status = .running := rfl
  refine ⟨?_, rfl, ?_⟩
  · refine
      { inv := started_inv junk
        own := fun a ha => ⟨0, List.mem_singleton.1 ha⟩
        zero := rfl
        pos := le_rfl
        inj := fun j hj k hk _ => by omega
        made := fun i => ?_
        zombie := fun k hk => ?_
        parent := fun k hk => ?_ }
    · by_cases hi : i = 0
      · rw [hi]
        change ((started junk).core (.procs 0)).status ≠ .free ↔ _
        rw [hrunning]
        exact ⟨fun _ => ⟨0, by omega, rfl⟩, fun _ he => Status.noConfusion he⟩
      · change ((started junk).core (.procs i)).status ≠ .free ↔ _
        rw [started_of_ne hi]
        refine ⟨fun he => absurd rfl he, ?_⟩
        rintro ⟨k, -, rfl⟩
        exact absurd rfl hi
    · change ((started junk).core (.procs 0)).status = .zombie ↔ (user 0).Ended
      rw [hrunning, User.Ended, hsite]
      exact ⟨fun he => Status.noConfusion he, fun he => Site.noConfusion he.1⟩
    · rw [if_pos (by omega)]
      rfl
  · change Making (started junk) (user 0) _
    simp only [Making, hsite, hret, Bool.false_eq_true, if_false]
    rfl

/-- At most 259 steps lead from the start to the end. -/
theorem Reached.good (h : Reached k x) : ∃ m, Good x m ∧ k + m ≤ 259 := by
  induction h with
  | @start s junk user start site ready =>
    rw [sStart_eq] at start
    obtain rfl := Except.ok.inj start
    refine ⟨259, .setup (Setup.start junk user site ready) ?_, by omega⟩
    simp [User.left, site, ready]
  | work h step ih =>
    obtain ⟨m, hm, hk⟩ := ih
    obtain ⟨m', hm', hlt⟩ := hm.works step
    exact ⟨m', hm', by omega⟩
  | tick h step ih =>
    obtain ⟨m, hm, hk⟩ := ih
    exact ⟨m, hm.ticks step, hk⟩

/-- The first lines of the fixed order are printed. -/
theorem Good.lines (h : Good x m) : ∃ m ≤ 30, x.out = (List.range m).map line := by
  cases h with
  | setup h left => exact ⟨0, by omega, h.out⟩
  | ring h left =>
    have h0 := h.ordered 0
    have h1 := h.ordered 1
    have h2 := h.ordered 2
    exact ⟨_, by omega, h.out⟩

end SemaphoreApp

end HustOS.Proc
