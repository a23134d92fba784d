import HustOS.Fs.Run

/-!
# The working directory

`init_proc_file_management` points the working directory of every process to the root dentry of the
system, and no other code assigns it. `sys_user_ccwd` changes the working directory by writing its
argument over the *name* of that dentry: all processes share one working directory, and a process is
undisturbed exactly while the others write the name that is already there (`cwd_private_iff`).

The system calls that take a path resolve it against that name each in its own way: `sys_user_open`
and `c_d` by two case distinctions, the others not at all. They agree on the absolute paths alone
(`resolve_alike_iff`).
-/

namespace HustOS.Fs

open Foundations

abbrev MAX_DENTRY_NAME_LEN : ℕ := 30

/-- The file system, and the member `cwd` of the `proc_file_management` of each process. -/
structure Cwds where
  fs : State
  cwd : ℕ → Option ℕ

/-- A string that `strcpy` or `strcat` has put together in an array of `n` bytes. -/
def fitString (n : ℕ) (array : String) (str : List UInt8) : Except Fault (List UInt8) :=
  if str.length < n then .ok str else .error (.undefined array)

namespace Cwds

/-- What `alloc_process` does with the working directory, by `init_proc_file_management`. -/
def allocProcess (w : Cwds) (p : ℕ) : Cwds :=
  { w with cwd := Function.update w.cwd p (some w.fs.vfsRootDentry) }

/-- The dentry `pfiles->cwd` points to. -/
def cwdDentry (w : Cwds) (p : ℕ) : Except Fault (ℕ × Dentry) :=
  match w.cwd p with
  | none => .error .nullDeref
  | some t => do return (t, ← w.fs.dentry t)

/-- The string `sys_user_ccwd` copies to the name: `"/"` for `..`, the rest for `./`. -/
def ccwdName (path : List UInt8) : Name :=
  if path[0]? = some 46 ∧ path[1]? = some 46 then [47]
  else if path[0]? = some 46 ∧ path[1]? = some 47 then path.tail
  else path

/-- `sys_user_ccwd` of the process `p`. -/
def sysUserCcwd (w : Cwds) (p : ℕ) (path : List UInt8) : Except Fault Cwds := do
  let (t, e) ← w.cwdDentry p
  let name ← fitString MAX_DENTRY_NAME_LEN "name" (ccwdName path)
  return { w with fs := w.fs.setDentry t { e with name := name } }

/-- `sys_user_rcwd` of the process `p`: the string it copies to the caller. -/
def sysUserRcwd (w : Cwds) (p : ℕ) : Except Fault Name := do
  let (_, e) ← w.cwdDentry p
  return e.name

/-- `sys_user_open` of the process `p`: the string it builds in `pathb` for `do_open`. -/
def sysUserOpen (w : Cwds) (p : ℕ) (pathpa : List UInt8) : Except Fault (List UInt8) := do
  if pathpa[0]? = some 46 ∧ pathpa[1]? = some 46 then
    fitString 30 "pathb" (← w.cwdDentry p).2.name
  else if pathpa[0]? = some 46 then
    let pathb ← fitString 30 "pathb" (← w.cwdDentry p).2.name
    if pathb = [47] then
      fitString 30 "pathb" pathpa.tail
    else
      fitString 30 "pathb" (pathb ++ pathpa.tail)
  else
    fitString 30 "pathb" pathpa

/-- The name of a directory as the beginning of a path: nothing for `"/"`. -/
def dirPrefix (name : Name) : List UInt8 := if name = [47] then [] else name

/-- `c_d` for the process `p`. -/
def cD (w : Cwds) (p : ℕ) (pathpa : List UInt8) : Except Fault (List UInt8) := do
  if pathpa[0]? ≠ some 46 ∧ pathpa[0]? ≠ some 47 then
    let (_, e) ← w.cwdDentry p
    return dirPrefix e.name ++ [47] ++ pathpa
  else if pathpa[0]? = some 46 ∧ pathpa[1]? ≠ some 46 then
    let (_, e) ← w.cwdDentry p
    return dirPrefix e.name ++ pathpa.tail
  else if pathpa[0]? = some 46 ∧ pathpa[1]? = some 46 then
    let (_, e) ← w.cwdDentry p
    match e.parent with
    | some t => return dirPrefix (← w.fs.dentry t).name ++ pathpa
    | none => return [47]
  else
    return pathpa

/-- `load_bincode_from_host_elf`, as `do_exec` calls it: the string in `file_name` for
`vfs_open`. -/
def loadBincode (w : Cwds) (p : ℕ) (filename : List UInt8) : Except Fault (List UInt8) := do
  fitString 256 "file_name" (← w.cD p filename)

end Cwds

/-- A system call with a path; `link` has two. -/
inductive PathCall
  | open | opendir | mkdir | linkOld | linkNew | unlink | exec

/-- The path a system call of the process `p` hands to the virtual file system. -/
def PathCall.vfsPath (w : Cwds) (p : ℕ) (path : List UInt8) :
    PathCall → Except Fault (List UInt8)
  | .open => w.sysUserOpen p path
  | .opendir => return path
  | .mkdir => return path
  | .linkOld => return path
  | .linkNew => return path
  | .unlink => return path
  | .exec => w.loadBincode p path

variable {w w' : Cwds} {s s' : State} {p q : ℕ} {n : Name}

/-! ## The root dentry -/

/-- The root dentry has the name `n`, and no parent. -/
def Rooted (s : State) (n : Name) : Prop :=
  ∃ e, s.dentries s.vfsRootDentry = some e ∧ e.name = n ∧ e.parent = none

theorem Rooted.unique {m : Name} (hm : Rooted s m) (hn : Rooted s n) : m = n := by
  obtain ⟨e, he, rfl, -⟩ := hm
  obtain ⟨e', he', rfl, -⟩ := hn
  exact congrArg _ (Option.some.inj (he.symm.trans he'))

/-- The root dentry keeps its name when another dentry changes, or its own reference count. -/
theorem Rooted.update (hr : Rooted s n) {t : ℕ} {d : Option Dentry}
    (hd : t = s.vfsRootDentry → ∃ e₀ e₁, s.dentries t = some e₀ ∧ d = some e₁ ∧ e₁.key = e₀.key) :
    ∃ e, Function.update s.dentries t d s.vfsRootDentry = some e ∧ e.name = n ∧
        e.parent = none := by
  obtain ⟨er, hroot, hname, hparent⟩ := hr
  by_cases ht : t = s.vfsRootDentry
  · obtain ⟨e₀, e₁, he₀, rfl, hkey⟩ := hd ht
    subst ht
    obtain rfl := Option.some.inj (hroot.symm.trans he₀)
    simp only [Dentry.key, Prod.mk.injEq] at hkey
    exact ⟨e₁, Function.update_self _ _ _, hkey.1.trans hname, hkey.2.2.trans hparent⟩
  · exact ⟨er, by rw [Function.update_of_ne (Ne.symm ht), hroot], hname, hparent⟩

/-- A transition of the file system leaves the name of the root dentry. -/
theorem Trans.rooted {tag : Tag} (ht : Trans s tag s') (h : Inv s) (hr : Rooted s n) :
    Rooted s' n := by
  cases ht with
  | enter dir node mem absent page lt =>
    apply hr.update
    rintro rfl
    obtain ⟨e, hroot, -⟩ := hr
    rw [hroot] at page
    cases page
  | leave hashed node file closed =>
    apply hr.update
    rintro rfl
    exact absurd node (h.tables.root_not_cached hashed)
  | openFile hashed absent lt => exact hr.update fun _ => ⟨_, _, hashed.dentry, rfl, rfl⟩
  | closeFile file hashed => exact hr.update fun _ => ⟨_, _, hashed.dentry, rfl, rfl⟩
  | _ => exact hr

/-- So does an operation, and the root dentry of a run is `"/"`. -/
theorem Step.rooted {op : Op} {r : Ret} (hs : Step s op r s') (h : Inv s) (hr : Rooted s n) :
    Rooted s' n := by
  have hboth : Inv s' ∧ Rooted s' n := (hs.steps h).keeps (I := fun s => Inv s ∧ Rooted s n) ⟨h, hr⟩
    fun _ _ _ _ ht hi => ⟨ht.inv hi.1, ht.rooted hi.1 hi.2⟩
  exact hboth.2

theorem Run.rooted {C : State → Op → Prop} (h : Run C s) : Rooted s [47] := by
  induction h with
  | init boot start =>
    obtain ⟨d, buf, hs, -⟩ := fsInit_eq boot
    obtain rfl := Except.ok.inj (hs.symm.trans start)
    exact ⟨hostDentry, rfl, rfl, rfl⟩
  | step run cond step ih => exact step.rooted run.inv ih

/-! ## One working directory for all processes -/

/-- The runs of `alloc_process`, `sys_user_ccwd` and the file system. What the calls of the virtual
file system do beside leaving the root dentry (`Step.rooted`) does not matter here. -/
inductive CwdRun : Cwds → Prop
  | boot {s : State} (start : Reachable s) : CwdRun ⟨s, fun _ => none⟩
  | alloc {w : Cwds} (run : CwdRun w) (p : ℕ) : CwdRun (w.allocProcess p)
  | ccwd {w w' : Cwds} {p : ℕ} {path : Path} (run : CwdRun w)
      (step : w.sysUserCcwd p path.1 = .ok w') : CwdRun w'
  | vfs {w : Cwds} {s' : State} (run : CwdRun w) (root : s'.vfsRootDentry = w.fs.vfsRootDentry)
      (name : ∀ n, Rooted w.fs n → Rooted s' n) : CwdRun { w with fs := s' }

theorem fitString_eq_ok {m : ℕ} {array : String} {str r : List UInt8} :
    fitString m array str = .ok r ↔ str.length < m ∧ str = r := by
  rw [fitString]
  split <;> simp_all

namespace Cwds

/-- Every working directory is the root dentry, with the name `n`. -/
structure Shared (w : Cwds) (n : Name) : Prop where
  rooted : Rooted w.fs n
  fits : n.length < MAX_DENTRY_NAME_LEN
  cwd : ∀ p t, w.cwd p = some t → t = w.fs.vfsRootDentry

namespace Shared

variable (h : w.Shared n)

include h

theorem cwdDentry (hp : (w.cwd p).isSome) : ∃ e, w.cwdDentry p = .ok (w.fs.vfsRootDentry, e) ∧
    w.fs.dentries w.fs.vfsRootDentry = some e ∧ e.name = n ∧ e.parent = none := by
  obtain ⟨e, he, hn, hparent⟩ := h.rooted
  obtain ⟨t, ht⟩ := Option.isSome_iff_exists.1 hp
  obtain rfl := h.cwd p t ht
  refine ⟨e, ?_, he, hn, hparent⟩
  rw [Cwds.cwdDentry, ht]
  dsimp only
  rw [State.dentry_eq_ok.2 he, ok_bind, pure_eq_ok]

theorem rcwd (hp : (w.cwd p).isSome) : w.sysUserRcwd p = .ok n := by
  obtain ⟨e, hdir, -, rfl, -⟩ := h.cwdDentry hp
  rw [sysUserRcwd, hdir]
  rfl

/-- `sys_user_ccwd` renames the root dentry. -/
theorem ccwd {path : List UInt8} (hrun : w.sysUserCcwd p path = .ok w') :
    w'.Shared (ccwdName path) ∧ w'.cwd = w.cwd := by
  rw [sysUserCcwd, bind_ok_iff] at hrun
  obtain ⟨⟨t, e⟩, hdir, hrun⟩ := hrun
  have hp : (w.cwd p).isSome := by
    rw [Cwds.cwdDentry] at hdir
    split at hdir
    · cases hdir
    · rename_i hcwd
      rw [hcwd]
      rfl
  obtain ⟨e', hdir', hroot, hn, hparent⟩ := h.cwdDentry hp
  obtain ⟨rfl, rfl⟩ := Prod.mk.inj (Except.ok.inj (hdir.symm.trans hdir'))
  dsimp only at hrun
  rw [bind_ok_iff] at hrun
  obtain ⟨name, hname, hrun⟩ := hrun
  obtain ⟨hlt, rfl⟩ := fitString_eq_ok.1 hname
  cases hrun
  exact ⟨⟨⟨_, Function.update_self _ _ _, rfl, hparent⟩, hlt, h.cwd⟩, rfl⟩

theorem ccwd_ok {path : List UInt8} (hp : (w.cwd p).isSome)
    (hlt : (ccwdName path).length < MAX_DENTRY_NAME_LEN) : ∃ w', w.sysUserCcwd p path = .ok w' := by
  obtain ⟨e, hdir, -⟩ := h.cwdDentry hp
  have hname : fitString MAX_DENTRY_NAME_LEN "name" (ccwdName path) = .ok (ccwdName path) :=
    fitString_eq_ok.2 ⟨hlt, rfl⟩
  rw [sysUserCcwd, hdir, ok_bind]
  dsimp only
  rw [hname, ok_bind]
  exact ⟨_, rfl⟩

/-- Writing the name that is there changes nothing. -/
theorem ccwd_self {path : List UInt8} (hp : (w.cwd p).isSome) (hpath : ccwdName path = n) :
    w.sysUserCcwd p path = .ok w := by
  obtain ⟨e, hdir, hroot, rfl, -⟩ := h.cwdDentry hp
  have hname : fitString MAX_DENTRY_NAME_LEN "name" (ccwdName path) = .ok e.name :=
    fitString_eq_ok.2 ⟨hpath ▸ h.fits, hpath⟩
  have hself : w.fs.setDentry w.fs.vfsRootDentry e = w.fs := by
    rw [State.setDentry, ← hroot, Function.update_eq_self]
  rw [sysUserCcwd, hdir, ok_bind]
  dsimp only
  rw [hname, ok_bind, hself]
  rfl

end Shared

end Cwds

/-- **In every run all processes share the root dentry as their working directory.** -/
theorem CwdRun.shared (h : CwdRun w) : ∃ n, w.Shared n := by
  induction h with
  | boot start => exact ⟨[47], start.rooted, by decide, nofun⟩
  | @alloc w run p ih =>
    obtain ⟨n, hn⟩ := ih
    refine ⟨n, hn.rooted, hn.fits, fun q t ht => ?_⟩
    rw [Cwds.allocProcess] at ht
    dsimp only at ht
    by_cases hq : q = p
    · rw [hq, Function.update_self] at ht
      exact (Option.some.inj ht).symm
    · rw [Function.update_of_ne hq] at ht
      exact hn.cwd q t ht
  | ccwd run step ih =>
    obtain ⟨n, hn⟩ := ih
    exact ⟨_, (hn.ccwd step).1⟩
  | vfs run root name ih =>
    obtain ⟨n, hn⟩ := ih
    exact ⟨n, name n hn.rooted, hn.fits, fun q t ht => (hn.cwd q t ht).trans root.symm⟩

namespace Cwds

/-- Calls of `sys_user_ccwd` of the process `p`, one after the other. -/
def ccwds (p : ℕ) (paths : List Path) (w : Cwds) : Except Fault Cwds :=
  paths.foldlM (fun w path => w.sysUserCcwd p path.1) w

/-- The process `q` cannot tell the states apart, and neither can anyone by a name. -/
structure Unseen (q : ℕ) (w w' : Cwds) : Prop where
  rcwd : w'.sysUserRcwd q = w.sysUserRcwd q
  opens : ∀ path : Path, w'.sysUserOpen q path.1 = w.sysUserOpen q path.1
  names : ∀ t, (w'.fs.dentries t).map Dentry.name = (w.fs.dentries t).map Dentry.name

/-- Calls that write the name that is there change nothing. -/
theorem Shared.ccwds_self {paths : List Path} (h : w.Shared n) (hp : (w.cwd p).isSome)
    (hpaths : ∀ path ∈ paths, ccwdName path.1 = n) : w.ccwds p paths = .ok w := by
  induction paths with
  | nil => rfl
  | cons path paths ih =>
    have hfirst : w.sysUserCcwd p path.1 = .ok w :=
      h.ccwd_self hp (hpaths path List.mem_cons_self)
    rw [ccwds, List.foldlM_cons, hfirst, ok_bind]
    exact ih fun path hpath => hpaths path (List.mem_cons_of_mem _ hpath)

/-- When no call changes what another process reads, every call has written the same name. -/
theorem Shared.ccwdName_eq {paths : List Path} (h : w.Shared n) (hp : (w.cwd p).isSome)
    (hq : (w.cwd q).isSome)
    (hkept : ∀ k, ∃ w', w.ccwds p (paths.take k) = .ok w' ∧ w'.sysUserRcwd q = w.sysUserRcwd q) :
    ∀ path ∈ paths, ccwdName path.1 = n := by
  induction paths with
  | nil => exact nofun
  | cons path paths ih =>
    obtain ⟨w₁, hrun, hrcwd⟩ := hkept 1
    have hone : w.sysUserCcwd p path.1 = .ok w₁ := by
      rw [ccwds, List.take_succ_cons, List.take_zero, List.foldlM_cons] at hrun
      obtain ⟨w₂, hstep, hnil⟩ := (bind_ok_iff _ _ _).1 hrun
      cases hnil
      exact hstep
    obtain ⟨hshared, hcwd⟩ := h.ccwd hone
    have hname : ccwdName path.1 = n := by
      rw [h.rcwd hq, hshared.rcwd (hcwd ▸ hq)] at hrcwd
      exact Except.ok.inj hrcwd
    have hself := h.ccwd_self hp hname
    intro path' hpath'
    rcases List.mem_cons.1 hpath' with rfl | hpath'
    · exact hname
    · apply ih _ path' hpath'
      intro k
      obtain ⟨w', hrun', hrcwd'⟩ := hkept (k + 1)
      rw [ccwds, List.take_succ_cons, List.foldlM_cons, hself, ok_bind] at hrun'
      exact ⟨w', hrun', hrcwd'⟩

end Cwds

/-- **A process that calls `sys_user_ccwd` leaves the others alone if and only if every call writes
the name that the shared root dentry already has.** -/
theorem cwd_private_iff (h : CwdRun w) (hp : (w.cwd p).isSome) (hq : (w.cwd q).isSome)
    (paths : List Path) :
    (∀ k, ∃ w', w.ccwds p (paths.take k) = .ok w' ∧ w.Unseen q w') ↔
      ∀ path ∈ paths, Rooted w.fs (Cwds.ccwdName path.1) := by
  obtain ⟨n, hn⟩ := h.shared
  constructor
  · intro hkept path hpath
    have hname := hn.ccwdName_eq hp hq (fun k => by
      obtain ⟨w', hrun, hunseen⟩ := hkept k
      exact ⟨w', hrun, hunseen.rcwd⟩) path hpath
    rw [hname]
    exact hn.rooted
  · intro hsame k
    refine ⟨w, hn.ccwds_self hp fun path hpath => ?_, ⟨rfl, fun _ => rfl, fun _ => rfl⟩⟩
    exact (hsame path (List.mem_of_mem_take hpath)).unique hn.rooted

/-- `"/bin"`. -/
def pathBin : Path := ⟨[47, 98, 105, 110], by decide⟩

/-- After start-up, with the processes 0 and 1. -/
theorem CwdRun.two : ∃ w, CwdRun w ∧ (w.cwd 0).isSome ∧ (w.cwd 1).isSome ∧ w.Shared [47] := by
  obtain ⟨s, hs, -⟩ := fsInit_inv blank
  have hrun : Reachable s := .init blank hs
  have h := ((CwdRun.boot hrun).alloc 0).alloc 1
  refine ⟨_, h, rfl, rfl, hrun.rooted, by decide, fun p t ht => ?_⟩
  obtain ⟨n, hn⟩ := h.shared
  exact hn.cwd p t ht

theorem cwd_private_iff_root : ∃ w, CwdRun w ∧
    ((∀ k, ∃ w', w.ccwds 0 ([⟨[46, 46], by decide⟩].take k) = .ok w' ∧ w.Unseen 1 w') ↔
      ∀ path ∈ [(⟨[46, 46], by decide⟩ : Path)], Rooted w.fs (Cwds.ccwdName path.1)) := by
  obtain ⟨w, h, hp, hq, -⟩ := CwdRun.two
  exact ⟨w, h, cwd_private_iff h hp hq _⟩

/-- One process changes to `/bin`, and another one is there as well. -/
theorem cwd_public : ∃ w w', CwdRun w ∧ (w.cwd 0).isSome ∧ (w.cwd 1).isSome ∧
    w.sysUserCcwd 0 pathBin.1 = .ok w' ∧ w.sysUserRcwd 1 = .ok [47] ∧
    w'.sysUserRcwd 1 = .ok pathBin.1 ∧ ¬ w.Unseen 1 w' := by
  obtain ⟨w, h, hp, hq, hn⟩ := CwdRun.two
  have hfits : (Cwds.ccwdName pathBin.1).length < MAX_DENTRY_NAME_LEN := by decide
  obtain ⟨w', hrun⟩ := hn.ccwd_ok hp hfits
  obtain ⟨hn', hcwd⟩ := hn.ccwd hrun
  have hold : w.sysUserRcwd 1 = .ok [47] := hn.rcwd hq
  have hnew : w'.sysUserRcwd 1 = .ok pathBin.1 := hn'.rcwd (hcwd ▸ hq)
  refine ⟨w, w', h, hp, hq, hrun, hold, hnew, fun hunseen => ?_⟩
  have hsame := hunseen.rcwd
  rw [hold, hnew] at hsame
  exact absurd (Except.ok.inj hsame) (by decide)

/-! ## Resolving a path -/

/-- The path begins with a slash. -/
def Absolute (path : List UInt8) : Prop := path[0]? = some 47

theorem not_dot_of_absolute {path : List UInt8} (h : Absolute path) : path[0]? ≠ some 46 := by
  rw [Absolute] at h
  rw [h]
  decide

namespace Cwds

theorem sysUserOpen_absolute {path : List UInt8} (h : Absolute path)
    (hlt : path.length < MAX_PATH_LEN) : w.sysUserOpen p path = .ok path := by
  have hdot := not_dot_of_absolute h
  rw [sysUserOpen, if_neg fun hc => hdot hc.1, if_neg hdot]
  exact fitString_eq_ok.2 ⟨hlt, rfl⟩

theorem cD_absolute {path : List UInt8} (h : Absolute path) : w.cD p path = .ok path := by
  have hdot := not_dot_of_absolute h
  rw [cD, if_neg fun hc => hc.2 h, if_neg fun hc => hdot hc.1, if_neg fun hc => hdot hc.1]
  rfl

theorem loadBincode_absolute {path : List UInt8} (h : Absolute path)
    (hlt : path.length < MAX_PATH_LEN) : w.loadBincode p path = .ok path := by
  rw [loadBincode, cD_absolute h, ok_bind]
  apply fitString_eq_ok.2 ⟨?_, rfl⟩
  simp only [MAX_PATH_LEN] at hlt
  omega

end Cwds

theorem PathCall.vfsPath_absolute {path : List UInt8} (h : Absolute path)
    (hlt : path.length < MAX_PATH_LEN) (c : PathCall) : c.vfsPath w p path = .ok path := by
  cases c with
  | «open» => exact Cwds.sysUserOpen_absolute h hlt
  | exec => exact Cwds.loadBincode_absolute h hlt
  | _ => rfl

/-- **The system calls hand the same absolute path to the virtual file system if and only if the
caller has written an absolute path.** -/
theorem resolve_alike_iff (w : Cwds) (p : ℕ) (path : Path) (hlt : path.1.length < MAX_PATH_LEN) :
    (∃ q, Absolute q ∧ ∀ c : PathCall, c.vfsPath w p path.1 = .ok q) ↔ Absolute path.1 := by
  constructor
  · rintro ⟨q, hq, hall⟩
    obtain rfl := Except.ok.inj (hall .opendir)
    exact hq
  · intro h
    exact ⟨path.1, h, PathCall.vfsPath_absolute h hlt⟩

theorem resolve_alike_iff_bin : ∃ w, CwdRun w ∧
    ((∃ q, Absolute q ∧ ∀ c : PathCall, c.vfsPath w 0 pathBin.1 = .ok q) ↔ Absolute pathBin.1) := by
  obtain ⟨w, h, -⟩ := CwdRun.two
  exact ⟨w, h, resolve_alike_iff w 0 pathBin (by decide)⟩

namespace Cwds.Shared

variable {cwd : Name} {path : List UInt8} (h : w.Shared cwd) (hp : (w.cwd p).isSome)

include h hp

/-- Two dots: `sys_user_open` stays where it is, and `c_d` goes to the root. -/
theorem resolve_dots (h₀ : path[0]? = some 46) (h₁ : path[1]? = some 46) :
    w.sysUserOpen p path = .ok cwd ∧ w.cD p path = .ok [47] := by
  obtain ⟨e, hdir, -, rfl, hparent⟩ := h.cwdDentry hp
  constructor
  · rw [sysUserOpen, if_pos ⟨h₀, h₁⟩, hdir, ok_bind]
    exact fitString_eq_ok.2 ⟨h.fits, rfl⟩
  · rw [cD, if_neg fun hc => hc.1 h₀, if_neg fun hc => hc.2 h₁, if_pos ⟨h₀, h₁⟩, hdir, ok_bind]
    dsimp only
    rw [hparent]
    rfl

/-- A dot: both put what follows behind the working directory. -/
theorem resolve_dot (h₀ : path[0]? = some 46) (h₁ : path[1]? ≠ some 46) :
    w.sysUserOpen p path = fitString 30 "pathb" (dirPrefix cwd ++ path.tail) ∧
      w.cD p path = .ok (dirPrefix cwd ++ path.tail) := by
  obtain ⟨e, hdir, -, rfl, -⟩ := h.cwdDentry hp
  have hfits : fitString 30 "pathb" e.name = .ok e.name := fitString_eq_ok.2 ⟨h.fits, rfl⟩
  constructor
  · rw [sysUserOpen, if_neg fun hc => h₁ hc.2, if_pos h₀, hdir, ok_bind]
    dsimp only
    rw [hfits, ok_bind, dirPrefix]
    split <;> rfl
  · rw [cD, if_neg fun hc => hc.1 h₀, if_pos ⟨h₀, h₁⟩, hdir]
    rfl

/-- A plain name: `sys_user_open` takes it as it is. -/
theorem resolve_name (h₀ : path[0]? ≠ some 46) (habs : ¬ Absolute path)
    (hlt : path.length < MAX_PATH_LEN) :
    w.sysUserOpen p path = .ok path ∧ w.cD p path = .ok (dirPrefix cwd ++ [47] ++ path) := by
  obtain ⟨e, hdir, -, rfl, -⟩ := h.cwdDentry hp
  constructor
  · rw [sysUserOpen, if_neg fun hc => h₀ hc.1, if_neg h₀]
    exact fitString_eq_ok.2 ⟨hlt, rfl⟩
  · rw [cD, if_pos ⟨h₀, habs⟩, hdir]
    rfl

end Cwds.Shared

/-- **`sys_user_open` and `c_d` resolve alike, in a process at the root, an absolute path, a path
behind a dot that still fits in `pathb`, and a path with two dots in the directory `"/"`.** A plain
name is below the working directory for `c_d` only. -/
theorem sysUserOpen_eq_cD_iff {cwd : Name} (h : w.Shared cwd) (hp : (w.cwd p).isSome) (path : Path)
    (hlt : path.1.length < MAX_PATH_LEN) :
    w.sysUserOpen p path.1 = w.cD p path.1 ↔ Absolute path.1 ∨ path.1[0]? = some 46 ∧
      if path.1[1]? = some 46 then cwd = [47]
      else (Cwds.dirPrefix cwd ++ path.1.tail).length < MAX_PATH_LEN := by
  by_cases habs : Absolute path.1
  · simp only [Cwds.sysUserOpen_absolute habs hlt, Cwds.cD_absolute habs, habs, true_or]
  rw [or_iff_right habs]
  by_cases h₀ : path.1[0]? = some 46
  · rw [and_iff_right h₀]
    by_cases h₁ : path.1[1]? = some 46
    · obtain ⟨hopen, hcd⟩ := h.resolve_dots hp h₀ h₁
      rw [hopen, hcd, if_pos h₁, Except.ok.injEq]
    · obtain ⟨hopen, hcd⟩ := h.resolve_dot hp h₀ h₁
      rw [hopen, hcd, if_neg h₁, fitString_eq_ok, and_iff_left rfl]
  · obtain ⟨hopen, hcd⟩ := h.resolve_name hp h₀ habs hlt
    rw [hopen, hcd, Except.ok.injEq]
    constructor
    · intro heq
      have hlen := congrArg List.length heq
      simp only [List.length_append, List.length_singleton] at hlen
      omega
    · exact fun hc => absurd hc.1 h₀

/-- `"./a"`. -/
def pathDotA : Path := ⟨[46, 47, 97], by decide⟩

/-- In the directory `"/"`, `./a` is opened as `/a` and made as `./a`. -/
theorem resolve_differs : ∃ w, CwdRun w ∧ w.sysUserRcwd 0 = .ok [47] ∧ Absolute [47] ∧
    pathDotA.1.length < MAX_PATH_LEN ∧ PathCall.open.vfsPath w 0 pathDotA.1 = .ok [47, 97] ∧
    PathCall.exec.vfsPath w 0 pathDotA.1 = .ok [47, 97] ∧
    PathCall.mkdir.vfsPath w 0 pathDotA.1 = .ok [46, 47, 97] ∧
    ¬ ∃ q, Absolute q ∧ ∀ c : PathCall, c.vfsPath w 0 pathDotA.1 = .ok q := by
  obtain ⟨w, h, hp, -, hn⟩ := CwdRun.two
  have h₀ : pathDotA.1[0]? = some 46 := rfl
  have h₁ : pathDotA.1[1]? ≠ some 46 := by decide
  obtain ⟨hopen, hcd⟩ := hn.resolve_dot hp h₀ h₁
  have hexec : PathCall.exec.vfsPath w 0 pathDotA.1 = .ok [47, 97] := by
    rw [PathCall.vfsPath, Cwds.loadBincode, hcd]
    rfl
  refine ⟨w, h, hn.rcwd hp, rfl, by decide, hopen, hexec, rfl, ?_⟩
  rintro ⟨q, -, hall⟩
  have hsame : (Except.ok [47, 97] : Except Fault (List UInt8)) = .ok [46, 47, 97] :=
    hexec.symm.trans ((hall .exec).trans (hall .mkdir).symm)
  exact absurd (Except.ok.inj hsame) (by decide)

end HustOS.Fs
