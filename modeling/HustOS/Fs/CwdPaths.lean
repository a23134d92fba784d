import HustOS.Fs.Cwd
import HustOS.Fs.PathWalk

/-!
# Changing the directory step by step

The lexical resolution of a path against a directory goes through the components of the path: a dot
stays, two dots leave the last component, and any other name is entered (`lexical`). What
`sys_user_ccwd` writes over the name of the working directory does not depend on the directory
before: `/` for a path of two dots, and the rest of the path behind a dot.

So `sys_user_rcwd` returns the lexical resolution of the calls before it, and `./f` is opened below
it, in three cases (`Kept`, `cwdFollows_iff`): the last call had an absolute path without dots, a
path behind a dot when the directory was the root, or at least as many steps up as there were
directories.
-/

namespace HustOS.Fs

open Foundations

/-! ## Lexical resolution -/

instance (path : List UInt8) : Decidable (Absolute path) := inferInstanceAs (Decidable (_ = _))

/-- Enter a component of a path. -/
def enterName (dir : List Name) (c : Name) : List Name :=
  if c = [46] then dir else if c = [46, 46] then dir.dropLast else dir ++ [c]

/-- The lexical resolution of a path against a directory. -/
def lexical (dir : List Name) (path : List UInt8) : List Name :=
  (pathTokens path).foldl enterName (if Absolute path then [] else dir)

/-- The lexical resolution of one path after the other. -/
def lexicals (dir : List Name) (paths : List Path) : List Name :=
  paths.foldl (fun dir path => lexical dir path.1) dir

/-- A component that is neither `.` nor `..`. -/
def Plain (c : Name) : Prop := c ≠ [46] ∧ c ≠ [46, 46]

/-- A path of a directory: an absolute one, one that starts with `./`, or steps up. -/
def DirPath (path : List UInt8) : Prop :=
  Absolute path ∨ path[0]? = some 46 ∧
    (path[1]? = some 47 ∨ path[1]? = some 46 ∧ ∀ c ∈ pathTokens path, c = [46, 46])

/-- When `sys_user_ccwd` goes from a directory to the lexical resolution of the path. -/
def Kept (dir : List Name) (path : List UInt8) : Prop :=
  if Absolute path then ∀ c ∈ pathTokens path, Plain c
  else if path[1]? = some 47 then dir = [] ∧ ∀ c ∈ pathTokens path.tail, Plain c
  else dir.length ≤ (pathTokens path).length

variable {dir : List Name} {cs : List Name} {path q n : List UInt8} {f : Name}

theorem enter_plain {c : Name} (h : Plain c) : enterName dir c = dir ++ [c] := by
  rw [enterName, if_neg h.1, if_neg h.2]

theorem DirPath.ne_nil (h : DirPath path) : path ≠ [] := by
  rintro rfl
  rcases h with h | h
  · exact nomatch h
  · exact nomatch h.1

theorem foldl_enter_plain (h : ∀ c ∈ cs, Plain c) : cs.foldl enterName dir = dir ++ cs := by
  induction cs generalizing dir with
  | nil => rw [List.foldl_nil, List.append_nil]
  | cons c cs ih =>
    rw [List.foldl_cons, enter_plain (h c (List.mem_cons_self ..)),
      ih fun b hb => h b (List.mem_cons_of_mem _ hb), List.append_assoc, List.singleton_append]

theorem foldl_enter_up (h : ∀ c ∈ cs, c = [46, 46]) :
    cs.foldl enterName dir = dir.take (dir.length - cs.length) := by
  induction cs generalizing dir with
  | nil => simp
  | cons c cs ih =>
    obtain rfl := h c (List.mem_cons_self ..)
    rw [List.foldl_cons, show enterName dir [46, 46] = dir.dropLast from rfl,
      ih fun b hb => h b (List.mem_cons_of_mem _ hb), List.length_dropLast, List.dropLast_eq_take,
      List.take_take, List.length_cons]
    congr 1
    omega

/-- What is entered has no dots. -/
theorem plain_foldl_enter (h : ∀ c ∈ dir, Plain c) : ∀ c ∈ cs.foldl enterName dir, Plain c := by
  induction cs generalizing dir with
  | nil => exact h
  | cons c cs ih =>
    refine ih fun b hb => ?_
    rw [enterName] at hb
    split at hb
    · exact h b hb
    · rename_i hdot
      split at hb
      · exact h b (List.mem_of_mem_dropLast hb)
      · rename_i hdots
        rcases List.mem_append.1 hb with hb | hb
        · exact h b hb
        · rw [List.mem_singleton.1 hb]
          exact ⟨hdot, hdots⟩

theorem plain_lexical (h : ∀ c ∈ dir, Plain c) : ∀ c ∈ lexical dir path, Plain c := by
  refine plain_foldl_enter fun c hc => ?_
  split at hc
  · exact nomatch hc
  · exact h c hc

/-! ## Components of a path that is put together -/

theorem pathTokens_append (a b : List UInt8) :
    pathTokens (a ++ 47 :: b) = pathTokens a ++ pathTokens b := by
  rw [pathTokens_eq_runs, pathTokens_eq_runs, pathTokens_eq_runs]
  exact runs_append_sep (by decide)

theorem pathTokens_slash (b : List UInt8) : pathTokens (47 :: b) = pathTokens b :=
  pathTokens_append [] b

/-- A name is one component. -/
theorem pathTokens_name (hf : f ≠ []) (hslash : (47 : UInt8) ∉ f) : pathTokens f = [f] := by
  rw [pathTokens_eq_runs]
  refine runs_of_forall_not (fun a ha => ?_) hf
  have hne : a ≠ 47 := fun h => hslash (h ▸ ha)
  simpa using hne

/-- The lexical resolution of a file of a directory. -/
theorem lexical_append (hpath : path ≠ []) (hf : f ≠ []) (hslash : (47 : UInt8) ∉ f)
    (hplain : Plain f) : lexical dir (path ++ 47 :: f) = lexical dir path ++ [f] := by
  have habs : Absolute (path ++ 47 :: f) ↔ Absolute path := by
    obtain ⟨c, path, rfl⟩ := List.exists_cons_of_ne_nil hpath
    rfl
  rw [lexical, pathTokens_append, pathTokens_name hf hslash, List.foldl_append, List.foldl_cons,
    List.foldl_nil, enter_plain hplain]
  simp only [habs]
  rfl

/-- **The directory that `sys_user_ccwd` writes** is the lexical resolution of the path exactly in
the three cases. -/
theorem pathTokens_ccwdName_iff (hdir : ∀ c ∈ dir, Plain c) (hpath : DirPath path) :
    pathTokens (Cwds.ccwdName path) = lexical dir path ↔ Kept dir path := by
  rw [Kept, lexical]
  rcases hpath with habs | ⟨h₀, h₁⟩
  · have hdot := not_dot_of_absolute habs
    rw [if_pos habs, if_pos habs, Cwds.ccwdName, if_neg fun h => hdot h.1, if_neg fun h => hdot h.1]
    constructor
    · intro he
      rw [he]
      exact plain_foldl_enter fun c hc => nomatch hc
    · intro hplain
      exact ((foldl_enter_plain hplain).trans (List.nil_append _)).symm
  · have habs : ¬ Absolute path := fun h => not_dot_of_absolute h h₀
    obtain ⟨c, path, rfl⟩ := List.exists_cons_of_ne_nil (l := path) fun h => by simp [h] at h₀
    obtain rfl : c = 46 := by simpa using h₀
    rw [if_neg habs, if_neg habs]
    rcases h₁ with h₁ | ⟨h₁, hup⟩
    · obtain ⟨c, path, rfl⟩ := List.exists_cons_of_ne_nil (l := path) fun h => by simp [h] at h₁
      obtain rfl : c = 47 := by simpa using h₁
      have hname : Cwds.ccwdName (46 :: 47 :: path) = 47 :: path := rfl
      have htokens : pathTokens (46 :: 47 :: path) = [46] :: pathTokens path :=
        pathTokens_append [46] path
      rw [if_pos h₁, hname, List.tail_cons, pathTokens_slash, htokens, List.foldl_cons,
        show enterName dir [46] = dir from rfl]
      constructor
      · intro he
        have hplain : ∀ c ∈ pathTokens path, Plain c := by
          rw [he]
          exact plain_foldl_enter hdir
        rw [foldl_enter_plain hplain, List.self_eq_append_left] at he
        exact ⟨he, hplain⟩
      · rintro ⟨rfl, hplain⟩
        exact ((foldl_enter_plain hplain).trans (List.nil_append _)).symm
    · have hname : Cwds.ccwdName (46 :: path) = [47] := by
        rw [Cwds.ccwdName, if_pos ⟨h₀, h₁⟩]
      have hne : ¬ (46 :: path)[1]? = some 47 := by
        rw [h₁]
        decide
      rw [if_neg hne, hname, foldl_enter_up hup, show pathTokens [47] = [] from rfl, eq_comm,
        List.take_eq_nil_iff]
      constructor
      · rintro (h | rfl)
        · omega
        · exact Nat.zero_le _
      · intro h
        exact .inl (by omega)

/-! ## The calls -/

namespace Cwds

variable {w w' : Cwds} {p : ℕ}

/-- `sys_user_rcwd` returns the lexical resolution of the path against the directory, and `./f` is
opened as that of the path with the file name behind it, if the string fits `pathb`. -/
structure Follows (w : Cwds) (p : ℕ) (dir : List Name) (path : List UInt8) : Prop where
  rcwd : ∃ q, w.sysUserRcwd p = .ok q ∧ Absolute q ∧ pathTokens q = lexical dir path
  opens : ∀ f : Name, f ≠ [] → (47 : UInt8) ∉ f → Plain f →
    (∀ q, w.sysUserRcwd p = .ok q → (q ++ 47 :: f).length < MAX_PATH_LEN) →
    ∃ q, w.sysUserOpen p (46 :: 47 :: f) = .ok q ∧ Absolute q ∧
      pathTokens q = lexical dir (path ++ 47 :: f)

theorem absolute_append {a b : List UInt8} (h : Absolute a) : Absolute (a ++ b) := by
  cases a with
  | nil => exact nomatch h
  | cons c a => exact h

/-- In a directory with the components of the lexical resolution. -/
theorem Shared.follows (h : w.Shared n) (hp : (w.cwd p).isSome) (habs : Absolute n)
    (hpath : path ≠ []) (htokens : pathTokens n = lexical dir path) : w.Follows p dir path := by
  refine ⟨⟨n, h.rcwd hp, habs, htokens⟩, fun f hf hslash hplain hfits => ?_⟩
  have hlen := hfits n (h.rcwd hp)
  have hopen : w.sysUserOpen p (46 :: 47 :: f) = fitString 30 "pathb" (dirPrefix n ++ 47 :: f) :=
    (h.resolve_dot hp rfl (by simp)).1
  refine ⟨dirPrefix n ++ 47 :: f, ?_, ?_, ?_⟩
  · rw [hopen]
    refine fitString_eq_ok.2 ⟨?_, rfl⟩
    rw [dirPrefix]
    split
    · simp only [List.length_append, List.nil_append, MAX_PATH_LEN] at hlen ⊢
      omega
    · exact hlen
  · rw [dirPrefix]
    split
    · rfl
    · exact absolute_append habs
  · rw [lexical_append hpath hf hslash hplain, ← htokens, pathTokens_append,
      pathTokens_name hf hslash, dirPrefix]
    split
    · rename_i hroot
      rw [hroot]
      rfl
    · rfl

/-- A call of `sys_user_ccwd`. -/
theorem Shared.ccwd_follows (h : w.Shared n) (hp : (w.cwd p).isSome) (habs : DirPath path)
    (hlen : path.length < MAX_PATH_LEN) :
    ∃ w', w.sysUserCcwd p path = .ok w' ∧ w'.Shared (ccwdName path) ∧ (w'.cwd p).isSome ∧
      Absolute (ccwdName path) := by
  have hname : (ccwdName path).length < MAX_DENTRY_NAME_LEN ∧ Absolute (ccwdName path) := by
    rw [ccwdName]
    split
    · exact ⟨by decide, rfl⟩
    · rename_i hdots
      split
      · rename_i hdot
        obtain ⟨c, path, rfl⟩ := List.exists_cons_of_ne_nil (l := path) fun h => by simp [h] at hdot
        refine ⟨?_, hdot.2⟩
        simp only [List.length_cons, List.tail_cons, MAX_PATH_LEN, MAX_DENTRY_NAME_LEN] at hlen ⊢
        omega
      · rename_i hdot
        refine ⟨hlen, ?_⟩
        rcases habs with habs | ⟨h₀, h₁ | h₁⟩
        · exact habs
        · exact absurd ⟨h₀, h₁⟩ hdot
        · exact absurd ⟨h₀, h₁.1⟩ hdots
  obtain ⟨w', hrun⟩ := h.ccwd_ok hp hname.1
  obtain ⟨hshared, hcwd⟩ := h.ccwd hrun
  exact ⟨w', hrun, hshared, hcwd ▸ hp, hname.2⟩

theorem ccwds_succ (paths : List Path) {k : ℕ} (hk : k < paths.length) :
    w.ccwds p (paths.take (k + 1)) =
      (w.ccwds p (paths.take k) >>= fun w => w.sysUserCcwd p paths[k].1) := by
  rw [ccwds, ccwds, List.take_succ_eq_append_getElem hk, List.foldlM_append]
  simp only [List.foldlM_cons, List.foldlM_nil, bind_pure]

theorem plain_lexicals (h : ∀ c ∈ dir, Plain c) (paths : List Path) :
    ∀ c ∈ lexicals dir paths, Plain c := by
  induction paths generalizing dir with
  | nil => exact h
  | cons path paths ih => exact ih (plain_lexical h)

/-- The calls return, and the working directory is still shared. -/
theorem Shared.ccwds {paths : List Path} (h : w.Shared n) (hp : (w.cwd p).isSome)
    (hpaths : ∀ path ∈ paths, DirPath path.1 ∧ path.1.length < MAX_PATH_LEN) (k : ℕ)
    (hk : k ≤ paths.length) :
    ∃ w' m, w.ccwds p (paths.take k) = .ok w' ∧ w'.Shared m ∧ (w'.cwd p).isSome := by
  induction k with
  | zero => exact ⟨w, n, rfl, h, hp⟩
  | succ k ih =>
    obtain ⟨w₁, m, hrun, hm, hp₁⟩ := ih (by omega)
    obtain ⟨hpath, hlen⟩ := hpaths _ (List.getElem_mem hk)
    obtain ⟨w₂, hcall, hm₂, hp₂, -⟩ := hm.ccwd_follows hp₁ hpath hlen
    refine ⟨w₂, _, ?_, hm₂, hp₂⟩
    rw [ccwds_succ paths hk, hrun, ok_bind, hcall]

end Cwds

/-- **A call of a sequence of `sys_user_ccwd` goes to the lexical resolution of its path exactly in
three cases:** an absolute path without dots, a path behind a dot from the root, or at least as many
steps up as there are directories. -/
theorem cwdFollows_iff (w : Cwds) (p : ℕ) (n : Name) (h : w.Shared n) (hp : (w.cwd p).isSome)
    (paths : List Path) (hpaths : ∀ path ∈ paths, DirPath path.1 ∧ path.1.length < MAX_PATH_LEN)
    (k : ℕ) (hk : k < paths.length) :
    (∃ w', w.ccwds p (paths.take (k + 1)) = .ok w' ∧
        w'.Follows p (lexicals (lexical [] n) (paths.take k)) paths[k].1) ↔
      Kept (lexicals (lexical [] n) (paths.take k)) paths[k].1 := by
  obtain ⟨w₁, m, hrun, hm, hp₁⟩ := h.ccwds hp hpaths k hk.le
  obtain ⟨hpath, hlen⟩ := hpaths _ (List.getElem_mem hk)
  obtain ⟨w₂, hcall, hm₂, hp₂, habs⟩ := hm.ccwd_follows hp₁ hpath hlen
  have hplain : ∀ c ∈ lexicals (lexical [] n) (paths.take k), Plain c :=
    Cwds.plain_lexicals (plain_lexical (by simp)) _
  rw [← pathTokens_ccwdName_iff hplain hpath, Cwds.ccwds_succ paths hk, hrun, ok_bind, hcall]
  constructor
  · rintro ⟨w', hrun', ⟨q, hq, -, htokens⟩, -⟩
    obtain rfl := Except.ok.inj hrun'
    rw [hm₂.rcwd hp₂] at hq
    obtain rfl := Except.ok.inj hq
    exact htokens
  · exact fun htokens => ⟨w₂, rfl, hm₂.follows hp₂ habs (DirPath.ne_nil hpath) htokens⟩

/-- `"/a"` and `"./b"`. -/
def pathsAB : List Path := [⟨[47, 97], by decide⟩, ⟨[46, 47, 98], by decide⟩]

theorem pathsAB_dir : ∀ path ∈ pathsAB, DirPath path.1 ∧ path.1.length < MAX_PATH_LEN := by
  intro path hpath
  simp only [pathsAB, List.mem_cons, List.not_mem_nil, or_false] at hpath
  rcases hpath with rfl | rfl
  · exact ⟨.inl rfl, by decide⟩
  · exact ⟨.inr ⟨rfl, .inl rfl⟩, by decide⟩

theorem cwdFollows_iff_root : ∃ w, CwdRun w ∧
    ((∃ w', w.ccwds 0 (pathsAB.take 1) = .ok w' ∧ w'.Follows 0 [] [47, 97]) ↔
        Kept [] [47, 97]) := by
  obtain ⟨w, h, hp, -, hn⟩ := CwdRun.two
  exact ⟨w, h, cwdFollows_iff w 0 [47] hn hp pathsAB pathsAB_dir 0 (by decide)⟩

/-- From the root to `/a` and from there to `./b`, which is `/b` again and not `/a/b`. -/
theorem cwdFollows_lost : ∃ w w₁ w₂, CwdRun w ∧ w.sysUserRcwd 0 = .ok [47] ∧
    w.sysUserCcwd 0 [47, 97] = .ok w₁ ∧ w₁.sysUserRcwd 0 = .ok [47, 97] ∧
    w₁.sysUserCcwd 0 [46, 47, 98] = .ok w₂ ∧ w₂.sysUserRcwd 0 = .ok [47, 98] ∧
    w₂.sysUserOpen 0 [46, 47, 99] = .ok [47, 98, 47, 99] ∧
    lexical (pathTokens [47, 97]) [46, 47, 98] = [[97], [98]] ∧
    ¬ w₂.Follows 0 (pathTokens [47, 97]) [46, 47, 98] := by
  obtain ⟨w, h, hp, -, hn⟩ := CwdRun.two
  have hdirA : DirPath [47, 97] := .inl rfl
  have hdirB : DirPath [46, 47, 98] := .inr ⟨rfl, .inl rfl⟩
  obtain ⟨w₁, hcall₁, hn₁, hp₁, -⟩ := hn.ccwd_follows hp hdirA (by decide)
  obtain ⟨w₂, hcall₂, hn₂, hp₂, -⟩ := hn₁.ccwd_follows hp₁ hdirB (by decide)
  have hopen : w₂.sysUserOpen 0 [46, 47, 99] = .ok [47, 98, 47, 99] :=
    (hn₂.resolve_dot hp₂ rfl (by decide)).1
  refine ⟨w, w₁, w₂, h, hn.rcwd hp, hcall₁, hn₁.rcwd hp₁, hcall₂, hn₂.rcwd hp₂, hopen, rfl, ?_⟩
  rintro ⟨⟨q, hq, -, htokens⟩, -⟩
  rw [hn₂.rcwd hp₂] at hq
  obtain rfl := Except.ok.inj hq
  exact absurd htokens (by decide)

end HustOS.Fs
