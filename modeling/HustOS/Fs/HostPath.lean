import HustOS.Fs.HostedRun
import Mathlib.Data.Finset.Range

/-!
# The path of a file on the host

`get_path_string` climbs to the root dentry and puts the names together on the way back, behind the
directory of the host file system (`Walked.pathString`). The functions that call it have a local
array of `MAX_PATH_LEN` bytes, which is also what `lookup_final_dentry` copies the path into; with
the 13 bytes of the directory in front, a path of that length no longer fits. It fits exactly if the
names and the slashes in front of them have at most 16 bytes (`assembled_iff`).
-/

namespace HustOS.Fs

open Foundations

variable {W : Type} {host : Host W} {h : Hosted W} {s : State} {n v t p fuel : ℕ}
  {names names' : List Name} {path : List UInt8}

/-! ## Chains of dentries -/

/-- A dentry is reached along one list of names only. -/
theorem Walked.unique (hw : Walked s names t) (hw' : Walked s names' t) : names' = names := by
  induction hw generalizing names' with
  | root isRoot dentry top =>
    cases hw' with
    | root => rfl
    | step _ dentry' parent' =>
      obtain rfl := Option.some.inj (dentry.symm.trans dentry')
      rw [top] at parent'
      cases parent'
  | step _ dentry parent ih =>
    cases hw' with
    | root _ dentry' top' =>
      obtain rfl := Option.some.inj (dentry.symm.trans dentry')
      rw [parent] at top'
      cases top'
    | step walk' dentry' parent' =>
      obtain rfl := Option.some.inj (dentry.symm.trans dentry')
      obtain rfl := Option.some.inj (parent.symm.trans parent')
      rw [ih walk']

/-- The dentries of a walk are different. -/
theorem Walked.dentries_nodup (hw : Walked s names t) : ∃ l : List ℕ, l.Nodup ∧
    l.length = names.length + 1 ∧
    ∀ t' ∈ l, s.dentries t' ≠ none ∧ ∃ ns, Walked s ns t' ∧ ns.length ≤ names.length := by
  induction hw with
  | @root t e isRoot dentry top =>
    refine ⟨[t], List.nodup_singleton _, rfl, fun t' ht' => ?_⟩
    rw [List.mem_singleton.1 ht', dentry]
    exact ⟨nofun, [], .root isRoot dentry top, Nat.le_refl _⟩
  | @step names p t e walk dentry parent ih =>
    obtain ⟨l, hnd, hlen, hl⟩ := ih
    have hw : Walked s (names ++ [e.name]) t := walk.step dentry parent
    have hnot : t ∉ l := by
      intro ht
      obtain ⟨-, ns, hns, hle⟩ := hl t ht
      rw [← hns.unique hw, List.length_append, List.length_singleton] at hle
      omega
    refine ⟨t :: l, List.nodup_cons.2 ⟨hnot, hnd⟩, by simp [hlen], fun t' ht' => ?_⟩
    rcases List.mem_cons.1 ht' with rfl | ht'
    · rw [dentry]
      exact ⟨nofun, _, hw, Nat.le_refl _⟩
    · obtain ⟨hsome, ns, hns, hle⟩ := hl t' ht'
      exact ⟨hsome, ns, hns, by simp only [List.length_append]; omega⟩

/-- There are at least as many pages as dentries on a walk. -/
theorem Walked.length_lt (hw : Walked s names t) (hc : DentryCache n v s) :
    names.length < s.pages := by
  obtain ⟨l, hnd, hlen, hl⟩ := hw.dentries_nodup
  have hsub : l ⊆ List.range s.pages := by
    intro t' ht'
    rw [List.mem_range]
    by_contra hle
    exact (hl t' ht').1 (hc.fresh t' (not_lt.1 hle))
  have hle := (hnd.subperm hsub).length_le
  rw [List.length_range, hlen] at hle
  exact hle

/-! ## The string -/

/-- `"/"` and a name for each dentry. -/
def joined (names : List Name) : List UInt8 := names.flatMap fun name => 47 :: name

theorem joined_length (names : List Name) :
    (joined names).length = (names.map fun name => name.length + 1).sum := by
  simp [joined, List.length_flatMap]

/-- `path_backtrack` appends the names of the walk. -/
theorem pathBacktrack_of_walked (hw : Walked s names t) (hf : names.length < fuel) :
    pathBacktrack s fuel t path = .ok (path ++ joined names) := by
  induction hw generalizing fuel with
  | root isRoot dentry top =>
    obtain ⟨fuel, rfl⟩ := Nat.exists_eq_succ_of_ne_zero (Nat.ne_of_gt (Nat.zero_lt_of_lt hf))
    rw [pathBacktrack, State.dentry_eq_ok.2 dentry, ok_bind, top]
    simp [joined]
  | @step names p t e walk dentry parent ih =>
    obtain ⟨fuel, rfl⟩ := Nat.exists_eq_succ_of_ne_zero (Nat.ne_of_gt (Nat.zero_lt_of_lt hf))
    rw [List.length_append, List.length_singleton] at hf
    rw [pathBacktrack, State.dentry_eq_ok.2 dentry, ok_bind, parent]
    dsimp only
    rw [ih (by omega), ok_bind, pure_eq_ok]
    simp [joined]

/-- **The path of a dentry**: the directory of the host file system and the names from below the
root to the dentry. -/
theorem Walked.pathString (hw : Walked s names t) (hc : DentryCache n v s) :
    getPathString s t = .ok (H_ROOT_DIR ++ joined names) :=
  pathBacktrack_of_walked hw (Nat.lt_succ_of_lt (hw.length_lt hc))

/-- The local array of the callers overflows as soon as the names have more than 16 bytes. -/
theorem Walked.localPath (hw : Walked s names t) (hc : DentryCache n v s) :
    localPath s t = if 16 < (joined names).length then .error (.undefined "path")
      else .ok (H_ROOT_DIR ++ joined names) := by
  rw [Fs.localPath, hw.pathString hc, ok_bind]
  have hlen : (H_ROOT_DIR ++ joined names).length = 13 + (joined names).length :=
    List.length_append
  rw [hlen]
  by_cases hlong : 16 < (joined names).length
  · rw [if_pos hlong, if_pos (by simp only [MAX_PATH_LEN]; omega)]
    rfl
  · rw [if_neg hlong, if_neg (by simp only [MAX_PATH_LEN]; omega)]
    rfl

/-! ## The walk of a path -/

/-- The loop of `lookup_final_dentry`, started on the path in the state `h`, has come to the
component behind the names in front of it; its dentry `t` is in the table or has just been made, and
`s` is the state then. -/
structure OnWalk (host : Host W) (h : Hosted W) (path : Path) (front : List Name) (name : Name)
    (t : ℕ) (s : State) : Prop where
  tokens : front ++ [name] <+: pathTokens path.1
  last : ∃ p q h₁, Hosted.lookupLoop host front h.vfsRootDentry h.vfsRootDentry h =
      .ok (.found p q, h₁) ∧
    (hashGetDentry h₁.toState p name = some t ∧ s = h₁.toState ∨
      hashGetDentry h₁.toState p name = none ∧
        allocVfsDentry h₁.toState name none (some p) = .ok (t, s))

theorem OnWalk.walked {path : Path} {front : List Name} {name : Name}
    (run : HostedRun host h) (hw : OnWalk host h path front name t s) :
    (∃ n v, DentryCache n v s) ∧ Walked s (front ++ [name]) t := by
  obtain ⟨n, v, hc⟩ := run.cache
  obtain ⟨p, q, h₁, hfront, hlast⟩ := hw.last
  have hsat : Sat (Hosted.lookupLoop host front h.vfsRootDentry h.vfsRootDentry h)
      (fun r => LookedUp n v h.toState ([] ++ front) r.1 r.2.toState) fun _ => True :=
    hc.lookupLoop hc.walked_root
  rw [hfront] at hsat
  have hc₁ : DentryCache n v h₁.toState := hsat.cache
  have hw₁ : Walked h₁.toState front p := hsat.walked p q rfl
  rcases hlast with ⟨hget, rfl⟩ | ⟨-, halloc⟩
  · obtain ⟨e, he, hk⟩ := hc₁.key _ _ hget
    exact ⟨⟨n, v, hc₁⟩, hw₁.next he hk⟩
  · have hnew := hc₁.allocVfsDentry name none (some p)
    rw [halloc] at hnew
    obtain ⟨-, hc₂, hg, hnew⟩ := hnew
    obtain ⟨e, he, hk⟩ := hnew.dentry
    exact ⟨⟨n, v, hc₂⟩, (hw₁.mono hg).next he hk⟩

/-- What is promised of the path of a dentry that was reached along the names. -/
structure Assembled (s : State) (names : List Name) (t : ℕ) : Prop where
  /-- The names are those of the dentries from below the root. -/
  walk : Walked s names t
  string : getPathString s t = .ok (H_ROOT_DIR ++ joined names)
  /-- With its terminator it is no longer than the arrays it is written to. -/
  fits : (H_ROOT_DIR ++ joined names).length + 1 ≤ MAX_PATH_LEN

/-- **Host paths.** For every dentry on the walk of a path, the path on the host is assembled from
the names and fits its buffer exactly if the names and the slashes have at most 16 bytes. -/
theorem assembled_iff {path : Path} {front : List Name} {name : Name} (run : HostedRun host h)
    (hw : OnWalk host h path front name t s) : Assembled s (front ++ [name]) t ↔
      ((front ++ [name]).map fun name => name.length + 1).sum ≤ 16 := by
  obtain ⟨⟨n, v, hc⟩, hwalk⟩ := hw.walked run
  have hlen : (H_ROOT_DIR ++ joined (front ++ [name])).length =
      13 + ((front ++ [name]).map fun name => name.length + 1).sum := by
    rw [List.length_append, joined_length]
    rfl
  constructor
  · intro ha
    have hfits := ha.fits
    rw [hlen] at hfits
    simp only [MAX_PATH_LEN] at hfits
    omega
  · intro hle
    refine ⟨hwalk, hwalk.pathString hc, ?_⟩
    rw [hlen]
    simp only [MAX_PATH_LEN]
    omega

/-! ## A path that does not fit -/

/-- A host without files, on which none can be made. -/
def emptyHost : Host Unit where
  spikeFileOpen _ _ _ w := (-2, w)
  spikeFileStat _ w := ({ stIno := 0, stMode := 0, stNlink := 0, stSize := 0, stBlocks := 0 }, w)
  spikeFileClose _ w := w
  Exists _ _ := False
  missing _ _ _ _ _ _ := by simp

/-- The state after `fs_init`. -/
theorem exists_booted {W : Type} (host : Host W) (w : W) (boot : Boot) :
    ∃ h : Hosted W, HostedRun host h ∧ fsInit boot = .ok h.toState ∧ h.world = w := by
  obtain ⟨s, hs, -⟩ := fsInit_inv boot
  refine ⟨{ s with hostFile := fun _ => 0, oldType := fun _ => 0, world := w },
    .init boot hs, hs, rfl⟩

/-- The first component of a path is always on its walk. -/
theorem exists_onWalk (host : Host W) (h : Hosted W) {path : Path} {name : Name}
    (ht : [name] <+: pathTokens path.1) : ∃ t s, OnWalk host h path [] name t s := by
  rcases hget : hashGetDentry h.toState h.vfsRootDentry name with _ | t
  · exact ⟨_, _, ht, h.vfsRootDentry, h.vfsRootDentry, h, rfl, .inr ⟨hget, rfl⟩⟩
  · exact ⟨t, _, ht, h.vfsRootDentry, h.vfsRootDentry, h, rfl, .inl ⟨hget, rfl⟩⟩

/-- The path `/a`. -/
theorem assembled_iff_short : ∃ (h : Hosted Unit) (path : Path) (t : ℕ) (s : State),
    HostedRun emptyHost h ∧ OnWalk emptyHost h path [] [97] t s ∧
    (Assembled s ([] ++ [[97]]) t ↔
      (([] ++ [[97]] : List Name).map fun name => name.length + 1).sum ≤ 16) := by
  obtain ⟨h, run, -⟩ := exists_booted emptyHost () blank
  have ht : [[97]] <+: pathTokens [47, 97] := by decide
  let path : Path := ⟨[47, 97], by decide⟩
  obtain ⟨t, s, hw⟩ : ∃ t s, OnWalk emptyHost h path [] [97] t s := exists_onWalk emptyHost h ht
  exact ⟨h, path, t, s, run, hw, assembled_iff run hw⟩

/-- **A path that does not fit.** The path of `/aaaaaaaaaaaaaaaa`, with 16 letters, has one byte
more than the arrays. -/
theorem path_too_long : ∃ (h : Hosted Unit) (path : Path) (name : Name) (t : ℕ) (s : State),
    HostedRun emptyHost h ∧ path.1.length < MAX_PATH_LEN ∧ OnWalk emptyHost h path [] name t s ∧
    ¬ Assembled s [name] t := by
  obtain ⟨h, run, -⟩ := exists_booted emptyHost () blank
  have ht : [List.replicate 16 97] <+: pathTokens (47 :: List.replicate 16 97) := by decide
  let path : Path := ⟨47 :: List.replicate 16 97, by decide⟩
  obtain ⟨t, s, hw⟩ : ∃ t s, OnWalk emptyHost h path [] (List.replicate 16 97) t s :=
    exists_onWalk emptyHost h ht
  refine ⟨h, path, _, t, s, run, by decide, hw, fun ha => ?_⟩
  have hfits := ha.fits
  revert hfits
  decide

end HustOS.Fs
