import HustOS.Fs.Format
import HustOS.Fs.Write

/-!
# Runs of the file system

A run starts with `fs_init` and goes on with operations that return (`Step`): they are given paths
whose inner components are directories, and leave every directory with at most 128 entries. A run
keeps the invariant (`Run.inv`); each operation is a sequence of transitions of the kinds it may
make (`Step.steps`), and no operation fails an assertion of the source (`exec_sat`).

What the invariant says about blocks, links and the tables then holds in every state of every run.
-/

namespace HustOS.Fs

open Foundations

variable {s s' : State} {op : Op} {r : Ret} {i j v f : ℕ} {C : State → Op → Prop}

/-- The paths an operation is given. -/
def Op.paths : Op → List Path
  | .open path _ => [path]
  | .write _ _ _ => []
  | .close _ => []
  | .mkdir path => [path]
  | .link oldpath newpath => [oldpath, newpath]
  | .unlink path => [path]
  | .opendir path => [path]

/-- No directory in the vinode table has more than 128 entries. -/
def State.Limits (s : State) : Prop :=
  ∀ d v x, Cached s d v x → x.type = DIR_I → x.size ≤ 128 * direntrySize

/-- An operation that returns `r`, within the limits of the format. -/
structure Step (s : State) (op : Op) (r : Ret) (s' : State) : Prop where
  parents : ∀ path ∈ op.paths, s.disk.ParentsOk path.1
  exec : exec op s = .ok (r, s')
  limits : s'.Limits

/-- The states of the runs whose operations satisfy `C` where they start. -/
inductive Run (C : State → Op → Prop) : State → Prop
  | init {s : State} (boot : Boot) (start : fsInit boot = .ok s) : Run C s
  | step {s s' : State} {op : Op} {r : Ret} (run : Run C s) (cond : C s op)
      (step : Step s op r s') : Run C s'

/-- The states of all runs. -/
abbrev Reachable : State → Prop := Run fun _ _ => True

/-! ## Operations as sequences of transitions -/

/-- The operation has written to the file `i`. -/
def Op.Writes (op : Op) (s : State) (r : Ret) (i : ℕ) : Prop :=
  ∃ f buf count fl, op = .write f buf count ∧ r = .int count ∧ s.files.lookup f = some fl ∧
    DentryOf s fl.fDentry i

/-- The operation has removed the last name of the file `j`. -/
def Op.Deletes (op : Op) (s : State) (r : Ret) (j : ℕ) : Prop :=
  ∃ path, op = .unlink path ∧ r = .int 0 ∧ s.disk.resolve path.1 = some j ∧
    (s.disk.dinode j).nlinks = 1

/-- The tags of the transitions an operation may make. -/
def Op.Allows (op : Op) (s : State) (r : Ret) : Tag → Prop
  | .quiet => True
  | .edits => True
  | .closes => ∃ f, op = .close f
  | .writes i => op.Writes s r i
  | .frees j => op.Deletes s r j

theorem not_limits_of_over (h : s.Over) : ¬ s.Limits := by
  obtain ⟨d, v, x, hc, hx, hsize⟩ := h
  intro hl
  have := hl d v x hc hx
  simp only [RFS_BLKSIZE, PGSIZE, direntrySize] at *
  omega

theorem allows_of_quiet {tag : Tag} (h : IsQuiet tag) : op.Allows s r tag := by
  rw [h]
  trivial

theorem allows_of_edit {tag : Tag} (h : IsEdit tag) : op.Allows s r tag := by
  rcases h with rfl | rfl
  · trivial
  · trivial

/-- What `vfs_unlink` does, as a sequence of transitions. -/
theorem UnlinkPost.steps {path : Path} (h : Inv s) (hu : UnlinkPost s j s')
    (hj : s.disk.resolve path.1 = some j) :
    Steps (Op.Allows (.unlink path) s (.int 0)) s s' := by
  cases hu with
  | name steps unlinking =>
    exact (steps.mono fun _ => allows_of_quiet).tail (.unlink unlinking) trivial
  | last steps removing =>
    refine (steps.mono fun _ => allows_of_quiet).tail (.remove removing) ⟨path, rfl, rfl, hj, ?_⟩
    have hb := (steps.inv h).sync _ _ _ removing.node
    rw [(steps.quiet h).disk] at hb
    exact hb.nlinks.trans removing.nlinks

/-- **An operation is a sequence of transitions of the kinds it may make**, unless it fills a
directory beyond its block; and it fails no assertion. -/
theorem exec_sat (h : Inv s) (hp : ∀ path ∈ op.paths, s.disk.ParentsOk path.1) :
    Sat (exec op s) (fun r => r.2.Over ∨ Steps (op.Allows s r.1) s r.2) NoAssert := by
  cases op with
  | «open» path flags =>
    refine Sat.bind (vfsOpen_sat h (hp path (List.mem_singleton_self _))) ?_
    rintro ⟨f, s'⟩ hpost
    rcases hpost with ho | ⟨-, hs⟩ | ⟨f', fl, i, -, -, -, ⟨-, hs⟩ | ⟨-, hs⟩⟩
    · exact .inl ho
    · exact .inr (hs.mono fun _ => allows_of_edit)
    · exact .inr (hs.mono fun _ => allows_of_quiet)
    · exact .inr (hs.steps.mono fun _ => allows_of_edit)
  | write f buf count =>
    refine Sat.bind (vfsWrite_sat h) ?_
    rintro ⟨n, s'⟩ hpost
    rcases hpost with ⟨-, hs⟩ | ⟨fl, i, hn, hf, hd, hs⟩
    · dsimp only at hs
      subst hs
      exact .inr .refl
    · refine .inr (hs.mono fun tag ht => ?_)
      rcases ht with rfl | rfl
      · trivial
      · dsimp only at hn
        exact ⟨f, buf, count, fl, rfl, by rw [hn], hf, hd⟩
  | close f =>
    refine Sat.bind (vfsClose_sat h) ?_
    rintro ⟨n, s'⟩ hpost
    rcases hpost with ⟨fl, e, v, x, -, hs, -⟩ | ⟨fl, e, i, v, x, -, hf, he, hc, hx, hs⟩
    · dsimp only at hs
      subst hs
      exact .inr .refl
    · refine .inr ((hs.steps hf he hc hx).mono fun tag ht => ?_)
      rcases ht with rfl | rfl | rfl
      · trivial
      · exact ⟨f, rfl⟩
      · trivial
  | mkdir path =>
    refine Sat.bind (vfsMkdir_sat h (hp path (List.mem_singleton_self _))) ?_
    rintro ⟨n, s'⟩ hpost
    exact hpost.imp_right fun hs => hs.mono fun _ => allows_of_edit
  | link oldpath newpath =>
    have hnew : newpath ∈ [oldpath, newpath] := List.mem_cons_of_mem _ (List.mem_singleton_self _)
    refine Sat.bind (vfsLink_sat h (hp oldpath List.mem_cons_self) (hp newpath hnew)) ?_
    rintro ⟨n, s'⟩ hpost
    exact hpost.imp_right fun hs => hs.mono fun _ => allows_of_edit
  | unlink path =>
    refine Sat.bind (vfsUnlink_sat h (hp path (List.mem_singleton_self _))) ?_
    rintro ⟨n, s'⟩ hpost
    rcases hpost with ⟨-, hs⟩ | ⟨j, hn, hj, hs⟩
    · exact .inr (hs.mono fun _ => allows_of_quiet)
    · dsimp only at hn hs
      subst hn
      exact .inr (hs.steps h hj)
  | opendir path =>
    refine Sat.bind (vfsOpendir_sat h (hp path (List.mem_singleton_self _))) ?_
    rintro ⟨f, s'⟩ hs
    exact .inr (hs.mono fun _ => allows_of_quiet)

/-- An operation within the limits is a sequence of transitions. -/
theorem Step.steps (h : Step s op r s') (hi : Inv s) : Steps (op.Allows s r) s s' := by
  have hsat := exec_sat hi h.parents
  rw [h.exec] at hsat
  exact hsat.resolve_left fun ho => not_limits_of_over ho h.limits

/-- **Every state of a run satisfies the invariant.** -/
theorem Run.inv (h : Run C s) : Inv s := by
  induction h with
  | init boot start =>
    obtain ⟨s₀, hs₀, hi⟩ := fsInit_inv boot
    obtain rfl := Except.ok.inj (hs₀.symm.trans start)
    exact hi
  | step run cond step ih => exact (step.steps ih).inv ih

/-! ## Runs that are evaluated -/

instance DirParents.decidable {isDir : ℕ → Prop} [DecidablePred isDir]
    {dir : ℕ → List (Name × ℕ)} : ∀ ns i, Decidable (DirParents isDir dir ns i)
  | [], _ => .isTrue trivial
  | n :: ns, i =>
    match hf : dirFind (dir i) n with
    | none => decidable_of_iff (isDir i)
        ⟨fun h => ⟨h, fun _ hj => by rw [hf] at hj; cases hj⟩, fun h => h.1⟩
    | some j =>
      have : Decidable (DirParents isDir dir ns j) := DirParents.decidable ns j
      decidable_of_iff (isDir i ∧ DirParents isDir dir ns j)
        ⟨fun h => ⟨h.1, fun _ hj => by rw [hf] at hj; cases hj; exact h.2⟩,
          fun h => ⟨h.1, h.2 j hf⟩⟩

instance (d : Disk) (path : List UInt8) : Decidable (d.ParentsOk path) :=
  match ht : pathTokens path with
  | [] => .isTrue fun _ h => by rw [ht] at h; cases h
  | token :: tokens =>
    decidable_of_iff (token = ramdisk0 → DirParents d.IsDirectory d.entries tokens 0)
      ⟨fun h ns hns => by rw [ht] at hns; cases hns; exact h rfl,
        fun h htoken => h tokens (by rw [ht, htoken])⟩

/-- The size of a directory of RFS; nothing for another vinode. -/
def dirSize (s : State) (k : Sb × ℕ) (v : ℕ) : ℕ :=
  match k.1, s.vinodes v with
  | .rfs, some x => if x.type = DIR_I then x.size else 0
  | _, _ => 0

theorem limits_iff : s.Limits ↔
    ∀ e ∈ s.vinodeHashTable.entries, dirSize s e.1 e.2 ≤ 128 * direntrySize := by
  constructor
  · rintro h ⟨⟨sb, d⟩, v⟩ he
    have hk := mem_entries_iff.1 he
    unfold dirSize
    split
    · rename_i x hsb hv
      dsimp only at hsb hk hv
      split
      · exact h d v x ⟨hsb ▸ hk, hv⟩ ‹_›
      · exact Nat.zero_le _
    · exact Nat.zero_le _
  · intro h d v x hc hx
    have := h ⟨(.rfs, d), v⟩ (mem_entries_iff.2 hc.hash)
    rw [dirSize, hc.vinode] at this
    dsimp only at this
    rwa [if_pos hx] at this

instance (s : State) : Decidable s.Limits := decidable_of_iff _ limits_iff.symm

/-- Run operations one after the other, as long as they return within the limits. -/
def runOps (s : State) : List Op → Option State
  | [] => some s
  | op :: ops =>
    if ∀ path ∈ op.paths, s.disk.ParentsOk path.1 then
      match exec op s with
      | .ok (_, s') => if s'.Limits then runOps s' ops else none
      | .error _ => none
    else none

/-- The first of the operations is a step. -/
theorem step_of_runOps {ops : List Op} (hs : runOps s (op :: ops) = some s') :
    ∃ r s₁, Step s op r s₁ ∧ runOps s₁ ops = some s' := by
  rw [runOps] at hs
  split at hs
  · rename_i hparents
    split at hs
    · rename_i r s₁ hexec
      split at hs
      · rename_i hlimits
        exact ⟨r, s₁, ⟨hparents, hexec, hlimits⟩, hs⟩
      · cases hs
    · cases hs
  · cases hs

/-- Operations that are run lead from a state of a run to one. -/
theorem Run.ofOps {ops : List Op} (h : Run C s) (hC : ∀ s, ∀ op ∈ ops, C s op)
    (hs : runOps s ops = some s') : Run C s' := by
  induction ops generalizing s with
  | nil =>
    obtain rfl := Option.some.inj hs
    exact h
  | cons op ops ih =>
    obtain ⟨r, s₁, hstep, hrest⟩ := step_of_runOps hs
    exact ih (h.step (hC s op List.mem_cons_self) hstep)
      (fun s op hop => hC s op (List.mem_cons_of_mem _ hop)) hrest

/-- A disk that holds zeros. -/
def blank : Boot where
  disk _ _ := 0
  iobuffer _ := 0
  pageAddr k := PGSIZE * k
  stack _ := 0

/-- Start up and run operations. -/
def runFrom (boot : Boot) (ops : List Op) : Option State :=
  match fsInit boot with
  | .ok s => runOps s ops
  | .error _ => none

theorem Run.ofRunFrom {boot : Boot} {ops : List Op} (hC : ∀ s, ∀ op ∈ ops, C s op)
    (hs : runFrom boot ops = some s) : Run C s := by
  unfold runFrom at hs
  split at hs
  · rename_i s₀ hinit
    exact Run.ofOps (.init boot hinit) hC hs
  · cases hs

theorem reachable_of_runFrom {boot : Boot} {ops : List Op} (hs : runFrom boot ops = some s) :
    Reachable s :=
  Run.ofRunFrom (fun _ _ _ => trivial) hs

/-- `"/RAMDISK0/a"`. -/
def pathA : Path := ⟨[47, 82, 65, 77, 68, 73, 83, 75, 48, 47, 97], by decide⟩

/-- `"/RAMDISK0/b"`. -/
def pathB : Path := ⟨[47, 82, 65, 77, 68, 73, 83, 75, 48, 47, 98], by decide⟩

end HustOS.Fs
