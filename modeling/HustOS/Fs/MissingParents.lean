import HustOS.Fs.RegularParents

/-!
# Creation below a missing directory

`vfs_open`, `vfs_mkdir` and `vfs_link` take the first component that a lookup misses for the name to
create when it reads the same as the last component of the path, wherever in the path it stands. So
nothing is created below a missing directory exactly when the two read differently
(`nothing_created_iff`): with equal names the new entry goes to the directory the lookup has stopped
in.
-/

namespace HustOS.Fs

open Foundations

variable {s s' s₁ s₂ : State} {t p q d v u w i j k o : ℕ} {e : Dentry} {x y : Vinode} {n b : Name}
  {ns : List Name} {path oldpath : Path} {flags : ℕ} {dir : ℕ → List (Name × ℕ)}

/-! ## Where a walk stops -/

/-- The inode without the entry, and the component, at which a walk of the components `ns` stops. -/
def stop (dir : ℕ → List (Name × ℕ)) : List Name → ℕ → Option (ℕ × Name)
  | [], _ => none
  | n :: ns, i =>
    match dirFind (dir i) n with
    | none => some (i, n)
    | some j => stop dir ns j

theorem stop_spec (h : stop dir ns i = some (d, n)) :
    ∃ pre rest, ns = pre ++ n :: rest ∧ walk dir pre i = some d ∧ dirFind (dir d) n = none := by
  induction ns generalizing i with
  | nil => cases h
  | cons m ns ih =>
    rw [stop] at h
    cases hf : dirFind (dir i) m with
    | none =>
      rw [hf] at h
      obtain ⟨rfl, rfl⟩ := Prod.mk.inj (Option.some.inj h)
      exact ⟨[], ns, rfl, rfl, hf⟩
    | some j =>
      rw [hf] at h
      obtain ⟨pre, rest, hns, hw, hnone⟩ := ih h
      refine ⟨m :: pre, rest, by rw [hns]; rfl, ?_, hnone⟩
      rw [walk, hf]
      exact hw

/-- A walk of which some part gets nowhere stops. -/
theorem exists_stop (h : walk dir (ns.take k) i = none) : ∃ d n, stop dir ns i = some (d, n) := by
  induction ns generalizing i k with
  | nil =>
    rw [List.take_nil] at h
    cases h
  | cons m ns ih =>
    cases k with
    | zero => cases h
    | succ k =>
      rw [List.take_succ_cons, walk] at h
      rw [stop]
      cases hf : dirFind (dir i) m with
      | none => exact ⟨i, m, rfl⟩
      | some j =>
        rw [hf] at h
        exact ih h

/-- The walk stops at a regular file, and an entry in the content of the file matches. -/
def State.ReadsFile (s : State) (ns : List Name) : Prop :=
  ∃ d n, stop s.disk.entries ns 0 = some (d, n) ∧ (s.disk.dinode d).type = FILE_I ∧
    dirFind (dirList s.disk (s.node d)) n ≠ none

/-- The lookup ends where the walk stops. -/
theorem Inv.lookup_stop (h : Inv s) (hlen : path.1.length < MAX_PATH_LEN)
    (ht : pathTokens path.1 = ramdisk0 :: ns) (hstop : stop s.disk.entries ns 0 = some (d, n))
    (hclean : ¬ s.ReadsFile ns) :
    ∃ s' t e v x, Extends s s' ∧ Hashed s' t e v ∧ Cached s' d v x ∧
      (x.type = DIR_I ∨ x.type = FILE_I) ∧
      lookupFinalDentry s path.1 s.vfsRootDentry = .ok (.missing t n, s') := by
  obtain ⟨pre, rest, rfl, hw, hnone⟩ := stop_spec hstop
  obtain ⟨s', t, q, e, v, x, hext, he, hc, -, hlook⟩ := h.reach hlen ht hw
  have h' := hext.steps.inv h
  obtain ⟨hnode, htype⟩ := hext.node_eq h hc
  have hkind := h'.good.kind d (h'.paths.inUse d v x hc)
  rw [h'.node_eq hc] at hkind
  rcases hkind with hfile | hdir
  · have hf : dirFind (dirList s.disk (s.node d)) n = none := by
      by_contra hne
      exact hclean ⟨d, n, hstop, htype.trans hfile.type, hne⟩
    obtain ⟨s'', t', e', v', x', hext', he', hc', htype', hlook'⟩ :=
      h.missing_regular ht hw (htype.trans hfile.type) hlen hf
    exact ⟨s'', t', e', v', x', hext', he', hc', .inr htype', hlook'⟩
  · have hdir' : (s'.vol.node d).type = DIR_I := by
      rw [h'.node_eq hc]
      exact hdir.type
    have hf : dirFind (s'.vol.dir d) n = none := by
      rw [(hext.steps.quiet h).vol, ← (h.disk_dir (h'.lt hc)).2]
      exact hnone
    obtain ⟨buf, hcomp, -⟩ :=
      component_missing h' he hc hdir' (valid_of_mem_pathTokens hlen ht (by simp)) hf
    have hscratch := Extends.scratch s' buf (Nat.le_succ s'.pages)
    refine ⟨_, t, e, v, x, hext.trans hscratch, ⟨he.dentry, he.hash, he.inode⟩,
      ⟨hc.hash, hc.vinode⟩,
      .inl hdir.type, ?_⟩
    rw [hlook, lookupLoop_cons, hcomp]
    rfl

/-! ## Calls that are refused -/

/-- The call returns `r` and leaves the disk and the entries of the directories as they were. -/
def CallRefused {α : Type} (s : State) (r : α) (call : Except Fault (α × State)) : Prop :=
  ∃ s', call = .ok (r, s') ∧ s'.disk = s.disk ∧ ∀ d, s'.vol.dir d = s.vol.dir d

theorem Extends.refused {α : Type} {r : α} {call : Except Fault (α × State)} (hext : Extends s s')
    (h : Inv s) (hcall : call = .ok (r, s')) : CallRefused s r call := by
  have hq := hext.steps.quiet h
  exact ⟨s', hcall, hq.disk, fun d => congrFun (congrArg Vol.dir hq.vol) d⟩

/-- A call is not refused when all it returns with is something else. -/
theorem not_callRefused {α : Type} {r : α} {call : Except Fault (α × State)} {E : Fault → Prop}
    (h : Sat call (fun a => a.1 ≠ r ∨ a.2.disk ≠ s.disk ∨ ∃ d, a.2.vol.dir d ≠ s.vol.dir d) E) :
    ¬ CallRefused s r call := by
  rintro ⟨s', rfl, hdisk, hdir⟩
  rcases h with hr | hd | ⟨d, hd⟩
  · exact hr rfl
  · exact hd hdisk
  · exact hd (hdir d)

/-- A directory that gets longer has other entries. -/
theorem Keeps.dir_ne (hk : Keeps s₁ v { x with size := x.size + 32 } s₂) (h : Inv s₁)
    (hc : Cached s₁ d v x) (hx : x.type = DIR_I) : s₂.vol.dir d ≠ s₁.vol.dir d := by
  have hlt := h.lt hc
  have hcur : s₂.vol.node d = { x.toDinode with size := x.size + 32 } :=
    (node_of_lt hlt).trans (Cached.cur ⟨hk.2 _ _ hc.hash, hk.1⟩)
  intro heq
  have hlen := congrArg List.length heq
  have hdir₂ : s₂.vol.dir d = dirList s₂.disk (s₂.vol.node d) := 
    if_pos ((congrArg Dinode.type hcur).trans hx)
  have hdir₁ : s₁.vol.dir d = dirList s₁.disk (s₁.vol.node d) := 
    if_pos ((congrArg Dinode.type (h.node_eq hc)).trans hx)
  rw [hdir₂, hdir₁, length_dirList, length_dirList, hcur, h.node_eq hc] at hlen
  dsimp only at hlen
  omega

/-! ## Names that read the same -/

theorem getBaseName_eq (ht : pathTokens path.1 = ramdisk0 :: ns) (hb : ns.getLast? = some b) :
    getBaseName path.1 = .ok b := by
  rw [getBaseName, ht, List.getLast?_cons, hb]
  rfl

/-- `vfs_open` does not go on without a file it has tried to create. -/
theorem createFile_ne_none (hb : getBaseName path.1 = .ok n) :
    Sat (createFile s path.1 t n) (fun r => r.1 ≠ none) fun _ => True := by
  unfold createFile
  rw [hb, ok_bind, if_neg (not_not.2 rfl), allocVfsDentry_eq, ok_bind]
  refine Sat.bind (sat_true _ fun _ => trivial) fun v (_ : True) => ?_
  refine Sat.bind (sat_true _ fun _ => trivial) fun r (_ : True) => ?_
  obtain ⟨r, s₁⟩ := r
  cases r with
  | none => trivial
  | some u => exact Sat.bind (sat_true _ fun _ => trivial) fun s' (_ : True) => nofun

section Same

variable (h : Inv s) (he : Hashed s t e v) (hc : Cached s d v x)
  (hx : x.type = DIR_I ∨ x.type = FILE_I) (hb : getBaseName path.1 = .ok n)

include h hc hx

section CreateFile

include he hb

/-- `vfs_open` makes the directory longer, and panics in a regular file. -/
theorem createFile_same :
    Sat (createFile s path.1 t n)
      (fun r => x.type = DIR_I ∧ Keeps s v { x with size := x.size + 32 } r.2) fun _ => True := by
  rcases hx with hdir | hfile
  · unfold createFile
    rw [hb, ok_bind, if_neg (not_not.2 rfl), allocVfsDentry_eq, ok_bind]
    dsimp only
    have hv : (dentryState s t n).vinodes v = some x := hc.vinode
    have hne : v ≠ s.pages + 1 :=
      ((h.tables.page_lt_vinode hc.vinode).trans (Nat.lt_succ_self _)).ne
    have hsb : viopSb (dentryState s t n) v = .ok () := by
      rw [viopSb, State.vinode_eq_ok.2 hv, ok_bind, (h.tables.inum_eq hc).2]
      rfl
    rw [h.dentryState_inode he, ok_bind, viopCreate, hsb, ok_bind]
    refine Sat.bind ((rfsCreate_keeps hv hdir (h.inum_lt hc) hne).mono' fun _ _ => trivial) ?_
    rintro ⟨r, s₁⟩ ⟨hr, hkeep⟩
    dsimp only at hr
    subst hr
    refine Sat.bind ((attachNew_keeps hkeep.1 hne).mono' fun _ _ => trivial) fun s₂ hkeep₂ => ?_
    exact ⟨hdir, hkeep₂.1, fun k w hk => hkeep₂.2 k w (hkeep.2 k w hk)⟩
  · have hreg : x.type ≠ DIR_I := by
      rw [hfile]
      decide
    have hnone := createFile_regular (n := n) h he hc hreg path.1
    have hsome := createFile_ne_none (s := s) (t := t) hb
    cases hrun : createFile s path.1 t n with
    | error err => trivial
    | ok r =>
      rw [hrun] at hnone hsome
      exact absurd hnone hsome

end CreateFile

/-- `rfs_mkdir` returns an inode, or it has written one though the parent is a regular file. -/
theorem viopMkdir_same :
    Sat (viopMkdir (dentryState s t n) v n)
      (fun r => r.1 ≠ none ∨ r.2.disk ≠ s.disk) fun _ => True := by
  have hv : (dentryState s t n).vinodes v = some x := hc.vinode
  have hne : v ≠ s.pages + 1 := ((h.tables.page_lt_vinode hc.vinode).trans (Nat.lt_succ_self _)).ne
  have hsb : viopSb (dentryState s t n) v = .ok () := by
    rw [viopSb, State.vinode_eq_ok.2 hv, ok_bind, (h.tables.inum_eq hc).2]
    rfl
  rw [viopMkdir, hsb, ok_bind]
  rcases hx with hdir | hfile
  · refine ((rfsMkdir_keeps hv hdir (h.inum_lt hc) hne).mono' fun _ _ => trivial).mono ?_
    rintro ⟨r, s₁⟩ ⟨hr, -⟩
    exact .inl fun hnone => Option.some_ne_none _ (hr.symm.trans hnone)
  · have hreg : x.type ≠ DIR_I := by
      rw [hfile]
      decide
    refine (rfsMkdir_regular hv hreg).mono ?_
    rintro _ ⟨i, k, buf, hfresh, rfl⟩
    refine .inr fun hdisk => ?_
    have hk : k < dataBlocks := h.nblocks ▸ hfresh.block_lt
    have hfits : (madeNode R_DIR 1 (s.disk.dinode i) (RFS_BLK_OFFSET_FREE + k)).Fits :=
      fits_madeNode (s.disk.fits_dinode i) (by decide) (by decide) (by
        change 12 + k < 2 ^ 32
        simp only [dataBlocks, RFS_MAX_INODE_BLKNUM, RFS_DIRECT_BLKNUM] at hk
        omega)
    have htype := congrArg (fun d : Disk => (d.dinode i).type) hdisk
    dsimp only [dentryState] at htype
    rw [Disk.dinode_setDinode hfits, show (s.disk.dinode i).type = R_FREE from hfresh.free] at htype
    exact absurd (show R_DIR = R_FREE from htype) (by decide)

end Same

/-- `rfs_link` always returns 0. -/
theorem rfsLink_zero : Sat (rfsLink s v n w) (fun r => r.1 = 0) fun _ => True := by
  unfold rfsLink
  refine Sat.bind (sat_true _ fun _ => trivial) fun l (_ : True) => ?_
  refine Sat.bind (sat_true _ fun _ => trivial) fun r (_ : True) => ?_
  exact Sat.bind (sat_true _ fun _ => trivial) fun s' (_ : True) => rfl

/-- Opening a dentry keeps the vinodes. -/
theorem openDentry_keeps (hk : Keeps s v x s₁) :
    Sat (openDentry s₁ t flags) (fun r => Keeps s v x r.2) fun _ => True := by
  unfold openDentry
  refine Sat.bind (sat_true _ fun _ => trivial) fun u (_ : True) => ?_
  refine Sat.bind (sat_true _ fun _ => trivial) fun y (_ : True) => ?_
  split
  · exact hk
  refine Sat.bind (sat_true _ fun _ => trivial) ?_
  rintro ⟨readable, writable⟩ (_ : True)
  refine Sat.bind (P := fun r => Keeps s v x r.2) ?_ ?_
  · unfold allocVfsFile State.allocPage
    exact Sat.bind (sat_true _ fun _ => trivial) fun e (_ : True) => hk
  rintro ⟨f, s₂⟩ hk₂
  cases y.sb with
  | rfs => exact hk₂
  | hostfs => trivial

/-! ## The calls -/

/-- The path fits the buffer of the lookup, and the first component that is missing does not read
the same as the last one. -/
def State.MissesOther (s : State) (path : Path) (ns : List Name) : Prop :=
  path.1.length < MAX_PATH_LEN ∧ ∀ d n, stop s.disk.entries ns 0 = some (d, n) →
    ns.getLast? ≠ some n

/-- A path that does not fit the buffer is not looked up. -/
theorem not_missesOther (s : State) (ns : List Name) (hlen : ¬ path.1.length < MAX_PATH_LEN) :
    ¬ s.MissesOther path ns ∧
      lookupFinalDentry s path.1 s.vfsRootDentry = .error (.undefined "path_copy") :=
  ⟨fun hm => hlen hm.1, if_pos (Nat.not_lt.1 hlen)⟩

section Calls

variable (h : Inv s) (ht : pathTokens path.1 = ramdisk0 :: ns)
  (hmiss : ∃ k < ns.length, walk s.disk.entries (ns.take k) 0 = none) (hclean : ¬ s.ReadsFile ns)

include h ht hmiss hclean

/-- What the calls find out about the path. -/
theorem Inv.lookup_missing (hlen : path.1.length < MAX_PATH_LEN) :
    ∃ d n b s' t e v x, Extends s s' ∧ Hashed s' t e v ∧ Cached s' d v x ∧
      (x.type = DIR_I ∨ x.type = FILE_I) ∧
      lookupFinalDentry s path.1 s.vfsRootDentry = .ok (.missing t n, s') ∧
      getBaseName path.1 = .ok b ∧ (s.MissesOther path ns ↔ n ≠ b) := by
  obtain ⟨k, hk, hw⟩ := hmiss
  obtain ⟨d, n, hstop⟩ := exists_stop hw
  obtain ⟨s', t, e, v, x, hext, he, hc, hx, hlook⟩ := h.lookup_stop hlen ht hstop hclean
  obtain ⟨b, hb⟩ : ∃ b, ns.getLast? = some b :=
    Option.isSome_iff_exists.1 (List.getLast?_isSome.2 (List.ne_nil_of_length_pos (by omega)))
  refine ⟨d, n, b, s', t, e, v, x, hext, he, hc, hx, hlook, getBaseName_eq ht hb, ?_⟩
  constructor
  · rintro ⟨-, hne⟩ rfl
    exact hne d n hstop hb
  · refine fun hne => ⟨hlen, fun d' n' hstop' hb' => hne ?_⟩
    obtain ⟨-, rfl⟩ := Prod.mk.inj (Option.some.inj (hstop.symm.trans hstop'))
    exact Option.some.inj (hb'.symm.trans hb)

/-- **`vfs_open` with `O_CREAT`.** -/
theorem Inv.vfsOpen_refused_iff (hcreat : flags &&& O_CREAT ≠ 0) :
    CallRefused s none (vfsOpen s path.1 flags) ↔ s.MissesOther path ns := by
  by_cases hlen : path.1.length < MAX_PATH_LEN
  · obtain ⟨d, n, b, s', t, e, v, x, hext, he, hc, hx, hlook, hb, hiff⟩ :=
      h.lookup_missing ht hmiss hclean hlen
    have h' := hext.steps.inv h
    rw [hiff]
    constructor
    · rintro hrefused rfl
      refine not_callRefused (E := fun _ => True) ?_ hrefused
      rw [vfsOpen, hlook, ok_bind]
      dsimp only
      rw [if_neg hcreat]
      refine Sat.bind (createFile_same h' he hc hx hb) ?_
      rintro ⟨t', s₁⟩ ⟨hdir, hkeep⟩
      have hne : ∀ {s₂}, Keeps s' v { x with size := x.size + 32 } s₂ →
          s₂.vol.dir d ≠ s.vol.dir d :=
        fun hk => (hext.steps.quiet h).vol ▸ hk.dir_ne h' hc hdir
      cases t' with
      | none => exact .inr (.inr ⟨d, hne hkeep⟩)
      | some t' => exact (openDentry_keeps hkeep).mono fun r hr => .inr (.inr ⟨d, hne hr⟩)
    · intro hne
      refine hext.refused h ?_
      rw [vfsOpen, hlook, ok_bind]
      dsimp only
      rw [if_neg hcreat, createFile, hb, ok_bind, if_pos hne]
      rfl
  · obtain ⟨hnot, herr⟩ := not_missesOther s ns hlen
    refine iff_of_false ?_ hnot
    rintro ⟨s', hcall, -⟩
    rw [vfsOpen, herr] at hcall
    cases hcall

/-- **`vfs_mkdir`.** -/
theorem Inv.vfsMkdir_refused_iff : CallRefused s (-1) (vfsMkdir s path.1) ↔
    s.MissesOther path ns := by
  by_cases hlen : path.1.length < MAX_PATH_LEN
  · obtain ⟨d, n, b, s', t, e, v, x, hext, he, hc, hx, hlook, hb, hiff⟩ :=
      h.lookup_missing ht hmiss hclean hlen
    have h' := hext.steps.inv h
    rw [hiff]
    constructor
    · rintro hrefused rfl
      refine not_callRefused (E := fun _ => True) ?_ hrefused
      rw [vfsMkdir, hlook, ok_bind]
      dsimp only
      rw [hb, ok_bind, if_neg (not_not.2 rfl), allocVfsDentry_eq, ok_bind]
      dsimp only
      rw [h'.dentryState_inode he, ok_bind]
      refine Sat.bind (viopMkdir_same h' hc hx) ?_
      rintro ⟨r, s₁⟩ hr
      cases r with
      | none => exact .inr (.inl ((hext.steps.quiet h).disk ▸ hr.resolve_left (not_not.2 rfl)))
      | some u =>
        refine Sat.bind (sat_true _ fun _ => trivial) fun s₂ (_ : True) => ?_
        exact Or.inl (show (0 : ℤ) ≠ -1 by decide)
    · intro hne
      refine hext.refused h ?_
      rw [vfsMkdir, hlook, ok_bind]
      dsimp only
      rw [hb, ok_bind, if_pos hne]
      rfl
  · obtain ⟨hnot, herr⟩ := not_missesOther s ns hlen
    refine iff_of_false ?_ hnot
    rintro ⟨s', hcall, -⟩
    rw [vfsMkdir, herr] at hcall
    cases hcall

/-- **`vfs_link`**, from a path whose inner components are directories. -/
theorem Inv.vfsLink_refused_iff {tokens : List Name} (hold : oldpath.1.length < MAX_PATH_LEN)
    (htok : pathTokens oldpath.1 = ramdisk0 :: tokens) (hparents : s.disk.ParentsOk oldpath.1) :
    CallRefused s (-1) (vfsLink s oldpath.1 path.1) ↔ s.MissesOther path ns ∨
      ¬ ∃ i, s.disk.resolve oldpath.1 = some i ∧ (s.disk.dinode i).type = FILE_I := by
  obtain ⟨r, s₁, hr, hext, hres⟩ := lookupFinalDentry_spec h hold htok hparents
  have h₁ := hext.steps.inv h
  have hq := hext.steps.quiet h
  cases r with
  | missing q m =>
    obtain ⟨hnone, -⟩ := hres
    refine iff_of_true (hext.refused h ?_) (.inr ?_)
    · rw [vfsLink, hr]
      rfl
    · rintro ⟨i, hi, -⟩
      rw [hnone] at hi
      cases hi
  | found t₀ q₀ =>
    obtain ⟨j, hj, ⟨e₀, v₀, x₀, he₀, hc₀⟩, -⟩ := hres
    obtain ⟨-, htype⟩ := hext.node_eq h hc₀
    by_cases hfile : x₀.type = FILE_I
    · have hmiss₁ : ∃ k < ns.length, walk s₁.disk.entries (ns.take k) 0 = none := by
        rw [hq.disk]
        exact hmiss
      have hclean₁ : ¬ s₁.ReadsFile ns := by
        have hnode : s₁.node = s.node := congrArg Vol.node hq.vol
        rw [State.ReadsFile, hq.disk, hnode]
        exact hclean
      have hiff₁ : s₁.MissesOther path ns ↔ s.MissesOther path ns := by
        rw [State.MissesOther, State.MissesOther, hq.disk]
      rw [or_iff_left (not_not.2 ⟨j, hj, htype.trans hfile⟩), ← hiff₁]
      rw [vfsLink, hr, ok_bind]
      dsimp only
      rw [he₀.dentryInode, ok_bind, State.vinode_eq_ok.2 hc₀.vinode, ok_bind,
        if_neg (not_not.2 hfile)]
      by_cases hlen : path.1.length < MAX_PATH_LEN
      · obtain ⟨d, n, b, s', t, e, v, x, hext', he, hc, hx, hlook, hb, hiff⟩ :=
          h₁.lookup_missing ht hmiss₁ hclean₁ hlen
        rw [hiff]
        constructor
        · rintro hrefused rfl
          refine not_callRefused (E := fun _ => True) ?_ hrefused
          rw [hlook, ok_bind]
          dsimp only
          rw [hb, ok_bind, if_neg (not_not.2 rfl)]
          refine Sat.bind (sat_true _ fun _ => trivial) fun r (_ : True) => ?_
          refine Sat.bind (sat_true _ fun _ => trivial) fun u (_ : True) => ?_
          refine Sat.bind (P := fun r => r.1 = 0) ?_ ?_
          · rw [viopLink]
            exact Sat.bind (sat_true _ fun _ => trivial) fun _ (_ : True) => rfsLink_zero
          · rintro ⟨err, s₂⟩ herr
            dsimp only at herr
            subst herr
            refine Sat.bind (sat_true _ fun _ => trivial) fun s₃ (_ : True) => ?_
            exact Or.inl (show (0 : ℤ) ≠ -1 by decide)
        · intro hne
          refine (hext.trans hext').refused h ?_
          rw [hlook, ok_bind]
          dsimp only
          rw [hb, ok_bind, if_pos hne]
          rfl
      · obtain ⟨hnot, herr⟩ := not_missesOther s₁ ns hlen
        refine iff_of_false ?_ hnot
        rintro ⟨s', hs', -⟩
        rw [herr] at hs'
        cases hs'
    · refine iff_of_true (hext.refused h ?_) (.inr ?_)
      · rw [vfsLink, hr, ok_bind]
        dsimp only
        rw [he₀.dentryInode, ok_bind, State.vinode_eq_ok.2 hc₀.vinode, ok_bind, if_pos hfile]
        rfl
      · rintro ⟨i, hi, hi'⟩
        obtain rfl := Option.some.inj (hj.symm.trans hi)
        exact hfile (htype.symm.trans hi')

end Calls

/-- **Nothing is created below a missing directory** exactly when the first component that is
missing does not read the same as the last one. -/
theorem nothing_created_iff (h : Reachable s) (ht : pathTokens path.1 = ramdisk0 :: ns)
    (hmiss : ∃ k < ns.length, walk s.disk.entries (ns.take k) 0 = none)
      (hclean : ¬ s.ReadsFile ns) :
    (∀ flags, flags &&& O_CREAT ≠ 0 →
      (CallRefused s none (vfsOpen s path.1 flags) ↔ s.MissesOther path ns)) ∧
    (CallRefused s (-1) (vfsMkdir s path.1) ↔ s.MissesOther path ns) ∧
    ∀ (oldpath : Path) (tokens : List Name), oldpath.1.length < MAX_PATH_LEN →
      pathTokens oldpath.1 = ramdisk0 :: tokens → s.disk.ParentsOk oldpath.1 →
      (CallRefused s (-1) (vfsLink s oldpath.1 path.1) ↔ s.MissesOther path ns ∨
        ¬ ∃ i, s.disk.resolve oldpath.1 = some i ∧ (s.disk.dinode i).type = FILE_I) :=
  ⟨fun _ hcreat => h.inv.vfsOpen_refused_iff ht hmiss hclean hcreat,
    h.inv.vfsMkdir_refused_iff ht hmiss hclean,
    fun _ _ hold htok hparents => h.inv.vfsLink_refused_iff ht hmiss hclean hold htok hparents⟩

/-- `"/RAMDISK0/a/a"`. -/
def pathAA : Path := ⟨[47, 82, 65, 77, 68, 73, 83, 75, 48, 47, 97, 47, 97], by decide⟩

/-- What is missing at the start. -/
theorem start_stop : ∃ s, Reachable s ∧ walk s.disk.entries [[97]] 0 = none ∧
    stop s.disk.entries [[97], [98]] 0 = some (0, [97]) ∧ (s.disk.dinode 0).type = DIR_I ∧
    (vfsMkdir s pathAA.1).toOption.map Prod.fst = some 0 := by
  have hrun : (runFrom blank []).map (fun s =>
      (walk s.disk.entries [[97]] 0, stop s.disk.entries [[97], [98]] 0, (s.disk.dinode 0).type,
        (vfsMkdir s pathAA.1).toOption.map Prod.fst)) =
      some (none, some (0, [97]), DIR_I, some 0) := by decide +kernel
  obtain ⟨s, hs, hval⟩ := Option.map_eq_some_iff.1 hrun
  simp only [Prod.mk.injEq] at hval
  obtain ⟨hw, hstop, htype, hmk⟩ := hval
  exact ⟨s, reachable_of_runFrom hs, hw, hstop, htype, hmk⟩

/-- The directory `"/RAMDISK0/a/b"` is not made at the start. -/
theorem nothing_created_iff_start : ∃ s, Reachable s ∧
    CallRefused s (-1) (vfsMkdir s pathAB.1) := by
  obtain ⟨s, hr, hw, hstop, htype, -⟩ := start_stop
  have ht : pathTokens pathAB.1 = ramdisk0 :: [[97], [98]] := by decide
  have hmiss : ∃ k < [[97], [98]].length, walk s.disk.entries (List.take k [[97], [98]]) 0 = none :=
    ⟨1, by decide, hw⟩
  have hclean : ¬ s.ReadsFile [[97], [98]] := by
    rintro ⟨d, n, hd, hfile, -⟩
    obtain ⟨rfl, -⟩ := Prod.mk.inj (Option.some.inj (hstop.symm.trans hd))
    exact absurd (htype.symm.trans hfile) (by decide)
  refine ⟨s, hr, (nothing_created_iff hr ht hmiss hclean).2.1.2 ⟨by decide, fun d n hd => ?_⟩⟩
  obtain ⟨-, rfl⟩ := Prod.mk.inj (Option.some.inj (hstop.symm.trans hd))
  decide

/-- But `"/RAMDISK0/a/a"` is, as the directory `"a"` of the root. -/
theorem created_below_missing : ∃ s, Reachable s ∧ pathTokens pathAA.1 = ramdisk0 :: [[97], [97]] ∧
    walk s.disk.entries [[97]] 0 = none ∧ ¬ CallRefused s (-1) (vfsMkdir s pathAA.1) := by
  obtain ⟨s, hr, hw, -, -, hmk⟩ := start_stop
  refine ⟨s, hr, by decide, hw, ?_⟩
  rintro ⟨s', hs', -⟩
  rw [hs'] at hmk
  exact absurd (show (-1 : ℤ) = 0 from Option.some.inj hmk) (by decide)

end HustOS.Fs
