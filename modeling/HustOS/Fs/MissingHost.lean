import HustOS.Fs.HostPath

/-!
# Names that the host does not have

`hostfs_lookup` hands out a vinode for every name. For a name that the host does not have, the file
pointer is negative, `hostfs_update_vinode` takes that for a directory, and its return value is not
looked at; so the name is found, and its dentry goes to the table. For no missing name does
`vfs_open` leave the table without it, or get as far as `hostfs_create` (`missing_never`). The
dentry of a new name is one of a directory, and stays it when the host gets the file later
(`vfsOpen_of_late`).
-/

namespace HustOS.Fs

open Foundations

variable {W : Type} {host : Host W} {h h' h₁ h₂ : Hosted W} {s s' : State} {n v w t p q q' : ℕ}
  {string : List UInt8} {front : List Name} {name : Name} {k : Option ℕ × Name} {e e' : Dentry}
    {x : Vinode}

/-! ## A name that is found -/

section Component

variable (hc : DentryCache n v h.toState) (hp : h.dentryInode p = .ok w) (hx : h.vinode w = .ok x)
  (hsb : x.sb = .hostfs)

include hc hp hx hsb

/-- A name that is not in the table is looked up on the host. -/
theorem DentryCache.component_new (hget : hashGetDentry h.toState p name = none) :
    Hosted.component host h p name =
      Hosted.hostfsLookup host { h with toState := dentryState h.toState p name } h.pages >>=
        fun r => match r.1 with
          | none => .ok (none, { r.2 with toState := r.2.freeDentry h.pages })
          | some u => Hosted.lift₀ (Fs.attachFound · h.pages u) r.2 >>= fun h' =>
              .ok (some h.pages, h') := by
  have hpage : h.dentries h.pages = none := hc.fresh _ (Nat.le_refl _)
  have hne : p ≠ h.pages := by
    rintro rfl
    rw [State.dentryInode, State.dentry, hpage] at hp
    cases hp
  have hsame : (dentryState h.toState p name).dentries p = h.dentries p :=
    Function.update_of_ne hne _ _
  have hp₁ : (dentryState h.toState p name).dentryInode p = .ok w := by
    rw [← hp, State.dentryInode, State.dentryInode, State.dentry, State.dentry, hsame]
  have hx₁ : (dentryState h.toState p name).vinode w = .ok x := hx
  have halloc : Hosted.lift (Fs.allocVfsDentry · name none (some p)) h =
      .ok (h.pages, { h with toState := dentryState h.toState p name }) := rfl
  rw [Hosted.component, hget]
  dsimp only
  rw [halloc, ok_bind]
  dsimp only
  rw [hp₁, ok_bind, Hosted.viopLookup]
  dsimp only
  rw [hx₁, ok_bind, hsb]
  rfl

/-- **Below a directory of the host file system every name is found.** -/
theorem DentryCache.component_hostfs :
    Sat (Hosted.component host h p name) (fun r => ∃ t, r.1 = some t) fun _ => True := by
  rcases hget : hashGetDentry h.toState p name with _ | t
  · obtain ⟨-, hc₁, -, -⟩ := hc.allocVfsDentry name none (some p)
    rw [hc.component_new hp hx hsb hget]
    refine Sat.bind (rfs.hostfsLookup hc₁ h.pages) ?_
    rintro ⟨found, h₂⟩ ⟨⟨u, rfl, -⟩, -⟩
    refine Sat.bind (P := fun _ => True) ?_ fun h₃ _ => ⟨_, rfl⟩
    dsimp only
    cases Hosted.lift₀ (Fs.attachFound · h.pages u) h₂ <;> trivial
  · rw [Hosted.component, hget]
    exact ⟨t, rfl⟩

end Component

/-! ## What opening leaves of the table -/

theorem allocVfsFile_table (s : State) (t : ℕ) (readable writable : Bool) :
    Preserves (fun s' => s'.dentryHashTable = s.dentryHashTable) Prod.snd
      (Fs.allocVfsFile s t readable writable) :=
  .read fun _ _ => rfl

theorem Hosted.openDentry_table (h : Hosted W) (t flags : ℕ) :
    Preserves (fun s => s.dentryHashTable = h.dentryHashTable) Hosted.st
      (Hosted.openDentry host h t flags) := by
  rw [Hosted.openDentry]
  refine .read fun v _ => .read fun x _ => .ite rfl (.read fun mode _ => ?_)
  refine Sat.bind (Preserves.lift (allocVfsFile_table h.toState t mode.1 mode.2)) fun r hr => ?_
  cases x.sb with
  | rfs => exact hr
  | hostfs =>
    have hhook : Preserves (fun s => s.dentryHashTable = h.dentryHashTable) Hosted.st
        (Hosted.hostfsHookOpen host r.2 v t) := RfsFrame.hostfsHookOpen hr v t
    exact Sat.bind hhook fun r' hr' => hr'

/-! ## Opening a missing name -/

/-- The path leads to a name below a directory of the host file system: its lookup comes to the
dentry `p` of the directory, and in the state then, `h₁`, the host has the directory and nothing at
the path. -/
structure MissingOnHost (host : Host W) (h : Hosted W) (path : Path) (front : List Name)
    (name : Name) (p : ℕ) (h₁ : Hosted W) : Prop where
  tokens : pathTokens path.1 = front ++ [name]
  parent : ∃ q, Hosted.lookupLoop host front h.vfsRootDentry h.vfsRootDentry h =
    .ok (.found p q, h₁)
  hostfs : ∃ v x, h₁.dentryInode p = .ok v ∧ h₁.vinode v = .ok x ∧ x.sb = .hostfs ∧ x.type = DIR_I
  directory : host.Exists h₁.world (H_ROOT_DIR ++ joined front)
  absent : ¬ host.Exists h₁.world (H_ROOT_DIR ++ joined (front ++ [name]))

/-- `vfs_open` returns `NULL` and leaves no dentry below `p` with the name. -/
def OpenFails (host : Host W) (h : Hosted W) (path : Path) (flags p : ℕ) (name : Name) : Prop :=
  ∃ h', Hosted.vfsOpen host h path.1 flags = .ok (none, h') ∧ hashGetDentry h'.toState p name = none

/-- `vfs_opendir` returns `NULL` and leaves no dentry below `p` with the name. -/
def OpendirFails (host : Host W) (h : Hosted W) (path : Path) (p : ℕ) (name : Name) : Prop :=
  ∃ h', Hosted.vfsOpendir host h path.1 = .ok (none, h') ∧ hashGetDentry h'.toState p name = none

/-- `vfs_open` creates the name below `p` and returns an open regular file. -/
def OpenCreates (host : Host W) (h : Hosted W) (path : Path) (flags p : ℕ) (name : Name) : Prop :=
  (∃ h₁ h₂ t, Hosted.lookupFinalDentry host h path.1 h.vfsRootDentry = .ok (.missing p name, h₁) ∧
    Hosted.createFile host h₁ path.1 p name = .ok (some t, h₂)) ∧
  ∃ h' f file v x, Hosted.vfsOpen host h path.1 flags = .ok (some f, h') ∧
    h'.file f = .ok file ∧ h'.dentryInode file.fDentry = .ok v ∧ h'.vinode v = .ok x ∧
    x.type = FILE_I

namespace MissingOnHost

variable {path : Path} (hm : MissingOnHost host h path front name p h₁)

include hm

/-- The lookup of the path is that of its last component. -/
theorem lookupFinalDentry_eq (hlen : path.1.length < MAX_PATH_LEN) :
    Hosted.lookupFinalDentry host h path.1 h.vfsRootDentry =
      Hosted.component host h₁ p name >>= fun r =>
        match r.1 with
        | none => .ok (.missing p name, r.2)
        | some t => .ok (.found t p, r.2) := by
  obtain ⟨q, hparent⟩ := hm.parent
  rw [Hosted.lookupFinalDentry, if_neg (not_le.2 hlen), hm.tokens,
    Hosted.lookupLoop_append, hparent,
    ok_bind]
  exact Hosted.lookupLoop_cons _ _ _ _ _

theorem lookedUp (hc : DentryCache n v h.toState) :
    LookedUp n v h.toState front (.found p 0) h₁.toState := by
  obtain ⟨q, hparent⟩ := hm.parent
  have hsat : Sat (Hosted.lookupLoop host front h.vfsRootDentry h.vfsRootDentry h)
      (fun r => LookedUp n v h.toState ([] ++ front) r.1 r.2.toState) fun _ => True :=
    hc.lookupLoop hc.walked_root
  rw [hparent] at hsat
  refine ⟨hsat.cache, hsat.grows, fun t q' ht => ?_⟩
  obtain ⟨rfl, -⟩ := Lookup.found.inj ht
  exact hsat.walked _ q rfl

/-- A missing name is found, and then it is in the table. -/
theorem found (hc : DentryCache n v h.toState) :
    Sat (Hosted.lookupFinalDentry host h path.1 h.vfsRootDentry)
      (fun r => ∃ t, r.1 = .found t p ∧ DentryCache n v r.2.toState ∧
        hashGetDentry r.2.toState p name = some t) fun _ => True := by
  obtain ⟨w, x, hp, hx, hsb, -⟩ := hm.hostfs
  have hc₁ : DentryCache n v h₁.toState := (hm.lookedUp hc).cache
  rcases Nat.lt_or_ge path.1.length MAX_PATH_LEN with hlen | hlen
  · rw [hm.lookupFinalDentry_eq hlen]
    refine Sat.bind ((hc₁.component p name).and (hc₁.component_hostfs hp hx hsb)) ?_
    rintro ⟨found, h₂⟩ ⟨⟨hc₂, -, hget⟩, t, rfl⟩
    exact ⟨t, rfl, hc₂, hget t rfl⟩
  · rw [Hosted.lookupFinalDentry, if_pos hlen]
    trivial

/-- `vfs_open` leaves the name in the table. -/
theorem vfsOpen_table (hc : DentryCache n v h.toState) (flags : ℕ) :
    Preserves (fun s => hashGetDentry s p name ≠ none) Hosted.st
      (Hosted.vfsOpen host h path.1 flags) := by
  rw [Hosted.vfsOpen]
  refine Sat.bind (hm.found hc) ?_
  rintro ⟨r, h₂⟩ ⟨t, rfl, -, hget⟩
  refine (Hosted.openDentry_table h₂ t flags).mono fun r hr hnone => ?_
  rw [hashGetDentry, hr] at hnone
  exact Option.some_ne_none t (hget.symm.trans hnone)

/-- `vfs_opendir` leaves the name in the table. -/
theorem vfsOpendir_table (hc : DentryCache n v h.toState) :
    Preserves (fun s => hashGetDentry s p name ≠ none) Hosted.st
      (Hosted.vfsOpendir host h path.1) := by
  rw [Hosted.vfsOpendir]
  refine Sat.bind (hm.found hc) ?_
  rintro ⟨r, h₂⟩ ⟨t, rfl, hc₂, hget⟩
  have hQ : OnDentries fun s => s.dentryHashTable = h₂.dentryHashTable :=
    ⟨fun hs _ hh _ => hh.trans hs⟩
  have hkeep : ∀ s : State, s.dentryHashTable = h₂.dentryHashTable →
      hashGetDentry s p name ≠ none := by
    intro s htable hnone
    rw [hashGetDentry, htable] at hnone
    exact Option.some_ne_none t (hget.symm.trans hnone)
  dsimp only
  change Preserves (fun s => hashGetDentry s p name ≠ none) Hosted.st _
  refine .read fun w _ => .read fun x _ => .ite (hkeep _ rfl) ?_
  have hfile : Preserves (fun s => DentryCache n v s ∧ s.dentryHashTable = h₂.dentryHashTable)
      Prod.snd (Fs.allocVfsFile h₂.toState t true false) :=
    (hc₂.allocVfsFile t true false).and (allocVfsFile_table h₂.toState t true false)
  refine Sat.bind (Preserves.lift hfile) ?_
  rintro ⟨f, h₃⟩ ⟨hc₃, htable⟩
  refine Sat.bind (Preserves.lift₀ (hc₃.viopHookOpendir hQ htable w)) fun h₄ hh₄ => ?_
  exact hkeep _ hh₄.2

end MissingOnHost

/-- **Missing names are never missing.** Whatever the flags are, a name below a directory of the
host file system that the host does not have is in the table after `vfs_open` and `vfs_opendir`,
and `vfs_open` does not create it. -/
theorem missing_never {path : Path} (run : HostedRun host h)
    (hm : MissingOnHost host h path front name p h₁) (flags : ℕ) :
    ¬ OpenFails host h path flags p name ∧ ¬ OpendirFails host h path p name ∧
      ¬ OpenCreates host h path flags p name := by
  obtain ⟨n, v, hc⟩ := run.cache
  refine ⟨?_, ?_, ?_⟩
  · rintro ⟨h', hopen, hnone⟩
    exact (hm.vfsOpen_table hc flags).of_ok hopen hnone
  · rintro ⟨h', hopen, hnone⟩
    exact (hm.vfsOpendir_table hc).of_ok hopen hnone
  · rintro ⟨⟨h₂, -, -, hmiss, -⟩, -⟩
    have hfound := hm.found hc
    rw [hmiss] at hfound
    obtain ⟨t, ht, -⟩ := hfound
    cases ht

/-! ## The directory that is found -/

/-- The vinode of a name that the host does not have. -/
def missingVinode : Vinode where
  size := 0
  type := DIR_I
  nlinks := 0
  blocks := 0
  addrs := fun _ => 0
  inum := 2 ^ 32 - 1
  ref := 0
  iFsInfo := none
  sb := .hostfs

/-- `hostfs_lookup` makes a directory of a path that the host does not open. -/
theorem Hosted.hostfsLookup_missing {string : List UInt8}
    (hpath : localPath h.toState t = .ok string)
    (hneg : (host.spikeFileOpen string O_RDWR 0 h.world).1 < 0) :
    ∃ h₂ : Hosted W, Hosted.hostfsLookup host h t = .ok (some h.pages, h₂) ∧
      h₂.toState = h.allocPage.2.setVinode h.pages missingVinode := by
  rw [Hosted.hostfsLookup, hpath, ok_bind]
  dsimp only
  rw [Hosted.hostfsUpdateVinode, State.vinode_eq_ok.2 (Function.update_self _ _ _), ok_bind]
  dsimp only
  rw [if_pos (by rw [Function.update_self]; exact hneg), pure_eq_ok, ok_bind]
  dsimp only
  rw [Hosted.resetRef, State.vinode_eq_ok.2 (Function.update_self _ _ _), ok_bind, pure_eq_ok,
    ok_bind]
  refine ⟨_, rfl, ?_⟩
  simp only [Hosted.hostfsAllocVinode, State.setVinode, Function.update_idem, missingVinode]
  rfl

/-- A vinode without an inode number goes with its dentry to the table of dentries alone. -/
theorem attachFound_unnumbered (hx : s.vinodes v = some x) (hinum : 2 ^ 31 ≤ x.inum)
    (he : s.dentries t = some e) (hnone : s.dentryHashTable.lookup e.tableKey = none) :
    Fs.attachFound s t v = .ok { s with
      dentries := Function.update s.dentries t (some { e with dentryInode := some v })
      vinodes := Function.update s.vinodes v (some { x with ref := x.ref + 1 })
      dentryHashTable := s.dentryHashTable.insert e.tableKey t } := by
  set e' : Dentry := { e with dentryInode := some v }
  set x' : Vinode := { x with ref := x.ref + 1 }
  have hadd : addRef (s.setDentry t e') v 1 = .ok ((s.setDentry t e').setVinode v x') := by
    have hx₁ : (s.setDentry t e').vinode v = .ok x := State.vinode_eq_ok.2 hx
    rw [addRef, hx₁]
    rfl
  have hvinode : ((s.setDentry t e').setVinode v x').vinode v = .ok x' :=
    State.vinode_eq_ok.2 (Function.update_self _ _ _)
  have hput : hashPutVinode ((s.setDentry t e').setVinode v x') v =
      .ok ((s.setDentry t e').setVinode v x') := by
    rw [hashPutVinode, hvinode, ok_bind, if_pos hinum]
    rfl
  have hdentry : ((s.setDentry t e').setVinode v x').dentry t = .ok e' :=
    State.dentry_eq_ok.2 (Function.update_self _ _ _)
  have hlookup : ((s.setDentry t e').setVinode v x').dentryHashTable.lookup (e'.parent, e'.name) =
      none := hnone
  rw [Fs.attachFound, State.vinode_eq_ok.2 hx, ok_bind, State.dentry_eq_ok.2 he, ok_bind,
    hashGetVinode, if_pos hinum]
  dsimp only
  rw [hadd, ok_bind, hput, ok_bind, Fs.hashPutDentry, hdentry, ok_bind, hlookup]
  rfl

/-- The table has the name below `p` for a directory of the host file system. -/
def CachedDirectory (s : State) (p : ℕ) (name : Name) (t : ℕ) : Prop :=
  hashGetDentry s p name = some t ∧
  ∃ u y, s.dentryInode t = .ok u ∧ s.vinode u = .ok y ∧ y.type = DIR_I ∧ y.sb = .hostfs

/-- A new name that the host does not have becomes a directory. -/
theorem DentryCache.component_missing (hc : DentryCache n v h.toState)
    (hp : h.dentryInode p = .ok w) (hx : h.vinode w = .ok x) (hsb : x.sb = .hostfs)
    (hwalk : Walked h.toState front p) (hget : hashGetDentry h.toState p name = none)
    (hfits : (joined (front ++ [name])).length ≤ 16)
    (habsent : ¬ host.Exists h.world (H_ROOT_DIR ++ joined (front ++ [name]))) :
    ∃ h₂ t, Hosted.component host h p name = .ok (some t, h₂) ∧
      CachedDirectory h₂.toState p name t := by
  obtain ⟨-, hc₁, hg₁, hnew⟩ := hc.allocVfsDentry name none (some p)
  set h₁ : Hosted W := { h with toState := dentryState h.toState p name } with hh₁
  obtain ⟨e, he, hk⟩ := hnew.dentry
  have hwalk₁ : Walked h₁.toState (front ++ [name]) h.pages := (hwalk.mono hg₁).next he hk
  have hpath : localPath h₁.toState h.pages = .ok (H_ROOT_DIR ++ joined (front ++ [name])) := by
    rw [hwalk₁.localPath hc₁, if_neg (not_lt.2 hfits)]
  obtain ⟨h₂, hlook, hh₂⟩ := Hosted.hostfsLookup_missing hpath
    (host.missing h₁.world _ O_RDWR 0 habsent (by decide))
  have hattach := attachFound_unnumbered (s := h₂.toState) (v := h₁.pages) (t := h.pages) (e := e)
    (x := missingVinode) (by rw [hh₂]; exact Function.update_self _ _ _) (by decide)
    (by rw [hh₂]; exact he) (by rw [hh₂, hk]; exact hget)
  rw [hc.component_new hp hx hsb hget, hlook, ok_bind]
  dsimp only
  rw [Hosted.lift₀, hattach]
  refine ⟨_, _, rfl, ?_, h₁.pages, _, ?_,
    State.vinode_eq_ok.2 (Function.update_self _ _ _), rfl, rfl⟩
  · rw [hashGetDentry, hk]
    exact AList.lookup_insert _
  · rw [State.dentryInode, State.dentry_eq_ok.2 (Function.update_self _ _ _)]
    rfl

/-- A lookup that has succeeded succeeds again, whatever has happened on the host. -/
theorem DentryCache.lookupLoop_again {tokens : List Name} {names : List Name}
    (hc : DentryCache n v h.toState) (hw : Walked h.toState names p)
    (hlook : Hosted.lookupLoop host tokens p q h = .ok (.found t q', h₁))
    (hg : Grows h₁.toState h₂.toState) :
    Hosted.lookupLoop host tokens p q h₂ = .ok (.found t q', h₂) := by
  induction tokens generalizing names p q h with
  | nil =>
    rw [Hosted.lookupLoop] at hlook ⊢
    cases hlook
    rfl
  | cons token tokens ih =>
    rw [Hosted.lookupLoop_cons] at hlook
    obtain ⟨⟨found, h₃⟩, hcomp, hrest⟩ := (bind_ok_iff _ _ _).1 hlook
    obtain ⟨hc₃, hg₃, hget⟩ : DentryCache n v h₃.toState ∧ Grows h.toState h₃.toState ∧
        ∀ t, found = some t → hashGetDentry h₃.toState p token = some t := by
      have hsat : Sat (Hosted.component host h p token) _ _ := hc.component p token
      rw [hcomp] at hsat
      exact hsat
    cases found with
    | none => cases hrest
    | some t₁ =>
      obtain ⟨e, he, hk⟩ := hc₃.key _ _ (hget t₁ rfl)
      have hw₃ : Walked h₃.toState (names ++ [token]) t₁ := (hw.mono hg₃).next he hk
      have hsat : Sat (Hosted.lookupLoop host tokens t₁ p h₃)
          (fun r => LookedUp n v h₃.toState ((names ++ [token]) ++ tokens) r.1 r.2.toState)
          fun _ => True := hc₃.lookupLoop hw₃
      dsimp only at hrest
      rw [hrest] at hsat
      have hget₂ : hashGetDentry h₂.toState p token = some t₁ :=
        hg.hashed _ _ (hsat.grows.hashed _ _ (hget t₁ rfl))
      rw [Hosted.lookupLoop, hget₂]
      exact ih hc₃ hw₃ hrest

/-- A directory is not opened. -/
theorem CachedDirectory.openDentry (hd : CachedDirectory h.toState p name t) (flags : ℕ) :
    Hosted.openDentry host h t flags = .ok (none, h) := by
  obtain ⟨-, u, y, hu, hy, hdir, -⟩ := hd
  rw [Hosted.openDentry, hu, ok_bind, hy, ok_bind, if_pos (by rw [hdir]; decide)]
  rfl

/-- An open directory of the host file system. -/
theorem CachedDirectory.opendir (hd : CachedDirectory h.toState p name t)
    (hlook : Hosted.lookupFinalDentry host h' string h'.vfsRootDentry = .ok (.found t q, h)) :
    ∃ f h₃, Hosted.vfsOpendir host h' string = .ok (some f, h₃) := by
  obtain ⟨-, u, y, hu, hy, hdir, hsb⟩ := hd
  obtain ⟨e, he, -⟩ := (bind_ok_iff _ _ _).1 hu
  obtain ⟨s₃, hfile, hvinodes⟩ : ∃ s₃, Fs.allocVfsFile h.toState t true false =
      .ok (h.pages, s₃) ∧ s₃.vinodes = h.vinodes := by
    have he' : h.allocPage.2.dentry t = .ok e := he
    rw [Fs.allocVfsFile]
    dsimp only
    rw [he']
    exact ⟨_, rfl, rfl⟩
  have hhook : Fs.viopHookOpendir s₃ u = .ok s₃ := by
    have hy₃ : s₃.vinode u = .ok y := by rw [State.vinode, hvinodes]; exact hy
    rw [Fs.viopHookOpendir, hy₃, ok_bind, hsb]
    rfl
  rw [Hosted.vfsOpendir, hlook, ok_bind]
  dsimp only
  rw [hu, ok_bind, hy, ok_bind, if_neg (not_not.2 hdir), Hosted.lift, hfile, ok_bind]
  dsimp only
  rw [pure_eq_ok, ok_bind]
  dsimp only
  rw [Hosted.lift₀, hhook]
  exact ⟨_, _, rfl⟩

/-- **The first open of a missing name decides all later ones.** A new name that the host does not
have cannot be opened with any flags, but as a directory; and after that it still cannot be opened,
whatever has happened on the host. -/
theorem MissingOnHost.opens {path : Path} (run : HostedRun host h)
    (hm : MissingOnHost host h path front name p h₁) (hlen : path.1.length < MAX_PATH_LEN)
    (hget : hashGetDentry h₁.toState p name = none)
    (hfits : (joined (front ++ [name])).length ≤ 16) :
    ∃ h₂, (∀ flags, Hosted.vfsOpen host h path.1 flags = .ok (none, h₂)) ∧
      (∃ f h₃, Hosted.vfsOpendir host h path.1 = .ok (some f, h₃)) ∧
      ∀ h₃ : Hosted W, h₃.toState = h₂.toState → ∀ flags,
        Hosted.vfsOpen host h₃ path.1 flags = .ok (none, h₃) := by
  obtain ⟨n, v, hc⟩ := run.cache
  obtain ⟨hc₁, hg₁, hwalked⟩ := hm.lookedUp hc
  obtain ⟨w, x, hp, hx, hsb, -⟩ := hm.hostfs
  obtain ⟨h₂, t, hcomp, hd⟩ :=
    hc₁.component_missing hp hx hsb (hwalked p 0 rfl) hget hfits hm.absent
  have hlook := hm.lookupFinalDentry_eq hlen
  rw [hcomp, ok_bind] at hlook
  dsimp only at hlook
  refine ⟨h₂, fun flags => ?_, ?_, fun h₃ hh₃ flags => ?_⟩
  · rw [Hosted.vfsOpen, hlook, ok_bind]
    exact hd.openDentry flags
  · exact hd.opendir hlook
  · have hg₂ : Grows h₁.toState h₂.toState := by
      have hsat : Sat (Hosted.component host h₁ p name) _ _ := hc₁.component p name
      rw [hcomp] at hsat
      exact hsat.2.1
    rw [← hh₃] at hd hg₂
    obtain ⟨q, hparent⟩ := hm.parent
    have hagain := hc.lookupLoop_again hc.walked_root hparent hg₂
    have hroot : h₃.vfsRootDentry = h.vfsRootDentry := hg₂.root.trans hg₁.root
    rw [Hosted.vfsOpen, Hosted.lookupFinalDentry, if_neg (not_le.2 hlen), hroot, hm.tokens,
      Hosted.lookupLoop_append, hagain, ok_bind]
    dsimp only
    rw [Hosted.lookupLoop, hd.1]
    exact hd.openDentry flags

/-! ## A file that the host gets later -/

/-- A host that has its directory, and the file `a` in it or not. -/
def lateHost : Host Bool where
  spikeFileOpen path flags _ file :=
    if path ≠ H_ROOT_DIR ++ [47, 97] then (-21, file)
    else if file then (3, true)
    else if flags &&& O_CREAT = 0 then (-2, false)
    else (3, true)
  spikeFileStat _ file :=
    ({ stIno := 1, stMode := 0o100644, stNlink := 1, stSize := 0, stBlocks := 0 }, file)
  spikeFileClose _ file := file
  Exists file path := path = H_ROOT_DIR ∨ path = H_ROOT_DIR ++ [47, 97] ∧ file
  missing file path flags mode habsent hflags := by
    by_cases hpath : path = H_ROOT_DIR ++ [47, 97]
    · cases file with
      | true => exact absurd (.inr ⟨hpath, rfl⟩) habsent
      | false =>
        rw [if_neg (not_not.2 hpath), if_neg Bool.false_ne_true, if_pos hflags]
        decide
    · rw [if_pos hpath]
      exact Int.negSucc_lt_zero _

theorem zero_notMem_slashA : (0 : UInt8) ∉ ([47, 97] : List UInt8) := by decide

/-- The path `/a`. -/
def slashA : Path := ⟨[47, 97], zero_notMem_slashA⟩

/-- After `fs_init` the path `/a` leads to a name that the host does not have. -/
theorem exists_missing : ∃ h : Hosted Bool, HostedRun lateHost h ∧
    fsInit blank = .ok h.toState ∧
    MissingOnHost lateHost h slashA [] [97] h.vfsRootDentry h := by
  obtain ⟨h, run, hs, hworld⟩ := exists_booted lateHost false blank
  refine ⟨h, run, hs, by decide, ⟨_, rfl⟩, ?_, .inl (by decide), ?_⟩
  · obtain ⟨s, hs', hinv⟩ := fsInit_inv blank
    obtain rfl := Except.ok.inj (hs'.symm.trans hs)
    obtain ⟨e, v, x, he, -, hx, hdir, hsb⟩ := hinv.tables.root
    refine ⟨v, x, ?_, State.vinode_eq_ok.2 hx, hsb, hdir⟩
    rw [State.dentryInode, State.dentry_eq_ok.2 he.dentry, ok_bind, he.inode]
  · rw [hworld]
    rintro (h | ⟨-, h⟩)
    · revert h
      decide
    · cases h

/-- The path `/a`, opened with the flag `O_RDONLY`. -/
theorem missing_never_slashA : ∃ h : Hosted Bool, HostedRun lateHost h ∧
    MissingOnHost lateHost h slashA [] [97] h.vfsRootDentry h ∧
    ¬ OpenFails lateHost h slashA O_RDONLY h.vfsRootDentry [97] ∧
    ¬ OpendirFails lateHost h slashA h.vfsRootDentry [97] ∧
    ¬ OpenCreates lateHost h slashA O_RDONLY h.vfsRootDentry [97] := by
  obtain ⟨h, run, -, hm⟩ := exists_missing
  exact ⟨h, run, hm, missing_never run hm O_RDONLY⟩

/-- **A missing file becomes a directory.** After `fs_init` the host does not have `/a`. To open it
fails and leaves its dentry in the table, it is not created, it is opened as a directory, and it
cannot be opened either when the host has got it. -/
theorem slashA_becomes_directory : ∃ (h h₂ : Hosted Bool), HostedRun lateHost h ∧
    MissingOnHost lateHost h slashA [] [97] h.vfsRootDentry h ∧
    (Hosted.vfsOpen lateHost h slashA.1 O_RDONLY = .ok (none, h₂) ∧
      ¬ OpenFails lateHost h slashA O_RDONLY h.vfsRootDentry [97]) ∧
    (Hosted.vfsOpen lateHost h slashA.1 (O_RDWR ||| O_CREAT) = .ok (none, h₂) ∧
      ¬ OpenCreates lateHost h slashA (O_RDWR ||| O_CREAT) h.vfsRootDentry [97]) ∧
    (∃ f h₃, Hosted.vfsOpendir lateHost h slashA.1 = .ok (some f, h₃)) ∧
    lateHost.Exists true (H_ROOT_DIR ++ [47, 97]) ∧
    Hosted.vfsOpen lateHost { h₂ with world := true } slashA.1 O_RDONLY =
      .ok (none, { h₂ with world := true }) := by
  obtain ⟨h, run, hs, hm⟩ := exists_missing
  obtain ⟨n, v, hc⟩ := run.cache
  have hnew : hashGetDentry h.toState h.vfsRootDentry [97] = none := by
    have hmap : (fsInit blank).toOption.map (fun s => hashGetDentry s s.vfsRootDentry [97]) =
        some none := by
      decide +kernel
    rw [hs] at hmap
    exact Option.some.inj hmap
  obtain ⟨h₂, hopen, hopendir, hlate⟩ := hm.opens run (by decide) hnew (by decide)
  refine ⟨h, h₂, run, hm, ⟨hopen _, ?_⟩, ⟨hopen _, ?_⟩, hopendir, .inr ⟨rfl, rfl⟩,
    hlate { h₂ with world := true } rfl _⟩
  · rintro ⟨h', hopen', hnone⟩
    exact (hm.vfsOpen_table hc O_RDONLY).of_ok hopen' hnone
  · rintro ⟨-, h', f, -, -, -, hopen', -⟩
    exact nomatch (hopen _).symm.trans hopen'

end HustOS.Fs
