import HustOS.Fs.Frame
import HustOS.Fs.ProcFile
import HustOS.Fs.Run

/-!
# What happens to the open files

Only `alloc_vfs_file` adds an open file, and only `vfs_close` takes one away; the functions of RFS
and of the tables leave the open files as they are (`SameFiles.frame`). So `vfs_open` adds at most
the file it returns (`vfsOpen_files`), and `vfs_unlink` none.
-/

namespace HustOS.Fs

open Foundations

variable {s₀ s s' : State} {t v f : ℕ} {r : ℤ}

/-- The open files stay, and no page is given back. -/
def SameFiles (s s' : State) : Prop := s'.files = s.files ∧ s.pages ≤ s'.pages

theorem SameFiles.frame (s : State) : Frame s.pages (SameFiles s) where
  pages h := h.2
  other h _ hfiles hpages := ⟨hfiles.trans h.1, h.2.trans hpages⟩
  fresh _ h _ := h
  member h _ _ _ _ := h
  free h _ _ _ := h

theorem SameFiles.refl (s : State) : SameFiles s s := ⟨rfl, Nat.le_refl _⟩

/-! ## Reading a file -/

/-- Only the buffer of the device is another one. -/
def SameButBuffer (s s' : State) : Prop := ∃ buf, s' = { s with iobuffer := buf }

theorem SameButBuffer.refl (s : State) : SameButBuffer s s := ⟨s.iobuffer, rfl⟩

theorem SameButBuffer.trans {s'' : State} (h : SameButBuffer s s') (h' : SameButBuffer s' s'') :
    SameButBuffer s s'' := by
  obtain ⟨buf, rfl⟩ := h
  obtain ⟨buf', rfl⟩ := h'
  exact ⟨buf', rfl⟩

theorem SameButBuffer.inv (h : SameButBuffer s s') (hi : Inv s) : Inv s' := by
  obtain ⟨buf, rfl⟩ := h
  exact (Steps.single (P := IsQuiet) (.scratch buf (Nat.le_refl _)) rfl).inv hi

theorem ramdiskRead_buffer {b : ℕ} (h : ramdiskRead s b = .ok s') : SameButBuffer s s' := by
  rw [ramdiskRead] at h
  split at h
  · cases h
  · cases h
    exact ⟨_, rfl⟩

theorem readLoop_buffer {x : Dinode} {n bufOffset blockOffset : ℕ} {buf : Buf} {y : Buf × ℕ × ℕ}
    (h : readLoop x n bufOffset blockOffset buf s = .ok (y, s')) : SameButBuffer s s' := by
  induction n generalizing bufOffset blockOffset buf s with
  | zero =>
    cases h
    exact .refl _
  | succ n ih =>
    rw [readLoop] at h
    obtain ⟨b, -, h⟩ := (bind_ok_iff _ _ _).1 h
    obtain ⟨s₁, h₁, h⟩ := (bind_ok_iff _ _ _).1 h
    exact (ramdiskRead_buffer h₁).trans (ih h)

/-- `rfs_read` changes the buffer of the device only. -/
theorem rfsRead_buffer {len offset : ℕ} {y : ℕ × Buf × ℕ}
    (h : rfsRead s v len offset = .ok (y, s')) :
    SameButBuffer s s' := by
  rw [rfsRead] at h
  obtain ⟨x, -, h⟩ := (bind_ok_iff _ _ _).1 h
  by_cases hsize : x.size < offset
  · simp [hsize] at h
  simp only [hsize, if_false] at h
  generalize (if x.size < offset + len then x.size - offset else len) = n at h
  obtain ⟨b, -, h⟩ := (bind_ok_iff _ _ _).1 h
  obtain ⟨s₁, h₁, h⟩ := (bind_ok_iff _ _ _).1 h
  refine (ramdiskRead_buffer h₁).trans ?_
  split at h
  · cases h
    exact .refl _
  obtain ⟨⟨z, s₂⟩, h₂, h⟩ := (bind_ok_iff _ _ _).1 h
  refine (readLoop_buffer h₂).trans ?_
  split at h
  · cases h
    exact .refl _
  obtain ⟨c, -, h⟩ := (bind_ok_iff _ _ _).1 h
  obtain ⟨s₃, h₃, h⟩ := (bind_ok_iff _ _ _).1 h
  cases h
  exact ramdiskRead_buffer h₃

/-- `vfs_read` changes the offset of the file structure and the buffer of the device only. -/
theorem readFile_ok {file file' : File} {count : ℕ} {o : Option Buf}
    (h : readFile s file count = .ok (r, o, file', s')) :
    file'.fDentry = file.fDentry ∧ SameButBuffer s s' := by
  rw [readFile] at h
  by_cases hread : file.readable
  · simp only [hread, Bool.not_true, Bool.false_eq_true, if_false] at h
    obtain ⟨⟨v, x⟩, -, h⟩ := (bind_ok_iff _ _ _).1 h
    by_cases hx : x.type = FILE_I
    · simp only [hx, ne_eq, not_true_eq_false, if_false] at h
      obtain ⟨_, -, h⟩ := (bind_ok_iff _ _ _).1 h
      obtain ⟨⟨y, s₁⟩, h₁, h⟩ := (bind_ok_iff _ _ _).1 h
      cases h
      exact ⟨rfl, rfsRead_buffer h₁⟩
    · simp only [hx, ne_eq, not_false_eq_true, if_true] at h
      cases h
      exact ⟨rfl, .refl _⟩
  · simp only [hread, Bool.not_false, if_true] at h
    cases h
    exact ⟨rfl, .refl _⟩

theorem lseekFile_ok {file file' : File} {offset whence : ℤ}
    (h : lseekFile s file offset whence = .ok (r, file')) : file'.fDentry = file.fDentry := by
  rw [lseekFile] at h
  obtain ⟨⟨v, x⟩, -, h⟩ := (bind_ok_iff _ _ _).1 h
  by_cases hx : x.type = FILE_I
  · simp only [hx, ne_eq, not_true_eq_false, if_false] at h
    obtain ⟨_, -, h⟩ := (bind_ok_iff _ _ _).1 h
    split at h
    · cases h
      rfl
    · cases h
      rfl
  · simp only [hx, ne_eq, not_false_eq_true, if_true] at h
    cases h
    rfl

/-! ## The operations -/

/-- What happens to the open files when a file is opened. -/
def FileAdded (s : State) : Option ℕ × State → Prop
  | (none, s') => s'.files = s.files
  | (some f, s') => s.files.lookup f = none ∧ ∃ fl, s'.files = s.files.insert f fl

theorem openDentry_files (h : Inv s₀) (hs : SameFiles s₀ s) (t flags : ℕ) :
    Sat (openDentry s t flags) (FileAdded s₀) fun _ => True := by
  rw [openDentry]
  refine Sat.bind (P := fun _ => True) (by cases s.dentryInode t <;> trivial) fun v _ => ?_
  refine Sat.bind (P := fun _ => True) (by cases s.vinode v <;> trivial) fun x _ => ?_
  split
  · exact hs.1
  refine Sat.bind (P := fun _ => True) (by cases fileMode flags <;> trivial) fun mode _ => ?_
  obtain ⟨readable, writable⟩ := mode
  dsimp only
  unfold allocVfsFile
  cases hd : s.allocPage.2.dentry t with
  | error e =>
    simp only [hd, error_bind]
    trivial
  | ok e =>
    simp only [hd, ok_bind, pure_eq_ok]
    cases x.sb with
    | rfs =>
      exact ⟨(h.tables.fresh _ hs.2).2.2,
        { readable := readable, writable := writable, offset := 0, fDentry := t },
        congrArg (AList.insert _ _) hs.1⟩
    | hostfs => trivial

/-- `vfs_open` adds the file it returns to the open files. -/
theorem vfsOpen_files (h : Inv s) (path : List UInt8) (flags : ℕ) :
    Sat (vfsOpen s path flags) (FileAdded s) fun _ => True := by
  have hframe := SameFiles.frame s
  rw [vfsOpen]
  refine Sat.bind (hframe.lookupFinalDentry (.refl s) _ _) ?_
  rintro ⟨r, s₁⟩ h₁
  cases r with
  | found t q => exact openDentry_files h h₁ t flags
  | missing parent name =>
    dsimp only
    split
    · exact h₁.1
    refine Sat.bind (hframe.createFile h₁ path parent name) ?_
    rintro ⟨t, s₂⟩ h₂
    cases t with
    | none => exact h₂.1
    | some t => exact openDentry_files h h₂ t flags

/-- The open file `f` is one of a file. -/
def State.IsFile (s : State) (f : ℕ) : Prop := ∃ fl e v x, s.files.lookup f = some fl ∧
  Hashed s fl.fDentry e v ∧ s.vinodes v = some x ∧ x.type = FILE_I

theorem OpenPost.isFile {o : Option ℕ × State} (h : OpenPost s t o) (hf : o.1 = some f) :
    o.2.IsFile f := by
  rcases h with ⟨hnone, -⟩ | ⟨fl, e, v, x, hsome, rfl, he, hx, htype, hs⟩
  · rw [hnone] at hf
    cases hf
  · obtain rfl := Option.some.inj (hsome.symm.trans hf)
    rw [hs]
    exact ⟨fl, _, v, x, AList.lookup_insert _, ⟨Function.update_self _ _ _, he.hash, he.inode⟩, hx,
      htype⟩

/-- Without `O_CREAT`, `vfs_open` keeps the invariant; what it opens is a file. -/
theorem vfsOpen_rdonly {path : Path} (h : Inv s) (hp : s.disk.ParentsOk path.1) :
    Sat (vfsOpen s path.1 O_RDONLY) (fun r => Inv r.2 ∧ ∀ f, r.1 = some f → r.2.IsFile f)
      fun _ => True := by
  rw [vfsOpen]
  refine Sat.bind ((lookupFinalDentry_sat h hp).mono' fun _ _ => trivial) ?_
  rintro ⟨r, s₁⟩ ⟨hext, hr⟩
  have h₁ : Inv s₁ := hext.steps.inv h
  have hopen : ∀ t e v, Hashed s₁ t e v → Sat (openDentry s₁ t O_RDONLY)
      (fun r => Inv r.2 ∧ ∀ f, r.1 = some f → r.2.IsFile f) fun _ => True := by
    intro t e v he
    refine ((openDentry_sat he).mono fun r hpost => ?_).mono' fun _ _ => trivial
    exact ⟨(hpost.steps h₁).inv h₁, fun f hf => hpost.isFile hf⟩
  cases r with
  | missing parent name => exact ⟨h₁, fun f hf => absurd hf (by simp)⟩
  | found t q =>
    rcases hr with hr | ⟨j, -, ⟨e, v, x, he, -⟩, -⟩
    · obtain ⟨rfl, -⟩ := Lookup.found.inj hr
      obtain ⟨e, v, x, he, -⟩ := h₁.tables.root
      rw [← (hext.steps.quiet h).root]
      exact hopen _ e v he
    · exact hopen t e v he

/-- `vfs_close` takes the open file away, or does nothing if it is none of a file. -/
theorem vfsClose_files (h : Inv s) (hclose : vfsClose s f = .ok (r, s')) : Inv s' ∧
    (r = -1 ∧ s' = s ∧ ¬ s.IsFile f ∨ r = 0 ∧ f ∈ s.files.keys ∧ s'.files = s.files.erase f) := by
  have hsat := vfsClose_sat (f := f) h
  rw [hclose] at hsat
  rcases hsat with ⟨fl, e, v, x, hr, hs, hf, he, hx, htype⟩ | ⟨fl, e, i, v, x, hr, hf, he,
    hc, hx, hpost⟩
  · dsimp only at hr hs
    subst hs
    refine ⟨h, .inl ⟨hr, rfl, ?_⟩⟩
    rintro ⟨fl', e', v', x', hf', he', hx', htype'⟩
    cases hf.symm.trans hf'
    obtain ⟨rfl, rfl⟩ := he.unique he'
    cases hx.symm.trans hx'
    exact htype htype'
  · have hmem : f ∈ s.files.keys := by
      by_contra hnot
      rw [AList.lookup_eq_none.2 hnot] at hf
      cases hf
    refine ⟨(hpost.steps hf he hc hx).inv h, .inr ⟨hr, hmem, ?_⟩⟩
    cases hpost with
    | shared dRef => rfl
    | named dRef ref => rfl
    | last dRef ref disk => rfl

/-- A path that resolves begins at the mount point. -/
theorem Disk.tokens_of_resolve {dk : Disk} {path : List UInt8} {j : ℕ}
    (hj : dk.resolve path = some j) :
    ∃ ns, pathTokens path = ramdisk0 :: ns ∧ walk dk.entries ns 0 = some j := by
  rw [Disk.resolve] at hj
  cases hpath : pathTokens path with
  | nil =>
    rw [hpath] at hj
    cases hj
  | cons n ns =>
    rw [hpath] at hj
    by_cases hn : n = ramdisk0
    · subst hn
      exact ⟨ns, rfl, hj⟩
    · simp [hn] at hj

/-- **`vfs_unlink` of a file** returns 0 exactly if no open file points to its dentry, and -1
otherwise. -/
theorem vfsUnlink_found {path : Path} {j : ℕ} (h : Inv s) (hlen : path.1.length < MAX_PATH_LEN)
    (hp : s.disk.ParentsOk path.1) (hj : s.disk.resolve path.1 = some j)
    (hfile : (s.disk.dinode j).type = FILE_I) :
    ∃ t q s₁ r s', lookupFinalDentry s path.1 s.vfsRootDentry = .ok (.found t q, s₁) ∧
      vfsUnlink s path.1 = .ok (r, s') ∧ (r = 0 ∨ r = -1) ∧
      (r = 0 ↔ tally s.files (fun fl => fl.fDentry = t) = 0) := by
  obtain ⟨ns, hns, -⟩ := Disk.tokens_of_resolve hj
  obtain ⟨r, s₁, hlook, hext, hres⟩ := lookupFinalDentry_spec h hlen hns hp
  rw [hj] at hres
  cases r with
  | missing q n => cases hres.1
  | found t q =>
    obtain ⟨j', hj', ⟨e, v, x, he, hc⟩, hfound⟩ := hres
    obtain rfl := Option.some.inj hj'
    have h₁ : Inv s₁ := hext.steps.inv h
    have hx : x.type = FILE_I := by
      rw [← (h₁.sync _ _ _ hc).type, (hext.steps.quiet h).disk, hfile]
    have hcount : e.dRef = tally s.files fun fl => fl.fDentry = t := by
      rw [h₁.tables.dRef t e v he, hext.files]
    have hnr := (h₁.file_ne_root hc hx he).2
    obtain ⟨e₂, v₂, x₂, d, he₂, hc₂, hpar, ⟨ep, vd, y, hep, hy⟩, hm⟩ := hfound.resolve_left hnr
    obtain ⟨rfl, rfl⟩ := he₂.unique he
    have hrun : vfsUnlink s path.1 =
        if 0 < e.dRef then .ok (-1, s₁) else unlinkTail s₁ t v vd e.name := by
      rw [vfsUnlink, hlook, ok_bind]
      dsimp only
      rw [State.dentry_eq_ok.2 he.dentry, ok_bind, he.dentryInode, ok_bind,
        State.vinode_eq_ok.2 hc.vinode, ok_bind, if_neg (not_not.2 hx), hep.dentryInode, ok_bind]
      rfl
    by_cases hopen : 0 < e.dRef
    · refine ⟨t, q, s₁, -1, s₁, hlook, hrun.trans (if_pos hopen), .inr rfl, ?_⟩
      exact iff_of_false (by decide) (by omega)
    · obtain ⟨s', hs', -⟩ := unlinkTail_eq h₁ he hc hx hpar ⟨ep, vd, y, hep, hy⟩ hm (by omega) hy
      refine ⟨t, q, s₁, 0, s', hlook, (hrun.trans (if_neg hopen)).trans hs', .inl rfl, ?_⟩
      exact iff_of_true rfl (by omega)

/-- `vfs_close` on the structure of an open file. -/
theorem vfsClose_eq {file : File} (hf : s.file f = .ok file)
    (hclose : closeFile s file = .ok (r, s')) :
    vfsClose s f = .ok (r, if r = 0 then { s' with files := s'.files.erase f } else s') := by
  rw [closeFile] at hclose
  obtain ⟨⟨v, x⟩, hv, hclose⟩ := (bind_ok_iff _ _ _).1 hclose
  rw [File.vinode] at hv
  obtain ⟨v', hv', hv⟩ := (bind_ok_iff _ _ _).1 hv
  obtain ⟨x', hx', hv⟩ := (bind_ok_iff _ _ _).1 hv
  cases hv
  rw [vfsClose, hf, ok_bind]
  dsimp only
  rw [hv', ok_bind, hx', ok_bind]
  by_cases hx : x.type = FILE_I
  · simp only [hx, ne_eq, not_true_eq_false, if_false] at hclose ⊢
    obtain ⟨_, hsb, hclose⟩ := (bind_ok_iff _ _ _).1 hclose
    obtain ⟨e, he, hclose⟩ := (bind_ok_iff _ _ _).1 hclose
    obtain ⟨s₁, h₁, hclose⟩ := (bind_ok_iff _ _ _).1 hclose
    cases hclose
    rw [hsb, ok_bind, he, ok_bind, h₁, ok_bind]
    rfl
  · simp only [hx, ne_eq, not_false_eq_true, if_true] at hclose ⊢
    cases hclose
    rfl

end HustOS.Fs
