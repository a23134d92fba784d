import HustOS.Fs.ProcFile
import HustOS.Fs.Run

/-!
# The number of open files

`do_open` and `do_opendir` add one to `nfiles`, and nothing ever takes one off: `vfs_close` and
`vfs_closedir` set the status of the element only. So `nfiles` is the number of open files as long
as none is closed (`accounted_iff`), and after 128 files have been opened and closed `do_open` stops
the kernel with an empty table.
-/

namespace HustOS.Fs

open Foundations

variable {w w' : Files} {c : FdCall} {r fd : ℤ} {p : ProcFiles} {i : Fin MAX_FILES} {x : Fd}

/-! ## Counting -/

/-- The elements with the status `FD_OPENED`. -/
def ProcFiles.opened (p : ProcFiles) : Finset (Fin MAX_FILES) :=
  Finset.univ.filter fun i => (p.openedFiles i).IsOpened

/-- `nfiles` is the number of open files. -/
def ProcFiles.Accounted (p : ProcFiles) : Prop := p.nfiles = p.opened.card

theorem ProcFiles.mem_opened : i ∈ p.opened ↔ (p.openedFiles i).IsOpened := by
  simp [ProcFiles.opened]

theorem opened_update (hx : x.IsOpened) (n : ℕ) :
    ProcFiles.opened ⟨Function.update p.openedFiles i x, n⟩ = insert i p.opened := by
  ext j
  by_cases hj : j = i
  · subst hj
    simp [ProcFiles.opened, hx]
  · simp [ProcFiles.opened, hj]

theorem opened_update_none (hx : ¬ x.IsOpened) (n : ℕ) :
    ProcFiles.opened ⟨Function.update p.openedFiles i x, n⟩ = p.opened.erase i := by
  ext j
  by_cases hj : j = i
  · subst hj
    simp [ProcFiles.opened, hx]
  · simp [ProcFiles.opened, hj]

/-- A file that is put into a free element is counted. -/
theorem ProcFiles.Accounted.install (h : p.Accounted) (hi : ¬ (p.openedFiles i).IsOpened) (f : ℕ) :
    (p.install i f).Accounted := by
  have hnot : i ∉ p.opened := fun hm => hi (ProcFiles.mem_opened.1 hm)
  have hopened : (Fd.opened f).IsOpened := trivial
  rw [Accounted, ProcFiles.install, opened_update hopened, Finset.card_insert_of_notMem hnot, ← h]

/-- There is a free element as long as not all are counted. -/
theorem freeEntry_of_lt (h : p.opened.card < MAX_FILES) :
    ∃ i, freeEntry p = some i ∧ ¬ (p.openedFiles i).IsOpened := by
  rw [freeEntry]
  cases hf : (List.finRange MAX_FILES).find? fun i => ¬ (p.openedFiles i).IsOpened with
  | none =>
    have hall : ∀ i, (p.openedFiles i).IsOpened := by
      intro i
      have hi := List.find?_eq_none.1 hf i (List.mem_finRange i)
      simpa using hi
    have huniv : p.opened = Finset.univ := by
      ext i
      simp [ProcFiles.mem_opened, hall i]
    rw [huniv, Finset.card_univ, Fintype.card_fin] at h
    exact absurd h (lt_irrefl _)
  | some i =>
    have hi := List.find?_some hf
    exact ⟨i, rfl, by simpa using hi⟩

/-! ## Runs -/

/-- The descriptor is one of an open file. -/
def Files.Valid (w : Files) (fd : ℤ) : Prop := ∃ i : Fin MAX_FILES, fd = i ∧ (w.entry fd).IsOpened

/-- The call closes its descriptor: `do_close` of a file, or `do_closedir` of a directory. -/
def Closes (w : Files) : FdCall → Prop
  | .close fd => ∃ file v x, (w.entry fd).file w.fs = .ok file ∧ file.vinode w.fs = .ok (v, x) ∧
      x.type = FILE_I
  | .closedir fd => ∃ file v x, (w.entry fd).file w.fs = .ok file ∧ file.vinode w.fs = .ok (v, x) ∧
      x.type = DIR_I
  | _ => False

/-- What a process reaches with calls on valid descriptors that satisfy `C` where they are made,
while other processes do anything to the file system. -/
inductive Calls (C : Files → FdCall → Prop) : Files → Prop
  | init (fs : State) (junk : Fin MAX_FILES → File) : Calls C ⟨fs, initProcFileManagement junk⟩
  | other {w : Files} (calls : Calls C w) (fs : State) : Calls C { w with fs := fs }
  | step {w w' : Files} {c : FdCall} {r : ℤ} (calls : Calls C w) (valid : ∀ fd ∈ c.fd, w.Valid fd)
      (cond : C w c) (run : c.run w = .ok (r, w')) : Calls C w'

/-- The status of the elements and `nfiles` stay. -/
def SameStatus (p p' : ProcFiles) : Prop :=
  p'.nfiles = p.nfiles ∧ ∀ i, (p'.openedFiles i).IsOpened ↔ (p.openedFiles i).IsOpened

theorem SameStatus.count_iff (h : SameStatus p w.pfiles) : w.pfiles.Accounted ↔ p.Accounted := by
  have hopened : w.pfiles.opened = p.opened := by
    ext i
    rw [ProcFiles.mem_opened, ProcFiles.mem_opened, h.2]
  rw [ProcFiles.Accounted, ProcFiles.Accounted, h.1, hopened]

theorem sameStatus_store (fs : State) (file : File) :
    SameStatus w.pfiles (w.setEntry fd ((w.entry fd).store fs file)).pfiles := by
  refine ⟨rfl, fun i => ?_⟩
  by_cases hi : i = getOpenedFile fd
  · subst hi
    simp only [Files.setEntry, Function.update_self, Files.entry]
    cases w.pfiles.openedFiles (getOpenedFile fd) <;> rfl
  · simp only [Files.setEntry, Function.update_of_ne hi]

/-- The elements after one of them is freed. -/
def ProcFiles.free (p : ProcFiles) (i : Fin MAX_FILES) (file : File) : ProcFiles :=
  { p with openedFiles := Function.update p.openedFiles i (.none file) }

/-- What a call that returns does to the elements and to `nfiles`. -/
inductive Change (w : Files) (c : FdCall) (w' : Files) : Prop
  | same (status : SameStatus w.pfiles w'.pfiles) (no : ¬ Closes w c)
  | opens {i : Fin MAX_FILES} {f : ℕ} (free : ¬ (w.pfiles.openedFiles i).IsOpened)
      (pfiles : w'.pfiles = w.pfiles.install i f) (no : ¬ Closes w c)
  | replaces {f : ℕ} (full : freeEntry w.pfiles = none) (lt : w.pfiles.nfiles < MAX_FILES)
      (pfiles : w'.pfiles = w.pfiles.install (Fin.last _) f) (no : ¬ Closes w c)
  | closes {fd : ℤ} {file : File} (of : c.fd = some fd)
      (pfiles : w'.pfiles = w.pfiles.free (getOpenedFile fd) file) (yes : Closes w c)

theorem SameStatus.refl (p : ProcFiles) : SameStatus p p := ⟨rfl, fun _ => Iff.rfl⟩

theorem doOpen_change {path : Path} {flags : ℕ} (h : w.doOpen path.1 flags = .ok (r, w')) :
    Change w (.open path flags) w' := by
  rw [Files.doOpen] at h
  obtain ⟨⟨f, fs⟩, -, h⟩ := (bind_ok_iff _ _ _).1 h
  cases f with
  | none =>
    cases h
    exact .same (.refl _) id
  | some f =>
    by_cases hn : MAX_FILES ≤ w.pfiles.nfiles
    · simp [hn] at h
    · simp only [hn, if_false] at h
      cases hf : freeEntry w.pfiles with
      | none =>
        rw [hf] at h
        cases h
        exact .replaces hf (by omega) rfl id
      | some i =>
        rw [hf] at h
        cases h
        have hi := List.find?_some hf
        exact .opens (by simpa using hi) rfl id

theorem doOpendir_change {path : Path} (h : w.doOpendir path.1 = .ok (r, w')) :
    Change w (.opendir path) w' := by
  rw [Files.doOpendir] at h
  obtain ⟨⟨f, fs⟩, -, h⟩ := (bind_ok_iff _ _ _).1 h
  cases f with
  | none =>
    cases h
    exact .same (.refl _) id
  | some f =>
    cases hf : freeEntry w.pfiles with
    | none => simp [hf] at h
    | some i =>
      simp only [hf] at h
      cases h
      have hi := List.find?_some hf
      exact .opens (by simpa using hi) rfl id

theorem setEntry_release (fs : State) (file : File) :
    (w.setEntry fd ((w.entry fd).release fs file)).pfiles =
      w.pfiles.free (getOpenedFile fd) file := by
  rw [Files.setEntry, ProcFiles.free]
  cases w.entry fd <;> rfl

theorem doClose_change (h : w.doClose fd = .ok (r, w')) : Change w (.close fd) w' := by
  rw [Files.doClose] at h
  obtain ⟨file, hfile, h⟩ := (bind_ok_iff _ _ _).1 h
  obtain ⟨⟨r', fs⟩, hclose, h⟩ := (bind_ok_iff _ _ _).1 h
  obtain ⟨v, x, hv, ⟨hx, rfl⟩ | ⟨hx, rfl, rfl⟩⟩ := closeFile_ok hclose
  · cases h
    exact .closes rfl (setEntry_release fs file) ⟨file, v, x, hfile, hv, hx⟩
  · cases h
    refine .same (.refl _) ?_
    rintro ⟨file', v', x', hfile', hv', hx'⟩
    cases hfile.symm.trans hfile'
    cases hv.symm.trans hv'
    exact hx hx'

theorem doClosedir_change (h : w.doClosedir fd = .ok (r, w')) : Change w (.closedir fd) w' := by
  rw [Files.doClosedir] at h
  obtain ⟨file, hfile, h⟩ := (bind_ok_iff _ _ _).1 h
  obtain ⟨⟨r', fs⟩, hclose, h⟩ := (bind_ok_iff _ _ _).1 h
  obtain ⟨v, x, hv, ⟨hx, rfl⟩ | ⟨hx, rfl, rfl⟩⟩ := closedirFile_ok hclose
  · cases h
    exact .closes rfl (setEntry_release fs file) ⟨file, v, x, hfile, hv, hx⟩
  · cases h
    refine .same (.refl _) ?_
    rintro ⟨file', v', x', hfile', hv', hx'⟩
    cases hfile.symm.trans hfile'
    cases hv.symm.trans hv'
    exact hx hx'

theorem FdCall.change (h : c.run w = .ok (r, w')) : Change w c w' := by
  cases c with
  | «open» path flags => exact doOpen_change h
  | opendir path => exact doOpendir_change h
  | read fd count =>
    obtain ⟨⟨⟨len, buf⟩, w₁⟩, h₁, h⟩ := (bind_ok_iff _ _ _).1 h
    cases h
    rw [Files.doRead] at h₁
    obtain ⟨file, -, h₁⟩ := (bind_ok_iff _ _ _).1 h₁
    by_cases hr : file.readable
    · simp only [hr, Bool.not_true, Bool.false_eq_true, if_false] at h₁
      obtain ⟨y, -, h₁⟩ := (bind_ok_iff _ _ _).1 h₁
      cases h₁
      exact .same (sameStatus_store _ _) id
    · simp [hr] at h₁
  | write fd buf count =>
    change w.doWrite fd buf count = _ at h
    rw [Files.doWrite] at h
    obtain ⟨file, -, h⟩ := (bind_ok_iff _ _ _).1 h
    by_cases hr : file.writable
    · simp only [hr, Bool.not_true, Bool.false_eq_true, if_false] at h
      obtain ⟨y, -, h⟩ := (bind_ok_iff _ _ _).1 h
      cases h
      exact .same (sameStatus_store _ _) id
    · simp [hr] at h
  | lseek fd offset whence =>
    change w.doLseek fd offset whence = _ at h
    rw [Files.doLseek] at h
    obtain ⟨file, -, h⟩ := (bind_ok_iff _ _ _).1 h
    obtain ⟨y, -, h⟩ := (bind_ok_iff _ _ _).1 h
    cases h
    exact .same (sameStatus_store _ _) id
  | stat fd =>
    obtain ⟨x, -, h⟩ := (bind_ok_iff _ _ _).1 h
    cases h
    exact .same (.refl _) id
  | close fd => exact doClose_change h
  | readdir fd =>
    obtain ⟨⟨⟨r₁, e⟩, w₁⟩, h₁, h⟩ := (bind_ok_iff _ _ _).1 h
    cases h
    rw [Files.doReaddir] at h₁
    obtain ⟨file, -, h₁⟩ := (bind_ok_iff _ _ _).1 h₁
    obtain ⟨y, -, h₁⟩ := (bind_ok_iff _ _ _).1 h₁
    cases h₁
    exact .same (sameStatus_store _ _) id
  | closedir fd => exact doClosedir_change h

/-- A file that is closed is still counted. -/
theorem not_accounted_free {file : File} (h : p.Accounted) (hi : (p.openedFiles i).IsOpened) :
    ¬ (p.free i file).Accounted := by
  have hmem : i ∈ p.opened := ProcFiles.mem_opened.2 hi
  have hnone : ¬ (Fd.none file).IsOpened := id
  have hpos := Finset.card_pos.2 ⟨i, hmem⟩
  have hn : p.nfiles = p.opened.card := h
  rw [ProcFiles.Accounted, ProcFiles.free, opened_update_none hnone, Finset.card_erase_of_mem hmem]
  change ¬ p.nfiles = p.opened.card - 1
  omega

theorem Change.keeps_count_iff (hc : Change w c w') (h : w.pfiles.Accounted)
    (hvalid : ∀ fd ∈ c.fd, w.Valid fd) : w'.pfiles.Accounted ↔ ¬ Closes w c := by
  cases hc with
  | same status no => exact iff_of_true (status.count_iff.2 h) no
  | opens free pfiles no => exact iff_of_true (pfiles ▸ h.install free _) no
  | replaces full lt pfiles no =>
    have hn : w.pfiles.nfiles = w.pfiles.opened.card := h
    obtain ⟨i, hi, -⟩ := freeEntry_of_lt (p := w.pfiles) (by omega)
    rw [full] at hi
    cases hi
  | @closes fd file of pfiles yes =>
    obtain ⟨i, rfl, hopened⟩ := hvalid fd of
    rw [pfiles]
    exact iff_of_false (not_accounted_free h hopened) (not_not.2 yes)

theorem Calls.accounted (h : Calls (fun w c => ¬ Closes w c) w) : w.pfiles.Accounted := by
  induction h with
  | init fs junk =>
    have hnone : (initProcFileManagement junk).opened = ∅ := by
      ext i
      simp [ProcFiles.mem_opened, initProcFileManagement, Fd.IsOpened]
    rw [ProcFiles.Accounted, hnone]
    rfl
  | other _ fs ih => exact ih
  | step _ valid cond run ih => exact ((FdCall.change run).keeps_count_iff ih valid).2 cond

/-- **The number of open files.** In every state that a process reaches without closing anything,
`nfiles` is the number of open files, `do_open` returns a descriptor for a file that the virtual
file system opens as long as there is a free element, and a further call keeps the count exactly if
it closes nothing. -/
theorem accounted_iff (h : Calls (fun w c => ¬ Closes w c) w) : w.pfiles.Accounted ∧
    (∀ path flags f fs, vfsOpen w.fs path flags = .ok (some f, fs) →
      (∃ i, ¬ (w.pfiles.openedFiles i).IsOpened) → ∃ i w', w.doOpen path flags = .ok (i, w')) ∧
    ∀ c r w', (∀ fd ∈ c.fd, w.Valid fd) → FdCall.run c w = .ok (r, w') →
      (w'.pfiles.Accounted ↔ ¬ Closes w c) := by
  refine ⟨h.accounted, fun path flags f fs hopen ⟨i, hi⟩ => ?_, fun c r w' hvalid hrun =>
    (FdCall.change hrun).keeps_count_iff h.accounted hvalid⟩
  have hn : w.pfiles.nfiles = w.pfiles.opened.card := h.accounted
  have hlt : w.pfiles.opened.card < MAX_FILES := by
    have hcard := Finset.card_lt_univ_of_notMem fun hm => hi (ProcFiles.mem_opened.1 hm)
    rwa [Fintype.card_fin] at hcard
  obtain ⟨j, hj, -⟩ := freeEntry_of_lt hlt
  have hno : ¬ MAX_FILES ≤ w.pfiles.nfiles := by omega
  refine ⟨j, ⟨fs, w.pfiles.install j f⟩, ?_⟩
  rw [Files.doOpen, hopen, ok_bind]
  simp only [hno, if_false, hj]
  rfl

/-! ## A file that is closed -/

instance (w : Files) (fd : ℤ) : Decidable (w.Valid fd) :=
  inferInstanceAs (Decidable (∃ i : Fin MAX_FILES, fd = i ∧ (w.entry fd).IsOpened))

/-- The files of a process that has opened nothing, in a system that has just started. -/
def freshFiles (fs : State) : Files where
  fs := fs
  pfiles := initProcFileManagement fun _ =>
    { readable := false, writable := false, offset := 0, fDentry := 0 }

/-- Start up and make calls on valid descriptors. -/
def callsFrom (boot : Boot) (cs : List FdCall) : Option Files :=
  (fsInit boot).toOption.bind fun fs => cs.foldlM (fun w c =>
    if ∀ fd ∈ c.fd, w.Valid fd then (c.run w).toOption.map Prod.snd else none) (freshFiles fs)

theorem Calls.foldlM {C : Files → FdCall → Prop} {cs : List FdCall} (h : Calls C w)
    (hC : ∀ c ∈ cs, ∀ w, C w c)
    (hcs : cs.foldlM (fun w c => if ∀ fd ∈ c.fd,
      w.Valid fd then (FdCall.run c w).toOption.map Prod.snd
      else none) w = some w') : Calls C w' := by
  induction cs generalizing w with
  | nil => exact Option.some.inj hcs ▸ h
  | cons c cs ih =>
    rw [List.foldlM_cons] at hcs
    obtain ⟨w₁, h₁, hcs⟩ := Option.bind_eq_some_iff.1 hcs
    split at h₁
    · rename_i hvalid
      obtain ⟨⟨r, w₂⟩, hrun, rfl⟩ := Option.map_eq_some_iff.1 h₁
      exact ih (h.step hvalid (hC c List.mem_cons_self w) (toOption_eq_some.1 hrun))
        (fun c' hc' => hC c' (List.mem_cons_of_mem _ hc')) hcs
    · cases h₁

theorem Calls.of_callsFrom {C : Files → FdCall → Prop} {boot : Boot} {cs : List FdCall}
    (hC : ∀ c ∈ cs, ∀ w, C w c) (h : callsFrom boot cs = some w) : Calls C w := by
  obtain ⟨fs, -, h⟩ := Option.bind_eq_some_iff.1 h
  exact Calls.foldlM (.init fs _) hC h

/-- A file is open. -/
theorem accounted_iff_opened : ∃ w, Calls (fun w c => ¬ Closes w c) w ∧ w.pfiles.opened = {0} ∧
    w.pfiles.Accounted := by
  have htest : (callsFrom blank [.open pathA (O_CREAT + O_RDWR)]).map (fun w => w.pfiles.opened) =
      some {0} := by decide +kernel
  obtain ⟨w, hw, hopened⟩ := Option.map_eq_some_iff.1 htest
  have hcalls : Calls (fun w c => ¬ Closes w c) w :=
    .of_callsFrom (fun c hc w => List.mem_singleton.1 hc ▸ id) hw
  exact ⟨w, hcalls, hopened, (accounted_iff hcalls).1⟩

/-- **A file that is counted after it was closed.** -/
theorem accounted_lost : ¬ ∀ w, Calls (fun _ _ => True) w → w.pfiles.Accounted := by
  intro hall
  have htest : (callsFrom blank [.open pathA (O_CREAT + O_RDWR), .close 0]).map
      (fun w => (w.pfiles.nfiles, w.pfiles.opened.card)) = some (1, 0) := by decide +kernel
  obtain ⟨w, hw, heq⟩ := Option.map_eq_some_iff.1 htest
  obtain ⟨hn, hcard⟩ := Prod.mk.inj heq
  have hacc : w.pfiles.nfiles = w.pfiles.opened.card :=
    hall w (.of_callsFrom (fun _ _ _ => trivial) hw)
  rw [hn, hcard] at hacc
  cases hacc

end HustOS.Fs
