import HustOS.Fs.Descriptors
import HustOS.Fs.OpenFiles

/-!
# Open counts

Many processes that `fork`, `exec` and `exit` share the file system. `fork` and `exec` build a new
table `opened_files`; the table of a process that exits, and the one `exec` replaces, are left
behind as they are, and nothing closes their files. So `d_ref` counts the open elements of all
tables built so far (`opens_counted`), and a file that a process had open when it ended can never be
unlinked.
-/

namespace HustOS.Fs

open Foundations

/-! ## Processes with files -/

/-- What the file system sees of a process. -/
structure Process where
  pfiles : ProcFiles
  exited : Bool

/-- The file system, the processes in the order they were made, and the tables that `exec` has
replaced. -/
structure System where
  fs : State
  procs : List Process
  replaced : List ProcFiles

/-- The tables of the processes that have not exited. -/
def System.live (w : System) : List ProcFiles :=
  (w.procs.filter fun q => !q.exited).map Process.pfiles

/-- The tables nobody can reach: those of processes that have exited, and the replaced ones. -/
def System.left (w : System) : List ProcFiles :=
  (w.procs.filter fun q => q.exited).map Process.pfiles ++ w.replaced

/-- The element is open and points to the dentry `t`. -/
def Fd.PointsTo (s : State) (t : ℕ) : Fd → Prop
  | .none _ => False
  | .opened f => (s.files.lookup f).any fun fl => fl.fDentry = t

instance (s : State) (t : ℕ) : DecidablePred (Fd.PointsTo s t)
  | .none _ => inferInstanceAs (Decidable False)
  | .opened f => inferInstanceAs
    (Decidable ((s.files.lookup f).any (fun fl => fl.fDentry = t) = true))

/-- The number of elements of a table that are open and point to the dentry `t`. -/
def ProcFiles.opens (s : State) (t : ℕ) (p : ProcFiles) : ℕ :=
  (List.finRange MAX_FILES).countP fun i => (p.openedFiles i).PointsTo s t

/-- The number of open elements of the tables that point to the dentry `t`. -/
def opens (s : State) (ps : List ProcFiles) (t : ℕ) : ℕ := (ps.map (ProcFiles.opens s t)).sum

/-- `elf_fpread`: `count` bytes of the program from `offset` on. -/
def elfFpread (f : ℕ) (s : State) (read : ℤ × ℕ) : Except Fault State := do
  let file ← s.file f
  let (_, file) ← lseekFile s file read.1 LSEEK_SET
  let (_, _, file, s) ← readFile s file read.2
  return { s with files := s.files.insert f file }

/-- `load_bincode_from_host_elf`: the program is opened, read piece by piece as its headers say, and
closed. A program that is not found is used all the same. -/
def loadBincode (s : State) (path : Path) (reads : List (ℤ × ℕ)) : Except Fault State := do
  let (f, s) ← vfsOpen s path.1 O_RDONLY
  match f with
  | none => throw .nullDeref
  | some f =>
    let s ← reads.foldlM (elfFpread f) s
    let (_, s) ← vfsClose s f
    return s

/-- What a process does. A new table is built in a page that holds `junk`. -/
inductive Event
  | fork (junk : Fin MAX_FILES → File)
  /-- `do_exec` of a program on RFS, with the pieces its headers name. -/
  | exec (path : Path) (reads : List (ℤ × ℕ)) (junk : Fin MAX_FILES → File)
  /-- `do_exec` of a program of the host. -/
  | execHost (junk : Fin MAX_FILES → File)
  | exit
  | open (path : Path) (flags : ℕ)
  | close (fd : ℤ)
  | unlink (path : Path)

/-- The paths an event names. -/
def Event.paths : Event → List Path
  | .fork _ | .execHost _ | .exit | .close _ => []
  | .exec path _ _ | .open path _ | .unlink path => [path]

namespace System

/-- The process `i` with other files. -/
def setFiles (w : System) (i : ℕ) (x : Files) : System :=
  { w with fs := x.fs, procs := w.procs.set i ⟨x.pfiles, false⟩ }

/-- `do_exec` gives the process `i` with the table `p` a new one. -/
def replace (w : System) (i : ℕ) (p : ProcFiles) (junk : Fin MAX_FILES → File) : System :=
  { w with
    procs := w.procs.set i ⟨initProcFileManagement junk, false⟩
    replaced := w.replaced ++ [p] }

end System

/-- An event of the process `i`, which has the table `p`. -/
def Event.run (ev : Event) (w : System) (i : ℕ) (p : ProcFiles) : Except Fault System :=
  match ev with
  | .fork junk => return { w with procs := w.procs ++ [⟨initProcFileManagement junk, false⟩] }
  | .exec path reads junk => do
    let fs ← loadBincode w.fs path reads
    return { w with fs := fs }.replace i p junk
  | .execHost junk => return w.replace i p junk
  | .exit => return { w with procs := w.procs.set i ⟨p, true⟩ }
  | .open path flags => do
    let (_, x) ← Files.doOpen ⟨w.fs, p⟩ path.1 flags
    return w.setFiles i x
  | .close fd => do
    let (_, x) ← Files.doClose ⟨w.fs, p⟩ fd
    return w.setFiles i x
  | .unlink path => do
    let (_, fs) ← vfsUnlink w.fs path.1
    return { w with fs := fs }

/-- `do_close` closes no file through an element that is not open. -/
def Event.Valid (w : Files) : Event → Prop
  | .close fd => Closes w (.close fd) → w.Valid fd
  | _ => True

/-- The states that processes reach, within the limits of the format. -/
inductive Reached : System → Prop
  | init {fs : State} (boot : Boot) (start : fsInit boot = .ok fs)
      (junks : List (Fin MAX_FILES → File)) :
      Reached ⟨fs, junks.map fun junk => ⟨initProcFileManagement junk, false⟩, []⟩
  | step {w w' : System} {ev : Event} {i : ℕ} {p : ProcFiles} (reached : Reached w)
      (live : w.procs[i]? = some ⟨p, false⟩) (valid : ev.Valid ⟨w.fs, p⟩)
      (parents : ∀ path ∈ ev.paths, w.fs.disk.ParentsOk path.1)
      (run : ev.run w i p = .ok w') (limits : w'.fs.Limits) : Reached w'

/-! ## The open files and the open elements -/

variable {w w' : System} {s s' : State} {p p' : ProcFiles} {ps : List ProcFiles} {i f t : ℕ}
  {j : Fin MAX_FILES} {file : File}

/-- The open file an element holds. -/
def Fd.key : Fd → Option ℕ
  | .none _ => Option.none
  | .opened f => some f

/-- The open files of a table. -/
def ProcFiles.keys (p : ProcFiles) : List ℕ :=
  (List.finRange MAX_FILES).filterMap fun j => (p.openedFiles j).key

/-- The open files of some tables. -/
def keysOf (ps : List ProcFiles) : List ℕ := ps.flatMap ProcFiles.keys

/-- All tables built so far. -/
def System.tables (w : System) : List ProcFiles := w.procs.map Process.pfiles ++ w.replaced

theorem opens_eq_countP (s : State) (p : ProcFiles) (t : ℕ) :
    p.opens s t = p.keys.countP fun f => (s.files.lookup f).any fun fl => fl.fDentry = t := by
  rw [ProcFiles.opens, ProcFiles.keys, List.countP_filterMap]
  refine List.countP_congr fun j _ => ?_
  rw [decide_eq_true_iff]
  cases p.openedFiles j with
  | none file => exact ⟨False.elim, nofun⟩
  | opened f => exact Iff.rfl

/-- If the open elements hold every open file once, they are what `tally` counts. -/
theorem opens_eq_tally (h : (keysOf ps).Perm s.files.keys) (t : ℕ) :
    opens s ps t = tally s.files fun fl => fl.fDentry = t := by
  rw [tally_eq_countP h, keysOf, List.countP_flatMap, opens]
  refine congrArg List.sum (List.map_congr_left fun p _ => ?_)
  exact opens_eq_countP s p t

theorem opens_append (s : State) (ps qs : List ProcFiles) (t : ℕ) :
    opens s (ps ++ qs) t = opens s ps t + opens s qs t := by
  rw [opens, List.map_append, List.sum_append]
  rfl

theorem System.opens_tables (w : System) (t : ℕ) :
    opens w.fs w.tables t = opens w.fs w.live t + opens w.fs w.left t := by
  have hperm : ((w.procs.filter fun q => q.exited).map Process.pfiles ++ w.live).Perm
      (w.procs.map Process.pfiles) := by
    rw [live, ← List.map_append]
    exact (List.filter_append_perm _ _).map _
  have hsum := (hperm.map (ProcFiles.opens w.fs t)).sum_nat
  have hprocs : opens w.fs (w.procs.map Process.pfiles) t =
      opens w.fs ((w.procs.filter
          fun q => q.exited).map Process.pfiles) t + opens w.fs w.live t := by
    rw [← opens_append]
    exact hsum.symm
  rw [tables, left, opens_append, opens_append, hprocs]
  omega

theorem keys_initProcFileManagement (junk : Fin MAX_FILES → File) :
    (initProcFileManagement junk).keys = [] := by
  rw [ProcFiles.keys, List.filterMap_eq_nil_iff]
  intro j _
  rfl

/-- The open files of a table, with those of one element first. -/
theorem keys_perm (p : ProcFiles) (j : Fin MAX_FILES) : p.keys.Perm ((p.openedFiles j).key.toList ++
    ((List.finRange MAX_FILES).erase j).filterMap fun k => (p.openedFiles k).key) := by
  have hperm := (List.perm_cons_erase (List.mem_finRange j)).filterMap
    fun k => (p.openedFiles k).key
  rw [ProcFiles.keys]
  refine hperm.trans ?_
  cases h : (p.openedFiles j).key with
  | none => simp [h]
  | some f => simp [h]

theorem keys_update_rest (p : ProcFiles) (j : Fin MAX_FILES) (x : Fd) :
    (((List.finRange MAX_FILES).erase j).filterMap fun k =>
      (Function.update p.openedFiles j x k).key) =
    ((List.finRange MAX_FILES).erase j).filterMap fun k => (p.openedFiles k).key := by
  refine List.filterMap_congr fun k hk => ?_
  have hne : k ≠ j := fun h => (List.nodup_finRange _).not_mem_erase (h ▸ hk)
  rw [Function.update_of_ne hne]

theorem keys_install (h : ¬ (p.openedFiles j).IsOpened) (f : ℕ) :
    (p.install j f).keys.Perm (f :: p.keys) := by
  have hnew := keys_perm (p.install j f) j
  have hold := keys_perm p j
  have hkey : (p.openedFiles j).key = none := by
    cases hx : p.openedFiles j with
    | none file => rfl
    | opened g => exact absurd (hx ▸ trivial) h
  simp only [ProcFiles.install, Function.update_self, keys_update_rest] at hnew
  rw [hkey] at hold
  exact hnew.trans (hold.symm.cons f)

theorem keys_free (h : p.openedFiles j = .opened f) (file : File) :
    p.keys.Perm (f :: (p.free j file).keys) := by
  have hnew := keys_perm (p.free j file) j
  have hold := keys_perm p j
  simp only [ProcFiles.free, Function.update_self, keys_update_rest] at hnew
  rw [h] at hold
  exact hold.trans (hnew.symm.cons f)

theorem keysOf_append (ps qs : List ProcFiles) : keysOf (ps ++ qs) = keysOf ps ++ keysOf qs :=
  List.flatMap_append

theorem keysOf_perm {qs : List ProcFiles} (h : ps.Perm qs) : (keysOf ps).Perm (keysOf qs) :=
  h.flatMap_right _

/-- The tables with another one for the process `i`. -/
theorem tables_set (h : w.procs[i]? = some ⟨p, false⟩) : ∃ rest, w.tables.Perm (p :: rest) ∧
    ∀ fs q, (System.tables { w with fs := fs, procs := w.procs.set i q }).Perm
        (q.pfiles :: rest) := by
  obtain ⟨hi, hget⟩ := List.getElem?_eq_some_iff.1 h
  refine ⟨(w.procs.eraseIdx i).map Process.pfiles ++ w.replaced, ?_, fun fs q => ?_⟩
  · have hperm := (List.getElem_cons_eraseIdx_perm hi).symm.map Process.pfiles
    rw [hget] at hperm
    exact hperm.append_right _
  · have hperm := (List.set_perm_cons_eraseIdx hi q).map Process.pfiles
    exact hperm.append_right _

/-! ## What each event does -/

/-- Every open file is held by one open element, and no table has more open elements than `nfiles`
counts. -/
structure Held (w : System) : Prop where
  inv : Inv w.fs
  keys : (keysOf w.tables).Perm w.fs.files.keys
  room : ∀ q ∈ w.procs, q.pfiles.opened.card ≤ q.pfiles.nfiles

theorem opened_init (junk : Fin MAX_FILES → File) : (initProcFileManagement junk).opened = ∅ := by
  ext j
  simp [ProcFiles.mem_opened, initProcFileManagement, Fd.IsOpened]

theorem room_init (junk : Fin MAX_FILES → File) :
    (initProcFileManagement junk).opened.card ≤ (initProcFileManagement junk).nfiles := by
  rw [opened_init]
  exact Nat.zero_le _

theorem room_set {q : Process} (h : ∀ q ∈ w.procs, q.pfiles.opened.card ≤ q.pfiles.nfiles)
    (hq : q.pfiles.opened.card ≤ q.pfiles.nfiles) :
    ∀ q' ∈ w.procs.set i q, q'.pfiles.opened.card ≤ q'.pfiles.nfiles := by
  intro q' hq'
  rcases List.mem_or_eq_of_mem_set hq' with hmem | rfl
  · exact h q' hmem
  · exact hq

/-- The process `i` gets the table `p'`, and the open files change by as much. -/
theorem Held.set (h : Held w) (hi : w.procs[i]? = some ⟨p, false⟩) (hinv : Inv s)
    (hroom : p'.opened.card ≤ p'.nfiles) (exited : Bool)
    (hkeys : ∀ rest, (p.keys ++ rest).Perm w.fs.files.keys → (p'.keys ++ rest).Perm s.files.keys) :
    Held { w with fs := s, procs := w.procs.set i ⟨p', exited⟩ } := by
  obtain ⟨rest, hold, hnew⟩ := tables_set hi
  refine ⟨hinv, ?_, room_set h.room hroom⟩
  refine (keysOf_perm (hnew s _)).trans ?_
  exact hkeys (keysOf rest) ((keysOf_perm hold).symm.trans h.keys)

theorem Held.pfiles_room (h : Held w) (hi : w.procs[i]? = some ⟨p, false⟩) :
    p.opened.card ≤ p.nfiles := h.room _ (List.mem_of_getElem? hi)

theorem Held.doOpen {path : Path} {flags : ℕ} {r : ℤ} {x : Files} (h : Held w)
    (hi : w.procs[i]? = some ⟨p, false⟩) (hp : w.fs.disk.ParentsOk path.1) (hl : x.fs.Limits)
    (hrun : Files.doOpen ⟨w.fs, p⟩ path.1 flags = .ok (r, x)) : Held (w.setFiles i x) := by
  rw [Files.doOpen] at hrun
  obtain ⟨⟨o, fs⟩, hopen, hrun⟩ := (bind_ok_iff _ _ _).1 hrun
  have hadd := vfsOpen_files h.inv path.1 flags
  rw [hopen] at hadd
  have hroom := h.pfiles_room hi
  have hinv : fs.Limits → Inv fs := fun hl => by
    have hstep : Step w.fs (.open path flags) (.file o) fs :=
      ⟨fun q hq => List.mem_singleton.1 hq ▸ hp, by simp [exec, hopen], hl⟩
    exact (hstep.steps h.inv).inv h.inv
  cases o with
  | none =>
    cases hrun
    refine h.set hi (hinv hl) hroom false fun rest hrest => ?_
    rw [show fs.files = w.fs.files from hadd]
    exact hrest
  | some f =>
    obtain ⟨habsent, fl, hfiles⟩ := hadd
    by_cases hn : MAX_FILES ≤ p.nfiles
    · simp [hn] at hrun
    simp only [hn, if_false] at hrun
    obtain ⟨j, hj, hfree⟩ := freeEntry_of_lt (p := p) (by omega)
    rw [hj] at hrun
    cases hrun
    have hopened : (Fd.opened f).IsOpened := trivial
    have hcard : (p.install j f).opened.card ≤ (p.install j f).nfiles := by
      rw [ProcFiles.install, opened_update hopened]
      have hle := Finset.card_insert_le j p.opened
      change _ ≤ p.nfiles + 1
      omega
    refine h.set hi (hinv hl) hcard false fun rest hrest => ?_
    rw [hfiles, keys_insert_of_lookup habsent]
    exact ((keys_install hfree f).append_right rest).trans (hrest.cons f)

theorem Held.doClose {fd r : ℤ} {x : Files} (h : Held w) (hi : w.procs[i]? = some ⟨p, false⟩)
    (hvalid : Event.Valid ⟨w.fs, p⟩ (.close fd))
    (hrun : Files.doClose ⟨w.fs, p⟩ fd = .ok (r, x)) : Held (w.setFiles i x) := by
  rw [Files.doClose] at hrun
  obtain ⟨file, hfile, hrun⟩ := (bind_ok_iff _ _ _).1 hrun
  obtain ⟨⟨r', fs⟩, hclose, hrun⟩ := (bind_ok_iff _ _ _).1 hrun
  have hroom := h.pfiles_room hi
  obtain ⟨v, y, hv, ⟨hy, rfl⟩ | ⟨hy, rfl, rfl⟩⟩ := closeFile_ok hclose
  · cases hrun
    obtain ⟨j, rfl, hopened⟩ := hvalid ⟨file, v, y, hfile, hv, hy⟩
    rw [Files.entry, getOpenedFile_eq] at hfile hopened
    dsimp only at hfile hopened
    cases hj : p.openedFiles j with
    | none g => exact absurd hopened (hj ▸ id)
    | opened f =>
      rw [hj] at hfile
      obtain ⟨hinv, ⟨hne, -, -⟩ | ⟨-, hmem, hfiles⟩⟩ :=
        vfsClose_files h.inv (vfsClose_eq hfile hclose)
      · cases hne
      rw [if_pos rfl] at hinv hfiles
      have hcard : (p.free j file).opened.card ≤ (p.free j file).nfiles := by
        rw [ProcFiles.free, opened_update_none (x := .none file) id]
        exact (Finset.card_erase_le).trans hroom
      have hx : Files.setEntry ⟨w.fs, p⟩ j ((Files.entry ⟨w.fs, p⟩ j).release fs file) =
          ⟨{ fs with files := fs.files.erase f }, p.free j file⟩ := by
        simp only [Files.setEntry, Files.entry, getOpenedFile_eq, hj, Fd.release, ProcFiles.free]
      rw [hx]
      refine h.set hi hinv hcard false fun rest hrest => ?_
      rw [hfiles, AList.keys_erase]
      have hperm := (((keys_free hj file).append_right rest).symm.trans hrest).trans
        (List.perm_cons_erase hmem)
      exact hperm.cons_inv
  · cases hrun
    exact h.set hi h.inv hroom false fun rest hrest => hrest

theorem Held.unlink {path : Path} {r : ℤ} (h : Held w) (hp : w.fs.disk.ParentsOk path.1)
    (hl : s.Limits) (hrun : vfsUnlink w.fs path.1 = .ok (r, s)) : Held { w with fs := s } := by
  have hfiles := (((SameFiles.frame w.fs).vfsUnlink (.refl _) path.1).of_ok hrun).1
  have hstep : Step w.fs (.unlink path) (.int r) s :=
    ⟨fun q hq => List.mem_singleton.1 hq ▸ hp, by simp [exec, hrun], hl⟩
  refine ⟨(hstep.steps h.inv).inv h.inv, ?_, h.room⟩
  rw [show s.files = w.fs.files from hfiles]
  exact h.keys

theorem elfFpread_keys {read : ℤ × ℕ} (h : Inv s) (hrun : elfFpread f s read = .ok s') :
    Inv s' ∧ s'.files.keys.Perm s.files.keys ∧ (s.IsFile f → s'.IsFile f) := by
  rw [elfFpread] at hrun
  obtain ⟨file, hfile, hrun⟩ := (bind_ok_iff _ _ _).1 hrun
  obtain ⟨⟨r, file₁⟩, hseek, hrun⟩ := (bind_ok_iff _ _ _).1 hrun
  obtain ⟨⟨n, o, file₂, s₁⟩, hread, hrun⟩ := (bind_ok_iff _ _ _).1 hrun
  cases hrun
  obtain ⟨hd, hbuf⟩ := readFile_ok hread
  obtain ⟨buf, rfl⟩ := hbuf
  have hlookup : s.files.lookup f = some file := by
    rw [State.file] at hfile
    split at hfile
    · cases hfile
      assumption
    · cases hfile
  have h₁ : Inv { s with iobuffer := buf } := SameButBuffer.inv ⟨buf, rfl⟩ h
  have hsame : file₂.fDentry = file.fDentry := hd.trans (lseekFile_ok hseek)
  have hmem : f ∈ s.files.keys := by
    by_contra hnot
    rw [AList.lookup_eq_none.2 hnot] at hlookup
    cases hlookup
  have hinsert : Trans { s with iobuffer := buf } .quiet
      { s with iobuffer := buf, files := s.files.insert f file₂ } := .seek hlookup hsame
  refine ⟨(Steps.single (P := IsQuiet) hinsert rfl).inv h₁, ?_, ?_⟩
  · change (s.files.insert f file₂).keys.Perm s.files.keys
    rw [AList.keys_insert]
    exact (List.perm_cons_erase hmem).symm
  · rintro ⟨fl, e, v, x, hf, he, hx, htype⟩
    cases hlookup.symm.trans hf
    refine ⟨file₂, e, v, x, AList.lookup_insert _, ?_, hx, htype⟩
    rw [hsame]
    exact ⟨he.dentry, he.hash, he.inode⟩

theorem foldlM_elfFpread_keys {reads : List (ℤ × ℕ)} (h : Inv s)
    (hrun : reads.foldlM (elfFpread f) s = .ok s') :
    Inv s' ∧ s'.files.keys.Perm s.files.keys ∧ (s.IsFile f → s'.IsFile f) := by
  induction reads generalizing s with
  | nil =>
    cases hrun
    exact ⟨h, .refl _, id⟩
  | cons read reads ih =>
    rw [List.foldlM_cons] at hrun
    obtain ⟨s₁, h₁, hrun⟩ := (bind_ok_iff _ _ _).1 hrun
    obtain ⟨hi₁, hk₁, hfile₁⟩ := elfFpread_keys h h₁
    obtain ⟨hi₂, hk₂, hfile₂⟩ := ih hi₁ hrun
    exact ⟨hi₂, hk₂.trans hk₁, hfile₂ ∘ hfile₁⟩

/-- Loading a program leaves the open files as they are. -/
theorem loadBincode_keys {path : Path} {reads : List (ℤ × ℕ)} (h : Inv s)
    (hp : s.disk.ParentsOk path.1) (hrun : loadBincode s path reads = .ok s') :
    Inv s' ∧ s'.files.keys.Perm s.files.keys := by
  rw [loadBincode] at hrun
  obtain ⟨⟨o, s₁⟩, hopen, hrun⟩ := (bind_ok_iff _ _ _).1 hrun
  have hadd := vfsOpen_files h path.1 O_RDONLY
  have hfile := vfsOpen_rdonly h hp
  rw [hopen] at hadd hfile
  cases o with
  | none => cases hrun
  | some f =>
    obtain ⟨habsent, fl, hfiles⟩ := hadd
    obtain ⟨s₂, hreads, hrun⟩ := (bind_ok_iff _ _ _).1 hrun
    obtain ⟨⟨r, s₃⟩, hclose, hrun⟩ := (bind_ok_iff _ _ _).1 hrun
    cases hrun
    obtain ⟨h₂, hk₂, hfile₂⟩ := foldlM_elfFpread_keys hfile.1 hreads
    obtain ⟨h₃, ⟨-, -, hnot⟩ | ⟨-, hmem, hfiles₃⟩⟩ := vfsClose_files h₂ hclose
    · exact absurd (hfile₂ (hfile.2 f rfl)) hnot
    refine ⟨h₃, ?_⟩
    rw [hfiles, keys_insert_of_lookup habsent] at hk₂
    rw [hfiles₃, AList.keys_erase]
    exact ((List.perm_cons_erase hmem).symm.trans hk₂).cons_inv

theorem Held.replace (h : Held w) (hi : w.procs[i]? = some ⟨p, false⟩) (hinv : Inv s)
    (hkeys : s.files.keys.Perm w.fs.files.keys) (junk : Fin MAX_FILES → File) :
    Held (System.replace { w with fs := s } i p junk) := by
  obtain ⟨rest, hold, hnew⟩ := tables_set hi
  refine ⟨hinv, ?_, room_set h.room (room_init junk)⟩
  have htables : (System.replace { w with fs := s } i p junk).tables =
      System.tables
        { w with fs := s, procs := w.procs.set i ⟨initProcFileManagement junk, false⟩ } ++
        [p] := by
    rw [System.replace, System.tables, System.tables, List.append_assoc]
  have hperm := (keysOf_perm ((hnew s ⟨initProcFileManagement junk, false⟩).append_right [p]))
  have hcons : keysOf (initProcFileManagement junk :: rest ++ [p]) = keysOf rest ++ p.keys := by
    rw [keysOf_append, keysOf, keysOf, List.flatMap_cons, List.flatMap_cons,
      keys_initProcFileManagement]
    simp [keysOf]
  rw [htables]
  rw [hcons] at hperm
  refine (hperm.trans List.perm_append_comm).trans ?_
  exact ((keysOf_perm hold).symm.trans h.keys).trans hkeys.symm

theorem Held.fork (h : Held w) (junk : Fin MAX_FILES → File) :
    Held { w with procs := w.procs ++ [⟨initProcFileManagement junk, false⟩] } := by
  refine ⟨h.inv, ?_, fun q hq => ?_⟩
  · have hkeys : keysOf (System.tables { w with
        procs := w.procs ++ [⟨initProcFileManagement junk, false⟩] }) = keysOf w.tables := by
      simp only [System.tables, List.map_append, keysOf_append]
      simp [keysOf, keys_initProcFileManagement]
    rw [hkeys]
    exact h.keys
  · rcases List.mem_append.1 hq with hq | hq
    · exact h.room q hq
    · rw [List.mem_singleton.1 hq]
      exact room_init junk

/-- **Each event keeps the open files and the open elements together.** -/
theorem Held.step {ev : Event} (h : Held w) (hi : w.procs[i]? = some ⟨p, false⟩)
    (hvalid : ev.Valid ⟨w.fs, p⟩) (hp : ∀ path ∈ ev.paths, w.fs.disk.ParentsOk path.1)
    (hrun : ev.run w i p = .ok w') (hl : w'.fs.Limits) : Held w' := by
  cases ev with
  | fork junk =>
    cases hrun
    exact h.fork junk
  | exec path reads junk =>
    obtain ⟨fs, hload, hrun⟩ := (bind_ok_iff _ _ _).1 hrun
    cases hrun
    obtain ⟨hinv, hkeys⟩ := loadBincode_keys h.inv (hp path (List.mem_singleton_self _)) hload
    exact h.replace hi hinv hkeys junk
  | execHost junk =>
    cases hrun
    exact h.replace hi h.inv (.refl _) junk
  | exit =>
    cases hrun
    exact h.set hi h.inv (h.pfiles_room hi) true fun rest hrest => hrest
  | «open» path flags =>
    obtain ⟨⟨r, x⟩, hopen, hrun⟩ := (bind_ok_iff _ _ _).1 hrun
    cases hrun
    exact h.doOpen hi (hp path (List.mem_singleton_self _)) hl hopen
  | close fd =>
    obtain ⟨⟨r, x⟩, hclose, hrun⟩ := (bind_ok_iff _ _ _).1 hrun
    cases hrun
    exact h.doClose hi hvalid hclose
  | unlink path =>
    obtain ⟨⟨r, fs⟩, hunlink, hrun⟩ := (bind_ok_iff _ _ _).1 hrun
    cases hrun
    exact h.unlink (hp path (List.mem_singleton_self _)) hl hunlink

theorem Reached.held (h : Reached w) : Held w := by
  induction h with
  | @init fs boot start junks =>
    obtain ⟨s, hs, hinv⟩ := fsInit_inv boot
    obtain rfl := Except.ok.inj (hs.symm.trans start)
    obtain ⟨d, buf, hmounted, -⟩ := fsInit_eq boot
    obtain rfl := Except.ok.inj (hs.symm.trans hmounted)
    refine ⟨hinv, ?_, fun q hq => ?_⟩
    · have hnil : keysOf (System.tables
          ⟨mounted boot d buf, junks.map fun junk => ⟨initProcFileManagement junk, false⟩, []⟩) =
          [] := by
        rw [keysOf, List.flatMap_eq_nil_iff]
        intro p hp
        simp only [System.tables, List.map_map, List.append_nil, List.mem_map] at hp
        obtain ⟨junk, -, rfl⟩ := hp
        exact keys_initProcFileManagement junk
      rw [hnil]
      exact .refl _
    · obtain ⟨junk, -, rfl⟩ := List.mem_map.1 hq
      exact room_init junk
  | step _ live valid parents run limits ih => exact ih.step live valid parents run limits

/-- **Open counts.** In every state that processes reach, `d_ref` of a dentry is the number of open
elements that point to it in all tables built so far: those of live processes, and those that `exit`
and `exec` have left behind. A file is unlinked exactly if none of them points to its dentry. -/
theorem opens_counted (h : Reached w) :
    (∀ t e v, Hashed w.fs t e v → e.dRef = opens w.fs w.live t + opens w.fs w.left t) ∧
    ∀ (path : Path) (j : ℕ), path.1.length < MAX_PATH_LEN → w.fs.disk.ParentsOk path.1 →
      w.fs.disk.resolve path.1 = some j → (w.fs.disk.dinode j).type = FILE_I →
      ∃ t q s₁ r s', lookupFinalDentry w.fs path.1 w.fs.vfsRootDentry = .ok (.found t q, s₁) ∧
        vfsUnlink w.fs path.1 = .ok (r, s') ∧ (r = 0 ∨ r = -1) ∧
        (r = 0 ↔ opens w.fs w.live t = 0 ∧ opens w.fs w.left t = 0) := by
  have hcount : ∀ t, tally w.fs.files (fun fl => fl.fDentry = t) =
      opens w.fs w.live t + opens w.fs w.left t := fun t => by
    rw [← opens_eq_tally h.held.keys, w.opens_tables]
  constructor
  · intro t e v he
    rw [h.held.inv.tables.dRef t e v he, hcount]
    exact Nat.cast_add _ _
  · intro path j hlen hp hj hfile
    obtain ⟨t, q, s₁, r, s', hlook, hrun, hr, hiff⟩ := vfsUnlink_found h.held.inv hlen hp hj hfile
    refine ⟨t, q, s₁, r, s', hlook, hrun, hr, ?_⟩
    rw [hiff, hcount, Nat.add_eq_zero_iff]

/-! ## A process that ends with an open file -/

/-- Run events of the processes one after the other. -/
def runEvents (w : System) : List (ℕ × Event) → Option System
  | [] => some w
  | (i, ev) :: evs =>
    match w.procs[i]? with
    | some ⟨p, false⟩ =>
      if ∀ path ∈ ev.paths, w.fs.disk.ParentsOk path.1 then
        match ev.run w i p with
        | .ok w' => if w'.fs.Limits then runEvents w' evs else none
        | .error _ => none
      else none
    | _ => none

/-- Start up with one process and run events. -/
def eventsFrom (boot : Boot) (evs : List (ℕ × Event)) : Option System :=
  (fsInit boot).toOption.bind fun fs => runEvents ⟨fs, [⟨(freshFiles fs).pfiles, false⟩], []⟩ evs

theorem Reached.ofEvents {evs : List (ℕ × Event)} (h : Reached w)
    (hvalid : ∀ x ∈ evs, ∀ y, x.2.Valid y) (hrun : runEvents w evs = some w') : Reached w' := by
  induction evs generalizing w with
  | nil => exact Option.some.inj hrun ▸ h
  | cons x evs ih =>
    obtain ⟨i, ev⟩ := x
    rw [runEvents] at hrun
    split at hrun
    · rename_i p hlive
      split at hrun
      · rename_i hparents
        split at hrun
        · rename_i w₁ hev
          split at hrun
          · rename_i hlimits
            refine ih (h.step hlive ?_ hparents hev hlimits) ?_ hrun
            · exact hvalid _ List.mem_cons_self _
            · exact fun y hy => hvalid y (List.mem_cons_of_mem _ hy)
          · cases hrun
        · cases hrun
      · cases hrun
    · cases hrun

theorem Reached.of_eventsFrom {boot : Boot} {evs : List (ℕ × Event)}
    (hvalid : ∀ x ∈ evs, ∀ y, x.2.Valid y) (h : eventsFrom boot evs = some w) : Reached w := by
  obtain ⟨fs, hfs, h⟩ := Option.bind_eq_some_iff.1 h
  have hinit := Reached.init boot (toOption_eq_some.1 hfs) [fun _ =>
    { readable := false, writable := false, offset := 0, fDentry := 0 }]
  exact hinit.ofEvents hvalid h

/-- What is counted for the dentry 5 of the file `a`, and what `do_unlink` of the file returns. -/
structure Counts where
  live : ℕ
  left : ℕ
  dRef : Option ℤ
  hashed : Option (Option ℕ)
  inode : Option (Option ℕ)
  unlink : Option ℤ
  deriving DecidableEq

def countsOf (w : System) : Counts where
  live := opens w.fs w.live 5
  left := opens w.fs w.left 5
  dRef := (w.fs.dentries 5).map fun e => e.dRef
  hashed := (w.fs.dentries 5).map fun e => w.fs.dentryHashTable.lookup (e.parent, e.name)
  inode := (w.fs.dentries 5).map fun e => e.dentryInode
  unlink := (vfsUnlink w.fs pathA.1).toOption.map Prod.fst

theorem of_countsOf {c : Counts} {d r : ℤ} (h : countsOf w = c) (hd : c.dRef = some d)
    (hh : c.hashed = some (some 5)) (hi : c.inode = some (some 6)) (hr : c.unlink = some r) :
    opens w.fs w.live 5 = c.live ∧ (∃ e, Hashed w.fs 5 e 6 ∧ e.dRef = d) ∧
    ∃ s', vfsUnlink w.fs pathA.1 = .ok (r, s') := by
  subst h
  obtain ⟨e, he, rfl⟩ := Option.map_eq_some_iff.1 hd
  simp only [countsOf, he, Option.map_some, Option.some.injEq] at hh hi
  obtain ⟨⟨r', s'⟩, hrun, rfl⟩ := Option.map_eq_some_iff.1 hr
  exact ⟨rfl, ⟨e, ⟨he, hh, hi⟩, rfl⟩, s', toOption_eq_some.1 hrun⟩

/-- The members of the elements in a page of zeros. -/
def noFiles : Fin MAX_FILES → File := fun _ =>
  { readable := false, writable := false, offset := 0, fDentry := 0 }

/-- A process has the file open. -/
theorem opens_counted_live : ∃ w e, Reached w ∧ Hashed w.fs 5 e 6 ∧
    e.dRef = opens w.fs w.live 5 + opens w.fs w.left 5 ∧ opens w.fs w.live 5 = 1 := by
  have htest : (eventsFrom blank [(0, .open pathA (O_CREAT + O_RDWR))]).map countsOf =
      some ⟨1, 0, some 1, some (some 5), some (some 6), some (-1)⟩ := by decide +kernel
  obtain ⟨w, hw, hcounts⟩ := Option.map_eq_some_iff.1 htest
  obtain ⟨hlive, ⟨e, he, -⟩, -⟩ := of_countsOf hcounts rfl rfl rfl rfl
  have hreached : Reached w := .of_eventsFrom (by simp [Event.Valid]) hw
  exact ⟨w, e, hreached, he, (opens_counted hreached).1 5 e 6 he, hlive⟩

/-- After the event no element of a live process points to the dentry of the file that was open
before, `d_ref` is still 1, and `do_unlink` refuses to remove the file. -/
def LeftOpen (ev : Event) : Prop := ∃ w e s',
  eventsFrom blank [(0, .open pathA (O_CREAT + O_RDWR)), (0, ev)] = some w ∧ Reached w ∧
    Hashed w.fs 5 e 6 ∧ opens w.fs w.live 5 = 0 ∧ e.dRef = 1 ∧
    vfsUnlink w.fs pathA.1 = .ok (-1, s')

theorem LeftOpen.of_counts {ev : Event} (hvalid : ∀ y, ev.Valid y)
    (htest : (eventsFrom blank [(0, .open pathA (O_CREAT + O_RDWR)), (0, ev)]).map countsOf =
      some ⟨0, 1, some 1, some (some 5), some (some 6), some (-1)⟩) : LeftOpen ev := by
  obtain ⟨w, hw, hcounts⟩ := Option.map_eq_some_iff.1 htest
  obtain ⟨hlive, ⟨e, he, href⟩, s', hrun⟩ := of_countsOf hcounts rfl rfl rfl rfl
  have hopen : ∀ y, Event.Valid y (.open pathA (O_CREAT + O_RDWR)) := fun _ => trivial
  have hreached : Reached w := .of_eventsFrom (by simp [hopen, hvalid]) hw
  exact ⟨w, e, s', hw, hreached, he, hlive, href, hrun⟩

/-- **A process that ends with an open file**, by `exit` and as well by `exec`. -/
theorem opens_left : LeftOpen .exit ∧ LeftOpen (.execHost noFiles) := by
  constructor
  · exact .of_counts (fun _ => trivial) (by decide +kernel)
  · exact .of_counts (fun _ => trivial) (by decide +kernel)

end HustOS.Fs
