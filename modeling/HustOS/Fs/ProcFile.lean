import HustOS.Fs.Vfs

/-!
# The files of a process

`kernel/proc_file.c`: the table `opened_files` of a process and the calls on file descriptors.
Opening a file copies the file structure that the virtual file system returns into the first free
element of the table; the calls on a descriptor work on that element. What the element `opened`
holds is kept in `State.files`, under the number of the structure it was copied from; an element
that is free still has the members of the file it held last, or whatever its page held before.

`get_opened_file` checks neither the descriptor nor the status of the element: a number outside the
table leads to the last element, and a call on a free one goes on with the members left there.
-/

namespace HustOS.Fs

open Foundations

abbrev MAX_FILES : ℕ := 128
abbrev LSEEK_SET : ℤ := 0
abbrev LSEEK_CUR : ℤ := 1

/-- An element of `opened_files`. -/
inductive Fd
  /-- `FD_NONE`, and the other members of the structure. -/
  | none (file : File)
  /-- `FD_OPENED`. -/
  | opened (f : ℕ)

/-- `proc_file_management`, without the working directory. -/
structure ProcFiles where
  openedFiles : Fin MAX_FILES → Fd
  nfiles : ℕ

/-- The element has the status `FD_OPENED`. -/
def Fd.IsOpened : Fd → Prop
  | .none _ => False
  | .opened _ => True

instance : DecidablePred Fd.IsOpened
  | .none _ => inferInstanceAs (Decidable False)
  | .opened _ => inferInstanceAs (Decidable True)

/-- The members of an element. -/
def Fd.file (s : State) : Fd → Except Fault File
  | .none file => return file
  | .opened f => s.file f

/-- The members of an element are changed. -/
def Fd.store (s : State) (file : File) : Fd → Fd × State
  | .none _ => (.none file, s)
  | .opened f => (.opened f, { s with files := s.files.insert f file })

/-- The status of an element becomes `FD_NONE`. -/
def Fd.release (s : State) (file : File) : Fd → Fd × State
  | .none _ => (.none file, s)
  | .opened f => (.none file, { s with files := s.files.erase f })

/-- `init_proc_file_management`, in a page that holds `junk`. -/
def initProcFileManagement (junk : Fin MAX_FILES → File) : ProcFiles where
  openedFiles i := .none (junk i)
  nfiles := 0

/-- `get_opened_file`: the element at which its loop ends. -/
def getOpenedFile (fd : ℤ) : Fin MAX_FILES :=
  ((List.finRange MAX_FILES).find? fun i : Fin MAX_FILES => (i : ℤ) = fd).getD (Fin.last _)

/-- The loop of `do_open` and `do_opendir`: the first free element. -/
def freeEntry (p : ProcFiles) : Option (Fin MAX_FILES) :=
  (List.finRange MAX_FILES).find? fun i => ¬ (p.openedFiles i).IsOpened

/-- Copy a file structure into an element. -/
def ProcFiles.install (p : ProcFiles) (i : Fin MAX_FILES) (f : ℕ) : ProcFiles where
  openedFiles := Function.update p.openedFiles i (.opened f)
  nfiles := p.nfiles + 1

/-! ## `vfs.c` on a file structure -/

/-- The loop of `rfs_read` over the complete blocks. -/
def readLoop (x : Dinode) : ℕ → ℕ → ℕ → Buf → State → Except Fault ((Buf × ℕ × ℕ) × State)
  | 0, bufOffset, blockOffset, buffer, s => return ((buffer, bufOffset, blockOffset), s)
  | n + 1, bufOffset, blockOffset, buffer, s => do
    let s ← rfsR1block s (← x.addr blockOffset)
    readLoop x n (bufOffset + RFS_BLKSIZE) (blockOffset + 1)
      (buffer.blit bufOffset s.iobuffer 0 RFS_BLKSIZE) s

/-- `rfs_read`: the number of bytes, the bytes and the new offset. -/
def rfsRead (s : State) (v len offset : ℕ) : Except Fault ((ℕ × Buf × ℕ) × State) := do
  let x ← s.vinode v
  if x.size < offset then
    throw (.panic "rfs_read:offset should less than file size!")
  let len := if x.size < offset + len then x.size - offset else len
  let align := offset % RFS_BLKSIZE
  let blockOffset := offset / RFS_BLKSIZE
  let readtimes := (align + len) / RFS_BLKSIZE
  let remain := (align + len) % RFS_BLKSIZE
  let s ← rfsR1block s (← x.addr blockOffset)
  let firstBlockLen := if readtimes = 0 then len else RFS_BLKSIZE - align
  let buffer := Buf.blit (fun _ => 0) 0 s.iobuffer align firstBlockLen
  if readtimes = 0 then
    return ((len, buffer, offset + len), s)
  let ((buffer, bufOffset, blockOffset), s) ←
    readLoop x.toDinode (readtimes - 1) firstBlockLen (blockOffset + 1) buffer s
  if remain = 0 then
    return ((len, buffer, offset + len), s)
  let s ← rfsR1block s (← x.addr blockOffset)
  return ((len, buffer.blit bufOffset s.iobuffer 0 remain, offset + len), s)

/-- `rfs_lseek`: the new offset, or nothing if it is outside the file. -/
def rfsLseek (x : Dinode) (newOffset whence : ℤ) (offset : ℕ) : Option ℕ :=
  if whence = LSEEK_SET then
    if newOffset < 0 ∨ newOffset > x.size then none else some newOffset.toNat
  else if whence = LSEEK_CUR then
    if offset + newOffset < 0 ∨ offset + newOffset > x.size then none
    else some (offset + newOffset).toNat
  else none

/-- The vinode of a file structure. -/
def File.vinode (s : State) (file : File) : Except Fault (ℕ × Vinode) := do
  let v ← s.dentryInode file.fDentry
  return (v, ← s.vinode v)

/-- `vfs_read` on a file structure, with the bytes read. -/
def readFile (s : State) (file : File) (count : ℕ) :
    Except Fault (ℤ × Option Buf × File × State) := do
  if !file.readable then
    return (-1, none, file, s)
  let (v, x) ← file.vinode s
  if x.type ≠ FILE_I then
    return (-1, none, file, s)
  viopSb s v
  let ((len, buffer, offset), s) ← rfsRead s v count file.offset
  return (len, some buffer, { file with offset := offset }, s)

/-- `vfs_write` on a file structure. -/
def writeFile (s : State) (file : File) (buf : Buf) (count : ℕ) :
    Except Fault (ℤ × File × State) := do
  if !file.writable then
    return (-1, file, s)
  let (v, x) ← file.vinode s
  if x.type ≠ FILE_I then
    return (-1, file, s)
  let ((len, offset), s) ← viopWrite s v buf count file.offset
  return (len, { file with offset := offset }, s)

/-- `vfs_lseek` on a file structure. -/
def lseekFile (s : State) (file : File) (newOffset whence : ℤ) : Except Fault (ℤ × File) := do
  let (v, x) ← file.vinode s
  if x.type ≠ FILE_I then
    return (-1, file)
  viopSb s v
  match rfsLseek x.toDinode newOffset whence file.offset with
  | none => return (-1, file)
  | some offset => return (offset, { file with offset := offset })

/-- `vfs_stat` on a file structure. -/
def statFile (s : State) (file : File) : Except Fault Istat := do
  let (_, x) ← file.vinode s
  return { stInum := x.inum, stSize := x.size, stType := x.type, stNlinks := x.nlinks,
           stBlocks := x.blocks }

/-- `vfs_close` on a file structure. -/
def closeFile (s : State) (file : File) : Except Fault (ℤ × State) := do
  let (v, x) ← file.vinode s
  if x.type ≠ FILE_I then
    return (-1, s)
  viopSb s v
  let e ← s.dentry file.fDentry
  let s := s.setDentry file.fDentry { e with dRef := e.dRef - 1 }
  let s ← releaseDentry s file.fDentry v (e.dRef - 1)
  return (0, s)

/-- `vfs_readdir` on a file structure, with the entry read. -/
def readdirFile (s : State) (file : File) : Except Fault (ℤ × Option (Name × ℕ) × File) := do
  let (v, x) ← file.vinode s
  if x.type ≠ DIR_I then
    return (-1, none, file)
  viopSb s v
  match ← rfsReaddir s v file.offset with
  | none => return (-1, none, file)
  | some (entry, offset) => return (0, some entry, { file with offset := offset })

/-- `vfs_closedir` on a file structure. The pages of the directory cache, which `viop_hook_closedir`
gives back, are not part of the state. -/
def closedirFile (s : State) (file : File) : Except Fault (ℤ × State) := do
  let (_, x) ← file.vinode s
  if x.type ≠ DIR_I then
    return (-1, s)
  let e ← s.dentry file.fDentry
  let s := s.setDentry file.fDentry { e with dRef := e.dRef - 1 }
  match x.sb, x.iFsInfo with
  | .rfs, none => throw (.undefined "i_fs_info")
  | _, _ => return (0, s)

/-! ## The calls of a process -/

/-- The file system and the files of the process that makes the calls. -/
structure Files where
  fs : State
  pfiles : ProcFiles

namespace Files

/-- The element at which `get_opened_file` ends. -/
def entry (w : Files) (fd : ℤ) : Fd := w.pfiles.openedFiles (getOpenedFile fd)

/-- The element of a descriptor and the file system are changed. -/
def setEntry (w : Files) (fd : ℤ) (x : Fd × State) : Files where
  fs := x.2
  pfiles := { w.pfiles with
    openedFiles := Function.update w.pfiles.openedFiles (getOpenedFile fd) x.1 }

/-- `do_open`. Without a free element its loop ends behind the table, with `pfile` at the last
element. -/
def doOpen (w : Files) (path : List UInt8) (flags : ℕ) : Except Fault (ℤ × Files) := do
  let (f, fs) ← vfsOpen w.fs path flags
  match f with
  | none => return (-1, { w with fs := fs })
  | some f =>
    if MAX_FILES ≤ w.pfiles.nfiles then
      throw (.panic "do_open: no file entry for current process!\n")
    match freeEntry w.pfiles with
    | some i => return (i, { fs := fs, pfiles := w.pfiles.install i f })
    | none => return (MAX_FILES, { fs := fs, pfiles := w.pfiles.install (Fin.last _) f })

/-- `do_opendir`. -/
def doOpendir (w : Files) (path : List UInt8) : Except Fault (ℤ × Files) := do
  let (f, fs) ← vfsOpendir w.fs path
  match f with
  | none => return (-1, { w with fs := fs })
  | some f =>
    match freeEntry w.pfiles with
    | some i => return (i, { fs := fs, pfiles := w.pfiles.install i f })
    | none => throw (.panic "do_opendir: no file entry for current process!\n")

/-- `do_read`, with the bytes read. -/
def doRead (w : Files) (fd : ℤ) (count : ℕ) : Except Fault ((ℤ × Option Buf) × Files) := do
  let file ← (w.entry fd).file w.fs
  if !file.readable then
    throw (.panic "do_read: no readable file!\n")
  let (len, buffer, file, fs) ← readFile w.fs file count
  return ((len, buffer), w.setEntry fd ((w.entry fd).store fs file))

/-- `do_write`. -/
def doWrite (w : Files) (fd : ℤ) (buf : Buf) (count : ℕ) : Except Fault (ℤ × Files) := do
  let file ← (w.entry fd).file w.fs
  if !file.writable then
    throw (.panic "do_write: cannot write file!\n")
  let (len, file, fs) ← writeFile w.fs file buf count
  return (len, w.setEntry fd ((w.entry fd).store fs file))

/-- `do_lseek`. -/
def doLseek (w : Files) (fd offset whence : ℤ) : Except Fault (ℤ × Files) := do
  let file ← (w.entry fd).file w.fs
  let (r, file) ← lseekFile w.fs file offset whence
  return (r, w.setEntry fd ((w.entry fd).store w.fs file))

/-- `do_stat`. -/
def doStat (w : Files) (fd : ℤ) : Except Fault (ℤ × Istat) := do
  let file ← (w.entry fd).file w.fs
  return (0, ← statFile w.fs file)

/-- `do_close`. -/
def doClose (w : Files) (fd : ℤ) : Except Fault (ℤ × Files) := do
  let file ← (w.entry fd).file w.fs
  let (r, fs) ← closeFile w.fs file
  if r = 0 then return (r, w.setEntry fd ((w.entry fd).release fs file))
  else return (r, { w with fs := fs })

/-- `do_readdir`, with the entry read. -/
def doReaddir (w : Files) (fd : ℤ) : Except Fault ((ℤ × Option (Name × ℕ)) × Files) := do
  let file ← (w.entry fd).file w.fs
  let (r, entry, file) ← readdirFile w.fs file
  return ((r, entry), w.setEntry fd ((w.entry fd).store w.fs file))

/-- `do_closedir`. -/
def doClosedir (w : Files) (fd : ℤ) : Except Fault (ℤ × Files) := do
  let file ← (w.entry fd).file w.fs
  let (r, fs) ← closedirFile w.fs file
  if r = 0 then return (r, w.setEntry fd ((w.entry fd).release fs file))
  else return (r, { w with fs := fs })

end Files

/-- A call on the files of a process. -/
inductive FdCall
  | open (path : Path) (flags : ℕ)
  | opendir (path : Path)
  | read (fd : ℤ) (count : ℕ)
  | write (fd : ℤ) (buf : Buf) (count : ℕ)
  | lseek (fd offset whence : ℤ)
  | stat (fd : ℤ)
  | close (fd : ℤ)
  | readdir (fd : ℤ)
  | closedir (fd : ℤ)

/-- A call and the integer it returns. -/
def FdCall.run (c : FdCall) (w : Files) : Except Fault (ℤ × Files) :=
  match c with
  | .open path flags => w.doOpen path.1 flags
  | .opendir path => w.doOpendir path.1
  | .read fd count => do
    let ((len, _), w) ← w.doRead fd count
    return (len, w)
  | .write fd buf count => w.doWrite fd buf count
  | .lseek fd offset whence => w.doLseek fd offset whence
  | .stat fd => do
    let (r, _) ← w.doStat fd
    return (r, w)
  | .close fd => w.doClose fd
  | .readdir fd => do
    let ((r, _), w) ← w.doReaddir fd
    return (r, w)
  | .closedir fd => w.doClosedir fd

/-- The descriptor a call is given. -/
def FdCall.fd : FdCall → Option ℤ
  | .open _ _ | .opendir _ => none
  | .read fd _ | .write fd _ _ | .lseek fd _ _ | .stat fd | .close fd | .readdir fd |
      .closedir fd =>
    some fd

/-- A descriptor inside the table leads to its own element. -/
theorem getOpenedFile_eq (i : Fin MAX_FILES) : getOpenedFile i = i := by
  rw [getOpenedFile]
  cases hf : (List.finRange MAX_FILES).find? fun j : Fin MAX_FILES => (j : ℤ) = i with
  | none =>
    have hne := List.find?_eq_none.1 hf i (List.mem_finRange i)
    exact absurd (decide_eq_true rfl) hne
  | some j =>
    have hj := List.find?_some hf
    rw [decide_eq_true_eq] at hj
    exact Fin.ext (Int.ofNat.inj hj)

/-- Any other number leads to the last element. -/
theorem getOpenedFile_of_outside {fd : ℤ} (h : fd < 0 ∨ MAX_FILES ≤ fd) :
    getOpenedFile fd = Fin.last _ := by
  rw [getOpenedFile]
  cases hf : (List.finRange MAX_FILES).find? fun j : Fin MAX_FILES => (j : ℤ) = fd with
  | none => rfl
  | some j =>
    have hj := List.find?_some hf
    rw [decide_eq_true_eq] at hj
    have hlt : (j : ℕ) < MAX_FILES := j.isLt
    omega

/-! ## What closes a file -/

variable {s s' : State} {file : File} {v : ℕ} {x : Vinode} {r : ℤ}

/-- `vfs_close` closes files, and turns directories away. -/
theorem closeFile_ok (h : closeFile s file = .ok (r, s')) : ∃ v x, file.vinode s = .ok (v, x) ∧
    (x.type = FILE_I ∧ r = 0 ∨ x.type ≠ FILE_I ∧ r = -1 ∧ s' = s) := by
  rw [closeFile] at h
  obtain ⟨⟨v, x⟩, hv, h⟩ := (bind_ok_iff _ _ _).1 h
  refine ⟨v, x, hv, ?_⟩
  by_cases hx : x.type = FILE_I
  · simp only [hx, ne_eq, not_true_eq_false, if_false] at h
    obtain ⟨_, -, h⟩ := (bind_ok_iff _ _ _).1 h
    obtain ⟨_, -, h⟩ := (bind_ok_iff _ _ _).1 h
    obtain ⟨_, -, h⟩ := (bind_ok_iff _ _ _).1 h
    cases h
    exact .inl ⟨hx, rfl⟩
  · simp only [hx, ne_eq, not_false_eq_true, if_true] at h
    cases h
    exact .inr ⟨hx, rfl, rfl⟩

theorem closeFile_of_dir (hv : file.vinode s = .ok (v, x)) (hx : x.type ≠ FILE_I) :
    closeFile s file = .ok (-1, s) := by
  simp [closeFile, hv, hx]

/-- `vfs_closedir` closes directories, and turns files away. -/
theorem closedirFile_ok (h : closedirFile s file = .ok (r, s')) :
    ∃ v x, file.vinode s = .ok (v, x) ∧
    (x.type = DIR_I ∧ r = 0 ∨ x.type ≠ DIR_I ∧ r = -1 ∧ s' = s) := by
  rw [closedirFile] at h
  obtain ⟨⟨v, x⟩, hv, h⟩ := (bind_ok_iff _ _ _).1 h
  refine ⟨v, x, hv, ?_⟩
  by_cases hx : x.type = DIR_I
  · simp only [hx, ne_eq, not_true_eq_false, if_false] at h
    obtain ⟨_, -, h⟩ := (bind_ok_iff _ _ _).1 h
    refine .inl ⟨hx, ?_⟩
    split at h
    · cases h
    · cases h
      rfl
  · simp only [hx, ne_eq, not_false_eq_true, if_true] at h
    cases h
    exact .inr ⟨hx, rfl, rfl⟩

theorem closedirFile_of_file (hv : file.vinode s = .ok (v, x)) (hx : x.type ≠ DIR_I) :
    closedirFile s file = .ok (-1, s) := by
  simp [closedirFile, hv, hx]

end HustOS.Fs
