import HustOS.Foundations.Traced
import HustOS.Fs.ProcFile

/-!
# The pages of an open file

`do_open` and `do_close` once more, as computations that emit each `alloc_page` and each `free_page`
on their way, with what the page holds. Without the trace they are `Files.doOpen` and
`Files.doClose` (`snd_doOpenT`, `snd_doCloseT`).

A key and a node of a hash table are named by the object they were allocated for.
-/

namespace HustOS.Fs

open Foundations Traced

/-- A page and what it holds. -/
inductive Page
  | dentry (t : ℕ)
  | vinode (v : ℕ)
  | file (f : ℕ)
  | dinode
  | dentryKey (t : ℕ)
  | dentryNode (t : ℕ)
  | vinodeKey (v : ℕ)
  | vinodeNode (v : ℕ)
  deriving DecidableEq

/-- A call of `alloc_page` or `free_page`. -/
inductive PageEvent
  | alloc (p : Page)
  | free (p : Page)
  deriving DecidableEq

/-- A computation of the file system that emits what it does with pages. -/
abbrev Paged (α : Type) : Type := Traced PageEvent Fault State α

variable {s : State} {α : Type}

/-! ## The hash tables -/

/-- `hash_put_dentry`. `default_put` takes the page of the node before it looks whether the key is
there, and keeps it when it is. -/
def hashPutDentryT (t : ℕ) : Paged Unit := do
  let e ← Traced.read (State.dentry · t)
  tell (.alloc (.dentryKey t))
  tell (.alloc (.dentryNode t))
  let s ← Traced.get
  match s.dentryHashTable.lookup (e.parent, e.name) with
  | some _ => tell (.free (.dentryKey t))
  | none =>
    act fun s => .ok
      { s with dentryHashTable := s.dentryHashTable.insert (e.parent, e.name) t }

/-- `hash_erase_dentry`. `default_erase` gives back the page of the node, not that of the key. -/
def hashEraseDentryT (t : ℕ) : Paged Unit := do
  let e ← Traced.read (State.dentry · t)
  let s ← Traced.get
  match s.dentryHashTable.lookup (e.parent, e.name) with
  | some t' => tell (.free (.dentryNode t'))
  | none => pure ()
  act fun s => .ok { s with dentryHashTable := s.dentryHashTable.erase (e.parent, e.name) }

/-- `hash_put_vinode`. -/
def hashPutVinodeT (v : ℕ) : Paged Unit := do
  let x ← Traced.read (State.vinode · v)
  if 2 ^ 31 ≤ x.inum then pure ()
  else do
    tell (.alloc (.vinodeKey v))
    tell (.alloc (.vinodeNode v))
    let s ← Traced.get
    match s.vinodeHashTable.lookup (x.sb, x.inum) with
    | some _ => tell (.free (.vinodeKey v))
    | none =>
      act fun s => .ok { s with vinodeHashTable := s.vinodeHashTable.insert (x.sb, x.inum) v }

/-- `hash_erase_vinode`. -/
def hashEraseVinodeT (v : ℕ) : Paged Unit := do
  let x ← Traced.read (State.vinode · v)
  if 2 ^ 31 ≤ x.inum then pure ()
  else do
    let s ← Traced.get
    match s.vinodeHashTable.lookup (x.sb, x.inum) with
    | some v' => tell (.free (.vinodeNode v'))
    | none => pure ()
    act fun s => .ok { s with vinodeHashTable := s.vinodeHashTable.erase (x.sb, x.inum) }

/-! ## Objects -/

/-- `alloc_vfs_dentry`. -/
def allocVfsDentryT (name : Name) (inode parent : Option ℕ) : Paged ℕ := do
  let s ← Traced.get
  tell (.alloc (.dentry s.pages))
  Traced.lift fun s => allocVfsDentry s name inode parent

/-- `free_vfs_dentry`. -/
def freeVfsDentryT (t : ℕ) : Paged Unit := do
  let e ← Traced.read (State.dentry · t)
  if 0 < e.dRef then pure ()
  else do
    tell (.free (.dentry t))
    act fun s => .ok (s.freeDentry t)

/-- `alloc_vfs_file`. -/
def allocVfsFileT (t : ℕ) (readable writable : Bool) : Paged ℕ := do
  let s ← Traced.get
  tell (.alloc (.file s.pages))
  Traced.lift fun s => allocVfsFile s t readable writable

/-- `rfs_read_dinode`. -/
def rfsReadDinodeT (nInode : ℕ) : Paged Dinode := do
  let dinode ← Traced.lift fun s => rfsReadDinode s nInode
  tell (.alloc .dinode)
  return dinode

/-- `rfs_update_vinode`. -/
def rfsUpdateVinodeT (v : ℕ) : Paged Unit := do
  let x ← Traced.read (State.vinode · v)
  let dinode ← rfsReadDinodeT x.inum
  act fun s => .ok (s.setVinode v { x with toDinode := dinode })
  tell (.free .dinode)

/-- `rfsNewVinode`. -/
def rfsNewVinodeT (inum : ℕ) : Paged ℕ := do
  let s ← Traced.get
  tell (.alloc (.vinode s.pages))
  let v ← Traced.lift fun s => .ok (rfsAllocVinode s)
  let x ← Traced.read (State.vinode · v)
  act fun s => .ok (s.setVinode v { x with inum := inum })
  rfsUpdateVinodeT v
  return v

/-! ## Operations of a vinode -/

/-- `viop_lookup`. -/
def viopLookupT (v : ℕ) (name : Name) : Paged (Option ℕ) := do
  Traced.read (viopSb · v)
  let p ← Traced.read (State.vinode · v)
  let found ← Traced.lift (findLoop p.toDinode name (p.size / direntrySize) 0)
  match found with
  | none => pure none
  | some i => do
    let s ← Traced.get
    let v ← rfsNewVinodeT (entry s.iobuffer (i % oneBlockDirentrys)).2
    return some v

/-- `freeInodeLoop`: the page of an inode in use is given back at once. -/
def freeInodeLoopT : ℕ → ℕ → Paged (Dinode × ℕ)
  | 0, _ => Traced.fail (.undefined "free_dinode")
  | n + 1, i => do
    let freeDinode ← rfsReadDinodeT i
    if freeDinode.type = R_FREE then pure (freeDinode, i)
    else do
      tell (.free .dinode)
      freeInodeLoopT n (i + 1)

/-- `viop_create`. -/
def viopCreateT (v : ℕ) (name : Name) : Paged (Option ℕ) := do
  Traced.read (viopSb · v)
  let _ ← Traced.read (State.vinode · v)
  let (freeDinode, freeInum) ← freeInodeLoopT ninodes 0
  let block ← Traced.lift rfsAllocBlock
  act fun s => rfsWriteDinode s
    { size := 0, type := R_FILE, nlinks := 1, blocks := 0,
      addrs := Function.update freeDinode.addrs 0 block } freeInum
  tell (.free .dinode)
  let newVinode ← rfsNewVinodeT freeInum
  let result ← Traced.lift fun s => rfsAddDirentry s v name freeInum
  if result = -1 then pure none
  else pure (some newVinode)

/-! ## Path lookup -/

/-- `attachFound`. -/
def attachFoundT (this foundVinode : ℕ) : Paged Unit := do
  let x ← Traced.read (State.vinode · foundVinode)
  let e ← Traced.read (State.dentry · this)
  let s ← Traced.get
  match hashGetVinode s x.sb x.inum with
  | some sameInode => do
    act fun s => addRef (s.setDentry this { e with dentryInode := some sameInode }) sameInode 1
    tell (.free (.vinode foundVinode))
    act fun s => .ok (s.freeVinode foundVinode)
    hashPutDentryT this
  | none => do
    act fun s => addRef (s.setDentry this { e with dentryInode := some foundVinode }) foundVinode 1
    hashPutVinodeT foundVinode
    hashPutDentryT this

/-- The loop of `lookup_final_dentry`. -/
def lookupLoopT : List Name → ℕ → ℕ → Paged Lookup
  | [], this, parent => pure (.found this parent)
  | token :: tokens, parent, _ => do
    let s ← Traced.get
    match hashGetDentry s parent token with
    | some this => lookupLoopT tokens this parent
    | none => do
      let this ← allocVfsDentryT token none (some parent)
      let v ← Traced.read (State.dentryInode · parent)
      let foundVinode ← viopLookupT v token
      match foundVinode with
      | none => do
        tell (.free (.dentry this))
        act fun s => .ok (s.freeDentry this)
        return .missing parent token
      | some v => do
        attachFoundT this v
        lookupLoopT tokens this parent

/-- `lookup_final_dentry`. -/
def lookupFinalDentryT (path : List UInt8) (parent : ℕ) : Paged Lookup :=
  if MAX_PATH_LEN ≤ path.length then Traced.fail (.undefined "path_copy")
  else lookupLoopT (pathTokens path) parent parent

/-! ## Opening and closing -/

/-- `attachNew`. -/
def attachNewT (t v : ℕ) : Paged Unit := do
  let e ← Traced.read (State.dentry · t)
  act fun s => addRef (s.setDentry t { e with dentryInode := some v }) v 1
  hashPutDentryT t
  hashPutVinodeT v

/-- `createFile`. -/
def createFileT (path : List UInt8) (parent : ℕ) (missName : Name) : Paged (Option ℕ) := do
  let basename ← Traced.read fun _ => getBaseName path
  if missName ≠ basename then pure none
  else do
    let t ← allocVfsDentryT basename none (some parent)
    let v ← Traced.read (State.dentryInode · parent)
    let newInode ← viopCreateT v basename
    match newInode with
    | none => Traced.fail (.panic "vfs_open: cannot create file!\n")
    | some v => do
      attachNewT t v
      return some t

/-- `openDentry`. -/
def openDentryT (t flags : ℕ) : Paged (Option ℕ) := do
  let v ← Traced.read (State.dentryInode · t)
  let x ← Traced.read (State.vinode · v)
  if x.type ≠ FILE_I then pure none
  else do
    let (readable, writable) ← Traced.read fun _ => fileMode flags
    let f ← allocVfsFileT t readable writable
    match x.sb with
    | .rfs => pure (some f)
    | .hostfs => Traced.fail .hostfs

/-- `vfs_open`. -/
def vfsOpenT (path : List UInt8) (flags : ℕ) : Paged (Option ℕ) := do
  let s ← Traced.get
  let r ← lookupFinalDentryT path s.vfsRootDentry
  match r with
  | .found t _ => openDentryT t flags
  | .missing parent missName =>
    if flags &&& O_CREAT = 0 then pure none
    else do
      let t ← createFileT path parent missName
      match t with
      | none => pure none
      | some t => openDentryT t flags

/-- `releaseDentry`. -/
def releaseDentryT (t v : ℕ) (dRef : ℤ) : Paged Unit :=
  if dRef ≠ 0 then pure ()
  else do
    hashEraseDentryT t
    freeVfsDentryT t
    act fun s => addRef s v (-1)
    let x ← Traced.read (State.vinode · v)
    if x.ref = 0 then do
      act fun s => viopWriteBackVinode s v
      hashEraseVinodeT v
      tell (.free (.vinode v))
      act fun s => .ok (s.freeVinode v)
    else pure ()

/-- `vfs_close` on a file structure. -/
def closeFileT (file : File) : Paged ℤ := do
  let (v, x) ← Traced.read fun s => file.vinode s
  if x.type ≠ FILE_I then pure (-1)
  else do
    Traced.read (viopSb · v)
    let e ← Traced.read (State.dentry · file.fDentry)
    act fun s => .ok (s.setDentry file.fDentry { e with dRef := e.dRef - 1 })
    releaseDentryT file.fDentry v (e.dRef - 1)
    return 0

/-! ## The calls of a process -/

/-- A computation of the file system, for the process that makes the calls. -/
def Paged.inFiles (x : Paged α) : Traced PageEvent Fault Files α := fun w =>
  ((x w.fs).1, do
    let (a, fs) ← (x w.fs).2
    return (a, { w with fs := fs }))

namespace Files

/-- The part of `do_open` behind `vfs_open`. -/
def enter (f : Option ℕ) (w : Files) : Except Fault (ℤ × Files) :=
  match f with
  | none => return (-1, w)
  | some f =>
    if MAX_FILES ≤ w.pfiles.nfiles then
      throw (.panic "do_open: no file entry for current process!\n")
    else match freeEntry w.pfiles with
    | some i => return (i, { w with pfiles := w.pfiles.install i f })
    | none => return (MAX_FILES, { w with pfiles := w.pfiles.install (Fin.last _) f })

/-- `do_open`. -/
def doOpenT (path : List UInt8) (flags : ℕ) : Traced PageEvent Fault Files ℤ := do
  let f ← (vfsOpenT path flags).inFiles
  Traced.lift (enter f)

/-- `do_close`. -/
def doCloseT (fd : ℤ) : Traced PageEvent Fault Files ℤ := do
  let file ← Traced.read fun w => (w.entry fd).file w.fs
  let r ← (closeFileT file).inFiles
  if r = 0 then
    Traced.lift fun w => .ok (r, w.setEntry fd ((w.entry fd).release w.fs file))
  else pure r

end Files

/-! ## Without the trace -/

theorem snd_hashPutDentryT (t : ℕ) :
    (hashPutDentryT t s).2 = do return ((), ← hashPutDentry s t) := by
  rw [hashPutDentryT, hashPutDentry]
  simp only [snd_bind, snd_read, snd_tell, snd_get, bind_assoc, ok_bind, pure_eq_ok]
  refine bind_congr fun e => ?_
  cases s.dentryHashTable.lookup (e.parent, e.name) <;> rfl

theorem snd_hashEraseDentryT (t : ℕ) :
    (hashEraseDentryT t s).2 = do return ((), ← hashEraseDentry s t) := by
  rw [hashEraseDentryT, hashEraseDentry]
  simp only [snd_bind, snd_read, snd_get, bind_assoc, ok_bind, pure_eq_ok]
  refine bind_congr fun e => ?_
  cases s.dentryHashTable.lookup (e.parent, e.name) <;> rfl

theorem snd_hashPutVinodeT (v : ℕ) :
    (hashPutVinodeT v s).2 = do return ((), ← hashPutVinode s v) := by
  rw [hashPutVinodeT, hashPutVinode]
  simp only [snd_bind, snd_read, bind_assoc, ok_bind, pure_eq_ok]
  refine bind_congr fun x => ?_
  by_cases hx : 2 ^ 31 ≤ x.inum
  · simp only [hx, if_true, snd_pure, ok_bind]
  · simp only [hx, if_false, snd_bind, snd_tell, snd_get, ok_bind]
    cases s.vinodeHashTable.lookup (x.sb, x.inum) <;> rfl

theorem snd_hashEraseVinodeT (v : ℕ) :
    (hashEraseVinodeT v s).2 = do return ((), ← hashEraseVinode s v) := by
  rw [hashEraseVinodeT, hashEraseVinode]
  simp only [snd_bind, snd_read, bind_assoc, ok_bind, pure_eq_ok]
  refine bind_congr fun x => ?_
  by_cases hx : 2 ^ 31 ≤ x.inum
  · simp only [hx, if_true, snd_pure, ok_bind]
  · simp only [hx, if_false, snd_bind, snd_get, ok_bind]
    cases s.vinodeHashTable.lookup (x.sb, x.inum) <;> rfl

theorem snd_allocVfsDentryT (name : Name) (inode parent : Option ℕ) :
    (allocVfsDentryT name inode parent s).2 = allocVfsDentry s name inode parent := rfl

theorem snd_freeVfsDentryT (t : ℕ) :
    (freeVfsDentryT t s).2 = do return ((), ← freeVfsDentry s t) := by
  rw [freeVfsDentryT, freeVfsDentry]
  simp only [snd_bind, snd_read, bind_assoc, ok_bind, pure_eq_ok]
  refine bind_congr fun e => ?_
  split <;> rfl

theorem snd_allocVfsFileT (t : ℕ) (readable writable : Bool) :
    (allocVfsFileT t readable writable s).2 = allocVfsFile s t readable writable := rfl

theorem snd_rfsReadDinodeT (nInode : ℕ) : (rfsReadDinodeT nInode s).2 = rfsReadDinode s nInode := by
  rw [rfsReadDinodeT]
  simp only [snd_bind, snd_lift, snd_tell, snd_pure, ok_bind]
  cases rfsReadDinode s nInode <;> rfl

theorem snd_rfsUpdateVinodeT (v : ℕ) :
    (rfsUpdateVinodeT v s).2 = do return ((), ← rfsUpdateVinode s v) := by
  rw [rfsUpdateVinodeT, rfsUpdateVinode]
  simp only [snd_bind, snd_read, snd_rfsReadDinodeT, snd_act, snd_tell, bind_assoc, ok_bind,
    pure_eq_ok]

theorem snd_rfsNewVinodeT (inum : ℕ) : (rfsNewVinodeT inum s).2 = rfsNewVinode s inum := by
  rw [rfsNewVinodeT, rfsNewVinode]
  simp only [snd_bind, snd_get, snd_tell, snd_lift, snd_read, snd_act,
    snd_rfsUpdateVinodeT, snd_pure,
    bind_assoc, ok_bind, pure_eq_ok]

theorem snd_viopLookupT (v : ℕ) (name : Name) : (viopLookupT v name s).2 = viopLookup s v name := by
  rw [viopLookupT, viopLookup]
  simp only [rfsLookup, snd_bind, snd_read, snd_lift, bind_assoc, ok_bind, pure_eq_ok]
  refine bind_congr fun _ => bind_congr fun p => bind_congr fun r => ?_
  obtain ⟨found, s₁⟩ := r
  cases found with
  | none => rfl
  | some i =>
    simp only [snd_bind, snd_get, snd_rfsNewVinodeT, snd_pure, ok_bind]

theorem snd_freeInodeLoopT (n i : ℕ) : (freeInodeLoopT n i s).2 = freeInodeLoop n i s := by
  induction n generalizing i s with
  | zero => rfl
  | succ n ih =>
    rw [freeInodeLoopT, freeInodeLoop]
    simp only [snd_bind, snd_rfsReadDinodeT]
    refine bind_congr fun r => ?_
    rw [snd_ite]
    split
    · rfl
    · simp only [snd_bind, snd_tell, ok_bind, ih]

theorem snd_viopCreateT (v : ℕ) (name : Name) : (viopCreateT v name s).2 = viopCreate s v name := by
  rw [viopCreateT, viopCreate]
  simp only [rfsCreate, snd_bind, snd_read, snd_freeInodeLoopT, snd_lift, snd_act, snd_tell,
    snd_rfsNewVinodeT, snd_ite, snd_pure, bind_assoc, ok_bind, pure_eq_ok]

theorem snd_attachFoundT (this foundVinode : ℕ) :
    (attachFoundT this foundVinode s).2 = do return ((), ← attachFound s this foundVinode) := by
  rw [attachFoundT, attachFound]
  simp only [snd_bind, snd_read, snd_get, bind_assoc, ok_bind, pure_eq_ok]
  refine bind_congr fun x => bind_congr fun e => ?_
  cases hashGetVinode s x.sb x.inum with
  | none =>
    simp only [snd_bind, snd_act, snd_hashPutVinodeT, snd_hashPutDentryT, bind_assoc, ok_bind,
      pure_eq_ok]
  | some v =>
    simp only [snd_bind, snd_act, snd_tell, snd_hashPutDentryT, bind_assoc, ok_bind, pure_eq_ok]

theorem snd_lookupLoopT (tokens : List Name) (this parent : ℕ) :
    (lookupLoopT tokens this parent s).2 = lookupLoop tokens this parent s := by
  induction tokens generalizing this parent s with
  | nil => rfl
  | cons token tokens ih =>
    rw [lookupLoopT, lookupLoop]
    simp only [snd_bind, snd_get, ok_bind]
    cases hashGetDentry s this token with
    | some t => exact ih t this
    | none =>
      simp only [snd_bind, snd_allocVfsDentryT, snd_read, snd_viopLookupT, bind_assoc, ok_bind,
        pure_eq_ok]
      refine bind_congr fun a => bind_congr fun v => bind_congr fun b => ?_
      obtain ⟨found, s₂⟩ := b
      cases found with
      | none => rfl
      | some u =>
        simp only [snd_bind, snd_attachFoundT, ih, bind_assoc, ok_bind, pure_eq_ok]

theorem snd_lookupFinalDentryT (path : List UInt8) (parent : ℕ) :
    (lookupFinalDentryT path parent s).2 = lookupFinalDentry s path parent := by
  rw [lookupFinalDentryT, lookupFinalDentry, snd_ite, snd_lookupLoopT]
  rfl

theorem snd_attachNewT (t v : ℕ) : (attachNewT t v s).2 = do return ((), ← attachNew s t v) := by
  rw [attachNewT, attachNew]
  simp only [snd_bind, snd_read, snd_act, snd_hashPutDentryT, snd_hashPutVinodeT,
    bind_assoc, ok_bind,
    pure_eq_ok]

theorem snd_createFileT (path : List UInt8) (parent : ℕ) (missName : Name) :
    (createFileT path parent missName s).2 = createFile s path parent missName := by
  rw [createFileT, createFile]
  simp only [snd_bind, snd_read, bind_assoc, ok_bind, pure_eq_ok]
  refine bind_congr fun basename => ?_
  rw [snd_ite]
  split
  · rfl
  · simp only [snd_bind, snd_allocVfsDentryT, snd_read, snd_viopCreateT, bind_assoc, ok_bind,
      pure_eq_ok]
    refine bind_congr fun a => bind_congr fun v => bind_congr fun b => ?_
    obtain ⟨newInode, s₂⟩ := b
    cases newInode with
    | none => rfl
    | some u => simp only [snd_bind, snd_attachNewT, snd_pure, bind_assoc, ok_bind, pure_eq_ok]

theorem snd_openDentryT (t flags : ℕ) : (openDentryT t flags s).2 = openDentry s t flags := by
  rw [openDentryT, openDentry]
  simp only [snd_bind, snd_read, bind_assoc, ok_bind, pure_eq_ok]
  refine bind_congr fun v => bind_congr fun x => ?_
  rw [snd_ite]
  split
  · rfl
  · simp only [snd_bind, snd_read, snd_allocVfsFileT, bind_assoc, ok_bind, pure_eq_ok]
    refine bind_congr fun m => bind_congr fun f => ?_
    cases x.sb <;> rfl

theorem snd_vfsOpenT (path : List UInt8) (flags : ℕ) :
    (vfsOpenT path flags s).2 = vfsOpen s path flags := by
  rw [vfsOpenT, vfsOpen]
  simp only [snd_bind, snd_get, snd_lookupFinalDentryT, ok_bind]
  refine bind_congr fun r => ?_
  obtain ⟨l, s₁⟩ := r
  cases l with
  | found t q => exact snd_openDentryT t flags
  | missing q n =>
    dsimp only
    rw [snd_ite]
    split
    · rfl
    · simp only [snd_bind, snd_createFileT]
      refine bind_congr fun r => ?_
      obtain ⟨t, s₂⟩ := r
      cases t with
      | none => rfl
      | some t => exact snd_openDentryT t flags

theorem snd_releaseDentryT (t v : ℕ) (dRef : ℤ) :
    (releaseDentryT t v dRef s).2 = do return ((), ← releaseDentry s t v dRef) := by
  rw [releaseDentryT, releaseDentry, snd_ite]
  split
  · rfl
  · simp only [snd_bind, snd_hashEraseDentryT, snd_freeVfsDentryT, snd_act, snd_read, bind_assoc,
      ok_bind, pure_eq_ok]
    refine bind_congr fun s₁ => bind_congr fun s₂ => bind_congr fun s₃ => bind_congr fun x => ?_
    rw [snd_ite]
    split
    · simp only [snd_bind, snd_hashEraseVinodeT, snd_act, snd_tell, bind_assoc, ok_bind, pure_eq_ok]
    · rfl

theorem snd_closeFileT (file : File) : (closeFileT file s).2 = closeFile s file := by
  rw [closeFileT, closeFile]
  simp only [snd_bind, snd_read, bind_assoc, ok_bind, pure_eq_ok]
  refine bind_congr fun r => ?_
  rw [snd_ite]
  split
  · rfl
  · simp only [snd_bind, snd_read, snd_act, snd_releaseDentryT, snd_pure, bind_assoc, ok_bind,
      pure_eq_ok]

/-- Without the trace it is `do_open`. -/
theorem snd_doOpenT (w : Files) (path : List UInt8) (flags : ℕ) :
    (Files.doOpenT path flags w).2 = w.doOpen path flags := by
  rw [Files.doOpenT, Files.doOpen]
  simp only [snd_bind, Paged.inFiles, snd_vfsOpenT, snd_lift, bind_assoc, ok_bind, pure_eq_ok]
  refine bind_congr fun r => ?_
  obtain ⟨f, fs⟩ := r
  cases f <;> rfl

/-- Without the trace it is `do_close`. -/
theorem snd_doCloseT (w : Files) (fd : ℤ) : (Files.doCloseT fd w).2 = w.doClose fd := by
  rw [Files.doCloseT, Files.doClose]
  simp only [snd_bind, snd_read, Paged.inFiles, snd_closeFileT, bind_assoc, ok_bind, pure_eq_ok]
  refine bind_congr fun file => bind_congr fun r => ?_
  obtain ⟨r, fs⟩ := r
  rw [snd_ite]
  rfl

end HustOS.Fs
