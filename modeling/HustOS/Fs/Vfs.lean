import HustOS.Fs.Rfs

/-!
# The virtual file system

The functions of `kernel/vfs.c` over RFS, and the start-up of `fs_init`. The host file system is
mounted as the root and RFS below it as `RAMDISK0`; a call that would enter the host file system
faults with `Fault.hostfs`.

`Op` collects the operations of the interface and `exec` runs one of them.
-/

namespace HustOS.Fs

open Foundations

abbrev MAX_PATH_LEN : ℕ := 30
abbrev O_RDONLY : ℕ := 0
abbrev O_WRONLY : ℕ := 1
abbrev O_RDWR : ℕ := 2
abbrev O_CREAT : ℕ := 0o100
abbrev MASK_FILEMODE : ℕ := 3

/-- A path as the caller passes it: the bytes before the terminator. -/
abbrev Path : Type := { p : List UInt8 // (0 : UInt8) ∉ p }

/-! ## Path components -/

/-- `strtok` on the string `current` points to: the next token and the new `current`. -/
def strtok (delim : List UInt8) : Option (List UInt8) → Option (Name × Option (List UInt8))
  | none => none
  | some current =>
    match current.dropWhile (delim.contains ·) with
    | [] => none
    | start =>
      let token := start.takeWhile (!delim.contains ·)
      match start.dropWhile (!delim.contains ·) with
      | [] => some (token, none)
      | _ :: rest => some (token, some rest)

/-- The tokens of repeated calls of `strtok` with the delimiter `"/"`. -/
def tokensFrom : ℕ → Option (List UInt8) → List Name
  | 0, _ => []
  | n + 1, current =>
    match strtok [47] current with
    | none => []
    | some (token, rest) => token :: tokensFrom n rest

/-- The components of a path. -/
def pathTokens (path : List UInt8) : List Name := tokensFrom (path.length + 1) (some path)

/-- `get_base_name`. -/
def getBaseName (path : List UInt8) : Except Fault Name :=
  match (pathTokens path).getLast? with
  | some token => .ok token
  | none => .error .nullDeref

/-! ## The hash tables -/

def hashGetDentry (s : State) (parent : ℕ) (name : Name) : Option ℕ :=
  s.dentryHashTable.lookup (some parent, name)

def hashPutDentry (s : State) (t : ℕ) : Except Fault State := do
  let e ← s.dentry t
  match s.dentryHashTable.lookup (e.parent, e.name) with
  | some _ => return s
  | none => return { s with dentryHashTable := s.dentryHashTable.insert (e.parent, e.name) t }

def hashEraseDentry (s : State) (t : ℕ) : Except Fault State := do
  let e ← s.dentry t
  return { s with dentryHashTable := s.dentryHashTable.erase (e.parent, e.name) }

/-- `hash_get_vinode`; a negative inode number is not looked up. -/
def hashGetVinode (s : State) (sb : Sb) (inum : ℕ) : Option ℕ :=
  if 2 ^ 31 ≤ inum then none else s.vinodeHashTable.lookup (sb, inum)

def hashPutVinode (s : State) (v : ℕ) : Except Fault State := do
  let x ← s.vinode v
  if 2 ^ 31 ≤ x.inum then
    return s
  match s.vinodeHashTable.lookup (x.sb, x.inum) with
  | some _ => return s
  | none => return { s with vinodeHashTable := s.vinodeHashTable.insert (x.sb, x.inum) v }

def hashEraseVinode (s : State) (v : ℕ) : Except Fault State := do
  let x ← s.vinode v
  if 2 ^ 31 ≤ x.inum then
    return s
  return { s with vinodeHashTable := s.vinodeHashTable.erase (x.sb, x.inum) }

/-! ## Objects -/

/-- Add to the reference count of a vinode. -/
def addRef (s : State) (v : ℕ) (n : ℤ) : Except Fault State := do
  let x ← s.vinode v
  return s.setVinode v { x with ref := x.ref + n }

/-- `alloc_vfs_dentry`. -/
def allocVfsDentry (s : State) (name : Name) (inode : Option ℕ) (parent : Option ℕ) :
    Except Fault (ℕ × State) := do
  let (t, s) := s.allocPage
  let s := s.setDentry t { name := name, dRef := 0, dentryInode := inode, parent := parent }
  match inode with
  | none => return (t, s)
  | some v => return (t, ← addRef s v 1)

/-- `free_vfs_dentry`. -/
def freeVfsDentry (s : State) (t : ℕ) : Except Fault State := do
  let e ← s.dentry t
  if 0 < e.dRef then
    return s
  return s.freeDentry t

/-- `alloc_vfs_file`. -/
def allocVfsFile (s : State) (t : ℕ) (readable writable : Bool) : Except Fault (ℕ × State) := do
  let (f, s) := s.allocPage
  let e ← s.dentry t
  let s := s.setDentry t { e with dRef := e.dRef + 1 }
  let file : File := { readable := readable, writable := writable, offset := 0, fDentry := t }
  return (f, { s with files := s.files.insert f file })

/-! ## Operations of a vinode -/

/-- The file system that serves the operations of a vinode. -/
def viopSb (s : State) (v : ℕ) : Except Fault Unit := do
  let x ← s.vinode v
  match x.sb with
  | .rfs => return ()
  | .hostfs => throw .hostfs

def viopLookup (s : State) (v : ℕ) (name : Name) : Except Fault (Option ℕ × State) := do
  viopSb s v
  rfsLookup s v name

def viopCreate (s : State) (v : ℕ) (name : Name) : Except Fault (Option ℕ × State) := do
  viopSb s v
  rfsCreate s v name

def viopMkdir (s : State) (v : ℕ) (name : Name) : Except Fault (Option ℕ × State) := do
  viopSb s v
  rfsMkdir s v name

def viopLink (s : State) (v : ℕ) (name : Name) (linkNode : ℕ) : Except Fault (ℤ × State) := do
  viopSb s v
  rfsLink s v name linkNode

def viopUnlink (s : State) (v : ℕ) (name : Name) (unlinkVinode : ℕ) :
    Except Fault (ℤ × State) := do
  viopSb s v
  rfsUnlink s v name unlinkVinode

def viopWrite (s : State) (v : ℕ) (buf : Buf) (len offset : ℕ) :
    Except Fault ((ℕ × ℕ) × State) := do
  viopSb s v
  rfsWrite s v buf len offset

def viopWriteBackVinode (s : State) (v : ℕ) : Except Fault State := do
  viopSb s v
  rfsWriteBackVinode s v

def viopDiskStat (s : State) (v : ℕ) : Except Fault (Istat × State) := do
  viopSb s v
  rfsDiskStat s v

/-- `viop_hook_opendir`, which the host file system does not have. -/
def viopHookOpendir (s : State) (v : ℕ) : Except Fault State := do
  let x ← s.vinode v
  match x.sb with
  | .hostfs => return s
  | .rfs =>
    let (_, s) ← rfsHookOpendir s v
    return s

/-! ## Path lookup -/

/-- What `lookup_final_dentry` ends with: the dentry, or `miss_name`; and `*parent`. -/
inductive Lookup
  | found (dentry parent : ℕ)
  | missing (parent : ℕ) (missName : Name)
  deriving DecidableEq

/-- Give a dentry the vinode a lookup has built, or the one in the table for the same inode. -/
def attachFound (s : State) (this foundVinode : ℕ) : Except Fault State := do
  let x ← s.vinode foundVinode
  let e ← s.dentry this
  match hashGetVinode s x.sb x.inum with
  | some sameInode =>
    let s := s.setDentry this { e with dentryInode := some sameInode }
    let s ← addRef s sameInode 1
    hashPutDentry (s.freeVinode foundVinode) this
  | none =>
    let s := s.setDentry this { e with dentryInode := some foundVinode }
    let s ← addRef s foundVinode 1
    let s ← hashPutVinode s foundVinode
    hashPutDentry s this

/-- The loop of `lookup_final_dentry` over the components of the path. -/
def lookupLoop : List Name → ℕ → ℕ → State → Except Fault (Lookup × State)
  | [], this, parent, s => return (.found this parent, s)
  | token :: tokens, parent, _, s =>
    match hashGetDentry s parent token with
    | some this => lookupLoop tokens this parent s
    | none => do
      let (this, s) ← allocVfsDentry s token none (some parent)
      let (foundVinode, s) ← viopLookup s (← s.dentryInode parent) token
      match foundVinode with
      | none => return (.missing parent token, s.freeDentry this)
      | some v =>
        let s ← attachFound s this v
        lookupLoop tokens this parent s

/-- `lookup_final_dentry`. -/
def lookupFinalDentry (s : State) (path : List UInt8) (parent : ℕ) :
    Except Fault (Lookup × State) :=
  if MAX_PATH_LEN ≤ path.length then .error (.undefined "path_copy")
  else lookupLoop (pathTokens path) parent parent s

/-! ## The interface -/

/-- A new dentry gets its new vinode and both go to the tables (`vfs_open`, `vfs_mkdir`). -/
def attachNew (s : State) (t v : ℕ) : Except Fault State := do
  let e ← s.dentry t
  let s := s.setDentry t { e with dentryInode := some v }
  let s ← addRef s v 1
  let s ← hashPutDentry s t
  hashPutVinode s v

/-- The part of `vfs_open` that creates the missing file. -/
def createFile (s : State) (path : List UInt8) (parent : ℕ) (missName : Name) :
    Except Fault (Option ℕ × State) := do
  let basename ← getBaseName path
  if missName ≠ basename then
    return (none, s)
  let (t, s) ← allocVfsDentry s basename none (some parent)
  let (newInode, s) ← viopCreate s (← s.dentryInode parent) basename
  match newInode with
  | none => throw (.panic "vfs_open: cannot create file!\n")
  | some v => return (some t, ← attachNew s t v)

/-- The readable and writable flags `vfs_open` takes from its argument. -/
def fileMode (flags : ℕ) : Except Fault (Bool × Bool) :=
  match flags &&& MASK_FILEMODE with
  | 0 => .ok (true, false)
  | 1 => .ok (false, true)
  | 2 => .ok (true, true)
  | _ => .error (.panic "fs_open: invalid open flags!\n")

/-- The part of `vfs_open` behind the lookup: a dentry that exists is opened. -/
def openDentry (s : State) (t flags : ℕ) : Except Fault (Option ℕ × State) := do
  let x ← s.vinode (← s.dentryInode t)
  if x.type ≠ FILE_I then
    return (none, s)
  let (readable, writable) ← fileMode flags
  let (f, s) ← allocVfsFile s t readable writable
  match x.sb with
  | .rfs => return (some f, s)
  | .hostfs => throw .hostfs

/-- `vfs_open`. -/
def vfsOpen (s : State) (path : List UInt8) (flags : ℕ) : Except Fault (Option ℕ × State) := do
  let (r, s) ← lookupFinalDentry s path s.vfsRootDentry
  match r with
  | .found t _ => openDentry s t flags
  | .missing parent missName =>
    if flags &&& O_CREAT = 0 then
      return (none, s)
    let (t, s) ← createFile s path parent missName
    match t with
    | none => return (none, s)
    | some t => openDentry s t flags

/-- `vfs_write`. -/
def vfsWrite (s : State) (f : ℕ) (buf : Buf) (count : ℕ) : Except Fault (ℤ × State) := do
  let file ← s.file f
  if !file.writable then
    return (-1, s)
  let v ← s.dentryInode file.fDentry
  let x ← s.vinode v
  if x.type ≠ FILE_I then
    return (-1, s)
  let ((len, offset), s) ← viopWrite s v buf count file.offset
  return (len, { s with files := s.files.insert f { file with offset := offset } })

/-- `vfs_stat`. -/
def vfsStat (s : State) (f : ℕ) : Except Fault Istat := do
  let file ← s.file f
  let x ← s.vinode (← s.dentryInode file.fDentry)
  return { stInum := x.inum, stSize := x.size, stType := x.type, stNlinks := x.nlinks,
           stBlocks := x.blocks }

/-- `vfs_disk_stat`. -/
def vfsDiskStat (s : State) (f : ℕ) : Except Fault (Istat × State) := do
  let file ← s.file f
  viopDiskStat s (← s.dentryInode file.fDentry)

/-- `vfs_link`. -/
def vfsLink (s : State) (oldpath newpath : List UInt8) : Except Fault (ℤ × State) := do
  let (r, s) ← lookupFinalDentry s oldpath s.vfsRootDentry
  match r with
  | .missing _ _ => return (-1, s)
  | .found oldFileDentry _ =>
    let v ← s.dentryInode oldFileDentry
    let x ← s.vinode v
    if x.type ≠ FILE_I then
      return (-1, s)
    let (r, s) ← lookupFinalDentry s newpath s.vfsRootDentry
    match r with
    | .found _ _ => return (-1, s)
    | .missing parent missName =>
      let basename ← getBaseName newpath
      if missName ≠ basename then
        return (-1, s)
      let (t, s) ← allocVfsDentry s basename (some v) (some parent)
      let (err, s) ← viopLink s (← s.dentryInode parent) basename v
      if err ≠ 0 then
        return (-1, s)
      let s ← hashPutDentry s t
      return (0, s)

/-- The part of `vfs_unlink` behind `viop_unlink`: forget the dentry, and the vinode with the last
link. -/
def forgetDentry (s : State) (t unlinkedVinode : ℕ) : Except Fault State := do
  let s ← hashEraseDentry s t
  let s ← freeVfsDentry s t
  let s ← addRef s unlinkedVinode (-1)
  let x ← s.vinode unlinkedVinode
  if x.nlinks = 0 then
    if x.ref ≠ 0 then
      throw (.assertion "unlinked_vinode->ref == 0")
    let s ← hashEraseVinode s unlinkedVinode
    return s.freeVinode unlinkedVinode
  return s

/-- `vfs_unlink`. -/
def vfsUnlink (s : State) (path : List UInt8) : Except Fault (ℤ × State) := do
  let (r, s) ← lookupFinalDentry s path s.vfsRootDentry
  match r with
  | .missing _ _ => return (-1, s)
  | .found t parent =>
    let e ← s.dentry t
    let v ← s.dentryInode t
    let x ← s.vinode v
    if x.type ≠ FILE_I then
      return (-1, s)
    if 0 < e.dRef then
      return (-1, s)
    let (err, s) ← viopUnlink s (← s.dentryInode parent) e.name v
    if err ≠ 0 then
      return (-1, s)
    let s ← forgetDentry s t v
    return (0, s)

/-- The part of `vfs_close` on a dentry that `dRef` open files still point to: the last one frees
the dentry, and with the last dentry the vinode is written back and freed. -/
def releaseDentry (s : State) (t v : ℕ) (dRef : ℤ) : Except Fault State := do
  if dRef ≠ 0 then
    return s
  let s ← hashEraseDentry s t
  let s ← freeVfsDentry s t
  let s ← addRef s v (-1)
  let x ← s.vinode v
  if x.ref = 0 then
    let s ← viopWriteBackVinode s v
    let s ← hashEraseVinode s v
    return s.freeVinode v
  return s

/-- `vfs_close`. -/
def vfsClose (s : State) (f : ℕ) : Except Fault (ℤ × State) := do
  let file ← s.file f
  let t := file.fDentry
  let v ← s.dentryInode t
  let x ← s.vinode v
  if x.type ≠ FILE_I then
    return (-1, s)
  viopSb s v
  let e ← s.dentry t
  let s := s.setDentry t { e with dRef := e.dRef - 1 }
  let s ← releaseDentry s t v (e.dRef - 1)
  return (0, { s with files := s.files.erase f })

/-- `vfs_opendir`. -/
def vfsOpendir (s : State) (path : List UInt8) : Except Fault (Option ℕ × State) := do
  let (r, s) ← lookupFinalDentry s path s.vfsRootDentry
  match r with
  | .missing _ _ => return (none, s)
  | .found t _ =>
    let v ← s.dentryInode t
    let x ← s.vinode v
    if x.type ≠ DIR_I then
      return (none, s)
    let (f, s) ← allocVfsFile s t true false
    return (some f, ← viopHookOpendir s v)

/-- `vfs_mkdir`. -/
def vfsMkdir (s : State) (path : List UInt8) : Except Fault (ℤ × State) := do
  let (r, s) ← lookupFinalDentry s path s.vfsRootDentry
  match r with
  | .found _ _ => return (-1, s)
  | .missing parent missName =>
    let basename ← getBaseName path
    if missName ≠ basename then
      return (-1, s)
    let (t, s) ← allocVfsDentry s basename none (some parent)
    let (newDirInode, s) ← viopMkdir s (← s.dentryInode parent) basename
    match newDirInode with
    | none => return (-1, s.freeDentry t)
    | some v => return (0, ← attachNew s t v)

/-! ## Start-up -/

/-- `hostfs_get_superblock`: the root dentry of the host file system, with inode number -1. -/
def hostfsGetSuperblock (s : State) : Except Fault (ℕ × State) := do
  let (v, s) := s.allocPage
  let s := s.setVinode v
    { size := 0, type := DIR_I, nlinks := 0, blocks := 0, addrs := fun _ => 0,
      inum := 2 ^ 32 - 1, ref := 0, iFsInfo := none, sb := .hostfs }
  allocVfsDentry s [47] (some v) none

/-- `rfs_get_superblock`. -/
def rfsGetSuperblock (s : State) : Except Fault (ℕ × State) := do
  let s ← rfsR1block s RFS_BLK_OFFSET_SUPER
  let magic := s.iobuffer.u32 0
  let size := s.iobuffer.u32 4
  let nblocks := s.iobuffer.u32 8
  let ninodes := s.iobuffer.u32 12
  if magic ≠ RFS_MAGIC then
    throw (.panic "rfs_get_superblock: wrong ramdisk device!\n")
  let (v, s) ← rfsNewVinode s 0
  let (t, s) ← allocVfsDentry s [47] (some v) none
  let s ← rfsR1block s RFS_BLK_OFFSET_BITMAP
  let sb : SuperBlock :=
    { magic := magic, size := size, nblocks := nblocks, ninodes := ninodes, sRoot := t }
  return (t, { s with sb := sb, freemap := fun k => s.iobuffer.u32 (4 * k) })

/-- `"RAMDISK0"`. -/
def ramdisk0 : Name := [82, 65, 77, 68, 73, 83, 75, 48]

/-- `vfs_mount` of the host file system with `MOUNT_AS_ROOT`. -/
def mountHostfs (s : State) : Except Fault State := do
  let (t, s) ← hostfsGetSuperblock s
  let s ← hashPutVinode s (← s.dentryInode t)
  hashPutDentry { s with vfsRootDentry := t } t

/-- `vfs_mount` of the RAM disk with `MOUNT_DEFAULT`: the root dentry of RFS becomes the entry of
the device below the root of the system. -/
def mountRfs (s : State) : Except Fault State := do
  let (t, s) ← rfsGetSuperblock s
  let s ← hashPutVinode s (← s.dentryInode t)
  let e ← s.dentry t
  let s := s.setDentry t { e with name := ramdisk0, parent := some s.vfsRootDentry }
  hashPutDentry s t

/-- What `fs_init` starts from: whatever the disk, the buffer and the stack hold. -/
structure Boot where
  disk : Disk
  iobuffer : Buf
  pageAddr : ℕ → ℕ
  stack : ℕ → ℕ

/-- The state before `fs_init`. -/
def Boot.state (b : Boot) : State where
  disk := b.disk
  iobuffer := b.iobuffer
  pages := 0
  pageAddr := b.pageAddr
  sb := { magic := 0, size := 0, nblocks := 0, ninodes := 0, sRoot := 0 }
  freemap := fun _ => 0
  vfsRootDentry := 0
  dentries := fun _ => none
  vinodes := fun _ => none
  files := ∅
  dentryHashTable := ∅
  vinodeHashTable := ∅

/-- `fs_init`. -/
def fsInit (b : Boot) : Except Fault State := do
  let s ← mountHostfs b.state
  let s ← rfsFormatDev s b.stack
  mountRfs s

/-! ## Operations -/

/-- An operation of the interface. -/
inductive Op
  | open (path : Path) (flags : ℕ)
  | write (f : ℕ) (buf : Buf) (count : ℕ)
  | close (f : ℕ)
  | mkdir (path : Path)
  | link (oldpath newpath : Path)
  | unlink (path : Path)
  | opendir (path : Path)

/-- The result of an operation: a file pointer or an integer. -/
inductive Ret
  | file (f : Option ℕ)
  | int (r : ℤ)
  deriving DecidableEq

/-- Run an operation. -/
def exec (op : Op) (s : State) : Except Fault (Ret × State) :=
  match op with
  | .open path flags => do
    let (f, s) ← vfsOpen s path.1 flags
    return (.file f, s)
  | .write f buf count => do
    let (r, s) ← vfsWrite s f buf count
    return (.int r, s)
  | .close f => do
    let (r, s) ← vfsClose s f
    return (.int r, s)
  | .mkdir path => do
    let (r, s) ← vfsMkdir s path.1
    return (.int r, s)
  | .link oldpath newpath => do
    let (r, s) ← vfsLink s oldpath.1 newpath.1
    return (.int r, s)
  | .unlink path => do
    let (r, s) ← vfsUnlink s path.1
    return (.int r, s)
  | .opendir path => do
    let (f, s) ← vfsOpendir s path.1
    return (.file f, s)

end HustOS.Fs
