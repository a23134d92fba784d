import HustOS.Fs.Vfs

/-!
# The host file system

`kernel/hostfs.c`, and the functions of `kernel/vfs.c` over both file systems. The files of the host
are reached through the Spike interface, a parameter (`Host`): a path is opened for a file pointer,
which is negative where the host reports an error.

`Hosted` is the state of the file system with what the vinodes of the host file system hold in
`i_fs_info`, and the host. A call that stays in RFS is the call of `HustOS.Fs.Vfs`.
-/

namespace HustOS.Fs

open Foundations

/-- `"./hostfs_root"`. -/
def H_ROOT_DIR : List UInt8 := [46, 47, 104, 111, 115, 116, 102, 115, 95, 114, 111, 111, 116]

/-- `S_IRUSR | S_IWUSR`. -/
abbrev S_IRWUSR : ℕ := 0o600

/-! ## The host -/

/-- What `hostfs_update_vinode` reads of a `struct stat`. -/
structure Stat where
  stIno : ℕ
  stMode : ℕ
  stNlink : ℕ
  stSize : ℕ
  stBlocks : ℕ

/-- `S_ISDIR`. -/
def Stat.isDir (st : Stat) : Bool := st.stMode &&& 0o170000 = 0o040000

/-- `S_ISREG`. -/
def Stat.isReg (st : Stat) : Bool := st.stMode &&& 0o170000 = 0o100000

/-- The Spike interface to a host whose states are of type `W`. -/
structure Host (W : Type) where
  /-- `spike_file_open(path, flags, mode)`. -/
  spikeFileOpen : List UInt8 → ℕ → ℕ → W → ℤ × W
  /-- `spike_file_stat`. -/
  spikeFileStat : ℤ → W → Stat × W
  /-- `spike_file_close`. -/
  spikeFileClose : ℤ → W → W
  /-- The host has a file or a directory at the path. -/
  Exists : W → List UInt8 → Prop
  /-- A path that does not exist is opened with an error, unless the file is created. -/
  missing : ∀ w path flags mode, ¬ Exists w path → flags &&& O_CREAT = 0 →
    (spikeFileOpen path flags mode w).1 < 0

/-- The state of both file systems. -/
structure Hosted (W : Type) extends State where
  /-- `i_fs_info` of the vinodes of the host file system. -/
  hostFile : ℕ → ℤ
  /-- What a page handed out holds in the place of the field `type` of a vinode. -/
  oldType : ℕ → ℕ
  world : W

/-! ## Paths on the host -/

/-- `path_backtrack`. The recursion follows the parents. -/
def pathBacktrack (s : State) : ℕ → ℕ → List UInt8 → Except Fault (List UInt8)
  | 0, _, _ => throw .spin
  | fuel + 1, t, path => do
    let e ← s.dentry t
    match e.parent with
    | none => return path
    | some p =>
      let path ← pathBacktrack s fuel p path
      let path := path ++ [47]
      return path ++ e.name

/-- `get_path_string`. -/
def getPathString (s : State) (t : ℕ) : Except Fault (List UInt8) :=
  pathBacktrack s (s.pages + 1) t H_ROOT_DIR

/-- `get_path_string` into a local array `path[MAX_PATH_LEN]`. -/
def localPath (s : State) (t : ℕ) : Except Fault (List UInt8) := do
  let path ← getPathString s t
  if MAX_PATH_LEN ≤ path.length then throw (.undefined "path")
  return path

namespace Hosted

variable {W α : Type}

/-- A function that does not look at the host. -/
def lift (f : State → Except Fault (α × State)) (h : Hosted W) : Except Fault (α × Hosted W) := do
  let (a, s) ← f h.toState
  return (a, { h with toState := s })

/-- A function without a result that does not look at the host. -/
def lift₀ (f : State → Except Fault State) (h : Hosted W) : Except Fault (Hosted W) := do
  let s ← f h.toState
  return { h with toState := s }

variable (host : Host W)

/-! ## Vinodes of the host file system -/

/-- `hostfs_alloc_vinode`. -/
def hostfsAllocVinode (h : Hosted W) : ℕ × Hosted W :=
  let (v, s) := h.toState.allocPage
  let s := s.setVinode v
    { size := 0, type := h.oldType v, nlinks := 0, blocks := 0, addrs := fun _ => 0,
      inum := 2 ^ 32 - 1, ref := 0, iFsInfo := none, sb := .hostfs }
  (v, { h with toState := s, hostFile := Function.update h.hostFile v 0 })

/-- `hostfs_update_vinode`. -/
def hostfsUpdateVinode (h : Hosted W) (v : ℕ) : Except Fault (ℤ × Hosted W) := do
  let x ← h.vinode v
  let f := h.hostFile v
  if f < 0 then
    return (-1, { h with toState := h.setVinode v { x with type := DIR_I } })
  let (stat, world) := host.spikeFileStat f h.world
  let h := { h with world := world }
  let x := { x with
    inum := stat.stIno % 2 ^ 32
    size := stat.stSize % 2 ^ 32
    nlinks := stat.stNlink % 2 ^ 32
    blocks := stat.stBlocks % 2 ^ 32 }
  if stat.isDir then
    return (0, { h with toState := h.setVinode v { x with type := DIR_I } })
  else if stat.isReg then
    return (0, { h with toState := h.setVinode v { x with type := FILE_I } })
  else
    return (-1, { h with toState := h.setVinode v x })

/-- `vinode->ref = 0`. -/
def resetRef (h : Hosted W) (v : ℕ) : Except Fault (Hosted W) := do
  let x ← h.vinode v
  return { h with toState := h.setVinode v { x with ref := 0 } }

/-- `hostfs_lookup`. It does not look at what `hostfs_update_vinode` returns, and always finds a
vinode. -/
def hostfsLookup (h : Hosted W) (subDentry : ℕ) : Except Fault (Option ℕ × Hosted W) := do
  let path ← localPath h.toState subDentry
  let (f, world) := host.spikeFileOpen path O_RDWR 0 h.world
  let (v, h) := hostfsAllocVinode { h with world := world }
  let h := { h with hostFile := Function.update h.hostFile v f }
  let (_, h) ← hostfsUpdateVinode host h v
  let h ← resetRef h v
  return (some v, h)

/-- `hostfs_create`. -/
def hostfsCreate (h : Hosted W) (subDentry : ℕ) : Except Fault (Option ℕ × Hosted W) := do
  let path ← localPath h.toState subDentry
  let (f, world) := host.spikeFileOpen path (O_RDWR ||| O_CREAT) S_IRWUSR h.world
  let h := { h with world := world }
  if f < 0 then
    return (none, h)
  let (v, h) := hostfsAllocVinode h
  let h := { h with hostFile := Function.update h.hostFile v f }
  let (err, h) ← hostfsUpdateVinode host h v
  if err ≠ 0 then
    return (none, h)
  let h ← resetRef h v
  return (some v, h)

/-- `hostfs_hook_open`. -/
def hostfsHookOpen (h : Hosted W) (v t : ℕ) : Except Fault (ℤ × Hosted W) := do
  if h.hostFile v ≠ 0 then
    return (0, h)
  let path ← localPath h.toState t
  let (f, world) := host.spikeFileOpen path O_RDWR 0 h.world
  let h := { h with world := world }
  if f < 0 then
    return (-1, h)
  return (0, { h with hostFile := Function.update h.hostFile v f })

/-- `hostfs_hook_close`. -/
def hostfsHookClose (h : Hosted W) (v : ℕ) : ℤ × Hosted W :=
  (0, { h with world := host.spikeFileClose (h.hostFile v) h.world })

/-! ## Operations of a vinode -/

def viopLookup (h : Hosted W) (v subDentry : ℕ) (name : Name) :
    Except Fault (Option ℕ × Hosted W) := do
  let x ← h.vinode v
  match x.sb with
  | .rfs => lift (rfsLookup · v name) h
  | .hostfs => hostfsLookup host h subDentry

def viopCreate (h : Hosted W) (v subDentry : ℕ) (name : Name) :
    Except Fault (Option ℕ × Hosted W) := do
  let x ← h.vinode v
  match x.sb with
  | .rfs => lift (rfsCreate · v name) h
  | .hostfs => hostfsCreate host h subDentry

def viopMkdir (h : Hosted W) (v : ℕ) (name : Name) : Except Fault (Option ℕ × Hosted W) := do
  let x ← h.vinode v
  match x.sb with
  | .rfs => lift (rfsMkdir · v name) h
  | .hostfs => throw (.panic "hostfs_mkdir not implemented!\n")

def viopLink (h : Hosted W) (v : ℕ) (name : Name) (linkNode : ℕ) :
    Except Fault (ℤ × Hosted W) := do
  let x ← h.vinode v
  match x.sb with
  | .rfs => lift (rfsLink · v name linkNode) h
  | .hostfs => throw (.panic "hostfs_link not implemented!\n")

def viopUnlink (h : Hosted W) (v : ℕ) (name : Name) (unlinkVinode : ℕ) :
    Except Fault (ℤ × Hosted W) := do
  let x ← h.vinode v
  match x.sb with
  | .rfs => lift (rfsUnlink · v name unlinkVinode) h
  | .hostfs => throw (.panic "hostfs_unlink not implemented!\n")

/-- `viop_write_back_vinode`; for the host file system it does nothing. -/
def viopWriteBackVinode (h : Hosted W) (v : ℕ) : Except Fault (Hosted W) := do
  let x ← h.vinode v
  match x.sb with
  | .rfs => lift₀ (rfsWriteBackVinode · v) h
  | .hostfs => return h

/-! ## Path lookup -/

/-- The loop of `lookup_final_dentry` over the components of the path. -/
def lookupLoop : List Name → ℕ → ℕ → Hosted W → Except Fault (Lookup × Hosted W)
  | [], this, parent, h => return (.found this parent, h)
  | token :: tokens, parent, _, h =>
    match hashGetDentry h.toState parent token with
    | some this => lookupLoop tokens this parent h
    | none => do
      let (this, h) ← lift (allocVfsDentry · token none (some parent)) h
      let (foundVinode, h) ← viopLookup host h (← h.dentryInode parent) this token
      match foundVinode with
      | none => return (.missing parent token, { h with toState := h.freeDentry this })
      | some v =>
        let h ← lift₀ (attachFound · this v) h
        lookupLoop tokens this parent h

/-- `lookup_final_dentry`. -/
def lookupFinalDentry (h : Hosted W) (path : List UInt8) (parent : ℕ) :
    Except Fault (Lookup × Hosted W) :=
  if MAX_PATH_LEN ≤ path.length then .error (.undefined "path_copy")
  else lookupLoop host (pathTokens path) parent parent h

/-! ## The interface -/

/-- The part of `vfs_open` that creates the missing file. -/
def createFile (h : Hosted W) (path : List UInt8) (parent : ℕ) (missName : Name) :
    Except Fault (Option ℕ × Hosted W) := do
  let basename ← getBaseName path
  if missName ≠ basename then
    return (none, h)
  let (t, h) ← lift (allocVfsDentry · basename none (some parent)) h
  let (newInode, h) ← viopCreate host h (← h.dentryInode parent) t basename
  match newInode with
  | none => throw (.panic "vfs_open: cannot create file!\n")
  | some v =>
    let h ← lift₀ (attachNew · t v) h
    return (some t, h)

/-- The part of `vfs_open` behind the lookup: a dentry that exists is opened. -/
def openDentry (h : Hosted W) (t flags : ℕ) : Except Fault (Option ℕ × Hosted W) := do
  let v ← h.dentryInode t
  let x ← h.vinode v
  if x.type ≠ FILE_I then
    return (none, h)
  let (readable, writable) ← fileMode flags
  let (f, h) ← lift (allocVfsFile · t readable writable) h
  match x.sb with
  | .rfs => return (some f, h)
  | .hostfs =>
    let (_, h) ← hostfsHookOpen host h v t
    return (some f, h)

/-- `vfs_open`. -/
def vfsOpen (h : Hosted W) (path : List UInt8) (flags : ℕ) :
    Except Fault (Option ℕ × Hosted W) := do
  let (r, h) ← lookupFinalDentry host h path h.vfsRootDentry
  match r with
  | .found t _ => openDentry host h t flags
  | .missing parent missName =>
    if flags &&& O_CREAT = 0 then
      return (none, h)
    let (t, h) ← createFile host h path parent missName
    match t with
    | none => return (none, h)
    | some t => openDentry host h t flags

/-- `vfs_opendir`. -/
def vfsOpendir (h : Hosted W) (path : List UInt8) : Except Fault (Option ℕ × Hosted W) := do
  let (r, h) ← lookupFinalDentry host h path h.vfsRootDentry
  match r with
  | .missing _ _ => return (none, h)
  | .found t _ =>
    let v ← h.dentryInode t
    let x ← h.vinode v
    if x.type ≠ DIR_I then
      return (none, h)
    let (f, h) ← lift (allocVfsFile · t true false) h
    let h ← lift₀ (viopHookOpendir · v) h
    return (some f, h)

/-- `vfs_mkdir`. -/
def vfsMkdir (h : Hosted W) (path : List UInt8) : Except Fault (ℤ × Hosted W) := do
  let (r, h) ← lookupFinalDentry host h path h.vfsRootDentry
  match r with
  | .found _ _ => return (-1, h)
  | .missing parent missName =>
    let basename ← getBaseName path
    if missName ≠ basename then
      return (-1, h)
    let (t, h) ← lift (allocVfsDentry · basename none (some parent)) h
    let (newDirInode, h) ← viopMkdir h (← h.dentryInode parent) basename
    match newDirInode with
    | none => return (-1, { h with toState := h.freeDentry t })
    | some v =>
      let h ← lift₀ (attachNew · t v) h
      return (0, h)

/-- `vfs_link`. -/
def vfsLink (h : Hosted W) (oldpath newpath : List UInt8) : Except Fault (ℤ × Hosted W) := do
  let (r, h) ← lookupFinalDentry host h oldpath h.vfsRootDentry
  match r with
  | .missing _ _ => return (-1, h)
  | .found oldFileDentry _ =>
    let v ← h.dentryInode oldFileDentry
    let x ← h.vinode v
    if x.type ≠ FILE_I then
      return (-1, h)
    let (r, h) ← lookupFinalDentry host h newpath h.vfsRootDentry
    match r with
    | .found _ _ => return (-1, h)
    | .missing parent missName =>
      let basename ← getBaseName newpath
      if missName ≠ basename then
        return (-1, h)
      let (t, h) ← lift (allocVfsDentry · basename (some v) (some parent)) h
      let (err, h) ← viopLink h (← h.dentryInode parent) basename v
      if err ≠ 0 then
        return (-1, h)
      let h ← lift₀ (hashPutDentry · t) h
      return (0, h)

/-- `vfs_unlink`. -/
def vfsUnlink (h : Hosted W) (path : List UInt8) : Except Fault (ℤ × Hosted W) := do
  let (r, h) ← lookupFinalDentry host h path h.vfsRootDentry
  match r with
  | .missing _ _ => return (-1, h)
  | .found t parent =>
    let e ← h.dentry t
    let v ← h.dentryInode t
    let x ← h.vinode v
    if x.type ≠ FILE_I then
      return (-1, h)
    if 0 < e.dRef then
      return (-1, h)
    let (err, h) ← viopUnlink h (← h.dentryInode parent) e.name v
    if err ≠ 0 then
      return (-1, h)
    let h ← lift₀ (forgetDentry · t v) h
    return (0, h)

/-- The part of `vfs_close` on a dentry that `dRef` open files still point to. -/
def releaseDentry (h : Hosted W) (t v : ℕ) (dRef : ℤ) : Except Fault (Hosted W) := do
  if dRef ≠ 0 then
    return h
  let h ← lift₀ (hashEraseDentry · t) h
  let h ← lift₀ (freeVfsDentry · t) h
  let h ← lift₀ (addRef · v (-1)) h
  let x ← h.vinode v
  if x.ref = 0 then
    let h ← viopWriteBackVinode h v
    let h ← lift₀ (hashEraseVinode · v) h
    return { h with toState := h.freeVinode v }
  return h

/-- `vfs_close`. -/
def vfsClose (h : Hosted W) (f : ℕ) : Except Fault (ℤ × Hosted W) := do
  let file ← h.file f
  let t := file.fDentry
  let v ← h.dentryInode t
  let x ← h.vinode v
  if x.type ≠ FILE_I then
    return (-1, h)
  let h := match x.sb with
    | .rfs => h
    | .hostfs => (hostfsHookClose host h v).2
  let e ← h.dentry t
  let h := { h with toState := h.setDentry t { e with dRef := e.dRef - 1 } }
  let h ← releaseDentry h t v (e.dRef - 1)
  return (0, { h with files := h.files.erase f })

end Hosted

end HustOS.Fs
