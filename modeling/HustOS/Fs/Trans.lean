import HustOS.Fs.Invariant

/-!
# The transitions of the file system

`Trans` lists what an operation does to the state, one small change at a time: to the caches, to the
open files, to the directories and to the contents of a file. Each transition comes with the
condition under which the code makes it, and with a tag that says what it is about.

Every transition keeps the invariant (`Trans.inv`). A transition of the caches leaves the volume as
it is; the others are the operations of `Vol`.
-/

namespace HustOS.Fs

open Foundations

/-- The disk has the inodes `f` and the data blocks `g`. -/
structure DiskIs (d : Disk) (f : ℕ → Dinode) (g : ℕ → Buf) : Prop where
  node : ∀ k < ninodes, d.dinode k = f k
  block : ∀ b, IsData b → d b = g b

namespace State

/-- A vinode for the inode `i`. -/
def addVinode (s : State) (i v : ℕ) : State :=
  { s with
    vinodes := Function.update s.vinodes v (some (newVinode (s.disk.dinode i) i))
    vinodeHashTable := s.vinodeHashTable.insert (.rfs, i) v }

/-- A dentry `t` with the name `n` below `p`, for the vinode `v` with the value `x`. -/
def addDentry (s : State) (p : ℕ) (n : Name) (t v : ℕ) (x : Vinode) : State :=
  { s with
    dentries := Function.update s.dentries t
      (some { name := n, dRef := 0, dentryInode := some v, parent := some p })
    dentryHashTable := s.dentryHashTable.insert (some p, n) t
    vinodes := Function.update s.vinodes v (some { x with ref := x.ref + 1 }) }

/-- The dentry `t` is forgotten. -/
def dropDentry (s : State) (t : ℕ) (e : Dentry) (v : ℕ) (x : Vinode) : State :=
  { s with
    dentries := Function.update s.dentries t none
    dentryHashTable := s.dentryHashTable.erase (e.parent, e.name)
    vinodes := Function.update s.vinodes v (some { x with ref := x.ref - 1 }) }

/-- The vinode of the inode `i` is forgotten; the disk is `d'` then. -/
def dropVinode (s : State) (i v : ℕ) (d' : Disk) : State :=
  { s with
    disk := d'
    vinodes := Function.update s.vinodes v none
    vinodeHashTable := s.vinodeHashTable.erase (.rfs, i) }

/-- The file `f` is opened. -/
def addFile (s : State) (f : ℕ) (fl : File) (e : Dentry) : State :=
  { s with
    files := s.files.insert f fl
    dentries := Function.update s.dentries fl.fDentry (some { e with dRef := e.dRef + 1 }) }

/-- The file `f` is closed. -/
def dropFile (s : State) (f : ℕ) (fl : File) (e : Dentry) : State :=
  { s with
    files := s.files.erase f
    dentries := Function.update s.dentries fl.fDentry (some { e with dRef := e.dRef - 1 }) }

/-- The block `k` is taken and the directory `y` gets longer. -/
def make (s : State) (vd : ℕ) (y : Vinode) (k : ℕ) (d' : Disk) : State :=
  { s with
    disk := d'
    freemap := Function.update s.freemap k 1
    vinodes := Function.update s.vinodes vd (some { y with size := y.size + 32 }) }

/-- The file `l` gets a link and the directory `y` gets longer. -/
def link (s : State) (vd : ℕ) (y : Vinode) (w : ℕ) (l : Vinode) (d' : Disk) : State :=
  { s with
    disk := d'
    vinodes := Function.update
      (Function.update s.vinodes w (some { l with nlinks := l.nlinks + 1 })) vd
      (some { y with size := y.size + 32 }) }

/-- The file `l` keeps `m` links and the directory `y` gets shorter. -/
def unlink (s : State) (vd : ℕ) (y : Vinode) (w : ℕ) (l : Vinode) (m : ℕ) (d' : Disk) : State :=
  { s with
    disk := d'
    vinodes := Function.update (Function.update s.vinodes w (some { l with nlinks := m })) vd
      (some { y with size := y.size - 32 }) }

/-- The file `j` is removed with the blocks of its disk inode and the directory `y` gets shorter. -/
def remove (s : State) (vd : ℕ) (y : Vinode) (j w : ℕ) (d' : Disk) : State :=
  { s with
    disk := d'
    freemap := fun k => if RFS_BLK_OFFSET_FREE + k ∈ (s.disk.dinode j).blks then 0 else s.freemap k
    vinodes := Function.update
      (Function.update s.vinodes vd (some { y with size := y.size - 32 })) w none
    vinodeHashTable := s.vinodeHashTable.erase (.rfs, j) }

/-- The file `x` gets the block `k`. -/
def grow (s : State) (v : ℕ) (x : Vinode) (k : ℕ) : State :=
  { s with
    freemap := Function.update s.freemap k 1
    vinodes := Function.update s.vinodes v (some
      { x with
        addrs := Function.update x.addrs x.blocks (RFS_BLK_OFFSET_FREE + k)
        blocks := x.blocks + 1 }) }

/-- Some open file leads to the vinode. -/
def Opened (s : State) (v : ℕ) : Prop :=
  ∃ f fl, s.files.lookup f = some fl ∧ s.inodeOf fl.fDentry = some v

end State

/-- What a transition is about: the tables and the open files, a file that is closed, the inodes and
directories, the contents of a file, or the removal of a file. -/
inductive Tag
  | quiet
  | closes
  | edits
  | writes (i : ℕ)
  | frees (i : ℕ)

/-- The conditions of a creation in the directory `y`: the free inode `i`, the free block `k`, and
the disk with the new inode `x` and the new entry. -/
structure Making (s : State) (d vd : ℕ) (y : Vinode) (i k : ℕ) (n : Name) (x : Dinode) (d' : Disk) :
    Prop where
  dir : Cached s d vd y
  room : Room s.vol d n
  fresh : Fresh s i k
  new : x = madeNode R_FILE 0 (s.disk.dinode i) (12 + k) ∨
    x = madeNode R_DIR 1 (s.disk.dinode i) (12 + k)
  disk : DiskIs d'
    (Function.update (Function.update s.disk.dinode i x) d { y.toDinode with size := y.size + 32 })
    (Function.update s.disk (y.addrs 0) (putEntry (s.disk (y.addrs 0)) y.size n i))

/-- The conditions of a new name for the file `l`; its inode is written to the disk. -/
structure Linking (s : State) (d vd : ℕ) (y : Vinode) (j w : ℕ) (l : Vinode) (n : Name)
    (d' : Disk) :
    Prop where
  dir : Cached s d vd y
  room : Room s.vol d n
  node : Cached s j w l
  file : l.type = FILE_I
  disk : DiskIs d'
    (Function.update (Function.update s.disk.dinode d { y.toDinode with size := y.size + 32 }) j
      { l.toDinode with nlinks := l.nlinks + 1 })
    (Function.update s.disk (y.addrs 0) (putEntry (s.disk (y.addrs 0)) y.size n j))

/-- The `k`-th entry of the directory `y` is the name `n` of the file `l`. -/
structure NameOf (s : State) (d vd : ℕ) (y : Vinode) (j w : ℕ) (l : Vinode) (n : Name) (k : ℕ) :
    Prop where
  dir : Cached s d vd y
  node : Cached s j w l
  file : l.type = FILE_I
  mem : (n, j) ∈ s.vol.dir d
  lt : k < (s.vol.dir d).length
  index : (s.vol.dir d).eraseIdx k = (s.vol.dir d).erase (n, j)

/-- The conditions of the removal of a name that leaves `m` others. On the disk only the link count
of the inode changes. -/
structure Unlinking (s : State) (d vd : ℕ) (y : Vinode) (j w : ℕ) (l : Vinode) (n : Name)
    (m k : ℕ) (d' : Disk) : Prop extends NameOf s d vd y j w l n k where
  absent : ∀ p, DentryOf s p d → s.dentryHashTable.lookup (some p, n) = none
  nlinks : l.nlinks = m + 1
  pos : 0 < m
  disk : DiskIs d'
    (Function.update (Function.update s.disk.dinode j { s.disk.dinode j with nlinks := m }) d
      { y.toDinode with size := y.size - 32 })
    (Function.update s.disk (y.addrs 0) (dropEntry (s.disk (y.addrs 0)) k))

/-- The conditions of the removal of the last name. -/
structure Removing (s : State) (d vd : ℕ) (y : Vinode) (j w : ℕ) (l : Vinode) (n : Name) (k : ℕ)
    (d' : Disk) : Prop extends NameOf s d vd y j w l n k where
  ref : l.ref = 0
  nlinks : l.nlinks = 1
  disk : DiskIs d'
    (Function.update
      (Function.update s.disk.dinode j { s.disk.dinode j with nlinks := 0, type := R_FREE }) d
      { y.toDinode with size := y.size - 32 })
    (Function.update s.disk (y.addrs 0) (dropEntry (s.disk (y.addrs 0)) k))

/-- One change of the state. -/
inductive Trans (s : State) : Tag → State → Prop
  /-- The buffer of the device and the pages handed out. -/
  | scratch (buf : Buf) {k : ℕ} (pages : s.pages ≤ k) :
      Trans s .quiet { s with iobuffer := buf, pages := k }
  /-- A vinode for an inode without one. -/
  | load {i v : ℕ} (inUse : s.vol.InUse i) (absent : s.vinodeHashTable.lookup (.rfs, i) = none)
      (page : s.vinodes v = none) (lt : v < s.pages) :
      Trans s .quiet (s.addVinode i v)
  /-- A dentry for a directory entry. -/
  | enter {p d i v t : ℕ} {n : Name} {x : Vinode} (dir : DentryOf s p d) (node : Cached s i v x)
      (mem : (n, i) ∈ s.vol.dir d) (absent : s.dentryHashTable.lookup (some p, n) = none)
      (page : s.dentries t = none) (lt : t < s.pages) :
      Trans s .quiet (s.addDentry p n t v x)
  /-- A dentry of a file that is not open is forgotten. -/
  | leave {t v i : ℕ} {e : Dentry} {x : Vinode} (hashed : Hashed s t e v) (node : Cached s i v x)
      (file : x.type = FILE_I) (closed : e.dRef = 0) :
      Trans s .quiet (s.dropDentry t e v x)
  /-- The vinode of a file without a dentry is written back and forgotten. -/
  | evict {i v : ℕ} {x : Vinode} {d' : Disk} (node : Cached s i v x) (file : x.type = FILE_I)
      (ref : x.ref = 0)
      (disk : DiskIs d' (Function.update s.disk.dinode i x.toDinode) s.disk) :
      Trans s .edits (s.dropVinode i v d')
  /-- A file is opened. -/
  | openFile {f v : ℕ} {e : Dentry} {fl : File} (hashed : Hashed s fl.fDentry e v)
      (absent : s.files.lookup f = none) (lt : f < s.pages) :
      Trans s .quiet (s.addFile f fl e)
  /-- An open file is closed. -/
  | closeFile {f v : ℕ} {e : Dentry} {fl : File} (file : s.files.lookup f = some fl)
      (hashed : Hashed s fl.fDentry e v) :
      Trans s .closes (s.dropFile f fl e)
  /-- The offset of an open file. -/
  | seek {f : ℕ} {fl fl' : File} (file : s.files.lookup f = some fl)
      (same : fl'.fDentry = fl.fDentry) :
      Trans s .quiet { s with files := s.files.insert f fl' }
  /-- The directory cache of a vinode. -/
  | cacheDir {i v : ℕ} {x : Vinode} (c : Option DirCache) (node : Cached s i v x) :
      Trans s .quiet
        { s with vinodes := Function.update s.vinodes v (some { x with iFsInfo := c }) }
  /-- A new file or directory. -/
  | make {d vd i k : ℕ} {y : Vinode} {n : Name} {x : Dinode} {d' : Disk}
      (making : Making s d vd y i k n x d') : Trans s .edits (s.make vd y k d')
  /-- A new name for a file. -/
  | link {d vd j w : ℕ} {y l : Vinode} {n : Name} {d' : Disk}
      (linking : Linking s d vd y j w l n d') : Trans s .edits (s.link vd y w l d')
  /-- A name less for a file that has another one. -/
  | unlink {d vd j w m k : ℕ} {y l : Vinode} {n : Name} {d' : Disk}
      (unlinking : Unlinking s d vd y j w l n m k d') : Trans s .edits (s.unlink vd y w l m d')
  /-- The last name of a file: the inode and the blocks of the disk inode are freed. -/
  | remove {d vd j w k : ℕ} {y l : Vinode} {n : Name} {d' : Disk}
      (removing : Removing s d vd y j w l n k d') : Trans s (.frees j) (s.remove vd y j w d')
  /-- A block of a file is written. -/
  | write {i v b : ℕ} {x : Vinode} (buf : Buf) (node : Cached s i v x) (file : x.type = FILE_I)
      (mem : b ∈ x.blks) :
      Trans s (.writes i) { s with disk := Function.update s.disk b buf }
  /-- A file gets a block. -/
  | grow {i v k : ℕ} {x : Vinode} (node : Cached s i v x) (file : x.type = FILE_I)
      (opened : s.Opened v) (blocks : x.blocks < RFS_DIRECT_BLKNUM) (lt : k < dataBlocks)
      (unused : s.freemap k = 0) : Trans s (.writes i) (s.grow v x k)
  /-- The size of a file. -/
  | resize {i v size : ℕ} {x : Vinode} (node : Cached s i v x) (file : x.type = FILE_I)
      (opened : s.Opened v) (le : size ≤ RFS_BLKSIZE * x.blocks) :
      Trans s (.writes i)
        { s with vinodes := Function.update s.vinodes v (some { x with size := size }) }

/-! ## Transitions that keep the tables -/

/-- The fields of a vinode the tables depend on. -/
def Vinode.key (x : Vinode) : ℕ × Sb × ℤ × ℕ := (x.inum, x.sb, x.ref, x.type)

/-- The fields of a dentry that do not change while it is in the table. -/
def Dentry.key (e : Dentry) : Name × Option ℕ × Option ℕ := (e.name, e.dentryInode, e.parent)

/-- The tables are the same, and the objects in all that the tables depend on. -/
structure SameTables (s s' : State) : Prop where
  dentries : ∀ t, (s'.dentries t).map Dentry.key = (s.dentries t).map Dentry.key
  vinodes : ∀ v, (s'.vinodes v).map Vinode.key = (s.vinodes v).map Vinode.key
  dentryHash : s'.dentryHashTable = s.dentryHashTable
  vinodeHash : s'.vinodeHashTable = s.vinodeHashTable
  root : s'.vfsRootDentry = s.vfsRootDentry
  sb : s'.sb = s.sb
  pages : s.pages ≤ s'.pages

/-- The open files are those the dentries count. -/
structure FilesOk (s : State) : Prop where
  dRef : ∀ t e v, Hashed s t e v → e.dRef = tally s.files fun f => f.fDentry = t
  file : ∀ f fl, s.files.lookup f = some fl → ∃ e v, Hashed s fl.fDentry e v
  fresh : ∀ k, s.pages ≤ k → s.files.lookup k = none

variable {s s' : State} {t p d v w i j b : ℕ} {e e' : Dentry} {x x' y : Vinode} {n : Name}
  {V V' : Vol}

theorem Tables.filesOk (h : Tables s) : FilesOk s :=
  ⟨h.dRef, h.file, fun k hk => (h.fresh k hk).2.2⟩

/-- A new value of one vinode. -/
theorem map_key_update {vs : ℕ → Option Vinode} (hv : vs v = some x) (hk : x'.key = x.key)
    (w : ℕ) : (Function.update vs v (some x') w).map Vinode.key = (vs w).map Vinode.key := by
  by_cases hw : w = v
  · rw [hw, Function.update_self, hv, Option.map_some, Option.map_some, hk]
  · rw [Function.update_of_ne hw]

/-- A new reference count of one dentry. -/
theorem map_dkey_update {ds : ℕ → Option Dentry} (ht : ds t = some e) (hk : e'.key = e.key)
    (t' : ℕ) : (Function.update ds t (some e') t').map Dentry.key = (ds t').map Dentry.key := by
  by_cases hw : t' = t
  · rw [hw, Function.update_self, ht, Option.map_some, Option.map_some, hk]
  · rw [Function.update_of_ne hw]

namespace SameTables

variable (h : SameTables s s')

include h

theorem symm (hp : s'.pages ≤ s.pages) : SameTables s' s :=
  ⟨fun t => (h.dentries t).symm, fun v => (h.vinodes v).symm, h.dentryHash.symm, h.vinodeHash.symm,
    h.root.symm, h.sb.symm, hp⟩

theorem hashed_of (he : Hashed s' t e' v) : ∃ e, Hashed s t e v ∧ e.key = e'.key := by
  have hk := h.dentries t
  rw [he.dentry, Option.map_some, eq_comm, Option.map_eq_some_iff] at hk
  obtain ⟨e, het, hk⟩ := hk
  refine ⟨e, ?_, hk⟩
  simp only [Dentry.key, Prod.mk.injEq] at hk
  refine ⟨het, ?_, hk.2.1.trans he.inode⟩
  rw [hk.1, hk.2.2, ← h.dentryHash]
  exact he.hash

theorem hashed_to (he : Hashed s t e v) : ∃ e', Hashed s' t e' v ∧ e'.key = e.key := by
  have hk := h.dentries t
  rw [he.dentry, Option.map_some, Option.map_eq_some_iff] at hk
  obtain ⟨e', het, hk⟩ := hk
  refine ⟨e', ?_, hk⟩
  simp only [Dentry.key, Prod.mk.injEq] at hk
  refine ⟨het, ?_, hk.2.1.trans he.inode⟩
  rw [hk.1, hk.2.2, h.dentryHash]
  exact he.hash

theorem vinode_of (hv : s'.vinodes v = some x') : ∃ x, s.vinodes v = some x ∧ x.key = x'.key := by
  have := h.vinodes v
  rw [hv, Option.map_some, eq_comm, Option.map_eq_some_iff] at this
  exact this

theorem vinode_to (hv : s.vinodes v = some x) : ∃ x', s'.vinodes v = some x' ∧ x'.key = x.key := by
  have := h.vinodes v
  rw [hv, Option.map_some, Option.map_eq_some_iff] at this
  exact this

theorem cached_of (hc : Cached s' i v x') : ∃ x, Cached s i v x ∧ x.key = x'.key := by
  obtain ⟨x, hx, hk⟩ := h.vinode_of hc.vinode
  exact ⟨x, ⟨h.vinodeHash ▸ hc.hash, hx⟩, hk⟩

theorem cached_to (hc : Cached s i v x) : ∃ x', Cached s' i v x' ∧ x'.key = x.key := by
  obtain ⟨x', hx, hk⟩ := h.vinode_to hc.vinode
  exact ⟨x', ⟨h.vinodeHash ▸ hc.hash, hx⟩, hk⟩

theorem dentryOf (hp : DentryOf s p d) : DentryOf s' p d := by
  obtain ⟨e, v, x, he, hc⟩ := hp
  obtain ⟨x', hc', -⟩ := h.cached_to hc
  obtain ⟨e', he', -⟩ := h.hashed_to he
  exact ⟨e', v, x', he', hc'⟩

theorem inodeOf : s'.inodeOf = s.inodeOf := by
  funext t
  have hk := h.dentries t
  rw [State.inodeOf, State.inodeOf]
  cases h₁ : s.dentries t <;> cases h₂ : s'.dentries t <;>
    simp_all [Dentry.key]

theorem tables (ht : Tables s) (hf : FilesOk s') : Tables s' where
  dentry k t hk := by
    obtain ⟨e, v, he, rfl⟩ := ht.dentry k t (h.dentryHash ▸ hk)
    obtain ⟨e', he', hkey⟩ := h.hashed_to he
    simp only [Dentry.key, Prod.mk.injEq] at hkey
    exact ⟨e', v, he', by rw [hkey.1, hkey.2.2]⟩
  vinode sb i v hk := by
    obtain ⟨hsb, x, hx, hi, hs⟩ := ht.vinode sb i v (h.vinodeHash ▸ hk)
    obtain ⟨x', hx', hkey⟩ := h.vinode_to hx
    simp only [Vinode.key, Prod.mk.injEq] at hkey
    exact ⟨hsb, x', hx', hkey.1.trans hi, hkey.2.1.trans hs⟩
  target t e' v he' := by
    obtain ⟨e, he, -⟩ := h.hashed_of he'
    rcases ht.target t e v he with hr | ⟨i, x, hc⟩
    · exact .inl (hr.trans h.root.symm)
    · obtain ⟨x', hc', -⟩ := h.cached_to hc
      exact .inr ⟨i, x', hc'⟩
  root := by
    obtain ⟨e, v, x, he, hp, hx, htype, hsb⟩ := ht.root
    obtain ⟨x', hx', hkey⟩ := h.vinode_to hx
    obtain ⟨e', he', hkey'⟩ := h.hashed_to he
    simp only [Vinode.key, Dentry.key, Prod.mk.injEq] at hkey hkey'
    refine ⟨e', v, x', ?_, hkey'.2.2.trans hp, hx', hkey.2.2.2.trans htype, hkey.2.1.trans hsb⟩
    rw [h.root]
    exact he'
  ref i v x' hc := by
    obtain ⟨x, hc', hkey⟩ := h.cached_of hc
    simp only [Vinode.key, Prod.mk.injEq] at hkey
    rw [← hkey.2.2.1, ht.ref i v x hc', h.dentryHash, h.inodeOf]
  dRef := hf.dRef
  file := hf.file
  fresh k hk := by
    obtain ⟨h₁, h₂, -⟩ := ht.fresh k (h.pages.trans hk)
    have hd := h.dentries k
    have hv := h.vinodes k
    rw [h₁, Option.map_none, Option.map_eq_none_iff] at hd
    rw [h₂, Option.map_none, Option.map_eq_none_iff] at hv
    exact ⟨hd, hv, hf.fresh k hk⟩

/-- The open files are the same. -/
theorem filesOk (ht : Tables s) (hd : s'.dentries = s.dentries) (hf : s'.files = s.files) :
    FilesOk s' where
  dRef t e v he := by
    rw [hf]
    exact ht.dRef t e v ⟨hd ▸ he.dentry, h.dentryHash ▸ he.hash, he.inode⟩
  file f fl hfl := by
    obtain ⟨e, v, he⟩ := ht.file f fl (hf ▸ hfl)
    exact ⟨e, v, hd ▸ he.dentry, h.dentryHash ▸ he.hash, he.inode⟩
  fresh k hk := by
    rw [hf]
    exact (ht.fresh k (h.pages.trans hk)).2.2

/-- The dentries still follow the entries of the volume. -/
theorem paths (hp : Paths s V) (huse : ∀ i, V.InUse i → V'.InUse i)
    (hdir : ∀ i, V.InUse i → (V'.node i).type = DIR_I → (V.node i).type = DIR_I)
    (hmem : ∀ t e v i x p d, Hashed s t e v → Cached s i v x → e.parent = some p →
      DentryOf s p d → (e.name, i) ∈ V.dir d → (e.name, i) ∈ V'.dir d) : Paths s' V' where
  inUse i v x' hc := by
    obtain ⟨x, hc', -⟩ := h.cached_of hc
    exact huse i (hp.inUse i v x hc')
  mount := by
    obtain ⟨e, v, x, he, hpar, hn, hc⟩ := hp.mount
    obtain ⟨x', hc', -⟩ := h.cached_to hc
    obtain ⟨e', he', hkey⟩ := h.hashed_to he
    simp only [Dentry.key, Prod.mk.injEq] at hkey
    refine ⟨e', v, x', ?_, ?_, hkey.1.trans hn, hc'⟩
    · rw [h.sb]
      exact he'
    · rw [h.root]
      exact hkey.2.2.trans hpar
  parent t e' v i x' he' hc hne := by
    obtain ⟨x, hc', -⟩ := h.cached_of hc
    obtain ⟨e, he, hkey⟩ := h.hashed_of he'
    simp only [Dentry.key, Prod.mk.injEq] at hkey
    rw [h.sb] at hne
    obtain ⟨p, d, hpar, hd, hm⟩ := hp.parent t e v i x he hc' hne
    refine ⟨p, d, hkey.2.2.symm.trans hpar, h.dentryOf hd, ?_⟩
    rw [← hkey.1]
    exact hmem t e v i x p d he hc' hpar hd hm
  unique t t' e₁ e₂ v i x' he he' hc hd := by
    obtain ⟨x, hc', -⟩ := h.cached_of hc
    obtain ⟨e, he, -⟩ := h.hashed_of he
    obtain ⟨e', he', -⟩ := h.hashed_of he'
    exact hp.unique t t' e e' v i x he he' hc' (hdir i (hp.inUse i v x hc') hd)

end SameTables

end HustOS.Fs
