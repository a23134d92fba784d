import HustOS.Foundations.Table
import HustOS.Fs.Disk
import Mathlib.Data.List.AList

/-!
# The state of the file system

The RAM disk with the buffer all block transfers go through, the mounted superblock of RFS with the
in-memory bitmap, and the objects of the virtual file system: inodes, directory entries (dentries),
open files and the two hash tables that serve as caches (`kernel/vfs.h`).

Objects live in pages handed out one after the other; an object is named by the number of its page.
A page that was freed holds no object, so that an access through a stale pointer is a fault.
Both hash tables are finite maps. The fields of an inode are 32-bit words, the counters `ref` and
`dRef` are integers.
-/

namespace HustOS.Fs

open Foundations

/-- The two mounted file systems. -/
inductive Sb
  | hostfs
  | rfs
  deriving DecidableEq

/-- `struct rfs_dir_cache`: the blocks of a directory, one behind the other. -/
structure DirCache where
  blockCount : ℕ
  dirBaseAddr : Buf

/-- `struct vinode`. -/
structure Vinode extends Dinode where
  inum : ℕ
  ref : ℤ
  iFsInfo : Option DirCache
  sb : Sb

/-- `struct dentry`. -/
structure Dentry where
  name : Name
  dRef : ℤ
  dentryInode : Option ℕ
  parent : Option ℕ

/-- `struct file` of an open file. -/
structure File where
  readable : Bool
  writable : Bool
  offset : ℕ
  fDentry : ℕ

/-- `struct super_block` of RFS. -/
structure SuperBlock where
  magic : ℕ
  size : ℕ
  nblocks : ℕ
  ninodes : ℕ
  sRoot : ℕ

/-- The state of the file system. -/
structure State where
  disk : Disk
  /-- The buffer of the RAM disk device. -/
  iobuffer : Buf
  /-- The number of pages handed out so far. -/
  pages : ℕ
  /-- The address of each page handed out. -/
  pageAddr : ℕ → ℕ
  sb : SuperBlock
  /-- The bitmap `s_fs_info` of the RFS superblock. -/
  freemap : ℕ → ℕ
  vfsRootDentry : ℕ
  dentries : ℕ → Option Dentry
  vinodes : ℕ → Option Vinode
  files : AList fun _ : ℕ => File
  dentryHashTable : AList fun _ : Option ℕ × Name => ℕ
  vinodeHashTable : AList fun _ : Sb × ℕ => ℕ

namespace State

/-- Take a page. -/
def allocPage (s : State) : ℕ × State := (s.pages, { s with pages := s.pages + 1 })

/-- The vinode a pointer leads to. -/
def vinode (s : State) (v : ℕ) : Except Fault Vinode :=
  match s.vinodes v with
  | some x => .ok x
  | none => .error (.undefined "vinode")

def setVinode (s : State) (v : ℕ) (x : Vinode) : State :=
  { s with vinodes := Function.update s.vinodes v (some x) }

def freeVinode (s : State) (v : ℕ) : State :=
  { s with vinodes := Function.update s.vinodes v none }

/-- The dentry a pointer leads to. -/
def dentry (s : State) (t : ℕ) : Except Fault Dentry :=
  match s.dentries t with
  | some e => .ok e
  | none => .error (.undefined "dentry")

def setDentry (s : State) (t : ℕ) (e : Dentry) : State :=
  { s with dentries := Function.update s.dentries t (some e) }

def freeDentry (s : State) (t : ℕ) : State :=
  { s with dentries := Function.update s.dentries t none }

/-- The inode of a dentry. -/
def dentryInode (s : State) (t : ℕ) : Except Fault ℕ := do
  let e ← s.dentry t
  match e.dentryInode with
  | some v => .ok v
  | none => .error .nullDeref

/-- The open file a pointer leads to. -/
def file (s : State) (f : ℕ) : Except Fault File :=
  match s.files.lookup f with
  | some x => .ok x
  | none => .error (.undefined "file")

theorem vinode_eq_ok {s : State} {v : ℕ} {x : Vinode} :
    s.vinode v = .ok x ↔ s.vinodes v = some x := by
  rw [vinode]
  cases s.vinodes v <;> simp

theorem dentry_eq_ok {s : State} {t : ℕ} {e : Dentry} :
    s.dentry t = .ok e ↔ s.dentries t = some e := by
  rw [dentry]
  cases s.dentries t <;> simp

theorem file_eq_ok {s : State} {f : ℕ} {x : File} :
    s.file f = .ok x ↔ s.files.lookup f = some x := by
  rw [file]
  cases s.files.lookup f <;> simp

end State

/-- `addrs[i]` of an inode. -/
def Dinode.addr (x : Dinode) (i : ℕ) : Except Fault ℕ :=
  if i < RFS_DIRECT_BLKNUM then .ok (x.addrs i) else .error (.undefined "addrs")

end HustOS.Fs
