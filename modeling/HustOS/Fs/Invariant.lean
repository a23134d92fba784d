import HustOS.Fs.Vfs
import HustOS.Fs.Volume

/-!
# The invariant of the file system

The latest value of an inode is its vinode while that is in the vinode table, and the disk inode
otherwise (`State.cur`); with the directory entries on the disk and the bitmap this gives the volume
a state stands for (`State.vol`).

`Inv` says that the volume is good, that the two tables lead to live objects under their keys with
exact reference counts (`Tables`), that each cached dentry follows a directory entry of its parent
(`Paths`), and how far a disk inode may lag behind its vinode (`Sync`).
-/

namespace HustOS.Fs

open Foundations

/-! ## The volume of a state -/

/-- The dentry `t` is in the dentry table, with the value `e` and the vinode `v`. -/
structure Hashed (s : State) (t : ℕ) (e : Dentry) (v : ℕ) : Prop where
  dentry : s.dentries t = some e
  hash : s.dentryHashTable.lookup (e.parent, e.name) = some t
  inode : e.dentryInode = some v

/-- The vinode `v` is in the vinode table for the inode `i` of RFS, with the value `x`. -/
structure Cached (s : State) (i v : ℕ) (x : Vinode) : Prop where
  hash : s.vinodeHashTable.lookup (.rfs, i) = some v
  vinode : s.vinodes v = some x

namespace State

/-- The latest value of an inode. -/
def cur (s : State) (i : ℕ) : Dinode :=
  match (s.vinodeHashTable.lookup (.rfs, i)).bind s.vinodes with
  | some x => x.toDinode
  | none => s.disk.dinode i

/-- The latest value of an inode of the inode area; there is none behind it. -/
def node (s : State) (i : ℕ) : Dinode :=
  if i < ninodes then s.cur i
  else { size := 0, type := R_FREE, nlinks := 0, blocks := 0, addrs := fun _ => 0 }

/-- The volume a state stands for. -/
def vol (s : State) : Vol where
  node := s.node
  dir i := if (s.node i).type = DIR_I then dirList s.disk (s.node i) else []
  used := {b ∈ Finset.Ico RFS_BLK_OFFSET_FREE (RFS_BLK_OFFSET_FREE + dataBlocks) |
    s.freemap (b - RFS_BLK_OFFSET_FREE) ≠ 0}

/-- The vinode of a dentry. -/
def inodeOf (s : State) (t : ℕ) : Option ℕ := (s.dentries t).bind Dentry.dentryInode

end State

/-! ## The invariant -/

/-- The tables lead to live objects, and the counters count. -/
structure Tables (s : State) : Prop where
  dentry : ∀ k t, s.dentryHashTable.lookup k = some t →
    ∃ e v, Hashed s t e v ∧ k = (e.parent, e.name)
  vinode : ∀ sb i v, s.vinodeHashTable.lookup (sb, i) = some v →
    sb = .rfs ∧ ∃ x, s.vinodes v = some x ∧ x.inum = i ∧ x.sb = .rfs
  target : ∀ t e v, Hashed s t e v → t = s.vfsRootDentry ∨ ∃ i x, Cached s i v x
  root : ∃ e v x, Hashed s s.vfsRootDentry e v ∧ e.parent = none ∧ s.vinodes v = some x ∧
    x.type = DIR_I ∧ x.sb = .hostfs
  ref : ∀ i v x, Cached s i v x →
    x.ref = tally s.dentryHashTable fun t => s.inodeOf t = some v
  dRef : ∀ t e v, Hashed s t e v → e.dRef = tally s.files fun f => f.fDentry = t
  file : ∀ f fl, s.files.lookup f = some fl → ∃ e v, Hashed s fl.fDentry e v
  fresh : ∀ k, s.pages ≤ k → s.dentries k = none ∧ s.vinodes k = none ∧ s.files.lookup k = none

/-- The dentry `p` is one of the inode `d`. -/
def DentryOf (s : State) (p d : ℕ) : Prop := ∃ e v x, Hashed s p e v ∧ Cached s d v x

/-- The cached dentries follow the directory entries of a volume. -/
structure Paths (s : State) (V : Vol) : Prop where
  inUse : ∀ i v x, Cached s i v x → V.InUse i
  mount : ∃ e v x, Hashed s s.sb.sRoot e v ∧ e.parent = some s.vfsRootDentry ∧ e.name = ramdisk0 ∧
    Cached s 0 v x
  parent : ∀ t e v i x, Hashed s t e v → Cached s i v x → t ≠ s.sb.sRoot →
    ∃ p d, e.parent = some p ∧ DentryOf s p d ∧ (e.name, i) ∈ V.dir d
  unique : ∀ t t' e e' v i x, Hashed s t e v → Hashed s t' e' v → Cached s i v x →
    (V.node i).type = DIR_I → t = t'

/-- How far a disk inode lags behind its vinode: it has the type and the link count, and its blocks
are the first ones of the vinode; for a directory nothing is missing. -/
structure Behind (y x : Dinode) : Prop where
  type : y.type = x.type
  nlinks : y.nlinks = x.nlinks
  blocks : y.blocks ≤ x.blocks
  addrs : ∀ k < y.blocks, y.addrs k = x.addrs k
  dir : x.type = DIR_I → y = x

/-- The disk inodes of the cached vinodes. -/
def Sync (s : State) : Prop := ∀ i v x, Cached s i v x → Behind (s.disk.dinode i) x.toDinode

/-- **The invariant.** -/
structure Inv (s : State) : Prop where
  good : Good s.vol
  tables : Tables s
  paths : Paths s s.vol
  sync : Sync s
  nblocks : s.sb.nblocks = dataBlocks

/-! ## First consequences -/

variable {s s' : State} {t p d v w i j b : ℕ} {e : Dentry} {x : Vinode} {n : Name}

theorem Hashed.unique {e' : Dentry} {v' : ℕ} (h : Hashed s t e v) (h' : Hashed s t e' v') :
    e' = e ∧ v' = v := by
  obtain rfl : e' = e := Option.some.inj (h'.dentry.symm.trans h.dentry)
  exact ⟨rfl, Option.some.inj (h'.inode.symm.trans h.inode)⟩

theorem Hashed.inodeOf (h : Hashed s t e v) : s.inodeOf t = some v := by
  rw [State.inodeOf, h.dentry, Option.bind_some, h.inode]

theorem Cached.unique {v' : ℕ} {x' : Vinode} (h : Cached s i v x) (h' : Cached s i v' x') :
    v' = v ∧ x' = x := by
  obtain rfl : v' = v := Option.some.inj (h'.hash.symm.trans h.hash)
  exact ⟨rfl, Option.some.inj (h'.vinode.symm.trans h.vinode)⟩

theorem Cached.cur (h : Cached s i v x) : s.cur i = x.toDinode := by
  rw [State.cur, h.hash, Option.bind_some, h.vinode]

theorem cur_of_none (h : s.vinodeHashTable.lookup (.rfs, i) = none) :
    s.cur i = s.disk.dinode i := by
  rw [State.cur, h, Option.bind_none]

theorem node_of_lt (h : i < ninodes) : s.node i = s.cur i := if_pos h

namespace Tables

variable (h : Tables s)

include h

theorem cached (hk : s.vinodeHashTable.lookup (.rfs, i) = some v) : ∃ x, Cached s i v x := by
  obtain ⟨-, x, hx, -⟩ := h.vinode _ _ _ hk
  exact ⟨x, hk, hx⟩

theorem inum_eq (hc : Cached s i v x) : x.inum = i ∧ x.sb = .rfs := by
  obtain ⟨-, x', hx', hi, hs⟩ := h.vinode _ _ _ hc.hash
  obtain rfl : x' = x := Option.some.inj (hx'.symm.trans hc.vinode)
  exact ⟨hi, hs⟩

/-- A vinode is cached for one inode. -/
theorem cached_inj {x' : Vinode} (hc : Cached s i v x) (hc' : Cached s j v x') :
    j = i ∧ x' = x := by
  obtain rfl : x' = x := Option.some.inj (hc'.vinode.symm.trans hc.vinode)
  exact ⟨(h.inum_eq hc').1.symm.trans (h.inum_eq hc).1, rfl⟩

theorem root_not_cached (hr : Hashed s s.vfsRootDentry e v) : ¬ Cached s i v x := by
  intro hc
  obtain ⟨e', v', x', hr', -, hx', -, hsb⟩ := h.root
  obtain ⟨rfl, rfl⟩ := hr.unique hr'
  obtain rfl : x' = x := Option.some.inj (hx'.symm.trans hc.vinode)
  rw [(h.inum_eq hc).2] at hsb
  exact Sb.noConfusion hsb

theorem page_lt_dentry (ht : s.dentries t = some e) : t < s.pages := by
  by_contra hlt
  rw [(h.fresh t (by omega)).1] at ht
  cases ht

theorem page_lt_vinode (hv : s.vinodes v = some x) : v < s.pages := by
  by_contra hlt
  rw [(h.fresh v (by omega)).2.1] at hv
  cases hv

end Tables

theorem Inv.lt (h : Inv s) (hc : Cached s i v x) : i < ninodes :=
  h.good.lt i (h.paths.inUse i v x hc)

theorem Inv.node_eq (h : Inv s) (hc : Cached s i v x) : s.vol.node i = x.toDinode :=
  (node_of_lt (h.lt hc)).trans hc.cur

/-- The inodes of the volume are those of the state where the tables lead to the same values. -/
theorem node_congr (hk : s'.vinodeHashTable.lookup (.rfs, i) = s.vinodeHashTable.lookup (.rfs, i))
    (hv : ∀ v, s.vinodeHashTable.lookup (.rfs, i) = some v →
      (s'.vinodes v).map Vinode.toDinode = (s.vinodes v).map Vinode.toDinode)
    (hd : i < ninodes → s'.disk.dinode i = s.disk.dinode i) : s'.node i = s.node i := by
  unfold State.node
  split
  · rename_i hi
    unfold State.cur
    rw [hk, hd hi]
    cases hl : s.vinodeHashTable.lookup (.rfs, i) with
    | none => rfl
    | some v =>
      have := hv v hl
      simp only [Option.bind_some]
      cases h₁ : s.vinodes v <;> cases h₂ : s'.vinodes v <;> simp_all
  · rfl

end HustOS.Fs
