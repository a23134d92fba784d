import HustOS.Foundations.Bytes
import HustOS.Kernel
import Mathlib.Logic.Function.Basic

/-!
# The RFS disk layout

Blocks of `RFS_BLKSIZE` bytes: the superblock, `RFS_MAX_INODE_BLKNUM` blocks of disk inodes, the
bitmap, and the data blocks (`kernel/rfs.h`). The disk is a buffer per block.

A disk inode is read and stored in place (`Disk.dinode`, `Disk.setDinode`); storing one leaves the
other inodes and the blocks outside the inode area alone. A directory's data blocks hold its
entries of 32 bytes one after the other (`dirList`), the word `inum` before the name.

Integers of the disk structures are held as their 32-bit words.
-/

namespace HustOS.Fs

open Foundations

/-! ## Constants -/

abbrev RFS_MAGIC : ℕ := 0xBEAF
abbrev RFS_BLKSIZE : ℕ := PGSIZE
abbrev RFS_INODESIZE : ℕ := 128
abbrev RFS_MAX_INODE_BLKNUM : ℕ := 10
abbrev RFS_MAX_FILE_NAME_LEN : ℕ := 28
abbrev RFS_DIRECT_BLKNUM : ℕ := 10
abbrev RFS_BLK_OFFSET_SUPER : ℕ := 0
abbrev RFS_BLK_OFFSET_INODE : ℕ := 1
abbrev RFS_BLK_OFFSET_BITMAP : ℕ := 11
abbrev RFS_BLK_OFFSET_FREE : ℕ := 12
abbrev RAMDISK_BLOCK_COUNT : ℕ := 128

abbrev FILE_I : ℕ := 0
abbrev DIR_I : ℕ := 1
abbrev R_FILE : ℕ := FILE_I
abbrev R_DIR : ℕ := DIR_I
abbrev R_FREE : ℕ := 2

/-- Disk inodes in one block. -/
abbrev inodesPerBlock : ℕ := RFS_BLKSIZE / RFS_INODESIZE

/-- The number of disk inodes. -/
abbrev ninodes : ℕ := inodesPerBlock * RFS_MAX_INODE_BLKNUM

/-- `sizeof(struct rfs_direntry)`. -/
abbrev direntrySize : ℕ := 32

/-- Directory entries in one block. -/
abbrev oneBlockDirentrys : ℕ := RFS_BLKSIZE / direntrySize

/-- The bytes of a file or path name, without the terminator. -/
abbrev Name : Type := List UInt8

/-- A name that fits the `name` member of a directory entry. -/
def Name.Valid (n : Name) : Prop := n.length < RFS_MAX_FILE_NAME_LEN ∧ (0 : UInt8) ∉ n

/-- The contents of the blocks of the RAM disk. -/
abbrev Disk : Type := ℕ → Buf

/-! ## Disk inodes -/

/-- `struct rfs_dinode`. -/
@[ext]
structure Dinode where
  size : ℕ
  type : ℕ
  nlinks : ℕ
  blocks : ℕ
  /-- `addrs[RFS_DIRECT_BLKNUM]`, zero past the end. -/
  addrs : ℕ → ℕ

namespace Dinode

/-- The words of a disk inode, in the order of the struct. -/
def word (x : Dinode) : ℕ → ℕ
  | 0 => x.size
  | 1 => x.type
  | 2 => x.nlinks
  | 3 => x.blocks
  | k + 4 => x.addrs k

/-- The fields are 32-bit words. -/
structure Fits (x : Dinode) : Prop where
  size : x.size < 2 ^ 32
  type : x.type < 2 ^ 32
  nlinks : x.nlinks < 2 ^ 32
  blocks : x.blocks < 2 ^ 32
  addrs : ∀ i, x.addrs i < 2 ^ 32
  past : ∀ i, RFS_DIRECT_BLKNUM ≤ i → x.addrs i = 0

/-- The data blocks of an inode, `addrs[0..blocks)`. -/
def blks (x : Dinode) : List ℕ := (List.range x.blocks).map x.addrs

theorem mem_blks {x : Dinode} {b : ℕ} : b ∈ x.blks ↔ ∃ k < x.blocks, x.addrs k = b := by
  simp [blks]

end Dinode

/-- The disk inode stored at an offset of a block. -/
def getDinode (b : Buf) (off : ℕ) : Dinode where
  size := b.u32 off
  type := b.u32 (off + 4)
  nlinks := b.u32 (off + 8)
  blocks := b.u32 (off + 12)
  addrs i := if i < RFS_DIRECT_BLKNUM then b.u32 (off + 16 + 4 * i) else 0

/-- Store a disk inode (14 words) at an offset of a block. -/
def putDinode (b : Buf) (off : ℕ) (x : Dinode) : Buf :=
  b.setWords off x.word (4 + RFS_DIRECT_BLKNUM)

variable {b b' : Buf} {off : ℕ} {x : Dinode}

theorem fits_getDinode (b : Buf) (off : ℕ) : (getDinode b off).Fits where
  size := b.u32_lt _
  type := b.u32_lt _
  nlinks := b.u32_lt _
  blocks := b.u32_lt _
  addrs i := by
    simp only [getDinode]
    split
    · exact b.u32_lt _
    · omega
  past i hi := if_neg (by omega)

theorem getDinode_congr {off' : ℕ} (h : ∀ i < 56, b' (off' + i) = b (off + i)) :
    getDinode b' off' = getDinode b off := by
  have hw : ∀ k < 14, b'.u32 (off' + 4 * k) = b.u32 (off + 4 * k) := fun k hk =>
    Buf.u32_congr fun i hi => by
      rw [Nat.add_assoc, Nat.add_assoc]
      exact h _ (by omega)
  ext
  · exact hw 0 (by omega)
  · exact hw 1 (by omega)
  · exact hw 2 (by omega)
  · exact hw 3 (by omega)
  · rename_i i
    simp only [getDinode]
    split
    · have := hw (4 + i) (by simp only [RFS_DIRECT_BLKNUM] at *; omega)
      rwa [show off' + 4 * (4 + i) = off' + 16 + 4 * i by omega,
        show off + 4 * (4 + i) = off + 16 + 4 * i by omega] at this
    · rfl

/-- The words of a disk inode that was stored. -/
theorem u32_putDinode {k : ℕ} (hk : k < 14) :
    (putDinode b off x).u32 (off + 4 * k) = x.word k % 2 ^ 32 :=
  Buf.u32_setWords x.word (by simp only [RFS_DIRECT_BLKNUM]; omega)

/-- The addresses of a disk inode that was stored. -/
theorem addrs_putDinode {i : ℕ} (hi : i < RFS_DIRECT_BLKNUM) :
    (getDinode (putDinode b off x) off).addrs i = x.addrs i % 2 ^ 32 := by
  have hword : (putDinode b off x).u32 (off + 4 * (4 + i)) = x.word (4 + i) % 2 ^ 32 :=
    u32_putDinode (by simp only [RFS_DIRECT_BLKNUM] at hi; omega)
  rw [show off + 4 * (4 + i) = off + 16 + 4 * i by omega, Nat.add_comm 4 i] at hword
  exact (if_pos hi).trans hword

/-- A disk inode is read as it was stored. -/
theorem getDinode_putDinode (hx : x.Fits) : getDinode (putDinode b off x) off = x := by
  ext
  · exact (u32_putDinode (k := 0) (by omega)).trans (Nat.mod_eq_of_lt hx.size)
  · exact (u32_putDinode (k := 1) (by omega)).trans (Nat.mod_eq_of_lt hx.type)
  · exact (u32_putDinode (k := 2) (by omega)).trans (Nat.mod_eq_of_lt hx.nlinks)
  · exact (u32_putDinode (k := 3) (by omega)).trans (Nat.mod_eq_of_lt hx.blocks)
  · rename_i i
    rcases Nat.lt_or_ge i RFS_DIRECT_BLKNUM with hi | hi
    · exact (addrs_putDinode hi).trans (Nat.mod_eq_of_lt (hx.addrs i))
    · exact (if_neg (Nat.not_lt.2 hi)).trans (hx.past i hi).symm

/-- The blocks of a disk inode that was stored are among those it was stored with. -/
theorem mem_blks_putDinode {c : ℕ} (hb : x.blocks < 2 ^ 32) (ha : ∀ i, x.addrs i < 2 ^ 32)
    (hc : c ≠ 0) (h : c ∈ (getDinode (putDinode b off x) off).blks) : c ∈ x.blks := by
  obtain ⟨k, hk, rfl⟩ := Dinode.mem_blks.1 h
  have hblocks : (getDinode (putDinode b off x) off).blocks = x.blocks :=
    (u32_putDinode (k := 3) (by omega)).trans (Nat.mod_eq_of_lt hb)
  rcases Nat.lt_or_ge k RFS_DIRECT_BLKNUM with hi | hi
  · rw [addrs_putDinode hi, Nat.mod_eq_of_lt (ha k)]
    exact Dinode.mem_blks.2 ⟨k, hblocks ▸ hk, rfl⟩
  · exact absurd (if_neg (Nat.not_lt.2 hi)) hc

theorem putDinode_apply_of_lt {i : ℕ} (h : i < off ∨ off + 56 ≤ i) : putDinode b off x i = b i :=
  Buf.setWords_apply_of_lt _ (by simp only [RFS_DIRECT_BLKNUM]; omega)

/-- The block of the `n`-th disk inode. -/
def dinodeBlock (n : ℕ) : ℕ := n / inodesPerBlock + RFS_BLK_OFFSET_INODE

/-- The offset of the `n`-th disk inode in its block. -/
def dinodeOff (n : ℕ) : ℕ := n % inodesPerBlock * RFS_INODESIZE

namespace Disk

variable {d : Disk} {m n c : ℕ}

/-- The `n`-th disk inode. -/
def dinode (d : Disk) (n : ℕ) : Dinode := getDinode (d (dinodeBlock n)) (dinodeOff n)

/-- Store the `n`-th disk inode. -/
def setDinode (d : Disk) (n : ℕ) (x : Dinode) : Disk :=
  Function.update d (dinodeBlock n) (putDinode (d (dinodeBlock n)) (dinodeOff n) x)

theorem fits_dinode (d : Disk) (n : ℕ) : (d.dinode n).Fits := fits_getDinode _ _

theorem dinodeBlock_lt (hn : n < ninodes) : dinodeBlock n < RFS_BLK_OFFSET_BITMAP := by
  simp only [dinodeBlock, ninodes, inodesPerBlock, RFS_BLKSIZE, PGSIZE, RFS_INODESIZE,
    RFS_MAX_INODE_BLKNUM, RFS_BLK_OFFSET_INODE, RFS_BLK_OFFSET_BITMAP] at *
  omega

theorem dinode_setDinode (hx : x.Fits) : (d.setDinode n x).dinode n = x := by
  rw [dinode, setDinode, Function.update_self, getDinode_putDinode hx]

theorem dinode_setDinode_of_ne (h : m ≠ n) : (d.setDinode n x).dinode m = d.dinode m := by
  rw [dinode, dinode, setDinode]
  by_cases hb : dinodeBlock m = dinodeBlock n
  · rw [hb, Function.update_self]
    refine getDinode_congr fun i hi => putDinode_apply_of_lt ?_
    simp only [dinodeBlock, dinodeOff, inodesPerBlock, RFS_BLKSIZE, PGSIZE, RFS_INODESIZE,
      RFS_BLK_OFFSET_INODE] at *
    omega
  · rw [Function.update_of_ne hb]

/-- Storing an inode leaves the blocks past the inode area alone. -/
theorem setDinode_apply (hn : n < ninodes) (hc : RFS_BLK_OFFSET_BITMAP ≤ c) :
    d.setDinode n x c = d c :=
  Function.update_of_ne (fun h => by have := dinodeBlock_lt hn; omega) _ _

/-- Writing a block past the inode area leaves the inodes alone. -/
theorem dinode_update (hn : n < ninodes) (hc : RFS_BLK_OFFSET_BITMAP ≤ c) :
    Disk.dinode (Function.update d c b) n = d.dinode n := by
  rw [dinode, dinode, Function.update_of_ne fun h => by have := dinodeBlock_lt hn; omega]

end Disk

/-! ## Directory entries -/

/-- The `k`-th directory entry of a block: its name and its inode number. -/
def entry (b : Buf) (k : ℕ) : Name × ℕ :=
  (b.cstr RFS_MAX_FILE_NAME_LEN (direntrySize * k + 4), b.u32 (direntrySize * k))

/-- Store a directory entry at an offset of a block. -/
def putEntry (b : Buf) (off : ℕ) (n : Name) (i : ℕ) : Buf := (b.setU32 off i).setCstr (off + 4) n

/-- Remove the `k`-th directory entry of a block, moving the later ones to the front. -/
def dropEntry (b : Buf) (k : ℕ) : Buf :=
  b.blit (k * direntrySize) b ((k + 1) * direntrySize) ((oneBlockDirentrys - k - 1) * direntrySize)

variable {j k i : ℕ} {n : Name}

theorem entry_congr {k' : ℕ} (h : ∀ i < 32, b' (32 * k' + i) = b (32 * k + i)) :
    entry b' k' = entry b k := by
  refine Prod.ext ?_ ?_
  · refine Buf.cstr_congr fun i hi => ?_
    have := h (4 + i) (by simp only [RFS_MAX_FILE_NAME_LEN] at hi; omega)
    rwa [← Nat.add_assoc, ← Nat.add_assoc] at this
  · exact Buf.u32_congr fun i hi => h i (by omega)

theorem entry_putEntry_self (hn : n.Valid) (hi : i < 2 ^ 32) :
    entry (putEntry b (32 * k) n i) k = (n, i) := by
  refine Prod.ext (Buf.cstr_setCstr hn.2 hn.1) ?_
  have hw : (putEntry b (32 * k) n i).u32 (32 * k) = (b.setU32 (32 * k) i).u32 (32 * k) :=
    Buf.u32_congr fun i hi => Buf.setCstr_apply_of_lt (by omega)
  exact hw.trans ((Buf.u32_setU32 i).trans (Nat.mod_eq_of_lt hi))

theorem entry_putEntry_of_ne (hn : n.Valid) (h : j ≠ k) :
    entry (putEntry b (32 * k) n i) j = entry b j := by
  have := hn.1
  simp only [RFS_MAX_FILE_NAME_LEN] at this
  refine entry_congr fun l hl => ?_
  rw [putEntry, Buf.setCstr_apply_of_lt (by omega)]
  exact Buf.setWords_apply_of_lt _ (by omega)

theorem entry_dropEntry_of_lt (h : j < k) : entry (dropEntry b k) j = entry b j :=
  entry_congr fun l hl => Buf.blit_apply_of_lt (by simp only [direntrySize]; omega)

theorem entry_dropEntry_of_le (h : k ≤ j) (hj : j < 127) :
    entry (dropEntry b k) j = entry b (j + 1) := by
  refine entry_congr fun l hl => ?_
  rw [dropEntry, show 32 * j + l = k * direntrySize + (32 * (j - k) + l) by
    simp only [direntrySize]; omega, Buf.blit_apply]
  · congr 1
    simp only [direntrySize]
    omega
  · simp only [oneBlockDirentrys, RFS_BLKSIZE, PGSIZE, direntrySize]
    omega

/-- The `i`-th entry of a directory with the blocks `addrs`. -/
def entryAt (d : Disk) (addrs : ℕ → ℕ) (i : ℕ) : Name × ℕ :=
  entry (d (addrs (i / oneBlockDirentrys))) (i % oneBlockDirentrys)

/-- The entries of the directory with a given inode. -/
def dirList (d : Disk) (x : Dinode) : List (Name × ℕ) :=
  (List.range (x.size / direntrySize)).map (entryAt d x.addrs)

/-- The inode number of the first entry with a name. -/
def dirFind (l : List (Name × ℕ)) (n : Name) : Option ℕ := (l.find? fun e => e.1 = n).map Prod.snd

@[simp] theorem length_dirList (d : Disk) (x : Dinode) : (dirList d x).length = x.size / 32 := by
  simp [dirList]

theorem getElem?_dirList {d : Disk} {e : Name × ℕ} (h : (dirList d x)[j]? = some e) :
    j < x.size / 32 ∧ entryAt d x.addrs j = e := by
  obtain ⟨hj, he⟩ := List.getElem?_eq_some_iff.1 h
  rw [length_dirList] at hj
  exact ⟨hj, by simpa [dirList] using he⟩

/-- The entries of a directory of at most 128 entries are in its first block. -/
theorem dirList_eq {d : Disk} (h : x.size ≤ 4096) :
    dirList d x = (List.range (x.size / 32)).map (entry (d (x.addrs 0))) := by
  refine List.map_congr_left fun i hi => ?_
  rw [List.mem_range] at hi
  have : i < 128 := by simp only [direntrySize] at hi; omega
  rw [entryAt, show i / oneBlockDirentrys = 0 from Nat.div_eq_of_lt this,
    show i % oneBlockDirentrys = i from Nat.mod_eq_of_lt this]

/-- Storing an entry behind the last one appends it. -/
theorem dirList_append {d d' : Disk} {x x' : Dinode} {m : ℕ} (hm : m < 128) (hx : x.size = 32 * m)
    (hx' : x'.size = 32 * (m + 1)) (hn : n.Valid) (hi : i < 2 ^ 32)
    (hd : d' (x'.addrs 0) = putEntry (d (x.addrs 0)) (32 * m) n i) :
    dirList d' x' = dirList d x ++ [(n, i)] := by
  rw [dirList_eq (by omega), dirList_eq (by omega), hd, hx, hx',
    Nat.mul_div_cancel_left _ (by omega),
    Nat.mul_div_cancel_left _ (by omega), List.range_succ, List.map_append, List.map_singleton,
    entry_putEntry_self hn hi]
  congr 1
  refine List.map_congr_left fun j hj => entry_putEntry_of_ne hn ?_
  rw [List.mem_range] at hj
  omega

/-- Moving the entries behind the `k`-th one to the front removes it. -/
theorem dirList_eraseIdx {d d' : Disk} {x x' : Dinode} {m : ℕ} (hk : k ≤ m) (hm : m < 128)
    (hx : x.size = 32 * (m + 1)) (hx' : x'.size = 32 * m)
    (hd : d' (x'.addrs 0) = dropEntry (d (x.addrs 0)) k) :
    dirList d' x' = (dirList d x).eraseIdx k := by
  rw [dirList_eq (by omega), dirList_eq (by omega), hd, hx, hx',
    Nat.mul_div_cancel_left _ (by omega),
    Nat.mul_div_cancel_left _ (by omega)]
  refine List.ext_getElem (by rw [List.length_eraseIdx_of_lt] <;> simp; omega) fun j hj hj' => ?_
  simp only [List.length_map, List.length_range] at hj
  rw [List.getElem_eraseIdx]
  split
  · simp [entry_dropEntry_of_lt ‹_›]
  · simp [entry_dropEntry_of_le (b := d (x.addrs 0)) (Nat.not_lt.1 ‹_›) (by omega)]

end HustOS.Fs
