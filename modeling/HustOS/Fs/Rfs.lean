import HustOS.Fs.State

/-!
# RFS

The functions of `kernel/rfs.c`, with the RAM disk below them (`kernel/ramdev.c`). A transfer from
or to the RAM disk returns 0 or panics, so the error branches of its callers are never taken and
are left out. A directory entry in the buffer is read where the pointer `p_direntry` of the source
points.
-/

namespace HustOS.Fs

open Foundations

/-! ## The RAM disk -/

/-- `ramdisk_write`: the buffer to a block. -/
def ramdiskWrite (s : State) (blkno : ℕ) : Except Fault State :=
  if RAMDISK_BLOCK_COUNT ≤ blkno then
    .error (.panic s!"ramdisk_write: write block No {blkno} out of range!\n")
  else .ok { s with disk := Function.update s.disk blkno s.iobuffer }

/-- `ramdisk_read`: a block to the buffer. -/
def ramdiskRead (s : State) (blkno : ℕ) : Except Fault State :=
  if RAMDISK_BLOCK_COUNT ≤ blkno then
    .error (.panic "ramdisk_read: read block No out of range!\n")
  else .ok { s with iobuffer := s.disk blkno }

def rfsR1block (s : State) (nBlock : ℕ) : Except Fault State := ramdiskRead s nBlock

def rfsW1block (s : State) (nBlock : ℕ) : Except Fault State := ramdiskWrite s nBlock

/-! ## Disk inodes and blocks -/

/-- `rfs_read_dinode`. -/
def rfsReadDinode (s : State) (nInode : ℕ) : Except Fault (Dinode × State) := do
  let s ← ramdiskRead s (dinodeBlock nInode)
  return (getDinode s.iobuffer (dinodeOff nInode), s)

/-- `rfs_write_dinode`: the whole block of the inode is read, changed and written. -/
def rfsWriteDinode (s : State) (dinode : Dinode) (nInode : ℕ) : Except Fault State := do
  let s ← ramdiskRead s (dinodeBlock nInode)
  let s := { s with iobuffer := putDinode s.iobuffer (dinodeOff nInode) dinode }
  ramdiskWrite s (dinodeBlock nInode)

/-- `rfs_alloc_block`: the first free block. -/
def rfsAllocBlock (s : State) : Except Fault (ℕ × State) :=
  match (List.range s.sb.nblocks).find? fun block => s.freemap block = 0 with
  | some block =>
    .ok (RFS_BLK_OFFSET_FREE + block, { s with freemap := Function.update s.freemap block 1 })
  | none => .error (.panic "rfs_alloc_block: no more free block!\n")

/-- `rfs_free_block`; the bitmap is one block of words. -/
def rfsFreeBlock (s : State) (blockNum : ℕ) : Except Fault State :=
  if blockNum < RFS_BLK_OFFSET_FREE ∨ RFS_BLK_OFFSET_FREE + RFS_BLKSIZE / 4 ≤ blockNum then
    .error (.undefined "freemap")
  else .ok { s with freemap := Function.update s.freemap (blockNum - RFS_BLK_OFFSET_FREE) 0 }

/-! ## Vinodes -/

/-- `rfs_alloc_vinode`; members that nothing sets are read only after they are overwritten. -/
def rfsAllocVinode (s : State) : ℕ × State :=
  let (v, s) := s.allocPage
  (v, s.setVinode v
    { size := 0, type := 0, nlinks := 0, blocks := 0, addrs := fun _ => 0,
      inum := 0, ref := 0, iFsInfo := none, sb := .rfs })

/-- `rfs_write_back_vinode`. -/
def rfsWriteBackVinode (s : State) (v : ℕ) : Except Fault State := do
  let x ← s.vinode v
  rfsWriteDinode s x.toDinode x.inum

/-- `rfs_update_vinode`. -/
def rfsUpdateVinode (s : State) (v : ℕ) : Except Fault State := do
  let x ← s.vinode v
  let (dinode, s) ← rfsReadDinode s x.inum
  return s.setVinode v { x with toDinode := dinode }

/-- A vinode for the disk inode `inum`, as `rfs_lookup`, `rfs_create` and `rfs_mkdir` build it. -/
def rfsNewVinode (s : State) (inum : ℕ) : Except Fault (ℕ × State) := do
  let (v, s) := rfsAllocVinode s
  let x ← s.vinode v
  let s ← rfsUpdateVinode (s.setVinode v { x with inum := inum }) v
  return (v, s)

/-! ## Directories -/

/-- `rfs_add_direntry`. -/
def rfsAddDirentry (s : State) (dir : ℕ) (name : Name) (inum : ℕ) : Except Fault (ℤ × State) := do
  let x ← s.vinode dir
  if x.type ≠ DIR_I then
    return (-1, s)
  let nBlock ← x.addr (x.size / RFS_BLKSIZE)
  let s ← rfsR1block s nBlock
  if RFS_MAX_FILE_NAME_LEN ≤ name.length then
    throw (.undefined "rfs_direntry name")
  let s := { s with iobuffer := putEntry s.iobuffer (x.size % RFS_BLKSIZE) name inum }
  let s ← rfsW1block s nBlock
  let s := s.setVinode dir { x with size := x.size + direntrySize }
  let s ← rfsWriteBackVinode s dir
  return (0, s)

/-- Read the block of the `i`-th entry when it is the first entry of a block. -/
def readAtBoundary (s : State) (x : Dinode) (i : ℕ) : Except Fault State :=
  if i % oneBlockDirentrys = 0 then do
    rfsR1block s (← x.addr (i / oneBlockDirentrys))
  else pure s

/-- The search of `rfs_lookup` and `rfs_unlink` for a name among `n` entries from the `i`-th on: the
index of the first entry with the name. -/
def findLoop (x : Dinode) (name : Name) : ℕ → ℕ → State → Except Fault (Option ℕ × State)
  | 0, _, s => return (none, s)
  | n + 1, i, s => do
    let s ← readAtBoundary s x i
    if s.iobuffer.strcmpEq (direntrySize * (i % oneBlockDirentrys) + 4) name then
      return (some i, s)
    findLoop x name n (i + 1) s

/-- `rfs_lookup`. -/
def rfsLookup (s : State) (parent : ℕ) (name : Name) : Except Fault (Option ℕ × State) := do
  let p ← s.vinode parent
  let totalDirentrys := p.size / direntrySize
  let (found, s) ← findLoop p.toDinode name totalDirentrys 0 s
  match found with
  | none => return (none, s)
  | some i =>
    let inum := (entry s.iobuffer (i % oneBlockDirentrys)).2
    let (v, s) ← rfsNewVinode s inum
    return (some v, s)

/-- The search of `rfs_create` and `rfs_mkdir` for a free disk inode among `n` from the `i`-th on.
Past the last inode the source goes on with the page of the last inode read, which it has freed. -/
def freeInodeLoop : ℕ → ℕ → State → Except Fault ((Dinode × ℕ) × State)
  | 0, _, _ => throw (.undefined "free_dinode")
  | n + 1, i, s => do
    let (freeDinode, s) ← rfsReadDinode s i
    if freeDinode.type = R_FREE then
      return ((freeDinode, i), s)
    freeInodeLoop n (i + 1) s

/-- `rfs_create`: the file gets a block, which its block count leaves out. -/
def rfsCreate (s : State) (parent : ℕ) (name : Name) : Except Fault (Option ℕ × State) := do
  let _ ← s.vinode parent
  let ((freeDinode, freeInum), s) ← freeInodeLoop ninodes 0 s
  let (block, s) ← rfsAllocBlock s
  let freeDinode : Dinode :=
    { size := 0, type := R_FILE, nlinks := 1, blocks := 0,
      addrs := Function.update freeDinode.addrs 0 block }
  let s ← rfsWriteDinode s freeDinode freeInum
  let (newVinode, s) ← rfsNewVinode s freeInum
  let (result, s) ← rfsAddDirentry s parent name freeInum
  if result = -1 then
    return (none, s)
  return (some newVinode, s)

/-- `rfs_mkdir`. -/
def rfsMkdir (s : State) (parent : ℕ) (name : Name) : Except Fault (Option ℕ × State) := do
  let _ ← s.vinode parent
  let ((freeDinode, freeInum), s) ← freeInodeLoop ninodes 0 s
  let (block, s) ← rfsAllocBlock s
  let freeDinode : Dinode :=
    { size := 0, type := R_DIR, nlinks := 1, blocks := 1,
      addrs := Function.update freeDinode.addrs 0 block }
  let s ← rfsWriteDinode s freeDinode freeInum
  let (result, s) ← rfsAddDirentry s parent name freeInum
  if result = -1 then
    return (none, s)
  let (subVinode, s) ← rfsNewVinode s freeInum
  return (some subVinode, s)

/-- `rfs_link`. -/
def rfsLink (s : State) (parent : ℕ) (name : Name) (linkNode : ℕ) : Except Fault (ℤ × State) := do
  let l ← s.vinode linkNode
  let s := s.setVinode linkNode { l with nlinks := l.nlinks + 1 }
  let (_, s) ← rfsAddDirentry s parent name l.inum
  let s ← rfsWriteBackVinode s linkNode
  return (0, s)

/-- Free a list of blocks. -/
def rfsFreeBlocks : List ℕ → State → Except Fault State
  | [], s => return s
  | b :: bs, s => do
    let s ← rfsFreeBlock s b
    rfsFreeBlocks bs s

/-- The loop of `rfs_unlink` over the blocks behind the one with the removed entry: the first entry
of each block moves to the end of the previous one. -/
def shiftLoop (p : Dinode) : ℕ → ℕ → Buf → State → Except Fault (Buf × State)
  | 0, _, previousBlock, s => return (previousBlock, s)
  | n + 1, i, previousBlock, s => do
    let s ← rfsR1block s (← p.addr i)
    let thisBlock := s.iobuffer
    let previousBlock :=
      previousBlock.blit ((oneBlockDirentrys - 1) * direntrySize) s.iobuffer 0 direntrySize
    let thisBlock := dropEntry thisBlock 0
    let s ← rfsW1block { s with iobuffer := previousBlock } (← p.addr (i - 1))
    shiftLoop p n (i + 1) thisBlock s

/-- Free the last block of a directory when it has become empty and is not the only one: the new
block count. -/
def freeEmptyBlock (s : State) (p : Dinode) (totalDirentrys last : ℕ) :
    Except Fault (ℕ × State) :=
  if totalDirentrys % oneBlockDirentrys = 0 ∧ 1 < p.blocks then do
    let s ← rfsFreeBlock s last
    return (p.blocks - 1, s)
  else return (p.blocks, s)

/-- The second half of `rfs_unlink`: remove the entry at `deleteIndex` from the directory. -/
def removeDirentry (s : State) (parent deleteIndex : ℕ) : Except Fault (ℤ × State) := do
  let p ← s.vinode parent
  let totalDirentrys := p.size / direntrySize
  let deleteBlockIndex := deleteIndex / oneBlockDirentrys
  let s ← rfsR1block s (← p.addr deleteBlockIndex)
  let previousBlock := dropEntry s.iobuffer (deleteIndex % oneBlockDirentrys)
  let (previousBlock, s) ← shiftLoop p.toDinode (p.blocks - (deleteBlockIndex + 1))
    (deleteBlockIndex + 1) previousBlock s
  if p.blocks = 0 then
    throw (.undefined "addrs")
  let last ← p.addr (p.blocks - 1)
  let s ← rfsW1block { s with iobuffer := previousBlock } last
  let (blocks, s) ← freeEmptyBlock s p.toDinode (totalDirentrys - 1) last
  let s := s.setVinode parent { p with size := p.size - direntrySize, blocks := blocks }
  let s ← rfsWriteBackVinode s parent
  return (0, s)

/-- The first half of `rfs_unlink`: take one from the link count of the disk inode `inum` and of its
vinode, and free the inode with its blocks when that was the last link. -/
def dropLink (s : State) (inum unlinkVinode : ℕ) : Except Fault State := do
  let (unlinkDinode, s) ← rfsReadDinode s inum
  let u ← s.vinode unlinkVinode
  if u.nlinks ≠ unlinkDinode.nlinks then
    throw (.assertion "unlink_vinode->nlinks == unlink_dinode->nlinks")
  let nlinks := (u.nlinks + (2 ^ 32 - 1)) % 2 ^ 32
  let s := s.setVinode unlinkVinode { u with nlinks := nlinks }
  let unlinkDinode := { unlinkDinode with nlinks := nlinks }
  if nlinks = 0 then
    -- the source indexes `addrs` with each `i < blocks`
    if RFS_DIRECT_BLKNUM < unlinkDinode.blocks then
      throw (.undefined "addrs")
    let s ← rfsFreeBlocks unlinkDinode.blks s
    rfsWriteDinode s { unlinkDinode with type := R_FREE } inum
  else rfsWriteDinode s unlinkDinode inum

/-- `rfs_unlink`. -/
def rfsUnlink (s : State) (parent : ℕ) (name : Name) (unlinkVinode : ℕ) :
    Except Fault (ℤ × State) := do
  let p ← s.vinode parent
  let totalDirentrys := p.size / direntrySize
  let (found, s) ← findLoop p.toDinode name totalDirentrys 0 s
  if totalDirentrys = 0 then
    -- `p_direntry->inum` is read before the result of the search is tested
    throw .nullDeref
  match found with
  | none => return (-1, s)
  | some deleteIndex =>
    let inum := (entry s.iobuffer (deleteIndex % oneBlockDirentrys)).2
    let s ← dropLink s inum unlinkVinode
    removeDirentry s parent deleteIndex

/-! ## Reading a directory -/

/-- The loop of `rfs_hook_opendir`, from the last block down: each block goes to a page of its own
and the pages have to follow one another. -/
def opendirLoop (x : Dinode) : ℕ → Option ℕ → Buf → State → Except Fault (Buf × State)
  | 0, _, cache, s => return (cache, s)
  | i + 1, previous, cache, s => do
    let (page, s) := s.allocPage
    let pdire := s.pageAddr page
    if previous.any fun a => a ≠ pdire + RFS_BLKSIZE then
      throw (.panic "rfs_hook_opendir: memory discontinuity")
    let s ← rfsR1block s (← x.addr i)
    opendirLoop x i (some pdire) (cache.blit (i * RFS_BLKSIZE) s.iobuffer 0 RFS_BLKSIZE) s

/-- `rfs_hook_opendir`. -/
def rfsHookOpendir (s : State) (dirVinode : ℕ) : Except Fault (ℤ × State) := do
  let x ← s.vinode dirVinode
  let (cache, s) ← opendirLoop x.toDinode x.blocks none (fun _ => 0) s
  let s := s.setVinode dirVinode
    { x with iFsInfo := some { blockCount := x.blocks, dirBaseAddr := cache } }
  return (0, s)

/-- `rfs_readdir`: the entry at the offset, from the directory cache, and the next offset; nothing
at the end of the directory. -/
def rfsReaddir (s : State) (dirVinode offset : ℕ) : Except Fault (Option ((Name × ℕ) × ℕ)) := do
  let x ← s.vinode dirVinode
  let totalDirentrys := x.size / direntrySize
  if totalDirentrys ≤ offset then
    return none
  match x.iFsInfo with
  | none => throw (.undefined "i_fs_info")
  | some dirCache =>
    if dirCache.blockCount * oneBlockDirentrys ≤ offset then
      throw (.undefined "dir_base_addr")
    return some (entry dirCache.dirBaseAddr offset, offset + 1)

/-! ## Writing a file -/

/-- Before a block is written: `rfs_write` allocates it when it is the one behind the last. -/
def growTo (s : State) (v blockOffset : ℕ) : Except Fault State := do
  let x ← s.vinode v
  if blockOffset = x.blocks then
    let (block, s) ← rfsAllocBlock s
    if RFS_DIRECT_BLKNUM ≤ blockOffset then
      throw (.undefined "addrs")
    return s.setVinode v
      { x with addrs := Function.update x.addrs blockOffset block, blocks := x.blocks + 1 }
  else return s

/-- Write `n` bytes of the buffer to the front of a block of the file. -/
def writeBlock (s : State) (v blockOffset : ℕ) (wBuf : Buf) (bufOffset n : ℕ) :
    Except Fault State := do
  let s ← growTo s v blockOffset
  let s := { s with iobuffer := s.iobuffer.blit 0 wBuf bufOffset n }
  let x ← s.vinode v
  rfsW1block s (← x.addr blockOffset)

/-- The loop of `rfs_write` over the complete blocks. -/
def writeLoop (v : ℕ) (wBuf : Buf) : ℕ → ℕ → ℕ → State → Except Fault ((ℕ × ℕ) × State)
  | 0, bufOffset, blockOffset, s => return ((bufOffset, blockOffset), s)
  | n + 1, bufOffset, blockOffset, s => do
    let s ← writeBlock s v blockOffset wBuf bufOffset RFS_BLKSIZE
    writeLoop v wBuf n (bufOffset + RFS_BLKSIZE) (blockOffset + 1) s

/-- Write `n` bytes of the buffer into a block of the file, behind its first `align` bytes. -/
def writeInside (s : State) (v : ℕ) (wBuf : Buf) (blockOffset align n : ℕ) :
    Except Fault State := do
  let x ← s.vinode v
  let block ← x.addr blockOffset
  let s ← rfsR1block s block
  rfsW1block { s with iobuffer := s.iobuffer.blit align wBuf 0 n } block

/-- Where a write stands: the complete blocks left, negative when the first block took everything,
the bytes of the buffer used up and the next block of the file. -/
structure WritePos where
  writetimes : ℤ
  bufOffset : ℕ
  blockOffset : ℕ

/-- The part of `rfs_write` on the first block, when the offset is inside it. -/
def writeFirst (s : State) (v : ℕ) (wBuf : Buf) (len offset : ℕ) :
    Except Fault (WritePos × State) :=
  let align := offset % RFS_BLKSIZE
  let writetimes := (len + align) / RFS_BLKSIZE
  let blockOffset := offset / RFS_BLKSIZE
  if align ≠ 0 then do
    let firstBlockLen := if writetimes = 0 then len else RFS_BLKSIZE - align
    let s ← writeInside s v wBuf blockOffset align firstBlockLen
    return (⟨writetimes - 1, firstBlockLen, blockOffset + 1⟩, s)
  else return (⟨writetimes, 0, blockOffset⟩, s)

/-- The part of `rfs_write` behind the first block. -/
def writeRest (s : State) (v : ℕ) (wBuf : Buf) (pos : WritePos) (remain : ℕ) :
    Except Fault State :=
  if 0 ≤ pos.writetimes then do
    let ((bufOffset, blockOffset), s) ←
      writeLoop v wBuf pos.writetimes.toNat pos.bufOffset pos.blockOffset s
    if 0 < remain then
      writeBlock s v blockOffset wBuf bufOffset remain
    else return s
  else return s

/-- `rfs_write`: the number of bytes written and the new offset. -/
def rfsWrite (s : State) (v : ℕ) (wBuf : Buf) (len offset : ℕ) :
    Except Fault ((ℕ × ℕ) × State) := do
  let x ← s.vinode v
  if x.size < offset then
    throw (.panic "rfs_write:offset should less than file size!")
  let (pos, s) ← writeFirst s v wBuf len offset
  let s ← writeRest s v wBuf pos ((len + offset % RFS_BLKSIZE) % RFS_BLKSIZE)
  let x ← s.vinode v
  let s := s.setVinode v
    { x with size := if x.size < offset + len then offset + len else x.size }
  return ((len, offset + len), s)

/-! ## Inode information -/

/-- `struct istat`. -/
structure Istat where
  stInum : ℕ
  stSize : ℕ
  stType : ℕ
  stNlinks : ℕ
  stBlocks : ℕ

/-- `rfs_disk_stat`. -/
def rfsDiskStat (s : State) (v : ℕ) : Except Fault (Istat × State) := do
  let x ← s.vinode v
  let (dinode, s) ← rfsReadDinode s x.inum
  return ({ stInum := x.inum, stSize := dinode.size, stType := dinode.type,
            stNlinks := dinode.nlinks, stBlocks := dinode.blocks }, s)

/-! ## Formatting and mounting -/

/-- Set up `n` empty disk inodes from the `i`-th on; their addresses keep what the buffer holds. -/
def emptyInodes : ℕ → ℕ → Buf → Buf
  | 0, _, b => b
  | n + 1, i, b =>
    emptyInodes n (i + 1) (b.setWords (i * RFS_INODESIZE) (fun k => if k = 1 then R_FREE else 0) 4)

/-- Write the buffer to `n` blocks from a block on. -/
def writeBlocks : ℕ → ℕ → State → Except Fault State
  | 0, _, s => return s
  | n + 1, b, s => do
    let s ← rfsW1block s b
    writeBlocks n (b + 1) s

/-- The words of the superblock. -/
def superWord : ℕ → ℕ
  | 0 => RFS_MAGIC
  | 1 => 1 + RFS_MAX_INODE_BLKNUM + 1 + RFS_MAX_INODE_BLKNUM * RFS_DIRECT_BLKNUM
  | 2 => RFS_MAX_INODE_BLKNUM * RFS_DIRECT_BLKNUM
  | _ => ninodes

/-- `rfs_format_dev`; `stack` is what the addresses of the local `root_dinode` hold. -/
def rfsFormatDev (s : State) (stack : ℕ → ℕ) : Except Fault State := do
  let s := { s with iobuffer := s.iobuffer.setWords 0 superWord 4 }
  let s ← rfsW1block s RFS_BLK_OFFSET_SUPER
  let s := { s with iobuffer := emptyInodes inodesPerBlock 0 s.iobuffer }
  let s ← writeBlocks RFS_MAX_INODE_BLKNUM RFS_BLK_OFFSET_INODE s
  let rootDinode : Dinode :=
    { size := 0, type := R_DIR, nlinks := 1, blocks := 1,
      addrs := Function.update stack 0 RFS_BLK_OFFSET_FREE }
  let s ← rfsWriteDinode s rootDinode 0
  let s := { s with iobuffer := Buf.setU32 (fun _ => 0) 0 1 }
  rfsW1block s RFS_BLK_OFFSET_BITMAP

end HustOS.Fs
