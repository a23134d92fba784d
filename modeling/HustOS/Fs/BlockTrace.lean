import HustOS.Foundations.Traced
import HustOS.Fs.ProcFile

/-!
# The block indices of a transfer

`rfs_read` and `rfs_write` once more, as computations that emit each index with which they read or
assign `addrs` of the inode, before they do so. Without the trace they are `rfsRead` and `rfsWrite`
(`snd_rfsReadT`, `snd_rfsWriteT`).
-/

namespace HustOS.Fs

open Foundations Traced

/-- A computation of the file system that emits block indices. -/
abbrev Blocks (α : Type) : Type := Traced ℕ Fault State α

/-- A computation that indexes no block. -/
def quietly (f : State → Except Fault State) : Blocks Unit := Traced.lift fun s => do
  return ((), ← f s)

/-- The vinode a pointer leads to. -/
def vinodeT (v : ℕ) : Blocks Vinode := Traced.lift fun s => do
  return (← s.vinode v, s)

/-- `addrs[i]` is read and its block is transferred. -/
def blockT (x : Dinode) (i : ℕ) (transfer : State → ℕ → Except Fault State) : Blocks Unit :=
  Traced.emit i fun s => do
    return ((), ← transfer s (← x.addr i))

/-! ## Reading -/

/-- `readLoop`. -/
def readLoopT (x : Dinode) : ℕ → ℕ → ℕ → Buf → Blocks (Buf × ℕ × ℕ)
  | 0, bufOffset, blockOffset, buffer => pure (buffer, bufOffset, blockOffset)
  | n + 1, bufOffset, blockOffset, buffer => do
    blockT x blockOffset rfsR1block
    let s ← Traced.get
    readLoopT x n (bufOffset + RFS_BLKSIZE) (blockOffset + 1)
      (buffer.blit bufOffset s.iobuffer 0 RFS_BLKSIZE)

/-- The part of `rfs_read` behind the first block. -/
def readRestT (x : Dinode) (readtimes remain bufOffset blockOffset : ℕ) (buffer : Buf) :
    Blocks Buf :=
  if readtimes = 0 then pure buffer
  else do
    let (buffer, bufOffset, blockOffset) ←
      readLoopT x (readtimes - 1) bufOffset (blockOffset + 1) buffer
    if remain = 0 then pure buffer
    else do
      blockT x blockOffset rfsR1block
      let s ← Traced.get
      return buffer.blit bufOffset s.iobuffer 0 remain

/-- The number of bytes that `rfs_read` reads. -/
def readLen (x : Dinode) (len offset : ℕ) : ℕ :=
    if x.size < offset + len then x.size - offset else len

/-- The number of bytes that `rfs_read` and `rfs_write` transfer from or to the first block, of
`times` complete ones. -/
def firstLen (times align len : ℕ) : ℕ := if times = 0 then len else RFS_BLKSIZE - align

/-- `rfs_read`. -/
def rfsReadT (v len offset : ℕ) : Blocks (ℕ × Buf × ℕ) := do
  let x ← vinodeT v
  if x.size < offset then
    Traced.fail (.panic "rfs_read:offset should less than file size!")
  else do
    let len := readLen x.toDinode len offset
    let align := offset % RFS_BLKSIZE
    let readtimes := (align + len) / RFS_BLKSIZE
    blockT x.toDinode (offset / RFS_BLKSIZE) rfsR1block
    let s ← Traced.get
    let first := firstLen readtimes align len
    let buffer := Buf.blit (fun _ => 0) 0 s.iobuffer align first
    let buffer ← readRestT x.toDinode readtimes ((align + len) % RFS_BLKSIZE) first
      (offset / RFS_BLKSIZE) buffer
    return (len, buffer, offset + len)

/-! ## Writing -/

/-- `growTo`: `addrs[blockOffset]` is assigned when the block is the one behind the last. -/
def growToT (v blockOffset : ℕ) : Blocks Unit := do
  let x ← vinodeT v
  if blockOffset = x.blocks then do
    let block ← Traced.lift rfsAllocBlock
    Traced.emit blockOffset fun s =>
      if RFS_DIRECT_BLKNUM ≤ blockOffset then throw (.undefined "addrs")
      else return ((), s.setVinode v
        { x with addrs := Function.update x.addrs blockOffset block, blocks := x.blocks + 1 })
  else pure ()

/-- `writeBlock`. -/
def writeBlockT (v blockOffset : ℕ) (wBuf : Buf) (bufOffset n : ℕ) : Blocks Unit := do
  growToT v blockOffset
  quietly fun s => .ok { s with iobuffer := s.iobuffer.blit 0 wBuf bufOffset n }
  let x ← vinodeT v
  blockT x.toDinode blockOffset rfsW1block

/-- `writeLoop`. -/
def writeLoopT (v : ℕ) (wBuf : Buf) : ℕ → ℕ → ℕ → Blocks (ℕ × ℕ)
  | 0, bufOffset, blockOffset => pure (bufOffset, blockOffset)
  | n + 1, bufOffset, blockOffset => do
    writeBlockT v blockOffset wBuf bufOffset RFS_BLKSIZE
    writeLoopT v wBuf n (bufOffset + RFS_BLKSIZE) (blockOffset + 1)

/-- `writeInside`. -/
def writeInsideT (v : ℕ) (wBuf : Buf) (blockOffset align n : ℕ) : Blocks Unit := do
  let x ← vinodeT v
  blockT x.toDinode blockOffset rfsR1block
  quietly fun s => .ok { s with iobuffer := s.iobuffer.blit align wBuf 0 n }
  blockT x.toDinode blockOffset rfsW1block

/-- `writeFirst`. -/
def writeFirstT (v : ℕ) (wBuf : Buf) (len offset : ℕ) : Blocks WritePos :=
  let align := offset % RFS_BLKSIZE
  let writetimes := (len + align) / RFS_BLKSIZE
  let blockOffset := offset / RFS_BLKSIZE
  if align ≠ 0 then do
    writeInsideT v wBuf blockOffset align (firstLen writetimes align len)
    return ⟨writetimes - 1, firstLen writetimes align len, blockOffset + 1⟩
  else pure ⟨writetimes, 0, blockOffset⟩

/-- `writeRest`. -/
def writeRestT (v : ℕ) (wBuf : Buf) (pos : WritePos) (remain : ℕ) : Blocks Unit :=
  if 0 ≤ pos.writetimes then do
    let (bufOffset, blockOffset) ←
      writeLoopT v wBuf pos.writetimes.toNat pos.bufOffset pos.blockOffset
    if 0 < remain then writeBlockT v blockOffset wBuf bufOffset remain
    else pure ()
  else pure ()

/-- `rfs_write`. -/
def rfsWriteT (v : ℕ) (wBuf : Buf) (len offset : ℕ) : Blocks (ℕ × ℕ) := do
  let x ← vinodeT v
  if x.size < offset then
    Traced.fail (.panic "rfs_write:offset should less than file size!")
  else do
    let pos ← writeFirstT v wBuf len offset
    writeRestT v wBuf pos ((len + offset % RFS_BLKSIZE) % RFS_BLKSIZE)
    let x ← vinodeT v
    quietly fun s => .ok (s.setVinode v
      { x with size := if x.size < offset + len then offset + len else x.size })
    return (len, offset + len)

/-! ## Without the trace -/

variable {s : State}

@[simp] theorem snd_quietly (f : State → Except Fault State) :
    (quietly f s).2 = do return ((), ← f s) := rfl

@[simp] theorem snd_vinodeT (v : ℕ) : (vinodeT v s).2 = do return (← s.vinode v, s) := rfl

@[simp] theorem snd_blockT (x : Dinode) (i : ℕ) (transfer : State → ℕ → Except Fault State) :
    (blockT x i transfer s).2 = do return ((), ← transfer s (← x.addr i)) := rfl

theorem snd_readLoopT (x : Dinode) (n bufOffset blockOffset : ℕ) (buffer : Buf) :
    (readLoopT x n bufOffset blockOffset buffer s).2 =
      readLoop x n bufOffset blockOffset buffer s := by
  induction n generalizing bufOffset blockOffset buffer s with
  | zero => rfl
  | succ n ih =>
    rw [readLoopT, readLoop]
    simp only [snd_bind, snd_blockT, snd_get, bind_assoc, ok_bind, ih, pure_eq_ok]

/-- Without the trace it is `rfs_read`. -/
theorem snd_rfsReadT (v len offset : ℕ) : (rfsReadT v len offset s).2 = rfsRead s v len offset := by
  rw [rfsReadT, rfsRead]
  simp only [snd_bind, snd_vinodeT, bind_assoc, pure_bind]
  refine bind_congr fun x => ?_
  rw [snd_ite]
  split
  · rfl
  simp only [snd_bind, snd_blockT, snd_get, snd_pure, bind_assoc, ok_bind, pure_eq_ok, readLen]
  refine bind_congr fun b => bind_congr fun s₁ => ?_
  generalize (if x.size < offset + len then x.size - offset else len) = n
  rw [readRestT, snd_ite, firstLen]
  by_cases htimes : (offset % RFS_BLKSIZE + n) / RFS_BLKSIZE = 0
  · simp only [htimes, if_true, snd_pure, ok_bind]
  · simp only [htimes, if_false, snd_bind, snd_readLoopT, bind_assoc]
    refine bind_congr fun r => ?_
    rw [snd_ite]
    by_cases hremain : (offset % RFS_BLKSIZE + n) % RFS_BLKSIZE = 0
    · simp only [hremain, if_true, snd_pure, ok_bind]
    · simp only [hremain, if_false, snd_bind, snd_blockT, snd_get, snd_pure, bind_assoc, ok_bind,
        pure_eq_ok]

theorem snd_growToT (v b : ℕ) : (growToT v b s).2 = do return ((), ← growTo s v b) := by
  rw [growToT, growTo]
  simp only [snd_bind, snd_vinodeT, bind_assoc, pure_bind]
  refine bind_congr fun x => ?_
  rw [snd_ite]
  split
  · simp only [snd_bind, snd_lift, snd_emit, bind_assoc]
    refine bind_congr fun r => ?_
    split <;> rfl
  · rfl

theorem snd_writeBlockT (v b : ℕ) (wBuf : Buf) (bufOffset n : ℕ) :
    (writeBlockT v b wBuf bufOffset n s).2 =
        do return ((), ← writeBlock s v b wBuf bufOffset n) := by
  rw [writeBlockT, writeBlock]
  simp only [snd_bind, snd_growToT, snd_quietly, snd_vinodeT, snd_blockT, bind_assoc, ok_bind,
    pure_eq_ok]

theorem snd_writeLoopT (v : ℕ) (wBuf : Buf) (n bufOffset b : ℕ) :
    (writeLoopT v wBuf n bufOffset b s).2 = writeLoop v wBuf n bufOffset b s := by
  induction n generalizing bufOffset b s with
  | zero => rfl
  | succ n ih =>
    rw [writeLoopT, writeLoop]
    simp only [snd_bind, snd_writeBlockT, bind_assoc, pure_bind, ih]

theorem snd_writeFirstT (v : ℕ) (wBuf : Buf) (len offset : ℕ) :
    (writeFirstT v wBuf len offset s).2 = writeFirst s v wBuf len offset := by
  rw [writeFirstT, writeFirst]
  dsimp only
  rw [snd_ite]
  split
  · rw [writeInsideT, writeInside]
    simp only [snd_bind, snd_vinodeT, snd_blockT, snd_quietly, snd_pure, bind_assoc,
      ok_bind, pure_eq_ok,
      firstLen]
    -- the source reads `addrs` once before the transfer and once after it
    refine bind_congr fun x => ?_
    cases x.toDinode.addr (offset / RFS_BLKSIZE) with
    | error e => rfl
    | ok b => simp only [ok_bind]
  · rfl

theorem snd_writeRestT (v : ℕ) (wBuf : Buf) (pos : WritePos) (remain : ℕ) :
    (writeRestT v wBuf pos remain s).2 = do return ((), ← writeRest s v wBuf pos remain) := by
  rw [writeRestT, writeRest, snd_ite]
  split
  · simp only [snd_bind, snd_writeLoopT, bind_assoc]
    refine bind_congr fun r => ?_
    rw [snd_ite]
    split
    · rw [snd_writeBlockT]
    · rfl
  · rfl

/-- Without the trace it is `rfs_write`. -/
theorem snd_rfsWriteT (v : ℕ) (wBuf : Buf) (len offset : ℕ) :
    (rfsWriteT v wBuf len offset s).2 = rfsWrite s v wBuf len offset := by
  rw [rfsWriteT, rfsWrite]
  simp only [snd_bind, snd_vinodeT, bind_assoc, pure_bind]
  refine bind_congr fun x => ?_
  rw [snd_ite]
  split
  · rfl
  · simp only [snd_bind, snd_writeFirstT, snd_writeRestT, snd_vinodeT, snd_quietly,
      snd_pure, bind_assoc,
      ok_bind, pure_eq_ok]

end HustOS.Fs
