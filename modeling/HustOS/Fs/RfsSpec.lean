import HustOS.Fs.Rfs

/-!
# What the functions of RFS do

One equation for each function of RFS on a disk it can handle: the value it returns and the new
state, where the buffer of the device ends up with some contents. A function that allocates a block
or looks for a free inode comes with the condition under which it returns.
-/

namespace HustOS.Fs

open Foundations

variable {s : State} {b n v inum : ℕ} {x : Dinode} {y : Vinode} {name : Name}

/-! ## Blocks and disk inodes -/

theorem rfsR1block_eq (h : b < RAMDISK_BLOCK_COUNT) :
    rfsR1block s b = .ok { s with iobuffer := s.disk b } :=
  if_neg (by omega)

theorem rfsW1block_eq (h : b < RAMDISK_BLOCK_COUNT) :
    rfsW1block s b = .ok { s with disk := Function.update s.disk b s.iobuffer } :=
  if_neg (by omega)

theorem addr_eq (h : n < RFS_DIRECT_BLKNUM) : x.addr n = .ok (x.addrs n) := if_pos h

theorem dinodeBlock_lt_count (h : n < ninodes) : dinodeBlock n < RAMDISK_BLOCK_COUNT :=
  (Disk.dinodeBlock_lt h).trans (by decide)

theorem rfsReadDinode_eq (h : n < ninodes) :
    rfsReadDinode s n = .ok (s.disk.dinode n, { s with iobuffer := s.disk (dinodeBlock n) }) := by
  have hr : ramdiskRead s (dinodeBlock n) = .ok { s with iobuffer := s.disk (dinodeBlock n) } :=
    rfsR1block_eq (dinodeBlock_lt_count h)
  rw [rfsReadDinode, hr]
  rfl

theorem rfsWriteDinode_eq (h : n < ninodes) :
    ∃ buf, rfsWriteDinode s x n =
      .ok { s with disk := s.disk.setDinode n x, iobuffer := buf } := by
  have hr : ramdiskRead s (dinodeBlock n) = .ok { s with iobuffer := s.disk (dinodeBlock n) } :=
    rfsR1block_eq (dinodeBlock_lt_count h)
  rw [rfsWriteDinode, hr, ok_bind]
  exact ⟨_, rfsW1block_eq (dinodeBlock_lt_count h)⟩

theorem rfsWriteBackVinode_eq (hv : s.vinodes v = some y) (h : y.inum < ninodes) :
    ∃ buf, rfsWriteBackVinode s v =
      .ok { s with disk := s.disk.setDinode y.inum y.toDinode, iobuffer := buf } := by
  rw [rfsWriteBackVinode, State.vinode_eq_ok.2 hv, ok_bind]
  exact rfsWriteDinode_eq h

/-- The vinode a lookup or a creation builds for a disk inode. -/
def newVinode (x : Dinode) (inum : ℕ) : Vinode :=
  { x with inum := inum, ref := 0, iFsInfo := none, sb := .rfs }

theorem rfsNewVinode_eq (h : inum < ninodes) :
    ∃ buf, rfsNewVinode s inum = .ok (s.pages,
      { s with
        pages := s.pages + 1
        iobuffer := buf
        vinodes := Function.update s.vinodes s.pages (some (newVinode (s.disk.dinode inum) inum)) })
    := by
  refine ⟨s.disk (dinodeBlock inum), ?_⟩
  simp [rfsNewVinode, rfsAllocVinode, State.allocPage, State.setVinode, State.vinode,
    rfsUpdateVinode, rfsReadDinode_eq h, newVinode]

/-! ## The bitmap -/

/-- `rfs_alloc_block` takes a free block, or panics when there is none. -/
theorem rfsAllocBlock_sat :
    Sat (rfsAllocBlock s)
      (fun r => ∃ k < s.sb.nblocks, s.freemap k = 0 ∧
        r = (RFS_BLK_OFFSET_FREE + k, { s with freemap := Function.update s.freemap k 1 }))
      (fun e => e = .panic "rfs_alloc_block: no more free block!\n") := by
  unfold rfsAllocBlock
  cases h : (List.range s.sb.nblocks).find? fun block => s.freemap block = 0 with
  | none => rfl
  | some k =>
    have hk := List.mem_of_find?_eq_some h
    have hf := List.find?_some h
    exact ⟨k, List.mem_range.1 hk, by simpa using hf, rfl⟩

theorem rfsFreeBlock_eq (h : RFS_BLK_OFFSET_FREE ≤ b) (h' : b < RFS_BLK_OFFSET_FREE + 1024) :
    rfsFreeBlock s b =
      .ok { s with freemap := Function.update s.freemap (b - RFS_BLK_OFFSET_FREE) 0 } :=
  if_neg (by simp only [RFS_BLKSIZE, PGSIZE]; omega)

/-- Freeing blocks clears their words of the bitmap. -/
theorem rfsFreeBlocks_eq {bs : List ℕ}
    (h : ∀ b ∈ bs, RFS_BLK_OFFSET_FREE ≤ b ∧ b < RFS_BLK_OFFSET_FREE + 1024) :
    rfsFreeBlocks bs s = .ok
      { s with freemap := fun k => if RFS_BLK_OFFSET_FREE + k ∈ bs then 0 else s.freemap k } := by
  induction bs generalizing s with
  | nil => simp [rfsFreeBlocks]
  | cons b bs ih =>
    have hb := h b (by simp)
    rw [rfsFreeBlocks, rfsFreeBlock_eq hb.1 hb.2, ok_bind, ih fun c hc => h c (by simp [hc])]
    congr 2
    funext k
    have hk : k = b - RFS_BLK_OFFSET_FREE ↔ RFS_BLK_OFFSET_FREE + k = b := by
      have := hb.1
      omega
    by_cases hkb : RFS_BLK_OFFSET_FREE + k = b
    · simp [Function.update, hk, hkb]
    · simp [Function.update, hk, hkb]

/-! ## Free disk inodes -/

theorem freeInodeLoop_sat (hn : b + n ≤ ninodes) :
    Sat (freeInodeLoop n b s)
      (fun r => ∃ i buf, b ≤ i ∧ i < b + n ∧ (s.disk.dinode i).type = R_FREE ∧
        r = ((s.disk.dinode i, i), { s with iobuffer := buf }))
      (fun e => e = .undefined "free_dinode" ∧
        ∀ i, b ≤ i → i < b + n → (s.disk.dinode i).type ≠ R_FREE) := by
  induction n generalizing b s with
  | zero => exact ⟨rfl, fun i hi hi' => by omega⟩
  | succ n ih =>
    rw [freeInodeLoop, rfsReadDinode_eq (by omega), ok_bind]
    by_cases hf : (s.disk.dinode b).type = R_FREE
    · simp only [hf, if_pos]
      exact ⟨b, _, by omega, by omega, hf, rfl⟩
    · simp only [hf, if_neg, not_false_eq_true]
      have h := ih (b := b + 1) (s := { s with iobuffer := s.disk (dinodeBlock b) }) (by omega)
      rcases hr : freeInodeLoop n (b + 1) { s with iobuffer := s.disk (dinodeBlock b) } with e | r
      · rw [hr] at h
        refine ⟨h.1, fun i hi hi' => ?_⟩
        rcases Nat.eq_or_lt_of_le hi with rfl | hi
        · exact hf
        · exact h.2 i hi (by omega)
      · rw [hr] at h
        obtain ⟨i, buf, hi, hi', ht, rfl⟩ := h
        exact ⟨i, buf, by omega, by omega, ht, rfl⟩

/-! ## Directory entries -/

/-- The blocks of a directory can be read. -/
def Readable (x : Dinode) : Prop :=
  ∀ i < x.size / direntrySize, i / oneBlockDirentrys < RFS_DIRECT_BLKNUM ∧
    x.addrs (i / oneBlockDirentrys) < RAMDISK_BLOCK_COUNT

/-- The search stops at the first entry with the name, with its block in the buffer. -/
theorem findLoop_eq {d : Disk} (hname : name.Valid) (hx : Readable x)
    (hb : b + n ≤ x.size / direntrySize) (hd : s.disk = d)
    (hio : b % oneBlockDirentrys ≠ 0 → s.iobuffer = d (x.addrs (b / oneBlockDirentrys))) :
    ∃ buf, findLoop x name n b s =
        .ok ((List.range' b n).find? fun j => (entryAt d x.addrs j).1 = name,
          { s with iobuffer := buf }) ∧
      ∀ j, (List.range' b n).find? (fun j => (entryAt d x.addrs j).1 = name) = some j →
        buf = d (x.addrs (j / oneBlockDirentrys)) := by
  induction n generalizing b s with
  | zero => exact ⟨s.iobuffer, rfl, by simp⟩
  | succ n ih =>
    have hx' := hx b (by omega)
    -- the buffer holds the block of the entry
    have hread : readAtBoundary s x b =
        .ok { s with iobuffer := d (x.addrs (b / oneBlockDirentrys)) } := by
      unfold readAtBoundary
      split
      · rw [addr_eq hx'.1, ok_bind, rfsR1block_eq hx'.2, hd]
      · rename_i hne
        rw [← hio hne]
        rfl
    set s₁ : State := { s with iobuffer := d (x.addrs (b / oneBlockDirentrys)) } with hs₁
    have hcmp : s₁.iobuffer.strcmpEq (direntrySize * (b % oneBlockDirentrys) + 4) name = true ↔
        (entryAt d x.addrs b).1 = name := Buf.strcmpEq_iff hname.2 hname.1
    rw [findLoop, hread, ok_bind, List.range'_succ, List.find?_cons]
    by_cases heq : (entryAt d x.addrs b).1 = name
    · rw [if_pos (hcmp.2 heq)]
      refine ⟨_, by simp [heq, hs₁]; rfl, fun j hj => ?_⟩
      simp only [heq, decide_true, Option.some.injEq] at hj
      rw [← hj]
    · rw [if_neg (mt hcmp.1 heq)]
      have hnext : (b + 1) % oneBlockDirentrys ≠ 0 →
          s₁.iobuffer = d (x.addrs ((b + 1) / oneBlockDirentrys)) := by
        intro hne
        have : (b + 1) / oneBlockDirentrys = b / oneBlockDirentrys := by
          simp only [oneBlockDirentrys, RFS_BLKSIZE, PGSIZE, direntrySize] at *
          omega
        rw [this]
      obtain ⟨buf, h₁, h₂⟩ := ih (b := b + 1) (s := s₁) (by omega) hd hnext
      exact ⟨buf, by simpa [heq] using h₁, by simpa [heq] using h₂⟩

/-- The position of the first entry with a name. -/
def dirIndex (l : List (Name × ℕ)) (name : Name) : Option ℕ := l.findIdx? fun e => e.1 = name

theorem find?_range' {α : Type*} (p : α → Bool) (f : ℕ → α) (b n : ℕ) :
    (List.range' b n).find? (fun j => p (f j)) =
      (((List.range' b n).map f).findIdx? p).map (b + ·) := by
  induction n generalizing b with
  | zero => rfl
  | succ n ih =>
    rw [List.range'_succ, List.map_cons, List.find?_cons, List.findIdx?_cons]
    cases p (f b)
    · rw [ih (b + 1)]
      simp only [Bool.false_eq_true, if_false, Option.map_map]
      congr 1
      funext j
      simp only [Function.comp_apply]
      omega
    · simp

/-- The search over all entries of a directory. -/
theorem findLoop_dirList (hname : name.Valid) (hx : Readable x) :
    ∃ buf, findLoop x name (x.size / direntrySize) 0 s =
        .ok (dirIndex (dirList s.disk x) name, { s with iobuffer := buf }) ∧
      ∀ j, dirIndex (dirList s.disk x) name = some j →
        entry buf (j % oneBlockDirentrys) = entryAt s.disk x.addrs j := by
  obtain ⟨buf, h₁, h₂⟩ := findLoop_eq (s := s) hname hx (b := 0) (n := x.size / direntrySize)
    (by omega) rfl fun h => absurd rfl h
  have hidx : (List.range' 0 (x.size / direntrySize)).find?
      (fun j => (entryAt s.disk x.addrs j).1 = name) = dirIndex (dirList s.disk x) name := by
    rw [find?_range' fun e : Name × ℕ => e.1 = name, dirIndex, dirList, List.range_eq_range']
    simp
  rw [hidx] at h₁ h₂
  exact ⟨buf, h₁, fun j hj => by rw [h₂ j hj]; rfl⟩

theorem dirFind_eq_none {l : List (Name × ℕ)} : dirFind l name = none ↔ dirIndex l name = none := by
  simp [dirFind, dirIndex]

/-- A directory without the first entry of a name. -/
def dirErase (l : List (Name × ℕ)) (name : Name) : List (Name × ℕ) := l.eraseP fun e => e.1 = name

/-- The first entry with a name: its position, and what removing it leaves. -/
theorem dirIndex_spec {l : List (Name × ℕ)} {i : ℕ} (h : dirFind l name = some i) :
    ∃ j, dirIndex l name = some j ∧ l[j]? = some (name, i) ∧ l.eraseIdx j = dirErase l name := by
  induction l with
  | nil => simp [dirFind] at h
  | cons e l ih =>
    by_cases he : e.1 = name
    · have : e = (name, i) := by
        simp [dirFind, he] at h
        exact Prod.ext he h
      exact ⟨0, by simp [dirIndex, List.findIdx?_cons, he], by simp [this], by
        simp [dirErase, this]⟩
    · have h' : dirFind l name = some i := by
        simpa [dirFind, he] using h
      obtain ⟨j, hj, hl, hl'⟩ := ih h'
      refine ⟨j + 1, ?_, by simpa using hl, ?_⟩
      · rw [dirIndex] at hj ⊢
        simp [List.findIdx?_cons, he, hj]
      · rw [List.eraseIdx_cons_succ, hl', dirErase, dirErase, List.eraseP_cons_of_neg (by simpa)]

/-! ## Directories of one block -/

/-- The number of data blocks (`nblocks` of a formatted RFS). -/
abbrev dataBlocks : ℕ := RFS_MAX_INODE_BLKNUM * RFS_DIRECT_BLKNUM

/-- `b` is in the data area. -/
def IsData (b : ℕ) : Prop := RFS_BLK_OFFSET_FREE ≤ b ∧ b < RFS_BLK_OFFSET_FREE + dataBlocks

/-- The inode of a directory within the limits of the format. -/
structure IsDir (x : Dinode) : Prop where
  type : x.type = DIR_I
  blocks : x.blocks = 1
  dvd : 32 ∣ x.size
  size_le : x.size ≤ 4096
  data : IsData (x.addrs 0)

theorem IsData.lt_count (h : IsData b) : b < RAMDISK_BLOCK_COUNT :=
  h.2.trans (by decide)

/-- Storing an inode leaves the data blocks alone. -/
theorem IsData.setDinode {d : Disk} (h : IsData b) (hn : n < ninodes) :
    d.setDinode n x b = d b :=
  Disk.setDinode_apply hn ((by decide : RFS_BLK_OFFSET_BITMAP ≤ _).trans h.1)

theorem IsDir.readable (h : IsDir x) : Readable x := by
  intro i hi
  have hi' : i / oneBlockDirentrys = 0 := by
    have := h.size_le
    simp only [direntrySize, oneBlockDirentrys, RFS_BLKSIZE, PGSIZE] at *
    omega
  rw [hi']
  exact ⟨by decide, h.data.lt_count⟩

/-- `rfs_lookup` of a name the directory does not have. -/
theorem rfsLookup_none (hv : s.vinodes v = some y) (hname : name.Valid) (hy : IsDir y.toDinode)
    (h : dirFind (dirList s.disk y.toDinode) name = none) :
    ∃ buf, rfsLookup s v name = .ok (none, { s with iobuffer := buf }) := by
  obtain ⟨buf, h₁, -⟩ := findLoop_dirList (s := s) hname hy.readable
  rw [dirFind_eq_none.1 h] at h₁
  refine ⟨buf, ?_⟩
  unfold rfsLookup
  simp only [State.vinode_eq_ok.2 hv, ok_bind, h₁, pure_eq_ok]

/-- `rfs_lookup` of a name the directory has. -/
theorem rfsLookup_some (hv : s.vinodes v = some y) (hname : name.Valid) (hy : IsDir y.toDinode)
    (h : dirFind (dirList s.disk y.toDinode) name = some inum) (hi : inum < ninodes) :
    ∃ buf, rfsLookup s v name = .ok (some s.pages,
      { s with
        pages := s.pages + 1
        iobuffer := buf
        vinodes := Function.update s.vinodes s.pages (some (newVinode (s.disk.dinode inum) inum)) })
    := by
  obtain ⟨j, hj, hl, -⟩ := dirIndex_spec h
  obtain ⟨buf, h₁, h₂⟩ := findLoop_dirList (s := s) hname hy.readable
  rw [hj] at h₁
  have hent : (entry buf (j % oneBlockDirentrys)).2 = inum := by
    rw [h₂ j hj, (getElem?_dirList hl).2]
  obtain ⟨buf', h₃⟩ := rfsNewVinode_eq (s := { s with iobuffer := buf }) hi
  refine ⟨buf', ?_⟩
  unfold rfsLookup
  simp only [State.vinode_eq_ok.2 hv, ok_bind, h₁, hent, h₃, pure_eq_ok]

/-- `rfs_add_direntry` writes the entry to the block `c` that the size of the directory selects. -/
theorem rfsAddDirentry_at {c : ℕ} (inum : ℕ) (hv : s.vinodes v = some y) (hname : name.Valid)
    (htype : y.type = DIR_I) (haddr : y.addr (y.size / RFS_BLKSIZE) = .ok c)
    (hc : c < RAMDISK_BLOCK_COUNT) (hinum : y.inum < ninodes) :
    ∃ buf, rfsAddDirentry s v name inum = .ok (0,
      { s with
        disk := Disk.setDinode
          (Function.update s.disk c (putEntry (s.disk c) (y.size % RFS_BLKSIZE) name inum))
          y.inum { y.toDinode with size := y.size + 32 }
        iobuffer := buf
        vinodes := Function.update s.vinodes v (some { y with size := y.size + 32 }) }) := by
  have hlen : ¬ RFS_MAX_FILE_NAME_LEN ≤ name.length := Nat.not_le.2 hname.1
  set s₁ : State :=
    { s with
      disk := Function.update s.disk c (putEntry (s.disk c) (y.size % RFS_BLKSIZE) name inum)
      iobuffer := putEntry (s.disk c) (y.size % RFS_BLKSIZE) name inum
      vinodes := Function.update s.vinodes v (some { y with size := y.size + 32 }) } with hs₁
  obtain ⟨buf, hbuf⟩ := rfsWriteBackVinode_eq (s := s₁) (v := v)
    (y := { y with size := y.size + 32 }) (Function.update_self _ _ _) hinum
  refine ⟨buf, ?_⟩
  have htype' : ¬ y.type ≠ DIR_I := not_not.2 htype
  unfold rfsAddDirentry
  simp only [State.vinode_eq_ok.2 hv, ok_bind, htype', if_false, haddr, rfsR1block_eq hc,
    rfsW1block_eq hc, hlen, State.setVinode, direntrySize]
  rw [show rfsWriteBackVinode _ v = _ from hbuf, ok_bind]
  rfl

/-- `rfs_add_direntry` on a directory that is not full. -/
theorem rfsAddDirentry_eq (inum : ℕ) (hv : s.vinodes v = some y) (hname : name.Valid)
    (hy : IsDir y.toDinode) (hfull : y.size < 4096) (hinum : y.inum < ninodes) :
    ∃ buf, rfsAddDirentry s v name inum = .ok (0,
      { s with
        disk := Disk.setDinode
          (Function.update s.disk (y.addrs 0) (putEntry (s.disk (y.addrs 0)) y.size name inum))
          y.inum { y.toDinode with size := y.size + 32 }
        iobuffer := buf
        vinodes := Function.update s.vinodes v (some { y with size := y.size + 32 }) }) := by
  have hdiv : y.size / RFS_BLKSIZE = 0 := Nat.div_eq_of_lt hfull
  have hmod : y.size % RFS_BLKSIZE = y.size := Nat.mod_eq_of_lt hfull
  have haddr : y.addr (y.size / RFS_BLKSIZE) = .ok (y.addrs 0) := by
    rw [hdiv]
    exact addr_eq (by decide)
  have hadd := rfsAddDirentry_at inum hv hname hy.type haddr hy.data.lt_count hinum
  rwa [hmod] at hadd

/-- The removal of an entry from a directory. -/
theorem removeDirentry_eq {k : ℕ} (hv : s.vinodes v = some y) (hy : IsDir y.toDinode)
    (hk : k < y.size / 32) (hinum : y.inum < ninodes) :
    ∃ buf, removeDirentry s v k = .ok (0,
      { s with
        disk := Disk.setDinode
          (Function.update s.disk (y.addrs 0) (dropEntry (s.disk (y.addrs 0)) k))
          y.inum { y.toDinode with size := y.size - 32 }
        iobuffer := buf
        vinodes := Function.update s.vinodes v (some { y with size := y.size - 32 }) }) := by
  have hk' : k < 128 := by have := hy.size_le; omega
  have hdiv : k / oneBlockDirentrys = 0 := Nat.div_eq_of_lt hk'
  have hmod : k % oneBlockDirentrys = k := Nat.mod_eq_of_lt hk'
  set s₁ : State :=
    { s with
      disk := Function.update s.disk (y.addrs 0) (dropEntry (s.disk (y.addrs 0)) k)
      iobuffer := dropEntry (s.disk (y.addrs 0)) k
      vinodes := Function.update s.vinodes v (some { y with size := y.size - 32 }) } with hs₁
  obtain ⟨buf, hbuf⟩ := rfsWriteBackVinode_eq (s := s₁) (v := v)
    (y := { y with size := y.size - 32 }) (Function.update_self _ _ _) hinum
  refine ⟨buf, ?_⟩
  have hb₁ : y.blocks - (0 + 1) = 0 := by rw [hy.blocks]
  have hb₂ : ¬ y.blocks = 0 := by rw [hy.blocks]; decide
  have hb₃ : ¬ 1 < y.blocks := by rw [hy.blocks]; decide
  unfold removeDirentry
  simp only [State.vinode_eq_ok.2 hv, ok_bind, hdiv, hmod, hb₁, hb₂, hb₃,
    addr_eq (x := y.toDinode) (show 0 < RFS_DIRECT_BLKNUM by decide),
    rfsR1block_eq hy.data.lt_count, shiftLoop, freeEmptyBlock, pure_eq_ok, if_false,
    rfsW1block_eq hy.data.lt_count, and_false, State.setVinode, direntrySize]
  rw [show rfsWriteBackVinode _ v = _ from hbuf, ok_bind]

/-! ## Creation -/

/-- The disk after a creation in the directory `y`: the disk inode `i` holds `x`, and the directory
has the new entry. -/
def madeDisk (d : Disk) (y : Vinode) (name : Name) (i : ℕ) (x : Dinode) : Disk :=
  Disk.setDinode
    (Function.update (d.setDinode i x) (y.addrs 0) (putEntry (d (y.addrs 0)) y.size name i))
    y.inum { y.toDinode with size := y.size + 32 }

/-- The state after a creation in the directory `y` at `v`, with the free block `k` and a new vinode
for the inode `i`. -/
def madeState (s : State) (v : ℕ) (y : Vinode) (name : Name) (i k : ℕ) (x z : Dinode) (buf : Buf) :
    State :=
  { s with
    disk := madeDisk s.disk y name i x
    iobuffer := buf
    pages := s.pages + 1
    freemap := Function.update s.freemap k 1
    vinodes := Function.update (Function.update s.vinodes s.pages (some (newVinode z i))) v
      (some { y with size := y.size + 32 }) }

/-- The disk inode of a new file or directory. -/
def madeNode (type blocks : ℕ) (x : Dinode) (block : ℕ) : Dinode :=
  { size := 0, type := type, nlinks := 1, blocks := blocks,
    addrs := Function.update x.addrs 0 block }

theorem fits_madeNode {type blocks block : ℕ} (hx : x.Fits) (ht : type < 2 ^ 32)
    (hb : blocks < 2 ^ 32) (hb' : block < 2 ^ 32) : (madeNode type blocks x block).Fits where
  size := by simp [madeNode]
  type := ht
  nlinks := by simp [madeNode]
  blocks := hb
  addrs i := by
    simp only [madeNode, Function.update_apply]
    split
    · exact hb'
    · exact hx.addrs i
  past i hi := by
    have : i ≠ 0 := by simp only [RFS_DIRECT_BLKNUM] at hi; omega
    simp only [madeNode, Function.update_of_ne this]
    exact hx.past i hi

/-- Why a creation fails. -/
def CreateFault (s : State) (e : Fault) : Prop :=
  e = .panic "rfs_alloc_block: no more free block!\n" ∨
    (e = .undefined "free_dinode" ∧ ∀ i < ninodes, (s.disk.dinode i).type ≠ R_FREE)

/-- The free disk inode and the free block of a creation. -/
structure Fresh (s : State) (i k : ℕ) : Prop where
  inum_lt : i < ninodes
  free : (s.disk.dinode i).type = R_FREE
  block_lt : k < s.sb.nblocks
  unused : s.freemap k = 0

section Creation

variable (hv : s.vinodes v = some y) (hname : name.Valid) (hy : IsDir y.toDinode)
  (hfull : y.size < 4096) (hinum : y.inum < ninodes) (hpage : v ≠ s.pages)

include hv hname hy hfull hinum hpage

/-- **`rfs_create`** in a directory that is not full. -/
theorem rfsCreate_sat (hsb : s.sb.nblocks = dataBlocks) :
    Sat (rfsCreate s v name)
      (fun r => ∃ i k buf, Fresh s i k ∧ ∃ x, x = madeNode R_FILE 0 (s.disk.dinode i) (12 + k) ∧
        r = (some s.pages, madeState s v y name i k x x buf))
      (CreateFault s) := by
  unfold rfsCreate
  rw [State.vinode_eq_ok.2 hv, ok_bind]
  refine Sat.bind ((freeInodeLoop_sat (by omega)).mono' fun e he => .inr ⟨he.1, fun i hi =>
    he.2 i (by omega) (by omega)⟩) ?_
  rintro _ ⟨i, buf₁, -, hi, hfree, rfl⟩
  rw [Nat.zero_add] at hi
  refine Sat.bind (rfsAllocBlock_sat.mono' fun e he => .inl he) ?_
  rintro _ ⟨k, hk, hk0, rfl⟩
  set x := madeNode R_FILE 0 (s.disk.dinode i) (12 + k) with hx
  have hxf : x.Fits := fits_madeNode (s.disk.fits_dinode i) (by decide) (by decide) (by
    have hk' : k < dataBlocks := hsb ▸ hk
    simp only [dataBlocks, RFS_MAX_INODE_BLKNUM, RFS_DIRECT_BLKNUM] at hk'
    omega)
  obtain ⟨buf₂, h₂⟩ := rfsWriteDinode_eq (x := x) (s :=
    { s with iobuffer := buf₁, freemap := Function.update s.freemap k 1 }) hi
  obtain ⟨buf₃, h₃⟩ := rfsNewVinode_eq (s :=
    { s with
      disk := s.disk.setDinode i x, iobuffer := buf₂,
      freemap := Function.update s.freemap k 1 }) hi
  rw [Disk.dinode_setDinode hxf] at h₃
  obtain ⟨buf₄, h₄⟩ := rfsAddDirentry_eq (s :=
    { s with
      disk := s.disk.setDinode i x, iobuffer := buf₃, pages := s.pages + 1,
      freemap := Function.update s.freemap k 1,
      vinodes := Function.update s.vinodes s.pages (some (newVinode x i)) })
    (v := v) i ((Function.update_of_ne hpage _ _).trans hv) hname hy hfull hinum
  have hblock : s.disk.setDinode i x (y.addrs 0) = s.disk (y.addrs 0) :=
    hy.data.setDinode hi
  change Sat (rfsWriteDinode _ x i >>= _) _ _
  rw [h₂, ok_bind, h₃, ok_bind]
  change Sat (rfsAddDirentry _ v name i >>= _) _ _
  rw [h₄, ok_bind]
  refine ⟨i, k, buf₄, ⟨hi, hfree, hk, hk0⟩, x, hx, ?_⟩
  simp only [madeState, madeDisk, hblock]

/-- **`rfs_mkdir`** in a directory that is not full. -/
theorem rfsMkdir_sat :
    Sat (rfsMkdir s v name)
      (fun r => ∃ i k buf, Fresh s i k ∧ ∃ x, x = madeNode R_DIR 1 (s.disk.dinode i) (12 + k) ∧
        r = (some s.pages,
          madeState s v y name i k x ((madeDisk s.disk y name i x).dinode i) buf))
      (CreateFault s) := by
  unfold rfsMkdir
  rw [State.vinode_eq_ok.2 hv, ok_bind]
  refine Sat.bind ((freeInodeLoop_sat (by omega)).mono' fun e he => .inr ⟨he.1, fun i hi =>
    he.2 i (by omega) (by omega)⟩) ?_
  rintro _ ⟨i, buf₁, -, hi, hfree, rfl⟩
  rw [Nat.zero_add] at hi
  refine Sat.bind (rfsAllocBlock_sat.mono' fun e he => .inl he) ?_
  rintro _ ⟨k, hk, hk0, rfl⟩
  set x := madeNode R_DIR 1 (s.disk.dinode i) (12 + k) with hx
  obtain ⟨buf₂, h₂⟩ := rfsWriteDinode_eq (x := x) (s :=
    { s with iobuffer := buf₁, freemap := Function.update s.freemap k 1 }) hi
  obtain ⟨buf₃, h₃⟩ := rfsAddDirentry_eq (s :=
    { s with
      disk := s.disk.setDinode i x, iobuffer := buf₂,
      freemap := Function.update s.freemap k 1 })
    (v := v) i hv hname hy hfull hinum
  have hblock : s.disk.setDinode i x (y.addrs 0) = s.disk (y.addrs 0) :=
    hy.data.setDinode hi
  simp only [hblock] at h₃
  obtain ⟨buf₄, h₄⟩ := rfsNewVinode_eq (s :=
    { s with
      disk := madeDisk s.disk y name i x, iobuffer := buf₃,
      freemap := Function.update s.freemap k 1,
      vinodes := Function.update s.vinodes v (some { y with size := y.size + 32 }) }) hi
  change Sat (rfsWriteDinode _ x i >>= _) _ _
  rw [h₂, ok_bind, h₃, ok_bind]
  simp only [madeDisk] at h₄
  change Sat (rfsNewVinode _ i >>= _) _ _
  rw [h₄, ok_bind]
  refine ⟨i, k, buf₄, ⟨hi, hfree, hk, hk0⟩, x, hx, ?_⟩
  simp only [madeState, madeDisk, Function.update_comm hpage]

end Creation

/-- **`rfs_link`** in a directory that is not full. -/
theorem rfsLink_eq {w : ℕ} {l : Vinode} (hv : s.vinodes v = some y) (hname : name.Valid)
    (hy : IsDir y.toDinode) (hfull : y.size < 4096) (hinum : y.inum < ninodes)
    (hw : s.vinodes w = some l) (hl : l.inum < ninodes) (hne : v ≠ w) :
    ∃ buf, rfsLink s v name w = .ok (0,
      { s with
        disk := Disk.setDinode (Disk.setDinode
          (Function.update s.disk (y.addrs 0) (putEntry (s.disk (y.addrs 0)) y.size name l.inum))
          y.inum { y.toDinode with size := y.size + 32 })
          l.inum { l.toDinode with nlinks := l.nlinks + 1 }
        iobuffer := buf
        vinodes := Function.update
          (Function.update s.vinodes w (some { l with nlinks := l.nlinks + 1 })) v
          (some { y with size := y.size + 32 }) }) := by
  obtain ⟨buf₁, h₁⟩ := rfsAddDirentry_eq (s := s.setVinode w { l with nlinks := l.nlinks + 1 })
    (v := v) l.inum ((Function.update_of_ne hne _ _).trans hv) hname hy hfull hinum
  obtain ⟨buf₂, h₂⟩ := rfsWriteBackVinode_eq (v := w) (y := { l with nlinks := l.nlinks + 1 }) (s :=
    { s with
      disk := Disk.setDinode
        (Function.update s.disk (y.addrs 0) (putEntry (s.disk (y.addrs 0)) y.size name l.inum))
        y.inum { y.toDinode with size := y.size + 32 }
      iobuffer := buf₁
      vinodes := Function.update
        (Function.update s.vinodes w (some { l with nlinks := l.nlinks + 1 })) v
        (some { y with size := y.size + 32 }) })
    ((Function.update_of_ne hne.symm _ _).trans (Function.update_self _ _ _)) hl
  refine ⟨buf₂, ?_⟩
  unfold rfsLink
  rw [State.vinode_eq_ok.2 hw, ok_bind]
  change (rfsAddDirentry _ v name l.inum >>= _) = _
  rw [h₁, ok_bind]
  exact congrArg (fun r => r >>= fun s => pure ((0 : ℤ), s)) h₂

/-- `rfs_unlink` in an empty directory. -/
theorem rfsUnlink_empty {w : ℕ} (hv : s.vinodes v = some y) (h : dirList s.disk y.toDinode = []) :
    rfsUnlink s v name w = .error .nullDeref := by
  have hz : y.size / direntrySize = 0 := by
    rwa [← List.length_eq_zero_iff, length_dirList] at h
  unfold rfsUnlink
  simp only [State.vinode_eq_ok.2 hv, ok_bind, hz, findLoop, pure_eq_ok, if_true, throw_eq_error,
    error_bind]

/-- `rfs_unlink` of a name the directory does not have. -/
theorem rfsUnlink_missing {w : ℕ} (hv : s.vinodes v = some y) (hname : name.Valid)
    (hy : Readable y.toDinode) (hne : dirList s.disk y.toDinode ≠ [])
    (h : dirFind (dirList s.disk y.toDinode) name = none) :
    ∃ buf, rfsUnlink s v name w = .ok (-1, { s with iobuffer := buf }) := by
  obtain ⟨buf, h₁, -⟩ := findLoop_dirList (s := s) hname hy
  rw [dirFind_eq_none.1 h] at h₁
  have hpos : ¬ y.size / direntrySize = 0 := by
    rwa [ne_eq, ← List.length_eq_zero_iff, length_dirList] at hne
  refine ⟨buf, ?_⟩
  unfold rfsUnlink
  simp only [State.vinode_eq_ok.2 hv, ok_bind, h₁, hpos, if_false, pure_eq_ok]

/-- `rfs_unlink` of a name the directory has: the two halves. -/
theorem rfsUnlink_found {w : ℕ} (hv : s.vinodes v = some y) (hname : name.Valid)
    (hy : Readable y.toDinode) (h : dirFind (dirList s.disk y.toDinode) name = some inum) :
    ∃ buf j, j < y.size / 32 ∧
      (dirList s.disk y.toDinode).eraseIdx j = dirErase (dirList s.disk y.toDinode) name ∧
      rfsUnlink s v name w =
        (dropLink { s with iobuffer := buf } inum w >>= fun s => removeDirentry s v j) := by
  obtain ⟨j, hj, hl, herase⟩ := dirIndex_spec h
  obtain ⟨buf, h₁, h₂⟩ := findLoop_dirList (s := s) hname hy
  rw [hj] at h₁
  obtain ⟨hlt, hent⟩ := getElem?_dirList hl
  have hinum : (entry buf (j % oneBlockDirentrys)).2 = inum := by
    rw [h₂ j hj, hent]
  have hpos : ¬ y.size / direntrySize = 0 := by
    simp only [direntrySize]
    omega
  refine ⟨buf, j, hlt, herase, ?_⟩
  unfold rfsUnlink
  simp only [State.vinode_eq_ok.2 hv, ok_bind, h₁, hpos, if_false, hinum]

/-! ## Link counts -/

/-- Freeing any list of blocks changes the bitmap only. -/
theorem rfsFreeBlocks_sat (bs : List ℕ) :
    Sat (rfsFreeBlocks bs s) (fun s' => ∃ fm, s' = { s with freemap := fm })
      (fun e => e = .undefined "freemap") := by
  induction bs generalizing s with
  | nil => exact ⟨s.freemap, rfl⟩
  | cons b bs ih =>
    rw [rfsFreeBlocks]
    refine Sat.bind (P := fun s' => ∃ fm, s' = { s with freemap := fm }) ?_ ?_
    · unfold rfsFreeBlock
      split
      · rfl
      · exact ⟨_, rfl⟩
    · rintro _ ⟨fm, rfl⟩
      exact ih.mono fun _ ⟨fm', h⟩ => ⟨fm', h⟩

/-- What `rfs_unlink` does to the disk inode and the vinode, whatever they hold. -/
theorem dropLink_sat (hv : s.vinodes v = some y) (hi : inum < ninodes) :
    Sat (dropLink s inum v)
      (fun s' => ∃ x fm buf n, s' =
        { s with
          disk := s.disk.setDinode inum x
          freemap := fm
          iobuffer := buf
          vinodes := Function.update s.vinodes v (some { y with nlinks := n }) })
      (fun e => e = .assertion "unlink_vinode->nlinks == unlink_dinode->nlinks" ∨
        e = .undefined "addrs" ∨ e = .undefined "freemap") := by
  unfold dropLink
  have hv' : State.vinode { s with iobuffer := s.disk (dinodeBlock inum) } v = .ok y :=
    State.vinode_eq_ok.2 hv
  simp only [rfsReadDinode_eq hi, ok_bind, hv', State.setVinode]
  generalize (y.nlinks + (2 ^ 32 - 1)) % 2 ^ 32 = n
  split
  · exact .inl rfl
  · split
    · split
      · exact .inr (.inl rfl)
      · refine Sat.bind ((rfsFreeBlocks_sat _).mono' fun _ h => .inr (.inr h)) ?_
        rintro _ ⟨fm, rfl⟩
        obtain ⟨buf, hw⟩ := rfsWriteDinode_eq (s := _) hi
        rw [hw]
        exact ⟨_, fm, buf, _, rfl⟩
    · obtain ⟨buf, hw⟩ := rfsWriteDinode_eq (s := _) hi
      rw [hw]
      exact ⟨_, _, buf, _, rfl⟩

/-- A link that is not the last one. -/
theorem dropLink_eq (hv : s.vinodes v = some y) (hi : inum < ninodes) (hn : y.nlinks = n + 1)
    (hn' : (s.disk.dinode inum).nlinks = n + 1) (hpos : 0 < n) (hlt : n + 1 < 2 ^ 32) :
    ∃ buf, dropLink s inum v = .ok
      { s with
        disk := s.disk.setDinode inum { s.disk.dinode inum with nlinks := n }
        iobuffer := buf
        vinodes := Function.update s.vinodes v (some { y with nlinks := n }) } := by
  have hv' : State.vinode { s with iobuffer := s.disk (dinodeBlock inum) } v = .ok y :=
    State.vinode_eq_ok.2 hv
  have hsub : (n + 1 + (2 ^ 32 - 1)) % 2 ^ 32 = n := by omega
  unfold dropLink
  simp only [rfsReadDinode_eq hi, ok_bind, hv', hn, hn', ne_eq, not_true_eq_false, if_false, hsub,
    hpos.ne', State.setVinode]
  exact rfsWriteDinode_eq hi

/-- The last link: the blocks of the disk inode are freed. -/
theorem dropLink_last (hv : s.vinodes v = some y) (hi : inum < ninodes) (hn : y.nlinks = 1)
    (hn' : (s.disk.dinode inum).nlinks = 1) (hb : (s.disk.dinode inum).blocks ≤ RFS_DIRECT_BLKNUM)
    (hd : ∀ b ∈ (s.disk.dinode inum).blks, IsData b) :
    ∃ buf, dropLink s inum v = .ok
      { s with
        disk := s.disk.setDinode inum { s.disk.dinode inum with nlinks := 0, type := R_FREE }
        freemap := fun k =>
          if RFS_BLK_OFFSET_FREE + k ∈ (s.disk.dinode inum).blks then 0 else s.freemap k
        iobuffer := buf
        vinodes := Function.update s.vinodes v (some { y with nlinks := 0 }) } := by
  have hv' : State.vinode { s with iobuffer := s.disk (dinodeBlock inum) } v = .ok y :=
    State.vinode_eq_ok.2 hv
  have hfree : ∀ b ∈ (s.disk.dinode inum).blks,
      RFS_BLK_OFFSET_FREE ≤ b ∧ b < RFS_BLK_OFFSET_FREE + 1024 := fun b hb =>
    ⟨(hd b hb).1, (hd b hb).2.trans (by decide)⟩
  have hblks : Dinode.blks { s.disk.dinode inum with nlinks := 0 } = (s.disk.dinode inum).blks :=
    rfl
  unfold dropLink
  simp only [rfsReadDinode_eq hi, ok_bind, hv', hn, hn', ne_eq, not_true_eq_false, if_false,
    Nat.reducePow, Nat.reduceSub, Nat.reduceAdd, Nat.reduceMod, if_true, State.setVinode, hblks,
    Nat.not_lt.2 hb, rfsFreeBlocks_eq hfree]
  exact rfsWriteDinode_eq hi

/-! ## Reading a directory -/

/-- What `rfs_hook_opendir` reads from the block of a directory. -/
def dirCache (s : State) (y : Vinode) : DirCache where
  blockCount := 1
  dirBaseAddr := Buf.blit (fun _ => 0) 0 (s.disk (y.addrs 0)) 0 RFS_BLKSIZE

theorem rfsHookOpendir_eq (hv : s.vinodes vd = some y) (hy : IsDir y.toDinode) :
    rfsHookOpendir s vd = .ok (0,
      { s with
        iobuffer := s.disk (y.addrs 0)
        pages := s.pages + 1
        vinodes := Function.update s.vinodes vd
          (some { y with iFsInfo := some (dirCache s y) }) }) := by
  unfold rfsHookOpendir
  simp only [State.vinode_eq_ok.2 hv, ok_bind, hy.blocks, opendirLoop, State.allocPage,
    Option.any_none, Bool.false_eq_true, if_false,
    addr_eq (x := y.toDinode) (show 0 < RFS_DIRECT_BLKNUM by decide),
    rfsR1block_eq hy.data.lt_count, Nat.zero_mul, pure_eq_ok, State.setVinode, dirCache]

end HustOS.Fs
