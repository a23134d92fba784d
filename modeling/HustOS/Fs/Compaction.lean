import HustOS.Fs.RfsSpec

/-!
# Removing an entry from a directory of several blocks

`rfs_unlink` moves the entries behind the removed one to the front: within its block, and then the
first entry of each further block to the end of the previous one, through a chain of copies. The
entry list of the directory loses the first entry with the name and keeps the others in order, and
the last block is freed when it has become empty and is not the only one (`unlink_compacts`).
-/

namespace HustOS.Fs

open Foundations

variable {s s' : State} {b i j k n u v inum : ℕ} {x : Dinode} {y z : Vinode} {name : Name}
  {d d' : Disk} {buf : Buf}

/-! ## Directories of several blocks -/

/-- The number of blocks that `size` bytes of a directory take, at least one. -/
def dirBlocks (size : ℕ) : ℕ := max 1 ((size + RFS_BLKSIZE - 1) / RFS_BLKSIZE)

/-- The inode of a directory that fills distinct data blocks. -/
structure IsWideDir (x : Dinode) : Prop where
  dvd : direntrySize ∣ x.size
  blocks : x.blocks = dirBlocks x.size
  blocks_le : x.blocks ≤ RFS_DIRECT_BLKNUM
  data : ∀ i < x.blocks, IsData (x.addrs i)
  distinct : ∀ i < x.blocks, ∀ j < x.blocks, x.addrs i = x.addrs j → i = j

namespace IsWideDir

theorem pos (h : IsWideDir x) : 0 < x.blocks := by
  rw [h.blocks, dirBlocks]
  omega

/-- An entry is in one of the blocks. -/
theorem div_lt (h : IsWideDir x) (hi : i < x.size / direntrySize) :
    i / oneBlockDirentrys < x.blocks := by
  rw [h.blocks, dirBlocks]
  simp only [direntrySize, oneBlockDirentrys, RFS_BLKSIZE, PGSIZE] at *
  omega

theorem readable (h : IsWideDir x) : Readable x := fun _ hi =>
  ⟨(h.div_lt hi).trans_le h.blocks_le, (h.data _ (h.div_lt hi)).lt_count⟩

theorem addr (h : IsWideDir x) (hi : i < x.blocks) : x.addr i = .ok (x.addrs i) :=
  addr_eq (hi.trans_le h.blocks_le)

/-- Writing a disk inode leaves the entries alone. -/
theorem dirList_setDinode {x₀ : Dinode} (h : IsWideDir x) (hn : n < ninodes) :
    dirList (d.setDinode n x₀) x = dirList d x := by
  refine List.map_congr_left fun i hi => ?_
  rw [entryAt, entryAt, (h.data _ (h.div_lt (List.mem_range.1 hi))).setDinode hn]

end IsWideDir

/-! ## Moving the first entry of a block to the end of the previous one -/

/-- The block with the first entry of the next one at its end. -/
def fillLast (b next : Buf) : Buf :=
  b.blit ((oneBlockDirentrys - 1) * direntrySize) next 0 direntrySize

theorem entry_fillLast_last (b next : Buf) : entry (fillLast b next) 127 = entry next 0 :=
  entry_congr fun l hl => by
    rw [fillLast, show 32 * 127 + l = (oneBlockDirentrys - 1) * direntrySize + l from rfl,
      Buf.blit_apply (by simp only [direntrySize]; omega)]

theorem entry_fillLast_of_lt {b next : Buf} (h : j < 127) : entry (fillLast b next) j = entry b j :=
  entry_congr fun l hl => Buf.blit_apply_of_lt (by
    simp only [oneBlockDirentrys, RFS_BLKSIZE, PGSIZE, direntrySize]
    omega)

/-- The loop over the `n` blocks from the `i`-th on: each of the blocks from the one before is
filled with the first entry of the next one, and the last one is handed back. -/
theorem shiftLoop_eq (prev : Buf) (hx : IsWideDir x) (hi : 0 < i) (hn : i + n ≤ x.blocks) :
    ∃ d' buf, shiftLoop x n i prev s =
        .ok (if n = 0 then prev else dropEntry (s.disk (x.addrs (i + n - 1))) 0,
          { s with disk := d', iobuffer := buf }) ∧
      (∀ j, i ≤ j + 1 → j + 1 < i + n → d' (x.addrs j) =
        fillLast (if j + 1 = i then prev else dropEntry (s.disk (x.addrs j)) 0)
          (s.disk (x.addrs (j + 1)))) ∧
      ∀ b, (∀ j, i ≤ j + 1 → j + 1 < i + n → b ≠ x.addrs j) → d' b = s.disk b := by
  induction n generalizing i prev s with
  | zero => exact ⟨s.disk, s.iobuffer, rfl, fun j hj hj' => by omega, fun b _ => rfl⟩
  | succ n ih =>
    have hlt : i < x.blocks := by omega
    have hblock := (hx.data i hlt).lt_count
    have hprev := (hx.data (i - 1) (by omega)).lt_count
    set s₁ : State := { s with
      disk := Function.update s.disk (x.addrs (i - 1)) (fillLast prev (s.disk (x.addrs i)))
      iobuffer := fillLast prev (s.disk (x.addrs i)) } with hs₁
    have hkeep : ∀ j < x.blocks, j ≠ i - 1 → s₁.disk (x.addrs j) = s.disk (x.addrs j) := by
      intro j hj hne
      exact Function.update_of_ne (fun heq => hne (hx.distinct j hj (i - 1) (by omega) heq)) _ _
    obtain ⟨d', buf, hrun, hfill, hrest⟩ :=
      ih (dropEntry (s.disk (x.addrs i)) 0) (s := s₁) (i := i + 1) (by omega) (by omega)
    refine ⟨d', buf, ?_, fun j hj hj' => ?_, fun b hb => ?_⟩
    · rw [shiftLoop, hx.addr hlt, ok_bind, rfsR1block_eq hblock, ok_bind, hx.addr (by omega),
        ok_bind]
      dsimp only
      rw [rfsW1block_eq hprev, ok_bind]
      refine hrun.trans (congrArg (fun b => Except.ok (b, _)) ?_)
      by_cases hn0 : n = 0
      · subst hn0
        rw [if_pos rfl, if_neg (Nat.succ_ne_zero 0)]
        rfl
      · rw [if_neg hn0, if_neg (Nat.succ_ne_zero n), hkeep _ (by omega) (by omega),
          show i + 1 + n - 1 = i + (n + 1) - 1 by omega]
    · by_cases hji : j + 1 = i
      · -- the block in front, which the rest leaves alone
        have hjeq : j = i - 1 := by omega
        subst hjeq
        rw [hrest _ fun j' hj₁ hj₂ heq => ?_, if_pos hji, hji]
        · exact Function.update_self _ _ _
        · have := hx.distinct (i - 1) (by omega) j' (by omega) heq
          omega
      · rw [hfill j (by omega) (by omega), if_neg hji, hkeep (j + 1) (by omega) (by omega)]
        by_cases hj0 : j = i
        · rw [hj0, if_pos rfl]
        · rw [if_neg (by omega), hkeep j (by omega) (by omega)]
    · rw [hrest b fun j hj₁ hj₂ => hb j (by omega) (by omega)]
      refine Function.update_of_ne ?_ _ _
      exact hb (i - 1) (by omega) (by omega)

/-! ## Removing an entry -/

/-- A block of the directory after the removal of the `k`-th entry, before its end is filled. -/
def droppedBlock (d : Disk) (x : Dinode) (k j : ℕ) : Buf :=
  dropEntry (d (x.addrs j)) (if j = k / oneBlockDirentrys then k % oneBlockDirentrys else 0)

/-- The blocks of the directory on the disk `d'` are those on the disk `d` after the removal of the
`k`-th entry; the other blocks are the same. -/
structure Compacted (d d' : Disk) (x : Dinode) (k : ℕ) : Prop where
  before : ∀ j, j < k / oneBlockDirentrys → j < x.blocks → d' (x.addrs j) = d (x.addrs j)
  inner : ∀ j, k / oneBlockDirentrys ≤ j → j + 1 < x.blocks →
    d' (x.addrs j) = fillLast (droppedBlock d x k j) (d (x.addrs (j + 1)))
  last : d' (x.addrs (x.blocks - 1)) = droppedBlock d x k (x.blocks - 1)
  frame : ∀ b, (∀ j < x.blocks, b ≠ x.addrs j) → d' b = d b

namespace Compacted

/-- An entry that is not at the end of its block. -/
theorem entry_of_lt (h : Compacted d d' x k) (hj : k / oneBlockDirentrys ≤ j)
    (hlt : j < x.blocks) (hi : i < 127) :
    entry (d' (x.addrs j)) i = entry (droppedBlock d x k j) i := by
  by_cases hlast : j + 1 < x.blocks
  · rw [h.inner j hj hlast, entry_fillLast_of_lt hi]
  · have hend : j = x.blocks - 1 := by omega
    rw [hend, h.last]

/-- **The entries in front of the removed one stay, and the others move up by one place.** -/
theorem entryAt_eq (h : Compacted d d' x k) (hx : IsWideDir x)
    (hi : i + 1 < x.size / direntrySize) :
    entryAt d' x.addrs i = entryAt d x.addrs (if i < k then i else i + 1) := by
  have hlt : i / oneBlockDirentrys < x.blocks := hx.div_lt (by omega)
  have hr : i % oneBlockDirentrys < 128 := Nat.mod_lt _ (by decide)
  have hrk : k % oneBlockDirentrys < 128 := Nat.mod_lt _ (by decide)
  rw [entryAt]
  by_cases hik : i < k
  · rw [if_pos hik, entryAt]
    rcases Nat.lt_or_ge (i / oneBlockDirentrys) (k / oneBlockDirentrys) with hj | hj
    · rw [h.before _ hj hlt]
    · have hjeq : i / oneBlockDirentrys = k / oneBlockDirentrys := by
        exact Nat.le_antisymm (Nat.div_le_div_right hik.le) hj
      have hlow : i % oneBlockDirentrys < k % oneBlockDirentrys := by
        simp only [oneBlockDirentrys, RFS_BLKSIZE, PGSIZE, direntrySize] at *
        omega
      rw [h.entry_of_lt hj hlt (by omega), droppedBlock, if_pos hjeq, entry_dropEntry_of_lt hlow]
  · rw [if_neg hik, entryAt]
    have hj : k / oneBlockDirentrys ≤ i / oneBlockDirentrys := Nat.div_le_div_right (by omega)
    rcases Nat.lt_or_ge (i % oneBlockDirentrys) 127 with hrest | hend
    · -- the entry comes from the same block
      have hdiv : (i + 1) / oneBlockDirentrys = i / oneBlockDirentrys := by
        simp only [oneBlockDirentrys, RFS_BLKSIZE, PGSIZE, direntrySize] at *
        omega
      have hmod : (i + 1) % oneBlockDirentrys = i % oneBlockDirentrys + 1 := by
        simp only [oneBlockDirentrys, RFS_BLKSIZE, PGSIZE, direntrySize] at *
        omega
      have hfrom : (if i / oneBlockDirentrys = k / oneBlockDirentrys
          then k % oneBlockDirentrys else 0) ≤ i % oneBlockDirentrys := by
        split
        · rename_i heq
          simp only [oneBlockDirentrys, RFS_BLKSIZE, PGSIZE, direntrySize] at *
          omega
        · exact Nat.zero_le _
      rw [h.entry_of_lt hj hlt hrest, droppedBlock, entry_dropEntry_of_le hfrom hrest, hdiv, hmod]
    · -- the entry is the first one of the next block
      have hdiv : (i + 1) / oneBlockDirentrys = i / oneBlockDirentrys + 1 := by
        simp only [oneBlockDirentrys, RFS_BLKSIZE, PGSIZE, direntrySize] at *
        omega
      have hmod : (i + 1) % oneBlockDirentrys = 0 := by
        simp only [oneBlockDirentrys, RFS_BLKSIZE, PGSIZE, direntrySize] at *
        omega
      have hnext := hx.div_lt hi
      have hr127 : i % oneBlockDirentrys = 127 := by omega
      rw [hdiv] at hnext
      rw [h.inner _ hj hnext, hdiv, hmod, hr127, entry_fillLast_last]

/-- The entry list without the removed entry. -/
theorem dirList_eq {x' : Dinode} (h : Compacted d d' x k) (hx : IsWideDir x)
    (hk : k < x.size / direntrySize) (haddrs : x'.addrs = x.addrs)
    (hsize : x'.size = x.size - direntrySize) : dirList d' x' = (dirList d x).eraseIdx k := by
  have hcount : x'.size / direntrySize = x.size / direntrySize - 1 := by
    simp only [direntrySize] at *
    omega
  refine List.ext_getElem ?_ fun i hi hi' => ?_
  · rw [List.length_eraseIdx_of_lt (by simpa [dirList] using hk)]
    simpa [dirList] using hcount
  · have hlt : i + 1 < x.size / direntrySize := by
      simp only [dirList, List.length_map, List.length_range] at hi
      omega
    rw [List.getElem_eraseIdx]
    split
    · simp [dirList, haddrs, h.entryAt_eq hx hlt, ‹i < k›]
    · simp [dirList, haddrs, h.entryAt_eq hx hlt, ‹¬ i < k›]

end Compacted

/-- The last block has become empty by the removal of an entry, and it is not the only one. -/
def Emptied (x : Dinode) : Prop :=
  x.size - direntrySize ≤ RFS_BLKSIZE * (x.blocks - 1) ∧ 1 < x.blocks

instance (x : Dinode) : Decidable (Emptied x) := inferInstanceAs (Decidable (_ ∧ _))

/-- The inode of a directory after the removal of an entry. -/
def removedNode (x : Dinode) : Dinode :=
  { x with size := x.size - direntrySize, blocks := if Emptied x then x.blocks - 1 else x.blocks }

theorem IsWideDir.emptied_iff (h : IsWideDir x) (hk : k < x.size / direntrySize) :
    (x.size / direntrySize - 1) % oneBlockDirentrys = 0 ∧ 1 < x.blocks ↔ Emptied x := by
  have hblocks := h.blocks
  have hdvd := h.dvd
  rw [Emptied]
  refine and_congr_left fun hone => ?_
  rw [dirBlocks] at hblocks
  simp only [oneBlockDirentrys, RFS_BLKSIZE, PGSIZE, direntrySize] at *
  omega

theorem IsWideDir.removedNode (h : IsWideDir x) (hk : k < x.size / direntrySize) :
    IsWideDir (removedNode x) := by
  have hle : (Fs.removedNode x).blocks ≤ x.blocks := by
    rw [Fs.removedNode]
    split
    · exact Nat.sub_le _ _
    · exact Nat.le_refl _
  refine ⟨Nat.dvd_sub h.dvd (dvd_refl _), ?_, hle.trans h.blocks_le,
    fun i hi => h.data i (hi.trans_le hle),
    fun i hi j hj => h.distinct i (hi.trans_le hle) j (hj.trans_le hle)⟩
  have hblocks := h.blocks
  have hdvd := h.dvd
  rw [Fs.removedNode]
  dsimp only
  rw [dirBlocks] at hblocks ⊢
  split
  · rename_i he
    rw [Emptied] at he
    simp only [RFS_BLKSIZE, PGSIZE, direntrySize] at *
    omega
  · rename_i he
    rw [Emptied] at he
    simp only [RFS_BLKSIZE, PGSIZE, direntrySize] at *
    omega

/-- The loop, and the last block written behind it, compact the directory. -/
theorem Compacted.of_shift {d₁ : Disk} {tail : Buf} (hx : IsWideDir x)
    (hlt : k / oneBlockDirentrys < x.blocks)
    (hfill : ∀ j, k / oneBlockDirentrys + 1 ≤ j + 1 → j + 1 < x.blocks → d₁ (x.addrs j) =
      fillLast (if j + 1 = k / oneBlockDirentrys + 1 then
          dropEntry (d (x.addrs (k / oneBlockDirentrys))) (k % oneBlockDirentrys)
        else dropEntry (d (x.addrs j)) 0) (d (x.addrs (j + 1))))
    (hrest : ∀ b, (∀ j, k / oneBlockDirentrys + 1 ≤ j + 1 → j + 1 < x.blocks → b ≠ x.addrs j) →
      d₁ b = d b)
    (htail : tail = droppedBlock d x k (x.blocks - 1)) :
    Compacted d (Function.update d₁ (x.addrs (x.blocks - 1)) tail) x k := by
  have hne : ∀ j, j < x.blocks → j ≠ x.blocks - 1 → x.addrs j ≠ x.addrs (x.blocks - 1) :=
    fun j hj hj' heq => hj' (hx.distinct j hj _ (by omega) heq)
  refine ⟨fun j hj hj' => ?_, fun j hj hj' => ?_, ?_, fun b hb => ?_⟩
  · rw [Function.update_of_ne (hne j hj' (by omega)), hrest]
    intro j' hj₁ hj₂ heq
    have := hx.distinct j hj' j' (by omega) heq
    omega
  · rw [Function.update_of_ne (hne j (by omega) (by omega)), hfill j (Nat.succ_le_succ hj) hj',
      droppedBlock]
    by_cases hjk : j = k / oneBlockDirentrys
    · rw [if_pos (show j + 1 = k / oneBlockDirentrys + 1 by omega), if_pos hjk, hjk]
    · rw [if_neg (show ¬ j + 1 = k / oneBlockDirentrys + 1 by omega), if_neg hjk]
  · rw [Function.update_self, htail]
  · rw [Function.update_of_ne (hb (x.blocks - 1) (Nat.sub_lt hx.pos Nat.one_pos)),
      hrest b fun j _ hj => hb j (by omega)]

/-- The second half of `rfs_unlink`. -/
theorem removeDirentry_wide (hv : s.vinodes v = some y) (hy : IsWideDir y.toDinode)
    (hk : k < y.size / direntrySize) (hinum : y.inum < ninodes) :
    ∃ d' buf, Compacted s.disk d' y.toDinode k ∧
      removeDirentry s v k = .ok (0,
        { s with
          disk := d'.setDinode y.inum (removedNode y.toDinode)
          iobuffer := buf
          freemap := if Emptied y.toDinode then
            Function.update s.freemap (y.addrs (y.blocks - 1) - RFS_BLK_OFFSET_FREE) 0
            else s.freemap
          vinodes := Function.update s.vinodes v
            (some { y with toDinode := removedNode y.toDinode }) }) := by
  have hlt : k / oneBlockDirentrys < y.blocks := hy.div_lt hk
  have hpos := hy.pos
  have hlast := hy.data (y.blocks - 1) (by omega)
  set prev : Buf := dropEntry (s.disk (y.addrs (k / oneBlockDirentrys)))
    (k % oneBlockDirentrys) with hprev
  obtain ⟨d₁, buf₁, hrun, hfill, hrest⟩ := shiftLoop_eq prev
    (s := { s with iobuffer := s.disk (y.addrs (k / oneBlockDirentrys)) }) hy
    (Nat.succ_pos (k / oneBlockDirentrys)) (n := y.blocks - (k / oneBlockDirentrys + 1)) (by omega)
  have hend : k / oneBlockDirentrys + 1 + (y.blocks - (k / oneBlockDirentrys + 1)) = y.blocks := by
    omega
  rw [hend] at hfill hrest
  set tail : Buf := if y.blocks - (k / oneBlockDirentrys + 1) = 0 then prev
    else dropEntry (s.disk (y.addrs (k / oneBlockDirentrys + 1 +
      (y.blocks - (k / oneBlockDirentrys + 1)) - 1))) 0 with htail
  have htail' : tail = droppedBlock s.disk y.toDinode k (y.blocks - 1) := by
    rw [htail, droppedBlock, hend]
    by_cases hn : y.blocks - (k / oneBlockDirentrys + 1) = 0
    · have hBlast : y.blocks - 1 = k / oneBlockDirentrys := by omega
      rw [if_pos hn, if_pos hBlast, hBlast]
    · rw [if_neg hn, if_neg (by omega)]
  have hcompact := Compacted.of_shift hy hlt hfill hrest htail'
  set d₂ : Disk := Function.update d₁ (y.addrs (y.blocks - 1)) tail with hd₂
  set fm : ℕ → ℕ := if Emptied y.toDinode then
    Function.update s.freemap (y.addrs (y.blocks - 1) - RFS_BLK_OFFSET_FREE) 0
    else s.freemap with hfm
  set s₂ : State := { s with
    disk := d₂
    iobuffer := tail
    freemap := fm
    vinodes := Function.update s.vinodes v
      (some { y with toDinode := removedNode y.toDinode }) } with hs₂
  obtain ⟨buf, hwrite⟩ := rfsWriteBackVinode_eq (s := s₂)
    (show s₂.vinodes v = some { y with toDinode := removedNode y.toDinode } from
      Function.update_self _ _ _) hinum
  refine ⟨d₂, buf, hcompact, ?_⟩
  have hfree : freeEmptyBlock { s with disk := d₂, iobuffer := tail } y.toDinode
      (y.size / direntrySize - 1) (y.addrs (y.blocks - 1)) =
      .ok ((removedNode y.toDinode).blocks,
        { s with disk := d₂, iobuffer := tail, freemap := fm }) := by
    rw [freeEmptyBlock, hfm, removedNode]
    by_cases he : Emptied y.toDinode
    · rw [if_pos ((hy.emptied_iff hk).2 he), rfsFreeBlock_eq hlast.1 (hlast.2.trans (by decide)),
        ok_bind]
      simp only [he, if_true]
      rfl
    · rw [if_neg (mt (hy.emptied_iff hk).1 he)]
      simp only [he, if_false]
      rfl
  unfold removeDirentry
  rw [State.vinode_eq_ok.2 hv, ok_bind]
  dsimp only
  rw [hy.addr hlt, ok_bind, rfsR1block_eq (hy.data _ hlt).lt_count, ok_bind, hrun, ok_bind]
  dsimp only
  rw [if_neg hpos.ne', hy.addr (by omega), ok_bind, rfsW1block_eq hlast.lt_count, ok_bind]
  rw [show freeEmptyBlock _ y.toDinode _ _ = _ from hfree, ok_bind]
  change rfsWriteBackVinode s₂ v >>= _ = _
  rw [hwrite]
  rfl

/-! ## `rfs_unlink` -/

/-- The vinode `u` with the value `z` is one of the inode `inum`: the link counts agree, as
`rfs_unlink` asserts, and the inode has data blocks when it is freed with its last link. -/
structure LinkedTo (s : State) (inum u : ℕ) (z : Vinode) : Prop where
  vinode : s.vinodes u = some z
  lt : inum < ninodes
  nlinks : z.nlinks = (s.disk.dinode inum).nlinks
  blocks_le : z.nlinks = 1 → (s.disk.dinode inum).blocks ≤ RFS_DIRECT_BLKNUM
  data : z.nlinks = 1 → ∀ b ∈ (s.disk.dinode inum).blks, IsData b

/-- The blocks that are freed with the last link of an inode. -/
def FreedWith (s : State) (inum b : ℕ) : Prop :=
  (s.disk.dinode inum).nlinks = 1 ∧ b ∈ (s.disk.dinode inum).blks

instance (s : State) (inum b : ℕ) : Decidable (FreedWith s inum b) :=
  inferInstanceAs (Decidable (_ ∧ _))

/-- A link that is not the last one, whatever the count is. -/
theorem dropLink_kept (hv : s.vinodes u = some z) (hi : inum < ninodes)
    (hn : z.nlinks = (s.disk.dinode inum).nlinks) (hne : z.nlinks ≠ 1) :
    ∃ m buf, dropLink s inum u = .ok
      { s with
        disk := s.disk.setDinode inum { s.disk.dinode inum with nlinks := m }
        iobuffer := buf
        vinodes := Function.update s.vinodes u (some { z with nlinks := m }) } := by
  have hv' : State.vinode { s with iobuffer := s.disk (dinodeBlock inum) } u = .ok z :=
    State.vinode_eq_ok.2 hv
  have hlt : z.nlinks < 2 ^ 32 := hn ▸ (s.disk.fits_dinode inum).nlinks
  have hpos : (z.nlinks + (2 ^ 32 - 1)) % 2 ^ 32 ≠ 0 := by omega
  refine ⟨(z.nlinks + (2 ^ 32 - 1)) % 2 ^ 32, ?_⟩
  unfold dropLink
  simp only [rfsReadDinode_eq hi, ok_bind, hv', ← hn, ne_eq, not_true_eq_false, if_false, hpos,
    State.setVinode]
  exact rfsWriteDinode_eq hi

/-- The first half of `rfs_unlink`. -/
theorem dropLink_linked (h : LinkedTo s inum u z) :
    ∃ z' x buf, dropLink s inum u = .ok
      { s with
        disk := s.disk.setDinode inum x
        freemap := fun k => if FreedWith s inum (RFS_BLK_OFFSET_FREE + k) then 0 else s.freemap k
        iobuffer := buf
        vinodes := Function.update s.vinodes u (some z') } := by
  by_cases hone : z.nlinks = 1
  · obtain ⟨buf, hdrop⟩ := dropLink_last h.vinode h.lt hone (h.nlinks ▸ hone) (h.blocks_le hone)
      (h.data hone)
    have hfreed : ∀ k, FreedWith s inum (RFS_BLK_OFFSET_FREE + k) ↔
        RFS_BLK_OFFSET_FREE + k ∈ (s.disk.dinode inum).blks := fun k =>
      and_iff_right (h.nlinks.symm.trans hone)
    refine ⟨{ z with nlinks := 0 }, { s.disk.dinode inum with nlinks := 0, type := R_FREE }, buf,
      ?_⟩
    simp only [hfreed]
    exact hdrop
  · have hfreed : ∀ k, ¬ FreedWith s inum (RFS_BLK_OFFSET_FREE + k) := fun k hf =>
      hone (h.nlinks.trans hf.1)
    obtain ⟨m, buf, hdrop⟩ := dropLink_kept h.vinode h.lt h.nlinks hone
    refine ⟨{ z with nlinks := m }, { s.disk.dinode inum with nlinks := m }, buf, ?_⟩
    simp only [hfreed, if_false]
    exact hdrop

/-- The blocks that `rfs_unlink` frees: those of an inode without a link left, and the last block of
the directory when it has become empty and is not the only one. -/
def FreedBlock (s : State) (y : Vinode) (inum b : ℕ) : Prop :=
  FreedWith s inum b ∨ Emptied y.toDinode ∧ b = y.addrs (y.blocks - 1)

instance (s : State) (y : Vinode) (inum b : ℕ) : Decidable (FreedBlock s y inum b) :=
  inferInstanceAs (Decidable (_ ∨ _))

/-- The bitmap after both halves of `rfs_unlink`. -/
theorem freemap_eq (hy : IsWideDir y.toDinode) (k : ℕ) :
    (if Emptied y.toDinode then
      Function.update
        (fun k => if FreedWith s inum (RFS_BLK_OFFSET_FREE + k) then 0 else s.freemap k)
        (y.addrs (y.blocks - 1) - RFS_BLK_OFFSET_FREE) 0
      else fun k => if FreedWith s inum (RFS_BLK_OFFSET_FREE + k) then 0 else s.freemap k) k =
      if FreedBlock s y inum (RFS_BLK_OFFSET_FREE + k) then 0 else s.freemap k := by
  have hlast := (hy.data (y.blocks - 1) (Nat.sub_lt hy.pos Nat.one_pos)).1
  by_cases he : Emptied y.toDinode
  · rw [if_pos he]
    by_cases hk : k = y.addrs (y.blocks - 1) - RFS_BLK_OFFSET_FREE
    · have hb : RFS_BLK_OFFSET_FREE + k = y.addrs (y.blocks - 1) := by omega
      rw [if_pos (.inr ⟨he, hb⟩), hk, Function.update_self]
    · have hb : RFS_BLK_OFFSET_FREE + k ≠ y.addrs (y.blocks - 1) := by omega
      rw [Function.update_of_ne hk]
      simp only [FreedBlock, hb, and_false, or_false]
  · rw [if_neg he]
    simp only [FreedBlock, he, false_and, or_false]

/-- **Removing an entry compacts a directory of several blocks.** The first entry with the name goes
and the others keep their order, the size and the number of blocks fit the entries left, and the
last block is freed if it has become empty and is not the only one. A name that does not occur
changes nothing. -/
theorem unlink_compacts (hv : s.vinodes v = some y) (hy : IsWideDir y.toDinode)
    (hinum : y.inum < ninodes) (hname : name.Valid) :
    (∀ inum u z, dirFind (dirList s.disk y.toDinode) name = some inum → LinkedTo s inum u z →
      u ≠ v → ∃ s' y', rfsUnlink s v name u = .ok (0, s') ∧ s'.vinodes v = some y' ∧
        dirList s'.disk y'.toDinode = dirErase (dirList s.disk y.toDinode) name ∧
        y'.size + direntrySize = y.size ∧ IsWideDir y'.toDinode ∧
        ∀ k, s'.freemap k =
          if FreedBlock s y inum (RFS_BLK_OFFSET_FREE + k) then 0 else s.freemap k) ∧
    (∀ u, dirFind (dirList s.disk y.toDinode) name = none → dirList s.disk y.toDinode ≠ [] →
      ∃ buf, rfsUnlink s v name u = .ok (-1, { s with iobuffer := buf })) := by
  refine ⟨fun inum u z hf hl hne => ?_,
    fun u hf hnil => rfsUnlink_missing hv hname hy.readable hnil hf⟩
  obtain ⟨buf, k, hk, herase, hrun⟩ := rfsUnlink_found (w := u) hv hname hy.readable hf
  have hl' : LinkedTo { s with iobuffer := buf } inum u z :=
    ⟨hl.vinode, hl.lt, hl.nlinks, hl.blocks_le, hl.data⟩
  obtain ⟨z', x', buf', hdrop⟩ := dropLink_linked hl'
  obtain ⟨d', buf₂, hcompact, hremove⟩ := removeDirentry_wide (v := v) (y := y)
    (s := { s with
      disk := s.disk.setDinode inum x'
      freemap := fun k => if FreedWith s inum (RFS_BLK_OFFSET_FREE + k) then 0 else s.freemap k
      iobuffer := buf'
      vinodes := Function.update s.vinodes u (some z') })
    ((Function.update_of_ne hne.symm _ _).trans hv) hy hk hinum
  have hsize : direntrySize ≤ y.size := by
    have hpos : 0 < y.size / direntrySize := (Nat.zero_le k).trans_lt hk
    exact (Nat.div_pos_iff.1 hpos).2
  refine ⟨_, _, hrun.trans ((congrArg (· >>= fun s => removeDirentry s v k) hdrop).trans hremove),
    Function.update_self _ _ _, ?_, Nat.sub_add_cancel hsize, hy.removedNode hk, freemap_eq hy⟩
  calc dirList (d'.setDinode y.inum (removedNode y.toDinode)) (removedNode y.toDinode)
      = dirList d' (removedNode y.toDinode) := (hy.removedNode hk).dirList_setDinode hinum
    _ = (dirList (s.disk.setDinode inum x') y.toDinode).eraseIdx k :=
        hcompact.dirList_eq hy hk rfl rfl
    _ = (dirList s.disk y.toDinode).eraseIdx k := by rw [hy.dirList_setDinode hl.lt]
    _ = dirErase (dirList s.disk y.toDinode) name := herase

/-- A directory with 129 entries in the blocks 12 and 13. -/
def twoBlocksDir : Vinode where
  size := 32 * 129
  type := R_DIR
  nlinks := 1
  blocks := 2
  addrs := fun i => 12 + i
  inum := 0
  ref := 1
  iFsInfo := none
  sb := .rfs

/-- An empty file with one link, at the inode 1. -/
def linkedFile : Vinode where
  size := 0
  type := R_FILE
  nlinks := 1
  blocks := 0
  addrs := fun _ => 0
  inum := 1
  ref := 1
  iFsInfo := none
  sb := .rfs

/-- The file "a" is the first entry of the directory. -/
def twoBlocks : State where
  disk := Disk.setDinode
    (Function.update (fun _ _ => 0) 12 (putEntry (fun _ => 0) (32 * 0) [97] 1)) 1
    linkedFile.toDinode
  iobuffer := fun _ => 0
  pages := 2
  pageAddr := id
  sb := { magic := RFS_MAGIC, size := 112, nblocks := 100, ninodes := 320, sRoot := 0 }
  freemap := fun k => if k < 2 then 1 else 0
  vfsRootDentry := 0
  dentries := fun _ => none
  vinodes := fun v => if v = 0 then some twoBlocksDir else if v = 1 then some linkedFile else none
  files := ∅
  dentryHashTable := ∅
  vinodeHashTable := ∅

theorem twoBlocksDir_wide : IsWideDir twoBlocksDir.toDinode where
  dvd := by decide
  blocks := by decide
  blocks_le := by decide
  data := by
    simp only [IsData]
    decide
  distinct := by decide

theorem twoBlocks_linked : LinkedTo twoBlocks 1 1 linkedFile := by
  have hfile : twoBlocks.disk.dinode 1 = linkedFile.toDinode :=
    Disk.dinode_setDinode ⟨by decide, by decide, by decide, by decide, by simp [linkedFile],
      by simp [linkedFile]⟩
  refine ⟨rfl, by decide, ?_, fun _ => ?_, fun _ b hb => ?_⟩
  · rw [hfile]
  · rw [hfile]
    decide
  · rw [hfile] at hb
    exact absurd hb List.not_mem_nil

theorem unlink_compacts_twoBlocks :
    ∃ s' y', rfsUnlink twoBlocks 0 [97] 1 = .ok (0, s') ∧ s'.vinodes 0 = some y' ∧
      dirList s'.disk y'.toDinode = dirErase (dirList twoBlocks.disk twoBlocksDir.toDinode) [97] ∧
      y'.blocks = 1 ∧ s'.freemap 1 = 0 := by
  have hfirst : entryAt twoBlocks.disk twoBlocksDir.addrs 0 = ([97], 1) := by
    have hblock : twoBlocks.disk 12 = putEntry (fun _ => 0) (32 * 0) [97] 1 := by
      unfold twoBlocks
      dsimp only
      rw [Disk.setDinode_apply (by decide) (by decide), Function.update_self]
    exact (congrArg (fun b => entry b 0) hblock).trans
      (entry_putEntry_self ⟨by decide, by decide⟩ (by decide))
  have hfind : dirFind (dirList twoBlocks.disk twoBlocksDir.toDinode) [97] = some 1 := by
    have hcount : twoBlocksDir.size / direntrySize = 128 + 1 := rfl
    rw [dirList, hcount, List.range_succ_eq_map, List.map_cons, hfirst]
    rfl
  obtain ⟨s', y', hrun, hy', hlist, hsize, hwide, hmap⟩ :=
    (unlink_compacts (s := twoBlocks) (v := 0) rfl twoBlocksDir_wide (by decide)
      ⟨by decide, by decide⟩).1 1 1 linkedFile hfind twoBlocks_linked (by decide)
  refine ⟨s', y', hrun, hy', hlist, ?_, ?_⟩
  · have hsz : y'.size = 32 * 128 := Nat.add_right_cancel hsize
    rw [hwide.blocks, hsz]
    rfl
  · rw [hmap, if_pos (.inr (by decide))]

end HustOS.Fs
