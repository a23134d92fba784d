import HustOS.Fs.Compaction
import HustOS.Fs.Create
import HustOS.Fs.Directory
import HustOS.Fs.Frame

/-!
# How far a directory grows

`rfs_add_direntry` takes the block of a new entry from the size of the directory, but no block is
ever allocated for one: a directory keeps the block it was made with. A sequence of additions
(`Additions`) makes the directory longer by an entry each time, whatever its blocks are. Its entries
lie in blocks of its own (`Spread`) exactly as long as there are at most 128 of them
(`directory_grows_iff`); the 129th is written to the block that `addrs[1]` happens to name.
-/

namespace HustOS.Fs

open Foundations

variable {s s' s₀ : State} {vd d b i j k n v w : ℕ} {y y₀ z : Vinode} {x : Dinode} {name : Name}
  {l l₀ : List (Name × ℕ)} {op : DirOp} {r : DirRet} {tr : List (DirOp × DirRet)}

/-! ## Additions -/

/-- A sequence of additions to the directory with the vinode `vd`, with what each returned. -/
inductive Additions (vd : ℕ) (s₀ : State) : List (DirOp × DirRet) → State → Prop
  | start : Additions vd s₀ [] s₀
  | step {tr : List (DirOp × DirRet)} {s s' : State} {op : DirOp} {r : DirRet}
      (run : Additions vd s₀ tr s) (adds : op.Adds) (name : op.name.Valid) (node : op.NodeOk s)
      (exec : op.exec vd s = .ok (r, s')) : Additions vd s₀ (tr ++ [(op, r)]) s'

/-- No function of RFS gives pages back. -/
theorem pagesFrame (n : ℕ) : Frame n fun s => n ≤ s.pages where
  pages h := h
  other h _ _ hp := h.trans hp
  fresh _ h _ := h
  member h _ _ _ _ := h
  free h _ _ _ := h

/-- The inode number of a vinode is read without changing the state. -/
theorem inumOf_sat {P : State → Prop} {q : Option ℕ × State} (h : P q.2) :
    Sat (inumOf q) (fun a => P a.2) fun _ => True := by
  rcases q with ⟨_ | v, s⟩
  · exact h
  · exact Sat.bind (sat_true _ fun _ => trivial) fun x (_ : True) => h

/-- **An addition makes the directory longer by an entry** and leaves its blocks as they are. -/
theorem DirOp.exec_grows (hv : s.vinodes vd = some y) (hy : y.type = DIR_I) (hi : y.inum < ninodes)
    (hpage : vd < s.pages) (ha : op.Adds) (hw : op.NodeOk s) :
    Sat (op.exec vd s)
      (fun r => r.2.vinodes vd = some { y with size := y.size + 32 } ∧ vd < r.2.pages)
      fun _ => True := by
  have F := pagesFrame (vd + 1)
  cases op with
  | create n =>
    refine Sat.bind ((F.rfs.rfsCreate hpage vd n).and (rfsCreate_keeps hv hy hi hpage.ne))
      fun a h => ?_
    exact inumOf_sat
      (P := fun t => t.vinodes vd = some { y with size := y.size + 32 } ∧ vd < t.pages)
      ⟨h.2.2.1, h.1⟩
  | mkdir n =>
    refine Sat.bind ((F.rfs.rfsMkdir hpage vd n).and (rfsMkdir_keeps hv hy hi hpage.ne))
      fun a h => ?_
    exact inumOf_sat
      (P := fun t => t.vinodes vd = some { y with size := y.size + 32 } ∧ vd < t.pages)
      ⟨h.2.2.1, h.1⟩
  | link n w inum =>
    obtain ⟨x, hx, hxt, rfl, hxi⟩ := hw
    have hne : vd ≠ w := by
      rintro rfl
      rw [hv] at hx
      cases hx
      exact absurd (hy.symm.trans hxt) (by decide)
    exact Sat.bind ((F.rfs.rfsLink hpage vd n w).and (rfsLink_keeps hv hy hi hx hxi hne))
      fun a h => ⟨h.2.1, h.1⟩
  | unlink n w => exact ha.elim
  | lookup n => exact ha.elim

/-- After any additions. -/
theorem Additions.grows (run : Additions vd s₀ tr s) (hv : s₀.vinodes vd = some y)
    (hy : y.type = DIR_I) (hi : y.inum < ninodes) (hpage : vd < s₀.pages) :
    s.vinodes vd = some { y with size := y.size + 32 * tr.length } ∧ vd < s.pages := by
  induction run with
  | start => exact ⟨hv, hpage⟩
  | step run adds name node exec ih =>
    have hsat := DirOp.exec_grows ih.1 hy hi ih.2 adds node
    rw [exec] at hsat
    rw [List.length_append, List.length_singleton, Nat.mul_succ, ← Nat.add_assoc]
    exact hsat

/-! ## The block of the directory -/

/-- The inode `d` alone has the block `b`, on the disk and in memory, and the bitmap has it in
use. -/
structure SoleOwner (s : State) (d b : ℕ) : Prop where
  used : s.freemap (b - RFS_BLK_OFFSET_FREE) ≠ 0
  disk : ∀ j < ninodes, j ≠ d → (s.disk.dinode j).type ≠ R_FREE → b ∉ (s.disk.dinode j).blks
  vinodes : ∀ w z, s.vinodes w = some z → z.inum ≠ d → b ∉ z.blks

/-- The block counts and addresses of the vinodes are 32-bit words. -/
def State.Words (s : State) : Prop :=
  ∀ w z, s.vinodes w = some z → z.blocks < 2 ^ 32 ∧ ∀ i, z.addrs i < 2 ^ 32

/-- A creation in the directory takes a block that is not in use for the new inode. -/
theorem SoleOwner.made {buf : Buf} {z : Dinode} (ho : SoleOwner s y.inum (y.addrs 0))
    (hd : IsData (y.addrs 0)) (hfresh : Fresh s i k) (hx : x.Fits) (hxb : y.addrs 0 ∉ x.blks)
    (hz : i ≠ y.inum → z = x) :
    SoleOwner (madeState s vd y name i k x z buf) y.inum (y.addrs 0) where
  used := by
    refine (Function.update_of_ne ?_ _ _).trans_ne ho.used
    rintro heq
    exact ho.used (heq ▸ hfresh.unused)
  disk j hj hne := by
    have hnode : (madeDisk s.disk y name i x).dinode j = (s.disk.setDinode i x).dinode j := by
      rw [madeDisk, Disk.dinode_setDinode_of_ne hne, Disk.dinode_update hj]
      exact (by decide : RFS_BLK_OFFSET_BITMAP ≤ RFS_BLK_OFFSET_FREE).trans hd.1
    change (Disk.dinode (madeDisk _ _ _ _ _) j).type ≠ R_FREE →
      _ ∉ (Disk.dinode (madeDisk _ _ _ _ _) j).blks
    rw [hnode]
    rcases eq_or_ne j i with rfl | hji
    · rw [Disk.dinode_setDinode hx]
      exact fun _ => hxb
    · rw [Disk.dinode_setDinode_of_ne hji]
      exact ho.disk j hj hne
  vinodes w t ht hne := by
    simp only [madeState, Function.update_apply] at ht
    split at ht
    · cases ht
      exact absurd rfl hne
    · split at ht
      · cases ht
        rw [show (newVinode z i).blks = z.blks from rfl, hz hne]
        exact hxb
      · exact ho.vinodes w t ht hne

theorem State.Words.made {buf : Buf} {z : Dinode} (h : s.Words) (hv : s.vinodes vd = some y)
    (hz : z.Fits) : (madeState s vd y name i k x z buf).Words := by
  intro w t ht
  simp only [madeState, Function.update_apply] at ht
  split at ht
  · cases ht
    exact h vd y hv
  · split at ht
    · cases ht
      exact ⟨hz.blocks, hz.addrs⟩
    · exact h w t ht

/-- A link writes the inode of the linked file, with the blocks it has in memory. -/
theorem DirOp.link_sole (h : DirHolds s vd y l) (hn : name.Valid)
    (hw : (DirOp.link name w i).NodeOk s) (hroom : l.length < 128)
    (ho : SoleOwner s y.inum (y.addrs 0)) (hwords : s.Words) :
    Sat ((DirOp.link name w i).exec vd s)
      (fun r => SoleOwner r.2 y.inum (y.addrs 0) ∧ r.2.Words) fun _ => True := by
  obtain ⟨z, hz, hzt, rfl, hzi⟩ := hw
  have hne : vd ≠ w := by
    rintro rfl
    rw [h.vinode] at hz
    cases hz
    exact absurd (h.dir.type.symm.trans hzt) (by decide)
  have hsize := h.size_eq
  obtain ⟨buf, hr⟩ := rfsLink_eq h.vinode hn h.dir (by omega) h.inum_lt hz hzi hne
  have hzero : y.addrs 0 ≠ 0 :=
    Nat.ne_of_gt ((by decide : 0 < RFS_BLK_OFFSET_FREE).trans_le h.dir.data.1)
  rw [DirOp.exec, hr, ok_bind]
  refine ⟨⟨ho.used, fun j hj hjne ht => ?_, fun u t ht htne => ?_⟩, fun u t ht => ?_⟩
  · -- the inode of the file has the blocks of its vinode, the others are as before
    dsimp only at ht ⊢
    rcases eq_or_ne j z.inum with rfl | hjz
    · have hwz := hwords w z hz
      exact fun hb => ho.vinodes w z hz hjne
        (mem_blks_putDinode (x := { z.toDinode with nlinks := z.nlinks + 1 }) hwz.1 hwz.2 hzero
          (by rwa [Disk.dinode, Disk.setDinode, Function.update_self] at hb))
    · rw [Disk.dinode_setDinode_of_ne hjz, Disk.dinode_setDinode_of_ne hjne, Disk.dinode_update hj
        ((by decide : RFS_BLK_OFFSET_BITMAP ≤ RFS_BLK_OFFSET_FREE).trans h.dir.data.1)] at ht ⊢
      exact ho.disk j hj hjne ht
  · simp only [Function.update_apply] at ht
    split at ht
    · cases ht
      exact absurd rfl htne
    · split at ht
      · cases ht
        exact ho.vinodes w z hz htne
      · exact ho.vinodes u t ht htne
  · simp only [Function.update_apply] at ht
    split at ht
    · cases ht
      exact hwords vd y h.vinode
    · split at ht
      · cases ht
        exact hwords w z hz
      · exact hwords u t ht

theorem Fresh.fits_madeNode {t b : ℕ} (h : Fresh s i k) (hsb : s.sb.nblocks = dataBlocks)
    (ht : t < 2 ^ 32) (hb : b < 2 ^ 32) : (madeNode t b (s.disk.dinode i) (12 + k)).Fits := by
  have hk := hsb ▸ h.block_lt
  refine Fs.fits_madeNode (s.disk.fits_dinode i) ht hb ?_
  simp only [dataBlocks, RFS_MAX_INODE_BLKNUM, RFS_DIRECT_BLKNUM] at hk
  omega

/-- **An addition to a directory that is not full** leaves the directory its block. -/
theorem DirOp.exec_sole (h : DirHolds s vd y l) (hn : op.name.Valid) (hw : op.NodeOk s)
    (ha : op.Adds) (hroom : l.length < 128) (ho : SoleOwner s y.inum (y.addrs 0))
    (hwords : s.Words) :
    Sat (op.exec vd s) (fun r => SoleOwner r.2 y.inum (y.addrs 0) ∧ r.2.Words) fun _ => True := by
  have hsize := h.size_eq
  cases op with
  | create n =>
    refine Sat.bind ((rfsCreate_sat h.vinode hn h.dir (by omega) h.inum_lt h.page.ne h.sb).mono'
      fun _ _ => trivial) ?_
    rintro _ ⟨i, k, buf, hfresh, x, rfl, rfl⟩
    have hx := hfresh.fits_madeNode h.sb (t := R_FILE) (b := 0) (by decide) (by decide)
    exact inumOf_sat (P := fun t => SoleOwner t y.inum (y.addrs 0) ∧ t.Words)
      ⟨ho.made h.dir.data hfresh hx List.not_mem_nil fun _ => rfl, hwords.made h.vinode hx⟩
  | mkdir n =>
    refine Sat.bind ((rfsMkdir_sat h.vinode hn h.dir (by omega) h.inum_lt h.page.ne).mono'
      fun _ _ => trivial) ?_
    rintro _ ⟨i, k, buf, hfresh, x, rfl, rfl⟩
    have hx := hfresh.fits_madeNode h.sb (t := R_DIR) (b := 1) (by decide) (by decide)
    refine Sat.mono' (inumOf_sat (P := fun t => SoleOwner t y.inum (y.addrs 0) ∧ t.Words)
      ⟨ho.made h.dir.data hfresh hx ?_ fun hi => ?_,
        hwords.made h.vinode (Disk.fits_dinode _ i)⟩) fun _ _ => trivial
    · intro hb
      obtain ⟨m, hm, haddr⟩ := Dinode.mem_blks.1 hb
      obtain rfl : m = 0 := Nat.lt_one_iff.1 hm
      have hk : y.addrs 0 - RFS_BLK_OFFSET_FREE = k := by
        rw [← haddr]
        exact Nat.add_sub_cancel_left 12 k
      exact ho.used (hk ▸ hfresh.unused)
    · rw [madeDisk, Disk.dinode_setDinode_of_ne hi, Disk.dinode_update hfresh.inum_lt
        ((by decide : RFS_BLK_OFFSET_BITMAP ≤ RFS_BLK_OFFSET_FREE).trans h.dir.data.1),
        Disk.dinode_setDinode hx]
  | link n w i => exact DirOp.link_sole h hn hw hroom ho hwords
  | unlink n w => exact ha.elim
  | lookup n => exact ha.elim

/-! ## Entries in blocks of the directory -/

/-- The number of blocks that `size` bytes take. -/
def spannedBlocks (size : ℕ) : ℕ := (size + RFS_BLKSIZE - 1) / RFS_BLKSIZE

/-- The directory with the vinode `vd` has a data block of its own for each part of its entries `l`,
and a lookup finds the entries. -/
structure Spread (s : State) (vd : ℕ) (y : Vinode) (l : List (Name × ℕ)) : Prop where
  vinode : s.vinodes vd = some y
  blocks : spannedBlocks y.size ≤ y.blocks
  data : ∀ i < spannedBlocks y.size, IsData (y.addrs i)
  sole : ∀ i < spannedBlocks y.size, SoleOwner s y.inum (y.addrs i)
  finds : ∀ e ∈ l, dirFind l e.1 = some e.2 →
    ∃ s', (DirOp.lookup e.1).exec vd s = .ok (.node (some e.2), s')

theorem DirHolds.spread (h : DirHolds s vd y l) (hl : ∀ e ∈ l, e.1.Valid)
    (ho : SoleOwner s y.inum (y.addrs 0)) : Spread s vd y l := by
  have hle := h.dir.size_le
  have hspan : ∀ i < spannedBlocks y.size, i = 0 := by
    intro i hi
    simp only [spannedBlocks, RFS_BLKSIZE, PGSIZE] at hi
    omega
  refine ⟨h.vinode, ?_, fun i hi => ?_, fun i hi => ?_, fun e he hf => ?_⟩
  · rw [h.dir.blocks]
    simp only [spannedBlocks, RFS_BLKSIZE, PGSIZE]
    omega
  · rw [hspan i hi]
    exact h.dir.data
  · rw [hspan i hi]
    exact ho
  · have hsat := lookup_sat ⟨y, h⟩ (hl e he)
    cases hr : (DirOp.lookup e.1).exec vd s with
    | error f => rw [hr] at hsat; exact hsat.elim
    | ok a =>
      rw [hr] at hsat
      exact ⟨a.2, congrArg Except.ok (Prod.ext (hsat.1.1.trans (by rw [hf])) rfl)⟩

theorem DirOp.Spec.of_adds {l' : List (Name × ℕ)} (h : op.Spec l r l') (ha : op.Adds) :
    ∃ i, l' = l ++ [(op.name, i)] := by
  cases op with
  | create n => exact ⟨h.choose, h.choose_spec.2⟩
  | mkdir n => exact ⟨h.choose, h.choose_spec.2⟩
  | link n w i => exact ⟨i, h.2⟩
  | unlink n w => exact ha.elim
  | lookup n => exact ha.elim

/-- What additions keep as long as the block of the directory has room. -/
structure OwnsBlock (s : State) (vd : ℕ) (y : Vinode) (l : List (Name × ℕ)) : Prop where
  holds : DirHolds s vd y l
  names : ∀ e ∈ l, e.1.Valid
  sole : SoleOwner s y.inum (y.addrs 0)
  words : s.Words

/-- One addition. -/
theorem OwnsBlock.step (h : OwnsBlock s vd y l) (ha : op.Adds) (hn : op.name.Valid)
    (hw : op.NodeOk s)
    (hroom : l.length < 128) (he : op.exec vd s = .ok (r, s')) :
    ∃ i, op.Spec l r (l ++ [(op.name, i)]) ∧
      OwnsBlock s' vd { y with size := y.size + 32 } (l ++ [(op.name, i)]) := by
  have hsat := DirOp.sat ⟨y, h.holds⟩ hn hw fun _ => hroom
  have hgrows := DirOp.exec_grows h.holds.vinode h.holds.dir.type h.holds.inum_lt h.holds.page ha hw
  have hsole := DirOp.exec_sole h.holds hn hw ha hroom h.sole h.words
  rw [he] at hsat hgrows hsole
  obtain ⟨l', hspec, y', hy'⟩ := hsat
  obtain rfl : y' = { y with size := y.size + 32 } :=
    Option.some.inj (hy'.vinode.symm.trans hgrows.1)
  obtain ⟨i, rfl⟩ := hspec.of_adds ha
  refine ⟨i, hspec, hy', fun e he => ?_, hsole.1, hsole.2⟩
  rcases List.mem_append.1 he with he | he
  · exact h.names e he
  · rw [List.mem_singleton.1 he]
    exact hn

/-- A sequence of additions. -/
theorem OwnsBlock.run (h : OwnsBlock s₀ vd y₀ l₀) (run : Additions vd s₀ tr s)
    (hroom : l₀.length + tr.length ≤ 128) :
    ∃ y l, ListRun l₀ tr l ∧ l.length = l₀.length + tr.length ∧ OwnsBlock s vd y l := by
  induction run with
  | start => exact ⟨y₀, l₀, .start, rfl, h⟩
  | step run adds name node exec ih =>
    rw [List.length_append, List.length_singleton] at hroom ⊢
    obtain ⟨y, l, hlist, hlen, hl⟩ := ih (by omega)
    obtain ⟨i, hspec, hstep⟩ := hl.step adds name node (by omega) exec
    refine ⟨_, _, hlist.step hspec, ?_, hstep⟩
    rw [List.length_append, List.length_singleton, hlen, Nat.add_assoc]

/-- **A directory holds what is added to it exactly as long as it has at most 128 entries.** After
a sequence of additions there is a data block of the directory for each part of its entries and a
lookup finds them, if and only if the entries fit one block. -/
theorem directory_grows_iff (h : OwnsBlock s₀ vd y₀ l₀) (run : Additions vd s₀ tr s) :
    (∃ y l, ListRun l₀ tr l ∧ Spread s vd y l) ↔ l₀.length + tr.length ≤ oneBlockDirentrys := by
  have hsize := h.holds.size_eq
  obtain ⟨hv, -⟩ := run.grows h.holds.vinode h.holds.dir.type h.holds.inum_lt h.holds.page
  constructor
  · rintro ⟨y, l, -, hspread⟩
    have hblocks := hspread.blocks
    obtain rfl := Option.some.inj (hv.symm.trans hspread.vinode)
    have hone : y₀.blocks = 1 := h.holds.dir.blocks
    simp only [spannedBlocks, oneBlockDirentrys, direntrySize, RFS_BLKSIZE, PGSIZE] at *
    omega
  · intro hroom
    obtain ⟨y, l, hlist, -, hl⟩ := h.run run hroom
    exact ⟨y, l, hlist, hl.holds.spread hl.names hl.sole⟩

/-- An empty directory as `rfs_format` makes it: the addresses behind the first one are zero. -/
def freshDir : Vinode where
  size := 0
  type := R_DIR
  nlinks := 1
  blocks := 1
  addrs := fun i => if i = 0 then 12 else 0
  inum := 0
  ref := 1
  iFsInfo := none
  sb := .rfs

/-- An empty root directory beside a file that has a link elsewhere. -/
def freshRoot : State :=
  { emptyRoot with
    disk := fun _ _ => 0
    pages := 2
    vinodes := fun v => if v = 0 then some freshDir else if v = 1 then some linkedFile else none }

/-- The first `n` names for the file, each added by `rfs_link`. -/
def links (n : ℕ) : List (DirOp × DirRet) :=
  (List.range n).map fun k => (.link [UInt8.ofNat (k + 1)] 1 1, .code 0)

theorem links_succ (n : ℕ) :
    links (n + 1) = links n ++ [(.link [UInt8.ofNat (n + 1)] 1 1, .code 0)] := by
  rw [links, links, List.range_succ, List.map_append, List.map_singleton]

theorem link_valid (hn : n < 129) : Name.Valid [UInt8.ofNat (n + 1)] := by
  refine ⟨by rw [List.length_singleton]; decide, ?_⟩
  rw [List.mem_singleton]
  intro h
  have hmod := congrArg UInt8.toNat h
  rw [UInt8.toNat_ofNat'] at hmod
  simp at hmod
  omega

theorem freshRoot_ownsBlock : OwnsBlock freshRoot 0 freshDir [] where
  holds := ⟨rfl, ⟨rfl, rfl, by decide, by decide, ⟨by decide, by decide⟩⟩, by decide, rfl,
    by simp, by decide, rfl⟩
  names := by simp
  sole :=
    { used := by decide
      disk := fun j _ _ _ hb => by
        have : (freshRoot.disk.dinode j).blks = [] := rfl
        rw [this] at hb
        exact List.not_mem_nil hb
      vinodes := fun w z hz hne hb => by
        simp only [freshRoot] at hz
        split at hz
        · cases hz
          exact hne rfl
        · split at hz
          · cases hz
            exact List.not_mem_nil hb
          · cases hz }
  words := fun w z hz => by
    simp only [freshRoot] at hz
    split at hz
    · cases hz
      refine ⟨by decide, fun i => ?_⟩
      simp only [freshDir]
      split <;> omega
    · split at hz
      · cases hz
        exact ⟨by decide, fun i => by simp [linkedFile]⟩
      · cases hz

/-- A link to the file at `w` in the directory `y`, wherever the entry goes. -/
theorem rfsLink_at {c : ℕ} (hv : s.vinodes v = some y) (hn : name.Valid) (hy : y.type = DIR_I)
    (haddr : y.addr (y.size / RFS_BLKSIZE) = .ok c) (hc : c < RAMDISK_BLOCK_COUNT)
    (hi : y.inum < ninodes) (hw : s.vinodes w = some z) (hz : z.inum < ninodes) (hne : v ≠ w) :
    ∃ s', rfsLink s v name w = .ok (0, s') ∧
      s'.vinodes = Function.update
        (Function.update s.vinodes w (some { z with nlinks := z.nlinks + 1 })) v
        (some { y with size := y.size + 32 }) := by
  obtain ⟨buf₁, h₁⟩ := rfsAddDirentry_at (s := s.setVinode w { z with nlinks := z.nlinks + 1 })
    (v := v) z.inum ((Function.update_of_ne hne _ _).trans hv) hn hy haddr hc hi
  obtain ⟨buf₂, h₂⟩ := rfsWriteBackVinode_eq (v := w) (y := { z with nlinks := z.nlinks + 1 }) (s :=
    { s with
      disk := Disk.setDinode
        (Function.update s.disk c (putEntry (s.disk c) (y.size % RFS_BLKSIZE) name z.inum))
        y.inum { y.toDinode with size := y.size + 32 }
      iobuffer := buf₁
      vinodes := Function.update
        (Function.update s.vinodes w (some { z with nlinks := z.nlinks + 1 })) v
        (some { y with size := y.size + 32 }) })
    ((Function.update_of_ne hne.symm _ _).trans (Function.update_self _ _ _)) hz
  unfold rfsLink
  rw [State.vinode_eq_ok.2 hw, ok_bind]
  change ∃ s', (rfsAddDirentry _ v name z.inum >>= _) = _ ∧ _
  rw [h₁, ok_bind]
  exact ⟨_, congrArg (fun r => r >>= fun s => pure ((0 : ℤ), s)) h₂, rfl⟩

/-- The file gets up to 129 names in the root directory. -/
theorem freshRoot_links (hn : n ≤ 129) :
    ∃ s, Additions 0 freshRoot (links n) s ∧
      s.vinodes 0 = some { freshDir with size := 32 * n } ∧
      s.vinodes 1 = some { linkedFile with nlinks := 1 + n } := by
  induction n with
  | zero => exact ⟨freshRoot, .start, rfl, rfl⟩
  | succ n ih =>
    obtain ⟨s, run, hdir, hfile⟩ := ih (by omega)
    have haddr : ({ freshDir with size := 32 * n } : Vinode).addr (32 * n / RFS_BLKSIZE) =
        .ok (freshDir.addrs (32 * n / RFS_BLKSIZE)) :=
      addr_eq (by simp only [RFS_BLKSIZE, PGSIZE, RFS_DIRECT_BLKNUM]; omega)
    have hc : freshDir.addrs (32 * n / RFS_BLKSIZE) < RAMDISK_BLOCK_COUNT := by
      simp only [freshDir]
      split <;> decide
    have hname : Name.Valid [UInt8.ofNat (n + 1)] := link_valid (by omega)
    obtain ⟨s', hlink, hv'⟩ := rfsLink_at hdir hname rfl haddr hc
      (show freshDir.inum < ninodes by decide) hfile (show linkedFile.inum < ninodes by decide)
      (by decide)
    refine ⟨s', ?_, ?_, ?_⟩
    · rw [links_succ]
      refine run.step trivial hname ⟨_, hfile, rfl, rfl, by decide⟩ ?_
      rw [DirOp.exec, hlink]
      rfl
    · rw [hv', Function.update_self]
      rfl
    · rw [hv', Function.update_of_ne (by decide), Function.update_self, Nat.add_assoc]

theorem directory_grows_iff_freshRoot :
    ∃ s, Additions 0 freshRoot (links 1) s ∧
      ∃ y l, ListRun [] (links 1) l ∧ Spread s 0 y l := by
  obtain ⟨s, run, -⟩ := freshRoot_links (n := 1) (by decide)
  exact ⟨s, run, (directory_grows_iff freshRoot_ownsBlock run).2 (by decide)⟩

/-- The 129th name leaves the directory longer than its block. -/
theorem directory_full :
    ∃ s, Additions 0 freshRoot (links 129) s ∧
      ¬ ∃ y l, ListRun [] (links 129) l ∧ Spread s 0 y l := by
  obtain ⟨s, run, hv, -⟩ := freshRoot_links (n := 129) (by decide)
  refine ⟨s, run, ?_⟩
  rintro ⟨y, l, -, hspread⟩
  have hblocks := hspread.blocks
  obtain rfl := Option.some.inj (hv.symm.trans hspread.vinode)
  exact absurd hblocks (by decide)

end HustOS.Fs
