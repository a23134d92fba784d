import HustOS.Fs.Invariant
import HustOS.Fs.Create

/-!
# Start-up

`fs_init` formats the RAM disk and mounts it. A formatted disk has a root directory without entries
and no other inode in use (`Formatted`), whatever the disk, the buffer and the stack held before;
the mounted state satisfies the invariant (`fsInit_inv`).
-/

namespace HustOS.Fs

open Foundations

variable {s : State} {b n i j c : ℕ} {buf : Buf} {d : Disk}

/-! ## Formatting -/

/-- The contents of a formatted disk. -/
structure Formatted (d : Disk) : Prop where
  super : ∀ k < 4, (d RFS_BLK_OFFSET_SUPER).u32 (4 * k) = superWord k
  size : (d.dinode 0).size = 0
  type : (d.dinode 0).type = R_DIR
  blocks : (d.dinode 0).blocks = 1
  addrs : (d.dinode 0).addrs 0 = RFS_BLK_OFFSET_FREE
  free : ∀ i < ninodes, i ≠ 0 → (d.dinode i).type = R_FREE
  bitmap : ∀ k, (d RFS_BLK_OFFSET_BITMAP).u32 (4 * k) = if k = 0 then 1 else 0

/-- Setting up inodes leaves the bytes before them alone. -/
theorem emptyInodes_apply_of_lt (h : c < i * RFS_INODESIZE) : emptyInodes n i buf c = buf c := by
  induction n generalizing i buf with
  | zero => rfl
  | succ n ih =>
    rw [emptyInodes, ih (by simp only [RFS_INODESIZE] at *; omega)]
    exact Buf.setWords_apply_of_lt _ (.inl h)

theorem type_emptyInodes (hj : i ≤ j) (hn : j < i + n) :
    (getDinode (emptyInodes n i buf) (j * RFS_INODESIZE)).type = R_FREE := by
  induction n generalizing i buf with
  | zero => omega
  | succ n ih =>
    rw [emptyInodes]
    by_cases hij : j = i
    · subst hij
      have hword : (buf.setWords (j * RFS_INODESIZE) (fun k => if k = 1 then R_FREE else 0) 4).u32
          (j * RFS_INODESIZE + 4 * 1) = _ := Buf.u32_setWords _ (by omega)
      refine Eq.trans (Buf.u32_congr fun m hm => ?_) hword
      refine emptyInodes_apply_of_lt ?_
      simp only [RFS_INODESIZE]
      omega
    · exact ih (by omega) (by omega)

theorem writeBlocks_eq (h : b + n ≤ RAMDISK_BLOCK_COUNT) :
    writeBlocks n b s = .ok
      { s with disk := fun c => if b ≤ c ∧ c < b + n then s.iobuffer else s.disk c } := by
  induction n generalizing b s with
  | zero =>
    have hdisk : (fun c => if b ≤ c ∧ c < b + 0 then s.iobuffer else s.disk c) = s.disk := by
      funext c
      rw [if_neg (by omega)]
    rw [hdisk]
    rfl
  | succ n ih =>
    have hdisk : (fun c => if b + 1 ≤ c ∧ c < b + 1 + n then s.iobuffer
          else Function.update s.disk b s.iobuffer c) =
        fun c => if b ≤ c ∧ c < b + (n + 1) then s.iobuffer else s.disk c := by
      funext c
      by_cases hc : c = b
      · rw [hc, if_neg (by omega), if_pos (by omega), Function.update_self]
      · rw [Function.update_of_ne hc]
        simp only [show b + 1 ≤ c ∧ c < b + 1 + n ↔ b ≤ c ∧ c < b + (n + 1) by omega]
    rw [writeBlocks, rfsW1block_eq (by omega), ok_bind, ih (by omega)]
    dsimp only
    rw [hdisk]

theorem superWord_lt (k : ℕ) : superWord k < 2 ^ 32 := by
  unfold superWord
  split <;> decide

/-- **`rfs_format_dev`.** -/
theorem rfsFormatDev_eq (s : State) (stack : ℕ → ℕ) :
    ∃ d buf, rfsFormatDev s stack = .ok { s with disk := d, iobuffer := buf } ∧ Formatted d := by
  set b₀ : Buf := s.iobuffer.setWords 0 superWord 4 with hb₀
  set b₁ : Buf := emptyInodes inodesPerBlock 0 b₀ with hb₁
  set d₁ : Disk := fun c => if RFS_BLK_OFFSET_INODE ≤ c ∧
      c < RFS_BLK_OFFSET_INODE + RFS_MAX_INODE_BLKNUM then b₁
    else Function.update s.disk RFS_BLK_OFFSET_SUPER b₀ c with hd₁
  set root : Dinode :=
    { size := 0, type := R_DIR, nlinks := 1, blocks := 1,
      addrs := Function.update stack 0 RFS_BLK_OFFSET_FREE } with hroot
  set b₂ : Buf := Buf.setU32 (fun _ => 0) 0 1 with hb₂
  set d₂ : Disk := Function.update (d₁.setDinode 0 root) RFS_BLK_OFFSET_BITMAP b₂ with hd₂
  have hdinode : ∀ k < ninodes, d₂.dinode k = (d₁.setDinode 0 root).dinode k := fun k hk =>
    Disk.dinode_update hk (Nat.le_refl _)
  have hword : ∀ k < 14, (putDinode (d₁ (dinodeBlock 0)) (dinodeOff 0) root).u32
      (dinodeOff 0 + 4 * k) = root.word k % 2 ^ 32 := fun k hk => Buf.u32_setWords root.word hk
  have hzero : d₂.dinode 0 = getDinode (putDinode (d₁ (dinodeBlock 0)) (dinodeOff 0) root)
      (dinodeOff 0) := by
    rw [hdinode 0 (by decide), Disk.dinode, Disk.setDinode, Function.update_self]
  refine ⟨d₂, b₂, ?_, ?_⟩
  · obtain ⟨buf, hbuf⟩ := rfsWriteDinode_eq (s := { s with disk := d₁, iobuffer := b₁ }) (x := root)
      (show 0 < ninodes by decide)
    unfold rfsFormatDev
    simp only [rfsW1block_eq (show RFS_BLK_OFFSET_SUPER < RAMDISK_BLOCK_COUNT by decide), ok_bind,
      writeBlocks_eq (show RFS_BLK_OFFSET_INODE + RFS_MAX_INODE_BLKNUM ≤ RAMDISK_BLOCK_COUNT by
        decide), ← hb₀, ← hb₁, ← hd₁, ← hroot, hbuf,
      rfsW1block_eq (show RFS_BLK_OFFSET_BITMAP < RAMDISK_BLOCK_COUNT by decide), ← hb₂, ← hd₂]
  · exact {
      super := fun k hk => by
        have hblock : d₂ RFS_BLK_OFFSET_SUPER = b₀ := rfl
        have hk' : (s.iobuffer.setWords 0 superWord 4).u32 (0 + 4 * k) = _ :=
          Buf.u32_setWords superWord hk
        rw [Nat.zero_add] at hk'
        rw [hblock, hk', Nat.mod_eq_of_lt (superWord_lt k)]
      size := by
        rw [hzero]
        exact hword 0 (by omega)
      type := by
        rw [hzero]
        exact hword 1 (by omega)
      blocks := by
        rw [hzero]
        exact hword 3 (by omega)
      addrs := by
        rw [hzero]
        exact hword 4 (by omega)
      free := fun i hi hi0 => by
        have hblock : d₁ (dinodeBlock i) = b₁ := if_pos (by
          have := Disk.dinodeBlock_lt hi
          exact ⟨Nat.le_add_left _ _, this⟩)
        rw [hdinode i hi, Disk.dinode_setDinode_of_ne hi0, Disk.dinode, hblock]
        exact type_emptyInodes (Nat.zero_le _) (by
          rw [Nat.zero_add]
          exact Nat.mod_lt _ (by decide))
      bitmap := fun k => by
        rw [hd₂, Function.update_self]
        split
        · rename_i hk
          rw [hk]
          rfl
        · exact Buf.u32_setWords_of_disjoint _ (.inr (by omega)) }

/-! ## Mounting -/

/-- The vinode of the root of the host file system. -/
def hostVinode : Vinode where
  size := 0
  type := DIR_I
  nlinks := 0
  blocks := 0
  addrs := fun _ => 0
  inum := 2 ^ 32 - 1
  ref := 1
  iFsInfo := none
  sb := .hostfs

/-- The dentry of the root of the system. -/
def hostDentry : Dentry where
  name := [47]
  dRef := 0
  dentryInode := some 0
  parent := none

/-- The dentry of the mount point. -/
def mountDentry : Dentry where
  name := ramdisk0
  dRef := 0
  dentryInode := some 2
  parent := some 1

/-- The state with the host file system mounted. -/
def hosted (b : Boot) : State :=
  { b.state with
    pages := 2
    vfsRootDentry := 1
    dentries := Function.update (fun _ => none) 1 (some hostDentry)
    vinodes := Function.update (fun _ => none) 0 (some hostVinode)
    dentryHashTable := AList.insert (none, [47]) 1 ∅ }

/-- The state with RFS mounted below it. -/
def mounted (b : Boot) (d : Disk) (buf : Buf) : State where
  disk := d
  iobuffer := buf
  pages := 4
  pageAddr := b.pageAddr
  sb :=
    { magic := superWord 0, size := superWord 1, nblocks := superWord 2, ninodes := superWord 3,
      sRoot := 3 }
  freemap := fun k => if k = 0 then 1 else 0
  vfsRootDentry := 1
  dentries := Function.update (Function.update (fun _ => none) 1 (some hostDentry)) 3
    (some mountDentry)
  vinodes := Function.update (Function.update (fun _ => none) 0 (some hostVinode)) 2
    (some { newVinode (d.dinode 0) 0 with ref := 1 })
  files := ∅
  dentryHashTable := AList.insert (some 1, ramdisk0) 3 (AList.insert (none, [47]) 1 ∅)
  vinodeHashTable := AList.insert (.rfs, 0) 2 ∅

theorem mountHostfs_eq (b : Boot) : mountHostfs b.state = .ok (hosted b) := by
  have hv : (Function.update (Function.update (fun _ => none) 0
      (some { hostVinode with ref := 0 })) 0 (some hostVinode) : ℕ → Option Vinode) =
      Function.update (fun _ => none) 0 (some hostVinode) := Function.update_idem _ _ _
  unfold hosted
  rw [← hv]
  rfl

/-- `rfs_get_superblock` on a formatted disk. -/
theorem rfsGetSuperblock_eq (hd : Formatted s.disk) :
    rfsGetSuperblock s = .ok (s.pages + 1,
      { s with
        iobuffer := s.disk RFS_BLK_OFFSET_BITMAP
        pages := s.pages + 2
        vinodes := Function.update s.vinodes s.pages
          (some { newVinode (s.disk.dinode 0) 0 with ref := 1 })
        dentries := Function.update s.dentries (s.pages + 1)
          (some { name := [47], dRef := 0, dentryInode := some s.pages, parent := none })
        sb :=
          { magic := superWord 0, size := superWord 1, nblocks := superWord 2,
            ninodes := superWord 3, sRoot := s.pages + 1 }
        freemap := fun k => if k = 0 then 1 else 0 }) := by
  obtain ⟨buf, hnew⟩ := rfsNewVinode_eq (s := { s with iobuffer := s.disk RFS_BLK_OFFSET_SUPER })
    (show 0 < ninodes by decide)
  have h₀ : (s.disk RFS_BLK_OFFSET_SUPER).u32 0 = superWord 0 := hd.super 0 (by omega)
  have h₁ : (s.disk RFS_BLK_OFFSET_SUPER).u32 4 = superWord 1 := hd.super 1 (by omega)
  have h₂ : (s.disk RFS_BLK_OFFSET_SUPER).u32 8 = superWord 2 := hd.super 2 (by omega)
  have h₃ : (s.disk RFS_BLK_OFFSET_SUPER).u32 12 = superWord 3 := hd.super 3 (by omega)
  have hmagic : ¬ superWord 0 ≠ RFS_MAGIC := not_not.2 rfl
  set x : Vinode := newVinode (s.disk.dinode 0) 0 with hx
  set s₁ : State := { s with
    iobuffer := buf
    pages := s.pages + 1
    vinodes := Function.update s.vinodes s.pages (some x) } with hs₁
  have hdentry : allocVfsDentry s₁ [47] (some s.pages) none = .ok (s.pages + 1,
      { s₁ with
        pages := s.pages + 2
        vinodes := Function.update s.vinodes s.pages (some { x with ref := 1 })
        dentries := Function.update s.dentries (s.pages + 1)
          (some { name := [47], dRef := 0, dentryInode := some s.pages, parent := none }) }) := by
    have hidem : Function.update s₁.vinodes s.pages (some { x with ref := x.ref + 1 }) =
        Function.update s.vinodes s.pages (some { x with ref := 1 }) := Function.update_idem _ _ _
    have hv : (State.setDentry { s₁ with pages := s.pages + 2 } (s.pages + 1)
        { name := [47], dRef := 0, dentryInode := some s.pages, parent := none }).vinodes s.pages =
        some x := Function.update_self _ _ _
    unfold allocVfsDentry State.allocPage
    dsimp only
    rw [addRef_eq hv, ← hidem]
    rfl
  unfold rfsGetSuperblock
  rw [rfsR1block_eq (by decide), ok_bind]
  dsimp only
  rw [h₀, h₁, h₂, h₃, if_neg hmagic, hnew, ok_bind]
  dsimp only
  rw [hdentry, ok_bind]
  dsimp only
  rw [rfsR1block_eq (by decide), ok_bind]
  have hmap : ∀ k, (s₁.disk RFS_BLK_OFFSET_BITMAP).u32 (4 * k) = if k = 0 then 1 else 0 := hd.bitmap
  simp only [hmap]
  rfl

theorem mountRfs_eq (b : Boot) (buf : Buf) (hd : Formatted d) :
    ∃ buf', mountRfs { hosted b with disk := d, iobuffer := buf } = .ok (mounted b d buf') := by
  set s : State := { hosted b with disk := d, iobuffer := buf } with hs
  have hsuper := rfsGetSuperblock_eq (s := s) hd
  have hidem : (mounted b d (d RFS_BLK_OFFSET_BITMAP)).dentries =
      Function.update (Function.update s.dentries 3
        (some { name := [47], dRef := 0, dentryInode := some 2, parent := none })) 3
        (some mountDentry) := (Function.update_idem _ _ _).symm
  refine ⟨d RFS_BLK_OFFSET_BITMAP, ?_⟩
  have heta : mounted b d (d RFS_BLK_OFFSET_BITMAP) = { mounted b d (d RFS_BLK_OFFSET_BITMAP) with
      dentries := (mounted b d (d RFS_BLK_OFFSET_BITMAP)).dentries } := rfl
  unfold mountRfs
  rw [hsuper, ok_bind, heta, hidem]
  rfl

theorem fsInit_eq (b : Boot) :
    ∃ d buf, fsInit b = .ok (mounted b d buf) ∧ Formatted d := by
  obtain ⟨d, buf, hformat, hd⟩ := rfsFormatDev_eq (hosted b) b.stack
  obtain ⟨buf', hmount⟩ := mountRfs_eq b buf hd
  refine ⟨d, buf', ?_, hd⟩
  rw [fsInit, mountHostfs_eq, ok_bind, hformat, ok_bind, hmount]

/-! ## The invariant at the start -/

/-- A volume with an empty root directory and nothing else. -/
theorem Good.empty {V : Vol} (hdir : IsDir (V.node 0)) (hfits : ∀ i, (V.node i).Fits)
    (hsize : (V.node 0).size = 0) (hfree : ∀ i, i ≠ 0 → (V.node i).type = R_FREE)
    (hnil : ∀ i, V.dir i = []) (hused : V.used = {(V.node 0).addrs 0}) : Good V := by
  have hzero : ∀ i, V.InUse i → i = 0 := fun i hi => by
    by_contra hne
    exact hi (hfree i hne)
  have hlinks : ∀ i, V.links i = 0 := fun i => by
    refine Finset.sum_eq_zero fun d _ => ?_
    rw [hnil d]
    rfl
  have hblks : (V.node 0).blks = [(V.node 0).addrs 0] := by
    rw [Dinode.blks, hdir.blocks]
    rfl
  exact {
    root := hdir.type
    lt := fun i hi => hzero i hi ▸ by decide
    kind := fun i hi => .inr (hzero i hi ▸ hdir)
    fits := hfits
    data := fun b hb => by
      rw [hused, Finset.mem_singleton] at hb
      exact hb ▸ hdir.data
    owned := {
      nodup := fun i hi => by
        rw [hzero i hi, hblks]
        exact List.nodup_singleton _
      mem := fun i hi b hb => by
        rw [hzero i hi, hblks, List.mem_singleton] at hb
        rw [hused, hb]
        exact Finset.mem_singleton_self _
      disjoint := fun i j hi hj hne => absurd ((hzero i hi).trans (hzero j hj).symm) hne }
    size := fun i hi => by
      rw [hzero i (dir_type_ne hi), hnil, hsize]
      rfl
    nil := fun i _ => hnil i
    names := fun i => by
      rw [hnil i]
      exact List.nodup_nil
    entries := fun i e he => by
      rw [hnil i] at he
      cases he
    nlinks := fun i hi hne => absurd (hzero i hi) hne
    single := fun i _ => by rw [hlinks i]; exact Nat.zero_le _
    weight := by
      have hsum : ∑ i ∈ Finset.range ninodes, Fs.weight (V.node i) = Fs.weight (V.node 0) := by
        refine Finset.sum_eq_single 0 (fun i _ hne => if_pos (hfree i hne)) fun h => ?_
        exact absurd (Finset.mem_range.2 (by decide)) h
      rw [hsum, hused, Finset.card_singleton, Fs.weight, if_neg hdir.inUse, hdir.blocks, hdir.type]
      decide }

variable {boot : Boot} {v t : ℕ} {x : Vinode} {e : Dentry}

theorem mounted_cached (h : Cached (mounted boot d buf) i v x) :
    i = 0 ∧ v = 2 ∧ x = { newVinode (d.dinode 0) 0 with ref := 1 } := by
  have hk := h.hash
  unfold mounted at hk
  rw [lookup_insert_eq] at hk
  split at hk
  · rename_i hi
    obtain rfl := Option.some.inj hk
    exact ⟨(Prod.mk.inj hi).2, rfl, Option.some.inj h.vinode.symm⟩
  · cases hk

theorem mounted_hashed (h : Hashed (mounted boot d buf) t e v) :
    (t = 1 ∧ v = 0 ∧ e = hostDentry) ∨ (t = 3 ∧ v = 2 ∧ e = mountDentry) := by
  have he := h.dentry
  change Function.update
    (Function.update (fun _ => none) 1 (some hostDentry)) 3 (some mountDentry) t
    = some e at he
  by_cases h₃ : t = 3
  · rw [h₃, Function.update_self] at he
    obtain rfl := Option.some.inj he
    exact .inr ⟨h₃, Option.some.inj h.inode.symm, rfl⟩
  · rw [Function.update_of_ne h₃] at he
    by_cases h₁ : t = 1
    · rw [h₁, Function.update_self] at he
      obtain rfl := Option.some.inj he
      exact .inl ⟨h₁, Option.some.inj h.inode.symm, rfl⟩
    · rw [Function.update_of_ne h₁] at he
      cases he

theorem mounted_lookup (hi : i ≠ 0) :
    (mounted boot d buf).vinodeHashTable.lookup (.rfs, i) = none := by
  refine (lookup_insert_eq _ _ _ _).trans ?_
  rw [if_neg fun h => hi (Prod.mk.inj h).2]
  rfl

/-- Only the root directory is in use. -/
theorem mounted_free (hd : Formatted d) (hi : i ≠ 0) :
    ((mounted boot d buf).vol.node i).type = R_FREE := by
  change ((mounted boot d buf).node i).type = R_FREE
  unfold State.node
  split
  · rename_i hlt
    rw [cur_of_none (mounted_lookup hi)]
    exact hd.free i hlt hi
  · rfl

theorem mounted_good (hd : Formatted d) : Good (mounted boot d buf).vol := by
  set s := mounted boot d buf with hs
  have hroot : s.vol.node 0 = d.dinode 0 := rfl
  have hfree : ∀ i, i ≠ 0 → (s.vol.node i).type = R_FREE := fun i hi => mounted_free hd hi
  have hdir : IsDir (s.vol.node 0) := by
    rw [hroot]
    refine ⟨hd.type, hd.blocks, ?_, ?_, ?_⟩
    · rw [hd.size]
      exact Nat.dvd_zero _
    · rw [hd.size]
      exact Nat.zero_le _
    · rw [hd.addrs]
      exact ⟨by decide, by decide⟩
  refine Good.empty hdir (fun i => ?_) hd.size hfree (fun i => ?_) ?_
  · change (s.node i).Fits
    unfold State.node
    split
    · by_cases hi : i = 0
      · rw [hi]
        exact d.fits_dinode 0
      · rw [cur_of_none (mounted_lookup hi)]
        exact d.fits_dinode i
    · exact ⟨by decide, by decide, by decide, by decide, fun _ => (by decide : 0 < 2 ^ 32),
        fun _ _ => rfl⟩
  · by_cases hi : i = 0
    · change (if (s.vol.node i).type = DIR_I then dirList d (s.vol.node i) else []) = []
      rw [hi, hroot, if_pos hd.type, ← List.length_eq_zero_iff, length_dirList, hd.size]
    · refine if_neg ?_
      rw [show s.node i = s.vol.node i from rfl, hfree i hi]
      decide
  · ext b
    rw [mem_used, Finset.mem_singleton, hroot, hd.addrs]
    change _ ∧ (if b - RFS_BLK_OFFSET_FREE = 0 then 1 else 0) ≠ 0 ↔ _
    constructor
    · rintro ⟨⟨h₁, -⟩, h₂⟩
      by_contra hne
      rw [if_neg (by omega)] at h₂
      exact h₂ rfl
    · rintro rfl
      exact ⟨⟨by decide, by decide⟩, by decide⟩

theorem hashed_host : Hashed (mounted boot d buf) 1 hostDentry 0 := ⟨rfl, rfl, rfl⟩

theorem hashed_mount : Hashed (mounted boot d buf) 3 mountDentry 2 := ⟨rfl, rfl, rfl⟩

theorem cached_mount :
    Cached (mounted boot d buf) 0 2 { newVinode (d.dinode 0) 0 with ref := 1 } := ⟨rfl, rfl⟩

theorem mounted_tables : Tables (mounted boot d buf) where
  dentry k t hk := by
    unfold mounted at hk
    rw [lookup_insert_eq, lookup_insert_eq] at hk
    split at hk
    · rename_i hkey
      obtain rfl := Option.some.inj hk
      exact ⟨mountDentry, 2, hashed_mount, hkey⟩
    · split at hk
      · rename_i hkey
        obtain rfl := Option.some.inj hk
        exact ⟨hostDentry, 0, hashed_host, hkey⟩
      · cases hk
  vinode sb i v hk := by
    unfold mounted at hk
    rw [lookup_insert_eq] at hk
    split at hk
    · rename_i hkey
      obtain ⟨rfl, rfl⟩ := Prod.mk.inj hkey
      obtain rfl := Option.some.inj hk
      exact ⟨rfl, _, cached_mount.vinode, rfl, rfl⟩
    · cases hk
  target t e v he := by
    rcases mounted_hashed he with ⟨rfl, rfl, rfl⟩ | ⟨rfl, rfl, rfl⟩
    · exact .inl rfl
    · exact .inr ⟨0, _, cached_mount⟩
  root := ⟨hostDentry, 0, hostVinode, hashed_host, rfl, rfl, rfl, rfl⟩
  ref i v x hx := by
    obtain ⟨rfl, rfl, rfl⟩ := mounted_cached hx
    rfl
  dRef t e v he := by
    rcases mounted_hashed he with ⟨rfl, rfl, rfl⟩ | ⟨rfl, rfl, rfl⟩ <;> rfl
  file f fl hf := by cases hf
  fresh k hk := by
    have hk' : 4 ≤ k := hk
    refine ⟨?_, ?_, rfl⟩
    · exact (Function.update_of_ne (by omega) _ _).trans (Function.update_of_ne (by omega) _ _)
    · exact (Function.update_of_ne (by omega) _ _).trans (Function.update_of_ne (by omega) _ _)

/-- **The state after `fs_init`** satisfies the invariant. -/
theorem fsInit_inv (boot : Boot) : ∃ s, fsInit boot = .ok s ∧ Inv s := by
  obtain ⟨d, buf, hinit, hd⟩ := fsInit_eq boot
  refine ⟨_, hinit, mounted_good hd, mounted_tables, ?_, fun i v x hx => ?_, rfl⟩
  · exact {
      inUse := fun i v x hx => by
        rw [(mounted_cached hx).1]
        exact dir_type_ne hd.type
      mount := ⟨mountDentry, 2, _, hashed_mount, rfl, rfl, cached_mount⟩
      parent := fun t e v i x he hx hne => by
        obtain ⟨-, rfl, -⟩ := mounted_cached hx
        rcases mounted_hashed he with ⟨-, hv, -⟩ | ⟨ht, -, -⟩
        · exact absurd hv (by decide)
        · exact absurd ht hne
      unique := fun t t' e e' v i x he he' _ _ => by
        rcases mounted_hashed he with ⟨rfl, rfl, -⟩ | ⟨rfl, rfl, -⟩
        · rcases mounted_hashed he' with ⟨rfl, -, -⟩ | ⟨-, hv, -⟩
          · rfl
          · exact absurd hv (by decide)
        · rcases mounted_hashed he' with ⟨-, hv, -⟩ | ⟨rfl, -, -⟩
          · exact absurd hv (by decide)
          · rfl }
  · obtain ⟨rfl, rfl, rfl⟩ := mounted_cached hx
    exact ⟨rfl, rfl, Nat.le_refl _, fun _ _ => rfl, fun _ => rfl⟩

/-- There is no file at the start. -/
theorem fsInit_no_file (h : fsInit boot = .ok s) : (s.vol.node i).type ≠ FILE_I := by
  obtain ⟨d, buf, hinit, hd⟩ := fsInit_eq boot
  obtain rfl := Except.ok.inj (hinit.symm.trans h)
  by_cases hi : i = 0
  · subst hi
    change (d.dinode 0).type ≠ FILE_I
    rw [hd.type]
    decide
  · rw [mounted_free hd hi]
    decide

end HustOS.Fs
