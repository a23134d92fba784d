import HustOS.Fs.Run

/-!
# Free inodes

`rfs_create` and `rfs_mkdir` look for a free inode and do not notice if there is none: the test
behind their search comes too late. There always is one, because each inode in use accounts for a
block in use (`Good.card_inUse_le`) and there are more inodes than blocks. `creation_reuses_nothing`
says so for every state of every run, and that a creation leaves the inodes in use as they are,
except for the length of the directory it adds an entry to.
-/

namespace HustOS.Fs

open Foundations

variable {s s' : State} {i type blocks : ℕ} {op : Op} {r : Ret}

/-- The inodes whose type on the disk is not `R_FREE`. -/
def State.liveInodes (s : State) : Finset ℕ :=
  Finset.filter (fun i => (s.disk.dinode i).type ≠ R_FREE) (Finset.range ninodes)

/-- The blocks that the bitmap marks as used. -/
def State.markedBlocks (s : State) : Finset ℕ :=
  Finset.filter (fun k => s.freemap k ≠ 0) (Finset.range s.sb.nblocks)

/-- The operation may create a file or a directory. -/
def Op.Creates : Op → Prop
  | .open _ _ => True
  | .mkdir _ => True
  | _ => False

/-- The disk inode is as it was, or it is one of a directory that has got an entry more. -/
def Survives (s s' : State) (i : ℕ) : Prop :=
  s'.disk.dinode i = s.disk.dinode i ∨
    ((s.disk.dinode i).type = DIR_I ∧
      s'.disk.dinode i = { s.disk.dinode i with size := (s.disk.dinode i).size + direntrySize })

/-! ## Counting -/

/-- The type of a disk inode is that of the inode. -/
theorem Inv.disk_type (h : Inv s) (hi : i < ninodes) :
    (s.disk.dinode i).type = (s.vol.node i).type := by
  cases hk : s.vinodeHashTable.lookup (.rfs, i) with
  | none => exact congrArg Dinode.type ((node_of_lt hi).trans (cur_of_none hk)).symm
  | some v =>
    obtain ⟨x, hc⟩ := h.tables.cached hk
    rw [h.node_eq hc]
    exact (h.sync i v x hc).type

theorem Inv.mem_liveInodes (h : Inv s) : i ∈ s.liveInodes ↔ i < ninodes ∧ s.vol.InUse i := by
  rw [State.liveInodes, Finset.mem_filter, Finset.mem_range]
  refine and_congr_right fun hi => ?_
  rw [h.disk_type hi, Vol.InUse]

/-- The data blocks in use are the marked ones, counted from the first data block. -/
theorem Inv.card_markedBlocks (h : Inv s) : s.markedBlocks.card = s.vol.used.card := by
  have himage : s.vol.used = s.markedBlocks.image (RFS_BLK_OFFSET_FREE + ·) := by
    ext b
    rw [State.vol, Finset.mem_filter, Finset.mem_Ico, State.markedBlocks,
      Finset.mem_image, h.nblocks]
    constructor
    · rintro ⟨hb, hk⟩
      exact ⟨b - RFS_BLK_OFFSET_FREE,
        Finset.mem_filter.2 ⟨Finset.mem_range.2 (by omega), hk⟩, by omega⟩
    · rintro ⟨k, hk, rfl⟩
      obtain ⟨hlt, hk⟩ := Finset.mem_filter.1 hk
      rw [Finset.mem_range] at hlt
      exact ⟨by omega, by rwa [Nat.add_sub_cancel_left]⟩
  rw [himage, Finset.card_image_of_injective _ (add_right_injective _)]

/-- **No more live inodes than marked blocks.** -/
theorem Inv.liveInodes_le (h : Inv s) : s.liveInodes.card ≤ s.markedBlocks.card := by
  have heq : s.liveInodes = Finset.filter s.vol.InUse (Finset.range ninodes) := by
    ext i
    rw [h.mem_liveInodes, Finset.mem_filter, Finset.mem_range]
  rw [heq, h.card_markedBlocks]
  exact h.good.card_inUse_le

/-- **The search for a free inode finds one**, on the disk of the state. -/
theorem Inv.freeInodeLoop {s₁ : State} (h : Inv s) (hd : s₁.disk = s.disk) :
    ∃ i s₂, freeInodeLoop ninodes 0 s₁ = .ok ((s.disk.dinode i, i), s₂) ∧ i < ninodes ∧ i ≠ 0 ∧
      (s.disk.dinode i).type = R_FREE ∧ s.vinodeHashTable.lookup (.rfs, i) = none := by
  have hsat := freeInodeLoop_sat (s := s₁) (b := 0) (n := ninodes) (by omega)
  obtain ⟨j, hj, hfree⟩ := h.good.exists_free
  rcases he : Fs.freeInodeLoop ninodes 0 s₁ with e | r
  · rw [he, hd] at hsat
    refine absurd (hsat.2 j (by omega) (by omega)) (not_not.2 ?_)
    rw [h.disk_type hj]
    exact not_not.1 hfree
  · rw [he, hd] at hsat
    obtain ⟨i, buf, -, hi, htype, rfl⟩ := hsat
    rw [Nat.zero_add] at hi
    have hnot : ¬ s.vol.InUse i := not_not.2 ((h.disk_type hi).symm.trans htype)
    refine ⟨i, _, rfl, hi, ?_, htype, ?_⟩
    · rintro rfl
      exact hnot (dir_type_ne h.good.root)
    · by_contra hk
      obtain ⟨v, hv⟩ := Option.ne_none_iff_exists'.1 hk
      obtain ⟨x, hc⟩ := h.tables.cached hv
      exact hnot (h.paths.inUse i v x hc)

/-! ## Creations -/

/-- **A creation leaves the live inodes.** -/
theorem Created.survives (hc : Created type blocks s s') (h : Inv s) (hi : i ∈ s.liveInodes) :
    Survives s s' i := by
  obtain ⟨s₀, d, vd, y, j, k, n, z, d', h₁, hm, -, h₂⟩ := hc
  have hi₀ := h₁.inv h
  obtain ⟨hlt, hlive⟩ := Finset.mem_filter.1 hi
  rw [Finset.mem_range] at hlt
  have hmade : Inv (s₀.make vd y k d') := (Trans.make hm).inv hi₀
  rw [Survives, (h₂.quiet hmade).disk, ← (h₁.quiet h).disk]
  have hnode := hm.disk.node i hlt
  change d'.dinode i = _ ∨ _ ∧ d'.dinode i = _
  rw [hnode]
  by_cases hid : i = d
  · subst hid
    have htype : y.type = DIR_I := by
      have hdir := hm.room.dir
      rwa [hi₀.node_eq hm.dir] at hdir
    have hsync := (hi₀.sync i vd y hm.dir).dir htype
    rw [Function.update_self, hsync]
    exact .inr ⟨htype, rfl⟩
  · rw [Function.update_of_ne hid, Function.update_of_ne]
    · exact .inl rfl
    · rintro rfl
      exact hlive ((congrArg
        (fun d => (Disk.dinode d i).type) (h₁.quiet h).disk).symm.trans hm.fresh.free)

theorem Made.survives (hc : Made type blocks s s') (h : Inv s) (hi : i ∈ s.liveInodes) :
    Survives s s' i := by
  rcases hc with hq | hc
  · rw [Survives, (hq.quiet h).disk]
    exact .inl rfl
  · exact hc.survives h hi

/-- An operation that may create creates at most one inode. -/
theorem exec_made (h : Inv s) (hp : ∀ path ∈ op.paths, s.disk.ParentsOk path.1) (hop : op.Creates) :
    Sat (exec op s) (fun r => r.2.Over ∨ ∃ type blocks, Made type blocks s r.2) NoAssert := by
  cases op with
  | «open» path flags =>
    refine Sat.bind (vfsOpen_made h (hp path (List.mem_singleton_self _))) ?_
    rintro ⟨f, s'⟩ ⟨-, hm⟩
    exact hm.imp_right fun hm => ⟨_, _, hm⟩
  | mkdir path =>
    refine Sat.bind (vfsMkdir_made h (hp path (List.mem_singleton_self _))) ?_
    rintro ⟨n, s'⟩ hm
    exact hm.imp_right fun hm => ⟨_, _, hm⟩
  | write | close | link | unlink | opendir => exact hop.elim

/-- **An operation that may create leaves the live inodes.** -/
theorem Step.survives (hs : Step s op r s') (h : Inv s) (hop : op.Creates) (hi : i ∈ s.liveInodes) :
    Survives s s' i := by
  have hsat := exec_made h hs.parents hop
  rw [hs.exec] at hsat
  obtain ⟨type, blocks, hm⟩ := hsat.resolve_left fun ho => not_limits_of_over ho hs.limits
  exact hm.survives h hi

/-- **Creation reuses nothing.** In every state of every run there are at most as many live inodes
as marked blocks, the root among them; the search of `rfs_create` and `rfs_mkdir`, on the disk as
the walk of the path leaves it, finds an inode that is free and not the root; and an operation that
may create leaves the live inodes. -/
theorem creation_reuses_nothing (run : Reachable s) :
    s.liveInodes.card ≤ s.markedBlocks.card ∧ 0 ∈ s.liveInodes ∧
      (∀ s₁, s₁.disk = s.disk → ∃ i s₂,
        freeInodeLoop ninodes 0 s₁ = .ok ((s.disk.dinode i, i), s₂) ∧ i < ninodes ∧ i ≠ 0 ∧
          (s.disk.dinode i).type = R_FREE ∧ s.vinodeHashTable.lookup (.rfs, i) = none) ∧
      ∀ op r s', Step s op r s' → op.Creates → ∀ i ∈ s.liveInodes, Survives s s' i := by
  have h := run.inv
  refine ⟨h.liveInodes_le, ?_, fun s₁ hd => h.freeInodeLoop hd, fun op r s' hs hop i hi =>
    hs.survives h hop hi⟩
  rw [h.mem_liveInodes]
  exact ⟨by decide, dir_type_ne h.good.root⟩

/-- After a file is created: the search does not find its inode. -/
theorem creation_reuses_nothing_one : ∃ s, Reachable s ∧ 1 ∈ s.liveInodes ∧
    s.liveInodes.card ≤ s.markedBlocks.card ∧
    ∃ i s', freeInodeLoop ninodes 0 s = .ok ((s.disk.dinode i, i), s') ∧ i ≠ 0 ∧ i ≠ 1 := by
  have hrun : (runFrom blank [.open pathA (O_CREAT + O_RDWR)]).map
      (fun s => (s.disk.dinode 1).type) = some R_FILE := by decide +kernel
  obtain ⟨s, hs, htype⟩ := Option.map_eq_some_iff.1 hrun
  have hr := reachable_of_runFrom hs
  have hlive : (s.disk.dinode 1).type ≠ R_FREE := by
    rw [htype]
    decide
  obtain ⟨hle, -, hfree, -⟩ := creation_reuses_nothing hr
  obtain ⟨i, s', he, -, h0, hi, -⟩ := hfree s rfl
  refine ⟨s, hr, Finset.mem_filter.2 ⟨by decide, hlive⟩, hle, i, s', he, h0, ?_⟩
  rintro rfl
  exact hlive hi

end HustOS.Fs
