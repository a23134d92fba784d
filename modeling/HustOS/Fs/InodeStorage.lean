import HustOS.Fs.Directory

/-!
# The storage of inodes

The disk inodes share their blocks, 32 in each, and every transfer goes through the buffer of the
RAM disk: an inode is stored by reading its block, changing it and writing it back. The `n`-th inode
is then what `rfs_update_vinode` reads into any vinode with this number, every other inode is read
as before, and the blocks outside the inode area are untouched (`rfsWriteBackVinode_storage`).
-/

namespace HustOS.Fs

open Foundations

variable {s s' : State} {v w m : ℕ} {x y : Vinode}

/-- `rfs_update_vinode` takes the disk inode with the number of the vinode. -/
theorem rfsUpdateVinode_eq (hw : s.vinodes w = some y) (hy : y.inum < ninodes) :
    ∃ s', rfsUpdateVinode s w = .ok s' ∧
      s'.vinodes w = some { y with toDinode := s.disk.dinode y.inum } := by
  rw [rfsUpdateVinode, State.vinode_eq_ok.2 hw, ok_bind, rfsReadDinode_eq hy, ok_bind]
  exact ⟨_, rfl, Function.update_self w _ _⟩

/-- Storing an inode leaves the blocks outside the inode area alone. -/
theorem setDinode_outside {d : Disk} {n c : ℕ} {z : Dinode} (hn : n < ninodes)
    (hc : c < RFS_BLK_OFFSET_INODE ∨ RFS_BLK_OFFSET_BITMAP ≤ c) : d.setDinode n z c = d c := by
  rcases hc with hc | hc
  · have hle : RFS_BLK_OFFSET_INODE ≤ dinodeBlock n := Nat.le_add_left _ _
    exact Function.update_of_ne (hc.trans_le hle).ne _ _
  · exact Disk.setDinode_apply hn hc

/-- **Inode storage.** After `rfs_write_back_vinode` of a vinode, `rfs_update_vinode` of any vinode
with its number takes the same fields from the disk, every other disk inode is read as before, and
the blocks outside the inode area are those of before. -/
theorem rfsWriteBackVinode_storage (s : State) (v : ℕ) (x : Vinode) (hv : s.vinodes v = some x)
    (hx : x.toDinode.Fits) (hn : x.inum < ninodes) :
    ∃ s', rfsWriteBackVinode s v = .ok s' ∧
      (∀ t w y, t.disk = s'.disk → t.vinodes w = some y → y.inum = x.inum →
        ∃ t', rfsUpdateVinode t w = .ok t' ∧
          t'.vinodes w = some { y with toDinode := x.toDinode }) ∧
      (∀ m < ninodes, m ≠ x.inum → ∃ z t t',
        rfsReadDinode s m = .ok (z, t) ∧ rfsReadDinode s' m = .ok (z, t')) ∧
      ∀ c, c < RFS_BLK_OFFSET_INODE ∨ RFS_BLK_OFFSET_BITMAP ≤ c → s'.disk c = s.disk c := by
  obtain ⟨buf, hwrite⟩ := rfsWriteBackVinode_eq hv hn
  refine ⟨_, hwrite, fun t w y hdisk hw hy => ?_, fun m hm hne => ?_, fun c hc => ?_⟩
  · obtain ⟨t', hupdate, hread⟩ := rfsUpdateVinode_eq hw (hy ▸ hn)
    refine ⟨t', hupdate, ?_⟩
    have hsame : t.disk.dinode y.inum = x.toDinode := by
      rw [hdisk, hy]
      exact Disk.dinode_setDinode hx
    rw [hread, hsame]
  · have hsame : (s.disk.setDinode x.inum x.toDinode).dinode m = s.disk.dinode m :=
      Disk.dinode_setDinode_of_ne hne
    rw [rfsReadDinode_eq hm, rfsReadDinode_eq hm]
    exact ⟨_, _, _, rfl, by rw [hsame]⟩
  · exact setDinode_outside hn hc

/-- The inode 37, whose block has the inodes 32 to 63. -/
theorem rfsWriteBackVinode_storage_shared :
    let x : Vinode :=
      { size := 5000, type := FILE_I, nlinks := 2, blocks := 2,
        addrs := fun k => if k < 10 then 20 + k else 0, inum := 37, ref := 1, iFsInfo := none,
        sb := .rfs }
    ∃ s', rfsWriteBackVinode (emptyRoot.setVinode 3 x) 3 = .ok s' ∧
      s'.disk RFS_BLK_OFFSET_BITMAP = emptyRoot.disk RFS_BLK_OFFSET_BITMAP := by
  intro x
  have hx : x.toDinode.Fits := by
    refine ⟨by decide, by decide, by decide, by decide, fun k => ?_, fun k hk => if_neg ?_⟩
    · simp only [x]
      split <;> omega
    · exact Nat.not_lt.2 hk
  have hv : (emptyRoot.setVinode 3 x).vinodes 3 = some x := by
    simp [State.setVinode]
  obtain ⟨s', hwrite, -, -, hout⟩ := rfsWriteBackVinode_storage (emptyRoot.setVinode 3 x) 3 x hv hx
    (by decide)
  exact ⟨s', hwrite, hout _ (.inr le_rfl)⟩

end HustOS.Fs
