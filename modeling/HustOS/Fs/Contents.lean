import HustOS.Fs.Safety

/-!
# The contents of files

The frame rule of the file system: a transition leaves the size and the bytes of a file alone,
unless its tag says that it writes the file or removes it (`Trans.sameFile`). All transitions go
through one buffer and one bitmap, so the rule rests on the blocks of the inodes being distinct.
-/

namespace HustOS.Fs

open Foundations

variable {s s' s'' : State} {op : Op} {r : Ret} {tag : Tag} {d vd i j v b : ℕ} {x : Dinode}
  {y z : Vinode} {P : Tag → Prop}

/-- The contents of a file: the bytes up to its size, from the blocks of its latest inode. -/
def State.content (s : State) (i : ℕ) : List UInt8 :=
  (List.range (s.cur i).size).map fun k =>
    s.disk ((s.cur i).addrs (k / RFS_BLKSIZE)) (k % RFS_BLKSIZE)

/-- The file `i` has the same size and the same blocks with the same bytes. -/
structure SameFile (s s' : State) (i : ℕ) : Prop where
  type : (s'.vol.node i).type = (s.vol.node i).type
  size : (s'.vol.node i).size = (s.vol.node i).size
  blks : (s'.vol.node i).blks = (s.vol.node i).blks
  data : ∀ b ∈ (s.vol.node i).blks, s'.disk b = s.disk b

namespace SameFile

theorem refl (s : State) (i : ℕ) : SameFile s s i := ⟨rfl, rfl, rfl, fun _ _ => rfl⟩

theorem trans (h : SameFile s s' i) (h' : SameFile s' s'' i) : SameFile s s'' i :=
  ⟨h'.type.trans h.type, h'.size.trans h.size, h'.blks.trans h.blks, fun b hb =>
    (h'.data b (h.blks ▸ hb)).trans (h.data b hb)⟩

theorem of_node (hn : s'.vol.node i = s.vol.node i)
    (hd : ∀ b ∈ (s.vol.node i).blks, s'.disk b = s.disk b) : SameFile s s' i := by
  refine ⟨?_, ?_, ?_, hd⟩
  · rw [hn]
  · rw [hn]
  · rw [hn]

end SameFile

/-- The blocks of a file are data blocks. -/
theorem Inv.isData_of_file (h : Inv s) (hi : (s.vol.node i).type = FILE_I)
    (hb : b ∈ (s.vol.node i).blks) : IsData b :=
  h.good.data b (h.good.owned.mem i (h.good.isFile hi).inUse b hb)

/-- Blocks of different inodes are different. -/
theorem Inv.block_disjoint (h : Inv s) (hi : s.vol.InUse i) (hj : s.vol.InUse j) (hne : i ≠ j)
    {c : ℕ} (hb : b ∈ (s.vol.node i).blks) (hc : c ∈ (s.vol.node j).blks) : b ≠ c := by
  rintro rfl
  exact h.good.owned.disjoint i j hi hj hne b hb hc

/-- A change of a directory and of the inode `j` leaves the files alone; also `j` when its size and
blocks stay. -/
theorem Edited.sameFile {es : List (Name × ℕ)} (he : Edited s s' d vd j y es x) (h : Inv s)
    (hi : (s.vol.node i).type = FILE_I)
    (hj : i = j → x.type = (s.vol.node j).type ∧ x.size = (s.vol.node j).size ∧
      x.blks = (s.vol.node j).blks) : SameFile s s' i := by
  have hvol := he.vol_edit h
  have hid : i ≠ d := by
    rintro rfl
    exact absurd (hi.symm.trans he.type) (by decide)
  have hdata : ∀ b ∈ (s.vol.node i).blks, s'.disk b = s.disk b := fun b hb => by
    refine he.block b (h.isData_of_file hi hb) ?_
    have hdir := h.good.isDir he.type
    refine h.block_disjoint (h.good.isFile hi).inUse hdir.inUse hid hb ?_
    rw [h.node_eq he.dir] at hdir ⊢
    exact Dinode.mem_blks.2 ⟨0, by rw [hdir.blocks]; decide, rfl⟩
  by_cases hij : i = j
  · obtain ⟨htype, hsize, hblks⟩ := hj hij
    have hnode : s'.vol.node i = x := by
      rw [hvol, hij]
      exact Edit.node_self
    refine ⟨?_, ?_, ?_, hdata⟩
    · rw [hnode, htype, hij]
    · rw [hnode, hsize, hij]
    · rw [hnode, hblks, hij]
  · refine SameFile.of_node ?_ hdata
    rw [hvol]
    exact Edit.node_other hij hid

/-- **The frame rule.** A transition leaves a file alone that it neither writes nor removes. -/
theorem Trans.sameFile (ht : Trans s tag s') (h : Inv s) (hi : (s.vol.node i).type = FILE_I)
    (hw : tag ≠ .writes i) (hf : tag ≠ .frees i) : SameFile s s' i := by
  have hq : tag = .quiet → SameFile s s' i := by
    rintro rfl
    have hq := ht.quiet h
    exact SameFile.of_node (by rw [hq.vol]) fun b _ => by rw [hq.disk]
  cases ht with
  | scratch | load | enter | leave | openFile | seek | cacheDir => exact hq rfl
  | closeFile file hashed => exact .of_node rfl fun _ _ => rfl
  | evict node file ref disk =>
    refine .of_node (by rw [h.vol_evict node disk]) fun b hb => ?_
    exact disk.block b (h.isData_of_file hi hb)
  | make making =>
    refine (making.edited h).sameFile h hi ?_
    rintro rfl
    exact absurd (h.good.isFile hi).inUse (making.free h).2
  | link linking =>
    refine (linking.edited h).sameFile h hi fun _ => ?_
    rw [h.node_eq linking.node]
    exact ⟨rfl, rfl, rfl⟩
  | unlink unlinking =>
    refine (unlinking.edited h).sameFile h hi fun _ => ?_
    rw [h.node_eq unlinking.node]
    exact ⟨rfl, rfl, rfl⟩
  | remove removing =>
    refine (removing.edited h).sameFile h hi ?_
    rintro rfl
    exact absurd rfl hf
  | @write j v b z buf node file mem =>
    have hne : i ≠ j := by
      rintro rfl
      exact hw rfl
    refine .of_node (by rw [(h.vol_write buf node file mem).2]) fun c hc => ?_
    refine Function.update_of_ne ?_ _ _
    refine h.block_disjoint (h.good.isFile hi).inUse (h.paths.inUse j v z node) hne hc ?_
    rw [h.node_eq node]
    exact mem
  | @grow j v k z node file opened blocks lt unused =>
    have hne : i ≠ j := by
      rintro rfl
      exact hw rfl
    exact .of_node (h.node_update node rfl rfl rfl hne) fun _ _ => rfl
  | @resize j v size z node file opened le =>
    have hne : i ≠ j := by
      rintro rfl
      exact hw rfl
    exact .of_node (h.node_update node rfl rfl rfl hne) fun _ _ => rfl

/-- A sequence of transitions leaves a file alone that none of them writes or removes. -/
theorem Steps.sameFile (hs : Steps P s s') (h : Inv s) (hi : (s.vol.node i).type = FILE_I)
    (hw : ¬ P (.writes i)) (hf : ¬ P (.frees i)) : SameFile s s' i := by
  have hboth : Inv s' ∧ SameFile s s' i := by
    refine hs.keeps (I := fun s' => Inv s' ∧ SameFile s s' i) ⟨h, .refl s i⟩ ?_
    rintro s₁ s₂ tag htag ht ⟨h₁, hsame⟩
    refine ⟨ht.inv h₁, hsame.trans (ht.sameFile h₁ (hsame.type.trans hi) ?_ ?_)⟩
    · rintro rfl
      exact hw htag
    · rintro rfl
      exact hf htag
  exact hboth.2

theorem getElem?_blks {m : ℕ} (hm : m < x.blocks) : x.blks[m]? = some (x.addrs m) := by
  rw [Dinode.blks, List.getElem?_map, List.getElem?_range hm, Option.map_some]

theorem length_blks : x.blks.length = x.blocks := by
  rw [Dinode.blks, List.length_map, List.length_range]

/-- A file with the same blocks has the same contents. -/
theorem SameFile.content (h : SameFile s s' i) (hs : Inv s) (hi : (s.vol.node i).type = FILE_I)
    (hlt : i < ninodes) : s'.content i = s.content i := by
  have hcur : s.cur i = s.vol.node i := (node_of_lt hlt).symm
  have hcur' : s'.cur i = s'.vol.node i := (node_of_lt hlt).symm
  have hfile := hs.good.isFile hi
  unfold State.content
  rw [hcur, hcur', h.size]
  refine List.map_congr_left fun k hk => ?_
  have hblock : k / RFS_BLKSIZE < (s.vol.node i).blocks := by
    have h₁ := List.mem_range.1 hk
    have h₂ := hfile.size_le
    exact Nat.div_lt_of_lt_mul (h₁.trans_le h₂)
  have haddr : (s'.vol.node i).addrs (k / RFS_BLKSIZE) =
      (s.vol.node i).addrs (k / RFS_BLKSIZE) := by
    have hblock' : k / RFS_BLKSIZE < (s'.vol.node i).blocks := by
      rwa [← length_blks, h.blks, length_blks]
    have heq := getElem?_blks hblock'
    rw [h.blks, getElem?_blks hblock] at heq
    exact (Option.some.inj heq).symm
  rw [haddr, h.data _ (Dinode.mem_blks.2 ⟨_, hblock, rfl⟩)]

end HustOS.Fs
