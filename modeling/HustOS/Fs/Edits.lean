import HustOS.Fs.Caches

/-!
# The directories and the contents of files

The transitions of the directories are changes of a directory and an inode (`vol_edit`), those of
the contents change a file. With the transitions of the caches, every transition keeps the invariant
(`Trans.inv`).
-/

namespace HustOS.Fs

open Foundations

variable {s s' : State} {t p d v w i j b k vd : ℕ} {e : Dentry} {x : Dinode} {y z l : Vinode}
  {n : Name} {V : Vol} {used' : Finset ℕ}

/-! ## Directories -/

theorem edit_type {es : List (Name × ℕ)} (hne : i ≠ d) (k : ℕ) :
    ((V.edit d i es x used').node k).type = if k = i then x.type else (V.node k).type := by
  by_cases hki : k = i
  · subst hki
    rw [if_pos rfl, Edit.node_self]
  · rw [if_neg hki]
    by_cases hkd : k = d
    · subst hkd
      unfold Vol.edit
      dsimp only
      rw [Function.update_of_ne hki, Function.update_self]
    · rw [Edit.node_other hki hkd]

/-- A directory in the cache. -/
theorem Inv.dir_of_cached (h : Inv s) (hy : Cached s d vd y) (hd : (s.vol.node d).type = DIR_I) :
    IsDir y.toDinode ∧ y.size = 32 * (s.vol.dir d).length ∧
      s.vol.dir d = dirList s.disk y.toDinode := by
  have hnode := h.node_eq hy
  have hdir := h.good.isDir hd
  have hsize := h.good.size d hd
  rw [hnode] at hdir hsize
  refine ⟨hdir, hsize, ?_⟩
  change (if (s.vol.node d).type = DIR_I then dirList s.disk (s.vol.node d) else []) = _
  rw [if_pos hd, hnode]

/-- The block of a directory is no other directory's. -/
theorem Inv.block_ne (h : Inv s) (hd : (s.vol.node d).type = DIR_I)
    (hk : (s.vol.node k).type = DIR_I) (hne : k ≠ d) :
    (s.vol.node k).addrs 0 ≠ (s.vol.node d).addrs 0 := by
  have hmem : ∀ {i}, (s.vol.node i).type = DIR_I → (s.vol.node i).addrs 0 ∈ (s.vol.node i).blks :=
    fun hi => Dinode.mem_blks.2 ⟨0, by rw [(h.good.isDir hi).blocks]; decide, rfl⟩
  intro heq
  refine h.good.owned.disjoint k d (dir_type_ne hk) (dir_type_ne hd) hne _ (hmem hk) ?_
  rw [heq]
  exact hmem hd

/-- The state `s'` has the new entries `es` in the directory `d` and the new value `x` of the inode
`i`, and is otherwise like `s`. -/
structure Edited (s s' : State) (d vd i : ℕ) (y : Vinode) (es : List (Name × ℕ)) (x : Dinode) :
    Prop where
  dir : Cached s d vd y
  type : (s.vol.node d).type = DIR_I
  ne : i ≠ d
  node : s'.node i = x
  nil : s.vol.dir i = []
  empty : x.type = DIR_I → x.size = 0
  dirHash : s'.vinodeHashTable.lookup (.rfs, d) = some vd
  dirNode : s'.vinodes vd = some { y with size := 32 * es.length }
  hash : ∀ k, k ≠ i → s'.vinodeHashTable.lookup (.rfs, k) = s.vinodeHashTable.lookup (.rfs, k)
  vinodes : ∀ k u z, k ≠ i → k ≠ d → Cached s k u z → s'.vinodes u = some z
  dinode : ∀ k < ninodes, k ≠ i → k ≠ d → s'.disk.dinode k = s.disk.dinode k
  dirDinode : s'.disk.dinode d = { y.toDinode with size := 32 * es.length }
  entries : dirList s'.disk { y.toDinode with size := 32 * es.length } = es
  block : ∀ b, IsData b → b ≠ y.addrs 0 → s'.disk b = s.disk b

namespace Edited

variable {es : List (Name × ℕ)} (he : Edited s s' d vd i y es x) (h : Inv s)

include he h

/-- The volume of such a state. -/
theorem vol_edit : s'.vol = s.vol.edit d i es x s'.vol.used := by
  have hdn : s.node d = y.toDinode := h.node_eq he.dir
  have hdn' : s'.node d = { y.toDinode with size := 32 * es.length } := by
    rw [node_of_lt (h.lt he.dir)]
    exact Cached.cur ⟨he.dirHash, he.dirNode⟩
  have hother : ∀ k, k ≠ i → k ≠ d → s'.node k = s.node k := fun k hki hkd => by
    refine node_congr (he.hash k hki) (fun u hu => ?_) fun hlt => he.dinode k hlt hki hkd
    obtain ⟨z, hz⟩ := h.tables.cached hu
    rw [he.vinodes k u z hki hkd hz, hz.vinode]
  have htype : y.type = DIR_I := (congrArg Dinode.type hdn).symm.trans he.type
  refine Vol.ext (funext fun k => ?_) (funext fun k => ?_) rfl
  · change s'.node k = Function.update (Function.update s.node d _) i x k
    by_cases hki : k = i
    · rw [hki, Function.update_self, he.node]
    · rw [Function.update_of_ne hki]
      by_cases hkd : k = d
      · rw [hkd, Function.update_self, hdn']
        exact (congrArg (fun z : Dinode => { z with size := 32 * es.length }) hdn).symm
      · rw [Function.update_of_ne hkd, hother k hki hkd]
  · change (if (s'.node k).type = DIR_I then dirList s'.disk (s'.node k) else []) =
      Function.update s.vol.dir d es k
    by_cases hkd : k = d
    · rw [hkd, Function.update_self, hdn', if_pos htype, he.entries]
    · rw [Function.update_of_ne hkd]
      by_cases hki : k = i
      · rw [hki, he.nil, he.node]
        split
        · rename_i hx
          rw [← List.length_eq_zero_iff, length_dirList, he.empty hx]
        · rfl
      · rw [hother k hki hkd]
        change _ = if (s.node k).type = DIR_I then dirList s.disk (s.node k) else []
        split
        · rename_i hk
          have hdirk : IsDir (s.node k) := h.good.isDir hk
          have hne : (s.node k).addrs 0 ≠ y.addrs 0 := by
            have := h.block_ne he.type hk hkd
            rwa [h.node_eq he.dir] at this
          rw [dirList_eq hdirk.size_le, dirList_eq hdirk.size_le,
            he.block _ hdirk.data hne]
        · rfl

/-- The disk inodes of the other vinodes in the table. -/
theorem sync (hi : ∀ u z, Cached s' i u z → Behind (s'.disk.dinode i) z.toDinode) :
    Sync s' := by
  intro k u z hz
  by_cases hki : k = i
  · subst hki
    exact hi u z hz
  · by_cases hkd : k = d
    · subst hkd
      obtain ⟨rfl, rfl⟩ := hz.unique ⟨he.dirHash, he.dirNode⟩
      rw [he.dirDinode]
      exact ⟨rfl, rfl, Nat.le_refl _, fun _ _ => rfl, fun _ => rfl⟩
    · have hk : s.vinodeHashTable.lookup (.rfs, k) = some u := (he.hash k hki).symm.trans hz.hash
      obtain ⟨z', hz'⟩ := h.tables.cached hk
      obtain rfl := Option.some.inj ((he.vinodes k u z' hki hkd hz').symm.trans hz.vinode)
      rw [he.dinode k (h.lt hz') hki hkd]
      exact h.sync k u z' hz'

end Edited

/-- A directory change that keeps the tables. -/
theorem Edited.inv {es : List (Name × ℕ)} (he : Edited s s' d vd i y es x) (h : Inv s)
    (hs : SameTables s s') (hd : s'.dentries = s.dentries) (hf : s'.files = s.files)
    (hgood : Good (s.vol.edit d i es x s'.vol.used)) (hx : x.type ≠ R_FREE)
    (hi : x.type = DIR_I → ¬ s.vol.InUse i)
    (hmem : ∀ t e v i x p, Hashed s t e v → Cached s i v x → e.parent = some p →
      DentryOf s p d → (e.name, i) ∈ s.vol.dir d → (e.name, i) ∈ es)
    (hsync : ∀ u z, Cached s' i u z → Behind (s'.disk.dinode i) z.toDinode) : Inv s' := by
  have hvol := he.vol_edit h
  refine ⟨hvol ▸ hgood, hs.tables h.tables (hs.filesOk h.tables hd hf), ?_, he.sync h hsync,
    hs.sb ▸ h.nblocks⟩
  rw [hvol]
  refine hs.paths h.paths
    (fun k hk => ?_) (fun k hk hkd => ?_) fun t e v k z p d' ht hz hp hd' hm => ?_
  · rw [Vol.InUse, edit_type he.ne]
    split
    · exact hx
    · exact hk
  · rw [edit_type he.ne] at hkd
    split at hkd
    · rename_i hki
      exact absurd (hki ▸ hk) (hi hkd)
    · exact hkd
  · by_cases hdd : d' = d
    · subst hdd
      rw [Edit.dir_self]
      exact hmem t e v k z p ht hz hp hd' hm
    · rw [Edit.dir_other hdd]
      exact hm

/-- A disk inode that is free has no vinode in the table, and is not in use. -/
theorem Inv.free_dinode (h : Inv s) (hi : i < ninodes) (hf : (s.disk.dinode i).type = R_FREE) :
    s.vinodeHashTable.lookup (.rfs, i) = none ∧ ¬ s.vol.InUse i := by
  have hnone : s.vinodeHashTable.lookup (.rfs, i) = none := by
    by_contra hne
    obtain ⟨v, hv⟩ := Option.ne_none_iff_exists'.1 hne
    obtain ⟨x, hc⟩ := h.tables.cached hv
    have huse := h.paths.inUse i v x hc
    rw [Vol.InUse, h.node_eq hc, ← (h.sync i v x hc).type] at huse
    exact huse hf
  refine ⟨hnone, fun huse => ?_⟩
  rw [Vol.InUse] at huse
  change (s.node i).type ≠ R_FREE at huse
  rw [node_of_lt hi, cur_of_none hnone] at huse
  exact huse hf

theorem mem_used : b ∈ s.vol.used ↔ IsData b ∧ s.freemap (b - RFS_BLK_OFFSET_FREE) ≠ 0 := by
  change b ∈ Finset.filter _ _ ↔ _
  rw [Finset.mem_filter, Finset.mem_Ico]
  rfl

/-- The blocks in use after an allocation. -/
theorem used_alloc (hk : k < dataBlocks) (hf : s'.freemap = Function.update s.freemap k 1) :
    s'.vol.used = insert (RFS_BLK_OFFSET_FREE + k) s.vol.used := by
  ext b
  rw [Finset.mem_insert, mem_used, mem_used, hf]
  by_cases hb : b - RFS_BLK_OFFSET_FREE = k
  · rw [hb, Function.update_self]
    constructor
    · rintro ⟨⟨h₁, -⟩, -⟩
      left
      omega
    · rintro (rfl | ⟨h₁, -⟩)
      · exact ⟨⟨by omega, by omega⟩, by omega⟩
      · exact ⟨h₁, by omega⟩
  · rw [Function.update_of_ne hb]
    constructor
    · exact fun h => .inr h
    · rintro (rfl | h)
      · exact absurd (by omega) hb
      · exact h

/-- The entries of a directory with a new one stored behind the last. -/
theorem Inv.dirList_put (h : Inv s) (hy : Cached s d vd y) (hr : Room s.vol d n) (hi : i < 2 ^ 32)
    {d' : Disk} (hd : d' (y.addrs 0) = putEntry (s.disk (y.addrs 0)) y.size n i) :
    y.size + 32 = 32 * (s.vol.dir d ++ [(n, i)]).length ∧
      dirList d' { y.toDinode with size := 32 * (s.vol.dir d ++ [(n, i)]).length } =
        s.vol.dir d ++ [(n, i)] := by
  obtain ⟨-, hsize, hlist⟩ := h.dir_of_cached hy hr.dir
  have hlen : (s.vol.dir d ++ [(n, i)]).length = (s.vol.dir d).length + 1 := by
    rw [List.length_append, List.length_singleton]
  refine ⟨by rw [hlen, hsize]; omega, ?_⟩
  rw [hlen]
  conv_rhs => rw [hlist]
  refine dirList_append hr.length_lt hsize rfl hr.valid hi ?_
  rw [← hsize]
  exact hd

namespace Making

variable {d' : Disk} (hm : Making s d vd y i k n x d') (h : Inv s)

include hm h

/-- The inode is not in use and not in the cache. -/
theorem free : s.vinodeHashTable.lookup (.rfs, i) = none ∧ ¬ s.vol.InUse i :=
  h.free_dinode hm.fresh.inum_lt hm.fresh.free

theorem edited : Edited s (s.make vd y k d') d vd i y (s.vol.dir d ++ [(n, i)]) x := by
  obtain ⟨hnone, hfree⟩ := hm.free h
  obtain ⟨hdir, -, -⟩ := h.dir_of_cached hm.dir hm.room.dir
  have hne : i ≠ d := by
    rintro rfl
    exact hfree (dir_type_ne hm.room.dir)
  have hput : d' (y.addrs 0) = putEntry (s.disk (y.addrs 0)) y.size n i :=
    (hm.disk.block _ hdir.data).trans (Function.update_self _ _ _)
  have hlt := hm.fresh.inum_lt
  obtain ⟨hlen, hes⟩ := h.dirList_put hm.dir hm.room (hlt.trans (by decide)) hput
  have hnone' : (s.make vd y k d').vinodeHashTable.lookup (.rfs, i) = none := hnone
  exact {
    dir := hm.dir
    type := hm.room.dir
    ne := hne
    node := by
      rw [node_of_lt hlt, cur_of_none hnone']
      exact (hm.disk.node i hlt).trans
        ((Function.update_of_ne hne _ _).trans (Function.update_self _ _ _))
    nil := h.good.nil i fun hi => hfree (dir_type_ne hi)
    empty := fun _ => by rcases hm.new with rfl | rfl <;> rfl
    dirHash := hm.dir.hash
    dirNode := by
      rw [← hlen]
      exact Function.update_self _ _ _
    hash := fun _ _ => rfl
    vinodes := fun k' u z _ hk' hz => by
      refine (Function.update_of_ne ?_ _ _).trans hz.vinode
      rintro rfl
      exact hk' (h.tables.cached_inj hm.dir hz).1
    dinode := fun k' hlt hki hkd => (hm.disk.node k' hlt).trans
      ((Function.update_of_ne hkd _ _).trans (Function.update_of_ne hki _ _))
    dirDinode := by
      rw [← hlen]
      exact (hm.disk.node d (h.lt hm.dir)).trans (Function.update_self _ _ _)
    entries := hes
    block := fun b hb hne => (hm.disk.block b hb).trans (Function.update_of_ne hne _ _) }

omit h in
theorem inUse : x.type ≠ R_FREE := by
  rcases hm.new with rfl | rfl
  · exact (by decide : R_FILE ≠ R_FREE)
  · exact (by decide : R_DIR ≠ R_FREE)

theorem good : Good (s.vol.make d n i (RFS_BLK_OFFSET_FREE + k) x) := by
  have hkd : k < dataBlocks := h.nblocks ▸ hm.fresh.block_lt
  have hb : IsData (RFS_BLK_OFFSET_FREE + k) := ⟨by omega, by omega⟩
  have hbu : RFS_BLK_OFFSET_FREE + k ∉ s.vol.used := fun hmem => by
    have := (mem_used.1 hmem).2
    rw [Nat.add_sub_cancel_left] at this
    exact this hm.fresh.unused
  have hfits : x.Fits := by
    have hk : 12 + k < 2 ^ 32 := hb.lt_count.trans (by decide)
    rcases hm.new with rfl | rfl
    · exact fits_madeNode (s.disk.fits_dinode i) (by decide) (by decide) hk
    · exact fits_madeNode (s.disk.fits_dinode i) (by decide) (by decide) hk
  refine h.good.make hm.room hm.fresh.inum_lt (hm.free h).2 hb hbu hfits ?_ ?_ ?_
  · rcases hm.new with rfl | rfl <;> rfl
  · rcases hm.new with rfl | rfl <;> rfl
  · rcases hm.new with rfl | rfl
    · exact .inl ⟨rfl, rfl⟩
    · exact .inr ⟨rfl, rfl, by simp [madeNode]⟩

theorem inv : Inv (s.make vd y k d') := by
  have hkey : Vinode.key { y with size := y.size + 32 } = y.key := rfl
  have hused : (s.make vd y k d').vol.used = insert (RFS_BLK_OFFSET_FREE + k) s.vol.used :=
    used_alloc (h.nblocks ▸ hm.fresh.block_lt) rfl
  refine (hm.edited h).inv h
    ⟨fun _ => rfl, map_key_update hm.dir.vinode hkey, rfl, rfl, rfl, rfl, Nat.le_refl _⟩
    rfl rfl ?_ hm.inUse (fun _ => (hm.free h).2)
    (fun t e v j z p _ _ _ _ hm => List.mem_append_left _ hm) fun u z hz => ?_
  · rw [hused]
    exact hm.good h
  · have := (hm.free h).1.symm.trans hz.hash
    cases this

end Making

/-- A file in the cache, next to a directory. -/
theorem Inv.file_ne_dir (h : Inv s) (hy : Cached s d vd y) (hd : (s.vol.node d).type = DIR_I)
    (hl : Cached s j w l) (hf : l.type = FILE_I) :
    j ≠ d ∧ w ≠ vd ∧ (s.vol.node j).type = FILE_I ∧ s.vol.dir j = [] := by
  have hj : (s.vol.node j).type = FILE_I := by
    rw [h.node_eq hl]
    exact hf
  have hne : j ≠ d := by
    rintro rfl
    exact absurd (hj.symm.trans hd) (by decide)
  refine ⟨hne, ?_, hj, h.good.nil j fun hj' => absurd (hj.symm.trans hj') (by decide)⟩
  rintro rfl
  exact hne (h.tables.cached_inj hy hl).1

namespace Linking

variable {d' : Disk} (hl : Linking s d vd y j w l n d') (h : Inv s)

include hl h

theorem cached : Cached (s.link vd y w l d') j w { l with nlinks := l.nlinks + 1 } := by
  obtain ⟨-, hw, -⟩ := h.file_ne_dir hl.dir hl.room.dir hl.node hl.file
  exact ⟨hl.node.hash, (Function.update_of_ne hw _ _).trans (Function.update_self _ _ _)⟩

theorem edited : Edited s (s.link vd y w l d') d vd j y (s.vol.dir d ++ [(n, j)])
    { l.toDinode with nlinks := l.nlinks + 1 } := by
  obtain ⟨hne, hw, hj, hnil⟩ := h.file_ne_dir hl.dir hl.room.dir hl.node hl.file
  obtain ⟨hdir, -, -⟩ := h.dir_of_cached hl.dir hl.room.dir
  have hput : d' (y.addrs 0) = putEntry (s.disk (y.addrs 0)) y.size n j :=
    (hl.disk.block _ hdir.data).trans (Function.update_self _ _ _)
  have hlt := h.lt hl.node
  obtain ⟨hlen, hes⟩ := h.dirList_put hl.dir hl.room (hlt.trans (by decide)) hput
  exact {
    dir := hl.dir
    type := hl.room.dir
    ne := hne
    node := by
      rw [node_of_lt hlt]
      exact (hl.cached h).cur
    nil := hnil
    empty := fun ht => absurd (hl.file.symm.trans ht) (by decide)
    dirHash := hl.dir.hash
    dirNode := by
      rw [← hlen]
      exact Function.update_self _ _ _
    hash := fun _ _ => rfl
    vinodes := fun k' u z hk hk' hz => by
      refine (Function.update_of_ne ?_ _ _).trans ((Function.update_of_ne ?_ _ _).trans hz.vinode)
      · rintro rfl
        exact hk' (h.tables.cached_inj hl.dir hz).1
      · rintro rfl
        exact hk (h.tables.cached_inj hl.node hz).1
    dinode := fun k' hlt hki hkd => (hl.disk.node k' hlt).trans
      ((Function.update_of_ne hki _ _).trans (Function.update_of_ne hkd _ _))
    dirDinode := by
      rw [← hlen]
      exact (hl.disk.node d (h.lt hl.dir)).trans
        ((Function.update_of_ne hne.symm _ _).trans (Function.update_self _ _ _))
    entries := hes
    block := fun b hb hne => (hl.disk.block b hb).trans (Function.update_of_ne hne _ _) }

theorem inv : Inv (s.link vd y w l d') := by
  obtain ⟨-, hw, hj, -⟩ := h.file_ne_dir hl.dir hl.room.dir hl.node hl.file
  have hkey : Vinode.key { y with size := y.size + 32 } = y.key := rfl
  have hkey' : Vinode.key { l with nlinks := l.nlinks + 1 } = l.key := rfl
  have hvinodes : ∀ u, ((s.link vd y w l d').vinodes u).map Vinode.key =
      (s.vinodes u).map Vinode.key := fun u =>
    (map_key_update ((Function.update_of_ne hw.symm _ _).trans hl.dir.vinode) hkey u).trans
      (map_key_update hl.node.vinode hkey' u)
  refine (hl.edited h).inv h ⟨fun _ => rfl, hvinodes, rfl, rfl, rfl, rfl, Nat.le_refl _⟩ rfl rfl ?_
    ?_ (fun ht => absurd (hl.file.symm.trans ht) (by decide))
    (fun t e v j z p _ _ _ _ hm => List.mem_append_left _ hm) fun u z hz => ?_
  · have := h.good.link hl.room hj
    rw [Vol.link, h.node_eq hl.node] at this
    exact this
  · change l.type ≠ R_FREE
    rw [hl.file]
    decide
  · obtain ⟨rfl, rfl⟩ := (hl.cached h).unique hz
    have hdj : (s.link vd y u l d').disk.dinode j = { l.toDinode with nlinks := l.nlinks + 1 } :=
      (hl.disk.node j (h.lt hl.node)).trans (Function.update_self _ _ _)
    rw [hdj]
    exact ⟨rfl, rfl, Nat.le_refl _, fun _ _ => rfl, fun _ => rfl⟩

end Linking

/-- The entries of a directory with one removed. -/
theorem Inv.dirList_drop (h : Inv s) (hy : Cached s d vd y) (hd : (s.vol.node d).type = DIR_I)
    (hk : k < (s.vol.dir d).length)
    {es : List (Name × ℕ)} (hes : (s.vol.dir d).eraseIdx k = es)
    {d' : Disk} (hdrop : d' (y.addrs 0) = dropEntry (s.disk (y.addrs 0)) k) :
    y.size - 32 = 32 * es.length ∧
      dirList d' { y.toDinode with size := 32 * es.length } = es := by
  obtain ⟨-, hsize, hlist⟩ := h.dir_of_cached hy hd
  have hle := h.good.length_le d
  have hlen : es.length + 1 = (s.vol.dir d).length := by
    rw [← hes, List.length_eraseIdx_of_lt hk]
    omega
  refine ⟨by omega, ?_⟩
  rw [hlist] at hes
  rw [← hes]
  have hlen' : ((dirList s.disk y.toDinode).eraseIdx k).length + 1 = (s.vol.dir d).length := by
    rw [hes]
    exact hlen
  refine dirList_eraseIdx (by omega) (by omega) (by omega) rfl hdrop

theorem Behind.mem_blks {x y : Dinode} (h : Behind y x) (hb : b ∈ y.blks) : b ∈ x.blks := by
  obtain ⟨k, hk, rfl⟩ := Dinode.mem_blks.1 hb
  exact Dinode.mem_blks.2 ⟨k, hk.trans_le h.blocks, (h.addrs k hk).symm⟩

namespace Unlinking

variable {d' : Disk} {m : ℕ} (hu : Unlinking s d vd y j w l n m k d') (h : Inv s)

include hu h

theorem cached : Cached (s.unlink vd y w l m d') j w { l with nlinks := m } := by
  obtain ⟨-, hw, -⟩ := h.file_ne_dir hu.dir (h.good.dir_of_mem hu.mem) hu.node hu.file
  exact ⟨hu.node.hash, (Function.update_of_ne hw _ _).trans (Function.update_self _ _ _)⟩

theorem edited : Edited s (s.unlink vd y w l m d') d vd j y ((s.vol.dir d).erase (n, j))
    { l.toDinode with nlinks := m } := by
  have hdt := h.good.dir_of_mem hu.mem
  obtain ⟨hne, hw, hj, hnil⟩ := h.file_ne_dir hu.dir hdt hu.node hu.file
  obtain ⟨hdir, -, -⟩ := h.dir_of_cached hu.dir hdt
  obtain ⟨hlen, hes⟩ := h.dirList_drop hu.dir hdt hu.lt hu.index
    ((hu.disk.block _ hdir.data).trans (Function.update_self _ _ _))
  exact {
    dir := hu.dir
    type := hdt
    ne := hne
    node := by
      rw [node_of_lt (h.lt hu.node)]
      exact (hu.cached h).cur
    nil := hnil
    empty := fun ht => absurd (hu.file.symm.trans ht) (by decide)
    dirHash := hu.dir.hash
    dirNode := by
      rw [← hlen]
      exact Function.update_self _ _ _
    hash := fun _ _ => rfl
    vinodes := fun k' u z hk hk' hz => by
      refine (Function.update_of_ne ?_ _ _).trans ((Function.update_of_ne ?_ _ _).trans hz.vinode)
      · rintro rfl
        exact hk' (h.tables.cached_inj hu.dir hz).1
      · rintro rfl
        exact hk (h.tables.cached_inj hu.node hz).1
    dinode := fun k' hlt hki hkd => (hu.disk.node k' hlt).trans
      ((Function.update_of_ne hkd _ _).trans (Function.update_of_ne hki _ _))
    dirDinode := by
      rw [← hlen]
      exact (hu.disk.node d (h.lt hu.dir)).trans (Function.update_self _ _ _)
    entries := hes
    block := fun b hb hne => (hu.disk.block b hb).trans (Function.update_of_ne hne _ _) }

theorem good : Good (s.vol.unlink d n j { l.toDinode with nlinks := m } ∅) := by
  have hdt := h.good.dir_of_mem hu.mem
  obtain ⟨-, -, hj, -⟩ := h.file_ne_dir hu.dir hdt hu.node hu.file
  have hfit := h.good.fits j
  rw [h.node_eq hu.node] at hfit
  refine h.good.unlink (x := { l.toDinode with nlinks := m }) hu.mem hj
    ⟨hfit.size, hfit.type, ?_, hfit.blocks, hfit.addrs, hfit.past⟩ ?_
    (.inl ⟨hu.file, hu.pos, ?_, ?_, ?_, rfl⟩)
  · have h₁ := hfit.nlinks
    have h₂ := hu.nlinks
    change m < 2 ^ 32
    omega
  · rw [h.node_eq hu.node]
    exact hu.nlinks.symm
  · rw [h.node_eq hu.node]
  · rw [h.node_eq hu.node]
  · rw [h.node_eq hu.node]

theorem inv : Inv (s.unlink vd y w l m d') := by
  have hdt := h.good.dir_of_mem hu.mem
  obtain ⟨hne, hw, hj, -⟩ := h.file_ne_dir hu.dir hdt hu.node hu.file
  have hkey : Vinode.key { y with size := y.size - 32 } = y.key := rfl
  have hkey' : Vinode.key { l with nlinks := m } = l.key := rfl
  have hvinodes : ∀ u, ((s.unlink vd y w l m d').vinodes u).map Vinode.key =
      (s.vinodes u).map Vinode.key := fun u =>
    (map_key_update ((Function.update_of_ne hw.symm _ _).trans hu.dir.vinode) hkey u).trans
      (map_key_update hu.node.vinode hkey' u)
  refine (hu.edited h).inv h ⟨fun _ => rfl, hvinodes, rfl, rfl, rfl, rfl, Nat.le_refl _⟩ rfl rfl ?_
    ?_ (fun ht => absurd (hu.file.symm.trans ht) (by decide))
    (fun t e v i z p ht hz hp hdp hm => ?_)
    fun u z hz => ?_
  · have hused : (s.unlink vd y w l m d').vol.used = s.vol.used \ ∅ := Finset.sdiff_empty.symm
    rw [hused]
    exact hu.good h
  · change l.type ≠ R_FREE
    rw [hu.file]
    decide
  · refine (List.mem_erase_of_ne fun heq => ?_).2 hm
    have hname : e.name = n := congrArg Prod.fst heq
    have hkey := ht.hash
    rw [hp, hname, hu.absent p hdp] at hkey
    cases hkey
  · obtain ⟨rfl, rfl⟩ := (hu.cached h).unique hz
    have hdj : (s.unlink vd y u l m d').disk.dinode j = { s.disk.dinode j with nlinks := m } :=
      (hu.disk.node j (h.lt hu.node)).trans
        ((Function.update_of_ne hne _ _).trans (Function.update_self _ _ _))
    have hb := h.sync j u l hu.node
    rw [hdj]
    exact ⟨hb.type, rfl, hb.blocks, hb.addrs, fun ht => absurd (hu.file.symm.trans ht) (by decide)⟩

end Unlinking

/-- The blocks in use after some are freed. -/
theorem used_free {bs : List ℕ} (hf : s'.freemap = fun k =>
      if RFS_BLK_OFFSET_FREE + k ∈ bs then 0 else s.freemap k) :
    s'.vol.used = s.vol.used \ bs.toFinset := by
  ext b
  rw [Finset.mem_sdiff, mem_used, mem_used, hf, List.mem_toFinset]
  by_cases hb : IsData b
  · have hb' : RFS_BLK_OFFSET_FREE + (b - RFS_BLK_OFFSET_FREE) = b := Nat.add_sub_cancel' hb.1
    by_cases hmem : b ∈ bs
    · simp [hb', hmem]
    · simp [hb', hmem]
  · simp [hb]

namespace Removing

variable {d' : Disk} (hr : Removing s d vd y j w l n k d') (h : Inv s)

include hr h

omit hr h in
theorem lookup (k : ℕ) : (s.remove vd y j w d').vinodeHashTable.lookup (.rfs, k) =
    if k = j then none else s.vinodeHashTable.lookup (.rfs, k) := by
  refine (lookup_erase_eq _ _ _).trans ?_
  simp only [Prod.mk.injEq, true_and]

theorem edited : Edited s (s.remove vd y j w d') d vd j y ((s.vol.dir d).erase (n, j))
    { s.disk.dinode j with nlinks := 0, type := R_FREE } := by
  have hdt := h.good.dir_of_mem hr.mem
  obtain ⟨hne, hw, hj, hnil⟩ := h.file_ne_dir hr.dir hdt hr.node hr.file
  obtain ⟨hdir, -, -⟩ := h.dir_of_cached hr.dir hdt
  obtain ⟨hlen, hes⟩ := h.dirList_drop hr.dir hdt hr.lt hr.index
    ((hr.disk.block _ hdir.data).trans (Function.update_self _ _ _))
  exact {
    dir := hr.dir
    type := hdt
    ne := hne
    node := by
      rw [node_of_lt (h.lt hr.node), cur_of_none (by rw [lookup, if_pos rfl])]
      exact (hr.disk.node j (h.lt hr.node)).trans
        ((Function.update_of_ne hne _ _).trans (Function.update_self _ _ _))
    nil := hnil
    empty := fun ht => absurd ht (by decide : R_FREE ≠ DIR_I)
    dirHash := by rw [lookup, if_neg hne.symm, hr.dir.hash]
    dirNode := by
      rw [← hlen]
      exact (Function.update_of_ne hw.symm _ _).trans (Function.update_self _ _ _)
    hash := fun k hk => by rw [lookup, if_neg hk]
    vinodes := fun k' u z hk hk' hz => by
      refine (Function.update_of_ne ?_ _ _).trans ((Function.update_of_ne ?_ _ _).trans hz.vinode)
      · rintro rfl
        exact hk (h.tables.cached_inj hr.node hz).1
      · rintro rfl
        exact hk' (h.tables.cached_inj hr.dir hz).1
    dinode := fun k' hlt hki hkd => (hr.disk.node k' hlt).trans
      ((Function.update_of_ne hkd _ _).trans (Function.update_of_ne hki _ _))
    dirDinode := by
      rw [← hlen]
      exact (hr.disk.node d (h.lt hr.dir)).trans (Function.update_self _ _ _)
    entries := hes
    block := fun b hb hne => (hr.disk.block b hb).trans (Function.update_of_ne hne _ _) }

omit h in
theorem dropped : Dropped s (s.remove vd y j w d') j w := by
  have hkey : Vinode.key { y with size := y.size - 32 } = y.key := rfl
  refine ⟨rfl, rfl, rfl, rfl, rfl, rfl, rfl, Function.update_self _ _ _, fun u hu => ?_⟩
  rw [← map_key_update hr.dir.vinode hkey u]
  exact congrArg (Option.map Vinode.key) (Function.update_of_ne hu _ _)

theorem good : Good (s.vol.unlink d n j { s.disk.dinode j with nlinks := 0, type := R_FREE }
    (s.disk.dinode j).blks.toFinset) := by
  have hdt := h.good.dir_of_mem hr.mem
  obtain ⟨-, -, hj, -⟩ := h.file_ne_dir hr.dir hdt hr.node hr.file
  have hfit := s.disk.fits_dinode j
  refine h.good.unlink (x := { s.disk.dinode j with nlinks := 0, type := R_FREE }) hr.mem hj
    ⟨hfit.size, (by decide : R_FREE < 2 ^ 32), (by decide : 0 < 2 ^ 32), hfit.blocks, hfit.addrs,
      hfit.past⟩ ?_ (.inr ⟨rfl, rfl, fun b hbs => ?_⟩)
  · rw [h.node_eq hr.node]
    exact hr.nlinks.symm
  · rw [h.node_eq hr.node]
    exact (h.sync j w l hr.node).mem_blks (List.mem_toFinset.1 hbs)

theorem inv : Inv (s.remove vd y j w d') := by
  have he := hr.edited h
  have hdrop := hr.dropped
  have hvol := he.vol_edit h
  refine ⟨?_, hdrop.tables h.tables hr.node hr.ref, ?_, he.sync h fun u z hz => ?_, h.nblocks⟩
  · have hused : (s.remove vd y j w d').vol.used = s.vol.used \ (s.disk.dinode j).blks.toFinset :=
      used_free rfl
    rw [hvol, hused]
    exact hr.good h
  · rw [hvol]
    refine hdrop.paths h.tables hr.node hr.ref h.paths (fun k hkj hk => ?_) (fun k hk hkd => ?_)
      fun n' d' k hkj hm => ?_
    · rw [Vol.InUse, edit_type he.ne, if_neg hkj]
      exact hk
    · rw [edit_type he.ne] at hkd
      split at hkd
      · exact absurd hkd (by decide : R_FREE ≠ DIR_I)
      · exact hkd
    · by_cases hdd : d' = d
      · subst hdd
        rw [Edit.dir_self]
        exact (List.mem_erase_of_ne fun heq => hkj (congrArg Prod.snd heq)).2 hm
      · rw [Edit.dir_other hdd]
        exact hm
  · have := hz.hash
    rw [lookup, if_pos rfl] at this
    cases this

end Removing

/-! ## Contents -/

/-- A block of a file is no block of a directory. -/
theorem Inv.file_block_ne (h : Inv s) (hc : Cached s i v z) (hf : z.type = FILE_I)
    (hb : b ∈ z.blks) (hk : (s.vol.node k).type = DIR_I) : (s.vol.node k).addrs 0 ≠ b := by
  rintro rfl
  have hi := h.node_eq hc
  refine h.good.owned.disjoint i k ?_ (dir_type_ne hk) ?_ _ (hi ▸ hb) ?_
  · rw [hi, hf]
    decide
  · rintro rfl
    rw [hi] at hk
    exact absurd (hf.symm.trans hk) (by decide)
  · exact Dinode.mem_blks.2 ⟨0, by rw [(h.good.isDir hk).blocks]; decide, rfl⟩

/-- The blocks of a file in the cache are data blocks. -/
theorem Inv.isData_of_mem (h : Inv s) (hc : Cached s i v z) (hb : b ∈ z.blks) : IsData b := by
  refine h.good.data b (h.good.owned.mem i (h.paths.inUse i v z hc) b ?_)
  rw [h.node_eq hc]
  exact hb

/-- Writing a block of a file leaves the disk inodes and the volume as they are. -/
theorem Inv.vol_write (h : Inv s) (buf : Buf) (hc : Cached s i v z) (hf : z.type = FILE_I)
    (hb : b ∈ z.blks) :
    (∀ k < ninodes, Disk.dinode (Function.update s.disk b buf) k = s.disk.dinode k) ∧
      State.vol { s with disk := Function.update s.disk b buf } = s.vol := by
  have hdata := h.isData_of_mem hc hb
  have hdinode : ∀ k < ninodes, Disk.dinode (Function.update s.disk b buf) k = s.disk.dinode k :=
    fun k hk => Disk.dinode_update hk
      ((by decide : RFS_BLK_OFFSET_BITMAP ≤ RFS_BLK_OFFSET_FREE).trans hdata.1)
  refine ⟨hdinode, vol_congr h.good (fun k => node_congr rfl (fun _ _ => rfl) (hdinode k))
    (fun k hk => ?_) rfl⟩
  exact Function.update_of_ne (h.file_block_ne hc hf hb hk) _ _

theorem Inv.write (h : Inv s) (buf : Buf) (hc : Cached s i v z) (hf : z.type = FILE_I)
    (hb : b ∈ z.blks) : Inv { s with disk := Function.update s.disk b buf } := by
  obtain ⟨hdinode, hvol⟩ := h.vol_write buf hc hf hb
  set s' : State := { s with disk := Function.update s.disk b buf } with hs'
  have hs : SameTables s s' := ⟨fun _ => rfl, fun _ => rfl, rfl, rfl, rfl, rfl, Nat.le_refl _⟩
  refine ⟨hvol ▸ h.good, hs.tables h.tables (hs.filesOk h.tables rfl rfl), ?_, fun k u x hx => ?_,
    h.nblocks⟩
  · rw [hvol]
    exact hs.paths h.paths (fun _ hi => hi) (fun _ _ hi => hi) fun _ _ _ _ _ _ _ _ _ _ _ hm => hm
  · have hx' : Cached s k u x := ⟨hx.hash, hx.vinode⟩
    have hdk : s'.disk.dinode k = s.disk.dinode k := hdinode k (h.lt hx')
    rw [hdk]
    exact h.sync k u x hx'

/-- A new value of the vinode of a file leaves the other inodes as they are. -/
theorem Inv.node_update (h : Inv s) {z' : Vinode} (hc : Cached s i v z) (hd : s'.disk = s.disk)
    (hh : s'.vinodeHashTable = s.vinodeHashTable)
    (hv : s'.vinodes = Function.update s.vinodes v (some z')) (hk : k ≠ i) :
    s'.node k = s.node k := by
  refine node_congr (by rw [hh]) (fun u hu => ?_) fun _ => by rw [hd]
  obtain ⟨x, hx⟩ := h.tables.cached hu
  rw [hv, Function.update_of_ne]
  rintro rfl
  exact hk (h.tables.cached_inj hc hx).1

/-- A new value of the vinode of a file, with more blocks or another size. -/
theorem Inv.updateFile (h : Inv s) {z' : Vinode} (hc : Cached s i v z) (hf : z.type = FILE_I)
    (hd : s'.disk = s.disk) (hv : s'.vinodes = Function.update s.vinodes v (some z'))
    (hs : SameTables s s') (hde : s'.dentries = s.dentries) (hfi : s'.files = s.files)
    (ht : z'.type = FILE_I) (hn : z'.nlinks = z.nlinks) (hb : z.blocks ≤ z'.blocks)
    (ha : ∀ k < z.blocks, z'.addrs k = z.addrs k)
    (hgood : Good ⟨Function.update s.vol.node i z'.toDinode, s.vol.dir, s'.vol.used⟩) : Inv s' := by
  have hcached : Cached s' i v z' := ⟨hs.vinodeHash ▸ hc.hash, by rw [hv, Function.update_self]⟩
  have hlt := h.lt hc
  have hother : ∀ k, k ≠ i → s'.node k = s.node k := fun k hk =>
    h.node_update hc hd hs.vinodeHash hv hk
  have hself : s'.node i = z'.toDinode := (node_of_lt hlt).trans hcached.cur
  have hvol : s'.vol = ⟨Function.update s.vol.node i z'.toDinode, s.vol.dir, s'.vol.used⟩ := by
    refine Vol.ext (funext fun k => ?_) (funext fun k => ?_) rfl
    · change s'.node k = Function.update s.node i z'.toDinode k
      by_cases hk : k = i
      · rw [hk, Function.update_self, hself]
      · rw [Function.update_of_ne hk, hother k hk]
    · change (if (s'.node k).type = DIR_I then dirList s'.disk (s'.node k) else []) =
        if (s.node k).type = DIR_I then dirList s.disk (s.node k) else []
      by_cases hk : k = i
      · have hi : s.node i = z.toDinode := h.node_eq hc
        rw [hk, hself, hi, if_neg (by rw [ht]; decide), if_neg (by rw [hf]; decide)]
      · rw [hother k hk, hd]
  have htype : ∀ k, (s'.vol.node k).type = (s.vol.node k).type := fun k => by
    by_cases hk : k = i
    · have hi : s.vol.node i = z.toDinode := h.node_eq hc
      rw [hk, hi, hf]
      exact (congrArg Dinode.type hself).trans ht
    · exact congrArg Dinode.type (hother k hk)
  refine ⟨hvol ▸ hgood, hs.tables h.tables (hs.filesOk h.tables hde hfi), ?_, fun k u x hx => ?_,
    hs.sb ▸ h.nblocks⟩
  · refine hs.paths h.paths (fun k hk => ?_) (fun k _ hk => (htype k).symm.trans hk)
      fun _ _ _ _ _ _ _ _ _ _ _ hm => ?_
    · rw [Vol.InUse, htype]
      exact hk
    · rw [hvol]
      exact hm
  · rw [hd]
    by_cases hk : k = i
    · subst hk
      obtain ⟨rfl, rfl⟩ := hcached.unique hx
      have hb' := h.sync k u z hc
      refine ⟨hb'.type.trans (hf.trans ht.symm), hb'.nlinks.trans hn.symm, hb'.blocks.trans hb,
        fun m hm => (hb'.addrs m hm).trans (ha m (hm.trans_le hb'.blocks)).symm, fun hd => ?_⟩
      exact absurd (ht.symm.trans hd) (by decide)
    · have hxk : s.vinodeHashTable.lookup (.rfs, k) = some u := hs.vinodeHash ▸ hx.hash
      obtain ⟨x', hx'⟩ := h.tables.cached hxk
      have hu : u ≠ v := by
        rintro rfl
        exact hk (h.tables.cached_inj hc hx').1
      have := hx.vinode
      rw [hv, Function.update_of_ne hu, hx'.vinode] at this
      obtain rfl := Option.some.inj this
      exact h.sync k u x' hx'

theorem Inv.grow (h : Inv s) (hc : Cached s i v z) (hf : z.type = FILE_I)
    (hb : z.blocks < RFS_DIRECT_BLKNUM) (hk : k < dataBlocks) (hu : s.freemap k = 0) :
    Inv (s.grow v z k) := by
  have hi := h.node_eq hc
  have hkey : Vinode.key
      { z with
        addrs := Function.update z.addrs z.blocks (RFS_BLK_OFFSET_FREE + k)
        blocks := z.blocks + 1 } = z.key := rfl
  refine h.updateFile hc hf rfl rfl
    ⟨fun _ => rfl, map_key_update hc.vinode hkey, rfl, rfl, rfl, rfl, Nat.le_refl _⟩ rfl rfl hf rfl
    (Nat.le_succ _) (fun m hm => Function.update_of_ne hm.ne _ _) ?_
  rw [used_alloc hk rfl]
  have := h.good.grow (j := i) (b := RFS_BLK_OFFSET_FREE + k) (by rw [hi]; exact hf)
    (by rw [hi]; exact hb) ⟨by omega, by omega⟩ fun hmem => by
      have := (mem_used.1 hmem).2
      rw [Nat.add_sub_cancel_left] at this
      exact this hu
  rw [Vol.grow, hi] at this
  exact this

theorem Inv.resize (h : Inv s) {size : ℕ} (hc : Cached s i v z) (hf : z.type = FILE_I)
    (hle : size ≤ RFS_BLKSIZE * z.blocks) :
    Inv { s with vinodes := Function.update s.vinodes v (some { z with size := size }) } := by
  have hi := h.node_eq hc
  have hkey : Vinode.key { z with size := size } = z.key := rfl
  refine h.updateFile hc hf rfl rfl
    ⟨fun _ => rfl, map_key_update hc.vinode hkey, rfl, rfl, rfl, rfl, Nat.le_refl _⟩ rfl rfl hf rfl
    (Nat.le_refl _) (fun _ _ => rfl) ?_
  have hle' : size ≤ RFS_BLKSIZE * (s.vol.node i).blocks := by
    rw [hi]
    exact hle
  have := h.good.resize (j := i) (by rw [hi]; exact hf) hle'
  rw [Vol.resize, hi] at this
  exact this

/-! ## All transitions -/

/-- **A transition keeps the invariant.** -/
theorem Trans.inv {tag : Tag} (ht : Trans s tag s') (h : Inv s) : Inv s' := by
  cases ht with
  | scratch buf pages => exact h.scratch buf pages
  | load inUse absent page lt => exact h.load inUse absent page lt
  | enter dir node mem absent page lt => exact h.enter dir node mem absent page lt
  | leave hashed node file closed => exact h.leave hashed node file closed
  | evict node file ref disk => exact h.evict node ref disk
  | openFile hashed absent lt => exact h.openFile hashed absent lt
  | closeFile file hashed => exact h.closeFile file hashed
  | seek file same => exact h.seek file same
  | cacheDir c node => exact h.cacheDir c node
  | make making => exact making.inv h
  | link linking => exact linking.inv h
  | unlink unlinking => exact unlinking.inv h
  | remove removing => exact removing.inv h
  | write buf node file mem => exact h.write buf node file mem
  | grow node file opened blocks lt unused => exact h.grow node file blocks lt unused
  | resize node file opened le => exact h.resize node file le

end HustOS.Fs
