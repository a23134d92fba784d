import HustOS.Fs.Lookup

/-!
# Operations that add a name

`vfs_open`, `vfs_mkdir` and `vfs_link` as sequences of transitions. A creation (`Created`) takes a
free inode and a free block, and adds the new dentry and vinode to the tables.

A directory that already holds 128 entries has no block for another one. An operation that adds one
nevertheless leaves the directory longer than its block (`State.Over`); nothing else is said of it.
-/

namespace HustOS.Fs

open Foundations

variable {s s' s'' : State} {t p d v w u i j b k vd : ℕ} {e : Dentry} {x : Vinode} {y : Vinode}
  {n : Name} {m : ℤ} {path : List UInt8} {f g : ℕ → Dinode} {dk : Disk} {gb : ℕ → Buf}

/-! ## Disks -/

namespace DiskIs

theorem refl (dk : Disk) : DiskIs dk dk.dinode dk := ⟨fun _ _ => rfl, fun _ _ => rfl⟩

theorem setDinode {z : Dinode} (h : DiskIs dk f gb) (hj : j < ninodes) (hz : z.Fits) :
    DiskIs (dk.setDinode j z) (Function.update f j z) gb where
  node k hk := by
    by_cases hkj : k = j
    · rw [hkj, Disk.dinode_setDinode hz, Function.update_self]
    · rw [Disk.dinode_setDinode_of_ne hkj, Function.update_of_ne hkj, h.node k hk]
  block b hb := (hb.setDinode hj).trans (h.block b hb)

theorem update {buf : Buf} (h : DiskIs dk f gb) (hb : IsData b) :
    DiskIs (Function.update dk b buf) f (Function.update gb b buf) where
  node k hk := by
    rw [Disk.dinode_update hk
      ((by decide : RFS_BLK_OFFSET_BITMAP ≤ RFS_BLK_OFFSET_FREE).trans hb.1)]
    exact h.node k hk
  block c hc := by
    by_cases hcb : c = b
    · rw [hcb, Function.update_self, Function.update_self]
    · rw [Function.update_of_ne hcb, Function.update_of_ne hcb, h.block c hc]

end DiskIs

/-- Another size of a directory. -/
theorem Inv.fits_size (h : Inv s) (hy : Cached s d vd y) {size : ℕ} (hs : size < 2 ^ 32) :
    Dinode.Fits { y.toDinode with size := size } := by
  have hfit := h.good.fits d
  rw [h.node_eq hy] at hfit
  exact ⟨hs, hfit.type, hfit.nlinks, hfit.blocks, hfit.addrs, hfit.past⟩

/-! ## Faults and full directories -/

/-- The fault is no failed assertion. -/
def NoAssert (f : Fault) : Prop := ∀ c, f ≠ .assertion c

theorem noAssert_undefined (c : String) : NoAssert (.undefined c) := fun _ h => Fault.noConfusion h

theorem noAssert_panic (c : String) : NoAssert (.panic c) := fun _ h => Fault.noConfusion h

theorem noAssert_nullDeref : NoAssert .nullDeref := fun _ h => Fault.noConfusion h

theorem noAssert_hostfs : NoAssert .hostfs := fun _ h => Fault.noConfusion h

theorem LookupFault.noAssert {f : Fault} (h : LookupFault f) : NoAssert f := by
  rcases h with rfl | rfl
  · exact noAssert_undefined _
  · exact noAssert_hostfs

/-- A directory is longer than its block. -/
def State.Over (s : State) : Prop :=
  ∃ d v x, Cached s d v x ∧ x.type = DIR_I ∧ RFS_BLKSIZE < x.size

theorem vinode_sat : Sat (s.vinode v) (fun x => s.vinodes v = some x) NoAssert := by
  unfold State.vinode
  cases s.vinodes v with
  | none => exact noAssert_undefined _
  | some x => rfl

theorem dentry_sat : Sat (s.dentry t) (fun e => s.dentries t = some e) NoAssert := by
  unfold State.dentry
  cases s.dentries t with
  | none => exact noAssert_undefined _
  | some e => rfl

theorem dentryInode_sat : Sat (s.dentryInode t) (fun v => s.inodeOf t = some v) NoAssert := by
  unfold State.dentryInode
  refine Sat.bind dentry_sat fun e he => ?_
  cases hi : e.dentryInode with
  | none => exact noAssert_nullDeref
  | some v =>
    change s.inodeOf t = some v
    rw [State.inodeOf, he, Option.bind_some, hi]

theorem Hashed.dentryInode (h : Hashed s t e v) : s.dentryInode t = .ok v := by
  rw [State.dentryInode, State.dentry_eq_ok.2 h.dentry, ok_bind, h.inode]

theorem rfsR1block_sat :
    Sat (rfsR1block s b) (fun s' => ∃ buf, s' = { s with iobuffer := buf }) NoAssert := by
  unfold rfsR1block ramdiskRead
  split
  · exact noAssert_panic _
  · exact ⟨_, rfl⟩

theorem rfsW1block_sat :
    Sat (rfsW1block s b) (fun s' => ∃ dk, s' = { s with disk := dk }) NoAssert := by
  unfold rfsW1block ramdiskWrite
  split
  · exact noAssert_panic _
  · exact ⟨_, rfl⟩

theorem rfsWriteDinode_sat {z : Dinode} (hi : i < ninodes) :
    Sat (rfsWriteDinode s z i) (fun s' => ∃ dk buf, s' = { s with disk := dk, iobuffer := buf })
      NoAssert := by
  obtain ⟨buf, h⟩ := rfsWriteDinode_eq (s := s) (x := z) hi
  rw [h]
  exact ⟨_, buf, rfl⟩

theorem rfsWriteBackVinode_sat (hv : s.vinodes v = some y) (hi : y.inum < ninodes) :
    Sat (rfsWriteBackVinode s v) (fun s' => ∃ dk buf, s' = { s with disk := dk, iobuffer := buf })
      NoAssert := by
  rw [rfsWriteBackVinode, State.vinode_eq_ok.2 hv, ok_bind]
  exact rfsWriteDinode_sat hi

theorem rfsNewVinode_sat (hi : i < ninodes) :
    Sat (rfsNewVinode s i)
      (fun r => ∃ z buf, r = (s.pages,
        { s with
          pages := s.pages + 1
          iobuffer := buf
          vinodes := Function.update s.vinodes s.pages (some z) })) NoAssert := by
  obtain ⟨buf, h⟩ := rfsNewVinode_eq (s := s) hi
  rw [h]
  exact ⟨_, buf, rfl⟩

/-- Whatever the blocks of a directory are, a new entry makes it longer. -/
theorem rfsAddDirentry_sat {inum : ℕ} (hv : s.vinodes v = some y) (hy : y.type = DIR_I)
    (hi : y.inum < ninodes) :
    Sat (rfsAddDirentry s v n inum)
      (fun r => r.1 = 0 ∧ ∃ dk buf, r.2 =
        { s with
          disk := dk
          iobuffer := buf
          vinodes := Function.update s.vinodes v (some { y with size := y.size + 32 }) })
      NoAssert := by
  have htype : ¬ y.type ≠ DIR_I := not_not.2 hy
  unfold rfsAddDirentry
  rw [State.vinode_eq_ok.2 hv, ok_bind]
  simp only [htype, if_false]
  refine Sat.bind (P := fun _ => True) ?_ fun nBlock _ => ?_
  · unfold Dinode.addr
    split
    · trivial
    · exact noAssert_undefined _
  refine Sat.bind rfsR1block_sat ?_
  rintro _ ⟨buf, rfl⟩
  split
  · exact noAssert_undefined _
  · refine Sat.bind rfsW1block_sat ?_
    rintro _ ⟨dk, rfl⟩
    refine Sat.bind (rfsWriteBackVinode_sat (Function.update_self _ _ _) hi) ?_
    rintro _ ⟨dk', buf', rfl⟩
    exact ⟨rfl, dk', buf', rfl⟩

/-- The vinode `v` has the value `x`, and the table has what that of `s` has. -/
def Keeps (s : State) (v : ℕ) (x : Vinode) (s' : State) : Prop :=
  s'.vinodes v = some x ∧
    ∀ k w, s.vinodeHashTable.lookup k = some w → s'.vinodeHashTable.lookup k = some w

theorem Keeps.over {z : Vinode} (h : Keeps s v z s') (hc : Cached s d v x) (ht : z.type = DIR_I)
    (hs : RFS_BLKSIZE < z.size) : s'.Over :=
  ⟨d, v, z, ⟨h.2 _ _ hc.hash, h.1⟩, ht, hs⟩

section Over

variable (hv : s.vinodes v = some y) (hy : y.type = DIR_I) (hi : y.inum < ninodes)
  (hpage : v ≠ s.pages)

include hv hy hi hpage

/-- `rfs_create` makes the directory longer. -/
theorem rfsCreate_keeps :
    Sat (rfsCreate s v n)
      (fun r => r.1 = some s.pages ∧ Keeps s v { y with size := y.size + 32 } r.2) NoAssert := by
  unfold rfsCreate
  rw [State.vinode_eq_ok.2 hv, ok_bind]
  refine Sat.bind ((freeInodeLoop_sat (by omega)).mono' ?_) ?_
  · rintro _ ⟨rfl, -⟩
    exact noAssert_undefined _
  rintro _ ⟨i, buf₁, -, hlt, -, rfl⟩
  refine Sat.bind (rfsAllocBlock_sat.mono' ?_) ?_
  · rintro _ rfl
    exact noAssert_panic _
  rintro _ ⟨k, -, -, rfl⟩
  have hlt' : i < ninodes := by omega
  refine Sat.bind (rfsWriteDinode_sat hlt') ?_
  rintro _ ⟨dk₂, buf₂, rfl⟩
  refine Sat.bind (rfsNewVinode_sat hlt') ?_
  rintro _ ⟨z, buf₃, rfl⟩
  refine Sat.bind (rfsAddDirentry_sat ((Function.update_of_ne hpage _ _).trans hv) hy hi) ?_
  rintro ⟨r, s'⟩ ⟨hr, dk, buf, rfl⟩
  dsimp only at hr
  subst hr
  exact ⟨rfl, Function.update_self _ _ _, fun _ _ h => h⟩

/-- `rfs_mkdir` makes the directory longer. -/
theorem rfsMkdir_keeps :
    Sat (rfsMkdir s v n)
      (fun r => r.1 = some s.pages ∧ Keeps s v { y with size := y.size + 32 } r.2) NoAssert := by
  unfold rfsMkdir
  rw [State.vinode_eq_ok.2 hv, ok_bind]
  refine Sat.bind ((freeInodeLoop_sat (by omega)).mono' ?_) ?_
  · rintro _ ⟨rfl, -⟩
    exact noAssert_undefined _
  rintro _ ⟨i, buf₁, -, hlt, -, rfl⟩
  refine Sat.bind (rfsAllocBlock_sat.mono' ?_) ?_
  · rintro _ rfl
    exact noAssert_panic _
  rintro _ ⟨k, -, -, rfl⟩
  have hlt' : i < ninodes := by omega
  refine Sat.bind (rfsWriteDinode_sat hlt') ?_
  rintro _ ⟨dk₂, buf₂, rfl⟩
  refine Sat.bind (rfsAddDirentry_sat hv hy hi) ?_
  rintro ⟨r, s'⟩ ⟨hr, dk, buf, rfl⟩
  dsimp only at hr
  subst hr
  refine Sat.bind (rfsNewVinode_sat hlt') ?_
  rintro _ ⟨z, buf₃, rfl⟩
  exact ⟨rfl, (Function.update_of_ne hpage _ _).trans (Function.update_self _ _ _), fun _ _ h => h⟩

omit hpage in
/-- `rfs_link` makes the directory longer. -/
theorem rfsLink_keeps {l : Vinode} (hw : s.vinodes w = some l) (hl : l.inum < ninodes)
    (hne : v ≠ w) :
    Sat (rfsLink s v n w)
      (fun r => Keeps s v { y with size := y.size + 32 } r.2) NoAssert := by
  unfold rfsLink
  rw [State.vinode_eq_ok.2 hw, ok_bind]
  refine Sat.bind (rfsAddDirentry_sat ((Function.update_of_ne hne _ _).trans hv) hy hi) ?_
  rintro ⟨r, s'⟩ ⟨-, dk, buf, rfl⟩
  have hw' : Function.update
    (Function.update s.vinodes w (some { l with nlinks := l.nlinks + 1 })) v
      (some { y with size := y.size + 32 }) w = some { l with nlinks := l.nlinks + 1 } :=
    (Function.update_of_ne hne.symm _ _).trans (Function.update_self _ _ _)
  refine Sat.bind (rfsWriteBackVinode_sat hw' hl) ?_
  rintro _ ⟨dk', buf', rfl⟩
  exact ⟨Function.update_self _ _ _, fun _ _ h => h⟩

end Over

/-- `attachNew` keeps the other vinodes. -/
theorem attachNew_keeps {z : Vinode} (hv : s.vinodes v = some z) (hne : v ≠ u) :
    Sat (attachNew s t u) (Keeps s v z) NoAssert := by
  unfold attachNew
  refine Sat.bind dentry_sat fun e he => ?_
  refine Sat.bind (P := Keeps s v z) ?_ ?_
  · unfold addRef
    refine Sat.bind vinode_sat fun x hx => ?_
    exact ⟨(Function.update_of_ne hne _ _).trans hv, fun _ _ h => h⟩
  rintro s₁ hk₁
  refine Sat.bind (P := Keeps s v z) ?_ ?_
  · unfold hashPutDentry
    refine Sat.bind dentry_sat fun e he => ?_
    split
    · exact hk₁
    · exact hk₁
  rintro s₂ hk₂
  unfold hashPutVinode
  refine Sat.bind vinode_sat fun x hx => ?_
  split
  · exact hk₂
  · split
    · exact hk₂
    · rename_i hnone
      refine ⟨hk₂.1, fun k w hk => ?_⟩
      refine (lookup_insert_eq _ _ _ _).trans ?_
      rw [if_neg, hk₂.2 k w hk]
      rintro rfl
      rw [hk₂.2 _ w hk] at hnone
      cases hnone

/-! ## Creation -/

/-- A creation of an inode with the given type and number of blocks, between quiet sequences. -/
def Created (type blocks : ℕ) (s s' : State) : Prop :=
  ∃ s₀ d vd y i k n z d', Steps IsQuiet s s₀ ∧ Making s₀ d vd y i k n z d' ∧
    z = madeNode type blocks (s₀.disk.dinode i) (RFS_BLK_OFFSET_FREE + k) ∧
    Steps IsQuiet (s₀.make vd y k d') s'

/-- The tag is one of a change of the tables or of the inodes and directories. -/
def IsEdit (tag : Tag) : Prop := tag = .quiet ∨ tag = .edits

theorem Steps.isEdit (h : Steps IsQuiet s s') : Steps IsEdit s s' := h.mono fun _ h => .inl h

theorem Created.steps {type blocks : ℕ} (h : Created type blocks s s') : Steps IsEdit s s' := by
  obtain ⟨s₀, d, vd, y, i, k, n, z, d', h₁, hm, -, h₂⟩ := h
  exact (h₁.isEdit.tail (.make hm) (.inr rfl)).trans h₂.isEdit

theorem Created.before {type blocks : ℕ} (h : Steps IsQuiet s s')
    (hc : Created type blocks s' s'') :
    Created type blocks s s'' := by
  obtain ⟨s₀, d, vd, y, i, k, n, z, d', h₁, hm, hz, h₂⟩ := hc
  exact ⟨s₀, d, vd, y, i, k, n, z, d', h.trans h₁, hm, hz, h₂⟩

theorem Created.after {type blocks : ℕ} (hc : Created type blocks s s') (h : Steps IsQuiet s' s'') :
    Created type blocks s s'' := by
  obtain ⟨s₀, d, vd, y, i, k, n, z, d', h₁, hm, hz, h₂⟩ := hc
  exact ⟨s₀, d, vd, y, i, k, n, z, d', h₁, hm, hz, h₂.trans h⟩

/-- A quiet sequence, with a creation in it or not. -/
def Made (type blocks : ℕ) (s s' : State) : Prop :=
  Steps IsQuiet s s' ∨ Created type blocks s s'

theorem Made.steps {type blocks : ℕ} (h : Made type blocks s s') : Steps IsEdit s s' :=
  h.elim Steps.isEdit Created.steps

/-- A directory with room, in terms of its vinode. -/
theorem Inv.room (h : Inv s) (hy : Cached s d vd y) (hd : (s.vol.node d).type = DIR_I)
    (hn : n.Valid) (hm : n ∉ (s.vol.dir d).map Prod.fst) (hs : y.size < 4096) :
    Room s.vol d n := by
  obtain ⟨-, hsize, -⟩ := h.dir_of_cached hy hd
  exact ⟨hd, by omega, hn, hm⟩

/-- **The new dentry and the new vinode go to the tables.** -/
theorem attachNew_made {type blocks : ℕ} {z : Dinode} (h : Inv s) (he : Hashed s p e vd)
    (hy : Cached s d vd y) (hr : Room s.vol d n)
    (hk : s.dentryHashTable.lookup (some p, n) = none) (hf : Fresh s i k)
    (hz : z = madeNode type blocks (s.disk.dinode i) (RFS_BLK_OFFSET_FREE + k))
    (hx : (type = R_FILE ∧ blocks = 0) ∨ (type = R_DIR ∧ blocks = 1)) (buf : Buf) :
    (madeDisk s.disk y n i z).dinode i = z ∧
    ∃ s', attachNew (madeState (dentryState s p n) vd y n i k z z buf) s.pages (s.pages + 1) =
        .ok s' ∧ Created type blocks s s' ∧
      Hashed s' s.pages
        { name := n, dRef := 0, dentryInode := some (s.pages + 1), parent := some p }
        (s.pages + 1) ∧
      Cached s' i (s.pages + 1) { newVinode z i with ref := 0 + 1 } := by
  obtain ⟨hdir, hsize, -⟩ := h.dir_of_cached hy hr.dir
  have hinum := (h.tables.inum_eq hy).1
  have hkd : k < dataBlocks := h.nblocks ▸ hf.block_lt
  have hb : IsData (RFS_BLK_OFFSET_FREE + k) := ⟨by omega, by omega⟩
  have hzf : z.Fits := by
    have h32 : RFS_BLK_OFFSET_FREE + k < 2 ^ 32 := hb.lt_count.trans (by decide)
    rw [hz]
    rcases hx with ⟨rfl, rfl⟩ | ⟨rfl, rfl⟩
    · exact fits_madeNode (s.disk.fits_dinode i) (by decide) (by decide) h32
    · exact fits_madeNode (s.disk.fits_dinode i) (by decide) (by decide) h32
  have hyf : Dinode.Fits { y.toDinode with size := y.size + 32 } := by
    refine h.fits_size hy ?_
    have := hr.length_lt
    omega
  set s₀ : State := { s with iobuffer := buf, pages := s.pages + 2 } with hs₀
  have hinv₀ : Inv s₀ := h.scratch buf (by omega)
  have hdisk : DiskIs (madeDisk s.disk y n i z)
      (Function.update (Function.update s.disk.dinode i z) d
        { y.toDinode with size := y.size + 32 })
      (Function.update s.disk (y.addrs 0) (putEntry (s.disk (y.addrs 0)) y.size n i)) := by
    rw [madeDisk, hinum]
    exact (((DiskIs.refl _).setDinode hf.inum_lt hzf).update hdir.data).setDinode (h.lt hy) hyf
  have hmake : Making s₀ d vd y i k n z (madeDisk s.disk y n i z) := by
    refine ⟨⟨hy.hash, hy.vinode⟩, hr, ⟨hf.inum_lt, hf.free, hf.block_lt, hf.unused⟩, ?_, hdisk⟩
    rcases hx with ⟨rfl, rfl⟩ | ⟨rfl, rfl⟩
    · exact .inl hz
    · exact .inr hz
  set s₁ : State := s₀.make vd y k (madeDisk s.disk y n i z) with hs₁
  have hinv₁ : Inv s₁ := hmake.inv hinv₀
  have hed := hmake.edited hinv₀
  have hne : i ≠ d := hed.ne
  have hdinode : (madeDisk s.disk y n i z).dinode i = z :=
    (hdisk.node i hf.inum_lt).trans
      ((Function.update_of_ne hne _ _).trans (Function.update_self _ _ _))
  have hvol₁ := hed.vol_edit hinv₀
  have huse₁ : s₁.vol.InUse i := by
    rw [Vol.InUse, hvol₁, Edit.node_self]
    exact hmake.inUse
  have hnone₁ : s₁.vinodeHashTable.lookup (.rfs, i) = none := (hmake.free hinv₀).1
  have hlt := h.tables.page_lt_vinode hy.vinode
  have hv₁ : s₁.vinodes (s.pages + 1) = none :=
    (Function.update_of_ne (by omega) _ _).trans (h.tables.fresh (s.pages + 1) (by omega)).2.1
  have hload : Trans s₁ .quiet (s₁.addVinode i (s.pages + 1)) :=
    .load huse₁ hnone₁ hv₁ (Nat.lt_succ_self _)
  set s₂ : State := s₁.addVinode i (s.pages + 1) with hs₂
  have hvol₂ : s₂.vol = s₁.vol := (hload.quiet hinv₁).vol
  have hc₂ : Cached s₂ i (s.pages + 1) (newVinode z i) := by
    refine ⟨AList.lookup_insert _, (Function.update_self _ _ _).trans ?_⟩
    rw [← hdinode]
    rfl
  have hp₂ : DentryOf s₂ p d := by
    refine ⟨e, vd, { y with size := y.size + 32 }, ⟨he.dentry, he.hash, he.inode⟩, ?_, ?_⟩
    · refine (lookup_insert_eq _ _ _ _).trans ?_
      rw [if_neg fun heq => hne (congrArg Prod.snd heq).symm]
      exact hy.hash
    · exact (Function.update_of_ne (by omega) _ _).trans (Function.update_self _ _ _)
  have hm₂ : (n, i) ∈ s₂.vol.dir d := by
    rw [hvol₂, hvol₁, Edit.dir_self]
    exact List.mem_append_right _ (List.mem_singleton_self _)
  have henter : Trans s₂ .quiet
      (s₂.addDentry p n s.pages (s.pages + 1) (newVinode z i)) :=
    .enter hp₂ hc₂ hm₂ hk (h.tables.fresh s.pages (by omega)).1
      (Nat.lt_add_of_pos_right (by decide))
  refine ⟨hdinode, s₂.addDentry p n s.pages (s.pages + 1) (newVinode z i), ?_,
    ⟨s₀, d, vd, y, i, k, n, z, _, .single (.scratch buf (by omega)) rfl, hmake, hz,
      (Steps.single (P := IsQuiet) hload rfl).tail henter rfl⟩,
    ⟨Function.update_self _ _ _, AList.lookup_insert _, rfl⟩, hc₂.hash, Function.update_self _ _ _⟩
  have hden : (madeState (dentryState s p n) vd y n i k z z buf).dentry s.pages =
      .ok { name := n, dRef := 0, dentryInode := none, parent := some p } :=
    State.dentry_eq_ok.2 (Function.update_self _ _ _)
  have hvin : State.vinodes ((madeState (dentryState s p n) vd y n i k z z buf).setDentry s.pages
      { name := n, dRef := 0, dentryInode := some (s.pages + 1), parent := some p }) (s.pages + 1) =
      some (newVinode z i) :=
    (Function.update_of_ne (by omega) _ _).trans (Function.update_self _ _ _)
  have hvs : Function.update (Function.update (Function.update s.vinodes (s.pages + 1)
      (some (newVinode z i))) vd (some { y with size := y.size + 32 })) (s.pages + 1)
      (some { newVinode z i with ref := (newVinode z i).ref + 1 }) =
      Function.update (Function.update s.vinodes vd (some { y with size := y.size + 32 }))
        (s.pages + 1) (some { newVinode z i with ref := (newVinode z i).ref + 1 }) := by
    rw [Function.update_comm (by omega : vd ≠ s.pages + 1), Function.update_idem,
      Function.update_comm (by omega : s.pages + 1 ≠ vd)]
  unfold attachNew
  rw [hden, ok_bind]
  dsimp only
  rw [addRef_eq hvin, ok_bind, hashPutDentry_eq (Function.update_self _ _ _) hk, ok_bind,
    hashPutVinode_eq (Function.update_self _ _ _) hf.inum_lt (hmake.free hinv₀).1]
  simp only [State.setVinode, State.setDentry, madeState, dentryState, State.addDentry,
    State.addVinode, State.make, Function.update_idem, hs₂, hs₁, hs₀, hvs]
  rfl

theorem Inv.inum_lt (h : Inv s) (hc : Cached s i v x) : x.inum < ninodes := by
  rw [(h.tables.inum_eq hc).1]
  exact h.lt hc

/-- The part of a creation behind the lookup, for `rfs_create` and `rfs_mkdir` as `make`. -/
theorem create_sat {type blocks : ℕ} (make : State → ℕ → Name → Except Fault (Option ℕ × State))
    (h : Inv s) (hm : Missing s p n)
    (hx : (type = R_FILE ∧ blocks = 0) ∨ (type = R_DIR ∧ blocks = 1))
    (hmake : ∀ d vd y, Cached s d vd y → IsDir y.toDinode → y.size < 4096 → n.Valid →
      Sat (make (dentryState s p n) vd n)
        (fun r => ∃ i k buf z, Fresh s i k ∧
          z = madeNode type blocks (s.disk.dinode i) (RFS_BLK_OFFSET_FREE + k) ∧
          ((madeDisk s.disk y n i z).dinode i = z →
            r = (some (s.pages + 1), madeState (dentryState s p n) vd y n i k z z buf))) NoAssert)
    (hover : ∀ d vd y, Cached s d vd y → y.type = DIR_I →
      Sat (make (dentryState s p n) vd n)
        (fun r => r.1 = some (s.pages + 1) ∧
          Keeps (dentryState s p n) vd { y with size := y.size + 32 } r.2) NoAssert) :
    ∃ e v, Hashed s p e v ∧
      Sat (viopSb (dentryState s p n) v >>= fun _ => make (dentryState s p n) v n)
        (fun r => r.1 = some (s.pages + 1) ∧
          Sat (attachNew r.2 s.pages (s.pages + 1))
            (fun s' => s'.Over ∨ (Created type blocks s s' ∧ ∃ i, DentryOf s' s.pages i)) NoAssert)
        NoAssert := by
  obtain ⟨d, ⟨e, v, y, he, hy⟩, hd, hn, hnew, hk⟩ := hm
  obtain ⟨hdir, hsize, -⟩ := h.dir_of_cached hy hd
  refine ⟨e, v, he, ?_⟩
  have hsb : viopSb (dentryState s p n) v = .ok () := by
    have hv : (dentryState s p n).vinode v = .ok y := State.vinode_eq_ok.2 hy.vinode
    rw [viopSb, hv, ok_bind, (h.tables.inum_eq hy).2]
    rfl
  rw [hsb, ok_bind]
  by_cases hs : y.size < 4096
  · refine (hmake d v y hy hdir hs hn).mono ?_
    rintro r ⟨i, k, buf, z, hf, hz, hr⟩
    obtain ⟨hdin, s', hatt, hcr, hh, hc⟩ :=
      attachNew_made h he hy (h.room hy hd hn hnew hs) hk hf hz hx buf
    rw [hr hdin]
    refine ⟨rfl, ?_⟩
    rw [hatt]
    exact .inr ⟨hcr, i, _, _, _, hh, hc⟩
  · refine (hover d v y hy hdir.type).mono ?_
    rintro r ⟨hr, hkeep⟩
    have hlt := h.tables.page_lt_vinode hy.vinode
    refine ⟨hr, (attachNew_keeps hkeep.1 (by omega)).mono fun s' hs' => .inl ?_⟩
    refine ⟨d, v, _, ⟨hs'.2 _ _ (hkeep.2 _ _ hy.hash), hs'.1⟩, hdir.type, ?_⟩
    change 4096 < y.size + 32
    omega

theorem CreateFault.noAssert {f : Fault} (hf : CreateFault s f) : NoAssert f := by
  rcases hf with rfl | ⟨rfl, -⟩
  · exact noAssert_panic _
  · exact noAssert_undefined _

theorem getBaseName_sat : Sat (getBaseName path) (fun _ => True) NoAssert := by
  unfold getBaseName
  cases (pathTokens path).getLast? with
  | none => exact noAssert_nullDeref
  | some n => trivial

/-- The part of `vfs_open` that creates the missing file. -/
theorem createFile_sat (h : Inv s) (hm : Missing s p n) :
    Sat (createFile s path p n)
      (fun r => match r.1 with
        | none => r.2 = s
        | some t => r.2.Over ∨ (Created R_FILE 0 s r.2 ∧ ∃ i, DentryOf r.2 t i)) NoAssert := by
  unfold createFile
  refine Sat.bind getBaseName_sat fun basename _ => ?_
  split
  · rfl
  rename_i heq
  obtain rfl : n = basename := not_not.1 heq
  rw [allocVfsDentry_eq, ok_bind]
  have hlt : ∀ {d vd y}, Cached s d vd y → vd ≠ s.pages + 1 := fun hy => by
    have := h.tables.page_lt_vinode hy.vinode
    omega
  obtain ⟨e, v, he, hsat⟩ := create_sat rfsCreate h hm (.inl ⟨rfl, rfl⟩)
    (fun d vd y hy hdir hs hn => by
      have hv : (dentryState s p n).vinodes vd = some y := hy.vinode
      refine ((rfsCreate_sat hv hn hdir hs (h.inum_lt hy) (hlt hy) h.nblocks).mono ?_).mono'
        fun _ hf => hf.noAssert
      rintro r ⟨i, k, buf, hf, z, hz, rfl⟩
      exact ⟨i, k, buf, z, ⟨hf.inum_lt, hf.free, hf.block_lt, hf.unused⟩, hz, fun _ => rfl⟩)
    fun d vd y hy ht => by
      have hv : (dentryState s p n).vinodes vd = some y := hy.vinode
      exact rfsCreate_keeps hv ht (h.inum_lt hy) (hlt hy)
  dsimp only
  rw [h.dentryState_inode he, ok_bind]
  refine Sat.bind hsat ?_
  rintro ⟨r, s₁⟩ ⟨hr, hatt⟩
  dsimp only at hr
  subst hr
  exact Sat.bind hatt fun s' hs' => hs'

/-! ## `vfs_open` -/

/-- What opening a dentry leads to: nothing, or an open file for it. -/
def OpenPost (s : State) (t : ℕ) (r : Option ℕ × State) : Prop :=
  (r.1 = none ∧ r.2 = s) ∨
    ∃ fl e v x, r.1 = some s.pages ∧ fl.fDentry = t ∧ Hashed s t e v ∧ s.vinodes v = some x ∧
      x.type = FILE_I ∧ r.2 = State.addFile { s with pages := s.pages + 1 } s.pages fl e

theorem addFile_steps {fl : File} (h : Inv s) (he : Hashed s fl.fDentry e v) :
    Steps IsQuiet s (State.addFile { s with pages := s.pages + 1 } s.pages fl e) := by
  have hs : Trans s .quiet { s with iobuffer := s.iobuffer, pages := s.pages + 1 } :=
    .scratch s.iobuffer (Nat.le_succ _)
  refine (Steps.single (P := IsQuiet) hs rfl).tail (.openFile (v := v) ?_ ?_ ?_) rfl
  · exact ⟨he.dentry, he.hash, he.inode⟩
  · exact (h.tables.fresh s.pages (Nat.le_refl _)).2.2
  · exact Nat.lt_succ_self _

theorem OpenPost.steps {r : Option ℕ × State} (h : Inv s) (hr : OpenPost s t r) :
    Steps IsQuiet s r.2 := by
  rcases hr with ⟨-, hr⟩ | ⟨fl, e, v, x, -, rfl, he, -, -, hr⟩
  · rw [hr]
    exact .refl
  · rw [hr]
    exact addFile_steps h he

theorem fileMode_sat (flags : ℕ) : Sat (fileMode flags) (fun _ => True) NoAssert := by
  unfold fileMode
  split
  · trivial
  · trivial
  · trivial
  · exact noAssert_panic _

theorem allocVfsFile_eq {readable writable : Bool} (he : s.dentries t = some e) :
    allocVfsFile s t readable writable = .ok (s.pages,
      State.addFile { s with pages := s.pages + 1 } s.pages
        { readable := readable, writable := writable, offset := 0, fDentry := t } e) := by
  have hden : State.dentry { s with pages := s.pages + 1 } t = .ok e := State.dentry_eq_ok.2 he
  unfold allocVfsFile State.allocPage
  dsimp only
  rw [hden, ok_bind]
  rfl

theorem openDentry_sat {flags : ℕ} (he : Hashed s t e v) :
    Sat (openDentry s t flags) (OpenPost s t) NoAssert := by
  unfold openDentry
  rw [he.dentryInode, ok_bind]
  refine Sat.bind vinode_sat fun x hx => ?_
  split
  · exact .inl ⟨rfl, rfl⟩
  refine Sat.bind (fileMode_sat flags) ?_
  rintro ⟨readable, writable⟩ -
  dsimp only
  rw [allocVfsFile_eq he.dentry, ok_bind]
  cases x.sb with
  | rfs => exact .inr ⟨_, e, v, x, rfl, rfl, he, hx, not_not.1 ‹_›, rfl⟩
  | hostfs => exact noAssert_hostfs

/-- Opening a dentry leaves the vinodes alone. -/
theorem openDentry_over {flags : ℕ} (ho : s.Over) :
    Sat (openDentry s t flags) (fun r => r.2.Over) NoAssert := by
  unfold openDentry
  refine Sat.bind dentryInode_sat fun v _ => ?_
  refine Sat.bind vinode_sat fun x _ => ?_
  split
  · exact ho
  refine Sat.bind (fileMode_sat flags) ?_
  rintro ⟨readable, writable⟩ -
  refine Sat.bind (P := fun r => r.2.Over) ?_ ?_
  · unfold allocVfsFile State.allocPage
    refine Sat.bind dentry_sat fun e _ => ?_
    obtain ⟨d, w, z, hc, hz⟩ := ho
    exact ⟨d, w, z, ⟨hc.hash, hc.vinode⟩, hz⟩
  rintro ⟨f, s'⟩ ho'
  cases x.sb with
  | rfs => exact ho'
  | hostfs => exact noAssert_hostfs

/-- What `vfs_open` does: the file of the path is opened, after it was created if it was missing. -/
def VfsOpenPost (s : State) (path : List UInt8) (r : Option ℕ × State) : Prop :=
  r.2.Over ∨ (r.1 = none ∧ Steps IsEdit s r.2) ∨
    ∃ f fl i, r.1 = some f ∧ r.2.files.lookup f = some fl ∧ DentryOf r.2 fl.fDentry i ∧
      ((s.disk.resolve path = some i ∧ Steps IsQuiet s r.2) ∨
        (s.disk.resolve path = none ∧ Created R_FILE 0 s r.2))

/-- An open file leads to the inode of its dentry. -/
theorem OpenPost.file {r : Option ℕ × State} (hr : OpenPost s t r) (ht : DentryOf s t i) :
    r.1 = none ∨ ∃ f fl, r.1 = some f ∧ r.2.files.lookup f = some fl ∧
      DentryOf r.2 fl.fDentry i := by
  rcases hr with ⟨hr, -⟩ | ⟨fl, e, v, -, hr, rfl, he, -, -, hs⟩
  · exact .inl hr
  · obtain ⟨e', v', x, he', hc⟩ := ht
    obtain ⟨rfl, rfl⟩ := he.unique he'
    refine .inr ⟨s.pages, fl, hr, ?_, ?_⟩
    · rw [hs]
      exact AList.lookup_insert _
    · rw [hs]
      exact ⟨_, v', x, ⟨Function.update_self _ _ _, he.hash, he.inode⟩, hc.hash, hc.vinode⟩

/-- What `vfs_open` does, and that it creates at most one file. -/
theorem vfsOpen_made {path : Path} {flags : ℕ} (h : Inv s) (hp : s.disk.ParentsOk path.1) :
    Sat (vfsOpen s path.1 flags)
      (fun r => VfsOpenPost s path.1 r ∧ (r.2.Over ∨ Made R_FILE 0 s r.2)) NoAssert := by
  unfold vfsOpen
  refine Sat.bind ((lookupFinalDentry_sat h hp).mono' fun _ hf => hf.noAssert) ?_
  rintro ⟨r, s₁⟩ ⟨hext, hr⟩
  have h₁ := hext.steps.inv h
  have hq := hext.steps.quiet h
  cases r with
  | found t q =>
    dsimp only at hr ⊢
    rcases hr with hr | ⟨j, hj, hdj, -⟩
    · -- the root of the system is no file
      obtain ⟨rfl, -⟩ := Lookup.found.inj hr
      obtain ⟨e, v, x, he, -, hx, htype, -⟩ := h₁.tables.root
      rw [← hq.root]
      refine (openDentry_sat he).mono fun r hr => ?_
      rcases hr with ⟨hr, hs⟩ | ⟨fl, e', v', x', hr, ht, he', hx', htype', hs⟩
      · exact ⟨.inr (.inl ⟨hr, hs ▸ hext.steps.isEdit⟩), .inr (.inl (hs ▸ hext.steps))⟩
      · obtain ⟨-, rfl⟩ := he.unique he'
        obtain rfl := Option.some.inj (hx'.symm.trans hx)
        exact absurd (htype'.symm.trans htype) (by decide)
    · obtain ⟨e, v, x, he, hc⟩ := hdj
      refine (openDentry_sat he).mono fun r hr => ?_
      have hquiet := hext.steps.trans (hr.steps h₁)
      refine ⟨.inr ?_, .inr (.inl hquiet)⟩
      rcases hr.file ⟨e, v, x, he, hc⟩ with hn | ⟨f, fl, hf, hl, hd⟩
      · exact .inl ⟨hn, hquiet.isEdit⟩
      · exact .inr ⟨f, fl, j, hf, hl, hd, .inl ⟨hj, hquiet⟩⟩
  | missing q n =>
    rcases hr with hr | ⟨hnone, hm⟩
    · cases hr
    dsimp only at hm ⊢
    split
    · exact ⟨.inr (.inl ⟨rfl, hext.steps.isEdit⟩), .inr (.inl hext.steps)⟩
    refine Sat.bind (createFile_sat h₁ hm) ?_
    rintro ⟨t, s₂⟩ ht
    cases t with
    | none =>
      dsimp only at ht
      subst ht
      exact ⟨.inr (.inl ⟨rfl, hext.steps.isEdit⟩), .inr (.inl hext.steps)⟩
    | some t =>
      rcases ht with ho | ⟨hcr, i, hdi⟩
      · exact (openDentry_over ho).mono fun r hr => ⟨.inl hr, .inl hr⟩
      · have h₂ := hcr.steps.inv h₁
        obtain ⟨e, v, x, he, hc⟩ := hdi
        refine (openDentry_sat he).mono fun r hr => ?_
        have hcr' := (hcr.before hext.steps).after (hr.steps h₂)
        refine ⟨.inr ?_, .inr (.inr hcr')⟩
        rcases hr.file ⟨e, v, x, he, hc⟩ with hn | ⟨f, fl, hf, hl, hd⟩
        · exact .inl ⟨hn, hcr'.steps⟩
        · exact .inr ⟨f, fl, i, hf, hl, hd, .inr ⟨hnone, hcr'⟩⟩

/-- **`vfs_open`.** -/
theorem vfsOpen_sat {path : Path} {flags : ℕ} (h : Inv s) (hp : s.disk.ParentsOk path.1) :
    Sat (vfsOpen s path.1 flags) (VfsOpenPost s path.1) NoAssert :=
  (vfsOpen_made h hp).mono fun _ hr => hr.1

/-! ## `vfs_mkdir` -/

/-- `vfs_mkdir` creates at most one directory. -/
theorem vfsMkdir_made {path : Path} (h : Inv s) (hp : s.disk.ParentsOk path.1) :
    Sat (vfsMkdir s path.1) (fun r => r.2.Over ∨ Made R_DIR 1 s r.2) NoAssert := by
  unfold vfsMkdir
  refine Sat.bind ((lookupFinalDentry_sat h hp).mono' fun _ hf => hf.noAssert) ?_
  rintro ⟨r, s₁⟩ ⟨hext, hr⟩
  dsimp only at hext
  have h₁ := hext.steps.inv h
  cases r with
  | found t q => exact .inr (.inl hext.steps)
  | missing p n =>
    rcases hr with hr | ⟨-, hm⟩
    · cases hr
    dsimp only at hm ⊢
    refine Sat.bind getBaseName_sat fun basename _ => ?_
    split
    · exact .inr (.inl hext.steps)
    rename_i heq
    obtain rfl : n = basename := not_not.1 heq
    rw [allocVfsDentry_eq, ok_bind]
    have hlt : ∀ {d vd y}, Cached s₁ d vd y → vd ≠ s₁.pages + 1 := fun hy => by
      have := h₁.tables.page_lt_vinode hy.vinode
      omega
    obtain ⟨e, v, he, hsat⟩ := create_sat rfsMkdir h₁ hm (.inr ⟨rfl, rfl⟩)
      (fun d vd y hy hdir hs hn => by
        have hv : (dentryState s₁ p n).vinodes vd = some y := hy.vinode
        refine ((rfsMkdir_sat hv hn hdir hs (h₁.inum_lt hy) (hlt hy)).mono ?_).mono'
          fun _ hf => hf.noAssert
        rintro r ⟨i, k, buf, hf, z, hz, rfl⟩
        refine ⟨i, k, buf, z, ⟨hf.inum_lt, hf.free, hf.block_lt, hf.unused⟩, hz, fun hdin => ?_⟩
        rw [show (madeDisk (dentryState s₁ p n).disk y n i z).dinode i = z from hdin]
        rfl)
      fun d vd y hy ht => by
        have hv : (dentryState s₁ p n).vinodes vd = some y := hy.vinode
        exact rfsMkdir_keeps hv ht (h₁.inum_lt hy) (hlt hy)
    dsimp only
    rw [h₁.dentryState_inode he, ok_bind]
    refine Sat.bind hsat ?_
    rintro ⟨r, s₂⟩ ⟨hr, hatt⟩
    dsimp only at hr
    subst hr
    refine Sat.bind hatt fun s' hs' => ?_
    exact hs'.imp id fun hc => .inr (hc.1.before hext.steps)

/-- **`vfs_mkdir`.** -/
theorem vfsMkdir_sat {path : Path} (h : Inv s) (hp : s.disk.ParentsOk path.1) :
    Sat (vfsMkdir s path.1) (fun r => r.2.Over ∨ Steps IsEdit s r.2) NoAssert :=
  (vfsMkdir_made h hp).mono fun _ hr => hr.imp_right Made.steps

/-! ## `vfs_link` -/

/-- The state with a new dentry for the vinode `w` that is not in the table yet. -/
def linkState (s : State) (p : ℕ) (n : Name) (w : ℕ) (l : Vinode) : State :=
  { s with
    pages := s.pages + 1
    dentries := Function.update s.dentries s.pages
      (some { name := n, dRef := 0, dentryInode := some w, parent := some p })
    vinodes := Function.update s.vinodes w (some { l with ref := l.ref + 1 }) }

theorem allocVfsDentry_some {l : Vinode} (hw : s.vinodes w = some l) :
    allocVfsDentry s n (some w) (some p) = .ok (s.pages, linkState s p n w l) := by
  have hw' : ((s.allocPage.2).setDentry s.pages
      { name := n, dRef := 0, dentryInode := some w, parent := some p }).vinodes w = some l := hw
  unfold allocVfsDentry
  dsimp only [State.allocPage] at hw' ⊢
  rw [addRef_eq hw', ok_bind]
  rfl

section Link

variable {l : Vinode} (h : Inv s) (he : Hashed s p e vd) (hy : Cached s d vd y)
  (hl : Cached s j w l) (hf : l.type = FILE_I) (hd : (s.vol.node d).type = DIR_I)

include h he hy hl hf hd

theorem linkState_inode : (linkState s p n w l).dentryInode p = .ok vd ∧
    viopSb (linkState s p n w l) vd = .ok () ∧ (linkState s p n w l).vinodes vd = some y := by
  have hlt := h.tables.page_lt_dentry he.dentry
  obtain ⟨-, hw, -⟩ := h.file_ne_dir hy hd hl hf
  have hden : (linkState s p n w l).dentry p = .ok e :=
    State.dentry_eq_ok.2 ((Function.update_of_ne hlt.ne _ _).trans he.dentry)
  have hv : (linkState s p n w l).vinodes vd = some y :=
    (Function.update_of_ne hw.symm _ _).trans hy.vinode
  refine ⟨?_, ?_, hv⟩
  · rw [State.dentryInode, hden, ok_bind, he.inode]
  · rw [viopSb, State.vinode_eq_ok.2 hv, ok_bind, (h.tables.inum_eq hy).2]
    rfl

/-- A new link in a directory with room. -/
theorem link_made (hr : Room s.vol d n) (hk : s.dentryHashTable.lookup (some p, n) = none) :
    ∃ s₁ s', rfsLink (linkState s p n w l) vd n w = .ok (0, s₁) ∧
      hashPutDentry s₁ s.pages = .ok s' ∧ Steps IsEdit s s' := by
  obtain ⟨hdir, hsize, -⟩ := h.dir_of_cached hy hd
  obtain ⟨hne, hw, hj, -⟩ := h.file_ne_dir hy hd hl hf
  obtain ⟨-, -, hv⟩ := linkState_inode (n := n) h he hy hl hf hd
  have hinum := (h.tables.inum_eq hy).1
  have hinum' := (h.tables.inum_eq hl).1
  have hlt := hr.length_lt
  have hw' : (linkState s p n w l).vinodes w = some { l with ref := l.ref + 1 } :=
    Function.update_self _ _ _
  have hlinum := h.inum_lt hl
  obtain ⟨buf, hlink⟩ :=
    rfsLink_eq hv hr.valid hdir (by omega) (h.inum_lt hy) hw' hlinum (Ne.symm hw)
  have hyf : Dinode.Fits { y.toDinode with size := y.size + 32 } := h.fits_size hy (by omega)
  have hlf : Dinode.Fits { l.toDinode with nlinks := l.nlinks + 1 } := by
    have hfit := h.good.fits j
    have hle := h.good.links_le j
    have hj0 : j ≠ 0 := by
      rintro rfl
      exact absurd (hj.symm.trans h.good.root) (by decide)
    have hn := (h.good.nlinks j (h.paths.inUse j w l hl) hj0).1
    rw [h.node_eq hl] at hfit hn
    refine ⟨hfit.size, hfit.type, ?_, hfit.blocks, hfit.addrs, hfit.past⟩
    change l.nlinks + 1 < 2 ^ 32
    have hbound : ninodes * 128 < 2 ^ 31 := by decide
    omega
  set dk : Disk := Disk.setDinode (Disk.setDinode
    (Function.update s.disk (y.addrs 0) (putEntry (s.disk (y.addrs 0)) y.size n l.inum))
    y.inum { y.toDinode with size := y.size + 32 })
    l.inum { l.toDinode with nlinks := l.nlinks + 1 } with hdk
  set s₀ : State := { s with iobuffer := buf, pages := s.pages + 1 } with hs₀
  have hinv₀ : Inv s₀ := h.scratch buf (Nat.le_succ _)
  have hlinking : Linking s₀ d vd y j w l n dk := by
    refine ⟨⟨hy.hash, hy.vinode⟩, hr, ⟨hl.hash, hl.vinode⟩, hf, ?_⟩
    rw [hdk, hinum, hinum']
    exact (((DiskIs.refl _).update hdir.data).setDinode (h.lt hy) hyf).setDinode (h.lt hl) hlf
  set s₂ : State := s₀.link vd y w l dk with hs₂
  have hvol₂ := (hlinking.edited hinv₀).vol_edit hinv₀
  have hp₂ : DentryOf s₂ p d :=
    ⟨e, vd, { y with size := y.size + 32 }, ⟨he.dentry, he.hash, he.inode⟩, hy.hash,
      Function.update_self _ _ _⟩
  have hm₂ : (n, j) ∈ s₂.vol.dir d := by
    rw [hvol₂, Edit.dir_self]
    exact List.mem_append_right _ (List.mem_singleton_self _)
  have henter := Trans.enter hp₂ (hlinking.cached hinv₀) hm₂ hk
    (h.tables.fresh s.pages (by omega)).1
    (Nat.lt_succ_self _)
  have hscr : Trans s .quiet s₀ := .scratch buf (Nat.le_succ _)
  refine ⟨_, _, hlink, hashPutDentry_eq (Function.update_self _ _ _) hk, ?_⟩
  have hsteps := ((Steps.single (P := IsEdit) hscr (.inl rfl)).tail (.link hlinking)
    (.inr rfl)).tail
    henter (.inl rfl)
  convert hsteps using 1
  have hvs : Function.update (Function.update (Function.update s.vinodes w
      (some { l with ref := l.ref + 1 })) w
      (some { l with ref := l.ref + 1, nlinks := l.nlinks + 1 })) vd
      (some { y with size := y.size + 32 }) =
      Function.update (Function.update (Function.update s.vinodes w
        (some { l with nlinks := l.nlinks + 1 })) vd (some { y with size := y.size + 32 })) w
        (some { l with ref := l.ref + 1, nlinks := l.nlinks + 1 }) := by
    rw [Function.update_idem, Function.update_comm (Ne.symm hw), Function.update_idem]
  simp only [linkState, State.addDentry, State.link, hs₂, hs₀, hvs, hdk]

end Link

/-- **`vfs_link`.** -/
theorem vfsLink_sat {oldpath newpath : Path} (h : Inv s) (hp : s.disk.ParentsOk oldpath.1)
    (hp' : s.disk.ParentsOk newpath.1) :
    Sat (vfsLink s oldpath.1 newpath.1) (fun r => r.2.Over ∨ Steps IsEdit s r.2) NoAssert := by
  unfold vfsLink
  refine Sat.bind ((lookupFinalDentry_sat h hp).mono' fun _ hf => hf.noAssert) ?_
  rintro ⟨r, s₁⟩ ⟨hext, hr⟩
  dsimp only at hext
  have h₁ := hext.steps.inv h
  have hq := hext.steps.quiet h
  cases r with
  | missing p n => exact .inr hext.steps.isEdit
  | found t q =>
    dsimp only
    refine Sat.bind dentryInode_sat fun w hw => ?_
    refine Sat.bind vinode_sat fun l hl => ?_
    split
    · exact .inr hext.steps.isEdit
    rename_i htype
    have hf : l.type = FILE_I := not_not.1 htype
    have hcached : ∃ j, Cached s₁ j w l := by
      rcases hr with hr | ⟨j, -, ⟨e, v, x, he, hc⟩, -⟩
      · obtain ⟨rfl, -⟩ := Lookup.found.inj hr
        obtain ⟨e, v, x, he, -, hx, hd, -⟩ := h₁.tables.root
        rw [hq.root] at he
        rw [he.inodeOf] at hw
        obtain rfl := Option.some.inj hw
        obtain rfl := Option.some.inj (hx.symm.trans hl)
        exact absurd (hf.symm.trans hd) (by decide)
      · rw [he.inodeOf] at hw
        obtain rfl := Option.some.inj hw
        obtain rfl := Option.some.inj (hc.vinode.symm.trans hl)
        exact ⟨j, hc⟩
    obtain ⟨j, hc⟩ := hcached
    rw [← hq.disk] at hp'
    refine Sat.bind ((lookupFinalDentry_sat h₁ hp').mono' fun _ hf => hf.noAssert) ?_
    rintro ⟨r, s₂⟩ ⟨hext₂, hr₂⟩
    dsimp only at hext₂
    have h₂ := hext₂.steps.inv h₁
    have hsteps := (hext.trans hext₂).steps
    obtain ⟨l₂, hc₂, hl₂⟩ := hext₂.cached j w l hc
    have hf₂ : l₂.type = FILE_I := (congrArg Dinode.type hl₂).trans hf
    cases r with
    | found t q => exact .inr hsteps.isEdit
    | missing p n =>
      rcases hr₂ with hr₂ | ⟨-, d, ⟨e, vd, y, he, hy⟩, hd, hn, hnew, hk⟩
      · cases hr₂
      dsimp only at hy hd hn hnew hk ⊢
      refine Sat.bind getBaseName_sat fun basename _ => ?_
      split
      · exact .inr hsteps.isEdit
      rename_i heq
      obtain rfl : n = basename := not_not.1 heq
      obtain ⟨hinode, hsb, hv⟩ := linkState_inode (n := n) h₂ he hy hc₂ hf₂ hd
      obtain ⟨hdir, -, -⟩ := h₂.dir_of_cached hy hd
      obtain ⟨-, hw, -⟩ := h₂.file_ne_dir hy hd hc₂ hf₂
      rw [allocVfsDentry_some hc₂.vinode, ok_bind]
      dsimp only
      rw [hinode, ok_bind, viopLink, hsb, ok_bind]
      by_cases hs : y.size < 4096
      · obtain ⟨s₃, s', hlink, hput, hst⟩ :=
          link_made h₂ he hy hc₂ hf₂ hd (h₂.room hy hd hn hnew hs) hk
        rw [hlink, ok_bind, if_neg (not_not.2 rfl), hput, ok_bind]
        exact .inr (hsteps.isEdit.trans hst)
      · have hw' : (linkState s₂ p n w l₂).vinodes w = some { l₂ with ref := l₂.ref + 1 } :=
          Function.update_self _ _ _
        have hlinum := h₂.inum_lt hc₂
        refine Sat.bind (rfsLink_keeps hv hdir.type (h₂.inum_lt hy) hw' hlinum hw.symm) ?_
        rintro ⟨err, s₃⟩ hkeep
        have hover : 4096 < y.size + 32 := by omega
        have ho : s₃.Over := ⟨d, vd, _, ⟨hkeep.2 _ _ hy.hash, hkeep.1⟩, hdir.type, hover⟩
        split
        · exact .inl ho
        · refine Sat.bind (P := fun s => s.Over) ?_ fun s' ho' => .inl ho'
          unfold hashPutDentry
          refine Sat.bind dentry_sat fun e _ => ?_
          obtain ⟨d', v', x', hc', hx'⟩ := ho
          split
          · exact ⟨d', v', x', hc', hx'⟩
          · exact ⟨d', v', x', ⟨hc'.hash, hc'.vinode⟩, hx'⟩

end HustOS.Fs
