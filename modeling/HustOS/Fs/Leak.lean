import HustOS.Fs.Contents

/-!
# The block of a new file

`rfs_create` takes a block for a new file and stores its number in `addrs[0]`, but leaves `blocks`
at 0; the first `rfs_write` takes another block for the same place. The first block stays marked in
the bitmap and belongs to no inode: it is `Leaked`. No transition frees such a block
(`Trans.leaked`), so no sequence of operations gives the bitmap back as it was before a creation
(`create_leaks`).
-/

namespace HustOS.Fs

open Foundations

variable {s s' : State} {op : Op} {r : Ret} {tag : Tag} {d vd i j k v f : ℕ} {x : Dinode}
  {y : Vinode} {P : Tag → Prop}

/-- The block `k` of the data area is marked and belongs to no inode in use. -/
structure State.Leaked (s : State) (k : ℕ) : Prop where
  marked : s.freemap k ≠ 0
  nobody : ∀ i, s.vol.InUse i → RFS_BLK_OFFSET_FREE + k ∉ (s.vol.node i).blks

/-- A change of a directory and of the inode `j` leaves the block alone, if `j` does not get it. -/
theorem Edited.leaked {es : List (Name × ℕ)} (he : Edited s s' d vd j y es x) (h : Inv s)
    (hn : ∀ i, s.vol.InUse i → RFS_BLK_OFFSET_FREE + k ∉ (s.vol.node i).blks)
    (hk : s'.freemap k ≠ 0)
        (hj : x.type ≠ R_FREE → RFS_BLK_OFFSET_FREE + k ∉ x.blks) : s'.Leaked k := by
  have hvol := he.vol_edit h
  refine ⟨hk, fun i hi => ?_⟩
  rw [Vol.InUse] at hi
  rw [hvol] at hi ⊢
  by_cases hij : i = j
  · rw [hij, Edit.node_self] at hi ⊢
    exact hj hi
  · by_cases hid : i = d
    · have hnode : (s.vol.edit d j es x s'.vol.used).node d =
          { s.vol.node d with size := 32 * es.length } :=
        (Function.update_of_ne he.ne.symm _ _).trans (Function.update_self _ _ _)
      rw [hid, hnode]
      exact hn d (dir_type_ne he.type)
    · rw [Edit.node_other hij hid] at hi ⊢
      exact hn i hi

/-- A new value of the vinode of a file leaves the block alone, if the file does not get it. -/
theorem Inv.leaked_update (h : Inv s) {z : Vinode} (hc : Cached s i v y) (hl : s.Leaked k)
    (hd : s'.disk = s.disk) (hh : s'.vinodeHashTable = s.vinodeHashTable)
    (hv : s'.vinodes = Function.update s.vinodes v (some z)) (hk : s'.freemap k ≠ 0)
    (hz : RFS_BLK_OFFSET_FREE + k ∉ z.blks) : s'.Leaked k := by
  refine ⟨hk, fun j hj => ?_⟩
  by_cases hji : j = i
  · have hcached : Cached s' i v z := ⟨hh ▸ hc.hash, by rw [hv, Function.update_self]⟩
    have hnode : s'.vol.node i = z.toDinode := (node_of_lt (h.lt hc)).trans hcached.cur
    rw [hji, hnode]
    exact hz
  · have hnode : s'.vol.node j = s.vol.node j := h.node_update hc hd hh hv hji
    rw [Vol.InUse, hnode] at hj
    rw [hnode]
    exact hl.nobody j hj

/-- **No transition frees the block.** -/
theorem Trans.leaked (ht : Trans s tag s') (h : Inv s) (hl : s.Leaked k) : s'.Leaked k := by
  have hq : tag = .quiet → s'.Leaked k := by
    rintro rfl
    have hq := ht.quiet h
    refine ⟨?_, ?_⟩
    · rw [hq.freemap]
      exact hl.marked
    · rw [hq.vol]
      exact hl.nobody
  cases ht with
  | scratch | load | enter | leave | openFile | seek | cacheDir => exact hq rfl
  | closeFile file hashed => exact ⟨hl.marked, hl.nobody⟩
  | evict node file ref disk =>
    refine ⟨hl.marked, ?_⟩
    rw [h.vol_evict node disk]
    exact hl.nobody
  | @make d vd j k' y n x d' making =>
    have hne : k ≠ k' := by
      rintro rfl
      exact hl.marked making.fresh.unused
    have hk : (s.make vd y k' d').freemap k = s.freemap k := Function.update_of_ne hne _ _
    refine (making.edited h).leaked h hl.nobody (hk ▸ hl.marked) fun _ hmem => ?_
    obtain ⟨m, hm, haddr⟩ := Dinode.mem_blks.1 hmem
    rcases making.new with rfl | rfl
    · exact absurd hm (Nat.not_lt_zero m)
    · obtain rfl : m = 0 := Nat.lt_one_iff.1 hm
      simp only [madeNode, Function.update_self] at haddr
      exact hne (Nat.add_left_cancel haddr).symm
  | @link d vd j w y l n d' linking =>
    refine (linking.edited h).leaked h hl.nobody hl.marked fun _ => ?_
    have := hl.nobody j (h.paths.inUse _ _ _ linking.node)
    rw [h.node_eq linking.node] at this
    exact this
  | @unlink d vd j w m k' y l n d' unlinking =>
    refine (unlinking.edited h).leaked h hl.nobody hl.marked fun _ => ?_
    have := hl.nobody j (h.paths.inUse _ _ _ unlinking.node)
    rw [h.node_eq unlinking.node] at this
    exact this
  | @remove d vd j w k' y l n d' removing =>
    have hnot : RFS_BLK_OFFSET_FREE + k ∉ (s.disk.dinode j).blks := fun hmem => by
      have hb := (h.sync _ _ _ removing.node).mem_blks hmem
      rw [← h.node_eq removing.node] at hb
      exact hl.nobody j (h.paths.inUse _ _ _ removing.node) hb
    have hk : (s.remove vd y j w d').freemap k = s.freemap k := if_neg hnot
    exact (removing.edited h).leaked h hl.nobody (hk ▸ hl.marked) fun hx => absurd rfl hx
  | write buf node file mem =>
    refine ⟨hl.marked, ?_⟩
    rw [(h.vol_write buf node file mem).2]
    exact hl.nobody
  | @grow j v k' x node file opened blocks lt unused =>
    have hne : k ≠ k' := by
      rintro rfl
      exact hl.marked unused
    have hk : (s.grow v x k').freemap k = s.freemap k := Function.update_of_ne hne _ _
    refine h.leaked_update node hl rfl rfl rfl (hk ▸ hl.marked) fun hmem => ?_
    obtain ⟨m, hm, haddr⟩ := Dinode.mem_blks.1 hmem
    by_cases hmb : m = x.blocks
    · simp only [hmb, Function.update_self] at haddr
      exact hne (Nat.add_left_cancel haddr).symm
    · have hold : x.addrs m = RFS_BLK_OFFSET_FREE + k :=
        (Function.update_of_ne hmb _ _).symm.trans haddr
      refine hl.nobody j (h.paths.inUse _ _ _ node) ?_
      rw [h.node_eq node]
      exact Dinode.mem_blks.2 ⟨m, by have : m < x.blocks + 1 := hm; omega, hold⟩
  | @resize j v size x node file opened le =>
    refine h.leaked_update node hl rfl rfl rfl hl.marked ?_
    have := hl.nobody j (h.paths.inUse _ _ _ node)
    rw [h.node_eq node] at this
    exact this

/-- No sequence of operations frees the block. -/
theorem leaked_of_runOps {ops : List Op} (h : Inv s) (hl : s.Leaked k)
    (hs : runOps s ops = some s') : s'.Leaked k := by
  induction ops generalizing s with
  | nil =>
    obtain rfl := Option.some.inj hs
    exact hl
  | cons op ops ih =>
    obtain ⟨r, s₁, hstep, hrest⟩ := step_of_runOps hs
    have hboth : Inv s₁ ∧ s₁.Leaked k := by
      refine (hstep.steps h).keeps (I := fun s => Inv s ∧ s.Leaked k) ⟨h, hl⟩ ?_
      rintro s₂ s₃ tag - ht ⟨h₂, hl₂⟩
      exact ⟨ht.inv h₂, ht.leaked h₂ hl₂⟩
    exact ih hboth.1 hboth.2 hrest

/-- The creation of a file takes a block that belongs to nobody. -/
theorem Created.leaks (h : Inv s) (hc : Created R_FILE 0 s s') :
    ∃ k, s.freemap k = 0 ∧ s'.Leaked k := by
  obtain ⟨s₀, d, vd, y, i, k, n, z, d', hs₀, hm, hz, hs'⟩ := hc
  have h₀ := hs₀.inv h
  have hm' := hm.inv h₀
  have hfree : ∀ j, s₀.vol.InUse j → RFS_BLK_OFFSET_FREE + k ∉ (s₀.vol.node j).blks := by
    intro j hj hmem
    have := (mem_used.1 (h₀.good.owned.mem j hj _ hmem)).2
    rw [Nat.add_sub_cancel_left] at this
    exact this hm.fresh.unused
  have hmark : (s₀.make vd y k d').freemap k = 1 := Function.update_self _ _ _
  have hmake : (s₀.make vd y k d').Leaked k := by
    refine (hm.edited h₀).leaked h₀ hfree (by rw [hmark]; decide) fun _ hmem => ?_
    obtain ⟨m, hm, -⟩ := Dinode.mem_blks.1 hmem
    rw [hz] at hm
    exact absurd hm (Nat.not_lt_zero m)
  have hq := hs'.quiet hm'
  refine ⟨k, ?_, ?_, ?_⟩
  · rw [← (hs₀.quiet h).freemap]
    exact hm.fresh.unused
  · rw [hq.freemap]
    exact hmake.marked
  · rw [hq.vol]
    exact hmake.nobody

/-- The cycle of a new file: it is created as the file `f`, written, closed and unlinked. -/
def cycle (path : Path) (flags f : ℕ) (ws : List (Buf × ℕ)) : List Op :=
  .open path flags :: (ws.map fun w => .write f w.1 w.2) ++ [.close f, .unlink path]

/-- An open that returns a file that was not there has created it. -/
theorem Step.created {path : Path} {flags : ℕ} (hs : Step s (.open path flags) (.file (some f)) s')
    (h : Inv s) (hnew : s.disk.resolve path.1 = none) : Created R_FILE 0 s s' := by
  have hsat : Sat (vfsOpen s path.1 flags) (VfsOpenPost s path.1) NoAssert :=
    vfsOpen_sat h (hs.parents path (List.mem_singleton_self _))
  have hexec := hs.exec
  rw [Fs.exec] at hexec
  obtain ⟨⟨f', s₁⟩, hopen, hret⟩ := (bind_ok_iff _ _ _).1 hexec
  obtain ⟨hfile, rfl⟩ := Prod.mk.inj (Except.ok.inj hret)
  obtain rfl := Ret.file.inj hfile
  rw [hopen] at hsat
  rcases hsat with ho | ⟨hnone, -⟩ | ⟨f', fl, j, -, -, -, ⟨hj, -⟩ | ⟨-, hcr⟩⟩
  · exact absurd hs.limits (not_limits_of_over ho)
  · cases hnone
  · rw [hnew] at hj
    cases hj
  · exact hcr

/-- **A file that is created, written, closed and unlinked always costs a block.** In every state of
a run, for every path of a file that is not there yet and for all writes, the cycle does not give
the bitmap back as it was. -/
theorem create_leaks {path : Path} {flags : ℕ} {s₁ : State} (h : Reachable s)
    (hnew : s.disk.resolve path.1 = none)
    (hopen : exec (.open path flags) s = .ok (.file (some f), s₁)) (ws : List (Buf × ℕ)) :
    ¬ ∃ s', runOps s (cycle path flags f ws) = some s' ∧ s'.freemap = s.freemap := by
  rintro ⟨s', hrun, hfree⟩
  have hinv := h.inv
  obtain ⟨r, s₂, hstep, hrest⟩ := step_of_runOps hrun
  have hret := hstep.exec.symm.trans hopen
  obtain ⟨rfl, rfl⟩ := Prod.mk.inj (Except.ok.inj hret)
  obtain ⟨k, hk, hl⟩ := (hstep.created hinv hnew).leaks hinv
  have hl' := leaked_of_runOps ((hstep.steps hinv).inv hinv) hl hrest
  exact hl'.marked (by rw [hfree, hk])

/-- A file with one write, in the system that has just started. -/
theorem create_leaks_blank : ∃ s s₁, Reachable s ∧ s.disk.resolve pathA.1 = none ∧
    exec (.open pathA (O_CREAT + O_RDWR)) s = .ok (.file (some 7), s₁) ∧
    ¬ ∃ s', runOps s (cycle pathA (O_CREAT + O_RDWR) 7 [(fun _ => 65, 3)]) = some s' ∧
      s'.freemap = s.freemap := by
  have hrun : (runFrom blank []).map (fun s => (s.disk.resolve pathA.1,
      match exec (.open pathA (O_CREAT + O_RDWR)) s with
      | .ok (.file f, _) => f
      | _ => none)) = some (none, some 7) := by decide +kernel
  obtain ⟨s, hs, hval⟩ := Option.map_eq_some_iff.1 hrun
  obtain ⟨hnew, hfile⟩ := Prod.mk.inj hval
  split at hfile
  · rename_i f s₁ hopen
    subst hfile
    have h := reachable_of_runFrom hs
    exact ⟨s, s₁, h, hnew, hopen, create_leaks h hnew hopen _⟩
  · cases hfile

/-- The file `"a"` gets 3 bytes and is removed: the block 1 of the data area was free before it was
created, and is still marked afterwards. -/
theorem block_lost : ∃ s s', Reachable s ∧ s.disk.resolve pathA.1 = none ∧
    runOps s (cycle pathA (O_CREAT + O_RDWR) 7 [(fun _ => 65, 3)]) = some s' ∧
    s.freemap 1 = 0 ∧ s'.freemap 1 = 1 ∧ s'.disk.resolve pathA.1 = none := by
  have hrun : (runFrom blank []).bind (fun s =>
      (runOps s (cycle pathA (O_CREAT + O_RDWR) 7 [(fun _ => 65, 3)])).map fun s' =>
        (s.disk.resolve pathA.1, s.freemap 1, s'.freemap 1, s'.disk.resolve pathA.1)) =
      some (none, 0, 1, none) := by decide +kernel
  obtain ⟨s, hs, hnext⟩ := Option.bind_eq_some_iff.1 hrun
  obtain ⟨s', hs', hval⟩ := Option.map_eq_some_iff.1 hnext
  simp only [Prod.mk.injEq] at hval
  obtain ⟨hnew, hfree, hmarked, hgone⟩ := hval
  exact ⟨s, s', reachable_of_runFrom hs, hnew, hs', hfree, hmarked, hgone⟩

end HustOS.Fs
