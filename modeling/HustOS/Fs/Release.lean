import HustOS.Fs.Create

/-!
# Operations that close or remove a name

`vfs_close`, `vfs_unlink` and `vfs_opendir` as sequences of transitions. The last close through a
dentry forgets it, and the vinode with its last dentry (`ClosePost`). A removal forgets the dentry
first; with the last link no other dentry leads to the vinode (`Inv.ref_of_last`), so that the
assertion of `vfs_unlink` holds.
-/

namespace HustOS.Fs

open Foundations

variable {s s' s'' : State} {t p d v w u i j b k vd f : ℕ} {e : Dentry} {x : Vinode} {y : Vinode}
  {n : Name} {fl : File}

/-! ## Dentries and vinodes -/

theorem hashEraseDentry_eq (he : s.dentries t = some e) :
    hashEraseDentry s t =
      .ok { s with dentryHashTable := s.dentryHashTable.erase (e.parent, e.name) } := by
  rw [hashEraseDentry, State.dentry_eq_ok.2 he]
  rfl

theorem freeVfsDentry_eq (he : s.dentries t = some e) (hd : e.dRef = 0) :
    freeVfsDentry s t = .ok (s.freeDentry t) := by
  rw [freeVfsDentry, State.dentry_eq_ok.2 he, ok_bind, if_neg (by omega)]
  rfl

theorem hashEraseVinode_eq (hv : s.vinodes v = some x) (hx : x.inum < ninodes) :
    hashEraseVinode s v =
      .ok { s with vinodeHashTable := s.vinodeHashTable.erase (x.sb, x.inum) } := by
  rw [hashEraseVinode, State.vinode_eq_ok.2 hv, ok_bind,
    if_neg (Nat.not_le.2 (hx.trans (by decide)))]
  rfl

/-- A dentry that is not open is forgotten, with its part of the reference count. -/
theorem dropDentry_bind {α : Type} (rest : State → Except Fault α) (he : s.dentries t = some e)
    (hd : e.dRef = 0) (hv : s.vinodes v = some x) :
    (hashEraseDentry s t >>= fun s => freeVfsDentry s t >>= fun s => addRef s v (-1) >>= rest) =
      rest (s.dropDentry t e v x) := by
  set s₁ : State :=
    { s with dentryHashTable := s.dentryHashTable.erase (e.parent, e.name) } with hs₁
  have he₁ : s₁.dentries t = some e := he
  have hv₁ : (s₁.freeDentry t).vinodes v = some x := hv
  rw [hashEraseDentry_eq he, ok_bind, freeVfsDentry_eq he₁ hd, ok_bind, addRef_eq hv₁, ok_bind]
  rfl

/-- A vinode is written back and forgotten. -/
theorem evict_eq (hv : s.vinodes v = some x) (hi : x.inum < ninodes) (hsb : x.sb = .rfs) :
    ∃ buf, (do
        let s ← viopWriteBackVinode s v
        let s ← hashEraseVinode s v
        return s.freeVinode v) = Except.ok { s.dropVinode x.inum v
          (s.disk.setDinode x.inum x.toDinode) with iobuffer := buf } := by
  have hviop : viopSb s v = .ok () := by
    rw [viopSb, State.vinode_eq_ok.2 hv, ok_bind, hsb]
    rfl
  obtain ⟨buf, hw⟩ := rfsWriteBackVinode_eq hv hi
  set s₁ : State := { s with disk := s.disk.setDinode x.inum x.toDinode, iobuffer := buf } with hs₁
  have hv₁ : s₁.vinodes v = some x := hv
  refine ⟨buf, ?_⟩
  rw [viopWriteBackVinode, hviop, ok_bind, hw, ok_bind, hashEraseVinode_eq hv₁ hi, ok_bind, hsb]
  rfl

/-- The open files of a dentry are not negative in number. -/
theorem Tables.dRef_nonneg (h : Tables s) (he : Hashed s t e v) : 0 ≤ e.dRef := by
  rw [h.dRef t e v he]
  exact Int.natCast_nonneg _

/-! ## `vfs_close` -/

/-- What `vfs_close` does to an open file of the inode `i`: the file is closed; the last close
through its dentry forgets that, and with the last dentry the vinode is written back and
forgotten. -/
inductive ClosePost (s : State) (fl : File) (e : Dentry) (i v : ℕ) (x : Vinode) (f : ℕ) :
    State → Prop
  | shared (dRef : e.dRef ≠ 1) : ClosePost s fl e i v x f (s.dropFile f fl e)
  | named (dRef : e.dRef = 1) (ref : x.ref ≠ 1) : ClosePost s fl e i v x f
      ((s.dropFile f fl e).dropDentry fl.fDentry { e with dRef := e.dRef - 1 } v x)
  | last {buf : Buf} {dk : Disk} (dRef : e.dRef = 1) (ref : x.ref = 1)
      (disk : DiskIs dk (Function.update s.disk.dinode i x.toDinode) s.disk) :
      ClosePost s fl e i v x f
        { ((s.dropFile f fl e).dropDentry fl.fDentry { e with dRef := e.dRef - 1 } v x).dropVinode
            i v dk with iobuffer := buf }

/-- The tag is one of the transitions of `vfs_close`. -/
def IsClose (tag : Tag) : Prop := tag = .quiet ∨ tag = .closes ∨ tag = .edits

theorem ClosePost.steps (hf : s.files.lookup f = some fl) (he : Hashed s fl.fDentry e v)
    (hc : Cached s i v x) (hx : x.type = FILE_I) (hp : ClosePost s fl e i v x f s') :
    Steps IsClose s s' := by
  have hclose : Trans s .closes (s.dropFile f fl e) := .closeFile hf he
  have hsteps : Steps IsClose s (s.dropFile f fl e) := .single hclose (.inr (.inl rfl))
  have hhash : Hashed (s.dropFile f fl e) fl.fDentry { e with dRef := e.dRef - 1 } v :=
    ⟨Function.update_self _ _ _, he.hash, he.inode⟩
  have hc₁ : Cached (s.dropFile f fl e) i v x := ⟨hc.hash, hc.vinode⟩
  have hleave : e.dRef = 1 → Trans (s.dropFile f fl e) .quiet
      ((s.dropFile f fl e).dropDentry fl.fDentry { e with dRef := e.dRef - 1 } v x) := fun hd =>
    .leave hhash hc₁ hx (by simp [hd])
  cases hp with
  | shared dRef => exact hsteps
  | named dRef ref => exact hsteps.tail (hleave dRef) (.inl rfl)
  | last dRef ref disk =>
    have hc₂ : Cached ((s.dropFile f fl e).dropDentry fl.fDentry
      { e with dRef := e.dRef - 1 } v x) i v
        { x with ref := x.ref - 1 } := ⟨hc.hash, Function.update_self _ _ _⟩
    have hevict := Trans.evict  hc₂ hx (by simp [ref]) disk
    have hall := (hsteps.tail (hleave dRef) (.inl rfl)).tail hevict (.inr (.inr rfl))
    exact hall.tail (.scratch _ (Nat.le_refl _)) (.inl rfl)

/-- The part of `vfs_close` on the dentry of the file. -/
theorem releaseDentry_eq (h : Inv s) (hc : Cached s i v x) :
    ∃ s₁, releaseDentry (s.setDentry fl.fDentry { e with dRef := e.dRef - 1 }) fl.fDentry v
        (e.dRef - 1) = .ok s₁ ∧ s₁.files = s.files ∧
      ClosePost s fl e i v x f { s₁ with files := s.files.erase f } := by
  unfold releaseDentry
  by_cases hd : e.dRef = 1
  · have hinum := h.inum_lt hc
    obtain ⟨hi, hsb⟩ := h.tables.inum_eq hc
    set s₁ : State := s.setDentry fl.fDentry { e with dRef := e.dRef - 1 } with hs₁
    set e₁ : Dentry := { e with dRef := e.dRef - 1 } with he₁
    have hden : s₁.dentries fl.fDentry = some e₁ := Function.update_self _ _ _
    have hdr : e₁.dRef = 0 := by
      change e.dRef - 1 = 0
      omega
    have hv₁ : s₁.vinodes v = some x := hc.vinode
    rw [if_neg (by omega), dropDentry_bind _ hden hdr hv₁]
    have hv₂ : (s₁.dropDentry fl.fDentry e₁ v x).vinodes v = some { x with ref := x.ref - 1 } :=
      Function.update_self _ _ _
    have hs₂ : { s₁.dropDentry fl.fDentry e₁ v x with files := s.files.erase f } =
        (s.dropFile f fl e).dropDentry fl.fDentry e₁ v x := rfl
    rw [State.vinode_eq_ok.2 hv₂, ok_bind]
    by_cases hr : x.ref = 1
    · have hr' : x.ref - 1 = 0 := by omega
      obtain ⟨buf, hev⟩ := evict_eq hv₂ hinum hsb
      have hfit : x.toDinode.Fits := by
        rw [← h.node_eq hc]
        exact h.good.fits i
      have hdisk : DiskIs (s.disk.setDinode x.inum x.toDinode)
          (Function.update s.disk.dinode i x.toDinode) s.disk := by
        rw [hi]
        exact (DiskIs.refl _).setDinode (h.lt hc) hfit
      refine ⟨_, (if_pos hr').trans hev, rfl, ?_⟩
      subst hi
      exact .last hd hr hdisk
    · rw [if_neg (by change ¬ x.ref - 1 = 0; omega)]
      refine ⟨_, rfl, rfl, ?_⟩
      rw [hs₂]
      exact .named hd hr
  · rw [if_pos (by omega)]
    exact ⟨_, rfl, rfl, .shared hd⟩

/-- **`vfs_close`.** -/
theorem vfsClose_sat (h : Inv s) :
    Sat (vfsClose s f)
      (fun r => (∃ fl e v x, r.1 = -1 ∧ r.2 = s ∧ s.files.lookup f = some fl ∧
          Hashed s fl.fDentry e v ∧ s.vinodes v = some x ∧ x.type ≠ FILE_I) ∨
        ∃ fl e i v x, r.1 = 0 ∧ s.files.lookup f = some fl ∧ Hashed s fl.fDentry e v ∧
          Cached s i v x ∧ x.type = FILE_I ∧ ClosePost s fl e i v x f r.2) NoAssert := by
  unfold vfsClose
  unfold State.file
  cases hf : s.files.lookup f with
  | none => exact noAssert_undefined _
  | some fl =>
    rw [ok_bind]
    obtain ⟨e, v, he⟩ := h.tables.file f fl hf
    obtain ⟨x, hx⟩ := h.tables.live he
    dsimp only
    rw [he.dentryInode, ok_bind, State.vinode_eq_ok.2 hx, ok_bind]
    split
    · exact .inl ⟨fl, e, v, x, rfl, rfl, rfl, he, hx, ‹_›⟩
    rename_i htype
    have hfile : x.type = FILE_I := not_not.1 htype
    obtain ⟨i, hc⟩ := h.cached_of_file he hx hfile
    have hsb : viopSb s v = .ok () := by
      rw [viopSb, State.vinode_eq_ok.2 hx, ok_bind, (h.tables.inum_eq hc).2]
      rfl
    obtain ⟨s₁, hrel, hfiles, hpost⟩ := releaseDentry_eq (e := e) (f := f) h hc
    rw [hsb, ok_bind, State.dentry_eq_ok.2 he.dentry, ok_bind, hrel, ok_bind]
    refine .inr ⟨fl, e, i, v, x, rfl, rfl, he, hc, hfile, ?_⟩
    rw [hfiles]
    exact hpost

/-! ## `vfs_unlink` -/

/-- With distinct names, the first entry with a name is the entry with that name. -/
theorem dirErase_eq {es : List (Name × ℕ)} (hn : (es.map Prod.fst).Nodup) (hm : (n, j) ∈ es) :
    dirErase es n = es.erase (n, j) := by
  induction es with
  | nil => rfl
  | cons a es ih =>
    rw [List.map_cons, List.nodup_cons] at hn
    by_cases ha : a = (n, j)
    · subst ha
      rw [List.erase_cons_head, dirErase, List.eraseP_cons_of_pos (by simp)]
    · have hm' : (n, j) ∈ es := (List.mem_cons.1 hm).resolve_left (Ne.symm ha)
      have hne : a.1 ≠ n := by
        rintro rfl
        exact hn.1 (List.mem_map.2 ⟨_, hm', rfl⟩)
      rw [List.erase_cons_tail (by simpa using ha), dirErase,
        List.eraseP_cons_of_neg (by simpa using hne)]
      exact congrArg (a :: ·) (ih hn.2 hm')

section Unlink

variable (h : Inv s) (he : Hashed s t e v) (hc : Cached s j v x) (hx : x.type = FILE_I)
  (hp : e.parent = some p) (hpd : DentryOf s p d) (hm : (e.name, j) ∈ s.vol.dir d)
  (hd : e.dRef = 0)

include h he hc hp hpd hm

/-- Without its dentry the name is not in the table. -/
theorem absent_of_drop : ∀ q, DentryOf (s.dropDentry t e v x) q d →
    (s.dropDentry t e v x).dentryHashTable.lookup (some q, e.name) = none := by
  rintro q ⟨e', w, z, he', hz⟩
  have hdt := h.good.dir_of_mem hm
  have hz' : ∃ z', Cached s d w z' := by
    have hhash : (s.dropDentry t e v x).vinodeHashTable = s.vinodeHashTable := rfl
    have hvs : (s.dropDentry t e v x).vinodes =
        Function.update s.vinodes v (some { x with ref := x.ref - 1 }) := rfl
    rcases cached_of_ref hhash hvs h.tables hc hz with ⟨rfl, rfl, -⟩ | ⟨-, hz⟩
    · exact ⟨x, hc⟩
    · exact ⟨z, hz⟩
  obtain ⟨z', hz'⟩ := hz'
  have hne : q ≠ t := by
    rintro rfl
    have hself : (s.dropDentry q e v x).dentries q = none := Function.update_self _ _ _
    have := he'.dentry
    rw [hself] at this
    cases this
  have heq : q = p := by
    refine h.dentryOf_unique hdt ⟨e', w, z', ⟨?_, ?_, he'.inode⟩, hz'⟩ hpd
    · exact (Function.update_of_ne hne _ _).symm.trans he'.dentry
    · have hk := he'.hash
      change (s.dentryHashTable.erase (e.parent, e.name)).lookup _ = _ at hk
      rw [lookup_erase_eq] at hk
      split at hk
      · cases hk
      · exact hk
  rw [heq, ← hp]
  exact AList.lookup_erase _ _

include hx hd

/-- **Without its dentry no dentry leads to a file with one link.** -/
theorem ref_of_last (hn : x.nlinks = 1) : x.ref - 1 = 0 := by
  have hleave : Trans s .quiet (s.dropDentry t e v x) := .leave he hc hx hd
  have h' := hleave.inv h
  have hvol := (hleave.quiet h).vol
  have hc' : Cached (s.dropDentry t e v x) j v { x with ref := x.ref - 1 } :=
    ⟨hc.hash, Function.update_self _ _ _⟩
  have hj0 : j ≠ 0 := (h.good.entries d _ hm).2.2
  have hlinks := (h.good.nlinks j (h.paths.inUse j v x hc) hj0).1
  rw [h.node_eq hc] at hlinks
  by_contra hr
  have hpos : 0 < tally (s.dropDentry t e v x).dentryHashTable
      fun u => (s.dropDentry t e v x).inodeOf u = some v := by
    have := h'.tables.ref j v _ hc'
    dsimp only at this
    omega
  obtain ⟨key, t', hk, hi⟩ := tally_pos_iff.1 hpos
  obtain ⟨e', v', he', -⟩ := h'.tables.dentry key t' hk
  rw [he'.inodeOf] at hi
  obtain rfl := Option.some.inj hi
  obtain ⟨q, d', hq, hqd, hm'⟩ := h'.parent_of_mem he' hc' (by rw [hvol]; exact hm)
  rw [hvol] at hm'
  obtain ⟨rfl, hname⟩ := h.good.link_unique (by omega) hm hm'
  have := absent_of_drop h he hc hp hpd hm q hqd
  have hkey := he'.hash
  rw [hq, ← hname, this] at hkey
  cases hkey

end Unlink

/-- What `vfs_unlink` does to the file `j` when it returns 0: after quiet transitions, one name less
or the removal of the file. -/
inductive UnlinkPost (s : State) (j : ℕ) : State → Prop
  | name {s₀ : State} {d vd w m k : ℕ} {y l : Vinode} {n : Name} {d' : Disk}
      (steps : Steps IsQuiet s s₀) (unlinking : Unlinking s₀ d vd y j w l n m k d') :
      UnlinkPost s j (s₀.unlink vd y w l m d')
  | last {s₀ : State} {d vd w k : ℕ} {y l : Vinode} {n : Name} {d' : Disk}
      (steps : Steps IsQuiet s s₀) (removing : Removing s₀ d vd y j w l n k d') :
      UnlinkPost s j (s₀.remove vd y j w d')

theorem UnlinkPost.after (hs : Steps IsQuiet s s') (h : UnlinkPost s' j s'') :
    UnlinkPost s j s'' := by
  cases h with
  | name steps unlinking => exact .name (hs.trans steps) unlinking
  | last steps removing => exact .last (hs.trans steps) removing

/-- The part of `vfs_unlink` behind the checks. -/
def unlinkTail (s : State) (t v vd : ℕ) (n : Name) : Except Fault (ℤ × State) := do
  let (err, s) ← viopUnlink s vd n v
  if err ≠ 0 then
    return (-1, s)
  let s ← forgetDentry s t v
  return (0, s)

section Unlink

variable (h : Inv s) (he : Hashed s t e v) (hc : Cached s j v x) (hx : x.type = FILE_I)
  (hp : e.parent = some p) (hpd : DentryOf s p d) (hm : (e.name, j) ∈ s.vol.dir d)
  (hd : e.dRef = 0) (hy : Cached s d vd y)

include h he hc hx hp hpd hm hd hy

/-- The state without the dentry, from which the name is removed. -/
theorem nameOf_drop (buf : Buf) (hk : k < (s.vol.dir d).length)
    (hidx : (s.vol.dir d).eraseIdx k = (s.vol.dir d).erase (e.name, j)) :
    Steps IsQuiet s (State.dropDentry { s with iobuffer := buf } t e v x) ∧
      NameOf (State.dropDentry { s with iobuffer := buf } t e v x) d vd y j v
        { x with ref := x.ref - 1 } e.name k ∧
      ∀ q, DentryOf (State.dropDentry { s with iobuffer := buf } t e v x) q d →
        (State.dropDentry { s with iobuffer := buf } t e v x).dentryHashTable.lookup
          (some q, e.name) = none := by
  have hscr : Trans s .quiet { s with iobuffer := buf, pages := s.pages } :=
    .scratch buf (Nat.le_refl _)
  have he₁ : Hashed { s with iobuffer := buf } t e v := ⟨he.dentry, he.hash, he.inode⟩
  have hc₁ : Cached { s with iobuffer := buf } j v x := ⟨hc.hash, hc.vinode⟩
  have hleave : Trans { s with iobuffer := buf } .quiet _ := .leave he₁ hc₁ hx hd
  have hsteps := (Steps.single (P := IsQuiet) hscr rfl).tail hleave rfl
  have hvol := (hsteps.quiet h).vol
  have hne := (h.file_ne_dir hy (h.good.dir_of_mem hm) hc hx).2.1
  have hpd₁ : DentryOf { s with iobuffer := buf } p d :=
    (Extends.scratch s buf (Nat.le_refl _)).dentryOf hpd
  refine ⟨hsteps, ⟨?_, ?_, hx, ?_, ?_, ?_⟩,
    absent_of_drop (h.scratch buf (Nat.le_refl _)) he₁ hc₁ hp hpd₁ hm⟩
  · exact ⟨hy.hash, (Function.update_of_ne hne.symm _ _).trans hy.vinode⟩
  · exact ⟨hc.hash, Function.update_self _ _ _⟩
  · rw [hvol]
    exact hm
  · rw [hvol]
    exact hk
  · rw [hvol]
    exact hidx

/-- **The removal of a name** does not fail. -/
theorem unlinkTail_eq :
    ∃ s', unlinkTail s t v vd e.name = .ok (0, s') ∧ UnlinkPost s j s' := by
  have hdt := h.good.dir_of_mem hm
  obtain ⟨hdir, hsize, hlist⟩ := h.dir_of_cached hy hdt
  obtain ⟨hne, hw, hj, -⟩ := h.file_ne_dir hy hdt hc hx
  obtain ⟨hinum, hsb⟩ := h.tables.inum_eq hy
  have hj0 : j ≠ 0 := (h.good.entries d _ hm).2.2
  have hlinks := h.good.nlinks j (h.paths.inUse j v x hc) hj0
  have hle := h.good.links_le j
  have hbehind := h.sync j v x hc
  have hfind := dirFind_of_mem (h.good.names d) hm
  have hfit := h.good.fits j
  rw [h.node_eq hc] at hlinks hfit
  rw [hlist] at hfind
  obtain ⟨buf, k, hk, hidx, hun⟩ := rfsUnlink_found (w := v) hy.vinode (h.good.entries d _ hm).1
    hdir.readable hfind
  rw [← hlist, dirErase_eq (h.good.names d) hm] at hidx
  have hk' : k < (s.vol.dir d).length := by omega
  have hname := fun buf => nameOf_drop h he hc hx hp hpd hm hd hy buf hk' hidx
  have hviop : viopSb s vd = .ok () := by
    rw [viopSb, State.vinode_eq_ok.2 hy.vinode, ok_bind, hsb]
    rfl
  have hyf : Dinode.Fits { y.toDinode with size := y.size - 32 } :=
    h.fits_size hy (by have := hdir.size_le; omega)
  obtain ⟨m, hm1⟩ : ∃ m, x.nlinks = m + 1 := ⟨x.nlinks - 1, by omega⟩
  have hbound : ninodes * 128 < 2 ^ 31 := by decide
  have hblock : ∀ z : Dinode, s.disk.setDinode j z (y.addrs 0) = s.disk (y.addrs 0) := fun z =>
    hdir.data.setDinode (h.lt hc)
  unfold unlinkTail
  rw [viopUnlink, hviop, ok_bind, hun]
  set s₀ : State := { s with iobuffer := buf } with hs₀
  have hv₀ : s₀.vinodes v = some x := hc.vinode
  by_cases hpos : 0 < m
  · obtain ⟨buf₁, hdrop⟩ := dropLink_eq hv₀ (h.lt hc) hm1 (hbehind.nlinks.trans hm1) hpos (by omega)
    rw [hdrop, ok_bind]
    set s₁ : State := { s₀ with
      disk := s₀.disk.setDinode j { s₀.disk.dinode j with nlinks := m }
      iobuffer := buf₁
      vinodes := Function.update s₀.vinodes v (some { x with nlinks := m }) } with hs₁
    have hy₁ : s₁.vinodes vd = some y := (Function.update_of_ne hw.symm _ _).trans hy.vinode
    obtain ⟨buf₂, hrem⟩ := removeDirentry_eq hy₁ hdir hk (h.inum_lt hy)
    rw [hrem, ok_bind]
    set s₂ : State := { s₁ with
      disk := Disk.setDinode (Function.update s₁.disk (y.addrs 0)
        (dropEntry (s₁.disk (y.addrs 0)) k)) y.inum { y.toDinode with size := y.size - 32 }
      iobuffer := buf₂
      vinodes := Function.update s₁.vinodes vd (some { y with size := y.size - 32 }) } with hs₂
    have hv₂ : s₂.vinodes v = some { x with nlinks := m } :=
      (Function.update_of_ne hw _ _).trans (Function.update_self _ _ _)
    have hv₃ : (s₂.dropDentry t e v { x with nlinks := m }).vinodes v =
        some { x with nlinks := m, ref := x.ref - 1 } := Function.update_self _ _ _
    have he₂ : s₂.dentries t = some e := he.dentry
    have hforget : forgetDentry s₂ t v = .ok (s₂.dropDentry t e v { x with nlinks := m }) := by
      unfold forgetDentry
      rw [dropDentry_bind _ he₂ hd hv₂, State.vinode_eq_ok.2 hv₃, ok_bind,
        if_neg (by change ¬ m = 0; omega)]
      rfl
    dsimp only
    rw [if_neg (not_not.2 rfl), hforget, ok_bind]
    refine ⟨_, rfl, ?_⟩
    obtain ⟨hsteps, hnm, habs⟩ := hname buf₂
    have hdisk : DiskIs s₂.disk
        (Function.update (Function.update s.disk.dinode j { s.disk.dinode j with nlinks := m }) d
          { y.toDinode with size := y.size - 32 })
        (Function.update s.disk (y.addrs 0) (dropEntry (s.disk (y.addrs 0)) k)) := by
      have hblk : s₁.disk (y.addrs 0) = s.disk (y.addrs 0) := hblock _
      simp only [hs₂, hblk, hinum]
      have hfit' := s.disk.fits_dinode j
      refine (((DiskIs.refl s.disk).setDinode (h.lt hc) ?_).update hdir.data).setDinode
        (h.lt hy) hyf
      exact ⟨hfit'.size, hfit'.type, by change m < 2 ^ 32; omega, hfit'.blocks, hfit'.addrs,
        hfit'.past⟩
    have hpost := UnlinkPost.name hsteps
      { hnm with absent := habs, nlinks := hm1, pos := hpos, disk := hdisk }
    convert hpost using 1
    have hvs : Function.update (Function.update (Function.update s.vinodes v
        (some { x with nlinks := m })) vd (some { y with size := y.size - 32 })) v
        (some { x with nlinks := m, ref := x.ref - 1 }) =
        Function.update (Function.update (Function.update s.vinodes v
          (some { x with ref := x.ref - 1 })) v (some { x with nlinks := m, ref := x.ref - 1 })) vd
          (some { y with size := y.size - 32 }) := by
      rw [Function.update_comm hw.symm, Function.update_idem, Function.update_idem]
    simp only [State.dropDentry, State.unlink, hs₂, hs₁, hs₀, hvs]
  · -- the last name: no other dentry leads to the vinode
    obtain rfl : m = 0 := by omega
    have href := ref_of_last h he hc hx hp hpd hm hd hm1
    have hfile := h.good.isFile hj
    rw [h.node_eq hc] at hfile
    have hdata : ∀ b ∈ (s.disk.dinode j).blks, IsData b := fun b hb =>
      h.isData_of_mem hc (hbehind.mem_blks hb)
    obtain ⟨buf₁, hdrop⟩ := dropLink_last hv₀ (h.lt hc) hm1 (hbehind.nlinks.trans hm1)
      (hbehind.blocks.trans hfile.blocks_le) hdata
    rw [hdrop, ok_bind]
    set s₁ : State := { s₀ with
      disk := s₀.disk.setDinode j { s₀.disk.dinode j with nlinks := 0, type := R_FREE }
      freemap := fun k =>
        if RFS_BLK_OFFSET_FREE + k ∈ (s₀.disk.dinode j).blks then 0 else s₀.freemap k
      iobuffer := buf₁
      vinodes := Function.update s₀.vinodes v (some { x with nlinks := 0 }) } with hs₁
    have hy₁ : s₁.vinodes vd = some y := (Function.update_of_ne hw.symm _ _).trans hy.vinode
    obtain ⟨buf₂, hrem⟩ := removeDirentry_eq hy₁ hdir hk (h.inum_lt hy)
    rw [hrem, ok_bind]
    set s₂ : State := { s₁ with
      disk := Disk.setDinode (Function.update s₁.disk (y.addrs 0)
        (dropEntry (s₁.disk (y.addrs 0)) k)) y.inum { y.toDinode with size := y.size - 32 }
      iobuffer := buf₂
      vinodes := Function.update s₁.vinodes vd (some { y with size := y.size - 32 }) } with hs₂
    have he₂ : s₂.dentries t = some e := he.dentry
    have hv₂ : s₂.vinodes v = some { x with nlinks := 0 } :=
      (Function.update_of_ne hw _ _).trans (Function.update_self _ _ _)
    set s₃ : State := s₂.dropDentry t e v { x with nlinks := 0 } with hs₃
    have hv₃ : s₃.vinodes v = some { x with nlinks := 0, ref := x.ref - 1 } :=
      Function.update_self _ _ _
    obtain ⟨hxi, hxs⟩ := h.tables.inum_eq hc
    have hxlt := h.inum_lt hc
    have hforget : forgetDentry s₂ t v = .ok (State.freeVinode { s₃ with
        vinodeHashTable := s₃.vinodeHashTable.erase (x.sb, x.inum) } v) := by
      unfold forgetDentry
      rw [dropDentry_bind _ he₂ hd hv₂, ← hs₃, State.vinode_eq_ok.2 hv₃, ok_bind, if_pos rfl,
        if_neg (by change ¬ x.ref - 1 ≠ 0; omega), hashEraseVinode_eq hv₃ hxlt, ok_bind]
      rfl
    dsimp only
    rw [if_neg (not_not.2 rfl), hforget, ok_bind]
    refine ⟨_, rfl, ?_⟩
    obtain ⟨hsteps, hnm, -⟩ := hname buf₂
    have hdisk : DiskIs s₂.disk
        (Function.update
          (Function.update s.disk.dinode j { s.disk.dinode j with nlinks := 0, type := R_FREE }) d
          { y.toDinode with size := y.size - 32 })
        (Function.update s.disk (y.addrs 0) (dropEntry (s.disk (y.addrs 0)) k)) := by
      have hblk : s₁.disk (y.addrs 0) = s.disk (y.addrs 0) := hblock _
      simp only [hs₂, hblk, hinum]
      have hfit' := s.disk.fits_dinode j
      refine (((DiskIs.refl s.disk).setDinode (h.lt hc) ?_).update hdir.data).setDinode
        (h.lt hy) hyf
      exact ⟨hfit'.size, (by decide : R_FREE < 2 ^ 32), (by decide : 0 < 2 ^ 32), hfit'.blocks,
        hfit'.addrs, hfit'.past⟩
    have hpost := UnlinkPost.last hsteps
      { hnm with ref := href, nlinks := hm1, disk := hdisk }
    convert hpost using 1
    have hvs : Function.update (Function.update (Function.update (Function.update s.vinodes v
        (some { x with nlinks := 0 })) vd (some { y with size := y.size - 32 })) v
        (some { x with nlinks := 0, ref := x.ref - 1 })) v none =
        Function.update (Function.update (Function.update s.vinodes v
          (some { x with ref := x.ref - 1 })) vd (some { y with size := y.size - 32 })) v none := by
      rw [Function.update_idem, Function.update_comm hw.symm, Function.update_idem,
        Function.update_comm hw.symm, Function.update_idem]
    simp only [State.freeVinode, State.dropDentry, State.remove, hs₃, hs₂, hs₁, hs₀, hvs]
    rw [hxi, hxs]
    rfl

end Unlink

/-- **`vfs_unlink`.** -/
theorem vfsUnlink_sat {path : Path} (h : Inv s) (hp : s.disk.ParentsOk path.1) :
    Sat (vfsUnlink s path.1)
      (fun r => (r.1 = -1 ∧ Steps IsQuiet s r.2) ∨
        ∃ j, r.1 = 0 ∧ s.disk.resolve path.1 = some j ∧ UnlinkPost s j r.2) NoAssert := by
  unfold vfsUnlink
  refine Sat.bind ((lookupFinalDentry_sat h hp).mono' fun _ hf => hf.noAssert) ?_
  rintro ⟨r, s₁⟩ ⟨hext, hr⟩
  dsimp only at hext
  have h₁ := hext.steps.inv h
  have hq := hext.steps.quiet h
  cases r with
  | missing p n => exact .inl ⟨rfl, hext.steps⟩
  | found t p =>
    dsimp only
    refine Sat.bind dentry_sat fun e he => ?_
    refine Sat.bind dentryInode_sat fun v hv => ?_
    refine Sat.bind vinode_sat fun x hx => ?_
    split
    · exact .inl ⟨rfl, hext.steps⟩
    rename_i htype
    have hfile : x.type = FILE_I := not_not.1 htype
    split
    · exact .inl ⟨rfl, hext.steps⟩
    rename_i hopen
    rcases hr with hr | ⟨j, hj, ⟨e', v', x', he', hc'⟩, hfound⟩
    · obtain ⟨rfl, -⟩ := Lookup.found.inj hr
      obtain ⟨e₀, v₀, x₀, he₀, -, hx₀, hd₀, -⟩ := h₁.tables.root
      rw [hq.root] at he₀
      rw [he₀.inodeOf] at hv
      obtain rfl := Option.some.inj hv
      obtain rfl := Option.some.inj (hx₀.symm.trans hx)
      exact absurd (hfile.symm.trans hd₀) (by decide)
    · dsimp only at he' hc' hfound
      rw [he'.inodeOf] at hv
      obtain rfl := Option.some.inj hv
      obtain rfl := Option.some.inj (he'.dentry.symm.trans he)
      obtain rfl := Option.some.inj (hc'.vinode.symm.trans hx)
      have hnr := (h₁.file_ne_root hc' hfile he').2
      obtain ⟨e₂, v₂, x₂, d, he₂, hc₂, hpar, hpd, hm⟩ := hfound.resolve_left hnr
      obtain ⟨rfl, rfl⟩ := he'.unique he₂
      have hnonneg := h₁.tables.dRef_nonneg he'
      obtain ⟨ep, vd, y, hep, hy⟩ := hpd
      obtain ⟨s', hs', hpost⟩ := unlinkTail_eq h₁ he' hc' hfile hpar ⟨ep, vd, y, hep, hy⟩ hm
        (by omega) hy
      rw [hep.dentryInode, ok_bind]
      change Sat (unlinkTail s₁ t v₂ vd e₂.name) _ _
      rw [hs']
      exact .inr ⟨j, rfl, hj, hpost.after hext.steps⟩

/-! ## `vfs_opendir` -/

/-- Reading a directory into its cache. -/
theorem viopHookOpendir_sat (h : Inv s) (hy : Cached s d vd y) (hd : y.type = DIR_I) :
    ∃ s', viopHookOpendir s vd = .ok s' ∧ Steps IsQuiet s s' := by
  obtain ⟨-, hsb⟩ := h.tables.inum_eq hy
  have hdt : (s.vol.node d).type = DIR_I := by
    rw [h.node_eq hy]
    exact hd
  obtain ⟨hdir, -⟩ := h.dir_of_cached hy hdt
  have hs : viopHookOpendir s vd = .ok { s with
      iobuffer := s.disk (y.addrs 0)
      pages := s.pages + 1
      vinodes :=
        Function.update s.vinodes vd (some { y with iFsInfo := some (dirCache s y) }) } := by
    unfold viopHookOpendir
    rw [State.vinode_eq_ok.2 hy.vinode, ok_bind]
    split
    · rename_i hhost
      exact absurd (hsb.symm.trans hhost) (by decide)
    · rw [rfsHookOpendir_eq hy.vinode hdir, ok_bind]
      rfl
  refine ⟨_, hs, ?_⟩
  have hscratch : Trans s .quiet
      { s with iobuffer := s.disk (y.addrs 0), pages := s.pages + 1 } :=
    .scratch _ (Nat.le_succ _)
  have hcache := Trans.cacheDir (i := d) (v := vd) (x := y) (some (dirCache s y))
    (s := { s with iobuffer := s.disk (y.addrs 0), pages := s.pages + 1 }) ⟨hy.hash, hy.vinode⟩
  exact (Steps.single (P := IsQuiet) hscratch rfl).tail hcache rfl

/-- **`vfs_opendir`.** -/
theorem vfsOpendir_sat {path : Path} (h : Inv s) (hp : s.disk.ParentsOk path.1) :
    Sat (vfsOpendir s path.1) (fun r => Steps IsQuiet s r.2) NoAssert := by
  unfold vfsOpendir
  refine Sat.bind ((lookupFinalDentry_sat h hp).mono' fun _ hf => hf.noAssert) ?_
  rintro ⟨r, s₁⟩ ⟨hext, hr⟩
  dsimp only at hext
  have h₁ := hext.steps.inv h
  have hq := hext.steps.quiet h
  cases r with
  | missing p n => exact hext.steps
  | found t p =>
    dsimp only
    refine Sat.bind dentryInode_sat fun v hv => ?_
    refine Sat.bind vinode_sat fun x hx => ?_
    split
    · exact hext.steps
    rename_i htype
    rcases hr with hr | ⟨j, -, ⟨e, v', x', he, hc⟩, -⟩
    · -- the root of the system has no directory cache
      obtain ⟨rfl, -⟩ := Lookup.found.inj hr
      obtain ⟨e, v', x', he, -, hx', -, hsb⟩ := h₁.tables.root
      rw [hq.root] at he
      rw [he.inodeOf] at hv
      obtain rfl := Option.some.inj hv
      rw [allocVfsFile_eq he.dentry, ok_bind]
      have hhook (s₂ : State) (hv₂ : s₂.vinodes v' = some x') : viopHookOpendir s₂ v' = .ok s₂ := by
        rw [viopHookOpendir, State.vinode_eq_ok.2 hv₂, ok_bind, hsb]
        rfl
      dsimp only
      rw [hhook _ (by exact hx')]
      exact hext.steps.trans (addFile_steps h₁ he)
    · dsimp only at he hc
      rw [he.inodeOf] at hv
      obtain rfl := Option.some.inj hv
      obtain rfl := Option.some.inj (hc.vinode.symm.trans hx)
      rw [allocVfsFile_eq he.dentry, ok_bind]
      have hadd : Steps IsQuiet s₁ (State.addFile { s₁ with pages := s₁.pages + 1 } s₁.pages
          { readable := true, writable := false, offset := 0, fDentry := t } e) :=
        addFile_steps h₁ he
      obtain ⟨s₂, hs₂, hsteps⟩ := viopHookOpendir_sat (hadd.inv h₁)
        (show Cached _ j v' x' from ⟨hc.hash, hc.vinode⟩) (not_not.1 htype)
      dsimp only
      rw [hs₂]
      exact (hext.steps.trans hadd).trans hsteps

end HustOS.Fs
