import HustOS.Fs.Trans

/-!
# The caches and the open files

The transitions of the two tables and of the open files leave the volume as it is (`vol_congr`) and
keep the invariant.
-/

namespace HustOS.Fs

open Foundations

variable {s s' : State} {t p d v w i j b : ℕ} {e : Dentry} {x x' y : Vinode} {n : Name}

/-! ## Volumes -/

/-- The same inodes, bitmap and blocks of the directories give the same volume. -/
theorem vol_congr (h : Good s.vol) (hn : ∀ k, s'.node k = s.node k)
    (hd : ∀ k, (s.node k).type = DIR_I →
      s'.disk ((s.node k).addrs 0) = s.disk ((s.node k).addrs 0))
    (hf : s'.freemap = s.freemap) : s'.vol = s.vol := by
  refine Vol.ext (funext hn) (funext fun k => ?_) ?_
  · change (if (s'.node k).type = DIR_I then dirList s'.disk (s'.node k) else []) =
      if (s.node k).type = DIR_I then dirList s.disk (s.node k) else []
    rw [hn k]
    split
    · rename_i hk
      have hle := (h.isDir hk).size_le
      change (s.node k).size ≤ 4096 at hle
      rw [dirList_eq hle, dirList_eq hle, hd k hk]
    · rfl
  · change Finset.filter _ _ = Finset.filter _ _
    rw [hf]

/-- A transition that changes nothing the volume depends on, nor the tables beyond reference counts
of dentries. -/
theorem Inv.quiet (h : Inv s) (hs : SameTables s s') (hfiles : FilesOk s')
    (hv : ∀ v, (s'.vinodes v).map Vinode.toDinode = (s.vinodes v).map Vinode.toDinode)
    (hd : s'.disk = s.disk) (hf : s'.freemap = s.freemap) : Inv s' := by
  have hvol : s'.vol = s.vol := by
    refine vol_congr h.good (fun k => ?_) (fun k _ => by rw [hd]) hf
    exact node_congr (by rw [hs.vinodeHash]) (fun v _ => hv v) fun _ => by rw [hd]
  refine ⟨hvol ▸ h.good, hs.tables h.tables hfiles, ?_, fun i v x' hc => ?_, hs.sb ▸ h.nblocks⟩
  · rw [hvol]
    exact hs.paths h.paths (fun _ hi => hi) (fun _ _ hi => hi) fun _ _ _ _ _ _ _ _ _ _ _ hm => hm
  · obtain ⟨x, hc', -⟩ := hs.cached_of hc
    have := hv v
    rw [hc.vinode, hc'.vinode, Option.map_some, Option.map_some] at this
    rw [hd, Option.some.inj this]
    exact h.sync i v x hc'

theorem Inv.scratch (h : Inv s) (buf : Buf) {k : ℕ} (hk : s.pages ≤ k) :
    Inv { s with iobuffer := buf, pages := k } := by
  have hs : SameTables s { s with iobuffer := buf, pages := k } :=
    ⟨fun _ => rfl, fun _ => rfl, rfl, rfl, rfl, rfl, hk⟩
  exact h.quiet hs (hs.filesOk h.tables rfl rfl) (fun _ => rfl) rfl rfl

theorem Inv.cacheDir (h : Inv s) (c : Option DirCache) (hc : Cached s i v x) :
    Inv { s with vinodes := Function.update s.vinodes v (some { x with iFsInfo := c }) } := by
  have hkey : Vinode.key { x with iFsInfo := c } = x.key := rfl
  have hs : SameTables s
      { s with vinodes := Function.update s.vinodes v (some { x with iFsInfo := c }) } :=
    ⟨fun _ => rfl, map_key_update hc.vinode hkey, rfl, rfl, rfl, rfl, Nat.le_refl _⟩
  refine h.quiet hs (hs.filesOk h.tables rfl rfl) (fun w => ?_) rfl rfl
  by_cases hw : w = v
  · simp only [hw, Function.update_self, hc.vinode, Option.map_some]
  · simp only [Function.update_of_ne hw]

/-! ## The open files -/

/-- A dentry with a new reference count. -/
theorem Inv.refile (h : Inv s) {files : AList fun _ : ℕ => File} {r : ℤ} (he : Hashed s t e v)
    (hr : r = tally files fun f => f.fDentry = t)
    (ho : ∀ t', t' ≠ t → tally files (fun f => f.fDentry = t') =
      tally s.files fun f => f.fDentry = t')
    (hf : ∀ f fl, files.lookup f = some fl → ∃ e v, Hashed s fl.fDentry e v)
    (hp : ∀ k, s.pages ≤ k → files.lookup k = none) :
    Inv { s with
      files := files
      dentries := Function.update s.dentries t (some { e with dRef := r }) } := by
  set s' : State := { s with
    files := files
    dentries := Function.update s.dentries t (some { e with dRef := r }) } with hs'
  have hkey : Dentry.key { e with dRef := r } = e.key := rfl
  have hs : SameTables s s' :=
    ⟨map_dkey_update he.dentry hkey, fun _ => rfl, rfl, rfl, rfl, rfl, Nat.le_refl _⟩
  refine h.quiet hs ⟨fun t' e' v' he' => ?_, fun f fl hfl => ?_, hp⟩ (fun _ => rfl) rfl rfl
  · by_cases ht : t' = t
    · subst ht
      have : s'.dentries t' = some { e with dRef := r } := Function.update_self _ _ _
      obtain rfl := Option.some.inj (he'.dentry.symm.trans this)
      exact hr
    · have : s'.dentries t' = s.dentries t' := Function.update_of_ne ht _ _
      rw [h.tables.dRef t' e' v' ⟨this ▸ he'.dentry, he'.hash, he'.inode⟩, ← ho t' ht]
  · obtain ⟨e', v', he'⟩ := hf f fl hfl
    obtain ⟨e'', he'', -⟩ := hs.hashed_to he'
    exact ⟨e'', v', he''⟩

theorem Inv.openFile (h : Inv s) {f : ℕ} {fl : File} (he : Hashed s fl.fDentry e v)
    (hf : s.files.lookup f = none) (hlt : f < s.pages) :
    Inv (s.addFile f fl e) := by
  refine h.refile he ?_ (fun t' ht => ?_) (fun g gl hg => ?_) fun k hk => ?_
  · rw [tally_insert hf, if_pos rfl, h.tables.dRef _ _ _ he]
    norm_cast
  · rw [tally_insert hf, if_neg (Ne.symm ht), Nat.add_zero]
  · rw [lookup_insert_eq] at hg
    split at hg
    · obtain rfl := Option.some.inj hg
      exact ⟨e, v, he⟩
    · exact h.tables.file g gl hg
  · rw [lookup_insert_eq, if_neg (by omega)]
    exact (h.tables.fresh k hk).2.2

theorem Inv.closeFile (h : Inv s) {f : ℕ} {fl : File} (hf : s.files.lookup f = some fl)
    (he : Hashed s fl.fDentry e v) :
    Inv (s.dropFile f fl e) := by
  refine h.refile he ?_ (fun t' ht => ?_) (fun g gl hg => ?_) fun k hk => ?_
  · have := tally_erase (p := fun g : File => g.fDentry = fl.fDentry) hf
    rw [if_pos rfl] at this
    rw [h.tables.dRef _ _ _ he]
    omega
  · have := tally_erase (p := fun g : File => g.fDentry = t') hf
    rwa [if_neg (Ne.symm ht)] at this
  · rw [lookup_erase_eq] at hg
    split at hg
    · cases hg
    · exact h.tables.file g gl hg
  · rw [lookup_erase_eq]
    split
    · rfl
    · exact (h.tables.fresh k hk).2.2

theorem Inv.seek (h : Inv s) {f : ℕ} {fl fl' : File} (hf : s.files.lookup f = some fl)
    (hsame : fl'.fDentry = fl.fDentry) : Inv { s with files := s.files.insert f fl' } := by
  have hs : SameTables s { s with files := s.files.insert f fl' } :=
    ⟨fun _ => rfl, fun _ => rfl, rfl, rfl, rfl, rfl, Nat.le_refl _⟩
  refine h.quiet hs ⟨fun t e v he => ?_, fun g gl hg => ?_, fun k hk => ?_⟩ (fun _ => rfl) rfl rfl
  · have htally := tally_insert_of_lookup (v := fl') (p := fun g : File => g.fDentry = t) hf
    rw [hsame] at htally
    rw [Nat.add_right_cancel htally]
    exact h.tables.dRef t e v ⟨he.dentry, he.hash, he.inode⟩
  · have hfile : ∃ e v, Hashed s gl.fDentry e v := by
      rw [lookup_insert_eq] at hg
      split at hg
      · rw [← Option.some.inj hg, hsame]
        exact h.tables.file f fl hf
      · exact h.tables.file g gl hg
    obtain ⟨e, v, he⟩ := hfile
    exact ⟨e, v, he.dentry, he.hash, he.inode⟩
  · rw [lookup_insert_eq, if_neg]
    · exact (h.tables.fresh k hk).2.2
    · rintro rfl
      rw [(h.tables.fresh k hk).2.2] at hf
      cases hf

/-! ## The vinode table -/

/-- A dentry in the table has a live vinode. -/
theorem Tables.live (ht : Tables s) (he : Hashed s t e v) : ∃ x, s.vinodes v = some x := by
  rcases ht.target t e v he with hr | ⟨i, x, hc⟩
  · obtain ⟨e', v', x, he', -, hx, -⟩ := ht.root
    rw [hr] at he
    obtain ⟨-, rfl⟩ := he.unique he'
    exact ⟨x, hx⟩
  · exact ⟨x, hc.vinode⟩

/-- No dentry leads to a page without a vinode. -/
theorem Tables.tally_eq_zero (ht : Tables s) (hv : s.vinodes v = none) :
    tally s.dentryHashTable (fun t => s.inodeOf t = some v) = 0 := by
  by_contra hne
  obtain ⟨k, t, hk, hi⟩ := tally_pos_iff.1 (Nat.pos_of_ne_zero hne)
  obtain ⟨e, v', he, -⟩ := ht.dentry k t hk
  rw [he.inodeOf] at hi
  obtain ⟨x, hx⟩ := ht.live he
  rw [Option.some.inj hi, hv] at hx
  cases hx

/-- No dentry leads to a vinode with the count 0. -/
theorem Tables.not_hashed (ht : Tables s) (hc : Cached s i v x) (hr : x.ref = 0) :
    ¬ Hashed s t e v := by
  intro he
  have hpos : 0 < tally s.dentryHashTable fun t => s.inodeOf t = some v :=
    tally_pos_iff.2 ⟨_, t, he.hash, he.inodeOf⟩
  have := ht.ref i v x hc
  omega

/-- A new vinode in the table has the value of the disk inode. -/
theorem Inv.vol_load (h : Inv s) (hi : s.vol.InUse i)
    (hk : s.vinodeHashTable.lookup (.rfs, i) = none) (hv : s.vinodes v = none) :
    (s.addVinode i v).vol = s.vol := by
  set s' : State := s.addVinode i v with hs'
  have hlook : ∀ k, s'.vinodeHashTable.lookup k =
      if k = (.rfs, i) then some v else s.vinodeHashTable.lookup k := fun k =>
    lookup_insert_eq _ _ _ _
  refine vol_congr h.good (fun k => ?_) (fun _ _ => rfl) rfl
  by_cases hki : k = i
  · subst hki
    have hc : Cached s' k v (newVinode (s.disk.dinode k) k) :=
      ⟨by rw [hlook, if_pos rfl], Function.update_self _ _ _⟩
    have hlt := h.good.lt k hi
    rw [node_of_lt hlt, node_of_lt hlt, hc.cur, cur_of_none hk]
    rfl
  · refine node_congr ?_ (fun u hu => ?_) fun _ => rfl
    · rw [hlook, if_neg fun heq => hki (congrArg Prod.snd heq)]
    · obtain ⟨z, hz⟩ := h.tables.cached hu
      have huv : u ≠ v := by
        rintro rfl
        have := hz.vinode
        rw [hv] at this
        cases this
      exact congrArg (Option.map Vinode.toDinode) (Function.update_of_ne huv _ _)

theorem Inv.load (h : Inv s) (hi : s.vol.InUse i)
    (hk : s.vinodeHashTable.lookup (.rfs, i) = none) (hv : s.vinodes v = none)
    (hp : v < s.pages) :
    Inv (s.addVinode i v) := by
  set s' : State := s.addVinode i v with hs'
  have ht := h.tables
  have hlook : ∀ k, s'.vinodeHashTable.lookup k =
      if k = (.rfs, i) then some v else s.vinodeHashTable.lookup k := fun k =>
    lookup_insert_eq _ _ _ _
  have hself : s'.vinodes v = some (newVinode (s.disk.dinode i) i) := Function.update_self _ _ _
  have hother : ∀ u, u ≠ v → s'.vinodes u = s.vinodes u := fun u hu => Function.update_of_ne hu _ _
  have hlive : ∀ {u z}, s.vinodes u = some z → s'.vinodes u = some z := fun {u z} hu => by
    rw [hother u, hu]
    rintro rfl
    rw [hv] at hu
    cases hu
  have hhash : ∀ {t e u}, Hashed s' t e u ↔ Hashed s t e u := fun {t e u} =>
    ⟨fun ⟨h₁, h₂, h₃⟩ => ⟨h₁, h₂, h₃⟩, fun ⟨h₁, h₂, h₃⟩ => ⟨h₁, h₂, h₃⟩⟩
  have hto : ∀ {k u z}, Cached s k u z → Cached s' k u z := fun {k u z} hc => by
    refine ⟨?_, hlive hc.vinode⟩
    rw [hlook, if_neg, hc.hash]
    intro hki
    have hkey := hc.hash
    rw [hki, hk] at hkey
    cases hkey
  have hof : ∀ {k u z}, Cached s' k u z →
      (k = i ∧ u = v ∧ z = newVinode (s.disk.dinode i) i) ∨ Cached s k u z := fun {k u z} hc => by
    have hkey := hc.hash
    rw [hlook] at hkey
    split at hkey
    · rename_i hki
      obtain rfl := Option.some.inj hkey
      exact .inl ⟨congrArg Prod.snd hki, rfl, Option.some.inj (hc.vinode.symm.trans hself)⟩
    · obtain ⟨z', hc'⟩ := ht.cached hkey
      obtain rfl := Option.some.inj ((hlive hc'.vinode).symm.trans hc.vinode)
      exact .inr hc'
  have hdir : ∀ {p d}, DentryOf s p d → DentryOf s' p d := fun ⟨e, u, z, he, hc⟩ =>
    ⟨e, u, z, hhash.2 he, hto hc⟩
  have hnone : ∀ {t e}, ¬ Hashed s t e v := fun he => by
    obtain ⟨z, hz⟩ := ht.live he
    rw [hv] at hz
    cases hz
  have hvol : s'.vol = s.vol := h.vol_load hi hk hv
  exact {
    good := hvol ▸ h.good
    tables := {
      dentry := fun k t hkt => by
        obtain ⟨e, u, he, hkey⟩ := ht.dentry k t hkt
        exact ⟨e, u, hhash.2 he, hkey⟩
      vinode := fun sb k u hku => by
        rw [hlook] at hku
        split at hku
        · rename_i hki
          obtain rfl := Option.some.inj hku
          obtain ⟨rfl, rfl⟩ := Prod.mk.inj hki
          exact ⟨rfl, _, hself, rfl, rfl⟩
        · obtain ⟨hsb, z, hz, hzi, hzs⟩ := ht.vinode sb k u hku
          exact ⟨hsb, z, hlive hz, hzi, hzs⟩
      target := fun t e u he => by
        rcases ht.target t e u (hhash.1 he) with hr | ⟨k, z, hc⟩
        · exact .inl hr
        · exact .inr ⟨k, z, hto hc⟩
      root := by
        obtain ⟨e, u, z, he, hpar, hz, hrest⟩ := ht.root
        exact ⟨e, u, z, hhash.2 he, hpar, hlive hz, hrest⟩
      ref := fun k u z hc => by
        rcases hof hc with ⟨-, rfl, rfl⟩ | hc
        · exact (congrArg Nat.cast (ht.tally_eq_zero hv)).symm
        · exact ht.ref k u z hc
      dRef := fun t e u he => ht.dRef t e u (hhash.1 he)
      file := fun f fl hf => by
        obtain ⟨e, u, he⟩ := ht.file f fl hf
        exact ⟨e, u, hhash.2 he⟩
      fresh := fun k hk => by
        obtain ⟨h₁, h₂, h₃⟩ := ht.fresh k hk
        have hkv : k ≠ v := by
          rintro rfl
          exact absurd hp (Nat.not_lt.2 hk)
        exact ⟨h₁, (hother k hkv).trans h₂, h₃⟩ }
    paths := by
      rw [hvol]
      exact {
        inUse := fun k u z hc => by
          rcases hof hc with ⟨rfl, -, -⟩ | hc
          · exact hi
          · exact h.paths.inUse k u z hc
        mount := by
          obtain ⟨e, u, z, he, hpar, hn, hc⟩ := h.paths.mount
          exact ⟨e, u, z, hhash.2 he, hpar, hn, hto hc⟩
        parent := fun t e u k z he hc hne => by
          rcases hof hc with ⟨-, rfl, -⟩ | hc
          · exact absurd (hhash.1 he) hnone
          · obtain ⟨p, d, hpar, hd, hm⟩ := h.paths.parent t e u k z (hhash.1 he) hc hne
            exact ⟨p, d, hpar, hdir hd, hm⟩
        unique := fun t t' e e' u k z he he' hc hd => by
          rcases hof hc with ⟨-, rfl, -⟩ | hc
          · exact absurd (hhash.1 he) hnone
          · exact h.paths.unique t t' e e' u k z (hhash.1 he) (hhash.1 he') hc hd }
    sync := fun k u z hc => by
      rcases hof hc with ⟨rfl, -, rfl⟩ | hc
      · exact ⟨rfl, rfl, Nat.le_refl _, fun _ _ => rfl, fun _ => rfl⟩
      · exact h.sync k u z hc
    nblocks := h.nblocks }

/-- The tables are the same without the vinode `v` of the inode `i`. -/
structure Dropped (s s' : State) (i v : ℕ) : Prop where
  dentries : s'.dentries = s.dentries
  dentryHash : s'.dentryHashTable = s.dentryHashTable
  files : s'.files = s.files
  root : s'.vfsRootDentry = s.vfsRootDentry
  sb : s'.sb = s.sb
  pages : s'.pages = s.pages
  vinodeHash : s'.vinodeHashTable = s.vinodeHashTable.erase (.rfs, i)
  gone : s'.vinodes v = none
  vinodes : ∀ u, u ≠ v → (s'.vinodes u).map Vinode.key = (s.vinodes u).map Vinode.key

namespace Dropped

variable (h : Dropped s s' i v)

include h

theorem hashed : Hashed s' t e w ↔ Hashed s t e w := by
  constructor
  · rintro ⟨h₁, h₂, h₃⟩
    exact ⟨h.dentries ▸ h₁, h.dentryHash ▸ h₂, h₃⟩
  · rintro ⟨h₁, h₂, h₃⟩
    exact ⟨h.dentries ▸ h₁, h.dentryHash ▸ h₂, h₃⟩

theorem lookup {k : Sb × ℕ} (hk : s'.vinodeHashTable.lookup k = some w) :
    k ≠ (.rfs, i) ∧ s.vinodeHashTable.lookup k = some w := by
  rw [h.vinodeHash, lookup_erase_eq] at hk
  split at hk
  · cases hk
  · exact ⟨‹_›, hk⟩

theorem inodeOf : s'.inodeOf = s.inodeOf := by
  funext t
  rw [State.inodeOf, State.inodeOf, h.dentries]

/-- The other vinodes stay in the table. -/
theorem cached_of {z' : Vinode} (hc' : Cached s' j w z') :
    j ≠ i ∧ w ≠ v ∧ ∃ z, Cached s j w z ∧ z.key = z'.key := by
  obtain ⟨hne, hk⟩ := h.lookup hc'.hash
  have hj : j ≠ i := fun heq => hne (by rw [heq])
  have hw : w ≠ v := by
    rintro rfl
    have hz := hc'.vinode
    rw [h.gone] at hz
    cases hz
  have hkey := h.vinodes w hw
  rw [hc'.vinode, Option.map_some, eq_comm, Option.map_eq_some_iff] at hkey
  obtain ⟨z, hz, hkey⟩ := hkey
  exact ⟨hj, hw, z, ⟨hk, hz⟩, hkey⟩

variable (ht : Tables s) (hc : Cached s i v x)

include ht hc

theorem cached_to {z : Vinode} (hc' : Cached s j w z) (hj : j ≠ i) :
    ∃ z', Cached s' j w z' ∧ z'.key = z.key := by
  have hw : w ≠ v := by
    rintro rfl
    exact hj (ht.cached_inj hc hc').1
  have hkey := h.vinodes w hw
  rw [hc'.vinode, Option.map_some, Option.map_eq_some_iff] at hkey
  obtain ⟨z', hz', hkey⟩ := hkey
  refine ⟨z', ⟨?_, hz'⟩, hkey⟩
  rw [h.vinodeHash, lookup_erase_eq, if_neg fun heq => hj (congrArg Prod.snd heq)]
  exact hc'.hash

variable (hr : x.ref = 0)

include hr

theorem dentryOf (hp : DentryOf s p d) : DentryOf s' p d := by
  obtain ⟨e, w, z, he, hc'⟩ := hp
  have hne : d ≠ i := by
    rintro rfl
    obtain ⟨rfl, -⟩ := hc.unique hc'
    exact ht.not_hashed hc hr he
  obtain ⟨z', hz', -⟩ := h.cached_to ht hc hc' hne
  exact ⟨e, w, z', h.hashed.2 he, hz'⟩

theorem tables : Tables s' where
  dentry k t hk := by
    obtain ⟨e, w, he, hk'⟩ := ht.dentry k t (h.dentryHash ▸ hk)
    exact ⟨e, w, h.hashed.2 he, hk'⟩
  vinode sb j w hk := by
    obtain ⟨hne, hk⟩ := h.lookup hk
    obtain ⟨rfl, z, hz, hi, hs⟩ := ht.vinode sb j w hk
    have hj : j ≠ i := fun heq => hne (by rw [heq])
    obtain ⟨z', hz', hkey⟩ := h.cached_to ht hc ⟨hk, hz⟩ hj
    simp only [Vinode.key, Prod.mk.injEq] at hkey
    exact ⟨rfl, z', hz'.vinode, hkey.1.trans hi, hkey.2.1.trans hs⟩
  target t e w he := by
    rcases ht.target t e w (h.hashed.1 he) with hroot | ⟨j, z, hc'⟩
    · exact .inl (hroot.trans h.root.symm)
    · have hne : j ≠ i := by
        rintro rfl
        obtain ⟨rfl, -⟩ := hc.unique hc'
        exact ht.not_hashed hc hr (h.hashed.1 he)
      obtain ⟨z', hz', -⟩ := h.cached_to ht hc hc' hne
      exact .inr ⟨j, z', hz'⟩
  root := by
    obtain ⟨e, w, z, he, hp, hz, htype, hsb⟩ := ht.root
    have hw : w ≠ v := by
      rintro rfl
      exact ht.root_not_cached he hc
    have hkey := h.vinodes w hw
    rw [hz, Option.map_some, Option.map_eq_some_iff] at hkey
    obtain ⟨z', hz', hkey⟩ := hkey
    simp only [Vinode.key, Prod.mk.injEq] at hkey
    refine ⟨e, w, z', ?_, hp, hz', hkey.2.2.2.trans htype, hkey.2.1.trans hsb⟩
    rw [h.root]
    exact h.hashed.2 he
  ref j w z' hc' := by
    obtain ⟨-, -, z, hz, hkey⟩ := h.cached_of hc'
    simp only [Vinode.key, Prod.mk.injEq] at hkey
    rw [← hkey.2.2.1, ht.ref j w z hz, h.dentryHash, h.inodeOf]
  dRef t e w he := by
    rw [h.files]
    exact ht.dRef t e w (h.hashed.1 he)
  file f fl hf := by
    obtain ⟨e, w, he⟩ := ht.file f fl (h.files ▸ hf)
    exact ⟨e, w, h.hashed.2 he⟩
  fresh k hk := by
    rw [h.pages] at hk
    obtain ⟨h₁, h₂, h₃⟩ := ht.fresh k hk
    refine ⟨h.dentries ▸ h₁, ?_, h.files ▸ h₃⟩
    by_cases hkv : k = v
    · exact hkv ▸ h.gone
    · have := h.vinodes k hkv
      rwa [h₂, Option.map_none, Option.map_eq_none_iff] at this

theorem paths {V V' : Vol} (hp : Paths s V) (huse : ∀ j, j ≠ i → V.InUse j → V'.InUse j)
    (hdir : ∀ j, V.InUse j → (V'.node j).type = DIR_I → (V.node j).type = DIR_I)
    (hmem : ∀ n d j, j ≠ i → (n, j) ∈ V.dir d → (n, j) ∈ V'.dir d) : Paths s' V' where
  inUse j w z' hc' := by
    obtain ⟨hj, -, z, hz, -⟩ := h.cached_of hc'
    exact huse j hj (hp.inUse j w z hz)
  mount := by
    obtain ⟨e, w, z, he, hpar, hn, hc'⟩ := hp.mount
    have hne : 0 ≠ i := by
      rintro rfl
      obtain ⟨rfl, -⟩ := hc.unique hc'
      exact ht.not_hashed hc hr he
    obtain ⟨z', hz', -⟩ := h.cached_to ht hc hc' hne
    refine ⟨e, w, z', ?_, ?_, hn, hz'⟩
    · rw [h.sb]
      exact h.hashed.2 he
    · rw [h.root]
      exact hpar
  parent t e w j z' he hc' hne := by
    obtain ⟨hj, -, z, hz, -⟩ := h.cached_of hc'
    rw [h.sb] at hne
    obtain ⟨p, d, hpar, hd, hm⟩ := hp.parent t e w j z (h.hashed.1 he) hz hne
    exact ⟨p, d, hpar, h.dentryOf ht hc hr hd, hmem _ _ _ hj hm⟩
  unique t t' e e' w j z' he he' hc' hd := by
    obtain ⟨-, -, z, hz, -⟩ := h.cached_of hc'
    exact hp.unique t t' e e' w j z (h.hashed.1 he) (h.hashed.1 he') hz
      (hdir j (hp.inUse j w z hz) hd)

end Dropped

theorem dropped_dropVinode (s : State) (i v : ℕ) (d' : Disk) :
    Dropped s (s.dropVinode i v d') i v :=
  ⟨rfl, rfl, rfl, rfl, rfl, rfl, rfl, Function.update_self _ _ _, fun _ hu =>
    congrArg (Option.map Vinode.key) (Function.update_of_ne hu _ _)⟩

/-- A vinode that is written back and forgotten leaves the volume as it is. -/
theorem Inv.vol_evict (h : Inv s) {d' : Disk} (hc : Cached s i v x)
    (hd : DiskIs d' (Function.update s.disk.dinode i x.toDinode) s.disk) :
    (s.dropVinode i v d').vol = s.vol := by
  set s' : State := s.dropVinode i v d' with hs'
  have hhash : s'.vinodeHashTable = s.vinodeHashTable.erase (.rfs, i) := rfl
  refine vol_congr h.good (fun k => ?_) (fun k hk => ?_) rfl
  · by_cases hki : k = i
    · subst hki
      have hlt := h.lt hc
      have hnone : s'.vinodeHashTable.lookup (.rfs, k) = none := by
        rw [hhash, lookup_erase_eq, if_pos rfl]
      rw [node_of_lt hlt, node_of_lt hlt, hc.cur, cur_of_none hnone]
      exact (hd.node k hlt).trans (Function.update_self _ _ _)
    · refine node_congr ?_ (fun u hu => ?_) fun hlt => ?_
      · rw [hhash, lookup_erase_eq, if_neg fun heq => hki (congrArg Prod.snd heq)]
      · obtain ⟨z, hz⟩ := h.tables.cached hu
        refine congrArg (Option.map Vinode.toDinode) (Function.update_of_ne ?_ _ _)
        rintro rfl
        exact hki (h.tables.cached_inj hc hz).1
      · exact (hd.node k hlt).trans (Function.update_of_ne hki _ _)
  · exact hd.block _ (h.good.isDir hk).data

theorem Inv.evict (h : Inv s) {d' : Disk} (hc : Cached s i v x) (hr : x.ref = 0)
    (hd : DiskIs d' (Function.update s.disk.dinode i x.toDinode) s.disk) :
    Inv (s.dropVinode i v d') := by
  have hvol := h.vol_evict hc hd
  set s' : State := s.dropVinode i v d' with hs'
  have ht := h.tables
  have hother : ∀ u, u ≠ v → s'.vinodes u = s.vinodes u := fun u hu => Function.update_of_ne hu _ _
  have hdrop : Dropped s s' i v := dropped_dropVinode s i v d'
  refine ⟨hvol ▸ h.good, hdrop.tables ht hc hr, ?_, fun k u z hz => ?_, h.nblocks⟩
  · rw [hvol]
    exact hdrop.paths ht hc hr h.paths (fun _ _ hj => hj) (fun _ _ hj => hj) fun _ _ _ _ hm => hm
  · obtain ⟨hk, hu, -⟩ := hdrop.cached_of hz
    have hz' : Cached s k u z := ⟨(hdrop.lookup hz.hash).2, (hother u hu).symm.trans hz.vinode⟩
    have hdisk : s'.disk.dinode k = s.disk.dinode k :=
      (hd.node k (h.lt hz')).trans (Function.update_of_ne hk _ _)
    rw [hdisk]
    exact h.sync k u z hz'

/-! ## The dentry table -/

/-- The state with another reference count of one vinode. -/
theorem cached_of_ref (hk : s'.vinodeHashTable = s.vinodeHashTable) {r : ℤ}
    (hv : s'.vinodes = Function.update s.vinodes v (some { x with ref := r })) (ht : Tables s)
    (hc : Cached s i v x) {z' : Vinode} (hc' : Cached s' j w z') :
    (j = i ∧ w = v ∧ z' = { x with ref := r }) ∨ (w ≠ v ∧ Cached s j w z') := by
  by_cases hw : w = v
  · subst hw
    have hz := hc'.vinode
    rw [hv, Function.update_self] at hz
    exact .inl ⟨(ht.cached_inj hc ⟨hk ▸ hc'.hash, hc.vinode⟩).1, rfl, (Option.some.inj hz).symm⟩
  · refine .inr ⟨hw, hk ▸ hc'.hash, ?_⟩
    rw [← hc'.vinode, hv, Function.update_of_ne hw]

theorem cached_to_ref (hk : s'.vinodeHashTable = s.vinodeHashTable) {r : ℤ}
    (hv : s'.vinodes = Function.update s.vinodes v (some { x with ref := r }))
    (hc : Cached s i v x) {z : Vinode} (hc' : Cached s j w z) :
    ∃ z', Cached s' j w z' ∧ z'.toDinode = z.toDinode ∧ z'.inum = z.inum ∧ z'.sb = z.sb := by
  by_cases hw : w = v
  · subst hw
    obtain rfl := Option.some.inj (hc'.vinode.symm.trans hc.vinode)
    exact ⟨{ z with ref := r }, ⟨hk ▸ hc'.hash, by rw [hv, Function.update_self]⟩, rfl, rfl, rfl⟩
  · exact ⟨z, ⟨hk ▸ hc'.hash, by rw [hv, Function.update_of_ne hw, hc'.vinode]⟩, rfl, rfl, rfl⟩

/-- The volume and the disk inodes do not depend on reference counts. -/
theorem vol_of_ref (h : Inv s) (hk : s'.vinodeHashTable = s.vinodeHashTable) {r : ℤ}
    (hv : s'.vinodes = Function.update s.vinodes v (some { x with ref := r }))
    (hc : Cached s i v x) (hd : s'.disk = s.disk) (hf : s'.freemap = s.freemap) :
    s'.vol = s.vol ∧ Sync s' := by
  refine ⟨vol_congr h.good (fun k => ?_) (fun k _ => by rw [hd]) hf, fun k u z hz => ?_⟩
  · refine node_congr (by rw [hk]) (fun u _ => ?_) fun _ => by rw [hd]
    rw [hv]
    by_cases hu : u = v
    · rw [hu, Function.update_self, hc.vinode]
      rfl
    · rw [Function.update_of_ne hu]
  · rw [hd]
    rcases cached_of_ref hk hv h.tables hc hz with ⟨rfl, rfl, rfl⟩ | ⟨-, hz⟩
    · exact h.sync k u x hc
    · exact h.sync k u z hz

/-- The dentry of a directory is unique. -/
theorem Inv.dentryOf_unique (h : Inv s) {p' : ℕ} (hd : (s.vol.node d).type = DIR_I)
    (hp : DentryOf s p d) (hp' : DentryOf s p' d) : p = p' := by
  obtain ⟨e, v, x, he, hc⟩ := hp
  obtain ⟨e', v', x', he', hc'⟩ := hp'
  obtain ⟨rfl, rfl⟩ := hc.unique hc'
  exact h.paths.unique p p' e e' v' d x' he he' hc hd

/-- An entry of the root leads back to it for no dentry but the mounted one. -/
theorem Inv.parent_of_mem (h : Inv s) {d' : ℕ} (he : Hashed s t e v) (hc : Cached s i v x)
    (hm : (n, i) ∈ s.vol.dir d') : ∃ p d, e.parent = some p ∧ DentryOf s p d ∧
      (e.name, i) ∈ s.vol.dir d := by
  refine h.paths.parent t e v i x he hc ?_
  rintro rfl
  obtain ⟨e₀, v₀, x₀, he₀, -, -, hc₀⟩ := h.paths.mount
  obtain ⟨-, rfl⟩ := he.unique he₀
  exact (h.good.entries d' _ hm).2.2 (h.tables.cached_inj hc₀ hc).1

theorem Inv.enter (h : Inv s) (hp : DentryOf s p d) (hc : Cached s i v x)
    (hm : (n, i) ∈ s.vol.dir d) (hk : s.dentryHashTable.lookup (some p, n) = none)
    (hpage : s.dentries t = none) (hlt : t < s.pages) :
    Inv (s.addDentry p n t v x) := by
  set e₀ : Dentry := { name := n, dRef := 0, dentryInode := some v, parent := some p } with he₀
  set s' : State := s.addDentry p n t v x with hs'
  have ht := h.tables
  have hself : s'.dentries t = some e₀ := Function.update_self _ _ _
  have hother : ∀ u, u ≠ t → s'.dentries u = s.dentries u :=
    fun u hu => Function.update_of_ne hu _ _
  have hlook : ∀ k, s'.dentryHashTable.lookup k =
      if k = (some p, n) then some t else s.dentryHashTable.lookup k := fun k =>
    lookup_insert_eq _ _ _ _
  have hne : ∀ {t' e' u}, Hashed s t' e' u → t' ≠ t := by
    rintro t' e' u he rfl
    have := he.dentry
    rw [hpage] at this
    cases this
  have hto : ∀ {t' e' u}, Hashed s t' e' u → Hashed s' t' e' u := fun {t' e' u} he => by
    refine ⟨(hother t' (hne he)).trans he.dentry, ?_, he.inode⟩
    rw [hlook, if_neg, he.hash]
    intro hkey
    have := he.hash
    rw [hkey, hk] at this
    cases this
  have hof : ∀ {t' e' u}, Hashed s' t' e' u → (t' = t ∧ e' = e₀ ∧ u = v) ∨ Hashed s t' e' u := by
    intro t' e' u he
    by_cases htt : t' = t
    · subst htt
      obtain rfl := Option.some.inj (he.dentry.symm.trans hself)
      exact .inl ⟨rfl, rfl, (Option.some.inj he.inode).symm⟩
    · refine .inr ⟨(hother t' htt).symm.trans he.dentry, ?_, he.inode⟩
      have hkey := he.hash
      rw [hlook] at hkey
      split at hkey
      · exact absurd (Option.some.inj hkey).symm htt
      · exact hkey
  have hrest : s'.vinodes = Function.update s.vinodes v (some { x with ref := x.ref + 1 }) := rfl
  have hhash : s'.vinodeHashTable = s.vinodeHashTable := rfl
  have hcof := fun {k u z} (hc' : Cached s' k u z) => cached_of_ref hhash hrest ht hc hc'
  have hcto := fun {k u z} (hc' : Cached s k u z) => cached_to_ref hhash hrest hc hc'
  obtain ⟨hvol, hsync⟩ := vol_of_ref h hhash hrest hc rfl rfl
  have hdir : ∀ {p d}, DentryOf s p d → DentryOf s' p d := fun ⟨e, u, z, he, hz⟩ => by
    obtain ⟨z', hz', -⟩ := hcto hz
    exact ⟨e, u, z', hto he, hz'⟩
  have hnew : Hashed s' t e₀ v := ⟨hself, by rw [hlook, if_pos rfl], rfl⟩
  -- the dentries of the table count as before
  have htally : ∀ u, tally s'.dentryHashTable (fun t' => s'.inodeOf t' = some u) =
      tally s.dentryHashTable (fun t' => s.inodeOf t' = some u) + if v = u then 1 else 0 := by
    intro u
    have htable : s'.dentryHashTable = s.dentryHashTable.insert (some p, n) t := rfl
    rw [htable, tally_insert hk, hnew.inodeOf]
    simp only [Option.some.injEq]
    congr 1
    refine tally_congr fun k t' hkt => ?_
    obtain ⟨e', u', he', -⟩ := ht.dentry k t' hkt
    rw [(hto he').inodeOf, he'.inodeOf]
  have hcached : ∀ {k u z}, Cached s k u z → ∃ z', Cached s' k u z' := fun hz => by
    obtain ⟨z', hz', -⟩ := hcto hz
    exact ⟨z', hz'⟩
  -- a second dentry of a directory would follow the same entry
  have hsingle : ∀ {t' e'}, Hashed s t' e' v → (s.vol.node i).type ≠ DIR_I := by
    intro t' e' he' hd
    obtain ⟨p', d', hpar, hp', hm'⟩ := h.parent_of_mem he' hc hm
    obtain ⟨rfl, hn⟩ := h.good.dir_entry_unique hd hm hm'
    obtain rfl := h.dentryOf_unique (h.good.dir_of_mem hm) hp hp'
    have := he'.hash
    rw [hpar, ← hn, hk] at this
    cases this
  exact {
    good := hvol ▸ h.good
    sync := hsync
    nblocks := h.nblocks
    tables := {
      dentry := fun k t' hkt => by
        rw [hlook] at hkt
        split at hkt
        · rename_i hkey
          obtain rfl := Option.some.inj hkt
          exact ⟨e₀, v, hnew, hkey⟩
        · obtain ⟨e', u, he', hkey⟩ := ht.dentry k t' hkt
          exact ⟨e', u, hto he', hkey⟩
      vinode := fun sb k u hku => by
        obtain ⟨rfl, z, hz, hzi, hzs⟩ := ht.vinode sb k u hku
        obtain ⟨z', hz', -, hi', hs'⟩ := hcto ⟨hku, hz⟩
        exact ⟨rfl, z', hz'.vinode, hi'.trans hzi, hs'.trans hzs⟩
      target := fun t' e' u he' => by
        rcases hof he' with ⟨-, -, rfl⟩ | he'
        · obtain ⟨x', hx'⟩ := hcached hc
          exact .inr ⟨i, x', hx'⟩
        · rcases ht.target t' e' u he' with hr | ⟨k, z, hz⟩
          · exact .inl hr
          · obtain ⟨z', hz'⟩ := hcached hz
            exact .inr ⟨k, z', hz'⟩
      root := by
        obtain ⟨e', u, z, he', hpar, hz, hrest⟩ := ht.root
        refine ⟨e', u, z, hto he', hpar, ?_, hrest⟩
        refine (Function.update_of_ne ?_ _ _).trans hz
        rintro rfl
        exact ht.root_not_cached he' hc
      ref := fun k u z hz => by
        rw [htally u]
        rcases hcof hz with ⟨rfl, rfl, rfl⟩ | ⟨hu, hz⟩
        · rw [if_pos rfl]
          change x.ref + 1 = _
          rw [ht.ref _ _ _ hc]
          norm_cast
        · rw [if_neg (Ne.symm hu)]
          exact ht.ref k u z hz
      dRef := fun t' e' u he' => by
        rcases hof he' with ⟨rfl, rfl, -⟩ | he'
        · have hz : tally s.files (fun f => f.fDentry = t') = 0 := by
            by_contra hpos
            obtain ⟨f, fl, hf, rfl⟩ := tally_pos_iff.1 (Nat.pos_of_ne_zero hpos)
            obtain ⟨e', u, he'⟩ := ht.file f fl hf
            exact hne he' rfl
          exact (congrArg Nat.cast hz).symm
        · exact ht.dRef t' e' u he'
      file := fun f fl hf => by
        obtain ⟨e', u, he'⟩ := ht.file f fl hf
        exact ⟨e', u, hto he'⟩
      fresh := fun k hkp => by
        obtain ⟨h₁, h₂, h₃⟩ := ht.fresh k hkp
        have hkt : k ≠ t := by
          rintro rfl
          exact absurd hlt (Nat.not_lt.2 hkp)
        have hkv : k ≠ v := by
          rintro rfl
          rw [hc.vinode] at h₂
          cases h₂
        exact ⟨(hother k hkt).trans h₁, (Function.update_of_ne hkv _ _).trans h₂, h₃⟩ }
    paths := by
      rw [hvol]
      exact {
        inUse := fun k u z hz => by
          rcases hcof hz with ⟨rfl, rfl, -⟩ | ⟨-, hz⟩
          · exact h.paths.inUse _ _ _ hc
          · exact h.paths.inUse k u z hz
        mount := by
          obtain ⟨e', u, z, he', hpar, hn, hz⟩ := h.paths.mount
          obtain ⟨z', hz'⟩ := hcached hz
          exact ⟨e', u, z', hto he', hpar, hn, hz'⟩
        parent := fun t' e' u k z he' hz hroot => by
          rcases hof he' with ⟨rfl, rfl, rfl⟩ | he'
          · obtain rfl : k = i := by
              rcases hcof hz with ⟨rfl, -, -⟩ | ⟨hu, -⟩
              · rfl
              · exact absurd rfl hu
            exact ⟨p, d, rfl, hdir hp, hm⟩
          · have hz' : ∃ z', Cached s k u z' := by
              rcases hcof hz with ⟨rfl, rfl, -⟩ | ⟨-, hz⟩
              · exact ⟨x, hc⟩
              · exact ⟨z, hz⟩
            obtain ⟨z', hz'⟩ := hz'
            obtain ⟨p', d', hpar, hd', hm'⟩ := h.paths.parent t' e' u k z' he' hz' hroot
            exact ⟨p', d', hpar, hdir hd', hm'⟩
        unique := fun t₁ t₂ e₁ e₂ u k z he₁ he₂ hz hd => by
          rcases hcof hz with ⟨rfl, rfl, -⟩ | ⟨hu, hz⟩
          · rcases hof he₁ with ⟨rfl, -, -⟩ | he₁
            · rcases hof he₂ with ⟨rfl, -, -⟩ | he₂
              · rfl
              · exact absurd hd (hsingle he₂)
            · exact absurd hd (hsingle he₁)
          · rcases hof he₁ with ⟨-, -, rfl⟩ | he₁
            · exact absurd rfl hu
            · rcases hof he₂ with ⟨-, -, rfl⟩ | he₂
              · exact absurd rfl hu
              · exact h.paths.unique t₁ t₂ e₁ e₂ u k z he₁ he₂ hz hd } }

/-- A file is neither a root nor the directory of an entry. -/
theorem Inv.file_ne_root (h : Inv s) (hc : Cached s i v x) (hx : x.type = FILE_I)
    (he : Hashed s t e v) : t ≠ s.vfsRootDentry ∧ t ≠ s.sb.sRoot := by
  refine ⟨?_, ?_⟩
  · rintro rfl
    exact h.tables.root_not_cached he hc
  · rintro rfl
    obtain ⟨e₀, v₀, x₀, he₀, -, -, hc₀⟩ := h.paths.mount
    obtain ⟨-, rfl⟩ := he.unique he₀
    obtain ⟨rfl, rfl⟩ := h.tables.cached_inj hc₀ hc
    have hroot := h.good.root
    rw [h.node_eq hc] at hroot
    exact absurd (hx.symm.trans hroot) (by decide)

/-- A dentry of a file leads to an inode of RFS. -/
theorem Inv.cached_of_file (h : Inv s) (he : Hashed s t e v) (hv : s.vinodes v = some x)
    (hx : x.type = FILE_I) : ∃ i, Cached s i v x := by
  rcases h.tables.target t e v he with hr | ⟨i, x', hc⟩
  · obtain ⟨e₀, v₀, x₀, he₀, -, hv₀, hd, -⟩ := h.tables.root
    rw [hr] at he
    obtain ⟨-, rfl⟩ := he.unique he₀
    obtain rfl := Option.some.inj (hv₀.symm.trans hv)
    exact absurd (hx.symm.trans hd) (by decide)
  · obtain rfl := Option.some.inj (hc.vinode.symm.trans hv)
    exact ⟨i, hc⟩

theorem Inv.leave (h : Inv s) (he : Hashed s t e v) (hc : Cached s i v x) (hx : x.type = FILE_I)
    (hd : e.dRef = 0) :
    Inv (s.dropDentry t e v x) := by
  set s' : State := s.dropDentry t e v x with hs'
  have ht := h.tables
  have hself : s'.dentries t = none := Function.update_self _ _ _
  have hother : ∀ u, u ≠ t → s'.dentries u = s.dentries u :=
    fun u hu => Function.update_of_ne hu _ _
  have hlook : ∀ k, s'.dentryHashTable.lookup k =
      if k = (e.parent, e.name) then none else s.dentryHashTable.lookup k := fun k =>
    lookup_erase_eq _ _ _
  obtain ⟨hroot, hmount⟩ := h.file_ne_root hc hx he
  have hto : ∀ {t' e' u}, Hashed s t' e' u → t' ≠ t → Hashed s' t' e' u :=
      fun {t' e' u} he' hne => by
    refine ⟨(hother t' hne).trans he'.dentry, ?_, he'.inode⟩
    rw [hlook, if_neg, he'.hash]
    intro hkey
    have hk := he'.hash
    rw [hkey, he.hash] at hk
    exact hne (Option.some.inj hk).symm
  have hof : ∀ {t' e' u}, Hashed s' t' e' u → t' ≠ t ∧ Hashed s t' e' u := by
    intro t' e' u he'
    have hne : t' ≠ t := by
      rintro rfl
      have := he'.dentry
      rw [hself] at this
      cases this
    refine ⟨hne, (hother t' hne).symm.trans he'.dentry, ?_, he'.inode⟩
    have hkey := he'.hash
    rw [hlook] at hkey
    split at hkey
    · cases hkey
    · exact hkey
  have hrest : s'.vinodes = Function.update s.vinodes v (some { x with ref := x.ref - 1 }) := rfl
  have hhash : s'.vinodeHashTable = s.vinodeHashTable := rfl
  have hcof := fun {k u z} (hc' : Cached s' k u z) => cached_of_ref hhash hrest ht hc hc'
  have hcto := fun {k u z} (hc' : Cached s k u z) => cached_to_ref hhash hrest hc hc'
  obtain ⟨hvol, hsync⟩ := vol_of_ref h hhash hrest hc rfl rfl
  have hold : ∀ {k u z}, Cached s' k u z → ∃ z', Cached s k u z' := fun {k u z} hz => by
    rcases hcof hz with ⟨rfl, rfl, -⟩ | ⟨-, hz⟩
    · exact ⟨x, hc⟩
    · exact ⟨z, hz⟩
  have htally : ∀ u, tally s'.dentryHashTable (fun t' => s'.inodeOf t' = some u) +
      (if v = u then 1 else 0) = tally s.dentryHashTable (fun t' => s.inodeOf t' = some u) := by
    intro u
    rw [← tally_erase he.hash, he.inodeOf]
    simp only [Option.some.injEq]
    congr 1
    refine tally_congr fun k t' hkt => ?_
    rw [hlook] at hkt
    split at hkt
    · cases hkt
    · rename_i hne
      obtain ⟨e', u', he', hk⟩ := ht.dentry k t' hkt
      have htt : t' ≠ t := by
        rintro rfl
        obtain ⟨rfl, -⟩ := he.unique he'
        exact hne hk
      rw [(hto he' htt).inodeOf, he'.inodeOf]
  have hdir : ∀ {p d}, DentryOf s p d → (s.vol.node d).type = DIR_I → DentryOf s' p d := by
    rintro p d ⟨e', u, z, he', hz⟩ hd
    have hne : p ≠ t := by
      rintro rfl
      obtain ⟨-, rfl⟩ := he.unique he'
      obtain ⟨rfl, rfl⟩ := ht.cached_inj hc hz
      rw [h.node_eq hc] at hd
      exact absurd (hx.symm.trans hd) (by decide)
    obtain ⟨z', hz', -⟩ := hcto hz
    exact ⟨e', u, z', hto he' hne, hz'⟩
  exact {
    good := hvol ▸ h.good
    sync := hsync
    nblocks := h.nblocks
    tables := {
      dentry := fun k t' hkt => by
        rw [hlook] at hkt
        split at hkt
        · cases hkt
        · rename_i hne
          obtain ⟨e', u, he', hkey⟩ := ht.dentry k t' hkt
          refine ⟨e', u, hto he' ?_, hkey⟩
          rintro rfl
          obtain ⟨rfl, -⟩ := he.unique he'
          exact hne hkey
      vinode := fun sb k u hku => by
        obtain ⟨rfl, z, hz, hzi, hzs⟩ := ht.vinode sb k u hku
        obtain ⟨z', hz', -, hi', hs'⟩ := hcto ⟨hku, hz⟩
        exact ⟨rfl, z', hz'.vinode, hi'.trans hzi, hs'.trans hzs⟩
      target := fun t' e' u he' => by
        rcases ht.target t' e' u (hof he').2 with hr | ⟨k, z, hz⟩
        · exact .inl hr
        · obtain ⟨z', hz', -⟩ := hcto hz
          exact .inr ⟨k, z', hz'⟩
      root := by
        obtain ⟨e', u, z, he', hpar, hz, hrest⟩ := ht.root
        refine ⟨e', u, z, hto he' hroot.symm, hpar, ?_, hrest⟩
        refine (Function.update_of_ne ?_ _ _).trans hz
        rintro rfl
        exact ht.root_not_cached he' hc
      ref := fun k u z hz => by
        have hcount := htally u
        rcases hcof hz with ⟨rfl, rfl, rfl⟩ | ⟨hu, hz⟩
        · rw [if_pos rfl] at hcount
          change x.ref - 1 = _
          rw [ht.ref _ _ _ hc]
          omega
        · rw [if_neg (Ne.symm hu)] at hcount
          rw [ht.ref k u z hz]
          omega
      dRef := fun t' e' u he' => ht.dRef t' e' u (hof he').2
      file := fun f fl hf => by
        obtain ⟨e', u, he'⟩ := ht.file f fl hf
        refine ⟨e', u, hto he' ?_⟩
        rintro rfl
        have hpos : 0 < tally s.files fun g => g.fDentry = fl.fDentry :=
          tally_pos_iff.2 ⟨f, fl, hf, rfl⟩
        have := ht.dRef _ _ _ he
        omega
      fresh := fun k hkp => by
        obtain ⟨h₁, h₂, h₃⟩ := ht.fresh k hkp
        have hkt : k ≠ t := by
          rintro rfl
          rw [he.dentry] at h₁
          cases h₁
        have hkv : k ≠ v := by
          rintro rfl
          rw [hc.vinode] at h₂
          cases h₂
        exact ⟨(hother k hkt).trans h₁, (Function.update_of_ne hkv _ _).trans h₂, h₃⟩ }
    paths := by
      rw [hvol]
      exact {
        inUse := fun k u z hz => by
          obtain ⟨z', hz'⟩ := hold hz
          exact h.paths.inUse k u z' hz'
        mount := by
          obtain ⟨e', u, z, he', hpar, hn, hz⟩ := h.paths.mount
          obtain ⟨z', hz', -⟩ := hcto hz
          exact ⟨e', u, z', hto he' hmount.symm, hpar, hn, hz'⟩
        parent := fun t' e' u k z he' hz hne => by
          obtain ⟨z', hz'⟩ := hold hz
          obtain ⟨p, d, hpar, hd, hm⟩ := h.paths.parent t' e' u k z' (hof he').2 hz' hne
          exact ⟨p, d, hpar, hdir hd (h.good.dir_of_mem hm), hm⟩
        unique := fun t₁ t₂ e₁ e₂ u k z he₁ he₂ hz hd => by
          obtain ⟨z', hz'⟩ := hold hz
          exact h.paths.unique t₁ t₂ e₁ e₂ u k z' (hof he₁).2 (hof he₂).2 hz' hd } }

end HustOS.Fs
