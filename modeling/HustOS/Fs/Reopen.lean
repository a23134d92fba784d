import HustOS.Fs.OpenFiles
import HustOS.Fs.Safety

/-!
# Opening a file again

A successful lookup leaves the dentries of the directories on the path in the table, and the close
of the only open file of a file takes the dentry and the vinode of the file away again. So after the
first open and close of a path, the lookup of the same path finds every directory in the table and
the file itself neither there nor among the vinodes (`Unopened.close`).
-/

namespace HustOS.Fs

open Foundations

variable {s s' : State} {p d i j k t u v f : ℕ} {e : Dentry} {x : Vinode} {n m : Name}
  {ns : List Name}

/-! ## A chain of dentries -/

/-- The table leads from the dentry `p` by the components to the dentry `q`. -/
def Follows (s : State) : List Name → ℕ → ℕ → Prop
  | [], p, q => p = q
  | n :: ns, p, q => ∃ t, hashGetDentry s p n = some t ∧ Follows s ns t q

/-- A chain survives a change of the table that keeps what it uses. -/
theorem Follows.mono {q : ℕ} (h : Follows s ns p q)
    (hk : ∀ p m t, hashGetDentry s p m = some t → hashGetDentry s' p m = some t) :
    Follows s' ns p q := by
  induction ns generalizing p with
  | nil => exact h
  | cons m ns ih =>
    obtain ⟨t, ht, h⟩ := h
    exact ⟨t, hk p m t ht, ih h⟩

/-- A chain does not pass through a dentry that has nothing below it. -/
theorem Follows.avoid {q : ℕ} (h : Follows s ns p q) (hq : q ≠ t)
    (ht : ∀ m, hashGetDentry s t m = none)
    (hk : ∀ p m r, r ≠ t → hashGetDentry s p m = some r → hashGetDentry s' p m = some r) :
    Follows s' ns p q := by
  induction ns generalizing p with
  | nil => exact h
  | cons m ns ih =>
    obtain ⟨r, hr, h⟩ := h
    refine ⟨r, hk p m r ?_ hr, ih h⟩
    rintro rfl
    cases ns with
    | nil => exact hq h.symm
    | cons m' ns =>
      obtain ⟨r', hr', -⟩ := h
      rw [ht m'] at hr'
      cases hr'

theorem Extends.hashGet (hext : Extends s s') (h : Inv s) (ht : hashGetDentry s p m = some t) :
    hashGetDentry s' p m = some t := by
  obtain ⟨e, v, he, hkey⟩ := h.tables.dentry _ _ ht
  have he' := (hext.hashed t e v he).hash
  rwa [← hkey] at he'

theorem Extends.follows {q : ℕ} (hext : Extends s s') (h : Inv s) (hf : Follows s ns p q) :
    Follows s' ns p q :=
  hf.mono fun _ _ _ ht => hext.hashGet h ht

/-! ## A component that is not in the table -/

/-- The state `s₀` has a vinode for the inode `k`, with the value `x`, and the same dentries as
`s`. -/
structure Loaded (s s₀ : State) (k u : ℕ) (x : Vinode) : Prop where
  ext : Extends s s₀
  cached : Cached s₀ k u x
  dentries : s₀.dentries = s.dentries
  hash : s₀.dentryHashTable = s.dentryHashTable
  pages : s₀.pages = s.pages + 2
  origin : Cached s k u x ∨ x.ref = 0

theorem Loaded.new (h : Inv s) (huse : s.vol.InUse k)
    (hl : s.vinodeHashTable.lookup (.rfs, k) = none) (buf : Buf) :
    Loaded s (State.addVinode { s with iobuffer := buf, pages := s.pages + 2 } k (s.pages + 1)) k
      (s.pages + 1) (newVinode (s.disk.dinode k) k) := by
  obtain ⟨-, hv₁, -⟩ := h.tables.fresh (s.pages + 1) (Nat.le_succ _)
  have hext : Extends s { s with iobuffer := buf, pages := s.pages + 2 } :=
    .scratch s buf (by omega)
  exact ⟨hext.trans (.load huse hl hv₁ (Nat.lt_succ_self _)),
    ⟨AList.lookup_insert _, Function.update_self _ _ _⟩, rfl, rfl, rfl, .inr rfl⟩

/-- The lookup of a component that is in the directory and not in the table. -/
theorem lookupLoop_one (h : Inv s) (hp : DentryOf s p d) (hdir : (s.vol.node d).type = DIR_I)
    (hn : n.Valid) (hf : dirFind (s.vol.dir d) n = some k)
      (hk : hashGetDentry s p n = none) (o : ℕ) :
    ∃ s₀ u x, Loaded s s₀ k u x ∧
      lookupLoop [n] p o s = .ok (.found s.pages p, s₀.addDentry p n s.pages u x) := by
  obtain ⟨e, v, x, he, hc⟩ := hp
  have huse := (h.good.entries d _ (mem_of_dirFind hf)).2.1
  have hlt := h.good.lt k huse
  obtain ⟨buf, hlook⟩ := h.lookup_miss (p := p) hc hdir hn
  rw [hf] at hlook
  have hrun : ∀ s', attachFound (foundState s p n k buf) s.pages (s.pages + 1) = .ok s' →
      lookupLoop [n] p o s = .ok (.found s.pages p, s') := by
    intro s' hs'
    rw [lookupLoop_cons, component_of_none h he hk, hlook, ok_bind]
    dsimp only
    rw [hs']
    rfl
  cases hl : s.vinodeHashTable.lookup (.rfs, k) with
  | none => exact ⟨_, _, _, .new h huse hl buf, hrun _ (attachFound_new hl hlt hk buf)⟩
  | some u =>
    obtain ⟨xu, hcu⟩ := h.tables.cached hl
    exact ⟨_, u, xu,
      ⟨.scratch s buf (by omega), ⟨hcu.hash, hcu.vinode⟩, rfl, rfl, rfl, .inl hcu⟩,
      hrun _ (attachFound_old h hcu hlt hk buf)⟩

namespace Loaded

variable {s₀ : State} (hl : Loaded s s₀ k u x)

/-- The new dentry. -/
theorem hashed : Hashed (s₀.addDentry p n s.pages u x) s.pages
    { name := n, dRef := 0, dentryInode := some u, parent := some p } u :=
  ⟨Function.update_self _ _ _, AList.lookup_insert _, rfl⟩

include hl

theorem cached_add (t : ℕ) : Cached (s₀.addDentry p n t u x) k u { x with ref := x.ref + 1 } :=
  ⟨hl.cached.hash, Function.update_self _ _ _⟩

/-- The old dentries stay. -/
theorem extends_add (h : Inv s) (hp : DentryOf s p d) (hm : (n, k) ∈ s.vol.dir d)
    (hk : hashGetDentry s p n = none) : Extends s (s₀.addDentry p n s.pages u x) := by
  obtain ⟨hd₀, -, -⟩ := h.tables.fresh s.pages (Nat.le_refl _)
  have hvol := (hl.ext.steps.quiet h).vol
  refine hl.ext.trans (.enter (hl.ext.dentryOf hp) hl.cached (hvol ▸ hm) ?_ ?_ ?_)
  · rw [hl.hash]
    exact hk
  · rw [hl.dentries, hd₀]
  · rw [hl.pages]
    omega

/-- The new dentry is the only one more. -/
theorem dentryOf_add (h : Inv s) (hp : DentryOf s p d) (hm : (n, k) ∈ s.vol.dir d)
    (hk : hashGetDentry s p n = none) (ht : DentryOf (s₀.addDentry p n s.pages u x) t i) :
    DentryOf s t i ∨ t = s.pages ∧ i = k := by
  have hext := hl.extends_add h hp hm hk
  have hinv := hext.steps.inv h
  by_cases hts : t = s.pages
  · refine .inr ⟨hts, ?_⟩
    subst hts
    exact hinv.inode_unique ht ⟨_, u, _, hashed, hl.cached_add _⟩
  · left
    obtain ⟨e, v, x', he, hc⟩ := ht
    have he₀ : Hashed s t e v := by
      refine ⟨?_, ?_, he.inode⟩
      · rw [← hl.dentries, ← he.dentry]
        exact (Function.update_of_ne hts _ _).symm
      · have hlook := (lookup_insert_eq s₀.dentryHashTable (some p, n) (e.parent, e.name)
          s.pages).symm.trans he.hash
        split at hlook
        · exact absurd (Option.some.inj hlook).symm hts
        · rwa [hl.hash] at hlook
    rcases h.tables.target t e v he₀ with rfl | ⟨i', x₀, hc₀⟩
    · rw [← (hext.steps.quiet h).root] at he
      exact absurd hc (hinv.tables.root_not_cached he)
    · obtain ⟨x₁, hc₁, -⟩ := hext.cached i' v x₀ hc₀
      obtain ⟨rfl, -⟩ := hinv.tables.cached_inj hc hc₁
      exact ⟨e, v, x₀, he₀, hc₀⟩

end Loaded

/-! ## The directories of a path -/

/-- New dentries are those of directories. -/
def OnlyDirs (s s' : State) : Prop :=
  ∀ t i, DentryOf s' t i → DentryOf s t i ∨ (s.vol.node i).type = DIR_I

/-- The lookup of the components before the last one leaves the chain in the table. -/
theorem lookupLoop_dirs (h : Inv s) (hp : DentryOf s p d) (o : ℕ)
    (hd : DirParents (fun i => (s.vol.node i).type = DIR_I) s.vol.dir (ns ++ [n]) d)
    (hn : ∀ m ∈ ns, m.Valid) (hw : walk s.vol.dir (ns ++ [n]) d = some j) :
    ∃ q i o' s', lookupLoop ns p o s = .ok (.found q o', s') ∧ Extends s s' ∧
      Follows s' ns p q ∧ DentryOf s' q i ∧ (s.vol.node i).type = DIR_I ∧
      dirFind (s.vol.dir i) n = some j ∧ OnlyDirs s s' := by
  induction ns generalizing s p d o with
  | nil =>
    refine ⟨p, d, o, s, rfl, .refl s, rfl, hp, hd.1, ?_, fun t i ht => .inl ht⟩
    rw [List.nil_append, walk, Option.bind_eq_some_iff] at hw
    obtain ⟨j', hj', hw⟩ := hw
    cases hw
    exact hj'
  | cons m ns ih =>
    rw [List.cons_append, walk, Option.bind_eq_some_iff] at hw
    obtain ⟨k, hf, hw⟩ := hw
    obtain ⟨hdir, hrest⟩ := hd
    have hvalid := hn m List.mem_cons_self
    have hns := fun m' hm' => hn m' (List.mem_cons_of_mem m hm')
    have hkdir : (s.vol.node k).type = DIR_I := by
      have hk := hrest k hf
      cases ns with
      | nil => exact hk.1
      | cons m' ns => exact hk.1
    -- the rest of the path, from the dentry of this component
    have hnext : ∀ {s₁ : State} {t : ℕ}, Extends s s₁ → DentryOf s₁ t k →
        hashGetDentry s₁ p m = some t → OnlyDirs s s₁ →
        (∀ r, lookupLoop ns t p s₁ = .ok r → lookupLoop (m :: ns) p o s = .ok r) →
        ∃ q i o' s', lookupLoop (m :: ns) p o s = .ok (.found q o', s') ∧ Extends s s' ∧
          Follows s' (m :: ns) p q ∧ DentryOf s' q i ∧ (s.vol.node i).type = DIR_I ∧
          dirFind (s.vol.dir i) n = some j ∧ OnlyDirs s s' := by
      intro s₁ t hext ht hkey honly hloop
      have hinv := hext.steps.inv h
      have hvol := (hext.steps.quiet h).vol
      have hd₁ := hrest k hf
      rw [← hvol] at hd₁ hw
      obtain ⟨q, i, o', s', hrun, hext', hfollows, hq, hi, hj, honly'⟩ := ih hinv ht p hd₁ hns hw
      rw [hvol] at hi hj
      refine ⟨q, i, o', s', hloop _ hrun, hext.trans hext', ⟨t, hext'.hashGet hinv hkey, hfollows⟩,
        hq, hi, hj, ?_⟩
      intro t' i' ht'
      rcases honly' t' i' ht' with ht' | hdir'
      · exact honly t' i' ht'
      · rw [hvol] at hdir'
        exact .inr hdir'
    cases hk : hashGetDentry s p m with
    | some t =>
      obtain ⟨e, v, x, he, hc⟩ := hp
      obtain ⟨e₁, v₁, k', x₁, he₁, hc₁, -, -, hm⟩ := h.child he hc hk
      have hf' := dirFind_of_mem (h.good.names d) hm
      obtain rfl := Option.some.inj (hf.symm.trans hf')
      refine hnext (.refl s) ⟨e₁, v₁, x₁, he₁, hc₁⟩ hk (fun t i ht => .inl ht) fun r hr => ?_
      rw [lookupLoop, hk]
      exact hr
    | none =>
      obtain ⟨s₀, u, x, hl, hone⟩ := lookupLoop_one h hp hdir hvalid hf hk o
      have hm := mem_of_dirFind hf
      refine hnext (hl.extends_add h hp hm hk) ⟨_, u, _, Loaded.hashed, hl.cached_add _⟩
        (AList.lookup_insert _) (fun t i ht => ?_) fun r hr => ?_
      · rcases hl.dentryOf_add h hp hm hk ht with ht | ⟨-, rfl⟩
        · exact .inl ht
        · exact .inr hkdir
      · have happ := lookupLoop_append [m] ns p o s
        rw [hone, ok_bind] at happ
        exact happ.trans hr

/-! ## A file that is not open -/

/-- The directories of a path `ns`, `n` are in the table, up to the dentry `p` of the directory `d`;
the entry `n` there is a file `j` that has no dentry. -/
structure Unopened (s : State) (ns : List Name) (n : Name) (p d j : ℕ) : Prop where
  inv : Inv s
  follows : Follows s ns s.vfsRootDentry p
  parent : DentryOf s p d
  dir : (s.vol.node d).type = DIR_I
  entry : dirFind (s.vol.dir d) n = some j
  file : (s.vol.node j).type = FILE_I
  valid : n.Valid
  absent : ∀ t, ¬ DentryOf s t j

namespace Unopened

variable (h : Unopened s ns n p d j)

include h

theorem hashGet : hashGetDentry s p n = none := by
  cases hk : hashGetDentry s p n with
  | none => rfl
  | some t =>
    obtain ⟨e, v, x, he, hc⟩ := h.parent
    obtain ⟨e₁, v₁, k, x₁, he₁, hc₁, -, -, hm⟩ := h.inv.child he hc hk
    have hf := dirFind_of_mem (h.inv.good.names d) hm
    obtain rfl := Option.some.inj (h.entry.symm.trans hf)
    exact absurd ⟨e₁, v₁, x₁, he₁, hc₁⟩ (h.absent t)

/-- A vinode of the file that is in the table is there without a reference. -/
theorem ref_eq_zero (hc : Cached s j u x) : x.ref = 0 := by
  rw [h.inv.tables.ref j u x hc]
  have hzero : ¬ 0 < tally s.dentryHashTable fun t => s.inodeOf t = some u := by
    rw [tally_pos_iff]
    rintro ⟨k, t, ht, hu⟩
    obtain ⟨e, v, he, -⟩ := h.inv.tables.dentry k t ht
    obtain rfl := Option.some.inj (he.inodeOf.symm.trans hu)
    exact h.absent t ⟨e, v, x, he, hc⟩
  omega

end Unopened

/-- The file `j` is open once, by the structure `f`, through its only dentry. -/
structure OpenedOnce (s : State) (ns : List Name) (n : Name) (p d j f : ℕ) (fl : File) (e : Dentry)
    (v : ℕ) (x : Vinode) : Prop where
  inv : Inv s
  follows : Follows s ns s.vfsRootDentry p
  parent : DentryOf s p d
  dir : (s.vol.node d).type = DIR_I
  entry : dirFind (s.vol.dir d) n = some j
  file : (s.vol.node j).type = FILE_I
  valid : n.Valid
  lookup : s.files.lookup f = some fl
  hashed : Hashed s fl.fDentry e v
  cached : Cached s j v x
  dRef : e.dRef = 1
  ref : x.ref = 1
  only : ∀ t, DentryOf s t j → t = fl.fDentry

/-- The dentry that the lookup makes. -/
def freshDentry (p : ℕ) (n : Name) (u : ℕ) : Dentry :=
  { name := n, dRef := 0, dentryInode := some u, parent := some p }

/-- Opening the file. -/
theorem Unopened.open {s₀ : State} (h : Unopened s ns n p d j) (hl : Loaded s s₀ j u x) {fl : File}
    (hfl : fl.fDentry = s.pages) :
    OpenedOnce (State.addFile { s₀.addDentry p n s.pages u x with pages := s₀.pages + 1 } s₀.pages
      fl (freshDentry p n u)) ns n p d j s₀.pages fl
      { freshDentry p n u with dRef := 1 } u { x with ref := 1 } := by
  have hm := mem_of_dirFind h.entry
  have hext := hl.extends_add h.inv h.parent hm h.hashGet
  set s₁ : State := s₀.addDentry p n s.pages u x with hs₁
  have hinv₁ : Inv s₁ := hext.steps.inv h.inv
  have hhash₁ : Hashed s₁ fl.fDentry (freshDentry p n u) u := hfl ▸ Loaded.hashed
  have hsteps := addFile_steps hinv₁ hhash₁
  have hquiet := hsteps.quiet hinv₁
  have hvol : (State.addFile { s₁ with pages := s₀.pages + 1 } s₀.pages fl
      (freshDentry p n u)).vol = s.vol := hquiet.vol.trans (hext.steps.quiet h.inv).vol
  have hlt : p < s.pages := by
    obtain ⟨e, v, y, he, -⟩ := h.parent
    exact h.inv.tables.page_lt_dentry he.dentry
  have href : x.ref = 0 := hl.origin.elim h.ref_eq_zero id
  have hdentry : ∀ t, t ≠ s.pages → ∀ e v, Hashed (State.addFile { s₁ with pages := s₀.pages + 1 }
      s₀.pages fl (freshDentry p n u)) t e v ↔ Hashed s₁ t e v := by
    intro t ht e v
    have hden : (State.addFile { s₁ with pages := s₀.pages + 1 } s₀.pages fl
        (freshDentry p n u)).dentries t = s₁.dentries t :=
      Function.update_of_ne (by rwa [hfl]) _ _
    exact ⟨fun he => ⟨hden ▸ he.dentry, he.hash, he.inode⟩,
      fun he => ⟨hden.trans he.dentry, he.hash, he.inode⟩⟩
  have hcached : Cached s₁ j u { x with ref := 1 } := by
    have hc := hl.cached_add (p := p) (n := n) s.pages
    rwa [href] at hc
  exact {
    inv := hsteps.inv hinv₁
    follows := by
      have hf := hext.follows h.inv h.follows
      rw [← (hext.steps.quiet h.inv).root] at hf
      exact hf.mono fun _ _ _ ht => ht
    parent := by
      obtain ⟨e, v, y, he, hc⟩ := hext.dentryOf h.parent
      exact ⟨e, v, y, (hdentry p hlt.ne e v).2 he, ⟨hc.hash, hc.vinode⟩⟩
    dir := by rw [hvol, h.dir]
    entry := by rw [hvol, h.entry]
    file := by rw [hvol, h.file]
    valid := h.valid
    lookup := AList.lookup_insert _
    hashed := ⟨Function.update_self _ _ _, hhash₁.hash, rfl⟩
    cached := ⟨hcached.hash, hcached.vinode⟩
    dRef := rfl
    ref := rfl
    only := fun t ht => by
      by_contra hne
      rw [hfl] at hne
      obtain ⟨e, v, y, he, hc⟩ := ht
      have ht₁ : DentryOf s₁ t j := ⟨e, v, y, (hdentry t hne e v).1 he, ⟨hc.hash, hc.vinode⟩⟩
      rcases hl.dentryOf_add h.inv h.parent hm h.hashGet ht₁ with ht₀ | ⟨ht₀, -⟩
      · exact h.absent t ht₀
      · exact hne ht₀ }

/-- `vfs_open` behind the lookup. -/
theorem Unopened.openDentry {s₀ : State} {flags : ℕ} (h : Unopened s ns n p d j)
    (hl : Loaded s s₀ j u x)
    (hopen : Fs.openDentry (s₀.addDentry p n s.pages u x) s.pages flags = .ok (some f, s')) :
    f = s.pages + 2 ∧ ∃ fl e y, fl.fDentry = s.pages ∧ OpenedOnce s' ns n p d j f fl e u y := by
  have hhash : Hashed (s₀.addDentry p n s.pages u x) s.pages (freshDentry p n u) u := Loaded.hashed
  have hsat : Sat (Fs.openDentry (s₀.addDentry p n s.pages u x) s.pages flags)
      (OpenPost _ s.pages) NoAssert := openDentry_sat hhash
  rw [hopen] at hsat
  rcases hsat with ⟨hnone, -⟩ | ⟨fl, e, v, y, hf, hfl, he, -, -, rfl⟩
  · cases hnone
  obtain ⟨rfl, rfl⟩ := he.unique hhash
  obtain rfl := Option.some.inj hf
  exact ⟨hl.pages, fl, _, _, hfl, h.open hl hfl⟩

namespace OpenedOnce

variable {fl : File} (h : OpenedOnce s ns n p d j f fl e v x)

include h

theorem type_eq : x.type = FILE_I := by
  rw [← h.file, h.inv.node_eq h.cached]

/-- The directory is not the file. -/
theorem ne_parent : p ≠ fl.fDentry ∧ d ≠ j := by
  have hdj : d ≠ j := by
    rintro rfl
    exact absurd (h.file.symm.trans h.dir) (by decide)
  refine ⟨?_, hdj⟩
  rintro rfl
  exact hdj (h.inv.inode_unique h.parent ⟨e, v, x, h.hashed, h.cached⟩)

/-- Nothing is below the dentry of the file. -/
theorem no_child (m : Name) : hashGetDentry s fl.fDentry m = none := by
  cases hk : hashGetDentry s fl.fDentry m with
  | none => rfl
  | some t =>
    obtain ⟨e₁, v₁, k, x₁, -, -, -, -, hm⟩ := h.inv.child h.hashed h.cached hk
    have hfile : (s.vol.node j).type ≠ DIR_I := by
      rw [h.file]
      decide
    rw [h.inv.good.nil j hfile] at hm
    cases hm

/-- Closing it again: neither the dentry nor the vinode stays. -/
theorem close (hpost : ClosePost s fl e j v x f s') :
    Unopened s' ns n p d j ∧ s'.vinodeHashTable.lookup (.rfs, j) = none := by
  have hinv := (hpost.steps h.lookup h.hashed h.cached h.type_eq).inv h.inv
  obtain ⟨hpt, hdj⟩ := h.ne_parent
  cases hpost with
  | shared dRef => exact absurd h.dRef dRef
  | named dRef ref => exact absurd h.ref ref
  | @last buf dk dRef ref disk =>
    set s₁ : State := s.dropFile f fl e with hs₁
    set s₂ : State := s₁.dropDentry fl.fDentry { e with dRef := e.dRef - 1 } v x with hs₂
    have hclose : Trans s .closes s₁ := .closeFile h.lookup h.hashed
    have hinv₁ : Inv s₁ := hclose.inv h.inv
    have hleave : Trans s₁ .quiet s₂ :=
      .leave ⟨Function.update_self _ _ _, h.hashed.hash, h.hashed.inode⟩
        ⟨h.cached.hash, h.cached.vinode⟩ h.type_eq (by simp [dRef])
    have hvol₂ : s₂.vol = s.vol := (hleave.quiet hinv₁).vol
    have hvol : (s₂.dropVinode j v dk).vol = s.vol :=
      ((hleave.inv hinv₁).vol_evict (x := { x with ref := x.ref - 1 })
        ⟨h.cached.hash, Function.update_self _ _ _⟩ disk).trans hvol₂
    -- a value of the table other than the dentry of the file stays
    have hkept : ∀ k r, r ≠ fl.fDentry → s.dentryHashTable.lookup k = some r →
        s₂.dentryHashTable.lookup k = some r := by
      intro k r hr hk
      refine (lookup_erase_eq _ _ _).trans ?_
      rw [if_neg]
      · exact hk
      · rintro rfl
        exact hr (Option.some.inj (hk.symm.trans h.hashed.hash))
    have hgone : (s₂.dropVinode j v dk).vinodeHashTable.lookup (.rfs, j) = none :=
      AList.lookup_erase _ _
    refine ⟨?_, hgone⟩
    exact {
      inv := hinv
      follows := h.follows.avoid hpt h.no_child fun p m r hr hk => hkept _ r hr hk
      parent := by
        obtain ⟨ep, vp, y, hep, hcp⟩ := h.parent
        have hv : vp ≠ v := by
          rintro rfl
          exact hdj (h.inv.tables.cached_inj h.cached hcp).1
        refine ⟨ep, vp, y, ⟨?_, hkept _ p hpt hep.hash, hep.inode⟩, ⟨?_, ?_⟩⟩
        · refine (Function.update_of_ne hpt _ _).trans ?_
          exact (Function.update_of_ne hpt _ _).trans hep.dentry
        · refine (lookup_erase_eq _ _ _).trans ?_
          rw [if_neg fun heq => hdj (Prod.mk.inj heq).2]
          exact hcp.hash
        · refine (Function.update_of_ne hv _ _).trans ?_
          exact (Function.update_of_ne hv _ _).trans hcp.vinode
      dir := (congrArg (fun V => (V.node d).type) hvol).trans h.dir
      entry := (congrArg (fun V => dirFind (V.dir d) n) hvol).trans h.entry
      file := (congrArg (fun V => (V.node j).type) hvol).trans h.file
      valid := h.valid
      absent := fun t ht => by
        obtain ⟨e', v', x', -, hc'⟩ := ht
        have hnone := hc'.hash
        change (s₂.dropVinode j v dk).vinodeHashTable.lookup (.rfs, j) = some v' at hnone
        rw [hgone] at hnone
        cases hnone }

/-- `vfs_close` on the structure of the file. -/
theorem closeFile_eq : ∃ s', closeFile s fl = .ok (0, s') ∧ s'.files = s.files ∧
    ClosePost s fl e j v x f { s' with files := s.files.erase f } := by
  have hsb : viopSb s v = .ok () := by
    rw [viopSb, State.vinode_eq_ok.2 h.cached.vinode, ok_bind, (h.inv.tables.inum_eq h.cached).2]
    rfl
  have hrelease : ∃ s₁, releaseDentry (s.setDentry fl.fDentry { e with dRef := e.dRef - 1 })
      fl.fDentry v (e.dRef - 1) = .ok s₁ ∧ s₁.files = s.files ∧
      ClosePost s fl e j v x f { s₁ with files := s.files.erase f } :=
        releaseDentry_eq h.inv h.cached
  obtain ⟨s', hrel, hfiles, hpost⟩ := hrelease
  refine ⟨s', ?_, hfiles, hpost⟩
  rw [closeFile, File.vinode, h.hashed.dentryInode, ok_bind,
    State.vinode_eq_ok.2 h.cached.vinode, ok_bind, pure_eq_ok, ok_bind]
  dsimp only
  rw [if_neg (not_not.2 h.type_eq), hsb, ok_bind, State.dentry_eq_ok.2 h.hashed.dentry, ok_bind,
    hrel, ok_bind, pure_eq_ok]

end OpenedOnce

/-- A lookup passes the directories in the table. -/
theorem Follows.lookupLoop {q : ℕ} {ms : List Name} (h : Follows s ns p q) (o : ℕ) :
    lookupLoop (ns ++ m :: ms) p o s = Fs.lookupLoop (m :: ms) q q s := by
  induction ns generalizing p o with
  | nil =>
    cases h
    rfl
  | cons n ns ih =>
    obtain ⟨t, ht, h⟩ := h
    rw [List.cons_append, Fs.lookupLoop, ht]
    exact ih h p

/-- `vfs_open` of the last component. -/
theorem Unopened.vfsOpen {path : List UInt8} {flags o : ℕ} {s₁ : State}
    (h : Unopened s ns n p d j)
    (hlook : lookupFinalDentry s₁ path s₁.vfsRootDentry = lookupLoop [n] p o s)
    (hopen : Fs.vfsOpen s₁ path flags = .ok (some f, s')) :
    f = s.pages + 2 ∧ ∃ fl e u y, fl.fDentry = s.pages ∧ OpenedOnce s' ns n p d j f fl e u y := by
  obtain ⟨s₀, u, x, hl, hone⟩ := lookupLoop_one h.inv h.parent h.dir h.valid h.entry h.hashGet o
  rw [Fs.vfsOpen, hlook, hone, ok_bind] at hopen
  obtain ⟨hf, fl, e, y, hfl, hopened⟩ := h.openDentry hl hopen
  exact ⟨hf, fl, e, u, y, hfl, hopened⟩

theorem Inv.file_type (h : Inv s) (hlt : j < ninodes) (hfile : (s.disk.dinode j).type = FILE_I) :
    (s.vol.node j).type = FILE_I := by
  change (s.node j).type = FILE_I
  rw [node_of_lt hlt]
  cases hk : s.vinodeHashTable.lookup (.rfs, j) with
  | none => rw [cur_of_none hk, hfile]
  | some v =>
    obtain ⟨x, hc⟩ := h.tables.cached hk
    rw [hc.cur, ← (h.sync j v x hc).type, hfile]

/-- The first open of a path: the directories are looked up, and then the file. -/
theorem vfsOpen_first {path : Path} {flags : ℕ} (h : Inv s) (hp : s.disk.ParentsOk path.1)
    (hj : s.disk.resolve path.1 = some j) (hfile : (s.disk.dinode j).type = FILE_I)
    (habsent : ∀ t, ¬ DentryOf s t j) (hopen : vfsOpen s path.1 flags = .ok (some f, s')) :
    ∃ ns n p d fl e v x, pathTokens path.1 = ns ++ [n] ∧ OpenedOnce s' ns n p d j f fl e v x := by
  have hlen : path.1.length < MAX_PATH_LEN := by
    by_contra hlen
    rw [vfsOpen, lookupFinalDentry, if_pos (Nat.not_lt.1 hlen)] at hopen
    cases hopen
  obtain ⟨tokens, htokens, hw⟩ := Disk.tokens_of_resolve hj
  rw [h.walk_eq (by decide)] at hw
  have hd := (h.dirParents_iff (by decide)).1 (hp tokens htokens)
  obtain ⟨e, v, x, he, hpar, hname, hc⟩ := h.paths.mount
  have hkey : hashGetDentry s s.vfsRootDentry ramdisk0 = some s.sb.sRoot := by
    rw [hashGetDentry, ← hpar, ← hname]
    exact he.hash
  rcases List.eq_nil_or_concat tokens with rfl | ⟨ns, n, rfl⟩
  · obtain rfl := Option.some.inj hw
    have htype := h.file_type (by decide) hfile
    rw [h.good.root] at htype
    exact absurd htype (by decide)
  rw [List.concat_eq_append] at hw hd htokens
  have hvalid : ∀ m ∈ ns ++ [n], m.Valid := fun m hm => valid_of_mem_pathTokens hlen htokens hm
  obtain ⟨q, i, o, s₁, hdirs, hext, hfollows, hq, hdir, hentry, honly⟩ :=
    lookupLoop_dirs h ⟨e, v, x, he, hc⟩ s.vfsRootDentry hd
      (fun m hm => hvalid m (List.mem_append_left _ hm)) hw
  have hvol := (hext.steps.quiet h).vol
  have htype := h.file_type (h.lt_of_dirFind hentry) hfile
  have hun : Unopened s₁ (ramdisk0 :: ns) n q i j :=
    { inv := hext.steps.inv h
      follows := by
        rw [(hext.steps.quiet h).root]
        exact ⟨s.sb.sRoot, hext.hashGet h hkey, hfollows⟩
      parent := hq
      dir := by rw [hvol, hdir]
      entry := by rw [hvol, hentry]
      file := by rw [hvol, htype]
      valid := hvalid n (List.mem_append_right _ List.mem_cons_self)
      absent := fun t ht => by
        rcases honly t j ht with ht | hj
        · exact habsent t ht
        · rw [htype] at hj
          exact absurd hj (by decide) }
  have hlook : lookupFinalDentry s path.1 s.vfsRootDentry = lookupLoop [n] q o s₁ := by
    rw [lookupFinalDentry, if_neg (Nat.not_le.2 hlen), htokens, lookupLoop, hkey]
    dsimp only
    rw [lookupLoop_append, hdirs, ok_bind]
  obtain ⟨-, fl, e', u, y, -, hopened⟩ := hun.vfsOpen hlook hopen
  exact ⟨ramdisk0 :: ns, n, q, i, fl, e', u, y, htokens, hopened⟩

end HustOS.Fs
