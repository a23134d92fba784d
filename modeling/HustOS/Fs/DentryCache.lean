import HustOS.Fs.Frame

/-!
# The cache of dentries

A dentry in the table stands there under its own parent and name, and the root dentry is a directory
without a parent (`DentryCache`). RFS does not touch the dentries (`DentryCache.frame`), so this is
kept by what the virtual file system does to them: a new dentry in a new page, a new inode or count,
and the two operations of the table.

While a path is looked up the cache only grows (`Grows`): every dentry keeps its name and its
parent, and the table keeps its entries.
-/

namespace HustOS.Fs

open Foundations

variable {s s' s₀ s₁ : State} {n v w t p : ℕ} {e e' : Dentry} {k : Option ℕ × Name} {name : Name}
  {Q : State → Prop} {x : Vinode}

/-! ## The invariant -/

/-- The parent and the name of a dentry, under which the table has it. -/
def Dentry.tableKey (e : Dentry) : Option ℕ × Name := (e.parent, e.name)

/-- The dentries and their table. The inode of the root dentry is `v`, in a page before `n`. -/
structure DentryCache (n v : ℕ) (s : State) : Prop where
  key : ∀ k t, s.dentryHashTable.lookup k = some t → ∃ e, s.dentries t = some e ∧ e.tableKey = k
  fresh : ∀ t, s.pages ≤ t → s.dentries t = none
  root : ∃ e, s.dentries s.vfsRootDentry = some e ∧ e.parent = none ∧ e.dentryInode = some v
  dir : ∃ x, s.vinodes v = some x ∧ x.type = DIR_I
  lt : v < n
  pages : n ≤ s.pages

/-- A property of the dentries and their table alone. -/
structure OnDentries (Q : State → Prop) : Prop where
  congr : ∀ {s s'}, Q s → s'.dentries = s.dentries → s'.dentryHashTable = s.dentryHashTable →
    s'.vfsRootDentry = s.vfsRootDentry → Q s'

theorem OnDentries.and {Q' : State → Prop} (hQ : OnDentries Q) (hQ' : OnDentries Q') :
    OnDentries fun s => Q s ∧ Q' s :=
  ⟨fun h hd hh hr => ⟨hQ.congr h.1 hd hh hr, hQ'.congr h.2 hd hh hr⟩⟩

theorem onDentries_true : OnDentries fun _ => True := ⟨fun _ _ _ _ => trivial⟩

namespace DentryCache

/-- A vinode keeps its type. -/
theorem setVinode {x' : Vinode} (h : DentryCache n v s) (h₁ : DentryCache n v s₁)
    (hw : s₁.vinode w = .ok x) (htype : x'.type = x.type) :
    DentryCache n v (s.setVinode w x') := by
  obtain ⟨y, hy, hdir⟩ := h.dir
  refine ⟨h.key, h.fresh, h.root, ?_, h.lt, h.pages⟩
  by_cases hvw : v = w
  · obtain ⟨y₁, hy₁, hdir₁⟩ := h₁.dir
    subst hvw
    obtain rfl := Option.some.inj (hy₁.symm.trans (State.vinode_eq_ok.1 hw))
    exact ⟨x', Function.update_self _ _ _, htype.trans hdir₁⟩
  · exact ⟨y, (Function.update_of_ne hvw _ _).trans hy, hdir⟩

/-- **RFS keeps the cache of dentries.** -/
theorem frame (hQ : OnDentries Q) : RfsFrame n fun s => DentryCache n v s ∧ Q s where
  pages h := h.1.pages
  other := by
    rintro s s' ⟨h, hq⟩ hv - hd hh hr hp
    refine ⟨⟨?_, fun t ht => ?_, ?_, ?_, h.lt, h.pages.trans hp⟩, hQ.congr hq hd hh hr⟩
    · rw [hh, hd]
      exact h.key
    · rw [hd]
      exact h.fresh t (hp.trans ht)
    · rw [hd, hr]
      exact h.root
    · rw [hv]
      exact h.dir
  fresh := by
    rintro s w o ⟨h, hq⟩ hw
    obtain ⟨x, hx, hdir⟩ := h.dir
    have hne : v ≠ w := Nat.ne_of_lt (Nat.lt_of_lt_of_le h.lt hw)
    refine ⟨⟨h.key, h.fresh, h.root, ⟨x, ?_, hdir⟩, h.lt, h.pages⟩, hQ.congr hq rfl rfl rfl⟩
    exact (Function.update_of_ne hne _ _).trans hx
  member := by
    rintro s s₁ w x x' ⟨h, hq⟩ ⟨h₁, -⟩ hw htype -
    exact ⟨h.setVinode h₁ hw htype, hQ.congr hq rfl rfl rfl⟩
  free := by
    rintro s s₁ w x ⟨h, hq⟩ ⟨h₁, -⟩ hw htype
    obtain ⟨y, hy, hdir⟩ := h.dir
    obtain ⟨y₁, hy₁, hdir₁⟩ := h₁.dir
    have hvw : v ≠ w := by
      rintro rfl
      obtain rfl := Option.some.inj (hy₁.symm.trans (State.vinode_eq_ok.1 hw))
      rw [hdir₁] at htype
      cases htype
    refine ⟨⟨h.key, h.fresh, h.root, ⟨y, ?_, hdir⟩, h.lt, h.pages⟩, hQ.congr hq rfl rfl rfl⟩
    exact (Function.update_of_ne hvw _ _).trans hy

theorem rfs : RfsFrame n (DentryCache n v) where
  pages h := h.pages
  other h hv hf hd hh hr hp := ((frame onDentries_true).other ⟨h, trivial⟩ hv hf hd hh hr hp).1
  fresh o h hw := ((frame onDentries_true).fresh o ⟨h, trivial⟩ hw).1
  member h h₁ hw ht hi :=
    ((frame onDentries_true).member ⟨h, trivial⟩ ⟨h₁, trivial⟩ hw ht hi).1
  free h h₁ hw ht := ((frame onDentries_true).free ⟨h, trivial⟩ ⟨h₁, trivial⟩ hw ht).1

variable (h : DentryCache n v s)

include h

/-- A dentry of a file is not the root dentry. -/
theorem ne_root (ht : s.dentryInode t = .ok w) (hx : s.vinodes w = some x)
    (hfile : x.type ≠ DIR_I) : t ≠ s.vfsRootDentry := by
  rintro rfl
  obtain ⟨e, he, -, hinode⟩ := h.root
  obtain ⟨y, hy, hdir⟩ := h.dir
  rw [State.dentryInode, State.dentry_eq_ok.2 he, ok_bind, hinode] at ht
  obtain rfl := Except.ok.inj ht
  obtain rfl := Option.some.inj (hy.symm.trans hx)
  exact hfile hdir

/-- A dentry may change its inode and its count, the root dentry its count only. -/
theorem setDentry (ht : s.dentries t = some e) (hkey : e'.tableKey = e.tableKey)
    (hroot : t = s.vfsRootDentry → e'.dentryInode = e.dentryInode) :
    DentryCache n v (s.setDentry t e') := by
  have hlook : ∀ t', (s.setDentry t e').dentries t' = if t' =
      t then some e' else s.dentries t' := by
    intro t'
    exact Function.update_apply _ _ _ _
  refine ⟨fun k t' hk => ?_, fun t' ht' => ?_, ?_, h.dir, h.lt, h.pages⟩
  · obtain ⟨e₁, he₁, hk₁⟩ := h.key k t' hk
    rw [hlook]
    split
    · rename_i htt
      rw [htt, ht] at he₁
      exact ⟨e', rfl, (hkey.trans (congrArg _ (Option.some.inj he₁))).trans hk₁⟩
    · exact ⟨e₁, he₁, hk₁⟩
  · have hnone := h.fresh t' ht'
    rw [hlook, if_neg, hnone]
    rintro rfl
    rw [ht] at hnone
    cases hnone
  · obtain ⟨e₁, he₁, hpar, hinode⟩ := h.root
    rw [hlook]
    change ∃ _, (if s.vfsRootDentry = t then _ else _) = _ ∧ _
    split
    · rename_i htt
      rw [htt, ht] at he₁
      obtain rfl := Option.some.inj he₁
      refine ⟨e', rfl, ?_, (hroot htt.symm).trans hinode⟩
      exact (congrArg Prod.fst hkey).trans hpar
    · exact ⟨e₁, he₁, hpar, hinode⟩

/-- A new dentry in a new page. -/
theorem newDentry (e : Dentry) : DentryCache n v (s.allocPage.2.setDentry s.pages e) := by
  have hne : ∀ t e', s.dentries t = some e' → t ≠ s.pages := by
    rintro t e' he' rfl
    rw [h.fresh _ (Nat.le_refl _)] at he'
    cases he'
  refine ⟨fun k t hk => ?_, fun t ht => ?_, ?_, h.dir, h.lt, h.pages.trans (Nat.le_succ _)⟩
  · obtain ⟨e', he', hk'⟩ := h.key k t hk
    exact ⟨e', (Function.update_of_ne (hne t e' he') _ _).trans he', hk'⟩
  · have hlt : s.pages < t := ht
    exact (Function.update_of_ne (Nat.ne_of_gt hlt) _ _).trans (h.fresh t hlt.le)
  · obtain ⟨e', he', hroot⟩ := h.root
    exact ⟨e', (Function.update_of_ne (hne _ e' he') _ _).trans he', hroot⟩

theorem hashPutDentry (t : ℕ) : Preserves (DentryCache n v) id (Fs.hashPutDentry s t) := by
  rw [Fs.hashPutDentry]
  refine .read fun e he => ?_
  split
  · exact h
  · refine ⟨fun k t' hk => ?_, h.fresh, h.root, h.dir, h.lt, h.pages⟩
    change AList.lookup k (AList.insert _ _ _) = _ at hk
    rw [lookup_insert_eq] at hk
    split at hk
    · rename_i hkey
      obtain rfl := Option.some.inj hk
      exact ⟨e, State.dentry_eq_ok.1 he, hkey.symm⟩
    · exact h.key k t' hk

/-- A dentry that is not in the table is freed. -/
theorem freeDentry (hne : t ≠ s.vfsRootDentry) (habs : ∀ k, s.dentryHashTable.lookup k ≠ some t) :
    DentryCache n v (s.freeDentry t) := by
  refine ⟨fun k t' hk => ?_, fun t' ht' => ?_, ?_, h.dir, h.lt, h.pages⟩
  · obtain ⟨e, he, hke⟩ := h.key k t' hk
    have htt : t' ≠ t := by
      rintro rfl
      exact habs k hk
    exact ⟨e, (Function.update_of_ne htt _ _).trans he, hke⟩
  · by_cases htt : t' = t
    · rw [htt]
      exact Function.update_self _ _ _
    · exact (Function.update_of_ne htt _ _).trans (h.fresh t' ht')
  · obtain ⟨e, he, hroot⟩ := h.root
    exact ⟨e, (Function.update_of_ne hne.symm _ _).trans he, hroot⟩

/-- The entry of a dentry is taken out of the table. -/
theorem eraseDentry (he : s.dentries t = some e) :
    DentryCache n v { s with dentryHashTable := s.dentryHashTable.erase e.tableKey } ∧
      ∀ k, (s.dentryHashTable.erase e.tableKey).lookup k ≠ some t := by
  have hlook : ∀ k t', (s.dentryHashTable.erase e.tableKey).lookup k = some t' →
      k ≠ e.tableKey ∧ s.dentryHashTable.lookup k = some t' := by
    intro k t' hk
    rw [lookup_erase_eq] at hk
    split at hk
    · cases hk
    · rename_i hne
      exact ⟨hne, hk⟩
  refine ⟨⟨fun k t' hk => h.key k t' (hlook k t' hk).2, h.fresh, h.root, h.dir, h.lt, h.pages⟩, ?_⟩
  intro k hk
  obtain ⟨hne, hk⟩ := hlook k t hk
  obtain ⟨e', he', hk'⟩ := h.key k t hk
  obtain rfl := Option.some.inj (he'.symm.trans he)
  exact hne hk'.symm

end DentryCache

/-! ## Growth -/

/-- The dentries of `s` keep their names and parents in `s'`, and their entries in the table. -/
structure Grows (s s' : State) : Prop where
  keeps : ∀ t e, s.dentries t = some e → ∃ e', s'.dentries t = some e' ∧ e'.tableKey = e.tableKey
  hashed : ∀ k t, s.dentryHashTable.lookup k = some t → s'.dentryHashTable.lookup k = some t
  root : s'.vfsRootDentry = s.vfsRootDentry

namespace Grows

theorem refl (s : State) : Grows s s := ⟨fun _ e he => ⟨e, he, rfl⟩, fun _ _ hk => hk, rfl⟩

theorem trans (h : Grows s₀ s) (h' : Grows s s') : Grows s₀ s' := by
  refine ⟨fun t e he => ?_, fun k t hk => h'.hashed k t (h.hashed k t hk), h'.root.trans h.root⟩
  obtain ⟨e₁, he₁, hk₁⟩ := h.keeps t e he
  obtain ⟨e₂, he₂, hk₂⟩ := h'.keeps t e₁ he₁
  exact ⟨e₂, he₂, hk₂.trans hk₁⟩

theorem onDentries (s₀ : State) : OnDentries (Grows s₀) := by
  refine ⟨fun h hd hh hr => ⟨?_, ?_, hr.trans h.root⟩⟩
  · rw [hd]
    exact h.keeps
  · rw [hh]
    exact h.hashed

theorem setDentry (h : Grows s₀ s) (ht : s.dentries t = some e) (hkey : e'.tableKey = e.tableKey) :
    Grows s₀ (s.setDentry t e') := by
  refine ⟨fun t' e₀ he₀ => ?_, h.hashed, h.root⟩
  obtain ⟨e₁, he₁, hk₁⟩ := h.keeps t' e₀ he₀
  by_cases htt : t' = t
  · rw [htt, ht] at he₁
    obtain rfl := Option.some.inj he₁
    exact ⟨e', by rw [htt]; exact Function.update_self _ _ _, hkey.trans hk₁⟩
  · exact ⟨e₁, (Function.update_of_ne htt _ _).trans he₁, hk₁⟩

theorem hashPutDentry (h : Grows s₀ s) (t : ℕ) :
    Preserves (Grows s₀) id (Fs.hashPutDentry s t) := by
  rw [Fs.hashPutDentry]
  refine .read fun e _ => ?_
  split
  · exact h
  · rename_i hnone
    refine ⟨h.keeps, fun k t' hk => ?_, h.root⟩
    have hk' := h.hashed k t' hk
    change AList.lookup k (AList.insert _ _ _) = _
    rw [lookup_insert_eq, if_neg, hk']
    rintro rfl
    rw [hk'] at hnone
    cases hnone

/-- A dentry that was not there before is freed. -/
theorem freeDentry (h : Grows s₀ s) (hnone : s₀.dentries t = none) :
    Grows s₀ (s.freeDentry t) := by
  refine ⟨fun t' e he => ?_, h.hashed, h.root⟩
  obtain ⟨e₁, he₁, hk₁⟩ := h.keeps t' e he
  have htt : t' ≠ t := by
    rintro rfl
    rw [hnone] at he
    cases he
  exact ⟨e₁, (Function.update_of_ne htt _ _).trans he₁, hk₁⟩

end Grows

/-- A dentry that has not been put into the table. -/
structure Unhashed (t : ℕ) (k : Option ℕ × Name) (s : State) : Prop where
  dentry : ∃ e, s.dentries t = some e ∧ e.tableKey = k
  absent : ∀ k', s.dentryHashTable.lookup k' ≠ some t
  ne_root : t ≠ s.vfsRootDentry

namespace Unhashed

theorem onDentries (t : ℕ) (k : Option ℕ × Name) : OnDentries (Unhashed t k) := by
  refine ⟨fun h hd hh hr => ⟨?_, ?_, ?_⟩⟩
  · rw [hd]
    exact h.dentry
  · rw [hh]
    exact h.absent
  · rw [hr]
    exact h.ne_root

theorem setDentry (h : Unhashed t k s) (ht : s.dentries t = some e)
    (hkey : e'.tableKey = e.tableKey) : Unhashed t k (s.setDentry t e') := by
  obtain ⟨e₁, he₁, hk₁⟩ := h.dentry
  obtain rfl := Option.some.inj (ht.symm.trans he₁)
  exact ⟨⟨e', Function.update_self _ _ _, hkey.trans hk₁⟩, h.absent, h.ne_root⟩

/-- `hash_put_dentry` puts the dentry into a free place of the table. -/
theorem hashPutDentry (h : Unhashed t k s) (hfree : s.dentryHashTable.lookup k = none) :
    Preserves (fun s' => s'.dentryHashTable.lookup k = some t) id (Fs.hashPutDentry s t) := by
  obtain ⟨e, he, rfl⟩ := h.dentry
  rw [Dentry.tableKey] at hfree
  rw [Fs.hashPutDentry, State.dentry_eq_ok.2 he, ok_bind, hfree]
  change AList.lookup _ (AList.insert _ _ _) = _
  rw [lookup_insert_eq, Dentry.tableKey, if_pos rfl]

end Unhashed

/-! ## The functions on dentries -/

namespace DentryCache

variable (h : DentryCache n v s)

include h

/-- `alloc_vfs_dentry`. -/
theorem allocVfsDentry (name : Name) (inode parent : Option ℕ) :
    Sat (Fs.allocVfsDentry s name inode parent) (fun r => r.1 = s.pages ∧ DentryCache n v r.2 ∧
      Grows s r.2 ∧ Unhashed r.1 (parent, name) r.2) fun _ => True := by
  have hnone : s.dentries s.pages = none := h.fresh _ (Nat.le_refl _)
  rw [Fs.allocVfsDentry]
  set e : Dentry := { name := name, dRef := 0, dentryInode := inode, parent := parent } with he
  have hgrows : Grows s (s.allocPage.2.setDentry s.pages e) := by
    refine ⟨fun t e' he' => ⟨e', (Function.update_of_ne ?_ _ _).trans he', rfl⟩,
      fun _ _ hk => hk, rfl⟩
    rintro rfl
    rw [hnone] at he'
    cases he'
  have hnew : Unhashed s.pages (parent, name) (s.allocPage.2.setDentry s.pages e) := by
    refine ⟨⟨e, Function.update_self _ _ _, rfl⟩, fun k hk => ?_, fun hr => ?_⟩
    · obtain ⟨e', he', -⟩ := h.key k _ hk
      rw [hnone] at he'
      cases he'
    · obtain ⟨e', he', -⟩ := h.root
      have hr' : s.pages = s.vfsRootDentry := hr
      rw [← hr', hnone] at he'
      cases he'
  cases inode with
  | none => exact ⟨rfl, h.newDentry e, hgrows, hnew⟩
  | some w =>
    have F : RfsFrame n fun s' =>
        DentryCache n v s' ∧ Grows s s' ∧ Unhashed s.pages (parent, name) s' :=
      frame ((Grows.onDentries s).and (Unhashed.onDentries _ _))
    exact Sat.bind (F.addRef ⟨h.newDentry e, hgrows, hnew⟩ w 1) fun s' hs' => ⟨rfl, hs'⟩

/-- A dentry that is not the root gets an inode, and goes to its free place in the table. -/
theorem attachFound (hg : Grows s₀ s) (hnew : Unhashed t k s)
    (hfree : s.dentryHashTable.lookup k = none) (hw : n ≤ w) :
    Preserves (fun s' => DentryCache n v s' ∧ Grows s₀ s' ∧ s'.dentryHashTable.lookup k = some t) id
      (Fs.attachFound s t w) := by
  have F : RfsFrame n fun s' => DentryCache n v s' ∧ Grows s₀ s' ∧ Unhashed t k s' ∧
      s'.dentryHashTable.lookup k = none :=
    frame ((Grows.onDentries s₀).and
      ((Unhashed.onDentries t k).and ⟨fun hs _ hh _ => by rw [hh]; exact hs⟩))
  have hput : ∀ s', DentryCache n v s' ∧ Grows s₀ s' ∧ Unhashed t k s' ∧
      s'.dentryHashTable.lookup k = none →
      Preserves (fun s' => DentryCache n v s' ∧ Grows s₀ s' ∧
        s'.dentryHashTable.lookup k = some t) id (Fs.hashPutDentry s' t) :=
    fun s' ⟨hc, hg, hnew, hfree⟩ =>
      (hc.hashPutDentry t).and ((hg.hashPutDentry t).and (hnew.hashPutDentry hfree))
  rw [Fs.attachFound]
  refine .read fun x _ => .read fun e he => ?_
  have hset : ∀ i, DentryCache n v (s.setDentry t { e with dentryInode := i }) ∧
      Grows s₀ (s.setDentry t { e with dentryInode := i }) ∧
      Unhashed t k (s.setDentry t { e with dentryInode := i }) ∧
      (s.setDentry t { e with dentryInode := i }).dentryHashTable.lookup k = none := fun i =>
    ⟨h.setDentry (State.dentry_eq_ok.1 he) rfl fun hr => absurd hr hnew.ne_root,
      hg.setDentry (State.dentry_eq_ok.1 he) rfl, hnew.setDentry (State.dentry_eq_ok.1 he) rfl,
      hfree⟩
  split
  · exact Sat.bind (F.addRef (hset _) _ _) fun s₁ h₁ => hput _ (F.fresh none h₁ hw)
  · refine Sat.bind (F.addRef (hset _) _ _) fun s₁ h₁ => ?_
    exact Sat.bind (F.hashPutVinode h₁ _) fun s₂ h₂ => hput _ h₂

theorem attachNew (hnew : Unhashed t k s) (w : ℕ) :
    Preserves (DentryCache n v) id (Fs.attachNew s t w) := by
  rw [Fs.attachNew]
  refine .read fun e he => ?_
  have hset : DentryCache n v (s.setDentry t { e with dentryInode := some w }) :=
    h.setDentry (State.dentry_eq_ok.1 he) rfl fun hr => absurd hr hnew.ne_root
  refine (rfs.addRef hset _ _).bind fun s₁ h₁ => ?_
  exact Sat.bind (DentryCache.hashPutDentry h₁ t) fun s₂ h₂ => rfs.hashPutVinode h₂ w

/-- `alloc_vfs_file`. -/
theorem allocVfsFile (t : ℕ) (readable writable : Bool) :
    Preserves (DentryCache n v) Prod.snd (Fs.allocVfsFile s t readable writable) := by
  rw [Fs.allocVfsFile]
  refine .read fun e he => ?_
  have hpage : DentryCache n v s.allocPage.2 := rfs.page h
  have hset : DentryCache n v (s.allocPage.2.setDentry t { e with dRef := e.dRef + 1 }) :=
    hpage.setDentry (State.dentry_eq_ok.1 he) rfl fun _ => rfl
  exact ⟨hset.key, hset.fresh, hset.root, hset.dir, hset.lt, hset.pages⟩

/-- `viop_hook_opendir`, which gives a vinode a directory cache. -/
theorem viopHookOpendir (hQ : OnDentries Q) (hq : Q s) (w : ℕ) :
    Preserves (fun s' => DentryCache n v s' ∧ Q s') id (Fs.viopHookOpendir s w) := by
  have F : RfsFrame n fun s' => DentryCache n v s' ∧ Q s' := frame hQ
  have hhook : Preserves (fun s' => DentryCache n v s' ∧ Q s') Prod.snd (rfsHookOpendir s w) := by
    rw [rfsHookOpendir]
    refine .read fun y hy => (F.opendirLoop _ _ _ _ ⟨h, hq⟩).bind fun a h₁ => ?_
    exact ⟨h₁.1.setVinode h hy rfl, hQ.congr h₁.2 rfl rfl rfl⟩
  rw [Fs.viopHookOpendir]
  refine .read fun x _ => ?_
  cases x.sb with
  | hostfs => exact ⟨h, hq⟩
  | rfs => exact hhook.bind fun r hr => hr

/-- `hash_erase_dentry` and `free_vfs_dentry`. -/
theorem dropDentry (hne : t ≠ s.vfsRootDentry) :
    Preserves (DentryCache n v) id (Fs.hashEraseDentry s t >>= fun s => Fs.freeVfsDentry s t) := by
  rw [Fs.hashEraseDentry]
  rcases he : s.dentry t with f | e
  · trivial
  obtain ⟨herase, habs⟩ := h.eraseDentry (State.dentry_eq_ok.1 he)
  change Preserves _ _ (Fs.freeVfsDentry { s with dentryHashTable := _ } t)
  rw [Fs.freeVfsDentry]
  exact .read fun e _ => .ite herase (herase.freeDentry hne habs)

/-- The part of `vfs_unlink` behind `viop_unlink`, on the dentry of a file. -/
theorem forgetDentry (h₁ : DentryCache n v s₁) (hx : s₁.vinode w = .ok x) (hfile : x.type = FILE_I)
    (hne : t ≠ s.vfsRootDentry) : Preserves (DentryCache n v) id (Fs.forgetDentry s t w) := by
  rw [Fs.forgetDentry, ← bind_assoc]
  refine (h.dropDentry hne).bind fun s₂ h₂ => (rfs.addRef h₂ w _).bind fun s₃ h₃ => ?_
  refine .read fun y _ => .ite (.ite (.error _) ?_) h₃
  exact (rfs.hashEraseVinode h₃ w).bind fun s₄ h₄ => rfs.free h₄ h₁ hx hfile

end DentryCache

end HustOS.Fs
