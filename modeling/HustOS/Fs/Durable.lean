import HustOS.Fs.Safety

/-!
# When the disk inode is up to date

`vfs_close` writes an inode back when it forgets the vinode, that is with the last dentry of the
file. While another name of the file is cached, the last close leaves the disk inode as it is, so
what was written meanwhile is not on the disk (`stale_after_close`).

A state is `Durable` when the disk inode of every file that is not open is up to date. Every
transition but the closing of a file keeps that (`Trans.durableAt`), and so does every close that
finds no other dentry or an up to date disk inode (`CloseOk`); no other close does.
-/

namespace HustOS.Fs

open Foundations

variable {s s' : State} {op : Op} {r : Ret} {tag : Tag} {d vd t i j k v f : ℕ} {e : Dentry}
  {x y z : Dinode} {l u : Vinode} {fl : File}

/-! ## Open files -/

/-- No descriptor is open on the inode `i`: its dentries are not in use. -/
def State.Closed (s : State) (i : ℕ) : Prop :=
  ∀ t e v x, Hashed s t e v → Cached s i v x → e.dRef = 0

/-- The descriptor `f` is open on the inode `i`. -/
def State.OpenAt (s : State) (f i : ℕ) : Prop :=
  ∃ fl, s.files.lookup f = some fl ∧ DentryOf s fl.fDentry i

theorem Inv.closed_iff (h : Inv s) : s.Closed i ↔ ∀ f, ¬ s.OpenAt f i := by
  constructor
  · rintro hc f ⟨fl, hf, e, v, x, he, hx⟩
    have hz := hc _ e v x he hx
    rw [h.tables.dRef _ e v he] at hz
    have hpos : 0 < tally s.files fun g => g.fDentry = fl.fDentry :=
      tally_pos_iff.2 ⟨f, fl, hf, rfl⟩
    omega
  · intro ho t e v x he hx
    rw [h.tables.dRef t e v he]
    by_contra hne
    obtain ⟨f, fl, hf, rfl⟩ := tally_pos_iff.1 (Nat.pos_of_ne_zero fun hz => hne (by rw [hz]; rfl))
    exact ho f ⟨fl, hf, e, v, x, he, hx⟩

/-- A vinode that some open file leads to. -/
theorem State.Opened.openAt (ho : s.Opened v) (h : Inv s) (hc : Cached s i v u) :
    ∃ f, s.OpenAt f i := by
  obtain ⟨f, fl, hf, hv⟩ := ho
  obtain ⟨e, w, he⟩ := h.tables.file f fl hf
  rw [he.inodeOf] at hv
  obtain rfl := Option.some.inj hv
  exact ⟨f, fl, hf, e, w, u, he, hc⟩

/-- A dentry of an open file stays when another dentry is forgotten. -/
theorem dentryOf_leave (he : Hashed s t e v) (hc : Cached s j v u) {p : ℕ} (hp : p ≠ t)
    (hd : DentryOf s p i) : DentryOf (s.dropDentry t e v u) p i := by
  obtain ⟨e', w, z, he', hz⟩ := hd
  set s' : State := s.dropDentry t e v u with hs'
  have hhash : s'.vinodeHashTable = s.vinodeHashTable := rfl
  have hvs : s'.vinodes = Function.update s.vinodes v (some { u with ref := u.ref - 1 }) := rfl
  obtain ⟨z', hz', -⟩ := cached_to_ref hhash hvs hc hz
  refine ⟨e', w, z', ⟨(Function.update_of_ne hp _ _).trans he'.dentry, ?_, he'.inode⟩, hz'⟩
  refine (lookup_erase_eq _ _ _).trans ?_
  rw [if_neg, he'.hash]
  intro hkey
  have := he'.hash
  rw [hkey, he.hash] at this
  exact hp (Option.some.inj this).symm

/-- A dentry stays one of its inode while the tables stay and no vinode is freed. -/
theorem DentryOf.of_live {p : ℕ} (hd : DentryOf s p i) (hdent : s'.dentries = s.dentries)
    (hhash : s'.dentryHashTable = s.dentryHashTable)
    (hvhash : s'.vinodeHashTable = s.vinodeHashTable)
    (hlive : ∀ w, (∃ z, s.vinodes w = some z) → ∃ z, s'.vinodes w = some z) : DentryOf s' p i := by
  obtain ⟨e, w, z, he, hz⟩ := hd
  obtain ⟨z', hz'⟩ := hlive w ⟨z, hz.vinode⟩
  refine ⟨e, w, z', ⟨?_, ?_, he.inode⟩, ?_, hz'⟩
  · rw [hdent, he.dentry]
  · rw [hhash, he.hash]
  · rw [hvhash, hz.hash]

theorem live_update {vs : ℕ → Option Vinode} {w : ℕ} (hw : ∃ z, vs w = some z) :
    ∃ z, Function.update vs v (some u) w = some z := by
  by_cases hwv : w = v
  · exact ⟨u, by rw [hwv, Function.update_self]⟩
  · rwa [Function.update_of_ne hwv]

/-- A transition that closes no file keeps a descriptor open. -/
theorem Trans.openAt (ht : Trans s tag s') (h : Inv s) (htag : tag ≠ .closes) (ho : s.OpenAt f i) :
    s'.OpenAt f i := by
  obtain ⟨fl, hf, hd⟩ := ho
  cases ht with
  | scratch buf pages => exact ⟨fl, hf, (Extends.scratch s buf pages).dentryOf hd⟩
  | load inUse absent page lt => exact ⟨fl, hf, (Extends.load inUse absent page lt).dentryOf hd⟩
  | enter dir node mem absent page lt =>
    exact ⟨fl, hf, (Extends.enter dir node mem absent page lt).dentryOf hd⟩
  | @leave t v j e x hashed node file closed =>
    refine ⟨fl, hf, dentryOf_leave hashed node ?_ hd⟩
    rintro rfl
    rw [h.tables.dRef _ e v hashed] at closed
    have hpos : 0 < tally s.files fun g => g.fDentry = fl.fDentry :=
      tally_pos_iff.2 ⟨f, fl, hf, rfl⟩
    omega
  | evict node file ref disk =>
    exact ⟨fl, hf, (dropped_dropVinode s _ _ _).dentryOf h.tables node ref hd⟩
  | @openFile g v e fl' hashed absent lt =>
    have hne : f ≠ g := by
      rintro rfl
      rw [absent] at hf
      cases hf
    refine ⟨fl, (AList.lookup_insert_ne hne).trans hf, ?_⟩
    obtain ⟨e', w, z, he, hz⟩ := hd
    by_cases ht : fl.fDentry = fl'.fDentry
    · rw [ht] at he ⊢
      obtain ⟨rfl, rfl⟩ := he.unique hashed
      exact ⟨_, _, z, ⟨Function.update_self _ _ _, he.hash, he.inode⟩, hz.hash, hz.vinode⟩
    · exact ⟨e', w, z, ⟨(Function.update_of_ne ht _ _).trans he.dentry, he.hash, he.inode⟩, hz.hash,
        hz.vinode⟩
  | closeFile file hashed => exact absurd rfl htag
  | @seek g fl₁ fl₂ file same =>
    have hd' : DentryOf { s with files := s.files.insert g fl₂ } fl.fDentry i :=
      hd.of_live rfl rfl rfl fun _ hw => hw
    by_cases hfg : f = g
    · obtain rfl : fl₁ = fl := Option.some.inj (file.symm.trans (hfg ▸ hf))
      exact ⟨fl₂, hfg ▸ AList.lookup_insert _, same ▸ hd'⟩
    · exact ⟨fl, (AList.lookup_insert_ne hfg).trans hf, hd'⟩
  | cacheDir c node => exact ⟨fl, hf, hd.of_live rfl rfl rfl fun _ hw => live_update hw⟩
  | make making => exact ⟨fl, hf, hd.of_live rfl rfl rfl fun _ hw => live_update hw⟩
  | link linking =>
    exact ⟨fl, hf, hd.of_live rfl rfl rfl fun _ hw => live_update (live_update hw)⟩
  | unlink unlinking =>
    exact ⟨fl, hf, hd.of_live rfl rfl rfl fun _ hw => live_update (live_update hw)⟩
  | remove removing =>
    exact ⟨fl, hf, removing.dropped.dentryOf h.tables removing.node removing.ref hd⟩
  | write buf node file mem => exact ⟨fl, hf, hd.of_live rfl rfl rfl fun _ hw => hw⟩
  | grow node file opened blocks lt unused =>
    exact ⟨fl, hf, hd.of_live rfl rfl rfl fun _ hw => live_update hw⟩
  | resize node file opened le =>
    exact ⟨fl, hf, hd.of_live rfl rfl rfl fun _ hw => live_update hw⟩

/-! ## Durable states -/

/-- The inodes agree in size, link count and blocks. -/
structure SameInode (y x : Dinode) : Prop where
  size : y.size = x.size
  blocks : y.blocks = x.blocks
  nlinks : y.nlinks = x.nlinks
  addrs : ∀ k < x.blocks, y.addrs k = x.addrs k

theorem SameInode.refl (x : Dinode) : SameInode x x := ⟨rfl, rfl, rfl, fun _ _ => rfl⟩

theorem SameInode.blks (h : SameInode y x) : y.blks = x.blks := by
  unfold Dinode.blks
  rw [h.blocks]
  exact List.map_congr_left fun k hk => h.addrs k (List.mem_range.1 hk)

/-- The disk inode of every file that is not open holds the latest values. -/
def State.Durable (s : State) : Prop :=
  ∀ i < ninodes, (s.cur i).type = FILE_I → s.Closed i → SameInode (s.disk.dinode i) (s.cur i)

/-- The disk inode `i` holds the latest values, if it is one of a file that is not open. -/
def State.DurableAt (s : State) (i : ℕ) : Prop :=
  (s.vol.node i).type = FILE_I → (∀ f, ¬ s.OpenAt f i) → SameInode (s.disk.dinode i) (s.vol.node i)

theorem Inv.durable_iff (h : Inv s) : s.Durable ↔ ∀ i < ninodes, s.DurableAt i := by
  refine forall_congr' fun i => forall_congr' fun hi => ?_
  have hcur : s.cur i = s.vol.node i := (node_of_lt hi).symm
  rw [hcur, h.closed_iff]
  rfl

theorem State.DurableAt.congr (hd : s.DurableAt i) (hn : s'.vol.node i = s.vol.node i)
    (hdisk : s'.disk.dinode i = s.disk.dinode i) (ho : ∀ f, s.OpenAt f i → s'.OpenAt f i) :
    s'.DurableAt i := by
  intro htype hclosed
  rw [hn, hdisk]
  exact hd (hn ▸ htype) fun f hf => hclosed f (ho f hf)

/-- A change of a directory and of the inode `j`. -/
theorem Edited.durableAt {es : List (Name × ℕ)} (he : Edited s s' d vd j l es x) (h : Inv s)
    (hi : i < ninodes) (hd : s.DurableAt i) (ho : ∀ f, s.OpenAt f i → s'.OpenAt f i)
    (hj : i = j → s.DurableAt j → x.type = FILE_I → (∀ f, ¬ s.OpenAt f j) →
      SameInode (s'.disk.dinode j) x) : s'.DurableAt i := by
  have hvol := he.vol_edit h
  intro htype hclosed
  have hid : i ≠ d := by
    rintro rfl
    rw [hvol, edit_type he.ne, if_neg he.ne.symm, he.type] at htype
    exact absurd htype (by decide)
  by_cases hij : i = j
  · subst hij
    have hnode : s'.vol.node i = x := by
      rw [hvol]
      exact Edit.node_self
    rw [hnode] at htype ⊢
    exact hj rfl hd htype fun f hf => hclosed f (ho f hf)
  · have hnode : s'.vol.node i = s.vol.node i := by
      rw [hvol]
      exact Edit.node_other hij hid
    exact hd.congr hnode (he.dinode i hi hij hid) ho htype hclosed

/-- A vinode that is written back is up to date. -/
theorem durableAt_evict {d' : Disk} (h : Inv s) (hc : Cached s i v l)
    (hd : DiskIs d' (Function.update s.disk.dinode i l.toDinode) s.disk) :
    (s.dropVinode i v d').DurableAt i := by
  intro _ _
  have hdisk : (s.dropVinode i v d').disk.dinode i = l.toDinode :=
    (hd.node i (h.lt hc)).trans (Function.update_self _ _ _)
  rw [h.vol_evict hc hd, h.node_eq hc, hdisk]
  exact .refl _

/-- **A transition that closes no file** keeps the disk inodes up to date. -/
theorem Trans.durableAt (ht : Trans s tag s') (h : Inv s) (htag : tag ≠ .closes) (hi : i < ninodes)
    (hd : s.DurableAt i) : s'.DurableAt i := by
  have ho : ∀ f, s.OpenAt f i → s'.OpenAt f i := fun f => ht.openAt h htag
  have hq : tag = .quiet → s'.DurableAt i := by
    rintro rfl
    have hq := ht.quiet h
    exact hd.congr (by rw [hq.vol]) (by rw [hq.disk]) ho
  cases ht with
  | scratch | load | enter | leave | openFile | seek | cacheDir => exact hq rfl
  | closeFile file hashed => exact absurd rfl htag
  | @evict j v x d' node file ref disk =>
    by_cases hij : i = j
    · subst hij
      exact durableAt_evict h node disk
    · refine hd.congr (by rw [h.vol_evict node disk]) ?_ ho
      exact (disk.node i hi).trans (Function.update_of_ne hij _ _)
  | @make d vd j k y n x d' making =>
    have he := making.edited h
    refine he.durableAt h hi hd ho fun _ _ _ _ => ?_
    have hdisk : (s.make vd y k d').disk.dinode j = x :=
      (making.disk.node j making.fresh.inum_lt).trans
        ((Function.update_of_ne he.ne _ _).trans (Function.update_self _ _ _))
    rw [hdisk]
    exact .refl _
  | @link d vd j w y l n d' linking =>
    refine (linking.edited h).durableAt h hi hd ho fun _ _ _ _ => ?_
    have hdisk : (s.link vd y w l d').disk.dinode j = { l.toDinode with nlinks := l.nlinks + 1 } :=
      (linking.disk.node j (h.lt linking.node)).trans (Function.update_self _ _ _)
    rw [hdisk]
    exact .refl _
  | @unlink d vd j w m k y l n d' unlinking =>
    have he := unlinking.edited h
    refine he.durableAt h hi hd ho fun _ hdj _ hcl => ?_
    have hdisk : (s.unlink vd y w l m d').disk.dinode j = { s.disk.dinode j with nlinks := m } :=
      (unlinking.disk.node j (h.lt unlinking.node)).trans
        ((Function.update_of_ne he.ne _ _).trans (Function.update_self _ _ _))
    have hnode := h.node_eq unlinking.node
    have hsame := hdj (by rw [hnode]; exact unlinking.file) hcl
    rw [hnode] at hsame
    rw [hdisk]
    exact ⟨hsame.size, hsame.blocks, rfl, hsame.addrs⟩
  | remove removing =>
    refine (removing.edited h).durableAt h hi hd ho fun _ _ htype _ => ?_
    exact absurd htype (by decide : R_FREE ≠ FILE_I)
  | write buf node file mem =>
    obtain ⟨hdinode, hvol⟩ := h.vol_write buf node file mem
    exact hd.congr (by rw [hvol]) (hdinode i hi) ho
  | @grow j v k x node file opened blocks lt unused =>
    by_cases hij : i = j
    · subst hij
      obtain ⟨f, hf⟩ := opened.openAt h node
      exact fun _ hclosed => absurd (ho f hf) (hclosed f)
    · exact hd.congr (h.node_update node rfl rfl rfl hij) rfl ho
  | @resize j v size x node file opened le =>
    by_cases hij : i = j
    · subst hij
      obtain ⟨f, hf⟩ := opened.openAt h node
      exact fun _ hclosed => absurd (ho f hf) (hclosed f)
    · exact hd.congr (h.node_update node rfl rfl rfl hij) rfl ho

/-! ## Closing a file -/

/-- The closing of the last descriptor of a file finds no other dentry of the file in the table, or
an up to date disk inode. -/
def CloseOk (s : State) (op : Op) : Prop :=
  ∀ f i v x, op = .close f → s.OpenAt f i → Cached s i v x → x.type = FILE_I →
    (∀ g, s.OpenAt g i → g = f) → x.ref = 1 ∨ SameInode (s.disk.dinode i) x.toDinode

section Close

variable (h : Inv s) (hf : s.files.lookup f = some fl) (he : Hashed s fl.fDentry e v)
  (hc : Cached s i v u) (hu : u.type = FILE_I)

include h hf he hc

omit h hf in
/-- What is open after the dentry of the file is forgotten was open before. -/
theorem openAt_of_drop {g : ℕ} {e' : Dentry}
    (ho : ((s.dropFile f fl e).dropDentry fl.fDentry e' v u).OpenAt g j) :
    g ≠ f ∧ s.OpenAt g j := by
  obtain ⟨fl', hl, e₁, w, z, he₁, hz⟩ := ho
  have hl' : (s.files.erase f).lookup g = some fl' := hl
  rw [lookup_erase_eq] at hl'
  split at hl'
  · cases hl'
  rename_i hgf
  have hden : Function.update (Function.update s.dentries fl.fDentry
      (some { e with dRef := e.dRef - 1 })) fl.fDentry none fl'.fDentry = some e₁ := he₁.dentry
  rw [Function.update_idem] at hden
  have hne : fl'.fDentry ≠ fl.fDentry := by
    intro ht
    rw [ht, Function.update_self] at hden
    cases hden
  rw [Function.update_of_ne hne] at hden
  have hkey : (s.dentryHashTable.erase (e'.parent, e'.name)).lookup (e₁.parent, e₁.name) =
      some fl'.fDentry := he₁.hash
  rw [lookup_erase_eq] at hkey
  split at hkey
  · cases hkey
  refine ⟨hgf, fl', hl', e₁, w, ?_⟩
  by_cases hw : w = v
  · subst hw
    exact ⟨u, ⟨hden, hkey, he₁.inode⟩, hz.hash, hc.vinode⟩
  · have hzv : Function.update s.vinodes v (some { u with ref := u.ref - 1 }) w =
      some z := hz.vinode
    rw [Function.update_of_ne hw] at hzv
    exact ⟨z, ⟨hden, hkey, he₁.inode⟩, hz.hash, hzv⟩

omit h hf in
/-- The other descriptors stay open. -/
theorem openAt_dropFile {g : ℕ} (hg : g ≠ f) (ho : s.OpenAt g j) :
    (s.dropFile f fl e).OpenAt g j := by
  obtain ⟨fl', hl, e', w, z, he', hz⟩ := ho
  refine ⟨fl', (AList.lookup_erase_ne hg).trans hl, ?_⟩
  by_cases ht : fl'.fDentry = fl.fDentry
  · rw [ht] at he' ⊢
    obtain ⟨rfl, rfl⟩ := he.unique he'
    exact ⟨_, _, z, ⟨Function.update_self _ _ _, he.hash, he.inode⟩, hz.hash, hz.vinode⟩
  · exact ⟨e', w, z, ⟨(Function.update_of_ne ht _ _).trans he'.dentry, he'.hash,
      he'.inode⟩, hz.hash,
      hz.vinode⟩

/-- Another descriptor through the same dentry. -/
theorem openAt_of_dRef (hd : e.dRef ≠ 1) : ∃ g, g ≠ f ∧ s.OpenAt g i := by
  have hcount := h.tables.dRef _ e v he
  have herase := tally_erase (p := fun g => g.fDentry = fl.fDentry) hf
  rw [if_pos rfl] at herase
  have hpos : 0 < tally (s.files.erase f) fun g => g.fDentry = fl.fDentry := by omega
  obtain ⟨g, fl', hl, ht⟩ := tally_pos_iff.1 hpos
  rw [lookup_erase_eq] at hl
  split at hl
  · cases hl
  · rename_i hg
    exact ⟨g, hg, fl', hl, e, v, u, ht ▸ he, hc⟩

/-- The closing keeps an inode up to date that another descriptor is open on, or that is not the one
of the file. -/
theorem durableAt_dropFile (hd : s.DurableAt j) (hj : j ≠ i ∨ ∃ g, g ≠ f ∧ s.OpenAt g i) :
    (s.dropFile f fl e).DurableAt j := by
  intro htype hclosed
  refine hd htype fun g hg => ?_
  by_cases hgf : g = f
  · subst hgf
    obtain ⟨fl', hl, hdj⟩ := hg
    obtain rfl := Option.some.inj (hl.symm.trans hf)
    have hji := h.inode_unique hdj ⟨e, v, u, he, hc⟩
    obtain ⟨g', hg', ho⟩ := hj.resolve_left (not_not.2 hji)
    exact hclosed g' (openAt_dropFile he hc hg' (hji ▸ ho))
  · exact hclosed g (openAt_dropFile he hc hgf hg)

include hu

/-- **`vfs_close` keeps the disk inodes up to date** under its condition. -/
theorem ClosePost.durableAt (hp : ClosePost s fl e i v u f s') (hj : j < ninodes)
    (hd : s.DurableAt j)
    (hok : (∀ g, s.OpenAt g i → g = f) → u.ref = 1 ∨ SameInode (s.disk.dinode i) u.toDinode) :
    s'.DurableAt j := by
  have hclose : Trans s .closes (s.dropFile f fl e) := .closeFile hf he
  have h₁ : Inv (s.dropFile f fl e) := hclose.inv h
  have he₁ : Hashed (s.dropFile f fl e) fl.fDentry { e with dRef := e.dRef - 1 } v :=
    ⟨Function.update_self _ _ _, he.hash, he.inode⟩
  have hc₁ : Cached (s.dropFile f fl e) i v u := ⟨hc.hash, hc.vinode⟩
  have hleave : e.dRef = 1 → Trans (s.dropFile f fl e) .quiet
      ((s.dropFile f fl e).dropDentry fl.fDentry { e with dRef := e.dRef - 1 } v u) := fun hd =>
    .leave he₁ hc₁ hu (by simp [hd])
  cases hp with
  | shared dRef => exact durableAt_dropFile h hf he hc hd (.inr (openAt_of_dRef h hf he hc dRef))
  | named dRef ref =>
    refine (hleave dRef).durableAt h₁ nofun hj ?_
    by_cases hlast : ∀ g, s.OpenAt g i → g = f
    · have hsame := (hok hlast).resolve_left ref
      by_cases hji : j = i
      · subst hji
        intro _ _
        have hnode : (s.dropFile f fl e).vol.node j = u.toDinode := h₁.node_eq hc₁
        rw [hnode]
        exact hsame
      · exact durableAt_dropFile h hf he hc hd (.inl hji)
    · obtain ⟨g, hg⟩ := not_forall.1 hlast
      obtain ⟨ho, hgf⟩ := Classical.not_imp.1 hg
      exact durableAt_dropFile h hf he hc hd (.inr ⟨g, hgf, ho⟩)
  | last dRef ref disk =>
    have ht₂ := hleave dRef
    have h₂ := ht₂.inv h₁
    have hc₂ : Cached ((s.dropFile f fl e).dropDentry fl.fDentry
      { e with dRef := e.dRef - 1 } v u) i v
        { u with ref := u.ref - 1 } := ⟨hc.hash, Function.update_self _ _ _⟩
    have ht₃ := Trans.evict hc₂ hu (by simp [ref]) disk
    have h₃ := ht₃.inv h₂
    refine (Trans.scratch _ (Nat.le_refl _)).durableAt h₃ nofun hj ?_
    by_cases hji : j = i
    · subst hji
      exact durableAt_evict h₂ hc₂ disk
    · refine ht₃.durableAt h₂ nofun hj (ht₂.durableAt h₁ nofun hj ?_)
      exact durableAt_dropFile h hf he hc hd (.inl hji)

end Close

/-- What a `vfs_close` that returns has done. -/
theorem Step.close (hs : Step s (.close f) r s') (h : Inv s) :
    (s' = s ∧ ∀ i v x, s.OpenAt f i → Cached s i v x → x.type ≠ FILE_I) ∨
      ∃ fl e i v x, s.files.lookup f = some fl ∧ Hashed s fl.fDentry e v ∧ Cached s i v x ∧
        x.type = FILE_I ∧ ClosePost s fl e i v x f s' := by
  have hsat := vfsClose_sat (f := f) h
  have hexec := hs.exec
  rw [Fs.exec] at hexec
  obtain ⟨⟨n, s₁⟩, hclose, hret⟩ := (bind_ok_iff _ _ _).1 hexec
  obtain ⟨-, rfl⟩ := Prod.mk.inj (Except.ok.inj hret)
  rw [hclose] at hsat
  rcases hsat with ⟨fl, e, v, x, -, hs, hf, he, hx, htype⟩ | ⟨fl, e, i, v, x, -, hf, he, hc, hx, hp⟩
  · refine .inl ⟨hs, ?_⟩
    rintro i w z ⟨fl', hf', e', v', x', he', hc'⟩ hz
    obtain rfl := Option.some.inj (hf'.symm.trans hf)
    obtain ⟨-, rfl⟩ := he.unique he'
    obtain rfl := Option.some.inj (hc'.vinode.symm.trans hx)
    obtain ⟨-, rfl⟩ := hz.unique hc'
    exact htype
  · exact .inr ⟨fl, e, i, v, x, hf, he, hc, hx, hp⟩

/-- **An operation keeps a state durable**; a close exactly when it meets its condition. -/
theorem Step.durable (hs : Step s op r s') (h : Inv s) (hd : s.Durable) (hok : CloseOk s op) :
    s'.Durable := by
  have h' : Inv s' := (hs.steps h).inv h
  rw [h'.durable_iff]
  rw [h.durable_iff] at hd
  intro j hj
  by_cases hclose : ∃ f, op = .close f
  · obtain ⟨f, rfl⟩ := hclose
    rcases hs.close h with ⟨rfl, -⟩ | ⟨fl, e, i, v, x, hf, he, hc, hx, hp⟩
    · exact hd j hj
    · exact hp.durableAt h hf he hc hx hj (hd j hj)
        (hok f i v x rfl ⟨fl, hf, e, v, x, he, hc⟩ hc hx)
  · have hboth : Inv s' ∧ s'.DurableAt j := by
      refine (hs.steps h).keeps (I := fun s' => Inv s' ∧ s'.DurableAt j) ⟨h, hd j hj⟩ ?_
      rintro s₁ s₂ tag htag ht ⟨h₁, hd₁⟩
      refine ⟨ht.inv h₁, ht.durableAt h₁ ?_ hj hd₁⟩
      rintro rfl
      exact hclose htag
    exact hboth.2

/-- A close that does not meet its condition leaves a disk inode behind. -/
theorem Step.not_durable (hs : Step s (.close f) r s') (h : Inv s) (hno : ¬ CloseOk s (.close f)) :
    ¬ s'.Durable := by
  have h' : Inv s' := (hs.steps h).inv h
  simp only [CloseOk, not_forall, not_or, exists_prop] at hno
  obtain ⟨f', i, v, x, hop, ho, hc, hx, hlast, href, hstale⟩ := hno
  obtain rfl := Op.close.inj hop
  have hsteps := hs.close h
  rw [h'.durable_iff]
  intro hd
  rcases hsteps with ⟨-, hty⟩ | ⟨fl, e, i', v', x', hf, he, hc', -, hp⟩
  · exact hty i v x ho hc hx
  obtain ⟨fl', hf', hdi⟩ := ho
  obtain rfl := Option.some.inj (hf'.symm.trans hf)
  obtain rfl := h.inode_unique hdi ⟨e, v', x', he, hc'⟩
  obtain ⟨rfl, rfl⟩ := hc.unique hc'
  cases hp with
  | shared dRef =>
    obtain ⟨g, hg, hog⟩ := openAt_of_dRef h hf he hc dRef
    exact hg (hlast g hog)
  | last dRef ref disk => exact href ref
  | named dRef ref =>
    have hc'' : Cached ((s.dropFile f fl' e).dropDentry fl'.fDentry
      { e with dRef := e.dRef - 1 } v' x')
        i v' { x' with ref := x'.ref - 1 } := ⟨hc.hash, Function.update_self _ _ _⟩
    have hnode := h'.node_eq hc''
    refine hstale ?_
    have hsame := hd i (h.lt hc) (by rw [hnode]; exact hx) fun g hg => ?_
    · rw [hnode] at hsame
      exact hsame
    · obtain ⟨hgf, hog⟩ := openAt_of_drop he hc hg
      exact hgf (hlast g hog)

/-! ## Runs -/

theorem Run.durable (h : Run CloseOk s) : s.Durable := by
  induction h with
  | init boot start =>
    intro i hi htype
    rw [← node_of_lt hi] at htype
    exact absurd htype (fsInit_no_file start)
  | step run cond step ih => exact step.durable run.inv ih cond

/-- After a reopen, `vfs_stat` and `vfs_disk_stat` agree on an inode that is up to date. -/
theorem stat_of_open {path : Path} {flags : ℕ} (h : Inv s)
    (hs : Step s (.open path flags) (.file (some f)) s') (hi : s.disk.resolve path.1 = some i)
    (hsame : s.vol.InUse i → SameInode (s.disk.dinode i) (s.cur i)) :
    ∃ st s'', vfsStat s' f = .ok st ∧ vfsDiskStat s' f = .ok (st, s'') := by
  have hsat : Sat (vfsOpen s path.1 flags) (VfsOpenPost s path.1) NoAssert :=
    vfsOpen_sat h (hs.parents path (List.mem_singleton_self _))
  have hexec := hs.exec
  rw [Fs.exec] at hexec
  obtain ⟨⟨f', s₁⟩, hopen, hret⟩ := (bind_ok_iff _ _ _).1 hexec
  obtain ⟨hfile, rfl⟩ := Prod.mk.inj (Except.ok.inj hret)
  obtain rfl := Ret.file.inj hfile
  rw [hopen] at hsat
  rcases hsat with ho | ⟨hnone, -⟩ | ⟨f', fl, j, hf', hl, ⟨e, v, x, he, hc⟩, hor⟩
  · exact absurd hs.limits (not_limits_of_over ho)
  · cases hnone
  obtain rfl := Option.some.inj hf'
  rcases hor with ⟨hj, hsteps⟩ | ⟨hnone, -⟩
  · obtain rfl := Option.some.inj (hi.symm.trans hj)
    dsimp only at hl he hc hsteps
    have h' := hsteps.inv h
    have hq := hsteps.quiet h
    obtain ⟨hinum, hsb⟩ := h'.tables.inum_eq hc
    have hx : x.toDinode = s.cur i := by
      rw [← h'.node_eq hc, hq.vol]
      exact node_of_lt (h'.lt hc)
    replace hsame := hsame (hq.vol ▸ h'.paths.inUse i v x hc)
    rw [← hx, ← hq.disk] at hsame
    have htype := (h'.sync i v x hc).type
    have hlt : x.inum < ninodes := hinum ▸ h'.lt hc
    have hfile : s₁.file f = .ok fl := State.file_eq_ok.2 hl
    have hv : s₁.vinode v = .ok x := State.vinode_eq_ok.2 hc.vinode
    have hviop : viopSb s₁ v = .ok () := by
      rw [viopSb, hv, ok_bind, hsb]
      rfl
    refine ⟨{ stInum := x.inum, stSize := x.size, stType := x.type, stNlinks := x.nlinks,
              stBlocks := x.blocks }, { s₁ with iobuffer := s₁.disk (dinodeBlock x.inum) }, ?_, ?_⟩
    · rw [vfsStat, hfile, ok_bind, he.dentryInode, ok_bind, hv, ok_bind]
      rfl
    · rw [vfsDiskStat, hfile, ok_bind, he.dentryInode, ok_bind, viopDiskStat, hviop, ok_bind,
        rfsDiskStat, hv, ok_bind, rfsReadDinode_eq hlt, ok_bind, hinum]
      dsimp only
      rw [hsame.size, htype, hsame.nlinks, hsame.blocks]
      rfl
  · rw [hi] at hnone
    cases hnone

/-- The removal of the last name frees the blocks of an inode that is up to date. -/
theorem freed_of_unlink {path : Path} (h : Inv s) (hs : Step s (.unlink path) (.int 0) s')
    (hi : s.disk.resolve path.1 = some i) (hone : (s.disk.dinode i).nlinks = 1)
    (hsame : s.vol.InUse i → SameInode (s.disk.dinode i) (s.cur i)) {b : ℕ}
    (hb : b ∈ (s.cur i).blks) :
    s'.freemap (b - RFS_BLK_OFFSET_FREE) = 0 := by
  have hsat := vfsUnlink_sat h (hs.parents path (List.mem_singleton_self _))
  have hexec := hs.exec
  rw [Fs.exec] at hexec
  obtain ⟨⟨n, s₁⟩, hun, hret⟩ := (bind_ok_iff _ _ _).1 hexec
  obtain ⟨hn, rfl⟩ := Prod.mk.inj (Except.ok.inj hret)
  obtain rfl := Ret.int.inj hn
  rw [hun] at hsat
  rcases hsat with ⟨hneg, -⟩ | ⟨j, -, hj, hp⟩
  · exact absurd hneg (by decide : (0 : ℤ) ≠ -1)
  obtain rfl := Option.some.inj (hi.symm.trans hj)
  dsimp only at hp
  cases hp with
  | @name s₀ d vd w m k y l n d' steps unlinking =>
    have hb := (steps.inv h).sync _ _ _ unlinking.node
    have h₁ := unlinking.nlinks
    have h₂ := unlinking.pos
    rw [(steps.quiet h).disk] at hb
    have h₃ := hb.nlinks
    omega
  | @last s₀ d vd w k y l n d' steps removing =>
    have hdata := (steps.inv h).isData_of_mem removing.node (b := b)
    have huse := (steps.inv h).paths.inUse _ _ _ removing.node
    rw [(steps.quiet h).vol] at huse
    have hbd : b ∈ (s₀.disk.dinode i).blks := by
      rw [(steps.quiet h).disk, (hsame huse).blks]
      exact hb
    have hb' := hdata (((steps.inv h).sync _ _ _ removing.node).mem_blks hbd)
    refine if_pos ?_
    rwa [Nat.add_sub_cancel' hb'.1]

/-- The disk inode of an inode in use that is not open is up to date, also of a directory. -/
theorem State.Durable.sameInode (hd : s.Durable) (h : Inv s) (hu : s.vol.InUse i)
    (hc : s.Closed i) : SameInode (s.disk.dinode i) (s.cur i) := by
  have hlt := h.good.lt i hu
  have hcur : s.vol.node i = s.cur i := node_of_lt hlt
  rcases h.good.kind i hu with hf | hf
  · exact hd i hlt (hcur ▸ hf.type) hc
  · cases hk : s.vinodeHashTable.lookup (.rfs, i) with
    | none =>
      rw [cur_of_none hk]
      exact .refl _
    | some v =>
      obtain ⟨x, hx⟩ := h.tables.cached hk
      rw [hx.cur]
      have htype := hf.type
      rw [h.node_eq hx] at htype
      rw [(h.sync i v x hx).dir htype]
      exact .refl _

/-- **When a close makes the inode durable.** In every run whose closes meet their condition, the
disk inode of every file that is not open holds the latest size, link count and blocks; the file has
the same status in memory and on the disk when it is opened again, and the removal of its last name
frees all its blocks. A close that does not meet the condition leaves a state that is not
durable. -/
theorem durable_of_run (h : Run CloseOk s) :
    s.Durable ∧
    (∀ path flags f s' i, Step s (.open path flags) (.file (some f)) s' →
      s.disk.resolve path.1 = some i → s.Closed i →
      ∃ st s'', vfsStat s' f = .ok st ∧ vfsDiskStat s' f = .ok (st, s'')) ∧
    (∀ path s' i, Step s (.unlink path) (.int 0) s' → s.disk.resolve path.1 = some i →
      s.Closed i → (s.disk.dinode i).nlinks = 1 →
      ∀ b ∈ (s.cur i).blks, s'.freemap (b - RFS_BLK_OFFSET_FREE) = 0) ∧
    ∀ f r s', Step s (.close f) r s' → (s'.Durable ↔ CloseOk s (.close f)) := by
  have hinv := h.inv
  have hd := h.durable
  refine ⟨hd, fun path flags f s' i hs hi hclosed => ?_,
    fun path s' i hs hi hclosed hone b hb => ?_,
    fun f r s' hs => ⟨fun hd' => ?_, fun hok => hs.durable hinv hd hok⟩⟩
  · exact stat_of_open hinv hs hi fun hu => hd.sameInode hinv hu hclosed
  · exact freed_of_unlink hinv hs hi hone (fun hu => hd.sameInode hinv hu hclosed) hb
  · by_contra hno
    exact hs.not_durable hinv hno hd'

/-- A close of a descriptor whose file has one dentry meets the condition. -/
theorem closeOk_of_ref
    (href : (s.files.lookup f).bind (fun fl => (s.inodeOf fl.fDentry).bind fun v =>
      (s.vinodes v).map Vinode.ref) = some 1) : CloseOk s (.close f) := by
  rintro g i v x hop ⟨fl, hf, e, w, z, he, hc⟩ hx - -
  obtain rfl := Op.close.inj hop
  obtain ⟨rfl, rfl⟩ := hc.unique hx
  rw [hf, Option.bind_some, he.inodeOf, Option.bind_some, hx.vinode, Option.map_some] at href
  exact .inl (Option.some.inj href)

/-- An operation other than a close meets the condition. -/
theorem closeOk_of_ne (hop : ∀ f, op ≠ .close f) : CloseOk s op :=
  fun f _ _ _ hclose => absurd hclose (hop f)

/-- A file that is created, written and closed. -/
theorem durable_of_run_closed : ∃ s, Run CloseOk s ∧ s.Durable ∧ (s.disk.dinode 1).size = 5000 := by
  have hrun : (runFrom blank [.open pathA (O_CREAT + O_RDWR), .write 7 (fun _ => 65) 5000]).map
      (fun s => ((s.files.lookup 7).bind (fun fl => (s.inodeOf fl.fDentry).bind fun v =>
          (s.vinodes v).map Vinode.ref),
        (runOps s [.close 7]).map fun s => (s.disk.dinode 1).size)) = some (some 1, some 5000) := by
    decide +kernel
  obtain ⟨s₀, hs₀, hval⟩ := Option.map_eq_some_iff.1 hrun
  obtain ⟨href, hnext⟩ := Prod.mk.inj hval
  obtain ⟨s₁, hs₁, hsize⟩ := Option.map_eq_some_iff.1 hnext
  obtain ⟨r, s, hstep, hlast⟩ := step_of_runOps hs₁
  obtain rfl := Option.some.inj hlast
  have hr₀ : Run CloseOk s₀ := Run.ofRunFrom (fun s op hop => closeOk_of_ne fun f hf => by
    subst hf
    simp at hop) hs₀
  have hr := hr₀.step (closeOk_of_ref href) hstep
  exact ⟨s, hr, (durable_of_run hr).1, hsize⟩

/-- **A close may leave the disk inode stale**: a file is created and gets a second name, and is
closed after it was written. -/
theorem stale_after_close : ∃ s, Reachable s ∧ ¬ s.Durable := by
  have hrun : (runFrom blank [.open pathA (O_CREAT + O_RDWR), .link pathA pathB,
      .write 7 (fun _ => 65) 5000, .close 7]).map (fun s => (s.files.entries.length,
        (s.cur 1).type, (s.cur 1).size, (s.disk.dinode 1).size)) = some (0, FILE_I, 5000, 0) := by
    decide +kernel
  obtain ⟨s, hs, hval⟩ := Option.map_eq_some_iff.1 hrun
  simp only [Prod.mk.injEq] at hval
  obtain ⟨hfiles, htype, hsize, hdisk⟩ := hval
  have hr := reachable_of_runFrom hs
  have hclosed : s.Closed 1 := hr.inv.closed_iff.2 fun f ⟨fl, hf, _⟩ => by
    have hmem := mem_entries_iff (s := s.files) (e := ⟨f, fl⟩) |>.2 hf
    rw [List.length_eq_zero_iff.1 hfiles] at hmem
    cases hmem
  refine ⟨s, hr, fun hd => ?_⟩
  have hsame := (hd 1 (by decide) htype hclosed).size
  rw [hsize, hdisk] at hsame
  exact absurd hsame (by decide)

end HustOS.Fs
