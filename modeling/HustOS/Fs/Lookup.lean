import HustOS.Fs.Steps

/-!
# Path lookup

A walk of the directories on the disk resolves a path from an inode, one component at a time
(`walk`). `lookup_final_dentry` answers from the dentry table and adds what it had to read from the
disk to the tables (`Extends`); for a path whose inner components are directories it ends with a
dentry for the inode the walk leads to, or with the component the walk fails at
(`lookupFinalDentry_spec`).
-/

namespace HustOS.Fs

open Foundations

variable {s s' s'' : State} {t p d v w u i j b k : ℕ} {e : Dentry} {x : Vinode} {n : Name}
  {path : List UInt8} {ns : List Name}

/-! ## Walks -/

/-- Resolve the components `ns` from an inode, in the directories `dir`. -/
def walk (dir : ℕ → List (Name × ℕ)) : List Name → ℕ → Option ℕ
  | [], i => some i
  | n :: ns, i => (dirFind (dir i) n).bind (walk dir ns)

/-- The components of a path before the last one are directories, as far as the walk gets. -/
def DirParents (isDir : ℕ → Prop) (dir : ℕ → List (Name × ℕ)) : List Name → ℕ → Prop
  | [], _ => True
  | n :: ns, i => isDir i ∧ ∀ j, dirFind (dir i) n = some j → DirParents isDir dir ns j

namespace Disk

/-- The inode is one of a directory. -/
def IsDirectory (d : Disk) (i : ℕ) : Prop := (d.dinode i).type = DIR_I

instance (d : Disk) (i : ℕ) : Decidable (d.IsDirectory i) :=
  inferInstanceAs (Decidable (_ = _))

/-- The entries of a directory on the disk. -/
def entries (d : Disk) (i : ℕ) : List (Name × ℕ) :=
  if d.IsDirectory i then dirList d (d.dinode i) else []

/-- The inode a path leads to, from the mount point on, by the directories on the disk. -/
def resolve (d : Disk) (path : List UInt8) : Option ℕ :=
  match pathTokens path with
  | [] => none
  | token :: tokens => if token = ramdisk0 then walk d.entries tokens 0 else none

/-- The path is one below the mount point whose inner components are directories. -/
def ParentsOk (d : Disk) (path : List UInt8) : Prop :=
  ∀ tokens, pathTokens path = ramdisk0 :: tokens → DirParents d.IsDirectory d.entries tokens 0

end Disk

theorem mem_of_dirFind {l : List (Name × ℕ)} (h : dirFind l n = some i) : (n, i) ∈ l := by
  obtain ⟨j, -, hj, -⟩ := dirIndex_spec h
  exact List.mem_of_getElem? hj

theorem dirFind_of_mem {l : List (Name × ℕ)} (hl : (l.map Prod.fst).Nodup) (h : (n, i) ∈ l) :
    dirFind l n = some i := by
  cases hf : dirFind l n with
  | none =>
    rw [dirFind, Option.map_eq_none_iff, List.find?_eq_none] at hf
    exact absurd (decide_eq_true rfl) (hf _ h)
  | some j =>
    have := List.inj_on_of_nodup_map hl (mem_of_dirFind hf) h rfl
    exact congrArg some (congrArg Prod.snd this)

theorem dirFind_eq_none_iff {l : List (Name × ℕ)} :
    dirFind l n = none ↔ n ∉ l.map Prod.fst := by
  rw [dirFind, Option.map_eq_none_iff, List.find?_eq_none, List.mem_map]
  constructor
  · rintro h ⟨e, he, rfl⟩
    exact absurd (decide_eq_true rfl) (h e he)
  · intro h e he
    simp only [decide_eq_true_eq]
    exact fun heq => h ⟨e, he, heq⟩

/-- The directories on the disk are those of the volume. -/
theorem Inv.disk_dir (h : Inv s) (hi : i < ninodes) :
    (s.disk.dinode i).type = (s.vol.node i).type ∧ s.disk.entries i = s.vol.dir i := by
  have hnode : s.vol.node i = s.cur i := node_of_lt hi
  have hboth : (s.disk.dinode i).type = (s.vol.node i).type ∧
      ((s.vol.node i).type = DIR_I → s.disk.dinode i = s.vol.node i) := by
    cases hk : s.vinodeHashTable.lookup (.rfs, i) with
    | none =>
      rw [hnode, cur_of_none hk]
      exact ⟨rfl, fun _ => rfl⟩
    | some v =>
      obtain ⟨x, hc⟩ := h.tables.cached hk
      have hb := h.sync i v x hc
      rw [h.node_eq hc]
      exact ⟨hb.type, hb.dir⟩
  refine ⟨hboth.1, ?_⟩
  change (if (s.disk.dinode i).type = DIR_I then dirList s.disk (s.disk.dinode i) else []) =
    if (s.vol.node i).type = DIR_I then dirList s.disk (s.vol.node i) else []
  rw [hboth.1]
  split
  · rename_i hd
    rw [hboth.2 hd]
  · rfl

/-- An entry leads to an inode of the inode area. -/
theorem Inv.lt_of_dirFind (h : Inv s) (hf : dirFind (s.vol.dir i) n = some j) : j < ninodes :=
  h.good.lt j (h.good.entries i _ (mem_of_dirFind hf)).2.1

/-- The walk on the disk is the walk in the volume. -/
theorem Inv.walk_eq (h : Inv s) (hi : i < ninodes) :
    walk s.disk.entries ns i = walk s.vol.dir ns i := by
  induction ns generalizing i with
  | nil => rfl
  | cons n ns ih =>
    rw [walk, walk, (h.disk_dir hi).2]
    cases hf : dirFind (s.vol.dir i) n with
    | none => rfl
    | some j => exact ih (h.lt_of_dirFind hf)

theorem Inv.dirParents_iff (h : Inv s) (hi : i < ninodes) :
    DirParents s.disk.IsDirectory s.disk.entries ns i ↔
      DirParents (fun i => (s.vol.node i).type = DIR_I) s.vol.dir ns i := by
  induction ns generalizing i with
  | nil => exact Iff.rfl
  | cons n ns ih =>
    obtain ⟨ht, he⟩ := h.disk_dir hi
    have htype : s.disk.IsDirectory i ↔ (s.vol.node i).type = DIR_I := by
      rw [Disk.IsDirectory, ht]
    rw [DirParents, DirParents, he, htype]
    refine and_congr_right fun _ => forall_congr' fun j => ?_
    exact imp_congr_right fun hf => ih (h.lt_of_dirFind hf)

/-! ## Components -/

theorem strtok_some {current : List UInt8} {token : Name} {rest : Option (List UInt8)}
    (h : strtok [47] (some current) = some (token, rest)) :
    (∀ b ∈ token, b ∈ current) ∧
      match rest with
      | none => token.length ≤ current.length
      | some r => token.length + 1 + r.length ≤ current.length ∧ ∀ b ∈ r, b ∈ current := by
  have hdrop : (current.dropWhile (List.contains [47] ·)).length ≤ current.length :=
    (List.dropWhile_sublist _).length_le
  have hmem : ∀ b ∈ current.dropWhile (List.contains [47] ·), b ∈ current :=
    fun b hb => (List.dropWhile_sublist _).subset hb
  rw [strtok] at h
  generalize current.dropWhile (List.contains [47] ·) = start at *
  cases start with
  | nil => cases h
  | cons c cs =>
    simp only at h
    set q : UInt8 → Bool := fun b => !List.contains [47] b with hq
    have happ := List.takeWhile_append_dropWhile (p := q) (l := c :: cs)
    have hlen := congrArg List.length happ
    rw [List.length_append] at hlen
    have htake : ∀ b ∈ (c :: cs).takeWhile q, b ∈ current := fun b hb =>
      hmem b ((List.takeWhile_sublist _).subset hb)
    have hrest : ∀ b ∈ (c :: cs).dropWhile q, b ∈ current := fun b hb =>
      hmem b ((List.dropWhile_sublist _).subset hb)
    generalize (c :: cs).dropWhile q = r at *
    cases r with
    | nil =>
      simp only [Option.some.injEq, Prod.mk.injEq] at h
      obtain ⟨rfl, rfl⟩ := h
      refine ⟨htake, ?_⟩
      simp only [List.length_nil] at hlen
      change ((c :: cs).takeWhile q).length ≤ _
      omega
    | cons c' r =>
      simp only [Option.some.injEq, Prod.mk.injEq] at h
      obtain ⟨rfl, rfl⟩ := h
      refine ⟨htake, ?_, fun b hb => hrest b (List.mem_cons_of_mem _ hb)⟩
      simp only [List.length_cons] at hlen hdrop
      omega

/-- The components together with their separators fit the string. -/
theorem tokensFrom_length {m : ℕ} {c : List UInt8} :
    ((tokensFrom m (some c)).map List.length).sum + (tokensFrom m (some c)).length ≤
      c.length + 1 ∧ ∀ token ∈ tokensFrom m (some c), ∀ b ∈ token, b ∈ c := by
  induction m generalizing c with
  | zero => simp [tokensFrom]
  | succ m ih =>
    rw [tokensFrom]
    cases h : strtok [47] (some c) with
    | none => simp
    | some r =>
      obtain ⟨token, rest⟩ := r
      obtain ⟨hmem, hrest⟩ := strtok_some h
      cases rest with
      | none =>
        have hnil : tokensFrom m none = [] := by cases m <;> rfl
        simp only [hnil, List.map_cons, List.map_nil, List.sum_cons, List.sum_nil, List.length_cons,
          List.length_nil, List.mem_singleton, forall_eq]
        exact ⟨by simpa using hrest, hmem⟩
      | some r =>
        obtain ⟨h₁, h₂⟩ := ih (c := r)
        obtain ⟨hlen, hr⟩ := hrest
        simp only [List.map_cons, List.sum_cons, List.length_cons]
        refine ⟨by omega, fun n hn b hb => ?_⟩
        rcases List.mem_cons.1 hn with rfl | hn
        · exact hmem b hb
        · exact hr b (h₂ n hn b hb)

/-- The components below the mount point fit a directory entry. -/
theorem valid_of_mem_pathTokens {path : Path} (hlen : path.1.length < MAX_PATH_LEN)
    (h : pathTokens path.1 = ramdisk0 :: ns) (hn : n ∈ ns) : n.Valid := by
  obtain ⟨hsum, hmem⟩ := tokensFrom_length (m := path.1.length + 1) (c := path.1)
  change ((pathTokens path.1).map List.length).sum + (pathTokens path.1).length ≤ _ at hsum
  change ∀ token ∈ pathTokens path.1, _ at hmem
  rw [h] at hsum hmem
  have hle : n.length ≤ (ns.map List.length).sum :=
    List.single_le_sum (fun _ _ => Nat.zero_le _) _ (List.mem_map.2 ⟨n, hn, rfl⟩)
  have hpos : 0 < ns.length := List.length_pos_of_mem hn
  have hram : ramdisk0.length = 8 := rfl
  simp only [List.map_cons, List.sum_cons, List.length_cons] at hsum
  refine ⟨?_, fun h0 => path.2 (hmem n (List.mem_cons_of_mem _ hn) 0 h0)⟩
  simp only [MAX_PATH_LEN, RFS_MAX_FILE_NAME_LEN] at *
  omega

/-! ## Tables that grow -/

/-- The tables of `s'` have all that those of `s` have, and nothing else has changed. -/
structure Extends (s s' : State) : Prop where
  steps : Steps IsQuiet s s'
  hashed : ∀ t e v, Hashed s t e v → Hashed s' t e v
  cached : ∀ i v x, Cached s i v x → ∃ x', Cached s' i v x' ∧ x'.toDinode = x.toDinode
  files : s'.files = s.files
  pages : s.pages ≤ s'.pages

namespace Extends

theorem refl (s : State) : Extends s s :=
  ⟨.refl, fun _ _ _ h => h, fun _ _ x h => ⟨x, h, rfl⟩, rfl, Nat.le_refl _⟩

theorem trans (h : Extends s s') (h' : Extends s' s'') : Extends s s'' where
  steps := h.steps.trans h'.steps
  hashed t e v he := h'.hashed t e v (h.hashed t e v he)
  cached i v x hc := by
    obtain ⟨x', hx', heq⟩ := h.cached i v x hc
    obtain ⟨x'', hx'', heq'⟩ := h'.cached i v x' hx'
    exact ⟨x'', hx'', heq'.trans heq⟩
  files := h'.files.trans h.files
  pages := h.pages.trans h'.pages

theorem dentryOf (h : Extends s s') (hp : DentryOf s p d) : DentryOf s' p d := by
  obtain ⟨e, v, x, he, hc⟩ := hp
  obtain ⟨x', hx', -⟩ := h.cached d v x hc
  exact ⟨e, v, x', h.hashed p e v he, hx'⟩

theorem scratch (s : State) (buf : Buf) (hk : s.pages ≤ k) :
    Extends s { s with iobuffer := buf, pages := k } :=
  ⟨.single (.scratch buf hk) rfl, fun _ _ _ ⟨h₁, h₂, h₃⟩ => ⟨h₁, h₂, h₃⟩,
    fun _ _ x ⟨h₁, h₂⟩ => ⟨x, ⟨h₁, h₂⟩, rfl⟩, rfl, hk⟩

theorem load (hi : s.vol.InUse i) (hk : s.vinodeHashTable.lookup (.rfs, i) = none)
    (hv : s.vinodes v = none) (hp : v < s.pages) :
    Extends s (s.addVinode i v) := by
  refine ⟨.single (.load hi hk hv hp) rfl, fun _ _ _ ⟨h₁, h₂, h₃⟩ => ⟨h₁, h₂, h₃⟩,
    fun j u x hc => ⟨x, ⟨?_, ?_⟩, rfl⟩, rfl, Nat.le_refl _⟩
  · refine (lookup_insert_eq _ _ _ _).trans ?_
    rw [if_neg, hc.hash]
    intro heq
    have := hc.hash
    rw [heq, hk] at this
    cases this
  · refine (Function.update_of_ne ?_ _ _).trans hc.vinode
    rintro rfl
    have := hc.vinode
    rw [hv] at this
    cases this

theorem enter (hp : DentryOf s p d) (hc : Cached s i v x) (hm : (n, i) ∈ s.vol.dir d)
    (hk : s.dentryHashTable.lookup (some p, n) = none) (ht : s.dentries t = none)
    (hlt : t < s.pages) :
    Extends s (s.addDentry p n t v x) := by
  set s' : State := s.addDentry p n t v x with hs'
  have hhash : s'.vinodeHashTable = s.vinodeHashTable := rfl
  have hvs : s'.vinodes = Function.update s.vinodes v (some { x with ref := x.ref + 1 }) := rfl
  refine ⟨.single (.enter hp hc hm hk ht hlt) rfl, fun t' e' u he => ⟨?_, ?_, he.inode⟩,
    fun j u z hz => ?_, rfl, Nat.le_refl _⟩
  · refine (Function.update_of_ne ?_ _ _).trans he.dentry
    rintro rfl
    have := he.dentry
    rw [ht] at this
    cases this
  · refine (lookup_insert_eq _ _ _ _).trans ?_
    rw [if_neg, he.hash]
    intro heq
    have := he.hash
    rw [heq, hk] at this
    cases this
  · obtain ⟨z', hz', heq, -⟩ := cached_to_ref hhash hvs hc hz
    exact ⟨z', hz', heq⟩

end Extends

/-! ## A component that is not in the table -/

theorem addRef_eq {m : ℤ} (hv : s.vinodes v = some x) :
    addRef s v m = .ok (s.setVinode v { x with ref := x.ref + m }) := by
  rw [addRef, State.vinode_eq_ok.2 hv]
  rfl

theorem hashPutDentry_eq (he : s.dentries t = some e)
    (hk : s.dentryHashTable.lookup (e.parent, e.name) = none) :
    hashPutDentry s t =
      .ok { s with dentryHashTable := s.dentryHashTable.insert (e.parent, e.name) t } := by
  rw [hashPutDentry, State.dentry_eq_ok.2 he, ok_bind, hk]
  rfl

theorem hashPutVinode_eq (hv : s.vinodes v = some x) (hx : x.inum < ninodes)
    (hk : s.vinodeHashTable.lookup (x.sb, x.inum) = none) :
    hashPutVinode s v =
      .ok { s with vinodeHashTable := s.vinodeHashTable.insert (x.sb, x.inum) v } := by
  have hlt : ¬ 2 ^ 31 ≤ x.inum := Nat.not_le.2 (hx.trans (by decide))
  rw [hashPutVinode, State.vinode_eq_ok.2 hv, ok_bind, if_neg hlt, hk]
  rfl

/-- The state with a page for a new dentry. -/
def dentryState (s : State) (p : ℕ) (n : Name) : State :=
  { s with
    pages := s.pages + 1
    dentries := Function.update s.dentries s.pages
      (some { name := n, dRef := 0, dentryInode := none, parent := some p }) }

theorem allocVfsDentry_eq : allocVfsDentry s n none (some p) = .ok (s.pages, dentryState s p n) :=
  rfl

theorem Inv.dentryState_inode (h : Inv s) (he : Hashed s p e v) :
    (dentryState s p n).dentryInode p = .ok v := by
  have hlt := h.tables.page_lt_dentry he.dentry
  have hden : (dentryState s p n).dentry p = .ok e :=
    State.dentry_eq_ok.2 ((Function.update_of_ne hlt.ne _ _).trans he.dentry)
  rw [State.dentryInode, hden, ok_bind, he.inode]

/-- The state of a lookup that has found the component `n` of the directory dentry `p`, before the
new dentry and the new vinode are connected. -/
def foundState (s : State) (p : ℕ) (n : Name) (j : ℕ) (buf : Buf) : State :=
  { s with
    pages := s.pages + 2
    iobuffer := buf
    dentries := Function.update s.dentries s.pages
      (some { name := n, dRef := 0, dentryInode := none, parent := some p })
    vinodes := Function.update s.vinodes (s.pages + 1) (some (newVinode (s.disk.dinode j) j)) }

/-- The state with the new dentry connected to the new vinode. -/
def newState (s : State) (p : ℕ) (n : Name) (j : ℕ) (buf : Buf) : State :=
  State.addDentry (State.addVinode { s with iobuffer := buf, pages := s.pages + 2 } j
    (s.pages + 1)) p n
    s.pages (s.pages + 1) (newVinode (s.disk.dinode j) j)

/-- `attachFound` goes by the table. -/
theorem attachFound_found {buf : Buf} (hlt : j < ninodes) :
    attachFound (foundState s p n j buf) s.pages (s.pages + 1) =
      (match s.vinodeHashTable.lookup (.rfs, j) with
      | some u => do
        let s₁ ← addRef ((foundState s p n j buf).setDentry s.pages
          { name := n, dRef := 0, dentryInode := some u, parent := some p }) u 1
        hashPutDentry (s₁.freeVinode (s.pages + 1)) s.pages
      | none => do
        let s₁ ← addRef ((foundState s p n j buf).setDentry s.pages
          { name := n, dRef := 0, dentryInode := some (s.pages + 1), parent := some p })
          (s.pages + 1) 1
        let s₁ ← hashPutVinode s₁ (s.pages + 1)
        hashPutDentry s₁ s.pages) := by
  have hvin : (foundState s p n j buf).vinode (s.pages + 1) =
      .ok (newVinode (s.disk.dinode j) j) := State.vinode_eq_ok.2 (Function.update_self _ _ _)
  have hden : (foundState s p n j buf).dentry s.pages =
      .ok { name := n, dRef := 0, dentryInode := none, parent := some p } :=
    State.dentry_eq_ok.2 (Function.update_self _ _ _)
  have hhash : hashGetVinode (foundState s p n j buf) (newVinode (s.disk.dinode j) j).sb
      (newVinode (s.disk.dinode j) j).inum = s.vinodeHashTable.lookup (.rfs, j) :=
    if_neg (Nat.not_le.2 (hlt.trans (by decide)))
  unfold attachFound
  rewrite [hvin, ok_bind, hden, ok_bind, hhash]
  cases s.vinodeHashTable.lookup (.rfs, j) <;> rfl

/-- Without a vinode in the table the new dentry is connected to the new one. -/
theorem attachFound_new (hl : s.vinodeHashTable.lookup (.rfs, j) = none) (hlt : j < ninodes)
    (hk : s.dentryHashTable.lookup (some p, n) = none) (buf : Buf) :
    attachFound (foundState s p n j buf) s.pages (s.pages + 1) = .ok (newState s p n j buf) := by
  have hx₁ : State.vinodes ((foundState s p n j buf).setDentry s.pages
      { name := n, dRef := 0, dentryInode := some (s.pages + 1), parent := some p })
      (s.pages + 1) = some (newVinode (s.disk.dinode j) j) := Function.update_self _ _ _
  rw [attachFound_found hlt, hl]
  dsimp only
  rw [addRef_eq hx₁, ok_bind, hashPutVinode_eq (Function.update_self _ _ _) hlt hl, ok_bind,
    hashPutDentry_eq (Function.update_self _ _ _) hk]
  simp only [State.setVinode, State.setDentry, foundState, newState, State.addDentry,
    State.addVinode, Function.update_idem]
  rfl

/-- The state with the new dentry connected to a vinode of the table. -/
def oldState (s : State) (p : ℕ) (n : Name) (u : ℕ) (x : Vinode) (buf : Buf) : State :=
  State.addDentry { s with iobuffer := buf, pages := s.pages + 2 } p n s.pages u x

/-- With a vinode in the table the new dentry is connected to that one, and the new one is freed. -/
theorem attachFound_old {u : ℕ} {xu : Vinode} (h : Inv s) (hc : Cached s j u xu) (hlt : j < ninodes)
    (hk : s.dentryHashTable.lookup (some p, n) = none) (buf : Buf) :
    attachFound (foundState s p n j buf) s.pages (s.pages + 1) = .ok (oldState s p n u xu buf) := by
  obtain ⟨-, hv₁, -⟩ := h.tables.fresh (s.pages + 1) (Nat.le_succ _)
  have hu : u < s.pages := h.tables.page_lt_vinode hc.vinode
  have hxu : State.vinodes ((foundState s p n j buf).setDentry s.pages
      { name := n, dRef := 0, dentryInode := some u, parent := some p }) u = some xu :=
    (Function.update_of_ne (by omega) _ _).trans hc.vinode
  rw [attachFound_found hlt, hc.hash]
  dsimp only
  rw [addRef_eq hxu, ok_bind, hashPutDentry_eq (Function.update_self _ _ _) hk]
  have hvs : Function.update (Function.update (Function.update s.vinodes (s.pages + 1)
      (some (newVinode (s.disk.dinode j) j))) u (some { xu with ref := xu.ref + 1 }))
      (s.pages + 1) none = Function.update s.vinodes u (some { xu with ref := xu.ref + 1 }) := by
    have hnone : Function.update s.vinodes (s.pages + 1) none = s.vinodes :=
      Function.update_eq_self_iff.2 hv₁.symm
    rw [Function.update_comm (by omega), Function.update_idem, hnone]
  simp only [State.freeVinode, State.setVinode, State.setDentry, foundState,
    Function.update_idem, hvs]
  rfl

/-- The new dentry is connected to the vinode in the table, or to the new one. -/
theorem attachFound_spec (h : Inv s) (hp : DentryOf s p d) (hm : (n, j) ∈ s.vol.dir d)
    (hk : s.dentryHashTable.lookup (some p, n) = none) (buf : Buf) :
    ∃ s' e v x, attachFound (foundState s p n j buf) s.pages (s.pages + 1) = .ok s' ∧
      Extends s s' ∧ Hashed s' s.pages e v ∧ Cached s' j v x ∧ e.parent = some p ∧ e.name = n := by
  have huse := (h.good.entries d _ hm).2.1
  have hlt := h.good.lt j huse
  obtain ⟨hd₀, -, -⟩ := h.tables.fresh s.pages (Nat.le_refl _)
  obtain ⟨-, hv₁, -⟩ := h.tables.fresh (s.pages + 1) (Nat.le_succ _)
  set s₀ : State := { s with iobuffer := buf, pages := s.pages + 2 } with hs₀
  have hext : Extends s s₀ := .scratch s buf (by omega)
  have hvol : s₀.vol = s.vol := rfl
  have hpage : s.pages < s₀.pages := Nat.lt_add_of_pos_right (by decide)
  cases hl : s.vinodeHashTable.lookup (.rfs, j) with
  | some u =>
    obtain ⟨xu, hc⟩ := h.tables.cached hl
    have hu : u < s.pages := h.tables.page_lt_vinode hc.vinode
    have hc₀ : Cached s₀ j u xu := ⟨hc.hash, hc.vinode⟩
    have henter := Extends.enter (hext.dentryOf hp) hc₀ (hvol ▸ hm) hk hd₀ hpage
    exact ⟨_, _, u, { xu with ref := xu.ref + 1 }, attachFound_old h hc hlt hk buf,
      hext.trans henter, ⟨Function.update_self _ _ _, AList.lookup_insert _, rfl⟩,
      ⟨hc.hash, Function.update_self _ _ _⟩, rfl, rfl⟩
  | none =>
    have hload := Extends.load (s := s₀) (v := s.pages + 1) (hvol ▸ huse) hl hv₁
      (Nat.lt_succ_self _)
    set s₁ : State := s₀.addVinode j (s.pages + 1) with hs₁
    have hvol₁ : s₁.vol = s.vol := (h.scratch buf (by omega)).vol_load huse hl hv₁
    have hc₁ : Cached s₁ j (s.pages + 1) (newVinode (s.disk.dinode j) j) :=
      ⟨AList.lookup_insert _, Function.update_self _ _ _⟩
    have henter := Extends.enter (hload.dentryOf (hext.dentryOf hp)) hc₁ (hvol₁ ▸ hm) hk hd₀ hpage
    exact ⟨_, _, s.pages + 1, { newVinode (s.disk.dinode j) j with ref := 0 + 1 },
      attachFound_new hl hlt hk buf, hext.trans (hload.trans henter),
      ⟨Function.update_self _ _ _, AList.lookup_insert _, rfl⟩,
      ⟨AList.lookup_insert _, Function.update_self _ _ _⟩, rfl, rfl⟩

/-! ## Below a dentry of RFS -/

/-- A dentry in the table below a dentry of RFS. -/
theorem Inv.child (h : Inv s) (he : Hashed s p e v) (hc : Cached s i v x)
    (hk : s.dentryHashTable.lookup (some p, n) = some t) :
    ∃ e' v' j x', Hashed s t e' v' ∧ Cached s j v' x' ∧ e'.parent = some p ∧ e'.name = n ∧
      (n, j) ∈ s.vol.dir i := by
  obtain ⟨e', v', he', hkey⟩ := h.tables.dentry _ _ hk
  obtain ⟨hpar, rfl⟩ := Prod.mk.inj hkey
  rcases h.tables.target t e' v' he' with rfl | ⟨j, x', hc'⟩
  · obtain ⟨e₀, v₀, x₀, he₀, hnone, -⟩ := h.tables.root
    obtain ⟨rfl, -⟩ := he'.unique he₀
    rw [hnone] at hpar
    cases hpar
  · have hne : t ≠ s.sb.sRoot := by
      rintro rfl
      obtain ⟨e₀, v₀, x₀, he₀, hroot, -⟩ := h.paths.mount
      obtain ⟨rfl, -⟩ := he'.unique he₀
      rw [hroot] at hpar
      obtain rfl := Option.some.inj hpar
      exact h.tables.root_not_cached he hc
    obtain ⟨p', d, hpar', ⟨e₁, v₁, x₁, he₁, hc₁⟩, hm⟩ := h.paths.parent t e' v' j x' he' hc' hne
    rw [← hpar] at hpar'
    obtain rfl := Option.some.inj hpar'
    obtain ⟨rfl, rfl⟩ := he.unique he₁
    obtain ⟨rfl, -⟩ := h.tables.cached_inj hc hc₁
    exact ⟨e', v', j, x', he', hc', hpar.symm, rfl, hm⟩

/-- The lookup of a component that is not in the table. -/
theorem Inv.lookup_miss (h : Inv s) (hc : Cached s i v x)
    (hd : (s.vol.node i).type = DIR_I) (hn : n.Valid) :
    ∃ buf, viopLookup (dentryState s p n) v n =
      .ok (match dirFind (s.vol.dir i) n with
        | none => (none, { dentryState s p n with iobuffer := buf })
        | some j => (some (s.pages + 1), foundState s p n j buf)) := by
  obtain ⟨hdir, -, hlist⟩ := h.dir_of_cached hc hd
  have hv : (dentryState s p n).vinodes v = some x := hc.vinode
  have hsb : viopSb (dentryState s p n) v = .ok () := by
    rw [viopSb, State.vinode_eq_ok.2 hv, ok_bind, (h.tables.inum_eq hc).2]
    rfl
  rw [viopLookup, hsb, ok_bind]
  cases hf : dirFind (s.vol.dir i) n with
  | none =>
    rw [hlist] at hf
    exact rfsLookup_none hv hn hdir hf
  | some j =>
    have hj := h.lt_of_dirFind hf
    rw [hlist] at hf
    exact rfsLookup_some hv hn hdir hf hj

/-- Without the new dentry the state is as before. -/
theorem Inv.freeDentry_dentryState (h : Inv s) (buf : Buf) :
    State.freeDentry { dentryState s p n with iobuffer := buf } s.pages =
      { s with iobuffer := buf, pages := s.pages + 1 } := by
  obtain ⟨hd₀, -, -⟩ := h.tables.fresh s.pages (Nat.le_refl _)
  rw [State.freeDentry]
  simp only [dentryState, Function.update_idem]
  rw [Function.update_eq_self_iff.2 hd₀.symm]

/-! ## One component -/

/-- The turn of the loop of `lookup_final_dentry` for one component: the dentry it goes on with, or
nothing where the component is missing. -/
def component (s : State) (parent : ℕ) (token : Name) : Except Fault (Option ℕ × State) :=
  match hashGetDentry s parent token with
  | some this => .ok (some this, s)
  | none => do
    let (this, s) ← allocVfsDentry s token none (some parent)
    let (foundVinode, s) ← viopLookup s (← s.dentryInode parent) token
    match foundVinode with
    | none => return (none, s.freeDentry this)
    | some v => return (some this, ← attachFound s this v)

theorem lookupLoop_cons (n : Name) (ns : List Name) (p o : ℕ) (s : State) :
    lookupLoop (n :: ns) p o s = component s p n >>= fun r =>
      match r.1 with
      | none => .ok (.missing p n, r.2)
      | some t => lookupLoop ns t p r.2 := by
  rw [lookupLoop, component]
  cases hashGetDentry s p n with
  | some t => rfl
  | none =>
    simp only [bind_assoc]
    refine bind_congr fun a => bind_congr fun v => bind_congr fun r => ?_
    cases r.1 with
    | none => rfl
    | some u => simp only [bind_assoc, pure_eq_ok, ok_bind]

/-- A loop over more components goes on where the loop over the first ones ends. -/
theorem lookupLoop_append (ns ms : List Name) (p o : ℕ) (s : State) :
    lookupLoop (ns ++ ms) p o s = lookupLoop ns p o s >>= fun r =>
      match r.1 with
      | .found t q => lookupLoop ms t q r.2
      | .missing q n => .ok (.missing q n, r.2) := by
  induction ns generalizing p o s with
  | nil => rfl
  | cons n ns ih =>
    rw [List.cons_append, lookupLoop_cons, lookupLoop_cons, bind_assoc]
    refine bind_congr fun r => ?_
    cases r.1 with
    | none => rfl
    | some t => exact ih t p r.2

section Component

variable (h : Inv s) (he : Hashed s p e v)

include h he

/-- A component that is not in the table is looked up in the vinode of the parent. -/
theorem component_of_none (hk : hashGetDentry s p n = none) :
    component s p n = viopLookup (dentryState s p n) v n >>= fun r =>
      match r.1 with
      | none => .ok (none, r.2.freeDentry s.pages)
      | some u => attachFound r.2 s.pages u >>= fun s' => .ok (some s.pages, s') := by
  rw [component, hk]
  simp only [allocVfsDentry_eq, ok_bind, h.dentryState_inode he]
  refine bind_congr fun r => ?_
  cases r.1 <;> rfl

variable (hc : Cached s i v x) (hd : (s.vol.node i).type = DIR_I) (hn : n.Valid)

include hc hd hn

/-- A component that the directory has. -/
theorem component_found (hf : dirFind (s.vol.dir i) n = some j) :
    ∃ t s' e' v' x', component s p n = .ok (some t, s') ∧ Extends s s' ∧ Hashed s' t e' v' ∧
      Cached s' j v' x' ∧ e'.parent = some p ∧ e'.name = n := by
  cases hk : hashGetDentry s p n with
  | some t =>
    obtain ⟨e', v', j', x', he', hc', hpar, hname, hm⟩ := h.child he hc hk
    have hj : j' = j := Option.some.inj ((dirFind_of_mem (h.good.names i) hm).symm.trans hf)
    subst hj
    exact ⟨t, s, e', v', x', by rw [component, hk], .refl s, he', hc', hpar, hname⟩
  | none =>
    obtain ⟨buf, hlook⟩ := h.lookup_miss (p := p) hc hd hn
    rw [hf] at hlook
    obtain ⟨s', e', v', x', hatt, hext, he', hc', hpar, hname⟩ :=
      attachFound_spec h ⟨e, v, x, he, hc⟩ (mem_of_dirFind hf) hk buf
    refine ⟨s.pages, s', e', v', x', ?_, hext, he', hc', hpar, hname⟩
    rw [component_of_none h he hk, hlook, ok_bind]
    dsimp only
    rw [hatt, ok_bind]

/-- A component that the directory does not have. -/
theorem component_missing (hf : dirFind (s.vol.dir i) n = none) :
    ∃ buf, component s p n = .ok (none, { s with iobuffer := buf, pages := s.pages + 1 }) ∧
      s.dentryHashTable.lookup (some p, n) = none := by
  have hk : hashGetDentry s p n = none := by
    by_contra hne
    obtain ⟨t, hk⟩ := Option.ne_none_iff_exists'.1 hne
    obtain ⟨e', v', j', x', he', hc', hpar, hname, hm⟩ := h.child he hc hk
    rw [dirFind_of_mem (h.good.names i) hm] at hf
    cases hf
  obtain ⟨buf, hlook⟩ := h.lookup_miss (p := p) hc hd hn
  rw [hf] at hlook
  refine ⟨buf, ?_, hk⟩
  rw [component_of_none h he hk, hlook, ok_bind]
  exact congrArg (fun s' => Except.ok (none, s')) (h.freeDentry_dentryState buf)

end Component

/-! ## The loop over the components -/

/-- The dentry `t` is one of the inode `i`, by an entry of the directory dentry `p`. -/
def Found (s : State) (t p i : ℕ) : Prop :=
  ∃ e v x d, Hashed s t e v ∧ Cached s i v x ∧ e.parent = some p ∧ DentryOf s p d ∧
    (e.name, i) ∈ s.vol.dir d

/-- The directory dentry `p` has no entry `n`. -/
def Missing (s : State) (p : ℕ) (n : Name) : Prop :=
  ∃ d, DentryOf s p d ∧ (s.vol.node d).type = DIR_I ∧ n.Valid ∧ n ∉ (s.vol.dir d).map Prod.fst ∧
    s.dentryHashTable.lookup (some p, n) = none

/-- **The loop of `lookup_final_dentry`** follows the walk of the volume. -/
theorem lookupLoop_spec {o : ℕ} (h : Inv s) (he : Hashed s p e v) (hc : Cached s i v x)
    (hd : DirParents (fun i => (s.vol.node i).type = DIR_I) s.vol.dir ns i)
    (hn : ∀ n ∈ ns, n.Valid) :
    ∃ r s', lookupLoop ns p o s = .ok (r, s') ∧ Extends s s' ∧
      match walk s.vol.dir ns i with
      | some j => ∃ t q, r = .found t q ∧
          ((ns = [] ∧ j = i ∧ t = p ∧ q = o) ∨ (ns ≠ [] ∧ Found s' t q j))
      | none => ∃ q n, r = .missing q n ∧ Missing s' q n := by
  induction ns generalizing s p o e v i x with
  | nil => exact ⟨_, s, rfl, .refl s, p, o, rfl, .inl ⟨rfl, rfl, rfl, rfl⟩⟩
  | cons n ns ih =>
    obtain ⟨hdir, hrest⟩ := hd
    have hvalid := hn n (List.mem_cons_self)
    have hns := fun m hm => hn m (List.mem_cons_of_mem n hm)
    rw [lookupLoop_cons, walk]
    cases hf : dirFind (s.vol.dir i) n with
    | none =>
      obtain ⟨buf, hcomp, hk⟩ := component_missing h he hc hdir hvalid hf
      have hext := Extends.scratch s buf (Nat.le_succ s.pages)
      rw [hcomp]
      exact ⟨.missing p n, _, rfl, hext, p, n, rfl, i, hext.dentryOf ⟨e, v, x, he, hc⟩, hdir,
        hvalid, dirFind_eq_none_iff.1 hf, hk⟩
    | some j =>
      obtain ⟨t, s₁, e₁, v₁, x₁, hcomp, hext, he₁, hc₁, hpar, hname⟩ :=
        component_found h he hc hdir hvalid hf
      have h₁ := hext.steps.inv h
      have hvol := (hext.steps.quiet h).vol
      have hd₁ := hrest j hf
      rw [← hvol] at hd₁
      -- the rest of the path, from the dentry of this component
      obtain ⟨r, s', hr, hext', hpost⟩ := ih (o := p) h₁ he₁ hc₁ hd₁ hns
      rw [hcomp]
      refine ⟨r, s', hr, hext.trans hext', ?_⟩
      rw [hvol] at hpost
      dsimp only [Option.bind_some]
      cases hw : walk s.vol.dir ns j with
      | none =>
        rw [hw] at hpost
        exact hpost
      | some k =>
        rw [hw] at hpost
        obtain ⟨t', q, rfl, ⟨rfl, rfl, rfl, rfl⟩ | ⟨-, hfound⟩⟩ := hpost
        · obtain ⟨x', hx', -⟩ := hext'.cached k v₁ x₁ hc₁
          refine ⟨t', q, rfl, .inr ⟨by simp, e₁, v₁, x', i, hext'.hashed _ _ _ he₁, hx', hpar, ?_,
            ?_⟩⟩
          · exact hext'.dentryOf (hext.dentryOf ⟨e, v, x, he, hc⟩)
          · rw [(hext'.steps.quiet h₁).vol, hvol, hname]
            exact mem_of_dirFind hf
        · exact ⟨t', q, rfl, .inr ⟨by simp, hfound⟩⟩

/-! ## Lookup from the root of the system -/

/-- What a lookup that returns has found, in terms of the walk `r` on the disk. -/
def Resolved (s : State) (r : Option ℕ) : Lookup → Prop
  | .found t q => ∃ j, r = some j ∧ DentryOf s t j ∧ (t = s.sb.sRoot ∨ Found s t q j)
  | .missing q n => r = none ∧ Missing s q n

/-- **`lookup_final_dentry`** on a path below the mount point. -/
theorem lookupFinalDentry_spec {path : Path} (h : Inv s) (hlen : path.1.length < MAX_PATH_LEN)
    (ht : pathTokens path.1 = ramdisk0 :: ns) (hp : s.disk.ParentsOk path.1) :
    ∃ r s', lookupFinalDentry s path.1 s.vfsRootDentry = .ok (r, s') ∧ Extends s s' ∧
      Resolved s' (s.disk.resolve path.1) r := by
  obtain ⟨e, v, x, he, hpar, hname, hc⟩ := h.paths.mount
  have hkey : hashGetDentry s s.vfsRootDentry ramdisk0 = some s.sb.sRoot := by
    rw [hashGetDentry, ← hpar, ← hname]
    exact he.hash
  have hd := (h.dirParents_iff (by decide)).1 (hp ns ht)
  have hres : s.disk.resolve path.1 = walk s.vol.dir ns 0 := by
    rw [Disk.resolve, ht, ← h.walk_eq (by decide)]
    exact if_pos rfl
  obtain ⟨r, s', hr, hext, hpost⟩ := lookupLoop_spec (o := s.vfsRootDentry) h he hc hd
    fun n hn => valid_of_mem_pathTokens hlen ht hn
  refine ⟨r, s', ?_, hext, ?_⟩
  · rw [lookupFinalDentry, if_neg (Nat.not_le.2 hlen), ht, lookupLoop, hkey]
    exact hr
  · rw [hres]
    cases hw : walk s.vol.dir ns 0 with
    | none =>
      rw [hw] at hpost
      obtain ⟨q, n, rfl, hm⟩ := hpost
      exact ⟨rfl, hm⟩
    | some j =>
      rw [hw] at hpost
      obtain ⟨t, q, rfl, ⟨-, rfl, rfl, -⟩ | ⟨-, hf⟩⟩ := hpost
      · refine ⟨0, rfl, hext.dentryOf ⟨e, v, x, he, hc⟩, .inl ?_⟩
        rw [(hext.steps.quiet h).sb]
      · have hf' := hf
        obtain ⟨e', v', x', -, he', hc', -⟩ := hf'
        exact ⟨j, rfl, ⟨e', v', x', he', hc'⟩, .inr hf⟩

/-- The root of the system has no other entry in the table. -/
theorem Inv.root_child (h : Inv s) (hn : n ≠ ramdisk0) :
    hashGetDentry s s.vfsRootDentry n = none := by
  by_contra hne
  obtain ⟨t, hk⟩ := Option.ne_none_iff_exists'.1 hne
  obtain ⟨e, v, he, hkey⟩ := h.tables.dentry _ _ hk
  obtain ⟨hpar, hname⟩ := Prod.mk.inj hkey
  obtain ⟨e₀, v₀, x₀, he₀, hnone, -⟩ := h.tables.root
  rcases h.tables.target t e v he with rfl | ⟨i, x, hc⟩
  · obtain ⟨rfl, -⟩ := he.unique he₀
    rw [hnone] at hpar
    cases hpar
  · have hroot : t ≠ s.sb.sRoot := by
      rintro rfl
      obtain ⟨e₁, v₁, x₁, he₁, -, hname₁, -⟩ := h.paths.mount
      obtain ⟨rfl, -⟩ := he.unique he₁
      exact hn (hname.trans hname₁)
    obtain ⟨p, d, hpar', ⟨e₁, v₁, x₁, he₁, hc₁⟩, -⟩ := h.paths.parent t e v i x he hc hroot
    rw [← hpar] at hpar'
    obtain rfl := Option.some.inj hpar'
    exact h.tables.root_not_cached he₁ hc₁

/-- Why a lookup does not return: the path is longer than the buffer it is copied to, or it leaves
RFS. -/
def LookupFault (f : Fault) : Prop := f = .undefined "path_copy" ∨ f = .hostfs

/-- **`lookup_final_dentry`** on any path whose inner components below the mount point are
directories. -/
theorem lookupFinalDentry_sat {path : Path} (h : Inv s) (hp : s.disk.ParentsOk path.1) :
    Sat (lookupFinalDentry s path.1 s.vfsRootDentry)
      (fun r => Extends s r.2 ∧ (r.1 = .found s.vfsRootDentry s.vfsRootDentry ∨
        Resolved r.2 (s.disk.resolve path.1) r.1)) LookupFault := by
  by_cases hlen : path.1.length < MAX_PATH_LEN
  · cases ht : pathTokens path.1 with
    | nil =>
      rw [lookupFinalDentry, if_neg (Nat.not_le.2 hlen), ht]
      exact ⟨.refl s, .inl rfl⟩
    | cons n ns =>
      by_cases hn : n = ramdisk0
      · subst hn
        obtain ⟨r, s', hr, hext, hres⟩ := lookupFinalDentry_spec h hlen ht hp
        rw [hr]
        exact ⟨hext, .inr hres⟩
      · rw [lookupFinalDentry, if_neg (Nat.not_le.2 hlen), ht, lookupLoop, h.root_child hn]
        obtain ⟨e, v, x, he, -, hx, -, hsb⟩ := h.tables.root
        have hlook : viopLookup (dentryState s s.vfsRootDentry n) v n = .error .hostfs := by
          have hv : (dentryState s s.vfsRootDentry n).vinode v = .ok x := State.vinode_eq_ok.2 hx
          rw [viopLookup, viopSb, hv, ok_bind, hsb]
          rfl
        simp only [allocVfsDentry_eq, ok_bind, h.dentryState_inode he, hlook, error_bind]
        exact .inr rfl
  · rw [lookupFinalDentry, if_pos (Nat.not_lt.1 hlen)]
    exact .inl rfl

end HustOS.Fs
