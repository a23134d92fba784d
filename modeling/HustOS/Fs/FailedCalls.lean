import HustOS.Fs.MissingParents

/-!
# Calls that fail

What a lookup leaves behind, whatever the path is and wherever it leads: the disk and the bitmap are
as before, and a vinode has exactly one more reference for each dentry the lookup has entered for it
(`Entered`). A `vfs_mkdir` or a `vfs_link` that returns -1 has only looked up its paths
(`failed_calls`), except for a `vfs_mkdir` in an inode that is not a directory.
-/

namespace HustOS.Fs

open Foundations

variable {s s' s₁ s₂ : State} {t p v u w i k : ℕ} {x y z : Vinode} {n : Name} {path : Path}

/-! ## What a lookup leaves behind -/

/-- The number of dentries of a vinode in the dentry table. -/
def State.dentriesOf (s : State) (v : ℕ) : ℕ :=
    tally s.dentryHashTable fun t => s.inodeOf t = some v

/-- The disk and the bitmap are as before, and a vinode has one more reference for each dentry that
has come to the dentry table for it. -/
structure Entered (s s' : State) : Prop where
  disk : s'.disk = s.disk
  freemap : s'.freemap = s.freemap
  hash : ∀ k t, s.dentryHashTable.lookup k = some t → s'.dentryHashTable.lookup k = some t
  vinode : ∀ v x, s.vinodes v = some x →
    s'.vinodes v = some { x with ref := x.ref + ((s'.dentriesOf v : ℤ) - s.dentriesOf v) }

namespace Entered

theorem refl (s : State) : Entered s s := by
  refine ⟨rfl, rfl, fun _ _ h => h, fun v x hv => ?_⟩
  rw [sub_self, add_zero]
  exact hv

theorem trans (h : Entered s s₁) (h' : Entered s₁ s₂) : Entered s s₂ := by
  refine ⟨h'.disk.trans h.disk, h'.freemap.trans h.freemap,
    fun k t hk => h'.hash k t (h.hash k t hk),
    fun v x hv => ?_⟩
  rw [h'.vinode v _ (h.vinode v x hv), add_assoc, sub_add_sub_cancel']

end Entered

/-- The tables lead to pages that are handed out, and nothing lives in the others. -/
structure Laid (s : State) : Prop where
  vinodes : ∀ v, s.pages ≤ v → s.vinodes v = none
  dentries : ∀ t, s.pages ≤ t → s.dentries t = none
  dentryHash : ∀ k t, s.dentryHashTable.lookup k = some t → t < s.pages
  vinodeHash : ∀ k v, s.vinodeHashTable.lookup k = some v → v < s.pages

theorem Inv.laid (h : Inv s) : Laid s where
  vinodes v hv := (h.tables.fresh v hv).2.1
  dentries t ht := (h.tables.fresh t ht).1
  dentryHash k t hk := by
    obtain ⟨e, v, he, -⟩ := h.tables.dentry k t hk
    exact h.tables.page_lt_dentry he.dentry
  vinodeHash k v hk := by
    obtain ⟨-, x, hx, -⟩ := h.tables.vinode k.1 k.2 v hk
    exact h.tables.page_lt_vinode hx

namespace Laid

variable (h : Laid s)

include h

theorem page_lt (hv : s.vinodes v = some x) : v < s.pages := by
  by_contra hlt
  rw [h.vinodes v (Nat.not_lt.1 hlt)] at hv
  cases hv

/-- A buffer and pages that nothing is put in. -/
theorem scratch (buf : Buf) (hk : s.pages ≤ k) : Laid { s with iobuffer := buf, pages := k } :=
  ⟨fun v hv => h.vinodes v (hk.trans hv), fun t ht => h.dentries t (hk.trans ht),
    fun k' t ht => (h.dentryHash k' t ht).trans_le hk,
      fun k' v hv => (h.vinodeHash k' v hv).trans_le hk⟩

/-- A new dentry in the table, and at most a new vinode beside it. -/
theorem entered (hk : s.dentryHashTable.lookup (some p, n) = none) (hdisk : s'.disk = s.disk)
    (hfree : s'.freemap = s.freemap) (hpages : s'.pages = s.pages + 2)
    (htable : s'.dentryHashTable = s.dentryHashTable.insert (some p, n) s.pages)
    (hdentries : s'.dentries = Function.update s.dentries s.pages
      (some { name := n, dRef := 0, dentryInode := some w, parent := some p }))
    (hv : ∀ v x, s.vinodes v = some x →
      s'.vinodes v = some (if v = w then { x with ref := x.ref + 1 } else x))
    (hfresh : ∀ v, s.pages + 2 ≤ v → s'.vinodes v = none)
    (hhash : ∀ k v, s'.vinodeHashTable.lookup k = some v → v < s.pages + 2) :
    Laid s' ∧ Entered s s' := by
  refine ⟨⟨fun v hv => hfresh v (hpages ▸ hv), fun t ht => ?_, fun k t ht => ?_,
    fun k v hk => hpages ▸ hhash k v hk⟩, ?_⟩
  · rw [hpages] at ht
    rw [hdentries, Function.update_of_ne (by omega)]
    exact h.dentries t (by omega)
  · rw [htable, lookup_insert_eq] at ht
    rw [hpages]
    split at ht
    · obtain rfl := Option.some.inj ht
      omega
    · exact (h.dentryHash k t ht).trans (by omega)
  refine ⟨hdisk, hfree, fun k t ht => ?_, fun v x hx => ?_⟩
  · rw [htable, lookup_insert_eq, if_neg, ht]
    rintro rfl
    rw [hk] at ht
    cases ht
  · have hnew : s'.inodeOf s.pages = some w := by
      rw [State.inodeOf, hdentries, Function.update_self]
      rfl
    have hold : ∀ k t, s.dentryHashTable.lookup k = some t →
        (s'.inodeOf t = some v ↔ s.inodeOf t = some v) := fun k t ht => by
      rw [State.inodeOf, hdentries, Function.update_of_ne (h.dentryHash k t ht).ne, State.inodeOf]
    have hcount : s'.dentriesOf v = s.dentriesOf v + if v = w then 1 else 0 := by
      rw [State.dentriesOf, htable, tally_insert hk, tally_congr hold, hnew, State.dentriesOf]
      congr 1
      exact if_congr (by rw [Option.some.injEq, eq_comm]) rfl rfl
    rw [hv v x hx, hcount]
    by_cases hvw : v = w
    · rw [if_pos hvw, if_pos hvw, Nat.cast_add, add_sub_cancel_left]
      rfl
    · rw [if_neg hvw, if_neg hvw, add_zero, sub_self, add_zero]

end Laid

/-! ## One component -/

theorem rfsR1block_any (b : ℕ) :
    Sat (rfsR1block s b) (fun s' => ∃ buf, s' = { s with iobuffer := buf }) fun _ => True :=
  rfsR1block_sat.mono' fun _ _ => trivial

theorem findLoop_any {y : Dinode} :
    Sat (findLoop y n k i s) (fun r => ∃ buf, r.2 = { s with iobuffer := buf }) fun _ => True := by
  induction k generalizing i s with
  | zero => exact ⟨s.iobuffer, rfl⟩
  | succ k ih =>
    rw [findLoop]
    refine Sat.bind (P := fun s' => ∃ buf, s' = { s with iobuffer := buf }) ?_ ?_
    · unfold readAtBoundary
      split
      · exact Sat.bind (sat_true _ fun _ => trivial) fun b (_ : True) => rfsR1block_any b
      · exact ⟨s.iobuffer, rfl⟩
    · rintro _ ⟨buf, rfl⟩
      split
      · exact ⟨buf, rfl⟩
      · exact ih

theorem rfsNewVinode_any :
    Sat (rfsNewVinode s i)
      (fun r => ∃ buf z, r = (s.pages,
        { s with
          pages := s.pages + 1
          iobuffer := buf
          vinodes := Function.update s.vinodes s.pages (some z) })) fun _ => True := by
  simp only [rfsNewVinode, rfsAllocVinode, State.allocPage, State.setVinode, State.vinode,
    Function.update_self, ok_bind, rfsUpdateVinode, rfsReadDinode, bind_assoc]
  change Sat (rfsR1block _ (dinodeBlock i) >>= _) _ _
  refine Sat.bind (rfsR1block_any _) ?_
  rintro _ ⟨buf, rfl⟩
  simp only [pure_eq_ok, ok_bind, Function.update_idem]
  exact ⟨buf, _, rfl⟩

/-- A lookup finds nothing, or builds a vinode in a new page. -/
theorem viopLookup_any :
    Sat (viopLookup s v n)
      (fun r => (∃ buf, r = (none, { s with iobuffer := buf })) ∨
        ∃ buf z, r = (some s.pages,
          { s with
            pages := s.pages + 1
            iobuffer := buf
            vinodes := Function.update s.vinodes s.pages (some z) })) fun _ => True := by
  unfold viopLookup rfsLookup
  refine Sat.bind (sat_true _ fun _ => trivial) fun _ (_ : True) => ?_
  refine Sat.bind (sat_true _ fun _ => trivial) fun x (_ : True) => ?_
  refine Sat.bind findLoop_any ?_
  rintro ⟨found, s₁⟩ ⟨buf, rfl⟩
  cases found with
  | none => exact .inl ⟨buf, rfl⟩
  | some i =>
    refine Sat.bind rfsNewVinode_any ?_
    rintro _ ⟨buf', z, rfl⟩
    exact .inr ⟨buf', z, rfl⟩

/-- The vinode table gets at most the vinode. -/
theorem hashPutVinode_any (h : ∀ k v, s.vinodeHashTable.lookup k = some v → v < w) (hu : u < w) :
    Sat (hashPutVinode s u)
      (fun s' => ∃ table : AList fun _ : Sb × ℕ => ℕ, (∀ k v, table.lookup k = some v → v < w) ∧
        s' = { s with vinodeHashTable := table }) fun _ => True := by
  unfold hashPutVinode
  refine Sat.bind (sat_true _ fun _ => trivial) fun x (_ : True) => ?_
  split
  · exact ⟨_, h, rfl⟩
  · cases hk : s.vinodeHashTable.lookup (x.sb, x.inum) with
    | some v => exact ⟨_, h, rfl⟩
    | none =>
      refine ⟨_, fun k v hk => ?_, rfl⟩
      rw [lookup_insert_eq] at hk
      split at hk
      · obtain rfl := Option.some.inj hk
        exact hu
      · exact h k v hk

namespace Laid

variable (h : Laid s)

include h

/-- The new dentry goes to the table with the vinode found, or with the one in the table for the
same inode. -/
theorem attachFound (hk : s.dentryHashTable.lookup (some p, n) = none) (buf : Buf) (z : Vinode) :
    Sat (attachFound { dentryState s p n with
        pages := s.pages + 2
        iobuffer := buf
        vinodes := Function.update s.vinodes (s.pages + 1) (some z) } s.pages (s.pages + 1))
      (fun s' => Laid s' ∧ Entered s s') fun _ => True := by
  set s₁ : State := { dentryState s p n with
        pages := s.pages + 2
        iobuffer := buf
        vinodes := Function.update s.vinodes (s.pages + 1) (some z) } with hs₁
  have hz : s₁.vinodes (s.pages + 1) = some z := Function.update_self _ _ _
  have he : s₁.dentries s.pages =
      some { name := n, dRef := 0, dentryInode := none, parent := some p } :=
        Function.update_self _ _ _
  unfold Fs.attachFound
  rw [State.vinode_eq_ok.2 hz, ok_bind, State.dentry_eq_ok.2 he, ok_bind]
  split
  · -- the inode has a vinode in the table
    rename_i u hu
    have hlt : u < s.pages := by
      unfold hashGetVinode at hu
      split at hu
      · cases hu
      · exact h.vinodeHash _ _ hu
    have hne : u ≠ s.pages + 1 := by omega
    dsimp only
    cases hy : s.vinodes u with
    | none =>
      have hnone : State.vinodes (s₁.setDentry s.pages
          { name := n, dRef := 0, dentryInode := some u, parent := some p }) u = none :=
        (Function.update_of_ne hne _ _).trans hy
      rw [addRef, State.vinode, hnone]
      trivial
    | some y =>
      have hy₁ : State.vinodes (s₁.setDentry s.pages
          { name := n, dRef := 0, dentryInode := some u, parent := some p }) u = some y :=
        (Function.update_of_ne hne _ _).trans hy
      rw [addRef_eq hy₁, ok_bind, hashPutDentry_eq (Function.update_self _ _ _) hk]
      refine h.entered (w := u) hk rfl rfl rfl rfl (Function.update_idem _ _ _) ?_ ?_ ?_
      · intro v x hv
        have hv₁ : v ≠ s.pages + 1 := ((h.page_lt hv).trans (Nat.lt_succ_self _)).ne
        refine (Function.update_of_ne hv₁ _ _).trans ?_
        by_cases hvu : v = u
        · subst hvu
          obtain rfl := Option.some.inj (hy.symm.trans hv)
          rw [if_pos rfl]
          exact Function.update_self _ _ _
        · rw [if_neg hvu]
          exact (Function.update_of_ne hvu _ _).trans ((Function.update_of_ne hv₁ _ _).trans hv)
      · intro v hv
        refine (Function.update_of_ne (by omega) _ _).trans
          ((Function.update_of_ne (by omega) _ _).trans ?_)
        exact (Function.update_of_ne (by omega) _ _).trans (h.vinodes v (by omega))
      · exact fun k v hk => (h.vinodeHash k v hk).trans (by omega)
  · -- the vinode found is the first one of the inode
    have hz₁ : State.vinodes (s₁.setDentry s.pages
        { name := n, dRef := 0, dentryInode := some (s.pages + 1), parent := some p })
          (s.pages + 1) =
        some z := hz
    dsimp only
    rw [addRef_eq hz₁, ok_bind]
    set s₂ : State := State.setVinode (s₁.setDentry s.pages
        { name := n, dRef := 0, dentryInode := some (s.pages + 1), parent := some p }) (s.pages + 1)
        { z with ref := z.ref + 1 } with hs₂
    have hhash : ∀ k v, s₂.vinodeHashTable.lookup k = some v → v < s.pages + 2 :=
      fun k v hk => (h.vinodeHash k v hk).trans (by omega)
    refine Sat.bind (hashPutVinode_any hhash (Nat.lt_succ_self _)) ?_
    rintro _ ⟨table, htable, rfl⟩
    rw [hashPutDentry_eq (Function.update_self _ _ _) hk]
    refine h.entered (w := s.pages + 1) hk rfl rfl rfl rfl (Function.update_idem _ _ _) ?_ ?_ htable
    · intro v x hv
      have hne : v ≠ s.pages + 1 := ((h.page_lt hv).trans (Nat.lt_succ_self _)).ne
      rw [if_neg hne]
      exact (Function.update_of_ne hne _ _).trans ((Function.update_of_ne hne _ _).trans hv)
    · intro v hv
      refine (Function.update_of_ne (by omega) _ _).trans
        ((Function.update_of_ne (by omega) _ _).trans ?_)
      exact h.vinodes v (by omega)

/-- **One component** of a path. -/
theorem component : Sat (component s p n) (fun r => Laid r.2 ∧ Entered s r.2) fun _ => True := by
  unfold Fs.component
  cases hk : hashGetDentry s p n with
  | some t => exact ⟨h, .refl s⟩
  | none =>
    rw [allocVfsDentry_eq, ok_bind]
    refine Sat.bind (sat_true _ fun _ => trivial) fun v (_ : True) => ?_
    refine Sat.bind viopLookup_any ?_
    rintro _ (⟨buf, rfl⟩ | ⟨buf, z, rfl⟩)
    · have hfree : State.freeDentry { dentryState s p n with iobuffer := buf } s.pages =
          { s with iobuffer := buf, pages := s.pages + 1 } := by
        rw [State.freeDentry]
        simp only [dentryState, Function.update_idem]
        rw [Function.update_eq_self_iff.2 (h.dentries s.pages (Nat.le_refl _)).symm]
      dsimp only
      rw [hfree]
      refine ⟨h.scratch buf (Nat.le_succ _), rfl, rfl, fun _ _ h => h, fun v x hv => ?_⟩
      have hsame : State.dentriesOf { s with iobuffer := buf, pages := s.pages + 1 } v =
          s.dentriesOf v :=
        rfl
      rw [hsame, sub_self, add_zero]
      exact hv
    · exact Sat.bind (h.attachFound hk buf z) fun s' hs' => hs'

/-- **A lookup enters dentries**, and leaves everything else as it was. -/
theorem lookupLoop (ns : List Name) (p o : ℕ) :
    Sat (lookupLoop ns p o s) (fun r => Laid r.2 ∧ Entered s r.2) fun _ => True := by
  induction ns generalizing s p o with
  | nil => exact ⟨h, .refl s⟩
  | cons n ns ih =>
    rw [lookupLoop_cons]
    refine Sat.bind h.component ?_
    rintro ⟨r, s₁⟩ ⟨h₁, hent⟩
    cases r with
    | none => exact ⟨h₁, hent⟩
    | some t => exact (ih h₁ t p).mono fun r hr => ⟨hr.1, hent.trans hr.2⟩

theorem lookupFinalDentry (path : List UInt8) (p : ℕ) :
    Sat (lookupFinalDentry s path p) (fun r => Laid r.2 ∧ Entered s r.2) fun _ => True := by
  unfold Fs.lookupFinalDentry
  split
  · trivial
  · exact h.lookupLoop _ _ _

end Laid

/-! ## The calls -/

/-- The last component of the path is missing, in an inode that is not a directory. -/
def EndsBelowFile (s : State) (path : Path) : Prop :=
  ∃ p n s₁ v x, lookupFinalDentry s path.1 s.vfsRootDentry = .ok (.missing p n, s₁) ∧
    getBaseName path.1 = .ok n ∧ s₁.dentryInode p = .ok v ∧ s₁.vinodes v = some x ∧ x.type ≠ DIR_I

/-- `rfs_mkdir` returns an inode in a directory. -/
theorem rfsMkdir_directory (hv : s.vinodes v = some x) (hx : x.type = DIR_I) :
    Sat (rfsMkdir s v n) (fun r => r.1 ≠ none) fun _ => True := by
  have hadd : ∀ {s : State} {i}, s.vinodes v = some x →
      Sat (rfsAddDirentry s v n i) (fun r => r.1 = 0) fun _ => True := by
    intro s i hv
    unfold rfsAddDirentry
    rw [State.vinode_eq_ok.2 hv, ok_bind]
    simp only [hx, ne_eq, not_true_eq_false, if_false]
    refine Sat.bind (sat_true _ fun _ => trivial) fun b (_ : True) => ?_
    refine Sat.bind (sat_true _ fun _ => trivial) fun s₁ (_ : True) => ?_
    split
    · trivial
    · refine Sat.bind (sat_true _ fun _ => trivial) fun s₂ (_ : True) => ?_
      exact Sat.bind (sat_true _ fun _ => trivial) fun s₃ (_ : True) => rfl
  unfold rfsMkdir
  rw [State.vinode_eq_ok.2 hv, ok_bind]
  refine Sat.bind ((freeInodeLoop_sat (by omega)).mono' fun _ _ => trivial) ?_
  rintro _ ⟨i, buf, -, hi, -, rfl⟩
  refine Sat.bind (rfsAllocBlock_sat.mono' fun _ _ => trivial) ?_
  rintro _ ⟨k, -, -, rfl⟩
  have hlt : i < ninodes := by omega
  refine Sat.bind ((rfsWriteDinode_sat hlt).mono' fun _ _ => trivial) ?_
  rintro _ ⟨dk, buf', rfl⟩
  refine Sat.bind (hadd hv) ?_
  rintro ⟨r, s₁⟩ hr
  dsimp only at hr
  subst hr
  exact Sat.bind (sat_true _ fun _ => trivial) fun r (_ : True) => nofun

theorem dentryInode_of_dentryState (hv : (dentryState s p n).dentryInode p = .ok v) :
    p ≠ s.pages ∧ s.dentryInode p = .ok v := by
  by_cases hp : p = s.pages
  · subst hp
    have he : (dentryState s s.pages n).dentries s.pages =
        some { name := n, dRef := 0, dentryInode := none, parent := some s.pages } :=
      Function.update_self _ _ _
    rw [State.dentryInode, State.dentry_eq_ok.2 he] at hv
    cases hv
  · refine ⟨hp, ?_⟩
    rw [← hv, State.dentryInode, State.dentryInode, State.dentry, State.dentry,
      show (dentryState s p n).dentries p = s.dentries p from Function.update_of_ne hp _ _]

/-- A `vfs_mkdir` that fails has looked up its path, or the parent is not a directory. -/
theorem vfsMkdir_failed (h : Laid s) (hdir : ¬ EndsBelowFile s path) :
    Sat (vfsMkdir s path.1) (fun r => r.1 = -1 → Entered s r.2) fun _ => True := by
  have hlook := h.lookupFinalDentry path.1 s.vfsRootDentry
  unfold vfsMkdir
  cases hr : lookupFinalDentry s path.1 s.vfsRootDentry with
  | error err => trivial
  | ok r =>
    obtain ⟨r, s₁⟩ := r
    rw [hr] at hlook
    obtain ⟨h₁, hent⟩ := hlook
    cases r with
    | found t q => exact fun _ => hent
    | missing p n =>
      cases hb : getBaseName path.1 with
      | error err => trivial
      | ok b =>
        rw [ok_bind]
        dsimp only
        rw [ok_bind]
        split
        · exact fun _ => hent
        · rename_i heq
          obtain rfl : n = b := not_not.1 heq
          rw [allocVfsDentry_eq, ok_bind]
          dsimp only
          cases hv : (dentryState s₁ p n).dentryInode p with
          | error err => trivial
          | ok v =>
            rw [ok_bind]
            refine Sat.bind (P := fun r => r.1 ≠ none) ?_ ?_
            · rw [viopMkdir]
              cases hx : s₁.vinodes v with
              | none =>
                have hnone : (dentryState s₁ p n).vinodes v = none := hx
                rw [viopSb, State.vinode, hnone]
                trivial
              | some x =>
                have htype : x.type = DIR_I := by
                  by_contra hne
                  exact hdir ⟨p, n, s₁, v, x, hr, hb, (dentryInode_of_dentryState hv).2, hx, hne⟩
                exact Sat.bind (sat_true _ fun _ => trivial) fun _ (_ : True) =>
                  rfsMkdir_directory (s := dentryState s₁ p n) hx htype
            · rintro ⟨r, s₂⟩ hne
              cases r with
              | none => exact absurd rfl hne
              | some u =>
                refine Sat.bind (sat_true _ fun _ => trivial) fun s₃ (_ : True) hret => ?_
                exact absurd (show (0 : ℤ) = -1 from hret) (by decide)

/-- A `vfs_mkdir` in an inode that is not a directory fails. -/
theorem vfsMkdir_below_file (h : Laid s) (hbelow : EndsBelowFile s path) :
    Sat (vfsMkdir s path.1) (fun r => r.1 = -1) fun _ => True := by
  obtain ⟨p, n, s₁, v, x, hr, hb, hv, hx, htype⟩ := hbelow
  have hlook := h.lookupFinalDentry path.1 s.vfsRootDentry
  rw [hr] at hlook
  obtain ⟨h₁, -⟩ := hlook
  have hp : p ≠ s₁.pages := by
    rintro rfl
    rw [State.dentryInode, State.dentry, h₁.dentries s₁.pages (Nat.le_refl _)] at hv
    cases hv
  have hinode : (dentryState s₁ p n).dentryInode p = .ok v := by
    rw [← hv, State.dentryInode, State.dentryInode, State.dentry, State.dentry,
      show (dentryState s₁ p n).dentries p = s₁.dentries p from Function.update_of_ne hp _ _]
  unfold vfsMkdir
  rw [hr, ok_bind]
  dsimp only
  rw [hb, ok_bind, if_neg (not_not.2 rfl), allocVfsDentry_eq, ok_bind]
  dsimp only
  rw [hinode, ok_bind, viopMkdir]
  refine Sat.bind (P := fun r => r.1 = none) ?_ ?_
  · refine Sat.bind (sat_true _ fun _ => trivial) fun _ (_ : True) => ?_
    refine (rfsMkdir_regular (s := dentryState s₁ p n) hx htype).mono ?_
    rintro _ ⟨i, k, buf, -, rfl⟩
    rfl
  · rintro ⟨r, s₂⟩ hnone
    dsimp only at hnone
    subst hnone
    exact rfl

/-- A `vfs_link` that fails has looked up its paths. -/
theorem vfsLink_failed (h : Laid s) (oldpath path : Path) :
    Sat (vfsLink s oldpath.1 path.1) (fun r => r.1 = -1 → Entered s r.2) fun _ => True := by
  unfold vfsLink
  refine Sat.bind (h.lookupFinalDentry _ _) ?_
  rintro ⟨r, s₁⟩ ⟨h₁, hent⟩
  cases r with
  | missing q m => exact fun _ => hent
  | found t q =>
    refine Sat.bind (sat_true _ fun _ => trivial) fun v (_ : True) => ?_
    refine Sat.bind (sat_true _ fun _ => trivial) fun x (_ : True) => ?_
    split
    · exact fun _ => hent
    refine Sat.bind (h₁.lookupFinalDentry _ _) ?_
    rintro ⟨r, s₂⟩ ⟨-, hent₂⟩
    cases r with
    | found t' q' => exact fun _ => hent.trans hent₂
    | missing p n =>
      refine Sat.bind (sat_true _ fun _ => trivial) fun b (_ : True) => ?_
      split
      · exact fun _ => hent.trans hent₂
      refine Sat.bind (sat_true _ fun _ => trivial) fun r (_ : True) => ?_
      refine Sat.bind (sat_true _ fun _ => trivial) fun u (_ : True) => ?_
      refine Sat.bind (P := fun r => r.1 = 0) ?_ ?_
      · exact Sat.bind (sat_true _ fun _ => trivial) fun _ (_ : True) => rfsLink_zero
      · rintro ⟨err, s₃⟩ herr
        dsimp only at herr
        subst herr
        refine Sat.bind (sat_true _ fun _ => trivial) fun s₄ (_ : True) hret => ?_
        exact absurd (show (0 : ℤ) = -1 from hret) (by decide)

/-- **Calls that fail leave everything but the dentry cache as it was.** A `vfs_mkdir` that returns
-1, other than in an inode that is not a directory, and a `vfs_link` that returns -1 leave the disk,
the bitmap and the vinodes as they were, up to one reference for each dentry that has come to the
dentry table. In an inode that is not a directory `vfs_mkdir` returns -1. -/
theorem failed_calls (h : Reachable s) (path : Path) :
    (∀ s', vfsMkdir s path.1 = .ok (-1, s') → ¬ EndsBelowFile s path → Entered s s') ∧
    (∀ (oldpath : Path) s', vfsLink s oldpath.1 path.1 = .ok (-1, s') → Entered s s') ∧
    ∀ r s', EndsBelowFile s path → vfsMkdir s path.1 = .ok (r, s') → r = -1 := by
  have hlaid := h.inv.laid
  refine ⟨fun s' hcall hdir => ?_, fun oldpath s' hcall => ?_, fun r s' hbelow hcall => ?_⟩
  · have hsat := vfsMkdir_failed hlaid hdir
    rw [hcall] at hsat
    exact hsat rfl
  · have hsat := vfsLink_failed hlaid oldpath path
    rw [hcall] at hsat
    exact hsat rfl
  · have hsat := vfsMkdir_below_file hlaid hbelow
    rw [hcall] at hsat
    exact hsat

/-- A link over a name that is there. -/
theorem failed_calls_link : ∃ s s', Reachable s ∧ vfsLink s pathA.1 pathA.1 = .ok (-1, s') ∧
    Entered s s' := by
  have hrun : (runFrom blank [.open pathA O_CREAT]).map (fun s =>
      (vfsLink s pathA.1 pathA.1).toOption.map Prod.fst) = some (some (-1)) := by decide +kernel
  obtain ⟨s, hs, hval⟩ := Option.map_eq_some_iff.1 hrun
  obtain ⟨⟨r, s'⟩, hcall, rfl⟩ := Option.map_eq_some_iff.1 hval
  have hr := reachable_of_runFrom hs
  rw [toOption_eq_some] at hcall
  exact ⟨s, s', hr, hcall, (failed_calls hr pathA).2.1 pathA s' hcall⟩

/-- A file has two names and is open under the first; the dentry of the second has left the table. A
`vfs_mkdir` over the second name fails and enters that dentry again. -/
theorem failed_mkdir_enters : ∃ s s' v x x', Reachable s ∧ vfsMkdir s pathB.1 = .ok (-1, s') ∧
    s.vinodes v = some x ∧ s'.vinodes v = some x' ∧ x'.ref ≠ x.ref := by
  have hrun : (runFrom blank [.open pathA (O_CREAT + O_RDWR), .link pathA pathB, .open pathB O_RDWR,
      .close 10]).map (fun s => ((vfsMkdir s pathB.1).toOption.map fun r =>
        (r.1, (r.2.vinodes 6).map Vinode.ref), (s.vinodes 6).map Vinode.ref)) =
      some (some (-1, some 2), some 1) := by decide +kernel
  obtain ⟨s, hs, hval⟩ := Option.map_eq_some_iff.1 hrun
  obtain ⟨hcall, hbefore⟩ := Prod.mk.inj hval
  obtain ⟨⟨r, s'⟩, hcall, hr⟩ := Option.map_eq_some_iff.1 hcall
  obtain ⟨rfl, hafter⟩ := Prod.mk.inj hr
  obtain ⟨x, hx, href⟩ := Option.map_eq_some_iff.1 hbefore
  obtain ⟨x', hx', href'⟩ := Option.map_eq_some_iff.1 hafter
  rw [toOption_eq_some] at hcall
  exact ⟨s, s', 6, x, x', reachable_of_runFrom hs, hcall, hx, hx', by rw [href, href']; decide⟩

end HustOS.Fs
