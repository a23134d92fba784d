import HustOS.Foundations.Traced
import HustOS.Fs.Run

/-!
# Paths through regular files

`rfs_lookup` takes the blocks of the vinode it is given for blocks of directory entries, whatever
the type of the vinode is. A path that goes on behind a regular file is therefore looked up in the
content of the file.

The lookup once more, as a computation that emits the inode of each entry it compares with a
component (`lookupFinalDentryC`): it stays in directories and ends with the path missing exactly
when the file is shorter than an entry (`searched_iff`). A component that no entry in the content
matches is missing (`component_regular`).
-/

namespace HustOS.Fs

open Foundations Traced

variable {s s' : State} {t p q d v u i j k o : ℕ} {e : Dentry} {x : Vinode} {n m : Name}
  {pre rest ns : List Name} {path : Path} {P : ℕ → Prop}

/-! ## How far a lookup gets -/

/-- The inner inodes of a walk that gets to its end are directories. -/
theorem Good.dirParents_of_walk {V : Vol} (h : Good V) (hw : walk V.dir ns i = some j) :
    DirParents (fun i => (V.node i).type = DIR_I) V.dir ns i := by
  induction ns generalizing i with
  | nil => trivial
  | cons n ns ih =>
    rw [walk] at hw
    obtain ⟨k, hf, hw⟩ := Option.bind_eq_some_iff.1 hw
    refine ⟨h.dir_of_mem (mem_of_dirFind hf), fun j' hj' => ?_⟩
    obtain rfl := Option.some.inj (hf.symm.trans hj')
    exact ih hw

/-- Where the first components lead to an inode, the lookup gets to a dentry of it and goes on with
the others from there. -/
theorem Inv.reach (h : Inv s) (hlen : path.1.length < MAX_PATH_LEN)
    (ht : pathTokens path.1 = ramdisk0 :: (pre ++ ns)) (hw : walk s.disk.entries pre 0 = some j) :
    ∃ s' t q e v x, Extends s s' ∧ Hashed s' t e v ∧ Cached s' j v x ∧
      lookupLoop (ramdisk0 :: pre) s.vfsRootDentry s.vfsRootDentry s = .ok (.found t q, s') ∧
      lookupFinalDentry s path.1 s.vfsRootDentry = lookupLoop ns t q s' := by
  obtain ⟨e, v, x, he, hpar, hname, hc⟩ := h.paths.mount
  have hkey : hashGetDentry s s.vfsRootDentry ramdisk0 = some s.sb.sRoot := by
    rw [hashGetDentry, ← hpar, ← hname]
    exact he.hash
  rw [h.walk_eq (by decide)] at hw
  have hvalid : ∀ n ∈ pre, n.Valid := fun n hn =>
    valid_of_mem_pathTokens hlen ht (List.mem_append_left _ hn)
  obtain ⟨r, s', hr, hext, hpost⟩ := lookupLoop_spec (o := s.vfsRootDentry) h he hc
    (h.good.dirParents_of_walk hw) hvalid
  rw [hw] at hpost
  obtain ⟨t, q, rfl, hend⟩ := hpost
  have hfirst : lookupLoop (ramdisk0 :: pre) s.vfsRootDentry s.vfsRootDentry s =
      .ok (.found t q, s') := by
    rw [lookupLoop, hkey]
    exact hr
  have hrest : lookupFinalDentry s path.1 s.vfsRootDentry = lookupLoop ns t q s' := by
    rw [lookupFinalDentry, if_neg (Nat.not_le.2 hlen), ht, ← List.cons_append,
      lookupLoop_append, hfirst]
    rfl
  rcases hend with ⟨-, rfl, rfl, -⟩ | ⟨-, e', v', x', d', he', hc', -⟩
  · obtain ⟨x', hc', -⟩ := hext.cached _ _ _ hc
    exact ⟨s', _, q, e, v, x', hext, hext.hashed _ _ _ he, hc', hfirst, hrest⟩
  · exact ⟨s', t, q, e', v', x', hext, he', hc', hfirst, hrest⟩

/-! ## A component behind a regular file -/

/-- The blocks of an inode in use can be read. -/
theorem Inv.readable (h : Inv s) (hc : Cached s i v x) : Readable x.toDinode := by
  have huse := h.paths.inUse i v x hc
  have hkind := h.good.kind i huse
  rw [h.node_eq hc] at hkind
  rcases hkind with hfile | hdir
  · intro k hk
    have hlt : k / oneBlockDirentrys < x.blocks := by
      have hsize := hfile.size_le
      simp only [direntrySize, oneBlockDirentrys, RFS_BLKSIZE, PGSIZE] at *
      omega
    have hmem : x.addrs (k / oneBlockDirentrys) ∈ (s.vol.node i).blks := by
      rw [h.node_eq hc]
      exact Dinode.mem_blks.2 ⟨_, hlt, rfl⟩
    exact ⟨hlt.trans_le hfile.blocks_le, (h.good.data _ (h.good.owned.mem i huse _ hmem)).lt_count⟩
  · exact hdir.readable

/-- Below a regular file there are no dentries. -/
theorem Inv.no_child (h : Inv s) (he : Hashed s p e v) (hc : Cached s i v x)
    (hreg : x.type = FILE_I) :
    hashGetDentry s p n = none := by
  by_contra hne
  obtain ⟨t, hk⟩ := Option.ne_none_iff_exists'.1 hne
  obtain ⟨e', v', j', x', -, -, -, -, hm⟩ := h.child he hc hk
  have hdir := h.good.dir_of_mem hm
  rw [h.node_eq hc, hreg] at hdir
  exact absurd hdir (by decide)

/-- A component that no entry in the content of a regular file matches. -/
theorem component_regular (h : Inv s) (he : Hashed s p e v) (hc : Cached s i v x)
    (hreg : x.type = FILE_I) (hn : n.Valid) (hf : dirFind (dirList s.disk x.toDinode) n = none) :
    ∃ buf, component s p n = .ok (none, { s with iobuffer := buf, pages := s.pages + 1 }) := by
  have hv : (dentryState s p n).vinodes v = some x := hc.vinode
  have hsb : viopSb (dentryState s p n) v = .ok () := by
    rw [viopSb, State.vinode_eq_ok.2 hv, ok_bind, (h.tables.inum_eq hc).2]
    rfl
  obtain ⟨buf, hfind, -⟩ := findLoop_dirList (s := dentryState s p n) hn (h.readable hc)
  have hlook : viopLookup (dentryState s p n) v n =
      .ok (none, { dentryState s p n with iobuffer := buf }) := by
    rw [viopLookup, hsb, ok_bind]
    unfold rfsLookup
    have hnone : dirIndex (dirList (dentryState s p n).disk x.toDinode) n = none :=
      dirFind_eq_none.1 hf
    simp only [State.vinode_eq_ok.2 hv, ok_bind, hfind, hnone, pure_eq_ok]
  refine ⟨buf, ?_⟩
  rw [component_of_none h he (h.no_child he hc hreg), hlook, ok_bind]
  exact congrArg (fun s' => Except.ok (none, s')) (h.freeDentry_dentryState buf)

/-! ## The lookup with its comparisons -/

/-- A computation of the file system that emits the inode of each entry it compares with a
component. -/
abbrev Comparing (α : Type) : Type := Traced ℕ Fault State α

/-- `findLoop` in the blocks of the inode `inum`. -/
def findLoopC (inum : ℕ) (x : Dinode) (name : Name) : ℕ → ℕ → Comparing (Option ℕ)
  | 0, _ => pure none
  | n + 1, i => do
    act fun s => readAtBoundary s x i
    tell inum
    let s ← Traced.get
    if s.iobuffer.strcmpEq (direntrySize * (i % oneBlockDirentrys) + 4) name then pure (some i)
    else findLoopC inum x name n (i + 1)

/-- `rfs_lookup`. -/
def rfsLookupC (parent : ℕ) (name : Name) : Comparing (Option ℕ) := do
  let p ← Traced.read (State.vinode · parent)
  let found ← findLoopC p.inum p.toDinode name (p.size / direntrySize) 0
  match found with
  | none => pure none
  | some i => do
    let s ← Traced.get
    let v ← Traced.lift (rfsNewVinode · (entry s.iobuffer (i % oneBlockDirentrys)).2)
    return some v

/-- `viop_lookup`. -/
def viopLookupC (v : ℕ) (name : Name) : Comparing (Option ℕ) := do
  Traced.read (viopSb · v)
  rfsLookupC v name

/-- `component`. -/
def componentC (parent : ℕ) (token : Name) : Comparing (Option ℕ) := do
  let s ← Traced.get
  match hashGetDentry s parent token with
  | some this => pure (some this)
  | none => do
    let this ← Traced.lift (allocVfsDentry · token none (some parent))
    let v ← Traced.read (State.dentryInode · parent)
    let foundVinode ← viopLookupC v token
    match foundVinode with
    | none => do
      act fun s => .ok (s.freeDentry this)
      return none
    | some v => do
      act (attachFound · this v)
      return some this

/-- The loop of `lookup_final_dentry`. -/
def lookupLoopC : List Name → ℕ → ℕ → Comparing Lookup
  | [], this, parent => pure (.found this parent)
  | token :: tokens, parent, _ => do
    let this ← componentC parent token
    match this with
    | none => pure (.missing parent token)
    | some this => lookupLoopC tokens this parent

/-- `lookup_final_dentry`. -/
def lookupFinalDentryC (path : List UInt8) (parent : ℕ) : Comparing Lookup :=
  if MAX_PATH_LEN ≤ path.length then Traced.fail (.undefined "path_copy")
  else lookupLoopC (pathTokens path) parent parent

/-! ## Without the comparisons -/

theorem snd_findLoopC (inum : ℕ) (y : Dinode) (name : Name) (k i : ℕ) (s : State) :
    (findLoopC inum y name k i s).2 = findLoop y name k i s := by
  induction k generalizing i s with
  | zero => rfl
  | succ k ih =>
    rw [findLoopC, findLoop]
    simp only [snd_bind, snd_act, snd_tell, snd_get, bind_assoc, ok_bind, pure_eq_ok]
    refine bind_congr fun s₁ => ?_
    rw [snd_ite]
    split
    · rfl
    · exact ih _ _

theorem snd_viopLookupC (v : ℕ) (name : Name) (s : State) :
    (viopLookupC v name s).2 = viopLookup s v name := by
  rw [viopLookupC, viopLookup]
  simp only [snd_bind, snd_read, bind_assoc, pure_eq_ok, ok_bind]
  refine bind_congr fun _ => ?_
  rw [rfsLookupC, rfsLookup]
  simp only [snd_bind, snd_read, snd_findLoopC, bind_assoc, pure_eq_ok, ok_bind]
  refine bind_congr fun y => bind_congr fun r => ?_
  cases r.1 with
  | none => rfl
  | some i => simp only [snd_bind, snd_get, snd_lift, snd_pure, ok_bind]

theorem snd_componentC (p : ℕ) (n : Name) (s : State) : (componentC p n s).2 = component s p n := by
  rw [componentC, component]
  simp only [snd_bind, snd_get, ok_bind]
  cases hashGetDentry s p n with
  | some t => rfl
  | none =>
    simp only [snd_bind, snd_lift, snd_read, snd_viopLookupC, bind_assoc, pure_eq_ok, ok_bind]
    refine bind_congr fun a => bind_congr fun v => bind_congr fun r => ?_
    cases r.1 with
    | none => rfl
    | some u => simp only [snd_bind, snd_act, snd_pure, bind_assoc, pure_eq_ok, ok_bind]

theorem snd_lookupLoopC (ns : List Name) (p o : ℕ) (s : State) :
    (lookupLoopC ns p o s).2 = lookupLoop ns p o s := by
  induction ns generalizing p o s with
  | nil => rfl
  | cons n ns ih =>
    rw [lookupLoopC, lookupLoop_cons, snd_bind, snd_componentC]
    refine bind_congr fun r => ?_
    cases r.1 with
    | none => rfl
    | some t => exact ih t p r.2

/-- Without the comparisons it is `lookup_final_dentry`. -/
theorem snd_lookupFinalDentryC (path : List UInt8) (p : ℕ) (s : State) :
    (lookupFinalDentryC path p s).2 = lookupFinalDentry s path p := by
  rw [lookupFinalDentryC, lookupFinalDentry, snd_ite]
  split
  · rfl
  · exact snd_lookupLoopC _ _ _ _

/-! ## What is compared -/

theorem emits_findLoopC {inum : ℕ} {y : Dinode} (hP : P inum) (b : ℕ) :
    Always P (findLoopC inum y n k b) := by
  induction k generalizing b with
  | zero => exact .pure _
  | succ k ih =>
    rw [findLoopC]
    refine .bind (.act _) fun _ => .bind (.tell hP) fun _ => .bind .get fun s => ?_
    exact .ite (.pure _) (ih (b + 1))

theorem emits_viopLookupC (hv : s.vinodes v = some x) (hsb : x.sb = .rfs) :
    Emits P (viopLookupC v n) s ↔
      Emits P (findLoopC x.inum x.toDinode n (x.size / direntrySize) 0) s := by
  have hviop : viopSb s v = .ok () := by
    rw [viopSb, State.vinode_eq_ok.2 hv, ok_bind, hsb]
    rfl
  have hread : ((Traced.read (State.vinode · v) : Comparing Vinode) s).2 = .ok (x, s) := by
    rw [snd_read, State.vinode_eq_ok.2 hv]
    rfl
  rw [viopLookupC, emits_bind_of_ok (by rw [snd_read, hviop]; rfl), rfsLookupC,
    emits_bind_of_ok hread, emits_bind]
  refine ⟨fun h => h.2.2.1, fun h => ⟨emits_read _ _, emits_read _ _, h, fun r s₁ _ => ?_⟩⟩
  cases r with
  | none => exact emits_pure _ _
  | some i => exact (Always.bind .get fun _ => .bind (.lift _) fun _ => .pure _) s₁

/-- A component that is in the table is compared with nothing. -/
theorem emits_componentC_of_hit (hk : hashGetDentry s p n = some t) :
    Emits P (componentC p n) s := by
  rw [componentC, emits_bind_of_ok (snd_get s), hk]
  exact ⟨emits_get s, emits_pure _ _⟩

section Component

variable (h : Inv s) (he : Hashed s p e v) (hc : Cached s i v x)

include h he hc

/-- A component that is not in the table is compared with entries of the parent. -/
theorem emits_componentC_iff (hk : hashGetDentry s p n = none) :
    Emits P (componentC p n) s ↔
      Emits P (findLoopC i x.toDinode n (x.size / direntrySize) 0) (dentryState s p n) := by
  have hv : (dentryState s p n).vinodes v = some x := hc.vinode
  obtain ⟨hi, hsb⟩ := h.tables.inum_eq hc
  have hinode : ((Traced.read (State.dentryInode · p) : Comparing ℕ) (dentryState s p n)).2 =
      .ok (v, dentryState s p n) := by
    rw [snd_read, h.dentryState_inode he]
    rfl
  have hrest : ∀ t r s₁, Emits P (match r with
      | none => do
        act fun s => .ok (s.freeDentry t)
        return none
      | some v => do
        act (attachFound · t v)
        return some t : Comparing (Option ℕ)) s₁ := by
    intro t r s₁
    cases r with
    | none => exact (Always.bind (.act _) fun _ => .pure _) s₁
    | some u => exact (Always.bind (.act _) fun _ => .pure _) s₁
  rw [componentC, emits_bind_of_ok (snd_get s), hk]
  dsimp only
  rw [emits_bind_of_ok (show _ = Except.ok (s.pages, dentryState s p n) from rfl),
    emits_bind_of_ok hinode, emits_bind, emits_viopLookupC hv hsb, hi]
  exact ⟨fun h => h.2.2.2.1, fun h => ⟨emits_get s, emits_lift _ _, emits_read _ _, h,
    fun r s₁ _ => hrest _ r s₁⟩⟩

theorem emits_componentC (hP : P i) : Emits P (componentC p n) s := by
  cases hk : hashGetDentry s p n with
  | some t => exact emits_componentC_of_hit hk
  | none => exact (emits_componentC_iff h he hc hk).2 (emits_findLoopC hP 0 _)

end Component

/-- Up to the inode that the first components lead to, only entries of directories are compared. -/
theorem emits_lookupLoopC (h : Inv s) (he : Hashed s p e v) (hc : Cached s i v x)
    (hn : ∀ n ∈ pre, n.Valid) (hP : ∀ i, (s.vol.node i).type = DIR_I → P i)
    (hw : walk s.vol.dir pre i = some j) (hr : lookupLoop pre p o s = .ok (.found t q, s')) :
    Emits P (lookupLoopC (pre ++ ns) p o) s ↔ Emits P (lookupLoopC ns t q) s' := by
  induction pre generalizing s p o e v i x with
  | nil =>
    obtain ⟨hfound, rfl⟩ := Prod.mk.inj (Except.ok.inj hr)
    cases hfound
    exact Iff.rfl
  | cons n pre ih =>
    rw [walk] at hw
    obtain ⟨k, hf, hw⟩ := Option.bind_eq_some_iff.1 hw
    have hdir := h.good.dir_of_mem (mem_of_dirFind hf)
    obtain ⟨t₁, s₁, e₁, v₁, x₁, hcomp, hext, he₁, hc₁, -, -⟩ :=
      component_found h he hc hdir (hn n List.mem_cons_self) hf
    have hvol := (hext.steps.quiet h).vol
    rw [lookupLoop_cons, hcomp] at hr
    rw [← hvol] at hw hP
    rw [List.cons_append, lookupLoopC, emits_bind_of_ok (by rw [snd_componentC, hcomp]),
      and_iff_right (emits_componentC h he hc (hP i (hvol ▸ hdir)))]
    exact ih (hext.steps.inv h) he₁ hc₁ (fun m hm => hn m (List.mem_cons_of_mem n hm)) hP hw hr

theorem Inv.emits_reach (h : Inv s) (hlen : path.1.length < MAX_PATH_LEN)
    (ht : pathTokens path.1 = ramdisk0 :: (pre ++ ns)) (hw : walk s.disk.entries pre 0 = some j)
    (hP : ∀ i, (s.vol.node i).type = DIR_I → P i)
    (hr : lookupLoop (ramdisk0 :: pre) s.vfsRootDentry s.vfsRootDentry s = .ok (.found t q, s')) :
    Emits P (lookupFinalDentryC path.1 s.vfsRootDentry) s ↔ Emits P (lookupLoopC ns t q) s' := by
  obtain ⟨e, v, x, he, hpar, hname, hc⟩ := h.paths.mount
  have hkey : hashGetDentry s s.vfsRootDentry ramdisk0 = some s.sb.sRoot := by
    rw [hashGetDentry, ← hpar, ← hname]
    exact he.hash
  have hcomp : (componentC s.vfsRootDentry ramdisk0 s).2 = .ok (some s.sb.sRoot, s) := by
    rw [snd_componentC, component, hkey]
  rw [h.walk_eq (by decide)] at hw
  rw [lookupLoop, hkey] at hr
  rw [lookupFinalDentryC, if_neg (Nat.not_le.2 hlen), ht, lookupLoopC,
    emits_bind_of_ok hcomp, and_iff_right (emits_componentC_of_hit hkey)]
  exact emits_lookupLoopC h he hc
    (fun n hn => valid_of_mem_pathTokens hlen ht (List.mem_append_left _ hn)) hP hw hr

/-! ## Creation in a regular file -/

/-- `rfs_add_direntry` adds nothing to a regular file. -/
theorem rfsAddDirentry_regular (hv : s.vinodes v = some x) (hx : x.type ≠ DIR_I) :
    Sat (rfsAddDirentry s v n k) (fun r => r = (-1, s)) fun _ => True := by
  rw [rfsAddDirentry, State.vinode_eq_ok.2 hv, ok_bind]
  simp only [hx, ne_eq, not_false_eq_true, if_true]
  rfl

/-- `rfs_create` returns no inode, though it has written one. -/
theorem rfsCreate_regular (hv : s.vinodes v = some x) (hx : x.type ≠ DIR_I) (hpage : v ≠ s.pages) :
    Sat (rfsCreate s v n) (fun r => r.1 = none) fun _ => True := by
  unfold rfsCreate
  rw [State.vinode_eq_ok.2 hv, ok_bind]
  refine Sat.bind ((freeInodeLoop_sat (by omega)).mono' fun _ _ => trivial) ?_
  rintro _ ⟨i, buf, -, hi, -, rfl⟩
  refine Sat.bind (rfsAllocBlock_sat.mono' fun _ _ => trivial) ?_
  rintro _ ⟨k, -, -, rfl⟩
  have hlt : i < ninodes := by omega
  refine Sat.bind ((rfsWriteDinode_sat hlt).mono' fun _ _ => trivial) ?_
  rintro _ ⟨dk, buf', rfl⟩
  refine Sat.bind ((rfsNewVinode_sat hlt).mono' fun _ _ => trivial) ?_
  rintro _ ⟨z, buf'', rfl⟩
  refine Sat.bind (rfsAddDirentry_regular ((Function.update_of_ne hpage _ _).trans hv) hx) ?_
  rintro _ rfl
  rfl

/-- `rfs_mkdir` returns no inode either, with a block taken for the one it has written. -/
theorem rfsMkdir_regular (hv : s.vinodes v = some x) (hx : x.type ≠ DIR_I) :
    Sat (rfsMkdir s v n)
      (fun r => ∃ i k buf, Fresh s i k ∧ r = (none,
        { s with
          disk := s.disk.setDinode i (madeNode R_DIR 1 (s.disk.dinode i) (RFS_BLK_OFFSET_FREE + k))
          iobuffer := buf
          freemap := Function.update s.freemap k 1 })) fun _ => True := by
  unfold rfsMkdir
  rw [State.vinode_eq_ok.2 hv, ok_bind]
  refine Sat.bind ((freeInodeLoop_sat (by omega)).mono' fun _ _ => trivial) ?_
  rintro _ ⟨i, buf, -, hi, hfree, rfl⟩
  refine Sat.bind (rfsAllocBlock_sat.mono' fun _ _ => trivial) ?_
  rintro _ ⟨k, hk, hk0, rfl⟩
  have hlt : i < ninodes := by omega
  dsimp only
  obtain ⟨buf', hwrite⟩ := rfsWriteDinode_eq (s := { s with
      iobuffer := buf, freemap := Function.update s.freemap k 1 })
    (x := madeNode R_DIR 1 (s.disk.dinode i) (RFS_BLK_OFFSET_FREE + k)) hlt
  change Sat (rfsWriteDinode _ (madeNode R_DIR 1 _ _) i >>= _) _ _
  rw [hwrite, ok_bind]
  refine Sat.bind (rfsAddDirentry_regular hv hx) ?_
  rintro _ rfl
  exact ⟨i, k, buf', ⟨hlt, hfree, hk, hk0⟩, rfl⟩

theorem createFile_regular (h : Inv s) (he : Hashed s t e v) (hc : Cached s i v x)
    (hx : x.type ≠ DIR_I) (path : List UInt8) :
    Sat (createFile s path t n) (fun r => r.1 = none) fun _ => True := by
  unfold createFile
  refine Sat.bind (P := fun _ => True) ?_ fun basename _ => ?_
  · cases getBaseName path <;> trivial
  split
  · rfl
  have hv : (dentryState s t basename).vinodes v = some x := hc.vinode
  have hne : v ≠ (dentryState s t basename).pages :=
    ((h.tables.page_lt_vinode hc.vinode).trans (Nat.lt_succ_self _)).ne
  have hcreate : Sat (viopCreate (dentryState s t basename) v basename) (fun r => r.1 = none)
      fun _ => True := by
    have hsb : viopSb (dentryState s t basename) v = .ok () := by
      rw [viopSb, State.vinode_eq_ok.2 hv, ok_bind, (h.tables.inum_eq hc).2]
      rfl
    rw [viopCreate, hsb, ok_bind]
    exact rfsCreate_regular hv hx hne
  simp only [allocVfsDentry_eq, ok_bind, h.dentryState_inode he]
  refine Sat.bind hcreate ?_
  rintro ⟨r, s₁⟩ hr
  dsimp only at hr
  subst hr
  trivial

/-! ## Only directories are searched -/

/-- The lookup of the path compares entries of directories only and ends with the path missing, so
that `vfs_open`, `vfs_unlink` and `vfs_link` get no inode from it. -/
structure OnlyDirectories (s : State) (path : Path) : Prop where
  searched : Emits s.disk.IsDirectory (lookupFinalDentryC path.1 s.vfsRootDentry) s
  missing : ∃ p n s', lookupFinalDentry s path.1 s.vfsRootDentry = .ok (.missing p n, s')
  opened : ∀ flags f s', vfsOpen s path.1 flags ≠ .ok (some f, s')
  unlinked : ∃ s', vfsUnlink s path.1 = .ok (-1, s')
  linked : ∀ newpath, ∃ s', vfsLink s path.1 newpath = .ok (-1, s')

/-- The vinode of an inode at the end of quiet steps. -/
theorem Extends.node_eq (hext : Extends s s') (h : Inv s) (hc : Cached s' j v x) :
    s.node j = x.toDinode ∧ (s.disk.dinode j).type = x.type := by
  have h' := hext.steps.inv h
  have hvol := (hext.steps.quiet h).vol
  have hnode : s.node j = x.toDinode :=
    (congrFun (congrArg Vol.node hvol) j).symm.trans (h'.node_eq hc)
  exact ⟨hnode, (h.disk_dir (h'.lt hc)).1.trans (congrArg Dinode.type hnode)⟩

section Regular

variable (h : Inv s) (ht : pathTokens path.1 = ramdisk0 :: (pre ++ n :: rest))
  (hw : walk s.disk.entries pre 0 = some j) (hj : (s.disk.dinode j).type = FILE_I)

include h ht hw hj

/-- A path is missing behind a regular file whose content has no entry for the component. -/
theorem Inv.missing_regular (hlen : path.1.length < MAX_PATH_LEN)
    (hf : dirFind (dirList s.disk (s.node j)) n = none) :
    ∃ s' t e v x, Extends s s' ∧ Hashed s' t e v ∧ Cached s' j v x ∧ x.type = FILE_I ∧
      lookupFinalDentry s path.1 s.vfsRootDentry = .ok (.missing t n, s') := by
  obtain ⟨s', t, q, e, v, x, hext, he, hc, -, hlook⟩ := h.reach hlen ht hw
  obtain ⟨hnode, htype⟩ := hext.node_eq h hc
  have hvalid : n.Valid := valid_of_mem_pathTokens hlen ht (by simp)
  rw [hnode, ← (hext.steps.quiet h).disk] at hf
  obtain ⟨buf, hcomp⟩ := component_regular (hext.steps.inv h) he hc (htype.symm.trans hj) hvalid hf
  have hscratch := Extends.scratch s' buf (Nat.le_succ s'.pages)
  refine ⟨_, t, e, v, x, hext.trans hscratch, ⟨he.dentry, he.hash, he.inode⟩, ⟨hc.hash, hc.vinode⟩,
    htype.symm.trans hj, ?_⟩
  rw [hlook, lookupLoop_cons, hcomp]
  rfl

/-- The lookup stays in directories when the file is shorter than an entry. -/
theorem Inv.searched_iff (hlen : path.1.length < MAX_PATH_LEN) :
    Emits s.disk.IsDirectory (lookupFinalDentryC path.1 s.vfsRootDentry) s ↔
      ¬ direntrySize ≤ (s.node j).size := by
  obtain ⟨s', t, q, e, v, x, hext, he, hc, hr, -⟩ := h.reach hlen ht hw
  have h' := hext.steps.inv h
  obtain ⟨hnode, htype⟩ := hext.node_eq h hc
  have hreg : x.type = FILE_I := htype.symm.trans hj
  have hdirs : ∀ i, (s.vol.node i).type = DIR_I → s.disk.IsDirectory i := fun i hi =>
    (h.disk_dir (h.good.lt i (dir_type_ne hi))).1.trans hi
  have hvalid : n.Valid := valid_of_mem_pathTokens hlen ht (by simp)
  rw [h.emits_reach hlen ht hw hdirs hr, lookupLoopC, emits_bind,
    emits_componentC_iff h' he hc (h'.no_child he hc hreg), hnode]
  constructor
  · -- the first comparison is with an entry of the file
    rintro ⟨hemits, -⟩ hsize
    have hpos : 0 < x.size / direntrySize := Nat.div_pos hsize (by decide)
    obtain ⟨k, hk⟩ : ∃ k, x.size / direntrySize = k + 1 := ⟨_, (Nat.succ_pred_eq_of_pos hpos).symm⟩
    have hblock : x.addrs 0 < RAMDISK_BLOCK_COUNT := by
      simpa only [Nat.zero_div] using (h'.readable hc 0 hpos).2
    have hread :
        ((act fun s => readAtBoundary s x.toDinode 0 : Comparing Unit) (dentryState s' t n)).2 =
        .ok ((), { dentryState s' t n with iobuffer := s'.disk (x.addrs 0) }) := by
      rw [snd_act, readAtBoundary, if_pos (Nat.zero_mod _), Nat.zero_div,
        addr_eq (show 0 < RFS_DIRECT_BLKNUM by decide), ok_bind, rfsR1block_eq hblock]
      rfl
    rw [hk, findLoopC, emits_bind_of_ok hread, emits_bind_of_ok (snd_tell _ _)] at hemits
    have hdir : s.disk.IsDirectory j := (emits_tell _ _).1 hemits.2.1
    rw [Disk.IsDirectory, hj] at hdir
    exact absurd hdir (by decide)
  · intro hsize
    have hzero : x.size / direntrySize = 0 := Nat.div_eq_of_lt (Nat.not_le.1 hsize)
    have hnil : dirList s'.disk x.toDinode = [] := by
      rw [dirList, hzero]
      rfl
    obtain ⟨buf, hcomp⟩ := component_regular h' he hc hreg hvalid (by rw [hnil]; rfl)
    rw [hzero]
    refine ⟨fun _ ho => absurd ho List.not_mem_nil, fun a s₁ ha => ?_⟩
    rw [snd_componentC, hcomp] at ha
    obtain ⟨rfl, -⟩ := Prod.mk.inj (Except.ok.inj ha)
    exact emits_pure _ _

/-- A file shorter than an entry has none. -/
theorem Inv.only_directories (hlen : path.1.length < MAX_PATH_LEN)
    (hsize : (s.node j).size < direntrySize) : OnlyDirectories s path := by
  have hnil : dirList s.disk (s.node j) = [] := by
    rw [dirList, Nat.div_eq_of_lt hsize]
    rfl
  obtain ⟨s', t, e, v, x, hext, he, hc, htype, hlook⟩ :=
    h.missing_regular ht hw hj hlen (by rw [hnil]; rfl)
  have hfile : x.type ≠ DIR_I := by
    rw [htype]
    decide
  refine ⟨?_, ⟨t, n, s', hlook⟩, fun flags f s'' hopen => ?_, ⟨s', ?_⟩, fun newpath => ⟨s', ?_⟩⟩
  · rw [h.searched_iff ht hw hj hlen]
    intro hle
    omega
  · rw [vfsOpen, hlook, ok_bind] at hopen
    dsimp only at hopen
    split at hopen
    · cases hopen
    · have hcreate := createFile_regular (n := n) (hext.steps.inv h) he hc hfile path.1
      cases hrun : createFile s' path.1 t n with
      | error e =>
        rw [hrun] at hopen
        cases hopen
      | ok r =>
        obtain ⟨r, s₁⟩ := r
        rw [hrun] at hopen hcreate
        obtain rfl : r = none := hcreate
        cases hopen
  · rw [vfsUnlink, hlook]
    rfl
  · rw [vfsLink, hlook]
    rfl

end Regular

/-- **Only directories are searched** on the way of a path that goes on behind a regular file
exactly when the path fits the buffer of the lookup and the file is shorter than an entry. -/
theorem only_directories_iff (h : Reachable s)
    (ht : pathTokens path.1 = ramdisk0 :: (pre ++ n :: rest))
    (hw : walk s.disk.entries pre 0 = some j) (hj : (s.disk.dinode j).type = FILE_I) :
    OnlyDirectories s path ↔
      path.1.length < MAX_PATH_LEN ∧ (s.node j).size < direntrySize := by
  constructor
  · intro honly
    have hlen : path.1.length < MAX_PATH_LEN := by
      by_contra hlen
      obtain ⟨p, n, s', hlook⟩ := honly.missing
      rw [lookupFinalDentry, if_pos (Nat.not_lt.1 hlen)] at hlook
      cases hlook
    exact ⟨hlen, Nat.not_le.1 ((h.inv.searched_iff ht hw hj hlen).1 honly.searched)⟩
  · rintro ⟨hlen, hsize⟩
    exact h.inv.only_directories ht hw hj hlen hsize

/-- `"/RAMDISK0/a/b"`. -/
def pathAB : Path := ⟨[47, 82, 65, 77, 68, 73, 83, 75, 48, 47, 97, 47, 98], by decide⟩

/-- Behind an empty file. -/
theorem only_directories_iff_empty : ∃ s, Reachable s ∧ OnlyDirectories s pathAB := by
  have hrun : (runFrom blank [.open pathA O_CREAT]).map (fun s =>
      (walk s.disk.entries [[97]] 0, (s.disk.dinode 1).type, (s.node 1).size)) =
      some (some 1, FILE_I, 0) := by decide +kernel
  obtain ⟨s, hs, hval⟩ := Option.map_eq_some_iff.1 hrun
  simp only [Prod.mk.injEq] at hval
  obtain ⟨hw, htype, hsize⟩ := hval
  have hr := reachable_of_runFrom hs
  have ht : pathTokens pathAB.1 = ramdisk0 :: ([[97]] ++ [98] :: []) := by decide
  exact ⟨s, hr, (only_directories_iff hr ht hw htype).2 ⟨by decide, by rw [hsize]; decide⟩⟩

/-- A directory entry with the name `"b"` for the inode 0, as the bytes of a file. -/
def entryB : Buf := fun i => if i = 4 then 98 else 0

/-- The bytes of the file `a` give the file `a/b`, which is the root directory. -/
theorem only_directories_written : ∃ s n rest, Reachable s ∧
    pathTokens pathAB.1 = ramdisk0 :: ([[97]] ++ n :: rest) ∧
    walk s.disk.entries [[97]] 0 = some 1 ∧ (s.disk.dinode 1).type = FILE_I ∧
    ¬ OnlyDirectories s pathAB := by
  have hrun : (runFrom blank [.open pathA (O_CREAT + O_RDWR), .write 7 entryB 32]).map (fun s =>
      (walk s.disk.entries [[97]] 0, (s.disk.dinode 1).type,
        match lookupFinalDentry s pathAB.1 s.vfsRootDentry with
        | .ok (.found t _, s') => (s'.dentryInode t).toOption.bind fun v =>
          (s'.vinodes v).map Vinode.inum
        | _ => none)) =
      some (some 1, FILE_I, some 0) := by decide +kernel
  obtain ⟨s, hs, hval⟩ := Option.map_eq_some_iff.1 hrun
  simp only [Prod.mk.injEq] at hval
  obtain ⟨hw, htype, hfound⟩ := hval
  refine ⟨s, [98], [], reachable_of_runFrom hs, by decide, hw, htype, fun honly => ?_⟩
  obtain ⟨p, n, s', hlook⟩ := honly.missing
  rw [hlook] at hfound
  cases hfound

end HustOS.Fs
