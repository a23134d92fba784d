import HustOS.Fs.Vfs

/-!
# What the file system leaves alone

The functions of RFS and of the tables change vinodes in a few ways only: they build new ones in new
pages, change members of one they have read, and free one they have built or one of a file. A
property of the state that allows this (`Frame`) is kept by all of them (`Preserves`), so what one
operation after the other leaves alone is found by checking the five rules of `Frame`.
-/

namespace HustOS.Fs

open Foundations

variable {R : State → Prop} {s s' s₁ : State} {α β : Type} {n t v : ℕ}

/-- A property of the state that survives what the file system does to everything but the vinodes
and the open files, and to vinodes: new ones in the pages from `n` on, other members than the type
and the directory cache, and freeing one of a file. What was read of a vinode earlier counts as
well. -/
structure Frame (n : ℕ) (R : State → Prop) : Prop where
  pages : ∀ {s}, R s → n ≤ s.pages
  other : ∀ {s s'}, R s → s'.vinodes = s.vinodes → s'.files = s.files → s.pages ≤ s'.pages → R s'
  fresh : ∀ {s v} (o : Option Vinode), R s → n ≤ v →
    R { s with vinodes := Function.update s.vinodes v o }
  member : ∀ {s s₁ v x x'}, R s → R s₁ → s₁.vinode v = .ok x → x'.type = x.type →
    x'.iFsInfo = x.iFsInfo → R (s.setVinode v x')
  free : ∀ {s s₁ v x}, R s → R s₁ → s₁.vinode v = .ok x → x.type = FILE_I → R (s.freeVinode v)

/-- The same for a property that may depend on the dentries and their table, which RFS does not
touch. -/
structure RfsFrame (n : ℕ) (R : State → Prop) : Prop where
  pages : ∀ {s}, R s → n ≤ s.pages
  other : ∀ {s s'}, R s → s'.vinodes = s.vinodes → s'.files = s.files → s'.dentries = s.dentries →
    s'.dentryHashTable = s.dentryHashTable → s'.vfsRootDentry = s.vfsRootDentry →
    s.pages ≤ s'.pages → R s'
  fresh : ∀ {s v} (o : Option Vinode), R s → n ≤ v →
    R { s with vinodes := Function.update s.vinodes v o }
  member : ∀ {s s₁ v x x'}, R s → R s₁ → s₁.vinode v = .ok x → x'.type = x.type →
    x'.iFsInfo = x.iFsInfo → R (s.setVinode v x')
  free : ∀ {s s₁ v x}, R s → R s₁ → s₁.vinode v = .ok x → x.type = FILE_I → R (s.freeVinode v)

theorem Frame.rfs (F : Frame n R) : RfsFrame n R :=
  ⟨F.pages, fun hs hv hf _ _ _ hp => F.other hs hv hf hp, F.fresh, F.member, F.free⟩

/-- The state a computation returns, if it returns, has the property. -/
def Preserves (R : State → Prop) (st : α → State) (m : Except Fault α) : Prop :=
  Sat m (fun a => R (st a)) fun _ => True

namespace Preserves

variable {st : α → State} {st' : β → State} {m m' : Except Fault α} {k : α → Except Fault β}

theorem bind (hm : Preserves R st m) (hk : ∀ a, R (st a) → Preserves R st' (k a)) :
    Preserves R st' (m >>= k) :=
  Sat.bind hm hk

/-- A computation that returns no state. -/
theorem read (hk : ∀ a, m = .ok a → Preserves R st' (k a)) : Preserves R st' (m >>= k) := by
  cases m with
  | error e => exact trivial
  | ok a => exact hk a rfl

theorem error (e : Fault) : Preserves R st (Except.error e : Except Fault α) := trivial

theorem ite {c : Prop} [Decidable c] (hm : Preserves R st m) (hm' : Preserves R st m') :
    Preserves R st (if c then m else m') := by
  split
  · exact hm
  · exact hm'

theorem of_ok {a : α} (h : Preserves R st m) (hm : m = .ok a) : R (st a) := by
  subst hm
  exact h

end Preserves

namespace RfsFrame

variable (F : RfsFrame n R) (hs : R s)

include F hs

theorem page : R s.allocPage.2 := F.other hs rfl rfl rfl rfl rfl (Nat.le_succ _)

/-! ## RFS -/

theorem ramdiskRead (b : ℕ) : Preserves R id (ramdiskRead s b) := by
  rw [Fs.ramdiskRead]
  exact .ite (.error _) (F.other hs rfl rfl rfl rfl rfl (Nat.le_refl _))

theorem ramdiskWrite (b : ℕ) : Preserves R id (ramdiskWrite s b) := by
  rw [Fs.ramdiskWrite]
  exact .ite (.error _) (F.other hs rfl rfl rfl rfl rfl (Nat.le_refl _))

/-- The buffer of the device is written to a block. -/
theorem writeBuffer (buf : Buf) (b : ℕ) :
    Preserves R id (Fs.ramdiskWrite { s with iobuffer := buf } b) := by
  have hbuf : R { s with iobuffer := buf } := F.other hs rfl rfl rfl rfl rfl (Nat.le_refl _)
  exact F.ramdiskWrite hbuf b

theorem rfsReadDinode (i : ℕ) : Preserves R Prod.snd (rfsReadDinode s i) := by
  rw [Fs.rfsReadDinode]
  exact (F.ramdiskRead hs _).bind fun s₁ h₁ => h₁

theorem rfsWriteDinode (x : Dinode) (i : ℕ) : Preserves R id (rfsWriteDinode s x i) := by
  rw [Fs.rfsWriteDinode]
  exact (F.ramdiskRead hs _).bind fun s₁ h₁ => F.writeBuffer h₁ _ _

theorem rfsAllocBlock : Preserves R Prod.snd (rfsAllocBlock s) := by
  rw [Fs.rfsAllocBlock]
  split
  · exact F.other hs rfl rfl rfl rfl rfl (Nat.le_refl _)
  · exact .error _

theorem rfsFreeBlock (b : ℕ) : Preserves R id (rfsFreeBlock s b) := by
  rw [Fs.rfsFreeBlock]
  exact .ite (.error _) (F.other hs rfl rfl rfl rfl rfl (Nat.le_refl _))

theorem rfsWriteBackVinode (v : ℕ) : Preserves R id (rfsWriteBackVinode s v) := by
  rw [Fs.rfsWriteBackVinode]
  exact .read fun x _ => F.rfsWriteDinode hs _ _

theorem rfsUpdateVinode (hv : n ≤ v) : Preserves R id (rfsUpdateVinode s v) := by
  rw [Fs.rfsUpdateVinode]
  exact .read fun y _ => (F.rfsReadDinode hs _).bind fun a h₂ => F.fresh _ h₂ hv

/-- A new vinode is in a new page. -/
theorem rfsNewVinode (i : ℕ) : Sat (rfsNewVinode s i) (fun a => n ≤ a.1 ∧ R a.2) fun _ => True := by
  have hle : n ≤ s.pages := F.pages hs
  rw [Fs.rfsNewVinode]
  unfold rfsAllocVinode
  refine Sat.bind (P := fun _ => True) ?_ fun x _ => ?_
  · cases State.vinode _ _ <;> trivial
  refine Sat.bind (P := R) ?_ fun s₁ h₁ => ⟨hle, h₁⟩
  refine F.rfsUpdateVinode ?_ hle
  exact F.fresh _ (F.fresh _ (F.page hs) hle) hle

theorem rfsAddDirentry (dir : ℕ) (name : Name) (inum : ℕ) :
    Preserves R Prod.snd (rfsAddDirentry s dir name inum) := by
  rw [Fs.rfsAddDirentry]
  refine .read fun x hx => .ite hs (.read fun b _ => (F.ramdiskRead hs b).bind fun s₁ h₁ => ?_)
  refine .ite (.error _) (.bind (F.writeBuffer h₁ _ b) fun s₂ h₂ => ?_)
  have h₃ : R (s₂.setVinode dir { x with size := x.size + direntrySize }) :=
    F.member h₂ hs hx rfl rfl
  exact (F.rfsWriteBackVinode h₃ dir).bind fun s₃ h₄ => h₄

omit hs in
theorem freeInodeLoop (m i : ℕ) (hs : R s) : Preserves R Prod.snd (freeInodeLoop m i s) := by
  induction m generalizing i s with
  | zero => exact .error _
  | succ m ih =>
    rw [Fs.freeInodeLoop]
    exact (F.rfsReadDinode hs i).bind fun a h₁ => .ite h₁ (ih _ h₁)

theorem rfsCreate (parent : ℕ) (name : Name) : Preserves R Prod.snd (rfsCreate s parent name) := by
  rw [Fs.rfsCreate]
  refine .read fun _ _ => (F.freeInodeLoop _ _ hs).bind fun a h₁ => ?_
  refine (F.rfsAllocBlock h₁).bind fun b h₂ => ?_
  refine (F.rfsWriteDinode h₂ _ _).bind fun s₃ h₃ => ?_
  refine Sat.bind (F.rfsNewVinode h₃ _) fun c h₄ => ?_
  exact (F.rfsAddDirentry h₄.2 _ _ _).bind fun q h₅ => .ite h₅ h₅

theorem rfsMkdir (parent : ℕ) (name : Name) : Preserves R Prod.snd (rfsMkdir s parent name) := by
  rw [Fs.rfsMkdir]
  refine .read fun _ _ => (F.freeInodeLoop _ _ hs).bind fun a h₁ => ?_
  refine (F.rfsAllocBlock h₁).bind fun b h₂ => ?_
  refine (F.rfsWriteDinode h₂ _ _).bind fun s₃ h₃ => ?_
  refine (F.rfsAddDirentry h₃ _ _ _).bind fun q h₄ => .ite h₄ ?_
  exact Sat.bind (F.rfsNewVinode h₄ _) fun c h₅ => h₅.2

theorem rfsLink (parent : ℕ) (name : Name) (linkNode : ℕ) :
    Preserves R Prod.snd (rfsLink s parent name linkNode) := by
  rw [Fs.rfsLink]
  refine .read fun l hl => ?_
  have h₁ : R (s.setVinode linkNode { l with nlinks := l.nlinks + 1 }) := F.member hs hs hl rfl rfl
  refine (F.rfsAddDirentry h₁ _ _ _).bind fun a h₂ => ?_
  exact (F.rfsWriteBackVinode h₂ _).bind fun s₃ h₃ => h₃

omit hs in
theorem findLoop (x : Dinode) (name : Name) (m i : ℕ) (hs : R s) :
    Preserves R Prod.snd (findLoop x name m i s) := by
  induction m generalizing i s with
  | zero => exact hs
  | succ m ih =>
    rw [Fs.findLoop]
    have hread : Preserves R id (readAtBoundary s x i) := by
      rw [readAtBoundary]
      exact .ite (.read fun b _ => F.ramdiskRead hs b) hs
    exact hread.bind fun s₁ h₁ => .ite h₁ (ih _ h₁)

/-- The vinode a lookup builds is a new one. -/
theorem rfsLookup (parent : ℕ) (name : Name) :
    Sat (rfsLookup s parent name) (fun a => (∀ w ∈ a.1, n ≤ w) ∧ R a.2) fun _ => True := by
  rw [Fs.rfsLookup]
  refine Sat.bind (P := fun _ => True) (by cases s.vinode parent <;> trivial) fun p _ => ?_
  refine Sat.bind (F.findLoop _ _ _ _ hs) ?_
  rintro ⟨found, s₁⟩ h₁
  cases found with
  | none => exact ⟨nofun, h₁⟩
  | some i =>
    refine Sat.bind (F.rfsNewVinode h₁ _) fun a h₂ => ⟨?_, h₂.2⟩
    rintro w ⟨⟩
    exact h₂.1

omit hs in
theorem rfsFreeBlocks (bs : List ℕ) (hs : R s) : Preserves R id (rfsFreeBlocks bs s) := by
  induction bs generalizing s with
  | nil => exact hs
  | cons b bs ih =>
    rw [Fs.rfsFreeBlocks]
    exact (F.rfsFreeBlock hs b).bind fun s₁ h₁ => ih h₁

omit hs in
theorem shiftLoop (p : Dinode) (m i : ℕ) (block : Buf) (hs : R s) :
    Preserves R Prod.snd (shiftLoop p m i block s) := by
  induction m generalizing i block s with
  | zero => exact hs
  | succ m ih =>
    rw [Fs.shiftLoop]
    refine .read fun b _ => (F.ramdiskRead hs b).bind fun s₁ h₁ => .read fun c _ => ?_
    exact .bind (F.writeBuffer h₁ _ c) fun s₂ h₂ => ih _ _ h₂

theorem removeDirentry (parent k : ℕ) : Preserves R Prod.snd (removeDirentry s parent k) := by
  rw [Fs.removeDirentry]
  refine .read fun p hp => .read fun b _ => (F.ramdiskRead hs b).bind fun s₁ h₁ => ?_
  refine (F.shiftLoop _ _ _ _ h₁).bind fun a h₂ => .ite (.error _) (.read fun c _ => ?_)
  refine .bind (F.writeBuffer h₂ _ c) fun s₃ h₃ => ?_
  have hfree : Preserves R Prod.snd
      (freeEmptyBlock s₃ p.toDinode (p.size / direntrySize - 1) c) := by
    rw [freeEmptyBlock]
    exact .ite ((F.rfsFreeBlock h₃ c).bind fun s₄ h₄ => h₄) h₃
  refine hfree.bind fun q h₄ => ?_
  have h₅ : R (q.2.setVinode parent { p with size := p.size - direntrySize, blocks := q.1 }) :=
    F.member h₄ hs hp rfl rfl
  exact (F.rfsWriteBackVinode h₅ parent).bind fun s₅ h₆ => h₆

theorem dropLink (inum u : ℕ) : Preserves R id (dropLink s inum u) := by
  rw [Fs.dropLink]
  refine (F.rfsReadDinode hs inum).bind fun a h₁ => .read fun x hx => ?_
  have h₂ : ∀ m, R (a.2.setVinode u { x with nlinks := m }) := fun m => F.member h₁ h₁ hx rfl rfl
  generalize (x.nlinks + (2 ^ 32 - 1)) % 2 ^ 32 = m
  refine .ite (.error _) (.ite (.ite (.error _) ?_) ?_)
  · exact .bind (F.rfsFreeBlocks _ (h₂ m)) fun s₂ h₃ => F.rfsWriteDinode h₃ _ _
  · exact F.rfsWriteDinode (h₂ m) _ _

theorem rfsUnlink (parent : ℕ) (name : Name) (u : ℕ) :
    Preserves R Prod.snd (rfsUnlink s parent name u) := by
  rw [Fs.rfsUnlink]
  refine .read fun p _ => (F.findLoop _ _ _ _ hs).bind fun a h₁ => .ite (.error _) ?_
  obtain ⟨found, s₁⟩ := a
  cases found with
  | none => exact h₁
  | some k => exact (F.dropLink h₁ _ _).bind fun s₂ h₂ => F.removeDirentry h₂ _ _

omit hs in
theorem opendirLoop (x : Dinode) (m : ℕ) (previous : Option ℕ) (cache : Buf) (hs : R s) :
    Preserves R Prod.snd (opendirLoop x m previous cache s) := by
  induction m generalizing previous cache s with
  | zero => exact hs
  | succ m ih =>
    rw [Fs.opendirLoop]
    refine .ite (.error _) (.read fun b _ => ?_)
    exact (F.ramdiskRead (F.page hs) b).bind fun s₁ h₁ => ih _ _ h₁

/-! ## Writing -/

theorem growTo (v k : ℕ) : Preserves R id (growTo s v k) := by
  rw [Fs.growTo]
  refine .read fun x hx => .ite ?_ hs
  exact (F.rfsAllocBlock hs).bind fun a h₁ => .ite (.error _) (F.member h₁ hs hx rfl rfl)

theorem writeBlock (v k : ℕ) (buf : Buf) (off m : ℕ) :
    Preserves R id (writeBlock s v k buf off m) := by
  rw [Fs.writeBlock]
  refine (F.growTo hs v k).bind fun s₁ h₁ => .read fun x _ => .read fun b _ => ?_
  exact F.writeBuffer h₁ _ b

omit hs in
theorem writeLoop (v : ℕ) (buf : Buf) (m off k : ℕ) (hs : R s) :
    Preserves R Prod.snd (writeLoop v buf m off k s) := by
  induction m generalizing off k s with
  | zero => exact hs
  | succ m ih =>
    rw [Fs.writeLoop]
    exact (F.writeBlock hs _ _ _ _ _).bind fun s₁ h₁ => ih _ _ h₁

theorem writeFirst (v : ℕ) (buf : Buf) (len off : ℕ) :
    Preserves R Prod.snd (writeFirst s v buf len off) := by
  rw [Fs.writeFirst]
  refine .ite (.bind ?_ fun s₁ (h₁ : R (id s₁)) => h₁) hs
  rw [writeInside]
  refine .read fun x _ => .read fun b _ => (F.ramdiskRead hs b).bind fun s₁ h₁ => ?_
  exact F.writeBuffer h₁ _ b

theorem writeRest (v : ℕ) (buf : Buf) (pos : WritePos) (remain : ℕ) :
    Preserves R id (writeRest s v buf pos remain) := by
  rw [Fs.writeRest]
  refine .ite ?_ hs
  exact (F.writeLoop _ _ _ _ _ hs).bind fun a h₁ => .ite (F.writeBlock h₁ _ _ _ _ _) h₁

theorem rfsWrite (v : ℕ) (buf : Buf) (len off : ℕ) :
    Preserves R Prod.snd (rfsWrite s v buf len off) := by
  rw [Fs.rfsWrite]
  refine .read fun x _ => .ite (.error _) ((F.writeFirst hs v buf len off).bind fun a h₁ => ?_)
  refine (F.writeRest h₁ _ _ _ _).bind fun s₂ h₂ => .read fun y hy => ?_
  exact F.member h₂ h₂ hy rfl rfl

/-! ## The vinodes -/

theorem hashPutVinode (v : ℕ) : Preserves R id (hashPutVinode s v) := by
  rw [Fs.hashPutVinode]
  refine .read fun x _ => .ite hs ?_
  split
  · exact hs
  · exact F.other hs rfl rfl rfl rfl rfl (Nat.le_refl _)

theorem hashEraseVinode (v : ℕ) : Preserves R id (hashEraseVinode s v) := by
  rw [Fs.hashEraseVinode]
  exact .read fun x _ => .ite hs (F.other hs rfl rfl rfl rfl rfl (Nat.le_refl _))

theorem addRef (v : ℕ) (k : ℤ) : Preserves R id (addRef s v k) := by
  rw [Fs.addRef]
  exact .read fun x hx => F.member hs hs hx rfl rfl

end RfsFrame

namespace Frame

variable (F : Frame n R) (hs : R s)

include F hs

/-! ## The tables -/

theorem hashPutDentry (t : ℕ) : Preserves R id (hashPutDentry s t) := by
  rw [Fs.hashPutDentry]
  refine .read fun e _ => ?_
  split
  · exact hs
  · exact F.other hs rfl rfl (Nat.le_refl _)

theorem hashEraseDentry (t : ℕ) : Preserves R id (hashEraseDentry s t) := by
  rw [Fs.hashEraseDentry]
  exact .read fun e _ => F.other hs rfl rfl (Nat.le_refl _)

theorem allocVfsDentry (name : Name) (inode parent : Option ℕ) :
    Preserves R Prod.snd (allocVfsDentry s name inode parent) := by
  rw [Fs.allocVfsDentry]
  have h₁ : R (s.allocPage.2.setDentry s.allocPage.1
      { name := name, dRef := 0, dentryInode := inode, parent := parent }) :=
    F.other (F.rfs.page hs) rfl rfl (Nat.le_refl _)
  cases inode with
  | none => exact h₁
  | some v => exact (F.rfs.addRef h₁ v 1).bind fun s₂ h₂ => h₂

theorem freeVfsDentry (t : ℕ) : Preserves R id (freeVfsDentry s t) := by
  rw [Fs.freeVfsDentry]
  exact .read fun e _ => .ite hs (F.other hs rfl rfl (Nat.le_refl _))

theorem setDentry (t : ℕ) (e : Dentry) : R (s.setDentry t e) := F.other hs rfl rfl (Nat.le_refl _)

theorem attachFound {w : ℕ} (t : ℕ) (hw : n ≤ w) : Preserves R id (attachFound s t w) := by
  rw [Fs.attachFound]
  refine .read fun x _ => .read fun e _ => ?_
  split
  · refine (F.rfs.addRef (F.setDentry hs _ _) _ _).bind fun s₁ h₁ => ?_
    exact F.hashPutDentry (F.fresh none h₁ hw) _
  · refine (F.rfs.addRef (F.setDentry hs _ _) _ _).bind fun s₁ h₁ => ?_
    exact (F.rfs.hashPutVinode h₁ _).bind fun s₂ h₂ => F.hashPutDentry h₂ _

theorem attachNew (t v : ℕ) : Preserves R id (attachNew s t v) := by
  rw [Fs.attachNew]
  refine .read fun e _ => (F.rfs.addRef (F.setDentry hs _ _) _ _).bind fun s₁ h₁ => ?_
  exact (F.hashPutDentry h₁ _).bind fun s₂ h₂ => F.rfs.hashPutVinode h₂ _

omit hs in
theorem lookupLoop (tokens : List Name) (parent this : ℕ) (hs : R s) :
    Preserves R Prod.snd (lookupLoop tokens parent this s) := by
  induction tokens generalizing parent this s with
  | nil => exact hs
  | cons token tokens ih =>
    rw [Fs.lookupLoop]
    split
    · exact ih _ _ hs
    refine (F.allocVfsDentry hs _ _ _).bind fun a h₁ => .read fun v _ => ?_
    have hlook : Sat (viopLookup a.2 v token) (fun b => (∀ w ∈ b.1, n ≤ w) ∧ R b.2) fun _ => True :=
      Sat.bind (P := fun _ => True) (by cases viopSb a.2 v <;> trivial) fun _ _ =>
        F.rfs.rfsLookup h₁ v token
    refine Sat.bind hlook ?_
    rintro ⟨found, s₂⟩ ⟨hw, h₂⟩
    cases found with
    | none => exact F.other h₂ rfl rfl (Nat.le_refl _)
    | some w => exact (F.attachFound h₂ _ (hw w rfl)).bind fun s₃ h₃ => ih _ _ h₃

theorem lookupFinalDentry (path : List UInt8) (parent : ℕ) :
    Preserves R Prod.snd (lookupFinalDentry s path parent) := by
  rw [Fs.lookupFinalDentry]
  exact .ite (.error _) (F.lookupLoop _ _ _ hs)

/-! ## The operations -/

theorem createFile (path : List UInt8) (parent : ℕ) (name : Name) :
    Preserves R Prod.snd (createFile s path parent name) := by
  rw [Fs.createFile]
  refine .read fun base _ => .ite hs ((F.allocVfsDentry hs _ _ _).bind fun a h₁ => ?_)
  refine .read fun v _ => ?_
  have hcreate : Preserves R Prod.snd (viopCreate a.2 v base) :=
    .read fun _ _ => F.rfs.rfsCreate h₁ _ _
  refine hcreate.bind fun b h₂ => ?_
  obtain ⟨w, s₂⟩ := b
  cases w with
  | none => exact .error _
  | some w => exact (F.attachNew h₂ _ _).bind fun s₃ h₃ => h₃

theorem forgetDentry {x : Vinode} {u : ℕ} (t : ℕ) (h₁ : R s₁) (hx : s₁.vinode u = .ok x)
    (hfile : x.type = FILE_I) : Preserves R id (forgetDentry s t u) := by
  rw [Fs.forgetDentry]
  refine (F.hashEraseDentry hs t).bind fun s₂ h₂ => (F.freeVfsDentry h₂ t).bind fun s₃ h₃ => ?_
  refine (F.rfs.addRef h₃ u _).bind fun s₄ h₄ => .read fun y _ => .ite (.ite (.error _) ?_) h₄
  exact (F.rfs.hashEraseVinode h₄ u).bind fun s₅ h₅ => F.free h₅ h₁ hx hfile

/-- `vfs_unlink`. -/
theorem vfsUnlink (path : List UInt8) : Preserves R Prod.snd (vfsUnlink s path) := by
  rw [Fs.vfsUnlink]
  refine (F.lookupFinalDentry hs _ _).bind fun a h₁ => ?_
  obtain ⟨r, s₁⟩ := a
  cases r with
  | missing parent name => exact h₁
  | found t parent =>
    refine .read fun e _ => .read fun v _ => .read fun x hx => ?_
    by_cases hfile : x.type = FILE_I
    · simp only [hfile, ne_eq, not_true_eq_false, if_false]
      refine .ite h₁ (.read fun vd _ => ?_)
      have hunlink : Preserves R Prod.snd (viopUnlink s₁ vd e.name v) :=
        .read fun _ _ => F.rfs.rfsUnlink h₁ _ _ _
      refine hunlink.bind fun b h₂ => .ite h₂ ?_
      exact (F.forgetDentry h₂ t h₁ hx hfile).bind fun s₃ h₃ => h₃
    · simp only [hfile, ne_eq, not_false_eq_true, if_true]
      exact h₁

/-- `vfs_mkdir`. -/
theorem vfsMkdir (path : List UInt8) : Preserves R Prod.snd (vfsMkdir s path) := by
  rw [Fs.vfsMkdir]
  refine (F.lookupFinalDentry hs _ _).bind fun a h₁ => ?_
  obtain ⟨r, s₁⟩ := a
  cases r with
  | found t parent => exact h₁
  | missing parent name =>
    refine .read fun base _ => .ite h₁ ((F.allocVfsDentry h₁ _ _ _).bind fun b h₂ => ?_)
    refine .read fun v _ => ?_
    have hmkdir : Preserves R Prod.snd (viopMkdir b.2 v base) :=
      .read fun _ _ => F.rfs.rfsMkdir h₂ _ _
    refine hmkdir.bind fun c h₃ => ?_
    obtain ⟨w, s₃⟩ := c
    cases w with
    | none => exact F.other h₃ rfl rfl (Nat.le_refl _)
    | some w => exact (F.attachNew h₃ _ _).bind fun s₄ h₄ => h₄

/-- `vfs_link`. -/
theorem vfsLink (oldpath newpath : List UInt8) :
    Preserves R Prod.snd (vfsLink s oldpath newpath) := by
  rw [Fs.vfsLink]
  refine (F.lookupFinalDentry hs _ _).bind fun a h₁ => ?_
  obtain ⟨r, s₁⟩ := a
  cases r with
  | missing parent name => exact h₁
  | found t parent =>
    refine .read fun v _ => .read fun x _ => .ite h₁ ?_
    refine (F.lookupFinalDentry h₁ _ _).bind fun b h₂ => ?_
    obtain ⟨r, s₂⟩ := b
    cases r with
    | found t parent => exact h₂
    | missing parent name =>
      refine .read fun base _ => .ite h₂ ((F.allocVfsDentry h₂ _ _ _).bind fun c h₃ => ?_)
      refine .read fun vd _ => ?_
      have hlink : Preserves R Prod.snd (viopLink c.2 vd base v) :=
        .read fun _ _ => F.rfs.rfsLink h₃ _ _ _
      refine hlink.bind fun q h₄ => .ite h₄ ?_
      exact (F.hashPutDentry h₄ _).bind fun s₅ h₅ => h₅

section Files

variable (hfiles : ∀ {s : State} (files : AList fun _ : ℕ => File), R s →
  R { s with files := files })

include hfiles

theorem openDentry (t flags : ℕ) : Preserves R Prod.snd (openDentry s t flags) := by
  rw [Fs.openDentry]
  refine .read fun v _ => .read fun x _ => .ite hs (.read fun mode _ => ?_)
  have hopen : Preserves R Prod.snd (allocVfsFile s t mode.1 mode.2) := by
    rw [allocVfsFile]
    exact .read fun e _ => hfiles _ (F.setDentry (F.rfs.page hs) _ _)
  refine hopen.bind fun a h₁ => ?_
  cases x.sb with
  | rfs => exact h₁
  | hostfs => exact .error _

/-- `vfs_open`. -/
theorem vfsOpen (path : List UInt8) (flags : ℕ) : Preserves R Prod.snd (vfsOpen s path flags) := by
  rw [Fs.vfsOpen]
  refine (F.lookupFinalDentry hs _ _).bind fun a h₁ => ?_
  obtain ⟨r, s₁⟩ := a
  cases r with
  | found t parent => exact F.openDentry h₁ hfiles t flags
  | missing parent name =>
    refine .ite h₁ ((F.createFile h₁ _ _ _).bind fun b h₂ => ?_)
    obtain ⟨t, s₂⟩ := b
    cases t with
    | none => exact h₂
    | some t => exact F.openDentry h₂ hfiles t flags

/-- `vfs_write`. -/
theorem vfsWrite (f : ℕ) (buf : Buf) (count : ℕ) :
    Preserves R Prod.snd (vfsWrite s f buf count) := by
  rw [Fs.vfsWrite]
  refine .read fun file _ => .ite hs (.read fun v _ => .read fun x _ => .ite hs ?_)
  have hwrite : Preserves R Prod.snd (viopWrite s v buf count file.offset) :=
    .read fun _ _ => F.rfs.rfsWrite hs _ _ _ _
  exact hwrite.bind fun a h₁ => hfiles _ h₁

/-- `vfs_close`. -/
theorem vfsClose (f : ℕ) : Preserves R Prod.snd (vfsClose s f) := by
  rw [Fs.vfsClose]
  refine .read fun file _ => .read fun v _ => .read fun x hx => ?_
  by_cases hfile : x.type = FILE_I
  · simp only [hfile, ne_eq, not_true_eq_false, if_false]
    refine .read fun _ _ => .read fun e _ => .bind ?_ fun s₁ (h₁ : R (id s₁)) => hfiles _ h₁
    rw [releaseDentry]
    have h₁ : R (s.setDentry file.fDentry { e with dRef := e.dRef - 1 }) := F.setDentry hs _ _
    refine .ite h₁ ((F.hashEraseDentry h₁ _).bind fun s₂ h₂ => ?_)
    refine (F.freeVfsDentry h₂ _).bind fun s₃ h₃ => (F.rfs.addRef h₃ v _).bind fun s₄ h₄ => ?_
    refine .read fun y _ => .ite ?_ h₄
    have hback : Preserves R id (viopWriteBackVinode s₄ v) :=
      .read fun _ _ => F.rfs.rfsWriteBackVinode h₄ v
    refine hback.bind fun s₅ h₅ => (F.rfs.hashEraseVinode h₅ v).bind fun s₆ h₆ => ?_
    exact F.free h₆ hs hx hfile
  · simp only [hfile, ne_eq, not_false_eq_true, if_true]
    exact hs

end Files

end Frame

end HustOS.Fs
