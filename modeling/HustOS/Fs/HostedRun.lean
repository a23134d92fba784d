import HustOS.Fs.DentryCache
import HustOS.Fs.Hostfs
import HustOS.Fs.Run

/-!
# Runs over both file systems

The host file system changes vinodes that it has built in new pages, and nothing else of the state
(`RfsFrame.hostfsLookup`). So the interface keeps the cache of dentries over both file systems
(`HostedRun.cache`), and a lookup leaves a dentry behind for each component of the path
(`DentryCache.lookupLoop`): the dentries of a walk, each with its name, below the dentry of the
component in front of it (`Walked`).
-/

namespace HustOS.Fs

open Foundations

variable {W α : Type} {host : Host W} {h h' : Hosted W} {R : State → Prop} {s s' : State}
  {n v w t p q : ℕ} {names : List Name} {name : Name}

/-! ## What the host file system leaves alone -/

/-- The state of RFS and of the virtual file system that a computation returns. -/
abbrev Hosted.st (r : α × Hosted W) : State := r.2.toState

theorem Preserves.lift {f : State → Except Fault (α × State)}
    (hf : Preserves R Prod.snd (f h.toState)) : Preserves R Hosted.st (Hosted.lift f h) :=
  Sat.bind hf fun _ hr => hr

theorem Preserves.lift₀ {f : State → Except Fault State} (hf : Preserves R id (f h.toState)) :
    Preserves R Hosted.toState (Hosted.lift₀ f h) :=
  Sat.bind hf fun _ hr => hr

namespace RfsFrame

variable (F : RfsFrame n R)

include F

theorem hostfsUpdateVinode (hs : R h.toState) (hv : n ≤ v) :
    Preserves R Hosted.st (Hosted.hostfsUpdateVinode host h v) := by
  rw [Hosted.hostfsUpdateVinode]
  refine .read fun x _ => .ite (F.fresh _ hs hv) ?_
  exact .ite (F.fresh _ hs hv) (.ite (F.fresh _ hs hv) (F.fresh _ hs hv))

theorem resetRef (hs : R h.toState) (hv : n ≤ v) :
    Preserves R Hosted.toState (Hosted.resetRef h v) :=
  .read fun _ _ => F.fresh _ hs hv

/-- There is always a vinode, and it is a new one. -/
theorem hostfsLookup (hs : R h.toState) (t : ℕ) :
    Sat (Hosted.hostfsLookup host h t) (fun r => (∃ w, r.1 = some w ∧ n ≤ w) ∧ R r.2.toState)
      fun _ => True := by
  rw [Hosted.hostfsLookup]
  refine Sat.bind (P := fun _ => True) (by cases localPath h.toState t <;> trivial) fun path _ => ?_
  have hnew : R (Hosted.hostfsAllocVinode h).2.toState := F.fresh _ (F.page hs) (F.pages hs)
  refine Sat.bind (F.hostfsUpdateVinode hnew (F.pages hs)) fun r hr => ?_
  exact Sat.bind (F.resetRef hr (F.pages hs)) fun h' hh' => ⟨⟨_, rfl, F.pages hs⟩, hh'⟩

theorem hostfsCreate (hs : R h.toState) (t : ℕ) :
    Preserves R Hosted.st (Hosted.hostfsCreate host h t) := by
  rw [Hosted.hostfsCreate]
  have hnew : R (Hosted.hostfsAllocVinode h).2.toState := F.fresh _ (F.page hs) (F.pages hs)
  refine .read fun path _ => .ite hs ?_
  refine Sat.bind (F.hostfsUpdateVinode hnew (F.pages hs)) ?_
  rintro ⟨err, h₁⟩ h₁s
  exact Preserves.ite h₁s ((F.resetRef h₁s (F.pages hs)).bind fun h₂ h₂s => h₂s)

omit F in
theorem hostfsHookOpen (hs : R h.toState) (v t : ℕ) :
    Preserves R Hosted.st (Hosted.hostfsHookOpen host h v t) := by
  rw [Hosted.hostfsHookOpen]
  exact .ite hs (.read fun path _ => .ite hs hs)

/-! ### The operations of a vinode -/

theorem viopLookup (hs : R h.toState) (v t : ℕ) (name : Name) :
    Sat (Hosted.viopLookup host h v t name) (fun r => (∀ w ∈ r.1, n ≤ w) ∧ R r.2.toState)
      fun _ => True := by
  rw [Hosted.viopLookup]
  refine Sat.bind (P := fun _ => True) (by cases h.vinode v <;> trivial) fun x _ => ?_
  cases x.sb with
  | rfs => exact Sat.bind (F.rfsLookup hs v name) fun r hr => hr
  | hostfs =>
    refine (F.hostfsLookup hs t).mono ?_
    rintro r ⟨⟨w, hw, hle⟩, hr⟩
    refine ⟨fun w' hw' => ?_, hr⟩
    rw [hw, Option.mem_some_iff] at hw'
    exact hw' ▸ hle

theorem viopCreate (hs : R h.toState) (v t : ℕ) (name : Name) :
    Preserves R Hosted.st (Hosted.viopCreate host h v t name) := by
  rw [Hosted.viopCreate]
  refine .read fun x _ => ?_
  cases x.sb with
  | rfs => exact .lift (F.rfsCreate hs v name)
  | hostfs => exact F.hostfsCreate hs t

theorem viopMkdir (hs : R h.toState) (v : ℕ) (name : Name) :
    Preserves R Hosted.st (Hosted.viopMkdir h v name) := by
  rw [Hosted.viopMkdir]
  refine .read fun x _ => ?_
  cases x.sb with
  | rfs => exact .lift (F.rfsMkdir hs v name)
  | hostfs => exact .error _

theorem viopLink (hs : R h.toState) (v : ℕ) (name : Name) (w : ℕ) :
    Preserves R Hosted.st (Hosted.viopLink h v name w) := by
  rw [Hosted.viopLink]
  refine .read fun x _ => ?_
  cases x.sb with
  | rfs => exact .lift (F.rfsLink hs v name w)
  | hostfs => exact .error _

theorem viopUnlink (hs : R h.toState) (v : ℕ) (name : Name) (w : ℕ) :
    Preserves R Hosted.st (Hosted.viopUnlink h v name w) := by
  rw [Hosted.viopUnlink]
  refine .read fun x _ => ?_
  cases x.sb with
  | rfs => exact .lift (F.rfsUnlink hs v name w)
  | hostfs => exact .error _

theorem viopWriteBackVinode (hs : R h.toState) (v : ℕ) :
    Preserves R Hosted.toState (Hosted.viopWriteBackVinode h v) := by
  rw [Hosted.viopWriteBackVinode]
  refine .read fun x _ => ?_
  cases x.sb with
  | rfs => exact .lift₀ (F.rfsWriteBackVinode hs v)
  | hostfs => exact hs

end RfsFrame

/-! ## One component -/

/-- The turn of the loop of `lookup_final_dentry` for one component. -/
def Hosted.component (host : Host W) (h : Hosted W) (p : ℕ) (name : Name) :
    Except Fault (Option ℕ × Hosted W) :=
  match hashGetDentry h.toState p name with
  | some t => .ok (some t, h)
  | none => do
    let (t, h) ← lift (allocVfsDentry · name none (some p)) h
    let (found, h) ← viopLookup host h (← h.dentryInode p) t name
    match found with
    | none => return (none, { h with toState := h.freeDentry t })
    | some v =>
      let h ← lift₀ (attachFound · t v) h
      return (some t, h)

theorem Hosted.lookupLoop_cons (name : Name) (tokens : List Name) (p q : ℕ) (h : Hosted W) :
    Hosted.lookupLoop host (name :: tokens) p q h = Hosted.component host h p name >>= fun r =>
      match r.1 with
      | none => .ok (.missing p name, r.2)
      | some t => Hosted.lookupLoop host tokens t p r.2 := by
  rw [Hosted.lookupLoop, Hosted.component]
  cases hashGetDentry h.toState p name with
  | some t => rfl
  | none =>
    simp only [bind_assoc]
    refine bind_congr fun a => bind_congr fun vd => bind_congr fun r => ?_
    cases r.1 with
    | none => rfl
    | some v => simp only [bind_assoc, pure_eq_ok, ok_bind]

/-- A path is looked up from where the lookup of its front part ends. -/
theorem Hosted.lookupLoop_append (front rest : List Name) (p q : ℕ) (h : Hosted W) :
    Hosted.lookupLoop host (front ++ rest) p q h = Hosted.lookupLoop host front p q h >>= fun r =>
      match r.1 with
      | .missing p name => .ok (.missing p name, r.2)
      | .found t q => Hosted.lookupLoop host rest t q r.2 := by
  induction front generalizing p q h with
  | nil => rfl
  | cons name front ih =>
    rw [List.cons_append, lookupLoop_cons, lookupLoop_cons, bind_assoc]
    refine bind_congr fun r => ?_
    cases r.1 with
    | none => rfl
    | some t => exact ih t p r.2

/-! ## Walks -/

/-- The dentry `t` is reached from the root dentry along the names, each below the one in front of
it. -/
inductive Walked (s : State) : List Name → ℕ → Prop
  | root {t : ℕ} {e : Dentry} (isRoot : t = s.vfsRootDentry) (dentry : s.dentries t = some e)
      (top : e.parent = none) : Walked s [] t
  | step {names : List Name} {p t : ℕ} {e : Dentry} (walk : Walked s names p)
      (dentry : s.dentries t = some e) (parent : e.parent = some p) :
      Walked s (names ++ [e.name]) t

theorem Walked.mono (hw : Walked s names t) (hg : Grows s s') : Walked s' names t := by
  induction hw with
  | root isRoot dentry top =>
    obtain ⟨e', he', hk⟩ := hg.keeps _ _ dentry
    exact .root (isRoot.trans hg.root.symm) he' ((congrArg Prod.fst hk).trans top)
  | @step _ _ _ e _ dentry parent ih =>
    obtain ⟨e', he', hk⟩ := hg.keeps _ _ dentry
    have hname : e'.name = e.name := congrArg Prod.snd hk
    rw [← hname]
    exact ih.step he' ((congrArg Prod.fst hk).trans parent)

/-- The dentry of the next component. -/
theorem Walked.next {e : Dentry} (hw : Walked s names p) (he : s.dentries t = some e)
    (hk : e.tableKey = (some p, name)) : Walked s (names ++ [name]) t := by
  have hname : e.name = name := congrArg Prod.snd hk
  rw [← hname]
  exact hw.step he (congrArg Prod.fst hk)

/-- What a lookup leaves behind. -/
structure LookedUp (n v : ℕ) (s : State) (names : List Name) (r : Lookup) (s' : State) : Prop where
  cache : DentryCache n v s'
  grows : Grows s s'
  walked : ∀ t q, r = .found t q → Walked s' names t

namespace DentryCache

theorem walked_root (hc : DentryCache n v s) : Walked s [] s.vfsRootDentry := by
  obtain ⟨e, he, htop, -⟩ := hc.root
  exact .root rfl he htop

/-- The dentry of a component is in the table then, if there is one. -/
theorem component (hc : DentryCache n v h.toState) (p : ℕ) (name : Name) :
    Sat (Hosted.component host h p name) (fun r => DentryCache n v r.2.toState ∧
      Grows h.toState r.2.toState ∧
      ∀ t, r.1 = some t → hashGetDentry r.2.toState p name = some t) fun _ => True := by
  rw [Hosted.component]
  rcases hget : hashGetDentry h.toState p name with _ | t
  · dsimp only
    obtain ⟨-, hc₁, hg₁, hnew⟩ := hc.allocVfsDentry name none (some p)
    set h₁ : Hosted W := { h with toState := dentryState h.toState p name }
    have halloc : Hosted.lift (Fs.allocVfsDentry · name none (some p)) h = .ok (h.pages, h₁) := rfl
    have hnone : h.dentries h.pages = none := hc.fresh _ (Nat.le_refl _)
    have hfree : h₁.dentryHashTable.lookup (some p, name) = none := hget
    rw [halloc, ok_bind]
    dsimp only
    have F : RfsFrame n fun s' => DentryCache n v s' ∧ Grows h.toState s' ∧
        Unhashed h.pages (some p, name) s' ∧
        s'.dentryHashTable.lookup (some p, name) = none :=
      frame ((Grows.onDentries _).and
        ((Unhashed.onDentries _ _).and ⟨fun hs _ hh _ => by rw [hh]; exact hs⟩))
    refine Sat.bind (P := fun _ => True) (by cases h₁.dentryInode p <;> trivial) fun vd _ => ?_
    refine Sat.bind (F.viopLookup ⟨hc₁, hg₁, hnew, hfree⟩ vd h.pages name) ?_
    rintro ⟨found, h₂⟩ ⟨hlt, hc₂, hg₂, hnew₂, hfree₂⟩
    cases found with
    | none => exact ⟨hc₂.freeDentry hnew₂.ne_root hnew₂.absent, hg₂.freeDentry hnone, nofun⟩
    | some w =>
      dsimp only
      refine Sat.bind (Preserves.lift₀ (hc₂.attachFound hg₂ hnew₂ hfree₂ (hlt w rfl))) ?_
      rintro h₃ ⟨hc₃, hg₃, hget₃⟩
      refine ⟨hc₃, hg₃, fun t' ht' => ?_⟩
      obtain rfl := Option.some.inj ht'
      exact hget₃
  · exact ⟨hc, .refl _, fun t' ht' => hget.trans ht'⟩

/-- **A lookup leaves a dentry behind for each component of the path.** -/
theorem lookupLoop {tokens : List Name} (hc : DentryCache n v h.toState)
    (hw : Walked h.toState names p) :
    Sat (Hosted.lookupLoop host tokens p q h)
      (fun r => LookedUp n v h.toState (names ++ tokens) r.1 r.2.toState) fun _ => True := by
  induction tokens generalizing names p q h with
  | nil =>
    rw [Hosted.lookupLoop, List.append_nil]
    refine ⟨hc, .refl _, fun t q' hr => ?_⟩
    obtain ⟨rfl, -⟩ := Lookup.found.inj hr
    exact hw
  | cons token tokens ih =>
    rw [Hosted.lookupLoop_cons]
    refine (hc.component p token).bind ?_
    rintro ⟨found, h₁⟩ ⟨hc₁, hg₁, hget⟩
    cases found with
    | none => exact ⟨hc₁, hg₁, nofun⟩
    | some t =>
      obtain ⟨e, he, hk⟩ := hc₁.key _ _ (hget t rfl)
      refine (ih hc₁ ((hw.mono hg₁).next he hk)).mono fun r hr => ?_
      rw [List.append_assoc] at hr
      exact ⟨hr.cache, hg₁.trans hr.grows, hr.walked⟩

/-! ## The interface -/

variable (hc : DentryCache n v h.toState)

include hc

theorem lookupFinalDentry (path : List UInt8) :
    Sat (Hosted.lookupFinalDentry host h path h.vfsRootDentry)
      (fun r => LookedUp n v h.toState (pathTokens path) r.1 r.2.toState) fun _ => True := by
  rw [Hosted.lookupFinalDentry]
  split
  · trivial
  · exact hc.lookupLoop hc.walked_root

/-- A new dentry, with what a function of RFS or of the host file system does then. -/
theorem withNew {β : Type} {f : ℕ × Hosted W → Except Fault (β × Hosted W)} {name : Name}
    {inode parent : Option ℕ}
    (hf : ∀ t h₁, DentryCache n v h₁.toState → Unhashed t (parent, name) h₁.toState →
      Preserves (DentryCache n v) Hosted.st (f (t, h₁))) :
    Preserves (DentryCache n v) Hosted.st
      (Hosted.lift (Fs.allocVfsDentry · name inode parent) h >>= f) := by
  have halloc : Sat (Hosted.lift (Fs.allocVfsDentry · name inode parent) h)
      (fun r => DentryCache n v r.2.toState ∧ Unhashed r.1 (parent, name) r.2.toState)
      fun _ => True :=
    Sat.bind (hc.allocVfsDentry name inode parent) fun r hr => ⟨hr.2.1, hr.2.2.2⟩
  exact Sat.bind halloc fun r hr => hf r.1 r.2 hr.1 hr.2

theorem createFile (path : List UInt8) (parent : ℕ) (name : Name) :
    Preserves (DentryCache n v) Hosted.st (Hosted.createFile host h path parent name) := by
  rw [Hosted.createFile]
  refine .read fun base _ => .ite hc (hc.withNew fun t h₁ hc₁ hnew => ?_)
  have F : RfsFrame n fun s' => DentryCache n v s' ∧ Unhashed t (some parent, base) s' :=
    frame (Unhashed.onDentries _ _)
  refine .read fun vd _ => Sat.bind (F.viopCreate ⟨hc₁, hnew⟩ vd t base) ?_
  rintro ⟨new, h₂⟩ ⟨hc₂, hnew₂⟩
  cases new with
  | none => trivial
  | some w => exact Sat.bind (Preserves.lift₀ (hc₂.attachNew hnew₂ w)) fun h₃ hc₃ => hc₃

theorem openDentry (t flags : ℕ) :
    Preserves (DentryCache n v) Hosted.st (Hosted.openDentry host h t flags) := by
  rw [Hosted.openDentry]
  refine .read fun w _ => .read fun x _ => .ite hc (.read fun mode _ => ?_)
  refine Sat.bind (Preserves.lift (hc.allocVfsFile t mode.1 mode.2)) fun r hr => ?_
  cases x.sb with
  | rfs => exact hr
  | hostfs => exact Sat.bind (RfsFrame.hostfsHookOpen hr w t) fun r' hr' => hr'

theorem vfsOpen (path : List UInt8) (flags : ℕ) :
    Preserves (DentryCache n v) Hosted.st (Hosted.vfsOpen host h path flags) := by
  rw [Hosted.vfsOpen]
  refine Sat.bind (hc.lookupFinalDentry path) ?_
  rintro ⟨r, h₁⟩ ⟨hc₁, -, -⟩
  cases r with
  | found t parent => exact hc₁.openDentry t flags
  | missing parent name =>
    refine Preserves.ite hc₁ (Sat.bind (hc₁.createFile path parent name) ?_)
    rintro ⟨t, h₂⟩ hc₂
    cases t with
    | none => exact hc₂
    | some t => exact DentryCache.openDentry hc₂ t flags

theorem vfsOpendir (path : List UInt8) :
    Preserves (DentryCache n v) Hosted.st (Hosted.vfsOpendir host h path) := by
  rw [Hosted.vfsOpendir]
  refine Sat.bind (hc.lookupFinalDentry path) ?_
  rintro ⟨r, h₁⟩ ⟨hc₁, -, -⟩
  cases r with
  | missing parent name => exact hc₁
  | found t parent =>
    refine Preserves.read fun w _ => .read fun x _ => .ite hc₁ ?_
    refine Sat.bind (Preserves.lift (hc₁.allocVfsFile t true false)) fun r hr => ?_
    have hhook : Preserves (fun s' => DentryCache n v s' ∧ True) Hosted.toState
        (Hosted.lift₀ (Fs.viopHookOpendir · w) r.2) :=
      .lift₀ (viopHookOpendir hr onDentries_true trivial w)
    exact Sat.bind hhook fun h₂ hc₂ => hc₂.1

theorem vfsMkdir (path : List UInt8) :
    Preserves (DentryCache n v) Hosted.st (Hosted.vfsMkdir host h path) := by
  rw [Hosted.vfsMkdir]
  refine Sat.bind (hc.lookupFinalDentry path) ?_
  rintro ⟨r, h₁⟩ ⟨hc₁, -, -⟩
  cases r with
  | found t parent => exact hc₁
  | missing parent name =>
    refine Preserves.read fun base _ => .ite hc₁ (withNew hc₁ fun t h₂ hc₂ hnew => ?_)
    have F : RfsFrame n fun s' => DentryCache n v s' ∧ Unhashed t (some parent, base) s' :=
      frame (Unhashed.onDentries _ _)
    refine .read fun vd _ => Sat.bind (F.viopMkdir ⟨hc₂, hnew⟩ vd base) ?_
    rintro ⟨new, h₃⟩ ⟨hc₃, hnew₃⟩
    cases new with
    | none => exact hc₃.freeDentry hnew₃.ne_root hnew₃.absent
    | some w => exact Sat.bind (Preserves.lift₀ (hc₃.attachNew hnew₃ w)) fun h₄ hc₄ => hc₄

theorem vfsLink (oldpath newpath : List UInt8) :
    Preserves (DentryCache n v) Hosted.st (Hosted.vfsLink host h oldpath newpath) := by
  rw [Hosted.vfsLink]
  refine Sat.bind (hc.lookupFinalDentry oldpath) ?_
  rintro ⟨r, h₁⟩ ⟨hc₁, -, -⟩
  cases r with
  | missing parent name => exact hc₁
  | found t parent =>
    refine Preserves.read fun w _ => .read fun x _ => .ite hc₁ ?_
    refine Sat.bind (DentryCache.lookupFinalDentry hc₁ newpath) ?_
    rintro ⟨r, h₂⟩ ⟨hc₂, -, -⟩
    cases r with
    | found t parent => exact hc₂
    | missing parent name =>
      refine Preserves.read fun base _ => .ite hc₂ (withNew hc₂ fun t h₃ hc₃ _ => ?_)
      refine .read fun vd _ => Sat.bind (rfs.viopLink hc₃ vd base w) ?_
      rintro ⟨err, h₄⟩ hc₄
      exact Preserves.ite hc₄
        (Sat.bind (Preserves.lift₀ (DentryCache.hashPutDentry hc₄ t)) fun h₅ hc₅ => hc₅)

theorem vfsUnlink (path : List UInt8) :
    Preserves (DentryCache n v) Hosted.st (Hosted.vfsUnlink host h path) := by
  rw [Hosted.vfsUnlink]
  refine Sat.bind (hc.lookupFinalDentry path) ?_
  rintro ⟨r, h₁⟩ ⟨hc₁, -, -⟩
  cases r with
  | missing parent name => exact hc₁
  | found t parent =>
    refine Preserves.read fun e _ => .read fun w hw => .read fun x hx => ?_
    by_cases hfile : x.type = FILE_I
    · have hne : t ≠ h₁.vfsRootDentry :=
        hc₁.ne_root hw (State.vinode_eq_ok.1 hx) (by rw [hfile]; decide)
      have F : RfsFrame n fun s' => DentryCache n v s' ∧ t ≠ s'.vfsRootDentry :=
        frame ⟨fun hne _ _ hr => by rw [hr]; exact hne⟩
      rw [if_neg (not_not.2 hfile)]
      refine Preserves.ite hc₁ (.read fun vd _ => Sat.bind (F.viopUnlink ⟨hc₁, hne⟩ vd e.name w) ?_)
      rintro ⟨err, h₂⟩ ⟨hc₂, hne₂⟩
      refine Preserves.ite hc₂ ?_
      exact Sat.bind (Preserves.lift₀ (hc₂.forgetDentry hc₁ hx hfile hne₂)) fun h₃ hc₃ => hc₃
    · rw [if_pos hfile]
      exact hc₁

theorem releaseDentry {h₁ : Hosted W} {x : Vinode} (hc₁ : DentryCache n v h₁.toState)
    (hx : h₁.vinode w = .ok x) (hfile : x.type = FILE_I) (hne : t ≠ h.vfsRootDentry) (r : ℤ) :
    Preserves (DentryCache n v) Hosted.toState (Hosted.releaseDentry h t w r) := by
  have hlift : ∀ {β : Type} (f g : State → Except Fault State) (k : Hosted W → Except Fault β),
      (Hosted.lift₀ f h >>= fun h => Hosted.lift₀ g h >>= k) =
        Hosted.lift₀ (fun s => f s >>= g) h >>= k := by
    intro β f g k
    simp only [Hosted.lift₀]
    cases f h.toState with
    | error e => rfl
    | ok s => rfl
  rw [Hosted.releaseDentry]
  refine Preserves.ite hc ?_
  rw [hlift]
  refine Sat.bind (Preserves.lift₀ (hc.dropDentry hne)) fun h₂ hc₂ => ?_
  refine Sat.bind (Preserves.lift₀ (rfs.addRef hc₂ w _)) fun h₃ hc₃ => Preserves.read fun y _ => ?_
  refine .ite (Sat.bind (rfs.viopWriteBackVinode hc₃ w) fun h₄ hc₄ => ?_) hc₃
  refine Sat.bind (Preserves.lift₀ (rfs.hashEraseVinode hc₄ w)) fun h₅ hc₅ => ?_
  exact rfs.free hc₅ hc₁ hx hfile

theorem vfsClose (f : ℕ) : Preserves (DentryCache n v) Hosted.st (Hosted.vfsClose host h f) := by
  rw [Hosted.vfsClose]
  refine .read fun file _ => .read fun w hw => .read fun x hx => ?_
  by_cases hfile : x.type = FILE_I
  · have hne : file.fDentry ≠ h.vfsRootDentry :=
      hc.ne_root hw (State.vinode_eq_ok.1 hx) (by rw [hfile]; decide)
    rw [if_neg (not_not.2 hfile)]
    have hrest : ∀ h₁ : Hosted W, h₁.toState = h.toState →
        Preserves (DentryCache n v) Hosted.st (do
          let e ← h₁.dentry file.fDentry
          let h₂ : Hosted W :=
            { h₁ with toState := h₁.setDentry file.fDentry { e with dRef := e.dRef - 1 } }
          let h₃ ← Hosted.releaseDentry h₂ file.fDentry w (e.dRef - 1)
          return ((0 : ℤ), { h₃ with files := h₃.files.erase f })) := by
      intro h₁ hsame
      refine .read fun e he => ?_
      rw [hsame] at he
      have hc₁ : DentryCache n v (h.setDentry file.fDentry { e with dRef := e.dRef - 1 }) :=
        hc.setDentry (State.dentry_eq_ok.1 he) rfl fun _ => rfl
      rw [← hsame] at hc₁ hne
      set h₂ : Hosted W :=
        { h₁ with toState := h₁.setDentry file.fDentry { e with dRef := e.dRef - 1 } }
      have hc₂ : DentryCache n v h₂.toState := hc₁
      refine Sat.bind (hc₂.releaseDentry hc hx hfile hne _) fun h₃ hc₃ => ?_
      exact ⟨hc₃.key, hc₃.fresh, hc₃.root, hc₃.dir, hc₃.lt, hc₃.pages⟩
    cases x.sb with
    | rfs => exact hrest h rfl
    | hostfs => exact hrest _ rfl
  · rw [if_pos hfile]
    exact hc

end DentryCache

/-! ## Runs -/

/-- The operations of the interface that look a path up, and `vfs_close`. -/
inductive NameOp
  | open (path : Path) (flags : ℕ)
  | close (f : ℕ)
  | mkdir (path : Path)
  | link (oldpath newpath : Path)
  | unlink (path : Path)
  | opendir (path : Path)

/-- Run an operation. -/
def Hosted.exec (host : Host W) (op : NameOp) (h : Hosted W) : Except Fault (Ret × Hosted W) :=
  match op with
  | .open path flags => do
    let (f, h) ← vfsOpen host h path.1 flags
    return (.file f, h)
  | .close f => do
    let (r, h) ← vfsClose host h f
    return (.int r, h)
  | .mkdir path => do
    let (r, h) ← vfsMkdir host h path.1
    return (.int r, h)
  | .link oldpath newpath => do
    let (r, h) ← vfsLink host h oldpath.1 newpath.1
    return (.int r, h)
  | .unlink path => do
    let (r, h) ← vfsUnlink host h path.1
    return (.int r, h)
  | .opendir path => do
    let (f, h) ← vfsOpendir host h path.1
    return (.file f, h)

/-- What the other operations on open files and on the host leave as it is: the names, the parents
and the inodes of the dentries, their table, and the types of the vinodes. -/
structure KeepsNames (s s' : State) : Prop where
  dentries : ∀ t, (s'.dentries t).map (fun e => (e.tableKey, e.dentryInode)) =
    (s.dentries t).map fun e => (e.tableKey, e.dentryInode)
  table : s'.dentryHashTable = s.dentryHashTable
  root : s'.vfsRootDentry = s.vfsRootDentry
  types : ∀ v, (s'.vinodes v).map (fun x => x.type) = (s.vinodes v).map fun x => x.type
  pages : s.pages ≤ s'.pages

/-- The states of the runs over both file systems. -/
inductive HostedRun (host : Host W) : Hosted W → Prop
  | init {h : Hosted W} (boot : Boot) (start : fsInit boot = .ok h.toState) : HostedRun host h
  | step {h h' : Hosted W} {op : NameOp} {r : Ret} (run : HostedRun host h)
      (exec : h.exec host op = .ok (r, h')) : HostedRun host h'
  /-- Reading, writing, seeking and closing a directory, and what happens on the host. -/
  | other {h h' : Hosted W} (run : HostedRun host h) (keeps : KeepsNames h.toState h'.toState) :
      HostedRun host h'

theorem DentryCache.keepsNames (hc : DentryCache n v s) (hk : KeepsNames s s') :
    DentryCache n v s' := by
  have hto : ∀ t e, s.dentries t = some e → ∃ e', s'.dentries t = some e' ∧
      e'.tableKey = e.tableKey ∧ e'.dentryInode = e.dentryInode := by
    intro t e he
    have hmap := hk.dentries t
    rw [he, Option.map_some] at hmap
    obtain ⟨e', he', heq⟩ := Option.map_eq_some_iff.1 hmap
    exact ⟨e', he', Prod.mk.inj heq⟩
  refine ⟨fun k t hget => ?_, fun t ht => ?_, ?_, ?_, hc.lt, hc.pages.trans hk.pages⟩
  · rw [hk.table] at hget
    obtain ⟨e, he, hke⟩ := hc.key k t hget
    obtain ⟨e', he', hke', -⟩ := hto t e he
    exact ⟨e', he', hke'.trans hke⟩
  · have hmap := hk.dentries t
    rw [hc.fresh t (hk.pages.trans ht), Option.map_none] at hmap
    exact Option.map_eq_none_iff.1 hmap
  · obtain ⟨e, he, htop, hinode⟩ := hc.root
    obtain ⟨e', he', hke, hinode'⟩ := hto _ e he
    rw [hk.root]
    exact ⟨e', he', (congrArg Prod.fst hke).trans htop, hinode'.trans hinode⟩
  · obtain ⟨x, hx, hdir⟩ := hc.dir
    have hmap := hk.types v
    rw [hx, Option.map_some] at hmap
    obtain ⟨x', hx', htype⟩ := Option.map_eq_some_iff.1 hmap
    exact ⟨x', hx', htype.trans hdir⟩

theorem Inv.dentryCache (hs : Inv s) : ∃ v, DentryCache s.pages v s := by
  obtain ⟨e, v, x, he, htop, hx, hdir, -⟩ := hs.tables.root
  refine ⟨v, fun k t hk => ?_, fun t ht => (hs.tables.fresh t ht).1,
    ⟨e, he.dentry, htop, he.inode⟩, ⟨x, hx, hdir⟩, ?_, Nat.le_refl _⟩
  · obtain ⟨e', v', he', hk'⟩ := hs.tables.dentry k t hk
    exact ⟨e', he'.dentry, hk'.symm⟩
  · by_contra hle
    have hnone := (hs.tables.fresh v (not_lt.1 hle)).2.1
    rw [hx] at hnone
    cases hnone

theorem DentryCache.exec {op : NameOp} {r : Ret} (hc : DentryCache n v h.toState)
    (he : h.exec host op = .ok (r, h')) : DentryCache n v h'.toState := by
  have hop : Preserves (DentryCache n v) Hosted.st (h.exec host op) := by
    cases op with
    | «open» path flags => exact (hc.vfsOpen path.1 flags).bind fun a ha => ha
    | close f => exact (hc.vfsClose f).bind fun a ha => ha
    | mkdir path => exact (hc.vfsMkdir path.1).bind fun a ha => ha
    | link oldpath newpath => exact (hc.vfsLink oldpath.1 newpath.1).bind fun a ha => ha
    | unlink path => exact (hc.vfsUnlink path.1).bind fun a ha => ha
    | opendir path => exact (hc.vfsOpendir path.1).bind fun a ha => ha
  exact hop.of_ok he

/-- **In every state of every run the cache of dentries is in order.** -/
theorem HostedRun.cache (run : HostedRun host h) : ∃ n v, DentryCache n v h.toState := by
  induction run with
  | init boot start =>
    obtain ⟨s, hs, hinv⟩ := fsInit_inv boot
    obtain rfl := Except.ok.inj (hs.symm.trans start)
    exact ⟨_, hinv.dentryCache⟩
  | step _ exec ih =>
    obtain ⟨n, v, hc⟩ := ih
    exact ⟨n, v, hc.exec exec⟩
  | other _ keeps ih =>
    obtain ⟨n, v, hc⟩ := ih
    exact ⟨n, v, hc.keepsNames keeps⟩

end HustOS.Fs
