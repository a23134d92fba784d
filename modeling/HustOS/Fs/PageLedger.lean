import HustOS.Fs.PageTrace
import HustOS.Fs.Reopen

/-!
# The pages that opening and closing a file move

No part of `vfs_open` and `vfs_close` gives back the page of a file structure (`vfsOpenT_keeps`,
`closeFileT_keeps`). For a file that has neither a dentry nor a vinode the traces are known exactly:
`vfs_open` makes a dentry, a vinode, a key and a node for each of the two tables and a file
structure (`Unopened.vfsOpenT_runs`), and `vfs_close` gives back the dentry, the vinode and the
nodes (`OpenedOnce.closeFileT_runs`).
-/

namespace HustOS.Fs

open Foundations Traced

variable {s s' : State} {w w' : Files} {f t v : ℕ}

/-! ## The page of the file structure -/

/-- The event does not give back the page of a file structure. -/
def KeepsFiles (ev : PageEvent) : Prop := ∀ f, ev ≠ .free (.file f)

theorem hashPutDentryT_keeps (t : ℕ) : Always KeepsFiles (hashPutDentryT t) := by
  refine .bind (.read _) fun e => .bind (.tell nofun) fun _ => .bind (.tell nofun) fun _ =>
    .bind .get fun s => ?_
  cases s.dentryHashTable.lookup (e.parent, e.name) with
  | none => exact .act _
  | some _ => exact .tell nofun

theorem hashEraseDentryT_keeps (t : ℕ) : Always KeepsFiles (hashEraseDentryT t) := by
  refine .bind (.read _) fun e => .bind .get fun s => ?_
  cases s.dentryHashTable.lookup (e.parent, e.name) with
  | none => exact .act _
  | some _ => exact .bind (.tell nofun) fun _ => .act _

theorem hashPutVinodeT_keeps (v : ℕ) : Always KeepsFiles (hashPutVinodeT v) := by
  refine .bind (.read _) fun x => .ite (.pure _) <| .bind (.tell nofun) fun _ =>
    .bind (.tell nofun) fun _ => .bind .get fun s => ?_
  cases s.vinodeHashTable.lookup (x.sb, x.inum) with
  | none => exact .act _
  | some _ => exact .tell nofun

theorem hashEraseVinodeT_keeps (v : ℕ) : Always KeepsFiles (hashEraseVinodeT v) := by
  refine .bind (.read _) fun x => .ite (.pure _) <| .bind .get fun s => ?_
  cases s.vinodeHashTable.lookup (x.sb, x.inum) with
  | none => exact .act _
  | some _ => exact .bind (.tell nofun) fun _ => .act _

theorem allocVfsDentryT_keeps (name : Name) (inode parent : Option ℕ) :
    Always KeepsFiles (allocVfsDentryT name inode parent) :=
  .bind .get fun _ => .bind (.tell nofun) fun _ => .lift _

theorem rfsReadDinodeT_keeps (i : ℕ) : Always KeepsFiles (rfsReadDinodeT i) :=
  .bind (.lift _) fun _ => .bind (.tell nofun) fun _ => .pure _

theorem rfsNewVinodeT_keeps (i : ℕ) : Always KeepsFiles (rfsNewVinodeT i) := by
  have hupdate : ∀ v, Always KeepsFiles (rfsUpdateVinodeT v) := fun v =>
    .bind (.read _) fun _ => .bind (rfsReadDinodeT_keeps _) fun _ =>
      .bind (.act _) fun _ => .tell nofun
  exact .bind .get fun _ => .bind (.tell nofun) fun _ => .bind (.lift _) fun _ => .bind (.read _)
    fun _ => .bind (.act _) fun _ => .bind (hupdate _) fun _ => .pure _

theorem viopLookupT_keeps (v : ℕ) (name : Name) : Always KeepsFiles (viopLookupT v name) := by
  refine .bind (.read _) fun _ => .bind (.read _) fun p => .bind (.lift _) fun found => ?_
  cases found with
  | none => exact .pure _
  | some i => exact .bind .get fun _ => .bind (rfsNewVinodeT_keeps _) fun _ => .pure _

theorem attachFoundT_keeps (this foundVinode : ℕ) :
    Always KeepsFiles (attachFoundT this foundVinode) := by
  refine .bind (.read _) fun x => .bind (.read _) fun e => .bind .get fun s => ?_
  cases hashGetVinode s x.sb x.inum with
  | none =>
    exact .bind (.act _) fun _ => .bind (hashPutVinodeT_keeps _) fun _ => hashPutDentryT_keeps _
  | some _ =>
    exact .bind (.act _) fun _ => .bind (.tell nofun) fun _ => .bind (.act _) fun _ =>
      hashPutDentryT_keeps _

theorem lookupLoopT_keeps (tokens : List Name) (this parent : ℕ) :
    Always KeepsFiles (lookupLoopT tokens this parent) := by
  induction tokens generalizing this parent with
  | nil => exact .pure _
  | cons token tokens ih =>
    refine .bind .get fun s => ?_
    cases hashGetDentry s this token with
    | some t => exact ih t this
    | none =>
      refine .bind (allocVfsDentryT_keeps _ _ _) fun t => .bind (.read _) fun v =>
        .bind (viopLookupT_keeps v token) fun found => ?_
      cases found with
      | none => exact .bind (.tell nofun) fun _ => .bind (.act _) fun _ => .pure _
      | some u => exact .bind (attachFoundT_keeps t u) fun _ => ih t this

theorem viopCreateT_keeps (v : ℕ) (name : Name) : Always KeepsFiles (viopCreateT v name) := by
  have hloop : ∀ n i, Always KeepsFiles (freeInodeLoopT n i) := by
    intro n
    induction n with
    | zero => exact fun i => .fail _
    | succ n ih =>
      exact fun i => .bind (rfsReadDinodeT_keeps i) fun _ => .ite (.pure _) <|
        .bind (.tell nofun) fun _ => ih (i + 1)
  exact .bind (.read _) fun _ => .bind (.read _) fun _ => .bind (hloop _ _) fun _ =>
    .bind (.lift _) fun _ => .bind (.act _) fun _ => .bind (.tell nofun) fun _ =>
    .bind (rfsNewVinodeT_keeps _) fun _ => .bind (.lift _) fun _ => .ite (.pure _) (.pure _)

theorem createFileT_keeps (path : List UInt8) (parent : ℕ) (missName : Name) :
    Always KeepsFiles (createFileT path parent missName) := by
  refine .bind (.read _) fun basename => .ite (.pure _) <| .bind (allocVfsDentryT_keeps _ _ _)
    fun t => .bind (.read _) fun v => .bind (viopCreateT_keeps v basename) fun newInode => ?_
  cases newInode with
  | none => exact .fail _
  | some u =>
    have hattach : Always KeepsFiles (attachNewT t u) :=
      .bind (.read _) fun _ => .bind (.act _) fun _ => .bind (hashPutDentryT_keeps t) fun _ =>
        hashPutVinodeT_keeps u
    exact .bind hattach fun _ => .pure _

theorem openDentryT_keeps (t flags : ℕ) : Always KeepsFiles (openDentryT t flags) := by
  have halloc : ∀ r w, Always KeepsFiles (allocVfsFileT t r w) := fun _ _ =>
    .bind .get fun _ => .bind (.tell nofun) fun _ => .lift _
  refine .bind (.read _) fun v => .bind (.read _) fun x => .ite (.pure _) <| .bind (.read _)
    fun mode => .bind (halloc _ _) fun f => ?_
  cases x.sb with
  | rfs => exact .pure _
  | hostfs => exact .fail _

/-- `vfs_open` gives back no file structure. -/
theorem vfsOpenT_keeps (path : List UInt8) (flags : ℕ) :
    Always KeepsFiles (vfsOpenT path flags) := by
  have hlookup : ∀ parent, Always KeepsFiles (lookupFinalDentryT path parent) := fun _ =>
    .ite (.fail _) (lookupLoopT_keeps _ _ _)
  refine .bind .get fun s => .bind (hlookup _) fun r => ?_
  cases r with
  | found t q => exact openDentryT_keeps t flags
  | missing q n =>
    refine .ite (.pure _) <| .bind (createFileT_keeps path q n) fun t => ?_
    cases t with
    | none => exact .pure _
    | some t => exact openDentryT_keeps t flags

/-- Nor does `vfs_close`. -/
theorem closeFileT_keeps (file : File) : Always KeepsFiles (closeFileT file) := by
  have hfree : ∀ t, Always KeepsFiles (freeVfsDentryT t) := fun t =>
    .bind (.read _) fun _ => .ite (.pure _) <| .bind (.tell nofun) fun _ => .act _
  have hrelease : ∀ t v dRef, Always KeepsFiles (releaseDentryT t v dRef) := fun t v dRef =>
    .ite (.pure _) <| .bind (hashEraseDentryT_keeps t) fun _ => .bind (hfree t) fun _ =>
      .bind (.act _) fun _ => .bind (.read _) fun _ => .ite (.bind (.act _) fun _ =>
        .bind (hashEraseVinodeT_keeps v) fun _ => .bind (.tell nofun) fun _ => .act _) (.pure _)
  exact .bind (.read _) fun _ => .ite (.pure _) <| .bind (.read _) fun _ => .bind (.read _)
    fun _ => .bind (.act _) fun _ => .bind (hrelease _ _ _) fun _ => .pure _

/-- The page of a file structure. -/
theorem allocVfsFileT_runs {r w : Bool} {l : List PageEvent}
    (h : Runs (allocVfsFileT t r w) s l f s') : l = [.alloc (.file f)] := by
  have hsnd := h.snd
  rw [snd_allocVfsFileT, allocVfsFile, State.allocPage] at hsnd
  obtain ⟨e, -, hsnd⟩ := (bind_ok_iff _ _ _).1 hsnd
  cases hsnd
  obtain ⟨l₁, u, s₁, l₂, hget, h₁, rfl⟩ := h.of_bind
  obtain ⟨l₃, u', s₂, l₄, htell, hlift, rfl⟩ := h₁.of_bind
  obtain ⟨rfl, -⟩ := hlift.of_lift
  cases hget
  cases htell
  rfl

/-- Behind the lookup `vfs_open` takes the page of the file structure only. -/
theorem openDentryT_runs {flags : ℕ} {l : List PageEvent}
    (h : Runs (openDentryT t flags) s l (some f) s') : l = [.alloc (.file f)] := by
  obtain ⟨l₁, v, s₁, l₂, hinode, h₁, rfl⟩ := h.of_bind
  obtain ⟨l₃, x, s₂, l₄, hvinode, h₂, rfl⟩ := h₁.of_bind
  obtain ⟨rfl, -⟩ := hinode.of_lift
  obtain ⟨rfl, -⟩ := hvinode.of_lift
  split at h₂
  · cases h₂
  obtain ⟨l₅, mode, s₃, l₆, hmode, h₃, rfl⟩ := h₂.of_bind
  obtain ⟨rfl, -⟩ := hmode.of_lift
  obtain ⟨l₇, f', s₄, l₈, halloc, hpure, rfl⟩ := h₃.of_bind
  cases hsb : x.sb with
  | hostfs =>
    rw [hsb] at hpure
    cases hpure
  | rfs =>
    rw [hsb] at hpure
    cases hpure
    obtain rfl := allocVfsFileT_runs halloc
    rfl

/-- `vfs_open` returns a file structure that it has allocated. -/
theorem vfsOpenT_file {path : List UInt8} {flags : ℕ} {l : List PageEvent}
    (h : Runs (vfsOpenT path flags) s l (some f) s') : .alloc (.file f) ∈ l := by
  refine h.mem_of_bind fun s₁ s l h => h.mem_of_bind fun r s l h => ?_
  cases r with
  | found t q => exact openDentryT_runs h ▸ List.mem_cons_self
  | missing q n =>
    dsimp only at h
    split at h
    · cases h
    refine h.mem_of_bind fun o s l h => ?_
    cases o with
    | none => cases h
    | some t => exact openDentryT_runs h ▸ List.mem_cons_self

/-! ## A file without a dentry -/

variable {p : ℕ} {n : Name}

theorem hashPutDentryT_new {e : Dentry} (he : s.dentries t = some e)
    (hk : s.dentryHashTable.lookup (e.parent, e.name) = none) :
    Runs (hashPutDentryT t) s [.alloc (.dentryKey t), .alloc (.dentryNode t)] ()
      { s with dentryHashTable := s.dentryHashTable.insert (e.parent, e.name) t } := by
  refine .quiet_bind (.read (State.dentry_eq_ok.2 he)) <| .tell_bind <| .tell_bind <|
    .quiet_bind .get ?_
  rw [hk]
  exact .act rfl

theorem hashPutVinodeT_new {x : Vinode} (hv : s.vinodes v = some x) (hx : x.inum < ninodes)
    (hk : s.vinodeHashTable.lookup (x.sb, x.inum) = none) :
    Runs (hashPutVinodeT v) s [.alloc (.vinodeKey v), .alloc (.vinodeNode v)] ()
      { s with vinodeHashTable := s.vinodeHashTable.insert (x.sb, x.inum) v } := by
  refine .quiet_bind (.read (State.vinode_eq_ok.2 hv)) ?_
  rw [if_neg (Nat.not_le.2 (hx.trans (by decide)))]
  refine .tell_bind <| .tell_bind <| .quiet_bind .get ?_
  rw [hk]
  exact .act rfl

theorem rfsReadDinodeT_runs {i : ℕ} {x : Dinode} {l : List PageEvent}
    (h : Runs (rfsReadDinodeT i) s l x s') : l = [.alloc .dinode] := by
  obtain ⟨l₁, y, s₁, l₂, hread, hrest, rfl⟩ := h.of_bind
  obtain ⟨rfl, -⟩ := hread.of_lift
  cases hrest
  rfl

theorem rfsUpdateVinodeT_runs {u : Unit} {l : List PageEvent}
    (h : Runs (rfsUpdateVinodeT v) s l u s') :
    l = [.alloc .dinode, .free .dinode] := by
  obtain ⟨l₁, x, s₁, l₂, hread, h₁, rfl⟩ := h.of_bind
  obtain ⟨l₃, y, s₂, l₄, hdinode, h₂, rfl⟩ := h₁.of_bind
  obtain ⟨rfl, -⟩ := hread.of_lift
  obtain rfl := rfsReadDinodeT_runs hdinode
  cases h₂
  rfl

theorem rfsNewVinodeT_runs {i : ℕ} {l : List PageEvent} (h : Runs (rfsNewVinodeT i) s l v s') :
    l = [.alloc (.vinode v), .alloc .dinode, .free .dinode] := by
  obtain ⟨l₁, s₁, s₂, l₂, hget, h₁, rfl⟩ := h.of_bind
  obtain ⟨l₃, u, s₃, l₄, htell, h₂, rfl⟩ := h₁.of_bind
  obtain ⟨l₅, v', s₄, l₆, halloc, h₃, rfl⟩ := h₂.of_bind
  obtain ⟨l₇, x, s₅, l₈, hread, h₄, rfl⟩ := h₃.of_bind
  obtain ⟨l₉, u', s₆, l₁₀, hact, h₅, rfl⟩ := h₄.of_bind
  obtain ⟨l₁₁, u'', s₇, l₁₂, hupdate, hpure, rfl⟩ := h₅.of_bind
  cases hget
  cases htell
  cases halloc
  obtain ⟨rfl, -⟩ := hread.of_lift
  obtain ⟨rfl, -⟩ := hact.of_lift
  obtain rfl := rfsUpdateVinodeT_runs hupdate
  cases hpure
  rfl

/-- The pages of a successful lookup in a directory. -/
theorem viopLookupT_runs {l : List PageEvent} {u : ℕ} (h : Runs (viopLookupT v n) s l (some u) s') :
    l = [.alloc (.vinode u), .alloc .dinode, .free .dinode] := by
  obtain ⟨l₁, c, s₁, l₂, hviop, h₁, rfl⟩ := h.of_bind
  obtain ⟨l₃, p, s₂, l₄, hread, h₂, rfl⟩ := h₁.of_bind
  obtain ⟨l₅, found, s₃, l₆, hfind, h₃, rfl⟩ := h₂.of_bind
  obtain ⟨rfl, -⟩ := hviop.of_lift
  obtain ⟨rfl, -⟩ := hread.of_lift
  obtain ⟨rfl, -⟩ := hfind.of_lift
  cases found with
  | none => cases h₃
  | some i =>
    obtain ⟨l₇, s₄, s₅, l₈, hget, h₄, rfl⟩ := h₃.of_bind
    obtain ⟨l₉, v', s₆, l₁₀, hnew, hpure, rfl⟩ := h₄.of_bind
    cases hget
    cases hpure
    obtain rfl := rfsNewVinodeT_runs hnew
    rfl

/-- The pages of a lookup that builds a dentry and a vinode, on the page `k` and the next. -/
def missEvents (k : ℕ) : List PageEvent :=
  [.alloc (.dentry k), .alloc (.vinode (k + 1)), .alloc .dinode, .free .dinode,
    .alloc (.vinodeKey (k + 1)), .alloc (.vinodeNode (k + 1)), .alloc (.dentryKey k),
    .alloc (.dentryNode k)]

variable {d j : ℕ}

theorem attachFoundT_new {n : Name} {buf : Buf} (hl : s.vinodeHashTable.lookup (.rfs, j) = none)
    (hlt : j < ninodes) (hk : s.dentryHashTable.lookup (some p, n) = none) :
    Runs (attachFoundT s.pages (s.pages + 1)) (foundState s p n j buf)
      [.alloc (.vinodeKey (s.pages + 1)), .alloc (.vinodeNode (s.pages + 1)),
        .alloc (.dentryKey s.pages), .alloc (.dentryNode s.pages)] () (newState s p n j buf) := by
  have hvin : (foundState s p n j buf).vinode (s.pages + 1) =
      .ok (newVinode (s.disk.dinode j) j) := State.vinode_eq_ok.2 (Function.update_self _ _ _)
  have hden : (foundState s p n j buf).dentry s.pages =
      .ok { name := n, dRef := 0, dentryInode := none, parent := some p } :=
    State.dentry_eq_ok.2 (Function.update_self _ _ _)
  have hhash : hashGetVinode (foundState s p n j buf) (newVinode (s.disk.dinode j) j).sb
      (newVinode (s.disk.dinode j) j).inum = none :=
    (if_neg (Nat.not_le.2 (hlt.trans (by decide)))).trans hl
  have hx₁ : State.vinodes ((foundState s p n j buf).setDentry s.pages
      { name := n, dRef := 0, dentryInode := some (s.pages + 1), parent := some p })
      (s.pages + 1) = some (newVinode (s.disk.dinode j) j) := Function.update_self _ _ _
  refine .quiet_bind (.read hvin) <| .quiet_bind (.read hden) <| .quiet_bind .get ?_
  rw [hhash]
  refine .quiet_bind (.act (addRef_eq hx₁)) <|
    .bind (hashPutVinodeT_new (Function.update_self _ _ _) hlt hl) <|
    (hashPutDentryT_new (Function.update_self _ _ _) hk).congr ?_
  simp only [State.setVinode, State.setDentry, foundState, newState, State.addDentry,
    State.addVinode, Function.update_idem]
  rfl

/-- The lookup passes the dentries of the table, which costs no page. -/
theorem Follows.lookupLoopT {ns ms : List Name} {q : ℕ} {m : Name} (h : Follows s ns p q) (o : ℕ) :
    Fs.lookupLoopT (ns ++ m :: ms) p o s = Fs.lookupLoopT (m :: ms) q q s := by
  induction ns generalizing p o with
  | nil =>
    cases h
    rfl
  | cons n ns ih =>
    obtain ⟨t, ht, h⟩ := h
    rw [List.cons_append, Fs.lookupLoopT]
    change Traced.bind Traced.get _ s = _
    rw [Traced.bind]
    dsimp only [Traced.get, Traced.lift]
    rw [ht]
    exact ih h p

namespace Unopened

variable {ns : List Name} (h : Unopened s ns n p d j)

include h

/-- The pages of the lookup of a file that has neither a dentry nor a vinode. -/
theorem lookupLoopT_runs (hl : s.vinodeHashTable.lookup (.rfs, j) = none) (o : ℕ) :
    ∃ s', Runs (lookupLoopT [n] p o) s (missEvents s.pages) (.found s.pages p) s' := by
  obtain ⟨e, v, x, he, hc⟩ := h.parent
  have hlt := h.inv.good.lt j (h.inv.good.entries d _ (mem_of_dirFind h.entry)).2.1
  have hpage := h.inv.tables.page_lt_dentry he.dentry
  have hden : State.dentry { s with
      pages := s.pages + 1
      dentries := Function.update s.dentries s.pages
        (some { name := n, dRef := 0, dentryInode := none, parent := some p }) } p = .ok e :=
    State.dentry_eq_ok.2 ((Function.update_of_ne hpage.ne _ _).trans he.dentry)
  have hinode : State.dentryInode { s with
      pages := s.pages + 1
      dentries := Function.update s.dentries s.pages
        (some { name := n, dRef := 0, dentryInode := none, parent := some p }) } p = .ok v := by
    rw [State.dentryInode, hden, ok_bind, he.inode]
  have halloc : Runs (allocVfsDentryT n none (some p)) s [.alloc (.dentry s.pages)] s.pages { s with
      pages := s.pages + 1
      dentries := Function.update s.dentries s.pages
        (some { name := n, dRef := 0, dentryInode := none, parent := some p }) } := rfl
  obtain ⟨buf, hlook⟩ := h.inv.lookup_miss (p := p) hc h.dir h.valid
  rw [h.entry, ← snd_viopLookupT] at hlook
  obtain ⟨l, hrun⟩ := Runs.of_snd hlook
  obtain rfl := viopLookupT_runs hrun
  refine ⟨newState s p n j buf, .quiet_bind .get ?_⟩
  rw [h.hashGet]
  exact .bind halloc <| .quiet_bind (.read hinode) <| .bind hrun <|
    .bind (attachFoundT_new hl hlt h.hashGet) .pure

/-- The pages of `vfs_open`, where only the file itself has to be looked up. -/
theorem vfsOpenT_runs {path : List UInt8} {flags : ℕ} {l : List PageEvent}
    (ht : pathTokens path = ns ++ [n]) (hl : s.vinodeHashTable.lookup (.rfs, j) = none)
    (hrun : Runs (vfsOpenT path flags) s l (some f) s') :
    l = missEvents s.pages ++ [.alloc (.file f)] ∧ f = s.pages + 2 ∧
      ∃ fl e u y, OpenedOnce s' ns n p d j f fl e u y := by
  have hopen := hrun.snd
  rw [snd_vfsOpenT] at hopen
  obtain ⟨l₁, s₁, s₂, l₂, hget, h₁, rfl⟩ := hrun.of_bind
  cases hget
  obtain ⟨l₃, r, s₃, l₄, hlookup, h₂, rfl⟩ := h₁.of_bind
  have hlen : ¬ MAX_PATH_LEN ≤ path.length := by
    intro hlen
    rw [lookupFinalDentryT, if_pos hlen] at hlookup
    cases hlookup
  have hloop : lookupFinalDentry s path s.vfsRootDentry = lookupLoop [n] p p s := by
    rw [lookupFinalDentry, if_neg hlen, ht, h.follows.lookupLoop]
  obtain ⟨s₄, hmiss⟩ := h.lookupLoopT_runs hl p
  have hlookup' : Runs (lookupFinalDentryT path s.vfsRootDentry) s (missEvents s.pages)
      (.found s.pages p) s₄ := by
    rw [lookupFinalDentryT, if_neg hlen, ht]
    exact (h.follows.lookupLoopT _).trans hmiss
  obtain ⟨rfl, rfl, rfl⟩ := hlookup.unique hlookup'
  obtain ⟨hf, fl, e, u, y, -, hopened⟩ := h.vfsOpen hloop hopen
  rw [openDentryT_runs h₂]
  exact ⟨rfl, hf, fl, e, u, y, hopened⟩

end Unopened

/-! ## Closing it -/

variable {e : Dentry} {x : Vinode}

theorem hashEraseDentryT_hit (he : s.dentries t = some e)
    (hk : s.dentryHashTable.lookup (e.parent, e.name) = some t) :
    Runs (hashEraseDentryT t) s [.free (.dentryNode t)] ()
      { s with dentryHashTable := s.dentryHashTable.erase (e.parent, e.name) } := by
  refine .quiet_bind (.read (State.dentry_eq_ok.2 he)) <| .quiet_bind .get ?_
  rw [hk]
  exact .tell_bind (.act rfl)

theorem freeVfsDentryT_unused (he : s.dentries t = some e) (hd : e.dRef = 0) :
    Runs (freeVfsDentryT t) s [.free (.dentry t)] () (s.freeDentry t) := by
  refine .quiet_bind (.read (State.dentry_eq_ok.2 he)) ?_
  rw [if_neg (by omega)]
  exact .tell_bind (.act rfl)

theorem hashEraseVinodeT_hit (hv : s.vinodes v = some x) (hx : x.inum < ninodes)
    (hk : s.vinodeHashTable.lookup (x.sb, x.inum) = some v) :
    Runs (hashEraseVinodeT v) s [.free (.vinodeNode v)] ()
      { s with vinodeHashTable := s.vinodeHashTable.erase (x.sb, x.inum) } := by
  refine .quiet_bind (.read (State.vinode_eq_ok.2 hv)) ?_
  rw [if_neg (Nat.not_le.2 (hx.trans (by decide)))]
  refine .quiet_bind .get ?_
  rw [hk]
  exact .tell_bind (.act rfl)

/-- The pages that the close of the last open file of a file gives back. -/
def lastEvents (t v : ℕ) : List PageEvent :=
  [.free (.dentryNode t), .free (.dentry t), .free (.vinodeNode v), .free (.vinode v)]

/-- The last reference to a dentry, and with it the last one to its vinode. -/
theorem releaseDentryT_last {i : ℕ} (he : Hashed s t e v) (hd : e.dRef = 0) (hc : Cached s i v x)
    (hx : x.inum = i ∧ x.sb = .rfs) (hlt : i < ninodes) (hr : x.ref = 1) :
    ∃ s', Runs (releaseDentryT t v e.dRef) s (lastEvents t v) () s' := by
  obtain ⟨rfl, hsb⟩ := hx
  set s₁ : State :=
    { s with dentryHashTable := s.dentryHashTable.erase (e.parent, e.name) } with hs₁
  set s₂ : State := s₁.freeDentry t with hs₂
  set s₃ : State := s₂.setVinode v { x with ref := x.ref + -1 } with hs₃
  have hv₂ : s₂.vinodes v = some x := hc.vinode
  have hv₃ : s₃.vinodes v = some { x with ref := x.ref + -1 } := Function.update_self _ _ _
  obtain ⟨buf, hwrite⟩ := rfsWriteBackVinode_eq hv₃ hlt
  set s₄ : State := { s₃ with
    disk := s₃.disk.setDinode x.inum x.toDinode, iobuffer := buf } with hs₄
  have hviop : viopSb s₃ v = .ok () := by
    simp only [viopSb, State.vinode_eq_ok.2 hv₃, ok_bind, hsb]
    rfl
  have hback : viopWriteBackVinode s₃ v = .ok s₄ := by
    rw [viopWriteBackVinode, hviop, ok_bind, hwrite]
  have hkey : s₄.vinodeHashTable.lookup (x.sb, x.inum) = some v := hsb ▸ hc.hash
  refine ⟨State.freeVinode { s₄ with
    vinodeHashTable := s₄.vinodeHashTable.erase (x.sb, x.inum) } v, ?_⟩
  rw [releaseDentryT, if_neg (not_not.2 hd)]
  refine .bind (hashEraseDentryT_hit he.dentry he.hash) <|
    .bind (freeVfsDentryT_unused (s := s₁) he.dentry hd) <|
    .quiet_bind (.act (addRef_eq hv₂)) <| .quiet_bind (.read (State.vinode_eq_ok.2 hv₃)) ?_
  rw [if_pos (by change x.ref + -1 = 0; omega)]
  exact .quiet_bind (.act hback) <| .bind (hashEraseVinodeT_hit (s := s₄) hv₃ hlt hkey) <|
    .tell_bind (.act rfl)

/-- The pages of `vfs_close`, for a file that is open once. -/
theorem OpenedOnce.closeFileT_runs {ns : List Name} {fl : File}
    (h : OpenedOnce s ns n p d j f fl e v x) :
    ∃ s', Runs (closeFileT fl) s (lastEvents fl.fDentry v) 0 s' ∧
      ClosePost s fl e j v x f { s' with files := s.files.erase f } := by
  obtain ⟨hinum, hsb⟩ := h.inv.tables.inum_eq h.cached
  obtain ⟨s', hclose, -, hpost⟩ := h.closeFile_eq
  set s₁ : State := s.setDentry fl.fDentry { e with dRef := e.dRef - 1 } with hs₁
  have he₁ : Hashed s₁ fl.fDentry { e with dRef := e.dRef - 1 } v :=
    ⟨Function.update_self _ _ _, h.hashed.hash, h.hashed.inode⟩
  have hd : e.dRef - 1 = 0 := by
    rw [h.dRef]
    rfl
  obtain ⟨s₂, hrelease⟩ := releaseDentryT_last he₁ hd ⟨h.cached.hash, h.cached.vinode⟩
    ⟨hinum, hsb⟩ (h.inv.lt h.cached) h.ref
  have hviop : viopSb s v = .ok () := by
    rw [viopSb, State.vinode_eq_ok.2 h.cached.vinode, ok_bind, hsb]
    rfl
  have hvinode : fl.vinode s = .ok (v, x) := by
    rw [File.vinode, h.hashed.dentryInode, ok_bind, State.vinode_eq_ok.2 h.cached.vinode]
    rfl
  have hrun : Runs (closeFileT fl) s (lastEvents fl.fDentry v) 0 s₂ := by
    refine .quiet_bind (.read hvinode) ?_
    dsimp only
    rw [if_neg (not_not.2 h.type_eq)]
    refine .quiet_bind (.read hviop) <|
      .quiet_bind (.read (State.dentry_eq_ok.2 h.hashed.dentry)) <|
      .quiet_bind (.act rfl) ?_
    exact .bind hrelease .pure
  have heq := hrun.snd
  rw [snd_closeFileT, hclose] at heq
  cases heq
  exact ⟨_, hrun, hpost⟩

end HustOS.Fs
