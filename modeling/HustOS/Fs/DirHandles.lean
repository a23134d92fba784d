import HustOS.Fs.Directory
import HustOS.Fs.Frame
import HustOS.Fs.Run

/-!
# Directory handles

Several descriptors on one directory. `rfs_hook_opendir` copies the block of the directory to new
pages and stores them in the vinode, over those of an earlier `opendir`; `rfs_readdir` reads from
the pages in the vinode, at the offset of the descriptor, up to the size the directory has now;
`rfs_hook_closedir` gives the pages in the vinode back and leaves the pointer there, and the page of
the record with it.

So a descriptor that is closed while another one is open takes the pages away from that one, and an
entry read at an offset behind the end of the copy is whatever the block held there. Without either
of them descriptors do not disturb each other (`handles_independent`).
-/

namespace HustOS.Fs

open Foundations

/-! ## Descriptors on a directory -/

/-- A descriptor on the directory: the offset of its file structure, the pages `rfs_hook_opendir`
took for it, and what the directory has held since. -/
structure Handle where
  offset : ℕ
  pages : List ℕ
  held : List (Name × ℕ)

/-- The file system, with the pages of blocks that `i_fs_info` of the directory leads to, the
entries they were copied from, the pages taken for an `rfs_dir_cache`, the pages `rfs_hook_closedir`
has given back and the open descriptors. -/
structure Listing where
  fs : State
  cache : List ℕ
  snapshot : List (Name × ℕ)
  records : List ℕ
  freed : List ℕ
  handles : ℕ → Option Handle

/-- What is done with the directory. -/
inductive DirEvent
  | opendir (fd : ℕ)
  | readdir (fd : ℕ)
  | closedir (fd : ℕ)
  | edit (op : DirOp)

/-- The entries of the directory with the vinode `vd`. -/
def dirEntries (s : State) (vd : ℕ) : List (Name × ℕ) :=
  match s.vinodes vd with
  | some x => dirList s.disk x.toDinode
  | none => []

namespace Listing

/-- `vfs_opendir`: the file structure takes a page, the pages after it are those of the blocks, and
the last one is that of the `rfs_dir_cache`. -/
def opendir (vd fd : ℕ) (w : Listing) : Except Fault Listing := do
  let s := w.fs.allocPage.2
  let (_, s') ← rfsHookOpendir s vd
  let pages := List.range' s.pages (s'.pages - s.pages)
  return { w with
    fs := s'.allocPage.2
    cache := pages
    snapshot := dirEntries s' vd
    records := s'.allocPage.1 :: w.records
    handles := Function.update w.handles fd (some ⟨0, pages, []⟩) }

/-- `vfs_readdir`, with the entry read. What a page that was given back holds is not known. -/
def readdir (vd fd : ℕ) (w : Listing) : Except Fault (Option (Name × ℕ) × Listing) :=
  match w.handles fd with
  | none => throw (.undefined "file")
  | some h => do
    match ← rfsReaddir w.fs vd h.offset with
    | none => return (none, w)
    | some (e, offset) =>
      if ∃ p ∈ w.cache, p ∈ w.freed then
        throw (.undefined "dir_base_addr")
      return (some e,
        { w with handles := Function.update w.handles fd (some { h with offset := offset }) })

/-- `vfs_closedir`: `rfs_hook_closedir` gives back the pages that `i_fs_info` leads to. -/
def closedir (vd fd : ℕ) (w : Listing) : Except Fault Listing := do
  let x ← w.fs.vinode vd
  match x.iFsInfo with
  | none => throw (.undefined "i_fs_info")
  | some _ =>
    return { w with freed := w.freed ++ w.cache, handles := Function.update w.handles fd none }

/-- The entries of this moment are among those held since each descriptor was opened. -/
def note (vd : ℕ) (w : Listing) : Listing :=
  { w with handles := fun fd =>
      (w.handles fd).map fun h => { h with held := h.held ++ dirEntries w.fs vd } }

end Listing

/-- An event, with the entry that was read. -/
def DirEvent.run (vd : ℕ) (ev : DirEvent) (w : Listing) :
    Except Fault (Option (Name × ℕ) × Listing) :=
  match ev with
  | .opendir fd => do
    let w ← w.opendir vd fd
    return (none, w.note vd)
  | .readdir fd => do
    let (r, w) ← w.readdir vd fd
    return (r, w.note vd)
  | .closedir fd => do
    let w ← w.closedir vd fd
    return (none, w.note vd)
  | .edit op => do
    let (_, s) ← op.exec vd w.fs
    return (none, { w with fs := s }.note vd)

/-- The event is one on the directory: a descriptor is opened that is not open, or used that is; and
no entry is added to 128. -/
def DirEvent.Proper (vd : ℕ) (w : Listing) : DirEvent → Prop
  | .opendir fd => w.handles fd = none
  | .readdir fd => w.handles fd ≠ none
  | .closedir fd => w.handles fd ≠ none
  | .edit op => op.name.Valid ∧ op.NodeOk w.fs ∧ (op.Adds → dirCount w.fs vd < oneBlockDirentrys)

/-- No other descriptor is open when one is closed, and nothing is read behind the end of the
copy. -/
def DirEvent.Alone (vd : ℕ) (w : Listing) : DirEvent → Prop
  | .readdir fd => ∀ h, w.handles fd = some h →
      h.offset < w.snapshot.length ∨ (dirEntries w.fs vd).length ≤ h.offset
  | .closedir fd => ∀ fd', fd' ≠ fd → w.handles fd' = none
  | _ => True

/-- What is reached from a state without an open descriptor by events that satisfy `C`. -/
inductive Lists (C : Listing → DirEvent → Prop) (vd : ℕ) : Listing → Prop
  | start {s : State} {l : List (Name × ℕ)} (rep : DirRep s vd l) :
      Lists C vd ⟨s, [], [], [], [], fun _ => none⟩
  | step {w w' : Listing} {ev : DirEvent} {r : Option (Name × ℕ)} (lists : Lists C vd w)
      (proper : ev.Proper vd w) (cond : C w ev) (run : ev.run vd w = .ok (r, w')) : Lists C vd w'

/-- What descriptors that are independent promise of an event: an entry that is read is one the
directory has held since the descriptor was opened, no page is given back twice or while its
descriptor is open, those of a descriptor are when it is closed, and none while another descriptor
is open. -/
structure Independent (w : Listing) (ev : DirEvent) (r : Option (Name × ℕ))
    (w' : Listing) : Prop where
  held : ∀ fd h e, ev = .readdir fd → w.handles fd = some h → r = some e → e ∈ h.held
  once : ∀ p, w'.freed.count p ≤ 1
  closed : ∀ fd h, ev = .closedir fd → w.handles fd = some h → ∀ p ∈ h.pages, w'.freed.count p = 1
  live : ∀ fd h, w'.handles fd = some h → ∀ p ∈ h.pages, p ∉ w'.freed
  alone : w'.freed ≠ w.freed → ∀ fd, w'.handles fd = none

/-! ## What each event keeps -/

variable {w w' : Listing} {vd fd : ℕ} {s s' : State} {l : List (Name × ℕ)} {r : Option (Name × ℕ)}
  {h : Handle}

theorem DirRep.dirEntries_eq (hr : DirRep s vd l) : dirEntries s vd = l := by
  obtain ⟨y, hy⟩ := hr
  rw [dirEntries, hy.vinode]
  exact hy.list

/-- The vinode `vd` is one of a directory with the cache `c`. -/
def CacheIs (n vd : ℕ) (c : Option DirCache) (s : State) : Prop :=
  n ≤ s.pages ∧ ∃ y, s.vinodes vd = some y ∧ y.type = DIR_I ∧ y.iFsInfo = c

/-- Nothing but `opendir` changes the cache of a directory. -/
theorem CacheIs.frame {n : ℕ} {c : Option DirCache} (hlt : vd < n) : Frame n (CacheIs n vd c) where
  pages h := h.1
  other h hv _ hp := by
    obtain ⟨hn, y, hy, htype, hc⟩ := h
    exact ⟨hn.trans hp, y, by rw [hv, hy], htype, hc⟩
  fresh o h hv := by
    obtain ⟨hn, y, hy, htype, hc⟩ := h
    exact ⟨hn, y, (Function.update_of_ne (by omega) _ _).trans hy, htype, hc⟩
  member h h₁ hx htype' hinfo := by
    rename_i s s₁ v x x'
    obtain ⟨hn, y, hy, htype, hc⟩ := h
    obtain ⟨-, y₁, hy₁, htype₁, hc₁⟩ := h₁
    by_cases hv : vd = v
    · subst hv
      rw [State.vinode_eq_ok, hy₁] at hx
      obtain rfl := Option.some.inj hx
      exact ⟨hn, x', Function.update_self _ _ _, htype'.trans htype₁, hinfo.trans hc₁⟩
    · exact ⟨hn, y, (Function.update_of_ne hv _ _).trans hy, htype, hc⟩
  free h h₁ hx hfile := by
    obtain ⟨hn, y, hy, htype, hc⟩ := h
    obtain ⟨-, y₁, hy₁, htype₁, -⟩ := h₁
    refine ⟨hn, y, (Function.update_of_ne ?_ _ _).trans hy, htype, hc⟩
    rintro rfl
    rw [State.vinode_eq_ok, hy₁] at hx
    obtain rfl := Option.some.inj hx
    exact absurd (hfile.symm.trans htype₁) (by decide)

theorem inumOf_state {a : Option ℕ × State} {b : DirRet} (hrun : inumOf a = .ok (b, s')) :
    s' = a.2 := by
  rw [inumOf] at hrun
  split at hrun
  · cases hrun
    rfl
  · obtain ⟨x, -, hrun⟩ := (bind_ok_iff _ _ _).1 hrun
    cases hrun
    rfl

/-- An operation on the directory leaves its cache alone. -/
theorem DirOp.cacheIs {n : ℕ} {c : Option DirCache} {op : DirOp} {b : DirRet} (hlt : vd < n)
    (hs : CacheIs n vd c s) (hrun : op.exec vd s = .ok (b, s')) : CacheIs n vd c s' := by
  have F := CacheIs.frame (c := c) hlt
  cases op with
  | create name =>
    obtain ⟨a, ha, hrun⟩ := (bind_ok_iff _ _ _).1 hrun
    rw [inumOf_state hrun]
    exact (F.rfs.rfsCreate hs vd name).of_ok ha
  | mkdir name =>
    obtain ⟨a, ha, hrun⟩ := (bind_ok_iff _ _ _).1 hrun
    rw [inumOf_state hrun]
    exact (F.rfs.rfsMkdir hs vd name).of_ok ha
  | link name u i =>
    obtain ⟨a, ha, hrun⟩ := (bind_ok_iff _ _ _).1 hrun
    cases hrun
    exact (F.rfs.rfsLink hs vd name u).of_ok ha
  | unlink name u =>
    obtain ⟨a, ha, hrun⟩ := (bind_ok_iff _ _ _).1 hrun
    cases hrun
    exact (F.rfs.rfsUnlink hs vd name u).of_ok ha
  | lookup name =>
    obtain ⟨a, ha, hrun⟩ := (bind_ok_iff _ _ _).1 hrun
    rw [inumOf_state hrun]
    have hsat := F.rfs.rfsLookup hs vd name
    rw [ha] at hsat
    exact hsat.2

/-- Where the descriptors and their pages stand: as long as one is open, the cache holds the entries
of the last `opendir` in pages that were not given back, and if it is the only one, these are its
pages. -/
structure Listed (vd : ℕ) (w : Listing) : Prop where
  rep : ∃ l, DirRep w.fs vd l
  cache : ∀ fd h, w.handles fd = some h → ∃ y c, w.fs.vinodes vd = some y ∧ y.iFsInfo = some c ∧
    ∀ i < w.snapshot.length, w.snapshot[i]? = some (entry c.dirBaseAddr i)
  pages : ∀ fd h, w.handles fd = some h → ∀ p ∈ h.pages, p ∉ w.freed
  lt : ∀ p, p ∈ w.cache ∨ p ∈ w.freed ∨ p ∈ w.records → p < w.fs.pages
  nodup : w.cache.Nodup ∧ w.freed.Nodup
  ne : ∀ fd h, w.handles fd = some h → w.cache ≠ []
  records : ∀ p ∈ w.records, p ∉ w.cache ∧ p ∉ w.freed
  last : ∀ fd h, w.handles fd = some h → (∀ fd', fd' ≠ fd → w.handles fd' = none) →
    w.cache = h.pages

/-- The entries of the last `opendir` were held since each descriptor was opened. -/
def Listing.Noted (w : Listing) : Prop :=
  ∀ fd h, w.handles fd = some h → ∀ e ∈ w.snapshot, e ∈ h.held

theorem Listing.note_handles (hn : (w.note vd).handles fd = some h) : ∃ h₀, w.handles fd = some h₀ ∧
    h.offset = h₀.offset ∧ h.pages = h₀.pages ∧ h.held = h₀.held ++ dirEntries w.fs vd := by
  obtain ⟨h₀, h₀eq, rfl⟩ := Option.map_eq_some_iff.1 hn
  exact ⟨h₀, h₀eq, rfl, rfl, rfl⟩

theorem Listing.note_none (hn : (w.note vd).handles fd = none) : w.handles fd = none :=
  Option.map_eq_none_iff.1 hn

theorem Listed.note (hw : Listed vd w) : Listed vd (w.note vd) where
  rep := hw.rep
  cache fd h hh := by
    obtain ⟨h₀, h₀eq, -⟩ := Listing.note_handles hh
    exact hw.cache fd h₀ h₀eq
  pages fd h hh p hp := by
    obtain ⟨h₀, h₀eq, -, hpages, -⟩ := Listing.note_handles hh
    exact hw.pages fd h₀ h₀eq p (hpages ▸ hp)
  lt := hw.lt
  nodup := hw.nodup
  ne fd h hh := by
    obtain ⟨h₀, h₀eq, -⟩ := Listing.note_handles hh
    exact hw.ne fd h₀ h₀eq
  records := hw.records
  last fd h hh hothers := by
    obtain ⟨h₀, h₀eq, -, hpages, -⟩ := Listing.note_handles hh
    rw [hpages]
    exact hw.last fd h₀ h₀eq fun fd' hne => Listing.note_none (hothers fd' hne)

theorem Listing.noted_note (hw : ∀ fd h, w.handles fd = some h → ∀ e ∈ w.snapshot,
    e ∈ h.held ∨ e ∈ dirEntries w.fs vd) : (w.note vd).Noted := by
  intro fd h hh e he
  obtain ⟨h₀, h₀eq, -, -, hheld⟩ := note_handles hh
  rw [hheld]
  exact List.mem_append.2 (hw fd h₀ h₀eq e he)

/-- The file system after `opendir`. -/
def openedState (s : State) (vd : ℕ) (y : Vinode) : State :=
  { s with
    iobuffer := s.disk (y.addrs 0)
    pages := s.pages + 3
    vinodes := Function.update s.vinodes vd (some { y with iFsInfo := some (dirCache s y) }) }

theorem Listing.opendir_eq {y : Vinode} (hy : DirHolds w.fs vd y l) :
    w.opendir vd fd = .ok { w with
      fs := openedState w.fs vd y
      cache := [w.fs.pages + 1]
      snapshot := l
      records := (w.fs.pages + 2) :: w.records
      handles := Function.update w.handles fd (some ⟨0, [w.fs.pages + 1], []⟩) } := by
  have hhook : rfsHookOpendir w.fs.allocPage.2 vd = .ok (0, { w.fs with
      iobuffer := w.fs.disk (y.addrs 0)
      pages := w.fs.pages + 2
      vinodes := Function.update w.fs.vinodes vd
        (some { y with iFsInfo := some (dirCache w.fs y) }) }) :=
    rfsHookOpendir_eq (s := w.fs.allocPage.2) hy.vinode hy.dir
  have hpages : List.range' w.fs.allocPage.2.pages (w.fs.pages + 2 - w.fs.allocPage.2.pages) =
      [w.fs.pages + 1] := by
    have hsub : w.fs.pages + 2 - (w.fs.pages + 1) = 1 := by omega
    change List.range' (w.fs.pages + 1) (w.fs.pages + 2 - (w.fs.pages + 1)) = _
    rw [hsub]
    rfl
  have hrep : DirHolds { w.fs with
      iobuffer := w.fs.disk (y.addrs 0)
      pages := w.fs.pages + 2
      vinodes := Function.update w.fs.vinodes vd
        (some { y with iFsInfo := some (dirCache w.fs y) }) } vd
      { y with iFsInfo := some (dirCache w.fs y) } l :=
    hy.frame (Function.update_self _ _ _) rfl rfl (fun _ _ => rfl) (Nat.le_add_right _ 2) rfl
  rw [Listing.opendir]
  dsimp only
  rw [hhook, ok_bind]
  dsimp only
  rw [hpages, DirRep.dirEntries_eq ⟨_, hrep⟩]
  rfl

theorem DirHolds.opened {y : Vinode} (hy : DirHolds s vd y l) :
    DirHolds (openedState s vd y) vd { y with iFsInfo := some (dirCache s y) } l :=
  hy.frame (Function.update_self _ _ _) rfl rfl (fun _ _ => rfl) (Nat.le_add_right _ 3) rfl

/-- `opendir` builds the cache in new pages. -/
theorem Listed.opendir (hw : Listed vd w) (hrun : w.opendir vd fd = .ok w') :
    Listed vd w' ∧ w'.freed = w.freed ∧ w'.snapshot = dirEntries w'.fs vd := by
  obtain ⟨l, y, hy⟩ := hw.rep
  rw [Listing.opendir_eq hy] at hrun
  cases hrun
  have hold : ∀ p, p ∈ w.cache ∨ p ∈ w.freed ∨ p ∈ w.records → p < w.fs.pages := hw.lt
  have hfrom : ∀ fd' h, Function.update w.handles fd (some ⟨0, [w.fs.pages + 1], []⟩) fd' = some h →
      fd' = fd ∧ h.pages = [w.fs.pages + 1] ∨ fd' ≠ fd ∧ w.handles fd' = some h := by
    intro fd' h hh
    by_cases hfd : fd' = fd
    · rw [hfd, Function.update_self] at hh
      obtain rfl := Option.some.inj hh
      exact .inl ⟨hfd, rfl⟩
    · rw [Function.update_of_ne hfd] at hh
      exact .inr ⟨hfd, hh⟩
  refine ⟨?_, rfl, (DirRep.dirEntries_eq ⟨_, hy.opened⟩).symm⟩
  refine { rep := ⟨l, _, hy.opened⟩, cache := ?_, pages := ?_, lt := ?_, nodup := ?_,
           ne := fun _ _ _ => List.cons_ne_nil _ _, records := ?_, last := ?_ }
  · intro fd' h hh
    exact ⟨_, dirCache w.fs y, Function.update_self _ _ _, rfl, fun i hi => hy.cache_entries hi⟩
  · intro fd' h hh p hp hmem
    obtain ⟨-, hpages⟩ | ⟨-, hh⟩ := hfrom fd' h hh
    · have hlt := hold p (.inr (.inl hmem))
      rw [hpages] at hp
      have heq := List.mem_singleton.1 hp
      omega
    · exact hw.pages fd' h hh p hp hmem
  · intro p hp
    change p < w.fs.pages + 3
    rcases hp with hp | hp | hp
    · have heq := List.mem_singleton.1 hp
      omega
    · have hlt := hold p (.inr (.inl hp))
      omega
    · rcases List.mem_cons.1 hp with rfl | hp
      · omega
      · have hlt := hold p (.inr (.inr hp))
        omega
  · exact ⟨List.nodup_singleton _, hw.nodup.2⟩
  · intro p hp
    rcases List.mem_cons.1 hp with rfl | hp
    · refine ⟨fun hmem => ?_, fun hmem => ?_⟩
      · have heq := List.mem_singleton.1 hmem
        omega
      · have hlt := hold _ (.inr (.inl hmem))
        omega
    · refine ⟨fun hmem => ?_, (hw.records p hp).2⟩
      have hlt := hold p (.inr (.inr hp))
      have heq := List.mem_singleton.1 hmem
      omega
  · intro fd' h hh hothers
    obtain ⟨-, hpages⟩ | ⟨hfd, -⟩ := hfrom fd' h hh
    · exact hpages.symm
    · have hnone : Function.update w.handles fd (some ⟨0, [w.fs.pages + 1], []⟩) fd = none :=
        hothers fd fun heq => hfd heq.symm
      rw [Function.update_self] at hnone
      cases hnone

/-- `readdir` moves the offset of its descriptor. -/
theorem Listed.readdir (hw : Listed vd w) (hrun : w.readdir vd fd = .ok (r, w')) :
    Listed vd w' ∧ w'.freed = w.freed ∧ w'.snapshot = w.snapshot ∧ w'.fs = w.fs ∧
      ∀ fd' h', w'.handles fd' = some h' → ∃ h, w.handles fd' = some h ∧ h'.held = h.held := by
  rw [Listing.readdir] at hrun
  cases hh : w.handles fd with
  | none =>
    rw [hh] at hrun
    cases hrun
  | some h =>
    simp only [hh] at hrun
    obtain ⟨o, -, hrun⟩ := (bind_ok_iff _ _ _).1 hrun
    cases o with
    | none =>
      cases hrun
      exact ⟨hw, rfl, rfl, rfl, fun fd' h' hh' => ⟨h', hh', rfl⟩⟩
    | some x =>
      obtain ⟨e, offset⟩ := x
      dsimp only at hrun
      split at hrun
      · cases hrun
      cases hrun
      have hfrom : ∀ fd' h', Function.update w.handles fd (some { h with offset := offset }) fd' =
          some h' → ∃ h₀, w.handles fd' = some h₀ ∧ h'.pages = h₀.pages ∧ h'.held = h₀.held := by
        intro fd' h' hh'
        by_cases hfd : fd' = fd
        · subst hfd
          rw [Function.update_self] at hh'
          obtain rfl := Option.some.inj hh'
          exact ⟨h, hh, rfl, rfl⟩
        · rw [Function.update_of_ne hfd] at hh'
          exact ⟨h', hh', rfl, rfl⟩
      refine ⟨?_, rfl, rfl, rfl, fun fd' h' hh' => ?_⟩
      · refine { rep := hw.rep, cache := ?_, pages := ?_, lt := hw.lt, nodup := hw.nodup,
                 ne := fun _ _ _ => hw.ne fd h hh, records := hw.records, last := ?_ }
        · intro fd' h' hh'
          obtain ⟨h₀, h₀eq, -⟩ := hfrom fd' h' hh'
          exact hw.cache fd' h₀ h₀eq
        · intro fd' h' hh' p hp
          obtain ⟨h₀, h₀eq, hpages, -⟩ := hfrom fd' h' hh'
          exact hw.pages fd' h₀ h₀eq p (hpages ▸ hp)
        · intro fd' h' hh' hothers
          obtain ⟨h₀, h₀eq, hpages, -⟩ := hfrom fd' h' hh'
          rw [hpages]
          refine hw.last fd' h₀ h₀eq fun fd'' hne => ?_
          have hnone : Function.update w.handles fd
              (some { h with offset := offset }) fd'' = none :=
            hothers fd'' hne
          by_cases hfd : fd'' = fd
          · rw [hfd, Function.update_self] at hnone
            cases hnone
          · rwa [Function.update_of_ne hfd] at hnone
      · obtain ⟨h₀, h₀eq, -, hheld⟩ := hfrom fd' h' hh'
        exact ⟨h₀, h₀eq, hheld⟩

/-- The only descriptor that is open is closed with its own pages. -/
theorem Listed.closedir (hw : Listed vd w) (hh : w.handles fd = some h)
    (hothers : ∀ fd', fd' ≠ fd → w.handles fd' = none) (hrun : w.closedir vd fd = .ok w') :
    Listed vd w' ∧ w'.freed = w.freed ++ h.pages ∧ ∀ fd', w'.handles fd' = none := by
  rw [Listing.closedir] at hrun
  obtain ⟨x, -, hrun⟩ := (bind_ok_iff _ _ _).1 hrun
  have hcache : w.cache = h.pages := hw.last fd h hh hothers
  split at hrun
  · cases hrun
  cases hrun
  have hnone : ∀ fd', Function.update w.handles fd none fd' = none := by
    intro fd'
    by_cases hfd : fd' = fd
    · rw [hfd, Function.update_self]
    · rw [Function.update_of_ne hfd, hothers fd' hfd]
  have hfree : ∀ fd' h', Function.update w.handles fd none fd' ≠ some h' := by
    intro fd' h' hh'
    rw [hnone] at hh'
    cases hh'
  refine ⟨?_, by rw [← hcache], hnone⟩
  refine { rep := hw.rep, cache := ?_, pages := ?_, lt := ?_, nodup := ?_, ne := ?_,
           records := ?_, last := ?_ }
  · exact fun fd' h' hh' => absurd hh' (hfree fd' h')
  · exact fun fd' h' hh' => absurd hh' (hfree fd' h')
  · intro p hp
    rcases hp with hp | hp | hp
    · exact hw.lt p (.inl hp)
    · rcases List.mem_append.1 hp with hp | hp
      · exact hw.lt p (.inr (.inl hp))
      · exact hw.lt p (.inl hp)
    · exact hw.lt p (.inr (.inr hp))
  · refine ⟨hw.nodup.1, hw.nodup.2.append hw.nodup.1 ?_⟩
    rw [hcache]
    exact fun p hfreed hpage => hw.pages fd h hh p hpage hfreed
  · exact fun fd' h' hh' => absurd hh' (hfree fd' h')
  · intro p hp
    obtain ⟨hc, hf⟩ := hw.records p hp
    refine ⟨hc, fun hmem => ?_⟩
    rcases List.mem_append.1 hmem with hmem | hmem
    · exact hf hmem
    · exact hc hmem
  · exact fun fd' h' hh' => absurd hh' (hfree fd' h')

/-- Creations and removals leave the cache alone. -/
theorem Listed.edit {op : DirOp} {b : DirRet} (hw : Listed vd w)
    (hproper : (DirEvent.edit op).Proper vd w) (hrun : op.exec vd w.fs = .ok (b, s)) :
    Listed vd { w with fs := s } := by
  obtain ⟨l, y, hy⟩ := hw.rep
  obtain ⟨hname, hnode, hroom⟩ := hproper
  have hsat := DirOp.sat ⟨y, hy⟩ hname hnode fun ha => hy.dirCount_eq ▸ hroom ha
  rw [hrun] at hsat
  obtain ⟨l', -, hrep⟩ := hsat
  have hcache : CacheIs w.fs.pages vd y.iFsInfo s :=
    DirOp.cacheIs hy.page ⟨Nat.le_refl _, y, hy.vinode, hy.dir.type, rfl⟩ hrun
  obtain ⟨hpages, y', hy', -, hinfo⟩ := hcache
  refine { rep := ⟨l', hrep⟩, cache := ?_, pages := hw.pages, lt := ?_, nodup := hw.nodup,
           ne := hw.ne, records := hw.records, last := hw.last }
  · intro fd h hh
    obtain ⟨y₀, c, hy₀, hc, hent⟩ := hw.cache fd h hh
    obtain rfl := Option.some.inj (hy₀.symm.trans hy.vinode)
    exact ⟨y', c, hy', hinfo.trans hc, hent⟩
  · exact fun p hp => (hw.lt p hp).trans_le hpages

/-- What `rfs_readdir` returns is in the cache, at an offset inside the directory. -/
theorem rfsReaddir_some {offset offset' : ℕ} {e : Name × ℕ}
    (hrun : rfsReaddir s vd offset = .ok (some (e, offset'))) : ∃ y c, s.vinodes vd = some y ∧
      y.iFsInfo = some c ∧ offset < y.size / direntrySize ∧ e = entry c.dirBaseAddr offset := by
  rw [rfsReaddir] at hrun
  obtain ⟨y, hy, hrun⟩ := (bind_ok_iff _ _ _).1 hrun
  by_cases hend : y.size / direntrySize ≤ offset
  · simp [hend] at hrun
  simp only [hend, if_false] at hrun
  cases hc : y.iFsInfo with
  | none =>
    rw [hc] at hrun
    cases hrun
  | some c =>
    simp only [hc] at hrun
    split at hrun
    · cases hrun
    · cases hrun
      exact ⟨y, c, State.vinode_eq_ok.1 hy, hc, Nat.not_le.1 hend, rfl⟩

/-- An entry that is read inside the copy was in the directory at the last `opendir`. -/
theorem Listed.mem_snapshot {e : Name × ℕ} (hw : Listed vd w) (hh : w.handles fd = some h)
    (hcond : (DirEvent.readdir fd).Alone vd w) (hrun : w.readdir vd fd = .ok (some e, w')) :
    e ∈ w.snapshot := by
  rw [Listing.readdir] at hrun
  simp only [hh] at hrun
  obtain ⟨o, ho, hrun⟩ := (bind_ok_iff _ _ _).1 hrun
  cases o with
  | none => cases hrun
  | some x =>
    obtain ⟨e', offset'⟩ := x
    dsimp only at hrun
    split at hrun
    · cases hrun
    cases hrun
    obtain ⟨y, c, hy, hc, hlt, rfl⟩ := rfsReaddir_some ho
    obtain ⟨y₀, c₀, hy₀, hc₀, hent⟩ := hw.cache fd h hh
    obtain rfl := Option.some.inj (hy₀.symm.trans hy)
    obtain rfl := Option.some.inj (hc₀.symm.trans hc)
    obtain ⟨l, y₁, hrep⟩ := hw.rep
    obtain rfl := Option.some.inj (hrep.vinode.symm.trans hy)
    have hlen : (dirEntries w.fs vd).length = y₁.size / direntrySize := by
      rw [DirRep.dirEntries_eq ⟨y₁, hrep⟩, hrep.length]
    have hinside : h.offset < w.snapshot.length := (hcond h hh).resolve_right (by omega)
    exact List.mem_of_getElem? (hent h.offset hinside)

theorem count_le_one {L : List ℕ} (hn : L.Nodup) (p : ℕ) : L.count p ≤ 1 :=
  List.nodup_iff_count_le_one.1 hn p

/-- **One event** keeps the descriptors apart. -/
theorem Listed.step {ev : DirEvent} (hw : Listed vd w) (hnoted : w.Noted) (hproper : ev.Proper vd w)
    (hcond : ev.Alone vd w) (hrun : ev.run vd w = .ok (r, w')) :
    Listed vd w' ∧ w'.Noted ∧ Independent w ev r w' := by
  cases ev with
  | opendir fd =>
    obtain ⟨w₁, h₁, hrun⟩ := (bind_ok_iff _ _ _).1 hrun
    cases hrun
    obtain ⟨hw₁, hfreed, hsnap⟩ := hw.opendir h₁
    refine ⟨hw₁.note, Listing.noted_note fun fd' h hh e he => .inr (hsnap ▸ he), ?_⟩
    exact {
      held := fun _ _ _ hev => nomatch hev
      once := count_le_one hw₁.nodup.2
      closed := fun _ _ hev => nomatch hev
      live := hw₁.note.pages
      alone := fun hne => absurd hfreed hne }
  | readdir fd =>
    obtain ⟨⟨o, w₁⟩, h₁, hrun⟩ := (bind_ok_iff _ _ _).1 hrun
    cases hrun
    obtain ⟨hw₁, hfreed, hsnap, -, hheld⟩ := hw.readdir h₁
    refine ⟨hw₁.note, Listing.noted_note fun fd' h hh e he => ?_, ?_⟩
    · obtain ⟨h₀, h₀eq, heq⟩ := hheld fd' h hh
      rw [heq]
      exact .inl (hnoted fd' h₀ h₀eq e (hsnap ▸ he))
    · refine {
        held := ?_
        once := count_le_one hw₁.nodup.2
        closed := fun _ _ hev => nomatch hev
        live := hw₁.note.pages
        alone := fun hne => absurd hfreed hne }
      intro fd' h e hev hh hr
      cases hev
      subst hr
      exact hnoted fd h hh e (hw.mem_snapshot hh hcond h₁)
  | closedir fd =>
    obtain ⟨w₁, h₁, hrun⟩ := (bind_ok_iff _ _ _).1 hrun
    cases hrun
    obtain ⟨h, hh⟩ := Option.ne_none_iff_exists'.1 hproper
    obtain ⟨hw₁, hfreed, hnone⟩ := hw.closedir hh hcond h₁
    have hall : ∀ fd', (w₁.note vd).handles fd' = none := fun fd' => by
      rw [Listing.note]
      dsimp only
      rw [hnone fd', Option.map_none]
    refine ⟨hw₁.note, fun fd' h' hh' => ?_, ?_⟩
    · rw [hall fd'] at hh'
      cases hh'
    · refine {
        held := fun _ _ _ hev => nomatch hev
        once := count_le_one hw₁.nodup.2
        closed := ?_
        live := hw₁.note.pages
        alone := fun _ => hall }
      intro fd' h' hev hh' p hp
      cases hev
      obtain rfl := Option.some.inj (hh.symm.trans hh')
      have hmem : p ∈ w₁.freed := by
        rw [hfreed]
        exact List.mem_append_right _ hp
      exact List.count_eq_one_of_mem hw₁.nodup.2 hmem
  | edit op =>
    obtain ⟨⟨b, s⟩, h₁, hrun⟩ := (bind_ok_iff _ _ _).1 hrun
    cases hrun
    have hw₁ := hw.edit hproper h₁
    refine ⟨hw₁.note, Listing.noted_note fun fd' h hh e he => .inl (hnoted fd' h hh e he), ?_⟩
    exact {
      held := fun _ _ _ hev => nomatch hev
      once := count_le_one hw₁.nodup.2
      closed := fun _ _ hev => nomatch hev
      live := hw₁.note.pages
      alone := fun hne => absurd rfl hne }

theorem Lists.listed (h : Lists (fun w ev => ev.Alone vd w) vd w) : Listed vd w ∧ w.Noted := by
  induction h with
  | @start s l rep =>
    refine ⟨?_, fun fd h hh => nomatch hh⟩
    exact {
      rep := ⟨l, rep⟩
      cache := fun _ _ hh => nomatch hh
      pages := fun _ _ hh => nomatch hh
      lt := fun p hp => by simp at hp
      nodup := ⟨List.nodup_nil, List.nodup_nil⟩
      ne := fun _ _ hh => nomatch hh
      records := fun p hp => by simp at hp
      last := fun _ _ hh => nomatch hh }
  | step _ proper cond run ih =>
    obtain ⟨hw, hnoted, -⟩ := ih.1.step ih.2 proper cond run
    exact ⟨hw, hnoted⟩

/-- Closing a descriptor while another one is open takes the pages away from that one. -/
theorem Listed.not_independent {fd' : ℕ} {h' : Handle} (hw : Listed vd w) (hne : fd' ≠ fd)
    (hh' : w.handles fd' = some h') (hrun : (DirEvent.closedir fd).run vd w = .ok (r, w')) :
    ¬ Independent w (.closedir fd) r w' := by
  intro hind
  obtain ⟨w₁, h₁, hrun⟩ := (bind_ok_iff _ _ _).1 hrun
  cases hrun
  rw [Listing.closedir] at h₁
  obtain ⟨x, -, h₁⟩ := (bind_ok_iff _ _ _).1 h₁
  split at h₁
  · cases h₁
  cases h₁
  have hfreed : w.freed ++ w.cache ≠ w.freed := fun heq =>
    hw.ne fd' h' hh' (List.append_right_eq_self.1 heq)
  have hnone := hind.alone hfreed fd'
  simp only [Listing.note, Function.update_of_ne hne, hh', Option.map_some] at hnone
  cases hnone

/-- **Directory handles.** In every run in which no descriptor is closed while another one is open
and nothing is read behind the end of the last copy, each event keeps what independent descriptors
promise; a `closedir` does so only if no other descriptor is open. The pages of the `rfs_dir_cache`
records are never given back. -/
theorem handles_independent (h : Lists (fun w ev => ev.Alone vd w) vd w) :
    (∀ ev r w', DirEvent.Proper vd w ev → ev.Alone vd w → ev.run vd w = .ok (r, w') →
      Independent w ev r w') ∧
    (∀ fd r w', DirEvent.run vd (.closedir fd) w = .ok (r, w') → Independent w (.closedir fd) r w' →
      (DirEvent.closedir fd).Alone vd w) ∧
    ∀ p ∈ w.records, p ∉ w.freed := by
  obtain ⟨hw, hnoted⟩ := h.listed
  refine ⟨fun ev r w' hproper hcond hrun => ?_, fun fd r w' hrun hind fd' hne => ?_,
    fun p hp => (hw.records p hp).2⟩
  · exact (hw.step hnoted hproper hcond hrun).2.2
  · by_contra hopen
    obtain ⟨h', hh'⟩ := Option.ne_none_iff_exists'.1 hopen
    exact hw.not_independent hne hh' hrun hind

/-! ## Two descriptors, and a creation while one is open -/

/-- Every directory of every run may be opened. -/
theorem Inv.dirRep {d : ℕ} {y : Vinode} (h : Inv s) (hy : Cached s d vd y) (hd : y.type = DIR_I) :
    DirRep s vd (s.vol.dir d) := by
  have hdt : (s.vol.node d).type = DIR_I := by
    rw [h.node_eq hy]
    exact hd
  obtain ⟨hdir, -, hlist⟩ := h.dir_of_cached hy hdt
  refine ⟨y, hy.vinode, hdir, ?_, hlist.symm, ?_, h.tables.page_lt_vinode hy.vinode, h.nblocks⟩
  · rw [(h.tables.inum_eq hy).1]
    exact h.lt hy
  · exact fun e he => h.good.lt _ (h.good.entries d e he).2.1

/-- The events of the runs below may be made. -/
def DirEvent.check (vd : ℕ) (w : Listing) : DirEvent → Bool
  | .opendir fd => (w.handles fd).isNone
  | .readdir fd | .closedir fd => (w.handles fd).isSome
  | .edit (.create n) => decide (n.length < RFS_MAX_FILE_NAME_LEN ∧ (0 : UInt8) ∉ n) &&
      decide (dirCount w.fs vd < oneBlockDirentrys)
  | .edit _ => false

theorem DirEvent.proper_of_check {ev : DirEvent} (h : ev.check vd w = true) : ev.Proper vd w := by
  cases ev with
  | opendir fd => exact Option.isNone_iff_eq_none.1 h
  | readdir fd => exact Option.isSome_iff_ne_none.1 h
  | closedir fd => exact Option.isSome_iff_ne_none.1 h
  | edit op =>
    cases op with
    | create n =>
      obtain ⟨hname, hroom⟩ := Bool.and_eq_true_iff.1 h
      have hvalid : n.length < RFS_MAX_FILE_NAME_LEN ∧ (0 : UInt8) ∉ n := of_decide_eq_true hname
      exact ⟨hvalid, trivial, fun _ => of_decide_eq_true hroom⟩
    | mkdir n => cases h
    | link n u i => cases h
    | unlink n u => cases h
    | lookup n => cases h

/-- Run events on the directory one after the other. -/
def runDirEvents (vd : ℕ) (w : Listing) : List DirEvent → Option Listing
  | [] => some w
  | ev :: evs =>
    if ev.check vd w then
      match ev.run vd w with
      | .ok (_, w') => runDirEvents vd w' evs
      | .error _ => none
    else none

/-- Start up and run events on the root directory, which has the vinode 2. -/
def dirEventsFrom (boot : Boot) (evs : List DirEvent) : Option Listing :=
  (fsInit boot).toOption.bind fun fs => runDirEvents 2 ⟨fs, [], [], [], [], fun _ => none⟩ evs

theorem Lists.ofEvents {C : Listing → DirEvent → Prop} {evs : List DirEvent} (h : Lists C vd w)
    (hC : ∀ ev ∈ evs, ∀ w, C w ev) (hrun : runDirEvents vd w evs = some w') : Lists C vd w' := by
  induction evs generalizing w with
  | nil => exact Option.some.inj hrun ▸ h
  | cons ev evs ih =>
    rw [runDirEvents] at hrun
    split at hrun
    · rename_i hcheck
      split at hrun
      · rename_i r w₁ hev
        refine ih (h.step (DirEvent.proper_of_check hcheck) ?_ hev) ?_ hrun
        · exact hC ev List.mem_cons_self w
        · exact fun ev' hev' => hC ev' (List.mem_cons_of_mem _ hev')
      · cases hrun
    · cases hrun

theorem Lists.of_dirEventsFrom {C : Listing → DirEvent → Prop} {evs : List DirEvent}
    (hC : ∀ ev ∈ evs, ∀ w, C w ev) (hrun : dirEventsFrom blank evs = some w) : Lists C 2 w := by
  obtain ⟨fs, hfs, hrun⟩ := Option.bind_eq_some_iff.1 hrun
  obtain ⟨s, hs, hinv⟩ := fsInit_inv blank
  obtain rfl := Except.ok.inj (hs.symm.trans (toOption_eq_some.1 hfs))
  have hroot : ((fsInit blank).toOption.bind fun s => s.vinodeHashTable.lookup (.rfs, 0)) = some 2 ∧
      ((fsInit blank).toOption.bind fun s => (s.vinodes 2).map fun x => x.type) = some DIR_I := by
    decide +kernel
  rw [hfs] at hroot
  obtain ⟨hhash, htype⟩ := hroot
  obtain ⟨x, hx, htype⟩ := Option.map_eq_some_iff.1 htype
  exact (Lists.start (hinv.dirRep ⟨hhash, hx⟩ htype)).ofEvents hC hrun

/-- An entry is read with the only descriptor. -/
theorem handles_independent_read : ∃ w e w', Lists (fun w ev => ev.Alone 2 w) 2 w ∧
    (DirEvent.readdir 0).run 2 w = .ok (some e, w') ∧ Independent w (.readdir 0) (some e) w' := by
  have htest : (dirEventsFrom blank [.edit (.create [97]), .opendir 0]).any (fun w =>
      (w.handles 0).any (fun h => decide (h.offset < w.snapshot.length)) &&
        ((DirEvent.readdir 0).run 2 w).toOption.any fun x => x.1.isSome) = true := by
    decide +kernel
  obtain ⟨w, hw, htest⟩ := (Option.any_eq_true _ _).1 htest
  obtain ⟨hoff, hread⟩ := Bool.and_eq_true_iff.1 htest
  obtain ⟨h, hh, hoff⟩ := (Option.any_eq_true _ _).1 hoff
  obtain ⟨⟨r, w'⟩, hrun, hsome⟩ := (Option.any_eq_true _ _).1 hread
  obtain ⟨e, rfl⟩ := Option.isSome_iff_exists.1 hsome
  have hlists : Lists (fun w ev => ev.Alone 2 w) 2 w :=
    .of_dirEventsFrom (by simp [DirEvent.Alone]) hw
  have hproper : (DirEvent.readdir 0).Proper 2 w := by
    rw [DirEvent.Proper, hh]
    exact Option.some_ne_none h
  have hcond : (DirEvent.readdir 0).Alone 2 w := fun h' hh' => by
    obtain rfl := Option.some.inj (hh.symm.trans hh')
    exact .inl (of_decide_eq_true hoff)
  have hrun : (DirEvent.readdir 0).run 2 w = .ok (some e, w') := toOption_eq_some.1 hrun
  exact ⟨w, e, w', hlists, hrun, (handles_independent hlists).1 _ _ _ hproper hcond hrun⟩

/-- **Two descriptors, and a creation while one is open.** The first `closedir` of two gives back
the page of the other one, which the second gives back again; and behind the end of its copy a
descriptor reads an entry that was never in the directory. -/
theorem handles_clash :
    (∃ w r w', Lists (fun _ _ => True) 2 w ∧ (DirEvent.closedir 0).Proper 2 w ∧
      (DirEvent.closedir 0).run 2 w = .ok (r, w') ∧ ¬ Independent w (.closedir 0) r w') ∧
    (∃ w p, Lists (fun _ _ => True) 2 w ∧ w.freed.count p = 2) ∧
    ∃ w e w', Lists (fun _ _ => True) 2 w ∧ (DirEvent.readdir 0).Proper 2 w ∧
      (DirEvent.readdir 0).run 2 w = .ok (some e, w') ∧
          ¬ Independent w (.readdir 0) (some e) w' := by
  refine ⟨?_, ?_, ?_⟩
  · have htest : (dirEventsFrom blank [.opendir 0, .opendir 1]).any (fun w =>
        (DirEvent.closedir 0).check 2 w && ((DirEvent.closedir 0).run 2 w).toOption.any fun x =>
          (x.2.handles 1).any fun h => h.pages.any fun p => decide (p ∈ x.2.freed)) = true := by
      decide +kernel
    obtain ⟨w, hw, htest⟩ := (Option.any_eq_true _ _).1 htest
    obtain ⟨hcheck, hclose⟩ := Bool.and_eq_true_iff.1 htest
    obtain ⟨⟨r, w'⟩, hrun, hclose⟩ := (Option.any_eq_true _ _).1 hclose
    obtain ⟨h, hh, hpages⟩ := (Option.any_eq_true _ _).1 hclose
    obtain ⟨p, hp, hfreed⟩ := List.any_eq_true.1 hpages
    refine ⟨w, r, w', .of_dirEventsFrom (fun _ _ _ => trivial) hw, DirEvent.proper_of_check hcheck,
      toOption_eq_some.1 hrun, fun hind => ?_⟩
    exact hind.live 1 h hh p hp (of_decide_eq_true hfreed)
  · have htest : (dirEventsFrom blank [.opendir 0, .opendir 1, .closedir 0,
        .closedir 1]).any (fun w =>
        decide (w.freed.count 8 = 2)) = true := by decide +kernel
    obtain ⟨w, hw, htest⟩ := (Option.any_eq_true _ _).1 htest
    exact ⟨w, 8, .of_dirEventsFrom (fun _ _ _ => trivial) hw, of_decide_eq_true htest⟩
  · have htest : (dirEventsFrom blank [.edit (.create [97]), .opendir 0, .edit (.create [98]),
        .readdir 0]).any (fun w => (DirEvent.readdir 0).check 2 w &&
          ((DirEvent.readdir 0).run 2 w).toOption.any fun x => x.1.any fun e =>
            (w.handles 0).any fun h => decide (e ∉ h.held)) = true := by decide +kernel
    obtain ⟨w, hw, htest⟩ := (Option.any_eq_true _ _).1 htest
    obtain ⟨hcheck, hread⟩ := Bool.and_eq_true_iff.1 htest
    obtain ⟨⟨r, w'⟩, hrun, hread⟩ := (Option.any_eq_true _ _).1 hread
    obtain ⟨e, he, hread⟩ := (Option.any_eq_true _ _).1 hread
    obtain ⟨h, hh, hheld⟩ := (Option.any_eq_true _ _).1 hread
    subst he
    refine ⟨w, e, w', .of_dirEventsFrom (fun _ _ _ => trivial) hw, DirEvent.proper_of_check hcheck,
      toOption_eq_some.1 hrun, fun hind => ?_⟩
    exact of_decide_eq_true hheld (hind.held 0 h e rfl hh rfl)

end HustOS.Fs
