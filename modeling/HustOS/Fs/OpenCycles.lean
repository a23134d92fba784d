import HustOS.Fs.Descriptors
import HustOS.Fs.Leak
import HustOS.Fs.PageLedger

/-!
# Opening and closing a file in turns

A process opens a path and closes the descriptor, again and again. `vfs_open` returns a file
structure on a page of its own, which `do_open` copies into the table of the process and which
nobody gives back; and `default_erase` gives back the page of the hash node, but not the one of the
key. So a cycle never returns all the pages that it took, and from the second one on each costs
three (`open_close_leaks`).
-/

namespace HustOS.Fs

open Foundations Traced

variable {s : State} {w w₁ w' : Files} {path : List UInt8} {flags f j p d v : ℕ} {fd r : ℤ}
  {l : List PageEvent} {n : Name} {ns : List Name}

/-! ## The calls of a process -/

theorem Paged.inFiles_runs {α : Type} {x : Paged α} {a : α} (h : Runs x.inFiles w l a w') :
    ∃ fs, Runs x w.fs l a fs ∧ w' = { w with fs := fs } := by
  have hsnd := h.snd
  rw [Paged.inFiles] at hsnd
  obtain ⟨⟨a', fs⟩, hx, hret⟩ := (bind_ok_iff _ _ _).1 hsnd
  obtain ⟨rfl, rfl⟩ := Prod.mk.inj (Except.ok.inj hret)
  have hfst : (x w.fs).1 = l := congrArg Prod.fst h
  exact ⟨fs, Prod.ext hfst hx, rfl⟩

theorem Paged.inFiles_always {α : Type} {x : Paged α} {P : PageEvent → Prop} (h : Always P x) :
    Always P x.inFiles := fun w => h w.fs

/-- A descriptor that `do_open` returns leads to the file structure that it opened. -/
theorem doOpenT_opened (h : Runs (Files.doOpenT path flags) w l fd w₁) (hfd : 0 ≤ fd) :
    ∃ f, Runs (vfsOpenT path flags) w.fs l (some f) w₁.fs ∧ w₁.entry fd = .opened f := by
  obtain ⟨l₁, f, w₂, l₂, hopen, henter, rfl⟩ := h.of_bind
  obtain ⟨fs, hrun, rfl⟩ := Paged.inFiles_runs hopen
  obtain ⟨rfl, hret⟩ := henter.of_lift
  rw [List.append_nil]
  cases f with
  | none =>
    cases hret
    exact absurd hfd (by decide)
  | some f =>
    rw [Files.enter] at hret
    split at hret
    · cases hret
    cases hi : freeEntry w.pfiles with
    | some i =>
      rw [hi] at hret
      cases hret
      refine ⟨f, hrun, ?_⟩
      rw [Files.entry, getOpenedFile_eq]
      exact Function.update_self _ _ _
    | none =>
      rw [hi] at hret
      cases hret
      refine ⟨f, hrun, ?_⟩
      rw [Files.entry, getOpenedFile_of_outside (.inr (le_refl _))]
      exact Function.update_self (Fin.last _) _ w.pfiles.openedFiles

/-- `do_close` of an open file. -/
theorem doCloseT_opened {fl : File} (h : Runs (Files.doCloseT fd) w l r w')
    (hentry : w.entry fd = .opened f) (hlookup : w.fs.files.lookup f = some fl) :
    ∃ fs, Runs (closeFileT fl) w.fs l r fs ∧
        (r = 0 → w'.fs = { fs with files := fs.files.erase f }) := by
  obtain ⟨l₁, file, w₁, l₂, hread, h₁, rfl⟩ := h.of_bind
  obtain ⟨rfl, hfile, rfl⟩ := hread.of_read
  have hfl : w₁.fs.file f = .ok fl := by
    rw [State.file, hlookup]
  rw [hentry, Fd.file, hfl] at hfile
  cases hfile
  obtain ⟨l₃, r', w₂, l₄, hclose, hrest, rfl⟩ := h₁.of_bind
  obtain ⟨fs, hrun, rfl⟩ := Paged.inFiles_runs hclose
  split at hrest
  · obtain ⟨rfl, hset⟩ := hrest.of_lift
    cases hset
    rw [List.nil_append, List.append_nil]
    refine ⟨fs, hrun, fun _ => ?_⟩
    have hsame : Files.entry { w₁ with fs := fs } fd = .opened f := hentry
    rw [hsame]
    rfl
  · rename_i hr
    cases hrest
    rw [List.nil_append, List.append_nil]
    exact ⟨fs, hrun, fun h0 => absurd h0 hr⟩

/-- `do_close` gives back no file structure. -/
theorem doCloseT_keeps (fd : ℤ) : Always KeepsFiles (Files.doCloseT fd) := by
  refine .bind (.read _)
    fun file => .bind (Paged.inFiles_always (closeFileT_keeps file)) fun r => ?_
  exact .ite (.lift _) (.pure _)

/-! ## Cycles -/

/-- `do_open` returns a descriptor and `do_close` closes it; `l` is what they do with pages. -/
inductive OpenClose (path : List UInt8) (flags : ℕ) (w : Files) : List PageEvent → Files → Prop
  | mk {w₁ w' : Files} {l₁ l₂ : List PageEvent} {fd r : ℤ}
      (opened : Runs (Files.doOpenT path flags) w l₁ fd w₁) (descriptor : 0 ≤ fd)
      (closed : Runs (Files.doCloseT fd) w₁ l₂ r w') : OpenClose path flags w (l₁ ++ l₂) w'

/-- Cycles one after the other, each with what it does with pages. -/
inductive OpenCloses (path : List UInt8) (flags : ℕ) : Files → List (List PageEvent) → Files → Prop
  | nil (w : Files) : OpenCloses path flags w [] w
  | cons {w w₁ w' : Files} {l : List PageEvent} {ls : List (List PageEvent)}
      (first : OpenClose path flags w l w₁) (rest : OpenCloses path flags w₁ ls w') :
      OpenCloses path flags w (l :: ls) w'

/-- What an event adds to the number of free pages. -/
def PageEvent.gain : PageEvent → ℤ
  | .alloc _ => -1
  | .free _ => 1

/-- What a trace adds to the number of free pages. -/
def gain (l : List PageEvent) : ℤ := (l.map PageEvent.gain).sum

theorem gain_append (l l' : List PageEvent) : gain (l ++ l') = gain l + gain l' := by
  rw [gain, List.map_append, List.sum_append]
  rfl

theorem gain_missEvents (k : ℕ) : gain (missEvents k) = -6 := rfl

theorem gain_lastEvents (t v : ℕ) : gain (lastEvents t v) = 4 := rfl

/-- Every page that the trace takes it gives back. -/
def Returned (l : List PageEvent) : Prop := ∀ p, .alloc p ∈ l → .free p ∈ l

/-- A cycle does not give back the page of the file structure. -/
theorem OpenClose.not_returned (h : OpenClose path flags w l w') : ¬ Returned l := by
  intro hret
  cases h with
  | @mk w₁ _ l₁ l₂ fd r opened descriptor closed =>
    obtain ⟨f, hrun, -⟩ := doOpenT_opened opened descriptor
    have halloc : .alloc (.file f) ∈ l₁ := vfsOpenT_file hrun
    have hkeep₁ : ∀ ev ∈ l₁, KeepsFiles ev := by
      have := vfsOpenT_keeps path flags w.fs
      rw [Emits, hrun] at this
      exact this
    have hkeep₂ : ∀ ev ∈ l₂, KeepsFiles ev := by
      have := doCloseT_keeps fd w₁
      rw [Emits, closed] at this
      exact this
    rcases List.mem_append.1 (hret _ (List.mem_append_left _ halloc)) with hfree | hfree
    · exact hkeep₁ _ hfree f rfl
    · exact hkeep₂ _ hfree f rfl

/-- Closing the only open file of a file. -/
theorem OpenedOnce.doCloseT {fl : File} {e : Dentry} {x : Vinode}
    (h : OpenedOnce w.fs ns n p d j f fl e v x) (hentry : w.entry fd = .opened f)
    (hrun : Runs (Files.doCloseT fd) w l r w') : l = lastEvents fl.fDentry v ∧
      Unopened w'.fs ns n p d j ∧ w'.fs.vinodeHashTable.lookup (.rfs, j) = none := by
  obtain ⟨fs, hclose, hset⟩ := doCloseT_opened hrun hentry h.lookup
  obtain ⟨s', hclose', hpost⟩ := h.closeFileT_runs
  obtain ⟨rfl, rfl, rfl⟩ := hclose.unique hclose'
  have hfiles : fs.files = w.fs.files := by
    obtain ⟨fs', heq, hfiles, -⟩ := h.closeFile_eq
    have hsnd := hclose.snd
    rw [snd_closeFileT, heq] at hsnd
    cases hsnd
    exact hfiles
  rw [hset rfl, hfiles]
  exact ⟨rfl, h.close hpost⟩

/-- **A cycle on a file that is not open and has no vinode costs three pages**, and leaves the file
as it was. -/
theorem Unopened.openClose (h : Unopened w.fs ns n p d j) (ht : pathTokens path = ns ++ [n])
    (hl : w.fs.vinodeHashTable.lookup (.rfs, j) = none) (hrun : OpenClose path flags w l w') :
    gain l = -3 ∧ Unopened w'.fs ns n p d j ∧ w'.fs.vinodeHashTable.lookup (.rfs, j) = none := by
  cases hrun with
  | @mk w₁ _ l₁ l₂ fd r opened descriptor closed =>
    obtain ⟨f, hopen, hentry⟩ := doOpenT_opened opened descriptor
    obtain ⟨rfl, -, fl, e, v, x, hopened⟩ := h.vfsOpenT_runs ht hl hopen
    obtain ⟨rfl, hnext⟩ := hopened.doCloseT hentry closed
    refine ⟨?_, hnext⟩
    rw [gain_append, gain_append, gain_missEvents, gain_lastEvents]
    rfl

theorem Unopened.openCloses {ls : List (List PageEvent)} (h : Unopened w.fs ns n p d j)
    (ht : pathTokens path = ns ++ [n]) (hl : w.fs.vinodeHashTable.lookup (.rfs, j) = none)
    (hrun : OpenCloses path flags w ls w') : ∀ l ∈ ls, gain l = -3 := by
  induction hrun with
  | nil => exact fun _ hl => absurd hl List.not_mem_nil
  | cons first rest ih =>
    obtain ⟨hgain, hnext, hnone⟩ := h.openClose ht hl first
    rw [List.forall_mem_cons]
    exact ⟨hgain, ih hnext hnone⟩

theorem OpenCloses.not_returned {ls : List (List PageEvent)} (h : OpenCloses path flags w ls w') :
    ∀ l ∈ ls, ¬ Returned l := by
  induction h with
  | nil => exact fun _ hl => absurd hl List.not_mem_nil
  | cons first rest ih => exact List.forall_mem_cons.2 ⟨first.not_returned, ih⟩

/-- **Opening and closing a file never conserves pages.** In every state of a run, for every path of
a file on RFS that has no dentry: no cycle gives back all the pages that it took, and from the
second one on each cycle leaves three pages fewer. -/
theorem open_close_leaks {pfiles : ProcFiles} {path : Path} {ls : List (List PageEvent)}
    (h : Reachable s) (hp : s.disk.ParentsOk path.1) (hj : s.disk.resolve path.1 = some j)
    (hfile : (s.disk.dinode j).type = FILE_I) (habsent : ∀ t, ¬ DentryOf s t j)
    (hrun : OpenCloses path.1 flags ⟨s, pfiles⟩ ls w') :
    (∀ l ∈ ls, ¬ Returned l) ∧ ∀ l ∈ ls.tail, gain l = -3 := by
  refine ⟨hrun.not_returned, ?_⟩
  cases hrun with
  | nil => exact fun _ hl => absurd hl List.not_mem_nil
  | cons first rest =>
    cases first with
    | mk opened descriptor closed =>
      obtain ⟨f, hopen, hentry⟩ := doOpenT_opened opened descriptor
      have hsnd := hopen.snd
      rw [snd_vfsOpenT] at hsnd
      obtain ⟨ns, n, p, d, fl, e, v, x, ht, hopened⟩ := vfsOpen_first h.inv hp hj hfile habsent hsnd
      obtain ⟨-, hnext, hnone⟩ := hopened.doCloseT hentry closed
      exact hnext.openCloses ht hnone rest

/-! ## A file that is opened twice -/

/-- Open and close once. -/
def openClose (path : List UInt8) (flags : ℕ) (w : Files) : Option (List PageEvent × Files) :=
  match Files.doOpenT path flags w with
  | (l₁, .ok (fd, w₁)) =>
    if 0 ≤ fd then
      match Files.doCloseT fd w₁ with
      | (l₂, .ok (_, w')) => some (l₁ ++ l₂, w')
      | (_, .error _) => none
    else none
  | (_, .error _) => none

theorem OpenClose.of_openClose (h : openClose path flags w = some (l, w')) :
    OpenClose path flags w l w' := by
  rw [openClose] at h
  rcases hopen : Files.doOpenT path flags w with ⟨l₁, err | ⟨fd, w₁⟩⟩
  · rw [hopen] at h
    cases h
  rw [hopen] at h
  dsimp only at h
  split at h
  · rename_i hfd
    rcases hclose : Files.doCloseT fd w₁ with ⟨l₂, err | ⟨r, w₂⟩⟩
    · rw [hclose] at h
      cases h
    · rw [hclose] at h
      cases h
      exact .mk hopen hfd hclose
  · cases h

/-- The file `a` has been created and closed, and is opened and closed twice more. -/
theorem OpenCloses.twice : ∃ s j l₁ l₂ w', Reachable s ∧ s.disk.ParentsOk pathA.1 ∧
    s.disk.resolve pathA.1 = some j ∧ (s.disk.dinode j).type = FILE_I ∧ (∀ t, ¬ DentryOf s t j) ∧
    OpenCloses pathA.1 O_RDWR (freshFiles s) [l₁, l₂] w' ∧ gain l₁ = -3 ∧ gain l₂ = -3 := by
  have htest : (runFrom blank [.open pathA (O_CREAT + O_RDWR), .close 7]).bind (fun s =>
      (openClose pathA.1 O_RDWR (freshFiles s)).bind fun x =>
        (openClose pathA.1 O_RDWR x.2).map fun y =>
          (decide (s.disk.ParentsOk pathA.1), s.disk.resolve pathA.1, (s.disk.dinode 1).type,
            s.vinodeHashTable.lookup (.rfs, 1), gain x.1, gain y.1)) =
      some (true, some 1, FILE_I, none, -3, -3) := by decide +kernel
  obtain ⟨s, hs, htest⟩ := Option.bind_eq_some_iff.1 htest
  obtain ⟨⟨l₁, w₁⟩, h₁, htest⟩ := Option.bind_eq_some_iff.1 htest
  obtain ⟨⟨l₂, w₂⟩, h₂, hval⟩ := Option.map_eq_some_iff.1 htest
  simp only [Prod.mk.injEq, decide_eq_true_eq] at hval
  obtain ⟨hp, hj, hfile, hnone, hgain₁, hgain₂⟩ := hval
  refine ⟨s, 1, l₁, l₂, w₂, reachable_of_runFrom hs, hp, hj, hfile, ?_, ?_, hgain₁, hgain₂⟩
  · rintro t ⟨e, v, x, -, hc⟩
    have hsome := hc.hash
    rw [hnone] at hsome
    cases hsome
  · exact .cons (.of_openClose h₁) (.cons (.of_openClose h₂) (.nil w₂))

theorem open_close_leaks_twice : ∃ s l₁ l₂ w', Reachable s ∧
    OpenCloses pathA.1 O_RDWR (freshFiles s) [l₁, l₂] w' ∧
    (∀ l ∈ [l₁, l₂], ¬ Returned l) ∧ ∀ l ∈ [l₁, l₂].tail, gain l = -3 := by
  obtain ⟨s, j, l₁, l₂, w', h, hp, hj, hfile, habsent, hrun, -⟩ := OpenCloses.twice
  exact ⟨s, l₁, l₂, w', h, hrun, open_close_leaks h hp hj hfile habsent hrun⟩

/-- **Pages that are lost.** Neither the first nor the second cycle on the file gives back what it
took, and after each there are three free pages fewer. -/
theorem pages_lost : ∃ s j l₁ l₂ w', Reachable s ∧ s.disk.ParentsOk pathA.1 ∧
    s.disk.resolve pathA.1 = some j ∧ (s.disk.dinode j).type = FILE_I ∧ (∀ t, ¬ DentryOf s t j) ∧
    OpenCloses pathA.1 O_RDWR (freshFiles s) [l₁, l₂] w' ∧
    ¬ Returned l₁ ∧ ¬ Returned l₂ ∧ gain l₁ = -3 ∧ gain l₂ = -3 := by
  obtain ⟨s, j, l₁, l₂, w', h, hp, hj, hfile, habsent, hrun, hgain₁, hgain₂⟩ := OpenCloses.twice
  have hlost := hrun.not_returned
  exact ⟨s, j, l₁, l₂, w', h, hp, hj, hfile, habsent, hrun, hlost l₁ List.mem_cons_self,
    hlost l₂ (List.mem_cons_of_mem _ List.mem_cons_self), hgain₁, hgain₂⟩

end HustOS.Fs
