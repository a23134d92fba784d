import HustOS.Fs.Descriptors

/-!
# Descriptors that are not open

No call on a descriptor checks it. A number outside the table leads to the last element, and an
element that is not open is used with the members it has; so a second `do_close` of a file counts
down the references of a dentry that other descriptors hold. What a bad descriptor leads to is
turned away only where the virtual file system turns away the file or directory it happens to name
(`rejected_iff`).
-/

namespace HustOS.Fs

open Foundations

variable {w w' : Files} {c : FdCall} {r fd : ℤ} {s s' : State} {file file' : File} {v : ℕ}
  {x : Vinode}

/-! ## Calls without effect -/

/-- The caches with their counters, the disk with its bitmap and the pages handed out are the
same. -/
structure Unchanged (s s' : State) : Prop where
  disk : s'.disk = s.disk
  freemap : s'.freemap = s.freemap
  pages : s'.pages = s.pages
  dentries : s'.dentries = s.dentries
  vinodes : s'.vinodes = s.vinodes
  dentryHashTable : s'.dentryHashTable = s.dentryHashTable
  vinodeHashTable : s'.vinodeHashTable = s.vinodeHashTable

/-- The number is no descriptor of an open file: it is outside the table, or the element is not
open. -/
def Files.Bad (w : Files) (fd : ℤ) : Prop :=
  fd < 0 ∨ MAX_FILES ≤ fd ∨ ∃ i : Fin MAX_FILES, fd = i ∧ ¬ (w.pfiles.openedFiles i).IsOpened

/-- The call fails, and nothing has changed. -/
def Fails (w : Files) (c : FdCall) : Prop :=
  ∃ r w', c.run w = .ok (r, w') ∧ r < 0 ∧ Unchanged w.fs w'.fs

/-- The members of the element lead to a file or directory that the virtual file system turns away:
by its type, because the offset is outside the file, or at the end of the directory. -/
def Rejects (file : File) (x : Vinode) : FdCall → Prop
  | .open _ _ | .opendir _ | .stat _ => False
  | .read _ _ => file.readable = true ∧ x.type ≠ FILE_I
  | .write _ _ _ => file.writable = true ∧ x.type ≠ FILE_I
  | .lseek _ offset whence => x.type ≠ FILE_I ∨
      (x.sb = .rfs ∧ rfsLseek x.toDinode offset whence file.offset = none)
  | .close _ => x.type ≠ FILE_I
  | .readdir _ => x.type ≠ DIR_I ∨ (x.sb = .rfs ∧ x.size / direntrySize ≤ file.offset)
  | .closedir _ => x.type ≠ DIR_I

/-- The element a descriptor leads to names a live inode, and the call is turned away for it. -/
def Files.TurnsAway (w : Files) (fd : ℤ) (c : FdCall) : Prop :=
  ∃ file v x, (w.entry fd).file w.fs = .ok file ∧ file.vinode w.fs = .ok (v, x) ∧ Rejects file x c

theorem Unchanged.refl (s : State) : Unchanged s s := ⟨rfl, rfl, rfl, rfl, rfl, rfl, rfl⟩

theorem unchanged_store : Unchanged w.fs (w.setEntry fd ((w.entry fd).store w.fs file)).fs := by
  rw [Files.setEntry]
  cases w.entry fd with
  | none _ => exact .refl _
  | opened f => exact ⟨rfl, rfl, rfl, rfl, rfl, rfl, rfl⟩

/-! ## The calls -/

theorem viopSb_of_ok {u : Unit} (h : viopSb s v = .ok u) (hx : s.vinode v = .ok x) :
    x.sb = .rfs := by
  rw [viopSb, hx, ok_bind] at h
  cases hsb : x.sb with
  | rfs => rfl
  | hostfs =>
    rw [hsb] at h
    cases h

theorem viopSb_rfs (hx : s.vinode v = .ok x) (hsb : x.sb = .rfs) : viopSb s v = .ok () := by
  rw [viopSb, hx, ok_bind, hsb]
  rfl

theorem File.vinode_vinode (h : file.vinode s = .ok (v, x)) : s.vinode v = .ok x := by
  rw [File.vinode] at h
  obtain ⟨v', -, h⟩ := (bind_ok_iff _ _ _).1 h
  obtain ⟨x', hx, h⟩ := (bind_ok_iff _ _ _).1 h
  cases h
  exact hx

theorem doRead_fails_iff {count : ℕ} :
    Fails w (.read fd count) ↔ w.TurnsAway fd (.read fd count) := by
  constructor
  · rintro ⟨r, w', hrun, hr, -⟩
    obtain ⟨⟨⟨len, buf⟩, w₁⟩, h₁, h⟩ := (bind_ok_iff _ _ _).1 hrun
    cases h
    rw [Files.doRead] at h₁
    obtain ⟨file, hfile, h₁⟩ := (bind_ok_iff _ _ _).1 h₁
    by_cases hread : file.readable
    · simp only [hread, Bool.not_true, Bool.false_eq_true, if_false] at h₁
      obtain ⟨y, hy, h₁⟩ := (bind_ok_iff _ _ _).1 h₁
      cases h₁
      rw [readFile] at hy
      simp only [hread, Bool.not_true, Bool.false_eq_true, if_false] at hy
      obtain ⟨⟨v, x⟩, hv, hy⟩ := (bind_ok_iff _ _ _).1 hy
      refine ⟨file, v, x, hfile, hv, hread, fun hx => ?_⟩
      simp only [hx, ne_eq, not_true_eq_false, if_false] at hy
      obtain ⟨_, -, hy⟩ := (bind_ok_iff _ _ _).1 hy
      obtain ⟨_, -, hy⟩ := (bind_ok_iff _ _ _).1 hy
      cases hy
      exact absurd hr (by simp)
    · simp [hread] at h₁
  · rintro ⟨file, v, x, hfile, hv, hread, hx⟩
    have hrun : readFile w.fs file count = .ok (-1, none, file, w.fs) := by
      simp [readFile, hread, hv, hx]
    refine ⟨-1, w.setEntry fd ((w.entry fd).store w.fs file), ?_, by decide, unchanged_store⟩
    simp [FdCall.run, Files.doRead, hfile, hread, hrun]

theorem doWrite_fails_iff {buf : Buf} {count : ℕ} :
    Fails w (.write fd buf count) ↔ w.TurnsAway fd (.write fd buf count) := by
  constructor
  · rintro ⟨r, w', hrun, hr, -⟩
    change w.doWrite fd buf count = _ at hrun
    rw [Files.doWrite] at hrun
    obtain ⟨file, hfile, h₁⟩ := (bind_ok_iff _ _ _).1 hrun
    by_cases hwrite : file.writable
    · simp only [hwrite, Bool.not_true, Bool.false_eq_true, if_false] at h₁
      obtain ⟨y, hy, h₁⟩ := (bind_ok_iff _ _ _).1 h₁
      cases h₁
      rw [writeFile] at hy
      simp only [hwrite, Bool.not_true, Bool.false_eq_true, if_false] at hy
      obtain ⟨⟨v, x⟩, hv, hy⟩ := (bind_ok_iff _ _ _).1 hy
      refine ⟨file, v, x, hfile, hv, hwrite, fun hx => ?_⟩
      simp only [hx, ne_eq, not_true_eq_false, if_false] at hy
      obtain ⟨_, -, hy⟩ := (bind_ok_iff _ _ _).1 hy
      cases hy
      exact absurd hr (by simp)
    · simp [hwrite] at h₁
  · rintro ⟨file, v, x, hfile, hv, hwrite, hx⟩
    have hrun : writeFile w.fs file buf count = .ok (-1, file, w.fs) := by
      simp [writeFile, hwrite, hv, hx]
    refine ⟨-1, w.setEntry fd ((w.entry fd).store w.fs file), ?_, by decide, unchanged_store⟩
    simp [FdCall.run, Files.doWrite, hfile, hwrite, hrun]

theorem doLseek_fails_iff {offset whence : ℤ} :
    Fails w (.lseek fd offset whence) ↔ w.TurnsAway fd (.lseek fd offset whence) := by
  constructor
  · rintro ⟨r, w', hrun, hr, -⟩
    change w.doLseek fd offset whence = _ at hrun
    rw [Files.doLseek] at hrun
    obtain ⟨file, hfile, h₁⟩ := (bind_ok_iff _ _ _).1 hrun
    obtain ⟨y, hy, h₁⟩ := (bind_ok_iff _ _ _).1 h₁
    cases h₁
    rw [lseekFile] at hy
    obtain ⟨⟨v, x⟩, hv, hy⟩ := (bind_ok_iff _ _ _).1 hy
    refine ⟨file, v, x, hfile, hv, ?_⟩
    by_cases hx : x.type = FILE_I
    · simp only [hx, ne_eq, not_true_eq_false, if_false] at hy
      obtain ⟨_, hsb, hy⟩ := (bind_ok_iff _ _ _).1 hy
      refine .inr ⟨viopSb_of_ok hsb (File.vinode_vinode hv), ?_⟩
      cases hseek : rfsLseek x.toDinode offset whence file.offset with
      | none => rfl
      | some o =>
        rw [hseek] at hy
        cases hy
        exact absurd hr (by simp)
    · exact .inl hx
  · rintro ⟨file, v, x, hfile, hv, hrej⟩
    have hrun : lseekFile w.fs file offset whence = .ok (-1, file) := by
      by_cases hx : x.type = FILE_I
      · obtain hne | ⟨hsb, hseek⟩ := hrej
        · exact absurd hx hne
        · simp [lseekFile, hv, hx, viopSb_rfs (File.vinode_vinode hv) hsb, hseek]
      · simp [lseekFile, hv, hx]
    refine ⟨-1, w.setEntry fd ((w.entry fd).store w.fs file), ?_, by decide, unchanged_store⟩
    simp [FdCall.run, Files.doLseek, hfile, hrun]

theorem doStat_fails_iff : Fails w (.stat fd) ↔ w.TurnsAway fd (.stat fd) := by
  constructor
  · rintro ⟨r, w', hrun, hr, -⟩
    obtain ⟨⟨r₁, st⟩, h₁, h⟩ := (bind_ok_iff _ _ _).1 hrun
    cases h
    rw [Files.doStat] at h₁
    obtain ⟨file, -, h₁⟩ := (bind_ok_iff _ _ _).1 h₁
    obtain ⟨y, -, h₁⟩ := (bind_ok_iff _ _ _).1 h₁
    cases h₁
    exact absurd hr (by decide)
  · rintro ⟨file, v, x, -, -, hrej⟩
    exact hrej.elim

theorem doClose_fails_iff : Fails w (.close fd) ↔ w.TurnsAway fd (.close fd) := by
  constructor
  · rintro ⟨r, w', hrun, hr, -⟩
    change w.doClose fd = _ at hrun
    rw [Files.doClose] at hrun
    obtain ⟨file, hfile, h₁⟩ := (bind_ok_iff _ _ _).1 hrun
    obtain ⟨⟨r', fs⟩, hclose, h₁⟩ := (bind_ok_iff _ _ _).1 h₁
    obtain ⟨v, x, hv, ⟨-, rfl⟩ | ⟨hx, -, -⟩⟩ := closeFile_ok hclose
    · cases h₁
      exact absurd hr (by decide)
    · exact ⟨file, v, x, hfile, hv, hx⟩
  · rintro ⟨file, v, x, hfile, hv, hx⟩
    refine ⟨-1, w, ?_, by decide, .refl _⟩
    simp [FdCall.run, Files.doClose, hfile, closeFile_of_dir hv hx]

theorem doReaddir_fails_iff : Fails w (.readdir fd) ↔ w.TurnsAway fd (.readdir fd) := by
  constructor
  · rintro ⟨r, w', hrun, hr, -⟩
    obtain ⟨⟨⟨r₁, e⟩, w₁⟩, h₁, h⟩ := (bind_ok_iff _ _ _).1 hrun
    cases h
    rw [Files.doReaddir] at h₁
    obtain ⟨file, hfile, h₁⟩ := (bind_ok_iff _ _ _).1 h₁
    obtain ⟨y, hy, h₁⟩ := (bind_ok_iff _ _ _).1 h₁
    cases h₁
    rw [readdirFile] at hy
    obtain ⟨⟨v, x⟩, hv, hy⟩ := (bind_ok_iff _ _ _).1 hy
    refine ⟨file, v, x, hfile, hv, ?_⟩
    by_cases hx : x.type = DIR_I
    · simp only [hx, ne_eq, not_true_eq_false, if_false] at hy
      obtain ⟨_, hsb, hy⟩ := (bind_ok_iff _ _ _).1 hy
      obtain ⟨o, ho, hy⟩ := (bind_ok_iff _ _ _).1 hy
      refine .inr ⟨viopSb_of_ok hsb (File.vinode_vinode hv), ?_⟩
      rw [rfsReaddir, File.vinode_vinode hv, ok_bind] at ho
      by_contra hlt
      simp only [hlt, if_false] at ho
      cases hc : x.iFsInfo with
      | none =>
        rw [hc] at ho
        cases ho
      | some dirCache =>
        simp only [hc] at ho
        split at ho
        · cases ho
        · cases ho
          cases hy
          exact absurd hr (lt_irrefl 0)
    · exact .inl hx
  · rintro ⟨file, v, x, hfile, hv, hrej⟩
    have hrun : readdirFile w.fs file = .ok (-1, none, file) := by
      by_cases hx : x.type = DIR_I
      · obtain hne | ⟨hsb, hend⟩ := hrej
        · exact absurd hx hne
        · have hread : rfsReaddir w.fs v file.offset = .ok none := by
            simp [rfsReaddir, File.vinode_vinode hv, hend]
          simp [readdirFile, hv, hx, viopSb_rfs (File.vinode_vinode hv) hsb, hread]
      · simp [readdirFile, hv, hx]
    refine ⟨-1, w.setEntry fd ((w.entry fd).store w.fs file), ?_, by decide, unchanged_store⟩
    simp [FdCall.run, Files.doReaddir, hfile, hrun]

theorem doClosedir_fails_iff : Fails w (.closedir fd) ↔ w.TurnsAway fd (.closedir fd) := by
  constructor
  · rintro ⟨r, w', hrun, hr, -⟩
    change w.doClosedir fd = _ at hrun
    rw [Files.doClosedir] at hrun
    obtain ⟨file, hfile, h₁⟩ := (bind_ok_iff _ _ _).1 hrun
    obtain ⟨⟨r', fs⟩, hclose, h₁⟩ := (bind_ok_iff _ _ _).1 h₁
    obtain ⟨v, x, hv, ⟨-, rfl⟩ | ⟨hx, -, -⟩⟩ := closedirFile_ok hclose
    · cases h₁
      exact absurd hr (by decide)
    · exact ⟨file, v, x, hfile, hv, hx⟩
  · rintro ⟨file, v, x, hfile, hv, hx⟩
    refine ⟨-1, w, ?_, by decide, .refl _⟩
    simp [FdCall.run, Files.doClosedir, hfile, closedirFile_of_file hv hx]

theorem fails_iff (h : c.fd = some fd) : Fails w c ↔ w.TurnsAway fd c := by
  cases c with
  | «open» path flags => cases h
  | opendir path => cases h
  | read fd count =>
    cases h
    exact doRead_fails_iff
  | write fd buf count =>
    cases h
    exact doWrite_fails_iff
  | lseek fd offset whence =>
    cases h
    exact doLseek_fails_iff
  | stat fd =>
    cases h
    exact doStat_fails_iff
  | close fd =>
    cases h
    exact doClose_fails_iff
  | readdir fd =>
    cases h
    exact doReaddir_fails_iff
  | closedir fd =>
    cases h
    exact doClosedir_fails_iff

/-- **Descriptors that are not open.** In every state, a call fails without effect on every
descriptor that is not open if and only if the element it is led to names a live inode which the
virtual file system turns the call away for. -/
theorem rejected_iff (w : Files) (c : FdCall) :
    (∀ fd, c.fd = some fd → w.Bad fd → Fails w c) ↔
      ∀ fd, c.fd = some fd → w.Bad fd → w.TurnsAway fd c := by
  constructor
  · intro h fd hfd hbad
    exact (fails_iff hfd).1 (h fd hfd hbad)
  · intro h fd hfd hbad
    exact (fails_iff hfd).2 (h fd hfd hbad)

/-- **A descriptor that is closed twice.** The file is open with the descriptors 0 and 1; the second
`do_close` of 0 returns 0 and frees the dentry that 1 holds. -/
theorem rejected_lost : ∃ w w' e,
    callsFrom blank [.open pathA (O_CREAT + O_RDWR), .open pathA O_RDWR, .close 0] = some w ∧
    w.Bad 0 ∧ ¬ Fails w (.close 0) ∧ (FdCall.close 0).run w = .ok (0, w') ∧
    (w.pfiles.openedFiles 1).IsOpened ∧ w.fs.dentries 5 = some e ∧ e.dRef = 1 ∧
    w'.fs.dentries 5 = none := by
  have htest : (callsFrom blank [.open pathA (O_CREAT + O_RDWR), .open pathA O_RDWR, .close 0]).map
      (fun w => (decide (w.pfiles.openedFiles 0).IsOpened, decide (w.pfiles.openedFiles 1).IsOpened,
        (w.fs.dentries 5).map Dentry.dRef, ((FdCall.close 0).run w).toOption.map fun x =>
          (x.1, (x.2.fs.dentries 5).isNone))) =
      some (false, true, some 1, some (0, true)) := by decide +kernel
  obtain ⟨w, hw, heq⟩ := Option.map_eq_some_iff.1 htest
  obtain ⟨hclosed, heq⟩ := Prod.mk.inj heq
  obtain ⟨hopened, heq⟩ := Prod.mk.inj heq
  obtain ⟨href, hret⟩ := Prod.mk.inj heq
  obtain ⟨e, he, href⟩ := Option.map_eq_some_iff.1 href
  obtain ⟨⟨r, w'⟩, hrun, hret⟩ := Option.map_eq_some_iff.1 hret
  obtain ⟨rfl, hfreed⟩ := Prod.mk.inj hret
  have hrun : (FdCall.close 0).run w = .ok (0, w') := toOption_eq_some.1 hrun
  have hnot : ¬ Fails w (.close 0) := by
    rintro ⟨r, w₁, hrun', hneg, -⟩
    cases hrun.symm.trans hrun'
    exact absurd hneg (lt_irrefl 0)
  exact ⟨w, w', e, hw, .inr (.inr ⟨0, rfl, of_decide_eq_false hclosed⟩), hnot, hrun,
    of_decide_eq_true hopened, he, href, Option.isNone_iff_eq_none.1 hfreed⟩

end HustOS.Fs
