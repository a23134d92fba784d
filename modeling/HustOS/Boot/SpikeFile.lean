import HustOS.Foundations.Outcome
import HustOS.Kernel
import Mathlib.Algebra.Group.Nat.Defs
import Mathlib.Logic.Function.Basic

/-!
# The table of host files

`spike_interface/spike_file.c` counts the references to a host file. `spike_file_get_free` gives out a
slot with `INIT_FILE_REF` references, three of them; `spike_file_close` drops one, and a second one
only if the file is in `spike_fds`, where only `spike_file_dup` puts it. A slot is free again, and the
file closed on the host, when the count goes down from two.

`spike_file_open` does not call `spike_file_dup`. So `spike_file_close` of an opened file returns `-1`,
in every run of opens and closes (`close_returns`), and keeps the slot and the host file. The calls of
the kernel that close each file once, or not at all, use up the table: the first 125 calls of
`spike_file_open` get a slot, whether or not the host finds the file, and every later one fails
without asking the host (`open_result`).
-/

namespace HustOS.Boot

open Foundations

/-! ## The code -/

abbrev MAX_FILES : ℕ := 128
abbrev MAX_FDS : ℕ := 128
abbrev ENOMEM : ℤ := 12
abbrev INIT_FILE_REF : BitVec 32 := 3

/-- `spike_file_t`. -/
structure SpikeFile where
  kfd : ℤ
  refcnt : BitVec 32

/-- `spike_files` and `spike_fds`, and the descriptors that the host has been told to close. -/
structure SpikeFiles where
  spikeFiles : ℕ → SpikeFile
  spikeFds : ℕ → Option ℕ
  closed : List ℤ

namespace SpikeFiles

/-- The tables of the boot image. -/
def boot : SpikeFiles := ⟨fun _ => ⟨-1, 0⟩, fun _ => none, []⟩

def refcnt (s : SpikeFiles) (f : ℕ) : BitVec 32 := (s.spikeFiles f).refcnt

def setRefcnt (s : SpikeFiles) (f : ℕ) (n : BitVec 32) : SpikeFiles :=
  { s with spikeFiles := Function.update s.spikeFiles f { s.spikeFiles f with refcnt := n } }

def setKfd (s : SpikeFiles) (f : ℕ) (kfd : ℤ) : SpikeFiles :=
  { s with spikeFiles := Function.update s.spikeFiles f { s.spikeFiles f with kfd := kfd } }

def setFd (s : SpikeFiles) (i : ℕ) (f : Option ℕ) : SpikeFiles :=
  { s with spikeFds := Function.update s.spikeFds i f }

/-- `spike_file_decref`. -/
def spikeFileDecref (f : ℕ) (s : SpikeFiles) : SpikeFiles :=
  let res := s.refcnt f
  let s := s.setRefcnt f (res - 1)
  if res = 2 then { s.setRefcnt f 0 with closed := s.closed ++ [(s.spikeFiles f).kfd] } else s

/-- `spike_file_incref`. -/
def spikeFileIncref (f : ℕ) (s : SpikeFiles) : Except Fault SpikeFiles :=
  let prev := s.refcnt f
  if prev.toNat > 0 then return s.setRefcnt f (prev + 1) else throw (.assertion "prev > 0")

/-- `spike_file_get_free`. -/
def spikeFileGetFree (s : SpikeFiles) : Option ℕ × SpikeFiles :=
  match (List.range MAX_FILES).find? fun f => s.refcnt f = 0 with
  | some f => (some f, s.setRefcnt f INIT_FILE_REF)
  | none => (none, s)

/-- `spike_file_dup`. -/
def spikeFileDup (f : ℕ) (s : SpikeFiles) : Except Fault (ℤ × SpikeFiles) :=
  match (List.range MAX_FDS).find? fun i => s.spikeFds i = none with
  | some i => do
    let s ← spikeFileIncref f (s.setFd i (some f))
    return (i, s)
  | none => return (-1, s)

/-- `spike_file_init`, for the descriptors from `i` on. -/
def spikeFileInit (s : SpikeFiles) : ℕ → Except Fault SpikeFiles
  | 0 => return s
  | i + 1 => do
    let s ← spikeFileInit s i
    match s.spikeFileGetFree with
    | (none, _) => throw .nullDeref
    | (some f, s) => do
      let (_, s) ← spikeFileDup f (s.setKfd f i)
      return s

/-- `spike_file_openat`, where the host answers `ret`. The result is a slot or an error pointer. -/
def spikeFileOpenat (ret : ℤ) (s : SpikeFiles) : Except ℤ ℕ × SpikeFiles :=
  match s.spikeFileGetFree with
  | (none, s) => (.error (-ENOMEM), s)
  | (some f, s) =>
    if 0 ≤ ret then (.ok f, s.setKfd f (Int.bmod ret (2 ^ 32))) else (.error ret, s.spikeFileDecref f)

/-- `spike_file_close`. -/
def spikeFileClose (s : SpikeFiles) : Option ℕ → Except Fault (ℤ × SpikeFiles)
  | none => return (-1, s)
  | some f => do
    let kfd := (s.spikeFiles f).kfd
    if kfd < 0 ∨ MAX_FDS ≤ kfd then
      throw (.undefined "spike_fds[f->kfd]")
    let old := s.spikeFds kfd.toNat
    let s := if old = some f then s.setFd kfd.toNat none else s
    let s := s.spikeFileDecref f
    if old ≠ some f then
      return (-1, s)
    return (0, s.spikeFileDecref f)

/-- `spike_file_get`. -/
def spikeFileGet (fd : ℤ) (s : SpikeFiles) : Option ℕ × SpikeFiles :=
  if fd < 0 ∨ MAX_FDS ≤ fd then (none, s)
  else
    match s.spikeFds fd.toNat with
    | none => (none, s)
    | some f => if s.refcnt f = 0 then (none, s) else (some f, s.setRefcnt f (s.refcnt f + 1))

end SpikeFiles

/-! ## Runs -/

/-- A call and what it returned. -/
inductive Event
  | opened (ret : ℤ) (res : Except ℤ ℕ)
  | closed (f : ℕ) (res : ℤ)

/-- The tables behind `m_start` and calls of `spike_file_open` and `spike_file_close`, the latest one
first, where what is closed is a file that has been opened. -/
inductive Reached : List Event → SpikeFiles → Prop
  | init {s : SpikeFiles} (hs : SpikeFiles.boot.spikeFileInit 3 = .ok s) : Reached [] s
  | opened {es : List Event} {s : SpikeFiles} (h : Reached es s) (ret : ℤ) :
      Reached (.opened ret (s.spikeFileOpenat ret).1 :: es) (s.spikeFileOpenat ret).2
  | closed {es : List Event} {s s' : SpikeFiles} {f : ℕ} {ret res : ℤ} (h : Reached es s)
      (hf : .opened ret (.ok f) ∈ es) (hs : s.spikeFileClose (some f) = .ok (res, s')) :
      Reached (.closed f res :: es) s'

/-- The number of calls of `spike_file_open`. -/
def opens : List Event → ℕ
  | [] => 0
  | .opened _ _ :: es => opens es + 1
  | .closed _ _ :: es => opens es

/-- The files that have been closed. -/
def closes : List Event → List ℕ
  | [] => []
  | .opened _ _ :: es => closes es
  | .closed f _ :: es => f :: closes es

variable {s s' : SpikeFiles} {es : List Event} {f g : ℕ} {ret res : ℤ} {n : BitVec 32}

/-! ## One call -/

namespace SpikeFiles

@[simp] theorem refcnt_setRefcnt : (s.setRefcnt f n).refcnt g = if g = f then n else s.refcnt g := by
  unfold refcnt setRefcnt
  by_cases hg : g = f
  · simp [hg]
  · simp [hg]

@[simp] theorem spikeFds_setRefcnt : (s.setRefcnt f n).spikeFds = s.spikeFds := rfl

@[simp] theorem closed_setRefcnt : (s.setRefcnt f n).closed = s.closed := rfl

@[simp] theorem refcnt_setKfd (kfd : ℤ) : (s.setKfd f kfd).refcnt g = s.refcnt g := by
  unfold refcnt setKfd
  by_cases hg : g = f
  · simp [hg]
  · simp [hg]

@[simp] theorem spikeFds_setKfd (kfd : ℤ) : (s.setKfd f kfd).spikeFds = s.spikeFds := rfl

@[simp] theorem closed_setKfd (kfd : ℤ) : (s.setKfd f kfd).closed = s.closed := rfl

theorem refcnt_decref :
    (s.spikeFileDecref f).refcnt g =
      if g = f then if s.refcnt f = 2 then 0 else s.refcnt f - 1 else s.refcnt g := by
  unfold spikeFileDecref
  by_cases h2 : s.refcnt f = 2
  · simp only [h2, if_true]
    change ((s.setRefcnt f _).setRefcnt f 0).refcnt g = _
    by_cases hg : g = f <;> simp [hg]
  · simp only [h2, if_false, refcnt_setRefcnt]

@[simp] theorem spikeFds_decref : (s.spikeFileDecref f).spikeFds = s.spikeFds := by
  unfold spikeFileDecref
  by_cases h2 : s.refcnt f = 2
  · simp only [h2, if_true]
    rfl
  · simp only [h2, if_false]
    rfl

theorem closed_decref (h : s.refcnt f ≠ 2) : (s.spikeFileDecref f).closed = s.closed := by
  unfold spikeFileDecref
  rw [if_neg h]
  rfl

theorem getFree_cases (s : SpikeFiles) :
    (∃ f < MAX_FILES, s.refcnt f = 0 ∧ (∀ g < f, s.refcnt g ≠ 0) ∧
      s.spikeFileGetFree = (some f, s.setRefcnt f INIT_FILE_REF)) ∨
    (∀ g < MAX_FILES, s.refcnt g ≠ 0) ∧ s.spikeFileGetFree = (none, s) := by
  unfold spikeFileGetFree
  cases hfind : (List.range MAX_FILES).find? fun f => s.refcnt f = 0 with
  | none =>
    refine .inr ⟨fun g hg => ?_, rfl⟩
    simpa using List.find?_range_eq_none.1 hfind g hg
  | some f =>
    obtain ⟨hf, hmem, hlt⟩ := List.find?_range_eq_some.1 hfind
    refine .inl ⟨f, List.mem_range.1 hmem, by simpa using hf, fun g hg => ?_, rfl⟩
    simpa using hlt g hg

theorem dup_cases (f : ℕ) (s : SpikeFiles) :
    (∃ i < MAX_FDS, s.spikeFds i = none ∧ (∀ j < i, s.spikeFds j ≠ none) ∧
      s.spikeFileDup f = (do
        let s ← spikeFileIncref f (s.setFd i (some f))
        return (i, s))) ∨
    (∀ j < MAX_FDS, s.spikeFds j ≠ none) ∧ s.spikeFileDup f = .ok (-1, s) := by
  unfold spikeFileDup
  cases hfind : (List.range MAX_FDS).find? fun i => s.spikeFds i = none with
  | none =>
    refine .inr ⟨fun j hj => ?_, rfl⟩
    simpa using List.find?_range_eq_none.1 hfind j hj
  | some i =>
    obtain ⟨hi, hmem, hlt⟩ := List.find?_range_eq_some.1 hfind
    refine .inl ⟨i, List.mem_range.1 hmem, by simpa using hi, fun j hj => ?_, rfl⟩
    simpa using hlt j hj

/-- A file that is not in `spike_fds` is closed with one reference less, and an error. -/
theorem close_of_not_dup (hfds : ∀ i, s.spikeFds i ≠ some f)
    (hs : s.spikeFileClose (some f) = .ok (res, s')) : res = -1 ∧ s' = s.spikeFileDecref f := by
  rw [spikeFileClose] at hs
  by_cases hkfd : (s.spikeFiles f).kfd < 0 ∨ MAX_FDS ≤ (s.spikeFiles f).kfd
  · rw [if_pos hkfd] at hs
    cases hs
  · rw [if_neg hkfd] at hs
    simp only [hfds, pure_eq_ok, ne_eq, not_false_eq_true, if_true, if_false] at hs
    cases hs
    exact ⟨rfl, rfl⟩

end SpikeFiles

/-! ## Every run -/

/-- The tables behind `i` turns of the loop of `spike_file_init`. -/
def started (i : ℕ) : SpikeFiles where
  spikeFiles f := if f < i then ⟨f, 4⟩ else ⟨-1, 0⟩
  spikeFds j := if j < i then some j else none
  closed := []

theorem refcnt_started (i f : ℕ) : (started i).refcnt f = if f < i then 4 else 0 := by
  unfold SpikeFiles.refcnt started
  by_cases hf : f < i <;> simp [hf]

theorem incref_started (i : ℕ) :
    ((((started i).setRefcnt i INIT_FILE_REF).setKfd i i).setFd i (some i)).spikeFileIncref i =
      .ok (started (i + 1)) := by
  have href : ((((started i).setRefcnt i INIT_FILE_REF).setKfd i i).setFd i (some i)).refcnt i =
      INIT_FILE_REF := by
    simp [SpikeFiles.refcnt, SpikeFiles.setFd, SpikeFiles.setKfd, SpikeFiles.setRefcnt]
  rw [SpikeFiles.spikeFileIncref, href, if_pos (by decide), pure_eq_ok]
  congr 1
  simp only [SpikeFiles.setFd, SpikeFiles.setKfd, SpikeFiles.setRefcnt, started,
    Function.update_self, Function.update_idem, SpikeFiles.mk.injEq, and_true]
  constructor
  all_goals
    funext j
    rcases lt_trichotomy j i with hj | rfl | hj
  · simp [hj, hj.ne, show j < i + 1 by omega]
  · simp
  · simp [hj.ne', show ¬ j < i by omega, show ¬ j < i + 1 by omega]
  · simp [hj, hj.ne, show j < i + 1 by omega]
  · simp
  · simp [hj.ne', show ¬ j < i by omega, show ¬ j < i + 1 by omega]

/-- Each turn takes the next slot and the next descriptor. -/
theorem spikeFileInit_boot {i : ℕ} (hi : i ≤ MAX_FILES) :
    SpikeFiles.boot.spikeFileInit i = .ok (started i) := by
  induction i with
  | zero => rfl
  | succ i ih =>
    have hmax : MAX_FILES = 128 := rfl
    have hfree : (started i).spikeFileGetFree = (some i, (started i).setRefcnt i INIT_FILE_REF) := by
      rcases (started i).getFree_cases with ⟨f, hf, hz, hlow, e⟩ | ⟨hall, -⟩
      · have hzi : ¬ i < f := fun h => hlow i h (by simp [refcnt_started])
        have hzf : ¬ f < i := fun h => by simp [refcnt_started, h] at hz
        rw [e, show f = i by omega]
      · exact absurd (by simp [refcnt_started]) (hall i hi)
    rw [SpikeFiles.spikeFileInit, ih (by omega), ok_bind, hfree]
    simp only
    rcases SpikeFiles.dup_cases i (((started i).setRefcnt i INIT_FILE_REF).setKfd i i) with
      ⟨j, hj, hz, hlow, e⟩ | ⟨hall, -⟩
    · have hzi : ¬ i < j := fun h => hlow i h (by simp [started])
      have hzf : ¬ j < i := fun h => by simp [started, h] at hz
      obtain rfl : j = i := by omega
      rw [e, incref_started]
      rfl
    · exact absurd (by simp [started]) (hall i hi)

/-- What holds in every run: only the files of the console are in `spike_fds`, nobody closes them,
and no other file was opened in their slots. -/
structure Console (es : List Event) (s : SpikeFiles) : Prop where
  fds : ∀ i f, s.spikeFds i = some f → f < 3
  refcnt : ∀ f < 3, s.refcnt f = 4
  handles : ∀ ret f, .opened ret (.ok f) ∈ es → 3 ≤ f
  results : ∀ f res, .closed f res ∈ es → res = -1

theorem Console.notDup (hc : Console es s) (hf : 3 ≤ f) (i : ℕ) : s.spikeFds i ≠ some f := by
  intro h
  have hlt := hc.fds i f h
  omega

theorem Console.openat (hc : Console es s) (ret : ℤ) :
    Console (.opened ret (s.spikeFileOpenat ret).1 :: es) (s.spikeFileOpenat ret).2 := by
  unfold SpikeFiles.spikeFileOpenat
  rcases s.getFree_cases with ⟨f, hf, hfree, hlow, e⟩ | ⟨hall, e⟩ <;> rw [e]
  · have h3 : 3 ≤ f := by
      by_contra hlt
      have hr := hc.refcnt f (by omega)
      rw [hfree] at hr
      cases hr
    have hne : ∀ {g}, g < 3 → g ≠ f := fun hg he => by omega
    by_cases hret : 0 ≤ ret
    · simp only [hret, if_true]
      refine ⟨hc.fds, fun g hg => ?_, fun ret' g hmem => ?_, fun g res hmem => ?_⟩
      · simpa [hne hg] using hc.refcnt g hg
      · rcases List.mem_cons.1 hmem with he | hmem
        · cases he
          exact h3
        · exact hc.handles ret' g hmem
      · exact hc.results g res (by simpa using hmem)
    · simp only [hret, if_false]
      refine ⟨fun i g hi => hc.fds i g (by simpa using hi), fun g hg => ?_, fun ret' g hmem => ?_,
        fun g res hmem => ?_⟩
      · rw [SpikeFiles.refcnt_decref, if_neg (hne hg)]
        simpa [hne hg] using hc.refcnt g hg
      · exact hc.handles ret' g (by simpa using hmem)
      · exact hc.results g res (by simpa using hmem)
  · refine ⟨hc.fds, hc.refcnt, fun ret' g hmem => ?_, fun g res hmem => ?_⟩
    · exact hc.handles ret' g (by simpa using hmem)
    · exact hc.results g res (by simpa using hmem)

theorem Reached.console (h : Reached es s) : Console es s := by
  induction h with
  | init hs =>
    rw [spikeFileInit_boot (by decide)] at hs
    cases hs
    refine ⟨fun i f hi => ?_, fun f hf => ?_, by simp, by simp⟩
    · by_cases h3 : i < 3
      · have he : some i = some f := by simpa [started, h3] using hi
        rwa [← Option.some.inj he]
      · simp [started, h3] at hi
    · simp [SpikeFiles.refcnt, started, hf]
  | opened _ ret ih => exact ih.openat ret
  | @closed es s s' f ret res _ hf hs ih =>
    have h3 := ih.handles ret f hf
    obtain ⟨rfl, rfl⟩ := SpikeFiles.close_of_not_dup (ih.notDup h3) hs
    refine ⟨fun i g hi => ih.fds i g (by simpa using hi), fun g hg => ?_, fun ret' g hmem => ?_,
      fun g res hmem => ?_⟩
    · rw [SpikeFiles.refcnt_decref, if_neg (by omega)]
      exact ih.refcnt g hg
    · exact ih.handles ret' g (by simpa using hmem)
    · rcases List.mem_cons.1 hmem with he | hmem
      · cases he
        rfl
      · exact ih.results g res hmem

/-- The slots behind `k` calls of `spike_file_open`: the first `3 + k` of them are in use, a file that
was closed or that the host did not find has two references left, and no file was closed on the
host. -/
structure UsedUp (es : List Event) (s : SpikeFiles) : Prop where
  used : ∀ f < 3 + opens es, f < MAX_FILES → s.refcnt f ≠ 0
  free : ∀ f, 3 + opens es ≤ f → s.refcnt f = 0
  unclosed : ∀ ret f, .opened ret (.ok f) ∈ es → f ∉ closes es → s.refcnt f = 3
  handles : ∀ ret f, .opened ret (.ok f) ∈ es → f < 3 + opens es
  closed : s.closed = []

theorem usedUp_started : UsedUp [] (started 3) := by
  refine ⟨fun f hf _ => ?_, fun f hf => ?_, by simp, by simp, rfl⟩
  · rw [refcnt_started, if_pos (by simpa [opens] using hf)]
    decide
  · rw [refcnt_started, if_neg (by simp only [opens] at hf; omega)]

/-- The slot that the next call of `spike_file_open` gets. -/
theorem UsedUp.getFree (hu : UsedUp es s) :
    s.spikeFileGetFree =
      if opens es < 125 then (some (3 + opens es), s.setRefcnt (3 + opens es) INIT_FILE_REF)
      else (none, s) := by
  have hmax : MAX_FILES = 128 := rfl
  rcases s.getFree_cases with ⟨f, hf, hz, hlow, e⟩ | ⟨hall, e⟩ <;> rw [e]
  · have hle : ¬ f < 3 + opens es := fun h => hu.used f h hf hz
    have hge : ¬ 3 + opens es < f := fun h => hlow _ h (hu.free _ le_rfl)
    rw [if_pos (by omega), show f = 3 + opens es by omega]
  · rw [if_neg fun h => hall (3 + opens es) (by omega) (hu.free _ le_rfl)]

theorem UsedUp.openat (hu : UsedUp es s) (ret : ℤ) :
    UsedUp (.opened ret (s.spikeFileOpenat ret).1 :: es) (s.spikeFileOpenat ret).2 := by
  unfold SpikeFiles.spikeFileOpenat
  rw [hu.getFree]
  by_cases hk : opens es < 125
  · have hslot : ∀ {g}, g < 3 + opens es → g ≠ 3 + opens es := fun hg => hg.ne
    by_cases hret : 0 ≤ ret
    · simp only [hk, hret, if_true]
      refine ⟨fun g hg hg' => ?_, fun g hg => ?_, fun ret' g hmem hcl => ?_, fun ret' g hmem => ?_,
        hu.closed⟩
      · rw [SpikeFiles.refcnt_setKfd, SpikeFiles.refcnt_setRefcnt]
        split
        · decide
        · exact hu.used g (by simp only [opens] at hg; omega) hg'
      · simp only [opens] at hg
        rw [SpikeFiles.refcnt_setKfd, SpikeFiles.refcnt_setRefcnt, if_neg (by omega)]
        exact hu.free g (by omega)
      · rw [SpikeFiles.refcnt_setKfd, SpikeFiles.refcnt_setRefcnt]
        split
        · rfl
        · rename_i hne
          rcases List.mem_cons.1 hmem with he | hmem
          · cases he
            exact absurd rfl hne
          · exact hu.unclosed ret' g hmem hcl
      · simp only [opens]
        rcases List.mem_cons.1 hmem with he | hmem
        · cases he
          omega
        · have := hu.handles ret' g hmem
          omega
    · simp only [hk, hret, if_true, if_false]
      have hdec : ∀ g, ((s.setRefcnt (3 + opens es) INIT_FILE_REF).spikeFileDecref
          (3 + opens es)).refcnt g = if g = 3 + opens es then 2 else s.refcnt g := by
        intro g
        rw [SpikeFiles.refcnt_decref]
        by_cases hg : g = 3 + opens es
        · rw [if_pos hg, if_pos hg, SpikeFiles.refcnt_setRefcnt, if_pos rfl]
          rfl
        · rw [if_neg hg, if_neg hg, SpikeFiles.refcnt_setRefcnt, if_neg hg]
      refine ⟨fun g hg hg' => ?_, fun g hg => ?_, fun ret' g hmem hcl => ?_, fun ret' g hmem => ?_, ?_⟩
      · rw [hdec]
        split
        · decide
        · exact hu.used g (by simp only [opens] at hg; omega) hg'
      · simp only [opens] at hg
        rw [hdec, if_neg (by omega)]
        exact hu.free g (by omega)
      · have hmem' : .opened ret' (.ok g) ∈ es := by simpa using hmem
        rw [hdec, if_neg (hu.handles ret' g hmem').ne]
        exact hu.unclosed ret' g hmem' hcl
      · have := hu.handles ret' g (by simpa using hmem)
        simp only [opens]
        omega
      · rw [SpikeFiles.closed_decref (by simp)]
        exact hu.closed
  · simp only [hk, if_false]
    refine ⟨fun g _ hg' => ?_, fun g hg => ?_, fun ret' g hmem hcl => ?_, fun ret' g hmem => ?_,
      hu.closed⟩
    · have hmax : MAX_FILES = 128 := rfl
      exact hu.used g (by omega) hg'
    · exact hu.free g (by simp only [opens] at hg; omega)
    · exact hu.unclosed ret' g (by simpa using hmem) hcl
    · have := hu.handles ret' g (by simpa using hmem)
      simp only [opens]
      omega

theorem Reached.usedUp (h : Reached es s) (hnodup : (closes es).Nodup) : UsedUp es s := by
  induction h with
  | init hs =>
    rw [spikeFileInit_boot (by decide)] at hs
    cases hs
    exact usedUp_started
  | opened _ ret ih => exact (ih hnodup).openat ret
  | @closed es s s' f ret res h hf hs ih =>
    obtain ⟨hnot, hnodup⟩ := List.nodup_cons.1 hnodup
    have hu := ih hnodup
    have h3 := hu.unclosed ret f hf hnot
    obtain ⟨-, rfl⟩ := SpikeFiles.close_of_not_dup (h.console.notDup (h.console.handles ret f hf)) hs
    have hdec : ∀ g, (s.spikeFileDecref f).refcnt g = if g = f then 2 else s.refcnt g := by
      intro g
      rw [SpikeFiles.refcnt_decref, h3]
      rfl
    have hlt := hu.handles ret f hf
    refine ⟨fun g hg hg' => ?_, fun g hg => ?_, fun ret' g hmem hcl => ?_, fun ret' g hmem => ?_, ?_⟩
    · rw [hdec]
      split
      · decide
      · exact hu.used g hg hg'
    · simp only [opens] at hg
      rw [hdec, if_neg (by omega)]
      exact hu.free g hg
    · rw [closes, List.mem_cons, not_or] at hcl
      rw [hdec, if_neg hcl.1]
      exact hu.unclosed ret' g (by simpa using hmem) hcl.2
    · exact hu.handles ret' g (by simpa using hmem)
    · rw [SpikeFiles.closed_decref (by rw [h3]; decide)]
      exact hu.closed

/-- **The table of host files is used up.** In a run that closes each file at most once, the first
125 calls of `spike_file_open` take the slots one behind the other, also where the host does not
find the file, every later one fails, and no file is ever closed on the host. -/
theorem open_result (h : Reached es s) (hnodup : (closes es).Nodup) (ret : ℤ) :
    (s.spikeFileOpenat ret).1 =
        (if 125 ≤ opens es then .error (-ENOMEM)
        else if 0 ≤ ret then .ok (3 + opens es)
        else .error ret) ∧
      s.closed = [] := by
  have hu := h.usedUp hnodup
  refine ⟨?_, hu.closed⟩
  unfold SpikeFiles.spikeFileOpenat
  rw [hu.getFree]
  by_cases hk : opens es < 125
  · rw [if_pos hk, if_neg (by omega)]
    by_cases hret : 0 ≤ ret <;> simp [hret]
  · rw [if_neg hk, if_pos (by omega)]

/-- The tables behind the open and the close of a host file. -/
def smallFiles : SpikeFiles := ((started 3).spikeFileOpenat 7).2.spikeFileDecref 3

theorem small_reached : Reached [.closed 3 (-1), .opened 7 (.ok 3)] smallFiles :=
  .closed (.opened (.init (spikeFileInit_boot (by decide))) 7)
    (List.mem_singleton.2 (rfl : Event.opened 7 (.ok 3) = .opened 7 (.ok 3))) rfl

theorem open_result_small :
    (smallFiles.spikeFileOpenat (-2)).1 =
        (if 125 ≤ opens [.closed 3 (-1), .opened 7 (.ok 3)] then .error (-ENOMEM)
        else if (0 : ℤ) ≤ -2 then .ok (3 + opens [.closed 3 (-1), .opened 7 (.ok 3)])
        else .error (-2)) ∧
      smallFiles.closed = [] :=
  open_result small_reached (by decide) (-2)

end HustOS.Boot
