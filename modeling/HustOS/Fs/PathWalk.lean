import HustOS.Fs.Vfs
import HustOS.Util.Strtok

/-!
# The components of a path

`lookup_final_dentry` and `get_base_name` of `kernel/vfs.c` cut a copy of the path with `strtok`,
whose position is kept between the calls in a static variable, while the walk from dentry to dentry
goes on. Here are both as they run over the bytes of the copy. The components are the maximal runs
of bytes between the slashes, so that leading, doubled and trailing slashes count for nothing, and
the base name is the last of the components of the walk (`pathWalk_runs`).

With that the two functions are those of `Fs.Vfs`, where the components are a list
(`lookupFinalDentryIn_eq`, `getBaseNameIn_eq`).
-/

namespace HustOS.Fs

open Foundations Util

/-- The delimiter `"/"`. -/
abbrev slash : List UInt8 := [47]

/-! ## The two loops -/

/-- The loop of `get_base_name`: `last_token` behind the last token. -/
def baseNameLoop (n : ℕ) : ℕ → Option ℕ → Option ℕ → Strtok → Except Fault (Option ℕ × Strtok)
  | _, none, lastToken, tk => return (lastToken, tk)
  | 0, some _, _, _ => throw (.undefined "get_base_name")
  | k + 1, some token, _, tk => do
    let (next, tk) ← Util.strtok slash n none tk
    baseNameLoop n k next (some token) tk

/-- `get_base_name` with the copy of the path at `pathCopy`. -/
def baseNameOf (n pathCopy : ℕ) (tk : Strtok) : Except Fault Name := do
  let (token, tk) ← Util.strtok slash n (some pathCopy) tk
  let (lastToken, tk) ← baseNameLoop n n token none tk
  match lastToken with
  | none => throw .nullDeref
  | some t => return tk.mem.cstr n t

/-- The loop of `lookup_final_dentry`. -/
def walkLoop (n : ℕ) : ℕ → Option ℕ → ℕ → ℕ → Strtok → State → Except Fault (Lookup × State)
  | _, none, this, parent, _, s => return (.found this parent, s)
  | 0, some _, _, _, _, _ => throw (.undefined "lookup_final_dentry")
  | k + 1, some t, parent, _, tk, s =>
    let token := tk.mem.cstr n t
    match hashGetDentry s parent token with
    | some this => do
      let (t, tk) ← Util.strtok slash n none tk
      walkLoop n k t this parent tk s
    | none => do
      let (this, s) ← allocVfsDentry s token none (some parent)
      let (foundVinode, s) ← viopLookup s (← s.dentryInode parent) token
      match foundVinode with
      | none => return (.missing parent token, s.freeDentry this)
      | some v =>
        let s ← attachFound s this v
        let (t, tk) ← Util.strtok slash n none tk
        walkLoop n k t this parent tk s

/-- `lookup_final_dentry` with the copy of the path at `pathCopy`. -/
def walkOf (n pathCopy : ℕ) (tk : Strtok) (s : State) (parent : ℕ) :
    Except Fault (Lookup × State) := do
  let (token, tk) ← Util.strtok slash n (some pathCopy) tk
  walkLoop n n token parent parent tk s

/-- `get_base_name`; `stack` is what the memory of `path_copy` holds at first. -/
def getBaseNameIn (stack : Buf) (current : Option ℕ) (path : List UInt8) : Except Fault Name :=
  if MAX_PATH_LEN ≤ path.length then .error (.undefined "path_copy")
  else baseNameOf MAX_PATH_LEN 0 ⟨stack.setCstr 0 path, current⟩

/-- `lookup_final_dentry`. -/
def lookupFinalDentryIn (stack : Buf) (current : Option ℕ) (s : State) (path : List UInt8)
    (parent : ℕ) : Except Fault (Lookup × State) :=
  if MAX_PATH_LEN ≤ path.length then .error (.undefined "path_copy")
  else walkOf MAX_PATH_LEN 0 ⟨stack.setCstr 0 path, current⟩ s parent

variable {mem : Buf} {path s d r rest delim : List UInt8} {off n k t this parent : ℕ} {tk : Strtok}
  {last current : Option ℕ} {fs : State} {b : Name}

/-! ## The base name -/

/-- The loop ends with the last of the runs. -/
theorem baseNameLoop_cuts (last : Option ℕ) (hcut : Cuts slash s t tk r rest) (hn : s.length < n)
    (hk : rest.length < k) :
    ∃ t' tk', baseNameLoop n k (some t) last tk = .ok (some t', tk') ∧
      ∀ b, (r :: runs (slash.contains ·) rest).getLast? = some b → tk'.mem.cstr n t' = b := by
  induction k generalizing s t tk r rest last with
  | zero => omega
  | succ k ih =>
    have hlen := hcut.length
    rw [baseNameLoop]
    rcases strtok_left hcut.left hcut.zero.2 (n := n) (by omega) with
      ⟨hruns, hcall⟩ | ⟨t₁, tk₁, r₁, rest₁, hcall, hcut₁⟩
    · refine ⟨t, _, by rw [hcall, ok_bind]; cases k <;> rfl, fun b hb => ?_⟩
      rw [hruns, List.getLast?_singleton, Option.some.injEq] at hb
      exact hb ▸ Buf.cstr_of_at hcut.zero.1 hcut.token (by omega)
    · have hlen₁ := hcut₁.length
      obtain ⟨t', tk', hloop, hlast⟩ := ih (some t) hcut₁ (by omega) (by omega)
      refine ⟨t', tk', by rw [hcall, ok_bind]; exact hloop, fun b hb => hlast b ?_⟩
      rwa [hcut₁.runs_eq, List.getLast?_cons_cons] at hb

/-- `get_base_name` gives the last of the runs. -/
theorem baseNameOf_eq (hat : mem.At off (s ++ [0])) (h0 : (0 : UInt8) ∉ s) (hn : s.length < n)
    (hb : (runs (slash.contains ·) s).getLast? = some b) :
    baseNameOf n off ⟨mem, current⟩ = .ok b := by
  have hleft : Left slash ⟨mem, some off⟩ s := hat
  rw [baseNameOf, strtok_eq]
  rcases strtok_left hleft h0 hn with ⟨hruns, -⟩ | ⟨t, tk, r, rest, hcall, hcut⟩
  · rw [hruns] at hb
    exact nomatch hb
  · have hlen := hcut.length
    obtain ⟨t', tk', hloop, hlast⟩ := baseNameLoop_cuts none hcut hn
      (show rest.length < n by omega)
    rw [hcut.runs_eq] at hb
    simp only [hcall, ok_bind, hloop, hlast b hb, pure_eq_ok]

/-- A path without components is read through `NULL`. -/
theorem baseNameOf_nil (hat : mem.At off (s ++ [0])) (h0 : (0 : UInt8) ∉ s) (hn : s.length < n)
    (hs : runs (slash.contains ·) s = []) :
    baseNameOf n off ⟨mem, current⟩ = .error .nullDeref := by
  have hleft : Left slash ⟨mem, some off⟩ s := hat
  rw [baseNameOf, strtok_eq]
  rcases strtok_left hleft h0 hn with ⟨-, hcall⟩ | ⟨t, tk, r, rest, -, hcut⟩
  · simp only [hcall, ok_bind, baseNameLoop, pure_eq_ok, throw_eq_error]
  · rw [hcut.runs_eq] at hs
    exact nomatch hs

/-! ## The walk -/

/-- The loop goes through the runs. -/
theorem walkLoop_cuts (hcut : Cuts slash s t tk r rest) (hn : s.length < n)
    (hk : rest.length < k) :
    walkLoop n k (some t) this parent tk fs =
      lookupLoop (r :: runs (slash.contains ·) rest) this parent fs := by
  induction k generalizing s t tk r rest this parent fs with
  | zero => omega
  | succ k ih =>
    have hlen := hcut.length
    have hread := Buf.cstr_of_at hcut.zero.1 hcut.token (n := n) (by omega)
    rw [walkLoop, lookupLoop, hread]
    rcases strtok_left hcut.left hcut.zero.2 (n := n) (by omega) with
      ⟨hruns, hcall⟩ | ⟨t₁, tk₁, r₁, rest₁, hcall, hcut₁⟩
    · have hnil : ∀ (this parent : ℕ) (fs : State) (tk : Strtok),
          walkLoop n k none this parent tk fs = lookupLoop [] this parent fs := by
        intro this parent fs tk
        cases k <;> rfl
      simp only [hruns, hcall, ok_bind, hnil] <;> rfl
    · have hlen₁ := hcut₁.length
      have hnext : ∀ (this parent : ℕ) (fs : State), walkLoop n k (some t₁) this parent tk₁ fs =
          lookupLoop (r₁ :: runs (slash.contains ·) rest₁) this parent fs :=
        fun this parent fs => ih hcut₁ (by omega) (by omega)
      simp only [hcut₁.runs_eq, hcall, ok_bind, hnext] <;> rfl

/-- `lookup_final_dentry` walks through the runs. -/
theorem walkOf_eq (hat : mem.At off (s ++ [0])) (h0 : (0 : UInt8) ∉ s) (hn : s.length < n)
    (fs : State) (parent : ℕ) :
    walkOf n off ⟨mem, current⟩ fs parent =
      lookupLoop (runs (slash.contains ·) s) parent parent fs := by
  have hleft : Left slash ⟨mem, some off⟩ s := hat
  rw [walkOf, strtok_eq]
  rcases strtok_left hleft h0 hn with ⟨hruns, hcall⟩ | ⟨t, tk, r, rest, hcall, hcut⟩
  · rw [hruns, hcall, ok_bind]
    cases n <;> rfl
  · have hlen := hcut.length
    rw [hcall, ok_bind, hcut.runs_eq]
    exact walkLoop_cuts hcut hn (by omega)

/-- **The components of a path.** In a copy of a path, wherever it stands and whatever was cut
before, the calls of `strtok` give the maximal runs of bytes that are not delimiters and then
`NULL`, for any delimiters. For a path with a component `lookup_final_dentry` walks through the runs
between the slashes, and `get_base_name` gives the last of them. -/
theorem pathWalk_runs (mem : Buf) (off : ℕ) (s : List UInt8) (h0 : (0 : UInt8) ∉ s)
    (hat : mem.At off (s ++ [0])) (current : Option ℕ) (n : ℕ) (hn : s.length < n) :
    (∀ delim, ∃ st, strtokAll delim n (s.length + 1) (some off) ⟨mem, current⟩ =
        .ok (runs (delim.contains ·) s, st) ∧ Util.strtok delim n none st = .ok (none, st)) ∧
      ∀ b, (runs (slash.contains ·) s).getLast? = some b →
        baseNameOf n off ⟨mem, current⟩ = .ok b ∧
          ∀ fs parent, walkOf n off ⟨mem, current⟩ fs parent =
            lookupLoop (runs (slash.contains ·) s) parent parent fs :=
  ⟨fun delim => strtokAll_runs hat h0 hn delim current,
    fun _ hb => ⟨baseNameOf_eq hat h0 hn hb, walkOf_eq hat h0 hn⟩⟩

/-- The path `//a//b/`. -/
theorem pathWalk_runs_slashes :
    let mem : Buf := fun i => [47, 47, 97, 47, 47, 98, 47, 0].getD i 7
    runs (slash.contains ·) [47, 47, 97, 47, 47, 98, 47] = [[97], [98]] ∧
      baseNameOf 30 0 ⟨mem, some 5⟩ = .ok [98] := by
  intro mem
  have hat : mem.At 0 ([47, 47, 97, 47, 47, 98, 47] ++ [0]) :=
    ⟨rfl, rfl, rfl, rfl, rfl, rfl, rfl, rfl, trivial⟩
  have hruns : runs (slash.contains ·) [47, 47, 97, 47, 47, 98, 47] = [[97], [98]] := by decide
  refine ⟨hruns, ?_⟩
  exact ((pathWalk_runs mem 0 _ (by decide) hat (some 5) 30 (by decide)).2 [98]
    (by rw [hruns]; rfl)).1

/-! ## The components as a list -/

/-- The first token of a string. -/
theorem strtok_first (hd : ∀ a ∈ d, delim.contains a = true)
    (hr : ∀ a ∈ r, delim.contains a = false)
    (hne : r ≠ []) (hrest : rest = [] ∨ ∃ c t, rest = c :: t ∧ delim.contains c = true) :
    strtok delim (some (d ++ (r ++ rest))) =
      some (r, if rest = [] then none else some rest.tail) := by
  obtain ⟨a, r, rfl⟩ := List.exists_cons_of_ne_nil hne
  have ha := hr a (List.mem_cons_self ..)
  have hdrop : (d ++ (a :: r ++ rest)).dropWhile (delim.contains ·) = a :: r ++ rest := by
    rw [List.dropWhile_append_of_pos hd, List.cons_append,
      List.dropWhile_cons_of_neg (by rw [ha]; decide)]
  have hnot : ∀ b ∈ a :: r, (!delim.contains b) = true := fun b hb => by rw [hr b hb]; rfl
  rw [strtok, hdrop]
  simp only [List.cons_append]
  rw [← List.cons_append, List.takeWhile_append_of_pos hnot, List.dropWhile_append_of_pos hnot]
  rcases hrest with rfl | ⟨c, t, rfl, hc⟩
  · simp
  · have hstop : ¬ (!delim.contains c) = true := by
      rw [hc]
      decide
    rw [List.takeWhile_cons_of_neg (p := fun b => !delim.contains b) hstop,
      List.dropWhile_cons_of_neg (p := fun b => !delim.contains b) hstop, List.append_nil]
    rfl

/-- The tokens are the runs. -/
theorem tokensFrom_eq (hk : s.length < k) :
    tokensFrom k (some s) = runs (slash.contains ·) s := by
  induction k generalizing s with
  | zero => omega
  | succ k ih =>
    rw [tokensFrom]
    rcases exists_first_run (slash.contains ·) s with hall | ⟨d, r, t, rfl, hd, hne, hr, ht⟩
    · have hnone : strtok slash (some s) = none := by
        rw [strtok, List.dropWhile_eq_nil_iff.2 hall]
      have hruns := runs_append_left (s := []) hall
      rw [List.append_nil, runs_nil] at hruns
      rw [hnone, hruns]
    · rw [strtok_first hd hr hne ht]
      simp only [List.length_append] at hk
      rcases ht with rfl | ⟨c, t, rfl, hc⟩
      · have hend : tokensFrom k none = [] := by cases k <;> rfl
        rw [runs_append_left hd, List.append_nil, runs_of_forall_not hr hne]
        exact congrArg (r :: ·) hend
      · rw [runs_append_left hd, runs_append_cons hr hne hc]
        simp only [List.length_cons] at hk
        exact congrArg (r :: ·) (ih (show t.length < k by omega))

/-- **The components** of a path are the runs between the slashes. -/
theorem pathTokens_eq_runs (path : List UInt8) :
    pathTokens path = runs (slash.contains ·) path :=
  tokensFrom_eq (Nat.lt_succ_self _)

/-- A path that fits is copied. -/
theorem pathCopy_at (stack : Buf) (path : Path) : (stack.setCstr 0 path.1).At 0 (path.1 ++ [0]) :=
  Buf.at_setCstr _ _ _

/-- `lookup_final_dentry` on the bytes of the path. -/
theorem lookupFinalDentryIn_eq (stack : Buf) (current : Option ℕ) (fs : State) (path : Path)
    (parent : ℕ) :
    lookupFinalDentryIn stack current fs path.1 parent = lookupFinalDentry fs path.1 parent := by
  rw [lookupFinalDentryIn, lookupFinalDentry]
  split
  · rfl
  · rw [walkOf_eq (pathCopy_at stack path) path.2 (by omega), pathTokens_eq_runs]

/-- `get_base_name` on the bytes of a path that fits. -/
theorem getBaseNameIn_eq (stack : Buf) (current : Option ℕ) (path : Path)
    (hlen : path.1.length < MAX_PATH_LEN) :
    getBaseNameIn stack current path.1 = getBaseName path.1 := by
  rw [getBaseNameIn, if_neg (Nat.not_le.2 hlen), getBaseName, pathTokens_eq_runs]
  cases hb : (runs (slash.contains ·) path.1).getLast? with
  | none =>
    exact baseNameOf_nil (pathCopy_at stack path) path.2 hlen (List.getLast?_eq_none_iff.1 hb)
  | some b => exact baseNameOf_eq (pathCopy_at stack path) path.2 hlen hb

end HustOS.Fs
