import HustOS.Foundations.Bytes
import HustOS.Foundations.Outcome
import HustOS.Foundations.Runs
import HustOS.Kernel

/-!
# Cutting a string into tokens

`strchr` and `strtok` of `util/string.c`, over the bytes of the string and the static variable
`current`. A call skips delimiters, ends the token behind them by a zero byte in place of the
delimiter, and keeps the position behind that byte, or `NULL` when the token ends the string.

The calls `strtok(s, delim)`, `strtok(NULL, delim)`, … return the maximal runs of bytes that are not
delimiters, in order, and then `NULL` (`strtokAll_runs`).
-/

namespace HustOS.Util

open Foundations

/-- `strchr` of a string: the position of the byte, which may be the zero byte at its end. -/
def strchr : List UInt8 → UInt8 → Option ℕ
  | [], ch => if ch = 0 then some 0 else none
  | c :: p, ch => if c = ch then some 0 else (strchr p ch).map (· + 1)

/-- The memory that `strtok` cuts, and its variable `current`. -/
structure Strtok where
  mem : Buf
  current : Option ℕ

/-- The loops of `strtok`: go on while the byte satisfies the condition, for at most `n` bytes. -/
def scan (mem : Buf) (p : UInt8 → Bool) : ℕ → ℕ → Except Fault ℕ
  | 0, _ => throw (.undefined "*start")
  | n + 1, off => if p (mem off) then scan mem p n (off + 1) else return off

/-- `strtok` on a string that has less than `n` bytes. -/
def strtok (delim : List UInt8) (n : ℕ) (str : Option ℕ) (st : Strtok) :
    Except Fault (Option ℕ × Strtok) :=
  match str <|> st.current with
  | none => return (none, { st with current := none })
  | some current => do
    let start ← scan st.mem (fun b => b ≠ 0 ∧ strchr delim b ≠ none) n current
    if st.mem start = 0 then
      return (none, { st with current := none })
    let «end» ← scan st.mem (fun b => b ≠ 0 ∧ strchr delim b = none) n start
    if st.mem «end» ≠ 0 then
      return (some start, { mem := Function.update st.mem «end» 0, current := some («end» + 1) })
    return (some start, { st with current := none })

/-- The strings of the tokens, up to the call that returns `NULL`, in at most `k` calls. -/
def strtokAll (delim : List UInt8) (n : ℕ) :
    ℕ → Option ℕ → Strtok → Except Fault (List (List UInt8) × Strtok)
  | 0, _, _ => throw (.undefined "strtok")
  | k + 1, str, st => do
    let (token, st) ← strtok delim n str st
    match token with
    | none => return ([], st)
    | some t =>
      let string := st.mem.cstr n t
      let (strings, st) ← strtokAll delim n k none st
      return (string :: strings, st)

variable {mem : Buf} {delim s d r t u w : List UInt8} {off n k : ℕ} {b c : UInt8}
  {p : UInt8 → Bool} {current str : Option ℕ} {st : Strtok}

/-! ## The loops -/

theorem strchr_ne_none (hb : b ≠ 0) : strchr delim b ≠ none ↔ delim.contains b = true := by
  induction delim with
  | nil => simp [strchr, hb]
  | cons c delim ih =>
    rw [strchr]
    by_cases hc : c = b
    · simp [hc]
    · simpa [hc, Ne.symm hc] using ih

/-- A loop stops at the first byte that does not satisfy the condition. -/
theorem scan_at (hat : mem.At off (u ++ c :: w)) (hu : ∀ a ∈ u, p a = true) (hc : p c = false)
    (hn : u.length < n) : scan mem p n off = .ok (off + u.length) := by
  induction u generalizing off n with
  | nil =>
    obtain ⟨n, rfl⟩ : ∃ n', n = n' + 1 := ⟨n - 1, by simp at hn; omega⟩
    rw [scan, hat.1, hc]
    rfl
  | cons a u ih =>
    obtain ⟨n, rfl⟩ : ∃ n', n = n' + 1 := ⟨n - 1, by simp at hn; omega⟩
    obtain ⟨ha, hat⟩ := hat
    rw [scan, ha, if_pos (hu a (List.mem_cons_self ..)),
      ih hat (fun b hb => hu b (List.mem_cons_of_mem _ hb)) (by simpa using hn), List.length_cons,
      Nat.add_assoc, Nat.add_comm 1]

/-! ## One call -/

/-- The condition of the first loop on a string. -/
theorem skips (h0 : (0 : UInt8) ∉ d) (hd : ∀ a ∈ d, delim.contains a = true) :
    ∀ a ∈ d, decide (a ≠ 0 ∧ strchr delim a ≠ none) = true := by
  intro a ha
  have hne : a ≠ 0 := fun h => h0 (h ▸ ha)
  exact decide_eq_true ⟨hne, (strchr_ne_none hne).2 (hd a ha)⟩

/-- The condition of the second loop on a string. -/
theorem takes (h0 : (0 : UInt8) ∉ r) (hr : ∀ a ∈ r, delim.contains a = false) :
    ∀ a ∈ r, decide (a ≠ 0 ∧ strchr delim a = none) = true := by
  intro a ha
  have hne : a ≠ 0 := fun h => h0 (h ▸ ha)
  have hnone : ¬ strchr delim a ≠ none := (strchr_ne_none hne).not.2 (by simpa using hr a ha)
  exact decide_eq_true ⟨hne, not_not.1 hnone⟩

/-- A string of delimiters has no token. -/
theorem strtok_none (hstr : (str <|> st.current) = some off) (hat : st.mem.At off (d ++ [0]))
    (h0 : (0 : UInt8) ∉ d) (hd : ∀ a ∈ d, delim.contains a = true) (hn : d.length < n) :
    strtok delim n str st = .ok (none, { st with current := none }) := by
  have hscan := scan_at hat (skips h0 hd) (by simp) hn
  have hend : st.mem (off + d.length) = 0 := (Buf.at_append.1 hat).2.1
  rw [strtok, hstr]
  simp only [hscan, ok_bind, hend, if_true, pure_eq_ok]

/-- The two loops go to the first token and to its end. -/
theorem scan_token (hat : mem.At off (d ++ (r ++ c :: w))) (h0 : (0 : UInt8) ∉ d ++ r)
    (hd : ∀ a ∈ d, delim.contains a = true) (hr : ∀ a ∈ r, delim.contains a = false) (hne : r ≠ [])
    (hc : c = 0 ∨ delim.contains c = true) (hn : (d ++ r).length < n) :
    scan mem (fun b => b ≠ 0 ∧ strchr delim b ≠ none) n off = .ok (off + d.length) ∧
      mem (off + d.length) ≠ 0 ∧
      scan mem (fun b => b ≠ 0 ∧ strchr delim b = none) n (off + d.length) =
        .ok (off + d.length + r.length) ∧ mem (off + d.length + r.length) = c := by
  rw [List.mem_append, not_or] at h0
  rw [List.length_append] at hn
  have hr' : mem.At (off + d.length) (r ++ c :: w) := (Buf.at_append.1 hat).2
  have hstop : decide (c ≠ 0 ∧ strchr delim c = none) = false := by
    refine decide_eq_false fun h => ?_
    rcases hc with hc | hc
    · exact h.1 hc
    · exact (strchr_ne_none h.1).2 hc h.2
  refine ⟨?_, ?_, scan_at hr' (takes h0.2 hr) hstop (by omega), (Buf.at_append.1 hr').2.1⟩
  · cases r with
    | nil => exact absurd rfl hne
    | cons a r =>
      have ha := takes h0.2 hr a (List.mem_cons_self ..)
      exact scan_at hat (skips h0.1 hd) (by simp_all) (by omega)
  · cases r with
    | nil => exact absurd rfl hne
    | cons a r =>
      rw [hr'.1]
      exact fun h => h0.2 (h ▸ List.mem_cons_self ..)

/-- The token at the end of the string. -/
theorem strtok_last (hstr : (str <|> st.current) = some off)
    (hat : st.mem.At off (d ++ (r ++ [0]))) (h0 : (0 : UInt8) ∉ d ++ r)
    (hd : ∀ a ∈ d, delim.contains a = true) (hr : ∀ a ∈ r, delim.contains a = false) (hne : r ≠ [])
    (hn : (d ++ r).length < n) :
    strtok delim n str st = .ok (some (off + d.length), { st with current := none }) := by
  obtain ⟨hstart, hpos, hend, hzero⟩ := scan_token hat h0 hd hr hne (.inl rfl) hn
  rw [strtok, hstr]
  simp only [hstart, ok_bind, hpos, if_false, hend, hzero, ne_eq, not_true_eq_false, pure_eq_ok]

/-- A token before a delimiter, which is overwritten. -/
theorem strtok_cut (hstr : (str <|> st.current) = some off)
    (hat : st.mem.At off (d ++ (r ++ c :: w))) (h0 : (0 : UInt8) ∉ d ++ r) (hc0 : c ≠ 0)
    (hd : ∀ a ∈ d, delim.contains a = true) (hr : ∀ a ∈ r, delim.contains a = false) (hne : r ≠ [])
    (hc : delim.contains c = true) (hn : (d ++ r).length < n) :
    strtok delim n str st = .ok (some (off + d.length),
      { mem := Function.update st.mem (off + d.length + r.length) 0,
        current := some (off + d.length + r.length + 1) }) := by
  obtain ⟨hstart, hpos, hend, hdelim⟩ := scan_token hat h0 hd hr hne (.inr hc) hn
  rw [strtok, hstr]
  simp only [hstart, ok_bind, hpos, if_false, hend, hdelim, ne_eq, hc0, not_false_eq_true, if_true,
    pure_eq_ok]

/-! ## A run of calls -/

/-- What is left of the string behind the last token: no token, or the string `s` at `current`. -/
def Left (delim : List UInt8) (st : Strtok) (s : List UInt8) : Prop :=
  match st.current with
  | none => runs (delim.contains ·) s = []
  | some off => st.mem.At off (s ++ [0])

/-- A call that returns the position `t` of the token `r` and leaves `rest`. -/
structure Cuts (delim s : List UInt8) (t : ℕ) (st' : Strtok) (r rest : List UInt8) : Prop where
  runs_eq : runs (delim.contains ·) s = r :: runs (delim.contains ·) rest
  token : st'.mem.At t (r ++ [0])
  left : Left delim st' rest
  zero : (0 : UInt8) ∉ r ∧ (0 : UInt8) ∉ rest
  length : r.length ≤ s.length ∧ rest.length < s.length

theorem strtok_eq (delim : List UInt8) (n off : ℕ) (st : Strtok) :
    strtok delim n (some off) st = strtok delim n none { st with current := some off } := rfl

/-- **One call** returns the first of the runs that are left, or `NULL` if there is none. -/
theorem strtok_left (hleft : Left delim st s) (h0 : (0 : UInt8) ∉ s) (hn : s.length < n) :
    runs (delim.contains ·) s = [] ∧
        strtok delim n none st = .ok (none, { st with current := none }) ∨
      ∃ t st' r rest, strtok delim n none st = .ok (some t, st') ∧ Cuts delim s t st' r rest := by
  rw [Left] at hleft
  cases hcur : st.current with
  | none =>
    rw [hcur] at hleft
    refine .inl ⟨hleft, ?_⟩
    rw [strtok, hcur]
    rfl
  | some off =>
    rw [hcur] at hleft
    have hstr : ((none : Option ℕ) <|> st.current) = some off := by
      rw [hcur]
      rfl
    rcases exists_first_run (delim.contains ·) s with hall | ⟨d, r, t, rfl, hd, hne, hr, ht⟩
    · refine .inl ⟨?_, strtok_none hstr hleft h0 hall hn⟩
      have h := runs_append_left (s := []) hall
      rwa [List.append_nil, runs_nil] at h
    · right
      rw [← List.append_assoc, List.mem_append, not_or] at h0
      rw [← List.append_assoc, List.length_append] at hn
      have hpos : 0 < r.length := List.length_pos_iff.2 hne
      have hlen : (d ++ r).length < n := by omega
      have hr0 : (0 : UInt8) ∉ r := fun h => h0.1 (List.mem_append_right _ h)
      rcases ht with rfl | ⟨c, t, rfl, hc⟩
      · rw [List.append_nil] at hleft
        have hcall := strtok_last hstr (by simpa using hleft) h0.1 hd hr hne hlen
        refine ⟨_, _, r, [], hcall, ?_, ?_, runs_nil _, ⟨hr0, by simp⟩, ?_⟩
        · rw [List.append_nil, runs_append_left hd, runs_of_forall_not hr hne, runs_nil]
        · exact (Buf.at_append.1 (show st.mem.At off (d ++ (r ++ [0])) by simpa using hleft)).2
        · simp only [List.append_nil, List.length_append, List.length_nil]
          omega
      · have hc0 : c ≠ 0 := fun h => h0.2 (h ▸ List.mem_cons_self ..)
        have hat : st.mem.At off (d ++ (r ++ c :: (t ++ [0]))) := by simpa using hleft
        have hcall := strtok_cut hstr hat h0.1 hc0 hd hr hne hc hlen
        have hat' := Buf.at_append.1 (Buf.at_append.1 hat).2
        refine ⟨_, _, r, t, hcall, ?_, ?_, ?_, ⟨hr0, fun h => h0.2 (List.mem_cons_of_mem _ h)⟩, ?_⟩
        · rw [runs_append_left hd, runs_append_cons hr hne hc]
        · -- the delimiter has become the end of the token
          refine Buf.at_append.2 ⟨Buf.at_update hat'.1 (.inr le_rfl), ?_, trivial⟩
          exact Function.update_self _ _ _
        · exact Buf.at_update hat'.2.2 (.inl (Nat.lt_succ_self _))
        · simp only [List.length_append, List.length_cons]
          omega

/-- **The calls** return the runs that are left. -/
theorem strtokAll_left (hleft : Left delim st s) (h0 : (0 : UInt8) ∉ s) (hn : s.length < n)
    (hk : s.length < k) :
    ∃ st', strtokAll delim n k none st = .ok (runs (delim.contains ·) s, st') ∧
      st'.current = none := by
  induction k generalizing st s with
  | zero => omega
  | succ k ih =>
    rw [strtokAll]
    rcases strtok_left hleft h0 hn with ⟨hruns, hcall⟩ | ⟨t, st₁, r, rest, hcall, hcut⟩
    · rw [hcall, hruns]
      exact ⟨_, rfl, rfl⟩
    · have hlen := hcut.length
      have hread := Buf.cstr_of_at hcut.zero.1 hcut.token (n := n) (by omega)
      obtain ⟨st', hrest, hnull⟩ := ih hcut.left hcut.zero.2 (by omega) (by omega)
      refine ⟨st', ?_, hnull⟩
      rw [hcall, ok_bind]
      simp only [hrest, ok_bind, pure_eq_ok, hread, hcut.runs_eq]

/-- **Tokens.** `strtok(s, delim)` and then `strtok(NULL, delim)` return the maximal runs of bytes
of the string that are no delimiters, in order, and then `NULL`, whatever `current` was. -/
theorem strtokAll_runs (hat : mem.At off (s ++ [0])) (h0 : (0 : UInt8) ∉ s) (hn : s.length < n)
    (delim : List UInt8) (current : Option ℕ) :
    ∃ st, strtokAll delim n (s.length + 1) (some off) ⟨mem, current⟩ =
        .ok (runs (delim.contains ·) s, st) ∧ strtok delim n none st = .ok (none, st) := by
  have hleft : Left delim ⟨mem, some off⟩ s := hat
  obtain ⟨st, hall, hnull⟩ := strtokAll_left hleft h0 hn (Nat.lt_succ_self _)
  refine ⟨st, ?_, ?_⟩
  · rw [strtokAll, strtok_eq]
    rwa [strtokAll] at hall
  · obtain ⟨m, cur⟩ := st
    obtain rfl : cur = none := hnull
    rfl

end HustOS.Util
