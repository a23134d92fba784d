import HustOS.Elf.Backtrace

/-!
# Sorting the symbols in place

`sort` of `kernel/elf.c` on the table as it is in memory, where a name is an array of 32 bytes: two
neighbours are exchanged through the variable `s`, field by field, and a name is copied up to its
zero byte, so the bytes behind it stay where they were. If the names end inside their arrays, the
table that is left stands for the sorted table of strings (`sortRaw_symbols`).
-/

namespace HustOS.Elf

open Foundations

/-- `symbol` in memory. -/
structure RawSymbol where
  name : Buf
  offset : ℕ

/-- The string and the offset. -/
def RawSymbol.symbol (r : RawSymbol) : Symbol := ⟨r.name.cstr 32 0, r.offset⟩

/-- The table that an array stands for. -/
def symbols (sh : ℕ → RawSymbol) : SymTable := fun i => (sh i).symbol

/-- `strcpy` between two names. -/
def strcpyField (dst src : Buf) : Except Fault Buf :=
  if (src.cstr 32 0).length < 32 then return dst.setCstr 0 (src.cstr 32 0)
  else throw (.undefined "strcpy(s.name, sh[j].name)")

/-- The body of the inner loop, with `s` and the array. -/
def exchange (st : RawSymbol × (ℕ → RawSymbol)) (j : ℕ) :
    Except Fault (RawSymbol × (ℕ → RawSymbol)) :=
  let (s, sh) := st
  if (sh (j + 1)).offset < (sh j).offset then do
    let s := { s with offset := (sh j).offset }
    let name ← strcpyField s.name (sh j).name
    let s := { s with name := name }
    let sh := Function.update sh j { sh j with offset := (sh (j + 1)).offset }
    let name ← strcpyField (sh j).name (sh (j + 1)).name
    let sh := Function.update sh j { sh j with name := name }
    let sh := Function.update sh (j + 1) { sh (j + 1) with offset := s.offset }
    let name ← strcpyField (sh (j + 1)).name s.name
    return (s, Function.update sh (j + 1) { sh (j + 1) with name := name })
  else return (s, sh)

/-- The inner loop up to `m`. -/
def innerLoop (st : RawSymbol × (ℕ → RawSymbol)) (m : ℕ) :
    Except Fault (RawSymbol × (ℕ → RawSymbol)) :=
  (List.range m).foldlM exchange st

/-- The outer loop, `k` times. -/
def outerLoop (st : RawSymbol × (ℕ → RawSymbol)) (len k : ℕ) :
    Except Fault (RawSymbol × (ℕ → RawSymbol)) :=
  (List.range k).foldlM (fun st i => innerLoop st (len - 1 - i)) st

/-- `sort`; `s` is what the variable holds at first. -/
def sortRaw (s : RawSymbol) (sh : ℕ → RawSymbol) : Except Fault (ℕ → RawSymbol) := do
  let len := findLen (symbols sh) SH_LEN 0
  let (_, sh) ← outerLoop (s, sh) len (len - 1)
  return sh

variable {st : RawSymbol × (ℕ → RawSymbol)} {v : SymTable} {dst src : Buf} {n m j k : ℕ}

/-! ## The exchange -/

/-- A copied name has the string of the other one. -/
theorem strcpyField_ok (dst : Buf) (h : (src.cstr 32 0).length < 32) :
    ∃ name, strcpyField dst src = .ok name ∧ name.cstr 32 0 = src.cstr 32 0 := by
  refine ⟨dst.setCstr 0 (src.cstr 32 0), ?_, ?_⟩
  · rw [strcpyField, if_pos h]
    rfl
  · exact Buf.cstr_setCstr (Buf.zero_notMem_cstr src 32 0) h

/-- **The exchange** is that of two entries. -/
theorem exchange_ok (hv : symbols st.2 = v) (hj : (v j).name.length < 32)
    (hj' : (v (j + 1)).name.length < 32) :
    ∃ st', exchange st j = .ok st' ∧ symbols st'.2 = bubbleStep Symbol.offset v j := by
  obtain ⟨s, sh⟩ := st
  subst hv
  rw [exchange, bubbleStep]
  by_cases hlt : (sh (j + 1)).offset < (sh j).offset
  · have hne : j + 1 ≠ j := Nat.succ_ne_self j
    obtain ⟨name, hname, hread⟩ := strcpyField_ok s.name hj
    obtain ⟨name', hname', hread'⟩ := strcpyField_ok (sh j).name hj'
    have hlen : (name.cstr 32 0).length < 32 := hread.symm ▸ hj
    obtain ⟨name₁, hname₁, hread₁⟩ := strcpyField_ok (sh (j + 1)).name hlen
    simp only [hlt, if_true, hname, ok_bind, Function.update_self, hname',
      Function.update_of_ne hne,
      hname₁, pure_eq_ok]
    refine ⟨_, rfl, ?_⟩
    rw [if_pos (show (symbols sh (j + 1)).offset < (symbols sh j).offset from hlt)]
    funext i
    simp only [symbols, Function.update_apply]
    split
    · rw [RawSymbol.symbol, RawSymbol.symbol, hread₁, hread]
    · split
      · rw [RawSymbol.symbol, RawSymbol.symbol, hread']
      · rfl
  · simp only [hlt, if_false, pure_eq_ok]
    refine ⟨_, rfl, ?_⟩
    rw [if_neg (show ¬ (symbols sh (j + 1)).offset < (symbols sh j).offset from hlt)]

/-! ## The loops -/

/-- The strings of a permuted table fit if those of the table do. -/
theorem names_lt {w : SymTable} (h : Permutes n v w) (hv : ∀ i < n, (v i).name.length < 32) :
    ∀ i < n, (w i).name.length < 32 := by
  intro i hi
  obtain ⟨i', hi', he⟩ := h.exists_lt hi
  rw [he]
  exact hv i' hi'

theorem innerLoop_ok (hv : symbols st.2 = v) (hlen : ∀ i < n, (v i).name.length < 32) (hm : m < n) :
    ∃ st', innerLoop st m = .ok st' ∧ symbols st'.2 = bubblePass Symbol.offset v m := by
  induction m with
  | zero => exact ⟨st, rfl, hv⟩
  | succ m ih =>
    obtain ⟨st₁, hrun, hv₁⟩ := ih (by omega)
    have hfit := names_lt ((stablePermutes_bubblePass Symbol.offset v m).mono hm.le).permutes hlen
    obtain ⟨st₂, hstep, hv₂⟩ := exchange_ok hv₁ (hfit m (by omega)) (hfit (m + 1) hm)
    refine ⟨st₂, ?_, ?_⟩
    · rw [innerLoop] at hrun ⊢
      rw [foldlM_range_succ, hrun, ok_bind, hstep]
    · rw [hv₂, bubblePass_succ]

theorem outerLoop_ok (hv : symbols st.2 = v) (hlen : ∀ i < n, (v i).name.length < 32)
    (hk : k ≤ n - 1) :
    ∃ st', outerLoop st n k = .ok st' ∧ symbols st'.2 = bubblePasses Symbol.offset n v k := by
  induction k with
  | zero => exact ⟨st, rfl, hv⟩
  | succ k ih =>
    obtain ⟨st₁, hrun, hv₁⟩ := ih (by omega)
    have hfit := names_lt (stablePermutes_bubblePasses (n := n) Symbol.offset v k).permutes hlen
    obtain ⟨st₂, hpass, hv₂⟩ := innerLoop_ok hv₁ hfit (m := n - 1 - k) (by omega)
    refine ⟨st₂, ?_, ?_⟩
    · rw [outerLoop] at hrun ⊢
      rw [foldlM_range_succ, hrun, ok_bind, hpass]
    · rw [hv₂, bubblePasses_succ]

/-- **`sort` in memory** sorts the table of strings, if the names below the closing entry end inside
their arrays. -/
theorem sortRaw_symbols (s : RawSymbol) (sh : ℕ → RawSymbol)
    (hlen : ∀ i < findLen (symbols sh) SH_LEN 0, ((sh i).name.cstr 32 0).length < 32) :
    ∃ sh', sortRaw s sh = .ok sh' ∧ symbols sh' = sort (symbols sh) := by
  have hsym : symbols (s, sh).2 = symbols sh := rfl
  obtain ⟨st, hrun, hv⟩ := outerLoop_ok hsym hlen le_rfl
  refine ⟨st.2, ?_, hv⟩
  rw [sortRaw, hrun]
  rfl

end HustOS.Elf
