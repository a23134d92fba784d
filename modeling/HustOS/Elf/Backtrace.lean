import HustOS.Elf.File
import HustOS.Foundations.BubbleSort
import HustOS.Foundations.Outcome
import Mathlib.Data.List.Range

/-!
# The names in a backtrace

`elf_copyhead` and `sort` of `kernel/elf.c` and `sys_user_lab1_challenge1` of `kernel/syscall.c`:
the function symbols of the program go to the table `sh`, closed by an entry with offset 1, are
sorted by their offsets, and a return address is looked up between the offsets of neighbours.

The closing entry is also the neighbour of the last symbol, so a return address in the last function
is found in no interval (`backtrace_iff`). Two arrays bound what can be copied: `id` has a place for
64 symbols of any kind, and a name is copied through 32 bytes.
-/

namespace HustOS.Elf

open Foundations

/-! ## The table -/

/-- `symbol`: the string in `name`, and `offset`. -/
structure Symbol where
  name : List UInt8
  offset : ℕ

/-- `sh`. -/
abbrev SymTable : Type := ℕ → Symbol

/-- The `sy_info` of a global function. -/
abbrev FUNC : ℕ := 0x12

/-- The length of `sh` and of `id`. -/
abbrev SH_LEN : ℕ := 64

/-- `strcpy` of a name from the 32 bytes of `name_x`. -/
def strcpyName (nameX : Buf) : Except Fault (List UInt8) :=
  if (nameX.cstr 32 0).length < 32 then return nameX.cstr 32 0
  else throw (.undefined "strcpy(sh[j].name, name_x)")

/-- The loop over the section headers, from header `i` on: the headers of the sections `.symtab` and
`.strtab`. -/
def sectionLoop (f : File) (ehdr : ElfHeader) (shrSy : Buf) :
    ℕ → ℕ → Buf → ElfSectHeader × ElfSectHeader → ElfSectHeader × ElfSectHeader
  | 0, _, _, found => found
  | k + 1, i, tp, (sym, str) =>
    let tp := elfFpread f tp SECT_HEADER_SIZE (ehdr.shoff + i * ehdr.shentsize)
    let hdr := ElfSectHeader.ofBuf tp
    sectionLoop f ehdr shrSy k (i + 1) tp
      (if shrSy.strcmpEq hdr.name ".symtab".toUTF8.toList then (hdr, str)
       else if shrSy.strcmpEq hdr.name ".strtab".toUTF8.toList then (sym, hdr)
       else (sym, str))

/-- The section headers that `elf_copyhead` finds; `stack` is what its variables hold at first. -/
def sections (f : File) (ehdr : ElfHeader) (stack : Buf) : ElfSectHeader × ElfSectHeader :=
  let shr := ElfSectHeader.ofBuf
    (elfFpread f stack SECT_HEADER_SIZE (ehdr.shoff + ehdr.shstrndx * SECT_HEADER_SIZE))
  let shrSy := elfFpread f stack shr.size shr.offset
  sectionLoop f ehdr shrSy ehdr.shnum 0 stack (.ofBuf stack, .ofBuf stack)

/-- A function symbol goes to the table at `j`, other symbols do not. -/
def copySymbol (f : File) (str : ElfSectHeader) (stack : Buf) (symT : ElfSym) (j : ℕ)
    (sh : SymTable) : Except Fault (ℕ × SymTable) :=
  if symT.info = FUNC then do
    if SH_LEN ≤ j then throw (.undefined "sh[j]")
    let name ← strcpyName (elfFpread f stack 32 (str.offset + symT.name))
    return (j + 1, Function.update sh j ⟨name, symT.value⟩)
  else return (j, sh)

/-- The loop over the symbols, from symbol `i` on. The table is closed after each of them. -/
def symbolLoop (f : File) (sym str : ElfSectHeader) (stack : Buf) :
    ℕ → ℕ → Buf → ℕ → SymTable → Except Fault SymTable
  | 0, _, _, _, sh => return sh
  | k + 1, i, symT, j, sh => do
    let symT := elfFpread f symT SYM_SIZE (sym.offset + i * SYM_SIZE)
    if SH_LEN ≤ i then throw (.undefined "id[i]")
    let (j, sh) ← copySymbol f str stack (.ofBuf symT) j sh
    if SH_LEN ≤ j then throw (.undefined "sh[j]")
    symbolLoop f sym str stack k (i + 1) symT j (Function.update sh j { sh j with offset := 1 })

/-- `elf_copyhead`. -/
def elfCopyhead (f : File) (ehdr : ElfHeader) (stack : Buf) (sh : SymTable) :
    Except Fault SymTable :=
  let (sym, str) := sections f ehdr stack
  symbolLoop f sym str stack (sym.size / SYM_SIZE) 0 stack 0 sh

/-- The search of `sort` for the closing entry. -/
def findLen (sh : SymTable) : ℕ → ℕ → ℕ
  | 0, _ => 0
  | k + 1, i => if (sh i).offset = 1 then i else findLen sh k (i + 1)

/-- `sort`. -/
def sort (sh : SymTable) : SymTable :=
  bubbleSort Symbol.offset (findLen sh SH_LEN 0) sh

/-- The loop of `sys_user_lab1_challenge1` that looks an address up: the name that it prints. -/
def lookupLoop (sh : SymTable) (ar1 : ℕ) : ℕ → ℕ → Except Fault (Option (List UInt8))
  | 0, _ => throw (.undefined "sh[i]")
  | k + 1, i => do
    if (sh i).offset = 1 then return none
    if (sh i).offset ≤ ar1 then
      if SH_LEN ≤ i + 1 then throw (.undefined "sh[i+1]")
      if ar1 < (sh (i + 1)).offset then return some (sh i).name
    lookupLoop sh ar1 k (i + 1)

/-- The loop of `sys_user_lab1_challenge1` over the frames, at the return address `ar1` in `va`:
what it prints. `word` reads a word of the user's stack. -/
def frameLoop (sh : SymTable) (word : ℕ → Except Fault ℕ) :
    ℕ → ℕ → ℕ → Except Fault (List (List UInt8))
  | 0, _, _ => return []
  | k + 1, va, ar1 => do
    let name ← lookupLoop sh ar1 SH_LEN 0
    let ar1 ← word (va + 16)
    let names ← frameLoop sh word k (va + 16) ar1
    return name.toList ++ names

/-- `sys_user_lab1_challenge1`. -/
def sysUserLab1Challenge1 (sh : SymTable) (word : ℕ → Except Fault ℕ) (sp a1 : ℕ) :
    Except Fault (List (List UInt8)) := do
  let ar1 ← word (sp + 24)
  frameLoop sh word a1 (sp + 24) ar1

/-! ## Symbol tables -/

/-- `k` symbols of the program from symbol `i` on, as the file has them. -/
def symbolsFrom (f : File) (sym : ElfSectHeader) (i k : ℕ) : List ElfSym :=
  (List.range' i k).map fun i => .ofBuf (bytesAt f.buf (sym.offset + i * SYM_SIZE))

/-- The symbols of the program. -/
def symtab (f : File) (sym : ElfSectHeader) :
    List ElfSym := symbolsFrom f sym 0 (sym.size / SYM_SIZE)

/-- The string at an offset of the file. -/
def stringAt (f : File) (off : ℕ) : List UInt8 := (f.drop off).takeWhile (· ≠ 0)

/-- The name of a symbol. -/
def nameOf (f : File) (str : ElfSectHeader) (s : ElfSym) : List UInt8 :=
  stringAt f (str.offset + s.name)

/-- The function symbols. -/
def functions (l : List ElfSym) : List ElfSym := l.filter (·.info = FUNC)

/-- The symbol table of a file: it lies in the file, and so do the names of the functions with their
zero bytes; there are at most 63 functions, at different addresses greater than 1. -/
structure IsSymtab (f : File) (sym str : ElfSectHeader) : Prop where
  length_lt : f.length < 2 ^ 63
  inside : sym.offset + sym.size ≤ f.length
  name_inside : ∀ s ∈ functions (symtab f sym),
    str.offset + s.name + (nameOf f str s).length < f.length
  nonempty : functions (symtab f sym) ≠ []
  length_le : (functions (symtab f sym)).length ≤ 63
  nodup : ((functions (symtab f sym)).map ElfSym.value).Nodup
  value : ∀ s ∈ functions (symtab f sym), 1 < s.value

/-- The symbol with the greatest address up to `a`. -/
def Nearest (l : List ElfSym) (a : ℕ) (s : ElfSym) : Prop :=
  s ∈ l ∧ s.value ≤ a ∧ ∀ t ∈ l, t.value ≤ a → t.value ≤ s.value

/-- The entry of `sh` for a symbol. -/
def entry (f : File) (str : ElfSectHeader) (s : ElfSym) : Symbol := ⟨nameOf f str s, s.value⟩

variable {f : File} {sym str : ElfSectHeader} {stack symT b : Buf} {sh sh' : SymTable}
  {i j k m n off a : ℕ} {s : ElfSym} {l : List ElfSym} {ehdr : ElfHeader}

theorem symbolsFrom_succ (f : File) (sym : ElfSectHeader) (i k : ℕ) :
    symbolsFrom f sym i (k + 1) =
      .ofBuf (bytesAt f.buf (sym.offset + i * SYM_SIZE)) :: symbolsFrom f sym (i + 1) k := by
  simp [symbolsFrom, List.range'_succ]

/-- A symbol is read as it is in the file. -/
theorem IsSymtab.read (h : IsSymtab f sym str) (hi : i < sym.size / SYM_SIZE) :
    ElfSym.ofBuf (elfFpread f symT SYM_SIZE (sym.offset + i * SYM_SIZE)) =
      .ofBuf (bytesAt f.buf (sym.offset + i * SYM_SIZE)) := by
  have hlen := h.length_lt
  have hin := h.inside
  have hend : (i + 1) * SYM_SIZE ≤ sym.size := (Nat.le_div_iff_mul_le (by decide)).1 hi
  simp only [SYM_SIZE] at hend ⊢
  exact ElfSym.ofBuf_congr fun m hm => elfFpread_apply (by omega) hm (by omega)

/-! ## Names -/

theorem stringAt_of_lt (h : off < f.length) :
    stringAt f off = if f.getD off 0 = 0 then [] else f.getD off 0 :: stringAt f (off + 1) := by
  have hget : f.getD off 0 = f[off] := by simp [h]
  rw [stringAt, List.drop_eq_getElem_cons h, hget, List.takeWhile_cons]
  split <;> simp_all [stringAt]

/-- The string in a buffer that agrees with the file. -/
theorem cstr_eq_take (h : off + (stringAt f off).length < f.length)
    (hb : ∀ i < n, off + i < f.length → b (m + i) = f.getD (off + i) 0) :
    b.cstr n m = (stringAt f off).take n := by
  induction n generalizing off m with
  | zero => rfl
  | succ n ih =>
    have h0 : b m = f.getD off 0 := hb 0 (by omega) (by omega)
    rw [stringAt_of_lt (by omega)] at h ⊢
    rw [Buf.cstr, h0]
    split
    · rfl
    · rename_i hne
      rw [if_neg hne, List.length_cons] at h
      have hrest : b.cstr n (m + 1) = (stringAt f (off + 1)).take n := by
        refine ih (by omega) fun i hi hlt => ?_
        have hnext := hb (i + 1) (by omega) (by omega)
        rwa [show m + (i + 1) = m + 1 + i by omega, show off + (i + 1) = off + 1 + i by omega]
          at hnext
      rw [List.take_succ_cons, hrest]

/-- A name is copied if it has fewer than 32 bytes. -/
theorem IsSymtab.strcpyName (h : IsSymtab f sym str) (hs : s ∈ functions (symtab f sym)) :
    strcpyName (elfFpread f stack 32 (str.offset + s.name)) =
      if (nameOf f str s).length < 32 then .ok (nameOf f str s)
      else .error (.undefined "strcpy(sh[j].name, name_x)") := by
  have hin := h.name_inside s hs
  have hlen := h.length_lt
  have hstr : (elfFpread f stack 32 (str.offset + s.name)).cstr 32 0 =
      (nameOf f str s).take 32 := by
    refine cstr_eq_take hin fun i hi hlt => ?_
    rw [Nat.zero_add]
    exact elfFpread_apply (by omega) hi hlt
  rw [Elf.strcpyName, hstr, List.length_take]
  split
  · rename_i hlt
    have hshort : (nameOf f str s).length < 32 := by omega
    rw [if_pos hshort, List.take_of_length_le hshort.le]
    rfl
  · rw [if_neg (by omega)]
    rfl

/-! ## Copying the symbols -/

/-- The table has the entries of `l` from `j` on, and below `j` those of before. -/
structure Copied (f : File) (str : ElfSectHeader) (l : List ElfSym) (j : ℕ) (sh sh' : SymTable) :
    Prop where
  below : ∀ m < j, sh' m = sh m
  entries : ∀ m (h : m < l.length), sh' (j + m) = entry f str l[m]
  closed : (sh' (j + l.length)).offset = 1

/-- **The symbols are copied** if `id` has room for them and the names of the functions are
short. -/
theorem IsSymtab.symbolLoop (h : IsSymtab f sym str) (hk : i + k ≤ sym.size / SYM_SIZE)
    (hid : i + k ≤ 64)
    (hfit : ∀ s ∈ functions (symbolsFrom f sym i k), s ∈ functions (symtab f sym) ∧
      (nameOf f str s).length < 32)
    (hj : j + (functions (symbolsFrom f sym i k)).length ≤ 63)
    (hclosed : k = 0 → (sh j).offset = 1) :
    ∃ sh', symbolLoop f sym str stack k i symT j sh = .ok sh' ∧
      Copied f str (functions (symbolsFrom f sym i k)) j sh sh' := by
  induction k generalizing i j symT sh with
  | zero =>
    refine ⟨sh, rfl, fun _ _ => rfl, fun m hm => ?_, hclosed rfl⟩
    simp [symbolsFrom, functions] at hm
  | succ k ih =>
    rw [symbolsFrom_succ] at hfit hj ⊢
    rw [Elf.symbolLoop, h.read (by omega)]
    generalize ElfSym.ofBuf (bytesAt f.buf (sym.offset + i * SYM_SIZE)) = s at hfit hj ⊢
    simp only [SH_LEN, show ¬ 64 ≤ i by omega, if_false, copySymbol]
    by_cases hs : s.info = FUNC
    · -- the symbol is the entry at `j`, and the rest goes behind it
      have hfun : functions (s :: symbolsFrom f sym (i + 1) k) =
          s :: functions (symbolsFrom f sym (i + 1) k) := by simp [functions, hs]
      rw [hfun] at hfit hj ⊢
      rw [List.length_cons] at hj
      have hname := hfit s (List.mem_cons_self ..)
      have hbegun : (Function.update (Function.update sh j (entry f str s)) (j + 1)
          { Function.update sh j (entry f str s) (j + 1) with offset := 1 }
              (j + 1)).offset = 1 := by
        rw [Function.update_self]
      obtain ⟨sh', hrun, hbelow, hentries, hend⟩ := ih (j := j + 1) (by omega) (by omega)
        (fun t ht => hfit t (List.mem_cons_of_mem _ ht)) (by omega) (fun _ => hbegun)
      refine ⟨sh', ?_, fun m hm => ?_, fun m hm => ?_, ?_⟩
      · simp only [hs, if_true, show ¬ 64 ≤ j by omega, if_false, h.strcpyName hname.1, hname.2,
          ok_bind, pure_eq_ok, show ¬ 64 ≤ j + 1 by omega]
        exact hrun
      · rw [hbelow m (by omega), Function.update_of_ne (by omega), Function.update_of_ne (by omega)]
      · cases m with
        | zero =>
          rw [Nat.add_zero, hbelow j (by omega), Function.update_of_ne (by omega),
            Function.update_self]
          rfl
        | succ m =>
          rw [show j + (m + 1) = j + 1 + m by omega]
          exact hentries m (by simpa using hm)
      · rw [List.length_cons, Nat.add_comm _ 1, ← Nat.add_assoc]
        exact hend
    · have hfun : functions (s :: symbolsFrom f sym (i + 1) k) =
          functions (symbolsFrom f sym (i + 1) k) := by simp [functions, hs]
      rw [hfun] at hfit hj ⊢
      have hbegun : (Function.update sh j { sh j with offset := 1 } j).offset = 1 := by
        rw [Function.update_self]
      obtain ⟨sh', hrun, hbelow, hentries, hend⟩ := ih (j := j) (by omega) (by omega) hfit hj
        (fun _ => hbegun)
      refine ⟨sh', ?_, fun m hm => ?_, hentries, hend⟩
      · simp only [hs, if_false, pure_eq_ok, ok_bind, show ¬ 64 ≤ j by omega]
        exact hrun
      · rw [hbelow m hm, Function.update_of_ne (by omega)]

/-- Only so much is copied. -/
theorem IsSymtab.of_symbolLoop (h : IsSymtab f sym str) (hk : i + k ≤ sym.size / SYM_SIZE)
    (hmem : ∀ s ∈ functions (symbolsFrom f sym i k), s ∈ functions (symtab f sym))
    (hrun : Elf.symbolLoop f sym str stack k i symT j sh = .ok sh') :
    (k = 0 ∨ i + k ≤ 64) ∧
      ∀ s ∈ functions (symbolsFrom f sym i k), (nameOf f str s).length < 32 := by
  induction k generalizing i j symT sh with
  | zero => exact ⟨.inl rfl, by simp [symbolsFrom, functions]⟩
  | succ k ih =>
    rw [symbolsFrom_succ] at hmem ⊢
    rw [Elf.symbolLoop, h.read (by omega)] at hrun
    generalize ElfSym.ofBuf (bytesAt f.buf (sym.offset + i * SYM_SIZE)) = s at hmem hrun ⊢
    simp only [SH_LEN] at hrun
    split at hrun
    · exact nomatch hrun
    · rename_i hi
      obtain ⟨⟨j', sh₁⟩, hcopy, hrun⟩ := (bind_ok_iff _ _ _).1 hrun
      simp only at hrun
      split at hrun
      · exact nomatch hrun
      · have hrest : ∀ t ∈ functions (symbolsFrom f sym (i + 1) k), t ∈ functions (symtab f sym) :=
          fun t ht => hmem t (by
            simp only [functions, List.filter_cons] at ht ⊢
            split
            · exact List.mem_cons_of_mem _ ht
            · exact ht)
        obtain ⟨hid, hfit⟩ := ih (by omega) hrest hrun
        refine ⟨.inr (by omega), fun t ht => ?_⟩
        by_cases hs : s.info = FUNC
        · have hfun : functions (s :: symbolsFrom f sym (i + 1) k) =
              s :: functions (symbolsFrom f sym (i + 1) k) := by simp [functions, hs]
          rw [hfun] at ht hmem
          rcases List.mem_cons.1 ht with rfl | ht
          · -- the copy of its name returned
            rw [copySymbol, if_pos hs] at hcopy
            simp only [SH_LEN] at hcopy
            split at hcopy
            · exact nomatch hcopy
            · obtain ⟨name, hname, -⟩ := (bind_ok_iff _ _ _).1 hcopy
              rw [h.strcpyName (hmem t (List.mem_cons_self ..))] at hname
              by_contra hlong
              rw [if_neg hlong] at hname
              exact nomatch hname
          · exact hfit t ht
        · have hfun : functions (s :: symbolsFrom f sym (i + 1) k) =
              functions (symbolsFrom f sym (i + 1) k) := by simp [functions, hs]
          exact hfit t (hfun ▸ ht)

/-! ## Sorting them -/

/-- The closing entry is found. -/
theorem findLen_eq (hne : ∀ i < n, (sh i).offset ≠ 1) (hn : (sh n).offset = 1) (hi : i ≤ n)
    (hk : n < i + k) : findLen sh k i = n := by
  induction k generalizing i with
  | zero => omega
  | succ k ih =>
    rw [findLen]
    rcases Nat.lt_or_eq_of_le hi with hi | rfl
    · rw [if_neg (hne i hi)]
      exact ih hi (by omega)
    · rw [if_pos hn]

/-- **Sorting.** If the first entry with offset 1 is one of the 64, at `n`, the entries below it are
sorted by their offsets, and entries with one offset keep their order; the entries from `n` on
stay. -/
theorem sort_stable (sh : SymTable) (n : ℕ) (hn : n ≤ 63) (hend : (sh n).offset = 1)
    (hfirst : ∀ i < n, (sh i).offset ≠ 1) :
    (∀ i j, i < j → j < n → (sort sh i).offset ≤ (sort sh j).offset) ∧
      StablePermutes Symbol.offset n sh (sort sh) ∧ ∀ i, n ≤ i → sort sh i = sh i := by
  have hlen : findLen sh SH_LEN 0 = n := findLen_eq hfirst hend (Nat.zero_le _) (by
    simp only [SH_LEN]
    omega)
  have hstable : StablePermutes Symbol.offset n sh (sort sh) := by
    rw [sort, hlen]
    exact stablePermutes_bubbleSort _ _ _
  refine ⟨fun i j hij hj => ?_, hstable, fun i hi => hstable.permutes.eq_of_le hi⟩
  rw [sort, hlen]
  exact bubbleSort_sorted Symbol.offset sh hij hj

/-- The case of three entries, two of them with one offset. -/
theorem sort_stable_three :
    let sh : SymTable := fun i => [⟨[97], 9⟩, ⟨[98], 5⟩, ⟨[99], 5⟩, ⟨[100], 1⟩].getD i ⟨[], 0⟩
    StablePermutes Symbol.offset 3 sh (sort sh) ∧
      sort sh 0 = ⟨[98], 5⟩ ∧ sort sh 1 = ⟨[99], 5⟩ ∧ sort sh 2 = ⟨[97], 9⟩ := by
  intro sh
  have hfirst : ∀ i < 3, (sh i).offset ≠ 1 := by decide
  exact ⟨(sort_stable sh 3 (by decide) rfl hfirst).2.1, rfl, rfl, rfl⟩

/-- A sorted table with the entries of `l`. -/
structure Ordered (f : File) (str : ElfSectHeader) (l : List ElfSym) (sh : SymTable) : Prop where
  mem : ∀ m < l.length, ∃ s ∈ l, sh m = entry f str s
  exists_mem : ∀ s ∈ l, ∃ m < l.length, sh m = entry f str s
  strictMono : ∀ i j, i < j → j < l.length → (sh i).offset < (sh j).offset
  closed : (sh l.length).offset = 1

/-- The addresses tell the symbols apart. -/
theorem value_inj (hnd : (l.map ElfSym.value).Nodup) (hi : i < l.length) (hj : j < l.length)
    (he : l[i].value = l[j].value) : i = j := by
  have hi' : i < (l.map ElfSym.value).length := by simpa using hi
  have hj' : j < (l.map ElfSym.value).length := by simpa using hj
  have hv : (l.map ElfSym.value)[i] = (l.map ElfSym.value)[j] := by simpa using he
  exact (List.Nodup.getElem_inj_iff hnd).1 hv

/-- **The table is sorted.** -/
theorem Copied.sort (h : Copied f str l 0 sh sh') (hlen : l.length ≤ 63)
    (hnd : (l.map ElfSym.value).Nodup) (hval : ∀ s ∈ l, 1 < s.value) :
    Ordered f str l (sort sh') := by
  have hentry : ∀ m (hm : m < l.length), sh' m = entry f str l[m] := by simpa using h.entries
  have hlen' : findLen sh' SH_LEN 0 = l.length := by
    refine findLen_eq (fun i hi => ?_) (by simpa using h.closed) (Nat.zero_le _) (by
      simp only [SH_LEN]
      omega)
    rw [hentry i hi]
    exact (hval _ (List.getElem_mem hi)).ne'
  have hperm := (stablePermutes_bubbleSort Symbol.offset l.length sh').permutes
  have hinj : ∀ i < l.length, ∀ j < l.length, sh' i = sh' j → i = j := by
    intro i hi j hj he
    rw [hentry i hi, hentry j hj] at he
    exact value_inj hnd hi hj (congrArg Symbol.offset he)
  rw [Elf.sort, hlen']
  refine ⟨fun m hm => ?_, fun s hs => ?_, fun i j hij hj => ?_, ?_⟩
  · obtain ⟨m', hm', he⟩ := hperm.exists_lt hm
    exact ⟨l[m'], List.getElem_mem hm', he.trans (hentry m' hm')⟩
  · obtain ⟨m, hm, rfl⟩ := List.getElem_of_mem hs
    obtain ⟨m', hm', he⟩ := hperm.exists_lt' hm
    exact ⟨m', hm', he.trans (hentry m hm)⟩
  · have hle := bubbleSort_sorted Symbol.offset sh' hij hj
    refine lt_of_le_of_ne hle fun he => ?_
    -- different cells have different symbols, and these have different addresses
    have hi := hij.trans hj
    obtain ⟨i', hi', hei⟩ := hperm.exists_lt hi
    obtain ⟨j', hj', hej⟩ := hperm.exists_lt hj
    rw [hei, hej, hentry i' hi', hentry j' hj'] at he
    obtain rfl := value_inj hnd hi' hj' he
    have := hperm.injOn hinj hi hj (hei.trans hej.symm)
    omega
  · rw [hperm.eq_of_le le_rfl]
    simpa using h.closed

/-! ## Looking addresses up -/

/-- A bound between the ends of a sequence is between two neighbours. -/
theorem exists_between {g : ℕ → ℕ} (h0 : g 0 ≤ a) (hn : a < g n) :
    ∃ m < n, g m ≤ a ∧ a < g (m + 1) := by
  induction n with
  | zero => omega
  | succ n ih =>
    rcases Nat.lt_or_ge a (g n) with h | h
    · obtain ⟨m, hm, hb⟩ := ih h
      exact ⟨m, by omega, hb⟩
    · exact ⟨n, by omega, h, hn⟩

namespace Ordered

variable (h : Ordered f str l sh) (hval : ∀ s ∈ l, 1 < s.value)

include h hval

theorem offset_ne_one (hm : m < l.length) : (sh m).offset ≠ 1 := by
  obtain ⟨s, hs, he⟩ := h.mem m hm
  rw [he]
  exact (hval s hs).ne'

variable (hlen : l.length ≤ 63)

include hlen

/-- An address between two neighbours is found. -/
theorem lookup_some (hm : m + 1 < l.length) (hle : (sh m).offset ≤ a)
    (hlt : a < (sh (m + 1)).offset) (hi : i ≤ m) :
    lookupLoop sh a (64 - i) i = .ok (some (sh m).name) := by
  obtain ⟨d, hd⟩ : ∃ d, i + d = m := ⟨m - i, by omega⟩
  induction d generalizing i with
  | zero =>
    obtain rfl : i = m := by omega
    have hne := h.offset_ne_one hval (m := i) (by omega)
    rw [show 64 - i = 63 - i + 1 by omega, lookupLoop]
    simp only [SH_LEN, hne, hle, hlt, if_true, if_false, show ¬ 64 ≤ i + 1 by omega, pure_eq_ok]
  | succ d ih =>
    have hnext : (sh (i + 1)).offset ≤ a := by
      rcases Nat.lt_or_eq_of_le (show i + 1 ≤ m by omega) with hlt' | he
      · exact (h.strictMono _ _ hlt' (by omega)).le.trans hle
      · exact he ▸ hle
    have hcur : (sh i).offset ≤ a := (h.strictMono i (i + 1) (by omega) (by omega)).le.trans hnext
    have hne := h.offset_ne_one hval (m := i) (by omega)
    rw [show 64 - i = 64 - (i + 1) + 1 by omega, lookupLoop]
    simp only [SH_LEN, hne, hcur, Nat.not_lt.2 hnext, if_true, if_false,
      show ¬ 64 ≤ i + 1 by omega]
    exact ih (by omega) (by omega)

/-- An address from the last symbol on is not found. -/
theorem lookup_none (ha : ∀ m < l.length, (sh m).offset ≤ a) (hone : 1 ≤ a) (hi : i ≤ l.length) :
    lookupLoop sh a (64 - i) i = .ok none := by
  obtain ⟨d, hd⟩ : ∃ d, i + d = l.length := ⟨l.length - i, by omega⟩
  induction d generalizing i with
  | zero =>
    obtain rfl : i = l.length := by omega
    rw [show 64 - l.length = 63 - l.length + 1 by omega, lookupLoop]
    simp only [h.closed, if_true, pure_eq_ok]
  | succ d ih =>
    -- the entry behind the last symbol has offset 1
    have hnext : (sh (i + 1)).offset ≤ a := by
      rcases Nat.lt_or_eq_of_le (show i + 1 ≤ l.length by omega) with hlt | he
      · exact ha _ hlt
      · rw [he, h.closed]
        exact hone
    have hne := h.offset_ne_one hval (m := i) (by omega)
    have hcur := ha i (by omega)
    rw [show 64 - i = 64 - (i + 1) + 1 by omega, lookupLoop]
    simp only [SH_LEN, hne, hcur, Nat.not_lt.2 hnext, if_true, if_false,
      show ¬ 64 ≤ i + 1 by omega]
    exact ih (by omega) (by omega)

/-- **An address is found** if it is below a symbol, and then with the name of the symbol before
it. -/
theorem lookup (hmin : ∃ s ∈ l, s.value ≤ a) :
    (∃ s, Nearest l a s ∧ lookupLoop sh a 64 0 = .ok (some (nameOf f str s))) ∧
        (∃ t ∈ l, a < t.value) ∨
      lookupLoop sh a 64 0 = .ok none ∧ ∀ s ∈ l, s.value ≤ a := by
  obtain ⟨s₀, hs₀, hle₀⟩ := hmin
  obtain ⟨m₀, hm₀, he₀⟩ := h.exists_mem s₀ hs₀
  have hmono : ∀ i j, i ≤ j → j < l.length → (sh i).offset ≤ (sh j).offset := by
    intro i j hij hj
    rcases Nat.lt_or_eq_of_le hij with hij | rfl
    · exact (h.strictMono i j hij hj).le
    · exact le_rfl
  have hfirst : (sh 0).offset ≤ a := (hmono 0 m₀ (Nat.zero_le _) hm₀).trans (he₀ ▸ hle₀)
  rcases Nat.lt_or_ge a (sh (l.length - 1)).offset with hlast | hlast
  · obtain ⟨m, hm, hle, hlt⟩ := exists_between (g := fun m => (sh m).offset) hfirst hlast
    obtain ⟨s, hs, he⟩ := h.mem m (by omega)
    obtain ⟨t, ht, het⟩ := h.mem (m + 1) (by omega)
    have hlt' : a < t.value := by
      simp only [het, entry] at hlt
      exact hlt
    have hle' : s.value ≤ a := by
      simp only [he, entry] at hle
      exact hle
    refine .inl ⟨⟨s, ⟨hs, hle', fun t ht hta => ?_⟩, ?_⟩, t, ht, hlt'⟩
    · -- a symbol with a greater address is behind `m`, so above `a`
      obtain ⟨m', hm', he'⟩ := h.exists_mem t ht
      have hm'm : m' ≤ m := by
        by_contra hgt
        have := hmono (m + 1) m' (by omega) hm'
        rw [he'] at this
        exact absurd (hlt.trans_le this) (Nat.not_lt.2 hta)
      have := hmono m' m hm'm (by omega)
      rwa [he, he'] at this
    · rw [h.lookup_some hval hlen (i := 0) (by omega) hle hlt (Nat.zero_le _), he]
      rfl
  · have hall : ∀ m < l.length, (sh m).offset ≤ a :=
      fun m hm => (hmono m _ (by omega) (by omega)).trans hlast
    have hone : 1 ≤ a := (hval s₀ hs₀).le.trans hle₀
    refine .inr ⟨h.lookup_none hval hlen hall hone (Nat.zero_le _), fun s hs => ?_⟩
    obtain ⟨m, hm, he⟩ := h.exists_mem s hs
    have hle := hall m hm
    rwa [he] at hle

end Ordered

/-! ## The backtrace -/

/-- The table after the program is loaded. -/
def loadedSymbols (f : File) (ehdr : ElfHeader) (stack : Buf) (sh : SymTable) :
    Except Fault SymTable := do
  let sh ← elfCopyhead f ehdr stack sh
  return sort sh

/-- The name that is printed for a return address, in the program that is loaded. -/
def printedName (f : File) (ehdr : ElfHeader) (stack : Buf) (sh : SymTable) (a : ℕ) :
    Except Fault (Option (List UInt8)) := do
  let sh ← loadedSymbols f ehdr stack sh
  lookupLoop sh a SH_LEN 0

/-- The table of a program with at most 64 symbols whose functions have names of at most 31
bytes. -/
theorem loadedSymbols_ordered (sh : SymTable) (hsec : sections f ehdr stack = (sym, str))
    (h : IsSymtab f sym str) (hid : (symtab f sym).length ≤ 64)
    (hfit : ∀ s ∈ functions (symtab f sym), (nameOf f str s).length < 32) :
    ∃ sh', loadedSymbols f ehdr stack sh = .ok sh' ∧
      Ordered f str (functions (symtab f sym)) sh' := by
  have hsize : sym.size / SYM_SIZE ≠ 0 := by
    intro h0
    apply h.nonempty
    simp [symtab, symbolsFrom, functions, h0]
  have hcount : 0 + sym.size / SYM_SIZE ≤ 64 := by simpa [symtab, symbolsFrom] using hid
  have hfun : 0 + (functions (symtab f sym)).length ≤ 63 := by simpa using h.length_le
  have hcopy : ∃ sh', symbolLoop f sym str stack (sym.size / SYM_SIZE) 0 stack 0 sh = .ok sh' ∧
      Copied f str (functions (symtab f sym)) 0 sh sh' :=
    h.symbolLoop (by omega) hcount (fun s hs => ⟨hs, hfit s hs⟩) hfun (fun h0 => absurd h0 hsize)
  obtain ⟨sh₁, hrun, hcopied⟩ := hcopy
  refine ⟨sort sh₁, ?_, hcopied.sort h.length_le h.nodup h.value⟩
  simp only [loadedSymbols, elfCopyhead, hsec, hrun]
  rfl

/-- **A return address gets its function's name** exactly if the program has at most 64 symbols, its
functions have names of at most 31 bytes, and the address is below the last function. -/
theorem backtrace_iff (hsec : sections f ehdr stack = (sym, str)) (h : IsSymtab f sym str)
    (hmin : ∃ s ∈ functions (symtab f sym), s.value ≤ a) :
    (∃ s, Nearest (functions (symtab f sym)) a s ∧
      printedName f ehdr stack sh a = .ok (some (nameOf f str s))) ↔
      (symtab f sym).length ≤ 64 ∧
      (∀ s ∈ functions (symtab f sym), (nameOf f str s).length < 32) ∧
      ∃ s ∈ functions (symtab f sym), a < s.value := by
  constructor
  · rintro ⟨s, hs, hrun⟩
    obtain ⟨sh', hload, hlook⟩ := (bind_ok_iff _ _ _).1 hrun
    obtain ⟨sh₁, hcopy, -⟩ := (bind_ok_iff _ _ _).1 hload
    rw [elfCopyhead, hsec] at hcopy
    obtain ⟨hid, hfit⟩ := h.of_symbolLoop (by omega) (fun _ hs => hs) hcopy
    have hid' : (symtab f sym).length ≤ 64 := by
      simp only [symtab, symbolsFrom, List.length_map, List.length_range']
      omega
    refine ⟨hid', hfit, ?_⟩
    obtain ⟨sh₂, hload', hord⟩ := loadedSymbols_ordered sh hsec h hid' hfit
    obtain rfl : sh₂ = sh' := Except.ok.inj (hload'.symm.trans hload)
    rcases hord.lookup h.value h.length_le hmin with ⟨-, hlt⟩ | ⟨hnone, -⟩
    · exact hlt
    · rw [hnone] at hlook
      exact nomatch hlook
  · rintro ⟨hid, hfit, s, hs, hlt⟩
    obtain ⟨sh', hload, hord⟩ := loadedSymbols_ordered sh hsec h hid hfit
    rw [printedName, hload, ok_bind]
    rcases hord.lookup h.value h.length_le hmin with ⟨hfound, -⟩ | ⟨-, hall⟩
    · exact hfound
    · exact absurd (hall s hs) (Nat.not_le.2 hlt)

/-- **The whole backtrace** is one name for each frame, if every return address has one. -/
theorem sysUserLab1Challenge1_names {word : ℕ → Except Fault ℕ} {ra : ℕ → ℕ}
    {names : ℕ → List UInt8} {sp a1 : ℕ}
    (hword : ∀ m ≤ a1, word (sp + 24 + 16 * m) = .ok (ra m))
    (hnames : ∀ m < a1, lookupLoop sh (ra m) SH_LEN 0 = .ok (some (names m))) :
    sysUserLab1Challenge1 sh word sp a1 = .ok ((List.range a1).map names) := by
  have hloop : ∀ k i, i + k = a1 →
      frameLoop sh word k (sp + 24 + 16 * i) (ra i) = .ok ((List.range' i k).map names) := by
    intro k
    induction k with
    | zero => exact fun _ _ => rfl
    | succ k ih =>
      intro i hi
      have hnext := hword (i + 1) (by omega)
      rw [show sp + 24 + 16 * (i + 1) = sp + 24 + 16 * i + 16 by ring] at hnext
      have hrest := ih (i + 1) (by omega)
      rw [show sp + 24 + 16 * (i + 1) = sp + 24 + 16 * i + 16 by ring] at hrest
      rw [frameLoop, hnames i (by omega), ok_bind, hnext, ok_bind, hrest, List.range'_succ]
      rfl
  have hfirst := hword 0 (Nat.zero_le _)
  rw [Nat.mul_zero, Nat.add_zero] at hfirst
  rw [sysUserLab1Challenge1, hfirst, ok_bind, List.range_eq_range']
  exact hloop a1 0 (by omega)

/-! ## A program with two functions -/

/-- The bytes of a section header. -/
def sectBytes (name offset size : ℕ) : List UInt8 :=
  leBytes 24 name ++ leBytes 8 offset ++ leBytes 8 size ++ leBytes 24 0

/-- The bytes of a function symbol. -/
def symBytes (name value : ℕ) : List UInt8 :=
  leBytes 4 name ++ leBytes 4 FUNC ++ leBytes 8 value ++ leBytes 8 0

/-- The section headers, the names of the sections, the symbols of `f` and `g` in the wrong order,
and their names. -/
def twoFunctions : File :=
  sectBytes 0 192 17 ++ sectBytes 1 209 48 ++ sectBytes 9 257 5 ++
    "\x00.symtab\x00.strtab\x00".toUTF8.toList ++
    symBytes 3 0x200 ++ symBytes 1 0x100 ++ "\x00f\x00g\x00".toUTF8.toList

/-- The header of that file. -/
def twoFunctionsHeader : ElfHeader where
  magic := 0x464C457F
  entry := 0x100
  phoff := 0
  shoff := 0
  phnum := 0
  shentsize := SECT_HEADER_SIZE
  shnum := 3
  shstrndx := 0

theorem sections_twoFunctions :
    sections twoFunctions twoFunctionsHeader (fun _ => 0) = (⟨1, 209, 48⟩, ⟨9, 257, 5⟩) := by
  decide +kernel

theorem functions_twoFunctions :
    functions (symtab twoFunctions ⟨1, 209, 48⟩) = [⟨3, FUNC, 0x200⟩, ⟨1, FUNC, 0x100⟩] := by
  decide +kernel

theorem isSymtab_twoFunctions : IsSymtab twoFunctions ⟨1, 209, 48⟩ ⟨9, 257, 5⟩ where
  length_lt := by decide +kernel
  inside := by decide +kernel
  name_inside := by
    rw [functions_twoFunctions]
    decide +kernel
  nonempty := by simp [functions_twoFunctions]
  length_le := by simp [functions_twoFunctions]
  nodup := by simp [functions_twoFunctions]
  value := by simp [functions_twoFunctions]

/-- A return address between the two functions gets a name. -/
theorem backtrace_iff_twoFunctions :
    ∃ s, Nearest (functions (symtab twoFunctions ⟨1, 209, 48⟩)) 0x180 s ∧
      printedName twoFunctions twoFunctionsHeader (fun _ => 0) (fun _ => ⟨[], 0⟩) 0x180 =
        .ok (some (nameOf twoFunctions ⟨9, 257, 5⟩ s)) := by
  refine (backtrace_iff sections_twoFunctions isSymtab_twoFunctions ?_).2 ⟨?_, ?_, ?_⟩
  · simp [functions_twoFunctions]
  · decide
  · rw [functions_twoFunctions]
    decide +kernel
  · simp [functions_twoFunctions]

/-- A return address in the last function gets no name. -/
theorem lastFunction_unnamed : ¬ ∀ (f : File) (ehdr : ElfHeader) (stack : Buf) (sh : SymTable)
    (sym str : ElfSectHeader) (a : ℕ), sections f ehdr stack = (sym, str) → IsSymtab f sym str →
    (∃ s ∈ functions (symtab f sym), s.value ≤ a) →
    ∃ s, Nearest (functions (symtab f sym)) a s ∧
      printedName f ehdr stack sh a = .ok (some (nameOf f str s)) := by
  intro hall
  obtain ⟨s, -, hrun⟩ := hall twoFunctions twoFunctionsHeader (fun _ => 0) (fun _ => ⟨[], 0⟩) _ _
    0x210 sections_twoFunctions isSymtab_twoFunctions (by simp [functions_twoFunctions])
  have hfit : ∀ s ∈ functions (symtab twoFunctions ⟨1, 209, 48⟩),
      (nameOf twoFunctions ⟨9, 257, 5⟩ s).length < 32 := by
    rw [functions_twoFunctions]
    decide +kernel
  obtain ⟨sh', hload, hord⟩ := loadedSymbols_ordered (fun _ => ⟨[], 0⟩) sections_twoFunctions
    isSymtab_twoFunctions (by decide) hfit
  rw [printedName, hload, ok_bind] at hrun
  rcases hord.lookup isSymtab_twoFunctions.value isSymtab_twoFunctions.length_le (a := 0x210)
    (by simp [functions_twoFunctions]) with ⟨-, hlt⟩ | ⟨hnone, -⟩
  · simp [functions_twoFunctions] at hlt
  · rw [hnone] at hrun
    exact nomatch hrun

end HustOS.Elf
