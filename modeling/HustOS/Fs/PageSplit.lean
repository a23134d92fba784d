import HustOS.Fs.BadDescriptors
import HustOS.Fs.SharedOffsets
import HustOS.Mm.Vmm
import Mathlib.Algebra.BigOperators.Ring.Finset

/-!
# Reading and writing page by page

`sys_user_read` and `sys_user_write` of `kernel/syscall.c` go through the buffer of the user one
page at a time (`chunkLoop`), each with a call of `do_read` or `do_write` on the frame of the page.
The results of these calls are returned next to what the system call returns. The counter `i` is an
`int`, the count and the result of a call are 64-bit numbers.

A call on the first page that returns -1 makes `i` -1, which is not below the count, so the loop
ends and the count is returned: `sys_user_read` never reports that it failed
(`sysUserRead_reports_iff`).
-/

namespace HustOS.Fs

open Foundations
open Mm (MAXVA)

/-! ## The loop -/

/-- An `int` as a 64-bit number. -/
def toU64 (i : ℤ) : ℕ := (i % 2 ^ 64).toNat

/-- A 64-bit number as an `ssize_t`. -/
def toSsize (n : ℕ) : ℤ := if n < 2 ^ 63 then n else n - 2 ^ 64

/-- The number of bytes for one page, from an address on. -/
def chunkLen (addr rest : ℕ) : ℕ :=
  if rest < PGSIZE - addr % PGSIZE then rest else PGSIZE - addr % PGSIZE

variable {σ : Type}

/-- The loop of `sys_user_read` and `sys_user_write` at the counter `i`: what is returned, and the
results of the calls. -/
def chunkLoop (call : σ → ℕ → ℕ → Except Fault (ℤ × σ)) (bufva count : ℕ) :
    ℕ → ℤ → List ℤ → σ → Except Fault ((ℤ × List ℤ) × σ)
  | 0, _, _, _ => throw .spin
  | k + 1, i, rs, s =>
    if toU64 i < count then do
      let addr := (bufva + toU64 i) % 2 ^ 64
      let len := chunkLen addr (count - toU64 i)
      let (r, s) ← call s addr len
      let i := toInt32 (i + r)
      if toU64 r < len then return ((i, rs ++ [r]), s)
      else chunkLoop call bufva count k i (rs ++ [r]) s
    else return ((toSsize count, rs), s)

/-- `lookup_pa` in the page table of the user, which leads each page to a frame or to 0. -/
def lookupPa (frame : ℕ → ℕ) (va : ℕ) : ℕ := if MAXVA ≤ va then 0 else frame (va / PGSIZE)

/-- `do_read` to the frame of an address. The bytes of memory are those that the user can have. -/
def readChunk (frame : ℕ → ℕ) (junk : Buf) (fd : ℤ) (u : Files × Buf) (addr len : ℕ) :
    Except Fault (ℤ × (Files × Buf)) := do
  let pa := lookupPa frame addr
  if pa = 0 then throw .nullDeref
  let off := addr % PGSIZE
  let ((r, buf), w) ← u.1.doReadTo fd (fun k => u.2 (pa + off + k)) len junk
  return (r, (w, u.2.blit (pa + off) buf 0 (len + 1)))

/-- `sys_user_read`. -/
def sysUserRead (frame : ℕ → ℕ) (junk : Buf) (fd : ℤ) (bufva count fuel : ℕ) (u : Files × Buf) :
    Except Fault ((ℤ × List ℤ) × (Files × Buf)) :=
  chunkLoop (readChunk frame junk fd) bufva count fuel 0 [] u

/-! ## Numbers -/

theorem toU64_natCast {n : ℕ} (h : n < 2 ^ 64) : toU64 n = n := by
  rw [toU64]
  omega

theorem toU64_neg_one : toU64 (-1) = 2 ^ 64 - 1 := by decide

theorem toInt32_natCast {n : ℕ} (h : n < 2 ^ 31) : toInt32 n = n := by
  rw [toInt32]
  omega

theorem toSsize_of_lt {n : ℕ} (h : n < 2 ^ 63) : toSsize n = n := if_pos h

theorem chunkLen_pos (addr : ℕ) {rest : ℕ} (h : 0 < rest) : 0 < chunkLen addr rest := by
  have hoff := Nat.mod_lt addr (show 0 < PGSIZE by decide)
  rw [chunkLen]
  split <;> omega

theorem chunkLen_le (addr rest : ℕ) : chunkLen addr rest ≤ rest := by
  rw [chunkLen]
  split <;> omega

variable {call : σ → ℕ → ℕ → Except Fault (ℤ × σ)} {bufva count k i b : ℕ} {s s' : σ} {rs : List ℤ}

/-! ## Failing and reading calls -/

/-- **A failing call on the first page** ends the loop, which returns the count. -/
theorem chunkLoop_fails (hpos : 0 < count) (hcount : count < 2 ^ 63)
    (hcall : call s (bufva % 2 ^ 64) (chunkLen (bufva % 2 ^ 64) count) = .ok (-1, s')) :
    chunkLoop call bufva count (k + 2) 0 [] s = .ok (((count : ℤ), [-1]), s') := by
  have hzero : toU64 0 = 0 := rfl
  have hlen := chunkLen_le (bufva % 2 ^ 64) count
  rw [chunkLoop, if_pos (by rw [hzero]; exact hpos)]
  simp only [hzero, Nat.add_zero, Nat.sub_zero, hcall, ok_bind, toU64_neg_one]
  rw [if_neg (by omega), chunkLoop, if_neg]
  · rw [toSsize_of_lt hcount]
    rfl
  · rw [show toInt32 (0 + -1) = -1 from rfl, toU64_neg_one]
    omega

/-- A call on the first page that does not return. -/
theorem chunkLoop_error {e : Fault} (hpos : 0 < count)
    (hcall : call s (bufva % 2 ^ 64) (chunkLen (bufva % 2 ^ 64) count) = .error e) :
    chunkLoop call bufva count (k + 1) 0 [] s = .error e := by
  have hzero : toU64 0 = 0 := rfl
  rw [chunkLoop, if_pos (by rw [hzero]; exact hpos)]
  simp only [hzero, Nat.add_zero, Nat.sub_zero, hcall, error_bind]

/-- A call that reads: in a state with `b` bytes left it returns what there is of them, or stops
with an error. -/
def ReadsOn (call : σ → ℕ → ℕ → Except Fault (ℤ × σ)) (P : ℕ → σ → Prop) : Prop :=
  ∀ b s, P b s → ∀ addr len, (∃ e, call s addr len = .error e) ∨
    ∃ n s', call s addr len = .ok ((n : ℕ), s') ∧ n ≤ len ∧ n ≤ b ∧ P (b - n) s'

/-- **Calls that read** are added up, unless one of them does not return. -/
theorem chunkLoop_reads {P : ℕ → σ → Prop} (hcall : ReadsOn call P) (hP : P b s) (hi : i ≤ count)
    (hb : i + b < 2 ^ 31) (hcount : count < 2 ^ 63) (hk : count - i < k) :
    (∃ ns : List ℕ, ∃ s', chunkLoop call bufva count k i rs s =
        .ok ((((i + ns.sum : ℕ) : ℤ), rs ++ ns.map Nat.cast), s')) ∨
      ∃ s' addr len e, call s' addr len = .error e ∧
        chunkLoop call bufva count k i rs s = .error e := by
  induction k generalizing i b rs s with
  | zero => omega
  | succ k ih =>
    have hi64 : toU64 i = i := toU64_natCast (by omega)
    rw [chunkLoop, hi64]
    by_cases hlt : i < count
    · rw [if_pos hlt]
      generalize (bufva + i) % 2 ^ 64 = addr
      have hpos := chunkLen_pos addr (Nat.sub_pos_of_lt hlt)
      have hle := chunkLen_le addr (count - i)
      rcases hcall b s hP addr (chunkLen addr (count - i)) with ⟨e, he⟩ | ⟨n, s', hn, hnl, hnb, hP'⟩
      · refine .inr ⟨s, addr, _, e, he, ?_⟩
        simp only [he, error_bind]
      · have hi' : toInt32 ((i : ℤ) + (n : ℕ)) = ((i + n : ℕ) : ℤ) := by
          rw [← Nat.cast_add]
          exact toInt32_natCast (by omega)
        simp only [hn, ok_bind, hi', toU64_natCast (show n < 2 ^ 64 by omega)]
        by_cases hshort : n < chunkLen addr (count - i)
        · rw [if_pos hshort]
          exact .inl ⟨[n], s', by simp⟩
        · rw [if_neg hshort]
          have hfull : 0 < n := by omega
          rcases ih (i := i + n) hP' (by omega) (by omega) (by omega) with
            ⟨ns, s'', hrun⟩ | hrun
          · refine .inl ⟨n :: ns, s'', ?_⟩
            rw [hrun, List.sum_cons, List.map_cons, List.append_assoc, List.singleton_append,
              Nat.add_assoc]
          · exact .inr hrun
    · rw [if_neg hlt, toSsize_of_lt hcount]
      obtain rfl : i = count := by omega
      exact .inl ⟨[], s, by simp⟩

/-! ## A descriptor -/

variable {w : Files} {fd : ℤ} {file : File} {v n offset len : ℕ} {x : Vinode} {frame : ℕ → ℕ}
  {junk buf mem : Buf} {st st' : State}

/-- The descriptor leads to a readable file structure of the inode `x`, with `b` bytes behind its
offset. -/
structure Leads (fd : ℤ) (x : Vinode) (b : ℕ) (w : Files) : Prop where
  entry : ∃ file v, (w.entry fd).file w.fs = .ok file ∧ file.readable = true ∧
    file.vinode w.fs = .ok (v, x) ∧ x.size - file.offset = b

/-- What the element of a descriptor holds after a store. -/
theorem file_setEntry (w : Files) (fd : ℤ) (fs : State) (file' : File) :
    ((w.setEntry fd ((w.entry fd).store fs file')).entry fd).file
      (w.setEntry fd ((w.entry fd).store fs file')).fs = .ok file' := by
  have hentry : (w.setEntry fd ((w.entry fd).store fs file')).entry fd =
      ((w.entry fd).store fs file').1 := Function.update_self _ _ _
  rw [hentry]
  cases w.entry fd with
  | none _ => rfl
  | opened f =>
    change State.file { fs with files := fs.files.insert f file' } f = .ok file'
    rw [State.file, AList.lookup_insert]

/-- A store to an element changes the table of file structures only. -/
theorem fs_setEntry (w : Files) (fd : ℤ) (st : State) (file' : File) :
    ∃ files, (w.setEntry fd ((w.entry fd).store st file')).fs = { st with files := files } := by
  rw [Files.setEntry]
  cases w.entry fd with
  | none _ => exact ⟨st.files, rfl⟩
  | opened f => exact ⟨_, rfl⟩

/-- The inode of a file structure is found in the caches. -/
theorem vinode_setEntry {file' : File} (hv : file.vinode w.fs = .ok (v, x))
    (hs : SameButBuffer w.fs st) (hd : file'.fDentry = file.fDentry) :
    file'.vinode (w.setEntry fd ((w.entry fd).store st file')).fs = .ok (v, x) := by
  obtain ⟨files, hfiles⟩ := fs_setEntry w fd st file'
  obtain ⟨buf, rfl⟩ := hs
  rw [hfiles, File.vinode, hd]
  exact hv

/-- `do_read` of a readable file structure of a file. -/
theorem doRead_eq (hfile : (w.entry fd).file w.fs = .ok file) (hread : file.readable = true)
    (hv : file.vinode w.fs = .ok (v, x)) (hx : x.type = FILE_I) :
    w.doRead fd len = (do
      viopSb w.fs v
      let ((n, buffer, offset), st) ← rfsRead w.fs v len file.offset
      return (((n : ℤ), some buffer),
        w.setEntry fd ((w.entry fd).store st { file with offset := offset }))) := by
  rw [Files.doRead, hfile, ok_bind, hread]
  simp only [Bool.not_true, Bool.false_eq_true, if_false, readFile, hread, hv, ok_bind, hx, ne_eq,
    not_true_eq_false, bind_assoc, pure_eq_ok]

/-- **`do_read` of a regular file** returns the number of bytes up to its end, unless it does not
return. -/
theorem Leads.readsOn (hx : x.type = FILE_I) :
    ReadsOn (readChunk frame junk fd) fun b u => Leads fd x b u.1 := by
  rintro b ⟨w, mem⟩ ⟨file, v, hfile, hread, hv, rfl⟩ addr len
  rw [readChunk]
  by_cases hpa : lookupPa frame addr = 0
  · exact .inl ⟨.nullDeref, by simp [hpa]⟩
  simp only [hpa, if_false]
  rw [Files.doReadTo, doRead_eq hfile hread hv hx]
  cases hsb : viopSb w.fs v with
  | error e => exact .inl ⟨e, rfl⟩
  | ok _ =>
    cases hrfs : rfsRead w.fs v len file.offset with
    | error e => exact .inl ⟨e, rfl⟩
    | ok r =>
      obtain ⟨⟨n, buffer, offset⟩, st⟩ := r
      obtain ⟨hoff, hn, ho⟩ := rfsRead_count (State.vinode_eq_ok.1 (File.vinode_vinode hv)) hrfs
      dsimp only at hn ho
      have hle : n ≤ len ∧ n ≤ x.size - file.offset := by omega
      refine .inr ⟨n, _, rfl, hle.1, hle.2, { file with offset := offset }, v, ?_, hread, ?_, ?_⟩
      · exact file_setEntry w fd st _
      · exact vinode_setEntry hv (rfsRead_buffer hrfs) rfl
      · dsimp only
        omega

/-- **`do_read` of a directory** fails. -/
theorem readChunk_fails {addr : ℕ} (hfile : (w.entry fd).file w.fs = .ok file)
    (hread : file.readable = true) (hv : file.vinode w.fs = .ok (v, x)) (hx : x.type ≠ FILE_I)
    (hpa : lookupPa frame addr ≠ 0) :
    ∃ u, readChunk frame junk fd (w, mem) addr len = .ok (-1, u) := by
  have hrun : w.doRead fd len =
      .ok ((-1, none), w.setEntry fd ((w.entry fd).store w.fs file)) := by
    rw [Files.doRead, hfile, ok_bind, hread]
    simp [readFile, hread, hv, hx]
  rw [readChunk]
  simp only [hpa, if_false, Files.doReadTo, hrun, ok_bind, pure_eq_ok]
  exact ⟨_, rfl⟩

/-! ## What `read` returns -/

/-- Every address of the buffer is mapped. -/
def Mapped (frame : ℕ → ℕ) (bufva count : ℕ) : Prop :=
  ∀ k < count, lookupPa frame ((bufva + k) % 2 ^ 64) ≠ 0

/-- A buffer that is mapped lies below `MAXVA`. -/
theorem Mapped.le (h : Mapped frame bufva count) (hva : bufva < 2 ^ 64) (hpos : 0 < count) :
    bufva + count ≤ MAXVA := by
  have hbelow : ∀ k < count, (bufva + k) % 2 ^ 64 < MAXVA := by
    intro k hk
    by_contra hge
    exact h k hk (if_pos (Nat.not_lt.1 hge))
  by_contra hgt
  have h0 := hbelow 0 hpos
  simp only [MAXVA] at *
  -- the first address that is not below `MAXVA`
  have h1 := hbelow (2 ^ 38 - bufva) (by omega)
  omega

/-- From some fuel on the call returns; a negative number if the first call of `do_read` returned
-1, and else the number of bytes that these calls returned. Or such a call does not return. -/
def Reports (call : σ → ℕ → ℕ → Except Fault (ℤ × σ))
    (run : ℕ → Except Fault ((ℤ × List ℤ) × σ)) : Prop :=
  ∃ fuel₀, ∀ fuel ≥ fuel₀,
    (∃ ret rs s, run fuel = .ok ((ret, rs), s) ∧ (rs.head? = some (-1) → ret < 0) ∧
      (rs.head? ≠ some (-1) → ret = (rs.filter (0 ≤ ·)).sum)) ∨
    ∃ s addr len e, call s addr len = .error e ∧ run fuel = .error e

/-- **A failed read is reported** exactly if it cannot fail: the descriptor is not one of a
directory that may be read. -/
theorem sysUserRead_reports_iff (hfile : (w.entry fd).file w.fs = .ok file)
    (hv : file.vinode w.fs = .ok (v, x)) (hsize : x.size < 2 ^ 31) (hva : bufva < 2 ^ 64)
    (hpos : 1 ≤ count) (hmap : Mapped frame bufva count) :
    Reports (readChunk frame junk fd)
      (fun fuel => sysUserRead frame junk fd bufva count fuel (w, mem)) ↔
      (file.readable = true → x.type = FILE_I) := by
  have hend := hmap.le hva hpos
  have hcount : count < 2 ^ 63 := by
    simp only [MAXVA] at hend
    omega
  constructor
  · rintro ⟨fuel₀, hrep⟩ hread
    by_contra hx
    obtain ⟨u, hcall⟩ := readChunk_fails hfile hread hv hx (hmap 0 hpos)
    rw [Nat.add_zero] at hcall
    have hrun := chunkLoop_fails (k := fuel₀) hpos hcount hcall
    rcases hrep (fuel₀ + 2) (by omega) with ⟨ret, rs, s, hok, hneg, -⟩ | ⟨s, addr, len, e, -, herr⟩
    · cases hrun.symm.trans hok
      have := hneg rfl
      omega
    · exact nomatch hrun.symm.trans herr
  · intro hx
    refine ⟨count + 1, fun fuel hfuel => ?_⟩
    cases hread : file.readable with
    | false =>
      -- `do_read` panics
      obtain ⟨k, rfl⟩ : ∃ k, fuel = k + 1 := ⟨fuel - 1, by omega⟩
      have hpa := hmap 0 hpos
      rw [Nat.add_zero] at hpa
      have hcall : readChunk frame junk fd (w, mem) (bufva % 2 ^ 64)
          (chunkLen (bufva % 2 ^ 64) count) = .error (.panic "do_read: no readable file!\n") := by
        simp only [readChunk, if_neg hpa, Files.doReadTo, Files.doRead, hfile, hread, ok_bind,
          Bool.not_false, if_true, throw_eq_error, error_bind]
      exact .inr ⟨_, _, _, _, hcall, chunkLoop_error hpos hcall⟩
    | true =>
      have hP : Leads fd x (x.size - file.offset) w := ⟨file, v, hfile, hread, hv, rfl⟩
      rcases chunkLoop_reads (i := 0) (s := (w, mem)) (k := fuel)
          (Leads.readsOn (hx hread)) hP (Nat.zero_le count) (by omega)
          hcount (by omega) with ⟨ns, s', hrun⟩ | hrun
      · refine .inl ⟨_, _, _, hrun, fun hhead => ?_, fun _ => ?_⟩
        · cases ns <;> simp at hhead
        · have hall : (ns.map Nat.cast : List ℤ).filter (0 ≤ ·) = ns.map Nat.cast := by
            rw [List.filter_eq_self]
            simp
          rw [List.nil_append, hall, Nat.zero_add, Nat.cast_list_sum]
      · exact .inr hrun

/-- A buffer in a page that is mapped. -/
theorem sample_mapped (n : ℕ) (hn : n ≤ 4096) : Mapped (fun _ => 0x80000000) 0 n := by
  intro k hk
  rw [lookupPa, if_neg (by simp only [MAXVA]; omega)]
  decide

/-- A regular file reports. -/
theorem sysUserRead_reports_iff_sample :
    Reports (readChunk (fun _ => 0x80000000) (fun _ => 0) 0) fun fuel =>
      sysUserRead (fun _ => 0x80000000) (fun _ => 0) 0 0 10 fuel
        (sampleFiles (sampleFile 5000 2), fun _ => 0) := by
  obtain ⟨file, hfile, -, hv, -⟩ := sample_readsFrom.entry
  exact (sysUserRead_reports_iff hfile hv (by decide) (by decide) (by decide)
    (sample_mapped 10 (by decide))).2 fun _ => rfl

/-- A read of a directory returns the count. -/
theorem directoryRead_succeeds : ¬ ∀ (w : Files) (mem junk : Buf) (frame : ℕ → ℕ) (fd : ℤ)
    (file : File) (v : ℕ) (x : Vinode) (bufva count : ℕ), (w.entry fd).file w.fs = .ok file →
    file.vinode w.fs = .ok (v, x) → x.size < 2 ^ 31 → bufva < 2 ^ 64 → 1 ≤ count →
    Mapped frame bufva count →
    Reports (readChunk frame junk fd) fun fuel =>
      sysUserRead frame junk fd bufva count fuel (w, mem) := by
  intro hall
  let x : Vinode := { sampleFile 0 0 with type := DIR_I }
  obtain ⟨file, hfile, hread, hv⟩ : ∃ file,
    ((sampleFiles x).entry 0).file (sampleFiles x).fs = .ok file ∧
      file.readable = true ∧ file.vinode (sampleFiles x).fs = .ok (0, x) :=
    ⟨_, rfl, rfl, rfl⟩
  have hrep := hall (sampleFiles x) (fun _ => 0) (fun _ => 0) (fun _ => 0x80000000) 0 file 0 x 0 10
    hfile hv (by decide) (by decide) (by decide) (sample_mapped 10 (by decide))
  obtain ⟨fuel₀, hrep⟩ := hrep
  have hstart : lookupPa (fun _ => 0x80000000) 0 ≠ 0 := by decide
  obtain ⟨u, hcall⟩ : ∃ u,
    readChunk (fun _ => 0x80000000) (fun _ => 0) 0 (sampleFiles x, fun _ => 0)
      (0 % 2 ^ 64) (chunkLen (0 % 2 ^ 64) 10) = .ok (-1, u) :=
    readChunk_fails hfile hread hv (by decide) hstart
  have hrun := chunkLoop_fails (k := fuel₀) (by decide : 0 < 10) (by decide) hcall
  rcases hrep (fuel₀ + 2) (by omega) with ⟨ret, rs, s, hok, hneg, -⟩ | ⟨s, addr, len, e, -, herr⟩
  · cases hrun.symm.trans hok
    exact absurd (hneg rfl) (by decide)
  · exact nomatch hrun.symm.trans herr

end HustOS.Fs
