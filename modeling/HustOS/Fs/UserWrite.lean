import HustOS.Fs.PageSplit
import HustOS.Fs.Append

/-!
# Writing page by page

`sys_user_write` of `kernel/syscall.c` calls `do_write` once for each page that the buffer of the
user touches. The pages of the buffer and the blocks of the file are independent: at its end the
file takes each part behind the one before (`doWrite_appends`), so all parts together leave the
bytes that the user sees, and the file is as long as after one `rfs_write` of the whole buffer
(`sysUserWrite_appends`).
-/

namespace HustOS.Fs

open Foundations
open Mm (MAXVA)

/-! ## The call -/

/-- `do_write` from the frame of an address. -/
def writeChunk (frame : ℕ → ℕ) (mem : Buf) (fd : ℤ) (w : Files) (addr len : ℕ) :
    Except Fault (ℤ × Files) := do
  let pa := lookupPa frame addr
  if pa = 0 then throw .nullDeref
  let off := addr % PGSIZE
  w.doWrite fd (fun k => mem (pa + off + k)) len

/-- `sys_user_write`. -/
def sysUserWrite (frame : ℕ → ℕ) (mem : Buf) (fd : ℤ) (bufva count fuel : ℕ) (w : Files) :
    Except Fault ((ℤ × List ℤ) × Files) :=
  chunkLoop (writeChunk frame mem fd) bufva count fuel 0 [] w

/-- The bytes that the user sees from an address on. -/
def userBytes (frame : ℕ → ℕ) (mem : Buf) (bufva : ℕ) : Buf := fun k =>
  mem (lookupPa frame (bufva + k) + (bufva + k) % PGSIZE)

variable {σ : Type} {call : σ → ℕ → ℕ → Except Fault (ℤ × σ)} {bufva count k i len v : ℕ} {s : σ}
  {rs : List ℤ} {frame : ℕ → ℕ} {mem : Buf} {w : Files} {fd : ℤ} {file : File} {x : Vinode}
  {st : State} {E : Fault → Prop}

/-! ## Parts that are done as a whole -/

/-- **A loop of calls** that do all that they are asked for returns the count. -/
theorem chunkLoop_full {P : ℕ → σ → Prop}
    (hcall : ∀ i s, P i s → i < count →
      Sat (call s (bufva + i) (chunkLen (bufva + i) (count - i)))
        (fun r => r.1 = (chunkLen (bufva + i) (count - i) : ℕ) ∧
          P (i + chunkLen (bufva + i) (count - i)) r.2) E)
    (hva : bufva + count ≤ MAXVA) (hcount : count < 2 ^ 31) (hP : P i s) (hi : i ≤ count)
    (hk : count - i < k) :
    Sat (chunkLoop call bufva count k i rs s) (fun r => r.1.1 = count ∧ P count r.2) E := by
  induction k generalizing i rs s with
  | zero => omega
  | succ k ih =>
    simp only [MAXVA] at hva
    have hi64 : toU64 i = i := toU64_natCast (by omega)
    rw [chunkLoop, hi64]
    rcases Nat.lt_or_eq_of_le hi with hlt | rfl
    · rw [if_pos hlt, Nat.mod_eq_of_lt (show bufva + i < 2 ^ 64 by omega)]
      have hpos := chunkLen_pos (bufva + i) (Nat.sub_pos_of_lt hlt)
      have hle := chunkLen_le (bufva + i) (count - i)
      refine (hcall i s hP hlt).bind ?_
      rintro ⟨r, s'⟩ ⟨rfl, hP'⟩
      generalize chunkLen (bufva + i) (count - i) = len at hpos hle hP' ⊢
      have hnext : toInt32 ((i : ℤ) + (len : ℕ)) = ((i + len : ℕ) : ℤ) := by
        rw [← Nat.cast_add]
        exact toInt32_natCast (by omega)
      dsimp only
      rw [hnext, toU64_natCast (by omega), if_neg (Nat.lt_irrefl _)]
      exact ih hP' (by omega) (by omega)
    · rw [if_neg (Nat.lt_irrefl _), toSsize_of_lt (by omega)]
      exact ⟨rfl, hP⟩

/-- The bytes of one page of the buffer. -/
theorem userBytes_chunk (hva : bufva + count ≤ MAXVA) (hi : i < count)
    (hk : k < chunkLen (bufva + i) (count - i)) :
    mem (lookupPa frame (bufva + i) + (bufva + i) % PGSIZE + k) =
      userBytes frame mem bufva (i + k) := by
  have hin : k < count - i ∧ k < PGSIZE - (bufva + i) % PGSIZE := by
    rw [chunkLen] at hk
    split at hk <;> omega
  have hpage : (bufva + (i + k)) / PGSIZE = (bufva + i) / PGSIZE := by
    simp only [PGSIZE] at *
    omega
  have hoff : (bufva + (i + k)) % PGSIZE = (bufva + i) % PGSIZE + k := by
    simp only [PGSIZE] at *
    omega
  rw [userBytes, hoff, lookupPa, lookupPa, if_neg (by omega), if_neg (by omega), hpage,
    Nat.add_assoc]

/-! ## One part -/

/-- The descriptor is open for writing at the end of the file `x`, which holds the bytes. -/
structure AtEnd (fd : ℤ) (v : ℕ) (l : List UInt8) (w : Files) : Prop where
  entry : ∃ file x, (w.entry fd).file w.fs = .ok file ∧ file.writable = true ∧
    file.vinode w.fs = .ok (v, x) ∧ Allocated w.fs v x ∧ x.sb = .rfs ∧ file.offset = x.size ∧
    w.fs.fileBytes x.toDinode = l

theorem length_fileBytes (s : State) (x : Dinode) : (s.fileBytes x).length = x.size := by
  rw [State.fileBytes, List.length_map, List.length_range]

/-- The inode of a file structure after a write to its file. -/
theorem vinode_beside {file' : File} (hv : file.vinode w.fs = .ok (v, x)) (hs : Beside v w.fs st)
    {x' : Vinode} (hx' : st.vinodes v = some x') (hd : file'.fDentry = file.fDentry) :
    file'.vinode (w.setEntry fd ((w.entry fd).store st file')).fs = .ok (v, x') := by
  obtain ⟨files, hfiles⟩ := fs_setEntry w fd st file'
  have hsame : file'.vinode (w.setEntry fd ((w.entry fd).store st file')).fs = file.vinode st := by
    rw [hfiles, File.vinode, hd]
    rfl
  rw [File.vinode] at hv
  obtain ⟨v', hv', hv⟩ := (bind_ok_iff _ _ _).1 hv
  obtain ⟨x₀, -, hv⟩ := (bind_ok_iff _ _ _).1 hv
  cases hv
  have hdentry : st.dentryInode file.fDentry = .ok v := by
    rw [State.dentryInode, State.dentry, hs.dentries]
    exact hv'
  rw [hsame, File.vinode, hdentry, ok_bind, State.vinode_eq_ok.2 hx', ok_bind]
  rfl

/-- `do_write` of a writable file structure of a file. -/
theorem doWrite_eq (hfile : (w.entry fd).file w.fs = .ok file) (hwrite : file.writable = true)
    (hv : file.vinode w.fs = .ok (v, x)) (hx : x.type = FILE_I) (hviop : viopSb w.fs v = .ok ())
    (buf : Buf) : w.doWrite fd buf len = (do
      let ((n, offset), st) ← rfsWrite w.fs v buf len file.offset
      return ((n : ℤ), w.setEntry fd ((w.entry fd).store st { file with offset := offset }))) := by
  rw [Files.doWrite, hfile, ok_bind, hwrite]
  simp only [Bool.not_true, Bool.false_eq_true, if_false, writeFile, hwrite, hv, ok_bind, hx,
    viopWrite, hviop, ne_eq, not_true_eq_false, bind_assoc, pure_eq_ok]

/-- **`do_write` at the end** puts the bytes behind those of the file and stays at its end, unless
there is no free block. -/
theorem doWrite_appends {l : List UInt8} (h : AtEnd fd v l w) (buf : Buf)
    (hlen : l.length + len ≤ RFS_BLKSIZE * RFS_DIRECT_BLKNUM) :
    Sat (w.doWrite fd buf len)
      (fun r => r.1 = (len : ℕ) ∧ AtEnd fd v (l ++ (List.range len).map buf) r.2)
      fun e => e = noFreeBlock := by
  obtain ⟨file, x, hfile, hwrite, hv, halloc, hsb, hoff, rfl⟩ := h.entry
  rw [length_fileBytes] at hlen
  have hviop : viopSb w.fs v = .ok () := viopSb_rfs (File.vinode_vinode hv) hsb
  rw [doWrite_eq hfile hwrite hv halloc.file.type hviop, hoff]
  have hwrote := rfsWrite_wrote halloc (Nat.le_refl _) hlen buf
  have hbeside := rfsWrite_beside len buf halloc.vinode (Nat.le_refl x.size)
  refine ((hwrote.and hbeside).mono' fun e he => he.1).bind ?_
  rintro ⟨⟨n, offset⟩, st⟩ ⟨⟨hr, x', hw⟩, hs⟩
  obtain ⟨rfl, rfl⟩ := Prod.mk.inj hr
  have hsize : x'.size = x.size + n := by
    have := hw.size
    omega
  have hsb' : x'.sb = .rfs := by
    have hmap := hs.superblock
    rw [hw.file.vinode, halloc.vinode] at hmap
    exact (Option.some.inj hmap).trans hsb
  refine ⟨rfl, ⟨{ file with offset := x.size + n }, x', file_setEntry w fd st _, hwrite,
    vinode_beside hv hs hw.file.vinode rfl, ?_, hsb', hsize.symm, ?_⟩⟩
  · obtain ⟨files, hfiles⟩ := fs_setEntry w fd st { file with offset := x.size + n }
    rw [hfiles]
    exact hw.file.congr rfl rfl rfl
  · obtain ⟨files, hfiles⟩ := fs_setEntry w fd st { file with offset := x.size + n }
    rw [hfiles]
    exact hw.content

/-- The part of one page goes behind the parts before it. -/
theorem writeChunk_appends {l : List UInt8} (hmap : Mapped frame bufva count)
    (hva : bufva + count ≤ MAXVA) (hlen : l.length + count ≤ RFS_BLKSIZE * RFS_DIRECT_BLKNUM)
    (hi : i < count) (h : AtEnd fd v (l ++ (List.range i).map (userBytes frame mem bufva)) w) :
    Sat (writeChunk frame mem fd w (bufva + i) (chunkLen (bufva + i) (count - i)))
      (fun r => r.1 = (chunkLen (bufva + i) (count - i) : ℕ) ∧
        AtEnd fd v (l ++ (List.range (i + chunkLen (bufva + i) (count - i))).map
          (userBytes frame mem bufva)) r.2)
      fun e => e = noFreeBlock := by
  have hpa : lookupPa frame (bufva + i) ≠ 0 := by
    have hmapped := hmap i hi
    simp only [MAXVA] at hva
    rwa [Nat.mod_eq_of_lt (by omega)] at hmapped
  have hle := chunkLen_le (bufva + i) (count - i)
  have hfits : (l ++ (List.range i).map (userBytes frame mem bufva)).length +
      chunkLen (bufva + i) (count - i) ≤ RFS_BLKSIZE * RFS_DIRECT_BLKNUM := by
    rw [List.length_append, List.length_map, List.length_range]
    omega
  have hpart : (List.range (chunkLen (bufva + i) (count - i))).map
      (fun k => mem (lookupPa frame (bufva + i) + (bufva + i) % PGSIZE + k)) =
      (List.range (chunkLen (bufva + i) (count - i))).map
        fun k => userBytes frame mem bufva (i + k) :=
    List.map_congr_left fun k hk => userBytes_chunk hva hi (List.mem_range.1 hk)
  rw [writeChunk]
  simp only [hpa, if_false]
  refine (doWrite_appends h _ hfits).mono fun r hr => ⟨hr.1, ?_⟩
  have hend := hr.2
  rw [hpart, List.append_assoc] at hend
  rwa [List.range_add, List.map_append, List.map_map]

/-- **A write page by page** appends the bytes that the user sees, in order, and returns the count,
or there is no free block; and where one `rfs_write` of the whole buffer returns, the content, the
size and the offset are those of this write. -/
theorem sysUserWrite_appends {fuel : ℕ} (hfile : (w.entry fd).file w.fs = .ok file)
    (hwrite : file.writable = true) (hv : file.vinode w.fs = .ok (v, x))
    (halloc : Allocated w.fs v x) (hsb : x.sb = .rfs) (hoff : file.offset = x.size)
    (hva : bufva < 2 ^ 64) (hmap : Mapped frame bufva count) (hcount : count < 2 ^ 31)
    (hlen : x.size + count ≤ RFS_BLKSIZE * RFS_DIRECT_BLKNUM) (hfuel : count < fuel) :
    Sat (sysUserWrite frame mem fd bufva count fuel w)
      (fun r => r.1.1 = count ∧ ∃ file' x', (r.2.entry fd).file r.2.fs = .ok file' ∧
        file'.vinode r.2.fs = .ok (v, x') ∧
        r.2.fs.fileBytes x'.toDinode =
          w.fs.fileBytes x.toDinode ++ (List.range count).map (userBytes frame mem bufva) ∧
        x'.size = x.size + count ∧ file'.offset = x.size + count ∧
        ∀ n o st, rfsWrite w.fs v (userBytes frame mem bufva) count x.size = .ok ((n, o), st) →
          n = count ∧ file'.offset = o ∧ ∃ y, st.vinodes v = some y ∧ x'.size = y.size ∧
            r.2.fs.fileBytes x'.toDinode = st.fileBytes y.toDinode)
      fun e => e = noFreeBlock := by
  have hstart : AtEnd fd v (w.fs.fileBytes x.toDinode ++
      (List.range 0).map (userBytes frame mem bufva)) w :=
    ⟨file, x, hfile, hwrite, hv, halloc, hsb, hoff, by simp⟩
  have hrun : Sat (sysUserWrite frame mem fd bufva count fuel w)
      (fun r => r.1.1 = count ∧ AtEnd fd v (w.fs.fileBytes x.toDinode ++
        (List.range count).map (userBytes frame mem bufva)) r.2) fun e => e = noFreeBlock := by
    rcases Nat.eq_zero_or_pos count with rfl | hpos
    · obtain ⟨k, rfl⟩ : ∃ k, fuel = k + 1 := ⟨fuel - 1, by omega⟩
      exact ⟨rfl, hstart⟩
    · have hend := hmap.le hva hpos
      refine chunkLoop_full (P := fun i w' => AtEnd fd v (w.fs.fileBytes x.toDinode ++
        (List.range i).map (userBytes frame mem bufva)) w') (i := 0) ?_ hend hcount hstart
        (Nat.zero_le _) (by omega)
      intro i w' hP hi
      exact writeChunk_appends hmap hend (by rwa [length_fileBytes]) hi hP
  refine hrun.mono ?_
  rintro ⟨⟨ret, rs⟩, w'⟩ ⟨hret, file', x', hfile', -, hv', -, -, hoff', hbytes⟩
  have hsize : x'.size = x.size + count := by
    have hlength := congrArg List.length hbytes
    rwa [length_fileBytes, List.length_append, length_fileBytes, List.length_map,
      List.length_range] at hlength
  refine ⟨hret, file', x', hfile', hv', hbytes, hsize, hoff'.trans hsize, fun n o st hone => ?_⟩
  have hwrote := rfsWrite_wrote halloc (Nat.le_refl _) hlen (userBytes frame mem bufva)
  rw [hone] at hwrote
  obtain ⟨hr, y, hw⟩ := hwrote
  obtain ⟨rfl, rfl⟩ := Prod.mk.inj hr
  refine ⟨rfl, hoff'.trans hsize, y, hw.file.vinode, ?_, hbytes.trans hw.content.symm⟩
  have hsize' := hw.size
  omega

/-- Frames far from each other. -/
def sampleFrame (page : ℕ) : ℕ := 0x80000000 + 0x10000 * page

theorem sampleFrame_mapped : Mapped sampleFrame 4091 10 := by
  intro k hk
  rw [lookupPa, if_neg (by simp only [MAXVA]; omega), sampleFrame]
  omega

theorem sample_allocatedFiles :
    Allocated (sampleFiles (sampleFile 0 0)).fs 0 (sampleFile 0 0) :=
  sample_newFile.holds.file.congr rfl rfl rfl

/-- Ten bytes across a page boundary, from two frames. -/
theorem sysUserWrite_appends_sample :
    ∃ w' : Files, ∃ x' rs, sysUserWrite sampleFrame (fun a => .ofNat a) 0 4091 10 11
      (sampleFiles (sampleFile 0 0)) = .ok ((10, rs), w') ∧ x'.size = 10 ∧
      w'.fs.fileBytes x' = [251, 252, 253, 254, 255, 0, 1, 2, 3, 4] := by
  have hsat : Sat (sysUserWrite sampleFrame (fun a => .ofNat a) 0 4091 10 11
      (sampleFiles (sampleFile 0 0))) _ _ :=
    sysUserWrite_appends rfl rfl rfl sample_allocatedFiles rfl rfl (by decide) sampleFrame_mapped
      (by decide) (by decide) (by decide)
  have hok : (sysUserWrite sampleFrame (fun a => .ofNat a) 0 4091 10 11
      (sampleFiles (sampleFile 0 0))).toOption.isSome = true := by
    decide +kernel
  cases hrun : sysUserWrite sampleFrame (fun a => .ofNat a) 0 4091 10 11
      (sampleFiles (sampleFile 0 0)) with
  | error e =>
    rw [hrun] at hok
    cases hok
  | ok r =>
    rw [hrun] at hsat
    obtain ⟨⟨ret, rs⟩, w'⟩ := r
    obtain ⟨hret, -, x', -, -, hbytes, hsize, -⟩ := hsat
    obtain rfl : ret = 10 := hret
    refine ⟨w', x'.toDinode, rs, rfl, hsize, ?_⟩
    rw [hbytes]
    decide

end HustOS.Fs
