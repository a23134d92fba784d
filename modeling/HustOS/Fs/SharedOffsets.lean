import HustOS.Fs.Deliver

/-!
# Offsets inside the files

Any number of descriptors are open on files of RFS, several of them on the same file, and
`vfs_read`, `vfs_write` and `vfs_lseek` are called through them in any order. The offset of a
descriptor is an `int` of its file structure; the size is in the vinode, which the descriptors
share.

A descriptor stays inside its file (`Inside`): a read stops at the size, a seek outside the file
fails, and a write, through whichever descriptor, never makes a file smaller (`Wrote`) and leaves
the other files alone (`Beside`). So the panics of `rfs_read` and `rfs_write` are never reached
(`offsets_inside`).
-/

namespace HustOS.Fs

open Foundations

variable {ι : Type} [DecidableEq ι] {s s' s₁ s₂ : State} {v u b n len offset : ℕ} {x y : Vinode}

/-! ## The calls -/

/-- `struct file` with the offset as the `int` it is. -/
structure Descriptor where
  readable : Bool
  writable : Bool
  offset : ℤ
  fDentry : ℕ

/-- The vinode of a file structure. -/
def Descriptor.vinode (s : State) (d : Descriptor) : Except Fault (ℕ × Vinode) := do
  let v ← s.dentryInode d.fDentry
  return (v, ← s.vinode v)

/-- The conversion of an `ssize_t` to `int`. -/
def toInt32 (z : ℤ) : ℤ := (z + 2147483648) % 4294967296 - 2147483648

/-- A sum of an `int` and an `ssize_t`. -/
def toInt64 (z : ℤ) : ℤ := (z + 9223372036854775808) % 18446744073709551616 - 9223372036854775808

/-- `rfs_lseek` on the `int` offset: the new one, or nothing if the call fails. -/
def seekInt (x : Dinode) (newOffset whence offset : ℤ) : Option ℤ :=
  if whence = LSEEK_SET then
    if newOffset < 0 ∨ newOffset > x.size then none else some (toInt32 newOffset)
  else if whence = LSEEK_CUR then
    if toInt64 (offset + newOffset) < 0 ∨ toInt64 (offset + newOffset) > x.size then none
    else some (toInt32 (toInt64 (offset + newOffset)))
  else none

/-- A call through a descriptor; the system calls pass on at most a page. -/
inductive RwOp
  | read (count : ℕ) (le : count ≤ PGSIZE)
  | write (buf : Buf) (count : ℕ) (le : count ≤ PGSIZE)
  | lseek (offset whence : ℤ)

/-- `vfs_read`, `vfs_write` and `vfs_lseek` through a file structure. Before a file, `rfs_read` and
`rfs_write` would use the buffer of the device before its start. -/
def callFile (s : State) (d : Descriptor) : RwOp → Except Fault (ℤ × Descriptor × State)
  | .read count _ => do
    if !d.readable then
      return (-1, d, s)
    let (v, x) ← d.vinode s
    if x.type ≠ FILE_I then
      return (-1, d, s)
    viopSb s v
    if d.offset < 0 then
      throw (.undefined "iobuffer")
    let ((len, _, _), s) ← rfsRead s v count d.offset.toNat
    return (len, { d with offset := toInt32 (d.offset + len) }, s)
  | .write buf count _ => do
    if !d.writable then
      return (-1, d, s)
    let (v, x) ← d.vinode s
    if x.type ≠ FILE_I then
      return (-1, d, s)
    viopSb s v
    if d.offset < 0 then
      throw (.undefined "iobuffer")
    let ((len, _), s) ← rfsWrite s v buf count d.offset.toNat
    return (len, { d with offset := toInt32 (d.offset + len) }, s)
  | .lseek newOffset whence => do
    let (v, x) ← d.vinode s
    if x.type ≠ FILE_I then
      return (-1, d, s)
    viopSb s v
    match seekInt x.toDinode newOffset whence d.offset with
    | none => return (-1, d, s)
    | some offset => return (offset, { d with offset := offset }, s)

/-- A call through the descriptor `i`. -/
def callAt (w : State × (ι → Descriptor)) (i : ι) (op : RwOp) :
    Except Fault (ℤ × State × (ι → Descriptor)) := do
  let (r, d, s) ← callFile w.1 (w.2 i) op
  return (r, s, Function.update w.2 i d)

/-- Calls that return, one after the other, through descriptors in any order. -/
inductive SharedCalls (w : State × (ι → Descriptor)) : State × (ι → Descriptor) → Prop
  | refl : SharedCalls w w
  | tail {w₁ w₂ : State × (ι → Descriptor)} {i : ι} {op : RwOp} {r : ℤ} (calls : SharedCalls w w₁)
      (call : callAt w₁ i op = .ok (r, w₂)) : SharedCalls w w₂

/-- The descriptor is open on a file of RFS, and its offset is inside the file. -/
def Inside (s : State) (d : Descriptor) : Prop :=
  ∃ v x, d.vinode s = .ok (v, x) ∧ Allocated s v x ∧ x.sb = .rfs ∧ 0 ≤ d.offset ∧ d.offset ≤ x.size

/-! ## What a write leaves alone -/

abbrev readPanic : Fault := .panic "rfs_read:offset should less than file size!"

abbrev writePanic : Fault := .panic "rfs_write:offset should less than file size!"

/-- The error is not one about the offset. -/
def NotOffset (e : Fault) : Prop := e ≠ readPanic ∧ e ≠ writePanic

/-- The message of `ramdisk_write` does not begin like those. -/
theorem ramdiskWrite_ne (b : ℕ) (c : String) (hc : c.toList[1]? ≠ some 'a') :
    Fault.panic s!"ramdisk_write: write block No {b} out of range!\n" ≠ .panic c := by
  intro h
  have hlist := congrArg (fun c => c.toList[1]?) (Fault.panic.inj h)
  refine hc ?_
  rw [← hlist]
  simp [String.toList_append, toString]

/-- What a write to the file with the vinode `v` leaves alone. -/
structure Beside (v : ℕ) (s s' : State) : Prop where
  dentries : s'.dentries = s.dentries
  others : ∀ u, u ≠ v → s'.vinodes u = s.vinodes u
  superblock : (s'.vinodes v).map Vinode.sb = (s.vinodes v).map Vinode.sb
  sb : s'.sb = s.sb
  marked : ∀ k, s.freemap k ≠ 0 → s'.freemap k ≠ 0

theorem Beside.refl : Beside v s s := ⟨rfl, fun _ _ => rfl, rfl, rfl, fun _ h => h⟩

theorem Beside.io (h : Beside v s s₁) (buf : Buf) (disk : Disk) :
    Beside v s { s₁ with iobuffer := buf, disk := disk } :=
  ⟨h.dentries, h.others, h.superblock, h.sb, h.marked⟩

theorem Beside.setVinode (h : Beside v s s₁) (hx : s₁.vinodes v = some x) (hy : y.sb = x.sb) :
    Beside v s (s₁.setVinode v y) where
  dentries := h.dentries
  others u hu := (Function.update_of_ne hu _ _).trans (h.others u hu)
  superblock := by
    have hv : (s₁.setVinode v y).vinodes v = some y := Function.update_self _ _ _
    rw [hv, Option.map_some, hy, ← h.superblock, hx, Option.map_some]
  sb := h.sb
  marked := h.marked

section Errors

variable (h : Beside v s s₁)

include h

theorem rfsR1block_beside : Sat (rfsR1block s₁ b) (Beside v s) NotOffset := by
  rw [rfsR1block, ramdiskRead]
  split
  · exact ⟨by decide, by decide⟩
  · exact h.io _ _

theorem rfsW1block_beside (buf : Buf) :
    Sat (rfsW1block { s₁ with iobuffer := buf } b) (Beside v s) NotOffset := by
  rw [rfsW1block, ramdiskWrite]
  split
  · exact ⟨ramdiskWrite_ne _ _ (by decide), ramdiskWrite_ne _ _ (by decide)⟩
  · exact h.io _ _

theorem rfsAllocBlock_beside :
    Sat (rfsAllocBlock s₁) (fun r => Beside v s r.2 ∧ r.2.vinodes = s₁.vinodes) NotOffset := by
  rw [rfsAllocBlock]
  split
  · refine ⟨⟨h.dentries, h.others, h.superblock, h.sb, fun k hk => ?_⟩, rfl⟩
    rename_i k' _
    have := h.marked k hk
    by_cases hkk : k = k'
    · rw [hkk]
      dsimp only
      rw [Function.update_self]
      decide
    · dsimp only
      rw [Function.update_of_ne hkk]
      exact this
  · exact ⟨by decide, by decide⟩

omit h in
theorem addr_notOffset (x : Dinode) (i : ℕ) : Sat (x.addr i) (fun _ => True) NotOffset := by
  rw [Dinode.addr]
  split
  · trivial
  · exact ⟨by decide, by decide⟩

omit h in
theorem vinode_notOffset (v : ℕ) :
    Sat (s₁.vinode v) (fun x => s₁.vinodes v = some x) NotOffset := by
  cases hv : s₁.vinodes v with
  | none =>
    rw [State.vinode, hv]
    exact ⟨by decide, by decide⟩
  | some x =>
    rw [State.vinode_eq_ok.2 hv]
    rfl

theorem growTo_beside : Sat (growTo s₁ v b) (Beside v s) NotOffset := by
  rw [growTo]
  refine Sat.bind (vinode_notOffset v) fun x hx => ?_
  split
  · refine Sat.bind (rfsAllocBlock_beside h) ?_
    rintro ⟨k, s₂⟩ ⟨h₂, hv⟩
    dsimp only at h₂ hv ⊢
    split
    · exact ⟨by decide, by decide⟩
    · have hx₂ : s₂.vinodes v = some x := hv ▸ hx
      exact h₂.setVinode hx₂ rfl
  · exact h

theorem writeBlock_beside {wBuf : Buf} {bufOffset : ℕ} :
    Sat (writeBlock s₁ v b wBuf bufOffset n) (Beside v s) NotOffset := by
  rw [writeBlock]
  refine Sat.bind (growTo_beside h) fun s₂ h₂ => ?_
  refine Sat.bind (vinode_notOffset v) fun x _ => ?_
  exact Sat.bind (addr_notOffset _ _) fun _ _ => rfsW1block_beside h₂ _

theorem writeLoop_beside {wBuf : Buf} {bufOffset : ℕ} :
    Sat (writeLoop v wBuf n bufOffset b s₁) (fun r => Beside v s r.2) NotOffset := by
  induction n generalizing s₁ bufOffset b with
  | zero => exact h
  | succ n ih =>
    rw [writeLoop]
    exact Sat.bind (writeBlock_beside h) fun s₂ h₂ => ih h₂

theorem writeInside_beside {wBuf : Buf} {align : ℕ} :
    Sat (writeInside s₁ v wBuf b align n) (Beside v s) NotOffset := by
  rw [writeInside]
  refine Sat.bind (vinode_notOffset v) fun x _ => ?_
  refine Sat.bind (addr_notOffset _ _) fun block _ => ?_
  exact Sat.bind (rfsR1block_beside h) fun s₂ h₂ => rfsW1block_beside h₂ _

theorem writeFirst_beside {wBuf : Buf} :
    Sat (writeFirst s₁ v wBuf len offset) (fun r => Beside v s r.2) NotOffset := by
  rw [writeFirst]
  dsimp only
  split
  · exact Sat.bind (writeInside_beside h) fun s₂ h₂ => h₂
  · exact h

theorem writeRest_beside {wBuf : Buf} {pos : WritePos} {remain : ℕ} :
    Sat (writeRest s₁ v wBuf pos remain) (Beside v s) NotOffset := by
  rw [writeRest]
  split
  · refine Sat.bind (writeLoop_beside h) ?_
    rintro ⟨⟨bufOffset, blockOffset⟩, s₂⟩ h₂
    dsimp only at h₂ ⊢
    split
    · exact writeBlock_beside h₂
    · exact h₂
  · exact h

end Errors

/-- **A write leaves everything beside its file**, and the offset, which is inside the file, does
not make it panic. -/
theorem rfsWrite_beside (len : ℕ) (wBuf : Buf) (hx : s.vinodes v = some x)
    (hoff : offset ≤ x.size) :
    Sat (rfsWrite s v wBuf len offset) (fun r => Beside v s r.2) NotOffset := by
  rw [rfsWrite, State.vinode_eq_ok.2 hx, ok_bind, if_neg (by omega)]
  refine Sat.bind (writeFirst_beside .refl) ?_
  rintro ⟨pos, s₁⟩ h₁
  refine Sat.bind (writeRest_beside h₁) fun s₂ h₂ => ?_
  exact Sat.bind (vinode_notOffset v) fun y hy => h₂.setVinode hy rfl

theorem readLoop_notOffset {bufOffset : ℕ} {buffer : Buf} {y : Dinode} :
    Sat (readLoop y n bufOffset b buffer s) (fun _ => True) NotOffset := by
  induction n generalizing s bufOffset b buffer with
  | zero => trivial
  | succ n ih =>
    rw [readLoop]
    refine Sat.bind (addr_notOffset _ _) fun block _ => ?_
    exact Sat.bind (rfsR1block_beside (v := 0) .refl) fun s₁ _ => ih

/-- **A read inside the file** does not panic about the offset. -/
theorem rfsRead_notOffset (hx : s.vinodes v = some x) (hoff : offset ≤ x.size) :
    Sat (rfsRead s v len offset) (fun _ => True) NotOffset := by
  rw [rfsRead, State.vinode_eq_ok.2 hx, ok_bind, if_neg (by omega)]
  generalize (if x.size < offset + len then x.size - offset else len) = len
  refine Sat.bind (addr_notOffset _ _) fun block _ => ?_
  refine Sat.bind (rfsR1block_beside (v := 0) .refl) fun s₁ _ => ?_
  dsimp only
  split
  · trivial
  refine Sat.bind readLoop_notOffset fun r _ => ?_
  split
  · trivial
  refine Sat.bind (addr_notOffset _ _) fun block _ => ?_
  exact Sat.bind (rfsR1block_beside (v := 0) .refl) fun s₂ _ => trivial

/-! ## What a call returns -/

theorem toInt32_of_le {z : ℤ} (h0 : 0 ≤ z) (hz : z ≤ RFS_BLKSIZE * RFS_DIRECT_BLKNUM) :
    toInt32 z = z := by
  simp only [toInt32, RFS_BLKSIZE, PGSIZE, RFS_DIRECT_BLKNUM] at *
  omega

theorem Allocated.size_le (h : Allocated s v x) : x.size ≤ RFS_BLKSIZE * RFS_DIRECT_BLKNUM :=
  h.file.size_le.trans (Nat.mul_le_mul_left _ h.file.blocks_le)

/-- `rfs_read` returns the number of bytes up to the end of the file or the length. -/
theorem rfsRead_count {r : ℕ × Buf × ℕ} (hx : s.vinodes v = some x)
    (h : rfsRead s v len offset = .ok (r, s')) :
    offset ≤ x.size ∧ r.1 = min len (x.size - offset) ∧ r.2.2 = offset + r.1 := by
  rw [rfsRead, State.vinode_eq_ok.2 hx, ok_bind] at h
  by_cases hsize : x.size < offset
  · simp [hsize] at h
  have hlen : (if x.size < offset + len then x.size - offset else len) =
      min len (x.size - offset) := by
    split <;> omega
  simp only [hsize, if_false, hlen] at h
  refine ⟨Nat.not_lt.1 hsize, ?_⟩
  generalize min len (x.size - offset) = n at h
  obtain ⟨b, -, h⟩ := (bind_ok_iff _ _ _).1 h
  obtain ⟨s₁, -, h⟩ := (bind_ok_iff _ _ _).1 h
  split at h
  · cases h
    exact ⟨rfl, rfl⟩
  obtain ⟨⟨z, s₂⟩, -, h⟩ := (bind_ok_iff _ _ _).1 h
  split at h
  · cases h
    exact ⟨rfl, rfl⟩
  obtain ⟨c, -, h⟩ := (bind_ok_iff _ _ _).1 h
  obtain ⟨s₃, -, h⟩ := (bind_ok_iff _ _ _).1 h
  cases h
  exact ⟨rfl, rfl⟩

/-- A read inside the file stops at its size. -/
theorem rfsRead_len {r : ℕ × Buf × ℕ} (hx : s.vinodes v = some x)
    (h : rfsRead s v len offset = .ok (r, s')) : offset + r.1 ≤ x.size := by
  obtain ⟨hoff, hr, -⟩ := rfsRead_count hx h
  omega

/-- A write leaves a file that its bytes are inside. -/
theorem rfsWrite_len_le {wBuf : Buf} {r : ℕ × ℕ} (h : Allocated s v x) (hoff : offset ≤ x.size)
    (e : rfsWrite s v wBuf len offset = .ok (r, s')) :
    r.1 = len ∧ ∃ x', Allocated s' v x' ∧ x.size ≤ x'.size ∧ offset + len ≤ x'.size := by
  have hfits : offset + len ≤ RFS_BLKSIZE * RFS_DIRECT_BLKNUM := by
    by_contra hpast
    exact rfsWrite_past h hoff (by omega) e
  have hsat := rfsWrite_wrote h hoff hfits wBuf
  rw [e] at hsat
  obtain ⟨rfl, x', hw⟩ := hsat
  have hsize := hw.size
  exact ⟨rfl, x', hw.file, by omega, by omega⟩

/-- A seek that does not fail goes to a place inside the file. -/
theorem seekInt_inside {z : Dinode} {newOffset whence o o' : ℤ}
    (hsize : z.size ≤ RFS_BLKSIZE * RFS_DIRECT_BLKNUM)
      (h : seekInt z newOffset whence o = some o') :
    0 ≤ o' ∧ o' ≤ z.size := by
  have hinside : ∀ t : ℤ, ¬ (t < 0 ∨ t > z.size) → 0 ≤ toInt32 t ∧ toInt32 t ≤ z.size := by
    intro t ht
    rw [toInt32_of_le (by omega) (by omega)]
    omega
  rw [seekInt] at h
  split at h
  · split at h
    · cases h
    · cases h
      exact hinside _ ‹_›
  · split at h
    · split at h
      · cases h
      · cases h
        exact hinside _ ‹_›
    · cases h

/-! ## Descriptors -/

theorem Descriptor.vinode_ok {d : Descriptor} (h : d.vinode s = .ok (v, x)) :
    s.dentryInode d.fDentry = .ok v ∧ s.vinodes v = some x := by
  rw [Descriptor.vinode] at h
  obtain ⟨v', hv, h⟩ := (bind_ok_iff _ _ _).1 h
  obtain ⟨x', hx, h⟩ := (bind_ok_iff _ _ _).1 h
  cases h
  exact ⟨hv, State.vinode_eq_ok.1 hx⟩

theorem Descriptor.vinode_of {d : Descriptor} (hv : s.dentryInode d.fDentry = .ok v)
    (hx : s.vinodes v = some x) : d.vinode s = .ok (v, x) := by
  rw [Descriptor.vinode, hv, ok_bind, State.vinode_eq_ok.2 hx]
  rfl

/-- A descriptor stays inside its file when the buffer of the device changes. -/
theorem Inside.buffer {d : Descriptor} (h : Inside s d) (hs : SameButBuffer s s') :
    Inside s' d := by
  obtain ⟨v, x, hd, hx, hsb, h0, hle⟩ := h
  obtain ⟨buf, rfl⟩ := hs
  exact ⟨v, x, hd, hx.congr rfl rfl rfl, hsb, h0, hle⟩

/-- **A descriptor stays inside its file** when one is written that does not get smaller. -/
theorem Inside.written {d : Descriptor} (h : Inside s d) (hx : s.vinodes v = some x)
    (hb : Beside v s s')
    (hx' : Allocated s' v y) (hle : x.size ≤ y.size) : Inside s' d := by
  obtain ⟨u, z, hd, hz, hsb, h0, hoff⟩ := h
  obtain ⟨hu, hzu⟩ := Descriptor.vinode_ok hd
  have hu' : s'.dentryInode d.fDentry = .ok u := by
    rw [← hu, State.dentryInode, State.dentryInode, State.dentry, State.dentry, hb.dentries]
  by_cases huv : u = v
  · subst huv
    obtain rfl := Option.some.inj (hzu.symm.trans hx)
    have hsb' := hb.superblock
    rw [hx'.vinode, hx, Option.map_some, Option.map_some] at hsb'
    exact ⟨u, y, Descriptor.vinode_of hu' hx'.vinode, hx', (Option.some.inj hsb').trans hsb,
      h0, by omega⟩
  · have hzu' : s'.vinodes u = some z := (hb.others u huv).trans hzu
    refine ⟨u, z, Descriptor.vinode_of hu' hzu', ?_, hsb, h0, hoff⟩
    exact ⟨⟨hzu', hz.file, hz.data⟩, hz.nodup, fun b hb' => hb.marked _ (hz.marked b hb'),
      hb.sb ▸ hz.nblocks⟩

/-- What a call leaves: its descriptor and all others inside their files. -/
def StayInside (s : State) (r : ℤ × Descriptor × State) : Prop :=
  Inside r.2.2 r.2.1 ∧ ∀ d, Inside s d → Inside r.2.2 d

/-- `vfs_read` and `vfs_write` on a descriptor inside its file pass the tests before the
transfer. -/
theorem Inside.tests {d : Descriptor} (h : Inside s d) : ∃ v x, d.vinode s = .ok (v, x) ∧
    Allocated s v x ∧ x.sb = .rfs ∧ x.type = FILE_I ∧ viopSb s v = .ok () ∧ ¬ d.offset < 0 ∧
    d.offset.toNat ≤ x.size ∧ (d.offset.toNat : ℤ) = d.offset := by
  obtain ⟨v, x, hd, hx, hsb, h0, hle⟩ := h
  refine ⟨v, x, hd, hx, hsb, hx.file.type, ?_, by omega, by omega, by omega⟩
  rw [viopSb, State.vinode_eq_ok.2 hx.vinode, ok_bind, hsb]
  rfl

theorem callFile_read {d : Descriptor} {count : ℕ} {le : count ≤ PGSIZE} (h : Inside s d) :
    Sat (callFile s d (.read count le)) (StayInside s) NotOffset := by
  obtain ⟨v, x, hd, hx, hsb, htype, hviop, h0, hoff, hnat⟩ := h.tests
  rw [callFile]
  split
  · exact ⟨h, fun _ hd => hd⟩
  rw [hd, ok_bind]
  dsimp only
  rw [if_neg (not_not.2 htype), hviop, ok_bind]
  have hsat : Sat (rfsRead s v count d.offset.toNat) (fun _ => True) NotOffset :=
    rfsRead_notOffset hx.vinode hoff
  cases hread : rfsRead s v count d.offset.toNat with
  | error e =>
    rw [hread] at hsat
    exact hsat
  | ok r =>
    obtain ⟨⟨n, buf, o⟩, s₁⟩ := r
    have hlen := rfsRead_len hx.vinode hread
    have hs := rfsRead_buffer hread
    have hsize := hx.size_le
    dsimp only at hlen
    refine ⟨?_, fun d' hd' => hd'.buffer hs⟩
    have hins : Inside s { d with offset := toInt32 (d.offset + n) } := by
      rw [toInt32_of_le (by omega) (by omega)]
      exact ⟨v, x, hd, hx, hsb, by dsimp only; omega, by dsimp only; omega⟩
    exact hins.buffer hs

theorem callFile_write {d : Descriptor} {buf : Buf} {count : ℕ} {le : count ≤ PGSIZE}
    (h : Inside s d) :
    Sat (callFile s d (.write buf count le)) (StayInside s) NotOffset := by
  obtain ⟨v, x, hd, hx, hsb, htype, hviop, h0, hoff, hnat⟩ := h.tests
  rw [callFile]
  split
  · exact ⟨h, fun _ hd => hd⟩
  rw [hd, ok_bind]
  dsimp only
  rw [if_neg (not_not.2 htype), hviop, ok_bind]
  have hsat : Sat (rfsWrite s v buf count d.offset.toNat) (fun r => Beside v s r.2) NotOffset :=
    rfsWrite_beside count buf hx.vinode hoff
  cases hwrite : rfsWrite s v buf count d.offset.toNat with
  | error e =>
    rw [hwrite] at hsat
    exact hsat
  | ok r =>
    obtain ⟨⟨n, o⟩, s₁⟩ := r
    rw [hwrite] at hsat
    obtain ⟨hn, y, hy, hsize, hend⟩ := rfsWrite_len_le hx hoff hwrite
    dsimp only at hn hsat
    subst hn
    have hbound := hy.size_le
    have hkeep : ∀ d', Inside s d' → Inside s₁ d' := fun d' hd' =>
      hd'.written hx.vinode hsat hy hsize
    refine ⟨?_, hkeep⟩
    obtain ⟨u, z, hdz, hz, hzsb, -, -⟩ := hkeep d h
    -- the descriptor leads to the file that was written
    have hzy : z = y := by
      have hu := (Descriptor.vinode_ok hdz).1
      rw [State.dentryInode, State.dentry, hsat.dentries] at hu
      have hv := (Descriptor.vinode_ok hd).1
      rw [State.dentryInode, State.dentry, hu] at hv
      obtain rfl := Except.ok.inj hv
      exact Option.some.inj (hz.vinode.symm.trans hy.vinode)
    subst hzy
    dsimp only
    rw [toInt32_of_le (by omega) (by omega)]
    exact ⟨u, z, hdz, hz, hzsb, by dsimp only; omega, by dsimp only; omega⟩

/-- A seek fails and changes nothing, or leaves the descriptor inside its file. -/
theorem callFile_lseek {d : Descriptor} (h : Inside s d) (newOffset whence : ℤ) :
    ∃ r d', callFile s d (.lseek newOffset whence) = .ok (r, d', s) ∧ Inside s d' ∧
        (r = -1 → d' = d) := by
  obtain ⟨v, x, hd, hx, hsb, htype, hviop, h0, hoff, hnat⟩ := h.tests
  simp only [callFile, hd, ok_bind, htype, ne_eq, not_true_eq_false, if_false, hviop]
  cases hseek : seekInt x.toDinode newOffset whence d.offset with
  | none => exact ⟨-1, d, rfl, h, fun _ => rfl⟩
  | some o =>
    obtain ⟨ho, hle⟩ := seekInt_inside hx.size_le hseek
    refine ⟨o, { d with offset := o }, rfl, ⟨v, x, hd, hx, hsb, ho, hle⟩, fun h => by omega⟩

/-- **A call keeps all descriptors inside their files**, and does not panic about an offset. -/
theorem callFile_sat {d : Descriptor} (h : Inside s d) (op : RwOp) :
    Sat (callFile s d op) (StayInside s) NotOffset := by
  cases op with
  | read count le => exact callFile_read h
  | write buf count le => exact callFile_write h
  | lseek newOffset whence =>
    obtain ⟨r, d', hrun, hd', -⟩ := callFile_lseek h newOffset whence
    rw [hrun]
    exact ⟨hd', fun _ hd => hd⟩

theorem callAt_sat {w : State × (ι → Descriptor)} (h : ∀ i, Inside w.1 (w.2 i)) (i : ι)
    (op : RwOp) :
    Sat (callAt w i op) (fun r => ∀ j, Inside r.2.1 (r.2.2 j)) NotOffset := by
  rw [callAt]
  refine Sat.bind (callFile_sat (h i) op) ?_
  rintro ⟨r, d, s'⟩ ⟨hd, hkeep⟩ j
  dsimp only at hd hkeep ⊢
  by_cases hji : j = i
  · rw [hji, Function.update_self]
    exact hd
  · rw [Function.update_of_ne hji]
    exact hkeep _ (h j)

/-- **Offsets stay inside the files.** After any calls of `vfs_read`, `vfs_write` and `vfs_lseek`
through descriptors that were inside their files, every descriptor is; no further call panics about
its offset; and a seek that fails changes nothing. -/
theorem offsets_inside {w w' : State × (ι → Descriptor)} (start : ∀ i, Inside w.1 (w.2 i))
    (calls : SharedCalls w w') : (∀ i, Inside w'.1 (w'.2 i)) ∧
      (∀ i op e, callAt w' i op = .error e → e ≠ readPanic ∧ e ≠ writePanic) ∧
      ∀ i newOffset whence w'', callAt w' i (.lseek newOffset whence) = .ok (-1, w'') →
          w'' = w' := by
  have hinside : ∀ i, Inside w'.1 (w'.2 i) := by
    induction calls with
    | refl => exact start
    | @tail w₁ w₂ i op r _ call ih =>
      have hsat := callAt_sat ih i op
      rw [call] at hsat
      exact hsat
  refine ⟨hinside, fun i op e he => ?_, fun i newOffset whence w'' he => ?_⟩
  · have hsat := callAt_sat hinside i op
    rw [he] at hsat
    exact hsat
  · obtain ⟨r, d', hrun, -, hfail⟩ := callFile_lseek (hinside i) newOffset whence
    rw [callAt, hrun, ok_bind] at he
    obtain ⟨rfl, rfl⟩ := Prod.mk.inj (Except.ok.inj he)
    rw [hfail rfl, Function.update_eq_self]

/-- Two descriptors at the start of a file of 5000 bytes. -/
def twoDescriptors : State × (Bool → Descriptor) :=
  ((sampleFiles (sampleFile 5000 2)).fs, fun _ => ⟨true, true, 0, 1⟩)

/-- One seeks to the end, the other writes the first page. -/
theorem offsets_inside_sample : ∃ w, SharedCalls twoDescriptors w ∧ (w.2 true).offset = 5000 ∧
    (w.2 false).offset = 4096 ∧ ∀ i, Inside w.1 (w.2 i) := by
  have start : ∀ i, Inside twoDescriptors.1 (twoDescriptors.2 i) := by
    intro i
    have hfile := sample_allocated (show 5000 ≤ RFS_BLKSIZE * 2 by decide) (by decide)
    refine ⟨0, sampleFile 5000 2, rfl, hfile.congr rfl rfl rfl, rfl, le_rfl, ?_⟩
    exact Int.natCast_nonneg 5000
  obtain ⟨w₁, r, w₂, hseek, hwrite, ht, hf⟩ : ∃ w₁ r w₂,
      callAt twoDescriptors true (.lseek 5000 LSEEK_SET) = .ok (5000, w₁) ∧
        callAt w₁ false (.write (fun _ => 1) PGSIZE le_rfl) = .ok (r, w₂) ∧
          (w₂.2 true).offset = 5000 ∧ (w₂.2 false).offset = 4096 := ⟨_, _, _, rfl, rfl, rfl, rfl⟩
  have calls : SharedCalls twoDescriptors w₂ := (SharedCalls.refl.tail hseek).tail hwrite
  exact ⟨w₂, calls, ht, hf, (offsets_inside start calls).1⟩

end HustOS.Fs
