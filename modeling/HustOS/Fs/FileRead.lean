import HustOS.Fs.BlockTrace
import HustOS.Fs.OpenFiles

/-!
# Reading a file

A file is its size and its bytes, the byte `k` in the block `k / RFS_BLKSIZE` of the inode
(`State.byte`). `rfs_read` gathers the bytes from the offset on in three phases, the first block,
the complete blocks and the rest; the loop over the complete blocks fills the buffer up to where it
has come (`readLoopT_spec`), so the phases together leave exactly the bytes of the file in it and
index blocks of the file only (`rfsRead_exact`).
-/

namespace HustOS.Fs

open Foundations Traced

variable {s s' : State} {v i b n offset len : ℕ} {x : Vinode} {buf : Buf}

/-- The byte `k` of the file with the inode `x`. -/
def State.byte (s : State) (x : Dinode) (k : ℕ) : UInt8 :=
  s.disk (x.addrs (k / RFS_BLKSIZE)) (k % RFS_BLKSIZE)

/-- The vinode `v`, with the value `x`, is one of an RFS file: its blocks cover its size and are
blocks of the data area. -/
structure FileAt (s : State) (v : ℕ) (x : Vinode) : Prop where
  vinode : s.vinodes v = some x
  file : IsFile x.toDinode
  data : ∀ b ∈ x.blks, IsData b

/-- The files of a run are such files. -/
theorem Inv.fileAt (h : Inv s) (hc : Cached s i v x) (hx : x.type = FILE_I) : FileAt s v x := by
  have hnode := h.node_eq hc
  have htype : (s.vol.node i).type = FILE_I := by
    rw [hnode]
    exact hx
  exact ⟨hc.vinode, hnode ▸ h.good.isFile htype, fun b hb => h.isData_of_mem hc hb⟩

namespace FileAt

theorem vinode_ok (h : FileAt s v x) : s.vinode v = .ok x := State.vinode_eq_ok.2 h.vinode

theorem addr (h : FileAt s v x) (hb : b < x.blocks) : x.addr b = .ok (x.addrs b) :=
  addr_eq (hb.trans_le h.file.blocks_le)

theorem lt_count (h : FileAt s v x) (hb : b < x.blocks) : x.addrs b < RAMDISK_BLOCK_COUNT :=
  (h.data _ (Dinode.mem_blks.2 ⟨b, hb, rfl⟩)).lt_count

/-- A state that differs in the buffer only has the same file. -/
theorem buffer (h : FileAt s v x) (buf : Buf) : FileAt { s with iobuffer := buf } v x :=
  ⟨h.vinode, h.file, h.data⟩

theorem block_lt (h : FileAt s v x) {k : ℕ} (hk : k < x.size) : k / RFS_BLKSIZE < x.blocks :=
  Nat.div_lt_of_lt_mul (hk.trans_le h.file.size_le)

end FileAt

/-! ## Blocks -/

/-- After the access to the vinode the rest goes on with its value. -/
theorem FileAt.bind_vinodeT {α : Type} {P : ℕ → Prop} {f : Vinode → Blocks α}
    {R : α → State → Prop} {E : Fault → Prop} (h : FileAt s v x) (hf : Spec P (f x) s R E) :
    Spec P (vinodeT v >>= f) s R E := by
  refine .bind (Q := fun y s' => x = y ∧ s' = s) (.lift ?_) ?_
  · rw [h.vinode_ok]
    exact ⟨rfl, rfl⟩
  · rintro _ _ ⟨rfl, rfl⟩
    exact hf

/-- After an access that indexes no block the rest goes on in the state it leaves. -/
theorem bind_quietly {α : Type} {P : ℕ → Prop} {g : State → Except Fault State}
    {f : Unit → Blocks α}
    {R : α → State → Prop} {E : Fault → Prop} (hg : g s = .ok s') (hf : Spec P (f ()) s' R E) :
    Spec P (quietly g >>= f) s R E := by
  refine .bind (Q := fun _ s₁ => s₁ = s') (.lift ?_) fun _ s₁ hs₁ => ?_
  · rw [hg]
    rfl
  · subst hs₁
    exact hf

/-- A block of the file goes to the buffer. -/
theorem FileAt.read_block (h : FileAt s v x) (hb : b < x.blocks) :
    Spec (· < x.blocks) (blockT x.toDinode b rfsR1block) s
      (fun _ s' => s' = { s with iobuffer := s.disk (x.addrs b) }) fun _ => False := by
  refine .emit hb ?_
  rw [h.addr hb, ok_bind, rfsR1block_eq (h.lt_count hb)]
  rfl

/-- The `n` bytes of the file from `off` on, and zeros behind them. -/
def State.bytes (s : State) (x : Dinode) (off n : ℕ) : Buf := fun k =>
  if k < n then s.byte x (off + k) else 0

/-- A part of the next block behind the bytes that are there. -/
theorem State.bytes_blit {x : Dinode} {off upto b align n : ℕ} (hn : align + n ≤ RFS_BLKSIZE)
    (hb : off + upto = RFS_BLKSIZE * b + align) :
    (s.bytes x off upto).blit upto (s.disk (x.addrs b)) align n = s.bytes x off (upto + n) := by
  funext k
  rw [Buf.blit, State.bytes, State.bytes]
  by_cases hk : upto ≤ k ∧ k < upto + n
  · have hoff : off + k = RFS_BLKSIZE * b + (align + (k - upto)) := by omega
    have hlt : align + (k - upto) < RFS_BLKSIZE := by omega
    rw [if_pos hk, if_pos hk.2, State.byte, hoff, Nat.mul_add_div (by decide), Nat.div_eq_of_lt hlt,
      Nat.mul_add_mod, Nat.mod_eq_of_lt hlt, Nat.add_zero]
  · rw [if_neg hk]
    by_cases hk' : k < upto
    · rw [if_pos hk', if_pos (by omega)]
    · rw [if_neg hk', if_neg (by omega)]

theorem State.bytes_zero (x : Dinode) (off : ℕ) : s.bytes x off 0 = fun _ => 0 := by
  funext k
  exact if_neg (Nat.not_lt_zero k)

/-! ## The phases -/

/-- **The loop over the complete blocks**, by induction on their number: each round puts one more
block behind the bytes gathered before. -/
theorem readLoopT_spec {off upto : ℕ} (h : FileAt s v x) (hb : b + n ≤ x.blocks)
    (hoff : off + upto = RFS_BLKSIZE * b) :
    Spec (· < x.blocks) (readLoopT x.toDinode n upto b (s.bytes x.toDinode off upto)) s
      (fun r s' => SameButBuffer s s' ∧
        r = (s.bytes x.toDinode off (upto + RFS_BLKSIZE * n), upto + RFS_BLKSIZE * n, b + n))
      fun _ => False := by
  induction n generalizing s upto b with
  | zero => exact .pure ⟨.refl s, rfl⟩
  | succ n ih =>
    rw [readLoopT]
    have hread := h.read_block (b := b) (by omega)
    refine .bind hread fun _ s₁ hs₁ => ?_
    subst hs₁
    refine .bind_get ?_
    have hblit : (s.bytes x.toDinode off upto).blit upto (s.disk (x.addrs b)) 0 RFS_BLKSIZE =
        s.bytes x.toDinode off (upto + RFS_BLKSIZE) := State.bytes_blit (by omega) hoff
    have hrest := ih (b := b + 1) (h.buffer (s.disk (x.addrs b))) (by omega)
      (show off + (upto + RFS_BLKSIZE) = RFS_BLKSIZE * (b + 1) by rw [Nat.mul_succ]; omega)
    have hlen : upto + RFS_BLKSIZE + RFS_BLKSIZE * n = upto + RFS_BLKSIZE * (n + 1) := by
      rw [Nat.mul_succ]
      omega
    rw [hlen, Nat.add_right_comm b 1 n] at hrest
    rw [hblit]
    refine hrest.mono fun r s' hr => ⟨?_, hr.2⟩
    exact SameButBuffer.trans ⟨_, rfl⟩ hr.1

/-- What is behind the first block: the complete blocks and the rest. -/
theorem readRestT_spec {off len align times : ℕ} (h : FileAt s v x) (hsize : off + len ≤ x.size)
    (halign : off = RFS_BLKSIZE * b + align) (hlt : align < RFS_BLKSIZE)
    (htimes : times = (align + len) / RFS_BLKSIZE) :
    Spec (· < x.blocks)
      (readRestT x.toDinode times ((align + len) % RFS_BLKSIZE) (firstLen times align len) b
        (s.bytes x.toDinode off (firstLen times align len))) s
      (fun r s' => SameButBuffer s s' ∧ r = s.bytes x.toDinode off len) fun _ => False := by
  have hcover := h.file.size_le
  have hdiv := Nat.div_add_mod (align + len) RFS_BLKSIZE
  rw [readRestT]
  by_cases hzero : times = 0
  · rw [if_pos hzero, firstLen, if_pos hzero]
    exact .pure ⟨.refl s, rfl⟩
  rw [if_neg hzero, firstLen, if_neg hzero]
  rw [← htimes] at hdiv
  obtain ⟨n, rfl⟩ : ∃ n, times = n + 1 := ⟨times - 1, by omega⟩
  rw [Nat.add_sub_cancel]
  have hmod : (align + len) % RFS_BLKSIZE < RFS_BLKSIZE := Nat.mod_lt _ (by decide)
  generalize (align + len) % RFS_BLKSIZE = remain at hdiv hmod ⊢
  rw [Nat.mul_succ] at hdiv
  have hend : off + (RFS_BLKSIZE - align + RFS_BLKSIZE * n) = RFS_BLKSIZE * (b + 1 + n) := by
    rw [Nat.mul_add, Nat.mul_succ]
    omega
  have hlen : RFS_BLKSIZE - align + RFS_BLKSIZE * n + remain = len := by omega
  have hblocks : RFS_BLKSIZE * (b + 1 + n) + remain ≤ RFS_BLKSIZE * x.blocks := by omega
  have hle : b + 1 + n ≤ x.blocks :=
    Nat.le_of_mul_le_mul_left (by omega) (show 0 < RFS_BLKSIZE by decide)
  have hloop := readLoopT_spec h hle (show off + (RFS_BLKSIZE - align) =
    RFS_BLKSIZE * (b + 1) by rw [Nat.mul_succ]; omega)
  refine .bind hloop fun r s₁ hr => ?_
  obtain ⟨⟨buf, rfl⟩, rfl⟩ := hr
  dsimp only
  by_cases hremain : remain = 0
  · rw [if_pos hremain]
    rw [hremain, Nat.add_zero] at hlen
    exact .pure ⟨⟨buf, rfl⟩, by rw [hlen]⟩
  · rw [if_neg hremain]
    have hlast : b + 1 + n < x.blocks := Nat.lt_of_mul_lt_mul_left (a := RFS_BLKSIZE) (by omega)
    have hread := (h.buffer buf).read_block hlast
    refine .bind hread fun _ s₂ hs₂ => ?_
    subst hs₂
    refine .bind_get (.pure ⟨⟨_, rfl⟩, ?_⟩)
    rw [← hlen]
    exact State.bytes_blit (by rw [Nat.zero_add]; omega) hend

/-- `rfs_read` from an offset inside the file. -/
theorem rfsReadT_spec (h : FileAt s v x) (hoff : offset < x.size) (len : ℕ) :
    Spec (· < x.blocks) (rfsReadT v len offset) s
      (fun r s' => SameButBuffer s s' ∧
        r = (min len (x.size - offset), s.bytes x.toDinode offset (min len (x.size - offset)),
          offset + min len (x.size - offset))) fun _ => False := by
  have hlen : readLen x.toDinode len offset = min len (x.size - offset) := by
    rw [readLen]
    split <;> omega
  rw [rfsReadT]
  refine h.bind_vinodeT ?_
  rw [if_neg (by omega)]
  dsimp only
  rw [hlen]
  generalize hn : min len (x.size - offset) = n
  have hmod : offset % RFS_BLKSIZE < RFS_BLKSIZE := Nat.mod_lt _ (by decide)
  have hdiv := Nat.div_add_mod offset RFS_BLKSIZE
  refine .bind (h.read_block (h.block_lt hoff)) fun _ s₁ hs₁ => ?_
  subst hs₁
  refine .bind_get ?_
  have hfits : offset % RFS_BLKSIZE + firstLen ((offset % RFS_BLKSIZE + n) / RFS_BLKSIZE)
      (offset % RFS_BLKSIZE) n ≤ RFS_BLKSIZE := by
    rw [firstLen]
    split
    · rename_i hzero
      have := Nat.lt_of_div_eq_zero (show 0 < RFS_BLKSIZE by decide) hzero
      omega
    · omega
  have hfirst := State.bytes_blit (s := s) (x := x.toDinode) hfits
    (show offset + 0 = _ from hdiv.symm)
  rw [State.bytes_zero, Nat.zero_add] at hfirst
  rw [hfirst]
  have hsize : offset + n ≤ x.size := by omega
  have hrest := readRestT_spec (h.buffer (s.disk (x.addrs (offset / RFS_BLKSIZE)))) hsize
    hdiv.symm hmod rfl
  refine .bind hrest fun r s₁ hr => .pure ⟨?_, ?_⟩
  · exact SameButBuffer.trans ⟨_, rfl⟩ hr.1
  · rw [hr.2]
    rfl

/-- **Reading a file is exact**: `rfs_read` reads blocks of the file only, returns the number of
bytes from the offset up to the end of the file or the length asked for, with these bytes in its
buffer, and moves the offset behind them. -/
theorem rfsRead_exact (h : FileAt s v x) (hoff : offset < x.size) (len : ℕ) :
    Emits (· < x.blocks) (rfsReadT v len offset) s ∧
      ∃ n s', n = min len (x.size - offset) ∧
        rfsRead s v len offset = .ok ((n, s.bytes x.toDinode offset n, offset + n), s') ∧
        SameButBuffer s s' := by
  have hspec := rfsReadT_spec h hoff len
  have hsat := hspec.sat
  rw [snd_rfsReadT] at hsat
  refine ⟨hspec.emits, min len (x.size - offset), ?_⟩
  cases hread : rfsRead s v len offset with
  | error e =>
    rw [hread] at hsat
    exact hsat.elim
  | ok r =>
    rw [hread] at hsat
    obtain ⟨hs, hr⟩ := hsat
    exact ⟨r.2, rfl, by rw [← hr], hs⟩

/-! ## A file to try it on -/

/-- A file of a size in the blocks from 20 on. -/
def sampleFile (size blocks : ℕ) : Vinode :=
  { size := size, type := FILE_I, nlinks := 1, blocks := blocks, addrs := fun k => 20 + k,
    inum := 1, ref := 1, iFsInfo := none, sb := .rfs }

/-- A state with the file `x` as its only object. -/
def sampleState (x : Vinode) : State :=
  { disk := fun b k => UInt8.ofNat (b + k), iobuffer := fun _ => 0, pages := 1,
    pageAddr := fun k => k,
    sb := { magic := RFS_MAGIC, size := 112, nblocks := dataBlocks, ninodes := 10, sRoot := 0 },
    freemap := fun k => if k < 18 then 1 else 0, vfsRootDentry := 0, dentries := fun _ => none,
    vinodes := fun v => if v = 0 then some x else none, files := ∅, dentryHashTable := ∅,
    vinodeHashTable := ∅ }

theorem sample_fileAt {size blocks : ℕ} (hsize : size ≤ RFS_BLKSIZE * blocks)
    (hblocks : blocks ≤ RFS_DIRECT_BLKNUM) :
    FileAt (sampleState (sampleFile size blocks)) 0 (sampleFile size blocks) where
  vinode := rfl
  file := ⟨rfl, hblocks, hsize⟩
  data b hb := by
    obtain ⟨k, hk, rfl⟩ := Dinode.mem_blks.1 hb
    have hk' : k < 10 := hk.trans_le hblocks
    refine ⟨?_, ?_⟩ <;>
      simp only [sampleFile, RFS_BLK_OFFSET_FREE, dataBlocks, RFS_MAX_INODE_BLKNUM,
        RFS_DIRECT_BLKNUM] <;> omega

/-- Reading 6000 bytes from the offset 100 of a file of 5000 bytes. -/
theorem rfsRead_exact_sample :
    Emits (· < 2) (rfsReadT 0 6000 100) (sampleState (sampleFile 5000 2)) ∧
      ∃ s', rfsRead (sampleState (sampleFile 5000 2)) 0 6000 100 =
        .ok ((4900, (sampleState (sampleFile 5000 2)).bytes
          (sampleFile 5000 2).toDinode 100 4900, 5000),
          s') := by
  have hfile := sample_fileAt (show 5000 ≤ RFS_BLKSIZE * 2 by decide) (by decide)
  obtain ⟨hemits, n, s', rfl, hread, -⟩ := rfsRead_exact hfile (show 100 < 5000 by decide) 6000
  exact ⟨hemits, s', hread⟩

end HustOS.Fs
