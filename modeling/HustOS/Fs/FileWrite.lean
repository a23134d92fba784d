import HustOS.Fs.FileRead

/-!
# Overwriting a file

`rfs_write` goes through the blocks of the file from the one at the offset on. What it has put into
them so far, and what the buffer of the device holds meanwhile, is `Patched`; every block adds to it
(`writeBlockT_spec`), so a whole write leaves the bytes `written` in the file (`rfsWriteT_spec`).
They are the bytes asked for, except behind the new data in the last block: that block is not read
before it is written, and gets there what the buffer held before.
-/

namespace HustOS.Fs

open Foundations Traced

variable {s s' s₁ : State} {v i b n offset len : ℕ} {x x₁ : Vinode} {buf : Buf}

/-- The blocks of the file are its own: they are distinct and taken in the bitmap. -/
structure Allocated (s : State) (v : ℕ) (x : Vinode) : Prop extends FileAt s v x where
  nodup : x.blks.Nodup
  marked : ∀ b ∈ x.blks, s.freemap (b - RFS_BLK_OFFSET_FREE) ≠ 0
  nblocks : s.sb.nblocks = dataBlocks

/-- The files of a run are such files. -/
theorem Inv.allocated (h : Inv s) (hc : Cached s i v x) (hx : x.type = FILE_I) :
    Allocated s v x := by
  have hnode := h.node_eq hc
  have huse : (s.vol.node i).type ≠ R_FREE := by
    rw [hnode, hx]
    decide
  refine ⟨h.fileAt hc hx, hnode ▸ h.good.owned.nodup i huse, fun b hb => ?_, h.nblocks⟩
  exact (mem_used.1 (h.good.owned.mem i huse b (hnode ▸ hb))).2

/-- `rfs_alloc_block` finds no free block. -/
abbrev noFreeBlock : Fault := .panic "rfs_alloc_block: no more free block!\n"

namespace Allocated

/-- Different blocks of the file are different blocks of the disk. -/
theorem addrs_ne (h : Allocated s v x) {c : ℕ} (hb : b < x.blocks) (hc : c < x.blocks)
    (hne : b ≠ c) :
    x.addrs b ≠ x.addrs c := by
  intro heq
  exact hne (List.inj_on_of_nodup_map h.nodup (List.mem_range.2 hb) (List.mem_range.2 hc) heq)

/-- A state with the same bitmap has the same file. -/
theorem congr (h : Allocated s v x) (hv : s'.vinodes = s.vinodes) (hf : s'.freemap = s.freemap)
    (hsb : s'.sb = s.sb) : Allocated s' v x :=
  ⟨⟨hv ▸ h.vinode, h.file, h.data⟩, h.nodup, hf ▸ h.marked, hsb ▸ h.nblocks⟩

/-- The file with a free block behind its last one. -/
theorem grow (h : Allocated s v x) {k : ℕ} (hk : k < dataBlocks) (hfree : s.freemap k = 0)
    (hlt : x.blocks < RFS_DIRECT_BLKNUM) :
    Allocated
      (State.setVinode { s with freemap := Function.update s.freemap k 1 } v
        { x with addrs := Function.update x.addrs x.blocks (RFS_BLK_OFFSET_FREE + k)
                 blocks := x.blocks + 1 }) v
      { x with addrs := Function.update x.addrs x.blocks (RFS_BLK_OFFSET_FREE + k)
               blocks := x.blocks + 1 } := by
  have hblks := blks_grow x.toDinode (RFS_BLK_OFFSET_FREE + k)
  have hfresh : RFS_BLK_OFFSET_FREE + k ∉ x.blks := by
    intro hmem
    refine h.marked _ hmem ?_
    rw [Nat.add_sub_cancel_left]
    exact hfree
  have hcover := h.file.size_le
  refine ⟨⟨Function.update_self _ _ _, ⟨h.file.type, hlt, ?_⟩, ?_⟩, ?_, ?_, h.nblocks⟩
  · exact hcover.trans (Nat.mul_le_mul_left _ (Nat.le_succ _))
  · intro b hb
    rw [hblks, List.mem_append, List.mem_singleton] at hb
    obtain hb | rfl := hb
    · exact h.data b hb
    · exact ⟨Nat.le_add_right _ _, Nat.add_lt_add_left hk _⟩
  · rw [hblks, List.nodup_append]
    refine ⟨h.nodup, List.nodup_singleton _, ?_⟩
    intro b hb c hc
    rw [List.mem_singleton.1 hc]
    rintro rfl
    exact hfresh hb
  · intro b hb
    rw [hblks, List.mem_append, List.mem_singleton] at hb
    change Function.update s.freemap k 1 _ ≠ 0
    by_cases hbk : b - RFS_BLK_OFFSET_FREE = k
    · rw [hbk, Function.update_self]
      decide
    · rw [Function.update_of_ne hbk]
      obtain hb | rfl := hb
      · exact h.marked b hb
      · exact absurd (Nat.add_sub_cancel_left _ _) hbk

end Allocated

/-! ## Growing -/

/-- The file with the blocks before `n`, its size and its blocks as before. -/
structure Grown (s : State) (v : ℕ) (x : Vinode) (n : ℕ) (s' : State) (x' : Vinode) : Prop where
  file : Allocated s' v x'
  size : x'.size = x.size
  blocks : x'.blocks = max x.blocks n
  addrs : ∀ k, k < x.blocks ∨ n ≤ k → x'.addrs k = x.addrs k
  disk : s'.disk = s.disk
  iobuffer : s'.iobuffer = s.iobuffer

/-- The block behind the last one is allocated before it is written. -/
theorem growToT_spec (h : Allocated s v x) (hb : b ≤ x.blocks) (hlt : b < RFS_DIRECT_BLKNUM) :
    Spec (· < RFS_DIRECT_BLKNUM) (growToT v b) s (fun _ s' => ∃ x', Grown s v x (b + 1) s' x')
      fun e => e = noFreeBlock ∧ x.blocks ≤ b := by
  rw [growToT]
  refine h.bind_vinodeT ?_
  by_cases hlast : b = x.blocks
  · subst hlast
    rw [if_pos rfl]
    have halloc : Spec (· < RFS_DIRECT_BLKNUM) (Traced.lift rfsAllocBlock : Blocks ℕ) s
        (fun block s₁ => ∃ k < dataBlocks, s.freemap k = 0 ∧ block = RFS_BLK_OFFSET_FREE + k ∧
          s₁ = { s with freemap := Function.update s.freemap k 1 })
        fun e => e = noFreeBlock ∧ x.blocks ≤ x.blocks := by
      refine .lift ((rfsAllocBlock_sat.mono' fun e he => ⟨he, Nat.le_refl _⟩).mono ?_)
      rintro _ ⟨k, hk, hfree, rfl⟩
      exact ⟨k, h.nblocks ▸ hk, hfree, rfl, rfl⟩
    refine halloc.bind fun block s₁ hs₁ => .emit hlt ?_
    obtain ⟨k, hk, hfree, rfl, rfl⟩ := hs₁
    rw [if_neg (Nat.not_le.2 hlt)]
    exact ⟨_, h.grow hk hfree hlt, rfl, (Nat.max_eq_right (Nat.le_succ _)).symm,
      fun j hj => Function.update_of_ne (by omega) _ _, rfl, rfl⟩
  · rw [if_neg hlast]
    exact .pure ⟨x, h, rfl, (Nat.max_eq_left (by omega)).symm, fun _ _ => rfl, rfl, rfl⟩

/-! ## Patching blocks -/

/-- The state `s'` inside a write that began in `s`: the blocks from `lo` up to `hi` of the file
hold the bytes `new`, the others what they held, and the buffer of the device holds the last block
written. -/
structure Patched (s : State) (v : ℕ) (x : Vinode) (lo hi : ℕ) (new : Buf) (s' : State)
    (x' : Vinode) :
    Prop where
  file : Allocated s' v x'
  size : x'.size = x.size
  blocks : x'.blocks = max x.blocks hi
  bytes : ∀ k, k / RFS_BLKSIZE < x'.blocks → s'.byte x'.toDinode k =
    if lo ≤ k / RFS_BLKSIZE ∧ k / RFS_BLKSIZE < hi then new k else s.byte x.toDinode k
  addrs : ∀ k, k < x.blocks ∨ hi ≤ k → x'.addrs k = x.addrs k
  buffer : ∀ t < RFS_BLKSIZE, s'.iobuffer t =
    if lo < hi then new (RFS_BLKSIZE * (hi - 1) + t) else s.iobuffer t

/-- Nothing is written yet. -/
theorem Patched.start (h : Allocated s v x) (hb : b ≤ x.blocks) (new : Buf) :
    Patched s v x b b new s x where
  file := h
  size := rfl
  blocks := (Nat.max_eq_left hb).symm
  bytes k _ := (if_neg (by omega)).symm
  addrs _ _ := rfl
  buffer _ _ := (if_neg (Nat.lt_irrefl b)).symm

/-- A block more. -/
theorem Patched.block {lo : ℕ} {new : Buf} {s₂ : State} {x₂ : Vinode}
    (hp : Patched s v x lo b new s₁ x₁) (hlo : lo ≤ b) (hg : Grown s₁ v x₁ (b + 1) s₂ x₂)
    (hbuf : ∀ t < RFS_BLKSIZE, buf t = new (RFS_BLKSIZE * b + t)) :
    Patched s v x lo (b + 1) new
      { s₂ with iobuffer := buf, disk := Function.update s₂.disk (x₂.addrs b) buf } x₂ := by
  have hblocks₁ := hp.blocks
  have hblocks₂ := hg.blocks
  refine ⟨hg.file.congr rfl rfl rfl, hg.size.trans hp.size, by omega, fun k hk => ?_,
    fun k hk => (hg.addrs k (by omega)).trans (hp.addrs k (by omega)), fun t ht => ?_⟩
  · change Function.update s₂.disk (x₂.addrs b) buf _ _ = _
    by_cases hkb : k / RFS_BLKSIZE = b
    · have hdiv := Nat.div_add_mod k RFS_BLKSIZE
      rw [hkb] at hdiv
      rw [hkb, Function.update_self, if_pos ⟨hlo, Nat.lt_succ_self b⟩,
        hbuf _ (Nat.mod_lt _ (by decide)), hdiv]
    · -- another block of the file, at its old place on the disk
      have hk₁ : k / RFS_BLKSIZE < x₁.blocks := by omega
      have hold := hp.bytes k hk₁
      rw [State.byte] at hold
      rw [Function.update_of_ne (hg.file.addrs_ne hk (by omega) hkb), hg.addrs _ (.inl hk₁),
        hg.disk, hold]
      refine if_congr ?_ rfl rfl
      omega
  · rw [if_pos (Nat.lt_succ_of_le hlo), Nat.add_sub_cancel]
    exact hbuf t ht

/-- **One block of a write**: the block is allocated when it is the one behind the last, and its
first `n` bytes come from the buffer of the call, the others from the buffer of the device. -/
theorem writeBlockT_spec {lo bufOffset : ℕ} {new wBuf : Buf} (hp : Patched s v x lo b new s₁ x₁)
    (hlo : lo ≤ b) (hlt : b < RFS_DIRECT_BLKNUM)
    (hnew : ∀ t < RFS_BLKSIZE,
      (s₁.iobuffer.blit 0 wBuf bufOffset n) t = new (RFS_BLKSIZE * b + t)) :
    Spec (· < RFS_DIRECT_BLKNUM) (writeBlockT v b wBuf bufOffset n) s₁
      (fun _ s' => ∃ x', Patched s v x lo (b + 1) new s' x')
          fun e => e = noFreeBlock ∧ x.blocks ≤ b := by
  have hblocks := hp.blocks
  have hgrow := (growToT_spec hp.file (by omega) hlt).mono' fun e he =>
    (⟨he.1, by omega⟩ : e = noFreeBlock ∧ x.blocks ≤ b)
  rw [writeBlockT]
  refine hgrow.bind fun _ s₂ hs₂ => bind_quietly rfl ?_
  obtain ⟨x₂, hg⟩ := hs₂
  have hblocks₂ := hg.blocks
  have hfile : FileAt { s₂ with iobuffer := s₂.iobuffer.blit 0 wBuf bufOffset n } v x₂ :=
    hg.file.toFileAt.buffer _
  refine hfile.bind_vinodeT (.emit hlt ?_)
  rw [hfile.addr (by omega), ok_bind, rfsW1block_eq (hfile.lt_count (by omega)), hg.iobuffer]
  have hnext := hp.block hlo hg hnew
  exact ⟨x₂, hnext⟩

/-- **The loop over the complete blocks**, by induction on their number. -/
theorem writeLoopT_spec {lo bufOffset : ℕ} {new wBuf : Buf} (hp : Patched s v x lo b new s₁ x₁)
    (hlo : lo ≤ b) (hlt : b + n ≤ RFS_DIRECT_BLKNUM)
    (hnew : ∀ t < RFS_BLKSIZE * n, wBuf (bufOffset + t) = new (RFS_BLKSIZE * b + t)) :
    Spec (· < RFS_DIRECT_BLKNUM) (writeLoopT v wBuf n bufOffset b) s₁
      (fun r s' => r = (bufOffset + RFS_BLKSIZE * n, b + n) ∧
        ∃ x', Patched s v x lo (b + n) new s' x') fun e => e = noFreeBlock ∧ x.blocks < b + n := by
  induction n generalizing s₁ x₁ b bufOffset with
  | zero => exact .pure ⟨rfl, x₁, hp⟩
  | succ n ih =>
    rw [writeLoopT]
    have hwhole : ∀ t < RFS_BLKSIZE,
        (s₁.iobuffer.blit 0 wBuf bufOffset RFS_BLKSIZE) t = new (RFS_BLKSIZE * b + t) := by
      intro t ht
      rw [Buf.blit, if_pos (by omega), Nat.sub_zero]
      exact hnew t (by rw [Nat.mul_succ]; omega)
    have hblock := writeBlockT_spec hp hlo (by omega) hwhole
    refine (hblock.mono' fun e he => ⟨he.1, by omega⟩).bind fun _ s₂ hs₂ => ?_
    obtain ⟨x₂, hp₂⟩ := hs₂
    have hnext : ∀ t < RFS_BLKSIZE * n,
        wBuf (bufOffset + RFS_BLKSIZE + t) = new (RFS_BLKSIZE * (b + 1) + t) := by
      intro t ht
      have hstep := hnew (RFS_BLKSIZE + t) (by rw [Nat.mul_succ]; omega)
      rw [← Nat.add_assoc] at hstep
      rw [hstep, Nat.mul_succ, Nat.add_assoc]
    have hrest := ih hp₂ (by omega) (by omega) hnext
    have hlen : bufOffset + RFS_BLKSIZE + RFS_BLKSIZE * n = bufOffset + RFS_BLKSIZE * (n + 1) := by
      rw [Nat.mul_succ]
      omega
    rw [hlen, Nat.add_right_comm b 1 n] at hrest
    exact hrest

/-! ## The bytes of a write -/

/-- The bytes asked for: those of the file, with the buffer of the call from the offset on. -/
def State.edited (s : State) (x : Dinode) (wBuf : Buf) (len offset : ℕ) : Buf := fun k =>
  if offset ≤ k ∧ k < offset + len then wBuf (k - offset) else s.byte x k

/-- The write ends inside a block that it does not read before it writes it. -/
def EndsBlind (len offset : ℕ) : Prop :=
  0 < (offset + len) % RFS_BLKSIZE ∧
    (offset % RFS_BLKSIZE = 0 ∨ offset / RFS_BLKSIZE < (offset + len) / RFS_BLKSIZE)

instance (len offset : ℕ) : Decidable (EndsBlind len offset) := inferInstanceAs (Decidable (_ ∧ _))

/-- What the buffer of the device holds when the last block is written: the block before it, or,
when the write begins at this block, what it held before the call. -/
def State.leftover (s : State) (x : Dinode) (wBuf : Buf) (len offset : ℕ) : Buf := fun k =>
  if (offset + len) / RFS_BLKSIZE = offset / RFS_BLKSIZE then s.iobuffer (k % RFS_BLKSIZE)
  else s.edited x wBuf len offset (k - RFS_BLKSIZE)

/-- The bytes that a write leaves in the file. -/
def State.written (s : State) (x : Dinode) (wBuf : Buf) (len offset : ℕ) : Buf := fun k =>
  if EndsBlind len offset ∧ offset + len ≤ k ∧ k / RFS_BLKSIZE = (offset + len) / RFS_BLKSIZE then
    s.leftover x wBuf len offset k
  else s.edited x wBuf len offset k

section Bytes

variable {wBuf : Buf} {k : ℕ} {y : Dinode}

theorem written_of_lt (hk : k < offset) : s.written y wBuf len offset k = s.byte y k := by
  rw [State.written, if_neg (by omega), State.edited, if_neg (by omega)]

theorem written_of_mem (hk : k < len) : s.written y wBuf len offset (offset + k) = wBuf k := by
  rw [State.written, if_neg (by omega), State.edited, if_pos (by omega), Nat.add_sub_cancel_left]

theorem written_of_le (hk : offset + len ≤ k)
    (hends : ¬ EndsBlind len offset ∨ k / RFS_BLKSIZE ≠ (offset + len) / RFS_BLKSIZE) :
    s.written y wBuf len offset k = s.byte y k := by
  rw [State.written, if_neg (by rintro ⟨h, -, h'⟩; exact hends.elim (absurd h) (absurd h')),
    State.edited, if_neg (by omega)]

theorem written_of_blind (hends : EndsBlind len offset) (hk : offset + len ≤ k)
    (hb : k / RFS_BLKSIZE = (offset + len) / RFS_BLKSIZE) :
    s.written y wBuf len offset k = s.leftover y wBuf len offset k :=
  if_pos ⟨hends, hk, hb⟩

/-- Before the block it ends in, a write leaves the bytes asked for. -/
theorem written_of_block (hk : k / RFS_BLKSIZE < (offset + len) / RFS_BLKSIZE) :
    s.written y wBuf len offset k = s.edited y wBuf len offset k :=
  if_neg fun h => Nat.ne_of_lt hk h.2.2

end Bytes

/-! ## The phases -/

theorem Grown.refl (h : Allocated s v x) (hb : b ≤ x.blocks) : Grown s v x b s x :=
  ⟨h, rfl, (Nat.max_eq_left hb).symm, fun _ _ => rfl, rfl, rfl⟩

/-- The first block as `rfs_write` changes it. -/
theorem firstBlock_eq {wBuf : Buf} {y : Dinode} {t : ℕ} (halign : offset % RFS_BLKSIZE ≠ 0)
    (ht : t < RFS_BLKSIZE) :
    (s.disk (y.addrs (offset / RFS_BLKSIZE))).blit (offset % RFS_BLKSIZE) wBuf 0
        (firstLen ((len + offset % RFS_BLKSIZE) / RFS_BLKSIZE) (offset % RFS_BLKSIZE) len) t =
      s.written y wBuf len offset (RFS_BLKSIZE * (offset / RFS_BLKSIZE) + t) := by
  have hdiv := Nat.div_add_mod offset RFS_BLKSIZE
  have hmod : offset % RFS_BLKSIZE < RFS_BLKSIZE := Nat.mod_lt _ (by decide)
  have hbyte : s.byte y (RFS_BLKSIZE * (offset / RFS_BLKSIZE) + t) =
      s.disk (y.addrs (offset / RFS_BLKSIZE)) t := by
    rw [State.byte, Nat.mul_add_div (by decide), Nat.div_eq_of_lt ht, Nat.add_zero, Nat.mul_add_mod,
      Nat.mod_eq_of_lt ht]
  have hfirst : firstLen ((len + offset % RFS_BLKSIZE) / RFS_BLKSIZE) (offset % RFS_BLKSIZE) len =
      min len (RFS_BLKSIZE - offset % RFS_BLKSIZE) := by
    rw [firstLen]
    simp only [RFS_BLKSIZE, PGSIZE] at hmod ⊢
    split <;> omega
  rw [hfirst, Buf.blit]
  by_cases hin : offset % RFS_BLKSIZE ≤ t ∧
      t < offset % RFS_BLKSIZE + min len (RFS_BLKSIZE - offset % RFS_BLKSIZE)
  · have hpos : RFS_BLKSIZE * (offset / RFS_BLKSIZE) + t = offset + (t - offset % RFS_BLKSIZE) := by
      omega
    rw [if_pos hin, hpos, written_of_mem (by omega), Nat.zero_add]
  · rw [if_neg hin, ← hbyte]
    by_cases hlt : t < offset % RFS_BLKSIZE
    · exact (written_of_lt (by omega)).symm
    · -- behind the new data the block keeps its bytes, for the write ends in it
      have hle : offset + len ≤ RFS_BLKSIZE * (offset / RFS_BLKSIZE) + t := by omega
      refine (written_of_le hle (.inl ?_)).symm
      rintro ⟨-, hzero | hlast⟩
      · exact halign hzero
      · simp only [RFS_BLKSIZE, PGSIZE] at *
        omega

/-- A block of the file is read, changed and written. -/
theorem writeInsideT_spec (h : FileAt s v x) (hb : b < x.blocks) (wBuf : Buf) (align n : ℕ) :
    Spec (· < RFS_DIRECT_BLKNUM) (writeInsideT v wBuf b align n) s
      (fun _ s' => s' = { s with
        iobuffer := (s.disk (x.addrs b)).blit align wBuf 0 n
        disk := Function.update s.disk (x.addrs b) ((s.disk (x.addrs b)).blit align wBuf 0 n) })
      fun _ => False := by
  have hlt : b < RFS_DIRECT_BLKNUM := hb.trans_le h.file.blocks_le
  rw [writeInsideT]
  refine h.bind_vinodeT ?_
  have hread := (h.read_block hb).imp fun i (hi : i < x.blocks) => hi.trans_le h.file.blocks_le
  refine hread.bind fun _ s₁ hs₁ => ?_
  subst hs₁
  refine bind_quietly rfl (.emit hlt ?_)
  rw [h.addr hb, ok_bind, rfsW1block_eq (h.lt_count hb)]
  exact rfl

/-- The first block behind the end of a write. -/
abbrev endBlock (len offset : ℕ) : ℕ := (offset + len + (RFS_BLKSIZE - 1)) / RFS_BLKSIZE

/-- The first block, when the offset is inside it. -/
theorem writeFirstT_spec {wBuf : Buf} (h : Allocated s v x) (hoff : offset ≤ x.size) :
    Spec (· < RFS_DIRECT_BLKNUM) (writeFirstT v wBuf len offset) s
      (fun pos s' => pos.Follows len offset ∧
        (0 ≤ pos.writetimes → pos.bufOffset + offset = RFS_BLKSIZE * pos.blockOffset) ∧
        (pos.writetimes < 0 → pos.blockOffset = endBlock len offset) ∧
        ∃ x', Patched s v x (offset / RFS_BLKSIZE) pos.blockOffset
          (s.written x.toDinode wBuf len offset) s' x') fun _ => False := by
  have hcover := h.file.size_le
  have hblocks := h.file.blocks_le
  have hdiv := Nat.div_add_mod offset RFS_BLKSIZE
  have hmod : offset % RFS_BLKSIZE < RFS_BLKSIZE := Nat.mod_lt _ (by decide)
  rw [writeFirstT]
  by_cases halign : offset % RFS_BLKSIZE = 0
  · rw [if_neg (not_not.2 halign)]
    have hb : offset / RFS_BLKSIZE ≤ x.blocks := by
      simp only [RFS_BLKSIZE, PGSIZE] at *
      omega
    refine .pure ⟨?_, fun _ => by dsimp only; omega, fun hneg => ?_, x, .start h hb _⟩
    · simp only [WritePos.Follows, RFS_BLKSIZE, PGSIZE] at *
      split <;> omega
    · exact absurd hneg (Int.not_lt.2 (Int.natCast_nonneg _))
  · rw [if_pos halign]
    have hb : offset / RFS_BLKSIZE < x.blocks := by
      simp only [RFS_BLKSIZE, PGSIZE] at *
      omega
    have hinside := writeInsideT_spec h.toFileAt hb wBuf (offset % RFS_BLKSIZE)
      (firstLen ((len + offset % RFS_BLKSIZE) / RFS_BLKSIZE) (offset % RFS_BLKSIZE) len)
    refine hinside.bind fun _ s₁ hs₁ => ?_
    subst hs₁
    have hpatch := (Patched.start h (Nat.le_of_lt hb) (s.written x.toDinode wBuf len offset)).block
      (Nat.le_refl _) (.refl h hb) fun t ht => firstBlock_eq halign ht
    refine .pure ⟨?_, ?_, ?_, x, hpatch⟩
    · simp only [WritePos.Follows, RFS_BLKSIZE, PGSIZE] at *
      split <;> omega
    · intro htimes
      dsimp only at htimes ⊢
      rw [firstLen, if_neg (by omega), Nat.mul_succ]
      omega

    · intro hneg
      simp only [endBlock, RFS_BLKSIZE, PGSIZE] at *
      omega

/-- The last block as `rfs_write` writes it. -/
theorem lastBlock_eq {wBuf : Buf} {bufOffset remain t : ℕ}
    (hp : Patched s v x (offset / RFS_BLKSIZE) b (s.written x.toDinode wBuf len offset) s₁ x₁)
    (hlo : offset / RFS_BLKSIZE ≤ b) (hbuf : bufOffset + offset = RFS_BLKSIZE * b)
    (hend : offset + len = RFS_BLKSIZE * b + remain) (hpos : 0 < remain)
      (hlt : remain < RFS_BLKSIZE)
    (ht : t < RFS_BLKSIZE) :
    (s₁.iobuffer.blit 0 wBuf bufOffset remain) t =
      s.written x.toDinode wBuf len offset (RFS_BLKSIZE * b + t) := by
  rw [Buf.blit]
  by_cases hin : t < remain
  · have hk : RFS_BLKSIZE * b + t = offset + (bufOffset + t) := by omega
    rw [if_pos (by omega), Nat.sub_zero, hk, written_of_mem (by omega)]
  · rw [if_neg (by omega), hp.buffer t ht]
    have hdiv : (offset + len) / RFS_BLKSIZE = b := by
      rw [hend, Nat.mul_add_div (by decide), Nat.div_eq_of_lt hlt, Nat.add_zero]
    have hmod : (offset + len) % RFS_BLKSIZE = remain := by
      rw [hend, Nat.mul_add_mod, Nat.mod_eq_of_lt hlt]
    have hkdiv : (RFS_BLKSIZE * b + t) / RFS_BLKSIZE = b := by
      rw [Nat.mul_add_div (by decide), Nat.div_eq_of_lt ht, Nat.add_zero]
    have hblind : EndsBlind len offset := by
      refine ⟨by omega, ?_⟩
      rw [hdiv]
      simp only [RFS_BLKSIZE, PGSIZE] at *
      omega
    rw [written_of_blind hblind (by omega) (hkdiv.trans hdiv.symm), State.leftover, hdiv]
    by_cases hfirst : offset / RFS_BLKSIZE < b
    · have hb : 0 < b := Nat.zero_lt_of_lt hfirst
      have hk : RFS_BLKSIZE * b + t - RFS_BLKSIZE = RFS_BLKSIZE * (b - 1) + t := by
        have hone : RFS_BLKSIZE * 1 ≤ RFS_BLKSIZE * b := Nat.mul_le_mul_left _ hb
        rw [Nat.mul_sub_one]
        omega
      have hbefore : (RFS_BLKSIZE * (b - 1) + t) / RFS_BLKSIZE < (offset + len) / RFS_BLKSIZE := by
        rw [Nat.mul_add_div (by decide), Nat.div_eq_of_lt ht, hdiv]
        omega
      rw [if_pos hfirst, if_neg (by omega), hk, written_of_block hbefore]
    · rw [if_neg hfirst, if_pos (by omega), Nat.mul_add_mod, Nat.mod_eq_of_lt ht]

/-- What is behind the first block: the complete blocks and the rest. -/
theorem writeRestT_spec {wBuf : Buf} {pos : WritePos} (hpos : pos.Follows len offset)
    (hbuf : 0 ≤ pos.writetimes → pos.bufOffset + offset = RFS_BLKSIZE * pos.blockOffset)
    (hneg : pos.writetimes < 0 → pos.blockOffset = endBlock len offset)
    (hlen : offset + len ≤ RFS_BLKSIZE * RFS_DIRECT_BLKNUM)
    (hp : Patched s v x (offset / RFS_BLKSIZE) pos.blockOffset
      (s.written x.toDinode wBuf len offset)
      s₁ x₁) :
    Spec (· < RFS_DIRECT_BLKNUM)
      (writeRestT v wBuf pos ((len + offset % RFS_BLKSIZE) % RFS_BLKSIZE)) s₁
      (fun _ s' => ∃ x', Patched s v x (offset / RFS_BLKSIZE) (endBlock len offset)
        (s.written x.toDinode wBuf len offset) s' x')
      fun e => e = noFreeBlock ∧ x.blocks < endBlock len offset := by
  rw [writeRestT]
  by_cases htimes : 0 ≤ pos.writetimes
  · rw [if_pos htimes]
    rw [WritePos.Follows, if_pos htimes] at hpos
    have hstart := hbuf htimes
    have hlt : (len + offset % RFS_BLKSIZE) % RFS_BLKSIZE < RFS_BLKSIZE := Nat.mod_lt _ (by decide)
    generalize (len + offset % RFS_BLKSIZE) % RFS_BLKSIZE = remain at hpos hlt ⊢
    generalize pos.writetimes.toNat = n at hpos ⊢
    generalize pos.blockOffset = b at *
    have hlo : offset / RFS_BLKSIZE ≤ b := by
      refine Nat.div_le_of_le_mul ?_
      omega
    rw [Nat.mul_add] at hpos
    have hnew : ∀ t < RFS_BLKSIZE * n, wBuf (pos.bufOffset + t) =
        s.written x.toDinode wBuf len offset (RFS_BLKSIZE * b + t) := by
      intro t ht
      have hk : RFS_BLKSIZE * b + t = offset + (pos.bufOffset + t) := by omega
      rw [hk, written_of_mem (by omega)]
    have hend : endBlock len offset = if remain = 0 then b + n else b + n + 1 := by
      simp only [endBlock, RFS_BLKSIZE, PGSIZE] at *
      split <;> omega
    have hfits : b + n ≤ RFS_DIRECT_BLKNUM := by
      simp only [RFS_BLKSIZE, PGSIZE] at *
      omega
    have hloop := writeLoopT_spec hp hlo hfits hnew
    refine (hloop.mono' fun e he => ⟨he.1, by split at hend <;> omega⟩).bind fun r s₂ hs₂ => ?_
    obtain ⟨rfl, x₂, hp₂⟩ := hs₂
    dsimp only
    by_cases hremain : remain = 0
    · rw [if_pos hremain] at hend
      rw [if_neg (by omega), hend]
      exact .pure ⟨x₂, hp₂⟩
    · rw [if_neg hremain] at hend
      rw [if_pos (by omega), hend]
      have hstart₂ : pos.bufOffset + RFS_BLKSIZE * n + offset = RFS_BLKSIZE * (b + n) := by
        rw [Nat.mul_add]
        omega
      have hlast₂ : offset + len = RFS_BLKSIZE * (b + n) + remain := by
        rw [Nat.mul_add]
        omega
      have hlast := writeBlockT_spec hp₂ (by omega) (by simp only [RFS_BLKSIZE, PGSIZE] at *; omega)
        fun t ht => lastBlock_eq hp₂ (by omega) hstart₂ hlast₂ (by omega) hlt ht
      exact hlast.mono' fun e he => ⟨he.1, by omega⟩
  · rw [if_neg htimes]
    rw [hneg (by omega)] at hp
    exact .pure ⟨x₁, hp⟩

/-- The file after a write from `s`: it holds the bytes `new`, has the size and the blocks for them,
and its blocks are its own. -/
structure Wrote (s : State) (v : ℕ) (x : Vinode) (wBuf : Buf) (len offset : ℕ) (s' : State)
    (x' : Vinode) : Prop where
  file : Allocated s' v x'
  size : x'.size = max x.size (offset + len)
  blocks : x'.blocks = max x.blocks (endBlock len offset)
  addrs : ∀ k, k < x.blocks ∨ endBlock len offset ≤ k → x'.addrs k = x.addrs k
  bytes : ∀ k, k / RFS_BLKSIZE < x'.blocks →
    s'.byte x'.toDinode k = s.written x.toDinode wBuf len offset k

/-- The end of a write: the blocks that it did not come to keep their bytes, and the file gets its
size. -/
theorem Patched.finish {wBuf : Buf}
    (hp : Patched s v x (offset / RFS_BLKSIZE) (endBlock len offset)
      (s.written x.toDinode wBuf len offset) s₁ x₁) :
    Wrote s v x wBuf len offset
      (s₁.setVinode v { x₁ with size := if x₁.size < offset + len then offset + len else x₁.size })
      { x₁ with size := if x₁.size < offset + len then offset + len else x₁.size } := by
  have hblocks := hp.blocks
  have hcover := hp.file.file.size_le
  have hmax : (if x₁.size < offset + len then offset + len else x₁.size) =
      max x.size (offset + len) := by
    rw [hp.size]
    split <;> omega
  refine ⟨⟨⟨Function.update_self _ _ _, ⟨hp.file.file.type, hp.file.file.blocks_le, ?_⟩,
    hp.file.data⟩,
    hp.file.nodup, hp.file.marked, hp.file.nblocks⟩, hmax, hp.blocks, hp.addrs, fun k hk => ?_⟩
  · dsimp only
    simp only [endBlock, RFS_BLKSIZE, PGSIZE] at *
    split <;> omega
  · refine (hp.bytes k hk).trans ?_
    by_cases hin : offset / RFS_BLKSIZE ≤ k / RFS_BLKSIZE ∧ k / RFS_BLKSIZE < endBlock len offset
    · exact if_pos hin
    rw [if_neg hin]
    by_cases hlt : k < offset
    · exact (written_of_lt hlt).symm
    · refine (written_of_le ?_ ?_).symm
      · simp only [endBlock, RFS_BLKSIZE, PGSIZE] at *
        omega
      · by_cases hblock : k / RFS_BLKSIZE = (offset + len) / RFS_BLKSIZE
        · left
          rintro ⟨hpos, -⟩
          simp only [endBlock, RFS_BLKSIZE, PGSIZE] at *
          omega
        · exact .inr hblock

/-- **`rfs_write`** up to the limit of the inode: it indexes `addrs` in range, and writes the file
or finds no free block for it. -/
theorem rfsWriteT_spec (h : Allocated s v x) (hoff : offset ≤ x.size)
    (hlen : offset + len ≤ RFS_BLKSIZE * RFS_DIRECT_BLKNUM) (wBuf : Buf) :
    Spec (· < RFS_DIRECT_BLKNUM) (rfsWriteT v wBuf len offset) s
      (fun r s' => r = (len, offset + len) ∧ ∃ x', Wrote s v x wBuf len offset s' x')
      fun e => e = noFreeBlock ∧ x.blocks < endBlock len offset := by
  rw [rfsWriteT]
  refine h.bind_vinodeT ?_
  rw [if_neg (by omega)]
  refine (writeFirstT_spec h hoff).total.bind fun pos s₁ hs₁ => ?_
  obtain ⟨hpos, hbuf, hneg, x₁, hp₁⟩ := hs₁
  refine (writeRestT_spec hpos hbuf hneg hlen hp₁).bind fun _ s₂ hs₂ => ?_
  obtain ⟨x₂, hp₂⟩ := hs₂
  exact hp₂.file.bind_vinodeT (bind_quietly rfl (.pure ⟨rfl, _, hp₂.finish⟩))

/-- `rfs_write` up to the limit of the inode, without the trace. -/
theorem rfsWrite_wrote (h : Allocated s v x) (hoff : offset ≤ x.size)
    (hlen : offset + len ≤ RFS_BLKSIZE * RFS_DIRECT_BLKNUM) (wBuf : Buf) :
    Sat (rfsWrite s v wBuf len offset)
      (fun r => r.1 = (len, offset + len) ∧ ∃ x', Wrote s v x wBuf len offset r.2 x')
      fun e => e = noFreeBlock ∧ x.blocks < endBlock len offset := by
  rw [← snd_rfsWriteT]
  exact (rfsWriteT_spec h hoff hlen wBuf).sat

/-! ## Past the limit -/

/-- Any computation, as to what it emits and how it fails. -/
abbrev Stops {α : Type} (c : Blocks α) (s : State) (Q : α → State → Prop) : Prop :=
  Spec (fun _ => True) c s Q fun _ => True

theorem Stops.of {α : Type} {P : ℕ → Prop} {c : Blocks α} {Q : α → State → Prop} {E : Fault → Prop}
    (h : Spec P c s Q E) : Stops c s Q :=
  (h.imp fun _ _ => trivial).mono' fun _ _ => trivial

/-- There is no block behind the tenth. -/
theorem writeBlockT_past (h : Allocated s v x) (hb : RFS_DIRECT_BLKNUM ≤ x.blocks) (wBuf : Buf)
    (bufOffset n : ℕ) :
    Stops (writeBlockT v RFS_DIRECT_BLKNUM wBuf bufOffset n) s fun _ _ => False := by
  have hlast : RFS_DIRECT_BLKNUM = x.blocks := Nat.le_antisymm hb h.file.blocks_le
  have hgrow : Stops (growToT v RFS_DIRECT_BLKNUM) s fun _ _ => False := by
    rw [growToT]
    refine h.bind_vinodeT ?_
    rw [if_pos hlast]
    refine .bind (Q := fun _ _ => True) (.lift ?_) fun block s₁ _ => .emit trivial ?_
    · exact (rfsAllocBlock_sat.mono fun _ _ => trivial).mono' fun _ _ => trivial
    · rw [if_pos (Nat.le_refl _)]
      exact trivial
  rw [writeBlockT]
  exact hgrow.bind fun _ _ hs => hs.elim

/-- A block below the limit is written, or there is none for it. -/
theorem writeBlockT_below (h : Allocated s v x) (hb : b ≤ x.blocks) (hlt : b < RFS_DIRECT_BLKNUM)
    (wBuf : Buf) (bufOffset n : ℕ) :
    Stops (writeBlockT v b wBuf bufOffset n) s
      fun _ s' => ∃ x', Allocated s' v x' ∧ b + 1 ≤ x'.blocks := by
  have hstart := Patched.start h hb
    fun k => (s.iobuffer.blit 0 wBuf bufOffset n) (k - RFS_BLKSIZE * b)
  have hnew : ∀ t < RFS_BLKSIZE, (s.iobuffer.blit 0 wBuf bufOffset n) t =
      (s.iobuffer.blit 0 wBuf bufOffset n) (RFS_BLKSIZE * b + t - RFS_BLKSIZE * b) := fun t _ => by
    rw [Nat.add_sub_cancel_left]
  have hblock := writeBlockT_spec hstart (Nat.le_refl b) hlt hnew
  refine (Stops.of hblock).mono ?_
  rintro _ s' ⟨x', hp⟩
  exact ⟨x', hp.file, by rw [hp.blocks]; exact Nat.le_max_right _ _⟩

/-- The loop never comes past the limit, by induction on the blocks left. -/
theorem writeLoopT_past (h : Allocated s v x) (hb : b ≤ x.blocks) (wBuf : Buf) (n bufOffset : ℕ) :
    Stops (writeLoopT v wBuf n bufOffset b) s
      fun r s' => b + n ≤ RFS_DIRECT_BLKNUM ∧ r.2 = b + n ∧ ∃ x', Allocated s' v x' ∧
          b + n ≤ x'.blocks := by
  have hle := hb.trans h.file.blocks_le
  induction n generalizing s x b bufOffset with
  | zero => exact .pure ⟨hle, rfl, x, h, hb⟩
  | succ n ih =>
    rw [writeLoopT]
    by_cases hlt : b < RFS_DIRECT_BLKNUM
    · refine (writeBlockT_below h hb hlt wBuf bufOffset RFS_BLKSIZE).bind ?_
      rintro _ s₁ ⟨x₁, h₁, hb₁⟩
      have hrest := ih h₁ hb₁ (bufOffset + RFS_BLKSIZE) (hb₁.trans h₁.file.blocks_le)
      rw [Nat.add_right_comm b 1 n] at hrest
      exact hrest
    · obtain rfl : b = RFS_DIRECT_BLKNUM := by omega
      exact (writeBlockT_past h hb wBuf bufOffset RFS_BLKSIZE).bind fun _ _ hs => hs.elim

/-- A write past the limit of the inode does not return. -/
theorem rfsWrite_past {wBuf : Buf} (h : Allocated s v x) (hoff : offset ≤ x.size)
    (hlen : RFS_BLKSIZE * RFS_DIRECT_BLKNUM < offset + len) {r : (ℕ × ℕ) × State} :
    rfsWrite s v wBuf len offset ≠ .ok r := by
  have hspec : Stops (rfsWriteT v wBuf len offset) s fun _ _ => False := by
    rw [rfsWriteT]
    refine h.bind_vinodeT ?_
    rw [if_neg (by omega)]
    refine (Stops.of (writeFirstT_spec h hoff)).bind ?_
    rintro pos s₁ ⟨hpos, -, -, x₁, hp₁⟩
    have hblocks := hp₁.blocks
    have hlimit := hp₁.file.file.blocks_le
    have htimes : 0 ≤ pos.writetimes := by
      by_contra hneg
      rw [WritePos.Follows, if_neg hneg] at hpos
      have hle : RFS_BLKSIZE * pos.blockOffset ≤ RFS_BLKSIZE * RFS_DIRECT_BLKNUM :=
        Nat.mul_le_mul_left _ (by omega)
      omega
    rw [WritePos.Follows, if_pos htimes] at hpos
    rw [writeRestT, if_pos htimes]
    refine .bind (Q := fun _ _ => False) ?_ fun _ _ hs => hs.elim
    refine (writeLoopT_past hp₁.file (by omega) wBuf pos.writetimes.toNat pos.bufOffset).bind ?_
    rintro ⟨bufOffset, b⟩ s₂ ⟨hle, rfl, x₂, h₂, hb₂⟩
    dsimp only
    -- the write is longer than the blocks up to the limit
    have hmul : RFS_BLKSIZE * (pos.blockOffset + pos.writetimes.toNat) ≤
        RFS_BLKSIZE * RFS_DIRECT_BLKNUM := Nat.mul_le_mul_left _ hle
    have hremain : 0 < (len + offset % RFS_BLKSIZE) % RFS_BLKSIZE := by omega
    rw [if_pos hremain]
    have hlast : pos.blockOffset + pos.writetimes.toNat = RFS_DIRECT_BLKNUM := by
      simp only [RFS_BLKSIZE, PGSIZE] at *
      omega
    rw [hlast] at hb₂ ⊢
    exact writeBlockT_past h₂ hb₂ wBuf bufOffset _
  intro hwrite
  have hsat := hspec.sat
  rw [snd_rfsWriteT, hwrite] at hsat
  exact hsat

/-! ## Overwriting -/

/-- The call replaces the bytes of the file from the offset on and changes nothing else of it. -/
def Overwrites (s : State) (v : ℕ) (x : Vinode) (wBuf : Buf) (len offset : ℕ) : Prop :=
  ∃ s' x', rfsWrite s v wBuf len offset = .ok ((len, offset + len), s') ∧ s'.vinodes v = some x' ∧
    x'.size = x.size ∧ x'.blocks = x.blocks ∧
    ∀ k < x.size, s'.byte x'.toDinode k = s.edited x.toDinode wBuf len offset k

/-- A write inside the file takes place. -/
theorem rfsWrite_inside (h : Allocated s v x) (hlen : offset + len < x.size) (wBuf : Buf) :
    ∃ s' x', rfsWrite s v wBuf len offset = .ok ((len, offset + len), s') ∧
      x'.size = x.size ∧ x'.blocks = x.blocks ∧ Wrote s v x wBuf len offset s' x' := by
  have hcover := h.file.size_le
  have hblocks := h.file.blocks_le
  have hend : endBlock len offset ≤ x.blocks := by
    simp only [endBlock, RFS_BLKSIZE, PGSIZE] at *
    omega
  have hlimit : offset + len ≤ RFS_BLKSIZE * RFS_DIRECT_BLKNUM :=
    (hlen.le.trans hcover).trans (Nat.mul_le_mul_left _ hblocks)
  have hsat := rfsWrite_wrote h (by omega) hlimit wBuf
  cases hwrite : rfsWrite s v wBuf len offset with
  | error e =>
    rw [hwrite] at hsat
    exact absurd hsat.2 (by omega)
  | ok r =>
    obtain ⟨n, s'⟩ := r
    rw [hwrite] at hsat
    obtain ⟨rfl, x', hw⟩ := hsat
    exact ⟨s', x', rfl, hw.size.trans (Nat.max_eq_left hlen.le),
      hw.blocks.trans (Nat.max_eq_left hend), hw⟩

/-- **Overwriting inside a file** changes only the bytes written exactly when the write does not end
inside a block it has not read, or leaves behind its end in that block what was there. -/
theorem overwrites_iff (h : Allocated s v x) (hlen : offset + len < x.size) (wBuf : Buf) :
    Overwrites s v x wBuf len offset ↔
      (EndsBlind len offset → ∀ k, offset + len ≤ k → k < x.size →
        k / RFS_BLKSIZE = (offset + len) / RFS_BLKSIZE →
          s.leftover x.toDinode wBuf len offset k = s.byte x.toDinode k) := by
  obtain ⟨s', x', hwrite, hsize, hblocks, hw⟩ := rfsWrite_inside h hlen wBuf
  have hbytes : ∀ k < x.size, s'.byte x'.toDinode k = s.written x.toDinode wBuf len offset k :=
    fun k hk => hw.bytes k (hw.file.block_lt (hsize ▸ hk))
  have hbehind : ∀ k, offset + len ≤ k →
      s.edited x.toDinode wBuf len offset k = s.byte x.toDinode k :=
    fun k hk => if_neg (by omega)
  constructor
  · rintro ⟨s₁, x₁, hwrite₁, hv₁, -, -, hkept⟩ hends k hk hksize hblock
    rw [hwrite] at hwrite₁
    cases hwrite₁
    obtain rfl : x' = x₁ := Option.some.inj (hw.file.vinode.symm.trans hv₁)
    have hk' := hkept k hksize
    rw [hbytes k hksize, written_of_blind hends hk hblock, hbehind k hk] at hk'
    exact hk'
  · intro hleft
    refine ⟨s', x', hwrite, hw.file.vinode, hsize, hblocks, fun k hk => ?_⟩
    rw [hbytes k hk, State.written]
    split
    · rename_i hcase
      rw [hleft hcase.1 k hcase.2.1 hk hcase.2.2, hbehind k hcase.2.1]
    · rfl

theorem sample_allocated {size blocks : ℕ} (hsize : size ≤ RFS_BLKSIZE * blocks)
    (hblocks : blocks ≤ RFS_DIRECT_BLKNUM) :
    Allocated (sampleState (sampleFile size blocks)) 0 (sampleFile size blocks) where
  toFileAt := sample_fileAt hsize hblocks
  nodup := by
    refine List.Nodup.map_on (fun a _ b _ hab => ?_) List.nodup_range
    exact Nat.add_left_cancel hab
  marked b hb := by
    obtain ⟨k, hk, rfl⟩ := Dinode.mem_blks.1 hb
    have hk' : k < 10 := hk.trans_le hblocks
    have hlt : 20 + k - RFS_BLK_OFFSET_FREE < 18 := by
      simp only [RFS_BLK_OFFSET_FREE]
      omega
    change (if 20 + k - RFS_BLK_OFFSET_FREE < 18 then 1 else 0) ≠ 0
    rw [if_pos hlt]
    decide
  nblocks := rfl

/-- 100 bytes in the middle of the first block. -/
theorem overwrites_iff_sample :
    Overwrites (sampleState (sampleFile 5000 2)) 0 (sampleFile 5000 2) (fun _ => 1) 100 50 := by
  have hfile := sample_allocated (show 5000 ≤ RFS_BLKSIZE * 2 by decide) (by decide)
  exact (overwrites_iff hfile (show 50 + 100 < 5000 by decide) _).2 fun hends =>
    absurd hends (by decide)

/-- One byte at the front of the second block, when the buffer of the device holds another block:
the byte behind it is lost. -/
theorem overwrite_clobbers :
    ¬ Overwrites (sampleState (sampleFile 5000 2)) 0 (sampleFile 5000 2) (fun _ => 1) 1 4096 := by
  have hfile := sample_allocated (show 5000 ≤ RFS_BLKSIZE * 2 by decide) (by decide)
  obtain ⟨s', x', hwrite, hsize, -, hw⟩ :=
    rfsWrite_inside hfile (show 4096 + 1 < 5000 by decide) fun _ => 1
  rintro ⟨s₁, x₁, hwrite₁, hv₁, -, -, hkept⟩
  rw [hwrite] at hwrite₁
  cases hwrite₁
  obtain rfl : x' = x₁ := Option.some.inj (hw.file.vinode.symm.trans hv₁)
  have hbyte := hkept 4097 (by decide)
  rw [hw.bytes 4097 (hw.file.block_lt (by rw [hsize]; decide))] at hbyte
  revert hbyte
  decide

/-! ## Block indices in range -/

/-- A call of `rfs_write`. -/
structure WriteCall where
  wBuf : Buf
  len : ℕ
  offset : ℕ

/-- `C` holds of each of the calls of `rfs_write` on a file, in the state that the calls before it
leave. -/
def EachWrite (C : State → WriteCall → Prop) (v : ℕ) : List WriteCall → State → Prop
  | [], _ => True
  | c :: cs, s => C s c ∧
      ∀ n s', rfsWrite s v c.wBuf c.len c.offset = .ok (n, s') → EachWrite C v cs s'

/-- The call returns without having written all bytes, and the inode is as it was. -/
def Refused (s : State) (v : ℕ) (c : WriteCall) : Prop :=
  ∃ n s', rfsWrite s v c.wBuf c.len c.offset = .ok (n, s') ∧ n.1 ≠ c.len ∧
    s'.vinodes v = s.vinodes v

/-- The blocks that the call needs are within the limit of the inode. -/
def WriteCall.Fits (c : WriteCall) : Prop := c.offset + c.len ≤ RFS_BLKSIZE * RFS_DIRECT_BLKNUM

/-- The call indexes `addrs` below its length, and is refused when it needs more blocks. -/
def InRange (v : ℕ) (s : State) (c : WriteCall) : Prop :=
  Emits (· < RFS_DIRECT_BLKNUM) (rfsWriteT v c.wBuf c.len c.offset) s ∧ (¬ c.Fits → Refused s v c)

/-- `rfs_write` never writes a part of what it is given. -/
theorem rfsWrite_len {wBuf : Buf} {r : ℕ × ℕ} (h : rfsWrite s v wBuf len offset = .ok (r, s')) :
    r.1 = len := by
  rw [rfsWrite] at h
  obtain ⟨x, -, h⟩ := (bind_ok_iff _ _ _).1 h
  split at h
  · cases h
  obtain ⟨pos, -, h⟩ := (bind_ok_iff _ _ _).1 h
  obtain ⟨s₂, -, h⟩ := (bind_ok_iff _ _ _).1 h
  obtain ⟨x₂, -, h⟩ := (bind_ok_iff _ _ _).1 h
  cases h
  rfl

theorem not_refused (c : WriteCall) : ¬ Refused s v c := by
  rintro ⟨n, s', hwrite, hlen, -⟩
  exact hlen (rfsWrite_len hwrite)

/-- A write behind the end of the file stops at once. -/
theorem rfsWriteT_behind (h : FileAt s v x) (hoff : x.size < offset) (wBuf : Buf) (len : ℕ) :
    Spec (fun _ => False) (rfsWriteT v wBuf len offset) s (fun _ _ => False) fun _ => True := by
  rw [rfsWriteT]
  refine h.bind_vinodeT ?_
  rw [if_pos hoff]
  exact .lift trivial

/-- A call within the limit indexes in range. -/
theorem WriteCall.Fits.inRange {c : WriteCall} (hc : c.Fits) (h : Allocated s v x) :
    InRange v s c := by
  refine ⟨?_, fun hnot => absurd hc hnot⟩
  by_cases hoff : x.size < c.offset
  · exact fun w hw => ((rfsWriteT_behind h.toFileAt hoff c.wBuf c.len).emits w hw).elim
  · exact (rfsWriteT_spec h (Nat.le_of_not_lt hoff) hc c.wBuf).emits

/-- A call within the limit leaves a file of the same kind. -/
theorem WriteCall.Fits.allocated {c : WriteCall} {n : ℕ × ℕ} (hc : c.Fits) (h : Allocated s v x)
    (hwrite : rfsWrite s v c.wBuf c.len c.offset = .ok (n, s')) : ∃ x', Allocated s' v x' := by
  by_cases hoff : x.size < c.offset
  · have hsat := (rfsWriteT_behind h.toFileAt hoff c.wBuf c.len).sat
    rw [snd_rfsWriteT, hwrite] at hsat
    exact hsat.elim
  · have hsat := rfsWrite_wrote h (Nat.le_of_not_lt hoff) hc c.wBuf
    rw [hwrite] at hsat
    obtain ⟨-, x', hw⟩ := hsat
    exact ⟨x', hw.file⟩

/-- **Block indices**: in every sequence of writes to a file, all calls index in range exactly when
all are within the limit of the inode; a longer one is not refused. -/
theorem eachWrite_inRange (h : Allocated s v x) (cs : List WriteCall) :
    EachWrite (InRange v) v cs s ↔ EachWrite (fun _ c => c.Fits) v cs s := by
  induction cs generalizing s x with
  | nil => exact Iff.rfl
  | cons c cs ih =>
    have hhead : InRange v s c ↔ c.Fits := by
      refine ⟨fun hin => ?_, fun hc => hc.inRange h⟩
      by_contra hc
      exact not_refused c (hin.2 hc)
    rw [EachWrite, EachWrite, hhead]
    refine and_congr_right fun hc => forall_congr' fun n => forall_congr' fun s' => ?_
    refine imp_congr_right fun hwrite => ?_
    obtain ⟨x', h'⟩ := hc.allocated h hwrite
    exact ih h'

/-- Two writes, one behind the other, up to the limit of the inode. -/
theorem eachWrite_inRange_sample :
    EachWrite (InRange 0) 0 [⟨fun _ => 1, 30000, 0⟩, ⟨fun _ => 1, 10960, 30000⟩]
      (sampleState (sampleFile 0 1)) :=
  (eachWrite_inRange (sample_allocated (by decide) (by decide)) _).2
    ⟨show 0 + 30000 ≤ 40960 by decide, fun _ _ _ =>
      ⟨show 30000 + 10960 ≤ 40960 by decide, fun _ _ _ => trivial⟩⟩

/-- One byte behind a file of ten blocks: the address of its block is stored behind `addrs`. -/
theorem write_past_addrs :
    (rfsWriteT 0 (fun _ => 1) 1 40960 (sampleState (sampleFile 40960 10))).1 = [10] ∧
      ¬ EachWrite (InRange 0) 0 [⟨fun _ => 1, 1, 40960⟩] (sampleState (sampleFile 40960 10)) := by
  have htrace : (rfsWriteT 0
      (fun _ => 1) 1 40960 (sampleState (sampleFile 40960 10))).1 = [10] := by
    decide +kernel
  refine ⟨htrace, fun hcalls => ?_⟩
  have hlt := hcalls.1.1 10 (by rw [htrace]; exact List.mem_singleton.2 rfl)
  exact absurd hlt (by decide)

end HustOS.Fs
