import HustOS.Fs.FileWrite

/-!
# Appending to a file

A file is written in chunks through one offset that begins at 0. What it holds after some of them is
`Holds`: the bytes of the chunks in order, the size, and as many blocks as these bytes need. Every
chunk adds to it (`Holds.append`), wherever its boundaries fall, so the file depends on the bytes
only and not on the chunks (`append_chunks`).

Reading such a file at its end still transfers the block at the offset. When the size is a multiple
of the block size this is the block behind the last one (`read_at_end_iff`).
-/

namespace HustOS.Fs

open Foundations Traced

variable {s s' s₁ : State} {v i b n offset len k : ℕ} {x x₁ : Vinode} {l : List UInt8}

/-- A file that `rfs_create` has made: it is empty, has no blocks, and `addrs[0]` is the block taken
at its creation. -/
structure NewFile (s : State) (v : ℕ) (x : Vinode) : Prop where
  vinode : s.vinodes v = some x
  type : x.type = FILE_I
  size : x.size = 0
  blocks : x.blocks = 0
  reserved : IsData (x.addrs 0)
  nblocks : s.sb.nblocks = dataBlocks

/-- The file that `rfs_create` makes in a directory with room is one. -/
theorem newFile_of_create {d p : ℕ} {y : Vinode} {name : Name} (h : Inv s) (hy : Cached s d p y)
    (hdir : y.type = DIR_I) (hname : name.Valid) (hroom : y.size < 4096)
    (hcreate : rfsCreate s p name = .ok (some v, s')) : ∃ x, NewFile s' v x := by
  have hnode := h.node_eq hy
  have htype : (s.vol.node d).type = DIR_I := by
    rw [hnode]
    exact hdir
  obtain ⟨hisdir, -, -⟩ := h.dir_of_cached hy htype
  have hinum : y.inum < ninodes := (h.tables.inum_eq hy).1 ▸ h.lt hy
  have hpage := h.tables.page_lt_vinode hy.vinode
  have hsat := rfsCreate_sat hy.vinode hname hisdir hroom hinum hpage.ne h.nblocks
  rw [hcreate] at hsat
  obtain ⟨i, k, buf, hfresh, z, rfl, hr⟩ := hsat
  cases hr
  have hk : k < dataBlocks := h.nblocks ▸ hfresh.block_lt
  refine ⟨newVinode (madeNode R_FILE 0 (s.disk.dinode i) (12 + k)) i, ?_, rfl, rfl, rfl,
    ?_, h.nblocks⟩
  · exact (Function.update_of_ne hpage.ne' _ _).trans (Function.update_self _ _ _)
  · change IsData (Function.update (s.disk.dinode i).addrs 0 (12 + k) 0)
    rw [Function.update_self]
    exact ⟨Nat.le_add_right _ _, Nat.add_lt_add_left hk _⟩

/-- A chunk of bytes: the first `len` ones of a buffer. -/
structure Chunk where
  wBuf : Buf
  len : ℕ

/-- The bytes of a chunk. -/
def Chunk.bytes (c : Chunk) : List UInt8 := (List.range c.len).map c.wBuf

@[simp] theorem Chunk.length_bytes (c : Chunk) : c.bytes.length = c.len := by
  rw [Chunk.bytes, List.length_map, List.length_range]

/-- Write chunks one after the other through one offset: the last offset. -/
def appendChunks (v : ℕ) : List Chunk → ℕ → State → Except Fault (ℕ × State)
  | [], offset, s => return (offset, s)
  | c :: cs, offset, s => do
    let ((_, offset), s) ← rfsWrite s v c.wBuf c.len offset
    appendChunks v cs offset s

/-- The bytes of the file with the inode `x`. -/
def State.fileBytes (s : State) (x : Dinode) : List UInt8 := (List.range x.size).map (s.byte x)

/-- The number of blocks for `n` bytes. -/
abbrev blocksFor (n : ℕ) : ℕ := (n + (RFS_BLKSIZE - 1)) / RFS_BLKSIZE

/-! ## A chunk more -/

/-- The file holds the bytes, in as many blocks as they need. -/
structure Holds (s : State) (v : ℕ) (x : Vinode) (l : List UInt8) : Prop where
  file : Allocated s v x
  size : x.size = l.length
  blocks : x.blocks = blocksFor l.length
  content : s.fileBytes x.toDinode = l
  reserved : x.blocks = 0 → IsData (x.addrs 0)

/-- A new file holds nothing. -/
theorem NewFile.holds (h : NewFile s v x) : Holds s v x [] := by
  have hnil : x.blks = [] := by
    rw [Dinode.blks, h.blocks]
    rfl
  have hfile : IsFile x.toDinode :=
    ⟨h.type, by rw [h.blocks]; exact Nat.zero_le _, by rw [h.size]; exact Nat.zero_le _⟩
  refine ⟨⟨⟨h.vinode, hfile, ?_⟩, ?_, ?_, h.nblocks⟩, h.size, h.blocks, ?_, fun _ => h.reserved⟩
  · simp [hnil]
  · rw [hnil]
    exact List.nodup_nil
  · simp [hnil]
  · rw [State.fileBytes, h.size]
    rfl

/-- The content after a write at the end. -/
theorem Wrote.content {wBuf : Buf} (hw : Wrote s v x wBuf len x.size s' x₁) :
    s'.fileBytes x₁.toDinode = s.fileBytes x.toDinode ++ (List.range len).map wBuf := by
  have hbyte : ∀ k < x.size + len,
      s'.byte x₁.toDinode k = s.written x.toDinode wBuf len x.size k := by
    intro k hk
    have hlt : k < x₁.size := by
      have := hw.size
      omega
    exact hw.bytes k (hw.file.block_lt hlt)
  rw [State.fileBytes, hw.size, Nat.max_eq_right (Nat.le_add_right _ _), List.range_add,
    List.map_append, List.map_map, State.fileBytes]
  congr 1
  · refine List.map_congr_left fun k hk => ?_
    have hlt := List.mem_range.1 hk
    rw [hbyte k (by omega), written_of_lt hlt]
  · refine List.map_congr_left fun k hk => ?_
    have hlt := List.mem_range.1 hk
    exact (hbyte (x.size + k) (by omega)).trans (written_of_mem hlt)

/-- A write at the end leaves a file that holds the chunk behind what it held. -/
theorem Holds.wrote {wBuf : Buf} (h : Holds s v x l) (hw : Wrote s v x wBuf len x.size s' x₁) :
    Holds s' v x₁ (l ++ (List.range len).map wBuf) := by
  have hsize := h.size
  have hblocks := h.blocks
  have hblocks₁ := hw.blocks
  have hlen : (l ++ (List.range len).map wBuf).length = x.size + len := by
    rw [List.length_append, List.length_map, List.length_range, hsize]
  refine ⟨hw.file, ?_, ?_, ?_, fun hzero => ?_⟩
  · rw [hlen, hw.size]
    omega
  · rw [hlen]
    simp only [blocksFor, endBlock, RFS_BLKSIZE, PGSIZE] at *
    omega
  · rw [hw.content, h.content]
  · rw [hw.addrs 0 (.inr (by omega))]
    exact h.reserved (by omega)

/-- **One chunk**: it goes behind the bytes that the file holds, or there is no free block for
it. -/
theorem Holds.append (h : Holds s v x l) (c : Chunk)
    (hlen : l.length + c.len ≤ RFS_BLKSIZE * RFS_DIRECT_BLKNUM) :
    Sat (rfsWrite s v c.wBuf c.len l.length)
      (fun r => r.1 = (c.len, l.length + c.len) ∧ ∃ x', Holds r.2 v x' (l ++ c.bytes))
      fun e => e = noFreeBlock := by
  rw [← h.size] at hlen ⊢
  refine ((rfsWrite_wrote h.file (Nat.le_refl _) hlen c.wBuf).mono' fun e he => he.1).mono ?_
  rintro ⟨r, s'⟩ ⟨hr, x', hw⟩
  exact ⟨hr, x', h.wrote hw⟩

/-! ## All chunks -/

/-- The bytes of chunks in order. -/
def concat (cs : List Chunk) : List UInt8 := cs.flatMap Chunk.bytes

theorem concat_cons (c : Chunk) (cs : List Chunk) : concat (c :: cs) = c.bytes ++ concat cs :=
  List.flatMap_cons

/-- The chunks go behind the bytes that the file holds, by induction on their list. -/
theorem Holds.appendAll (h : Holds s v x l) (cs : List Chunk)
    (hlen : l.length + (concat cs).length ≤ RFS_BLKSIZE * RFS_DIRECT_BLKNUM) :
    Sat (appendChunks v cs l.length s)
      (fun r => r.1 = l.length + (concat cs).length ∧ ∃ x', Holds r.2 v x' (l ++ concat cs))
      fun e => e = noFreeBlock := by
  induction cs generalizing s x l with
  | nil => exact ⟨rfl, x, by rw [concat, List.flatMap_nil, List.append_nil]; exact h⟩
  | cons c cs ih =>
    rw [concat_cons, List.length_append, c.length_bytes] at hlen
    rw [appendChunks]
    refine (h.append c (by omega)).bind ?_
    rintro ⟨⟨_, _⟩, s₁⟩ ⟨hr, x₁, h₁⟩
    obtain ⟨rfl, rfl⟩ := Prod.mk.inj hr
    have hlen₁ : (l ++ c.bytes).length = l.length + c.len := by
      rw [List.length_append, c.length_bytes]
    have hrest := ih h₁ (by omega)
    rw [hlen₁, List.append_assoc, ← concat_cons] at hrest
    refine hrest.mono fun r hr => ⟨hr.1.trans ?_, hr.2⟩
    rw [concat_cons, List.length_append, c.length_bytes, Nat.add_assoc]

/-- **Appends are independent of chunking**: chunks written through one offset to a new file leave
their bytes in it, as the size and the offset their number, and the blocks for it; so chunks of the
same bytes leave the same file. -/
theorem append_chunks (h : NewFile s v x) (cs : List Chunk)
    (hlen : (concat cs).length ≤ RFS_BLKSIZE * RFS_DIRECT_BLKNUM) :
    Sat (appendChunks v cs 0 s)
        (fun r => ∃ x', r.2.vinodes v = some x' ∧ r.2.fileBytes x'.toDinode = concat cs ∧
          x'.size = (concat cs).length ∧ r.1 = (concat cs).length ∧
          x'.blocks = blocksFor (concat cs).length)
        (fun e => e = noFreeBlock) ∧
      ∀ cs', concat cs' = concat cs → ∀ o₁ s₁ o₂ s₂ x₁ x₂, appendChunks v cs 0 s = .ok (o₁, s₁) →
        appendChunks v cs' 0 s = .ok (o₂, s₂) → s₁.vinodes v = some x₁ → s₂.vinodes v = some x₂ →
        s₁.fileBytes x₁.toDinode = s₂.fileBytes x₂.toDinode ∧ x₁.size = x₂.size ∧
          x₁.blocks = x₂.blocks := by
  have hall : ∀ cs', concat cs' = concat cs → Sat (appendChunks v cs' 0 s)
      (fun r => r.1 = (concat cs).length ∧ ∃ x', Holds r.2 v x' (concat cs))
      fun e => e = noFreeBlock := by
    intro cs' heq
    have hsat := h.holds.appendAll cs' (by rw [heq, List.length_nil, Nat.zero_add]; exact hlen)
    rw [heq, List.length_nil, Nat.zero_add, List.nil_append] at hsat
    exact hsat
  refine ⟨(hall cs rfl).mono ?_, ?_⟩
  · rintro r ⟨hr, x', h'⟩
    exact ⟨x', h'.file.vinode, h'.content, h'.size, hr, h'.blocks⟩
  · intro cs' heq o₁ s₁ o₂ s₂ x₁ x₂ happ₁ happ₂ hx₁ hx₂
    have hsat₁ := hall cs rfl
    have hsat₂ := hall cs' heq
    rw [happ₁] at hsat₁
    rw [happ₂] at hsat₂
    obtain ⟨-, y₁, h₁⟩ := hsat₁
    obtain ⟨-, y₂, h₂⟩ := hsat₂
    obtain rfl : y₁ = x₁ := Option.some.inj (h₁.file.vinode.symm.trans hx₁)
    obtain rfl : y₂ = x₂ := Option.some.inj (h₂.file.vinode.symm.trans hx₂)
    exact ⟨h₁.content.trans h₂.content.symm, h₁.size.trans h₂.size.symm,
      h₁.blocks.trans h₂.blocks.symm⟩

theorem sample_newFile : NewFile (sampleState (sampleFile 0 0)) 0 (sampleFile 0 0) :=
  ⟨rfl, rfl, rfl, rfl, ⟨by decide, by decide⟩, rfl⟩

/-- A whole block, nothing, and ten bytes behind them. -/
theorem append_chunks_sample :
    ∃ s' x', appendChunks 0 [⟨fun _ => 1, 4096⟩, ⟨fun _ => 2, 0⟩, ⟨fun _ => 3, 10⟩] 0
        (sampleState (sampleFile 0 0)) = .ok (4106, s') ∧ s'.vinodes 0 = some x' ∧ x'.size = 4106 ∧
      x'.blocks = 2 := by
  have hlen : (concat [⟨fun _ => 1, 4096⟩, ⟨fun _ => 2, 0⟩, ⟨fun _ => 3, 10⟩]).length = 4106 := by
    simp [concat]
  have hsat := (append_chunks sample_newFile
    [⟨fun _ => 1, 4096⟩, ⟨fun _ => 2, 0⟩, ⟨fun _ => 3, 10⟩] (by rw [hlen]; decide)).1
  have hok : (appendChunks 0 [⟨fun _ => 1, 4096⟩, ⟨fun _ => 2, 0⟩, ⟨fun _ => 3, 10⟩] 0
      (sampleState (sampleFile 0 0))).toOption.isSome = true := by
    decide +kernel
  cases happ : appendChunks 0 [⟨fun _ => 1, 4096⟩, ⟨fun _ => 2, 0⟩, ⟨fun _ => 3, 10⟩] 0
      (sampleState (sampleFile 0 0)) with
  | error e =>
    rw [happ] at hok
    cases hok
  | ok r =>
    rw [happ] at hsat
    obtain ⟨x', hx', -, hsize, hoff, hblocks⟩ := hsat
    rw [hlen] at hsize hoff hblocks
    exact ⟨r.2, x', by rw [← hoff], hx', hsize, hblocks⟩

/-! ## Reading at the end -/

/-- `addrs[i]` is a block of the file, or, while the file is empty, the block taken at its
creation. -/
def Owns (x : Dinode) (i : ℕ) : Prop := i < x.blocks ∨ x.size = 0 ∧ i = 0

/-- A read at the end of the file returns 0, leaves the offset and transfers blocks of the file
only. -/
def HarmlessAtEnd (s : State) (v : ℕ) (x : Vinode) (count : ℕ) : Prop :=
  Emits (Owns x.toDinode) (rfsReadT v count x.size) s ∧
    ∃ buf s', rfsRead s v count x.size = .ok ((0, buf, x.size), s')

/-- What is written is what the file holds; no write past the limit of the inode returns. -/
theorem Holds.ofAppend {cs : List Chunk} {o : ℕ} (h : Holds s v x l)
    (happ : appendChunks v cs l.length s = .ok (o, s')) : ∃ x', Holds s' v x' (l ++ concat cs) := by
  induction cs generalizing s x l with
  | nil =>
    cases happ
    exact ⟨x, by rw [concat, List.flatMap_nil, List.append_nil]; exact h⟩
  | cons c cs ih =>
    rw [appendChunks] at happ
    obtain ⟨⟨⟨n, offset⟩, s₁⟩, hwrite, happ⟩ := (bind_ok_iff _ _ _).1 happ
    have hlen : l.length + c.len ≤ RFS_BLKSIZE * RFS_DIRECT_BLKNUM := by
      by_contra hpast
      exact rfsWrite_past h.file h.size.ge (Nat.lt_of_not_le hpast) hwrite
    have hsat := h.append c hlen
    rw [hwrite] at hsat
    obtain ⟨hr, x₁, h₁⟩ := hsat
    obtain ⟨rfl, rfl⟩ := Prod.mk.inj hr
    have hlen₁ : (l ++ c.bytes).length = l.length + c.len := by
      rw [List.length_append, c.length_bytes]
    obtain ⟨x', h'⟩ := ih h₁ (hlen₁ ▸ happ)
    rw [List.append_assoc, ← concat_cons] at h'
    exact ⟨x', h'⟩

/-- Every read transfers the block at the offset. -/
theorem emits_first {P : ℕ → Prop} (hv : s.vinodes v = some x) (hoff : offset ≤ x.size)
    (he : Emits P (rfsReadT v len offset) s) : P (offset / RFS_BLKSIZE) := by
  rw [rfsReadT, vinodeT, emits_lift_bind] at he
  have hrest := he x s (by rw [State.vinode_eq_ok.2 hv]; rfl)
  rw [if_neg (by omega)] at hrest
  exact (emits_emit _ _ s).1 ((emits_bind _ _ _).1 hrest).1

/-- A read at the end transfers the block at the offset and nothing else. -/
theorem rfsReadT_end {P : ℕ → Prop} (h : FileAt s v x) (hP : P (x.size / RFS_BLKSIZE))
    (hlt : x.size / RFS_BLKSIZE < RFS_DIRECT_BLKNUM)
    (hblock : x.addrs (x.size / RFS_BLKSIZE) < RAMDISK_BLOCK_COUNT) (count : ℕ) :
    Spec P (rfsReadT v count x.size) s (fun r _ => r = (0, fun _ => 0, x.size)) fun _ => False := by
  have hlen : readLen x.toDinode count x.size = 0 := by
    rw [readLen]
    split <;> omega
  have htimes : (x.size % RFS_BLKSIZE + 0) / RFS_BLKSIZE = 0 :=
    Nat.div_eq_of_lt (Nat.mod_lt _ (by decide))
  rw [rfsReadT]
  refine h.bind_vinodeT ?_
  rw [if_neg (Nat.lt_irrefl _)]
  dsimp only
  rw [hlen, htimes]
  refine .bind (Q := fun _ _ => True) (.emit hP ?_) fun _ s₁ _ => .bind_get ?_
  · rw [addr_eq hlt, ok_bind, rfsR1block_eq hblock]
    exact trivial
  · rw [readRestT, if_pos rfl, firstLen, if_pos rfl]
    refine .bind (Q := fun b _ => b = fun _ => 0) (.pure ?_) fun b _ hb => .pure (by rw [hb]; rfl)
    funext k
    exact Buf.blit_apply_of_lt (by omega)

/-- **Reading at the end of a file** that appends have produced is harmless exactly when the file is
empty or its size is not a multiple of the block size. -/
theorem read_at_end_iff {cs : List Chunk} {o : ℕ} (h : NewFile s v x)
    (happ : appendChunks v cs 0 s = .ok (o, s₁)) (hx : s₁.vinodes v = some x₁) (count : ℕ) :
    HarmlessAtEnd s₁ v x₁ count ↔ x₁.size = 0 ∨ ¬ RFS_BLKSIZE ∣ x₁.size := by
  obtain ⟨y, h₁⟩ := h.holds.ofAppend happ
  obtain rfl : y = x₁ := Option.some.inj (h₁.file.vinode.symm.trans hx)
  have hblocks := h₁.blocks
  rw [← h₁.size] at hblocks
  constructor
  · rintro ⟨hemits, -⟩
    have hfirst := emits_first h₁.file.vinode (Nat.le_refl _) hemits
    rw [or_iff_not_imp_left]
    rintro hsize ⟨m, hm⟩
    obtain hlt | ⟨hzero, -⟩ := hfirst
    · simp only [blocksFor, RFS_BLKSIZE, PGSIZE] at *
      omega
    · exact hsize hzero
  · intro hcond
    have howns : Owns y.toDinode (y.size / RFS_BLKSIZE) := by
      obtain hzero | hdvd := hcond
      · exact .inr ⟨hzero, by rw [hzero]; rfl⟩
      · left
        rw [Nat.dvd_iff_mod_eq_zero] at hdvd
        simp only [blocksFor, RFS_BLKSIZE, PGSIZE] at *
        omega
    have hbounds : y.size / RFS_BLKSIZE < RFS_DIRECT_BLKNUM ∧
        y.addrs (y.size / RFS_BLKSIZE) < RAMDISK_BLOCK_COUNT := by
      obtain hlt | ⟨hzero, hindex⟩ := howns
      · exact ⟨hlt.trans_le h₁.file.file.blocks_le, h₁.file.lt_count hlt⟩
      · have hnone : y.blocks = 0 := by
          rw [hblocks, hzero]
          rfl
        rw [hindex]
        exact ⟨by decide, (h₁.reserved hnone).lt_count⟩
    have hspec := rfsReadT_end h₁.file.toFileAt howns hbounds.1 hbounds.2 count
    have hsat := hspec.sat
    rw [snd_rfsReadT] at hsat
    refine ⟨hspec.emits, ?_⟩
    cases hread : rfsRead s₁ v count y.size with
    | error e =>
      rw [hread] at hsat
      exact hsat.elim
    | ok r =>
      obtain ⟨⟨n, buf, off⟩, s'⟩ := r
      rw [hread] at hsat
      cases hsat
      exact ⟨_, s', rfl⟩

/-- One chunk in a new file. -/
theorem sample_append {n : ℕ} (hn : n = 10 ∨ n = 4096) :
    ∃ o s₁ x₁, appendChunks 0 [⟨fun _ => 1, n⟩] 0 (sampleState (sampleFile 0 0)) = .ok (o, s₁) ∧
      s₁.vinodes 0 = some x₁ ∧ x₁.size = n ∧ x₁.blocks = 1 := by
  have hok : (appendChunks 0 [⟨fun _ => 1, n⟩] 0 (sampleState (sampleFile 0 0))).toOption.isSome =
      true := by
    obtain rfl | rfl := hn <;> decide +kernel
  have hlen : (concat [⟨fun _ => 1, n⟩]).length = n := by simp [concat]
  cases happ : appendChunks 0 [⟨fun _ => 1, n⟩] 0 (sampleState (sampleFile 0 0)) with
  | error e =>
    rw [happ] at hok
    cases hok
  | ok r =>
    obtain ⟨x₁, h₁⟩ := sample_newFile.holds.ofAppend happ
    have hblocks := h₁.blocks
    have hsize := h₁.size
    rw [List.nil_append, hlen] at hblocks hsize
    refine ⟨r.1, r.2, x₁, rfl, h₁.file.vinode, hsize, hblocks.trans ?_⟩
    obtain rfl | rfl := hn <;> rfl

/-- Behind ten bytes. -/
theorem read_at_end_iff_sample :
    ∃ o s₁ x₁, appendChunks 0 [⟨fun _ => 1, 10⟩] 0 (sampleState (sampleFile 0 0)) = .ok (o, s₁) ∧
      HarmlessAtEnd s₁ 0 x₁ 100 := by
  obtain ⟨o, s₁, x₁, happ, hx, hsize, -⟩ := sample_append (n := 10) (.inl rfl)
  exact ⟨o, s₁, x₁, happ,
    (read_at_end_iff sample_newFile happ hx 100).2 (.inr (by rw [hsize]; decide))⟩

/-- Behind a whole block: the read transfers the block that `addrs[1]` names, which nothing has
assigned. -/
theorem read_at_end_transfers :
    ∃ o s₁ x₁, appendChunks 0 [⟨fun _ => 1, 4096⟩] 0 (sampleState (sampleFile 0 0)) = .ok (o, s₁) ∧
      s₁.vinodes 0 = some x₁ ∧ x₁.blocks = 1 ∧ ¬ HarmlessAtEnd s₁ 0 x₁ 100 := by
  obtain ⟨o, s₁, x₁, happ, hx, hsize, hblocks⟩ := sample_append (n := 4096) (.inr rfl)
  refine ⟨o, s₁, x₁, happ, hx, hblocks, fun hharmless => ?_⟩
  obtain hlt | ⟨hzero, -⟩ := emits_first hx (Nat.le_refl _) hharmless.1
  · rw [hsize, hblocks] at hlt
    exact absurd hlt (by decide)
  · rw [hsize] at hzero
    exact absurd hzero (by decide)

end HustOS.Fs
