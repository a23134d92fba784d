import HustOS.Fs.Release

/-!
# Writing a file

`vfs_write` as a sequence of transitions. `rfs_write` goes through the blocks of the file one after
the other and takes a new block behind the last one; while it does, the vinode stays in the table
and the size stays as it was (`Writing`). The size is set at the end, when the file has a block for
every byte of it.
-/

namespace HustOS.Fs

open Foundations

variable {s s₁ : State} {i v b f size : ℕ} {x : Vinode} {buf : Buf}

/-- The tag of a transition of a write to the inode `i`. -/
def IsWrite (i : ℕ) (tag : Tag) : Prop := tag = .quiet ∨ tag = .writes i

/-- The state `s'` inside a write to the file `i` that began in `s`: the file has the size it had
and at least `n` blocks. -/
structure Writing (i v : ℕ) (s : State) (size n : ℕ) (x : Vinode) (s' : State) : Prop where
  steps : Steps (IsWrite i) s s'
  node : Cached s' i v x
  file : x.type = FILE_I
  opened : s'.Opened v
  files : s'.files = s.files
  size : x.size = size
  blocks : n ≤ x.blocks

namespace Writing

theorem isFile (h : Inv s) (hw : Writing i v s size b x s₁) :
    IsFile x.toDinode ∧ ∀ c ∈ x.blks, IsData c := by
  have h₁ := hw.steps.inv h
  have hnode := h₁.node_eq hw.node
  have htype : (s₁.vol.node i).type = FILE_I := by
    rw [hnode]
    exact hw.file
  exact ⟨hnode ▸ h₁.good.isFile htype, fun c hc => h₁.isData_of_mem hw.node hc⟩

/-- A block of the file is written. -/
theorem write (h : Inv s) (hw : Writing i v s size (b + 1) x s₁) (buf : Buf) :
    ∃ s₂, (do rfsW1block { s₁ with iobuffer := buf } (← x.addr b)) = .ok s₂ ∧
      Writing i v s size (b + 1) x s₂ := by
  obtain ⟨hfile, hdata⟩ := hw.isFile h
  have hblocks := hfile.blocks_le
  have hb := hw.blocks
  have hmem : x.addrs b ∈ x.blks := Dinode.mem_blks.2 ⟨b, by omega, rfl⟩
  rw [addr_eq (by omega), ok_bind, rfsW1block_eq (hdata _ hmem).lt_count]
  refine ⟨_, rfl, ?_⟩
  have hscratch : Trans s₁ .quiet { s₁ with iobuffer := buf, pages := s₁.pages } :=
    .scratch buf (Nat.le_refl _)
  have hwrite := Trans.write (s := { s₁ with iobuffer := buf }) buf
    ⟨hw.node.hash, hw.node.vinode⟩ hw.file hmem
  exact ⟨(hw.steps.tail hscratch (.inl rfl)).tail hwrite (.inr rfl),
    ⟨hw.node.hash, hw.node.vinode⟩, hw.file, hw.opened, hw.files, hw.size, hw.blocks⟩

/-- The block behind the last one is taken when the write comes to it. -/
theorem growTo_sat (h : Inv s) (hw : Writing i v s size b x s₁) :
    Sat (growTo s₁ v b) (fun s₂ => ∃ x, Writing i v s size (b + 1) x s₂) NoAssert := by
  have h₁ := hw.steps.inv h
  unfold growTo
  rw [State.vinode_eq_ok.2 hw.node.vinode, ok_bind]
  split
  · rename_i hb
    refine Sat.bind (rfsAllocBlock_sat.mono' fun _ he => he ▸ noAssert_panic _) ?_
    rintro _ ⟨k, hk, hfree, rfl⟩
    dsimp only
    split
    · exact noAssert_undefined _
    rename_i hlt
    subst hb
    have hgrow := Trans.grow hw.node hw.file hw.opened (Nat.lt_of_not_le hlt)
      (h₁.nblocks ▸ hk) hfree
    refine ⟨{ x with
      addrs := Function.update x.addrs x.blocks (RFS_BLK_OFFSET_FREE + k)
      blocks := x.blocks + 1 }, ?_⟩
    exact
      { steps := hw.steps.tail hgrow (.inr rfl)
        node := ⟨hw.node.hash, Function.update_self _ _ _⟩
        file := hw.file
        opened := hw.opened
        files := hw.files
        size := hw.size
        blocks := Nat.le_refl _ }
  · rename_i hb
    exact ⟨x, { hw with blocks := Nat.lt_of_le_of_ne hw.blocks hb }⟩

theorem writeBlock_sat {wBuf : Buf} {bufOffset n : ℕ} (h : Inv s)
    (hw : Writing i v s size b x s₁) :
    Sat (writeBlock s₁ v b wBuf bufOffset n) (fun s₂ => ∃ x, Writing i v s size (b + 1) x s₂)
      NoAssert := by
  unfold writeBlock
  refine Sat.bind (hw.growTo_sat h) ?_
  rintro s₂ ⟨x₂, hw₂⟩
  obtain ⟨s₃, hs₃, hw₃⟩ := hw₂.write h (s₂.iobuffer.blit 0 wBuf bufOffset n)
  have hv : State.vinode { s₂ with iobuffer := s₂.iobuffer.blit 0 wBuf bufOffset n } v = .ok x₂ :=
    State.vinode_eq_ok.2 hw₂.node.vinode
  dsimp only
  rw [hv, ok_bind, hs₃]
  exact ⟨x₂, hw₃⟩

/-- The loop over the complete blocks, by induction on their number. -/
theorem writeLoop_sat {wBuf : Buf} {n bufOffset : ℕ} (h : Inv s) (hw : Writing i v s size b x s₁) :
    Sat (writeLoop v wBuf n bufOffset b s₁)
      (fun r => r.1.2 = b + n ∧ ∃ x, Writing i v s size (b + n) x r.2) NoAssert := by
  induction n generalizing b bufOffset x s₁ with
  | zero => exact ⟨rfl, x, hw⟩
  | succ n ih =>
    rw [writeLoop]
    refine Sat.bind (hw.writeBlock_sat h) ?_
    rintro s₂ ⟨x₂, hw₂⟩
    refine (ih hw₂).mono fun r hr => ?_
    rw [Nat.add_right_comm, Nat.add_assoc] at hr
    exact hr

theorem writeInside_sat {wBuf : Buf} {align n : ℕ} (h : Inv s)
    (hw : Writing i v s size (b + 1) x s₁) :
    Sat (writeInside s₁ v wBuf b align n) (fun s₂ => Writing i v s size (b + 1) x s₂)
      NoAssert := by
  obtain ⟨hfile, hdata⟩ := hw.isFile h
  have hblocks := hfile.blocks_le
  have hb := hw.blocks
  have hmem : x.addrs b ∈ x.blks := Dinode.mem_blks.2 ⟨b, by omega, rfl⟩
  unfold writeInside
  rw [State.vinode_eq_ok.2 hw.node.vinode, ok_bind, addr_eq (by omega), ok_bind,
    rfsR1block_eq (hdata _ hmem).lt_count, ok_bind]
  obtain ⟨s₃, hs₃, hw₃⟩ := hw.write h ((s₁.disk (x.addrs b)).blit align wBuf 0 n)
  rw [addr_eq (by omega), ok_bind] at hs₃
  rw [hs₃]
  exact hw₃

end Writing

/-- A write that begins. -/
theorem Writing.start {fl : File} (hc : Cached s i v x) (hx : x.type = FILE_I)
    (hf : s.files.lookup f = some fl) (hv : s.inodeOf fl.fDentry = some v) :
    Writing i v s x.size x.blocks x s :=
  ⟨.refl, hc, hx, ⟨f, fl, hf, hv⟩, rfl, rfl, Nat.le_refl _⟩

/-- Where a write stands behind the first block: at the end of it, or at a block that the rest goes
to. -/
def WritePos.Follows (pos : WritePos) (len offset : ℕ) : Prop :=
  if 0 ≤ pos.writetimes then
    offset + len = RFS_BLKSIZE * (pos.blockOffset + pos.writetimes.toNat) +
      (len + offset % RFS_BLKSIZE) % RFS_BLKSIZE
  else offset + len ≤ RFS_BLKSIZE * pos.blockOffset

theorem writeFirst_sat {wBuf : Buf} {len offset : ℕ} (h : Inv s)
    (hw : Writing i v s size x.blocks x s) (hoff : offset ≤ x.size) :
    Sat (writeFirst s v wBuf len offset)
      (fun r => r.1.Follows len offset ∧ ∃ x, Writing i v s size r.1.blockOffset x r.2)
      NoAssert := by
  have hsize := (hw.isFile h).1.size_le
  unfold writeFirst
  dsimp only
  simp only [RFS_BLKSIZE, PGSIZE] at hsize ⊢
  split
  · rename_i halign
    have hb : offset / 4096 + 1 ≤ x.blocks := by omega
    refine Sat.bind (Writing.writeInside_sat h { hw with blocks := hb }) fun s₂ hw₂ => ?_
    refine ⟨?_, x, hw₂⟩
    simp only [WritePos.Follows, RFS_BLKSIZE, PGSIZE]
    split <;> omega
  · rename_i halign
    have hb : offset / 4096 ≤ x.blocks := by omega
    refine ⟨?_, x, { hw with blocks := hb }⟩
    simp only [WritePos.Follows, RFS_BLKSIZE, PGSIZE]
    split <;> omega

theorem writeRest_sat {wBuf : Buf} {pos : WritePos} {len offset : ℕ} (h : Inv s)
    (hpos : pos.Follows len offset) (hw : Writing i v s size pos.blockOffset x s₁) :
    Sat (writeRest s₁ v wBuf pos ((len + offset % RFS_BLKSIZE) % RFS_BLKSIZE))
      (fun s₂ => ∃ n x, offset + len ≤ RFS_BLKSIZE * n ∧ Writing i v s size n x s₂) NoAssert := by
  unfold writeRest
  unfold WritePos.Follows at hpos
  split at hpos
  · rename_i htimes
    rw [if_pos htimes]
    refine Sat.bind (hw.writeLoop_sat h) ?_
    rintro ⟨⟨bufOffset, blockOffset⟩, s₂⟩ ⟨hblock, x₂, hw₂⟩
    dsimp only at hblock hw₂ ⊢
    rw [← hblock] at hw₂ hpos
    split
    · refine (hw₂.writeBlock_sat h).mono ?_
      rintro s₃ ⟨x₃, hw₃⟩
      refine ⟨_, x₃, ?_, hw₃⟩
      simp only [RFS_BLKSIZE, PGSIZE] at hpos ⊢
      omega
    · refine ⟨_, x₂, ?_, hw₂⟩
      omega
  · rename_i htimes
    rw [if_neg htimes]
    exact ⟨_, x, hpos, hw⟩

/-- The end of a write: the file gets its size. -/
theorem Writing.resize {n len offset : ℕ} (h : Inv s) (hw : Writing i v s size n x s₁)
    (hn : offset + len ≤ RFS_BLKSIZE * n) :
    Steps (IsWrite i) s (s₁.setVinode v
      { x with size := if x.size < offset + len then offset + len else x.size }) := by
  have hsize := (hw.isFile h).1.size_le
  refine hw.steps.tail (.resize hw.node hw.file hw.opened ?_) (.inr rfl)
  split
  · exact hn.trans (Nat.mul_le_mul_left _ hw.blocks)
  · exact hsize

/-- **`rfs_write`** on a file that is open. -/
theorem rfsWrite_sat {fl : File} {wBuf : Buf} {len offset : ℕ} (h : Inv s) (hc : Cached s i v x)
    (hx : x.type = FILE_I) (hf : s.files.lookup f = some fl)
    (hv : s.inodeOf fl.fDentry = some v) :
    Sat (rfsWrite s v wBuf len offset)
      (fun r => Steps (IsWrite i) s r.2 ∧ r.2.files = s.files ∧ r.1 = (len, offset + len))
      NoAssert := by
  unfold rfsWrite
  rw [State.vinode_eq_ok.2 hc.vinode, ok_bind]
  split
  · exact noAssert_panic _
  rename_i hoff
  refine Sat.bind (writeFirst_sat h (.start hc hx hf hv) (Nat.le_of_not_lt hoff)) ?_
  rintro ⟨pos, s₁⟩ ⟨hpos, x₁, hw₁⟩
  refine Sat.bind (writeRest_sat h hpos hw₁) ?_
  rintro s₂ ⟨n, x₂, hn, hw₂⟩
  rw [State.vinode_eq_ok.2 hw₂.node.vinode, ok_bind]
  exact ⟨hw₂.resize h hn, hw₂.files, rfl⟩

/-- **`vfs_write`** changes the file of its descriptor only; when it refuses the descriptor it
changes nothing. -/
theorem vfsWrite_sat {wBuf : Buf} {count : ℕ} (h : Inv s) :
    Sat (vfsWrite s f wBuf count)
      (fun r => (r.1 = -1 ∧ r.2 = s) ∨
        ∃ fl i, r.1 = count ∧ s.files.lookup f = some fl ∧ DentryOf s fl.fDentry i ∧
          Steps (IsWrite i) s r.2) NoAssert := by
  unfold vfsWrite
  unfold State.file
  cases hf : s.files.lookup f with
  | none => exact noAssert_undefined _
  | some fl =>
    dsimp only
    rw [ok_bind]
    split
    · exact .inl ⟨rfl, rfl⟩
    obtain ⟨e, v, he⟩ := h.tables.file f fl hf
    obtain ⟨x, hx⟩ := h.tables.live he
    rw [he.dentryInode, ok_bind, State.vinode_eq_ok.2 hx, ok_bind]
    split
    · exact .inl ⟨rfl, rfl⟩
    rename_i htype
    have hfile : x.type = FILE_I := not_not.1 htype
    obtain ⟨i, hc⟩ := h.cached_of_file he hx hfile
    have hsb : viopSb s v = .ok () := by
      rw [viopSb, State.vinode_eq_ok.2 hx, ok_bind, (h.tables.inum_eq hc).2]
      rfl
    rw [viopWrite, hsb, ok_bind]
    refine Sat.bind (rfsWrite_sat h hc hfile hf he.inodeOf) ?_
    rintro ⟨⟨len, offset⟩, s₁⟩ ⟨hsteps, hfiles, hlen⟩
    dsimp only at hsteps hfiles
    obtain ⟨rfl, rfl⟩ := Prod.mk.inj hlen
    have hf₁ : s₁.files.lookup f = some fl := hfiles ▸ hf
    have hseek : Trans s₁ .quiet
        { s₁ with files := s₁.files.insert f { fl with offset := fl.offset + len } } :=
      .seek hf₁ rfl
    exact .inr ⟨fl, i, rfl, rfl, ⟨e, v, x, he, hc⟩, hsteps.tail hseek (.inl rfl)⟩

end HustOS.Fs
