import HustOS.Fs.Append

/-!
# What `read` delivers

The bytes that `rfs_read` gathers go through two arrays before they are in the buffer of the caller:
the one of `rfs_read` and the one of `do_read`, each of them ended by a zero byte and copied with
`strcpy`. A copied string is written up to its first zero byte and no further (`strcpy_apply`), so
both copies together are one (`strcpy_strcpy`): the caller gets the bytes up to the first zero byte
among them, and, when there is none, a zero byte behind them (`delivers_iff`).
-/

namespace HustOS.Fs

open Foundations Traced

variable {s s' : State} {v n count offset len k : ℕ} {x : Vinode} {src dest buf : Buf}

/-! ## Strings -/

/-- The loop of `strcpy` at the `i`-th byte, in a source array of `n` bytes from there on. -/
def strcpyLoop : ℕ → ℕ → Buf → Buf → Buf
  | 0, _, dest, _ => dest
  | n + 1, i, dest, src =>
    let dest := Function.update dest i (src i)
    if src i = 0 then dest else strcpyLoop n (i + 1) dest src

/-- `strcpy` from an array of `n` bytes. -/
def strcpy (dest src : Buf) (n : ℕ) : Buf := strcpyLoop n 0 dest src

theorem strcpyLoop_apply {i : ℕ} (h : ∃ z, i ≤ z ∧ z < i + n ∧ src z = 0) :
    strcpyLoop n i dest src k =
      if i ≤ k ∧ ∀ j, i ≤ j → j < k → src j ≠ 0 then src k else dest k := by
  induction n generalizing i dest with
  | zero =>
    obtain ⟨z, hiz, hzn, -⟩ := h
    omega
  | succ n ih =>
    rw [strcpyLoop]
    by_cases hi : src i = 0
    · rw [if_pos hi]
      by_cases hk : k = i
      · subst hk
        rw [Function.update_self, if_pos ⟨Nat.le_refl _, fun j hj hjk => by omega⟩]
      · rw [Function.update_of_ne hk, if_neg]
        rintro ⟨hik, hne⟩
        exact hne i (Nat.le_refl _) (by omega) hi
    · have hrest : ∃ z, i + 1 ≤ z ∧ z < i + 1 + n ∧ src z = 0 := by
        obtain ⟨z, hiz, hzn, hz⟩ := h
        have hzi : z ≠ i := by
          rintro rfl
          exact hi hz
        exact ⟨z, by omega, by omega, hz⟩
      rw [if_neg hi, ih hrest]
      by_cases hk : k = i
      · subst hk
        rw [if_neg (by omega), Function.update_self,
          if_pos ⟨Nat.le_refl _, fun j hj hjk => by omega⟩]
      · rw [Function.update_of_ne hk]
        refine if_congr ⟨?_, ?_⟩ rfl rfl
        · rintro ⟨hik, hne⟩
          refine ⟨by omega, fun j hj hjk => ?_⟩
          by_cases hji : j = i
          · rw [hji]
            exact hi
          · exact hne j (by omega) hjk
        · rintro ⟨hik, hne⟩
          exact ⟨by omega, fun j hj hjk => hne j (by omega) hjk⟩

/-- `strcpy` writes the bytes up to the first zero byte of the source. -/
theorem strcpy_apply (h : ∃ z < n, src z = 0) :
    strcpy dest src n k = if ∀ j < k, src j ≠ 0 then src k else dest k := by
  obtain ⟨z, hz, hzero⟩ := h
  rw [strcpy, strcpyLoop_apply ⟨z, Nat.zero_le _, by omega, hzero⟩]
  exact if_congr ⟨fun h j => h.2 j (Nat.zero_le _),
    fun h => ⟨Nat.zero_le _, fun j _ => h j⟩⟩ rfl rfl

/-- Copying a string through an array with a zero byte at its end copies the string. -/
theorem strcpy_strcpy {junk : Buf} (hsrc : src n = 0) (hn : n ≤ count) :
    strcpy dest (Function.update (strcpy junk src (n + 1)) count 0) (count + 1) =
      strcpy dest src (n + 1) := by
  have hz : ∃ z < n + 1, src z = 0 := ⟨n, Nat.lt_succ_self n, hsrc⟩
  -- up to the first zero byte, the array holds the string
  have hcopy : ∀ k, (∀ j < k, src j ≠ 0) →
      Function.update (strcpy junk src (n + 1)) count 0 k = src k := by
    intro k hne
    have hk : k ≤ n := by
      by_contra hlt
      exact hne n (by omega) hsrc
    by_cases hcount : k = count
    · obtain rfl : k = n := by omega
      rw [hcount, Function.update_self, ← hcount, hsrc]
    · rw [Function.update_of_ne hcount, strcpy_apply hz, if_pos hne]
  have hmore : ∀ k, (∀ j < k, Function.update (strcpy junk src (n + 1)) count 0 j ≠ 0) ↔
      ∀ j < k, src j ≠ 0 := by
    intro k
    induction k with
    | zero => exact iff_of_true (fun _ hj => absurd hj (Nat.not_lt_zero _)) fun _ hj =>
        absurd hj (Nat.not_lt_zero _)
    | succ k ih =>
      rw [Nat.forall_lt_succ_right, Nat.forall_lt_succ_right, ih]
      refine and_congr_right fun hne => ?_
      rw [hcopy k hne]
  funext k
  have hz' : ∃ z < count + 1, Function.update (strcpy junk src (n + 1)) count 0 z = 0 :=
    ⟨count, Nat.lt_succ_self _, Function.update_self _ _ _⟩
  rw [strcpy_apply hz', strcpy_apply hz]
  by_cases hne : ∀ j < k, src j ≠ 0
  · rw [if_pos ((hmore k).2 hne), if_pos hne, hcopy k hne]
  · rw [if_neg fun h => hne ((hmore k).1 h), if_neg hne]

/-- The copy of a string of at most `n` bytes is the array `f` up to there, and the destination as
it was from `count` on, exactly when what a zero byte in `f` cuts off is there already. -/
theorem strcpy_exact_iff {f : Buf} (hend : src n = 0) (hf : ∀ k < n, src k = f k) (hn : n ≤ count) :
    ((∀ k < n, strcpy dest src (n + 1) k = f k) ∧
        ∀ k, count ≤ k → strcpy dest src (n + 1) k = dest k) ↔
      (∀ j k, j < k → k < n → f j = 0 → dest k = f k) ∧
        ((∀ k < n, f k ≠ 0) → n = count → dest count = 0) := by
  have hz : ∃ z < n + 1, src z = 0 := ⟨n, Nat.lt_succ_self n, hend⟩
  constructor
  · rintro ⟨hin, hout⟩
    refine ⟨fun j k hjk hkn hj => ?_, fun hne hcount => ?_⟩
    · have hk := hin k hkn
      rw [strcpy_apply hz, if_neg fun hne => hne j hjk ((hf j (hjk.trans hkn)).trans hj)] at hk
      exact hk
    · have hk := hout count (Nat.le_refl _)
      rw [← hcount, strcpy_apply hz, if_pos fun j hj => by rw [hf j hj]; exact hne j hj, hend] at hk
      rw [← hcount]
      exact hk.symm
  · rintro ⟨hzeros, hlast⟩
    refine ⟨fun k hkn => ?_, fun k hk => ?_⟩
    · rw [strcpy_apply hz]
      by_cases hne : ∀ j < k, src j ≠ 0
      · rw [if_pos hne, hf k hkn]
      · rw [if_neg hne]
        push Not at hne
        obtain ⟨j, hjk, hj⟩ := hne
        exact hzeros j k hjk hkn ((hf j (hjk.trans hkn)).symm.trans hj)
    · rw [strcpy_apply hz]
      by_cases hne : ∀ j < k, src j ≠ 0
      · -- no zero byte before `k`, so the string ends at `k`
        have hkn : k ≤ n := by
          by_contra hlt
          exact hne n (by omega) hend
        obtain ⟨rfl, rfl⟩ : k = n ∧ n = count := by omega
        rw [if_pos hne, hend]
        exact (hlast (fun j hj => hf j hj ▸ hne j hj) rfl).symm
      · rw [if_neg hne]

/-! ## Reading -/

/-- The end of `rfs_read`: its array of `len + 1` bytes gets a zero byte and is copied to the buffer
of the caller. -/
def rfsReadCopy (rBuf buffer : Buf) (len : ℕ) : Buf :=
  strcpy rBuf (Function.update buffer len 0) (len + 1)

/-- `do_read` with the buffer of the caller; `junk` is what the array of `do_read` holds at
first. -/
def Files.doReadTo (w : Files) (fd : ℤ) (buf : Buf) (count : ℕ) (junk : Buf) :
    Except Fault ((ℤ × Buf) × Files) := do
  let ((len, bytes), w) ← w.doRead fd count
  let buffer := match bytes with
    | some bytes => rfsReadCopy junk bytes len.toNat
    | none => junk
  let buffer := Function.update buffer count 0
  return ((len, strcpy buf buffer (count + 1)), w)

/-- The array entry of the block at the offset exists, and its block is on the disk. -/
def Fetchable (x : Dinode) (offset : ℕ) : Prop :=
  offset / RFS_BLKSIZE < RFS_DIRECT_BLKNUM ∧ x.addrs (offset / RFS_BLKSIZE) < RAMDISK_BLOCK_COUNT

/-- The block at an offset inside the file can be read. -/
theorem FileAt.fetchable (h : FileAt s v x) (hoff : offset < x.size) :
    Fetchable x.toDinode offset :=
  have hb := h.block_lt hoff
  ⟨hb.trans_le h.file.blocks_le, h.lt_count hb⟩

/-- `rfs_read` reads the block at the offset first. -/
theorem rfsRead_fetchable {r : (ℕ × Buf × ℕ) × State} (hv : s.vinodes v = some x)
    (h : rfsRead s v len offset = .ok r) : Fetchable x.toDinode offset := by
  rw [rfsRead, State.vinode_eq_ok.2 hv, ok_bind] at h
  by_cases hsize : x.size < offset
  · simp [hsize] at h
  simp only [hsize, if_false] at h
  generalize (if x.size < offset + len then x.size - offset else len) = n at h
  obtain ⟨b, hb, h⟩ := (bind_ok_iff _ _ _).1 h
  obtain ⟨s₁, hs₁, -⟩ := (bind_ok_iff _ _ _).1 h
  rw [Dinode.addr] at hb
  split at hb
  · rename_i hlt
    cases hb
    refine ⟨hlt, ?_⟩
    by_contra hcount
    rw [rfsR1block, ramdiskRead, if_pos (Nat.le_of_not_lt hcount)] at hs₁
    cases hs₁
  · cases hb

/-- `rfs_read` from any offset of the file up to its end. -/
theorem rfsRead_upTo (h : FileAt s v x) (hoff : offset ≤ x.size)
    (hfetch : Fetchable x.toDinode offset)
    (len : ℕ) :
    ∃ n s', n = min len (x.size - offset) ∧
      rfsRead s v len offset = .ok ((n, s.bytes x.toDinode offset n, offset + n), s') := by
  by_cases hlt : offset < x.size
  · obtain ⟨-, n, s', hn, hread, -⟩ := rfsRead_exact h hlt len
    exact ⟨n, s', hn, hread⟩
  · obtain rfl : offset = x.size := by omega
    have hsat := (rfsReadT_end (P := fun _ => True) h trivial hfetch.1 hfetch.2 len).sat
    rw [snd_rfsReadT] at hsat
    cases hread : rfsRead s v len x.size with
    | error e =>
      rw [hread] at hsat
      exact hsat.elim
    | ok r =>
      obtain ⟨r, s'⟩ := r
      rw [hread] at hsat
      cases hsat
      exact ⟨0, s', by omega, by rw [State.bytes_zero]; rfl⟩

/-! ## Delivery -/

/-- A descriptor that may read leads to the file with the vinode `v`, open at `offset`. -/
structure ReadsFrom (w : Files) (fd : ℤ) (v : ℕ) (x : Vinode) (offset : ℕ) : Prop where
  entry : ∃ file, (w.entry fd).file w.fs = .ok file ∧ file.readable = true ∧
    file.vinode w.fs = .ok (v, x) ∧ file.offset = offset
  file : FileAt w.fs v x
  sb : x.sb = .rfs
  offset_le : offset ≤ x.size

/-- `do_read` returns the number of bytes up to the end of the file or the count, puts these bytes
of the file at the front of the buffer, and leaves alone what is behind the count. -/
def Delivers (w : Files) (fd : ℤ) (x : Vinode) (offset : ℕ) (buf : Buf) (count : ℕ)
    (junk : Buf) : Prop :=
  ∃ buf' w', w.doReadTo fd buf count junk = .ok
    ((((min count (x.size - offset) : ℕ) : ℤ), buf'), w') ∧
    (∀ k < min count (x.size - offset), buf' k = w.fs.byte x.toDinode (offset + k)) ∧
    ∀ k, count ≤ k → buf' k = buf k

theorem doReadTo_eq {w : Files} {fd : ℤ} (h : ReadsFrom w fd v x offset)
    (hfetch : Fetchable x.toDinode offset) (buf : Buf) (count : ℕ) (junk : Buf) :
    ∃ w' b, w.doReadTo fd buf count junk =
        .ok ((((min count (x.size - offset) : ℕ) : ℤ),
          strcpy buf b (min count (x.size - offset) + 1)), w') ∧
      b (min count (x.size - offset)) = 0 ∧
      ∀ k < min count (x.size - offset), b k = w.fs.byte x.toDinode (offset + k) := by
  obtain ⟨file, hfile, hread, hvinode, rfl⟩ := h.entry
  obtain ⟨n, s', hn, hrfs⟩ := rfsRead_upTo h.file h.offset_le hfetch count
  have hsb : viopSb w.fs v = .ok () := by
    rw [viopSb, h.file.vinode_ok, ok_bind, h.sb]
    rfl
  obtain ⟨w', hrun⟩ : ∃ w', w.doRead fd count =
      .ok (((n : ℤ), some (w.fs.bytes x.toDinode file.offset n)), w') := by
    rw [Files.doRead, hfile, ok_bind, hread]
    simp only [Bool.not_true, Bool.false_eq_true, if_false, readFile, hread, hvinode, ok_bind,
      h.file.file.type, hsb, hrfs, ne_eq, not_true_eq_false, pure_eq_ok]
    exact ⟨_, rfl⟩
  rw [← hn]
  refine ⟨w', Function.update (w.fs.bytes x.toDinode file.offset n) n 0, ?_,
    Function.update_self _ _ _, fun k hk => ?_⟩
  · rw [Files.doReadTo, hrun, ok_bind]
    dsimp only
    rw [Int.toNat_natCast, rfsReadCopy, strcpy_strcpy (Function.update_self _ _ _) (by omega)]
    rfl
  · rw [Function.update_of_ne (Nat.ne_of_lt hk), State.bytes, if_pos hk]

/-- `do_read` returns only when the block at the offset can be read. -/
theorem doReadTo_fetchable {w : Files} {fd : ℤ} {junk : Buf} {r : (ℤ × Buf) × Files}
    (h : ReadsFrom w fd v x offset) (hread : w.doReadTo fd buf count junk = .ok r) :
    Fetchable x.toDinode offset := by
  obtain ⟨file, hfile, hreadable, hvinode, rfl⟩ := h.entry
  have hsb : viopSb w.fs v = .ok () := by
    rw [viopSb, h.file.vinode_ok, ok_bind, h.sb]
    rfl
  rw [Files.doReadTo] at hread
  obtain ⟨r₁, hread, -⟩ := (bind_ok_iff _ _ _).1 hread
  rw [Files.doRead, hfile, ok_bind, hreadable] at hread
  simp only [Bool.not_true, Bool.false_eq_true, if_false, readFile, hreadable, hvinode, ok_bind,
    h.file.file.type, hsb, ne_eq, not_true_eq_false] at hread
  obtain ⟨r₂, hread, -⟩ := (bind_ok_iff _ _ _).1 hread
  obtain ⟨r₃, hread, -⟩ := (bind_ok_iff _ _ _).1 hread
  exact rfsRead_fetchable h.file.vinode hread

/-- What a zero byte among the bytes of the file cuts off is in the buffer already, and the byte
behind a buffer that is filled without a zero byte is zero. -/
def Uncut (w : Files) (x : Dinode) (offset : ℕ) (buf : Buf) (count : ℕ) : Prop :=
  (∀ j k, j < k → k < min count (x.size - offset) → w.fs.byte x (offset + j) = 0 →
      buf k = w.fs.byte x (offset + k)) ∧
    ((∀ k < min count (x.size - offset), w.fs.byte x (offset + k) ≠ 0) →
      min count (x.size - offset) = count → buf count = 0)

theorem Delivers.uncut {w : Files} {fd : ℤ} {junk : Buf} (h : ReadsFrom w fd v x offset)
    (hd : Delivers w fd x offset buf count junk) :
    Fetchable x.toDinode offset ∧ Uncut w x.toDinode offset buf count := by
  obtain ⟨buf', w', hread, hexact⟩ := hd
  have hfetch := doReadTo_fetchable h hread
  obtain ⟨w₁, b, hread₁, hb, hbk⟩ := doReadTo_eq h hfetch buf count junk
  rw [hread] at hread₁
  obtain rfl := (Prod.mk.inj (Prod.mk.inj (Except.ok.inj hread₁)).1).2
  exact ⟨hfetch, (strcpy_exact_iff hb hbk (Nat.min_le_left _ _)).1 hexact⟩

/-- **What `read` delivers**: exactly the bytes of the file when the block at the offset can be
read, what a zero byte among them cuts off is in the buffer already, and the byte behind a buffer
that they fill without a zero byte is zero already. -/
theorem delivers_iff {w : Files} {fd : ℤ} (h : ReadsFrom w fd v x offset) (buf : Buf) (count : ℕ)
    (junk : Buf) :
    Delivers w fd x offset buf count junk ↔
      Fetchable x.toDinode offset ∧ Uncut w x.toDinode offset buf count := by
  refine ⟨fun hd => hd.uncut h, ?_⟩
  rintro ⟨hfetch, hcond⟩
  obtain ⟨w', b, hread, hb, hbk⟩ := doReadTo_eq h hfetch buf count junk
  exact ⟨_, w', hread, (strcpy_exact_iff hb hbk (Nat.min_le_left _ _)).2 hcond⟩

/-- A process that has the file `x` open at the descriptor 0. -/
def sampleFiles (x : Vinode) : Files where
  fs := { sampleState x with
    dentries := fun t => if t = 1 then some ⟨[97], 1, some 0, some 9⟩ else none
    files := AList.singleton 2 ⟨true, true, 0, 1⟩ }
  pfiles :=
    { openedFiles := fun i => if i = 0 then .opened 2 else .none ⟨true, true, 0, 1⟩, nfiles := 1 }

theorem sample_readsFrom :
    ReadsFrom (sampleFiles (sampleFile 5000 2)) 0 0 (sampleFile 5000 2) 0 where
  entry := ⟨⟨true, true, 0, 1⟩, rfl, rfl, rfl, rfl⟩
  file :=
    have hfile := sample_fileAt (show 5000 ≤ RFS_BLKSIZE * 2 by decide) (by decide)
    ⟨rfl, hfile.file, hfile.data⟩
  sb := rfl
  offset_le := by decide

/-- Ten bytes for a buffer of zeros. -/
theorem delivers_iff_sample :
    Delivers (sampleFiles (sampleFile 5000 2)) 0 (sampleFile 5000 2) 0
        (fun _ => 0) 10 fun _ => 7 := by
  have hne : ∀ j < 10, (sampleFiles (sampleFile 5000 2)).fs.byte (sampleFile 5000 2).toDinode
      (0 + j) ≠ 0 := by
    decide
  refine (delivers_iff sample_readsFrom _ 10 _).2 ⟨⟨by decide, by decide⟩, ?_, fun _ _ => rfl⟩
  intro j k hjk hk hzero
  have hk' : k < 10 := hk
  exact absurd hzero (hne j (by omega))

/-- The byte 236 of the file is zero, so the bytes behind it are not delivered; and ten bytes for a
buffer of ten put a zero byte behind it. -/
theorem delivers_cut :
    (¬ Delivers (sampleFiles (sampleFile 5000 2)) 0 (sampleFile 5000 2) 0
      (fun _ => 1) 300 fun _ => 7) ∧
      ¬ Delivers (sampleFiles (sampleFile 5000 2)) 0 (sampleFile 5000 2) 0
          (fun _ => 1) 10 fun _ => 7 := by
  refine ⟨fun hd => ?_, fun hd => ?_⟩
  · have hbyte := (hd.uncut sample_readsFrom).2.1 236 238 (by decide) (by decide) (by decide)
    revert hbyte
    decide
  · have hbyte := (hd.uncut sample_readsFrom).2.2 (by decide) (by decide)
    revert hbyte
    decide

end HustOS.Fs
