import HustOS.Foundations.Interleave
import HustOS.Fs.Deliver

/-!
# The offsets of two descriptors

Descriptors that separate calls of `vfs_open` have opened on one path share the dentry and its
vinode, but each has a file structure of its own. RFS keeps the position in the file structure, so
reading and seeking through one descriptor does not disturb another (`rfsOp_separates`). hostfs
keeps it in the handle of the host file, which the vinode holds: the descriptors move one position,
and are undisturbed when each finds it where its own last operation has left it
(`hostOp_separates`).
-/

namespace HustOS.Fs

open Foundations

variable {ι : Type} [DecidableEq ι] {s s' : State} {v : ℕ} {x : Vinode}

/-- A call of `vfs_read` or `vfs_lseek`. -/
inductive OffsetOp
  | read (count : ℕ)
  | lseek (offset whence : ℤ)

/-! ## RFS -/

/-- A call through the descriptor `i` of a file of RFS: what it returns and the bytes read. -/
def rfsOp (w : State × (ι → File)) (i : ι) :
    OffsetOp → Except Fault ((ℤ × Option Buf) × State × (ι → File))
  | .read count => do
    let (r, bytes, file, s) ← readFile w.1 (w.2 i) count
    return ((r, bytes), s, Function.update w.2 i file)
  | .lseek offset whence => do
    let (r, file) ← lseekFile w.1 (w.2 i) offset whence
    return ((r, none), w.1, Function.update w.2 i file)

/-- The file structure is open on the file with the vinode `v`. -/
structure OpenOn (s : State) (v : ℕ) (x : Vinode) (file : File) : Prop where
  vinode : file.vinode s = .ok (v, x)
  fileAt : FileAt s v x
  sb : x.sb = .rfs
  offset_le : file.offset ≤ x.size

/-- A read finds a block at its offset; inside the file it always does. -/
def Fetches (x : Dinode) (w : State × (ι → File)) (i : ι) : OffsetOp → Prop
  | .read _ => (w.2 i).readable = true → Fetchable x (w.2 i).offset
  | .lseek _ _ => True

theorem SameButBuffer.symm (h : SameButBuffer s s') : SameButBuffer s' s := by
  obtain ⟨buf, rfl⟩ := h
  exact ⟨s.iobuffer, rfl⟩

theorem OpenOn.congr {file : File} (h : OpenOn s v x file) (hs : SameButBuffer s s') :
    OpenOn s' v x file := by
  obtain ⟨buf, rfl⟩ := hs
  exact ⟨h.vinode, h.fileAt.buffer buf, h.sb, h.offset_le⟩

theorem OpenOn.viopSb {file : File} (h : OpenOn s v x file) : viopSb s v = .ok () := by
  rw [Fs.viopSb, h.fileAt.vinode_ok, ok_bind, h.sb]
  rfl

/-- What `vfs_read` returns depends on the disk, the inode and the file structure only. -/
theorem OpenOn.read {file : File} (h : OpenOn s v x file) (count : ℕ)
    (hfetch : file.readable = true → Fetchable x.toDinode file.offset) :
    ∃ r bytes file', OpenOn s v x file' ∧ ∀ t, SameButBuffer s t →
      ∃ t', readFile t file count = .ok (r, bytes, file', t') ∧ SameButBuffer s t' := by
  cases hread : file.readable with
  | false =>
    refine ⟨-1, none, file, h, fun t ht => ⟨t, ?_, ht⟩⟩
    rw [readFile, hread]
    rfl
  | true =>
    have hle := h.offset_le
    refine ⟨(min count (x.size - file.offset) : ℕ),
      some (s.bytes x.toDinode file.offset (min count (x.size - file.offset))),
      { file with offset := file.offset + min count (x.size - file.offset) },
      ⟨h.vinode, h.fileAt, h.sb, ?_⟩, fun t ht => ?_⟩
    · dsimp only
      omega
    · have h' := h.congr ht
      obtain ⟨n, t', rfl, hrfs⟩ := rfsRead_upTo h'.fileAt h.offset_le (hfetch hread) count
      have hbytes : t.bytes x.toDinode file.offset (min count (x.size - file.offset)) =
          s.bytes x.toDinode file.offset (min count (x.size - file.offset)) := by
        obtain ⟨buf, rfl⟩ := ht
        rfl
      refine ⟨t', ?_, ht.trans (rfsRead_buffer hrfs)⟩
      simp only [readFile, hread, Bool.not_true, Bool.false_eq_true, if_false, h'.vinode, ok_bind,
        h.fileAt.file.type, h'.viopSb, hrfs, ne_eq, not_true_eq_false, pure_eq_ok, hbytes]

/-- The new offset is that of `rfs_lseek`. -/
theorem OpenOn.lseekFile_eq {file : File} (h : OpenOn s v x file) (offset whence : ℤ) {t : State}
    (ht : SameButBuffer s t) : lseekFile t file offset whence =
      match rfsLseek x.toDinode offset whence file.offset with
      | none => .ok (-1, file)
      | some o => .ok (o, { file with offset := o }) := by
  have h' := h.congr ht
  simp only [lseekFile, h'.vinode, ok_bind, h.fileAt.file.type, h'.viopSb, ne_eq,
    not_true_eq_false, if_false]
  rfl

/-- What `vfs_lseek` returns depends on the inode and the file structure only. -/
theorem OpenOn.lseek {file : File} (h : OpenOn s v x file) (offset whence : ℤ) :
    ∃ r file', OpenOn s v x file' ∧ ∀ t, SameButBuffer s t →
      lseekFile t file offset whence = .ok (r, file') := by
  have heq := fun t (ht : SameButBuffer s t) => h.lseekFile_eq offset whence ht
  cases hseek : rfsLseek x.toDinode offset whence file.offset with
  | none =>
    rw [hseek] at heq
    exact ⟨-1, file, h, heq⟩
  | some o =>
    rw [hseek] at heq
    refine ⟨o, { file with offset := o }, ⟨h.vinode, h.fileAt, h.sb, ?_⟩, heq⟩
    dsimp only
    rw [rfsLseek] at hseek
    split at hseek
    · split at hseek
      · cases hseek
      · cases hseek
        omega
    · split at hseek
      · split at hseek
        · cases hseek
        · cases hseek
          omega
      · cases hseek

/-- The run and the run alone differ in the buffer of the device and in the other descriptors. -/
structure RfsAlike (v : ℕ) (x : Vinode) (i : ι) (w u : State × (ι → File)) : Prop where
  opened : OpenOn w.1 v x (w.2 i)
  file : u.2 i = w.2 i
  fs : SameButBuffer w.1 u.1
  others : ∀ j, OpenOn w.1 v x (w.2 j)

/-- A call through one descriptor leaves the others open. -/
theorem OpenOn.others {w : State × (ι → File)} {i : ι} {file : File}
    (h : ∀ j, OpenOn w.1 v x (w.2 j)) (hfile : OpenOn w.1 v x file)
      (hs : SameButBuffer w.1 s') (j : ι) :
    OpenOn s' v x (Function.update w.2 i file j) := by
  by_cases hji : j = i
  · rw [hji, Function.update_self]
    exact hfile.congr hs
  · rw [Function.update_of_ne hji]
    exact (h j).congr hs

/-- One call through a descriptor: in states that differ in the buffer it does the same. -/
theorem rfsOp_eq {w : State × (ι → File)} (h : ∀ j, OpenOn w.1 v x (w.2 j)) (i : ι) (op : OffsetOp)
    (hfetch : Fetches x.toDinode w i op) :
    ∃ r file', OpenOn w.1 v x file' ∧ ∀ u : State × (ι → File), SameButBuffer w.1 u.1 →
      u.2 i = w.2 i →
      ∃ t', rfsOp u i op = .ok (r, t', Function.update u.2 i file') ∧ SameButBuffer w.1 t' := by
  cases op with
  | read count =>
    obtain ⟨r, bytes, file', hfile', hread⟩ := (h i).read count hfetch
    refine ⟨(r, bytes), file', hfile', fun u hu hfile => ?_⟩
    obtain ⟨t', hrun, ht'⟩ := hread u.1 hu
    refine ⟨t', ?_, ht'⟩
    rw [rfsOp, hfile, hrun]
    rfl
  | lseek offset whence =>
    obtain ⟨r, file', hfile', hseek⟩ := (h i).lseek offset whence
    refine ⟨(r, none), file', hfile', fun u hu hfile => ⟨u.1, ?_, hu⟩⟩
    rw [rfsOp, hfile, hseek u.1 hu]
    rfl

/-- **RFS keeps descriptors apart.** -/
theorem rfsOp_separates (v : ℕ) (x : Vinode) :
    Separates (@rfsOp ι _) (Fetches x.toDinode) (RfsAlike v x) where
  own i w u op halike hfetch := by
    obtain ⟨r, file', hfile', hrun⟩ := rfsOp_eq halike.others i op hfetch
    obtain ⟨s', hs', hbuf⟩ := hrun w (.refl w.1) rfl
    obtain ⟨t', ht', hbuf'⟩ := hrun u halike.fs halike.file
    have hopened := OpenOn.others halike.others hfile' (i := i) hbuf
    refine ⟨r, _, _, hs', ht', hopened i, ?_, hbuf.symm.trans hbuf', hopened⟩
    dsimp only
    rw [Function.update_self, Function.update_self]
  other i w u j op r w' halike hne hfetch hstep := by
    obtain ⟨r₁, file', hfile', hrun⟩ := rfsOp_eq halike.others j op hfetch
    obtain ⟨s', hs', hbuf⟩ := hrun w (.refl w.1) rfl
    rw [hstep] at hs'
    cases hs'
    have hopened := OpenOn.others halike.others hfile' (i := j) hbuf
    refine ⟨hopened i, ?_, hbuf.symm.trans halike.fs, hopened⟩
    exact halike.file.trans (Function.update_of_ne (Ne.symm hne) _ _).symm

/-! ## hostfs -/

/-- A file of the host that is open: its bytes and the position. -/
structure HostFile where
  bytes : List UInt8
  pos : ℕ

/-- `spike_file_read`, with the semantics of the POSIX call `read`. -/
def spikeFileRead (f : HostFile) (len : ℕ) : List UInt8 × HostFile :=
  let bytes := (f.bytes.drop f.pos).take len
  (bytes, { f with pos := f.pos + bytes.length })

/-- The position that the POSIX call `lseek` goes to. -/
def seekTarget (f : HostFile) (offset whence : ℤ) : ℤ :=
  if whence = 0 then offset
  else if whence = 1 then f.pos + offset
  else if whence = 2 then f.bytes.length + offset
  else -1

/-- `spike_file_lseek`, with the semantics of the POSIX call `lseek`: the new position, or -1. -/
def spikeFileLseek (f : HostFile) (offset whence : ℤ) : ℤ × HostFile :=
  if 0 ≤ seekTarget f offset whence then
    (seekTarget f offset whence, { f with pos := (seekTarget f offset whence).toNat })
  else (-1, f)

/-- `hostfs_hook_open`: the handle `i_fs_info` stays when there is one, else the host file is
opened. -/
def hostfsHookOpen (iFsInfo : Option HostFile) (opened : HostFile) : HostFile := iFsInfo.getD opened

/-- The descriptors of a file of hostfs: the handle in their vinode, and the members of their file
structures. `left` is no part of the source: the position at which the last call through a
descriptor that moved it has left it. -/
structure HostVfs (ι : Type) where
  host : HostFile
  readable : ι → Bool
  offset : ι → ℤ
  left : ι → ℕ

/-- A call through the descriptor `i` of a file of hostfs: what it returns and the bytes read. -/
def hostOp (w : HostVfs ι) (i : ι) : OffsetOp → Except Fault ((ℤ × List UInt8) × HostVfs ι)
  | .read count =>
    if !w.readable i then .ok ((-1, []), w)
    else
      let (bytes, host) := spikeFileRead w.host count
      let (offset, host) := spikeFileLseek host 0 1
      .ok ((bytes.length, bytes),
        { w with host := host, offset := Function.update w.offset i offset
                 left := Function.update w.left i host.pos })
  | .lseek offset whence =>
    let (r, host) := spikeFileLseek w.host offset whence
    .ok ((if 0 ≤ r then r else -1, []),
      { w with host := host, offset := Function.update w.offset i r
               left := if 0 ≤ r then Function.update w.left i host.pos else w.left })

/-- A call that starts from the position of the handle finds it where the descriptor's own last call
has left it. -/
def FindsOwn (w : HostVfs ι) (i : ι) : OffsetOp → Prop
  | .read _ => w.readable i = true → w.host.pos = w.left i
  | .lseek _ whence => whence = 1 → w.host.pos = w.left i

/-- The handle of the run alone is where the descriptor has left that of the run. -/
structure HostAlike (i : ι) (w u : HostVfs ι) : Prop where
  readable : u.readable i = w.readable i
  bytes : u.host.bytes = w.host.bytes
  pos : u.host.pos = w.left i

/-- Seeking by nothing tells the position. -/
theorem spikeFileLseek_cur (f : HostFile) : spikeFileLseek f 0 1 = ((f.pos : ℤ), f) := by
  simp [spikeFileLseek, seekTarget]

omit [DecidableEq ι] in
/-- A descriptor that finds its own position seeks to the same place alone. -/
theorem HostAlike.seekTarget_eq {i : ι} {w u : HostVfs ι} {offset whence : ℤ} (h : HostAlike i w u)
    (hfinds : whence = 1 → w.host.pos = w.left i) :
    seekTarget u.host offset whence = seekTarget w.host offset whence := by
  rw [seekTarget, seekTarget, h.bytes]
  by_cases hcur : whence = 1
  · rw [h.pos, hfinds hcur]
  · simp [hcur]

/-- What a call of another descriptor does to a descriptor. -/
theorem hostOp_other {i j : ι} {w w' : HostVfs ι} {op : OffsetOp} {r : ℤ × List UInt8} (hne : j ≠ i)
    (h : hostOp w j op = .ok (r, w')) :
    w'.readable = w.readable ∧ w'.host.bytes = w.host.bytes ∧ w'.left i = w.left i := by
  cases op with
  | read count =>
    simp only [hostOp, spikeFileRead, spikeFileLseek_cur] at h
    split at h
    · cases h
      exact ⟨rfl, rfl, rfl⟩
    · cases h
      exact ⟨rfl, rfl, Function.update_of_ne (Ne.symm hne) _ _⟩
  | lseek offset whence =>
    simp only [hostOp, spikeFileLseek] at h
    by_cases hvalid : 0 ≤ seekTarget w.host offset whence
    · simp only [if_pos hvalid] at h
      cases h
      exact ⟨rfl, rfl, Function.update_of_ne (Ne.symm hne) _ _⟩
    · simp only [if_neg hvalid] at h
      cases h
      exact ⟨rfl, rfl, rfl⟩

/-- **hostfs keeps descriptors apart** when each finds its own position. -/
theorem hostOp_separates : Separates (@hostOp ι _) FindsOwn HostAlike where
  own i w u op halike hfinds := by
    cases op with
    | read count =>
      simp only [hostOp, spikeFileRead, spikeFileLseek_cur, halike.readable]
      cases hread : w.readable i with
      | false => exact ⟨(-1, []), w, u, rfl, rfl, halike⟩
      | true =>
        have hpos : u.host.pos = w.host.pos := halike.pos.trans (hfinds hread).symm
        simp only [Bool.not_true, Bool.false_eq_true, if_false, halike.bytes, hpos]
        refine ⟨_, _, _, rfl, rfl, halike.readable, rfl, ?_⟩
        dsimp only
        rw [Function.update_self]
    | lseek offset whence =>
      have htarget : seekTarget u.host offset whence = seekTarget w.host offset whence :=
        halike.seekTarget_eq hfinds
      simp only [hostOp, spikeFileLseek, htarget]
      by_cases hvalid : 0 ≤ seekTarget w.host offset whence
      · simp only [if_pos hvalid]
        refine ⟨_, _, _, rfl, rfl, halike.readable, halike.bytes, ?_⟩
        dsimp only
        rw [Function.update_self]
      · simp only [if_neg hvalid]
        exact ⟨_, _, _, rfl, rfl, halike.readable, halike.bytes, halike.pos⟩
  other i w u j op r w' halike hne _ hstep := by
    obtain ⟨hreadable, hbytes, hleft⟩ := hostOp_other hne hstep
    exact ⟨by rw [hreadable, halike.readable], by rw [hbytes, halike.bytes],
      by rw [hleft, halike.pos]⟩

/-! ## Both file systems -/

/-- **Independent offsets**: descriptors of a file of RFS get the bytes and results that each gets
alone when no read is at the end of the file without a block there; descriptors of a file of hostfs
do when each read and each seek from the current position finds the position that the descriptor has
left. -/
theorem offsets_independent :
    (∀ (v : ℕ) (x : Vinode) (w : State × (ι → File)) (ops : List (ι × OffsetOp)),
        (∀ i, OpenOn w.1 v x (w.2 i)) → EachStep rfsOp (Fetches x.toDinode) w ops →
          Undisturbed rfsOp w ops) ∧
      ∀ (w : HostVfs ι) (ops : List (ι × OffsetOp)), (∀ i, w.left i = w.host.pos) →
        EachStep hostOp FindsOwn w ops → Undisturbed hostOp w ops := by
  refine ⟨fun v x w ops hopen hfetch => ?_, fun w ops hstart hfinds => ?_⟩
  · exact (rfsOp_separates v x).undisturbed hfetch fun i => ⟨hopen i, rfl, .refl w.1, hopen⟩
  · exact hostOp_separates.undisturbed hfinds fun i => ⟨rfl, rfl, (hstart i).symm⟩

/-- Two descriptors opened one after the other on a file of hostfs. -/
def twoOpens (bytes : List UInt8) : HostVfs Bool where
  host := hostfsHookOpen (some (hostfsHookOpen none ⟨bytes, 0⟩)) ⟨bytes, 0⟩
  readable _ := true
  offset _ := 0
  left _ := 0

/-- On RFS one seeks and the other reads; on hostfs one reads and the other reads from where it
seeks to. -/
theorem offsets_independent_sample :
    Undisturbed rfsOp ((sampleFiles (sampleFile 5000 2)).fs, fun _ : Bool => ⟨true, true, 0, 1⟩)
        [(true, .read 100), (false, .lseek 10 0)] ∧
      Undisturbed hostOp (twoOpens [5, 6, 7])
        [(true, .read 1), (false, .lseek 2 0), (false, .read 1)] := by
  refine ⟨offsets_independent.1 0 (sampleFile 5000 2) _ _ (fun _ => ?_) ⟨fun _ => ?_, ?_⟩,
    offsets_independent.2 _ _ (fun _ => rfl) ⟨fun _ => rfl, ?_⟩⟩
  · exact ⟨rfl, sample_readsFrom.file, rfl, Nat.zero_le _⟩
  · exact ⟨by decide, by decide⟩
  · exact fun _ _ _ => ⟨trivial, fun _ _ _ => trivial⟩
  · rintro _ _ ⟨⟩
    refine ⟨fun h => absurd h (by decide), ?_⟩
    rintro _ _ ⟨⟩
    exact ⟨fun _ => rfl, fun _ _ _ => trivial⟩

/-- The second descriptor reads on from where the first has stopped. -/
theorem offsets_shared :
    ¬ Undisturbed hostOp (twoOpens [5, 6, 7]) [(true, .read 1), (false, .read 1)] := by
  rintro ⟨rs, hrun, halone⟩
  have hfalse := halone false
  cases hrun
  revert hfalse
  decide

end HustOS.Fs
