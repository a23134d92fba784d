import HustOS.Fs.RfsSpec

/-!
# An RFS directory is a list

The operations of RFS on one directory (`DirOp`) against the list of its entries: an addition
appends a pair of name and inode number, a removal takes out the first pair with the name, a lookup
finds the inode number of the first pair with the name (`DirOp.Spec`), and opening the directory and
reading it to the end lists the pairs in order (`listDir`).

`DirRep s vd l` says that the directory with the vinode `vd` holds the list `l`; one operation keeps
it (`DirOp.sat`), and so does a sequence of them (`directory_refines_list`).
-/

namespace HustOS.Fs

open Foundations

/-! ## Operations on a directory and their meaning -/

/-- An operation of RFS on a directory. A link carries the vinode of the linked file and its inode
number, a removal the vinode of the file that loses a name. -/
inductive DirOp
  | create (name : Name)
  | mkdir (name : Name)
  | link (name : Name) (linkNode inum : ℕ)
  | unlink (name : Name) (unlinkVinode : ℕ)
  | lookup (name : Name)

/-- What an operation on a directory returns: the inode number of the vinode, or a code. -/
inductive DirRet
  | node (inum : Option ℕ)
  | code (r : ℤ)

namespace DirOp

/-- The name an operation is about. -/
def name : DirOp → Name
  | create n => n
  | mkdir n => n
  | link n _ _ => n
  | unlink n _ => n
  | lookup n => n

/-- The operation adds an entry. -/
def Adds : DirOp → Prop
  | create _ => True
  | mkdir _ => True
  | link _ _ _ => True
  | unlink _ _ => False
  | lookup _ => False

/-- The vinode an operation gets besides the directory is one of a regular file, as `vfs_link` and
`vfs_unlink` check. -/
def NodeOk (s : State) : DirOp → Prop
  | link _ w inum => ∃ x, s.vinodes w = some x ∧ x.type = FILE_I ∧ x.inum = inum ∧ inum < ninodes
  | unlink _ w => ∃ x, s.vinodes w = some x ∧ x.type = FILE_I
  | _ => True

end DirOp

/-- The inode number of a vinode that was returned. -/
def inumOf (r : Option ℕ × State) : Except Fault (DirRet × State) :=
  match r.1 with
  | none => .ok (.node none, r.2)
  | some v => do
    let x ← r.2.vinode v
    return (.node (some x.inum), r.2)

/-- Run an operation on the directory with the vinode `vd`. -/
def DirOp.exec (vd : ℕ) (s : State) : DirOp → Except Fault (DirRet × State)
  | create n => rfsCreate s vd n >>= inumOf
  | mkdir n => rfsMkdir s vd n >>= inumOf
  | link n w _ => do
    let (r, s) ← rfsLink s vd n w
    return (.code r, s)
  | unlink n w => do
    let (r, s) ← rfsUnlink s vd n w
    return (.code r, s)
  | lookup n => rfsLookup s vd n >>= inumOf

/-- What an operation returns and leaves, on the list of entries. -/
def DirOp.Spec (l : List (Name × ℕ)) (r : DirRet) (l' : List (Name × ℕ)) : DirOp → Prop
  | create n => ∃ i, r = .node (some i) ∧ l' = l ++ [(n, i)]
  | mkdir n => ∃ i, r = .node (some i) ∧ l' = l ++ [(n, i)]
  | link n _ i => r = .code 0 ∧ l' = l ++ [(n, i)]
  | unlink n _ =>
    if dirFind l n = none then r = .code (-1) ∧ l' = l else r = .code 0 ∧ l' = dirErase l n
  | lookup n => r = .node (dirFind l n) ∧ l' = l

/-- The faults an operation can end in: a creation without a free block or inode, a removal from an
empty directory or of an inode whose link count or blocks are not what the directory says. -/
def DirOp.MayFault (l : List (Name × ℕ)) (e : Fault) : DirOp → Prop
  | create _ => e = .panic "rfs_alloc_block: no more free block!\n" ∨ e = .undefined "free_dinode"
  | mkdir _ => e = .panic "rfs_alloc_block: no more free block!\n" ∨ e = .undefined "free_dinode"
  | link _ _ _ => False
  | unlink _ _ =>
    (l = [] ∧ e = .nullDeref) ∨
      e = .assertion "unlink_vinode->nlinks == unlink_dinode->nlinks" ∨
      e = .undefined "addrs" ∨ e = .undefined "freemap"
  | lookup _ => False

/-! ## The representation -/

/-- The directory with the vinode `vd` (with the value `y`) holds the entries `l`. -/
structure DirHolds (s : State) (vd : ℕ) (y : Vinode) (l : List (Name × ℕ)) : Prop where
  vinode : s.vinodes vd = some y
  dir : IsDir y.toDinode
  inum_lt : y.inum < ninodes
  list : dirList s.disk y.toDinode = l
  inums : ∀ e ∈ l, e.2 < ninodes
  page : vd < s.pages
  sb : s.sb.nblocks = dataBlocks

/-- The directory with the vinode `vd` holds the entries `l`. -/
def DirRep (s : State) (vd : ℕ) (l : List (Name × ℕ)) : Prop := ∃ y, DirHolds s vd y l

/-- The number of entries of a directory. -/
def dirCount (s : State) (vd : ℕ) : ℕ :=
  match s.vinodes vd with
  | some y => y.size / direntrySize
  | none => 0

variable {s s' : State} {vd : ℕ} {y y' : Vinode} {l : List (Name × ℕ)} {n : Name} {op : DirOp}

namespace DirHolds

theorem length (h : DirHolds s vd y l) : l.length = y.size / 32 := by
  rw [← h.list, length_dirList]

theorem dirCount_eq (h : DirHolds s vd y l) : dirCount s vd = l.length := by
  rw [dirCount, h.vinode, h.length]

theorem size_eq (h : DirHolds s vd y l) : y.size = 32 * l.length := by
  have := h.dir.dvd
  rw [h.length]
  omega

/-- What leaves the fields of the vinode and the data blocks alone keeps the entries. -/
theorem frame (h : DirHolds s vd y l) (hv : s'.vinodes vd = some y')
    (hy : y'.toDinode = { y.toDinode with nlinks := y'.nlinks }) (hi : y'.inum = y.inum)
    (hd : ∀ b, IsData b → s'.disk b = s.disk b) (hp : s.pages ≤ s'.pages) (hsb : s'.sb = s.sb) :
    DirHolds s' vd y' l := by
  have hdir : IsDir y'.toDinode := by
    rw [hy]
    exact ⟨h.dir.type, h.dir.blocks, h.dir.dvd, h.dir.size_le, h.dir.data⟩
  refine ⟨hv, hdir, hi ▸ h.inum_lt, ?_, h.inums, h.page.trans_le hp, hsb ▸ h.sb⟩
  rw [← h.list, dirList_eq hdir.size_le, dirList_eq h.dir.size_le, hy]
  change List.map (entry (s'.disk (y.addrs 0))) _ = _
  rw [hd _ h.dir.data]

/-- A new entry behind the others. -/
theorem add {i : ℕ} (h : DirHolds s vd y l) (hn : n.Valid) (hi : i < ninodes)
    (hfull : l.length < 128) (hv : s'.vinodes vd = some y')
    (hy : y'.toDinode = { y.toDinode with size := y.size + 32 }) (hi' : y'.inum = y.inum)
    (hd : s'.disk (y.addrs 0) = putEntry (s.disk (y.addrs 0)) y.size n i)
    (hp : s.pages ≤ s'.pages) (hsb : s'.sb = s.sb) :
    DirHolds s' vd y' (l ++ [(n, i)]) := by
  have hsize := h.size_eq
  have hdir : IsDir y'.toDinode := by
    rw [hy]
    refine ⟨h.dir.type, h.dir.blocks, ?_, ?_, h.dir.data⟩
    · exact Nat.dvd_add h.dir.dvd (dvd_refl 32)
    · change y.size + 32 ≤ 4096
      omega
  refine ⟨hv, hdir, hi' ▸ h.inum_lt, ?_, ?_, h.page.trans_le hp, hsb ▸ h.sb⟩
  · rw [← h.list]
    refine dirList_append (m := l.length) hfull hsize ?_ hn (hi.trans (by decide)) ?_
    · rw [hy]
      change y.size + 32 = _
      omega
    · rw [hy]
      change s'.disk (y.addrs 0) = _
      rw [hd, hsize]
  · intro e he
    rcases List.mem_append.1 he with he | he
    · exact h.inums e he
    · rw [List.mem_singleton.1 he]
      exact hi

/-- One entry less. -/
theorem remove {k : ℕ} (h : DirHolds s vd y l) (hk : k < l.length)
    (hv : s'.vinodes vd = some y')
    (hy : y'.toDinode = { y.toDinode with size := y.size - 32 }) (hi' : y'.inum = y.inum)
    (hd : s'.disk (y.addrs 0) = dropEntry (s.disk (y.addrs 0)) k)
    (hp : s.pages ≤ s'.pages) (hsb : s'.sb = s.sb) :
    DirHolds s' vd y' (l.eraseIdx k) := by
  have hsize := h.size_eq
  have hle := h.dir.size_le
  have hdir : IsDir y'.toDinode := by
    rw [hy]
    refine ⟨h.dir.type, h.dir.blocks, ?_, ?_, h.dir.data⟩
    · exact (Nat.dvd_sub h.dir.dvd (dvd_refl 32))
    · change y.size - 32 ≤ 4096
      omega
  refine ⟨hv, hdir, hi' ▸ h.inum_lt, ?_, ?_, h.page.trans_le hp, hsb ▸ h.sb⟩
  · rw [← h.list]
    refine dirList_eraseIdx (m := l.length - 1) (by omega) (by omega) (by omega) ?_ ?_
    · rw [hy]
      change y.size - 32 = _
      omega
    · rw [hy]
      exact hd
  · intro e he
    exact h.inums e (List.mem_of_mem_eraseIdx he)

end DirHolds

/-! ## One operation -/

/-- A name that is looked up. -/
theorem lookup_sat (h : DirRep s vd l) (hn : n.Valid) :
    Sat (DirOp.exec vd s (.lookup n))
      (fun r => (DirOp.lookup n).Spec l r.1 l ∧ DirRep r.2 vd l) (fun _ => False) := by
  obtain ⟨y, h⟩ := h
  have hlist := h.list
  rw [DirOp.exec]
  cases hf : dirFind l n with
  | none =>
    obtain ⟨buf, hr⟩ := rfsLookup_none h.vinode hn h.dir (hlist ▸ hf)
    rw [hr, ok_bind]
    exact ⟨⟨by rw [hf], rfl⟩, y, h.frame h.vinode rfl rfl (fun _ _ => rfl) (Nat.le_refl _) rfl⟩
  | some i =>
    have hi : i < ninodes := by
      obtain ⟨j, -, hj, -⟩ := dirIndex_spec hf
      exact h.inums _ (List.mem_of_getElem? hj)
    obtain ⟨buf, hr⟩ := rfsLookup_some h.vinode hn h.dir (hlist ▸ hf) hi
    rw [hr, ok_bind]
    simp only [inumOf, State.vinode, Function.update_self, ok_bind, pure_eq_ok, sat_ok]
    refine ⟨⟨by rw [hf]; rfl, rfl⟩, y, h.frame ?_ rfl rfl (fun _ _ => rfl) (Nat.le_succ _) rfl⟩
    exact (Function.update_of_ne h.page.ne _ _).trans h.vinode

/-- The entry of a file or directory just made. -/
theorem DirHolds.made {i k : ℕ} {x z : Dinode} {buf : Buf} (h : DirHolds s vd y l) (hn : n.Valid)
    (hfull : l.length < 128) (hi : i < ninodes) :
    Sat (inumOf (some s.pages, madeState s vd y n i k x z buf))
      (fun r => r.1 = .node (some i) ∧ DirRep r.2 vd (l ++ [(n, i)])) (fun _ => False) := by
  have hv : (madeState s vd y n i k x z buf).vinodes s.pages = some (newVinode z i) := by
    simp [madeState, Function.update_of_ne h.page.ne']
  simp only [inumOf, State.vinode_eq_ok.2 hv, ok_bind, pure_eq_ok, sat_ok]
  refine ⟨rfl, _, h.add hn hi hfull (Function.update_self _ _ _) rfl rfl ?_ (Nat.le_succ _) rfl⟩
  simp only [madeState, madeDisk, h.dir.data.setDinode h.inum_lt, Function.update_self]

/-- A name that is removed. -/
theorem DirHolds.unlink_sat {w : ℕ} {x : Vinode} (h : DirHolds s vd y l) (hn : n.Valid)
    (hx : s.vinodes w = some x) (hne : vd ≠ w) :
    Sat (DirOp.exec vd s (.unlink n w))
      (fun r => ∃ l', (DirOp.unlink n w).Spec l r.1 l' ∧ DirRep r.2 vd l')
      (fun e => (DirOp.unlink n w).MayFault l e) := by
  have hlist := h.list
  rw [DirOp.exec]
  by_cases hnil : l = []
  · rw [rfsUnlink_empty h.vinode (hlist.trans hnil)]
    exact .inl ⟨hnil, rfl⟩
  cases hf : dirFind l n with
  | none =>
    obtain ⟨buf, hr⟩ := rfsUnlink_missing (w := w) h.vinode hn h.dir.readable (hlist ▸ hnil)
      (hlist ▸ hf)
    rw [hr, ok_bind]
    refine ⟨l, ?_, y, h.frame h.vinode rfl rfl (fun _ _ => rfl) (Nat.le_refl _) rfl⟩
    rw [DirOp.Spec, if_pos hf]
    exact ⟨rfl, rfl⟩
  | some i =>
    have hi : i < ninodes := by
      obtain ⟨j, -, hj, -⟩ := dirIndex_spec hf
      exact h.inums _ (List.mem_of_getElem? hj)
    obtain ⟨buf, j, hj, herase, hr⟩ :=
      rfsUnlink_found (w := w) h.vinode hn h.dir.readable (hlist ▸ hf)
    rw [hlist] at herase
    rw [hr]
    refine Sat.bind (P := fun r => r.1 = 0 ∧ DirRep r.2 vd (dirErase l n)) ?_ ?_
    · refine Sat.bind ((dropLink_sat (s := { s with iobuffer := buf }) hx hi).mono'
        fun e he => .inr he) ?_
      rintro _ ⟨x', fm, buf', m, rfl⟩
      set s₁ : State :=
        { s with
          disk := s.disk.setDinode i x', iobuffer := buf', freemap := fm,
          vinodes := Function.update s.vinodes w (some { x with nlinks := m }) } with hs₁
      have h₁ : DirHolds s₁ vd y l :=
        h.frame ((Function.update_of_ne hne _ _).trans h.vinode) rfl rfl
          (fun b hb => hb.setDinode hi) (Nat.le_refl _) rfl
      obtain ⟨buf₂, hr₂⟩ := removeDirentry_eq h₁.vinode h₁.dir hj h₁.inum_lt
      rw [hr₂]
      refine ⟨rfl, { y with size := y.size - 32 }, ?_⟩
      rw [← herase]
      refine h₁.remove (by rw [h.length]; exact hj) (Function.update_self _ _ _) rfl rfl ?_
        (Nat.le_refl _) rfl
      simp only [h.dir.data.setDinode h.inum_lt, Function.update_self]
    · rintro ⟨r, s'⟩ ⟨hr0, hrep⟩
      refine ⟨_, ?_, hrep⟩
      rw [DirOp.Spec, if_neg (by rw [hf]; simp)]
      exact ⟨by rw [← hr0], rfl⟩

/-- **One operation on a directory** does to the list of its entries what `DirOp.Spec` says. -/
theorem DirOp.sat (h : DirRep s vd l) (hn : op.name.Valid) (hw : op.NodeOk s)
    (hroom : op.Adds → l.length < 128) :
    Sat (op.exec vd s) (fun r => ∃ l', op.Spec l r.1 l' ∧ DirRep r.2 vd l')
      (fun e => op.MayFault l e) := by
  obtain ⟨y, h⟩ := h
  have hsize := h.size_eq
  cases op with
  | create n =>
    have hfull := hroom trivial
    refine Sat.bind ((rfsCreate_sat h.vinode hn h.dir (by omega) h.inum_lt h.page.ne h.sb).mono'
      fun e he => he.imp_right And.left) ?_
    rintro _ ⟨i, k, buf, hfresh, x, -, rfl⟩
    refine Sat.mono' ((h.made hn hfull hfresh.inum_lt).mono fun r hr => ?_) fun _ hf => hf.elim
    exact ⟨_, ⟨i, hr.1, rfl⟩, hr.2⟩
  | mkdir n =>
    have hfull := hroom trivial
    refine Sat.bind ((rfsMkdir_sat h.vinode hn h.dir (by omega) h.inum_lt h.page.ne).mono'
      fun e he => he.imp_right And.left) ?_
    rintro _ ⟨i, k, buf, hfresh, x, -, rfl⟩
    refine Sat.mono' ((h.made hn hfull hfresh.inum_lt).mono fun r hr => ?_) fun _ hf => hf.elim
    exact ⟨_, ⟨i, hr.1, rfl⟩, hr.2⟩
  | link n w inum =>
    have hname : n.Valid := hn
    have hfull := hroom trivial
    obtain ⟨x, hx, hxt, rfl, hxi⟩ := hw
    have hne : vd ≠ w := by
      rintro rfl
      rw [h.vinode] at hx
      cases hx
      exact absurd (h.dir.type.symm.trans hxt) (by decide)
    obtain ⟨buf, hr⟩ := rfsLink_eq h.vinode hname h.dir (by omega) h.inum_lt hx hxi hne
    rw [DirOp.exec, hr, ok_bind]
    refine ⟨_, ⟨rfl, rfl⟩, _, h.add hname hxi hfull (Function.update_self _ _ _) rfl rfl ?_
      (Nat.le_refl _) rfl⟩
    simp only [h.dir.data.setDinode hxi, h.dir.data.setDinode h.inum_lt, Function.update_self]
  | unlink n w =>
    obtain ⟨x, hx, hxt⟩ := hw
    have hne : vd ≠ w := by
      rintro rfl
      rw [h.vinode] at hx
      cases hx
      exact absurd (h.dir.type.symm.trans hxt) (by decide)
    exact h.unlink_sat hn hx hne
  | lookup n => exact (lookup_sat ⟨y, h⟩ hn).mono fun r hr => ⟨l, hr⟩

/-! ## Reading a directory to the end -/

/-- `rfs_readdir` from an offset on until it returns -1; nothing when it has not after `n` calls. -/
def readdirLoop (s : State) (vd : ℕ) : ℕ → ℕ → Except Fault (Option (List (Name × ℕ)))
  | 0, _ => return none
  | n + 1, offset => do
    match ← rfsReaddir s vd offset with
    | none => return some []
    | some (e, offset) => return (← readdirLoop s vd n offset).map (e :: ·)

/-- `rfs_hook_opendir` and up to `n` calls of `rfs_readdir`. -/
def listDir (s : State) (vd n : ℕ) : Except Fault (Option (List (Name × ℕ))) := do
  let (_, s) ← rfsHookOpendir s vd
  readdirLoop s vd n 0

/-- Reading from an offset on lists the entries from there. -/
theorem readdirLoop_eq {c : DirCache} {m offset : ℕ} (hv : s.vinodes vd = some y)
    (hc : y.iFsInfo = some c) (hb : c.blockCount = 1) (hlen : l.length = y.size / 32)
    (hle : l.length ≤ 128) (hent : ∀ i < l.length, l[i]? = some (entry c.dirBaseAddr i))
    (hoff : offset ≤ l.length) (hm : l.length < offset + m) :
    readdirLoop s vd m offset = .ok (some (l.drop offset)) := by
  induction m generalizing offset with
  | zero => omega
  | succ m ih =>
    have hsize : y.size / direntrySize = l.length := hlen.symm
    rcases Nat.lt_or_ge offset l.length with hlt | hge
    · have hread : rfsReaddir s vd offset =
          .ok (some (entry c.dirBaseAddr offset, offset + 1)) := by
        have h₁ : ¬ l.length ≤ offset := by omega
        have h₂ : ¬ 1 * oneBlockDirentrys ≤ offset := by
          simp only [oneBlockDirentrys, RFS_BLKSIZE, PGSIZE, direntrySize]
          omega
        unfold rfsReaddir
        simp only [State.vinode_eq_ok.2 hv, ok_bind, hsize, h₁, if_false, hc, hb, h₂, pure_eq_ok]
      have hdrop : l.drop offset = entry c.dirBaseAddr offset :: l.drop (offset + 1) := by
        rw [List.drop_eq_getElem_cons hlt]
        congr 1
        have := hent offset hlt
        rw [List.getElem?_eq_getElem hlt] at this
        exact Option.some.inj this
      have hrest : readdirLoop s vd m (offset + 1) = .ok (some (l.drop (offset + 1))) :=
        ih (by omega) (by omega)
      simp only [readdirLoop, hread, ok_bind, hrest, pure_eq_ok, hdrop, Option.map_some]
    · have hread : rfsReaddir s vd offset = .ok none := by
        unfold rfsReaddir
        simp only [State.vinode_eq_ok.2 hv, ok_bind, hsize, hge, if_true, pure_eq_ok]
      simp only [readdirLoop, hread, ok_bind, pure_eq_ok, List.drop_eq_nil_of_le hge]

/-- The cache of a directory holds its entries. -/
theorem DirHolds.cache_entries (h : DirHolds s vd y l) {i : ℕ} (hi : i < l.length) :
    l[i]? = some (entry (dirCache s y).dirBaseAddr i) := by
  have hsize := h.size_eq
  have hle := h.dir.size_le
  rw [← h.list, dirList_eq hle, List.getElem?_map,
    List.getElem?_range (by rw [← h.length]; exact hi),
    Option.map_some]
  congr 1
  refine (entry_congr fun k hk => ?_).symm
  have hlt : 32 * i + k < RFS_BLKSIZE := by
    simp only [RFS_BLKSIZE, PGSIZE]
    omega
  change (if 0 ≤ _ ∧ _ < 0 + RFS_BLKSIZE then _ else _) = _
  rw [if_pos (by omega), Nat.zero_add, Nat.sub_zero]

/-- **Opening a directory and reading it to the end** lists its entries in order. -/
theorem DirHolds.listDir_eq (h : DirHolds s vd y l) {m : ℕ} (hm : l.length < m) :
    listDir s vd m = .ok (some l) := by
  have hsize := h.size_eq
  have hle := h.dir.size_le
  unfold listDir
  rw [rfsHookOpendir_eq h.vinode h.dir, ok_bind]
  refine (readdirLoop_eq (l := l) (c := dirCache s y)
    (y := { y with iFsInfo := some (dirCache s y) })
    (Function.update_self _ _ _) rfl rfl h.length (by omega) ?_
    (Nat.zero_le _) (by omega)).trans (by rw [List.drop_zero])
  exact fun i hi => h.cache_entries hi

/-! ## Sequences of operations -/

/-- A sequence of operations on the directory with the vinode `vd`, with what each returned: the
names fit a directory entry, and nothing is added to a directory with 128 entries. -/
inductive DirRun (vd : ℕ) (s₀ : State) : List (DirOp × DirRet) → State → Prop
  | start : DirRun vd s₀ [] s₀
  | step {tr : List (DirOp × DirRet)} {s s' : State} {op : DirOp} {r : DirRet}
      (run : DirRun vd s₀ tr s) (name : op.name.Valid) (node : op.NodeOk s)
      (room : op.Adds → dirCount s vd < oneBlockDirentrys) (exec : op.exec vd s = .ok (r, s')) :
      DirRun vd s₀ (tr ++ [(op, r)]) s'

/-- The same sequence on a list of entries. -/
inductive ListRun (l₀ : List (Name × ℕ)) : List (DirOp × DirRet) → List (Name × ℕ) → Prop
  | start : ListRun l₀ [] l₀
  | step {tr : List (DirOp × DirRet)} {l l' : List (Name × ℕ)} {op : DirOp} {r : DirRet}
      (run : ListRun l₀ tr l) (spec : op.Spec l r l') : ListRun l₀ (tr ++ [(op, r)]) l'

theorem DirRun.simulates {s₀ : State} {l₀ : List (Name × ℕ)} {tr : List (DirOp × DirRet)}
    (run : DirRun vd s₀ tr s) (h : DirRep s₀ vd l₀) : ∃ l, ListRun l₀ tr l ∧ DirRep s vd l := by
  induction run with
  | start => exact ⟨l₀, .start, h⟩
  | step _ name node room exec ih =>
    obtain ⟨l, hl, y, hy⟩ := ih
    have hsat := DirOp.sat ⟨y, hy⟩ name node fun ha => hy.dirCount_eq ▸ room ha
    rw [exec] at hsat
    obtain ⟨l', hspec, hrep⟩ := hsat
    exact ⟨l', hl.step hspec, hrep⟩

/-- **An RFS directory refines an ordered list of pairs.** After any sequence of operations on a
directory that holds the list `l₀`, it holds the list `l` that the same operations with the same
results lead to; opening it and reading it to the end lists exactly `l`; and a further operation
returns, apart from the faults of `DirOp.MayFault`. -/
theorem directory_refines_list {s₀ : State} {l₀ : List (Name × ℕ)} {tr : List (DirOp × DirRet)}
    (h : DirRep s₀ vd l₀) (run : DirRun vd s₀ tr s) :
    ∃ l, ListRun l₀ tr l ∧ DirRep s vd l ∧ (∀ m, l.length < m → listDir s vd m = .ok (some l)) ∧
      ∀ (op : DirOp) (e : Fault), op.name.Valid → op.NodeOk s →
        (op.Adds → dirCount s vd < oneBlockDirentrys) → op.exec vd s = .error e →
        op.MayFault l e := by
  obtain ⟨l, hl, y, hy⟩ := run.simulates h
  refine ⟨l, hl, ⟨y, hy⟩, fun m hm => hy.listDir_eq hm, fun op e name node room he => ?_⟩
  have hsat := DirOp.sat ⟨y, hy⟩ name node fun ha => hy.dirCount_eq ▸ room ha
  rwa [he] at hsat

/-- A file system with an empty root directory and the free inode 1. -/
def emptyRoot : State where
  disk := Disk.setDinode (fun _ _ => 0) 1
    { size := 0, type := R_FREE, nlinks := 0, blocks := 0, addrs := fun _ => 0 }
  iobuffer := fun _ => 0
  pages := 1
  pageAddr := id
  sb := { magic := RFS_MAGIC, size := 112, nblocks := 100, ninodes := 320, sRoot := 0 }
  freemap := fun k => if k = 0 then 1 else 0
  vfsRootDentry := 0
  dentries := fun _ => none
  vinodes := fun v => if v = 0 then
      some { size := 0, type := R_DIR, nlinks := 1, blocks := 1, addrs := fun _ => 12, inum := 0,
             ref := 1, iFsInfo := none, sb := .rfs }
    else none
  files := ∅
  dentryHashTable := ∅
  vinodeHashTable := ∅

theorem emptyRoot_rep : DirRep emptyRoot 0 [] :=
  ⟨_, rfl, ⟨rfl, rfl, by decide, by decide, by decide, by decide⟩, by decide, rfl, by simp,
    by decide, rfl⟩

theorem directory_refines_list_unlink :
    ∃ s l, ListRun [] [(.create [97], .node (some 1)), (.unlink [97] 1, .code 0)] l ∧
      DirRep s 0 l ∧ listDir s 0 (l.length + 1) = .ok (some l) := by
  obtain ⟨s₁, h₁⟩ : ∃ s, (DirOp.create [97]).exec 0 emptyRoot = .ok (.node (some 1), s) := ⟨_, rfl⟩
  have hs₁ : ∃ x, s₁.vinodes 1 = some x ∧ x.type = FILE_I := by
    cases h₁
    exact ⟨_, rfl, rfl⟩
  have hname : Name.Valid [97] := ⟨by decide, by decide⟩
  have run₁ : DirRun 0 emptyRoot [(.create [97], .node (some 1))] s₁ :=
    .step .start hname trivial (fun _ => by decide) h₁
  obtain ⟨s₂, h₂⟩ : ∃ s, (DirOp.unlink [97] 1).exec 0 s₁ = .ok (.code 0, s) := by
    cases h₁
    exact ⟨_, rfl⟩
  have run₂ : DirRun 0 emptyRoot
      [(.create [97], .node (some 1)), (.unlink [97] 1, .code 0)] s₂ :=
    run₁.step hname hs₁ (fun h => h.elim) h₂
  obtain ⟨l, hl, hrep, hlist, -⟩ := directory_refines_list emptyRoot_rep run₂
  exact ⟨s₂, l, hl, hrep, hlist _ (by omega)⟩

end HustOS.Fs
