import HustOS.Foundations.Table
import HustOS.Fs.RfsSpec
import Mathlib.Algebra.BigOperators.Group.Finset.Basic
import Mathlib.Algebra.Order.BigOperators.Group.Finset
import Mathlib.Order.Interval.Finset.Nat

/-!
# The volume

What RFS is about, apart from caches and buffers: an inode for each number, the entries of each
directory, and the set of data blocks in use (`Vol`). `Good` is what holds of a volume at any time:
the blocks of the inodes in use are distinct data blocks in use (`Owned`), each directory fits one
block, entries have distinct names and lead to inodes in use, and the link count of an inode is the
number of its entries. The last field compares the inodes in use with the blocks in use, so that
there is always a free inode (`Good.exists_free`).

The operations on a volume (`Vol.make`, `Vol.link`, `Vol.unlink`, `Vol.grow`, `Vol.resize`) keep
`Good`; the first three change a directory and the inode its entries lead to (`Vol.edit`).
-/

namespace HustOS.Fs

open Foundations

/-- A volume. -/
@[ext]
structure Vol where
  node : ℕ → Dinode
  dir : ℕ → List (Name × ℕ)
  used : Finset ℕ

namespace Vol

/-- The inode is in use. -/
def InUse (V : Vol) (i : ℕ) : Prop := (V.node i).type ≠ R_FREE

instance (V : Vol) : DecidablePred V.InUse := fun _ => inferInstanceAs (Decidable (_ ≠ _))

/-- The number of entries that lead to an inode. -/
def links (V : Vol) (i : ℕ) : ℕ := ∑ d ∈ Finset.range ninodes, ((V.dir d).map Prod.snd).count i

end Vol

/-- An inode of a file within the limits of the format. -/
structure IsFile (x : Dinode) : Prop where
  type : x.type = FILE_I
  blocks_le : x.blocks ≤ RFS_DIRECT_BLKNUM
  size_le : x.size ≤ RFS_BLKSIZE * x.blocks

/-- The blocks of the inodes in use are distinct and in `used`. -/
structure Owned (node : ℕ → Dinode) (used : Finset ℕ) : Prop where
  nodup : ∀ i, (node i).type ≠ R_FREE → (node i).blks.Nodup
  mem : ∀ i, (node i).type ≠ R_FREE → ∀ b ∈ (node i).blks, b ∈ used
  disjoint : ∀ i j, (node i).type ≠ R_FREE → (node j).type ≠ R_FREE → i ≠ j →
    ∀ b ∈ (node i).blks, b ∉ (node j).blks

/-- The blocks an inode accounts for: its own, and for a file the one taken at its creation. -/
def weight (x : Dinode) : ℕ :=
  if x.type = R_FREE then 0 else x.blocks + if x.type = FILE_I then 1 else 0

/-- What holds of a volume at any time. -/
structure Good (V : Vol) : Prop where
  root : (V.node 0).type = DIR_I
  lt : ∀ i, V.InUse i → i < ninodes
  kind : ∀ i, V.InUse i → IsFile (V.node i) ∨ IsDir (V.node i)
  fits : ∀ i, (V.node i).Fits
  data : ∀ b ∈ V.used, IsData b
  owned : Owned V.node V.used
  size : ∀ d, (V.node d).type = DIR_I → (V.node d).size = 32 * (V.dir d).length
  nil : ∀ d, (V.node d).type ≠ DIR_I → V.dir d = []
  names : ∀ d, ((V.dir d).map Prod.fst).Nodup
  entries : ∀ d, ∀ e ∈ V.dir d, e.1.Valid ∧ V.InUse e.2 ∧ e.2 ≠ 0
  nlinks : ∀ i, V.InUse i → i ≠ 0 → (V.node i).nlinks = V.links i ∧ 0 < V.links i
  single : ∀ d, (V.node d).type = DIR_I → V.links d ≤ 1
  weight : ∑ i ∈ Finset.range ninodes, weight (V.node i) ≤ V.used.card

/-! ## Consequences -/

theorem IsFile.inUse {x : Dinode} (h : IsFile x) : x.type ≠ R_FREE := by
  rw [h.type]
  decide

theorem IsDir.inUse {x : Dinode} (h : IsDir x) : x.type ≠ R_FREE := by
  rw [h.type]
  decide

theorem dir_type_ne {x : Dinode} (h : x.type = DIR_I) : x.type ≠ R_FREE := by
  rw [h]
  decide

namespace Good

variable {V : Vol} {b d i j : ℕ} {n : Name} {l : List (Name × ℕ)} {x : Dinode}

theorem isDir (h : Good V) (hd : (V.node d).type = DIR_I) : IsDir (V.node d) := by
  rcases h.kind d (dir_type_ne hd) with hf | hf
  · exact absurd (hd.symm.trans hf.type) (by decide)
  · exact hf

theorem isFile (h : Good V) (hj : (V.node j).type = FILE_I) : IsFile (V.node j) := by
  rcases h.kind j (by rw [Vol.InUse, hj]; decide) with hf | hf
  · exact hf
  · exact absurd (hj.symm.trans hf.type) (by decide)

theorem length_le (h : Good V) (d : ℕ) : (V.dir d).length ≤ 128 := by
  by_cases hd : (V.node d).type = DIR_I
  · have h₁ := h.size d hd
    have h₂ := (h.isDir hd).size_le
    omega
  · rw [h.nil d hd]
    simp

/-- An entry makes its directory one. -/
theorem dir_of_mem (h : Good V) {e : Name × ℕ} (he : e ∈ V.dir d) : (V.node d).type = DIR_I := by
  by_contra hd
  rw [h.nil d hd] at he
  simp at he

theorem links_le (h : Good V) (i : ℕ) : V.links i ≤ ninodes * 128 := by
  have hle : ∀ d ∈ Finset.range ninodes, ((V.dir d).map Prod.snd).count i ≤ 128 := fun d _ => by
    calc ((V.dir d).map Prod.snd).count i ≤ ((V.dir d).map Prod.snd).length := List.count_le_length
      _ = (V.dir d).length := List.length_map _
      _ ≤ 128 := h.length_le d
  calc V.links i ≤ ∑ _d ∈ Finset.range ninodes, 128 := Finset.sum_le_sum hle
    _ = ninodes * 128 := by rw [Finset.sum_const, Finset.card_range]; rfl

/-- Nothing leads to an inode that is not in use, nor to the root. -/
theorem links_eq_zero (h : Good V) (hi : ¬ V.InUse i ∨ i = 0) : V.links i = 0 := by
  refine Finset.sum_eq_zero fun d _ => List.count_eq_zero.2 fun hmem => ?_
  obtain ⟨e, he, rfl⟩ := List.mem_map.1 hmem
  have hent := h.entries d e he
  rcases hi with hi | hi
  · exact hi hent.2.1
  · exact hent.2.2 hi

/-- Entries of the same directory with the same name are the same. -/
theorem entry_unique (h : Good V) (hi : (n, i) ∈ V.dir d) (hj : (n, j) ∈ V.dir d) : i = j := by
  have := List.inj_on_of_nodup_map (h.names d) hi hj rfl
  exact congrArg Prod.snd this

/-- An inode with one link has one entry. -/
theorem link_unique (h : Good V) {d' : ℕ} {n' : Name} (hone : V.links i ≤ 1)
    (he : (n, i) ∈ V.dir d) (he' : (n', i) ∈ V.dir d') : d = d' ∧ n = n' := by
  have hlt : ∀ {d n}, (n, i) ∈ V.dir d → d ∈ Finset.range ninodes := fun he =>
    Finset.mem_range.2 (h.lt _ (dir_type_ne (h.dir_of_mem he)))
  have hpos : ∀ {d n}, (n, i) ∈ V.dir d → 0 < ((V.dir d).map Prod.snd).count i := fun he =>
    List.count_pos_iff.2 (List.mem_map.2 ⟨_, he, rfl⟩)
  have hdd : d = d' := by
    by_contra hne
    have hsum : ((V.dir d).map Prod.snd).count i + ((V.dir d').map Prod.snd).count i ≤
        V.links i := by
      rw [Vol.links, ← Finset.add_sum_erase _ _ (hlt he)]
      refine Nat.add_le_add_left ?_ _
      exact Finset.single_le_sum (f := fun d => ((V.dir d).map Prod.snd).count i)
        (fun _ _ => Nat.zero_le _) (Finset.mem_erase.2 ⟨Ne.symm hne, hlt he'⟩)
    have h₁ := hpos he
    have h₂ := hpos he'
    omega
  subst hdd
  refine ⟨rfl, ?_⟩
  have hcount : ((V.dir d).map Prod.snd).count i ≤ 1 :=
    (Finset.single_le_sum (f := fun d => ((V.dir d).map Prod.snd).count i)
      (fun _ _ => Nat.zero_le _) (hlt he)).trans hone
  by_contra hne
  have hmem : (n', i) ∈ (V.dir d).erase (n, i) :=
    (List.mem_erase_of_ne fun heq => hne (congrArg Prod.fst heq).symm).2 he'
  have hrest : 0 < (((V.dir d).erase (n, i)).map Prod.snd).count i :=
    List.count_pos_iff.2 (List.mem_map.2 ⟨_, hmem, rfl⟩)
  rw [((List.perm_cons_erase he).map Prod.snd).count_eq, List.map_cons, List.count_cons_self]
    at hcount
  omega

/-- A directory has one entry. -/
theorem dir_entry_unique (h : Good V) {d' : ℕ} {n' : Name} (hi : (V.node i).type = DIR_I)
    (he : (n, i) ∈ V.dir d) (he' : (n', i) ∈ V.dir d') : d = d' ∧ n = n' :=
  h.link_unique (h.single i hi) he he'

/-- **There are no more inodes in use than blocks**: each of them accounts for one. -/
theorem card_inUse_le (h : Good V) :
    (Finset.filter V.InUse (Finset.range ninodes)).card ≤ V.used.card := by
  have hone : ∀ i ∈ Finset.filter V.InUse (Finset.range ninodes), 1 ≤ Fs.weight (V.node i) :=
    fun i hi => by
    have huse := (Finset.mem_filter.1 hi).2
    rw [Fs.weight, if_neg huse]
    rcases h.kind i huse with hf | hf
    · rw [if_pos hf.type]
      omega
    · rw [hf.blocks]
      omega
  calc (Finset.filter V.InUse (Finset.range ninodes)).card
      = ∑ _i ∈ Finset.filter V.InUse (Finset.range ninodes), 1 := Finset.card_eq_sum_ones _
    _ ≤ ∑ i ∈ Finset.filter V.InUse (Finset.range ninodes), Fs.weight (V.node i) :=
        Finset.sum_le_sum hone
    _ ≤ ∑ i ∈ Finset.range ninodes, Fs.weight (V.node i) :=
        Finset.sum_le_sum_of_subset (Finset.filter_subset _ _)
    _ ≤ V.used.card := h.weight

/-- **There is always a free inode**: there are more inodes than blocks. -/
theorem exists_free (h : Good V) : ∃ i < ninodes, ¬ V.InUse i := by
  by_contra hall
  have hall : ∀ i ∈ Finset.range ninodes, V.InUse i := by
    intro i hi
    by_contra hfree
    exact hall ⟨i, Finset.mem_range.1 hi, hfree⟩
  have hsub : V.used ⊆ Finset.Ico RFS_BLK_OFFSET_FREE (RFS_BLK_OFFSET_FREE + dataBlocks) :=
    fun b hb => Finset.mem_Ico.2 (h.data b hb)
  have hcard := Finset.card_le_card hsub
  rw [Nat.card_Ico, Nat.add_sub_cancel_left] at hcard
  have hle := h.card_inUse_le.trans hcard
  rw [Finset.filter_true_of_mem hall, Finset.card_range] at hle
  exact absurd hle (by decide)

end Good

/-! ## Changes of a volume -/

variable {V : Vol} {b d i j : ℕ} {n : Name} {l : List (Name × ℕ)} {x : Dinode}
  {node : ℕ → Dinode} {used used' : Finset ℕ}

/-- A new value of one inode, with blocks no other inode has. -/
theorem Owned.update (h : Owned node used)
    (hx : x.type ≠ R_FREE → x.blks.Nodup ∧ (∀ b ∈ x.blks, b ∈ used') ∧
      ∀ j ≠ i, (node j).type ≠ R_FREE → ∀ b ∈ x.blks, b ∉ (node j).blks)
    (hu : ∀ j ≠ i, (node j).type ≠ R_FREE → ∀ b ∈ (node j).blks, b ∈ used') :
    Owned (Function.update node i x) used' where
  nodup k hk := by
    by_cases hki : k = i
    · subst hki
      rw [Function.update_self] at hk ⊢
      exact (hx hk).1
    · rw [Function.update_of_ne hki] at hk ⊢
      exact h.nodup k hk
  mem k hk := by
    by_cases hki : k = i
    · subst hki
      rw [Function.update_self] at hk ⊢
      exact (hx hk).2.1
    · rw [Function.update_of_ne hki] at hk ⊢
      exact hu k hki hk
  disjoint k m hk hm hkm := by
    by_cases hki : k = i
    · subst hki
      rw [Function.update_self] at hk ⊢
      rw [Function.update_of_ne (Ne.symm hkm)] at hm ⊢
      exact (hx hk).2.2 m (Ne.symm hkm) hm
    · rw [Function.update_of_ne hki] at hk ⊢
      by_cases hmi : m = i
      · subst hmi
        rw [Function.update_self] at hm ⊢
        exact fun b hb hb' => (hx hm).2.2 k hki hk b hb' hb
      · rw [Function.update_of_ne hmi] at hm ⊢
        exact h.disjoint k m hk hm hkm

/-- A new value of one inode with the same blocks. -/
theorem Owned.update_same (h : Owned node used) (ht : x.type ≠ R_FREE → (node i).type ≠ R_FREE)
    (hb : x.blks = (node i).blks) : Owned (Function.update node i x) used := by
  refine h.update (fun hx => ?_) fun j _ => h.mem j
  rw [hb]
  exact ⟨h.nodup i (ht hx), h.mem i (ht hx), fun j hj hj' =>
    h.disjoint i j (ht hx) hj' (Ne.symm hj)⟩

/-- The links after a change of one directory. -/
theorem links_update (V : Vol) (hd : d < ninodes) (j : ℕ) (node' : ℕ → Dinode) (used' : Finset ℕ) :
    Vol.links ⟨node', Function.update V.dir d l, used'⟩ j + ((V.dir d).map Prod.snd).count j =
      V.links j + (l.map Prod.snd).count j :=
  sum_update_add (Finset.mem_range.2 hd) V.dir l fun l => (l.map Prod.snd).count j

/-- What a change of one directory `d` and of the inode `i` its entries lead to has to satisfy: the
new entries `l`, the new inode `x` and the new blocks in use. -/
structure Edit (V : Vol) (d i : ℕ) (l : List (Name × ℕ)) (x : Dinode) (used' : Finset ℕ) :
    Prop where
  dir : (V.node d).type = DIR_I
  ne : i ≠ d
  ne_zero : i ≠ 0
  lt : i < ninodes
  nil : V.dir i = []
  length_le : l.length ≤ 128
  names : (l.map Prod.fst).Nodup
  entries : ∀ e ∈ l, e ∈ V.dir d ∨ e.2 = i
  valid : ∀ e ∈ l, e.1.Valid
  others : ∀ j, j ≠ i → (l.map Prod.snd).count j = ((V.dir d).map Prod.snd).count j
  fits : x.Fits
  kind : x.type ≠ R_FREE → 0 < x.nlinks ∧ (IsFile x ∨ IsDir x)
  free : x.type = R_FREE → x.nlinks = 0
  empty : x.type = DIR_I → x.size = 0 ∧ x.nlinks = 1
  nlinks : x.nlinks + ((V.dir d).map Prod.snd).count i = V.links i + (l.map Prod.snd).count i
  data : ∀ b ∈ used', IsData b
  owned : Owned (Function.update V.node i x) used'
  weight : ∑ k ∈ Finset.range ninodes, Fs.weight (V.node k) + Fs.weight x ≤
    used'.card + Fs.weight (V.node i)

/-- The volume after such a change. -/
def Vol.edit (V : Vol) (d i : ℕ) (l : List (Name × ℕ)) (x : Dinode) (used' : Finset ℕ) : Vol where
  node := Function.update (Function.update V.node d { V.node d with size := 32 * l.length }) i x
  dir := Function.update V.dir d l
  used := used'

namespace Edit

theorem node_self : (V.edit d i l x used').node i = x := Function.update_self _ _ _

theorem node_other (hi : j ≠ i) (hd : j ≠ d) : (V.edit d i l x used').node j = V.node j :=
  (Function.update_of_ne hi _ _).trans (Function.update_of_ne hd _ _)

theorem dir_self : (V.edit d i l x used').dir d = l := Function.update_self _ _ _

theorem dir_other (hd : j ≠ d) : (V.edit d i l x used').dir j = V.dir j :=
  Function.update_of_ne hd _ _

variable (he : Edit V d i l x used')

include he

theorem node_dir : (V.edit d i l x used').node d = { V.node d with size := 32 * l.length } :=
  (Function.update_of_ne he.ne.symm _ _).trans (Function.update_self _ _ _)

/-- The other inodes keep their type. -/
theorem type_eq (hi : j ≠ i) : ((V.edit d i l x used').node j).type = (V.node j).type := by
  by_cases hd : j = d
  · subst hd
    rw [he.node_dir]
  · rw [node_other hi hd]

theorem inUse_iff (hi : j ≠ i) : (V.edit d i l x used').InUse j ↔ V.InUse j := by
  rw [Vol.InUse, Vol.InUse, he.type_eq hi]

theorem links_other (h : Good V) (hi : j ≠ i) : (V.edit d i l x used').links j = V.links j := by
  have hd := h.lt d (dir_type_ne he.dir)
  have := links_update V (l := l) hd j (V.edit d i l x used').node used'
  rw [he.others j hi] at this
  exact Nat.add_right_cancel this

theorem links_self (h : Good V) : (V.edit d i l x used').links i = x.nlinks := by
  have hd := h.lt d (dir_type_ne he.dir)
  have := links_update V (l := l) hd i (V.edit d i l x used').node used'
  rw [← he.nlinks] at this
  exact Nat.add_right_cancel this

/-- An inode that is no longer in use has no entry left. -/
theorem inUse_self (h : Good V) {e : Name × ℕ} (hj : j < ninodes)
    (hmem : e ∈ (V.edit d i l x used').dir j) (hei : e.2 = i) :
    (V.edit d i l x used').InUse i := by
  rw [Vol.InUse, node_self]
  intro hfree
  have hz := he.links_self h
  rw [he.free hfree] at hz
  have hcount := (Finset.sum_eq_zero_iff.1 hz) j (Finset.mem_range.2 hj)
  rw [List.count_eq_zero] at hcount
  exact hcount (List.mem_map.2 ⟨e, hmem, hei⟩)

/-- **A change of a directory and an inode keeps a volume good.** -/
theorem good (h : Good V) : Good (V.edit d i l x used') where
  root := by
    rw [he.type_eq he.ne_zero.symm]
    exact h.root
  lt k hk := by
    by_cases hki : k = i
    · exact hki ▸ he.lt
    · exact h.lt k ((he.inUse_iff hki).1 hk)
  kind k hk := by
    by_cases hki : k = i
    · subst hki
      rw [Vol.InUse, node_self] at hk
      rw [node_self]
      exact (he.kind hk).2
    · have hk' := (he.inUse_iff hki).1 hk
      by_cases hkd : k = d
      · subst hkd
        have hdir := h.isDir he.dir
        rw [he.node_dir]
        refine .inr ⟨hdir.type, hdir.blocks, Nat.dvd_mul_right 32 _, ?_, hdir.data⟩
        have := he.length_le
        change 32 * l.length ≤ 4096
        omega
      · rw [node_other hki hkd]
        exact h.kind k hk'
  fits k := by
    by_cases hki : k = i
    · subst hki
      rw [node_self]
      exact he.fits
    · by_cases hkd : k = d
      · subst hkd
        have hfit := h.fits k
        rw [he.node_dir]
        refine ⟨?_, hfit.type, hfit.nlinks, hfit.blocks, hfit.addrs, hfit.past⟩
        have := he.length_le
        change 32 * l.length < 2 ^ 32
        omega
      · rw [node_other hki hkd]
        exact h.fits k
  data := he.data
  owned := by
    rw [Vol.edit, Function.update_comm he.ne.symm]
    refine he.owned.update_same (fun _ => ?_) ?_
    · rw [Function.update_of_ne he.ne.symm]
      exact dir_type_ne he.dir
    · rw [Function.update_of_ne he.ne.symm]
      rfl
  size k hk := by
    by_cases hki : k = i
    · subst hki
      rw [node_self] at hk ⊢
      rw [dir_other he.ne, he.nil, (he.empty hk).1]
      rfl
    · by_cases hkd : k = d
      · subst hkd
        rw [he.node_dir, dir_self]
      · rw [node_other hki hkd] at hk ⊢
        rw [dir_other hkd]
        exact h.size k hk
  nil k hk := by
    by_cases hki : k = i
    · subst hki
      rw [dir_other he.ne]
      exact he.nil
    · rw [he.type_eq hki] at hk
      have hkd : k ≠ d := by
        rintro rfl
        exact hk he.dir
      rw [dir_other hkd]
      exact h.nil k hk
  names k := by
    by_cases hkd : k = d
    · subst hkd
      rw [dir_self]
      exact he.names
    · rw [dir_other hkd]
      exact h.names k
  entries k e hmem := by
    have hold : e ∈ V.dir k → (V.edit d i l x used').InUse e.2 := by
      intro he'
      by_cases hei : e.2 = i
      · rw [hei]
        exact he.inUse_self h (h.lt k (dir_type_ne (h.dir_of_mem he'))) hmem hei
      · rw [he.inUse_iff hei]
        exact (h.entries k e he').2.1
    by_cases hkd : k = d
    · subst hkd
      have hmem' : e ∈ l := by
        rwa [dir_self] at hmem
      refine ⟨he.valid e hmem', ?_⟩
      rcases he.entries e hmem' with he' | hei
      · exact ⟨hold he', (h.entries k e he').2.2⟩
      · refine ⟨?_, hei ▸ he.ne_zero⟩
        rw [hei]
        exact he.inUse_self h (h.lt k (dir_type_ne he.dir)) hmem hei
    · have hmem' : e ∈ V.dir k := by
        rwa [dir_other hkd] at hmem
      have := h.entries k e hmem'
      exact ⟨this.1, hold hmem', this.2.2⟩
  nlinks k hk hk0 := by
    by_cases hki : k = i
    · subst hki
      rw [Vol.InUse, node_self] at hk
      rw [node_self, he.links_self h]
      exact ⟨rfl, (he.kind hk).1⟩
    · have hold := h.nlinks k ((he.inUse_iff hki).1 hk) hk0
      rw [he.links_other h hki]
      by_cases hkd : k = d
      · subst hkd
        rw [he.node_dir]
        exact hold
      · rw [node_other hki hkd]
        exact hold
  single k hk := by
    by_cases hki : k = i
    · subst hki
      rw [node_self] at hk
      rw [he.links_self h, (he.empty hk).2]
    · rw [he.type_eq hki] at hk
      rw [he.links_other h hki]
      exact h.single k hk
  weight := by
    have hd := h.lt d (dir_type_ne he.dir)
    obtain ⟨y, hy⟩ : ∃ y : Dinode, y = { V.node d with size := 32 * l.length } := ⟨_, rfl⟩
    have hnode : (V.edit d i l x used').node =
        Function.update (Function.update V.node d y) i x := by
      rw [hy]
      rfl
    have hwy : Fs.weight y = Fs.weight (V.node d) := by
      rw [hy]
      rfl
    have h₁ := sum_update_add (Finset.mem_range.2 he.lt) (Function.update V.node d y) x Fs.weight
    have h₂ := sum_update_add (Finset.mem_range.2 hd) V.node y Fs.weight
    rw [Function.update_of_ne he.ne] at h₁
    have h₃ := he.weight
    rw [hnode]
    change _ ≤ used'.card
    omega

end Edit

/-! ## Operations -/

namespace Vol

variable (V : Vol) (d : ℕ) (n : Name) (i b : ℕ) (x : Dinode)

/-- A new inode `i` with the value `x` and the name `n` in the directory `d`, with the block `b`. -/
def make : Vol := V.edit d i (V.dir d ++ [(n, i)]) x (insert b V.used)

/-- A new name for the inode `i`. -/
def link : Vol :=
  V.edit d i (V.dir d ++ [(n, i)]) { V.node i with nlinks := (V.node i).nlinks + 1 } V.used

/-- One name of the inode `i` less, and its new value `x`; the blocks `bs` are freed. -/
def unlink (bs : Finset ℕ) : Vol := V.edit d i ((V.dir d).erase (n, i)) x (V.used \ bs)

/-- A new block for the file `i`. -/
def grow : Vol where
  node := Function.update V.node i
    { V.node i with
      addrs := Function.update (V.node i).addrs (V.node i).blocks b
      blocks := (V.node i).blocks + 1 }
  dir := V.dir
  used := insert b V.used

/-- A new size for the file `i`. -/
def resize (size : ℕ) : Vol where
  node := Function.update V.node i { V.node i with size := size }
  dir := V.dir
  used := V.used

end Vol

/-- A directory with room for a new name. -/
structure Room (V : Vol) (d : ℕ) (n : Name) : Prop where
  dir : (V.node d).type = DIR_I
  length_lt : (V.dir d).length < 128
  valid : n.Valid
  fresh : n ∉ (V.dir d).map Prod.fst

namespace Room

variable (hr : Room V d n)

include hr

theorem names (h : Good V) : ((V.dir d ++ [(n, i)]).map Prod.fst).Nodup := by
  rw [List.map_append, List.nodup_append]
  refine ⟨h.names d, by simp, fun a ha b hb => ?_⟩
  obtain rfl : b = n := by simpa using hb
  rintro rfl
  exact hr.fresh ha

theorem length_le : (V.dir d ++ [(n, i)]).length ≤ 128 := by
  have := hr.length_lt
  rw [List.length_append, List.length_singleton]
  omega

omit hr in
theorem entries : ∀ e ∈ V.dir d ++ [(n, i)], e ∈ V.dir d ∨ e.2 = i := by
  intro e he
  rcases List.mem_append.1 he with he | he
  · exact .inl he
  · rw [List.mem_singleton.1 he]
    exact .inr rfl

theorem valid_append (h : Good V) : ∀ e ∈ V.dir d ++ [(n, i)], e.1.Valid := by
  intro e he
  rcases List.mem_append.1 he with he | he
  · exact (h.entries d e he).1
  · rw [List.mem_singleton.1 he]
    exact hr.valid

omit hr in
theorem count (j : ℕ) : ((V.dir d ++ [(n, i)]).map Prod.snd).count j =
    ((V.dir d).map Prod.snd).count j + if j = i then 1 else 0 := by
  rw [List.map_append, List.count_append, List.map_singleton, List.count_singleton]
  by_cases hj : j = i
  · simp [hj]
  · simp [hj, Ne.symm hj]

end Room

/-- **A new file or directory.** -/
theorem Good.make (h : Good V) (hr : Room V d n) (hi : i < ninodes) (hfree : ¬ V.InUse i)
    (hb : IsData b) (hbu : b ∉ V.used) (hx : x.Fits) (hn : x.nlinks = 1) (hsize : x.size = 0)
    (hx' : (x.type = FILE_I ∧ x.blocks = 0) ∨ (x.type = DIR_I ∧ x.blocks = 1 ∧ x.addrs 0 = b)) :
    Good (V.make d n i b x) := by
  have htype : x.type ≠ R_FREE := by
    rcases hx' with hx' | hx' <;> rw [hx'.1] <;> decide
  have hblks : ∀ c ∈ x.blks, c = b := by
    intro c hc
    obtain ⟨k, hk, rfl⟩ := Dinode.mem_blks.1 hc
    rcases hx' with hx' | hx'
    · omega
    · obtain rfl : k = 0 := by omega
      exact hx'.2.2
  have hnodup : x.blks.Nodup := by
    rcases hx' with hx' | hx'
    · simp [Dinode.blks, hx'.2]
    · simp [Dinode.blks, hx'.2.1]
  have hweight : Fs.weight x = 1 := by
    rcases hx' with hx' | hx'
    · rw [Fs.weight, if_neg htype, if_pos hx'.1, hx'.2]
    · rw [Fs.weight, if_neg htype, if_neg (by rw [hx'.1]; decide), hx'.2.1]
  refine Edit.good ?_ h
  exact {
    dir := hr.dir
    ne := by
      rintro rfl
      exact hfree (dir_type_ne hr.dir)
    ne_zero := by
      rintro rfl
      exact hfree (dir_type_ne h.root)
    lt := hi
    nil := h.nil i fun hd => hfree (dir_type_ne hd)
    length_le := hr.length_le
    names := hr.names h
    entries := Room.entries
    valid := hr.valid_append h
    others := fun j hj => by rw [Room.count, if_neg hj]; rfl
    fits := hx
    kind := fun _ => by
      refine ⟨by omega, ?_⟩
      rcases hx' with hx' | hx'
      · exact .inl ⟨hx'.1, by rw [hx'.2]; exact Nat.zero_le _, by rw [hsize]; exact Nat.zero_le _⟩
      · exact .inr ⟨hx'.1, hx'.2.1, by rw [hsize]; exact dvd_zero 32, by omega, hx'.2.2 ▸ hb⟩
    free := fun hf => absurd hf htype
    empty := fun _ => ⟨hsize, hn⟩
    nlinks := by
      rw [hn, Room.count, if_pos rfl, h.links_eq_zero (.inl hfree)]
      omega
    data := fun c hc => by
      rcases Finset.mem_insert.1 hc with rfl | hc
      · exact hb
      · exact h.data c hc
    owned := by
      refine h.owned.update (fun _ => ⟨hnodup, fun c hc => ?_, fun j _ hj c hc hc' => ?_⟩)
        fun j _ hj c hc => ?_
      · rw [hblks c hc]
        exact Finset.mem_insert_self b _
      · rw [hblks c hc] at hc'
        exact hbu (h.owned.mem j hj b hc')
      · exact Finset.mem_insert_of_mem (h.owned.mem j hj c hc)
    weight := by
      have hw := h.weight
      have hz : Fs.weight (V.node i) = 0 := if_pos (not_not.1 hfree)
      rw [Finset.card_insert_of_notMem hbu, hweight, hz]
      omega }

/-- **A new name for a file.** -/
theorem Good.link (h : Good V) (hr : Room V d n) (hj : (V.node j).type = FILE_I) :
    Good (V.link d n j) := by
  have huse : V.InUse j := (h.isFile hj).inUse
  have hj0 : j ≠ 0 := by
    rintro rfl
    exact absurd (hj.symm.trans h.root) (by decide)
  have hlinks := h.nlinks j huse hj0
  have hle := h.links_le j
  refine Edit.good ?_ h
  exact {
    dir := hr.dir
    ne := by
      rintro rfl
      exact absurd (hj.symm.trans hr.dir) (by decide)
    ne_zero := hj0
    lt := h.lt j huse
    nil := h.nil j fun hd => absurd (hj.symm.trans hd) (by decide)
    length_le := hr.length_le
    names := hr.names h
    entries := Room.entries
    valid := hr.valid_append h
    others := fun k hk => by rw [Room.count, if_neg hk]; rfl
    fits := by
      have hf := h.fits j
      refine ⟨hf.size, hf.type, ?_, hf.blocks, hf.addrs, hf.past⟩
      have : ninodes * 128 + 1 < 2 ^ 32 := by decide
      change (V.node j).nlinks + 1 < 2 ^ 32
      omega
    kind := fun _ => by
      have hf := h.isFile hj
      exact ⟨Nat.succ_pos _, .inl ⟨hf.type, hf.blocks_le, hf.size_le⟩⟩
    free := fun hf => absurd (hj.symm.trans hf) (by decide)
    empty := fun hd => absurd (hj.symm.trans hd) (by decide)
    nlinks := by
      rw [Room.count, if_pos rfl, ← hlinks.1]
      change (V.node j).nlinks + 1 + _ = _
      omega
    data := h.data
    owned := h.owned.update_same (fun _ => huse) rfl
    weight := by
      have hw := h.weight
      have hz : Fs.weight { V.node j with nlinks := (V.node j).nlinks + 1 } =
        Fs.weight (V.node j) := rfl
      rw [hz]
      omega }

/-- What the removal of an entry does to the targets of the others. -/
theorem count_erase_entry (he : (n, i) ∈ l) (j : ℕ) :
    ((l.erase (n, i)).map Prod.snd).count j + (if j = i then 1 else 0) =
      (l.map Prod.snd).count j := by
  rw [((List.perm_cons_erase he).map Prod.snd).count_eq, List.map_cons, List.count_cons]
  by_cases hj : j = i
  · simp [hj]
  · simp [hj, Ne.symm hj]

/-- **A name less for a file.** The inode stays with one link less, or is free without a link; the
blocks freed were the file's. -/
theorem Good.unlink (h : Good V) (he : (n, j) ∈ V.dir d) (hj : (V.node j).type = FILE_I)
    (hx : x.Fits) (hn : x.nlinks + 1 = (V.node j).nlinks) {bs : Finset ℕ}
    (hx' : (x.type = FILE_I ∧ 0 < x.nlinks ∧ x.blocks = (V.node j).blocks ∧
        x.addrs = (V.node j).addrs ∧ x.size = (V.node j).size ∧ bs = ∅) ∨
      (x.type = R_FREE ∧ x.nlinks = 0 ∧ ∀ b ∈ bs, b ∈ (V.node j).blks)) :
    Good (V.unlink d n j x bs) := by
  have huse : V.InUse j := (h.isFile hj).inUse
  have hj0 : j ≠ 0 := (h.entries d _ he).2.2
  have hlinks := h.nlinks j huse hj0
  have hdir := h.dir_of_mem he
  have hcount := fun k => count_erase_entry he k
  refine Edit.good ?_ h
  exact {
    dir := hdir
    ne := by
      rintro rfl
      exact absurd (hj.symm.trans hdir) (by decide)
    ne_zero := hj0
    lt := h.lt j huse
    nil := h.nil j fun hd => absurd (hj.symm.trans hd) (by decide)
    length_le := by
      have h₁ := h.length_le d
      have h₂ : ((V.dir d).erase (n, j)).length ≤ (V.dir d).length := List.length_erase_le
      omega
    names := (h.names d).sublist (List.erase_sublist.map Prod.fst)
    entries := fun e hmem => .inl (List.mem_of_mem_erase hmem)
    valid := fun e hmem => (h.entries d e (List.mem_of_mem_erase hmem)).1
    others := fun k hk => by rw [← hcount k, if_neg hk]; rfl
    fits := hx
    kind := fun ht => by
      rcases hx' with hx' | hx'
      · have hf := h.isFile hj
        refine ⟨hx'.2.1, .inl ⟨hx'.1, ?_, ?_⟩⟩
        · rw [hx'.2.2.1]
          exact hf.blocks_le
        · rw [hx'.2.2.1, hx'.2.2.2.2.1]
          exact hf.size_le
      · exact absurd hx'.1 ht
    free := fun ht => by
      rcases hx' with hx' | hx'
      · exact absurd (hx'.1.symm.trans ht) (by decide)
      · exact hx'.2.1
    empty := fun ht => by
      rcases hx' with hx' | hx' <;> exact absurd (hx'.1.symm.trans ht) (by decide)
    nlinks := by
      have := hcount j
      rw [if_pos rfl] at this
      rw [← hlinks.1]
      omega
    data := fun b hb => h.data b (Finset.mem_sdiff.1 hb).1
    owned := by
      rcases hx' with hx' | hx'
      · have hbs : V.used \ bs = V.used := by rw [hx'.2.2.2.2.2, Finset.sdiff_empty]
        rw [hbs]
        refine h.owned.update_same (fun _ => huse) ?_
        rw [Dinode.blks, Dinode.blks, hx'.2.2.1, hx'.2.2.2.1]
      · refine h.owned.update (fun ht => absurd hx'.1 ht) fun k hk hk' b hb => ?_
        refine Finset.mem_sdiff.2 ⟨h.owned.mem k hk' b hb, fun hbs => ?_⟩
        exact h.owned.disjoint j k huse hk' (Ne.symm hk) b (hx'.2.2 b hbs) hb
    weight := by
      have hw := h.weight
      rcases hx' with hx' | hx'
      · have hz : Fs.weight x = Fs.weight (V.node j) := by
          rw [Fs.weight, Fs.weight, hx'.1, hj, hx'.2.2.1]
        rw [hz, hx'.2.2.2.2.2, Finset.sdiff_empty]
        omega
      · have hz : Fs.weight x = 0 := if_pos hx'.1
        have hz' : Fs.weight (V.node j) = (V.node j).blocks + 1 := by
          rw [Fs.weight, if_neg huse, if_pos hj]
        have hbs : bs.card ≤ (V.node j).blocks := by
          have hsub : bs ⊆ (V.node j).blks.toFinset := fun b hb =>
            List.mem_toFinset.2 (hx'.2.2 b hb)
          calc bs.card ≤ (V.node j).blks.toFinset.card := Finset.card_le_card hsub
            _ ≤ (V.node j).blks.length := List.toFinset_card_le _
            _ = (V.node j).blocks := by simp [Dinode.blks]
        have hsd : V.used.card - bs.card ≤ (V.used \ bs).card := Finset.le_card_sdiff bs V.used
        rw [hz, hz']
        omega }

/-- The blocks of a file with a new one. -/
theorem blks_grow (x : Dinode) (b : ℕ) :
    Dinode.blks { x with addrs := Function.update x.addrs x.blocks b, blocks := x.blocks + 1 } =
      x.blks ++ [b] := by
  change (List.range (x.blocks + 1)).map (Function.update x.addrs x.blocks b) = _
  rw [List.range_succ, List.map_append, List.map_singleton, Function.update_self, Dinode.blks]
  congr 1
  refine List.map_congr_left fun k hk => ?_
  rw [List.mem_range] at hk
  exact Function.update_of_ne hk.ne _ _

/-- A new value of a file with the same directories. -/
theorem Good.updateFile {W : Vol} (h : Good V) (hj : (V.node j).type = FILE_I)
    (hnode : W.node = Function.update V.node j x) (hdir : W.dir = V.dir) (hx : IsFile x)
    (hf : x.Fits) (hn : x.nlinks = (V.node j).nlinks) (hdata : ∀ b ∈ W.used, IsData b)
    (howned : Owned W.node W.used)
    (hw : V.used.card + x.blocks ≤ W.used.card + (V.node j).blocks) : Good W := by
  have huse : V.InUse j := (h.isFile hj).inUse
  have hself : W.node j = x := by rw [hnode, Function.update_self]
  have hrest : ∀ k, k ≠ j → W.node k = V.node k := fun k hk => by
    rw [hnode, Function.update_of_ne hk]
  have htype : ∀ k, (W.node k).type = (V.node k).type := by
    intro k
    by_cases hk : k = j
    · rw [hk, hself, hx.type, hj]
    · rw [hrest k hk]
  have hdirNode : ∀ k, (V.node k).type = DIR_I → W.node k = V.node k := by
    intro k hk
    refine hrest k ?_
    rintro rfl
    exact absurd (hj.symm.trans hk) (by decide)
  have hiff : ∀ k, W.InUse k ↔ V.InUse k := fun k => by
    rw [Vol.InUse, Vol.InUse, ← htype k]
  have hlinks : ∀ k, W.links k = V.links k := fun k => by
    rw [Vol.links, Vol.links, hdir]
  exact {
    root := (htype 0).trans h.root
    lt := fun k hk => h.lt k ((hiff k).1 hk)
    kind := fun k hk => by
      by_cases hkj : k = j
      · rw [hkj, hself]
        exact .inl hx
      · rw [hrest k hkj]
        exact h.kind k ((hiff k).1 hk)
    fits := fun k => by
      by_cases hkj : k = j
      · rw [hkj, hself]
        exact hf
      · rw [hrest k hkj]
        exact h.fits k
    data := hdata
    owned := howned
    size := fun k hk => by
      rw [htype] at hk
      rw [hdirNode k hk, hdir]
      exact h.size k hk
    nil := fun k hk => by
      rw [hdir]
      exact h.nil k (by rwa [htype] at hk)
    names := by
      rw [hdir]
      exact h.names
    entries := fun k e he => by
      rw [hdir] at he
      have := h.entries k e he
      exact ⟨this.1, (hiff _).2 this.2.1, this.2.2⟩
    nlinks := fun k hk hk0 => by
      have hold := h.nlinks k ((hiff k).1 hk) hk0
      rw [hlinks]
      refine ⟨?_, hold.2⟩
      by_cases hkj : k = j
      · rw [hkj, hself, hn, ← hkj]
        exact hold.1
      · rw [hrest k hkj]
        exact hold.1
    single := fun k hk => by
      rw [hlinks]
      exact h.single k (by rwa [htype] at hk)
    weight := by
      have h₁ := sum_update_add (Finset.mem_range.2 (h.lt j huse)) V.node x Fs.weight
      have h₂ := h.weight
      have h₃ : Fs.weight x = x.blocks + 1 := by rw [Fs.weight, if_neg hx.inUse, if_pos hx.type]
      have h₄ : Fs.weight (V.node j) = (V.node j).blocks + 1 := by
        rw [Fs.weight, if_neg huse, if_pos hj]
      rw [hnode]
      omega }

/-- **A new block for a file.** -/
theorem Good.grow (h : Good V) (hj : (V.node j).type = FILE_I)
    (hlt : (V.node j).blocks < RFS_DIRECT_BLKNUM) (hb : IsData b) (hbu : b ∉ V.used) :
    Good (V.grow j b) := by
  have hfile := h.isFile hj
  have hfit := h.fits j
  have hnot : b ∉ (V.node j).blks := fun hmem => hbu (h.owned.mem j hfile.inUse b hmem)
  refine h.updateFile hj rfl rfl ⟨hfile.type, hlt, ?_⟩ ?_ rfl (fun c hc => ?_) ?_ ?_
  · change (V.node j).size ≤ RFS_BLKSIZE * ((V.node j).blocks + 1)
    exact hfile.size_le.trans (Nat.mul_le_mul_left _ (Nat.le_succ _))
  · refine ⟨hfit.size, hfit.type, hfit.nlinks, ?_, fun k => ?_, fun k hk => ?_⟩
    · change (V.node j).blocks + 1 < 2 ^ 32
      simp only [RFS_DIRECT_BLKNUM] at hlt
      omega
    · simp only [Function.update_apply]
      split
      · exact hb.lt_count.trans (by decide)
      · exact hfit.addrs k
    · simp only [Function.update_apply]
      rw [if_neg (by omega)]
      exact hfit.past k hk
  · rcases Finset.mem_insert.1 hc with rfl | hc
    · exact hb
    · exact h.data c hc
  · refine h.owned.update (fun _ => ?_) fun k _ hk c hc =>
      Finset.mem_insert_of_mem (h.owned.mem k hk c hc)
    rw [blks_grow]
    refine ⟨?_, fun c hc => ?_, fun k hkj hk c hc hck => ?_⟩
    · rw [List.nodup_append]
      refine ⟨h.owned.nodup j hfile.inUse, by simp, fun a ha c hc => ?_⟩
      obtain rfl : c = b := by simpa using hc
      rintro rfl
      exact hnot ha
    · rcases List.mem_append.1 hc with hc | hc
      · exact Finset.mem_insert_of_mem (h.owned.mem j hfile.inUse c hc)
      · rw [List.mem_singleton.1 hc]
        exact Finset.mem_insert_self b _
    · rcases List.mem_append.1 hc with hc | hc
      · exact h.owned.disjoint j k hfile.inUse hk (Ne.symm hkj) c hc hck
      · rw [List.mem_singleton.1 hc] at hck
        exact hbu (h.owned.mem k hk b hck)
  · change V.used.card + ((V.node j).blocks + 1) ≤ (insert b V.used).card + (V.node j).blocks
    rw [Finset.card_insert_of_notMem hbu]
    omega

/-- **A new size for a file.** -/
theorem Good.resize (h : Good V) (hj : (V.node j).type = FILE_I) {size : ℕ}
    (hsize : size ≤ RFS_BLKSIZE * (V.node j).blocks) : Good (V.resize j size) := by
  have hfile := h.isFile hj
  have hfit := h.fits j
  refine h.updateFile hj rfl rfl ⟨hfile.type, hfile.blocks_le, hsize⟩
    ⟨?_, hfit.type, hfit.nlinks, hfit.blocks, hfit.addrs, hfit.past⟩ rfl h.data
    (h.owned.update_same (fun _ => hfile.inUse) rfl) (Nat.le_refl _)
  have hb := hfile.blocks_le
  change size < 2 ^ 32
  simp only [RFS_BLKSIZE, PGSIZE, RFS_DIRECT_BLKNUM] at *
  omega

end HustOS.Fs
