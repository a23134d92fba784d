import HustOS.Foundations.Chain
import HustOS.Fs.Disk

/-!
# The generic hash table

`util/hash_table.c`: an array of head nodes, each the start of a linked list of nodes, one page
each. The first word of a node is its link, and so it is for a page on the list of free pages; the
model has one map of links for both.

A table whose equality respects its hash function is a finite map (`hashTable_map`): what a lookup
returns is determined by the history of the calls alone (`lastPut`). The two tables of the virtual
file system are of this kind (`dentryHashTable_lawful`, `vinodeHashTable_lawful`).

A stored key is modelled by what the functions of the table read of it.
-/

namespace HustOS.Fs.HashTable

open Foundations

variable {K : Type}

abbrev HASH_TABLE_SIZE : ℕ := 128

/-- A pointer to a node. -/
inductive Ptr
  | null
  /-- `hash_table->head + i`. -/
  | head (i : ℕ)
  | page (p : ℕ)
  deriving DecidableEq

/-- The nodes, and the list of free pages. -/
structure Memory (K : Type) where
  next : Ptr → Ptr
  key : Ptr → K
  /-- The field `value`, a pointer that is zero for `NULL`. -/
  value : Ptr → ℕ
  /-- `g_free_mem_list.next`. -/
  gFreeMemList : Ptr
  /-- The number of pages of the machine, which bounds the length of a list. -/
  pages : ℕ

/-- The functions of a `struct hash_table`. -/
structure Table (K : Type) where
  virtualHashEqual : K → K → Bool
  virtualHashFunc : K → ℕ

/-- `alloc_page`. -/
def allocPage (m : Memory K) : Ptr × Memory K :=
  if m.gFreeMemList = .null then (.null, m)
  else (m.gFreeMemList, { m with gFreeMemList := m.next m.gFreeMemList })

/-- `free_page`. -/
def freePage (p : Ptr) (m : Memory K) : Except Fault (Memory K) :=
  match p with
  | .page _ =>
    return { m with next := Function.update m.next p m.gFreeMemList, gFreeMemList := p }
  | _ => throw (.panic "free_page 0x%lx \n")

/-- The loop of `defalut_get`. -/
def getLoop (t : Table K) (key : K) (m : Memory K) : ℕ → Ptr → Except Fault ℕ
  | 0, _ => throw .spin
  | fuel + 1, node =>
    if node = .null then return 0
    else if t.virtualHashEqual (m.key node) key then return m.value node
    else getLoop t key m fuel (m.next node)

/-- `defalut_get`. -/
def defalutGet (t : Table K) (key : K) (m : Memory K) : Except Fault ℕ :=
  getLoop t key m (m.pages + 1) (m.next (.head (t.virtualHashFunc key)))

/-- `default_put`. -/
def defaultPut (t : Table K) (key : K) (value : ℕ) (m : Memory K) :
    Except Fault (ℤ × Memory K) := do
  let (node, m) := allocPage m
  if (← defalutGet t key m) ≠ 0 then return (-1, m)
  if node = .null then throw .nullDeref
  let head := Ptr.head (t.virtualHashFunc key)
  let m := { m with
    key := Function.update m.key node key
    value := Function.update m.value node value
    next := Function.update m.next node (m.next head) }
  return (0, { m with next := Function.update m.next head node })

/-- The loop of `default_erase`: the last node, or the one in front of a node with the key. -/
def eraseLoop (t : Table K) (key : K) (m : Memory K) : ℕ → Ptr → Except Fault Ptr
  | 0, _ => throw .spin
  | fuel + 1, head =>
    if m.next head = .null then return head
    else if t.virtualHashEqual (m.key (m.next head)) key then return head
    else eraseLoop t key m fuel (m.next head)

/-- `default_erase`. -/
def defaultErase (t : Table K) (key : K) (m : Memory K) : Except Fault (ℤ × Memory K) := do
  let head ← eraseLoop t key m (m.pages + 1) (.head (t.virtualHashFunc key))
  let node := m.next head
  if node ≠ .null then
    let m ← freePage node { m with next := Function.update m.next head (m.next node) }
    return (0, m)
  else return (-1, m)

/-- `default_equal`. -/
def defaultEqual [DecidableEq K] (key1 key2 : K) : Bool := key1 = key2

/-- `hash_table_init` without functions of its own for put, get and erase. -/
def hashTableInit [DecidableEq K] (equal : Option (K → K → Bool)) (func : Option (K → ℕ))
    (m : Memory K) : ℤ × Option (Table K) × Memory K :=
  let m := { m with
    next := fun p =>
      match p with
      | .head i => if i < HASH_TABLE_SIZE then .null else m.next (.head i)
      | p => m.next p }
  match func with
  | none => (-1, none, m)
  | some func => (0, some ⟨equal.getD defaultEqual, func⟩, m)

/-! ## Histories -/

/-- A call. -/
inductive Op (K : Type)
  | put (key : K) (value : ℕ)
  | get (key : K)
  | erase (key : K)

/-- A call with its result, a status or a pointer. -/
def Op.exec (t : Table K) (m : Memory K) : Op K → Except Fault (ℤ × Memory K)
  | .put key value => defaultPut t key value m
  | .get key => do return (← defalutGet t key m, m)
  | .erase key => defaultErase t key m

/-- The value of the last successful put of an equal key that has not been erased since. The history
has the last call first. -/
def lastPut (t : Table K) (key : K) : List (Op K × ℤ) → Option ℕ
  | [] => none
  | (.put key' value, r) :: h =>
    if r = 0 ∧ t.virtualHashEqual key' key then some value else lastPut t key h
  | (.erase key', r) :: h =>
    if r = 0 ∧ t.virtualHashEqual key' key then none else lastPut t key h
  | (.get _, _) :: h => lastPut t key h

/-- The values that are put are not `NULL`. -/
def Op.Valid : Op K → Prop
  | .put _ value => value ≠ 0
  | _ => True

/-- The free pages at the start: a list of different pages, no more than the machine has. -/
def Booted (m : Memory K) : Prop :=
  ∃ l : List ℕ, Chain .null m.next m.gFreeMemList (l.map .page) ∧ l.Nodup ∧ l.length ≤ m.pages

/-- The states of the table `t` after the calls of a history. -/
inductive Run [DecidableEq K] (t : Table K) : List (Op K × ℤ) → Memory K → Prop
  | init {equal : Option (K → K → Bool)} {func : Option (K → ℕ)} {m m' : Memory K}
      (boot : Booted m) (init : hashTableInit equal func m = (0, some t, m')) : Run t [] m'
  | step {h : List (Op K × ℤ)} {m m' : Memory K} {op : Op K} {r : ℤ} (run : Run t h m)
      (valid : op.Valid) (exec : op.exec t m = .ok (r, m')) : Run t ((op, r) :: h) m'

/-- The equality is an equivalence that the hash function respects, and the hash is an index of the
array of heads. -/
structure Lawful (t : Table K) : Prop where
  refl : ∀ k, t.virtualHashEqual k k = true
  symm : ∀ k k', t.virtualHashEqual k k' = true → t.virtualHashEqual k' k = true
  trans : ∀ k k' k'', t.virtualHashEqual k k' = true → t.virtualHashEqual k' k'' = true →
    t.virtualHashEqual k k'' = true
  func : ∀ k k', t.virtualHashEqual k k' = true → t.virtualHashFunc k = t.virtualHashFunc k'
  lt : ∀ k, t.virtualHashFunc k < HASH_TABLE_SIZE

/-! ## The lists of the table -/

variable {t : Table K} {m m' : Memory K} {bucket : ℕ → List ℕ} {free pre post l : List ℕ}
  {P : Finset ℕ} {key k : K} {p v n : ℕ}

/-- The first node of a list with an equal key, and its value. -/
def find (t : Table K) (m : Memory K) (key : K) (l : List ℕ) : Option ℕ :=
  (l.find? fun p => t.virtualHashEqual (m.key (.page p)) key).map fun p => m.value (.page p)

/-- The links hold the lists `bucket` of the table and the list `free` of free pages; the nodes are
in the list of their hash, and no two of them have equal keys. -/
structure Rep (t : Table K) (P : Finset ℕ) (m : Memory K) (bucket : ℕ → List ℕ) (free : List ℕ) :
    Prop where
  chain : ∀ i < HASH_TABLE_SIZE, Chain .null m.next (m.next (.head i)) ((bucket i).map .page)
  freeChain : Chain .null m.next m.gFreeMemList (free.map .page)
  nodup : ∀ i, (bucket i).Nodup
  freeNodup : free.Nodup
  apart : ∀ p ∈ free, ∀ i, p ∉ bucket i
  mem : ∀ i, ∀ p ∈ bucket i, p ∈ P
  freeMem : ∀ p ∈ free, p ∈ P
  card : P.card ≤ m.pages
  hash : ∀ i, ∀ p ∈ bucket i, t.virtualHashFunc (m.key (.page p)) = i
  distinct : ∀ i, ∀ p ∈ bucket i, ∀ q ∈ bucket i,
    t.virtualHashEqual (m.key (.page p)) (m.key (.page q)) = true → p = q
  value : ∀ i, ∀ p ∈ bucket i, m.value (.page p) ≠ 0

/-- The value of a key in the lists. -/
def lookup (t : Table K) (m : Memory K) (bucket : ℕ → List ℕ) (key : K) : Option ℕ :=
  find t m key (bucket (t.virtualHashFunc key))

theorem Rep.length_le (h : Rep t P m bucket free) (i : ℕ) : (bucket i).length ≤ m.pages := by
  classical
  have hsub : (bucket i).toFinset ⊆ P := by
    intro p hp
    exact h.mem i p (List.mem_toFinset.1 hp)
  have hcard := Finset.card_le_card hsub
  rw [List.toFinset_card_of_nodup (h.nodup i)] at hcard
  exact hcard.trans h.card

theorem mem_map_page {a : ℕ} : Ptr.page a ∈ l.map Ptr.page ↔ a ∈ l :=
  List.mem_map_of_injective fun _ _ => Ptr.page.inj

theorem head_notMem {i : ℕ} : Ptr.head i ∉ l.map Ptr.page := by
  simp

theorem getLoop_eq {node : Ptr} (c : Chain .null m.next node (l.map .page)) (hf : l.length < n) :
    getLoop t key m n node = .ok ((find t m key l).getD 0) := by
  induction l generalizing node n with
  | nil =>
    obtain ⟨n, rfl⟩ := Nat.exists_eq_add_of_lt hf
    obtain rfl : node = .null := c
    simp [getLoop, find, pure, Except.pure]
  | cons p l ih =>
    obtain ⟨rfl, -, c⟩ := c
    obtain ⟨n, rfl⟩ := Nat.exists_eq_add_of_lt hf
    rw [getLoop, if_neg nofun, find, List.find?_cons]
    by_cases hp : t.virtualHashEqual (m.key (.page p)) key = true
    · simp [hp, pure, Except.pure]
    · rw [if_neg hp, ih c (by simp only [List.length_cons]; omega), find]
      simp [hp]

/-- The loop stops in front of the first node with the key; bypassing that node leaves the
others. -/
theorem eraseLoop_some {a : Ptr} (c : Chain .null m.next (m.next a) ((pre ++ p :: post).map .page))
    (ha : a ∉ (pre ++ p :: post).map .page) (hnd : (pre ++ p :: post).Nodup)
    (hpre : ∀ q ∈ pre, ¬ t.virtualHashEqual (m.key (.page q)) key = true)
    (hp : t.virtualHashEqual (m.key (.page p)) key = true) (hf : pre.length < n) :
    ∃ b, eraseLoop t key m n a = .ok b ∧ m.next b = .page p ∧ (b = a ∨ b ∈ pre.map .page) ∧
      Chain .null (Function.update m.next b (m.next (.page p)))
        (Function.update m.next b (m.next (.page p)) a) ((pre ++ post).map .page) := by
  induction pre generalizing a n with
  | nil =>
    obtain ⟨n, rfl⟩ := Nat.exists_eq_add_of_lt hf
    obtain ⟨hnext, -, c⟩ := c
    have hpost : a ∉ post.map .page := fun hm => ha (List.mem_cons_of_mem _ hm)
    refine ⟨a, ?_, hnext, .inl rfl, ?_⟩
    · rw [eraseLoop, hnext, if_neg nofun, if_pos hp]
      rfl
    · rw [Function.update_self]
      exact c.update_of_notMem hpost
  | cons r pre ih =>
    obtain ⟨n, rfl⟩ := Nat.exists_eq_add_of_lt hf
    obtain ⟨hnext, -, c⟩ := c
    have hr : Ptr.page r ∉ (pre ++ p :: post).map .page := by
      rw [mem_map_page]
      exact (List.nodup_cons.1 hnd).1
    obtain ⟨b, hb, hnb, hmem, hc⟩ := ih (n := (r :: pre).length + n) c hr
      (List.nodup_cons.1 hnd).2 (fun q hq => hpre q (List.mem_cons_of_mem _ hq))
      (by simp only [List.length_cons]; omega)
    have hab : a ≠ b := by
      rintro rfl
      refine ha ?_
      rcases hmem with rfl | hmem
      · exact List.mem_map_of_mem List.mem_cons_self
      · rw [List.map_append]
        exact List.mem_append_left _ (List.mem_cons_of_mem _ hmem)
    refine ⟨b, ?_, hnb, .inr ?_, ?_⟩
    · rw [eraseLoop, hnext, if_neg nofun, if_neg (hpre r List.mem_cons_self)]
      exact hb
    · rcases hmem with rfl | hmem
      · exact List.mem_cons_self
      · exact List.mem_cons_of_mem _ hmem
    · rw [Function.update_of_ne hab, hnext]
      exact ⟨rfl, nofun, hc⟩

/-- Without a node with the key the loop goes to the end. -/
theorem eraseLoop_none {a : Ptr} (c : Chain .null m.next (m.next a) (l.map .page))
    (hl : ∀ q ∈ l, ¬ t.virtualHashEqual (m.key (.page q)) key = true) (hf : l.length < n) :
    ∃ b, eraseLoop t key m n a = .ok b ∧ m.next b = .null := by
  induction l generalizing a n with
  | nil =>
    obtain ⟨n, rfl⟩ := Nat.exists_eq_add_of_lt hf
    have hnext : m.next a = .null := c
    exact ⟨a, by rw [eraseLoop, if_pos hnext]; rfl, hnext⟩
  | cons r l ih =>
    obtain ⟨n, rfl⟩ := Nat.exists_eq_add_of_lt hf
    obtain ⟨hnext, -, c⟩ := c
    obtain ⟨b, hb, hnb⟩ := ih (n := (r :: l).length + n) c
      (fun q hq => hl q (List.mem_cons_of_mem _ hq)) (by simp only [List.length_cons]; omega)
    refine ⟨b, ?_, hnb⟩
    rw [eraseLoop, hnext, if_neg nofun, if_neg (hl r List.mem_cons_self)]
    exact hb

/-! ## The calls -/

section Calls

variable (hc : Lawful t) (h : Rep t P m bucket free)

include hc h

theorem defalutGet_eq (key : K) : defalutGet t key m = .ok ((lookup t m bucket key).getD 0) :=
  getLoop_eq (h.chain _ (hc.lt key)) (Nat.lt_succ_of_le (h.length_le _))

omit hc in
theorem lookup_ne_zero (hv : lookup t m bucket key = some v) : v ≠ 0 := by
  obtain ⟨p, hp, rfl⟩ := Option.map_eq_some_iff.1 hv
  exact h.value _ p (List.mem_of_find?_eq_some hp)

omit hc in
/-- A page is taken off the list of free pages. -/
theorem Rep.taken {a : Ptr} (ha : allocPage m = (a, m')) :
    (free = [] ∧ a = .null ∧ m' = m) ∨ ∃ p rest, free = p :: rest ∧ a = .page p ∧
      m' = { m with gFreeMemList := m.next (.page p) } ∧ Rep t P m' bucket rest := by
  rw [allocPage] at ha
  rcases free with _ | ⟨p, rest⟩
  · have hnull : m.gFreeMemList = .null := h.freeChain
    rw [if_pos hnull] at ha
    cases ha
    exact .inl ⟨rfl, rfl, rfl⟩
  · obtain ⟨hhead, -, c⟩ := h.freeChain
    rw [hhead, if_neg nofun] at ha
    cases ha
    refine .inr ⟨p, rest, rfl, rfl, rfl, ?_⟩
    exact { h with
      freeChain := c
      freeNodup := (List.nodup_cons.1 h.freeNodup).2
      apart := fun q hq => h.apart q (List.mem_cons_of_mem _ hq)
      freeMem := fun q hq => h.freeMem q (List.mem_cons_of_mem _ hq) }

end Calls

/-- The memory after a put of the node `p`. -/
def linked (t : Table K) (key : K) (v p : ℕ) (m : Memory K) : Memory K :=
  { m with
    key := Function.update m.key (.page p) key
    value := Function.update m.value (.page p) v
    next := Function.update
      (Function.update m.next (.page p) (m.next (.head (t.virtualHashFunc key))))
      (.head (t.virtualHashFunc key)) (.page p) }

theorem linked_key_of_ne {q : ℕ} (hq : q ≠ p) :
    (linked t key v p m).key (.page q) = m.key (.page q) :=
  Function.update_of_ne (fun e => hq (Ptr.page.inj e)) _ _

theorem linked_value_of_ne {q : ℕ} (hq : q ≠ p) :
    (linked t key v p m).value (.page q) = m.value (.page q) :=
  Function.update_of_ne (fun e => hq (Ptr.page.inj e)) _ _

theorem linked_next_of_ne {a : Ptr} (hp : a ≠ .page p) (hh : a ≠ .head (t.virtualHashFunc key)) :
    (linked t key v p m).next a = m.next a := by
  simp only [linked]
  rw [Function.update_of_ne hh, Function.update_of_ne hp]

theorem find_congr (hkey : ∀ q ∈ l, m'.key (.page q) = m.key (.page q))
    (hval : ∀ q ∈ l, m'.value (.page q) = m.value (.page q)) : find t m' k l = find t m k l := by
  induction l with
  | nil => rfl
  | cons q l ih =>
    have ih := ih (fun r hr => hkey r (List.mem_cons_of_mem _ hr))
      fun r hr => hval r (List.mem_cons_of_mem _ hr)
    simp only [find, List.find?_cons, hkey q List.mem_cons_self] at ih ⊢
    split
    · simp [hval q List.mem_cons_self]
    · exact ih

theorem mem_update_cons {i j q : ℕ} : q ∈ Function.update bucket i (p :: bucket i) j ↔
    (j = i ∧ q = p) ∨ q ∈ bucket j := by
  by_cases hj : j = i
  · subst hj
    simp
  · simp [hj]

/-- The lists after a put. -/
theorem Rep.linked (hc : Lawful t) (h : Rep t P m bucket free) (hp : p ∉ free)
    (hpb : ∀ i, p ∉ bucket i) (hP : p ∈ P) (hnone : lookup t m bucket key = none) (hv : v ≠ 0) :
    Rep t P (linked t key v p m) (Function.update bucket (t.virtualHashFunc key)
      (p :: bucket (t.virtualHashFunc key))) free := by
  set m' := HashTable.linked t key v p m with hm'
  have hkey : m'.key (.page p) = key := Function.update_self ..
  have hval : m'.value (.page p) = v := Function.update_self ..
  have hne : ∀ i, ∀ q ∈ bucket i, q ≠ p := fun i q hq e => hpb i (e ▸ hq)
  have hnext : ∀ l : List ℕ, p ∉ l → ∀ a ∈ l.map Ptr.page, m'.next a = m.next a := by
    intro l hl a ha
    refine linked_next_of_ne ?_ ?_
    · rintro rfl
      exact hl (mem_map_page.1 ha)
    · rintro rfl
      exact head_notMem ha
  have hnot : ∀ q ∈ bucket (t.virtualHashFunc key),
      ¬ t.virtualHashEqual (m.key (.page q)) key = true := by
    intro q hq
    exact List.find?_eq_none.1 (Option.map_eq_none_iff.1 hnone) q hq
  -- a node with a key equal to the new one would be in the list of its hash
  have hfresh : ∀ i, ∀ q ∈ bucket i, ¬ t.virtualHashEqual (m.key (.page q)) key = true := by
    intro i q hq he
    have hi := h.hash i q hq
    rw [hc.func _ _ he] at hi
    exact hnot q (hi ▸ hq) he
  refine
    { chain := fun i hi => ?_
      freeChain := h.freeChain.congr (hnext free hp)
      nodup := fun i => ?_
      freeNodup := h.freeNodup
      apart := fun q hq i hm => ?_
      mem := fun i q hq => ?_
      freeMem := h.freeMem
      card := h.card
      hash := fun i q hq => ?_
      distinct := fun i q hq r hr he => ?_
      value := fun i q hq => ?_ }
  · by_cases hi₀ : i = t.virtualHashFunc key
    · subst hi₀
      have hhead : m'.next (.head (t.virtualHashFunc key)) = .page p := Function.update_self ..
      have hpage : m'.next (.page p) = m.next (.head (t.virtualHashFunc key)) := by
        simp [hm', HashTable.linked]
      rw [Function.update_self, hhead]
      refine ⟨rfl, nofun, ?_⟩
      rw [hpage]
      exact (h.chain _ hi).congr (hnext _ (hpb _))
    · have hhead : m'.next (.head i) = m.next (.head i) :=
        linked_next_of_ne nofun fun e => hi₀ (Ptr.head.inj e)
      rw [Function.update_of_ne hi₀, hhead]
      exact (h.chain _ hi).congr (hnext _ (hpb _))
  · by_cases hi₀ : i = t.virtualHashFunc key
    · subst hi₀
      rw [Function.update_self]
      exact List.nodup_cons.2 ⟨hpb _, h.nodup _⟩
    · rw [Function.update_of_ne hi₀]
      exact h.nodup i
  · rcases mem_update_cons.1 hm with ⟨-, rfl⟩ | hm
    · exact hp hq
    · exact h.apart q hq i hm
  · rcases mem_update_cons.1 hq with ⟨-, rfl⟩ | hq
    · exact hP
    · exact h.mem i q hq
  · rcases mem_update_cons.1 hq with ⟨hi, rfl⟩ | hq
    · rw [hkey, hi]
    · rw [linked_key_of_ne (hne i q hq)]
      exact h.hash i q hq
  · rcases mem_update_cons.1 hq with ⟨-, hqp⟩ | hq' <;>
      rcases mem_update_cons.1 hr with ⟨-, hrp⟩ | hr'
    · rw [hqp, hrp]
    · rw [hqp, hkey, linked_key_of_ne (hne i r hr')] at he
      exact absurd (hc.symm _ _ he) (hfresh i r hr')
    · rw [hrp, hkey, linked_key_of_ne (hne i q hq')] at he
      exact absurd he (hfresh i q hq')
    · rw [linked_key_of_ne (hne i q hq'), linked_key_of_ne (hne i r hr')] at he
      exact h.distinct i q hq' r hr' he
  · rcases mem_update_cons.1 hq with ⟨-, rfl⟩ | hq
    · rw [hval]
      exact hv
    · rw [linked_value_of_ne (hne i q hq)]
      exact h.value i q hq

/-- The map after a put. -/
theorem lookup_linked (hc : Lawful t) (hpb : ∀ i, p ∉ bucket i) :
    lookup t (linked t key v p m) (Function.update bucket (t.virtualHashFunc key)
      (p :: bucket (t.virtualHashFunc key))) k =
      if t.virtualHashEqual key k then some v else lookup t m bucket k := by
  have hkey : (linked t key v p m).key (.page p) = key := Function.update_self ..
  have hval : (linked t key v p m).value (.page p) = v := Function.update_self ..
  have hold : find t (linked t key v p m) k (bucket (t.virtualHashFunc k)) =
      find t m k (bucket (t.virtualHashFunc k)) := by
    have hne : ∀ q ∈ bucket (t.virtualHashFunc k), q ≠ p := fun q hq e => hpb _ (e ▸ hq)
    exact find_congr (fun q hq => linked_key_of_ne (hne q hq))
      fun q hq => linked_value_of_ne (hne q hq)
  rw [lookup, lookup, ← hold]
  by_cases he : t.virtualHashEqual key k = true
  · rw [hc.func key k he, Function.update_self, if_pos he]
    simp [find, hkey, he, hval]
  · rw [if_neg he]
    by_cases hi : t.virtualHashFunc k = t.virtualHashFunc key
    · rw [← hi, Function.update_self]
      simp [find, hkey, he]
    · rw [Function.update_of_ne hi]

/-- The memory after an erase of the node `p` behind `b`. -/
def unlinked (b : Ptr) (p : ℕ) (m : Memory K) : Memory K :=
  { m with
    next := Function.update (Function.update m.next b (m.next (.page p))) (.page p) m.gFreeMemList
    gFreeMemList := .page p }

theorem mem_update_of_sub {i j q : ℕ} (hsub : ∀ r ∈ l, r ∈ bucket i)
    (hq : q ∈ Function.update bucket i l j) : q ∈ bucket j := by
  by_cases hj : j = i
  · subst hj
    rw [Function.update_self] at hq
    exact hsub q hq
  · rwa [Function.update_of_ne hj] at hq

/-- The lists after an erase. -/
theorem Rep.unlinked {b : Ptr} {i : ℕ} (h : Rep t P m bucket free)
    (hi : bucket i = pre ++ p :: post)
    (hb : b = .head i ∨ b ∈ pre.map .page)
    (hchain : Chain .null (Function.update m.next b (m.next (.page p)))
      (Function.update m.next b (m.next (.page p)) (.head i)) ((pre ++ post).map .page)) :
    Rep t P (unlinked b p m) (Function.update bucket i (pre ++ post)) (p :: free) := by
  have hnd := h.nodup i
  rw [hi, List.nodup_middle] at hnd
  obtain ⟨hp, hnd⟩ := List.nodup_cons.1 hnd
  have hpi : p ∈ bucket i := by simp [hi]
  have hsub : ∀ q ∈ pre ++ post, q ∈ bucket i := by
    intro q hq
    rw [hi, List.mem_append, List.mem_cons]
    rcases List.mem_append.1 hq with hq | hq
    · exact .inl hq
    · exact .inr (.inr hq)
  have hback : ∀ {j q}, q ∈ Function.update bucket i (pre ++ post) j → q ∈ bucket j :=
    fun hq => mem_update_of_sub hsub hq
  -- the written links are none of another list
  have hother : ∀ l : List ℕ, (∀ q ∈ l, q ∉ bucket i) → ∀ a ∈ l.map Ptr.page,
      Function.update m.next b (m.next (.page p)) a = m.next a := by
    intro l hl a ha
    refine Function.update_of_ne ?_ _ _
    rintro rfl
    rcases hb with rfl | hb
    · exact head_notMem ha
    · obtain ⟨q, hq, rfl⟩ := List.mem_map.1 hb
      exact hl q (mem_map_page.1 ha) (hsub q (List.mem_append_left _ hq))
  have hpage : ∀ {l : List ℕ} {a : Ptr}, p ∉ l →
      Chain .null (Function.update m.next b (m.next (.page p))) a (l.map .page) →
      Chain .null (HashTable.unlinked b p m).next a (l.map .page) := by
    intro l a hl c
    exact c.update_of_notMem fun hm => hl (mem_map_page.1 hm)
  refine
    { chain := fun j hj => ?_
      freeChain := ?_
      nodup := fun j => ?_
      freeNodup := ?_
      apart := fun q hq j hm => ?_
      mem := fun j q hq => h.mem j q (hback hq)
      freeMem := fun q hq => ?_
      card := h.card
      hash := fun j q hq => h.hash j q (hback hq)
      distinct := fun j q hq r hr he => h.distinct j q (hback hq) r (hback hr) he
      value := fun j q hq => h.value j q (hback hq) }
  · have hne : Ptr.head j ≠ .page p := nofun
    have hhead : (HashTable.unlinked b p m).next (.head j) =
        Function.update m.next b (m.next (.page p)) (.head j) := by
      simp only [HashTable.unlinked]
      rw [Function.update_of_ne hne]
    rw [hhead]
    by_cases hji : j = i
    · subst hji
      rw [Function.update_self]
      exact hpage hp hchain
    · have hdisj : ∀ q ∈ bucket j, q ∉ bucket i := by
        intro q hq hq'
        exact hji ((h.hash j q hq).symm.trans (h.hash i q hq'))
      have hbj : Ptr.head j ≠ b := by
        rintro rfl
        rcases hb with e | hb
        · exact hji (Ptr.head.inj e)
        · exact head_notMem hb
      rw [Function.update_of_ne hji, Function.update_of_ne hbj]
      exact hpage (fun hm => hdisj p hm hpi) ((h.chain j hj).congr (hother _ hdisj))
  · have hfree : ∀ q ∈ free, q ∉ bucket i := fun q hq => h.apart q hq i
    have c := h.freeChain.congr (hother free hfree)
    have hpf : p ∉ free := fun hm => hfree p hm hpi
    exact c.push nofun fun hm => hpf (mem_map_page.1 hm)
  · by_cases hji : j = i
    · subst hji
      rwa [Function.update_self]
    · rw [Function.update_of_ne hji]
      exact h.nodup j
  · exact List.nodup_cons.2 ⟨fun hm => h.apart p hm i hpi, h.freeNodup⟩
  · rcases List.mem_cons.1 hq with rfl | hq
    · by_cases hji : j = i
      · subst hji
        rw [Function.update_self] at hm
        exact hp hm
      · have hj := h.hash j q (hback hm)
        exact hji (hj.symm.trans (h.hash i q hpi))
    · exact h.apart q hq j (hback hm)
  · rcases List.mem_cons.1 hq with rfl | hq
    · exact h.mem i q hpi
    · exact h.freeMem q hq

/-- The map after an erase. -/
theorem lookup_unlinked {b : Ptr} (hc : Lawful t) (h : Rep t P m bucket free)
    (hi : bucket (t.virtualHashFunc key) = pre ++ p :: post)
    (hp : t.virtualHashEqual (m.key (.page p)) key = true) :
    lookup t (unlinked b p m) (Function.update bucket (t.virtualHashFunc key) (pre ++ post)) k =
      if t.virtualHashEqual key k then none else lookup t m bucket k := by
  have hkeys : ∀ l, find t (HashTable.unlinked b p m) k l = find t m k l := fun _ => rfl
  rw [lookup, lookup, hkeys]
  by_cases he : t.virtualHashEqual key k = true
  · rw [if_pos he, ← hc.func key k he, Function.update_self, find, Option.map_eq_none_iff,
      List.find?_eq_none]
    intro q hq hqk
    -- the node would have the same key as the erased one
    have hqp : q = p := by
      refine h.distinct (t.virtualHashFunc key) q ?_ p ?_ ?_
      · rw [hi]
        rcases List.mem_append.1 hq with hq | hq
        · exact List.mem_append_left _ hq
        · exact List.mem_append_right _ (List.mem_cons_of_mem _ hq)
      · simp [hi]
      · have hkq := hc.trans _ _ _ hqk (hc.symm _ _ he)
        exact hc.trans _ _ _ hkq (hc.symm _ _ hp)
    have hnd := h.nodup (t.virtualHashFunc key)
    rw [hi, List.nodup_middle, ← hqp] at hnd
    exact (List.nodup_cons.1 hnd).1 hq
  · rw [if_neg he]
    by_cases hj : t.virtualHashFunc k = t.virtualHashFunc key
    · have hpk : ¬ t.virtualHashEqual (m.key (.page p)) k = true := by
        intro hpk
        exact he (hc.trans _ _ _ (hc.symm _ _ hp) hpk)
      rw [hj, Function.update_self, hi, find, find]
      simp [List.find?_append, hpk]
    · rw [Function.update_of_ne hj]

/-- What the table and the free pages are after a call that makes `look` of the map. -/
def After (t : Table K) (P : Finset ℕ) (m' : Memory K) (look : K → Option ℕ) : Prop :=
  ∃ bucket free, Rep t P m' bucket free ∧ ∀ k, lookup t m' bucket k = look k

section Results

variable (hc : Lawful t) (h : Rep t P m bucket free)

include hc h

/-- A put of a key that is present. -/
theorem defaultPut_present (hsome : lookup t m bucket key ≠ none) :
    ∃ m', defaultPut t key v m = .ok (-1, m') ∧ After t P m' (lookup t m bucket) := by
  obtain ⟨w, hw⟩ := Option.ne_none_iff_exists'.1 hsome
  have hw₀ : w ≠ 0 := lookup_ne_zero h hw
  obtain ⟨a, m₁, ha⟩ : ∃ a m₁, allocPage m = (a, m₁) := ⟨_, _, rfl⟩
  obtain ⟨free', h₁, hlook⟩ : ∃ free', Rep t P m₁ bucket free' ∧
      ∀ k, lookup t m₁ bucket k = lookup t m bucket k := by
    rcases h.taken ha with ⟨-, -, rfl⟩ | ⟨p, rest, -, -, rfl, h₁⟩
    · exact ⟨free, h, fun _ => rfl⟩
    · exact ⟨rest, h₁, fun _ => rfl⟩
  refine ⟨m₁, ?_, bucket, free', h₁, hlook⟩
  rw [defaultPut, ha]
  simp [defalutGet_eq hc h₁ key, hlook, hw, hw₀]

/-- A put of a key that is absent. -/
theorem defaultPut_absent (hnone : lookup t m bucket key = none) (hfree : free ≠ []) (hv : v ≠ 0) :
    ∃ m', defaultPut t key v m = .ok (0, m') ∧ After t P m' fun k =>
      if t.virtualHashEqual key k then some v else lookup t m bucket k := by
  obtain ⟨a, m₁, ha⟩ : ∃ a m₁, allocPage m = (a, m₁) := ⟨_, _, rfl⟩
  rcases h.taken ha with ⟨hnil, -, -⟩ | ⟨p, rest, rfl, rfl, rfl, h₁⟩
  · exact absurd hnil hfree
  · have hpb : ∀ i, p ∉ bucket i := h.apart p List.mem_cons_self
    have hp : p ∉ rest := (List.nodup_cons.1 h.freeNodup).1
    have hnone₁ : lookup t { m with gFreeMemList := m.next (.page p) } bucket key = none := hnone
    refine ⟨_, ?_, _, _, h₁.linked hc hp hpb (h.freeMem p List.mem_cons_self) hnone₁ hv,
      fun k => lookup_linked hc hpb⟩
    rw [defaultPut, ha]
    simp [defalutGet_eq hc h₁ key, hnone₁, linked]

/-- A put of a key that is absent, without a page for the node. -/
theorem defaultPut_full (hnone : lookup t m bucket key = none) (hfree : free = []) :
    defaultPut t key v m = .error .nullDeref := by
  obtain ⟨a, m₁, ha⟩ : ∃ a m₁, allocPage m = (a, m₁) := ⟨_, _, rfl⟩
  rcases h.taken ha with ⟨-, rfl, rfl⟩ | ⟨p, rest, hcons, -, -, -⟩
  · rw [defaultPut, ha]
    simp [defalutGet_eq hc h key, hnone]
  · rw [hfree] at hcons
    cases hcons

/-- An erase of a key that is present. -/
theorem defaultErase_present (hsome : lookup t m bucket key ≠ none) :
    ∃ m', defaultErase t key m = .ok (0, m') ∧ After t P m' fun k =>
      if t.virtualHashEqual key k then none else lookup t m bucket k := by
  obtain ⟨w, hw⟩ := Option.ne_none_iff_exists'.1 hsome
  obtain ⟨p, hfind, -⟩ := Option.map_eq_some_iff.1 hw
  obtain ⟨hp, pre, post, hi, hpre⟩ := List.find?_eq_some_iff_append.1 hfind
  have hchain := h.chain _ (hc.lt key)
  have hlen := h.length_le (t.virtualHashFunc key)
  rw [hi] at hchain hlen
  obtain ⟨b, hb, hnext, hmem, hc'⟩ := eraseLoop_some (n := m.pages + 1) hchain head_notMem
    (hi ▸ h.nodup _) (fun q hq => by simpa using hpre q hq) hp
    (by simp only [List.length_append, List.length_cons] at hlen; omega)
  refine ⟨unlinked b p m, ?_, _, _, h.unlinked hi hmem hc', fun k => lookup_unlinked hc h hi hp⟩
  rw [defaultErase, hb]
  simp [hnext, freePage, unlinked]

/-- An erase of a key that is absent. -/
theorem defaultErase_absent (hnone : lookup t m bucket key = none) :
    defaultErase t key m = .ok (-1, m) := by
  have hnot : ∀ q ∈ bucket (t.virtualHashFunc key),
      ¬ t.virtualHashEqual (m.key (.page q)) key = true :=
    List.find?_eq_none.1 (Option.map_eq_none_iff.1 hnone)
  obtain ⟨b, hb, hnext⟩ := eraseLoop_none (n := m.pages + 1) (h.chain _ (hc.lt key)) hnot
    (Nat.lt_succ_of_le (h.length_le _))
  rw [defaultErase, hb]
  simp [hnext]

end Results

/-! ## Runs -/

variable {hist : List (Op K × ℤ)}

theorem After.congr {look look' : K → Option ℕ} (h : After t P m look)
    (hl : ∀ k, look k = look' k) :
    After t P m look' := by
  obtain ⟨bucket, free, hrep, hlook⟩ := h
  exact ⟨bucket, free, hrep, fun k => (hlook k).trans (hl k)⟩

/-- One call keeps the lists and makes of the map what the history says. -/
theorem After.exec {op : Op K} {r : ℤ} (hc : Lawful t)
    (h : After t P m fun k => lastPut t k hist) (hvalid : op.Valid)
    (he : op.exec t m = .ok (r, m')) : After t P m' fun k => lastPut t k ((op, r) :: hist) := by
  obtain ⟨bucket, free, hrep, hlook⟩ := h
  cases op with
  | put key v =>
    by_cases hnone : lookup t m bucket key = none
    · by_cases hfree : free = []
      · have hfull := defaultPut_full hc hrep (v := v) hnone hfree
        cases he.symm.trans hfull
      · obtain ⟨m₁, h₁, hafter⟩ := defaultPut_absent hc hrep hnone hfree hvalid
        cases he.symm.trans h₁
        exact hafter.congr fun k => by simp [lastPut, hlook]
    · obtain ⟨m₁, h₁, hafter⟩ := defaultPut_present hc hrep (v := v) hnone
      cases he.symm.trans h₁
      exact hafter.congr fun k => by simp [lastPut, hlook]
  | get key =>
    obtain ⟨x, -, hx⟩ := (bind_ok_iff _ _ _).1 he
    cases hx
    exact ⟨bucket, free, hrep, hlook⟩
  | erase key =>
    by_cases hnone : lookup t m bucket key = none
    · cases he.symm.trans (defaultErase_absent hc hrep hnone)
      exact ⟨bucket, free, hrep, fun k => by simp [lastPut, hlook]⟩
    · obtain ⟨m₁, h₁, hafter⟩ := defaultErase_present hc hrep hnone
      cases he.symm.trans h₁
      exact hafter.congr fun k => by simp [lastPut, hlook]

variable [DecidableEq K]

/-- A table that was initialised is empty. -/
theorem after_init {equal : Option (K → K → Bool)} {func : Option (K → ℕ)} (hboot : Booted m)
    (hinit : hashTableInit equal func m = (0, some t, m')) :
    ∃ P, After t P m' fun k => lastPut t k [] := by
  obtain ⟨l, hchain, hnd, hlen⟩ := hboot
  have hm' : m'.next = (fun p => match p with
      | .head i => if i < HASH_TABLE_SIZE then .null else m.next (.head i)
      | p => m.next p) ∧ m'.gFreeMemList = m.gFreeMemList ∧ m'.pages = m.pages := by
    cases func with
    | none => cases hinit
    | some f =>
      cases hinit
      exact ⟨rfl, rfl, rfl⟩
  obtain ⟨hnext, hhead, hpages⟩ := hm'
  refine ⟨l.toFinset, fun _ => [], l, ?_, fun k => rfl⟩
  refine
    { chain := fun i hi => ?_
      freeChain := ?_
      nodup := fun _ => List.nodup_nil
      freeNodup := hnd
      apart := fun _ _ _ => List.not_mem_nil
      mem := fun _ _ hq => absurd hq List.not_mem_nil
      freeMem := fun q hq => List.mem_toFinset.2 hq
      card := ?_
      hash := fun _ _ hq => absurd hq List.not_mem_nil
      distinct := fun _ _ hq => absurd hq List.not_mem_nil
      value := fun _ _ hq => absurd hq List.not_mem_nil }
  · simp [hnext, hi]
  · rw [hhead]
    refine hchain.congr fun a ha => ?_
    obtain ⟨q, -, rfl⟩ := List.mem_map.1 ha
    rw [hnext]
  · rw [List.toFinset_card_of_nodup hnd, hpages]
    exact hlen

theorem Run.after (hc : Lawful t) (run : Run t hist m) :
    ∃ P, After t P m fun k => lastPut t k hist := by
  induction run with
  | init boot init => exact after_init boot init
  | step _ valid exec ih =>
    obtain ⟨P, hP⟩ := ih
    exact ⟨P, hP.exec hc valid exec⟩

/-- The calls return what the history says of their key. -/
structure IsMap (t : Table K) (hist : List (Op K × ℤ)) (m : Memory K) : Prop where
  get : ∀ key, defalutGet t key m = .ok ((lastPut t key hist).getD 0)
  put : ∀ key v r m', v ≠ 0 → defaultPut t key v m = .ok (r, m') →
    r = if lastPut t key hist = none then 0 else -1
  /-- A put that succeeds needs a page for the node. -/
  putReturns : ∀ key v, v ≠ 0 → ((∃ r m', defaultPut t key v m = .ok (r, m')) ↔
    (lastPut t key hist = none → m.gFreeMemList ≠ .null))
  erase : ∀ key, ∃ m', defaultErase t key m = .ok (if lastPut t key hist = none then -1 else 0, m')
  /-- A call changes the value of a key only if it is a put or an erase of an equal key that
  succeeds. -/
  after : ∀ op r m', op.Valid → op.exec t m = .ok (r, m') →
    ∀ key, defalutGet t key m' = .ok ((lastPut t key ((op, r) :: hist)).getD 0)

theorem Run.isMap (hc : Lawful t) (run : Run t hist m) : IsMap t hist m := by
  have hget : ∀ {hist m}, Run t hist m → ∀ key,
      defalutGet t key m = .ok ((lastPut t key hist).getD 0) := by
    intro hist m run key
    obtain ⟨P, bucket, free, hrep, hlook⟩ := run.after hc
    rw [defalutGet_eq hc hrep, hlook]
  obtain ⟨P, bucket, free, hrep, hlook⟩ := run.after hc
  -- a put by the presence of the key and of a page
  have hput : ∀ key v, v ≠ 0 → (lastPut t key hist = none ∧ m.gFreeMemList = .null ∧
      defaultPut t key v m = .error .nullDeref) ∨
      (lastPut t key hist = none ∧ m.gFreeMemList ≠ .null ∧
        ∃ m', defaultPut t key v m = .ok (0, m')) ∨
      (lastPut t key hist ≠ none ∧ ∃ m', defaultPut t key v m = .ok (-1, m')) := by
    intro key v hv
    by_cases hnone : lastPut t key hist = none
    · have hlook' := (hlook key).trans hnone
      rcases free with _ | ⟨p, rest⟩
      · exact .inl ⟨hnone, hrep.freeChain, defaultPut_full hc hrep hlook' rfl⟩
      · obtain ⟨m', he, -⟩ := defaultPut_absent hc hrep hlook' (List.cons_ne_nil p rest) hv
        refine .inr (.inl ⟨hnone, ?_, m', he⟩)
        rw [hrep.freeChain.1]
        exact nofun
    · obtain ⟨m', he, -⟩ := defaultPut_present hc hrep (v := v)
        fun e => hnone ((hlook key).symm.trans e)
      exact .inr (.inr ⟨hnone, m', he⟩)
  refine
    { get := hget run
      put := fun key v r m' hv he => ?_
      putReturns := fun key v hv => ?_
      erase := fun key => ?_
      after := fun op r m' hvalid he => hget (run.step hvalid he) }
  · rcases hput key v hv with ⟨-, -, he'⟩ | ⟨hnone, -, m₁, he'⟩ | ⟨hsome, m₁, he'⟩
    · cases he.symm.trans he'
    · cases he.symm.trans he'
      rw [if_pos hnone]
    · cases he.symm.trans he'
      rw [if_neg hsome]
  · rcases hput key v hv with ⟨hnone, hnull, he'⟩ | ⟨-, hpage, m₁, he'⟩ | ⟨hsome, m₁, he'⟩
    · refine ⟨fun ⟨r, m', he⟩ => ?_, fun h => absurd hnull (h hnone)⟩
      cases he.symm.trans he'
    · exact ⟨fun _ _ => hpage, fun _ => ⟨0, m₁, he'⟩⟩
    · exact ⟨fun _ h => absurd h hsome, fun _ => ⟨-1, m₁, he'⟩⟩
  · by_cases hnone : lastPut t key hist = none
    · exact ⟨m, by rw [defaultErase_absent hc hrep ((hlook key).trans hnone), if_pos hnone]⟩
    · obtain ⟨m', he, -⟩ := defaultErase_present hc hrep fun e => hnone ((hlook key).symm.trans e)
      exact ⟨m', by rw [he, if_neg hnone]⟩

/-! ## The tables of the virtual file system -/

/-- `struct dentry_key`, with the string that `name` points to. -/
structure DentryKey where
  parent : UInt64
  name : Name
  terminated : (0 : UInt8) ∉ name
  deriving DecidableEq

/-- `struct vinode_key`. The functions that use the table turn negative numbers away. -/
structure VinodeKey where
  sb : UInt64
  inum : ℤ
  nonneg : 0 ≤ inum
  deriving DecidableEq

/-- `strcmp` on two strings without their final zero. -/
def strcmp : Name → Name → ℤ
  | [], [] => 0
  | [], c2 :: _ => 0 - c2.toNat
  | c1 :: _, [] => c1.toNat - 0
  | c1 :: s1, c2 :: s2 => if c1 = c2 then strcmp s1 s2 else c1.toNat - c2.toNat

/-- `dentry_hash_equal`. -/
def dentryHashEqual (key1 key2 : DentryKey) : Bool :=
  strcmp key1.name key2.name = 0 ∧ key1.parent = key2.parent

/-- `dentry_hash_func`. -/
def dentryHashFunc (key : DentryKey) : ℕ :=
  let hash := key.name.foldl (fun (hash : UInt64) c => ((hash <<< 5) + hash) + c.toUInt64) 5381
  let hash := ((hash <<< 5) + hash) + key.parent
  hash.toNat % HASH_TABLE_SIZE

/-- `vinode_hash_equal`. -/
def vinodeHashEqual (key1 key2 : VinodeKey) : Bool :=
  key1.inum = key2.inum ∧ key1.sb = key2.sb

/-- `vinode_hash_func`: the remainder of an `int`, as a `size_t`. -/
def vinodeHashFunc (key : VinodeKey) : ℕ := (key.inum.tmod HASH_TABLE_SIZE % 2 ^ 64).toNat

def dentryHashTable : Table DentryKey := ⟨dentryHashEqual, dentryHashFunc⟩

def vinodeHashTable : Table VinodeKey := ⟨vinodeHashEqual, vinodeHashFunc⟩

theorem strcmp_eq_zero_iff {s1 s2 : Name} (h1 : (0 : UInt8) ∉ s1) (h2 : (0 : UInt8) ∉ s2) :
    strcmp s1 s2 = 0 ↔ s1 = s2 := by
  have hpos : ∀ c : UInt8, c ≠ 0 → c.toNat ≠ 0 := fun c hc h => hc (UInt8.toNat_inj.1 h)
  induction s1, s2 using strcmp.induct with
  | case1 => simp [strcmp]
  | case2 c2 s2 =>
    have hc := hpos c2 fun e => h2 (e ▸ List.mem_cons_self)
    simp [strcmp]
    omega
  | case3 c1 s1 =>
    have hc := hpos c1 fun e => h1 (e ▸ List.mem_cons_self)
    simp [strcmp]
    omega
  | case4 s1 c s2 ih =>
    have ih := ih (fun h => h1 (List.mem_cons_of_mem _ h)) fun h => h2 (List.mem_cons_of_mem _ h)
    rw [strcmp, if_pos rfl]
    constructor
    · intro h
      rw [ih.1 h]
    · intro h
      exact ih.2 (List.cons.inj h).2
  | case5 c1 s1 c2 s2 hne =>
    have hc : c1.toNat ≠ c2.toNat := fun h => hne (UInt8.toNat_inj.1 h)
    rw [strcmp, if_neg hne]
    simp [hne]
    omega

theorem dentryHashEqual_iff {k k' : DentryKey} : dentryHashEqual k k' = true ↔ k = k' := by
  rw [dentryHashEqual, decide_eq_true_eq, strcmp_eq_zero_iff k.terminated k'.terminated]
  cases k
  cases k'
  simp [and_comm]

theorem vinodeHashEqual_iff {k k' : VinodeKey} : vinodeHashEqual k k' = true ↔ k = k' := by
  rw [vinodeHashEqual, decide_eq_true_eq]
  cases k
  cases k'
  simp [and_comm]

omit [DecidableEq K] in
/-- A table whose keys are equal if they are the same. -/
theorem Lawful.of_eq (he : ∀ k k', t.virtualHashEqual k k' = true ↔ k = k')
    (hlt : ∀ k, t.virtualHashFunc k < HASH_TABLE_SIZE) : Lawful t where
  refl k := (he k k).2 rfl
  symm k k' h := (he k' k).2 ((he k k').1 h).symm
  trans k k' k'' h h' := (he k k'').2 (((he k k').1 h).trans ((he k' k'').1 h'))
  func k k' h := by rw [(he k k').1 h]
  lt := hlt

theorem dentryHashTable_lawful : Lawful dentryHashTable := by
  refine .of_eq (fun _ _ => dentryHashEqual_iff) fun k => ?_
  exact Nat.mod_lt _ (by decide)

theorem vinodeHashTable_lawful : Lawful vinodeHashTable := by
  refine .of_eq (fun _ _ => vinodeHashEqual_iff) fun k => ?_
  have hk := k.nonneg
  have hlt : k.inum % 128 % 2 ^ 64 < 128 := by omega
  have hnonneg : 0 ≤ k.inum % 128 % 2 ^ 64 := by omega
  have hmod : k.inum.tmod 128 = k.inum % 128 := Int.tmod_eq_emod_of_nonneg hk
  change (k.inum.tmod 128 % 2 ^ 64).toNat < 128
  rw [hmod]
  omega

/-- **The hash table is a finite map**, for the two tables of the virtual file system and for every
other one whose equality is an equivalence that its hash function respects: after any sequence of
calls, a lookup returns the value of the last successful put of an equal key not erased since, and
`NULL` without one; a put succeeds if there is none, and an erase if there is one. -/
theorem hashTable_map : Lawful dentryHashTable ∧ Lawful vinodeHashTable ∧
    ∀ (K : Type) [DecidableEq K] (t : Table K) (hist : List (Op K × ℤ)) (m : Memory K),
      Lawful t → Run t hist m → IsMap t hist m :=
  ⟨dentryHashTable_lawful, vinodeHashTable_lawful, fun _ _ _ _ _ hc run => run.isMap hc⟩

/-- A memory of `n` free pages behind each other. -/
def blank (n : ℕ) : Memory VinodeKey where
  next p :=
    match p with
    | .page p => if p + 1 < n then .page (p + 1) else .null
    | _ => .null
  key _ := ⟨0, 0, le_refl 0⟩
  value _ := 0
  gFreeMemList := if 0 < n then .page 0 else .null
  pages := n

theorem blank_booted : Booted (blank 2) :=
  ⟨[0, 1], ⟨rfl, nofun, rfl, nofun, rfl⟩, by decide, le_refl 2⟩

/-- Two inodes with the same hash. -/
theorem hashTable_map_collision : ∃ hist m, Run vinodeHashTable hist m ∧
    lastPut vinodeHashTable ⟨0, 129, by decide⟩ hist = some 7 ∧ IsMap vinodeHashTable hist m := by
  let m₀ := (hashTableInit (some vinodeHashEqual) (some vinodeHashFunc) (blank 2)).2.2
  let op₁ : Op VinodeKey := .put ⟨0, 1, by decide⟩ 5
  let op₂ : Op VinodeKey := .put ⟨0, 129, by decide⟩ 7
  have run₀ : Run vinodeHashTable [] m₀ := .init blank_booted
    (show hashTableInit (some vinodeHashEqual) (some vinodeHashFunc) (blank 2) = _ from rfl)
  have htest : ((op₁.exec vinodeHashTable m₀).toOption.bind fun x =>
      (op₂.exec vinodeHashTable x.2).toOption.map fun y => (x.1, y.1)) = some (0, 0) := by
    decide +kernel
  obtain ⟨⟨r₁, m₁⟩, h₁, htest⟩ := Option.bind_eq_some_iff.1 htest
  obtain ⟨⟨r₂, m₂⟩, h₂, hr⟩ := Option.map_eq_some_iff.1 htest
  obtain ⟨rfl, rfl⟩ := Prod.mk.inj hr
  have run₁ := run₀.step (show op₁.Valid from nofun) (toOption_eq_some.1 h₁)
  have run₂ := run₁.step (show op₂.Valid from nofun) (toOption_eq_some.1 h₂)
  exact ⟨_, m₂, run₂, by decide +kernel, hashTable_map.2.2 _ _ _ _ vinodeHashTable_lawful run₂⟩

end HustOS.Fs.HashTable
