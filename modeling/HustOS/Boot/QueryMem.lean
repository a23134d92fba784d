import HustOS.Boot.Fdt

/-!
# What the boot code asks the device tree

`query_mem` of `spike_interface/spike_memory.c` and `query_htif` of `spike_interface/spike_htif.c`.
Both scan the tree with callbacks that forget what they know of the last node when a node is opened,
take what they need from its properties, and decide when its properties are done.

`query_mem` looks for nodes with the device type `memory` and goes through the regions in their
`reg`, each an address and a size with as many cells as the node above says. The memory size becomes
that of the last region that contains the code itself (`queryMem_ok_iff`). `query_htif` finds the
host interface exactly if some node is compatible with it (`queryHtif_eq`).
-/

namespace HustOS.Boot

open Foundations Foundations.DeviceTree Buf

variable {σ : Type} {mem : Buf} {off fdt fuel n value stop : ℕ} {bs : List UInt8}

/-! ## `query_mem` -/

/-- `struct mem_scan`. -/
structure MemScan where
  memory : Bool
  regValue : ℕ
  regLen : ℤ

/-- `"device_type"`. -/
def deviceType : List UInt8 := "device_type".toUTF8.toList

/-- `"memory"`. -/
def memory : List UInt8 := "memory".toUTF8.toList

/-- `"reg"`. -/
def reg : List UInt8 := "reg".toUTF8.toList

/-- What is scanned, and `g_mem_size`. -/
abbrev MemState : Type := MemScan × BitVec 64

/-- `mem_open`. -/
def memOpen (_ : Buf) (_ : NodePtr) (s : MemState) : Except Fault MemState :=
  return (⟨false, 0, 0⟩, s.2)

/-- `mem_prop`. -/
def memProp (mem : Buf) (prop : FdtScanProp) (s : MemState) : Except Fault MemState :=
  if mem.strcmpEq prop.name deviceType && mem.strcmpEq prop.value memory then
    return ({ s.1 with memory := true }, s.2)
  else if mem.strcmpEq prop.name reg then
    return ({ s.1 with regValue := prop.value, regLen := prop.len }, s.2)
  else return s

/-- The loop of `mem_done` over the regions from `value` to `stop`. -/
def memLoop (self : BitVec 64) (mem : Buf) (parent : NodePtr) (stop : ℕ) :
    ℕ → ℕ → BitVec 64 → Except Fault (ℕ × BitVec 64)
  | 0, _, _ => throw .spin
  | fuel + 1, value, gMemSize =>
    if stop ≤ value then return (value, gMemSize)
    else match parent with
      | [] => throw .nullDeref
      | p :: _ =>
        let (value, base) := fdtGetAddress mem p value
        let (value, size) := fdtGetSize mem p value
        memLoop self mem parent stop fuel value
          (if base ≤ self ∧ self ≤ base + size then size else gMemSize)

/-- `mem_done`. Each turn of its loop goes over a word, or it stays where it is. -/
def memDone (self : BitVec 64) (mem : Buf) (node : NodePtr) (s : MemState) :
    Except Fault MemState := do
  let (scan, gMemSize) := s
  if ¬ scan.memory then return s
  if ¬ (scan.regValue ≠ 0 ∧ scan.regLen % 4 = 0) then
    throw (.assertion "scan->reg_value && scan->reg_len % 4 == 0")
  let stop := ((scan.regValue : ℤ) + 4 * (scan.regLen / 4)).toNat
  let (value, gMemSize) ←
    memLoop self mem node.tail stop (scan.regLen.toNat / 4 + 1) scan.regValue gMemSize
  if stop ≠ value then throw (.assertion "end == value")
  return (scan, gMemSize)

/-- The callbacks of `query_mem`. -/
def memCb (self : BitVec 64) : FdtCb MemState :=
  ⟨some memOpen, memProp, some (memDone self), none⟩

/-- `query_mem`, with the address of `mem_done`: the value of `g_mem_size`. -/
def queryMem (self : BitVec 64) (fuel : ℕ) (mem : Buf) (fdt : ℕ) (scan : MemScan) :
    Except Fault (BitVec 64) := do
  let s ← (memCb self).fdtScan fuel mem fdt (scan, 0)
  if s.2 = 0 then throw (.assertion "g_mem_size > 0")
  return s.2

/-! ## `query_htif` -/

/-- `"compatible"`. -/
def compatible : List UInt8 := "compatible".toUTF8.toList

/-- `"ucb,htif0"`. -/
def ucbHtif0 : List UInt8 := "ucb,htif0".toUTF8.toList

/-- The callbacks of `query_htif`: `compat` of `struct htif_scan`, and `htif`. -/
def htifCb : FdtCb (Bool × Bool) where
  cbOpen := some fun _ _ s => return (false, s.2)
  cbProp mem prop s :=
    if mem.strcmpEq prop.name compatible && mem.strcmpEq prop.value ucbHtif0 then
      return (true, s.2)
    else return s
  cbDone := some fun _ _ s => if ¬ s.1 then return s else return (s.1, true)
  cbClose := none

/-- `query_htif`: the value of `htif`. -/
def queryHtif (fuel : ℕ) (mem : Buf) (fdt : ℕ) (compat htif : Bool) : Except Fault Bool := do
  let s ← htifCb.fdtScan fuel mem fdt (compat, htif)
  return s.2

/-! ## Callbacks that look at one node -/

/-- The string at the beginning of a value. -/
def firstString (value : List UInt8) : List UInt8 := value.takeWhile (· ≠ 0)

theorem firstString_append (h : (0 : UInt8) ∈ bs) : ∃ post, bs = firstString bs ++ 0 :: post := by
  induction bs with
  | nil => exact absurd h List.not_mem_nil
  | cons c bs ih =>
    by_cases hc : c = 0
    · exact ⟨bs, by simp [firstString, hc]⟩
    · obtain ⟨post, hpost⟩ := ih (by simpa [Ne.symm hc] using h)
      refine ⟨post, ?_⟩
      rw [firstString, List.takeWhile_cons_of_pos (by simpa using hc), List.cons_append]
      exact congrArg _ hpost

theorem zero_notMem_firstString (bs : List UInt8) : (0 : UInt8) ∉ firstString bs := by
  intro h
  have := List.all_takeWhile (p := fun c : UInt8 => decide (c ≠ 0)) (l := bs)
  rw [List.all_eq_true] at this
  simpa using this 0 h

/-- `strcmp` of a value compares its first string. -/
theorem strcmpEq_value {s : List UInt8} (hat : At mem off bs) (hs : (0 : UInt8) ∉ s)
    (hbs : (0 : UInt8) ∈ bs) : mem.strcmpEq off s = decide (firstString bs = s) := by
  obtain ⟨post, hpost⟩ := firstString_append hbs
  rw [hpost, List.append_cons] at hat
  exact strcmpEq_of_at (zero_notMem_firstString bs) hs (at_append.1 hat).1

section Local

variable {L G : Type} {cb : FdtCb (L × G)} {l : L} {f : Located → L → L}
  {nameAddr : List UInt8 → ℕ} {v : Visit}

/-- What is known of a node after its properties. -/
def Visit.known (step : Located → L → L) (l₀ : L) (v : Visit) : L :=
  v.props.foldl (fun l p => step p l) l₀

/-- A visit, where a node is opened with `l` known and each property changes what is known. -/
theorem visit_local (hopen : cb.cbOpen = some fun _ _ x => .ok (l, x.2))
    (hprop : ∀ p ∈ v.props, ∀ node x,
      cb.cbProp mem ⟨node, nameAddr p.name, p.addr, p.value.length⟩ x = .ok (f p x.1, x.2))
    (x : L × G) : cb.visit mem nameAddr x v =
      FdtCb.call cb.cbDone mem v.node (v.known f l, x.2) := by
  have key : ∀ (props : List Located), (∀ p ∈ props, ∀ node x,
      cb.cbProp mem ⟨node, nameAddr p.name, p.addr, p.value.length⟩ x = .ok (f p x.1, x.2)) →
      ∀ node x, cb.runProps mem nameAddr props node x =
        .ok (props.foldl (fun l p => f p l) x.1, x.2) := by
    intro props
    induction props with
    | nil => exact fun _ node x => rfl
    | cons p props ih =>
      intro hp node x
      rw [FdtCb.runProps, hp p List.mem_cons_self, ok_bind,
        ih (fun q hq => hp q (List.mem_cons_of_mem _ hq))]
      rfl
  simp only [FdtCb.visit, hopen, FdtCb.call, ok_bind, key v.props hprop]
  rfl

end Local

/-- The values that the callbacks compare with a string have a string. -/
def Strings (name : List UInt8) (vs : List Visit) : Prop :=
  ∀ v ∈ vs, ∀ p ∈ v.props, p.name = name → (0 : UInt8) ∈ p.value

section Compare

variable {strings : ℕ} {nameoff : List UInt8 → ℕ} {p : Located}

/-- A callback that looks for a property with a certain string. -/
theorem strcmpEq_prop {name s : List UInt8} (h : p.Holds mem strings nameoff)
    (hname : (0 : UInt8) ∉ name) (hs : (0 : UInt8) ∉ s) (hval : p.name = name → (0 : UInt8) ∈ p.value) :
    (mem.strcmpEq (strings + nameoff p.name) name && mem.strcmpEq p.addr s) =
      decide (p.name = name ∧ firstString p.value = s) := by
  rw [strcmpEq_of_at h.stored.no_zero hname h.stored.at_name]
  by_cases hp : p.name = name
  · rw [strcmpEq_value h.at_value hs (hval hp)]
    simp [hp]
  · simp [hp]

end Compare

/-! ## The host interface -/

/-- The node is compatible with the host interface. -/
def Visit.IsHtif (v : Visit) : Prop :=
  ∃ p ∈ v.props, p.name = compatible ∧ firstString p.value = ucbHtif0

/-- A property of the host interface. -/
def htifStep (p : Located) (compat : Bool) : Bool :=
  compat || decide (p.name = compatible ∧ firstString p.value = ucbHtif0)

theorem known_htif (v : Visit) : v.known htifStep false = true ↔ v.IsHtif := by
  have key : ∀ (props : List Located) (b : Bool), props.foldl (fun l p => htifStep p l) b = true ↔
      b = true ∨ ∃ p ∈ props, p.name = compatible ∧ firstString p.value = ucbHtif0 := by
    intro props
    induction props with
    | nil => simp
    | cons p props ih =>
      intro b
      rw [List.foldl_cons, ih]
      simp [htifStep, or_assoc]
  exact (key v.props false).trans (by simp [Visit.IsHtif])

/-- **`query_htif`** finds the host interface exactly if some node is compatible with it. -/
theorem queryHtif_eq {nameoff : List UInt8 → ℕ} {items : Items} (h : Blob mem fdt nameoff items)
    (hfuel : steps items ≤ fuel) (hstr : Strings compatible (fdtVisits mem fdt items))
    (compat htif : Bool) : ∃ b, queryHtif fuel mem fdt compat htif = .ok b ∧
      (b = true ↔ htif = true ∨ ∃ v ∈ fdtVisits mem fdt items, v.IsHtif) := by
  have hholds : ∀ v ∈ fdtVisits mem fdt items, ∀ p ∈ v.props,
      p.Holds mem (fdt + be32 mem (fdt + 12)) nameoff := holds_visits h.stored h.block
  have hvisit : ∀ v ∈ fdtVisits mem fdt items, ∀ x : Bool × Bool,
      htifCb.visit mem (fun name => fdt + be32 mem (fdt + 12) + nameoff name) x v =
        .ok (v.known htifStep false, x.2 || v.known htifStep false) := by
    intro v hv x
    rw [visit_local (f := htifStep) (l := false) rfl]
    · change FdtCb.call (some _) _ _ _ = _
      rw [FdtCb.call]
      cases v.known htifStep false <;> simp
    · intro p hp node x
      change (if _ then _ else _ : Except Fault (Bool × Bool)) = _
      rw [strcmpEq_prop (hholds v hv p hp) (by decide +kernel) (by decide +kernel) (hstr v hv p hp)]
      by_cases hc : p.name = compatible ∧ firstString p.value = ucbHtif0 <;> simp [htifStep, hc]
  rw [queryHtif, fdtScan_eq h rfl hfuel]
  generalize fdtVisits mem fdt items = vs at hvisit
  induction vs generalizing compat htif with
  | nil => exact ⟨htif, rfl, by simp⟩
  | cons v vs ih =>
    obtain ⟨b, hb, hiff⟩ := ih (v.known htifStep false) (htif || v.known htifStep false)
      fun w hw => hvisit w (List.mem_cons_of_mem _ hw)
    refine ⟨b, ?_, hiff.trans ?_⟩
    · rw [List.foldlM_cons, hvisit v List.mem_cons_self, ok_bind]
      exact hb
    · rw [Bool.or_eq_true, known_htif, or_assoc]
      simp

/-! ## The regions of a node -/

/-- The number in the cells of an address or a size. -/
def cellsValue (bs : List UInt8) : BitVec 64 := BitVec.ofNat 64 (beNat bs)

/-- The first `n` regions of a value with `ac` cells for an address and `sc` for a size. -/
def regions (ac sc : ℕ) : ℕ → List UInt8 → List (BitVec 64 × BitVec 64)
  | 0, _ => []
  | n + 1, bs => (cellsValue (bs.take (4 * ac)), cellsValue ((bs.drop (4 * ac)).take (4 * sc))) ::
      regions ac sc n (bs.drop (4 * (ac + sc)))

/-- The memory size after a region. -/
def sizeStep (self : BitVec 64) (gMemSize : BitVec 64) (r : BitVec 64 × BitVec 64) : BitVec 64 :=
  if r.1 ≤ self ∧ self ≤ r.1 + r.2 then r.2 else gMemSize

theorem getCells_eq (a : ℕ) (hat : At mem off bs) (hlen : bs.length = 4 * n) :
    getCells mem n off (BitVec.ofNat 64 a) =
      (off + 4 * n, BitVec.ofNat 64 (a * 256 ^ bs.length + beNat bs)) := by
  induction n generalizing off a bs with
  | zero =>
    obtain rfl := List.length_eq_zero_iff.1 hlen
    simp [getCells, beNat]
  | succ n ih =>
    have hword : (bswap (word mem off)).setWidth 64 = BitVec.ofNat 64 (beNat (bs.take 4)) := by
      rw [← BitVec.ofNat_toNat, toNat_bswap_word, be32_eq_beNat hat (by omega)]
    have hshift : (BitVec.ofNat 64 a <<< 32) + BitVec.ofNat 64 (beNat (bs.take 4)) =
        BitVec.ofNat 64 (a * 256 ^ 4 + beNat (bs.take 4)) := by
      apply BitVec.eq_of_toNat_eq
      simp only [BitVec.toNat_add, BitVec.toNat_shiftLeft, BitVec.toNat_ofNat, Nat.shiftLeft_eq]
      omega
    have hdrop : (bs.drop 4).length = 4 * n := by
      rw [List.length_drop]
      omega
    have htake : (bs.take 4).length = 4 := by
      rw [List.length_take]
      omega
    have hat' : At mem (off + 4) (bs.drop 4) := by
      have := (at_append.1 ((List.take_append_drop 4 bs).symm ▸ hat)).2
      rwa [htake] at this
    have hval : beNat bs = beNat (bs.take 4) * 256 ^ (4 * n) + beNat (bs.drop 4) := by
      conv_lhs => rw [← List.take_append_drop 4 bs, beNat_append, hdrop]
    rw [getCells, hword, hshift, ih _ hat' hdrop, hdrop, hlen, hval]
    refine Prod.ext (by simp only; omega) ?_
    simp only
    congr 1
    ring

theorem getCells_zero (hat : At mem off bs) (hlen : bs.length = 4 * n) :
    getCells mem n off 0 = (off + 4 * n, cellsValue bs) := by
  have h := getCells_eq 0 hat hlen
  rwa [Nat.zero_mul, Nat.zero_add] at h

theorem getCells_fst (mem : Buf) (n off : ℕ) (r : BitVec 64) :
    (getCells mem n off r).1 = off + 4 * n := by
  induction n generalizing off r with
  | zero => rfl
  | succ n ih =>
    rw [getCells, ih]
    omega

/-- The words of a region. -/
def FdtScanNode.cells (p : FdtScanNode) : ℕ := p.addressCells.toNat + p.sizeCells.toNat

section Loop

variable {self gMemSize gMemSize' : BitVec 64} {p : FdtScanNode} {above parent : NodePtr} {value' : ℕ}

/-- The loop over whole regions. -/
theorem memLoop_eq (hpos : 0 < p.cells) (hat : At mem value bs)
    (hlen : bs.length = 4 * p.cells * n) (hfuel : n < fuel) :
    memLoop self mem (p :: above) (value + bs.length) fuel value gMemSize =
      .ok (value + bs.length, (regions p.addressCells.toNat p.sizeCells.toNat n bs).foldl
        (sizeStep self) gMemSize) := by
  induction n generalizing fuel value bs gMemSize with
  | zero =>
    obtain ⟨fuel, rfl⟩ : ∃ k, fuel = k + 1 := ⟨fuel - 1, by omega⟩
    rw [memLoop, if_pos (by omega), hlen]
    rfl
  | succ n ih =>
    obtain ⟨fuel, rfl⟩ : ∃ k, fuel = k + 1 := ⟨fuel - 1, by omega⟩
    set ac := p.addressCells.toNat with hac
    set sc := p.sizeCells.toNat with hsc
    have hcells : p.cells = ac + sc := rfl
    rw [Nat.mul_succ] at hlen
    have hta : (bs.take (4 * ac)).length = 4 * ac := by
      rw [List.length_take]
      omega
    have hts : ((bs.drop (4 * ac)).take (4 * sc)).length = 4 * sc := by
      rw [List.length_take, List.length_drop]
      omega
    -- the address, the size and the other regions follow each other
    have hsplit : bs = bs.take (4 * ac) ++ ((bs.drop (4 * ac)).take (4 * sc) ++
        bs.drop (4 * (ac + sc))) := by
      rw [Nat.mul_add, ← List.drop_drop, List.take_append_drop, List.take_append_drop]
    have hall := hat
    rw [hsplit, at_append, at_append, hta, hts] at hall
    obtain ⟨hata, hats, hatr⟩ := hall
    have hrest : (bs.drop (4 * (ac + sc))).length = 4 * p.cells * n := by
      rw [List.length_drop]
      omega
    have hend : value + 4 * ac + 4 * sc + (bs.drop (4 * (ac + sc))).length = value + bs.length := by
      rw [hrest]
      omega
    rw [memLoop, if_neg (by omega)]
    simp only [fdtGetAddress, fdtGetSize, ← hac, ← hsc, getCells_zero hata hta,
      getCells_zero hats hts]
    rw [← hend]
    exact ih hatr hrest (by omega)

/-- If the loop ends at the end, it went over whole regions. -/
theorem memLoop_ok
    (he : memLoop self mem parent stop fuel value gMemSize = .ok (value', gMemSize')) :
    stop ≤ value ∧ value' = value ∨ value < stop ∧ ∃ p above k, parent = p :: above ∧
      value' = value + 4 * p.cells * k := by
  induction fuel generalizing value gMemSize with
  | zero => cases he
  | succ fuel ih =>
    unfold memLoop at he
    by_cases hend : stop ≤ value
    · rw [if_pos hend] at he
      cases he
      exact .inl ⟨hend, rfl⟩
    · rw [if_neg hend] at he
      cases parent with
      | nil => cases he
      | cons p above =>
        refine .inr ⟨by omega, p, above, ?_⟩
        have hv : (fdtGetSize mem p (fdtGetAddress mem p value).1).1 = value + 4 * p.cells := by
          rw [fdtGetSize, fdtGetAddress, getCells_fst, getCells_fst, FdtScanNode.cells]
          omega
        rcases ih he with ⟨-, h⟩ | ⟨-, p', above', k, hp, h⟩
        · exact ⟨1, rfl, (h.trans hv).trans (by rw [Nat.mul_one])⟩
        · obtain ⟨rfl, rfl⟩ := List.cons.inj hp
          refine ⟨k + 1, rfl, h.trans ?_⟩
          change (fdtGetSize mem p (fdtGetAddress mem p value).1).1 + 4 * p.cells * k = _
          rw [hv, Nat.mul_succ]
          omega

end Loop

/-! ## The memory -/

/-- The node says that it is memory. -/
def Visit.IsMemory (v : Visit) : Prop :=
  ∃ p ∈ v.props, p.name = deviceType ∧ firstString p.value = memory

/-- The last `reg` of the node. -/
def Visit.reg (v : Visit) : Option Located := v.props.reverse.find? (·.name = Boot.reg)

/-- A node of memory has a `reg`, of whole regions. -/
def Visit.Sound (v : Visit) : Prop :=
  ∃ p, v.reg = some p ∧ (p.value = [] ∨ ∃ n above, v.above = n :: above ∧ 4 * n.cells ∣ p.value.length)

instance (v : Visit) : Decidable v.IsMemory := inferInstanceAs (Decidable (∃ p ∈ v.props, _))

/-- The regions of a node of memory. -/
def Visit.regions (v : Visit) : List (BitVec 64 × BitVec 64) :=
  if v.IsMemory then
    match v.reg, v.above with
    | some p, n :: _ => Boot.regions n.addressCells.toNat n.sizeCells.toNat
        (p.value.length / (4 * n.cells)) p.value
    | _, _ => []
  else []

/-- A property of a node of memory. -/
def memStep (p : Located) (scan : MemScan) : MemScan :=
  if p.name = deviceType ∧ firstString p.value = memory then { scan with memory := true }
  else if p.name = reg then { scan with regValue := p.addr, regLen := p.value.length }
  else scan

theorem deviceType_ne_reg : deviceType ≠ reg := by decide +kernel

theorem known_mem (v : Visit) : v.known memStep ⟨false, 0, 0⟩ =
    ⟨decide v.IsMemory, v.reg.elim 0 Located.addr, v.reg.elim 0 fun p => p.value.length⟩ := by
  obtain ⟨above, opened, props⟩ := v
  change props.foldl (fun l p => memStep p l) _ = _
  induction props using List.reverseRecOn with
  | nil => rfl
  | append_singleton props p ih =>
    have hmem : Visit.IsMemory ⟨above, opened, props ++ [p]⟩ ↔
        Visit.IsMemory ⟨above, opened, props⟩ ∨ p.name = deviceType ∧ firstString p.value = memory := by
      simp only [Visit.IsMemory, List.mem_append, List.mem_singleton, or_and_right, exists_or,
        exists_eq_left]
    have hreg : Visit.reg ⟨above, opened, props ++ [p]⟩ =
        if p.name = reg then some p else Visit.reg ⟨above, opened, props⟩ := by
      by_cases hp : p.name = reg <;> simp [Visit.reg, hp]
    rw [List.foldl_append, ih, List.foldl_cons, List.foldl_nil, memStep, hreg]
    by_cases hd : p.name = deviceType ∧ firstString p.value = memory
    · have hne : p.name ≠ reg := hd.1 ▸ deviceType_ne_reg
      rw [if_pos hd, if_neg hne, decide_eq_true (hmem.2 (.inr hd))]
    · have hsame : decide (Visit.IsMemory ⟨above, opened, props ++ [p]⟩) =
          decide (Visit.IsMemory ⟨above, opened, props⟩) :=
        decide_eq_decide.2 (hmem.trans (or_iff_left hd))
      rw [if_neg hd, hsame]
      by_cases hp : p.name = reg
      · rw [if_pos hp, if_pos hp]
        rfl
      · rw [if_neg hp, if_neg hp]

section Done

variable {self gMemSize : BitVec 64} {v : Visit} {strings : ℕ} {nameoff : List UInt8 → ℕ}

theorem tail_foldl_setCells (props : List Located) (n : FdtScanNode) (above : NodePtr) :
    (props.foldl (fun node p => p.setCells node) (n :: above)).tail = above := by
  induction props generalizing n with
  | nil => rfl
  | cons p props ih => exact ih _

theorem reg_mem {p : Located} (h : v.reg = some p) : p ∈ v.props :=
  List.mem_reverse.1 (List.mem_of_find?_eq_some h)

/-- What `mem_done` does for a node of memory that has a `reg`. -/
theorem memDone_eq {p : Located} (hm : v.IsMemory) (hr : v.reg = some p) (hpos : 0 < p.addr)
    (hfour : 4 ∣ p.value.length) :
    memDone self mem v.node (v.known memStep ⟨false, 0, 0⟩, gMemSize) = (do
      let r ← memLoop self mem v.above (p.addr + p.value.length) (p.value.length / 4 + 1) p.addr
        gMemSize
      if p.addr + p.value.length ≠ r.1 then throw (.assertion "end == value")
      return (v.known memStep ⟨false, 0, 0⟩, r.2)) := by
  have htail : v.node.tail = v.above := tail_foldl_setCells _ _ _
  have hend : ((p.addr : ℤ) + 4 * ((p.value.length : ℤ) / 4)).toNat =
      p.addr + p.value.length := by omega
  have hlen : (p.value.length : ℤ) % 4 = 0 := by omega
  rw [known_mem, hr, memDone, htail]
  simp only [hm, Option.elim_some, hend, hlen, hpos.ne', decide_true, not_true_eq_false,
    not_false_eq_true, and_self, ne_eq, if_false, Int.toNat_natCast]

theorem memLoop_of_le (parent : NodePtr) (h : stop ≤ value) :
    memLoop self mem parent stop (fuel + 1) value gMemSize = .ok (value, gMemSize) := by
  unfold memLoop
  rw [if_pos h]
  rfl

/-- A sound node of memory. -/
theorem memDone_sound (hholds : ∀ p ∈ v.props, p.Holds mem strings nameoff) (hm : v.IsMemory)
    (hs : v.Sound) : memDone self mem v.node (v.known memStep ⟨false, 0, 0⟩, gMemSize) =
      .ok (v.known memStep ⟨false, 0, 0⟩, v.regions.foldl (sizeStep self) gMemSize) := by
  obtain ⟨p, hr, hp⟩ := hs
  have h := hholds p (reg_mem hr)
  by_cases hnil : p.value = []
  · have hreg : v.regions = [] := by
      rw [Visit.regions, if_pos hm, hr]
      cases v.above with
      | nil => rfl
      | cons n above => simp [hnil, regions]
    rw [memDone_eq hm hr h.addr_pos (by simp [hnil]), hnil, hreg, List.length_nil, Nat.add_zero,
      memLoop_of_le _ le_rfl, ok_bind, if_neg (by simp)]
    rfl
  · obtain ⟨n, above, habove, hdvd⟩ := hp.resolve_left hnil
    have hlen : 0 < p.value.length := List.length_pos_iff.2 hnil
    have hcells : 0 < n.cells := by
      by_contra hzero
      obtain ⟨k, hk⟩ := hdvd
      rw [Nat.eq_zero_of_not_pos hzero, Nat.mul_zero, Nat.zero_mul] at hk
      omega
    have hreg : v.regions = regions n.addressCells.toNat n.sizeCells.toNat
        (p.value.length / (4 * n.cells)) p.value := by
      rw [Visit.regions, if_pos hm, hr, habove]
    have hfuel : p.value.length / (4 * n.cells) < p.value.length / 4 + 1 :=
      Nat.lt_succ_of_le (Nat.div_le_div_left (by omega) (by decide))
    rw [memDone_eq hm hr h.addr_pos ((Dvd.intro _ rfl).trans hdvd), habove,
      memLoop_eq hcells h.at_value (Nat.mul_div_cancel' hdvd).symm hfuel, ok_bind, hreg,
      if_neg (by simp)]
    rfl

/-- A node of memory that is not sound stops the machine, or keeps it busy for ever. -/
theorem sound_of_memDone (hholds : ∀ p ∈ v.props, p.Holds mem strings nameoff) (hm : v.IsMemory)
    {s : MemState}
    (he : memDone self mem v.node (v.known memStep ⟨false, 0, 0⟩, gMemSize) = .ok s) : v.Sound := by
  cases hr : v.reg with
  | none =>
    rw [known_mem, hr, memDone] at he
    simp [hm] at he
  | some p =>
    have h := hholds p (reg_mem hr)
    by_cases hfour : 4 ∣ p.value.length
    · rw [memDone_eq hm hr h.addr_pos hfour] at he
      obtain ⟨⟨value', g'⟩, hloop, he⟩ := (bind_ok_iff _ _ _).1 he
      by_cases hend : p.addr + p.value.length = value'
      · refine ⟨p, hr, ?_⟩
        rcases memLoop_ok hloop with ⟨hle, -⟩ | ⟨-, n, above, k, habove, hv⟩
        · exact .inl (List.length_eq_zero_iff.1 (by omega))
        · exact .inr ⟨n, above, habove, k, by omega⟩
      · simp [hend] at he
    · have hmod : ¬ (p.value.length : ℤ) % 4 = 0 := by omega
      rw [known_mem, hr, memDone] at he
      simp [hm, hmod] at he

/-- **`mem_done`** goes over the regions of a node of memory. -/
theorem memDone_ok_iff (hholds : ∀ p ∈ v.props, p.Holds mem strings nameoff) (s : MemState) :
    memDone self mem v.node (v.known memStep ⟨false, 0, 0⟩, gMemSize) = .ok s ↔
      (v.IsMemory → v.Sound) ∧
        s = (v.known memStep ⟨false, 0, 0⟩, v.regions.foldl (sizeStep self) gMemSize) := by
  by_cases hm : v.IsMemory
  · constructor
    · intro he
      have hs := sound_of_memDone hholds hm he
      rw [memDone_sound hholds hm hs] at he
      exact ⟨fun _ => hs, (Except.ok.inj he).symm⟩
    · rintro ⟨hs, rfl⟩
      exact memDone_sound hholds hm (hs hm)
  · rw [known_mem]
    simp [memDone, hm, Visit.regions, eq_comm]

end Done

/-- The region contains the address. -/
def Contains (self : BitVec 64) (r : BitVec 64 × BitVec 64) : Bool := r.1 ≤ self ∧ self ≤ r.1 + r.2

theorem foldl_sizeStep (self gMemSize : BitVec 64) (rs : List (BitVec 64 × BitVec 64)) :
    rs.foldl (sizeStep self) gMemSize =
      (rs.filter (Contains self)).getLast?.elim gMemSize Prod.snd := by
  induction rs using List.reverseRecOn with
  | nil => rfl
  | append_singleton rs r ih =>
    rw [List.foldl_append, List.foldl_cons, List.foldl_nil, sizeStep, ih, List.filter_append]
    by_cases hr : r.1 ≤ self ∧ self ≤ r.1 + r.2
    · simp [Contains, hr]
    · simp [Contains, hr]

/-- **`query_mem`** returns exactly if every node of memory has whole regions and one of them, with
a positive size, contains the code; the last one gives the memory size. -/
theorem queryMem_ok_iff {nameoff : List UInt8 → ℕ} {items : Items}
    (h : Blob mem fdt nameoff items) (hfuel : steps items ≤ fuel)
    (hstr : Strings deviceType (fdtVisits mem fdt items)) (self : BitVec 64) (scan : MemScan)
    (size : BitVec 64) : queryMem self fuel mem fdt scan = .ok size ↔
      (∀ v ∈ fdtVisits mem fdt items, v.IsMemory → v.Sound) ∧ size ≠ 0 ∧
      ∃ base, (((fdtVisits mem fdt items).flatMap Visit.regions).filter (Contains self)).getLast? =
        some (base, size) := by
  have hholds : ∀ v ∈ fdtVisits mem fdt items, ∀ p ∈ v.props,
      p.Holds mem (fdt + be32 mem (fdt + 12)) nameoff := holds_visits h.stored h.block
  set strings := fdt + be32 mem (fdt + 12) with hstrings
  have hvisit : ∀ v ∈ fdtVisits mem fdt items, ∀ x : MemState,
      (memCb self).visit mem (fun name => strings + nameoff name) x v =
        memDone self mem v.node (v.known memStep ⟨false, 0, 0⟩, x.2) := by
    intro v hv x
    rw [visit_local (f := memStep) (l := ⟨false, 0, 0⟩) rfl]
    · rfl
    · intro p hp node x
      have hp' := hholds v hv p hp
      change memProp mem _ x = _
      rw [memProp, strcmpEq_prop hp' (by decide +kernel) (by decide +kernel) (hstr v hv p hp),
        strcmpEq_of_at hp'.stored.no_zero (by decide +kernel) hp'.stored.at_name, memStep]
      by_cases hd : p.name = deviceType ∧ firstString p.value = memory
      · rw [decide_eq_true hd, if_pos rfl, if_pos hd]
        rfl
      · rw [decide_eq_false hd, if_neg Bool.false_ne_true, if_neg hd]
        by_cases hr : p.name = reg <;> simp [hr]
  have hfold : ∀ vs : List Visit, (∀ v ∈ vs, v ∈ fdtVisits mem fdt items) → ∀ (x : MemState) g,
      (∃ y, vs.foldlM ((memCb self).visit mem fun name => strings + nameoff name) x = .ok y ∧
        y.2 = g) ↔ (∀ v ∈ vs, v.IsMemory → v.Sound) ∧
          g = (vs.flatMap Visit.regions).foldl (sizeStep self) x.2 := by
    intro vs
    induction vs with
    | nil =>
      intro _ x g
      simp [eq_comm]
    | cons v vs ih =>
      intro hvs x g
      have hv := hvs v List.mem_cons_self
      simp only [List.foldlM_cons, hvisit v hv, bind_ok_iff, memDone_ok_iff (hholds v hv),
        List.forall_mem_cons, List.flatMap_cons, List.foldl_append]
      rw [and_assoc, ← ih (fun w hw => hvs w (List.mem_cons_of_mem _ hw))
        (v.known memStep ⟨false, 0, 0⟩, v.regions.foldl (sizeStep self) x.2)]
      constructor
      · rintro ⟨y, ⟨a, ⟨hs, rfl⟩, hy⟩, hg⟩
        exact ⟨hs, y, hy, hg⟩
      · rintro ⟨hs, y, hy, hg⟩
        exact ⟨y, ⟨_, ⟨hs, rfl⟩, hy⟩, hg⟩
  have hquery : queryMem self fuel mem fdt scan = .ok size ↔ size ≠ 0 ∧
      ∃ y, (fdtVisits mem fdt items).foldlM
        ((memCb self).visit mem fun name => strings + nameoff name) (scan, 0) = .ok y ∧
        y.2 = size := by
    rw [queryMem, fdtScan_eq h rfl hfuel, bind_ok_iff]
    constructor
    · rintro ⟨y, hy, he⟩
      by_cases h0 : y.2 = 0
      · simp [h0] at he
      · rw [if_neg h0] at he
        obtain rfl := Except.ok.inj he
        exact ⟨h0, y, hy, rfl⟩
    · rintro ⟨h0, y, hy, rfl⟩
      exact ⟨y, hy, by rw [if_neg h0]; rfl⟩
  rw [hquery, hfold _ (fun v hv => hv), foldl_sizeStep, and_left_comm]
  refine and_congr_right fun _ => and_congr_right fun h0 => ?_
  cases ((fdtVisits mem fdt items).flatMap Visit.regions |>.filter (Contains self)).getLast? with
  | none => simpa using h0
  | some r =>
    obtain ⟨base, size'⟩ := r
    simp [eq_comm]

instance (name : List UInt8) (vs : List Visit) : Decidable (Strings name vs) :=
  inferInstanceAs (Decidable (∀ v ∈ vs, ∀ p ∈ v.props, _ → _))

/-- The small tree has 128 MB of memory, seen from code in its second page. -/
theorem queryMem_small : queryMem 0x80001000 100 smallBlob 0 ⟨true, 1, 1⟩ = .ok 0x8000000 ∧
    (queryMem 0x80001000 100 smallBlob 0 ⟨true, 1, 1⟩ = .ok 0x8000000 ↔
      (∀ v ∈ fdtVisits smallBlob 0 smallTree, v.IsMemory → v.Sound) ∧ (0x8000000 : BitVec 64) ≠ 0 ∧
      ∃ base, (((fdtVisits smallBlob 0 smallTree).flatMap Visit.regions).filter
        (Contains 0x80001000)).getLast? = some (base, 0x8000000)) :=
  ⟨by decide +kernel, queryMem_ok_iff blob_small (by decide +kernel) (by decide +kernel) _ _ _⟩

/-- It has the host interface. -/
theorem queryHtif_small : queryHtif 100 smallBlob 0 true false = .ok true ∧
    ∃ b, queryHtif 100 smallBlob 0 true false = .ok b ∧
      (b = true ↔ false = true ∨ ∃ v ∈ fdtVisits smallBlob 0 smallTree, v.IsHtif) :=
  ⟨by decide +kernel, queryHtif_eq blob_small (by decide +kernel) (by decide +kernel) _ _⟩

end HustOS.Boot
