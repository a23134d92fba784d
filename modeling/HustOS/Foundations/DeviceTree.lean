import HustOS.Foundations.Bytes

/-!
# Flattened device trees

The structure block of a flattened device tree is a list of big-endian words: a node begins with a
token and its name, goes on with its properties and its children, and ends with a token; a property
has the length of its value and the place of its name in a block of strings. `Items` is what stands
inside a node, in the order of the block, and `Items.encode` its bytes.

Names and values are filled up to a multiple of four bytes (`padded`). A reader finds the words
again (`be32_of_at`), and the first word of a value as its first four bytes (`be32_eq_beNat`).
-/

namespace HustOS.Foundations.DeviceTree

open Buf

variable {mem : Buf} {off n : ℕ} {bs bs' : List UInt8}

instance decidableAt (mem : Buf) : (off : ℕ) → (bs : List UInt8) → Decidable (At mem off bs)
  | _, [] => isTrue trivial
  | off, _ :: bs =>
    have := decidableAt mem (off + 1) bs
    inferInstanceAs (Decidable (_ ∧ _))

/-! ## Big-endian numbers -/

/-- The number that the bytes denote, the highest byte first. -/
def beNat (bs : List UInt8) : ℕ := bs.foldl (fun n b => 256 * n + b.toNat) 0

/-- The bytes of a word of 32 bits, the highest byte first. -/
def beWord (n : ℕ) : List UInt8 :=
  [UInt8.ofNat (n / 16777216), UInt8.ofNat (n / 65536), UInt8.ofNat (n / 256), UInt8.ofNat n]

/-- The big-endian word at an offset. -/
def be32 (b : Buf) (off : ℕ) : ℕ :=
  (b off).toNat * 16777216 + (b (off + 1)).toNat * 65536 + (b (off + 2)).toNat * 256 +
    (b (off + 3)).toNat

@[simp] theorem length_beWord (n : ℕ) : (beWord n).length = 4 := rfl

theorem beNat_append (bs bs' : List UInt8) :
    beNat (bs ++ bs') = beNat bs * 256 ^ bs'.length + beNat bs' := by
  have key : ∀ (l : List UInt8) (a : ℕ), l.foldl (fun n b => 256 * n + b.toNat) a =
      a * 256 ^ l.length + beNat l := by
    intro l
    induction l with
    | nil => simp [beNat]
    | cons b l ih =>
      intro a
      have hb : beNat (b :: l) = (256 * 0 + b.toNat) * 256 ^ l.length + beNat l := ih _
      rw [List.foldl_cons, ih, hb, List.length_cons, pow_succ]
      ring
  rw [beNat, List.foldl_append, key]
  rfl

/-- A word read back. -/
theorem be32_of_at (h : At mem off (beWord n)) (hn : n < 2 ^ 32) : be32 mem off = n := by
  obtain ⟨h₀, h₁, h₂, h₃, -⟩ := h
  rw [be32, h₀, h₁, show off + 2 = off + 1 + 1 from rfl, h₂, show off + 3 = off + 1 + 1 + 1 from rfl,
    h₃]
  simp only [UInt8.toNat_ofNat']
  omega

/-- The first word of a list of bytes. -/
theorem be32_eq_beNat (h : At mem off bs) (hlen : 4 ≤ bs.length) :
    be32 mem off = beNat (bs.take 4) := by
  match bs, hlen with
  | b₀ :: b₁ :: b₂ :: b₃ :: bs, _ =>
    obtain ⟨h₀, h₁, h₂, h₃, -⟩ := h
    rw [be32, h₀, h₁, show off + 2 = off + 1 + 1 from rfl, h₂,
      show off + 3 = off + 1 + 1 + 1 from rfl, h₃]
    simp only [beNat, List.take_succ_cons, List.take_zero, List.foldl_cons, List.foldl_nil]
    ring

/-! ## The structure block -/

/-- The bytes that `n` bytes take in the block. -/
def padded (n : ℕ) : ℕ := (n + 3) / 4 * 4

/-- Bytes filled up to a whole number of words. -/
def pad (bs : List UInt8) : List UInt8 := bs ++ List.replicate (padded bs.length - bs.length) 0

theorem le_padded (n : ℕ) : n ≤ padded n := by
  rw [padded]
  omega

@[simp] theorem length_pad (bs : List UInt8) : (pad bs).length = padded bs.length := by
  have := le_padded bs.length
  rw [pad, List.length_append, List.length_replicate]
  omega

/-- The rest of a node from some place on: tokens to be skipped, properties with their name and
value, and children with their name and what they hold. -/
inductive Items
  | nil
  | nop (rest : Items)
  | prop (name value : List UInt8) (rest : Items)
  | node (name : List UInt8) (body rest : Items)

abbrev BEGIN_NODE : ℕ := 1
abbrev END_NODE : ℕ := 2
abbrev PROP : ℕ := 3
abbrev NOP : ℕ := 4
abbrev END : ℕ := 9

namespace Items

variable {nameoff : List UInt8 → ℕ} {name value : List UInt8} {body rest items : Items}

/-- The bytes of the items, where the string block has the name of a property at `nameoff`. -/
def encode (nameoff : List UInt8 → ℕ) : Items → List UInt8
  | nil => []
  | nop rest => beWord NOP ++ rest.encode nameoff
  | prop name value rest =>
    beWord PROP ++ (beWord value.length ++ (beWord (nameoff name) ++
      (pad value ++ rest.encode nameoff)))
  | node name body rest =>
    beWord BEGIN_NODE ++ (pad (name ++ [0]) ++ (body.encode nameoff ++
      (beWord END_NODE ++ rest.encode nameoff)))

/-- The number of bytes of the items. -/
def size : Items → ℕ
  | nil => 0
  | nop rest => 4 + rest.size
  | prop _ value rest => 12 + padded value.length + rest.size
  | node name body rest => 4 + padded (name.length + 1) + body.size + 4 + rest.size

theorem length_encode (nameoff : List UInt8 → ℕ) (items : Items) :
    (items.encode nameoff).length = items.size := by
  induction items with
  | nil => rfl
  | nop rest ih => simp [encode, size, ih]
  | prop name value rest ih =>
    simp only [encode, size, List.length_append, length_beWord, length_pad, ih]
    omega
  | node name body rest ihb ih =>
    simp only [encode, size, List.length_append, length_beWord, length_pad, List.length_singleton,
      ihb, ih]
    omega

/-- No properties from here on. -/
def NoProps : Items → Prop
  | nil => True
  | nop rest => rest.NoProps
  | prop _ _ _ => False
  | node _ _ rest => rest.NoProps

instance decidableNoProps : (items : Items) → Decidable items.NoProps
  | nil => isTrue trivial
  | nop rest => decidableNoProps rest
  | prop _ _ _ => isFalse id
  | node _ _ rest => decidableNoProps rest

/-- The items are those of the format: in each node the properties stand before the children, names
of nodes have no zero byte, and the names and values of properties satisfy `P`. -/
def WellFormed (P : List UInt8 → List UInt8 → Prop) : Items → Prop
  | nil => True
  | nop rest => rest.WellFormed P
  | prop name value rest => P name value ∧ rest.WellFormed P
  | node name body rest => (0 : UInt8) ∉ name ∧ body.WellFormed P ∧ rest.NoProps ∧ rest.WellFormed P

instance decidableWellFormed (P : List UInt8 → List UInt8 → Prop) [∀ n v, Decidable (P n v)] :
    (items : Items) → Decidable (items.WellFormed P)
  | nil => isTrue trivial
  | nop rest => decidableWellFormed P rest
  | prop _ _ rest =>
    have := decidableWellFormed P rest
    inferInstanceAs (Decidable (_ ∧ _))
  | node _ body rest =>
    have := decidableWellFormed P body
    have := decidableNoProps rest
    have := decidableWellFormed P rest
    inferInstanceAs (Decidable (_ ∧ _ ∧ _ ∧ _))

end Items

end HustOS.Foundations.DeviceTree
