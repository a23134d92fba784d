import Mathlib.Data.List.Basic
import Mathlib.Data.UInt
import Mathlib.Tactic.Common
import Mathlib.Tactic.Ring

/-!
# Buffers of bytes

A buffer is a byte at each offset. Words of 32 bits are stored with their lowest byte first
(`u32`, `setWords`), strings end with a zero byte (`cstr`, `setCstr`, and `strcmpEq` for the
comparison of a stored string with another one), and `blit` copies bytes between buffers, or within
one as if through a temporary buffer. `At` says that a list of bytes stands at an offset; a reader
goes through it from the front (`at_cons`, `at_append`).

Each way of writing comes with what is read back at the place written and with the frame: a read
that does not meet the bytes written is unchanged, by the `congr` lemma of the read.
-/

namespace HustOS.Foundations

/-- A byte at each offset. -/
abbrev Buf : Type := ℕ → UInt8

namespace Buf

variable {b b' src : Buf} {off off' n k i : ℕ}

/-! ## Words -/

/-- The 32-bit word at an offset. -/
def u32 (b : Buf) (off : ℕ) : ℕ :=
  (b off).toNat + 256 * (b (off + 1)).toNat + 65536 * (b (off + 2)).toNat +
    16777216 * (b (off + 3)).toNat

/-- Store `n` words from an offset on. -/
def setWords (b : Buf) (off : ℕ) (f : ℕ → ℕ) (n : ℕ) : Buf := fun i =>
  if off ≤ i ∧ i < off + 4 * n then UInt8.ofNat (f ((i - off) / 4) / 256 ^ ((i - off) % 4)) else b i

/-- Store one word. -/
def setU32 (b : Buf) (off v : ℕ) : Buf := b.setWords off (fun _ => v) 1

theorem u32_lt (b : Buf) (off : ℕ) : b.u32 off < 2 ^ 32 := by
  have h₀ := (b off).toNat_lt
  have h₁ := (b (off + 1)).toNat_lt
  have h₂ := (b (off + 2)).toNat_lt
  have h₃ := (b (off + 3)).toNat_lt
  rw [u32]
  omega

theorem u32_congr (h : ∀ i < 4, b' (off' + i) = b (off + i)) : b'.u32 off' = b.u32 off := by
  have h₀ := h 0 (by omega)
  rw [Nat.add_zero, Nat.add_zero] at h₀
  rw [u32, u32, h₀, h 1 (by omega), h 2 (by omega), h 3 (by omega)]

theorem setWords_apply_of_lt (f : ℕ → ℕ) (h : i < off ∨ off + 4 * n ≤ i) :
    b.setWords off f n i = b i :=
  if_neg (by omega)

/-- A word read back. -/
theorem u32_setWords (f : ℕ → ℕ) (hk : k < n) :
    (b.setWords off f n).u32 (off + 4 * k) = f k % 2 ^ 32 := by
  have hb : ∀ j < 4, b.setWords off f n (off + 4 * k + j) = UInt8.ofNat (f k / 256 ^ j) := by
    intro j hj
    rw [setWords, if_pos (by omega), show (off + 4 * k + j - off) / 4 = k by omega,
      show (off + 4 * k + j - off) % 4 = j by omega]
  have h₀ := hb 0 (by omega)
  rw [Nat.add_zero] at h₀
  rw [u32, h₀, hb 1 (by omega), hb 2 (by omega), hb 3 (by omega)]
  simp only [UInt8.toNat_ofNat']
  omega

theorem u32_setWords_of_disjoint (f : ℕ → ℕ) (h : off' + 4 ≤ off ∨ off + 4 * n ≤ off') :
    (b.setWords off f n).u32 off' = b.u32 off' :=
  u32_congr fun i hi => setWords_apply_of_lt f (by omega)

@[simp] theorem u32_setU32 (v : ℕ) : (b.setU32 off v).u32 off = v % 2 ^ 32 :=
  u32_setWords (n := 1) (k := 0) (fun _ => v) (by omega)

/-! ## Copies -/

/-- Copy `n` bytes of `src` from `soff` on to `off`. -/
def blit (b : Buf) (off : ℕ) (src : Buf) (soff n : ℕ) : Buf := fun i =>
  if off ≤ i ∧ i < off + n then src (soff + (i - off)) else b i

theorem blit_apply_of_lt {soff : ℕ} (h : i < off ∨ off + n ≤ i) : b.blit off src soff n i = b i :=
  if_neg (by omega)

theorem blit_apply {soff : ℕ} (h : i < n) : b.blit off src soff n (off + i) = src (soff + i) := by
  rw [blit, if_pos (by omega), Nat.add_sub_cancel_left]

/-! ## Strings -/

/-- The string at an offset, of at most `fuel` bytes. -/
def cstr (b : Buf) : ℕ → ℕ → List UInt8
  | 0, _ => []
  | fuel + 1, off => if b off = 0 then [] else b off :: cstr b fuel (off + 1)

/-- Store a string with its zero byte (`strcpy`). -/
def setCstr (b : Buf) (off : ℕ) (s : List UInt8) : Buf := fun i =>
  if off ≤ i ∧ i ≤ off + s.length then s.getD (i - off) 0 else b i

/-- Whether the string at an offset equals `s` (`strcmp` returns 0). -/
def strcmpEq (b : Buf) : ℕ → List UInt8 → Bool
  | off, [] => b off == 0
  | off, c :: s => b off == c && strcmpEq b (off + 1) s

theorem setCstr_apply_of_lt {s : List UInt8} (h : i < off ∨ off + s.length < i) :
    b.setCstr off s i = b i :=
  if_neg (by omega)

theorem cstr_congr (h : ∀ i < n, b' (off' + i) = b (off + i)) : b'.cstr n off' = b.cstr n off := by
  induction n generalizing off off' with
  | zero => rfl
  | succ n ih =>
    have h₀ := h 0 (by omega)
    rw [Nat.add_zero, Nat.add_zero] at h₀
    have hrest : b'.cstr n (off' + 1) = b.cstr n (off + 1) := by
      refine ih fun i hi => ?_
      have := h (i + 1) (by omega)
      rwa [show off' + (i + 1) = off' + 1 + i by omega, show off + (i + 1) = off + 1 + i by omega]
        at this
    rw [cstr, cstr, h₀, hrest]

theorem cstr_length_le (b : Buf) (n off : ℕ) : (b.cstr n off).length ≤ n := by
  induction n generalizing off with
  | zero => simp [cstr]
  | succ n ih =>
    rw [cstr]
    split
    · simp
    · simpa using ih (off + 1)

theorem zero_notMem_cstr (b : Buf) (n off : ℕ) : (0 : UInt8) ∉ b.cstr n off := by
  induction n generalizing off with
  | zero => simp [cstr]
  | succ n ih =>
    rw [cstr]
    split
    · simp
    · rename_i hne
      simpa using ⟨Ne.symm hne, ih (off + 1)⟩

/-- A string that fits is read as it was stored. -/
theorem cstr_setCstr {s : List UInt8} (h0 : (0 : UInt8) ∉ s) (hn : s.length < n) :
    (b.setCstr off s).cstr n off = s := by
  -- the rest of the string is at the following offset
  have key : ∀ (r t : List UInt8) (m : ℕ), s = t ++ r → r.length < m →
      (b.setCstr off s).cstr m (off + t.length) = r := by
    intro r
    induction r with
    | nil =>
      intro t m hs hm
      obtain ⟨m, rfl⟩ : ∃ m', m = m' + 1 := ⟨m - 1, by simp at hm; omega⟩
      have hv : b.setCstr off s (off + t.length) = 0 := by
        rw [setCstr, if_pos (by simp [hs]), hs]
        simp
      rw [cstr, hv, if_pos rfl]
    | cons c r ih =>
      intro t m hs hm
      obtain ⟨m, rfl⟩ : ∃ m', m = m' + 1 := ⟨m - 1, by simp at hm; omega⟩
      have hv : b.setCstr off s (off + t.length) = c := by
        rw [setCstr, if_pos (by simp [hs]), hs]
        simp
      have hc : c ≠ 0 := by
        rintro rfl
        simp [hs] at h0
      have hr := ih (t ++ [c]) m (by simp [hs]) (by simpa using hm)
      rw [cstr, hv, if_neg hc]
      rw [List.length_append, List.length_singleton, ← Nat.add_assoc] at hr
      rw [hr]
  simpa using key s [] n rfl hn

/-- Comparing a stored string with one that fits compares what is read. -/
theorem strcmpEq_iff {s : List UInt8} (h0 : (0 : UInt8) ∉ s) (hn : s.length < n) :
    b.strcmpEq off s = true ↔ b.cstr n off = s := by
  induction s generalizing off n with
  | nil =>
    obtain ⟨n, rfl⟩ : ∃ n', n = n' + 1 := ⟨n - 1, by simp at hn; omega⟩
    simp only [strcmpEq, cstr, beq_iff_eq]
    split <;> simp_all
  | cons c s ih =>
    obtain ⟨n, rfl⟩ : ∃ n', n = n' + 1 := ⟨n - 1, by simp at hn; omega⟩
    simp only [List.mem_cons, not_or] at h0
    have hs : b.strcmpEq (off + 1) s = true ↔ b.cstr n (off + 1) = s := ih h0.2 (by simpa using hn)
    simp only [strcmpEq, cstr, Bool.and_eq_true, beq_iff_eq, hs]
    split
    · rename_i hz
      simp only [List.nil_eq, reduceCtorEq, iff_false, not_and, hz]
      exact fun e => absurd e h0.1
    · rw [List.cons.injEq]

/-! ## Bytes at an offset -/

/-- The bytes stand at the offset. -/
def At (mem : Buf) : ℕ → List UInt8 → Prop
  | _, [] => True
  | off, b :: bs => mem off = b ∧ At mem (off + 1) bs

variable {mem : Buf} {c : UInt8} {bs bs' : List UInt8}

@[simp] theorem at_nil : At mem off [] := trivial

@[simp] theorem at_cons : At mem off (c :: bs) ↔ mem off = c ∧ At mem (off + 1) bs := Iff.rfl

theorem at_append : At mem off (bs ++ bs') ↔ At mem off bs ∧ At mem (off + bs.length) bs' := by
  induction bs generalizing off with
  | nil => simp
  | cons b bs ih =>
    rw [List.cons_append, at_cons, at_cons, ih, List.length_cons, and_assoc,
      show off + 1 + bs.length = off + (bs.length + 1) by omega]

theorem at_congr (h : ∀ i < bs.length, b' (off' + i) = mem (off + i)) (hat : At mem off bs) :
    At b' off' bs := by
  induction bs generalizing off off' with
  | nil => trivial
  | cons c bs ih =>
    have h₀ := h 0 (by simp)
    rw [Nat.add_zero, Nat.add_zero] at h₀
    refine ⟨h₀.trans hat.1, ih (fun i hi => ?_) hat.2⟩
    have := h (i + 1) (by simpa using hi)
    rwa [show off' + (i + 1) = off' + 1 + i by omega, show off + (i + 1) = off + 1 + i by omega]
      at this

/-- Bytes in front of or behind one that is written stay. -/
theorem at_update (hat : At mem off bs) (h : i < off ∨ off + bs.length ≤ i) :
    At (Function.update mem i c) off bs :=
  at_congr (fun j hj => Function.update_of_ne (by omega) _ _) hat

/-- A string stored with its zero byte. -/
theorem at_setCstr (b : Buf) (off : ℕ) (s : List UInt8) : At (b.setCstr off s) off (s ++ [0]) := by
  have key : ∀ r t : List UInt8, s = t ++ r → At (b.setCstr off s) (off + t.length) (r ++ [0]) := by
    intro r
    induction r with
    | nil =>
      intro t hs
      refine ⟨?_, trivial⟩
      rw [setCstr, if_pos (by simp [hs]), hs]
      simp
    | cons c r ih =>
      intro t hs
      refine ⟨?_, ?_⟩
      · rw [setCstr, if_pos (by simp [hs]), hs]
        simp
      · have hrest := ih (t ++ [c]) (by simp [hs])
        rwa [List.length_append, List.length_singleton, ← Nat.add_assoc] at hrest
  exact key s [] rfl

/-- A string with its zero byte is read. -/
theorem cstr_of_at (h0 : (0 : UInt8) ∉ bs) (hat : At mem off (bs ++ [0])) (hn : bs.length < n) :
    mem.cstr n off = bs := by
  induction bs generalizing off n with
  | nil =>
    obtain ⟨n, rfl⟩ : ∃ n', n = n' + 1 := ⟨n - 1, by simp at hn; omega⟩
    rw [cstr, if_pos hat.1]
  | cons c bs ih =>
    obtain ⟨n, rfl⟩ : ∃ n', n = n' + 1 := ⟨n - 1, by simp at hn; omega⟩
    obtain ⟨hc, hrest⟩ := hat
    rw [List.mem_cons, not_or] at h0
    rw [cstr, hc, if_neg (Ne.symm h0.1), ih h0.2 hrest (by simpa using hn)]

/-- A buffer that holds the bytes. -/
theorem at_getD (bs : List UInt8) : At (fun i => bs.getD i 0) 0 bs := by
  have haux : ∀ (pre bs : List UInt8), At (fun i => (pre ++ bs).getD i 0) pre.length bs := by
    intro pre bs
    induction bs generalizing pre with
    | nil => trivial
    | cons b bs ih =>
      refine ⟨by simp, ?_⟩
      simpa using ih (pre ++ [b])
  exact haux [] bs

end Buf

/-! ## Digits -/

/-- The digits of a number to base 256 after one of them is replaced. -/
theorem digit_setDigit {w b k k' : ℕ} (hb : b < 256) :
    (w / 256 ^ (k + 1) * 256 ^ (k + 1) + b * 256 ^ k + w % 256 ^ k) / 256 ^ k' % 256 =
      if k' = k then b else w / 256 ^ k' % 256 := by
  have hpos : 0 < 256 ^ k := Nat.pow_pos (by decide)
  have hlow : w % 256 ^ k < 256 ^ k := Nat.mod_lt _ hpos
  have hsum : w / 256 ^ (k + 1) * 256 ^ (k + 1) + b * 256 ^ k + w % 256 ^ k =
      256 ^ k * (w / 256 ^ (k + 1) * 256 + b) + w % 256 ^ k := by ring
  rw [hsum]
  rcases Nat.lt_trichotomy k' k with hk | rfl | hk
  · -- the lower digits are those of the remainder
    have hdvd : 256 ^ k' * 256 ∣ 256 ^ k := by
      rw [← pow_succ]
      exact pow_dvd_pow 256 hk
    rw [if_neg (by omega), ← Nat.mod_mul_right_div_self, ← Nat.mod_mul_right_div_self w,
      ← Nat.mod_mod_of_dvd _ hdvd, Nat.mul_add_mod, Nat.mod_mod, Nat.mod_mod_of_dvd _ hdvd]
  · rw [if_pos rfl, Nat.mul_add_div hpos, Nat.div_eq_of_lt hlow, Nat.add_zero, Nat.mul_comm,
      Nat.mul_add_mod, Nat.mod_eq_of_lt hb]
  · -- the higher ones are those of the quotient
    obtain ⟨j, rfl⟩ := Nat.exists_eq_add_of_lt hk
    have hq : (256 ^ k * (w / 256 ^ (k + 1) * 256 + b) + w % 256 ^ k) / 256 ^ (k + 1) =
        w / 256 ^ (k + 1) := by
      rw [pow_succ, ← Nat.div_div_eq_div_mul, Nat.mul_add_div hpos, Nat.div_eq_of_lt hlow,
        Nat.add_zero, Nat.mul_comm, Nat.mul_add_div (by decide), Nat.div_eq_of_lt hb, Nat.add_zero]
    rw [if_neg (by omega), show k + j + 1 = k + 1 + j by omega, pow_add 256 (k + 1) j,
      ← Nat.div_div_eq_div_mul, ← Nat.div_div_eq_div_mul, hq]

end HustOS.Foundations
