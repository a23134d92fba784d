import HustOS.Mm.Isolation

/-!
# Mapping and filling a run of pages

What the loader does to the memory for one segment of a program: `map_pages` maps adjacent pages to
adjacent frames (`Spaces.mapRun`), and the bytes of the segment are written to the frames
(`Mach.writeBytes`).
-/

namespace HustOS.Mm

open Foundations

variable {m m' : Mach} {roots kept : Set ℕ} {pm : ℕ → PageMap} {l : List ℕ}
  {r va pa perm n size p a : ℕ}

/-! ## Writing bytes -/

/-- A copy of bytes to a block of memory. -/
def Mach.writeBytes (m : Mach) (p : ℕ) : List UInt8 → Mach
  | [] => m
  | b :: bs => (m.setByte p b.toNat).writeBytes (p + 1) bs

namespace Mach

theorem writeBytes_globals (bs : List UInt8) :
    (m.writeBytes p bs).gFreeMemList = m.gFreeMemList ∧ (m.writeBytes p bs).count5 = m.count5 ∧
      (m.writeBytes p bs).freeMemStartAddr = m.freeMemStartAddr := by
  induction bs generalizing m p with
  | nil => exact ⟨rfl, rfl, rfl⟩
  | cons b bs ih =>
    rw [writeBytes]
    exact ih

/-- Words outside the block are not written. -/
theorem writeBytes_mem {bs : List UInt8} (ha : ¬ (p / 8 * 8 ≤ a ∧ a < p + bs.length)) :
    (m.writeBytes p bs).mem a = m.mem a := by
  induction bs generalizing m p with
  | nil => rfl
  | cons b bs ih =>
    rw [List.length_cons] at ha
    rw [writeBytes, ih (by omega)]
    exact Mach.store_of_ne _ _ (by omega)

/-- **The bytes of the block** are those written, and the others are as before. -/
theorem byte_writeBytes (bs : List UInt8) : (m.writeBytes p bs).byte a =
    if p ≤ a ∧ a < p + bs.length then (bs.getD (a - p) 0).toNat else m.byte a := by
  induction bs generalizing m p with
  | nil =>
    rw [writeBytes, if_neg]
    simp only [List.length_nil]
    omega
  | cons b bs ih =>
    rw [writeBytes, ih, byte_setByte, Nat.mod_eq_of_lt b.toNat_lt, List.length_cons]
    by_cases hap : a = p
    · subst hap
      rw [if_neg (by omega), if_pos rfl, if_pos (by omega), Nat.sub_self]
      rfl
    · by_cases hin : p + 1 ≤ a ∧ a < p + 1 + bs.length
      · obtain ⟨k, rfl⟩ : ∃ k, a = p + 1 + k := ⟨a - (p + 1), by omega⟩
        rw [if_pos hin, if_pos (by omega), show p + 1 + k - (p + 1) = k by omega,
          show p + 1 + k - p = k + 1 by omega]
        rfl
      · rw [if_neg hin, if_neg hap, if_neg (by omega)]

end Mach

namespace Spaces

/-- **Writing into kept pages.** -/
theorem writeRange (h : Spaces m roots pm kept l)
    (hkept : ∀ a, p ≤ a → a < p + n → ∃ x ∈ kept, x ≤ a ∧ a < x + PGSIZE)
    (hm : ∀ a, ¬ (p ≤ a ∧ a < p + n) → m'.mem a = m.mem a)
    (hhead : m'.gFreeMemList = m.gFreeMemList) (hlock : m'.count5 = m.count5) :
    Spaces m' roots pm kept l := by
  refine h.congr (fun r hr y hy k => hm _ ?_) (fun q hq => hm _ ?_) hhead hlock
  · rintro ⟨h₁, h₂⟩
    obtain ⟨x, hx, hxy⟩ := hkept _ h₁ h₂
    have hne : y ≠ x := fun e => h.keptTable r hr x hx (e ▸ hy)
    exact page_apart ((h.table r hr).page y hy).1 (h.keptPage x hx).1 hne (slot_mem y k).1
      (slot_mem y k).2 hxy
  · rintro ⟨h₁, h₂⟩
    obtain ⟨x, hx, hxq⟩ := hkept _ h₁ h₂
    have hne : q ≠ x := fun e => h.keptPool x hx (e ▸ hq)
    exact page_apart (h.page q hq).1 (h.keptPage x hx).1 hne le_rfl
      (by simp only [PGSIZE]; omega) hxq

/-! ## Mapping adjacent pages -/

/-- A page that a loop of `map_pages` maps is mapped by a call for this page. -/
theorem mapLoop_succ (h : Spaces m roots pm kept l) (hr : r ∈ roots) (hva : PGSIZE ∣ va)
    (e : mapLoop r perm 0 (n + 1) va pa m = .ok (0, m')) :
    ∃ m₁, mapPages r va PGSIZE pa perm m = .ok (0, m₁) ∧
      mapLoop r perm 0 n (va + PGSIZE) ((pa + PGSIZE) % 2 ^ 64) m₁ = .ok (0, m') := by
  rw [mapLoop] at e
  obtain ⟨⟨pte, m₁⟩, e₁, e⟩ := (bind_ok_iff _ _ _).1 e
  obtain ⟨l₁, h₁, -, hlt, hpte, -⟩ := h.walk hr e₁
  by_cases h0 : pte = 0
  · simp only [h0, if_true, pure_eq_ok] at e
    cases e
  obtain ⟨q, rfl, hq⟩ := hpte h0
  have hw := (h₁.table r hr).leafWord hlt hq
  have hwalk : mapPages r va PGSIZE pa perm m = mapPages r va PGSIZE pa perm m₁ := by
    rw [mapPages, mapPages, e₁, pageWalk_at hlt hq true]
  have hone : OnePage va PGSIZE := .inr ⟨rfl, hva⟩
  simp only [h0, if_false] at e
  by_cases hv : m₁.mem (q + 8 * px 0 va) &&& PTE_V = 0
  · simp only [hv, ne_eq, not_true, if_false] at e
    have hnone := (hw.valid_iff fun _ _ => (h₁.table r hr).frameOk).1 hv
    rw [hnone] at hw
    refine ⟨_, ?_, e⟩
    rw [hwalk, mapPages_at hlt (hone.last hlt) hq h0, if_neg (not_not.2 hv), if_neg hw.2]
  · simp only [hv, ne_eq, not_false_iff, if_true, throw_eq_error] at e
    cases e

/-- `map_pages` is its loop. -/
theorem mapPages_loop (h : Spaces m roots pm kept l) (hr : r ∈ roots) (hva : PGSIZE ∣ va)
    (hn : 0 < n) (hend : va + PGSIZE * n < 2 ^ 64)
    (e : mapPages r va (PGSIZE * n) pa perm m = .ok (0, m')) :
    mapLoop r perm 0 n va pa m = .ok (0, m') := by
  obtain ⟨k, rfl⟩ : ∃ k, n = k + 1 := ⟨n - 1, by omega⟩
  rw [mapPages] at e
  obtain ⟨⟨pte, m₁⟩, e₁, e⟩ := (bind_ok_iff _ _ _).1 e
  obtain ⟨l₁, h₁, -, hlt, hpte, -⟩ := h.walk hr e₁
  have h0 : pte ≠ 0 := by
    rintro rfl
    cases e
  obtain ⟨q, rfl, hq⟩ := hpte h0
  have hw := (h₁.table r hr).leafWord hlt hq
  have hmark : m₁.mem (q + 8 * px 0 va) ≠ 0x100 := by
    intro hmark
    rw [hmark] at hw
    have hnone := (hw.valid_iff fun _ _ => (h₁.table r hr).frameOk).1 (by decide)
    rw [hnone] at hw
    exact hw.2 rfl
  have hcount : roundDown va PGSIZE = va ∧
      roundDown ((va + PGSIZE * (k + 1) + (2 ^ 64 - 1)) % 2 ^ 64) PGSIZE = va + PGSIZE * k := by
    obtain ⟨x, rfl⟩ := hva
    simp only [roundDown, PGSIZE] at *
    omega
  have hlen : (va + PGSIZE * k - va) / PGSIZE + 1 = k + 1 := by
    rw [Nat.add_sub_cancel_left, Nat.mul_div_cancel_left _ (by decide)]
  simp only [Mach.load, h0, if_false, pure_eq_ok, ok_bind, hmark, hcount.1, hcount.2,
    Nat.le_add_right, if_true, hlen] at e
  rw [mapLoop, pageWalk_at hlt hq true] at e
  rw [mapLoop, e₁]
  exact e

/-- **Adjacent pages** that were not mapped are mapped to adjacent frames. -/
theorem mapRun (h : Spaces m roots pm kept l) (hr : r ∈ roots) (hva : PGSIZE ∣ va)
    (hkept : ∀ t < n, pa + PGSIZE * t ∈ kept)
    (hun : ∀ t < n, ∀ r' ∈ roots, ∀ v perm', pm r' v ≠ some (pa + PGSIZE * t, perm'))
    (hperm : perm < 2 ^ 10) (hread : perm &&& (PTE_R ||| PTE_W) ≠ 0)
    (e : mapLoop r perm 0 n va pa m = .ok (0, m')) :
    ∃ l', Spaces m' roots (Function.update pm r (mapRange (pm r) (va / PGSIZE) n pa perm)) kept l' ∧
      SameOn kept m m' ∧ l' <:+ l ∧ ∀ t < n, pm r (va / PGSIZE + t) = none := by
  induction n generalizing m pm l va pa with
  | zero =>
    cases e
    rw [mapRange_zero, Function.update_eq_self]
    exact ⟨l, h, .refl, List.suffix_rfl, fun t ht => absurd ht (Nat.not_lt_zero t)⟩
  | succ n ih =>
    obtain ⟨m₁, e₁, e₂⟩ := h.mapLoop_succ hr hva e
    have hpa := hkept 0 (Nat.succ_pos n)
    have hunpa := hun 0 (Nat.succ_pos n)
    rw [Nat.mul_zero, Nat.add_zero] at hpa hunpa
    have hf : Mappable roots pm kept va pa :=
      ⟨hpa, .inr fun r hr v perm' hv => absurd hv (hunpa r hr v perm')⟩
    obtain ⟨-, hlt, hnone, hs₁, l₁, h₁, hsuf₁⟩ := h.map hr (.inr ⟨rfl, hva⟩) hf hperm hread e₁
    have hdiv : (va + PGSIZE) / PGSIZE = va / PGSIZE + 1 := Nat.add_div_right va (by decide)
    have hmod : (pa + PGSIZE) % 2 ^ 64 = pa + PGSIZE := by
      have := (h.keptPage pa hpa).2
      simp only [PGSIZE]
      omega
    have hnext : ∀ t, pa + PGSIZE + PGSIZE * t = pa + PGSIZE * (t + 1) := fun t => by
      rw [Nat.mul_succ, Nat.add_assoc, Nat.add_comm PGSIZE]
    rw [hmod] at e₂
    have hkept' : ∀ t < n, pa + PGSIZE + PGSIZE * t ∈ kept := fun t ht => by
      rw [hnext]
      exact hkept (t + 1) (by omega)
    have hun' : ∀ t < n, ∀ r' ∈ roots, ∀ v perm', mapAt pm r (va / PGSIZE) (some (pa, perm)) r' v ≠
        some (pa + PGSIZE + PGSIZE * t, perm') := by
      intro t ht r' hr' v perm' hv
      rw [hnext, mapAt_apply] at hv
      split at hv
      · have he := (Prod.mk.inj (Option.some.inj hv)).1
        simp only [PGSIZE] at he
        omega
      · exact hun (t + 1) (by omega) r' hr' v perm' hv
    obtain ⟨l', h', hs', hsuf', hfree⟩ := ih h₁ ((Nat.dvd_add_self_right).2 hva) hkept' hun' e₂
    refine ⟨l', ?_, hs₁.trans hs', hsuf'.trans hsuf₁, fun t ht => ?_⟩
    · rw [mapRange_succ, ← hdiv]
      rw [mapAt, Function.update_idem, Function.update_self] at h'
      exact h'
    · cases t with
      | zero => exact hnone
      | succ t =>
        have hv := hfree t (by omega)
        rw [hdiv, mapAt_apply, if_neg (by omega)] at hv
        rw [show va / PGSIZE + (t + 1) = va / PGSIZE + 1 + t by omega]
        exact hv

end Spaces

end HustOS.Mm
