import Mathlib

/-!
# KeyOrder.Proofs.Ordering

Comparisons through the numbers that are compared. `compare_congr` moves a comparison from one
linear order to another one that agrees on less and equal; the other lemmas are its instances:
machine words are compared as their numbers, a positive factor on both sides does not count, and
the higher digits decide before the lower ones.
-/

namespace KeyOrder

theorem compare_congr {α β : Type} [LinearOrder α] [LinearOrder β] {a b : α} {c d : β}
    (hlt : a < b ↔ c < d) (heq : a = b ↔ c = d) : compare a b = compare c d := by
  rcases lt_trichotomy a b with h | h | h
  · rw [compare_lt_iff_lt.mpr h, compare_lt_iff_lt.mpr (hlt.mp h)]
  · rw [compare_eq_iff_eq.mpr h, compare_eq_iff_eq.mpr (heq.mp h)]
  · have hgt : d < c := by
      rcases lt_trichotomy c d with h' | h' | h'
      · exact absurd (hlt.mpr h') (not_lt_of_gt h)
      · exact absurd (heq.mpr h') h.ne'
      · exact h'
    rw [compare_gt_iff_gt.mpr h, compare_gt_iff_gt.mpr hgt]

theorem compare_of_strictMono {α β : Type} [LinearOrder α] [LinearOrder β] {f : α → β}
    (hf : StrictMono f) (a b : α) : compare (f a) (f b) = compare a b :=
  compare_congr hf.lt_iff_lt hf.injective.eq_iff

theorem compare_swap {α : Type} [LinearOrder α] (a b : α) : (compare a b).swap = compare b a :=
  Std.OrientedCmp.eq_swap.symm

/-! ## Machine words -/

theorem compare_toNat64 (a b : UInt64) : compare a b = compare a.toNat b.toNat := by
  simp only [compare, compareOfLessAndEq, UInt64.lt_iff_toNat_lt, ← UInt64.toNat_inj]

theorem compare_toNat8 (a b : UInt8) : compare a b = compare a.toNat b.toNat := by
  simp only [compare, compareOfLessAndEq, UInt8.lt_iff_toNat_lt, ← UInt8.toNat_inj]

theorem compare_toNat32 (a b : UInt32) : compare a b = compare a.toNat b.toNat := by
  simp only [compare, compareOfLessAndEq, UInt32.lt_iff_toNat_lt, ← UInt32.toNat_inj]

theorem compare_toInt32 (a b : Int32) : compare a b = compare a.toInt b.toInt := by
  simp only [compare, compareOfLessAndEq, Int32.lt_iff_toInt_lt, ← Int32.toInt_inj]

theorem compare_toInt8 (a b : Int8) : compare a b = compare a.toInt b.toInt := by
  simp only [compare, compareOfLessAndEq, Int8.lt_iff_toInt_lt, ← Int8.toInt_inj]

theorem compare_toInt16 (a b : Int16) : compare a b = compare a.toInt b.toInt := by
  simp only [compare, compareOfLessAndEq, Int16.lt_iff_toInt_lt, ← Int16.toInt_inj]

theorem compare_toInt64 (a b : Int64) : compare a b = compare a.toInt b.toInt := by
  simp only [compare, compareOfLessAndEq, Int64.lt_iff_toInt_lt, ← Int64.toInt_inj]

/-! ## Products -/

theorem compare_mul_right {α : Type} [Semiring α] [LinearOrder α] [IsStrictOrderedRing α]
    (a b : α) {c : α} (hc : 0 < c) : compare (a * c) (b * c) = compare a b :=
  compare_of_strictMono (strictMono_mul_right_of_pos hc) a b

/-- Of two numbers in one radix the higher digits decide first. -/
theorem compare_digits (x y : Nat) {low low' radix : Nat} (h : low < radix) (h' : low' < radix) :
    (compare x y).then (compare low low') = compare (low + radix * x) (low' + radix * y) := by
  rcases lt_trichotomy x y with hxy | rfl | hxy
  · have hle : radix * (x + 1) ≤ radix * y := Nat.mul_le_mul_left _ hxy
    rw [Nat.mul_succ] at hle
    have hlt : low + radix * x < low' + radix * y := by omega
    rw [compare_lt_iff_lt.mpr hxy, compare_lt_iff_lt.mpr hlt]
    rfl
  · rw [compare_eq_iff_eq.mpr rfl]
    exact compare_congr (by omega) (by omega)
  · have hle : radix * (y + 1) ≤ radix * x := Nat.mul_le_mul_left _ hxy
    rw [Nat.mul_succ] at hle
    have hgt : low' + radix * y < low + radix * x := by omega
    rw [compare_gt_iff_gt.mpr hxy, compare_gt_iff_gt.mpr hgt]
    rfl

/-- The quotient decides, and of equal quotients a remainder is past the product. -/
theorem compare_div_mod (a b : Nat) {s : Nat} (hs : 0 < s) :
    (compare (a / s) b).then (compare (a % s) 0) = compare a (b * s) := by
  rw [compare_digits _ _ (Nat.mod_lt a hs) hs, Nat.mod_add_div, Nat.zero_add, Nat.mul_comm s b]

end KeyOrder
