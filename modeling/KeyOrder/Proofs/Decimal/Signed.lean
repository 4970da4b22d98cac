import KeyOrder.Decimal.Encoded
import KeyOrder.Proofs.Decimal.Comparison

/-!
# KeyOrder.Proofs.Decimal.Signed

Signed decimals are compared as their numbers.

* `Significand.value_narrowed` — the one form of a magnitude is worth what the stored form is.
* `EncodedDecimal.compareMagnitudes_eq` — each pair of forms is compared as the magnitudes are.
* `EncodedDecimal.sign_cases` — the sign is that of the number, zero of either flag included.
* `EncodedDecimal.compare_eq` — the comparison is that of the numbers.
* `EncodedDecimal.number` — a decimal or NULL as one number, where NULL is below all.
-/

namespace KeyOrder

open Decimal (Answers)
open PowerTable (Filled)

namespace Significand

theorem value_narrowed (s : Significand) : s.narrowed.value = s.value := by
  cases s with
  | compact v => rfl
  | extended bytes =>
    unfold narrowed
    by_cases hlen : 8 < (Bytes.significant bytes).length
    · simp only [hlen, if_true]
      exact Bytes.value_significant bytes
    · simp only [hlen, if_false]
      have hlt : Bytes.value bytes < 256 ^ 8 :=
        (Bytes.length_significant_le_iff bytes 8).mp (not_lt.mp hlen)
      show (UInt64.ofNat (Bytes.value (Bytes.significant bytes))).toNat = Bytes.value bytes
      rw [Bytes.value_significant, UInt64.toNat_ofNat', Nat.mod_eq_of_lt (by simpa using hlt)]

theorem isZero_iff (s : Significand) : s.isZero = true ↔ s.value = 0 := by
  cases s with
  | compact v =>
    show (v == 0) = true ↔ v.toNat = 0
    rw [beq_iff_eq, ← UInt64.toNat_inj]
    rfl
  | extended bytes => exact (Bytes.value_eq_zero_iff bytes).symm

/-- Significands of fewer than `2^56` bytes. -/
def Bounded : Significand → Prop
  | compact _ => True
  | extended bytes => bytes.length < 2 ^ 56

end Significand

namespace EncodedDecimal

/-- `magnitude * 10^exponent` with a sign. -/
def signed (positive : Bool) (magnitude : Nat) (exponent : Int) : ℚ :=
  if positive then magnitude * (10 : ℚ) ^ exponent else -(magnitude * (10 : ℚ) ^ exponent)

def toRat (d : EncodedDecimal) : ℚ := signed d.positive d.significand.value d.exponent.toInt

/-- NULL is below every number. -/
def number : Option EncodedDecimal → WithBot ℚ
  | none => ⊥
  | some d => d.toRat

/-- The narrowed forms are the forms of the magnitudes, pair by pair. -/
theorem compareMagnitudes_eq (a b : EncodedDecimal) (powers : PowerTable) :
    a.compareMagnitudes b powers = a.magnitude.compare b.magnitude powers := by
  unfold compareMagnitudes magnitude
  cases a.significand.narrowed with
  | compact v => cases b.significand.narrowed <;> rfl
  | extended bytes => cases b.significand.narrowed <;> rfl

theorem toRat_magnitude (d : EncodedDecimal) :
    d.magnitude.toRat = d.significand.value * (10 : ℚ) ^ d.exponent.toInt := by
  rw [← Significand.value_narrowed, magnitude]
  cases d.significand.narrowed with
  | compact v => rfl
  | extended bytes =>
    show (WideDecimal.ofBytes bytes d.exponent).toRat = _
    rw [WideDecimal.toRat, WideDecimal.ofBytes, Natural.value_ofBytes]
    rfl

theorem bounded_magnitude {d : EncodedDecimal} (h : d.significand.Bounded) :
    d.magnitude.Bounded := by
  unfold magnitude
  cases hs : d.significand with
  | compact v => trivial
  | extended bytes =>
    rw [hs] at h
    unfold Significand.narrowed
    by_cases hlen : 8 < (Bytes.significant bytes).length
    · simp only [hlen, if_true]
      exact Natural.bounded_ofBytes (lt_of_le_of_lt (Bytes.length_significant_le bytes) h)
    · simp only [hlen, if_false]
      trivial

theorem toRat_magnitude_pos {d : EncodedDecimal} (h : ¬d.significand.isZero = true) :
    0 < d.magnitude.toRat := by
  rw [Significand.isZero_iff] at h
  have hvalue : 0 < d.significand.value := Nat.pos_of_ne_zero h
  rw [toRat_magnitude]
  positivity

theorem sign_cases (d : EncodedDecimal) :
    (d.sign = 0 ∧ d.toRat = 0) ∨
    (d.sign = 1 ∧ 0 < d.toRat ∧ d.toRat = d.magnitude.toRat) ∨
    (d.sign = -1 ∧ d.toRat < 0 ∧ d.toRat = -d.magnitude.toRat) := by
  unfold sign toRat signed
  by_cases hzero : d.significand.isZero = true
  · rw [if_pos hzero, (Significand.isZero_iff _).mp hzero]
    simp
  · rw [if_neg hzero, ← toRat_magnitude]
    have hpos := toRat_magnitude_pos hzero
    cases d.positive with
    | true => exact .inr (.inl ⟨rfl, hpos, rfl⟩)
    | false => exact .inr (.inr ⟨rfl, neg_lt_zero.mpr hpos, rfl⟩)

theorem compare_eq {a b : EncodedDecimal} (ha : a.significand.Bounded)
    (hb : b.significand.Bounded) {t : PowerTable} (ht : Filled t) :
    Answers t (compare a.toRat b.toRat) (a.compare b t) := by
  have hmagnitudes := Decimal.compare_eq (bounded_magnitude ha) (bounded_magnitude hb) ht
  rw [EncodedDecimal.compare, compareMagnitudes_eq]
  rcases sign_cases a with ⟨hsa, hra⟩ | ⟨hsa, hra, hma⟩ | ⟨hsa, hra, hma⟩ <;>
    rcases sign_cases b with ⟨hsb, hrb⟩ | ⟨hsb, hrb, hmb⟩ | ⟨hsb, hrb, hmb⟩ <;>
    rw [hsa, hsb]
  · exact .keep (by rw [hra, hrb]; rfl)
  · exact .keep (compare_lt_iff_lt.mpr (by linarith)).symm
  · exact .keep (compare_gt_iff_gt.mpr (by linarith)).symm
  · exact .keep (compare_gt_iff_gt.mpr (by linarith)).symm
  · rw [hma, hmb]
    exact hmagnitudes
  · exact .keep (compare_gt_iff_gt.mpr (by linarith)).symm
  · exact .keep (compare_lt_iff_lt.mpr (by linarith)).symm
  · exact .keep (compare_lt_iff_lt.mpr (by linarith)).symm
  · have hneg : compare a.toRat b.toRat = (compare a.magnitude.toRat b.magnitude.toRat).swap := by
      rw [hma, hmb, compare_swap]
      exact compare_congr neg_lt_neg_iff (by rw [neg_inj, eq_comm])
    rw [hneg]
    exact hmagnitudes.swap

end EncodedDecimal
end KeyOrder
