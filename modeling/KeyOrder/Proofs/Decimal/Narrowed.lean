import KeyOrder.Proofs.Checked.Significand
import KeyOrder.Proofs.Decimal.Canonical

/-!
# KeyOrder.Proofs.Decimal.Narrowed

The one form of a magnitude. Narrowing tells magnitudes apart by their number and by nothing else
(`narrowed_eq_iff`): those below `2^64` become words, and of the others the bytes without leading
zeros stay. What is compared in the end, `EncodedDecimal.magnitude`, is made from this form, so its
number is that of the field and decides whether it is a word or a natural.
-/

namespace KeyOrder

open Decimal (compact wide)

namespace Bytes

/-- Leading zeros and significant bytes are all there is. -/
theorem exists_zeros_append (bytes : Bytes) :
    ∃ zeros, bytes = List.replicate zeros 0 ++ significant bytes := by
  refine ⟨(bytes.takeWhile (· == 0)).length, ?_⟩
  have hzeros : bytes.takeWhile (· == 0) =
      List.replicate (bytes.takeWhile (· == 0)).length 0 := by
    rw [List.eq_replicate_iff]
    refine ⟨rfl, ?_⟩
    intro byte hbyte
    have hzero : (byte == 0) = true := List.mem_takeWhile_imp (p := (· == 0)) hbyte
    exact beq_iff_eq.mp hzero
  rw [← hzeros, significant, List.takeWhile_append_dropWhile]

end Bytes

namespace Significand

theorem narrowed_eq_compact_iff (s : Significand) :
    (∃ v, s.narrowed = compact v) ↔ s.value < 2 ^ 64 := by
  by_cases hlt : s.value < 2 ^ 64
  · rw [narrowed_eq, if_pos hlt]
    exact ⟨fun _ => hlt, fun _ => ⟨_, rfl⟩⟩
  · rw [narrowed_eq, if_neg hlt]
    exact ⟨nofun, fun h => absurd h hlt⟩

theorem narrowed_of_le {bytes : Bytes} (h : 2 ^ 64 ≤ bytes.value) :
    (extended bytes).narrowed = extended (Bytes.significant bytes) := by
  have hlarge : ¬(extended bytes).value < 2 ^ 64 := not_lt.mpr h
  rw [narrowed_eq, if_neg hlarge]
  rfl

theorem length_significant_of_le {bytes : Bytes} (h : 2 ^ 64 ≤ bytes.value) :
    8 < (Bytes.significant bytes).length := by
  by_contra hshort
  have hlt := (Bytes.length_significant_le_iff bytes 8).mp (not_lt.mp hshort)
  norm_num at hlt
  omega

/-- The number is all that narrowing keeps. -/
theorem narrowed_eq_iff (s s' : Significand) : s.narrowed = s'.narrowed ↔ s.value = s'.value := by
  constructor
  · intro h
    rw [← value_narrowed s, h, value_narrowed s']
  · exact narrowed_congr

theorem narrowed_narrowed (s : Significand) : s.narrowed.narrowed = s.narrowed :=
  narrowed_congr (value_narrowed s)

theorem isZero_narrowed (s : Significand) : s.narrowed.isZero = s.isZero := by
  rw [Bool.eq_iff_iff, isZero_iff, isZero_iff, value_narrowed]

end Significand

namespace EncodedDecimal

theorem significand_magnitude (d : EncodedDecimal) :
    d.magnitude.significand = d.significand.value := by
  rw [← Significand.value_narrowed, magnitude]
  cases d.significand.narrowed with
  | compact v => rfl
  | extended bytes => exact Natural.value_ofBytes bytes

theorem exponent_magnitude (d : EncodedDecimal) : d.magnitude.exponent = d.exponent := by
  rw [magnitude]
  cases d.significand.narrowed with
  | compact v => rfl
  | extended bytes => rfl

theorem magnitude_eq_wide_iff (d : EncodedDecimal) :
    (∃ w, d.magnitude = wide w) ↔ 2 ^ 64 ≤ d.significand.value := by
  rw [← not_lt, ← d.significand.narrowed_eq_compact_iff, magnitude]
  cases d.significand.narrowed with
  | compact v => simp
  | extended bytes => simp

end EncodedDecimal

namespace Significand

/-- Narrowing keeps the number, and so whether it is zero; narrowed once more a magnitude stays as
it is, and two magnitudes are narrowed to one if and only if they are one number. Bytes become a
word just if their number is below `2^64`; otherwise their leading zeros go, and more than eight
bytes are left. The magnitude of a decimal has its number and its exponent, and is a natural just
from `2^64` on. No cut and no copy is out of range. -/
theorem narrowed_canonical :
    (∀ s : Significand, s.narrowed.value = s.value ∧ s.narrowed.narrowed = s.narrowed ∧
      s.narrowed.isZero = s.isZero) ∧
    (∀ v, (compact v).narrowed = compact v) ∧
    (∀ bytes : Bytes, ((∃ v, (extended bytes).narrowed = compact v) ↔ bytes.value < 2 ^ 64) ∧
      (2 ^ 64 ≤ bytes.value →
        (extended bytes).narrowed = extended (Bytes.significant bytes) ∧
        (∃ zeros, bytes = List.replicate zeros 0 ++ Bytes.significant bytes) ∧
        (Bytes.significant bytes).head? ≠ some 0 ∧ 8 < (Bytes.significant bytes).length)) ∧
    (∀ s s' : Significand, s.narrowed = s'.narrowed ↔ s.value = s'.value) ∧
    (∀ d : EncodedDecimal, d.magnitude.significand = d.significand.value ∧
      d.magnitude.exponent = d.exponent ∧
      ((∃ w, d.magnitude = wide w) ↔ 2 ^ 64 ≤ d.significand.value)) ∧
    ∀ d : EncodedDecimal, (∀ bytes, d.significand = extended bytes → bytes.length < 2 ^ 63) →
      Checked.narrowed d.significand = some d.significand.narrowed ∧
      Checked.magnitude d = some d.magnitude := by
  refine ⟨?_, fun v => rfl, ?_, narrowed_eq_iff, ?_, ?_⟩
  · intro s
    exact ⟨value_narrowed s, narrowed_narrowed s, isZero_narrowed s⟩
  · intro bytes
    refine ⟨narrowed_eq_compact_iff (extended bytes), ?_⟩
    intro hlarge
    exact ⟨narrowed_of_le hlarge, Bytes.exists_zeros_append bytes,
      Bytes.head?_significant_ne_zero bytes, length_significant_of_le hlarge⟩
  · intro d
    exact ⟨d.significand_magnitude, d.exponent_magnitude, d.magnitude_eq_wide_iff⟩
  · intro d hlength
    exact ⟨Checked.narrowed_eq hlength, Checked.magnitude_eq hlength⟩

/-- The least number of nine bytes, behind two zeros, stays bytes; the greatest of eight bytes
behind as many zeros is a word. -/
theorem narrowed_canonical_nine_bytes :
    (extended [0, 0, 1, 0, 0, 0, 0, 0, 0, 0, 0]).narrowed = extended [1, 0, 0, 0, 0, 0, 0, 0, 0] ∧
      Checked.narrowed (extended [0, 0, 255, 255, 255, 255, 255, 255, 255, 255]) =
        some (compact 18446744073709551615) := by
  obtain ⟨-, -, hbytes, -, -, hchecked⟩ := narrowed_canonical
  constructor
  · obtain ⟨hnine, -⟩ := (hbytes [0, 0, 1, 0, 0, 0, 0, 0, 0, 0, 0]).2 (by decide)
    exact hnine
  · refine (hchecked ⟨true, 0, extended [0, 0, 255, 255, 255, 255, 255, 255, 255, 255]⟩ ?_).1
    intro bytes hlength
    cases hlength
    decide

end Significand
end KeyOrder
