import KeyOrder.Decimal.Encode
import KeyOrder.Proofs.Decimal.Encoded

/-!
# KeyOrder.Proofs.Decimal.Encode

Written decimals are read back, from wherever they stand: the sign flag and the exponent as they
were given, and of the magnitude its number. `stored` is what `encode` writes of a magnitude: the
number itself below `2^63`, and otherwise the bytes without leading zeros.
-/

namespace KeyOrder
namespace EncodedDecimal

open Decoder (Reads)

/-- The significand that `encode` writes. -/
def stored (magnitude : Bytes) : Significand :=
  if magnitude.value < 2 ^ 63 then .compact (UInt64.ofNat magnitude.value)
  else .extended (Bytes.significant magnitude)

theorem value_stored (magnitude : Bytes) : (stored magnitude).value = magnitude.value := by
  unfold stored
  by_cases h : magnitude.value < 2 ^ 63
  · rw [if_pos h, Significand.value, UInt64.toNat_ofNat']
    exact Nat.mod_eq_of_lt (by omega)
  · rw [if_neg h, Significand.value, Bytes.value_significant]

theorem bounded_stored {magnitude : Bytes} (h : magnitude.length < 2 ^ 56) :
    (stored magnitude).Bounded := by
  unfold stored
  by_cases hlt : magnitude.value < 2 ^ 63
  · rw [if_pos hlt]
    trivial
  · rw [if_neg hlt]
    exact lt_of_le_of_lt (Bytes.length_significant_le magnitude) h

/-! ## Reading back -/

theorem toInt_scale (exponent : Int32) : (-exponent.toInt64).toInt = -exponent.toInt := by
  have hleast : -2 ^ 31 ≤ exponent.toInt := exponent.le_toInt
  have hmost : exponent.toInt < 2 ^ 31 := exponent.toInt_lt
  rw [Int64.toInt_neg, Int32.toInt_toInt64]
  exact Int.bmod_eq_of_le (by omega) (by omega)

/-- A header, a scale and an unscaled part that were written. -/
theorem reads_written {h : UInt8} {positive compact : Bool} {u : Int64} {rest : Bytes}
    {m : Significand} (exponent : Int32) (hpresent : h ≠ nullHeader)
    (hpositive : (h &&& plusFlag != 0) = positive) (hcompact : (h &&& compactFlag != 0) = compact)
    (hm : Reads (readSignificand compact u) rest m) :
    Reads read (h :: encodeScale exponent ++ (CompactInt.encode u ++ rest))
      (some ⟨positive, exponent, m⟩) := by
  have hopening : Opening (h :: encodeScale exponent) h exponent := by
    refine ⟨hpresent, CompactInt.encode_spells _, ?_⟩
    rw [toInt_scale, neg_neg]
  subst hpositive
  exact hopening.reads (reads_magnitude exponent hcompact (CompactInt.encode_spells u) hm)

theorem extended_header (positive : Bool) :
    header positive ≠ nullHeader ∧ (header positive &&& plusFlag != 0) = positive ∧
      (header positive &&& compactFlag != 0) = false := by
  cases positive <;> decide

theorem compact_header (positive : Bool) :
    (header positive ||| compactFlag) ≠ nullHeader ∧
      ((header positive ||| compactFlag) &&& plusFlag != 0) = positive ∧
      ((header positive ||| compactFlag) &&& compactFlag != 0) = true := by
  cases positive <;> decide

theorem reads_encodeExtended (positive : Bool) {magnitude : Bytes}
    (h : magnitude.length < 2 ^ 63) (exponent : Int32) :
    Reads read (encodeExtended positive magnitude exponent)
      (some ⟨positive, exponent, .extended (Bytes.significant magnitude)⟩) := by
  have hlength : (Bytes.significant magnitude).length < 2 ^ 63 :=
    lt_of_le_of_lt (Bytes.length_significant_le magnitude) h
  have hextended := reads_extended (Int64.toInt_ofNat_of_lt hlength)
  obtain ⟨hpresent, hpositive, hcompact⟩ := extended_header positive
  exact reads_written exponent hpresent hpositive hcompact hextended

theorem compactValue?_eq (magnitude : Bytes) :
    compactValue? (Bytes.significant magnitude) =
      if magnitude.value < 2 ^ 63 then some (Int64.ofNat magnitude.value) else none := by
  have hlength := Bytes.length_significant_le_iff magnitude 8
  have hsize : (256 : Nat) ^ 8 = 2 ^ 64 := by norm_num
  rw [hsize] at hlength
  rw [compactValue?, Bytes.value_significant]
  by_cases hlong : 8 < (Bytes.significant magnitude).length
  · have hlarge : ¬magnitude.value < 2 ^ 63 := by omega
    rw [if_pos hlong, if_neg hlarge]
  · have hword : (UInt64.ofNat magnitude.value).toInt64 = Int64.ofNat magnitude.value := rfl
    have hlt : magnitude.value < 2 ^ 64 := by omega
    simp only [hlong, if_false, hword]
    by_cases hsmall : magnitude.value < 2 ^ 63
    · have hneg : ¬Int64.ofNat magnitude.value < 0 :=
        Int64.not_lt.mpr (CompactInt.ofNat_nonneg hsmall)
      rw [if_neg hneg, if_pos hsmall]
    · have hneg : Int64.ofNat magnitude.value < 0 := by
        have hsize : Int64.size = 2 ^ 64 := rfl
        rw [Int64.lt_iff_toInt_lt, Int64.toInt_ofNat', Int.bmod_def, hsize]
        show _ < (0 : Int)
        omega
      rw [if_pos hneg, if_neg hsmall]

theorem reads_encode (positive : Bool) {magnitude : Bytes} (h : magnitude.length < 2 ^ 63)
    (exponent : Int32) :
    Reads read (encode positive magnitude exponent)
      (some ⟨positive, exponent, stored magnitude⟩) := by
  unfold encode stored
  rw [compactValue?_eq]
  by_cases hlt : magnitude.value < 2 ^ 63
  · have hcompacted := reads_compact (CompactInt.ofNat_nonneg hlt)
    obtain ⟨hpresent, hpositive, hcompact⟩ := compact_header positive
    have hreads := reads_written exponent hpresent hpositive hcompact hcompacted
    rw [List.append_nil] at hreads
    rw [if_pos hlt, if_pos hlt]
    exact hreads
  · rw [if_neg hlt, if_neg hlt]
    exact reads_encodeExtended positive h exponent

end EncodedDecimal
end KeyOrder
