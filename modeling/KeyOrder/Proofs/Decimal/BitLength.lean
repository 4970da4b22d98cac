import KeyOrder.Decimal.Order
import KeyOrder.Proofs.Natural.Value

/-!
# KeyOrder.Proofs.Decimal.BitLength

The bounds on the binary length of `b * 10^gap`. From `2^33 ≤ 10^10` and `10^3 ≤ 2^10` follow
`2^(33e/10) ≤ 10^e ≤ 2^(10e/3)` with the first exponent rounded down and the second one up, for
every `e` whatsoever; so the two `scaledBits` enclose the length (`scaledBits_enclose`), and a
number that is shorter or longer than they allow is less or greater than the product.
-/

namespace KeyOrder
namespace Decimal

theorem two_pow_le_ten_pow (e : Nat) : 2 ^ (e * 33 / 10) ≤ 10 ^ e := by
  have h : (2 ^ (e * 33 / 10)) ^ 10 ≤ (10 ^ e) ^ 10 := by
    calc (2 ^ (e * 33 / 10)) ^ 10 = 2 ^ (e * 33 / 10 * 10) := (pow_mul _ _ _).symm
      _ ≤ 2 ^ (33 * e) := Nat.pow_le_pow_right (by omega) (by omega)
      _ = (2 ^ 33) ^ e := pow_mul _ _ _
      _ ≤ (10 ^ 10) ^ e := Nat.pow_le_pow_left (by norm_num) e
      _ = (10 ^ e) ^ 10 := by rw [← pow_mul, ← pow_mul, Nat.mul_comm]
  exact (Nat.pow_le_pow_iff_left (by decide)).mp h

theorem ten_pow_le_two_pow (e : Nat) : 10 ^ e ≤ 2 ^ ((e * 10 + 2) / 3) := by
  have h : (10 ^ e) ^ 3 ≤ (2 ^ ((e * 10 + 2) / 3)) ^ 3 := by
    calc (10 ^ e) ^ 3 = (10 ^ 3) ^ e := by rw [← pow_mul, ← pow_mul, Nat.mul_comm]
      _ ≤ (2 ^ 10) ^ e := Nat.pow_le_pow_left (by norm_num) e
      _ = 2 ^ (10 * e) := (pow_mul _ _ _).symm
      _ ≤ 2 ^ ((e * 10 + 2) / 3 * 3) := Nat.pow_le_pow_right (by omega) (by omega)
      _ = (2 ^ ((e * 10 + 2) / 3)) ^ 3 := pow_mul _ _ _
  exact (Nat.pow_le_pow_iff_left (by decide)).mp h

theorem bitLength_scaled_ge {b : Nat} (hb : 0 < b) (e : Nat) :
    bitLength b + e * 33 / 10 ≤ bitLength (b * 10 ^ e) := by
  obtain ⟨k, hk⟩ := Nat.exists_eq_add_of_lt (bitLength_pos hb)
  rw [Nat.zero_add] at hk
  have hle : 2 ^ k ≤ b := (lt_bitLength_iff b k).mp (by omega)
  have hprod : 2 ^ (k + e * 33 / 10) ≤ b * 10 ^ e := by
    rw [pow_add]
    exact Nat.mul_le_mul hle (two_pow_le_ten_pow e)
  have := (lt_bitLength_iff _ _).mpr hprod
  omega

theorem bitLength_scaled_le (b e : Nat) :
    bitLength (b * 10 ^ e) ≤ bitLength b + (e * 10 + 2) / 3 := by
  rw [bitLength_le_iff, pow_add]
  have hb : b < 2 ^ bitLength b := (bitLength_le_iff b _).mp le_rfl
  exact Nat.mul_lt_mul_of_lt_of_le hb (ten_pow_le_two_pow e) (by positivity)

/-- A 32-bit exponent adds at most `2^30` limbs. -/
theorem length_scaled_le {b p : Natural} {e : Nat} (he : e < 2 ^ 32)
    (hp : p.value = b.value * 10 ^ e) : p.limbs.length ≤ b.limbs.length + 2 ^ 30 := by
  have hb : bitLength b.value ≤ 32 * b.limbs.length := (bitLength_le_iff _ _).mpr b.value_lt
  have hle := bitLength_scaled_le b.value e
  rw [Natural.length_limbs_le_iff, ← bitLength_le_iff, hp]
  omega

/-! ## In machine words -/

theorem toNat_least (gap : UInt32) :
    (gap.toUInt64 * 33 / 10).toNat = gap.toNat * 33 / 10 := by
  have hgap : gap.toNat < 2 ^ 32 := gap.toNat_lt
  simp only [UInt64.toNat_div, UInt64.toNat_mul, UInt32.toNat_toUInt64, UInt64.reduceToNat]
  omega

theorem toNat_greatest (gap : UInt32) :
    ((gap.toUInt64 * 10 + 2) / 3).toNat = (gap.toNat * 10 + 2) / 3 := by
  have hgap : gap.toNat < 2 ^ 32 := gap.toNat_lt
  simp only [UInt64.toNat_div, UInt64.toNat_add, UInt64.toNat_mul, UInt32.toNat_toUInt64,
    UInt64.reduceToNat]
  omega

theorem toNat_scaledBits {bits : UInt64} (gap : UInt32) (hpos : 0 < bits.toNat)
    (hbits : bits.toNat < 2 ^ 63) :
    (scaledBits bits gap).1.toNat = bits.toNat + gap.toNat * 33 / 10 - 1 ∧
      (scaledBits bits gap).2.toNat = bits.toNat + (gap.toNat * 10 + 2) / 3 := by
  have hgap : gap.toNat < 2 ^ 32 := gap.toNat_lt
  have hleast := toNat_least gap
  have hgreatest := toNat_greatest gap
  have hsum : (bits + gap.toUInt64 * 33 / 10).toNat = bits.toNat + gap.toNat * 33 / 10 := by
    rw [UInt64.toNat_add, hleast]
    omega
  have hone : (1 : UInt64) ≤ bits + gap.toUInt64 * 33 / 10 := by
    rw [UInt64.le_iff_toNat_le, hsum]
    show 1 ≤ _
    omega
  constructor
  · show (bits + gap.toUInt64 * 33 / 10 - 1).toNat = _
    rw [UInt64.toNat_sub_of_le _ _ hone, hsum]
    rfl
  · show (bits + (gap.toUInt64 * 10 + 2) / 3).toNat = _
    rw [UInt64.toNat_add, hgreatest]
    omega

/-- The two bounds enclose the binary length of the product. -/
theorem scaledBits_enclose {b : Nat} (hb : 0 < b) {bits : UInt64}
    (hbits : bits.toNat = bitLength b) (hlt : bits.toNat < 2 ^ 63) (gap : UInt32) :
    (scaledBits bits gap).1.toNat ≤ bitLength (b * 10 ^ gap.toNat) ∧
      bitLength (b * 10 ^ gap.toNat) ≤ (scaledBits bits gap).2.toNat := by
  have hpos : 0 < bits.toNat := hbits ▸ bitLength_pos hb
  obtain ⟨hleast, hgreatest⟩ := toNat_scaledBits gap hpos hlt
  have hge := bitLength_scaled_ge hb gap.toNat
  have hle := bitLength_scaled_le b gap.toNat
  rw [hleast, hgreatest, hbits]
  omega

theorem lt_of_bitLength_lt {m n : Nat} (h : bitLength m < bitLength n) : m < n := by
  have hm : m < 2 ^ bitLength m := (bitLength_le_iff m _).mp le_rfl
  exact lt_of_lt_of_le hm ((lt_bitLength_iff n _).mp h)

end Decimal
end KeyOrder
