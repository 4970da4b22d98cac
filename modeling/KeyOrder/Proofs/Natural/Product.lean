import KeyOrder.Natural.Mul
import KeyOrder.Proofs.Natural.Value

/-!
# KeyOrder.Proofs.Natural.Product

Products of naturals are products of their numbers (`value_mulLimb`, `value_mul`).

An accumulator of a row holds `a * b + slot + carry` for limbs `a`, `b`, `slot` and a carry below
`2^32`: at most `2^64 - 1`, so it is that number exactly and its upper half is again a carry below
`2^32`. A row conserves the number of its window together with the carry it sends out; the whole
product fits the window, so every such carry is zero.
-/

namespace KeyOrder
namespace Natural

/-! ## Accumulators -/

theorem accumulator_lt (a b slot : UInt32) {carry : UInt64} (hc : carry.toNat < 2 ^ 32) :
    a.toNat * b.toNat + slot.toNat + carry.toNat < 2 ^ 64 := by
  have ha : a.toNat ≤ 2 ^ 32 - 1 := Nat.le_sub_one_of_lt a.toNat_lt
  have hb : b.toNat ≤ 2 ^ 32 - 1 := Nat.le_sub_one_of_lt b.toNat_lt
  have hslot : slot.toNat < 2 ^ 32 := slot.toNat_lt
  have hab : a.toNat * b.toNat ≤ (2 ^ 32 - 1) * (2 ^ 32 - 1) := Nat.mul_le_mul ha hb
  omega

theorem toNat_mul_limbs (a b : UInt32) :
    (a.toUInt64 * b.toUInt64).toNat = a.toNat * b.toNat := by
  have h := accumulator_lt a b 0 (show (0 : UInt64).toNat < 2 ^ 32 by decide)
  rw [UInt64.toNat_mul, UInt32.toNat_toUInt64, UInt32.toNat_toUInt64, Nat.mod_eq_of_lt]
  omega

theorem toNat_accumulator (a b slot : UInt32) {carry : UInt64} (hc : carry.toNat < 2 ^ 32) :
    (a.toUInt64 * b.toUInt64 + slot.toUInt64 + carry).toNat =
      a.toNat * b.toNat + slot.toNat + carry.toNat := by
  have h := accumulator_lt a b slot hc
  rw [UInt64.toNat_add, UInt64.toNat_add, toNat_mul_limbs, UInt32.toNat_toUInt64]
  omega

theorem scaleAccumulator_lt (limb k : UInt32) {carry : UInt64} (hc : carry.toNat < 2 ^ 32) :
    carry.toNat + limb.toNat * k.toNat < 2 ^ 64 := by
  have h := accumulator_lt limb k 0 hc
  omega

theorem toNat_scaleAccumulator (limb k : UInt32) {carry : UInt64} (hc : carry.toNat < 2 ^ 32) :
    (carry + limb.toUInt64 * k.toUInt64).toNat = carry.toNat + limb.toNat * k.toNat := by
  have h := scaleAccumulator_lt limb k hc
  rw [UInt64.toNat_add, toNat_mul_limbs, Nat.mod_eq_of_lt h]

theorem toNat_carryAccumulator (slot : UInt32) {carry : UInt64} (hc : carry.toNat < 2 ^ 32) :
    (carry + slot.toUInt64).toNat = carry.toNat + slot.toNat := by
  have hslot : slot.toNat < 2 ^ 32 := slot.toNat_lt
  rw [UInt64.toNat_add, UInt32.toNat_toUInt64]
  omega

/-- An accumulator is its lower half and the carry. -/
theorem halves (sum : UInt64) :
    sum.toUInt32.toNat + 4294967296 * (sum >>> 32).toNat = sum.toNat := by
  have hhigh : (sum >>> 32).toNat = sum.toNat / 2 ^ 32 := by simp [Nat.shiftRight_eq_div_pow]
  rw [UInt64.toNat_toUInt32, hhigh]
  omega

theorem carry_lt (sum : UInt64) : (sum >>> 32).toNat < 2 ^ 32 := by
  have hsum : sum.toNat < 2 ^ 64 := sum.toNat_lt
  have hhigh : (sum >>> 32).toNat = sum.toNat / 2 ^ 32 := by simp [Nat.shiftRight_eq_div_pow]
  rw [hhigh]
  omega

/-! ## By one limb -/

theorem limbsValue_scaleLimbs (k : UInt32) (limbs : List UInt32) :
    ∀ carry : UInt64, carry.toNat < 2 ^ 32 →
      limbsValue (scaleLimbs k limbs carry) = limbsValue limbs * k.toNat + carry.toNat := by
  induction limbs with
  | nil =>
    intro carry hc
    by_cases hz : carry = 0
    · simp [scaleLimbs, hz, limbsValue]
    · simpa [scaleLimbs, hz, limbsValue] using hc
  | cons limb limbs ih =>
    intro carry hc
    have hsum := toNat_scaleAccumulator limb k hc
    have hhalves := halves (carry + limb.toUInt64 * k.toUInt64)
    simp only [scaleLimbs, limbsValue]
    rw [ih _ (carry_lt _)]
    calc _ = (carry + limb.toUInt64 * k.toUInt64).toNat +
          4294967296 * (limbsValue limbs * k.toNat) := by rw [← hhalves]; ring
      _ = _ := by rw [hsum]; ring

theorem value_mulLimb (n : Natural) (k : UInt32) : (n.mulLimb k).value = n.value * k.toNat := by
  rw [mulLimb, value_ofLimbs, limbsValue_scaleLimbs k _ 0 (by decide), value]
  simp

/-! ## By any number -/

theorem addCarry_spec (window : List UInt32) :
    ∀ carry : UInt64, carry.toNat < 2 ^ 32 →
      (addCarry window carry).1.length = window.length ∧
      limbsValue (addCarry window carry).1 +
          2 ^ (32 * window.length) * (addCarry window carry).2.toNat =
        limbsValue window + carry.toNat := by
  induction window with
  | nil =>
    intro carry _
    simp [addCarry, limbsValue]
  | cons slot window ih =>
    intro carry hc
    by_cases hz : carry = 0
    · simp [addCarry, hz]
    · have hsum := toNat_carryAccumulator slot hc
      have hhalves := halves (carry + slot.toUInt64)
      obtain ⟨hlen, hvalue⟩ := ih _ (carry_lt (carry + slot.toUInt64))
      simp only [addCarry, hz, if_false, List.length_cons, hlen, limbsValue, Nat.mul_succ, pow_add,
        true_and]
      calc _ = (carry + slot.toUInt64).toUInt32.toNat + 4294967296 * (limbsValue
            (addCarry window ((carry + slot.toUInt64) >>> 32)).1 + 2 ^ (32 * window.length) *
            (addCarry window ((carry + slot.toUInt64) >>> 32)).2.toNat) := by ring
        _ = slot.toNat + 4294967296 * limbsValue window + carry.toNat := by rw [hvalue]; omega

/-- A row adds `a * limbs + carry` to its window and sends out what does not fit. -/
theorem addRow_spec (a : UInt32) (limbs : List UInt32) :
    ∀ (window : List UInt32) (carry : UInt64), limbs.length ≤ window.length →
      carry.toNat < 2 ^ 32 →
      (addRow a limbs window carry).1.length = window.length ∧
      limbsValue (addRow a limbs window carry).1 +
          2 ^ (32 * window.length) * (addRow a limbs window carry).2.toNat =
        limbsValue window + a.toNat * limbsValue limbs + carry.toNat := by
  induction limbs with
  | nil =>
    intro window carry _ hc
    simpa [addRow, limbsValue] using addCarry_spec window carry hc
  | cons b limbs ih =>
    intro window carry hlen hc
    cases window with
    | nil => simp at hlen
    | cons slot window =>
      have hsum := toNat_accumulator a b slot hc
      have hhalves := halves (a.toUInt64 * b.toUInt64 + slot.toUInt64 + carry)
      obtain ⟨hlength, hvalue⟩ := ih window _ (by simpa using hlen)
        (carry_lt (a.toUInt64 * b.toUInt64 + slot.toUInt64 + carry))
      simp only [addRow, List.length_cons, hlength, limbsValue, Nat.mul_succ, pow_add, true_and]
      generalize hres : addRow a limbs window
        ((a.toUInt64 * b.toUInt64 + slot.toUInt64 + carry) >>> 32) = res at hvalue ⊢
      generalize hacc : a.toUInt64 * b.toUInt64 + slot.toUInt64 + carry = acc at *
      calc _ = acc.toUInt32.toNat + 4294967296 * (limbsValue res.1 +
            2 ^ (32 * window.length) * res.2.toNat) := by ring
        _ = (acc.toUInt32.toNat + 4294967296 * (acc >>> 32).toNat) +
            4294967296 * (limbsValue window + a.toNat * limbsValue limbs) := by rw [hvalue]; ring
        _ = _ := by rw [hhalves, hsum]; ring

/-- A row that fits its window sends out nothing. -/
theorem addRow_fits {a : UInt32} {limbs window : List UInt32}
    (hlen : limbs.length ≤ window.length)
    (hfit : limbsValue window + a.toNat * limbsValue limbs < 2 ^ (32 * window.length)) :
    (addRow a limbs window 0).2 = 0 ∧
      limbsValue (addRow a limbs window 0).1 = limbsValue window + a.toNat * limbsValue limbs := by
  obtain ⟨-, hvalue⟩ := addRow_spec a limbs window 0 hlen (by decide)
  rw [UInt64.toNat_zero, Nat.add_zero] at hvalue
  have hout : (addRow a limbs window 0).2.toNat = 0 := by
    by_contra hne
    have := Nat.le_mul_of_pos_right (2 ^ (32 * window.length)) (Nat.pos_of_ne_zero hne)
    omega
  rw [hout, Nat.mul_zero, Nat.add_zero] at hvalue
  exact ⟨UInt64.toNat_inj.mp hout, hvalue⟩

/-- The first of the rows: it fits its window, and the rows after it fit what is left of the
window above its lowest limb. -/
theorem addRow_first {a : UInt32} {long short window : List UInt32}
    (hlen : window.length = short.length + 1 + long.length)
    (hfit : limbsValue window + limbsValue (a :: short) * limbsValue long <
      2 ^ (32 * window.length)) :
    ∃ slot higher, addRow a long window 0 = (slot :: higher, 0) ∧
      higher.length = short.length + long.length ∧
      limbsValue (slot :: higher) = limbsValue window + a.toNat * limbsValue long ∧
      limbsValue higher + limbsValue short * limbsValue long < 2 ^ (32 * higher.length) := by
  have hsplit : limbsValue (a :: short) * limbsValue long =
      a.toNat * limbsValue long + 4294967296 * (limbsValue short * limbsValue long) := by
    rw [limbsValue]
    ring
  have hrow : limbsValue window + a.toNat * limbsValue long < 2 ^ (32 * window.length) := by omega
  obtain ⟨hout, hvalue⟩ := addRow_fits (by omega) hrow
  obtain ⟨hlength, -⟩ := addRow_spec a long window 0 (by omega) (by decide)
  obtain ⟨slot, higher, hsum⟩ := List.exists_cons_of_length_pos
    (show 0 < (addRow a long window 0).1.length by omega)
  rw [hsum, List.length_cons] at hlength
  rw [hsum] at hvalue
  refine ⟨slot, higher, Prod.ext hsum hout, by omega, hvalue, ?_⟩
  rw [limbsValue] at hvalue
  rw [← hlength, Nat.mul_succ, pow_add] at hfit
  omega

theorem limbsValue_addRows (long short : List UInt32) :
    ∀ window : List UInt32, window.length = short.length + long.length →
      limbsValue window + limbsValue short * limbsValue long < 2 ^ (32 * window.length) →
      limbsValue (addRows long short window) =
        limbsValue window + limbsValue short * limbsValue long := by
  induction short with
  | nil =>
    intro window _ _
    simp [addRows, limbsValue]
  | cons a short ih =>
    intro window hlen hfit
    obtain ⟨slot, higher, hsum, hlength, hvalue, hhigher⟩ := addRow_first hlen hfit
    simp only [limbsValue] at hvalue
    simp only [addRows, hsum, limbsValue]
    rw [ih higher hlength hhigher, Nat.add_mul, Nat.mul_assoc]
    omega

theorem mul_fits (short long : List UInt32) :
    limbsValue (List.replicate (short.length + long.length) 0) +
        limbsValue short * limbsValue long <
      2 ^ (32 * (List.replicate (short.length + long.length) (0 : UInt32)).length) := by
  rw [limbsValue_zeros, Nat.zero_add, List.length_replicate, Nat.mul_add, pow_add]
  exact Nat.mul_lt_mul'' (limbsValue_lt short) (limbsValue_lt long)

theorem value_mul (m n : Natural) : (m.mul n).value = m.value * n.value := by
  unfold mul value
  by_cases h : m.limbs.length ≤ n.limbs.length
  · simp only [h, if_true]
    rw [← value, value_ofLimbs, limbsValue_addRows _ _ _ (by simp) (mul_fits _ _)]
    simp
  · simp only [h, if_false]
    rw [← value, value_ofLimbs, limbsValue_addRows _ _ _ (by simp) (mul_fits _ _)]
    simp [Nat.mul_comm]

theorem mul_comm (m n : Natural) : m.mul n = n.mul m :=
  value_injective (by rw [value_mul, value_mul, Nat.mul_comm])

end Natural
end KeyOrder
