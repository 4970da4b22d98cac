import KeyOrder.Proofs.Checked.Decimal
import KeyOrder.Proofs.PowerTable.Requests

/-!
# KeyOrder.Proofs.Decimal.Shortcut

A binary length that is out of bounds decides a comparison as the product would. The bounds are
those of `Decimal.scaledBits`, and the product is that of the naturals themselves, `b` times the
power of ten that every filled table has. For every gap of 32 bits the length of the product is
within its bounds (`scaledBits_sound`), so leaving the product out makes no difference.
-/

namespace KeyOrder

open PowerTable (Reachable power)

namespace Decimal

/-- The product `b * 10^gap`. -/
def scaled (b : Natural) (gap : UInt32) : Natural := b.mul (power gap)

theorem value_scaled (b : Natural) (gap : UInt32) :
    (scaled b gap).value = b.value * 10 ^ gap.toNat :=
  value_mul_get PowerTable.new_filled b gap

theorem bits_scaled (b : Natural) (gap : UInt32) :
    (scaled b gap).bits = bitLength (b.value * 10 ^ gap.toNat) := by
  rw [Natural.bits_eq, value_scaled]

theorem value_lt_of_bits_lt {m n : Natural} (h : m.bits < n.bits) : m.value < n.value := by
  rw [Natural.bits_eq, Natural.bits_eq] at h
  exact lt_of_bitLength_lt h

/-- With and without the shortcut the order is that of the product. -/
theorem compareNaturals_scaled {a b : Natural} (ha : a.Bounded) (hb : b.Bounded) (gap : UInt32)
    {t : PowerTable} (ht : Reachable t) :
    (compareNaturals a b gap t).1 = compare a (scaled b gap) := by
  rw [(compareNaturals_eq ha hb gap ht.filled).order, Natural.compare_eq, value_scaled]

/-- The bounds for a positive number enclose the binary length of its product with a power of ten,
and no word overflows on the way to them, nor is one subtracted from zero. So a number whose length
is below them is less than the product and one whose length is above them is greater, and whether
the product is built or not the comparison gives its order. -/
theorem scaledBits_sound {b : Natural} (hpos : 0 < b.value) (hb : b.limbs.length < 2 ^ 54)
    (gap : UInt32) :
    (scaled b gap).value = b.value * 10 ^ gap.toNat ∧
    ∃ least greatest : UInt64,
      scaledBits b.bits.toUInt64 gap = (least, greatest) ∧
      Checked.bits b = some b.bits.toUInt64 ∧ b.bits.toUInt64.toNat = b.bits ∧
      Checked.scaledBits b.bits.toUInt64 gap = some (least, greatest) ∧
      least.toNat ≤ (scaled b gap).bits ∧ (scaled b gap).bits ≤ greatest.toNat ∧
      (∀ a : Natural, (a.bits < least.toNat → a.value < (scaled b gap).value) ∧
        (greatest.toNat < a.bits → (scaled b gap).value < a.value)) ∧
      ∀ (a : Natural) (t : PowerTable), a.Bounded → Reachable t →
        (a.bits.toUInt64 < least → compare a (scaled b gap) = .lt) ∧
        (greatest < a.bits.toUInt64 → compare a (scaled b gap) = .gt) ∧
        (compareNaturals a b gap t).1 = compare a (scaled b gap) := by
  have hbounded : b.Bounded := hb.le
  have hlength : b.bits.toUInt64.toNat = b.bits := by
    rw [hbounded.toNat_bits, Natural.bits_eq]
  have hbits : 0 < b.bits.toUInt64.toNat := by
    rw [hbounded.toNat_bits]
    exact bitLength_pos hpos
  obtain ⟨hleast, hgreatest⟩ :=
    scaledBits_enclose hpos hbounded.toNat_bits hbounded.toNat_bits_lt gap
  rw [← bits_scaled] at hleast hgreatest
  have hdecides : ∀ a : Natural,
      (a.bits < (scaledBits b.bits.toUInt64 gap).1.toNat → a.value < (scaled b gap).value) ∧
      ((scaledBits b.bits.toUInt64 gap).2.toNat < a.bits → (scaled b gap).value < a.value) := by
    intro a
    constructor
    · intro hless
      exact value_lt_of_bits_lt (lt_of_lt_of_le hless hleast)
    · intro hmore
      exact value_lt_of_bits_lt (lt_of_le_of_lt hgreatest hmore)
  refine ⟨value_scaled b gap, _, _, rfl, Checked.bits_eq (Checked.limbs_lt hbounded), hlength,
    Checked.scaledBits_eq gap hbits hbounded.toNat_bits_lt, hleast, hgreatest, hdecides, ?_⟩
  intro a t ha ht
  rw [UInt64.lt_iff_toNat_lt, UInt64.lt_iff_toNat_lt, ha.toNat_bits, ← Natural.bits_eq,
    Natural.compare_eq, compare_lt_iff_lt, compare_gt_iff_gt]
  refine ⟨(hdecides a).1, (hdecides a).2, ?_⟩
  rw [compareNaturals_scaled ha hbounded gap ht, Natural.compare_eq]

/-- Seven times the greatest power there is an exponent for, against the greatest word. -/
theorem scaledBits_sound_greatest_gap :
    compare (Natural.ofUInt64 18446744073709551615) (scaled (Natural.ofUInt64 7) 4294967295) =
      .lt := by
  obtain ⟨-, least, greatest, hbounds, -, -, -, -, -, -, hdecides⟩ :=
    scaledBits_sound (b := Natural.ofUInt64 7) (by decide) (by decide) 4294967295
  have hleast : least = 14173392075 := by
    have h : scaledBits (Natural.ofUInt64 7).bits.toUInt64 4294967295 =
        (14173392075, 14316557653) := by decide
    exact congrArg Prod.fst (hbounds.symm.trans h)
  refine (hdecides _ PowerTable.new (Natural.bounded_ofUInt64 _) .new).1 ?_
  rw [hleast]
  decide

end Decimal
end KeyOrder
