import KeyOrder.Proofs.Checked.Bytes
import KeyOrder.Proofs.Checked.Product

/-!
# KeyOrder.Proofs.Natural.Exact

Naturals are exact. Products are the products of the numbers, in whichever way they are computed
(`product_exact`, `limb_product_agrees`), and bytes, words and binary lengths are those of the
numbers (`bytes_canonical`). The bounds on the number of limbs keep binary lengths within a word;
the checked functions, which compute with words alone, then never fail.
-/

namespace KeyOrder
namespace Natural

/-- A product has the number it should have, in the one form of that number, and does not depend on
the order of the factors. With the shortcuts for zero and one, with the shorter factor outside and
with slots addressed by index, it is computed without an overflow, with an end to every carry and
without an index outside the slots of both factors. -/
theorem product_exact {m n : Natural} (hm : m.limbs.length < 2 ^ 54)
    (hn : n.limbs.length < 2 ^ 54) :
    (m.mul n).value = m.value * n.value ∧
    (m.mul n).limbs.getLast? ≠ some 0 ∧ ((m.mul n).limbs = [] ↔ m.value * n.value = 0) ∧
    (m.mul n).limbs = (n.mul m).limbs ∧
    Checked.multiply m n = some (m.mul n) := by
  refine ⟨value_mul m n, (m.mul n).top_ne_zero, ?_, ?_, ?_⟩
  · rw [← value_mul, ← isZero_iff, isZero_iff_limbs]
  · rw [mul_comm]
  · exact Checked.multiply_eq (by omega) (by omega)

/-- Factors all of whose limbs are `2^32 - 1`, for which the accumulator of a row reaches
`2^64 - 1`. -/
theorem product_exact_full :
    let m := ofUInt64 (UInt64.ofNat (2 ^ 64 - 1))
    let n := ofBytes (List.replicate 12 255)
    m.limbs.length < 2 ^ 54 ∧ n.limbs.length < 2 ^ 54 ∧
      (m.mul n).value = (2 ^ 64 - 1) * (2 ^ 96 - 1) ∧ Checked.multiply m n = some (m.mul n) := by
  intro m n
  have hm : m.limbs.length < 2 ^ 54 := by decide
  have hn : n.limbs.length < 2 ^ 54 := by decide
  have hmvalue : m.value = 2 ^ 64 - 1 := by decide
  have hnvalue : n.value = 2 ^ 96 - 1 := by decide
  obtain ⟨hvalue, -, -, -, hchecked⟩ := product_exact hm hn
  exact ⟨hm, hn, by rw [hvalue, hmvalue, hnvalue], hchecked⟩

/-- A product with one limb has at most one more limb. Its carries and its shortcuts for zero and
one give the same limbs as the product with that limb as a natural. -/
theorem limb_product_agrees {n : Natural} (hn : n.limbs.length < 2 ^ 54) (k : UInt32) :
    (n.mulLimb k).limbs.getLast? ≠ some 0 ∧ (n.mulLimb k).value = n.value * k.toNat ∧
    (n.mulLimb k).limbs.length ≤ n.limbs.length + 1 ∧
    Checked.multiplyLimb n k = some (n.mulLimb k) ∧
    (n.mulLimb k).limbs = (n.mul (ofUInt64 k.toUInt64)).limbs ∧
    Checked.multiply n (ofUInt64 k.toUInt64) = some (n.mulLimb k) := by
  have hvalue : (ofUInt64 k.toUInt64).value = k.toNat := by simp
  have hsame : n.mulLimb k = n.mul (ofUInt64 k.toUInt64) := by
    apply value_injective
    rw [value_mulLimb, value_mul, hvalue]
  have hlimb : (ofUInt64 k.toUInt64).limbs.length ≤ 1 := by
    rw [length_limbs_le_iff, hvalue]
    exact k.toNat_lt
  refine ⟨(n.mulLimb k).top_ne_zero, value_mulLimb n k, ?_, ?_, by rw [hsame], ?_⟩
  · rw [length_limbs_le_iff, value_mulLimb, Nat.mul_succ, pow_add]
    exact Nat.mul_lt_mul'' n.value_lt k.toNat_lt
  · exact Checked.multiplyLimb_eq (by omega) k
  · rw [hsame]
    exact Checked.multiply_eq (by omega) (by omega)

theorem limb_product_agrees_full :
    let n := ofUInt64 (UInt64.ofNat (2 ^ 64 - 1))
    n.limbs.length < 2 ^ 54 ∧ (n.mulLimb 4294967295).value = (2 ^ 64 - 1) * (2 ^ 32 - 1) ∧
      Checked.multiplyLimb n 4294967295 = some (n.mulLimb 4294967295) := by
  intro n
  have hn : n.limbs.length < 2 ^ 54 := by decide
  have hnvalue : n.value = 2 ^ 64 - 1 := by decide
  obtain ⟨-, hvalue, -, hchecked, -⟩ := limb_product_agrees hn 4294967295
  exact ⟨hn, by rw [hvalue, hnvalue]; rfl, hchecked⟩

/-- Bytes make the one natural of their number, and give all but their leading zeros back; their
limbs need no trimming. A natural is made again of its bytes, which are as many as its binary digits
need, and the first of which is not zero; its binary length is the least that holds it. A word is
the natural of its eight bytes, and a natural is a word exactly if its number is below `2^64`. -/
theorem bytes_canonical :
    (∀ bytes : Bytes, bytes.length < 2 ^ 56 →
      (∀ n : Natural, n = ofBytes bytes ↔ n.value = bytes.value) ∧
      (ofBytes bytes).limbs.getLast? ≠ some 0 ∧
      Checked.limbsOfBytes (Bytes.significant bytes).reverse = some (ofBytes bytes).limbs ∧
      (ofBytes bytes).toBytes = Bytes.significant bytes ∧
      Checked.toBytes (ofBytes bytes) = some (Bytes.significant bytes)) ∧
    (∀ n : Natural, ofBytes n.toBytes = n ∧ n.toBytes.length = (n.bits + 7) / 8 ∧
      n.toBytes.head? ≠ some 0 ∧ (n.toBytes = [] ↔ n.value = 0) ∧
      IsLeast {k | n.value < 2 ^ k} n.bits ∧
      (n.limbs.length < 2 ^ 54 → Checked.toBytes n = some n.toBytes ∧
        ∃ digits, Checked.bits n = some digits ∧ digits.toNat = n.bits)) ∧
    (∀ v : UInt64, ofUInt64 v = ofBytes (Bytes.bigEndian 8 v.toNat) ∧
      (ofUInt64 v).limbs =
        if (v >>> 32).toUInt32 ≠ 0 then [v.toUInt32, (v >>> 32).toUInt32]
        else if v.toUInt32 ≠ 0 then [v.toUInt32] else []) ∧
    ∀ n : Natural, (∀ v : UInt64, n.toUInt64? = some v ↔ n.value = v.toNat) ∧
      (n.toUInt64? = none ↔ 2 ^ 64 ≤ n.value) := by
  refine ⟨?_, ?_, ?_, ?_⟩
  · intro bytes hbytes
    have hlength : (ofBytes bytes).limbs.length ≤ 2 ^ 54 := length_ofBytes_le (by omega)
    refine ⟨?_, (ofBytes bytes).top_ne_zero, ?_, toBytes_ofBytes bytes, ?_⟩
    · intro n
      rw [← value_ofBytes]
      exact ⟨fun h => by rw [h], value_injective⟩
    · rw [Checked.limbsOfBytes_eq, limbs_ofBytes]
    · rw [Checked.toBytes_eq (by omega), toBytes_ofBytes]
  · intro n
    refine ⟨ofBytes_toBytes n, length_toBytes n, Bytes.head?_significant_ne_zero _,
      toBytes_eq_nil_iff n, isLeast_bits n, ?_⟩
    intro hn
    have hlimbs : n.limbs.length < 2 ^ 58 := by omega
    exact ⟨Checked.toBytes_eq hlimbs, _, Checked.bits_eq hlimbs, Checked.toNat_bits hlimbs⟩
  · intro v
    exact ⟨ofUInt64_eq_ofBytes v, limbs_ofUInt64 v⟩
  · intro n
    exact ⟨toUInt64?_eq_some_iff n, toUInt64?_eq_none_iff n⟩

/-- Nine significant bytes after two zeros: a top limb of one byte, and no word. -/
theorem bytes_canonical_nine :
    let bytes : Bytes := [0, 0, 1, 0, 0, 0, 0, 0, 0, 0, 0]
    bytes.length < 2 ^ 56 ∧ (ofBytes bytes).limbs.length < 2 ^ 54 ∧
      Checked.toBytes (ofBytes bytes) = some [1, 0, 0, 0, 0, 0, 0, 0, 0] ∧
      (∃ digits, Checked.bits (ofBytes bytes) = some digits ∧ digits.toNat = 65) ∧
      (ofBytes bytes).toUInt64? = none := by
  intro bytes
  have hbytes : bytes.length < 2 ^ 56 := by decide
  have hlimbs : (ofBytes bytes).limbs.length < 2 ^ 54 := by decide
  obtain ⟨hof, hto, -, hword⟩ := bytes_canonical
  obtain ⟨-, -, -, -, hchecked⟩ := hof bytes hbytes
  obtain ⟨-, -, -, -, -, hbits⟩ := hto (ofBytes bytes)
  have hlength : (ofBytes bytes).bits = 65 := by decide
  refine ⟨hbytes, hlimbs, hchecked, ?_, ?_⟩
  · obtain ⟨-, digits, hdigits, hvalue⟩ := hbits hlimbs
    exact ⟨digits, hdigits, hvalue.trans hlength⟩
  · exact (hword (ofBytes bytes)).2.mpr (by decide)

end Natural
end KeyOrder
