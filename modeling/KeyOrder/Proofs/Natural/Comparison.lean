import KeyOrder.Natural.Basic
import KeyOrder.Proofs.Natural.Value
import KeyOrder.Proofs.Ordering

/-!
# KeyOrder.Proofs.Natural.Comparison

The order of naturals is the order of their numbers (`compare_eq`), and so is the order against a
word (`compareWord_eq`). Naturals of one binary length have equally many limbs, so the limbs from
the top decide like digits.
-/

namespace KeyOrder
namespace Natural

theorem length_limbs_of_bits_eq {m n : Natural} (h : m.bits = n.bits) :
    m.limbs.length = n.limbs.length := by
  rw [bits_eq, bits_eq] at h
  apply le_antisymm
  · rw [length_limbs_le_iff, ← bitLength_le_iff, h, bitLength_le_iff]
    exact n.value_lt
  · rw [length_limbs_le_iff, ← bitLength_le_iff, ← h, bitLength_le_iff]
    exact m.value_lt

theorem compare_reverse {a b : List UInt32} (hlen : a.length = b.length) :
    compare a.reverse b.reverse = compare (limbsValue a) (limbsValue b) := by
  induction a using List.reverseRecOn generalizing b with
  | nil =>
    rw [List.length_eq_zero_iff.mp hlen.symm]
    rfl
  | append_singleton low top ih =>
    obtain rfl | ⟨low', top', rfl⟩ := List.eq_nil_or_concat' b
    · simp at hlen
    · have hlow : low.length = low'.length := by simpa using hlen
      have hlt := limbsValue_lt low
      have hlt' := limbsValue_lt low'
      rw [← hlow] at hlt'
      rw [List.reverse_append, List.reverse_append, List.reverse_singleton,
        List.reverse_singleton, List.singleton_append, List.singleton_append,
        List.compare_cons_cons, ih hlow, compare_toNat32, limbsValue_append,
        limbsValue_append, ← hlow, compare_digits _ _ hlt hlt']
      simp [limbsValue]

theorem compare_eq (m n : Natural) : compare m n = compare m.value n.value := by
  show (compare m.bits n.bits).then (compare m.limbs.reverse n.limbs.reverse) = _
  rcases lt_trichotomy m.bits n.bits with h | h | h
  · have hlt : m.value < n.value := by
      rw [bits_eq, bits_eq, lt_bitLength_iff] at h
      exact lt_of_lt_of_le ((bitLength_le_iff _ _).mp le_rfl) h
    rw [compare_lt_iff_lt.mpr h, compare_lt_iff_lt.mpr hlt]
    rfl
  · rw [compare_eq_iff_eq.mpr h, compare_reverse (length_limbs_of_bits_eq h)]
    rfl
  · have hlt : n.value < m.value := by
      rw [bits_eq, bits_eq, lt_bitLength_iff] at h
      exact lt_of_lt_of_le ((bitLength_le_iff _ _).mp le_rfl) h
    rw [compare_gt_iff_gt.mpr h, compare_gt_iff_gt.mpr hlt]
    rfl

/-! ## Against a word -/

theorem toNat_twoLimbs (low high : UInt32) :
    ((high.toUInt64 <<< 32) ||| low.toUInt64).toNat = low.toNat + 4294967296 * high.toNat := by
  have hlow : low.toNat < 2 ^ 32 := low.toNat_lt
  have hhigh : high.toNat < 2 ^ 32 := high.toNat_lt
  have hshift : (high.toUInt64 <<< 32).toNat = high.toNat <<< 32 := by
    have hmod : (high.toUInt64 <<< 32).toNat = high.toNat <<< 32 % 2 ^ 64 := by simp
    rw [hmod, Nat.mod_eq_of_lt]
    rw [Nat.shiftLeft_eq]
    omega
  rw [UInt64.toNat_or, hshift, UInt32.toNat_toUInt64, ← Nat.shiftLeft_add_eq_or_of_lt hlow,
    Nat.shiftLeft_eq]
  omega

/-- The word of a natural, if there is one, is its number; otherwise the number is no word. -/
theorem toUInt64?_spec (n : Natural) :
    match n.toUInt64? with
    | some v => v.toNat = n.value
    | none => 2 ^ 64 ≤ n.value := by
  obtain ⟨limbs, htop⟩ := n
  match limbs, htop with
  | [], _ => rfl
  | [low], _ => simp [toUInt64?, value, limbsValue]
  | [low, high], _ => exact (toNat_twoLimbs low high).trans (by simp [value, limbsValue])
  | low :: high :: next :: higher, htop =>
    have hle := le_value (n := ⟨low :: high :: next :: higher, htop⟩) (by simp)
    exact le_trans (Nat.pow_le_pow_right (by omega) (by simp; omega)) hle

theorem compareWord_eq (n : Natural) (word : UInt64) :
    n.compareWord word = compare n.value word.toNat := by
  have hspec := toUInt64?_spec n
  have hword : word.toNat < 2 ^ 64 := word.toNat_lt
  unfold compareWord
  cases h : n.toUInt64? with
  | none =>
    rw [h] at hspec
    exact (compare_gt_iff_gt.mpr (lt_of_lt_of_le hword hspec)).symm
  | some v =>
    rw [h] at hspec
    rw [← show v.toNat = n.value from hspec]
    exact compare_toNat64 v word

end Natural
end KeyOrder
