import KeyOrder.Proofs.Checked.Decimal

/-!
# KeyOrder.Proofs.Decimal.Exact

The order of decimals is exact: `decimal_compare_exact` says for decimals of both forms, for all
exponents and for a table with any history that they are compared as rational numbers and that no
word on the way overflows.
-/

namespace KeyOrder

open PowerTable (Reachable)

/-- The decimals there are: the significand is a word or is given by fewer than `2^56` bytes. -/
inductive Decimal.Given : Decimal → Prop where
  | compact (significand : UInt64) (exponent : Int32) :
    Given (.compact ⟨significand, exponent⟩)
  | wide (bytes : Bytes) (exponent : Int32) (h : bytes.length < 2 ^ 56) :
    Given (.wide (WideDecimal.ofBytes bytes exponent))

namespace Decimal

theorem Given.bounded {d : Decimal} (h : d.Given) : d.Bounded := by
  cases h with
  | compact significand exponent => trivial
  | wide bytes exponent h => exact Natural.bounded_ofBytes h

theorem toRat_ofBytes (bytes : Bytes) (exponent : Int32) :
    (WideDecimal.ofBytes bytes exponent).toRat = bytes.value * (10 : ℚ) ^ exponent.toInt := by
  rw [WideDecimal.toRat, WideDecimal.ofBytes, Natural.value_ofBytes]

theorem same_iff (a b : CompactDecimal) : a.same b = true ↔ a.toRat = b.toRat := by
  rw [CompactDecimal.same, CompactDecimal.compare_eq, Ordering.isEq_iff_eq_eq, compare_eq_iff_eq]

/-- Decimals are compared as the rational numbers `significand * 10^exponent`, by the comparison
of all forms as well as by that of each pair of forms, and every check of words, divisors and
indices passes. -/
theorem decimal_compare_exact {t : PowerTable} (ht : Reachable t) :
    (∀ a b : Decimal, a.Given → b.Given →
      (a.compare b t).1 = compare a.toRat b.toRat ∧ Reachable (a.compare b t).2 ∧
      Checked.decimalOrder a b t = some (a.compare b t)) ∧
    (∀ a b : CompactDecimal,
      a.compare b = compare a.toRat b.toRat ∧ (a.same b = true ↔ a.toRat = b.toRat) ∧
      Checked.compactOrder a b = some (a.compare b)) ∧
    (∀ (x : Bytes) (e : Int32) (b : CompactDecimal), x.length < 2 ^ 56 →
      ((WideDecimal.ofBytes x e).compareCompact b t).1 =
        compare (x.value * (10 : ℚ) ^ e.toInt) b.toRat ∧
      (b.compareWide (WideDecimal.ofBytes x e) t).1 =
        compare b.toRat (x.value * (10 : ℚ) ^ e.toInt) ∧
      Checked.wideCompactOrder (WideDecimal.ofBytes x e) b t =
        some ((WideDecimal.ofBytes x e).compareCompact b t) ∧
      Checked.compactWideOrder b (WideDecimal.ofBytes x e) t =
        some (b.compareWide (WideDecimal.ofBytes x e) t)) ∧
    (∀ (x y : Bytes) (e f : Int32), x.length < 2 ^ 56 → y.length < 2 ^ 56 →
      ((WideDecimal.ofBytes x e).compare (WideDecimal.ofBytes y f) t).1 =
        compare (x.value * (10 : ℚ) ^ e.toInt) (y.value * (10 : ℚ) ^ f.toInt) ∧
      Checked.wideOrder (WideDecimal.ofBytes x e) (WideDecimal.ofBytes y f) t =
        some ((WideDecimal.ofBytes x e).compare (WideDecimal.ofBytes y f) t)) ∧
    ∀ x : Bytes, Checked.ofBytes x = some (Natural.ofBytes x) := by
  have hfilled := ht.filled
  refine ⟨?_, ?_, ?_, ?_, Checked.ofBytes_eq⟩
  · intro a b ha hb
    have hanswers := compare_eq ha.bounded hb.bounded hfilled
    exact ⟨hanswers.order, hanswers.reachable ht,
      Checked.decimalOrder_eq ha.bounded hb.bounded hfilled⟩
  · intro a b
    exact ⟨CompactDecimal.compare_eq a b, same_iff a b, Checked.compactOrder_eq a b⟩
  · intro x e b hx
    have hbounded : (WideDecimal.ofBytes x e).significand.Bounded := Natural.bounded_ofBytes hx
    rw [← toRat_ofBytes]
    exact ⟨(WideDecimal.compareCompact_eq hbounded b hfilled).order,
      (CompactDecimal.compareWide_eq b hbounded hfilled).order,
      Checked.wideCompactOrder_eq hbounded b hfilled,
      Checked.compactWideOrder_eq b hbounded hfilled⟩
  · intro x y e f hx hy
    have hxbounded : (WideDecimal.ofBytes x e).significand.Bounded := Natural.bounded_ofBytes hx
    have hybounded : (WideDecimal.ofBytes y f).significand.Bounded := Natural.bounded_ofBytes hy
    rw [← toRat_ofBytes, ← toRat_ofBytes]
    exact ⟨(WideDecimal.compare_eq hxbounded hybounded hfilled).order,
      Checked.wideOrder_eq hxbounded hybounded hfilled⟩

/-- `1 * 10^30` and `10^20 * 10^10`, with leading zeros and a table filled ahead. -/
theorem decimal_compare_exact_prefilled :
    Reachable (PowerTable.prefilled 30) ∧
      (∃ result, Checked.decimalOrder (.compact ⟨1, 30⟩)
        (.wide (WideDecimal.ofBytes [0, 5, 107, 199, 94, 45, 99, 16, 0, 0] 10))
        (PowerTable.prefilled 30) = some result ∧ result.1 = .eq) := by
  have ht := Reachable.prefilled 30
  have hgiven := Given.wide [0, 5, 107, 199, 94, 45, 99, 16, 0, 0] 10 (by decide)
  obtain ⟨horder, -, hchecked⟩ := (decimal_compare_exact ht).1 _ _ (.compact 1 30) hgiven
  refine ⟨ht, _, hchecked, ?_⟩
  rw [horder, compare_eq_iff_eq, toRat, toRat, toRat_ofBytes, CompactDecimal.toRat]
  have hvalue : Bytes.value [0, 5, 107, 199, 94, 45, 99, 16, 0, 0] = 10 ^ 20 := by decide
  have hthirty : (30 : Int32).toInt = 30 := by decide
  have hten : (10 : Int32).toInt = 10 := by decide
  have hone : (1 : UInt64).toNat = 1 := by decide
  rw [hvalue, hthirty, hten, hone]
  norm_num

end Decimal
end KeyOrder
