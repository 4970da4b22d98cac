import KeyOrder.Proofs.Decimal.BitLength
import KeyOrder.Proofs.Natural.Comparison
import KeyOrder.Proofs.PowerTable.Filled

/-!
# KeyOrder.Proofs.Decimal.Comparison

Decimals are compared as rational numbers.

* `toRat`              — the number of a decimal.
* `compare_scaled`     — two exponents leave one power of ten, their gap, on the side of the
  greater one.
* `compareWords_eq`, `compareWordNatural_eq`, `compareNaturals_eq`, `compareNaturalWord_eq` — each
  of the four comparisons with a scaled number is the comparison with the product.
* `compare_eq`         — so each pair of forms is compared as the numbers are, with any filled
  table, and the table that is left is one that the first becomes by requests.
-/

namespace KeyOrder

open PowerTable (Filled Reachable get_filled toNat_compactPower)

/-! ## The numbers -/

def CompactDecimal.toRat (d : CompactDecimal) : ℚ :=
  d.significand.toNat * (10 : ℚ) ^ d.exponent.toInt

def WideDecimal.toRat (d : WideDecimal) : ℚ :=
  d.significand.value * (10 : ℚ) ^ d.exponent.toInt

namespace Natural

/-- Naturals whose binary length is well below `2^64`: those of fewer than `2^56` bytes. -/
def Bounded (n : Natural) : Prop := n.limbs.length ≤ 2 ^ 54

theorem bounded_ofUInt64 (v : UInt64) : (ofUInt64 v).Bounded := by
  have hlen : (ofUInt64 v).limbs.length ≤ 2 := by
    rw [length_limbs_le_iff, value_ofUInt64]
    exact v.toNat_lt
  exact le_trans hlen (by norm_num)

theorem bounded_ofBytes {bytes : Bytes} (h : bytes.length < 2 ^ 56) : (ofBytes bytes).Bounded :=
  length_ofBytes_le (by omega)

theorem Bounded.bits_lt {n : Natural} (h : n.Bounded) : n.bits < 2 ^ 60 := by
  have hbits : n.bits ≤ 32 * n.limbs.length := by
    rw [bits_eq, bitLength_le_iff]
    exact n.value_lt
  unfold Bounded at h
  omega

theorem Bounded.toNat_bits {n : Natural} (h : n.Bounded) :
    n.bits.toUInt64.toNat = bitLength n.value := by
  have hlt := h.bits_lt
  rw [bits_eq] at hlt ⊢
  exact Nat.mod_eq_of_lt (by omega)

theorem Bounded.toNat_bits_lt {n : Natural} (h : n.Bounded) : n.bits.toUInt64.toNat < 2 ^ 63 := by
  have hlt := h.bits_lt
  rw [h.toNat_bits, ← bits_eq]
  omega

end Natural

namespace Decimal

def toRat : Decimal → ℚ
  | compact d => d.toRat
  | wide d => d.toRat

/-- Decimals with bounded significands. -/
def Bounded : Decimal → Prop
  | compact _ => True
  | wide d => d.significand.Bounded

theorem compare_cast_scaled (m n : Nat) {c : ℚ} (hc : 0 < c) :
    compare ((m : ℚ) * c) ((n : ℚ) * c) = compare m n := by
  rw [compare_mul_right _ _ hc]
  exact compare_of_strictMono Nat.strictMono_cast m n

theorem compare_scaled (m n : Nat) {low high : Int} (h : low ≤ high) :
    compare ((m : ℚ) * 10 ^ low) ((n : ℚ) * 10 ^ high) =
      compare m (n * 10 ^ (high - low).toNat) := by
  have hsplit : (10 : ℚ) ^ high = 10 ^ (high - low).toNat * 10 ^ low := by
    rw [← zpow_natCast, Int.toNat_of_nonneg (by omega), ← zpow_add₀ (by norm_num)]
    congr 1
    omega
  rw [hsplit, ← mul_assoc, ← compare_cast_scaled m (n * 10 ^ (high - low).toNat)
    (zpow_pos (by norm_num : (0 : ℚ) < 10) low)]
  push_cast
  rfl

theorem toNat_gap (low high : Int32) :
    (gap low high).toNat = (high.toInt - low.toInt).toNat := by
  have hlow : -2 ^ 31 ≤ low.toInt := low.le_toInt
  have hhigh : high.toInt < 2 ^ 31 := high.toInt_lt
  rw [gap, UInt32.toNat_ofNat', Nat.mod_eq_of_lt]
  omega

/-- Which exponent is the smaller one decides which side is scaled. -/
theorem compare_aligned (m n : Nat) (e f : Int32) :
    compare ((m : ℚ) * 10 ^ e.toInt) ((n : ℚ) * 10 ^ f.toInt) =
      match compare e f with
      | .eq => compare m n
      | .lt => compare m (n * 10 ^ (gap e f).toNat)
      | .gt => (compare n (m * 10 ^ (gap f e).toNat)).swap := by
  rw [compare_toInt32, toNat_gap, toNat_gap]
  rcases lt_trichotomy e.toInt f.toInt with h | h | h
  · rw [compare_lt_iff_lt.mpr h, compare_scaled m n h.le]
  · rw [compare_eq_iff_eq.mpr h, h, compare_cast_scaled m n (zpow_pos (by norm_num) _)]
  · rw [compare_gt_iff_gt.mpr h, ← compare_scaled n m h.le, compare_swap]

theorem mulWord?_spec (a b : UInt64) :
    match mulWord? a b with
    | some product => product.toNat = a.toNat * b.toNat
    | none => 2 ^ 64 ≤ a.toNat * b.toNat := by
  unfold mulWord?
  by_cases h : a.toNat * b.toNat < UInt64.size
  · rw [if_pos h]
    exact (UInt64.toNat_mul a b).trans (Nat.mod_eq_of_lt h)
  · rw [if_neg h]
    exact not_lt.mp h

/-- A gap without a compact power is one of `10^20` or more, which no word reaches. -/
theorem compactPower?_none {gap : UInt32} (h : compactPower? gap = none) :
    2 ^ 64 ≤ 10 ^ gap.toNat := by
  have hle : 20 ≤ gap.toNat := List.getElem?_eq_none_iff.mp h
  calc 2 ^ 64 ≤ 10 ^ 20 := by norm_num
    _ ≤ 10 ^ gap.toNat := Nat.pow_le_pow_right (by omega) hle

/-! ## Against a scaled number -/

theorem word_lt_scaled (a : UInt64) {b g : Nat} (hb : 0 < b) (hg : 2 ^ 64 ≤ 10 ^ g) :
    a.toNat < b * 10 ^ g := by
  have ha : a.toNat < 2 ^ 64 := a.toNat_lt
  exact lt_of_lt_of_le (lt_of_lt_of_le ha hg) (Nat.le_mul_of_pos_left _ hb)

theorem toNat_eq_zero {a : UInt64} : a.toNat = 0 ↔ a = 0 := UInt64.toNat_inj (b := 0)

theorem scale_pos {gap : UInt32} {scale : UInt64} (h : compactPower? gap = some scale) :
    0 < scale.toNat := by
  rw [toNat_compactPower h]
  positivity

theorem compareWords_eq (a b : UInt64) (gap : UInt32) :
    compareWords a b gap = compare a.toNat (b.toNat * 10 ^ gap.toNat) := by
  unfold compareWords
  by_cases hzero : a = 0 ∨ b = 0
  · rw [if_pos hzero, compare_toNat64]
    rcases hzero with rfl | rfl
    · apply compare_congr
      · simp [Nat.pos_iff_ne_zero]
      · simp [eq_comm]
    · simp
  · rw [if_neg hzero]
    have hb : 0 < b.toNat := Nat.pos_of_ne_zero (fun h => hzero (.inr (toNat_eq_zero.mp h)))
    cases hscale : compactPower? gap with
    | none => exact (compare_lt_iff_lt.mpr (word_lt_scaled a hb (compactPower?_none hscale))).symm
    | some scale =>
      show (compare (a / scale) b).then (compare (a % scale) 0) = _
      rw [compare_toNat64, compare_toNat64, UInt64.toNat_div, UInt64.toNat_mod, UInt64.toNat_zero,
        compare_div_mod _ _ (scale_pos hscale), toNat_compactPower hscale]

theorem compareWordNatural_eq (a : UInt64) (b : Natural) (gap : UInt32) :
    compareWordNatural a b gap = compare a.toNat (b.value * 10 ^ gap.toNat) := by
  unfold compareWordNatural
  by_cases ha : a = 0
  · subst ha
    rw [if_pos rfl, UInt64.toNat_zero]
    by_cases hb : b.isZero = true
    · rw [if_pos hb, (Natural.isZero_iff b).mp hb, Nat.zero_mul]
      rfl
    · rw [if_neg hb]
      have hpos : 0 < b.value := Natural.value_pos hb
      exact (compare_lt_iff_lt.mpr (by positivity)).symm
  · rw [if_neg ha]
    by_cases hb : b.isZero = true
    · rw [if_pos hb, (Natural.isZero_iff b).mp hb, Nat.zero_mul]
      exact (compare_gt_iff_gt.mpr (Nat.pos_of_ne_zero fun h => ha (toNat_eq_zero.mp h))).symm
    · rw [if_neg hb]
      have hpos : 0 < b.value := Natural.value_pos hb
      cases hscale : compactPower? gap with
      | none =>
        exact (compare_lt_iff_lt.mpr (word_lt_scaled a hpos (compactPower?_none hscale))).symm
      | some scale =>
        show (b.compareWord (a / scale)).swap.then (compare (a % scale) 0) = _
        rw [Natural.compareWord_eq, compare_swap, compare_toNat64, UInt64.toNat_div,
          UInt64.toNat_mod, UInt64.toNat_zero, compare_div_mod _ _ (scale_pos hscale),
          toNat_compactPower hscale]

/-! ## With the table -/

/-- A result that is the order `o`, with a table that `t` is or becomes by a request. -/
structure Answers (t : PowerTable) (o : Ordering) (result : Ordering × PowerTable) : Prop where
  order : result.1 = o
  table : result.2 = t ∨ ∃ exponent, result.2 = (t.get exponent).2

namespace Answers

theorem keep {t : PowerTable} {o o' : Ordering} (h : o' = o) : Answers t o (o', t) :=
  ⟨h, .inl rfl⟩

theorem swap {t : PowerTable} {o : Ordering} {result : Ordering × PowerTable}
    (h : Answers t o result) : Answers t o.swap (result.1.swap, result.2) :=
  ⟨congrArg Ordering.swap h.order, h.table⟩

theorem reachable {t : PowerTable} {o : Ordering} {result : Ordering × PowerTable}
    (h : Answers t o result) (ht : Reachable t) : Reachable result.2 := by
  rcases h.table with htable | ⟨exponent, htable⟩
  · rw [htable]
    exact ht
  · rw [htable]
    exact ht.get exponent

end Answers

/-- The power of a small gap is a limb. -/
theorem toNat_limbPower {gap : UInt32} (h : gap ≤ 9) :
    (UInt32.ofNat (Nat.pow 10 gap.toNat)).toNat = 10 ^ gap.toNat := by
  have hgap : gap.toNat ≤ 9 := UInt32.le_iff_toNat_le.mp h
  have hlt : Nat.pow 10 gap.toNat < 2 ^ 32 :=
    lt_of_le_of_lt (Nat.pow_le_pow_right (by omega) hgap) (by norm_num)
  rw [UInt32.toNat_ofNat', Nat.mod_eq_of_lt hlt]
  rfl

theorem value_mul_limbPower {gap : UInt32} (h : gap ≤ 9) (b : Natural) :
    (b.mulLimb (UInt32.ofNat (Nat.pow 10 gap.toNat))).value = b.value * 10 ^ gap.toNat := by
  rw [Natural.value_mulLimb, toNat_limbPower h]

theorem value_mul_get {t : PowerTable} (ht : Filled t) (b : Natural) (gap : UInt32) :
    (b.mul (t.get gap).1).value = b.value * 10 ^ gap.toNat := by
  rw [Natural.value_mul, (get_filled ht gap).1]

theorem compareNaturals_eq {a b : Natural} (ha : a.Bounded) (hb : b.Bounded) (gap : UInt32)
    {t : PowerTable} (ht : Filled t) :
    Answers t (compare a.value (b.value * 10 ^ gap.toNat)) (compareNaturals a b gap t) := by
  unfold compareNaturals
  by_cases hgap : gap = 0
  · rw [if_pos hgap, hgap]
    exact .keep (by simp [Natural.compare_eq])
  rw [if_neg hgap]
  by_cases hazero : a.isZero = true
  · rw [if_pos hazero, (Natural.isZero_iff a).mp hazero]
    by_cases hbzero : b.isZero = true
    · rw [if_pos hbzero, (Natural.isZero_iff b).mp hbzero, Nat.zero_mul]
      exact .keep rfl
    · rw [if_neg hbzero]
      have hpos : 0 < b.value := Natural.value_pos hbzero
      exact .keep (compare_lt_iff_lt.mpr (by positivity)).symm
  rw [if_neg hazero]
  have hapos : 0 < a.value := Natural.value_pos hazero
  by_cases hbzero : b.isZero = true
  · rw [if_pos hbzero, (Natural.isZero_iff b).mp hbzero, Nat.zero_mul]
    exact .keep (compare_gt_iff_gt.mpr hapos).symm
  rw [if_neg hbzero]
  have hbpos : 0 < b.value := Natural.value_pos hbzero
  obtain ⟨hleast, hgreatest⟩ := scaledBits_enclose hbpos hb.toNat_bits hb.toNat_bits_lt gap
  -- a binary length outside the bounds decides
  by_cases hless : a.bits.toUInt64 < (scaledBits b.bits.toUInt64 gap).1
  · simp only [hless, if_true]
    rw [UInt64.lt_iff_toNat_lt, ha.toNat_bits] at hless
    exact .keep (compare_lt_iff_lt.mpr (lt_of_bitLength_lt (lt_of_lt_of_le hless hleast))).symm
  by_cases hmore : (scaledBits b.bits.toUInt64 gap).2 < a.bits.toUInt64
  · simp only [hless, hmore, if_true, if_false]
    rw [UInt64.lt_iff_toNat_lt, ha.toNat_bits] at hmore
    exact .keep (compare_gt_iff_gt.mpr (lt_of_bitLength_lt (lt_of_le_of_lt hgreatest hmore))).symm
  simp only [hless, hmore, if_false]
  -- and within them the product itself
  by_cases hlimb : gap ≤ 9
  · rw [if_pos hlimb]
    apply Answers.keep
    rw [Natural.compare_eq, value_mul_limbPower hlimb]
  · rw [if_neg hlimb]
    refine ⟨?_, .inr ⟨gap, rfl⟩⟩
    show compare a (b.mul (t.get gap).1) = _
    rw [Natural.compare_eq, value_mul_get ht]

theorem compareNaturalWord_eq {a : Natural} (ha : a.Bounded) (b : UInt64) (gap : UInt32)
    {t : PowerTable} (ht : Filled t) :
    Answers t (compare a.value (b.toNat * 10 ^ gap.toNat)) (compareNaturalWord a b gap t) := by
  unfold compareNaturalWord
  by_cases hazero : a.isZero = true
  · rw [if_pos hazero, (Natural.isZero_iff a).mp hazero, compare_toNat64]
    apply Answers.keep
    apply compare_congr
    · simp [Nat.pos_iff_ne_zero]
    · simp [eq_comm]
  rw [if_neg hazero]
  have hapos : 0 < a.value := Natural.value_pos hazero
  by_cases hb : b = 0
  · rw [if_pos hb, hb, UInt64.toNat_zero, Nat.zero_mul]
    exact .keep (compare_gt_iff_gt.mpr hapos).symm
  rw [if_neg hb]
  cases hproduct : (compactPower? gap).bind (mulWord? b) with
  | none =>
    have h := compareNaturals_eq ha (Natural.bounded_ofUInt64 b) gap ht
    rw [Natural.value_ofUInt64] at h
    exact h
  | some product =>
    obtain ⟨scale, hscale, hmul⟩ := Option.bind_eq_some_iff.mp hproduct
    have hspec := mulWord?_spec b scale
    rw [hmul] at hspec
    have hvalue : product.toNat = b.toNat * 10 ^ gap.toNat := by
      rw [← toNat_compactPower hscale]
      exact hspec
    exact .keep (by rw [Natural.compareWord_eq, hvalue])

end Decimal

/-! ## Decimals -/

open Decimal (Answers)

theorem CompactDecimal.compare_eq (a b : CompactDecimal) :
    a.compare b = compare a.toRat b.toRat := by
  rw [CompactDecimal.compare, toRat, toRat, Decimal.compare_aligned]
  cases compare a.exponent b.exponent with
  | eq => exact compare_toNat64 _ _
  | lt => exact Decimal.compareWords_eq _ _ _
  | gt => exact congrArg Ordering.swap (Decimal.compareWords_eq _ _ _)

theorem WideDecimal.compare_eq {a b : WideDecimal} (ha : a.significand.Bounded)
    (hb : b.significand.Bounded) {t : PowerTable} (ht : Filled t) :
    Answers t (compare a.toRat b.toRat) (a.compare b t) := by
  rw [WideDecimal.compare, toRat, toRat, Decimal.compare_aligned]
  cases compare a.exponent b.exponent with
  | eq => exact .keep (Natural.compare_eq _ _)
  | lt => exact Decimal.compareNaturals_eq ha hb _ ht
  | gt => exact (Decimal.compareNaturals_eq hb ha _ ht).swap

theorem WideDecimal.compareCompact_eq {a : WideDecimal} (ha : a.significand.Bounded)
    (b : CompactDecimal) {t : PowerTable} (ht : Filled t) :
    Answers t (compare a.toRat b.toRat) (a.compareCompact b t) := by
  rw [WideDecimal.compareCompact, toRat, CompactDecimal.toRat, Decimal.compare_aligned]
  cases compare a.exponent b.exponent with
  | eq => exact .keep (Natural.compareWord_eq _ _)
  | lt => exact Decimal.compareNaturalWord_eq ha _ _ ht
  | gt => exact .keep (congrArg Ordering.swap (Decimal.compareWordNatural_eq _ _ _))

theorem CompactDecimal.compareWide_eq (a : CompactDecimal) {b : WideDecimal}
    (hb : b.significand.Bounded) {t : PowerTable} (ht : Filled t) :
    Answers t (compare a.toRat b.toRat) (a.compareWide b t) := by
  rw [← compare_swap]
  exact (WideDecimal.compareCompact_eq hb a ht).swap

/-- Decimals are compared as their numbers, whatever their forms. -/
theorem Decimal.compare_eq {a b : Decimal} (ha : a.Bounded) (hb : b.Bounded) {t : PowerTable}
    (ht : Filled t) : Answers t (compare a.toRat b.toRat) (a.compare b t) := by
  match a, b, ha, hb with
  | compact a, compact b, _, _ => exact .keep (CompactDecimal.compare_eq a b)
  | compact a, wide b, _, hb => exact CompactDecimal.compareWide_eq a hb ht
  | wide a, compact b, ha, _ => exact WideDecimal.compareCompact_eq ha b ht
  | wide a, wide b, ha, hb => exact WideDecimal.compare_eq ha hb ht

end KeyOrder
