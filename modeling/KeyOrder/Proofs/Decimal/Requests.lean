import KeyOrder.Proofs.Decimal.Signed
import KeyOrder.Proofs.PowerTable.Requests

/-!
# KeyOrder.Proofs.Decimal.Requests

The powers that a comparison of decimals asks the table for. `requests a b` is read off the two
decimals: none, or the power of their gap, and the other way round the same (`requests_comm`).
`compare_asks` says that the comparison asks for just these and answers alike whatever the table
holds, by the four comparisons with a scaled number. Signed decimals ask for what their magnitudes
do, unless the signs decide.

Nothing here bounds the significands: where the words of a comparison wrap, they do so without
regard to the table.
-/

namespace KeyOrder

open PowerTable (Asks)

namespace Decimal

/-! ## Against a scaled number -/

/-- The powers that `compareNaturals` asks for: none, or that of the gap. -/
def naturalRequests (a b : Natural) (gap : UInt32) : List UInt32 :=
  let bits := a.bits.toUInt64
  let (least, greatest) := scaledBits b.bits.toUInt64 gap
  if gap ≤ 9 ∨ a.isZero ∨ b.isZero ∨ bits < least ∨ greatest < bits then [] else [gap]

/-- The powers that `compareNaturalWord` asks for. -/
def wordRequests (a : Natural) (b : UInt64) (gap : UInt32) : List UInt32 :=
  match (compactPower? gap).bind (mulWord? b) with
  | some _ => []
  | none => naturalRequests a (Natural.ofUInt64 b) gap

theorem naturalRequests_of_le {gap : UInt32} (h : gap ≤ 9) (a b : Natural) :
    naturalRequests a b gap = [] := if_pos (.inl h)

theorem wordRequests_eq_nil {a : Natural} {b : UInt64} {gap : UInt32}
    (h : naturalRequests a (Natural.ofUInt64 b) gap = []) : wordRequests a b gap = [] := by
  unfold wordRequests
  cases (compactPower? gap).bind (mulWord? b) with
  | none => exact h
  | some product => rfl

theorem compareNaturals_asks (a b : Natural) (gap : UInt32) :
    Asks (compareNaturals a b gap) (naturalRequests a b gap) := by
  unfold compareNaturals naturalRequests
  by_cases hgap : gap = 0
  · simp only [hgap, if_true, show (0 : UInt32) ≤ 9 by decide, true_or]
    exact .pure _
  by_cases ha : a.isZero = true
  · simp only [hgap, ha, if_true, if_false, true_or, or_true]
    exact .pure _
  by_cases hb : b.isZero = true
  · simp only [hgap, ha, hb, if_true, if_false, true_or, or_true]
    exact .pure _
  by_cases hless : a.bits.toUInt64 < (scaledBits b.bits.toUInt64 gap).1
  · simp only [hgap, ha, hb, hless, if_true, if_false, true_or, or_true]
    exact .pure _
  by_cases hmore : (scaledBits b.bits.toUInt64 gap).2 < a.bits.toUInt64
  · simp only [hgap, ha, hb, hless, hmore, if_true, if_false, or_true]
    exact .pure _
  by_cases hlimb : gap ≤ 9
  · simp only [hgap, ha, hb, hless, hmore, hlimb, if_true, if_false, true_or]
    exact .pure _
  · simp only [hgap, ha, hb, hless, hmore, hlimb, if_false, or_false]
    exact (Asks.get gap).map fun power => compare a (b.mul power)

theorem compareNaturalWord_asks (a : Natural) (b : UInt64) (gap : UInt32) :
    Asks (compareNaturalWord a b gap) (wordRequests a b gap) := by
  unfold compareNaturalWord
  by_cases ha : a.isZero = true
  · simp only [ha, if_true]
    rw [wordRequests_eq_nil (if_pos (.inr (.inl ha)))]
    exact .pure _
  by_cases hb : b = 0
  · subst hb
    simp only [ha, if_true]
    rw [wordRequests_eq_nil (if_pos (.inr (.inr (.inl rfl))))]
    exact .pure _
  simp only [ha, hb, if_false]
  unfold wordRequests
  cases (compactPower? gap).bind (mulWord? b) with
  | none => exact compareNaturals_asks a (Natural.ofUInt64 b) gap
  | some product => exact .pure _

/-! ## Decimals -/

/-- The one of two decimals with the smaller exponent. -/
def low (a b : Decimal) : Decimal := if b.exponent.toInt < a.exponent.toInt then b else a

/-- The other one. -/
def high (a b : Decimal) : Decimal := if b.exponent.toInt < a.exponent.toInt then a else b

theorem low_high_of_lt {a b : Decimal} (h : b.exponent.toInt < a.exponent.toInt) :
    low a b = b ∧ high a b = a := ⟨if_pos h, if_pos h⟩

theorem low_high_of_le {a b : Decimal} (h : a.exponent.toInt ≤ b.exponent.toInt) :
    low a b = a ∧ high a b = b := ⟨if_neg h.not_gt, if_neg h.not_gt⟩

/-- The powers that comparing `a` with `b` asks for, if the exponent of `a` is the smaller one. -/
def scaledRequests : Decimal → Decimal → List UInt32
  | compact _, _ => []
  | wide a, compact b => wordRequests a.significand b.significand (gap a.exponent b.exponent)
  | wide a, wide b => naturalRequests a.significand b.significand (gap a.exponent b.exponent)

/-- The powers that comparing `a` with `b` asks for. -/
def requests (a b : Decimal) : List UInt32 := scaledRequests (low a b) (high a b)

theorem scaledRequests_of_eq {a b : Decimal} (h : a.exponent.toInt = b.exponent.toInt) :
    scaledRequests a b = [] := by
  have hgap : gap a.exponent b.exponent ≤ 9 := by
    rw [UInt32.le_iff_toNat_le, toNat_gap, h]
    simp
  match a, b, hgap with
  | compact a, _, _ => rfl
  | wide a, compact b, hgap => exact wordRequests_eq_nil (naturalRequests_of_le hgap _ _)
  | wide a, wide b, hgap => exact naturalRequests_of_le hgap _ _

theorem requests_of_lt (a b : Decimal) (h : compare a.exponent b.exponent = .lt) :
    requests a b = scaledRequests a b := by
  rw [compare_toInt32, compare_lt_iff_lt] at h
  obtain ⟨hlow, hhigh⟩ := low_high_of_le h.le
  rw [requests, hlow, hhigh]

theorem requests_of_gt (a b : Decimal) (h : compare a.exponent b.exponent = .gt) :
    requests a b = scaledRequests b a := by
  rw [compare_toInt32, compare_gt_iff_gt] at h
  obtain ⟨hlow, hhigh⟩ := low_high_of_lt h
  rw [requests, hlow, hhigh]

theorem requests_of_eq (a b : Decimal) (h : compare a.exponent b.exponent = .eq) :
    requests a b = [] := by
  rw [compare_toInt32, compare_eq_iff_eq] at h
  obtain ⟨hlow, hhigh⟩ := low_high_of_le h.le
  rw [requests, hlow, hhigh, scaledRequests_of_eq h]

theorem requests_comm (a b : Decimal) : requests a b = requests b a := by
  have hswap : compare b.exponent a.exponent = (compare a.exponent b.exponent).swap := by
    rw [compare_toInt32, compare_toInt32, compare_swap]
  cases h : compare a.exponent b.exponent with
  | eq => rw [requests_of_eq a b h, requests_of_eq b a (hswap.trans (congrArg Ordering.swap h))]
  | lt => rw [requests_of_lt a b h, requests_of_gt b a (hswap.trans (congrArg Ordering.swap h))]
  | gt => rw [requests_of_gt a b h, requests_of_lt b a (hswap.trans (congrArg Ordering.swap h))]

end Decimal

open Decimal (requests requests_of_eq requests_of_lt requests_of_gt)

theorem WideDecimal.compare_asks (a b : WideDecimal) :
    Asks (a.compare b) (requests (.wide a) (.wide b)) := by
  unfold WideDecimal.compare
  cases h : compare a.exponent b.exponent with
  | eq =>
    rw [requests_of_eq (.wide a) (.wide b) h]
    exact .pure _
  | lt =>
    rw [requests_of_lt (.wide a) (.wide b) h]
    exact Decimal.compareNaturals_asks _ _ _
  | gt =>
    rw [requests_of_gt (.wide a) (.wide b) h]
    exact (Decimal.compareNaturals_asks _ _ _).map Ordering.swap

theorem WideDecimal.compareCompact_asks (a : WideDecimal) (b : CompactDecimal) :
    Asks (a.compareCompact b) (requests (.wide a) (.compact b)) := by
  unfold WideDecimal.compareCompact
  cases h : compare a.exponent b.exponent with
  | eq =>
    rw [requests_of_eq (.wide a) (.compact b) h]
    exact .pure _
  | lt =>
    rw [requests_of_lt (.wide a) (.compact b) h]
    exact Decimal.compareNaturalWord_asks _ _ _
  | gt =>
    rw [requests_of_gt (.wide a) (.compact b) h]
    exact .pure _

/-- A comparison of words asks for nothing. -/
theorem Decimal.requests_compact (a b : CompactDecimal) :
    requests (.compact a) (.compact b) = [] := by
  unfold requests low
  split
  · rfl
  · rfl

/-- What a comparison asks for is told by the two decimals alone. -/
theorem Decimal.compare_asks (a b : Decimal) : Asks (a.compare b) (requests a b) := by
  match a, b with
  | compact a, compact b =>
    rw [requests_compact]
    exact .pure _
  | compact a, wide b =>
    rw [requests_comm]
    exact (WideDecimal.compareCompact_asks b a).map Ordering.swap
  | wide a, compact b => exact WideDecimal.compareCompact_asks a b
  | wide a, wide b => exact WideDecimal.compare_asks a b

/-! ## Signed decimals -/

namespace EncodedDecimal

/-- Two decimals of one sign, neither of them zero. -/
def Alike (a b : EncodedDecimal) : Prop :=
  a.significand.value ≠ 0 ∧ b.significand.value ≠ 0 ∧ a.positive = b.positive

instance (a b : EncodedDecimal) : Decidable (Alike a b) := inferInstanceAs (Decidable (_ ∧ _))

/-- The powers that comparing `a` with `b` asks for: unless the signs decide, those of the
magnitudes. -/
def requests (a b : EncodedDecimal) : List UInt32 :=
  if Alike a b then Decimal.requests a.magnitude b.magnitude else []

theorem sign_of_eq_zero {d : EncodedDecimal} (h : d.significand.value = 0) : d.sign = 0 :=
  if_pos ((Significand.isZero_iff _).mpr h)

theorem sign_of_ne_zero {d : EncodedDecimal} (h : d.significand.value ≠ 0) :
    d.sign = if d.positive then 1 else -1 :=
  if_neg (fun hzero => h ((Significand.isZero_iff _).mp hzero))

theorem compare_asks (a b : EncodedDecimal) : Asks (a.compare b) (requests a b) := by
  have hmagnitudes := Decimal.compare_asks a.magnitude b.magnitude
  unfold EncodedDecimal.compare requests
  simp only [compareMagnitudes_eq]
  by_cases ha : a.significand.value = 0
  · rw [if_neg (fun h : Alike a b => h.1 ha), sign_of_eq_zero ha]
    by_cases hb : b.significand.value = 0
    · rw [sign_of_eq_zero hb]
      exact .pure _
    · rw [sign_of_ne_zero hb]
      cases b.positive <;> exact .pure _
  by_cases hb : b.significand.value = 0
  · rw [if_neg (fun h : Alike a b => h.2.1 hb), sign_of_eq_zero hb, sign_of_ne_zero ha]
    cases a.positive <;> exact .pure _
  rw [sign_of_ne_zero ha, sign_of_ne_zero hb]
  by_cases hsigns : a.positive = b.positive
  · rw [if_pos (show Alike a b from ⟨ha, hb, hsigns⟩), ← hsigns]
    cases a.positive with
    | true => exact hmagnitudes.map id
    | false => exact hmagnitudes.map Ordering.swap
  · rw [if_neg (fun h : Alike a b => hsigns h.2.2)]
    cases hpositive : a.positive <;> cases hpositive' : b.positive
    · exact absurd (hpositive.trans hpositive'.symm) hsigns
    · exact .pure _
    · exact .pure _
    · exact absurd (hpositive.trans hpositive'.symm) hsigns

end EncodedDecimal
end KeyOrder
