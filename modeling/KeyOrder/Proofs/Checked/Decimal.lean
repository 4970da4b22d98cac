import KeyOrder.Proofs.Checked.PowerTable
import KeyOrder.Proofs.Decimal.Comparison

/-!
# KeyOrder.Proofs.Checked.Decimal

The comparison of decimals with checked words, indices and divisors. On decimals with bounded
significands and a filled table it passes every check, whatever the exponents are, and gives what
the unchecked comparison gives (`decimalOrder_eq`).
-/

namespace KeyOrder
namespace Checked

open PowerTable (Filled get_filled)

/-! ## Gap and bounds -/

def gap (low high : Int32) : Option UInt32 :=
  let difference := high.toInt - low.toInt
  if 0 ≤ difference ∧ difference < 2 ^ 32 then some (UInt32.ofNat difference.toNat) else none

def scaledBits (bits : UInt64) (gap : UInt32) : Option (UInt64 × UInt64) := do
  let product ← mul gap.toUInt64 33
  let (least, _) ← divMod product 10
  let product ← mul gap.toUInt64 10
  let sum ← add product 2
  let (greatest, _) ← divMod sum 3
  let low ← add bits least
  let low ← sub low 1
  let high ← add bits greatest
  some (low, high)

theorem gap_eq {low high : Int32} (h : low.toInt ≤ high.toInt) :
    gap low high = some (Decimal.gap low high) := by
  have hlow : -2 ^ 31 ≤ low.toInt := low.le_toInt
  have hhigh : high.toInt < 2 ^ 31 := high.toInt_lt
  exact if_pos (by omega)

theorem scaledBits_eq {bits : UInt64} (gap : UInt32) (hpos : 0 < bits.toNat)
    (hbits : bits.toNat < 2 ^ 63) :
    scaledBits bits gap = some (Decimal.scaledBits bits gap) := by
  have hgap : gap.toNat < 2 ^ 32 := gap.toNat_lt
  have hleast := Decimal.toNat_least gap
  have hgreatest := Decimal.toNat_greatest gap
  have h33 : mul gap.toUInt64 33 = some (gap.toUInt64 * 33) := by
    apply mul_eq
    show gap.toNat * 33 < 2 ^ 64
    omega
  have h10 : mul gap.toUInt64 10 = some (gap.toUInt64 * 10) := by
    apply mul_eq
    show gap.toNat * 10 < 2 ^ 64
    omega
  have hsum : add (gap.toUInt64 * 10) 2 = some (gap.toUInt64 * 10 + 2) := by
    have hproduct : (gap.toUInt64 * 10).toNat = gap.toNat * 10 := by
      rw [UInt64.toNat_mul]
      exact Nat.mod_eq_of_lt (by show gap.toNat * 10 < 2 ^ 64; omega)
    apply add_eq
    rw [hproduct]
    show gap.toNat * 10 + 2 < 2 ^ 64
    omega
  have hlow : add bits (gap.toUInt64 * 33 / 10) = some (bits + gap.toUInt64 * 33 / 10) := by
    apply add_eq
    omega
  have hone : sub (bits + gap.toUInt64 * 33 / 10) 1 =
      some (bits + gap.toUInt64 * 33 / 10 - 1) := by
    apply sub_eq
    rw [UInt64.toNat_add, hleast, Nat.mod_eq_of_lt (by omega)]
    show 1 ≤ _
    omega
  have hhigh : add bits ((gap.toUInt64 * 10 + 2) / 3) =
      some (bits + (gap.toUInt64 * 10 + 2) / 3) := by
    apply add_eq
    omega
  simp only [scaledBits, Decimal.scaledBits, h33, h10, hsum, hlow, hone, hhigh,
    divMod_eq (show 0 < (10 : UInt64).toNat by decide),
    divMod_eq (show 0 < (3 : UInt64).toNat by decide), Option.bind_eq_bind, Option.bind_some]

/-! ## Against a scaled number -/

def compareWords (a b : UInt64) (gap : UInt32) : Option Ordering :=
  if a = 0 ∨ b = 0 then
    some (compare a b)
  else if gap.toNat ≤ maxCompactExponent then do
    let scale ← compactPower? gap
    let (quotient, remainder) ← divMod a scale
    some ((compare quotient b).then (compare remainder 0))
  else
    some .lt

def compareWordNatural (a : UInt64) (b : Natural) (gap : UInt32) : Option Ordering :=
  if a = 0 then
    some (if b.isZero then .eq else .lt)
  else if b.isZero then
    some .gt
  else if gap.toNat ≤ maxCompactExponent then do
    let scale ← compactPower? gap
    let (quotient, remainder) ← divMod a scale
    some ((b.compareWord quotient).swap.then (compare remainder 0))
  else
    some .lt

def compareNaturals (a b : Natural) (gap : UInt32) (powers : PowerTable) :
    Option (Ordering × PowerTable) :=
  if gap = 0 then do
    let o ← order a b
    some (o, powers)
  else if a.isZero then
    some (if b.isZero then .eq else .lt, powers)
  else if b.isZero then
    some (.gt, powers)
  else do
    let aBits ← bits a
    let bBits ← bits b
    let (least, greatest) ← scaledBits bBits gap
    if aBits < least then
      some (.lt, powers)
    else if greatest < aBits then
      some (.gt, powers)
    else if gap ≤ 9 then
      let scale ← compactPower? gap
      let scale ← narrow scale
      let scaled ← multiplyLimb b scale
      let o ← order a scaled
      some (o, powers)
    else
      let (power, powers) ← get powers gap
      let scaled ← multiply b power
      let o ← order a scaled
      some (o, powers)

def compareNaturalWord (a : Natural) (b : UInt64) (gap : UInt32) (powers : PowerTable) :
    Option (Ordering × PowerTable) :=
  if a.isZero then
    some (compare 0 b, powers)
  else if b = 0 then
    some (.gt, powers)
  else
    match (compactPower? gap).bind (Decimal.mulWord? b) with
    | some scaled => some (a.compareWord scaled, powers)
    | none => compareNaturals a (Natural.ofUInt64 b) gap powers

theorem exists_compactPower {gap : UInt32} (h : gap.toNat ≤ maxCompactExponent) :
    ∃ scale, compactPower? gap = some scale :=
  ⟨_, List.getElem?_eq_getElem (show gap.toNat < compactPowers.length from Nat.lt_succ_of_le h)⟩

theorem compactPower_none {gap : UInt32} (h : ¬ gap.toNat ≤ maxCompactExponent) :
    compactPower? gap = none :=
  List.getElem?_eq_none (show compactPowers.length ≤ gap.toNat from not_le.mp h)

/-- The power of a small gap is a limb. -/
theorem exists_limbPower {gap : UInt32} (h : gap ≤ 9) :
    ∃ scale, compactPower? gap = some scale ∧
      narrow scale = some (UInt32.ofNat (Nat.pow 10 gap.toNat)) := by
  have hnine : gap.toNat ≤ maxCompactExponent :=
    le_trans (UInt32.le_iff_toNat_le.mp h) (by decide)
  obtain ⟨scale, hscale⟩ := exists_compactPower hnine
  have hvalue : scale.toNat = (UInt32.ofNat (Nat.pow 10 gap.toNat)).toNat := by
    rw [PowerTable.toNat_compactPower hscale, Decimal.toNat_limbPower h]
  have hlow : scale.toUInt32 = UInt32.ofNat (Nat.pow 10 gap.toNat) := by
    rw [← UInt32.toNat_inj, UInt64.toNat_toUInt32, hvalue, Nat.mod_eq_of_lt (UInt32.toNat_lt _)]
  exact ⟨scale, hscale, by rw [narrow_eq (hvalue ▸ UInt32.toNat_lt _), hlow]⟩

theorem compareWords_eq (a b : UInt64) (gap : UInt32) :
    compareWords a b gap = some (Decimal.compareWords a b gap) := by
  unfold compareWords Decimal.compareWords
  by_cases hzero : a = 0 ∨ b = 0
  · rw [if_pos hzero, if_pos hzero]
  rw [if_neg hzero, if_neg hzero]
  by_cases hgap : gap.toNat ≤ maxCompactExponent
  · obtain ⟨scale, hscale⟩ := exists_compactPower hgap
    simp only [hgap, if_true, hscale, divMod_eq (Decimal.scale_pos hscale), Option.bind_eq_bind,
      Option.bind_some]
  · simp only [hgap, if_false, compactPower_none hgap]

theorem compareWordNatural_eq (a : UInt64) (b : Natural) (gap : UInt32) :
    compareWordNatural a b gap = some (Decimal.compareWordNatural a b gap) := by
  unfold compareWordNatural Decimal.compareWordNatural
  by_cases ha : a = 0
  · rw [if_pos ha, if_pos ha]
  rw [if_neg ha, if_neg ha]
  by_cases hb : b.isZero = true
  · rw [if_pos hb, if_pos hb]
  rw [if_neg hb, if_neg hb]
  by_cases hgap : gap.toNat ≤ maxCompactExponent
  · obtain ⟨scale, hscale⟩ := exists_compactPower hgap
    simp only [hgap, if_true, hscale, divMod_eq (Decimal.scale_pos hscale), Option.bind_eq_bind,
      Option.bind_some]
  · simp only [hgap, if_false, compactPower_none hgap]

/-! ## Decimals -/

theorem limbs_lt {n : Natural} (h : n.Bounded) : n.limbs.length < 2 ^ 58 :=
  lt_of_le_of_lt h (by norm_num)

/-- The scaled number has not many more limbs than the number. -/
theorem scaled_limbs_lt {b p : Natural} (hb : b.Bounded) {gap : UInt32}
    (hp : p.value = b.value * 10 ^ gap.toNat) : p.limbs.length < 2 ^ 58 := by
  have hle := Decimal.length_scaled_le gap.toNat_lt hp
  unfold Natural.Bounded at hb
  omega

theorem compareNaturals_eq {a b : Natural} (ha : a.Bounded) (hb : b.Bounded) (gap : UInt32)
    {t : PowerTable} (ht : Filled t) :
    compareNaturals a b gap t = some (Decimal.compareNaturals a b gap t) := by
  unfold compareNaturals Decimal.compareNaturals
  by_cases hgap : gap = 0
  · simp only [hgap, if_true, order_eq (limbs_lt ha) (limbs_lt hb), Option.bind_eq_bind,
      Option.bind_some]
  rw [if_neg hgap, if_neg hgap]
  by_cases hazero : a.isZero = true
  · rw [if_pos hazero, if_pos hazero]
  rw [if_neg hazero, if_neg hazero]
  by_cases hbzero : b.isZero = true
  · rw [if_pos hbzero, if_pos hbzero]
  rw [if_neg hbzero, if_neg hbzero]
  have hbpos : 0 < b.bits.toUInt64.toNat := by
    rw [hb.toNat_bits]
    exact bitLength_pos (Natural.value_pos hbzero)
  simp only [bits_eq (limbs_lt ha), bits_eq (limbs_lt hb), scaledBits_eq gap hbpos hb.toNat_bits_lt,
    Option.bind_eq_bind, Option.bind_some]
  by_cases hless : a.bits.toUInt64 < (Decimal.scaledBits b.bits.toUInt64 gap).1
  · simp only [hless, if_true]
  by_cases hmore : (Decimal.scaledBits b.bits.toUInt64 gap).2 < a.bits.toUInt64
  · simp only [hless, hmore, if_true, if_false]
  simp only [hless, hmore, if_false]
  by_cases hlimb : gap ≤ 9
  · obtain ⟨scale, hscale, hnarrow⟩ := exists_limbPower hlimb
    have hlength := scaled_limbs_lt hb (Decimal.value_mul_limbPower hlimb b)
    simp only [hlimb, if_true, hscale, hnarrow, multiplyLimb_eq (limbs_lt hb),
      order_eq (limbs_lt ha) hlength, Option.bind_some]
  · have hpower := power_limbs_lt gap.toNat_lt (get_filled ht gap).1
    have hlength := scaled_limbs_lt hb (Decimal.value_mul_get ht b gap)
    simp only [hlimb, if_false, get_eq ht, multiply_eq (limbs_lt hb) hpower,
      order_eq (limbs_lt ha) hlength, Option.bind_some]

theorem compareNaturalWord_eq {a : Natural} (ha : a.Bounded) (b : UInt64) (gap : UInt32)
    {t : PowerTable} (ht : Filled t) :
    compareNaturalWord a b gap t = some (Decimal.compareNaturalWord a b gap t) := by
  unfold compareNaturalWord Decimal.compareNaturalWord
  by_cases hazero : a.isZero = true
  · rw [if_pos hazero, if_pos hazero]
  rw [if_neg hazero, if_neg hazero]
  by_cases hb : b = 0
  · rw [if_pos hb, if_pos hb]
  rw [if_neg hb, if_neg hb]
  cases (compactPower? gap).bind (Decimal.mulWord? b) with
  | none => exact compareNaturals_eq ha (Natural.bounded_ofUInt64 b) gap ht
  | some product => rfl

def compactOrder (a b : CompactDecimal) : Option Ordering :=
  match compare a.exponent b.exponent with
  | .eq => some (compare a.significand b.significand)
  | .lt => do
    let g ← gap a.exponent b.exponent
    compareWords a.significand b.significand g
  | .gt => do
    let g ← gap b.exponent a.exponent
    let o ← compareWords b.significand a.significand g
    some o.swap

def wideOrder (a b : WideDecimal) (powers : PowerTable) : Option (Ordering × PowerTable) :=
  match compare a.exponent b.exponent with
  | .eq => do
    let o ← order a.significand b.significand
    some (o, powers)
  | .lt => do
    let g ← gap a.exponent b.exponent
    compareNaturals a.significand b.significand g powers
  | .gt => do
    let g ← gap b.exponent a.exponent
    let (o, powers) ← compareNaturals b.significand a.significand g powers
    some (o.swap, powers)

def wideCompactOrder (a : WideDecimal) (b : CompactDecimal) (powers : PowerTable) :
    Option (Ordering × PowerTable) :=
  match compare a.exponent b.exponent with
  | .eq => some (a.significand.compareWord b.significand, powers)
  | .lt => do
    let g ← gap a.exponent b.exponent
    compareNaturalWord a.significand b.significand g powers
  | .gt => do
    let g ← gap b.exponent a.exponent
    let o ← compareWordNatural b.significand a.significand g
    some (o.swap, powers)

def compactWideOrder (a : CompactDecimal) (b : WideDecimal) (powers : PowerTable) :
    Option (Ordering × PowerTable) := do
  let (o, powers) ← wideCompactOrder b a powers
  some (o.swap, powers)

def decimalOrder (a b : Decimal) (powers : PowerTable) : Option (Ordering × PowerTable) :=
  match a, b with
  | .compact a, .compact b => do
    let o ← compactOrder a b
    some (o, powers)
  | .compact a, .wide b => compactWideOrder a b powers
  | .wide a, .compact b => wideCompactOrder a b powers
  | .wide a, .wide b => wideOrder a b powers

/-- The gap is taken from the smaller exponent to the greater one. -/
theorem gap_of_lt {e f : Int32} (h : compare e f = .lt) : gap e f = some (Decimal.gap e f) := by
  rw [compare_toInt32] at h
  exact gap_eq (compare_lt_iff_lt.mp h).le

theorem gap_of_gt {e f : Int32} (h : compare e f = .gt) : gap f e = some (Decimal.gap f e) := by
  rw [compare_toInt32] at h
  exact gap_eq (compare_gt_iff_gt.mp h).le

theorem compactOrder_eq (a b : CompactDecimal) : compactOrder a b = some (a.compare b) := by
  unfold compactOrder CompactDecimal.compare
  cases h : compare a.exponent b.exponent with
  | eq => rfl
  | lt => simp only [gap_of_lt h, compareWords_eq, Option.bind_eq_bind, Option.bind_some]
  | gt => simp only [gap_of_gt h, compareWords_eq, Option.bind_eq_bind, Option.bind_some]

theorem wideOrder_eq {a b : WideDecimal} (ha : a.significand.Bounded)
    (hb : b.significand.Bounded) {t : PowerTable} (ht : Filled t) :
    wideOrder a b t = some (a.compare b t) := by
  unfold wideOrder WideDecimal.compare
  cases h : compare a.exponent b.exponent with
  | eq => simp only [order_eq (limbs_lt ha) (limbs_lt hb), Option.bind_eq_bind, Option.bind_some]
  | lt =>
    simp only [gap_of_lt h, compareNaturals_eq ha hb _ ht, Option.bind_eq_bind, Option.bind_some]
  | gt =>
    simp only [gap_of_gt h, compareNaturals_eq hb ha _ ht, Option.bind_eq_bind, Option.bind_some]

theorem wideCompactOrder_eq {a : WideDecimal} (ha : a.significand.Bounded) (b : CompactDecimal)
    {t : PowerTable} (ht : Filled t) : wideCompactOrder a b t = some (a.compareCompact b t) := by
  unfold wideCompactOrder WideDecimal.compareCompact
  cases h : compare a.exponent b.exponent with
  | eq => rfl
  | lt =>
    simp only [gap_of_lt h, compareNaturalWord_eq ha _ _ ht, Option.bind_eq_bind,
      Option.bind_some]
  | gt => simp only [gap_of_gt h, compareWordNatural_eq, Option.bind_eq_bind, Option.bind_some]

theorem compactWideOrder_eq (a : CompactDecimal) {b : WideDecimal} (hb : b.significand.Bounded)
    {t : PowerTable} (ht : Filled t) : compactWideOrder a b t = some (a.compareWide b t) := by
  simp only [compactWideOrder, CompactDecimal.compareWide, wideCompactOrder_eq hb a ht,
    Option.bind_eq_bind, Option.bind_some]

theorem decimalOrder_eq {a b : Decimal} (ha : a.Bounded) (hb : b.Bounded) {t : PowerTable}
    (ht : Filled t) : decimalOrder a b t = some (a.compare b t) := by
  match a, b, ha, hb with
  | .compact a, .compact b, _, _ =>
    simp only [decimalOrder, Decimal.compare, compactOrder_eq, Option.bind_eq_bind,
      Option.bind_some]
  | .compact a, .wide b, _, hb => exact compactWideOrder_eq a hb ht
  | .wide a, .compact b, ha, _ => exact wideCompactOrder_eq ha b ht
  | .wide a, .wide b, ha, hb => exact wideOrder_eq ha hb ht

end Checked
end KeyOrder
