import KeyOrder.Decimal.Basic
import KeyOrder.Natural.Basic
import KeyOrder.PowerTable

/-!
# KeyOrder.Decimal.Order

The numeric order of decimals. Two exponents differ by a gap; the significand with the smaller
exponent is set against the other one times `10^gap`, and the product is built only if nothing
cheaper decides:

* a zero on either side;
* words and a gap of at most 19: a quotient and its remainder, or a product below `2^64`;
* a word against a word times `10^20` or more is less;
* the binary length of the product, between the two `scaledBits`.

What is left is decided by the product itself, by one limb for a gap of at most 9 and by a power
from the table for a larger one. Only there is the table asked, so a comparison answers with the
table it leaves behind.
-/

namespace KeyOrder

namespace Decimal

/-- The difference `high - low`, for `low` below `high`. -/
def gap (low high : Int32) : UInt32 := UInt32.ofNat (high.toInt - low.toInt).toNat

/-- The product of two words, if it is a word. -/
def mulWord? (a b : UInt64) : Option UInt64 :=
  if a.toNat * b.toNat < UInt64.size then some (a * b) else none

/-- The least and the greatest binary length of `b * 10^gap` for a `b` of `bits` binary digits,
with `3.3` and `10/3` for the binary logarithm of ten. -/
def scaledBits (bits : UInt64) (gap : UInt32) : UInt64 × UInt64 :=
  let least := gap.toUInt64 * 33 / 10
  let greatest := (gap.toUInt64 * 10 + 2) / 3
  (bits + least - 1, bits + greatest)

/-- The word `a` against `b * 10^gap`, for a word `b`. -/
def compareWords (a b : UInt64) (gap : UInt32) : Ordering :=
  if a = 0 ∨ b = 0 then
    compare a b
  else
    match compactPower? gap with
    | some scale => (compare (a / scale) b).then (compare (a % scale) 0)
    | none => .lt

/-- The word `a` against `b * 10^gap`. -/
def compareWordNatural (a : UInt64) (b : Natural) (gap : UInt32) : Ordering :=
  if a = 0 then
    if b.isZero then .eq else .lt
  else if b.isZero then
    .gt
  else
    match compactPower? gap with
    | some scale => (b.compareWord (a / scale)).swap.then (compare (a % scale) 0)
    | none => .lt

/-- The natural `a` against `b * 10^gap`. -/
def compareNaturals (a b : Natural) (gap : UInt32) (powers : PowerTable) :
    Ordering × PowerTable :=
  if gap = 0 then
    (compare a b, powers)
  else if a.isZero then
    (if b.isZero then .eq else .lt, powers)
  else if b.isZero then
    (.gt, powers)
  else
    let bits := a.bits.toUInt64
    let (least, greatest) := scaledBits b.bits.toUInt64 gap
    if bits < least then
      (.lt, powers)
    else if greatest < bits then
      (.gt, powers)
    else if gap ≤ 9 then
      (compare a (b.mulLimb (UInt32.ofNat (Nat.pow 10 gap.toNat))), powers)
    else
      let (power, powers) := powers.get gap
      (compare a (b.mul power), powers)

/-- The natural `a` against `b * 10^gap`, for a word `b`. -/
def compareNaturalWord (a : Natural) (b : UInt64) (gap : UInt32) (powers : PowerTable) :
    Ordering × PowerTable :=
  if a.isZero then
    (compare 0 b, powers)
  else if b = 0 then
    (.gt, powers)
  else
    match (compactPower? gap).bind (mulWord? b) with
    | some scaled => (a.compareWord scaled, powers)
    | none => compareNaturals a (Natural.ofUInt64 b) gap powers

end Decimal

namespace CompactDecimal

/-- Numeric order; it needs no table. -/
protected def compare (a b : CompactDecimal) : Ordering :=
  match compare a.exponent b.exponent with
  | .eq => compare a.significand b.significand
  | .lt => Decimal.compareWords a.significand b.significand (Decimal.gap a.exponent b.exponent)
  | .gt =>
    (Decimal.compareWords b.significand a.significand (Decimal.gap b.exponent a.exponent)).swap

/-- Two decimals are numerically equal, in the same form or not. -/
def same (a b : CompactDecimal) : Bool := (a.compare b).isEq

end CompactDecimal

namespace WideDecimal

protected def compare (a b : WideDecimal) (powers : PowerTable) : Ordering × PowerTable :=
  match compare a.exponent b.exponent with
  | .eq => (compare a.significand b.significand, powers)
  | .lt =>
    Decimal.compareNaturals a.significand b.significand (Decimal.gap a.exponent b.exponent) powers
  | .gt =>
    let (order, powers) := Decimal.compareNaturals b.significand a.significand
      (Decimal.gap b.exponent a.exponent) powers
    (order.swap, powers)

def compareCompact (a : WideDecimal) (b : CompactDecimal) (powers : PowerTable) :
    Ordering × PowerTable :=
  match compare a.exponent b.exponent with
  | .eq => (a.significand.compareWord b.significand, powers)
  | .lt =>
    Decimal.compareNaturalWord a.significand b.significand (Decimal.gap a.exponent b.exponent)
      powers
  | .gt =>
    ((Decimal.compareWordNatural b.significand a.significand
      (Decimal.gap b.exponent a.exponent)).swap, powers)

end WideDecimal

namespace CompactDecimal

def compareWide (a : CompactDecimal) (b : WideDecimal) (powers : PowerTable) :
    Ordering × PowerTable :=
  let (order, powers) := b.compareCompact a powers
  (order.swap, powers)

end CompactDecimal

namespace Decimal

/-- Numeric order, whatever the forms of the two decimals. -/
protected def compare (a b : Decimal) (powers : PowerTable) : Ordering × PowerTable :=
  match a, b with
  | compact a, compact b => (a.compare b, powers)
  | compact a, wide b => a.compareWide b powers
  | wide a, compact b => a.compareCompact b powers
  | wide a, wide b => a.compare b powers

end Decimal

end KeyOrder
