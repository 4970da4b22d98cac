import KeyOrder.Natural.Basic

/-!
# KeyOrder.Natural.Mul

Products of naturals in 64-bit accumulators.

* `Natural.mulLimb` — by one limb: a carry runs once over the limbs.
* `Natural.mul`     — by any number: each limb of the shorter factor adds one row to a window of
  zero limbs that is as wide as both factors together.

An accumulator takes a product of two limbs, a limb of the window and a carry below `2^32`, which
is never more than `2^64 - 1`. A row returns the carry that runs out of its window; the window of
a product is wide enough for that carry to be zero.
-/

namespace KeyOrder

namespace Natural

/-- The limbs of `limbs * k + carry`. -/
def scaleLimbs (k : UInt32) : List UInt32 → UInt64 → List UInt32
  | [], carry => if carry = 0 then [] else [carry.toUInt32]
  | limb :: limbs, carry =>
    let sum := carry + limb.toUInt64 * k.toUInt64
    sum.toUInt32 :: scaleLimbs k limbs (sum >>> 32)

def mulLimb (n : Natural) (k : UInt32) : Natural := ofLimbs (scaleLimbs k n.limbs 0)

/-- Adds `carry` to the low end of a window. -/
def addCarry : List UInt32 → UInt64 → List UInt32 × UInt64
  | [], carry => ([], carry)
  | slot :: window, carry =>
    if carry = 0 then
      (slot :: window, 0)
    else
      let sum := carry + slot.toUInt64
      let (higher, out) := addCarry window (sum >>> 32)
      (sum.toUInt32 :: higher, out)

/-- Adds `a * limbs + carry` to the low end of a window. -/
def addRow (a : UInt32) : List UInt32 → List UInt32 → UInt64 → List UInt32 × UInt64
  | [], window, carry => addCarry window carry
  | _ :: _, [], carry => ([], carry)
  | b :: limbs, slot :: window, carry =>
    let sum := a.toUInt64 * b.toUInt64 + slot.toUInt64 + carry
    let (higher, out) := addRow a limbs window (sum >>> 32)
    (sum.toUInt32 :: higher, out)

/-- Adds `short * long` to a window, a row for each limb of `short`. -/
def addRows (long : List UInt32) : List UInt32 → List UInt32 → List UInt32
  | [], window => window
  | a :: short, window =>
    match (addRow a long window 0).1 with
    | [] => []
    | slot :: higher => slot :: addRows long short higher

def mul (m n : Natural) : Natural :=
  let (short, long) :=
    if m.limbs.length ≤ n.limbs.length then (m.limbs, n.limbs) else (n.limbs, m.limbs)
  ofLimbs (addRows long short (List.replicate (short.length + long.length) 0))

end Natural

end KeyOrder
