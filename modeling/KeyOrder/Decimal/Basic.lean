import KeyOrder.Natural.Basic

/-!
# KeyOrder.Decimal.Basic

Unsigned decimals `significand * 10^exponent`.

* `CompactDecimal` — the significand is a 64-bit word.
* `WideDecimal`    — the significand is a natural of any size, below `2^64` or not.
* `Decimal`        — one or the other.

One number has many forms, `1 * 10^1` and `10 * 10^0` among them; which numbers are equal is for
`Decimal.compare` to say.
-/

namespace KeyOrder

structure CompactDecimal where
  significand : UInt64
  exponent : Int32
  deriving DecidableEq, Repr

structure WideDecimal where
  significand : Natural
  exponent : Int32
  deriving DecidableEq, Repr

inductive Decimal where
  | compact (d : CompactDecimal)
  | wide (d : WideDecimal)
  deriving DecidableEq, Repr

namespace CompactDecimal

def isZero (d : CompactDecimal) : Bool := d.significand == 0

end CompactDecimal

namespace WideDecimal

/-- The decimal of a big-endian significand. -/
def ofBytes (bytes : Bytes) (exponent : Int32) : WideDecimal := ⟨Natural.ofBytes bytes, exponent⟩

def isZero (d : WideDecimal) : Bool := d.significand.isZero

end WideDecimal

namespace Decimal

/-- The significand as a number. -/
def significand : Decimal → Nat
  | compact d => d.significand.toNat
  | wide d => d.significand.value

def exponent : Decimal → Int32
  | compact d => d.exponent
  | wide d => d.exponent

def isZero : Decimal → Bool
  | compact d => d.isZero
  | wide d => d.isZero

end Decimal

end KeyOrder
