import KeyOrder.CompactInt
import KeyOrder.Decimal.Order

/-!
# KeyOrder.Decimal.Encoded

Signed decimals as they stand in a buffer:

* a header byte, zero for NULL, which is then all there is;
* the scale, a compact integer; the exponent is its negation;
* the unscaled part, a compact integer: the magnitude itself if the header has the compact flag,
  otherwise the number of bytes of the magnitude, which follow.

`EncodedDecimal.read` gives `none` for NULL. Of a header that is not zero only the plus and the
compact flag count. `EncodedDecimal.compare` orders by value, however a value is written.
-/

namespace KeyOrder

/-- A magnitude as it is stored; extended bytes may begin with zeros. -/
inductive Significand where
  | compact (v : UInt64)
  | extended (bytes : Bytes)
  deriving DecidableEq, Repr

namespace Significand

def value : Significand → Nat
  | compact v => v.toNat
  | extended bytes => Bytes.value bytes

def isZero : Significand → Bool
  | compact v => v == 0
  | extended bytes => bytes.all (· == 0)

/-- The one form of a magnitude: compact if it is below `2^64`, and otherwise its bytes without
leading zeros. -/
def narrowed : Significand → Significand
  | compact v => compact v
  | extended bytes =>
    let significant := Bytes.significant bytes
    if 8 < significant.length then
      extended significant
    else
      compact (UInt64.ofNat (Bytes.value significant))

end Significand

structure EncodedDecimal where
  positive : Bool
  exponent : Int32
  significand : Significand
  deriving DecidableEq, Repr

namespace EncodedDecimal

def nullHeader : UInt8 := 0x00

/-- Set in every written header but that of NULL. -/
def presentFlag : UInt8 := 0x80

def plusFlag : UInt8 := 0x02

def compactFlag : UInt8 := 0x01

/-- The decimal without its sign. -/
def magnitude (d : EncodedDecimal) : Decimal :=
  match d.significand.narrowed with
  | .compact v => .compact ⟨v, d.exponent⟩
  | .extended bytes => .wide (WideDecimal.ofBytes bytes d.exponent)

/-- The sign as -1, 0 or 1. -/
def sign (d : EncodedDecimal) : Int :=
  if d.significand.isZero then 0 else if d.positive then 1 else -1

/-- The negation of a scale, if it is a 32-bit exponent. -/
def exponentOfScale? (scale : Int64) : Option Int32 :=
  let exponent := -scale.toInt
  if Int32.minValue.toInt ≤ exponent ∧ exponent ≤ Int32.maxValue.toInt then
    some (Int32.ofInt exponent)
  else
    none

/-- The magnitude that `unscaled` begins. -/
def readSignificand (compact : Bool) (unscaled : Int64) : Decoder Significand :=
  if compact then
    if unscaled < 0 then
      Decoder.fail (.negativeUnscaled unscaled)
    else
      pure (.compact unscaled.toUInt64)
  else if unscaled < 0 then
    Decoder.fail (.invalidLength unscaled)
  else do
    let bytes ← Decoder.take unscaled.toInt.toNat
    pure (.extended bytes)

/-- The next decimal, or `none` if it is NULL. -/
def read : Decoder (Option EncodedDecimal) := do
  let header ← Decoder.byte
  if header = nullHeader then
    pure none
  else
    let scale ← CompactInt.read
    match exponentOfScale? scale with
    | none => Decoder.fail (.scaleOutOfRange scale)
    | some exponent =>
      let unscaled ← CompactInt.read
      let significand ← readSignificand (header &&& compactFlag != 0) unscaled
      pure (some ⟨header &&& plusFlag != 0, exponent, significand⟩)

/-- Passes over the next decimal. -/
def skip : Decoder Unit := do
  let _ ← read
  pure ()

/-- Numeric order without the signs, each magnitude in its one form. -/
def compareMagnitudes (a b : EncodedDecimal) (powers : PowerTable) : Ordering × PowerTable :=
  match a.significand.narrowed, b.significand.narrowed with
  | .compact v, .compact w => (CompactDecimal.compare ⟨v, a.exponent⟩ ⟨w, b.exponent⟩, powers)
  | .extended bytes, .compact w =>
    (WideDecimal.ofBytes bytes a.exponent).compareCompact ⟨w, b.exponent⟩ powers
  | .compact v, .extended bytes =>
    let (order, powers) :=
      (WideDecimal.ofBytes bytes b.exponent).compareCompact ⟨v, a.exponent⟩ powers
    (order.swap, powers)
  | .extended aBytes, .extended bBytes =>
    (WideDecimal.ofBytes aBytes a.exponent).compare (WideDecimal.ofBytes bBytes b.exponent) powers

/-- Numeric order: by sign, and within one sign by magnitude. -/
protected def compare (a b : EncodedDecimal) (powers : PowerTable) : Ordering × PowerTable :=
  match compare a.sign b.sign with
  | .eq =>
    if a.sign = 0 then
      (.eq, powers)
    else
      let (order, powers) := a.compareMagnitudes b powers
      (if a.sign < 0 then order.swap else order, powers)
  | unequal => (unequal, powers)

end EncodedDecimal

end KeyOrder
