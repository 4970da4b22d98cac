import KeyOrder.Decimal.Encoded

/-!
# KeyOrder.Decimal.Encode

Writing signed decimals in the form that `EncodedDecimal.read` reads. A magnitude is given by its
big-endian bytes, whose leading zeros are not written.

* `EncodedDecimal.encode`         — the shortest form: compact if the magnitude is below `2^63`.
* `EncodedDecimal.encodeExtended` — the magnitude always as bytes.
* `EncodedDecimal.encodeInt`      — a signed unscaled number; zero is positive.

Each form is also written at the end of a buffer, part by part (`write`, `writeExtended`,
`writeInt`): the header, the scale, and then the compact magnitude, or its length and its bytes.
-/

namespace KeyOrder

namespace EncodedDecimal

def encodeNull : Bytes := [nullHeader]

/-- The header of an extended decimal. -/
def header (positive : Bool) : UInt8 :=
  if positive then presentFlag ||| plusFlag else presentFlag

/-- The scale that stands for an exponent. -/
def encodeScale (exponent : Int32) : Bytes := CompactInt.encode (-exponent.toInt64)

/-- A magnitude as an integer that a compact decimal holds, if it is one. -/
def compactValue? (significant : Bytes) : Option Int64 :=
  if 8 < significant.length then
    none
  else
    let word := UInt64.ofNat (Bytes.value significant)
    if word.toInt64 < 0 then none else some word.toInt64

def encodeExtended (positive : Bool) (magnitude : Bytes) (exponent : Int32) : Bytes :=
  let significant := Bytes.significant magnitude
  header positive :: encodeScale exponent ++
    (CompactInt.encode (Int64.ofNat significant.length) ++ significant)

def encode (positive : Bool) (magnitude : Bytes) (exponent : Int32) : Bytes :=
  match compactValue? (Bytes.significant magnitude) with
  | some v => (header positive ||| compactFlag) :: encodeScale exponent ++ CompactInt.encode v
  | none => encodeExtended positive magnitude exponent

/-- An unscaled number of at most 128 bits. -/
def encodeInt (unscaled : Int) (exponent : Int32) : Bytes :=
  encode (decide (0 ≤ unscaled)) (Bytes.bigEndian 16 unscaled.natAbs) exponent

end EncodedDecimal

namespace CompactInt

def write (v : Int64) : Writer := Writer.bytes (encode v)

end CompactInt

namespace EncodedDecimal

def writeNull : Writer := Writer.byte nullHeader

def writeExtended (positive : Bool) (magnitude : Bytes) (exponent : Int32) : Writer := do
  let significant := Bytes.significant magnitude
  Writer.byte (header positive)
  CompactInt.write (-exponent.toInt64)
  CompactInt.write (Int64.ofNat significant.length)
  Writer.bytes significant

def write (positive : Bool) (magnitude : Bytes) (exponent : Int32) : Writer :=
  let significant := Bytes.significant magnitude
  match compactValue? significant with
  | some v => do
    Writer.byte (header positive ||| compactFlag)
    CompactInt.write (-exponent.toInt64)
    CompactInt.write v
  | none => writeExtended positive significant exponent

/-- Writes an unscaled number of at most 128 bits. -/
def writeInt (unscaled : Int) (exponent : Int32) : Writer :=
  write (decide (0 ≤ unscaled)) (Bytes.bigEndian 16 unscaled.natAbs) exponent

end EncodedDecimal

end KeyOrder
