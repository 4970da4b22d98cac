import KeyOrder.Decimal.Encode
import KeyOrder.Field.Read

/-!
# KeyOrder.Field.Value

Typed values and the fields that hold them, in the form that `FieldType.read` reads.
-/

namespace KeyOrder

inductive FieldValue where
  | boolean (v : Bool)
  | byte (v : Int8)
  | short (v : Int16)
  | int (v : Int32)
  | long (v : Int64)
  /-- A bit pattern. -/
  | float (bits : UInt32)
  /-- A bit pattern. -/
  | double (bits : UInt64)
  /-- Days since the epoch. -/
  | date (days : Int32)
  /-- Seconds since the epoch. -/
  | dateTime (seconds : Int64)
  | string (text : String)
  /-- A sign, a big-endian magnitude and an exponent. -/
  | decimal (positive : Bool) (magnitude : Bytes) (exponent : Int32)
  deriving DecidableEq, Repr

namespace Field

/-- A presence byte and the low `width` bytes of `v`. -/
def encodeFixed (width v : Nat) : Bytes := presentFlag :: Bytes.bigEndian width v

def encodeString (bytes : Bytes) : Bytes :=
  CompactInt.encode (Int64.ofNat bytes.length) ++ bytes

end Field

namespace FieldValue

def type : FieldValue → FieldType
  | boolean _ => .boolean
  | byte _ => .byte
  | short _ => .short
  | int _ => .int
  | long _ => .long
  | float _ => .float
  | double _ => .double
  | date _ => .date
  | dateTime _ => .dateTime
  | string _ => .string
  | decimal _ _ _ => .decimal

def encode : FieldValue → Bytes
  | boolean v => Field.encodeFixed 1 v.toNat
  | byte v => Field.encodeFixed 1 v.toUInt8.toNat
  | short v => Field.encodeFixed 2 v.toUInt16.toNat
  | int v => Field.encodeFixed 4 v.toUInt32.toNat
  | long v => Field.encodeFixed 8 v.toUInt64.toNat
  | float bits => Field.encodeFixed 4 bits.toNat
  | double bits => Field.encodeFixed 8 bits.toNat
  | date days => Field.encodeFixed 4 days.toUInt32.toNat
  | dateTime seconds => Field.encodeFixed 8 seconds.toUInt64.toNat
  | string text => Field.encodeString (Bytes.ofString text)
  | decimal positive magnitude exponent => EncodedDecimal.encode positive magnitude exponent

end FieldValue

namespace FieldType

/-- A NULL field. -/
def encodeNull : FieldType → Bytes
  | string => CompactInt.encode Field.nullLength
  | decimal => EncodedDecimal.encodeNull
  | _ => [Field.nullFlag]

end FieldType

end KeyOrder
