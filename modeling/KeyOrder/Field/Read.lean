import KeyOrder.Decimal.Encoded

/-!
# KeyOrder.Field.Read

The types that a field of a key can have, in a fixed order, their names, and reading and skipping
a field of each. Every type has its form of NULL:

* fixed-width types: a presence byte, 0 for NULL or 1 before the value, most significant byte
  first;
* strings: a length in bytes, a compact integer, -1 for NULL, and the bytes;
* decimals: see `EncodedDecimal.read`.

`FieldType.read t` gives what a field of type `t` holds, `none` for NULL. `FieldType.skip t`
passes over the field.
-/

namespace KeyOrder

inductive FieldType where
  | boolean
  | byte
  | short
  | int
  | long
  | float
  | double
  | date
  | dateTime
  | string
  | decimal
  deriving DecidableEq, Repr

namespace FieldType

def all : List FieldType :=
  [boolean, byte, short, int, long, float, double, date, dateTime, string, decimal]

def name : FieldType → String
  | boolean => "boolean"
  | byte => "byte"
  | short => "short"
  | int => "int"
  | long => "long"
  | float => "float"
  | double => "double"
  | date => "date"
  | dateTime => "date_time"
  | string => "string"
  | decimal => "decimal"

/-- The type of a name. -/
def ofName? (name : String) : Option FieldType := all.find? fun t => t.name == name

@[simp] theorem ofName?_name (t : FieldType) : ofName? t.name = some t := by
  cases t <;> decide

/-- What a present field of each type is read as. A boolean is its byte, dates count days and
seconds, and a floating-point number is its bit pattern. -/
abbrev Content : FieldType → Type
  | boolean => UInt8
  | byte => Int8
  | short => Int16
  | int => Int32
  | long => Int64
  | float => UInt32
  | double => UInt64
  | date => Int32
  | dateTime => Int64
  | string => Bytes
  | decimal => EncodedDecimal

end FieldType

namespace Field

def nullFlag : UInt8 := 0

def presentFlag : UInt8 := 1

/-- The length that stands for a NULL string. -/
def nullLength : Int64 := -1

/-- A presence byte, and after 1 what `content` reads. -/
def readPresent {α : Type} (content : Decoder α) : Decoder (Option α) := do
  let flag ← Decoder.byte
  if flag = nullFlag then
    pure none
  else if flag = presentFlag then
    let a ← content
    pure (some a)
  else
    Decoder.fail (.invalidPresence flag)

/-- A presence byte and `width` bytes, which `ofNat` makes a value of. -/
def readFixed {α : Type} (width : Nat) (ofNat : Nat → α) : Decoder (Option α) :=
  readPresent do
    let bytes ← Decoder.take width
    pure (ofNat bytes.value)

/-- A length and as many bytes. -/
def readString : Decoder (Option Bytes) := do
  let length ← CompactInt.read
  if length = nullLength then
    pure none
  else if length < 0 then
    Decoder.fail (.invalidLength length)
  else
    let bytes ← Decoder.take length.toInt.toNat
    pure (some bytes)

/-- Passes over a presence byte and `width` bytes. -/
def skipFixed (width : Nat) : Decoder Unit := do
  let _ ← readPresent (Decoder.skip width)
  pure ()

/-- Passes over a length and as many bytes. -/
def skipString : Decoder Unit := do
  let _ ← readString
  pure ()

end Field

namespace FieldType

/-- The next field, or `none` if it is NULL. -/
def read : (t : FieldType) → Decoder (Option t.Content)
  | boolean => Field.readFixed 1 UInt8.ofNat
  | byte => Field.readFixed 1 Int8.ofNat
  | short => Field.readFixed 2 Int16.ofNat
  | int => Field.readFixed 4 Int32.ofNat
  | long => Field.readFixed 8 Int64.ofNat
  | float => Field.readFixed 4 UInt32.ofNat
  | double => Field.readFixed 8 UInt64.ofNat
  | date => Field.readFixed 4 Int32.ofNat
  | dateTime => Field.readFixed 8 Int64.ofNat
  | string => Field.readString
  | decimal => EncodedDecimal.read

/-- Passes over the next field. -/
def skip : FieldType → Decoder Unit
  | boolean | byte => Field.skipFixed 1
  | short => Field.skipFixed 2
  | int | float | date => Field.skipFixed 4
  | long | double | dateTime => Field.skipFixed 8
  | string => Field.skipString
  | decimal => EncodedDecimal.skip

end FieldType

end KeyOrder
