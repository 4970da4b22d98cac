import KeyOrder.Field.FloatBits
import KeyOrder.Field.Read

/-!
# KeyOrder.Field.Order

The order of fields. NULL is below every present value, and present values are ordered by what
they hold: booleans by their byte, integers and dates as signed numbers, floating-point numbers
by `FloatBits.compare`, strings bytewise, decimals by value.

A comparison of two buffers is a `Walk`: two cursors side by side, and the power table that all
comparisons share. `FieldType.compare` reads one field on the left and then one on the right, and
only then compares, so it consumes the same bytes whatever the order is. If the left field cannot
be read, the right cursor stays.
-/

namespace KeyOrder

structure Walk where
  left : Cursor
  right : Cursor
  powers : PowerTable

namespace Walk

/-- At the start of two buffers. -/
def start (a b : Bytes) (powers : PowerTable) : Walk := ⟨Cursor.start a, Cursor.start b, powers⟩

/-- Reads with `read` on either side, left first, and compares what it gave. -/
def compareNext {α : Type} (read : Decoder α) (order : α → α → PowerTable → Ordering × PowerTable)
    (w : Walk) : Except DecodeError Ordering × Walk :=
  match read w.left with
  | (.error e, left) => (.error e, { w with left := left })
  | (.ok a, left) =>
    match read w.right with
    | (.error e, right) => (.error e, { w with left := left, right := right })
    | (.ok b, right) =>
      let (o, powers) := order a b w.powers
      (.ok o, ⟨left, right, powers⟩)

end Walk

namespace FieldType

/-- The order of present values. -/
def order : (t : FieldType) → t.Content → t.Content → PowerTable → Ordering × PowerTable
  | boolean, a, b, powers => (compare a b, powers)
  | byte, a, b, powers => (compare a b, powers)
  | short, a, b, powers => (compare a b, powers)
  | int, a, b, powers => (compare a b, powers)
  | long, a, b, powers => (compare a b, powers)
  | float, a, b, powers => (FloatBits.compare (FloatBits.widen a) (FloatBits.widen b), powers)
  | double, a, b, powers => (FloatBits.compare a b, powers)
  | date, a, b, powers => (compare a b, powers)
  | dateTime, a, b, powers => (compare a b, powers)
  | string, a, b, powers => (compare a b, powers)
  | decimal, a, b, powers => a.compare b powers

/-- The order of fields, NULL below every present value. -/
def orderNullable (t : FieldType) :
    Option t.Content → Option t.Content → PowerTable → Ordering × PowerTable
  | none, none, powers => (.eq, powers)
  | none, some _, powers => (.lt, powers)
  | some _, none, powers => (.gt, powers)
  | some a, some b, powers => t.order a b powers

/-- Compares the next fields of two buffers. -/
protected def compare (t : FieldType) (w : Walk) : Except DecodeError Ordering × Walk :=
  w.compareNext t.read t.orderNullable

end FieldType

end KeyOrder
