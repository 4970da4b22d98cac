import KeyOrder.Field.Order

/-!
# KeyOrder.Key.Basic

Keys: fields one after another in a buffer, each with a type and a direction. Keys are compared
field by field; the first field that differs decides, and the fields after it are not read. A
descending field reverses the whole order of the field, the place of NULL included.
-/

namespace KeyOrder

inductive Direction where
  | ascending
  | descending
  deriving DecidableEq, Repr

namespace Direction

def apply : Direction → Ordering → Ordering
  | ascending, o => o
  | descending, o => o.swap

def name : Direction → String
  | ascending => "ascending"
  | descending => "descending"

end Direction

structure FieldOrdering where
  type : FieldType
  direction : Direction
  deriving DecidableEq, Repr

namespace Key

/-- Compares the fields that two buffers have next. -/
def compareFields : List FieldOrdering → Walk → Except DecodeError Ordering × Walk
  | [], w => (.ok .eq, w)
  | field :: fields, w =>
    match field.type.compare w with
    | (.error e, w') => (.error e, w')
    | (.ok .eq, w') => compareFields fields w'
    | (.ok unequal, w') => (.ok (field.direction.apply unequal), w')

/-- The order of two keys, and the table that finding it leaves. -/
protected def compare (fields : List FieldOrdering) (a b : Bytes) (powers : PowerTable) :
    Except DecodeError Ordering × PowerTable :=
  let (result, w) := compareFields fields (Walk.start a b powers)
  (result, w.powers)

/-- Whether `a` comes strictly before `b`. -/
def less (fields : List FieldOrdering) (a b : Bytes) (powers : PowerTable) :
    Except DecodeError Bool × PowerTable :=
  let (result, powers) := Key.compare fields a b powers
  (result.map Ordering.isLT, powers)

end Key

end KeyOrder
