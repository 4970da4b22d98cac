import KeyOrder.Proofs.Decimal.Encoded
import KeyOrder.Proofs.Field.Reading

/-!
# KeyOrder.Proofs.Field.Preorder

The order of fields without the table. `valueOrder` orders what is read by its number;
`orderNullable_eq` says that a comparison with any filled table gives this order, and
`nullableOrder` is a total preorder for every type: it is the pullback of a linear order, with
NULL below all.
-/

namespace KeyOrder

open Decimal (Answers)
open Decoder (Gives)
open PowerTable (Filled)
open Std (OrientedCmp TransCmp)

/-! ## NULL below all -/

section NullFirst

variable {α : Type}

/-- An order of present values with NULL below them. -/
def nullFirst (cmp : α → α → Ordering) : Option α → Option α → Ordering
  | none, none => .eq
  | none, some _ => .lt
  | some _, none => .gt
  | some a, some b => cmp a b

instance (cmp : α → α → Ordering) [OrientedCmp cmp] : OrientedCmp (nullFirst cmp) where
  eq_swap {x y} := by
    cases x with
    | none => cases y <;> rfl
    | some a =>
      cases y with
      | none => rfl
      | some b =>
        have hswap : cmp a b = (cmp b a).swap := OrientedCmp.eq_swap
        exact hswap

instance (cmp : α → α → Ordering) [TransCmp cmp] : TransCmp (nullFirst cmp) where
  isLE_trans {x y z} hxy hyz := by
    cases x with
    | none => cases z <;> rfl
    | some a =>
      cases y with
      | none => cases hxy
      | some b =>
        cases z with
        | none => cases hyz
        | some c =>
          have hab : (cmp a b).isLE = true := hxy
          have hac : (cmp a c).isLE = true := TransCmp.isLE_trans hab hyz
          exact hac

end NullFirst

namespace FieldType

/-- The order of present values, decimals by their numbers. -/
def valueOrder : (t : FieldType) → t.Content → t.Content → Ordering
  | boolean => compare
  | byte => compare
  | short => compare
  | int => compare
  | long => compare
  | float => fun a b => FloatBits.compare (FloatBits.widen a) (FloatBits.widen b)
  | double => FloatBits.compare
  | date => compare
  | dateTime => compare
  | string => compare
  | decimal => compareOn EncodedDecimal.toRat

def nullableOrder (t : FieldType) : Option t.Content → Option t.Content → Ordering :=
  nullFirst t.valueOrder

instance (t : FieldType) : TransCmp t.valueOrder := by
  cases t with
  | boolean => exact inferInstanceAs (TransCmp (compare : UInt8 → UInt8 → Ordering))
  | byte => exact inferInstanceAs (TransCmp (compare : Int8 → Int8 → Ordering))
  | short => exact inferInstanceAs (TransCmp (compare : Int16 → Int16 → Ordering))
  | int => exact inferInstanceAs (TransCmp (compare : Int32 → Int32 → Ordering))
  | long => exact inferInstanceAs (TransCmp (compare : Int64 → Int64 → Ordering))
  | float =>
    exact inferInstanceAs (TransCmp (compareOn fun a : UInt32 =>
      FloatBits.rank (FloatBits.canonical (FloatBits.widen a))))
  | double =>
    exact inferInstanceAs (TransCmp (compareOn fun a : UInt64 =>
      FloatBits.rank (FloatBits.canonical a)))
  | date => exact inferInstanceAs (TransCmp (compare : Int32 → Int32 → Ordering))
  | dateTime => exact inferInstanceAs (TransCmp (compare : Int64 → Int64 → Ordering))
  | string => exact inferInstanceAs (TransCmp (compare : Bytes → Bytes → Ordering))
  | decimal => exact inferInstanceAs (TransCmp (compareOn EncodedDecimal.toRat))

instance (t : FieldType) : TransCmp t.nullableOrder :=
  inferInstanceAs (TransCmp (nullFirst t.valueOrder))

theorem swap_nullableOrder (t : FieldType) (x y : Option t.Content) :
    (t.nullableOrder x y).swap = t.nullableOrder y x :=
  OrientedCmp.eq_swap.symm

/-! ## Comparing with a table -/

/-- What can be read in buffers of fewer than `2^56` bytes. -/
def Bounded : (t : FieldType) → Option t.Content → Prop
  | decimal, x => ∀ d ∈ x, d.significand.Bounded
  | _, _ => True

theorem gives_read {buffer : Bytes} (hbuffer : buffer.length < 2 ^ 56) (t : FieldType) :
    Gives t.read buffer t.Bounded := by
  cases t with
  | string => exact Field.gives_string buffer
  | decimal => exact EncodedDecimal.gives_read hbuffer
  | _ => exact Field.gives_fixed _ _ buffer

theorem order_eq {t : FieldType} {a b : t.Content} (ha : t.Bounded (some a))
    (hb : t.Bounded (some b)) {powers : PowerTable} (hpowers : Filled powers) :
    Answers powers (t.valueOrder a b) (t.order a b powers) := by
  cases t with
  | decimal => exact EncodedDecimal.compare_eq (ha a rfl) (hb b rfl) hpowers
  | _ => exact .keep rfl

theorem orderNullable_eq {t : FieldType} {x y : Option t.Content} (hx : t.Bounded x)
    (hy : t.Bounded y) {powers : PowerTable} (hpowers : Filled powers) :
    Answers powers (t.nullableOrder x y) (t.orderNullable x y powers) := by
  cases x with
  | none => cases y <;> exact .keep rfl
  | some a =>
    cases y with
    | none => exact .keep rfl
    | some b => exact order_eq hx hy hpowers

end FieldType
end KeyOrder
