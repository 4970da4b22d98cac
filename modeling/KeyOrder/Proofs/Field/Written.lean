import KeyOrder.Proofs.Bytes.Order
import KeyOrder.Proofs.Decimal.Encode
import KeyOrder.Proofs.Field.Preorder
import KeyOrder.Proofs.Field.Widening

/-!
# KeyOrder.Proofs.Field.Written

Typed values and the fields that hold them.

* `FieldValue.order`  — the order of two values of one type, by what they stand for.
* `FieldType.Writes`  — the bytes that a field is written in; of a decimal there are two forms.
* `FieldType.Stands`  — what is read back, as the value that was written (`Writes.reads`).
* `nullableOrder_eq`  — what is read back is ordered as the values are.
-/

namespace KeyOrder

open Decoder (Reads)
open FloatFormat (single double)

namespace FieldValue

/-- The order of two values of one type. -/
noncomputable def order : FieldValue → FieldValue → Ordering
  | boolean v, boolean w => compare v w
  | byte v, byte w => compare v.toInt w.toInt
  | short v, short w => compare v.toInt w.toInt
  | int v, int w => compare v.toInt w.toInt
  | long v, long w => compare v.toInt w.toInt
  | float v, float w => single.order v.toNat w.toNat
  | double v, double w => FloatFormat.double.order v.toNat w.toNat
  | date v, date w => compare v.toInt w.toInt
  | dateTime v, dateTime w => compare v.toInt w.toInt
  | string v, string w => Bytes.order (Bytes.ofString v) (Bytes.ofString w)
  | decimal p m e, decimal q n f =>
    compare (EncodedDecimal.signed p m.value e.toInt) (EncodedDecimal.signed q n.value f.toInt)
  | _, _ => .eq

/-- Strings and magnitudes of fewer than `2^56` bytes. -/
def Small : FieldValue → Prop
  | string text => (Bytes.ofString text).length < 2 ^ 56
  | decimal _ magnitude _ => magnitude.length < 2 ^ 56
  | _ => True

end FieldValue

namespace FieldType

/-- The bytes of a field, with a value or NULL. -/
inductive Writes (t : FieldType) : Option FieldValue → Bytes → Prop where
  | null : Writes t none t.encodeNull
  | value (v : FieldValue) (ht : v.type = t) (hsmall : v.Small) : Writes t (some v) v.encode
  | extended (positive : Bool) (magnitude : Bytes) (exponent : Int32) (ht : t = decimal)
    (hsmall : magnitude.length < 2 ^ 56) :
    Writes t (some (.decimal positive magnitude exponent))
      (EncodedDecimal.encodeExtended positive magnitude exponent)

/-- What is read of a value. -/
inductive Holds : (t : FieldType) → t.Content → FieldValue → Prop where
  | boolean (v : Bool) : Holds boolean (UInt8.ofNat v.toNat) (.boolean v)
  | byte (v : Int8) : Holds byte v (.byte v)
  | short (v : Int16) : Holds short v (.short v)
  | int (v : Int32) : Holds int v (.int v)
  | long (v : Int64) : Holds long v (.long v)
  | float (v : UInt32) : Holds float v (.float v)
  | double (v : UInt64) : Holds double v (.double v)
  | date (v : Int32) : Holds date v (.date v)
  | dateTime (v : Int64) : Holds dateTime v (.dateTime v)
  | string (v : String) : Holds string (Bytes.ofString v) (.string v)
  | decimal (d : EncodedDecimal) (positive : Bool) (magnitude : Bytes) (exponent : Int32)
    (h : d.toRat = EncodedDecimal.signed positive magnitude.value exponent.toInt) :
    Holds decimal d (.decimal positive magnitude exponent)

/-- What is read of a field. -/
inductive Stands (t : FieldType) : Option t.Content → Option FieldValue → Prop where
  | null : Stands t none none
  | value {a : t.Content} {v : FieldValue} (h : Holds t a v) : Stands t (some a) (some v)

/-! ## The order of what is read -/

theorem valueOrder_eq {t : FieldType} {a b : t.Content} {v w : FieldValue} (ha : Holds t a v)
    (hb : Holds t b w) : t.valueOrder a b = v.order w := by
  cases ha with
  | boolean v =>
    cases hb with
    | boolean w => cases v <;> cases w <;> rfl
  | byte => cases hb; exact compare_toInt8 _ _
  | short => cases hb; exact compare_toInt16 _ _
  | int => cases hb; exact compare_toInt32 _ _
  | long => cases hb; exact compare_toInt64 _ _
  | float =>
    cases hb
    exact (FloatBits.compare_eq _ _).trans (FloatBits.widen_order _ _)
  | double => cases hb; exact FloatBits.compare_eq _ _
  | date => cases hb; exact compare_toInt32 _ _
  | dateTime => cases hb; exact compare_toInt64 _ _
  | string => cases hb; exact Bytes.compare_eq_order _ _
  | decimal _ _ _ _ ha =>
    cases hb with
    | decimal _ _ _ _ hb => exact congrArg₂ compare ha hb

theorem nullableOrder_eq {t : FieldType} {x y : Option t.Content} {v w : Option FieldValue}
    (hx : Stands t x v) (hy : Stands t y w) :
    t.nullableOrder x y = nullFirst FieldValue.order v w := by
  cases hx with
  | null => cases hy <;> rfl
  | value ha =>
    cases hy with
    | null => rfl
    | value hb => exact valueOrder_eq ha hb

/-! ## Reading back -/

theorem ofNat_bool (v : Bool) : UInt8.ofNat (v.toNat % 256 ^ 1) = UInt8.ofNat v.toNat := by
  cases v <;> rfl

theorem ofNat_word32 (v : UInt32) : UInt32.ofNat (v.toNat % 256 ^ 4) = v := by
  have hmod : v.toNat % 256 ^ 4 = v.toNat := Nat.mod_eq_of_lt v.toNat_lt
  rw [hmod, UInt32.ofNat_toNat]

theorem ofNat_word64 (v : UInt64) : UInt64.ofNat (v.toNat % 256 ^ 8) = v := by
  have hmod : v.toNat % 256 ^ 8 = v.toNat := Nat.mod_eq_of_lt v.toNat_lt
  rw [hmod, UInt64.ofNat_toNat]

theorem ofNat_int8 (v : Int8) : Int8.ofNat (v.toUInt8.toNat % 256 ^ 1) = v := by
  have hmod : v.toUInt8.toNat % 256 ^ 1 = v.toUInt8.toNat := Nat.mod_eq_of_lt v.toUInt8.toNat_lt
  rw [hmod]
  exact congrArg UInt8.toInt8 UInt8.ofNat_toNat

theorem ofNat_int16 (v : Int16) : Int16.ofNat (v.toUInt16.toNat % 256 ^ 2) = v := by
  have hmod : v.toUInt16.toNat % 256 ^ 2 = v.toUInt16.toNat :=
    Nat.mod_eq_of_lt v.toUInt16.toNat_lt
  rw [hmod]
  exact congrArg UInt16.toInt16 UInt16.ofNat_toNat

theorem ofNat_int32 (v : Int32) : Int32.ofNat (v.toUInt32.toNat % 256 ^ 4) = v :=
  congrArg UInt32.toInt32 (ofNat_word32 v.toUInt32)

theorem ofNat_int64 (v : Int64) : Int64.ofNat (v.toUInt64.toNat % 256 ^ 8) = v :=
  congrArg UInt64.toInt64 (ofNat_word64 v.toUInt64)

/-- A written value of each type is read back. -/
theorem reads_encode {v : FieldValue} (hsmall : v.Small) :
    ∃ a : v.type.Content, Reads v.type.read v.encode (some a) ∧ v.type.Bounded (some a) ∧
      Holds v.type a v := by
  cases v with
  | boolean v => exact ⟨_, Field.reads_fixed (ofNat_bool v), trivial, .boolean v⟩
  | byte v => exact ⟨v, Field.reads_fixed (ofNat_int8 v), trivial, .byte v⟩
  | short v => exact ⟨v, Field.reads_fixed (ofNat_int16 v), trivial, .short v⟩
  | int v => exact ⟨v, Field.reads_fixed (ofNat_int32 v), trivial, .int v⟩
  | long v => exact ⟨v, Field.reads_fixed (ofNat_int64 v), trivial, .long v⟩
  | float v => exact ⟨v, Field.reads_fixed (ofNat_word32 v), trivial, .float v⟩
  | double v => exact ⟨v, Field.reads_fixed (ofNat_word64 v), trivial, .double v⟩
  | date v => exact ⟨v, Field.reads_fixed (ofNat_int32 v), trivial, .date v⟩
  | dateTime v => exact ⟨v, Field.reads_fixed (ofNat_int64 v), trivial, .dateTime v⟩
  | string v =>
    exact ⟨_, Field.reads_string (lt_trans hsmall (by norm_num)), trivial, .string v⟩
  | decimal positive magnitude exponent =>
    have hsize : magnitude.length < 2 ^ 63 := lt_trans hsmall (by norm_num)
    refine ⟨_, EncodedDecimal.reads_encode positive hsize exponent, ?_, .decimal _ _ _ _ ?_⟩
    · intro d hd
      cases hd
      exact EncodedDecimal.bounded_stored hsmall
    · rw [EncodedDecimal.toRat, EncodedDecimal.value_stored]

theorem reads_null (t : FieldType) : Reads t.read t.encodeNull none := by
  cases t with
  | string => exact Field.reads_nullString
  | decimal => exact Reads.bind (Reads.byte EncodedDecimal.nullHeader) (Reads.pure none)
  | _ => exact Field.reads_null _

theorem bounded_none (t : FieldType) : t.Bounded none := by
  cases t with
  | decimal =>
    intro d hd
    cases hd
  | _ => trivial

theorem Writes.reads {t : FieldType} {v : Option FieldValue} {bytes : Bytes}
    (h : t.Writes v bytes) : ∃ x, Reads t.read bytes x ∧ t.Bounded x ∧ t.Stands x v := by
  cases h with
  | null => exact ⟨none, reads_null t, bounded_none t, .null⟩
  | value v ht hsmall =>
    subst ht
    obtain ⟨a, hreads, hbounded, hholds⟩ := reads_encode hsmall
    exact ⟨some a, hreads, hbounded, .value hholds⟩
  | extended positive magnitude exponent ht hsmall =>
    subst ht
    have hsize : magnitude.length < 2 ^ 63 := lt_trans hsmall (by norm_num)
    refine ⟨_, EncodedDecimal.reads_encodeExtended positive hsize exponent, ?_,
      .value (.decimal _ _ _ _ ?_)⟩
    · intro d hd
      cases hd
      exact lt_of_le_of_lt (Bytes.length_significant_le magnitude) hsmall
    · rw [EncodedDecimal.toRat, Significand.value, Bytes.value_significant]

end FieldType
end KeyOrder
