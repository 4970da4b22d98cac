import KeyOrder.Proofs.Field.Written
import KeyOrder.Proofs.Key.Preorder

/-!
# KeyOrder.Proofs.Key.Record

Written records are ordered as the values in them. A record is its fields one after another;
`compareFields_written` says by induction on the fields that after fields that are equal in value,
in however many bytes on either side, both cursors stand at the next field, and that the first
fields that differ decide.
-/

namespace KeyOrder
namespace Key

open PowerTable (Reachable)

/-- The bytes of a record with a value or NULL for each field. -/
inductive Writes : List FieldOrdering → List (Option FieldValue) → Bytes → Prop where
  | nil : Writes [] [] []
  | cons {f : FieldOrdering} {fields : List FieldOrdering} {v : Option FieldValue}
    {values : List (Option FieldValue)} {bytes rest : Bytes} (h : f.type.Writes v bytes)
    (hrest : Writes fields values rest) : Writes (f :: fields) (v :: values) (bytes ++ rest)

/-- The order of records: the first field that differs decides, in its direction. -/
noncomputable def valueOrder :
    List FieldOrdering → List (Option FieldValue) → List (Option FieldValue) → Ordering
  | f :: fields, v :: values, w :: values' =>
    (f.direction.apply (nullFirst FieldValue.order v w)).then (valueOrder fields values values')
  | _, _, _ => .eq

theorem compareFields_written (fields : List FieldOrdering) :
    ∀ {values values' : List (Option FieldValue)} {bytes bytes' rest rest' : Bytes}
      {left right : Cursor} {t : PowerTable},
      Writes fields values bytes → Writes fields values' bytes' →
      left.rest = bytes ++ rest → right.rest = bytes' ++ rest' → Reachable t →
      (compareFields fields ⟨left, right, t⟩).1 = .ok (valueOrder fields values values') ∧
        Reachable (compareFields fields ⟨left, right, t⟩).2.powers := by
  induction fields with
  | nil =>
    intro values values' bytes bytes' rest rest' left right t hx hy _ _ ht
    cases hx
    cases hy
    exact ⟨rfl, ht⟩
  | cons f fields ih =>
    intro values values' bytes bytes' rest rest' left right t hx hy hleft hright ht
    cases hx with
    | cons hv hvalues =>
    cases hy with
    | cons hw hvalues' =>
    obtain ⟨x, hxreads, hxbounded, hxstands⟩ := hv.reads
    obtain ⟨y, hyreads, hybounded, hystands⟩ := hw.reads
    rw [List.append_assoc] at hleft hright
    obtain ⟨powers, hpowers, hstep⟩ := compareFields_cons fields (w := ⟨left, right, t⟩)
      (hxreads left _ hleft) (hyreads right _ hright) hxbounded hybounded ht
    have hxy : f.order x y = f.direction.apply (nullFirst FieldValue.order _ _) :=
      congrArg f.direction.apply (FieldType.nullableOrder_eq hxstands hystands)
    rw [hstep, hxy, valueOrder]
    cases f.direction.apply (nullFirst FieldValue.order _ _) with
    | eq =>
      have hleft' := (Cursor.rest_advance left _).trans (hleft ▸ List.drop_left)
      have hright' := (Cursor.rest_advance right _).trans (hright ▸ List.drop_left)
      exact ih hvalues hvalues' hleft' hright' hpowers
    | lt => exact ⟨rfl, hpowers⟩
    | gt => exact ⟨rfl, hpowers⟩

/-- Two records are ordered as their values, in whichever forms the values are written, and the
comparison never fails. -/
theorem compare_written {fields : List FieldOrdering} {values values' : List (Option FieldValue)}
    {a b : Bytes} (ha : Writes fields values a) (hb : Writes fields values' b) {t : PowerTable}
    (ht : Reachable t) :
    (Key.compare fields a b t).1 = .ok (valueOrder fields values values') ∧
      (Key.less fields a b t).1 = .ok (decide (valueOrder fields values values' = .lt)) ∧
      Reachable (Key.compare fields a b t).2 := by
  have hrest : ∀ bytes : Bytes, (Cursor.start bytes).rest = bytes ++ [] := fun bytes =>
    (List.append_nil bytes).symm
  obtain ⟨hcompare, hreachable⟩ :=
    compareFields_written fields ha hb (hrest a) (hrest b) ht
  have horder : (Key.compare fields a b t).1 = .ok (valueOrder fields values values') := hcompare
  refine ⟨horder, ?_, hreachable⟩
  show (Key.compare fields a b t).1.map Ordering.isLT = _
  rw [horder]
  cases valueOrder fields values values' <;> rfl

/-- `2.5` and `2.50`, the second one extended, before a text and NULL. -/
theorem compare_written_mixed :
    (Key.compare [⟨.decimal, .descending⟩, ⟨.string, .ascending⟩]
      (EncodedDecimal.encode true [25] (-1) ++ ((FieldValue.string "b").encode ++ []))
      (EncodedDecimal.encodeExtended true [0, 250] (-2) ++ (FieldType.string.encodeNull ++ []))
      PowerTable.new).1 = .ok .gt := by
  have hmagnitude : (FieldValue.decimal true [25] (-1)).Small :=
    show ([25] : Bytes).length < 2 ^ 56 by decide
  have htext : (FieldValue.string "b").Small :=
    show (Bytes.ofString "b").length < 2 ^ 56 by decide
  have hleft : Writes [⟨.decimal, .descending⟩, ⟨.string, .ascending⟩]
      [some (.decimal true [25] (-1)), some (.string "b")] _ :=
    .cons (.value _ rfl hmagnitude) (.cons (.value _ rfl htext) .nil)
  have hright : Writes [⟨.decimal, .descending⟩, ⟨.string, .ascending⟩]
      [some (.decimal true [0, 250] (-2)), none] _ :=
    .cons (.extended true [0, 250] (-2) rfl (by decide)) (.cons .null .nil)
  refine (compare_written hleft hright Reachable.new).1.trans (congrArg Except.ok ?_)
  have hdecimals :
      FieldValue.order (.decimal true [25] (-1)) (.decimal true [0, 250] (-2)) = .eq := by
    refine compare_eq_iff_eq.mpr ?_
    have hone : (-1 : Int32).toInt = -1 := by decide
    have htwo : (-2 : Int32).toInt = -2 := by decide
    have hfirst : Bytes.value [25] = 25 := by decide
    have hsecond : Bytes.value [0, 250] = 250 := by decide
    rw [hone, htwo, hfirst, hsecond, EncodedDecimal.signed, EncodedDecimal.signed]
    norm_num
  simp only [valueOrder, nullFirst, hdecimals]
  rfl

end Key
end KeyOrder
