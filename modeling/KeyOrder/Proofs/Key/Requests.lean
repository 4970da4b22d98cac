import KeyOrder.Proofs.Decimal.Requests
import KeyOrder.Proofs.Field.Walk
import KeyOrder.Registry.Basic

/-!
# KeyOrder.Proofs.Key.Requests

Comparisons of keys cannot tell one filled table from another: whatever it holds, they read the
same, answer the same and ask for the same powers.

* `Walk.Asks`          — the judgement for comparisons of two buffers at their cursors.
* `compareFields_asks` — by induction on the fields, for a whole key. The fields after the one that
  decides are not read, so nothing is asked for them.
* `Comparator.compare_asks`, `Comparator.less_asks` — the same for each comparator.
-/

namespace KeyOrder

open PowerTable (Asks Filled ask_append ask_filled)

/-! ## Fields -/

/-- Between any two cursors `use` gives one and the same result from every filled table, with the
same cursors, and it leaves the table that asking for some exponents leaves. -/
def Walk.Asks {α : Type} (use : Walk → α × Walk) : Prop :=
  ∀ a b : Cursor, ∃ result left right exponents, ∀ t, Filled t →
    use ⟨a, b, t⟩ = (result, ⟨left, right, t.ask exponents⟩)

theorem Walk.compareNext_asks {α : Type} {read : Decoder α}
    {order : α → α → PowerTable → Ordering × PowerTable}
    (horder : ∀ x y, ∃ exponents, PowerTable.Asks (order x y) exponents) :
    Walk.Asks (Walk.compareNext read order) := by
  intro a b
  cases hx : read a with
  | mk result left =>
  cases result with
  | error e => exact ⟨.error e, left, b, [], fun t _ => compareNext_left hx⟩
  | ok x =>
  cases hy : read b with
  | mk result right =>
  cases result with
  | error e => exact ⟨.error e, left, right, [], fun t _ => compareNext_right hx hy⟩
  | ok y =>
  obtain ⟨exponents, answer, huse⟩ := horder x y
  refine ⟨.ok answer, left, right, exponents, ?_⟩
  intro t ht
  rw [compareNext_ok hx hy, huse t ht]

theorem FieldType.orderNullable_asks (type : FieldType) (x y : Option type.Content) :
    ∃ exponents, Asks (type.orderNullable x y) exponents := by
  match x, y with
  | none, none => exact ⟨[], .pure _⟩
  | none, some _ => exact ⟨[], .pure _⟩
  | some _, none => exact ⟨[], .pure _⟩
  | some x, some y =>
    cases type with
    | decimal => exact ⟨_, EncodedDecimal.compare_asks x y⟩
    | _ => exact ⟨[], .pure _⟩

theorem FieldType.compare_asks (type : FieldType) : Walk.Asks type.compare :=
  Walk.compareNext_asks type.orderNullable_asks

/-! ## Keys -/

namespace Key

theorem compareFields_asks (fields : List FieldOrdering) : Walk.Asks (compareFields fields) := by
  induction fields with
  | nil => exact fun a b => ⟨.ok .eq, a, b, [], fun t _ => rfl⟩
  | cons field fields ih =>
    intro a b
    obtain ⟨result, left, right, exponents, hfield⟩ := field.type.compare_asks a b
    match result with
    | .error e =>
      refine ⟨.error e, left, right, exponents, ?_⟩
      intro t ht
      rw [compareFields, hfield t ht]
    | .ok .lt =>
      refine ⟨.ok (field.direction.apply .lt), left, right, exponents, ?_⟩
      intro t ht
      rw [compareFields, hfield t ht]
    | .ok .gt =>
      refine ⟨.ok (field.direction.apply .gt), left, right, exponents, ?_⟩
      intro t ht
      rw [compareFields, hfield t ht]
    | .ok .eq =>
      obtain ⟨result, left', right', others, hrest⟩ := ih left right
      refine ⟨result, left', right', exponents ++ others, ?_⟩
      intro t ht
      -- the fields after this one start from the table that it leaves
      rw [compareFields, hfield t ht, ask_append]
      exact hrest _ (ask_filled exponents ht).1

theorem compare_asks (fields : List FieldOrdering) (a b : Bytes) :
    ∃ exponents, Asks (Key.compare fields a b) exponents := by
  obtain ⟨result, left, right, exponents, hfields⟩ :=
    compareFields_asks fields (Cursor.start a) (Cursor.start b)
  refine ⟨exponents, result, ?_⟩
  intro t ht
  rw [Key.compare, Walk.start, hfields t ht]

theorem less_asks (fields : List FieldOrdering) (a b : Bytes) :
    ∃ exponents, Asks (Key.less fields a b) exponents := by
  obtain ⟨exponents, hcompare⟩ := compare_asks fields a b
  exact ⟨exponents, hcompare.map fun result => result.map Ordering.isLT⟩

end Key

/-! ## Comparators -/

namespace Comparator

theorem compare_asks (c : Comparator) (a b : Bytes) :
    ∃ exponents, Asks (c.compare a b) exponents := by
  cases c with
  | native less => exact ⟨[], .pure _⟩
  | key fields => exact Key.compare_asks fields a b

theorem less_asks (c : Comparator) (a b : Bytes) :
    ∃ exponents, Asks (c.less a b) exponents := by
  cases c with
  | native less => exact ⟨[], .pure _⟩
  | key fields => exact Key.less_asks fields a b

end Comparator
end KeyOrder
