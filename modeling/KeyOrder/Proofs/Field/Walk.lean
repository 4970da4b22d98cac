import Mathlib
import KeyOrder.Field.Order

/-!
# KeyOrder.Proofs.Field.Walk

The three outcomes of comparing the next values of two buffers: both can be read, the left one
cannot, or only the right one cannot.
-/

namespace KeyOrder
namespace Walk

variable {α : Type} {read : Decoder α} {order : α → α → PowerTable → Ordering × PowerTable}
  {w : Walk}

theorem compareNext_ok {a b : α} {left right : Cursor} (ha : read w.left = (.ok a, left))
    (hb : read w.right = (.ok b, right)) :
    w.compareNext read order =
      (.ok (order a b w.powers).1, ⟨left, right, (order a b w.powers).2⟩) := by
  unfold compareNext
  rw [ha]
  simp only [hb]

theorem compareNext_left {e : DecodeError} {left : Cursor} (ha : read w.left = (.error e, left)) :
    w.compareNext read order = (.error e, ⟨left, w.right, w.powers⟩) := by
  unfold compareNext
  rw [ha]

theorem compareNext_right {a : α} {e : DecodeError} {left right : Cursor}
    (ha : read w.left = (.ok a, left)) (hb : read w.right = (.error e, right)) :
    w.compareNext read order = (.error e, ⟨left, right, w.powers⟩) := by
  unfold compareNext
  rw [ha]
  simp only [hb]

theorem powers_compareNext (w : Walk) {a b : α} (ha : (read w.left).1 = .ok a)
    (hb : (read w.right).1 = .ok b) :
    (w.compareNext read order).2.powers = (order a b w.powers).2 := by
  rw [compareNext_ok (Prod.ext ha rfl) (Prod.ext hb rfl)]

/-- Only two values that can be read reach the table. -/
theorem powers_compareNext_of_error (w : Walk)
    (h : ∀ a b, (read w.left).1 = .ok a → (read w.right).1 ≠ .ok b) :
    (w.compareNext read order).2.powers = w.powers := by
  cases ha : (read w.left).1 with
  | error e => rw [compareNext_left (Prod.ext ha rfl)]
  | ok a =>
    cases hb : (read w.right).1 with
    | error e => rw [compareNext_right (Prod.ext ha rfl) (Prod.ext hb rfl)]
    | ok b => exact absurd hb (h a b ha)

end Walk
end KeyOrder
