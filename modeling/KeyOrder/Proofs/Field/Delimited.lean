import KeyOrder.CompactInt
import KeyOrder.Proofs.Bytes.Delimited
import KeyOrder.Proofs.Field.Skipping
import KeyOrder.Proofs.Key.Requests

/-!
# KeyOrder.Proofs.Field.Delimited

Every field tells where it ends (`read_delimited`, `skip_delimited`). A length that a field
announces is read before the bytes it counts, and a field cut short is cut in one of its reads, so
it is never taken for a shorter one.

What two fields are compared by is then told by their bytes alone: `compare_of_reads` finds one
order for them, wherever they stand and whatever the table holds.
-/

namespace KeyOrder

open Decoder (Reads Delimited)
open PowerTable (Filled ask_filled)

theorem CompactInt.read_delimited : Delimited CompactInt.read := by
  apply Delimited.signedByte.bind
  intro head
  by_cases hsize : size head = 1
  · rw [if_pos hsize]
    exact .pure _
  · rw [if_neg hsize]
    exact (Delimited.take _).bind fun _ => .pure _

namespace Field

theorem readPresent_delimited {α : Type} {content : Decoder α} (h : Delimited content) :
    Delimited (readPresent content) := by
  apply Delimited.byte.bind
  intro flag
  by_cases hnull : flag = nullFlag
  · rw [if_pos hnull]
    exact .pure none
  rw [if_neg hnull]
  by_cases hpresent : flag = presentFlag
  · rw [if_pos hpresent]
    exact h.bind fun _ => .pure _
  · rw [if_neg hpresent]
    exact .fail _

theorem readFixed_delimited {α : Type} (width : Nat) (ofNat : Nat → α) :
    Delimited (readFixed width ofNat) :=
  readPresent_delimited ((Delimited.take width).bind fun _ => .pure _)

theorem readString_delimited : Delimited readString := by
  apply CompactInt.read_delimited.bind
  intro length
  by_cases hnull : length = nullLength
  · rw [if_pos hnull]
    exact .pure none
  rw [if_neg hnull]
  by_cases hneg : length < 0
  · rw [if_pos hneg]
    exact .fail _
  · rw [if_neg hneg]
    exact (Delimited.take _).bind fun _ => .pure _

end Field

namespace EncodedDecimal

theorem readSignificand_delimited (compact : Bool) (unscaled : Int64) :
    Delimited (readSignificand compact unscaled) := by
  unfold readSignificand
  split
  · split
    · exact .fail _
    · exact .pure _
  · split
    · exact .fail _
    · exact (Delimited.take _).bind fun _ => .pure _

theorem read_delimited : Delimited read := by
  apply Delimited.byte.bind
  intro header
  by_cases hnull : header = nullHeader
  · rw [if_pos hnull]
    exact .pure none
  rw [if_neg hnull]
  apply CompactInt.read_delimited.bind
  intro scale
  cases exponentOfScale? scale with
  | none => exact .fail _
  | some exponent =>
    apply CompactInt.read_delimited.bind
    intro unscaled
    exact (readSignificand_delimited _ unscaled).bind fun _ => .pure _

end EncodedDecimal

namespace FieldType

theorem read_delimited (t : FieldType) : Delimited t.read := by
  cases t with
  | string => exact Field.readString_delimited
  | decimal => exact EncodedDecimal.read_delimited
  | _ => exact Field.readFixed_delimited _ _

theorem skip_delimited (t : FieldType) : Delimited t.skip := by
  rw [skip_eq]
  exact t.read_delimited.bind fun _ => .pure ()

/-- One order for two fields, told by their bytes. -/
theorem compare_of_reads {t : FieldType} {first second : Bytes} {x y : Option t.Content}
    (hx : Reads t.read first x) (hy : Reads t.read second y) :
    ∃ o, ∀ (w : Walk) (rest rest' : Bytes), w.left.rest = first ++ rest →
      w.right.rest = second ++ rest' → Filled w.powers →
      ∃ powers, Filled powers ∧ t.compare w =
        (.ok o, ⟨w.left.advance first.length, w.right.advance second.length, powers⟩) := by
  obtain ⟨exponents, o, horder⟩ := t.orderNullable_asks x y
  refine ⟨o, ?_⟩
  intro w rest rest' hleft hright hpowers
  refine ⟨w.powers.ask exponents, (ask_filled exponents hpowers).1, ?_⟩
  have hcompare : t.compare w = (.ok (t.orderNullable x y w.powers).1, ⟨_, _, _⟩) :=
    Walk.compareNext_ok (hx w.left rest hleft) (hy w.right rest' hright)
  rw [horder w.powers hpowers] at hcompare
  exact hcompare

end FieldType
end KeyOrder
