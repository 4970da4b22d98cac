import KeyOrder.Field.Read
import KeyOrder.Proofs.Checked.Cursor

/-!
# KeyOrder.Proofs.Checked.Field

Passing over fields with checked words, as `Checked.Cursor` reads their parts. A field of fixed
width is passed over by copying it, a string by the slice that it is.
-/

namespace KeyOrder
namespace Checked

open Reader (Agrees)

variable {α : Type}

/-- A presence byte, and after 1 what `content` reads. -/
def present (content : Reader α) : Reader (Option α) := do
  let flag ← byte
  if flag = Field.nullFlag then
    pure none
  else if flag = Field.presentFlag then do
    let a ← content
    pure (some a)
  else
    Reader.fail (.invalidPresence flag)

def string : Reader (Option Bytes) := do
  let length ← compactInt
  if length = Field.nullLength then
    pure none
  else if length < 0 then
    Reader.fail (.invalidLength length)
  else do
    let bytes ← take length.toUInt64
    pure (some bytes)

def skipFixed (width : UInt64) : Reader Unit := do
  let _ ← present do
    let _ ← array width
    pure ()
  pure ()

def skipString : Reader Unit := do
  let _ ← string
  pure ()

def skipDecimal : Reader Unit := do
  let _ ← decimal
  pure ()

def skipField : FieldType → Reader Unit
  | .boolean | .byte => skipFixed 1
  | .short => skipFixed 2
  | .int | .float | .date => skipFixed 4
  | .long | .double | .dateTime => skipFixed 8
  | .string => skipString
  | .decimal => skipDecimal

theorem present_agrees {content : Reader α} {d : Decoder α} (h : Agrees content d) :
    Agrees (present content) (Field.readPresent d) := by
  apply byte_agrees.bind
  intro flag
  by_cases hnull : flag = Field.nullFlag
  · rw [if_pos hnull, if_pos hnull]
    exact .pure none
  rw [if_neg hnull, if_neg hnull]
  by_cases hpresent : flag = Field.presentFlag
  · rw [if_pos hpresent, if_pos hpresent]
    exact h.bind fun _ => .pure _
  · rw [if_neg hpresent, if_neg hpresent]
    exact .fail _

theorem string_agrees : Agrees string Field.readString := by
  apply compactInt_agrees.bind
  intro length
  by_cases hnull : length = Field.nullLength
  · rw [if_pos hnull, if_pos hnull]
    exact .pure none
  rw [if_neg hnull, if_neg hnull]
  by_cases hneg : length < 0
  · rw [if_pos hneg, if_pos hneg]
    exact .fail _
  · have hword : length.toUInt64.toNat = length.toInt.toNat :=
      Int64.toNat_toUInt64_of_le (Int64.not_lt.mp hneg)
    rw [if_neg hneg, if_neg hneg, ← hword]
    exact (take_agrees _).bind fun _ => .pure _

theorem skipFixed_agrees (width : UInt64) :
    Agrees (skipFixed width) (Field.skipFixed width.toNat) :=
  (present_agrees ((array_agrees width).bind fun _ => .pure ())).bind fun _ => .pure ()

theorem skipDecimal_agrees : Agrees skipDecimal EncodedDecimal.skip :=
  decimal_agrees.bind fun _ => .pure ()

theorem skipField_agrees (t : FieldType) : Agrees (skipField t) t.skip := by
  cases t with
  | boolean | byte => exact skipFixed_agrees 1
  | short => exact skipFixed_agrees 2
  | int | float | date => exact skipFixed_agrees 4
  | long | double | dateTime => exact skipFixed_agrees 8
  | string => exact string_agrees.bind fun _ => .pure ()
  | decimal => exact skipDecimal_agrees

end Checked
end KeyOrder
