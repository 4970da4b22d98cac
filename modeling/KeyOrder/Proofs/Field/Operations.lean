import KeyOrder.Proofs.Bytes.Plan
import KeyOrder.Proofs.Checked.Field

/-!
# KeyOrder.Proofs.Field.Operations

One cursor through any sequence of reads that goes on after failures.

* `Primitive`    — the reads that make one request. The number of bytes is any word.
* `Operation`    — these, and the reads that are put together from requests: compact integers,
  decimals, and passing over a decimal or a field of any type.
* `Cursor.after` — the cursor when the operations were run one after another, whatever each of them
  gave.

An operation moves the cursor forward and keeps it in the buffer (`Operation.forward`), so by
induction all of them do (`Cursor.forward_after`). Where one that fails leaves the cursor is told by
its plan. As the cursor stays in the buffer, each operation can be run with checked words from where
the ones before it have left it (`Cursor.fits_after`).
-/

namespace KeyOrder

open Cursor (Forward)

/-! ## Plans of the decoders -/

def CompactInt.planned : Planned CompactInt.read :=
  .bind .signedByte fun _ => .ite _ (.pure _) (.bind (.take _) fun _ => .pure _)

namespace EncodedDecimal

def plannedSignificand (compact : Bool) (unscaled : Int64) :
    Planned (readSignificand compact unscaled) :=
  .ite _ (.ite _ (.fail (.unscaled unscaled)) (.pure _))
    (.ite _ (.fail (.length unscaled)) (.bind (.take _) fun _ => .pure _))

def planned : Planned read :=
  .bind .byte fun _ => .ite _ (.pure none) <|
    .bind CompactInt.planned fun scale =>
      match exponentOfScale? scale with
      | none => .fail (.scale scale)
      | some _ =>
        .bind CompactInt.planned fun unscaled =>
          .bind (plannedSignificand _ unscaled) fun _ => .pure _

def plannedSkip : Planned skip := .bind planned fun _ => .pure ()

end EncodedDecimal

namespace Field

def plannedPresent {α : Type} {content : Decoder α} (p : Planned content) :
    Planned (readPresent content) :=
  .bind .byte fun flag =>
    .ite _ (.pure none) (.ite _ (.bind p fun _ => .pure _) (.fail (.presence flag)))

def plannedString : Planned readString :=
  .bind CompactInt.planned fun length =>
    .ite _ (.pure none) (.ite _ (.fail (.length length)) (.bind (.take _) fun _ => .pure _))

def plannedSkipFixed (width : Nat) : Planned (skipFixed width) :=
  .bind (plannedPresent (.skip width)) fun _ => .pure ()

end Field

def FieldType.planned : (t : FieldType) → Planned t.skip
  | boolean | byte => Field.plannedSkipFixed 1
  | short => Field.plannedSkipFixed 2
  | int | float | date => Field.plannedSkipFixed 4
  | long | double | dateTime => Field.plannedSkipFixed 8
  | string => .bind Field.plannedString fun _ => .pure ()
  | decimal => EncodedDecimal.plannedSkip

/-! ## Primitive reads -/

inductive Primitive where
  | byte
  | signedByte
  | take (n : UInt64)
  | array (n : UInt64)
  | skip (n : UInt64)

namespace Primitive

abbrev Value : Primitive → Type
  | byte => UInt8
  | signedByte => Int8
  | take _ | array _ => Bytes
  | skip _ => Unit

def decode : (p : Primitive) → Decoder p.Value
  | byte => Decoder.byte
  | signedByte => Decoder.signedByte
  | take n | array n => Decoder.take n.toNat
  | skip n => Decoder.skip n.toNat

def checked : (p : Primitive) → Checked.Reader p.Value
  | byte => Checked.byte
  | signedByte => Checked.signedByte
  | take n => Checked.take n
  | array n => Checked.array n
  | skip n => Checked.skip n

/-- The one request that is made. -/
def request : Primitive → Request
  | byte | signedByte => .byte
  | take n | array n | skip n => .block n.toNat

/-- What is made of the reply. -/
def ofReply : (p : Primitive) → p.request.Reply → p.Value
  | byte => id
  | signedByte => UInt8.toInt8
  | take _ | array _ => id
  | skip _ => fun _ => ()

def planned (p : Primitive) : Planned p.decode where
  plan := .read p.request fun reply => .done (p.ofReply reply)
  decode_plan := by
    cases p with
    | byte => exact Planned.byte.decode_plan
    | signedByte => rfl
    | take n | array n => exact (Planned.take n.toNat).decode_plan
    | skip n => rfl

theorem checked_agrees (p : Primitive) : Checked.Reader.Agrees p.checked p.decode := by
  cases p with
  | byte => exact Checked.byte_agrees
  | signedByte => exact Checked.signedByte_agrees
  | take n => exact Checked.take_agrees n
  | array n => exact Checked.array_agrees n
  | skip n => exact Checked.skip_agrees n

/-- A primitive read fails just if its bytes are not there, and then reads none. -/
theorem decode_error_iff (p : Primitive) (c : Cursor) (e : DecodeError) (c' : Cursor) :
    p.decode c = (.error e, c') ↔
      c.remaining < p.request.size ∧ e = p.request.shortage c ∧ c' = c := by
  rw [← p.planned.decode_plan, ← Request.decode_error_iff]
  simp only [planned, Plan.decode, Decoder.bind_apply]
  cases p.request.decode c with
  | mk result mid => cases result <;> simp

end Primitive

/-! ## Operations -/

inductive Operation where
  | primitive (p : Primitive)
  | compactInt
  | decimal
  | skipDecimal
  | skipField (t : FieldType)

namespace Operation

abbrev Value : Operation → Type
  | primitive p => p.Value
  | compactInt => Int64
  | decimal => Option EncodedDecimal
  | skipDecimal | skipField _ => Unit

def decode : (o : Operation) → Decoder o.Value
  | primitive p => p.decode
  | compactInt => CompactInt.read
  | decimal => EncodedDecimal.read
  | skipDecimal => EncodedDecimal.skip
  | skipField t => t.skip

def checked : (o : Operation) → Checked.Reader o.Value
  | primitive p => p.checked
  | compactInt => Checked.compactInt
  | decimal => Checked.decimal
  | skipDecimal => Checked.skipDecimal
  | skipField t => Checked.skipField t

def planned : (o : Operation) → Planned o.decode
  | primitive p => p.planned
  | compactInt => CompactInt.planned
  | decimal => EncodedDecimal.planned
  | skipDecimal => EncodedDecimal.plannedSkip
  | skipField t => t.planned

def plan (o : Operation) : Plan o.Value := o.planned.plan

theorem decode_plan (o : Operation) : o.plan.decode = o.decode := o.planned.decode_plan

theorem checked_agrees (o : Operation) : Checked.Reader.Agrees o.checked o.decode := by
  cases o with
  | primitive p => exact p.checked_agrees
  | compactInt => exact Checked.compactInt_agrees
  | decimal => exact Checked.decimal_agrees
  | skipDecimal => exact Checked.skipDecimal_agrees
  | skipField t => exact Checked.skipField_agrees t

theorem forward (o : Operation) (c : Cursor) : Forward c (o.decode c).2 := by
  rw [← o.decode_plan]
  exact o.plan.forward c

theorem decode_error_iff (o : Operation) (c : Cursor) (e : DecodeError) (c' : Cursor) :
    o.decode c = (.error e, c') ↔ ∃ q, o.plan.Reaches c q c' ∧ q.FailsAt c' e := by
  rw [← o.decode_plan]
  exact o.plan.decode_error_iff c e c'

theorem of_bufferTooShort {o : Operation} {c c' : Cursor} {needed available : Nat}
    (h : o.decode c = (.error (.bufferTooShort needed available), c')) :
    available = c'.remaining ∧ available < needed ∧
      ∃ next, o.plan.Reaches c (.read (.block needed) next) c' := by
  obtain ⟨q, hreaches, hfails⟩ := (o.decode_error_iff _ _ _).mp h
  obtain ⟨⟨next, rfl⟩, rfl, hshort⟩ := hfails.of_bufferTooShort
  exact ⟨rfl, hshort, next, hreaches⟩

end Operation

/-! ## Sequences of operations -/

namespace Cursor

def after (c : Cursor) (operations : List Operation) : Cursor :=
  operations.foldl (fun c o => (o.decode c).2) c

theorem forward_after (operations : List Operation) :
    ∀ c : Cursor, Forward c (c.after operations) := by
  induction operations with
  | nil => exact .refl
  | cons o operations ih => exact fun c => (o.forward c).trans (ih _)

theorem after_inside (buffer : Bytes) (operations : List Operation) :
    ((start buffer).after operations).buffer = buffer ∧
      ((start buffer).after operations).position ≤ buffer.length := by
  obtain ⟨hbuffer, -, hinside⟩ := forward_after operations (start buffer)
  exact ⟨hbuffer, hinside (Nat.zero_le _)⟩

theorem fits_after {buffer : Bytes} (h : buffer.length < 2 ^ 63) (operations : List Operation) :
    ((start buffer).after operations).Fits := by
  obtain ⟨hbuffer, hposition⟩ := after_inside buffer operations
  constructor
  · rw [hbuffer]
    exact hposition
  · rw [hbuffer]
    exact h

/-- Whatever was run before on a buffer, and whatever of it failed: the cursor is in the buffer,
which is what was read and what is left; and later operations do not take it back. A primitive read
fails just if its bytes are not there, with the error that says so, and leaves the cursor where it
was. Any operation fails just where its plan gets to a request that is not met, or to a violation
after all the requests before it, and that is where it leaves the cursor; a block is found too short
with the number of bytes that were asked for and of those that are left, which are fewer. If the
buffer is that of a byte string in memory no sum, difference or slice is out of range. -/
theorem after_operations {buffer : Bytes} {operations : List Operation} {c : Cursor}
    (hc : (start buffer).after operations = c) :
    c.buffer = buffer ∧ c.position ≤ buffer.length ∧
    c.position + c.remaining = buffer.length ∧ c.rest = buffer.drop c.position ∧
    (∀ later, c.position ≤ (c.after later).position) ∧
    (∀ (p : Primitive) e c', p.decode c = (.error e, c') ↔
      c.remaining < p.request.size ∧ e = p.request.shortage c ∧ c' = c) ∧
    (∀ o : Operation, o.plan.decode = o.decode ∧
      ∀ e c', o.decode c = (.error e, c') ↔ ∃ q, o.plan.Reaches c q c' ∧ q.FailsAt c' e) ∧
    (∀ (o : Operation) needed available c',
      o.decode c = (.error (.bufferTooShort needed available), c') →
        available = c'.remaining ∧ available < needed ∧
          ∃ next, o.plan.Reaches c (.read (.block needed) next) c') ∧
    (buffer.length < 2 ^ 63 →
      (∃ left, Checked.remaining c = some left ∧ left.toNat = c.remaining) ∧
      Checked.rest c = some c.rest ∧ ∀ o : Operation, o.checked c = some (o.decode c)) := by
  obtain ⟨hbuffer, hposition⟩ := after_inside buffer operations
  rw [hc] at hbuffer hposition
  refine ⟨hbuffer, hposition, ?_, ?_, ?_, ?_, ?_, ?_, ?_⟩
  · rw [remaining, hbuffer]
    exact Nat.add_sub_cancel' hposition
  · rw [rest, hbuffer]
  · intro later
    exact (forward_after later c).position
  · intro p
    exact p.decode_error_iff c
  · intro o
    exact ⟨o.decode_plan, o.decode_error_iff c⟩
  · intro o needed available c'
    exact Operation.of_bufferTooShort
  · intro hsized
    have hfits : c.Fits := hc ▸ fits_after hsized operations
    exact ⟨Checked.remaining_eq hfits, Checked.rest_eq hfits,
      fun o => (o.checked_agrees c hfits).1⟩

/-- After the greatest of all lengths, and an integer of three bytes of which one is missing, the
cursor is at the byte after the head. -/
theorem after_operations_greatest_length :
    ((start [0x8e, 1]).after [.primitive (.take 0xffffffffffffffff), .compactInt]).rest = [1] ∧
      Checked.skip 0xffffffffffffffff ⟨[0x8e, 1], 1⟩ =
        some (.error (.bufferTooShort 18446744073709551615 1), ⟨[0x8e, 1], 1⟩) := by
  have hc : (start [0x8e, 1]).after [.primitive (.take 0xffffffffffffffff), .compactInt] =
      ⟨[0x8e, 1], 1⟩ := by decide
  obtain ⟨-, -, -, hrest, -, hprimitive, -, -, hchecked⟩ := after_operations hc
  refine ⟨by rw [hc, hrest]; rfl, ?_⟩
  obtain ⟨-, -, hskip⟩ := hchecked (by decide)
  refine (hskip (.primitive (.skip 0xffffffffffffffff))).trans (congrArg some ?_)
  exact (hprimitive (.skip 0xffffffffffffffff) _ _).mpr ⟨by decide, rfl, rfl⟩

end Cursor
end KeyOrder
