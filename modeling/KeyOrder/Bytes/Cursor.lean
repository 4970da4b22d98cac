import KeyOrder.Bytes.Basic

/-!
# KeyOrder.Bytes.Cursor

Reading forward through a buffer.

* `DecodeError`     — why a value cannot be read. Each constructor is a cause and carries what the
  cause is about; `message` is its wording.
* `Cursor`          — a buffer and the offset of its next unread byte.
* `Decoder α`       — a read: it gives an `α` or the cause of its failure, and in both cases the
  cursor it leaves behind.
* `Decoder.byte`, `Decoder.take` — the two primitive reads. Both consume nothing when they fail.

A sequence of reads stops at the first that fails and keeps what the ones before it consumed, so
the cursor of a failed read stands where its failing primitive read began.
-/

namespace KeyOrder

inductive DecodeError where
  /-- A single byte was wanted and none is left. -/
  | unexpectedEnd
  /-- A block of `needed` bytes was wanted and only `available` are left. -/
  | bufferTooShort (needed available : Nat)
  /-- A presence byte is neither 0 nor 1. -/
  | invalidPresence (flag : UInt8)
  /-- A length is negative. -/
  | invalidLength (length : Int64)
  /-- A magnitude stored inline is negative. -/
  | negativeUnscaled (unscaled : Int64)
  /-- A scale whose negation is no 32-bit exponent. -/
  | scaleOutOfRange (scale : Int64)
  deriving DecidableEq, Repr

namespace DecodeError

/-- Two lower-case hexadecimal digits. -/
def hexDigits (byte : UInt8) : String :=
  String.ofList [Nat.digitChar (byte.toNat / 16), Nat.digitChar (byte.toNat % 16)]

def message : DecodeError → String
  | unexpectedEnd => "Unexpected end of input while decoding"
  | bufferTooShort needed available => s!"Buffer too short: need {needed} bytes, got {available}"
  | invalidPresence flag => "Invalid presence flag: 0x" ++ hexDigits flag
  | invalidLength length => s!"Invalid length: {length.toInt}"
  | negativeUnscaled unscaled =>
    s!"Negative unscaled value in compact decimal: {unscaled.toInt}"
  | scaleOutOfRange scale => s!"Decimal scale {scale.toInt} does not fit a 32-bit exponent"

end DecodeError

structure Cursor where
  buffer : Bytes
  position : Nat
  deriving DecidableEq, Repr

namespace Cursor

/-- At the first byte of a buffer. -/
def start (buffer : Bytes) : Cursor := ⟨buffer, 0⟩

/-- The unread bytes. -/
def rest (c : Cursor) : Bytes := c.buffer.drop c.position

def remaining (c : Cursor) : Nat := c.buffer.length - c.position

def advance (c : Cursor) (n : Nat) : Cursor := { c with position := c.position + n }

@[simp] theorem length_rest (c : Cursor) : c.rest.length = c.remaining := by
  simp [rest, remaining]

@[simp] theorem rest_advance (c : Cursor) (n : Nat) : (c.advance n).rest = c.rest.drop n := by
  simp [rest, advance, List.drop_drop]

end Cursor

def Decoder (α : Type) : Type := Cursor → Except DecodeError α × Cursor

namespace Decoder

variable {α β : Type}

/-- Reads nothing and gives `a`. -/
protected def pure (a : α) : Decoder α := fun c => (.ok a, c)

/-- Reads what `d` reads, then what `next` reads after it. -/
protected def bind (d : Decoder α) (next : α → Decoder β) : Decoder β := fun c =>
  match d c with
  | (.ok a, c') => next a c'
  | (.error e, c') => (.error e, c')

instance : Monad Decoder where
  pure := Decoder.pure
  bind := Decoder.bind

/-- Reads nothing and fails. -/
def fail (e : DecodeError) : Decoder α := fun c => (.error e, c)

/-- The next byte. -/
def byte : Decoder UInt8 := fun c =>
  match c.rest with
  | b :: _ => (.ok b, c.advance 1)
  | [] => (.error .unexpectedEnd, c)

/-- The next byte, as a signed number. -/
def signedByte : Decoder Int8 := do
  let b ← byte
  pure b.toInt8

/-- The next `n` bytes. -/
def take (n : Nat) : Decoder Bytes := fun c =>
  if n ≤ c.remaining then
    (.ok (c.rest.take n), c.advance n)
  else
    (.error (.bufferTooShort n c.remaining), c)

/-- Passes over the next `n` bytes. -/
def skip (n : Nat) : Decoder Unit := do
  let _ ← take n
  pure ()

@[simp] theorem pure_apply (a : α) (c : Cursor) : (pure a : Decoder α) c = (.ok a, c) := rfl

theorem bind_apply (d : Decoder α) (next : α → Decoder β) (c : Cursor) :
    (d >>= next) c =
      match d c with
      | (.ok a, c') => next a c'
      | (.error e, c') => (.error e, c') := rfl

@[simp] theorem fail_apply (e : DecodeError) (c : Cursor) :
    (fail e : Decoder α) c = (.error e, c) := rfl

end Decoder

end KeyOrder
