/-!
# KeyOrder.Bytes.Basic

Byte strings, the unsigned numbers they spell, most significant byte first, and writing them.

* `Bytes.value`        — the number a byte string spells; leading zero bytes do not count.
* `Bytes.significant`  — the string without its leading zero bytes.
* `Bytes.bigEndian`    — the low bytes of a number, at a fixed width.
* `Bytes.ofString`     — the UTF-8 form of a text.
* `Writer`             — a run of writes at the end of a buffer, as what it makes of the buffer;
  `Writer.byte` and `Writer.bytes` are the two primitive writes.

Byte strings are ordered by `compare`: the first differing byte decides, and a proper prefix
comes before what it begins.
-/

namespace KeyOrder

abbrev Bytes := List UInt8

namespace Bytes

/-- The unsigned number spelled by the bytes, most significant first. -/
def value (bytes : Bytes) : Nat :=
  bytes.foldl (fun v byte => 256 * v + byte.toNat) 0

/-- The bytes from the first non-zero one on. -/
def significant (bytes : Bytes) : Bytes :=
  bytes.dropWhile (· == 0)

/-- The low `n` bytes of `v`, most significant first. -/
def bigEndian : Nat → Nat → Bytes
  | 0, _ => []
  | n + 1, v => bigEndian n (v / 256) ++ [UInt8.ofNat v]

def ofString (text : String) : Bytes :=
  text.toByteArray.data.toList

@[simp] theorem value_nil : value [] = 0 := rfl

theorem value_append_byte (bytes : Bytes) (byte : UInt8) :
    value (bytes ++ [byte]) = 256 * value bytes + byte.toNat := by
  simp [value, List.foldl_append]

@[simp] theorem length_bigEndian (n v : Nat) : (bigEndian n v).length = n := by
  induction n generalizing v with
  | zero => rfl
  | succ n ih => simp [bigEndian, ih]

@[simp] theorem value_zero_cons (bytes : Bytes) : value (0 :: bytes) = value bytes := rfl

@[simp] theorem value_significant (bytes : Bytes) : value (significant bytes) = value bytes := by
  induction bytes with
  | nil => rfl
  | cons byte bytes ih =>
    by_cases h : byte = 0
    · subst h; exact ih
    · simp [significant, h]

end Bytes

abbrev Writer : Type := StateM Bytes Unit

namespace Writer

def byte (b : UInt8) : Writer := modify fun buffer => buffer ++ [b]

def bytes (added : Bytes) : Writer := modify fun buffer => buffer ++ added

/-- The buffer when the run is over. -/
def after (w : Writer) (buffer : Bytes) : Bytes := (w.run buffer).2

end Writer

end KeyOrder
