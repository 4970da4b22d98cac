import KeyOrder.Bytes.Cursor

/-!
# KeyOrder.CompactInt

Signed 64-bit integers in one to nine bytes. The first byte, the head, tells the size:

* `-112 … 127`          — the head is the integer;
* head `-112 - n`       — `n` payload bytes spell the integer (it is not negative);
* head `-120 - n`       — `n` payload bytes spell the complement of the integer (it is negative).

`encode` uses the fewest payload bytes. `read` takes any number of them, and reads eight payload
bytes as one two's complement word.
-/

namespace KeyOrder

namespace CompactInt

/-- Bytes an integer takes in all, told by its head. -/
def size (head : Int8) : Nat :=
  if -112 ≤ head then 1
  else if head < -120 then (-119 - head.toInt).toNat
  else (-111 - head.toInt).toNat

/-- Whether the payload after `head` is complemented. -/
def isNegative (head : Int8) : Bool :=
  decide (head < -120) || (decide (-112 ≤ head) && decide (head < 0))

/-- The integer that `payload` spells after a head of the given sign. -/
def ofPayload (negative : Bool) (payload : Bytes) : Int64 :=
  let word := Int64.ofNat payload.value
  if negative then ~~~word else word

def read : Decoder Int64 := do
  let head ← Decoder.signedByte
  if size head = 1 then
    pure head.toInt64
  else
    let payload ← Decoder.take (size head - 1)
    pure (ofPayload (isNegative head) payload)

/-- Payload bytes that spell `word`, which is not zero. -/
def payloadSize (word : UInt64) : Nat := word.toNat.log2 / 8 + 1

def encode (v : Int64) : Bytes :=
  if -112 ≤ v ∧ v ≤ 127 then
    [v.toInt8.toUInt8]
  else
    let word := (if v < 0 then ~~~v else v).toUInt64
    let base : Int := if v < 0 then -120 else -112
    let n := payloadSize word
    (Int8.ofInt (base - n)).toUInt8 :: Bytes.bigEndian n word.toNat

end CompactInt

end KeyOrder
