/-!
# KeyOrder.Field.FloatBits

Binary floating-point numbers as bit patterns: a sign bit, an exponent field and a fraction
field.

* `FloatBits.widen`   — the 64-bit pattern of the number of a 32-bit pattern.
* `FloatBits.rank`    — a signed word whose order is the order of 64-bit patterns: the pattern
  itself if its sign bit is clear, and otherwise with all other bits flipped.
* `FloatBits.compare` — by rank, where every pattern that is not a number counts as one and the
  same, above infinity. Zero with a sign is below zero without.
-/

namespace KeyOrder

namespace FloatBits

def infinity : UInt64 := 0x7ff0000000000000

/-- The pattern that stands for all that are not numbers. -/
def quietNaN : UInt64 := 0x7ff8000000000000

/-- The sign of the number does not matter here. -/
def isNaN (bits : UInt64) : Bool := infinity < bits &&& 0x7fffffffffffffff

def canonical (bits : UInt64) : UInt64 := if isNaN bits then quietNaN else bits

/-- The magnitude of a 32-bit subnormal `fraction`, which is not zero: its leading digit becomes
the implicit one. -/
def widenSubnormal (fraction : UInt64) : UInt64 :=
  let top := fraction.log2
  ((top + 874) <<< 52) ||| ((fraction - (1 <<< top)) <<< (52 - top))

/-- The magnitude of a 32-bit pattern without its sign bit. The exponent fields differ by 896,
that of the infinities apart. -/
def widenMagnitude (magnitude : UInt64) : UInt64 :=
  let field := magnitude >>> 23
  let fraction := magnitude &&& 0x7fffff
  if field = 0 then
    if fraction = 0 then 0 else widenSubnormal fraction
  else if field = 255 then
    infinity ||| (fraction <<< 29)
  else
    ((field + 896) <<< 52) ||| (fraction <<< 29)

def widen (bits : UInt32) : UInt64 :=
  let sign := (bits >>> 31).toUInt64 <<< 63
  sign ||| widenMagnitude (bits &&& 0x7fffffff).toUInt64

def rank (bits : UInt64) : Int64 :=
  if bits >>> 63 = 0 then bits.toInt64 else (bits ^^^ 0x7fffffffffffffff).toInt64

protected def compare (a b : UInt64) : Ordering :=
  Ord.compare (rank (canonical a)) (rank (canonical b))

end FloatBits

end KeyOrder
