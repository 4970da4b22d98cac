import KeyOrder.Natural.Mul

/-!
# KeyOrder.PowerTable

A table of powers of ten that is filled on demand and never forgets.

* `compactPowers`  — the twenty powers of ten that are 64-bit words.
* `PowerTable`     — slots in 27 segments; segment `k` has `2^(k+6)` slots, so that together they
  have one for every 32-bit exponent. A segment gets its slots when the first of them is filled.
* `PowerTable.get` — `10^e`. Asking for a power beyond the end fills every slot up to it, each
  with ten times the one before.

A slot that is filled keeps its number, and the slots below `populated` are the filled ones.
-/

namespace KeyOrder

/-- The powers of ten below `2^64`, `10^0` to `10^19`. -/
def compactPowers : List UInt64 :=
  [1, 10, 100, 1000, 10000, 100000, 1000000, 10000000, 100000000, 1000000000, 10000000000,
   100000000000, 1000000000000, 10000000000000, 100000000000000, 1000000000000000,
   10000000000000000, 100000000000000000, 1000000000000000000, 10000000000000000000]

def compactPower? (exponent : UInt32) : Option UInt64 := compactPowers[exponent.toNat]?

/-- The largest exponent whose power of ten is a 64-bit word. -/
def maxCompactExponent : Nat := compactPowers.length - 1

structure Slot where
  segment : Nat
  offset : Nat
  deriving DecidableEq, Repr

structure PowerTable where
  segments : Array (Array (Option Natural))
  /-- Slots filled so far. -/
  populated : Nat
  deriving DecidableEq, Repr

namespace PowerTable

def segmentCount : Nat := 27

def segmentSize (segment : Nat) : Nat := 1 <<< (segment + 6)

/-- The slot of `10^index`: the leading binary digit of `index + 64` tells the segment, and the
digits after it the offset. -/
def locate (index : Nat) : Slot :=
  let shifted := index + 64
  ⟨shifted.log2 - 6, shifted - 1 <<< shifted.log2⟩

/-- A table without slots. -/
def blank : PowerTable := ⟨Array.replicate segmentCount #[], 0⟩

def lookup (t : PowerTable) (index : Nat) : Option Natural :=
  let slot := locate index
  match t.segments[slot.segment]? with
  | some slots => (slots[slot.offset]?).join
  | none => none

/-- The slots of a segment that is to be used: if it has none yet, it gets all of them. -/
def allocate (segment : Nat) (slots : Array (Option Natural)) : Array (Option Natural) :=
  if slots.isEmpty then Array.replicate (segmentSize segment) none else slots

/-- Fills the slot of `10^index` with `power`, unless it is filled, and gives what it then holds. -/
def store (t : PowerTable) (index : Nat) (power : Natural) : Natural × PowerTable :=
  let slot := locate index
  let segments := t.segments.modify slot.segment fun slots =>
    (allocate slot.segment slots).modify slot.offset fun entry => entry.or (some power)
  ((t.lookup index).getD power, { t with segments := segments })

/-- Fills `count` slots from `index` on, each with ten times what the one before holds, which is
`last` for the first of them. Gives what the last one holds. -/
def fill (t : PowerTable) (last : Natural) (index : Nat) : Nat → Natural × PowerTable
  | 0 => (last, t)
  | count + 1 =>
    let (next, t) := t.store index (last.mulLimb 10)
    t.fill next (index + 1) count

/-- Fills every slot up to that of `10^index`, starting from the last filled one, and gives
`10^index`. -/
def extendTo (t : PowerTable) (index : Nat) : Natural × PowerTable :=
  match t.lookup (t.populated - 1) with
  | some last =>
    let (power, filled) := t.fill last t.populated (index + 1 - t.populated)
    (power, { filled with populated := index + 1 })
  | none => (Natural.zero, t)

/-- The power `10^exponent`. -/
def get (t : PowerTable) (exponent : UInt32) : Natural × PowerTable :=
  match t.lookup exponent.toNat with
  | some power => (power, t)
  | none => t.extendTo exponent.toNat

/-- The table of the compact powers. -/
def new : PowerTable :=
  let filled :=
    compactPowers.zipIdx.foldl (fun t p => (t.store p.2 (Natural.ofUInt64 p.1)).2) blank
  { filled with populated := compactPowers.length }

/-- A new table that is filled up to `10^exponent`. -/
def prefilled (exponent : UInt32) : PowerTable := (new.get exponent).2

def size (t : PowerTable) : Nat := t.populated

def isEmpty (t : PowerTable) : Bool := t.size == 0

/-- Big-endian bytes of `10^exponent`, the first of them not zero. -/
def bytes (t : PowerTable) (exponent : UInt32) : Bytes × PowerTable :=
  let (power, t) := t.get exponent
  (power.toBytes, t)

def describe (t : PowerTable) : String :=
  "PowerOfTenCache \x7b len: " ++ toString t.size ++ ", .. \x7d"

end PowerTable

end KeyOrder
