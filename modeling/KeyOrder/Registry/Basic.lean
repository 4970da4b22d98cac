import KeyOrder.Config.Basic

/-!
# KeyOrder.Registry.Basic

Comparators of raw keys: native ones, which say whether one key comes before another and never
fail, and those over the fields of a key. A registry has comparators by name, and one power table
that all its comparisons share.

The three native comparators that come with a registry order keys by the signed integer in their
first four or eight bytes, least significant byte first, or bytewise. Keys too short for the
integer come before all others and are equal among themselves.
-/

namespace KeyOrder

/-- Whether the first key comes strictly before the second. -/
abbrev NativeLess := Bytes → Bytes → Bool

inductive Comparator where
  | native (less : NativeLess)
  | key (fields : List FieldOrdering)

namespace NativeLess

/-- Three-way order by asking both ways. -/
protected def compare (less : NativeLess) (a b : Bytes) : Ordering :=
  if less a b then .lt else if less b a then .gt else .eq

def int32At (key : Bytes) : Option Int32 :=
  if 4 ≤ key.length then some (Int32.ofNat (Bytes.value (key.take 4).reverse)) else none

def int64At (key : Bytes) : Option Int64 :=
  if 8 ≤ key.length then some (Int64.ofNat (Bytes.value (key.take 8).reverse)) else none

def int32 : NativeLess := fun a b => (compare (int32At a) (int32At b)).isLT

def int64 : NativeLess := fun a b => (compare (int64At a) (int64At b)).isLT

def bytes : NativeLess := fun a b => (compare a b).isLT

end NativeLess

namespace Comparator

protected def compare (c : Comparator) (a b : Bytes) (powers : PowerTable) :
    Except DecodeError Ordering × PowerTable :=
  match c with
  | native less => (.ok (less.compare a b), powers)
  | key fields => Key.compare fields a b powers

/-- Whether `a` comes strictly before `b`. -/
def less (c : Comparator) (a b : Bytes) (powers : PowerTable) :
    Except DecodeError Bool × PowerTable :=
  match c with
  | native less => (.ok (less a b), powers)
  | key fields => Key.less fields a b powers

/-- An order as a negative, zero or positive number. -/
def indicator : Ordering → Int
  | .lt => -1
  | .eq => 0
  | .gt => 1

end Comparator

structure Registry where
  comparators : NameTable Comparator
  powers : PowerTable

namespace Registry

/-- A registry without comparators over an existing table. -/
def ofPowers (powers : PowerTable) : Registry := ⟨NameTable.empty, powers⟩

def new : Registry := ofPowers PowerTable.new

def names (r : Registry) : List String := r.comparators.names

def size (r : Registry) : Nat := r.comparators.size

def isEmpty (r : Registry) : Bool := r.comparators.isEmpty

def get? (r : Registry) (name : String) : Option Comparator := r.comparators.find? name

def resolve (r : Registry) (name : String) : Except ConfigError Comparator :=
  match r.get? name with
  | some c => .ok c
  | none => .error (.unknownComparator name)

/-- What a comparator of the registry answers, with the registry that is left. -/
def compareWith (r : Registry) (c : Comparator) (a b : Bytes) :
    Except DecodeError Ordering × Registry :=
  let (result, powers) := c.compare a b r.powers
  (result, { r with powers := powers })

def lessWith (r : Registry) (c : Comparator) (a b : Bytes) :
    Except DecodeError Bool × Registry :=
  let (result, powers) := c.less a b r.powers
  (result, { r with powers := powers })

/-- Big-endian bytes of `10^exponent`, the first of them not zero. -/
def powerBytes (r : Registry) (exponent : UInt32) : Bytes × Registry :=
  let (bytes, powers) := r.powers.bytes exponent
  (bytes, { r with powers := powers })

end Registry

end KeyOrder
