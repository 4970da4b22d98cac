import KeyOrder.Bytes.Basic

/-!
# KeyOrder.Natural.Basic

Natural numbers of any size as 32-bit limbs, least significant first. The last limb is never
zero and zero has no limbs, so each number has one form.

* `Natural.value`   — the number in `Nat`.
* `Natural.ofLimbs` — the number of any limbs, its zero limbs at the top dropped.
* `Natural.ofBytes`, `Natural.toBytes` — big-endian bytes; the written form has no leading zero.
* `Natural.bits`    — the binary length.
* `Natural.compare` — the binary lengths decide first, and of two numbers of one length the most
  significant limb that differs.
-/

namespace KeyOrder

/-- Binary digits of a number; zero has none. -/
def bitLength (n : Nat) : Nat := if n = 0 then 0 else n.log2 + 1

structure Natural where
  limbs : List UInt32
  top_ne_zero : limbs.getLast? ≠ some 0
  deriving DecidableEq, Repr

namespace Natural

/-- The number that limbs stand for. -/
def limbsValue : List UInt32 → Nat
  | [] => 0
  | limb :: limbs => limb.toNat + 4294967296 * limbsValue limbs

def value (n : Natural) : Nat := limbsValue n.limbs

/-- Limbs without the zero limbs at the top. -/
def trim : List UInt32 → List UInt32
  | [] => []
  | limb :: limbs =>
    match trim limbs with
    | [] => if limb = 0 then [] else [limb]
    | next :: higher => limb :: next :: higher

theorem getLast?_trim (limbs : List UInt32) : (trim limbs).getLast? ≠ some 0 := by
  induction limbs with
  | nil => simp [trim]
  | cons limb limbs ih =>
    simp only [trim]
    cases h : trim limbs with
    | nil =>
      by_cases hz : limb = 0
      · simp [hz]
      · simp [hz]
    | cons next higher =>
      rw [h] at ih
      simpa [List.getLast?_cons_cons] using ih

def ofLimbs (limbs : List UInt32) : Natural := ⟨trim limbs, getLast?_trim limbs⟩

def zero : Natural := ofLimbs []

def ofUInt64 (v : UInt64) : Natural := ofLimbs [v.toUInt32, (v >>> 32).toUInt32]

/-- Limbs of bytes that come least significant first. -/
def limbsOfBytes : List UInt8 → List UInt32
  | [] => []
  | a :: b :: c :: d :: higher => UInt32.ofNat (Bytes.value [d, c, b, a]) :: limbsOfBytes higher
  | few => [UInt32.ofNat (Bytes.value few.reverse)]

def ofBytes (bytes : Bytes) : Natural :=
  ofLimbs (limbsOfBytes (Bytes.significant bytes).reverse)

def isZero (n : Natural) : Bool := n.limbs.isEmpty

def bits (n : Natural) : Nat :=
  match n.limbs.getLast? with
  | none => 0
  | some top => 32 * (n.limbs.length - 1) + bitLength top.toNat

/-- The number as a 64-bit word, if it fits. -/
def toUInt64? (n : Natural) : Option UInt64 :=
  match n.limbs with
  | [] => some 0
  | [low] => some low.toUInt64
  | [low, high] => some ((high.toUInt64 <<< 32) ||| low.toUInt64)
  | _ => none

/-- Big-endian bytes, the first of them not zero. -/
def toBytes (n : Natural) : Bytes :=
  Bytes.significant (n.limbs.reverse.flatMap fun limb => Bytes.bigEndian 4 limb.toNat)

protected def compare (m n : Natural) : Ordering :=
  (compare m.bits n.bits).then (compare m.limbs.reverse n.limbs.reverse)

instance : Ord Natural where
  compare := Natural.compare

/-- Against a 64-bit word: a number that is no such word is greater. -/
def compareWord (n : Natural) (word : UInt64) : Ordering :=
  match n.toUInt64? with
  | some v => compare v word
  | none => .gt

/-- Whether a number is that of a 64-bit word. -/
def isWord (n : Natural) (word : UInt64) : Bool := n.compareWord word == .eq

end Natural

end KeyOrder
