import KeyOrder.Proofs.Checked.Product
import KeyOrder.Proofs.Natural.Bytes

/-!
# KeyOrder.Proofs.Natural.Construction

Naturals by the way they were made, from zero, words and bytes by products. A `Construction` has a
number in `Nat`, worked out with the numbers of its parts, and a natural, worked out with limbs.
The natural is that of the number (`value_natural`), so order and equality of naturals, which look
at limbs, are those of the numbers (`constructed_compare_exact`).

With checks, a natural is made of its limbs as they come and only products are trimmed: `untrimmed`
refuses a zero limb at the top. A comparison refuses to look at the limbs of two naturals of one
binary length unless there are equally many. Nothing is refused.
-/

namespace KeyOrder

namespace Checked

/-! ## Making and comparing, with checks -/

/-- The natural of limbs that are to stay as they are. -/
def untrimmed (limbs : List UInt32) : Option Natural :=
  if h : limbs.getLast? ≠ some 0 then some ⟨limbs, h⟩ else none

/-- Two limbs, one or none, as the word needs. -/
def limbsOfWord (v : UInt64) : List UInt32 :=
  if (v >>> 32).toUInt32 ≠ 0 then [v.toUInt32, (v >>> 32).toUInt32]
  else if v.toUInt32 ≠ 0 then [v.toUInt32] else []

/-- Binary lengths first; of one binary length the limbs, of which there have to be equally many. -/
def compareTo (m n : Natural) : Option Ordering := do
  let mBits ← bits m
  let nBits ← bits n
  match compare mBits nBits with
  | .eq =>
    if m.limbs.length = n.limbs.length then
      some (compare m.limbs.reverse n.limbs.reverse)
    else
      none
  | unequal => some unequal

@[simp] theorem untrimmed_limbs (n : Natural) : untrimmed n.limbs = some n := dif_pos n.top_ne_zero

theorem compareTo_eq {m n : Natural} (hm : m.limbs.length < 2 ^ 58) (hn : n.limbs.length < 2 ^ 58) :
    compareTo m n = some (compare m n) := by
  have horder : compare m n = (compare m.bits n.bits).then
      (compare m.limbs.reverse n.limbs.reverse) := rfl
  have hbits : compare m.bits.toUInt64 n.bits.toUInt64 = compare m.bits n.bits := by
    rw [compare_toNat64, toNat_bits hm, toNat_bits hn]
  simp only [compareTo, bits_eq hm, bits_eq hn, Option.bind_eq_bind, Option.bind_some, hbits]
  cases h : compare m.bits n.bits with
  | lt => rw [horder, h]; rfl
  | gt => rw [horder, h]; rfl
  | eq =>
    have hlength := Natural.length_limbs_of_bits_eq (compare_eq_iff_eq.mp h)
    rw [horder, h]
    exact if_pos hlength

end Checked

namespace Natural

/-! ## Constructions -/

inductive Construction where
  | zero
  | word (v : UInt64)
  | bytes (magnitude : Bytes)
  | mul (a b : Construction)
  | mulLimb (a : Construction) (k : UInt32)

namespace Construction

def natural : Construction → Natural
  | zero => Natural.zero
  | word v => ofUInt64 v
  | bytes magnitude => ofBytes magnitude
  | mul a b => a.natural.mul b.natural
  | mulLimb a k => a.natural.mulLimb k

/-- The number that should come out. -/
def number : Construction → Nat
  | zero => 0
  | word v => v.toNat
  | bytes magnitude => magnitude.value
  | mul a b => a.number * b.number
  | mulLimb a k => a.number * k.toNat

/-- As `natural`, with every check. -/
def checked : Construction → Option Natural
  | zero => Checked.untrimmed []
  | word v => Checked.untrimmed (Checked.limbsOfWord v)
  | bytes magnitude => do
    let limbs ← Checked.limbsOfBytes (Bytes.significant magnitude).reverse
    Checked.untrimmed limbs
  | mul a b => do
    let m ← a.checked
    let n ← b.checked
    Checked.multiply m n
  | mulLimb a k => do
    let m ← a.checked
    Checked.multiplyLimb m k

/-- All naturals on the way have fewer than `2^54` limbs. -/
def Sized : Construction → Prop
  | mul a b => a.Sized ∧ b.Sized ∧ (a.natural.mul b.natural).limbs.length < 2 ^ 54
  | mulLimb a k => a.Sized ∧ (a.natural.mulLimb k).limbs.length < 2 ^ 54
  | x => x.natural.limbs.length < 2 ^ 54

instance instDecidableSized : (x : Construction) → Decidable x.Sized
  | zero => inferInstanceAs (Decidable (zero.natural.limbs.length < 2 ^ 54))
  | word v => inferInstanceAs (Decidable ((word v).natural.limbs.length < 2 ^ 54))
  | bytes magnitude => inferInstanceAs (Decidable ((bytes magnitude).natural.limbs.length < 2 ^ 54))
  | mul a b =>
    @instDecidableAnd _ _ (instDecidableSized a)
      (@instDecidableAnd _ _ (instDecidableSized b)
        (inferInstanceAs (Decidable ((a.natural.mul b.natural).limbs.length < 2 ^ 54))))
  | mulLimb a k =>
    @instDecidableAnd _ _ (instDecidableSized a)
      (inferInstanceAs (Decidable ((a.natural.mulLimb k).limbs.length < 2 ^ 54)))

theorem value_natural (x : Construction) : x.natural.value = x.number := by
  induction x with
  | zero => rfl
  | word v => exact value_ofUInt64 v
  | bytes magnitude => exact value_ofBytes magnitude
  | mul a b iha ihb => rw [natural, value_mul, iha, ihb, number]
  | mulLimb a k ih => rw [natural, value_mulLimb, ih, number]

theorem Sized.limbs_lt {x : Construction} (h : x.Sized) : x.natural.limbs.length < 2 ^ 54 := by
  cases x with
  | zero | word v | bytes magnitude => exact h
  | mul a b => exact h.2.2
  | mulLimb a k => exact h.2

/-- What is made keeps the form that the next product relies on. -/
theorem checked_eq {x : Construction} (h : x.Sized) : x.checked = some x.natural := by
  induction x with
  | zero => rfl
  | word v =>
    rw [checked, Checked.limbsOfWord, ← limbs_ofUInt64, Checked.untrimmed_limbs, natural]
  | bytes magnitude =>
    rw [checked, Checked.limbsOfBytes_eq, ← limbs_ofBytes]
    exact Checked.untrimmed_limbs (ofBytes magnitude)
  | mul a b iha ihb =>
    have ha := h.1.limbs_lt
    have hb := h.2.1.limbs_lt
    rw [checked, iha h.1, ihb h.2.1]
    exact Checked.multiply_eq (by omega) (by omega)
  | mulLimb a k ih =>
    have ha := h.1.limbs_lt
    rw [checked, ih h.1]
    exact Checked.multiplyLimb_eq (by omega) k

end Construction

/-! ## Order and equality -/

theorem limbs_eq_iff (m n : Natural) : m.limbs = n.limbs ↔ m.value = n.value := by
  constructor
  · intro h
    rw [value, value, h]
  · intro h
    rw [value_injective h]

theorem isWord_iff (n : Natural) (word : UInt64) : n.isWord word = true ↔ n.value = word.toNat := by
  rw [isWord, compareWord_eq, beq_iff_eq, compare_eq_iff_eq]

/-- Two naturals, however they were made, are ordered as the numbers that should have come out, and
have the same limbs exactly if these are equal. If their binary lengths are equal they have equally
many limbs. Against a word a natural is ordered, and equal or not, as against the natural of that
word. While limbs are counted in `2^54` no check fails, neither on the way nor in the comparison. -/
theorem constructed_compare_exact (x y : Construction) (v : UInt64) :
    compare x.natural y.natural = compare x.number y.number ∧
    (x.natural.limbs = y.natural.limbs ↔ x.number = y.number) ∧
    (x.natural.bits = y.natural.bits → x.natural.limbs.length = y.natural.limbs.length) ∧
    x.natural.compareWord v = compare x.natural (ofUInt64 v) ∧
    x.natural.compareWord v = compare x.number v.toNat ∧
    (x.natural.isWord v = true ↔ x.natural.limbs = (ofUInt64 v).limbs) ∧
    (x.natural.isWord v = true ↔ x.number = v.toNat) ∧
    (x.Sized → y.Sized → x.checked = some x.natural ∧ y.checked = some y.natural ∧
      Checked.compareTo x.natural y.natural = some (compare x.number y.number)) := by
  have horder : compare x.natural y.natural = compare x.number y.number := by
    rw [compare_eq, x.value_natural, y.value_natural]
  refine ⟨horder, ?_, length_limbs_of_bits_eq, ?_, ?_, ?_, ?_, ?_⟩
  · rw [limbs_eq_iff, x.value_natural, y.value_natural]
  · rw [compareWord_eq, compare_eq, value_ofUInt64]
  · rw [compareWord_eq, x.value_natural]
  · rw [isWord_iff, limbs_eq_iff, value_ofUInt64]
  · rw [isWord_iff, x.value_natural]
  · intro hx hy
    have hxlimbs := hx.limbs_lt
    have hylimbs := hy.limbs_lt
    refine ⟨Construction.checked_eq hx, Construction.checked_eq hy, ?_⟩
    rw [Checked.compareTo_eq (by omega) (by omega), horder]

/-- `2^32 * 2^32`, one of them with a zero byte in front, against the greatest word times one: three
limbs against two that are full. -/
theorem constructed_compare_exact_word_end :
    let greatest := UInt64.ofNat (2 ^ 64 - 1)
    let x : Construction := .mul (.bytes [0, 1, 0, 0, 0, 0]) (.word 4294967296)
    let y : Construction := .mulLimb (.word greatest) 1
    x.Sized ∧ y.Sized ∧ Checked.compareTo x.natural y.natural = some .gt ∧
      x.natural.compareWord greatest = .gt ∧ y.natural.isWord greatest = true := by
  intro greatest x y
  have hx : x.Sized := by decide
  have hy : y.Sized := by decide
  obtain ⟨-, -, -, -, hword, -, -, hchecked⟩ := constructed_compare_exact x y greatest
  obtain ⟨-, -, -, -, -, -, his, -⟩ := constructed_compare_exact y x greatest
  obtain ⟨-, -, hcompare⟩ := hchecked hx hy
  exact ⟨hx, hy, hcompare.trans (by decide), hword.trans (by decide), his.mpr (by decide)⟩

end Natural
end KeyOrder
