import KeyOrder.Proofs.Natural.Comparison
import KeyOrder.Proofs.Natural.Product

/-!
# KeyOrder.Proofs.Checked.Natural

Naturals with checked words. Each function of `Checked` does what its namesake does and gives
`none` as soon as a sum, a difference or a product of words is no word, a number does not fit the
word it is cut to, or an index is out of range. The theorems `_eq` say that this never happens:
the checked function gives what the unchecked one gives.
-/

namespace KeyOrder
namespace Checked

/-! ## Words -/

/-- The word of a number. -/
def word (n : Nat) : Option UInt64 := if n < 2 ^ 64 then some (UInt64.ofNat n) else none

def add (a b : UInt64) : Option UInt64 := word (a.toNat + b.toNat)

def sub (a b : UInt64) : Option UInt64 := if b ≤ a then some (a - b) else none

def mul (a b : UInt64) : Option UInt64 := word (a.toNat * b.toNat)

/-- Quotient and remainder. -/
def divMod (a b : UInt64) : Option (UInt64 × UInt64) :=
  if b = 0 then none else some (a / b, a % b)

/-- A word as a limb. -/
def narrow (a : UInt64) : Option UInt32 := if a.toNat < 2 ^ 32 then some a.toUInt32 else none

theorem word_eq {n : Nat} (h : n < 2 ^ 64) : word n = some (UInt64.ofNat n) := if_pos h

theorem word_toNat {n : Nat} (h : n < 2 ^ 64) : ∃ w, word n = some w ∧ w.toNat = n :=
  ⟨_, word_eq h, UInt64.toNat_ofNat_of_lt' h⟩

theorem add_eq {a b : UInt64} (h : a.toNat + b.toNat < 2 ^ 64) : add a b = some (a + b) := by
  rw [add, word_eq h, Option.some.injEq, ← UInt64.toNat_inj, UInt64.toNat_add]
  rfl

theorem sub_eq {a b : UInt64} (h : b.toNat ≤ a.toNat) : sub a b = some (a - b) :=
  if_pos (UInt64.le_iff_toNat_le.mpr h)

theorem add_toNat {a b : UInt64} (h : a.toNat + b.toNat < 2 ^ 64) :
    ∃ c, add a b = some c ∧ c.toNat = a.toNat + b.toNat := by
  refine ⟨a + b, add_eq h, ?_⟩
  rw [UInt64.toNat_add, Nat.mod_eq_of_lt h]

theorem sub_toNat {a b : UInt64} (h : b.toNat ≤ a.toNat) :
    ∃ c, sub a b = some c ∧ c.toNat = a.toNat - b.toNat :=
  ⟨a - b, sub_eq h, UInt64.toNat_sub_of_le a b (UInt64.le_iff_toNat_le.mpr h)⟩

theorem mul_eq {a b : UInt64} (h : a.toNat * b.toNat < 2 ^ 64) : mul a b = some (a * b) := by
  rw [mul, word_eq h, Option.some.injEq, ← UInt64.toNat_inj, UInt64.toNat_mul]
  rfl

theorem divMod_eq {a b : UInt64} (h : 0 < b.toNat) : divMod a b = some (a / b, a % b) := by
  have hne : b ≠ 0 := by
    rintro rfl
    exact absurd h (by decide)
  exact if_neg hne

theorem narrow_eq {a : UInt64} (h : a.toNat < 2 ^ 32) : narrow a = some a.toUInt32 := if_pos h

/-! ## Bytes -/

/-- The limb that bytes spell. -/
def limb (bytes : Bytes) : Option UInt32 :=
  if bytes.value < 2 ^ 32 then some (UInt32.ofNat bytes.value) else none

def limbsOfBytes : List UInt8 → Option (List UInt32)
  | [] => some []
  | a :: b :: c :: d :: higher => do
    let low ← limb [d, c, b, a]
    let limbs ← limbsOfBytes higher
    some (low :: limbs)
  | few => do
    let low ← limb few.reverse
    some [low]

def ofBytes (bytes : Bytes) : Option Natural :=
  (limbsOfBytes (Bytes.significant bytes).reverse).map Natural.ofLimbs

theorem limb_eq {bytes : Bytes} (h : bytes.length ≤ 4) :
    limb bytes = some (UInt32.ofNat bytes.value) := by
  apply if_pos
  rw [← Natural.toNat_ofNat_value h]
  exact UInt32.toNat_lt _

theorem limbsOfBytes_eq (bytes : List UInt8) :
    limbsOfBytes bytes = some (Natural.limbsOfBytes bytes) := by
  fun_induction Natural.limbsOfBytes bytes with
  | case1 => rfl
  | case2 a b c d higher ih =>
    rw [limbsOfBytes, limb_eq (by simp), ih]
    rfl
  | case3 few hnil hfour =>
    have hlen : few.reverse.length ≤ 4 := by
      rw [List.length_reverse]
      exact (Natural.length_lt_four hfour).le
    rw [limbsOfBytes, limb_eq hlen]
    · rfl
    · exact hnil
    · exact hfour

theorem ofBytes_eq (bytes : Bytes) : ofBytes bytes = some (Natural.ofBytes bytes) := by
  rw [ofBytes, limbsOfBytes_eq]
  rfl

/-! ## Binary length and order -/

/-- All binary digits of the limbs, less the leading zeros of the top limb. -/
def bits (n : Natural) : Option UInt64 :=
  match n.limbs.getLast? with
  | none => some 0
  | some top => do
    let length ← word n.limbs.length
    let width ← mul length 32
    sub width (UInt64.ofNat (32 - bitLength top.toNat))

def order (m n : Natural) : Option Ordering := do
  let mBits ← bits m
  let nBits ← bits n
  some ((compare mBits nBits).then (compare m.limbs.reverse n.limbs.reverse))

theorem bits_eq {n : Natural} (h : n.limbs.length < 2 ^ 58) : bits n = some n.bits.toUInt64 := by
  unfold bits Natural.bits
  cases htop : n.limbs.getLast? with
  | none => rfl
  | some top =>
    have hpos : 0 < n.limbs.length := by
      rw [List.length_pos_iff]
      rintro hnil
      simp [hnil] at htop
    have hbits : bitLength top.toNat ≤ 32 := (bitLength_le_iff _ _).mpr top.toNat_lt
    have hlength : (UInt64.ofNat n.limbs.length).toNat = n.limbs.length :=
      Nat.mod_eq_of_lt (by omega)
    have hzeros : (UInt64.ofNat (32 - bitLength top.toNat)).toNat = 32 - bitLength top.toNat :=
      Nat.mod_eq_of_lt (by omega)
    have hproduct : (UInt64.ofNat n.limbs.length * 32).toNat = n.limbs.length * 32 := by
      rw [UInt64.toNat_mul, hlength]
      exact Nat.mod_eq_of_lt (by show n.limbs.length * 32 < _; omega)
    have hle : UInt64.ofNat (32 - bitLength top.toNat) ≤ UInt64.ofNat n.limbs.length * 32 := by
      rw [UInt64.le_iff_toNat_le, hzeros, hproduct]
      omega
    simp only [Option.bind_eq_bind]
    rw [word_eq (by omega), Option.bind_some, mul_eq (by rw [hlength]; show _ * 32 < _; omega),
      Option.bind_some, sub, if_pos hle, Option.some.injEq, ← UInt64.toNat_inj,
      UInt64.toNat_sub_of_le _ _ hle, hzeros, hproduct]
    show _ = (32 * (n.limbs.length - 1) + bitLength top.toNat) % 2 ^ 64
    omega

theorem toNat_bits {n : Natural} (h : n.limbs.length < 2 ^ 58) :
    n.bits.toUInt64.toNat = n.bits := by
  have hle : n.bits ≤ 32 * n.limbs.length := by
    rw [Natural.bits_eq, bitLength_le_iff]
    exact n.value_lt
  exact Nat.mod_eq_of_lt (by omega)

theorem order_eq {m n : Natural} (hm : m.limbs.length < 2 ^ 58) (hn : n.limbs.length < 2 ^ 58) :
    order m n = some (compare m n) := by
  simp only [order, bits_eq hm, bits_eq hn, Option.bind_eq_bind, Option.bind_some]
  rw [compare_toNat64, toNat_bits hm, toNat_bits hn]
  rfl

end Checked
end KeyOrder
