import KeyOrder.Proofs.Checked.Natural

/-!
# KeyOrder.Proofs.Checked.Product

Products with their shortcuts, in slots that are addressed by index. A factor zero or one gives the
product without any arithmetic. Otherwise one list of zero limbs, as long as both factors together,
takes a row for each limb of the shorter factor: the row adds its products slot by slot and then
runs its carry up the list until nothing is left of it. As everywhere in `Checked`, a word that
overflows and an index out of range give `none`.

No check fails and no shortcut differs from the product (`multiply_eq`, `multiplyLimb_eq`). The
slots below a row are done, so an index into the list is one into the window above them: the list is
`done ++ window`, and each lemma says what happens to the window.
-/

namespace KeyOrder
namespace Checked

/-! ## One limb -/

def scaleLimbs (k : UInt32) : List UInt32 → UInt64 → Option (List UInt32)
  | [], carry =>
    if carry = 0 then
      some []
    else do
      let top ← narrow carry
      some [top]
  | limb :: limbs, carry => do
    let product ← mul limb.toUInt64 k.toUInt64
    let sum ← add carry product
    let higher ← scaleLimbs k limbs (sum >>> 32)
    some (sum.toUInt32 :: higher)

theorem mul_limbs_eq (a b : UInt32) :
    mul a.toUInt64 b.toUInt64 = some (a.toUInt64 * b.toUInt64) := by
  apply mul_eq
  rw [UInt32.toNat_toUInt64, UInt32.toNat_toUInt64, ← Natural.toNat_mul_limbs]
  exact UInt64.toNat_lt _

theorem scaleLimbs_eq (k : UInt32) (limbs : List UInt32) :
    ∀ carry : UInt64, carry.toNat < 2 ^ 32 →
      scaleLimbs k limbs carry = some (Natural.scaleLimbs k limbs carry) := by
  induction limbs with
  | nil =>
    intro carry hc
    by_cases hz : carry = 0
    · simp [scaleLimbs, Natural.scaleLimbs, hz]
    · simp [scaleLimbs, Natural.scaleLimbs, hz, narrow_eq hc]
  | cons limb limbs ih =>
    intro carry hc
    have hsum : add carry (limb.toUInt64 * k.toUInt64) =
        some (carry + limb.toUInt64 * k.toUInt64) := by
      apply add_eq
      rw [Natural.toNat_mul_limbs]
      exact Natural.scaleAccumulator_lt limb k hc
    simp only [scaleLimbs, Natural.scaleLimbs, mul_limbs_eq, hsum, Option.bind_eq_bind,
      Option.bind_some, ih _ (Natural.carry_lt _)]

/-! ## Rows -/

/-- Adds `a * b + carry` to slot `k`; what does not fit the slot is the next carry. -/
def addAt (out : List UInt32) (k : Nat) (a b : UInt32) (carry : UInt64) :
    Option (List UInt32 × UInt64) := do
  let slot ← out[k]?
  let product ← mul a.toUInt64 b.toUInt64
  let addend ← add product slot.toUInt64
  let sum ← add carry addend
  some (out.set k sum.toUInt32, sum >>> 32)

/-- Adds `a * limbs + carry` to the slots from `k` on, one for each limb. -/
def productsAt (a : UInt32) : List UInt32 → List UInt32 → Nat → UInt64 →
    Option (List UInt32 × UInt64)
  | [], out, _, carry => some (out, carry)
  | b :: limbs, out, k, carry => do
    let (out, carry) ← addAt out k a b carry
    productsAt a limbs out (k + 1) carry

/-- Adds `carry` to the slots from `k` on, as long as there is a carry. -/
def carryAt (out : List UInt32) (k : Nat) (carry : UInt64) : Option (List UInt32) :=
  if carry = 0 then
    some out
  else if h : k < out.length then
    match add carry out[k].toUInt64 with
    | none => none
    | some sum => carryAt (out.set k sum.toUInt32) (k + 1) (sum >>> 32)
  else
    none
termination_by out.length - k
decreasing_by
  rw [List.length_set]
  omega

/-- The row of the limb `a` from slot `i` on. -/
def rowAt (a : UInt32) (long out : List UInt32) (i : Nat) : Option (List UInt32) := do
  let (out, carry) ← productsAt a long out i 0
  carryAt out (i + long.length) carry

/-- The rows of all limbs of `short`, the first from slot `i` on. -/
def rowsAt (long : List UInt32) : List UInt32 → List UInt32 → Nat → Option (List UInt32)
  | [], out, _ => some out
  | a :: short, out, i => do
    let out ← rowAt a long out i
    rowsAt long short out (i + 1)

/-- One step of a row, at the lowest slot of the window. -/
theorem addAt_eq (done window : List UInt32) (a b slot : UInt32) {carry : UInt64}
    (hc : carry.toNat < 2 ^ 32) :
    addAt (done ++ slot :: window) done.length a b carry =
      some (done ++ [(a.toUInt64 * b.toUInt64 + slot.toUInt64 + carry).toUInt32] ++ window,
        (a.toUInt64 * b.toUInt64 + slot.toUInt64 + carry) >>> 32) := by
  have hlt := Natural.accumulator_lt a b slot hc
  have haddend : (a.toUInt64 * b.toUInt64 + slot.toUInt64).toNat =
      a.toNat * b.toNat + slot.toNat := by
    rw [UInt64.toNat_add, Natural.toNat_mul_limbs, UInt32.toNat_toUInt64]
    omega
  have hadd : add (a.toUInt64 * b.toUInt64) slot.toUInt64 =
      some (a.toUInt64 * b.toUInt64 + slot.toUInt64) := by
    apply add_eq
    rw [Natural.toNat_mul_limbs, UInt32.toNat_toUInt64]
    omega
  have hsum : add carry (a.toUInt64 * b.toUInt64 + slot.toUInt64) =
      some (a.toUInt64 * b.toUInt64 + slot.toUInt64 + carry) := by
    rw [UInt64.add_comm _ carry]
    apply add_eq
    omega
  simp [addAt, mul_limbs_eq, hadd, hsum]

/-- One step of a carry, at the lowest slot of the window. -/
theorem carryAt_cons (done window : List UInt32) (slot : UInt32) {carry : UInt64}
    (hz : carry ≠ 0) (hc : carry.toNat < 2 ^ 32) :
    carryAt (done ++ slot :: window) done.length carry =
      carryAt (done ++ [(carry + slot.toUInt64).toUInt32] ++ window) (done.length + 1)
        ((carry + slot.toUInt64) >>> 32) := by
  have hsum : add carry slot.toUInt64 = some (carry + slot.toUInt64) := by
    have hslot : slot.toNat < 2 ^ 32 := slot.toNat_lt
    apply add_eq
    rw [UInt32.toNat_toUInt64]
    omega
  rw [carryAt, if_neg hz, dif_pos (by simp)]
  simp [hsum]

theorem carryAt_eq (window : List UInt32) :
    ∀ (done : List UInt32) (carry : UInt64), carry.toNat < 2 ^ 32 →
      (Natural.addCarry window carry).2 = 0 →
      carryAt (done ++ window) done.length carry =
        some (done ++ (Natural.addCarry window carry).1) := by
  induction window with
  | nil =>
    intro done carry _ hout
    have hz : carry = 0 := hout
    simp [carryAt, Natural.addCarry, hz]
  | cons slot window ih =>
    intro done carry hc hout
    by_cases hz : carry = 0
    · simp [carryAt, Natural.addCarry, hz]
    · simp only [Natural.addCarry, hz, if_false] at hout
      have hwindow := ih (done ++ [(carry + slot.toUInt64).toUInt32]) _ (Natural.carry_lt _) hout
      rw [List.length_append, List.length_singleton] at hwindow
      rw [carryAt_cons done window slot hz hc, hwindow]
      simp only [Natural.addCarry, hz, if_false, List.append_assoc, List.singleton_append]

/-- The products of a row, and its carry after them, do to the window what the row does. -/
theorem productsAt_eq (a : UInt32) (limbs : List UInt32) :
    ∀ (done window : List UInt32) (carry : UInt64), limbs.length ≤ window.length →
      carry.toNat < 2 ^ 32 → (Natural.addRow a limbs window carry).2 = 0 →
      ∃ out rest, productsAt a limbs (done ++ window) done.length carry = some (out, rest) ∧
        carryAt out (done.length + limbs.length) rest =
          some (done ++ (Natural.addRow a limbs window carry).1) := by
  induction limbs with
  | nil =>
    intro done window carry _ hc hout
    exact ⟨done ++ window, carry, rfl, carryAt_eq window done carry hc hout⟩
  | cons b limbs ih =>
    intro done window carry hlen hc hout
    cases window with
    | nil => simp at hlen
    | cons slot window =>
      obtain ⟨out, rest, hproducts, hcarry⟩ :=
        ih (done ++ [(a.toUInt64 * b.toUInt64 + slot.toUInt64 + carry).toUInt32]) window _
          (by simpa using hlen) (Natural.carry_lt _) hout
      rw [List.length_append, List.length_singleton] at hproducts hcarry
      refine ⟨out, rest, ?_, ?_⟩
      · rw [productsAt, addAt_eq done window a b slot hc]
        exact hproducts
      · rw [List.length_cons, ← Nat.add_assoc, Nat.add_right_comm, hcarry]
        simp only [Natural.addRow, List.append_assoc, List.singleton_append]

theorem rowAt_eq {a : UInt32} {long done window : List UInt32} (hlen : long.length ≤ window.length)
    (hout : (Natural.addRow a long window 0).2 = 0) :
    rowAt a long (done ++ window) done.length =
      some (done ++ (Natural.addRow a long window 0).1) := by
  obtain ⟨out, rest, hproducts, hcarry⟩ := productsAt_eq a long done window 0 hlen (by simp) hout
  rw [rowAt, hproducts]
  exact hcarry

/-- The rows of `short` fill the window with the product, and none of them leaves it. -/
theorem rowsAt_eq (long short : List UInt32) :
    ∀ done window : List UInt32, window.length = short.length + long.length →
      Natural.limbsValue window + Natural.limbsValue short * Natural.limbsValue long <
        2 ^ (32 * window.length) →
      rowsAt long short (done ++ window) done.length =
        some (done ++ Natural.addRows long short window) := by
  induction short with
  | nil =>
    intro done window _ _
    rfl
  | cons a short ih =>
    intro done window hlen hfit
    obtain ⟨slot, higher, hsum, hlength, -, hhigher⟩ := Natural.addRow_first hlen hfit
    have hrow : rowAt a long (done ++ window) done.length = some (done ++ slot :: higher) := by
      rw [rowAt_eq (by simp at hlen; omega) (by rw [hsum]), hsum]
    have hrows := ih (done ++ [slot]) higher hlength hhigher
    rw [List.length_append, List.length_singleton, List.append_assoc] at hrows
    rw [rowsAt, hrow]
    simpa [Natural.addRows, hsum] using hrows

/-! ## Products -/

/-- The product of positive factors, the second of them at least as long as the first. -/
def multiplyOrdered (short long : Natural) : Option Natural := do
  let shortBits ← bits short
  if shortBits = 1 then
    some long
  else do
    let longBits ← bits long
    if longBits = 1 then
      some short
    else do
      let out ← rowsAt long.limbs short.limbs
        (List.replicate (short.limbs.length + long.limbs.length) 0) 0
      some (Natural.ofLimbs out)

def multiply (m n : Natural) : Option Natural :=
  if m.isZero || n.isZero then
    some Natural.zero
  else if m.limbs.length ≤ n.limbs.length then
    multiplyOrdered m n
  else
    multiplyOrdered n m

/-- The product with one limb. -/
def multiplyLimb (n : Natural) (k : UInt32) : Option Natural :=
  if k = 0 || n.isZero then
    some Natural.zero
  else if k = 1 then
    some n
  else do
    let digits ← bits n
    if digits = 1 then
      some (Natural.ofUInt64 k.toUInt64)
    else do
      let limbs ← scaleLimbs k n.limbs 0
      some (Natural.ofLimbs limbs)

/-- A shortcut is right if it gives the right number. -/
theorem some_eq_of_value_eq {m n : Natural} (h : m.value = n.value) : some m = some n :=
  congrArg some (Natural.value_injective h)

/-- One is the only number of one binary digit. -/
theorem bits_eq_one_iff {n : Natural} (h : n.limbs.length < 2 ^ 58) :
    n.bits.toUInt64 = 1 ↔ n.value = 1 := by
  have hle := bitLength_le_iff n.value 1
  have hlt := lt_bitLength_iff n.value 0
  rw [← UInt64.toNat_inj, toNat_bits h, Natural.bits_eq, UInt64.toNat_one]
  omega

theorem multiplyOrdered_eq {short long : Natural} (hshort : short.limbs.length < 2 ^ 58)
    (hlong : long.limbs.length < 2 ^ 58) (hlen : short.limbs.length ≤ long.limbs.length) :
    multiplyOrdered short long = some (short.mul long) := by
  simp only [multiplyOrdered, bits_eq hshort, bits_eq hlong, Option.bind_eq_bind, Option.bind_some]
  by_cases hone : short.bits.toUInt64 = 1
  · rw [if_pos hone]
    apply some_eq_of_value_eq
    rw [Natural.value_mul, (bits_eq_one_iff hshort).mp hone, Nat.one_mul]
  · rw [if_neg hone]
    by_cases hone' : long.bits.toUInt64 = 1
    · rw [if_pos hone']
      apply some_eq_of_value_eq
      rw [Natural.value_mul, (bits_eq_one_iff hlong).mp hone', Nat.mul_one]
    · have hrows := rowsAt_eq long.limbs short.limbs [] _ (by simp)
        (Natural.mul_fits short.limbs long.limbs)
      rw [List.nil_append, List.length_nil] at hrows
      rw [if_neg hone', hrows]
      simp [Natural.mul, hlen]

/-- Neither the checks nor the shortcuts show: the product is the plain one. -/
theorem multiply_eq {m n : Natural} (hm : m.limbs.length < 2 ^ 58) (hn : n.limbs.length < 2 ^ 58) :
    multiply m n = some (m.mul n) := by
  unfold multiply
  split_ifs with hzero hlen
  · apply some_eq_of_value_eq
    rw [Bool.or_eq_true, Natural.isZero_iff, Natural.isZero_iff] at hzero
    rcases hzero with h | h
    · simp [Natural.value_mul, h]
    · simp [Natural.value_mul, h]
  · exact multiplyOrdered_eq hm hn hlen
  · rw [multiplyOrdered_eq hn hm (by omega), Natural.mul_comm]

theorem multiplyLimb_eq {n : Natural} (hn : n.limbs.length < 2 ^ 58) (k : UInt32) :
    multiplyLimb n k = some (n.mulLimb k) := by
  unfold multiplyLimb
  split_ifs with hzero hone
  · apply some_eq_of_value_eq
    rw [Bool.or_eq_true, Natural.isZero_iff, decide_eq_true_iff] at hzero
    rcases hzero with h | h
    · simp [Natural.value_mulLimb, h]
    · simp [Natural.value_mulLimb, h]
  · apply some_eq_of_value_eq
    simp [Natural.value_mulLimb, hone]
  · simp only [bits_eq hn, Option.bind_eq_bind, Option.bind_some]
    split_ifs with hdigit
    · apply some_eq_of_value_eq
      simp [Natural.value_mulLimb, (bits_eq_one_iff hn).mp hdigit]
    · rw [scaleLimbs_eq k n.limbs 0 (by decide)]
      rfl

end Checked
end KeyOrder
