import KeyOrder.Proofs.Ordering

/-!
# KeyOrder.Proofs.Field.FloatFormat

Binary floating-point formats: what a pattern of a format stands for, and the order of patterns.

* `number` — the extended real of a pattern that stands for one.
* `order`  — numbers in their order, zero with a sign below zero without, and what is not a number
  above all and equal to itself.
* `key`    — an integer for each pattern, found without arithmetic on numbers, whose order is
  `order` (`order_eq`): the patterns of one sign are as many steps from zero as they count.
-/

namespace KeyOrder

/-- The widths of the two fields of a pattern; the sign is the bit above them. -/
structure FloatFormat where
  fractionBits : Nat
  exponentBits : Nat
  deriving DecidableEq, Repr

namespace FloatFormat

def single : FloatFormat := ⟨23, 8⟩

def double : FloatFormat := ⟨52, 11⟩

section Patterns

variable (F : FloatFormat)

def negative (bits : Nat) : Bool := decide (2 ^ (F.fractionBits + F.exponentBits) ≤ bits)

/-- A pattern without its sign. -/
def magnitude (bits : Nat) : Nat := bits % 2 ^ (F.fractionBits + F.exponentBits)

/-- The magnitude of infinity: all ones in the exponent field. -/
def infinity : Nat := (2 ^ F.exponentBits - 1) * 2 ^ F.fractionBits

def bias : Int := 2 ^ (F.exponentBits - 1) - 1

def isNaN (bits : Nat) : Bool := decide (F.infinity < F.magnitude bits)

/-- How often the least positive number goes into the number of a magnitude. -/
def units (magnitude : Nat) : Nat :=
  let exponent := magnitude / 2 ^ F.fractionBits
  let fraction := magnitude % 2 ^ F.fractionBits
  if exponent = 0 then fraction else (2 ^ F.fractionBits + fraction) * 2 ^ (exponent - 1)

/-- The least positive number. -/
noncomputable def unit : ℝ := 2 ^ (1 - F.bias - F.fractionBits)

/-- The number of a magnitude, infinity included. -/
noncomputable def size (magnitude : Nat) : EReal :=
  if magnitude = F.infinity then ⊤ else ((F.units magnitude * F.unit : ℝ) : EReal)

noncomputable def number (bits : Nat) : EReal :=
  if F.negative bits then -F.size (F.magnitude bits) else F.size (F.magnitude bits)

/-- The order of patterns. -/
noncomputable def order (a b : Nat) : Ordering :=
  match F.isNaN a, F.isNaN b with
  | true, true => .eq
  | true, false => .gt
  | false, true => .lt
  | false, false =>
    (compare (F.number a) (F.number b)).then (compare (F.negative b) (F.negative a))

/-- An integer for each pattern, one and the same for all that are not numbers. -/
def key (bits : Nat) : Int :=
  if F.isNaN bits then F.infinity + 1
  else if F.negative bits then -F.magnitude bits - 1
  else F.magnitude bits

/-! ## Magnitudes -/

theorem units_lt_succ (m : Nat) : F.units m < F.units (m + 1) := by
  unfold units
  generalize hp : 2 ^ F.fractionBits = p
  have hpos : 0 < p := hp ▸ Nat.two_pow_pos _
  have hmod : m % p < p := Nat.mod_lt m hpos
  have hdiv : p * (m / p) + m % p = m := Nat.div_add_mod m p
  by_cases hcarry : m % p + 1 < p
  · -- the fraction grows by one
    have hq : (m + 1) / p = m / p := by
      rw [show m + 1 = m % p + 1 + p * (m / p) by omega, Nat.add_mul_div_left _ _ hpos,
        Nat.div_eq_of_lt hcarry, Nat.zero_add]
    have hr : (m + 1) % p = m % p + 1 := by
      rw [show m + 1 = m % p + 1 + p * (m / p) by omega, Nat.add_mul_mod_self_left,
        Nat.mod_eq_of_lt hcarry]
    simp only [hq, hr]
    split
    · omega
    · exact Nat.mul_lt_mul_of_pos_right (by omega) (Nat.two_pow_pos _)
  · -- the exponent grows by one, and the fraction is zero again
    have hnext : m + 1 = p * (m / p + 1) := by
      rw [Nat.mul_add, Nat.mul_one]
      omega
    have hq : (m + 1) / p = m / p + 1 := by
      rw [hnext, Nat.mul_div_cancel_left _ hpos]
    have hr : (m + 1) % p = 0 := by
      rw [hnext, Nat.mul_mod_right]
    simp only [hq, hr, Nat.succ_ne_zero, if_false, Nat.add_zero, Nat.add_sub_cancel]
    split
    · rename_i hzero
      rw [hzero, pow_zero]
      omega
    · rename_i hne
      have hpow : 2 ^ (m / p) = 2 * 2 ^ (m / p - 1) := by
        rw [← pow_succ', Nat.sub_add_cancel (Nat.pos_of_ne_zero hne)]
      rw [hpow, ← Nat.mul_assoc]
      exact Nat.mul_lt_mul_of_pos_right (by omega) (Nat.two_pow_pos _)

theorem units_strictMono : StrictMono F.units := strictMono_nat_of_lt_succ F.units_lt_succ

theorem unit_pos : 0 < F.unit := by
  unfold unit
  positivity

theorem size_lt {m n : Nat} (h : m < n) (hn : n ≤ F.infinity) : F.size m < F.size n := by
  unfold size
  rw [if_neg (by omega)]
  by_cases htop : n = F.infinity
  · rw [if_pos htop]
    exact EReal.coe_lt_top _
  · rw [if_neg htop, EReal.coe_lt_coe_iff]
    have hunits : (F.units m : ℝ) < F.units n := Nat.cast_lt.mpr (F.units_strictMono h)
    exact mul_lt_mul_of_pos_right hunits F.unit_pos

theorem size_nonneg (m : Nat) : 0 ≤ F.size m := by
  unfold size
  split
  · exact le_top
  · have hunit := F.unit_pos
    exact_mod_cast (by positivity : (0 : ℝ) ≤ F.units m * F.unit)

theorem compare_size {m n : Nat} (hm : m ≤ F.infinity) (hn : n ≤ F.infinity) :
    compare (F.size m) (F.size n) = compare m n := by
  rcases lt_trichotomy m n with h | h | h
  · rw [compare_lt_iff_lt.mpr h, compare_lt_iff_lt.mpr (F.size_lt h hn)]
  · rw [h, compare_eq_iff_eq.mpr rfl, compare_eq_iff_eq.mpr rfl]
  · rw [compare_gt_iff_gt.mpr h, compare_gt_iff_gt.mpr (F.size_lt h hm)]

/-! ## Patterns -/

/-- A number without a sign is above one with a sign, even if both are zero. -/
theorem compare_signs (m n : Nat) :
    (compare (F.size m) (-F.size n)).then (compare true false) = .gt := by
  have hle : -F.size n ≤ F.size m :=
    le_trans (EReal.neg_le_zero.mpr (F.size_nonneg n)) (F.size_nonneg m)
  rcases lt_or_eq_of_le hle with hlt | heq
  · rw [compare_gt_iff_gt.mpr hlt]
    rfl
  · rw [compare_eq_iff_eq.mpr heq.symm]
    rfl

theorem key_lt_of_number {bits : Nat} (h : F.isNaN bits = false) :
    (if F.negative bits then -F.magnitude bits - 1 else F.magnitude bits : Int) <
      F.infinity + 1 := by
  have hle : F.magnitude bits ≤ F.infinity := not_lt.mp (of_decide_eq_false h)
  split <;> omega

theorem order_eq (a b : Nat) : F.order a b = compare (F.key a) (F.key b) := by
  unfold order key
  cases ha : F.isNaN a with
  | true =>
    cases hb : F.isNaN b with
    | true => exact (compare_eq_iff_eq.mpr rfl).symm
    | false =>
      have hlt := F.key_lt_of_number hb
      exact (compare_gt_iff_gt.mpr hlt).symm
  | false =>
    cases hb : F.isNaN b with
    | true =>
      have hlt := F.key_lt_of_number ha
      exact (compare_lt_iff_lt.mpr hlt).symm
    | false =>
      have hma : F.magnitude a ≤ F.infinity := not_lt.mp (of_decide_eq_false ha)
      have hmb : F.magnitude b ≤ F.infinity := not_lt.mp (of_decide_eq_false hb)
      unfold number
      cases hna : F.negative a with
      | true =>
        cases hnb : F.negative b with
        | true =>
          have hneg : compare (-F.size (F.magnitude a)) (-F.size (F.magnitude b)) =
              compare (F.size (F.magnitude b)) (F.size (F.magnitude a)) :=
            compare_congr EReal.neg_lt_neg_iff (by rw [neg_inj, eq_comm])
          show (compare (-F.size (F.magnitude a)) (-F.size (F.magnitude b))).then .eq = _
          rw [Ordering.then_eq, hneg, F.compare_size hmb hma]
          exact compare_congr (by simp) (by simp [eq_comm])
        | false =>
          have hlt : (-F.magnitude a - 1 : Int) < F.magnitude b := by omega
          have hsigns := congrArg Ordering.swap (F.compare_signs (F.magnitude b) (F.magnitude a))
          rw [Ordering.swap_then, compare_swap] at hsigns
          exact hsigns.trans (compare_lt_iff_lt.mpr hlt).symm
      | false =>
        cases hnb : F.negative b with
        | true =>
          have hgt : (-F.magnitude b - 1 : Int) < F.magnitude a := by omega
          exact (F.compare_signs _ _).trans (compare_gt_iff_gt.mpr hgt).symm
        | false =>
          show (compare (F.size (F.magnitude a)) (F.size (F.magnitude b))).then .eq = _
          rw [Ordering.then_eq, F.compare_size hma hmb]
          exact compare_congr (by simp) (by simp)

end Patterns

end FloatFormat
end KeyOrder
