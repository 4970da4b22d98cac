import KeyOrder.Natural.Basic
import KeyOrder.Proofs.Bytes.Value

/-!
# KeyOrder.Proofs.Natural.Value

Naturals as numbers. Each way to make one gives the number it should (`value_ofLimbs`,
`value_ofUInt64`, `value_ofBytes`), each number has one form (`value_injective`), and the binary
length that is read off the top limb is that of the number (`bits_eq`). The bytes of a natural
spell its number (`value_toBytes`), and no fewer bytes do.
-/

namespace KeyOrder

/-! ## Binary length -/

theorem bitLength_le_iff (n k : Nat) : bitLength n ≤ k ↔ n < 2 ^ k := by
  unfold bitLength
  by_cases h : n = 0
  · simp [h]
  · rw [if_neg h, Nat.succ_le_iff, Nat.log2_lt h]

theorem lt_bitLength_iff (n k : Nat) : k < bitLength n ↔ 2 ^ k ≤ n := by
  rw [← not_iff_not, not_lt, not_le, bitLength_le_iff]

theorem bitLength_pos {n : Nat} (h : 0 < n) : 0 < bitLength n :=
  (lt_bitLength_iff n 0).mpr (by rw [pow_zero]; exact h)

theorem bitLength_eq_of {n k : Nat} (hle : 2 ^ k ≤ n) (hlt : n < 2 ^ (k + 1)) :
    bitLength n = k + 1 :=
  le_antisymm ((bitLength_le_iff n (k + 1)).mpr hlt) ((lt_bitLength_iff n k).mpr hle)

/-- The binary length of two numbers side by side. -/
theorem bitLength_add_mul {low top k : Nat} (hlow : low < 2 ^ k) (htop : 0 < top) :
    bitLength (low + 2 ^ k * top) = k + bitLength top := by
  obtain ⟨j, hj⟩ := Nat.exists_eq_add_of_lt (bitLength_pos htop)
  rw [Nat.zero_add] at hj
  have hle : 2 ^ j ≤ top := (lt_bitLength_iff top j).mp (by omega)
  have hlt : top < 2 ^ (j + 1) := (bitLength_le_iff top (j + 1)).mp (by omega)
  rw [hj, ← Nat.add_assoc]
  apply bitLength_eq_of
  · calc 2 ^ (k + j) = 2 ^ k * 2 ^ j := pow_add 2 k j
      _ ≤ 2 ^ k * top := Nat.mul_le_mul_left _ hle
      _ ≤ low + 2 ^ k * top := Nat.le_add_left _ _
  · calc low + 2 ^ k * top < 2 ^ k + 2 ^ k * top := Nat.add_lt_add_right hlow _
      _ = 2 ^ k * (top + 1) := by ring
      _ ≤ 2 ^ k * 2 ^ (j + 1) := Nat.mul_le_mul_left _ hlt
      _ = 2 ^ (k + j + 1) := by rw [← pow_add, Nat.add_assoc]

namespace Natural

/-! ## Limbs -/

theorem limbsValue_append (low high : List UInt32) :
    limbsValue (low ++ high) = limbsValue low + 2 ^ (32 * low.length) * limbsValue high := by
  induction low with
  | nil => simp [limbsValue]
  | cons limb low ih =>
    rw [List.cons_append, limbsValue, limbsValue, ih, List.length_cons, Nat.mul_succ, pow_add]
    ring

theorem limbsValue_lt (limbs : List UInt32) : limbsValue limbs < 2 ^ (32 * limbs.length) := by
  induction limbs with
  | nil => simp [limbsValue]
  | cons limb limbs ih =>
    have hlimb : limb.toNat < 4294967296 := limb.toNat_lt
    rw [limbsValue, List.length_cons, Nat.mul_succ, pow_add]
    omega

@[simp] theorem limbsValue_zeros (n : Nat) : limbsValue (List.replicate n 0) = 0 := by
  induction n with
  | zero => rfl
  | succ n ih => simp [List.replicate_succ, limbsValue, ih]

theorem limbsValue_trim (limbs : List UInt32) : limbsValue (trim limbs) = limbsValue limbs := by
  induction limbs with
  | nil => rfl
  | cons limb limbs ih =>
    rw [trim, limbsValue, ← ih]
    cases trim limbs with
    | nil =>
      by_cases hz : limb = 0
      · simp [hz, limbsValue]
      · simp [hz, limbsValue]
    | cons next higher => simp [limbsValue]

theorem value_ofLimbs (limbs : List UInt32) :
    (ofLimbs limbs).value = limbsValue limbs := limbsValue_trim limbs

@[simp] theorem value_zero : zero.value = 0 := rfl

theorem value_lt (n : Natural) : n.value < 2 ^ (32 * n.limbs.length) := limbsValue_lt n.limbs

theorem isZero_iff_limbs (n : Natural) : n.isZero = true ↔ n.limbs = [] := List.isEmpty_iff

/-- A natural that has limbs is a number below its top limb and that limb, which is not zero. -/
theorem exists_top {n : Natural} (h : n.limbs ≠ []) :
    ∃ low top, n.limbs = low ++ [top] ∧ 0 < top.toNat ∧
      n.value = limbsValue low + 2 ^ (32 * low.length) * top.toNat := by
  refine ⟨n.limbs.dropLast, n.limbs.getLast h, (List.dropLast_append_getLast h).symm, ?_, ?_⟩
  · have htop := n.top_ne_zero
    rw [List.getLast?_eq_getLast_of_ne_nil h, Ne, Option.some.injEq, ← UInt32.toNat_inj] at htop
    exact Nat.pos_of_ne_zero htop
  · conv_lhs => rw [value, ← List.dropLast_append_getLast h, limbsValue_append]
    simp [limbsValue]

theorem le_value {n : Natural} (h : n.limbs ≠ []) :
    2 ^ (32 * (n.limbs.length - 1)) ≤ n.value := by
  obtain ⟨low, top, hlimbs, htop, hvalue⟩ := exists_top h
  rw [hlimbs, hvalue, List.length_append, List.length_singleton, Nat.add_sub_cancel]
  exact le_trans (Nat.le_mul_of_pos_right _ htop) (Nat.le_add_left _ _)

theorem isZero_iff (n : Natural) : n.isZero = true ↔ n.value = 0 := by
  rw [isZero_iff_limbs]
  constructor
  · intro h
    simp [value, h, limbsValue]
  · intro h
    by_contra hne
    have := le_value hne
    have : 0 < 2 ^ (32 * (n.limbs.length - 1)) := by positivity
    omega

theorem value_pos {n : Natural} (h : ¬ n.isZero = true) : 0 < n.value :=
  Nat.pos_of_ne_zero fun hzero => h ((isZero_iff n).mpr hzero)

/-- The binary length is that of the number. -/
theorem bits_eq (n : Natural) : n.bits = bitLength n.value := by
  by_cases h : n.limbs = []
  · simp [bits, value, h, limbsValue, bitLength]
  · obtain ⟨low, top, hlimbs, htop, hvalue⟩ := exists_top h
    rw [hvalue, bitLength_add_mul (limbsValue_lt low) htop]
    simp [bits, hlimbs]

/-! ## One form for each number -/

theorem length_limbs_le_iff (n : Natural) (k : Nat) :
    n.limbs.length ≤ k ↔ n.value < 2 ^ (32 * k) := by
  constructor
  · intro h
    exact lt_of_lt_of_le n.value_lt (Nat.pow_le_pow_right (by omega) (by omega))
  · intro h
    by_contra hlen
    have hne : n.limbs ≠ [] := by
      intro hnil
      simp [hnil] at hlen
    have hpow : 2 ^ (32 * k) ≤ 2 ^ (32 * (n.limbs.length - 1)) :=
      Nat.pow_le_pow_right (by omega) (by omega)
    have := le_value hne
    omega

theorem limbsValue_inj {a b : List UInt32} (hlen : a.length = b.length)
    (h : limbsValue a = limbsValue b) : a = b := by
  induction a generalizing b with
  | nil => exact (List.length_eq_zero_iff.mp hlen.symm).symm
  | cons x a ih =>
    cases b with
    | nil => simp at hlen
    | cons y b =>
      have hx : x.toNat < 4294967296 := x.toNat_lt
      have hy : y.toNat < 4294967296 := y.toNat_lt
      simp only [limbsValue] at h
      have hxy : x = y := UInt32.toNat_inj.mp (by omega)
      rw [hxy, ih (by simpa using hlen) (by omega)]

theorem value_injective {m n : Natural} (h : m.value = n.value) : m = n := by
  have hlen : m.limbs.length = n.limbs.length := by
    apply le_antisymm
    · rw [length_limbs_le_iff, h]
      exact n.value_lt
    · rw [length_limbs_le_iff, ← h]
      exact m.value_lt
  have hlimbs := limbsValue_inj hlen h
  cases m
  cases n
  simpa using hlimbs

/-! ## From words and bytes -/

@[simp] theorem value_ofUInt64 (v : UInt64) : (ofUInt64 v).value = v.toNat := by
  have hv : v.toNat < 2 ^ 64 := v.toNat_lt
  have hhigh : (v >>> 32).toNat = v.toNat / 2 ^ 32 := by simp [Nat.shiftRight_eq_div_pow]
  simp only [ofUInt64, value_ofLimbs, limbsValue, UInt64.toNat_toUInt32, hhigh]
  omega

theorem toNat_ofNat_value {bytes : Bytes} (h : bytes.length ≤ 4) :
    (UInt32.ofNat (Bytes.value bytes)).toNat = Bytes.value bytes := by
  rw [UInt32.toNat_ofNat', Nat.mod_eq_of_lt]
  calc Bytes.value bytes < 256 ^ bytes.length := Bytes.value_lt bytes
    _ ≤ 256 ^ 4 := Nat.pow_le_pow_right (by omega) h
    _ = 2 ^ 32 := by norm_num

/-- Bytes that are not four and more are fewer. -/
theorem length_lt_four {few : List UInt8}
    (h : ∀ a b c d higher, few ≠ a :: b :: c :: d :: higher) : few.length < 4 := by
  match few, h with
  | [], _ | [_], _ | [_, _], _ | [_, _, _], _ => simp
  | a :: b :: c :: d :: higher, h => exact absurd rfl (h a b c d higher)

theorem limbsValue_limbsOfBytes (bytes : Bytes) :
    limbsValue (limbsOfBytes bytes) = Bytes.value bytes.reverse := by
  fun_induction limbsOfBytes bytes with
  | case1 => rfl
  | case2 a b c d higher ih =>
    rw [limbsValue, ih, toNat_ofNat_value (by simp)]
    have hsplit : (a :: b :: c :: d :: higher).reverse = higher.reverse ++ [d, c, b, a] := by simp
    rw [hsplit, Bytes.value_append]
    simp only [List.length_cons, List.length_nil]
    omega
  | case3 few hnil hfour =>
    rw [limbsValue, limbsValue, toNat_ofNat_value]
    · rfl
    · rw [List.length_reverse]
      exact (length_lt_four hfour).le

theorem value_ofBytes (bytes : Bytes) : (ofBytes bytes).value = Bytes.value bytes := by
  rw [ofBytes, value_ofLimbs, limbsValue_limbsOfBytes, List.reverse_reverse,
    Bytes.value_significant]

theorem length_ofBytes_le {bytes : Bytes} {k : Nat} (h : bytes.length ≤ 4 * k) :
    (ofBytes bytes).limbs.length ≤ k := by
  rw [length_limbs_le_iff, value_ofBytes]
  calc Bytes.value bytes < 256 ^ bytes.length := Bytes.value_lt bytes
    _ ≤ 256 ^ (4 * k) := Nat.pow_le_pow_right (by omega) h
    _ = 2 ^ (32 * k) := by rw [show (256 : Nat) = 2 ^ 8 by norm_num, ← pow_mul]; congr 1; omega

/-! ## To bytes -/

theorem value_flatMap_bigEndian (limbs : List UInt32) :
    Bytes.value (limbs.reverse.flatMap fun limb => Bytes.bigEndian 4 limb.toNat) =
      limbsValue limbs := by
  induction limbs with
  | nil => rfl
  | cons limb limbs ih =>
    have hlimb : limb.toNat < 256 ^ 4 := limb.toNat_lt
    rw [List.reverse_cons, List.flatMap_append, Bytes.value_append, ih, List.flatMap_singleton,
      Bytes.length_bigEndian, Bytes.value_bigEndian_of_lt hlimb, limbsValue]
    omega

theorem value_toBytes (n : Natural) : n.toBytes.value = n.value := by
  rw [toBytes, Bytes.value_significant, value_flatMap_bigEndian]
  rfl

/-- The written form is the shortest one. -/
theorem length_toBytes_le {n : Natural} {other : Bytes} (h : other.value = n.value) :
    n.toBytes.length ≤ other.length := by
  apply Bytes.length_significant_le_of_value_eq
  rw [value_flatMap_bigEndian]
  exact h

end Natural
end KeyOrder
