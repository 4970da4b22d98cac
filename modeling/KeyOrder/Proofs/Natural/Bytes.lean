import KeyOrder.Proofs.Natural.Comparison

/-!
# KeyOrder.Proofs.Natural.Bytes

Naturals from bytes and words, and back. The significant bytes and the natural of a number are each
told by the number, so either gives the other (`toBytes_ofBytes`, `ofBytes_toBytes`); there are as
many of them as its binary digits need (`length_toBytes`). Bytes without leading zeros, grouped by
four from the end, have a top limb that is not zero, so nothing has to be trimmed (`limbs_ofBytes`).
-/

namespace KeyOrder
namespace Natural

/-! ## Bytes -/

theorem toBytes_ofBytes (bytes : Bytes) : (ofBytes bytes).toBytes = Bytes.significant bytes := by
  apply Bytes.significant_eq_of_value_eq
  rw [value_flatMap_bigEndian, ← value, value_ofBytes]

theorem ofBytes_toBytes (n : Natural) : ofBytes n.toBytes = n := by
  apply value_injective
  rw [value_ofBytes, value_toBytes]

theorem bits_le_iff (n : Natural) (k : Nat) : n.bits ≤ k ↔ n.value < 2 ^ k := by
  rw [bits_eq, bitLength_le_iff]

theorem isLeast_bits (n : Natural) : IsLeast {k | n.value < 2 ^ k} n.bits := by
  constructor
  · exact (n.bits_le_iff n.bits).mp le_rfl
  · intro k hk
    exact (n.bits_le_iff k).mpr hk

theorem length_toBytes (n : Natural) : n.toBytes.length = (n.bits + 7) / 8 := by
  have hle (k : Nat) : n.toBytes.length ≤ k ↔ n.bits ≤ 8 * k := by
    rw [toBytes, Bytes.length_significant_le_iff, value_flatMap_bigEndian, bits_le_iff, pow_mul]
    rfl
  have hupper := (hle ((n.bits + 7) / 8)).mpr (by omega)
  have hlower := (hle n.toBytes.length).mp le_rfl
  omega

theorem toBytes_eq_nil_iff (n : Natural) : n.toBytes = [] ↔ n.value = 0 := by
  have hzero := n.bits_le_iff 0
  rw [← List.length_eq_zero_iff, length_toBytes]
  omega

theorem length_flatMap_bigEndian (limbs : List UInt32) :
    (limbs.flatMap fun limb => Bytes.bigEndian 4 limb.toNat).length = 4 * limbs.length := by
  induction limbs with
  | nil => rfl
  | cons limb limbs ih =>
    rw [List.flatMap_cons, List.length_append, Bytes.length_bigEndian, ih, List.length_cons]
    omega

/-- The bytes are those of the limbs, of which the top limb alone has leading zeros. -/
theorem toBytes_of_top {n : Natural} {low : List UInt32} {top : UInt32}
    (hlimbs : n.limbs = low ++ [top]) (htop : 0 < top.toNat) :
    4 * low.length < n.toBytes.length ∧ n.toBytes.length ≤ 4 * low.length + 4 ∧
      n.toBytes = (Bytes.bigEndian 4 top.toNat).drop (4 - (n.toBytes.length - 4 * low.length)) ++
        low.reverse.flatMap fun limb => Bytes.bigEndian 4 limb.toNat := by
  have hbits : n.bits = 32 * low.length + bitLength top.toNat := by simp [bits, hlimbs]
  have hpos : 0 < bitLength top.toNat := bitLength_pos htop
  have hle : bitLength top.toNat ≤ 32 := (bitLength_le_iff _ _).mpr top.toNat_lt
  have hlength := n.length_toBytes
  have hlower : 4 * low.length < n.toBytes.length := by omega
  have hupper : n.toBytes.length ≤ 4 * low.length + 4 := by omega
  refine ⟨hlower, hupper, ?_⟩
  have hall : (n.limbs.reverse.flatMap fun limb => Bytes.bigEndian 4 limb.toNat) =
      Bytes.bigEndian 4 top.toNat ++
        low.reverse.flatMap fun limb => Bytes.bigEndian 4 limb.toNat := by
    simp [hlimbs]
  have hdrop := Bytes.significant_eq_drop
    (n.limbs.reverse.flatMap fun limb => Bytes.bigEndian 4 limb.toNat)
  rw [← toBytes, hall, List.length_append, Bytes.length_bigEndian, length_flatMap_bigEndian,
    List.length_reverse, List.drop_append_of_le_length (by rw [Bytes.length_bigEndian]; omega)]
    at hdrop
  have hhead : 4 + 4 * low.length - n.toBytes.length = 4 - (n.toBytes.length - 4 * low.length) := by
    omega
  rwa [hhead] at hdrop

/-! ## Limbs that need no trimming -/

theorem trim_eq_self {limbs : List UInt32} (h : limbs.getLast? ≠ some 0) : trim limbs = limbs := by
  induction limbs with
  | nil => rfl
  | cons limb limbs ih =>
    cases limbs with
    | nil =>
      have hlimb : limb ≠ 0 := by simpa using h
      simp [trim, hlimb]
    | cons next higher =>
      rw [List.getLast?_cons_cons] at h
      rw [trim, ih h]

/-- Up to four bytes, least significant first, make a limb that is not zero if the last of them is
not. -/
theorem limb_ne_zero {few : List UInt8} (hlen : few.length ≤ 4) (hne : few ≠ [])
    (h : few.getLast? ≠ some 0) : UInt32.ofNat (Bytes.value few.reverse) ≠ 0 := by
  rw [Ne, ← UInt32.toNat_inj, toNat_ofNat_value (by simpa using hlen), UInt32.toNat_zero,
    Bytes.value_eq_zero_iff, List.all_eq_true]
  intro hall
  obtain ⟨low, top, rfl⟩ := (List.eq_nil_or_concat' few).resolve_left hne
  have htop : top = 0 := by simpa using hall top (by simp)
  exact h (by simp [htop])

theorem limbsOfBytes_ne_nil {bytes : List UInt8} (h : bytes ≠ []) : limbsOfBytes bytes ≠ [] := by
  fun_cases limbsOfBytes bytes with
  | case1 => exact absurd rfl h
  | case2 => simp
  | case3 => simp

theorem getLast?_limbsOfBytes {bytes : List UInt8} (h : bytes.getLast? ≠ some 0) :
    (limbsOfBytes bytes).getLast? ≠ some 0 := by
  fun_induction limbsOfBytes bytes with
  | case1 => simp
  | case2 a b c d higher ih =>
    cases higher with
    | nil =>
      have hlimb : UInt32.ofNat (Bytes.value [a, b, c, d].reverse) ≠ 0 :=
        limb_ne_zero (by simp) (by simp) h
      simpa [limbsOfBytes] using hlimb
    | cons e higher =>
      -- the last of the bytes is among those that are left
      obtain ⟨limb, limbs, hlimbs⟩ :=
        List.exists_cons_of_ne_nil (limbsOfBytes_ne_nil (List.cons_ne_nil e higher))
      simp only [List.getLast?_cons_cons] at h
      have hhigher := ih h
      rw [hlimbs] at hhigher ⊢
      rwa [List.getLast?_cons_cons]
  | case3 few hnil hfour =>
    have hlimb := limb_ne_zero (length_lt_four hfour).le hnil h
    simpa using hlimb

/-- The significant bytes are grouped into limbs of which none is superfluous. -/
theorem limbs_ofBytes (bytes : Bytes) :
    (ofBytes bytes).limbs = limbsOfBytes (Bytes.significant bytes).reverse := by
  apply trim_eq_self
  apply getLast?_limbsOfBytes
  rw [List.getLast?_reverse]
  exact Bytes.head?_significant_ne_zero bytes

/-! ## Words -/

theorem limbs_ofUInt64 (v : UInt64) :
    (ofUInt64 v).limbs =
      if (v >>> 32).toUInt32 ≠ 0 then [v.toUInt32, (v >>> 32).toUInt32]
      else if v.toUInt32 ≠ 0 then [v.toUInt32] else [] := by
  simp only [ofUInt64, ofLimbs, trim]
  by_cases hhigh : (v >>> 32).toUInt32 = 0
  · simp [hhigh]
  · simp [hhigh]

theorem ofUInt64_eq_ofBytes (v : UInt64) : ofUInt64 v = ofBytes (Bytes.bigEndian 8 v.toNat) := by
  have hv : v.toNat < 256 ^ 8 := v.toNat_lt
  apply value_injective
  rw [value_ofUInt64, value_ofBytes, Bytes.value_bigEndian_of_lt hv]

theorem toUInt64?_eq_some_iff (n : Natural) (v : UInt64) :
    n.toUInt64? = some v ↔ n.value = v.toNat := by
  have hspec := n.toUInt64?_spec
  have hv : v.toNat < 2 ^ 64 := v.toNat_lt
  cases hword : n.toUInt64? with
  | none =>
    rw [hword] at hspec
    simp only [reduceCtorEq, false_iff]
    exact ne_of_gt (lt_of_lt_of_le hv hspec)
  | some w =>
    rw [hword] at hspec
    rw [Option.some.injEq, ← UInt64.toNat_inj, show w.toNat = n.value from hspec]

theorem toUInt64?_eq_none_iff (n : Natural) : n.toUInt64? = none ↔ 2 ^ 64 ≤ n.value := by
  have hspec := n.toUInt64?_spec
  cases hword : n.toUInt64? with
  | none =>
    rw [hword] at hspec
    simpa using hspec
  | some w =>
    rw [hword] at hspec
    have hw : w.toNat < 2 ^ 64 := w.toNat_lt
    have hvalue : w.toNat = n.value := hspec
    simp only [reduceCtorEq, false_iff, not_le]
    omega

end Natural
end KeyOrder
