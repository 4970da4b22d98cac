import Mathlib
import KeyOrder.Bytes.Basic

/-!
# KeyOrder.Proofs.Bytes.Value

What byte strings spell. A string of `n` bytes spells a number below `256^n`, and every such number
is spelled by its `n` low bytes (`value_bigEndian`). A string that does not begin with zero
spells a number of its own length (`le_value_significant`), so its length tells how large its
number is. Of the strings that spell one number, one is without leading zeros
(`significant_eq_of_value_eq`).
-/

namespace KeyOrder
namespace Bytes

theorem value_append (a b : Bytes) : value (a ++ b) = value a * 256 ^ b.length + value b := by
  induction b using List.reverseRecOn with
  | nil => simp
  | append_singleton b byte ih =>
    rw [← List.append_assoc, value_append_byte, value_append_byte, ih, List.length_append,
      List.length_singleton, pow_succ]
    ring

theorem value_cons (byte : UInt8) (bytes : Bytes) :
    value (byte :: bytes) = byte.toNat * 256 ^ bytes.length + value bytes := by
  have h := value_append [byte] bytes
  simpa [value] using h

theorem value_lt (bytes : Bytes) : value bytes < 256 ^ bytes.length := by
  induction bytes with
  | nil => simp
  | cons byte bytes ih =>
    have hb : byte.toNat < 256 := byte.toNat_lt
    rw [value_cons, List.length_cons, pow_succ]
    nlinarith

theorem value_bigEndian (n v : Nat) : value (bigEndian n v) = v % 256 ^ n := by
  induction n generalizing v with
  | zero => simp [bigEndian, Nat.mod_one]
  | succ n ih =>
    have hbyte : (UInt8.ofNat v).toNat = v % 256 := by simp
    rw [bigEndian, value_append_byte, ih, hbyte, pow_succ', Nat.mod_mul]
    omega

theorem value_bigEndian_of_lt {n v : Nat} (h : v < 256 ^ n) : value (bigEndian n v) = v := by
  rw [value_bigEndian, Nat.mod_eq_of_lt h]

theorem value_eq_zero_iff (bytes : Bytes) : value bytes = 0 ↔ bytes.all (· == 0) = true := by
  induction bytes with
  | nil => simp
  | cons byte bytes ih =>
    rw [value_cons, List.all_cons, Bool.and_eq_true, ← ih, beq_iff_eq, Nat.add_eq_zero_iff,
      Nat.mul_eq_zero, ← UInt8.toNat_inj]
    simp

theorem value_cons_div (byte : UInt8) (bytes : Bytes) :
    value (byte :: bytes) / 256 ^ bytes.length = byte.toNat := by
  rw [value_cons, Nat.mul_comm, Nat.mul_add_div (by positivity), Nat.div_eq_of_lt (value_lt bytes),
    Nat.add_zero]

/-- Strings of one length that spell one number are one string. -/
theorem value_inj {a b : Bytes} (hlen : a.length = b.length) (h : value a = value b) : a = b := by
  induction a generalizing b with
  | nil => exact (List.length_eq_zero_iff.mp hlen.symm).symm
  | cons x a ih =>
    cases b with
    | nil => simp at hlen
    | cons y b =>
      have hlen' : a.length = b.length := by simpa using hlen
      have hxy : x.toNat = y.toNat := by
        rw [← value_cons_div x a, ← value_cons_div y b, h, hlen']
      rw [value_cons, value_cons, hlen', hxy] at h
      rw [UInt8.toNat_inj.mp hxy, ih hlen' (by omega)]

/-! ## Leading zeros -/

theorem length_significant_le (bytes : Bytes) : (significant bytes).length ≤ bytes.length :=
  (List.dropWhile_suffix _).length_le

theorem head_significant_ne_zero {bytes rest : Bytes} {byte : UInt8}
    (h : significant bytes = byte :: rest) : byte ≠ 0 := by
  have hne : bytes.dropWhile (· == 0) ≠ [] := by
    rw [show bytes.dropWhile (· == 0) = byte :: rest from h]
    simp
  have hhead := List.head_dropWhile_not (· == 0) hne
  simp only [show bytes.dropWhile (· == 0) = byte :: rest from h, List.head_cons] at hhead
  simpa using hhead

theorem le_value_significant (bytes : Bytes) (h : significant bytes ≠ []) :
    256 ^ ((significant bytes).length - 1) ≤ value bytes := by
  obtain ⟨byte, rest, hs⟩ := List.exists_cons_of_ne_nil h
  have hbyte : 0 < byte.toNat := by
    have hne := head_significant_ne_zero hs
    rw [← UInt8.toNat_inj.ne] at hne
    exact Nat.pos_of_ne_zero hne
  rw [← value_significant bytes, hs, value_cons, List.length_cons, Nat.add_sub_cancel]
  exact le_trans (Nat.le_mul_of_pos_left _ hbyte) (Nat.le_add_right _ _)

/-- The significant bytes are as many as the number needs. -/
theorem length_significant_le_iff (bytes : Bytes) (n : Nat) :
    (significant bytes).length ≤ n ↔ value bytes < 256 ^ n := by
  constructor
  · intro h
    calc value bytes = value (significant bytes) := (value_significant bytes).symm
      _ < 256 ^ (significant bytes).length := value_lt _
      _ ≤ 256 ^ n := Nat.pow_le_pow_right (by omega) h
  · intro h
    by_contra hlen
    have hne : significant bytes ≠ [] := by
      intro hnil
      simp [hnil] at hlen
    have hle := le_value_significant bytes hne
    have hpow : 256 ^ n ≤ 256 ^ ((significant bytes).length - 1) :=
      Nat.pow_le_pow_right (by omega) (by omega)
    omega

/-- No string that spells a number is shorter than its significant bytes. -/
theorem length_significant_le_of_value_eq {bytes other : Bytes} (h : other.value = bytes.value) :
    (significant bytes).length ≤ other.length := by
  rw [length_significant_le_iff, ← h]
  exact value_lt other

/-- Leading zeros apart, there is one string for each number. -/
theorem significant_eq_of_value_eq {a b : Bytes} (h : value a = value b) :
    significant a = significant b := by
  have hvalue : (significant a).value = (significant b).value := by
    rw [value_significant, value_significant, h]
  apply value_inj _ hvalue
  apply le_antisymm
  · exact length_significant_le_of_value_eq ((value_significant b).trans h.symm)
  · exact length_significant_le_of_value_eq ((value_significant a).trans h)

/-- The significant bytes are the last ones. -/
theorem significant_eq_drop (bytes : Bytes) :
    significant bytes = bytes.drop (bytes.length - (significant bytes).length) :=
  List.suffix_iff_eq_drop.mp (List.dropWhile_suffix _)

theorem head?_significant_ne_zero (bytes : Bytes) : (significant bytes).head? ≠ some 0 := by
  intro h
  obtain ⟨rest, hs⟩ := List.head?_eq_some_iff.mp h
  exact head_significant_ne_zero hs rfl

end Bytes
end KeyOrder
