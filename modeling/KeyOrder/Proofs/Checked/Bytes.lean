import KeyOrder.Proofs.Checked.Natural
import KeyOrder.Proofs.Natural.Bytes

/-!
# KeyOrder.Proofs.Checked.Bytes

The bytes of a natural by its binary length: as many bytes as the digits need, the top limb cut to
those that the limbs below it leave, and four for each of these. The top limb has one to four
significant bytes, so no difference is negative and no cut is longer than the limb (`toBytes_eq`).
-/

namespace KeyOrder
namespace Checked

/-- How many bytes hold so many binary digits. -/
def byteCount (digits : UInt64) : Option UInt64 := do
  let (whole, left) ← divMod digits 8
  add whole (if left = 0 then 0 else 1)

def toBytes (n : Natural) : Option Bytes :=
  match n.limbs.getLast? with
  | none => some []
  | some top => do
    let digits ← bits n
    let size ← byteCount digits
    let below ← word (n.limbs.length - 1)
    let full ← mul below 4
    let head ← sub size full
    let cut ← sub 4 head
    some ((Bytes.bigEndian 4 top.toNat).drop cut.toNat ++
      n.limbs.dropLast.reverse.flatMap fun limb => Bytes.bigEndian 4 limb.toNat)

theorem byteCount_eq (digits : UInt64) :
    ∃ size, byteCount digits = some size ∧ size.toNat = (digits.toNat + 7) / 8 := by
  have hdigits : digits.toNat < 2 ^ 64 := digits.toNat_lt
  have hwhole : (digits / 8).toNat = digits.toNat / 8 := UInt64.toNat_div digits 8
  have hleft : (digits % 8).toNat = digits.toNat % 8 := UInt64.toNat_mod digits 8
  have hsplit : byteCount digits = add (digits / 8) (if digits % 8 = 0 then 0 else 1) := by
    simp [byteCount, divMod_eq (show 0 < (8 : UInt64).toNat by simp)]
  have hzero : digits % 8 = 0 ↔ digits.toNat % 8 = 0 := by
    rw [← UInt64.toNat_inj, hleft, UInt64.toNat_zero]
  have hsum : (digits / 8).toNat + (if digits % 8 = 0 then 0 else 1 : UInt64).toNat =
      (digits.toNat + 7) / 8 := by
    by_cases hdvd : digits % 8 = 0
    · have hmod := hzero.mp hdvd
      rw [if_pos hdvd, hwhole, UInt64.toNat_zero]
      omega
    · have hmod := mt hzero.mpr hdvd
      rw [if_neg hdvd, hwhole, UInt64.toNat_one]
      omega
  refine ⟨_, hsplit.trans (add_eq (by omega)), ?_⟩
  rw [UInt64.toNat_add, hsum]
  omega

theorem toBytes_eq {n : Natural} (h : n.limbs.length < 2 ^ 58) : toBytes n = some n.toBytes := by
  by_cases hnil : n.limbs = []
  · have hbytes : n.toBytes = [] := by simp [Natural.toBytes, hnil, Bytes.significant]
    simp [toBytes, hnil, hbytes]
  · obtain ⟨low, top, hlimbs, htop, -⟩ := Natural.exists_top hnil
    obtain ⟨hlower, hupper, hbytes⟩ := Natural.toBytes_of_top hlimbs htop
    have hlast : n.limbs.getLast? = some top := by simp [hlimbs]
    have hrest : n.limbs.dropLast = low := by simp [hlimbs]
    have hlength : n.limbs.length = low.length + 1 := by simp [hlimbs]
    have hfour : (4 : UInt64).toNat = 4 := rfl
    -- the size of the result and that of the full limbs
    obtain ⟨size, hcount, hsize⟩ := byteCount_eq n.bits.toUInt64
    rw [toNat_bits h, ← Natural.length_toBytes] at hsize
    have hlow : (UInt64.ofNat low.length).toNat = low.length := Nat.mod_eq_of_lt (by omega)
    have hbelow : word (n.limbs.length - 1) = some (UInt64.ofNat low.length) := by
      rw [hlength, Nat.add_sub_cancel, word_eq (by omega)]
    have hproduct : mul (UInt64.ofNat low.length) 4 = some (UInt64.ofNat low.length * 4) := by
      apply mul_eq
      rw [hlow, hfour]
      omega
    have hfull : (UInt64.ofNat low.length * 4).toNat = 4 * low.length := by
      rw [UInt64.toNat_mul, hlow, hfour]
      omega
    -- what is left for the top limb, and what is cut off it
    obtain ⟨head, hsub, hhead⟩ := sub_toNat
      (show (UInt64.ofNat low.length * 4).toNat ≤ size.toNat by omega)
    obtain ⟨cut, hcut, hcutNat⟩ := sub_toNat (show head.toNat ≤ (4 : UInt64).toNat by omega)
    simp only [toBytes, hlast, bits_eq h, hcount, hbelow, hproduct, hsub, hcut,
      Option.bind_eq_bind, Option.bind_some, hrest]
    rw [hcutNat, hhead, hsize, hfull, hfour, ← hbytes]

end Checked
end KeyOrder
