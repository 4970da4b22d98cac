import Mathlib
import KeyOrder.PowerTable

/-!
# KeyOrder.Proofs.PowerTable.Slot

Where a power stands in the table. The slot of an index lies inside its segment, segments follow
one another without a gap (`locate_sum`), and so no two indices share a slot.
-/

namespace KeyOrder
namespace PowerTable

theorem segmentSize_eq (segment : Nat) : segmentSize segment = 2 ^ (segment + 6) :=
  Nat.one_shiftLeft _

theorem six_le_log2 (index : Nat) : 6 ≤ (index + 64).log2 :=
  (Nat.le_log2 (by omega)).mpr (by omega)

theorem segmentSize_locate (index : Nat) :
    segmentSize (locate index).segment = 2 ^ (index + 64).log2 := by
  rw [segmentSize_eq]
  exact congrArg (2 ^ ·) (Nat.sub_add_cancel (six_le_log2 index))

theorem offset_eq (index : Nat) :
    (locate index).offset = index + 64 - 2 ^ (index + 64).log2 :=
  congrArg (index + 64 - ·) (Nat.one_shiftLeft _)

theorem offset_lt (index : Nat) :
    (locate index).offset < segmentSize (locate index).segment := by
  have hlt : index + 64 < 2 ^ ((index + 64).log2 + 1) := Nat.lt_log2_self
  rw [pow_succ] at hlt
  rw [segmentSize_locate, offset_eq]
  omega

theorem locate_sum (index : Nat) :
    index + 64 = segmentSize (locate index).segment + (locate index).offset := by
  have hle : 2 ^ (index + 64).log2 ≤ index + 64 := Nat.log2_self_le (by omega)
  rw [segmentSize_locate, offset_eq]
  omega

theorem locate_injective {i j : Nat} (h : locate i = locate j) : i = j := by
  have hi := locate_sum i
  have hj := locate_sum j
  rw [h] at hi
  omega

/-- The segments hold a slot for every 32-bit exponent. -/
theorem segment_lt {index : Nat} (h : index < 2 ^ 32) :
    (locate index).segment < segmentCount := by
  have htop : (index + 64).log2 < 33 := (Nat.log2_lt (by omega)).mpr (by omega)
  show (index + 64).log2 - 6 < 27
  omega

end PowerTable
end KeyOrder
