import KeyOrder.Proofs.Checked.PowerTable

/-!
# KeyOrder.Proofs.PowerTable.Tiling

The slots of the table in the order of the powers that they are for. An index has one slot and a
slot one index (`locate_eq_of_sum`); the slot of the next index is the next one, which is in another
segment only behind the last slot of a segment (`locate_succ`). So the segments are filled one after
another, each to its end, and looking a power up and filling it in concern one slot (`slots_tile`).
-/

namespace KeyOrder

namespace Slot

/-- The exponent of the power that the slot is for. -/
def index (slot : Slot) : Nat := PowerTable.segmentSize slot.segment - 64 + slot.offset

/-- The slot after it, the first of the next segment if it is the last of its own. -/
def next (slot : Slot) : Slot :=
  if slot.offset + 1 < PowerTable.segmentSize slot.segment then
    ⟨slot.segment, slot.offset + 1⟩
  else
    ⟨slot.segment + 1, 0⟩

end Slot

namespace PowerTable

theorem segmentSize_succ (segment : Nat) : segmentSize (segment + 1) = 2 * segmentSize segment := by
  rw [segmentSize_eq, segmentSize_eq]
  exact pow_succ' 2 (segment + 6)

theorem le_segmentSize (segment : Nat) : 64 ≤ segmentSize segment := by
  calc 64 = 2 ^ 6 := rfl
    _ ≤ 2 ^ (segment + 6) := Nat.pow_le_pow_right (by omega) (Nat.le_add_left 6 segment)
    _ = segmentSize segment := (segmentSize_eq segment).symm

/-- The slot of an index is the only one that the segments before it and its offset lead to. -/
theorem locate_eq_of_sum {index : Nat} {slot : Slot}
    (hoffset : slot.offset < segmentSize slot.segment)
    (hsum : index + 64 = segmentSize slot.segment + slot.offset) : locate index = slot := by
  rw [segmentSize_eq] at hoffset hsum
  have htop : (index + 64).log2 = slot.segment + 6 := by
    have hdouble : 2 ^ (slot.segment + 6 + 1) = 2 * 2 ^ (slot.segment + 6) := pow_succ' 2 _
    rw [Nat.log2_eq_iff (by omega)]
    omega
  have hsegment : (locate index).segment = slot.segment := by
    show (index + 64).log2 - 6 = slot.segment
    omega
  have hrest : (locate index).offset = slot.offset := by
    rw [offset_eq, htop, hsum, Nat.add_sub_cancel_left]
  calc locate index = ⟨(locate index).segment, (locate index).offset⟩ := rfl
    _ = ⟨slot.segment, slot.offset⟩ := by rw [hsegment, hrest]
    _ = slot := rfl

theorem locate_index {slot : Slot} (h : slot.offset < segmentSize slot.segment) :
    locate slot.index = slot := by
  apply locate_eq_of_sum h
  have hle := le_segmentSize slot.segment
  unfold Slot.index
  omega

theorem index_locate (index : Nat) : (locate index).index = index := by
  have hle := le_segmentSize (locate index).segment
  have hsum := locate_sum index
  unfold Slot.index
  omega

theorem locate_succ (index : Nat) : locate (index + 1) = (locate index).next := by
  have hsum := locate_sum index
  have hlt := offset_lt index
  unfold Slot.next
  by_cases hnext : (locate index).offset + 1 < segmentSize (locate index).segment
  · rw [if_pos hnext]
    apply locate_eq_of_sum hnext
    show index + 1 + 64 = segmentSize (locate index).segment + ((locate index).offset + 1)
    omega
  · have hsucc := segmentSize_succ (locate index).segment
    rw [if_neg hnext]
    apply locate_eq_of_sum
    · show 0 < segmentSize ((locate index).segment + 1)
      omega
    · show index + 1 + 64 = segmentSize ((locate index).segment + 1) + 0
      omega

/-- The slot of a 32-bit exponent is in the table: there are 27 segments, and it lies inside its
own, behind the slots of the segments before. It is found without an overflow. No two indices share
a slot, every slot is that of its index, and from the first slot on the indices take one slot after
the other, so that a segment is full when the next one begins. In any table, looking a power up
reads that slot, and filling the power in is in range, gives what the slot then holds and touches
no other slot. -/
theorem slots_tile :
    (∀ exponent : UInt32, (locate exponent.toNat).segment < 27 ∧
      (locate exponent.toNat).offset < segmentSize (locate exponent.toNat).segment ∧
      exponent.toNat =
        2 ^ ((locate exponent.toNat).segment + 6) - 64 + (locate exponent.toNat).offset ∧
      Checked.locate exponent.toUInt64 = some (locate exponent.toNat) ∧
      ∃ size, Checked.segmentSize (UInt64.ofNat (locate exponent.toNat).segment) = some size ∧
        size.toNat = segmentSize (locate exponent.toNat).segment) ∧
    Function.Injective locate ∧
    (∀ slot : Slot, slot.offset < segmentSize slot.segment → locate slot.index = slot) ∧
    locate 0 = ⟨0, 0⟩ ∧ (∀ index, locate (index + 1) = (locate index).next) ∧
    Shaped blank ∧
    ∀ t : PowerTable, Shaped t → ∀ (exponent : UInt32) (power : Natural),
      t.lookup exponent.toNat = t.stored? (locate exponent.toNat) ∧
      Checked.store t exponent.toNat power = some (t.store exponent.toNat power) ∧
      (t.store exponent.toNat power).1 = (t.stored? (locate exponent.toNat)).getD power ∧
      Shaped (t.store exponent.toNat power).2 ∧
      ∀ slot, (t.store exponent.toNat power).2.stored? slot =
        if slot = locate exponent.toNat then (t.stored? slot).or (some power)
        else t.stored? slot := by
  refine ⟨?_, fun i j => locate_injective, fun slot => locate_index, rfl, locate_succ,
    blank_holds.shaped, ?_⟩
  · intro exponent
    have hexponent : exponent.toNat < 2 ^ 32 := exponent.toNat_lt
    have hsegment : (locate exponent.toNat).segment < 27 := segment_lt hexponent
    have hword : (UInt64.ofNat (locate exponent.toNat).segment).toNat =
        (locate exponent.toNat).segment := Nat.mod_eq_of_lt (by omega)
    have hsize := Checked.segmentSize_eq (show _ < segmentCount from hword.symm ▸ hsegment)
    rw [hword] at hsize
    refine ⟨hsegment, offset_lt _, ?_, Checked.locate_eq hexponent, hsize⟩
    rw [← segmentSize_eq]
    exact (index_locate exponent.toNat).symm
  · intro t ht exponent power
    have hexponent : exponent.toNat < 2 ^ 32 := exponent.toNat_lt
    have hentry : (t.store exponent.toNat power).1 =
        (t.stored? (locate exponent.toNat)).getD power := by
      rw [← lookup_eq]
      rfl
    exact ⟨lookup_eq t _, Checked.store_eq ht hexponent power, hentry, store_shaped ht _ power,
      stored?_store ht hexponent power⟩

/-- The last slot of a segment is filled, and the first one of the next segment stays empty. -/
theorem slots_tile_last :
    Shaped new ∧ (new.store 191 Natural.zero).2.stored? ⟨1, 127⟩ = some Natural.zero ∧
      (new.store 191 Natural.zero).2.stored? ⟨2, 0⟩ = none := by
  have hnew : Shaped new := new_filled.holds.shaped
  have hempty : ∀ index, 20 ≤ index → new.stored? (locate index) = none := by
    intro index hindex
    rw [← lookup_eq]
    exact lookup_of_le new_filled.holds hindex
  have hlast : locate 191 = ⟨1, 127⟩ := by decide
  have hfirst : locate 192 = ⟨2, 0⟩ := by decide
  obtain ⟨-, -, -, -, -, -, htables⟩ := slots_tile
  obtain ⟨-, -, -, -, hentry⟩ := htables new hnew 191 Natural.zero
  have hindex : (191 : UInt32).toNat = 191 := rfl
  rw [hindex, hlast] at hentry
  refine ⟨hnew, ?_, ?_⟩
  · rw [hentry, if_pos rfl, ← hlast, hempty 191 (by omega), Option.none_or]
  · rw [hentry, if_neg (by decide), ← hfirst, hempty 192 (by omega)]

end PowerTable
end KeyOrder
