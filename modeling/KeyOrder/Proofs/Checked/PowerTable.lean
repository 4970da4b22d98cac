import KeyOrder.Proofs.Checked.Product
import KeyOrder.Proofs.Decimal.BitLength
import KeyOrder.Proofs.PowerTable.Filled

/-!
# KeyOrder.Proofs.Checked.PowerTable

The table of powers with checked words and indices. A slot is found by counting the leading zeros
of a word, which for an index of 32 bits is the leading binary digit told from the other end
(`locate_eq`). The slot has to be in its table, and the power that an extension starts from has to
be there. From a filled table every request passes (`get_eq`), as the powers that fill it are no
longer than their products may be.
-/

namespace KeyOrder
namespace Checked

open PowerTable (Shaped Holds Filled)

/-! ## Slots -/

/-- Leading binary zeros. -/
def leadingZeros (a : UInt64) : UInt64 := ⟨a.toBitVec.clz⟩

def shiftLeft (a n : UInt64) : Option UInt64 := if n < 64 then some (a <<< n) else none

def locate (index : UInt64) : Option Slot := do
  let shifted ← add index 64
  let top ← sub 63 (leadingZeros shifted)
  let segment ← sub top 6
  let size ← shiftLeft 1 top
  let offset ← sub shifted size
  some ⟨segment.toNat, offset.toNat⟩

def segmentSize (segment : UInt64) : Option UInt64 := do
  let digits ← add segment 6
  shiftLeft 1 digits

theorem leadingZeros_add_log2 {a : UInt64} (h : 0 < a.toNat) :
    (leadingZeros a).toNat + a.toNat.log2 = 63 := by
  have hne : a.toBitVec ≠ 0#64 := by
    intro hzero
    rw [show a.toNat = a.toBitVec.toNat from rfl, hzero] at h
    exact absurd h (by decide)
  have hlow : 2 ^ (63 - (leadingZeros a).toNat) ≤ a.toNat :=
    BitVec.two_pow_sub_clz_le_toNat_of_ne_zero (by decide) hne
  have hhigh : a.toNat < 2 ^ (64 - (leadingZeros a).toNat) := BitVec.toNat_lt_two_pow_sub_clz
  have hlt : (leadingZeros a).toNat < 64 := by
    by_contra hge
    rw [Nat.sub_eq_zero_of_le (not_lt.mp hge), pow_zero] at hhigh
    omega
  have hlog : a.toNat.log2 = 63 - (leadingZeros a).toNat := by
    rw [Nat.log2_eq_iff (Nat.pos_iff_ne_zero.mp h)]
    refine ⟨hlow, ?_⟩
    rw [show 63 - (leadingZeros a).toNat + 1 = 64 - (leadingZeros a).toNat by omega]
    exact hhigh
  omega

theorem shiftLeft_one {n : UInt64} (h : n.toNat < 64) :
    ∃ size, shiftLeft 1 n = some size ∧ size.toNat = 2 ^ n.toNat := by
  have hpow : 2 ^ n.toNat < 2 ^ 64 := Nat.pow_lt_pow_right (by omega) h
  refine ⟨_, if_pos (UInt64.lt_iff_toNat_lt.mpr h), ?_⟩
  rw [UInt64.toNat_shiftLeft, Nat.mod_eq_of_lt h, UInt64.toNat_one, Nat.one_shiftLeft,
    Nat.mod_eq_of_lt hpow]

/-- The leading binary digit of a word is where its leading zeros end. -/
theorem locate_eq {index : UInt64} (h : index.toNat < 2 ^ 32) :
    locate index = some (PowerTable.locate index.toNat) := by
  obtain ⟨shifted, hadd, hshifted⟩ := add_toNat (b := 64)
    (show index.toNat + (64 : UInt64).toNat < 2 ^ 64 by
      show index.toNat + 64 < 2 ^ 64
      omega)
  have hsum : shifted.toNat = index.toNat + 64 := hshifted
  have hzeros := leadingZeros_add_log2 (show 0 < shifted.toNat by omega)
  have hsix := PowerTable.six_le_log2 index.toNat
  rw [hsum] at hzeros
  obtain ⟨top, htop, htopNat⟩ := sub_toNat (a := 63) (b := leadingZeros shifted)
    (show (leadingZeros shifted).toNat ≤ 63 by omega)
  have htopLog : top.toNat = (index.toNat + 64).log2 := by
    have h63 : (63 : UInt64).toNat = 63 := rfl
    omega
  obtain ⟨segment, hsegment, hsegmentNat⟩ := sub_toNat (a := top) (b := 6)
    (show 6 ≤ top.toNat by omega)
  obtain ⟨size, hsize, hsizeNat⟩ := shiftLeft_one (show top.toNat < 64 by omega)
  have hle : size.toNat ≤ shifted.toNat := by
    rw [hsizeNat, htopLog, hsum]
    exact Nat.log2_self_le (by omega)
  obtain ⟨offset, hoffset, hoffsetNat⟩ := sub_toNat hle
  have hsegmentEq : segment.toNat = (PowerTable.locate index.toNat).segment := by
    rw [hsegmentNat, htopLog]
    rfl
  have hoffsetEq : offset.toNat = (PowerTable.locate index.toNat).offset := by
    rw [hoffsetNat, hsizeNat, htopLog, hsum, PowerTable.offset_eq]
  simp only [locate, hadd, htop, hsegment, hsize, hoffset, hsegmentEq, hoffsetEq,
    Option.bind_eq_bind, Option.bind_some]

theorem segmentSize_eq {segment : UInt64} (h : segment.toNat < PowerTable.segmentCount) :
    ∃ size, segmentSize segment = some size ∧
      size.toNat = PowerTable.segmentSize segment.toNat := by
  have hlt : segment.toNat < 27 := h
  obtain ⟨digits, hadd, hdigits⟩ := add_toNat (b := 6)
    (show segment.toNat + (6 : UInt64).toNat < 2 ^ 64 by
      show segment.toNat + 6 < 2 ^ 64
      omega)
  have hsum : digits.toNat = segment.toNat + 6 := hdigits
  obtain ⟨size, hsize, hsizeNat⟩ := shiftLeft_one (show digits.toNat < 64 by omega)
  refine ⟨size, ?_, ?_⟩
  · simp only [segmentSize, hadd, hsize, Option.bind_eq_bind, Option.bind_some]
  · rw [hsizeNat, hsum, PowerTable.segmentSize_eq]

/-! ## Requests -/

/-- What the slot of `10^index` holds. -/
def lookup (t : PowerTable) (index : Nat) : Option (Option Natural) := do
  let index ← word index
  let slot ← locate index
  some (t.stored? slot)

/-- The slots of a segment that the table has. -/
def slotsOf (t : PowerTable) (segment : Nat) : Option (Array (Option Natural)) := do
  let slots ← t.segments[segment]?
  if slots.isEmpty then do
    let size ← segmentSize (UInt64.ofNat segment)
    some (Array.replicate size.toNat none)
  else
    some slots

def store (t : PowerTable) (index : Nat) (power : Natural) : Option (Natural × PowerTable) := do
  let index ← word index
  let slot ← locate index
  let slots ← slotsOf t slot.segment
  let entry ← slots[slot.offset]?
  let stored := entry.getD power
  let slots := slots.setIfInBounds slot.offset (some stored)
  some (stored, { t with segments := t.segments.setIfInBounds slot.segment slots })

def fill (t : PowerTable) (last : Natural) (index : Nat) : Nat → Option (Natural × PowerTable)
  | 0 => some (last, t)
  | count + 1 => do
    let next ← multiplyLimb last 10
    let (next, t) ← store t index next
    fill t next (index + 1) count

def extendTo (t : PowerTable) (index : Nat) : Option (Natural × PowerTable) := do
  let populated ← word t.populated
  let before ← sub populated 1
  let last ← (← lookup t before.toNat)
  let size ← word (index + 1)
  let (power, filled) ← fill t last t.populated (size.toNat - t.populated)
  some (power, { filled with populated := size.toNat })

def get (t : PowerTable) (exponent : UInt32) : Option (Natural × PowerTable) := do
  match ← lookup t exponent.toNat with
  | some power => some (power, t)
  | none => extendTo t exponent.toNat

/-- The slot of an index that is a word. -/
theorem locate_word {index : Nat} (h : index < 2 ^ 32) :
    (word index).bind locate = some (PowerTable.locate index) := by
  obtain ⟨w, hword, hindex⟩ := word_toNat (show index < 2 ^ 64 by omega)
  rw [hword, Option.bind_some, locate_eq (by omega), hindex]

theorem lookup_eq {index : Nat} (h : index < 2 ^ 32) (t : PowerTable) :
    lookup t index = some (t.lookup index) := by
  simp only [lookup, Option.bind_eq_bind, ← Option.bind_assoc, locate_word h, Option.bind_some,
    PowerTable.lookup_eq]

theorem slotsOf_eq {t : PowerTable} {segment : Nat} {slots : Array (Option Natural)}
    (hslots : t.segments[segment]? = some slots) (h : segment < PowerTable.segmentCount) :
    slotsOf t segment = some (PowerTable.allocate segment slots) := by
  have hsegment : segment < 27 := h
  have hword : (UInt64.ofNat segment).toNat = segment := UInt64.toNat_ofNat_of_lt' (by
    show segment < 2 ^ 64
    omega)
  obtain ⟨size, hsize, hsizeNat⟩ := segmentSize_eq (hword.symm ▸ h)
  rw [hword] at hsizeNat
  simp only [slotsOf, hslots, hsize, hsizeNat, Option.bind_eq_bind, Option.bind_some,
    PowerTable.allocate]
  split_ifs <;> rfl

theorem modify_eq_setIfInBounds {α : Type} {xs : Array α} {i : Nat} {x : α} (h : xs[i]? = some x)
    (f : α → α) : xs.modify i f = xs.setIfInBounds i (f x) := by
  obtain ⟨hi, -⟩ := Array.getElem?_eq_some_iff.mp h
  apply Array.ext_getElem?
  intro j
  rw [Array.getElem?_modify, Array.getElem?_setIfInBounds]
  by_cases hij : i = j
  · subst hij
    rw [if_pos rfl, if_pos rfl, if_pos hi, h, Option.map_some]
  · rw [if_neg hij, if_neg hij]

theorem store_eq {t : PowerTable} (ht : Shaped t) {index : Nat} (hi : index < 2 ^ 32)
    (power : Natural) : store t index power = some (t.store index power) := by
  have hsegment : (PowerTable.locate index).segment < PowerTable.segmentCount :=
    PowerTable.segment_lt hi
  obtain ⟨slots, hslots⟩ : ∃ slots, t.segments[(PowerTable.locate index).segment]? = some slots :=
    ⟨_, Array.getElem?_eq_getElem (ht.segments_size ▸ hsegment)⟩
  have hsize := PowerTable.size_allocate (ht.slots_size _ _ hslots)
  have hoffset := PowerTable.offset_lt index
  obtain ⟨entry, hentry⟩ : ∃ entry, (PowerTable.allocate (PowerTable.locate index).segment
      slots)[(PowerTable.locate index).offset]? = some entry :=
    ⟨_, Array.getElem?_eq_getElem (hsize ▸ hoffset)⟩
  have hlookup : t.lookup index = entry := by
    rw [PowerTable.lookup_eq, PowerTable.stored?, hslots, Option.bind_some,
      ← PowerTable.join_allocate (PowerTable.locate index).segment, hentry, Option.join_some]
  simp only [store, Option.bind_eq_bind, ← Option.bind_assoc, locate_word hi]
  simp only [Option.bind_some, slotsOf_eq hslots hsegment, hentry, PowerTable.store, hlookup,
    modify_eq_setIfInBounds hslots, modify_eq_setIfInBounds hentry, Option.or_some]

/-- The powers that the table is for are short enough for a product. -/
theorem power_limbs_lt {power : Natural} {n : Nat} (hn : n < 2 ^ 32) (h : power.value = 10 ^ n) :
    power.limbs.length < 2 ^ 58 := by
  have hle := Decimal.length_scaled_le (b := Natural.ofUInt64 1) hn (p := power) (by
    rw [h, Natural.value_ofUInt64, UInt64.toNat_one, Nat.one_mul])
  have hone : (Natural.ofUInt64 1).limbs.length = 1 := by decide
  omega

theorem fill_eq (count : Nat) :
    ∀ (t : PowerTable) (last : Natural) (n : Nat), Holds t (n + 1) → last.value = 10 ^ n →
      n + 1 + count ≤ 2 ^ 32 → fill t last (n + 1) count = some (t.fill last (n + 1) count) := by
  induction count with
  | zero =>
    intro t last n _ _ _
    rfl
  | succ count ih =>
    intro t last n ht hlast hmost
    obtain ⟨hnext, hstored⟩ := PowerTable.store_next ht hlast (by omega)
    simp only [fill, multiplyLimb_eq (power_limbs_lt (by omega) hlast),
      store_eq ht.shaped (show n + 1 < 2 ^ 32 by omega), Option.bind_eq_bind, Option.bind_some]
    rw [PowerTable.fill_succ]
    exact ih _ _ _ hstored hnext (by omega)

theorem extendTo_eq {t : PowerTable} (ht : Filled t) {index : Nat} (hle : t.populated ≤ index)
    (hi : index < 2 ^ 32) : extendTo t index = some (t.extendTo index) := by
  have hleast := ht.least
  obtain ⟨n, hn⟩ : ∃ n, t.populated = n + 1 := ⟨t.populated - 1, by omega⟩
  obtain ⟨populated, hpopulated, hpopulatedNat⟩ := word_toNat (show n + 1 < 2 ^ 64 by omega)
  obtain ⟨before, hbefore, hbeforeNat⟩ := sub_toNat (a := populated) (b := 1)
    (show 1 ≤ populated.toNat by omega)
  have hbeforeEq : before.toNat = n := by
    rw [hbeforeNat, hpopulatedNat]
    rfl
  obtain ⟨size, hsize, hsizeNat⟩ := word_toNat (show index + 1 < 2 ^ 64 by omega)
  have hholds : Holds t (n + 1) := hn ▸ ht.holds
  obtain ⟨last, hlast, hlastValue⟩ := PowerTable.lookup_of_lt hholds (show n < n + 1 by omega)
  simp only [extendTo, PowerTable.extendTo, hn, Nat.add_sub_cancel, hpopulated, hbefore, hbeforeEq,
    lookup_eq (show n < 2 ^ 32 by omega), hlast, hsize, hsizeNat, Option.bind_eq_bind,
    Option.bind_some,
    fill_eq _ t last n hholds hlastValue (show n + 1 + (index + 1 - (n + 1)) ≤ 2 ^ 32 by omega)]

theorem get_eq {t : PowerTable} (ht : Filled t) (exponent : UInt32) :
    get t exponent = some (t.get exponent) := by
  have hexponent : exponent.toNat < 2 ^ 32 := exponent.toNat_lt
  simp only [get, PowerTable.get, lookup_eq hexponent, Option.bind_eq_bind, Option.bind_some]
  by_cases hlt : exponent.toNat < t.populated
  · obtain ⟨power, hlookup, -⟩ := PowerTable.lookup_of_lt ht.holds hlt
    rw [hlookup]
  · have hle : t.populated ≤ exponent.toNat := not_lt.mp hlt
    rw [PowerTable.lookup_of_le ht.holds hle]
    exact extendTo_eq ht hle hexponent

end Checked
end KeyOrder
