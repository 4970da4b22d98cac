import KeyOrder.CompactInt
import KeyOrder.Proofs.Bytes.Failing
import KeyOrder.Proofs.Bytes.Value

/-!
# KeyOrder.Proofs.CompactInt.Spelling

The byte strings that spell an integer. An integer has many of them, since a payload may be longer
than it has to be.

* `Spells.reads`   — each is read as the integer it spells, wherever it stands.
* `parses`         — and nothing else is read.
* `Cut`            — the byte strings that are too short for their head, or for having one.
* `Cut.stops`, `diagnoses` — the reader fails on these, with the error and at the place that `Cut`
  gives, and on no others.
* `encode_spells`  — the written form is a spelling.
-/

namespace KeyOrder
namespace CompactInt

open Decoder (Reads Parses Gives Stops Diagnoses)

inductive Spells : Bytes → Int64 → Prop where
  | inline (head : Int8) (h : -112 ≤ head) : Spells [head.toUInt8] head.toInt64
  | plain (payload : Bytes) (hpos : 0 < payload.length) (h : payload.length ≤ 8) :
    Spells ((Int8.ofInt (-112 - payload.length)).toUInt8 :: payload)
      (Int64.ofNat payload.value)
  | complement (payload : Bytes) (hpos : 0 < payload.length) (h : payload.length ≤ 8) :
    Spells ((Int8.ofInt (-120 - payload.length)).toUInt8 :: payload)
      (~~~Int64.ofNat payload.value)

/-- A number below `2^63` as an integer. -/
theorem ofNat_nonneg {n : Nat} (h : n < 2 ^ 63) : 0 ≤ Int64.ofNat n := by
  rw [Int64.le_iff_toInt_le, Int64.toInt_ofNat_of_lt h]
  exact Int.natCast_nonneg _

/-! ## Reading -/

theorem plain_head {n : Nat} (hpos : 0 < n) (h : n ≤ 8) :
    size (Int8.ofInt (-112 - n)) = n + 1 ∧ isNegative (Int8.ofInt (-112 - n)) = false := by
  interval_cases n <;> decide

theorem complement_head {n : Nat} (hpos : 0 < n) (h : n ≤ 8) :
    size (Int8.ofInt (-120 - n)) = n + 1 ∧ isNegative (Int8.ofInt (-120 - n)) = true := by
  interval_cases n <;> decide

theorem reads_payload {head : Int8} {payload : Bytes} (hpos : 0 < payload.length)
    (hsize : size head = payload.length + 1) :
    Reads read (head.toUInt8 :: payload) (ofPayload (isNegative head) payload) := by
  have hne : ¬size head = 1 := by omega
  apply Reads.bind (Reads.signedByte head)
  rw [if_neg hne, hsize, Nat.add_sub_cancel]
  exact Reads.bind_pure (Reads.take payload) _

theorem Spells.reads {bytes : Bytes} {v : Int64} (h : Spells bytes v) : Reads read bytes v := by
  cases h with
  | inline head hhead =>
    have hsize : size head = 1 := if_pos hhead
    have hpure := Reads.pure head.toInt64
    apply Reads.bind (Reads.signedByte head)
    rw [if_pos hsize]
    exact hpure
  | plain payload hpos h8 =>
    obtain ⟨hsize, hnegative⟩ := plain_head hpos h8
    have hreads := reads_payload hpos hsize
    rw [hnegative] at hreads
    exact hreads
  | complement payload hpos h8 =>
    obtain ⟨hsize, hnegative⟩ := complement_head hpos h8
    have hreads := reads_payload hpos hsize
    rw [hnegative] at hreads
    exact hreads

theorem inline_le {head : Int8} (hsize : size head = 1) : -112 ≤ head := by
  by_contra hhead
  have hlt : head.toInt < -112 := by
    rw [Int8.le_iff_toInt_le] at hhead
    exact not_le.mp hhead
  rw [size, if_neg hhead] at hsize
  by_cases hneg : head < -120
  · have hlt' : head.toInt < -120 := Int8.lt_iff_toInt_lt.mp hneg
    rw [if_pos hneg] at hsize
    omega
  · rw [if_neg hneg] at hsize
    omega

/-- The heads before payloads are those of `Spells`. -/
theorem head_cases {head : Int8} (hsize : size head ≠ 1) :
    ∃ n : Nat, size head = n + 1 ∧ 0 < n ∧ n ≤ 8 ∧
      (isNegative head = false ∧ head = Int8.ofInt (-112 - n) ∨
        isNegative head = true ∧ head = Int8.ofInt (-120 - n)) := by
  have hleast : -128 ≤ head.toInt := head.le_toInt
  have hinline : ¬-112 ≤ head := fun h => hsize (if_pos h)
  have hlt : head.toInt < -112 := by
    rw [Int8.le_iff_toInt_le] at hinline
    exact not_le.mp hinline
  by_cases hneg : head < -120
  · have hlt' : head.toInt < -120 := Int8.lt_iff_toInt_lt.mp hneg
    refine ⟨(-120 - head.toInt).toNat, ?_, by omega, by omega, .inr ⟨?_, ?_⟩⟩
    · rw [size, if_neg hinline, if_pos hneg]
      omega
    · simp [isNegative, hneg]
    · rw [Int.toNat_of_nonneg (by omega), sub_sub_cancel, Int8.ofInt_toInt]
  · have hle : -120 ≤ head.toInt := by
      rw [Int8.lt_iff_toInt_lt] at hneg
      exact not_lt.mp hneg
    refine ⟨(-112 - head.toInt).toNat, ?_, by omega, by omega, .inl ⟨?_, ?_⟩⟩
    · rw [size, if_neg hinline, if_neg hneg]
      omega
    · simp [isNegative, hneg, hinline]
    · rw [Int.toNat_of_nonneg (by omega), sub_sub_cancel, Int8.ofInt_toInt]

theorem parses : Parses read Spells := by
  apply Parses.bind Parses.signedByte
  rintro head _ rfl
  by_cases hsize : size head = 1
  · rw [if_pos hsize]
    exact Parses.pure (.inline head (inline_le hsize))
  · rw [if_neg hsize]
    obtain ⟨n, hn, hpos, h8, hcases⟩ := head_cases hsize
    apply Parses.bind (Parses.take _)
    rintro payload _ ⟨rfl, hlength⟩
    rw [hn, Nat.add_sub_cancel] at hlength
    subst hlength
    apply Parses.pure
    rw [List.append_nil]
    rcases hcases with ⟨hnegative, hhead⟩ | ⟨hnegative, hhead⟩
    · rw [hnegative, hhead]
      exact .plain _ hpos h8
    · rw [hnegative, hhead]
      exact .complement _ hpos h8

theorem gives (buffer : Bytes) : Gives read buffer fun _ => True := by
  apply Gives.bind Gives.signedByte
  intro head _
  by_cases hsize : size head = 1
  · rw [if_pos hsize]
    exact Gives.pure trivial
  · rw [if_neg hsize]
    exact Gives.bind (Gives.take _) fun _ _ => Gives.pure trivial

/-! ## Spellings that are cut short -/

/-- What is left of a spelling that is cut short, the error, and how much of it is read before. -/
inductive Cut : Bytes → DecodeError → Nat → Prop where
  | head : Cut [] .unexpectedEnd 0
  | plain {n : Nat} (rest : Bytes) (hpos : 0 < n) (h : n ≤ 8) (hshort : rest.length < n) :
    Cut ((Int8.ofInt (-112 - n)).toUInt8 :: rest) (.bufferTooShort n rest.length) 1
  | complement {n : Nat} (rest : Bytes) (hpos : 0 < n) (h : n ≤ 8) (hshort : rest.length < n) :
    Cut ((Int8.ofInt (-120 - n)).toUInt8 :: rest) (.bufferTooShort n rest.length) 1

theorem stops_payload {head : Int8} {n : Nat} {rest : Bytes} (hpos : 0 < n)
    (hsize : size head = n + 1) (hshort : rest.length < n) :
    Stops read (head.toUInt8 :: rest) (.bufferTooShort n rest.length) 1 := by
  have hne : ¬size head = 1 := by omega
  refine Stops.after (k := 0) (Reads.signedByte head) ?_
  rw [if_neg hne, hsize, Nat.add_sub_cancel]
  exact (Stops.take hshort).bind _

theorem Cut.stops {rest : Bytes} {e : DecodeError} {k : Nat} (h : Cut rest e k) :
    Stops read rest e k := by
  cases h with
  | head => exact Stops.signedByte.bind _
  | plain rest hpos h8 hshort => exact stops_payload hpos (plain_head hpos h8).1 hshort
  | complement rest hpos h8 hshort => exact stops_payload hpos (complement_head hpos h8).1 hshort

theorem diagnoses : Diagnoses read Cut := by
  apply Diagnoses.bind _ Parses.signedByte
  · rintro head _ rfl
    by_cases hsize : size head = 1
    · rw [if_pos hsize]
      exact Diagnoses.pure _ _
    · rw [if_neg hsize]
      obtain ⟨n, hn, hpos, h8, hcases⟩ := head_cases hsize
      rw [hn, Nat.add_sub_cancel]
      apply Diagnoses.bind _ (Parses.take n) fun payload _ _ => Diagnoses.pure _ _
      apply (Diagnoses.take n).imp
      rintro rest e k ⟨hshort, rfl, rfl⟩
      rcases hcases with ⟨-, rfl⟩ | ⟨-, rfl⟩
      · exact .plain rest hpos h8 hshort
      · exact .complement rest hpos h8 hshort
  · apply Diagnoses.bind _ Parses.byte fun b _ _ => Diagnoses.pure _ _
    apply Diagnoses.byte.imp
    rintro rest e k ⟨rfl, rfl, rfl⟩
    exact .head

/-! ## Writing -/

theorem toNat_lt_payload (word : UInt64) : word.toNat < 256 ^ payloadSize word := by
  have hlt : word.toNat < 2 ^ (word.toNat.log2 + 1) := Nat.lt_log2_self
  have hpow : (256 : Nat) ^ payloadSize word = 2 ^ (8 * payloadSize word) := by
    rw [pow_mul]
    norm_num
  rw [hpow]
  refine lt_of_lt_of_le hlt (Nat.pow_le_pow_right (by omega) ?_)
  unfold payloadSize
  omega

theorem payloadSize_le (word : UInt64) : payloadSize word ≤ 8 := by
  have hword : word.toNat < 2 ^ 64 := word.toNat_lt
  have hlog : word.toNat.log2 < 64 := by
    by_cases hzero : word.toNat = 0
    · rw [hzero]
      decide
    · exact (Nat.log2_lt hzero).mpr hword
  unfold payloadSize
  omega

theorem payload_spells (word : UInt64) :
    0 < (Bytes.bigEndian (payloadSize word) word.toNat).length ∧
      (Bytes.bigEndian (payloadSize word) word.toNat).length ≤ 8 ∧
      Int64.ofNat (Bytes.bigEndian (payloadSize word) word.toNat).value = word.toInt64 := by
  rw [Bytes.length_bigEndian, Bytes.value_bigEndian_of_lt (toNat_lt_payload word)]
  refine ⟨Nat.succ_pos _, payloadSize_le word, ?_⟩
  simp [Int64.ofNat, UInt64.toInt64]

theorem toInt_head {v : Int64} (h : -112 ≤ v ∧ v ≤ 127) : v.toInt8.toInt = v.toInt := by
  have hlow : -112 ≤ v.toInt := Int64.le_iff_toInt_le.mp h.1
  have hhigh : v.toInt ≤ 127 := Int64.le_iff_toInt_le.mp h.2
  rw [Int64.toInt_toInt8]
  exact Int.bmod_eq_of_le (by omega) (by omega)

theorem encode_spells (v : Int64) : Spells (encode v) v := by
  unfold encode
  by_cases hinline : -112 ≤ v ∧ v ≤ 127
  · rw [if_pos hinline]
    have hhead : -112 ≤ v.toInt8 := by
      rw [Int8.le_iff_toInt_le, toInt_head hinline]
      exact Int64.le_iff_toInt_le.mp hinline.1
    have hvalue : v.toInt8.toInt64 = v := by
      rw [← Int64.toInt_inj, Int8.toInt_toInt64, toInt_head hinline]
    have hspells := Spells.inline v.toInt8 hhead
    rw [hvalue] at hspells
    exact hspells
  · rw [if_neg hinline]
    by_cases hneg : v < 0
    · simp only [if_pos hneg]
      obtain ⟨hpos, h8, hvalue⟩ := payload_spells (~~~v).toUInt64
      have hspells := Spells.complement _ hpos h8
      rw [hvalue, Bytes.length_bigEndian] at hspells
      simpa using hspells
    · simp only [if_neg hneg]
      obtain ⟨hpos, h8, hvalue⟩ := payload_spells v.toUInt64
      have hspells := Spells.plain _ hpos h8
      rw [hvalue, Bytes.length_bigEndian] at hspells
      simpa using hspells

end CompactInt
end KeyOrder
