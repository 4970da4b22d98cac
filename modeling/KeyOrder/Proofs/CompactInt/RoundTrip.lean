import KeyOrder.Decimal.Encode
import KeyOrder.Proofs.Bytes.Writing
import KeyOrder.Proofs.CompactInt.Spelling

/-!
# KeyOrder.Proofs.CompactInt.RoundTrip

Integers are read back as they were written, each in the bytes that its head tells, and no spelling
of an integer is shorter than the written one (`Spells.length_encode_le`).

A payload of fewer than eight bytes spells a number that it holds, so the written payload, which
has as many bytes as the number needs, is no longer. A payload of eight bytes may wrap, but no
written form is longer than that.
-/

namespace KeyOrder
namespace CompactInt

open Decoder (Reads ReadsBack)
open Writer (Appends)

theorem write_appends (v : Int64) : Appends (write v) (encode v) := .bytes _

/-- The head of a spelling tells its length. -/
theorem Spells.head {bytes : Bytes} {v : Int64} (h : Spells bytes v) :
    ∃ (head : Int8) (payload : Bytes), bytes = head.toUInt8 :: payload ∧
      bytes.length = size head ∧ 1 ≤ size head ∧ size head ≤ 9 := by
  cases h with
  | inline head hhead =>
    have hsize : size head = 1 := if_pos hhead
    exact ⟨head, [], rfl, hsize.symm, hsize.ge, by omega⟩
  | plain payload hpos h8 =>
    have hsize := (plain_head hpos h8).1
    exact ⟨_, payload, rfl, hsize.symm, by omega, by omega⟩
  | complement payload hpos h8 =>
    have hsize := (complement_head hpos h8).1
    exact ⟨_, payload, rfl, hsize.symm, by omega, by omega⟩

/-! ## The written form is the shortest -/

theorem payloadSize_le_of_lt {word : UInt64} {n : Nat} (hn : 0 < n) (h : word.toNat < 256 ^ n) :
    payloadSize word ≤ n := by
  have hpow : (256 : Nat) ^ n = 2 ^ (8 * n) := by
    rw [pow_mul]
    norm_num
  have hlog : word.toNat.log2 < 8 * n := by
    by_cases hzero : word.toNat = 0
    · rw [hzero, Nat.log2_zero]
      omega
    · exact (Nat.log2_lt hzero).mpr (hpow ▸ h)
  unfold payloadSize
  omega

theorem length_encode_le_of_lt {v : Int64} {n : Nat} (hn : 0 < n)
    (h : (if v < 0 then ~~~v else v).toUInt64.toNat < 256 ^ n) : (encode v).length ≤ n + 1 := by
  unfold encode
  by_cases hinline : -112 ≤ v ∧ v ≤ 127
  · rw [if_pos hinline, List.length_singleton]
    omega
  · rw [if_neg hinline, List.length_cons, Bytes.length_bigEndian]
    exact Nat.succ_le_succ (payloadSize_le_of_lt hn h)

theorem toNat_ofNat {v : Nat} (h : v < 2 ^ 63) : (Int64.ofNat v).toUInt64.toNat = v :=
  UInt64.toNat_ofNat_of_lt' (lt_trans h (by norm_num [UInt64.size]))

theorem length_encode_le (v : Int64) : (encode v).length ≤ 9 :=
  length_encode_le_of_lt (by omega) (UInt64.toNat_lt _)

theorem value_lt_of_length_le {payload : Bytes} (h : payload.length ≤ 7) :
    payload.value < 2 ^ 56 := by
  calc payload.value < 256 ^ payload.length := Bytes.value_lt payload
    _ ≤ 256 ^ 7 := Nat.pow_le_pow_right (by omega) h
    _ = 2 ^ 56 := by norm_num

theorem not_ofNat_neg {v : Nat} (h : v < 2 ^ 63) : ~~~Int64.ofNat v < 0 := by
  have hmod : (-(v : Int) - 1).bmod (2 ^ 64) = -v - 1 :=
    Int.bmod_eq_of_le (by norm_num; omega) (by norm_num)
  rw [Int64.lt_iff_toInt_lt, Int64.toInt_not, Int64.toInt_ofNat_of_lt h, hmod]
  show (_ : Int) < 0
  omega

/-- A number takes a head and the bytes that it needs. -/
theorem length_encode_ofNat_le {v n : Nat} (hv : v < 2 ^ 63) (hn : 0 < n) (h : v < 256 ^ n) :
    (encode (Int64.ofNat v)).length ≤ n + 1 := by
  apply length_encode_le_of_lt hn
  rw [if_neg (Int64.not_lt.mpr (ofNat_nonneg hv)), toNat_ofNat hv]
  exact h

/-- And so does its complement. -/
theorem length_encode_not_ofNat_le {v n : Nat} (hv : v < 2 ^ 63) (hn : 0 < n) (h : v < 256 ^ n) :
    (encode (~~~Int64.ofNat v)).length ≤ n + 1 := by
  apply length_encode_le_of_lt hn
  rw [if_pos (not_ofNat_neg hv), Int64.not_not, toNat_ofNat hv]
  exact h

theorem Spells.length_encode_le {bytes : Bytes} {v : Int64} (h : Spells bytes v) :
    (encode v).length ≤ bytes.length := by
  cases h with
  | inline head hhead =>
    have hvalue : head.toInt64.toInt = head.toInt := Int8.toInt_toInt64 head
    have hinline : -112 ≤ head.toInt64 ∧ head.toInt64 ≤ 127 := by
      rw [Int64.le_iff_toInt_le, Int64.le_iff_toInt_le, hvalue]
      exact ⟨Int8.le_iff_toInt_le.mp hhead, Int8.toInt_le head⟩
    rw [encode, if_pos hinline, List.length_singleton, List.length_singleton]
  | plain payload hpos h8 =>
    by_cases hlength : payload.length ≤ 7
    · have hsmall : payload.value < 2 ^ 63 :=
        lt_trans (value_lt_of_length_le hlength) (by norm_num)
      exact length_encode_ofNat_le hsmall hpos (Bytes.value_lt payload)
    · have hle := CompactInt.length_encode_le (Int64.ofNat payload.value)
      rw [List.length_cons]
      omega
  | complement payload hpos h8 =>
    by_cases hlength : payload.length ≤ 7
    · have hsmall : payload.value < 2 ^ 63 :=
        lt_trans (value_lt_of_length_le hlength) (by norm_num)
      exact length_encode_not_ofNat_le hsmall hpos (Bytes.value_lt payload)
    · have hle := CompactInt.length_encode_le (~~~Int64.ofNat payload.value)
      rw [List.length_cons]
      omega

theorem length_encode_pos (v : Int64) : 0 < (encode v).length := by
  obtain ⟨head, payload, hbytes, -⟩ := (encode_spells v).head
  rw [hbytes]
  exact Nat.succ_pos _

theorem length_encode_mono {a b : Int64} (hnonneg : 0 ≤ a) (hle : a ≤ b) :
    (encode a).length ≤ (encode b).length := by
  have ha : 0 ≤ a.toInt := Int64.le_iff_toInt_le.mp hnonneg
  have hab : a.toInt ≤ b.toInt := Int64.le_iff_toInt_le.mp hle
  have hb : 0 ≤ b := Int64.le_iff_toInt_le.mpr (le_trans ha hab)
  by_cases hinline : b ≤ 127
  · have hlow : -112 ≤ a := Int64.le_iff_toInt_le.mpr (le_trans (by decide) ha)
    rw [encode, if_pos ⟨hlow, Int64.le_trans hle hinline⟩, List.length_singleton]
    exact length_encode_pos b
  · have hword : a.toUInt64.toNat ≤ b.toUInt64.toNat := by
      rw [Int64.toNat_toUInt64_of_le hnonneg, Int64.toNat_toUInt64_of_le hb]
      exact Int.toNat_le_toNat hab
    have hlength : (encode b).length = payloadSize b.toUInt64 + 1 := by
      rw [encode, if_neg fun h => hinline h.2]
      simp only [if_neg (Int64.not_lt.mpr hb), List.length_cons, Bytes.length_bigEndian]
    rw [hlength]
    apply length_encode_le_of_lt (Nat.succ_pos _)
    rw [if_neg (Int64.not_lt.mpr hnonneg)]
    exact lt_of_le_of_lt hword (toNat_lt_payload _)

/-! ## Round trips -/

/-- Integers that are written after a buffer leave it as it is and are read back from where they
begin, whatever comes next. Each takes as many bytes as its head tells, from one to nine; and
whatever an integer is read from, it is written in no more bytes. -/
theorem ints_read_back :
    (∀ vs : List Int64, ReadsBack (Decoder.many read vs.length) (vs.forM write) vs) ∧
    (∀ v : Int64, ∃ (head : Int8) (payload : Bytes), Appends (write v) (head.toUInt8 :: payload) ∧
      payload.length + 1 = size head ∧ 1 ≤ size head ∧ size head ≤ 9) ∧
    ∀ (c c' : Cursor) (v : Int64), read c = (.ok v, c') → ∀ before : Bytes,
      ((write v).after before).length + c.position ≤ before.length + c'.position := by
  refine ⟨?_, ?_, ?_⟩
  · intro vs
    have hreads : Reads (Decoder.many read vs.length) (vs.flatMap encode) (vs.map id) :=
      Reads.many fun v _ => (encode_spells v).reads
    have hwrites : Appends (vs.forM write) (vs.flatMap encode) :=
      Appends.forM fun v _ => write_appends v
    rw [List.map_id] at hreads
    exact hreads.readsBack hwrites
  · intro v
    obtain ⟨head, payload, hbytes, hlength, hpos, h9⟩ := (encode_spells v).head
    refine ⟨head, payload, ?_, ?_, hpos, h9⟩
    · rw [← hbytes]
      exact write_appends v
    · rw [← hlength, hbytes, List.length_cons]
  · intro c c' v h before
    obtain ⟨bytes, rest, -, rfl, hspells⟩ := parses c v c' h
    have hle := hspells.length_encode_le
    rw [write_appends v before, List.length_append, Cursor.advance]
    show _ + _ + c.position ≤ before.length + (c.position + bytes.length)
    omega

/-- The ends of the ranges between one and nine bytes, and `-1` that is spelled in nine. -/
theorem ints_read_back_ends :
    ReadsBack (Decoder.many read 6)
      ([-113, -112, 127, 128, Int64.maxValue, Int64.minValue].forM write)
      [-113, -112, 127, 128, Int64.maxValue, Int64.minValue] ∧
    ((write (-1)).after []).length ≤ 9 := by
  obtain ⟨hlist, -, hshortest⟩ := ints_read_back
  refine ⟨hlist [-113, -112, 127, 128, Int64.maxValue, Int64.minValue], ?_⟩
  have hread : read (.start (0x88 :: List.replicate 8 0xff)) =
      (.ok (-1), ⟨0x88 :: List.replicate 8 0xff, 9⟩) := by rfl
  exact hshortest _ _ _ hread []

end CompactInt
end KeyOrder
