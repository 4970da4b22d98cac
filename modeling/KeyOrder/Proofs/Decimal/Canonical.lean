import KeyOrder.Proofs.Decimal.Encoded
import KeyOrder.Proofs.Decimal.RoundTrip

/-!
# KeyOrder.Proofs.Decimal.Canonical

Of all the byte strings that are read as a decimal with a given sign flag, exponent and magnitude,
one is written: the shortest. `rewrite` writes a decimal that was read; `Spells.length_encode_le`
says that this takes no more bytes than were read.

The scale and a compact magnitude are written in the shortest spelling of their integers. An
extended magnitude is shortened by its leading zeros, which makes its length no longer to write;
and if it is below `2^63` it is written as an integer, in which its bytes take as much room as they
took, and the head no more than their length did.
-/

namespace KeyOrder

open Decoder (Reads ReadsBack)

namespace Significand

/-- The magnitude as bytes, a compact one as those of its word. -/
def bytes : Significand → Bytes
  | compact v => Bytes.bigEndian 8 v.toNat
  | extended bytes => bytes

@[simp] theorem value_bytes (s : Significand) : s.bytes.value = s.value := by
  cases s with
  | compact v =>
    have hlt : v.toNat < 256 ^ 8 := lt_of_lt_of_eq v.toNat_lt (by norm_num)
    exact Bytes.value_bigEndian_of_lt hlt
  | extended bytes => rfl

theorem narrowed_eq (s : Significand) : s.narrowed =
    if s.value < 2 ^ 64 then .compact (UInt64.ofNat s.value)
    else .extended (Bytes.significant s.bytes) := by
  cases s with
  | compact v =>
    rw [value, if_pos v.toNat_lt, UInt64.ofNat_toNat]
    rfl
  | extended bytes =>
    have hlength := Bytes.length_significant_le_iff bytes 8
    have hsize : (256 : Nat) ^ 8 = 2 ^ 64 := by norm_num
    rw [hsize] at hlength
    rw [narrowed, value, Bytes.value_significant]
    by_cases hlong : 8 < (Bytes.significant bytes).length
    · rw [if_pos hlong, if_neg (by omega)]
      rfl
    · rw [if_neg hlong, if_pos (by omega)]

/-- Magnitudes that are worth the same are narrowed to one. -/
theorem narrowed_congr {s s' : Significand} (h : s.value = s'.value) :
    s.narrowed = s'.narrowed := by
  have hbytes : s.bytes.value = s'.bytes.value := by
    rw [value_bytes, value_bytes, h]
  rw [narrowed_eq, narrowed_eq, h, Bytes.significant_eq_of_value_eq hbytes]

end Significand

theorem Decimal.compare_self (d : Decimal) (t : PowerTable) : d.compare d t = (.eq, t) := by
  cases d with
  | compact d =>
    have hexponent : compare d.exponent d.exponent = .eq := Std.ReflCmp.compare_self
    have hsignificand : compare d.significand d.significand = .eq := Std.ReflCmp.compare_self
    rw [Decimal.compare, CompactDecimal.compare, hexponent]
    simp only [hsignificand]
  | wide d =>
    have hexponent : compare d.exponent d.exponent = .eq := Std.ReflCmp.compare_self
    have hsignificand : compare d.significand d.significand = .eq := by
      rw [Natural.compare_eq]
      exact compare_eq_iff_eq.mpr rfl
    rw [Decimal.compare, WideDecimal.compare, hexponent]
    simp only [hsignificand]

namespace EncodedDecimal

/-- Writes a decimal again. -/
def rewrite (d : EncodedDecimal) : Writer := write d.positive d.significand.bytes d.exponent

/-! ## Equal parts -/

theorem parts_eq_iff {d e : EncodedDecimal} : d.parts = e.parts ↔
    d.positive = e.positive ∧ d.exponent = e.exponent ∧
      d.significand.value = e.significand.value := by
  rw [parts, parts, Prod.mk.injEq, Prod.mk.injEq]

/-- Decimals of the same parts are equal, and the table is not asked. -/
theorem compare_of_parts_eq {d e : EncodedDecimal} (h : d.parts = e.parts) (t : PowerTable) :
    d.compare e t = (.eq, t) := by
  obtain ⟨hpositive, hexponent, hvalue⟩ := parts_eq_iff.mp h
  have hzero : d.significand.isZero = e.significand.isZero := by
    rw [Bool.eq_iff_iff, Significand.isZero_iff, Significand.isZero_iff, hvalue]
  have hsign : d.sign = e.sign := by
    rw [sign, sign, hpositive, hzero]
  have hmagnitude : d.magnitude = e.magnitude := by
    rw [magnitude, magnitude, hexponent, Significand.narrowed_congr hvalue]
  have hsame : compare e.sign e.sign = .eq := compare_eq_iff_eq.mpr rfl
  rw [EncodedDecimal.compare, compareMagnitudes_eq, hsign, hmagnitude, hsame]
  simp only [Decimal.compare_self]
  split_ifs <;> rfl

/-- Decimals of the same parts are written alike. -/
theorem rewrite_congr {d e : EncodedDecimal} (h : d.parts = e.parts) : d.rewrite = e.rewrite := by
  obtain ⟨hpositive, hexponent, hvalue⟩ := parts_eq_iff.mp h
  have hbytes : d.significand.bytes.value = e.significand.bytes.value := by
    rw [Significand.value_bytes, Significand.value_bytes, hvalue]
  rw [rewrite, rewrite, hpositive, hexponent, write, write,
    Bytes.significant_eq_of_value_eq hbytes]

/-! ## The shortest form -/

/-- What is written after the scale. -/
def encodeMagnitude (magnitude : Bytes) : Bytes :=
  if magnitude.value < 2 ^ 63 then
    CompactInt.encode (Int64.ofNat magnitude.value)
  else
    let significant := Bytes.significant magnitude
    CompactInt.encode (Int64.ofNat significant.length) ++ significant

theorem length_encode (positive : Bool) (magnitude : Bytes) (exponent : Int32) :
    (encode positive magnitude exponent).length =
      1 + (encodeScale exponent).length + (encodeMagnitude magnitude).length := by
  rw [encode, compactValue?_eq, encodeMagnitude]
  by_cases hlt : magnitude.value < 2 ^ 63
  · simp only [if_pos hlt, List.cons_append, List.length_cons, List.length_append]
    omega
  · simp only [if_neg hlt, encodeExtended, List.cons_append, List.length_cons, List.length_append]
    omega

theorem Opening.length_encodeScale_le {opening : Bytes} {header : UInt8} {exponent : Int32}
    (h : Opening opening header exponent) :
    1 + (encodeScale exponent).length ≤ opening.length := by
  obtain ⟨scale, s, rfl, -, hscale, -, -, hexponent⟩ := h.scale
  have hs : s = -exponent.toInt64 := by
    rw [← Int64.toInt_inj, toInt_scale, hexponent, neg_neg]
  have hle := hscale.length_encode_le
  rw [hs] at hle
  rw [List.length_cons, encodeScale]
  omega

/-- A magnitude costs as an integer no more than its bytes and a head. -/
theorem length_encode_value_le {magnitude : Bytes} (h : magnitude.value < 2 ^ 63) :
    (CompactInt.encode (Int64.ofNat magnitude.value)).length ≤
      (Bytes.significant magnitude).length + 1 := by
  by_cases hempty : (Bytes.significant magnitude).length = 0
  · have hzero : magnitude.value < 256 ^ 0 :=
      (Bytes.length_significant_le_iff magnitude 0).mp hempty.le
    rw [pow_zero, Nat.lt_one_iff] at hzero
    rw [hzero, hempty]
    decide
  · apply CompactInt.length_encode_ofNat_le h (Nat.pos_of_ne_zero hempty)
    exact (Bytes.length_significant_le_iff magnitude _).mp le_rfl

theorem length_encodeMagnitude_le {magnitude : Bytes} {n : Int64}
    (hn : n.toInt = magnitude.length) :
    (encodeMagnitude magnitude).length ≤ (CompactInt.encode n).length + magnitude.length := by
  have hle := Bytes.length_significant_le magnitude
  have hmost : n.toInt < 2 ^ 63 := n.toInt_lt
  by_cases hlt : magnitude.value < 2 ^ 63
  · have hcost := length_encode_value_le hlt
    have hpos := CompactInt.length_encode_pos n
    rw [encodeMagnitude, if_pos hlt]
    omega
  · have hlength : (Int64.ofNat (Bytes.significant magnitude).length).toInt =
        (Bytes.significant magnitude).length := Int64.toInt_ofNat_of_lt (by omega)
    have hmono : (CompactInt.encode (Int64.ofNat (Bytes.significant magnitude).length)).length ≤
        (CompactInt.encode n).length := by
      apply CompactInt.length_encode_mono (CompactInt.ofNat_nonneg (by omega))
      rw [Int64.le_iff_toInt_le, hlength, hn]
      exact Int.ofNat_le.mpr hle
    rw [encodeMagnitude, if_neg hlt, List.length_append]
    omega

/-- No spelling of a decimal is shorter than what is written of it. -/
theorem Spells.length_encode_le {bytes : Bytes} {d : EncodedDecimal}
    (h : Spells bytes (some d)) :
    (encode d.positive d.significand.bytes d.exponent).length ≤ bytes.length := by
  cases h with
  | @compact opening unscaled header exponent u hopening hform hunscaled hnonneg =>
    show (encode _ _ exponent).length ≤ _
    have hscale := hopening.length_encodeScale_le
    have hcost := hunscaled.length_encode_le
    have hvalue : (Significand.compact u.toUInt64).bytes.value = u.toInt.toNat := by
      rw [Significand.value_bytes]
      exact Int64.toNat_toUInt64_of_le (Int64.le_iff_toInt_le.mpr hnonneg)
    have hmost : u.toInt < 2 ^ 63 := u.toInt_lt
    have hu : Int64.ofNat u.toInt.toNat = u := by
      rw [← Int64.toInt_inj, Int64.toInt_ofNat_of_lt (by omega), Int.toNat_of_nonneg hnonneg]
    rw [length_encode, encodeMagnitude, hvalue, if_pos (by omega), hu, List.length_append]
    omega
  | @extended opening length magnitude header exponent n hopening hform hlength hn =>
    show (encode _ _ exponent).length ≤ _
    have hscale := hopening.length_encodeScale_le
    have hcost := hlength.length_encode_le
    have hmagnitude := length_encodeMagnitude_le hn
    rw [length_encode, Significand.bytes, List.length_append, List.length_append]
    omega

/-! ## Rewriting -/

theorem Spells.length_bytes_lt {bytes : Bytes} {d : EncodedDecimal} (h : Spells bytes (some d)) :
    d.significand.bytes.length < 2 ^ 63 := by
  cases h with
  | compact hopening hform hunscaled hnonneg =>
    rw [Significand.bytes, Bytes.length_bigEndian]
    decide
  | @extended opening length magnitude header exponent n hopening hform hlength hn =>
    have hmost : n.toInt < 2 ^ 63 := n.toInt_lt
    rw [Significand.bytes]
    omega

/-- A decimal that was read is read again from where it is written. -/
theorem readsBack_rewrite {c c' : Cursor} {d : EncodedDecimal} (h : read c = (.ok (some d), c')) :
    ∃ d' : EncodedDecimal, ReadsBack read d.rewrite (some d') ∧ d'.parts = d.parts := by
  obtain ⟨bytes, -, -, -, hspells⟩ := parses c _ c' h
  refine ⟨⟨d.positive, d.exponent, stored d.significand.bytes⟩, ?_, ?_⟩
  · exact (reads_encode d.positive hspells.length_bytes_lt d.exponent).readsBack
      (write_appends _ _ _)
  · rw [parts, value_stored, Significand.value_bytes]
    rfl

theorem compare_rewritten {c c' again again' : Cursor} {d e : EncodedDecimal}
    (hd : read c = (.ok (some d), c')) (he : read again = (.ok (some e), again'))
    (h : d.parts = e.parts) (t : PowerTable) :
    FieldType.decimal.compare ⟨c, again, t⟩ = (.ok .eq, ⟨c', again', t⟩) := by
  have hequal : FieldType.decimal.orderNullable (some d) (some e) t = (.eq, t) :=
    compare_of_parts_eq h t
  have hcompare : FieldType.decimal.compare ⟨c, again, t⟩ = _ := Walk.compareNext_ok hd he
  rw [hcompare, hequal]

/-- Whatever a decimal is read from, it is written in no more bytes, and what is written is read as
a decimal with the same sign flag, exponent and magnitude, which is equal to the first one; neither
comparison asks the table. Decimals that were read are written alike if and only if they agree in
these three. -/
theorem rewritten_canonical :
    (∀ (c c' : Cursor) (d : EncodedDecimal), read c = (.ok (some d), c') →
      (∀ before : Bytes,
        (d.rewrite.after before).length + c.position ≤ before.length + c'.position) ∧
      (∃ d' : EncodedDecimal, ReadsBack read d.rewrite (some d') ∧ d'.parts = d.parts) ∧
      ∀ (before trailing : Bytes) (t : PowerTable),
        let buffer := d.rewrite.after before ++ trailing
        let again : Cursor := ⟨buffer, before.length⟩
        let again' : Cursor := ⟨buffer, (d.rewrite.after before).length⟩
        FieldType.decimal.compare ⟨c, again, t⟩ = (.ok .eq, ⟨c', again', t⟩) ∧
          FieldType.decimal.compare ⟨again, c, t⟩ = (.ok .eq, ⟨again', c', t⟩)) ∧
    ∀ (a a' b b' : Cursor) (d e : EncodedDecimal),
      read a = (.ok (some d), a') → read b = (.ok (some e), b') → ∀ before : Bytes,
        (d.rewrite.after before = e.rewrite.after before ↔ d.parts = e.parts) := by
  refine ⟨?_, ?_⟩
  · intro c c' d hd
    obtain ⟨d', hback, hparts⟩ := readsBack_rewrite hd
    refine ⟨?_, ⟨d', hback, hparts⟩, ?_⟩
    · intro before
      obtain ⟨bytes, rest, -, rfl, hspells⟩ := parses c _ c' hd
      have hle := hspells.length_encode_le
      rw [rewrite, write_appends _ _ _ before, List.length_append, Cursor.advance]
      show _ + _ + c.position ≤ before.length + (c.position + bytes.length)
      omega
    · intro before trailing t
      have hagain := (hback before trailing).2
      exact ⟨compare_rewritten hd hagain hparts.symm t, compare_rewritten hagain hd hparts t⟩
  · intro a a' b b' d e hd he before
    constructor
    · intro hsame
      obtain ⟨d', hback, hparts⟩ := readsBack_rewrite hd
      obtain ⟨e', hback', hparts'⟩ := readsBack_rewrite he
      have hread := (hback before []).2
      rw [hsame, (hback' before []).2] at hread
      have hd' : e' = d' := Option.some.inj (Except.ok.inj (congrArg Prod.fst hread))
      rw [← hparts, ← hparts', hd']
    · intro h
      rw [rewrite_congr h]

/-- `-12500` twice: extended, with a leading zero and a scale of eight payload bytes that wraps to
`-1`, and compact with longer integers than it takes. -/
theorem rewritten_canonical_wrapped_scale :
    let wide : EncodedDecimal := ⟨false, 1, .extended [0, 0x04, 0xe2]⟩
    let word : EncodedDecimal := ⟨false, 1, .compact 1250⟩
    let a : Cursor := .start
      [0xfc, 0x88, 0xff, 0xff, 0xff, 0xff, 0xff, 0xff, 0xff, 0xff, 0x8f, 3, 0, 0x04, 0xe2]
    let b : Cursor := .start [0xfd, 0x87, 0, 0x8d, 0, 0x04, 0xe2]
    read a = (.ok (some wide), a.advance 15) ∧ read b = (.ok (some word), b.advance 7) ∧
      (wide.rewrite.after []).length ≤ 15 ∧ (word.rewrite.after []).length ≤ 7 ∧
      wide.rewrite.after [] = word.rewrite.after [] ∧
      (FieldType.decimal.compare
        ⟨a, .start (wide.rewrite.after []), PowerTable.new⟩).1 = .ok .eq := by
  intro wide word a b
  have hwide : read a = (.ok (some wide), a.advance 15) := by cbv
  have hword : read b = (.ok (some word), b.advance 7) := by cbv
  have hparts : wide.parts = word.parts := by decide
  obtain ⟨hread, halike⟩ := rewritten_canonical
  obtain ⟨hlength, -, hcompare⟩ := hread _ _ wide hwide
  obtain ⟨hlength', -, -⟩ := hread _ _ word hword
  have hequal := (hcompare [] [] PowerTable.new).1
  rw [List.append_nil] at hequal
  refine ⟨hwide, hword, ?_, ?_, (halike _ _ _ _ wide word hwide hword []).mpr hparts, ?_⟩
  · simpa [a, Cursor.start, Cursor.advance] using hlength []
  · simpa [b, Cursor.start, Cursor.advance] using hlength' []
  · exact congrArg Prod.fst hequal

end EncodedDecimal
end KeyOrder
