import KeyOrder.Decimal.Encode
import KeyOrder.Proofs.CompactInt.RoundTrip
import KeyOrder.Proofs.Decimal.Encode

/-!
# KeyOrder.Proofs.Decimal.RoundTrip

Decimals are read back from a buffer as they were written to it. Each writer appends the bytes of
its form (`write_appends`, `writeExtended_appends`), and those bytes are read from wherever they
stand; so a list of entries written one after another is read back as that list
(`written_reads_back`).

An `Entry` is a decimal or NULL together with the way it is written; `Entry.parts` is what was
given to be written, and `Entry.stored` what the reader makes of it.
-/

namespace KeyOrder

open Decoder (Reads ReadsBack)
open Writer (Appends)

namespace EncodedDecimal

/-! ## What is written -/

theorem writeNull_appends : Appends writeNull encodeNull := .byte _

/-- A header, a scale and what comes after them. -/
theorem written_appends {rest : Bytes} {w : Writer} (h : UInt8) (exponent : Int32)
    (hw : Appends w rest) :
    Appends (do Writer.byte h; CompactInt.write (-exponent.toInt64); w)
      (h :: encodeScale exponent ++ rest) := by
  have hscale : Appends (CompactInt.write (-exponent.toInt64)) (encodeScale exponent) :=
    CompactInt.write_appends _
  rw [List.cons_append, ← List.singleton_append]
  exact .bind (.byte h) (.bind hscale hw)

theorem writeExtended_appends (positive : Bool) (magnitude : Bytes) (exponent : Int32) :
    Appends (writeExtended positive magnitude exponent)
      (encodeExtended positive magnitude exponent) :=
  written_appends (header positive) exponent (.bind (CompactInt.write_appends _) (.bytes _))

theorem encodeExtended_significant (positive : Bool) (magnitude : Bytes) (exponent : Int32) :
    encodeExtended positive (Bytes.significant magnitude) exponent =
      encodeExtended positive magnitude exponent := by
  have hsignificant : Bytes.significant (Bytes.significant magnitude) =
      Bytes.significant magnitude := List.dropWhile_idempotent _ _
  rw [encodeExtended, hsignificant]
  rfl

theorem write_appends (positive : Bool) (magnitude : Bytes) (exponent : Int32) :
    Appends (write positive magnitude exponent) (encode positive magnitude exponent) := by
  simp only [write, encode]
  cases compactValue? (Bytes.significant magnitude) with
  | none =>
    rw [← encodeExtended_significant]
    exact writeExtended_appends positive _ exponent
  | some v =>
    exact written_appends (header positive ||| compactFlag) exponent (CompactInt.write_appends v)

theorem writeInt_appends (unscaled : Int) (exponent : Int32) :
    Appends (writeInt unscaled exponent) (encodeInt unscaled exponent) :=
  write_appends _ _ exponent

/-! ## What is read back -/

theorem reads_encodeNull : Reads read encodeNull none :=
  Reads.bind (Reads.byte nullHeader) (Reads.pure none)

theorem reads_encodeInt (unscaled : Int) (exponent : Int32) :
    Reads read (encodeInt unscaled exponent)
      (some ⟨decide (0 ≤ unscaled), exponent, stored (Bytes.bigEndian 16 unscaled.natAbs)⟩) := by
  have hlength : (Bytes.bigEndian 16 unscaled.natAbs).length < 2 ^ 63 := by
    rw [Bytes.length_bigEndian]
    decide
  exact reads_encode (decide (0 ≤ unscaled)) hlength exponent

theorem stored_eq_compact_iff (magnitude : Bytes) :
    (∃ v, stored magnitude = .compact v) ↔ magnitude.value < 2 ^ 63 := by
  unfold stored
  by_cases h : magnitude.value < 2 ^ 63
  · rw [if_pos h]
    exact ⟨fun _ => h, fun _ => ⟨_, rfl⟩⟩
  · rw [if_neg h]
    exact ⟨fun ⟨v, hv⟩ => Significand.noConfusion hv, fun hlt => absurd hlt h⟩

theorem value_natAbs {unscaled : Int} (hmin : -2 ^ 127 ≤ unscaled) (hmax : unscaled < 2 ^ 127) :
    (Bytes.bigEndian 16 unscaled.natAbs).value = unscaled.natAbs :=
  Bytes.value_bigEndian_of_lt (by omega)

/-- Sign flag, exponent and magnitude. -/
def parts (d : EncodedDecimal) : Bool × Int32 × Nat := (d.positive, d.exponent, d.significand.value)

/-- A decimal or NULL to be written. -/
inductive Entry where
  | null
  | shortest (positive : Bool) (magnitude : Bytes) (exponent : Int32)
  | extended (positive : Bool) (magnitude : Bytes) (exponent : Int32)
  | int (unscaled : Int) (exponent : Int32)

namespace Entry

def write : Entry → Writer
  | null => writeNull
  | shortest positive magnitude exponent => EncodedDecimal.write positive magnitude exponent
  | extended positive magnitude exponent => writeExtended positive magnitude exponent
  | int unscaled exponent => writeInt unscaled exponent

/-- The bytes that are written. -/
def wrote : Entry → Bytes
  | null => encodeNull
  | shortest positive magnitude exponent => encode positive magnitude exponent
  | extended positive magnitude exponent => encodeExtended positive magnitude exponent
  | int unscaled exponent => encodeInt unscaled exponent

/-- What is read back. -/
def stored : Entry → Option EncodedDecimal
  | null => none
  | shortest positive magnitude exponent =>
    some ⟨positive, exponent, EncodedDecimal.stored magnitude⟩
  | extended positive magnitude exponent =>
    some ⟨positive, exponent, .extended (Bytes.significant magnitude)⟩
  | int unscaled exponent =>
    some ⟨decide (0 ≤ unscaled), exponent,
      EncodedDecimal.stored (Bytes.bigEndian 16 unscaled.natAbs)⟩

/-- The parts that were given. -/
def parts : Entry → Option (Bool × Int32 × Nat)
  | null => none
  | shortest positive magnitude exponent => some (positive, exponent, magnitude.value)
  | extended positive magnitude exponent => some (positive, exponent, magnitude.value)
  | int unscaled exponent => some (decide (0 ≤ unscaled), exponent, unscaled.natAbs)

/-- Magnitudes whose length is an `Int64`, and numbers of 128 bits. -/
def Sized : Entry → Prop
  | null => True
  | shortest _ magnitude _ => magnitude.length < 2 ^ 63
  | extended _ magnitude _ => magnitude.length < 2 ^ 63
  | int unscaled _ => -2 ^ 127 ≤ unscaled ∧ unscaled < 2 ^ 127

theorem write_appends (entry : Entry) : Appends entry.write entry.wrote := by
  cases entry with
  | null => exact writeNull_appends
  | shortest positive magnitude exponent =>
    exact EncodedDecimal.write_appends positive magnitude exponent
  | extended positive magnitude exponent =>
    exact writeExtended_appends positive magnitude exponent
  | int unscaled exponent => exact writeInt_appends unscaled exponent

theorem reads_wrote {entry : Entry} (h : entry.Sized) : Reads read entry.wrote entry.stored := by
  cases entry with
  | null => exact reads_encodeNull
  | shortest positive magnitude exponent => exact reads_encode positive h exponent
  | extended positive magnitude exponent => exact reads_encodeExtended positive h exponent
  | int unscaled exponent => exact reads_encodeInt unscaled exponent

theorem parts_stored {entry : Entry} (h : entry.Sized) :
    entry.stored.map EncodedDecimal.parts = entry.parts := by
  cases entry with
  | null => rfl
  | shortest positive magnitude exponent =>
    rw [stored, Option.map_some, EncodedDecimal.parts, value_stored]
    rfl
  | extended positive magnitude exponent =>
    rw [stored, Option.map_some, EncodedDecimal.parts, Significand.value, Bytes.value_significant]
    rfl
  | int unscaled exponent =>
    obtain ⟨hmin, hmax⟩ := h
    rw [stored, Option.map_some, EncodedDecimal.parts, value_stored, value_natAbs hmin hmax]
    rfl

end Entry

/-! ## Round trips -/

theorem readsBack_entry (entry : Entry) (h : entry.Sized) :
    ReadsBack read entry.write entry.stored :=
  (Entry.reads_wrote h).readsBack entry.write_appends

/-- What is written after a buffer leaves that buffer as it is, and is read back from where it
begins, whatever comes next: the sign flag and the exponent as they were given, and of the
magnitude its number. It is stored as a word if and only if it is below `2^63` and the shortest
form was asked for; else it is stored as its bytes without leading zeros. An unscaled number is
read back as its sign and its absolute value. Entries that are written one after another are read
back as they are. -/
theorem written_reads_back :
    (∀ (positive : Bool) (magnitude : Bytes) (exponent : Int32), magnitude.length < 2 ^ 63 →
      ∃ s, ReadsBack read (write positive magnitude exponent) (some ⟨positive, exponent, s⟩) ∧
        s.value = magnitude.value ∧ ((∃ v, s = .compact v) ↔ magnitude.value < 2 ^ 63) ∧
        (2 ^ 63 ≤ magnitude.value → s = .extended (Bytes.significant magnitude))) ∧
    (∀ (positive : Bool) (magnitude : Bytes) (exponent : Int32), magnitude.length < 2 ^ 63 →
      ReadsBack read (writeExtended positive magnitude exponent)
        (some ⟨positive, exponent, .extended (Bytes.significant magnitude)⟩) ∧
      (Bytes.significant magnitude).value = magnitude.value) ∧
    (∀ (unscaled : Int) (exponent : Int32), -2 ^ 127 ≤ unscaled → unscaled < 2 ^ 127 →
      ∃ s, ReadsBack read (writeInt unscaled exponent)
        (some ⟨decide (0 ≤ unscaled), exponent, s⟩) ∧ s.value = unscaled.natAbs) ∧
    ∀ entries : List Entry, (∀ entry ∈ entries, entry.Sized) →
      ∃ given, ReadsBack (Decoder.many read entries.length) (entries.forM Entry.write) given ∧
        given.map (Option.map parts) = entries.map Entry.parts := by
  refine ⟨?_, ?_, ?_, ?_⟩
  · intro positive magnitude exponent hlength
    have hreads := readsBack_entry (.shortest positive magnitude exponent) hlength
    refine ⟨stored magnitude, hreads, value_stored magnitude, stored_eq_compact_iff magnitude, ?_⟩
    intro hlarge
    exact if_neg (not_lt.mpr hlarge)
  · intro positive magnitude exponent hlength
    exact ⟨readsBack_entry (.extended positive magnitude exponent) hlength,
      Bytes.value_significant magnitude⟩
  · intro unscaled exponent hmin hmax
    have hreads := readsBack_entry (.int unscaled exponent) ⟨hmin, hmax⟩
    exact ⟨_, hreads, (value_stored _).trans (value_natAbs hmin hmax)⟩
  · intro entries hsized
    have hreads : Reads (Decoder.many read entries.length) (entries.flatMap Entry.wrote)
        (entries.map Entry.stored) :=
      Reads.many fun entry hentry => Entry.reads_wrote (hsized entry hentry)
    have hwrites : Appends (entries.forM Entry.write) (entries.flatMap Entry.wrote) :=
      Appends.forM fun entry _ => entry.write_appends
    refine ⟨_, hreads.readsBack hwrites, ?_⟩
    rw [List.map_map]
    exact List.map_congr_left fun entry hentry => Entry.parts_stored (hsized entry hentry)

/-- NULL, a zero with the least exponent, `2^63` as bytes with the greatest one, and the least
number of 128 bits. -/
theorem written_reads_back_extremes :
    ∃ given, ReadsBack (Decoder.many read 4)
      ([Entry.null, .shortest false [0, 0] Int32.minValue,
        .extended true [0, 0x80, 0, 0, 0, 0, 0, 0, 0] Int32.maxValue,
        .int (-2 ^ 127) 0].forM Entry.write) given ∧
      given.map (Option.map parts) =
        [none, some (false, Int32.minValue, 0), some (true, Int32.maxValue, 2 ^ 63),
          some (false, 0, 2 ^ 127)] := by
  have hsized : ∀ entry ∈ [Entry.null, .shortest false [0, 0] Int32.minValue,
      .extended true [0, 0x80, 0, 0, 0, 0, 0, 0, 0] Int32.maxValue, .int (-2 ^ 127) 0],
      entry.Sized := by
    simp [Entry.Sized]
  obtain ⟨given, hreads, hparts⟩ := written_reads_back.2.2.2 _ hsized
  exact ⟨given, hreads, hparts.trans (by decide)⟩

end EncodedDecimal
end KeyOrder
