import KeyOrder.Field.Value
import KeyOrder.Proofs.CompactInt.Spelling

/-!
# KeyOrder.Proofs.Field.Reading

Fields of fixed width and strings: what is written is read back from wherever it stands, and
reading stays in the buffer.
-/

namespace KeyOrder
namespace Field

open Decoder (Reads Gives)

section Present

variable {α : Type} {content : Decoder α}

theorem reads_null (content : Decoder α) : Reads (readPresent content) [nullFlag] none :=
  Reads.bind (Reads.byte nullFlag) (Reads.pure none)

theorem reads_present {bytes : Bytes} {a : α} (h : Reads content bytes a) :
    Reads (readPresent content) (presentFlag :: bytes) (some a) :=
  Reads.bind (Reads.byte presentFlag) (Reads.bind_pure h some)

theorem gives_present {buffer : Bytes} (h : Gives content buffer fun _ => True) :
    Gives (readPresent content) buffer fun _ => True := by
  apply Gives.bind Gives.byte
  intro flag _
  by_cases hnull : flag = nullFlag
  · rw [if_pos hnull]
    exact Gives.pure trivial
  rw [if_neg hnull]
  by_cases hpresent : flag = presentFlag
  · rw [if_pos hpresent]
    exact Gives.bind h fun _ _ => Gives.pure trivial
  · rw [if_neg hpresent]
    exact Gives.fail _

end Present

theorem reads_fixed {α : Type} {width v : Nat} {ofNat : Nat → α} {a : α}
    (h : ofNat (v % 256 ^ width) = a) :
    Reads (readFixed width ofNat) (encodeFixed width v) (some a) := by
  have htake := Reads.bind_pure (Reads.take (Bytes.bigEndian width v)) fun bytes =>
    ofNat bytes.value
  rw [Bytes.length_bigEndian, Bytes.value_bigEndian, h] at htake
  exact reads_present htake

theorem gives_fixed {α : Type} (width : Nat) (ofNat : Nat → α) (buffer : Bytes) :
    Gives (readFixed width ofNat) buffer fun _ => True :=
  gives_present (Gives.bind (Gives.take width) fun _ _ => Gives.pure trivial)

/-! ## Strings -/

theorem reads_string {bytes : Bytes} (h : bytes.length < 2 ^ 63) :
    Reads readString (encodeString bytes) (some bytes) := by
  have hlength : (Int64.ofNat bytes.length).toInt = bytes.length := Int64.toInt_ofNat_of_lt h
  have hnull : Int64.ofNat bytes.length ≠ nullLength := by
    rw [← Int64.toInt_inj.ne, hlength, show nullLength.toInt = -1 from rfl]
    omega
  have hneg : ¬Int64.ofNat bytes.length < 0 := Int64.not_lt.mpr (CompactInt.ofNat_nonneg h)
  apply Reads.bind (CompactInt.encode_spells _).reads
  rw [if_neg hnull, if_neg hneg, hlength]
  exact Reads.bind_pure (Reads.take bytes) some

theorem reads_nullString : Reads readString (CompactInt.encode nullLength) none := by
  rw [← List.append_nil (CompactInt.encode nullLength)]
  apply Reads.bind (CompactInt.encode_spells nullLength).reads
  rw [if_pos rfl]
  exact Reads.pure none

theorem gives_string (buffer : Bytes) : Gives readString buffer fun _ => True := by
  apply Gives.bind (CompactInt.gives buffer)
  intro length _
  by_cases hnull : length = nullLength
  · rw [if_pos hnull]
    exact Gives.pure trivial
  rw [if_neg hnull]
  by_cases hneg : length < 0
  · rw [if_pos hneg]
    exact Gives.fail _
  · rw [if_neg hneg]
    exact Gives.bind (Gives.take _) fun _ _ => Gives.pure trivial

end Field
end KeyOrder
