import KeyOrder.Proofs.Checked.Cursor

/-!
# KeyOrder.Proofs.Checked.Significand

Narrowing with checked slices. The bytes behind the leading zeros are cut out, and if they are eight
or fewer they are copied to the end of eight zero bytes, which are one word. As everywhere in
`Checked`, a slice out of range gives `none`, and so does a copy to a place of another length. It
passes for every magnitude, and the word is that of the bytes (`narrowed_eq`).
-/

namespace KeyOrder
namespace Checked

/-- Where the leading zeros end. -/
def firstSignificant (bytes : Bytes) : Nat := (bytes.findIdx? (· != 0)).getD bytes.length

def narrowed : Significand → Option Significand
  | .compact v => some (.compact v)
  | .extended bytes => do
    let start ← word (firstSignificant bytes)
    let stop ← word bytes.length
    let significant ← slice bytes start stop
    let length ← word significant.length
    if 8 < length then
      some (.extended significant)
    else do
      let start ← sub 8 length
      let buffer ← overwrite (List.replicate 8 0) significant start
      some (.compact (UInt64.ofNat buffer.value))

def magnitude (d : EncodedDecimal) : Option Decimal := do
  match ← narrowed d.significand with
  | .compact v => some (.compact ⟨v, d.exponent⟩)
  | .extended bytes => do
    let significand ← ofBytes bytes
    some (.wide ⟨significand, d.exponent⟩)

theorem drop_firstSignificant (bytes : Bytes) :
    bytes.drop (firstSignificant bytes) = Bytes.significant bytes := by
  rw [firstSignificant, ← List.findIdx_eq_getD_findIdx?, Bytes.significant,
    List.dropWhile_eq_drop_findIdx_not]
  rfl

theorem firstSignificant_le (bytes : Bytes) : firstSignificant bytes ≤ bytes.length := by
  rw [firstSignificant, ← List.findIdx_eq_getD_findIdx?]
  exact List.findIdx_le_length

/-- Zeros in front of the significant bytes do not count. -/
theorem value_zeros_append (n : Nat) (bytes : Bytes) :
    Bytes.value (List.replicate n 0 ++ bytes) = Bytes.value bytes := by
  have hzeros : Bytes.value (List.replicate n 0) = 0 := by
    rw [Bytes.value_eq_zero_iff]
    simp
  rw [Bytes.value_append, hzeros, Nat.zero_mul, Nat.zero_add]

theorem slice_significant {bytes : Bytes} {start stop : UInt64}
    (hstart : start.toNat = firstSignificant bytes) (hstop : stop.toNat = bytes.length) :
    slice bytes start stop = some (Bytes.significant bytes) := by
  have hle := firstSignificant_le bytes
  rw [slice_eq (by omega) (by omega), hstart, hstop, List.take_length, drop_firstSignificant]

theorem overwrite_significant {bytes : Bytes} {start : UInt64}
    (h : start.toNat + bytes.length = 8) :
    ∃ buffer, overwrite (List.replicate 8 0) bytes start = some buffer ∧
      buffer.value = bytes.value := by
  refine ⟨_, if_pos (by rw [List.length_replicate]; exact h), ?_⟩
  rw [List.take_replicate, value_zeros_append]

theorem narrowed_eq {s : Significand} (h : ∀ bytes, s = .extended bytes → bytes.length < 2 ^ 63) :
    narrowed s = some s.narrowed := by
  cases s with
  | compact v => rfl
  | extended bytes =>
    have hbytes := h bytes rfl
    have hle := firstSignificant_le bytes
    have hless := Bytes.length_significant_le bytes
    obtain ⟨start, hword, hstart⟩ := word_toNat (show firstSignificant bytes < 2 ^ 64 by omega)
    obtain ⟨stop, hword', hstop⟩ := word_toNat (show bytes.length < 2 ^ 64 by omega)
    obtain ⟨length, hword'', hlength⟩ :=
      word_toNat (show (Bytes.significant bytes).length < 2 ^ 64 by omega)
    have height : (8 : UInt64).toNat = 8 := rfl
    have hlong : 8 < length ↔ 8 < (Bytes.significant bytes).length := by
      rw [UInt64.lt_iff_toNat_lt, hlength, height]
    simp only [narrowed, Significand.narrowed, hword, hword', slice_significant hstart hstop,
      hword'', hlong, Option.bind_eq_bind, Option.bind_some]
    by_cases hmany : 8 < (Bytes.significant bytes).length
    · rw [if_pos hmany, if_pos hmany]
    · obtain ⟨pad, hsub, hpad⟩ := sub_toNat (show length.toNat ≤ (8 : UInt64).toNat by omega)
      obtain ⟨buffer, hbuffer, hvalue⟩ :=
        overwrite_significant (show pad.toNat + (Bytes.significant bytes).length = 8 by omega)
      rw [if_neg hmany, if_neg hmany, hsub, Option.bind_some, hbuffer, Option.bind_some, hvalue]

theorem magnitude_eq {d : EncodedDecimal}
    (h : ∀ bytes, d.significand = .extended bytes → bytes.length < 2 ^ 63) :
    magnitude d = some d.magnitude := by
  simp only [magnitude, EncodedDecimal.magnitude, narrowed_eq h, Option.bind_eq_bind,
    Option.bind_some]
  cases d.significand.narrowed with
  | compact v => rfl
  | extended bytes =>
    simp only [ofBytes_eq, Option.bind_some]
    rfl

end Checked
end KeyOrder
