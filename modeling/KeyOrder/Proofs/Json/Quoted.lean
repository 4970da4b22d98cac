import Mathlib
import KeyOrder.Json.Quoted

/-!
# KeyOrder.Proofs.Json.Quoted

A text between quotation marks is read back as it was, whatever follows the closing mark
(`read_encode`). A character that is escaped by a letter is named by that letter; the other control
characters lie below U+0020, so two hexadecimal digits hold them; every other character stands for
itself, and none of those is a quotation mark or a backslash.
-/

namespace KeyOrder
namespace Json
namespace Quoted

theorem hexDigit?_digitChar {d : Nat} (h : d < 16) : hexDigit? (Nat.digitChar d) = some d := by
  interval_cases d <;> rfl

theorem unit?_digitChars {n : Nat} (h : n < 256) :
    unit? '0' '0' (Nat.digitChar (n / 16)) (Nat.digitChar (n % 16)) = some n := by
  have hzero : hexDigit? '0' = some 0 := rfl
  rw [unit?, hzero, hexDigit?_digitChar (by omega), hexDigit?_digitChar (by omega)]
  simp only [Option.some.injEq]
  omega

/-- A control character by the digits of its number. -/
theorem readEscape?_digitChars {c : Char} (h : c.toNat < 0x20) (rest : List Char) :
    readEscape? ('u' :: '0' :: '0' :: Nat.digitChar (c.toNat / 16) ::
      Nat.digitChar (c.toNat % 16) :: rest) = some (c, rest) := by
  rw [readEscape?, unit?_digitChars (by omega)]
  simp only
  rw [if_neg (by omega), if_neg (by omega), Char.ofNat_toNat]

theorem readChar?_backslash (cs : List Char) : readChar? ('\\' :: cs) = readEscape? cs := by
  rw [readChar?, if_pos rfl]

/-- One character is read back from its form. -/
theorem readChar?_encodeChar (c : Char) (rest : List Char) :
    readChar? (encodeChar c ++ rest) = some (c, rest) := by
  unfold encodeChar
  split_ifs with hmark hbackslash hb hf hn hr ht hcontrol
  · rw [hmark]; rfl
  · rw [hbackslash]; rfl
  · rw [hb]; rfl
  · rw [hf]; rfl
  · rw [hn]; rfl
  · rw [hr]; rfl
  · rw [ht]; rfl
  · exact (readChar?_backslash _).trans (readEscape?_digitChars hcontrol rest)
  · rw [List.singleton_append, readChar?, if_neg hbackslash, if_neg hcontrol]

/-- No form begins with the closing mark. -/
theorem head?_encodeChar (c : Char) (rest : List Char) :
    (encodeChar c ++ rest).head? ≠ some '"' := by
  unfold encodeChar
  split_ifs with hmark
  all_goals simp [hmark]

theorem encode_append (text rest : List Char) :
    encode text ++ rest = '"' :: (text.flatMap encodeChar ++ '"' :: rest) := by
  simp [encode]

/-- A text is read back from what follows its opening mark. -/
theorem read_encode (text rest : List Char) :
    read (text.flatMap encodeChar ++ '"' :: rest) = some (text, rest) := by
  induction text with
  | nil => exact read_mark rest
  | cons c text ih =>
    rw [List.flatMap_cons, List.append_assoc,
      read_of_readChar? (head?_encodeChar c _) (readChar?_encodeChar c _), ih]
    rfl

end Quoted
end Json
end KeyOrder
