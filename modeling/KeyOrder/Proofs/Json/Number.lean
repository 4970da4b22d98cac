import Mathlib
import KeyOrder.Json.Number

/-!
# KeyOrder.Proofs.Json.Number

A number is read up to where it ends: what follows it does not count unless it could go on with
the number (`read_append`). The decimal digits of a natural number are such a number
(`read_ofNat`), and they have its value (`toNat?_ofNat`).
-/

namespace KeyOrder
namespace Json
namespace Number

/-- Nothing at the head of the text goes on with a number. -/
def Ends (rest : List Char) : Prop :=
  ∀ c ∈ rest.head?, c.isDigit = false ∧ c ≠ '.' ∧ c ≠ 'e' ∧ c ≠ 'E'

theorem Ends.nil : Ends [] := by
  intro c hc
  cases hc

theorem Ends.cons {c : Char} (h : c.isDigit = false ∧ c ≠ '.' ∧ c ≠ 'e' ∧ c ≠ 'E')
    (rest : List Char) : Ends (c :: rest) := by
  intro c' hc'
  cases hc'
  exact h

/-! ## Reading on -/

section

variable {cs text cs' rest : List Char}

theorem digits_append (cs : List Char) (hrest : Ends rest) :
    digits (cs ++ rest) = ((digits cs).1, (digits cs).2 ++ rest) := by
  induction cs with
  | nil =>
    cases rest with
    | nil => rfl
    | cons c rest => simp [digits, (hrest c rfl).1]
  | cons c cs ih =>
    simp only [digits, Prod.mk.injEq] at ih
    by_cases hc : c.isDigit = true
    · simp [digits, hc, ih]
    · simp [digits, hc]

theorem readInteger_append (hrest : Ends rest) (h : readInteger cs = some (text, cs')) :
    readInteger (cs ++ rest) = some (text, cs' ++ rest) := by
  unfold readInteger at h
  split at h
  · cases h
  · cases h
    rfl
  · rename_i c tail hzero
    split at h
    · rename_i hdigit
      cases h
      rw [List.cons_append, readInteger, if_pos hdigit, digits_append tail hrest]
      · rfl
      · exact hzero
    · cases h

theorem readDigits_eq (lead cs : List Char) :
    readDigits lead cs =
      if (digits cs).1 = [] then none else some (lead ++ (digits cs).1, (digits cs).2) := by
  unfold readDigits
  split
  · rename_i h
    rw [h, if_pos rfl]
  · rename_i ds tail hne h
    rw [h, if_neg fun hnil => hne hnil]

theorem readDigits_append {lead : List Char} (hrest : Ends rest)
    (h : readDigits lead cs = some (text, cs')) :
    readDigits lead (cs ++ rest) = some (text, cs' ++ rest) := by
  rw [readDigits_eq] at h ⊢
  rw [digits_append cs hrest]
  split at h
  · cases h
  · rename_i hdigits
    cases h
    exact if_neg hdigits

theorem readFraction_of_head (h : cs.head? ≠ some '.') : readFraction cs = some ([], cs) := by
  rw [readFraction]
  rintro tail rfl
  exact h rfl

theorem readFraction_append (hrest : Ends rest) (h : readFraction cs = some (text, cs')) :
    readFraction (cs ++ rest) = some (text, cs' ++ rest) := by
  unfold readFraction at h
  split at h
  · exact readDigits_append hrest h
  · rename_i hpoint
    cases h
    apply readFraction_of_head
    cases cs with
    | nil => exact fun hhead => (hrest _ hhead).2.1 rfl
    | cons c cs =>
      intro hhead
      cases hhead
      exact hpoint cs rfl

theorem readExponent_unsigned {c : Char} (hc : c = 'e' ∨ c = 'E') (hplus : cs.head? ≠ some '+')
    (hminus : cs.head? ≠ some '-') : readExponent (c :: cs) = readDigits [c] cs := by
  rw [readExponent, if_pos hc]
  · rintro tail rfl
    exact hplus rfl
  · rintro tail rfl
    exact hminus rfl

theorem readExponent_append (hrest : Ends rest) (h : readExponent cs = some (text, cs')) :
    readExponent (cs ++ rest) = some (text, cs' ++ rest) := by
  cases cs with
  | nil =>
    cases h
    cases rest with
    | nil => rfl
    | cons c rest =>
      obtain ⟨-, -, he, hE⟩ := hrest c rfl
      exact if_neg (not_or.mpr ⟨he, hE⟩)
  | cons c cs =>
    by_cases hc : c = 'e' ∨ c = 'E'
    · cases cs with
      | nil =>
        rw [readExponent_unsigned hc (by simp) (by simp)] at h
        cases h
      | cons d cs =>
        -- the sign, if any, is there already
        by_cases hplus : d = '+'
        · subst hplus
          rw [show readExponent (c :: '+' :: cs) = readDigits [c, '+'] cs from if_pos hc] at h
          exact (if_pos hc).trans (readDigits_append hrest h)
        · by_cases hminus : d = '-'
          · subst hminus
            rw [show readExponent (c :: '-' :: cs) = readDigits [c, '-'] cs from if_pos hc] at h
            exact (if_pos hc).trans (readDigits_append hrest h)
          · rw [readExponent_unsigned hc (by simpa using hplus) (by simpa using hminus)] at h
            rw [List.cons_append, readExponent_unsigned hc (by simpa using hplus)
              (by simpa using hminus)]
            exact readDigits_append hrest h
    · rw [show readExponent (c :: cs) = some ([], c :: cs) from if_neg hc] at h
      cases h
      exact if_neg hc

theorem readUnsigned_append (hrest : Ends rest) (h : readUnsigned cs = some (text, cs')) :
    readUnsigned (cs ++ rest) = some (text, cs' ++ rest) := by
  unfold readUnsigned at h ⊢
  split at h
  · cases h
  · rename_i integer tail hinteger
    rw [readInteger_append hrest hinteger]
    simp only
    split at h
    · cases h
    · rename_i fraction tail hfraction
      rw [readFraction_append hrest hfraction]
      simp only
      split at h
      · cases h
      · rename_i exponent tail hexponent
        rw [readExponent_append hrest hexponent]
        cases h
        rfl

theorem read_of_head (h : cs.head? ≠ some '-') : read cs = readUnsigned cs := by
  rw [read]
  rintro tail rfl
  exact h rfl

/-- A number begins with its sign or with a digit. -/
theorem read_head {c : Char} (h : read (c :: cs) = some (text, cs')) :
    c = '-' ∨ c.isDigit = true := by
  by_cases hsign : c = '-'
  · exact .inl hsign
  · right
    rw [read_of_head (by simpa using hsign), readUnsigned, readInteger.eq_def] at h
    split at h
    · cases h
    · rename_i hinteger
      split at hinteger
      · cases hinteger
      · rename_i heq
        cases heq
        rfl
      · rename_i heq
        cases heq
        split at hinteger
        · assumption
        · cases hinteger

theorem read_append (hrest : Ends rest) (h : read cs = some (text, cs')) :
    read (cs ++ rest) = some (text, cs' ++ rest) := by
  unfold read at h
  split at h
  · rename_i tail
    split at h
    · rename_i htail
      cases h
      rw [List.cons_append, read, readUnsigned_append hrest htail]
    · cases h
  · rename_i hsign
    cases cs with
    | nil => cases h
    | cons c cs =>
      rw [read_of_head, readUnsigned_append hrest h]
      intro hhead
      cases hhead
      exact hsign cs rfl

end

/-! ## Decimal digits -/

theorem ofNat_isDigit (n : Nat) : ∀ c ∈ ofNat n, c.isDigit = true :=
  fun _ hc => Nat.isDigit_of_mem_toDigits (by omega) (by omega) hc

/-- The digits of a number do not begin with zero unless they are no others. -/
theorem head?_ofNat {n : Nat} (h : 0 < n) : (ofNat n).head? ≠ some '0' := by
  induction n using Nat.strongRecOn with
  | ind n ih =>
    rw [ofNat, Nat.toDigits_eq_if (by omega)]
    split_ifs with hlt
    · interval_cases n <;> decide
    · have hquotient := ih (n / 10) (by omega) (by omega)
      rw [ofNat] at hquotient
      rwa [List.head?_append_of_ne_nil _ Nat.toDigits_ne_nil]

theorem digits_of_all {ds : List Char} (h : ∀ c ∈ ds, c.isDigit = true) :
    digits ds = (ds, []) := by
  rw [digits, List.takeWhile_eq_self_iff.mpr h, List.dropWhile_eq_nil_iff.mpr h]

/-- The digits of a number are a number by themselves. -/
theorem read_ofNat (n : Nat) : read (ofNat n) = some (ofNat n, []) := by
  rcases Nat.eq_zero_or_pos n with rfl | hpos
  · rfl
  · obtain ⟨c, ds, hds⟩ : ∃ c ds, ofNat n = c :: ds :=
      List.exists_cons_of_ne_nil Nat.toDigits_ne_nil
    have hzero := head?_ofNat hpos
    have hall := ofNat_isDigit n
    rw [hds] at hzero hall ⊢
    have hdigit : c.isDigit = true := hall c List.mem_cons_self
    have hinteger : readInteger (c :: ds) = some (c :: ds, []) := by
      rw [readInteger, if_pos hdigit, digits_of_all fun d hd => hall d (List.mem_cons_of_mem c hd)]
      rintro rfl
      exact hzero rfl
    have hsign : (c :: ds).head? ≠ some '-' := by
      rintro hhead
      cases hhead
      exact absurd hdigit (by decide)
    rw [read_of_head hsign, readUnsigned, hinteger]
    simp [readFraction, readExponent]

theorem toNat?_ofNat (n : Nat) : toNat? (ofNat n) = some n := by
  rw [toNat?, if_pos (List.all_eq_true.mpr (ofNat_isDigit n)), ofNat,
    Nat.ofDigitChars_ten_toDigits]

end Number
end Json
end KeyOrder
