/-!
# KeyOrder.Json.Number

Numbers as JSON writes them: an optional minus sign, an integer part without superfluous zeros,
an optional fraction and an optional exponent.

* `Number.read`  — the longest number at the head of a text.
* `Number.toNat?` — the natural number of a text that is nothing but an integer part.
-/

namespace KeyOrder

namespace Json

namespace Number

/-- The digits at the head of a text, and what follows them. -/
def digits (cs : List Char) : List Char × List Char :=
  (cs.takeWhile Char.isDigit, cs.dropWhile Char.isDigit)

def readInteger : List Char → Option (List Char × List Char)
  | [] => none
  | '0' :: rest => some (['0'], rest)
  | c :: rest =>
    if c.isDigit then
      let (more, rest) := digits rest
      some (c :: more, rest)
    else
      none

/-- The digits, at least one, after a part of a number that `lead` begins. -/
def readDigits (lead : List Char) (cs : List Char) : Option (List Char × List Char) :=
  match digits cs with
  | ([], _) => none
  | (ds, rest) => some (lead ++ ds, rest)

def readFraction : List Char → Option (List Char × List Char)
  | '.' :: rest => readDigits ['.'] rest
  | cs => some ([], cs)

def readExponent : List Char → Option (List Char × List Char)
  | [] => some ([], [])
  | c :: cs =>
    if c = 'e' ∨ c = 'E' then
      match cs with
      | '+' :: rest => readDigits [c, '+'] rest
      | '-' :: rest => readDigits [c, '-'] rest
      | rest => readDigits [c] rest
    else
      some ([], c :: cs)

/-- A number without its sign. -/
def readUnsigned (cs : List Char) : Option (List Char × List Char) :=
  match readInteger cs with
  | none => none
  | some (integer, cs) =>
    match readFraction cs with
    | none => none
    | some (fraction, cs) =>
      match readExponent cs with
      | none => none
      | some (exponent, cs) => some (integer ++ fraction ++ exponent, cs)

def read : List Char → Option (List Char × List Char)
  | '-' :: cs =>
    match readUnsigned cs with
    | some (text, rest) => some ('-' :: text, rest)
    | none => none
  | cs => readUnsigned cs

theorem length_digits_le (cs : List Char) : (digits cs).2.length ≤ cs.length :=
  (List.dropWhile_suffix _).length_le

theorem length_readInteger {cs text rest : List Char} (h : readInteger cs = some (text, rest)) :
    rest.length < cs.length := by
  unfold readInteger at h
  split at h
  · cases h
  · cases h; simp
  · rename_i c tail _
    split at h
    · cases h
      exact Nat.lt_succ_of_le (length_digits_le tail)
    · cases h

theorem length_readDigits {lead cs text rest : List Char}
    (h : readDigits lead cs = some (text, rest)) : rest.length ≤ cs.length := by
  have hle := length_digits_le cs
  unfold readDigits at h
  split at h
  · cases h
  · rename_i hd
    cases h
    rw [hd] at hle
    exact hle

theorem length_readFraction {cs text rest : List Char} (h : readFraction cs = some (text, rest)) :
    rest.length ≤ cs.length := by
  unfold readFraction at h
  split at h
  · have := length_readDigits h
    simp only [List.length_cons]; omega
  · cases h; exact Nat.le_refl _

theorem length_readExponent {cs text rest : List Char} (h : readExponent cs = some (text, rest)) :
    rest.length ≤ cs.length := by
  unfold readExponent at h
  split at h
  · cases h; exact Nat.le_refl _
  · split at h
    · split at h <;>
      · have := length_readDigits h
        simp only [List.length_cons] at this ⊢; omega
    · cases h; exact Nat.le_refl _

theorem length_readUnsigned {cs text rest : List Char} (h : readUnsigned cs = some (text, rest)) :
    rest.length < cs.length := by
  unfold readUnsigned at h
  split at h
  · cases h
  · rename_i hi
    have h1 := length_readInteger hi
    split at h
    · cases h
    · rename_i hf
      have h2 := length_readFraction hf
      split at h
      · cases h
      · rename_i he
        have h3 := length_readExponent he
        cases h
        omega

theorem length_read {cs text rest : List Char} (h : read cs = some (text, rest)) :
    rest.length < cs.length := by
  unfold read at h
  split at h
  · split at h
    · rename_i hu
      have := length_readUnsigned hu
      cases h
      simp only [List.length_cons]; omega
    · cases h
  · exact length_readUnsigned h

/-- The decimal digits of a natural number. -/
def ofNat (n : Nat) : List Char := Nat.toDigits 10 n

/-- The value of decimal digits. -/
def toNat? (text : List Char) : Option Nat :=
  if text.all Char.isDigit then some (Nat.ofDigitChars 10 text 0) else none

end Number

end Json

end KeyOrder
