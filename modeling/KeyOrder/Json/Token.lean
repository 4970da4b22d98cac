import KeyOrder.Json.Number
import KeyOrder.Json.Quoted

/-!
# KeyOrder.Json.Token

The tokens of a JSON text. Blanks (space, tab, line feed and carriage return) may stand between
tokens and mean nothing; any other character belongs to a token or makes the text malformed.
-/

namespace KeyOrder

namespace Json

inductive Token where
  | beginObject
  | endObject
  | beginArray
  | endArray
  | comma
  | colon
  | null
  | bool (b : Bool)
  /-- A number as it is written. -/
  | number (text : String)
  | string (text : String)
  deriving DecidableEq, Repr

namespace Token

def isBlank (c : Char) : Bool := c == ' ' || c == '\t' || c == '\n' || c == '\r'

/-- The token at the head of a text, and what follows it. -/
def read : List Char → Option (Token × List Char)
  | '{' :: rest => some (beginObject, rest)
  | '}' :: rest => some (endObject, rest)
  | '[' :: rest => some (beginArray, rest)
  | ']' :: rest => some (endArray, rest)
  | ',' :: rest => some (comma, rest)
  | ':' :: rest => some (colon, rest)
  | 'n' :: 'u' :: 'l' :: 'l' :: rest => some (null, rest)
  | 't' :: 'r' :: 'u' :: 'e' :: rest => some (bool true, rest)
  | 'f' :: 'a' :: 'l' :: 's' :: 'e' :: rest => some (bool false, rest)
  | '"' :: rest =>
    match Quoted.read rest with
    | some (text, rest) => some (string (String.ofList text), rest)
    | none => none
  | cs =>
    match Number.read cs with
    | some (text, rest) => some (number (String.ofList text), rest)
    | none => none

theorem length_read {cs : List Char} {t : Token} {rest : List Char}
    (h : read cs = some (t, rest)) : rest.length < cs.length := by
  unfold read at h
  split at h
  case h_10 =>
    split at h
    · rename_i hq
      have := Quoted.length_read hq
      cases h
      simp only [List.length_cons]; omega
    · cases h
  case h_11 =>
    split at h
    · rename_i hn
      have := Number.length_read hn
      cases h
      exact this
    · cases h
  all_goals
    cases h
    simp only [List.length_cons]; omega

/-- All tokens of a text. -/
def readAll (cs : List Char) : Option (List Token) :=
  match cs with
  | [] => some []
  | c :: rest =>
    if isBlank c then
      readAll rest
    else
      match h : read (c :: rest) with
      | none => none
      | some (t, rest) =>
        have := length_read h
        match readAll rest with
        | some ts => some (t :: ts)
        | none => none
termination_by cs.length
decreasing_by
  · exact Nat.lt_succ_self _
  · exact this

@[simp] theorem readAll_nil : readAll [] = some [] := by rw [readAll]

theorem readAll_blank {c : Char} (h : isBlank c = true) (rest : List Char) :
    readAll (c :: rest) = readAll rest := by
  rw [readAll, if_pos h]

theorem readAll_of_read {c : Char} {cs rest : List Char} {t : Token} (hb : isBlank c = false)
    (h : read (c :: cs) = some (t, rest)) :
    readAll (c :: cs) = (readAll rest).map (t :: ·) := by
  rw [readAll, if_neg (by simp [hb])]
  split
  · simp_all
  · rename_i heq
    rw [h] at heq
    cases heq
    cases readAll rest <;> rfl

end Token

end Json

end KeyOrder
