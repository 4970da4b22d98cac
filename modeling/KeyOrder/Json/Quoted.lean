/-!
# KeyOrder.Json.Quoted

Texts between quotation marks.

* `Quoted.encode` — escapes the quotation mark, the backslash and the control characters below
  U+0020, those that have a letter by it and the others by four hexadecimal digits.
* `Quoted.read`   — reads the characters up to the closing mark. Any character may be escaped by
  its UTF-16 units; a unit of a pair without the other is refused, and so is a control character
  that is not escaped.
-/

namespace KeyOrder

namespace Json

namespace Quoted

/-- The form of one character inside quotation marks. -/
def encodeChar (c : Char) : List Char :=
  if c = '"' then ['\\', '"']
  else if c = '\\' then ['\\', '\\']
  else if c = '\x08' then ['\\', 'b']
  else if c = '\x0c' then ['\\', 'f']
  else if c = '\n' then ['\\', 'n']
  else if c = '\r' then ['\\', 'r']
  else if c = '\t' then ['\\', 't']
  else if c.toNat < 0x20 then
    ['\\', 'u', '0', '0', Nat.digitChar (c.toNat / 16), Nat.digitChar (c.toNat % 16)]
  else [c]

def encode (text : List Char) : List Char := '"' :: text.flatMap encodeChar ++ ['"']

/-- The character that a letter after a backslash stands for. -/
def escape? : Char → Option Char
  | '"' => some '"'
  | '\\' => some '\\'
  | '/' => some '/'
  | 'b' => some '\x08'
  | 'f' => some '\x0c'
  | 'n' => some '\n'
  | 'r' => some '\r'
  | 't' => some '\t'
  | _ => none

def hexDigit? (c : Char) : Option Nat :=
  if '0' ≤ c ∧ c ≤ '9' then some (c.toNat - 48)
  else if 'a' ≤ c ∧ c ≤ 'f' then some (c.toNat - 87)
  else if 'A' ≤ c ∧ c ≤ 'F' then some (c.toNat - 55)
  else none

/-- The UTF-16 unit of four hexadecimal digits. -/
def unit? (a b c d : Char) : Option Nat :=
  match hexDigit? a, hexDigit? b, hexDigit? c, hexDigit? d with
  | some a, some b, some c, some d => some (((a * 16 + b) * 16 + c) * 16 + d)
  | _, _, _, _ => none

/-- The second unit of a pair that begins with `high`. -/
def readLow? (high : Nat) : List Char → Option (Char × List Char)
  | '\\' :: 'u' :: a :: b :: c :: d :: rest =>
    match unit? a b c d with
    | some low =>
      if 0xdc00 ≤ low ∧ low ≤ 0xdfff then
        some (Char.ofNat (0x10000 + (high - 0xd800) * 0x400 + (low - 0xdc00)), rest)
      else
        none
    | none => none
  | _ => none

/-- The character of the escape after a backslash. -/
def readEscape? : List Char → Option (Char × List Char)
  | 'u' :: a :: b :: c :: d :: rest =>
    match unit? a b c d with
    | some unit =>
      if 0xd800 ≤ unit ∧ unit ≤ 0xdbff then readLow? unit rest
      else if 0xdc00 ≤ unit ∧ unit ≤ 0xdfff then none
      else some (Char.ofNat unit, rest)
    | none => none
  | letter :: rest =>
    match escape? letter with
    | some c => some (c, rest)
    | none => none
  | [] => none

/-- One character, escaped or not, and what follows it. -/
def readChar? : List Char → Option (Char × List Char)
  | [] => none
  | c :: rest =>
    if c = '\\' then readEscape? rest
    else if c.toNat < 0x20 then none
    else some (c, rest)

theorem length_readLow? {high : Nat} {cs : List Char} {c : Char} {rest : List Char}
    (h : readLow? high cs = some (c, rest)) : rest.length < cs.length := by
  unfold readLow? at h
  split at h
  · split at h
    · split at h
      · simp only [Option.some.injEq, Prod.mk.injEq] at h
        simp only [← h.2, List.length_cons]; omega
      · cases h
    · cases h
  · cases h

theorem length_readEscape? {cs : List Char} {c : Char} {rest : List Char}
    (h : readEscape? cs = some (c, rest)) : rest.length < cs.length := by
  unfold readEscape? at h
  split at h
  · split at h
    · split at h
      · have := length_readLow? h
        simp only [List.length_cons]; omega
      · split at h
        · cases h
        · simp only [Option.some.injEq, Prod.mk.injEq] at h
          simp only [← h.2, List.length_cons]; omega
    · cases h
  · split at h
    · cases h; simp
    · cases h
  · cases h

theorem length_readChar? {cs : List Char} {c : Char} {rest : List Char}
    (h : readChar? cs = some (c, rest)) : rest.length < cs.length := by
  unfold readChar? at h
  split at h
  · cases h
  · split at h
    · exact Nat.lt_succ_of_lt (length_readEscape? h)
    · split at h
      · cases h
      · cases h; simp

/-- The characters up to the closing mark, and what follows the mark. -/
def read (cs : List Char) : Option (List Char × List Char) :=
  match cs with
  | '"' :: rest => some ([], rest)
  | cs =>
    match h : readChar? cs with
    | none => none
    | some (c, rest) =>
      have := length_readChar? h
      match read rest with
      | some (text, rest) => some (c :: text, rest)
      | none => none
termination_by cs.length
decreasing_by exact this

@[simp] theorem read_mark (rest : List Char) : read ('"' :: rest) = some ([], rest) := by
  rw [read]

theorem read_of_readChar? {cs rest : List Char} {c : Char} (hq : cs.head? ≠ some '"')
    (h : readChar? cs = some (c, rest)) :
    read cs = (read rest).map fun p => (c :: p.1, p.2) := by
  rw [read]
  · split
    · simp_all
    · rename_i heq
      rw [h] at heq
      cases heq
      cases read rest <;> rfl
  · rintro tail rfl
    exact hq rfl

theorem length_read {cs text rest : List Char} (h : read cs = some (text, rest)) :
    rest.length < cs.length := by
  fun_induction read cs generalizing text rest with
  | case1 => cases h; simp
  | case2 => cases h
  | case3 cs _ c tail hc _ text' rest' hr ih =>
    cases h
    exact Nat.lt_trans (ih hr) (length_readChar? hc)
  | case4 => cases h

end Quoted

end Json

end KeyOrder
