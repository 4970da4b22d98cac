import KeyOrder.Proofs.Json.Printer

/-!
# KeyOrder.Proofs.Json.Document

The texts of a JSON value: every spelling that JSON has for its tokens, with any blanks around them.

* `Quoted.Form`  — a text between quotation marks, each character as it is, by a letter or by its
  UTF-16 units in hexadecimal digits.
* `Number.Form`  — a number with or without sign, fraction and exponent.
* `Token.Written` — tokens one after another.
* `ofText?_document` — from each of its texts the value is read back. A number has to be told from
  the token after it, and where the parser accepts the tokens that is no other number.
-/

namespace KeyOrder
namespace Json

/-! ## Quoted texts -/

namespace Quoted

inductive HexDigit (c : Char) (n : Nat) : Prop where
  | lower (h : "0123456789abcdef".toList[n]? = some c)
  | upper (h : "0123456789ABCDEF".toList[n]? = some c)

/-- A UTF-16 unit in four digits. -/
inductive UnitForm : Nat → List Char → Prop where
  | digits {a b c d : Char} {i j k l : Nat} (ha : HexDigit a i) (hb : HexDigit b j)
    (hc : HexDigit c k) (hd : HexDigit d l) :
    UnitForm (((i * 16 + j) * 16 + k) * 16 + l) [a, b, c, d]

/-- The characters that have a letter, after it. -/
def letters : List (Char × Char) :=
  [('"', '"'), ('\\', '\\'), ('/', '/'), ('b', '\x08'), ('f', '\x0c'), ('n', '\n'), ('r', '\r'),
    ('t', '\t')]

inductive CharForm : Char → List Char → Prop where
  | plain {c : Char} (hmark : c ≠ '"') (hbackslash : c ≠ '\\') (hcontrol : 0x20 ≤ c.toNat) :
    CharForm c [c]
  | letter {l c : Char} (h : (l, c) ∈ letters) : CharForm c ['\\', l]
  | unit {c : Char} {digits : List Char} (h : UnitForm c.toNat digits) :
    CharForm c ('\\' :: 'u' :: digits)
  | pair {c : Char} {high low : Nat} {digits digits' : List Char}
    (hhigh : 0xd800 ≤ high ∧ high ≤ 0xdbff) (hlow : 0xdc00 ≤ low ∧ low ≤ 0xdfff)
    (hc : c.toNat = 0x10000 + (high - 0xd800) * 0x400 + (low - 0xdc00)) (h : UnitForm high digits)
    (h' : UnitForm low digits') : CharForm c ('\\' :: 'u' :: digits ++ '\\' :: 'u' :: digits')

inductive Form (text : List Char) : List Char → Prop where
  | quoted {forms : List (List Char)} (h : List.Forall₂ CharForm text forms) :
    Form text ('"' :: (forms.flatten ++ ['"']))

theorem HexDigit.value {c : Char} {n : Nat} (h : HexDigit c n) : hexDigit? c = some n := by
  have hlt : n < 16 := by
    cases h with
    | lower h => exact (List.getElem?_eq_some_iff.mp h).1
    | upper h => exact (List.getElem?_eq_some_iff.mp h).1
  cases h with
  | lower h => interval_cases n <;> (cases h; rfl)
  | upper h => interval_cases n <;> (cases h; rfl)

theorem UnitForm.reads {unit : Nat} {digits : List Char} (h : UnitForm unit digits) :
    ∃ a b c d, digits = [a, b, c, d] ∧ unit? a b c d = some unit := by
  cases h with
  | digits ha hb hc hd =>
    refine ⟨_, _, _, _, rfl, ?_⟩
    rw [unit?, ha.value, hb.value, hc.value, hd.value]

/-- A character of its own has no half of a pair for its number. -/
theorem not_surrogate (c : Char) : ¬(0xd800 ≤ c.toNat ∧ c.toNat ≤ 0xdfff) := by
  have hvalid : c.toNat < 0xd800 ∨ 0xdfff < c.toNat ∧ c.toNat < 0x110000 := c.valid
  omega

theorem CharForm.reads {c : Char} {form : List Char} (h : CharForm c form) (rest : List Char) :
    readChar? (form ++ rest) = some (c, rest) := by
  cases h with
  | plain _ hbackslash hcontrol =>
    rw [List.singleton_append, readChar?, if_neg hbackslash, if_neg (not_lt.mpr hcontrol)]
  | letter h =>
    simp only [letters, List.mem_cons, Prod.mk.injEq, List.not_mem_nil, or_false] at h
    rcases h with ⟨rfl, rfl⟩ | ⟨rfl, rfl⟩ | ⟨rfl, rfl⟩ | ⟨rfl, rfl⟩ | ⟨rfl, rfl⟩ | ⟨rfl, rfl⟩ |
      ⟨rfl, rfl⟩ | ⟨rfl, rfl⟩ <;> rfl
  | unit h =>
    obtain ⟨a, b, c', d, rfl, hunit⟩ := h.reads
    have hsurrogate := not_surrogate c
    have hread : readEscape? ('u' :: a :: b :: c' :: d :: rest) = some (c, rest) := by
      rw [readEscape?, hunit]
      simp only
      rw [if_neg (by omega), if_neg (by omega), Char.ofNat_toNat]
    exact (readChar?_backslash _).trans hread
  | pair hhigh hlow hc h h' =>
    obtain ⟨a, b, x, d, rfl, hunit⟩ := h.reads
    obtain ⟨a', b', x', d', rfl, hunit'⟩ := h'.reads
    have hread : readEscape? ('u' :: a :: b :: x :: d :: '\\' :: 'u' :: a' :: b' :: x' :: d' ::
        rest) = some (c, rest) := by
      rw [readEscape?, hunit]
      simp only
      rw [if_pos hhigh, readLow?, hunit']
      simp only
      rw [if_pos hlow, ← hc, Char.ofNat_toNat]
    exact (readChar?_backslash _).trans hread

theorem CharForm.head {c : Char} {form : List Char} (h : CharForm c form) (rest : List Char) :
    (form ++ rest).head? ≠ some '"' := by
  cases h with
  | plain hmark => simpa using hmark
  | letter => simp
  | unit => simp
  | pair => simp

theorem read_forms {text : List Char} {forms : List (List Char)}
    (h : List.Forall₂ CharForm text forms) (rest : List Char) :
    read (forms.flatten ++ '"' :: rest) = some (text, rest) := by
  induction h with
  | nil => exact read_mark rest
  | cons hc _ ih =>
    rw [List.flatten_cons, List.append_assoc, read_of_readChar? (hc.head _) (hc.reads _), ih]
    rfl

/-- Characters that stand for themselves. -/
theorem Form.plain (text : List Char)
    (h : ∀ c ∈ text, c ≠ '"' ∧ c ≠ '\\' ∧ 0x20 ≤ c.toNat) :
    Form text ('"' :: (text ++ ['"'])) := by
  have hforms : List.Forall₂ CharForm text (text.map fun c => [c]) := by
    rw [List.forall₂_map_right_iff, List.forall₂_same]
    intro c hc
    obtain ⟨hmark, hbackslash, hcontrol⟩ := h c hc
    exact .plain hmark hbackslash hcontrol
  have hform := Form.quoted hforms
  rwa [← List.flatMap_def, List.flatMap_singleton'] at hform

end Quoted

/-! ## Numbers -/

namespace Number

def AllDigits (ds : List Char) : Prop := ∀ d ∈ ds, d.isDigit = true

inductive IntegerForm : List Char → Prop where
  | zero : IntegerForm ['0']
  | digits {d : Char} {ds : List Char} (hzero : d ≠ '0') (h : AllDigits (d :: ds)) :
    IntegerForm (d :: ds)

inductive FractionForm : List Char → Prop where
  | none : FractionForm []
  | point {ds : List Char} (hds : ds ≠ []) (h : AllDigits ds) : FractionForm ('.' :: ds)

inductive ExponentForm : List Char → Prop where
  | none : ExponentForm []
  | letter {e : Char} {sign ds : List Char} (he : e ∈ ['e', 'E']) (hsign : sign ∈ [[], ['+'], ['-']])
    (hds : ds ≠ []) (h : AllDigits ds) : ExponentForm (e :: sign ++ ds)

inductive Form : List Char → Prop where
  | parts {sign integer fraction exponent : List Char} (hsign : sign ∈ [[], ['-']])
    (hinteger : IntegerForm integer) (hfraction : FractionForm fraction)
    (hexponent : ExponentForm exponent) : Form (sign ++ integer ++ fraction ++ exponent)

section Reading

variable {integer fraction exponent ds rest : List Char}

theorem AllDigits.head (hds : AllDigits ds) {c : Char} (hc : c.isDigit = false) :
    ds.head? ≠ some c := by
  intro hhead
  have hdigit := hds c (List.mem_of_mem_head? hhead)
  rw [hc] at hdigit
  cases hdigit

/-- What comes first in what follows the digits is none. -/
theorem digits_of_stop (hds : AllDigits ds) (hrest : ∀ c ∈ rest.head?, c.isDigit = false) :
    digits (ds ++ rest) = (ds, rest) := by
  have hstop : rest.takeWhile Char.isDigit = [] ∧ rest.dropWhile Char.isDigit = rest := by
    cases rest with
    | nil => exact ⟨rfl, rfl⟩
    | cons c rest => simp [hrest c rfl]
  rw [digits, List.takeWhile_append_of_pos hds, List.dropWhile_append_of_pos hds, hstop.1, hstop.2,
    List.append_nil]

theorem readDigits_of_stop (lead : List Char) (hne : ds ≠ []) (hds : AllDigits ds)
    (hrest : ∀ c ∈ rest.head?, c.isDigit = false) :
    readDigits lead (ds ++ rest) = some (lead ++ ds, rest) := by
  rw [readDigits_eq, digits_of_stop hds hrest, if_neg hne]

theorem ExponentForm.reads (h : ExponentForm exponent) :
    readExponent exponent = some (exponent, []) := by
  cases h with
  | none => rfl
  | @letter e sign ds he hsign hne hds =>
    have hdigits (lead : List Char) : readDigits lead ds = some (lead ++ ds, []) := by
      rw [readDigits_eq, digits_of_all hds, if_neg hne]
    have hletter : e = 'e' ∨ e = 'E' := by simpa using he
    simp only [List.mem_cons, List.not_mem_nil, or_false] at hsign
    rcases hsign with rfl | rfl | rfl
    · exact (readExponent_unsigned hletter (hds.head (by decide)) (hds.head (by decide))).trans
        (hdigits [e])
    · exact (if_pos hletter).trans (hdigits [e, '+'])
    · exact (if_pos hletter).trans (hdigits [e, '-'])

theorem ExponentForm.head (h : ExponentForm exponent) :
    ∀ c ∈ exponent.head?, c.isDigit = false ∧ c ≠ '.' := by
  cases h with
  | none => simp
  | letter he =>
    simp only [List.mem_cons, List.not_mem_nil, or_false] at he
    rcases he with rfl | rfl <;> simp

theorem FractionForm.reads (h : FractionForm fraction) (hexponent : ExponentForm exponent) :
    readFraction (fraction ++ exponent) = some (fraction, exponent) := by
  cases h with
  | none =>
    apply readFraction_of_head
    intro hhead
    exact (hexponent.head '.' hhead).2 rfl
  | point hne hds => exact readDigits_of_stop ['.'] hne hds fun c hc => (hexponent.head c hc).1

theorem FractionForm.head (h : FractionForm fraction) (hexponent : ExponentForm exponent) :
    ∀ c ∈ (fraction ++ exponent).head?, c.isDigit = false := by
  cases h with
  | none => exact fun c hc => (hexponent.head c hc).1
  | point => simp

theorem IntegerForm.reads (h : IntegerForm integer) (hrest : ∀ c ∈ rest.head?, c.isDigit = false) :
    readInteger (integer ++ rest) = some (integer, rest) := by
  cases h with
  | zero => rfl
  | @digits d ds hzero hds =>
    rw [List.cons_append, readInteger, if_pos (hds d List.mem_cons_self),
      digits_of_stop (fun c hc => hds c (List.mem_cons_of_mem d hc)) hrest]
    rintro rfl
    exact hzero rfl

theorem IntegerForm.head (h : IntegerForm integer) (rest : List Char) :
    (integer ++ rest).head? ≠ some '-' := by
  cases h with
  | zero => simp
  | digits _ hds => exact hds.head (by decide)

theorem Form.reads {text : List Char} (h : Form text) : read text = some (text, []) := by
  cases h with
  | @parts sign integer fraction exponent hsign hinteger hfraction hexponent =>
    have hunsigned : readUnsigned (integer ++ (fraction ++ exponent)) =
        some (integer ++ (fraction ++ exponent), []) := by
      rw [readUnsigned, hinteger.reads (hfraction.head hexponent)]
      simp only
      rw [hfraction.reads hexponent]
      simp only
      rw [hexponent.reads]
      simp only [List.append_assoc]
    simp only [List.mem_cons, List.not_mem_nil, or_false] at hsign
    rw [List.append_assoc, List.append_assoc]
    rcases hsign with rfl | rfl
    · exact (read_of_head (hinteger.head _)).trans hunsigned
    · rw [List.singleton_append, read, hunsigned]

end Reading

end Number

/-! ## Tokens -/

namespace Token

open Number (Ends)

inductive Form : Token → List Char → Prop where
  | beginObject : Form beginObject ['{']
  | endObject : Form endObject ['}']
  | beginArray : Form beginArray ['[']
  | endArray : Form endArray [']']
  | comma : Form comma [',']
  | colon : Form colon [':']
  | null : Form null ['n', 'u', 'l', 'l']
  | true : Form (bool true) ['t', 'r', 'u', 'e']
  | false : Form (bool false) ['f', 'a', 'l', 's', 'e']
  | number {text : List Char} (h : Number.Form text) : Form (number (String.ofList text)) text
  | string {text form : List Char} (h : Quoted.Form text form) :
    Form (string (String.ofList text)) form

def Blank (text : List Char) : Prop := ∀ c ∈ text, c ∈ [' ', '\t', '\n', '\r']

/-- Tokens one after another, with blanks before, between and after them. -/
inductive Written : List Token → List Char → Prop where
  | nil {blanks : List Char} (hblanks : Blank blanks) : Written [] blanks
  | cons {t : Token} {ts : List Token} {blanks form rest : List Char} (hblanks : Blank blanks)
    (h : Form t form) (hrest : Written ts rest) : Written (t :: ts) (blanks ++ form ++ rest)

theorem Written.empty : Written [] [] := .nil fun _ hc => by cases hc

/-- A token without blanks before it. -/
theorem Written.next {t : Token} {ts : List Token} {form rest : List Char} (h : Form t form)
    (hrest : Written ts rest) : Written (t :: ts) (form ++ rest) := by
  show Written (t :: ts) ([] ++ form ++ rest)
  exact .cons (fun _ hc => by cases hc) h hrest

theorem Blank.spells {text : List Char} (h : Blank text) : Spells text [] := by
  apply Spells.blanks
  intro c hc
  have hblank := h c hc
  simp only [List.mem_cons, List.not_mem_nil, or_false] at hblank
  rcases hblank with rfl | rfl | rfl | rfl <;> rfl

/-- What follows a token matters only to a number. -/
theorem Form.reads {t : Token} {form rest : List Char} {more : List Token} (h : Form t form)
    (hends : ∀ text, t = Token.number text → Ends rest) (hrest : readAll rest = some more) :
    readAll (form ++ rest) = some (t :: more) := by
  cases h with
  | number h => exact SpellsBefore.number h.reads rest more (hends _ rfl) hrest
  | @string text _ h =>
    cases h with
    | @quoted forms hforms =>
      have hread (rest : List Char) : Token.read ('"' :: (forms.flatten ++ ['"']) ++ rest) =
          some (.string (String.ofList text), rest) := by
        rw [List.cons_append, List.append_assoc, List.singleton_append, Token.read,
          Quoted.read_forms hforms]
      exact Spells.token (by decide) hread rest more hrest
  | _ => exact Spells.token rfl (fun _ => rfl) rest more hrest

theorem Blank.ends {text : List Char} (h : Blank text) {rest : List Char} (hrest : Ends rest) :
    Ends (text ++ rest) := by
  cases text with
  | nil => exact hrest
  | cons c text =>
    have hblank := h c List.mem_cons_self
    simp only [List.mem_cons, List.not_mem_nil, or_false] at hblank
    rcases hblank with rfl | rfl | rfl | rfl <;> exact .cons (by decide) _

/-- Only a number goes on with a number. -/
theorem Written.ends {ts : List Token} {text : List Char} (h : Written ts text)
    (hts : ∀ number, ts.head? ≠ some (Token.number number)) : Ends text := by
  cases h with
  | nil hblanks =>
    rw [← List.append_nil text]
    exact hblanks.ends .nil
  | @cons t _ blanks form rest hblanks ht =>
    rw [List.append_assoc]
    apply hblanks.ends
    cases ht with
    | number => exact absurd rfl (hts _)
    | string h =>
      cases h
      exact .cons (by decide) _
    | _ => exact .cons (by decide) _

end Token

/-! ## Documents -/

open Token (Written)

/-- After a number the parser goes on as after any value, so it takes no other number there. -/
theorem not_number_of_parse {text : String} {ts : List Token} {phase : Phase}
    {frames : List Frame} {v : Json} (h : parse (.number text :: ts) phase frames = some v)
    (number : String) : ts.head? ≠ some (Token.number number) := by
  intro hhead
  obtain ⟨ts, rfl⟩ := List.head?_eq_some_iff.mp hhead
  cases phase <;> cases h

/-- What the parser accepts is what the text is read as. -/
theorem readAll_of_parse {ts : List Token} {text : List Char} (h : Written ts text) :
    ∀ {phase : Phase} {frames : List Frame} {v : Json}, parse ts phase frames = some v →
      Token.readAll text = some ts := by
  induction h with
  | @nil blanks hblanks =>
    intro phase frames v _
    have hread := hblanks.spells [] [] Token.readAll_nil
    rwa [List.append_nil] at hread
  | @cons t ts blanks form rest hblanks ht hrest ih =>
    intro phase frames v hparse
    -- a number could go on in the next token only if that were a number too
    have hends : ∀ text, t = .number text → Number.Ends rest := by
      rintro text rfl
      exact hrest.ends (not_number_of_parse hparse)
    have hmore : Token.readAll rest = some ts := by
      rw [parse] at hparse
      split at hparse
      · exact ih hparse
      · cases hparse
    rw [List.append_assoc]
    exact hblanks.spells _ _ (ht.reads hends hmore)

/-- The texts of a value. -/
def Document (v : Json) (text : String) : Prop := Written v.tokens text.toList

theorem ofText?_document {v : Json} {text : String} (h : v.Document text) :
    ofText? text = some v := by
  have hparse : parse v.tokens .value [] = some v := ofTokens?_tokens v
  rw [ofText?, readAll_of_parse h hparse]
  exact hparse

end Json
end KeyOrder
