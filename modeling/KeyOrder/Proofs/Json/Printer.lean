import KeyOrder.Json.Parser
import KeyOrder.Json.Printer
import KeyOrder.Proofs.Json.Token

/-!
# KeyOrder.Proofs.Json.Printer

The text that is printed for a value is read back as that value (`ofText?_pretty`). Between the two
stand the tokens of the value: the printed text is read as these tokens (`spells_pretty`), and the
parser makes the value of them (`parse_tokens`).

A value holds numbers as they are written, so it has a text only if these are numbers
(`WellFormed`). Nothing is asked of names and strings.
-/

namespace KeyOrder
namespace Json

open Number (Ends)
open Token (Spells SpellsBefore)

/-- Every number in the value is written as a number. -/
inductive WellFormed : Json → Prop where
  | null : WellFormed null
  | bool (b : Bool) : WellFormed (bool b)
  | number {text : String} (h : Number.read text.toList = some (text.toList, [])) :
    WellFormed (number text)
  | string (text : String) : WellFormed (string text)
  | array {values : List Json} (h : ∀ v ∈ values, WellFormed v) : WellFormed (array values)
  | object {members : List (String × Json)} (h : ∀ m ∈ members, WellFormed m.2) :
    WellFormed (object members)

mutual

/-- The tokens of a value. -/
def tokens : Json → List Token
  | null => [.null]
  | bool b => [.bool b]
  | number text => [.number text]
  | string text => [.string text]
  | array [] => [.beginArray, .endArray]
  | array (v :: values) => .beginArray :: tokens v ++ valueTokens values ++ [.endArray]
  | object [] => [.beginObject, .endObject]
  | object ((name, v) :: members) =>
    .beginObject :: .string name :: .colon :: tokens v ++ memberTokens members ++ [.endObject]

/-- The tokens of the values after the first one. -/
def valueTokens : List Json → List Token
  | [] => []
  | v :: values => .comma :: tokens v ++ valueTokens values

/-- The tokens of the members after the first one. -/
def memberTokens : List (String × Json) → List Token
  | [] => []
  | (name, v) :: members => .comma :: .string name :: .colon :: tokens v ++ memberTokens members

end

/-! ## From the text to the tokens -/

theorem spells_newLine (depth : Nat) : Spells (newLine depth) [] := by
  apply Spells.blanks
  intro c hc
  rw [newLine, List.mem_cons, List.mem_replicate] at hc
  rcases hc with rfl | ⟨-, rfl⟩
  · rfl
  · rfl

theorem spells_name (name : String) :
    Spells (Quoted.encode name.toList ++ [':', ' ']) [.string name, .colon] := by
  have hquoted := Spells.quoted name.toList
  rw [String.ofList_toList] at hquoted
  have hcolon : Spells [':'] [.colon] := .token rfl fun _ => rfl
  have hblank : Spells [' '] [] := .blanks (by simp [Token.isBlank])
  exact hquoted.append (hcolon.append hblank)

/-- A comma and a line break, before each value and each member but the first. -/
theorem spells_next (depth : Nat) : Spells (',' :: newLine depth) [.comma] := by
  have hcomma : Spells [','] [.comma] := .token rfl fun _ => rfl
  exact hcomma.append (spells_newLine depth)

theorem prettyValues_eq (depth : Nat) (values : List Json) :
    prettyValues depth values =
      values.flatMap fun v => ',' :: newLine depth ++ prettyAt depth v := by
  induction values with
  | nil => rw [prettyValues, List.flatMap_nil]
  | cons v values ih => rw [prettyValues, List.flatMap_cons, ih]

theorem prettyMembers_eq (depth : Nat) (members : List (String × Json)) :
    prettyMembers depth members =
      members.flatMap fun m => ',' :: newLine depth ++ Quoted.encode m.1.toList ++ [':', ' '] ++
        prettyAt depth m.2 := by
  induction members with
  | nil => rw [prettyMembers, List.flatMap_nil]
  | cons m members ih => rw [prettyMembers, List.flatMap_cons, ih]

theorem valueTokens_eq (values : List Json) :
    valueTokens values = values.flatMap fun v => .comma :: v.tokens := by
  induction values with
  | nil => rw [valueTokens, List.flatMap_nil]
  | cons v values ih => rw [valueTokens, List.flatMap_cons, ih]

theorem memberTokens_eq (members : List (String × Json)) :
    memberTokens members =
      members.flatMap fun m => .comma :: .string m.1 :: .colon :: m.2.tokens := by
  induction members with
  | nil => rw [memberTokens, List.flatMap_nil]
  | cons m members ih => rw [memberTokens, List.flatMap_cons, ih]

theorem spells_prettyValues (depth : Nat) {values : List Json}
    (h : ∀ v ∈ values, SpellsBefore (prettyAt depth v) v.tokens) :
    SpellsBefore (prettyValues depth values) (valueTokens values) ∧
      ∀ rest, Ends rest → Ends (prettyValues depth values ++ rest) := by
  rw [prettyValues_eq, valueTokens_eq]
  apply SpellsBefore.flatMap
  · intro v hv
    exact (spells_next depth).append_before (h v hv)
  · intro v rest
    exact .cons (by simp) _

theorem spells_prettyMembers (depth : Nat) {members : List (String × Json)}
    (h : ∀ m ∈ members, SpellsBefore (prettyAt depth m.2) m.2.tokens) :
    SpellsBefore (prettyMembers depth members) (memberTokens members) ∧
      ∀ rest, Ends rest → Ends (prettyMembers depth members ++ rest) := by
  rw [prettyMembers_eq, memberTokens_eq]
  apply SpellsBefore.flatMap
  · intro m hm
    have hnext := ((spells_next depth).append (spells_name m.1)).append_before (h m hm)
    simpa using hnext
  · intro m rest
    exact .cons (by simp) _

/-- A container that is not empty: its first item, the others, and the closing mark on a line of
its own. -/
theorem spells_container (depth : Nat) {mark endMark : Char} {begins ends : Token}
    {first others : List Char} {xs ys : List Token} (hmark : Spells [mark] [begins])
    (hendMark : Spells [endMark] [ends]) (hfirst : SpellsBefore first xs)
    (hothers : SpellsBefore others ys) (hends : ∀ rest, Ends rest → Ends (others ++ rest)) :
    SpellsBefore (mark :: newLine (depth + 1) ++ first ++ others ++ newLine depth ++ [endMark])
      (begins :: xs ++ ys ++ [ends]) := by
  have hlast := ((spells_newLine depth).append hendMark).before
  have hline (rest : List Char) : Ends (newLine depth ++ [endMark] ++ rest) := .cons (by simp) _
  have hitems : SpellsBefore (first ++ (others ++ (newLine depth ++ [endMark])))
      (xs ++ (ys ++ ([] ++ [ends]))) := by
    apply hfirst.append (hothers.append hlast fun rest _ => hline rest)
    intro rest _
    rw [List.append_assoc]
    exact hends _ (hline rest)
  have hall := (hmark.append (spells_newLine (depth + 1))).append_before hitems
  simpa using hall

/-- The printed text of a value is read as the tokens of the value. -/
theorem spells_pretty {v : Json} (h : v.WellFormed) :
    ∀ depth, SpellsBefore (prettyAt depth v) v.tokens := by
  induction h with
  | null =>
    intro depth
    rw [prettyAt, tokens]
    exact (Spells.token rfl fun _ => rfl).before
  | bool b =>
    intro depth
    rw [prettyAt, tokens]
    cases b with
    | false => exact (Spells.token rfl fun _ => rfl).before
    | true => exact (Spells.token rfl fun _ => rfl).before
  | number htext =>
    intro depth
    have hnumber := SpellsBefore.number htext
    rwa [String.ofList_toList] at hnumber
  | string text =>
    intro depth
    have hquoted := Spells.quoted text.toList
    rw [String.ofList_toList] at hquoted
    exact hquoted.before
  | @array values _ ih =>
    intro depth
    have hopen : Spells ['['] [.beginArray] := .token rfl fun _ => rfl
    have hclose : Spells [']'] [.endArray] := .token rfl fun _ => rfl
    cases values with
    | nil => exact (hopen.append hclose).before
    | cons v values =>
      obtain ⟨hvalues, hends⟩ := spells_prettyValues (depth + 1)
        fun w hw => ih w (List.mem_cons_of_mem v hw) (depth + 1)
      rw [prettyAt, tokens]
      exact spells_container depth hopen hclose (ih v List.mem_cons_self (depth + 1)) hvalues hends
  | @object members _ ih =>
    intro depth
    have hopen : Spells ['{'] [.beginObject] := .token rfl fun _ => rfl
    have hclose : Spells ['}'] [.endObject] := .token rfl fun _ => rfl
    cases members with
    | nil => exact (hopen.append hclose).before
    | cons m members =>
      obtain ⟨hmembers, hends⟩ := spells_prettyMembers (depth + 1)
        fun n hn => ih n (List.mem_cons_of_mem m hn) (depth + 1)
      have hfirst := (spells_name m.1).append_before (ih m List.mem_cons_self (depth + 1))
      rw [prettyAt, tokens]
      simpa using spells_container depth hopen hclose hfirst hmembers hends

/-! ## From the tokens to the value -/

/-- No value begins with the end of a container, so in an array it may come first. -/
theorem parse_firstValue (v : Json) (ts : List Token) (frames : List Frame) :
    parse (v.tokens ++ ts) .firstValue frames =
      parse (v.tokens ++ ts) .value (.array [] :: frames) := by
  cases v with
  | null => rw [tokens]; rfl
  | bool b => rw [tokens]; rfl
  | number text => rw [tokens]; rfl
  | string text => rw [tokens]; rfl
  | array values =>
    cases values with
    | nil => rw [tokens]; rfl
    | cons v values => rw [tokens]; rfl
  | object members =>
    cases members with
    | nil => rw [tokens]; rfl
    | cons m members => rw [tokens]; rfl

mutual

/-- The parser makes a value of its tokens, whatever comes before and after them. -/
theorem parse_tokens : ∀ (v : Json) (ts : List Token) (frames : List Frame),
    parse (v.tokens ++ ts) .value frames = parse ts (.after v) frames
  | null, ts, frames => by rw [tokens]; rfl
  | bool b, ts, frames => by rw [tokens]; rfl
  | number text, ts, frames => by rw [tokens]; rfl
  | string text, ts, frames => by rw [tokens]; rfl
  | array [], ts, frames => by rw [tokens]; rfl
  | array (v :: values), ts, frames => by
    have hbegin (more : List Token) :
        parse (.beginArray :: more) .value frames = parse more .firstValue frames := rfl
    simp only [tokens, List.cons_append, List.append_assoc, List.nil_append]
    rw [hbegin, parse_firstValue, parse_tokens v, parse_valueTokens values]
    rfl
  | object [], ts, frames => by rw [tokens]; rfl
  | object ((name, v) :: members), ts, frames => by
    have hbegin (more : List Token) :
        parse (.beginObject :: .string name :: .colon :: more) .value frames =
          parse more .value (.object [] name :: frames) := rfl
    simp only [tokens, List.cons_append, List.append_assoc, List.nil_append]
    rw [hbegin, parse_tokens v, parse_memberTokens members]
    rfl

theorem parse_valueTokens : ∀ (values : List Json) (v : Json) (before : List Json)
    (ts : List Token) (frames : List Frame),
    parse (valueTokens values ++ .endArray :: ts) (.after v) (.array before :: frames) =
      parse ts (.after (.array (before.reverse ++ v :: values))) frames
  | [], v, before, ts, frames => by simp [valueTokens, parse, step]
  | w :: values, v, before, ts, frames => by
    have hcomma (more : List Token) :
        parse (.comma :: more) (.after v) (.array before :: frames) =
          parse more .value (.array (v :: before) :: frames) := rfl
    simp only [valueTokens, List.cons_append, List.append_assoc]
    rw [hcomma, parse_tokens w, parse_valueTokens values]
    simp

theorem parse_memberTokens : ∀ (members : List (String × Json)) (v : Json) (name : String)
    (before : List (String × Json)) (ts : List Token) (frames : List Frame),
    parse (memberTokens members ++ .endObject :: ts) (.after v) (.object before name :: frames) =
      parse ts (.after (.object (before.reverse ++ (name, v) :: members))) frames
  | [], v, name, before, ts, frames => by simp [memberTokens, parse, step]
  | (other, w) :: members, v, name, before, ts, frames => by
    have hcomma (more : List Token) :
        parse (.comma :: .string other :: .colon :: more) (.after v)
            (.object before name :: frames) =
          parse more .value (.object ((name, v) :: before) other :: frames) := rfl
    simp only [memberTokens, List.cons_append, List.append_assoc]
    rw [hcomma, parse_tokens w, parse_memberTokens members]
    simp

end

theorem ofTokens?_tokens (v : Json) : ofTokens? v.tokens = some v := by
  have hparse := parse_tokens v [] []
  rw [List.append_nil] at hparse
  exact hparse

/-- The printed text of a value is read back as the value. -/
theorem ofText?_pretty {v : Json} (h : v.WellFormed) : ofText? v.pretty = some v := by
  have hread : Token.readAll (prettyAt 0 v ++ []) = some (v.tokens ++ []) :=
    spells_pretty h 0 [] [] .nil Token.readAll_nil
  rw [List.append_nil, List.append_nil] at hread
  rw [ofText?, pretty, String.toList_ofList, hread]
  exact ofTokens?_tokens v

end Json
end KeyOrder
