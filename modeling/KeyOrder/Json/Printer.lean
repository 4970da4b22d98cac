import KeyOrder.Json.Basic
import KeyOrder.Json.Quoted

/-!
# KeyOrder.Json.Printer

JSON texts for people: each value of an array and each member of an object has a line of its own,
indented by two spaces for each container around it. An empty container is written without a line
break, and a colon is followed by one space.
-/

namespace KeyOrder

namespace Json

/-- A line break and the indentation inside `depth` containers. -/
def newLine (depth : Nat) : List Char := '\n' :: List.replicate (2 * depth) ' '

def boolText (b : Bool) : List Char := (if b then "true" else "false").toList

mutual

/-- A value inside `depth` containers. -/
def prettyAt (depth : Nat) : Json → List Char
  | null => "null".toList
  | bool b => boolText b
  | number text => text.toList
  | string text => Quoted.encode text.toList
  | array [] => ['[', ']']
  | array (v :: values) =>
    '[' :: newLine (depth + 1) ++ prettyAt (depth + 1) v ++ prettyValues (depth + 1) values ++
      newLine depth ++ [']']
  | object [] => ['{', '}']
  | object ((name, v) :: members) =>
    '{' :: newLine (depth + 1) ++ Quoted.encode name.toList ++ [':', ' '] ++
      prettyAt (depth + 1) v ++ prettyMembers (depth + 1) members ++ newLine depth ++ ['}']

/-- The values after the first one, inside `depth` containers. -/
def prettyValues (depth : Nat) : List Json → List Char
  | [] => []
  | v :: values => ',' :: newLine depth ++ prettyAt depth v ++ prettyValues depth values

/-- The members after the first one, inside `depth` containers. -/
def prettyMembers (depth : Nat) : List (String × Json) → List Char
  | [] => []
  | (name, v) :: members =>
    ',' :: newLine depth ++ Quoted.encode name.toList ++ [':', ' '] ++ prettyAt depth v ++
      prettyMembers depth members

end

def pretty (v : Json) : String := String.ofList (prettyAt 0 v)

end Json

end KeyOrder
