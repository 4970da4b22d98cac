import KeyOrder.Json.Basic
import KeyOrder.Json.Token

/-!
# KeyOrder.Json.Parser

From tokens to a value. The containers that are open are kept innermost first, each with what it
holds so far, and every token moves the parser from one `Phase` to the next; so the parser is one
pass over the tokens.

* `Json.ofTokens?` — the value of a list of tokens.
* `Json.ofText?`   — the value of a text.
-/

namespace KeyOrder

namespace Json

/-- An open container: its values or members so far, last first, and for an object the name of
the member whose value comes next. -/
inductive Frame where
  | array (values : List Json)
  | object (members : List (String × Json)) (name : String)

/-- What may come next. -/
inductive Phase where
  /-- A value. -/
  | value
  /-- The first value of an array, or its end. -/
  | firstValue
  /-- The first name of an object, or its end. -/
  | firstName
  /-- Another name, after the members of an object so far. -/
  | name (members : List (String × Json))
  /-- The colon after a name. -/
  | colon (members : List (String × Json)) (name : String)
  /-- A comma, the end of a container or the end of the text, after a value. -/
  | after (value : Json)

/-- A token where a value begins. -/
def beginValue : Token → List Frame → Option (Phase × List Frame)
  | .null, frames => some (.after .null, frames)
  | .bool b, frames => some (.after (.bool b), frames)
  | .number text, frames => some (.after (.number text), frames)
  | .string text, frames => some (.after (.string text), frames)
  | .beginArray, frames => some (.firstValue, frames)
  | .beginObject, frames => some (.firstName, frames)
  | _, _ => none

def step : Token → Phase → List Frame → Option (Phase × List Frame)
  | t, .value, frames => beginValue t frames
  | .endArray, .firstValue, frames => some (.after (.array []), frames)
  | t, .firstValue, frames => beginValue t (.array [] :: frames)
  | .endObject, .firstName, frames => some (.after (.object []), frames)
  | .string name, .firstName, frames => some (.colon [] name, frames)
  | .string name, .name members, frames => some (.colon members name, frames)
  | .colon, .colon members name, frames => some (.value, .object members name :: frames)
  | .comma, .after v, .array values :: frames => some (.value, .array (v :: values) :: frames)
  | .comma, .after v, .object members name :: frames => some (.name ((name, v) :: members), frames)
  | .endArray, .after v, .array values :: frames =>
    some (.after (.array (v :: values).reverse), frames)
  | .endObject, .after v, .object members name :: frames =>
    some (.after (.object ((name, v) :: members).reverse), frames)
  | _, _, _ => none

/-- The value of a text of which some tokens are still to be read. -/
def parse : List Token → Phase → List Frame → Option Json
  | [], .after v, [] => some v
  | [], _, _ => none
  | t :: ts, phase, frames =>
    match step t phase frames with
    | some (phase, frames) => parse ts phase frames
    | none => none

def ofTokens? (ts : List Token) : Option Json := parse ts .value []

def ofText? (text : String) : Option Json :=
  match Token.readAll text.toList with
  | some ts => ofTokens? ts
  | none => none

end Json

end KeyOrder
