import KeyOrder.Json.Number

/-!
# KeyOrder.Json.Basic

JSON values, and reading their parts as data of a known shape. A number is kept as it is written,
so that nothing is lost of it; an object keeps all its members in order, also those of one name.

* `Json.record?`  — a record with named members. As an object it has its members in any order,
  each at most once and no other; as an array it has the leading members in their order.
* `Json.variant?` — a name out of several: a string, or an object whose one member has that name
  and the value null.
* `Json.word32?`  — a number below `2^32` that is written with digits only.
-/

namespace KeyOrder

inductive Json where
  | null
  | bool (b : Bool)
  | number (text : String)
  | string (text : String)
  | array (values : List Json)
  | object (members : List (String × Json))
  deriving Repr

namespace Json

def repeatsName : List String → Bool
  | [] => false
  | name :: names => names.contains name || repeatsName names

/-- The values of the members `names`, in that order, `none` for one that is not given. -/
def record? (names : List String) : Json → Option (List (Option Json))
  | object members =>
    let given := members.map Prod.fst
    if given.all names.contains && !repeatsName given then
      some (names.map fun name => members.lookup name)
    else
      none
  | array values =>
    if values.length ≤ names.length then
      some (values.map some ++ List.replicate (names.length - values.length) none)
    else
      none
  | _ => none

def variant? : Json → Option String
  | string name => some name
  | object [(name, null)] => some name
  | _ => none

def word32? : Json → Option UInt32
  | number text =>
    match Number.toNat? text.toList with
    | some n => if n < UInt32.size then some (UInt32.ofNat n) else none
    | none => none
  | _ => none

def bool? : Json → Option Bool
  | bool b => some b
  | _ => none

end Json

end KeyOrder
