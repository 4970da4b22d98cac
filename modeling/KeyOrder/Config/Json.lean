import KeyOrder.Config.Basic
import KeyOrder.Json.Parser
import KeyOrder.Json.Printer
import KeyOrder.Json.Basic

/-!
# KeyOrder.Config.Json

Configurations as JSON texts. A configuration is a record of three members, each of which has a
default; the comparators are an object whose names may be repeated, and then the last one counts.
A field is a record of a type and a direction, which is ascending if it is left out.

* `Config.toText` — writes every member.
* `Config.ofText` — reads any text that gives a configuration, and no other.
* `Config.ofFile` — reads the bytes of a file, which may be missing.
-/

namespace KeyOrder

namespace Direction

/-- The direction of a name, in full or in short. -/
def ofName? : String → Option Direction
  | "ascending" => some ascending
  | "asc" => some ascending
  | "descending" => some descending
  | "desc" => some descending
  | _ => none

end Direction

namespace FieldOrdering

def memberNames : List String := ["type", "direction"]

def toJson (f : FieldOrdering) : Json :=
  .object [("type", .string f.type.name), ("direction", .string f.direction.name)]

def directionOfMember? : Option Json → Option Direction
  | none => some .ascending
  | some v =>
    match v.variant? with
    | some name => Direction.ofName? name
    | none => none

def typeOfMember? : Option Json → Option FieldType
  | none => none
  | some v =>
    match v.variant? with
    | some name => FieldType.ofName? name
    | none => none

def ofJson? (v : Json) : Option FieldOrdering :=
  match v.record? memberNames with
  | some [type, direction] =>
    match typeOfMember? type, directionOfMember? direction with
    | some type, some direction => some ⟨type, direction⟩
    | _, _ => none
  | _ => none

def listOfJson? : List Json → Option (List FieldOrdering)
  | [] => some []
  | v :: vs =>
    match ofJson? v, listOfJson? vs with
    | some f, some fs => some (f :: fs)
    | _, _ => none

end FieldOrdering

namespace Config

def memberNames : List String := ["power_of_ten_prefill", "include_builtins", "comparators"]

def toJson (c : Config) : Json :=
  .object
    [("power_of_ten_prefill", .number (String.ofList (Json.Number.ofNat c.prefill.toNat))),
     ("include_builtins", .bool c.includeBuiltIns),
     ("comparators", .object (c.comparators.entries.map fun entry =>
       (entry.1, .array (entry.2.map FieldOrdering.toJson))))]

/-- The bindings of the members of an object. -/
def bindings? : List (String × Json) → Option (List (String × List FieldOrdering))
  | [] => some []
  | (name, .array vs) :: members =>
    match FieldOrdering.listOfJson? vs, bindings? members with
    | some fields, some bindings => some ((name, fields) :: bindings)
    | _, _ => none
  | _ :: _ => none

def comparatorsOfMember? : Option Json → Option (NameTable (List FieldOrdering))
  | none => some default.comparators
  | some (.object members) => (bindings? members).map NameTable.ofList
  | some _ => none

def prefillOfMember? : Option Json → Option UInt32
  | none => some default.prefill
  | some v => v.word32?

def includeOfMember? : Option Json → Option Bool
  | none => some default.includeBuiltIns
  | some v => v.bool?

def ofJson? (v : Json) : Option Config :=
  match v.record? memberNames with
  | some [prefill, includeBuiltIns, comparators] =>
    match prefillOfMember? prefill, includeOfMember? includeBuiltIns,
      comparatorsOfMember? comparators with
    | some prefill, some includeBuiltIns, some comparators =>
      some ⟨prefill, includeBuiltIns, comparators⟩
    | _, _, _ => none
  | _ => none

def toText (c : Config) : String := c.toJson.pretty

def ofText (text : String) : Except ConfigError Config :=
  match (Json.ofText? text).bind ofJson? with
  | some c => .ok c
  | none => .error .malformed

/-- The configuration in a file, of which `none` says that it cannot be read. -/
def ofFile : Option Bytes → Except ConfigError Config
  | none => .error .unreadable
  | some content =>
    match String.fromUTF8? content.toByteArray with
    | some text => ofText text
    | none => .error .unreadable

end Config

end KeyOrder
