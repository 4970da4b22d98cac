import KeyOrder.Registry.Basic

/-!
# KeyOrder.Registry.Config

Filling a registry: the built-in comparators, comparators one by one, and all that a configuration
names. A name is bound once and for all; a call that is refused leaves the registry as it was.

Of a configuration the number of powers to compute ahead is checked first; then the built-in
comparators are bound, and the keys are registered in the order of their names, up to the first
that is refused.
-/

namespace KeyOrder

namespace Registry

def builtIns : List (String × NativeLess) :=
  [("lt_int32", NativeLess.int32), ("lt_int64", NativeLess.int64), ("lt_bytes", NativeLess.bytes)]

/-- Binds the built-in comparators. -/
def bindBuiltIns (r : Registry) : Registry :=
  { r with comparators :=
      builtIns.foldl (fun t b => t.insert b.1 (.native b.2)) r.comparators }

def withBuiltIns : Registry := new.bindBuiltIns

/-- Binds a name that is not bound. -/
def register (r : Registry) (name : String) (c : Comparator) : Except ConfigError Registry :=
  if r.comparators.contains name then
    .error (.duplicateComparator name)
  else
    .ok { r with comparators := r.comparators.insert name c }

def registerNative (r : Registry) (name : String) (less : NativeLess) :
    Except ConfigError Registry :=
  r.register name (.native less)

/-- Binds a name to a key. That the key has fields is checked first. -/
def registerKey (r : Registry) (name : String) (fields : List FieldOrdering) :
    Except ConfigError Registry :=
  if fields.isEmpty then .error (.emptyKey name) else r.register name (.key fields)

def registerKeys (r : Registry) : List (String × List FieldOrdering) → Except ConfigError Registry
  | [] => .ok r
  | (name, fields) :: bindings =>
    match r.registerKey name fields with
    | .ok r => r.registerKeys bindings
    | .error e => .error e

def ofConfig (c : Config) : Except ConfigError Registry :=
  if maxPrefill < c.prefill then
    .error (.prefillTooLarge c.prefill)
  else
    let r := ofPowers (PowerTable.prefilled c.prefill)
    let r := if c.includeBuiltIns then r.bindBuiltIns else r
    r.registerKeys c.comparators.entries

end Registry

end KeyOrder
