import KeyOrder.Key.Basic
import KeyOrder.NameTable

/-!
# KeyOrder.Config.Basic

What a registry is to hold: how many powers of ten to compute ahead, whether to have the built-in
comparators, and the keys to register by name. `ConfigError` is why a configuration cannot be read,
and why comparators cannot be registered or found.
-/

namespace KeyOrder

structure Config where
  prefill : UInt32
  includeBuiltIns : Bool
  comparators : NameTable (List FieldOrdering)
  deriving DecidableEq

namespace Config

/-- What holds where a configuration says nothing. -/
def default : Config := ⟨0, true, NameTable.empty⟩

end Config

/-- The largest number of powers of ten that may be computed ahead. -/
def maxPrefill : UInt32 := 4096

inductive ConfigError where
  /-- The name is bound already. -/
  | duplicateComparator (name : String)
  /-- The name is not bound. -/
  | unknownComparator (name : String)
  /-- A key needs at least one field. -/
  | emptyKey (name : String)
  /-- More powers of ten are wanted ahead than `maxPrefill`. -/
  | prefillTooLarge (requested : UInt32)
  /-- A text is no configuration. -/
  | malformed
  /-- A file is not there or is no text. -/
  | unreadable
  deriving DecidableEq, Repr

namespace ConfigError

def message : ConfigError → String
  | duplicateComparator name => "Comparator `" ++ name ++ "` is already registered"
  | unknownComparator name => "Comparator `" ++ name ++ "` is not registered"
  | emptyKey name => "Key comparator `" ++ name ++ "` has no fields"
  | prefillTooLarge requested =>
    s!"Power-of-ten prefill {requested.toNat} exceeds the maximum of {maxPrefill.toNat}"
  | malformed => "Invalid configuration"
  | unreadable => "Cannot read configuration"

end ConfigError

end KeyOrder
