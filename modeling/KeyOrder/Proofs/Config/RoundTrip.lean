import KeyOrder.Config.Json
import KeyOrder.Proofs.Json.Printer
import KeyOrder.Proofs.NameTable

/-!
# KeyOrder.Proofs.Config.RoundTrip

A configuration is read back from the text that is written for it (`config_reads_back`). Its JSON
value has well-formed numbers, so the text gives that value back (`Json.ofText?_pretty`), and each
part of the value gives back what it was made of: the names of types and directions, the fields of
a key, the entries of the table of keys, and the digits of a word.
-/

namespace KeyOrder

@[simp] theorem Direction.ofName?_name (d : Direction) : Direction.ofName? d.name = some d := by
  cases d <;> rfl

namespace FieldOrdering

@[simp] theorem ofJson?_toJson (f : FieldOrdering) : ofJson? f.toJson = some f := by
  have hrecord : f.toJson.record? memberNames =
      some [some (.string f.type.name), some (.string f.direction.name)] := rfl
  simp [ofJson?, hrecord, typeOfMember?, directionOfMember?, Json.variant?]

theorem listOfJson?_toJson (fields : List FieldOrdering) :
    listOfJson? (fields.map toJson) = some fields := by
  induction fields with
  | nil => rfl
  | cons f fields ih => simp [listOfJson?, ih]

theorem wellFormed_toJson (f : FieldOrdering) : f.toJson.WellFormed := by
  apply Json.WellFormed.object
  intro m hm
  simp only [List.mem_cons, List.not_mem_nil, or_false] at hm
  rcases hm with rfl | rfl
  · exact .string _
  · exact .string _

end FieldOrdering

theorem Json.word32?_ofNat (v : UInt32) :
    (Json.number (String.ofList (Number.ofNat v.toNat))).word32? = some v := by
  rw [word32?, String.toList_ofList, Number.toNat?_ofNat]
  simp only
  rw [if_pos v.toNat_lt, UInt32.ofNat_toNat]

namespace Config

theorem bindings?_toJson (entries : List (String × List FieldOrdering)) :
    bindings? (entries.map fun entry => (entry.1, .array (entry.2.map FieldOrdering.toJson))) =
      some entries := by
  induction entries with
  | nil => rfl
  | cons entry entries ih => simp [bindings?, ih, FieldOrdering.listOfJson?_toJson]

theorem ofJson?_toJson (c : Config) : ofJson? c.toJson = some c := by
  have hrecord : c.toJson.record? memberNames =
      some [some (.number (String.ofList (Json.Number.ofNat c.prefill.toNat))),
        some (.bool c.includeBuiltIns),
        some (.object (c.comparators.entries.map fun entry =>
          (entry.1, .array (entry.2.map FieldOrdering.toJson))))] := rfl
  simp [ofJson?, hrecord, prefillOfMember?, includeOfMember?, comparatorsOfMember?, Json.bool?,
    Json.word32?_ofNat, bindings?_toJson, NameTable.ofList_entries]

theorem wellFormed_toJson (c : Config) : c.toJson.WellFormed := by
  apply Json.WellFormed.object
  intro m hm
  simp only [List.mem_cons, List.not_mem_nil, or_false] at hm
  rcases hm with rfl | rfl | rfl
  · apply Json.WellFormed.number
    rw [String.toList_ofList]
    exact Json.Number.read_ofNat _
  · exact .bool _
  · apply Json.WellFormed.object
    intro binding hbinding
    obtain ⟨entry, -, rfl⟩ := List.mem_map.mp hbinding
    apply Json.WellFormed.array
    intro v hv
    obtain ⟨f, -, rfl⟩ := List.mem_map.mp hv
    exact f.wellFormed_toJson

/-- Whatever its prefill, its names and its keys are, a configuration is read back from its text. -/
theorem config_reads_back (c : Config) : ofText c.toText = .ok c := by
  have htext : Json.ofText? c.toText = some c.toJson := Json.ofText?_pretty c.wellFormed_toJson
  simp [ofText, htext, ofJson?_toJson]

end Config
end KeyOrder
