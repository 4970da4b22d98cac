import KeyOrder.Proofs.Config.RoundTrip
import KeyOrder.Proofs.Json.Document
import KeyOrder.Proofs.Json.Record

/-!
# KeyOrder.Proofs.Config.Spelling

All texts of a configuration. `Config.SpelledBy` are the JSON values that say what a configuration
says, told part by part: what may stand for each part of it and of its fields, and what may be left
out.

* `SpelledBy.reads`   — from each of these values the configuration is read. What is written for it
  is one of them (`spelledBy_toJson`).
* `Config.Strays`     — a record with a member too many at the top or in a field. The rest of the
  value does not matter: it is not read (`Strays.not_read`).
* `read_any_spelling` — both for texts.
-/

namespace KeyOrder

open Json (Part RecordOf VariantOf)

/-! ## Fields -/

def Direction.spellings : Direction → List String
  | ascending => ["ascending", "asc"]
  | descending => ["descending", "desc"]

theorem Direction.ofName?_spelling {d : Direction} {name : String} (h : name ∈ d.spellings) :
    ofName? name = some d := by
  cases d with
  | ascending =>
    simp only [spellings, List.mem_cons, List.not_mem_nil, or_false] at h
    rcases h with rfl | rfl <;> rfl
  | descending =>
    simp only [spellings, List.mem_cons, List.not_mem_nil, or_false] at h
    rcases h with rfl | rfl <;> rfl

namespace FieldOrdering

def typePart (type : FieldType) : Part := ⟨"type", VariantOf type.name, False⟩

def directionPart (direction : Direction) : Part :=
  ⟨"direction", fun v => ∃ name ∈ direction.spellings, VariantOf name v, direction = .ascending⟩

/-- The values of a field. -/
def SpelledBy (f : FieldOrdering) (v : Json) : Prop :=
  RecordOf [typePart f.type, directionPart f.direction] v

theorem typeOfMember?_of_given {type : FieldType} {given : Option Json}
    (h : (typePart type).Given given) : typeOfMember? given = some type := by
  cases given with
  | none => exact h.elim
  | some v =>
    have hvariant : v.variant? = some type.name := VariantOf.reads h
    rw [typeOfMember?, hvariant]
    exact FieldType.ofName?_name type

theorem directionOfMember?_of_given {direction : Direction} {given : Option Json}
    (h : (directionPart direction).Given given) : directionOfMember? given = some direction := by
  cases given with
  | none =>
    have hdefault : direction = .ascending := h
    rw [hdefault, directionOfMember?]
  | some v =>
    obtain ⟨name, hname, hvariant⟩ := h
    rw [directionOfMember?, hvariant.reads]
    exact Direction.ofName?_spelling hname

theorem SpelledBy.reads {f : FieldOrdering} {v : Json} (h : f.SpelledBy v) :
    ofJson? v = some f := by
  obtain ⟨given, hread, hgiven⟩ := RecordOf.reads (by simp [typePart, directionPart]) h
  cases hgiven with
  | cons htype hgiven =>
    cases hgiven with
    | cons hdirection hgiven =>
      cases hgiven
      have hrecord : v.record? memberNames = some [_, _] := hread
      rw [ofJson?, hrecord]
      simp only [typeOfMember?_of_given htype, directionOfMember?_of_given hdirection]

/-- What a field is written as is one of its values. -/
theorem spelledBy_toJson (f : FieldOrdering) : f.SpelledBy f.toJson := by
  refine .object (by simp) ?_ ?_
  · intro m hm
    simp only [List.mem_cons, List.not_mem_nil, or_false] at hm
    rcases hm with rfl | rfl
    · exact ⟨typePart f.type, by simp, rfl, .string⟩
    · refine ⟨directionPart f.direction, by simp, rfl, f.direction.name, ?_, .string⟩
      cases f.direction <;> exact List.mem_cons_self
  · intro p hp hname
    simp only [List.mem_cons, List.not_mem_nil, or_false] at hp
    rcases hp with rfl | rfl
    all_goals simp [typePart, directionPart] at hname

/-- The values of a key. -/
inductive ListSpelledBy (fields : List FieldOrdering) : Json → Prop where
  | array {values : List Json} (h : List.Forall₂ SpelledBy fields values) :
    ListSpelledBy fields (.array values)

theorem listOfJson?_of_spelled {fields : List FieldOrdering} {values : List Json}
    (h : List.Forall₂ SpelledBy fields values) : listOfJson? values = some fields := by
  induction h with
  | nil => rfl
  | cons hfield _ ih => rw [listOfJson?, hfield.reads, ih]

/-- One field that is not read makes a key that is not. -/
theorem listOfJson?_eq_none {v : Json} (h : ofJson? v = none) {values : List Json}
    (hv : v ∈ values) : listOfJson? values = none := by
  induction values with
  | nil => cases hv
  | cons w values ih =>
    rw [listOfJson?]
    rcases List.mem_cons.mp hv with rfl | hv
    · rw [h]
    · rw [ih hv]
      cases ofJson? w <;> rfl

theorem not_read_of_strays {v : Json} (h : v.Strays ["type", "direction"]) :
    ofJson? v = none := by
  have hrecord : v.record? memberNames = none := h.not_read
  rw [ofJson?, hrecord]

end FieldOrdering

/-! ## Configurations -/

namespace Config

open FieldOrdering (ListSpelledBy)

/-- The values of a table of keys. Of the members of one name the last one counts. -/
inductive TableSpelledBy (table : NameTable (List FieldOrdering)) : Json → Prop where
  | object {bindings : List (String × List FieldOrdering)} {members : List (String × Json)}
    (h : List.Forall₂ (fun b m => m.1 = b.1 ∧ ListSpelledBy b.2 m.2) bindings members)
    (hlast : ∀ name, table.find? name = bindings.reverse.lookup name) :
    TableSpelledBy table (.object members)

def prefillPart (prefill : UInt32) : Part :=
  ⟨"power_of_ten_prefill", (· = .number (String.ofList (Json.Number.ofNat prefill.toNat))),
    prefill = 0⟩

def includePart (includeBuiltIns : Bool) : Part :=
  ⟨"include_builtins", (· = .bool includeBuiltIns), includeBuiltIns = true⟩

def comparatorsPart (table : NameTable (List FieldOrdering)) : Part :=
  ⟨"comparators", TableSpelledBy table, table = NameTable.empty⟩

/-- The values of a configuration. -/
def SpelledBy (c : Config) (v : Json) : Prop :=
  RecordOf [prefillPart c.prefill, includePart c.includeBuiltIns, comparatorsPart c.comparators] v

theorem prefillOfMember?_of_given {prefill : UInt32} {given : Option Json}
    (h : (prefillPart prefill).Given given) : prefillOfMember? given = some prefill := by
  cases given with
  | none =>
    have hdefault : prefill = 0 := h
    rw [hdefault]
    rfl
  | some v =>
    have hv : v = .number (String.ofList (Json.Number.ofNat prefill.toNat)) := h
    rw [prefillOfMember?, hv, Json.word32?_ofNat]

theorem includeOfMember?_of_given {includeBuiltIns : Bool} {given : Option Json}
    (h : (includePart includeBuiltIns).Given given) :
    includeOfMember? given = some includeBuiltIns := by
  cases given with
  | none =>
    have hdefault : includeBuiltIns = true := h
    rw [hdefault]
    rfl
  | some v =>
    have hv : v = .bool includeBuiltIns := h
    rw [hv]
    rfl

theorem bindings?_of_spelled {bindings : List (String × List FieldOrdering)}
    {members : List (String × Json)}
    (h : List.Forall₂ (fun b m => m.1 = b.1 ∧ ListSpelledBy b.2 m.2) bindings members) :
    bindings? members = some bindings := by
  induction h with
  | nil => rfl
  | @cons b m bindings members hbinding _ ih =>
    obtain ⟨name, fields⟩ := b
    obtain ⟨name', v⟩ := m
    obtain ⟨hname, hfields⟩ := hbinding
    cases hfields with
    | array hvalues =>
      rw [bindings?, FieldOrdering.listOfJson?_of_spelled hvalues, ih]
      exact congrArg some (congrArg (· :: bindings) (Prod.ext hname rfl))

theorem comparatorsOfMember?_of_given {table : NameTable (List FieldOrdering)}
    {given : Option Json} (h : (comparatorsPart table).Given given) :
    comparatorsOfMember? given = some table := by
  cases given with
  | none =>
    have hdefault : table = NameTable.empty := h
    rw [hdefault]
    rfl
  | some v =>
    have hv : TableSpelledBy table v := h
    cases hv with
    | @object bindings members hmembers hlast =>
      have htable : NameTable.ofList bindings = table :=
        NameTable.eq_of_find? fun name => (NameTable.find?_ofList bindings name).trans
          (hlast name).symm
      rw [comparatorsOfMember?, bindings?_of_spelled hmembers, Option.map_some, htable]

theorem SpelledBy.reads {c : Config} {v : Json} (h : c.SpelledBy v) : ofJson? v = some c := by
  obtain ⟨given, hread, hgiven⟩ :=
    RecordOf.reads (by simp [prefillPart, includePart, comparatorsPart]) h
  cases hgiven with
  | cons hprefill hgiven =>
    cases hgiven with
    | cons hinclude hgiven =>
      cases hgiven with
      | cons hcomparators hgiven =>
        cases hgiven
        have hrecord : v.record? memberNames = some [_, _, _] := hread
        rw [ofJson?, hrecord]
        simp only [prefillOfMember?_of_given hprefill, includeOfMember?_of_given hinclude,
          comparatorsOfMember?_of_given hcomparators]

theorem tableSpelledBy_toJson (table : NameTable (List FieldOrdering)) :
    TableSpelledBy table (.object (table.entries.map fun entry =>
      (entry.1, .array (entry.2.map FieldOrdering.toJson)))) := by
  refine @TableSpelledBy.object table table.entries _ ?_ ?_
  · rw [List.forall₂_map_right_iff, List.forall₂_same]
    intro entry _
    refine ⟨rfl, .array ?_⟩
    rw [List.forall₂_map_right_iff, List.forall₂_same]
    exact fun f _ => f.spelledBy_toJson
  · intro name
    rw [← NameTable.find?_ofList, NameTable.ofList_entries]

/-- Every configuration has a value, with nothing left out. -/
theorem spelledBy_toJson (c : Config) : c.SpelledBy c.toJson := by
  refine .object (by simp) ?_ ?_
  · intro m hm
    simp only [List.mem_cons, List.not_mem_nil, or_false] at hm
    rcases hm with rfl | rfl | rfl
    · exact ⟨prefillPart c.prefill, by simp, rfl, rfl⟩
    · exact ⟨includePart c.includeBuiltIns, by simp, rfl, rfl⟩
    · exact ⟨comparatorsPart c.comparators, by simp, rfl, tableSpelledBy_toJson c.comparators⟩
  · intro p hp hname
    simp only [List.mem_cons, List.not_mem_nil, or_false] at hp
    rcases hp with rfl | rfl | rfl
    all_goals simp [prefillPart, includePart, comparatorsPart] at hname

/-! ## A member too many -/

/-- What stands where a configuration has a field. -/
inductive HasField : Json → Json → Prop where
  | object {members comparators : List (String × Json)} {name : String} {fields : List Json}
    {f : Json} (h : ("comparators", .object comparators) ∈ members)
    (hkey : (name, .array fields) ∈ comparators) (hf : f ∈ fields) : HasField (.object members) f
  | array {prefill includeBuiltIns : Json} {comparators : List (String × Json)} {name : String}
    {fields : List Json} {f : Json} (hkey : (name, .array fields) ∈ comparators) (hf : f ∈ fields) :
    HasField (.array [prefill, includeBuiltIns, .object comparators]) f

/-- A member too many at the top or in a field. -/
def Strays (v : Json) : Prop :=
  v.Strays ["power_of_ten_prefill", "include_builtins", "comparators"] ∨
    ∃ f, HasField v f ∧ f.Strays ["type", "direction"]

theorem bindings?_eq_none {name : String} {fields : List Json}
    (h : FieldOrdering.listOfJson? fields = none) {members : List (String × Json)}
    (hkey : (name, .array fields) ∈ members) : bindings? members = none := by
  induction members with
  | nil => cases hkey
  | cons m members ih =>
    rcases List.mem_cons.mp hkey with rfl | hrest
    · rw [bindings?, h]
    · obtain ⟨other, v⟩ := m
      cases v with
      | array vs =>
        rw [bindings?, ih hrest]
        cases FieldOrdering.listOfJson? vs <;> rfl
      | _ => rfl

theorem comparatorsOfMember?_eq_none {comparators : List (String × Json)} {name : String}
    {fields : List Json} {f : Json} (hkey : (name, .array fields) ∈ comparators) (hf : f ∈ fields)
    (h : f.Strays ["type", "direction"]) :
    comparatorsOfMember? (some (.object comparators)) = none := by
  have hfields : FieldOrdering.listOfJson? fields = none :=
    FieldOrdering.listOfJson?_eq_none (FieldOrdering.not_read_of_strays h) hf
  rw [comparatorsOfMember?, bindings?_eq_none hfields hkey]
  rfl

theorem ofJson?_eq_none {v : Json} {prefill includeBuiltIns comparators : Option Json}
    (hrecord : v.record? memberNames = some [prefill, includeBuiltIns, comparators])
    (h : comparatorsOfMember? comparators = none) : ofJson? v = none := by
  rw [ofJson?, hrecord]
  simp only [h]
  cases prefillOfMember? prefill with
  | none => rfl
  | some _ => cases includeOfMember? includeBuiltIns <;> rfl

theorem Strays.not_read {v : Json} (h : Strays v) : ofJson? v = none := by
  rcases h with htop | ⟨f, hfield, hf⟩
  · have hrecord : v.record? memberNames = none := htop.not_read
    rw [ofJson?, hrecord]
  · cases hfield with
    | @object members comparators name fields f hmember hkey hmem =>
      have hnone := comparatorsOfMember?_eq_none hkey hmem hf
      cases hrecord : (Json.object members).record? memberNames with
      | none => rw [ofJson?, hrecord]
      | some given =>
        obtain ⟨-, hdistinct, rfl⟩ := Json.record?_object_iff.mp hrecord
        refine ofJson?_eq_none hrecord ?_
        show comparatorsOfMember? (members.lookup "comparators") = none
        rw [(Json.lookup_eq_some_iff hdistinct).mpr hmember]
        exact hnone
    | array hkey hmem => exact ofJson?_eq_none rfl (comparatorsOfMember?_eq_none hkey hmem hf)

/-! ## Texts -/

/-- From every text of every value that spells a configuration that configuration is read, and no
text is read in which a record has a member too many. -/
theorem read_any_spelling :
    (∀ (c : Config) (v : Json) (text : String), c.SpelledBy v → v.Document text →
      ofText text = .ok c) ∧
    ∀ (v : Json) (text : String), Strays v → v.Document text →
      ofText text = .error .malformed := by
  constructor
  · intro c v text hspelled hdocument
    rw [ofText, Json.ofText?_document hdocument, Option.bind_some, hspelled.reads]
  · intro v text hstrays hdocument
    rw [ofText, Json.ofText?_document hdocument, Option.bind_some, hstrays.not_read]

section Witness

open Json.Token (Written)

theorem document_repeated :
    (Json.object [("comparators", .object [("k", .array []),
      ("k", .array [.array [.string "int"]])])]).Document
      "\x7b\"comparators\":\x7b\"k\":[],\"k\":[[\"\\u0069nt\"]]\x7d\x7d" := by
  show Written [.beginObject, .string "comparators", .colon, .beginObject, .string "k", .colon,
    .beginArray, .endArray, .comma, .string "k", .colon, .beginArray, .beginArray, .string "int",
    .endArray, .endArray, .endObject, .endObject] _
  have hletter : Json.Quoted.CharForm 'i' ['\\', 'u', '0', '0', '6', '9'] :=
    .unit (.digits (i := 0) (j := 0) (k := 6) (l := 9) (.lower rfl) (.lower rfl) (.lower rfl)
      (.lower rfl))
  have hothers : List.Forall₂ Json.Quoted.CharForm ['n', 't'] [['n'], ['t']] :=
    .cons (.plain (by decide) (by decide) (by decide))
      (.cons (.plain (by decide) (by decide) (by decide)) .nil)
  apply Written.next .beginObject
  apply Written.next (.string (.plain "comparators".toList (by simp)))
  apply Written.next .colon
  apply Written.next .beginObject
  apply Written.next (.string (.plain "k".toList (by simp)))
  apply Written.next .colon
  apply Written.next .beginArray
  apply Written.next .endArray
  apply Written.next .comma
  apply Written.next (.string (.plain "k".toList (by simp)))
  apply Written.next .colon
  apply Written.next .beginArray
  apply Written.next .beginArray
  apply Written.next (.string (.quoted (.cons hletter hothers)))
  apply Written.next .endArray
  apply Written.next .endArray
  apply Written.next .endObject
  exact Written.next .endObject .empty

theorem document_stray : (Json.object [("x", .null)]).Document "\x7b\"x\": null\x7d" := by
  show Written [.beginObject, .string "x", .colon, .null, .endObject] _
  apply Written.next .beginObject
  apply Written.next (.string (.plain "x".toList (by simp)))
  apply Written.next .colon
  apply @Written.cons _ _ [' '] _ _ (by simp [Json.Token.Blank]) .null
  exact Written.next .endObject .empty

/-- A name that is bound twice, to a field without its direction at last and with a letter by its
number; and a member that a configuration does not have. -/
theorem read_any_spelling_repeated :
    ofText "\x7b\"comparators\":\x7b\"k\":[],\"k\":[[\"\\u0069nt\"]]\x7d\x7d" =
      .ok ⟨0, true, NameTable.ofList [("k", [⟨.int, .ascending⟩])]⟩ ∧
    ofText "\x7b\"x\": null\x7d" = .error .malformed := by
  have hdirection : ∀ p ∈ [FieldOrdering.directionPart .ascending], p.Omitted := by
    simp [FieldOrdering.directionPart]
  have hfield : FieldOrdering.SpelledBy ⟨.int, .ascending⟩ (.array [.string "int"]) :=
    .array (List.singleton_append).symm (.cons .string .nil) hdirection
  have hkeys : List.Forall₂ (fun b m => m.1 = b.1 ∧ ListSpelledBy b.2 m.2)
      [("k", []), ("k", [⟨.int, .ascending⟩])]
      [("k", .array []), ("k", .array [.array [.string "int"]])] :=
    .cons ⟨rfl, .array .nil⟩ (.cons ⟨rfl, .array (.cons hfield .nil)⟩ .nil)
  have htable : TableSpelledBy (NameTable.ofList [("k", [⟨.int, .ascending⟩])])
      (.object [("k", .array []), ("k", .array [.array [.string "int"]])]) := by
    refine .object hkeys fun name => ?_
    rw [NameTable.find?_ofList]
    by_cases hname : name = "k" <;> simp [NameTable.lookup_cons, hname]
  constructor
  · refine read_any_spelling.1 _ _ _ (.object (by decide) ?_ ?_) document_repeated
    · intro m hm
      obtain rfl := List.mem_singleton.mp hm
      exact ⟨comparatorsPart _, by simp, rfl, htable⟩
    · intro p hp hname
      simp only [List.mem_cons, List.not_mem_nil, or_false] at hp
      rcases hp with rfl | rfl | rfl
      · rfl
      · rfl
      · exact absurd (List.mem_singleton.mpr rfl) hname
  · exact read_any_spelling.2 _ _ (.inl (.unknown (by decide) [] [] .null)) document_stray

end Witness

end Config
end KeyOrder
