import KeyOrder.Json.Basic
import KeyOrder.Proofs.NameTable

/-!
# KeyOrder.Proofs.Json.Record

Records told by their parts. A `Part` is a name, the values that may be given under it and whether
it may be left out; `RecordOf` are the objects and arrays that give a record its parts, and what is
read of them is right for each part (`RecordOf.reads`). An object with one member too many, be it
another name or one that it has, is not read at all (`Strays.not_read`).
-/

namespace KeyOrder
namespace Json

/-! ## Objects -/

theorem repeatsName_eq_false_iff (names : List String) :
    repeatsName names = false ↔ names.Nodup := by
  induction names with
  | nil => simp [repeatsName]
  | cons name names ih => simp [repeatsName, ih]

/-- What is read of an object that has each of its members once and no others than the named. -/
theorem record?_object_iff {names : List String} {members : List (String × Json)}
    {given : List (Option Json)} :
    (object members).record? names = some given ↔
      (∀ m ∈ members, m.1 ∈ names) ∧ (members.map Prod.fst).Nodup ∧
        given = names.map fun name => members.lookup name := by
  have hgiven : ((members.map Prod.fst).all names.contains &&
      !repeatsName (members.map Prod.fst)) = true ↔
        (∀ m ∈ members, m.1 ∈ names) ∧ (members.map Prod.fst).Nodup := by
    simp [← repeatsName_eq_false_iff]
  rw [record?, ← and_assoc, ← hgiven]
  split
  · rename_i hcond
    rw [Option.some_inj, eq_comm, and_iff_right hcond]
  · rename_i hcond
    constructor
    · intro h
      cases h
    · exact fun h => absurd h.1 hcond

theorem lookup_eq_some_iff {members : List (String × Json)}
    (h : (members.map Prod.fst).Nodup) {name : String} {v : Json} :
    members.lookup name = some v ↔ (name, v) ∈ members :=
  NameTable.lookup_eq_some_iff (List.pairwise_map.mp h)

theorem not_mem_of_lookup {members : List (String × Json)} {name : String}
    (h : members.lookup name = none) : name ∉ members.map Prod.fst := by
  rw [List.lookup_eq_none_iff] at h
  intro hmem
  obtain ⟨m, hm, rfl⟩ := List.mem_map.mp hmem
  exact absurd (beq_self_eq_true m.1) (by simpa using h m hm)

/-- One member too many, somewhere in an object: another name, or one that is there already. -/
inductive Strays (names : List String) : Json → Prop where
  | unknown {name : String} (h : name ∉ names) (before after : List (String × Json)) (v : Json) :
    Strays names (object (before ++ (name, v) :: after))
  | repeated {name : String} {before after : List (String × Json)}
    (h : name ∈ (before ++ after).map Prod.fst) (v : Json) :
    Strays names (object (before ++ (name, v) :: after))

theorem Strays.not_read {names : List String} {v : Json} (h : Strays names v) :
    v.record? names = none := by
  rw [Option.eq_none_iff_forall_ne_some]
  intro given hread
  cases h with
  | unknown h before after v =>
    obtain ⟨hnames, -, -⟩ := record?_object_iff.mp hread
    exact h (hnames _ (List.mem_append_right before List.mem_cons_self))
  | @repeated name before after h v =>
    obtain ⟨-, hdistinct, -⟩ := record?_object_iff.mp hread
    have hperm : (before ++ (name, v) :: after).Perm ((name, v) :: (before ++ after)) :=
      List.perm_middle
    rw [(hperm.map Prod.fst).nodup_iff, List.map_cons, List.nodup_cons] at hdistinct
    exact hdistinct.1 h

/-! ## Records -/

/-- A part of a record: the values that may be given for it, and whether it may be left out. -/
structure Part where
  name : String
  Holds : Json → Prop
  Omitted : Prop

/-- What may be found of a part. -/
def Part.Given (p : Part) : Option Json → Prop
  | none => p.Omitted
  | some v => p.Holds v

/-- The values of a record: an object of its members in any order, or an array of the first of
them. -/
inductive RecordOf (parts : List Part) : Json → Prop where
  | object {members : List (String × Json)} (hdistinct : (members.map Prod.fst).Nodup)
    (hmembers : ∀ m ∈ members, ∃ p ∈ parts, m.1 = p.name ∧ p.Holds m.2)
    (homitted : ∀ p ∈ parts, p.name ∉ members.map Prod.fst → p.Omitted) :
    RecordOf parts (object members)
  | array {given omitted : List Part} {values : List Json} (hparts : parts = given ++ omitted)
    (hvalues : List.Forall₂ Part.Holds given values) (homitted : ∀ p ∈ omitted, p.Omitted) :
    RecordOf parts (array values)

theorem forall₂_replicate {omitted : List Part} (h : ∀ p ∈ omitted, p.Omitted) :
    List.Forall₂ Part.Given omitted (List.replicate omitted.length none) := by
  induction omitted with
  | nil => exact .nil
  | cons p omitted ih =>
    exact .cons (h p List.mem_cons_self) (ih fun q hq => h q (List.mem_cons_of_mem p hq))

/-- What is read of a record is right for each of its parts. -/
theorem RecordOf.reads {parts : List Part} (hnames : (parts.map Part.name).Nodup) {v : Json}
    (h : RecordOf parts v) :
    ∃ given, v.record? (parts.map Part.name) = some given ∧
      List.Forall₂ Part.Given parts given := by
  cases h with
  | @object members hdistinct hmembers homitted =>
    refine ⟨_, record?_object_iff.mpr ⟨?_, hdistinct, rfl⟩, ?_⟩
    · intro m hm
      obtain ⟨p, hp, hname, -⟩ := hmembers m hm
      rw [hname]
      exact List.mem_map_of_mem hp
    · rw [List.map_map, List.forall₂_map_right_iff, List.forall₂_same]
      intro p hp
      show p.Given (members.lookup p.name)
      cases hlookup : members.lookup p.name with
      | none => exact homitted p hp (not_mem_of_lookup hlookup)
      | some v =>
        -- the member was given for a part of that name, and there is one such part
        obtain ⟨q, hq, hname, hholds⟩ := hmembers _ ((lookup_eq_some_iff hdistinct).mp hlookup)
        rw [List.inj_on_of_nodup_map hnames hp hq hname]
        exact hholds
  | @array given omitted values hparts hvalues homitted =>
    subst hparts
    have hlength : given.length = values.length := hvalues.length_eq
    refine ⟨values.map some ++ List.replicate omitted.length none, ?_, ?_⟩
    · simp [record?, hlength]
    · refine List.rel_append ?_ (forall₂_replicate homitted)
      rw [List.forall₂_map_right_iff]
      exact hvalues

/-! ## Names out of several -/

inductive VariantOf (name : String) : Json → Prop where
  | string : VariantOf name (string name)
  | member : VariantOf name (object [(name, null)])

theorem VariantOf.reads {name : String} {v : Json} (h : VariantOf name v) :
    v.variant? = some name := by
  cases h with
  | string => rfl
  | member => rfl

end Json
end KeyOrder
