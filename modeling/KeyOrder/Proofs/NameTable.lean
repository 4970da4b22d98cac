import KeyOrder.NameTable
import KeyOrder.Proofs.Bytes.Order

/-!
# KeyOrder.Proofs.NameTable

Tables of names through what is found in them. To bind a name changes what is found under that
name and nothing else (`find?_insert`), and makes the table larger if the name was not bound
(`size_insert`). The names of a table are those under which something is found, in the order of
their bytes. Both ways of looking at a table survive when its values are replaced one by one
(`NameTable.map`). A table is made again from its entries (`ofList_entries`), and of several
bindings of one name that are made one after another the last one counts (`find?_foldl_insert`).
-/

namespace KeyOrder
namespace NameTable

variable {α β : Type}

theorem nameOrder_self (name : String) : nameOrder name name = .eq :=
  Std.ReflCmp.compare_self

theorem lookup_cons (entry : String × α) (entries : List (String × α)) (name : String) :
    (entry :: entries).lookup name =
      if name = entry.1 then some entry.2 else entries.lookup name := by
  rw [List.lookup_cons]
  by_cases h : name = entry.1
  · rw [beq_iff_eq.mpr h, if_pos h]
  · rw [beq_eq_false_iff_ne.mpr h, if_neg h]

theorem lookup_insertEntry (name : String) (value : α) (entries : List (String × α))
    (other : String) :
    (insertEntry name value entries).lookup other =
      if other = name then some value else entries.lookup other := by
  induction entries with
  | nil => exact lookup_cons (name, value) [] other
  | cons entry entries ih =>
    rw [insertEntry]
    cases h : nameOrder name entry.1 with
    | lt => exact lookup_cons (name, value) (entry :: entries) other
    | eq =>
      have heq : name = entry.1 := Std.LawfulEqCmp.eq_of_compare h
      show ((name, value) :: entries).lookup other = _
      rw [lookup_cons, lookup_cons, ← heq]
      by_cases hother : other = name
      · simp only [if_pos hother]
      · simp only [if_neg hother]
    | gt =>
      have hne : entry.1 ≠ name := by
        intro heq
        rw [heq, nameOrder_self] at h
        cases h
      show (entry :: insertEntry name value entries).lookup other = _
      rw [lookup_cons, lookup_cons, ih]
      by_cases hother : other = entry.1
      · rw [if_pos hother, if_neg (hother ▸ hne), if_pos hother]
      · rw [if_neg hother, if_neg hother]

theorem find?_insert (t : NameTable α) (name : String) (value : α) (other : String) :
    (t.insert name value).find? other = if other = name then some value else t.find? other :=
  lookup_insertEntry name value t.entries other

theorem length_insertEntry {name : String} (value : α) {entries : List (String × α)}
    (h : entries.lookup name = none) :
    (insertEntry name value entries).length = entries.length + 1 := by
  induction entries with
  | nil => rfl
  | cons entry entries ih =>
    rw [insertEntry]
    cases horder : nameOrder name entry.1 with
    | lt => rfl
    | eq =>
      rw [lookup_cons, if_pos (Std.LawfulEqCmp.eq_of_compare horder)] at h
      cases h
    | gt =>
      rw [lookup_cons] at h
      split at h
      · cases h
      · rw [List.length_cons, ih h, List.length_cons]

theorem size_insert {t : NameTable α} {name : String} (value : α) (h : t.find? name = none) :
    (t.insert name value).size = t.size + 1 :=
  length_insertEntry value h

/-! ## From entries -/

/-- A name after all others comes last. -/
theorem insertEntry_last {name : String} (value : α) {entries : List (String × α)}
    (h : ∀ entry ∈ entries, nameOrder entry.1 name = .lt) :
    insertEntry name value entries = entries ++ [(name, value)] := by
  induction entries with
  | nil => rfl
  | cons entry entries ih =>
    have hgt : nameOrder name entry.1 = .gt :=
      Std.OrientedCmp.gt_of_lt (h entry List.mem_cons_self)
    rw [insertEntry, hgt, ih fun other hother => h other (List.mem_cons_of_mem entry hother)]
    rfl

theorem entries_foldl_insert (entries : List (String × α)) :
    ∀ t : NameTable α, ((t.entries ++ entries).Pairwise fun a b => nameOrder a.1 b.1 = .lt) →
      (entries.foldl (fun t b => t.insert b.1 b.2) t).entries = t.entries ++ entries := by
  induction entries with
  | nil => simp
  | cons entry entries ih =>
    intro t h
    have hlast : (t.insert entry.1 entry.2).entries = t.entries ++ [entry] :=
      insertEntry_last entry.2 fun other hother =>
        (List.pairwise_append.mp h).2.2 other hother entry List.mem_cons_self
    rw [List.foldl_cons, ih (t.insert entry.1 entry.2) (by simpa [hlast] using h), hlast]
    simp

/-- A table is that of its entries. -/
theorem ofList_entries (t : NameTable α) : ofList t.entries = t := by
  have hentries : (ofList t.entries).entries = t.entries :=
    entries_foldl_insert t.entries empty (by simpa [empty] using t.sorted)
  cases h : ofList t.entries
  cases t
  simp_all

/-- Bindings that are made one after another on a table. -/
theorem find?_foldl_insert (bindings : List (String × α)) (name : String) :
    ∀ t : NameTable α, (bindings.foldl (fun t b => t.insert b.1 b.2) t).find? name =
      (bindings.reverse.lookup name).or (t.find? name) := by
  induction bindings with
  | nil => exact fun t => rfl
  | cons b bindings ih =>
    intro t
    rw [List.foldl_cons, ih, find?_insert, List.reverse_cons, List.lookup_append, lookup_cons,
      Option.or_assoc]
    by_cases h : name = b.1
    · rw [if_pos h, if_pos h, Option.some_or]
    · rw [if_neg h, if_neg h, List.lookup_nil, Option.none_or]

/-! ## Names -/

/-- No two entries have the same name. -/
theorem names_distinct (t : NameTable α) : t.entries.Pairwise fun a b => a.1 ≠ b.1 := by
  refine t.sorted.imp ?_
  rintro a b hlt heq
  rw [heq, nameOrder_self] at hlt
  cases hlt

theorem lookup_eq_some_iff {entries : List (String × α)}
    (h : entries.Pairwise fun a b => a.1 ≠ b.1) {name : String} {value : α} :
    entries.lookup name = some value ↔ (name, value) ∈ entries := by
  induction entries with
  | nil => simp
  | cons entry entries ih =>
    obtain ⟨hhead, htail⟩ := List.pairwise_cons.mp h
    rw [lookup_cons, List.mem_cons, ← ih htail]
    by_cases hname : name = entry.1
    · subst hname
      rw [if_pos rfl, Option.some.injEq]
      constructor
      · rintro rfl
        exact .inl rfl
      · rintro (heq | hmem)
        · rw [← heq]
        · exact absurd rfl (hhead (entry.1, value) ((ih htail).mp hmem))
    · rw [if_neg hname]
      constructor
      · exact .inr
      · rintro (rfl | hmem)
        · exact absurd rfl hname
        · exact hmem

theorem find?_eq_some_iff (t : NameTable α) {name : String} {value : α} :
    t.find? name = some value ↔ (name, value) ∈ t.entries :=
  lookup_eq_some_iff t.names_distinct

theorem mem_names_iff (t : NameTable α) (name : String) :
    name ∈ t.names ↔ ∃ value, t.find? name = some value := by
  rw [← Option.isSome_iff_exists, find?, List.lookup_isSome_iff, names, List.mem_map]
  constructor
  · rintro ⟨entry, hentry, rfl⟩
    exact ⟨entry, hentry, beq_self_eq_true _⟩
  · rintro ⟨entry, hentry, hname⟩
    exact ⟨entry, hentry, (beq_iff_eq.mp hname).symm⟩

/-- Tables in which the same is found are the same. -/
theorem eq_of_find? {t u : NameTable α} (h : ∀ name, t.find? name = u.find? name) : t = u := by
  have hmem : ∀ entry, entry ∈ t.entries ↔ entry ∈ u.entries := by
    rintro ⟨name, value⟩
    rw [← find?_eq_some_iff, ← find?_eq_some_iff, h]
  have hnodup (t : NameTable α) : t.entries.Nodup :=
    t.names_distinct.imp fun hname heq => hname (congrArg Prod.fst heq)
  have hperm : t.entries.Perm u.entries :=
    (List.perm_ext_iff_of_nodup (hnodup t) (hnodup u)).mpr hmem
  have hentries : t.entries = u.entries := by
    refine hperm.eq_of_pairwise ?_ t.sorted u.sorted
    intro a b _ _ hlt hgt
    rw [Std.OrientedCmp.gt_of_lt hgt] at hlt
    cases hlt
  cases t
  cases u
  simp_all

theorem find?_ofList (bindings : List (String × α)) (name : String) :
    (ofList bindings).find? name = bindings.reverse.lookup name :=
  (find?_foldl_insert bindings name empty).trans (Option.or_none)

theorem contains_iff (t : NameTable α) (name : String) :
    t.contains name = true ↔ name ∈ t.names := by
  rw [mem_names_iff, contains, Option.isSome_iff_exists]

/-- The names of a table come in the order of their bytes. -/
theorem names_increasing (t : NameTable α) :
    t.names.Pairwise fun a b => Bytes.Before (Bytes.ofString a) (Bytes.ofString b) := by
  rw [names, List.pairwise_map]
  exact t.sorted.imp fun h => (Bytes.compare_lt_iff _ _).mp h

/-! ## Other values under the same names -/

def map (f : α → β) (t : NameTable α) : NameTable β :=
  ⟨t.entries.map fun entry => (entry.1, f entry.2), List.pairwise_map.mpr t.sorted⟩

theorem find?_map (f : α → β) (t : NameTable α) (name : String) :
    (t.map f).find? name = (t.find? name).map f := by
  have hlookup (entries : List (String × α)) :
      (entries.map fun entry => (entry.1, f entry.2)).lookup name =
        (entries.lookup name).map f := by
    induction entries with
    | nil => rfl
    | cons entry entries ih =>
      rw [List.map_cons, lookup_cons, lookup_cons, ih]
      split
      · rfl
      · rfl
  exact hlookup t.entries

theorem contains_map (f : α → β) (t : NameTable α) (name : String) :
    (t.map f).contains name = t.contains name := by
  rw [contains, find?_map, Option.isSome_map, contains]

theorem insert_map (f : α → β) (t : NameTable α) (name : String) (value : α) :
    (t.map f).insert name (f value) = (t.insert name value).map f := by
  have hinsert (entries : List (String × α)) :
      insertEntry name (f value) (entries.map fun entry => (entry.1, f entry.2)) =
        (insertEntry name value entries).map fun entry => (entry.1, f entry.2) := by
    induction entries with
    | nil => rfl
    | cons entry entries ih =>
      rw [List.map_cons, insertEntry, insertEntry]
      cases nameOrder name entry.1 with
      | lt => rfl
      | eq => rfl
      | gt => rw [ih, List.map_cons]
  simp only [map, insert, hinsert]

end NameTable
end KeyOrder
