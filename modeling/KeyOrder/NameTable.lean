import KeyOrder.Bytes.Basic

/-!
# KeyOrder.NameTable

Finite maps from names, in the order of the names. Names are ordered by the bytes of their UTF-8
form; each name is bound at most once, so two tables with the same bindings are the same table.
-/

namespace KeyOrder

/-- The order of two names, bytewise. -/
def nameOrder (a b : String) : Ordering := compareOn Bytes.ofString a b

namespace NameOrder

theorem ofString_injective {a b : String} (h : Bytes.ofString a = Bytes.ofString b) : a = b :=
  String.toByteArray_inj.1 (ByteArray.ext (Array.toList_inj.1 h))

instance : Std.TransCmp nameOrder :=
  inferInstanceAs (Std.TransCmp (compareOn Bytes.ofString))

instance : Std.LawfulEqCmp nameOrder where
  eq_of_compare h := ofString_injective (Std.LawfulEqOrd.eq_of_compare h)

end NameOrder

structure NameTable (α : Type) where
  entries : List (String × α)
  sorted : entries.Pairwise fun a b => nameOrder a.1 b.1 = .lt
  deriving DecidableEq

namespace NameTable

variable {α : Type}

def empty : NameTable α := ⟨[], List.Pairwise.nil⟩

def names (t : NameTable α) : List String := t.entries.map Prod.fst

def size (t : NameTable α) : Nat := t.entries.length

def isEmpty (t : NameTable α) : Bool := t.entries.isEmpty

/-- What a name is bound to. -/
def find? (t : NameTable α) (name : String) : Option α := t.entries.lookup name

def contains (t : NameTable α) (name : String) : Bool := (t.find? name).isSome

def insertEntry (name : String) (value : α) : List (String × α) → List (String × α)
  | [] => [(name, value)]
  | entry :: entries =>
    match nameOrder name entry.1 with
    | .lt => (name, value) :: entry :: entries
    | .eq => (name, value) :: entries
    | .gt => entry :: insertEntry name value entries

theorem mem_insertEntry {name : String} {value : α} {entries : List (String × α)}
    {e : String × α} (h : e ∈ insertEntry name value entries) :
    e = (name, value) ∨ e ∈ entries := by
  induction entries with
  | nil => simpa [insertEntry] using h
  | cons entry entries ih =>
    simp only [insertEntry] at h
    split at h
    · simpa using h
    · rcases List.mem_cons.1 h with h | h
      · exact .inl h
      · exact .inr (List.mem_cons_of_mem _ h)
    · rcases List.mem_cons.1 h with h | h
      · exact .inr (h ▸ List.mem_cons_self)
      · rcases ih h with h | h
        · exact .inl h
        · exact .inr (List.mem_cons_of_mem _ h)

theorem sorted_insertEntry (name : String) (value : α) {entries : List (String × α)}
    (h : entries.Pairwise fun a b => nameOrder a.1 b.1 = .lt) :
    (insertEntry name value entries).Pairwise fun a b => nameOrder a.1 b.1 = .lt := by
  induction entries with
  | nil => simp [insertEntry]
  | cons entry entries ih =>
    obtain ⟨hhead, htail⟩ := List.pairwise_cons.1 h
    simp only [insertEntry]
    split
    · rename_i hlt
      refine List.pairwise_cons.2 ⟨fun e he => ?_, h⟩
      rcases List.mem_cons.1 he with rfl | he
      · exact hlt
      · exact Std.TransCmp.lt_trans hlt (hhead e he)
    · rename_i heq
      refine List.pairwise_cons.2 ⟨fun e he => ?_, htail⟩
      exact Std.LawfulEqCmp.eq_of_compare heq ▸ hhead e he
    · rename_i hgt
      refine List.pairwise_cons.2 ⟨fun e he => ?_, ih htail⟩
      rcases mem_insertEntry he with rfl | he
      · exact Std.OrientedCmp.lt_of_gt hgt
      · exact hhead e he

/-- Binds a name, in place of what it was bound to. -/
def insert (t : NameTable α) (name : String) (value : α) : NameTable α :=
  ⟨insertEntry name value t.entries, sorted_insertEntry name value t.sorted⟩

/-- The table of a list of bindings; of two for one name the later one counts. -/
def ofList (bindings : List (String × α)) : NameTable α :=
  bindings.foldl (fun t b => t.insert b.1 b.2) empty

end NameTable

end KeyOrder
