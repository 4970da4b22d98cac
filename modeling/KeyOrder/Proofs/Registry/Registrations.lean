import KeyOrder.Proofs.NameTable
import KeyOrder.Registry.Config

/-!
# KeyOrder.Proofs.Registry.Registrations

Registrations on one registry. `Refused` are the reasons not to make one, told by the names that
are bound. A registration that is refused leaves the registry as it was; any other binds its name,
which was not bound, and that is all it does (`perform_cases`). So along a run of registrations what
is bound stays as it is, and the registry grows by one for each that is not refused.
-/

namespace KeyOrder
namespace Registry

inductive Registration where
  | native (name : String) (less : NativeLess)
  | key (name : String) (fields : List FieldOrdering)

namespace Registration

def name : Registration → String
  | native name _ => name
  | key name _ => name

/-- What the name is to be bound to. -/
def comparator : Registration → Comparator
  | native _ less => .native less
  | key _ fields => .key fields

/-- The registry with the new binding. -/
def attempt (r : Registry) : Registration → Except ConfigError Registry
  | native name less => r.registerNative name less
  | key name fields => r.registerKey name fields

/-- The reasons to refuse a registration. A key without fields is refused as such, bound or not. -/
inductive Refused (r : Registry) : Registration → ConfigError → Prop where
  | emptyKey (name : String) : Refused r (key name []) (.emptyKey name)
  | boundKey {name : String} {fields : List FieldOrdering} (hfields : fields ≠ [])
    (hbound : name ∈ r.names) : Refused r (key name fields) (.duplicateComparator name)
  | boundNative {name : String} {less : NativeLess} (hbound : name ∈ r.names) :
    Refused r (native name less) (.duplicateComparator name)

theorem Refused.unique {r : Registry} {x : Registration} {e e' : ConfigError}
    (h : Refused r x e) (h' : Refused r x e') : e = e' := by
  cases h with
  | emptyKey name =>
    cases h' with
    | emptyKey => rfl
    | boundKey hfields _ => exact absurd rfl hfields
  | boundKey hfields _ =>
    cases h' with
    | emptyKey => exact absurd rfl hfields
    | boundKey => rfl
  | boundNative => cases h'; rfl

end Registration

open Registration (Refused)

/-- The answer to a registration, with the registry that is left. -/
def perform (r : Registry) (x : Registration) : Except ConfigError Unit × Registry :=
  match x.attempt r with
  | .ok r' => (.ok (), r')
  | .error e => (.error e, r)

/-- The answers to registrations that are made one after another. -/
def performAll : List Registration → Registry → List (Except ConfigError Unit) × Registry
  | [], r => ([], r)
  | x :: registrations, r =>
    let (answer, r) := r.perform x
    let (answers, r) := r.performAll registrations
    (answer :: answers, r)

/-- A registry with one more binding. -/
def bind (r : Registry) (name : String) (c : Comparator) : Registry :=
  { r with comparators := r.comparators.insert name c }

/-! ## One registration -/

theorem mem_names_iff (r : Registry) (name : String) :
    name ∈ r.names ↔ ∃ c, r.get? name = some c :=
  r.comparators.mem_names_iff name

theorem get?_of_not_mem {r : Registry} {name : String} (h : name ∉ r.names) :
    r.get? name = none := by
  cases hget : r.get? name with
  | none => rfl
  | some c => exact absurd ((r.mem_names_iff name).mpr ⟨c, hget⟩) h

theorem get?_bind (r : Registry) (name : String) (c : Comparator) (other : String) :
    (r.bind name c).get? other = if other = name then some c else r.get? other :=
  r.comparators.find?_insert name c other

theorem register_of_mem {r : Registry} {name : String} (h : name ∈ r.names) (c : Comparator) :
    r.register name c = .error (.duplicateComparator name) :=
  if_pos ((r.comparators.contains_iff name).mpr h)

theorem register_of_not_mem {r : Registry} {name : String} (h : name ∉ r.names)
    (c : Comparator) : r.register name c = .ok (r.bind name c) :=
  if_neg fun hcontains => h ((r.comparators.contains_iff name).mp hcontains)

theorem registerKey_of_ne_nil (r : Registry) (name : String) {fields : List FieldOrdering}
    (h : fields ≠ []) : r.registerKey name fields = r.register name (.key fields) :=
  if_neg fun hempty => h (List.isEmpty_iff.mp hempty)

theorem attempt_cases (r : Registry) (x : Registration) :
    (∃ e, Refused r x e ∧ x.attempt r = .error e) ∨
      (∀ e, ¬Refused r x e) ∧ x.name ∉ r.names ∧
        x.attempt r = .ok (r.bind x.name x.comparator) := by
  cases x with
  | native name less =>
    by_cases hbound : name ∈ r.names
    · exact .inl ⟨_, .boundNative hbound, register_of_mem hbound _⟩
    · refine .inr ⟨?_, hbound, register_of_not_mem hbound _⟩
      rintro e (_ | _ | h)
      exact hbound h
  | key name fields =>
    by_cases hfields : fields = []
    · subst hfields
      exact .inl ⟨_, .emptyKey name, rfl⟩
    rw [Registration.attempt, registerKey_of_ne_nil r name hfields]
    by_cases hbound : name ∈ r.names
    · exact .inl ⟨_, .boundKey hfields hbound, register_of_mem hbound _⟩
    · refine .inr ⟨?_, hbound, register_of_not_mem hbound _⟩
      rintro e (_ | ⟨-, h⟩ | _)
      · exact hfields rfl
      · exact hbound h

/-- All that a registration can do. -/
theorem perform_cases (r : Registry) (x : Registration) :
    (∃ e, Refused r x e ∧ r.perform x = (.error e, r)) ∨
      (∀ e, ¬Refused r x e) ∧ x.name ∉ r.names ∧
        r.perform x = (.ok (), r.bind x.name x.comparator) := by
  unfold perform
  obtain ⟨e, hrefused, h⟩ | ⟨hrefused, hname, h⟩ := r.attempt_cases x
  · exact .inl ⟨e, hrefused, by rw [h]⟩
  · exact .inr ⟨hrefused, hname, by rw [h]⟩

theorem perform_error_iff (r : Registry) (x : Registration) (e : ConfigError) :
    (r.perform x).1 = .error e ↔ Refused r x e := by
  obtain ⟨e', hrefused, h⟩ | ⟨hrefused, -, h⟩ := r.perform_cases x
  · rw [h]
    constructor
    · intro he
      cases he
      exact hrefused
    · intro he
      rw [he.unique hrefused]
  · rw [h]
    constructor
    · intro he
      cases he
    · intro he
      exact absurd he (hrefused e)

theorem size_bind {r : Registry} {name : String} (h : name ∉ r.names) (c : Comparator) :
    (r.bind name c).size = r.size + 1 :=
  NameTable.size_insert c (get?_of_not_mem h)

theorem get?_perform {r : Registry} {name : String} {c : Comparator} (h : r.get? name = some c)
    (x : Registration) : (r.perform x).2.get? name = some c := by
  obtain ⟨e, -, hperform⟩ | ⟨-, hname, hperform⟩ := r.perform_cases x
  · rw [hperform]
    exact h
  · have hne : name ≠ x.name := by
      rintro rfl
      exact hname ((r.mem_names_iff _).mpr ⟨c, h⟩)
    rw [hperform, get?_bind, if_neg hne]
    exact h

/-! ## Runs -/

theorem size_performAll (registrations : List Registration) :
    ∀ r : Registry, (r.performAll registrations).2.size =
      r.size + (r.performAll registrations).1.countP Except.isOk := by
  induction registrations with
  | nil => exact fun r => rfl
  | cons x registrations ih =>
    intro r
    simp only [performAll]
    obtain ⟨e, -, h⟩ | ⟨-, hname, h⟩ := r.perform_cases x
    · rw [h, ih, List.countP_cons_of_neg (by simp [Except.isOk, Except.toBool])]
    · rw [h, ih, List.countP_cons_of_pos rfl, size_bind hname]
      omega

theorem powers_performAll (registrations : List Registration) :
    ∀ r : Registry, (r.performAll registrations).2.powers = r.powers := by
  induction registrations with
  | nil => exact fun r => rfl
  | cons x registrations ih =>
    intro r
    simp only [performAll]
    obtain ⟨e, -, h⟩ | ⟨-, -, h⟩ := r.perform_cases x
    · rw [h, ih]
    · rw [h, ih]
      rfl

theorem get?_performAll (registrations : List Registration) :
    ∀ {r : Registry} {name : String} {c : Comparator}, r.get? name = some c →
      (r.performAll registrations).2.get? name = some c := by
  induction registrations with
  | nil => exact fun h => h
  | cons x registrations ih => exact fun h => ih (get?_perform h x)

/-! ## Starts -/

/-- How a registry is made. -/
inductive Start where
  | new
  | builtIns
  | powers (t : PowerTable)
  | config (c : Config)

/-- The registry that is made. -/
def Start.make : Start → Except ConfigError Registry
  | new => .ok Registry.new
  | builtIns => .ok Registry.withBuiltIns
  | powers t => .ok (Registry.ofPowers t)
  | config c => Registry.ofConfig c

end Registry
end KeyOrder
