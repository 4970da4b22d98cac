import KeyOrder.Proofs.Registry.Registrations

/-!
# KeyOrder.Proofs.Registry.Linked

Registries whose keys tell which table they use. The tables stand in a store, and a key holds the
place of the table that it was made with, while a `KeyOrder.Registry` has one table and its keys say
nothing of it.

* `Links place l r`   — `r` is the linked registry `l` without the places, and each key of `l` holds
  the place of `l`. Every start makes such a pair (`links_make`) and every registration keeps it so,
  with the same answer (`Links.perform`).
* `Comparator.Uses c place` — `c` answers from the table at `place`, and changes that table and no
  other. So do all comparators of `l` with the place of `l` (`Links.uses`).
-/

namespace KeyOrder
namespace Linked

open KeyOrder.Registry (Registration Start)

abbrev Place := Nat

abbrev Store := Place → PowerTable

inductive Comparator where
  | native (less : NativeLess)
  | key (fields : List FieldOrdering) (place : Place)

namespace Comparator

/-- The comparator without its place. -/
def forget : Comparator → KeyOrder.Comparator
  | native less => .native less
  | key fields _ => .key fields

protected def compare (c : Comparator) (a b : Bytes) (store : Store) :
    Except DecodeError Ordering × Store :=
  match c with
  | native less => (.ok (less.compare a b), store)
  | key fields place =>
    let (result, powers) := Key.compare fields a b (store place)
    (result, Function.update store place powers)

/-- Of all tables of a store a comparison reads and changes the one at `place` alone. -/
def Uses (c : Comparator) (place : Place) : Prop :=
  ∀ (a b : Bytes) (store : Store), c.compare a b store =
    ((c.forget.compare a b (store place)).1,
      Function.update store place (c.forget.compare a b (store place)).2)

theorem native_uses (less : NativeLess) (place : Place) : (native less).Uses place := by
  intro a b store
  show (_, store) = (_, Function.update store place (store place))
  rw [Function.update_eq_self]
  rfl

theorem key_uses (fields : List FieldOrdering) (place : Place) : (key fields place).Uses place :=
  fun _ _ _ => rfl

end Comparator

structure Registry where
  comparators : NameTable Comparator
  /-- Where its table stands. -/
  place : Place

namespace Registry

def ofPlace (place : Place) : Registry := ⟨NameTable.empty, place⟩

def get? (l : Registry) (name : String) : Option Comparator := l.comparators.find? name

/-- Binds a name that is not bound. -/
def insert (l : Registry) (name : String) (c : Comparator) : Except ConfigError Unit × Registry :=
  if l.comparators.contains name then
    (.error (.duplicateComparator name), l)
  else
    (.ok (), { l with comparators := l.comparators.insert name c })

/-- A key is made with the place of the registry. -/
def perform (l : Registry) : Registration → Except ConfigError Unit × Registry
  | .native name less => l.insert name (.native less)
  | .key name fields =>
    if fields.isEmpty then
      (.error (.emptyKey name), l)
    else
      l.insert name (.key fields l.place)

theorem perform_key (l : Registry) (name : String) {fields : List FieldOrdering}
    (h : fields ≠ []) : l.perform (.key name fields) = l.insert name (.key fields l.place) :=
  if_neg fun hempty => h (List.isEmpty_iff.mp hempty)

def performAll : List Registration → Registry → List (Except ConfigError Unit) × Registry
  | [], l => ([], l)
  | x :: registrations, l =>
    let (answer, l) := l.perform x
    let (answers, l) := l.performAll registrations
    (answer :: answers, l)

def bindBuiltIns (l : Registry) : Registry :=
  { l with comparators :=
      KeyOrder.Registry.builtIns.foldl (fun t b => t.insert b.1 (.native b.2)) l.comparators }

/-- Registers keys up to the first that is refused. -/
def registerKeys (l : Registry) : List (String × List FieldOrdering) → Except ConfigError Registry
  | [] => .ok l
  | (name, fields) :: bindings =>
    match l.perform (.key name fields) with
    | (.ok (), l) => l.registerKeys bindings
    | (.error e, _) => .error e

end Registry

/-- A registry over the table at a place, which is the one that the start asks for. -/
def make (place : Place) : Start → Except ConfigError Registry
  | .new => .ok (Registry.ofPlace place)
  | .builtIns => .ok (Registry.ofPlace place).bindBuiltIns
  | .powers _ => .ok (Registry.ofPlace place)
  | .config c =>
    if maxPrefill < c.prefill then
      .error (.prefillTooLarge c.prefill)
    else
      let l := Registry.ofPlace place
      let l := if c.includeBuiltIns then l.bindBuiltIns else l
      l.registerKeys c.comparators.entries

/-! ## Registries with and without places -/

structure Links (place : Place) (l : Registry) (r : KeyOrder.Registry) : Prop where
  place_eq : l.place = place
  forget : l.comparators.map Comparator.forget = r.comparators
  owned : ∀ name fields other, l.get? name = some (.key fields other) →
    fields ≠ [] ∧ other = place

namespace Links

variable {place : Place} {l : Registry} {r : KeyOrder.Registry}

theorem get? (h : Links place l r) (name : String) :
    r.get? name = (l.get? name).map Comparator.forget := by
  rw [KeyOrder.Registry.get?, ← h.forget, NameTable.find?_map]
  rfl

theorem fields_ne_nil (h : Links place l r) {name : String} {fields : List FieldOrdering}
    (hkey : r.get? name = some (.key fields)) : fields ≠ [] := by
  obtain ⟨c, hc, hforget⟩ := Option.map_eq_some_iff.mp ((h.get? name).symm.trans hkey)
  cases c with
  | native less => cases hforget
  | key bound other =>
    cases hforget
    exact (h.owned name fields other hc).1

/-- Binding a name on both sides. -/
theorem bind (h : Links place l r) (name : String) {c : Comparator}
    (hc : ∀ fields other, c = .key fields other → fields ≠ [] ∧ other = place) :
    Links place { l with comparators := l.comparators.insert name c } (r.bind name c.forget) where
  place_eq := h.place_eq
  forget := by
    rw [KeyOrder.Registry.bind, ← h.forget]
    exact (NameTable.insert_map _ _ _ _).symm
  owned := by
    intro bound fields other hget
    have hfind : (if bound = name then some c else l.get? bound) = some (.key fields other) :=
      (l.comparators.find?_insert name c bound).symm.trans hget
    by_cases hbound : bound = name
    · rw [if_pos hbound] at hfind
      exact hc fields other (Option.some.inj hfind)
    · rw [if_neg hbound] at hfind
      exact h.owned bound fields other hfind

theorem bind_native (h : Links place l r) (name : String) (less : NativeLess) :
    Links place { l with comparators := l.comparators.insert name (.native less) }
      (r.bind name (.native less)) := by
  refine h.bind name (c := .native less) ?_
  intro fields other hc
  cases hc

theorem ofPlace (place : Place) (powers : PowerTable) :
    Links place (Registry.ofPlace place) (KeyOrder.Registry.ofPowers powers) where
  place_eq := rfl
  forget := rfl
  owned := by
    intro name fields other hget
    cases hget

theorem bindNatives (bindings : List (String × NativeLess)) :
    ∀ {l : Registry} {r : KeyOrder.Registry}, Links place l r →
      Links place
        { l with comparators :=
            bindings.foldl (fun t b => t.insert b.1 (.native b.2)) l.comparators }
        { r with comparators :=
            bindings.foldl (fun t b => t.insert b.1 (.native b.2)) r.comparators } := by
  induction bindings with
  | nil => exact fun h => h
  | cons b bindings ih => exact fun h => ih (h.bind_native b.1 b.2)

theorem bindBuiltIns (h : Links place l r) : Links place l.bindBuiltIns r.bindBuiltIns :=
  bindNatives KeyOrder.Registry.builtIns h

theorem contains_iff (h : Links place l r) (name : String) :
    l.comparators.contains name = true ↔ name ∈ r.names := by
  rw [← NameTable.contains_map Comparator.forget, h.forget]
  exact r.comparators.contains_iff name

theorem insert_of_mem (h : Links place l r) {name : String} (hbound : name ∈ r.names)
    (c : Comparator) : l.insert name c = (.error (.duplicateComparator name), l) :=
  if_pos ((h.contains_iff name).mpr hbound)

theorem insert_of_not_mem (h : Links place l r) {name : String} (hbound : name ∉ r.names)
    (c : Comparator) :
    l.insert name c = (.ok (), { l with comparators := l.comparators.insert name c }) :=
  if_neg fun hcontains => hbound ((h.contains_iff name).mp hcontains)

/-- A registration has the same answer on both sides. -/
theorem perform (h : Links place l r) (x : Registration) :
    (l.perform x).1 = (r.perform x).1 ∧ Links place (l.perform x).2 (r.perform x).2 := by
  obtain ⟨e, hrefused, hperform⟩ | ⟨hrefused, hname, hperform⟩ := r.perform_cases x
  · have hl : l.perform x = (.error e, l) := by
      cases hrefused with
      | emptyKey name => rfl
      | boundKey hfields hbound =>
        rw [Registry.perform_key l _ hfields]
        exact h.insert_of_mem hbound _
      | boundNative hbound => exact h.insert_of_mem hbound _
    rw [hperform, hl]
    exact ⟨rfl, h⟩
  · rw [hperform]
    cases x with
    | native name less =>
      have hbound : name ∉ r.names := hname
      rw [Registry.perform, h.insert_of_not_mem hbound]
      exact ⟨rfl, h.bind_native name less⟩
    | key name fields =>
      have hbound : name ∉ r.names := hname
      have hfields : fields ≠ [] := by
        rintro rfl
        exact hrefused _ (.emptyKey name)
      rw [Registry.perform_key l name hfields, h.insert_of_not_mem hbound]
      refine ⟨rfl, h.bind name (c := .key fields l.place) ?_⟩
      rintro _ _ ⟨rfl, rfl⟩
      exact ⟨hfields, h.place_eq⟩

theorem performAll (registrations : List Registration) :
    ∀ {l : Registry} {r : KeyOrder.Registry}, Links place l r →
      (l.performAll registrations).1 = (r.performAll registrations).1 ∧
        Links place (l.performAll registrations).2 (r.performAll registrations).2 := by
  induction registrations with
  | nil => exact fun h => ⟨rfl, h⟩
  | cons x registrations ih =>
    intro l r h
    obtain ⟨hanswer, hnext⟩ := h.perform x
    obtain ⟨hanswers, hrest⟩ := ih hnext
    refine ⟨?_, hrest⟩
    simp only [Registry.performAll, KeyOrder.Registry.performAll, hanswer, hanswers]

theorem registerKeys (bindings : List (String × List FieldOrdering)) :
    ∀ {l : Registry} {r r' : KeyOrder.Registry}, Links place l r →
      r.registerKeys bindings = .ok r' → ∃ l', l.registerKeys bindings = .ok l' ∧
        Links place l' r' := by
  induction bindings with
  | nil =>
    intro l r r' h hr
    cases hr
    exact ⟨l, rfl, h⟩
  | cons binding bindings ih =>
    intro l r r' h hr
    obtain ⟨name, fields⟩ := binding
    have hperform := h.perform (.key name fields)
    rw [KeyOrder.Registry.registerKeys] at hr
    rw [KeyOrder.Registry.perform, Registration.attempt] at hperform
    cases hregister : r.registerKey name fields with
    | error e =>
      rw [hregister] at hr
      cases hr
    | ok next =>
      rw [hregister] at hr hperform
      rw [Registry.registerKeys]
      cases hl : l.perform (.key name fields) with
      | mk answer l₁ =>
        rw [hl] at hperform
        obtain ⟨rfl, hlinks⟩ : answer = .ok () ∧ Links place l₁ next := hperform
        exact ih hlinks hr

theorem uses (h : Links place l r) {name : String} {c : Comparator} (hc : l.get? name = some c) :
    c.Uses place := by
  cases c with
  | native less => exact Comparator.native_uses less place
  | key fields other =>
    obtain ⟨-, rfl⟩ := h.owned name fields other hc
    exact Comparator.key_uses fields other

end Links

theorem links_make (place : Place) {s : Start} {start : KeyOrder.Registry}
    (h : s.make = .ok start) : ∃ l, make place s = .ok l ∧ Links place l start := by
  cases s with
  | new =>
    cases h
    exact ⟨_, rfl, Links.ofPlace place _⟩
  | builtIns =>
    cases h
    exact ⟨_, rfl, (Links.ofPlace place _).bindBuiltIns⟩
  | powers t =>
    cases h
    exact ⟨_, rfl, Links.ofPlace place t⟩
  | config c =>
    have hmake : KeyOrder.Registry.ofConfig c = .ok start := h
    unfold KeyOrder.Registry.ofConfig at hmake
    simp only [make]
    by_cases hprefill : maxPrefill < c.prefill
    · rw [if_pos hprefill] at hmake
      cases hmake
    rw [if_neg hprefill] at hmake ⊢
    have hlinks := Links.ofPlace place (PowerTable.prefilled c.prefill)
    by_cases hbuiltIns : c.includeBuiltIns = true
    · simp only [hbuiltIns, if_true] at hmake ⊢
      exact hlinks.bindBuiltIns.registerKeys _ hmake
    · simp only [hbuiltIns, if_false, Bool.false_eq_true] at hmake ⊢
      exact hlinks.registerKeys _ hmake

end Linked
end KeyOrder
