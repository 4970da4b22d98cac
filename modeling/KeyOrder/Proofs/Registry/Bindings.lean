import KeyOrder.Proofs.Registry.Linked

/-!
# KeyOrder.Proofs.Registry.Bindings

What can be looked up in a registry through its whole life: after every start that makes one, and
after any registrations on it, whether they are refused or not.
-/

namespace KeyOrder
namespace Registry

open Registration (Refused)

/-! ## Look-ups -/

theorem resolve_ok_iff {r : Registry} {name : String} {c : Comparator} :
    r.resolve name = .ok c ↔ r.get? name = some c := by
  rw [resolve]
  cases r.get? name with
  | none => simp only [reduceCtorEq]
  | some bound => simp only [Except.ok.injEq, Option.some.injEq]

theorem exists_resolve_iff (r : Registry) (name : String) :
    (∃ c, r.resolve name = .ok c) ↔ name ∈ r.names := by
  simp only [resolve_ok_iff, mem_names_iff]

theorem resolve_of_not_mem {r : Registry} {name : String} (h : name ∉ r.names) :
    r.resolve name = .error (.unknownComparator name) := by
  rw [resolve, get?_of_not_mem h]

theorem resolve_performAll {r : Registry} {name : String} {c : Comparator}
    (h : r.resolve name = .ok c) (registrations : List Registration) :
    (r.performAll registrations).2.resolve name = .ok c :=
  resolve_ok_iff.mpr (get?_performAll registrations (resolve_ok_iff.mp h))

/-! ## The answer and what is left -/

theorem perform_of_error {r : Registry} {x : Registration} {e : ConfigError}
    (h : (r.perform x).1 = .error e) : (r.perform x).2 = r := by
  obtain ⟨e', -, hperform⟩ | ⟨-, -, hperform⟩ := r.perform_cases x
  · rw [hperform]
  · rw [hperform] at h
    cases h

theorem perform_of_ok {r : Registry} {x : Registration} (h : (r.perform x).1 = .ok ()) :
    (r.perform x).2 = r.bind x.name x.comparator := by
  obtain ⟨e, -, hperform⟩ | ⟨-, -, hperform⟩ := r.perform_cases x
  · rw [hperform] at h
    cases h
  · rw [hperform]

/-! ## The whole life -/

/-- A registry that was made in any way and asked for any registrations. Its names stand in the
order of their bytes, one more for each registration that was made, and its table is the one it
began with. A further registration is refused for the reasons of `Refused` and no others, and then
changes nothing; else it binds its own name and no other. What a name is bound to stays so through
all later registrations, and a name that is not bound is reported. No key is without fields. With
the table at any place of a store, all comparators of the registry use the table at that place. -/
theorem bindings_after_registrations {s : Start} {start r : Registry}
    {registrations : List Registration} {answers : List (Except ConfigError Unit)}
    (hstart : s.make = .ok start) (hrun : start.performAll registrations = (answers, r)) :
    r.names.Pairwise (fun a b => Bytes.Before (Bytes.ofString a) (Bytes.ofString b)) ∧
    r.size = start.size + answers.countP Except.isOk ∧ r.powers = start.powers ∧
    (∀ x e, (r.perform x).1 = .error e ↔ Refused r x e) ∧
    (∀ x e, (r.perform x).1 = .error e → (r.perform x).2 = r) ∧
    (∀ x, (r.perform x).1 = .ok () → ∀ name,
      (r.perform x).2.get? name = if name = x.name then some x.comparator else r.get? name) ∧
    (∀ name c, r.resolve name = .ok c →
      ∀ later, (r.performAll later).2.resolve name = .ok c) ∧
    (∀ name, (∃ c, r.resolve name = .ok c) ↔ name ∈ r.names) ∧
    (∀ name, name ∉ r.names → r.resolve name = .error (.unknownComparator name)) ∧
    (∀ name fields, r.resolve name = .ok (.key fields) → fields ≠ []) ∧
    ∀ place, ∃ l l', Linked.make place s = .ok l ∧ l.performAll registrations = (answers, l') ∧
      l'.comparators.map Linked.Comparator.forget = r.comparators ∧
      ∀ name c, l'.get? name = some c → c.Uses place := by
  have hanswers : (start.performAll registrations).1 = answers := congrArg Prod.fst hrun
  have hr : (start.performAll registrations).2 = r := congrArg Prod.snd hrun
  have hlinks (place : Linked.Place) : ∃ l, Linked.make place s = .ok l ∧
      (l.performAll registrations).1 = answers ∧
      Linked.Links place (l.performAll registrations).2 r := by
    obtain ⟨l, hl, hlinks⟩ := Linked.links_make place hstart
    have hperform := hlinks.performAll registrations
    rw [hanswers, hr] at hperform
    exact ⟨l, hl, hperform⟩
  refine ⟨r.comparators.names_increasing, ?_, ?_, r.perform_error_iff,
    fun _ _ => perform_of_error, ?_, fun _ _ => resolve_performAll,
    r.exists_resolve_iff, fun _ => resolve_of_not_mem, ?_, ?_⟩
  · rw [← hr, ← hanswers]
    exact size_performAll registrations start
  · rw [← hr]
    exact powers_performAll registrations start
  · intro x hx name
    rw [perform_of_ok hx, get?_bind]
  · intro name fields hkey
    obtain ⟨l, -, -, h⟩ := hlinks 0
    exact h.fields_ne_nil (resolve_ok_iff.mp hkey)
  · intro place
    obtain ⟨l, hl, hperform, h⟩ := hlinks place
    exact ⟨l, _, hl, Prod.ext hperform rfl, h.forget, fun _ _ => h.uses⟩

/-- On the built-in comparators a key, a native comparator under the name of that key, and a key
without fields under the name of a built-in one. -/
theorem bindings_after_refused :
    ∃ r : Registry, withBuiltIns.performAll [.key "amounts" [⟨.decimal, .descending⟩],
        .native "amounts" NativeLess.bytes, .key "lt_bytes" []] =
      ([.ok (), .error (.duplicateComparator "amounts"), .error (.emptyKey "lt_bytes")], r) ∧
      r.size = 4 ∧ ∀ later,
        (r.performAll later).2.resolve "amounts" = .ok (.key [⟨.decimal, .descending⟩]) := by
  obtain ⟨r, hrun, hbound⟩ : ∃ r : Registry,
      withBuiltIns.performAll [.key "amounts" [⟨.decimal, .descending⟩],
        .native "amounts" NativeLess.bytes, .key "lt_bytes" []] =
      ([.ok (), .error (.duplicateComparator "amounts"), .error (.emptyKey "lt_bytes")], r) ∧
      r.resolve "amounts" = .ok (.key [⟨.decimal, .descending⟩]) := ⟨_, rfl, rfl⟩
  obtain ⟨-, hsize, -, -, -, -, hstays, -⟩ := bindings_after_registrations (s := .builtIns) rfl hrun
  exact ⟨r, hrun, hsize, hstays _ _ hbound⟩

end Registry
end KeyOrder
