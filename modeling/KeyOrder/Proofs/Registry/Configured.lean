import KeyOrder.Proofs.PowerTable.Requests
import KeyOrder.Proofs.Registry.Bindings

/-!
# KeyOrder.Proofs.Registry.Configured

The registry of a configuration.

* `registerKeys_cases` — registering keys of different names, by induction on them: each is refused
  or not as it would be at the start, since the ones before it have other names. Either none is and
  all are bound, or the first that is decides.
* `Config.Fault`       — what can be wrong under one name, told by the configuration alone. These
  are the refusals by the registry that the keys are registered on (`fault_iff`).
* `ofConfig_decided`   — when there is a registry and what it holds, and else which error there is.
  Names are registered in the order of their bytes, so the first refusal is that of the least name.
-/

namespace KeyOrder

/-- What is wrong with a configuration under one of its names. A key without fields is wrong as
such, even if its name is that of a built-in comparator. -/
inductive Config.Fault (c : Config) : String → ConfigError → Prop where
  | emptyKey {name : String} (h : c.comparators.find? name = some []) :
    Fault c name (.emptyKey name)
  | clash {name : String} {fields : List FieldOrdering}
    (h : c.comparators.find? name = some fields) (hfields : fields ≠ [])
    (hincluded : c.includeBuiltIns = true) (hname : name ∈ ["lt_int32", "lt_int64", "lt_bytes"]) :
    Fault c name (.duplicateComparator name)

theorem Config.Fault.unique {c : Config} {name : String} {e e' : ConfigError}
    (h : c.Fault name e) (h' : c.Fault name e') : e = e' := by
  cases h with
  | emptyKey hfind =>
    cases h' with
    | emptyKey => rfl
    | clash hfind' hfields =>
      rw [hfind] at hfind'
      exact absurd (Option.some.inj hfind').symm hfields
  | clash hfind hfields =>
    cases h' with
    | emptyKey hfind' =>
      rw [hfind] at hfind'
      exact absurd (Option.some.inj hfind') hfields
    | clash => rfl

namespace Registry

open Registration (Refused)

/-! ## Registering keys -/

theorem mem_names_bind (r : Registry) (name : String) (c : Comparator) (other : String) :
    other ∈ (r.bind name c).names ↔ other = name ∨ other ∈ r.names := by
  rw [mem_names_iff, mem_names_iff, get?_bind]
  by_cases h : other = name
  · simp [h]
  · simp [h]

theorem refused_key_iff {r : Registry} {name : String} {fields : List FieldOrdering}
    {e : ConfigError} :
    Refused r (.key name fields) e ↔
      fields = [] ∧ e = .emptyKey name ∨
        fields ≠ [] ∧ name ∈ r.names ∧ e = .duplicateComparator name := by
  constructor
  · intro h
    cases h with
    | emptyKey => exact .inl ⟨rfl, rfl⟩
    | boundKey hfields hbound => exact .inr ⟨hfields, hbound, rfl⟩
  · rintro (⟨rfl, rfl⟩ | ⟨hfields, hbound, rfl⟩)
    · exact .emptyKey name
    · exact .boundKey hfields hbound

/-- A binding of another name does not count. -/
theorem refused_bind_iff {r : Registry} {name other : String} (h : other ≠ name) (c : Comparator)
    (fields : List FieldOrdering) (e : ConfigError) :
    Refused (r.bind name c) (.key other fields) e ↔ Refused r (.key other fields) e := by
  simp only [refused_key_iff, mem_names_bind, h, false_or]

theorem registerKeys_of_refused {r : Registry} {b : String × List FieldOrdering}
    {e : ConfigError} (h : Refused r (.key b.1 b.2) e)
    (bindings : List (String × List FieldOrdering)) :
    r.registerKeys (b :: bindings) = .error e := by
  obtain ⟨e', hrefused, hattempt⟩ | ⟨hrefused, -, -⟩ := r.attempt_cases (.key b.1 b.2)
  · have hregister : r.registerKey b.1 b.2 = .error e' := hattempt
    rw [registerKeys, hregister, hrefused.unique h]
  · exact absurd h (hrefused e)

theorem registerKeys_of_admitted {r : Registry} {b : String × List FieldOrdering}
    (h : ∀ e, ¬Refused r (.key b.1 b.2) e) (bindings : List (String × List FieldOrdering)) :
    r.registerKeys (b :: bindings) = (r.bind b.1 (.key b.2)).registerKeys bindings := by
  obtain ⟨e, hrefused, -⟩ | ⟨-, -, hattempt⟩ := r.attempt_cases (.key b.1 b.2)
  · exact absurd hrefused (h e)
  · have hregister : r.registerKey b.1 b.2 = .ok (r.bind b.1 (.key b.2)) := hattempt
    rw [registerKeys, hregister]

/-- The registry refuses one of the bindings and none before it. -/
def FirstRefused (r : Registry) (bindings : List (String × List FieldOrdering))
    (e : ConfigError) : Prop :=
  ∃ before b after, bindings = before ++ b :: after ∧
    (∀ a ∈ before, ∀ e, ¬Refused r (.key a.1 a.2) e) ∧ Refused r (.key b.1 b.2) e

theorem FirstRefused.cons {r : Registry} {b : String × List FieldOrdering}
    {bindings : List (String × List FieldOrdering)} {e : ConfigError}
    (hb : ∀ e, ¬Refused r (.key b.1 b.2) e) (h : FirstRefused r bindings e) :
    FirstRefused r (b :: bindings) e := by
  obtain ⟨before, first, after, rfl, hbefore, hfirst⟩ := h
  exact ⟨b :: before, first, after, rfl, List.forall_mem_cons.mpr ⟨hb, hbefore⟩, hfirst⟩

/-- The bindings of a registry on which keys were registered. -/
def Binds (r : Registry) (bindings : List (String × List FieldOrdering)) (r' : Registry) : Prop :=
  r'.powers = r.powers ∧
    ∀ name, r'.get? name = ((bindings.lookup name).map Comparator.key).or (r.get? name)

theorem Binds.cons {r r' : Registry} {b : String × List FieldOrdering}
    {bindings : List (String × List FieldOrdering)} (hnew : ∀ other ∈ bindings, b.1 ≠ other.1)
    (h : Binds (r.bind b.1 (.key b.2)) bindings r') : Binds r (b :: bindings) r' := by
  refine ⟨h.1, ?_⟩
  intro name
  rw [h.2 name, get?_bind, NameTable.lookup_cons]
  by_cases hname : name = b.1
  · have hlookup : bindings.lookup name = none := by
      rw [List.lookup_eq_none_iff]
      intro other hother
      exact bne_iff_ne.mpr (hname ▸ hnew other hother)
    rw [hlookup, if_pos hname, if_pos hname]
    rfl
  · rw [if_neg hname, if_neg hname]

/-- All that registering keys of different names can do. -/
theorem registerKeys_cases (bindings : List (String × List FieldOrdering)) :
    ∀ {r : Registry}, (bindings.Pairwise fun a b => a.1 ≠ b.1) →
      (∃ r', (∀ b ∈ bindings, ∀ e, ¬Refused r (.key b.1 b.2) e) ∧ Binds r bindings r' ∧
        r.registerKeys bindings = .ok r') ∨
      ∃ e, FirstRefused r bindings e ∧ r.registerKeys bindings = .error e := by
  induction bindings with
  | nil => exact fun {r} _ => .inl ⟨r, by simp, ⟨rfl, fun _ => rfl⟩, rfl⟩
  | cons b bindings ih =>
    intro r hdistinct
    obtain ⟨hnew, hrest⟩ := List.pairwise_cons.mp hdistinct
    by_cases hrefused : ∃ e, Refused r (.key b.1 b.2) e
    · obtain ⟨e, he⟩ := hrefused
      exact .inr ⟨e, ⟨[], b, bindings, rfl, by simp, he⟩, registerKeys_of_refused he bindings⟩
    · have hadmitted : ∀ e, ¬Refused r (.key b.1 b.2) e := not_exists.mp hrefused
      -- the names that follow are others, so they are refused now if they were at the start
      have hsame : ∀ other ∈ bindings, ∀ e,
          Refused (r.bind b.1 (.key b.2)) (.key other.1 other.2) e ↔
            Refused r (.key other.1 other.2) e := fun other hother e =>
        refused_bind_iff (hnew other hother).symm _ _ e
      rw [registerKeys_of_admitted hadmitted]
      obtain ⟨r', hall, hbinds, hok⟩ | ⟨e, ⟨before, first, after, rfl, hbefore, hfirst⟩, herror⟩ :=
        ih (r := r.bind b.1 (.key b.2)) hrest
      · refine .inl ⟨r', List.forall_mem_cons.mpr ⟨hadmitted, ?_⟩, hbinds.cons hnew, hok⟩
        intro other hother e he
        exact hall other hother e ((hsame other hother e).mpr he)
      · refine .inr ⟨e, FirstRefused.cons hadmitted ⟨before, first, after, rfl, ?_, ?_⟩, herror⟩
        · intro a ha e' he'
          exact hbefore a ha e' ((hsame a (List.mem_append_left _ ha) e').mpr he')
        · exact (hsame first (by simp) e).mp hfirst

/-! ## The start -/

theorem get?_bindBuiltIns (r : Registry) (name : String) :
    r.bindBuiltIns.get? name =
      ((builtIns.map fun b => (b.1, Comparator.native b.2)).reverse.lookup name).or
        (r.get? name) := by
  have hfold : r.bindBuiltIns.comparators =
      (builtIns.map fun b => (b.1, Comparator.native b.2)).foldl
        (fun t b => t.insert b.1 b.2) r.comparators := by
    rw [List.foldl_map]
    rfl
  rw [get?, hfold, NameTable.find?_foldl_insert]
  rfl

theorem get?_ofPowers (powers : PowerTable) (name : String) :
    (ofPowers powers).get? name = none := rfl

/-- What the keys of a configuration are registered on. -/
def start (c : Config) : Registry :=
  if c.includeBuiltIns then (ofPowers (PowerTable.prefilled c.prefill)).bindBuiltIns
  else ofPowers (PowerTable.prefilled c.prefill)

theorem ofConfig_of_le {c : Config} (h : c.prefill ≤ maxPrefill) :
    ofConfig c = (start c).registerKeys c.comparators.entries := by
  rw [ofConfig, if_neg (UInt32.not_lt.mpr h)]
  rfl

theorem powers_start (c : Config) : (start c).powers = PowerTable.prefilled c.prefill := by
  unfold start
  generalize PowerTable.prefilled c.prefill = powers
  split <;> rfl

theorem get?_start (c : Config) (name : String) :
    (start c).get? name =
      if c.includeBuiltIns then
        (builtIns.map fun b => (b.1, Comparator.native b.2)).reverse.lookup name
      else none := by
  unfold start
  split
  · rw [get?_bindBuiltIns, get?_ofPowers, Option.or_none]
  · rfl

theorem mem_names_start (c : Config) (name : String) :
    name ∈ (start c).names ↔
      c.includeBuiltIns = true ∧ name ∈ ["lt_int32", "lt_int64", "lt_bytes"] := by
  rw [mem_names_iff, get?_start]
  cases c.includeBuiltIns with
  | false => simp
  | true =>
    rw [if_pos rfl, ← Option.isSome_iff_exists, List.lookup_isSome_iff]
    simp only [builtIns, List.map_cons, List.map_nil, List.reverse_cons, List.reverse_nil,
      List.nil_append, List.cons_append, List.mem_cons, List.not_mem_nil, or_false,
      exists_eq_or_imp, exists_eq_left, beq_iff_eq, true_and]
    tauto

/-! ## Faults -/

theorem fault_iff {c : Config} {name : String} {e : ConfigError} :
    c.Fault name e ↔
      ∃ fields, (name, fields) ∈ c.comparators.entries ∧ Refused (start c) (.key name fields) e := by
  simp only [refused_key_iff, mem_names_start, ← NameTable.find?_eq_some_iff]
  constructor
  · intro h
    cases h with
    | emptyKey hfind => exact ⟨[], hfind, .inl ⟨rfl, rfl⟩⟩
    | clash hfind hfields hincluded hname =>
      exact ⟨_, hfind, .inr ⟨hfields, ⟨hincluded, hname⟩, rfl⟩⟩
  · rintro ⟨fields, hfind, ⟨rfl, rfl⟩ | ⟨hfields, ⟨hincluded, hname⟩, rfl⟩⟩
    · exact .emptyKey hfind
    · exact .clash hfind hfields hincluded hname

/-- The fault under the least name that has one. -/
def LeastFault (c : Config) (e : ConfigError) : Prop :=
  ∃ name, c.Fault name e ∧ ∀ other e', c.Fault other e' →
    other = name ∨ Bytes.Before (Bytes.ofString name) (Bytes.ofString other)

theorem LeastFault.unique {c : Config} {e e' : ConfigError} (h : LeastFault c e)
    (h' : LeastFault c e') : e = e' := by
  obtain ⟨name, hfault, hleast⟩ := h
  obtain ⟨name', hfault', hleast'⟩ := h'
  rcases hleast name' e' hfault' with rfl | hbefore
  · exact hfault.unique hfault'
  · rcases hleast' name e hfault with rfl | hafter
    · exact hfault.unique hfault'
    · rw [← Bytes.compare_lt_iff] at hbefore hafter
      rw [Std.OrientedCmp.gt_of_lt hafter] at hbefore
      cases hbefore

theorem FirstRefused.leastFault {c : Config} {e : ConfigError}
    (h : FirstRefused (start c) c.comparators.entries e) : LeastFault c e := by
  obtain ⟨before, b, after, hentries, hbefore, hb⟩ := h
  refine ⟨b.1, fault_iff.mpr ⟨b.2, by simp [hentries], hb⟩, ?_⟩
  intro other e' hfault
  obtain ⟨fields, hmem, hrefused⟩ := fault_iff.mp hfault
  have hsorted := c.comparators.sorted
  rw [hentries] at hmem hsorted
  rcases List.mem_append.mp hmem with hmem | hmem
  · exact absurd hrefused (hbefore _ hmem e')
  · -- what stands behind it in the table has a greater name
    rcases List.mem_cons.mp hmem with rfl | hmem
    · exact .inl rfl
    · have hlt := (List.pairwise_cons.mp (List.pairwise_append.mp hsorted).2.1).1 _ hmem
      exact .inr ((Bytes.compare_lt_iff _ _).mp hlt)

/-! ## The registry of a configuration -/

theorem ofConfig_cases (c : Config) :
    (maxPrefill < c.prefill ∧ ofConfig c = .error (.prefillTooLarge c.prefill)) ∨
    (c.prefill ≤ maxPrefill ∧ ∃ e, LeastFault c e ∧ ofConfig c = .error e) ∨
    c.prefill ≤ maxPrefill ∧ (∀ name e, ¬c.Fault name e) ∧
      ∃ r, Binds (start c) c.comparators.entries r ∧ ofConfig c = .ok r := by
  by_cases hprefill : maxPrefill < c.prefill
  · exact .inl ⟨hprefill, if_pos hprefill⟩
  have hle : c.prefill ≤ maxPrefill := UInt32.not_lt.mp hprefill
  right
  rw [ofConfig_of_le hle]
  obtain ⟨r, hall, hbinds, hok⟩ | ⟨e, hfirst, herror⟩ :=
    registerKeys_cases c.comparators.entries (r := start c) c.comparators.names_distinct
  · refine .inr ⟨hle, ?_, r, hbinds, hok⟩
    intro name e hfault
    obtain ⟨fields, hmem, hrefused⟩ := fault_iff.mp hfault
    exact hall _ hmem e hrefused
  · exact .inl ⟨hle, e, hfirst.leastFault, herror⟩

theorem no_fault_iff {c : Config} :
    (∀ name e, ¬c.Fault name e) ↔
      (∀ name, c.comparators.find? name ≠ some []) ∧
        (c.includeBuiltIns = true → ∀ name ∈ c.comparators.names,
          name ∉ ["lt_int32", "lt_int64", "lt_bytes"]) := by
  constructor
  · intro h
    have hfields : ∀ name, c.comparators.find? name ≠ some [] :=
      fun name hfind => h name _ (.emptyKey hfind)
    refine ⟨hfields, ?_⟩
    intro hincluded name hmem hname
    obtain ⟨fields, hfind⟩ := (c.comparators.mem_names_iff name).mp hmem
    refine h name _ (.clash hfind ?_ hincluded hname)
    rintro rfl
    exact hfields name hfind
  · rintro ⟨hfields, hnames⟩ name e hfault
    cases hfault with
    | emptyKey hfind => exact hfields name hfind
    | clash hfind _ hincluded hname =>
      exact hnames hincluded name ((c.comparators.mem_names_iff name).mpr ⟨_, hfind⟩) hname

section Holds

variable {c : Config} {r : Registry} (h : Binds (start c) c.comparators.entries r)
include h

theorem Binds.get?_of_find? {name : String} {fields : List FieldOrdering}
    (hfind : c.comparators.find? name = some fields) : r.get? name = some (.key fields) := by
  have hlookup : c.comparators.entries.lookup name = some fields := hfind
  rw [h.2, hlookup]
  rfl

theorem Binds.mem_names (name : String) :
    name ∈ r.names ↔ name ∈ c.comparators.names ∨
      c.includeBuiltIns = true ∧ name ∈ ["lt_int32", "lt_int64", "lt_bytes"] := by
  rw [← mem_names_start, mem_names_iff, mem_names_iff, NameTable.mem_names_iff, h.2 name]
  show _ ↔ (∃ fields, c.comparators.entries.lookup name = some fields) ∨ _
  cases c.comparators.entries.lookup name with
  | none => simp
  | some fields => simp

theorem Binds.resolve_builtIn (hfault : ∀ name e, ¬c.Fault name e)
    (hincluded : c.includeBuiltIns = true) {b : String × NativeLess} (hb : b ∈ builtIns) :
    r.resolve b.1 = .ok (.native b.2) := by
  have hname : b.1 ∈ ["lt_int32", "lt_int64", "lt_bytes"] :=
    List.mem_map_of_mem (f := Prod.fst) hb
  have hlookup : c.comparators.entries.lookup b.1 = none := by
    cases hfind : c.comparators.entries.lookup b.1 with
    | none => rfl
    | some fields =>
      have hmem := (c.comparators.mem_names_iff b.1).mpr ⟨fields, hfind⟩
      exact absurd hname ((no_fault_iff.mp hfault).2 hincluded b.1 hmem)
  rw [resolve_ok_iff, h.2, hlookup, get?_start, if_pos hincluded]
  simp only [builtIns, List.mem_cons, List.not_mem_nil, or_false] at hb
  rcases hb with rfl | rfl | rfl <;> rfl

theorem Binds.size_powers : r.powers.size = max 20 (c.prefill.toNat + 1) := by
  rw [h.1, powers_start]
  exact PowerTable.size_ask PowerTable.new_filled [c.prefill]

end Holds

/-- A configured key uses the table of the registry. -/
theorem linked_get? {c : Config} {r : Registry} {place : Linked.Place} {l : Linked.Registry}
    (hl : Linked.Links place l r) (h : Binds (start c) c.comparators.entries r) {name : String}
    {fields : List FieldOrdering} (hfind : c.comparators.find? name = some fields) :
    l.get? name = some (.key fields place) := by
  obtain ⟨bound, hbound, hforget⟩ :=
    Option.map_eq_some_iff.mp ((hl.get? name).symm.trans (h.get?_of_find? hfind))
  cases bound with
  | native less => cases hforget
  | key others other =>
    cases hforget
    rw [hbound, (hl.owned name fields other hbound).2]

/-- A configuration gives a registry unless it asks for too many powers ahead, has a key without
fields, or names a key as a comparator that it includes. The registry has the configured names and
those of the included comparators, each name bound to what it stands for, the table filled as far
as it is asked for, and that same table in each of its keys. Otherwise too many powers are told
first; then it is the least name with a fault that is told. -/
theorem ofConfig_decided (c : Config) :
    ((∃ r, ofConfig c = .ok r) ↔
      c.prefill.toNat ≤ 4096 ∧ (∀ name, c.comparators.find? name ≠ some []) ∧
        (c.includeBuiltIns = true → ∀ name ∈ c.comparators.names,
          name ∉ ["lt_int32", "lt_int64", "lt_bytes"])) ∧
    (∀ r, ofConfig c = .ok r →
      (∀ name, name ∈ r.names ↔ name ∈ c.comparators.names ∨
        c.includeBuiltIns = true ∧ name ∈ ["lt_int32", "lt_int64", "lt_bytes"]) ∧
      (∀ name fields, c.comparators.find? name = some fields →
        r.resolve name = .ok (.key fields)) ∧
      (c.includeBuiltIns = true → ∀ b ∈ builtIns, r.resolve b.1 = .ok (.native b.2)) ∧
      r.powers.size = max 20 (c.prefill.toNat + 1) ∧
      ∀ place, ∃ l, Linked.make place (.config c) = .ok l ∧ l.place = place ∧
        l.comparators.map Linked.Comparator.forget = r.comparators ∧
        ∀ name fields, c.comparators.find? name = some fields →
          l.get? name = some (.key fields place)) ∧
    ∀ e, ofConfig c = .error e ↔
      4096 < c.prefill.toNat ∧ e = .prefillTooLarge c.prefill ∨
        c.prefill.toNat ≤ 4096 ∧ LeastFault c e := by
  have hlt : maxPrefill < c.prefill ↔ 4096 < c.prefill.toNat := UInt32.lt_iff_toNat_lt
  have hle : c.prefill ≤ maxPrefill ↔ c.prefill.toNat ≤ 4096 := UInt32.le_iff_toNat_le
  have hcases := ofConfig_cases c
  rw [hlt, hle] at hcases
  rw [← no_fault_iff]
  obtain ⟨hprefill, herror⟩ | ⟨hprefill, e, hleast, herror⟩ | ⟨hprefill, hfault, r, hbinds, hok⟩ :=
    hcases
  · have hiff : ∀ e, ConfigError.prefillTooLarge c.prefill = e ↔ e = .prefillTooLarge c.prefill :=
      fun e => eq_comm
    simp [herror, hprefill, not_le.mpr hprefill, hiff]
  · have hfault : ¬∀ name e, ¬c.Fault name e := by
      obtain ⟨name, hname, -⟩ := hleast
      exact fun h => h name e hname
    have hiff : ∀ e', e = e' ↔ LeastFault c e' :=
      fun e' => ⟨fun h => h ▸ hleast, fun h => hleast.unique h⟩
    simp [herror, hprefill, not_lt.mpr hprefill, hfault, hiff]
  · have hleast : ∀ e, ¬LeastFault c e := fun e ⟨name, hname, _⟩ => hfault name e hname
    refine ⟨⟨fun _ => ⟨hprefill, hfault⟩, fun _ => ⟨r, hok⟩⟩, ?_, ?_⟩
    · intro r' hr'
      obtain rfl : r = r' := Except.ok.inj (hok.symm.trans hr')
      refine ⟨hbinds.mem_names, fun _ _ hfind => resolve_ok_iff.mpr (hbinds.get?_of_find? hfind),
        fun hincluded _ hb => hbinds.resolve_builtIn hfault hincluded hb, hbinds.size_powers, ?_⟩
      intro place
      obtain ⟨l, hmake, hlinks⟩ := Linked.links_make place (s := .config c) hok
      exact ⟨l, hmake, hlinks.place_eq, hlinks.forget,
        fun _ _ hfind => linked_get? hlinks hbinds hfind⟩
    · simp [hok, not_lt.mpr hprefill, hleast]

/-- Two faults, of which that of the lesser name is told. Its name clashes as well. -/
theorem ofConfig_two_faults :
    ofConfig ⟨8, true, NameTable.ofList [("lt_int64", [⟨.int, .descending⟩]), ("lt_bytes", [])]⟩ =
      .error (.emptyKey "lt_bytes") := by
  refine ((ofConfig_decided _).2.2 _).mpr (.inr ⟨by decide, "lt_bytes", .emptyKey (by decide), ?_⟩)
  intro other e hfault
  obtain ⟨fields, hmem, -⟩ := fault_iff.mp hfault
  have hentries : (other, fields) ∈ [("lt_bytes", []), ("lt_int64", [⟨.int, .descending⟩])] := hmem
  simp only [List.mem_cons, Prod.mk.injEq, List.not_mem_nil, or_false] at hentries
  rcases hentries with ⟨rfl, -⟩ | ⟨rfl, -⟩
  · exact .inl rfl
  · exact .inr ((Bytes.compare_lt_iff _ _).mp (by decide))

end Registry
end KeyOrder
