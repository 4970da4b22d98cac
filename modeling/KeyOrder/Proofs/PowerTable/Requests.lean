import KeyOrder.Proofs.PowerTable.Filled

/-!
# KeyOrder.Proofs.PowerTable.Requests

Asking a filled table for powers, one after another.

* `ask`    — the table that is left.
* `grown`  — its size. The order of the requests does not count (`grown_perm`).
* `Filled.lookup_eq_some_iff` — what stands in a filled table is told by its size alone, so requests
  only add to it (`lookup_ask`) and each power is the same from every table (`get_eq_power`).
* `Asks`   — uses of the table that cannot tell one filled table from another: whatever it holds,
  they answer the same and ask for the same powers.
-/

namespace KeyOrder
namespace PowerTable

/-- The table after it was asked for `exponents`, from the first on. -/
def ask (t : PowerTable) (exponents : List UInt32) : PowerTable :=
  exponents.foldl (fun t exponent => (t.get exponent).2) t

/-- The size that a table of `size` powers has after it was asked for `exponents`. -/
def grown (size : Nat) (exponents : List UInt32) : Nat :=
  (exponents.map fun exponent => exponent.toNat + 1).foldl max size

@[simp] theorem ask_nil (t : PowerTable) : t.ask [] = t := rfl

theorem ask_cons (t : PowerTable) (exponent : UInt32) (exponents : List UInt32) :
    t.ask (exponent :: exponents) = (t.get exponent).2.ask exponents := rfl

theorem ask_append (t : PowerTable) (first second : List UInt32) :
    t.ask (first ++ second) = (t.ask first).ask second := List.foldl_append

@[simp] theorem grown_nil (size : Nat) : grown size [] = size := rfl

theorem grown_cons (size : Nat) (exponent : UInt32) (exponents : List UInt32) :
    grown size (exponent :: exponents) = grown (max size (exponent.toNat + 1)) exponents := rfl

theorem le_grown (exponents : List UInt32) : ∀ size : Nat, size ≤ grown size exponents := by
  induction exponents with
  | nil => exact fun size => le_rfl
  | cons exponent exponents ih => exact fun size => le_trans (le_max_left _ _) (ih _)

theorem grown_perm {first second : List UInt32} (h : first.Perm second) (size : Nat) :
    grown size first = grown size second :=
  (h.map _).foldl_eq size

/-! ## Requests -/

theorem ask_filled (exponents : List UInt32) :
    ∀ {t : PowerTable}, Filled t → Filled (t.ask exponents) ∧
      (t.ask exponents).size = grown t.size exponents := by
  induction exponents with
  | nil => exact fun ht => ⟨ht, rfl⟩
  | cons exponent exponents ih =>
    intro t ht
    obtain ⟨-, hpopulated, hfilled⟩ := get_filled ht exponent
    obtain ⟨hrest, hsize⟩ := ih hfilled
    rw [ask_cons, grown_cons]
    refine ⟨hrest, hsize.trans ?_⟩
    rw [size, hpopulated, size]

theorem size_ask {t : PowerTable} (ht : Filled t) (exponents : List UInt32) :
    (t.ask exponents).size = grown t.size exponents :=
  (ask_filled exponents ht).2

theorem Filled.lookup_eq_some_iff {t : PowerTable} (ht : Filled t) {i : Nat} {power : Natural} :
    t.lookup i = some power ↔ i < t.size ∧ power.value = 10 ^ i := by
  constructor
  · intro h
    have hvalue := ht.holds.lookup_value i
    rw [h, Option.map_some] at hvalue
    by_cases hi : i < t.populated
    · rw [if_pos hi] at hvalue
      exact ⟨hi, Option.some.inj hvalue⟩
    · rw [if_neg hi] at hvalue
      cases hvalue
  · rintro ⟨hi, hvalue⟩
    obtain ⟨power', hlookup, hvalue'⟩ := lookup_of_lt ht.holds hi
    rw [hlookup, Natural.value_injective (hvalue'.trans hvalue.symm)]

/-- A slot that is filled stays as it is. -/
theorem lookup_ask {t : PowerTable} (ht : Filled t) (exponents : List UInt32) {i : Nat}
    {power : Natural} (h : t.lookup i = some power) : (t.ask exponents).lookup i = some power := by
  obtain ⟨hi, hvalue⟩ := ht.lookup_eq_some_iff.mp h
  obtain ⟨hfilled, hsize⟩ := ask_filled exponents ht
  refine hfilled.lookup_eq_some_iff.mpr ⟨?_, hvalue⟩
  rw [hsize]
  exact lt_of_lt_of_le hi (le_grown exponents _)

/-- The power `10^exponent`, as every filled table has it. -/
def power (exponent : UInt32) : Natural := (new.get exponent).1

theorem get_eq_power {t : PowerTable} (ht : Filled t) (exponent : UInt32) :
    (t.get exponent).1 = power exponent :=
  Natural.value_injective
    ((get_filled ht exponent).1.trans (get_filled new_filled exponent).1.symm)

/-! ## Uses of the table -/

/-- From every filled table `use` gives one and the same answer, and it leaves the table that asking
for `exponents` leaves. -/
def Asks {α : Type} (use : PowerTable → α × PowerTable) (exponents : List UInt32) : Prop :=
  ∃ answer, ∀ t, Filled t → use t = (answer, t.ask exponents)

namespace Asks

variable {α β : Type}

theorem pure (answer : α) : Asks (fun t => (answer, t)) [] := ⟨answer, fun _ _ => rfl⟩

theorem get (exponent : UInt32) : Asks (fun t => t.get exponent) [exponent] := by
  refine ⟨power exponent, ?_⟩
  intro t ht
  rw [ask_cons, ask_nil, ← get_eq_power ht exponent]

theorem map {use : PowerTable → α × PowerTable} {exponents : List UInt32} (h : Asks use exponents)
    (f : α → β) : Asks (fun t => (f (use t).1, (use t).2)) exponents := by
  obtain ⟨answer, huse⟩ := h
  refine ⟨f answer, ?_⟩
  intro t ht
  show (f (use t).1, (use t).2) = _
  rw [huse t ht]

theorem table {use : PowerTable → α × PowerTable} {exponents : List UInt32}
    (h : Asks use exponents) {t : PowerTable} (ht : Filled t) : (use t).2 = t.ask exponents := by
  obtain ⟨answer, huse⟩ := h
  rw [huse t ht]

end Asks

end PowerTable
end KeyOrder
