import KeyOrder.Proofs.Natural.Product
import KeyOrder.Proofs.PowerTable.Slot

/-!
# KeyOrder.Proofs.PowerTable.Filled

The table after any history. `Reachable` are the tables that a new table becomes by asking it for
powers. Every one of them is `Filled`: it holds exactly the powers below its size, so that
`10^e` is answered with `10^e` from each of them (`get_filled`).

* `stored?_store` — filling a slot changes no other slot, and none that is filled.
* `store_next`    — the step: the power after the last one enters the table.
* `fill_holds`    — the run over all missing powers, by induction on how many there are.
-/

namespace KeyOrder
namespace PowerTable

/-- A table after some history of requests. -/
inductive Reachable : PowerTable → Prop where
  | new : Reachable PowerTable.new
  | get {t : PowerTable} (h : Reachable t) (exponent : UInt32) : Reachable (t.get exponent).2

theorem Reachable.prefilled (exponent : UInt32) : Reachable (prefilled exponent) :=
  .get .new exponent

/-- All segments are there, and each has all its slots or none. -/
structure Shaped (t : PowerTable) : Prop where
  segments_size : t.segments.size = segmentCount
  slots_size : ∀ segment slots, t.segments[segment]? = some slots →
    slots = #[] ∨ slots.size = segmentSize segment

/-- The slots below `n` hold their powers and the others nothing. -/
structure Holds (t : PowerTable) (n : Nat) : Prop where
  shaped : Shaped t
  lookup_value : ∀ i, (t.lookup i).map Natural.value = if i < n then some (10 ^ i) else none

structure Filled (t : PowerTable) : Prop where
  holds : Holds t t.populated
  least : 20 ≤ t.populated
  most : t.populated ≤ 2 ^ 32

/-! ## One slot -/

/-- What a slot holds. -/
def stored? (t : PowerTable) (slot : Slot) : Option Natural :=
  (t.segments[slot.segment]?).bind fun slots => (slots[slot.offset]?).join

theorem lookup_eq (t : PowerTable) (index : Nat) : t.lookup index = t.stored? (locate index) := by
  unfold lookup stored?
  cases h : t.segments[(locate index).segment]? with
  | none => simp [h]
  | some slots => simp [h]

theorem size_allocate {segment : Nat} {slots : Array (Option Natural)}
    (h : slots = #[] ∨ slots.size = segmentSize segment) :
    (allocate segment slots).size = segmentSize segment := by
  unfold allocate
  rcases h with rfl | hsize
  · simp
  · have hpos : 0 < slots.size := by
      rw [hsize, segmentSize_eq]
      positivity
    have hne : slots.isEmpty = false := by
      rw [Array.isEmpty_eq_false_iff]
      exact Array.ne_empty_of_size_pos hpos
    rw [hne, if_neg Bool.false_ne_true, hsize]

/-- A slot that is made holds nothing. -/
theorem join_allocate (segment : Nat) (slots : Array (Option Natural)) (offset : Nat) :
    ((allocate segment slots)[offset]?).join = (slots[offset]?).join := by
  unfold allocate
  by_cases hempty : slots = #[]
  · subst hempty
    by_cases hlt : offset < segmentSize segment
    · simp [hlt]
    · simp [hlt]
  · simp [hempty]

/-- The slots of a segment after a slot of it is filled. -/
theorem getElem?_fillSlot {segment : Nat} {slots : Array (Option Natural)}
    (hslots : slots = #[] ∨ slots.size = segmentSize segment) {offset : Nat}
    (ho : offset < segmentSize segment) (power : Natural) (o : Nat) :
    ((((allocate segment slots).modify offset
        fun entry => entry.or (some power))[o]?).join : Option Natural) =
      if o = offset then ((slots[o]?).join).or (some power) else (slots[o]?).join := by
  rw [Array.getElem?_modify, ← join_allocate segment slots o]
  by_cases hoff : offset = o
  · subst hoff
    rw [if_pos rfl, if_pos rfl,
      Array.getElem?_eq_getElem (by rw [size_allocate hslots]; exact ho)]
    rfl
  · rw [if_neg hoff, if_neg (Ne.symm hoff)]

theorem stored?_store {t : PowerTable} (ht : Shaped t) {index : Nat} (hi : index < 2 ^ 32)
    (power : Natural) (slot : Slot) :
    (t.store index power).2.stored? slot =
      if slot = locate index then (t.stored? slot).or (some power) else t.stored? slot := by
  have hsegment : (locate index).segment < t.segments.size := by
    rw [ht.segments_size]
    exact segment_lt hi
  rw [stored?, stored?, store, Array.getElem?_modify]
  by_cases hseg : (locate index).segment = slot.segment
  · rw [if_pos hseg, ← hseg, Array.getElem?_eq_getElem hsegment]
    have hslots := getElem?_fillSlot (ht.slots_size _ _ (Array.getElem?_eq_getElem hsegment))
      (offset_lt index) power slot.offset
    have hsame : slot.offset = (locate index).offset ↔ slot = locate index := by
      constructor
      · intro hoff
        calc slot = ⟨slot.segment, slot.offset⟩ := rfl
          _ = ⟨(locate index).segment, (locate index).offset⟩ := by rw [hseg, hoff]
          _ = locate index := rfl
      · rintro rfl
        rfl
    simp only [Option.map_some, Option.bind_some]
    simpa only [hsame] using hslots
  · have hne : slot ≠ locate index := by
      rintro rfl
      exact hseg rfl
    rw [if_neg hseg, if_neg hne]

theorem lookup_store {t : PowerTable} (ht : Shaped t) {index : Nat} (hi : index < 2 ^ 32)
    (power : Natural) (j : Nat) :
    (t.store index power).2.lookup j =
      if j = index then (t.lookup j).or (some power) else t.lookup j := by
  have hsame : locate j = locate index ↔ j = index := ⟨locate_injective, congrArg locate⟩
  rw [lookup_eq, lookup_eq, stored?_store ht hi]
  simp only [hsame]

theorem store_shaped {t : PowerTable} (ht : Shaped t) (index : Nat) (power : Natural) :
    Shaped (t.store index power).2 := by
  constructor
  · rw [store, Array.size_modify]
    exact ht.segments_size
  · intro segment slots hslots
    rw [store, Array.getElem?_modify] at hslots
    by_cases hseg : (locate index).segment = segment
    · rw [if_pos hseg, Option.map_eq_some_iff] at hslots
      obtain ⟨old, hold, rfl⟩ := hslots
      right
      rw [Array.size_modify, hseg, size_allocate (ht.slots_size segment old hold)]
    · rw [if_neg hseg] at hslots
      exact ht.slots_size segment slots hslots

/-- What the slots hold does not depend on the counter. -/
theorem Holds.setPopulated {t : PowerTable} {n : Nat} (h : Holds t n) (populated : Nat) :
    Holds { t with populated := populated } n :=
  ⟨⟨h.shaped.segments_size, h.shaped.slots_size⟩, h.lookup_value⟩

/-! ## Filling -/

theorem lookup_of_lt {t : PowerTable} {n i : Nat} (ht : Holds t n) (hi : i < n) :
    ∃ power, t.lookup i = some power ∧ power.value = 10 ^ i := by
  have h := ht.lookup_value i
  rw [if_pos hi, Option.map_eq_some_iff] at h
  exact h

theorem lookup_of_le {t : PowerTable} {n i : Nat} (ht : Holds t n) (hi : n ≤ i) :
    t.lookup i = none := by
  have h := ht.lookup_value i
  rw [if_neg (not_lt.mpr hi), Option.map_eq_none_iff] at h
  exact h

theorem store_of_empty {t : PowerTable} {index : Nat} (h : t.lookup index = none)
    (power : Natural) : (t.store index power).1 = power := by
  show (t.lookup index).getD power = power
  rw [h, Option.getD_none]

theorem store_holds {t : PowerTable} {n : Nat} (ht : Holds t n) (hn : n < 2 ^ 32)
    {power : Natural} (hp : power.value = 10 ^ n) : Holds (t.store n power).2 (n + 1) := by
  refine ⟨store_shaped ht.shaped n power, ?_⟩
  intro i
  have hi := ht.lookup_value i
  rw [lookup_store ht.shaped hn]
  by_cases heq : i = n
  · subst heq
    rw [if_neg (lt_irrefl i), Option.map_eq_none_iff] at hi
    simp [hi, hp]
  · rw [if_neg heq, hi]
    have hlt : i < n + 1 ↔ i < n := by omega
    simp only [hlt]

theorem fill_succ (t : PowerTable) (last : Natural) (index count : Nat) :
    t.fill last index (count + 1) = (t.store index (last.mulLimb 10)).2.fill
      (t.store index (last.mulLimb 10)).1 (index + 1) count := rfl

/-- One step of filling: the slot behind the powers is empty, so it takes the next power. -/
theorem store_next {t : PowerTable} {last : Natural} {n : Nat} (ht : Holds t (n + 1))
    (hlast : last.value = 10 ^ n) (hn : n + 1 < 2 ^ 32) :
    (t.store (n + 1) (last.mulLimb 10)).1.value = 10 ^ (n + 1) ∧
      Holds (t.store (n + 1) (last.mulLimb 10)).2 (n + 1 + 1) := by
  have hnext : (last.mulLimb 10).value = 10 ^ (n + 1) := by
    rw [Natural.value_mulLimb, hlast, pow_succ]
    rfl
  rw [store_of_empty (lookup_of_le ht le_rfl)]
  exact ⟨hnext, store_holds ht hn hnext⟩

theorem fill_holds (count : Nat) :
    ∀ (t : PowerTable) (last : Natural) (n : Nat), Holds t (n + 1) → last.value = 10 ^ n →
      n + 1 + count ≤ 2 ^ 32 →
      (t.fill last (n + 1) count).1.value = 10 ^ (n + count) ∧
        Holds (t.fill last (n + 1) count).2 (n + 1 + count) := by
  induction count with
  | zero =>
    intro t last n ht hlast _
    exact ⟨hlast, ht⟩
  | succ count ih =>
    intro t last n ht hlast hmost
    obtain ⟨hnext, hstored⟩ := store_next ht hlast (by omega)
    obtain ⟨hvalue, hholds⟩ := ih _ _ (n + 1) hstored hnext (by omega)
    rw [fill_succ]
    constructor
    · rw [hvalue]
      congr 1
      omega
    · rw [show n + 1 + (count + 1) = n + 1 + 1 + count by omega]
      exact hholds

/-- Asking for a power that is missing fills the table up to it. -/
theorem extendTo_filled {t : PowerTable} (ht : Filled t) {index : Nat}
    (hle : t.populated ≤ index) (hi : index < 2 ^ 32) :
    (t.extendTo index).1.value = 10 ^ index ∧ (t.extendTo index).2.populated = index + 1 ∧
      Filled (t.extendTo index).2 := by
  have hleast := ht.least
  have hlt : t.populated - 1 < t.populated := by omega
  obtain ⟨last, hlookup, hlast⟩ := lookup_of_lt ht.holds hlt
  have hpopulated : t.populated - 1 + 1 = t.populated := by omega
  have hfill := fill_holds (index + 1 - t.populated) t last (t.populated - 1)
  rw [hpopulated] at hfill
  obtain ⟨hvalue, hholds⟩ := hfill ht.holds hlast (by omega)
  rw [show t.populated - 1 + (index + 1 - t.populated) = index by omega] at hvalue
  rw [show t.populated + (index + 1 - t.populated) = index + 1 by omega] at hholds
  simp only [extendTo, hlookup]
  refine ⟨hvalue, trivial, hholds.setPopulated _, ?_, ?_⟩
  · show 20 ≤ index + 1
    omega
  · show index + 1 ≤ 2 ^ 32
    omega

/-- From a filled table the answer is the power itself, and the table grows no more than up to
it. -/
theorem get_filled {t : PowerTable} (ht : Filled t) (exponent : UInt32) :
    (t.get exponent).1.value = 10 ^ exponent.toNat ∧
      (t.get exponent).2.populated = max t.populated (exponent.toNat + 1) ∧
      Filled (t.get exponent).2 := by
  have hexponent : exponent.toNat < 2 ^ 32 := exponent.toNat_lt
  unfold get
  by_cases hlt : exponent.toNat < t.populated
  · obtain ⟨power, hlookup, hvalue⟩ := lookup_of_lt ht.holds hlt
    rw [hlookup]
    exact ⟨hvalue, (max_eq_left hlt).symm, ht⟩
  · have hle : t.populated ≤ exponent.toNat := not_lt.mp hlt
    rw [lookup_of_le ht.holds hle]
    obtain ⟨hvalue, hpopulated, hfilled⟩ := extendTo_filled ht hle hexponent
    exact ⟨hvalue, by rw [hpopulated, max_eq_right (by omega)], hfilled⟩

/-! ## The new table -/

theorem blank_holds : Holds blank 0 := by
  have hslots : ∀ (segment : Nat) (slots : Array (Option Natural)),
      blank.segments[segment]? = some slots → slots = #[] := by
    intro segment slots h
    rw [blank, Array.getElem?_replicate] at h
    split at h
    · exact (Option.some.inj h).symm
    · cases h
  refine ⟨⟨rfl, fun segment slots h => .inl (hslots segment slots h)⟩, ?_⟩
  intro i
  rw [lookup_eq, stored?]
  cases h : blank.segments[(locate i).segment]? with
  | none => rfl
  | some slots =>
    rw [hslots _ _ h]
    simp

theorem foldl_store_holds (powers : List UInt64) :
    ∀ (t : PowerTable) (n : Nat), Holds t n → n + powers.length ≤ 2 ^ 32 →
      (∀ k, ∀ word ∈ powers[k]?, word.toNat = 10 ^ (n + k)) →
      Holds ((powers.zipIdx n).foldl (fun t p => (t.store p.2 (Natural.ofUInt64 p.1)).2) t)
        (n + powers.length) := by
  induction powers with
  | nil =>
    intro t n ht _ _
    exact ht
  | cons word powers ih =>
    intro t n ht hmost hpowers
    rw [List.length_cons] at hmost ⊢
    have hword : (Natural.ofUInt64 word).value = 10 ^ n := by
      rw [Natural.value_ofUInt64]
      exact hpowers 0 word rfl
    rw [List.zipIdx_cons, List.foldl_cons,
      show n + (powers.length + 1) = n + 1 + powers.length by omega]
    apply ih _ _ (store_holds ht (by omega) hword) (by omega)
    intro k word' hk
    rw [hpowers (k + 1) word' (by simpa using hk)]
    congr 1
    omega

theorem toNat_compactPower {exponent : Nat} {word : UInt64}
    (h : compactPowers[exponent]? = some word) : word.toNat = 10 ^ exponent := by
  have hlt : exponent < 20 := by
    by_contra hge
    rw [List.getElem?_eq_none (by simpa [compactPowers] using hge)] at h
    cases h
  interval_cases exponent <;> cases h <;> rfl

theorem new_filled : Filled new := by
  have hpowers : ∀ k, ∀ word ∈ compactPowers[k]?, word.toNat = 10 ^ (0 + k) := by
    intro k word hk
    rw [Nat.zero_add]
    exact toNat_compactPower hk
  have h := foldl_store_holds compactPowers blank 0 blank_holds (by decide) hpowers
  rw [Nat.zero_add] at h
  have hpopulated : new.populated = 20 := rfl
  refine ⟨?_, hpopulated ▸ le_rfl, hpopulated ▸ by norm_num⟩
  unfold new
  exact h.setPopulated _

theorem Reachable.filled {t : PowerTable} (h : Reachable t) : Filled t := by
  induction h with
  | new => exact new_filled
  | get _ exponent ih => exact (get_filled ih exponent).2.2

end PowerTable
end KeyOrder
