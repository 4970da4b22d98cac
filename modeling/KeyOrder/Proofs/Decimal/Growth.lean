import KeyOrder.Proofs.Decimal.Encoded
import KeyOrder.Proofs.Decimal.Requests

/-!
# KeyOrder.Proofs.Decimal.Growth

How far a comparison makes the table grow. The bounds on the binary lengths keep far exponents away
from the table: a power is asked for only where it is about as long as the significand it is to be
compared with.

* `Grows`        — the two decimals need a power that not every table has.
* `size_compare` — the size after a comparison, from that of the requests.
* `compare_growth` — the whole account, for decimals and for what is read of two buffers.
-/

namespace KeyOrder

open PowerTable (grown grown_nil grown_cons Filled Reachable)

namespace Decimal

/-- The gap of two exponents, whichever is the greater one. -/
def spread (a b : Decimal) : Nat := (b.exponent.toInt - a.exponent.toInt).natAbs

/-- Whether the significand is kept as a natural. -/
def isWide : Decimal → Bool
  | compact _ => false
  | wide _ => true

/-- Neither number is zero, and the binary length of `a` is within the bounds for that of
`b * 10^gap`. -/
def Near (a b gap : Nat) : Prop :=
  a ≠ 0 ∧ b ≠ 0 ∧ bitLength b + 33 * gap / 10 ≤ bitLength a + 1 ∧
    bitLength a ≤ bitLength b + (10 * gap + 2) / 3

instance (a b gap : Nat) : Decidable (Near a b gap) := inferInstanceAs (Decidable (_ ∧ _))

/-- What makes a comparison need a power that not every table has. -/
def Grows (low high : Decimal) : Prop :=
  20 ≤ spread low high ∧ low.isWide = true ∧
    Near low.significand high.significand (spread low high)

instance (low high : Decimal) : Decidable (Grows low high) := inferInstanceAs (Decidable (_ ∧ _))

/-! ## The size of the table -/

theorem naturalRequests_eq {a b : Natural} (ha : a.Bounded) (hb : b.Bounded) {gap : UInt32}
    (hgap : 9 < gap.toNat) :
    naturalRequests a b gap = if Near a.value b.value gap.toNat then [gap] else [] := by
  have hlimb : ¬gap ≤ 9 := by
    rw [UInt32.le_iff_toNat_le]
    exact not_le.mpr hgap
  unfold naturalRequests
  by_cases hazero : a.isZero = true
  · rw [if_neg (fun h : Near _ _ _ => h.1 ((Natural.isZero_iff a).mp hazero))]
    exact if_pos (.inr (.inl hazero))
  by_cases hbzero : b.isZero = true
  · rw [if_neg (fun h : Near _ _ _ => h.2.1 ((Natural.isZero_iff b).mp hbzero))]
    exact if_pos (.inr (.inr (.inl hbzero)))
  have hapos := Natural.value_pos hazero
  have hbpos := Natural.value_pos hbzero
  have hbbits : 0 < b.bits.toUInt64.toNat := by
    rw [hb.toNat_bits]
    exact bitLength_pos hbpos
  obtain ⟨hleast, hgreatest⟩ := toNat_scaledBits gap hbbits hb.toNat_bits_lt
  simp only [hlimb, hazero, hbzero, UInt64.lt_iff_toNat_lt, hleast, hgreatest, ha.toNat_bits,
    hb.toNat_bits, Bool.false_eq_true, false_or]
  rw [hb.toNat_bits] at hbbits
  by_cases hnear : Near a.value b.value gap.toNat
  · obtain ⟨-, -, hfloor, hceil⟩ := id hnear
    rw [if_pos hnear, if_neg]
    omega
  · rw [if_neg hnear, if_pos]
    by_contra hwithin
    exact hnear ⟨hapos.ne', hbpos.ne', by omega, by omega⟩

/-- Only a power beyond the first twenty makes a table grow. -/
theorem grown_naturalRequests {a b : Natural} (ha : a.Bounded) (hb : b.Bounded) (gap : UInt32)
    {size : Nat} (hsize : 20 ≤ size) :
    grown size (naturalRequests a b gap) =
      if 20 ≤ gap.toNat ∧ Near a.value b.value gap.toNat then max size (gap.toNat + 1)
      else size := by
  by_cases hnine : 9 < gap.toNat
  · have hrequests := naturalRequests_eq ha hb hnine
    by_cases hnear : Near a.value b.value gap.toNat
    · rw [hrequests, if_pos hnear, grown_cons, grown_nil]
      by_cases hgap : 20 ≤ gap.toNat
      · rw [if_pos ⟨hgap, hnear⟩]
      · rw [if_neg (fun h => hgap h.1), max_eq_left (by omega)]
    · rw [hrequests, if_neg hnear, if_neg (fun h => hnear h.2), grown_nil]
  · have hlimb : gap ≤ 9 := by
      rw [UInt32.le_iff_toNat_le]
      exact not_lt.mp hnine
    rw [naturalRequests_of_le hlimb, if_neg (fun h => hnine (by omega))]
    rfl

theorem grown_wordRequests {a : Natural} (ha : a.Bounded) (b : UInt64) (gap : UInt32)
    {size : Nat} (hsize : 20 ≤ size) :
    grown size (wordRequests a b gap) =
      if 20 ≤ gap.toNat ∧ Near a.value b.toNat gap.toNat then max size (gap.toNat + 1)
      else size := by
  have hnatural := grown_naturalRequests ha (Natural.bounded_ofUInt64 b) gap hsize
  rw [Natural.value_ofUInt64] at hnatural
  unfold wordRequests
  cases hproduct : (compactPower? gap).bind (mulWord? b) with
  | none => exact hnatural
  | some product =>
    -- a product that is a word is one with a compact power
    obtain ⟨scale, hscale, -⟩ := Option.bind_eq_some_iff.mp hproduct
    have hgap : gap.toNat < 20 := (List.getElem?_eq_some_iff.mp hscale).1
    rw [if_neg (fun h => absurd h.1 (not_le.mpr hgap))]
    rfl

theorem not_grows_compact (a : CompactDecimal) (b : Decimal) : ¬Grows (compact a) b :=
  fun h => Bool.false_ne_true h.2.1

theorem grows_wide (a : WideDecimal) (b : Decimal) :
    Grows (wide a) b ↔
      20 ≤ spread (wide a) b ∧ Near a.significand.value b.significand (spread (wide a) b) :=
  ⟨fun h => ⟨h.1, h.2.2⟩, fun h => ⟨h.1, rfl, h.2⟩⟩

theorem grown_scaledRequests {a b : Decimal} (ha : a.Bounded) (hb : b.Bounded)
    (hle : a.exponent.toInt ≤ b.exponent.toInt) {size : Nat} (hsize : 20 ≤ size) :
    grown size (scaledRequests a b) =
      if Grows a b then max size (spread a b + 1) else size := by
  have hgap : (gap a.exponent b.exponent).toNat = spread a b := by
    rw [toNat_gap, spread]
    omega
  match a, b, ha, hb, hgap with
  | compact a, b, _, _, _ =>
    rw [if_neg (not_grows_compact a b)]
    rfl
  | wide a, wide b, ha, hb, hgap =>
    have hgrown := grown_naturalRequests ha hb (gap (wide a).exponent (wide b).exponent) hsize
    rw [hgap] at hgrown
    exact hgrown.trans (if_congr (grows_wide a (wide b)).symm rfl rfl)
  | wide a, compact b, ha, _, hgap =>
    have hgrown := grown_wordRequests ha b.significand
      (gap (wide a).exponent (compact b).exponent) hsize
    rw [hgap] at hgrown
    exact hgrown.trans (if_congr (grows_wide a (compact b)).symm rfl rfl)

theorem low_le_high (a b : Decimal) : (low a b).exponent.toInt ≤ (high a b).exponent.toInt := by
  rcases lt_or_ge b.exponent.toInt a.exponent.toInt with h | h
  · obtain ⟨hlow, hhigh⟩ := low_high_of_lt h
    rw [hlow, hhigh]
    exact h.le
  · obtain ⟨hlow, hhigh⟩ := low_high_of_le h
    rw [hlow, hhigh]
    exact h

theorem spread_comm (a b : Decimal) : spread b a = spread a b := by
  rw [spread, spread, ← Int.natAbs_neg, neg_sub]

theorem spread_low_high (a b : Decimal) : spread (low a b) (high a b) = spread a b := by
  rcases lt_or_ge b.exponent.toInt a.exponent.toInt with h | h
  · obtain ⟨hlow, hhigh⟩ := low_high_of_lt h
    rw [hlow, hhigh, spread_comm]
  · obtain ⟨hlow, hhigh⟩ := low_high_of_le h
    rw [hlow, hhigh]

theorem bounded_low_high {a b : Decimal} (ha : a.Bounded) (hb : b.Bounded) :
    (low a b).Bounded ∧ (high a b).Bounded := by
  rcases lt_or_ge b.exponent.toInt a.exponent.toInt with h | h
  · obtain ⟨hlow, hhigh⟩ := low_high_of_lt h
    rw [hlow, hhigh]
    exact ⟨hb, ha⟩
  · obtain ⟨hlow, hhigh⟩ := low_high_of_le h
    rw [hlow, hhigh]
    exact ⟨ha, hb⟩

theorem size_compare {a b : Decimal} (ha : a.Bounded) (hb : b.Bounded) {t : PowerTable}
    (ht : Filled t) :
    (a.compare b t).2.size =
      if Grows (low a b) (high a b) then max t.size (spread a b + 1) else t.size := by
  obtain ⟨hlow, hhigh⟩ := bounded_low_high ha hb
  have hleast : 20 ≤ t.size := ht.least
  rw [(compare_asks a b).table ht, PowerTable.size_ask ht, requests,
    grown_scaledRequests hlow hhigh (low_le_high a b) hleast, spread_low_high]

/-- The significand is as long as the power it is compared with. -/
theorem floor_le_of_grows {a b : Decimal} (h : Grows a b) :
    33 * spread a b / 10 ≤ bitLength a.significand := by
  obtain ⟨-, -, -, hb, hfloor, -⟩ := h
  have hpos := bitLength_pos (Nat.pos_of_ne_zero hb)
  omega

theorem floor_le_of_size_ne {a b : Decimal} (ha : a.Bounded) (hb : b.Bounded) {t : PowerTable}
    (ht : Filled t) (h : (a.compare b t).2.size ≠ t.size) :
    33 * spread a b / 10 ≤ bitLength (low a b).significand := by
  rw [size_compare ha hb ht] at h
  by_cases hgrows : Grows (low a b) (high a b)
  · rw [← spread_low_high]
    exact floor_le_of_grows hgrows
  · exact absurd (if_neg hgrows) h

theorem table_compare_comm (a b : Decimal) {t : PowerTable} (ht : Filled t) :
    (b.compare a t).2 = (a.compare b t).2 := by
  rw [(compare_asks b a).table ht, (compare_asks a b).table ht, requests_comm]

end Decimal

/-! ## Decimals in buffers -/

namespace EncodedDecimal

theorem table_compare (d e : EncodedDecimal) {t : PowerTable} (ht : Filled t) :
    (d.compare e t).2 = if d.Alike e then (d.magnitude.compare e.magnitude t).2 else t := by
  rw [(compare_asks d e).table ht, requests, (Decimal.compare_asks _ _).table ht]
  by_cases halike : d.Alike e
  · rw [if_pos halike, if_pos halike]
  · rw [if_neg halike, if_neg halike]
    rfl

variable {a b : Cursor} {t : PowerTable}

theorem powers_of_read {d e : EncodedDecimal} (ht : Filled t) (hd : (read a).1 = .ok (some d))
    (he : (read b).1 = .ok (some e)) :
    (FieldType.decimal.compare ⟨a, b, t⟩).2.powers =
      if d.Alike e then (d.magnitude.compare e.magnitude t).2 else t := by
  rw [← table_compare d e ht]
  exact Walk.powers_compareNext ⟨a, b, t⟩ hd he

/-- What cannot be read and what is NULL asks for nothing, and no more do unlike signs. -/
theorem powers_of_not_alike (ht : Filled t)
    (h : ∀ d e : EncodedDecimal, (read a).1 = .ok (some d) → (read b).1 = .ok (some e) →
      ¬d.Alike e) :
    (FieldType.decimal.compare ⟨a, b, t⟩).2.powers = t := by
  by_cases hread : ∃ x y, (read a).1 = .ok x ∧ (read b).1 = .ok y
  · obtain ⟨x, y, hx, hy⟩ := hread
    match x, y with
    | none, none => exact Walk.powers_compareNext ⟨a, b, t⟩ hx hy
    | none, some e => exact Walk.powers_compareNext ⟨a, b, t⟩ hx hy
    | some d, none => exact Walk.powers_compareNext ⟨a, b, t⟩ hx hy
    | some d, some e => rw [powers_of_read ht hx hy, if_neg (h d e hx hy)]
  · exact Walk.powers_compareNext_of_error ⟨a, b, t⟩ fun x y hx hy => hread ⟨x, y, hx, hy⟩

end EncodedDecimal

namespace Decimal

/-- A comparison leaves the table as it is, unless the exponents are twenty or more apart, the
decimal with the smaller one is a wide one, neither significand is zero, and their binary lengths
leave the order open: then the table is left with the power of the gap, and with all below it. The
other way round the same table is left. Of two buffers, only decimals of one sign that are not zero
reach the table, by their magnitudes. So where a comparison makes the table grow, the power that it
was for is hardly longer than the significand with the smaller exponent. -/
theorem compare_growth {t : PowerTable} (ht : Reachable t) :
    20 ≤ t.size ∧
    (∀ a b : Decimal, a.Bounded → b.Bounded →
      (a.compare b t).2.size =
        (if Grows (low a b) (high a b) then max t.size (spread a b + 1) else t.size) ∧
      (b.compare a t).2 = (a.compare b t).2 ∧
      ((a.compare b t).2.size ≠ t.size →
        33 * spread a b / 10 ≤ bitLength (low a b).significand)) ∧
    (∀ a b : Cursor,
      (∀ d e : EncodedDecimal, (EncodedDecimal.read a).1 = .ok (some d) →
        (EncodedDecimal.read b).1 = .ok (some e) → d.Alike e →
        (FieldType.decimal.compare ⟨a, b, t⟩).2.powers = (d.magnitude.compare e.magnitude t).2) ∧
      ((∀ d e : EncodedDecimal, (EncodedDecimal.read a).1 = .ok (some d) →
        (EncodedDecimal.read b).1 = .ok (some e) → ¬d.Alike e) →
        (FieldType.decimal.compare ⟨a, b, t⟩).2.powers = t)) ∧
    ∀ (a b : Cursor) (d e : EncodedDecimal), (EncodedDecimal.read a).1 = .ok (some d) →
      (EncodedDecimal.read b).1 = .ok (some e) → d.significand.Bounded → e.significand.Bounded →
      (FieldType.decimal.compare ⟨a, b, t⟩).2.powers.size ≠ t.size →
      33 * spread d.magnitude e.magnitude / 10 ≤
        bitLength (low d.magnitude e.magnitude).significand := by
  have hfilled := ht.filled
  refine ⟨hfilled.least, ?_, ?_, ?_⟩
  · intro a b ha hb
    exact ⟨size_compare ha hb hfilled, table_compare_comm a b hfilled,
      floor_le_of_size_ne ha hb hfilled⟩
  · intro a b
    refine ⟨?_, EncodedDecimal.powers_of_not_alike hfilled⟩
    intro d e hd he halike
    rw [EncodedDecimal.powers_of_read hfilled hd he, if_pos halike]
  · intro a b d e hd he hdbounded hebounded hgrows
    rw [EncodedDecimal.powers_of_read hfilled hd he] at hgrows
    by_cases halike : d.Alike e
    · rw [if_pos halike] at hgrows
      exact floor_le_of_size_ne (EncodedDecimal.bounded_magnitude hdbounded)
        (EncodedDecimal.bounded_magnitude hebounded) hfilled hgrows
    · rw [if_neg halike] at hgrows
      exact absurd rfl hgrows

/-- `10^30` as a wide number makes a new table grow when it is compared with `1 * 10^30`. -/
theorem compare_growth_thirty :
    ((wide (WideDecimal.ofBytes
        [0x0c, 0x9f, 0x2c, 0x9c, 0xd0, 0x46, 0x74, 0xed, 0xea, 0x40, 0, 0, 0] 0)).compare
      (compact ⟨1, 30⟩) PowerTable.new).2.size = 31 := by
  have hgrowth := (compare_growth Reachable.new).2.1
    (wide (WideDecimal.ofBytes
      [0x0c, 0x9f, 0x2c, 0x9c, 0xd0, 0x46, 0x74, 0xed, 0xea, 0x40, 0, 0, 0] 0))
    (compact ⟨1, 30⟩) (Natural.bounded_ofBytes (by decide)) trivial
  rw [hgrowth.1, if_pos (by decide)]
  decide

end Decimal
end KeyOrder
