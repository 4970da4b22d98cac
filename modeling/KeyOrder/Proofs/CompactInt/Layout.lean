import KeyOrder.Proofs.CompactInt.RoundTrip

/-!
# KeyOrder.Proofs.CompactInt.Layout

The layout of `KeyOrder.CompactInt` over all integers, and what the reader makes of it.

* `Layout bytes k`      — `bytes` are laid out for the integer `k`, of any size.
* `Layout.negative_iff` — the head tells the sign of `k`.
* `Layout.spells`, `Spells.layout` — what is laid out for `k` spells `k` modulo `2^64`, and there
  are no other spellings.

A payload of fewer than eight bytes leaves room for the sign (`Layout.fits`). One of eight bytes
does not, and then an integer may be read that is not the one laid out, and not of the sign that
the head tells (`read_not_exact`).
-/

namespace KeyOrder
namespace CompactInt

inductive Layout : Bytes → ℤ → Prop where
  | inline (head : Int8) (h : -112 ≤ head) : Layout [head.toUInt8] head.toInt
  | plain (payload : Bytes) (hpos : 0 < payload.length) (h : payload.length ≤ 8) :
    Layout ((Int8.ofInt (-112 - payload.length)).toUInt8 :: payload) payload.value
  | complement (payload : Bytes) (hpos : 0 < payload.length) (h : payload.length ≤ 8) :
    Layout ((Int8.ofInt (-120 - payload.length)).toUInt8 :: payload) (-(payload.value + 1))

theorem ofInt_complement (n : Nat) : Int64.ofInt (-(n + 1)) = ~~~Int64.ofNat n := by
  rw [neg_add, ← sub_eq_add_neg, Int64.ofInt_sub, Int64.ofInt_neg, Int64.ofInt_eq_ofNat,
    Int64.not_eq_neg_sub]
  rfl

namespace Layout

variable {bytes : Bytes} {k : ℤ}

theorem negative_iff (h : Layout bytes k) :
    ∃ (head : Int8) (payload : Bytes), bytes = head.toUInt8 :: payload ∧
      (isNegative head = true ↔ k < 0) := by
  cases h with
  | inline head hhead =>
    refine ⟨head, [], rfl, ?_⟩
    have hlow : ¬head < -120 := by
      rw [Int8.lt_iff_toInt_lt]
      have hle : -112 ≤ head.toInt := Int8.le_iff_toInt_le.mp hhead
      show ¬head.toInt < -120
      omega
    simp [isNegative, hlow, hhead, Int8.lt_iff_toInt_lt]
  | plain payload hpos h8 =>
    refine ⟨_, payload, rfl, ?_⟩
    rw [(plain_head hpos h8).2]
    simp
  | complement payload hpos h8 =>
    refine ⟨_, payload, rfl, ?_⟩
    rw [(complement_head hpos h8).2]
    simp only [true_iff]
    omega

theorem spells (h : Layout bytes k) : Spells bytes (Int64.ofInt k) := by
  cases h with
  | inline head hhead =>
    rw [Int64.ofInt_int8ToInt]
    exact .inline head hhead
  | plain payload hpos h8 =>
    rw [Int64.ofInt_eq_ofNat]
    exact .plain payload hpos h8
  | complement payload hpos h8 =>
    rw [ofInt_complement]
    exact .complement payload hpos h8

/-- A payload of fewer than eight bytes is laid out for a 64-bit integer. -/
theorem fits (h : Layout bytes k) (hlength : bytes.length ≤ 8) : -2 ^ 63 ≤ k ∧ k < 2 ^ 63 := by
  cases h with
  | inline head hhead =>
    have hleast : -128 ≤ head.toInt := head.le_toInt
    have hmost : head.toInt < 128 := head.toInt_lt
    omega
  | plain payload hpos h8 =>
    have hlt := value_lt_of_length_le (Nat.le_of_succ_le_succ hlength)
    omega
  | complement payload hpos h8 =>
    have hlt := value_lt_of_length_le (Nat.le_of_succ_le_succ hlength)
    omega

end Layout

theorem Spells.layout {bytes : Bytes} {v : Int64} (h : Spells bytes v) :
    ∃ k, Layout bytes k ∧ v = Int64.ofInt k := by
  cases h with
  | inline head hhead => exact ⟨_, .inline head hhead, (Int64.ofInt_int8ToInt head).symm⟩
  | plain payload hpos h8 => exact ⟨_, .plain payload hpos h8, Int64.ofInt_eq_ofNat.symm⟩
  | complement payload hpos h8 =>
    exact ⟨_, .complement payload hpos h8, (ofInt_complement payload.value).symm⟩

theorem toInt_ofInt_eq_iff {k : ℤ} : (Int64.ofInt k).toInt = k ↔ -2 ^ 63 ≤ k ∧ k < 2 ^ 63 := by
  constructor
  · intro h
    have hleast : -2 ^ 63 ≤ (Int64.ofInt k).toInt := Int64.le_toInt _
    have hmost : (Int64.ofInt k).toInt < 2 ^ 63 := Int64.toInt_lt _
    omega
  · rintro ⟨hleast, hmost⟩
    exact Int64.toInt_ofInt_of_le hleast hmost

/-- What is laid out for an integer is read as that integer modulo `2^64`, and whatever is read is
laid out for an integer of the sign that the head tells. It is read as itself if and only if it has
64 bits, as it has after a head that is followed by fewer than eight bytes. -/
theorem read_layout (c : Cursor) :
    (∀ (bytes rest : Bytes) (k : ℤ), Layout bytes k → c.rest = bytes ++ rest →
      read c = (.ok (Int64.ofInt k), c.advance bytes.length)) ∧
    ∀ (c' : Cursor) (v : Int64), read c = (.ok v, c') →
      ∃ (head : Int8) (payload rest : Bytes) (k : ℤ),
        c.rest = head.toUInt8 :: payload ++ rest ∧ c' = c.advance (payload.length + 1) ∧
        Layout (head.toUInt8 :: payload) k ∧ (isNegative head = true ↔ k < 0) ∧
        v.toInt = k.bmod (2 ^ 64) ∧ (v.toInt = k ↔ -2 ^ 63 ≤ k ∧ k < 2 ^ 63) ∧
        (payload.length < 8 → v.toInt = k) := by
  refine ⟨fun bytes rest k h hrest => h.spells.reads c rest hrest, ?_⟩
  intro c' v hv
  obtain ⟨bytes, rest, hrest, rfl, hspells⟩ := parses c v c' hv
  obtain ⟨k, hlayout, rfl⟩ := hspells.layout
  obtain ⟨head, payload, rfl, hsign⟩ := hlayout.negative_iff
  refine ⟨head, payload, rest, k, hrest, rfl, hlayout, hsign, Int64.toInt_ofInt,
    toInt_ofInt_eq_iff, ?_⟩
  intro hshort
  exact toInt_ofInt_eq_iff.mpr (hlayout.fits hshort)

/-- The least integer of 64 bits, and the one below it, which is read as the greatest. -/
theorem read_layout_least :
    (read (.start [0x80, 0x7f, 0xff, 0xff, 0xff, 0xff, 0xff, 0xff, 0xff])).1 =
      .ok (Int64.ofInt (-2 ^ 63)) ∧
    (read (.start [0x80, 0x80, 0, 0, 0, 0, 0, 0, 0])).1 = .ok (Int64.ofInt (-2 ^ 63 - 1)) ∧
    ∃ bytes k, Layout bytes k ∧ k < 0 ∧ Int64.maxValue.toInt = k.bmod (2 ^ 64) := by
  have hleast := (read_layout (.start _)).1 _ [] _
    (.complement [0x7f, 0xff, 0xff, 0xff, 0xff, 0xff, 0xff, 0xff] (by decide) (by decide)) rfl
  have hbelow := (read_layout (.start _)).1 _ [] _
    (.complement [0x80, 0, 0, 0, 0, 0, 0, 0] (by decide) (by decide)) rfl
  refine ⟨congrArg Prod.fst hleast, congrArg Prod.fst hbelow, ?_⟩
  have hgreatest : read (.start [0x80, 0x80, 0, 0, 0, 0, 0, 0, 0]) =
      (.ok Int64.maxValue, (Cursor.start [0x80, 0x80, 0, 0, 0, 0, 0, 0, 0]).advance 9) := by
    rfl
  obtain ⟨head, payload, rest, k, hrest, -, hlayout, hsign, hmod, -⟩ :=
    (read_layout _).2 _ _ hgreatest
  have hhead : (0x80 : UInt8) = head.toUInt8 := (List.cons.inj hrest).1
  have hnegative : isNegative head = true := by
    rw [← Int8.toInt8_toUInt8 head, ← hhead]
    decide
  exact ⟨_, k, hlayout, hsign.mp hnegative, hmod⟩

/-- After a head that tells eight bytes the integer need not be what is read: `2^64 - 1` is read as
`-1`. -/
theorem read_not_exact :
    ¬∀ (c : Cursor) (bytes rest : Bytes) (v : Int64) (k : ℤ), c.rest = bytes ++ rest →
      read c = (.ok v, c.advance bytes.length) → Layout bytes k → v.toInt = k := by
  intro hexact
  have hlayout : Layout [0x88, 0xff, 0xff, 0xff, 0xff, 0xff, 0xff, 0xff, 0xff] (2 ^ 64 - 1) :=
    .plain [0xff, 0xff, 0xff, 0xff, 0xff, 0xff, 0xff, 0xff] (by decide) (by decide)
  have hread : read (.start [0x88, 0xff, 0xff, 0xff, 0xff, 0xff, 0xff, 0xff, 0xff]) =
      (.ok (-1),
        (Cursor.start [0x88, 0xff, 0xff, 0xff, 0xff, 0xff, 0xff, 0xff, 0xff]).advance 9) := by
    rfl
  have hvalue := hexact _ _ [] (-1) _ rfl hread hlayout
  revert hvalue
  decide

end CompactInt
end KeyOrder
