import KeyOrder.Proofs.Field.Written

/-!
# KeyOrder.Proofs.Field.FloatPlace

Floating-point fields are ordered by their bit patterns alone. The place of a pattern is on top if
it is not a number, the pattern itself if its sign is clear, and otherwise one less than the
negated rest of it.

* `compare_place`      — patterns are in the order of their places: the order of their numbers.
* `place_eq_iff`       — only what is not a number shares its place.
* `place_widen`        — widening keeps places apart and in order.
* `compare_floating`   — fields of both formats are compared by places, NULL below all.
-/

namespace KeyOrder

open Decoder (Reads)

namespace FloatFormat

/-! ## Places -/

section Places

variable (F : FloatFormat)

def place (bits : Nat) : WithTop Int :=
  if F.isNaN bits then ⊤
  else if F.negative bits then ((-F.magnitude bits - 1 : Int) : WithTop Int)
  else ((bits : Int) : WithTop Int)

theorem place_of_isNaN {bits : Nat} (h : F.isNaN bits = true) : F.place bits = ⊤ := if_pos h

theorem magnitude_of_unsigned {bits : Nat} (h : F.negative bits = false) :
    F.magnitude bits = bits :=
  Nat.mod_eq_of_lt (not_le.mp (of_decide_eq_false h))

theorem key_of_isNaN {bits : Nat} (h : F.isNaN bits = true) : F.key bits = F.infinity + 1 :=
  if_pos h

theorem key_lt {bits : Nat} (h : F.isNaN bits = false) : F.key bits < F.infinity + 1 := by
  unfold key
  rw [h]
  exact F.key_lt_of_number h

theorem place_of_number {bits : Nat} (h : F.isNaN bits = false) :
    F.place bits = ((F.key bits : Int) : WithTop Int) := by
  unfold place key
  rw [h]
  cases hsign : F.negative bits with
  | true => rfl
  | false =>
    rw [F.magnitude_of_unsigned hsign]
    rfl

/-- The order of places is that of patterns. -/
theorem compare_place (a b : Nat) : compare (F.place a) (F.place b) = F.order a b := by
  rw [order_eq]
  cases ha : F.isNaN a with
  | true =>
    rw [F.place_of_isNaN ha, F.key_of_isNaN ha]
    cases hb : F.isNaN b with
    | true =>
      rw [F.place_of_isNaN hb, F.key_of_isNaN hb]
      exact compare_congr (by simp) (by simp)
    | false =>
      have hlt := F.key_lt hb
      rw [F.place_of_number hb]
      exact compare_congr (by simp [hlt.le]) (by simp [hlt.ne'])
  | false =>
    rw [F.place_of_number ha]
    cases hb : F.isNaN b with
    | true =>
      have hlt := F.key_lt ha
      rw [F.place_of_isNaN hb, F.key_of_isNaN hb]
      exact compare_congr (by simp [hlt]) (by simp [hlt.ne])
    | false =>
      rw [F.place_of_number hb]
      exact compare_congr WithTop.coe_lt_coe WithTop.coe_inj

theorem key_injective {a b : Nat} (ha : a < 2 * 2 ^ (F.fractionBits + F.exponentBits))
    (hb : b < 2 * 2 ^ (F.fractionBits + F.exponentBits)) (hna : F.isNaN a = false)
    (hnb : F.isNaN b = false) (h : F.key a = F.key b) : a = b := by
  unfold key negative magnitude at h
  rw [hna, hnb] at h
  generalize 2 ^ (F.fractionBits + F.exponentBits) = top at ha hb h
  simp only [Bool.false_eq_true, if_false, decide_eq_true_eq] at h
  -- the sign is a carry out of the rest
  have hmod : ∀ n, n < 2 * top → n % top = if top ≤ n then n - top else n := by
    intro n hn
    split
    · rw [Nat.mod_eq_sub_mod ‹_›, Nat.mod_eq_of_lt (by omega)]
    · exact Nat.mod_eq_of_lt (by omega)
  rw [hmod a ha, hmod b hb] at h
  split at h <;> split at h <;> omega

theorem place_eq_iff {a b : Nat} (ha : a < 2 * 2 ^ (F.fractionBits + F.exponentBits))
    (hb : b < 2 * 2 ^ (F.fractionBits + F.exponentBits)) :
    F.place a = F.place b ↔ a = b ∨ F.isNaN a = true ∧ F.isNaN b = true := by
  constructor
  · intro h
    cases hna : F.isNaN a with
    | true =>
      cases hnb : F.isNaN b with
      | true => exact .inr ⟨rfl, rfl⟩
      | false =>
        rw [F.place_of_isNaN hna, F.place_of_number hnb] at h
        exact absurd h WithTop.top_ne_coe
    | false =>
      cases hnb : F.isNaN b with
      | true =>
        rw [F.place_of_number hna, F.place_of_isNaN hnb] at h
        exact absurd h WithTop.coe_ne_top
      | false =>
        rw [F.place_of_number hna, F.place_of_number hnb] at h
        exact .inl (F.key_injective ha hb hna hnb (WithTop.coe_inj.mp h))
  · rintro (rfl | ⟨hna, hnb⟩)
    · rfl
    · rw [F.place_of_isNaN hna, F.place_of_isNaN hnb]

end Places

/-! ## Widening -/

/-- Widened patterns are in the same order, and share a place only if they did before. -/
theorem place_widen (a b : UInt32) :
    compare (double.place (FloatBits.widen a).toNat) (double.place (FloatBits.widen b).toNat) =
      compare (single.place a.toNat) (single.place b.toNat) := by
  rw [compare_place, compare_place]
  exact FloatBits.widen_order a b

end FloatFormat

namespace FieldType

open FloatFormat (single)

/-! ## Fields -/

/-- Wherever two fields of the type stand, their patterns are compared by `place`, with NULL below
them; the comparison ends behind the fields and leaves the table alone. -/
def ComparesBy {α : Type} (t : FieldType) (value : α → FieldValue) (place : α → WithTop Int) :
    Prop :=
  ∀ (x y : Option α) (bytes bytes' rest rest' : Bytes) (w : Walk),
    t.Writes (x.map value) bytes → t.Writes (y.map value) bytes' →
    w.left.rest = bytes ++ rest → w.right.rest = bytes' ++ rest' →
    t.compare w = (.ok (nullFirst (compareOn place) x y),
      ⟨w.left.advance bytes.length, w.right.advance bytes'.length, w.powers⟩)

/-- It is enough that present values are compared so. -/
theorem comparesBy_of_order {α : Type} {t : FieldType} {value : α → FieldValue}
    {place : α → WithTop Int} (content : α → t.Content)
    (hcontent : ∀ a v, Holds t a (value v) → a = content v)
    (horder : ∀ a b powers,
      t.order (content a) (content b) powers = (compareOn place a b, powers)) :
    t.ComparesBy value place := by
  intro x y bytes bytes' rest rest' w hx hy hleft hright
  have hread : ∀ {z : Option α} {bytes : Bytes}, t.Writes (z.map value) bytes →
      Reads t.read bytes (z.map content) := by
    intro z bytes hz
    obtain ⟨c, hreads, -, hstands⟩ := hz.reads
    cases z with
    | none =>
      cases hstands
      exact hreads
    | some v =>
      cases hstands with
      | value hholds =>
        rw [hcontent _ v hholds] at hreads
        exact hreads
  have hnull : t.orderNullable (x.map content) (y.map content) w.powers =
      (nullFirst (compareOn place) x y, w.powers) := by
    cases x with
    | none => cases y <;> rfl
    | some a =>
      cases y with
      | none => rfl
      | some b => exact horder a b w.powers
  have hcompare : t.compare w =
      (.ok (t.orderNullable (x.map content) (y.map content) w.powers).1, ⟨_, _, _⟩) :=
    Walk.compareNext_ok (hread hx w.left rest hleft) (hread hy w.right rest' hright)
  rw [hcompare, hnull]

theorem float_comparesBy : float.ComparesBy .float fun bits => single.place bits.toNat := by
  refine comparesBy_of_order id ?_ ?_
  · intro a v h
    cases h
    rfl
  · intro a b powers
    show (FloatBits.compare (FloatBits.widen a) (FloatBits.widen b), powers) = _
    rw [FloatBits.compare_eq, ← FloatFormat.compare_place, FloatFormat.place_widen]
    rfl

theorem double_comparesBy :
    double.ComparesBy .double fun bits => FloatFormat.double.place bits.toNat := by
  refine comparesBy_of_order id ?_ ?_
  · intro a v h
    cases h
    rfl
  · intro a b powers
    show (FloatBits.compare a b, powers) = _
    rw [FloatBits.compare_eq, ← FloatFormat.compare_place]
    rfl

/-- Floating-point fields are ordered by the places of their patterns, which is the order of the
numbers that the patterns stand for. The 64 bits that a 32-bit pattern is compared in do not change
its order, and of two patterns that differ only those that are not numbers are equal. -/
theorem compare_floating :
    float.ComparesBy .float (fun bits => single.place bits.toNat) ∧
    double.ComparesBy .double (fun bits => FloatFormat.double.place bits.toNat) ∧
    (∀ (F : FloatFormat) (a b : Nat), compare (F.place a) (F.place b) = F.order a b) ∧
    (∀ a b : UInt32,
      compare (FloatFormat.double.place (FloatBits.widen a).toNat)
          (FloatFormat.double.place (FloatBits.widen b).toNat) =
        compare (single.place a.toNat) (single.place b.toNat)) ∧
    (∀ a b : UInt32, single.place a.toNat = single.place b.toNat ↔
      a = b ∨ single.isNaN a.toNat = true ∧ single.isNaN b.toNat = true) ∧
    ∀ a b : UInt64, FloatFormat.double.place a.toNat = FloatFormat.double.place b.toNat ↔
      a = b ∨ FloatFormat.double.isNaN a.toNat = true ∧ FloatFormat.double.isNaN b.toNat = true := by
  refine ⟨float_comparesBy, double_comparesBy, FloatFormat.compare_place, FloatFormat.place_widen,
    ?_, ?_⟩
  · intro a b
    rw [← UInt32.toNat_inj]
    exact single.place_eq_iff a.toNat_lt b.toNat_lt
  · intro a b
    rw [← UInt64.toNat_inj]
    exact FloatFormat.double.place_eq_iff a.toNat_lt b.toNat_lt

/-- The two subnormals nearest to zero below and above it, and infinity against a pattern with its
sign set that is not a number. -/
theorem compare_floating_edges :
    (float.compare (Walk.start (FieldValue.float 0x80000001).encode
      (FieldValue.float 1).encode PowerTable.new)).1 = .ok .lt ∧
    (double.compare (Walk.start (FieldValue.double 0x7ff0000000000000).encode
      (FieldValue.double 0xfff0000000000001).encode PowerTable.new)).1 = .ok .lt := by
  constructor
  · rw [compare_floating.1 (some 0x80000001) (some 1) _ _ [] [] _ (.value _ rfl trivial)
      (.value _ rfl trivial) (List.append_nil _).symm (List.append_nil _).symm]
    decide
  · rw [compare_floating.2.1 (some 0x7ff0000000000000) (some 0xfff0000000000001) _ _ [] [] _
      (.value _ rfl trivial) (.value _ rfl trivial) (List.append_nil _).symm
      (List.append_nil _).symm]
    decide

end FieldType
end KeyOrder
