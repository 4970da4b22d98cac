import KeyOrder.Proofs.Decimal.Signed
import KeyOrder.Proofs.Decimal.Spelling
import KeyOrder.Proofs.Field.Walk

/-!
# KeyOrder.Proofs.Decimal.Encoded

Decimals in buffers. `encoded_compare_exact` says that wherever two decimals can be read they are
compared as their numbers, NULL below all, and that the bytes they are written in do not matter:

* `Form number bytes` — the byte strings that stand for one number, in either form, with any
  spelling of the integers, any leading zeros and any of the header bits without a meaning.
* `Form.reads`        — each of them is read as its number.
* `parses_read`       — and nothing else is read.
* `gives_read`        — what is read is no longer than the buffer.
-/

namespace KeyOrder

open Decimal (Answers)
open Decoder (Reads Parses Gives)
open PowerTable (Filled Reachable)

namespace EncodedDecimal

theorem orderNullable_eq {x y : Option EncodedDecimal} (hx : ∀ d ∈ x, d.significand.Bounded)
    (hy : ∀ d ∈ y, d.significand.Bounded) {t : PowerTable} (ht : Filled t) :
    Answers t (compare (number x) (number y)) (FieldType.decimal.orderNullable x y t) := by
  cases x with
  | none =>
    cases y with
    | none => exact .keep (compare_eq_iff_eq.mpr rfl).symm
    | some b => exact .keep (compare_lt_iff_lt.mpr (WithBot.bot_lt_coe _)).symm
  | some a =>
    cases y with
    | none => exact .keep (compare_gt_iff_gt.mpr (WithBot.bot_lt_coe _)).symm
    | some b =>
      have hcoe : compare (number (some a)) (number (some b)) = compare a.toRat b.toRat :=
        compare_congr WithBot.coe_lt_coe WithBot.coe_inj
      rw [hcoe]
      exact compare_eq (hx a rfl) (hy b rfl) ht

/-! ## What can be read -/

theorem gives_readSignificand {buffer : Bytes} (hbuffer : buffer.length < 2 ^ 56)
    (compact : Bool) (unscaled : Int64) :
    Gives (readSignificand compact unscaled) buffer Significand.Bounded := by
  unfold readSignificand
  cases compact with
  | true =>
    by_cases hneg : unscaled < 0
    · simp only [hneg, if_true]
      exact Gives.fail _
    · simp only [hneg, if_true, if_false]
      exact Gives.pure trivial
  | false =>
    by_cases hneg : unscaled < 0
    · simp only [hneg, Bool.false_eq_true, if_true, if_false]
      exact Gives.fail _
    · simp only [hneg, Bool.false_eq_true, if_false]
      exact Gives.bind (Gives.take _) fun bytes hbytes =>
        Gives.pure (lt_of_le_of_lt hbytes hbuffer)

theorem gives_read {buffer : Bytes} (hbuffer : buffer.length < 2 ^ 56) :
    Gives read buffer fun x => ∀ d ∈ x, d.significand.Bounded := by
  apply Gives.bind Gives.byte
  intro header _
  by_cases hnull : header = nullHeader
  · rw [if_pos hnull]
    apply Gives.pure
    intro d hd
    cases hd
  rw [if_neg hnull]
  apply Gives.bind (CompactInt.gives buffer)
  intro scale _
  cases exponentOfScale? scale with
  | none => exact Gives.fail _
  | some exponent =>
    apply Gives.bind (CompactInt.gives buffer)
    intro unscaled _
    apply Gives.bind (gives_readSignificand hbuffer _ _)
    intro significand hbounded
    apply Gives.pure
    intro d hd
    cases hd
    exact hbounded

/-! ## The forms of one number -/

/-- Byte strings that stand for a number, or for NULL. -/
inductive Form : WithBot ℚ → Bytes → Prop where
  | null : Form ⊥ [nullHeader]
  | compact (header : UInt8) (scale unscaled : Bytes) (s u : Int64)
    (hpresent : header ≠ nullHeader) (hform : header &&& compactFlag ≠ 0)
    (hscale : CompactInt.Spells scale s) (hmin : -2 ^ 31 < s.toInt) (hmax : s.toInt ≤ 2 ^ 31)
    (hunscaled : CompactInt.Spells unscaled u) (hnonneg : 0 ≤ u) :
    Form (signed (header &&& plusFlag != 0) u.toInt.toNat (-s.toInt))
      (header :: (scale ++ unscaled))
  | extended (header : UInt8) (scale length magnitude : Bytes) (s n : Int64)
    (hpresent : header ≠ nullHeader) (hform : header &&& compactFlag = 0)
    (hscale : CompactInt.Spells scale s) (hmin : -2 ^ 31 < s.toInt) (hmax : s.toInt ≤ 2 ^ 31)
    (hlength : CompactInt.Spells length n) (hn : n.toInt = magnitude.length) :
    Form (signed (header &&& plusFlag != 0) magnitude.value (-s.toInt))
      (header :: (scale ++ (length ++ magnitude)))

theorem Form.spells {q : WithBot ℚ} {bytes : Bytes} (h : Form q bytes) :
    ∃ x, Spells bytes x ∧ number x = q := by
  cases h with
  | null => exact ⟨none, .null, rfl⟩
  | compact header scale unscaled s u hpresent hform hscale hmin hmax hunscaled hnonneg =>
    obtain ⟨exponent, hexponent, hopening⟩ := exists_opening hpresent hscale hmin hmax
    refine ⟨_, .compact hopening hform hunscaled (Int64.le_iff_toInt_le.mp hnonneg), ?_⟩
    have hvalue : u.toUInt64.toNat = u.toInt.toNat := Int64.toNat_toUInt64_of_le hnonneg
    show ((signed _ u.toUInt64.toNat exponent.toInt : ℚ) : WithBot ℚ) = _
    rw [hexponent, hvalue]
  | extended header scale length magnitude s n hpresent hform hscale hmin hmax hlength hn =>
    obtain ⟨exponent, hexponent, hopening⟩ := exists_opening hpresent hscale hmin hmax
    refine ⟨_, .extended hopening hform hlength hn, ?_⟩
    show ((signed _ _ exponent.toInt : ℚ) : WithBot ℚ) = _
    rw [hexponent]
    rfl

theorem Form.reads {q : WithBot ℚ} {bytes : Bytes} (h : Form q bytes) :
    ∃ x, Reads read bytes x ∧ number x = q := by
  obtain ⟨x, hspells, hnumber⟩ := h.spells
  exact ⟨x, hspells.reads, hnumber⟩

theorem Spells.form {bytes : Bytes} {x : Option EncodedDecimal} (h : Spells bytes x) :
    Form (number x) bytes := by
  cases h with
  | null => exact .null
  | @compact opening unscaled header exponent u h hform hunscaled hnonneg =>
    obtain ⟨scale, s, rfl, hpresent, hscale, hmin, hmax, hexponent⟩ := h.scale
    have hnonneg' : 0 ≤ u := Int64.le_iff_toInt_le.mpr hnonneg
    have hvalue : u.toUInt64.toNat = u.toInt.toNat := Int64.toNat_toUInt64_of_le hnonneg'
    show Form ((signed _ u.toUInt64.toNat exponent.toInt : ℚ) : WithBot ℚ) _
    rw [hexponent, hvalue]
    exact .compact header scale unscaled s u hpresent hform hscale hmin hmax hunscaled hnonneg'
  | @extended opening length magnitude header exponent n h hform hlength hn =>
    obtain ⟨scale, s, rfl, hpresent, hscale, hmin, hmax, hexponent⟩ := h.scale
    show Form ((signed _ (Bytes.value magnitude) exponent.toInt : ℚ) : WithBot ℚ) _
    rw [hexponent]
    exact .extended header scale length magnitude s n hpresent hform hscale hmin hmax hlength hn

/-- Whatever is read as a decimal is a form of its number. -/
theorem parses_read : Parses read fun bytes x => Form (number x) bytes :=
  parses.imp fun _ _ h => h.form

/-! ## Comparing -/

theorem compare_read {a b : Cursor} {x y : Option EncodedDecimal} {left right : Cursor}
    (ha : a.buffer.length < 2 ^ 56) (hb : b.buffer.length < 2 ^ 56)
    (hx : read a = (.ok x, left)) (hy : read b = (.ok y, right)) {t : PowerTable}
    (ht : Reachable t) :
    ∃ t', Reachable t' ∧ FieldType.decimal.compare ⟨a, b, t⟩ =
      (.ok (compare (number x) (number y)), ⟨left, right, t'⟩) := by
  have hxbounded := (gives_read ha a rfl).2 x (congrArg Prod.fst hx)
  have hybounded := (gives_read hb b rfl).2 y (congrArg Prod.fst hy)
  have hanswers := orderNullable_eq hxbounded hybounded ht.filled
  refine ⟨_, hanswers.reachable ht, ?_⟩
  rw [← hanswers.order]
  exact Walk.compareNext_ok hx hy

/-- Decimals that can be read are compared as their numbers. Every form of a number can be read and
is that number, and what can be read is such a form: the form does not matter. -/
theorem encoded_compare_exact {t : PowerTable} (ht : Reachable t) {a b : Cursor}
    (ha : a.buffer.length < 2 ^ 56) (hb : b.buffer.length < 2 ^ 56) :
    (∀ (x y : Option EncodedDecimal) (left right : Cursor),
      read a = (.ok x, left) → read b = (.ok y, right) →
      ∃ t', Reachable t' ∧ FieldType.decimal.compare ⟨a, b, t⟩ =
        (.ok (compare (number x) (number y)), ⟨left, right, t'⟩)) ∧
    (∀ (p q : WithBot ℚ) (f g r s : Bytes),
      Form p f → Form q g → a.rest = f ++ r → b.rest = g ++ s →
      ∃ t', Reachable t' ∧ FieldType.decimal.compare ⟨a, b, t⟩ =
        (.ok (compare p q), ⟨a.advance f.length, b.advance g.length, t'⟩)) ∧
    ∀ (x : Option EncodedDecimal) (left : Cursor), read a = (.ok x, left) →
      ∃ f r, a.rest = f ++ r ∧ left = a.advance f.length ∧ Form (number x) f := by
  refine ⟨?_, ?_, ?_⟩
  · intro x y left right hx hy
    exact compare_read ha hb hx hy ht
  · intro p q f g r s hf hg hr hs
    obtain ⟨x, hxreads, rfl⟩ := hf.reads
    obtain ⟨y, hyreads, rfl⟩ := hg.reads
    exact compare_read ha hb (hxreads a r hr) (hyreads b s hs) ht
  · intro x left hx
    exact parses_read a x left hx

/-- `-12.5` compact against `-1250 * 10^-2` extended, with longer integers than it takes, a leading
zero and other header bits. -/
theorem encoded_compare_exact_twelve_and_half :
    (FieldType.decimal.compare
      ⟨.start [0x81, 0x01, 0x7d], .start [0xfc, 0x8e, 0, 2, 0x8f, 3, 0, 0x04, 0xe2],
        PowerTable.new⟩).1 = .ok .eq := by
  have hexact := (encoded_compare_exact Reachable.new
    (show (Cursor.start [0x81, 0x01, 0x7d]).buffer.length < 2 ^ 56 by decide)
    (show (Cursor.start [0xfc, 0x8e, 0, 2, 0x8f, 3, 0, 0x04, 0xe2]).buffer.length < 2 ^ 56 by
      decide)).2.1
  have hleft := Form.compact 0x81 [0x01] [0x7d] 1 125 (by decide) (by decide)
    (.inline 1 (by decide)) (by decide) (by decide) (.inline 125 (by decide)) (by decide)
  have hright := Form.extended 0xfc [0x8e, 0, 2] [0x8f, 3] [0, 0x04, 0xe2] 2 3 (by decide)
    (by decide) (.plain [0, 2] (by decide) (by decide)) (by decide) (by decide)
    (.plain [3] (by decide) (by decide)) (by decide)
  obtain ⟨t', -, hcompare⟩ := hexact _ _ _ _ [] [] hleft hright rfl rfl
  rw [hcompare]
  refine congrArg Except.ok (compare_eq_iff_eq.mpr (congrArg _ ?_))
  have hfirst : (0x81 &&& plusFlag != 0) = false := by decide
  have hsecond : (0xfc &&& plusFlag != 0) = false := by decide
  have hunscaled : (125 : Int64).toInt.toNat = 125 := by decide
  have hmagnitude : Bytes.value [0, 0x04, 0xe2] = 1250 := by decide
  have hone : (1 : Int64).toInt = 1 := by decide
  have htwo : (2 : Int64).toInt = 2 := by decide
  rw [hfirst, hsecond, hunscaled, hmagnitude, hone, htwo, signed, signed]
  norm_num

end EncodedDecimal
end KeyOrder
