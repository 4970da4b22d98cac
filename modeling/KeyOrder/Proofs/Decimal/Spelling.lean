import KeyOrder.Decimal.Encoded
import KeyOrder.Proofs.CompactInt.Spelling

/-!
# KeyOrder.Proofs.Decimal.Spelling

The byte strings that spell a decimal, and those that begin none.

* `Spells bytes x`  — a header, a scale and a magnitude in one of the two forms, or NULL.
* `Fault rest e k`  — the first thing that is wrong with what is left of a buffer: the error, and
  the bytes read before it was found.
* `Spells.reads`, `parses` — each spelling is read as what it spells, and nothing else is read.
* `Fault.stops`, `diagnoses` — each fault is found where it is, and nothing else goes wrong.

Both begin with an `Opening`, a header that is not that of NULL and a scale that gives an exponent.
Of the header only the two flags count.
-/

namespace KeyOrder
namespace EncodedDecimal

open Decoder (Reads Parses Stops Diagnoses)

/-- A header and a scale, which is the negation of the exponent. -/
inductive Opening : Bytes → UInt8 → Int32 → Prop where
  | intro {header : UInt8} {scale : Bytes} {s : Int64} {exponent : Int32}
    (hpresent : header ≠ nullHeader) (hscale : CompactInt.Spells scale s)
    (hexponent : exponent.toInt = -s.toInt) : Opening (header :: scale) header exponent

inductive Spells : Bytes → Option EncodedDecimal → Prop where
  | null : Spells [nullHeader] none
  | compact {opening unscaled : Bytes} {header : UInt8} {exponent : Int32} {u : Int64}
    (h : Opening opening header exponent) (hform : header &&& compactFlag ≠ 0)
    (hunscaled : CompactInt.Spells unscaled u) (hnonneg : 0 ≤ u.toInt) :
    Spells (opening ++ unscaled) (some ⟨header &&& plusFlag != 0, exponent, .compact u.toUInt64⟩)
  | extended {opening length magnitude : Bytes} {header : UInt8} {exponent : Int32} {n : Int64}
    (h : Opening opening header exponent) (hform : header &&& compactFlag = 0)
    (hlength : CompactInt.Spells length n) (hn : n.toInt = magnitude.length) :
    Spells (opening ++ (length ++ magnitude))
      (some ⟨header &&& plusFlag != 0, exponent, .extended magnitude⟩)

/-- In the order in which they are looked for. -/
inductive Fault : Bytes → DecodeError → Nat → Prop where
  | header : Fault [] .unexpectedEnd 0
  | scale {header : UInt8} {rest : Bytes} {e : DecodeError} {k : Nat}
    (hpresent : header ≠ nullHeader) (hcut : CompactInt.Cut rest e k) :
    Fault (header :: rest) e (1 + k)
  | exponent {header : UInt8} {scale : Bytes} {s : Int64} (rest : Bytes)
    (hpresent : header ≠ nullHeader) (hscale : CompactInt.Spells scale s)
    (hrange : ¬(-2 ^ 31 < s.toInt ∧ s.toInt ≤ 2 ^ 31)) :
    Fault (header :: scale ++ rest) (.scaleOutOfRange s) (1 + scale.length)
  | unscaled {opening rest : Bytes} {header : UInt8} {exponent : Int32} {e : DecodeError} {k : Nat}
    (h : Opening opening header exponent) (hcut : CompactInt.Cut rest e k) :
    Fault (opening ++ rest) e (opening.length + k)
  | negative {opening unscaled : Bytes} {header : UInt8} {exponent : Int32} {u : Int64}
    (rest : Bytes) (h : Opening opening header exponent) (hform : header &&& compactFlag ≠ 0)
    (hunscaled : CompactInt.Spells unscaled u) (hneg : u.toInt < 0) :
    Fault (opening ++ (unscaled ++ rest)) (.negativeUnscaled u) (opening.length + unscaled.length)
  | length {opening length : Bytes} {header : UInt8} {exponent : Int32} {n : Int64}
    (rest : Bytes) (h : Opening opening header exponent) (hform : header &&& compactFlag = 0)
    (hlength : CompactInt.Spells length n) (hneg : n.toInt < 0) :
    Fault (opening ++ (length ++ rest)) (.invalidLength n) (opening.length + length.length)
  | magnitude {opening length rest : Bytes} {header : UInt8} {exponent : Int32} {n : Int64}
    (h : Opening opening header exponent) (hform : header &&& compactFlag = 0)
    (hlength : CompactInt.Spells length n) (hshort : (rest.length : Int) < n.toInt) :
    Fault (opening ++ (length ++ rest)) (.bufferTooShort n.toInt.toNat rest.length)
      (opening.length + length.length)

/-! ## The scale and the magnitude -/

theorem exponentOfScale?_eq_some_iff {scale : Int64} {exponent : Int32} :
    exponentOfScale? scale = some exponent ↔ exponent.toInt = -scale.toInt := by
  have hleast : -2 ^ 31 ≤ exponent.toInt := exponent.le_toInt
  have hmost : exponent.toInt < 2 ^ 31 := exponent.toInt_lt
  have hmin : Int32.minValue.toInt = -2 ^ 31 := by decide
  have hmax : Int32.maxValue.toInt = 2 ^ 31 - 1 := by decide
  simp only [exponentOfScale?, hmin, hmax]
  constructor
  · intro h
    split_ifs at h with hrange
    rw [← Option.some.inj h, Int32.toInt_ofInt]
    exact Int.bmod_eq_of_le (by norm_num; omega) (by norm_num; omega)
  · intro h
    rw [← h, if_pos ⟨hleast, by omega⟩, Int32.ofInt_toInt]

theorem exponentOfScale?_eq_none_iff {scale : Int64} :
    exponentOfScale? scale = none ↔ ¬(-2 ^ 31 < scale.toInt ∧ scale.toInt ≤ 2 ^ 31) := by
  have hmin : Int32.minValue.toInt = -2 ^ 31 := by decide
  have hmax : Int32.maxValue.toInt = 2 ^ 31 - 1 := by decide
  simp only [exponentOfScale?, hmin, hmax, ite_eq_right_iff, reduceCtorEq, imp_false]
  omega

theorem reads_compact {u : Int64} (hnonneg : 0 ≤ u) :
    Reads (readSignificand true u) [] (.compact u.toUInt64) := by
  have hneg : ¬u < 0 := Int64.not_lt.mpr hnonneg
  simp only [readSignificand, hneg, if_true, if_false]
  exact Reads.pure _

theorem reads_extended {n : Int64} {magnitude : Bytes} (hn : n.toInt = magnitude.length) :
    Reads (readSignificand false n) magnitude (.extended magnitude) := by
  have hneg : ¬n < 0 := by
    rw [Int64.lt_iff_toInt_lt, hn]
    exact not_lt.mpr (Int.natCast_nonneg _)
  have htoNat : n.toInt.toNat = magnitude.length := by
    rw [hn]
    rfl
  simp only [readSignificand, hneg, Bool.false_eq_true, if_false, htoNat]
  exact Reads.bind_pure (Reads.take magnitude) _

theorem parses_readSignificand (compact : Bool) (u : Int64) :
    Parses (readSignificand compact u) fun bytes m =>
      (compact = true ∧ 0 ≤ u ∧ bytes = [] ∧ m = .compact u.toUInt64) ∨
      (compact = false ∧ u.toInt = bytes.length ∧ m = .extended bytes) := by
  unfold readSignificand
  by_cases hneg : u < 0
  · cases compact with
    | true =>
      simp only [hneg, if_true]
      exact Parses.fail _ _
    | false =>
      simp only [hneg, Bool.false_eq_true, if_true, if_false]
      exact Parses.fail _ _
  have hnonneg : 0 ≤ u := Int64.not_lt.mp hneg
  cases compact with
  | true =>
    simp only [hneg, if_true, if_false]
    exact Parses.pure (.inl ⟨trivial, hnonneg, rfl, rfl⟩)
  | false =>
    simp only [hneg, Bool.false_eq_true, if_false]
    apply Parses.bind (Parses.take _)
    rintro bytes _ ⟨rfl, hlength⟩
    apply Parses.pure
    rw [List.append_nil]
    refine .inr ⟨trivial, ?_, rfl⟩
    rw [hlength, Int.toNat_of_nonneg (Int64.le_iff_toInt_le.mp hnonneg)]

theorem stops_negative {u : Int64} (hneg : u.toInt < 0) (compact : Bool) (rest : Bytes) :
    Stops (readSignificand compact u) rest
      (if compact then .negativeUnscaled u else .invalidLength u) 0 := by
  have hlt : u < 0 := Int64.lt_iff_toInt_lt.mpr hneg
  cases compact with
  | true =>
    simp only [readSignificand, hlt, if_true]
    exact Stops.fail _ _
  | false =>
    simp only [readSignificand, hlt, Bool.false_eq_true, if_true, if_false]
    exact Stops.fail _ _

theorem stops_short {n : Int64} {rest : Bytes} (hshort : (rest.length : Int) < n.toInt) :
    Stops (readSignificand false n) rest (.bufferTooShort n.toInt.toNat rest.length) 0 := by
  have hneg : ¬n < 0 := by
    rw [Int64.lt_iff_toInt_lt]
    show ¬n.toInt < 0
    omega
  simp only [readSignificand, hneg, Bool.false_eq_true, if_false]
  exact (Stops.take (by omega)).bind _

theorem diagnoses_readSignificand (compact : Bool) (u : Int64) :
    Diagnoses (readSignificand compact u) fun rest e k => k = 0 ∧
      (u.toInt < 0 ∧ e = (if compact then .negativeUnscaled u else .invalidLength u) ∨
        compact = false ∧ (rest.length : Int) < u.toInt ∧
          e = .bufferTooShort u.toInt.toNat rest.length) := by
  unfold readSignificand
  by_cases hneg : u < 0
  · have hlt : u.toInt < 0 := Int64.lt_iff_toInt_lt.mp hneg
    cases compact with
    | true =>
      simp only [hneg, if_true]
      exact Diagnoses.fail fun _ => ⟨rfl, .inl ⟨hlt, rfl⟩⟩
    | false =>
      simp only [hneg, Bool.false_eq_true, if_true, if_false]
      exact Diagnoses.fail fun _ => ⟨rfl, .inl ⟨hlt, rfl⟩⟩
  · cases compact with
    | true =>
      simp only [hneg, if_true, if_false]
      exact Diagnoses.pure _ _
    | false =>
      simp only [hneg, Bool.false_eq_true, if_false]
      apply Diagnoses.bind _ (Parses.take _) fun _ _ _ => Diagnoses.pure _ _
      apply (Diagnoses.take _).imp
      rintro rest e k ⟨hshort, rfl, rfl⟩
      exact ⟨rfl, .inr ⟨trivial, by omega, rfl⟩⟩

/-! ## The opening -/

/-- What is read after an opening. -/
def readMagnitude (header : UInt8) (exponent : Int32) : Decoder (Option EncodedDecimal) := do
  let unscaled ← CompactInt.read
  let significand ← readSignificand (header &&& compactFlag != 0) unscaled
  pure (some ⟨header &&& plusFlag != 0, exponent, significand⟩)

theorem exists_opening {header : UInt8} {scale : Bytes} {s : Int64} (hpresent : header ≠ nullHeader)
    (hscale : CompactInt.Spells scale s) (hmin : -2 ^ 31 < s.toInt) (hmax : s.toInt ≤ 2 ^ 31) :
    ∃ exponent : Int32, exponent.toInt = -s.toInt ∧ Opening (header :: scale) header exponent := by
  cases hsome : exponentOfScale? s with
  | none => exact absurd ⟨hmin, hmax⟩ (exponentOfScale?_eq_none_iff.mp hsome)
  | some exponent =>
    have hexponent := exponentOfScale?_eq_some_iff.mp hsome
    exact ⟨exponent, hexponent, hpresent, hscale, hexponent⟩

namespace Opening

variable {opening rest : Bytes} {header : UInt8} {exponent : Int32}

theorem scale (h : Opening opening header exponent) :
    ∃ scale s, opening = header :: scale ∧ header ≠ nullHeader ∧ CompactInt.Spells scale s ∧
      -2 ^ 31 < s.toInt ∧ s.toInt ≤ 2 ^ 31 ∧ exponent.toInt = -s.toInt := by
  obtain ⟨hpresent, hscale, hexponent⟩ := h
  have hleast : -2 ^ 31 ≤ exponent.toInt := exponent.le_toInt
  have hmost : exponent.toInt < 2 ^ 31 := exponent.toInt_lt
  exact ⟨_, _, rfl, hpresent, hscale, by omega, by omega, hexponent⟩

theorem reads {x : Option EncodedDecimal} (h : Opening opening header exponent)
    (hrest : Reads (readMagnitude header exponent) rest x) : Reads read (opening ++ rest) x := by
  obtain ⟨hpresent, hscale, hexponent⟩ := h
  apply Reads.bind (Reads.byte header)
  rw [if_neg hpresent]
  apply Reads.bind hscale.reads
  rw [exponentOfScale?_eq_some_iff.mpr hexponent]
  exact hrest

theorem stops {e : DecodeError} {k : Nat} (h : Opening opening header exponent)
    (hrest : Stops (readMagnitude header exponent) rest e k) :
    Stops read (opening ++ rest) e (opening.length + k) := by
  obtain ⟨hpresent, hscale, hexponent⟩ := h
  rw [List.length_cons, Nat.add_comm _ 1, Nat.add_assoc]
  apply Stops.after (Reads.byte header)
  rw [if_neg hpresent]
  apply Stops.after hscale.reads
  rw [exponentOfScale?_eq_some_iff.mpr hexponent]
  exact hrest

end Opening

/-! ## After the opening -/

variable {unscaled rest : Bytes} {u : Int64} {header : UInt8} {compact : Bool}

theorem reads_magnitude {m : Significand} (exponent : Int32)
    (hflag : (header &&& compactFlag != 0) = compact) (hunscaled : CompactInt.Spells unscaled u)
    (hm : Reads (readSignificand compact u) rest m) :
    Reads (readMagnitude header exponent) (unscaled ++ rest)
      (some ⟨header &&& plusFlag != 0, exponent, m⟩) := by
  subst hflag
  exact Reads.bind hunscaled.reads (Reads.bind_pure hm _)

theorem stops_magnitude {e : DecodeError} (exponent : Int32)
    (hflag : (header &&& compactFlag != 0) = compact) (hunscaled : CompactInt.Spells unscaled u)
    (hm : Stops (readSignificand compact u) rest e 0) :
    Stops (readMagnitude header exponent) (unscaled ++ rest) e unscaled.length := by
  subst hflag
  exact Stops.after (k := 0) hunscaled.reads (hm.bind _)

theorem diagnoses_magnitude {opening : Bytes} {exponent : Int32}
    (h : Opening opening header exponent) :
    Diagnoses (readMagnitude header exponent) fun rest e k =>
      Fault (opening ++ rest) e (opening.length + k) := by
  apply Diagnoses.bind _ CompactInt.parses
  · intro u unscaled hunscaled
    apply Diagnoses.bind _ (parses_readSignificand _ u) fun _ _ _ => Diagnoses.pure _ _
    apply (diagnoses_readSignificand _ u).imp
    rintro rest e k ⟨rfl, ⟨hneg, rfl⟩ | ⟨hflag, hshort, rfl⟩⟩
    · cases hflag : header &&& compactFlag != 0 with
      | true => exact .negative rest h (bne_iff_ne.mp hflag) hunscaled hneg
      | false => exact .length rest h (bne_eq_false_iff_eq.mp hflag) hunscaled hneg
    · exact .magnitude h (bne_eq_false_iff_eq.mp hflag) hunscaled hshort
  · apply CompactInt.diagnoses.imp
    intro rest e k hcut
    exact .unscaled h hcut

/-! ## What is read, and what goes wrong -/

theorem Spells.reads {bytes : Bytes} {x : Option EncodedDecimal} (h : Spells bytes x) :
    Reads read bytes x := by
  cases h with
  | null => exact Reads.bind (Reads.byte nullHeader) (Reads.pure none)
  | compact h hform hunscaled hnonneg =>
    have hcompact := reads_compact (Int64.le_iff_toInt_le.mpr hnonneg)
    have hreads := h.reads (reads_magnitude _ (bne_iff_ne.mpr hform) hunscaled hcompact)
    rw [List.append_nil] at hreads
    exact hreads
  | extended h hform hlength hn =>
    exact h.reads (reads_magnitude _ (bne_eq_false_iff_eq.mpr hform) hlength (reads_extended hn))

theorem Fault.stops {rest : Bytes} {e : DecodeError} {k : Nat} (h : Fault rest e k) :
    Stops read rest e k := by
  cases h with
  | header => exact Stops.byte.bind _
  | @scale header _ _ _ hpresent hcut =>
    apply Stops.after (Reads.byte header)
    rw [if_neg hpresent]
    exact hcut.stops.bind _
  | @exponent header scale s rest hpresent hscale hrange =>
    apply Stops.after (Reads.byte header)
    rw [if_neg hpresent]
    refine Stops.after (k := 0) hscale.reads ?_
    rw [exponentOfScale?_eq_none_iff.mpr hrange]
    exact Stops.fail _ _
  | unscaled h hcut => exact h.stops (hcut.stops.bind _)
  | negative rest h hform hunscaled hneg =>
    exact h.stops
      (stops_magnitude _ (bne_iff_ne.mpr hform) hunscaled (stops_negative hneg true rest))
  | length rest h hform hlength hneg =>
    exact h.stops
      (stops_magnitude _ (bne_eq_false_iff_eq.mpr hform) hlength (stops_negative hneg false rest))
  | magnitude h hform hlength hshort =>
    exact h.stops
      (stops_magnitude _ (bne_eq_false_iff_eq.mpr hform) hlength (stops_short hshort))

theorem parses : Parses read Spells := by
  apply Parses.bind Parses.byte
  rintro header _ rfl
  by_cases hnull : header = nullHeader
  · rw [if_pos hnull, hnull]
    exact Parses.pure .null
  rw [if_neg hnull]
  apply Parses.bind CompactInt.parses
  intro s scale hscale
  cases hsome : exponentOfScale? s with
  | none => exact Parses.fail _ _
  | some exponent =>
    have hopening : Opening (header :: scale) header exponent :=
      ⟨hnull, hscale, exponentOfScale?_eq_some_iff.mp hsome⟩
    apply Parses.bind CompactInt.parses
    intro u unscaled hunscaled
    apply Parses.bind (parses_readSignificand _ u)
    intro m rest hm
    apply Parses.pure
    rcases hm with ⟨hform, hnonneg, rfl, rfl⟩ | ⟨hform, hlength, rfl⟩
    · have hspells := Spells.compact hopening (bne_iff_ne.mp hform) hunscaled
        (Int64.le_iff_toInt_le.mp hnonneg)
      simpa using hspells
    · have hspells := Spells.extended hopening (bne_eq_false_iff_eq.mp hform) hunscaled hlength
      simpa using hspells

theorem diagnoses : Diagnoses read Fault := by
  apply Diagnoses.bind _ Parses.byte
  · rintro header _ rfl
    by_cases hnull : header = nullHeader
    · rw [if_pos hnull]
      exact Diagnoses.pure _ _
    rw [if_neg hnull]
    apply Diagnoses.bind _ CompactInt.parses
    · intro s scale hscale
      cases hsome : exponentOfScale? s with
      | none =>
        exact Diagnoses.fail fun rest =>
          .exponent rest hnull hscale (exponentOfScale?_eq_none_iff.mp hsome)
      | some exponent =>
        have hopening : Opening (header :: scale) header exponent :=
          ⟨hnull, hscale, exponentOfScale?_eq_some_iff.mp hsome⟩
        apply (diagnoses_magnitude hopening).imp
        intro rest e k hfault
        have hlength : (header :: scale).length + k = 1 + (scale.length + k) := by
          rw [List.length_cons]
          omega
        rw [hlength] at hfault
        exact hfault
    · apply CompactInt.diagnoses.imp
      intro rest e k hcut
      exact .scale hnull hcut
  · apply Diagnoses.byte.imp
    rintro rest e k ⟨rfl, rfl, rfl⟩
    exact .header

end EncodedDecimal
end KeyOrder
