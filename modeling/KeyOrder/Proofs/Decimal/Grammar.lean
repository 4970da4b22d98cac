import KeyOrder.Proofs.Checked.Cursor

/-!
# KeyOrder.Proofs.Decimal.Grammar

Which bytes are read as a decimal, and what happens on all others (`read_grammar`). From wherever
the cursor stands, either what is left begins with a spelling, which is read as what it spells and
of which nothing is left over, or it has a first fault, which is reported from where it was found.
No word of the reader overflows and no slice leaves the buffer.
-/

namespace KeyOrder
namespace EncodedDecimal

/-- NULL; or another header, a complete scale whose negation is an exponent, and a complete integer
that is not negative and, without the compact flag, counts bytes that are there. -/
def Readable (bytes : Bytes) : Prop :=
  (∃ rest, bytes = 0x00 :: rest) ∨
  ∃ (header : UInt8) (scale unscaled rest : Bytes) (s u : Int64),
    bytes = header :: (scale ++ (unscaled ++ rest)) ∧ header ≠ 0x00 ∧
    CompactInt.Spells scale s ∧ -2 ^ 31 < s.toInt ∧ s.toInt ≤ 2 ^ 31 ∧
    CompactInt.Spells unscaled u ∧ 0 ≤ u.toInt ∧
    (header &&& compactFlag = 0 → u.toInt ≤ rest.length)

theorem Spells.readable {bytes : Bytes} {x : Option EncodedDecimal} (h : Spells bytes x)
    (rest : Bytes) : Readable (bytes ++ rest) := by
  cases h with
  | null => exact .inl ⟨rest, rfl⟩
  | @compact opening unscaled header exponent u h hform hunscaled hnonneg =>
    obtain ⟨scale, s, rfl, hpresent, hscale, hmin, hmax, -⟩ := h.scale
    refine .inr ⟨header, scale, unscaled, rest, s, u, ?_, hpresent, hscale, hmin, hmax, hunscaled,
      hnonneg, fun hflag => absurd hflag hform⟩
    simp
  | @extended opening length magnitude header exponent n h hform hlength hn =>
    obtain ⟨scale, s, rfl, hpresent, hscale, hmin, hmax, -⟩ := h.scale
    refine .inr ⟨header, scale, length, magnitude ++ rest, s, n, ?_, hpresent, hscale, hmin, hmax,
      hlength, by omega, ?_⟩
    · simp
    · intro _
      rw [hn, List.length_append]
      omega

theorem Readable.exists_spells {bytes : Bytes} (h : Readable bytes) :
    ∃ first rest x, bytes = first ++ rest ∧ Spells first x := by
  obtain ⟨rest, rfl⟩ | ⟨header, scale, unscaled, rest, s, u, rfl, hpresent, hscale, hmin, hmax,
    hunscaled, hnonneg, hcount⟩ := h
  · exact ⟨[nullHeader], rest, none, rfl, .null⟩
  obtain ⟨exponent, -, hopening⟩ := exists_opening hpresent hscale hmin hmax
  by_cases hform : header &&& compactFlag = 0
  · have hlength : u.toInt = (rest.take u.toInt.toNat).length := by
      have hle := hcount hform
      rw [List.length_take]
      omega
    refine ⟨_, rest.drop u.toInt.toNat, _, ?_, .extended hopening hform hunscaled hlength⟩
    simp
  · refine ⟨_, rest, _, ?_, .compact hopening hform hunscaled hnonneg⟩
    simp

/-- What `read` makes of any bytes, from any place. A compact integer is the word that its payload
makes, and the exponent is the negation of the scale. -/
theorem read_grammar :
    (∀ (c c' : Cursor) (x : Option EncodedDecimal), read c = (.ok x, c') ↔
      ∃ bytes rest, c.rest = bytes ++ rest ∧ Spells bytes x ∧ c' = c.advance bytes.length) ∧
    (∀ (c c' : Cursor) (e : DecodeError), read c = (.error e, c') ↔
      ∃ k, Fault c.rest e k ∧ c' = c.advance k) ∧
    (∀ c : Cursor, (∃ x c', read c = (.ok x, c')) ↔ Readable c.rest) ∧
    ∀ c : Cursor, c.Fits → Checked.decimal c = some (read c) ∧ (read c).2.Fits := by
  have hok : ∀ (c c' : Cursor) (x : Option EncodedDecimal), read c = (.ok x, c') ↔
      ∃ bytes rest, c.rest = bytes ++ rest ∧ Spells bytes x ∧ c' = c.advance bytes.length := by
    intro c c' x
    constructor
    · intro h
      obtain ⟨bytes, rest, hrest, hc', hspells⟩ := parses c x c' h
      exact ⟨bytes, rest, hrest, hspells, hc'⟩
    · rintro ⟨bytes, rest, hrest, hspells, rfl⟩
      exact hspells.reads c rest hrest
  refine ⟨hok, ?_, ?_, Checked.decimal_agrees⟩
  · intro c c' e
    constructor
    · exact diagnoses c e c'
    · rintro ⟨k, hfault, rfl⟩
      exact hfault.stops c rfl
  · intro c
    constructor
    · rintro ⟨x, c', h⟩
      obtain ⟨bytes, rest, hrest, hspells, -⟩ := (hok c c' x).mp h
      rw [hrest]
      exact hspells.readable rest
    · intro h
      obtain ⟨bytes, rest, x, hrest, hspells⟩ := h.exists_spells
      exact ⟨x, _, (hok c _ x).mpr ⟨bytes, rest, hrest, hspells, rfl⟩⟩

/-- The least integer as a scale, after a byte that was read before: its negation is no word, and
the fault is found behind its nine bytes. -/
theorem read_grammar_least_scale :
    let c : Cursor := ⟨[0x05, 0x83, 0x80, 0x7f, 0xff, 0xff, 0xff, 0xff, 0xff, 0xff, 0xff, 0x01], 1⟩
    c.Fits ∧ Checked.decimal c = some (.error (.scaleOutOfRange Int64.minValue), c.advance 10) := by
  intro c
  have hfits : c.Fits := ⟨by decide, by decide⟩
  have hscale : CompactInt.Spells (0x80 :: [0x7f, 0xff, 0xff, 0xff, 0xff, 0xff, 0xff, 0xff])
      Int64.minValue :=
    .complement [0x7f, 0xff, 0xff, 0xff, 0xff, 0xff, 0xff, 0xff] (by decide) (by decide)
  obtain ⟨-, hfault, -, hchecked⟩ := read_grammar
  have hread : read c = (.error (.scaleOutOfRange Int64.minValue), c.advance 10) :=
    (hfault _ _ _).mpr ⟨10, .exponent [0x01] (by decide) hscale (by decide), rfl⟩
  exact ⟨hfits, (hchecked c hfits).1.trans (congrArg some hread)⟩

end EncodedDecimal
end KeyOrder
