import KeyOrder.Proofs.Bytes.Reading

/-!
# KeyOrder.Proofs.Bytes.Failing

Failed reads, with the cursor that they leave behind. The two judgements are to failures what
`Reads` and `Parses` are to results, and are closed under sequencing with them.

* `Stops d rest e k`     — wherever `rest` is all that is left, `d` fails with `e` and has consumed
  `k` bytes.
* `Diagnoses d fault`    — the converse: whatever `d` fails with is a fault of what was left, as
  `fault` has it.

A sequence of reads fails in the first of them, or the first reads its bytes and the failure is the
next one's, found that many bytes later.
-/

namespace KeyOrder
namespace Decoder

variable {α β : Type}

def Stops (d : Decoder α) (rest : Bytes) (e : DecodeError) (k : Nat) : Prop :=
  ∀ c : Cursor, c.rest = rest → d c = (.error e, c.advance k)

def Diagnoses (d : Decoder α) (fault : Bytes → DecodeError → Nat → Prop) : Prop :=
  ∀ (c : Cursor) (e : DecodeError) (c' : Cursor), d c = (.error e, c') →
    ∃ k, fault c.rest e k ∧ c' = c.advance k

/-! ## What given bytes fail with -/

namespace Stops

theorem fail (e : DecodeError) (rest : Bytes) : Stops (Decoder.fail e : Decoder α) rest e 0 :=
  fun _ _ => rfl

theorem byte : Stops Decoder.byte [] .unexpectedEnd 0 := by
  intro c hc
  rw [Decoder.byte, hc]
  rfl

theorem take {rest : Bytes} {n : Nat} (h : rest.length < n) :
    Stops (Decoder.take n) rest (.bufferTooShort n rest.length) 0 := by
  intro c hc
  have hremaining : c.remaining = rest.length := by rw [← hc, Cursor.length_rest]
  rw [Decoder.take, hremaining, if_neg (not_le.mpr h)]
  rfl

variable {rest : Bytes} {e : DecodeError} {k : Nat}

theorem bind {d : Decoder α} (h : Stops d rest e k) (next : α → Decoder β) :
    Stops (d >>= next) rest e k := by
  intro c hc
  rw [bind_apply, h c hc]

/-- The failure of a later read. -/
theorem after {d : Decoder α} {next : α → Decoder β} {first : Bytes} {a : α}
    (h : Reads d first a) (hnext : Stops (next a) rest e k) :
    Stops (d >>= next) (first ++ rest) e (first.length + k) := by
  intro c hc
  have hrest : (c.advance first.length).rest = rest := by
    rw [Cursor.rest_advance, hc, List.drop_left]
  rw [bind_apply, h c rest hc, ← advance_advance]
  exact hnext _ hrest

theorem signedByte : Stops Decoder.signedByte [] .unexpectedEnd 0 := byte.bind _

end Stops

/-! ## What given failures were found in -/

namespace Diagnoses

theorem pure (a : α) (fault : Bytes → DecodeError → Nat → Prop) :
    Diagnoses (Pure.pure a) fault := by
  intro c e c' h
  cases h

theorem fail {fault : Bytes → DecodeError → Nat → Prop} {e : DecodeError}
    (h : ∀ rest, fault rest e 0) : Diagnoses (Decoder.fail e : Decoder α) fault := by
  intro c e' c' hc
  cases hc
  exact ⟨0, h _, rfl⟩

theorem byte : Diagnoses Decoder.byte fun rest e k => rest = [] ∧ e = .unexpectedEnd ∧ k = 0 := by
  intro c e c' h
  cases hrest : c.rest with
  | nil =>
    rw [Decoder.byte, hrest] at h
    cases h
    exact ⟨0, ⟨rfl, rfl, rfl⟩, rfl⟩
  | cons b rest =>
    rw [Decoder.byte, hrest] at h
    cases h

theorem take (n : Nat) :
    Diagnoses (Decoder.take n) fun rest e k =>
      rest.length < n ∧ e = .bufferTooShort n rest.length ∧ k = 0 := by
  intro c e c' h
  unfold Decoder.take at h
  by_cases hn : n ≤ c.remaining
  · rw [if_pos hn] at h
    cases h
  · rw [if_neg hn] at h
    cases h
    refine ⟨0, ⟨?_, ?_, rfl⟩, rfl⟩
    · rw [Cursor.length_rest]
      exact not_le.mp hn
    · rw [Cursor.length_rest]

theorem bind {d : Decoder α} {next : α → Decoder β} {grammar : Bytes → α → Prop}
    {fault : Bytes → DecodeError → Nat → Prop} (h : Diagnoses d fault) (hd : Parses d grammar)
    (hnext : ∀ a first, grammar first a →
      Diagnoses (next a) fun rest e k => fault (first ++ rest) e (first.length + k)) :
    Diagnoses (d >>= next) fault := by
  intro c e c' hc
  rw [bind_apply] at hc
  cases hfirst : d c with
  | mk result mid =>
  rw [hfirst] at hc
  cases result with
  | error e' =>
    cases hc
    exact h c e c' hfirst
  | ok a =>
    obtain ⟨first, rest, hrest, rfl, hgrammar⟩ := hd c a mid hfirst
    obtain ⟨k, hfault, rfl⟩ := hnext a first hgrammar _ e c' hc
    rw [Cursor.rest_advance, hrest, List.drop_left] at hfault
    refine ⟨first.length + k, ?_, advance_advance _ _ _⟩
    rw [hrest]
    exact hfault

theorem imp {d : Decoder α} {f fault : Bytes → DecodeError → Nat → Prop} (h : Diagnoses d f)
    (himp : ∀ rest e k, f rest e k → fault rest e k) : Diagnoses d fault := by
  intro c e c' hc
  obtain ⟨k, hf, hc'⟩ := h c e c' hc
  exact ⟨k, himp _ e k hf, hc'⟩

end Diagnoses

end Decoder
end KeyOrder
