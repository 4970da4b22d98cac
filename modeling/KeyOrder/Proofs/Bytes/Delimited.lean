import KeyOrder.Proofs.Bytes.Reading

/-!
# KeyOrder.Proofs.Bytes.Delimited

Reads that find the end of what they read in the bytes themselves.

* `DecodeError.Truncation` — the errors of a buffer that ends too soon.
* `Starves d bytes`        — `d` fails with such an error where a proper beginning of `bytes` is all
  that is left.
* `Delimited d`            — what `d` gives is told by the bytes it read: it gives the same wherever
  they stand, and it starves on them.

Like the other judgements on reads this one is closed under sequencing. A buffer that ends in the
first read starves that one; if it ends later, the first read gives what it gave, so it is the same
second read that starves.
-/

namespace KeyOrder

/-- A byte or a block of bytes was wanted that is not there. -/
inductive DecodeError.Truncation : DecodeError → Prop where
  | byte : Truncation .unexpectedEnd
  | block {needed available : Nat} (h : available < needed) :
    Truncation (.bufferTooShort needed available)

namespace Decoder

variable {α β : Type}

def Starves (d : Decoder α) (bytes : Bytes) : Prop :=
  ∀ (c : Cursor) (missing : Bytes), missing ≠ [] → bytes = c.rest ++ missing →
    ∃ e c', d c = (.error e, c') ∧ e.Truncation

def Delimited (d : Decoder α) : Prop :=
  Parses d fun bytes a => Reads d bytes a ∧ Starves d bytes

namespace Starves

theorem nil (d : Decoder α) : Starves d [] := by
  intro c missing hne h
  exact absurd (List.append_eq_nil_iff.mp h.symm).2 hne

theorem byte (b : UInt8) : Starves Decoder.byte [b] := by
  intro c missing hne h
  cases hrest : c.rest with
  | nil =>
    refine ⟨.unexpectedEnd, c, ?_, .byte⟩
    rw [Decoder.byte, hrest]
  | cons x xs =>
    rw [hrest, List.cons_append, List.cons.injEq] at h
    exact absurd (List.append_eq_nil_iff.mp h.2.symm).2 hne

theorem take (bytes : Bytes) : Starves (Decoder.take bytes.length) bytes := by
  intro c missing hne h
  have hlength : bytes.length = c.remaining + missing.length := by
    rw [h, List.length_append, Cursor.length_rest]
  have hshort : c.remaining < bytes.length := by
    have hpos : 0 < missing.length := List.length_pos_iff.mpr hne
    omega
  exact ⟨_, c, if_neg (not_le.mpr hshort), .block hshort⟩

theorem bind {d : Decoder α} {next : α → Decoder β} {first second : Bytes} {a : α}
    (hreads : Reads d first a) (h : Starves d first) (hnext : Starves (next a) second) :
    Starves (d >>= next) (first ++ second) := by
  intro c missing hne hbytes
  rw [bind_apply]
  by_cases hfirst : first <+: c.rest
  · obtain ⟨more, hmore⟩ := hfirst
    rw [← hmore, List.append_assoc, List.append_cancel_left_eq] at hbytes
    have hrest : (c.advance first.length).rest = more := by
      rw [Cursor.rest_advance, ← hmore, List.drop_left]
    rw [hreads c more hmore.symm]
    exact hnext _ missing hne (hrest ▸ hbytes)
  · -- the buffer ends in what `d` reads
    have hprefix : c.rest <+: c.rest ++ missing := List.prefix_append c.rest missing
    obtain ⟨lacking, hlacking⟩ :=
      (List.prefix_or_prefix_of_prefix ⟨second, hbytes⟩ hprefix).resolve_left hfirst
    have hsome : lacking ≠ [] := by
      rintro rfl
      exact hfirst ⟨[], by rw [← hlacking, List.append_nil, List.append_nil]⟩
    obtain ⟨e, c', hd, he⟩ := h c lacking hsome hlacking.symm
    rw [hd]
    exact ⟨e, c', rfl, he⟩

theorem start_take {d : Decoder α} {bytes : Bytes} (h : Starves d bytes) {n : Nat}
    (hn : n < bytes.length) :
    ∃ e c', d (.start (bytes.take n)) = (.error e, c') ∧ e.Truncation := by
  have hmissing : bytes.drop n ≠ [] := by
    rw [ne_eq, List.drop_eq_nil_iff]
    exact not_le.mpr hn
  exact h (.start _) _ hmissing (List.take_append_drop n bytes).symm

end Starves

theorem Reads.start {d : Decoder α} {bytes : Bytes} {a : α} (h : Reads d bytes a) (rest : Bytes) :
    d (.start (bytes ++ rest)) = (.ok a, ⟨bytes ++ rest, bytes.length⟩) := by
  rw [h (.start _) rest rfl, Cursor.advance, Cursor.start, Nat.zero_add]

namespace Delimited

theorem pure (a : α) : Delimited (Pure.pure a) := Parses.pure ⟨.pure a, .nil _⟩

theorem fail (e : DecodeError) : Delimited (Decoder.fail e : Decoder α) := Parses.fail e _

theorem byte : Delimited Decoder.byte := by
  apply Parses.byte.imp
  rintro _ b rfl
  exact ⟨.byte b, .byte b⟩

theorem take (n : Nat) : Delimited (Decoder.take n) := by
  apply (Parses.take n).imp
  rintro _ bytes ⟨rfl, rfl⟩
  exact ⟨.take _, .take _⟩

theorem bind {d : Decoder α} {next : α → Decoder β} (h : Delimited d)
    (hnext : ∀ a, Delimited (next a)) : Delimited (d >>= next) := by
  apply Parses.bind h
  intro a first ⟨hreads, hstarves⟩
  apply (hnext a).imp
  intro second b ⟨hreads', hstarves'⟩
  exact ⟨.bind hreads hreads', .bind hreads hstarves hstarves'⟩

theorem signedByte : Delimited Decoder.signedByte := bind byte fun _ => pure _

/-- What is read from the start of a buffer. -/
theorem of_start {d : Decoder α} (hd : Delimited d) {buffer : Bytes} {a : α} {c : Cursor}
    (h : d (.start buffer) = (.ok a, c)) :
    c = ⟨buffer, c.position⟩ ∧ c.position ≤ buffer.length ∧
      Reads d (buffer.take c.position) a ∧ Starves d (buffer.take c.position) := by
  obtain ⟨bytes, rest, hrest, rfl, hreads, hstarves⟩ := hd _ _ _ h
  have hbuffer : buffer = bytes ++ rest := hrest
  have hposition : ((Cursor.start buffer).advance bytes.length).position = bytes.length :=
    Nat.zero_add _
  rw [hposition, hbuffer, List.take_left]
  refine ⟨?_, ?_, hreads, hstarves⟩
  · rw [Cursor.advance, Cursor.start, Nat.zero_add]
  · rw [List.length_append]
    exact Nat.le_add_right _ _

end Delimited

end Decoder
end KeyOrder
