import Mathlib
import KeyOrder.Bytes.Cursor

/-!
# KeyOrder.Proofs.Bytes.Reading

Three judgements on reads, each closed under sequencing, so that a read of several parts is judged
part by part.

* `Reads d bytes a`     — wherever `bytes` come next, whatever follows them, `d` reads exactly
  those and gives `a`.
* `Parses d grammar`    — the converse: whatever `d` gives stands in the bytes it read, as
  `grammar` has it.
* `Gives d buffer post` — whatever `d` gives when it reads in `buffer` satisfies `post`, and it
  stays in that buffer, failed or not.
-/

namespace KeyOrder
namespace Decoder

variable {α β : Type}

def Reads (d : Decoder α) (bytes : Bytes) (a : α) : Prop :=
  ∀ (c : Cursor) (rest : Bytes), c.rest = bytes ++ rest → d c = (.ok a, c.advance bytes.length)

def Parses (d : Decoder α) (grammar : Bytes → α → Prop) : Prop :=
  ∀ (c : Cursor) (a : α) (c' : Cursor), d c = (.ok a, c') →
    ∃ bytes rest, c.rest = bytes ++ rest ∧ c' = c.advance bytes.length ∧ grammar bytes a

def Gives (d : Decoder α) (buffer : Bytes) (post : α → Prop) : Prop :=
  ∀ c : Cursor, c.buffer = buffer → (d c).2.buffer = buffer ∧ ∀ a, (d c).1 = .ok a → post a

/-! ## What is read from given bytes -/

theorem advance_advance (c : Cursor) (m n : Nat) : (c.advance m).advance n = c.advance (m + n) := by
  simp [Cursor.advance, Nat.add_assoc]

namespace Reads

theorem pure (a : α) : Reads (Pure.pure a) [] a := by
  intro c rest _
  rfl

theorem bind {d : Decoder α} {next : α → Decoder β} {first second : Bytes} {a : α} {b : β}
    (h : Reads d first a) (hnext : Reads (next a) second b) :
    Reads (d >>= next) (first ++ second) b := by
  intro c rest hc
  rw [List.append_assoc] at hc
  have hrest : (c.advance first.length).rest = second ++ rest := by
    rw [Cursor.rest_advance, hc, List.drop_left]
  rw [bind_apply, h c _ hc, List.length_append, ← advance_advance]
  exact hnext _ rest hrest

theorem bind_pure {d : Decoder α} {bytes : Bytes} {a : α} (h : Reads d bytes a) (f : α → β) :
    Reads (d >>= fun x => Pure.pure (f x)) bytes (f a) := by
  have hbind : Reads (d >>= fun x => Pure.pure (f x)) (bytes ++ []) (f a) := bind h (pure (f a))
  rw [List.append_nil] at hbind
  exact hbind

theorem byte (b : UInt8) : Reads Decoder.byte [b] b := by
  intro c rest hc
  rw [Decoder.byte, hc]
  rfl

theorem signedByte (b : Int8) : Reads Decoder.signedByte [b.toUInt8] b :=
  bind_pure (byte b.toUInt8) UInt8.toInt8

theorem take (bytes : Bytes) : Reads (Decoder.take bytes.length) bytes bytes := by
  intro c rest hc
  have hle : bytes.length ≤ c.remaining := by
    rw [← Cursor.length_rest, hc, List.length_append]
    exact Nat.le_add_right _ _
  rw [Decoder.take, if_pos hle, hc, List.take_left]

end Reads

/-! ## What given results were read from -/

namespace Parses

theorem pure {grammar : Bytes → α → Prop} {a : α} (h : grammar [] a) :
    Parses (Pure.pure a) grammar := by
  intro c b c' hc
  cases hc
  exact ⟨[], c.rest, rfl, rfl, h⟩

theorem fail (e : DecodeError) (grammar : Bytes → α → Prop) :
    Parses (Decoder.fail e) grammar := by
  intro c a c' h
  cases h

theorem bind {d : Decoder α} {next : α → Decoder β} {first : Bytes → α → Prop}
    {grammar : Bytes → β → Prop} (h : Parses d first)
    (hnext : ∀ a f, first f a → Parses (next a) fun s b => grammar (f ++ s) b) :
    Parses (d >>= next) grammar := by
  intro c b c' hc
  rw [bind_apply] at hc
  cases hd : d c with
  | mk result mid =>
    rw [hd] at hc
    cases result with
    | error e => cases hc
    | ok a =>
      obtain ⟨f, rest, hrest, rfl, hfirst⟩ := h c a mid hd
      obtain ⟨s, rest', hrest', rfl, hsecond⟩ := hnext a f hfirst _ b c' hc
      rw [Cursor.rest_advance, hrest, List.drop_left] at hrest'
      refine ⟨f ++ s, rest', ?_, ?_, hsecond⟩
      · rw [hrest, hrest', List.append_assoc]
      · rw [advance_advance, List.length_append]

theorem byte : Parses Decoder.byte fun bytes b => bytes = [b] := by
  intro c b c' h
  unfold Decoder.byte at h
  cases hrest : c.rest with
  | nil =>
    rw [hrest] at h
    cases h
  | cons b' rest =>
    rw [hrest] at h
    cases h
    exact ⟨[b], rest, rfl, rfl, rfl⟩

theorem take (n : Nat) :
    Parses (Decoder.take n) fun bytes a => bytes = a ∧ a.length = n := by
  intro c a c' h
  unfold Decoder.take at h
  by_cases hn : n ≤ c.remaining
  · rw [if_pos hn] at h
    cases h
    have hlength : (c.rest.take n).length = n := by
      rw [List.length_take, Cursor.length_rest]
      exact min_eq_left hn
    refine ⟨c.rest.take n, c.rest.drop n, (List.take_append_drop n _).symm, ?_, rfl, hlength⟩
    rw [hlength]
  · rw [if_neg hn] at h
    cases h

theorem signedByte : Parses Decoder.signedByte fun bytes b => bytes = [b.toUInt8] := by
  apply bind byte
  rintro b _ rfl
  exact pure rfl

theorem imp {d : Decoder α} {g grammar : Bytes → α → Prop} (h : Parses d g)
    (himp : ∀ bytes a, g bytes a → grammar bytes a) : Parses d grammar := by
  intro c a c' hc
  obtain ⟨bytes, rest, hrest, hc', hg⟩ := h c a c' hc
  exact ⟨bytes, rest, hrest, hc', himp bytes a hg⟩

end Parses

/-! ## What can be read at all -/

namespace Gives

variable {buffer : Bytes}

theorem pure {post : α → Prop} {a : α} (h : post a) : Gives (Pure.pure a) buffer post := by
  intro c hc
  refine ⟨hc, ?_⟩
  intro a' ha
  cases ha
  exact h

theorem fail {post : α → Prop} (e : DecodeError) : Gives (Decoder.fail e) buffer post := by
  intro c hc
  refine ⟨hc, ?_⟩
  intro a ha
  cases ha

theorem bind {d : Decoder α} {next : α → Decoder β} {mid : α → Prop} {post : β → Prop}
    (h : Gives d buffer mid) (hnext : ∀ a, mid a → Gives (next a) buffer post) :
    Gives (d >>= next) buffer post := by
  intro c hc
  obtain ⟨hbuffer, hmid⟩ := h c hc
  rw [bind_apply]
  cases hd : d c with
  | mk result c' =>
    rw [hd] at hbuffer hmid
    cases result with
    | error e =>
      refine ⟨hbuffer, ?_⟩
      intro b hb
      cases hb
    | ok a => exact hnext a (hmid a rfl) c' hbuffer

theorem byte : Gives Decoder.byte buffer fun _ => True := by
  intro c hc
  unfold Decoder.byte
  cases c.rest with
  | nil => exact ⟨hc, fun _ _ => trivial⟩
  | cons b rest => exact ⟨hc, fun _ _ => trivial⟩

theorem signedByte : Gives Decoder.signedByte buffer fun _ => True :=
  bind byte fun _ _ => pure trivial

theorem take (n : Nat) :
    Gives (Decoder.take n) buffer fun bytes => bytes.length ≤ buffer.length := by
  intro c hc
  unfold Decoder.take
  by_cases hn : n ≤ c.remaining
  · rw [if_pos hn]
    refine ⟨hc, ?_⟩
    intro bytes hbytes
    cases hbytes
    have hrest : c.rest.length ≤ c.buffer.length := List.drop_suffix _ _ |>.length_le
    rw [← hc]
    exact le_trans (List.length_take_le' _ _) hrest
  · rw [if_neg hn]
    refine ⟨hc, ?_⟩
    intro bytes hbytes
    cases hbytes

end Gives

end Decoder
end KeyOrder
