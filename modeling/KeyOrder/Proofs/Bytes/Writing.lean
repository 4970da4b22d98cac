import KeyOrder.Bytes.Basic
import KeyOrder.Proofs.Bytes.Reading

/-!
# KeyOrder.Proofs.Bytes.Writing

Writes, and reads of what was written.

* `Writer.Appends w added`   — whatever is in the buffer stays, and `added` comes after it.
* `Decoder.ReadsBack d w a`  — from where `w` began to write, `d` reads just what was written and
  gives `a`, whatever was there before and whatever comes next.
* `Decoder.many`             — several reads, one after another.
-/

namespace KeyOrder

variable {α β : Type}

namespace Writer

def Appends (w : Writer) (added : Bytes) : Prop := ∀ buffer, w.after buffer = buffer ++ added

namespace Appends

theorem nil : Appends (pure ()) [] := fun buffer => (List.append_nil buffer).symm

theorem byte (b : UInt8) : Appends (Writer.byte b) [b] := fun _ => rfl

theorem bytes (added : Bytes) : Appends (Writer.bytes added) added := fun _ => rfl

theorem bind {first second : Writer} {a b : Bytes} (ha : Appends first a) (hb : Appends second b) :
    Appends (do first; second) (a ++ b) := by
  intro buffer
  have hsecond : after (do first; second) buffer = second.after (first.after buffer) := rfl
  rw [hsecond, ha, hb, List.append_assoc]

theorem forM {write : α → Writer} {wrote : α → Bytes} {items : List α}
    (h : ∀ item ∈ items, Appends (write item) (wrote item)) :
    Appends (items.forM write) (items.flatMap wrote) := by
  induction items with
  | nil => exact nil
  | cons item items ih =>
    rw [List.flatMap_cons]
    exact bind (h item List.mem_cons_self) (ih fun other hother => h other (.tail _ hother))

end Appends
end Writer

namespace Decoder

def ReadsBack (d : Decoder α) (w : Writer) (a : α) : Prop :=
  ∀ before trailing : Bytes, before <+: w.after before ∧
    d ⟨w.after before ++ trailing, before.length⟩ =
      (.ok a, ⟨w.after before ++ trailing, (w.after before).length⟩)

theorem Reads.readsBack {d : Decoder α} {w : Writer} {added : Bytes} {a : α}
    (hd : Reads d added a) (hw : w.Appends added) : ReadsBack d w a := by
  intro before trailing
  rw [hw before]
  refine ⟨List.prefix_append before added, ?_⟩
  have hrest : (⟨before ++ added ++ trailing, before.length⟩ : Cursor).rest =
      added ++ trailing := by
    rw [Cursor.rest, List.append_assoc, List.drop_left]
  rw [hd _ trailing hrest, List.length_append]
  rfl

/-- Reads `n` times. -/
def many (d : Decoder α) : Nat → Decoder (List α)
  | 0 => pure []
  | n + 1 => do
    let first ← d
    let others ← many d n
    pure (first :: others)

theorem Reads.many {d : Decoder α} {wrote : β → Bytes} {given : β → α} {items : List β}
    (h : ∀ item ∈ items, Reads d (wrote item) (given item)) :
    Reads (Decoder.many d items.length) (items.flatMap wrote) (items.map given) := by
  induction items with
  | nil => exact .pure []
  | cons item items ih =>
    rw [List.flatMap_cons]
    apply Reads.bind (h item List.mem_cons_self)
    exact Reads.bind_pure (ih fun other hother => h other (.tail _ hother)) _

end Decoder
end KeyOrder
