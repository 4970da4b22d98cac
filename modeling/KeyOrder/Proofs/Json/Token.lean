import KeyOrder.Json.Token
import KeyOrder.Proofs.Json.Number
import KeyOrder.Proofs.Json.Quoted

/-!
# KeyOrder.Proofs.Json.Token

The tokens that pieces of a text are read as. `Spells text ts` says that the piece gives these
tokens wherever it stands; blanks give none, and a quoted text gives one. Two pieces side by side
give the tokens of both (`Spells.append`). A number is the one piece that may go on in what
follows, so it needs a text after it that ends numbers (`SpellsBefore.number`).
-/

namespace KeyOrder
namespace Json
namespace Token

open Number (Ends)

/-- Before any text the piece is read as these tokens. -/
def Spells (text : List Char) (ts : List Token) : Prop :=
  ∀ (rest : List Char) (more : List Token), readAll rest = some more →
    readAll (text ++ rest) = some (ts ++ more)

namespace Spells

theorem append {a b : List Char} {xs ys : List Token} (ha : Spells a xs) (hb : Spells b ys) :
    Spells (a ++ b) (xs ++ ys) := by
  intro rest more h
  rw [List.append_assoc, List.append_assoc]
  exact ha _ _ (hb _ _ h)

theorem token {c : Char} {text : List Char} {t : Token} (hc : isBlank c = false)
    (h : ∀ rest, read (c :: text ++ rest) = some (t, rest)) : Spells (c :: text) [t] := by
  intro rest more hrest
  have hread := readAll_of_read hc (h rest)
  rw [hrest] at hread
  exact hread

theorem blanks {text : List Char} (h : ∀ c ∈ text, isBlank c = true) : Spells text [] := by
  intro rest more hrest
  induction text with
  | nil => exact hrest
  | cons c text ih =>
    rw [List.cons_append, readAll_blank (h c List.mem_cons_self)]
    exact ih fun d hd => h d (List.mem_cons_of_mem c hd)

theorem quoted (text : List Char) : Spells (Quoted.encode text) [.string (String.ofList text)] := by
  intro rest more hrest
  have hread : read ('"' :: (text.flatMap Quoted.encodeChar ++ '"' :: rest)) =
      some (.string (String.ofList text), rest) := by
    rw [read, Quoted.read_encode]
  rw [Quoted.encode_append, readAll_of_read (by decide) hread, hrest]
  rfl

end Spells

/-- A number is told from the other tokens by its first character. -/
theorem read_number {c : Char} {cs text rest : List Char}
    (h : Number.read (c :: cs) = some (text, rest)) :
    isBlank c = false ∧ read (c :: cs) = some (.number (String.ofList text), rest) := by
  have hhead : c = '-' ∨ c.isDigit = true := Number.read_head h
  constructor
  · cases hblank : isBlank c with
    | false => rfl
    | true =>
      simp only [isBlank, Bool.or_eq_true, beq_iff_eq] at hblank
      rcases hblank with ((rfl | rfl) | rfl) | rfl <;> simp at hhead
  · rw [read, h]
    all_goals
      intro tail heq
      cases heq
      simp at hhead

/-- Before a text that does not go on with a number the piece is read as these tokens. -/
def SpellsBefore (text : List Char) (ts : List Token) : Prop :=
  ∀ (rest : List Char) (more : List Token), Ends rest → readAll rest = some more →
    readAll (text ++ rest) = some (ts ++ more)

theorem Spells.before {text : List Char} {ts : List Token} (h : Spells text ts) :
    SpellsBefore text ts := fun rest more _ hrest => h rest more hrest

theorem Spells.append_before {a b : List Char} {xs ys : List Token} (ha : Spells a xs)
    (hb : SpellsBefore b ys) : SpellsBefore (a ++ b) (xs ++ ys) := by
  intro rest more hends h
  rw [List.append_assoc, List.append_assoc]
  exact ha _ _ (hb _ _ hends h)

namespace SpellsBefore

theorem number {text : List Char} (htext : Number.read text = some (text, [])) :
    SpellsBefore text [.number (String.ofList text)] := by
  intro rest more hends hrest
  have hread := Number.read_append hends htext
  cases text with
  | nil => simp [Number.read, Number.readUnsigned, Number.readInteger] at htext
  | cons c text =>
    rw [List.cons_append] at hread ⊢
    obtain ⟨hblank, htoken⟩ := read_number hread
    simp [readAll_of_read hblank htoken, hrest]

/-- The second piece has to end a number that the first one may be. -/
theorem append {a b : List Char} {xs ys : List Token} (ha : SpellsBefore a xs)
    (hb : SpellsBefore b ys) (hends : ∀ rest, Ends rest → Ends (b ++ rest)) :
    SpellsBefore (a ++ b) (xs ++ ys) := by
  intro rest more hrest h
  rw [List.append_assoc, List.append_assoc]
  exact ha _ _ (hends rest hrest) (hb rest more hrest h)

/-- Pieces one after another, each of which ends a number in the piece before it. -/
theorem flatMap {α : Type} {text : α → List Char} {ts : α → List Token} {items : List α}
    (h : ∀ item ∈ items, SpellsBefore (text item) (ts item))
    (hends : ∀ item rest, Ends (text item ++ rest)) :
    SpellsBefore (items.flatMap text) (items.flatMap ts) ∧
      ∀ rest, Ends rest → Ends (items.flatMap text ++ rest) := by
  induction items with
  | nil => exact ⟨fun rest more _ hrest => hrest, fun rest hrest => hrest⟩
  | cons item items ih =>
    obtain ⟨hitems, hrest⟩ := ih fun other hother => h other (List.mem_cons_of_mem item hother)
    rw [List.flatMap_cons, List.flatMap_cons]
    constructor
    · exact (h item List.mem_cons_self).append hitems hrest
    · intro rest _
      rw [List.append_assoc]
      exact hends item _

end SpellsBefore

end Token
end Json
end KeyOrder
