import KeyOrder.Proofs.Bytes.Order
import KeyOrder.Proofs.Bytes.Value
import KeyOrder.Proofs.Key.Requests
import KeyOrder.Registry.Config

/-!
# KeyOrder.Proofs.Registry.ThreeWay

The two questions that can be put to a comparator have one answer. A native comparator is asked
twice for the three-way order, and a key is asked for the three-way order to find which is less;
in both cases `less` says whether `compare` says less (`less_eq`), whatever the table.

* `NativeLess.StrictWeak` — native comparators whose three-way order is a total preorder
  (`transCmp_compare`), with those equal that are not less either way.
* `NativeLess.compare_isLT` — what is less in a three-way order gives back that order. The built-in
  comparators are so made, of the integer that a key begins with (`signedAt`) or of all its bytes.
-/

namespace KeyOrder

open PowerTable (Reachable)
open Std (OrientedCmp TransCmp)

namespace Bytes

/-- The number of bytes, the least significant first. -/
def littleEndian : Bytes → Nat
  | [] => 0
  | byte :: bytes => byte.toNat + 256 * littleEndian bytes

theorem value_reverse (bytes : Bytes) : value bytes.reverse = littleEndian bytes := by
  induction bytes with
  | nil => rfl
  | cons byte bytes ih =>
    rw [List.reverse_cons, value_append_byte, ih, littleEndian, Nat.add_comm]

theorem order_eq_iff (a b : Bytes) : order a b = .eq ↔ a = b := by
  rw [← compare_eq_order]
  exact Std.LawfulEqOrd.compare_eq_iff_eq

end Bytes

namespace NativeLess

variable {less : NativeLess}

/-! ## Asking both ways -/

theorem isLT_compare (less : NativeLess) (a b : Bytes) : (less.compare a b).isLT = less a b := by
  unfold NativeLess.compare
  cases less a b with
  | true => rfl
  | false => cases less b a <;> rfl

theorem compare_eq_eq_iff (less : NativeLess) (a b : Bytes) :
    less.compare a b = .eq ↔ less a b = false ∧ less b a = false := by
  unfold NativeLess.compare
  cases less a b with
  | true => simp
  | false => cases less b a <;> simp

def StrictWeak (less : NativeLess) : Prop := IsStrictWeakOrder Bytes fun a b => less a b = true

namespace StrictWeak

variable (h : less.StrictWeak)
include h

theorem irrefl (a : Bytes) : ¬less a a = true := h.toIsStrictOrder.toIrrefl.irrefl a

theorem trans {a b c : Bytes} : less a b = true → less b c = true → less a c = true :=
  h.toIsStrictOrder.toIsTrans.trans a b c

theorem asymm {a b : Bytes} (hab : less a b = true) : less b a = false :=
  Bool.eq_false_iff.mpr fun hba => h.irrefl a (h.trans hab hba)

/-- What is not less is related as `≤` is. -/
theorem not_less_trans {a b c : Bytes} (hba : less b a = false) (hcb : less c b = false) :
    less c a = false := by
  rw [Bool.eq_false_iff] at hba hcb ⊢
  intro hca
  have hab : ¬less a b = true := fun hab => hcb (h.trans hca hab)
  have hbc : ¬less b c = true := fun hbc => hba (h.trans hbc hca)
  exact (h.incomp_trans a b c ⟨hab, hba⟩ ⟨hbc, hcb⟩).2 hca

theorem swap_compare (a b : Bytes) : (less.compare a b).swap = less.compare b a := by
  unfold NativeLess.compare
  cases hab : less a b with
  | true =>
    rw [h.asymm hab]
    rfl
  | false => cases less b a <;> rfl

theorem isLE_compare_iff (a b : Bytes) :
    (less.compare a b).isLE = true ↔ less b a = false := by
  unfold NativeLess.compare
  cases hab : less a b with
  | true => simp [h.asymm hab]
  | false => cases less b a <;> simp

theorem isLE_trans {a b c : Bytes} (hab : (less.compare a b).isLE = true)
    (hbc : (less.compare b c).isLE = true) : (less.compare a c).isLE = true := by
  rw [h.isLE_compare_iff] at hab hbc ⊢
  exact h.not_less_trans hab hbc

end StrictWeak

/-! ## Three-way orders -/

section OfCompare

variable (cmp : Bytes → Bytes → Ordering)

theorem compare_isLT [OrientedCmp cmp] (a b : Bytes) :
    NativeLess.compare (fun a b => (cmp a b).isLT) a b = cmp a b := by
  have hswap : cmp b a = (cmp a b).swap := OrientedCmp.eq_swap
  show (if (cmp a b).isLT then .lt else if (cmp b a).isLT then .gt else .eq) = cmp a b
  rw [hswap]
  cases cmp a b <;> rfl

theorem not_isLT_iff [OrientedCmp cmp] (a b : Bytes) :
    ¬(cmp a b).isLT = true ∧ ¬(cmp b a).isLT = true ↔ cmp a b = .eq := by
  have hswap : cmp b a = (cmp a b).swap := OrientedCmp.eq_swap
  rw [hswap]
  cases cmp a b <;> simp

theorem strictWeak_isLT [TransCmp cmp] : StrictWeak fun a b => (cmp a b).isLT where
  irrefl a := by simp [Std.ReflCmp.compare_self]
  trans a b c hab hbc := by
    rw [Ordering.isLT_iff_eq_lt] at hab hbc ⊢
    exact TransCmp.lt_trans hab hbc
  incomp_trans a b c hab hbc := by
    rw [not_isLT_iff] at hab hbc ⊢
    exact TransCmp.eq_trans hab hbc

end OfCompare

/-! ## The built-in comparators -/

/-- The signed integer in the first bytes of a key, below all integers if there are too few. -/
def signedAt (width : Nat) (key : Bytes) : WithBot Int :=
  if width ≤ key.length then
    ((Int.bmod (Bytes.littleEndian (key.take width)) (256 ^ width) : Int) : WithBot Int)
  else ⊥

/-- What follows those bytes does not count. -/
theorem signedAt_append {width : Nat} {key : Bytes} (h : width ≤ key.length) (more : Bytes) :
    signedAt width (key ++ more) = signedAt width key := by
  have hle : width ≤ (key ++ more).length := by
    rw [List.length_append]
    exact Nat.le_add_right_of_le h
  unfold signedAt
  rw [if_pos hle, if_pos h, List.take_append_of_le_length h]

theorem compare_signedAt {α : Type} [Ord α] {width : Nat} {ofNat : Nat → α} {toInt : α → Int}
    (hcompare : ∀ v w : α, compare v w = compare (toInt v) (toInt w))
    (hofNat : ∀ n : Nat, toInt (ofNat n) = Int.bmod n (256 ^ width)) (at? : Bytes → Option α)
    (hat : ∀ key, at? key = if width ≤ key.length then
      some (ofNat (Bytes.value (key.take width).reverse)) else none) (a b : Bytes) :
    compare (at? a) (at? b) = compare (signedAt width a) (signedAt width b) := by
  simp only [hat, Bytes.value_reverse, signedAt, ← hofNat]
  by_cases ha : width ≤ a.length
  · rw [if_pos ha, if_pos ha]
    by_cases hb : width ≤ b.length
    · rw [if_pos hb, if_pos hb]
      exact (hcompare _ _).trans (compare_congr WithBot.coe_lt_coe.symm WithBot.coe_inj.symm)
    · rw [if_neg hb, if_neg hb, compare_gt_iff_gt.mpr (WithBot.bot_lt_coe _)]
      rfl
  · rw [if_neg ha, if_neg ha]
    by_cases hb : width ≤ b.length
    · rw [if_pos hb, if_pos hb, compare_lt_iff_lt.mpr (WithBot.bot_lt_coe _)]
      rfl
    · rw [if_neg hb, if_neg hb, compare_eq_iff_eq.mpr rfl]
      rfl

theorem toInt_ofNat32 (n : Nat) : (Int32.ofNat n).toInt = Int.bmod n (256 ^ 4) := by
  have hsize : Int32.size = 256 ^ 4 := by decide
  rw [← hsize]
  exact Int32.toInt_ofNat'

theorem toInt_ofNat64 (n : Nat) : (Int64.ofNat n).toInt = Int.bmod n (256 ^ 8) := by
  have hsize : Int64.size = 256 ^ 8 := by decide
  rw [← hsize]
  exact Int64.toInt_ofNat'

theorem compare_int32 (a b : Bytes) :
    int32.compare a b = compare (signedAt 4 a) (signedAt 4 b) := by
  rw [← compare_signedAt compare_toInt32 toInt_ofNat32 int32At (fun _ => rfl) a b]
  exact compare_isLT (compareOn int32At) a b

theorem compare_int64 (a b : Bytes) :
    int64.compare a b = compare (signedAt 8 a) (signedAt 8 b) := by
  rw [← compare_signedAt compare_toInt64 toInt_ofNat64 int64At (fun _ => rfl) a b]
  exact compare_isLT (compareOn int64At) a b

theorem compare_bytes (a b : Bytes) : bytes.compare a b = Bytes.order a b := by
  rw [← Bytes.compare_eq_order]
  exact compare_isLT compare a b

theorem strictWeak_builtIn {b : String × NativeLess} (h : b ∈ Registry.builtIns) :
    b.2.StrictWeak := by
  simp only [Registry.builtIns, List.mem_cons, List.not_mem_nil, or_false] at h
  rcases h with rfl | rfl | rfl
  · exact strictWeak_isLT (compareOn int32At)
  · exact strictWeak_isLT (compareOn int64At)
  · exact strictWeak_isLT compare

end NativeLess

/-! ## Both questions -/

namespace Comparator

open NativeLess (signedAt)

/-- Of one table, which is left the same. -/
theorem less_eq (c : Comparator) (a b : Bytes) (t : PowerTable) :
    c.less a b t = ((c.compare a b t).1.map Ordering.isLT, (c.compare a b t).2) := by
  cases c with
  | native less =>
    show (Except.ok (less a b), t) = (Except.ok (less.compare a b).isLT, t)
    rw [NativeLess.isLT_compare]
  | key fields => rfl

theorem compare_reachable (c : Comparator) (a b : Bytes) {t u : PowerTable} (ht : Reachable t)
    (hu : Reachable u) : (c.compare a b t).1 = (c.compare a b u).1 := by
  obtain ⟨exponents, answer, hcompare⟩ := c.compare_asks a b
  rw [hcompare t ht.filled, hcompare u hu.filled]

/-- Whether one key is less and how it compares are one answer, or one error. The three-way order
of a native comparator that is a strict weak order is a total preorder, in which keys are equal if
neither is less. The built-in comparators are such: two order by the signed integers that keys begin
with, one by all their bytes. -/
theorem less_agrees :
    (∀ (c : Comparator) (a b : Bytes) (t u : PowerTable), Reachable t → Reachable u →
      (∀ e, (c.less a b t).1 = .error e ↔ (c.compare a b u).1 = .error e) ∧
      ((c.less a b t).1 = .ok true ↔ (c.compare a b u).1 = .ok .lt) ∧
      ((c.less a b t).1 = .ok false ↔ ∃ o ≠ .lt, (c.compare a b u).1 = .ok o)) ∧
    (∀ less : NativeLess, less.StrictWeak →
      (∀ a b t, (native less).compare a b t = (.ok (less.compare a b), t)) ∧
      (∀ a b, (less.compare a b).swap = less.compare b a) ∧
      (∀ a b, less.compare a b = .eq ↔ less a b = false ∧ less b a = false) ∧
      ∀ a b c, (less.compare a b).isLE = true → (less.compare b c).isLE = true →
        (less.compare a c).isLE = true) ∧
    (∀ b ∈ Registry.builtIns, NativeLess.StrictWeak b.2) ∧
    (∀ a b, NativeLess.int32.compare a b = compare (signedAt 4 a) (signedAt 4 b)) ∧
    (∀ a b, NativeLess.int64.compare a b = compare (signedAt 8 a) (signedAt 8 b)) ∧
    (∀ (width : Nat) (key more : Bytes), width ≤ key.length →
      signedAt width (key ++ more) = signedAt width key) ∧
    (∀ a b, NativeLess.bytes.compare a b = Bytes.order a b) ∧
    ∀ a b, NativeLess.bytes.compare a b = .eq ↔ a = b := by
  refine ⟨?_, ?_, fun b => NativeLess.strictWeak_builtIn, NativeLess.compare_int32,
    NativeLess.compare_int64, fun _ _ more h => NativeLess.signedAt_append h more,
    NativeLess.compare_bytes, ?_⟩
  · intro c a b t u ht hu
    rw [less_eq, compare_reachable c a b ht hu]
    cases (c.compare a b u).1 with
    | error e => simp [Except.map]
    | ok o => cases o <;> simp [Except.map]
  · intro less h
    exact ⟨fun _ _ _ => rfl, h.swap_compare, less.compare_eq_eq_iff, fun _ _ _ => h.isLE_trans⟩
  · intro a b
    rw [NativeLess.compare_bytes, Bytes.order_eq_iff]

/-- A key that no field can be read of, and native keys of which one is too short. -/
theorem less_agrees_short :
    ((key [⟨.int, .ascending⟩]).less [2] [0] PowerTable.new).1 = .error (.invalidPresence 2) ∧
    NativeLess.int32.compare [1, 2] [0, 0, 0, 0x80, 7] = .lt := by
  have hkey := less_agrees.1 (key [⟨.int, .ascending⟩]) [2] [0] PowerTable.new
    (PowerTable.prefilled 40) .new (.prefilled 40)
  exact ⟨(hkey.1 (.invalidPresence 2)).mpr rfl, (less_agrees.2.2.2.1 _ _).trans (by decide)⟩

end Comparator
end KeyOrder
