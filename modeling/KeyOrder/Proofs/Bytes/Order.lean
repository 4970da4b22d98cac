import KeyOrder.Bytes.Basic
import KeyOrder.Proofs.Ordering

/-!
# KeyOrder.Proofs.Bytes.Order

The order of byte strings, told by their bytes. `Before a b` says that `a` is the beginning of a
longer `b`, or is less at the first byte that differs; `compare_eq_order` that `compare` decides
just this.
-/

namespace KeyOrder
namespace Bytes

def Before (a b : Bytes) : Prop :=
  (∃ rest, rest ≠ [] ∧ b = a ++ rest) ∨
    ∃ (common : Bytes) (x y : UInt8) (r s : Bytes),
      a = common ++ x :: r ∧ b = common ++ y :: s ∧ x.toNat < y.toNat

theorem before_nil_cons (y : UInt8) (b : Bytes) : Before [] (y :: b) :=
  .inl ⟨y :: b, by simp, rfl⟩

theorem not_before_nil (a : Bytes) : ¬Before a [] := by
  rintro (⟨rest, hne, h⟩ | ⟨common, x, y, r, s, -, h, -⟩)
  · exact hne (List.append_eq_nil_iff.mp h.symm).2
  · simp at h

theorem before_cons (x y : UInt8) (a b : Bytes) :
    Before (x :: a) (y :: b) ↔ x.toNat < y.toNat ∨ x = y ∧ Before a b := by
  constructor
  · rintro (⟨rest, hne, h⟩ | ⟨common, x', y', r, s, ha, hb, hlt⟩)
    · rw [List.cons_append, List.cons.injEq] at h
      exact .inr ⟨h.1.symm, .inl ⟨rest, hne, h.2⟩⟩
    · cases common with
      | nil =>
        rw [List.nil_append, List.cons.injEq] at ha hb
        rw [ha.1, hb.1]
        exact .inl hlt
      | cons z common =>
        rw [List.cons_append, List.cons.injEq] at ha hb
        exact .inr ⟨ha.1.trans hb.1.symm, .inr ⟨common, x', y', r, s, ha.2, hb.2, hlt⟩⟩
  · rintro (hlt | ⟨rfl, ⟨rest, hne, rfl⟩ | ⟨common, x', y', r, s, rfl, rfl, hlt⟩⟩)
    · exact .inr ⟨[], x, y, a, b, rfl, rfl, hlt⟩
    · exact .inl ⟨rest, hne, rfl⟩
    · exact .inr ⟨x :: common, x', y', r, s, rfl, rfl, hlt⟩

theorem compare_lt_iff (a : Bytes) : ∀ b : Bytes, compare a b = .lt ↔ Before a b := by
  induction a with
  | nil =>
    intro b
    cases b with
    | nil =>
      constructor
      · intro h
        cases h
      · intro h
        exact absurd h (not_before_nil [])
    | cons y b =>
      constructor
      · intro _
        exact before_nil_cons y b
      · intro _
        rfl
  | cons x a ih =>
    intro b
    cases b with
    | nil =>
      constructor
      · intro h
        cases h
      · intro h
        exact absurd h (not_before_nil (x :: a))
    | cons y b =>
      rw [before_cons, ← ih b, List.compare_cons_cons, compare_toNat8]
      rcases lt_trichotomy x.toNat y.toNat with h | h | h
      · rw [compare_lt_iff_lt.mpr h]
        simp [h]
      · rw [compare_eq_iff_eq.mpr h, UInt8.toNat_inj.mp h]
        simp
      · have hne : x ≠ y := by
          rintro rfl
          exact lt_irrefl _ h
        rw [compare_gt_iff_gt.mpr h]
        simp [hne, h.le]

instance (a b : Bytes) : Decidable (Before a b) := decidable_of_iff _ (compare_lt_iff a b)

def order (a b : Bytes) : Ordering :=
  if Before a b then .lt else if Before b a then .gt else .eq

theorem compare_eq_order (a b : Bytes) : compare a b = order a b := by
  have hswap : compare b a = (compare a b).swap := Std.OrientedCmp.eq_swap
  unfold order
  simp only [← compare_lt_iff, hswap]
  cases compare a b <;> rfl

end Bytes
end KeyOrder
