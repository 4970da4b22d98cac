import KeyOrder.Key.Basic
import KeyOrder.Proofs.Field.Preorder

/-!
# KeyOrder.Proofs.Key.Preorder

Keys are preordered, as far as they can be read. `Key.order` is the comparison without the table;
by induction on the fields it turns around, is reflexive and transitive, and `compareFields_eq`
says that it is what a comparison with any reachable table answers.

Which field decides differs from pair to pair. `order_cons` says it for one field: of three keys
in order, the first field is equal on both sides, or is less on one and so less on the whole.
-/

namespace KeyOrder

open PowerTable (Reachable)
open Std (OrientedCmp ReflCmp TransCmp)

/-! ## One field -/

theorem Direction.apply_eq_iff (d : Direction) (o : Ordering) : d.apply o = .eq ↔ o = .eq := by
  cases d with
  | ascending => exact Iff.rfl
  | descending => exact Ordering.swap_eq_iff_eq_swap

namespace FieldOrdering

/-- The order of a field in its direction. -/
def order (f : FieldOrdering) (x y : Option f.type.Content) : Ordering :=
  f.direction.apply (f.type.nullableOrder x y)

instance (f : FieldOrdering) : OrientedCmp f.order where
  eq_swap {x y} := by
    unfold order
    rw [← f.type.swap_nullableOrder y x]
    cases f.direction with
    | ascending => rfl
    | descending => rfl

instance (f : FieldOrdering) : TransCmp f.order where
  isLE_trans {x y z} hxy hyz := by
    unfold order at *
    cases hd : f.direction with
    | ascending =>
      rw [hd] at hxy hyz
      have hxy' : (f.type.nullableOrder x y).isLE = true := hxy
      have hxz : (f.type.nullableOrder x z).isLE = true := TransCmp.isLE_trans hxy' hyz
      exact hxz
    | descending =>
      rw [hd] at hxy hyz
      simp only [Direction.apply, FieldType.swap_nullableOrder] at hxy hyz ⊢
      exact TransCmp.isLE_trans hyz hxy

end FieldOrdering

namespace Key

/-! ## All fields -/

/-- The order of two keys without the table. -/
def order : List FieldOrdering → Cursor → Cursor → Except DecodeError Ordering
  | [], _, _ => .ok .eq
  | f :: fields, a, b =>
    match f.type.read a, f.type.read b with
    | (.error e, _), _ => .error e
    | (.ok _, _), (.error e, _) => .error e
    | (.ok x, a), (.ok y, b) =>
      match f.order x y with
      | .eq => order fields a b
      | unequal => .ok unequal

theorem order_cons {f : FieldOrdering} {fields : List FieldOrdering} {a b : Cursor}
    {o : Ordering} :
    order (f :: fields) a b = .ok o ↔
      ∃ x y a' b', f.type.read a = (.ok x, a') ∧ f.type.read b = (.ok y, b') ∧
        (f.order x y = .eq ∧ order fields a' b' = .ok o ∨ f.order x y ≠ .eq ∧ f.order x y = o) := by
  rw [order]
  cases ha : f.type.read a with
  | mk left a' =>
    cases hb : f.type.read b with
    | mk right b' =>
      cases left with
      | error e => simp
      | ok x =>
        cases right with
        | error e => simp
        | ok y => cases hxy : f.order x y <;> simp [hxy]

theorem order_cons_lt {f : FieldOrdering} (fields : List FieldOrdering) {a b a' b' : Cursor}
    {x y : Option f.type.Content} (ha : f.type.read a = (.ok x, a'))
    (hb : f.type.read b = (.ok y, b')) (hxy : f.order x y = .lt) :
    order (f :: fields) a b = .ok .lt := by
  refine order_cons.mpr ⟨x, y, a', b', ha, hb, .inr ⟨?_, hxy⟩⟩
  rw [hxy]
  decide

theorem order_swap (fields : List FieldOrdering) :
    ∀ {a b : Cursor} {o : Ordering}, order fields a b = .ok o → order fields b a = .ok o.swap := by
  induction fields with
  | nil =>
    intro a b o h
    cases h
    rfl
  | cons f fields ih =>
    intro a b o h
    obtain ⟨x, y, a', b', ha, hb, hxy⟩ := order_cons.mp h
    have hyx : f.order y x = (f.order x y).swap := OrientedCmp.eq_swap
    refine order_cons.mpr ⟨y, x, b', a', hb, ha, ?_⟩
    rcases hxy with ⟨heq, hrest⟩ | ⟨hne, rfl⟩
    · exact .inl ⟨by rw [hyx, heq]; rfl, ih hrest⟩
    · refine .inr ⟨?_, hyx⟩
      rw [hyx]
      exact fun h => hne (Ordering.swap_eq_iff_eq_swap.mp h)

theorem order_error {fields : List FieldOrdering} {a b : Cursor}
    (h : ∃ e, order fields a b = .error e) : ∃ e, order fields b a = .error e := by
  obtain ⟨e, he⟩ := h
  cases hba : order fields b a with
  | error e' => exact ⟨e', rfl⟩
  | ok o => cases he.symm.trans (order_swap fields hba)

theorem order_self (fields : List FieldOrdering) :
    ∀ {a : Cursor} {o : Ordering}, order fields a a = .ok o → o = .eq := by
  induction fields with
  | nil =>
    intro a o h
    cases h
    rfl
  | cons f fields ih =>
    intro a o h
    obtain ⟨x, y, a', b', ha, hb, hxy⟩ := order_cons.mp h
    obtain ⟨hval, rfl⟩ := Prod.mk.inj (ha.symm.trans hb)
    obtain rfl := Except.ok.inj hval
    rcases hxy with ⟨-, hrest⟩ | ⟨hne, -⟩
    · exact ih hrest
    · have hself : f.order x x = .eq := ReflCmp.compare_self
      exact absurd hself hne

theorem lt_of_ne_of_ne {o : Ordering} (heq : o ≠ .eq) (hgt : o ≠ .gt) : o = .lt := by
  cases o with
  | lt => rfl
  | eq => exact absurd rfl heq
  | gt => exact absurd rfl hgt

theorem order_trans (fields : List FieldOrdering) :
    ∀ {a b c : Cursor} {o p : Ordering}, order fields a b = .ok o → order fields b c = .ok p →
      o ≠ .gt → p ≠ .gt →
      ∃ q, order fields a c = .ok q ∧ q ≠ .gt ∧ (o = .lt ∨ p = .lt → q = .lt) := by
  induction fields with
  | nil =>
    intro a b c o p hab hbc _ _
    cases hab
    cases hbc
    exact ⟨.eq, rfl, by decide, by simp⟩
  | cons f fields ih =>
    intro a b c o p hab hbc hogt hpgt
    obtain ⟨x, y, a', b', ha, hb, hxy⟩ := order_cons.mp hab
    obtain ⟨y', z, b'', c', hb', hc, hyz⟩ := order_cons.mp hbc
    obtain ⟨hval, rfl⟩ := Prod.mk.inj (hb.symm.trans hb')
    obtain rfl := Except.ok.inj hval
    rcases hxy with ⟨hxy, hab'⟩ | ⟨hxy, rfl⟩
    · rcases hyz with ⟨hyz, hbc'⟩ | ⟨hyz, rfl⟩
      · -- no pair is decided here
        obtain ⟨q, hac', hq⟩ := ih hab' hbc' hogt hpgt
        have hxz : f.order x z = .eq := TransCmp.eq_trans hxy hyz
        exact ⟨q, order_cons.mpr ⟨x, z, a', c', ha, hc, .inl ⟨hxz, hac'⟩⟩, hq⟩
      · have hlt : f.order y z = .lt := lt_of_ne_of_ne hyz hpgt
        have hxz : f.order x z = .lt := (TransCmp.congr_left hxy).trans hlt
        exact ⟨.lt, order_cons_lt fields ha hc hxz, by decide, fun _ => rfl⟩
    · have hlt : f.order x y = .lt := lt_of_ne_of_ne hxy hogt
      have hxz : f.order x z = .lt := by
        rcases hyz with ⟨hyz, -⟩ | ⟨hyz, rfl⟩
        · exact TransCmp.lt_of_lt_of_eq hlt hyz
        · exact TransCmp.lt_trans hlt (lt_of_ne_of_ne hyz hpgt)
      exact ⟨.lt, order_cons_lt fields ha hc hxz, by decide, fun _ => rfl⟩

/-! ## With the table -/

/-- One step: both fields are read, and go on to the next ones if they are equal. -/
theorem compareFields_cons {f : FieldOrdering} (fields : List FieldOrdering) {w : Walk}
    {x y : Option f.type.Content} {left right : Cursor} (hx : f.type.read w.left = (.ok x, left))
    (hy : f.type.read w.right = (.ok y, right)) (hxbounded : f.type.Bounded x)
    (hybounded : f.type.Bounded y) (hpowers : Reachable w.powers) :
    ∃ powers, Reachable powers ∧ compareFields (f :: fields) w =
      match f.order x y with
      | .eq => compareFields fields ⟨left, right, powers⟩
      | unequal => (.ok unequal, ⟨left, right, powers⟩) := by
  have hanswers := FieldType.orderNullable_eq hxbounded hybounded hpowers.filled
  refine ⟨_, hanswers.reachable hpowers, ?_⟩
  rw [compareFields, FieldType.compare, Walk.compareNext_ok hx hy, hanswers.order]
  unfold FieldOrdering.order
  cases f.type.nullableOrder x y with
  | eq => rw [(f.direction.apply_eq_iff .eq).mpr rfl]
  | lt => cases f.direction <;> rfl
  | gt => cases f.direction <;> rfl

theorem compareFields_eq (fields : List FieldOrdering) :
    ∀ {w : Walk}, w.left.buffer.length < 2 ^ 56 → w.right.buffer.length < 2 ^ 56 →
      Reachable w.powers →
      (compareFields fields w).1 = order fields w.left w.right ∧
        Reachable (compareFields fields w).2.powers := by
  induction fields with
  | nil =>
    intro w _ _ hpowers
    exact ⟨rfl, hpowers⟩
  | cons f fields ih =>
    intro w hleft hright hpowers
    have hgleft := f.type.gives_read hleft w.left rfl
    have hgright := f.type.gives_read hright w.right rfl
    rw [order]
    cases ha : f.type.read w.left with
    | mk left a' =>
      cases left with
      | error e =>
        rw [compareFields, FieldType.compare, Walk.compareNext_left ha]
        exact ⟨rfl, hpowers⟩
      | ok x =>
        cases hb : f.type.read w.right with
        | mk right b' =>
          cases right with
          | error e =>
            rw [compareFields, FieldType.compare, Walk.compareNext_right ha hb]
            exact ⟨rfl, hpowers⟩
          | ok y =>
            rw [ha] at hgleft
            rw [hb] at hgright
            obtain ⟨powers, hreachable, hstep⟩ := compareFields_cons fields ha hb
              (hgleft.2 x rfl) (hgright.2 y rfl) hpowers
            rw [hstep]
            show _ = (match f.order x y with
              | .eq => order fields a' b'
              | unequal => .ok unequal) ∧ _
            cases f.order x y with
            | eq => exact ih (hgleft.1 ▸ hleft) (hgright.1 ▸ hright) hreachable
            | lt => exact ⟨rfl, hreachable⟩
            | gt => exact ⟨rfl, hreachable⟩

theorem compare_eq (fields : List FieldOrdering) {a b : Bytes} (ha : a.length < 2 ^ 56)
    (hb : b.length < 2 ^ 56) {t : PowerTable} (ht : Reachable t) :
    (Key.compare fields a b t).1 = order fields (.start a) (.start b) ∧
      Reachable (Key.compare fields a b t).2 := by
  have hfields := compareFields_eq fields (w := Walk.start a b t) ha hb ht
  exact hfields

/-- Keys are in a total preorder as far as they can be compared, whatever bytes they are, and
whatever table each comparison finds. Two keys fail together, one way round as the other; and of
three keys in order the first and the last can always be compared. -/
theorem compare_preorder (fields : List FieldOrdering) {a b c : Bytes} (ha : a.length < 2 ^ 56)
    (hb : b.length < 2 ^ 56) (hc : c.length < 2 ^ 56) {t u v : PowerTable} (ht : Reachable t)
    (hu : Reachable u) (hv : Reachable v) :
    Reachable (Key.compare fields a b t).2 ∧
    (∀ o, (Key.compare fields a b t).1 = .ok o ↔ (Key.compare fields b a u).1 = .ok o.swap) ∧
    ((∃ e, (Key.compare fields a b t).1 = .error e) ↔
      ∃ e, (Key.compare fields b a u).1 = .error e) ∧
    (∀ o, (Key.compare fields a a t).1 = .ok o → o = .eq) ∧
    ∀ o p, (Key.compare fields a b t).1 = .ok o → (Key.compare fields b c u).1 = .ok p →
      o ≠ .gt → p ≠ .gt →
      ∃ q, (Key.compare fields a c v).1 = .ok q ∧ q ≠ .gt ∧ (o = .lt ∨ p = .lt → q = .lt) := by
  obtain ⟨hab, hreachable⟩ := compare_eq fields ha hb ht
  have hba := (compare_eq fields hb ha hu).1
  have haa := (compare_eq fields ha ha ht).1
  have hbc := (compare_eq fields hb hc hu).1
  have hac := (compare_eq fields ha hc hv).1
  rw [hab, hba, haa, hbc, hac]
  have hswap : ∀ {o : Ordering}, order fields (.start b) (.start a) = .ok o.swap →
      order fields (.start a) (.start b) = .ok o := by
    intro o h
    rw [← Ordering.swap_swap (o := o)]
    exact order_swap fields h
  refine ⟨hreachable, ?_, ⟨order_error, order_error⟩, ?_, ?_⟩
  · intro o
    exact ⟨order_swap fields, hswap⟩
  · intro o
    exact order_self fields
  · intro o p
    exact order_trans fields

/-- Equal decimals of different lengths before an integer, and a key whose integer is malformed but
is not reached. -/
theorem compare_preorder_unreached :
    (Key.compare [⟨.decimal, .descending⟩, ⟨.int, .ascending⟩] [0x83, 0, 2, 1, 0, 0, 0, 1]
      [0x83, 0, 1, 9] (PowerTable.prefilled 40)).1 = .ok .lt := by
  have hpreorder := compare_preorder [⟨.decimal, .descending⟩, ⟨.int, .ascending⟩]
    (show ([0x83, 0, 2, 1, 0, 0, 0, 1] : Bytes).length < 2 ^ 56 by decide)
    (show ([0x83, 0x8f, 1, 0x8e, 0, 20, 1, 0, 0, 0, 2] : Bytes).length < 2 ^ 56 by decide)
    (show ([0x83, 0, 1, 9] : Bytes).length < 2 ^ 56 by decide)
    Reachable.new Reachable.new (Reachable.prefilled 40)
  obtain ⟨q, hq, -, hlt⟩ := hpreorder.2.2.2.2 .lt .lt (by rfl) (by rfl) (by decide) (by decide)
  rw [hq, hlt (.inl rfl)]

end Key
end KeyOrder
