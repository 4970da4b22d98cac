import KeyOrder.Proofs.Field.Delimited

/-!
# KeyOrder.Proofs.Key.Delimited

Bytes that come after a field do not count, nor those that come after a key. A comparison of two
fields gives the same order wherever their bytes stand (`FieldType.compare_of_reads`), so when both
keys grow longer each field is compared as before and the cursors stay abreast (`compare_longer`);
by induction on the fields the keys are compared as before (`compareFields_longer`).
-/

namespace KeyOrder

open Decoder (Reads)
open PowerTable (Filled Reachable)

/-- On either side `v` has left what `w` has, and more bytes after it. -/
structure Walk.Longer (v w : Walk) (more more' : Bytes) : Prop where
  left : v.left.rest = w.left.rest ++ more
  right : v.right.rest = w.right.rest ++ more'
  filled : Filled v.powers

namespace FieldType

theorem compare_longer {t : FieldType} {v w w' : Walk} {more more' : Bytes} {o : Ordering}
    (hlonger : v.Longer w more more') (hw : Filled w.powers) (h : t.compare w = (.ok o, w')) :
    Filled w'.powers ∧ ∃ v', t.compare v = (.ok o, v') ∧ v'.Longer w' more more' := by
  obtain ⟨p, left, right, powers, hleft, hright, hcompare⟩ | ⟨e, left, -, hcompare⟩ |
    ⟨e, left, right, -, -, hcompare⟩ := t.compare_cases w
  · obtain ⟨x, hx⟩ := read_of_skip hleft
    obtain ⟨y, hy⟩ := read_of_skip hright
    obtain ⟨first, rest, hfirst, rfl, hreads, -⟩ := t.read_delimited _ _ _ hx
    obtain ⟨second, rest', hsecond, rfl, hreads', -⟩ := t.read_delimited _ _ _ hy
    obtain ⟨q, horder⟩ := compare_of_reads hreads hreads'
    have hvleft : v.left.rest = first ++ (rest ++ more) := by
      rw [hlonger.left, hfirst, List.append_assoc]
    have hvright : v.right.rest = second ++ (rest' ++ more') := by
      rw [hlonger.right, hsecond, List.append_assoc]
    obtain ⟨powers', hpowers', hcompare'⟩ := horder w rest rest' hfirst hsecond hw
    obtain ⟨powers'', hpowers'', hcompare''⟩ := horder v _ _ hvleft hvright hlonger.filled
    obtain ⟨hq, rfl⟩ := Prod.mk.inj (h.symm.trans hcompare')
    rw [← hq] at hcompare''
    refine ⟨hpowers', _, hcompare'', ?_, ?_, hpowers''⟩
    · rw [Cursor.rest_advance, Cursor.rest_advance, hvleft, hfirst, List.drop_left, List.drop_left]
    · rw [Cursor.rest_advance, Cursor.rest_advance, hvright, hsecond, List.drop_left,
        List.drop_left]
  · cases h.symm.trans hcompare
  · cases h.symm.trans hcompare

end FieldType

namespace Key

theorem compareFields_longer (fields : List FieldOrdering) {more more' : Bytes} {o : Ordering} :
    ∀ {v w : Walk}, v.Longer w more more' → Filled w.powers →
      (compareFields fields w).1 = .ok o → (compareFields fields v).1 = .ok o := by
  induction fields with
  | nil => exact fun _ _ h => h
  | cons f fields ih =>
    intro v w hlonger hw h
    rw [compareFields] at h ⊢
    cases hcompare : f.type.compare w with
    | mk result w' =>
    rw [hcompare] at h
    cases result with
    | error e => cases h
    | ok p =>
      obtain ⟨hw', v', hv', hlonger'⟩ := FieldType.compare_longer hlonger hw hcompare
      rw [hv']
      cases p with
      | lt => exact h
      | eq => exact ih hlonger' hw' h
      | gt => exact h

/-- A field that can be skipped is skipped in just the same bytes whatever comes after them, and
not in fewer: what is left of it when it is cut short is too short and nothing else. Two fields
have one order, whatever comes after their bytes and whatever the table holds. So two keys that
have an order keep it when bytes are added to them. -/
theorem fields_self_delimiting :
    (∀ (t : FieldType) (u : Bytes) (c : Cursor), t.skip (.start u) = (.ok (), c) →
      ∃ k ≤ u.length, c = ⟨u, k⟩ ∧
        (∀ rest, t.skip (.start (u.take k ++ rest)) = (.ok (), ⟨u.take k ++ rest, k⟩)) ∧
        ∀ n < k, ∃ e c', t.skip (.start (u.take n)) = (.error e, c') ∧ e.Truncation) ∧
    (∀ (t : FieldType) (u v : Bytes) (c d : Cursor),
      t.skip (.start u) = (.ok (), c) → t.skip (.start v) = (.ok (), d) →
      ∃ o, ∀ (w : Walk) (rest rest' : Bytes), w.left.rest = u.take c.position ++ rest →
        w.right.rest = v.take d.position ++ rest' → Reachable w.powers →
        (t.compare w).1 = .ok o) ∧
    ∀ (fields : List FieldOrdering) (a b : Bytes) (powers : PowerTable) (o : Ordering),
      Reachable powers → (Key.compare fields a b powers).1 = .ok o →
      ∀ (more more' : Bytes) (powers' : PowerTable), Reachable powers' →
        (Key.compare fields (a ++ more) (b ++ more') powers').1 = .ok o := by
  refine ⟨?_, ?_, ?_⟩
  · intro t u c h
    obtain ⟨hc, hle, hreads, hstarves⟩ := t.skip_delimited.of_start h
    have hlength : (u.take c.position).length = c.position := List.length_take_of_le hle
    refine ⟨c.position, hle, hc, ?_, ?_⟩
    · intro rest
      have hstart := hreads.start rest
      rw [hlength] at hstart
      exact hstart
    · intro n hn
      have hcut := hstarves.start_take (hlength.symm ▸ hn)
      rw [List.take_take, min_eq_left hn.le] at hcut
      exact hcut
  · intro t u v c d hu hv
    obtain ⟨x, hx⟩ := FieldType.read_of_skip hu
    obtain ⟨y, hy⟩ := FieldType.read_of_skip hv
    obtain ⟨-, -, hreads, -⟩ := t.read_delimited.of_start hx
    obtain ⟨-, -, hreads', -⟩ := t.read_delimited.of_start hy
    obtain ⟨o, horder⟩ := FieldType.compare_of_reads hreads hreads'
    refine ⟨o, ?_⟩
    intro w rest rest' hleft hright hpowers
    obtain ⟨powers, -, hcompare⟩ := horder w rest rest' hleft hright hpowers.filled
    rw [hcompare]
  · intro fields a b powers o hpowers h more more' powers' hpowers'
    have hlonger : (Walk.start (a ++ more) (b ++ more') powers').Longer (.start a b powers)
        more more' := ⟨rfl, rfl, hpowers'.filled⟩
    exact compareFields_longer fields hlonger hpowers.filled h

/-- A decimal whose length is spelled in more bytes than it takes, cut before its last byte; and
the same decimal before bytes that are no field, against one of another form. -/
theorem fields_self_delimiting_cut :
    (∃ e c', FieldType.decimal.skip (.start [0x80, 0, 0x8e, 0, 2, 1]) = (.error e, c') ∧
      e.Truncation) ∧
    (Key.compare [⟨.decimal, .ascending⟩] ([0x80, 0, 0x8e, 0, 2, 1, 44] ++ [0xff])
      ([0x81, 1, 7] ++ [0xfe, 0xff]) (PowerTable.prefilled 40)).1 = .ok .lt := by
  have hskip : FieldType.decimal.skip (.start [0x80, 0, 0x8e, 0, 2, 1, 44]) =
      (.ok (), ⟨[0x80, 0, 0x8e, 0, 2, 1, 44], 7⟩) := by rfl
  have hcompare : (Key.compare [⟨.decimal, .ascending⟩] [0x80, 0, 0x8e, 0, 2, 1, 44] [0x81, 1, 7]
      PowerTable.new).1 = .ok .lt := by rfl
  obtain ⟨hfields, -, hkeys⟩ := fields_self_delimiting
  refine ⟨?_, hkeys _ _ _ _ _ Reachable.new hcompare _ _ _ (Reachable.prefilled 40)⟩
  obtain ⟨k, -, hk, -, hcut⟩ := hfields .decimal _ _ hskip
  obtain rfl : 7 = k := congrArg Cursor.position hk
  exact hcut 6 (by omega)

end Key
end KeyOrder
