import KeyOrder.Proofs.Field.Walk

/-!
# KeyOrder.Proofs.Field.Skipping

Comparing and skipping agree on where a field ends. A skip is a read whose value is dropped
(`skip_eq`), and a comparison is a read on either side, so the three outcomes of a comparison are
told by the two skips alone (`compare_cases`): whatever the order is, and however it is found, the
cursors are where the skips leave them. By induction on the types the same holds all along a record
(`compare_skips`).
-/

namespace KeyOrder

namespace Field

/-- The width is all that a skip has to know of a field. -/
theorem skipFixed_eq {α : Type} (width : Nat) (ofNat : Nat → α) :
    skipFixed width = (do let _ ← readFixed width ofNat; pure ()) := by
  funext c
  simp only [skipFixed, readFixed, readPresent, Decoder.bind_apply]
  cases Decoder.byte c with
  | mk result c' =>
  cases result with
  | error e => rfl
  | ok flag =>
    by_cases hnull : flag = nullFlag
    · simp only [if_pos hnull]
      rfl
    by_cases hpresent : flag = presentFlag
    · simp only [if_neg hnull, if_pos hpresent, Decoder.skip, Decoder.bind_apply]
      cases Decoder.take width c' with
      | mk result c'' => cases result <;> rfl
    · simp only [if_neg hnull, if_neg hpresent]
      rfl

end Field

namespace FieldType

/-! ## One field -/

theorem skip_eq (t : FieldType) : t.skip = (do let _ ← t.read; pure ()) := by
  cases t with
  | string => rfl
  | decimal => rfl
  | _ => exact Field.skipFixed_eq _ _

theorem skip_of_read {t : FieldType} {c c' : Cursor} {x : Option t.Content}
    (h : t.read c = (.ok x, c')) : t.skip c = (.ok (), c') := by
  rw [skip_eq, Decoder.bind_apply, h]
  rfl

theorem skip_of_read_error {t : FieldType} {c c' : Cursor} {e : DecodeError}
    (h : t.read c = (.error e, c')) : t.skip c = (.error e, c') := by
  rw [skip_eq, Decoder.bind_apply, h]

theorem read_of_skip {t : FieldType} {c c' : Cursor} (h : t.skip c = (.ok (), c')) :
    ∃ x, t.read c = (.ok x, c') := by
  cases hread : t.read c with
  | mk result left =>
  cases result with
  | error e => cases (skip_of_read_error hread).symm.trans h
  | ok x =>
    cases (skip_of_read hread).symm.trans h
    exact ⟨x, rfl⟩

/-- All that a comparison can do. -/
theorem compare_cases (t : FieldType) (w : Walk) :
    (∃ o left right powers, t.skip w.left = (.ok (), left) ∧ t.skip w.right = (.ok (), right) ∧
      t.compare w = (.ok o, ⟨left, right, powers⟩)) ∨
    (∃ e left, t.skip w.left = (.error e, left) ∧
      t.compare w = (.error e, ⟨left, w.right, w.powers⟩)) ∨
    ∃ e left right, t.skip w.left = (.ok (), left) ∧ t.skip w.right = (.error e, right) ∧
      t.compare w = (.error e, ⟨left, right, w.powers⟩) := by
  cases hx : t.read w.left with
  | mk result left =>
  cases result with
  | error e => exact .inr (.inl ⟨e, left, skip_of_read_error hx, Walk.compareNext_left hx⟩)
  | ok x =>
  cases hy : t.read w.right with
  | mk result right =>
  cases result with
  | error e =>
    exact .inr (.inr ⟨e, left, right, skip_of_read hx, skip_of_read_error hy,
      Walk.compareNext_right hx hy⟩)
  | ok y =>
    exact .inl ⟨_, left, right, _, skip_of_read hx, skip_of_read hy, Walk.compareNext_ok hx hy⟩

/-! ## Records -/

/-- Passes over one field of each type. A read that fails is left where it is, and the next one
begins there. -/
def skipEach : List FieldType → Cursor → List (Except DecodeError Unit) × Cursor
  | [], c => ([], c)
  | t :: types, c =>
    let (result, c) := t.skip c
    let (results, c) := skipEach types c
    (result :: results, c)

/-- Compares one field of each type, whatever the fields before it gave. -/
def compareEach : List FieldType → Walk → List (Except DecodeError Ordering) × Walk
  | [], w => ([], w)
  | t :: types, w =>
    let (result, w) := t.compare w
    let (results, w) := compareEach types w
    (result :: results, w)

theorem skipEach_cons {t : FieldType} {c c' : Cursor} {result : Except DecodeError Unit}
    (h : t.skip c = (result, c')) (types : List FieldType) :
    skipEach (t :: types) c = (result :: (skipEach types c').1, (skipEach types c').2) := by
  rw [skipEach, h]

theorem compareEach_cons {t : FieldType} {w w' : Walk} {result : Except DecodeError Ordering}
    (h : t.compare w = (result, w')) (types : List FieldType) :
    compareEach (t :: types) w =
      (result :: (compareEach types w').1, (compareEach types w').2) := by
  rw [compareEach, h]

theorem left_compareEach (types : List FieldType) :
    ∀ w : Walk, (compareEach types w).2.left = (skipEach types w.left).2 := by
  induction types with
  | nil => exact fun w => rfl
  | cons t types ih =>
    intro w
    obtain ⟨o, left, right, powers, hleft, -, hcompare⟩ | ⟨e, left, hleft, hcompare⟩ |
      ⟨e, left, right, hleft, -, hcompare⟩ := t.compare_cases w
    all_goals
      rw [compareEach_cons hcompare, skipEach_cons hleft]
      exact ih _

/-- The right cursor falls behind only where the left one cannot be read. -/
theorem right_compareEach (types : List FieldType) :
    ∀ w : Walk, (∀ result ∈ (skipEach types w.left).1, result = .ok ()) →
      (compareEach types w).2.right = (skipEach types w.right).2 := by
  induction types with
  | nil => exact fun w _ => rfl
  | cons t types ih =>
    intro w h
    obtain ⟨o, left, right, powers, hleft, hright, hcompare⟩ | ⟨e, left, hleft, -⟩ |
      ⟨e, left, right, hleft, hright, hcompare⟩ := t.compare_cases w
    · rw [skipEach_cons hleft, List.forall_mem_cons] at h
      rw [compareEach_cons hcompare, skipEach_cons hright]
      exact ih _ h.2
    · rw [skipEach_cons hleft, List.forall_mem_cons] at h
      cases h.1
    · rw [skipEach_cons hleft, List.forall_mem_cons] at h
      rw [compareEach_cons hcompare, skipEach_cons hright]
      exact ih _ h.2

theorem compareEach_ok_iff (types : List FieldType) :
    ∀ w : Walk, (∀ result ∈ (compareEach types w).1, ∃ o, result = .ok o) ↔
      (∀ result ∈ (skipEach types w.left).1, result = .ok ()) ∧
        ∀ result ∈ (skipEach types w.right).1, result = .ok () := by
  induction types with
  | nil => simp [compareEach, skipEach]
  | cons t types ih =>
    intro w
    obtain ⟨o, left, right, powers, hleft, hright, hcompare⟩ | ⟨e, left, hleft, hcompare⟩ |
      ⟨e, left, right, hleft, hright, hcompare⟩ := t.compare_cases w
    · rw [compareEach_cons hcompare, skipEach_cons hleft, skipEach_cons hright]
      simpa using ih ⟨left, right, powers⟩
    · rw [compareEach_cons hcompare, skipEach_cons hleft]
      simp
    · rw [compareEach_cons hcompare, skipEach_cons hleft, skipEach_cons hright]
      simp

/-- A comparison succeeds if and only if both skips do, and then leaves the cursors where they do.
If the left field cannot be skipped the comparison fails as that skip does, and the right cursor
stays; if only the right one cannot, it fails as the skip on the right does, past the field on the
left. All along a record the left cursor is where as many skips leave it, and so is the right one
as long as the left fields can be skipped. -/
theorem compare_skips :
    (∀ (t : FieldType) (w : Walk),
      ((∃ o, (t.compare w).1 = .ok o) ↔
        (t.skip w.left).1 = .ok () ∧ (t.skip w.right).1 = .ok ()) ∧
      (∀ o, (t.compare w).1 = .ok o →
        (t.compare w).2.left = (t.skip w.left).2 ∧ (t.compare w).2.right = (t.skip w.right).2) ∧
      (∀ e, (t.skip w.left).1 = .error e →
        t.compare w = (.error e, { w with left := (t.skip w.left).2 })) ∧
      (∀ e, (t.skip w.left).1 = .ok () → (t.skip w.right).1 = .error e →
        t.compare w =
          (.error e, { w with left := (t.skip w.left).2, right := (t.skip w.right).2 }))) ∧
    ∀ (types : List FieldType) (w : Walk),
      (compareEach types w).2.left = (skipEach types w.left).2 ∧
      ((∀ result ∈ (skipEach types w.left).1, result = .ok ()) →
        (compareEach types w).2.right = (skipEach types w.right).2) ∧
      ((∀ result ∈ (compareEach types w).1, ∃ o, result = .ok o) ↔
        (∀ result ∈ (skipEach types w.left).1, result = .ok ()) ∧
          ∀ result ∈ (skipEach types w.right).1, result = .ok ()) := by
  refine ⟨?_, ?_⟩
  · intro t w
    obtain ⟨o, left, right, powers, hleft, hright, hcompare⟩ | ⟨e, left, hleft, hcompare⟩ |
      ⟨e, left, right, hleft, hright, hcompare⟩ := t.compare_cases w
    · simp [hleft, hright, hcompare]
    · simp [hleft, hcompare]
    · simp [hleft, hright, hcompare]
  · intro types w
    exact ⟨left_compareEach types w, right_compareEach types w, compareEach_ok_iff types w⟩

/-- A decimal of three bytes before a string, against one of five before a string cut short. -/
theorem compare_skips_cut :
    (compareEach [.decimal, .string]
      (.start [0x83, 0, 2, 1, 97] [0x82, 0, 2, 0, 2, 5, 97] PowerTable.new)).2.right =
      ⟨[0x82, 0, 2, 0, 2, 5, 97], 6⟩ := by
  have hleft : (skipEach [.decimal, .string] (.start [0x83, 0, 2, 1, 97])).1 =
      [.ok (), .ok ()] := by
    rfl
  obtain ⟨-, hright, -⟩ := compare_skips.2 [.decimal, .string]
    (.start [0x83, 0, 2, 1, 97] [0x82, 0, 2, 0, 2, 5, 97] PowerTable.new)
  refine (hright ?_).trans rfl
  intro result hresult
  rw [Walk.start, hleft] at hresult
  simpa using hresult

end FieldType
end KeyOrder
