import DumboDB.Dolt.MergeLaws

/-!
The default mode loses no write: where it sees no conflict, each leaf was written by one side at
most, and the merged document holds that write; where one side left a field alone, document or not,
it holds what the other side has there.
-/

namespace DumboDB.Dolt

open Foundation.ByteOrder DumboDB.Types

/-- One leaf in the three versions and the result. A side that differs from the base wrote it: set,
added or removed it. -/
structure KeepsWrite (base left right out : Option Value) : Prop where
  once : sameField base left = true ∨ sameField base right = true
  ofLeft : sameField base left = false → out = left
  ofRight : sameField base right = false → out = right
  ofNeither : sameField base left = true → sameField base right = true → sameField base out = true

/-- One value, a document perhaps, in the three versions and the result. -/
structure KeepsValue (base left right out : Option Value) : Prop where
  ofRight : sameField base left = true → out = right ∨ sameField right out = true
  ofLeft : sameField base right = true → out = left ∨ sameField left out = true

/-- The value at a path of field names. -/
def valueOf : List Bytes → Value → Option Value
  | [], v => some v
  | key :: rest, .document d => (Document.get d key).bind (valueOf rest)
  | _ :: _, _ => none

def valueAt (d : Document) (path : List Bytes) : Option Value := valueOf path (.document d)

theorem sameField_bind_valueOf {a b : Option Value} (same : sameField a b = true) (path : List Bytes) :
    sameField (a.bind (valueOf path)) (b.bind (valueOf path)) = true := by
  induction path generalizing a b with
  | nil => cases a <;> cases b <;> exact same
  | cons key rest ih =>
    cases a with
    | none =>
      cases b with
      | none => rfl
      | some _ => cases same
    | some v =>
      cases b with
      | none => cases same
      | some w =>
        cases v with
        | document d =>
          obtain ⟨e, rfl, fields⟩ := valueEq_document same
          exact ih (fieldsEqual_of_fieldsEq fields key)
        | _ =>
          cases w with
          | document e => cases same
          | _ => rfl

/-- At every path below, the leaf and the value. -/
def KeepsBelow (base left right out : Option Value) : Prop :=
  ∀ path, KeepsWrite (base.bind (leafOf path)) (left.bind (leafOf path)) (right.bind (leafOf path))
      (out.bind (leafOf path)) ∧
    KeepsValue (base.bind (valueOf path)) (left.bind (valueOf path)) (right.bind (valueOf path))
      (out.bind (valueOf path))

variable {base left : Option Value} {right : Option Value}

theorem keepsBelow_of_left (kept : sameField base left = true) (right : Option Value) :
    KeepsBelow base left right (if sameField base right then left else right) := by
  intro path
  have leaf := sameField_bind_leafOf kept path
  have value := sameField_bind_valueOf kept path
  constructor
  · refine ⟨.inl leaf, fun wrote => (nomatch leaf.symm.trans wrote), ?_, ?_⟩
    · intro wrote
      split
      next other =>
        exact nomatch (sameField_bind_leafOf other path).symm.trans wrote
      · rfl
    · intro _ same
      split
      · exact leaf
      · exact same
  · split
    next other =>
      exact ⟨fun _ => .inr (sameField_trans (sameField_symm (sameField_bind_valueOf other path)) value),
        fun _ => .inl rfl⟩
    · exact ⟨fun _ => .inl rfl, fun same => .inr (sameField_trans (sameField_symm value) same)⟩

theorem keepsBelow_of_right (kept : sameField base right = true) (left : Option Value) :
    KeepsBelow base left right left := by
  intro path
  have leaf := sameField_bind_leafOf kept path
  have value := sameField_bind_valueOf kept path
  exact ⟨⟨.inr leaf, fun _ => rfl, fun wrote => (nomatch leaf.symm.trans wrote), fun same _ => same⟩,
    fun same => .inr (sameField_trans (sameField_symm value) same), fun _ => .inl rfl⟩

theorem kept_of_fieldClash (clear : MergeMode.fieldClash .fieldTouched base left right = false) :
    sameField base left = true ∨ sameField base right = true := by
  simp only [MergeMode.fieldClash] at clear
  cases keptLeft : sameField base left with
  | true => exact .inl rfl
  | false =>
    cases keptRight : sameField base right with
    | true => exact .inr rfl
    | false => simp [keptLeft, keptRight] at clear

theorem once_of_clear (clear : MergeMode.valueConflicts .fieldTouched base left right = false) (path : List Bytes) :
    sameField (base.bind (leafOf path)) (left.bind (leafOf path)) = true ∨
      sameField (base.bind (leafOf path)) (right.bind (leafOf path)) = true := by
  induction path generalizing base left right with
  | nil =>
    unfold MergeMode.valueConflicts at clear
    split at clear
    · exact .inl rfl
    · exact (kept_of_fieldClash clear).imp (sameField_bind_leafOf · []) (sameField_bind_leafOf · [])
  | cons key _ ih =>
    unfold MergeMode.valueConflicts at clear
    split at clear
    · exact ih (MergeMode.fieldConflicts_eq_false.mp clear key (by simp))
    · exact (kept_of_fieldClash clear).imp (sameField_bind_leafOf · _) (sameField_bind_leafOf · _)

theorem keepsBelow_of_same (same : sameField left right = true)
    (clear : MergeMode.valueConflicts .fieldTouched base left right = false) : KeepsBelow base left right left := by
  intro path
  have leaf := sameField_bind_leafOf same path
  have once := once_of_clear clear path
  refine ⟨⟨once, fun _ => rfl, ?_, fun kept _ => kept⟩,
    fun _ => .inr (sameField_symm (sameField_bind_valueOf same path)), fun _ => .inl rfl⟩
  intro wrote
  rcases once with kept | kept
  · exact nomatch (sameField_trans kept leaf).symm.trans wrote
  · exact nomatch kept.symm.trans wrote

/-- A document in place of each version: what is kept below its fields is kept below it, if both
sides changed it. -/
theorem keepsBelow_document {base left right out : Document}
    (changedLeft : sameField (some (.document base)) (some (.document left)) = false)
    (changedRight : sameField (some (.document base)) (some (.document right)) = false)
    (fields : ∀ key, KeepsBelow (base.get key) (left.get key) (right.get key) (out.get key)) :
    KeepsBelow (some (.document base)) (some (.document left)) (some (.document right)) (some (.document out)) := by
  intro path
  cases path with
  | nil =>
    refine ⟨⟨.inl rfl, fun _ => rfl, fun _ => rfl, fun _ _ => rfl⟩, fun same => ?_, fun same => ?_⟩
    · exact nomatch changedLeft.symm.trans same
    · exact nomatch changedRight.symm.trans same
  | cons key rest => exact fields key rest

theorem mergeBSONDoc_keeps {base left right out : Document}
    (clear : ∀ key, MergeMode.valueConflicts .fieldTouched (base.get key) (left.get key) (right.get key) = false)
    (merged : mergeBSONDoc base left right = some out) (key : Bytes) :
    KeepsBelow (base.get key) (left.get key) (right.get key) (out.get key) := by
  induction base using document_induction generalizing left right out key with
  | step base ih =>
    have value := get_mergeBSONDoc merged key
    have here := clear key
    have nested := ih key
    generalize base.get key = b at value here nested ⊢
    generalize left.get key = l at value here ⊢
    generalize right.get key = r at value here ⊢
    generalize out.get key = o at value ⊢
    cases keptLeft : sameField b l with
    | true =>
      rw [mergeValue_of_left keptLeft, Option.some.injEq] at value
      exact value ▸ keepsBelow_of_left keptLeft r
    | false =>
      cases keptRight : sameField b r with
      | true =>
        rw [mergeValue_of_right keptRight, Option.some.injEq] at value
        exact value ▸ keepsBelow_of_right keptRight l
      | false =>
        cases same : sameField l r with
        | true =>
          rw [mergeValue_of_same keptLeft keptRight same, Option.some.injEq] at value
          exact value ▸ keepsBelow_of_same same here
        | false =>
          -- both sides changed the field, differently: it is a document on all three
          unfold MergeMode.valueConflicts at here
          split at here
          · rw [mergeValue_of_nested keptLeft keptRight same, Option.map_eq_some_iff] at value
            obtain ⟨_, mergedInner, rfl⟩ := value
            refine keepsBelow_document keptLeft keptRight fun key => ?_
            exact nested _ rfl (fun key => MergeMode.fieldConflicts_eq_false.mp here key (by simp)) mergedInner key
          · simp [MergeMode.fieldClash, keptLeft, keptRight] at here

/-- Versions of one document in which the default mode finds no conflict merge, and no write of
either side is lost, exactly when the shared id is equal to itself. -/
theorem fieldTouched_keeps_writes {id : Value} {base left right : Document} (ofBase : Version id base)
    (ofLeft : Version id left) (ofRight : Version id right)
    (clear : MergeMode.conflicts .fieldTouched (some base) (some left) (some right) = false) :
    (∃ out, mergeBSONDoc base left right = some out ∧
      (∀ path, KeepsWrite (leafAt base path) (leafAt left path) (leafAt right path) (leafAt out path)) ∧
        ∀ path ≠ [], KeepsValue (valueAt base path) (valueAt left path) (valueAt right path) (valueAt out path)) ↔
          DeepEqual id id = true := by
  constructor
  · rintro ⟨out, merged, -⟩
    by_contra odd
    have conflict := @mergeBSONDoc_odd_id id (some base) left right
      (fun d there => by cases there; exact ofBase) ofLeft
      ofRight (Bool.eq_false_iff.mpr odd)
    exact nomatch merged.symm.trans conflict
  · intro regular
    have fields (key : Bytes) : MergeMode.valueConflicts .fieldTouched (base.get key)
        (left.get key) (right.get key) = false := by
      by_cases identity : key = idKey
      · rw [identity, ofBase.carries, ofLeft.carries]
        exact MergeMode.valueConflicts_of_left regular
      · have inner := MergeMode.conflicts_fieldTouched clear
        exact MergeMode.fieldConflicts_eq_false.mp inner key fun root => identity root.2
    obtain ⟨out, -, merged, -, -⟩ := mergeBSONDoc_clear fun key => MergeMode.valueConflicts_mono (fields key)
    have kept := mergeBSONDoc_keeps fields merged
    refine ⟨out, merged, fun path => ?_, fun path below => ?_⟩
    · cases path with
      | nil => exact ⟨.inl rfl, fun _ => rfl, fun _ => rfl, fun _ _ => rfl⟩
      | cons key rest => exact (kept key rest).1
    · cases path with
      | nil => exact absurd rfl below
      | cons key rest => exact (kept key rest).2

/-- One side sets `a`, the other adds the empty document `b`. -/
theorem fieldTouched_keeps_both :
    MergeMode.conflicts .fieldTouched (some (versionA (.int32 1) (.int32 1))) (some (versionA (.int32 1) (.int32 2)))
        (some (versionA (.int32 1) (.int32 1) ++ [(ascii ['b'], .document [])])) = false ∧
      ∃ out, mergeBSONDoc (versionA (.int32 1) (.int32 1)) (versionA (.int32 1) (.int32 2))
        (versionA (.int32 1) (.int32 1) ++ [(ascii ['b'], .document [])]) = some out ∧
          leafAt out [ascii ['a']] = some (.int32 2) ∧ (valueAt out [ascii ['b']]).isSome = true := by
  have clear : MergeMode.conflicts .fieldTouched (some (versionA (.int32 1) (.int32 1)))
      (some (versionA (.int32 1) (.int32 2)))
      (some (versionA (.int32 1) (.int32 1) ++ [(ascii ['b'], .document [])])) = false := by decide +kernel
  obtain ⟨out, merged, leaves, values⟩ := (@fieldTouched_keeps_writes (.int32 1) _ _ _ ⟨rfl, rfl⟩ ⟨rfl, rfl⟩
    ⟨rfl, by decide +kernel⟩ clear).mpr rfl
  refine ⟨clear, out, merged, (leaves [ascii ['a']]).ofLeft (by decide +kernel), ?_⟩
  rcases (values [ascii ['b']] (by decide)).ofRight rfl with same | same
  · rw [same]
    rfl
  · cases there : valueAt out [ascii ['b']] with
    | none => rw [there] at same; cases same
    | some _ => rfl

/-- A document with the id NaN that neither side touched: no conflict is found, and none is merged. -/
theorem fieldTouched_refuses_nan_id :
    MergeMode.conflicts .fieldTouched (some (versionA nan .null)) (some (versionA nan .null))
        (some (versionA nan .null)) = false ∧
      mergeBSONDoc (versionA nan .null) (versionA nan .null) (versionA nan .null) = none := by
  constructor
  · decide +kernel
  · exact @mergeBSONDoc_odd_id nan (some (versionA nan .null)) _ _
      (fun d there => by cases there; exact ⟨rfl, rfl⟩) ⟨rfl, rfl⟩ ⟨rfl, rfl⟩ (by decide +kernel)

end DumboDB.Dolt
