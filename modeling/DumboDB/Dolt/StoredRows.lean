import DumboDB.Dolt.Bson
import DumboDB.Dolt.IndexRows
import Mathlib.Data.List.Forall2

/-!
A document as given and as stored has the same index rows up to encoding: sorting the keys of
nested documents moves no value that a path reaches.
-/

namespace DumboDB.Dolt
open Foundation ByteOrder DumboDB.Types Index Handler List Option

/-- A value and its stored form, or two copies of a value. -/
def Alike (v w : Value) : Prop := w = v ∨ w = canonicalValue v

theorem Alike.refl (v : Value) : Alike v v := .inl rfl

theorem alike_stored (key : Bytes) (v : Value) : Alike v (storedValue key v) := by
  unfold storedValue
  split
  · exact .inl rfl
  · exact .inr rfl

theorem alike_elems (elems : List Value) : List.Forall₂ Alike elems (canonicalElems elems) := by
  induction elems with
  | nil => exact .nil
  | cons v elems ih => exact .cons (.inr rfl) ih

theorem forall₂_alike_refl (elems : List Value) : List.Forall₂ Alike elems elems :=
  List.forall₂_same.mpr fun v _ => Alike.refl v

theorem alike_get {fields : Document} (key : Bytes) :
    List.Forall₂ Alike (fields.get key).toList (Document.get (sortFields (canonicalFields fields)) key).toList := by
  have stored := get_canonical fields key
  rw [canonical] at stored
  rw [stored]
  cases fields.get key with
  | none => exact .nil
  | some v => exact .cons (alike_stored key v) .nil

theorem alike_findArrayIndex (elems : List Value) (e : Bytes) :
    findArrayIndex (canonicalElems elems) e = (findArrayIndex elems e).map canonicalValue := by
  rw [findArrayIndex, findArrayIndex]
  cases atoi e with
  | none => rfl
  | some i =>
    rw [bind_some, bind_some]
    split
    · rw [canonicalElems_eq_map, getElem?_map]
    · rfl

theorem alike_lookupArrayDocuments (elems : List Value) (key : Bytes) :
    List.Forall₂ Alike (lookupArrayDocuments elems key) (lookupArrayDocuments (canonicalElems elems) key) := by
  induction elems with
  | nil => exact .nil
  | cons v elems ih =>
    unfold lookupArrayDocuments at ih ⊢
    rw [canonicalElems, filterMap_cons, filterMap_cons]
    cases v with
    | document fields =>
      have here := @alike_get fields key
      rw [canonicalValue]
      dsimp only
      cases before : Document.get fields key <;>
        cases after : Document.get (sortFields (canonicalFields fields)) key <;>
        rw [before, after] at here
      · exact ih
      · cases here
      · cases here
      · cases here with
        | cons alike _ => exact .cons alike ih
    | _ => simpa [canonicalValue] using ih

variable {v w : Value} {other row : List Value}

theorem alike_findStep (e : Bytes) (alike : Alike v w) : List.Forall₂ Alike (findStep e v) (findStep e w) := by
  rcases alike with rfl | rfl
  · exact forall₂_alike_refl _
  · cases v with
    | document _ => exact alike_get e
    | array elems =>
      rw [canonicalValue, findStep, findStep, alike_findArrayIndex]
      cases findArrayIndex elems e with
      | none => exact alike_lookupArrayDocuments elems e
      | some v => exact .cons (.inr rfl) .nil
    | _ => rw [canonicalValue] <;> first | exact .nil | simp

theorem alike_FindValues (d : Document) (path : List Bytes) :
    List.Forall₂ Alike (FindValues d path) (FindValues (canonical d) path) := by
  unfold FindValues
  have start : List.Forall₂ Alike [.document d] [.document (canonical d)] :=
    .cons (.inr (by rw [canonicalValue, canonical])) .nil
  generalize [Value.document d] = before at start ⊢
  generalize [Value.document (canonical d)] = after at start ⊢
  induction path generalizing before after with
  | nil => exact start
  | cons e path ih =>
    exact ih _ _ (rel_flatMap start fun _ _ alike => alike_findStep e alike)

/-- The values of one key field: alike, or arrays of alike elements. -/
inductive SameField : Value → Value → Prop
  | array {elems others : List Value} (each : List.Forall₂ Alike elems others) :
      SameField (.array elems) (.array others)
  | value {v w : Value} (alike : Alike v w) (single : isArray v = false) : SameField v w

theorem Alike.sameField (alike : Alike v w) : SameField v w := by
  cases v with
  | array elems =>
    rcases alike with rfl | rfl
    · exact .array (forall₂_alike_refl elems)
    · rw [canonicalValue]
      exact .array (alike_elems elems)
  | _ => exact .value alike rfl

theorem SameField.elements (same : SameField v w) : List.Forall₂ Alike (elementsOrSelf v) (elementsOrSelf w) := by
  cases same with
  | array each => exact each
  | value alike single =>
    rcases alike with rfl | rfl
    · exact forall₂_alike_refl _
    · cases v with
      | array _ => cases single
      | document _ =>
        exact .cons (.inr (by rw [canonicalValue])) .nil
      | _ => rw [canonicalValue] <;> first | exact forall₂_alike_refl _ | simp

theorem sameField_indexFieldValue (d : Document) (field : Bytes) :
    SameField (indexFieldValue d field) (indexFieldValue (canonical d) field) := by
  unfold indexFieldValue
  split
  · cases NewPathFromString field with
    | error _ => exact (Alike.refl _).sameField
    | ok path =>
      dsimp only
      have alike := alike_FindValues d path
      generalize FindValues d path = values at alike ⊢
      generalize FindValues (canonical d) path = others at alike ⊢
      cases alike with
      | nil => exact (Alike.refl _).sameField
      | cons first rest =>
        cases rest with
        | nil => exact first.sameField
        | cons second rest =>
          exact .array (rel_flatMap (.cons first (.cons second rest)) fun _ _ alike => alike.sameField.elements)
  · rw [get_canonical]
    cases d.get field with
    | none => exact (Alike.refl _).sameField
    | some v => exact (alike_stored field v).sameField

theorem indexFieldPresent_canonical (d : Document) (field : Bytes) :
    indexFieldPresent (canonical d) field = indexFieldPresent d field := by
  unfold indexFieldPresent
  split
  · cases NewPathFromString field with
    | error _ => rfl
    | ok path =>
      have alike := alike_FindValues d path
      dsimp only
      generalize FindValues d path = values at alike ⊢
      generalize FindValues (canonical d) path = others at alike ⊢
      cases alike <;> rfl
  · rw [get_canonical, isSome_map]

theorem sparseExcludes_canonical (d : Document) (idx : IndexInfo) :
    sparseExcludes (canonical d) idx = sparseExcludes d idx := by
  simp only [sparseExcludes, indexFieldPresent_canonical]

abbrev SameRow : List Value → List Value → Prop := List.Forall₂ SameField

theorem sameRow_extract (d : Document) (idx : IndexInfo) :
    SameRow (extractIndexFieldValues d idx) (extractIndexFieldValues (canonical d) idx) := by
  unfold extractIndexFieldValues SameRow
  rw [List.forall₂_map_left_iff, List.forall₂_map_right_iff]
  exact List.forall₂_same.mpr fun kp _ => sameField_indexFieldValue d kp.field

theorem SameField.shape (same : SameField v w) :
    w = v ∨ (∃ fields others, v = .document fields ∧ w = .document others) ∨
      ∃ elems others, v = .array elems ∧ w = .array others := by
  cases same with
  | array _ => exact .inr (.inr ⟨_, _, rfl, rfl⟩)
  | value alike _ =>
    rcases alike with rfl | rfl
    · exact .inl rfl
    · cases v with
      | array elems => exact .inr (.inr ⟨_, _, rfl, by rw [canonicalValue]⟩)
      | document fields => exact .inr (.inl ⟨_, _, rfl, by rw [canonicalValue]⟩)
      | _ => left; rw [canonicalValue] <;> simp

theorem SameField.isArray_eq (same : SameField v w) : isArray w = isArray v := by
  rcases same.shape with rfl | ⟨_, _, rfl, rfl⟩ | ⟨_, _, rfl, rfl⟩ <;> rfl

theorem SameField.encode [Platform] (same : SameField v w) : EncodeValue w = EncodeValue v := by
  rcases same.shape with rfl | ⟨_, _, rfl, rfl⟩ | ⟨_, _, rfl, rfl⟩ <;> rfl

theorem SameField.lossy (same : SameField v w) : ValueLossy w = ValueLossy v := by
  rcases same.shape with rfl | ⟨_, _, rfl, rfl⟩ | ⟨_, _, rfl, rfl⟩ <;> rfl

theorem sameRow_expand (same : SameRow row other) :
    List.Forall₂ SameRow (expandMultiKeyValues row) (expandMultiKeyValues other) := by
  induction same with
  | nil => exact .cons .nil .nil
  | @cons v w row other first rest ih =>
    have scalar (single : isArray v = false) :
        List.Forall₂ SameRow (expandMultiKeyValues (v :: row)) (expandMultiKeyValues (w :: other)) := by
      have alsoSingle : isArray w = false := first.isArray_eq.trans single
      have left : expandMultiKeyValues (v :: row) = (expandMultiKeyValues row).map (v :: ·) := by
        cases v <;> first | rfl | cases single
      have right : expandMultiKeyValues (w :: other) = (expandMultiKeyValues other).map (w :: ·) := by
        cases w <;> first | rfl | cases alsoSingle
      rw [left, right, List.forall₂_map_left_iff, List.forall₂_map_right_iff]
      exact ih.imp fun _ _ same => .cons first same
    cases first with
    | value alike single => exact scalar single
    | array each =>
      cases each with
      | nil => exact .cons (.cons (Alike.refl _).sameField rest) .nil
      | cons head tail =>
        rw [expandMultiKeyValues, expandMultiKeyValues, List.forall₂_map_left_iff, List.forall₂_map_right_iff]
        · exact (List.Forall₂.cons head tail).imp fun _ _ alike => .cons alike.sameField rest
        · simp
        · simp

theorem sameRow_collate (key : Bytes → Bytes) (same : SameRow row other) :
    SameRow (collateRowValues key row) (collateRowValues key other) := by
  induction same with
  | nil => exact .nil
  | cons first _ ih =>
    refine .cons ?_ ih
    rcases first.shape with rfl | ⟨_, _, rfl, rfl⟩ | ⟨_, _, rfl, rfl⟩
    · exact (Alike.refl _).sameField
    · exact first
    · exact first

theorem SameRow.lossy (same : SameRow row other) : other.any ValueLossy = row.any ValueLossy := by
  induction same with
  | nil => rfl
  | cons first _ ih => rw [any_cons, any_cons, first.lossy, ih]

theorem SameRow.multikey (same : SameRow row other) : other.any isArray = row.any isArray := by
  induction same with
  | nil => rfl
  | cons first _ ih => rw [any_cons, any_cons, first.isArray_eq, ih]

theorem SameRow.key [Platform] (same : SameRow row other) (id : Bytes) :
    BuildSecondaryKey other id = BuildSecondaryKey row id := by
  unfold BuildSecondaryKey
  induction same with
  | nil => rfl
  | cons first _ ih =>
    rw [flatMap_cons, flatMap_cons, append_assoc, ih, first.encode, append_assoc]

theorem entries_canonical [QueryEnv] {d : Document} {idx : IndexInfo}
    (covered : MatchesPartialFilter idx (canonical d) = MatchesPartialFilter idx d) :
    List.Forall₂ SameRow (indexEntriesForDoc d idx).rows (indexEntriesForDoc (canonical d) idx).rows ∧
      (indexEntriesForDoc (canonical d) idx).multikey = (indexEntriesForDoc d idx).multikey ∧
      (indexEntriesForDoc (canonical d) idx).lossy = (indexEntriesForDoc d idx).lossy := by
  have values := sameRow_extract d idx
  have expanded := sameRow_expand values
  have lossy {rows others : List (List Value)} (same : List.Forall₂ SameRow rows others) :
      (others.any fun row => row.any ValueLossy) = rows.any fun row => row.any ValueLossy := by
    induction same with
    | nil => rfl
    | cons first _ ih => rw [any_cons, any_cons, first.lossy, ih]
  unfold indexEntriesForDoc
  rw [covered, sparseExcludes_canonical]
  split
  · exact ⟨.nil, rfl, rfl⟩
  · cases idx.comparator with
    | none => exact ⟨expanded, values.multikey, lossy expanded⟩
    | some key =>
      have collated := rel_map (fun _ _ same => sameRow_collate key same) expanded
      exact ⟨collated, values.multikey, lossy collated⟩

end DumboDB.Dolt
