import DumboDB.Dolt.MergeLaws
import DumboDB.Replication.Diff

/-!
What a version 2 diff means: the image of a document is given field by field, without the run over the
diff and its record of modified fields. Every diff that `ApplyV2Diff` takes leaves this image.
-/

namespace DumboDB.Replication
open Foundation ByteOrder DumboDB.Types Dolt Handler List

/-- The fields of a section; a section that is absent has none. -/
def sectionFields (diff : Document) (name : Bytes) : Document :=
  match diff.get name with
  | some (.document fields) => fields
  | _ => []

def without (gone d : Document) : Document := d.filter fun entry => entry.1 ∉ Keys gone

def refreshed (fields d : Document) : Document :=
  d.map fun entry => (entry.1, (fields.get entry.1).getD entry.2)

/-- Fields that are there keep their place; the others follow. -/
def overwritten (fields d : Document) : Document := refreshed fields d ++ without d fields

def sectionImage (name : Bytes) (fields d : Document) : Document :=
  if name = field "d" then without fields d
  else if name = field "u" then overwritten fields d
  else without fields d ++ fields

/-- The image of a document, given what the sub-diffs make of its fields. -/
def objectImage (diff : Document) (fields : Bytes → Value → Value) (d : Document) : Document :=
  let removed := sectionImage (field "d") (sectionFields diff (field "d")) d
  let updated := sectionImage (field "u") (sectionFields diff (field "u")) removed
  let inserted := sectionImage (field "i") (sectionFields diff (field "i")) updated
  inserted.map fun entry => (entry.1, fields entry.1 entry.2)

def namedIndices (diff : Document) : List Nat := diff.filterMap fun entry => diffIndex (entry.1.drop 1)

def askedLength (diff : Document) (elems : List Value) : Nat :=
  match diff.get (field "l") with
  | some (.int32 n) => n.toInt.toNat
  | _ => elems.length

/-- As long as `l` asks for, or as the array was, and long enough for every index that is named. -/
def imageLength (diff : Document) (elems : List Value) : Nat :=
  (namedIndices diff).foldr (fun index n => max n (index + 1)) (askedLength diff elems)

def arrayImage (diff : Document) (elements : Nat → Option Value → Value) (elems : List Value) : List Value :=
  (List.range (imageLength diff elems)).map fun i => elements i elems[i]?

def valueImage (diff : Document) (fields : Bytes → Value → Value) (elements : Nat → Option Value → Value) :
    Value → Value
  | .array elems => if isArrayDiff diff then .array (arrayImage diff elements elems) else .null
  | .document d => if isArrayDiff diff then .null else .document (objectImage diff fields d)
  | _ => .null

mutual

/-- A field under the sub-diff that names it; without one it stays. -/
def fieldImage : Document → Bytes → Value → Value
  | [], _, before => before
  | (name, value) :: rest, key, before =>
    match value with
    | .document sub =>
      if name = 115 :: key then valueImage sub (fieldImage sub) (elementImage sub) before
      else fieldImage rest key before
    | _ => fieldImage rest key before

/-- An element under the field of the diff that names its index: `u` gives the value, `s` a sub-diff. -/
def elementImage : Document → Nat → Option Value → Value
  | [], _, before => before.getD .null
  | (name, value) :: rest, i, before =>
    if diffIndex (name.drop 1) = some i then
      if name.head? = some 117 then value
      else match value with
        | .document sub => (before.map (valueImage sub (fieldImage sub) (elementImage sub))).getD .null
        | _ => .null
    else elementImage rest i before

end

/-- The image of a document under a version 2 diff. -/
def v2Image (diff d : Document) : Document := objectImage diff (fieldImage diff) d

/-! The sections. -/

variable {diff d fields rest : Document} {key name : Bytes} {v : Value}

@[simp] theorem keys_nil : Keys [] = [] := rfl

@[simp] theorem keys_cons (entry : Bytes × Value) (d : Document) : Keys (entry :: d) = entry.1 :: Keys d := rfl

@[simp] theorem keys_append (d e : Document) : Keys (d ++ e) = Keys d ++ Keys e := map_append

theorem get_none_iff : d.get key = none ↔ key ∉ Keys d := by
  rw [mem_Keys, not_not]

theorem mem_without {gone : Document} {entry : Bytes × Value} :
    entry ∈ without gone d ↔ entry ∈ d ∧ entry.1 ∉ Keys gone := by
  simp [without]

theorem not_mem_keys_without {gone : Document} (inside : key ∈ Keys gone) : key ∉ Keys (without gone d) := by
  intro left
  obtain ⟨entry, member, rfl⟩ := mem_map.mp left
  exact (mem_without.mp member).2 inside

theorem without_apply (gone : Document) (entry : Bytes × Value) (d : Document) :
    without gone (entry :: d) = if entry.1 ∈ Keys gone then without gone d else entry :: without gone d := by
  by_cases inside : entry.1 ∈ Keys gone <;> simp [without, inside]

@[simp] theorem without_nil (gone : Document) : without gone [] = [] := rfl

theorem without_fresh {gone : Document} (fresh : ∀ entry ∈ d, entry.1 ∉ Keys gone) : without gone d = d :=
  filter_eq_self.mpr fun entry member => decide_eq_true (fresh entry member)

theorem without_cons (d rest : Document) : without rest (without [(key, v)] d) = without ((key, v) :: rest) d := by
  rw [without, without, without, filter_filter]
  refine filter_congr fun entry _ => ?_
  by_cases here : entry.1 = key <;> simp [here]

@[simp] theorem keys_refreshed (fields d : Document) : Keys (refreshed fields d) = Keys d := by
  rw [Keys, refreshed, map_map]
  rfl

theorem refreshed_fresh (fresh : ∀ entry ∈ d, entry.1 ∉ Keys fields) : refreshed fields d = d := by
  conv_rhs => rw [← map_id d]
  refine map_congr_left fun entry member => ?_
  rw [get_none_iff.mpr (fresh entry member)]
  rfl

theorem refreshed_cons (d : Document) (fresh : key ∉ Keys rest) :
    refreshed rest (refreshed [(key, v)] d) = refreshed ((key, v) :: rest) d := by
  have missing := get_none_iff.mpr fresh
  rw [refreshed, refreshed, refreshed, map_map]
  refine map_congr_left fun entry _ => ?_
  by_cases here : key = entry.1
  · simp [← here, missing]
  · simp [here]

theorem overwritten_cons (d : Document) (fresh : key ∉ Keys rest) :
    overwritten rest (overwritten [(key, v)] d) = overwritten ((key, v) :: rest) d := by
  by_cases inside : key ∈ Keys d
  · have same : without (refreshed [(key, v)] d) rest = without d rest := by simp [without]
    simp [overwritten, without_apply, inside, refreshed_cons d fresh, same]
  · have same : without (refreshed [(key, v)] d ++ [(key, v)]) rest = without d rest := by
      refine filter_congr fun entry member => ?_
      have apart : entry.1 ≠ key := fun same => fresh (same ▸ mem_map_of_mem member)
      simp [apart]
    have last : refreshed rest [(key, v)] = [(key, v)] := by simp [refreshed, get_none_iff.mpr fresh]
    rw [overwritten, overwritten, overwritten, without_apply, without_apply, if_neg inside, if_neg inside,
      without_nil, same, refreshed, map_append, ← refreshed, ← refreshed, refreshed_cons d fresh, last, append_assoc]
    rfl

theorem fresh_of_distinct {entry : Bytes × Value} (absent : entry.1 ∉ Keys d) (w : Value) :
    ∀ other ∈ d, other.1 ∉ Keys [(entry.1, w)] := by
  intro other member same
  have same : other.1 = entry.1 := mem_singleton.mp same
  exact absent (same ▸ mem_map_of_mem member)

theorem removeField_eq (v : Value) (distinct : (Keys d).Nodup) : removeField key d = without [(key, v)] d := by
  induction d with
  | nil => rfl
  | cons entry d ih =>
    obtain ⟨absent, distinct⟩ := nodup_cons.mp distinct
    rw [removeField, without_apply]
    by_cases here : entry.1 = key
    · subst here
      rw [if_pos rfl, if_pos (by simp)]
      exact (without_fresh (fresh_of_distinct absent v)).symm
    · rw [if_neg here, if_neg (by simpa using here), ih distinct]

theorem setField_eq (distinct : (Keys d).Nodup) : setField key v d = overwritten [(key, v)] d := by
  induction d with
  | nil => simp [setField, overwritten, without, refreshed]
  | cons entry d ih =>
    obtain ⟨absent, distinct⟩ := nodup_cons.mp distinct
    rw [setField]
    by_cases here : entry.1 = key
    · subst here
      have rest := refreshed_fresh (fresh_of_distinct absent v)
      rw [if_pos rfl, overwritten, refreshed, map_cons, ← refreshed, rest]
      simp [without_apply]
    · rw [if_neg here, ih distinct]
      simp [overwritten, refreshed, without_apply, Ne.symm here]

theorem applySectionField_eq (distinct : (Keys d).Nodup) :
    applySectionField name key v d = sectionImage name [(key, v)] d := by
  rw [applySectionField, sectionImage]
  split
  · exact removeField_eq v distinct
  split
  · exact setField_eq distinct
  · have left : (Keys (without [(key, v)] d)).Nodup := distinct.sublist (filter_sublist.map _)
    have fresh (entry) (member : entry ∈ without [(key, v)] d) := (mem_without.mp member).2
    have gone : key ∉ Keys (without [(key, v)] d) := not_mem_keys_without (mem_singleton.mpr rfl)
    rw [removeField_eq v distinct, setField_eq left, overwritten, refreshed_fresh fresh, without_apply, if_neg gone,
      without_nil]

theorem sectionImage_cons (fresh : key ∉ Keys rest) :
    sectionImage name rest (sectionImage name [(key, v)] d) = sectionImage name ((key, v) :: rest) d := by
  rw [sectionImage, sectionImage, sectionImage]
  split
  · exact without_cons d rest
  split
  · exact overwritten_cons d fresh
  · have last : without rest [(key, v)] = [(key, v)] := by rw [without_apply, if_neg fresh, without_nil]
    rw [without, filter_append, ← without, ← without, without_cons, last, append_assoc]
    rfl

theorem sectionImage_nil : sectionImage name [] d = d := by
  have all : without [] d = d := without_fresh fun _ _ => not_mem_nil
  have same : refreshed [] d = d := refreshed_fresh fun _ _ => not_mem_nil
  simp [sectionImage, overwritten, all, same]

theorem sectionImage_distinct (distinct : (Keys d).Nodup) : (Keys (sectionImage name [(key, v)] d)).Nodup := by
  have left : (Keys (without [(key, v)] d)).Nodup := distinct.sublist (filter_sublist.map _)
  rw [sectionImage]
  split
  · exact left
  split
  · rw [overwritten, keys_append, keys_refreshed, without_apply]
    split
    · simpa using distinct
    · next outside =>
      rw [nodup_append_comm]
      exact nodup_cons.mpr ⟨outside, distinct⟩
  · have gone : key ∉ Keys (without [(key, v)] d) := not_mem_keys_without (mem_singleton.mpr rfl)
    rw [keys_append, nodup_append_comm]
    exact nodup_cons.mpr ⟨gone, left⟩

theorem mem_of_mem_sectionImage {entry : Bytes × Value} (member : entry ∈ sectionImage name fields d)
    (outside : entry.1 ∉ Keys fields) : entry ∈ d := by
  have apart : entry ∉ fields := fun inside => outside (mem_map_of_mem inside)
  rw [sectionImage] at member
  split at member
  · exact (mem_without.mp member).1
  split at member
  · rcases mem_append.mp member with kept | added
    · obtain ⟨before, held, rfl⟩ := mem_map.mp kept
      rw [get_none_iff.mpr outside]
      exact held
    · exact absurd (mem_without.mp added).1 apart
  · rcases mem_append.mp member with kept | added
    · exact (mem_without.mp kept).1
    · exact absurd added apart

/-- The state of a run: distinct keys, and values with distinct keys where nothing is modified yet. -/
structure Staged (state : Document × List Bytes) : Prop where
  distinct : (Keys state.1).Nodup
  kept : ∀ entry ∈ state.1, entry.1 ∉ state.2 → distinctKeys entry.2 = true

theorem Staged.write (name : Bytes) {result : Document} {modified : List Bytes} (staged : Staged (result, modified)) :
    Staged (sectionImage name [(key, v)] result, key :: modified) := by
  refine ⟨sectionImage_distinct staged.distinct, fun entry member unmodified => ?_⟩
  rw [mem_cons, not_or] at unmodified
  exact staged.kept entry (mem_of_mem_sectionImage member (by simpa using unmodified.1)) unmodified.2

theorem applySectionFields_image {state after : Document × List Bytes}
    (done : applySectionFields name fields state = some after) (staged : Staged state) :
    after.1 = sectionImage name fields state.1 ∧ Staged after ∧ ∀ key ∈ Keys fields, key ∉ state.2 := by
  induction fields generalizing state with
  | nil =>
    cases done
    exact ⟨sectionImage_nil.symm, staged, fun _ member => absurd member not_mem_nil⟩
  | cons entry rest ih =>
    obtain ⟨key, v⟩ := entry
    obtain ⟨result, modified⟩ := state
    rw [applySectionFields, applySectionField_eq staged.distinct] at done
    split at done
    · cases done
    next untouched =>
    obtain ⟨image, staged', fresh⟩ := ih done (staged.write name)
    have once : key ∉ Keys rest := fun again => fresh key again (mem_cons_self ..)
    refine ⟨image.trans (sectionImage_cons once), staged', fun other member => ?_⟩
    rcases mem_cons.mp member with rfl | later
    · exact untouched
    · exact fun inside => fresh other later (mem_cons_of_mem _ inside)

theorem applySection_image {state after : Document × List Bytes} (done : applySection diff state name = some after)
    (staged : Staged state) :
    after.1 = sectionImage name (sectionFields diff name) state.1 ∧ Staged after := by
  rw [applySection] at done
  rw [sectionFields]
  split at done
  · next absent =>
    cases done
    rw [absent]
    exact ⟨sectionImage_nil.symm, staged⟩
  · next given =>
    rw [given]
    exact (applySectionFields_image done staged).imp_right And.left
  · cases done

theorem applySections_image {state : Document × List Bytes} (done : applySections d diff = some state)
    (distinct : distinctKeys (.document d) = true) :
    Staged state ∧ objectImage diff (fun _ v => v) d = state.1 := by
  rw [distinctKeys, Bool.and_eq_true, decide_eq_true_iff, distinctFields_iff] at distinct
  have start : Staged (d, []) := ⟨distinct.1, fun entry member _ => distinct.2 entry member⟩
  rw [applySections] at done
  split at done
  · cases done
  obtain ⟨removed, first, done⟩ := Option.bind_eq_some_iff.mp done
  obtain ⟨updated, second, done⟩ := Option.bind_eq_some_iff.mp done
  obtain ⟨inserted, third, done⟩ := Option.bind_eq_some_iff.mp done
  cases done
  obtain ⟨image₁, staged₁⟩ := applySection_image first start
  obtain ⟨image₂, staged₂⟩ := applySection_image second staged₁
  obtain ⟨image₃, staged₃⟩ := applySection_image third staged₂
  refine ⟨staged₃, ?_⟩
  rw [objectImage, image₃, image₂, image₁]
  exact map_id _

/-! The sub-diffs. -/

/-- What `subDiffOn` leaves of a value is its image. -/
def Applies (diff : Document) : Prop :=
  ∀ before after, distinctKeys before = true →
    subDiffOn diff (applySubDiffs diff) (applyArrayFields diff) before = some after →
      after = valueImage diff (fieldImage diff) (elementImage diff) before

theorem fieldImage_other {value : Value} (other : name ≠ 115 :: key) :
    fieldImage ((name, value) :: rest) key v = fieldImage rest key v := by
  cases value <;> simp [fieldImage, other]

theorem fieldImage_section {value : Value} (plain : name = field "d" ∨ name = field "u" ∨ name = field "i") :
    fieldImage ((name, value) :: rest) key v = fieldImage rest key v := by
  apply fieldImage_other
  rintro rfl
  rcases plain with same | same | same <;> cases same

theorem applySubDiffs_section {value : Value} {state : Document × List Bytes}
    (plain : name = field "d" ∨ name = field "u" ∨ name = field "i") :
    applySubDiffs ((name, value) :: rest) state = applySubDiffs rest state := by
  obtain ⟨result, modified⟩ := state
  cases value <;> simp only [applySubDiffs, if_pos plain]

theorem fieldDiff_image {sub : Document} {before after : Option Value} (applies : Applies sub)
    (distinct : ∀ v, before = some v → distinctKeys v = true)
    (done : fieldDiff sub (applySubDiffs sub) (applyArrayFields sub) before = some after) :
    after = before.map (valueImage sub (fieldImage sub) (elementImage sub)) := by
  have applied : before.mapM (subDiffOn sub (applySubDiffs sub) (applyArrayFields sub)) = some after := by
    rw [fieldDiff] at done
    split at done
    · exact (Option.bind_eq_some_iff.mp done).choose_spec.2
    · cases done
    · exact (Option.bind_eq_some_iff.mp done).choose_spec.2
  cases before with
  | none => exact (Option.some.inj applied).symm
  | some v =>
    obtain ⟨w, on, same⟩ := Option.map_eq_some_iff.mp applied
    rw [← same, applies v w (distinct v rfl) on]
    rfl

/-- A field that is written with its image stays at it: the run does not come back to a modified key. -/
theorem map_setField {f g : Bytes → Value → Value} (distinct : (Keys d).Nodup) {before : Value}
    (held : d.get key = some before) (idle : ∀ w, f key w = w) (image : g key before = v)
    (others : ∀ other ≠ key, ∀ w, g other w = f other w) :
    (setField key v d).map (fun entry => (entry.1, f entry.1 entry.2)) =
      d.map fun entry => (entry.1, g entry.1 entry.2) := by
  have inside : key ∈ Keys d := mem_Keys.mpr (by simp [held])
  rw [setField_eq distinct, overwritten, without_apply, if_pos inside, without_nil, append_nil, refreshed, map_map]
  refine map_congr_left fun entry member => ?_
  by_cases here : entry.1 = key
  · subst here
    have same : before = entry.2 := Option.some.inj (held.symm.trans (get_of_distinct distinct member))
    simp [idle, ← same, image]
  · simp [Ne.symm here, others _ here]

/-- A field of the diff behind the sections: the sub-diff of a key that is not modified yet. -/
theorem applySubDiffs_step {value : Value} {result post : Document} {modified : List Bytes}
    (behind : ¬ (name = field "d" ∨ name = field "u" ∨ name = field "i"))
    (done : applySubDiffs ((name, value) :: rest) (result, modified) = some post) :
    ∃ key sub after, name = 115 :: key ∧ value = .document sub ∧ key ∉ modified ∧
      fieldDiff sub (applySubDiffs sub) (applyArrayFields sub) (result.get key) = some after ∧
      applySubDiffs rest (after.elim result (setField key · result), key :: modified) = some post := by
  obtain ⟨sub, rfl⟩ : ∃ sub, value = .document sub := by
    cases value with
    | document sub => exact ⟨sub, rfl⟩
    | _ => simp [applySubDiffs, behind] at done
  rw [applySubDiffs, if_neg behind] at done
  simp only at done
  split at done
  · cases done
  next free =>
  simp only [not_or, not_not] at free
  obtain ⟨first, -, free⟩ := free
  obtain ⟨key, rfl⟩ : ∃ key, name = 115 :: key := by
    cases name with
    | nil => cases first
    | cons c key => exact ⟨key, by rw [Option.some.inj first]⟩
  split at done
  · cases done
  · next on => exact ⟨key, sub, none, rfl, rfl, free, on, done⟩
  · next updated on => exact ⟨key, sub, some updated, rfl, rfl, free, on, done⟩

theorem applySubDiffs_image {state : Document × List Bytes} {post : Document}
    (subs : ∀ entry ∈ diff, ∀ sub, entry.2 = .document sub → Applies sub)
    (done : applySubDiffs diff state = some post) (staged : Staged state) :
    post = state.1.map (fun entry => (entry.1, fieldImage diff entry.1 entry.2)) ∧
      ∀ key ∈ state.2, ∀ v, fieldImage diff key v = v := by
  induction diff generalizing state with
  | nil =>
    rw [applySubDiffs] at done
    cases done
    exact ⟨(map_id _).symm, fun _ _ _ => rfl⟩
  | cons entry rest ih =>
    obtain ⟨name, value⟩ := entry
    obtain ⟨result, modified⟩ := state
    have ih {state} (done : applySubDiffs rest state = some post) (staged : Staged state) :=
      ih (fun entry member => subs entry (mem_cons_of_mem _ member)) done staged
    by_cases plain : name = field "d" ∨ name = field "u" ∨ name = field "i"
    · rw [applySubDiffs_section plain] at done
      simpa only [fieldImage_section plain] using ih done staged
    obtain ⟨key, sub, after, rfl, rfl, free, on, done⟩ := applySubDiffs_step plain done
    have others (other) (apart : other ≠ key) (v) :
        fieldImage ((115 :: key, .document sub) :: rest) other v = fieldImage rest other v :=
      fieldImage_other fun same => apart (List.cons.inj same).2.symm
    have image := fieldDiff_image (subs _ (mem_cons_self ..) sub rfl)
      (fun v held => staged.kept (key, v) (mem_of_get held) free) on
    -- The key counts as modified from here on, so what is left of the diff keeps its value.
    have next : Staged (after.elim result (setField key · result), key :: modified) := by
      cases after with
      | none =>
        exact ⟨staged.distinct, fun entry member new => staged.kept entry member (new <| mem_cons_of_mem _ ·)⟩
      | some updated =>
        rw [Option.elim_some, setField_eq staged.distinct]
        exact staged.write (field "u")
    obtain ⟨run, idle⟩ := ih done next
    refine ⟨run.trans ?_, fun other before v => ?_⟩
    -- A field that is missing stays so; one that is there has been set to its image.
    · cases held : result.get key with
      | none =>
        rw [held] at image
        rw [image]
        refine map_congr_left fun entry member => ?_
        rw [others entry.1 fun same => get_none_iff.mp held (same ▸ mem_map_of_mem member)]
      | some before =>
        rw [held] at image
        rw [image]
        exact map_setField staged.distinct held (idle key (mem_cons_self ..)) (by simp [fieldImage]) others
    · rw [others other fun same => free (same ▸ before)]
      exact idle other (mem_cons_of_mem _ before) v

theorem objectDiffWith_image {post : Document}
    (subs : ∀ entry ∈ diff, ∀ sub, entry.2 = .document sub → Applies sub)
    (distinct : distinctKeys (.document d) = true)
    (done : objectDiffWith diff (applySubDiffs diff) d = some post) : post = v2Image diff d := by
  obtain ⟨state, sections, done⟩ := Option.bind_eq_some_iff.mp done
  obtain ⟨staged, image⟩ := applySections_image sections distinct
  rw [(applySubDiffs_image subs done staged).1, ← image, v2Image, objectImage, objectImage, map_map]
  rfl

/-! Array diffs. -/

variable {elems : List Value}

theorem arrayDiffLength_eq {length : Nat} (done : arrayDiffLength elems diff = some length) :
    askedLength diff elems = length := by
  unfold arrayDiffLength at done
  split at done
  case h_2 => cases done
  next name rest =>
  split at done
  · cases done
  next header =>
  rw [not_or, not_not] at header
  obtain ⟨rfl, once⟩ := header
  have behind : Document.get ((field "a", .bool true) :: rest) (field "l") = Document.get rest (field "l") := by
    rw [get_cons, if_neg (by decide)]
  rw [askedLength, behind]
  split at done
  · next next_ value more =>
    rw [get_cons]
    split at done
    · next named =>
      rw [if_pos named]
      split at done
      · split at done
        · cases done
        · exact Option.some.inj done
      · cases done
    · next other =>
      have absent : Document.get more (field "l") = none := by
        rw [get_none_iff]
        intro inside
        obtain ⟨entry, member, same⟩ := mem_map.mp inside
        exact once (any_eq_true.mpr ⟨entry, member, decide_eq_true same⟩)
      rw [if_neg other, absent]
      exact Option.some.inj done
  · exact Option.some.inj done

theorem elementImage_other {i : Nat} {before : Option Value} (other : diffIndex (name.drop 1) ≠ some i) :
    elementImage ((name, v) :: rest) i before = elementImage rest i before := by
  cases v <;> simp only [elementImage, if_neg other]

/-- A field of an array diff behind its header: it writes an index that is not modified yet, with its image. -/
theorem applyArrayFields_step {modified after : List (Nat × Value)}
    (behind : ¬ (name = field "a" ∨ name = field "l"))
    (subs : ∀ sub, v = .document sub → Applies sub) (distinct : ∀ v ∈ elems, distinctKeys v = true)
    (done : applyArrayFields ((name, v) :: rest) elems modified = some after) :
    ∃ index, diffIndex (name.drop 1) = some index ∧ index ∉ modified.map Prod.fst ∧
      applyArrayFields rest elems
        ((index, elementImage ((name, v) :: rest) index elems[index]?) :: modified) = some after := by
  unfold applyArrayFields at done
  rw [if_neg behind] at done
  split at done
  · cases done
  next index named =>
  split at done
  · cases done
  next free =>
  refine ⟨index, named, free, ?_⟩
  split at done
  · next set =>
    have image : elementImage ((name, v) :: rest) index elems[index]? = v := by
      cases v <;> simp only [elementImage, if_pos named, if_pos set]
    rwa [image]
  split at done
  case isFalse => cases done
  next other first =>
  split at done
  case h_2 => cases done
  next sub =>
  rw [elementImage, if_pos named, if_neg other]
  split at done
  · next absent => rwa [absent]
  · next before held =>
    split at done
    · cases done
    · next updated on =>
      have inside := distinct before (mem_of_getElem? held)
      rw [held, Option.map_some, Option.getD_some, ← subs sub rfl before updated inside on]
      exact done

theorem arrayElement_cons (modified : List (Nat × Value)) (index i : Nat) (v : Value) :
    arrayElement elems ((index, v) :: modified) i = if index = i then v else arrayElement elems modified i := by
  by_cases here : index = i <;> simp [arrayElement, here]

/-- An index that is named is written once, with its image. -/
theorem applyArrayFields_image {modified after : List (Nat × Value)}
    (subs : ∀ entry ∈ diff, ∀ sub, entry.2 = .document sub → Applies sub)
    (distinct : ∀ v ∈ elems, distinctKeys v = true)
    (done : applyArrayFields diff elems modified = some after) :
    after.map Prod.fst = (namedIndices diff).reverse ++ modified.map Prod.fst ∧
      ∀ i, arrayElement elems after i =
        if i ∈ modified.map Prod.fst then arrayElement elems modified i else elementImage diff i elems[i]? := by
  induction diff generalizing modified with
  | nil =>
    rw [applyArrayFields] at done
    cases done
    refine ⟨rfl, fun i => ?_⟩
    split
    · rfl
    · next outside =>
      have none_ : after.find? (fun entry => entry.1 = i) = none := by
        rw [find?_eq_none]
        exact fun entry member same => outside (mem_map.mpr ⟨entry, member, of_decide_eq_true same⟩)
      rw [arrayElement, none_, elementImage]
  | cons entry rest ih =>
    obtain ⟨name, v⟩ := entry
    have ih {modified} (done : applyArrayFields rest elems modified = some after) :=
      ih (fun entry member => subs entry (mem_cons_of_mem _ member)) done
    by_cases header : name = field "a" ∨ name = field "l"
    · have unnamed : diffIndex (name.drop 1) = none := by
        rcases header with rfl | rfl <;> rfl
      have skips : applyArrayFields ((name, v) :: rest) elems modified = applyArrayFields rest elems modified := by
        cases v <;> simp only [applyArrayFields, if_pos header]
      have skipped (i) : elementImage ((name, v) :: rest) i elems[i]? = elementImage rest i elems[i]? :=
        elementImage_other fun named => Option.some_ne_none i (named.symm.trans unnamed)
      have same : namedIndices ((name, v) :: rest) = namedIndices rest := filterMap_cons_none unnamed
      simpa only [same, skipped] using ih (skips ▸ done)
    obtain ⟨index, named, free, done⟩ :=
      applyArrayFields_step header (subs _ (mem_cons_self ..)) distinct done
    obtain ⟨indices, elements⟩ := ih done
    refine ⟨?_, fun i => ?_⟩
    · have more : namedIndices ((name, v) :: rest) = index :: namedIndices rest := filterMap_cons_some named
      rw [indices, more, reverse_cons, append_assoc]
      rfl
    · rw [elements i, arrayElement_cons, map_cons]
      by_cases here : index = i
      · subst here
        -- Written by this field of the diff, and by no later one.
        rw [if_pos (mem_cons_self ..), if_pos rfl, if_neg free]
      · have apart : diffIndex (name.drop 1) ≠ some i := named ▸ fun same => here (Option.some.inj same)
        simp only [if_neg here, elementImage_other apart, mem_cons, Ne.symm here, false_or]

theorem arrayDiffWith_image {post : List Value}
    (subs : ∀ entry ∈ diff, ∀ sub, entry.2 = .document sub → Applies sub)
    (distinct : ∀ v ∈ elems, distinctKeys v = true)
    (done : arrayDiffWith diff (applyArrayFields diff) elems = some post) :
    post = arrayImage diff (elementImage diff) elems := by
  obtain ⟨length, asked, done⟩ := Option.bind_eq_some_iff.mp done
  obtain ⟨modified, fields, done⟩ := Option.bind_eq_some_iff.mp done
  obtain ⟨indices, elements⟩ := applyArrayFields_image subs distinct fields
  rw [← Option.some.inj done, arrayResult, arrayImage, imageLength, arrayDiffLength_eq asked, indices]
  rw [map_nil, append_nil, foldl_reverse]
  exact map_congr_left fun i _ => elements i

/-- By induction on the diff: its sub-diffs are smaller. -/
theorem applies_all (diff : Document) : Applies diff := by
  have subs (entry) (member : entry ∈ diff) (sub) (nested : entry.2 = .document sub) : Applies sub := by
    have smaller : sizeOf sub < sizeOf diff := by
      have field : sizeOf entry < sizeOf diff := sizeOf_lt_of_mem member
      obtain ⟨name, value⟩ := entry
      subst nested
      simp only [Prod.mk.sizeOf_spec, Value.document.sizeOf_spec] at field
      omega
    exact applies_all sub
  intro before after distinct done
  unfold subDiffOn at done
  split at done
  · next elems array =>
    obtain ⟨post, applied, rfl⟩ := Option.map_eq_some_iff.mp done
    rw [distinctKeys, distinctElems_iff] at distinct
    rw [valueImage, if_pos array, arrayDiffWith_image subs distinct applied]
  · next d object =>
    obtain ⟨post, applied, rfl⟩ := Option.map_eq_some_iff.mp done
    rw [valueImage, if_neg (by simp [object]), objectDiffWith_image subs distinct applied, v2Image]
  · next before _ _ notArray notObject =>
    rw [← Option.some.inj done]
    cases before with
    | array elems => rw [valueImage, if_neg (notArray elems rfl)]
    | document d => rw [valueImage, if_pos (by simpa using notObject d rfl)]
    | _ => rfl
termination_by sizeOf diff

/-- A diff that is taken leaves the image of the document. -/
theorem ApplyV2Diff_image {post : Document} (distinct : distinctKeys (.document d) = true)
    (done : ApplyV2Diff d diff = some post) : post = v2Image diff d :=
  objectDiffWith_image (fun _ _ sub _ => applies_all sub) distinct done

end DumboDB.Replication
