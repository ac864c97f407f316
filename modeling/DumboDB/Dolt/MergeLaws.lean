import DumboDB.Dolt.ContentEquality
import Mathlib.Data.List.Dedup

/-!
The laws of the merge modes: which mode refuses what another refuses, that no mode minds the order
of the sides, and that the field-wise merge succeeds where a mode does not object.
-/

namespace DumboDB.Dolt
open Foundation ByteOrder Binary64 DumboDB.Types List Std

/-! Keys. -/

theorem mem_Keys {d : Document} {key : Bytes} : key ∈ Keys d ↔ d.get key ≠ none := by
  induction d with
  | nil => simp [Keys]
  | cons field d ih =>
    obtain ⟨k, v⟩ := field
    rw [get_cons, Keys, map_cons, mem_cons]
    by_cases here : k = key
    · simp [here]
    · rw [if_neg here]
      exact ⟨fun member => ih.mp (member.resolve_left (Ne.symm here)), fun held => .inr (ih.mpr held)⟩

theorem mem_mergeDocumentKeys {base left right : Document} {key : Bytes} :
    key ∈ mergeDocumentKeys [base, left, right] ↔ key ∈ Keys base ∨ key ∈ Keys left ∨ key ∈ Keys right := by
  simp [mergeDocumentKeys]

theorem nodup_mergeDocumentKeys (documents : List Document) : (mergeDocumentKeys documents).Nodup :=
  (perm_insertionSort _ _).nodup_iff.mpr (nodup_dedup _)

theorem absent_of_not_mem {base left right : Document} {key : Bytes}
    (absent : key ∉ mergeDocumentKeys [base, left, right]) :
    base.get key = none ∧ left.get key = none ∧ right.get key = none := by
  simpa only [mem_mergeDocumentKeys, not_or, mem_Keys, ne_eq, not_not] using absent

theorem mergeDocumentKeys_swap (base left right : Document) :
    mergeDocumentKeys [base, left, right] = mergeDocumentKeys [base, right, left] := by
  have keys : ([base, left, right].flatMap Keys).Perm ([base, right, left].flatMap Keys) := by
    simp only [flatMap_cons, flatMap_nil, append_nil]
    exact (perm_append_comm).append_left _
  have sorted (documents : List Document) : (mergeDocumentKeys documents).Pairwise fun a b => compare a b ≠ .gt := by
    have total : Std.Total fun a b : Bytes => compare a b ≠ .gt := ⟨fun a b => by
      by_cases greater : compare a b = .gt
      · right
        rw [OrientedCmp.gt_iff_lt] at greater
        rw [greater]
        decide
      · exact .inl greater⟩
    have trans : IsTrans Bytes fun a b : Bytes => compare a b ≠ .gt := ⟨fun a b c first second => by
      apply Ordering.isLE_iff_ne_gt.mp
      exact TransCmp.isLE_trans (Ordering.isLE_iff_ne_gt.mpr first) (Ordering.isLE_iff_ne_gt.mpr second)⟩
    exact pairwise_insertionSort _ _
  refine List.Perm.eq_of_pairwise ?_ (sorted _) (sorted _) ?_
  · intro a b _ _ first second
    apply Std.compare_eq_iff_eq.mp
    cases order : compare a b with
    | eq => rfl
    | gt => exact absurd order first
    | lt => exact absurd (OrientedCmp.gt_iff_lt.mpr order) second
  · exact (perm_insertionSort _ _).trans (keys.dedup.trans (perm_insertionSort _ _).symm)

/-! Both recursions, key by key. -/

theorem document_induction {P : Document → Prop}
    (step : ∀ d, (∀ key sub, d.get key = some (.document sub) → P sub) → P d) (d : Document) : P d :=
  step d fun _ sub _held => document_induction step sub
termination_by sizeOf d
decreasing_by exact sizeOf_of_get_document _held

namespace MergeMode

def valueConflicts (m : MergeMode) (base left right : Option Value) : Bool :=
  match base, left, right with
  | some (.document baseDoc), some (.document leftDoc), some (.document rightDoc) =>
    fieldConflicts m baseDoc leftDoc rightDoc false
  | base, left, right => fieldClash m base left right

theorem fieldConflicts_eq (m : MergeMode) (base left right : Document) (root : Bool) :
    fieldConflicts m base left right root = (mergeDocumentKeys [base, left, right]).any fun key =>
        if root && key == idKey then false else valueConflicts m (base.get key) (left.get key) (right.get key) := by
  rw [fieldConflicts]
  congr 1
  funext key
  unfold valueConflicts
  split
  · rfl
  · split
    next heldBase heldLeft heldRight =>
      rw [heldBase, heldLeft, heldRight]
    next other =>
      split
      next heldBase heldLeft heldRight =>
        exact (other _ _ _ heldBase heldLeft heldRight).elim
      · rfl

end MergeMode

def nestedMerge (base left right : Option Value) : Option Value :=
  match base, left, right with
  | some (.document baseDoc), some (.document leftDoc), some (.document rightDoc) =>
    (mergeBSONDoc baseDoc leftDoc rightDoc).map .document
  | _, _, _ => none

def mergeValue (base left right : Option Value) : Option (Option Value) :=
  mergeField base left right (nestedMerge base left right)

theorem mergeBSONDoc_eq (base left right : Document) : mergeBSONDoc base left right = collectFields (fun key =>
        mergeValue (base.get key) (left.get key) (right.get key)) (mergeDocumentKeys [base, left, right]) := by
  rw [mergeBSONDoc]
  congr 1
  funext key
  unfold mergeValue nestedMerge
  split
  next heldBase heldLeft heldRight =>
    rw [heldBase, heldLeft, heldRight]
  next other =>
    split
    next heldBase heldLeft heldRight =>
      exact (other _ _ _ heldBase heldLeft heldRight).elim
    · rfl

theorem collectFields_eq_none {field : Bytes → Option (Option Value)} {keys : List Bytes} :
    collectFields field keys = none ↔ ∃ key ∈ keys, field key = none := by
  induction keys with
  | nil => simp [collectFields]
  | cons key keys ih =>
    rw [collectFields, exists_mem_cons_iff, ← ih]
    cases field key with
    | none => simp
    | some v => cases v <;> cases collectFields field keys <;> simp

theorem get_collectFields {field : Bytes → Option (Option Value)} {keys : List Bytes} {out : Document}
    (distinct : keys.Nodup) (collected : collectFields field keys = some out) (key : Bytes) :
    (key ∈ keys → field key = some (out.get key)) ∧ (key ∉ keys → out.get key = none) := by
  induction keys generalizing out with
  | nil =>
    cases collected
    exact ⟨fun absent => (nomatch absent), fun _ => rfl⟩
  | cons first keys ih =>
    rw [nodup_cons] at distinct
    rw [collectFields] at collected
    split at collected
    next v rest value found =>
      cases collected
      obtain ⟨inside, outside⟩ := ih distinct.2 found
      by_cases here : first = key
      · subst here
        simpa using value
      · simpa [Ne.symm here, here] using ⟨inside, outside⟩
    next rest value found =>
      cases collected
      obtain ⟨inside, outside⟩ := ih distinct.2 found
      by_cases here : first = key
      · subst here
        simpa [outside distinct.1] using value
      · simpa [Ne.symm here] using ⟨inside, outside⟩
    · cases collected

theorem mergeBSONDoc_eq_none {base left right : Document} :
    mergeBSONDoc base left right = none ↔ ∃ key, mergeValue (base.get key) (left.get key) (right.get key) = none := by
  rw [mergeBSONDoc_eq, collectFields_eq_none]
  constructor
  · rintro ⟨key, -, conflict⟩
    exact ⟨key, conflict⟩
  · rintro ⟨key, conflict⟩
    refine ⟨key, ?_, conflict⟩
    by_contra absent
    obtain ⟨inBase, inLeft, inRight⟩ := absent_of_not_mem absent
    rw [inBase, inLeft, inRight] at conflict
    cases conflict

theorem get_mergeBSONDoc {base left right out : Document} (merged : mergeBSONDoc base left right = some out)
    (key : Bytes) : mergeValue (base.get key) (left.get key) (right.get key) = some (out.get key) := by
  rw [mergeBSONDoc_eq] at merged
  obtain ⟨inside, outside⟩ := get_collectFields (nodup_mergeDocumentKeys _) merged key
  by_cases member : key ∈ mergeDocumentKeys [base, left, right]
  · exact inside member
  · obtain ⟨inBase, inLeft, inRight⟩ := absent_of_not_mem member
    rw [inBase, inLeft, inRight, outside member]
    rfl

theorem mergeValue_documents (base left right : Document) :
    nestedMerge (some (.document base)) (some (.document left)) (some (.document right)) =
      (mergeBSONDoc base left right).map .document := rfl

theorem mergeValue_of_left {base left : Option Value} (kept : sameField base left = true) (right : Option Value) :
    mergeValue base left right = some (if sameField base right then left else right) := by
  cases base with
  | none =>
    cases left with
    | some l => cases kept
    | none => cases right <;> rfl
  | some b =>
    cases left with
    | none => cases kept
    | some l =>
      have unchanged : DeepEqual l b = true := DeepEqual_symm kept
      cases right with
      | none => simp [mergeValue, mergeField, unchanged, sameField]
      | some r =>
        have same := DeepEqual_comm b r
        cases other : DeepEqual r b <;>
          simp [mergeValue, mergeField, unchanged, sameField, same, other]

theorem mergeValue_of_right {base right : Option Value} (kept : sameField base right = true) (left : Option Value) :
    mergeValue base left right = some left := by
  cases base with
  | none =>
    cases right with
    | some r => cases kept
    | none => cases left <;> rfl
  | some b =>
    cases right with
    | none => cases kept
    | some r =>
      have unchanged : DeepEqual r b = true := DeepEqual_symm kept
      cases left with
      | none => simp [mergeValue, mergeField, unchanged]
      | some l => cases other : DeepEqual l b <;> simp [mergeValue, mergeField, unchanged, other]

theorem mergeValue_of_same {base left right : Option Value} (changedLeft : sameField base left = false)
    (changedRight : sameField base right = false) (same : sameField left right = true) :
    mergeValue base left right = some left := by
  cases left with
  | none =>
    cases right with
    | some r => cases same
    | none => cases base <;> rfl
  | some l =>
    cases right with
    | none => cases same
    | some r =>
      have equal : DeepEqual l r = true := same
      cases base with
      | none => simp [mergeValue, mergeField, equal]
      | some b =>
        have left : DeepEqual l b = false := (DeepEqual_comm l b).trans changedLeft
        have right : DeepEqual r b = false := (DeepEqual_comm r b).trans changedRight
        simp [mergeValue, mergeField, equal, left, right]

theorem mergeValue_of_nested {base left right : Document}
    (changedLeft : sameField (some (.document base)) (some (.document left)) = false)
    (changedRight : sameField (some (.document base)) (some (.document right)) = false)
    (differ : sameField (some (.document left)) (some (.document right)) = false) :
    mergeValue (some (.document base)) (some (.document left)) (some (.document right)) =
      (mergeBSONDoc base left right).map fun out => some (.document out) := by
  have leftBase : DeepEqual (.document left) (.document base) = false := (DeepEqual_comm _ _).trans changedLeft
  have rightBase : DeepEqual (.document right) (.document base) = false := (DeepEqual_comm _ _).trans changedRight
  have leftRight : DeepEqual (.document left) (.document right) = false := differ
  simp [mergeValue, mergeField, leftBase, rightBase, leftRight, mergeValue_documents, Function.comp_def]

/-! Conflicts, key by key. -/

namespace MergeMode

theorem fieldClash_of_left {m : MergeMode} {base left right : Option Value} (kept : sameField base left = true) :
    fieldClash m base left right = false := by simp [fieldClash, kept]

theorem fieldConflicts_eq_false {m : MergeMode} {base left right : Document} {root : Bool} :
    fieldConflicts m base left right root = false ↔ ∀ key, ¬(root = true ∧ key = idKey) →
        valueConflicts m (base.get key) (left.get key) (right.get key) = false := by
  rw [fieldConflicts_eq, any_eq_false]
  constructor
  · intro clear key other
    by_cases member : key ∈ mergeDocumentKeys [base, left, right]
    · have here := clear key member
      rw [if_neg (by simpa using other)] at here
      exact Bool.eq_false_iff.mpr here
    · obtain ⟨inBase, inLeft, inRight⟩ := absent_of_not_mem member
      rw [inBase, inLeft, inRight]
      exact fieldClash_of_left rfl
  · intro clear key _
    split
    · exact Bool.false_ne_true
    next other =>
      rw [clear key (by simpa using other)]
      exact Bool.false_ne_true

/-- What the fields of documents inherit from them, and what no field clashes under, excludes a conflict. -/
theorem valueConflicts_rule {m : MergeMode} {R : Option Value → Option Value → Option Value → Prop}
    (fields : ∀ b l r, R (some (.document b)) (some (.document l)) (some (.document r)) →
      ∀ key, R (Document.get b key) (Document.get l key) (Document.get r key))
    (clear : ∀ b l r, R b l r → (∀ x y z, b = some (.document x) → l = some (.document y) →
    r = some (.document z) → False) →
      fieldClash m b l r = false)
    {base left right : Option Value} (holds : R base left right) : valueConflicts m base left right = false := by
  unfold valueConflicts
  split
  next baseDoc leftDoc rightDoc =>
    induction baseDoc using document_induction generalizing leftDoc rightDoc with
    | step baseDoc ih =>
      rw [fieldConflicts_eq_false]
      intro key _
      have held := fields baseDoc leftDoc rightDoc holds key
      unfold valueConflicts
      split
      next inBase inLeft inRight =>
        rw [inBase, inLeft, inRight] at held
        exact ih key _ inBase _ _ held
      next other =>
        exact clear _ _ _ held other
  next other =>
    exact clear _ _ _ holds other

theorem valueConflicts_of_left {m : MergeMode} {base left right : Option Value}
    (kept : sameField base left = true) : valueConflicts m base left right = false :=
  valueConflicts_rule (R := fun b l _ => sameField b l = true) (fun _ _ _ => fieldsEqual_of_DeepEqual)
    (fun _ _ _ kept _ => fieldClash_of_left kept) kept

theorem fieldClash_swap (m : MergeMode) (base left right : Option Value) :
    fieldClash m base left right = fieldClash m base right left := by
  unfold fieldClash
  rw [sameField_comm left right, Bool.and_comm (!sameField base left)]

theorem valueConflicts_swap (m : MergeMode) (base left right : Option Value) :
    valueConflicts m base left right = valueConflicts m base right left := by
  have documents (baseDoc leftDoc rightDoc : Document) :
      fieldConflicts m baseDoc leftDoc rightDoc false = fieldConflicts m baseDoc rightDoc leftDoc false := by
    induction baseDoc using document_induction generalizing leftDoc rightDoc with
    | step baseDoc ih =>
      rw [fieldConflicts_eq, fieldConflicts_eq, mergeDocumentKeys_swap]
      congr 1
      funext key
      congr 1
      unfold valueConflicts
      split
      next inBase inLeft inRight =>
        rw [inBase, inLeft, inRight]
        exact ih key _ inBase _ _
      next other =>
        split
        next inBase inRight inLeft =>
          exact (other _ _ _ inBase inLeft inRight).elim
        · exact fieldClash_swap m _ _ _
  unfold valueConflicts
  split
  · exact documents _ _ _
  next other =>
    split
    · exact (other _ _ _ rfl rfl rfl).elim
    · exact fieldClash_swap m _ _ _

theorem fieldConflicts_swap (m : MergeMode) (base left right : Document) (root : Bool) :
    fieldConflicts m base left right root = fieldConflicts m base right left root := by
  rw [fieldConflicts_eq, fieldConflicts_eq, mergeDocumentKeys_swap]
  congr 1
  funext key
  rw [valueConflicts_swap]

theorem valueConflicts_of_right {m : MergeMode} {base left right : Option Value}
    (kept : sameField base right = true) : valueConflicts m base left right = false := by
  rw [valueConflicts_swap]
  exact valueConflicts_of_left kept

theorem valueConflicts_of_same {base left right : Option Value} (same : sameField left right = true) :
    valueConflicts .fieldDivergent base left right = false :=
  valueConflicts_rule (R := fun _ l r => sameField l r = true) (fun _ _ _ => fieldsEqual_of_DeepEqual)
    (fun _ _ _ same _ => by simp [fieldClash, same]) same

theorem valueConflicts_mono {base left right : Option Value}
    (clear : valueConflicts .fieldTouched base left right = false) :
    valueConflicts .fieldDivergent base left right = false := by
  refine valueConflicts_rule (R := fun b l r => valueConflicts .fieldTouched b l r = false)
    (fun _ _ _ clear key => ?_)
    (fun b l r clear other => ?_) clear
  · exact fieldConflicts_eq_false.mp clear key nofun
  · have clear : fieldClash .fieldTouched b l r = false := by
      unfold valueConflicts at clear
      split at clear
      · exact (other _ _ _ rfl rfl rfl).elim
      · exact clear
    simp only [fieldClash] at clear ⊢
    revert clear
    cases sameField b l <;> cases sameField b r <;> simp

theorem fieldConflicts_mono {base left right : Document} {root : Bool}
    (clear : fieldConflicts .fieldTouched base left right root = false) :
    fieldConflicts .fieldDivergent base left right root = false := by
  rw [fieldConflicts_eq_false] at clear ⊢
  exact fun key other => valueConflicts_mono (clear key other)

end MergeMode

/-! Documents whose keys are distinct, as every stored document's are. -/

mutual

def distinctKeys : Value → Bool
  | .document fields => decide (Keys fields).Nodup && distinctFields fields
  | .array elems => distinctElems elems
  | _ => true

def distinctFields : List (Bytes × Value) → Bool
  | [] => true
  | (_, v) :: rest => distinctKeys v && distinctFields rest

def distinctElems : List Value → Bool
  | [] => true
  | v :: rest => distinctKeys v && distinctElems rest

end

theorem distinctFields_iff {fields : List (Bytes × Value)} :
    distinctFields fields = true ↔ ∀ field ∈ fields, distinctKeys field.2 = true := by
  induction fields with
  | nil => simp [distinctFields]
  | cons field fields ih => simp [distinctFields, ih]

theorem distinctElems_iff {elems : List Value} : distinctElems elems = true ↔ ∀ v ∈ elems, distinctKeys v = true := by
  induction elems with
  | nil => simp [distinctElems]
  | cons v elems ih => simp [distinctElems, ih]

theorem get_of_distinct {d : Document} (distinct : (Keys d).Nodup) {key : Bytes} {v : Value}
    (member : (key, v) ∈ d) : d.get key = some v := by
  induction d with
  | nil => cases member
  | cons field d ih =>
    obtain ⟨k, w⟩ := field
    rw [Keys, map_cons, nodup_cons] at distinct
    rw [get_cons]
    rcases mem_cons.mp member with here | later
    · cases here
      exact if_pos rfl
    · have other : k ≠ key := by
        rintro rfl
        exact distinct.1 (mem_map.mpr ⟨(k, v), later, rfl⟩)
      rw [if_neg other]
      exact ih distinct.2 later

theorem exists_odd_field {d : Document} (odd : fieldsEq Float64.eq d d = false) :
    ∃ field ∈ d, DeepEqual field.2 field.2 = false := by
  by_contra none
  have each (field) (member : field ∈ d) : valueEq Float64.eq field.2 field.2 = true := by
    by_contra different
    exact none ⟨field, member, Bool.eq_false_iff.mpr different⟩
  have all : fieldsEq Float64.eq d d = true := by
    clear odd none
    induction d with
    | nil => rfl
    | cons field d ih =>
      obtain ⟨key, v⟩ := field
      rw [fieldsEq, each (key, v) (.head _), ih fun field member => each field (.tail _ member)]
      simp
  rw [all] at odd
  cases odd

theorem mergeValue_odd {v : Value} (odd : DeepEqual v v = false)
    (nested : ∀ d, v = .document d → mergeBSONDoc d d d = none) : mergeValue (some v) (some v) (some v) = none := by
  cases v with
  | document d => simp [mergeValue, mergeField, odd, mergeValue_documents, nested d rfl]
  | _ => simp [mergeValue, mergeField, odd, nestedMerge]

theorem mergeBSONDoc_self {d : Document} (distinct : distinctKeys (.document d) = true)
    (odd : DeepEqual (.document d) (.document d) = false) : mergeBSONDoc d d d = none := by
  induction d using document_induction with
  | step d ih =>
    rw [distinctKeys, Bool.and_eq_true, decide_eq_true_eq, distinctFields_iff] at distinct
    obtain ⟨⟨key, v⟩, member, odd⟩ := exists_odd_field odd
    have held := get_of_distinct distinct.1 member
    rw [mergeBSONDoc_eq_none]
    refine ⟨key, ?_⟩
    rw [held]
    refine mergeValue_odd odd fun sub document => ?_
    subst document
    exact ih key sub held (distinct.2 _ member) odd

/-! The decisions of the four modes. -/

theorem documentsEqual_iff {left right : Document} (distinctLeft : (Keys left).Nodup)
    (distinctRight : (Keys right).Nodup) :
    documentsEqual left right = true ↔ ∀ key, fieldsEqual left right key = true := by
  have present {d e : Document} {key : Bytes} (same : fieldsEqual d e key = true) (member : key ∈ Keys d) :
      key ∈ Keys e := by
    rw [mem_Keys] at member ⊢
    unfold fieldsEqual at same
    intro absent
    rw [absent] at same
    cases held : d.get key with
    | none => exact member held
    | some v => rw [held] at same; cases same
  unfold documentsEqual
  rw [Bool.and_eq_true, beq_iff_eq, all_eq_true]
  constructor
  · rintro ⟨length, each⟩ key
    by_cases member : key ∈ Keys left
    · exact each key member
    · -- as many keys and all of the left ones leave none for the right alone
      have within : Keys left ⊆ Keys right := fun key member => present (each key member) member
      have same := (subperm_of_subset distinctLeft within).perm_of_length_le length.ge
      have alsoAbsent : key ∉ Keys right := fun other => member (same.mem_iff.mpr other)
      rw [mem_Keys, not_not] at member alsoAbsent
      rw [fieldsEqual, member, alsoAbsent]
      rfl
  · intro each
    refine ⟨?_, fun key _ => each key⟩
    apply List.Perm.length_eq
    rw [perm_ext_iff_of_nodup distinctLeft distinctRight]
    intro key
    exact ⟨present (each key), present (sameField_symm (each key))⟩

theorem changedFields_empty {base : Option Document} {doc : Document}
    (none : (changedFields base (some doc)).isEmpty = true) {key : Bytes} (other : key ≠ idKey) :
    sameField ((base.getD []).get key) (doc.get key) = true := by
  have absent (key) (other : key ≠ idKey) (list : List Bytes)
      (empty : (list.filter (· != idKey)).isEmpty = true) : key ∉ list := by
    intro member
    have kept : key ∈ list.filter (· != idKey) := mem_filter.mpr ⟨member, by simpa using other⟩
    rw [List.isEmpty_iff.mp empty] at kept
    cases kept
  cases base with
  | none =>
    have unheld := absent key other _ none
    rw [mem_Keys, not_not] at unheld
    rw [Option.getD_none, get_nil, unheld]
    rfl
  | some base =>
    have unchanged := absent key other _ none
    rw [mem_filter, mem_append, mem_Keys, mem_Keys] at unchanged
    rw [Option.getD_some]
    by_cases held : base.get key = Option.none ∧ doc.get key = Option.none
    · rw [held.1, held.2]
      rfl
    · by_contra different
      exact unchanged ⟨by tauto, by simpa [fieldsEqual] using different⟩

namespace MergeMode

theorem fieldConflicts_of_unchanged {m : MergeMode} {base : Option Document} {left right : Document}
    (idle : ((changedFields base (some left)).isEmpty || (changedFields base (some right)).isEmpty) = true) :
    fieldConflicts m (base.getD []) left right true = false := by
  rw [fieldConflicts_eq_false]
  intro key root
  have other : key ≠ idKey := fun same => root ⟨rfl, same⟩
  rcases (Bool.or_eq_true _ _).mp idle with none | none
  · exact valueConflicts_of_left (changedFields_empty none other)
  · exact valueConflicts_of_right (changedFields_empty none other)

theorem conflicts_fieldTouched {base : Option Document} {left right : Document}
    (clear : conflicts .fieldTouched base (some left) (some right) = false) :
    fieldConflicts .fieldTouched (base.getD []) left right true = false := by
  simp only [conflicts] at clear
  split at clear
  next idle =>
    exact fieldConflicts_of_unchanged idle
  · exact clear

theorem fieldConflicts_of_documentsEqual {base left right : Document} {root : Bool}
    (distinctLeft : (Keys left).Nodup) (distinctRight : (Keys right).Nodup)
    (equal : documentsEqual left right = true) :
    fieldConflicts .fieldDivergent base left right root = false := by
  rw [fieldConflicts_eq_false]
  exact fun key _ => valueConflicts_of_same ((documentsEqual_iff distinctLeft distinctRight).mp equal key)

theorem fieldConflicts_of_clear {m : MergeMode} {base : Option Document} {left right : Document}
    (distinctLeft : (Keys left).Nodup) (distinctRight : (Keys right).Nodup)
    (clear : conflicts m base (some left) (some right) = false) :
    fieldConflicts .fieldDivergent (base.getD []) left right true = false := by
  simp only [conflicts] at clear
  split at clear
  next idle =>
    exact fieldConflicts_of_unchanged idle
  · cases m with
    | documentTouched => cases clear
    | fieldTouched => exact fieldConflicts_mono clear
    | fieldDivergent => exact clear
    | documentDivergent =>
      exact fieldConflicts_of_documentsEqual distinctLeft distinctRight (by simpa using clear)

end MergeMode

/-! Merges of fields that do not diverge. -/

def SameOutcome (a b : Option Value) : Prop :=
  match a, b with
  | none, none => True
  | some v, some w => SameContent v w = true
  | _, _ => False

theorem SameOutcome.refl (a : Option Value) : SameOutcome a a := by
  cases a with
  | none => trivial
  | some v => exact SameContent_self v

theorem sameOutcome_of_sameField {a b : Option Value} (same : sameField a b = true) : SameOutcome a b := by
  cases a <;> cases b
  · trivial
  · cases same
  · cases same
  · exact SameContent_of_DeepEqual same

theorem collectFields_same {f g : Bytes → Option (Option Value)} {keys : List Bytes}
    (each : ∀ key ∈ keys, ∃ a b, f key = some a ∧ g key = some b ∧ SameOutcome a b) :
    ∃ d e, collectFields f keys = some d ∧ collectFields g keys = some e ∧
      SameContent (.document d) (.document e) = true := by
  induction keys with
  | nil => exact ⟨[], [], rfl, rfl, SameContent_self _⟩
  | cons key keys ih =>
    obtain ⟨d, e, left, right, same⟩ := ih fun key member => each key (.tail _ member)
    obtain ⟨a, b, first, second, outcome⟩ := each key (.head _)
    rw [collectFields, collectFields, left, right, first, second]
    cases a <;> cases b
    · exact ⟨d, e, rfl, rfl, same⟩
    · exact outcome.elim
    · exact outcome.elim
    · refine ⟨_, _, rfl, rfl, ?_⟩
      have value : SameContent _ _ = true := outcome
      simp only [SameContent, valueEq, fieldsEq] at same value ⊢
      simp [same, value]

theorem mergeValue_clear {base left right : Option Value}
    (clear : MergeMode.valueConflicts .fieldDivergent base left right = false)
    (nested : ∀ b l r, base = some (.document b) → left = some (.document l) → right = some (.document r) →
      ∃ d e, mergeBSONDoc b l r = some d ∧ mergeBSONDoc b r l = some e ∧
        SameContent (.document d) (.document e) = true) :
    ∃ a b, mergeValue base left right = some a ∧ mergeValue base right left = some b ∧ SameOutcome a b := by
  cases keptLeft : sameField base left with
  | true =>
    refine ⟨_, _, mergeValue_of_left keptLeft right, mergeValue_of_right keptLeft right, ?_⟩
    split
    next keptRight =>
      exact sameOutcome_of_sameField (sameField_trans (sameField_symm keptLeft) keptRight)
    · exact SameOutcome.refl _
  | false =>
    cases keptRight : sameField base right with
    | true =>
      refine ⟨_, _, mergeValue_of_right keptRight left, mergeValue_of_left keptRight left, ?_⟩
      rw [keptLeft]
      exact SameOutcome.refl _
    | false =>
      cases same : sameField left right with
      | true =>
        exact ⟨_, _, mergeValue_of_same keptLeft keptRight same,
          mergeValue_of_same keptRight keptLeft (sameField_symm same), sameOutcome_of_sameField same⟩
      | false =>
        -- both sides changed it, differently: only documents get here
        unfold MergeMode.valueConflicts at clear
        split at clear
        · obtain ⟨d, e, forth, back, content⟩ := nested _ _ _ rfl rfl rfl
          rw [mergeValue_of_nested keptLeft keptRight same,
            mergeValue_of_nested keptRight keptLeft ((sameField_comm _ _).trans same), forth, back]
          exact ⟨_, _, rfl, rfl, content⟩
        · simp [MergeMode.fieldClash, keptLeft, keptRight, same] at clear

theorem mergeBSONDoc_clear {base left right : Document}
    (clear : ∀ key, MergeMode.valueConflicts .fieldDivergent (base.get key) (left.get key) (right.get key) = false) :
    ∃ d e, mergeBSONDoc base left right = some d ∧ mergeBSONDoc base right left = some e ∧
      SameContent (.document d) (.document e) = true := by
  induction base using document_induction generalizing left right with
  | step base ih =>
    rw [mergeBSONDoc_eq, mergeBSONDoc_eq, mergeDocumentKeys_swap base right left]
    refine collectFields_same fun key _ => mergeValue_clear (clear key) ?_
    intro b l r inBase inLeft inRight
    have here := clear key
    rw [inBase, inLeft, inRight] at here
    have inner := MergeMode.fieldConflicts_eq_false.mp here
    exact ih key b inBase fun key => inner key (by simp)

/-- The versions of one document: they carry one id, under distinct keys. -/
structure Version (id : Value) (d : Document) : Prop where
  carries : d.get idKey = some id
  distinct : distinctKeys (.document d) = true

theorem Version.keys {id : Value} {d : Document} (version : Version id d) : (Keys d).Nodup := by
  have distinct := version.distinct
  rw [distinctKeys, Bool.and_eq_true, decide_eq_true_eq] at distinct
  exact distinct.1

theorem Version.id_distinct {id : Value} {d : Document} (version : Version id d) : distinctKeys id = true := by
  have distinct := version.distinct
  rw [distinctKeys, Bool.and_eq_true, distinctFields_iff] at distinct
  exact distinct.2 _ (mem_of_get version.carries)

theorem mergeBSONDoc_odd_id {id : Value} {base : Option Document} {left right : Document}
    (ofBase : ∀ d, base = some d → Version id d) (ofLeft : Version id left) (ofRight : Version id right)
    (odd : DeepEqual id id = false) : mergeBSONDoc (base.getD []) left right = none := by
  rw [mergeBSONDoc_eq_none]
  refine ⟨idKey, ?_⟩
  rw [ofLeft.carries, ofRight.carries]
  cases base with
  | none => simp [mergeValue, mergeField, odd]
  | some base =>
    rw [Option.getD_some, (ofBase base rfl).carries]
    refine mergeValue_odd odd fun d document => ?_
    subst document
    exact mergeBSONDoc_self ofLeft.id_distinct odd

def MergesAlike (base left right : Document) : Prop :=
  ∃ d e, mergeBSONDoc base left right = some d ∧ mergeBSONDoc base right left = some e ∧
    SameContent (.document d) (.document e) = true

theorem mergesAlike_iff {id : Value} {m : MergeMode} {base : Option Document} {left right : Document}
    (ofBase : ∀ d, base = some d → Version id d) (ofLeft : Version id left) (ofRight : Version id right)
    (clear : m.conflicts base (some left) (some right) = false) :
    MergesAlike (base.getD []) left right ↔ DeepEqual id id = true := by
  constructor
  · rintro ⟨d, e, forth, -, -⟩
    by_contra odd
    rw [mergeBSONDoc_odd_id ofBase ofLeft ofRight (Bool.eq_false_iff.mpr odd)] at forth
    cases forth
  · intro regular
    refine mergeBSONDoc_clear fun key => ?_
    by_cases identity : key = idKey
    · rw [identity, ofLeft.carries, ofRight.carries]
      exact MergeMode.valueConflicts_of_same regular
    · have inner := MergeMode.fieldConflicts_of_clear ofLeft.keys ofRight.keys clear
      exact MergeMode.fieldConflicts_eq_false.mp inner key fun root => identity root.2

namespace MergeMode

theorem conflicts_swap {base left right : Option Document} (m : MergeMode)
    (distinctLeft : ∀ d, left = some d → (Keys d).Nodup) (distinctRight : ∀ d, right = some d → (Keys d).Nodup) :
    m.conflicts base left right = m.conflicts base right left := by
  cases left with
  | none => cases right <;> rfl
  | some left =>
    cases right with
    | none => rfl
    | some right =>
      have equal : documentsEqual left right = documentsEqual right left := by
        have ofLeft := distinctLeft left rfl
        have ofRight := distinctRight right rfl
        rw [Bool.eq_iff_iff, documentsEqual_iff ofLeft ofRight, documentsEqual_iff ofRight ofLeft]
        exact forall_congr' fun key => ⟨sameField_symm, sameField_symm⟩
      simp only [conflicts, Bool.or_comm (changedFields base (some left)).isEmpty,
        fieldConflicts_swap _ (base.getD []) left right, equal]

theorem conflicts_documentTouched {m : MergeMode} {base left right : Option Document}
    (conflict : m.conflicts base left right = true) : conflicts .documentTouched base left right = true := by
  cases left with
  | none => cases right <;> rfl
  | some left =>
    cases right with
    | none => rfl
    | some right =>
      simp only [conflicts] at conflict ⊢
      split at conflict
      · cases conflict
      next busy =>
        rw [if_neg busy]

theorem conflicts_of_fieldDivergent {base left right : Option Document}
    (distinctLeft : ∀ d, left = some d → (Keys d).Nodup) (distinctRight : ∀ d, right = some d → (Keys d).Nodup)
    (conflict : conflicts .fieldDivergent base left right = true) (m : MergeMode) :
    m.conflicts base left right = true := by
  cases left with
  | none =>
    cases right with
    | none => cases conflict
    | some right => rfl
  | some left =>
    cases right with
    | none => rfl
    | some right =>
      by_contra clear
      have inner := fieldConflicts_of_clear (distinctLeft left rfl) (distinctRight right rfl)
        (Bool.eq_false_iff.mpr clear)
      simp only [conflicts] at conflict
      split at conflict
      · cases conflict
      · rw [inner] at conflict
        cases conflict

end MergeMode

/-- The modes form a lattice of strictness, decide alike for both orders of the sides, and let
pass only what merges alike in both orders, unless the shared id is unequal to itself. -/
theorem merge_modes_lattice {id : Value} {base left right : Option Document}
    (ofBase : ∀ d, base = some d → Version id d) (ofLeft : ∀ d, left = some d → Version id d)
    (ofRight : ∀ d, right = some d → Version id d) :
    (MergeMode.conflicts .fieldTouched base left right = true →
      MergeMode.conflicts .documentTouched base left right = true) ∧
    (MergeMode.conflicts .documentDivergent base left right = true →
      MergeMode.conflicts .documentTouched base left right = true) ∧
    (MergeMode.conflicts .fieldDivergent base left right = true →
      MergeMode.conflicts .fieldTouched base left right = true) ∧
    (MergeMode.conflicts .fieldDivergent base left right = true →
      MergeMode.conflicts .documentDivergent base left right = true) ∧
    (∀ m : MergeMode, m.conflicts base left right = m.conflicts base right left) ∧
    ∀ (m : MergeMode) (l r : Document), left = some l → right = some r →
      m.conflicts base left right = false → (MergesAlike (base.getD []) l r ↔ DeepEqual id id = true) := by
  have keysLeft (d) (there : left = some d) : (Keys d).Nodup := (ofLeft d there).keys
  have keysRight (d) (there : right = some d) : (Keys d).Nodup := (ofRight d there).keys
  refine ⟨MergeMode.conflicts_documentTouched, MergeMode.conflicts_documentTouched, ?_, ?_, ?_, ?_⟩
  · exact fun conflict => MergeMode.conflicts_of_fieldDivergent keysLeft keysRight conflict _
  · exact fun conflict => MergeMode.conflicts_of_fieldDivergent keysLeft keysRight conflict _
  · exact fun m => MergeMode.conflicts_swap m keysLeft keysRight
  · rintro m l r rfl rfl clear
    exact mergesAlike_iff ofBase (ofLeft l rfl) (ofRight r rfl) clear

def versionA (id a : Value) : Document := [(idKey, id), (ascii ['a'], a)]

/-- One side sets `a` to `2`, the other leaves it. -/
theorem merge_modes_lattice_plain :
    MergeMode.conflicts .fieldTouched (some (versionA (.int32 1) (.int32 1)))
        (some (versionA (.int32 1) (.int32 2))) (some (versionA (.int32 1) (.int32 1))) = false ∧
      MergesAlike (versionA (.int32 1) (.int32 1)) (versionA (.int32 1) (.int32 2))
        (versionA (.int32 1) (.int32 1)) := by
  have version (a : Int32) : Version (.int32 1) (versionA (.int32 1) (.int32 a)) := ⟨rfl, rfl⟩
  have clear : MergeMode.conflicts .fieldTouched (some (versionA (.int32 1) (.int32 1)))
      (some (versionA (.int32 1) (.int32 2))) (some (versionA (.int32 1) (.int32 1))) = false := by
    decide +kernel
  have laws := @merge_modes_lattice (.int32 1) (some (versionA (.int32 1) (.int32 1)))
    (some (versionA (.int32 1) (.int32 2))) (some (versionA (.int32 1) (.int32 1)))
    (fun d there => by cases there; exact version 1) (fun d there => by cases there; exact version 2)
    (fun d there => by cases there; exact version 1)
  exact ⟨clear, (laws.2.2.2.2.2 .fieldTouched _ _ rfl rfl clear).mpr rfl⟩

def nan : Value := .double ⟨0x7FF8000000000000⟩

/-- Three equal versions with the id NaN: no mode objects, and the merge conflicts. -/
theorem merge_modes_refuse_nan_id :
    MergeMode.conflicts .documentTouched (some (versionA nan .null)) (some (versionA nan .null))
        (some (versionA nan .null)) = false ∧
      ¬ MergesAlike (versionA nan .null) (versionA nan .null) (versionA nan .null) := by
  refine ⟨by decide +kernel, ?_⟩
  have conflict : mergeBSONDoc (versionA nan .null) (versionA nan .null) (versionA nan .null) = none :=
    @mergeBSONDoc_odd_id nan (some (versionA nan .null)) _ _
      (fun d there => by cases there; exact ⟨rfl, rfl⟩) ⟨rfl, rfl⟩ ⟨rfl, rfl⟩ (by decide +kernel)
  rintro ⟨d, e, merged, -, -⟩
  rw [conflict] at merged
  cases merged

end DumboDB.Dolt
