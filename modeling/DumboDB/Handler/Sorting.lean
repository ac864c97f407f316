import DumboDB.Dolt.ContentEquality
import DumboDB.Foundation.StableSort
import DumboDB.Handler.Conditions
import DumboDB.Handler.Update

/-!
Sorting by the BSON order: the specification of a sort, its keys, and `SortDocuments`.
-/

namespace DumboDB.Handler
open Foundation ByteOrder Fallible DumboDB.Types StableSort Std

inductive SortError where
  | tooManyKeys | invalidName | illegalOrder
  | path (error : PathError)
deriving DecidableEq, Repr

/-- One key of a specification; the text score, the same for every document, has no path. -/
structure SortField where
  path : Option (List Bytes)
  order : SortType

def isMetaTextScore : Value → Bool
  | .document [(key, .string s)] => key = field "$meta" && s = field "textScore"
  | _ => false

def GetSortType (value : Value) : Except SortError SortType :=
  if getWholeNumber value = some 1 then .ok .ascending
  else if getWholeNumber value = some (-1) then .ok .descending
  else .error .illegalOrder

def sortField (key : Bytes) (value : Value) : Except SortError SortField :=
  if key ≠ field "$natural" ∧ (splitDots key).any (fun name => name.head? = some 36) then .error .invalidName
  else if isMetaTextScore value then .ok ⟨none, .ascending⟩
  else do
    let order ← GetSortType value
    let path ← (NewPathFromString key).mapError .path
    return ⟨some path, order⟩

def sortSpec (sortDoc : Document) : Except SortError (List SortField) :=
  if 32 < sortDoc.length then .error .tooManyKeys else sortDoc.mapM fun entry => sortField entry.1 entry.2

def SortKeyValue (d : Document) (path : List Bytes) : Value :=
  match path with
  | [key] => (d.get key).getD .null
  | _ =>
    match FindValues d path, HasMissingBranch d path with
    | [], _ => .null
    | [v], false => v
    | vals, missing => .array (vals.flatMap elementsOrSelf ++ if missing then [.null] else [])

/-- `CompareOrderForSort` with a fast path for two integers, two doubles or two strings. -/
def compareSortKeys (a b : Value) (order : SortType) : Ordering :=
  match asInt64 a, asInt64 b with
  | some x, some y => order.apply (compare x y)
  | _, _ =>
    match a, b with
    | .double x, .double y =>
      if x.isNaN || y.isNaN then CompareOrderForSort a b order else order.apply (compareFloats x y)
    | .string x, .string y => order.apply (compare x y)
    | _, _ => CompareOrderForSort a b order

def compareRows : List SortField → Document → Document → Ordering
  | [], _, _ => .eq
  | ⟨none, _⟩ :: fields, d, e => compareRows fields d e
  | ⟨some path, order⟩ :: fields, d, e =>
    (compareSortKeys (SortKeyValue d path) (SortKeyValue e path) order).then (compareRows fields d e)

/-- `slices.SortFunc`, which sorts by any total preorder. -/
class SliceSort where
  SortFunc {α : Type} : (α → α → Ordering) → List α → List α
  sorts {α : Type} (cmp : α → α → Ordering) [Std.TransCmp cmp] (l : List α) :
    (SortFunc cmp l).Perm l ∧ (SortFunc cmp l).Pairwise (cmp · · ≠ .gt)

/-- An insertion sort is one. -/
abbrev insertionSlices : SliceSort where
  SortFunc cmp l := l.insertionSort fun a b => cmp a b ≠ .gt
  sorts {α} cmp _ l := by
    have : Std.Total (α := α) (cmp · · ≠ .gt) :=
      ⟨fun a b => or_iff_not_imp_left.mpr fun more => by
        simp [OrientedCmp.gt_iff_lt.mp (not_not.mp more)]⟩
    have : IsTrans α (cmp · · ≠ .gt) := ⟨fun a b c => by
      simpa only [Ordering.isLE_iff_ne_gt] using @TransCmp.isLE_trans _ cmp _ a b c⟩
    exact ⟨l.perm_insertionSort _, l.pairwise_insertionSort _⟩

/-- Positions are sorted by their rows, and by themselves where these are equal. -/
def SortDocuments [SliceSort] (docs : List Document) (sortDoc : Document) : Except SortError (List Document) :=
  if sortDoc.isEmpty then .ok docs
  else do
    let fields ← sortSpec sortDoc
    return ((SliceSort.SortFunc (placed (compareRows fields)) docs.zipIdx).map Prod.fst)

/-- Reflexive, inverted when its arguments are swapped, and transitive. -/
structure TotalPreorder (cmp : Value → Value → Ordering) : Prop where
  refl : ∀ v, cmp v v = .eq
  swap : ∀ a b, cmp b a = (cmp a b).swap
  trans : ∀ a b c, (cmp a b).isLE → (cmp b c).isLE → (cmp a c).isLE

theorem TotalPreorder.of_transCmp (cmp : Value → Value → Ordering) [TransCmp cmp] : TotalPreorder cmp where
  refl _ := ReflCmp.compare_self
  swap _ _ := OrientedCmp.eq_swap
  trans _ _ _ := TransCmp.isLE_trans

def isEmptyArray : Value → Bool
  | .array [] => true
  | _ => false

/-- In a sort, empty arrays come first and everything else is compared by the value that stands for it. -/
theorem CompareOrderForSort_eq (a b : Value) (order : SortType) : CompareOrderForSort a b order =
    order.apply (compareLex (fun a b => compare (isEmptyArray b) (isEmptyArray a))
      (fun a b => CompareOrder (sortElement a order) (sortElement b order)) a b) := by
  cases a with
  | array elems =>
    cases elems with
    | nil =>
      cases b with
      | array others =>
        cases others with
        | nil =>
          have same : CompareOrder (.array []) (.array []) = .eq := ReflCmp.compare_self
          cases order <;> simp [CompareOrderForSort, compareLex, sortElement, SortType.apply,
            getComparisonElementFromArray, same]
        | cons => rfl
      | _ => rfl
    | cons =>
      cases b with
      | array others => cases others <;> rfl
      | _ => rfl
  | _ =>
    cases b with
    | array others => cases others <;> rfl
    | _ => rfl

instance (cmp : Value → Value → Ordering) [Std.TransCmp cmp] (order : SortType) :
    Std.TransCmp fun a b => order.apply (cmp a b) := by
  cases order with
  | ascending => exact inferInstanceAs (Std.TransCmp cmp)
  | descending =>
    have swapped : (fun a b => SortType.descending.apply (cmp a b)) = fun a b => cmp b a := by
      funext a b
      exact Std.OrientedCmp.eq_swap.symm
    rw [swapped]
    infer_instance

instance (order : SortType) : Std.TransCmp (CompareOrderForSort · · order) := by
  simp only [CompareOrderForSort_eq]
  infer_instance

theorem CompareOrderForSort_scalar {a b : Value} (scalar : isScalar a = true)
    (same : detectDataType a = detectDataType b) (order : SortType) :
    CompareOrderForSort a b order = order.apply (compareScalars a b) := by
  have plain {v : Value} (scalar : isScalar v = true) : isEmptyArray v = false ∧ sortElement v order = v := by
    cases v <;> first | exact ⟨rfl, rfl⟩ | cases scalar
  obtain ⟨left, left'⟩ := plain scalar
  obtain ⟨right, right'⟩ := plain (isScalar_congr same scalar)
  rw [CompareOrderForSort_eq, compareLex, left, right, left', right', CompareOrder_of_dataType same,
    Compare_of_isScalar scalar]
  rfl

theorem compareScalars_fast {a b : Value} {result : Ordering} (left : isScalar a = true) (right : isScalar b = true)
    (fast : compareNumericFast a b = some result) : compareScalars a b = result := by
  unfold compareScalars compareNumeric
  rw [left, right, fast]
  rfl

theorem isScalar_asInt64 {v : Value} {x : Int64} (whole : asInt64 v = some x) :
    isScalar v = true ∧ detectDataType v = .numbers := by
  cases v <;> first | exact ⟨rfl, rfl⟩ | cases whole

theorem compareSortKeys_eq (a b : Value) (order : SortType) :
    compareSortKeys a b order = CompareOrderForSort a b order := by
  unfold compareSortKeys
  split
  next x y left right =>
    obtain ⟨scalar, type⟩ := isScalar_asInt64 left
    obtain ⟨scalar', type'⟩ := isScalar_asInt64 right
    have fast : compareNumericFast a b = some (compare x y) := by rw [compareNumericFast, left, right]
    rw [CompareOrderForSort_scalar scalar (type.trans type'.symm), compareScalars_fast scalar scalar' fast]
  · split
    next x y _ =>
      split
      · rfl
      next _ =>
        have same : detectDataType (.double x) = detectDataType (.double y) := by simp_all [detectDataType]
        rw [CompareOrderForSort_scalar rfl same, compareScalars_fast rfl rfl rfl]
    next x y _ =>
      have same : detectDataType (.string x) = detectDataType (.string y) := rfl
      rw [CompareOrderForSort_scalar rfl same]
      unfold compareScalars
      rw [compareNumeric_none (.inl rfl)]
      rfl
    · rfl

instance (fields : List SortField) : Std.TransCmp (compareRows fields) := by
  induction fields with
  | nil => exact { eq_swap := rfl, isLE_trans := fun _ _ => rfl }
  | cons f fields ih =>
    obtain ⟨path, order⟩ := f
    cases path with
    | none => exact ih
    | some path =>
      have first := transCmp_on (CompareOrderForSort · · order) (SortKeyValue · path)
      simp only [compareRows, compareSortKeys_eq]
      exact inferInstanceAs (Std.TransCmp (compareLex _ _))

/-! What a specification means. -/

/-- The values at the end of a path: an array is entered at the index, or else in its documents. -/
def leadsTo : List Bytes → Value → List Value
  | [], v => [v]
  | key :: path, v => (findStep key v).flatMap (leadsTo path)

/-- What a document is sorted by under a key: all elements that the key leads to, with a null where it
leads nowhere. -/
def sortedBy (key : Bytes) (d : Document) : Value :=
  match leadsTo (splitDots key) (.document d) with
  | [] => .null
  | values => .array (values.flatMap elementsOrSelf ++
      if hasMissingBranch (splitDots key) (.document d) then [.null] else [])

def entryOrder (entry : Bytes × Value) (d e : Document) : Ordering :=
  if isMetaTextScore entry.2 then .eq
  else CompareOrderForSort (sortedBy entry.1 d) (sortedBy entry.1 e)
    (if getWholeNumber entry.2 = some 1 then .ascending else .descending)

/-- The entries of a specification one after the other. -/
def specOrder (sortDoc : Document) (d e : Document) : Ordering :=
  sortDoc.foldr (fun entry later => (entryOrder entry d e).then later) .eq

def SortableEntry (entry : Bytes × Value) : Prop :=
  (entry.1 = field "$natural" ∨ ∀ name ∈ splitDots entry.1, name.head? ≠ some 36) ∧
    (isMetaTextScore entry.2 = true ∨ (getWholeNumber entry.2 = some 1 ∨ getWholeNumber entry.2 = some (-1)) ∧
      ∀ name ∈ splitDots entry.1, name ≠ [] ∧ hasOuterSpace name = false)

/-- At most 32 entries, each with a field path and a direction, or the text score. -/
def Sortable (sortDoc : Document) : Prop := sortDoc.length ≤ 32 ∧ ∀ entry ∈ sortDoc, SortableEntry entry

theorem foldl_findStep (path : List Bytes) (values : List Value) :
    path.foldl (fun values e => values.flatMap (findStep e)) values = values.flatMap (leadsTo path) := by
  induction path generalizing values with
  | nil => simp [leadsTo]
  | cons key path ih => rw [List.foldl_cons, ih, List.flatMap_assoc]; rfl

/-- Values that stand for the same in a sort. -/
def SortsAlike (a b : Value) : Prop :=
  isEmptyArray a = isEmptyArray b ∧ ∀ order, sortElement a order = sortElement b order

theorem sortsAlike_elements (v : Value) : SortsAlike v (.array ([v].flatMap elementsOrSelf ++ [])) := by
  rw [List.append_nil, List.flatMap_singleton]
  cases v with
  | array elems => exact ⟨rfl, fun _ => rfl⟩
  | _ => exact ⟨rfl, fun order => by cases order <;> rfl⟩

theorem SortKeyValue_alike (d : Document) (key : Bytes) :
    SortsAlike (SortKeyValue d (splitDots key)) (sortedBy key d) := by
  unfold SortKeyValue sortedBy
  split
  next name single =>
    rw [single]
    have missing : hasMissingBranch [name] (.document d) = (d.get name).isNone := by
      simp only [hasMissingBranch]
      cases d.get name <;> rfl
    simp only [leadsTo, findStep, missing]
    cases d.get name with
    | none => exact ⟨rfl, fun _ => rfl⟩
    | some v => exact sortsAlike_elements v
  · rw [FindValues, foldl_findStep, List.flatMap_singleton, HasMissingBranch]
    generalize leadsTo (splitDots key) (.document d) = values
    generalize hasMissingBranch (splitDots key) (.document d) = missing
    match values, missing with
    | [], _ => exact ⟨rfl, fun _ => rfl⟩
    | [v], false => exact sortsAlike_elements v
    | [v], true => exact ⟨rfl, fun _ => rfl⟩
    | _ :: _ :: _, _ => exact ⟨rfl, fun _ => rfl⟩

theorem CompareOrderForSort_sortedBy (key : Bytes) (d e : Document) (order : SortType) :
    CompareOrderForSort (SortKeyValue d (splitDots key)) (SortKeyValue e (splitDots key)) order =
      CompareOrderForSort (sortedBy key d) (sortedBy key e) order := by
  obtain ⟨emptyLeft, left⟩ := SortKeyValue_alike d key
  obtain ⟨emptyRight, right⟩ := SortKeyValue_alike e key
  rw [CompareOrderForSort_eq, CompareOrderForSort_eq, compareLex, compareLex, emptyLeft, emptyRight, left, right]

theorem newPath_iff {elements path : List Bytes} : newPath elements = .ok path ↔
    path = elements ∧ ∀ name ∈ elements, name ≠ [] ∧ hasOuterSpace name = false := by
  induction elements generalizing path with
  | nil => exact ⟨fun valid => ⟨(Except.ok.inj valid).symm, by simp⟩, fun same => congrArg Except.ok same.1.symm⟩
  | cons e elements ih =>
    unfold newPath
    split
    next empty => simp [empty]
    next named =>
      split
      next spaced => simp [spaced]
      next plain =>
        rw [map_eq_ok]
        simp only [ih, List.forall_mem_cons]
        constructor
        · rintro ⟨_, ⟨rfl, each⟩, rfl⟩
          exact ⟨rfl, ⟨named, by simpa using plain⟩, each⟩
        · rintro ⟨rfl, -, each⟩
          exact ⟨elements, ⟨rfl, each⟩, rfl⟩

theorem GetSortType_iff {value : Value} {order : SortType} : GetSortType value = .ok order ↔
    (getWholeNumber value = some 1 ∨ getWholeNumber value = some (-1)) ∧
      order = if getWholeNumber value = some 1 then .ascending else .descending := by
  unfold GetSortType
  split
  next up => simp [up, eq_comm]
  next other =>
    split
    next down => simp [down, eq_comm]
    next neither => simp [other, neither]

theorem mapError_eq_ok {α ε δ : Type} {x : Except ε α} {f : ε → δ} {a : α} : x.mapError f = .ok a ↔ x = .ok a := by
  cases x <;> simp [Except.mapError]

theorem sortField_iff {key : Bytes} {value : Value} {f : SortField} : sortField key value = .ok f ↔
    SortableEntry (key, value) ∧ f = if isMetaTextScore value then ⟨none, .ascending⟩
      else ⟨some (splitDots key), if getWholeNumber value = some 1 then .ascending else .descending⟩ := by
  have names : (¬(key ≠ field "$natural" ∧ (splitDots key).any (fun name => name.head? = some 36) = true)) ↔
      (key = field "$natural" ∨ ∀ name ∈ splitDots key, name.head? ≠ some 36) := by
    simp only [ne_eq, List.any_eq_true, decide_eq_true_eq, not_and_or, not_not, not_exists]
    exact or_congr_right (forall_congr' fun _ => imp_iff_not_or.symm)
  unfold sortField SortableEntry
  split
  next refused => exact iff_of_false (by simp) fun both => names.mpr both.1.1 refused
  next named =>
    rw [and_iff_right (names.mp named)]
    split
    next score =>
      rw [Except.ok.injEq]
      exact ⟨fun same => ⟨.inl score, same.symm⟩, fun both => both.2.symm⟩
    next plain =>
      rw [or_iff_right plain]
      constructor
      · intro read
        obtain ⟨order, direction, rest⟩ := bind_eq_ok.mp read
        obtain ⟨path, valid, done⟩ := bind_eq_ok.mp rest
        cases pure_eq_ok.mp done
        obtain ⟨whole, rfl⟩ := GetSortType_iff.mp direction
        obtain ⟨rfl, each⟩ := newPath_iff.mp (mapError_eq_ok.mp valid)
        exact ⟨⟨whole, each⟩, rfl⟩
      · rintro ⟨⟨whole, each⟩, rfl⟩
        have valid : NewPathFromString key = .ok (splitDots key) := newPath_iff.mpr ⟨rfl, each⟩
        rw [GetSortType_iff.mpr ⟨whole, rfl⟩, valid]
        rfl

/-- The field that an accepted entry becomes orders documents as the entry says. -/
theorem compareRows_sortField {key : Bytes} {value : Value} {f : SortField} (read : sortField key value = .ok f)
    (fields : List SortField) (d e : Document) :
    compareRows (f :: fields) d e = (entryOrder (key, value) d e).then (compareRows fields d e) := by
  obtain ⟨-, rfl⟩ := sortField_iff.mp read
  unfold entryOrder
  split
  · rfl
  · rw [compareRows, compareSortKeys_eq, CompareOrderForSort_sortedBy]

theorem compareRows_spec {sortDoc : Document} {fields : List SortField}
    (read : sortDoc.mapM (fun entry => sortField entry.1 entry.2) = .ok fields) :
    compareRows fields = specOrder sortDoc := by
  funext d e
  induction sortDoc generalizing fields with
  | nil =>
    cases read
    rfl
  | cons entry sortDoc ih =>
    rw [List.mapM_cons] at read
    obtain ⟨f, here, rest⟩ := bind_eq_ok.mp read
    obtain ⟨others, there, done⟩ := bind_eq_ok.mp rest
    cases pure_eq_ok.mp done
    rw [compareRows_sortField here, ih there]
    rfl

theorem sortable_iff {sortDoc : Document} : Sortable sortDoc ↔ ∃ fields, sortSpec sortDoc = .ok fields := by
  have each := @exists_mapM_ok_iff _ _ _ sortDoc (fun entry => sortField entry.1 entry.2) fun _ => True
  simp only [sortField_iff, and_true, implies_true] at each
  unfold Sortable sortSpec
  split
  next long => exact iff_of_false (fun both => absurd both.1 (Nat.not_le.mpr long)) (by simp)
  next few =>
    rw [each, and_iff_right (Nat.not_lt.mp few)]
    exact forall₂_congr fun _ _ => ⟨fun ok => ⟨_, ok, rfl⟩, fun ⟨_, ok, _⟩ => ok⟩

/-- The order of BSON values is a total preorder, in a sort too, and `SortDocuments` gives the one
stable sort by a specification, or refuses it. -/
theorem bson_order_sorts [SliceSort] : TotalPreorder CompareOrder ∧
    (∀ a b, CompareForAggregation a b = .eq ↔ CompareOrder a b = .eq) ∧
    (∀ order, TotalPreorder (CompareOrderForSort · · order)) ∧
    (∀ a b order, compareSortKeys a b order = CompareOrderForSort a b order) ∧
    ∀ docs sortDoc, (Sortable sortDoc → ∃ result, SortDocuments docs sortDoc = .ok result ∧
        ∀ sorted, IsStableSort (specOrder sortDoc) docs sorted ↔ sorted = result) ∧
      (¬Sortable sortDoc → ∃ error, SortDocuments docs sortDoc = .error error) := by
  refine ⟨.of_transCmp _, fun _ _ => CompareForAggregation_eq_iff, fun order => .of_transCmp _, compareSortKeys_eq,
    fun docs sortDoc => ⟨fun sortable => ?_, fun refused => ?_⟩⟩
  · obtain ⟨fields, read⟩ := sortable_iff.mp sortable
    have order : compareRows fields = specOrder sortDoc := by
      unfold sortSpec at read
      split at read
      · cases read
      · exact compareRows_spec read
    rw [← order]
    suffices done : ∃ result, SortDocuments docs sortDoc = .ok result ∧
      IsStableSort (compareRows fields) docs result by
      obtain ⟨result, sorted, stable⟩ := done
      exact ⟨result, sorted, fun _ => ⟨fun other => other.unique stable, fun same => same ▸ stable⟩⟩
    unfold SortDocuments
    split
    next empty =>
      obtain rfl := List.isEmpty_iff.mp empty
      cases read
      have positions : (docs.zipIdx.map Prod.snd).Pairwise (· < ·) := by
        rw [List.zipIdx_map_snd]
        exact List.pairwise_lt_range'
      refine ⟨docs, rfl, docs.zipIdx, .refl _, ?_, by simp⟩
      exact (List.pairwise_map.mp positions).imp fun less => Nat.compare_eq_lt.mpr less
    · rw [read]
      obtain ⟨perm, sorted⟩ := SliceSort.sorts (placed (compareRows fields)) docs.zipIdx
      exact ⟨_, rfl, isStableSort_map_fst perm sorted⟩
  · have given : sortDoc.isEmpty = false := by
      cases sortDoc with
      | nil => exact absurd ⟨Nat.zero_le _, by simp⟩ refused
      | cons => rfl
    rw [SortDocuments, given]
    cases read : sortSpec sortDoc with
    | error error => exact ⟨error, rfl⟩
    | ok fields => exact absurd (sortable_iff.mpr ⟨fields, read⟩) refused

def mixed : List Document :=
  [[(field "a", .int32 1)], [(field "b", .null)], [(field "a", .array [.int32 0, .int32 5])], [(field "a", .null)]]

def byGreatest : List Document :=
  [[(field "a", .array [.int32 0, .int32 5])], [(field "a", .int32 1)], [(field "b", .null)], [(field "a", .null)]]

/-- By the greatest `a` first, an array for its greatest element; where `a` is missing or null the
documents keep their order. -/
theorem documents_sorted_descending : ∀ sorted,
    IsStableSort (specOrder [(field "a", .int32 (-1))]) mixed sorted ↔ sorted = byGreatest := by
  have sortable : Sortable [(field "a", .int32 (-1))] := by
    unfold Sortable SortableEntry
    decide +kernel
  obtain ⟨result, done, only⟩ := ((@bson_order_sorts insertionSlices).2.2.2.2 mixed _).1 sortable
  have run : (@SortDocuments insertionSlices mixed [(field "a", .int32 (-1))]).toOption = some byGreatest := by
    decide +kernel
  rw [done] at run
  cases run
  exact only

end DumboDB.Handler
