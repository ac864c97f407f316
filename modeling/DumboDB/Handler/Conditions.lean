import DumboDB.Handler.Filter
import DumboDB.Types.TotalOrder

/-!
What the conditions of a filter say about the values a field holds: the value itself or, for an
array, each of its elements.
-/

namespace DumboDB.Handler
open Foundation ByteOrder DumboDB.Types List

def isArray : Value → Bool
  | .array _ => true
  | _ => false

def isDocument : Value → Bool
  | .document _ => true
  | _ => false

variable {c v : Value} {op : Bytes} {key : Bytes}

theorem Compare_eq_dataType (single : isArray v = false) (equal : Compare v c = .eq) :
    detectDataType v = detectDataType c := by
  rw [← compareTypeOrder_eq_iff]
  have scalars (scalar : isScalar v) : compareTypeOrder v c = .eq := by
    rw [Compare_of_isScalar scalar] at equal
    by_cases other : isScalar c
    · rw [compareScalars_eq scalar other, Ordering.then_eq_eq] at equal
      exact equal.1
    · simpa [compareScalars, other] using equal
  cases v with
  | array _ => simp [isArray] at single
  | document _ =>
    cases c with
    | document other => exact compareTypeOrder_eq_iff.mpr rfl
    | _ => simpa [Compare] using equal
  | _ => exact scalars rfl

theorem Compare_eq_iff (single : isArray v = false) : Compare v c = .eq ↔ CompareOrder v c = .eq := by
  rw [CompareOrder_eq_iff]
  exact ⟨fun equal => ⟨Compare_eq_dataType single equal, equal⟩, And.right⟩

theorem CompareForAggregation_eq_iff : CompareForAggregation v c = .eq ↔ CompareOrder v c = .eq := by
  cases v with
  | array elems =>
    by_cases same : detectDataType (.array elems) = detectDataType c
    · obtain ⟨_, rfl⟩ := array_of_dataType same.symm
      rw [CompareOrder_of_dataType same, Compare]
      rfl
    · have apart : CompareForAggregation (.array elems) c = compareTypeOrder (.array elems) c := by
        cases c <;> first | rfl | exact absurd rfl same
      rw [apart, CompareOrder_eq_iff, compareTypeOrder_eq_iff]
      simp [same]
  | _ =>
    rw [← Compare_eq_iff rfl]
    cases c <;> simp [CompareForAggregation, Compare]

theorem compareArray_eq_iff (elems : List Value) (c : Value) (result : Ordering) (comparable : Bool)
    (pending : comparable = true → result ≠ .eq) :
    compareArray elems c result comparable = .eq ↔ ∃ w ∈ elems, CompareOrder w c = .eq := by
  induction elems generalizing result comparable with
  | nil => cases comparable <;> simp_all [compareArray]
  | cons w elems ih =>
    rw [compareArray]
    simp only [mem_cons, exists_eq_or_imp, CompareOrder]
    cases types : compareTypeOrder w c with
    | eq =>
      cases order : Compare w c with
      | eq => simp
      | lt => simpa [CompareOrder] using ih .lt true (by simp)
      | gt => simpa [CompareOrder] using ih .gt true (by simp)
    | lt => simpa [CompareOrder] using ih .lt comparable (by simp)
    | gt => simpa [CompareOrder] using ih .gt comparable (by simp)

theorem Compare_eq_iff_element (single : isArray c = false) :
    Compare v c = .eq ↔ ∃ w ∈ elementsOrSelf v, CompareOrder w c = .eq := by
  cases v with
  | array elems =>
    have loop : Compare (.array elems) c = compareArray elems c .eq false := by
      cases c <;> simp_all [Compare, isArray]
    rw [loop, compareArray_eq_iff _ _ _ _ (by simp)]
    rfl
  | _ => rw [Compare_eq_iff rfl]; simp [elementsOrSelf]

theorem equalsOrHasElement_iff (single : isArray c = false) :
    equalsOrHasElement v c = true ↔ ∃ w ∈ elementsOrSelf v, CompareOrder w c = .eq := by
  have plain : equalsOrHasElement v c = (Compare v c == .eq) := by
    cases v <;> cases c <;> simp_all [equalsOrHasElement, isArray]
  rw [plain, beq_iff_eq, Compare_eq_iff_element single]

inductive RangeOp where
  | gt | gte | lt | lte
deriving DecidableEq, Repr

def rangeOp (op : Bytes) : RangeOp :=
  if op = opGt then .gt else if op = opGte then .gte else if op = opLt then .lt else .lte

def RangeOp.accepts : RangeOp → Ordering → Bool
  | .gt, order => order == .gt
  | .gte, order => order != .lt
  | .lt, order => order == .lt
  | .lte, order => order != .gt

def RangeOp.holds {α : Type} [LT α] [LE α] : RangeOp → α → α → Prop
  | .gt, a, b => b < a
  | .gte, a, b => b ≤ a
  | .lt, a, b => a < b
  | .lte, a, b => a ≤ b

theorem RangeOp.accepts_compare {α : Type} [LinearOrder α] (op : RangeOp) (a b : α) :
    op.accepts (compare a b) = true ↔ op.holds a b := by
  cases op with
  | gt
  | lte => simp [accepts, holds, compare_gt_iff_gt]
  | gte
  | lt => simp [accepts, holds, compare_lt_iff_lt]

def RangeOp.isUpper : RangeOp → Bool
  | .gt => false
  | .gte => false
  | .lt => true
  | .lte => true

theorem RangeOp.isUpper_of_accepts_lt (op : RangeOp) (accepted : op.accepts .lt = true) : op.isUpper = true := by
  cases op <;> simp_all [accepts, isUpper]

def RangeOp.order : RangeOp → SortType
  | .gt => .descending
  | .gte => .descending
  | .lt => .ascending
  | .lte => .ascending

theorem rangeTest_eq (op : Bytes) (v c : Value) :
    rangeTest op v c = (rangeOp op).accepts (CompareOrderForOperator v c (rangeOp op).order) := by
  unfold rangeTest rangeOp
  repeat' split
  all_goals rfl

theorem RangeOp.accepts_mismatch (op : RangeOp) : op.accepts (mismatch op.order) = false := by
  cases op <;> rfl

theorem extreme_mem (first : Value) (rest : List Value) (order : SortType) :
    getComparisonElementFromArray (first :: rest) order ∈ first :: rest := by
  cases order with
  | ascending => exact least_mem CompareOrder first rest
  | descending =>
    rw [getComparisonElementFromArray, arrayMax_eq]
    exact least_mem _ first rest

theorem RangeOp.accepts_extreme (op : RangeOp) (first : Value) (rest : List Value) (c : Value) :
    op.accepts (CompareOrder (getComparisonElementFromArray (first :: rest) op.order) c) = true ↔
      ∃ w ∈ first :: rest, op.accepts (CompareOrder w c) = true := by
  have below (a b : Value) : CompareOrder a b = .lt ↔ CompareOrder b a = .gt :=
    Std.OrientedCmp.gt_iff_lt.symm
  have above (a b : Value) : CompareOrder a b = .gt ↔ CompareOrder b a = .lt := Std.OrientedCmp.gt_iff_lt
  cases op with
  | gt =>
    simp only [accepts, order, getComparisonElementFromArray, arrayMax_eq, beq_iff_eq, above]
    exact least_lt_iff (fun a b => CompareOrder b a) first rest c
  | gte =>
    simp only [accepts, order, getComparisonElementFromArray, arrayMax_eq, bne_iff_ne, ne_eq, below]
    exact least_le_iff (fun a b => CompareOrder b a) first rest c
  | lt =>
    simp only [accepts, order, getComparisonElementFromArray, arrayMin_eq, beq_iff_eq]
    exact least_lt_iff CompareOrder first rest c
  | lte =>
    simp only [accepts, order, getComparisonElementFromArray, arrayMin_eq, bne_iff_ne]
    exact least_le_iff CompareOrder first rest c

/-- The comparison of one value, refused across data types. -/
def compareTyped (v c : Value) (order : SortType) : Ordering :=
  if compareTypeOrder v c = .eq then Compare v c else mismatch order

theorem CompareOrderForOperator_single (alone : isArray v = false) (single : isArray c = false)
    (order : SortType) : CompareOrderForOperator v c order = compareTyped v c order := by
  unfold CompareOrderForOperator
  split
  · simp [isArray] at single
  · simp [isArray] at single
  · simp [isArray] at alone
  · simp [isArray] at single
  · rfl

theorem CompareOrderForOperator_array (elems : List Value) (single : isArray c = false)
    (order : SortType) : CompareOrderForOperator (.array elems) c order =
      compareTyped (getComparisonElementFromArray (FilterArrayByType elems c) order) c order := by
  unfold CompareOrderForOperator
  split
  · simp [isArray] at single
  · simp [isArray] at single
  next same _ _ =>
    obtain rfl := Value.array.inj same
    rfl
  · simp [isArray] at single
  next other _ _ =>
    exact absurd rfl (other elems)

theorem RangeOp.accepts_compareTyped (op : RangeOp) (w c : Value) : op.accepts (compareTyped w c op.order) = true ↔
      detectDataType w = detectDataType c ∧ op.accepts (Compare w c) = true := by
  rw [← compareTypeOrder_eq_iff, compareTyped]
  by_cases same : compareTypeOrder w c = .eq
  · simp [same]
  · simp [same, op.accepts_mismatch]

theorem rangeTest_iff (single : isArray c = false) : rangeTest op v c = true ↔ ∃ w ∈ elementsOrSelf v,
      detectDataType w = detectDataType c ∧ (rangeOp op).accepts (Compare w c) = true := by
  rw [rangeTest_eq]
  generalize rangeOp op = op
  cases alone : isArray v with
  | true =>
    obtain ⟨elems, rfl⟩ : ∃ elems, v = .array elems := by cases v <;> simp_all [isArray]
    rw [CompareOrderForOperator_array elems single, op.accepts_compareTyped]
    have typed (w : Value) : w ∈ FilterArrayByType elems c ↔ w ∈ elems ∧ detectDataType w = detectDataType c := by
      simp [FilterArrayByType, eq_comm]
    cases filtered : FilterArrayByType elems c with
    | nil =>
      rw [filtered] at typed
      have apart : detectDataType c ≠ .array := by
        intro array
        obtain ⟨_, rfl⟩ := array_of_dataType array
        simp [isArray] at single
      constructor
      · rintro ⟨type, -⟩
        exact absurd type.symm apart
      · rintro ⟨w, member, type, -⟩
        exact absurd ((typed w).mpr ⟨member, type⟩) not_mem_nil
    | cons first rest =>
      rw [filtered] at typed
      have here := (typed _).mp (extreme_mem first rest op.order)
      have extreme := op.accepts_extreme first rest c
      rw [CompareOrder_of_dataType here.2] at extreme
      constructor
      · rintro ⟨-, accepted⟩
        exact ⟨_, here.1, here.2, accepted⟩
      · rintro ⟨w, member, type, accepted⟩
        refine ⟨here.2, extreme.mpr ⟨w, (typed w).mpr ⟨member, type⟩, ?_⟩⟩
        rwa [CompareOrder_of_dataType type]
  | false =>
    rw [CompareOrderForOperator_single alone single, op.accepts_compareTyped]
    have self : elementsOrSelf v = [v] := by cases v <;> simp_all [elementsOrSelf, isArray]
    simp [self]

/-! Running a filter: every condition is met, each without an error. -/

theorem andThen_ok_true {ε : Type} {first second : Except ε Bool} :
    (do if ← first then second else pure false) = .ok true ↔ first = .ok true ∧ second = .ok true := by
  cases first with
  | error e => simp [bind, Except.bind]
  | ok result => cases result <;> simp [bind, Except.bind, pure, Except.pure]

theorem ne_of_isOperatorKey (field : isOperatorKey key = false) (operator : isOperatorKey op = true) : key ≠ op := by
  rintro rfl
  rw [field] at operator
  exact absurd operator (by decide)

/-- A key that is no operator and has no dot names a field of the document itself. -/
structure IsField (key : Bytes) : Prop where
  notOperator : isOperatorKey key = false
  noDot : hasDot key = false

def fieldReached (d : Document) (key : Bytes) : Resolved :=
  ⟨(d.get key).toList, (d.get key).isNone, key⟩

theorem resolve_field (field : IsField key) (d : Document) : resolve d key = .ok (fieldReached d key) := by
  unfold resolve fieldReached
  rw [field.noDot, if_neg (by decide)]
  cases d.get key <;> rfl

/-- A condition that is a value to be equal to: no document, array, null, undefined or regex. -/
def isBare : Value → Bool
  | .document _ => false
  | .array _ => false
  | .null => false
  | .undefined => false
  | .regex _ => false
  | _ => true

theorem isArray_of_isBare (bare : isBare c = true) : isArray c = false := by
  cases c <;> simp_all [isBare, isArray]

section
variable [QueryEnv]

theorem FilterDocument_iff {d : Document} {filter : List (Bytes × Value)} : FilterDocument d filter = .ok true ↔
      ∀ condition ∈ filter, filterDocumentPair d condition.1 condition.2 = .ok true := by
  induction filter with
  | nil => simp [FilterDocument, pure, Except.pure]
  | cons condition filter ih => rw [FilterDocument, andThen_ok_true, ih, forall_mem_cons]

theorem filterDocumentPair_field (field : IsField key) (d : Document) (c : Value) :
    filterDocumentPair d key c = filterField d key c (fieldReached d key) := by
  have other (op : Bytes) (operator : isOperatorKey op = true) : key ≠ op :=
    ne_of_isOperatorKey field.notOperator operator
  cases c <;>
    simp [filterDocumentPair, resolve_field field, field.notOperator, bind, Except.bind,
      other opAnd (by decide), other opOr (by decide), other opNor (by decide), other opComment (by decide)]

variable {c : Value} {held : Option Value} {whole : Document}

theorem filterDocumentPair_bare (field : IsField key) (bare : isBare c = true)
    (d : Document) : filterDocumentPair d key c = .ok true ↔
      ∃ v, d.get key = some v ∧ ∃ w ∈ elementsOrSelf v, CompareOrder w c = .eq := by
  rw [filterDocumentPair_field field]
  have plain : filterField d key c (fieldReached d key) =
      pure ((fieldReached d key).vals.any fun val => equalsOrHasElement val c) := by
    cases c <;> first | rfl | simp [isBare] at bare
  rw [plain]
  cases held : d.get key with
  | none => simp [fieldReached, held, pure, Except.pure]
  | some v =>
    simp [fieldReached, held, pure, Except.pure, equalsOrHasElement_iff (isArray_of_isBare bare)]

theorem filterDocumentPair_expr (field : IsField key) (d expr : Document) :
    filterDocumentPair d key (.document expr) = filterFieldExpr (d.get key) expr := by
  rw [filterDocumentPair_field field]
  have positional : positionalDocumentEquality d key (fieldReached d key).vals expr = none := by
    simp only [positionalDocumentEquality, field.noDot]
    cases (NewPathFromString key).toOption <;> rfl
  simp only [filterField, positional]
  exact if_pos rfl

theorem filterFieldLoop_iff {expr : Document}
    (operators : ∀ condition ∈ expr, isOperatorKey condition.1 = true ∧ condition.1 ≠ opOptions) :
    filterFieldLoop whole held expr = .ok true ↔
      ∀ condition ∈ expr, filterFieldOperator whole held condition.1 condition.2 = .ok true := by
  induction expr with
  | nil => simp [filterFieldLoop, pure, Except.pure]
  | cons condition expr ih =>
    rw [forall_mem_cons] at operators ⊢
    unfold filterFieldLoop
    rw [if_neg operators.1.2, if_pos operators.1.1, andThen_ok_true, ih operators.2]

theorem filterFieldOperator_range (range : isRangeOperator op = true) (bare : isBare c = true) :
    filterFieldOperator whole held op c = .ok (rangeTest op (held.getD .null) c) := by
  have different : op ≠ opEq ∧ op ≠ opNe := by
    constructor <;> (rintro rfl; exact absurd range (by decide))
  have plain : filterPlainOperator whole held op c = filterRange op (held.getD .null) c := by
    unfold filterPlainOperator
    rw [if_neg different.1, if_neg different.2, if_pos range]
  cases c <;> first
    | (simp [isBare] at bare; done)
    | simp [filterFieldOperator, checkUndefinedOperand, plain, filterRange, bind, Except.bind, pure, Except.pure]

end

end DumboDB.Handler
