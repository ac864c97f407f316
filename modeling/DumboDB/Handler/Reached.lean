import DumboDB.Handler.Conditions

/-!
Conditions on a field named by any path: what a filter asks of the values the path reaches. A
path through arrays reaches several, and each operator may be met by another of them.
-/

namespace DumboDB.Handler
open Foundation ByteOrder DumboDB.Types List

/-- The values a filter key reaches; none for a path that is refused. -/
def reachedValues (d : Document) (key : Bytes) : List Value :=
  if hasDot key then
    match NewPathFromString key with
    | .error _ => []
    | .ok path => FindValues d path
  else (d.get key).toList

/-- The values reached, and for an array its elements. -/
def reachedElements (d : Document) (key : Bytes) : List Value :=
  (reachedValues d key).flatMap elementsOrSelf

theorem newPath_ok {elements path : List Bytes} (valid : newPath elements = .ok path) : path = elements := by
  induction elements generalizing path with
  | nil => simpa [newPath, eq_comm] using valid
  | cons e elements ih =>
    unfold newPath at valid
    split at valid
    · simp at valid
    · split at valid
      · simp at valid
      · cases rest : newPath elements with
        | error error => simp [rest, Except.map] at valid
        | ok _ =>
          rw [rest, ih rest] at valid
          simpa [Except.map, eq_comm] using valid

theorem splitDots_ne_nil (s : Bytes) : splitDots s ≠ [] := by
  cases s with
  | nil => simp [splitDots]
  | cons b s =>
    unfold splitDots
    split
    · simp
    · split <;> simp

theorem noDot_of_mem_splitDots {s e : Bytes} (member : e ∈ splitDots s) : hasDot e = false := by
  induction s generalizing e with
  | nil =>
    rw [splitDots, mem_singleton] at member
    subst member
    rfl
  | cons b s ih =>
    unfold splitDots at member
    split at member
    · rcases mem_cons.mp member with rfl | later
      · rfl
      · exact ih later
    next other =>
      have grown {first : Bytes} (held : hasDot first = false) : hasDot (b :: first) = false := by
        simp only [hasDot, contains_cons, Bool.or_eq_false_iff] at held ⊢
        exact ⟨beq_eq_false_iff_ne.mpr (Ne.symm other), held⟩
      split at member
      · rw [mem_singleton] at member
        subst member
        exact grown rfl
      next first _ split =>
        rw [split] at ih
        rcases mem_cons.mp member with rfl | later
        · exact grown (ih (mem_cons_self ..))
        · exact ih (mem_cons_of_mem _ later)

variable {d : Document} {key : Bytes} {c : Value} {op : Bytes} {v : Value} {α ε : Type}

/-- What resolving a key gives: the values reached, and a last element that is the whole key only
where there is no dot. -/
theorem resolve_spec {reached : Resolved} (found : resolve d key = .ok reached) :
    reached.vals = reachedValues d key ∧ (hasDot key = true → reached.suffix ≠ key) := by
  unfold resolve at found
  unfold reachedValues
  cases dotted : hasDot key with
  | false =>
    rw [dotted] at found
    cases held : d.get key <;> rw [held] at found <;> cases found <;> simp
  | true =>
    rw [dotted, if_pos rfl] at found
    cases path : NewPathFromString key with
    | error error => rw [path] at found; simp at found
    | ok _ =>
      rw [path] at found
      cases found
      refine ⟨rfl, fun _ same => ?_⟩
      have whole := newPath_ok path
      have last : (splitDots key).getLast?.getD [] = key := whole ▸ same
      rw [getLast?_eq_getLast_of_ne_nil (splitDots_ne_nil key), Option.getD_some] at last
      have none := noDot_of_mem_splitDots (last ▸ getLast_mem (splitDots_ne_nil key))
      rw [dotted] at none
      exact absurd none (by decide)

theorem reachedValues_of_error {error : FilterError}
    (refused : resolve d key = .error error) : reachedValues d key = [] := by
  unfold resolve at refused
  unfold reachedValues
  cases dotted : hasDot key with
  | false =>
    rw [dotted] at refused
    cases held : d.get key <;> simp [held] at refused
  | true =>
    rw [dotted, if_pos rfl] at refused
    cases path : NewPathFromString key with
    | error error => simp
    | ok _ => rw [path] at refused; simp at refused

def isComparison (op : Bytes) : Bool := op == opEq || isRangeOperator op

/-- An operand that is compared with: no document, array, null or regular expression. -/
def isOperand (c : Value) : Bool := isBare c || isUndefined c

/-- A comparison with an operand, or membership in a list of them. -/
def isCondition (op : Bytes) (c : Value) : Bool :=
  match c with
  | .array members => op == opIn && members.all isOperand
  | c => isComparison op && isOperand c

def isDefined (c : Value) : Bool := (elementsOrSelf c).all isBare

def Meets (op : Bytes) (w c : Value) : Prop :=
  if op = opEq ∨ op = opIn then ∃ m ∈ elementsOrSelf c, CompareOrder w m = .eq
  else detectDataType w = detectDataType c ∧ (rangeOp op).accepts (Compare w c) = true

theorem dataType_null_ne (bare : isBare c = true) : detectDataType .null ≠ detectDataType c := by
  cases c <;> simp [isBare] at bare <;> simp [detectDataType] <;> split <;> simp

theorem elementsOrSelf_single (single : isArray c = false) : elementsOrSelf c = [c] := by
  cases c <;> first | rfl | simp [isArray] at single

theorem isBare_of_isDefined (valid : isDefined c = true) (single : isArray c = false) : isBare c = true := by
  rw [isDefined, elementsOrSelf_single single] at valid
  simpa using valid

theorem isCondition_cases (condition : isCondition op c = true) :
    (op = opIn ∧ ∃ members, c = .array members ∧ ∀ m ∈ members, isOperand m = true) ∨
      (isComparison op = true ∧ op ≠ opIn ∧ isArray c = false ∧ isOperand c = true) := by
  unfold isCondition at condition
  split at condition
  · rw [Bool.and_eq_true, beq_iff_eq, all_eq_true] at condition
    exact .inl ⟨condition.1, _, rfl, condition.2⟩
  next other =>
    rw [Bool.and_eq_true] at condition
    have single : isArray c = false := by
      cases c <;> first | rfl | exact absurd rfl (other _)
    refine .inr ⟨condition.1, ?_, single, condition.2⟩
    rintro rfl
    exact absurd condition.1 (by decide)

theorem not_meets_null (condition : isCondition op c = true) (valid : isDefined c = true) : ¬ Meets op .null c := by
  have members : ∀ m ∈ elementsOrSelf c, CompareOrder .null m ≠ .eq := by
    intro m member equal
    exact dataType_null_ne (all_eq_true.mp valid m member) (CompareOrder_eq_iff.mp equal).1
  unfold Meets
  split
  · exact fun ⟨m, member, equal⟩ => members m member equal
  next other =>
    rcases isCondition_cases condition with ⟨rfl, _⟩ | ⟨_, _, single, _⟩
    · exact absurd (.inr rfl) other
    · exact fun meets => dataType_null_ne (isBare_of_isDefined valid single) meets.1

theorem isOperatorKey_of_isComparison (comparison : isComparison op = true) :
    isOperatorKey op = true ∧ op ≠ opOptions ∧ op ≠ opRegex ∧ ∀ v, isNegatedFieldOperator op v = false := by
  simp only [isComparison, isRangeOperator, Bool.or_eq_true, beq_iff_eq] at comparison
  rcases comparison with rfl | ((rfl | rfl) | rfl) | rfl <;>
    exact ⟨by decide, by decide, by decide, fun v => rfl⟩

theorem isOperatorKey_of_isCondition (condition : isCondition op c = true) :
    isOperatorKey op = true ∧ op ≠ opOptions ∧ op ≠ opRegex ∧ ∀ v, isNegatedFieldOperator op v = false := by
  rcases isCondition_cases condition with ⟨rfl, _⟩ | ⟨comparison, _⟩
  · exact ⟨by decide, by decide, by decide, fun v => rfl⟩
  · exact isOperatorKey_of_isComparison comparison

def conditionTest (op : Bytes) (v c : Value) : Bool :=
  if op = opEq ∨ op = opIn then (elementsOrSelf c).any (equalsOrHasElement v) else rangeTest op v c

theorem conditionTest_iff (condition : isCondition op c = true)
    (valid : isDefined c = true) : conditionTest op v c = true ↔ ∃ w ∈ elementsOrSelf v, Meets op w c := by
  unfold conditionTest Meets
  split
  · have each : ∀ m ∈ elementsOrSelf c, equalsOrHasElement v m = true ↔
        ∃ w ∈ elementsOrSelf v, CompareOrder w m = .eq := fun m member =>
      equalsOrHasElement_iff (isArray_of_isBare (all_eq_true.mp valid m member))
    rw [any_eq_true]
    constructor
    · rintro ⟨m, member, equal⟩
      obtain ⟨w, element, equal⟩ := (each m member).mp equal
      exact ⟨w, element, m, member, equal⟩
    · rintro ⟨w, element, m, member, equal⟩
      exact ⟨m, member, (each m member).mpr ⟨w, element, equal⟩⟩
  next other =>
    rcases isCondition_cases condition with ⟨rfl, _⟩ | ⟨_, _, single, _⟩
    · exact absurd (.inr rfl) other
    · exact rangeTest_iff single

theorem anyM_ok (test : α → Bool) (l : List α) :
    (l.anyM fun a => (.ok (test a) : Except ε Bool)) = .ok (l.any test) := by
  induction l with
  | nil => rfl
  | cons a l ih =>
    rw [List.anyM, any_cons]
    cases test a with
    | true => rfl
    | false => exact ih

theorem mem_of_anyM {test : α → Except ε Bool} {l : List α} (found : l.anyM test = .ok true) :
    ∃ a ∈ l, test a = .ok true := by
  induction l with
  | nil => simp [List.anyM, pure, Except.pure] at found
  | cons a l ih =>
    rw [List.anyM] at found
    cases here : test a with
    | error error => simp [here, bind, Except.bind] at found
    | ok result =>
      cases result with
      | true => exact ⟨a, mem_cons_self .., here⟩
      | false =>
        rw [here] at found
        obtain ⟨b, member, holds⟩ := ih found
        exact ⟨b, mem_cons_of_mem _ member, holds⟩

theorem eq_undefined_of_isOperand (operand : isOperand c = true) (other : isBare c = false) : c = .undefined := by
  rw [isOperand, other] at operand
  cases c <;> first | rfl | simp [isUndefined] at operand

theorem branches_meet_iff {vals : List Value} {missing : Bool}
    (condition : isCondition op c = true) (valid : isDefined c = true) :
    (∃ held ∈ vals.map some ++ (if missing then [none] else []), ∃ w ∈ elementsOrSelf (held.getD .null),
      Meets op w c) ↔
      ∃ w ∈ vals.flatMap elementsOrSelf, Meets op w c := by
  constructor
  · rintro ⟨held, member, w, element, meets⟩
    rcases mem_append.mp member with reached | lost
    · obtain ⟨val, inside, rfl⟩ := mem_map.mp reached
      exact ⟨w, mem_flatMap.mpr ⟨val, inside, element⟩, meets⟩
    · obtain rfl : held = none := by
        cases missing with
        | false => exact absurd lost not_mem_nil
        | true => exact mem_singleton.mp lost
      obtain rfl : w = .null := by simpa [elementsOrSelf] using element
      exact absurd meets (not_meets_null condition valid)
  · rintro ⟨w, element, meets⟩
    obtain ⟨val, member, element⟩ := mem_flatMap.mp element
    exact ⟨some val, mem_append_left _ (mem_map_of_mem member), w, element, meets⟩

theorem filterDocument_not_equal {v : Value} {whole : Document}
    (scalars : ∀ w ∈ elementsOrSelf v, detectDataType w ≠ .document) :
    (∀ d, v ≠ .document d) ∧ ∀ elems, v = .array elems → Compare (.array elems) (.document whole) ≠ .eq := by
  constructor
  · rintro d rfl
    exact scalars (.document d) (mem_singleton_self _) rfl
  · rintro elems rfl equal
    obtain ⟨w, member, equal⟩ := (Compare_eq_iff_element rfl).mp equal
    exact scalars w member (CompareOrder_eq_iff.mp equal).1

theorem positional_not_matched {d expr : Document} {key : Bytes} {vals : List Value}
    (scalars : ∀ v ∈ vals, detectDataType v ≠ .document)
    (member : (op, c) ∈ expr) (condition : isCondition op c = true) :
    positionalDocumentEquality d key vals expr ≠ some true := by
  have positive {expected : List Document} {negate : Bool}
      (operands : positionalOperands expr = some (expected, negate)) : negate = false := by
    unfold positionalOperands at operands
    split at operands
    · split at operands
      · obtain ⟨rfl, rfl⟩ := Prod.mk.inj (mem_singleton.mp member)
        simp [isCondition, isOperand, isBare, isUndefined] at condition
      · obtain ⟨rfl, rfl⟩ := Prod.mk.inj (mem_singleton.mp member)
        have list : op = opIn := by
          simp only [isCondition, Bool.and_eq_true, beq_iff_eq] at condition
          exact condition.1
        subst list
        split at operands
        · cases listed : documents ‹_› <;> simp [listed] at operands
          exact operands.2.symm
        · simp at operands
      · simp at operands
    · simp only [Option.some.injEq, Prod.mk.injEq] at operands
      exact operands.2.symm
  unfold positionalDocumentEquality
  cases (NewPathFromString key).toOption with
  | none => simp [bind]
  | some _ =>
    cases operands : positionalOperands expr with
    | none => simp [bind, Option.bind, failure]
    | some pair =>
      obtain ⟨expected, negate⟩ := pair
      obtain rfl := positive operands
      simp only [bind, Option.bind, failure, pure]
      repeat' split
      all_goals first
        | (simp; done)
        | rename_i found
          obtain ⟨v, held, equal⟩ := any_eq_true.mp found
          cases v with
          | document _ => exact absurd rfl (scalars _ held)
          | _ => simp at equal

theorem dataType_of_elements (scalars : ∀ w ∈ elementsOrSelf v, detectDataType w ≠ .document) :
    detectDataType v ≠ .document := by
  cases v with
  | array _ => simp [detectDataType]
  | _ => exact scalars _ (mem_singleton_self _)

section
variable [QueryEnv]

variable {key : Bytes} {d : Document} {c : Value} {op : Bytes} {members : List Value}
  {whole : Document} {held : Option Value} {expr : Document} {branches : List (Option Value)}

section

variable (named : isOperatorKey key = false)
include named

theorem filterDocumentPair_named (d : Document) (c : Value) :
    filterDocumentPair d key c = (resolve d key).bind (filterField d key c) := by
  have other (op : Bytes) (operator : isOperatorKey op = true) : key ≠ op :=
    ne_of_isOperatorKey named operator
  cases c <;>
    simp [filterDocumentPair, named, bind, other opAnd (by decide), other opOr (by decide),
      other opNor (by decide), other opComment (by decide)]

theorem filterDocumentPair_ok_iff : filterDocumentPair d key c = .ok true ↔
      ∃ reached, resolve d key = .ok reached ∧ filterField d key c reached = .ok true := by
  rw [filterDocumentPair_named named]
  cases resolve d key <;> simp [Except.bind]

theorem bare_condition_iff (bare : isBare c = true) :
    filterDocumentPair d key c = .ok true ↔ ∃ w ∈ reachedElements d key, CompareOrder w c = .eq := by
  have plain (reached : Resolved) : filterField d key c reached =
      pure (reached.vals.any fun val => equalsOrHasElement val c) := by
    cases c <;> first | rfl | simp [isBare] at bare
  have meaning (vals : List Value) : (vals.any fun val => equalsOrHasElement val c) = true ↔
      ∃ w ∈ vals.flatMap elementsOrSelf, CompareOrder w c = .eq := by
    simp only [any_eq_true, equalsOrHasElement_iff (isArray_of_isBare bare), mem_flatMap]
    constructor
    · rintro ⟨val, member, w, element, equal⟩
      exact ⟨w, ⟨val, member, element⟩, equal⟩
    · rintro ⟨w, ⟨val, member, element⟩, equal⟩
      exact ⟨val, member, w, element, equal⟩
  rw [filterDocumentPair_ok_iff named]
  cases found : resolve d key with
  | error error => simp [reachedElements, reachedValues_of_error found]
  | ok reached =>
    rw [reachedElements, ← (resolve_spec found).1, ← meaning]
    simp [plain, pure, Except.pure]

end

theorem filterInList_bare (valid : ∀ m ∈ members, isBare m = true) :
    filterInList op v members = .ok (members.any (equalsOrHasElement v)) := by
  induction members with
  | nil => rfl
  | cons m members ih =>
    rw [forall_mem_cons] at valid
    have step : filterInList op v (m :: members) =
        if equalsOrHasElement v m then pure true else filterInList op v members := by
      cases m <;> first | (simp [isBare] at valid; done) | rfl
    rw [step, ih valid.2, any_cons]
    cases equalsOrHasElement v m <;> rfl

theorem filterFieldOperator_comparison
    (comparison : isComparison op = true) (other : op ≠ opIn) (bare : isBare c = true) :
    filterFieldOperator whole held op c = .ok (conditionTest op (held.getD .null) c) := by
  by_cases equality : op = opEq
  · subst equality
    cases c <;> first
      | (simp [isBare] at bare; done)
      | simp [filterFieldOperator, checkUndefinedOperand, filterPlainOperator, conditionTest, elementsOrSelf,
          bind, Except.bind, pure, Except.pure]
  · have range : isRangeOperator op = true := by
      simpa [isComparison, equality] using comparison
    rw [filterFieldOperator_range range bare, conditionTest, if_neg (by tauto)]

theorem filterFieldOperator_in (valid : ∀ m ∈ members, isBare m = true) :
    filterFieldOperator whole held opIn (.array members) =
      .ok (conditionTest opIn (held.getD .null) (.array members)) := by
  have defined : members.any isUndefined = false := by
    rw [any_eq_false]
    intro m member
    have bare := valid m member
    cases m <;> first | (simp [isBare] at bare; done) | simp [isUndefined]
  have plain : filterPlainOperator whole held opIn (.array members) =
      .ok (members.any (equalsOrHasElement (held.getD .null))) := by
    unfold filterPlainOperator
    rw [if_neg (by decide), if_neg (by decide), if_neg (by decide), if_pos (.inl rfl)]
    simp [filterInList_bare valid, bind, Except.bind, pure, Except.pure]
  rw [conditionTest, if_pos (.inr rfl), elementsOrSelf]
  simp [filterFieldOperator, checkUndefinedOperand, defined, plain, bind, Except.bind]

section

variable (condition : isCondition op c = true)
include condition

theorem filterFieldOperator_defined (valid : isDefined c = true) :
    filterFieldOperator whole held op c = .ok (conditionTest op (held.getD .null) c) := by
  rcases isCondition_cases condition with ⟨rfl, _, rfl, _⟩ | ⟨comparison, other, single, _⟩
  · exact filterFieldOperator_in (all_eq_true.mp valid)
  · exact filterFieldOperator_comparison comparison other (isBare_of_isDefined valid single)

theorem filterFieldOperator_undefined (invalid : isDefined c = false) :
    ∃ error, ∀ (whole : Document) (held : Option Value), filterFieldOperator whole held op c = .error error := by
  rcases isCondition_cases condition with ⟨rfl, members, rfl, operands⟩ | ⟨comparison, _, single, operand⟩
  · have found : members.any isUndefined = true := by
      obtain ⟨m, member, other⟩ := all_eq_false.mp invalid
      rw [Bool.not_eq_true] at other
      exact any_eq_true.mpr ⟨m, member, by rw [eq_undefined_of_isOperand (operands m member) other]; rfl⟩
    refine ⟨.undefinedInList opIn, fun whole held => ?_⟩
    simp [filterFieldOperator, checkUndefinedOperand, found, bind, Except.bind]
  · have other : isBare c = false := by
      rw [isDefined, elementsOrSelf_single single] at invalid
      simpa using invalid
    obtain rfl := eq_undefined_of_isOperand operand other
    have refused : checkUndefinedOperand op .undefined = .error (.compareToUndefined op) := by
      apply if_pos
      simp only [isComparison, isRangeOperator, Bool.or_eq_true, beq_iff_eq] at comparison
      tauto
    refine ⟨.compareToUndefined op, fun whole held => ?_⟩
    simp [filterFieldOperator, refused, bind, Except.bind]

theorem filterFieldOperator_ok_iff : filterFieldOperator whole held op c = .ok true ↔
      isDefined c = true ∧ ∃ w ∈ elementsOrSelf (held.getD .null), Meets op w c := by
  cases valid : isDefined c with
  | false =>
    obtain ⟨_, refused⟩ := filterFieldOperator_undefined condition valid
    simp [refused]
  | true => simp [filterFieldOperator_defined condition valid, conditionTest_iff condition valid]

theorem filterOperatorBranches_condition :
    filterOperatorBranches branches [(op, c)] false = .ok true ↔ isDefined c = true ∧
      ∃ held ∈ branches, ∃ w ∈ elementsOrSelf (held.getD .null), Meets op w c := by
  have spec := isOperatorKey_of_isCondition condition
  have single (held : Option Value) : filterFieldExpr held [(op, c)] =
      (do if ← filterFieldOperator [(op, c)] held op c then pure true else pure false) := by
    simp [filterFieldExpr, filterFieldLoop, spec.1, spec.2.1]
  unfold filterOperatorBranches
  cases valid : isDefined c with
  | false =>
    obtain ⟨_, refused⟩ := filterFieldOperator_undefined condition valid
    simp [single, refused, bind, Except.bind]
  | true =>
    have test (held : Option Value) : filterFieldExpr held [(op,
      c)] = .ok (conditionTest op (held.getD .null) c) := by
      rw [single, filterFieldOperator_defined condition valid]
      cases conditionTest op (held.getD .null) c <;> rfl
    simp only [test, bind, Except.bind, Bool.false_eq_true, if_false, anyM_ok, Except.ok.injEq,
      any_eq_true, conditionTest_iff condition valid, true_and]

end

/-! One condition among others of any kind, on a field that reaches no document. -/

theorem filterFieldLoop_condition (scalars : ∀ w ∈ elementsOrSelf (held.getD .null), detectDataType w ≠ .document)
    (matched : filterFieldLoop whole held expr = .ok true)
    (member : (op, c) ∈ expr) (condition : isCondition op c = true) :
    filterFieldOperator whole held op c = .ok true := by
  induction expr with
  | nil => exact absurd member not_mem_nil
  | cons _ expr ih =>
    have spec := isOperatorKey_of_isCondition condition
    unfold filterFieldLoop at matched
    split at matched
    next options =>
      rcases mem_cons.mp member with same | later
      · exact absurd ((Prod.mk.inj same).1.trans options) spec.2.1
      · exact ih matched later
    · split at matched
      · rw [andThen_ok_true] at matched
        rcases mem_cons.mp member with same | later
        · obtain ⟨rfl, rfl⟩ := Prod.mk.inj same
          exact matched.1
        · exact ih matched.2 later
      · exfalso
        cases held with
        | none => simp [pure, Except.pure] at matched
        | some v =>
          have apart := @filterDocument_not_equal _ whole scalars
          cases v with
          | document d => exact apart.1 d rfl
          | array elems => simp [pure, Except.pure, apart.2 elems rfl] at matched
          | _ => simp [pure, Except.pure] at matched

theorem filterBranchLoop_condition (matched : filterBranchLoop branches whole expr = .ok true)
    (member : (op, c) ∈ expr) (condition : isCondition op c = true) :
    filterOperatorBranches branches [(op, c)] false = .ok true := by
  induction expr with
  | nil => exact absurd member not_mem_nil
  | cons _ expr ih =>
    have spec := isOperatorKey_of_isCondition condition
    unfold filterBranchLoop at matched
    split at matched
    next options =>
      rcases mem_cons.mp member with same | later
      · exact absurd ((Prod.mk.inj same).1.trans options) spec.2.1
      · exact ih matched later
    · rw [andThen_ok_true] at matched
      rcases mem_cons.mp member with same | later
      · obtain ⟨rfl, rfl⟩ := Prod.mk.inj same
        rw [if_neg spec.2.2.1, spec.2.2.2] at matched
        exact matched.1
      · exact ih matched.2 later

theorem filterOperatorBranches_some (matched : filterOperatorBranches branches expr false = .ok true) :
    ∃ held ∈ branches, filterFieldExpr held expr = .ok true := by
  unfold filterOperatorBranches at matched
  cases absent : filterFieldExpr none expr with
  | error error => simp [absent, bind, Except.bind] at matched
  | ok _ =>
    rw [absent] at matched
    exact mem_of_anyM matched

theorem condition_of_match (named : isOperatorKey key = false)
    (scalars : ∀ w ∈ reachedElements d key, detectDataType w ≠ .document)
    (matched : filterDocumentPair d key (.document expr) = .ok true)
    (member : (op, c) ∈ expr) (condition : isCondition op c = true) :
    isDefined c = true ∧ ∃ w ∈ reachedElements d key, Meets op w c := by
  obtain ⟨reached, found, matched⟩ := (filterDocumentPair_ok_iff named).mp matched
  have spec := resolve_spec found
  have flat : reachedElements d key = reached.vals.flatMap elementsOrSelf := by rw [reachedElements, spec.1]
  rw [flat] at scalars ⊢
  have alone (v : Value) (held : v ∈ reached.vals) : ∀ w ∈ elementsOrSelf v, detectDataType w ≠ .document :=
    fun w element => scalars w (mem_flatMap.mpr ⟨v, held, element⟩)
  have nonempty : expr.isEmpty = false := by
    cases expr with
    | nil => exact absurd member not_mem_nil
    | cons => rfl
  -- A branch that matches the whole condition meets this part of it.
  have branch (held : Option Value) (inside : held ∈ reached.vals.map some ++ if reached.missing then [none] else [])
      (here : filterFieldExpr held expr = .ok true) :
      isDefined c = true ∧ ∃ w ∈ reached.vals.flatMap elementsOrSelf, Meets op w c := by
    have typed : ∀ w ∈ elementsOrSelf (held.getD .null), detectDataType w ≠ .document := by
      rcases mem_append.mp inside with some | none
      · obtain ⟨v, member, rfl⟩ := mem_map.mp some
        exact alone v member
      · obtain rfl : held = Option.none := by
          cases missing : reached.missing <;> simp [missing] at none
          exact none
        simp [elementsOrSelf, detectDataType]
    rw [filterFieldExpr, nonempty, if_neg (by decide)] at here
    have meets := (filterFieldOperator_ok_iff condition).mp (filterFieldLoop_condition typed here member condition)
    exact ⟨meets.1, (branches_meet_iff condition meets.1).mp ⟨held, inside, meets.2⟩⟩
  unfold filterField at matched
  dsimp only at matched
  split at matched
  next _ positional =>
    have refused := @positional_not_matched _ _ d _ key _
      (fun v held => dataType_of_elements (alone v held)) member condition
    simp only [pure, Except.pure, Except.ok.injEq] at matched
    rw [matched] at positional
    exact absurd positional refused
  · split at matched
    next plain =>
      have undotted : hasDot key = false := by
        cases dotted : hasDot key with
        | false => rfl
        | true => exact absurd plain (spec.2 dotted)
      have vals : reached.vals = (d.get key).toList := by
        rw [spec.1, reachedValues, undotted, if_neg (by decide)]
      cases held : d.get key with
      | none =>
        rw [held, filterFieldExpr, nonempty, if_neg (by decide)] at matched
        have meets := (filterFieldOperator_ok_iff condition).mp
          (filterFieldLoop_condition (by simp [elementsOrSelf, detectDataType]) matched member condition)
        obtain ⟨valid, w, element, meets⟩ := meets
        obtain rfl : w = .null := by simpa [elementsOrSelf] using element
        exact absurd meets (not_meets_null condition valid)
      | some v =>
        rw [held] at matched
        exact branch (some v) (by simp [vals, held]) matched
    · split at matched
      next single =>
        exact branch _ (by rw [single]; exact mem_singleton_self _) matched
      · unfold filterFieldExprBranches at matched
        split at matched
        · have all := (filterOperatorBranches_condition condition).mp
            (filterBranchLoop_condition matched member condition)
          exact ⟨all.1, (branches_meet_iff condition all.1).mp all.2⟩
        · obtain ⟨held, inside, here⟩ := filterOperatorBranches_some matched
          exact branch held inside here

end

end DumboDB.Handler
