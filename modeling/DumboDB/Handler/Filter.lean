import DumboDB.Handler.CommonPath

/-!
`FilterDocument` under binary string comparison. The comparison, membership, existence, regex
and logical operators are modelled; every other operator and the regular expression engine are
given by an environment.
-/

namespace DumboDB.Handler
open Foundation ByteOrder DumboDB.Types

inductive FilterError where
  | path (error : PathError)
  | compareToUndefined (argument : Bytes)
  | undefinedInList (op : Bytes)
  | regexOperand (op : Bytes)
  | needsArray (op : Bytes)
  | nestedOperator (op : Bytes)
  | notOperand
  | optionsNotString
  | optionsTwice
  | regexNotString
  | logicalNotArray (op : Bytes)
  | logicalEmpty (op : Bytes)
  | logicalEntry (op : Bytes)
  | other (code : Nat)
deriving DecidableEq, Repr

/-- What the filter takes from outside: compiled regular expressions (option letters and
syntax checked, a match that may time out), and the operators that are not modelled. -/
class QueryEnv where
  compile : Regex → Except FilterError (Bytes → Except FilterError Bool)
  fieldOperator : Bytes → Option Value → Value → Document → Except FilterError Bool
  topOperator : Bytes → Document → Value → Except FilterError Bool

def opEq : Bytes := ascii ['$', 'e', 'q']
def opNe : Bytes := ascii ['$', 'n', 'e']
def opGt : Bytes := ascii ['$', 'g', 't']
def opGte : Bytes := ascii ['$', 'g', 't', 'e']
def opLt : Bytes := ascii ['$', 'l', 't']
def opLte : Bytes := ascii ['$', 'l', 't', 'e']
def opIn : Bytes := ascii ['$', 'i', 'n']
def opNin : Bytes := ascii ['$', 'n', 'i', 'n']
def opNot : Bytes := ascii ['$', 'n', 'o', 't']
def opRegex : Bytes := ascii ['$', 'r', 'e', 'g', 'e', 'x']
def opOptions : Bytes := ascii ['$', 'o', 'p', 't', 'i', 'o', 'n', 's']
def opElemMatch : Bytes := ascii ['$', 'e', 'l', 'e', 'm', 'M', 'a', 't', 'c', 'h']
def opAll : Bytes := ascii ['$', 'a', 'l', 'l']
def opExists : Bytes := ascii ['$', 'e', 'x', 'i', 's', 't', 's']
def opAnd : Bytes := ascii ['$', 'a', 'n', 'd']
def opOr : Bytes := ascii ['$', 'o', 'r']
def opNor : Bytes := ascii ['$', 'n', 'o', 'r']
def opComment : Bytes := ascii ['$', 'c', 'o', 'm', 'm', 'e', 'n', 't']

def isOperatorKey (key : Bytes) : Bool := key.head? == some 36

def isOperatorDocument (d : Document) : Bool :=
  match d with
  | [] => false
  | (key, _) :: _ => isOperatorKey key

/-- Equality match: the value equals the target or is an array with an equal element. -/
def equalsOrHasElement (value target : Value) : Bool :=
  Compare value target == .eq || match value, target with
    | .array elems, .array ts =>
      elems.any fun
        | .array es => Compare (.array es) (.array ts) == .eq
        | _ => false
    | _, _ => false

def isUndefined : Value → Bool
  | .undefined => true
  | _ => false

mutual

def checkUndefinedOperand (op : Bytes) : Value → Except FilterError Unit
  | .document inner =>
    if op = opNot ∨ op = opElemMatch then checkUndefinedOperands inner else .ok ()
  | .array elems =>
    if op = opIn ∨ op = opNin then
      if elems.any isUndefined then .error (.undefinedInList op) else .ok ()
    else if op = opAll then
      if elems.any isUndefined then .error (.compareToUndefined op) else .ok ()
    else .ok ()
  | .undefined =>
    if op = opEq ∨ op = opNe ∨ op = opGt ∨ op = opGte ∨ op = opLt ∨ op = opLte then
      .error (.compareToUndefined op)
    else .ok ()
  | _ => .ok ()

def checkUndefinedOperands : List (Bytes × Value) → Except FilterError Unit
  | [] => .ok ()
  | (key, v) :: rest =>
    if isOperatorKey key then do
      checkUndefinedOperand key v
      checkUndefinedOperands rest
    else checkUndefinedOperands rest

end

def decimal128IsZero (d : Decimal128) : Bool :=
  if d.h.toNat / 2 ^ 61 % 4 = 3 then d.h.toNat / 2 ^ 58 % 2 ^ 5 < 0x1E
  else d.h.toNat % 2 ^ 49 == 0 && d.l == 0

def existsOperandTrue : Value → Bool
  | .bool b => b
  | .int32 n => n != 0
  | .int64 n => n != 0
  | .double f => !f.eq (Binary64.Float64.ofInt 0)
  | .decimal128 d => !decimal128IsZero d
  | .null => false
  | .undefined => false
  | _ => true

def filterFieldExprExists (fieldExist : Bool) (exprValue : Value) : Bool :=
  fieldExist == existsOperandTrue exprValue

section
variable [QueryEnv]

def filterFieldRegex (fieldValue : Option Value) (regex : Regex) : Except FilterError Bool := do
  let re ← QueryEnv.compile regex
  match fieldValue with
  | some (.array elems) =>
    elems.anyM fun
      | .string s => re s
      | .regex r => pure (Compare (.regex r) (.regex regex) == .eq)
      | _ => pure false
  | some (.string s) => re s
  | some (.regex r) => pure (Compare (.regex r) (.regex regex) == .eq)
  | _ => pure false

def filterFieldExprRegex (fieldValue : Option Value) (regexValue : Value) (optionsValue : Option Value) :
    Except FilterError Bool := do
  let options : Bytes ← match optionsValue with
    | none => pure []
    | some (.string s) => pure s
    | some _ => throw .optionsNotString
  match regexValue with
  | .string pattern => filterFieldRegex fieldValue ⟨pattern, options⟩
  | .regex r =>
    if options = [] then filterFieldRegex fieldValue r
    else if r.options ≠ [] then throw .optionsTwice
    else filterFieldRegex fieldValue ⟨r.pattern, options⟩
  | _ => throw .regexNotString

/-- The members of `$in` and `$nin`, up to the first that matches. -/
def filterInList (op : Bytes) (fieldValue : Value) : List Value → Except FilterError Bool
  | [] => pure false
  | member :: members => do
    let found ← match member with
      | .document d =>
        if d.any fun field => isOperatorKey field.1 then throw (.nestedOperator op)
        else pure (equalsOrHasElement fieldValue member)
      | .regex r => filterFieldRegex (some fieldValue) r
      | _ => pure (equalsOrHasElement fieldValue member)
    if found then pure true else filterInList op fieldValue members

/-- The test a range operator makes, an array standing for its extreme of the operand's type. -/
def rangeTest (op : Bytes) (fieldValue exprValue : Value) : Bool :=
  if op = opGt then CompareOrderForOperator fieldValue exprValue .descending == .gt
  else if op = opGte then CompareOrderForOperator fieldValue exprValue .descending != .lt
  else if op = opLt then CompareOrderForOperator fieldValue exprValue .ascending == .lt
  else CompareOrderForOperator fieldValue exprValue .ascending != .gt

def isRangeOperator (op : Bytes) : Bool := op == opGt || op == opGte || op == opLt || op == opLte

def filterRange (op : Bytes) (fieldValue exprValue : Value) : Except FilterError Bool :=
  match exprValue with
  | .regex _ => throw (.regexOperand op)
  | _ => pure (rangeTest op fieldValue exprValue)

def isEmptyDocument : Option Value → Bool
  | some (.document []) => true
  | _ => false

/-- One operator of `{field: {op: exprValue}}`, the field absent when `none`; `$not` with a
document is the caller's. -/
def filterPlainOperator (whole : Document) (field : Option Value) (op : Bytes) (exprValue : Value) :
    Except FilterError Bool :=
  let fieldValue := field.getD .null
  if op = opEq then pure (equalsOrHasElement fieldValue exprValue)
  else if op = opNe then
    match exprValue with
    | .regex _ => throw (.regexOperand op)
    | exprValue => pure (!equalsOrHasElement fieldValue exprValue)
  else if isRangeOperator op then filterRange op fieldValue exprValue
  else if op = opIn ∨ op = opNin then
    match exprValue with
    | .array members => do
      let found ← filterInList op fieldValue members
      pure (found == decide (op = opIn))
    | _ => throw (.needsArray op)
  else if op = opNot then
    match exprValue with
    | .regex r => do
      let result ← filterFieldExprRegex field (.regex r) (whole.get opOptions)
      pure (!result)
    | _ => throw .notOperand
  else if op = opRegex then filterFieldExprRegex (some fieldValue) exprValue (whole.get opOptions)
  else if op = opExists then pure (filterFieldExprExists field.isSome exprValue)
  else QueryEnv.fieldOperator op field exprValue whole

mutual

def filterFieldOperator (whole : Document) (field : Option Value) (op : Bytes) :
    Value → Except FilterError Bool
  | .document inner => do
    checkUndefinedOperand op (.document inner)
    if op = opNot then
      let result ← if inner.isEmpty then pure (isEmptyDocument field) else filterFieldLoop inner field inner
      pure (!result)
    else filterPlainOperator whole field op (.document inner)
  | exprValue => do
    checkUndefinedOperand op exprValue
    filterPlainOperator whole field op exprValue

/-- The loop over the operators of a condition. A key that is no operator ends it: the whole
condition is then a document to compare with. -/
def filterFieldLoop (whole : Document) (field : Option Value) :
    List (Bytes × Value) → Except FilterError Bool
  | [] => pure true
  | (op, exprValue) :: rest =>
    if op = opOptions then filterFieldLoop whole field rest
    else if isOperatorKey op then do
      if ← filterFieldOperator whole field op exprValue then filterFieldLoop whole field rest
      else pure false
    else
      match field with
      | some (.document d) => pure (Compare (.document d) (.document whole) == .eq)
      | some (.array elems) => pure (Compare (.array elems) (.document whole) == .eq)
      | _ => pure false

end

/-- `{field: {expr}}` or `{field: {document}}` on one branch. -/
def filterFieldExpr (field : Option Value) (expr : Document) : Except FilterError Bool :=
  if expr.isEmpty then pure (isEmptyDocument field) else filterFieldLoop expr field expr

def isNegatedFieldOperator (op : Bytes) (value : Value) : Bool :=
  op == opNe || op == opNin || op == opNot || (op == opExists && !filterFieldExprExists true value)

/-- One operator over several branches: a positive one needs a branch that matches, a negated
one needs them all to. -/
def filterOperatorBranches (branches : List (Option Value)) (opExpr : Document) (negated : Bool) :
    Except FilterError Bool := do
  let _ ← filterFieldExpr none opExpr
  if negated then branches.allM fun branch => filterFieldExpr branch opExpr
  else branches.anyM fun branch => filterFieldExpr branch opExpr

def filterBranchLoop (branches : List (Option Value)) (whole : Document) :
    List (Bytes × Value) → Except FilterError Bool
  | [] => pure true
  | (op, opValue) :: rest =>
    if op = opOptions then filterBranchLoop branches whole rest
    else do
      let options :=
        if op = opRegex then (whole.get opOptions).toList.map fun v => (opOptions, v) else []
      if ← filterOperatorBranches branches ((op, opValue) :: options) (isNegatedFieldOperator op opValue) then
        filterBranchLoop branches whole rest
      else pure false

def filterFieldExprBranches (branches : List (Option Value)) (expr : Document) : Except FilterError Bool :=
  if isOperatorDocument expr then filterBranchLoop branches expr expr
  else filterOperatorBranches branches expr false

/-- The values a filter key reaches, whether a branch is missing, and the key's last element. -/
structure Resolved where
  vals : List Value
  missing : Bool
  suffix : Bytes

def hasDot (key : Bytes) : Bool := key.contains dot

def resolve (doc : Document) (filterKey : Bytes) : Except FilterError Resolved :=
  if hasDot filterKey then
    match NewPathFromString filterKey with
    | .error error => .error (.path error)
    | .ok path => .ok ⟨FindValues doc path, HasMissingBranch doc path, path.getLast?.getD []⟩
  else
    match doc.get filterKey with
    | some v => .ok ⟨[v], false, filterKey⟩
    | none => .ok ⟨[], true, filterKey⟩

def documents : List Value → Option (List Document)
  | [] => some []
  | .document d :: rest => (documents rest).map (d :: ·)
  | _ :: _ => none

/-- The documents a positional filter expects, and whether it is negated. -/
def positionalOperands (filter : Document) : Option (List Document × Bool) :=
  if isOperatorDocument filter then
    match filter with
    | [(op, .document d)] => if op = opEq ∨ op = opNe then some ([d], op == opNe) else none
    | [(op, .array members)] =>
      if (op = opIn ∨ op = opNin) ∧ members ≠ [] then
        (documents members).map fun ds => (ds, op == opNin)
      else none
    | _ => none
  else some ([filter], false)

/-- `{path: doc}` and its operator forms when the path ends in an array index. -/
def positionalDocumentEquality (doc : Document) (filterKey : Bytes) (vals : List Value)
    (filter : Document) : Option Bool := do
  let path ← (NewPathFromString filterKey).toOption
  if !hasDot filterKey || ((path.getLast?).bind atoi).isNone then failure
  if !(FindValues doc path.dropLast).any fun v => match v with | .array _ => true | _ => false then failure
  let (expected, negate) ← positionalOperands filter
  let equal := vals.any fun
    | .document d => expected.any fun e => Compare (.document d) (.document e) == .eq
    | _ => false
  return if equal then !negate else negate

/-- `{filterKey: filterValue}` for a key that is no operator. -/
def filterField (doc : Document) (filterKey : Bytes) (filterValue : Value) (reached : Resolved) :
    Except FilterError Bool :=
  match filterValue with
  | .document expr =>
    match positionalDocumentEquality doc filterKey reached.vals expr with
    | some result => pure result
    | none =>
      if reached.suffix = filterKey then filterFieldExpr (doc.get filterKey) expr
      else
        match reached.vals.map some ++ (if reached.missing then [none] else []) with
        | [branch] => filterFieldExpr branch expr
        | branches => filterFieldExprBranches branches expr
  | .null => pure (reached.missing || reached.vals.any fun val => Compare val .null == .eq)
  | .undefined => throw (.compareToUndefined filterKey)
  | .regex r => reached.vals.anyM fun val => filterFieldRegex (some val) r
  | filterValue => pure (reached.vals.any fun val => equalsOrHasElement val filterValue)

/-- The operand of `$and`, `$or` and `$nor`, refused unless it is a nonempty array of documents. -/
def logicalOperand (op : Bytes) (exprs : List Value) : Except FilterError Unit :=
  if exprs = [] then throw (.logicalEmpty op)
  else if (documents exprs).isNone then throw (.logicalEntry op)
  else pure ()

mutual

def FilterDocument (doc : Document) : List (Bytes × Value) → Except FilterError Bool
  | [] => pure true
  | (filterKey, filterValue) :: rest => do
    if ← filterDocumentPair doc filterKey filterValue then FilterDocument doc rest else pure false

def filterDocumentPair (doc : Document) (filterKey : Bytes) : Value → Except FilterError Bool
  | .array exprs => do
    let reached ← resolve doc filterKey
    if filterKey = opAnd then
      logicalOperand filterKey exprs
      filterAll doc exprs
    else if filterKey = opOr then
      logicalOperand filterKey exprs
      filterAny doc exprs
    else if filterKey = opNor then
      logicalOperand filterKey exprs
      let found ← filterAny doc exprs
      pure (!found)
    else if filterKey = opComment then pure true
    else if isOperatorKey filterKey then QueryEnv.topOperator filterKey doc (.array exprs)
    else filterField doc filterKey (.array exprs) reached
  | filterValue => do
    let reached ← resolve doc filterKey
    if filterKey = opAnd ∨ filterKey = opOr ∨ filterKey = opNor then throw (.logicalNotArray filterKey)
    else if filterKey = opComment then pure true
    else if isOperatorKey filterKey then QueryEnv.topOperator filterKey doc filterValue
    else filterField doc filterKey filterValue reached

def filterAll (doc : Document) : List Value → Except FilterError Bool
  | [] => pure true
  | .document d :: rest => do
    if ← FilterDocument doc d then filterAll doc rest else pure false
  | _ :: rest => filterAll doc rest

def filterAny (doc : Document) : List Value → Except FilterError Bool
  | [] => pure false
  | .document d :: rest => do
    if ← FilterDocument doc d then pure true else filterAny doc rest
  | _ :: rest => filterAny doc rest

end

def Matches (doc filter : Document) : Prop := FilterDocument doc filter = .ok true

end

/-- An environment that refuses every regular expression and every further operator. -/
abbrev bareEnv : QueryEnv where
  compile := fun _ => .error (.other 0)
  fieldOperator := fun _ _ _ _ => .error (.other 0)
  topOperator := fun _ _ _ => .error (.other 0)

def fieldA : Bytes := ascii ['a']

def fieldB : Bytes := ascii ['b']

end DumboDB.Handler
