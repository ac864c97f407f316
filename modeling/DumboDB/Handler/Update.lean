import DumboDB.Handler.DocumentPath
import DumboDB.Handler.Filter

/-!
The three forms of an update: a replacement document, update operators and a pipeline. Each returns
the document it leaves and whether it calls it modified. Operations on doubles, the clock, the
sorts of `$push` and the expansion of positional operators are given by an environment.
-/

namespace DumboDB.Handler
open Foundation ByteOrder Binary64 DumboDB.Types Dolt Fallible

inductive UpdateError where
  | unsuitableValueType | typeMismatch | badValue | failedToParse | emptyName | immutableField | notImplemented
  | path (error : PathError)
  | access (error : AccessError)
  | filter (error : FilterError)
  | panicked
deriving DecidableEq, Repr

class UpdateEnv where
  add : Float64 → Float64 → Float64
  mul : Float64 → Float64 → Float64
  now : Int64
  nextTimestamp : UInt64
  sortArray : SortType → List Value → List Value
  sortDocuments : Document → List Document → Except UpdateError (List Document)
  expandPositionalOps : Bytes → Document → Except UpdateError (List Bytes)

inductive UpdateOperator where
  | currentDate | set | setOnInsert | unset | inc | max | min | mul | rename | pop | push | addToSet | pull
  | pullAll | bit
deriving DecidableEq, Repr

def operatorNames : List (Bytes × UpdateOperator) :=
  [(field "$currentDate", .currentDate), (field "$set", .set), (field "$setOnInsert", .setOnInsert),
    (field "$unset", .unset), (field "$inc", .inc), (field "$max", .max), (field "$min", .min),
    (field "$mul", .mul), (field "$rename", .rename), (field "$pop", .pop), (field "$push", .push),
    (field "$addToSet", .addToSet), (field "$pull", .pull), (field "$pullAll", .pullAll), (field "$bit", .bit)]

def operatorNamed (name : Bytes) : Option UpdateOperator :=
  (operatorNames.find? fun entry => entry.1 == name).map Prod.snd

/-! Comparisons that decide whether something changed. -/

mutual

/-- `types.Identical`: same types and values, field by field and whatever the keys. -/
def Identical : Value → Value → Bool
  | .document a, .document b => identicalFields a b
  | .array a, .array b => identicalElems a b
  | .double f, .double g => f.eq g
  | .string s, .string t => s == t
  | .binary a, .binary b => a == b
  | .objectID a, .objectID b => a == b
  | .bool a, .bool b => a == b
  | .date a, .date b => a == b
  | .null, .null => true
  | .regex a, .regex b => a == b
  | .int32 a, .int32 b => a == b
  | .timestamp a, .timestamp b => a == b
  | .int64 a, .int64 b => a == b
  | .decimal128 a, .decimal128 b => a == b
  | .undefined, .undefined => true
  | .minKey, .minKey => true
  | .maxKey, .maxKey => true
  | _, _ => false

def identicalFields : List (Bytes × Value) → List (Bytes × Value) → Bool
  | [], [] => true
  | (_, v) :: a, (_, w) :: b => Identical v w && identicalFields a b
  | _, _ => false

def identicalElems : List Value → List Value → Bool
  | [], [] => true
  | v :: a, w :: b => Identical v w && identicalElems a b
  | _, _ => false

end

/-- Go's `==` on two numbers in interfaces: of one type, and equal in it. -/
def sameNumber : Value → Value → Bool
  | .double f, .double g => f.eq g
  | .int32 a, .int32 b => a == b
  | .int64 a, .int64 b => a == b
  | _, _ => false

/-! Arithmetic of `$inc`, `$mul` and `$bit`. -/

inductive NumberError where
  | unexpectedLeft | unexpectedRight | longExceededPositive | longExceededNegative | intExceeded | unknownBitOp
deriving DecidableEq, Repr

def maxInt64 : Int64 := Int64.ofInt (2 ^ 63 - 1)

def minInt64 : Int64 := Int64.ofInt (-2 ^ 63)

def addLongs (v1 v2 : Int64) (above below : NumberError) : Except NumberError Value :=
  if 0 < v2 then if maxInt64 - v2 < v1 then .error above else .ok (.int64 (v1 + v2))
  else if v1 < minInt64 - v2 then .error below else .ok (.int64 (v1 + v2))

def widensSum (v1 v2 : Int32) : Bool :=
  (v2 == Int32.ofInt (2 ^ 31 - 1) && decide (0 < v1)) || (v2 == Int32.ofInt (-2 ^ 31) && decide (v1 < 0))

def multiplyLongSafely (v1 v2 : Int64) : Except NumberError Value :=
  if v1 = 0 ∨ v2 = 0 ∨ v1 = 1 ∨ v2 = 1 then .ok (.int64 (v1 * v2))
  else if v1 = minInt64 ∨ v2 = minInt64 then .error .longExceededNegative
  else if v1 * v2 / v2 ≠ v1 then .error .longExceededPositive
  else .ok (.int64 (v1 * v2))

def multiplyInts (v1 v2 : Int32) : Value :=
  if (v1 * v2).toInt64 ≠ v1.toInt64 * v2.toInt64 then .int64 (v1.toInt64 * v2.toInt64) else .int32 (v1 * v2)

def bitOperation (bitOp : Bytes) : Option ((Int32 → Int32 → Int32) × (Int64 → Int64 → Int64)) :=
  if bitOp = field "and" then some ((· &&& ·), (· &&& ·))
  else if bitOp = field "or" then some ((· ||| ·), (· ||| ·))
  else if bitOp = field "xor" then some ((· ^^^ ·), (· ^^^ ·))
  else none

def performBitLogic (bitOp : Bytes) (v1 v2 : Value) : Except NumberError Value :=
  match bitOperation bitOp with
  | none => .error .unknownBitOp
  | some (narrow, wide) =>
    match v1, v2 with
    | .int32 a, .int32 b => .ok (.int32 (narrow a b))
    | .int32 a, .int64 b => .ok (.int64 (wide a.toInt64 b))
    | .int32 _, _ => .error .unexpectedRight
    | .int64 a, .int32 b => .ok (.int64 (wide a b.toInt64))
    | .int64 a, .int64 b => .ok (.int64 (wide a b))
    | .int64 _, _ => .error .unexpectedRight
    | _, _ => .error .unexpectedLeft

def getWholeNumber : Value → Option Int64
  | .double f =>
    if f.isNaN || f.isInf || decide (2 ^ 63 * (one : Int) < f.units) || decide (f.units < -2 ^ 63 * (one : Int)) ||
        decide (f.units % one ≠ 0) then none
    else some (Int64.ofInt (f.units / one))
  | .int32 n => some n.toInt64
  | .int64 n => some n
  | _ => none

section
variable [UpdateEnv]

def addNumbers : Value → Value → Except NumberError Value
  | .double a, .double b => .ok (.double (UpdateEnv.add a b))
  | .double a, .int32 b => .ok (.double (UpdateEnv.add a (Float64.ofInt b.toInt)))
  | .double a, .int64 b => .ok (.double (UpdateEnv.add a (Float64.ofInt b.toInt)))
  | .double _, _ => .error .unexpectedRight
  | .int32 a, .double b => .ok (.double (UpdateEnv.add b (Float64.ofInt a.toInt)))
  | .int32 a, .int32 b =>
    .ok (if widensSum a b then .int64 (a.toInt64 + b.toInt64) else .int32 (a + b))
  | .int32 a, .int64 b => addLongs a.toInt64 b .longExceededPositive .longExceededNegative
  | .int32 _, _ => .error .unexpectedRight
  | .int64 a, .double b => .ok (.double (UpdateEnv.add b (Float64.ofInt a.toInt)))
  | .int64 a, .int32 b => addLongs a b.toInt64 .intExceeded .intExceeded
  | .int64 a, .int64 b => addLongs a b .longExceededPositive .longExceededNegative
  | .int64 _, _ => .error .unexpectedRight
  | _, _ => .error .unexpectedLeft

def multiplyNumbers : Value → Value → Except NumberError Value
  | .double a, .double b => .ok (.double (UpdateEnv.mul a b))
  | .double a, .int32 b => .ok (.double (UpdateEnv.mul a (Float64.ofInt b.toInt)))
  | .double a, .int64 b => .ok (.double (UpdateEnv.mul a (Float64.ofInt b.toInt)))
  | .double _, _ => .error .unexpectedRight
  | .int32 a, .double b => .ok (.double (UpdateEnv.mul (Float64.ofInt a.toInt) b))
  | .int32 a, .int32 b => .ok (multiplyInts a b)
  | .int32 a, .int64 b => multiplyLongSafely a.toInt64 b
  | .int32 _, _ => .error .unexpectedRight
  | .int64 a, .double b => .ok (.double (UpdateEnv.mul (Float64.ofInt a.toInt) b))
  | .int64 a, .int32 b => (multiplyLongSafely a b.toInt64).mapError fun _ => .intExceeded
  | .int64 a, .int64 b => multiplyLongSafely a b
  | .int64 _, _ => .error .unexpectedRight
  | _, _ => .error .unexpectedLeft

end

/-! What the operators share. -/

abbrev Updated := Except UpdateError (Document × Bool)

def pathOf (key : Bytes) : Except UpdateError (List Bytes) := (NewPathFromString key).mapError .path

def store (d : Document) (path : List Bytes) (v : Value) (changed : Bool) (fault : AccessError → UpdateError) :
    Updated :=
  match SetByPath d path v with
  | .ok after => .ok (after, changed)
  | .error error => .error (fault error)

def unsuitable (_ : AccessError) : UpdateError := .unsuitableValueType

/-- `checkUnsuitableValueError` and `checkUnsuitableValueInArray`: a part of the path exists and
cannot be traversed. -/
def traversalBlocked : List Bytes → Value → Bool
  | p :: q :: path, .document d =>
    match Document.get d p with
    | none => false
    | some v => isScalar v || traversalBlocked (q :: path) v
  | p :: path, .array elems =>
    match atoi p with
    | none => true
    | some index =>
      if index < 0 then true
      else
        match path, elems[index.toNat]? with
        | [], _ => false
        | _, none => false
        | path, some v => isScalar v || traversalBlocked path v
  | _, _ => false

def NumberError.inUpdate : NumberError → UpdateError
  | .unexpectedLeft => .typeMismatch
  | .unexpectedRight => .typeMismatch
  | _ => .badValue

def isNumber : Value → Bool
  | .double _ => true
  | .int32 _ => true
  | .int64 _ => true
  | _ => false

/-- The zero `$mul` puts where there was nothing, of the operand's type. -/
def zeroOf : Value → Option Value
  | .double _ => some (.double (Float64.ofInt 0))
  | .int32 _ => some (.int32 0)
  | .int64 _ => some (.int64 0)
  | _ => none

/-! The operators on fields. -/

/-- `$setOnInsert` leaves null and the empty array out. -/
def skipsInsert : Value → Bool
  | .null => true
  | .array [] => true
  | _ => false

def processSetFieldExpression (d : Document) (setKey : Bytes) (setValue : Value) (setOnInsert : Bool) : Updated :=
  if setOnInsert && skipsInsert setValue then .ok (d, false)
  else do
    let path ← pathOf setKey
    match GetByPath d path with
    | .ok docValue => if Identical setValue docValue then .ok (d, false) else store d path setValue true unsuitable
    | .error _ => store d path setValue true unsuitable

def processUnset (d : Document) (key : Bytes) : Updated := do
  let path ← pathOf key
  return if HasByPath d path then (RemoveByPath d path, true) else (d, false)

/-- The source path of `$rename`; one with outer spaces reads as empty, which is the document. -/
def renameSource (key : Bytes) : Except UpdateError (List Bytes) :=
  match NewPathFromString key with
  | .ok path => .ok path
  | .error .elementEmpty => .error .emptyName
  | .error .elementInvalid => .ok []

def renameTo (d : Document) (source target : List Bytes) : Updated :=
  match GetByPath d source with
  | .ok v => store (RemoveByPath d source) target v true .access
  | .error .keyNotFound => .ok (d, false)
  | .error .indexOutOfBound => .ok (d, false)
  | .error _ => .error .unsuitableValueType

def processRenameFieldExpression (d : Document) (key : Bytes) (value : Value) : Updated :=
  match value with
  | .string newKey =>
    if key = [] ∨ newKey = [] then .error .emptyName
    else do
      let source ← renameSource key
      let target ← pathOf newKey
      renameTo d source target
  | _ => .error .panicked

/-- `$max` and `$min`: the operand replaces a value that compares as `replaced` with it. -/
def processExtreme (replaced : Ordering) (d : Document) (key : Bytes) (value : Value) : Updated := do
  let path ← pathOf key
  match GetByPath d path with
  | .error _ => store d path value true unsuitable
  | .ok docValue => if CompareOrder docValue value = replaced then store d path value true .access else .ok (d, false)

def processMaxFieldExpression : Document → Bytes → Value → Updated := processExtreme .lt

def processMinFieldExpression : Document → Bytes → Value → Updated := processExtreme .gt

/-- `$bit` applies each operation to the value that was there, and keeps the last result. -/
def bitLoop (path : List Bytes) (hasPath : Bool) (docValue : Value) :
    List (Bytes × Value) → Document → Bool → Updated
  | [], d, changed => .ok (d, changed)
  | (bitOp, operand) :: rest, d, changed =>
    match performBitLogic bitOp operand docValue with
    | .error _ => .error .badValue
    | .ok result =>
      match SetByPath d path result with
      | .error _ => .error .unsuitableValueType
      | .ok after => bitLoop path hasPath docValue rest after (changed || !hasPath || !sameNumber docValue result)

def processBitFieldExpression (d : Document) (bitKey : Bytes) (bitValue : Value) : Updated :=
  match bitValue with
  | .document bitDoc =>
    if bitDoc = [] then .error .badValue
    else do
      let path ← pathOf bitKey
      match GetByPath d path with
      | .ok docValue => bitLoop path true docValue bitDoc d false
      | .error _ => bitLoop path false (.int32 0) bitDoc d false
  | _ => .error .badValue

section
variable [UpdateEnv]

/-- A sum equal to a number that is a double is no change, unless that is not a number. -/
def incUnchanged (docValue sum : Value) : Bool :=
  match docValue with
  | .double f => Compare docValue sum == .eq && !f.isNaN
  | _ => false

def processIncFieldExpression (d : Document) (incKey : Bytes) (incValue : Value) : Updated :=
  if !isNumber incValue then .error .typeMismatch
  else do
    let path ← pathOf incKey
    match GetByPath d path with
    | .error _ => store d path incValue true unsuitable
    | .ok docValue =>
      match addNumbers incValue docValue with
      | .error error => .error error.inUpdate
      | .ok sum => store d path sum (!incUnchanged docValue sum) .access

def processMulFieldExpression (d : Document) (mulKey : Bytes) (mulValue : Value) : Updated := do
  let path ← pathOf mulKey
  match GetByPath d path with
  | .error _ =>
    match zeroOf mulValue with
    | none => .error .typeMismatch
    | some zero => store d path zero true unsuitable
  | .ok docValue =>
    match multiplyNumbers mulValue docValue with
    | .error error => .error error.inUpdate
    | .ok product => store d path product (!sameNumber docValue product) .access

/-- `$currentDate` sets the field of that name, dots and all. -/
def processCurrentDateFieldExpression (d : Document) (key : Bytes) (value : Value) : Updated :=
  let type : Option Value :=
    match value with
    | .document options => Document.get options (field "$type")
    | .bool _ => some (.string (field "date"))
    | _ => none
  match type with
  | some (.string s) =>
    if s = field "date" then .ok (setField key (.date UpdateEnv.now) d, true)
    else if s = field "timestamp" then .ok (setField key (.timestamp UpdateEnv.nextTimestamp) d, true)
    else .ok (d, false)
  | _ => .ok (d, false)

end

/-! The operators on arrays. -/

def popped (popValue : Int64) (elems : List Value) : List Value :=
  if popValue = -1 then elems.tail else elems.dropLast

def processPopArrayUpdateExpression (d : Document) (key : Bytes) (value : Value) : Updated :=
  match getWholeNumber value with
  | none => .error .failedToParse
  | some popValue =>
    if popValue ≠ 1 ∧ popValue ≠ -1 then .error .failedToParse
    else do
      let path ← pathOf key
      match GetByPath d path with
      | .error _ => if traversalBlocked path (.document d) then .error .unsuitableValueType else .ok (d, false)
      | .ok (.array []) => .ok (d, false)
      | .ok (.array elems) => store d path (.array (popped popValue elems)) true .access
      | .ok _ => .error .typeMismatch

structure PushSpec where
  each : List Value
  position : Option Int64
  slice : Option Int64
  sort : Option Value

def wholeModifier (options : Document) (name : String) : Except UpdateError (Option Int64) :=
  match options.get (field name) with
  | none => .ok none
  | some v =>
    match getWholeNumber v with
    | some n => .ok (some n)
    | none => .error .badValue

def eachOf (operand : Value) (fault : UpdateError) : Except UpdateError (List Value) :=
  match operand with
  | .document options =>
    match Document.get options (field "$each") with
    | none => .ok [operand]
    | some (.array each) => .ok each
    | some _ => .error fault
  | _ => .ok [operand]

def pushSpec (pushVal : Value) : Except UpdateError PushSpec := do
  let each ← eachOf pushVal .badValue
  match pushVal with
  | .document options =>
    let position ← wholeModifier options "$position"
    let slice ← wholeModifier options "$slice"
    return ⟨each, position, slice, Document.get options (field "$sort")⟩
  | _ => return ⟨each, none, none, none⟩

/-- Where `$position` inserts: from the end when negative, within the array in any case. -/
def insertAt (position : Int64) (length : Nat) : Nat :=
  let pos : Int := if position < 0 then max (length + position.toInt + 1) 0 else position.toInt
  min pos.toNat length

def inserted (spec : PushSpec) (elems : List Value) : List Value :=
  match spec.position with
  | none => elems ++ spec.each
  | some position =>
    let pos := insertAt position elems.length
    elems.take pos ++ spec.each ++ elems.drop pos

/-- `$slice`; the negation of the least integer is negative, and so is the length it asks for. -/
def sliced (n : Int64) (elems : List Value) : Except UpdateError (List Value) :=
  if n = 0 then .ok []
  else if 0 < n then .ok (elems.take n.toInt.toNat)
  else if -n < 0 then .error .panicked
  else .ok (elems.drop (elems.length - (-n).toInt.toNat))

def addAll (elems : List Value) (each : List Value) : List Value × Bool :=
  each.foldl (fun added elem =>
    if arrayContains added.1 elem then added else (added.1 ++ [elem], true)) (elems, false)

/-- The array at a path, an empty one put there first when there is nothing. -/
def arrayAt (d : Document) (path : List Bytes) : Except UpdateError (Document × List Value) :=
  match GetByPath d path with
  | .ok (.array elems) => .ok (d, elems)
  | .ok _ => .error .badValue
  | .error _ =>
    match SetByPath d path (.array []) with
    | .ok after => .ok (after, [])
    | .error _ => .error .unsuitableValueType

def processAddToSetArrayUpdateExpression (d : Document) (key : Bytes) (setVal : Value) : Updated := do
  let each ← eachOf setVal .typeMismatch
  let path ← pathOf key
  let (d, elems) ← arrayAt d path
  let (elems, changed) := addAll elems each
  store d path (.array elems) changed .access

def pullOne (pulled : List Value × Bool) (pullElem : Value) : List Value × Bool :=
  (pulled.1.filter fun elem => Compare elem pullElem != .eq,
    pulled.2 || pulled.1.any fun elem => Compare elem pullElem == .eq)

/-- The array `$pull` and `$pullAll` work on; a missing path is no change. -/
def pullFrom (d : Document) (key : Bytes) (pull : List Value → Except UpdateError (List Value × Bool)) : Updated := do
  let path ← pathOf key
  match GetByPath d path with
  | .error _ => if traversalBlocked path (.document d) then .error .unsuitableValueType else .ok (d, false)
  | .ok (.array elems) => do
    let (elems, changed) ← pull elems
    store d path (.array elems) changed .access
  | .ok _ => .error .badValue

def processPullAllArrayUpdateExpression (d : Document) (key : Bytes) (pullVal : Value) : Updated :=
  match pullVal with
  | .array pulls => pullFrom d key fun elems => .ok (pulls.foldl pullOne (elems, false))
  | _ => .error .badValue

section
variable [QueryEnv]

def pullMatches (pullVal elem : Value) : Except UpdateError Bool :=
  match pullVal with
  | .document pullDoc =>
    (filterDocumentPair [(field "v", elem)] (field "v") (.document pullDoc)).mapError .filter
  | _ => .ok (Compare elem pullVal == .eq)

/-- The elements from the last to the first, without those that match. -/
def pullLoop (pullVal : Value) (elems : List Value) : Except UpdateError (List Value × Bool) :=
  elems.foldrM (fun elem pulled => do
    if ← pullMatches pullVal elem then return (pulled.1, true) else return (elem :: pulled.1, pulled.2)) ([], false)

def processPullArrayUpdateExpression (d : Document) (key : Bytes) (pullVal : Value) : Updated :=
  pullFrom d key (pullLoop pullVal)

end

section
variable [UpdateEnv]

def sortDirection (spec : Value) : SortType :=
  match spec with
  | .int64 n => if n = -1 then .descending else .ascending
  | .int32 n => if n = -1 then .descending else .ascending
  | .double f => if f.eq (Float64.ofInt (-1)) then .descending else .ascending
  | _ => .ascending

def sorted (spec : Value) (elems : List Value) : Except UpdateError (List Value) :=
  match spec with
  | .document keys =>
    match documents elems with
    | none => .error .badValue
    | some docs => do
      let docs ← UpdateEnv.sortDocuments keys docs
      return docs.map .document
  | spec => if isNumber spec then .ok (UpdateEnv.sortArray (sortDirection spec) elems) else .ok elems

/-- `$sort` of an array that is not empty counts as a change. -/
def sortPushed (spec : PushSpec) (pushed : List Value × Bool) : Except UpdateError (List Value × Bool) :=
  match spec.sort with
  | none => .ok pushed
  | some order =>
    if pushed.1.isEmpty then .ok pushed
    else (sorted order pushed.1).map fun elems => (elems, true)

def slicePushed (spec : PushSpec) (pushed : List Value × Bool) : Except UpdateError (List Value × Bool) :=
  match spec.slice with
  | none => .ok pushed
  | some n => (sliced n pushed.1).map fun elems => (elems, true)

def pushInto (spec : PushSpec) (elems : List Value) : Except UpdateError (List Value × Bool) := do
  let pushed ← sortPushed spec (inserted spec elems, !spec.each.isEmpty)
  slicePushed spec pushed

def processPushArrayUpdateExpression (d : Document) (key : Bytes) (pushVal : Value) : Updated := do
  let spec ← pushSpec pushVal
  let path ← pathOf key
  let (d, elems) ← arrayAt d path
  let (elems, changed) ← pushInto spec elems
  store d path (.array elems) changed .access

end

structure KvOp where
  key : Bytes
  value : Value
  operator : Bytes

def keyAtMost (a b : KvOp) : Prop := compare a.key b.key ≠ .gt

instance : DecidableRel keyAtMost := fun a b => inferInstanceAs (Decidable (compare a.key b.key ≠ .gt))

/-- The operators of an update document by key; an operand that is no document was refused before. -/
def getSortedKVOps (update : Document) : List KvOp :=
  (update.flatMap fun entry =>
    match entry.2 with
    | .document operands => operands.map fun operand => ⟨operand.1, operand.2, entry.1⟩
    | _ => []).insertionSort keyAtMost

def hasPositionalOp : Bytes → Bool
  | a :: b :: key => (a == dot && b == 36) || hasPositionalOp (b :: key)
  | _ => false

/-- The `_id` an update must not change, where there was one. -/
def checkID (before after : Document) : Except UpdateError Unit :=
  match before.get idKey, after.get idKey with
  | none, _ => .ok ()
  | some _, none => .error .immutableField
  | some id, some new => if Compare id new = .eq then .ok () else .error .immutableField

section
variable [QueryEnv] [UpdateEnv]

def applyOperator (upsert : Bool) (operator : UpdateOperator) (d : Document) (key : Bytes)
    (value : Value) : Updated :=
  match operator with
  | .currentDate => processCurrentDateFieldExpression d key value
  | .set => processSetFieldExpression d key value false
  | .setOnInsert => if upsert then processSetFieldExpression d key value true else .ok (d, false)
  | .unset => processUnset d key
  | .inc => processIncFieldExpression d key value
  | .max => processMaxFieldExpression d key value
  | .min => processMinFieldExpression d key value
  | .mul => processMulFieldExpression d key value
  | .rename => processRenameFieldExpression d key value
  | .pop => processPopArrayUpdateExpression d key value
  | .push => processPushArrayUpdateExpression d key value
  | .addToSet => processAddToSetArrayUpdateExpression d key value
  | .pull => processPullArrayUpdateExpression d key value
  | .pullAll => processPullAllArrayUpdateExpression d key value
  | .bit => processBitFieldExpression d key value

/-- The keys an operator works on, positional operators expanded on the document as it is. -/
def expandedKeys (d : Document) (key : Bytes) : Except UpdateError (List Bytes) :=
  if hasPositionalOp key then (UpdateEnv.expandPositionalOps key d).mapError fun _ => .badValue else .ok [key]

def applyNamed (upsert : Bool) (op : KvOp) (updated : Document × Bool) (key : Bytes) : Updated :=
  match operatorNamed op.operator with
  | some operator => do
    let (d, changed) ← applyOperator upsert operator updated.1 key op.value
    return (d, updated.2 || changed)
  | none => if isOperatorKey op.operator then .error .notImplemented else .ok updated

def applyKvOp (upsert : Bool) (updated : Document × Bool) (op : KvOp) : Updated := do
  let keys ← expandedKeys updated.1 op.key
  keys.foldlM (applyNamed upsert op) updated

def processUpdateOperator (upsert : Bool) (d update : Document) : Updated := do
  let (after, changed) ← (getSortedKVOps update).foldlM (applyKvOp upsert) (d, false)
  checkID d after
  return (after, changed)

end

def documentKeys (d : Document) : List Bytes := d.map Prod.fst

/-- `Get`, `Set` and `Remove` panic on a key that is there twice. -/
def keysDistinct (d : Document) : Except UpdateError Unit :=
    if (documentKeys d).Nodup then .ok () else .error .panicked

def setAll (d fields : Document) : Document := fields.foldl (fun d entry => setField entry.1 entry.2 d) d

/-- The `_id` of a replacement may stay away, but not be another. -/
def checkReplacementID (d update : Document) : Except UpdateError Unit :=
  match d.get idKey, update.get idKey with
  | some id, some new => if Compare id new = .eq then .ok () else .error .immutableField
  | _, _ => .ok ()

def processReplacementDoc (d update : Document) : Updated :=
  if Compare (.document d) (.document update) = .eq then .ok (d, false)
  else do
    keysDistinct d
    keysDistinct update
    checkReplacementID d update
    let kept := d.filter fun entry => entry.1 == idKey
    return (setAll kept update, d.any (fun entry => entry.1 != idKey) || !update.isEmpty)

/-- `keepPipelineID`: an `_id` the pipeline dropped comes back, first; another one is refused. -/
def keepPipelineID (before doc : Document) : Except UpdateError Document :=
  match before.get idKey, doc.get idKey with
  | none, _ => .ok doc
  | some id, some new => if Compare new id = .eq then .ok doc else .error .immutableField
  | some id, none => .ok (setAll [(idKey, id)] doc)

/-- A pipeline update, from the document its stages gave. -/
def processPipelineUpdate (d updated : Document) : Updated := do
  keysDistinct d
  keysDistinct updated
  let doc ← keepPipelineID d (setAll [] updated)
  return (doc, Compare (.document d) (.document doc) != .eq)

end DumboDB.Handler
