import DumboDB.Types.Value

/-!
`types.Compare` and the type order, as the source computes them. `CompareResult` is `Ordering`.
-/

namespace DumboDB.Types
open Foundation ByteOrder Binary64

inductive DataType where
  | minKey | undefined | null | nan | numbers | string | document | array | binData | objectID
  | boolean | date | timestamp | regex | maxKey
deriving DecidableEq, Repr

def DataType.rank : DataType → Nat
  | .minKey => 1
  | .undefined => 2
  | .null => 3
  | .nan => 4
  | .numbers => 5
  | .string => 6
  | .document => 7
  | .array => 8
  | .binData => 9
  | .objectID => 10
  | .boolean => 11
  | .date => 12
  | .timestamp => 13
  | .regex => 14
  | .maxKey => 15

def decimalIsNaN (d : Decimal128) : Bool := decide (d.parts = .nan)

def detectDataType : Value → DataType
  | .document _ => .document
  | .array _ => .array
  | .double f => if f.isNaN then .nan else .numbers
  | .string _ => .string
  | .binary _ => .binData
  | .objectID _ => .objectID
  | .bool _ => .boolean
  | .date _ => .date
  | .null => .null
  | .regex _ => .regex
  | .int32 _ => .numbers
  | .timestamp _ => .timestamp
  | .int64 _ => .numbers
  | .decimal128 d => if decimalIsNaN d then .nan else .numbers
  | .minKey => .minKey
  | .undefined => .undefined
  | .maxKey => .maxKey

def compareTypeOrder (a b : Value) : Ordering :=
  compare (detectDataType a).rank (detectDataType b).rank

def maxExactFloatInt : Int := 2 ^ 53

def asInt64 : Value → Option Int64
  | .int32 n => some n.toInt64
  | .int64 n => some n
  | _ => none

def asFloat64 : Value → Option Float64
  | .double f => some f
  | _ => none

/-- NaN is below every other number and equal to itself. -/
def compareFloats (a b : Float64) : Ordering :=
  match a.isNaN, b.isNaN with
  | true, true => .eq
  | true, false => .lt
  | false, true => .gt
  | false, false => if a.eq b then .eq else if a.lt b then .lt else .gt

def exactFloatInt (n : Int64) : Bool :=
  decide (-maxExactFloatInt < n.toInt ∧ n.toInt < maxExactFloatInt)

def compareNumericFast (v1 v2 : Value) : Option Ordering :=
  match asInt64 v1, asInt64 v2, asFloat64 v1, asFloat64 v2 with
  | some i1, some i2, _, _ => some (compare i1 i2)
  | _, _, some f1, some f2 => some (compareFloats f1 f2)
  | some i1, _, _, some f2 =>
    if exactFloatInt i1 then some (compareFloats (Float64.ofInt i1.toInt) f2) else none
  | _, some i2, some f1, _ =>
    if exactFloatInt i2 then some (compareFloats f1 (Float64.ofInt i2.toInt)) else none
  | _, _, _, _ => none

def NumericParts.cls : NumericParts → Nat
  | .nan => 0
  | .negInf => 1
  | .finite _ => 2
  | .posInf => 3

def NumericParts.rat : NumericParts → ℚ
  | .finite r => r
  | _ => 0

def compareNumeric (v1 v2 : Value) : Option Ordering :=
  match compareNumericFast v1 v2 with
  | some result => some result
  | none =>
    match numericParts v1, numericParts v2 with
    | some (.finite r1), some (.finite r2) => some (compare r1 r2)
    | some p1, some p2 => some (compare (NumericParts.cls p1) (NumericParts.cls p2))
    | _, _ => none

/-- Scalars: numbers by exact value, every other type within itself, different types by the
type order. -/
def compareScalars (v1 v2 : Value) : Ordering :=
  if isScalar v1 && isScalar v2 then
    match compareNumeric v1 v2 with
    | some result => result
    | none =>
      match v1, v2 with
      | .string a, .string b => compare a b
      | .binary a, .binary b =>
        (compare a.b.length b.b.length).then
          ((compare a.subtype b.subtype).then (compare a.b b.b))
      | .objectID a, .objectID b => compare a.bytes b.bytes
      | .bool a, .bool b => if a = b then .eq else if b then .lt else .gt
      | .date a, .date b => compare a b
      | .null, .null => .eq
      | .regex a, .regex b =>
        compare (a.pattern ++ 0 :: a.options) (b.pattern ++ 0 :: b.options)
      | .timestamp a, .timestamp b => compare a b
      | .undefined, .undefined => .eq
      | .minKey, .minKey => .eq
      | .maxKey, .maxKey => .eq
      | _, _ => compareTypeOrder v1 v2
  else compareTypeOrder v1 v2

mutual

def Compare : Value → Value → Ordering
  | .document a, .document b => compareDocuments a b
  | .document a, b => compareTypeOrder (.document a) b
  | .array as, .array bs => compareArrays as bs
  | .array as, b => compareArray as b .eq false
  | a, b => compareScalars a b

/-- Field by field: type of the value, key, then the value itself. -/
def compareDocuments : List (Bytes × Value) → List (Bytes × Value) → Ordering
  | [], [] => .eq
  | [], _ :: _ => .lt
  | _ :: _, [] => .gt
  | (aKey, aValue) :: a, (bKey, bValue) :: b =>
    (compareTypeOrder aValue bValue).then
      ((compare aKey bKey).then ((Compare aValue bValue).then (compareDocuments a b)))

/-- Index by index, each by type order and then by value. -/
def compareArrays : List Value → List Value → Ordering
  | [], [] => .eq
  | [], _ :: _ => .lt
  | _ :: _, [] => .gt
  | a :: as, b :: bs =>
    ((compareTypeOrder a b).then (Compare a b)).then (compareArrays as bs)

/-- The loop of `compareArray` against a value that is no array, with its two variables. -/
def compareArray : List Value → Value → Ordering → Bool → Ordering
  | [], _, result, comparable => if comparable then result else .lt
  | a :: as, b, _, comparable =>
    match compareTypeOrder a b with
    | .eq =>
      match Compare a b with
      | .eq => .eq
      | result => compareArray as b result true
    | result => compareArray as b result comparable

end

/-- As `Compare`, except that an array equals nothing that it contains. -/
def CompareForAggregation (docValue filterValue : Value) : Ordering :=
  match docValue, filterValue with
  | .document a, .document b => compareDocuments a b
  | .array as, .array bs => compareArrays as bs
  | .document _, _
  | .array _, _ => compareTypeOrder docValue filterValue
  | _, _ => compareScalars docValue filterValue

inductive SortType where
  | ascending | descending
deriving DecidableEq, Repr

def CompareOrder (a b : Value) : Ordering := (compareTypeOrder a b).then (Compare a b)

/-- `Array.Min` of a nonempty array, the first of equal elements. -/
def arrayMin (first : Value) (rest : List Value) : Value :=
  rest.foldl (fun min value => if CompareOrder min value = .gt then value else min) first

def arrayMax (first : Value) (rest : List Value) : Value :=
  rest.foldl (fun max value => if CompareOrder max value = .lt then value else max) first

def getComparisonElementFromArray (elems : List Value) (order : SortType) : Value :=
  match elems, order with
  | [], _ => .array []
  | first :: rest, .ascending => arrayMin first rest
  | first :: rest, .descending => arrayMax first rest

def FilterArrayByType (elems : List Value) (ref : Value) : List Value :=
  elems.filter fun value => detectDataType ref = detectDataType value

/-- The value that stands for `a` in a sort. -/
def sortElement (a : Value) (order : SortType) : Value :=
  match a with
  | .array elems => getComparisonElementFromArray elems order
  | a => a

def SortType.apply (order : SortType) (result : Ordering) : Ordering :=
  match order with
  | .ascending => result
  | .descending => result.swap

def CompareOrderForSort (a b : Value) (order : SortType) : Ordering :=
  match a, b with
  | .array [], .array [] => .eq
  | .array [], _ => order.apply .lt
  | _, .array [] => order.apply .gt
  | a, b => order.apply (CompareOrder (sortElement a order) (sortElement b order))

/-- The result a type mismatch gets, which no range operator accepts. -/
def mismatch : SortType → Ordering
  | .ascending => .gt
  | .descending => .lt

def CompareOrderForOperator (a b : Value) (order : SortType) : Ordering :=
  let sameType (a : Value) := if compareTypeOrder a b = .eq then Compare a b else mismatch order
  match a, b with
  | .array [], .array [] => .eq
  | .array as, .array _ => sameType (.array as)
  | .array as, b => sameType (getComparisonElementFromArray (FilterArrayByType as b) order)
  | _, .array [] => mismatch order
  | a, _ => sameType a

def arrayContains (elems : List Value) (filterValue : Value) : Bool :=
  if isScalar filterValue then
    elems.any fun elem => isScalar elem && compareScalars elem filterValue == .eq
  else
    Compare (.array elems) filterValue == .eq || elems.any fun elem => Compare elem filterValue == .eq

end DumboDB.Types
