import DumboDB.Dolt.Bson
import DumboDB.Handler.Filter
import DumboDB.Index.KeyString

/-!
The byte-level scan prefilter. A position in a buffer is carried as the bytes from there on
and the number of bytes left before the end of the walk.
-/

namespace DumboDB.Dolt
open Foundation ByteOrder Binary64 DumboDB.Types Handler Index

def bsonTypeDouble : UInt8 := 0x01
def bsonTypeString : UInt8 := 0x02
def bsonTypeDocument : UInt8 := 0x03
def bsonTypeArray : UInt8 := 0x04
def bsonTypeBinary : UInt8 := 0x05
def bsonTypeObjectID : UInt8 := 0x07
def bsonTypeBool : UInt8 := 0x08
def bsonTypeDate : UInt8 := 0x09
def bsonTypeNull : UInt8 := 0x0A
def bsonTypeRegex : UInt8 := 0x0B
def bsonTypeInt32 : UInt8 := 0x10
def bsonTypeTime : UInt8 := 0x11
def bsonTypeInt64 : UInt8 := 0x12
def bsonTypeDecimal : UInt8 := 0x13
def bsonTypeMinKey : UInt8 := 0xFF
def bsonTypeMaxKey : UInt8 := 0x7F

def uint32At (buf : Bytes) : Nat := leNat (buf.take 4)

def uint64At (buf : Bytes) : UInt64 := UInt64.ofNat (leNat (buf.take 8))

/-- The bytes up to a zero byte, and those behind it. -/
def cstring : Bytes → Option (Bytes × Bytes)
  | [] => none
  | b :: s => if b = 0 then some ([], s) else (cstring s).map fun (name, rest) => (b :: name, rest)

/-- A length that must not pass the end of the walk by more than its last byte. -/
def within (left length : Nat) : Option Nat := if length ≤ left + 1 then some length else none

/-- `bsonValueEnd`: the length of the value at the head of the buffer. -/
def bsonValueEnd (buf : Bytes) (typeByte : UInt8) (left : Nat) : Option Nat :=
  if typeByte = bsonTypeDouble ∨ typeByte = bsonTypeDate ∨ typeByte = bsonTypeTime ∨
      typeByte = bsonTypeInt64 then within left 8
  else if typeByte = bsonTypeInt32 then within left 4
  else if typeByte = bsonTypeBool then within left 1
  else if typeByte = bsonTypeObjectID then within left 12
  else if typeByte = bsonTypeNull ∨ typeByte = bsonTypeMinKey ∨ typeByte = bsonTypeMaxKey then some 0
  else if typeByte = bsonTypeString then
    if buf.length < 4 then none else within left (4 + uint32At buf)
  else if typeByte = bsonTypeBinary then
    if buf.length < 5 then none else within left (5 + uint32At buf)
  else if typeByte = bsonTypeDecimal then within left 16
  else if typeByte = bsonTypeRegex then do
    let (pattern, rest) ← cstring buf
    let (options, _) ← cstring rest
    within left (pattern.length + 1 + options.length + 1)
  else if typeByte = bsonTypeDocument ∨ typeByte = bsonTypeArray then
    if buf.length < 4 then none else within left (uint32At buf)
  else none

inductive Element where
  | finished
  | terminator
  | anomaly
  | element (typeByte : UInt8) (name value rest : Bytes) (left : Nat)

/-- The element whose value has the length found for it. -/
def elementOf (typeByte : UInt8) (name value : Bytes) (left : Nat) : Option Nat → Element
  | none => .anomaly
  | some length => .element typeByte name (value.take length) (value.drop length) (left - length)

def nextElement (buf : Bytes) (left : Nat) : Element :=
  if left = 0 then .finished
  else
    match buf with
    | [] => .anomaly
    | typeByte :: afterTag =>
      if typeByte = 0 then .terminator
      else
        match cstring (afterTag.take (left - 1)) with
        | none => .anomaly
        | some (name, _) =>
          let value := afterTag.drop (name.length + 1)
          let valueLeft := left - 1 - (name.length + 1)
          elementOf typeByte name value valueLeft (bsonValueEnd value typeByte valueLeft)

/-- A walk over elements until `use` settles the result; the fuel is never short when it is at
least the number of bytes. -/
def walkElements {α : Type} (finished terminator anomaly : α) (use : UInt8 → Bytes → Bytes → Option α) :
    Nat → Bytes → Nat → α
  | 0, _, _ => anomaly
  | fuel + 1, buf, left =>
    match nextElement buf left with
    | .finished => finished
    | .terminator => terminator
    | .anomaly => anomaly
    | .element typeByte name value rest left =>
      match use typeByte name value with
      | some result => result
      | none => walkElements finished terminator anomaly use fuel rest left

def walkEnd (docLen have_ : Nat) (complete : Bool) : Option Nat :=
  if docLen ≤ have_ then some (docLen - 1)
  else if complete then none
  else some have_

/-- The values the equality walker compares with; an ObjectID by its bytes. -/
def normaliseFilterValue : Value → Option Value
  | .int32 n => some (.int32 n)
  | .int64 n => some (.int64 n)
  | .double f => some (.double f)
  | .string s => some (.string s)
  | .bool b => some (.bool b)
  | .date millis => some (.date millis)
  | .objectID id => some (.objectID id)
  | _ => none

section
variable [Platform]

def bsonNumericAsFloat (typeByte : UInt8) (valueBytes : Bytes) : Option Float64 :=
  if typeByte = bsonTypeInt32 then
    if valueBytes.length < 4 then none
    else some (Float64.ofInt (UInt32.ofNat (uint32At valueBytes)).toInt32.toInt)
  else if typeByte = bsonTypeInt64 then
    if valueBytes.length < 8 then none
    else
      let n := (uint64At valueBytes).toInt64
      let f := Float64.ofInt n.toInt
      if toInt64 f = n then some f else none
  else if typeByte = bsonTypeDouble then
    if valueBytes.length < 8 then none else some ⟨uint64At valueBytes⟩
  else none

def scalarMatch (typeByte : UInt8) (valueBytes : Bytes) (target : Value) : Bool :=
  match target with
  | .int32 t =>
    match bsonNumericAsFloat typeByte valueBytes with
    | some f => f.eq (Float64.ofInt t.toInt)
    | none => false
  | .int64 t =>
    match bsonNumericAsFloat typeByte valueBytes with
    | some f => f.eq (Float64.ofInt t.toInt)
    | none => false
  | .double t =>
    match bsonNumericAsFloat typeByte valueBytes with
    | some f => if t.isNaN || f.isNaN then false else f.eq t
    | none => false
  | .string t =>
    typeByte == bsonTypeString && decide (4 ≤ valueBytes.length) &&
      decide (1 ≤ uint32At valueBytes) && decide (4 + uint32At valueBytes ≤ valueBytes.length) &&
      (valueBytes.drop 4).take (uint32At valueBytes - 1) == t
  | .bool t =>
    match valueBytes with
    | b :: _ => typeByte == bsonTypeBool && (b != 0) == t
    | [] => false
  | .objectID t =>
    typeByte == bsonTypeObjectID && decide (12 ≤ valueBytes.length) && valueBytes.take 12 == t.bytes
  | .date t =>
    typeByte == bsonTypeDate && decide (8 ≤ valueBytes.length) && (uint64At valueBytes).toInt64 == t
  | _ => false

def bsonValueEqualsOrContains (typeByte : UInt8) (valueBytes : Bytes) (target : Value) : Bool :=
  if scalarMatch typeByte valueBytes target then true
  else if typeByte ≠ bsonTypeArray then false
  else if valueBytes.length < 5 then true
  else if valueBytes.length < uint32At valueBytes then true
  else
    walkElements false false true (fun tb _ value => if scalarMatch tb value target then some true else none)
      valueBytes.length (valueBytes.drop 4) (uint32At valueBytes - 1 - 4)

/-- An equality walk answers true whenever it cannot tell. -/
def walkTopLevelEqualityIn (doc field : Bytes) (target : Value) (complete : Bool) : Bool :=
  if doc.length < 5 then true
  else
    match walkEnd (uint32At doc) doc.length complete with
    | none => true
    | some end_ =>
      walkElements (!complete) (!complete) true (fun typeByte name value =>
          if name = field then some (bsonValueEqualsOrContains typeByte value target) else none)
        doc.length (doc.drop 4) (end_ - 4)

inductive RangeProbe where
  | found (f : Float64)
  | missing
  | bail

def probeNumber (typeByte : UInt8) (value : Bytes) : RangeProbe :=
  match bsonNumericAsFloat typeByte value with
  | none => .bail
  | some f => if f.isNaN || f.isInf then .bail else .found f

def scanTopLevelBSONNumericIn (doc field : Bytes) (complete : Bool) : RangeProbe :=
  if doc.length < 5 then .bail
  else
    match walkEnd (uint32At doc) doc.length complete with
    | none => .bail
    | some end_ =>
      walkElements (if complete then .missing else .bail) .missing .bail
        (fun typeByte name value => if name = field then some (probeNumber typeByte value) else none)
        doc.length (doc.drop 4) (end_ - 4)

def numericBoundFloat64 : Value → Option Float64
  | .int32 n => some (Float64.ofInt n.toInt)
  | .int64 n =>
    let f := Float64.ofInt n.toInt
    if toInt64 f = n then some f else none
  | .double f => if f.isNaN || f.isInf then none else some f
  | _ => none

end

/-- One side of a numeric range: the bound and whether it is included. -/
abbrev Bound := Option (Float64 × Bool)

/-- The tighter of a side's bound and a new one, `beyond` saying which of two is looser. -/
def tighten (beyond : Float64 → Float64 → Bool) (cur : Bound) (nv : Float64) (nIncl : Bool) : Bound :=
  match cur with
  | none => some (nv, nIncl)
  | some (curVal, curIncl) =>
    if beyond curVal nv then some (nv, nIncl)
    else if beyond nv curVal then some (curVal, curIncl)
    else some (curVal, curIncl && nIncl)

def tightenLo : Bound → Float64 → Bool → Bound := tighten fun a b => a.lt b
def tightenHi : Bound → Float64 → Bool → Bound := tighten fun a b => b.lt a

section
variable [Platform]

/-- The loop that collects the two sides of an operator document. -/
def rangeBounds : List (Bytes × Value) → Bound → Bound → Option (Bound × Bound)
  | [], lo, hi => some (lo, hi)
  | (k, ov) :: rest, lo, hi => do
    let fv ← numericBoundFloat64 ov
    if k = opGt then rangeBounds rest (tightenLo lo fv false) hi
    else if k = opGte then rangeBounds rest (tightenLo lo fv true) hi
    else if k = opLt then rangeBounds rest lo (tightenHi hi fv false)
    else if k = opLte then rangeBounds rest lo (tightenHi hi fv true)
    else none

end

def passes (strict weak : Float64 → Float64 → Bool) (v : Float64) : Bound → Bool
  | none => true
  | some (bound, incl) => if incl then weak bound v else strict bound v

def aboveLo : Float64 → Bound → Bool := passes (fun lo v => lo.lt v) fun lo v => lo.le v
def belowHi : Float64 → Bound → Bool := passes (fun hi v => v.lt hi) fun hi v => v.le hi

def stripVersionPermissive (stored : Bytes) : Option Bytes :=
  match stored with
  | version :: rest => if version = bsonFormatVersion then some rest else none
  | [] => none

abbrev ScanPredicate := Bytes → Bool → Bool

section
variable [Platform]

def buildBSONNumericRangePredicate (field : Bytes) (opDoc : Document) : Option ScanPredicate :=
  if opDoc.isEmpty then none
  else do
    let (lo, hi) ← rangeBounds opDoc none none
    if lo.isNone && hi.isNone then none
    else
      some fun stored complete =>
        match stripVersionPermissive stored with
        | none => true
        | some doc =>
          match scanTopLevelBSONNumericIn doc field complete with
          | .bail => true
          | .missing => false
          | .found v => aboveLo v lo && belowHi v hi

def buildBSONFieldPredicate (field : Bytes) (value : Value) : Option ScanPredicate :=
  match value with
  | .document opDoc => buildBSONNumericRangePredicate field opDoc
  | value => do
    let target ← normaliseFilterValue value
    some fun stored complete =>
      match stripVersionPermissive stored with
      | none => true
      | some doc => walkTopLevelEqualityIn doc field target complete

/-- One predicate per filter field, or none when some field has none. -/
def scanPredicates : List (Bytes × Value) → Option (List ScanPredicate)
  | [] => some []
  | (field, v) :: rest =>
    if isOperatorKey field || hasDot field then none
    else do
      let pred ← buildBSONFieldPredicate field v
      let preds ← scanPredicates rest
      some (pred :: preds)

def matchScanPredicates (preds : List ScanPredicate) (stored : Bytes) (complete : Bool) : Bool :=
  preds.all fun pred => pred stored complete

def buildScanPrefilter (filter : Document) : Option (Bytes → Bool) := do
  let preds ← scanPredicates filter
  if preds.isEmpty then none else some fun stored => matchScanPredicates preds stored true

end

end DumboDB.Dolt
