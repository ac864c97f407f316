import DumboDB.Types.Compare

/-!
The KeyString encoding of index values and the secondary keys built from it.
-/

namespace DumboDB.Index
open Foundation ByteOrder Binary64 DumboDB.Types

def ctypeUndefined : UInt8 := 0x0C
def ctypeMinKey : UInt8 := 0x10
def ctypeNull : UInt8 := 0x14
def ctypeNaN : UInt8 := 0x19
def ctypeNegInf : UInt8 := 0x1A
def ctypeNegMedium : UInt8 := 0x22
def ctypeZero : UInt8 := 0x29
def ctypePosMedium : UInt8 := 0x2B
def ctypePosInf : UInt8 := 0x33
def ctypeString : UInt8 := 0x3C
def ctypeObject : UInt8 := 0x46
def ctypeArray : UInt8 := 0x50
def ctypeBinData : UInt8 := 0x5A
def ctypeOID : UInt8 := 0x64
def ctypeBoolFalse : UInt8 := 0x6E
def ctypeBoolTrue : UInt8 := 0x6F
def ctypeDate : UInt8 := 0x78
def ctypeTimestamp : UInt8 := 0x82
def ctypeRegex : UInt8 := 0x8C
def ctypeMaxKey : UInt8 := 0xF0

inductive Arch where
  | amd64 | arm64
deriving DecidableEq, Repr

/-- What the Go language leaves to the implementation: converting a double to an integer type
it does not fit. The signed conversion is the instruction of each architecture; the unsigned
one is left open. -/
class Platform where
  arch : Arch
  uint64Overflow : Float64 → UInt64

/-- The indefinite integer on amd64, saturation on arm64. -/
def int64Overflow (arch : Arch) (f : Float64) : Int64 :=
  match arch with
  | .amd64 => Int64.minValue
  | .arm64 => if f.signbit then Int64.minValue else Int64.maxValue

section
variable [Platform]

/-- `int64(f)` of a number that is not NaN. -/
def toInt64 (f : Float64) : Int64 :=
  let whole := f.units.tdiv one
  if f.isFinite ∧ -2 ^ 63 ≤ whole ∧ whole < 2 ^ 63 then Int64.ofInt whole
  else int64Overflow Platform.arch f

/-- `uint64(f)` of a number that is not NaN. -/
def toUInt64 (f : Float64) : UInt64 :=
  let whole := f.units.tdiv one
  if f.isFinite ∧ 0 ≤ whole ∧ whole < 2 ^ 64 then UInt64.ofNat whole.toNat
  else Platform.uint64Overflow f

end

def minBytesForUint (n : UInt64) : Nat :=
  if n ≤ 0xFF then 1
  else if n ≤ 0xFFFF then 2
  else if n ≤ 0xFFFFFF then 3
  else if n ≤ 0xFFFFFFFF then 4
  else if n ≤ 0xFFFFFFFFFF then 5
  else if n ≤ 0xFFFFFFFFFFFF then 6
  else if n ≤ 0xFFFFFFFFFFFFFF then 7
  else 8

def encodePosInt (n : UInt64) : Bytes :=
  let byteCount := minBytesForUint n
  (ctypePosMedium + UInt8.ofNat (byteCount - 1)) :: beBytes byteCount n.toNat

/-- The magnitude of a negative integer, `math.MinInt64` apart. -/
def magnitude (n : Int64) : UInt64 :=
  if n = Int64.minValue then Int64.maxValue.toUInt64 + 1 else (-n).toUInt64

def encodeNegInt (n : Int64) : Bytes :=
  let mag := magnitude n
  let byteCount := minBytesForUint mag
  (ctypeNegMedium - UInt8.ofNat (byteCount - 1)) :: (beBytes byteCount mag.toNat).map (~~~ ·)

def encodeInt64 (n : Int64) : Bytes :=
  if n = 0 then [ctypeZero]
  else if 0 < n then encodePosInt n.toUInt64
  else encodeNegInt n

def appendFraction (out : Bytes) (frac : Float64) : Bytes := out ++ beBytes 8 frac.bits.toNat

/-- The untyped constants `math.MinInt64` and `math.MaxInt64` as doubles; the second rounds. -/
def minInt64Float : Float64 := Float64.ofInt (-2 ^ 63)
def maxInt64Float : Float64 := Float64.ofInt (2 ^ 63 - 1)

def encodeFloat64 [Platform] (f : Float64) : Bytes :=
  if f.isNaN then [ctypeNaN]
  else if f.isInf && f.signbit then [ctypeNegInf]
  else if f.isInf then [ctypePosInf]
  else if f.eq (Float64.ofInt 0) then [ctypeZero]
  else if f.eq f.trunc && minInt64Float.le f && f.le maxInt64Float then encodeInt64 (toInt64 f)
  else if (Float64.ofInt 0).lt f then
    let ip := f.floor
    appendFraction (encodePosInt (toUInt64 ip)) (f.sub ip)
  else
    let mag := f.neg.ceil
    appendFraction (encodeNegInt (toInt64 mag.neg)) (mag.add f)

def encodeString (s : Bytes) : Bytes := ctypeString :: terminated s

def EncodeValue [Platform] : Value → Bytes
  | .null => [ctypeNull]
  | .bool b => if b then [ctypeBoolTrue] else [ctypeBoolFalse]
  | .int32 n => encodeInt64 n.toInt64
  | .int64 n => encodeInt64 n
  | .double f => encodeFloat64 f
  | .string s => encodeString s
  | .objectID id => ctypeOID :: id.bytes
  | .date millis => ctypeDate :: beBytes 8 millis.toUInt64.toNat
  | .binary b => ctypeBinData :: b.subtype :: b.b
  | .timestamp t => ctypeTimestamp :: beBytes 8 t.toNat
  | .regex r => ctypeRegex :: (terminated r.pattern ++ terminated r.options)
  | .document _ => [ctypeObject]
  | .array _ => [ctypeArray]
  | .undefined => [ctypeUndefined]
  | .maxKey => [ctypeMaxKey]
  | .minKey => [ctypeMinKey]
  | .decimal128 _ => [ctypeNull]

def EncodeValueLossy : Value → Bool
  | .decimal128 _ => true
  | _ => false

def maxEncodable : Float64 := Float64.ofInt (2 ^ 64)
def minEncodable : Float64 := Float64.ofInt (-2 ^ 63)

def ValueLossy (v : Value) : Bool :=
  if EncodeValueLossy v then true
  else
    match v with
    | .double f =>
      if f.isNaN || f.isInf || f.eq (Float64.ofInt 0) then false
      else f.eq f.trunc && (maxEncodable.le f || f.lt minEncodable)
    | _ => false

def discriminator : UInt8 := 0x04

section
variable [Platform]

/-- `[KeyString(fieldValues...)][0x04][primaryIDBytes]`. -/
def BuildSecondaryKey (fieldValues : List Value) (primaryIDBytes : Bytes) : Bytes :=
  fieldValues.flatMap EncodeValue ++ discriminator :: primaryIDBytes

def LowerBoundInclusive (v : Value) : Bytes := EncodeValue v ++ [discriminator]
def LowerBoundExclusive (v : Value) : Bytes := EncodeValue v ++ [discriminator + 1]
def UpperBoundExclusive (v : Value) : Bytes := EncodeValue v ++ [discriminator]
def UpperBoundInclusive (v : Value) : Bytes := EncodeValue v ++ [discriminator + 1]

end

/-- The `[start, stop)` range of a value's type bracket. -/
def BracketRange : Value → Option (Bytes × Bytes)
  | .int32 _ => some ([ctypeNegInf], [ctypePosInf + 1])
  | .int64 _ => some ([ctypeNegInf], [ctypePosInf + 1])
  | .double _ => some ([ctypeNegInf], [ctypePosInf + 1])
  | .string _ => some ([ctypeString], [ctypeString + 1])
  | .date _ => some ([ctypeDate], [ctypeDate + 1])
  | .objectID _ => some ([ctypeOID], [ctypeOID + 1])
  | .bool _ => some ([ctypeBoolFalse], [ctypeBoolTrue + 1])
  | .binary _ => some ([ctypeBinData], [ctypeBinData + 1])
  | .timestamp _ => some ([ctypeTimestamp], [ctypeTimestamp + 1])
  | _ => none

/-- A key inside `[start, stop)`, an empty bound being open. -/
def InRange (start stop key : Bytes) : Prop :=
  compare start key ≠ .gt ∧ (stop = [] ∨ compare key stop = .lt)

instance (start stop key : Bytes) : Decidable (InRange start stop key) :=
  inferInstanceAs (Decidable (_ ∧ _))

end DumboDB.Index
