import DumboDB.Foundation.ByteOrder
import DumboDB.Foundation.Binary64
import Mathlib.Data.Rat.Defs

/-!
BSON values and documents. Strings and keys are the byte strings Go holds; a date is its
milliseconds since the epoch, the only part of it that comparison and encoding read.
-/

namespace DumboDB.Types
open Foundation ByteOrder Binary64

def ascii (text : List Char) : Bytes := text.map fun c => UInt8.ofNat c.toNat

structure Binary where
  subtype : UInt8
  b : Bytes
deriving DecidableEq, Repr

structure ObjectID where
  bytes : Bytes
  width : bytes.length = 12
deriving DecidableEq, Repr

structure Regex where
  pattern : Bytes
  options : Bytes
deriving DecidableEq, Repr

structure Decimal128 where
  h : UInt64
  l : UInt64
deriving DecidableEq, Repr

inductive Value where
  | double (f : Float64)
  | string (s : Bytes)
  | document (fields : List (Bytes × Value))
  | array (elems : List Value)
  | binary (b : Binary)
  | undefined
  | objectID (id : ObjectID)
  | bool (b : Bool)
  | date (millis : Int64)
  | null
  | regex (r : Regex)
  | int32 (n : Int32)
  | timestamp (t : UInt64)
  | int64 (n : Int64)
  | decimal128 (d : Decimal128)
  | minKey
  | maxKey

abbrev Document := List (Bytes × Value)

def Document.get (d : Document) (key : Bytes) : Option Value :=
  (d.find? fun field => field.1 == key).map Prod.snd

@[simp] theorem get_nil (key : Bytes) : Document.get [] key = none := rfl

@[simp] theorem get_cons (k : Bytes) (v : Value) (d : Document) (key : Bytes) :
    Document.get ((k, v) :: d) key = if k = key then some v else Document.get d key := by
  by_cases same : k = key <;> simp [Document.get, same]

theorem mem_of_get {d : Document} {key : Bytes} {v : Value} (held : Document.get d key = some v) : (key, v) ∈ d := by
  induction d with
  | nil => simp at held
  | cons field d ih =>
    obtain ⟨k, w⟩ := field
    rw [get_cons] at held
    split at held
    next _ =>
      simp_all
    · exact List.mem_cons_of_mem _ (ih held)

def isScalar : Value → Bool
  | .document _ => false
  | .array _ => false
  | _ => true

/-- What `numericParts` extracts from a number: its class, and the exact value of a finite one. -/
inductive NumericParts where
  | nan
  | negInf
  | finite (r : ℚ)
  | posInf
deriving DecidableEq

def minDecimal128Exp : Int := -6176

/-- The driver's `Decimal128.BigInt`, as the number it denotes: binary integer significand
with fourteen exponent bits, significands beyond 113 bits reading as zero. -/
def Decimal128.parts (d : Decimal128) : NumericParts :=
  let high := d.h.toNat
  let positive := high / 2 ^ 63 % 2 = 0
  if high / 2 ^ 58 % 2 ^ 5 = 0x1F then .nan
  else if high / 2 ^ 58 % 2 ^ 5 = 0x1E then if positive then .posInf else .negInf
  else
    let wide := high / 2 ^ 61 % 4 = 3
    let biased : Nat := if wide then high / 2 ^ 47 % 2 ^ 14 else high / 2 ^ 49 % 2 ^ 14
    let exp : Int := biased + minDecimal128Exp
    let significand : Nat := if wide then 0 else high % 2 ^ 49 * 2 ^ 64 + d.l.toNat
    let coeff : Int := if positive then significand else -significand
    if 0 ≤ exp then .finite (coeff * 10 ^ exp.toNat) else .finite (mkRat coeff (10 ^ (-exp).toNat))

def floatParts (f : Float64) : NumericParts :=
  if f.isNaN then .nan
  else if f.isInf then if f.signbit then .negInf else .posInf
  else .finite (mkRat f.units one)

def numericParts : Value → Option NumericParts
  | .int32 n => some (.finite n.toInt)
  | .int64 n => some (.finite n.toInt)
  | .double f => some (floatParts f)
  | .decimal128 d => some d.parts
  | _ => none

end DumboDB.Types
