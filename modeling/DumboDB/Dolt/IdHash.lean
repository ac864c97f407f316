import DumboDB.Dolt.Bson

/-!
The primary key of a document: a digest of its `_id`, equal numbers of any type sharing one.
-/

namespace DumboDB.Dolt
open Foundation ByteOrder DumboDB.Types

def primaryIDLen : Nat := 20

class Digest where
  sha512Key : Bytes → Bytes
  width : ∀ b, (sha512Key b).length = primaryIDLen

/-- `strconv.FormatInt(i, 10)`. -/
def formatInt (i : Int) : Bytes := if i < 0 then 45 :: decimal i.natAbs else decimal i.natAbs

/-- `big.Rat.RatString`. -/
def ratString (r : ℚ) : Bytes :=
  if r.den = 1 then formatInt r.num else formatInt r.num ++ 47 :: decimal r.den

def numericValueToken (v : Value) : Option Bytes :=
  (numericParts v).map fun
    | .nan => ascii ['n', 'a', 'n']
    | .posInf => ascii ['+', 'i', 'n', 'f']
    | .negInf => ascii ['-', 'i', 'n', 'f']
    | .finite r => ratString r

def numericToInt64 (v : Value) : Option Int64 :=
  match numericParts v with
  | some (.finite r) =>
    if r.den = 1 ∧ -2 ^ 63 ≤ r.num ∧ r.num < 2 ^ 63 then some (Int64.ofInt r.num) else none
  | _ => none

/-- The bytes `binary.AppendUvarint` adds for a number of at most `groups` seven-bit groups. -/
def uvarintGroups : Nat → Nat → Bytes
  | 0, _ => []
  | groups + 1, n =>
    if n < 0x80 then [UInt8.ofNat n] else UInt8.ofNat (n % 0x80 + 0x80) :: uvarintGroups groups (n / 0x80)

def uvarint (n : Nat) : Bytes := uvarintGroups 10 n

def lenBytes (b : Bytes) : Bytes := uvarint b.length ++ b

mutual

/-- What `appendCanonicalValue` appends, when it accepts the value. -/
def canonicalBytes : Value → Option Bytes
  | .string s => some (83 :: lenBytes s)
  | .objectID id => some (79 :: id.bytes)
  | .binary b => some (66 :: b.subtype :: lenBytes b.b)
  | .bool b => some [76, if b then 1 else 0]
  | .date millis => some (84 :: beBytes 8 millis.toUInt64.toNat)
  | .null => some [90]
  | .regex r => some (82 :: lenBytes r.pattern ++ lenBytes r.options)
  | .timestamp t => some (80 :: beBytes 8 t.toNat)
  | .minKey => some [60]
  | .maxKey => some [62]
  | .document fields => (canonicalFieldBytes fields).map fun s => 68 :: uvarint fields.length ++ s
  | .array elems => (canonicalElemBytes elems).map fun s => 65 :: uvarint elems.length ++ s
  | .undefined => none
  | v => (numericValueToken v).map fun token => 78 :: lenBytes token

def canonicalFieldBytes : List (Bytes × Value) → Option Bytes
  | [] => some []
  | (key, v) :: rest => do
    let value ← canonicalBytes v
    let others ← canonicalFieldBytes rest
    return lenBytes key ++ value ++ others

def canonicalElemBytes : List Value → Option Bytes
  | [] => some []
  | v :: rest => do
    let value ← canonicalBytes v
    let others ← canonicalElemBytes rest
    return value ++ others

end

/-- The one-field document `{_id: v}` as the wire library encodes it. -/
def wireDocument (v : Value) : Bytes := bsonContainer (bsonFields [(idKey, v)])

section
variable [Digest]

def wirebsonIDHash (id : Value) : Option Bytes :=
  match id with
  | .int32 n => some (Digest.sha512Key (wireDocument (.int64 n.toInt64)))
  | .int64 _ | .double _ | .objectID _ | .string _ | .binary _ | .bool _ | .date _ | .decimal128 _ =>
    some (Digest.sha512Key (wireDocument id))
  | _ => none

def exactNumericKey (id : Value) : Option Bytes :=
  if (numericToInt64 id).isSome then none
  else (numericValueToken id).map fun token => ascii ['n', 'u', 'm', ':'] ++ token

def hashID (id : Value) : Option Bytes :=
  match id with
  | .document _ | .array _ | .null | .timestamp _ | .minKey | .maxKey =>
    (canonicalBytes id).map Digest.sha512Key
  | _ =>
    match exactNumericKey id with
    | some key => some (Digest.sha512Key key)
    | none =>
      match numericToInt64 id with
      | some i => wirebsonIDHash (.int64 i)
      | none => wirebsonIDHash id

theorem wirebsonIDHash_length {id : Value} {h : Bytes} (hashed : wirebsonIDHash id = some h) :
    h.length = primaryIDLen := by
  unfold wirebsonIDHash at hashed
  split at hashed <;> first | cases hashed; exact Digest.width _ | cases hashed

theorem hashID_length {id : Value} {h : Bytes} (hashed : hashID id = some h) : h.length = primaryIDLen := by
  unfold hashID at hashed
  split at hashed
  case h_7 =>
    split at hashed
    · cases hashed
      exact Digest.width _
    · split at hashed <;> exact wirebsonIDHash_length hashed
  all_goals
    obtain ⟨_, -, rfl⟩ := Option.map_eq_some_iff.mp hashed
    exact Digest.width _

end

abbrev headDigest : Digest where
  sha512Key b := (b ++ List.replicate primaryIDLen 0).take primaryIDLen
  width b := by simp

end DumboDB.Dolt
