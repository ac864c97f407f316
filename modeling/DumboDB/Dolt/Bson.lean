import DumboDB.Types.Compare
import Mathlib.Data.List.Sort

/-!
The stored form of a document: keys sorted at every level, then BSON behind a version byte.
-/

namespace DumboDB.Dolt
open Foundation ByteOrder DumboDB.Types List

def leBytes (n a : Nat) : Bytes := (beBytes n a).reverse

def leNat : Bytes → Nat
  | [] => 0
  | b :: s => b.toNat + 256 * leNat s

/-- `strconv.AppendInt(dst, i, 10)` of an index. -/
def decimal (i : Nat) : Bytes := ascii (Nat.toDigits 10 i)

def bsonTag : Value → UInt8
  | .double _ => 0x01
  | .string _ => 0x02
  | .document _ => 0x03
  | .array _ => 0x04
  | .binary _ => 0x05
  | .undefined => 0x06
  | .objectID _ => 0x07
  | .bool _ => 0x08
  | .date _ => 0x09
  | .null => 0x0A
  | .regex _ => 0x0B
  | .int32 _ => 0x10
  | .timestamp _ => 0x11
  | .int64 _ => 0x12
  | .decimal128 _ => 0x13
  | .minKey => 0xFF
  | .maxKey => 0x7F

def bsonContainer (body : Bytes) : Bytes := leBytes 4 (body.length + 5) ++ body ++ [0]

mutual

/-- `appendBSONValue` without the tag it stores. -/
def bsonValue : Value → Bytes
  | .double f => leBytes 8 f.bits.toNat
  | .string s => leBytes 4 (s.length + 1) ++ s ++ [0]
  | .document fields => bsonContainer (bsonFields fields)
  | .array elems => bsonContainer (bsonElems 0 elems)
  | .binary b => leBytes 4 b.b.length ++ b.subtype :: b.b
  | .undefined => []
  | .objectID id => id.bytes
  | .bool b => [if b then 1 else 0]
  | .date millis => leBytes 8 millis.toUInt64.toNat
  | .null => []
  | .regex r => r.pattern ++ 0 :: r.options ++ [0]
  | .int32 n => leBytes 4 n.toUInt32.toNat
  | .timestamp t => leBytes 8 t.toNat
  | .int64 n => leBytes 8 n.toUInt64.toNat
  | .decimal128 d => leBytes 8 d.l.toNat ++ leBytes 8 d.h.toNat
  | .minKey => []
  | .maxKey => []

def bsonFields : List (Bytes × Value) → Bytes
  | [] => []
  | (key, v) :: rest => bsonTag v :: key ++ 0 :: bsonValue v ++ bsonFields rest

def bsonElems (i : Nat) : List Value → Bytes
  | [] => []
  | v :: rest => bsonTag v :: decimal i ++ 0 :: bsonValue v ++ bsonElems (i + 1) rest

end

def idKey : Bytes := ascii ['_', 'i', 'd']

/-- `compareFieldKeys` as the relation the stable sort uses. -/
def keyLE (a b : Bytes × Value) : Prop := compare a.1 b.1 ≠ .gt

instance : DecidableRel keyLE := fun a b => inferInstanceAs (Decidable (compare a.1 b.1 ≠ .gt))

def sortFields (fields : List (Bytes × Value)) : List (Bytes × Value) := fields.insertionSort keyLE

mutual

/-- The value with the keys of every document in it in byte order, `_id` values as they are. -/
def canonicalValue : Value → Value
  | .document fields => .document (sortFields (canonicalFields fields))
  | .array elems => .array (canonicalElems elems)
  | v => v

def canonicalFields : List (Bytes × Value) → List (Bytes × Value)
  | [] => []
  | (key, v) :: rest => (key, if key = idKey then v else canonicalValue v) :: canonicalFields rest

def canonicalElems : List Value → List Value
  | [] => []
  | v :: rest => canonicalValue v :: canonicalElems rest

end

def canonical (d : Document) : Document := sortFields (canonicalFields d)

def bsonFormatVersion : UInt8 := 0x01

def docToBSON (d : Document) : Bytes :=
  bsonFormatVersion :: bsonContainer (bsonFields (canonical d))

/-! What a client can store: keys and regular expressions are C strings and the length fits its
field. -/

mutual

def storableValue : Value → Bool
  | .document fields => storableFields fields
  | .array elems => storableElems elems
  | .regex r => !r.pattern.contains 0 && !r.options.contains 0
  | _ => true

def storableFields : List (Bytes × Value) → Bool
  | [] => true
  | (key, v) :: rest => !key.contains 0 && storableValue v && storableFields rest

def storableElems : List Value → Bool
  | [] => true
  | v :: rest => storableValue v && storableElems rest

end

def Storable (d : Document) : Prop := storableFields d = true ∧ (docToBSON d).length < 2 ^ 31

/-! Little-endian words read back. -/

@[simp] theorem length_leBytes (n a : Nat) : (leBytes n a).length = n := by simp [leBytes]

theorem leBytes_succ (n a : Nat) : leBytes (n + 1) a = UInt8.ofNat a :: leBytes n (a / 256) := by
  simp [leBytes, beBytes]

theorem leNat_leBytes (n a : Nat) : leNat (leBytes n a) = a % 256 ^ n := by
  induction n generalizing a with
  | zero => simp [leBytes, beBytes, leNat, Nat.mod_one]
  | succ n ih =>
    rw [leBytes_succ, leNat, ih, Nat.pow_succ', Nat.mod_mul]
    simp

theorem length_bsonContainer (body : Bytes) : (bsonContainer body).length = body.length + 5 := by
  simp [bsonContainer]
  omega

/-! Sorting keeps what each key holds, and canonical values keep their place. -/

theorem get_orderedInsert (field : Bytes × Value) (fields : Document) (key : Bytes) :
    Document.get (fields.orderedInsert keyLE field) key = Document.get (field :: fields) key := by
  induction fields with
  | nil => rfl
  | cons first fields ih =>
    by_cases before : keyLE field first
    · rw [orderedInsert_cons_of_le _ _ before]
    · rw [List.orderedInsert, if_neg before, get_cons, ih, get_cons, get_cons, get_cons]
      have apart : field.1 ≠ first.1 := fun same => before (by simp [keyLE, same])
      by_cases here : first.1 = key
      · simp [here, here ▸ apart]
      · simp [here]

theorem get_sortFields (fields : Document) (key : Bytes) :
    Document.get (sortFields fields) key = Document.get fields key := by
  induction fields with
  | nil => rfl
  | cons _ fields ih =>
    rw [sortFields, insertionSort_cons, get_orderedInsert, get_cons, get_cons]
    simp only [sortFields] at ih
    rw [ih]

theorem canonicalElems_eq_map (elems : List Value) : canonicalElems elems = elems.map canonicalValue := by
  induction elems with
  | nil => rfl
  | cons v elems ih => rw [canonicalElems, ih, map_cons]

theorem canonicalValue_of_isScalar {w : Value} (scalar : isScalar w = true) : canonicalValue w = w := by
  cases w <;> simp_all [isScalar, canonicalValue]

def storedValue (key : Bytes) (v : Value) : Value := if key = idKey then v else canonicalValue v

theorem get_canonical (d : Document) (key : Bytes) : (canonical d).get key = (d.get key).map (storedValue key) := by
  rw [canonical, get_sortFields]
  induction d with
  | nil => rfl
  | cons field d ih =>
    obtain ⟨k, v⟩ := field
    rw [canonicalFields, get_cons, get_cons, ih]
    by_cases here : k = key
    · simp [here, storedValue]
    · simp [here]

theorem storableFields_iff {fields : List (Bytes × Value)} :
    storableFields fields = true ↔ ∀ field ∈ fields, 0 ∉ field.1 ∧ storableValue field.2 = true := by
  induction fields with
  | nil => simp [storableFields]
  | cons field fields ih => simp [storableFields, ih]

theorem storableFields_sortFields (fields : List (Bytes × Value)) :
    storableFields (sortFields fields) = storableFields fields := by
  rw [Bool.eq_iff_iff, storableFields_iff, storableFields_iff]
  simp [sortFields]

mutual

theorem storableValue_canonicalValue : ∀ v, storableValue (canonicalValue v) = storableValue v
  | .document _ => by
    rw [canonicalValue, storableValue, storableFields_sortFields, storableFields_canonicalFields, storableValue]
  | .array _ => by rw [canonicalValue, storableValue, storableElems_canonicalElems, storableValue]
  | .double _ | .string _ | .binary _ | .undefined | .objectID _ | .bool _ | .date _ | .null
  | .regex _ | .int32 _ | .timestamp _ | .int64 _ | .decimal128 _ | .minKey | .maxKey => by
    rw [canonicalValue] <;> simp

theorem storableFields_canonicalFields :
    ∀ fields, storableFields (canonicalFields fields) = storableFields fields
  | [] => rfl
  | (key, v) :: rest => by
    have value := storableValue_canonicalValue v
    rw [canonicalFields, storableFields, storableFields, storableFields_canonicalFields rest]
    split <;> simp [value]

theorem storableElems_canonicalElems :
    ∀ elems, storableElems (canonicalElems elems) = storableElems elems
  | [] => rfl
  | v :: rest => by
    rw [canonicalElems, storableElems, storableElems, storableValue_canonicalValue v,
      storableElems_canonicalElems rest]

end

theorem storableFields_canonical (d : Document) : storableFields (canonical d) = storableFields d := by
  rw [canonical, storableFields_sortFields, storableFields_canonicalFields]

/-! A stored document is stored as it is. -/

instance : Std.Total keyLE where
  total a b := by
    unfold keyLE
    rw [Std.OrientedOrd.eq_swap (a := b.1)]
    cases compare a.1 b.1 <;> simp

instance : IsTrans (Bytes × Value) keyLE where
  trans a b c first second := by
    have le : ∀ x y : Bytes × Value, keyLE x y → (compare x.1 y.1).isLE := by
      intro x y before
      unfold keyLE at before
      cases h : compare x.1 y.1 <;> simp_all
    have chained := Std.TransCmp.isLE_trans (le a b first) (le b c second)
    intro above
    simp [above] at chained

section

variable (fields : List (Bytes × Value))
include fields

theorem sortFields_sortFields : sortFields (sortFields fields) = sortFields fields :=
  (pairwise_insertionSort keyLE fields).insertionSort_eq

theorem canonicalFields_eq_map :
    canonicalFields fields = fields.map fun field => (field.1, storedValue field.1 field.2) := by
  induction fields with
  | nil => rfl
  | cons field fields ih =>
    rw [canonicalFields, ih]
    rfl

theorem canonicalFields_sortFields : canonicalFields (sortFields fields) = sortFields (canonicalFields fields) := by
  rw [canonicalFields_eq_map, canonicalFields_eq_map]
  exact map_insertionSort _ _ _ _ fun _ _ _ _ => Iff.rfl

end

mutual

theorem canonicalValue_canonicalValue : ∀ v, canonicalValue (canonicalValue v) = canonicalValue v
  | .document fields => by
    rw [canonicalValue, canonicalValue, canonicalFields_sortFields, canonicalFields_canonicalFields fields,
      sortFields_sortFields]
  | .array elems => by rw [canonicalValue, canonicalValue, canonicalElems_canonicalElems elems]
  | .double _ | .string _ | .binary _ | .undefined | .objectID _ | .bool _ | .date _ | .null
  | .regex _ | .int32 _ | .timestamp _ | .int64 _ | .decimal128 _ | .minKey | .maxKey => by
    simp [canonicalValue]

theorem canonicalFields_canonicalFields :
    ∀ fields, canonicalFields (canonicalFields fields) = canonicalFields fields
  | [] => rfl
  | (key, v) :: rest => by
    have value := canonicalValue_canonicalValue v
    rw [canonicalFields, canonicalFields, canonicalFields_canonicalFields rest]
    split <;> simp [value]

theorem canonicalElems_canonicalElems :
    ∀ elems, canonicalElems (canonicalElems elems) = canonicalElems elems
  | [] => rfl
  | v :: rest => by
    rw [canonicalElems, canonicalElems, canonicalValue_canonicalValue v, canonicalElems_canonicalElems rest]

end

theorem canonical_canonical (d : Document) : canonical (canonical d) = canonical d := by
  rw [canonical, canonical, canonicalFields_sortFields, canonicalFields_canonicalFields, sortFields_sortFields]

end DumboDB.Dolt
