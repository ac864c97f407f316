import DumboDB.Dolt.Prefilter
import DumboDB.Handler.Conditions

/-!
The byte walks over a stored document, as what they read of the document itself.
-/

namespace DumboDB.Dolt
open Foundation ByteOrder Binary64 DumboDB.Types Handler Index List

theorem uint32At_leBytes {a : Nat} (bound : a < 2 ^ 32) (rest : Bytes) : uint32At (leBytes 4 a ++ rest) = a := by
  rw [uint32At, take_left' (length_leBytes 4 a), leNat_leBytes]
  exact Nat.mod_eq_of_lt bound

theorem uint64At_leBytes (x : UInt64) (rest : Bytes) : uint64At (leBytes 8 x.toNat ++ rest) = x := by
  rw [uint64At, take_left' (length_leBytes 8 _), leNat_leBytes, Nat.mod_eq_of_lt (by simpa using x.toNat_lt)]
  simp

theorem uint64At_leBytes_self (x : UInt64) : uint64At (leBytes 8 x.toNat) = x := by
  simpa using uint64At_leBytes x []

variable {name : Bytes} {left : Nat} {v : Value} {fields : List (Bytes × Value)}

theorem cstring_append (clean : 0 ∉ name) (rest : Bytes) : cstring (name ++ 0 :: rest) = some (name, rest) := by
  induction name with
  | nil => rfl
  | cons b name ih =>
    simp only [mem_cons, not_or] at clean
    simp [cstring, Ne.symm clean.1, ih clean.2]

theorem uint32At_bsonContainer {body : Bytes} (short : (bsonContainer body).length < 2 ^ 32) (rest : Bytes) :
    uint32At (bsonContainer body ++ rest) = (bsonContainer body).length := by
  rw [length_bsonContainer] at short ⊢
  rw [bsonContainer, append_assoc, append_assoc, uint32At_leBytes short]

theorem drop_bsonContainer (body rest : Bytes) : (bsonContainer body ++ rest).drop 4 = body ++ 0 :: rest := by
  rw [bsonContainer, append_assoc, append_assoc, drop_left' (length_leBytes 4 _)]
  rfl

theorem within_of_le {length : Nat} (fits : length ≤ left) : within left length = some length := by
  rw [within, if_pos (by omega)]

theorem bsonValueEnd_bsonTag (v : Value) (buf : Bytes) (left : Nat) :
    bsonValueEnd buf (bsonTag v) left = match v with
      | .double _ | .date _ | .timestamp _ | .int64 _ => within left 8
      | .int32 _ => within left 4
      | .bool _ => within left 1
      | .objectID _ => within left 12
      | .null | .minKey | .maxKey => some 0
      | .string _ => if buf.length < 4 then none else within left (4 + uint32At buf)
      | .binary _ => if buf.length < 5 then none else within left (5 + uint32At buf)
      | .decimal128 _ => within left 16
      | .regex _ => do
        let (pattern, rest) ← cstring buf
        let (options, _) ← cstring rest
        within left (pattern.length + 1 + options.length + 1)
      | .document _ | .array _ => if buf.length < 4 then none else within left (uint32At buf)
      | .undefined => none := by
  cases v <;> rfl

theorem bsonValueEnd_bsonValue (storable : storableValue v = true) (known : isUndefined v = false) (rest : Bytes)
    (short : (bsonValue v).length < 2 ^ 32) (fits : (bsonValue v).length ≤ left) :
    bsonValueEnd (bsonValue v ++ rest) (bsonTag v) left = some (bsonValue v).length := by
  have reach := within_of_le fits
  rw [bsonValueEnd_bsonTag]
  cases v with
  | undefined => simp [isUndefined] at known
  | document fields
  | array _ =>
    dsimp only
    rw [if_neg (by simp [bsonValue, length_bsonContainer]; omega)]
    simp only [bsonValue] at short reach ⊢
    rw [uint32At_bsonContainer short, reach]
  | string s =>
    simp only [bsonValue, append_assoc] at short reach ⊢
    rw [uint32At_leBytes (Nat.lt_of_le_of_lt (by simp) short)]
    simpa using reach
  | binary b =>
    dsimp only
    rw [if_neg (by simp only [bsonValue, length_append, length_leBytes, length_cons]; omega)]
    simp only [bsonValue, append_assoc] at short reach ⊢
    rw [uint32At_leBytes (Nat.lt_of_le_of_lt (by simp; omega) short)]
    have size : 5 + b.b.length = (leBytes 4 b.b.length ++ b.subtype :: b.b).length := by
      simp
      omega
    rw [size, reach]
  | regex r =>
    simp only [storableValue, Bool.and_eq_true, Bool.not_eq_true', contains_eq_mem,
      decide_eq_false_iff_not] at storable
    simp only [bsonValue, append_assoc, cons_append] at reach ⊢
    rw [cstring_append storable.1]
    simp only [Option.bind_eq_bind, Option.bind_some, nil_append]
    rw [cstring_append storable.2]
    simpa [Nat.add_comm, Nat.add_left_comm, Nat.add_assoc] using reach
  | objectID id =>
    simp only [bsonValue, id.width] at reach ⊢
    exact reach
  | null | minKey | maxKey => rfl
  | _ => simpa [bsonValue] using reach

theorem bsonTag_ne_zero (v : Value) : bsonTag v ≠ 0 := by
  cases v <;> simp [bsonTag]

def bsonElement (name : Bytes) (v : Value) : Bytes := bsonTag v :: name ++ 0 :: bsonValue v

theorem length_bsonElement (name : Bytes) (v : Value) :
    (bsonElement name v).length = name.length + 2 + (bsonValue v).length := by
  simp [bsonElement]
  omega

private theorem nextElement_scan (clean : 0 ∉ name) (rest : Bytes) (left : Nat) :
    nextElement (bsonElement name v ++ rest) ((bsonElement name v).length + left) =
      elementOf (bsonTag v) name (bsonValue v ++ rest) ((bsonValue v).length + left)
        (bsonValueEnd (bsonValue v ++ rest) (bsonTag v) ((bsonValue v).length + left)) := by
  have size := length_bsonElement name v
  have split : bsonElement name v ++ rest = bsonTag v :: (name ++ 0 :: (bsonValue v ++ rest)) := by
    simp [bsonElement]
  have scanned : cstring ((name ++ 0 :: (bsonValue v ++ rest)).take
      ((bsonElement name v).length + left - 1)) = some (name, (bsonValue v ++ rest).take
        ((bsonValue v).length + left)) := by
    have reach : (bsonElement name v).length + left - 1 = name.length + ((bsonValue v).length + left + 1) := by omega
    rw [reach, take_length_add_append, take_succ_cons, cstring_append clean]
  have behind : (name ++ 0 :: (bsonValue v ++ rest)).drop (name.length + 1) = bsonValue v ++ rest := by
    simp
  have room : (bsonElement name v).length + left - 1 - (name.length + 1) = (bsonValue v).length + left := by omega
  unfold nextElement
  rw [if_neg (by omega), split]
  dsimp only
  rw [if_neg (bsonTag_ne_zero v), scanned]
  dsimp only
  rw [behind, room]

theorem nextElement_known (clean : 0 ∉ name) (storable : storableValue v = true)
    (known : isUndefined v = false) (short : (bsonValue v).length < 2 ^ 32) (rest : Bytes) (left : Nat) :
    nextElement (bsonElement name v ++ rest) ((bsonElement name v).length + left) =
      .element (bsonTag v) name (bsonValue v) rest left := by
  rw [nextElement_scan clean, bsonValueEnd_bsonValue storable known rest short (Nat.le_add_right _ _)]
  simp [elementOf]

theorem nextElement_undefined (clean : 0 ∉ name) (rest : Bytes) (left : Nat) :
    nextElement (bsonElement name .undefined ++ rest) ((bsonElement name .undefined).length + left) = .anomaly := by
  rw [nextElement_scan clean, bsonValueEnd_bsonTag, elementOf]

/-! A walk over the elements of a container is a walk over its fields. -/

section
variable {α : Type} (finished anomaly : α) (use : UInt8 → Bytes → Bytes → Option α)

def readFields : List (Bytes × Value) → α
  | [] => finished
  | (key, v) :: rest =>
    if isUndefined v then anomaly
    else
      match use (bsonTag v) key (bsonValue v) with
      | some result => result
      | none => readFields rest

theorem bsonFields_cons (key : Bytes) (v : Value) (fields : List (Bytes × Value)) :
    bsonFields ((key, v) :: fields) = bsonElement key v ++ bsonFields fields := by
  simp [bsonFields, bsonElement]

theorem walkElements_bsonFields (terminator : α)
    (storable : storableFields fields = true) (short : (bsonFields fields).length < 2 ^ 32) (rest : Bytes)
    {fuel : Nat} (enough : (bsonFields fields).length < fuel) :
    walkElements finished terminator anomaly use fuel (bsonFields fields ++ rest) (bsonFields fields).length =
      readFields finished anomaly use fields := by
  induction fields generalizing fuel with
  | nil =>
    obtain ⟨fuel, rfl⟩ := Nat.exists_eq_succ_of_ne_zero (Nat.ne_of_gt (Nat.zero_lt_of_lt enough))
    rfl
  | cons field fields ih =>
    obtain ⟨key, v⟩ := field
    obtain ⟨fuel, rfl⟩ := Nat.exists_eq_succ_of_ne_zero (Nat.ne_of_gt (Nat.zero_lt_of_lt enough))
    simp only [storableFields, Bool.and_eq_true, Bool.not_eq_true', contains_eq_mem,
      decide_eq_false_iff_not] at storable
    have size := length_bsonElement key v
    rw [bsonFields_cons, length_append] at short enough
    rw [bsonFields_cons, length_append, append_assoc, walkElements, readFields]
    cases known : isUndefined v with
    | true =>
      obtain rfl : v = .undefined := by cases v <;> simp_all [isUndefined]
      rw [nextElement_undefined storable.1.1]
      rfl
    | false =>
      rw [nextElement_known storable.1.1 storable.1.2 known (by omega)]
      dsimp only
      rw [ih storable.2 (by omega) (by omega)]
      rfl

theorem walkElements_bsonContainer (terminator : α)
    (storable : storableFields fields = true) (short : (bsonContainer (bsonFields fields)).length < 2 ^ 32) :
    walkElements finished terminator anomaly use (bsonContainer (bsonFields fields)).length
      ((bsonContainer (bsonFields fields)).drop 4) (uint32At (bsonContainer (bsonFields fields)) - 1 - 4) =
        readFields finished anomaly use fields := by
  have size := length_bsonContainer (bsonFields fields)
  have word := uint32At_bsonContainer short []
  have body := drop_bsonContainer (bsonFields fields) []
  rw [append_nil] at word body
  have left : (bsonContainer (bsonFields fields)).length - 1 - 4 = (bsonFields fields).length := by omega
  rw [word, body, left, walkElements_bsonFields finished anomaly use terminator storable (by omega) _ (by omega)]

/-- An undefined value stored before a key keeps the walk from reaching it. -/
def blocked (fields : Document) (key : Bytes) : Bool :=
  (fields.takeWhile fun field => field.1 != key).any fun field => isUndefined field.2

theorem blocked_cons (k : Bytes) (v : Value) (fields : Document) (key : Bytes) :
    blocked ((k, v) :: fields) key = if k = key then false else isUndefined v || blocked fields key := by
  by_cases here : k = key
  · simp [blocked, here]
  · simp [blocked, here]

theorem readFields_key (read : UInt8 → Bytes → α) (fields : Document) (key : Bytes) :
    readFields finished anomaly
      (fun typeByte name value => if name = key then some (read typeByte value) else none) fields =
        if blocked fields key then anomaly
        else
          match fields.get key with
          | none => finished
          | some v => if isUndefined v then anomaly else read (bsonTag v) (bsonValue v) := by
  induction fields with
  | nil => rfl
  | cons field fields ih =>
    obtain ⟨k, v⟩ := field
    rw [readFields, ih, blocked_cons, get_cons]
    by_cases here : k = key
    · simp [here]
    · cases isUndefined v <;> simp [here]

end

theorem zero_not_mem_decimal (i : Nat) : 0 ∉ decimal i := by
  intro zero
  obtain ⟨c, digit, value⟩ := mem_map.mp zero
  have range := Nat.isDigit_of_mem_toDigits (by decide) (by decide) digit
  have low : 48 ≤ c.toNat ∧ c.toNat ≤ 57 := by
    simpa [Char.isDigit, UInt32.le_iff_toNat_le] using range
  have number := congrArg UInt8.toNat value
  simp at number
  omega

def indexed (i : Nat) : List Value → List (Bytes × Value)
  | [] => []
  | v :: rest => (decimal i, v) :: indexed (i + 1) rest

theorem bsonElems_eq (i : Nat) (elems : List Value) : bsonElems i elems = bsonFields (indexed i elems) := by
  induction elems generalizing i with
  | nil => rfl
  | cons v elems ih => rw [indexed, bsonFields, bsonElems, ih]

theorem storableFields_indexed (i : Nat) (elems : List Value) :
    storableFields (indexed i elems) = storableElems elems := by
  induction elems generalizing i with
  | nil => rfl
  | cons v elems ih => simp [indexed, storableFields, storableElems, zero_not_mem_decimal, ih]

theorem length_bsonValue_le {key : Bytes}
    (member : (key, v) ∈ fields) : (bsonValue v).length ≤ (bsonFields fields).length := by
  induction fields with
  | nil => simp at member
  | cons _ fields ih =>
    rw [bsonFields_cons, length_append, length_bsonElement]
    rcases mem_cons.mp member with same | later
    · obtain ⟨rfl, rfl⟩ := Prod.mk.inj same
      omega
    · have := ih later
      omega

section
variable [Platform]

/-- The double the prefilter reads a number as, when it reads it. -/
def readNumber : Value → Option Float64
  | .int32 n => some (Float64.ofInt n.toInt)
  | .int64 n => if toInt64 (Float64.ofInt n.toInt) = n then some (Float64.ofInt n.toInt) else none
  | .double f => some f
  | _ => none

theorem bsonNumericAsFloat_bsonValue (v : Value) : bsonNumericAsFloat (bsonTag v) (bsonValue v) = readNumber v := by
  unfold bsonNumericAsFloat
  cases v with
  | int32 n =>
    have word := uint32At_leBytes n.toUInt32.toNat_lt []
    rw [append_nil] at word
    simp [bsonTag, bsonValue, bsonTypeInt32, readNumber, word]
  | int64 n =>
    simp [bsonTag, bsonValue, bsonTypeInt32, bsonTypeInt64, readNumber, uint64At_leBytes_self]
  | double f =>
    simp [bsonTag, bsonValue, bsonTypeInt32, bsonTypeInt64, bsonTypeDouble, readNumber, uint64At_leBytes_self]
  | _ => simp [bsonTag, bsonTypeInt32, bsonTypeInt64, bsonTypeDouble, readNumber]

def operandDouble : Value → Option Float64
  | .int32 n => some (Float64.ofInt n.toInt)
  | .int64 n => some (Float64.ofInt n.toInt)
  | .double f => some f
  | _ => none

theorem scalarMatch_number {target : Value} {g : Float64} (number : operandDouble target = some g)
    (w : Value) : scalarMatch (bsonTag w) (bsonValue w) target = true ↔ ∃ f, readNumber w = some f ∧
    f.eq g = true := by
  cases target <;> simp [operandDouble] at number <;> subst number <;>
    simp only [scalarMatch, bsonNumericAsFloat_bsonValue]
  next g =>
    cases readNumber w with
    | none => simp
    | some f => cases left : f.isNaN <;> cases right : g.isNaN <;> simp [Float64.eq, left, right]
  · cases readNumber w <;> simp
  · cases readNumber w <;> simp

variable {w : Value}

theorem scalarMatch_other {target : Value} (walked : (normaliseFilterValue target).isSome)
    (other : operandDouble target = none) (short : (bsonValue w).length < 2 ^ 32) :
    scalarMatch (bsonTag w) (bsonValue w) target = true ↔ CompareOrder w target = .eq := by
  rw [CompareOrder_eq_iff]
  cases target with
  | string t =>
    cases w with
    | string s =>
      simp only [bsonValue] at short
      have word := uint32At_leBytes (a := s.length + 1) (Nat.lt_of_le_of_lt (by simp) short) (s ++ [0])
      simp [scalarMatch, bsonTag, bsonTypeString, bsonValue, word, detectDataType, Compare_string]
    | _ => simp [scalarMatch, bsonTag, bsonTypeString, detectDataType] <;> split <;> simp
  | bool t =>
    cases w with
    | bool b =>
      cases b <;> cases t <;>
        simp [scalarMatch, bsonTag, bsonTypeBool, bsonValue, detectDataType, Compare, compareScalars,
          isScalar, compareNumeric, compareNumericFast, asInt64, asFloat64, numericParts]
    | _ =>
      simp [scalarMatch, bsonTag, bsonTypeBool, detectDataType]
      (repeat' split) <;> simp
  | date t =>
    cases w with
    | date _ =>
      simp [scalarMatch, bsonTag, bsonTypeDate, bsonValue, uint64At_leBytes_self, detectDataType, Compare_date]
    | _ => simp [scalarMatch, bsonTag, bsonTypeDate, detectDataType] <;> split <;> simp
  | objectID t =>
    cases w with
    | objectID id =>
      simp [scalarMatch, bsonTag, bsonTypeObjectID, bsonValue, id.width, take_of_length_le, detectDataType,
        Compare_objectID]
    | _ => simp [scalarMatch, bsonTag, bsonTypeObjectID, detectDataType] <;> split <;> simp
  | int32 _ | int64 _ | double _ => simp [operandDouble] at other
  | _ => simp [normaliseFilterValue] at walked

/-- An occurrence that ends an equality walk with true: one that matches, or undefined. -/
def seen (target w : Value) : Bool := isUndefined w || scalarMatch (bsonTag w) (bsonValue w) target

theorem scalarMatch_container (container : isScalar w = false) (bytes : Bytes) (target : Value) :
    scalarMatch (bsonTag w) bytes target = false := by
  cases w <;> simp [isScalar] at container <;> cases target <;>
    simp [scalarMatch, bsonTag, bsonNumericAsFloat, bsonTypeInt32, bsonTypeInt64, bsonTypeDouble, bsonTypeString,
      bsonTypeBool, bsonTypeObjectID, bsonTypeDate] <;> split <;> rfl

theorem seen_canonicalValue (target w : Value) : seen target (canonicalValue w) = seen target w := by
  cases w with
  | document fields | array elems =>
    rw [canonicalValue, seen, seen, scalarMatch_container rfl, scalarMatch_container rfl]
    rfl
  | _ => rw [canonicalValue] <;> simp

theorem readFields_indexed (target : Value) (i : Nat) (elems : List Value) :
    readFields false true (fun tb _ value => if scalarMatch tb value target then some true else none)
      (indexed i elems) = elems.any (seen target) := by
  induction elems generalizing i with
  | nil => rfl
  | cons w elems ih =>
    rw [indexed, readFields, any_cons, seen, ih]
    cases isUndefined w
    · cases scalarMatch (bsonTag w) (bsonValue w) target <;> simp
    · simp

theorem bsonValueEqualsOrContains_eq {v : Value} (storable : storableValue v = true)
    (known : isUndefined v = false) (short : (bsonValue v).length < 2 ^ 32) (target : Value) :
    bsonValueEqualsOrContains (bsonTag v) (bsonValue v) target = (elementsOrSelf v).any (seen target) := by
  unfold bsonValueEqualsOrContains
  cases v with
  | array elems =>
    have written : bsonValue (.array elems) = bsonContainer (bsonFields (indexed 0 elems)) := by
      rw [bsonValue, bsonElems_eq]
    rw [written] at short ⊢
    have size := length_bsonContainer (bsonFields (indexed 0 elems))
    have word := uint32At_bsonContainer short []
    rw [append_nil] at word
    rw [scalarMatch_container rfl, if_neg (by decide), if_neg (by simp [bsonTag, bsonTypeArray]),
      if_neg (by omega), if_neg (by omega), walkElements_bsonContainer _ _ _ _ _ short, readFields_indexed]
    · rfl
    · rw [storableFields_indexed]
      exact storable
  | undefined => simp [isUndefined] at known
  | _ =>
    simp only [elementsOrSelf, any_cons, any_nil, Bool.or_false, seen, isUndefined, Bool.false_or]
    simp [bsonTag, bsonTypeArray]

theorem walkTopLevelEqualityIn_eq {fields : Document} (storable : storableFields fields = true)
    (short : (bsonContainer (bsonFields fields)).length < 2 ^ 32) (key : Bytes) (target : Value) :
    walkTopLevelEqualityIn (bsonContainer (bsonFields fields)) key target true = if blocked fields key then true else
        match fields.get key with
        | none => false
        | some v => isUndefined v || (elementsOrSelf v).any (seen target) := by
  have size := length_bsonContainer (bsonFields fields)
  have word := uint32At_bsonContainer short []
  rw [append_nil] at word
  unfold walkTopLevelEqualityIn
  rw [if_neg (by omega), walkEnd, if_pos (by omega)]
  dsimp only
  rw [walkElements_bsonContainer _ _ _ _ storable short, readFields_key]
  cases held : fields.get key with
  | none => rfl
  | some v =>
    have member := mem_of_get held
    have valueStorable : storableValue v = true := (storableFields_iff.mp storable _ member).2
    have fits := length_bsonValue_le member
    cases known : isUndefined v with
    | true => simp [known]
    | false =>
      simp only [known, bsonValueEqualsOrContains_eq valueStorable known (by omega)]
      simp

def probeOf : Option Float64 → RangeProbe
  | none => .bail
  | some f => if f.isFinite then .found f else .bail

theorem probeNumber_bsonValue (v : Value) : probeNumber (bsonTag v) (bsonValue v) = probeOf (readNumber v) := by
  rw [probeNumber, bsonNumericAsFloat_bsonValue]
  cases readNumber v with
  | none => rfl
  | some f => cases finite : f.isFinite <;> simp [nan_or_inf_eq, finite, probeOf]

theorem scanTopLevelBSONNumericIn_eq {fields : Document} (storable : storableFields fields = true)
    (short : (bsonContainer (bsonFields fields)).length < 2 ^ 32) (key : Bytes) :
    scanTopLevelBSONNumericIn (bsonContainer (bsonFields fields)) key true = if blocked fields key then .bail else
        match fields.get key with
        | none => .missing
        | some v => if isUndefined v then .bail else probeNumber (bsonTag v) (bsonValue v) := by
  have size := length_bsonContainer (bsonFields fields)
  have word := uint32At_bsonContainer short []
  rw [append_nil] at word
  unfold scanTopLevelBSONNumericIn
  rw [if_neg (by omega), walkEnd, if_pos (by omega)]
  dsimp only
  rw [walkElements_bsonContainer _ _ _ _ storable short, readFields_key]
  rfl

end

end DumboDB.Dolt
