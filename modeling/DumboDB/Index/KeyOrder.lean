import DumboDB.Index.NumberOrder

/-!
Byte order of the keys of single values. In every entry and every bound more bytes follow a
key, so the order is stated for whatever follows, up to a limit on the next byte.
-/

namespace DumboDB.Index
open Foundation ByteOrder Binary64 Binary64.Float64 DumboDB.Types

/-- The first key stays before the second, whatever follows them, as long as the byte after the
first is below the limit and the byte after the second is not below the floor. -/
def KeyBefore (limit floor : Nat) (a b : Bytes) : Prop :=
  ∀ (next : UInt8) (s : Bytes) (other : UInt8) (t : Bytes), next.toNat < limit → floor ≤ other.toNat →
    Before (a ++ next :: s) (b ++ other :: t)

/-- Two keys stand in the given order, equal ones being the same bytes. -/
def KeyOrder (limit floor : Nat) (order : Ordering) (a b : Bytes) : Prop :=
  match order with
  | .lt => KeyBefore limit floor a b
  | .eq => a = b
  | .gt => KeyBefore limit floor b a

variable {a b : Bytes} {floor limit : Nat}

theorem keyBefore_of_before (limit floor : Nat) (before : Before a b) : KeyBefore limit floor a b := by
  intro _ s _ t _ _
  exact before.append _ _

theorem KeyBefore.mono {limit' floor' : Nat} (order : KeyBefore limit floor a b)
    (lower : limit' ≤ limit) (higher : floor ≤ floor') : KeyBefore limit' floor' a b := by
  intro next s other t below above
  exact order next s other t (Nat.lt_of_lt_of_le below lower) (higher.trans above)

theorem KeyBefore.cons (c : UInt8) (order : KeyBefore limit floor a b) : KeyBefore limit floor (c :: a) (c :: b) := by
  intro next s other t below above
  exact .tail (order next s other t below above)

theorem KeyOrder.mono {limit' floor' : Nat} {order : Ordering}
    (keyed : KeyOrder limit floor order a b) (lower : limit' ≤ limit) (higher : floor ≤ floor') :
    KeyOrder limit' floor' order a b := by
  cases order with
  | lt
  | gt => exact KeyBefore.mono keyed lower higher
  | eq => exact keyed

theorem KeyOrder.cons {order : Ordering} (c : UInt8)
    (keyed : KeyOrder limit floor order a b) : KeyOrder limit floor order (c :: a) (c :: b) := by
  cases order with
  | lt
  | gt => exact KeyBefore.cons c keyed
  | eq => exact congrArg (c :: ·) keyed

theorem terminated_keyOrder (s t : Bytes) : KeyOrder 0xFF 0 (compare s t) (terminated s) (terminated t) := by
  have step {s t : Bytes} (smaller : compare s t = .lt) : KeyBefore 0xFF 0 (terminated s) (terminated t) := by
    intro next u other v bound _
    exact terminated_before smaller next (UInt8.lt_iff_toNat_lt.mpr bound) u (other :: v)
  cases order : compare s t with
  | lt => exact step order
  | eq => exact congrArg terminated (Std.LawfulEqCmp.eq_of_compare order)
  | gt => exact step (Std.OrientedCmp.gt_iff_lt.mp order)

theorem fixed_keyOrder (limit : Nat) (width : a.length = b.length) : KeyOrder limit 0 (compare a b) a b := by
  cases order : compare a b with
  | lt => exact keyBefore_of_before limit 0 (before_of_compare_lt width order)
  | eq => exact Std.LawfulEqCmp.eq_of_compare order
  | gt => exact keyBefore_of_before limit 0 (before_of_compare_lt width.symm (Std.OrientedCmp.gt_iff_lt.mp order))

theorem beBytes_keyOrder (limit n : Nat) {a b : Nat} (left : a < 256 ^ n) (right : b < 256 ^ n) :
    KeyOrder limit 0 (compare a b) (beBytes n a) (beBytes n b) := by
  cases order : compare a b with
  | lt => exact keyBefore_of_before limit 0 (beBytes_before n (compare_lt_iff_lt.mp order) right)
  | eq => exact congrArg (beBytes n) (compare_eq_iff_eq.mp order)
  | gt => exact keyBefore_of_before limit 0 (beBytes_before n (compare_gt_iff_gt.mp order) left)

theorem uint64_keyOrder (limit : Nat) (a b : UInt64) :
    KeyOrder limit 0 (compare a b) (beBytes 8 a.toNat) (beBytes 8 b.toNat) := by
  have same : compare a b = compare a.toNat b.toNat :=
    compare_embed UInt64.toNat (fun _ _ => UInt64.lt_iff_toNat_lt.mp) a b
  rw [same]
  exact beBytes_keyOrder limit 8 a.toNat_lt b.toNat_lt

def isInteger : Value → Bool
  | .int32 _ => true
  | .int64 _ => true
  | _ => false

def integer : Value → Int
  | .int32 n => n.toInt
  | .int64 n => n.toInt
  | _ => 0

theorem integer_range (v : Value) : -2 ^ 63 ≤ integer v ∧ integer v < 2 ^ 63 := by
  cases v with
  | int32 n =>
    have low := Int32.le_toInt n
    have high := Int32.toInt_lt n
    simp only [integer]
    omega
  | int64 n => exact toInt64_range n
  | _ => simp [integer]

theorem numberUnits_integer {v : Value} (whole : isInteger v = true) : numberUnits v = integer v * one := by
  cases v <;> first | rfl | simp [isInteger] at whole

theorem isNumber_of_isInteger {v : Value} (whole : isInteger v = true) : IsNumber v = true := by
  cases v <;> first | rfl | simp [isInteger] at whole

theorem compare_mul_one (m n : Int) : compare (m * one) (n * one) = compare m n := by
  have positive := one_pos_int
  rw [compare_eq_compare_iff]
  constructor
  · exact ⟨fun less => Int.lt_of_mul_lt_mul_right less positive.le,
      fun less => Int.mul_lt_mul_of_pos_right less positive⟩
  · exact ⟨fun same => Int.eq_of_mul_eq_mul_right positive.ne' same, fun same => by rw [same]⟩

theorem Compare_integer {a b : Value} (left : isInteger a = true) (right : isInteger b = true) :
    Compare a b = compare (integer a) (integer b) := by
  rw [Compare_number (isNumber_of_isInteger left) (isNumber_of_isInteger right), numberUnits_integer left,
    numberUnits_integer right, compare_mul_one]

theorem not_collide_whole_left {n v : Int} : ¬ Collide (n * one) v := fun h =>
  (small_negative h.1.1 h.1.2).1 (Int.dvd_mul_left _ _)

theorem whole_keyBefore {m n : Int} (less : m < n) (low : -2 ^ 63 ≤ m) (high : n < 2 ^ 64) (limit : Nat) :
    KeyBefore limit 0 (numberKey (m * one)) (numberKey (n * one)) := by
  intro _ s _ t _ _
  have positive := one_pos_int
  apply numberKey_before (encodable_whole low (by omega)) (encodable_whole (by omega) high)
    (Int.mul_lt_mul_of_pos_right less positive) not_collide_whole_left
  right; right
  rw [Int.mul_ediv_cancel _ positive.ne', Int.mul_ediv_cancel _ positive.ne']
  exact less.ne

theorem whole_keyOrder {m n : Int} (limit : Nat) (left : -2 ^ 63 ≤ m ∧ m < 2 ^ 64)
    (right : -2 ^ 63 ≤ n ∧ n < 2 ^ 64) :
    KeyOrder limit 0 (compare m n) (numberKey (m * one)) (numberKey (n * one)) := by
  cases order : compare m n with
  | lt => exact whole_keyBefore (compare_lt_iff_lt.mp order) left.1 right.2 limit
  | eq => rw [compare_eq_iff_eq.mp order]; rfl
  | gt => exact whole_keyBefore (compare_gt_iff_gt.mp order) right.1 left.2 limit

section
variable [Platform]

theorem EncodeValue_integer {v : Value} (whole : isInteger v = true) :
    EncodeValue v = numberKey (integer v * one) := by
  cases v with
  | int32 n => rw [EncodeValue, encodeInt64_key, Int32.toInt_toInt64, integer]
  | int64 n => rw [EncodeValue, encodeInt64_key, integer]
  | _ => simp [isInteger] at whole

theorem integer_keyOrder {a b : Value} (limit : Nat) (left : isInteger a = true) (right : isInteger b = true) :
    KeyOrder limit 0 (Compare a b) (EncodeValue a) (EncodeValue b) := by
  have leftRange := integer_range a
  have rightRange := integer_range b
  rw [Compare_integer left right, EncodeValue_integer left, EncodeValue_integer right]
  exact whole_keyOrder limit ⟨leftRange.1, by omega⟩ ⟨rightRange.1, by omega⟩

/-- Values whose keys follow `Compare` within their type: neither doubles, decimals, dates,
binary data and regular expressions nor documents and arrays. -/
def isPlain : Value → Bool
  | .string _ => true
  | .objectID _ => true
  | .bool _ => true
  | .timestamp _ => true
  | .int32 _ => true
  | .int64 _ => true
  | .null => true
  | .undefined => true
  | .minKey => true
  | .maxKey => true
  | _ => false

theorem bool_keyOrder (limit : Nat) (s t : Bool) :
    KeyOrder limit 0 (Compare (.bool s) (.bool t)) (EncodeValue (.bool s)) (EncodeValue (.bool t)) := by
  have order : Compare (.bool s) (.bool t) = if s = t then .eq else if t then .lt else .gt :=
    Compare_of_isScalar rfl _
  have before : Before [ctypeBoolFalse] [ctypeBoolTrue] := .head (by decide)
  rw [order]
  cases s <;> cases t
  · rfl
  · exact keyBefore_of_before limit 0 before
  · exact keyBefore_of_before limit 0 before
  · rfl

theorem self_keyOrder (limit : Nat) (v : Value) : KeyOrder limit 0 (Compare v v) (EncodeValue v) (EncodeValue v) := by
  have same : CompareOrder v v = .eq := Std.ReflCmp.compare_self
  rw [(CompareOrder_eq_iff.mp same).2]
  rfl

theorem plain_keyOrder {a b : Value} (left : isPlain a = true) (right : isPlain b = true)
    (same : detectDataType a = detectDataType b) : KeyOrder 0xFF 0 (Compare a b) (EncodeValue a) (EncodeValue b) := by
  cases a <;> first | exact (Bool.false_ne_true left).elim | skip
  all_goals cases b <;> first | exact (Bool.false_ne_true right).elim | simp only [detectDataType,
    reduceCtorEq] at same
  case string.string s t =>
    rw [Compare_string]
    exact (terminated_keyOrder s t).cons ctypeString
  case objectID.objectID s t =>
    rw [Compare_objectID]
    exact (fixed_keyOrder 0xFF (s.width.trans t.width.symm)).cons ctypeOID
  case timestamp.timestamp s t =>
    rw [Compare_timestamp]
    exact (uint64_keyOrder 0xFF s t).cons ctypeTimestamp
  case bool.bool s t => exact bool_keyOrder 0xFF s t
  case int32.int32 => exact integer_keyOrder 0xFF rfl rfl
  case int32.int64 => exact integer_keyOrder 0xFF rfl rfl
  case int64.int32 => exact integer_keyOrder 0xFF rfl rfl
  case int64.int64 => exact integer_keyOrder 0xFF rfl rfl
  all_goals exact self_keyOrder 0xFF _

end

end DumboDB.Index
