import DumboDB.Index.KeyOrder

/-!
Where the key of a value falls against a bound: the byte each type starts with, and the order
of an integer against a double of any size, which a bound may hold though no faithful index does.
-/

namespace DumboDB.Index
open Foundation ByteOrder Rounding Binary64 Binary64.Float64 DumboDB.Types List

/-- The first and last byte a key of the data type starts with. -/
def headBytes : DataType → Nat × Nat
  | .undefined => (0x0C, 0x0C)
  | .minKey => (0x10, 0x10)
  | .null => (0x14, 0x14)
  | .nan => (0x19, 0x19)
  | .numbers => (0x1A, 0x33)
  | .string => (0x3C, 0x3C)
  | .document => (0x46, 0x46)
  | .array => (0x50, 0x50)
  | .binData => (0x5A, 0x5A)
  | .objectID => (0x64, 0x64)
  | .boolean => (0x6E, 0x6F)
  | .date => (0x78, 0x78)
  | .timestamp => (0x82, 0x82)
  | .regex => (0x8C, 0x8C)
  | .maxKey => (0xF0, 0xF0)

/-- A key that starts with one of the bytes of the data type. -/
def StartsWith (type : DataType) (key : Bytes) : Prop :=
  ∃ c rest, key = c :: rest ∧ (headBytes type).1 ≤ c.toNat ∧ c.toNat ≤ (headBytes type).2

theorem startsWith_number {key : Bytes} {low high : Nat}
    (head : ∃ c rest, key = c :: rest ∧ low ≤ c.toNat ∧ c.toNat ≤ high) (least : 0x1A ≤ low)
    (most : high ≤ 0x33) (s : Bytes) : StartsWith .numbers (key ++ s) := by
  obtain ⟨c, rest, rfl, lower, upper⟩ := head
  exact ⟨c, rest ++ s, rfl, least.trans lower, upper.trans most⟩

theorem encodeInt64_startsWith (n : Int64) : StartsWith .numbers (encodeInt64 n) := by
  rw [encodeInt64_key, ← append_nil (numberKey _)]
  exact startsWith_number (numberKey_head_byte _) (by decide) (by decide) []

theorem one_dvd_of_units_large {f : Float64} (large : 2 ^ 52 * one ≤ f.units.natAbs) : (one : Int) ∣ f.units := by
  rw [natAbs_units] at large
  have dvd := one_dvd_of_large f large
  rw [← natAbs_units] at dvd
  exact Int.natCast_dvd.mpr dvd

theorem bits_ofUnits_zero : (ofUnits 0).bits.toNat = 0 := by
  decide +kernel

theorem signbit_of_units_neg {f : Float64} (negative : f.units < 0) : f.signbit = true := by
  by_contra nonneg
  rw [units, if_neg nonneg] at negative
  omega

theorem numberKey_nonpos_head {n : Int} (low : -2 ^ 63 ≤ n) (small : n ≤ 0) :
    ∃ c rest, numberKey (n * one) = c :: rest ∧ c.toNat ≤ 41 := by
  rcases Int.lt_or_eq_of_le small with negative | rfl
  · obtain ⟨c, rest, key, _, _⟩ := encodeNegInt_head (Int64.ofInt n)
    rw [numberKey_whole (by omega) (by omega), wholeKey, if_pos negative]
    exact ⟨c, rest, key, by omega⟩
  · rw [Int.zero_mul]
    exact ⟨_, _, rfl, by decide⟩

theorem keyBefore_zero_fraction (limit : Nat) (a : Bytes) : KeyBefore limit 1 (a ++ beBytes 8 0) a := by
  intro _ s other t _ above
  rw [append_assoc]
  exact Before.prepend a (before_of_head (show (0 : UInt8).toNat < other.toNat from above) _ _)

private theorem huge_keyOrder {n : Int} (low : -2 ^ 63 ≤ n) (inside : n < 2 ^ 63) (m : UInt64) :
    KeyOrder 0x3C 1 (if n ≤ 0 ∨ n < m.toNat then .lt else .gt) (numberKey (n * one))
      (encodePosInt m ++ beBytes 8 0) := by
  by_cases small : n ≤ 0
  · rw [if_pos (.inl small)]
    obtain ⟨c, _, key, _⟩ := numberKey_nonpos_head low small
    obtain ⟨_, _, key', _, _⟩ := encodePosInt_head m
    rw [key, key']
    exact keyBefore_of_before _ _ (before_of_head (by omega) _ _)
  · have written : numberKey (n * one) = encodePosInt (UInt64.ofNat n.toNat) := by
      rw [numberKey_whole (by omega) inside, wholeKey, if_neg (by omega)]
    have value : (UInt64.ofNat n.toNat).toNat = n.toNat := UInt64.toNat_ofNat_of_lt' (show _ < 2 ^ 64 by omega)
    rw [written]
    rcases Nat.lt_trichotomy n.toNat m.toNat with less | same | greater
    · rw [if_pos (by omega)]
      have before := (encodePosInt_before (value.symm ▸ less)).append [] (beBytes 8 0)
      rw [append_nil] at before
      exact keyBefore_of_before _ _ before
    · rw [if_neg (by omega), same, UInt64.ofNat_toNat]
      exact keyBefore_zero_fraction _ _
    · rw [if_neg (by omega)]
      have before := (encodePosInt_before (value.symm ▸ greater)).append (beBytes 8 0) []
      rw [append_nil] at before
      exact keyBefore_of_before _ _ before

private theorem deep_keyOrder {n : Int} (low : -2 ^ 63 ≤ n) (inside : n < 2 ^ 63) :
    KeyBefore 0x3C 1 (numberKey (-2 ^ 63 * one) ++ beBytes 8 0) (numberKey (n * one)) := by
  rcases Int.lt_or_eq_of_le low with above | rfl
  · intro next s other t _ _
    have before := whole_keyBefore above (by decide) (by omega) 256 0 (beBytes 7 0 ++ next :: s) other t
      (by decide) (Nat.zero_le _)
    rw [append_assoc]
    exact before
  · exact keyBefore_zero_fraction _ _

private theorem finite_keyOrder {n u : Int} (range : -2 ^ 63 ≤ n ∧ n < 2 ^ 63) (encodable : Encodable u) :
    KeyOrder 0x3C 1 (compare (n * one) u) (numberKey (n * one)) (numberKey u) := by
  have integer := encodable_whole range.1 (show n < 2 ^ 64 by omega)
  have apart : ¬ Collide (n * one) u := not_collide_whole_left
  cases order : compare (n * one) u with
  | lt =>
    intro next s other t below _
    exact numberKey_before integer encodable (compare_lt_iff_lt.mp order) apart _ _ _ (.inl below)
  | eq => exact congrArg numberKey (compare_eq_iff_eq.mp order)
  | gt =>
    intro next s other t below _
    exact numberKey_before encodable integer (compare_gt_iff_gt.mp order) (fun h => apart h.symm) _ _ _ (.inl below)

section
variable [Platform] {f : Float64}

theorem encodeFloat64_startsWith (number : f.isNaN = false) : StartsWith .numbers (encodeFloat64 f) := by
  unfold encodeFloat64
  rw [number, if_neg (by decide)]
  split
  · exact ⟨_, _, rfl, by decide, by decide⟩
  split
  · exact ⟨_, _, rfl, by decide, by decide⟩
  split
  · exact ⟨_, _, rfl, by decide, by decide⟩
  split
  · exact encodeInt64_startsWith _
  split
  · exact startsWith_number (encodePosInt_head _) (by decide) (by decide) _
  · exact startsWith_number (encodeNegInt_head _) (by decide) (by decide) _

theorem EncodeValue_startsWith {v : Value} (faithful : EncodeValueLossy v = false) :
    StartsWith (detectDataType v) (EncodeValue v) := by
  have self (c : UInt8) (rest : Bytes) {type : DataType} (low : (headBytes type).1 ≤ c.toNat)
      (high : c.toNat ≤ (headBytes type).2) : StartsWith type (c :: rest) := ⟨c, rest, rfl, low, high⟩
  cases v with
  | decimal128 d => simp [EncodeValueLossy] at faithful
  | double f =>
    cases number : f.isNaN with
    | true =>
      rw [EncodeValue, encodeFloat64, detectDataType, number]
      exact self ctypeNaN [] (by decide) (by decide)
    | false =>
      rw [EncodeValue, detectDataType, number]
      exact encodeFloat64_startsWith number
  | int32 n
  | int64 n => exact encodeInt64_startsWith _
  | bool b => cases b <;> exact self _ _ (by decide) (by decide)
  | _ => exact self _ _ (Nat.le_refl _) (Nat.le_refl _)

/-! Doubles outside the encodable range. -/

theorem encodeFloat64_huge (finite : f.isFinite) (high : 2 ^ 64 * one ≤ f.units) :
    encodeFloat64 f = encodePosInt (toUInt64 f.floor) ++ beBytes 8 0 := by
  have positive := one_pos_int
  have whole : (one : Int) ∣ f.units := one_dvd_of_units_large (by omega)
  have rest : f.sub f.floor = ofUnits 0 := by
    rw [Float64.sub, units_floor finite, Int.ediv_mul_cancel whole, Int.sub_self]
  rw [encodeFloat64_finite finite (by omega), if_neg (by omega), if_pos (by omega), rest,
    appendFraction, bits_ofUnits_zero]

theorem encodeFloat64_deep (finite : f.isFinite) (low : f.units < -2 ^ 63 * one) :
    encodeFloat64 f = numberKey (-2 ^ 63 * one) ++ beBytes 8 0 := by
  have positive := one_pos_int
  have whole : (one : Int) ∣ f.units := one_dvd_of_units_large (by omega)
  have ceil : f.neg.ceil.units = -f.units := by
    rw [units_ceil (by rw [isFinite_neg]; exact finite), units_neg, Int.neg_neg, Int.neg_mul,
      Int.ediv_mul_cancel whole]
  have back : f.neg.ceil.neg.units = f.units := by rw [units_neg, ceil, Int.neg_neg]
  have rest : f.neg.ceil.add f = ofUnits 0 := by rw [Float64.add, ceil, Int.add_left_neg]
  have converted : toInt64 f.neg.ceil.neg = Int64.minValue := by
    have overflow : ¬ -2 ^ 63 ≤ f.units.tdiv one := by
      obtain ⟨n, same⟩ := whole
      rw [same, Int.mul_tdiv_cancel_left _ positive.ne']
      rw [same, Int.mul_comm] at low
      exact not_le.mpr (Int.lt_of_mul_lt_mul_right low positive.le)
    have sign : f.neg.ceil.neg.signbit = true := signbit_of_units_neg (by omega)
    rw [toInt64, back, if_neg (fun inside => overflow inside.2.1)]
    cases Platform.arch with
    | amd64 => rfl
    | arm64 => exact if_pos sign
  rw [encodeFloat64_finite finite (by omega), if_neg (by omega), if_neg (by omega), rest, appendFraction,
    bits_ofUnits_zero, converted]
  have least := encodeInt64_key Int64.minValue
  rw [encodeInt64, if_neg (by decide), if_neg (by decide)] at least
  rw [least]
  rfl

/-- Where the key of an integer stands against that of a double. -/
def doubleKeyOrder (n : Int) (f : Float64) : Ordering :=
  if f.isInf then if f.signbit then .gt else .lt
  else if f.units = 2 ^ 63 * one then compare n converted
  else if 2 ^ 64 * one ≤ f.units then
    if n ≤ 0 ∨ n < (toUInt64 f.floor).toNat then .lt else .gt
  else compare (n * one) f.units

private theorem infinite_keyOrder (u : Int) (number : f.isNaN = false) (infinite : f.isInf = true) :
    KeyOrder 0x3C 1 (if f.signbit then .gt else .lt) (numberKey u) (encodeFloat64 f) := by
  obtain ⟨c, rest, key, low, high⟩ := numberKey_head_byte u
  have below : Before [ctypeNegInf] (c :: rest) := before_of_head (show ctypeNegInf.toNat < _ from low) _ _
  have above : Before (c :: rest) [ctypePosInf] :=
    before_of_head (show c.toNat < ctypePosInf.toNat from Nat.lt_succ_of_le high) _ _
  rw [encodeFloat64, number, infinite, key]
  cases f.signbit with
  | true => exact keyBefore_of_before _ _ below
  | false => exact keyBefore_of_before _ _ above

theorem double_keyOrder {x : Value} (whole : isInteger x = true) (number : f.isNaN = false) :
    KeyOrder 0x3C 1 (doubleKeyOrder (integer x) f) (EncodeValue x) (EncodeValue (.double f)) := by
  have range := integer_range x
  have positive := one_pos_int
  rw [EncodeValue_integer whole, EncodeValue]
  generalize integer x = n at range ⊢
  unfold doubleKeyOrder
  by_cases finite : f.isFinite
  · rw [not_isInf_of_isFinite finite, if_neg (by decide)]
    by_cases edge : f.units = 2 ^ 63 * one
    · rw [if_pos edge, encodeFloat64_overflow finite edge, int64Overflow_edge edge]
      exact (whole_keyOrder 0x3C ⟨range.1, by omega⟩ ⟨converted_range.1, by have := converted_range.2; omega⟩).mono
        (le_refl _) (Nat.zero_le _)
    · rw [if_neg edge]
      by_cases huge : 2 ^ 64 * one ≤ f.units
      · rw [if_pos huge, encodeFloat64_huge finite huge]
        exact huge_keyOrder range.1 range.2 _
      · rw [if_neg huge]
        by_cases deep : f.units < -2 ^ 63 * one
        · have below : f.units < n * one :=
            Int.lt_of_lt_of_le deep (Int.mul_le_mul_of_nonneg_right range.1 positive.le)
          rw [encodeFloat64_deep finite deep, compare_gt_iff_gt.mpr below]
          exact deep_keyOrder range.1 range.2
        · rw [encodeFloat64_key finite (by omega) (by omega) edge]
          exact finite_keyOrder range ⟨by omega, by omega, .inr ⟨f, rfl⟩⟩
  · have infinite := isInf_of_not number finite
    rw [if_pos infinite]
    exact infinite_keyOrder _ number infinite

end

theorem KeyOrder.compare_append {limit floor : Nat} {order : Ordering} {a b : Bytes}
    (keyed : KeyOrder limit floor order a b) {x y : UInt8} (left : floor ≤ x.toNat ∧ x.toNat < limit)
    (right : floor ≤ y.toNat ∧ y.toNat < limit) (s t : Bytes) :
    compare (a ++ x :: s) (b ++ y :: t) = order.then (compare (x :: s) (y :: t)) := by
  cases order with
  | lt => exact (keyed x s y t left.2 right.1).compare_lt
  | eq => rw [show a = b from keyed, compare_append_left]; rfl
  | gt => exact compare_gt_of_before (keyed y t x s right.2 left.1)

end DumboDB.Index
