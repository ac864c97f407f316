import DumboDB.Index.IntegerKey

/-!
The key of an exact number: the encoding of its integer part, then the bit pattern of its
distance from there. `EncodeValue` produces it for every number but the double `2^63`.
-/

namespace DumboDB.Index
open Foundation ByteOrder Rounding Binary64 Binary64.Float64 DumboDB.Types

/-- The encoding of an integer part between `-2^63` and `2^64`. -/
def wholeKey (n : Int) : Bytes :=
  if n < 0 then encodeNegInt (Int64.ofInt n) else encodePosInt (UInt64.ofNat n.toNat)

def numberKey (u : Int) : Bytes :=
  if u = 0 then [ctypeZero]
  else if (one : Int) ∣ u ∧ u < 2 ^ 63 * one then wholeKey (u / one)
  else wholeKey (u / one) ++ beBytes 8 (roundMag (u % one).natAbs)

theorem toInt_ofInt_small {n : Int} (low : -2 ^ 63 ≤ n) (high : n < 2 ^ 63) : (Int64.ofInt n).toInt = n :=
  Int64.toInt_ofInt_of_le low high

theorem wholeKey_before {m n : Int} (low : -2 ^ 63 ≤ m) (less : m < n) (high : n < 2 ^ 64) :
    Before (wholeKey m) (wholeKey n) := by
  unfold wholeKey
  by_cases nneg : n < 0
  · rw [if_pos (by omega), if_pos nneg]
    apply encodeNegInt_before
    · rwa [toInt_ofInt_small low (by omega), toInt_ofInt_small (by omega) (by omega)]
    · rwa [toInt_ofInt_small (by omega) (by omega)]
  · rw [if_neg nneg]
    by_cases mneg : m < 0
    · rw [if_pos mneg]
      obtain ⟨c, _, left, _, _⟩ := encodeNegInt_head (Int64.ofInt m)
      obtain ⟨d, _, right, _, _⟩ := encodePosInt_head (UInt64.ofNat n.toNat)
      rw [left, right]
      refine .head ?_
      rw [UInt8.lt_iff_toNat_lt]
      omega
    · rw [if_neg mneg]
      apply encodePosInt_before
      rw [UInt64.toNat_ofNat', UInt64.toNat_ofNat', Nat.mod_eq_of_lt (by omega), Nat.mod_eq_of_lt (by omega)]
      omega

@[simp] theorem numberKey_zero : numberKey 0 = [ctypeZero] := rfl

theorem numberKey_whole {n : Int} (nonzero : n ≠ 0) (high : n < 2 ^ 63) : numberKey (n * one) = wholeKey n := by
  have positive := one_pos_int
  have inside : n * one < 2 ^ 63 * one := Int.mul_lt_mul_of_pos_right high positive
  rw [numberKey, if_neg (Int.mul_ne_zero nonzero positive.ne'),
    if_pos ⟨Int.dvd_mul_left _ _, inside⟩, Int.mul_ediv_cancel _ positive.ne']

theorem encodeInt64_key (n : Int64) : encodeInt64 n = numberKey (n.toInt * one) := by
  obtain ⟨_, high⟩ := toInt64_range n
  have sign : 0 < n ↔ 0 < n.toInt := by
    rw [Int64.lt_iff_toInt_lt, Int64.toInt_zero]
  unfold encodeInt64
  by_cases zero : n = 0
  · subst zero
    simp
  · have other : n.toInt ≠ 0 := fun h => zero (Int64.toInt_inj.mp h)
    rw [if_neg zero, numberKey_whole other high, wholeKey]
    by_cases negative : n.toInt < 0
    · rw [if_neg (by rw [sign]; omega), if_pos negative, Int64.ofInt_toInt]
    · have word := toNat_toUInt64 n
      rw [if_pos (by rw [sign]; omega), if_neg negative]
      congr 1
      apply UInt64.toNat_inj.mp
      rw [UInt64.toNat_ofNat', Nat.mod_eq_of_lt (by omega)]
      omega

section Float
variable {f : Float64}

theorem eq_trunc_iff (finite : f.isFinite) : f.eq f.trunc = true ↔ (one : Int) ∣ f.units := by
  have number := not_isNaN_of_isFinite finite
  have whole : f.trunc.isNaN = false := isNaN_ofUnits _
  simp only [Float64.eq, number, whole, Bool.not_false, Bool.true_and, decide_eq_true_eq, units_trunc finite]
  constructor
  · intro same
    exact ⟨_, same.trans (Int.mul_comm _ _)⟩
  · intro divides
    exact (Int.tdiv_mul_cancel divides).symm

theorem eq_zero_iff (finite : f.isFinite) : f.eq (ofInt 0) = true ↔ f.units = 0 := by
  have zero : (ofInt 0).units = 0 := by
    rw [units_ofInt_of_small (by decide), Int.zero_mul]
  have number : (ofInt 0).isNaN = false := isNaN_ofUnits _
  simp [Float64.eq, not_isNaN_of_isFinite finite, number, zero]

theorem lt_zero_iff (finite : f.isFinite) : (ofInt 0).lt f = true ↔ 0 < f.units := by
  have zero : (ofInt 0).units = 0 := by
    rw [units_ofInt_of_small (by decide), Int.zero_mul]
  have number : (ofInt 0).isNaN = false := isNaN_ofUnits _
  simp [Float64.lt, not_isNaN_of_isFinite finite, number, zero]

theorem units_minInt64Float : minInt64Float.units = -2 ^ 63 * one := by
  decide +kernel

theorem units_maxInt64Float : maxInt64Float.units = 2 ^ 63 * one := by
  decide +kernel

theorem units_maxEncodable : maxEncodable.units = 2 ^ 64 * one := by
  decide +kernel

theorem minInt64Float_le_iff (finite : f.isFinite) : minInt64Float.le f = true ↔ -2 ^ 63 * one ≤ f.units := by
  have number : minInt64Float.isNaN = false := isNaN_ofUnits _
  simp [Float64.le, not_isNaN_of_isFinite finite, number, units_minInt64Float]

theorem le_maxInt64Float_iff (finite : f.isFinite) : f.le maxInt64Float = true ↔ f.units ≤ 2 ^ 63 * one := by
  have number : maxInt64Float.isNaN = false := isNaN_ofUnits _
  simp [Float64.le, not_isNaN_of_isFinite finite, number, units_maxInt64Float]

theorem toInt64_whole [Platform] (finite : f.isFinite) {n : Int} (whole : f.units = n * one)
    (low : -2 ^ 63 ≤ n) (high : n < 2 ^ 63) : toInt64 f = Int64.ofInt n := by
  rw [toInt64, whole, Int.mul_tdiv_cancel _ one_pos_int.ne', if_pos ⟨finite, low, high⟩]

theorem units_ofInt_int64 (n : Int64) : ∃ m : Int, (ofInt n.toInt).units = m * one ∧ -2 ^ 63 ≤ m ∧ m ≤ 2 ^ 63 := by
  obtain ⟨m, whole⟩ := one_dvd_units_ofInt n.toInt
  have positive := one_pos_int
  have low := units_ofInt_mono (Int64.le_toInt n)
  have high := units_ofInt_mono (show n.toInt ≤ 2 ^ 63 - 1 by have := Int64.toInt_lt n; omega)
  have least : (ofInt (-2 ^ 63)).units = -2 ^ 63 * one := units_minInt64Float
  have most : (ofInt (2 ^ 63 - 1)).units = 2 ^ 63 * one := units_maxInt64Float
  rw [least, whole, Int.mul_comm] at low
  rw [most, whole, Int.mul_comm] at high
  exact ⟨m, by rw [whole, Int.mul_comm], Int.le_of_mul_le_mul_right (by simpa [Int.mul_comm] using low) positive,
    Int.le_of_mul_le_mul_right (by simpa [Int.mul_comm] using high) positive⟩

theorem toUInt64_whole [Platform] (finite : f.isFinite) {n : Int} (whole : f.units = n * one)
    (low : 0 ≤ n) (high : n < 2 ^ 64) : toUInt64 f = UInt64.ofNat n.toNat := by
  rw [toUInt64, whole, Int.mul_tdiv_cancel _ one_pos_int.ne', if_pos ⟨finite, low, high⟩]

theorem appendFraction_ofUnits (out : Bytes) (u : Int) :
    appendFraction out (ofUnits (u % one)) = out ++ beBytes 8 (roundMag (u % one).natAbs) := by
  have bound := roundMag_fraction_le u
  have top : 1023 * 2 ^ 52 < infMag := by decide
  rw [appendFraction, bits_ofUnits (Int.emod_nonneg u one_pos_int.ne'), Nat.min_eq_left (by omega)]

end Float

section Encode
variable [Platform] {f : Float64}

/-- The branches that are left for a finite number other than zero. -/
theorem encodeFloat64_finite (finite : f.isFinite) (nonzero : f.units ≠ 0) : encodeFloat64 f =
    if (one : Int) ∣ f.units ∧ -2 ^ 63 * one ≤ f.units ∧ f.units ≤ 2 ^ 63 * one then encodeInt64 (toInt64 f)
    else if 0 < f.units then appendFraction (encodePosInt (toUInt64 f.floor)) (f.sub f.floor)
    else appendFraction (encodeNegInt (toInt64 f.neg.ceil.neg)) (f.neg.ceil.add f) := by
  simp [encodeFloat64, not_isNaN_of_isFinite finite, not_isInf_of_isFinite finite, eq_zero_iff finite, nonzero,
    eq_trunc_iff finite, minInt64Float_le_iff finite, le_maxInt64Float_iff finite, lt_zero_iff finite, and_assoc]

section

variable (finite : f.isFinite) (low : -2 ^ 63 * one ≤ f.units) (high : f.units < 2 ^ 64 * one)
include finite low high

theorem encodeFloat64_split (other : ¬ ((one : Int) ∣ f.units ∧ f.units ≤ 2 ^ 63 * one)) (nonzero : f.units ≠ 0) :
    encodeFloat64 f = wholeKey (f.units / one) ++ beBytes 8 (roundMag (f.units % one).natAbs) := by
  have positive := one_pos_int
  have least : -2 ^ 63 ≤ f.units / one := (Int.le_ediv_iff_mul_le positive).mpr low
  have most : f.units / one < 2 ^ 64 := Int.ediv_lt_of_lt_mul positive high
  have split := Int.emod_add_mul_ediv f.units one
  rw [encodeFloat64_finite finite nonzero, if_neg fun h => other ⟨h.1, h.2.2⟩]
  by_cases sign : 0 < f.units
  · have floor := units_floor finite
    have nonneg : 0 ≤ f.units / one := Int.ediv_nonneg sign.le positive.le
    have rest : f.sub f.floor = ofUnits (f.units % one) := by
      rw [Float64.sub, floor, Int.mul_comm]
      congr 1
      omega
    rw [if_pos sign, rest, appendFraction_ofUnits, toUInt64_whole (isFinite_of_bound floor (by omega)) floor
      nonneg most, wholeKey, if_neg (by omega)]
  · have negative : f.units / one < 0 := Int.ediv_neg_of_neg_of_pos (by omega) positive
    have ceil : f.neg.ceil.units = -(f.units / one) * one := by
      rw [units_ceil (by rw [isFinite_neg]; exact finite), units_neg, Int.neg_neg]
    have back : f.neg.ceil.neg.units = f.units / one * one := by
      rw [units_neg, ceil, Int.neg_mul, Int.neg_neg]
    have rest : f.neg.ceil.add f = ofUnits (f.units % one) := by
      rw [Float64.add, ceil, Int.neg_mul, Int.mul_comm]
      congr 1
      omega
    have inside : f.units / one < 2 ^ 63 := by omega
    rw [if_neg sign, rest, appendFraction_ofUnits, toInt64_whole (isFinite_of_bound back (by omega)) back least
      inside, wholeKey, if_pos negative]

theorem encodeFloat64_key (other : f.units ≠ 2 ^ 63 * one) : encodeFloat64 f = numberKey f.units := by
  by_cases zero : f.units = 0
  · have is := (eq_zero_iff finite).mpr zero
    rw [zero, encodeFloat64, not_isNaN_of_isFinite finite, not_isInf_of_isFinite finite, is]
    rfl
  · by_cases whole : (one : Int) ∣ f.units ∧ f.units ≤ 2 ^ 63 * one
    · have positive := one_pos_int
      obtain ⟨n, number⟩ := whole.1
      rw [Int.mul_comm] at number
      rw [number] at low other
      have least : -2 ^ 63 ≤ n := Int.le_of_mul_le_mul_right low positive
      have most : n < 2 ^ 63 := by
        have le := Int.le_of_mul_le_mul_right (number ▸ whole.2) positive
        have ne : n ≠ 2 ^ 63 := fun h => other (by rw [h])
        omega
      rw [encodeFloat64_finite finite zero, if_pos ⟨whole.1, number ▸ low, whole.2⟩,
        toInt64_whole finite number least most, encodeInt64_key, toInt_ofInt_small least most, number]
    · rw [encodeFloat64_split finite low high whole zero, numberKey, if_neg zero,
        if_neg (fun h => whole ⟨h.1, h.2.le⟩)]

end

theorem encodeFloat64_overflow (finite : f.isFinite) (edge : f.units = 2 ^ 63 * one) :
    encodeFloat64 f = numberKey ((int64Overflow Platform.arch f).toInt * one) := by
  have positive := one_pos_int
  have inside : (one : Int) ∣ f.units ∧ -2 ^ 63 * one ≤ f.units ∧ f.units ≤ 2 ^ 63 * one :=
    ⟨edge ▸ Int.dvd_mul_left _ _, by omega, edge.le⟩
  have converted : toInt64 f = int64Overflow Platform.arch f := by
    rw [toInt64, edge, Int.mul_tdiv_cancel _ positive.ne', if_neg (by omega)]
  rw [encodeFloat64_finite finite (by omega), if_pos inside, converted, encodeInt64_key]

end Encode

end DumboDB.Index
