import DumboDB.Foundation.Rounding
import Mathlib.Data.Int.Init
import Mathlib.Data.Nat.Cast.Basic
import Mathlib.Algebra.Order.Group.Unbundled.Int

/-!
IEEE 754 binary64 numbers as bit patterns. Every number is counted in units of the smallest
subnormal, so arithmetic on finite numbers is integer arithmetic followed by one rounding.
-/

namespace DumboDB.Foundation.Binary64
open Rounding

structure Float64 where
  bits : UInt64
deriving DecidableEq, Repr

/-- The smallest subnormal is `2^-1074`. -/
def unitExponent : Nat := 1074

/-- The units in `1.0`. -/
def one : Nat := 2 ^ unitExponent

/-- The magnitude index of infinity; the indices above it are the NaNs. -/
def infMag : Nat := 2047 * 2 ^ 52

theorem one_pos : 0 < one := by
  unfold one
  positivity

theorem one_pos_int : (0 : Int) < one := by exact_mod_cast one_pos

namespace Float64

def signbit (f : Float64) : Bool := decide (2 ^ 63 ≤ f.bits.toNat)

def mag (f : Float64) : Nat := f.bits.toNat % 2 ^ 63

def isNaN (f : Float64) : Bool := decide (infMag < f.mag)

def isInf (f : Float64) : Bool := decide (f.mag = infMag)

def isFinite (f : Float64) : Bool := decide (f.mag < infMag)

/-- The number in units, with the infinities one step beyond the largest finite numbers. -/
def units (f : Float64) : Int :=
  if f.signbit then -(unitsOfMag f.mag : Int) else unitsOfMag f.mag

def ofMag (negative : Bool) (k : Nat) : Float64 :=
  ⟨UInt64.ofNat (if negative then 2 ^ 63 + k else k)⟩

/-- Round-to-nearest, ties to even; beyond the largest finite number the result is infinite. -/
def ofUnits (n : Int) : Float64 := ofMag (decide (n < 0)) (min (roundMag n.natAbs) infMag)

def ofInt (n : Int) : Float64 := ofUnits (n * one)

/-! Comparison, with NaN unordered. -/

def eq (a b : Float64) : Bool := !a.isNaN && !b.isNaN && decide (a.units = b.units)

def lt (a b : Float64) : Bool := !a.isNaN && !b.isNaN && decide (a.units < b.units)

def le (a b : Float64) : Bool := !a.isNaN && !b.isNaN && decide (a.units ≤ b.units)

/-! Arithmetic on finite numbers. -/

def add (a b : Float64) : Float64 := ofUnits (a.units + b.units)

def sub (a b : Float64) : Float64 := ofUnits (a.units - b.units)

def neg (f : Float64) : Float64 := ofMag (!f.signbit) f.mag

def floor (f : Float64) : Float64 := ofInt (f.units / one)

def ceil (f : Float64) : Float64 := ofInt (-(-f.units / one))

def trunc (f : Float64) : Float64 := ofInt (f.units.tdiv one)

end Float64

open Float64

variable {k : Nat} {n : Int} {f : Float64}

section

variable (negative : Bool) (bound : k < 2 ^ 63)
include negative bound

theorem mag_ofMag : (ofMag negative k).mag = k := by
  simp only [mag, ofMag, UInt64.toNat_ofNat']
  cases negative <;> simp <;> omega

theorem signbit_ofMag : (ofMag negative k).signbit = negative := by
  simp only [signbit, ofMag, UInt64.toNat_ofNat']
  cases negative <;> simp <;> omega

theorem units_ofMag : (ofMag negative k).units = if negative then -(unitsOfMag k : Int) else unitsOfMag k := by
  rw [units, mag_ofMag negative bound, signbit_ofMag negative bound]

end

theorem mag_lt (f : Float64) : f.mag < 2 ^ 63 := Nat.mod_lt _ (by decide)

@[simp] theorem units_neg (f : Float64) : f.neg.units = -f.units := by
  rw [neg, units_ofMag _ (mag_lt f), units]
  cases f.signbit <;> simp

theorem isFinite_neg (f : Float64) : f.neg.isFinite = f.isFinite := by
  rw [isFinite, isFinite, neg, mag_ofMag _ (mag_lt f)]

@[simp] theorem natAbs_units (f : Float64) : f.units.natAbs = unitsOfMag f.mag := by
  rw [units]
  cases f.signbit <;> simp

theorem unitsOfMag_lt {j : Nat} (less : j < k) : unitsOfMag j < unitsOfMag k := by
  by_contra large
  have back := roundMag_mono (Nat.le_of_not_lt large)
  rw [roundMag_unitsOfMag, roundMag_unitsOfMag] at back
  omega

theorem unitsOfMag_le_iff {j : Nat} : unitsOfMag j ≤ unitsOfMag k ↔ j ≤ k := by
  constructor
  · intro le
    by_contra large
    have := unitsOfMag_lt (Nat.lt_of_not_le large)
    omega
  · intro le
    rcases Nat.lt_or_eq_of_le le with less | rfl
    · exact (unitsOfMag_lt less).le
    · exact le_refl _

theorem units_grid (f : Float64) : ∃ s, 2 ^ s ∣ unitsOfMag f.mag ∧ unitsOfMag f.mag < 2 ^ (s + 53) := by
  rcases mag_cases f.mag with small | ⟨s, m, lower, upper, same⟩
  · refine ⟨0, one_dvd _, ?_⟩
    rw [unitsOfMag_small small]
    simpa using small
  · refine ⟨s, ?_, ?_⟩
    · rw [same, unitsOfMag_normal s m lower upper]
      exact Nat.dvd_mul_left _ _
    · rw [same, unitsOfMag_normal s m lower upper, Nat.add_comm, pow_add]
      exact Nat.mul_lt_mul_of_pos_right upper (by positivity)

theorem one_dvd_of_large (f : Float64) (large : 2 ^ 52 * one ≤ unitsOfMag f.mag) : one ∣ unitsOfMag f.mag := by
  obtain ⟨s, grid, bound⟩ := units_grid f
  have reach := Nat.lt_of_le_of_lt large bound
  rw [one, ← pow_add] at reach
  have scale : 52 + unitExponent < s + 53 := (Nat.pow_lt_pow_iff_right (by decide)).mp reach
  exact (pow_dvd_pow 2 (by omega : unitExponent ≤ s)).trans grid

theorem infMag_lt : infMag < 2 ^ 63 := by decide

theorem units_ofUnits_of_mag (same : n.natAbs = unitsOfMag k) (range : k ≤ infMag) : (ofUnits n).units = n := by
  rw [ofUnits, same, roundMag_unitsOfMag, Nat.min_eq_left range,
    units_ofMag _ (Nat.lt_of_le_of_lt range infMag_lt), ← same]
  by_cases negative : n < 0
  · simp only [negative, decide_true, if_true]
    omega
  · simp only [negative, decide_false, Bool.false_eq_true, if_false]
    omega

theorem unitsOfMag_infMag : unitsOfMag infMag = 2 ^ (unitExponent + 1024) := by
  have split : infMag = (unitExponent + 972) * 2 ^ 52 + 2 ^ 52 := by decide
  rw [split, unitsOfMag_normal _ (2 ^ 52) (le_refl _) (by decide), ← pow_add]
  congr 1

theorem units_ofInt_of_small (small : n.natAbs ≤ 2 ^ 53) : (ofInt n).units = n * one := by
  have size : (n * one).natAbs = n.natAbs * one := by rw [Int.natAbs_mul, Int.natAbs_natCast]
  have bound : n.natAbs * one ≤ 2 ^ (unitExponent + 53) := by
    rw [Nat.add_comm, pow_add, ← one]
    exact Nat.mul_le_mul_right one small
  have exact := unitsOfMag_roundMag (s := unitExponent) (Nat.dvd_mul_left one n.natAbs) bound
  apply units_ofUnits_of_mag (size.trans exact.symm)
  rw [← unitsOfMag_le_iff]
  rw [exact, unitsOfMag_infMag]
  exact bound.trans (Nat.pow_le_pow_right (by decide) (by decide))

theorem units_ofInt_near (f : Float64) (finite : f.isFinite)
    (near : (n * one - f.units).natAbs < one) (whole : (one : Int) ∣ f.units → n * one = f.units) :
    (ofInt n).units = n * one := by
  rcases Nat.lt_or_ge (unitsOfMag f.mag) (2 ^ 52 * one) with small | large
  · apply units_ofInt_of_small
    rw [← natAbs_units] at small
    have size : (n * one).natAbs = n.natAbs * one := by rw [Int.natAbs_mul, Int.natAbs_natCast]
    have bound : n.natAbs * one < (2 ^ 52 + 1) * one := by
      omega
    have := Nat.lt_of_mul_lt_mul_right bound
    omega
  · have exact : n * one = f.units := by
      apply whole
      rw [← Int.natAbs_dvd_natAbs, natAbs_units]
      exact one_dvd_of_large f large
    rw [ofInt, exact]
    apply units_ofUnits_of_mag (natAbs_units f)
    simp only [isFinite, decide_eq_true_eq] at finite
    exact finite.le

section

variable (finite : f.isFinite)
include finite

theorem units_floor : f.floor.units = f.units / one * one := by
  have positive := one_pos_int
  apply units_ofInt_near f finite
  · have split := Int.emod_add_mul_ediv f.units one
    have low := Int.emod_nonneg f.units positive.ne'
    have high := Int.emod_lt_of_pos f.units positive
    rw [Int.mul_comm]
    omega
  · intro whole
    exact Int.ediv_mul_cancel whole

theorem units_ceil : f.ceil.units = -(-f.units / one) * one := by
  have positive := one_pos_int
  apply units_ofInt_near f finite
  · have split := Int.emod_add_mul_ediv (-f.units) one
    have low := Int.emod_nonneg (-f.units) positive.ne'
    have high := Int.emod_lt_of_pos (-f.units) positive
    rw [Int.neg_mul, Int.mul_comm]
    omega
  · intro whole
    rw [Int.neg_mul, Int.ediv_mul_cancel (Int.dvd_neg.mpr whole), Int.neg_neg]

theorem units_trunc : f.trunc.units = f.units.tdiv one * one := by
  have positive := one_pos_int
  apply units_ofInt_near f finite
  · have split := Int.tmod_add_mul_tdiv f.units one
    have small := Int.tmod_lt_of_pos f.units positive
    have large := Int.lt_tmod_of_pos f.units positive
    rw [Int.mul_comm]
    omega
  · intro whole
    exact Int.tdiv_mul_cancel whole

theorem not_isNaN_of_isFinite : f.isNaN = false := by
  simp only [isFinite, decide_eq_true_eq] at finite
  simp only [isNaN, decide_eq_false_iff_not]
  omega

end

theorem isFinite_iff_units : f.isFinite ↔ f.units.natAbs < unitsOfMag infMag := by
  rw [natAbs_units, isFinite, decide_eq_true_eq]
  constructor
  · exact unitsOfMag_lt
  · intro _
    by_contra large
    have := unitsOfMag_le_iff.mpr (Nat.le_of_not_lt large)
    omega

theorem whole_lt_infinity (bound : n.natAbs ≤ 2 ^ 64) : (n * one).natAbs < unitsOfMag infMag := by
  rw [Int.natAbs_mul, Int.natAbs_natCast, unitsOfMag_infMag]
  calc n.natAbs * one ≤ 2 ^ 64 * one := Nat.mul_le_mul_right one bound
    _ = 2 ^ (64 + unitExponent) := by rw [one, pow_add]
    _ < 2 ^ (unitExponent + 1024) := Nat.pow_lt_pow_right (by decide) (by omega)

theorem isFinite_of_bound (whole : f.units = n * one) (bound : n.natAbs ≤ 2 ^ 64) : f.isFinite := by
  rw [isFinite_iff_units, whole]
  exact whole_lt_infinity bound

theorem isFinite_ofInt (small : n.natAbs ≤ 2 ^ 53) : (ofInt n).isFinite :=
  isFinite_of_bound (units_ofInt_of_small small) (by omega)

theorem isInf_of_not (number : f.isNaN = false) (infinite : ¬ f.isFinite) : f.isInf = true := by
  simp only [isNaN, decide_eq_false_iff_not] at number
  simp only [isFinite, decide_eq_true_eq] at infinite
  simp only [isInf, decide_eq_true_eq]
  omega

theorem nan_or_inf_eq (f : Float64) : (f.isNaN || f.isInf) = !f.isFinite := by
  rw [Bool.eq_iff_iff]
  simp only [isFinite, isNaN, isInf, Bool.or_eq_true, Bool.not_eq_true', decide_eq_true_eq, decide_eq_false_iff_not]
  omega

theorem not_isInf_of_isFinite (finite : f.isFinite) : f.isInf = false := by
  simp only [isFinite, decide_eq_true_eq] at finite
  simp only [isInf, decide_eq_false_iff_not]
  omega

theorem isNaN_ofUnits (n : Int) : (ofUnits n).isNaN = false := by
  have bound := Nat.min_le_right (roundMag n.natAbs) infMag
  rw [isNaN, decide_eq_false_iff_not, ofUnits, mag_ofMag _ (Nat.lt_of_le_of_lt bound infMag_lt)]
  omega

theorem signbit_of_units_pos (positive : 0 < f.units) : f.signbit = false := by
  by_contra negative
  rw [Bool.not_eq_false] at negative
  rw [units, negative, if_pos rfl] at positive
  omega

theorem eq_of_units_pos {g : Float64} (positive : 0 < f.units) (same : f.units = g.units) : f = g := by
  have left := signbit_of_units_pos positive
  have right := signbit_of_units_pos (same ▸ positive)
  have mags : f.mag = g.mag := by
    rw [units, units, left, right] at same
    exact unitsOfMag_injective (by simpa using same)
  have bits : f.bits = g.bits := by
    simp only [signbit, decide_eq_false_iff_not] at left right
    simp only [mag] at mags
    exact UInt64.toNat_inj.mp (by omega)
  cases f
  cases g
  simpa using bits

theorem units_ofUnits (n : Int) : (ofUnits n).units = if n
    < 0 then -(unitsOfMag (min (roundMag n.natAbs) infMag) : Int)
    else unitsOfMag (min (roundMag n.natAbs) infMag) := by
  have bound := Nat.min_le_right (roundMag n.natAbs) infMag
  rw [ofUnits, units_ofMag _ (Nat.lt_of_le_of_lt bound infMag_lt)]
  simp

theorem units_ofUnits_mono {a b : Int} (le : a ≤ b) : (ofUnits a).units ≤ (ofUnits b).units := by
  have step {m n : Nat} (le : m ≤ n) : unitsOfMag (min (roundMag m) infMag) ≤ unitsOfMag
    (min (roundMag n) infMag) := by
    have := roundMag_mono le
    exact unitsOfMag_le_iff.mpr (by omega)
  rw [units_ofUnits, units_ofUnits]
  split <;> split
  · have := step (m := b.natAbs) (n := a.natAbs) (by omega)
    omega
  · omega
  · omega
  · have := step (m := a.natAbs) (n := b.natAbs) (by omega)
    omega

theorem units_ofInt_mono {a b : Int} (le : a ≤ b) : (ofInt a).units ≤ (ofInt b).units :=
  units_ofUnits_mono (Int.mul_le_mul_of_nonneg_right le (Int.natCast_nonneg _))

theorem one_dvd_units_ofInt (n : Int) : (one : Int) ∣ (ofInt n).units := by
  rcases Nat.lt_or_ge (2 ^ 53) n.natAbs with large | small
  · have top : (ofInt (2 ^ 53)).units = 2 ^ 53 * one := units_ofInt_of_small (by decide)
    have bottom : (ofInt (-2 ^ 53)).units = -2 ^ 53 * one := units_ofInt_of_small (by decide)
    have reach : 2 ^ 52 * one ≤ unitsOfMag (ofInt n).mag := by
      rw [← natAbs_units]
      rcases Int.le_total 0 n with nonneg | negative
      · have := units_ofInt_mono (show (2 ^ 53 : Int) ≤ n by omega)
        omega
      · have := units_ofInt_mono (show n ≤ (-2 ^ 53 : Int) by omega)
        omega
    rw [← Int.natAbs_dvd_natAbs, natAbs_units]
    exact one_dvd_of_large _ reach
  · rw [units_ofInt_of_small small]
    exact Int.dvd_mul_left _ _

theorem bits_ofUnits (nonneg : 0 ≤ n) : (ofUnits n).bits.toNat = min (roundMag n.natAbs) infMag := by
  have bound := Nat.min_le_right (roundMag n.natAbs) infMag
  have small := Nat.lt_of_le_of_lt bound infMag_lt
  simp only [ofUnits, ofMag, Int.not_lt.mpr nonneg, decide_false, Bool.false_eq_true, if_false, UInt64.toNat_ofNat']
  exact Nat.mod_eq_of_lt (by omega)

theorem roundMag_one : roundMag one = 1023 * 2 ^ 52 := by
  have split : one = 2 ^ 52 * 2 ^ 1022 := by
    rw [one, ← pow_add]
    congr 1
  rw [split, roundMag_normal 1022 (2 ^ 52) (le_refl _) (by decide)]
  ring

/-! The fraction of a number that is no integer. -/

section Fraction
variable {f : Float64}

theorem grid_of_fraction (fraction : ¬ (one : Int) ∣ f.units) :
    ∃ s, s < unitExponent ∧ (2 ^ s : Int) ∣ f.units % one ∧ f.units.natAbs < 2 ^ (s + 53) ∧
      2 ^ s ∣ f.units.natAbs := by
  obtain ⟨s, grid, bound⟩ := units_grid f
  rw [← natAbs_units] at grid bound
  have fine : s < unitExponent := by
    by_contra coarse
    apply fraction
    rw [← Int.natAbs_dvd_natAbs]
    exact (pow_dvd_pow 2 (Nat.le_of_not_lt coarse)).trans grid
  refine ⟨s, fine, ?_, bound, grid⟩
  have whole : (2 ^ s : Int) ∣ one := by
    exact_mod_cast pow_dvd_pow 2 fine.le
  have number : (2 ^ s : Int) ∣ f.units := by
    rw [← Int.natAbs_dvd_natAbs]
    simpa [Int.natAbs_pow] using grid
  rw [Int.emod_def]
  exact Int.dvd_sub number (whole.mul_right _)

theorem fraction_pos (fraction : ¬ (one : Int) ∣ f.units) : 0 < f.units % one ∧ f.units % one < one := by
  have positive := one_pos_int
  exact ⟨by omega, Int.emod_lt_of_pos _ positive⟩

private theorem large_of_whole (low : f.units / one ≠ 0) (high : f.units / one ≠ -1) : one ≤ f.units.natAbs := by
  have positive := one_pos_int
  have split := Int.emod_add_mul_ediv f.units one
  have least := Int.emod_nonneg f.units positive.ne'
  have most := Int.emod_lt_of_pos f.units positive
  rcases lt_or_ge (f.units / one) 0 with negative | nonneg
  · have := Int.mul_le_mul_of_nonneg_left (show f.units / one ≤ -2 by omega) positive.le
    omega
  · have := Int.mul_le_mul_of_nonneg_left (show 1 ≤ f.units / one by omega) positive.le
    omega

theorem fraction_exact (fraction : ¬ (one : Int) ∣ f.units) (whole : f.units / one ≠ -1) :
    unitsOfMag (roundMag (f.units % one).natAbs) = (f.units % one).natAbs := by
  obtain ⟨s, _, grid, _, _⟩ := grid_of_fraction fraction
  obtain ⟨_, _⟩ := fraction_pos fraction
  have size : (f.units % one).natAbs ≤ f.units.natAbs := by
    by_cases zero : f.units / one = 0
    · have split := Int.emod_add_mul_ediv f.units one
      rw [zero, Int.mul_zero] at split
      omega
    · have := large_of_whole zero whole
      omega
  apply unitsOfMag_roundMag (s := s) _ (by omega)
  rw [← Int.natAbs_dvd_natAbs, Int.natAbs_pow] at grid
  exact grid

theorem roundMag_fraction_le (n : Int) : roundMag (n % one).natAbs ≤ 1023 * 2 ^ 52 := by
  have positive := one_pos_int
  have low := Int.emod_nonneg n positive.ne'
  have high := Int.emod_lt_of_pos n positive
  rw [← roundMag_one]
  exact roundMag_mono (by omega)

/-- The spacing of the numbers between `1/2` and `1` is `2^-53`. -/
def halfExponent : Nat := 1021

def halfGrid : Nat := 2 ^ halfExponent

theorem one_eq_halfGrid : one = 2 * 2 ^ 52 * halfGrid := by
  rw [one, halfGrid, ← pow_succ', ← pow_add]
  congr 1

theorem halfGrid_pos : 0 < halfGrid := by
  unfold halfGrid
  positivity

theorem roundHalfEven_le_one {u : Int} (low : -(one : Int) < u) (high : u < 0) :
    roundHalfEven u.natAbs halfGrid ≤ 2 ^ 53 := by
  calc roundHalfEven u.natAbs halfGrid ≤ roundHalfEven (2 ^ 53 * halfGrid) halfGrid :=
        roundHalfEven_mono _ (by have := one_eq_halfGrid; omega)
    _ = 2 ^ 53 := roundHalfEven_mul _ halfGrid_pos

theorem roundMag_halfGrid : roundMag halfGrid = 970 * 2 ^ 52 := by
  have split : halfGrid = 2 ^ 52 * 2 ^ 969 := by
    rw [halfGrid, ← pow_add]
    congr 1
  rw [split, roundMag_normal 969 (2 ^ 52) (le_refl _) (by decide)]
  ring

private theorem halfGrid_dvd_of_large (fraction : ¬ (one : Int) ∣ f.units)
    (large : 2 ^ 52 * halfGrid < f.units.natAbs) : (halfGrid : Int) ∣ f.units % one ∧ halfGrid ∣ f.units.natAbs := by
  obtain ⟨s, _, grid, bound, gridU⟩ := grid_of_fraction fraction
  have reach := large.trans bound
  rw [halfGrid, ← pow_add] at reach
  have scale : 52 + halfExponent < s + 53 := (Nat.pow_lt_pow_iff_right (by decide)).mp reach
  have coarse : halfExponent ≤ s := by omega
  refine ⟨Dvd.dvd.trans ?_ grid, (pow_dvd_pow 2 coarse).trans gridU⟩
  exact_mod_cast pow_dvd_pow 2 coarse

private theorem emod_of_small (negative : f.units < 0) (small : -(one : Int) < f.units) :
    (f.units % one).natAbs = one - f.units.natAbs := by
  have shifted : f.units % one = f.units + one := by
    rw [← Int.add_emod_right, Int.emod_eq_of_lt] <;> omega
  omega

theorem le_roundMag_fraction (fraction : ¬ (one : Int) ∣ f.units) (whole : f.units / one ≠ 0) :
    970 * 2 ^ 52 ≤ roundMag (f.units % one).natAbs := by
  rw [← roundMag_halfGrid]
  apply roundMag_mono
  obtain ⟨low, _⟩ := fraction_pos fraction
  rcases Nat.lt_or_ge (2 ^ 52 * halfGrid) f.units.natAbs with large | half
  · have step := Int.le_of_dvd low (halfGrid_dvd_of_large fraction large).1
    omega
  · have whole' : f.units / one = -1 := by
      by_contra other
      have := large_of_whole whole other
      rw [one_eq_halfGrid] at this
      have := halfGrid_pos
      omega
    have split := Int.emod_add_mul_ediv f.units one
    rw [whole'] at split
    have := one_eq_halfGrid
    omega

theorem unitsOfMag_roundMag_reflected (negative : f.units < 0) (small : -(one : Int) < f.units) :
    unitsOfMag (roundMag (f.units % one).natAbs) = (2 ^ 53 - roundHalfEven f.units.natAbs halfGrid) * halfGrid := by
  have fraction : ¬ (one : Int) ∣ f.units := by
    intro whole
    have := Int.le_of_dvd (by omega : 0 < -f.units) (Int.dvd_neg.mpr whole)
    omega
  rw [emod_of_small negative small]
  have positive := halfGrid_pos
  rcases Nat.lt_or_ge (2 ^ 52 * halfGrid) f.units.natAbs with large | half
  · obtain ⟨q, multiple⟩ := (halfGrid_dvd_of_large fraction large).2
    rw [Nat.mul_comm] at multiple
    have exact : one - f.units.natAbs = (2 ^ 53 - q) * halfGrid := by
      rw [multiple, one_eq_halfGrid, Nat.sub_mul, show 2 * 2 ^ 52 = 2 ^ 53 from rfl]
    rw [multiple, roundHalfEven_mul q positive, ← multiple, exact]
    apply unitsOfMag_roundMag (s := halfExponent) (Nat.dvd_mul_left _ _)
    rw [Nat.add_comm, pow_add]
    exact Nat.mul_le_mul_right _ (Nat.sub_le _ _)
  · have reflect := roundHalfEven_reflect (n := f.units.natAbs) (h := 2 ^ 52) positive
      (by rw [← one_eq_halfGrid]; omega)
    rw [← one_eq_halfGrid] at reflect
    have lower : 2 ^ 52 ≤ roundHalfEven (one - f.units.natAbs) halfGrid := by
      calc 2 ^ 52 = roundHalfEven (2 ^ 52 * halfGrid) halfGrid := (roundHalfEven_mul _ positive).symm
        _ ≤ _ := roundHalfEven_mono _ (by rw [one_eq_halfGrid]; omega)
    have scale : Nat.log2 (one - f.units.natAbs) = 52 + halfExponent := by
      rw [Nat.log2_eq_iff (by omega), pow_add, Nat.add_right_comm, pow_add, ← halfGrid]
      have := one_eq_halfGrid
      omega
    have flipped : 2 ^ 53 - roundHalfEven f.units.natAbs halfGrid =
        roundHalfEven (one - f.units.natAbs) halfGrid := by omega
    have upper : roundHalfEven (one - f.units.natAbs) halfGrid ≤ 2 ^ 53 := by omega
    rw [roundMag, scale, Nat.add_sub_cancel_left, ← halfGrid, flipped]
    rcases Nat.lt_or_eq_of_le upper with inside | top
    · rw [unitsOfMag_normal halfExponent _ lower inside, ← halfGrid]
    · rw [top, unitsOfMag_carry halfExponent, ← halfGrid]

end Fraction

-- numerals this large must never be computed by unification
attribute [irreducible] one halfGrid

end DumboDB.Foundation.Binary64
