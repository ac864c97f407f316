import DumboDB.Types.Compare
import DumboDB.Foundation.Chain
import Mathlib.Algebra.Order.Field.Rat
import Mathlib.Data.Rat.Cast.Order
import Mathlib.Tactic.FieldSimp

/-!
The fast path of `compareNumeric` agrees with the exact comparison: numbers of any two types
compare as their extended rational values.
-/

namespace DumboDB.Types
open Foundation Rounding Binary64 Binary64.Float64

def NumericParts.cmp (p q : NumericParts) : Ordering :=
  (compare p.cls q.cls).then (compare p.rat q.rat)

theorem NumericParts.cmp_finite (r s : ℚ) : (finite r).cmp (finite s) = compare r s := by
  simp [NumericParts.cmp, NumericParts.cls, NumericParts.rat]

variable {f : Float64}

theorem floatParts_nan (nan : f.isNaN = true) : floatParts f = .nan := by
  simp [floatParts, nan]

theorem floatParts_finite (finite : f.isFinite) : floatParts f = .finite (f.units / one) := by
  simp [floatParts, not_isNaN_of_isFinite finite, not_isInf_of_isFinite finite, Rat.mkRat_eq_div]

theorem floatParts_infinite (number : f.isNaN = false) (infinite : ¬ f.isFinite) :
    floatParts f = if f.signbit then .negInf else .posInf := by
  simp [floatParts, number, isInf_of_not number infinite]

theorem units_infinite (number : f.isNaN = false) (infinite : ¬ f.isFinite) :
    f.units = if f.signbit then -(unitsOfMag infMag : Int) else unitsOfMag infMag := by
  have top := isInf_of_not number infinite
  rw [isInf, decide_eq_true_eq] at top
  rw [units, top]

theorem floatParts_ne_nan (number : f.isNaN = false) : floatParts f ≠ .nan := by
  by_cases finite : f.isFinite
  · simp [floatParts_finite finite]
  · rw [floatParts_infinite number finite]
    cases f.signbit <;> simp

theorem compare_div_one (a b : Int) : compare ((a : ℚ) / one) (b / one) = compare a b := by
  have positive : (0 : ℚ) < one := by exact_mod_cast one_pos
  rcases lt_trichotomy a b with less | rfl | greater
  · rw [compare_lt_iff_lt.mpr less, compare_lt_iff_lt]
    gcongr
  · simp
  · rw [compare_gt_iff_gt.mpr greater, compare_gt_iff_gt]
    gcongr

/-- A number other than NaN counted in units, the infinities beyond every finite number. -/
inductive HasUnits : NumericParts → Int → Prop
  | finite {u : Int} (bound : u.natAbs < unitsOfMag infMag) : HasUnits (.finite (u / one)) u
  | posInf : HasUnits .posInf (unitsOfMag infMag)
  | negInf : HasUnits .negInf (-(unitsOfMag infMag : Int))

theorem HasUnits.cmp {p q : NumericParts} {u w : Int} (left : HasUnits p u) (right : HasUnits q w) :
    p.cmp q = compare u w := by
  have top : 0 < unitsOfMag infMag := by
    rw [unitsOfMag_infMag]
    positivity
  cases left with
  | finite bound =>
    cases right with
    | finite _ => rw [NumericParts.cmp_finite, compare_div_one]
    | posInf => exact (compare_lt_iff_lt.mpr (by omega)).symm
    | negInf => exact (compare_gt_iff_gt.mpr (by omega)).symm
  | posInf =>
    cases right with
    | finite bound
    | negInf => exact (compare_gt_iff_gt.mpr (by omega)).symm
    | posInf => rw [compare_eq_iff_eq.mpr rfl]; rfl
  | negInf =>
    cases right with
    | finite bound
    | posInf => exact (compare_lt_iff_lt.mpr (by omega)).symm
    | negInf => rw [compare_eq_iff_eq.mpr rfl]; rfl

theorem floatParts_hasUnits (number : f.isNaN = false) : HasUnits (floatParts f) f.units := by
  by_cases finite : f.isFinite
  · rw [floatParts_finite finite]
    exact .finite (isFinite_iff_units.mp finite)
  · rw [floatParts_infinite number finite, units_infinite number finite]
    cases f.signbit
    · exact .posInf
    · exact .negInf

theorem intParts_hasUnits {n : Int} (bound : n.natAbs ≤ 2 ^ 64) : HasUnits (.finite n) (n * one) := by
  have positive : (one : ℚ) ≠ 0 := by exact_mod_cast one_pos.ne'
  have exact : (n : ℚ) = ((n * one : Int) : ℚ) / one := by
    push_cast
    rw [mul_div_assoc, div_self positive, mul_one]
  rw [exact]
  exact HasUnits.finite (whole_lt_infinity bound)

theorem compareFloats_eq (f g : Float64) : compareFloats f g = (floatParts f).cmp (floatParts g) := by
  unfold compareFloats
  cases left : f.isNaN <;> cases right : g.isNaN
  · rw [(floatParts_hasUnits left).cmp (floatParts_hasUnits right)]
    simp only [Float64.eq, Float64.lt, left, right, Bool.not_false, Bool.true_and, decide_eq_true_eq]
    rcases lt_trichotomy f.units g.units with less | same | greater
    · rw [if_neg less.ne, if_pos less, compare_lt_iff_lt.mpr less]
    · rw [if_pos same, same, compare_eq_iff_eq.mpr rfl]
    · rw [if_neg greater.ne', if_neg greater.asymm, compare_gt_iff_gt.mpr greater]
  · rw [floatParts_nan right]
    cases h : floatParts f with
    | nan => exact absurd h (floatParts_ne_nan left)
    | _ => rfl
  · rw [floatParts_nan left]
    cases h : floatParts g with
    | nan => exact absurd h (floatParts_ne_nan right)
    | _ => rfl
  · rw [floatParts_nan left, floatParts_nan right]
    rfl

theorem floatParts_ofInt {n : Int} (small : n.natAbs ≤ 2 ^ 53) : floatParts (ofInt n) = .finite n := by
  have positive : (one : ℚ) ≠ 0 := by exact_mod_cast one_pos.ne'
  rw [floatParts_finite (isFinite_ofInt small), units_ofInt_of_small small]
  push_cast
  rw [mul_div_assoc, div_self positive, mul_one]

theorem exactFloatInt_small {n : Int64} (small : exactFloatInt n) : n.toInt.natAbs ≤ 2 ^ 53 := by
  have range := of_decide_eq_true small
  unfold maxExactFloatInt at range
  omega

theorem compare_int64 (a b : Int64) : compare a b = compare (a.toInt : ℚ) (b.toInt : ℚ) :=
  compare_embed (fun n : Int64 => (n.toInt : ℚ)) (fun _ _ less => by exact_mod_cast Int64.lt_iff_toInt_lt.mp less) a b

theorem numericParts_int64 {v : Value} {n : Int64} (whole : asInt64 v = some n) :
    numericParts v = some (.finite n.toInt) := by
  cases v <;> simp [asInt64] at whole
  · subst whole
    simp [numericParts]
  · subst whole
    rfl

theorem numericParts_double {v : Value} (double : asFloat64 v = some f) : numericParts v = some (floatParts f) := by
  cases v <;> simp [asFloat64] at double
  subst double
  rfl

theorem compareNumericFast_exact {v1 v2 : Value} {result : Ordering} (fast : compareNumericFast v1 v2 = some result) :
    ∃ p q, numericParts v1 = some p ∧ numericParts v2 = some q ∧ result = p.cmp q := by
  unfold compareNumericFast at fast
  split at fast
  next _ _ left right =>
    refine ⟨_, _, numericParts_int64 left, numericParts_int64 right, ?_⟩
    simpa [NumericParts.cmp_finite, compare_int64] using fast.symm
  next left right _ =>
    refine ⟨_, _, numericParts_double left, numericParts_double right, ?_⟩
    simpa [compareFloats_eq] using fast.symm
  next left right _ _ =>
    split at fast
    next small =>
      refine ⟨_, _, numericParts_int64 left, numericParts_double right, ?_⟩
      simpa [compareFloats_eq, floatParts_ofInt (exactFloatInt_small small)] using fast.symm
    · simp at fast
  next left right _ _ =>
    split at fast
    next small =>
      refine ⟨_, _, numericParts_double right, numericParts_int64 left, ?_⟩
      simpa [compareFloats_eq, floatParts_ofInt (exactFloatInt_small small)] using fast.symm
    · simp at fast
  · simp at fast

theorem compareNumeric_eq {v1 v2 : Value} {p q : NumericParts} (left : numericParts v1 = some p)
    (right : numericParts v2 = some q) : compareNumeric v1 v2 = some (p.cmp q) := by
  unfold compareNumeric
  cases fast : compareNumericFast v1 v2 with
  | some _ =>
    obtain ⟨_, _, left', right', rfl⟩ := compareNumericFast_exact fast
    rw [left] at left'
    rw [right] at right'
    simp only [Option.some.injEq] at left' right'
    rw [left', right']
  | none =>
    rw [left, right]
    cases p <;> cases q <;> rfl

theorem compareNumeric_none {v1 v2 : Value} (other : numericParts v1 = none ∨ numericParts v2 = none) :
    compareNumeric v1 v2 = none := by
  unfold compareNumeric
  cases fast : compareNumericFast v1 v2 with
  | some _ =>
    obtain ⟨p, q, left, right, _⟩ := compareNumericFast_exact fast
    rcases other with h | h
    · simp [h] at left
    · simp [h] at right
  | none =>
    rcases other with h | h
    · simp [h]
    · cases numericParts v1 <;> simp [h]

end DumboDB.Types
