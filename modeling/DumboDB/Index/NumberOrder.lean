import DumboDB.Index.NumberKey
import DumboDB.Types.TotalOrder

/-!
Byte order of number keys against numeric order. The keys of two numbers diverge in numeric
order unless both lie in `(-1, 0)` and round to one multiple of `2^-53`.
-/

namespace DumboDB.Index
open Foundation ByteOrder Rounding Binary64 Binary64.Float64 DumboDB.Types List

/-- Units of a number that has a key: an integer of the encodable range or a finite double. -/
def Encodable (u : Int) : Prop :=
  -2 ^ 63 * one ≤ u ∧ u < 2 ^ 64 * one ∧ ((one : Int) ∣ u ∨ ∃ f : Float64, f.units = u)

/-- Two numbers in `(-1, 0)` with one nearest multiple of `2^-53`, ties to even. -/
def Collide (u v : Int) : Prop :=
  (-(one : Int) < u ∧ u < 0) ∧ (-(one : Int) < v ∧ v < 0) ∧
    roundHalfEven u.natAbs halfGrid = roundHalfEven v.natAbs halfGrid

instance (u v : Int) : Decidable (Collide u v) := inferInstanceAs (Decidable (_ ∧ _))

variable {u v : Int}

theorem Collide.symm (collide : Collide u v) : Collide v u :=
  ⟨collide.2.1, collide.1, collide.2.2.symm⟩

theorem Encodable.float (encodable : Encodable u) (fraction : ¬ (one : Int) ∣ u) : ∃ f : Float64, f.units = u :=
  encodable.2.2.resolve_left fraction

theorem numberKey_fraction (fraction : ¬ (one : Int) ∣ u) :
    numberKey u = wholeKey (u / one) ++ beBytes 8 (roundMag (u % one).natAbs) := by
  rw [numberKey, if_neg (by rintro rfl; exact fraction (Int.dvd_zero _)), if_neg (fun h => fraction h.1)]

theorem numberKey_head (nonzero : u ≠ 0) : ∃ tail, numberKey u = wholeKey (u / one) ++ tail := by
  rw [numberKey, if_neg nonzero]
  split
  · exact ⟨[], by simp⟩
  · exact ⟨_, rfl⟩

theorem whole_bounds (encodable : Encodable u) : -2 ^ 63 ≤ u / one ∧ u / one < 2 ^ 64 :=
  ⟨(Int.le_ediv_iff_mul_le one_pos_int).mpr encodable.1, Int.ediv_lt_of_lt_mul one_pos_int encodable.2.1⟩

theorem roundMag_fraction_lt {f g : Float64} (left : ¬ (one : Int) ∣ f.units)
    (right : ¬ (one : Int) ∣ g.units) (same : f.units / one = g.units / one)
    (less : f.units < g.units) (apart : ¬ Collide f.units g.units) :
    roundMag (f.units % one).natAbs < roundMag (g.units % one).natAbs := by
  have splitf := Int.emod_add_mul_ediv f.units one
  have splitg := Int.emod_add_mul_ediv g.units one
  rw [← same] at splitg
  obtain ⟨_, _⟩ := fraction_pos right
  have order : (f.units % one).natAbs < (g.units % one).natAbs := by omega
  apply lt_of_le_of_ne (roundMag_mono order.le)
  intro equal
  have units := congrArg unitsOfMag equal
  by_cases whole : f.units / one = -1
  · rw [whole] at splitf splitg
    have fneg : -(one : Int) < f.units ∧ f.units < 0 := by omega
    have gneg : -(one : Int) < g.units ∧ g.units < 0 := by omega
    rw [unitsOfMag_roundMag_reflected fneg.2 fneg.1, unitsOfMag_roundMag_reflected gneg.2 gneg.1] at units
    have rounded := Nat.eq_of_mul_eq_mul_right halfGrid_pos units
    have fbound := roundHalfEven_le_one fneg.1 fneg.2
    have gbound := roundHalfEven_le_one gneg.1 gneg.2
    exact apart ⟨fneg, gneg, by omega⟩
  · rw [fraction_exact left whole, fraction_exact right (same ▸ whole)] at units
    omega

theorem ediv_le_of_lt (less : u < v) : u / one ≤ v / one :=
  Int.ediv_le_ediv one_pos_int less.le

private theorem numberKey_before_whole (left : Encodable u) (right : Encodable v)
    (less : u < v) (whole : u / one < v / one ∨ u = 0 ∨ v = 0) (s t : Bytes) :
    Before (numberKey u ++ s) (numberKey v ++ t) := by
  obtain ⟨low, _⟩ := whole_bounds left
  obtain ⟨_, high⟩ := whole_bounds right
  by_cases uzero : u = 0
  · subst uzero
    obtain ⟨tail, key⟩ := numberKey_head less.ne'
    have nonneg : ¬ v / one < 0 := Int.not_lt.mpr (Int.ediv_nonneg less.le one_pos_int.le)
    obtain ⟨c, rest, head, above, _⟩ := encodePosInt_head (UInt64.ofNat (v / one).toNat)
    rw [key, numberKey_zero, wholeKey, if_neg nonneg, head]
    refine .head ?_
    exact Nat.lt_of_lt_of_le (by decide) above
  by_cases vzero : v = 0
  · subst vzero
    obtain ⟨tail, key⟩ := numberKey_head less.ne
    obtain ⟨c, rest, head, _, below⟩ := encodeNegInt_head (Int64.ofInt (u / one))
    rw [key, numberKey_zero, wholeKey, if_pos (Int.ediv_neg_of_neg_of_pos less one_pos_int), head]
    refine .head ?_
    exact Nat.lt_of_le_of_lt below (by decide)
  obtain ⟨tail, key⟩ := numberKey_head uzero
  obtain ⟨_, key'⟩ := numberKey_head vzero
  rw [key, key', append_assoc, append_assoc]
  exact (wholeKey_before low (by omega) high).append _ _

/-- Keys diverge in numeric order. An integer's key ends where the fraction of a larger number
with that integer part begins, so there the following byte must stay below `0x3C`. -/
theorem numberKey_before (left : Encodable u) (right : Encodable v) (less : u < v)
    (apart : ¬ Collide u v) (x : UInt8) (s t : Bytes) (next : x.toNat < 0x3C ∨ ¬ (one : Int) ∣ u ∨
    u / one ≠ v / one) :
    Before (numberKey u ++ x :: s) (numberKey v ++ t) := by
  have positive := one_pos_int
  by_cases whole : u / one < v / one ∨ u = 0 ∨ v = 0
  · exact numberKey_before_whole left right less whole _ _
  have same : u / one = v / one := by
    have := ediv_le_of_lt less
    omega
  have uzero : u ≠ 0 := by omega
  have splitu := Int.emod_add_mul_ediv u one
  have splitv := Int.emod_add_mul_ediv v one
  rw [← same] at splitv
  have vfraction : ¬ (one : Int) ∣ v := by
    intro divides
    have := Int.emod_nonneg u positive.ne'
    omega
  obtain ⟨g, rfl⟩ := right.float vfraction
  have small := roundMag_fraction_le g.units
  rw [numberKey_fraction vfraction, ← same]
  by_cases divides : (one : Int) ∣ u
  · -- the integer's key stops where the fraction's bytes start
    have floor : u / one ≠ 0 := by
      intro zero
      rw [zero, Int.emod_eq_zero_of_dvd divides] at splitu
      omega
    have large := le_roundMag_fraction vfraction (same ▸ floor)
    have bound : u < 2 ^ 63 * one := by
      by_contra high
      have huge : 2 ^ 52 * one ≤ unitsOfMag g.mag := by
        rw [← natAbs_units]
        omega
      apply vfraction
      rw [← Int.natAbs_dvd_natAbs, natAbs_units]
      exact one_dvd_of_large g huge
    rw [numberKey, if_neg uzero, if_pos ⟨divides, bound⟩, append_assoc]
    apply Before.prepend
    refine .head ?_
    rw [UInt8.lt_iff_toNat_lt, UInt8.toNat_ofNat']
    omega
  · obtain ⟨f, rfl⟩ := left.float divides
    have order := roundMag_fraction_lt divides vfraction same less apart
    rw [numberKey_fraction divides, append_assoc, append_assoc]
    exact ((beBytes_before 8 order (by omega)).append _ _).prepend _

theorem small_negative (low : -(one : Int) < u) (high : u < 0) : ¬ (one : Int) ∣ u ∧ u / one = -1 := by
  have positive := one_pos_int
  have floor : u / one = -1 := by
    rw [Int.ediv_eq_iff_of_pos positive]
    omega
  refine ⟨fun divides => ?_, floor⟩
  have split := Int.emod_add_mul_ediv u one
  rw [Int.emod_eq_zero_of_dvd divides, floor] at split
  omega

theorem numberKey_collide (left : Encodable u) (right : Encodable v)
    (collide : Collide u v) : numberKey u = numberKey v := by
  obtain ⟨⟨ulow, uhigh⟩, ⟨vlow, vhigh⟩, rounded⟩ := collide
  obtain ⟨ufraction, ufloor⟩ := small_negative ulow uhigh
  obtain ⟨vfraction, vfloor⟩ := small_negative vlow vhigh
  obtain ⟨f, rfl⟩ := left.float ufraction
  obtain ⟨g, rfl⟩ := right.float vfraction
  have bits : roundMag (f.units % one).natAbs = roundMag (g.units % one).natAbs := by
    apply unitsOfMag_injective
    rw [unitsOfMag_roundMag_reflected uhigh ulow, unitsOfMag_roundMag_reflected vhigh vlow, rounded]
  rw [numberKey_fraction ufraction, numberKey_fraction vfraction, ufloor, vfloor, bits]

theorem compare_numberKey (left : Encodable u) (right : Encodable v) :
    compare (numberKey u ++ [discriminator]) (numberKey v ++ [discriminator]) =
      if Collide u v then .eq else compare u v := by
  by_cases collide : Collide u v
  · rw [if_pos collide, numberKey_collide left right collide]
    exact Std.ReflCmp.compare_self
  · rw [if_neg collide]
    have next : discriminator.toNat < 0x3C := by decide
    rcases lt_trichotomy u v with less | rfl | greater
    · rw [compare_lt_iff_lt.mpr less]
      exact (numberKey_before left right less collide _ _ _ (.inl next)).compare_lt
    · rw [compare_eq_iff_eq.mpr rfl]
      exact Std.ReflCmp.compare_self
    · rw [compare_gt_iff_gt.mpr greater]
      exact compare_gt_of_before (numberKey_before right left greater (fun h => collide h.symm) _ _ _ (.inl next))

theorem numberKey_head_byte (u : Int) : ∃ c rest, numberKey u = c :: rest ∧ 27 ≤ c.toNat ∧ c.toNat ≤ 50 := by
  by_cases zero : u = 0
  · subst zero
    exact ⟨_, _, rfl, by decide, by decide⟩
  · obtain ⟨tail, key⟩ := numberKey_head zero
    rw [key, wholeKey]
    split
    · obtain ⟨c, rest, head, low, high⟩ := encodeNegInt_head (Int64.ofInt (u / one))
      exact ⟨c, rest ++ tail, by rw [head]; rfl, low, by omega⟩
    · obtain ⟨c, rest, head, low, high⟩ := encodePosInt_head (UInt64.ofNat (u / one).toNat)
      exact ⟨c, rest ++ tail, by rw [head]; rfl, by omega, high⟩

/-! Values: an int32, an int64 or a double other than NaN. -/

def IsNumber : Value → Bool
  | .int32 _ => true
  | .int64 _ => true
  | .double f => !f.isNaN
  | _ => false

/-- The exact value of a number in units of `2^-1074`. -/
def numberUnits : Value → Int
  | .int32 n => n.toInt * one
  | .int64 n => n.toInt * one
  | .double f => f.units
  | _ => 0

@[simp] theorem numberUnits_double (f : Float64) : numberUnits (.double f) = f.units := rfl

theorem numericParts_of_isNumber {v : Value} (number : IsNumber v) :
    ∃ p, numericParts v = some p ∧ HasUnits p (numberUnits v) := by
  cases v with
  | int32 n =>
    have low := Int32.le_toInt n
    have high := Int32.toInt_lt n
    exact ⟨_, rfl, intParts_hasUnits (by omega)⟩
  | int64 n =>
    obtain ⟨low, high⟩ := toInt64_range n
    exact ⟨_, rfl, intParts_hasUnits (by omega)⟩
  | double f =>
    simp only [IsNumber, Bool.not_eq_true'] at number
    exact ⟨_, rfl, floatParts_hasUnits number⟩
  | _ => simp [IsNumber] at number

theorem Compare_number {a b : Value} (left : IsNumber a) (right : IsNumber b) :
    Compare a b = compare (numberUnits a) (numberUnits b) := by
  obtain ⟨p, first, punits⟩ := numericParts_of_isNumber left
  obtain ⟨q, second, qunits⟩ := numericParts_of_isNumber right
  rw [Compare_of_isScalar (isScalar_number first), compareScalars_number first second, punits.cmp qunits]

theorem encodable_whole {n : Int} (low : -2 ^ 63 ≤ n) (high : n < 2 ^ 64) : Encodable (n * one) :=
  ⟨Int.mul_le_mul_of_nonneg_right low one_pos_int.le, Int.mul_lt_mul_of_pos_right high one_pos_int,
    .inl (Int.dvd_mul_left _ _)⟩

theorem whole_ne_edge {n : Int} (high : n < 2 ^ 63) : n * one ≠ 2 ^ 63 * one :=
  (Int.mul_lt_mul_of_pos_right high one_pos_int).ne

theorem encodable_of_faithful {f : Float64} (finite : f.isFinite)
    (faithful : ValueLossy (.double f) = false) : Encodable f.units := by
  have number := not_isNaN_of_isFinite finite
  by_cases whole : (one : Int) ∣ f.units
  · by_cases zero : f.units = 0
    · simpa [zero] using encodable_whole (n := 0) (by decide) (by decide)
    have top : maxEncodable.isNaN = false := isNaN_ofUnits _
    have bottom : minEncodable.isNaN = false := isNaN_ofUnits _
    have edge : minEncodable.units = -2 ^ 63 * one := units_minInt64Float
    simp only [ValueLossy, EncodeValueLossy, number, not_isInf_of_isFinite finite,
      Bool.eq_false_iff.mpr (fun h => zero ((eq_zero_iff finite).mp h)),
      (eq_trunc_iff finite).mpr whole, Float64.le, Float64.lt, top, bottom, edge,
      units_maxEncodable, Bool.not_false, Bool.true_and, Bool.or_false, Bool.false_eq_true,
      if_false, Bool.or_eq_false_iff, decide_eq_false_iff_not, Int.not_le, Int.not_lt] at faithful
    exact ⟨faithful.2, faithful.1, .inl whole⟩
  · have small : unitsOfMag f.mag < 2 ^ 52 * one := by
      by_contra large
      apply whole
      rw [← Int.natAbs_dvd_natAbs, natAbs_units]
      exact one_dvd_of_large f (Nat.le_of_not_lt large)
    rw [← natAbs_units] at small
    exact ⟨by omega, by omega, .inr ⟨f, rfl⟩⟩

private theorem not_collide_whole {n : Int} : ¬ Collide (n * one) v := fun h =>
  (small_negative h.1.1 h.1.2).1 (Int.dvd_mul_left _ _)

theorem top_units : (2 ^ 64 * one : Int) < unitsOfMag infMag := by
  rw [unitsOfMag_infMag, one]
  have wide : 2 ^ 64 * 2 ^ unitExponent < 2 ^ (unitExponent + 1024) := by
    rw [← pow_add]
    exact Nat.pow_lt_pow_right (by decide) (by omega)
  exact_mod_cast wide

theorem int64Overflow_congr {f g : Float64} (sign : f.signbit = g.signbit) (arch : Arch) :
    int64Overflow arch f = int64Overflow arch g := by
  cases arch <;> simp [int64Overflow, sign]

section Keys
variable [Platform]

/-- The integer the platform converts the double `2^63` to. -/
def converted : Int := (int64Overflow Platform.arch maxInt64Float).toInt

def keyUnits (v : Value) : Int :=
  if numberUnits v = 2 ^ 63 * one then converted * one else numberUnits v

theorem converted_range : -2 ^ 63 ≤ converted ∧ converted < 2 ^ 63 := toInt64_range _

theorem int64Overflow_edge {f : Float64} (edge : f.units = 2 ^ 63 * one) :
    int64Overflow Platform.arch f = int64Overflow Platform.arch maxInt64Float := by
  have sign (g : Float64) (h : g.units = 2 ^ 63 * one) : g.signbit = false := by
    apply signbit_of_units_pos
    have := one_pos_int
    omega
  exact int64Overflow_congr ((sign f edge).trans (sign _ units_maxInt64Float).symm) _

private theorem keyed_whole {n : Int64} {v : Value} (units : numberUnits v = n.toInt * one)
    (encoding : EncodeValue v = encodeInt64 n) :
    Encodable (numberUnits v) ∧ EncodeValue v = numberKey (keyUnits v) := by
  obtain ⟨low, high⟩ := toInt64_range n
  rw [encoding, encodeInt64_key, keyUnits, units, if_neg (whole_ne_edge high)]
  exact ⟨encodable_whole low (by omega), rfl⟩

theorem EncodeValue_number {v : Value} (number : IsNumber v) (faithful : ValueLossy v = false) :
    (numberUnits v = unitsOfMag infMag ∧ EncodeValue v = [ctypePosInf]) ∨
    (numberUnits v = -(unitsOfMag infMag : Int) ∧ EncodeValue v = [ctypeNegInf]) ∨
    (Encodable (numberUnits v) ∧ EncodeValue v = numberKey (keyUnits v)) := by
  cases v with
  | int32 n => exact .inr (.inr (keyed_whole (n := n.toInt64) (by simp [numberUnits]) rfl))
  | int64 n => exact .inr (.inr (keyed_whole rfl rfl))
  | double f =>
    simp only [IsNumber, Bool.not_eq_true'] at number
    by_cases finite : f.isFinite
    · have encodable := encodable_of_faithful finite faithful
      refine .inr (.inr ⟨encodable, ?_⟩)
      change encodeFloat64 f = _
      by_cases edge : f.units = 2 ^ 63 * one
      · rw [encodeFloat64_overflow finite edge, keyUnits, numberUnits_double, if_pos edge,
          int64Overflow_edge edge, converted]
      · rw [encodeFloat64_key finite encodable.1 encodable.2.1 edge, keyUnits, numberUnits_double, if_neg edge]
    · have infinite := isInf_of_not number finite
      have size := units_infinite number finite
      cases sign : f.signbit with
      | false =>
        rw [sign] at size
        refine .inl ⟨size, ?_⟩
        simp [EncodeValue, encodeFloat64, number, infinite, sign]
      | true =>
        rw [sign] at size
        refine .inr (.inl ⟨size, ?_⟩)
        simp [EncodeValue, encodeFloat64, number, infinite, sign]
  | _ => simp [IsNumber] at number

/-- The first number is `2^63` and the second lies below it, at or above the integer the
platform converts `2^63` to. -/
def Overflows (a b : Value) : Prop :=
  numberUnits a = 2 ^ 63 * one ∧ converted * one ≤ numberUnits b ∧ numberUnits b < 2 ^ 63 * one

private theorem finite_order_iff {a b : Value} (left : Encodable (numberUnits a))
    (right : Encodable (numberUnits b)) :
    compare (numberUnits a) (numberUnits b) =
        compare (numberKey (keyUnits a) ++ [discriminator]) (numberKey (keyUnits b) ++ [discriminator]) ↔
      ¬ Overflows a b ∧ ¬ Overflows b a ∧
        (Collide (numberUnits a) (numberUnits b) → numberUnits a = numberUnits b) := by
  have edge (w : Int) : ¬ Collide (2 ^ 63 * one) w := not_collide_whole
  have moved (w : Int) : ¬ Collide (converted * one) w := not_collide_whole
  obtain ⟨low, high⟩ := converted_range
  have encodable : Encodable (converted * one) := encodable_whole low (by omega)
  have below : converted * one < 2 ^ 63 * one := Int.mul_lt_mul_of_pos_right high one_pos_int
  unfold keyUnits Overflows
  by_cases first : numberUnits a = 2 ^ 63 * one <;> by_cases second : numberUnits b = 2 ^ 63 * one
  · rw [if_pos first, if_pos second, compare_numberKey encodable encodable, if_neg (moved _),
      compare_eq_compare_iff, first, second]
    simp
  · rw [if_pos first, if_neg second, compare_numberKey encodable right, if_neg (moved _),
      compare_eq_compare_iff, first]
    simp only [edge, false_imp_iff, and_true, true_and]
    omega
  · have apart : ¬ Collide (numberUnits a) (converted * one) := fun h => moved _ h.symm
    have apart' : ¬ Collide (numberUnits a) (2 ^ 63 * one) := fun h => edge _ h.symm
    rw [if_neg first, if_pos second, compare_numberKey left encodable, if_neg apart, compare_eq_compare_iff, second]
    simp only [apart', false_imp_iff, and_true, true_and]
    omega
  · rw [if_neg first, if_neg second, compare_numberKey left right]
    simp only [first, second, false_and, not_false_eq_true, true_and]
    by_cases collide : Collide (numberUnits a) (numberUnits b)
    · rw [if_pos collide, compare_eq_iff_eq]
      simp [collide]
    · simp [collide]

private theorem infinite_fine {a b : Value}
    (infinite : (numberUnits a).natAbs = unitsOfMag infMag ∨ (numberUnits b).natAbs = unitsOfMag infMag) :
    ¬ Overflows a b ∧ ¬ Overflows b a ∧ (Collide (numberUnits a) (numberUnits b) →
      numberUnits a = numberUnits b) := by
  have top := top_units
  have positive := one_pos_int
  have lower : -2 ^ 63 * one ≤ converted * one :=
    Int.mul_le_mul_of_nonneg_right converted_range.1 positive.le
  refine ⟨?_, ?_, ?_⟩
  · rintro ⟨same, low, high⟩
    omega
  · rintro ⟨same, low, high⟩
    omega
  · rintro ⟨_, _, _⟩
    omega

instance (a b : Value) : Decidable (Overflows a b) := inferInstanceAs (Decidable (_ ∧ _))

/-- Byte order of the keys is numeric order exactly when `2^63` does not meet a number its
converted key misplaces and no two different numbers collide in `(-1, 0)`. -/
theorem numeric_key_order_iff {a b : Value} (left : IsNumber a) (right : IsNumber b)
    (leftFaithful : ValueLossy a = false) (rightFaithful : ValueLossy b = false) :
    Compare a b = compare (EncodeValue a ++ [discriminator]) (EncodeValue b ++ [discriminator]) ↔
      ¬ Overflows a b ∧ ¬ Overflows b a ∧
        (Collide (numberUnits a) (numberUnits b) → numberUnits a = numberUnits b) := by
  have top := top_units
  obtain ⟨c, _, chead, clow, chigh⟩ := numberKey_head_byte (keyUnits a)
  obtain ⟨d, _, dhead, dlow, dhigh⟩ := numberKey_head_byte (keyUnits b)
  rw [Compare_number left right]
  rcases EncodeValue_number left leftFaithful with ⟨au, ak⟩ | ⟨au, ak⟩ | ⟨au, ak⟩ <;>
    rcases EncodeValue_number right rightFaithful with ⟨bu, bk⟩ | ⟨bu, bk⟩ | ⟨bu, bk⟩
  case inr.inr.inr.inr =>
    rw [ak, bk]
    exact finite_order_iff au bu
  -- an infinity on either side: the orders agree
  all_goals
    refine iff_of_true ?_ (infinite_fine (by omega))
    rw [ak, bk]
  case inl.inl => rw [au, bu, compare_eq_iff_eq.mpr rfl]; decide
  case inl.inr.inl => rw [au, bu, compare_gt_iff_gt.mpr (by omega)]; decide
  case inl.inr.inr =>
    rw [compare_gt_iff_gt.mpr (by have := bu.2.1; omega), dhead]
    exact (compare_gt_of_before (before_of_head (Nat.lt_of_le_of_lt dhigh (by decide)) _ _)).symm
  case inr.inl.inl => rw [au, bu, compare_lt_iff_lt.mpr (by omega)]; decide
  case inr.inl.inr.inl => rw [au, bu, compare_eq_iff_eq.mpr rfl]; decide
  case inr.inl.inr.inr =>
    rw [compare_lt_iff_lt.mpr (by have := bu.1; omega), dhead]
    exact (before_of_head (Nat.lt_of_lt_of_le (by decide) dlow) _ _).compare_lt.symm
  case inr.inr.inl =>
    rw [compare_lt_iff_lt.mpr (by have := au.2.1; omega), chead]
    exact (before_of_head (Nat.lt_of_le_of_lt chigh (by decide)) _ _).compare_lt.symm
  case inr.inr.inr.inl =>
    rw [compare_gt_iff_gt.mpr (by have := au.1; omega), chead]
    exact (compare_gt_of_before (before_of_head (Nat.lt_of_lt_of_le (by decide) clow) _ _)).symm

end Keys

/-- An amd64 machine whose out-of-range unsigned conversions give zero. -/
abbrev amd64 : Platform := ⟨.amd64, fun _ => 0⟩

abbrev arm64 : Platform := ⟨.arm64, fun f => if f.signbit then 0 else UInt64.ofNat (2 ^ 64 - 1)⟩

/-- The integer `2` against the double `2.5`. -/
theorem numeric_key_order_two_and_a_half :
    IsNumber (.int32 2) ∧ IsNumber (.double ⟨0x4004000000000000⟩) ∧
      Compare (.int32 2) (.double ⟨0x4004000000000000⟩) =
        compare (@EncodeValue amd64 (.int32 2) ++ [discriminator])
          (@EncodeValue amd64 (.double ⟨0x4004000000000000⟩) ++ [discriminator]) :=
  ⟨rfl, by decide +kernel,
    (@numeric_key_order_iff amd64 (.int32 2) (.double ⟨0x4004000000000000⟩) rfl (by decide +kernel)
      rfl (by decide +kernel)).mpr
      ⟨by decide +kernel, by decide +kernel, fun h => absurd h (by decide +kernel)⟩⟩

/-- Two encodable numbers whose keys are not in numeric order. -/
def Misordered [Platform] (a b : Value) : Prop :=
  (IsNumber a ∧ ValueLossy a = false) ∧ (IsNumber b ∧ ValueLossy b = false) ∧
    Compare a b ≠ compare (EncodeValue a ++ [discriminator]) (EncodeValue b ++ [discriminator])

/-- The doubles `-2^-60 < -2^-61` share one key, and on amd64 the double `2^63` shares that of
the least int64. -/
theorem numeric_key_order_fails :
    @Misordered amd64 (.double ⟨0xBC30000000000000⟩) (.double ⟨0xBC20000000000000⟩) ∧
      @Misordered amd64 (.double ⟨0x43E0000000000000⟩) (.int64 Int64.minValue) := by
  unfold Misordered
  decide +kernel

end DumboDB.Index
