import DumboDB.Dolt.PrefilterWalk
import DumboDB.Index.NumberOrder

/-!
What the scan prefilter loses: numbers that do not reach its comparison as the double they are.
-/

namespace DumboDB.Dolt
open Foundation ByteOrder Binary64 DumboDB.Types Handler Index List

theorem isFinite_of_int64 (n : Int64) : (Float64.ofInt n.toInt).isFinite := by
  obtain ⟨m, whole, _, _⟩ := units_ofInt_int64 n
  exact isFinite_of_bound whole (by omega)

theorem edge_le_units {f : Float64} (finite : f.isFinite) (large : (2 ^ 63 - 1) * one ≤ f.units) :
    2 ^ 63 * (one : Int) ≤ f.units := by
  have positive := one_pos_int
  have divides : (one : Int) ∣ f.units := by
    rw [← Int.natAbs_dvd_natAbs, natAbs_units]
    apply one_dvd_of_large
    rw [← natAbs_units]
    omega
  obtain ⟨m, whole⟩ := divides
  have least : 2 ^ 63 - 1 ≤ m := by
    rw [whole, Int.mul_comm (one : Int)] at large
    exact Int.le_of_mul_le_mul_right large positive
  have other : m ≠ 2 ^ 63 - 1 := by
    rintro rfl
    have exact : (Float64.ofUnits f.units).units = f.units :=
      units_ofUnits_of_mag (natAbs_units f) (by
        simp only [Float64.isFinite, decide_eq_true_eq] at finite
        exact finite.le)
    have rounded : (Float64.ofUnits ((2 ^ 63 - 1) * one)).units = 2 ^ 63 * one := units_maxInt64Float
    rw [whole, Int.mul_comm (one : Int), rounded] at exact
    omega
  rw [whole, Int.mul_comm (one : Int)]
  exact Int.mul_le_mul_of_nonneg_right (by omega) positive.le

theorem units_ofInt_maxValue : (Float64.ofInt Int64.maxValue.toInt).units = 2 ^ 63 * one := units_maxInt64Float

/-! The two sides of a range, kept as their tightest bounds. -/

def Numeric (side : Bound) : Prop := ∀ bound ∈ side, bound.1.isNaN = false

theorem numeric_none : Numeric none := by simp [Numeric]

variable {nv : Float64} {side : Bound} {v w : Value}

section
variable {strict weak : Float64 → Float64 → Bool} (key : Float64 → Int)

theorem numeric_tighten (numeric : Numeric side) (number : nv.isNaN = false)
    (incl : Bool) : Numeric (tighten strict side nv incl) := by
  unfold tighten
  repeat' split
  all_goals simp_all [Numeric]

variable (order : ∀ a b, a.isNaN = false → b.isNaN = false → strict a b = decide (key a < key b))
  (order' : ∀ a b, a.isNaN = false → b.isNaN = false → weak a b = decide (key a ≤ key b))
include order order'

theorem passes_tighten (numeric : Numeric side) {v : Float64} (number : nv.isNaN = false)
    (number' : v.isNaN = false) (incl : Bool) : passes strict weak v (tighten strict side nv incl) = true ↔
      passes strict weak v side = true ∧ passes strict weak v (some (nv, incl)) = true := by
  cases side with
  | none => simp [tighten, passes]
  | some bound =>
    obtain ⟨cur, curIncl⟩ := bound
    have curNumber : cur.isNaN = false := numeric _ rfl
    simp only [tighten, order _ _ curNumber number, order _ _ number curNumber, decide_eq_true_eq]
    split
    · cases curIncl <;> cases incl <;> simp [passes, order, order', curNumber, number, number'] <;> omega
    · split
      · cases curIncl <;> cases incl <;> simp [passes, order, order', curNumber, number, number'] <;> omega
      · cases curIncl <;> cases incl <;> simp [passes, order, order', curNumber, number, number'] <;> omega

end

section

variable (numeric : Numeric side) {v : Float64} (number : nv.isNaN = false) (number' : v.isNaN = false)
  (incl : Bool)
include numeric number number' incl

theorem aboveLo_tightenLo : aboveLo v (tightenLo side nv incl) = true ↔
      aboveLo v side = true ∧ if incl then nv.units ≤ v.units else nv.units < v.units := by
  rw [aboveLo, tightenLo, passes_tighten Float64.units (fun a b h h' => by simp [Float64.lt, h, h'])
    (fun a b h h' => by simp [Float64.le, h, h']) numeric number number']
  cases incl <;> simp [passes, Float64.lt, Float64.le, number, number']

theorem belowHi_tightenHi : belowHi v (tightenHi side nv incl) = true ↔
      belowHi v side = true ∧ if incl then v.units ≤ nv.units else v.units < nv.units := by
  rw [belowHi, tightenHi, passes_tighten (fun f => -f.units)
    (fun a b h h' => by simp [Float64.lt, h, h']) (fun a b h h' => by simp [Float64.le, h, h'])
    numeric number number']
  cases incl <;> simp [passes, Float64.lt, Float64.le, number, number']

end

theorem isUndefined_storedValue (key : Bytes) (v : Value) : isUndefined (storedValue key v) = isUndefined v := by
  unfold storedValue
  split
  · rfl
  · cases v <;> simp [canonicalValue, isUndefined]

theorem mem_elementsOrSelf_storedValue (key : Bytes) (scalar : isScalar w = true)
    (occurs : w ∈ elementsOrSelf v) : w ∈ elementsOrSelf (storedValue key v) := by
  unfold storedValue
  split
  · exact occurs
  · cases v with
    | array _ =>
      rw [canonicalValue, elementsOrSelf, canonicalElems_eq_map]
      exact mem_map.mpr ⟨w, occurs, canonicalValue_of_isScalar scalar⟩
    | document fields =>
      obtain rfl : w = .document fields := by simpa [elementsOrSelf] using occurs
      simp [isScalar] at scalar
    | _ => rwa [canonicalValue] <;> simp

theorem length_bsonValue_of_mem_elementsOrSelf (occurs : w ∈ elementsOrSelf v) :
    (bsonValue w).length ≤ (bsonValue v).length := by
  have indices (i : Nat) (elems : List Value) (member : w ∈ elems) : ∃ name, (name, w) ∈ indexed i elems := by
    induction elems generalizing i with
    | nil => simp at member
    | cons _ elems ih =>
      rcases mem_cons.mp member with rfl | later
      · exact ⟨decimal i, by simp [indexed]⟩
      · obtain ⟨name, found⟩ := ih (i + 1) later
        exact ⟨name, mem_cons_of_mem _ found⟩
  cases v with
  | array elems =>
    obtain ⟨name, found⟩ := indices 0 elems occurs
    have fits := length_bsonValue_le found
    rw [bsonValue, length_bsonContainer, bsonElems_eq]
    omega
  | _ =>
    obtain rfl := by simpa [elementsOrSelf] using occurs
    exact le_refl _

theorem Storable.short {d : Document} (storable : Storable d) {key : Bytes}
    (held : d.get key = some v) (occurs : w ∈ elementsOrSelf v) (scalar : isScalar w = true) :
    (bsonValue w).length < 2 ^ 32 := by
  have stored : (canonical d).get key = some (storedValue key v) := by rw [get_canonical, held]; rfl
  have outer := length_bsonValue_le (mem_of_get stored)
  have inner := length_bsonValue_of_mem_elementsOrSelf (mem_elementsOrSelf_storedValue key scalar occurs)
  have total := storable.2
  rw [docToBSON, length_cons, length_bsonContainer] at total
  omega

section
variable [Platform]

/-- `int64(float64(n)) == n` holds of the integers that are doubles and, where the conversion
saturates, of `math.MaxInt64`. -/
theorem toInt64_ofInt_iff (n : Int64) : toInt64 (Float64.ofInt n.toInt) = n ↔
    (Float64.ofInt n.toInt).units = n.toInt * one ∨ Platform.arch = .arm64 ∧ n = Int64.maxValue := by
  have finite := isFinite_of_int64 n
  have positive := one_pos_int
  obtain ⟨_, _⟩ := toInt64_range n
  obtain ⟨m, whole, least, _⟩ := units_ofInt_int64 n
  have cancel {k : Int} : m * one = k * one ↔ m = k := Int.mul_eq_mul_right_iff positive.ne'
  rw [whole, cancel]
  rcases Int.lt_or_le m (2 ^ 63) with inside | edge
  · have other : n ≠ Int64.maxValue := by
      rintro rfl
      rw [units_ofInt_maxValue, eq_comm, cancel] at whole
      omega
    rw [toInt64_whole finite whole least inside, ← Int64.toInt_inj, toInt_ofInt_small least inside]
    simp [other]
  · obtain rfl : m = 2 ^ 63 := by omega
    have outside : toInt64 (Float64.ofInt n.toInt) = int64Overflow Platform.arch maxInt64Float := by
      rw [← int64Overflow_edge whole, toInt64, whole, Int.mul_tdiv_cancel _ positive.ne', if_neg (by simp)]
    have above : 0 < n.toInt := by
      by_contra small
      have below := units_ofInt_mono (Int.not_lt.mp small)
      rw [whole, units_ofInt_of_small (by decide)] at below
      omega
    rw [outside]
    cases Platform.arch with
    | amd64 =>
      have apart : Int64.minValue ≠ n := by
        rintro rfl
        exact absurd above (by decide)
      simp only [int64Overflow, apart, false_iff]
      rintro (same | ⟨arm, -⟩)
      · omega
      · simp at arm
    | arm64 =>
      have saturated : int64Overflow .arm64 maxInt64Float = Int64.maxValue := by decide +kernel
      rw [saturated]
      constructor
      · exact fun same => .inr ⟨rfl, same.symm⟩
      · rintro (same | ⟨-, rfl⟩)
        · omega
        · rfl

/-- The stored number reaches the prefilter's comparison as this double. -/
inductive ReadsAs : Value → Float64 → Prop
  | int32 (n : Int32) : ReadsAs (.int32 n) (Float64.ofInt n.toInt)
  | exact (n : Int64) (isDouble : (Float64.ofInt n.toInt).units = n.toInt * one) :
      ReadsAs (.int64 n) (Float64.ofInt n.toInt)
  | saturated (arm : Platform.arch = .arm64) :
      ReadsAs (.int64 Int64.maxValue) (Float64.ofInt Int64.maxValue.toInt)
  | double (f : Float64) : ReadsAs (.double f) f

variable {v : Value} {f : Float64} {operand : Value} {g : Float64} {op : RangeOp}
  {hi lo : Bound} {ops : List (Bytes × Value)} {result : Bound × Bound} {d : Document} {key : Bytes}

theorem readNumber_iff : readNumber v = some f ↔ ReadsAs v f := by
  constructor
  · intro read
    cases v with
    | int32 n =>
      obtain rfl := Option.some.inj read
      exact .int32 n
    | int64 n =>
      rw [readNumber] at read
      split at read
      next back =>
        obtain rfl := Option.some.inj read
        rcases (toInt64_ofInt_iff n).mp back with isDouble | ⟨arm, rfl⟩
        · exact .exact n isDouble
        · exact .saturated arm
      · simp at read
    | double g =>
      obtain rfl := Option.some.inj read
      exact .double g
    | _ => simp [readNumber] at read
  · intro reads
    cases reads with
    | int32 n => rfl
    | exact n isDouble => rw [readNumber, if_pos ((toInt64_ofInt_iff n).mpr (.inl isDouble))]
    | saturated arm => rw [readNumber, if_pos ((toInt64_ofInt_iff _).mpr (.inr ⟨arm, rfl⟩))]
    | double f => rfl

theorem ReadsAs.units (reads : ReadsAs v f) :
    f.units = numberUnits v ∨ Platform.arch = .arm64 ∧ v = .int64 Int64.maxValue ∧ f.units = 2 ^ 63 * one := by
  cases reads with
  | int32 n =>
    have low := Int32.le_toInt n
    have high := Int32.toInt_lt n
    exact .inl (units_ofInt_of_small (by omega))
  | exact n isDouble => exact .inl isDouble
  | saturated arm => exact .inr ⟨arm, rfl, units_ofInt_maxValue⟩
  | double f => exact .inl rfl

/-- The two comparisons across the gap between `math.MaxInt64` and `2^63` that are lost when
the former reads as the latter. -/
def LostAcrossGap (v : Value) (op : RangeOp) (operand : Value) : Prop :=
  Platform.arch = .arm64 ∧ (op = .lt ∧ v = .int64 Int64.maxValue ∧ operand = .double maxInt64Float ∨
      op = .gt ∧ v = .double maxInt64Float ∧ operand = .int64 Int64.maxValue)

theorem ReadsAs.double_of_edge (reads : ReadsAs v f)
    (exact : f.units = numberUnits v) (edge : f.units = 2 ^ 63 * one) : v = .double maxInt64Float := by
  have positive := one_pos_int
  have whole (n : Int) (high : n < 2 ^ 63) (same : n * one = 2 ^ 63 * one) : False := by
    have := Int.eq_of_mul_eq_mul_right positive.ne' same
    omega
  cases reads with
  | int32 n => exact (whole _ (by have := Int32.toInt_lt n; omega) (exact.symm.trans edge)).elim
  | exact n _ => exact (whole _ (Int64.toInt_lt n) (exact.symm.trans edge)).elim
  | saturated _ => exact (whole _ (Int64.toInt_lt _) (exact.symm.trans edge)).elim
  | double f => rw [eq_of_units_pos (by omega) (edge.trans units_maxInt64Float.symm)]

theorem holds_readsAs (left : ReadsAs v f) (right : ReadsAs operand g) (finite : f.isFinite) (finite' : g.isFinite)
    (met : op.holds (numberUnits v) (numberUnits operand)) :
    op.holds f.units g.units ↔ ¬ LostAcrossGap v op operand := by
  have positive := one_pos_int
  have gap : numberUnits (.int64 Int64.maxValue) = (2 ^ 63 - 1) * one := rfl
  have edge : numberUnits (.double maxInt64Float) = 2 ^ 63 * one := units_maxInt64Float
  have bound := edge_le_units finite
  have bound' := edge_le_units finite'
  rcases left.units with exact | ⟨arm, rfl, top⟩
  · have apart : v ≠ .int64 Int64.maxValue := by
      rintro rfl
      omega
    rcases right.units with exact' | ⟨arm, rfl, top'⟩
    · have apart' : operand ≠ .int64 Int64.maxValue := by
        rintro rfl
        omega
      rw [exact, exact']
      simp [LostAcrossGap, apart, apart', met]
    · have lost : LostAcrossGap v op (.int64 Int64.maxValue) ↔ op = .gt ∧ f.units = 2 ^ 63 * one := by
        constructor
        · rintro ⟨-, ⟨-, same, -⟩ | ⟨gt, rfl, -⟩⟩
          · exact absurd same apart
          · exact ⟨gt, by rw [exact, edge]⟩
        · rintro ⟨gt, same⟩
          exact ⟨arm, .inr ⟨gt, left.double_of_edge exact same, rfl⟩⟩
      rw [lost, top']
      cases op <;> simp only [RangeOp.holds, reduceCtorEq, false_and, true_and, not_false_eq_true,
        iff_true] at met ⊢ <;>
        omega
  · rcases right.units with exact' | ⟨_, rfl, top'⟩
    · have lost : LostAcrossGap (.int64 Int64.maxValue) op operand ↔ op = .lt ∧ g.units = 2 ^ 63 * one := by
        constructor
        · rintro ⟨-, ⟨lt, -, rfl⟩ | ⟨-, same, -⟩⟩
          · exact ⟨lt, by rw [exact', edge]⟩
          · simp at same
        · rintro ⟨lt, same⟩
          exact ⟨arm, .inl ⟨lt, rfl, right.double_of_edge exact' same⟩⟩
      rw [lost, top]
      cases op <;> simp only [RangeOp.holds, reduceCtorEq, false_and, true_and, not_false_eq_true,
        iff_true] at met ⊢ <;>
        omega
    · have never : ¬ LostAcrossGap (.int64 Int64.maxValue) op (.int64 Int64.maxValue) := by
        simp [LostAcrossGap]
      simp only [never, not_false_eq_true, iff_true]
      cases op <;> simp only [RangeOp.holds] at met ⊢ <;> omega

theorem numericBoundFloat64_iff : numericBoundFloat64 operand = some g ↔ ReadsAs operand g ∧ g.isFinite := by
  rw [← readNumber_iff]
  cases operand with
  | int32 n =>
    have low := Int32.le_toInt n
    have high := Int32.toInt_lt n
    have finite : (Float64.ofInt n.toInt).isFinite := isFinite_ofInt (by omega)
    simp only [numericBoundFloat64, readNumber, Option.some.injEq]
    constructor
    · rintro rfl
      exact ⟨rfl, finite⟩
    · exact And.left
  | int64 n =>
    have finite := isFinite_of_int64 n
    simp only [numericBoundFloat64, readNumber]
    split
    · simp only [Option.some.injEq]
      constructor
      · rintro rfl
        exact ⟨rfl, finite⟩
      · exact And.left
    · simp
  | double f =>
    simp only [numericBoundFloat64, readNumber, Option.some.injEq, nan_or_inf_eq]
    cases finite : f.isFinite with
    | true =>
      simp only [Bool.not_true, Bool.false_eq_true, if_false, Option.some.injEq]
      exact ⟨fun same => ⟨same, same ▸ finite⟩, And.left⟩
    | false =>
      simp only [Bool.not_false, if_true, reduceCtorEq, false_iff]
      rintro ⟨rfl, infinite⟩
      exact absurd infinite (by simp [finite])
  | _ => simp [numericBoundFloat64, readNumber]

theorem rangeBounds_cons {op : Bytes} (built : rangeBounds ((op, operand) :: ops) lo hi = some result) :
    isRangeOperator op = true ∧ ∃ g, numericBoundFloat64 operand = some g ∧
      ((rangeOp op = .gt ∧ rangeBounds ops (tightenLo lo g false) hi = some result) ∨
        (rangeOp op = .gte ∧ rangeBounds ops (tightenLo lo g true) hi = some result) ∨
        (rangeOp op = .lt ∧ rangeBounds ops lo (tightenHi hi g false) = some result) ∨
        (rangeOp op = .lte ∧ rangeBounds ops lo (tightenHi hi g true) = some result)) := by
  rw [rangeBounds] at built
  cases bound : numericBoundFloat64 operand with
  | none => simp [bound] at built
  | some g =>
    simp only [bound, Option.bind_eq_bind, Option.bind_some] at built
    split at built
    next gt =>
      exact ⟨by simp [isRangeOperator, gt], g, rfl, .inl ⟨by simp [rangeOp, gt], built⟩⟩
    split at built
    next other gte =>
      exact ⟨by simp [isRangeOperator, gte], g, rfl, .inr (.inl ⟨by rw [rangeOp, if_neg other, if_pos gte], built⟩)⟩
    split at built
    next other other' lt =>
      exact ⟨by simp [isRangeOperator, lt], g, rfl,
        .inr (.inr (.inl ⟨by rw [rangeOp, if_neg other, if_neg other', if_pos lt], built⟩))⟩
    split at built
    next other other' other'' lte =>
      exact ⟨by simp [isRangeOperator, lte], g, rfl,
        .inr (.inr (.inr ⟨by simp [rangeOp, other, other', other''], built⟩))⟩
    · simp at built

theorem rangeBounds_spec {lo' hi' : Bound}
    (built : rangeBounds ops lo hi = some (lo', hi')) (numeric : Numeric lo) (numeric' : Numeric hi)
    (number : f.isNaN = false) :
    (aboveLo f lo' = true ∧ belowHi f hi' = true) ↔ (aboveLo f lo = true ∧ belowHi f hi = true) ∧
      ∀ condition ∈ ops, ∀ g, numericBoundFloat64 condition.2 = some g →
        (rangeOp condition.1).holds f.units g.units := by
  induction ops generalizing lo hi with
  | nil =>
    obtain ⟨rfl, rfl⟩ := by simpa [rangeBounds] using built
    simp
  | cons condition ops ih =>
    obtain ⟨op, operand⟩ := condition
    obtain ⟨-, g, bound, turn⟩ := rangeBounds_cons built
    have gNumber := not_isNaN_of_isFinite (numericBoundFloat64_iff.mp bound).2
    have here (P : RangeOp → Int → Int → Prop) :
        (∀ g', numericBoundFloat64 operand = some g' → P (rangeOp op) f.units g'.units) ↔
          P (rangeOp op) f.units g.units := by simp [bound]
    rw [forall_mem_cons, here]
    rcases turn with ⟨kind, rest⟩ | ⟨kind, rest⟩ | ⟨kind, rest⟩ | ⟨kind, rest⟩
    · rw [ih rest (numeric_tighten numeric gNumber _) numeric', aboveLo_tightenLo numeric gNumber number, kind]
      tauto
    · rw [ih rest (numeric_tighten numeric gNumber _) numeric', aboveLo_tightenLo numeric gNumber number, kind]
      tauto
    · rw [ih rest numeric (numeric_tighten numeric' gNumber _), belowHi_tightenHi numeric' gNumber number, kind]
      tauto
    · rw [ih rest numeric (numeric_tighten numeric' gNumber _), belowHi_tightenHi numeric' gNumber number, kind]
      tauto

theorem rangeBounds_operators (built : rangeBounds ops lo hi = some result) :
    ∀ condition ∈ ops, isRangeOperator condition.1 = true ∧ ∃ g, numericBoundFloat64 condition.2 = some g := by
  induction ops generalizing lo hi with
  | nil => simp
  | cons condition ops ih =>
    obtain ⟨range, g, bound, turn⟩ := rangeBounds_cons built
    rw [forall_mem_cons]
    refine ⟨⟨range, g, bound⟩, ?_⟩
    rcases turn with ⟨-, rest⟩ | ⟨-, rest⟩ | ⟨-, rest⟩ | ⟨-, rest⟩ <;> exact ih rest

theorem any_seen_storedValue (key : Bytes) (target v : Value) :
    (elementsOrSelf (storedValue key v)).any (seen target) = (elementsOrSelf v).any (seen target) := by
  unfold storedValue
  split
  · rfl
  · cases v with
    | array _ =>
      rw [canonicalValue, elementsOrSelf, elementsOrSelf, canonicalElems_eq_map, any_map]
      simp only [Function.comp_def, seen_canonicalValue]
    | document fields =>
      have same := seen_canonicalValue target (.document fields)
      rw [canonicalValue] at same ⊢
      simp [elementsOrSelf, same]
    | _ => rw [canonicalValue] <;> simp

theorem readNumber_storedValue (key : Bytes) (v : Value) : readNumber (storedValue key v) = readNumber v := by
  unfold storedValue
  split
  · rfl
  · cases v <;> simp [canonicalValue, readNumber]

theorem walkTopLevelEqualityIn_docToBSON (storable : Storable d) (key : Bytes) (target : Value) :
    walkTopLevelEqualityIn (bsonContainer (bsonFields (canonical d))) key target true = true ↔
      blocked (canonical d) key = true ∨ ∃ v, d.get key = some v ∧ ∃ w ∈ elementsOrSelf v, seen target w = true := by
  have short : (bsonContainer (bsonFields (canonical d))).length < 2 ^ 32 := by
    have := storable.2
    rw [docToBSON, length_cons] at this
    omega
  rw [walkTopLevelEqualityIn_eq (by rw [storableFields_canonical]; exact storable.1) short, get_canonical]
  cases blocked (canonical d) key with
  | true => simp
  | false =>
    cases held : d.get key with
    | none => simp
    | some v =>
      simp only [Option.map_some, isUndefined_storedValue, any_seen_storedValue, Bool.or_eq_true,
        any_eq_true, Option.some.injEq, exists_eq_left', Bool.false_eq_true, if_false, false_or]
      constructor
      · rintro (undefined | found)
        · obtain rfl : v = .undefined := by cases v <;> simp_all [isUndefined]
          exact ⟨.undefined, by simp [elementsOrSelf], by simp [seen, isUndefined]⟩
        · exact found
      · exact .inr

theorem scanTopLevelBSONNumericIn_docToBSON (storable : Storable d) (held : d.get key = some v) :
    scanTopLevelBSONNumericIn (bsonContainer (bsonFields (canonical d))) key true =
      if blocked (canonical d) key then .bail else probeOf (readNumber v) := by
  have short : (bsonContainer (bsonFields (canonical d))).length < 2 ^ 32 := by
    have := storable.2
    rw [docToBSON, length_cons] at this
    omega
  rw [scanTopLevelBSONNumericIn_eq (by rw [storableFields_canonical]; exact storable.1) short, get_canonical, held]
  simp only [Option.map_some, isUndefined_storedValue, probeNumber_bsonValue, readNumber_storedValue]
  cases v with
  | undefined => rfl
  | _ => simp [isUndefined]

/-- The prefilter can tell that the value meets the condition: of an equality with a number it
reads an occurrence as the operand's double, or gives up at an undefined one; of a range it
misses only the gap. -/
def Kept (v : Value) : Value → Prop
  | .document ops => ∀ condition ∈ ops, ¬ LostAcrossGap v (rangeOp condition.1) condition.2
  | c => ∀ g, operandDouble c = some g →
      ∃ w ∈ elementsOrSelf v, isUndefined w = true ∨ ∃ f, ReadsAs w f ∧ f.eq g = true

theorem seen_number {target : Value} (number : operandDouble target = some g) (w : Value) :
    seen target w = true ↔ isUndefined w = true ∨ ∃ f, ReadsAs w f ∧ f.eq g = true := by
  simp only [seen, Bool.or_eq_true, scalarMatch_number number, readNumber_iff]

theorem ReadsAs.isNumber (reads : ReadsAs v f) (finite : f.isFinite) : IsNumber v = true := by
  cases reads with
  | double f => simp [IsNumber, not_isNaN_of_isFinite finite]
  | _ => rfl

theorem ReadsAs.elementsOrSelf (reads : ReadsAs v f) : elementsOrSelf v = [v] := by
  cases reads <;> rfl

theorem LostAcrossGap.readsAs (lost : LostAcrossGap v op operand) : ∃ f, readNumber v = some f ∧ f.isFinite := by
  obtain ⟨arm, ⟨-, rfl, -⟩ | ⟨-, rfl, -⟩⟩ := lost
  · exact ⟨_, readNumber_iff.mpr (.saturated arm), isFinite_of_int64 _⟩
  · exact ⟨_, readNumber_iff.mpr (.double _), isFinite_of_int64 Int64.maxValue⟩

theorem isSome_numericParts_of_bound
    (bound : numericBoundFloat64 operand = some g) : (numericParts operand).isSome = true := by
  cases operand <;> first | rfl | simp [numericBoundFloat64] at bound

theorem isBare_of_bound (bound : numericBoundFloat64 operand = some g) : isBare operand = true := by
  cases operand <;> first | rfl | simp [numericBoundFloat64] at bound

variable [QueryEnv]

variable {c : Value} {pred : ScanPredicate}

theorem equality_predicate (field : IsField key) (walked : normaliseFilterValue c = some c)
    (built : buildBSONFieldPredicate key c = some pred) (storable : Storable d)
    (met : filterDocumentPair d key c = .ok true) :
    pred (docToBSON d) true = true ↔ ∀ v, d.get key = some v → blocked (canonical d) key = true ∨ Kept v c := by
  have bare : isBare c = true := by cases c <;> simp_all [normaliseFilterValue, isBare]
  obtain ⟨v, held, w, occurs, equal⟩ := (filterDocumentPair_bare field bare d).mp met
  have answer : pred (docToBSON d) true =
      walkTopLevelEqualityIn (bsonContainer (bsonFields (canonical d))) key c true := by
    cases c <;> simp_all [buildBSONFieldPredicate, normaliseFilterValue] <;> subst built <;> rfl
  have kept : Kept v c ↔ ∃ w ∈ elementsOrSelf v, seen c w = true := by
    have unfolded : Kept v c ↔ ∀ g, operandDouble c = some g →
        ∃ w ∈ elementsOrSelf v, isUndefined w = true ∨ ∃ f, ReadsAs w f ∧ f.eq g = true := by
      cases c <;> first | rfl | simp [isBare] at bare
    rw [unfolded]
    cases number : operandDouble c with
    | some g => simp [seen_number number]
    | none =>
      have scalar : isScalar w = true := by
        apply isScalar_congr (CompareOrder_eq_iff.mp equal).1.symm
        cases c <;> simp_all [isBare, isScalar]
      have matched : scalarMatch (bsonTag w) (bsonValue w) c = true :=
        (scalarMatch_other (by simp [walked]) number (storable.short held occurs scalar)).mpr equal
      simp only [reduceCtorEq, false_implies, implies_true, true_iff]
      exact ⟨w, occurs, by simp [seen, matched]⟩
  rw [answer, walkTopLevelEqualityIn_docToBSON storable]
  simp [held, kept]

theorem met_range {ops : Document} (field : IsField key) (nonempty : ops ≠ []) (operators : ∀ condition ∈ ops,
      isRangeOperator condition.1 = true ∧ ∃ g, numericBoundFloat64 condition.2 = some g)
    (met : filterDocumentPair d key (.document ops) = .ok true) :
    ∃ v, d.get key = some v ∧ ∀ condition ∈ ops, ∃ w ∈ elementsOrSelf v,
      detectDataType w = detectDataType condition.2 ∧
        (rangeOp condition.1).accepts (Compare w condition.2) = true := by
  have keys : ∀ condition ∈ ops, isOperatorKey condition.1 = true ∧ condition.1 ≠ opOptions := by
    intro condition member
    have range := (operators condition member).1
    simp only [isRangeOperator, Bool.or_eq_true, beq_iff_eq] at range
    rcases range with ((range | range) | range) | range <;> rw [range] <;> decide
  rw [filterDocumentPair_expr field, filterFieldExpr, if_neg (by simpa using nonempty),
    filterFieldLoop_iff keys] at met
  have tests : ∀ condition ∈ ops, ∃ w ∈ elementsOrSelf ((d.get key).getD .null),
      detectDataType w = detectDataType condition.2 ∧
        (rangeOp condition.1).accepts (Compare w condition.2) = true := by
    intro condition member
    obtain ⟨range, g, bound⟩ := operators condition member
    have bare := isBare_of_bound bound
    have test := met condition member
    rw [filterFieldOperator_range range bare, Except.ok.injEq] at test
    exact (rangeTest_iff (isArray_of_isBare bare)).mp test
  cases held : d.get key with
  | some v => exact ⟨v, rfl, by simpa [held] using tests⟩
  | none =>
    obtain ⟨condition, _, rfl⟩ := exists_cons_of_ne_nil nonempty
    obtain ⟨w, occurs, type, -⟩ := tests condition mem_cons_self
    obtain ⟨-, g, bound⟩ := operators condition mem_cons_self
    obtain rfl : w = .null := by simpa [held, elementsOrSelf] using occurs
    have number := isSome_numericParts_of_bound bound
    rw [numericParts_isSome_iff, ← type] at number
    simp [detectDataType] at number

theorem range_predicate {ops : Document}
    (field : IsField key) (built : buildBSONFieldPredicate key (.document ops) = some pred)
    (storable : Storable d) (met : filterDocumentPair d key (.document ops) = .ok true) :
    pred (docToBSON d) true = true ↔
      ∀ v, d.get key = some v → blocked (canonical d) key = true ∨ Kept v (.document ops) := by
  simp only [buildBSONFieldPredicate, buildBSONNumericRangePredicate] at built
  split at built
  · simp at built
  rename_i nonempty
  cases sides : rangeBounds ops none none with
  | none => simp [sides] at built
  | some _ =>
    simp only [sides, Option.bind_eq_bind, Option.bind_some] at built
    split at built
    · simp at built
    cases built
    have operators := rangeBounds_operators sides
    obtain ⟨v, held, tests⟩ := met_range field (by simpa using nonempty) operators met
    have answer : stripVersionPermissive (docToBSON d) = some (bsonContainer (bsonFields (canonical d))) := rfl
    simp only [answer, scanTopLevelBSONNumericIn_docToBSON storable held, held, Option.some.injEq, forall_eq']
    cases blocked (canonical d) key with
    | true => simp
    | false =>
      simp only [Bool.false_eq_true, if_false, false_or, Kept]
      cases read : readNumber v with
      | none =>
        simp only [probeOf, true_iff]
        intro condition _ lost
        obtain ⟨f, found, -⟩ := lost.readsAs
        simp [read] at found
      | some f =>
        cases finite : f.isFinite with
        | false =>
          simp only [probeOf, finite, Bool.false_eq_true, if_false, true_iff]
          intro condition _ lost
          obtain ⟨g, found, finite'⟩ := lost.readsAs
          obtain rfl : f = g := by simpa [read] using found
          simp [finite] at finite'
        | true =>
          have reads := readNumber_iff.mp read
          have number := not_isNaN_of_isFinite finite
          simp only [probeOf, finite, if_true, Bool.and_eq_true]
          rw [rangeBounds_spec sides numeric_none numeric_none number]
          simp only [aboveLo, belowHi, passes, and_self, true_and]
          refine forall_congr' fun condition => forall_congr' fun member => ?_
          obtain ⟨-, g, bound⟩ := operators condition member
          obtain ⟨reads', finite'⟩ := numericBoundFloat64_iff.mp bound
          obtain ⟨w, occurs, -, accepted⟩ := tests condition member
          obtain rfl : w = v := by simpa [reads.elementsOrSelf] using occurs
          rw [Compare_number (reads.isNumber finite) (reads'.isNumber finite'), RangeOp.accepts_compare] at accepted
          simp only [bound, Option.some.injEq, forall_eq']
          exact holds_readsAs reads reads' finite finite' accepted

theorem field_predicate (field : IsField key)
    (built : buildBSONFieldPredicate key c = some pred) (storable : Storable d)
    (met : filterDocumentPair d key c = .ok true) :
    pred (docToBSON d) true = true ↔ ∀ v, d.get key = some v → blocked (canonical d) key = true ∨ Kept v c := by
  cases c with
  | document _ => exact range_predicate field built storable met
  | int32 _ | int64 _ | double _ | string _ | bool _ | date _ | objectID _ =>
    exact equality_predicate field rfl built storable met
  | _ => simp [buildBSONFieldPredicate, normaliseFilterValue] at built

theorem scanPredicates_all {filter : List (Bytes × Value)} {preds : List ScanPredicate}
    (built : scanPredicates filter = some preds) (storable : Storable d)
    (met : ∀ condition ∈ filter, filterDocumentPair d condition.1 condition.2 = .ok true) :
    matchScanPredicates preds (docToBSON d) true = true ↔ ∀ condition ∈ filter, ∀ v,
      d.get condition.1 = some v → blocked (canonical d) condition.1 = true ∨ Kept v condition.2 := by
  induction filter generalizing preds with
  | nil =>
    obtain rfl : preds = [] := by simpa [scanPredicates, eq_comm] using built
    simp [matchScanPredicates]
  | cons condition filter ih =>
    obtain ⟨key, c⟩ := condition
    rw [forall_mem_cons] at met ⊢
    rw [scanPredicates] at built
    split at built
    · simp at built
    have field : IsField key := ⟨by simp_all, by simp_all⟩
    cases first : buildBSONFieldPredicate key c with
    | none => simp [first] at built
    | some pred =>
      cases later : scanPredicates filter with
      | none => simp [first, later] at built
      | some rest =>
        obtain rfl : preds = pred :: rest := by simpa [first, later, eq_comm] using built
        rw [matchScanPredicates, all_cons, Bool.and_eq_true, field_predicate field first storable met.1,
          ← ih later met.2, matchScanPredicates]

/-- The prefilter drops no matching document exactly when every condition the document meets is
one it can tell. -/
theorem scan_prefilter_sound_iff {filter d : Document} {p : Bytes → Bool}
    (built : buildScanPrefilter filter = some p) (storable : Storable d) :
    (p (docToBSON d) = false → ¬ Matches d filter) ↔
      (Matches d filter → ∀ condition ∈ filter, ∀ v, d.get condition.1 = some v →
        blocked (canonical d) condition.1 = true ∨ Kept v condition.2) := by
  rw [buildScanPrefilter] at built
  cases preds : scanPredicates filter with
  | none => simp [preds] at built
  | some _ =>
    obtain ⟨-, rfl⟩ := by simpa [preds] using built
    have keeps (matched : Matches d filter) :=
      scanPredicates_all preds storable (FilterDocument_iff.mp matched)
    constructor
    · intro sound matched
      rw [← keeps matched]
      by_contra dropped
      exact sound (by simpa using dropped) matched
    · intro kept dropped matched
      have passed := (keeps matched).mpr (kept matched)
      simp [passed] at dropped

end

attribute [local instance] amd64 bareEnv

/-- `{a: [1, 2]}` under `{a: 1}`. -/
theorem scan_prefilter_keeps_array :
    ∃ p, buildScanPrefilter [(fieldA, .int32 1)] = some p ∧ Storable [(fieldA, .array [.int32 1, .int32 2])] ∧
      (p (docToBSON [(fieldA, .array [.int32 1, .int32 2])]) = false →
        ¬ Matches [(fieldA, .array [.int32 1, .int32 2])] [(fieldA, .int32 1)]) := by
  obtain ⟨p, built⟩ : ∃ p, buildScanPrefilter [(fieldA, .int32 1)] = some p := ⟨_, rfl⟩
  have storable : Storable [(fieldA, .array [.int32 1, .int32 2])] := by
    unfold Storable
    decide +kernel
  refine ⟨p, built, storable, (scan_prefilter_sound_iff built storable).mpr ?_⟩
  intro _ _ member v held
  cases mem_singleton.mp member
  obtain rfl : v = .array [.int32 1, .int32 2] := by simpa using held.symm
  refine .inr fun g operand => ?_
  obtain rfl : Float64.ofInt (1 : Int32).toInt = g := Option.some.inj operand
  exact ⟨.int32 1, mem_cons_self, .inr ⟨_, ReadsAs.int32 1, by decide +kernel⟩⟩

/-- A stored document that matches the filter and that its prefilter drops. -/
def Dropped [Platform] [QueryEnv] (filter d : Document) : Prop :=
  Storable d ∧ Matches d filter ∧ ∃ p, buildScanPrefilter filter = some p ∧ p (docToBSON d) = false

theorem dropped_of_eval [Platform] [QueryEnv] {filter d : Document} (storable : Storable d)
    (matched : FilterDocument d filter = .ok true)
    (dropped : (buildScanPrefilter filter).map (fun p => p (docToBSON d)) = some false) : Dropped filter d := by
  obtain ⟨p, built, answer⟩ := Option.map_eq_some_iff.mp dropped
  exact ⟨storable, matched, p, built, answer⟩

/-- Equality with the int64 `2^53 + 1`, the decimal `1` under the integer `1`, NaN under NaN,
and on arm64 the largest int64 under `$lt` the double `2^63`. -/
theorem scan_prefilter_drops :
    Dropped [(fieldA, .int64 9007199254740993)] [(fieldA, .int64 9007199254740993)] ∧
    Dropped [(fieldA, .int32 1)] [(fieldA, .decimal128 ⟨0x3040000000000000, 1⟩)] ∧
    Dropped [(fieldA, .double ⟨0x7FF8000000000001⟩)] [(fieldA, .double ⟨0x7FF8000000000001⟩)] ∧
    @Dropped arm64 bareEnv [(fieldA, .document [(opLt, .double ⟨0x43E0000000000000⟩)])]
      [(fieldA, .int64 Int64.maxValue)] := by
  refine ⟨dropped_of_eval ?_ ?_ ?_, dropped_of_eval ?_ ?_ ?_,
    dropped_of_eval ?_ ?_ ?_, @dropped_of_eval arm64 bareEnv _ _ ?_ ?_ ?_⟩
  all_goals first
    | (unfold Storable; decide +kernel)
    | decide +kernel

end DumboDB.Dolt
