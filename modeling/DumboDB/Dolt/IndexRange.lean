import DumboDB.Dolt.IndexRows
import DumboDB.Dolt.IndexBounds

/-!
The ranges of a condition on the field of an index: which of the values a document has there
fall inside, and when one of a document that matches does.
-/

namespace DumboDB.Dolt
open Foundation ByteOrder Binary64 Binary64.Float64 DumboDB.Types Index Handler List

/-- The scalars considered here: integers, strings, booleans, object ids, timestamps and dates. -/
def isIndexedScalar : Value → Bool
  | .int32 _ => true
  | .int64 _ => true
  | .string _ => true
  | .bool _ => true
  | .objectID _ => true
  | .timestamp _ => true
  | .date _ => true
  | _ => false

theorem compare_dates (m n : Int64) : compare m n = compare m.toInt n.toInt :=
  compare_embed Int64.toInt (fun _ _ => Int64.lt_iff_toInt_lt.mp) m n

theorem compare_date_keys (m n : Int64) :
    compare m.toUInt64 n.toUInt64 = compare (m.toInt % 2 ^ 64) (n.toInt % 2 ^ 64) := by
  rw [← toNat_toUInt64, ← toNat_toUInt64]
  exact compare_embed (fun k : UInt64 => (k.toNat : Int))
    (fun _ _ less => by exact_mod_cast UInt64.lt_iff_toNat_lt.mp less) _ _

variable {x : Value} {o : Value} {b : Value × Bool} {v : Value} {ranges : List (Bytes × Bytes)} {c : Value}

section

variable (scalar : isIndexedScalar x = true)
include scalar

theorem isInteger_of_number (type : detectDataType x = .numbers) : isInteger x = true := by
  cases x <;> simp_all [isIndexedScalar, detectDataType, isInteger]

theorem dataType_of_isIndexedScalar : detectDataType x ≠ .document := by
  intro document
  obtain ⟨_, rfl⟩ := document_of_dataType document
  simp [isIndexedScalar] at scalar

theorem encodeValueLossy_of_isIndexedScalar : EncodeValueLossy x = false := by
  cases x <;> first | rfl | simp [isIndexedScalar] at scalar

theorem operand_cases (same : detectDataType x = detectDataType o) (accepted : refusedOperand o = false) :
    (∃ f, o = .double f ∧ f.isNaN = false ∧ isInteger x = true) ∨ (∃ m n, x = .date m ∧ o = .date n) ∨
      (isPlain x = true ∧ isPlain o = true) := by
  cases o with
  | double f =>
    cases number : f.isNaN with
    | true =>
      rw [detectDataType, number] at same
      cases x <;> simp [isIndexedScalar] at scalar <;> simp [detectDataType] at same
    | false =>
      rw [detectDataType, number] at same
      exact .inl ⟨f, rfl, number, isInteger_of_number scalar same⟩
  | date n =>
    cases x with
    | date m => exact .inr (.inl ⟨m, n, rfl, rfl⟩)
    | _ => simp_all [isIndexedScalar, detectDataType]
  | _ =>
    cases x <;>
      first
      | exact (Bool.false_ne_true scalar).elim
      | exact (Bool.false_ne_true accepted.symm).elim
      | (simp only [detectDataType, reduceCtorEq] at same; done)
      | exact .inr (.inr ⟨rfl, rfl⟩)

end

/-- The value is of the operand's type and meets the operator. -/
def MeetsBound (op : RangeOp) (x o : Value) : Prop :=
  detectDataType x = detectDataType o ∧ op.accepts (Compare x o) = true

theorem Meets_lower : Meets (if b.2 then opGte else opGt) x b.1 ↔ MeetsBound (lowerOp b.2) x b.1 := by
  cases b.2 <;> rfl

theorem Meets_upper : Meets (if b.2 then opLte else opLt) x b.1 ↔ MeetsBound (upperOp b.2) x b.1 := by
  cases b.2 <;> rfl

section
variable [Platform]

/-- Where the key of a scalar stands against the key of an operand of its type. -/
def boundKeyOrder (x o : Value) : Ordering :=
  match x, o with
  | x, .double f => doubleKeyOrder (integer x) f
  | .date m, .date n => compare m.toUInt64 n.toUInt64
  | x, o => Compare x o

/-- Keys that stand on the wrong side of an operand the value itself meets: dates across the
epoch, and integers under a double from `2^63` up, whose key is that of a smaller integer. -/
def Misplaced (op : RangeOp) (x o : Value) : Prop :=
  match x, o with
  | x, .double f => op.isUpper = true ∧ f.isFinite = true ∧
      ((f.units = 2 ^ 63 * one ∧ ¬ op.holds (integer x) converted) ∨
        (2 ^ 64 * one ≤ f.units ∧ 0 < integer x ∧ (toUInt64 f.floor).toNat ≤ integer x))
  | .date m, .date n => ¬ (m.toInt < 0 ↔ n.toInt < 0)
  | _, _ => False

theorem boundKeyOrder_double {f : Float64} : boundKeyOrder x (.double f) = doubleKeyOrder (integer x) f := by
  cases x <;> rfl

theorem boundKeyOrder_plain (plain : isPlain o = true) : boundKeyOrder x o = Compare x o := by
  cases o <;> first | exact (Bool.false_ne_true plain).elim | (cases x <;> rfl)

variable {op : RangeOp}

theorem not_misplaced_plain (plain : isPlain o = true) : ¬ Misplaced op x o := by
  cases o <;> first | exact (Bool.false_ne_true plain).elim | (cases x <;> exact id)

theorem bound_keyOrder (scalar : isIndexedScalar x = true)
    (same : detectDataType x = detectDataType o) (accepted : refusedOperand o = false) :
    KeyOrder 0x3C 1 (boundKeyOrder x o) (EncodeValue x) (EncodeValue o) := by
  rcases operand_cases scalar same accepted with ⟨f, rfl, number, whole⟩ | ⟨m, n, rfl, rfl⟩ | ⟨left, right⟩
  · rw [boundKeyOrder_double]
    exact double_keyOrder whole number
  · exact ((uint64_keyOrder 0x3C m.toUInt64 n.toUInt64).cons ctypeDate).mono (le_refl _) (Nat.zero_le _)
  · rw [boundKeyOrder_plain right]
    exact (plain_keyOrder left right same).mono (by decide) (Nat.zero_le _)

theorem doubleKeyOrder_cases {f : Float64} (whole : isInteger x = true) (number : f.isNaN = false) :
    (doubleKeyOrder (integer x) f = Compare x (.double f) ∧
        ¬ (f.isFinite = true ∧ (f.units = 2 ^ 63 * one ∨ 2 ^ 64 * one ≤ f.units))) ∨
      (Compare x (.double f) = .lt ∧ f.isFinite = true ∧ f.units = 2 ^ 63 * one ∧
        doubleKeyOrder (integer x) f = compare (integer x) converted) ∨
      (Compare x (.double f) = .lt ∧ f.isFinite = true ∧ 2 ^ 64 * one ≤ f.units ∧ doubleKeyOrder (integer x) f =
          if integer x ≤ 0 ∨ integer x < (toUInt64 f.floor).toNat then .lt else .gt) := by
  have range := integer_range x
  have positive := one_pos_int
  have exact : Compare x (.double f) = compare (integer x * one) f.units := by
    rw [Compare_number (isNumber_of_isInteger whole) (by simp [IsNumber, number]), numberUnits_integer whole]
    rfl
  have low : -2 ^ 63 * one ≤ integer x * one := Int.mul_le_mul_of_nonneg_right range.1 positive.le
  have high : integer x * one < 2 ^ 63 * one := Int.mul_lt_mul_of_pos_right range.2 positive
  rw [exact]
  unfold doubleKeyOrder
  by_cases finite : f.isFinite
  · rw [not_isInf_of_isFinite finite, if_neg (by decide)]
    by_cases edge : f.units = 2 ^ 63 * one
    · rw [if_pos edge]
      exact .inr (.inl ⟨compare_lt_iff_lt.mpr (by omega), finite, edge, rfl⟩)
    · rw [if_neg edge]
      by_cases huge : 2 ^ 64 * one ≤ f.units
      · rw [if_pos huge]
        exact .inr (.inr ⟨compare_lt_iff_lt.mpr (by omega), finite, huge, rfl⟩)
      · rw [if_neg huge]
        exact .inl ⟨rfl, by tauto⟩
  · have top := top_units
    have size := units_infinite number finite
    rw [if_pos (isInf_of_not number finite)]
    refine .inl ⟨?_, fun fits => finite fits.1⟩
    cases sign : f.signbit with
    | false =>
      rw [sign] at size
      exact (compare_lt_iff_lt.mpr (by simp only [Bool.false_eq_true, if_false] at size; omega)).symm
    | true =>
      rw [sign] at size
      exact (compare_gt_iff_gt.mpr (by simp only [if_true] at size; omega)).symm

theorem accepts_boundKeyOrder_iff (scalar : isIndexedScalar x = true)
    (same : detectDataType x = detectDataType o) (accepted : refusedOperand o = false)
    (meets : op.accepts (Compare x o) = true) : op.accepts (boundKeyOrder x o) = true ↔ ¬ Misplaced op x o := by
  rcases operand_cases scalar same accepted with ⟨f, rfl, number, whole⟩ | ⟨m, n, rfl, rfl⟩ | ⟨-, plain⟩
  · have wrong : Misplaced op x (.double f) ↔ op.isUpper = true ∧ f.isFinite = true ∧
        ((f.units = 2 ^ 63 * one ∧ ¬ op.holds (integer x) converted) ∨
          (2 ^ 64 * one ≤ f.units ∧ 0 < integer x ∧ (toUInt64 f.floor).toNat ≤ integer x)) := by
      cases x <;> rfl
    have positive := one_pos_int
    rw [boundKeyOrder_double, wrong]
    rcases doubleKeyOrder_cases whole number with ⟨agrees, _⟩ | ⟨less, finite, _, key⟩ | ⟨less, finite, huge, key⟩
    · rw [agrees]
      exact iff_of_true meets (by tauto)
    · have upper := op.isUpper_of_accepts_lt (less ▸ meets)
      have bounded : ¬ (2 ^ 64 * one : Int) ≤ f.units := by omega
      rw [key, op.accepts_compare]
      tauto
    · have upper := op.isUpper_of_accepts_lt (less ▸ meets)
      rw [key]
      split
      next _ =>
        rw [less] at meets
        exact iff_of_true meets (by omega)
      next _ =>
        refine iff_of_false ?_ (fun fine => fine ⟨upper, finite, .inr ⟨huge, by omega, by omega⟩⟩)
        cases op <;> simp_all [RangeOp.accepts, RangeOp.isUpper]
  · have left := toInt64_range m
    have right := toInt64_range n
    change op.accepts (compare m.toUInt64 n.toUInt64) = true ↔ ¬ ¬ (m.toInt < 0 ↔ n.toInt < 0)
    rw [Compare_date, compare_dates, op.accepts_compare] at meets
    rw [compare_date_keys, op.accepts_compare]
    cases op <;> simp only [RangeOp.holds] at meets ⊢ <;> omega
  · rw [boundKeyOrder_plain plain]
    exact iff_of_true meets (not_misplaced_plain plain)

/-- Where a value that meets an operand is misplaced, every key on the right side belongs to a
value that meets it. -/
theorem accepts_of_misplaced {y : Value} (scalar : isIndexedScalar x = true)
    (same : detectDataType x = detectDataType o) (accepted : refusedOperand o = false)
    (other : isIndexedScalar y = true) (alike : detectDataType y = detectDataType o)
    (meets : op.accepts (Compare y o) = true) (wrong : Misplaced op y o)
    (key : op.accepts (boundKeyOrder x o) = true) : op.accepts (Compare x o) = true := by
  rcases operand_cases scalar same accepted with ⟨f, rfl, number, whole⟩ | ⟨m, n, rfl, rfl⟩ | ⟨-, plain⟩
  · have upper : op.isUpper = true := by
      cases y <;> exact wrong.1
    rw [boundKeyOrder_double] at key
    rcases doubleKeyOrder_cases whole number with ⟨agrees, -⟩ | ⟨less, -⟩ | ⟨less, -⟩
    · rwa [agrees] at key
    · cases op <;> simp_all [RangeOp.accepts, RangeOp.isUpper]
    · cases op <;> simp_all [RangeOp.accepts, RangeOp.isUpper]
  · obtain ⟨k, rfl⟩ : ∃ k, y = .date k := by
      cases y <;> simp_all [isIndexedScalar, detectDataType]
    have first := toInt64_range m
    change ¬ (k.toInt < 0 ↔ n.toInt < 0) at wrong
    change op.accepts (compare m.toUInt64 n.toUInt64) = true at key
    rw [Compare_date, compare_dates, op.accepts_compare] at meets ⊢
    rw [compare_date_keys, op.accepts_compare] at key
    cases op <;> simp only [RangeOp.holds] at meets key ⊢ <;> omega
  · exact absurd wrong (not_misplaced_plain plain)

theorem EncodeValue_eq_of_equal (scalar : isIndexedScalar x = true) (equal : CompareOrder x o = .eq)
    (accepted : refusedOperand o = false) : EncodeValue x = EncodeValue o := by
  obtain ⟨same, equal⟩ := CompareOrder_eq_iff.mp equal
  have order : boundKeyOrder x o = .eq := by
    rcases operand_cases scalar same accepted with ⟨f, rfl, number, whole⟩ | ⟨m, n, rfl, rfl⟩ | ⟨-, plain⟩
    · rw [boundKeyOrder_double]
      rcases doubleKeyOrder_cases whole number with ⟨agrees, -⟩ | ⟨less, -⟩ | ⟨less, -⟩
      · rw [agrees, equal]
      · simp [equal] at less
      · simp [equal] at less
    · rw [Compare_date] at equal
      obtain rfl := Std.LawfulEqCmp.eq_of_compare equal
      exact (Std.ReflCmp.compare_self : compare m.toUInt64 m.toUInt64 = .eq)
    · rw [boundKeyOrder_plain plain, equal]
  have keyed := bound_keyOrder scalar same accepted
  rw [order] at keyed
  exact keyed

/-- The value meets the tighter operand of each side, with its key on the right side of both. -/
structure WellPlaced (x : Value) (expr : Document) : Prop where
  lower : ∀ b, lowerBound expr = some b → MeetsBound (lowerOp b.2) x b.1 ∧ ¬ Misplaced (lowerOp b.2) x b.1
  upper : ∀ b, upperBound expr = some b → MeetsBound (upperOp b.2) x b.1 ∧ ¬ Misplaced (upperOp b.2) x b.1

/-- What keeps a document's entry inside: equality and membership ask nothing, a range asks for a
value that is well placed. -/
def FoundAt (x : Value) (scanned : Value) : Prop :=
  match scanned with
  | .document expr => Document.get expr opEq = none → WellPlaced x expr
  | _ => True

end

/-- An index on one field, under binary comparison, that covers the document and is flagged for
its array. -/
structure Indexed [QueryEnv] (idx : IndexInfo) (kp : IndexKeyPair) (d : Document) : Prop where
  key : idx.key = [kp]
  binary : idx.comparator = none
  named : isOperatorKey kp.field = false
  covered : MatchesPartialFilter idx d = true
  flagged : isArray (indexFieldValue d kp.field) = true → idx.multikey = true

theorem isArray_of_not_refused (accepted : refusedOperand v = false) : isArray v = false := by
  cases v <;> first | rfl | simp [refusedOperand] at accepted

theorem isCondition_of_accepted {op : Bytes} (comparison : isComparison op = true)
    (accepted : refusedOperand v = false) : isCondition op v = true := by
  cases v <;> simp_all [isCondition, isOperand, isBare, isUndefined, refusedOperand]

theorem indexPointRangesForIn_spec [Platform] (planned : indexPointRangesForIn v = some ranges) :
    ∃ values, v = .document [(opIn, .array values)] ∧ (∀ c ∈ values, refusedOperand c = false) ∧
      ranges = values.map fun c => (LowerBoundInclusive c, UpperBoundInclusive c) := by
  unfold indexPointRangesForIn at planned
  split at planned
  next _ values =>
    split at planned
    next membership =>
      split at planned
      · simp at planned
      next accepted =>
        rw [membership]
        exact ⟨values, rfl, by simpa using accepted, (Option.some.inj planned).symm⟩
    · simp at planned
  · simp at planned

theorem inRange_of_equal [Platform] (scalar : isIndexedScalar x = true) (equal : CompareOrder x c = .eq)
    (accepted : refusedOperand c = false) (id : Bytes) :
    InRange (LowerBoundInclusive c) (UpperBoundInclusive c) (BuildSecondaryKey [x] id) :=
  inRange_point (EncodeValue_eq_of_equal scalar equal accepted) id

section
variable [QueryEnv] {idx : IndexInfo} {kp : IndexKeyPair} {d : Document}

variable {expr scanned : Document}

theorem isBare_of_match (named : isOperatorKey kp.field = false)
    (single : ∀ expr, v ≠ .document expr) (accepted : refusedOperand v = false)
    (matched : filterDocumentPair d kp.field v = .ok true) : isBare v = true := by
  cases v <;> first | rfl | simp [refusedOperand] at accepted
  obtain ⟨_, -, refused⟩ := (filterDocumentPair_ok_iff named).mp matched
  simp [filterField] at refused

variable [Platform]

def Found (idx : IndexInfo) (d : Document) (ranges : List (Bytes × Bytes)) (id : Bytes) : Prop :=
  ∃ row ∈ (indexEntriesForDoc d idx).rows, ∃ range ∈ ranges, InRange range.1 range.2 (BuildSecondaryKey row id)

theorem found_iff (indexed : Indexed idx kp d) (reached : reachedElements d kp.field ≠ [])
    {id : Bytes} : Found idx d ranges id ↔
      ∃ x ∈ reachedElements d kp.field, ∃ range ∈ ranges, InRange range.1 range.2 (BuildSecondaryKey [x] id) := by
  rw [Found, rows_single indexed.key indexed.binary indexed.covered reached]
  simp only [mem_map, exists_exists_and_eq_and]

section

variable (indexed : Indexed idx kp d) (scalars : ∀ w ∈ reachedElements d kp.field, isIndexedScalar w = true)
include indexed scalars

section

variable (source : (if idx.multikey then multikeyScanBound (.document expr) else .document expr) = .document scanned)
  {b : Bounds} (collects : Collects scanned b) (noEq : scanned.get opEq = none)
include source collects noEq

omit [Platform] in
theorem exists_meeting (sided : lowerBound scanned ≠ none ∨ upperBound scanned ≠ none)
    (matched : filterDocumentPair d kp.field (.document expr) = .ok true) :
    ∃ y ∈ reachedElements d kp.field, (∀ b, lowerBound scanned = some b → MeetsBound (lowerOp b.2) y b.1) ∧
      (∀ b, upperBound scanned = some b → MeetsBound (upperOp b.2) y b.1) ∧
      (lowerBound scanned = none ∨ upperBound scanned = none ∨ ∀ z ∈ reachedElements d kp.field, z = y) := by
  have typed : ∀ w ∈ reachedElements d kp.field, detectDataType w ≠ .document := fun w member =>
    dataType_of_isIndexedScalar (scalars w member)
  have kept : (∀ op v, scanned.get op = some v → expr.get op = some v) ∧
      (idx.multikey = true → lowerBound scanned = none ∨ upperBound scanned = none) := by
    cases flag : idx.multikey with
    | false =>
      rw [flag, if_neg Bool.false_ne_true] at source
      obtain rfl := Value.document.inj source
      exact ⟨fun _ _ => id, by simp⟩
    | true =>
      rw [flag, if_pos rfl] at source
      obtain ⟨other, written, sub, sides⟩ := multikeyScanBound_spec expr
      obtain rfl := Value.document.inj (written.symm.trans source)
      exact ⟨sub, fun _ => sides noEq⟩
  have meet {op : Bytes} {v : Value} (held : scanned.get op = some v) :
      ∃ w ∈ reachedElements d kp.field, Meets op w v :=
    (condition_of_match indexed.named typed matched (mem_of_get (kept.1 op v held))
      (isCondition_of_accepted (collects.comparison _ (mem_of_get held)) (collects.accepted op v held).1)).2
  -- With both sides there is no array, so one value meets them.
  have alone (lower : lowerBound scanned ≠ none) (upper : upperBound scanned ≠ none) {y : Value}
      (member : y ∈ reachedElements d kp.field) : ∀ z ∈ reachedElements d kp.field, z = y := by
    have plain : isArray (indexFieldValue d kp.field) = false := by
      cases array : isArray (indexFieldValue d kp.field) with
      | false => rfl
      | true => simpa [lower, upper] using kept.2 (indexed.flagged array)
    have single : reachedElements d kp.field = [indexFieldValue d kp.field] := by
      rw [← elementsOrSelf_single plain, elementsOrSelf_indexFieldValue]
      intro none
      rw [reachedElements, none] at member
      exact absurd member not_mem_nil
    intro z other
    rw [single, mem_singleton] at member other
    rw [member, other]
  cases lower : lowerBound scanned with
  | none =>
    cases upper : upperBound scanned with
    | none => exact absurd sided (by simp [lower, upper])
    | some u =>
      obtain ⟨y, member, meets⟩ := meet (upperBound_mem upper)
      refine ⟨y, member, by simp, fun b same => ?_, .inl rfl⟩
      cases same
      exact Meets_upper.mp meets
  | some l =>
    obtain ⟨y, member, meets⟩ := meet (lowerBound_mem lower)
    have single := fun upper => alone (by simp [lower]) upper member
    refine ⟨y, member, fun b same => ?_, fun b upper => ?_, ?_⟩
    · cases same
      exact Meets_lower.mp meets
    · obtain ⟨z, other, meets⟩ := meet (upperBound_mem upper)
      rw [single (by simp [upper]) z other] at meets
      exact Meets_upper.mp meets
    · cases upper : upperBound scanned with
      | none => exact .inr (.inl rfl)
      | some u => exact .inr (.inr (single (by simp [upper])))

/-- A range without equality: the key of a value is inside when the value is well placed, and some
value is when any key is. -/
theorem range_found_iff {start stop : Bytes} (keys : boundKeys b = some (start, stop))
    (matched : filterDocumentPair d kp.field (.document expr) = .ok true) (id : Bytes) :
    reachedElements d kp.field ≠ [] ∧
      ((∃ x ∈ reachedElements d kp.field, InRange start stop (BuildSecondaryKey [x] id)) ↔
        ∃ x ∈ reachedElements d kp.field, WellPlaced x scanned) := by
  have collected : b = ⟨lowerBound scanned, upperBound scanned, none⟩ := by
    cases b
    simp only [Bounds.mk.injEq]
    exact ⟨collects.lower, collects.upper, collects.eq.trans noEq⟩
  rw [collected] at keys
  have sided : lowerBound scanned ≠ none ∨ upperBound scanned ≠ none := by
    by_contra neither
    simp only [ne_eq, not_or, not_not] at neither
    rw [neither.1, neither.2] at keys
    simp [boundKeys] at keys
  have accepted {op : Bytes} {v : Value} (held : scanned.get op = some v) (range : op ≠ opEq) :
      refusedOperand v = false ∧ isNaNValue v = false := by
    have spec := collects.accepted op v held
    exact ⟨spec.1, by simpa using mt spec.2 range⟩
  have validLower : ValidSide (lowerBound scanned) := fun b bound =>
    accepted (lowerBound_mem bound) (by cases b.2 <;> decide)
  have validUpper : ValidSide (upperBound scanned) := fun b bound =>
    accepted (upperBound_mem bound) (by cases b.2 <;> decide)
  have inside (x : Value) (member : x ∈ reachedElements d kp.field) :=
    boundKeys_iff keys validLower validUpper (encodeValueLossy_of_isIndexedScalar (scalars x member))
      (fun o same => bound_keyOrder (scalars x member) same) id
  have placed {x : Value} (member : x ∈ reachedElements d kp.field) {op : RangeOp} {b : Value × Bool}
      (operand : refusedOperand b.1 = false) (meets : MeetsBound op x b.1) :
      op.accepts (boundKeyOrder x b.1) = true ↔ ¬ Misplaced op x b.1 :=
    accepts_boundKeyOrder_iff (scalars x member) meets.1 operand meets.2
  obtain ⟨y, here, meetsLower, meetsUpper, sides⟩ :=
    exists_meeting indexed scalars source collects noEq sided matched
  refine ⟨ne_nil_of_mem here, ?_, ?_⟩
  · rintro ⟨x, member, found⟩
    obtain ⟨above, below⟩ := (inside x member).mp found
    -- Where the value that meets the side is misplaced, the one whose key is inside meets it too.
    have side {op : RangeOp} {b : Value × Bool} (operand : refusedOperand b.1 = false) (meets : MeetsBound op y b.1)
        (key : detectDataType x = detectDataType b.1 ∧ op.accepts (boundKeyOrder x b.1) = true) :
        ∃ z ∈ reachedElements d kp.field, MeetsBound op z b.1 ∧ ¬ Misplaced op z b.1 := by
      by_cases wrong : Misplaced op y b.1
      · have meeting : MeetsBound op x b.1 := ⟨key.1, accepts_of_misplaced (scalars x member) key.1 operand
          (scalars y here) meets.1 meets.2 wrong key.2⟩
        exact ⟨x, member, meeting, (placed member operand meeting).mp key.2⟩
      · exact ⟨y, here, meets, wrong⟩
    rcases sides with noLower | noUpper | single
    · obtain ⟨u, upper⟩ := Option.ne_none_iff_exists'.mp (sided.resolve_left (not_not.mpr noLower))
      obtain ⟨z, other, well⟩ := side (validUpper u upper).1 (meetsUpper u upper) (below u upper)
      refine ⟨z, other, by simp [noLower], fun b bound => ?_⟩
      obtain rfl := Option.some.inj (upper.symm.trans bound)
      exact well
    · obtain ⟨l, lower⟩ := Option.ne_none_iff_exists'.mp (sided.resolve_right (not_not.mpr noUpper))
      obtain ⟨z, other, well⟩ := side (validLower l lower).1 (meetsLower l lower) (above l lower)
      refine ⟨z, other, fun b bound => ?_, by simp [noUpper]⟩
      obtain rfl := Option.some.inj (lower.symm.trans bound)
      exact well
    · obtain rfl := single x member
      exact ⟨x, member, fun b bound => ⟨meetsLower b bound,
          (placed member (validLower b bound).1 (meetsLower b bound)).mp (above b bound).2⟩,
        fun b bound => ⟨meetsUpper b bound,
          (placed member (validUpper b bound).1 (meetsUpper b bound)).mp (below b bound).2⟩⟩
  · rintro ⟨x, member, well⟩
    refine ⟨x, member, (inside x member).mpr ⟨fun b bound => ?_, fun b bound => ?_⟩⟩
    · obtain ⟨meets, right⟩ := well.lower b bound
      exact ⟨meets.1, (placed member (validLower b bound).1 meets).mpr right⟩
    · obtain ⟨meets, right⟩ := well.upper b bound
      exact ⟨meets.1, (placed member (validUpper b bound).1 meets).mpr right⟩

end

theorem found_of_equal (member : x ∈ reachedElements d kp.field) (equal : CompareOrder x c = .eq)
    (accepted : refusedOperand c = false)
    (inside : (LowerBoundInclusive c, UpperBoundInclusive c) ∈ ranges) (id : Bytes) : Found idx d ranges id :=
  (found_iff indexed (ne_nil_of_mem member)).mpr
    ⟨x, member, _, inside, inRange_of_equal (scalars x member) equal accepted id⟩

theorem membership_found {values : List Value} (accepted : ∀ c ∈ values, refusedOperand c = false)
    (matched : filterDocumentPair d kp.field (.document [(opIn, .array values)]) = .ok true) (id : Bytes) :
    Found idx d (values.map fun c => (LowerBoundInclusive c, UpperBoundInclusive c)) id ∧
      ∃ x ∈ reachedElements d kp.field, FoundAt x
        (if idx.multikey then multikeyScanBound (.document [(opIn, .array values)])
          else .document [(opIn, .array values)]) := by
  have operands : values.all isOperand = true := by
    rw [all_eq_true]
    intro c member
    have plain := accepted c member
    cases c <;> first | rfl | simp [refusedOperand] at plain
  obtain ⟨-, x, member, meets⟩ := condition_of_match indexed.named
    (fun w member => dataType_of_isIndexedScalar (scalars w member)) matched (mem_singleton_self _)
    (by simp [isCondition, operands])
  obtain ⟨c, inside, equal⟩ := meets
  refine ⟨found_of_equal indexed scalars member equal (accepted c inside)
    (mem_map.mpr ⟨c, inside, rfl⟩) id, x, member, ?_⟩
  have whole : (if idx.multikey then multikeyScanBound (.document [(opIn, .array values)])
      else .document [(opIn, .array values)]) = .document [(opIn, .array values)] := by
    split <;> rfl
  rw [whole]
  refine fun _ => ⟨fun b bound => ?_, fun b bound => ?_⟩ <;> cases bound

variable {range : Bytes × Bytes}

theorem bare_found (single : ∀ expr, v ≠ .document expr) (bounds : indexBoundsForFilterValue v = some range)
    (matched : filterDocumentPair d kp.field v = .ok true) (id : Bytes) :
    Found idx d [range] id ∧ ∃ x ∈ reachedElements d kp.field, FoundAt x v := by
  have plain : indexBoundsForFilterValue v =
      if refusedOperand v then none else some (LowerBoundInclusive v, UpperBoundInclusive v) := by
    cases v <;> first | (exact absurd rfl (single _)) | rfl
  rw [plain] at bounds
  split at bounds
  · simp at bounds
  next accepted =>
    rw [Bool.not_eq_true] at accepted
    cases bounds
    obtain ⟨x, member, equal⟩ := (bare_condition_iff indexed.named
      (isBare_of_match indexed.named single accepted matched)).mp matched
    refine ⟨found_of_equal indexed scalars member equal accepted (mem_singleton_self _) id, x, member, ?_⟩
    cases v <;> first | (exact absurd rfl (single _)) | trivial

theorem operators_found (source : (if idx.multikey then multikeyScanBound
    (.document expr) else .document expr) = .document scanned)
    (sub : ∀ op v, scanned.get op = some v → expr.get op = some v)
    (bounds : indexBoundsForFilterValue (.document scanned) = some range)
    (matched : filterDocumentPair d kp.field (.document expr) = .ok true) (id : Bytes) :
    Found idx d [range] id ↔ ∃ x ∈ reachedElements d kp.field, FoundAt x (.document scanned) := by
  obtain ⟨b, found, keys⟩ := Option.bind_eq_some_iff.mp bounds
  have collects := collectBounds_spec found
  cases equality : scanned.get opEq with
  | some c =>
    have operand := (collects.accepted opEq c equality).1
    obtain ⟨-, x, member, meets⟩ := condition_of_match indexed.named
      (fun w member => dataType_of_isIndexedScalar (scalars w member)) matched
      (mem_of_get (sub opEq c equality)) (isCondition_of_accepted rfl operand)
    rw [Meets, if_pos (.inl rfl), elementsOrSelf_single (isArray_of_not_refused operand)] at meets
    obtain ⟨m, same, equal⟩ := meets
    rw [mem_singleton.mp same] at equal
    rw [boundKeys, collects.eq, equality] at keys
    cases keys
    refine iff_of_true (found_of_equal indexed scalars member equal operand (mem_singleton_self _) id)
      ⟨x, member, fun none => ?_⟩
    rw [equality] at none
    simp at none
  | none =>
    obtain ⟨reached, ranged⟩ := range_found_iff indexed scalars source collects equality keys matched id
    have target (x : Value) : FoundAt x (.document scanned) ↔ WellPlaced x scanned := by
      exact ⟨fun well => well equality, fun well _ => well⟩
    rw [found_iff indexed reached]
    simp only [target, ← ranged, mem_singleton, exists_eq_left]

end

/-- One of the entries of a document that matches lies in the ranges of the condition exactly
when one of its values is found there. -/
theorem single_field_range_iff (indexed : Indexed idx kp d)
    (scalars : ∀ w ∈ reachedElements d kp.field, isIndexedScalar w = true) {v : Value}
    {ranges : List (Bytes × Bytes)} (planned : conditionRanges idx.multikey v = some ranges)
    (matched : Matches d [(kp.field, v)]) (id : Bytes) :
    (∃ row ∈ (indexEntriesForDoc d idx).rows, ∃ range ∈ ranges, InRange range.1 range.2 (BuildSecondaryKey row id)) ↔
      ∃ x ∈ reachedElements d kp.field, FoundAt x (if idx.multikey then multikeyScanBound v else v) := by
  have pair : filterDocumentPair d kp.field v = .ok true := by
    simpa [Matches, FilterDocument_iff] using matched
  unfold conditionRanges at planned
  split at planned
  next _ inList =>
    cases planned
    obtain ⟨_, rfl, accepted, rfl⟩ := indexPointRangesForIn_spec inList
    have both := membership_found indexed scalars accepted pair id
    exact iff_of_true both.1 both.2
  · obtain ⟨range, bounds, rfl⟩ := Option.map_eq_some_iff.mp planned
    cases document : isDocument v with
    | false =>
      have single (expr : Document) : v ≠ .document expr := by
        rintro rfl
        simp [isDocument] at document
      have whole : (if idx.multikey then multikeyScanBound v else v) = v := by
        cases v <;> first | (exact absurd rfl (single _)) | (split <;> rfl)
      rw [whole] at bounds ⊢
      have both := bare_found indexed scalars single bounds pair id
      exact iff_of_true both.1 both.2
    | true =>
      obtain ⟨expr, rfl⟩ : ∃ expr, v = .document expr := by
        cases v <;> simp [isDocument] at document ⊢
      obtain ⟨scanned, source, sub⟩ : ∃ scanned,
          (if idx.multikey then multikeyScanBound (.document expr) else .document expr) = .document scanned ∧
            ∀ op v, Document.get scanned op = some v → Document.get expr op = some v := by
        split
        · obtain ⟨scanned, source, sub, -⟩ := multikeyScanBound_spec expr
          exact ⟨scanned, source, sub⟩
        · exact ⟨expr, rfl, fun _ _ held => held⟩
      rw [source] at bounds ⊢
      exact operators_found indexed scalars source sub bounds pair id

end

def indexA : IndexInfo :=
  ⟨ascii ['a', '_', '1'], [⟨fieldA, false⟩], false, false, none, none, false, false, false⟩

attribute [local instance] amd64 bareEnv

/-- `{a: 5}` under `{a: {$gt: 3}}`. -/
theorem single_field_range_five :
    Matches [(fieldA, .int32 5)] [(fieldA, .document [(opGt, .int32 3)])] ∧
      ∃ ranges, conditionRanges false (.document [(opGt, .int32 3)]) = some ranges ∧
        ∃ row ∈ (indexEntriesForDoc [(fieldA, .int32 5)] indexA).rows, ∃ range ∈ ranges,
          InRange range.1 range.2 (BuildSecondaryKey row (List.replicate 20 0)) := by
  have matched : Matches [(fieldA, .int32 5)] [(fieldA, .document [(opGt, .int32 3)])] := by
    unfold Matches
    decide +kernel
  have indexed : Indexed indexA ⟨fieldA, false⟩ [(fieldA, .int32 5)] :=
    Indexed.mk rfl rfl rfl rfl nofun
  have scalars : ∀ w ∈ reachedElements [(fieldA, .int32 5)] fieldA, isIndexedScalar w = true := by
    intro w member
    cases mem_singleton.mp member
    rfl
  have placed : WellPlaced (.int32 5) [(opGt, .int32 3)] := by
    refine WellPlaced.mk (fun b bound => ?_) nofun
    obtain rfl : (.int32 3, false) = b := Option.some.inj bound
    exact ⟨⟨rfl, by decide +kernel⟩, id⟩
  exact ⟨matched, _, rfl, (single_field_range_iff indexed scalars rfl matched _).mpr
    ⟨.int32 5, mem_singleton_self _, fun _ => placed⟩⟩

/-- A document that matches the condition and has no entry in its ranges. -/
def Missed [Platform] [QueryEnv] (idx : IndexInfo) (d : Document) (field : Bytes) (v : Value) (id : Bytes) : Prop :=
  Matches d [(field, v)] ∧ ∃ ranges, conditionRanges idx.multikey v = some ranges ∧
    ¬ ∃ row ∈ (indexEntriesForDoc d idx).rows, ∃ range ∈ ranges, InRange range.1 range.2 (BuildSecondaryKey row id)

theorem missed_of_eval [Platform] [QueryEnv] {idx : IndexInfo} {d : Document} {field : Bytes} {v : Value}
    {id : Bytes} (matched : FilterDocument d [(field, v)] = .ok true)
    (missed : (conditionRanges idx.multikey v).map (fun ranges =>
      decide (∃ row ∈ (indexEntriesForDoc d idx).rows, ∃ range ∈ ranges,
        InRange range.1 range.2 (BuildSecondaryKey row id))) = some false) : Missed idx d field v id := by
  obtain ⟨ranges, planned, answer⟩ := Option.map_eq_some_iff.mp missed
  exact ⟨matched, ranges, planned, by simpa using answer⟩

/-- The date one millisecond before the epoch under `$lt` a later date, and on amd64 the integer
`5` under `$lt` the double `2^63`. -/
theorem single_field_range_misses :
    Missed indexA [(fieldA, .date (-1))] fieldA (.document [(opLt, .date 5)]) (List.replicate 20 0) ∧
      Missed indexA [(fieldA, .int32 5)] fieldA
        (.document [(opLt, .double ⟨0x43E0000000000000⟩)]) (List.replicate 20 0) := by
  refine ⟨missed_of_eval ?_ ?_, missed_of_eval ?_ ?_⟩
  all_goals decide +kernel

end DumboDB.Dolt
