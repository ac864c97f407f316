import DumboDB.Types.NumericOrder

/-!
Every scalar has a sort key: within one data type `types.Compare` is the order of the keys.
-/

namespace DumboDB.Types
open Foundation ByteOrder Binary64 Binary64.Float64 Std

structure ScalarKey where
  cls : Nat
  number : ℚ
  bytes : Bytes
deriving DecidableEq

def ScalarKey.cmp (a b : ScalarKey) : Ordering :=
  (compare a.cls b.cls).then ((compare a.number b.number).then (compare a.bytes b.bytes))

theorem ScalarKey.cmp_swap (a b : ScalarKey) : a.cmp b = (b.cmp a).swap := by
  simp only [ScalarKey.cmp, Ordering.swap_then]
  congr 1
  · exact OrientedCmp.eq_swap
  · congr 1
    · exact OrientedCmp.eq_swap
    · exact OrientedCmp.eq_swap

theorem ScalarKey.chain (a b c : ScalarKey) : Chain (a.cmp b) (b.cmp c) (a.cmp c) :=
  (Chain.of_transCmp compare a.cls b.cls c.cls).then fun _ _ =>
    (Chain.of_transCmp compare a.number b.number c.number).then fun _ _ =>
      Chain.of_transCmp compare a.bytes b.bytes c.bytes

def NumericParts.key (p : NumericParts) : ScalarKey := ⟨p.cls, p.rat, []⟩

theorem NumericParts.key_cmp (p q : NumericParts) : p.key.cmp q.key = p.cmp q := by
  simp [NumericParts.key, ScalarKey.cmp, NumericParts.cmp]

/-- The sort key of a scalar; documents and arrays have none of their own. -/
def scalarKey : Value → ScalarKey
  | .double f => (floatParts f).key
  | .int32 n => (NumericParts.finite n.toInt).key
  | .int64 n => (NumericParts.finite n.toInt).key
  | .decimal128 d => d.parts.key
  | .string s => ⟨0, 0, s⟩
  | .binary b => ⟨b.b.length, b.subtype.toNat, b.b⟩
  | .objectID id => ⟨0, 0, id.bytes⟩
  | .bool b => ⟨b.toNat, 0, []⟩
  | .date millis => ⟨0, millis.toInt, []⟩
  | .timestamp t => ⟨0, t.toNat, []⟩
  | .regex r => ⟨0, 0, r.pattern ++ 0 :: r.options⟩
  | _ => ⟨0, 0, []⟩

variable {v : Value} {p : NumericParts} {a b : Value}

section

variable (number : numericParts v = some p)
include number

theorem scalarKey_number : scalarKey v = p.key := by
  cases v <;> simp [numericParts] at number <;> subst number <;> rfl

theorem detectDataType_number : detectDataType v = if p = .nan then .nan else .numbers := by
  cases v with
  | double f =>
    simp only [numericParts, Option.some.injEq] at number
    subst number
    cases nan : f.isNaN with
    | true => simp [detectDataType, nan, floatParts_nan nan]
    | false => simp [detectDataType, nan, floatParts_ne_nan nan]
  | decimal128 d =>
    simp only [numericParts, Option.some.injEq] at number
    subst number
    simp [detectDataType, decimalIsNaN]
  | int32 n
  | int64 n =>
    simp only [numericParts, Option.some.injEq] at number
    subst number
    rfl
  | _ => simp [numericParts] at number

theorem isScalar_number : isScalar v = true := by
  cases v <;> first | rfl | simp [numericParts] at number

end

theorem NumericParts.cmp_typed (p q : NumericParts) :
    p.cmp q = (compare (if p = .nan then DataType.nan else .numbers).rank
      (if q = .nan then DataType.nan else .numbers).rank).then (p.cmp q) := by
  cases p <;> cases q <;> rfl

theorem compare_uint8 (a b : UInt8) : compare a b = compare (a.toNat : ℚ) (b.toNat : ℚ) :=
  compare_embed (fun n : UInt8 => (n.toNat : ℚ)) (fun _ _ less => by exact_mod_cast UInt8.lt_iff_toNat_lt.mp less) a b

theorem compare_uint64 (a b : UInt64) : compare a b = compare (a.toNat : ℚ) (b.toNat : ℚ) :=
  compare_embed (fun n : UInt64 => (n.toNat : ℚ))
    (fun _ _ less => by exact_mod_cast UInt64.lt_iff_toNat_lt.mp less) a b

theorem rank_injective {s t : DataType} (same : s.rank = t.rank) : s = t := by
  cases s <;> cases t <;> first | rfl | simp [DataType.rank] at same

theorem compareTypeOrder_eq_iff : compareTypeOrder a b = .eq ↔ detectDataType a = detectDataType b := by
  rw [compareTypeOrder, Std.compare_eq_iff_eq]
  exact ⟨rank_injective, congrArg _⟩

theorem numericParts_isSome_iff : (numericParts v).isSome ↔ detectDataType v = .nan ∨
    detectDataType v = .numbers := by
  cases v <;> simp [numericParts, detectDataType]

private theorem compareScalars_apart (slow : compareNumeric a b = none)
    (different : compareTypeOrder a b ≠ .eq) : compareScalars a b = compareTypeOrder a b := by
  unfold compareScalars
  rw [slow]
  dsimp only
  split
  · -- two values of one constructor have one type order
    split
    all_goals first | rfl | exact absurd (compareTypeOrder_eq_iff.mpr rfl) different
  · rfl

private theorem compareScalars_same (left : isScalar a) (right : isScalar b)
    (slow : compareNumeric a b = none) (other : numericParts a = none) (same : detectDataType a = detectDataType b) :
    compareScalars a b = (scalarKey a).cmp (scalarKey b) := by
  have other' : numericParts b = none := by
    rw [← Option.not_isSome_iff_eq_none, numericParts_isSome_iff] at other ⊢
    rwa [← same]
  unfold compareScalars
  rw [left, right, slow]
  cases a <;> try (simp [numericParts] at other; done)
  all_goals
    cases b <;> first | (simp [numericParts] at other'; done) | (simp [detectDataType] at same; done) | skip
  case document => simp [isScalar] at left
  case array => simp [isScalar] at left
  case binary => simp [ScalarKey.cmp, scalarKey, compare_uint8]
  case bool x y => cases x <;> cases y <;> rfl
  case date => simp [ScalarKey.cmp, scalarKey, compare_int64]
  case timestamp => simp [ScalarKey.cmp, scalarKey, compare_uint64]
  all_goals simp [ScalarKey.cmp, scalarKey]

theorem compareScalars_number {q : NumericParts} (left : numericParts a = some p)
    (right : numericParts b = some q) : compareScalars a b = p.cmp q := by
  unfold compareScalars
  rw [isScalar_number left, isScalar_number right, compareNumeric_eq left right]
  rfl

theorem compareScalars_eq (left : isScalar a) (right : isScalar b) :
    compareScalars a b = (compareTypeOrder a b).then ((scalarKey a).cmp (scalarKey b)) := by
  cases first : numericParts a with
  | some p =>
    cases second : numericParts b with
    | some q =>
      rw [compareScalars_number first second, scalarKey_number first, scalarKey_number second,
        NumericParts.key_cmp, compareTypeOrder, detectDataType_number first,
        detectDataType_number second, ← NumericParts.cmp_typed]
    | none =>
      have different : compareTypeOrder a b ≠ .eq := by
        rw [ne_eq, compareTypeOrder_eq_iff]
        intro same
        have number := numericParts_isSome_iff.mp (by rw [first]; rfl)
        rw [same, ← numericParts_isSome_iff, second] at number
        simp at number
      rw [compareScalars_apart (compareNumeric_none (.inr second)) different]
      cases order : compareTypeOrder a b <;> simp_all
  | none =>
    have slow : compareNumeric a b = none := compareNumeric_none (.inl first)
    by_cases same : compareTypeOrder a b = .eq
    · rw [same, compareScalars_same left right slow first (compareTypeOrder_eq_iff.mp same)]
      rfl
    · rw [compareScalars_apart slow same]
      cases order : compareTypeOrder a b <;> simp_all

end DumboDB.Types
