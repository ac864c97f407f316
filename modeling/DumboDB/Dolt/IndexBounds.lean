import DumboDB.Handler.Reached
import DumboDB.Index.BoundOrder

/-!
The byte ranges a condition on one field is scanned with, and which operand decides each end.
-/

namespace DumboDB.Dolt
open Foundation ByteOrder Binary64 DumboDB.Types Index Handler List

/-- Null, arrays, documents, regular expressions and decimals have no bounds. -/
def refusedOperand : Value → Bool
  | .null => true
  | .array _ => true
  | .document _ => true
  | .regex _ => true
  | .decimal128 _ => true
  | _ => false

def isNaNValue : Value → Bool
  | .double f => f.isNaN
  | _ => false

def hasKey (d : Document) (key : Bytes) : Bool := (d.get key).isSome

/-- On a field with arrays each operator may be met by another element, so only the lower side
of a two-sided range is scanned. -/
def multikeyScanBound (v : Value) : Value :=
  match v with
  | .document expr =>
    if hasKey expr opEq || !(hasKey expr opGt || hasKey expr opGte) || !(hasKey expr opLt || hasKey expr opLte) then v
    else
      .document ((expr.filter fun condition => condition.1 == opGt || condition.1 == opGte).map fun condition =>
        (condition.1, (Document.get expr condition.1).getD .null))
  | v => v

/-- The tightest operand of each side seen so far, with its inclusiveness, and that of `$eq`. -/
structure Bounds where
  lower : Option (Value × Bool)
  upper : Option (Value × Bool)
  eq : Option Value

/-- `$gte` replaces a smaller lower bound, `$gt` one that is not greater. -/
def raiseLower (current : Option (Value × Bool)) (v : Value) (inclusive : Bool) : Option (Value × Bool) :=
  match current with
  | none => some (v, inclusive)
  | some (l, i) =>
    if (if inclusive then Compare v l == .gt else Compare v l != .lt) then some (v, inclusive)
    else some (l, i)

/-- `$lte` replaces a greater upper bound, `$lt` one that is not smaller. -/
def reduceUpper (current : Option (Value × Bool)) (v : Value) (inclusive : Bool) : Option (Value × Bool) :=
  match current with
  | none => some (v, inclusive)
  | some (u, i) =>
    if (if inclusive then Compare v u == .lt else Compare v u != .gt) then some (v, inclusive)
    else some (u, i)

def addCondition (b : Bounds) (op : Bytes) (v : Value) : Option Bounds :=
  if op = opEq then some { b with eq := some v }
  else if op = opGte then some { b with lower := raiseLower b.lower v true }
  else if op = opGt then some { b with lower := raiseLower b.lower v false }
  else if op = opLte then some { b with upper := reduceUpper b.upper v true }
  else if op = opLt then some { b with upper := reduceUpper b.upper v false }
  else none

def collectBounds (expr : Document) : List (Bytes × Value) → Bounds → Option Bounds
  | [], b => some b
  | (op, _) :: rest, b =>
    let v := (expr.get op).getD .null
    if refusedOperand v then none
    else if isNaNValue v && op != opEq then none
    else (addCondition b op v).bind (collectBounds expr rest)

section
variable [Platform]

def indexPointRangesForIn (v : Value) : Option (List (Bytes × Bytes)) :=
  match v with
  | .document [(op, .array values)] =>
    if op = opIn then
      if values.any refusedOperand then none
      else some (values.map fun value => (LowerBoundInclusive value, UpperBoundInclusive value))
    else none
  | _ => none

def startKey (bound : Value × Bool) : Bytes :=
  if bound.2 then LowerBoundInclusive bound.1 else LowerBoundExclusive bound.1

def stopKey (bound : Value × Bool) : Bytes :=
  if bound.2 then UpperBoundInclusive bound.1 else UpperBoundExclusive bound.1

/-- The range of the collected bounds. A missing side is clamped to the type's bracket; two sides
of different brackets have no range. -/
def boundKeys (b : Bounds) : Option (Bytes × Bytes) :=
  match b.eq, b.lower, b.upper with
  | some v, _, _ => some (LowerBoundInclusive v, UpperBoundInclusive v)
  | none, none, none => none
  | none, some l, none => (BracketRange l.1).map fun bracket => (startKey l, bracket.2)
  | none, none, some u => (BracketRange u.1).map fun bracket => (bracket.1, stopKey u)
  | none, some l, some u =>
    match BracketRange l.1, BracketRange u.1 with
    | some lower, some upper =>
      if lower.1.head? = upper.1.head? then some (startKey l, stopKey u) else none
    | _, _ => none

def indexBoundsForFilterValue (v : Value) : Option (Bytes × Bytes) :=
  match v with
  | .document expr => (collectBounds expr expr ⟨none, none, none⟩).bind boundKeys
  | v => if refusedOperand v then none else some (LowerBoundInclusive v, UpperBoundInclusive v)

/-- The ranges of a condition on the field of an index on one field. -/
def conditionRanges (multikey : Bool) (v : Value) : Option (List (Bytes × Bytes)) :=
  match indexPointRangesForIn v with
  | some ranges => some ranges
  | none => (indexBoundsForFilterValue (if multikey then multikeyScanBound v else v)).map fun range => [range]

end

/-! Which operands decide the range. -/

/-- The greater of two lower operands, the exclusive one of equals. -/
def greaterLower (gt gte : Option Value) : Option (Value × Bool) :=
  match gt, gte with
  | none, none => none
  | some g, none => some (g, false)
  | none, some e => some (e, true)
  | some g, some e => if Compare e g = .gt then some (e, true) else some (g, false)

/-- The smaller of two upper operands, the exclusive one of equals. -/
def smallerUpper (lt lte : Option Value) : Option (Value × Bool) :=
  match lt, lte with
  | none, none => none
  | some l, none => some (l, false)
  | none, some e => some (e, true)
  | some l, some e => if Compare e l = .lt then some (e, true) else some (l, false)

def lowerBound (expr : Document) : Option (Value × Bool) :=
  greaterLower (expr.get opGt) (expr.get opGte)

def upperBound (expr : Document) : Option (Value × Bool) :=
  smallerUpper (expr.get opLt) (expr.get opLte)

variable {v : Value} {gt gte : Option Value} {lt lte : Option Value}
  {expr : Document} {visited : List Bytes} {op : Bytes} {b : Bounds}

theorem isScalar_of_not_refused (accepted : refusedOperand v = false) : isScalar v = true := by
  cases v <;> first | rfl | simp [refusedOperand] at accepted

theorem Compare_swap_scalars {a b : Value} (left : isScalar a = true) (right : isScalar b = true) :
    Compare a b = (Compare b a).swap := by
  rw [Compare_of_isScalar left, Compare_of_isScalar right, compareScalars_eq left right, compareScalars_eq right left]
  exact then_swap (compareTypeOrder_swap a b) fun _ => ScalarKey.cmp_swap _ _

theorem Compare_self (v : Value) : Compare v v = .eq :=
  (CompareOrder_eq_iff.mp (Std.ReflCmp.compare_self : CompareOrder v v = .eq)).2

theorem raiseLower_gt (scalar : isScalar v = true)
    (scalars : ∀ e, gte = some e → isScalar e = true) (repeated : gt = none ∨ gt = some v) :
    raiseLower (greaterLower gt gte) v false = greaterLower (some v) gte := by
  have self := Compare_self v
  cases gte with
  | none => rcases repeated with rfl | rfl <;> simp [raiseLower, greaterLower, self]
  | some e =>
    have swap := Compare_swap_scalars scalar (scalars e rfl)
    rcases repeated with rfl | rfl <;> cases order : Compare e v <;>
      simp [raiseLower, greaterLower, swap, order, self]

theorem raiseLower_gte (repeated : gte = none ∨ gte = some v) :
    raiseLower (greaterLower gt gte) v true = greaterLower gt (some v) := by
  have self := Compare_self v
  cases gt with
  | none => rcases repeated with rfl | rfl <;> simp [raiseLower, greaterLower, self]
  | some g =>
    rcases repeated with rfl | rfl <;> cases order : Compare v g <;>
      simp [raiseLower, greaterLower, order, self]

theorem reduceUpper_lt (scalar : isScalar v = true)
    (scalars : ∀ e, lte = some e → isScalar e = true) (repeated : lt = none ∨ lt = some v) :
    reduceUpper (smallerUpper lt lte) v false = smallerUpper (some v) lte := by
  have self := Compare_self v
  cases lte with
  | none => rcases repeated with rfl | rfl <;> simp [reduceUpper, smallerUpper, self]
  | some e =>
    have swap := Compare_swap_scalars scalar (scalars e rfl)
    rcases repeated with rfl | rfl <;> cases order : Compare e v <;>
      simp [reduceUpper, smallerUpper, swap, order, self]

theorem reduceUpper_lte (repeated : lte = none ∨ lte = some v) :
    reduceUpper (smallerUpper lt lte) v true = smallerUpper lt (some v) := by
  have self := Compare_self v
  cases lt with
  | none => rcases repeated with rfl | rfl <;> simp [reduceUpper, smallerUpper, self]
  | some l =>
    rcases repeated with rfl | rfl <;> cases order : Compare v l <;>
      simp [reduceUpper, smallerUpper, order, self]

/-- The operand of an operator among the keys already visited. -/
def operandSeen (expr : Document) (visited : List Bytes) (op : Bytes) : Option Value :=
  if op ∈ visited then expr.get op else none

/-- The state of the loop after some keys, each a comparison with an operand that has bounds. -/
structure Collected (expr : Document) (visited : List Bytes) (b : Bounds) : Prop where
  lower : b.lower = greaterLower (operandSeen expr visited opGt) (operandSeen expr visited opGte)
  upper : b.upper = smallerUpper (operandSeen expr visited opLt) (operandSeen expr visited opLte)
  eq : b.eq = operandSeen expr visited opEq
  comparison : ∀ op ∈ visited, isComparison op = true
  accepted : ∀ op ∈ visited, ∀ v, expr.get op = some v → refusedOperand v = false ∧ (isNaNValue v = true → op = opEq)

theorem operandSeen_cons_self (expr : Document) (visited : List Bytes) (op : Bytes) :
    operandSeen expr (op :: visited) op = expr.get op := by
  simp [operandSeen]

theorem operandSeen_cons_ne {other : Bytes} (apart : other ≠ op) :
    operandSeen expr (op :: visited) other = operandSeen expr visited other := by
  simp [operandSeen, apart]

theorem operandSeen_repeated (held : expr.get op = some v)
    (visited : List Bytes) : operandSeen expr visited op = none ∨ operandSeen expr visited op = some v := by
  unfold operandSeen
  split
  · exact .inr held
  · exact .inl rfl

theorem Collected.isScalar (collected : Collected expr visited b) (held : operandSeen expr visited op = some v) :
    isScalar v = true := by
  unfold operandSeen at held
  split at held
  next member =>
    exact isScalar_of_not_refused (collected.accepted op member v held).1
  · simp at held

theorem Collected.step {b' : Bounds} (collected : Collected expr visited b) (held : expr.get op = some v)
    (accepted : refusedOperand v = false) (number : isNaNValue v = true → op = opEq)
    (added : addCondition b op v = some b') : Collected expr (op :: visited) b' := by
  have scalar := isScalar_of_not_refused accepted
  have operands (comparison : isComparison op = true) :
      (∀ o ∈ op :: visited, isComparison o = true) ∧ ∀ o ∈ op :: visited, ∀ w, expr.get o = some w →
        refusedOperand w = false ∧ (isNaNValue w = true → o = opEq) := by
    constructor
    · exact forall_mem_cons.mpr ⟨comparison, collected.comparison⟩
    · refine forall_mem_cons.mpr ⟨fun w same => ?_, collected.accepted⟩
      obtain rfl := Option.some.inj (held.symm.trans same)
      exact ⟨accepted, number⟩
  have repeated := operandSeen_repeated held visited
  have scalars {o : Bytes} : ∀ e, operandSeen expr visited o = some e → Types.isScalar e = true :=
    fun e seen => collected.isScalar seen
  -- The operator changes one of the three parts; the operands of the others were seen before it.
  have lower (gt : opGt ≠ op) (gte : opGte ≠ op) :=
    (operandSeen_cons_ne gt) ▸ (operandSeen_cons_ne gte) ▸ collected.lower
  have upper (lt : opLt ≠ op) (lte : opLte ≠ op) :=
    (operandSeen_cons_ne lt) ▸ (operandSeen_cons_ne lte) ▸ collected.upper
  have eq (apart : opEq ≠ op) := (operandSeen_cons_ne apart) ▸ collected.eq
  unfold addCondition at added
  split at added
  next same =>
    cases same
    cases added
    refine ⟨lower (by decide) (by decide), upper (by decide) (by decide), ?_, (operands rfl).1, (operands rfl).2⟩
    rw [operandSeen_cons_self, held]
  split at added
  next same =>
    cases same
    cases added
    refine ⟨?_, upper (by decide) (by decide), eq (by decide), (operands rfl).1, (operands rfl).2⟩
    rw [operandSeen_cons_ne (by decide), operandSeen_cons_self, held, collected.lower]
    exact raiseLower_gte repeated
  split at added
  next same =>
    cases same
    cases added
    refine ⟨?_, upper (by decide) (by decide), eq (by decide), (operands rfl).1, (operands rfl).2⟩
    rw [operandSeen_cons_self, operandSeen_cons_ne (by decide), held, collected.lower]
    exact raiseLower_gt scalar scalars repeated
  split at added
  next same =>
    cases same
    cases added
    refine ⟨lower (by decide) (by decide), ?_, eq (by decide), (operands rfl).1, (operands rfl).2⟩
    rw [operandSeen_cons_ne (by decide), operandSeen_cons_self, held, collected.upper]
    exact reduceUpper_lte repeated
  split at added
  next same =>
    cases same
    cases added
    refine ⟨lower (by decide) (by decide), ?_, eq (by decide), (operands rfl).1, (operands rfl).2⟩
    rw [operandSeen_cons_self, operandSeen_cons_ne (by decide), held, collected.upper]
    exact reduceUpper_lt scalar scalars repeated
  · simp at added

theorem get_of_mem (member : (op, v) ∈ expr) : ∃ w, expr.get op = some w := by
  induction expr with
  | nil => exact absurd member not_mem_nil
  | cons field expr ih =>
    obtain ⟨key, x⟩ := field
    rw [get_cons]
    by_cases same : key = op
    · exact ⟨x, if_pos same⟩
    · rw [if_neg same]
      rcases mem_cons.mp member with here | later
      · exact absurd (Prod.mk.inj here).1.symm same
      · exact ih later

theorem collectBounds_run {rest : Document} {b' : Bounds}
    (inside : ∀ condition ∈ rest, condition ∈ expr) (collected : Collected expr visited b)
    (found : collectBounds expr rest b = some b') :
    ∃ all, Collected expr all b' ∧ (∀ op ∈ visited, op ∈ all) ∧ ∀ condition ∈ rest, condition.1 ∈ all := by
  induction rest generalizing visited b with
  | nil =>
    cases found
    exact ⟨visited, collected, fun _ member => member, by simp⟩
  | cons condition rest ih =>
    rw [forall_mem_cons] at inside
    obtain ⟨v, held⟩ := get_of_mem inside.1
    unfold collectBounds at found
    rw [held, Option.getD_some] at found
    dsimp only at found
    split at found
    · simp at found
    next accepted =>
      split at found
      · simp at found
      next number =>
        obtain ⟨next, added, found⟩ := Option.bind_eq_some_iff.mp found
        have step := collected.step held (by simpa using accepted) (by simpa using number) added
        obtain ⟨all, last, visited, later⟩ := ih inside.2 step found
        rw [forall_mem_cons] at visited
        exact ⟨all, last, visited.2, forall_mem_cons.mpr ⟨visited.1, later⟩⟩

structure Collects (expr : Document) (b : Bounds) : Prop where
  lower : b.lower = lowerBound expr
  upper : b.upper = upperBound expr
  eq : b.eq = expr.get opEq
  comparison : ∀ condition ∈ expr, isComparison condition.1 = true
  accepted : ∀ op v, expr.get op = some v → refusedOperand v = false ∧ (isNaNValue v = true → op = opEq)

theorem collectBounds_spec (found : collectBounds expr expr ⟨none, none, none⟩ = some b) : Collects expr b := by
  have start : Collected expr [] ⟨none, none, none⟩ := ⟨rfl, rfl, rfl, by simp, by simp⟩
  obtain ⟨all, last, -, visited⟩ := collectBounds_run (fun _ member => member) start found
  have complete (op : Bytes) : operandSeen expr all op = expr.get op := by
    unfold operandSeen
    split
    · rfl
    next missed =>
      cases held : expr.get op with
      | none => rfl
      | some v => exact absurd (visited _ (mem_of_get held)) missed
  refine ⟨?_, ?_, ?_, fun condition member => last.comparison _ (visited _ member), fun op v held => ?_⟩
  · rw [last.lower, complete, complete, lowerBound]
  · rw [last.upper, complete, complete, upperBound]
  · rw [last.eq, complete]
  · exact last.accepted op (visited _ (mem_of_get held)) v held

variable {b : Value × Bool} {s t : DataType}

theorem lowerBound_mem (bound : lowerBound expr = some b) : expr.get (if b.2 then opGte else opGt) = some b.1 := by
  unfold lowerBound greaterLower at bound
  split at bound
  · simp at bound
  · cases bound; assumption
  · cases bound; assumption
  · split at bound <;> (cases bound; assumption)

theorem upperBound_mem (bound : upperBound expr = some b) : expr.get (if b.2 then opLte else opLt) = some b.1 := by
  unfold upperBound smallerUpper at bound
  split at bound
  · simp at bound
  · cases bound; assumption
  · cases bound; assumption
  · split at bound <;> (cases bound; assumption)

theorem lowerBound_none (gt : expr.get opGt = none) (gte : expr.get opGte = none) : lowerBound expr = none := by
  rw [lowerBound, gt, gte]
  rfl

theorem upperBound_none (lt : expr.get opLt = none) (lte : expr.get opLte = none) : upperBound expr = none := by
  rw [upperBound, lt, lte]
  rfl

theorem multikeyScanBound_spec (expr : Document) : ∃ scanned, multikeyScanBound (.document expr) = .document scanned ∧
      (∀ op v, Document.get scanned op = some v → Document.get expr op = some v) ∧
      (Document.get scanned opEq = none → lowerBound scanned = none ∨ upperBound scanned = none) := by
  unfold multikeyScanBound
  dsimp only
  split
  next kept =>
    refine ⟨expr, rfl, fun _ _ => id, fun noEq => ?_⟩
    simp only [hasKey, noEq, Bool.or_eq_true, Bool.not_eq_true', Bool.or_eq_false_iff, Option.isSome_none,
      Bool.false_eq_true, false_or, Option.isSome_eq_false_iff, Option.isNone_iff_eq_none] at kept
    rcases kept with none | none
    · exact .inl (lowerBound_none none.1 none.2)
    · exact .inr (upperBound_none none.1 none.2)
  · set scanned := (expr.filter fun condition => condition.1 == opGt || condition.1 == opGte).map fun condition =>
      (condition.1, (expr.get condition.1).getD .null) with written
    have inside (op : Bytes) (v : Value) (held : Document.get scanned op = some v) :
        expr.get op = some v ∧ (op = opGt ∨ op = opGte) := by
      have member := mem_of_get held
      rw [written, mem_map] at member
      obtain ⟨⟨_, _⟩, member, same⟩ := member
      obtain ⟨rfl, rfl⟩ := Prod.mk.inj same
      obtain ⟨member, kind⟩ := mem_filter.mp member
      obtain ⟨w, found⟩ := get_of_mem member
      exact ⟨by simp [found], by simpa using kind⟩
    have absent (op : Bytes) (other : ¬ (op = opGt ∨ op = opGte)) : Document.get scanned op = none := by
      cases held : Document.get scanned op with
      | none => rfl
      | some v => exact absurd (inside op v held).2 other
    refine ⟨scanned, rfl, fun op v held => (inside op v held).1, fun _ => ?_⟩
    exact .inr (upperBound_none (absent opLt (by decide)) (absent opLte (by decide)))

/-! Which keys fall between the bounds. -/

def lowerOp (inclusive : Bool) : RangeOp := if inclusive then .gte else .gt

def upperOp (inclusive : Bool) : RangeOp := if inclusive then .lte else .lt

theorem head_le_of_compare {x y : UInt8} {s t : Bytes} (order : compare (x :: s) (y :: t) ≠ .gt) :
    x.toNat ≤ y.toNat := by
  by_contra greater
  exact order (compare_gt_of_before (before_of_head (Nat.lt_of_not_le greater) t s))

theorem dataType_of_head {c : Nat} (left : (headBytes s).1 ≤ c ∧ c ≤ (headBytes s).2)
    (right : (headBytes t).1 ≤ c ∧ c ≤ (headBytes t).2 + 1) (number : t ≠ .nan) : s = t := by
  cases s <;> cases t <;> first | rfl | (exact absurd rfl number) | (simp only [headBytes] at left right; omega)

theorem headBytes_fst_injective (same : (headBytes s).1 = (headBytes t).1) : s = t := by
  cases s <;> cases t <;> first | rfl | simp [headBytes] at same

theorem BracketRange_spec {o : Value} (number : isNaNValue o = false) {start stop : Bytes}
    (bracket : BracketRange o = some (start, stop)) :
    detectDataType o ≠ .nan ∧ ∃ low high, start = [low] ∧ stop = [high] ∧
      low.toNat = (headBytes (detectDataType o)).1 ∧ high.toNat = (headBytes (detectDataType o)).2 + 1 := by
  cases o <;> simp only [BracketRange, Option.some.injEq, Prod.mk.injEq, reduceCtorEq] at bracket <;>
    obtain ⟨rfl, rfl⟩ := bracket
  case double f =>
    rw [isNaNValue] at number
    rw [detectDataType, number]
    exact ⟨by decide, _, _, rfl, rfl, rfl, rfl⟩
  all_goals exact ⟨by simp [detectDataType], _, _, rfl, rfl, rfl, rfl⟩

theorem compare_discriminator (id : Bytes) : compare (discriminator :: id) [discriminator] ≠ .lt := by
  cases id <;> simp [List.compare_cons_cons]

theorem compare_discriminator_next (id : Bytes) : compare (discriminator :: id) [discriminator + 1] = .lt :=
  (before_of_head (by decide) id []).compare_lt

section
variable [Platform] {x o : Value} {order : Ordering}

theorem BuildSecondaryKey_single (x : Value) (id : Bytes) :
    BuildSecondaryKey [x] id = EncodeValue x ++ discriminator :: id := by
  simp [BuildSecondaryKey]

section

variable (keyed : KeyOrder 0x3C 1 order (EncodeValue x) (EncodeValue o))
include keyed

theorem compare_entry_bound (id : Bytes) {last : UInt8} (bound : 1 ≤ last.toNat ∧ last.toNat < 0x3C) :
    compare (BuildSecondaryKey [x] id) (EncodeValue o ++ [last]) =
      order.then (compare (discriminator :: id) [last]) := by
  rw [BuildSecondaryKey_single]
  exact keyed.compare_append (by decide) bound id []

theorem startKey_le_iff (inclusive : Bool)
    (id : Bytes) : compare (startKey (o, inclusive)) (BuildSecondaryKey [x] id) ≠ .gt ↔
      (lowerOp inclusive).accepts order = true := by
  rw [ne_eq, Std.OrientedCmp.gt_iff_lt]
  cases inclusive with
  | true =>
    have same := compare_discriminator id
    rw [startKey, if_pos rfl, LowerBoundInclusive, compare_entry_bound keyed id (by decide)]
    generalize compare (discriminator :: id) [discriminator] = rest at same ⊢
    cases order <;> simp [lowerOp, RangeOp.accepts, same]
  | false =>
    rw [startKey, if_neg Bool.false_ne_true, LowerBoundExclusive, compare_entry_bound keyed id (by decide),
      compare_discriminator_next]
    cases order <;> simp [lowerOp, RangeOp.accepts]

theorem lt_stopKey_iff (inclusive : Bool)
    (id : Bytes) : compare (BuildSecondaryKey [x] id) (stopKey (o, inclusive)) = .lt ↔
      (upperOp inclusive).accepts order = true := by
  cases inclusive with
  | true =>
    rw [stopKey, if_pos rfl, UpperBoundInclusive, compare_entry_bound keyed id (by decide),
      compare_discriminator_next]
    cases order <;> simp [upperOp, RangeOp.accepts]
  | false =>
    have same := compare_discriminator id
    rw [stopKey, if_neg Bool.false_ne_true, UpperBoundExclusive, compare_entry_bound keyed id (by decide)]
    generalize compare (discriminator :: id) [discriminator] = rest at same ⊢
    cases order <;> simp [upperOp, RangeOp.accepts, same]

end

theorem inRange_point (keyed : EncodeValue x = EncodeValue o) (id : Bytes) :
    InRange (LowerBoundInclusive o) (UpperBoundInclusive o) (BuildSecondaryKey [x] id) := by
  have same : KeyOrder 0x3C 1 .eq (EncodeValue x) (EncodeValue o) := keyed
  exact ⟨(startKey_le_iff same true id).mpr rfl, .inr ((lt_stopKey_iff same true id).mpr rfl)⟩

/-- The bytes of a range all belong to one data type, that of its operands. -/
structure RangeOfType (type : DataType) (start stop : Bytes) : Prop where
  number : type ≠ .nan
  start : ∃ c rest, start = c :: rest ∧ (headBytes type).1 ≤ c.toNat
  stop : ∃ c rest, stop = c :: rest ∧ c.toNat ≤ (headBytes type).2 + 1

variable {start stop : Bytes}

theorem RangeOfType.dataType {type : DataType} (range : RangeOfType type start stop)
    (faithful : EncodeValueLossy x = false) {id : Bytes}
    (inside : InRange start stop (BuildSecondaryKey [x] id)) : detectDataType x = type := by
  obtain ⟨c, _, key, low, high⟩ := EncodeValue_startsWith faithful
  obtain ⟨_, _, rfl, _⟩ := range.start
  obtain ⟨last, _, rfl, _⟩ := range.stop
  rw [BuildSecondaryKey_single, key] at inside
  have lower := head_le_of_compare inside.1
  have less := inside.2.resolve_left (cons_ne_nil _ _)
  have upper : c.toNat ≤ last.toNat := head_le_of_compare (by rw [cons_append] at less; rw [less]; decide)
  exact dataType_of_head ⟨low, high⟩ ⟨by omega, by omega⟩ range.number

theorem bound_startsWith (o : Value) (accepted : refusedOperand o = false) (last : Bytes) :
    StartsWith (detectDataType o) (EncodeValue o ++ last) := by
  have faithful : EncodeValueLossy o = false := by
    cases o <;> first | rfl | simp [refusedOperand] at accepted
  obtain ⟨c, rest, key, low, high⟩ := EncodeValue_startsWith faithful
  exact ⟨c, rest ++ last, by rw [key, cons_append], low, high⟩

theorem startKey_startsWith (b : Value × Bool) (accepted : refusedOperand b.1 = false) :
    StartsWith (detectDataType b.1) (startKey b) := by
  unfold startKey
  split
  · exact bound_startsWith b.1 accepted _
  · exact bound_startsWith b.1 accepted _

theorem stopKey_startsWith (b : Value × Bool) (accepted : refusedOperand b.1 = false) :
    StartsWith (detectDataType b.1) (stopKey b) := by
  unfold stopKey
  split
  · exact bound_startsWith b.1 accepted _
  · exact bound_startsWith b.1 accepted _

theorem bracket_contains (number : isNaNValue o = false)
    (bracket : BracketRange o = some (start, stop)) (faithful : EncodeValueLossy x = false)
    (same : detectDataType x = detectDataType o) (id : Bytes) :
    compare start (BuildSecondaryKey [x] id) ≠ .gt ∧ compare (BuildSecondaryKey [x] id) stop = .lt := by
  obtain ⟨-, _, _, rfl, rfl, lowest, _⟩ := BracketRange_spec number bracket
  obtain ⟨c, rest, key, above, below⟩ := EncodeValue_startsWith faithful
  rw [BuildSecondaryKey_single, key, cons_append]
  rw [same] at above below
  constructor
  · rcases Nat.lt_or_eq_of_le (lowest.trans_le above) with less | equal
    · rw [(before_of_head less _ _).compare_lt]
      decide
    · rw [UInt8.toNat_inj.mp equal]
      generalize rest ++ discriminator :: id = tail
      cases tail <;> simp [List.compare_cons_cons]
  · exact (before_of_head (by omega) _ _).compare_lt

theorem boundKeys_two {l u : Value × Bool}
    (found : boundKeys ⟨some l, some u, none⟩ = some (start, stop)) (left : isNaNValue l.1 = false)
    (right : isNaNValue u.1 = false) :
    (detectDataType l.1 ≠ .nan ∧ detectDataType l.1 = detectDataType u.1) ∧ startKey l = start ∧
      stopKey u = stop := by
  unfold boundKeys at found
  dsimp only at found
  split at found
  next _ _ lowerBracket upperBracket =>
    split at found
    next heads =>
      obtain ⟨real, _, _, first, -, lowest, -⟩ := BracketRange_spec left lowerBracket
      obtain ⟨-, _, _, first', -, lowest', -⟩ := BracketRange_spec right upperBracket
      rw [first, first', head?_cons, head?_cons, Option.some.injEq] at heads
      have type : detectDataType l.1 = detectDataType u.1 := by
        apply headBytes_fst_injective
        rw [← lowest, ← lowest', heads]
      have keys := Prod.mk.inj (Option.some.inj found)
      exact ⟨⟨real, type⟩, keys⟩
    · simp at found
  · simp at found

/-- The operands of a side that has one: with bounds, and no NaN. -/
def ValidSide (side : Option (Value × Bool)) : Prop :=
  ∀ b, side = some b → refusedOperand b.1 = false ∧ isNaNValue b.1 = false

/-- The entry of a value lies between the bounds when it is of their type and its key is on the
right side of each. -/
theorem boundKeys_iff {lower upper : Option (Value × Bool)}
    (found : boundKeys ⟨lower, upper, none⟩ = some (start, stop)) (validLower : ValidSide lower)
    (validUpper : ValidSide upper) (faithful : EncodeValueLossy x = false) {keyOf : Value → Ordering}
    (keyed : ∀ o, detectDataType x = detectDataType o → refusedOperand o = false →
      KeyOrder 0x3C 1 (keyOf o) (EncodeValue x) (EncodeValue o)) (id : Bytes) :
    InRange start stop (BuildSecondaryKey [x] id) ↔ (∀ b, lower = some b → detectDataType x = detectDataType b.1 ∧
        (lowerOp b.2).accepts (keyOf b.1) = true) ∧ (∀ b, upper = some b → detectDataType x = detectDataType b.1 ∧
        (upperOp b.2).accepts (keyOf b.1) = true) := by
  have filled (b : Value × Bool) : stopKey b ≠ [] := by
    unfold stopKey
    split <;> simp [UpperBoundInclusive, UpperBoundExclusive]
  cases lower with
  | none =>
    cases upper with
    | none => simp [boundKeys] at found
    | some u =>
      obtain ⟨accepted, number⟩ := validUpper u rfl
      obtain ⟨bracket, spec, made⟩ := Option.map_eq_some_iff.mp found
      obtain ⟨rfl, rfl⟩ := Prod.mk.inj made
      obtain ⟨c, rest, last, -, high⟩ := stopKey_startsWith u accepted
      obtain ⟨real, low, _, first, -, lowest, -⟩ := BracketRange_spec number spec
      have range : RangeOfType (detectDataType u.1) bracket.1 (stopKey u) :=
        ⟨real, ⟨low, [], first, lowest.ge⟩, ⟨c, rest, last, by omega⟩⟩
      simp only [reduceCtorEq, false_implies, implies_true, true_and, Option.some.injEq, forall_eq']
      constructor
      · intro inside
        have same := range.dataType faithful inside
        exact ⟨same, (lt_stopKey_iff (keyed u.1 same accepted) u.2 id).mp (inside.2.resolve_left (filled u))⟩
      · rintro ⟨same, below⟩
        exact ⟨(bracket_contains number spec faithful same id).1,
          .inr ((lt_stopKey_iff (keyed u.1 same accepted) u.2 id).mpr below)⟩
  | some l =>
    obtain ⟨accepted, number⟩ := validLower l rfl
    obtain ⟨c, rest, first, low, -⟩ := startKey_startsWith l accepted
    cases upper with
    | none =>
      obtain ⟨bracket, spec, made⟩ := Option.map_eq_some_iff.mp found
      obtain ⟨rfl, rfl⟩ := Prod.mk.inj made
      obtain ⟨real, _, high, -, last, -, highest⟩ := BracketRange_spec number spec
      have range : RangeOfType (detectDataType l.1) (startKey l) bracket.2 :=
        ⟨real, ⟨c, rest, first, low⟩, ⟨high, [], last, highest.le⟩⟩
      simp only [reduceCtorEq, false_implies, implies_true, and_true, Option.some.injEq, forall_eq']
      constructor
      · intro inside
        have same := range.dataType faithful inside
        exact ⟨same, (startKey_le_iff (keyed l.1 same accepted) l.2 id).mp inside.1⟩
      · rintro ⟨same, above⟩
        exact ⟨(startKey_le_iff (keyed l.1 same accepted) l.2 id).mpr above,
          .inr (bracket_contains number spec faithful same id).2⟩
    | some u =>
      obtain ⟨acceptedUpper, numberUpper⟩ := validUpper u rfl
      obtain ⟨alike, rfl, rfl⟩ := boundKeys_two found number numberUpper
      obtain ⟨c', rest', last, -, high⟩ := stopKey_startsWith u acceptedUpper
      have range : RangeOfType (detectDataType l.1) (startKey l) (stopKey u) :=
        ⟨alike.1, ⟨c, rest, first, low⟩, ⟨c', rest', last, by rw [alike.2]; omega⟩⟩
      simp only [Option.some.injEq, forall_eq']
      constructor
      · intro inside
        have same := range.dataType faithful inside
        exact ⟨⟨same, (startKey_le_iff (keyed l.1 same accepted) l.2 id).mp inside.1⟩,
          same.trans alike.2, (lt_stopKey_iff (keyed u.1 (same.trans alike.2) acceptedUpper) u.2 id).mp
            (inside.2.resolve_left (filled u))⟩
      · rintro ⟨⟨same, above⟩, sameUpper, below⟩
        exact ⟨(startKey_le_iff (keyed l.1 same accepted) l.2 id).mpr above,
          .inr ((lt_stopKey_iff (keyed u.1 sameUpper acceptedUpper) u.2 id).mpr below)⟩

end

end DumboDB.Dolt
