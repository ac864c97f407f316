import DumboDB.Dolt.MergeMode

/-!
Laws of the content equalities on values, and what equal documents hold at each key and at each
leaf.
-/

namespace DumboDB.Dolt
open Foundation ByteOrder Binary64 DumboDB.Types

variable {v w : Value}

theorem plainEq_eq (equal : plainEq v w = true) : w = v := by
  unfold plainEq at equal
  split at equal <;> simp_all

section
variable {floatEq : Float64 → Float64 → Bool}

theorem valueEq_double {f : Float64} (equal : valueEq floatEq (.double f) w = true) :
    ∃ g, w = .double g ∧ floatEq f g = true := by
  cases w <;> simp_all [valueEq]

theorem valueEq_document {d : Document} (equal : valueEq floatEq (.document d) w = true) :
    ∃ e, w = .document e ∧ fieldsEq floatEq d e = true := by
  cases w <;> simp_all [valueEq]

theorem valueEq_array {elems : List Value} (equal : valueEq floatEq (.array elems) w = true) :
    ∃ others, w = .array others ∧ elemsEq floatEq elems others = true := by
  cases w <;> simp_all [valueEq]

theorem fieldsEq_cons {key : Bytes} {rest others : List (Bytes × Value)}
    (equal : fieldsEq floatEq ((key, v) :: rest) others = true) :
    ∃ w tail, others = (key, w) :: tail ∧ valueEq floatEq v w = true ∧ fieldsEq floatEq rest tail = true := by
  cases others with
  | nil => simp [fieldsEq] at equal
  | cons first tail =>
    obtain ⟨_, w⟩ := first
    simp only [fieldsEq, Bool.and_eq_true, beq_iff_eq] at equal
    obtain ⟨⟨rfl, value⟩, fields⟩ := equal
    exact ⟨w, tail, rfl, value, fields⟩

theorem elemsEq_cons {rest others : List Value} (equal : elemsEq floatEq (v :: rest) others = true) :
    ∃ w tail, others = w :: tail ∧ valueEq floatEq v w = true ∧ elemsEq floatEq rest tail = true := by
  cases others with
  | nil => simp [elemsEq] at equal
  | cons w tail =>
    simp only [elemsEq, Bool.and_eq_true] at equal
    exact ⟨w, tail, rfl, equal⟩

theorem fieldsEq_nil {others : List (Bytes × Value)} (equal : fieldsEq floatEq [] others = true) : others = [] := by
  simpa [fieldsEq] using equal

theorem elemsEq_nil {others : List Value} (equal : elemsEq floatEq [] others = true) : others = [] := by
  simpa [elemsEq] using equal

theorem valueEq_plain (plain : plainEq v v = true) (equal : valueEq floatEq v w = true) : w = v := by
  apply plainEq_eq
  cases v <;> first | exact equal | cases plain

theorem valueEq_of_plain (plain : plainEq v v = true) : valueEq floatEq v v = true := by
  cases v <;> first | exact plain | cases plain

mutual

theorem valueEq_refl (refl : ∀ f, floatEq f f = true) : ∀ v : Value, valueEq floatEq v v = true
  | .double f => refl f
  | .document d => fieldsEq_refl refl d
  | .array elems => elemsEq_refl refl elems
  | .string _ | .binary _ | .undefined | .objectID _ | .bool _ | .date _ | .null | .regex _ | .int32 _
  | .timestamp _ | .int64 _ | .decimal128 _ | .minKey | .maxKey => valueEq_of_plain (by simp [plainEq])

theorem fieldsEq_refl (refl : ∀ f, floatEq f f = true) : ∀ d : List (Bytes × Value), fieldsEq floatEq d d = true
  | [] => rfl
  | (key, v) :: rest => by simp [fieldsEq, valueEq_refl refl v, fieldsEq_refl refl rest]

theorem elemsEq_refl (refl : ∀ f, floatEq f f = true) : ∀ d : List Value, elemsEq floatEq d d = true
  | [] => rfl
  | v :: rest => by simp [elemsEq, valueEq_refl refl v, elemsEq_refl refl rest]

end

mutual

/-- Two values that are equal to one are equal to each other, where doubles are. -/
theorem valueEq_euclid {p q r : Float64 → Float64 → Bool} (step : ∀ f g h, p f g = true → q f h = true →
    r g h = true) :
    ∀ (u v w : Value), valueEq p u v = true → valueEq q u w = true → valueEq r v w = true := by
  intro u v w first second
  cases u with
  | double f =>
    obtain ⟨g, rfl, left⟩ := valueEq_double first
    obtain ⟨h, rfl, right⟩ := valueEq_double second
    exact step f g h left right
  | document d =>
    obtain ⟨e, rfl, left⟩ := valueEq_document first
    obtain ⟨f, rfl, right⟩ := valueEq_document second
    exact fieldsEq_euclid step d e f left right
  | array d =>
    obtain ⟨e, rfl, left⟩ := valueEq_array first
    obtain ⟨f, rfl, right⟩ := valueEq_array second
    exact elemsEq_euclid step d e f left right
  | _ =>
    cases valueEq_plain (by simp [plainEq]) first
    exact second

theorem fieldsEq_euclid {p q r : Float64 → Float64 → Bool} (step : ∀ f g h, p f g = true →
    q f h = true → r g h = true) :
    ∀ (c d e : List (Bytes × Value)), fieldsEq p c d = true → fieldsEq q c e = true → fieldsEq r d e = true
  | [], d, e, first, second => by
    cases fieldsEq_nil first
    exact second
  | (key, u) :: rest, d, e, first, second => by
    obtain ⟨v, middle, rfl, left, fields⟩ := fieldsEq_cons first
    obtain ⟨w, tail, rfl, right, others⟩ := fieldsEq_cons second
    simp [fieldsEq, valueEq_euclid step u v w left right, fieldsEq_euclid step rest middle tail fields others]

theorem elemsEq_euclid {p q r : Float64 → Float64 → Bool} (step : ∀ f g h, p f g = true → q f h = true →
    r g h = true) :
    ∀ (c d e : List Value), elemsEq p c d = true → elemsEq q c e = true → elemsEq r d e = true
  | [], d, e, first, second => by
    cases elemsEq_nil first
    exact second
  | u :: rest, d, e, first, second => by
    obtain ⟨v, middle, rfl, left, elems⟩ := elemsEq_cons first
    obtain ⟨w, tail, rfl, right, others⟩ := elemsEq_cons second
    simp [elemsEq, valueEq_euclid step u v w left right, elemsEq_euclid step rest middle tail elems others]

end

end

/-! Stored values are compared by their bytes: doubles by their bits. -/

mutual

theorem eq_of_valueEq : ∀ {v w : Value}, valueEq (· == ·) v w = true → v = w := by
  intro v w same
  cases v with
  | double f =>
    obtain ⟨g, rfl, bits⟩ := valueEq_double same
    rw [beq_iff_eq.mp bits]
  | document d =>
    obtain ⟨e, rfl, fields⟩ := valueEq_document same
    rw [eq_of_fieldsEq fields]
  | array _ =>
    obtain ⟨_, rfl, each⟩ := valueEq_array same
    rw [eq_of_elemsEq each]
  | _ => exact (plainEq_eq same).symm

theorem eq_of_fieldsEq : ∀ {d e : List (Bytes × Value)}, fieldsEq (· == ·) d e = true → d = e
  | [], _, same => (fieldsEq_nil same).symm
  | (key, v) :: rest, e, same => by
    obtain ⟨w, _, rfl, value, fields⟩ := fieldsEq_cons same
    rw [eq_of_valueEq value, eq_of_fieldsEq fields]

theorem eq_of_elemsEq : ∀ {elems others : List Value}, elemsEq (· == ·) elems others = true → elems = others
  | [], _, same => (elemsEq_nil same).symm
  | v :: rest, others, same => by
    obtain ⟨w, others, rfl, value, each⟩ := elemsEq_cons same
    rw [eq_of_valueEq value, eq_of_elemsEq each]

end

instance : DecidableEq Value := fun v w =>
  decidable_of_iff (valueEq (· == ·) v w = true)
    ⟨eq_of_valueEq, fun same => same ▸ valueEq_refl (fun f => beq_self_eq_true f) v⟩

theorem Float64.eq_symm (f g : Float64) (same : f.eq g = true) : g.eq f = true := by
  simp only [Float64.eq, Bool.and_eq_true, decide_eq_true_eq] at same ⊢
  exact ⟨⟨same.1.2, same.1.1⟩, same.2.symm⟩

theorem Float64.eq_trans (f g h : Float64) (first : f.eq g = true) (second : g.eq h = true) : f.eq h = true := by
  simp only [Float64.eq, Bool.and_eq_true, decide_eq_true_eq] at first second ⊢
  exact ⟨⟨first.1.1, second.1.2⟩, first.2.trans second.2⟩

theorem DeepEqual_symm (same : DeepEqual v w = true) : DeepEqual w v = true :=
  valueEq_euclid (fun f g _ left right => beq_iff_eq.mp right ▸ Float64.eq_symm f g left) v w v same
    (valueEq_refl beq_self_eq_true v)

theorem DeepEqual_comm (v w : Value) : DeepEqual v w = DeepEqual w v :=
  Bool.eq_iff_iff.mpr ⟨DeepEqual_symm, DeepEqual_symm⟩

theorem DeepEqual_trans {u : Value} (first : DeepEqual u v = true) (second : DeepEqual v w = true) :
    DeepEqual u w = true :=
  valueEq_euclid (fun f g h left right => Float64.eq_trans g f h (Float64.eq_symm f g left) right) v u w
    (DeepEqual_symm first) second

@[simp] theorem SameContent_self (v : Value) : SameContent v v = true := valueEq_refl (fun f => by simp) v

theorem SameContent_of_DeepEqual (same : DeepEqual v w = true) : SameContent v w = true :=
  valueEq_euclid (fun f g h left right => by simp [← beq_iff_eq.mp left, right]) v v w
    (valueEq_refl beq_self_eq_true v) same

theorem sameField_symm {a b : Option Value} (same : sameField a b = true) : sameField b a = true := by
  cases a <;> cases b <;> first | exact DeepEqual_symm same | exact same

theorem sameField_comm (a b : Option Value) : sameField a b = sameField b a :=
  Bool.eq_iff_iff.mpr ⟨sameField_symm, sameField_symm⟩

theorem sameField_trans {a b c : Option Value} (first : sameField a b = true) (second : sameField b c = true) :
    sameField a c = true := by
  cases a with
  | none =>
    cases b with
    | none => exact second
    | some v => simp [sameField] at first
  | some u =>
    cases b with
    | none => simp [sameField] at first
    | some v =>
      cases c with
      | none => simp [sameField] at second
      | some w => exact DeepEqual_trans first second

/-! Equal documents hold equal fields. -/

theorem fieldsEqual_of_fieldsEq {d e : Document} (same : fieldsEq Float64.eq d e = true) (key : Bytes) :
    fieldsEqual d e key = true := by
  unfold fieldsEqual
  induction d generalizing e with
  | nil =>
    cases fieldsEq_nil same
    rfl
  | cons field d ih =>
    obtain ⟨k, v⟩ := field
    obtain ⟨w, _, rfl, value, fields⟩ := fieldsEq_cons same
    rw [get_cons, get_cons]
    split
    · exact value
    · exact ih fields

theorem fieldsEqual_of_DeepEqual {d e : Document} (same : DeepEqual (.document d) (.document e) = true)
    (key : Bytes) : fieldsEqual d e key = true := by
  obtain ⟨_, document, fields⟩ := valueEq_document same
  cases document
  exact fieldsEqual_of_fieldsEq fields key

/-! Leaves: the values that are no documents, by their paths. -/

def leafOf : List Bytes → Value → Option Value
  | [], v =>
    match v with
    | .document _ => none
    | v => some v
  | key :: rest, v =>
    match v with
    | .document d => (Document.get d key).bind (leafOf rest)
    | _ => none

def leafAt (d : Document) (path : List Bytes) : Option Value := leafOf path (.document d)

@[simp] theorem leafAt_cons (d : Document) (key : Bytes) (rest : List Bytes) :
    leafAt d (key :: rest) = (Document.get d key).bind (leafOf rest) := rfl

theorem sameField_leafOf (same : DeepEqual v w = true) (path : List Bytes) :
    sameField (leafOf path v) (leafOf path w) = true := by
  induction path generalizing v w with
  | nil =>
    cases v with
    | document d =>
      obtain ⟨e, rfl, -⟩ := valueEq_document same
      rfl
    | _ =>
      cases w with
      | document e => cases same
      | _ => exact same
  | cons key rest ih =>
    cases v with
    | document d =>
      obtain ⟨e, rfl, fields⟩ := valueEq_document same
      have held := fieldsEqual_of_fieldsEq fields key
      unfold fieldsEqual at held
      change sameField ((Document.get d key).bind (leafOf rest)) ((Document.get e key).bind (leafOf rest)) = true
      cases left : Document.get d key <;> cases right : Document.get e key <;> rw [left, right] at held
      · rfl
      · cases held
      · cases held
      · exact ih held
    | _ =>
      cases w with
      | document e => cases same
      | _ => rfl

theorem sameField_bind_leafOf {a b : Option Value} (same : sameField a b = true) (path : List Bytes) :
    sameField (a.bind (leafOf path)) (b.bind (leafOf path)) = true := by
  cases a <;> cases b
  · rfl
  · cases same
  · cases same
  · exact sameField_leafOf same path

end DumboDB.Dolt
