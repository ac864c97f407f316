import DumboDB.Handler.Update
import DumboDB.Types.TotalOrder

/-!
Updates that are called no change. Nothing of the document they leave is written, so it must be the
stored one, and what was asked for must be in it already.
-/

namespace DumboDB.Handler
open Foundation ByteOrder Binary64 DumboDB.Types Dolt Fallible List

/-! The comparison of queries and the stored form. -/

theorem eq_of_sortFields {a b : List (Bytes × Value)} (sameKeys : a.map Prod.fst = b.map Prod.fst)
    (same : sortFields a = sortFields b) : a = b := by
  let pairs := a.zip b
  rw [← List.forall₂_eq_eq_eq, List.forall₂_map_left_iff, List.forall₂_map_right_iff,
    List.forall₂_iff_zip] at sameKeys
  obtain ⟨_, keyed⟩ := sameKeys
  let order (x y : (Bytes × Value) × (Bytes × Value)) : Prop := keyLE x.1 y.1
  have left : pairs.map Prod.fst = a := map_fst_zip (by omega)
  have right : pairs.map Prod.snd = b := map_snd_zip (by omega)
  have sortLeft : (pairs.insertionSort order).map Prod.fst = sortFields a := by
    rw [map_insertionSort order keyLE Prod.fst pairs (fun _ _ _ _ => Iff.rfl), left, sortFields]
  have sortRight : (pairs.insertionSort order).map Prod.snd = sortFields b := by
    rw [map_insertionSort order keyLE Prod.snd pairs, right, sortFields]
    intro x hx y hy
    simp only [order, keyLE, keyed (a := x.1) hx, keyed (a := y.1) hy]
  rw [← sortLeft, ← sortRight, map_inj_left] at same
  rw [← left, ← right, map_inj_left]
  intro pair member
  exact same pair ((mem_insertionSort order).mpr member)

theorem keys_of_compareDocuments : ∀ {a b : List (Bytes × Value)}, compareDocuments a b = .eq →
    a.map Prod.fst = b.map Prod.fst
  | [], [], _ => rfl
  | [], _ :: _, same
  | _ :: _, [], same => by simp [compareDocuments] at same
  | (_, _) :: a, (_, _) :: b, same => by
    simp only [compareDocuments, Ordering.then_eq_eq] at same
    simp only [map_cons, List.cons.injEq]
    exact ⟨by simpa using same.2.1, keys_of_compareDocuments same.2.2.2⟩

theorem keys_canonicalFields (a : List (Bytes × Value)) : (canonicalFields a).map Prod.fst = a.map Prod.fst := by
  induction a with
  | nil => rfl
  | cons _ a ih => simp [canonicalFields, ih]

mutual

theorem eq_of_canonicalValue : ∀ {v w : Value}, Compare v w = .eq → canonicalValue v = canonicalValue w → v = w := by
  intro v w equal same
  cases v with
  | document a =>
    obtain ⟨b, rfl, stored⟩ := canonicalValue_document same
    rw [Compare] at equal
    have fields := eq_of_sortFields (by
      rw [keys_canonicalFields, keys_canonicalFields, keys_of_compareDocuments equal]) stored
    rw [eq_of_canonicalFields equal fields]
  | array _ =>
    cases w with
    | array _ =>
      rw [Compare] at equal
      rw [canonicalValue, canonicalValue, Value.array.injEq] at same
      rw [eq_of_canonicalElems equal same]
    | _ => simp [canonicalValue] at same
  | _ => cases w <;> simp_all [canonicalValue]

theorem eq_of_canonicalFields : ∀ {a b : List (Bytes × Value)}, compareDocuments a b = .eq →
    canonicalFields a = canonicalFields b → a = b
  | [], [], _, _ => rfl
  | [], _ :: _, equal, _
  | _ :: _, [], equal, _ => by simp [compareDocuments] at equal
  | (k, v) :: a, (_, w) :: b, equal, same => by
    simp only [compareDocuments, Ordering.then_eq_eq] at equal
    obtain ⟨-, -, values, rest⟩ := equal
    simp only [canonicalFields, List.cons.injEq, Prod.mk.injEq] at same
    obtain ⟨⟨rfl, stored⟩, others⟩ := same
    have value : v = w := by
      split at stored
      · exact stored
      · exact eq_of_canonicalValue values stored
    rw [value, eq_of_canonicalFields rest others]

theorem eq_of_canonicalElems : ∀ {as bs : List Value}, compareArrays as bs = .eq →
    canonicalElems as = canonicalElems bs → as = bs
  | [], [], _, _ => rfl
  | [], _ :: _, equal, _
  | _ :: _, [], equal, _ => by simp [compareArrays] at equal
  | v :: as, w :: bs, equal, same => by
    simp only [compareArrays, Ordering.then_eq_eq] at equal
    obtain ⟨⟨-, values⟩, rest⟩ := equal
    simp only [canonicalElems, List.cons.injEq] at same
    rw [eq_of_canonicalValue values same.1, eq_of_canonicalElems rest same.2]

end

/-- A comparison of whole documents that takes two different ones for equal: somewhere in them a
number of another type or form, or a regular expression split elsewhere. -/
def Coarse (d e : Document) : Prop := Compare (.document d) (.document e) = .eq ∧ d ≠ e

variable {d : Document} {e : Document} {left : Document} {path : List Bytes} {v : Value} {changed : Bool} {w : Value}
  {elems : List Value} {spec : PushSpec} {pushed : List Value × Bool} {docValue : Value} {key : Bytes} {value : Value}
  {updated : Document}

theorem canonical_ne_of_coarse (coarse : Coarse d e) : canonical e ≠ canonical d := by
  intro same
  have equal : Compare (.document d) (.document e) = .eq := coarse.1
  refine coarse.2 (Value.document.inj (eq_of_canonicalValue equal ?_))
  exact congrArg Value.document same.symm

/-! What an update that is called no change must have left. -/

/-- Called no change, the document left is stored as the given one is, and `asked` holds of it. -/
def Kept (d : Document) (asked : Document → Prop) (result : Updated) : Prop :=
  ∀ left, result = .ok (left, false) → canonical left = canonical d ∧ asked left

/-- The document a replacement or a pipeline asks for: its own fields, with the `_id` that was. -/
def askedFor (d update : Document) : Document :=
  match d.get idKey, update.get idKey with
  | some id, none => (idKey, id) :: update
  | _, _ => update

/-- The value of `$set` is under its path, in the form it is stored in. -/
def Holds (key : Bytes) (value : Value) (d : Document) : Prop :=
  ∀ path, pathOf key = .ok path → ∃ held, GetByPath d path = .ok held ∧ canonicalValue held = canonicalValue value

def asksFor (operator : UpdateOperator) (key : Bytes) (value : Value) (left : Document) : Prop :=
  operator = .set → Holds key value left

def ZeroFlipped (before after : Value) : Prop :=
  ∃ f g, before = .double f ∧ after = .double g ∧ f.eq g = true ∧ f ≠ g

/-- Nothing is under the path, and an array can be put there. -/
def Creatable (d : Document) (path : List Bytes) : Prop :=
  HasByPath d path = false ∧ ∃ after, SetByPath d path (.array []) = .ok after

section
variable [UpdateEnv]

/-- The operator changes the document, or drops what it was asked for, and calls it no change:
`$set` of a value that differs from the one there in keys or in the sign of a zero only, `$inc` and
`$mul` that turn a zero's sign, `$push` and `$addToSet` of nothing that leave a new empty array. -/
def Silent (operator : UpdateOperator) (d : Document) (key : Bytes) (value : Value) : Prop :=
  ∃ path, pathOf key = .ok path ∧ match operator with
    | .set => ∃ docValue, GetByPath d path = .ok docValue ∧ Identical value docValue = true ∧
        canonicalValue docValue ≠ canonicalValue value
    | .inc => isNumber value = true ∧ ∃ docValue sum, GetByPath d path = .ok docValue ∧
        addNumbers value docValue = .ok sum ∧ ZeroFlipped docValue sum
    | .mul => ∃ docValue product, GetByPath d path = .ok docValue ∧
        multiplyNumbers value docValue = .ok product ∧ ZeroFlipped docValue product
    | .push => Creatable d path ∧ ∃ spec, pushSpec value = .ok spec ∧ spec.each = [] ∧ spec.slice = none
    | .addToSet => Creatable d path ∧ ∃ each, eachOf value .typeMismatch = .ok each ∧
        ∀ elem ∈ each, arrayContains [] elem = true
    | _ => False

end

/-! One operator on one key. -/

theorem store_eq_ok {flag : Bool} {fault : AccessError → UpdateError} :
    store d path v changed fault = .ok (left, flag) ↔ SetByPath d path v = .ok left ∧ changed = flag := by
  unfold store
  cases SetByPath d path v with
  | error error => simp
  | ok _ => simp

theorem store_same (held : GetByPath d path = .ok v) (changed : Bool)
    (fault : AccessError → UpdateError) : store d path v changed fault = .ok (d, changed) :=
  store_eq_ok.mpr ⟨SetByPath_GetByPath held, rfl⟩

theorem eq_of_set_same (held : GetByPath d path = .ok v) (set : SetByPath d path v = .ok left) : left = d :=
  Except.ok.inj (set.symm.trans (SetByPath_GetByPath held))

theorem hasByPath_iff : HasByPath d path = true ↔ ∃ v, GetByPath d path = .ok v := by
  unfold HasByPath
  cases GetByPath d path <;> simp [Except.toBool]

theorem path_ne_nil_of_missing (missing : HasByPath d path = false) : path ≠ [] := by
  rintro rfl
  cases missing

theorem path_ne_nil_of_double {f : Float64} (held : GetByPath d path = .ok (.double f)) : path ≠ [] := by
  rintro rfl
  cases held

theorem setByPath_of_getByPath (held : getByPath path v = .ok w) (value : Value) :
    ∃ after, setByPath value path v = .ok after := by
  induction path generalizing v with
  | nil => exact ⟨value, rfl⟩
  | cons p path ih =>
    obtain ⟨_, rest, walked⟩ := getByPath_cons held
    obtain ⟨after, set⟩ := ih rest
    rcases walked with ⟨d, rfl, found⟩ | ⟨_, _, rfl, read, below, found⟩
    · simp only [setByPath, found, Option.getD_some, set]
      exact ⟨_, rfl⟩
    · simp only [setByPath, read, below, if_false, found, Option.getD_some, set]
      exact ⟨_, rfl⟩

theorem SetByPath_of_GetByPath (held : GetByPath d path = .ok w)
    (value : Value) : ∃ after, SetByPath d path value = .ok after := by
  cases path with
  | nil => exact ⟨d, rfl⟩
  | cons p path =>
    obtain ⟨after, set⟩ := setByPath_of_getByPath held value
    obtain ⟨inner, here, -⟩ := bind_eq_ok.mp set
    exact ⟨setField p inner d, by rw [SetByPath, here]; rfl⟩

theorem eq_or_flipped {f g : Float64} (same : f.eq g = true) :
    Value.double f = .double g ∨ ZeroFlipped (.double f) (.double g) :=
  or_iff_not_imp_left.mpr fun differ => ⟨f, g, rfl, rfl, same, fun equal => differ (congrArg _ equal)⟩

theorem sameNumber_cases (same : sameNumber v w = true) : v = w ∨ ZeroFlipped v w := by
  unfold sameNumber at same
  split at same
  · exact eq_or_flipped same
  · exact .inl (congrArg _ (by simpa using same))
  · exact .inl (congrArg _ (by simpa using same))
  · cases same

theorem eq_of_compareFloats {f g : Float64} (number : f.isNaN = false) (same : compareFloats f g = .eq) :
    f.eq g = true := by
  unfold compareFloats at same
  rw [number] at same
  cases other : g.isNaN with
  | true => simp [other] at same
  | false =>
    simp only [other] at same
    split at same
    · assumption
    · split at same <;> cases same

theorem compareFloats_of_eq {f g : Float64} (same : f.eq g = true) : compareFloats f g = .eq ∧ f.isNaN = false := by
  have numbers := same
  simp only [Float64.eq, Bool.and_eq_true, Bool.not_eq_true'] at numbers
  simp [compareFloats, numbers.1.1, numbers.1.2, same]

theorem Compare_double (f g : Float64) : Compare (.double f) (.double g) = compareFloats f g := by
  simp [Compare, compareScalars, isScalar, compareNumeric, compareNumericFast, asInt64, asFloat64]

theorem addAll_cons (elems : List Value) (elem : Value) (each : List Value) : addAll elems (elem :: each) =
      if arrayContains elems elem then addAll elems each else ((addAll (elems ++ [elem]) each).1, true) := by
  have flagged : ∀ (rest current : List Value) (flag : Bool),
      rest.foldl (fun added elem => if arrayContains added.1 elem then added else (added.1 ++ [elem],
        true)) (current, flag) =
        ((addAll current rest).1, flag || (addAll current rest).2) := by
    intro rest
    induction rest with
    | nil => simp [addAll]
    | cons _ rest ih =>
      intro current flag
      unfold addAll
      rw [foldl_cons, foldl_cons]
      split
      · exact ih current flag
      · rw [ih]
        simp
  unfold addAll
  rw [foldl_cons]
  split
  · rfl
  · exact flagged each (elems ++ [elem]) true

theorem addAll_unchanged {each : List Value} :
    (addAll elems each).2 = false ↔ (∀ elem ∈ each, arrayContains elems elem = true) := by
  induction each with
  | nil => simp [addAll]
  | cons elem each ih =>
    rw [addAll_cons]
    by_cases contained : arrayContains elems elem = true
    · simp [contained, ih]
    · simp [contained]

theorem addAll_same {each : List Value} (contained : ∀ elem ∈ each, arrayContains elems elem = true) :
    addAll elems each = (elems, false) := by
  induction each with
  | nil => rfl
  | cons elem each ih =>
    rw [addAll_cons, if_pos (contained elem (.head _))]
    exact ih fun other member => contained other (.tail _ member)

theorem pullOne_unchanged {pulls : List Value} {flag : Bool}
    (unchanged : (pulls.foldl pullOne (elems, flag)).2 = false) :
    flag = false ∧ (pulls.foldl pullOne (elems, flag)).1 = elems := by
  induction pulls generalizing elems flag with
  | nil => exact ⟨unchanged, rfl⟩
  | cons pull pulls ih =>
    rw [foldl_cons] at unchanged ⊢
    obtain ⟨none, rest⟩ := ih unchanged
    simp only [Bool.or_eq_false_iff, any_eq_false, beq_iff_eq] at none
    have all : (elems.filter fun elem => Compare elem pull != .eq) = elems :=
      filter_eq_self.mpr fun elem member => by simpa using none.2 elem member
    refine ⟨none.1, ?_⟩
    simpa only [pullOne, all] using rest

theorem pullLoop_unchanged [QueryEnv] {pullVal : Value} {left : List Value}
    (unchanged : pullLoop pullVal elems = .ok (left, false)) : left = elems := by
  induction elems generalizing left with
  | nil =>
    cases unchanged
    rfl
  | cons _ elems ih =>
    unfold pullLoop at unchanged ih
    rw [foldrM_cons] at unchanged
    obtain ⟨⟨_, _⟩, below, here⟩ := bind_eq_ok.mp unchanged
    obtain ⟨found, -, result⟩ := bind_eq_ok.mp here
    cases found with
    | true => cases result
    | false =>
      cases result
      rw [ih below]

theorem sortPushed_unchanged [UpdateEnv] {left : List Value}
    (unchanged : sortPushed spec pushed = .ok (left, false)) : pushed = (left, false) := by
  unfold sortPushed at unchanged
  split at unchanged
  · exact Except.ok.inj unchanged
  · split at unchanged
    · exact Except.ok.inj unchanged
    · obtain ⟨_, -, result⟩ := map_eq_ok.mp unchanged
      cases result

theorem slicePushed_unchanged {left : List Value}
    (unchanged : slicePushed spec pushed = .ok (left, false)) : pushed = (left, false) ∧ spec.slice = none := by
  unfold slicePushed at unchanged
  split at unchanged
  · exact ⟨Except.ok.inj unchanged, by assumption⟩
  · obtain ⟨_, -, result⟩ := map_eq_ok.mp unchanged
    cases result

theorem pushInto_unchanged [UpdateEnv] {left : List Value}
    (unchanged : pushInto spec elems = .ok (left, false)) : left = elems ∧ spec.each = [] ∧ spec.slice = none := by
  obtain ⟨_, sorting, slicing⟩ := bind_eq_ok.mp unchanged
  obtain ⟨rfl, slice⟩ := slicePushed_unchanged slicing
  have same := Prod.mk.inj (sortPushed_unchanged sorting)
  have each : spec.each = [] := by simpa using same.2
  refine ⟨?_, each, slice⟩
  rw [← same.1, inserted, each]
  split <;> simp

theorem pushInto_nothing [UpdateEnv] (each : spec.each = []) (slice : spec.slice = none) :
    pushInto spec [] = .ok ([], false) := by
  have empty : inserted spec [] = [] := by
    rw [inserted, each]
    split <;> simp
  have sorting : sortPushed spec ([], false) = .ok ([], false) := by
    unfold sortPushed
    split <;> rfl
  unfold pushInto
  rw [empty, each, isEmpty_nil, Bool.not_true, sorting]
  exact (by rw [slicePushed, slice] : slicePushed spec ([], false) = .ok ([], false))

theorem arrayAt_cases {after : Document} (found : arrayAt d path = .ok (after, elems)) :
    (after = d ∧ GetByPath d path = .ok (.array elems)) ∨
      (HasByPath d path = false ∧ SetByPath d path (.array []) = .ok after ∧ elems = []) := by
  unfold arrayAt at found
  split at found
  next held =>
    cases found
    exact .inl ⟨rfl, held⟩
  · cases found
  next missing =>
    split at found
    next set =>
      cases found
      exact .inr ⟨by simp [HasByPath, missing, Except.toBool], set, rfl⟩
    · cases found

theorem arrayAt_of_created {after : Document} (missing : HasByPath d path = false)
    (created : SetByPath d path (.array []) = .ok after) : arrayAt d path = .ok (after, []) := by
  unfold arrayAt
  cases found : GetByPath d path with
  | ok v => simp [HasByPath, found, Except.toBool] at missing
  | error error => simp [created]

theorem performBitLogic_ne_double {bitOp : Bytes} {result : Value} (done : performBitLogic bitOp v w = .ok result)
    (f : Float64) : result ≠ .double f := by
  unfold performBitLogic at done
  split at done
  · cases done
  · split at done <;> cases done <;> exact fun same => nomatch same

theorem bitLoop_flag {hasPath : Bool} {ops : List (Bytes × Value)}
    (unchanged : bitLoop path hasPath docValue ops d changed = .ok (left, false)) : changed = false := by
  induction ops generalizing d changed with
  | nil => exact (Prod.mk.inj (Except.ok.inj unchanged)).2
  | cons _ ops ih =>
    simp only [bitLoop] at unchanged
    split at unchanged
    · cases unchanged
    · split at unchanged
      · cases unchanged
      · have earlier := ih unchanged
        simp only [Bool.or_eq_false_iff] at earlier
        exact earlier.1.1

theorem bitLoop_unchanged {ops : List (Bytes × Value)} (held : GetByPath d path = .ok docValue)
    (unchanged : bitLoop path true docValue ops d changed = .ok (left, false)) : left = d := by
  induction ops generalizing changed with
  | nil => exact (Prod.mk.inj (Except.ok.inj unchanged)).1.symm
  | cons _ ops ih =>
    simp only [bitLoop] at unchanged
    split at unchanged
    · cases unchanged
    next _ done =>
      split at unchanged
      · cases unchanged
      next _ set =>
        have same := bitLoop_flag unchanged
        simp only [Bool.not_true, Bool.or_false, Bool.or_eq_false_iff, Bool.not_eq_false'] at same
        rcases sameNumber_cases same.2 with rfl | ⟨f, g, -, rfl, -⟩
        · cases eq_of_set_same held set
          exact ih unchanged
        · exact absurd rfl (performBitLogic_ne_double done g)

theorem bitLoop_created {ops : List (Bytes × Value)} (some_ : ops ≠ [])
    : bitLoop path false docValue ops d false ≠ .ok (left, false) := by
  intro unchanged
  cases ops with
  | nil => exact some_ rfl
  | cons _ ops =>
    simp only [bitLoop] at unchanged
    split at unchanged
    · cases unchanged
    · split at unchanged
      · cases unchanged
      · have flag := bitLoop_flag unchanged
        simp at flag

section
variable [UpdateEnv]

theorem addNumbers_double {v sum : Value} {f : Float64} (added : addNumbers v (.double f) = .ok sum) :
    ∃ g, sum = .double g := by
  cases v <;> simp only [addNumbers] at added <;> cases added
  all_goals exact ⟨_, rfl⟩

theorem incUnchanged_cases {v docValue sum : Value} (added : addNumbers v docValue = .ok sum)
    (unchanged : incUnchanged docValue sum = true) : docValue = sum ∨ ZeroFlipped docValue sum := by
  unfold incUnchanged at unchanged
  split at unchanged
  next f =>
    obtain ⟨g, rfl⟩ := addNumbers_double added
    simp only [Bool.and_eq_true, beq_iff_eq, Bool.not_eq_true', Compare_double] at unchanged
    exact eq_or_flipped (eq_of_compareFloats unchanged.2 unchanged.1)
  · cases unchanged

end

theorem incUnchanged_of_flipped {sum : Value} (flipped : ZeroFlipped docValue sum) :
    incUnchanged docValue sum = true := by
  obtain ⟨f, g, rfl, rfl, same, -⟩ := flipped
  have equal := compareFloats_of_eq same
  simp [incUnchanged, Compare_double, equal]

theorem sameNumber_of_flipped {product : Value} (flipped : ZeroFlipped docValue product) :
    sameNumber docValue product = true := by
  obtain ⟨f, g, rfl, rfl, same, -⟩ := flipped
  exact same

theorem canonical_ne_of_flipped {before after : Value}
    (held : GetByPath d path = .ok before) (flipped : ZeroFlipped before after)
    (set : SetByPath d path after = .ok left) : canonical left ≠ canonical d := by
  obtain ⟨f, g, rfl, rfl, -, other⟩ := flipped
  intro same
  have here := GetByPath_SetByPath (path_ne_nil_of_double held) set
  obtain ⟨v, there, stored⟩ := GetByPath_of_canonical same here
  rw [held] at there
  cases there
  simp only [canonicalValue, Value.double.injEq] at stored
  exact other stored.symm

theorem canonical_ne_of_created
    (missing : HasByPath d path = false) (set : SetByPath d path v = .ok left) : canonical left ≠ canonical d := by
  intro same
  have here := GetByPath_SetByPath (path_ne_nil_of_missing missing) set
  obtain ⟨w, there, -⟩ := GetByPath_of_canonical same here
  rw [hasByPath_iff.mpr ⟨w, there⟩] at missing
  cases missing

theorem unchanged_of_set (unchanged : processSetFieldExpression d key value false = .ok (left, false)) :
    left = d ∧ ∃ path docValue, pathOf key = .ok path ∧ GetByPath d path = .ok docValue ∧
      Identical value docValue = true := by
  obtain ⟨path, parsed, result⟩ := bind_eq_ok.mp unchanged
  split at result
  next docValue held =>
    split at result
    next same =>
      cases result
      exact ⟨rfl, path, docValue, parsed, held, same⟩
    · cases (store_eq_ok.mp result).2
  · cases (store_eq_ok.mp result).2

section
variable [UpdateEnv]

variable {d left : Document} {key : Bytes} {value : Value}

theorem unchanged_of_inc
    (unchanged : processIncFieldExpression d key value = .ok (left, false)) : left = d ∨ Silent .inc d key value := by
  unfold processIncFieldExpression at unchanged
  split at unchanged
  · cases unchanged
  next number =>
    obtain ⟨path, parsed, result⟩ := bind_eq_ok.mp unchanged
    split at result
    · cases (store_eq_ok.mp result).2
    next docValue held =>
      split at result
      · cases result
      next sum added =>
        obtain ⟨set, flag⟩ := store_eq_ok.mp result
        rcases incUnchanged_cases added (by simpa using flag) with rfl | flipped
        · exact .inl (eq_of_set_same held set)
        · exact .inr ⟨path, parsed, by simpa using number, docValue, sum, held, added, flipped⟩

theorem unchanged_of_mul
    (unchanged : processMulFieldExpression d key value = .ok (left, false)) : left = d ∨ Silent .mul d key value := by
  obtain ⟨path, parsed, result⟩ := bind_eq_ok.mp unchanged
  split at result
  · split at result
    · cases result
    · cases (store_eq_ok.mp result).2
  next docValue held =>
    split at result
    · cases result
    next product multiplied =>
      obtain ⟨set, flag⟩ := store_eq_ok.mp result
      rcases sameNumber_cases (by simpa using flag) with rfl | flipped
      · exact .inl (eq_of_set_same held set)
      · exact .inr ⟨path, parsed, docValue, product, held, multiplied, flipped⟩

theorem unchanged_of_push (unchanged : processPushArrayUpdateExpression d key value = .ok (left, false)) :
    left = d ∨ Silent .push d key value := by
  obtain ⟨spec, given, rest⟩ := bind_eq_ok.mp unchanged
  obtain ⟨path, parsed, rest⟩ := bind_eq_ok.mp rest
  obtain ⟨⟨after, _⟩, found, rest⟩ := bind_eq_ok.mp rest
  obtain ⟨⟨_, _⟩, pushing, storing⟩ := bind_eq_ok.mp rest
  obtain ⟨set, rfl⟩ := store_eq_ok.mp storing
  obtain ⟨rfl, each, slice⟩ := pushInto_unchanged pushing
  rcases arrayAt_cases found with ⟨rfl, held⟩ | ⟨missing, created, rfl⟩
  · exact .inl (eq_of_set_same held set)
  · exact .inr ⟨path, parsed, ⟨missing, after, created⟩, spec, given, each, slice⟩

theorem unchanged_of_addToSet (unchanged : processAddToSetArrayUpdateExpression d key value = .ok (left, false)) :
    left = d ∨ Silent .addToSet d key value := by
  obtain ⟨each, given, rest⟩ := bind_eq_ok.mp unchanged
  obtain ⟨path, parsed, rest⟩ := bind_eq_ok.mp rest
  obtain ⟨⟨after, elems⟩, found, rest⟩ := bind_eq_ok.mp rest
  have storing : store after path (.array (addAll elems each).1) (addAll elems each).2 .access = .ok
    (left, false) := rest
  obtain ⟨set, flag⟩ := store_eq_ok.mp storing
  have contained := addAll_unchanged.mp flag
  rw [addAll_same contained] at set
  rcases arrayAt_cases found with ⟨rfl, held⟩ | ⟨missing, created, rfl⟩
  · exact .inl (eq_of_set_same held set)
  · exact .inr ⟨path, parsed, ⟨missing, after, created⟩, each, given, contained⟩

end

theorem unchanged_of_extreme {replaced : Ordering}
    (unchanged : processExtreme replaced d key value = .ok (left, false)) : left = d := by
  obtain ⟨_, -, result⟩ := bind_eq_ok.mp unchanged
  split at result
  · cases (store_eq_ok.mp result).2
  · split at result
    · cases (store_eq_ok.mp result).2
    · cases result
      rfl

theorem unchanged_of_pullFrom {pull : List Value → Except UpdateError (List Value × Bool)}
    (same : ∀ {elems after}, pull elems = .ok (after, false) → after = elems)
    (unchanged : pullFrom d key pull = .ok (left, false)) : left = d := by
  obtain ⟨_, -, result⟩ := bind_eq_ok.mp unchanged
  split at result
  · split at result
    · cases result
    · cases result
      rfl
  next elems held =>
    obtain ⟨⟨after, _⟩, pulled, storing⟩ := bind_eq_ok.mp result
    obtain ⟨set, rfl⟩ := store_eq_ok.mp storing
    exact eq_of_set_same held (same pulled ▸ set)
  · cases result

theorem unchanged_of_currentDate [UpdateEnv]
    (unchanged : processCurrentDateFieldExpression d key value = .ok (left, false)) : left = d := by
  simp only [processCurrentDateFieldExpression] at unchanged
  split at unchanged
  · split at unchanged
    · cases unchanged
    · split at unchanged
      · cases unchanged
      · exact (Prod.mk.inj (Except.ok.inj unchanged)).1.symm
  · exact (Prod.mk.inj (Except.ok.inj unchanged)).1.symm

theorem unchanged_of_unset (unchanged : processUnset d key = .ok (left, false)) : left = d := by
  obtain ⟨_, -, result⟩ := bind_eq_ok.mp unchanged
  split at result
  · cases result
  · exact (Prod.mk.inj (Except.ok.inj result)).1.symm

theorem unchanged_of_rename (unchanged : processRenameFieldExpression d key value = .ok (left, false)) :
    left = d := by
  unfold processRenameFieldExpression at unchanged
  split at unchanged
  · split at unchanged
    · cases unchanged
    · obtain ⟨_, -, rest⟩ := bind_eq_ok.mp unchanged
      obtain ⟨_, -, result⟩ := bind_eq_ok.mp rest
      unfold renameTo at result
      split at result
      · cases (store_eq_ok.mp result).2
      · exact (Prod.mk.inj (Except.ok.inj result)).1.symm
      · exact (Prod.mk.inj (Except.ok.inj result)).1.symm
      · cases result
  · cases unchanged

theorem unchanged_of_pop (unchanged : processPopArrayUpdateExpression d key value = .ok (left, false)) :
    left = d := by
  unfold processPopArrayUpdateExpression at unchanged
  split at unchanged
  · cases unchanged
  · split at unchanged
    · cases unchanged
    · obtain ⟨_, -, result⟩ := bind_eq_ok.mp unchanged
      split at result
      · split at result
        · cases result
        · exact (Prod.mk.inj (Except.ok.inj result)).1.symm
      · exact (Prod.mk.inj (Except.ok.inj result)).1.symm
      · cases (store_eq_ok.mp result).2
      · cases result

theorem unchanged_of_pullAll
    (unchanged : processPullAllArrayUpdateExpression d key value = .ok (left, false)) : left = d := by
  unfold processPullAllArrayUpdateExpression at unchanged
  split at unchanged
  · refine unchanged_of_pullFrom (fun {elems after} pulled => ?_) unchanged
    have same := Except.ok.inj pulled
    rw [← (pullOne_unchanged (congrArg Prod.snd same)).2, same]
  · cases unchanged

theorem unchanged_of_bit (unchanged : processBitFieldExpression d key value = .ok (left, false)) : left = d := by
  unfold processBitFieldExpression at unchanged
  split at unchanged
  · split at unchanged
    · cases unchanged
    next some_ =>
      obtain ⟨_, -, result⟩ := bind_eq_ok.mp unchanged
      split at result
      next held =>
        exact bitLoop_unchanged held result
      · exact absurd result (bitLoop_created some_)
  · cases unchanged

section
variable [QueryEnv] [UpdateEnv]

variable {d : Document} {key : Bytes} {value : Value} {left : Document}

theorem unchanged_of_applyOperator {operator : UpdateOperator}
    (unchanged : applyOperator false operator d key value = .ok (left, false)) :
    left = d ∨ Silent operator d key value := by
  cases operator with
  | currentDate => exact .inl (unchanged_of_currentDate unchanged)
  | set => exact .inl (unchanged_of_set unchanged).1
  | setOnInsert => exact .inl (Prod.mk.inj (Except.ok.inj unchanged)).1.symm
  | unset => exact .inl (unchanged_of_unset unchanged)
  | inc => exact unchanged_of_inc unchanged
  | max
  | min => exact .inl (unchanged_of_extreme unchanged)
  | mul => exact unchanged_of_mul unchanged
  | rename => exact .inl (unchanged_of_rename unchanged)
  | pop => exact .inl (unchanged_of_pop unchanged)
  | push => exact unchanged_of_push unchanged
  | addToSet => exact unchanged_of_addToSet unchanged
  | pull => exact .inl (unchanged_of_pullFrom pullLoop_unchanged unchanged)
  | pullAll => exact .inl (unchanged_of_pullAll unchanged)
  | bit => exact .inl (unchanged_of_bit unchanged)

theorem holds_of_not_silent (heard : ¬ Silent .set d key value)
    (unchanged : applyOperator false .set d key value = .ok (left, false)) : Holds key value left := by
  obtain ⟨rfl, path, docValue, parsed, held, same⟩ := unchanged_of_set unchanged
  intro _ parsed'
  rw [parsed] at parsed'
  cases parsed'
  refine ⟨docValue, held, ?_⟩
  by_contra differ
  exact heard ⟨path, parsed, docValue, held, same, differ⟩

theorem kept_of_not_silent {operator : UpdateOperator} (heard : ¬ Silent operator d key value) :
    Kept d (asksFor operator key value) (applyOperator false operator d key value) := by
  intro left unchanged
  have same : left = d := (unchanged_of_applyOperator unchanged).resolve_right heard
  refine ⟨by rw [same], ?_⟩
  rintro rfl
  exact holds_of_not_silent heard unchanged

theorem not_kept_of_silent {operator : UpdateOperator} (silent : Silent operator d key value) :
    ¬ Kept d (asksFor operator key value) (applyOperator false operator d key value) := by
  intro kept
  obtain ⟨path, parsed, silent⟩ := silent
  cases operator with
  | set =>
    obtain ⟨docValue, held, same, differ⟩ := silent
    have result : applyOperator false .set d key value = .ok (d, false) := by
      simp [applyOperator, processSetFieldExpression, parsed, held, same, bind, Except.bind]
    obtain ⟨there, found, stored⟩ := (kept d result).2 rfl path parsed
    rw [held] at found
    cases found
    exact differ stored
  | inc =>
    obtain ⟨number, docValue, sum, held, added, flipped⟩ := silent
    obtain ⟨left, set⟩ := SetByPath_of_GetByPath held sum
    have result : applyOperator false .inc d key value = .ok (left, false) := by
      simp [applyOperator, processIncFieldExpression, number, parsed, held, added, bind, Except.bind,
        store_eq_ok, set, incUnchanged_of_flipped flipped]
    exact canonical_ne_of_flipped held flipped set (kept left result).1
  | mul =>
    obtain ⟨docValue, product, held, multiplied, flipped⟩ := silent
    obtain ⟨left, set⟩ := SetByPath_of_GetByPath held product
    have result : applyOperator false .mul d key value = .ok (left, false) := by
      simp [applyOperator, processMulFieldExpression, parsed, held, multiplied, bind, Except.bind,
        store_eq_ok, set, sameNumber_of_flipped flipped]
    exact canonical_ne_of_flipped held flipped set (kept left result).1
  | push =>
    obtain ⟨⟨missing, left, created⟩, _, given, each, slice⟩ := silent
    have there := GetByPath_SetByPath (path_ne_nil_of_missing missing) created
    have result : applyOperator false .push d key value = .ok (left, false) := by
      simp [applyOperator, processPushArrayUpdateExpression, parsed, given, bind, Except.bind,
        arrayAt_of_created missing created, pushInto_nothing each slice, store_same there]
    exact canonical_ne_of_created missing created (kept left result).1
  | addToSet =>
    obtain ⟨⟨missing, left, created⟩, each, given, contained⟩ := silent
    have there := GetByPath_SetByPath (path_ne_nil_of_missing missing) created
    have result : applyOperator false .addToSet d key value = .ok (left, false) := by
      simp [applyOperator, processAddToSetArrayUpdateExpression, parsed, given, bind, Except.bind,
        arrayAt_of_created missing created, addAll_same contained, store_same there]
    exact canonical_ne_of_created missing created (kept left result).1
  | _ => exact silent

end

section
variable [QueryEnv] [UpdateEnv]

/-- One operator at one of its keys, with the document that it meets. -/
structure UpdateStep where
  met : Document
  op : KvOp
  key : Bytes

/-- The keys of an operator, each on the document that the one before left. -/
def reachedKeys (op : KvOp) : List Bytes → Document → Except UpdateError (List UpdateStep × Document)
  | [], d => .ok ([], d)
  | key :: keys, d => do
    let (after, _) ← applyNamed false op (d, false) key
    let (steps, left) ← reachedKeys op keys after
    return (⟨d, op, key⟩ :: steps, left)

/-- The steps of an update, and the document that is left. -/
def reachedSteps : List KvOp → Document → Except UpdateError (List UpdateStep × Document)
  | [], d => .ok ([], d)
  | op :: ops, d => do
    let keys ← expandedKeys d op.key
    let (steps, after) ← reachedKeys op keys d
    let (more, left) ← reachedSteps ops after
    return (steps ++ more, left)

def UpdateStep.Silent (s : UpdateStep) : Prop :=
  ∃ operator, operatorNamed s.op.operator = some operator ∧ Handler.Silent operator s.met s.key s.op.value

/-- The step is silent and leaves another document. -/
def UpdateStep.Alters (s : UpdateStep) : Prop := s.Silent ∧ operatorNamed s.op.operator ≠ some .set

/-- What a `$set` asks for is under its key. -/
def UpdateStep.Asks (s : UpdateStep) (left : Document) : Prop :=
  operatorNamed s.op.operator = some .set → Holds s.key s.op.value left

/-- Steps one after the other, none of which says that it changed the document. -/
inductive Unmodified : Document → List UpdateStep → Document → Prop where
  | nil {d : Document} : Unmodified d [] d
  | cons {s : UpdateStep} {steps : List UpdateStep} {mid left : Document} :
        applyNamed false s.op (s.met, false) s.key = .ok (mid, false) →
      Unmodified mid steps left → Unmodified s.met (s :: steps) left

variable {s : UpdateStep} {steps more : List UpdateStep} {d mid left : Document}

theorem Unmodified.append (first : Unmodified d steps mid) (second : Unmodified mid more left) :
    Unmodified d (steps ++ more) left := by
  induction first with
  | nil => exact second
  | cons applied _ ih => exact .cons applied (ih second)

/-! From the run of an update to its steps. -/

theorem applyNamed_flag {op : KvOp} {updated after : Document × Bool} {key : Bytes}
    (applied : applyNamed false op updated key = .ok after) (clear : after.2 = false) : updated.2 = false := by
  unfold applyNamed at applied
  split at applied
  · obtain ⟨_, -, same⟩ := bind_eq_ok.mp applied
    cases same
    exact (Bool.or_eq_false_iff.mp clear).1
  · split at applied
    · cases applied
    · cases applied
      exact clear

theorem foldlM_applyNamed_flag {op : KvOp} {keys : List Bytes} {updated after : Document × Bool}
    (folded : keys.foldlM (applyNamed false op) updated = .ok after) (clear : after.2 = false) :
    updated.2 = false := by
  by_contra set
  have kept := foldlM_keeps (fun b => b.2 = true) (fun key _ b mid set done => ?_) folded (eq_true_of_ne_false set)
  · cases kept.symm.trans clear
  · by_contra unset
    cases set.symm.trans (applyNamed_flag done (eq_false_of_ne_true unset))

theorem reachedKeys_of_unmodified {op : KvOp} {keys : List Bytes}
    (folded : keys.foldlM (applyNamed false op) (d, false) = .ok (left, false)) :
    ∃ steps, reachedKeys op keys d = .ok (steps, left) ∧ Unmodified d steps left := by
  induction keys generalizing d with
  | nil =>
    cases folded
    exact ⟨[], rfl, .nil⟩
  | cons key keys ih =>
    obtain ⟨⟨mid, flag⟩, applied, rest⟩ := foldlM_cons_ok.mp folded
    obtain rfl : flag = false := foldlM_applyNamed_flag rest rfl
    obtain ⟨steps, reached, run⟩ := ih rest
    have first : Unmodified d (⟨d, op, key⟩ :: steps) left := @Unmodified.cons _ _ ⟨d, op, key⟩ _ _ _ applied run
    refine ⟨_, ?_, first⟩
    simp only [reachedKeys, applied, reached, bind, Except.bind, pure, Except.pure]

theorem reachedSteps_of_unmodified {ops : List KvOp}
    (folded : ops.foldlM (applyKvOp false) (d, false) = .ok (left, false)) :
    ∃ steps, reachedSteps ops d = .ok (steps, left) ∧ Unmodified d steps left := by
  induction ops generalizing d with
  | nil =>
    cases folded
    exact ⟨[], rfl, .nil⟩
  | cons op ops ih =>
    obtain ⟨⟨mid, flag⟩, applied, rest⟩ := foldlM_cons_ok.mp folded
    obtain ⟨keys, expanded, each⟩ := bind_eq_ok.mp applied
    obtain rfl : flag = false := by
      by_contra set
      have kept := foldlM_keeps (fun b => b.2 = true) (fun op _ b mid set done => ?_) rest (eq_true_of_ne_false set)
      · cases kept
      · obtain ⟨_, -, folded⟩ := bind_eq_ok.mp done
        by_contra unset
        cases set.symm.trans (foldlM_applyNamed_flag folded (eq_false_of_ne_true unset))
    obtain ⟨steps, reached, first⟩ := reachedKeys_of_unmodified each
    obtain ⟨more, others, second⟩ := ih rest
    refine ⟨steps ++ more, ?_, first.append second⟩
    simp only [reachedSteps, expanded, reached, others, bind, Except.bind, pure, Except.pure]

/-! What the steps leave. -/

theorem applyOperator_unmodified {operator : UpdateOperator} {key : Bytes} {value : Value}
    (done : applyOperator false operator d key value = .ok (left, false)) :
    (canonical left = canonical d ∧ asksFor operator key value left) ↔ ¬ Handler.Silent operator d key value := by
  refine ⟨fun kept silent => not_kept_of_silent silent fun other same => ?_,
    fun heard => kept_of_not_silent heard left done⟩
  cases done.symm.trans same
  exact kept

theorem applyNamed_unmodified (applied : applyNamed false s.op (s.met, false) s.key = .ok (left, false)) :
    (¬ s.Alters → left = s.met ∧ (s.Asks left ↔ ¬ s.Silent)) ∧ (s.Alters → canonical left ≠ canonical s.met) := by
  unfold applyNamed at applied
  split at applied
  next operator named =>
    obtain ⟨⟨after, changed⟩, done, result⟩ := bind_eq_ok.mp applied
    obtain ⟨rfl, rfl⟩ := by simpa using result
    have silent : s.Silent ↔ Handler.Silent operator s.met s.key s.op.value := by
      simp [UpdateStep.Silent, named]
    have kept : _ ↔ ¬ Handler.Silent operator s.met s.key s.op.value := applyOperator_unmodified done
    simp only [UpdateStep.Alters, UpdateStep.Asks, silent, named, Option.some.injEq, ne_eq]
    by_cases set : operator = .set
    · subst set
      have same := (unchanged_of_set done).1
      rw [same, and_iff_right rfl] at kept
      refine ⟨fun _ => ⟨same, ?_⟩, by simp⟩
      rw [← kept, same]
      rfl
    · have nothing : asksFor operator s.key s.op.value left := fun here => absurd here set
      rw [and_iff_left nothing] at kept
      refine ⟨fun still => ?_, fun alters => (kept.not_left.mpr alters.1)⟩
      have heard : ¬ Handler.Silent operator s.met s.key s.op.value := fun silent => still ⟨silent, set⟩
      exact ⟨(unchanged_of_applyOperator done).resolve_right heard, by simp [heard, set]⟩
  next unnamed =>
    split at applied
    · cases applied
    · cases applied
      simp [UpdateStep.Alters, UpdateStep.Silent, UpdateStep.Asks, unnamed]

theorem Unmodified.same (run : Unmodified d steps left) (still : ∀ s ∈ steps, ¬ s.Alters) :
    left = d ∧ ∀ s ∈ steps, s.Asks left ↔ ¬ s.Silent := by
  induction run with
  | nil => exact ⟨rfl, by simp⟩
  | cons applied _ ih =>
    obtain ⟨kept, asks⟩ := (applyNamed_unmodified applied).1 (still _ (.head _))
    obtain ⟨same, others⟩ := ih fun s member => still s (.tail _ member)
    refine ⟨same.trans kept, forall_mem_cons.mpr ⟨?_, others⟩⟩
    rw [same]
    exact asks

theorem Unmodified.altered (run : Unmodified d steps left) (once : steps.Pairwise fun a b => ¬(a.Alters ∧ b.Alters))
    (alters : ∃ s ∈ steps, s.Alters) : canonical left ≠ canonical d := by
  induction run with
  | nil => simp at alters
  | @cons s steps mid left applied run ih =>
    obtain ⟨first, others⟩ := pairwise_cons.mp once
    by_cases here : s.Alters
    · rw [(run.same fun other member there => first other member ⟨here, there⟩).1]
      exact (applyNamed_unmodified applied).2 here
    · obtain ⟨other, member, there⟩ := alters
      rcases mem_cons.mp member with rfl | member
      · exact absurd there here
      · rw [← ((applyNamed_unmodified applied).1 here).1]
        exact ih others ⟨other, member, there⟩

/-- An update that is called no change has its steps, and leaves what is stored and what was asked for
if none of them is silent on the document it meets; and only then, unless two of them alter it. -/
theorem kept_of_steps {update : Document} (unchanged : processUpdateOperator false d update = .ok (left, false)) :
    ∃ steps, reachedSteps (getSortedKVOps update) d = .ok (steps, left) ∧
      ((∀ s ∈ steps, ¬ s.Silent) → canonical left = canonical d ∧ ∀ s ∈ steps, s.Asks left) ∧
      ((steps.Pairwise fun a b => ¬(a.Alters ∧ b.Alters)) →
        canonical left = canonical d ∧ (∀ s ∈ steps, s.Asks left) → ∀ s ∈ steps, ¬ s.Silent) := by
  obtain ⟨⟨_, _⟩, folded, rest⟩ := bind_eq_ok.mp unchanged
  obtain ⟨-, -, result⟩ := bind_eq_ok.mp rest
  cases result
  obtain ⟨steps, reached, run⟩ := reachedSteps_of_unmodified folded
  refine ⟨steps, reached, fun heard => ?_, fun once kept s member => ?_⟩
  · obtain ⟨same, asks⟩ := run.same fun s member alters => heard s member alters.1
    exact ⟨by rw [same], fun s member => (asks s member).mpr (heard s member)⟩
  · have still (other : UpdateStep) (listed : other ∈ steps) : ¬ other.Alters := fun alters =>
      run.altered once ⟨other, listed, alters⟩ kept.1
    exact ((run.same still).2 s member).mp (kept.2 s member)

end

theorem setAll_distinct {fields : Document} (distinct : (documentKeys fields).Nodup)
    (apart : ∀ entry ∈ d, entry.1 ∉ documentKeys fields) : setAll d fields = d ++ fields := by
  induction fields generalizing d with
  | nil => simp [setAll]
  | cons entry fields ih =>
    obtain ⟨key, v⟩ := entry
    simp only [documentKeys, map_cons, nodup_cons] at distinct
    have fresh : setField key v d = d ++ [(key, v)] := by
      induction d with
      | nil => rfl
      | cons other d inner =>
        have differ : other.1 ≠ key := fun same => apart other (.head _) (by simp [documentKeys, same])
        rw [setField, if_neg differ, inner fun entry member => apart entry (.tail _ member)]
        rfl
    rw [setAll, foldl_cons, fresh]
    refine (ih distinct.2 fun entry member => ?_).trans (by simp)
    rcases mem_append.mp member with old | new
    · exact fun there => apart entry old (mem_cons_of_mem _ there)
    · rw [mem_singleton.mp new]
      exact distinct.1

theorem get_isNone_iff : d.get key = none ↔ key ∉ documentKeys d := by
  induction d with
  | nil => simp [documentKeys]
  | cons entry d ih =>
    rw [get_cons]
    by_cases here : entry.1 = key
    · simp [here, documentKeys]
    · rw [if_neg here, ih]
      simp [documentKeys, Ne.symm here]

theorem keysDistinct_eq_ok {u : Unit} : keysDistinct d = .ok u ↔ (documentKeys d).Nodup := by
  unfold keysDistinct
  split <;> simp_all

theorem askedFor_of_equal (equal : Compare (.document d) (.document e) = .eq) : askedFor d e = e := by
  have same : documentKeys d = documentKeys e := by
    rw [Compare] at equal
    exact keys_of_compareDocuments equal
  unfold askedFor
  split
  next _ held missing =>
    rw [get_isNone_iff, ← same, ← get_isNone_iff, held] at missing
    cases missing
  · rfl

theorem kept_replacement {update : Document} :
    Kept d (fun _ => canonical (askedFor d update) = canonical d) (processReplacementDoc d update) ↔
      ¬ Coarse d update := by
  constructor
  · intro kept coarse
    have result : processReplacementDoc d update = .ok (d, false) := by rw [processReplacementDoc, if_pos coarse.1]
    have asked := (kept d result).2
    rw [askedFor_of_equal coarse.1] at asked
    exact canonical_ne_of_coarse coarse asked
  · intro fine _ unchanged
    unfold processReplacementDoc at unchanged
    split at unchanged
    next equal =>
      cases unchanged
      have same : d = update := by
        by_contra differ
        exact fine ⟨equal, differ⟩
      rw [askedFor_of_equal equal, same]
      exact ⟨rfl, rfl⟩
    · obtain ⟨_, distinct, rest⟩ := bind_eq_ok.mp unchanged
      obtain ⟨_, -, rest⟩ := bind_eq_ok.mp rest
      obtain ⟨_, -, result⟩ := bind_eq_ok.mp rest
      have flag := (Prod.mk.inj (Except.ok.inj result))
      simp only [Bool.or_eq_false_iff, any_eq_false, Bool.not_eq_false', List.isEmpty_iff, bne_iff_ne, ne_eq,
        not_not] at flag
      obtain ⟨leftIs, onlyID, rfl⟩ := flag
      have all : (d.filter fun entry => entry.1 == idKey) = d :=
        filter_eq_self.mpr fun entry member => by simpa using onlyID entry member
      rw [all] at leftIs
      subst leftIs
      refine ⟨rfl, ?_⟩
      -- nothing but an `_id` was there, and nothing was asked for
      match d, keysDistinct_eq_ok.mp distinct, onlyID with
      | [], _, _ => rfl
      | [(key, id)], _, onlyID =>
        obtain rfl : key = idKey := onlyID _ (.head _)
        simp [askedFor]
      | (key, _) :: (other, _) :: _, distinct, onlyID =>
        have first : key = idKey := onlyID _ (.head _)
        have second : other = idKey := onlyID _ (.tail _ (.head _))
        simp [documentKeys, first, second] at distinct

theorem get_of_equal : ∀ {a b : Document} {key : Bytes} {v : Value}, compareDocuments a b = .eq →
    a.get key = some v → ∃ w, b.get key = some w ∧ CompareOrder v w = .eq
  | [], _, _, _, _, held => by simp at held
  | _ :: _, [], _, _, equal, _ => by simp [compareDocuments] at equal
  | (k, v') :: a, (l, w') :: b, key, v, equal, held => by
    simp only [compareDocuments, Ordering.then_eq_eq] at equal
    obtain ⟨types, names, values, rest⟩ := equal
    obtain rfl : k = l := by simpa using names
    rw [get_cons] at held ⊢
    split at held
    · cases held
      refine ⟨w', if_pos (by assumption), ?_⟩
      rw [CompareOrder, types]
      exact values
    · rw [if_neg (by assumption)]
      exact get_of_equal rest held

theorem left_of_pipeline (done : processPipelineUpdate d updated = .ok (left, changed)) :
    left = askedFor d updated ∧ changed = (Compare (.document d) (.document left) != .eq) := by
  obtain ⟨_, -, rest⟩ := bind_eq_ok.mp done
  obtain ⟨_, distinct, rest⟩ := bind_eq_ok.mp rest
  obtain ⟨_, kept, result⟩ := bind_eq_ok.mp rest
  cases result
  have distinct := keysDistinct_eq_ok.mp distinct
  have rebuilt : setAll [] updated = updated := setAll_distinct distinct fun entry member => nomatch member
  rw [rebuilt] at kept
  refine ⟨?_, rfl⟩
  unfold keepPipelineID at kept
  unfold askedFor
  split at kept
  next none_ =>
    cases kept
    simp [none_]
  next held new =>
    split at kept
    · cases kept
      simp [new]
    · cases kept
  next _ held missing =>
    cases kept
    rw [held, missing]
    refine setAll_distinct distinct fun entry member => ?_
    rw [mem_singleton.mp member]
    exact get_isNone_iff.mp missing

theorem pipeline_of_equal (distinct : (documentKeys d).Nodup)
    (equal : Compare (.document d) (.document (askedFor d updated)) = .eq) :
    processPipelineUpdate d updated = .ok (askedFor d updated, false) := by
  have fields : compareDocuments d (askedFor d updated) = .eq := by rwa [Compare] at equal
  have same : documentKeys d = documentKeys (askedFor d updated) := keys_of_compareDocuments fields
  have asked : documentKeys (askedFor d updated) = documentKeys updated ∨
      documentKeys (askedFor d updated) = idKey :: documentKeys updated := by
    unfold askedFor
    split
    · exact .inr rfl
    · exact .inl rfl
  have others : (documentKeys updated).Nodup := by
    rw [same] at distinct
    rcases asked with plain | first
    · exact plain ▸ distinct
    · rw [first] at distinct
      exact distinct.of_cons
  have rebuilt : setAll [] updated = updated := setAll_distinct others fun entry member => nomatch member
  have kept : keepPipelineID d updated = .ok (askedFor d updated) := by
    unfold keepPipelineID askedFor at *
    split
    next none_ =>
      simp [none_]
    next id new held there =>
      rw [held, there] at fields
      obtain ⟨w, found, order⟩ := get_of_equal fields held
      rw [there] at found
      cases found
      have back : CompareOrder new id = .eq := by rw [CompareOrder_swap, order]; rfl
      rw [if_pos (CompareOrder_eq_iff.mp back).2, held, there]
    next id held missing =>
      rw [held, missing, setAll_distinct others]
      · rfl
      · intro entry member
        rw [mem_singleton.mp member]
        exact get_isNone_iff.mp missing
  unfold processPipelineUpdate
  have one : keysDistinct d = .ok () := keysDistinct_eq_ok.mpr distinct
  have other : keysDistinct updated = .ok () := keysDistinct_eq_ok.mpr others
  rw [one, other, rebuilt, kept]
  show Except.ok _ = _
  rw [equal]
  rfl

theorem kept_pipeline (distinct : (documentKeys d).Nodup) :
    Kept d (fun left => left = askedFor d updated) (processPipelineUpdate d updated) ↔
      ¬ Coarse d (askedFor d updated) := by
  constructor
  · intro kept coarse
    exact canonical_ne_of_coarse coarse (kept _ (pipeline_of_equal distinct coarse.1)).1
  · intro fine left unchanged
    obtain ⟨asked, flag⟩ := left_of_pipeline unchanged
    refine ⟨?_, asked⟩
    have equal : Compare (.document d) (.document left) = .eq := by simpa using flag
    have same : d = left := by
      by_contra differ
      exact fine ⟨asked ▸ equal, asked ▸ differ⟩
    rw [same]

/-- A stored document: `ValidateData` refused repeated keys when it was written. -/
structure StoredDocument where
  fields : Document
  distinct : (documentKeys fields).Nodup

/-- An update that is called no change leaves what is stored and has nothing left to do: a
replacement or a pipeline exactly where its document does not compare equal with the stored one and
differ from it, an operator on a key exactly where it is not silent, and an update document where none
of its operators is silent on the document that it meets, and only there, unless two of them alter the
document and may undo each other. -/
theorem no_change_unless_coarse_or_silent [QueryEnv] [UpdateEnv] (d : StoredDocument) :
    (∀ update, Kept d.fields (fun _ => canonical (askedFor d.fields update) = canonical d.fields)
      (processReplacementDoc d.fields update) ↔ ¬ Coarse d.fields update) ∧
    (∀ updated, Kept d.fields (fun left => left = askedFor d.fields updated)
      (processPipelineUpdate d.fields updated) ↔
      ¬ Coarse d.fields (askedFor d.fields updated)) ∧
    (∀ operator key value, Kept d.fields (asksFor operator key value)
      (applyOperator false operator d.fields key value) ↔ ¬ Silent operator d.fields key value) ∧
    ∀ update left, processUpdateOperator false d.fields update = .ok (left, false) →
      ∃ steps, reachedSteps (getSortedKVOps update) d.fields = .ok (steps, left) ∧
        ((∀ s ∈ steps, ¬ s.Silent) → canonical left = canonical d.fields ∧ ∀ s ∈ steps, s.Asks left) ∧
        ((steps.Pairwise fun a b => ¬(a.Alters ∧ b.Alters)) →
          canonical left = canonical d.fields ∧ (∀ s ∈ steps, s.Asks left) → ∀ s ∈ steps, ¬ s.Silent) :=
  ⟨fun _ => kept_replacement, fun _ => kept_pipeline d.distinct,
    fun _ _ _ => ⟨fun kept silent => not_kept_of_silent silent kept, kept_of_not_silent⟩, fun _ _ => kept_of_steps⟩

/-! An order with a whole number, a replacement with the same number as a double, a `$set` of a
document under another key, and a `$push` of nothing. -/

def storedOrder : Document :=
  [(idKey, .int32 7), (field "n", .int32 1), (field "at", .document [(field "zone", .int32 3)])]

def retypedOrder : Document :=
  [(idKey, .int32 7), (field "n", .double (Float64.ofInt 1)), (field "at", .document [(field "zone", .int32 3)])]

def moveZone : Document :=
  [(field "$set", .document [(field "at", .document [(field "area", .int32 3)])])]

def pushNothing : Document :=
  [(field "$push", .document [(field "tags", .document [(field "$each", .array [])])])]

/-- Doubles that do not compute, and nothing sorted or expanded. -/
abbrev plainUpdates : UpdateEnv where
  add := fun f _ => f
  mul := fun f _ => f
  now := 0
  nextTimestamp := 0
  sortArray := fun _ elems => elems
  sortDocuments := fun _ docs => .ok docs
  expandPositionalOps := fun key _ => .ok [key]

theorem no_change_called_on_changes :
    (processReplacementDoc storedOrder retypedOrder = .ok (storedOrder, false) ∧
      docToBSON retypedOrder ≠ docToBSON storedOrder) ∧
    (processPipelineUpdate storedOrder retypedOrder = .ok (retypedOrder, false) ∧
      docToBSON retypedOrder ≠ docToBSON storedOrder) ∧
    (@processUpdateOperator bareEnv plainUpdates false storedOrder moveZone = .ok (storedOrder, false) ∧
      docToBSON (setField (field "at") (.document [(field "area", .int32 3)]) storedOrder) ≠ docToBSON storedOrder) ∧
    (@processUpdateOperator bareEnv plainUpdates false storedOrder pushNothing =
        .ok (storedOrder ++ [(field "tags", .array [])], false) ∧
      docToBSON (storedOrder ++ [(field "tags", .array [])]) ≠ docToBSON storedOrder) := by
  have equal : Compare (.document storedOrder) (.document retypedOrder) = .eq := by decide +kernel
  have differ : docToBSON retypedOrder ≠ docToBSON storedOrder := by decide +kernel
  refine ⟨⟨?_, differ⟩, ⟨?_, differ⟩, ⟨?_, by decide +kernel⟩, ?_, by decide +kernel⟩
  · rw [processReplacementDoc, if_pos equal]
  · rw [pipeline_of_equal (by decide +kernel) ((askedFor_of_equal equal).symm ▸ equal), askedFor_of_equal equal]
  · with_unfolding_all rfl
  · with_unfolding_all rfl

end DumboDB.Handler
