import DumboDB.Dolt.MergeClean
import DumboDB.Dolt.MergeWrites

/-!
One leaf through a merge: a side that left it alone yields to the other, and what is stored of it is
what the side held. Zeros of either sign are one value to the merge, so leaves are compared exactly
where none of them is negative.
-/

namespace DumboDB.Dolt
open Foundation ByteOrder Binary64 DumboDB.Types Index Handler List

/-! Negative zeros. -/

mutual

def plainZeros : Value → Bool
  | .double f => f.bits != 0x8000000000000000
  | .document fields => plainZerosFields fields
  | .array elems => plainZerosElems elems
  | _ => true

def plainZerosFields : List (Bytes × Value) → Bool
  | [] => true
  | (_, v) :: rest => plainZeros v && plainZerosFields rest

def plainZerosElems : List Value → Bool
  | [] => true
  | v :: rest => plainZeros v && plainZerosElems rest

end

theorem eq_of_float64_eq {f g : Float64} (same : f.eq g = true) (left : f.bits ≠ 0x8000000000000000)
    (right : g.bits ≠ 0x8000000000000000) : f = g := by
  simp only [Float64.eq, Bool.and_eq_true, decide_eq_true_eq] at same
  have mags : f.mag = g.mag := by
    apply Rounding.unitsOfMag_injective
    rw [← natAbs_units, ← natAbs_units, same.2]
  have notLeft : f.bits.toNat ≠ 2 ^ 63 := fun top => left (UInt64.toNat_inj.mp top)
  have notRight : g.bits.toNat ≠ 2 ^ 63 := fun top => right (UInt64.toNat_inj.mp top)
  have signs : f.signbit = g.signbit := by
    -- numbers of opposite signs are equal only where both are zero
    by_contra apart
    have zero : f.mag = 0 := by
      by_contra positive
      have above := unitsOfMag_lt (Nat.pos_of_ne_zero positive)
      have units := same.2
      simp only [Float64.units, ← mags] at units
      cases left : f.signbit <;> cases right : g.signbit <;> rw [left, right] at apart units
      · exact apart rfl
      · simp only [Bool.false_eq_true, if_false, if_true] at units
        omega
      · simp only [Bool.false_eq_true, if_false, if_true] at units
        omega
      · exact apart rfl
    simp only [Float64.mag, Float64.signbit] at zero mags apart
    have small := f.bits.toNat_lt
    have other := g.bits.toNat_lt
    simp only [decide_eq_decide] at apart
    omega
  have bits : f.bits.toNat = g.bits.toNat := by
    simp only [Float64.mag, Float64.signbit, decide_eq_decide] at mags signs
    have small := f.bits.toNat_lt
    have other := g.bits.toNat_lt
    omega
  cases f
  cases g
  exact congrArg _ (UInt64.toNat_inj.mp bits)

mutual

theorem eq_of_plainZeros : ∀ {v w : Value}, DeepEqual v w = true → plainZeros v = true →
    plainZeros w = true → v = w := by
  intro v w same left right
  cases v with
  | double f =>
    obtain ⟨g, rfl, bits⟩ := valueEq_double same
    simp only [plainZeros, bne_iff_ne] at left right
    rw [eq_of_float64_eq bits left right]
  | document d =>
    obtain ⟨e, rfl, fields⟩ := valueEq_document same
    rw [eq_of_plainZerosFields fields left right]
  | array _ =>
    obtain ⟨_, rfl, each⟩ := valueEq_array same
    rw [eq_of_plainZerosElems each left right]
  | _ => exact (plainEq_eq same).symm

theorem eq_of_plainZerosFields : ∀ {d e : List (Bytes × Value)}, fieldsEq Float64.eq d e = true →
    plainZerosFields d = true → plainZerosFields e = true → d = e
  | [], _, same, _, _ => (fieldsEq_nil same).symm
  | (key, v) :: rest, e, same, left, right => by
    obtain ⟨w, _, rfl, value, fields⟩ := fieldsEq_cons same
    simp only [plainZerosFields, Bool.and_eq_true] at left right
    rw [eq_of_plainZeros value left.1 right.1, eq_of_plainZerosFields fields left.2 right.2]

theorem eq_of_plainZerosElems : ∀ {elems others : List Value}, elemsEq Float64.eq elems others = true →
    plainZerosElems elems = true → plainZerosElems others = true → elems = others
  | [], _, same, _, _ => (elemsEq_nil same).symm
  | v :: rest, others, same, left, right => by
    obtain ⟨w, others, rfl, value, each⟩ := elemsEq_cons same
    simp only [plainZerosElems, Bool.and_eq_true] at left right
    rw [eq_of_plainZeros value left.1 right.1, eq_of_plainZerosElems each left.2 right.2]

end

def PlainLeaf (v : Option Value) : Prop := ∀ leaf, v = some leaf → plainZeros leaf = true

theorem eq_of_sameField {a b : Option Value} (same : sameField a b = true) (left : PlainLeaf a)
    (right : PlainLeaf b) :
    a = b := by
  cases a <;> cases b
  · rfl
  · cases same
  · cases same
  · rw [eq_of_plainZeros same (left _ rfl) (right _ rfl)]

/-! One leaf in the versions and the result. -/

/-- The merge keeps a change of one side and refuses different changes of both. -/
structure LeafMerge (base left right out : Option Value) : Prop where
  seen : sameField base left = true ∨ sameField base right = true ∨ sameField left right = true
  ofLeft : sameField base left = false → sameField base right = true → out = left
  ofRight : sameField base left = true → sameField base right = false → out = right
  oneOf : out = left ∨ out = right

theorem mergeValue_differ {base left right out : Option Value} (changedLeft : sameField base left = false)
    (changedRight : sameField base right = false) (differ : sameField left right = false)
    (merged : mergeValue base left right = some out) :
    ∃ baseDoc leftDoc rightDoc outDoc, base = some (.document baseDoc) ∧ left = some (.document leftDoc) ∧
      right = some (.document rightDoc) ∧ mergeBSONDoc baseDoc leftDoc rightDoc = some outDoc ∧
        out = some (.document outDoc) := by
  have nested : (nestedMerge base left right).map some = some out := by
    cases base <;> cases left <;> cases right <;>
      simp_all [mergeValue, mergeField, sameField, DeepEqual_comm]
  unfold nestedMerge at nested
  split at nested
  · simp only [Option.map_map, Option.map_eq_some_iff] at nested
    obtain ⟨outDoc, inner, rfl⟩ := nested
    exact ⟨_, _, _, outDoc, rfl, rfl, rfl, inner, rfl⟩
  · cases nested

theorem mergeBSONDoc_leaf {base left right out : Document} (merged : mergeBSONDoc base left right = some out)
    (path : List Bytes) : LeafMerge (leafAt base path) (leafAt left path) (leafAt right path) (leafAt out path) := by
  induction path generalizing base left right out with
  | nil => exact ⟨.inl rfl, fun _ _ => rfl, fun _ _ => rfl, .inl rfl⟩
  | cons key rest ih =>
    have value := get_mergeBSONDoc merged key
    simp only [leafAt_cons]
    generalize base.get key = b at value ⊢
    generalize left.get key = l at value ⊢
    generalize right.get key = r at value ⊢
    generalize out.get key = o at value ⊢
    have leaf {x y : Option Value} (same : sameField x y = true) := sameField_bind_leafOf same rest
    cases keptLeft : sameField b l with
    | true =>
      rw [mergeValue_of_left keptLeft, Option.some.injEq] at value
      subst value
      refine ⟨.inl (leaf keptLeft), fun wrote => (nomatch (leaf keptLeft).symm.trans wrote), ?_, ?_⟩
      · intro _ wrote
        rw [if_neg fun kept => nomatch (leaf kept).symm.trans wrote]
      · split
        · exact .inl rfl
        · exact .inr rfl
    | false =>
      cases keptRight : sameField b r with
      | true =>
        rw [mergeValue_of_right keptRight, Option.some.injEq] at value
        subst value
        exact ⟨.inr (.inl (leaf keptRight)), fun _ _ => rfl,
          fun _ wrote => (nomatch (leaf keptRight).symm.trans wrote), .inl rfl⟩
      | false =>
        cases same : sameField l r with
        | true =>
          rw [mergeValue_of_same keptLeft keptRight same, Option.some.injEq] at value
          subst value
          refine ⟨.inr (.inr (leaf same)), fun _ _ => rfl, ?_, .inl rfl⟩
          intro kept wrote
          exact nomatch (sameField_trans kept (leaf same)).symm.trans wrote
        | false =>
          -- below documents that both sides changed, the next key decides
          obtain ⟨_, _, _, _, rfl, rfl, rfl, inner, rfl⟩ :=
            mergeValue_differ keptLeft keptRight same value
          exact ih inner

/-! Leaves of stored documents. -/

/-- A leaf as it is stored: what lies below an `_id` is not sorted. -/
def storedLeaf (path : List Bytes) (leaf : Value) : Value := if idKey ∈ path then leaf else canonicalValue leaf

theorem leafOf_canonicalValue (path : List Bytes) (v : Value) :
    leafOf path (canonicalValue v) = (leafOf path v).map (storedLeaf path) := by
  induction path generalizing v with
  | nil => cases v <;> simp [canonicalValue, leafOf, storedLeaf]
  | cons key rest ih =>
    cases v with
    | document d =>
      have held := get_canonical d key
      rw [canonical] at held
      simp only [canonicalValue, leafOf, held]
      cases Document.get d key with
      | none => rfl
      | some u =>
        by_cases identity : key = idKey
        · have raw : storedLeaf (key :: rest) = id := by
            funext leaf
            simp [storedLeaf, identity]
          simp [storedValue, if_pos identity, raw]
        · have sorted : storedLeaf (key :: rest) = storedLeaf rest := by
            funext leaf
            simp [storedLeaf, Ne.symm identity]
          simp [storedValue, identity, ih, sorted]
    | _ => simp [canonicalValue, leafOf]

theorem leafAt_canonical (d : Document) (path : List Bytes) :
    leafAt (canonical d) path = (leafAt d path).map (storedLeaf path) := by
  have value := leafOf_canonicalValue path (.document d)
  rwa [canonicalValue] at value

theorem leafAt_canonical_of_stored {out side : Document} {path : List Bytes} (stored : canonical side = side)
    (taken : leafAt out path = leafAt side path) : leafAt (canonical out) path = leafAt side path := by
  rw [leafAt_canonical, taken, ← leafAt_canonical, stored]

def docLeaf (doc : Option Document) (path : List Bytes) : Option Value := doc.bind (leafAt · path)

theorem docLeaf_getD (doc : Option Document) (path : List Bytes) : leafAt (doc.getD []) path = docLeaf doc path := by
  cases doc with
  | none => cases path <;> rfl
  | some d => rfl

/-! One leaf through a step. -/

/-- A leaf that we left alone is theirs, and one that we wrote is ours. -/
structure LeafStep (base ours theirs out : Option Value) : Prop where
  untouched : ours = base → out = theirs
  written : ours ≠ base → out = ours

theorem LeafStep.unmoved {base ours theirs out : Option Value} (step : LeafStep base ours theirs out)
    (same : theirs = base) : out = ours := by
  by_cases kept : ours = base
  · rw [step.untouched kept, same, kept]
  · exact step.written kept

theorem LeafMerge.step {base left right out : Option Value} (merge : LeafMerge base left right out)
    (ofBase : PlainLeaf base) (ofLeft : PlainLeaf left) (ofRight : PlainLeaf right) :
    LeafStep base left right out := by
  constructor
  · rintro rfl
    cases kept : sameField left right with
    | true =>
      obtain rfl := eq_of_sameField kept ofLeft ofRight
      exact merge.oneOf.elim id id
    | false =>
      rcases merge.seen with same | same | same
      · exact merge.ofRight same kept
      · exact nomatch kept.symm.trans same
      · exact nomatch kept.symm.trans same
  · intro wrote
    have changed : sameField base left = false :=
      Bool.eq_false_iff.mpr fun same => wrote (eq_of_sameField same ofBase ofLeft).symm
    rcases merge.seen with same | same | same
    · exact nomatch changed.symm.trans same
    · exact merge.ofLeft changed same
    · obtain rfl := eq_of_sameField same ofLeft ofRight
      exact merge.oneOf.elim id id

/-- The modes under which a write is refused that another one has touched. -/
def MergeMode.Touched (m : MergeMode) : Prop := m = .documentTouched ∨ m = .fieldTouched

theorem MergeMode.Touched.clear {m : MergeMode} (touched : m.Touched) {base left right : Option Document}
    (clear : m.conflicts base left right = false) : MergeMode.conflicts .fieldTouched base left right = false := by
  rcases touched with rfl | rfl
  · rw [Bool.eq_false_iff] at clear ⊢
    exact fun conflict => clear (MergeMode.conflicts_documentTouched conflict)
  · exact clear

theorem once_of_touched {base : Option Document} {left right : Document} {path : List Bytes}
    (clear : MergeMode.conflicts .fieldTouched base (some left) (some right) = false)
    (outside : path.head? ≠ some idKey) : sameField (docLeaf base path) (leafAt left path) = true ∨
      sameField (docLeaf base path) (leafAt right path) = true := by
  rw [← docLeaf_getD]
  cases path with
  | nil => exact .inl rfl
  | cons key rest =>
    have inner := MergeMode.conflicts_fieldTouched clear
    have here := MergeMode.fieldConflicts_eq_false.mp inner key fun root => outside (by simp [root.2])
    exact once_of_clear here rest

theorem rowMergePolicy_clear {mode : MergeMode} {v : RowSides} (clear : rowMergePolicy mode v ≠ .conflict) :
    (v.left = none ∧ v.right = none ∧ ¬mode.Touched ∧ rowMergePolicy mode v = .resolved none) ∨
      ∃ left right out, v.left = some left ∧ v.right = some right ∧
        mode.conflicts v.base (some left) (some right) = false ∧ mergeBSONDoc (v.base.getD []) left right = some out ∧
          rowMergePolicy mode v = .resolved (some (canonical out)) := by
  obtain ⟨base, left, right⟩ := v
  unfold rowMergePolicy at clear ⊢
  cases conflict : mode.conflicts base left right with
  | true => simp [conflict] at clear
  | false =>
    cases left with
    | none =>
      cases right with
      | none =>
        refine .inl ⟨rfl, rfl, ?_, by simp⟩
        rintro (rfl | rfl) <;> cases conflict
      | some right => cases conflict
    | some left =>
      cases right with
      | none => cases conflict
      | some right =>
        cases merged : mergeBSONDoc (base.getD []) left right with
        | none => simp [conflict, tryMergeJSON, merged] at clear
        | some out => exact .inr ⟨left, right, out, rfl, rfl, conflict, merged, by simp [tryMergeJSON, merged]⟩

theorem map_canonical {doc : Option Document} (stored : ∀ d, doc = some d → canonical d = d) :
    doc.map canonical = doc := by
  cases doc with
  | none => rfl
  | some d => rw [Option.map_some, stored d rfl]

theorem alone_leaf {w : ThreeWay} {key : Bytes} (user : w.collection ≠ reservedCatalogName)
    (clear : w.diff key ≠ some .conflict)
    (storedLeft : ∀ doc, (w.sides key).left = some doc → canonical doc = doc)
    (storedRight : ∀ doc, (w.sides key).right = some doc → canonical doc = doc) {path : List Bytes}
    (plainBase : PlainLeaf (docLeaf (w.sides key).base path))
    (plainLeft : PlainLeaf (docLeaf (w.sides key).left path))
    (plainRight : PlainLeaf (docLeaf (w.sides key).right path)) :
    LeafStep (docLeaf (w.sides key).base path) (docLeaf (w.sides key).left path)
        (docLeaf (w.sides key).right path) (docLeaf ((w.alone key).map canonical) path) ∧
      (w.mode.Touched → path.head? ≠ some idKey → docLeaf (w.sides key).left path = docLeaf (w.sides key).base path ∨
        docLeaf (w.sides key).right path = docLeaf (w.sides key).base path) := by
  have report : w.diff key = classify (some w.mode) (w.sides key) := by
    rw [ThreeWay.diff, ThreeWay.policy, if_neg user]
  have keptLeft := map_canonical storedLeft
  have keptRight := map_canonical storedRight
  unfold ThreeWay.alone
  rw [report] at clear ⊢
  generalize w.sides key = v at *
  unfold classify at clear ⊢
  by_cases sameLeft : v.left = v.base
  · by_cases sameRight : v.right = v.base
    · simp only [sameLeft, sameRight, if_true] at keptRight ⊢
      rw [keptRight]
      exact ⟨⟨fun _ => rfl, fun _ => rfl⟩, fun _ _ => .inl trivial⟩
    · simp only [sameLeft, sameRight, if_true, if_false]
      rw [keptRight]
      exact ⟨⟨fun _ => rfl, fun wrote => absurd rfl wrote⟩, fun _ _ => .inl trivial⟩
  · by_cases sameRight : v.right = v.base
    · simp only [sameLeft, sameRight, if_true, if_false]
      rw [keptLeft]
      exact ⟨⟨id, fun _ => rfl⟩, fun _ _ => .inr trivial⟩
    · simp only [sameLeft, sameRight, if_false, ne_eq, Option.some.injEq] at clear ⊢
      rcases rowMergePolicy_clear clear with ⟨noLeft, noRight, coarse, resolved⟩ |
        ⟨left, right, out, hasLeft, hasRight, free, merged, resolved⟩
      · rw [resolved, noLeft, noRight]
        exact ⟨⟨fun _ => rfl, fun _ => rfl⟩, fun touched => absurd touched coarse⟩
      rw [hasLeft] at plainLeft
      rw [hasRight] at plainRight
      have leaf := mergeBSONDoc_leaf merged path
      rw [docLeaf_getD] at leaf
      have stored : leafAt (canonical (canonical out)) path = leafAt out path := by
        rw [canonical_canonical]
        rcases leaf.oneOf with taken | taken
        · rw [leafAt_canonical_of_stored (storedLeft left hasLeft) taken, taken]
        · rw [leafAt_canonical_of_stored (storedRight right hasRight) taken, taken]
      rw [resolved, hasLeft, hasRight]
      refine ⟨?_, fun touched outside => ?_⟩
      · change LeafStep _ (leafAt left path) (leafAt right path) (leafAt (canonical (canonical out)) path)
        rw [stored]
        exact leaf.step plainBase plainLeft plainRight
      · rcases once_of_touched (touched.clear free) outside with same | same
        · exact .inl (eq_of_sameField same plainBase plainLeft).symm
        · exact .inr (eq_of_sameField same plainBase plainRight).symm

theorem captured_clear [Platform] [QueryEnv] [ConflictHash] {w : ThreeWay} {survivors : List IndexMergeSurvivor}
    {c : Capture} (captured : captureConflictsForCollection w survivors = .ok c) (none_ : c.entries = []) :
    table c.merged = w.alone ∧ ∀ key, w.diff key ≠ some .conflict := by
  have swept := Fallible.foldlM_sweep (fun passed c => c.entries = [] →
      table c.merged = w.view false passed ∧ ∀ key ∈ passed, w.diff key ≠ some .conflict)
    (by
      intro passed key _ before _ _ held stepped clear
      have noEntries : before.entries = [] := subset_nil.mp (clear ▸ captureStep_entries stepped)
      obtain ⟨merged, entries⟩ := captureStep_clear stepped (by simp [clear])
      obtain ⟨docs, free⟩ := held noEntries
      have unmarked : w.diff key ≠ some .conflict := by
        intro conflict
        rw [clear] at entries
        simp [staged, conflict] at entries
      refine ⟨?_, ?_⟩
      · rw [merged, staged_merged, docs]
        split
        · exact (view_append).symm
        next still =>
          exact (view_append_untouched (Bool.eq_false_iff.mpr still)).symm
      · intro id member
        rcases mem_append.mp member with early | late
        · exact free id early
        · rw [mem_singleton.mp late]
          exact unmarked)
    captured fun _ => ⟨rfl, by simp⟩
  obtain ⟨docs, free⟩ := swept none_
  refine ⟨docs.trans (view_keys w false), fun key conflict => ?_⟩
  exact free key (ThreeWay.mem_keys_of_changed (by simp [conflict])) conflict

end DumboDB.Dolt
