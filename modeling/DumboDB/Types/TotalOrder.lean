import DumboDB.Types.ScalarOrder

/-!
`CompareOrder` is a total preorder of all BSON values, nested documents and arrays included.
-/

namespace DumboDB.Types
open Foundation ByteOrder Binary64 Std

theorem compareTypeOrder_swap (a b : Value) : compareTypeOrder a b = (compareTypeOrder b a).swap :=
  @OrientedCmp.eq_swap _ compare _ _ _

theorem compareTypeOrder_chain (a b c : Value) :
    Chain (compareTypeOrder a b) (compareTypeOrder b c) (compareTypeOrder a c) :=
  Chain.of_transCmp compare _ _ _

theorem isScalar_iff_dataType {v : Value} :
    isScalar v = true ↔ detectDataType v ≠ .document ∧ detectDataType v ≠ .array := by
  cases v <;> simp [isScalar, detectDataType] <;> split <;> simp

variable {a b : Value}

theorem isScalar_congr (same : detectDataType a = detectDataType b) (scalar : isScalar a) : isScalar b := by
  rw [isScalar_iff_dataType] at scalar ⊢
  rwa [← same]

theorem Compare_of_isScalar (scalar : isScalar a) (b : Value) : Compare a b = compareScalars a b := by
  cases a <;> first | (simp [isScalar] at scalar; done) | simp [Compare]

theorem Compare_scalar (scalar : isScalar a) (same : detectDataType a = detectDataType b) :
    Compare a b = (scalarKey a).cmp (scalarKey b) := by
  rw [Compare_of_isScalar scalar, compareScalars_eq scalar (isScalar_congr same scalar),
    compareTypeOrder_eq_iff.mpr same]
  rfl

theorem document_of_dataType {v : Value} (type : detectDataType v = .document) : ∃ fields, v = .document fields := by
  cases v <;> simp [detectDataType] at type ⊢ <;> split at type <;> simp at type

theorem array_of_dataType {v : Value} (type : detectDataType v = .array) : ∃ elems, v = .array elems := by
  cases v <;> simp [detectDataType] at type ⊢ <;> split at type <;> simp at type

private theorem Compare_swap_scalar (scalar : isScalar a)
    (same : detectDataType a = detectDataType b) : Compare a b = (Compare b a).swap := by
  rw [Compare_scalar scalar same, Compare_scalar (isScalar_congr same scalar) same.symm]
  exact ScalarKey.cmp_swap _ _

mutual

theorem Compare_swap (a b : Value) (same : detectDataType a = detectDataType b) :
    Compare a b = (Compare b a).swap := by
  cases a with
  | document f =>
    obtain ⟨g, rfl⟩ := document_of_dataType same.symm
    simpa only [Compare] using compareDocuments_swap f g
  | array f =>
    obtain ⟨g, rfl⟩ := array_of_dataType same.symm
    simpa only [Compare] using compareArrays_swap f g
  | _ => exact Compare_swap_scalar rfl same

theorem compareDocuments_swap : ∀ (a b : List (Bytes × Value)),
    compareDocuments a b = (compareDocuments b a).swap
  | [], []
  | [], _ :: _
  | _ :: _, [] => by simp [compareDocuments]
  | (aKey, aValue) :: a, (bKey, bValue) :: b => by
    simp only [compareDocuments]
    refine then_swap (compareTypeOrder_swap _ _) fun same => ?_
    refine then_swap OrientedCmp.eq_swap fun _ => ?_
    refine then_swap (Compare_swap aValue bValue (compareTypeOrder_eq_iff.mp same)) fun _ => ?_
    exact compareDocuments_swap a b

theorem compareArrays_swap : ∀ (as bs : List Value), compareArrays as bs = (compareArrays bs as).swap
  | [], []
  | [], _ :: _
  | _ :: _, [] => by simp [compareArrays]
  | a :: as, b :: bs => by
    simp only [compareArrays]
    refine then_swap ?_ fun _ => compareArrays_swap as bs
    exact then_swap (compareTypeOrder_swap _ _) fun same =>
      Compare_swap a b (compareTypeOrder_eq_iff.mp same)

end

theorem CompareOrder_swap (a b : Value) : CompareOrder a b = (CompareOrder b a).swap :=
  then_swap (compareTypeOrder_swap a b) fun same => Compare_swap a b (compareTypeOrder_eq_iff.mp same)

private theorem Compare_chain_scalar {c : Value} (scalar : isScalar a)
    (same : detectDataType a = detectDataType b) (same' : detectDataType b = detectDataType c) :
    Chain (Compare a b) (Compare b c) (Compare a c) := by
  rw [Compare_scalar scalar same, Compare_scalar (isScalar_congr same scalar) same',
    Compare_scalar scalar (same.trans same')]
  exact ScalarKey.chain _ _ _

mutual

theorem Compare_chain (a b c : Value) (same : detectDataType a = detectDataType b)
    (same' : detectDataType b = detectDataType c) : Chain (Compare a b) (Compare b c) (Compare a c) := by
  cases a with
  | document f =>
    obtain ⟨g, rfl⟩ := document_of_dataType same.symm
    obtain ⟨h, rfl⟩ := document_of_dataType same'.symm
    simpa only [Compare] using compareDocuments_chain f g h
  | array f =>
    obtain ⟨g, rfl⟩ := array_of_dataType same.symm
    obtain ⟨h, rfl⟩ := array_of_dataType same'.symm
    simpa only [Compare] using compareArrays_chain f g h
  | _ => exact Compare_chain_scalar rfl same same'

theorem compareDocuments_chain : ∀ (a b c : List (Bytes × Value)),
    Chain (compareDocuments a b) (compareDocuments b c) (compareDocuments a c)
  | [], [], _ => by intro _ _; simp [compareDocuments]
  | [], _ :: _, [] => by intro _ second; simp [compareDocuments] at second
  | [], _ :: _, _ :: _ => by intro _ _; simp [compareDocuments]
  | _ :: _, [], _ => by intro first; simp [compareDocuments] at first
  | _ :: _, _ :: _, [] => by intro _ second; simp [compareDocuments] at second
  | (aKey, aValue) :: a, (bKey, bValue) :: b, (cKey, cValue) :: c => by
    simp only [compareDocuments]
    refine (compareTypeOrder_chain _ _ _).then fun same same' => ?_
    refine (Chain.of_transCmp compare _ _ _).then fun _ _ => ?_
    refine Chain.then ?_ fun _ _ => compareDocuments_chain a b c
    exact Compare_chain aValue bValue cValue (compareTypeOrder_eq_iff.mp same) (compareTypeOrder_eq_iff.mp same')

theorem compareArrays_chain : ∀ (as bs cs : List Value),
    Chain (compareArrays as bs) (compareArrays bs cs) (compareArrays as cs)
  | [], [], _ => by intro _ _; simp [compareArrays]
  | [], _ :: _, [] => by intro _ second; simp [compareArrays] at second
  | [], _ :: _, _ :: _ => by intro _ _; simp [compareArrays]
  | _ :: _, [], _ => by intro first; simp [compareArrays] at first
  | _ :: _, _ :: _, [] => by intro _ second; simp [compareArrays] at second
  | a :: as, b :: bs, c :: cs => by
    simp only [compareArrays]
    refine Chain.then ?_ fun _ _ => compareArrays_chain as bs cs
    exact (compareTypeOrder_chain _ _ _).then fun same same' =>
      Compare_chain a b c (compareTypeOrder_eq_iff.mp same) (compareTypeOrder_eq_iff.mp same')

end

theorem CompareOrder_chain (a b c : Value) : Chain (CompareOrder a b) (CompareOrder b c) (CompareOrder a c) :=
  (compareTypeOrder_chain a b c).then fun same same' =>
    Compare_chain a b c (compareTypeOrder_eq_iff.mp same) (compareTypeOrder_eq_iff.mp same')

instance : Std.TransCmp CompareOrder := transCmp_of_chain CompareOrder_swap CompareOrder_chain

theorem CompareOrder_eq_iff : CompareOrder a b = .eq ↔ detectDataType a = detectDataType b ∧ Compare a b = .eq := by
  rw [CompareOrder, Ordering.then_eq_eq, compareTypeOrder_eq_iff]

theorem CompareOrder_of_dataType (same : detectDataType a = detectDataType b) : CompareOrder a b = Compare a b := by
  rw [CompareOrder, compareTypeOrder_eq_iff.mpr same]
  rfl

theorem arrayMin_eq (first : Value) (rest : List Value) : arrayMin first rest = least CompareOrder first rest := rfl

theorem arrayMax_eq (first : Value) (rest : List Value) :
    arrayMax first rest = least (fun a b => CompareOrder b a) first rest := by
  have flipped (a b : Value) : CompareOrder a b = .lt ↔ CompareOrder b a = .gt :=
    OrientedCmp.gt_iff_lt.symm
  simp only [arrayMax, least, flipped]

theorem Compare_string (s t : Bytes) : Compare (.string s) (.string t) = compare s t :=
  Compare_of_isScalar rfl _

theorem Compare_objectID (s t : ObjectID) : Compare (.objectID s) (.objectID t) = compare s.bytes t.bytes :=
  Compare_of_isScalar rfl _

theorem Compare_timestamp (s t : UInt64) : Compare (.timestamp s) (.timestamp t) = compare s t :=
  Compare_of_isScalar rfl _

theorem Compare_date (s t : Int64) : Compare (.date s) (.date t) = compare s t :=
  Compare_of_isScalar rfl _

end DumboDB.Types
