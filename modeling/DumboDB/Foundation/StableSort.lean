import Mathlib.Data.List.Sigma
import Mathlib.Data.List.Sort

/-!
Stable sorting by a comparison: the one order in which elements that compare equal keep their places.
-/

namespace DumboDB.Foundation.StableSort

variable {α : Type} (cmp : α → α → Ordering)

/-- Elements with their positions, by the comparison and then by position. -/
def placed : α × Nat → α × Nat → Ordering := compareLex (fun p q => cmp p.1 q.1) fun p q => compare p.2 q.2

/-- The elements in order, those that compare equal in the order they came in. -/
def IsStableSort (l sorted : List α) : Prop :=
  ∃ tagged : List (α × Nat), tagged.Perm l.zipIdx ∧ tagged.Pairwise (placed cmp · · = .lt) ∧
    tagged.map Prod.fst = sorted

variable {cmp} {l sorted sorted' : List α} {tagged : List (α × Nat)}

/-- Positions that are sorted by what stands there, and then by themselves, give a stable sort. -/
theorem isStableSort_map_fst (perm : tagged.Perm l.zipIdx) (order : tagged.Pairwise (placed cmp · · ≠ .gt)) :
    IsStableSort cmp l (tagged.map Prod.fst) := by
  have distinct : tagged.Pairwise fun p q => p.2 ≠ q.2 :=
    List.pairwise_map.mp ((perm.map _).nodup_iff.mpr (List.nodup_zipIdx_map_snd l))
  refine ⟨tagged, perm, (order.and distinct).imp fun {p q} both => ?_, rfl⟩
  cases same : placed cmp p q with
  | lt => rfl
  | eq => exact absurd (Nat.compare_eq_eq.mp (Ordering.then_eq_eq.mp same).2) both.2
  | gt => exact absurd same both.1

variable (cmp) [Std.TransCmp cmp]

instance transCmp_on {β : Type} (f : β → α) : Std.TransCmp fun a b => cmp (f a) (f b) where
  eq_swap := Std.OrientedCmp.eq_swap
  isLE_trans := Std.TransCmp.isLE_trans

instance : Std.TransCmp (placed cmp) := inferInstanceAs (Std.TransCmp (compareLex _ _))

variable {cmp}

theorem IsStableSort.unique (first : IsStableSort cmp l sorted) (second : IsStableSort cmp l sorted') :
    sorted = sorted' := by
  obtain ⟨_, perm, order, rfl⟩ := first
  obtain ⟨_, perm', order', rfl⟩ := second
  refine congrArg _ (List.Perm.eq_of_pairwise (fun p q _ _ less greater => ?_) order order' (perm.trans perm'.symm))
  exact nomatch (Std.OrientedCmp.gt_of_lt less).symm.trans greater

end DumboDB.Foundation.StableSort
