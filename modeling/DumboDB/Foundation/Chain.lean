import Mathlib.Order.Compare
import Mathlib.Order.Lattice

/-!
Three-way comparisons that compose: in a total preorder two weak steps determine the third
comparison, and lexicographic combination keeps that.
-/

namespace DumboDB.Foundation
open List

/-- Two weak steps `o₁`, `o₂` determine the comparison `o₃` of the ends. -/
def Chain (o₁ o₂ o₃ : Ordering) : Prop := o₁ ≠ .gt → o₂ ≠ .gt → o₃ = o₁.then o₂

theorem Chain.of_transCmp {α : Type} (cmp : α → α → Ordering) [Std.TransCmp cmp] (a b c : α) :
    Chain (cmp a b) (cmp b c) (cmp a c) := by
  intro first second
  cases ab : cmp a b with
  | gt => exact absurd ab first
  | eq =>
    cases bc : cmp b c with
    | gt => exact absurd bc second
    | eq => exact Std.TransCmp.eq_trans ab bc
    | lt => exact Std.TransCmp.lt_of_eq_of_lt ab bc
  | lt =>
    cases bc : cmp b c with
    | gt => exact absurd bc second
    | eq => exact Std.TransCmp.lt_of_lt_of_eq ab bc
    | lt => exact Std.TransCmp.lt_trans ab bc

theorem Chain.then {o₁ o₂ o₃ p₁ p₂ p₃ : Ordering} (head : Chain o₁ o₂ o₃)
    (tail : o₁ = .eq → o₂ = .eq → Chain p₁ p₂ p₃) : Chain (o₁.then p₁) (o₂.then p₂) (o₃.then p₃) := by
  intro first second
  cases o₁ with
  | gt => simp at first
  | lt =>
    cases o₂ with
    | gt => simp at second
    | lt
    | eq => rw [head (by decide) (by decide)]; rfl
  | eq =>
    cases o₂ with
    | gt => simp at second
    | lt =>
      rw [head (by decide) (by decide)]
      cases p₁ with
      | gt => simp at first
      | lt => rfl
      | eq => rfl
    | eq =>
      rw [head (by decide) (by decide)]
      exact tail rfl rfl (by simpa using first) (by simpa using second)

theorem then_swap {o₁ o₂ p₁ p₂ : Ordering} (head : o₁ = o₂.swap) (tail : o₁ = .eq → p₁ = p₂.swap) :
    o₁.then p₁ = (o₂.then p₂).swap := by
  subst head
  cases o₂ with
  | eq => exact tail rfl
  | lt => rfl
  | gt => rfl

theorem transCmp_of_chain {α : Type} {cmp : α → α → Ordering}
    (swap : ∀ a b, cmp a b = (cmp b a).swap) (chain : ∀ a b c, Chain (cmp a b) (cmp b c) (cmp a c)) :
    Std.TransCmp cmp where
  eq_swap := swap _ _
  isLE_trans {a b c} ab bc := by
    rw [chain a b c (by rintro h; simp [h] at ab) (by rintro h; simp [h] at bc)]
    cases first : cmp a b with
    | gt => simp [first] at ab
    | eq => simpa using bc
    | lt => rfl

theorem compare_embed {α β : Type} [LT α] [LE α] [Ord α] [Std.LawfulOrderOrd α] [Std.LawfulOrderLT α]
    [Std.LawfulEqOrd α] [LinearOrder β] (f : α → β) (mono : ∀ a b, a < b → f a < f b) (a b : α) :
    compare a b = compare (f a) (f b) := by
  cases order : compare a b with
  | lt => exact (compare_lt_iff_lt.mpr (mono a b (Std.compare_eq_lt.mp order))).symm
  | eq => rw [Std.compare_eq_iff_eq.mp order, compare_eq_iff_eq.mpr rfl]
  | gt => exact (compare_gt_iff_gt.mpr (mono b a (Std.compare_eq_gt.mp order))).symm

theorem compare_eq_compare_iff {α : Type} [LinearOrder α] {a b c d : α} :
    compare a b = compare c d ↔ (a < b ↔ c < d) ∧ (a = b ↔ c = d) := by
  rw [← compare_lt_iff_lt (a := a), ← compare_lt_iff_lt (a := c), ← compare_eq_iff_eq (a := a),
    ← compare_eq_iff_eq (a := c)]
  cases compare a b <;> cases compare c d <;> decide

/-! The first smallest of a nonempty list. -/

section
variable {α : Type} (cmp : α → α → Ordering)

def least (first : α) (rest : List α) : α :=
  rest.foldl (fun best x => if cmp best x = .gt then x else best) first

theorem least_cons (first x : α) (rest : List α) :
    least cmp first (x :: rest) = least cmp (if cmp first x = .gt then x else first) rest := rfl

theorem least_mem (first : α) (rest : List α) : least cmp first rest ∈ first :: rest := by
  induction rest generalizing first with
  | nil => simp [least]
  | cons x rest ih =>
    rw [least_cons]
    split
    · exact mem_cons_of_mem _ (ih x)
    · rcases mem_cons.mp (ih first) with here | later
      · simp [here]
      · exact mem_cons_of_mem _ (mem_cons_of_mem _ later)

variable [Std.TransCmp cmp]

variable {cmp} in
theorem le_trans_of_transCmp {a b c : α} (first : cmp a b ≠ .gt) (second : cmp b c ≠ .gt) : cmp a c ≠ .gt := by
  rw [Chain.of_transCmp cmp a b c first second]
  cases ab : cmp a b <;> simp_all

theorem least_le (first : α) (rest : List α) {x : α} (member : x ∈ first :: rest) :
    cmp (least cmp first rest) x ≠ .gt := by
  induction rest generalizing first x with
  | nil =>
    cases mem_singleton.mp member
    simp [least, Std.ReflCmp.compare_self]
  | cons y rest ih =>
    rw [least_cons]
    -- the new candidate is below both the old one and the element just read
    have best := ih (if cmp first y = .gt then y else first) mem_cons_self
    by_cases lower : cmp first y = .gt
    · rw [if_pos lower] at best ⊢
      rcases mem_cons.mp member with rfl | later
      · have above : cmp y x ≠ .gt := by
          rw [Std.OrientedCmp.gt_iff_lt] at lower
          simp [lower]
        exact le_trans_of_transCmp best above
      · exact ih y later
    · rw [if_neg lower] at best ⊢
      rcases mem_cons.mp member with rfl | later
      · exact best
      · rcases mem_cons.mp later with rfl | last
        · exact le_trans_of_transCmp best lower
        · exact ih first (mem_cons_of_mem _ last)

theorem least_lt_iff (first : α) (rest : List α) (c : α) :
    cmp (least cmp first rest) c = .lt ↔ ∃ x ∈ first :: rest, cmp x c = .lt := by
  refine ⟨fun less => ⟨_, least_mem cmp first rest, less⟩, ?_⟩
  rintro ⟨x, member, less⟩
  have below := least_le cmp first rest member
  rw [Chain.of_transCmp cmp _ x c below (by simp [less]), less]
  cases order : cmp (least cmp first rest) x <;> simp_all

theorem least_le_iff (first : α) (rest : List α) (c : α) :
    cmp (least cmp first rest) c ≠ .gt ↔ ∃ x ∈ first :: rest, cmp x c ≠ .gt := by
  refine ⟨fun less => ⟨_, least_mem cmp first rest, less⟩, ?_⟩
  rintro ⟨x, member, le⟩
  exact le_trans_of_transCmp (least_le cmp first rest member) le

end

end DumboDB.Foundation
