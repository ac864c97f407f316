import Mathlib.Data.Set.Basic
import Mathlib.Logic.Function.Basic

/-!
A set of keys kept beside a table: every row contributes keys, and a key tells which row it
belongs to. The set describes the table when it holds exactly the keys of its rows.
-/

namespace DumboDB.Foundation.OwnedKeys
open Function

/-- The keys of a row under an id. Rows under different ids of the scheme share none. -/
structure KeyScheme (Id Row Key : Type*) where
  ids : Set Id
  keys : Id → Row → Set Key
  apart : ∀ {i j : Id} {r s : Row} {k : Key}, i ∈ ids → j ∈ ids → k ∈ keys i r → k ∈ keys j s → i = j

variable {Id Row Key : Type*} {S : KeyScheme Id Row Key}

def KeyScheme.held (S : KeyScheme Id Row Key) (i : Id) (row : Option Row) : Set Key :=
  {k | ∃ r, row = some r ∧ k ∈ S.keys i r}

@[simp] theorem held_none (i : Id) : S.held i none = ∅ := by simp [KeyScheme.held]

@[simp] theorem held_some (i : Id) (r : Row) : S.held i (some r) = S.keys i r := by simp [KeyScheme.held]

/-- The set holds exactly the keys of the table's rows. -/
structure Describes (S : KeyScheme Id Row Key) (table : Id → Option Row) (entries : Set Key) : Prop where
  inside : ∀ i r, table i = some r → i ∈ S.ids
  exact_ : ∀ k, k ∈ entries ↔ ∃ i, k ∈ S.held i (table i)

theorem Describes.congr {table other : Id → Option Row} {entries keys : Set Key}
    (described : Describes S table entries) (rows : ∀ i, table i = other i)
    (same : ∀ k, k ∈ entries ↔ k ∈ keys) : Describes S other keys := by
  obtain rfl : table = other := funext rows
  obtain rfl : entries = keys := Set.ext same
  exact described

theorem Describes.replace [DecidableEq Id] {table : Id → Option Row} {entries after : Set Key}
    (described : Describes S table entries) {i : Id} (row : Option Row) (known : i ∈ S.ids)
    (moved : ∀ k, k ∈ after ↔ (k ∈ entries ∧ k ∉ S.held i (table i)) ∨ k ∈ S.held i row) :
    Describes S (update table i row) after := by
  refine ⟨?_, ?_⟩
  · intro j r present
    by_cases here : j = i
    · exact here ▸ known
    · rw [update_of_ne here] at present
      exact described.inside j r present
  · intro k
    rw [moved, described.exact_]
    constructor
    · rintro (⟨⟨j, other⟩, left⟩ | new)
      · have elsewhere : j ≠ i := fun here => left (here ▸ other)
        exact ⟨j, by rwa [update_of_ne elsewhere]⟩
      · exact ⟨i, by rwa [update_self]⟩
    · rintro ⟨j, present⟩
      by_cases here : j = i
      · subst here
        rw [update_self] at present
        exact .inr present
      · rw [update_of_ne here] at present
        refine .inl ⟨⟨j, present⟩, ?_⟩
        -- a key of two rows would belong to both ids
        rintro ⟨r, _, key⟩
        obtain ⟨s, other, same⟩ := present
        exact here (S.apart (described.inside j s other) known same key)

end DumboDB.Foundation.OwnedKeys
