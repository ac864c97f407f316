import DumboDB.Handler.Reached
import DumboDB.Index.KeyString

/-!
The entries a document contributes to a secondary index: membership, the value of each key
field, and the expansion of the first array among them.
-/

namespace DumboDB.Dolt
open Foundation ByteOrder DumboDB.Types Index Handler

structure IndexKeyPair where
  field : Bytes
  descending : Bool
deriving DecidableEq, Repr

/-- An index and its flags. The comparator is the sort key of the index's collation, absent for
binary comparison. -/
structure IndexInfo where
  name : Bytes
  key : List IndexKeyPair
  unique : Bool
  sparse : Bool
  partialFilterExpression : Option Document
  comparator : Option (Bytes → Bytes)
  hidden : Bool
  lossy : Bool
  multikey : Bool

def indexFieldPresent (doc : Document) (field : Bytes) : Bool :=
  if hasDot field then
    match NewPathFromString field with
    | .error _ => false
    | .ok path => !(FindValues doc path).isEmpty
  else (doc.get field).isSome

def indexFieldValue (doc : Document) (field : Bytes) : Value :=
  if hasDot field then
    match NewPathFromString field with
    | .error _ => .null
    | .ok path =>
      match FindValues doc path with
      | [] => .null
      | [v] => v
      | vals => .array (vals.flatMap elementsOrSelf)
  else (doc.get field).getD .null

def extractIndexFieldValues (doc : Document) (idx : IndexInfo) : List Value :=
  idx.key.map fun kp => indexFieldValue doc kp.field

def sparseExcludes (doc : Document) (idx : IndexInfo) : Bool :=
  idx.sparse && !idx.key.any fun kp => indexFieldPresent doc kp.field

/-- One row for each element of the first array; an empty array counts as undefined. -/
def expandMultiKeyValues : List Value → List (List Value)
  | [] => [[]]
  | .array [] :: rest => [.undefined :: rest]
  | .array elems :: rest => elems.map (· :: rest)
  | v :: rest => (expandMultiKeyValues rest).map (v :: ·)

/-- Strings become their sort keys, which encode as strings do. -/
def collateRowValues (key : Bytes → Bytes) (row : List Value) : List Value :=
  row.map fun
    | .string s => .string (key s)
    | v => v

structure Entries where
  rows : List (List Value)
  multikey : Bool
  lossy : Bool

section
variable [QueryEnv]

/-- Whether the index covers the document; an error of the filter counts as no. -/
def MatchesPartialFilter (idx : IndexInfo) (doc : Document) : Bool :=
  match idx.partialFilterExpression with
  | none => true
  | some filter =>
    match FilterDocument doc filter with
    | .ok true => true
    | _ => false

def indexEntriesForDoc (doc : Document) (idx : IndexInfo) : Entries :=
  if !MatchesPartialFilter idx doc || sparseExcludes doc idx then ⟨[], false, false⟩
  else
    let fieldVals := extractIndexFieldValues doc idx
    let expanded := expandMultiKeyValues fieldVals
    let rows :=
      match idx.comparator with
      | some key => expanded.map (collateRowValues key)
      | none => expanded
    ⟨rows, fieldVals.any isArray, rows.any fun row => row.any ValueLossy⟩

end

section

variable {d : Document} {field : Bytes} (reached : reachedValues d field ≠ [])
include reached

theorem indexFieldPresent_of_reached : indexFieldPresent d field = true := by
  unfold reachedValues at reached
  unfold indexFieldPresent
  split at reached
  next dotted =>
    rw [if_pos dotted]
    cases path : NewPathFromString field with
    | error error => simp [path] at reached
    | ok _ => simpa [path] using reached
  next undotted =>
    rw [if_neg undotted]
    cases held : d.get field with
    | none => simp [held] at reached
    | some v => rfl

theorem elementsOrSelf_indexFieldValue : elementsOrSelf (indexFieldValue d field) = reachedElements d field := by
  unfold reachedElements indexFieldValue
  unfold reachedValues at reached ⊢
  split at reached
  next dotted =>
    rw [if_pos dotted, if_pos dotted]
    cases path : NewPathFromString field with
    | error error => simp [path] at reached
    | ok _ =>
      rw [path] at reached
      dsimp only at reached ⊢
      split
      next none =>
        exact absurd none reached
      next single =>
        rw [single]
        simp
      · rfl
  next undotted =>
    rw [if_neg undotted, if_neg undotted]
    cases held : d.get field with
    | none => simp [held] at reached
    | some v => simp

end

theorem expandMultiKeyValues_single (v : Value) : expandMultiKeyValues [v] =
      if elementsOrSelf v = [] then [[.undefined]] else (elementsOrSelf v).map fun w => [w] := by
  cases v with
  | array elems => cases elems <;> simp [expandMultiKeyValues, elementsOrSelf]
  | _ => simp [expandMultiKeyValues, elementsOrSelf]

section
variable [QueryEnv]

theorem rows_single {d : Document} {idx : IndexInfo} {kp : IndexKeyPair} (key : idx.key = [kp])
    (binary : idx.comparator = none) (covered : MatchesPartialFilter idx d = true)
    (reached : reachedElements d kp.field ≠ []) :
    (indexEntriesForDoc d idx).rows = (reachedElements d kp.field).map fun w => [w] := by
  have values : reachedValues d kp.field ≠ [] := by
    intro none
    rw [reachedElements, none] at reached
    exact reached rfl
  have present : sparseExcludes d idx = false := by
    simp [sparseExcludes, key, indexFieldPresent_of_reached values]
  have elements := elementsOrSelf_indexFieldValue values
  unfold indexEntriesForDoc
  rw [covered, present, binary]
  simp [extractIndexFieldValues, key, expandMultiKeyValues_single, elements, if_neg reached]

end

end DumboDB.Dolt
