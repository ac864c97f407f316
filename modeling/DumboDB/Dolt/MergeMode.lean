import DumboDB.Dolt.Bson

/-!
Merge modes: when two versions of a document conflict over a base, and the field-wise merge of
versions that do not.
-/

namespace DumboDB.Dolt
open Foundation ByteOrder Binary64 DumboDB.Types

/-- Equal values that hold no double, document or array. -/
def plainEq : Value → Value → Bool
  | .string s, .string t => s == t
  | .binary b, .binary c => b == c
  | .undefined, .undefined => true
  | .objectID i, .objectID j => i == j
  | .bool b, .bool c => b == c
  | .date m, .date n => m == n
  | .null, .null => true
  | .regex r, .regex q => r == q
  | .int32 m, .int32 n => m == n
  | .timestamp t, .timestamp u => t == u
  | .int64 m, .int64 n => m == n
  | .decimal128 d, .decimal128 e => d == e
  | .minKey, .minKey => true
  | .maxKey, .maxKey => true
  | _, _ => false

section
variable (floatEq : Float64 → Float64 → Bool)

mutual

/-- Equality of type and content, documents by their fields in order. -/
def valueEq : Value → Value → Bool
  | .double f, w =>
    match w with
    | .double g => floatEq f g
    | _ => false
  | .document d, w =>
    match w with
    | .document e => fieldsEq d e
    | _ => false
  | .array elems, w =>
    match w with
    | .array others => elemsEq elems others
    | _ => false
  | v, w => plainEq v w

def fieldsEq : List (Bytes × Value) → List (Bytes × Value) → Bool
  | [], others => others.isEmpty
  | (key, v) :: rest, others =>
    match others with
    | [] => false
    | (other, w) :: others => key == other && valueEq v w && fieldsEq rest others

def elemsEq : List Value → List Value → Bool
  | [], others => others.isEmpty
  | v :: rest, others =>
    match others with
    | [] => false
    | w :: others => valueEq v w && elemsEq rest others

end

end

/-- `reflect.DeepEqual` on decoded values: NaN differs from itself, the zeros are one. -/
def DeepEqual (v w : Value) : Bool := valueEq Float64.eq v w

/-- `DeepEqual`, but every double is equal to itself. -/
def SameContent (v w : Value) : Bool := valueEq (fun f g => f == g || f.eq g) v w

inductive MergeMode where
  | documentTouched | fieldTouched | fieldDivergent | documentDivergent
deriving DecidableEq, Repr

def DefaultMergeMode : MergeMode := .fieldTouched

def sameField (a b : Option Value) : Bool :=
  match a, b with
  | none, none => true
  | some v, some w => DeepEqual v w
  | _, _ => false

def Keys (d : Document) : List Bytes := d.map Prod.fst

def fieldsEqual (left right : Document) (key : Bytes) : Bool :=
  sameField (left.get key) (right.get key)

/-- The top-level keys where the document differs from the base, `_id` left out. -/
def changedFields (base doc : Option Document) : List Bytes :=
  let changed :=
    match base, doc with
    | none, none => []
    | none, some doc => Keys doc
    | some base, none => Keys base
    | some base, some doc => (Keys base ++ Keys doc).filter fun key => !fieldsEqual base doc key
  changed.filter (· != idKey)

def documentsEqual (left right : Document) : Bool :=
  (Keys left).length == (Keys right).length && (Keys left).all fun key => fieldsEqual left right key

def mergeDocumentKeys (documents : List Document) : List Bytes :=
  (documents.flatMap Keys).dedup.insertionSort fun a b => compare a b ≠ .gt

theorem sizeOf_of_get {d : Document} {key : Bytes} {v : Value} (held : d.get key = some v) : sizeOf v < sizeOf d := by
  have field : sizeOf (key, v) < sizeOf d := List.sizeOf_lt_of_mem (mem_of_get held)
  have parts : sizeOf (key, v) = 1 + sizeOf key + sizeOf v := rfl
  omega

theorem sizeOf_of_get_document {d sub : Document} {key : Bytes}
    (held : d.get key = some (.document sub)) : sizeOf sub < sizeOf d := by
  have smaller := sizeOf_of_get held
  have parts : sizeOf (Value.document sub) = 1 + sizeOf sub := by simp
  omega

namespace MergeMode

/-- Both sides touched a field that is no document on all three, and the mode minds. -/
def fieldClash (m : MergeMode) (base left right : Option Value) : Bool :=
  !sameField base left && !sameField base right && (m == .fieldTouched || !sameField left right)

/-- Only the `_id` of the root is identity; an absent base has no fields. -/
def fieldConflicts (m : MergeMode) (base left right : Document) (root : Bool) : Bool :=
  (mergeDocumentKeys [base, left, right]).any fun key =>
    if root && key == idKey then false
    else
      match _held : base.get key, left.get key, right.get key with
      | some (.document baseDoc), some (.document leftDoc), some (.document rightDoc) =>
        fieldConflicts m baseDoc leftDoc rightDoc false
      | baseValue, leftValue, rightValue => fieldClash m baseValue leftValue rightValue
termination_by sizeOf base
decreasing_by exact sizeOf_of_get_document _held

/-- One three-way decision; an absent document is missing on that side. -/
def conflicts (m : MergeMode) (base left right : Option Document) : Bool :=
  match left, right with
  | none, none => m == .documentTouched || m == .fieldTouched
  | none, some _ => true
  | some _, none => true
  | some l, some r =>
    if (changedFields base left).isEmpty || (changedFields base right).isEmpty then false
    else
      match m with
      | .documentTouched => true
      | .fieldTouched => fieldConflicts .fieldTouched (base.getD []) l r true
      | .fieldDivergent => fieldConflicts .fieldDivergent (base.getD []) l r true
      | .documentDivergent => !documentsEqual l r

end MergeMode

/-- What the merge sets a field to, `none` for a conflict; `nested` is the merge of the values as
documents. -/
def mergeField (base left right : Option Value) (nested : Option Value) : Option (Option Value) :=
  match base, left, right with
  | none, some l, none => some (some l)
  | none, none, some r => some (some r)
  | none, some l, some r => if DeepEqual l r then some (some l) else none
  | some b, some l, none => if DeepEqual l b then some none else none
  | some b, none, some r => if DeepEqual r b then some none else none
  | some b, some l, some r =>
    if DeepEqual l b && DeepEqual r b then some (some l)
    else if DeepEqual l b then some (some r)
    else if DeepEqual r b then some (some l)
    else if DeepEqual l r then some (some l)
    else nested.map some
  | _, none, none => some none

/-- The document of the fields that are set, unless one conflicts. -/
def collectFields (field : Bytes → Option (Option Value)) : List Bytes → Option Document
  | [] => some []
  | key :: keys =>
    match field key, collectFields field keys with
    | some (some v), some rest => some ((key, v) :: rest)
    | some none, some rest => some rest
    | _, _ => none

/-- The merge of two versions over a base, `none` for a conflict. -/
def mergeBSONDoc (base left right : Document) : Option Document :=
  collectFields (fun key =>
    mergeField (base.get key) (left.get key) (right.get key)
      (match _held : base.get key, left.get key, right.get key with
        | some (.document baseDoc), some (.document leftDoc), some (.document rightDoc) =>
          (mergeBSONDoc baseDoc leftDoc rightDoc).map .document
        | _, _, _ => none))
    (mergeDocumentKeys [base, left, right])
termination_by sizeOf base
decreasing_by exact sizeOf_of_get_document _held

end DumboDB.Dolt
