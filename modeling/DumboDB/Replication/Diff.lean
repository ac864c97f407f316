import DumboDB.Handler.DocumentPath

/-!
Version 2 diffs of the oplog: sections of removed, updated and inserted fields, then diffs of fields
that are documents or arrays themselves.
-/

namespace DumboDB.Replication
open Foundation ByteOrder DumboDB.Types Dolt Handler

def sectionOrder (name : Bytes) : Option Nat :=
  if name = field "d" then some 1
  else if name = field "u" then some 2
  else if name = field "i" then some 3
  else match name with
    | first :: _ :: _ => if first = 115 then some 5 else none
    | _ => none

def isDocumentValue : Value → Bool
  | .document _ => true
  | _ => false

/-- The loop of `validateObjectDiffOrder`, behind a section of the given order. -/
def sectionsInOrder : Nat → Document → Bool
  | _, [] => true
  | previous, (name, value) :: rest =>
    match sectionOrder name with
    | none => false
    | some order =>
      if order < previous ∨ (order = previous ∧ order ≠ 5) then false
      else isDocumentValue value && sectionsInOrder order rest

def validateObjectDiffOrder (diff : Document) : Bool := !diff.isEmpty && sectionsInOrder 0 diff

/-- `d` removes a field, `u` sets it, `i` sets it behind all others. -/
def applySectionField (name key : Bytes) (value : Value) (result : Document) : Document :=
  if name = field "d" then removeField key result
  else if name = field "u" then setField key value result
  else setField key value (removeField key result)

/-- The fields of one section, with the fields that are modified so far. -/
def applySectionFields (name : Bytes) : Document → Document × List Bytes → Option (Document × List Bytes)
  | [], state => some state
  | (key, value) :: rest, (result, modified) =>
    if key ∈ modified then none
    else applySectionFields name rest (applySectionField name key value result, key :: modified)

def applySection (diff : Document) (state : Document × List Bytes) (name : Bytes) : Option (Document × List Bytes) :=
  match diff.get name with
  | none => some state
  | some (.document fields) => applySectionFields name fields state
  | some _ => none

/-- What `ApplyV2Diff` does before it comes to the sub-diffs. -/
def applySections (preImage diff : Document) : Option (Document × List Bytes) :=
  if (diff.get (field "a")).isSome || !validateObjectDiffOrder diff then none
  else [field "d", field "u", field "i"].foldlM (applySection diff) (preImage, [])

def isArrayDiff (diff : Document) : Bool := (diff.get (field "a")).isSome

/-- `strconv.Atoi` of an index that is written as `strconv.Itoa` writes it. -/
def diffIndex (digits : Bytes) : Option Nat :=
  match atoi digits with
  | some (.ofNat i) => if decimal i = digits then some i else none
  | _ => none

/-- `a: true` first, `l` only behind it, and the length that `l` asks for. -/
def arrayDiffLength (preImage : List Value) (diff : Document) : Option Nat :=
  match diff with
  | (name, .bool true) :: rest =>
    if name ≠ field "a" ∨ (rest.drop 1).any (fun entry => entry.1 = field "l") then none
    else match rest with
      | (next, value) :: _ =>
        if next = field "l" then
          match value with
          | .int32 n => if n < 0 then none else some n.toInt.toNat
          | _ => none
        else some preImage.length
      | [] => some preImage.length
  | _ => none

/-- What is modified, then what was there, then null. -/
def arrayElement (preImage : List Value) (modified : List (Nat × Value)) (i : Nat) : Value :=
  match modified.find? fun entry => entry.1 = i with
  | some (_, value) => value
  | none => preImage[i]?.getD .null

def arrayResult (preImage : List Value) (length : Nat) (modified : List (Nat × Value)) : List Value :=
  let reach := (modified.map Prod.fst).foldl (fun n index => max n (index + 1)) length
  (List.range reach).map (arrayElement preImage modified)

/-- `applyArrayDiff`, given how the fields of the diff apply. -/
def arrayDiffWith (diff : Document) (arrays : List Value → List (Nat × Value) → Option (List (Nat × Value)))
    (preImage : List Value) : Option (List Value) := do
  let length ← arrayDiffLength preImage diff
  let modified ← arrays preImage []
  some (arrayResult preImage length modified)

/-- `ApplyV2Diff`, given how its sub-diffs apply. -/
def objectDiffWith (diff : Document) (objects : Document × List Bytes → Option Document) (preImage : Document) :
    Option Document := do
  let state ← applySections preImage diff
  objects state

section

variable (diff : Document) (objects : Document × List Bytes → Option Document)
  (arrays : List Value → List (Nat × Value) → Option (List (Nat × Value)))

/-- A sub-diff on a value: a value of another kind becomes null. -/
def subDiffOn (before : Value) : Option Value :=
  match before, isArrayDiff diff with
  | .array elems, true => (arrayDiffWith diff arrays elems).map .array
  | .document d, false => (objectDiffWith diff objects d).map .document
  | _, _ => some .null

/-- The diff of a field: checked on its own first; a field that is missing stays so. -/
def fieldDiff (before : Option Value) : Option (Option Value) :=
  match diff.get (field "a") with
  | some (.bool true) => do
    let _ ← arrayDiffWith diff arrays []
    before.mapM (subDiffOn diff objects arrays)
  | some _ => none
  | none => do
    let _ ← objectDiffWith diff objects []
    before.mapM (subDiffOn diff objects arrays)

end

mutual

/-- The sub-diffs of an object diff, behind its other sections. -/
def applySubDiffs : Document → Document × List Bytes → Option Document
  | [], (result, _) => some result
  | (name, value) :: rest, (result, modified) =>
    if name = field "d" ∨ name = field "u" ∨ name = field "i" then applySubDiffs rest (result, modified)
    else match value with
      | .document sub =>
        let key := name.drop 1
        if name.head? ≠ some 115 ∨ key = [] ∨ key ∈ modified then none
        else match fieldDiff sub (applySubDiffs sub) (applyArrayFields sub) (result.get key) with
          | none => none
          | some none => applySubDiffs rest (result, key :: modified)
          | some (some updated) => applySubDiffs rest (setField key updated result, key :: modified)
      | _ => none

def applyArrayFields : Document → List Value → List (Nat × Value) → Option (List (Nat × Value))
  | [], _, modified => some modified
  | (name, value) :: rest, preImage, modified =>
    if name = field "a" ∨ name = field "l" then applyArrayFields rest preImage modified
    else match diffIndex (name.drop 1) with
      | none => none
      | some index =>
        if index ∈ modified.map Prod.fst then none
        else if name.head? = some 117 then applyArrayFields rest preImage ((index, value) :: modified)
        else if name.head? = some 115 then
          match value with
          | .document sub =>
            match preImage[index]? with
            | none => applyArrayFields rest preImage ((index, .null) :: modified)
            | some before =>
              match subDiffOn sub (applySubDiffs sub) (applyArrayFields sub) before with
              | none => none
              | some updated => applyArrayFields rest preImage ((index, updated) :: modified)
          | _ => none
        else none

end

def applyArrayDiff (preImage : List Value) (diff : Document) : Option (List Value) :=
  arrayDiffWith diff (applyArrayFields diff) preImage

def ApplyV2Diff (preImage diff : Document) : Option Document := objectDiffWith diff (applySubDiffs diff) preImage

example : ApplyV2Diff [(field "_id", .int32 1), (field "a", .int32 0), (field "b", .array [.int32 1, .int32 2])]
    [(field "u", .document [(field "a", .int32 7)]),
     (field "sb", .document [(field "a", .bool true), (field "u1", .int32 9)])] =
    some [(field "_id", .int32 1), (field "a", .int32 7), (field "b", .array [.int32 1, .int32 9])] := by
  with_unfolding_all rfl

end DumboDB.Replication
