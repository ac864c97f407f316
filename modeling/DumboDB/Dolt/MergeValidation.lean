import DumboDB.Dolt.MergeCapture

/-!
Validation of merged documents against the collection's validator, and how a conflict is found by
its id.
-/

namespace DumboDB.Dolt
open Foundation ByteOrder DumboDB.Types Handler

/-- The part of a collection's metadata that governs validation. -/
structure CollValidation where
  validator : Option Document
  off : Bool
  warn : Bool

class ValidatorMatcher where
  satisfies : Document → Document → Except FilterError Bool

/-- A document that differs between two versions of a collection. -/
structure CollChange where
  key : Bytes
  from_ : Option Document
  to_ : Option Document

def forEachCollectionChange (fromMap toMap : Std.TreeMap Bytes Document) : List CollChange :=
  (Std.TreeSet.ofList (fromMap.keys ++ toMap.keys)).toList.filterMap fun key =>
    if fromMap[key]? = toMap[key]? then none else some ⟨key, fromMap[key]?, toMap[key]?⟩

section
variable [ConflictHash]

/-- The offending document is carried as ours, the validator as the reason. -/
def newValidationConflict (collection theirHash : Bytes) (c : CollChange) (mergedDoc validator : Document) :
    ConflictEntry where
  id := conflictID collection c.key theirHash
  typ := .validation
  rawKey := c.key
  oursKey := none
  base := none
  ours := some mergedDoc
  theirs := none
  ourDiffType := if c.from_.isSome then .modified else .added
  theirDiffType := none
  reasonCode := .documentValidationFailure
  reasonIndex := none
  reasonKey := some validator
  resolved := false

variable [ValidatorMatcher]

/-- One change. The first pass leaves documents in conflict alone. -/
def validateChange (collection theirHash : Bytes) (validator : Document) (warn recheck : Bool)
    (existing found : List ConflictEntry) (c : CollChange) : Except FilterError (List ConflictEntry) :=
  match c.to_ with
  | none => .ok found
  | some mergedDoc =>
    if !recheck && existing.any fun e => e.rawKey == c.key then .ok found
    else
      (ValidatorMatcher.satisfies mergedDoc validator).map fun conforms =>
        let entry := newValidationConflict collection theirHash c mergedDoc validator
        if conforms || warn || existing.any fun e => e.id == entry.id then found else found ++ [entry]

/-- Whether a pass looks at a collection, whose metadata may be in conflict, resolved or not: the
first pass leaves open ones for later, the recheck is for those resolved since. -/
def passLooksAt (recheck : Bool) (metaConflict : Option Bool) : Bool :=
  if recheck then metaConflict == some true else metaConflict != some false

/-- The conflicts of one collection with those of its validator. -/
def crossValidateMergedDocuments (collection theirHash : Bytes) (coll : CollValidation)
    (metaConflict : Option Bool) (mergedMap baseMap : Std.TreeMap Bytes Document) (recheck : Bool)
    (existing : List ConflictEntry) : Except FilterError (List ConflictEntry) :=
  match passLooksAt recheck metaConflict, coll.validator with
  | true, some validator =>
    if coll.off then .ok existing
    else
      ((forEachCollectionChange baseMap mergedMap).foldlM
        (validateChange collection theirHash validator coll.warn recheck existing) []).map
          fun found => existing ++ found
  | _, _ => .ok existing

end

/-! The target of a resolution. -/

inductive TargetError where
  | notFound | alreadyResolved
deriving DecidableEq, Repr

def findTarget (entries : List ConflictEntry) (id : Bytes) : Except TargetError ConflictEntry :=
  match entries.find? fun e => e.id == id with
  | none => .error .notFound
  | some target => if target.resolved then .error .alreadyResolved else .ok target

def markResolved (id : Bytes) : List ConflictEntry → List ConflictEntry
  | [] => []
  | e :: rest => if e.id = id then { e with resolved := true } :: rest else e :: markResolved id rest

/-- The list after a resolution by id that succeeds otherwise. -/
def resolveByID (entries : List ConflictEntry) (id : Bytes) : Except TargetError (List ConflictEntry) :=
  (findTarget entries id).map fun _ => markResolved id entries

def hasUnresolvedConflicts (entries : List ConflictEntry) : Bool := entries.any fun e => !e.resolved

end DumboDB.Dolt
