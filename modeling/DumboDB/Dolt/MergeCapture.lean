import DumboDB.Dolt.Collection
import DumboDB.Dolt.ContentEquality

/-!
The merge of one collection: which indexes survive and from which side they start, the edits that
the three-way differ reports key by key, the indexes that follow them, and the documents that are
evicted over a unique key.
-/

namespace DumboDB.Dolt
open Foundation ByteOrder DumboDB.Types Index Handler

inductive MergeError where
  | redefinedOnBoth (index : Bytes)
  | droppedAndRedefined (index : Bytes)
  | evictionDidNotConverge
  | collisionAgainstMissing

/-! Index definitions. -/

/-- Whether the collations of two indexes have one identity. -/
class CollationIdentity where
  same : IndexInfo → IndexInfo → Bool

section
variable [CollationIdentity]

/-- The definitions only: neither content nor the flags count. -/
def indexSpecEqual (a b : IndexInfo) : Bool :=
  a.name == b.name && a.unique == b.unique && a.sparse == b.sparse && a.hidden == b.hidden &&
    CollationIdentity.same a b && a.key == b.key &&
    a.partialFilterExpression.map (bsonValue <| .document ·) == b.partialFilterExpression.map
      (bsonValue <| .document ·)

/-- A surviving index as the side had it from which it starts. -/
structure Seed where
  entry : SecondaryIndex
  seedLeft : Bool

def specAltered (side : SecondaryIndex) : Option SecondaryIndex → Bool
  | none => true
  | some base => !indexSpecEqual side.info base.info

/-- A definition change beats an untouched side; competing ones are an error. -/
def reconcileIndex (name : Bytes) (into fromEntry base : Option SecondaryIndex) :
    Except MergeError (Option Seed) :=
  match into, fromEntry with
  | some into, some fromEntry =>
    if indexSpecEqual into.info fromEntry.info then .ok (some ⟨fromEntry, false⟩)
    else if specAltered into base && !specAltered fromEntry base then .ok (some ⟨into, true⟩)
    else if specAltered fromEntry base && !specAltered into base then .ok (some ⟨fromEntry, false⟩)
    else .error (.redefinedOnBoth name)
  | some into, none =>
    if base.isNone then .ok (some ⟨into, true⟩)
    else if specAltered into base then .error (.droppedAndRedefined name)
    else .ok none
  | none, some fromEntry =>
    if base.isNone then .ok (some ⟨fromEntry, false⟩)
    else if specAltered fromEntry base then .error (.droppedAndRedefined name)
    else .ok none
  | none, none => .ok none

def IndexSet.find (set : IndexSet) (name : Bytes) : Option SecondaryIndex :=
  set.list.find? fun s => s.info.name == name

def reconcileIndexSets (intoSet fromSet baseSet : IndexSet) : Except MergeError (List Seed) :=
  let names := (intoSet.list ++ fromSet.list ++ baseSet.list).map fun s => s.info.name
  let ordered := (Std.TreeSet.ofList names).toList
  (ordered.mapM fun name => reconcileIndex name (intoSet.find name) (fromSet.find name) (baseSet.find name)).map
    fun seeds => seeds.filterMap id

end

structure PendingOwner where
  id : Bytes
  ours : Bool

/-- A surviving index while the edits pass: its map as it is now and as it was at the start, who
claimed a key so far, and which entries have left. -/
structure IndexMergeSurvivor where
  index : SecondaryIndex
  seedMap : Std.TreeSet Bytes
  seedLeft : Bool
  pending : Std.TreeMap Bytes PendingOwner
  removed : Std.TreeSet Bytes

def openSurvivor (seed : Seed) : IndexMergeSurvivor :=
  ⟨seed.entry, seed.entry.entries, seed.seedLeft, ∅, ∅⟩

def openSurvivors (seeds : List Seed) : List IndexMergeSurvivor := seeds.map openSurvivor

section
variable [Platform]

def releaseClaim (id : Bytes) (pending : Std.TreeMap Bytes PendingOwner) (row : List Value) :
    Std.TreeMap Bytes PendingOwner :=
  match pending[(EqualityProbeBounds row).1]? with
  | some owner => if owner.id = id then pending.erase (EqualityProbeBounds row).1 else pending
  | none => pending

def addClaim (owner : PendingOwner) (pending : Std.TreeMap Bytes PendingOwner) (row : List Value) :
    Std.TreeMap Bytes PendingOwner :=
  pending.insert (EqualityProbeBounds row).1 owner

namespace IndexMergeSurvivor

/-- The other document that has the key of a row: the last claim of the merge, or else an entry of
the seed that has not left. -/
def rowCollision (s : IndexMergeSurvivor) (idBytes : Bytes) (row : List Value) : Option PendingOwner :=
  match s.pending[(EqualityProbeBounds row).1]? with
  | some owner => if owner.id = idBytes then none else some owner
  | none =>
    let (start, stop) := EqualityProbeBounds row
    let live := (RangeLookupCapped s.seedMap start stop 4).find? fun id =>
      id != idBytes && !s.removed.contains (BuildSecondaryKey row id)
    live.map fun id => ⟨id, s.seedLeft⟩

variable [QueryEnv]

def deleteDoc (s : IndexMergeSurvivor) (doc : Option Document) (idBytes : Bytes) : IndexMergeSurvivor :=
  match doc with
  | none => s
  | some doc =>
    let rows := (indexEntriesForDoc doc s.index.info).rows
    if s.index.info.unique then
      { s with
        index := deleteEntries s.index idBytes doc
        pending := rows.foldl (releaseClaim idBytes) s.pending
        removed := putAll s.removed (entryKeysForRows rows idBytes) }
    else { s with index := deleteEntries s.index idBytes doc }

def insertDoc (s : IndexMergeSurvivor) (doc : Option Document) (idBytes : Bytes) (ours : Bool) :
    IndexMergeSurvivor :=
  match doc with
  | none => s
  | some doc =>
    let rows := (indexEntriesForDoc doc s.index.info).rows
    if s.index.info.unique then
      { s with
        index := insertEntries s.index idBytes doc
        pending := rows.foldl (addClaim ⟨idBytes, ours⟩) s.pending }
    else { s with index := insertEntries s.index idBytes doc }

/-- An index with lossy entries is not enforced here. -/
def uniqueCollision (s : IndexMergeSurvivor) (doc : Document) (idBytes : Bytes) : Option PendingOwner :=
  if s.index.info.unique then
    let e := indexEntriesForDoc doc s.index.info
    if e.lossy || s.index.info.lossy then none else e.rows.findSome? (s.rowCollision idBytes)
  else none

end IndexMergeSurvivor

end

inductive MergeEditKind where
  | leftChange | rightChange | resolved | keepOurs
deriving DecidableEq, Repr

structure MergeDocEdit where
  kind : MergeEditKind
  base : Option Document
  left : Option Document
  right : Option Document
  merged : Option Document

namespace MergeDocEdit

/-- The old and the new document for a survivor, none when its seed has the edit already. -/
def perSurvivor (e : MergeDocEdit) (s : IndexMergeSurvivor) : Option (Option Document × Option Document) :=
  match e.kind, s.seedLeft with
  | .leftChange, true => none
  | .leftChange, false => some (e.base, e.left)
  | .rightChange, true => some (e.base, e.right)
  | .rightChange, false => none
  | .resolved, true => some (e.left, e.merged)
  | .resolved, false => some (e.right, e.merged)
  | .keepOurs, true => none
  | .keepOurs, false => some (e.right, e.left)

def incomingOurs (e : MergeDocEdit) : Bool := e.kind != .rightChange

end MergeDocEdit

structure MergeLoser where
  id : Bytes
  winnerID : Bytes
  incoming : Bool
  index : Bytes
  key : Document

def indexKeyDoc (doc : Document) (idx : IndexInfo) : Document := indexDupKey doc idx

section
variable [Platform] [QueryEnv]

/-- The collision of an edit with a survivor: ours wins, then the earlier claim. -/
def survivorLoser (edit : MergeDocEdit) (idBytes : Bytes) (s : IndexMergeSurvivor) : Option MergeLoser :=
  match edit.perSurvivor s with
  | some (_, some newDoc) =>
    (s.uniqueCollision newDoc idBytes).map fun owner =>
      let keyDoc := indexKeyDoc newDoc s.index.info
      if edit.incomingOurs && !owner.ours then ⟨owner.id, idBytes, false, s.index.info.name, keyDoc⟩
      else ⟨idBytes, owner.id, true, s.index.info.name, keyDoc⟩
  | _ => none

def applyToSurvivor (edit : MergeDocEdit) (idBytes : Bytes) (s : IndexMergeSurvivor) : IndexMergeSurvivor :=
  match edit.perSurvivor s with
  | some (oldDoc, newDoc) => (s.deleteDoc oldDoc idBytes).insertDoc newDoc idBytes edit.incomingOurs
  | none => s

/-- The edit on every survivor, or the loser of the first collision. -/
def applyEdit (survivors : List IndexMergeSurvivor) (edit : MergeDocEdit) (idBytes : Bytes) :
    Except MergeLoser (List IndexMergeSurvivor) :=
  match survivors.findSome? (survivorLoser edit idBytes) with
  | some loser => .error loser
  | none => .ok (survivors.map (applyToSurvivor edit idBytes))

def removeDocEverywhere (survivors : List IndexMergeSurvivor) (doc : Document) (idBytes : Bytes) :
    List IndexMergeSurvivor :=
  survivors.map fun s => s.deleteDoc (some doc) idBytes

end

inductive ConflictType where
  | documentEdit | uniqueKeyCollision | validation
deriving DecidableEq, Repr

inductive DiffType where
  | added | modified | deleted
deriving DecidableEq, Repr

inductive ReasonCode where
  | deleteModify | modifyDelete | bothModified | uniqueKeyCollision | documentValidationFailure
deriving DecidableEq, Repr

/-- A captured conflict. The key of ours is its own only where two documents contend. -/
structure ConflictEntry where
  id : Bytes
  typ : ConflictType
  rawKey : Bytes
  oursKey : Option Bytes
  base : Option Document
  ours : Option Document
  theirs : Option Document
  ourDiffType : DiffType
  theirDiffType : Option DiffType
  reasonCode : ReasonCode
  reasonIndex : Option Bytes
  reasonKey : Option Document
  resolved : Bool

class ConflictHash where
  hash128 : Bytes → Bytes
  injective : Function.Injective hash128

def conflictID [ConflictHash] (nspace rawKey theirHash : Bytes) : Bytes :=
  ConflictHash.hash128 (beBytes 8 nspace.length ++ nspace ++ rawKey ++ theirHash)

def documentEditReasonCode (ourDiff theirDiff : DiffType) : ReasonCode :=
  if ourDiff = .deleted ∧ theirDiff ≠ .deleted then .deleteModify
  else if ourDiff ≠ .deleted ∧ theirDiff = .deleted then .modifyDelete
  else .bothModified

def reservedCatalogName : Bytes := ascii "__dumbo_catalog__".toList

inductive RowDiff where
  | leftChange | rightChange | convergent | conflict
  | resolved (merged : Option Document)
deriving DecidableEq

structure RowSides where
  base : Option Document
  left : Option Document
  right : Option Document

def tryMergeJSON (v : RowSides) : RowDiff :=
  match v.left, v.right with
  | some left, some right =>
    match mergeBSONDoc (v.base.getD []) left right with
    | some merged => .resolved (some (canonical merged))
    | none => .conflict
  | _, _ => .conflict

def rowMergePolicy (mode : MergeMode) (v : RowSides) : RowDiff :=
  if mode.conflicts v.base v.left v.right then .conflict
  else if v.left.isNone && v.right.isNone then .resolved none
  else tryMergeJSON v

/-- One edit for a key that a side changed. The policy decides whenever both did; without one,
equal changes converge. -/
def classify (policy : Option MergeMode) (v : RowSides) : Option RowDiff :=
  if v.left = v.base then if v.right = v.base then none else some .rightChange
  else if v.right = v.base then some .leftChange
  else
    match policy with
    | some mode => some (rowMergePolicy mode v)
    | none => if v.left = v.right then some .convergent else some (tryMergeJSON v)

structure ThreeWay where
  collection : Bytes
  intoColl : Collection
  fromColl : Collection
  baseColl : Collection
  theirHash : Bytes
  mode : MergeMode

namespace ThreeWay

def sides (w : ThreeWay) (key : Bytes) : RowSides :=
  ⟨w.baseColl.docs[key]?, w.intoColl.docs[key]?, w.fromColl.docs[key]?⟩

def policy (w : ThreeWay) : Option MergeMode := if w.collection = reservedCatalogName then none else some w.mode

def diff (w : ThreeWay) (key : Bytes) : Option RowDiff := classify w.policy (w.sides key)

def keys (w : ThreeWay) : List Bytes :=
  (Std.TreeSet.ofList (w.baseColl.docs.keys ++ w.intoColl.docs.keys ++ w.fromColl.docs.keys)).toList

end ThreeWay

structure Capture where
  merged : Std.TreeMap Bytes Document
  survivors : List IndexMergeSurvivor
  entries : List ConflictEntry

def putDoc (docs : Std.TreeMap Bytes Document) (key : Bytes) : Option Document → Std.TreeMap Bytes Document
  | some doc => docs.insert key doc
  | none => docs.erase key

section
variable [ConflictHash]

def collisionEntry (w : ThreeWay) (rawKey : Bytes) (loser : MergeLoser) : ConflictEntry where
  id := conflictID w.collection rawKey w.theirHash
  typ := .uniqueKeyCollision
  rawKey := rawKey
  oursKey := none
  base := none
  ours := none
  theirs := none
  ourDiffType := .modified
  theirDiffType := some .modified
  reasonCode := .uniqueKeyCollision
  reasonIndex := some loser.index
  reasonKey := some loser.key
  resolved := false

def incomingEntry (w : ThreeWay) (edit : MergeDocEdit) (key : Bytes) (loser : MergeLoser) : ConflictEntry :=
  { collisionEntry w key loser with
    base := edit.base
    ours := edit.base
    theirs := edit.right
    ourDiffType := if edit.base.isSome then .modified else .deleted
    theirDiffType := some (if edit.base.isSome then .modified else .added) }

def evictedEntry (w : ThreeWay) (edit : MergeDocEdit) (key : Bytes) (loser : MergeLoser) (loserDoc : Document) :
    ConflictEntry :=
  { collisionEntry w loser.id loser with
    oursKey := some key
    ours := edit.left
    theirs := some loserDoc
    ourDiffType := if edit.left.isSome && edit.base.isSome then .modified else .added
    theirDiffType := some .added }

def documentEditEntry (w : ThreeWay) (key : Bytes) : ConflictEntry :=
  let v := w.sides key
  let ourDiff : DiffType := if v.left.isSome then .modified else .deleted
  let theirDiff : DiffType := if v.right.isSome then .modified else .deleted
  { id := conflictID w.collection key w.theirHash
    typ := .documentEdit
    rawKey := key
    oursKey := none
    base := v.base
    ours := v.left
    theirs := v.right
    ourDiffType := ourDiff
    theirDiffType := some theirDiff
    reasonCode := documentEditReasonCode ourDiff theirDiff
    reasonIndex := none
    reasonKey := none
    resolved := false }

variable [Platform] [QueryEnv]

/-- The merged map goes back to the base; a collision of that is not looked at. -/
def revertIncoming (w : ThreeWay) (edit : MergeDocEdit) (key : Bytes) (loser : MergeLoser) (c : Capture) : Capture :=
  let revert : MergeDocEdit := ⟨.keepOurs, none, edit.base, edit.right, none⟩
  { merged := putDoc c.merged key edit.base
    survivors := (applyEdit c.survivors revert key).toOption.getD c.survivors
    entries := c.entries ++ [incomingEntry w edit key loser] }

def evictExisting (w : ThreeWay) (edit : MergeDocEdit) (key : Bytes) (loser : MergeLoser) (loserDoc : Document)
    (c : Capture) : Capture where
  merged := c.merged.erase loser.id
  survivors := removeDocEverywhere c.survivors loserDoc loser.id
  entries := c.entries ++ [evictedEntry w edit key loser loserDoc]

/-- An edit on the surviving indexes, tried again after every eviction. -/
def applyIndexEdit (w : ThreeWay) (edit : MergeDocEdit) (key : Bytes) :
    (attempts : Nat) → Capture → Except MergeError Capture
  | 0, _ => .error .evictionDidNotConverge
  | attempts + 1, c =>
    match applyEdit c.survivors edit key with
    | .ok survivors => .ok { c with survivors := survivors }
    | .error loser =>
      if loser.incoming then .ok (revertIncoming w edit key loser c)
      else
        match c.merged[loser.id]? with
        | none => .error .collisionAgainstMissing
        | some loserDoc => applyIndexEdit w edit key attempts (evictExisting w edit key loser loserDoc c)

def maxAttempts : Nat := 3

/-- One report of the differ. The merged map starts as from's, so from's own changes are in it. -/
def captureStep (w : ThreeWay) (c : Capture) (key : Bytes) : Except MergeError Capture :=
  let v := w.sides key
  match w.diff key with
  | none => .ok c
  | some .convergent => .ok c
  | some .leftChange =>
    applyIndexEdit w ⟨.leftChange, v.base, v.left, none, none⟩ key maxAttempts
      { c with merged := putDoc c.merged key v.left }
  | some .rightChange => applyIndexEdit w ⟨.rightChange, v.base, none, v.right, none⟩ key maxAttempts c
  | some .conflict =>
    applyIndexEdit w ⟨.keepOurs, none, v.left, v.right, none⟩ key maxAttempts
      { c with merged := putDoc c.merged key v.left, entries := c.entries ++ [documentEditEntry w key] }
  | some (.resolved merged) =>
    applyIndexEdit w ⟨.resolved, none, v.left, v.right, merged⟩ key maxAttempts
      { c with merged := putDoc c.merged key merged }

def captureConflictsForCollection (w : ThreeWay) (survivors : List IndexMergeSurvivor) :
    Except MergeError Capture :=
  w.keys.foldlM (captureStep w) ⟨w.fromColl.docs, survivors, []⟩

def finalize (c : Capture) : List SecondaryIndex := c.survivors.map fun s => s.index

/-- The merge of the documents over the indexes that both sides leave. -/
def mergeCollection [CollationIdentity] (w : ThreeWay) : Except MergeError Capture := do
  let seeds ← reconcileIndexSets w.intoColl.indexes w.fromColl.indexes w.baseColl.indexes
  captureConflictsForCollection w (openSurvivors seeds)

end

end DumboDB.Dolt
