import DumboDB.Dolt.IndexMaintenance
import DumboDB.Dolt.MergeValidation

/-!
An operation that pauses on the conflicts of a collection: which commits it merges, what it stores,
how a conflict is resolved, and what is rebuilt of it after a restart.
-/

namespace DumboDB.Dolt
open Foundation ByteOrder DumboDB.Types Index Handler

/-! The operations. -/

inductive OperationKind where
  | merge | cherryPick | revert | rebase
deriving DecidableEq, Repr

/-- One collection of an operation. The branch is where it lands; the source is the commit that is
merged, picked, reverted or replayed. A root commit has the empty hash for its parent. -/
structure Operation where
  kind : OperationKind
  collection : Bytes
  mode : MergeMode
  branch : Collection
  source : Bytes
  ancestor : Bytes
  parent : Bytes → Bytes
  commits : Bytes → Collection

namespace Operation

def collAt (op : Operation) (h : Bytes) : Collection := if h = [] then emptyCollection else op.commits h

/-- The commit that conflicts and their artifacts name as theirs. -/
def theirHash (op : Operation) : Bytes :=
  match op.kind with
  | .revert => op.parent op.source
  | _ => op.source

def baseHash (op : Operation) : Bytes :=
  match op.kind with
  | .merge => op.ancestor
  | .cherryPick | .rebase => op.parent op.source
  | .revert => op.source

/-- The sides. A rebase takes the commit it replays for into and the branch for from. -/
def threeWay (op : Operation) : ThreeWay where
  collection := op.collection
  intoColl := if op.kind = .rebase then op.collAt op.source else op.branch
  fromColl := if op.kind = .rebase then op.branch else op.collAt op.theirHash
  baseColl := op.collAt op.baseHash
  theirHash := op.theirHash
  mode := op.mode

end Operation

/-- The mark of a conflict, under the key of its document. -/
structure Artifact where
  theirRootIsh : Bytes
  baseRootIsh : Bytes
deriving DecidableEq

/-- The table of a collection with the artifacts of its conflicts. -/
structure Dtbl where
  coll : Collection
  artifacts : Std.TreeMap Bytes Artifact

/-- A paused operation: the address map's entry for the collection and the conflicts in memory. -/
structure MergeInProgress where
  dtbl : Option Dtbl
  conflicts : List ConflictEntry

/-- The collection of the resolved root; one that is not there reads as empty. -/
def MergeInProgress.coll (ms : MergeInProgress) : Collection :=
  match ms.dtbl with
  | some dtbl => dtbl.coll
  | none => emptyCollection

def MergeInProgress.artifacts (ms : MergeInProgress) : Std.TreeMap Bytes Artifact :=
  match ms.dtbl with
  | some dtbl => dtbl.artifacts
  | none => ∅

def buildConflictArtifacts (op : Operation) (entries : List ConflictEntry) : Std.TreeMap Bytes Artifact :=
  entries.foldl (fun artifacts e => artifacts.insert e.rawKey ⟨op.theirHash, op.baseHash⟩) ∅

/-- The artifact of a key goes if it names the operation's commit. -/
def removeConflictArtifact (op : Operation) (artifacts : Std.TreeMap Bytes Artifact) (rawKey : Bytes) :
    Std.TreeMap Bytes Artifact :=
  match artifacts[rawKey]? with
  | some artifact => if artifact.theirRootIsh = op.theirHash then artifacts.erase rawKey else artifacts
  | none => artifacts

def buildIndexAM (indexes : List SecondaryIndex) : IndexSet :=
  indexes.foldl (fun set s => set.insert s) ⟨[], nil_sorted⟩

inductive PauseError where
  | merge (error : MergeError)
  | filter (error : FilterError)

section
variable [Platform] [QueryEnv] [ConflictHash] [CollationIdentity]

/-- The artifacts are written here, before the validator's conflicts are known. -/
def mergeCollectionDTBL (op : Operation) : Except MergeError (Dtbl × List ConflictEntry) :=
  (mergeCollection op.threeWay).map fun c =>
    (⟨⟨op.branch.idComparator, c.merged, buildIndexAM (finalize c)⟩, buildConflictArtifacts op c.entries⟩, c.entries)

def pauseOn [ValidatorMatcher] (op : Operation) (coll : CollValidation) (metaConflict : Option Bool) :
    Except PauseError MergeInProgress :=
  match mergeCollectionDTBL op with
  | .error error => .error (.merge error)
  | .ok (dtbl, entries) =>
    match crossValidateMergedDocuments op.collection op.theirHash coll metaConflict dtbl.coll.docs
        (op.collAt op.baseHash).docs false entries with
    | .error error => .error (.filter error)
    | .ok conflicts => .ok ⟨some dtbl, conflicts⟩

end

/-! Resolving a conflict. -/

inductive Resolution where
  | ours | theirs | custom | drop | other
deriving DecidableEq, Repr

structure ResolveConflictParams where
  conflictID : Bytes
  resolution : Resolution
  value : Option Document

inductive ResolveError where
  | target (error : TargetError)
  | requiresValue
  | violatesValidator
  | unknownResolution
  | validationResolution
  | collides (index : Bytes)
  | filter (error : FilterError)
  | write (error : WriteError)

def resolutionResultDoc (target : ConflictEntry) (params : ResolveConflictParams) : Option Document :=
  match params.resolution with
  | .ours => target.ours
  | .theirs => target.theirs
  | .custom => params.value
  | _ => none

section
variable [ValidatorMatcher]

def requireValid (validator doc : Document) : Except ResolveError Unit :=
  match ValidatorMatcher.satisfies doc validator with
  | .error error => .error (.filter error)
  | .ok conforms => if conforms then .ok () else .error .violatesValidator

def rejectIfViolates (coll : CollValidation) (doc : Document) : Except ResolveError Unit :=
  match coll.validator with
  | none => .ok ()
  | some validator => if coll.off || coll.warn then .ok () else requireValid validator doc

/-- The value for a validation conflict, none to drop the document. The validator counts whatever
its level. -/
def resolveValidationChoice (coll : CollValidation) (params : ResolveConflictParams) :
    Except ResolveError (Option Document) :=
  match params.resolution, params.value with
  | .drop, _ => .ok none
  | .custom, none => .error .requiresValue
  | .custom, some value =>
    match coll.validator with
    | none => .ok (some (canonical value))
    | some validator => (requireValid validator value).map fun _ => some (canonical value)
  | _, _ => .error .validationResolution

/-- The value for a data conflict that is not kept as ours. -/
def resolveDataChoice (target : ConflictEntry) (params : ResolveConflictParams) :
    Except ResolveError (Option Document) :=
  match params.resolution, params.value with
  | .theirs, _ => .ok target.theirs
  | .custom, none => .error .requiresValue
  | .custom, some value => .ok (some (canonical value))
  | _, _ => .error .unknownResolution

end

section
variable [Platform] [QueryEnv]

/-- The first unique index on which a document under `selfHash` would collide. -/
def resolutionCollision (indexes : IndexSet) (doc : Document) (selfHash : Bytes) : Option Bytes :=
  indexes.list.findSome? fun s =>
    let e := indexEntriesForDoc doc s.info
    if !s.info.unique || e.rows.isEmpty || e.lossy || s.info.lossy then none
    else if e.rows.any fun row => UniqueConflict s.entries row selfHash then some s.info.name
    else none

variable [Digest]

/-- The indexes after the document of a key is replaced, as far as there are any. The id bytes are
those of the new document, also for the entries of the old one. -/
def reindexResolved (indexes : IndexSet) (oldDoc chosen : Option Document) : Except WriteError IndexSet :=
  match chosen, oldDoc with
  | none, none => .ok indexes
  | none, some oldDoc => applyDeletesToIndexes indexes [oldDoc]
  | some chosenDoc, oldDoc =>
    if indexes.list.isEmpty then .ok indexes
    else
      (keyOf chosenDoc).map fun h =>
        match oldDoc with
        | some oldDoc => applyUpdatesToIndexes indexes [(h, oldDoc, chosenDoc)]
        | none => applyInsertsToIndexes indexes [(h, chosenDoc)]

/-- The winner of a collision that theirs takes the key from, as it was when the merge started. -/
def swapWinner (target : ConflictEntry) (params : ResolveConflictParams) : Option (Bytes × Document) :=
  if target.typ = .uniqueKeyCollision ∧ params.resolution = .theirs then
    match target.oursKey, target.ours with
    | some key, some doc => some (key, doc)
    | _, _ => none
  else none

/-- The documents and indexes with the chosen value, none for a deletion, under the key of a
conflict. -/
def applyChosen (c : Collection) (rawKey : Bytes) (winner : Option (Bytes × Document)) (chosen : Option Document) :
    Except ResolveError Collection :=
  let freed : Except WriteError IndexSet :=
    match winner with
    | some (_, doc) => applyDeletesToIndexes c.indexes [doc]
    | none => .ok c.indexes
  match freed with
  | .error error => .error (.write error)
  | .ok indexes =>
    match chosen.bind fun doc => resolutionCollision indexes doc rawKey with
    | some index => .error (.collides index)
    | none =>
      let docs := match winner with
        | some (key, _) => c.docs.erase key
        | none => c.docs
      match reindexResolved indexes c.docs[rawKey]? chosen with
      | .error error => .error (.write error)
      | .ok indexes => .ok { c with docs := putDoc docs rawKey chosen, indexes := indexes }

variable [ValidatorMatcher]

/-- The collection after a resolution; none when ours leaves it as the merge staged it. -/
def resolvedCollection (coll : CollValidation) (c : Collection) (target : ConflictEntry)
    (params : ResolveConflictParams) : Except ResolveError (Option Collection) :=
  if target.typ = .validation then
    (resolveValidationChoice coll params).bind fun chosen =>
      (applyChosen c target.rawKey none chosen).map some
  else
    let accepted : Except ResolveError Unit :=
      match resolutionResultDoc target params with
      | some doc => rejectIfViolates coll doc
      | none => .ok ()
    accepted.bind fun _ =>
      if params.resolution = .ours then .ok none
      else
        (resolveDataChoice target params).bind fun chosen =>
          (applyChosen c target.rawKey (swapWinner target params) chosen).map some

/-- A collection without documents leaves the address map. -/
def DumboDBResolveConflict (op : Operation) (coll : CollValidation) (ms : MergeInProgress)
    (params : ResolveConflictParams) : Except ResolveError MergeInProgress :=
  match findTarget ms.conflicts params.conflictID with
  | .error error => .error (.target error)
  | .ok target =>
    (resolvedCollection coll ms.coll target params).map fun resolved =>
      let artifacts := removeConflictArtifact op ms.artifacts target.rawKey
      let dtbl : Option Dtbl :=
        match resolved with
        | none => some ⟨ms.coll, artifacts⟩
        | some c => if c.docs.isEmpty then none else some ⟨c, artifacts⟩
      ⟨dtbl, markResolved params.conflictID ms.conflicts⟩

end

/-- The value that a resolution puts under the key of its conflict. -/
def chosenDoc (target : ConflictEntry) (params : ResolveConflictParams) : Option Document :=
  match params.resolution, params.value with
  | .theirs, _ => target.theirs
  | .custom, some value => some (canonical value)
  | _, _ => none

variable {chosen : Option Document} {params : ResolveConflictParams}

theorem resolveDataChoice_ok {target : ConflictEntry}
    (chose : resolveDataChoice target params = .ok chosen) : chosen = chosenDoc target params := by
  unfold resolveDataChoice at chose
  split at chose
  next theirs =>
    cases chose
    simp [theirs, chosenDoc]
  · cases chose
  next custom given =>
    cases chose
    simp [custom, given, chosenDoc]
  · cases chose

section
variable [ValidatorMatcher]

variable {coll : CollValidation}

theorem resolveValidationChoice_ok (target : ConflictEntry)
    (chose : resolveValidationChoice coll params = .ok chosen) :
    params.resolution ≠ .ours ∧ chosen = chosenDoc target params := by
  unfold resolveValidationChoice at chose
  split at chose
  next drop =>
    cases chose
    simp [drop, chosenDoc]
  · cases chose
  next value custom given =>
    have written : chosen = some (canonical value) := by
      split at chose
      · cases chose
        rfl
      · obtain ⟨-, -, rfl⟩ := Fallible.map_eq_ok.mp chose
        rfl
    simp [custom, given, written, chosenDoc]
  · cases chose

variable [Platform] [QueryEnv] [Digest]

theorem resolvedCollection_ok {c : Collection} {target : ConflictEntry} {resolved : Option Collection}
    (done : resolvedCollection coll c target params = .ok resolved) :
    (params.resolution = .ours ∧ resolved = none) ∨ (params.resolution ≠ .ours ∧ ∃ after, resolved = some after ∧
        applyChosen c target.rawKey (swapWinner target params) (chosenDoc target params) = .ok after) := by
  unfold resolvedCollection at done
  split at done
  next validation =>
    obtain ⟨chosen, chose, rest⟩ := Fallible.bind_eq_ok.mp done
    obtain ⟨after, applied, rfl⟩ := Fallible.map_eq_ok.mp rest
    obtain ⟨other, rfl⟩ := resolveValidationChoice_ok target chose
    have single : swapWinner target params = none := by simp [swapWinner, validation]
    exact .inr ⟨other, after, rfl, single ▸ applied⟩
  · obtain ⟨-, -, rest⟩ := Fallible.bind_eq_ok.mp done
    split at rest
    next ours =>
      cases rest
      exact .inl ⟨ours, rfl⟩
    next other =>
      obtain ⟨chosen, chose, last⟩ := Fallible.bind_eq_ok.mp rest
      obtain ⟨after, applied, rfl⟩ := Fallible.map_eq_ok.mp last
      obtain rfl := resolveDataChoice_ok chose
      exact .inr ⟨other, after, rfl, applied⟩

theorem resolveConflict_ok {op : Operation} {ms after : MergeInProgress}
    (resolved : DumboDBResolveConflict op coll ms params = .ok after) :
    ∃ target, findTarget ms.conflicts params.conflictID = .ok target ∧
      after.conflicts = markResolved params.conflictID ms.conflicts ∧
        ((params.resolution = .ours ∧ after.coll = ms.coll ∧
            after.artifacts = removeConflictArtifact op ms.artifacts target.rawKey) ∨
          (params.resolution ≠ .ours ∧ ∃ c, applyChosen ms.coll target.rawKey (swapWinner target params)
            (chosenDoc target params) = .ok c ∧ ((c.docs.isEmpty = true ∧ after.dtbl = none) ∨
                after.dtbl = some ⟨c, removeConflictArtifact op ms.artifacts target.rawKey⟩))) := by
  unfold DumboDBResolveConflict at resolved
  split at resolved
  · cases resolved
  next target found =>
    obtain ⟨_, done, rfl⟩ := Fallible.map_eq_ok.mp resolved
    refine ⟨target, found, rfl, ?_⟩
    rcases resolvedCollection_ok done with ⟨ours, rfl⟩ | ⟨other, c, rfl, applied⟩
    · exact .inl ⟨ours, rfl, rfl⟩
    · refine .inr ⟨other, c, applied, ?_⟩
      dsimp only
      split
      next empty =>
        exact .inl ⟨empty, rfl⟩
      · exact .inr rfl

end

def computeDiffType (base current : Option Document) : DiffType :=
  match base, current with
  | none, some _ => .added
  | some _, none => .deleted
  | _, _ => .modified

def valueAtCommit (op : Operation) (h rawKey : Bytes) : Option Document := (op.collAt h).docs[rawKey]?

/-- The conflict of an artifact: theirs and base from the commits it names, ours from the working
root. -/
def entryFromArtifact [ConflictHash] (op : Operation) (docs : Std.TreeMap Bytes Document) (rawKey : Bytes)
    (artifact : Artifact) : ConflictEntry :=
  let ours := docs[rawKey]?
  let theirs := valueAtCommit op artifact.theirRootIsh rawKey
  let base := valueAtCommit op artifact.baseRootIsh rawKey
  { id := conflictID op.collection rawKey artifact.theirRootIsh
    typ := .documentEdit
    rawKey := rawKey
    oursKey := none
    base := base
    ours := ours
    theirs := theirs
    ourDiffType := computeDiffType base ours
    theirDiffType := some (computeDiffType base theirs)
    reasonCode := documentEditReasonCode (computeDiffType base ours) (computeDiffType base theirs)
    reasonIndex := none
    reasonKey := none
    resolved := false }

def loadConflictEntriesFromArtifacts [ConflictHash] (op : Operation) (ms : MergeInProgress) : List ConflictEntry :=
  ms.artifacts.toList.map fun (rawKey, artifact) => entryFromArtifact op ms.coll.docs rawKey artifact

def mergeStateFromWS [ConflictHash] (op : Operation) (ms : MergeInProgress) : MergeInProgress :=
  { ms with conflicts := loadConflictEntriesFromArtifacts op ms }

end DumboDB.Dolt
