import DumboDB.Dolt.ConflictResolution

/-!
The names of a database: the collection or view that stands under a name and its document in the
catalog, how an operation merges the two, and how a conflict over a name is resolved.
-/

namespace DumboDB.Dolt
open Foundation ByteOrder DumboDB.Types Index Handler

/-! The catalog. -/

structure CollMeta where
  uuid : Bytes
  sourceUUID : Bytes
  validator : Option Document
  collation : Option Document
  validationLevel : Bytes
  validationAction : Bytes
  isTimeSeries : Bool
  timeField : Bytes
  metaField : Bytes
  granularity : Bytes
  mergeMode : Bytes

def docOrNull : Option Document → Value
  | some doc => .document doc
  | none => .null

def collMetaToDoc (collName : Bytes) (m : CollMeta) : Document :=
  [(idKey, .string collName),
    (ascii "uuid".toList, .string m.uuid),
    (ascii "sourceUUID".toList, .string m.sourceUUID),
    (ascii "validator".toList, docOrNull m.validator),
    (ascii "collation".toList, docOrNull m.collation),
    (ascii "validationLevel".toList, .string m.validationLevel),
    (ascii "validationAction".toList, .string m.validationAction),
    (ascii "isTimeSeries".toList, .bool m.isTimeSeries),
    (ascii "timeField".toList, .string m.timeField),
    (ascii "metaField".toList, .string m.metaField),
    (ascii "granularity".toList, .string m.granularity),
    (ascii "mergeMode".toList, .string m.mergeMode)]

/-- Missing fields and those of another type read as empty. -/
def getStr (doc : Document) (key : Bytes) : Bytes :=
  match doc.get key with
  | some (.string s) => s
  | _ => []

def getDoc (doc : Document) (key : Bytes) : Option Document :=
  match doc.get key with
  | some (.document d) => some d
  | _ => none

def docToCollMeta (doc : Document) : CollMeta where
  uuid := getStr doc (ascii "uuid".toList)
  sourceUUID := getStr doc (ascii "sourceUUID".toList)
  validator := getDoc doc (ascii "validator".toList)
  collation := getDoc doc (ascii "collation".toList)
  validationLevel := getStr doc (ascii "validationLevel".toList)
  validationAction := getStr doc (ascii "validationAction".toList)
  isTimeSeries :=
    match doc.get (ascii "isTimeSeries".toList) with
    | some (.bool b) => b
    | _ => false
  timeField := getStr doc (ascii "timeField".toList)
  metaField := getStr doc (ascii "metaField".toList)
  granularity := getStr doc (ascii "granularity".toList)
  mergeMode := getStr doc (ascii "mergeMode".toList)

/-- The document that the catalog holds after metadata is written. -/
def catalogDoc (collName : Bytes) (m : CollMeta) : Document := canonical (collMetaToDoc collName m)

def mergeModeNamed (declared : Bytes) : Option MergeMode :=
  if declared = ascii "documentTouched".toList then some .documentTouched
  else if declared = ascii "fieldTouched".toList then some .fieldTouched
  else if declared = ascii "fieldDivergent".toList then some .fieldDivergent
  else if declared = ascii "documentDivergent".toList then some .documentDivergent
  else none

def mergeModeOrDefault (declared : Bytes) : MergeMode := (mergeModeNamed declared).getD DefaultMergeMode

def effectiveMetadataMergeMode : Option CollMeta → MergeMode
  | none => DefaultMergeMode
  | some m => mergeModeOrDefault m.mergeMode

/-- Level and action, with the defaults that a validator brings. -/
def CollMeta.effectiveValidation (m : CollMeta) : Bytes × Bytes :=
  match m.validator with
  | none => (m.validationLevel, m.validationAction)
  | some _ =>
    (if m.validationLevel = [] then ascii "strict".toList else m.validationLevel,
      if m.validationAction = [] then ascii "error".toList else m.validationAction)

def validatorsEqual : Option Document → Option Document → Bool
  | none, none => true
  | some left, some right => documentsEqual left right
  | _, _ => false

def validationSettingsEqual : Option CollMeta → Option CollMeta → Bool
  | none, none => true
  | some left, some right =>
    validatorsEqual left.validator right.validator &&
      left.effectiveValidation == right.effectiveValidation &&
      mergeModeOrDefault left.mergeMode == mergeModeOrDefault right.mergeMode
  | _, _ => false

structure ViewMeta where
  viewOn : Bytes
  pipeline : List Value
  collation : Option Document
deriving DecidableEq

def canonicalView (def_ : ViewMeta) : ViewMeta :=
  ⟨def_.viewOn, canonicalElems def_.pipeline, def_.collation.map canonical⟩

theorem canonicalView_canonicalView (def_ : ViewMeta) : canonicalView (canonicalView def_) = canonicalView def_ := by
  simp [canonicalView, canonicalElems_canonicalElems, Function.comp_def, canonical_canonical]

/-- The chunk of a view: its definition as it was stored. -/
structure ViewChunk where
  readViewChunk : ViewMeta
  stored : canonicalView readViewChunk = readViewChunk
deriving DecidableEq

def writeViewChunk (def_ : ViewMeta) : ViewChunk := ⟨canonicalView def_, canonicalView_canonicalView def_⟩

theorem writeViewChunk_readViewChunk (chunk : ViewChunk) : writeViewChunk chunk.readViewChunk = chunk := by
  obtain ⟨_, stored⟩ := chunk
  simp only [writeViewChunk, stored]

/-- Missing fields and those of another type read as empty. -/
def viewMetaFromDoc (doc : Document) : ViewMeta where
  viewOn := getStr doc (ascii "viewOn".toList)
  pipeline :=
    match doc.get (ascii "pipeline".toList) with
    | some (.array elems) => elems
    | _ => []
  collation := getDoc doc (ascii "collation".toList)

/-! What stands under a name. -/

/-- An entry of the address map, a table being known by its address. -/
inductive NsEntry (Table : Type) where
  | table (address : Table)
  | view (chunk : ViewChunk)
deriving DecidableEq

/-- A name in one root: its entry and its document in the catalog. -/
@[ext] structure NameSide (Table : Type) where
  entry : Option (NsEntry Table)
  catalog : Option Document

section
variable {Table : Type}

def isViewEntry : Option (NsEntry Table) → Bool
  | some (.view _) => true
  | _ => false

def viewDefinition : Option (NsEntry Table) → Option ViewMeta
  | some (.view chunk) => some chunk.readViewChunk
  | _ => none

end

structure NameThreeWay (Table : Type) where
  name : Bytes
  theirHash : Bytes
  ours : NameSide Table
  theirs : NameSide Table
  base : NameSide Table

def NameThreeWay.catalogSides {Table : Type} (w : NameThreeWay Table) : RowSides :=
  ⟨w.base.catalog, w.ours.catalog, w.theirs.catalog⟩

/-- An operation seen at one name. The branch is as of the commit the operation lands on; the source
is the commit that is merged, picked, reverted or replayed. -/
structure NamespaceOperation (Table : Type) where
  kind : OperationKind
  name : Bytes
  branch : NameSide Table
  source : Bytes
  ancestor : Bytes
  parent : Bytes → Bytes
  commits : Bytes → NameSide Table

namespace NamespaceOperation
variable {Table : Type}

/-- The name as of a commit; the parent of a root commit is empty. -/
def sideAt (op : NamespaceOperation Table) (h : Bytes) : NameSide Table :=
  if h = [] then ⟨none, none⟩ else op.commits h

def theirHash (op : NamespaceOperation Table) : Bytes :=
  match op.kind with
  | .revert => op.parent op.source
  | _ => op.source

def baseHash (op : NamespaceOperation Table) : Bytes :=
  match op.kind with
  | .merge => op.ancestor
  | .cherryPick | .rebase => op.parent op.source
  | .revert => op.source

/-! The roles of `operationSides`: a rebase takes the commit it replays for ours. -/

def ours (op : NamespaceOperation Table) : NameSide Table :=
  if op.kind = .rebase then op.sideAt op.source else op.branch

def theirs (op : NamespaceOperation Table) : NameSide Table :=
  if op.kind = .rebase then op.branch else op.sideAt op.theirHash

def base (op : NamespaceOperation Table) : NameSide Table := op.sideAt op.baseHash

def threeWay (op : NamespaceOperation Table) : NameThreeWay Table :=
  ⟨op.name, op.theirHash, op.ours, op.theirs, op.base⟩

end NamespaceOperation

/-! Conflicts over a name. -/

structure ViewConflictEntry where
  id : Bytes
  base : Option ViewMeta
  ours : Option ViewMeta
  theirs : Option ViewMeta
  ourDiff : DiffType
  theirDiff : DiffType
  resolved : Bool

inductive MetaReasonCode where
  | deleteModify | modifyDelete | bothCreated | bothModified
deriving DecidableEq, Repr

structure MetaConflictEntry where
  id : Bytes
  base : Option CollMeta
  ours : Option CollMeta
  theirs : Option CollMeta
  ourDiff : DiffType
  theirDiff : DiffType
  reasonCode : MetaReasonCode
  resolved : Bool

def metaReasonCode (baseMissing : Bool) (ourDiff theirDiff : DiffType) : MetaReasonCode :=
  if ourDiff = .deleted ∧ theirDiff ≠ .deleted then .deleteModify
  else if ourDiff ≠ .deleted ∧ theirDiff = .deleted then .modifyDelete
  else if baseMissing then .bothCreated
  else .bothModified

def viewSideDiff (baseIsView sideIsView : Bool) : DiffType :=
  if !baseIsView && sideIsView then .added
  else if baseIsView && !sideIsView then .deleted
  else .modified

def governingMetadataConflict : Option MetaConflictEntry → Bool
  | none => false
  | some mce =>
    !validationSettingsEqual mce.ours mce.theirs && !validationSettingsEqual mce.ours mce.base &&
      !validationSettingsEqual mce.theirs mce.base

/-- The first of the names that the versions of a catalog document give themselves. -/
def conflictName (v : RowSides) : Bytes :=
  let name : Option Document → Bytes := fun doc => (doc.map (getStr · idKey)).getD []
  if name v.left ≠ [] then name v.left else if name v.right ≠ [] then name v.right else name v.base

section
variable [ConflictHash] {Table : Type}

def buildViewConflict (w : NameThreeWay Table) : ViewConflictEntry where
  id := conflictID w.name w.name w.theirHash
  base := viewDefinition w.base.entry
  ours := viewDefinition w.ours.entry
  theirs := viewDefinition w.theirs.entry
  ourDiff := viewSideDiff (isViewEntry w.base.entry) (isViewEntry w.ours.entry)
  theirDiff := viewSideDiff (isViewEntry w.base.entry) (isViewEntry w.theirs.entry)
  resolved := false

variable [Digest]

def catalogKey (collName : Bytes) : Bytes := (hashID (.string collName)).getD []

/-- The conflict of a catalog document, under the name it belongs to. -/
def metaConflictFromCatalog (w : NameThreeWay Table) (ourDiff theirDiff : DiffType) :
    Option MetaConflictEntry :=
  let v := w.catalogSides
  if conflictName v = w.name ∧ w.name ≠ [] then
    some {
      id := conflictID reservedCatalogName (catalogKey w.name) w.theirHash
      base := v.base.map docToCollMeta
      ours := v.left.map docToCollMeta
      theirs := v.right.map docToCollMeta
      ourDiff := ourDiff
      theirDiff := theirDiff
      reasonCode := metaReasonCode v.base.isNone ourDiff theirDiff
      resolved := false }
  else none

def capturedMetaConflict (w : NameThreeWay Table) : Option MetaConflictEntry :=
  let v := w.catalogSides
  if classify none v = some .conflict then
    metaConflictFromCatalog w (if v.left.isSome then .modified else .deleted)
      (if v.right.isSome then .modified else .deleted)
  else none

/-- As it is rebuilt from the documents that the sides hold. -/
def buildMetaConflict (w : NameThreeWay Table) : Option MetaConflictEntry :=
  let v := w.catalogSides
  metaConflictFromCatalog w (computeDiffType v.base v.left) (computeDiffType v.base v.right)

end

/-! The merge of a name. -/

inductive NamespaceError where
  | deletedAndModified
  | modeUnresolved
  | commitNotFound
  | merge (error : MergeError)
  | noSuchConflict
  | requiresValue
  | invalidMergeMode
  | unknownResolution

/-- The merge of two tables over a base that may be missing, under the name and the commit that its
conflicts carry. -/
class TableMerge (Table : Type) where
  mergeCollectionDTBL : (name theirHash : Bytes) → MergeMode → Table → Table → Option Table →
    Except MergeError (Table × List ConflictEntry)

/-- A merged name with its conflicts, those of the collection's documents included. -/
structure MergedName (Table : Type) where
  side : NameSide Table
  view : Option ViewConflictEntry
  metadata : Option MetaConflictEntry
  documents : List ConflictEntry
  deferred : Bool

/-- The document that the catalog's merge leaves; ours in a conflict. -/
def mergedCatalog (v : RowSides) : Option Document :=
  match classify none v with
  | some .rightChange => v.right
  | some (.resolved merged) => merged
  | _ => v.left

def mergedCollectionMode (v : RowSides) : Except NamespaceError MergeMode :=
  let oursMode := effectiveMetadataMergeMode (v.left.map docToCollMeta)
  let theirsMode := effectiveMetadataMergeMode (v.right.map docToCollMeta)
  let baseMode := effectiveMetadataMergeMode (v.base.map docToCollMeta)
  if oursMode = baseMode then .ok theirsMode
  else if theirsMode = baseMode ∨ oursMode = theirsMode then .ok oursMode
  else .error .modeUnresolved

section
variable {Table : Type} [DecidableEq Table] [TableMerge Table] [ConflictHash]

def mergeEntries (w : NameThreeWay Table) :
    Except NamespaceError (Option (NsEntry Table) × Option ViewConflictEntry × List ConflictEntry) :=
  if isViewEntry w.ours.entry || isViewEntry w.theirs.entry || isViewEntry w.base.entry then
    .ok (w.ours.entry, some (buildViewConflict w), [])
  else
    match w.ours.entry, w.theirs.entry, w.base.entry with
    | some (.table into), some (.table from_), base =>
      let baseTable := match base with
        | some (.table t) => some t
        | _ => none
      (mergedCollectionMode w.catalogSides).bind fun mode =>
        match TableMerge.mergeCollectionDTBL w.name w.theirHash mode into from_ baseTable with
        | .error error => .error (.merge error)
        | .ok (merged, documents) => .ok (some (.table merged), none, documents)
    | _, _, _ => .error .deletedAndModified

variable [Digest]

/-- `mergeAddressMapsWithConflicts` at a name. The catalog is merged first; a conflict over what
governs the documents leaves the entry as it is. -/
def mergeName (w : NameThreeWay Table) : Except NamespaceError (MergedName Table) :=
  let metadata := capturedMetaConflict w
  let catalog := mergedCatalog w.catalogSides
  if governingMetadataConflict metadata then .ok ⟨⟨w.ours.entry, catalog⟩, none, metadata, [], true⟩
  else if w.theirs.entry = w.base.entry then .ok ⟨⟨w.ours.entry, catalog⟩, none, metadata, [], false⟩
  else if w.ours.entry = w.base.entry then .ok ⟨⟨w.theirs.entry, catalog⟩, none, metadata, [], false⟩
  else if w.theirs.entry = none ∧ w.ours.entry = none then .ok ⟨⟨none, catalog⟩, none, metadata, [], false⟩
  else
    (mergeEntries w).map fun (entry, view, documents) => ⟨⟨entry, catalog⟩, view, metadata, documents, false⟩

end

/-- A paused operation at a name: the root as it stands and the conflicts over the name. -/
structure PausedName (Table : Type) where
  root : NameSide Table
  view : Option ViewConflictEntry
  metadata : Option MetaConflictEntry
  deferred : Bool

/-- A rebase shows the branch's entry while the merge of the collection is deferred. -/
def pauseName {Table : Type} [DecidableEq Table] [TableMerge Table] [ConflictHash] [Digest]
    (op : NamespaceOperation Table) : Except NamespaceError (PausedName Table) :=
  (mergeName op.threeWay).map fun merged =>
    let entry := if op.kind = .rebase ∧ merged.deferred then op.branch.entry else merged.side.entry
    ⟨⟨entry, merged.side.catalog⟩, merged.view, merged.metadata, merged.deferred⟩

/-! Resolving a conflict over a name. -/

/-- Metadata given by hand, over that of the first side that has any. -/
def metaFromResolveValue (value : Document) (mce : MetaConflictEntry) : Except NamespaceError CollMeta :=
  let m := (mce.ours.or (mce.base.or mce.theirs)).getD (docToCollMeta [])
  let m :=
    match value.get (ascii "validator".toList) with
    | some (.document d) => { m with validator := some d }
    | some _ => { m with validator := none }
    | none => m
  let m :=
    match value.get (ascii "validationLevel".toList) with
    | some (.string s) => { m with validationLevel := s }
    | _ => m
  let m :=
    match value.get (ascii "validationAction".toList) with
    | some (.string s) => { m with validationAction := s }
    | _ => m
  match value.get (ascii "mergeMode".toList) with
  | some (.string s) =>
    if (mergeModeNamed s).isSome then .ok { m with mergeMode := s } else .error .invalidMergeMode
  | some _ => .error .invalidMergeMode
  | none => .ok m

section
variable {Table : Type}

/-- The root after a view conflict is resolved. The catalog is not looked at. -/
def resolveViewConflict (root : NameSide Table) (vce : ViewConflictEntry) (params : ResolveConflictParams) :
    Except NamespaceError (NameSide Table) :=
  let put : Option ViewMeta → NameSide Table := fun newDef =>
    { root with entry := newDef.map fun def_ => .view (writeViewChunk def_) }
  match params.resolution, params.value with
  | .ours, _ => .ok root
  | .theirs, _ => .ok (put vce.theirs)
  | .custom, none => .error .requiresValue
  | .custom, some value => .ok (put (some (viewMetaFromDoc value)))
  | _, _ => .error .unknownResolution

/-- The entry of the chosen side, looked up in its commit. -/
def reconcileMetaCollExistence (op : NamespaceOperation Table) (resolution : Resolution) :
    Except NamespaceError (Option (NsEntry Table)) :=
  if resolution = .theirs then
    if op.theirHash = [] then .error .commitNotFound else .ok (op.commits op.theirHash).entry
  else .ok op.branch.entry

def chosenMeta (mce : MetaConflictEntry) (params : ResolveConflictParams) :
    Except NamespaceError (Option CollMeta) :=
  match params.resolution, params.value with
  | .ours, _ => .ok mce.ours
  | .theirs, _ => .ok mce.theirs
  | .custom, none => .error .requiresValue
  | .custom, some value => (metaFromResolveValue value mce).map some
  | _, _ => .error .unknownResolution

/-- The root after a metadata conflict is resolved. The entry follows only where a side dropped the
collection. -/
def resolveMetaConflict (op : NamespaceOperation Table) (root : NameSide Table) (mce : MetaConflictEntry)
    (params : ResolveConflictParams) : Except NamespaceError (NameSide Table) :=
  (chosenMeta mce params).bind fun newMeta =>
    let catalog := newMeta.map (catalogDoc op.name)
    if mce.ourDiff = .deleted ∨ mce.theirDiff = .deleted then
      (reconcileMetaCollExistence op params.resolution).map fun entry => ⟨entry, catalog⟩
    else .ok ⟨root.entry, catalog⟩

namespace PausedName

def openView (ms : PausedName Table) : Option ViewConflictEntry := ms.view.filter fun vce => !vce.resolved

def openMeta (ms : PausedName Table) : Option MetaConflictEntry := ms.metadata.filter fun mce => !mce.resolved

end PausedName

/-- `DumboDBResolveConflict` for a name: an open view conflict comes before one of metadata. -/
def resolveNamespaceConflict (op : NamespaceOperation Table) (ms : PausedName Table)
    (params : ResolveConflictParams) : Except NamespaceError (PausedName Table) :=
  match ms.openView, ms.openMeta with
  | some vce, _ =>
    if vce.id ≠ params.conflictID then .error .noSuchConflict
    else
      (resolveViewConflict ms.root vce params).map fun root =>
        { ms with root := root, view := some { vce with resolved := true } }
  | none, some mce =>
    if mce.id ≠ params.conflictID then .error .noSuchConflict
    else
      (resolveMetaConflict op ms.root mce params).map fun root =>
        { ms with root := root, metadata := some { mce with resolved := true } }
  | none, none => .error .noSuchConflict

/-- After a restart: the conflict of a name that is not settled is built anew, as a view conflict if
there is any view. -/
def loadNamespaceConflicts [ConflictHash] [Digest] (op : NamespaceOperation Table) (ms : PausedName Table) :
    PausedName Table :=
  if ms.openView.isNone && ms.openMeta.isNone then { ms with view := none, metadata := none }
  else if isViewEntry op.ours.entry || isViewEntry op.theirs.entry || isViewEntry op.base.entry then
    { ms with view := some (buildViewConflict op.threeWay), metadata := none }
  else { ms with view := none, metadata := buildMetaConflict op.threeWay }

end

end DumboDB.Dolt
