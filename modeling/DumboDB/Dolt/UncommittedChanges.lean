import DumboDB.Dolt.SessionPublish

/-!
The check that a branch has no uncommitted changes: what of two roots it compares, and what it passes
over.
-/

namespace DumboDB.Dolt
open Foundation ByteOrder DumboDB.Types Index Handler Fallible List Std

inductive FieldDiffKind where
  | added
  | removed
  | modified
deriving DecidableEq

structure FieldDiff where
  kind : FieldDiffKind
  path : Bytes
  before : Option Value
  after : Option Value
deriving DecidableEq

structure CollectionMetadata where
  validator : Document
  validationLevel : Bytes
  validationAction : Bytes
  mergeMode : MergeMode

def metadataViewOf (m : Option CollMeta) : Option CollectionMetadata :=
  m.bind fun m => m.validator.map fun validator =>
    ⟨validator, m.effectiveValidation.1, m.effectiveValidation.2, mergeModeOrDefault m.mergeMode⟩

def validatorPath : Bytes := ascii "$.validator".toList
def validationLevelPath : Bytes := ascii "$.validationLevel".toList
def validationActionPath : Bytes := ascii "$.validationAction".toList

/-- `diffDocumentPaths`, the leaves in which two documents differ. -/
class DocumentDiff where
  diffDocumentPaths : Bytes → Document → Document → List FieldDiff

def sameStored (a b : Document) : Bool := docToBSON a == docToBSON b

def metadataSideDiffs (kind : FieldDiffKind) (m : CollectionMetadata) : List FieldDiff :=
  let entry (path : Bytes) (value : Value) : FieldDiff :=
    if kind = .removed then ⟨kind, path, some value, none⟩ else ⟨kind, path, none, some value⟩
  [entry validatorPath (.document m.validator), entry validationLevelPath (.string m.validationLevel),
    entry validationActionPath (.string m.validationAction)]

def collectionMetadataDiff [DocumentDiff] (a b : Option CollMeta) : List FieldDiff :=
  match metadataViewOf a, metadataViewOf b with
  | none, none => []
  | none, some b => metadataSideDiffs .added b
  | some a, none => metadataSideDiffs .removed a
  | some a, some b =>
    let leaves := DocumentDiff.diffDocumentPaths validatorPath a.validator b.validator
    (if sameStored a.validator b.validator then []
      else if leaves.isEmpty then
        [⟨.modified, validatorPath, some (.document a.validator), some (.document b.validator)⟩]
      else leaves) ++
    (if a.validationLevel = b.validationLevel then []
      else [⟨.modified, validationLevelPath, some (.string a.validationLevel), some (.string b.validationLevel)⟩]) ++
    (if a.validationAction = b.validationAction then []
      else [⟨.modified, validationActionPath, some (.string a.validationAction), some (.string b.validationAction)⟩])

/-- The index address maps of the tables: the chunk of each index under its name. -/
class IndexChunks (Table : Type) (Chunk : outParam Type) [TableStore Table] where
  entries : Table → Std.TreeMap Bytes Chunk
  resolveIndexEntry : Chunk → SecondaryIndex
  resolved : ∀ t, (TableStore.coll t).indexes.list = (entries t).toList.map fun e => resolveIndexEntry e.2

inductive ChangeStatus where
  | added
  | deleted
  | modified
deriving DecidableEq

/-- What `eachCollectionChange` tells of a collection; the changed indexes by their definitions. -/
structure CollectionChange where
  name : Bytes
  status : ChangeStatus
  aMap : Std.TreeMap Bytes Document
  bMap : Std.TreeMap Bytes Document
  idxAdded : List IndexInfo
  idxModified : List (IndexInfo × IndexInfo)
  idxRemoved : List IndexInfo
  metaDiff : List FieldDiff

def CollectionChange.surfacesWithoutDocChange (c : CollectionChange) : Bool :=
  c.status != .modified || !c.idxAdded.isEmpty || !c.idxModified.isEmpty || !c.idxRemoved.isEmpty || !c.metaDiff.isEmpty

/-- The numbers of documents added, modified and deleted. -/
def countCollectionMapDiffs (a b : Std.TreeMap Bytes Document) : Nat × Nat × Nat :=
  ((b.toList.filter fun e => a[e.1]?.isNone).length,
    (a.toList.filter fun e => match b[e.1]? with | some doc => doc != e.2 | none => false).length,
    (a.toList.filter fun e => b[e.1]?.isNone).length)

inductive UncommittedError where
  | unreadable (name : Bytes)
  | uncommitted (collections views : List Bytes)

section
variable {Table : Type}

def statusOf : Option (NsEntry Table) → Option (NsEntry Table) → ChangeStatus
  | none, some _ => .added
  | some _, none => .deleted
  | _, _ => .modified

def tableNames (r : Root Table) : List Bytes :=
  (r.entries.toList.filter fun e => e.1 != reservedCatalogName && !isViewEntry (some e.2)).map (·.1)

def viewNames (r : Root Table) : List Bytes := (r.entries.toList.filter fun e => isViewEntry (some e.2)).map (·.1)

def unionCollectionNames (a b : Root Table) : List Bytes := (Std.TreeSet.ofList (tableNames a ++ tableNames b)).toList

/-- The views that one root has and the other has not, or not so. -/
def diffViewEntries [DecidableEq Table] (a b : Root Table) : List (Bytes × ChangeStatus) :=
  (Std.TreeSet.ofList (viewNames a ++ viewNames b)).toList.filterMap fun name =>
    match isViewEntry a.entries[name]?, isViewEntry b.entries[name]? with
    | true, true => if a.entries[name]? = b.entries[name]? then none else some (name, .modified)
    | true, false => some (name, .deleted)
    | false, true => some (name, .added)
    | false, false => none

variable {Chunk : Type} [TableStore Table] [IndexChunks Table Chunk]

/-- The index map of an entry; that of a view cannot be read. -/
def indexAMForDTBL (Chunk : Type) [IndexChunks Table Chunk] (name : Bytes) :
    Option (NsEntry Table) → Except UncommittedError (Std.TreeMap Bytes Chunk)
  | none => .ok ∅
  | some (.table t) => .ok (IndexChunks.entries t)
  | some (.view _) => .error (.unreadable name)

variable [DecidableEq Chunk]

def computeIndexChanges (name : Bytes) (a b : Option (NsEntry Table)) :
    Except UncommittedError (List IndexInfo × List (IndexInfo × IndexInfo) × List IndexInfo) := do
  let aAM ← indexAMForDTBL Chunk name a
  let bAM ← indexAMForDTBL Chunk name b
  let info (c : Chunk) : IndexInfo := (IndexChunks.resolveIndexEntry Table c).info
  return ((bAM.toList.filter fun e => aAM[e.1]?.isNone).map fun e => info e.2,
    aAM.toList.filterMap fun e => match bAM[e.1]? with
      | some c => if c = e.2 then none else some (info e.2, info c)
      | none => none,
    (aAM.toList.filter fun e => bAM[e.1]?.isNone).map fun e => info e.2)

variable [DecidableEq Table] [DocumentDiff]

/-- A name of `eachCollectionChange`. The metadata is looked at if the catalogs differ. -/
def collectionChange (a b : Root Table) (name : Bytes) : Except UncommittedError (Option CollectionChange) := do
  let catalogChanged := a.catalog.toList != b.catalog.toList
  let metaDiff := if catalogChanged then
    collectionMetadataDiff (a.catalog[name]?.map docToCollMeta) (b.catalog[name]?.map docToCollMeta) else []
  if a.entries[name]? = b.entries[name]? then
    if metaDiff.isEmpty then return none
    let docs := entryDocs a.entries[name]?
    return some ⟨name, .modified, docs, docs, [], [], [], metaDiff⟩
  let (idxAdded, idxModified, idxRemoved) ← computeIndexChanges name a.entries[name]? b.entries[name]?
  return some ⟨name, statusOf a.entries[name]? b.entries[name]?, entryDocs a.entries[name]?,
    entryDocs b.entries[name]?,
    idxAdded, idxModified, idxRemoved, metaDiff⟩

def CollectionChange.reported (c : CollectionChange) : Bool :=
  countCollectionMapDiffs c.aMap c.bMap != (0, 0, 0) || c.surfacesWithoutDocChange

/-- The root of the branch's HEAD against its working root. -/
def requireNoUncommittedChanges (head working : Root Table) : Except UncommittedError Unit := do
  if head.same working then return
  let changes ← (unionCollectionNames head working).mapM (collectionChange head working)
  let collections := ((changes.filterMap id).filter (·.reported)).map (·.name)
  let views := (diffViewEntries head working).map (·.1)
  if collections.isEmpty && views.isEmpty then return
  throw (.uncommitted collections views)

end

/-! Differences of maps. -/

section
variable {β : Type} {a b : Std.TreeMap Bytes β}

theorem missing_eq_nil_iff : (b.toList.filter fun e => a[e.1]?.isNone) = [] ↔ ∀ key :
    Bytes, a[key]? = none → b[key]? = none := by
  rw [filter_eq_nil_iff]
  constructor
  · intro none_ key absent
    by_contra present
    obtain ⟨v, held⟩ := Option.ne_none_iff_exists'.mp present
    exact none_ (key, v) (TreeMap.mem_toList_iff_getElem?_eq_some.mpr held) (by simp [absent])
  · rintro covered ⟨key, v⟩ member absent
    have held := TreeMap.mem_toList_iff_getElem?_eq_some.mp member
    exact nomatch held.symm.trans (covered key (Option.isNone_iff_eq_none.mp absent))

theorem forall_getElem?_eq_iff : (∀ key : Bytes, a[key]? = b[key]?) ↔ (∀ key : Bytes, a[key]? = none →
    b[key]? = none) ∧
      (∀ (key : Bytes) (v w : β), a[key]? = some v → b[key]? = some w → w = v) ∧
        ∀ key : Bytes, b[key]? = none → a[key]? = none := by
  constructor
  · intro same
    refine ⟨fun key absent => same key ▸ absent, fun key v w left right => ?_, fun key absent => same key ▸ absent⟩
    rw [same key, right] at left
    exact Option.some.inj left
  · rintro ⟨added, modified, removed⟩ key
    cases left : a[key]? with
    | none => exact (added key left).symm
    | some v =>
      cases right : b[key]? with
      | none => exact nomatch left.symm.trans (removed key right)
      | some w => rw [modified key v w left right]

end

theorem countCollectionMapDiffs_eq_zero_iff {a b : TreeMap Bytes Document} :
    countCollectionMapDiffs a b = (0, 0, 0) ↔ ∀ key : Bytes, a[key]? = b[key]? := by
  simp only [countCollectionMapDiffs, Prod.mk.injEq, length_eq_zero_iff, missing_eq_nil_iff, forall_getElem?_eq_iff]
  refine and_congr_right fun _ => and_congr_left fun _ => ?_
  rw [filter_eq_nil_iff]
  constructor
  · intro none_ key v w left right
    simpa [right] using none_ (key, v) (TreeMap.mem_toList_iff_getElem?_eq_some.mpr left)
  · rintro same ⟨key, v⟩ member
    have left := TreeMap.mem_toList_iff_getElem?_eq_some.mp member
    cases right : b[key]? with
    | none => simp
    | some w => simp [same key v w left right]

theorem reported_eq_false_iff {c : CollectionChange} : c.reported = false ↔
    (∀ key : Bytes, c.aMap[key]? = c.bMap[key]?) ∧ c.status = .modified ∧
      (c.idxAdded = [] ∧ c.idxModified = [] ∧ c.idxRemoved = []) ∧ c.metaDiff = [] := by
  simp only [CollectionChange.reported, CollectionChange.surfacesWithoutDocChange, Bool.or_eq_false_iff,
    bne_eq_false_iff_eq,
    countCollectionMapDiffs_eq_zero_iff, Bool.not_eq_false', List.isEmpty_iff, and_assoc]

theorem reported_names_isEmpty_iff {changes : List (Option CollectionChange)} :
    (((changes.filterMap id).filter (·.reported)).map (·.name)).isEmpty = true ↔
      ∀ c ∈ changes, ∀ change ∈ c, change.reported = false := by
  simp only [List.isEmpty_iff, map_eq_nil_iff, filter_eq_nil_iff, mem_filterMap, id, exists_eq_right,
    Bool.not_eq_true, Option.mem_def]
  exact ⟨fun all c member change found => all change (found ▸ member),
    fun all change member => all _ member change rfl⟩

/-! What the check compares, and what it should. -/

section
variable {Table : Type}

def tableOf : Option (NsEntry Table) → Option Table
  | some (.table t) => some t
  | _ => none

theorem tableOf_eq_some {entry : Option (NsEntry Table)} {t : Table} : tableOf entry = some t ↔
    entry = some (.table t) := by
  rcases entry with - | (t' | chunk) <;> simp [tableOf]

def viewOf : Option (NsEntry Table) → Option ViewChunk
  | some (.view chunk) => some chunk
  | _ => none

theorem mem_unionCollectionNames {a b : Root Table} {name : Bytes} : name ∈ unionCollectionNames a b ↔
    name ≠ reservedCatalogName ∧ ((tableOf (a.side name).entry).isSome ∨ (tableOf (b.side name).entry).isSome) := by
  have mem (r : Root Table) : name ∈ tableNames r ↔ name ≠ reservedCatalogName ∧
    (tableOf (r.side name).entry).isSome := by
    simp only [tableNames, mem_map, mem_filter, Prod.exists, TreeMap.mem_toList_iff_getElem?_eq_some,
      Root.side, Bool.and_eq_true, bne_iff_ne]
    constructor
    · rintro ⟨_, entry, ⟨held, user, kind⟩, rfl⟩
      cases entry with
      | table t => exact ⟨user, by simp [held, tableOf]⟩
      | view chunk => simp [isViewEntry] at kind
    · rintro ⟨user, table⟩
      rcases held : r.entries[name]? with - | (t | chunk)
      · simp [held, tableOf] at table
      · exact ⟨name, .table t, ⟨held, user, rfl⟩, rfl⟩
      · simp [held, tableOf] at table
  rw [unionCollectionNames, TreeSet.mem_toList, TreeSet.mem_ofList, contains_iff_mem, mem_append, mem, mem]
  tauto

theorem diffViewEntries_eq_nil_iff [DecidableEq Table] {a b : Root Table} :
    diffViewEntries a b = [] ↔ ∀ name, viewOf (a.side name).entry = viewOf (b.side name).entry := by
  have mem (r : Root Table) (name : Bytes) : name ∈ viewNames r ↔ isViewEntry r.entries[name]? := by
    simp only [viewNames, mem_map, mem_filter, Prod.exists, TreeMap.mem_toList_iff_getElem?_eq_some]
    constructor
    · rintro ⟨_, entry, ⟨held, kind⟩, rfl⟩
      rwa [held]
    · intro kind
      rcases held : r.entries[name]? with - | entry
      · simp [held, isViewEntry] at kind
      · exact ⟨name, entry, ⟨held, held ▸ kind⟩, rfl⟩
  simp only [diffViewEntries, filterMap_eq_nil_iff, TreeSet.mem_toList, TreeSet.mem_ofList,
    contains_iff_mem, mem_append, mem, Root.side]
  refine forall_congr' fun name => ?_
  rcases a.entries[name]? with - | (t | chunk) <;> rcases b.entries[name]? with - | (t' | chunk') <;>
    simp [isViewEntry, viewOf]

theorem changed_views_isEmpty_iff [DecidableEq Table] {a b : Root Table} :
    ((diffViewEntries a b).map (·.1)).isEmpty = true ↔
    ∀ name, viewOf (a.side name).entry = viewOf (b.side name).entry := by
  rw [List.isEmpty_iff, map_eq_nil_iff, diffViewEntries_eq_nil_iff]

/-- The metadata of a name; without a document in the catalog that of an empty one. -/
def NameSide.metadata (side : NameSide Table) : CollMeta := (side.catalog.map docToCollMeta).getD (docToCollMeta [])

end

/-- Metadata that a diff tells apart: the validators, and with one the level and the action. -/
structure ShownSame (a b : CollMeta) : Prop where
  validator : a.validator.map docToBSON = b.validator.map docToBSON
  validation : a.validator.isSome → a.effectiveValidation = b.effectiveValidation

/-- Metadata that no diff shows: the merge mode, the options, and level and action without a validator. -/
structure HiddenSame (a b : CollMeta) : Prop where
  validation : a.validator = none → b.validator = none → a.effectiveValidation = b.effectiveValidation
  mergeMode : mergeModeOrDefault a.mergeMode = mergeModeOrDefault b.mergeMode
  collation : a.collation.map docToBSON = b.collation.map docToBSON
  timeSeries : (a.isTimeSeries, a.timeField, a.metaField, a.granularity) =
    (b.isTimeSeries, b.timeField, b.metaField, b.granularity)

/-- The catalog metadata of a collection: validator, level and action, merge mode and options. -/
structure SameMetadata (a b : CollMeta) : Prop where
  validator : a.validator.map docToBSON = b.validator.map docToBSON
  validation : a.effectiveValidation = b.effectiveValidation
  mergeMode : mergeModeOrDefault a.mergeMode = mergeModeOrDefault b.mergeMode
  collation : a.collation.map docToBSON = b.collation.map docToBSON
  timeSeries : (a.isTimeSeries, a.timeField, a.metaField, a.granularity) =
    (b.isTimeSeries, b.timeField, b.metaField, b.granularity)

theorem sameMetadata_iff {a b : CollMeta} (shown : ShownSame a b) : SameMetadata a b ↔ HiddenSame a b := by
  refine ⟨fun same => ⟨fun _ _ => same.validation, same.mergeMode, same.collation, same.timeSeries⟩,
    fun hidden => ⟨shown.validator, ?_, hidden.mergeMode, hidden.collation, hidden.timeSeries⟩⟩
  cases left : a.validator with
  | some _ => exact shown.validation (by simp [left])
  | none =>
    have right := shown.validator
    rw [left, Option.map_none] at right
    exact hidden.validation left (Option.map_eq_none_iff.mp right.symm)

theorem ShownSame.refl (m : CollMeta) : ShownSame m m := ⟨rfl, fun _ => rfl⟩

theorem metadataViewOf_catalog (catalog : Option Document) : metadataViewOf (catalog.map docToCollMeta) =
    metadataViewOf (some ((catalog.map docToCollMeta).getD (docToCollMeta []))) := by
  cases catalog with
  | none => rfl
  | some _ => rfl

theorem metadataViewOf_none {m : CollMeta} (bare : m.validator = none) : metadataViewOf (some m) = none := by
  simp [metadataViewOf, bare]

theorem metadataViewOf_some {m : CollMeta} {validator : Document} (has : m.validator = some validator) :
    metadataViewOf (some m) = some ⟨validator, m.effectiveValidation.1, m.effectiveValidation.2,
      mergeModeOrDefault m.mergeMode⟩ := by
  simp [metadataViewOf, has]

theorem shownSame_iff {a b : CollMeta} : ShownSame a b ↔ a.validator.map docToBSON = b.validator.map docToBSON ∧
    (a.validator.isSome → a.effectiveValidation = b.effectiveValidation) :=
  ⟨fun shown => ⟨shown.1, shown.2⟩, fun shown => ⟨shown.1, shown.2⟩⟩

theorem collectionMetadataDiff_eq_nil_iff [DocumentDiff] {a b : CollMeta} :
    collectionMetadataDiff (some a) (some b) = [] ↔ ShownSame a b := by
  rw [shownSame_iff]
  cases left : a.validator with
  | none =>
    cases right : b.validator with
    | none => simp [collectionMetadataDiff, metadataViewOf_none left, metadataViewOf_none right]
    | some n => simp [collectionMetadataDiff, metadataViewOf_none left, metadataViewOf_some right, metadataSideDiffs]
  | some m =>
    cases right : b.validator with
    | none => simp [collectionMetadataDiff, metadataViewOf_some left, metadataViewOf_none right, metadataSideDiffs]
    | some n =>
      simp only [collectionMetadataDiff, metadataViewOf_some left, metadataViewOf_some right, Option.map_some,
        append_eq_nil_iff, Option.some.injEq, Option.isSome_some, forall_const, sameStored, Prod.ext_iff,
        beq_iff_eq, and_assoc]
      refine and_congr ?_ (and_congr ?_ ?_)
      · split_ifs with same unexplained
        · exact iff_of_true rfl same
        · exact iff_of_false id same
        · exact iff_of_false (by simpa using unexplained) same
      · split_ifs with same
        · exact iff_of_true rfl same
        · exact iff_of_false id same
      · split_ifs with same
        · exact iff_of_true rfl same
        · exact iff_of_false id same

theorem metaDiff_eq_nil_iff [DocumentDiff] {Table : Type} {a b : Root Table} {name : Bytes} :
    (if a.catalog.toList != b.catalog.toList then
      collectionMetadataDiff (a.catalog[name]?.map docToCollMeta) (b.catalog[name]?.map docToCollMeta) else []) = [] ↔
      ShownSame (a.side name).metadata (b.side name).metadata := by
  by_cases same : a.catalog.toList = b.catalog.toList
  · have equal : (a.side name).metadata = (b.side name).metadata := by
      simp only [NameSide.metadata, Root.side, (TreeMap.equiv_iff_toList_eq.mpr same).getElem?_eq]
    simp [same, equal, ShownSame.refl]
  · rw [if_pos (by simpa using same), ← collectionMetadataDiff_eq_nil_iff]
    simp only [collectionMetadataDiff, metadataViewOf_catalog a.catalog[name]?,
      metadataViewOf_catalog b.catalog[name]?]
    rfl

section
variable {Table : Type} [TableStore Table]

def entryIndexes : Option (NsEntry Table) → List SecondaryIndex
  | some (.table t) => (TableStore.coll t).indexes.list
  | _ => []

section

variable {entry : Option (NsEntry Table)} (bare : tableOf entry = none)
include bare

theorem entryIndexes_of_none : entryIndexes entry = [] := by
  rcases entry with - | (t | chunk)
  · rfl
  · cases bare
  · rfl

theorem entryDocs_of_none : entryDocs entry = ∅ := by
  rcases entry with - | (t | chunk)
  · rfl
  · cases bare
  · rfl

end

/-- The two roots agree on a name: on the collection's documents, indexes and metadata, or on the view. -/
structure AgreeOn (a b : NameSide Table) : Prop where
  view : viewOf a.entry = viewOf b.entry
  table : (tableOf a.entry).isSome = (tableOf b.entry).isSome
  docs : ∀ key : Bytes, (entryDocs a.entry)[key]? = (entryDocs b.entry)[key]?
  indexes : entryIndexes a.entry = entryIndexes b.entry
  metadata : (tableOf a.entry).isSome → SameMetadata a.metadata b.metadata

def Root.Agree (a b : Root Table) : Prop := ∀ name, name ≠ reservedCatalogName → AgreeOn (a.side name) (b.side name)

/-- The roots agree on the metadata that no diff shows. -/
def Root.HiddenAgree (a b : Root Table) : Prop :=
  ∀ name, name ≠ reservedCatalogName → (tableOf (a.side name).entry).isSome →
    HiddenSame (a.side name).metadata (b.side name).metadata

variable {Chunk : Type} [IndexChunks Table Chunk]

def entryChunks (Chunk : Type) [IndexChunks Table Chunk] : Option (NsEntry Table) → Std.TreeMap Bytes Chunk
  | some (.table t) => IndexChunks.entries t
  | _ => ∅

theorem entryChunks_of_none {entry : Option (NsEntry Table)} (bare : tableOf entry = none) :
    entryChunks Chunk entry = ∅ := by
  rcases entry with - | (t | chunk)
  · rfl
  · cases bare
  · rfl

theorem entryIndexes_eq {a b : Option (NsEntry Table)} (table : (tableOf a).isSome = (tableOf b).isSome)
    (chunks : ∀ index : Bytes, (entryChunks Chunk a)[index]? = (entryChunks Chunk b)[index]?) :
    entryIndexes a = entryIndexes b := by
  cases left : tableOf a with
  | none =>
    rw [left] at table
    have right : tableOf b = none := by simpa using table.symm
    rw [entryIndexes_of_none left, entryIndexes_of_none right]
  | some t =>
    rw [left] at table
    obtain ⟨_, right⟩ := Option.isSome_iff_exists.mp table.symm
    obtain rfl := tableOf_eq_some.mp left
    obtain rfl := tableOf_eq_some.mp right
    have lists := TreeMap.equiv_iff_toList_eq.mp (TreeMap.Equiv.of_forall_constGet?_eq chunks)
    simp only [entryIndexes, IndexChunks.resolved]
    exact congrArg _ lists

/-- A name looks the same in both roots: the collection exists in both or in none, with the same
documents, index chunks and shown metadata. -/
structure LooksSame (Chunk : Type) [IndexChunks Table Chunk] (a b : NameSide Table) : Prop where
  table : (tableOf a.entry).isSome = (tableOf b.entry).isSome
  docs : ∀ key : Bytes, (entryDocs a.entry)[key]? = (entryDocs b.entry)[key]?
  chunks : ∀ index : Bytes, (entryChunks Chunk a.entry)[index]? = (entryChunks Chunk b.entry)[index]?
  metadata : (tableOf a.entry).isSome → ShownSame a.metadata b.metadata

structure Root.LooksSame (Chunk : Type) [IndexChunks Table Chunk] (a b : Root Table) : Prop where
  collections : ∀ name, name ≠ reservedCatalogName → Dolt.LooksSame Chunk (a.side name) (b.side name)
  views : ∀ name, viewOf (a.side name).entry = viewOf (b.side name).entry

variable [DecidableEq Chunk]

theorem computeIndexChanges_tables (name : Bytes) (t t' : Table) : ∃ added modified removed,
    computeIndexChanges name (some (.table t)) (some (.table t')) = .ok (added, modified, removed) ∧
      ((added = [] ∧ modified = [] ∧ removed = []) ↔
        ∀ index : Bytes, (IndexChunks.entries t)[index]? = (IndexChunks.entries t')[index]?) := by
  refine ⟨_, _, _, rfl, ?_⟩
  simp only [map_eq_nil_iff, missing_eq_nil_iff, forall_getElem?_eq_iff]
  refine and_congr_right fun _ => and_congr_left fun _ => ?_
  rw [filterMap_eq_nil_iff]
  constructor
  · intro none_ index v w left right
    have := none_ (index, v) (TreeMap.mem_toList_iff_getElem?_eq_some.mpr left)
    simpa [right] using this
  · rintro same ⟨index, v⟩ member
    have left := TreeMap.mem_toList_iff_getElem?_eq_some.mp member
    cases right : (IndexChunks.entries t')[index]? with
    | none => simp
    | some w => simp [same index v w left right]

variable [DecidableEq Table] [DocumentDiff]

/-- The step of a name went through and its change, if any, is not reported. -/
def Quiet (step : Except UncommittedError (Option CollectionChange)) : Prop :=
  ∃ c, step = .ok c ∧ ∀ change ∈ c, change.reported = false

theorem quiet_iff {a b : Root Table} {name : Bytes}
    (has : (tableOf (a.side name).entry).isSome ∨ (tableOf (b.side name).entry).isSome) :
    Quiet (collectionChange a b name) ↔ LooksSame Chunk (a.side name) (b.side name) := by
  unfold collectionChange
  extract_lets catalogChanged metaDiff
  have shown : metaDiff = [] ↔ ShownSame (a.side name).metadata (b.side name).metadata := metaDiff_eq_nil_iff
  have looks : LooksSame Chunk (a.side name) (b.side name) ↔
      (tableOf a.entries[name]?).isSome = (tableOf b.entries[name]?).isSome ∧
      (∀ key : Bytes, (entryDocs a.entries[name]?)[key]? = (entryDocs b.entries[name]?)[key]?) ∧
      (∀ index : Bytes, (entryChunks Chunk a.entries[name]?)[index]? = (entryChunks Chunk b.entries[name]?)[index]?) ∧
      ((tableOf a.entries[name]?).isSome → metaDiff = []) := by
    rw [shown]
    exact ⟨fun same => ⟨same.1, same.2, same.3, same.4⟩, fun ⟨table, docs, chunks, metadata⟩ => ⟨table,
      docs, chunks, metadata⟩⟩
  rw [looks]
  change (tableOf a.entries[name]?).isSome ∨ (tableOf b.entries[name]?).isSome at has
  -- only two tables can be told apart by what they hold
  rcases left : a.entries[name]? with - | (t | chunk) <;> rcases right : b.entries[name]? with - | (t' | chunk')
  all_goals rw [left, right] at has
  · simp [tableOf] at has
  · refine iff_of_false ?_ (by simp [tableOf])
    rintro ⟨c, ⟨⟩, quiet⟩
    exact nomatch (reported_eq_false_iff.mp (quiet _ rfl)).2.1
  · simp [tableOf] at has
  · refine iff_of_false ?_ (by simp [tableOf])
    rintro ⟨c, ⟨⟩, quiet⟩
    exact nomatch (reported_eq_false_iff.mp (quiet _ rfl)).2.1
  · by_cases same : t = t'
    · subst same
      rw [if_pos rfl]
      cases metaDiff with
      | nil => exact iff_of_true ⟨none, rfl, nofun⟩ ⟨rfl, fun _ => rfl, fun _ => rfl, fun _ => rfl⟩
      | cons _ _ =>
        refine iff_of_false ?_ fun same => nomatch same.2.2.2 rfl
        rintro ⟨c, ⟨⟩, quiet⟩
        exact nomatch (reported_eq_false_iff.mp (quiet _ rfl)).2.2.2
    · rw [if_neg (by simpa using same)]
      obtain ⟨_, _, _, done, chunks⟩ := computeIndexChanges_tables name t t'
      simp only [done, tableOf, Option.isSome_some, forall_const, true_and]
      constructor
      · rintro ⟨c, ⟨⟩, quiet⟩
        obtain ⟨docs, -, indexes, bare⟩ := reported_eq_false_iff.mp (quiet _ rfl)
        exact ⟨docs, chunks.mp indexes, bare⟩
      · rintro ⟨docs, same, bare⟩
        refine ⟨_, rfl, ?_⟩
        rintro _ ⟨⟩
        exact reported_eq_false_iff.mpr ⟨docs, rfl, chunks.mpr same, bare⟩
  · refine iff_of_false ?_ (by simp [tableOf])
    rintro ⟨c, ⟨⟩, -⟩
  · simp [tableOf] at has
  · refine iff_of_false ?_ (by simp [tableOf])
    rintro ⟨c, ⟨⟩, -⟩
  · simp [tableOf] at has

theorem quiet_names_iff {a b : Root Table} : (∀ name ∈ unionCollectionNames a b, Quiet (collectionChange a b name)) ↔
      ∀ name, name ≠ reservedCatalogName → LooksSame Chunk (a.side name) (b.side name) := by
  constructor
  · intro quiet name user
    by_cases has : (tableOf (a.side name).entry).isSome ∨ (tableOf (b.side name).entry).isSome
    · exact (quiet_iff has).mp (quiet name (mem_unionCollectionNames.mpr ⟨user, has⟩))
    · obtain ⟨left, right⟩ := not_or.mp has
      rw [Option.not_isSome_iff_eq_none] at left right
      refine ⟨by rw [left, right], fun key => ?_, fun index => ?_, fun table => ?_⟩
      · rw [entryDocs_of_none left, entryDocs_of_none right]
      · rw [entryChunks_of_none left, entryChunks_of_none right]
      · exact nomatch (congrArg Option.isSome left).symm.trans table
  · intro looks name member
    obtain ⟨user, has⟩ := mem_unionCollectionNames.mp member
    exact (quiet_iff has).mpr (looks name user)

theorem requireNoUncommittedChanges_ok_iff {a b : Root Table} :
    requireNoUncommittedChanges a b = .ok () ↔ a.LooksSame Chunk b := by
  unfold requireNoUncommittedChanges
  by_cases same : a.same b = true
  · have side := Root.side_of_same same
    rw [if_pos same]
    refine iff_of_true rfl ⟨fun name _ => ?_, fun name => by rw [side]⟩
    rw [side]
    exact ⟨rfl, fun _ => rfl, fun _ => rfl, fun _ => .refl _⟩
  · rw [if_neg same]
    have quiet : (∃ changes, (unionCollectionNames a b).mapM (collectionChange a b) = .ok changes ∧
        ∀ c ∈ changes, ∀ change ∈ c, change.reported = false) ↔
          ∀ name ∈ unionCollectionNames a b, Quiet (collectionChange a b name) := exists_mapM_ok_iff
    constructor
    · intro passed
      obtain ⟨changes, mapped, verdict⟩ := bind_eq_ok.mp passed
      dsimp only at verdict
      split at verdict
      case isTrue clean =>
        obtain ⟨collections, views⟩ := Bool.and_eq_true_iff.mp clean
        exact ⟨quiet_names_iff.mp (quiet.mp ⟨changes, mapped, reported_names_isEmpty_iff.mp collections⟩),
          changed_views_isEmpty_iff.mp views⟩
      case isFalse => cases verdict
    · intro looks
      obtain ⟨changes, mapped, collections⟩ := quiet.mpr (quiet_names_iff.mpr looks.collections)
      refine bind_eq_ok.mpr ⟨changes, mapped, if_pos ?_⟩
      exact Bool.and_eq_true_iff.mpr ⟨reported_names_isEmpty_iff.mpr collections,
        changed_views_isEmpty_iff.mpr looks.views⟩

/-- Where the check passes the roots agree on all documents, indexes, metadata and views, if they agree
on the metadata that no diff shows, or something else looks different. -/
theorem uncommitted_changes_found (head working : Root Table) :
    (requireNoUncommittedChanges head working = .ok () → head.Agree working) ↔
      (¬head.LooksSame Chunk working ∨ head.HiddenAgree working) := by
  rw [requireNoUncommittedChanges_ok_iff, ← imp_iff_not_or]
  refine forall_congr' fun looks => ?_
  constructor
  · intro agree name user table
    exact (sameMetadata_iff ((looks.collections name user).metadata table)).mp ((agree name user).metadata table)
  · intro hidden name user
    have same := looks.collections name user
    refine ⟨looks.views name, same.table, same.docs, entryIndexes_eq same.table same.chunks, fun table => ?_⟩
    exact (sameMetadata_iff (same.metadata table)).mpr (hidden name user table)

end

/-! A change of the merge mode. -/

instance : IndexChunks ListedTable Empty where
  entries _ := ∅
  resolveIndexEntry := nofun
  resolved _ := rfl

def underMode (mode : Bytes) : Root ListedTable :=
  let held : ListedTable := ⟨[([1], [(idKey, .int32 1)])]⟩
  ⟨.ofList [(ascii ['c'], NsEntry.table held)],
    .ofList [(ascii ['c'], catalogDoc (ascii ['c']) { docToCollMeta [] with mergeMode := mode })]⟩

abbrev wholeDocuments : DocumentDiff := ⟨fun _ _ _ => []⟩

abbrev checkListed : Root ListedTable → Root ListedTable → Except UncommittedError Unit :=
  @requireNoUncommittedChanges ListedTable Empty _ _ _ _ wholeDocuments

/-- The collection is set to another merge mode, and the branch passes as clean. -/
theorem changed_mode_passes :
    checkListed (underMode []) (underMode (ascii "fieldDivergent".toList)) = .ok () ∧
      ¬(underMode []).Agree (underMode (ascii "fieldDivergent".toList)) := by
  obtain ⟨_, passes, -⟩ : ∃ done, checkListed (underMode []) (underMode (ascii "fieldDivergent".toList))
    = .ok done ∧ True := by
    decide +kernel
  refine ⟨passes, fun agree => ?_⟩
  have modes := ((agree (ascii ['c']) (by decide)).metadata (by decide +kernel)).mergeMode
  exact absurd modes (by decide +kernel)

end DumboDB.Dolt
