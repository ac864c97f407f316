import DumboDB.Dolt.IdHash
import DumboDB.Dolt.IndexRows

/-!
A collection with its secondary indexes, and the operations that change them: batched inserts,
updates and deletes, index builds and drops. Prolly maps are ordered finite maps.
-/

namespace DumboDB.Dolt
open Foundation ByteOrder DumboDB.Types Index Handler List

structure SecondaryIndex where
  info : IndexInfo
  entries : Std.TreeSet Bytes

/-- The indexes of a collection, in the order of their names. -/
structure IndexSet where
  list : List SecondaryIndex
  sorted : list.Pairwise fun a b => compare a.info.name b.info.name = .lt

theorem nil_sorted : [].Pairwise fun a b : SecondaryIndex => compare a.info.name b.info.name = .lt := .nil

/-- The documents under the keys of their ids, as they are stored. The comparator is that of the
collection's default collation. -/
structure Collection where
  idComparator : Option (Bytes → Bytes)
  docs : Std.TreeMap Bytes Document
  indexes : IndexSet

inductive WriteError where
  | missingID
  | unsupportedID
  | duplicateKey (index : Bytes) (key : Document)
  | partialFilter (error : FilterError)

namespace IndexSet

theorem pairwise_map {f : SecondaryIndex → SecondaryIndex} (named : ∀ s, (f s).info.name = s.info.name)
    (indexes : IndexSet) : (indexes.list.map f).Pairwise fun a b => compare a.info.name b.info.name = .lt := by
  rw [List.pairwise_map]
  simp only [named]
  exact indexes.sorted

def map (f : SecondaryIndex → SecondaryIndex) (named : ∀ s, (f s).info.name = s.info.name)
    (indexes : IndexSet) : IndexSet :=
  ⟨indexes.list.map f, pairwise_map named indexes⟩

def filter (keep : SecondaryIndex → Bool) (indexes : IndexSet) : IndexSet :=
  ⟨indexes.list.filter keep, indexes.sorted.filter _⟩

def place (s : SecondaryIndex) : List SecondaryIndex → List SecondaryIndex
  | [] => [s]
  | first :: rest =>
    if compare s.info.name first.info.name = .lt then s :: first :: rest else first :: place s rest

theorem mem_place {s t : SecondaryIndex} {list : List SecondaryIndex} : t ∈ place s list ↔ t = s ∨ t ∈ list := by
  induction list with
  | nil => simp [place]
  | cons _ _ ih =>
    unfold place
    split
    · simp
    · rw [mem_cons, ih, mem_cons]
      exact or_left_comm

theorem pairwise_place {s : SecondaryIndex} {list : List SecondaryIndex}
    (fresh : ∀ t ∈ list, t.info.name ≠ s.info.name)
    (sorted : list.Pairwise fun a b => compare a.info.name b.info.name = .lt) :
    (place s list).Pairwise fun a b => compare a.info.name b.info.name = .lt := by
  induction list with
  | nil => simp [place]
  | cons first _ ih =>
    rw [pairwise_cons] at sorted
    unfold place
    split
    next before =>
      refine pairwise_cons.mpr ⟨?_, pairwise_cons.mpr sorted⟩
      intro t member
      rcases mem_cons.mp member with rfl | later
      · exact before
      · exact Std.TransCmp.lt_trans before (sorted.1 t later)
    next after =>
      refine pairwise_cons.mpr ⟨?_, ih (fun t member => fresh t (.tail _ member)) sorted.2⟩
      intro t member
      rcases mem_place.mp member with rfl | later
      · have apart : compare t.info.name first.info.name ≠ .eq := fun same =>
          fresh first (.head _) (Std.compare_eq_iff_eq.mp same).symm
        rw [← Std.OrientedCmp.gt_iff_lt]
        cases order : compare t.info.name first.info.name with
        | lt => exact absurd order after
        | eq => exact absurd order apart
        | gt => rfl
      · exact sorted.1 t later

def insert (s : SecondaryIndex) (indexes : IndexSet) : IndexSet :=
  let others := indexes.list.filter fun t => t.info.name != s.info.name
  ⟨place s others, pairwise_place (fun _ member => by simpa using List.of_mem_filter member)
    (indexes.sorted.filter _)⟩

end IndexSet

def defaultIndexName : Bytes := ascii ['_', 'i', 'd', '_']

def idDupKey (id : Value) : Document := [(idKey, id)]

def indexDupKey (doc : Document) (idx : IndexInfo) : Document :=
  idx.key.map fun kp => (kp.field, indexFieldValue doc kp.field)

def extractIndexKey (doc : Document) (idx : IndexInfo) : List Value :=
  idx.key.map fun kp => indexFieldValue doc kp.field

/-- One component of a key; strings are equal when their sort keys are. -/
def componentsEqualColl (comparator : Option (Bytes → Bytes)) (a b : Value) : Bool :=
  match comparator, a, b with
  | some key, .string s, .string t => key s == key t
  | _, a, b => Compare a b == .eq

def indexKeysEqualColl (a b : List Value) (comparator : Option (Bytes → Bytes)) : Bool :=
  a.length == b.length && (a.zip b).all fun pair => componentsEqualColl comparator pair.1 pair.2

def entryID (key : Bytes) : Option Bytes :=
  if key.length < primaryIDLen + 1 then none
  else
    let idStart := key.length - primaryIDLen
    if key[idStart - 1]? = some discriminator then some (key.drop idStart) else none

/-- The ids of the entries in `[start, stop)`; none when there are more than the cap. -/
def RangeLookupCapped (m : Std.TreeSet Bytes) (start stop : Bytes) (maxResults : Nat) : List Bytes :=
  let results := (m.toList.filter fun key => InRange start stop key).filterMap entryID
  if maxResults < results.length then [] else results

section
variable [Platform]

def EqualityProbeBounds (fieldValues : List Value) : Bytes × Bytes :=
  (BuildSecondaryKey fieldValues [], fieldValues.flatMap EncodeValue ++ [discriminator + 1])

def UniqueConflict (m : Std.TreeSet Bytes) (fieldValues : List Value) (selfID : Bytes) : Bool :=
  let (start, stop) := EqualityProbeBounds fieldValues
  (RangeLookupCapped m start stop 2).any fun id => id != selfID

def entryKeysForRows (rows : List (List Value)) (idBytes : Bytes) : List Bytes :=
  rows.map fun row => BuildSecondaryKey row idBytes

end

def putAll (m : Std.TreeSet Bytes) (keys : List Bytes) : Std.TreeSet Bytes := keys.foldl .insert m

def deleteAll (m : Std.TreeSet Bytes) (keys : List Bytes) : Std.TreeSet Bytes := keys.foldl .erase m

/-- The flags after an operation that added the entries. -/
def IndexInfo.raise (info : IndexInfo) (e : Entries) : IndexInfo :=
  { info with multikey := info.multikey || e.multikey, lossy := info.lossy || e.lossy }

section
variable [Digest]

def keyOf (doc : Document) : Except WriteError Bytes :=
  match doc.get idKey with
  | none => .error .missingID
  | some id =>
    match hashID id with
    | none => .error .unsupportedID
    | some h => .ok h

end

section
variable [QueryEnv]

/-- Whether a stored document other than the one under `selfHash` has an equal key. -/
def scanUniqueConflict (docs : Std.TreeMap Bytes Document) (idx : IndexInfo) (doc : Document)
    (selfHash : Bytes) : Bool :=
  docs.toList.any fun (h, existing) =>
    h != selfHash && MatchesPartialFilter idx existing && !sparseExcludes existing idx &&
      indexKeysEqualColl (extractIndexKey doc idx) (extractIndexKey existing idx) idx.comparator

end

/-- Whether a stored string id other than the one under `selfHash` is equal under the collation. -/
def scanCollatedIDConflict (docs : Std.TreeMap Bytes Document) (idStr selfHash : Bytes)
    (key : Bytes → Bytes) : Bool :=
  docs.toList.any fun (h, existing) =>
    h != selfHash && match existing.get idKey with
      | some (.string s) => key s == key idStr
      | _ => false

/-! Index maintenance. -/

theorem info_foldl {α γ : Type} {g : IndexInfo → γ} {f : SecondaryIndex → α → SecondaryIndex}
    (kept : ∀ s a, g (f s a).info = g s.info) (list : List α) (s : SecondaryIndex) :
    g (list.foldl f s).info = g s.info := by
  induction list generalizing s with
  | nil => rfl
  | cons a list ih => rw [foldl_cons, ih, kept]

section
variable [Platform] [QueryEnv]

def insertEntries (s : SecondaryIndex) (id : Bytes) (doc : Document) : SecondaryIndex :=
  let e := indexEntriesForDoc doc s.info
  ⟨s.info.raise e, putAll s.entries (entryKeysForRows e.rows id)⟩

/-- Only the keys of one version that the other does not have are touched. -/
def updateEntries (s : SecondaryIndex) (id : Bytes) (oldDoc newDoc : Document) : SecondaryIndex :=
  let e := indexEntriesForDoc newDoc s.info
  let oldKeys := entryKeysForRows (indexEntriesForDoc oldDoc s.info).rows id
  let newKeys := entryKeysForRows e.rows id
  let kept := deleteAll s.entries (oldKeys.filter fun key => !newKeys.contains key)
  ⟨s.info.raise e, putAll kept (newKeys.filter fun key => !oldKeys.contains key)⟩

def deleteEntries (s : SecondaryIndex) (id : Bytes) (doc : Document) : SecondaryIndex :=
  ⟨s.info, deleteAll s.entries (entryKeysForRows (indexEntriesForDoc doc s.info).rows id)⟩

/-- Documents come with the keys that were computed for them. -/
def insertAllEntries (docs : List (Bytes × Document)) (s : SecondaryIndex) : SecondaryIndex :=
  docs.foldl (fun s (id, doc) => insertEntries s id doc) s

def updateAllEntries (pairs : List (Bytes × Document × Document)) (s : SecondaryIndex) : SecondaryIndex :=
  pairs.foldl (fun s (id, oldDoc, newDoc) => updateEntries s id oldDoc newDoc) s

def deleteAllEntries (docs : List (Bytes × Document)) (s : SecondaryIndex) : SecondaryIndex :=
  docs.foldl (fun s (id, doc) => deleteEntries s id doc) s

def applyInsertsToIndexes (indexes : IndexSet) (docs : List (Bytes × Document)) : IndexSet :=
  indexes.map (insertAllEntries docs) (info_foldl (g := IndexInfo.name) (by intros; rfl) docs)

def applyUpdatesToIndexes (indexes : IndexSet) (pairs : List (Bytes × Document × Document)) : IndexSet :=
  indexes.map (updateAllEntries pairs) (info_foldl (g := IndexInfo.name) (by intros; rfl) pairs)

/-- The ids of stored documents are hashed again here. -/
def applyDeletesToIndexes [Digest] (indexes : IndexSet) (oldDocs : List Document) :
    Except WriteError IndexSet :=
  if indexes.list.isEmpty then .ok indexes
  else do
    let keyed ← oldDocs.mapM fun doc => (keyOf doc).map fun h => (h, doc)
    return indexes.map (deleteAllEntries keyed) (info_foldl (g := IndexInfo.name) (by intros; rfl) keyed)

end

/-! Inserts. The probes of a batch see the maps as they were before it, so the batch keeps what
its own documents claimed, by index name. -/

structure InsertBatch where
  newMap : Std.TreeMap Bytes Document
  added : List (Bytes × Document)
  strIDs : List Bytes
  uniqueEntryKeys : List (Bytes × Bytes)
  lossyKeys : List (Bytes × List Value)

section
variable [Platform] [QueryEnv]

/-- The check of one unique index for one document, and what the document claims there. -/
def claimUnique (docs : Std.TreeMap Bytes Document) (h : Bytes) (doc : Document) (b : InsertBatch)
    (s : SecondaryIndex) : Except WriteError InsertBatch :=
  let e := indexEntriesForDoc doc s.info
  let duplicate := WriteError.duplicateKey s.info.name (indexDupKey doc s.info)
  if e.rows.isEmpty then .ok b
  else if e.lossy || s.info.lossy then
    let newKey := extractIndexKey doc s.info
    if scanUniqueConflict docs s.info doc h then .error duplicate
    else if b.lossyKeys.any fun (name, key) =>
        name == s.info.name && indexKeysEqualColl newKey key s.info.comparator then .error duplicate
    else .ok { b with lossyKeys := b.lossyKeys ++ [(s.info.name, newKey)] }
  else
    let docPrefixes := e.rows.map fun row => (s.info.name, (EqualityProbeBounds row).1)
    if docPrefixes.any fun claim => b.uniqueEntryKeys.contains claim then .error duplicate
    else if e.rows.any fun row => UniqueConflict s.entries row h then .error duplicate
    else .ok { b with uniqueEntryKeys := b.uniqueEntryKeys ++ docPrefixes }

/-- String ids must differ under the collection's collation. -/
def claimCollatedID (c : Collection) (h : Bytes) (docID : Value) (b : InsertBatch) :
    Except WriteError InsertBatch :=
  match docID, c.idComparator with
  | .string idStr, some key =>
    if scanCollatedIDConflict c.docs idStr h key || b.strIDs.any fun prev => key prev == key idStr then
      .error (.duplicateKey defaultIndexName (idDupKey docID))
    else .ok { b with strIDs := b.strIDs ++ [idStr] }
  | _, _ => .ok b

variable [Digest]

def insertDoc (c : Collection) (b : InsertBatch) (doc : Document) : Except WriteError InsertBatch := do
  let h ← keyOf doc
  let docID := (doc.get idKey).getD .null
  if c.docs.contains h || b.added.any fun (prev, _) => prev == h then
    .error (.duplicateKey defaultIndexName (idDupKey docID))
  else
    let collated ← claimCollatedID c h docID b
    let claimed ← (c.indexes.list.filter (·.info.unique)).foldlM (claimUnique c.docs h doc) collated
    return { claimed with
      newMap := claimed.newMap.insert h (canonical doc), added := claimed.added ++ [(h, doc)] }

/-- The indexes take the documents as given, the primary map as stored. -/
def InsertAll (c : Collection) (docs : List Document) : Except WriteError Collection := do
  let b ← docs.foldlM (insertDoc c) ⟨c.docs, [], [], [], []⟩
  return { c with docs := b.newMap, indexes := applyInsertsToIndexes c.indexes b.added }

end

/-! Updates replace stored documents. A later version in a batch sees the earlier one in the
primary map, but every unique probe sees the maps from before the batch. -/

structure UpdateBatch where
  newMap : Std.TreeMap Bytes Document
  pairs : List (Bytes × Document × Document)

section
variable [Platform] [QueryEnv]

def validateUniqueIndex (docs : Std.TreeMap Bytes Document) (newDoc : Document) (selfHash : Bytes)
    (s : SecondaryIndex) : Except WriteError Unit :=
  let e := indexEntriesForDoc newDoc s.info
  let duplicate := WriteError.duplicateKey s.info.name (indexDupKey newDoc s.info)
  if !s.info.unique || e.rows.isEmpty then .ok ()
  else if e.lossy || s.info.lossy then
    if scanUniqueConflict docs s.info newDoc selfHash then .error duplicate else .ok ()
  else if e.rows.any fun row => UniqueConflict s.entries row selfHash then .error duplicate
  else .ok ()

def validateUniqueOnUpdate (c : Collection) (newDoc : Document) (selfHash : Bytes) : Except WriteError Unit :=
  c.indexes.list.forM (validateUniqueIndex c.docs newDoc selfHash)

variable [Digest]

def updateDoc (c : Collection) (b : UpdateBatch) (doc : Document) : Except WriteError UpdateBatch := do
  let h ← keyOf doc
  match b.newMap[h]? with
  | none => return b
  | some oldDoc =>
    let newDoc := canonical doc
    validateUniqueOnUpdate c newDoc h
    return ⟨b.newMap.insert h newDoc, b.pairs ++ [(h, oldDoc, newDoc)]⟩

def UpdateAll (c : Collection) (docs : List Document) : Except WriteError (Collection × Nat) := do
  let b ← docs.foldlM (updateDoc c) ⟨c.docs, []⟩
  if b.pairs.isEmpty then return (c, 0)
  else
    return ({ c with docs := b.newMap, indexes := applyUpdatesToIndexes c.indexes b.pairs }, b.pairs.length)

end

/-! Deletes, by id or by record id. -/

structure DeleteBatch where
  newMap : Std.TreeMap Bytes Document
  oldDocs : List Document

def keyBytesToRecordID (keyBytes : Bytes) : Int64 :=
  if keyBytes.length < 8 then 0
  else ((keyBytes.take 8).foldl (fun n b => n * 256 + b.toUInt64) (0 : UInt64)).toInt64

def deleteRecords (docs : Std.TreeMap Bytes Document) (recordIDs : List Int64) : DeleteBatch :=
  let targets := docs.toList.filter fun (key, _) => recordIDs.contains (keyBytesToRecordID key)
  ⟨targets.foldl (fun m (key, _) => m.erase key) docs, targets.map Prod.snd⟩

section
variable [Digest]

def deleteID (b : DeleteBatch) (id : Value) : DeleteBatch :=
  match hashID id with
  | none => b
  | some h =>
    match b.newMap[h]? with
    | none => b
    | some oldDoc => ⟨b.newMap.erase h, b.oldDocs ++ [oldDoc]⟩

def deleteDocs (docs : Std.TreeMap Bytes Document) (ids : List Value) : Option (List Int64) → DeleteBatch
  | some recordIDs => deleteRecords docs recordIDs
  | none => ids.foldl deleteID ⟨docs, []⟩

def DeleteAll [Platform] [QueryEnv] (c : Collection) (ids : List Value) (recordIDs : Option (List Int64)) :
    Except WriteError (Collection × Nat) :=
  let b := deleteDocs c.docs ids recordIDs
  if b.oldDocs.isEmpty then .ok (c, 0)
  else do
    let indexes ← applyDeletesToIndexes c.indexes b.oldDocs
    return ({ c with docs := b.newMap, indexes := indexes }, b.oldDocs.length)

end

/-! Index builds and drops. -/

structure IndexBuild where
  seen : List (Bytes × Bytes)
  index : SecondaryIndex

section
variable [Platform] [QueryEnv]

def rowConflictKey (row : List Value) : Bytes := (EqualityProbeBounds row).1

def partialFilterResult (idx : IndexInfo) (doc : Document) : Except FilterError Bool :=
  match idx.partialFilterExpression with
  | none => .ok true
  | some filter => FilterDocument doc filter

def checkUniqueBuildConflict (idx : IndexInfo) (doc : Document) (idBytes : Bytes) (rows : List (List Value))
    (seen : List (Bytes × Bytes)) : Except WriteError (List (Bytes × Bytes)) :=
  match partialFilterResult idx doc with
  | .error error => .error (.partialFilter error)
  | .ok covered =>
    if !covered || sparseExcludes doc idx then .ok seen
    else
      rows.foldlM (fun seen row =>
        match seen.lookup (rowConflictKey row) with
        | none => .ok (seen ++ [(rowConflictKey row, idBytes)])
        | some owner =>
          if owner != idBytes then .error (.duplicateKey idx.name (indexDupKey doc idx)) else .ok seen)
        seen

/-- One document of the build scan; a document with a lossy row is not checked. -/
def buildDoc (idx : IndexInfo) (b : IndexBuild) (stored : Bytes × Document) : Except WriteError IndexBuild :=
  let e := indexEntriesForDoc stored.2 idx
  let checked :=
    if idx.unique && !idx.lossy && !e.lossy then
      checkUniqueBuildConflict idx stored.2 stored.1 e.rows b.seen
    else .ok b.seen
  checked.map fun seen => ⟨seen, insertEntries b.index stored.1 stored.2⟩

def buildSecondaryIndex (docs : Std.TreeMap Bytes Document) (idx : IndexInfo) :
    Except WriteError SecondaryIndex := do
  let b ← docs.toList.foldlM (buildDoc idx) ⟨[], ⟨idx, ∅⟩⟩
  return b.index

def createIndex (docs : Std.TreeMap Bytes Document) (indexes : IndexSet) (idx : IndexInfo) :
    Except WriteError IndexSet :=
  if idx.name == defaultIndexName || indexes.list.any fun s => s.info.name == idx.name then .ok indexes
  else (buildSecondaryIndex docs idx).map fun s => indexes.insert s

def CreateIndexes (c : Collection) (indexes : List IndexInfo) : Except WriteError Collection := do
  let built ← indexes.foldlM (createIndex c.docs) c.indexes
  return { c with indexes := built }

end

def DropIndexes (c : Collection) (names : List Bytes) : Collection :=
  { c with indexes := c.indexes.filter fun s => !names.contains s.info.name }

inductive Op where
  | insertAll (docs : List Document)
  | updateAll (docs : List Document)
  | deleteAll (ids : List Value) (recordIDs : Option (List Int64))
  | createIndexes (indexes : List IndexInfo)
  | dropIndexes (names : List Bytes)

section
variable [Platform] [QueryEnv] [Digest]

def step (c : Collection) : Op → Except WriteError Collection
  | .insertAll docs => InsertAll c docs
  | .updateAll docs => (UpdateAll c docs).map Prod.fst
  | .deleteAll ids recordIDs => (DeleteAll c ids recordIDs).map Prod.fst
  | .createIndexes indexes => CreateIndexes c indexes
  | .dropIndexes names => .ok (DropIndexes c names)

/-- The collection after an operation; a failed one leaves no trace. -/
def next (c : Collection) (op : Op) : Collection :=
  match step c op with
  | .ok after => after
  | .error _ => c

def run (c : Collection) (ops : List Op) : Collection := ops.foldl next c

end

end DumboDB.Dolt
