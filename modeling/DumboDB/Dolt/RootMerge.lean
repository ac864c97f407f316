import DumboDB.Dolt.NamespaceConflict

/-!
The root of a branch, all its names with the catalog, and how the write of a session is reconciled
with what the branch holds by then.
-/

namespace DumboDB.Dolt
open Foundation ByteOrder DumboDB.Types Index Handler

/-- The tables under their addresses. Documents are read back as they are stored. -/
class TableStore (Table : Type) where
  coll : Table → Collection
  write : Collection → Table
  stored : ∀ (t : Table) (key : Bytes) (doc : Document), (coll t).docs[key]? = some doc → canonical doc = doc
  docs_write : ∀ (c : Collection) (key : Bytes), (coll (write c)).docs[key]? = (c.docs[key]?).map canonical

/-- Names with their entries, and the documents of the catalog by the names they describe. -/
structure Root (Table : Type) where
  entries : Std.TreeMap Bytes (NsEntry Table)
  catalog : Std.TreeMap Bytes Document

namespace Root
variable {Table : Type}

def side (r : Root Table) (name : Bytes) : NameSide Table := ⟨r.entries[name]?, r.catalog[name]?⟩

def put (r : Root Table) (name : Bytes) (side : NameSide Table) : Root Table :=
  ⟨r.entries.alter name fun _ => side.entry, r.catalog.alter name fun _ => side.catalog⟩

def names (r : Root Table) : List Bytes := r.entries.keys ++ r.catalog.keys

def same [DecidableEq Table] (a b : Root Table) : Bool :=
  a.entries.toList == b.entries.toList && a.catalog.toList == b.catalog.toList

end Root

inductive ReconcileError where
  | paused
  | name (error : NamespaceError)
  | filter (error : FilterError)
  | conflicts

def collValidation (catalog : Option Document) : CollValidation :=
  match catalog.map docToCollMeta with
  | none => ⟨none, false, false⟩
  | some m =>
    ⟨m.validator, m.validationLevel == ascii "off".toList, m.validationAction == ascii "warn".toList⟩

structure RootMerge (Table : Type) where
  root : Root Table
  documents : List ConflictEntry
  views : List ViewConflictEntry
  metadata : List MetaConflictEntry

def RootMerge.clear {Table : Type} (m : RootMerge Table) : Bool :=
  m.documents.isEmpty && m.views.isEmpty && m.metadata.isEmpty

/-- A branch's working set; an operation may be paused on it. -/
structure WorkingSet (Table : Type) where
  working : Root Table
  staged : Root Table
  mergeActive : Bool

section
variable {Table : Type} [TableStore Table]

/-- The documents under a name; a name without a collection has none. -/
def entryDocs : Option (NsEntry Table) → Std.TreeMap Bytes Document
  | some (.table t) => (TableStore.coll t).docs
  | _ => ∅

variable [Platform] [QueryEnv] [ConflictHash] [CollationIdentity]

instance : TableMerge Table where
  mergeCollectionDTBL name theirHash mode into from_ base :=
    let w : ThreeWay :=
      { collection := name
        intoColl := TableStore.coll into
        fromColl := TableStore.coll from_
        baseColl := (base.map TableStore.coll).getD emptyCollection
        theirHash := theirHash
        mode := mode }
    (mergeCollection w).map fun c =>
      (TableStore.write ⟨w.intoColl.idComparator, c.merged, buildIndexAM (finalize c)⟩, c.entries)

variable [DecidableEq Table] [Digest] [ValidatorMatcher]

def mergeRootStep (theirHash : Bytes) (into from_ base : Root Table) (m : RootMerge Table) (name : Bytes) :
    Except ReconcileError (RootMerge Table) :=
  match mergeName ⟨name, theirHash, into.side name, from_.side name, base.side name⟩ with
  | .error error => .error (.name error)
  | .ok merged =>
    match crossValidateMergedDocuments name theirHash (collValidation merged.side.catalog)
        (merged.metadata.map (·.resolved)) (entryDocs merged.side.entry) (entryDocs (base.side name).entry)
        false merged.documents with
    | .error error => .error (.filter error)
    | .ok documents =>
      .ok ⟨m.root.put name merged.side, m.documents ++ documents, m.views ++ merged.view.toList,
        m.metadata ++ merged.metadata.toList⟩

def mergeAddressMapsWithConflicts (theirHash : Bytes) (into from_ base : Root Table) :
    Except ReconcileError (RootMerge Table) :=
  (Std.TreeSet.ofList (into.names ++ from_.names ++ base.names)).toList.foldlM
    (mergeRootStep theirHash into from_ base) ⟨into, [], [], []⟩

/-- A write over what the branch holds by now. One side that changed nothing yields to the other;
otherwise the merge decides, also where both came to the same root. -/
def reconcileWorkingSets (theirsHash : Bytes) (base ours theirs : WorkingSet Table) :
    Except ReconcileError (WorkingSet Table) :=
  if base.working.same ours.working then .ok theirs
  else if base.working.same theirs.working then
    .ok { theirs with working := ours.working, staged := ours.staged }
  else
    match mergeAddressMapsWithConflicts theirsHash ours.working theirs.working base.working with
    | .error error => .error error
    | .ok m => if m.clear then .ok { theirs with working := m.root, staged := m.root } else .error .conflicts

/-- A branch on which an operation is paused takes no writes. -/
def reconcileBranchForSession (theirsHash : Bytes) (base ours theirs : WorkingSet Table) :
    Except ReconcileError (WorkingSet Table) :=
  if theirs.mergeActive then .error .paused else reconcileWorkingSets theirsHash base ours theirs

end

/-- The branch still holds the working set of the fork point. -/
def WorkingSet.holds {Table : Type} [DecidableEq Table] (branch forkPoint : WorkingSet Table) : Prop :=
  branch.working.same forkPoint.working = true ∧ branch.staged.same forkPoint.staged = true ∧
    branch.mergeActive = forkPoint.mergeActive

end DumboDB.Dolt
