import DumboDB.Foundation.Fallible
import DumboDB.Foundation.Transition
import DumboDB.Handler.BulkWrite
import DumboDB.Handler.OutputStages
import Mathlib.Logic.Function.Basic

/-!
What keeps clients out of the `admin` database. A guard in front of the handlers looks at the
command's name and its `$db`; `bulkWrite`, `renameCollection` and `dropDatabase` check the names
they take from elsewhere. The targets of `$out` and `$merge` are checked nowhere.
-/

namespace DumboDB.Handler

open Foundation ByteOrder DumboDB.Types Authz Backends Index Transition Fallible List

abbrev Collections := Bytes → Option (List Document)

abbrev Databases := Bytes → Bytes → Collections

/-- The calls of the storage interface that change something. -/
inductive Change where
  | createCollection (name : Bytes)
  | dropCollection (name : Bytes)
  | renameCollection (oldName newName : Bytes) (dropTarget : Bool)
  /-- `InsertAll`, `UpdateAll` and `DeleteAll`, by what they leave in the collection. -/
  | writeDocuments (collection : Bytes) (left : List Document → List Document)

def Change.apply : Change → Collections → Collections
  | createCollection name, c => if (c name).isSome then c else Function.update c name (some [])
  | dropCollection name, c => Function.update c name none
  | renameCollection oldName newName dropTarget, c =>
    match c oldName with
    | none => c
    | some docs =>
      if (c newName).isSome && !dropTarget then c
      else Function.update (Function.update c oldName none) newName (some docs)
  | writeDocuments collection left, c => Function.update c collection (some (left ((c collection).getD [])))

/-- A change in the database of an encoded name, or the end of a database. -/
inductive Write where
  | change (db : Bytes) (change : Change)
  | dropDatabase (name : Bytes)

def defaultBranch : Bytes := ascii "main".toList

/-- `splitEncodedDBName` of the backend: without a ref a name means the default branch. -/
def databaseBranch (encoded : Bytes) : Bytes × Bytes :=
  let (base, rootish) := splitEncodedDBName encoded
  (base, if rootish = [] then defaultBranch else rootish)

/-- The database that is written. Only dropping one takes the name as it is. -/
def Write.base : Write → Bytes
  | change db _ => (splitEncodedDBName db).1
  | dropDatabase name => name

def Databases.write (s : Databases) : Write → Databases
  | .change db change =>
    let (base, branch) := databaseBranch db
    Function.update s base (Function.update (s base) branch (change.apply (s base branch)))
  | .dropDatabase name => Function.update s name fun _ _ => none

variable {w : Write} {db : Bytes} {s : Databases} {msg : Message} {document : Document} {v : Value}

theorem write_other (other : w.base ≠ db) : s.write w db = s db := by
  cases w with
  | change | dropDatabase => exact Function.update_of_ne (Ne.symm other) _ _

theorem writes_other {writes : List Write} (others : ∀ w ∈ writes, w.base ≠ db) (s : Databases) :
    writes.foldl Databases.write s db = s db := by
  induction writes generalizing s with
  | nil => rfl
  | cons w writes ih =>
    obtain ⟨here, rest⟩ := forall_mem_cons.mp others
    rw [foldl_cons, ih rest, write_other here]

def isAdminDatabase (encoded : Bytes) : Bool := (splitEncodedDBName encoded).1 = admin

def adminMutationDenied : List Bytes :=
  ["insert", "update", "delete", "findAndModify", "findandmodify", "create", "drop"].map field

def guardAdminMutation (name db : Bytes) : Bool := isAdminDatabase db && name ∈ adminMutationDenied

def contains (s part : Bytes) : Bool := s.tails.any fun rest => part.isPrefixOf rest

def MaxRootishBytes : Nat := 512

def parseRootish (s : Bytes) : Bool :=
  s ≠ [] && s.length ≤ MaxRootishBytes && !contains s (field "@") && !contains s (field "..") &&
    !(field ":/").isPrefixOf s && !contains s (field "^\x7b")

def isHEADRootish (s : Bytes) : Bool := s = field "HEAD" || (field "HEAD~").isPrefixOf s ||
    (field "HEAD^").isPrefixOf s

/-- `branchFromDBName`, by the base name; none stands for an error. -/
def branchFromDBName (encoded : Bytes) : Option Bytes :=
  let base := encoded.takeWhile fun b => b ≠ 64
  if base = [] ∨ base.length = encoded.length then some encoded
  else
    match pathUnescape (encoded.drop (base.length + 1)) with
    | none => none
    | some candidate =>
      if rootishAllDigits candidate then some encoded
      else if parseRootish candidate && !isHEADRootish candidate then some base
      else none

def enforceRootDatabase (encoded : Bytes) : Bool := branchFromDBName encoded = some encoded

def isSystemDatabase (name : Bytes) : Bool := name = admin || name = field "config" || name = field "local"

def splitNamespace (ns : Bytes) : Option (Bytes × Bytes) :=
  let db := ns.takeWhile fun b => b ≠ 46
  let collection := ns.drop (db.length + 1)
  if db.length = ns.length ∨ db = [] ∨ collection = [] then none else some (db, collection)

def getBoolOptionalParam : Value → Option Bool
  | .double f => some (f.isNaN || f.units ≠ 0)
  | .bool b => some b
  | .null => some false
  | .int32 n => some (n ≠ 0)
  | .int64 n => some (n ≠ 0)
  | _ => none

def checkSystemCollectionRename (oldDBName oldCName newDBName newCName : Bytes) : Bool :=
  !([field "system.users", field "system.js"].any fun reserved => oldCName = reserved || newCName = reserved) &&
    !isAdminDatabase oldDBName && !isAdminDatabase newDBName &&
    !(field "system.").isPrefixOf oldCName && !(field "system.").isPrefixOf newCName

/-- What the handlers do with the documents they read: filters, updates, pipelines and what storage answers. -/
structure Work where
  insert : Databases → Document → List Change
  update : Databases → Document → List Change
  delete : Databases → Document → List Change
  findAndModify : Databases → Document → List Change
  create : Databases → Document → List Change
  /-- The checks that a batch makes of an op's own content, and what becomes of its ops. -/
  accepts : Document → Bool
  storage : Databases → Document → Storage
  bulk : Databases → Document → BulkWrite → List Change
  builds : Document → Bool
  /-- The batches of documents that reach the stage at a position, and the suffix of a temporary name. -/
  batches : Databases → Document → Nat → List (List Document)
  uuid : Databases → Document → Bytes
  /-- What one batch of a merge leaves in the target. -/
  merged : OutputStage → List Document → List Document → List Document

/-- A handler that works on the database of the command. -/
def onCommandDatabase (changes : Document → List Change) (document : Document) : List Write :=
  match document.get (field "$db") with
  | some (.string db) => (changes document).map (.change db)
  | _ => []

def msgInsert (work : Work) (s : Databases) (document : Document) : List Write :=
    onCommandDatabase (work.insert s) document

def msgUpdate (work : Work) (s : Databases) (document : Document) : List Write :=
    onCommandDatabase (work.update s) document

def msgDelete (work : Work) (s : Databases) (document : Document) : List Write :=
    onCommandDatabase (work.delete s) document

def msgFindAndModify (work : Work) (s : Databases) (document : Document) : List Write :=
  onCommandDatabase (work.findAndModify s) document

def msgCreate (work : Work) (s : Databases) (document : Document) : List Write :=
    onCommandDatabase (work.create s) document

def msgDrop (document : Document) : List Write :=
  onCommandDatabase (fun document =>
    match document.get (command document) with
    | some (.string collection) => [.dropCollection collection]
    | _ => []) document

def msgDropDatabase (document : Document) : List Write :=
  match document.get (field "$db") with
  | some (.string db) => if enforceRootDatabase db && !isSystemDatabase db then [.dropDatabase db] else []
  | _ => []

/-- A rename within one database; every check that fails refuses it. -/
def renameWithin (oldName newName : Bytes) (dropTarget : Bool) : Option Write := do
  let (oldDBName, oldCName) ← splitNamespace oldName
  let (newDBName, newCName) ← splitNamespace newName
  if checkSystemCollectionRename oldDBName oldCName newDBName newCName && oldDBName
    = newDBName && oldCName ≠ newCName then
    some (.change oldDBName (.renameCollection oldCName newCName dropTarget))
  else none

def msgRenameCollection (document : Document) : List Write :=
  if isAdminDatabase (stringOf (document.get (field "$db"))) then
    match (document.get (field "dropTarget")).elim (some false) getBoolOptionalParam,
      document.get (command document), document.get (field "to") with
    | some dropTarget, some (.string oldName), some (.string newName) =>
          (renameWithin oldName newName dropTarget).toList
    | _, _, _ => []
  else []

/-- The stage that an element of a collection's pipeline is, if it is one that writes. -/
def topLevelOutput (db : Bytes) : Value → Option OutputStage
  | .document d =>
    if command d = field "$out" then newOutStage d db
    else if command d = field "$merge" then newMergeStage d db
    else none
  | _ => none

/-- A stage is built or not, and one that writes is kept. -/
def newTopLevelStage (builds : Document → Bool) (db : Bytes) : Value → Option (Option OutputStage)
  | .document d =>
    if command d = field "$out" ∨ command d = field "$merge" then (topLevelOutput db (.document d)).map some
    else if builds d then some none
    else none
  | _ => none

/-- `makeOutWriter`: a temporary collection is filled and renamed over the target, or else dropped. -/
def outChanges (coll tmpName : Bytes) (batches : List (List Document)) : List Change :=
  .createCollection tmpName :: batches.map (fun batch => .writeDocuments tmpName (· ++ batch)) ++
    [.renameCollection tmpName coll true, .dropCollection tmpName]

/-- `makeMergeWriter`: every batch is read against the target, and inserts and updates are made in it. -/
def mergeChanges (merged : List Document → List Document → List Document) (coll : Bytes)
    (batches : List (List Document)) :
    List Change :=
  batches.map fun batch => .writeDocuments coll (merged batch)

def stageChanges (work : Work) (s : Databases) (document : Document) (i : Nat) : OutputStage → List Change
  | .out _ coll => outChanges coll (field "tmp.agg_out." ++ work.uuid s document) (work.batches s document i)
  | .merge db coll on whenMatched whenNotMatched =>
    mergeChanges (work.merged (.merge db coll on whenMatched whenNotMatched)) coll (work.batches s document i)

def msgAggregate (work : Work) (s : Databases) (document : Document) : List Write :=
  match document.get (field "$db"), document.get (command document), document.get (field "pipeline") with
  | some (.string db), some (.string _), some (.array pipeline) =>
    match pipeline.mapM (newTopLevelStage work.builds db) with
    | none => []
    | some stages => stages.zipIdx.flatMap fun entry =>
      entry.1.elim [] fun stage => (stageChanges work s document entry.2 stage).map (.change stage.db)
  | _, _, _ => []

theorem base_of_not_admin (outside : isAdminDatabase db = false) (change : Change) :
    (Write.change db change).base ≠ admin := by
  simpa [isAdminDatabase, Write.base] using outside

theorem base_of_onCommandDatabase {changes : Document → List Change}
    (outside : isAdminDatabase (wireCommandTarget msg).2.1 = false)
    (made : w ∈ onCommandDatabase changes (opMsgDocument msg)) : w.base ≠ admin := by
  unfold onCommandDatabase at made
  split at made
  next _ read =>
    obtain ⟨change, -, rfl⟩ := mem_map.mp made
    rw [wireCommandTarget_db read] at outside
    exact base_of_not_admin outside change
  next => cases made

theorem base_of_msgDropDatabase (made : w ∈ msgDropDatabase document) : w.base ≠ admin := by
  unfold msgDropDatabase at made
  split at made
  · split at made
    next allowed =>
      cases mem_singleton.mp made
      rintro rfl
      simp [isSystemDatabase] at allowed
    next => cases made
  · cases made

theorem base_of_renameWithin {oldName newName : Bytes} {dropTarget : Bool}
    (made : renameWithin oldName newName dropTarget = some w) : w.base ≠ admin := by
  obtain ⟨⟨_, _⟩, -, rest⟩ := Option.bind_eq_some_iff.mp made
  obtain ⟨⟨_, _⟩, -, rest⟩ := Option.bind_eq_some_iff.mp rest
  dsimp only at rest
  split at rest
  next allowed =>
    cases rest
    simp only [checkSystemCollectionRename, Bool.and_eq_true, Bool.not_eq_true'] at allowed
    exact base_of_not_admin allowed.1.1.1.1.1.2 _
  next => cases rest

theorem base_of_msgRenameCollection (made : w ∈ msgRenameCollection document) : w.base ≠ admin := by
  unfold msgRenameCollection at made
  split at made
  · split at made
    · exact base_of_renameWithin (Option.mem_toList.mp made)
    · cases made
  · cases made

theorem topLevelOutput_of_built {builds : Document → Bool} {stage : OutputStage}
    (built : newTopLevelStage builds db v = some (some stage)) : topLevelOutput db v = some stage := by
  unfold newTopLevelStage at built
  split at built
  · split at built
    · obtain ⟨_, found, done⟩ := Option.map_eq_some_iff.mp built
      cases done
      exact found
    · split at built
      · cases built
      · cases built
  · cases built

variable {work : Work}

theorem mem_msgAggregate (made : w ∈ msgAggregate work s document) :
    ∃ db pipeline v stage change, document.get (field "$db") = some (.string db) ∧
      document.get (field "pipeline") = some (.array pipeline) ∧ v ∈ pipeline ∧
      topLevelOutput db v = some stage ∧ w = .change stage.db change := by
  unfold msgAggregate at made
  split at made
  next db _ pipeline readDB _ readPipeline =>
    split at made
    · cases made
    next _ built =>
      obtain ⟨⟨entry, i⟩, listed, here⟩ := mem_flatMap.mp made
      cases entry with
      | none => cases here
      | some stage =>
        obtain ⟨change, -, rfl⟩ := mem_map.mp here
        obtain ⟨v, member, stands⟩ := mem_of_mapM_some built (fst_mem_of_mem_zipIdx listed)
        exact ⟨db, pipeline, v, stage, change, readDB, readPipeline, member, topLevelOutput_of_built stands, rfl⟩
  next => cases made

theorem base_of_bulkWriteNS {ns : Resource} (taken : bulkWriteNS v = some ns) (change : Change) :
    (Write.change ns.db change).base ≠ admin := by
  obtain ⟨_, -, rest⟩ := Option.bind_eq_some_iff.mp taken
  split at rest
  · cases rest
  next fine =>
    cases rest
    exact fun inside => fine (.inr (.inr inside))

inductive WriteCommand where
  | insert
  | update
  | delete
  | findAndModify
  | create
  | drop
  | dropDatabase
  | renameCollection
  | bulkWrite
  | aggregate
deriving DecidableEq

def writeCommands : List (Bytes × WriteCommand) :=
  [(field "insert", .insert), (field "update", .update), (field "delete", .delete),
    (field "findAndModify", .findAndModify),
    (field "findandmodify", .findAndModify), (field "create", .create), (field "drop", .drop),
    (field "dropDatabase", .dropDatabase), (field "renameCollection", .renameCollection),
      (field "bulkWrite", .bulkWrite),
    (field "aggregate", .aggregate)]

theorem denied_or_checked : ∀ entry ∈ writeCommands, entry.1 ∈ adminMutationDenied ∧ entry.2 ≠ .aggregate ∨
    entry.2 = .dropDatabase ∨ entry.2 = .renameCollection ∨ entry.2 = .bulkWrite ∨
    entry.2 = .aggregate ∧ entry.1 = field "aggregate" := by
  decide +kernel

section
variable [Platform]

def msgBulkWriteCalls (work : Work) (s : Databases) (document : Document) : List Write :=
  (msgBulkWrite work.accepts (work.storage s document) document).flatMap fun write =>
    (work.bulk s document write).map (.change write.ns.db)

def WriteCommand.handle (work : Work) (s : Databases) (document : Document) : WriteCommand → List Write
  | insert => msgInsert work s document
  | update => msgUpdate work s document
  | delete => msgDelete work s document
  | findAndModify => msgFindAndModify work s document
  | create => msgCreate work s document
  | drop => msgDrop document
  | dropDatabase => msgDropDatabase document
  | renameCollection => msgRenameCollection document
  | bulkWrite => msgBulkWriteCalls work s document
  | aggregate => msgAggregate work s document

/-- A request, and whether authentication and authorization let its sender through: they do when
access control is off. -/
structure Request where
  admitted : Bool
  message : Message

def serve (work : Work) (s : Databases) (r : Request) : List Write :=
  let (name, db, _) := wireCommandTarget r.message
  match writeCommands.lookup name with
  | none => []
  | some cmd =>
    if guardAdminMutation name db || !r.admitted then []
    else cmd.handle work s (opMsgDocument r.message)

/-- Storage may refuse calls, and a handler leave out those behind a refused one. -/
def Serves (work : Work) (s : Databases) (r : Request) (t : Databases) : Prop :=
  ∃ taken : List Write, taken.Sublist (serve work s r) ∧ t = taken.foldl Databases.write s

/-- No stage of an aggregation writes to the admin database. -/
def NoAdminOutput (_ : Databases) (r : Request) : Prop :=
  ∀ db pipeline, command r.message.section0 = field "aggregate" →
    (opMsgDocument r.message).get (field "$db") = some (.string db) →
    (opMsgDocument r.message).get (field "pipeline") = some (.array pipeline) →
    ∀ v ∈ pipeline, ∀ stage, topLevelOutput db v = some stage → isAdminDatabase stage.db = false

theorem ns_of_execOps {accepts : Document → Bool} {storage : Storage} {ordered bypass : Bool}
    {namespaces : List Resource}
    {i : Nat} {ops : List Value} {write : BulkWrite}
    (made : write ∈ execOps accepts storage ordered bypass namespaces i ops) :
    write.ns ∈ namespaces := by
  induction ops generalizing i with
  | nil => cases made
  | cons v ops ih =>
    cases v with
    | document _ =>
      unfold execOps at made
      split at made
      · split at made
        · cases made
        · exact ih made
      next _ _ target =>
        rcases mem_append.mp made with here | later
        · split at here
          · cases mem_singleton.mp here
            exact mem_of_opTarget target
          · cases here
        · split at later
          · cases later
          · exact ih later
    | _ => cases made

variable {w : Write}

theorem base_of_msgBulkWriteCalls (made : w ∈ msgBulkWriteCalls work s document) : w.base ≠ admin := by
  obtain ⟨_, written, here⟩ := mem_flatMap.mp made
  obtain ⟨change, -, rfl⟩ := mem_map.mp here
  unfold msgBulkWrite at written
  split at written
  · cases written
  next _ _ batch =>
    unfold bulkWriteBatch at batch
    split at batch
    · split at batch
      · cases batch
      · split at batch
        · cases batch
        next taken =>
          split at batch
          · cases batch
            obtain ⟨v, -, allowed⟩ := mem_of_mapM_some taken (ns_of_execOps written)
            exact base_of_bulkWriteNS allowed change
          · cases batch
    · cases batch

theorem base_of_denied {cmd : WriteCommand} (outside : isAdminDatabase (wireCommandTarget msg).2.1 = false)
    (made : w ∈ cmd.handle work s (opMsgDocument msg)) (other : cmd ≠ .aggregate) : w.base ≠ admin := by
  cases cmd with
  | insert | update | delete | findAndModify | create => exact base_of_onCommandDatabase outside made
  | drop =>
    rw [WriteCommand.handle, msgDrop] at made
    exact base_of_onCommandDatabase outside made
  | dropDatabase => exact base_of_msgDropDatabase made
  | renameCollection => exact base_of_msgRenameCollection made
  | bulkWrite => exact base_of_msgBulkWriteCalls made
  | aggregate => exact absurd rfl other

theorem base_of_serve {r : Request} (met : NoAdminOutput s r) : ∀ w ∈ serve work s r, w.base ≠ admin := by
  intro w made
  simp only [serve] at made
  split at made
  · cases made
  next cmd registered =>
    split at made
    · cases made
    next passed =>
      simp only [Bool.or_eq_true, Bool.not_eq_true', not_or, Bool.not_eq_false] at passed
      obtain ⟨_, _, table, -⟩ := lookup_eq_some_iff.mp registered
      have listed : ((wireCommandTarget r.message).1, cmd) ∈ writeCommands := by
        rw [table]
        exact mem_append_right _ (.head _)
      rcases denied_or_checked _ listed with ⟨denied, other⟩ | rfl | rfl | rfl | ⟨rfl, aggregate⟩
      · have outside : isAdminDatabase (wireCommandTarget r.message).2.1 = false := by
          simpa [guardAdminMutation, denied] using passed.1
        exact base_of_denied outside made other
      · exact base_of_msgDropDatabase made
      · exact base_of_msgRenameCollection made
      · exact base_of_msgBulkWriteCalls made
      · obtain ⟨db, pipeline, v, stage, change, readDB, readPipeline, member, found, rfl⟩ := mem_msgAggregate made
        exact base_of_not_admin (met db pipeline aggregate readDB readPipeline v member stage found) change

/-- Over every run whose aggregations write elsewhere, the admin database stays as it is on every branch. -/
theorem admin_unchanged {work : Work} {start s : Databases} {requests : List Request}
    (run : Run (Guarded NoAdminOutput (Serves work)) start requests s) : s admin = start admin := by
  refine run.invariant (fun s => s admin = start admin) rfl ?_
  rintro s r t same ⟨met, _, part, rfl⟩
  rw [writes_other (fun w member => base_of_serve met w (part.subset member)), same]

/-- Handlers that insert one empty document, and pipelines over empty collections. -/
def plainWork : Work where
  insert _ document := [.writeDocuments (stringOf (document.get (field "insert"))) ([] :: ·)]
  update _ _ := []
  delete _ _ := []
  findAndModify _ _ := []
  create _ _ := []
  accepts _ := true
  storage _ _ := ⟨fun _ => true, fun _ => false⟩
  bulk _ _ _ := []
  builds _ := true
  batches _ _ _ := []
  uuid _ _ := []
  merged _ _ := id

def users : Bytes := field "system.users"

def oneUser : Databases := fun db branch collection =>
  if db = admin ∧ branch = defaultBranch ∧ collection = users then some [[(field "_id",
    .string (field "admin.root"))]] else none

def insertInto (db coll : Bytes) : Message :=
  ⟨[(field "insert", .string coll), (field "$db", .string db)], [(field "documents", [[]])]⟩

def outInto (db coll : Bytes) : Message :=
  ⟨[(field "aggregate", .string (field "staff")),
    (field "pipeline", .array [.document [(field "$out", .document [(field "db", .string db),
      (field "coll", .string coll)])]]),
    (field "cursor", .document []), (field "$db", .string (field "hr"))], []⟩

theorem serves_all (work : Work) (s : Databases) (r : Request) :
    Serves work s r ((serve work s r).foldl Databases.write s) :=
  ⟨_, .refl _, rfl⟩

end

theorem admin_unchanged_copy : ∃ s : Databases,
    (s (field "hr") defaultBranch (field "copy")).map List.length = some 0 ∧
    s admin = oneUser admin := by
  let _ : Platform := ⟨.amd64, fun _ => 0⟩
  let first : Request := ⟨true, insertInto (field "hr") (field "staff")⟩
  let second : Request := ⟨true, outInto (field "hr") (field "copy")⟩
  have inserts : NoAdminOutput oneUser first := fun _ _ aggregate => absurd aggregate (by decide +kernel)
  have copies (s : Databases) : NoAdminOutput s second := by
    rintro _ _ - readDB readPipeline v member _ found
    cases readPipeline
    cases mem_singleton.mp member
    cases found
    decide +kernel
  have run : Run (Guarded NoAdminOutput (Serves plainWork)) oneUser ([] ++ [first] ++ [second]) _ :=
    .snoc (.snoc .nil ⟨inserts, serves_all plainWork oneUser first⟩) ⟨copies _, serves_all plainWork _ second⟩
  exact ⟨_, by decide +kernel, admin_unchanged run⟩

/-- An aggregation on another database empties the collection of the users. -/
theorem out_replaces_users : (oneUser admin defaultBranch users).map List.length = some 1 ∧
    ∃ (_ : Platform) (s : Databases), Run (Serves plainWork) oneUser [⟨true, outInto admin users⟩] s ∧
      (s admin defaultBranch users).map List.length = some 0 := by
  let _ : Platform := ⟨.amd64, fun _ => 0⟩
  refine ⟨by decide +kernel, inferInstance, _,
    Run.nil.snoc (serves_all plainWork oneUser ⟨true, outInto admin users⟩), ?_⟩
  decide +kernel

end DumboDB.Handler
