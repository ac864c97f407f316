import DumboDB.Handler.OutputStages

/-!
What the authorization asks of an aggregation: it walks over the raw pipeline, into the pipelines of
`$lookup`, `$graphLookup` and `$unionWith` and into every facet, and collects the privileges that
the stages need. A pipeline that starts with `$documents` exempts the collection that the stage names.
-/

namespace DumboDB.Handler

open Foundation ByteOrder DumboDB.Types Authz

structure StagePrivilege where
  resource : Resource
  action : Action
deriving DecidableEq

/-- `startsWithOwnSource` of what stands under `pipeline`. -/
def startsWithDocuments (spec : Document) : Bool :=
  match spec.get (field "pipeline") with
  | some (.array (.document first :: _)) => command first = field "$documents"
  | _ => false

def requireOn (bypass : Bool) (target : Bytes × Bytes) (actions : List Action) : List StagePrivilege :=
  (actions ++ if bypass then [actionNamed "bypassDocumentValidation"] else []).map fun action =>
    ⟨collectionResource target.1 target.2, action⟩

/-- The target of a `$merge` and the two choices that decide on its actions. -/
def mergePrivileges (db : Bytes) (bypass : Bool) (spec : Value) : List StagePrivilege :=
  let (into, whenMatched, whenNotMatched) :=
    match spec with
    | .document d =>
      ((Document.get d (field "into")).getD .null, Document.get d (field "whenMatched"),
        Document.get d (field "whenNotMatched"))
    | _ => (spec, none, none)
  let inserts : Bool :=
    match whenNotMatched with
    | none => true
    | some (.string choice) => choice = field "insert"
    | some _ => false
  let updates : Bool :=
    match whenMatched with
    | some (.string choice) => choice ≠ field "fail"
    | _ => true
  requireOn bypass (stageTarget into (some "db") db)
    ((if inserts then [actionNamed "insert"] else []) ++ if updates then [actionNamed "update"] else [])

/-- The collection that a stage reads, unless its pipeline brings its own documents. -/
def sourcePrivilege (db coll : Bytes) (ownSource : Bool) : List StagePrivilege :=
  if ownSource then [] else [⟨collectionResource db coll, actionNamed "find"⟩]

/-- The stages whose constructors read other collections. -/
inductive ForeignKind where
  | lookup
  | graphLookup
  | unionWith
  | facet
deriving DecidableEq

def ForeignKind.name : ForeignKind → Bytes
  | lookup => field "$lookup"
  | graphLookup => field "$graphLookup"
  | unionWith => field "$unionWith"
  | facet => field "$facet"

def foreignKind (name : Bytes) : Option ForeignKind :=
  [ForeignKind.lookup, .graphLookup, .unionWith, .facet].find? fun kind => kind.name = name

theorem name_of_foreignKind {name : Bytes} {kind : ForeignKind} (known : foreignKind name = some kind) :
    kind.name = name := by
  simpa using List.find?_some known

def outputPrivileges (db : Bytes) (bypass : Bool) (name : Bytes) (spec : Value) : List StagePrivilege :=
  if name = field "$out" then
    requireOn bypass (stageTarget spec (some "db") db) [actionNamed "insert", actionNamed "remove"]
  else if name = field "$merge" then mergePrivileges db bypass spec
  else []

mutual

/-- `pipelineStagePrivileges`; what is no array stands for no pipeline. -/
def pipelineStagePrivileges (db : Bytes) (bypass : Bool) : Value → List StagePrivilege
  | .array stages => stagesPrivileges db bypass stages
  | _ => []

def stagesPrivileges (db : Bytes) (bypass : Bool) : List Value → List StagePrivilege
  | [] => []
  | stage :: stages => stagePrivileges db bypass stage ++ stagesPrivileges db bypass stages

def stagePrivileges (db : Bytes) (bypass : Bool) : Value → List StagePrivilege
  | .document ((name, spec) :: _) =>
    match foreignKind name with
    | none => outputPrivileges db bypass name spec
    | some kind => specPrivileges db bypass kind spec
  | _ => []

def specPrivileges (db : Bytes) (bypass : Bool) (kind : ForeignKind) : Value → List StagePrivilege
  | .document spec =>
    match kind with
    | .lookup | .graphLookup =>
      sourcePrivilege db (stringOf (Document.get spec (field "from"))) (startsWithDocuments spec) ++
        underPipeline db bypass spec
    | .unionWith =>
      sourcePrivilege db (stringOf (Document.get spec (field "coll"))) (startsWithDocuments spec) ++
        underPipeline db bypass spec
    | .facet => facetsPrivileges db bypass spec
  | .string coll => if kind = .unionWith then sourcePrivilege db coll false else []
  | _ => if kind = .unionWith then sourcePrivilege db [] false else []

def underPipeline (db : Bytes) (bypass : Bool) : List (Bytes × Value) → List StagePrivilege
  | [] => []
  | (key, v) :: spec =>
    if key = field "pipeline" then pipelineStagePrivileges db bypass v else underPipeline db bypass spec

def facetsPrivileges (db : Bytes) (bypass : Bool) : List (Bytes × Value) → List StagePrivilege
  | [] => []
  | (_, v) :: facets => pipelineStagePrivileges db bypass v ++ facetsPrivileges db bypass facets

end

def authorizeAggregationStages (privs : PrivilegeSet) (db : Bytes) (document : Document) : Bool :=
  (pipelineStagePrivileges db (isTrue (document.get (field "bypassDocumentValidation")))
    ((document.get (field "pipeline")).getD .null)).all fun required =>
      privs.authorized required.action required.resource

end DumboDB.Handler
