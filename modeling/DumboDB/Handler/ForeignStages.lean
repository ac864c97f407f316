import DumboDB.Foundation.Interaction
import DumboDB.Handler.PipelineAuthz

/-!
The stages that read other collections, as their constructors parse them and as they run: `$lookup`,
`$graphLookup`, `$unionWith` and `$facet`. A sub-pipeline is built stage by stage while it runs, after
the values of the `let` variables have been put into it.
-/

namespace DumboDB.Handler

open Foundation ByteOrder DumboDB.Types

/-- A call of `CollectionFetcher.Fetch`. -/
structure Fetch where
  collection : Bytes
  filter : Option Document

abbrev Reading := Program Unit Fetch fun _ => Option (List Document)

def orFail {α : Type} : Option α → Reading α
  | none => .fail ()
  | some a => pure a

def fetch (collection : Bytes) (filter : Option Document) : Reading (List Document) := do
  orFail (← Program.perform ⟨collection, filter⟩)

/-- A `$lookup`, or the sub-pipeline of a `$unionWith`; no collection is the empty name. -/
structure Lookup where
  from_ : Bytes
  localField : Bytes
  foreignField : Bytes
  letVars : Document
  pipeline : Option (List Value)
  as_ : Bytes

def checkSubPipelineSource (coll : Bytes) (spec : Document) : Bool := coll ≠ [] && !startsWithDocuments spec

/-- The collection under a key; it may be missing before `$documents`. -/
def subPipelineSource (key : String) (spec : Document) : Option Bytes :=
  match spec.get (field key) with
  | none => if startsWithDocuments spec then some [] else none
  | some (.string coll) => if checkSubPipelineSource coll spec then some coll else none
  | some _ => none

/-- The pipeline and the variables of a `$lookup`; variables are read only with a pipeline. -/
def lookupPipeline (spec : Document) : Option (Option (List Value) × Document) :=
  match spec.get (field "pipeline"), spec.get (field "let") with
  | none, _ => some (none, [])
  | some (.array pipeline), none => some (some pipeline, [])
  | some (.array pipeline), some (.document vars) => some (some pipeline, vars)
  | some _, _ => none

def lookupJoin (spec : Document) : Option (Bytes × Bytes) :=
  match spec.get (field "localField"), spec.get (field "foreignField") with
  | none, _ => some ([], [])
  | some (.string localField), some (.string foreignField) => some (localField, foreignField)
  | some _, _ => none

def requireStringField (spec : Document) (name : String) : Option Bytes :=
  match spec.get (field name) with
  | some (.string s) => some s
  | _ => none

def newLookupStage (stage : Document) : Option Lookup :=
  match stage.get (field "$lookup") with
  | some (.document spec) => do
    let from_ ← subPipelineSource "from" spec
    let as_ ← requireStringField spec "as"
    let (pipeline, letVars) ← lookupPipeline spec
    let (localField, foreignField) ← lookupJoin spec
    if pipeline.isNone && (Document.get spec (field "localField")).isNone then none
    else some ⟨from_, localField, foreignField, letVars, pipeline, as_⟩
  | _ => none

structure GraphLookup where
  from_ : Bytes
  startWith : Value
  connectFromField : Bytes
  connectToField : Bytes
  as_ : Bytes
  maxDepth : Option Value
  depthField : Option Bytes
  restrictSearchWithMatch : Option Document

def optionalField {α : Type} (spec : Document) (name : String) (read : Value → Option α) : Option (Option α) :=
  match spec.get (field name) with
  | none => some none
  | some v => (read v).map some

/-- `NewGraphLookupStage`; `depth` accepts the numbers that are not negative. -/
def newGraphLookupStage (depth : Value → Bool) (stage : Document) : Option GraphLookup :=
  match stage.get (field "$graphLookup") with
  | some (.document spec) => do
    let from_ ← requireStringField spec "from"
    let startWith ← Document.get spec (field "startWith")
    let connectFromField ← requireStringField spec "connectFromField"
    let connectToField ← requireStringField spec "connectToField"
    let as_ ← requireStringField spec "as"
    let maxDepth ← optionalField spec "maxDepth" fun v => if depth v then some v else none
    let depthField ← optionalField spec "depthField" fun v => match v with | .string s => some s | _ => none
    let restrict ← optionalField spec "restrictSearchWithMatch" fun v =>
      match v with | .document d => some d | _ => none
    return ⟨from_, startWith, connectFromField, connectToField, as_, maxDepth, depthField, restrict⟩
  | _ => none

def unionWithPipeline (spec : Document) : Option (List Value) :=
  match spec.get (field "pipeline") with
  | none => some []
  | some (.array pipeline) => some pipeline
  | some _ => none

/-- The collection and the pipeline of a `$unionWith`. -/
def unionWithSpec : Value → Option (Bytes × List Value)
  | .string coll => if checkSubPipelineSource coll [] then some (coll, []) else none
  | .document spec =>
    if spec.all fun entry => entry.1 = field "coll" || entry.1 = field "pipeline" then do
      let coll ← subPipelineSource "coll" spec
      let pipeline ← unionWithPipeline spec
      return (coll, pipeline)
    else none
  | _ => none

def writesOutput : Value → Bool
  | .document d => command d = field "$out" || command d = field "$merge"
  | _ => false

def newUnionWithStage (stage : Document) : Option Lookup := do
  let (coll, pipeline) ← (stage.get (field "$unionWith")).bind unionWithSpec
  if pipeline.any writesOutput then none else some ⟨coll, [], [], [], some pipeline, []⟩

def notAllowedInFacet : List Bytes :=
  ["$collStats", "$documents", "$facet", "$geoNear", "$indexStats", "$merge", "$out", "$planCacheStats",
    "$changeStream",
    "$listSessions", "$currentOp", "$listLocalSessions"].map field

def facetStage : Value → Option Document
  | .document d => if command d ∈ notAllowedInFacet then none else some d
  | _ => none

def facetPipeline : Bytes × Value → Option (Bytes × List Document)
  | (name, .array stages) => (stages.mapM facetStage).map fun stages => (name, stages)
  | _ => none

def newFacet (stage : Document) : Option (List (Bytes × List Document)) :=
  match stage.get (field "$facet") with
  | some (.document spec) => if spec.isEmpty then none else List.mapM facetPipeline spec
  | _ => none

def literalField : Bytes := field "$literal"

def literalOperand (v : Value) (inExpr : Bool) : Value :=
  let bare : Bool :=
    match v with
    | .string s => !(field "$").isPrefixOf s
    | .document _ => false
    | .array _ => false
    | _ => true
  if inExpr && bare then v else .document [(literalField, v)]

abbrev Bindings := List (Bytes × Value)

def resolveVar (vars : Bindings) (inExpr : Bool) (s : Bytes) : Value :=
  if (field "$$").isPrefixOf s then
    match vars.lookup (s.drop 2) with
    | some v => literalOperand v inExpr
    | none => .string s
  else .string s

mutual

def substituteVarsInValue (vars : Bindings) (inExpr : Bool) : Value → Value
  | .string s => resolveVar vars inExpr s
  | .document d => .document (substituteVarsInDoc vars inExpr d)
  | .array elems => .array (substituteVarsInElems vars inExpr elems)
  | v => v

def substituteVarsInDoc (vars : Bindings) (inExpr : Bool) : List (Bytes × Value) → List (Bytes × Value)
  | [] => []
  | (key, v) :: d => (key, substituteVarsInValue vars inExpr v) :: substituteVarsInDoc vars inExpr d

def substituteVarsInElems (vars : Bindings) (inExpr : Bool) : List Value → List Value
  | [] => []
  | v :: elems => substituteVarsInValue vars inExpr v :: substituteVarsInElems vars inExpr elems

end

mutual

/-- A query reads variables only inside of `$expr`. -/
def substituteVarsInQuery (vars : Bindings) : List (Bytes × Value) → List (Bytes × Value)
  | [] => []
  | (key, v) :: query => (key, substituteVarsInClause vars key v) :: substituteVarsInQuery vars query

def substituteVarsInClause (vars : Bindings) (key : Bytes) : Value → Value
  | .array clauses =>
    if key = field "$expr" then substituteVarsInValue vars true (.array clauses)
    else if key = field "$and" ∨ key = field "$or" ∨
      key = field "$nor" then .array (substituteVarsInClauses vars clauses)
    else .array clauses
  | v => if key = field "$expr" then substituteVarsInValue vars true v else v

def substituteVarsInClauses (vars : Bindings) : List Value → List Value
  | [] => []
  | .document clause :: clauses => .document (substituteVarsInQuery vars clause) :: substituteVarsInClauses vars clauses
  | v :: clauses => v :: substituteVarsInClauses vars clauses

end

def substituteVarsInStage (stage : Document) (vars : Bindings) : Document :=
  if vars.isEmpty || stage.length ≠ 1 || command stage ≠ field "$match" then substituteVarsInDoc vars false stage
  else
    match stage.get (field "$match") with
    | some (.document query) => [(field "$match", .document (substituteVarsInQuery vars query))]
    | _ => stage

def fieldPath : Value → Option Bytes
  | .string s =>
    if (field "$").isPrefixOf s && !(field "$$").isPrefixOf s && 2 ≤ s.length then some (s.drop 1) else none
  | _ => none

/-- The operands of a document with one field of a name. -/
def onlyField (name : String) : Value → Option Value
  | .document [(key, v)] => if key = field name then some v else none
  | _ => none

/-- `leadingMatchEqualityField`: the field of a leading `$match` on an `$expr` that compares it with something else. -/
def leadingMatchEqualityField (pipeline : List Value) : Option Bytes := do
  let stage ← pipeline.head?
  let operands ← (((onlyField "$match" stage).bind (onlyField "$expr")).bind (onlyField "$eq"))
  match operands with
  | .array [a, b] =>
    match fieldPath a, fieldPath b with
    | some path, none => some path
    | none, some path => some path
    | _, _ => none
  | _ => none

/-- What the stages compute from the documents they are given, and the stages that read nothing. -/
structure Engine where
  indexedField : Bytes → Bytes → Bool
  evalOperand : Value → Document → Option Value
  equalityFetchFilter : List Document → Bytes → Bytes → Option Document
  equalityMatches : Bytes → Bytes → Document → List Document → List Document
  leadingMatchEqualityValue : Document → Bytes → Option Value
  depth : Value → Bool
  graphFilters : GraphLookup → List Document → List Document
  traverse : GraphLookup → Document → List Document → Option (List Document)
  builds : Document → Bool
  run : Document → List Document → Option (List Document)

def documentOf : Value → Option Document
  | .document d => some d
  | _ => none

section
variable (engine : Engine)

def letBindings (l : Lookup) (doc : Document) : Option Bindings :=
  List.mapM (fun entry => (engine.evalOperand entry.2 doc).map fun v => (entry.1, v)) l.letVars

/-- `evalDocuments`: the value of `$documents` is an array of documents. -/
def evalDocuments (stage : Document) : Option (List Document) := do
  let operand ← stage.get (field "$documents")
  match ← engine.evalOperand operand [] with
  | .array elems => elems.mapM documentOf
  | _ => none

/-- The field by which the collection is read once for every document. -/
def perDocField (l : Lookup) : Option Bytes := do
  let pipeline ← l.pipeline
  let path ← leadingMatchEqualityField pipeline
  if l.localField = [] && engine.indexedField l.from_ path then some path else none

def perDocCandidates (l : Lookup) (doc : Document) (path : Bytes) : Reading (List Document) := do
  let vars ← orFail (letBindings engine l doc)
  match l.pipeline with
  | some (.document first :: _) =>
    fetch l.from_ ((engine.leadingMatchEqualityValue (substituteVarsInStage first vars) path).map
      fun v => [(path, v)])
  | _ => .fail ()

variable (sub : Document → List Document → Reading (List Document))

/-- One stage of a sub-pipeline, built and run on the documents so far; the first one may be their source. -/
def runSubStage (l : Lookup) (vars : Bindings) (current : List Document) (entry : Value × Nat) :
    Reading (List Document) :=
  match entry.1 with
  | .document stage =>
    let substituted := substituteVarsInStage stage vars
    if entry.2 = 0 ∧ l.from_ = [] then orFail (evalDocuments engine substituted) else sub substituted current
  | _ => .fail ()

def runPipeline (l : Lookup) (pipeline : List Value) (fromDocs : List Document) (localDoc : Document) :
    Reading (List Document) := do
  let vars ← orFail (letBindings engine l localDoc)
  pipeline.zipIdx.foldlM (runSubStage engine sub l vars) fromDocs

/-- The foreign documents that are read for one document. -/
def lookupCandidates (l : Lookup) (fromDocs : List Document) (doc : Document) : Reading (List Document) :=
  match perDocField engine l with
  | some path => perDocCandidates engine l doc path
  | none => pure fromDocs

def lookupMatches (l : Lookup) (fromDocs : List Document) (doc : Document) : Reading (List Document) :=
  let joined := fun candidates =>
    if l.localField = [] || l.from_ = [] then candidates
    else engine.equalityMatches l.localField l.foreignField doc candidates
  match l.pipeline with
  | none => pure (joined fromDocs)
  | some pipeline => do
    let candidates ← lookupCandidates engine l fromDocs doc
    runPipeline engine sub l pipeline (joined candidates) doc

/-- The foreign documents that are read once: all, or with an index on the joined field those that can match. -/
def lookupSource (l : Lookup) (docs : List Document) : Reading (List Document) :=
  let filter :=
    if l.localField ≠ [] && engine.indexedField l.from_ l.foreignField then
      engine.equalityFetchFilter docs l.localField l.foreignField
    else none
  if (perDocField engine l).isNone && l.from_ ≠ [] then fetch l.from_ filter else pure []

def lookup.process (l : Lookup) (docs : List Document) : Reading (List Document) := do
  let fromDocs ← lookupSource engine l docs
  docs.foldlM (fun out doc => do
    let found ← lookupMatches engine sub l fromDocs doc
    return out ++ [setField l.as_ (.array (found.map .document)) doc]) []

/-- `graphLookup.Process`: with an index the source asks for the documents of one value after the other. -/
def graphLookup.process (g : GraphLookup) (docs : List Document) : Reading (List Document) := do
  let filters :=
    if engine.indexedField g.from_ g.connectToField then (engine.graphFilters g docs).map some else [none]
  let source ← filters.foldlM (fun found filter => do return found ++ (← fetch g.from_ filter)) []
  docs.foldlM (fun out doc => do
    let visited ← orFail (engine.traverse g doc source)
    return out ++ [setField g.as_ (.array (visited.map .document)) doc]) []

def unionWithSource (l : Lookup) : Reading (List Document) := if l.from_ ≠ [] then fetch l.from_ none else pure []

def unionWith.process (l : Lookup) (docs : List Document) : Reading (List Document) := do
  let fromDocs ← unionWithSource l
  let unioned ← runPipeline engine sub l (l.pipeline.getD []) fromDocs []
  return docs ++ unioned

inductive Stage where
  | lookup (l : Lookup)
  | graphLookup (g : GraphLookup)
  | unionWith (l : Lookup)
  | facet (pipelines : List (Bytes × List Document))
  | output (stage : OutputStage)
  | plain (d : Document)

def newForeignStage (d : Document) : ForeignKind → Option Stage
  | .lookup => (newLookupStage d).map .lookup
  | .graphLookup => (newGraphLookupStage engine.depth d).map .graphLookup
  | .unionWith => (newUnionWithStage d).map .unionWith
  | .facet => (newFacet d).map .facet

/-- `newSubPipelineStage`; no other constructor knows the stages that write. -/
def newSubPipelineStage (d : Document) : Option Stage :=
  match foreignKind (command d) with
  | some kind => newForeignStage engine d kind
  | none => if writesOutput (.document d) || !engine.builds d then none else some (.plain d)

def newStage (db : Bytes) : Value → Option Stage
  | .document d =>
    if command d = field "$out" then (newOutStage d db).map .output
    else if command d = field "$merge" then (newMergeStage d db).map .output
    else newSubPipelineStage engine d
  | _ => none

/-- `facet.Process`: every sub-pipeline is built as a whole and runs on the same documents. -/
def facet.process (run : Stage → List Document → Reading (List Document)) (pipelines : List (Bytes × List Document))
    (docs : List Document) : Reading (List Document) := do
  let out ← pipelines.foldlM (fun out pipeline => do
    let stages ← orFail (pipeline.2.mapM (newSubPipelineStage engine))
    let results ← stages.foldlM (fun current stage => run stage current) docs
    return setField pipeline.1 (.array (results.map .document)) out) ([] : Document)
  return [out]

/-- A stage at work, up to a depth of nested pipelines. -/
def Stage.process : Nat → Stage → List Document → Reading (List Document)
  | 0, _, _ => .fail ()
  | fuel + 1, stage, docs =>
    let sub := fun d current => do (← orFail (newSubPipelineStage engine d)).process fuel current
    match stage with
    | .lookup l => lookup.process engine sub l docs
    | .graphLookup g => graphLookup.process engine g docs
    | .unionWith l => unionWith.process engine sub l docs
    | .facet pipelines => facet.process engine (Stage.process fuel) pipelines docs
    | .output _ => pure []
    | .plain d => orFail (engine.run d docs)

/-- An aggregation on a collection: nothing runs before every stage is built. -/
def runAggregation (fuel : Nat) (db : Bytes) (pipeline : List Value) (docs : List Document) :
    Reading (List Document) := do
  let stages ← orFail (pipeline.mapM (newStage engine db))
  stages.foldlM (fun current stage => stage.process engine fuel current) docs

/-- `aggregateDocuments`: an aggregation on the database, whose first stage brings the documents. -/
def aggregateDocuments (fuel : Nat) (pipeline : List Value) : Reading (List Document) :=
  match pipeline with
  | .document ((name, .array elems) :: _) :: rest =>
    if name = field "$documents" then do
      let docs ← orFail (elems.mapM documentOf)
      let stages ← orFail (rest.mapM fun v => (documentOf v).bind (newSubPipelineStage engine))
      stages.foldlM (fun current stage => stage.process engine fuel current) docs
    else .fail ()
  | _ => .fail ()

end

end DumboDB.Handler
