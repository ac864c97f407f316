import DumboDB.Handler.AggregationReads

/-!
Defining a view: the authorization of `create` and `collMod` looks at the source and the pipeline that
the command gives, while `collMod` keeps the stored half of a definition where the command is silent.
-/

namespace DumboDB.Handler

open Foundation ByteOrder DumboDB.Types Authz Fallible List

/-- A stored view; a view without a pipeline has an empty one. -/
structure ViewDef where
  viewOn : Bytes
  pipeline : List Value

inductive Entry where
  | collection
  | view (definition : ViewDef)

abbrev Catalog := Bytes → Option Entry

def authorizeViewSource (privs : PrivilegeSet) (db : Bytes) (document : Document) : Bool :=
  let viewOn := document.get (field "viewOn")
  if viewOn.isNone && (document.get (field "pipeline")).isNone then true
  else
    (match viewOn with
      | some (.string coll) => mayFind privs db coll
      | _ => true) && authorizeAggregationStages privs db document

/-- `authorize` for the two commands that define views, with the rows of `commandPrivileges` for them. -/
def authorizeDefinition (privs : PrivilegeSet) (msg : Message) : Bool :=
  let (command, db, collection) := wireCommandTarget msg
  let own := fun action => authorizeViewSource privs db (opMsgDocument msg) &&
    privs.authorized (actionNamed action) (collectionResource db collection)
  if command = field "create" then own "createCollection"
  else if command = field "collMod" then own "collMod"
  else false

/-- A field that a command may leave out, and whose value is of one type. -/
def givenString (document : Document) (name : String) : Option (Option Bytes) :=
  optionalField document name fun v => match v with | .string s => some s | _ => none

def givenArray (document : Document) (name : String) : Option (Option (List Value)) :=
  optionalField document name fun v => match v with | .array elems => some elems | _ => none

/-- The view that `MsgCreate` creates under a name that is free, when it creates one. -/
def createdView (entry : Option Entry) (document : Document) : Option ViewDef := do
  let given ← givenString document "viewOn"
  let viewOn ← given
  let pipeline ← givenArray document "pipeline"
  -- an empty source makes an ordinary collection
  if viewOn = [] || entry.isSome then none else some ⟨viewOn, pipeline.getD []⟩

/-- What `MsgCollMod` makes of the stored view: each half is replaced when the command gives it. -/
def modifiedView (entry : Option Entry) (document : Document) : Option ViewDef := do
  let viewOn ← givenString document "viewOn"
  let pipeline ← givenArray document "pipeline"
  match entry with
  | some (.view stored) =>
    if viewOn.isNone && pipeline.isNone then none
    else some ⟨viewOn.getD stored.viewOn, pipeline.getD stored.pipeline⟩
  | _ => none

/-- The definition that a message leaves in the catalog of its database, when it creates or changes one. -/
def definedView (catalog : Catalog) (msg : Message) : Option ViewDef :=
  let document := opMsgDocument msg
  match document.get (field "$db"), document.get (command document) with
  | some (.string _), some (.string name) =>
    if command msg.section0 = field "create" then createdView (catalog name) document
    else if command msg.section0 = field "collMod" then modifiedView (catalog name) document
    else none
  | _, _ => none

/-- `buildViewPipelineStages`. Only two stages are given a fetcher: `NewStage` does not know
`$unionWith`, and a `$facet` that it builds has nothing to read with. -/
def newViewStage (engine : Engine) : Value → Option Stage
  | .document d =>
    match foreignKind (command d) with
    | some .unionWith => none
    | some .facet => if d.length = 1 && (newFacet d).isSome then some (.plain d) else none
    | _ => newSubPipelineStage engine d
  | _ => none

def runView (engine : Engine) (fuel : Nat) (view : ViewDef) (docs : List Document) : Reading (List Document) := do
  let stages ← orFail (view.pipeline.mapM (newViewStage engine))
  stages.foldlM (fun current stage => stage.process engine fuel current) docs

/-- Everything that a view reads may be read, whatever its stages compute. -/
structure ViewGranted (privs : PrivilegeSet) (db : Bytes) (view : ViewDef) : Prop where
  source : mayFind privs db view.viewOn = true
  stages : ∀ engine fuel docs, ReadsGranted privs db (runView engine fuel view docs)

def modifies (catalog : Catalog) (msg : Message) (stored : ViewDef) : Prop :=
  command msg.section0 = field "collMod" ∧ catalog (wireCommandTarget msg).2.2 = some (.view stored)

/-- A source that a `collMod` keeps may be read by its sender. -/
def KeptSource (privs : PrivilegeSet) (catalog : Catalog) (msg : Message) : Prop :=
  ∀ stored, modifies catalog msg stored → (opMsgDocument msg).get (field "viewOn") = none →
    mayFind privs (wireCommandTarget msg).2.1 stored.viewOn = true

/-- A pipeline that a `collMod` keeps is one that its sender could have given. -/
def KeptStages (privs : PrivilegeSet) (catalog : Catalog) (msg : Message) : Prop :=
  ∀ stored, modifies catalog msg stored → (opMsgDocument msg).get (field "pipeline") = none →
    AllGranted privs (stagesPrivileges (wireCommandTarget msg).2.1 false stored.pipeline)

/-- The pipelines that a definition can come to hold have no stage that escapes the authorization. -/
structure Apparent (privs : PrivilegeSet) (catalog : Catalog) (msg : Message) : Prop where
  given : ∀ pipeline, (opMsgDocument msg).get (field "pipeline") = some (.array pipeline) →
    apparentStages privs (wireCommandTarget msg).2.1 [] pipeline = true
  kept : ∀ stored, modifies catalog msg stored → (opMsgDocument msg).get (field "pipeline") = none →
    apparentStages privs (wireCommandTarget msg).2.1 [] stored.pipeline = true

variable {privs : PrivilegeSet} {db : Bytes} {bypass : Bool} {name : String} {document : Document} {view : ViewDef}
  {entry : Option Entry} {msg : Message} {engine : Engine}

theorem optionalField_cases {α : Type} {spec : Document} {read : Value → Option α} {given : Option α}
    (parsed : optionalField spec name read = some given) :
    spec.get (field name) = none ∧ given = none ∨ ∃ v a, spec.get (field name) = some v ∧
      read v = some a ∧ given = some a := by
  unfold optionalField at parsed
  split at parsed
  next missing =>
    cases parsed
    exact .inl ⟨missing, rfl⟩
  next v found =>
    obtain ⟨a, taken, rfl⟩ := Option.map_eq_some_iff.mp parsed
    exact .inr ⟨v, a, found, taken, rfl⟩

theorem givenString_cases {given : Option Bytes} (parsed : givenString document name = some given) :
    document.get (field name) = none ∧ given = none ∨
      ∃ s, document.get (field name) = some (.string s) ∧ given = some s := by
  refine (optionalField_cases parsed).imp_right fun ⟨v, s, found, taken, same⟩ => ⟨s, ?_, same⟩
  cases v with
  | string t =>
    cases taken
    exact found
  | _ => cases taken

theorem givenArray_cases {given : Option (List Value)} (parsed : givenArray document name = some given) :
    document.get (field name) = none ∧ given = none ∨ ∃ a, document.get (field name) = some (.array a) ∧
      given = some a := by
  refine (optionalField_cases parsed).imp_right fun ⟨v, a, found, taken, same⟩ => ⟨a, ?_, same⟩
  cases v with
  | array _ =>
    cases taken
    exact found
  | _ => cases taken

theorem given_granted (accepted : authorizeViewSource privs db document = true) :
    (∀ coll, document.get (field "viewOn") = some (.string coll) → mayFind privs db coll = true) ∧
      ∀ pipeline, document.get (field "pipeline") = some (.array pipeline) → ∃ bypass,
        AllGranted privs (stagesPrivileges db bypass pipeline) := by
  unfold authorizeViewSource at accepted
  constructor
  · intro coll given
    simp only [given, Option.isNone_some, Bool.false_and, Bool.false_eq_true, if_false, Bool.and_eq_true] at accepted
    exact accepted.1
  · intro pipeline given
    simp only [given, Option.isNone_some, Bool.and_false, Bool.false_eq_true, if_false, Bool.and_eq_true,
      authorizeAggregationStages, Option.getD_some, pipelineStagePrivileges, all_eq_true] at accepted
    exact ⟨_, accepted.2⟩

def SourceFrom (document : Document) (kept : Option ViewDef) (viewOn : Bytes) : Prop :=
  document.get (field "viewOn") = some (.string viewOn) ∨
    document.get (field "viewOn") = none ∧ ∃ stored, kept = some stored ∧ viewOn = stored.viewOn

/-- Where the stages of a definition come from; a new view may have none. -/
def StagesFrom (document : Document) (kept : Option ViewDef) (pipeline : List Value) : Prop :=
  document.get (field "pipeline") = some (.array pipeline) ∨
    document.get (field "pipeline") = none ∧ pipeline = (kept.map ViewDef.pipeline).getD []

theorem from_of_createdView (creates : createdView entry document = some view) :
    SourceFrom document none view.viewOn ∧ StagesFrom document none view.pipeline := by
  obtain ⟨_, read, creates⟩ := Option.bind_eq_some_iff.mp creates
  obtain ⟨_, isGiven, creates⟩ := Option.bind_eq_some_iff.mp creates
  obtain ⟨_, readPipeline, creates⟩ := Option.bind_eq_some_iff.mp creates
  split at creates
  · cases creates
  cases creates
  constructor
  · rcases givenString_cases read with ⟨-, rfl⟩ | ⟨s, found, rfl⟩
    · cases isGiven
    · cases isGiven
      exact .inl found
  · rcases givenArray_cases readPipeline with ⟨missing, rfl⟩ | ⟨a, found, rfl⟩
    · exact .inr ⟨missing, rfl⟩
    · exact .inl found

theorem from_of_modifiedView (changes : modifiedView entry document = some view) :
    ∃ stored, entry = some (.view stored) ∧ SourceFrom document (some stored) view.viewOn ∧
      StagesFrom document (some stored) view.pipeline := by
  obtain ⟨_, read, replaced⟩ := Option.bind_eq_some_iff.mp changes
  obtain ⟨_, readPipeline, built⟩ := Option.bind_eq_some_iff.mp replaced
  match entry, built with
  | some (.view stored), built =>
    dsimp only at built
    split at built
    · cases built
    cases built
    refine ⟨stored, rfl, ?_, ?_⟩
    · rcases givenString_cases read with ⟨missing, rfl⟩ | ⟨s, found, rfl⟩
      · exact .inr ⟨missing, stored, rfl, rfl⟩
      · exact .inl found
    · rcases givenArray_cases readPipeline with ⟨missing, rfl⟩ | ⟨a, found, rfl⟩
      · exact .inr ⟨missing, rfl⟩
      · exact .inl found

theorem wireCommandTarget_collection {name : Bytes} (some_ : msg.section0 ≠ [])
    (read : (opMsgDocument msg).get (command (opMsgDocument msg)) = some (.string name)) :
    (wireCommandTarget msg).2.2 = name := by
  unfold wireCommandTarget
  rw [command_opMsgDocument some_] at read
  rw [get_string_of_opMsgDocument read]
  rfl

theorem ne_nil_of_command {d : Document} (is : command d = field name) (some_ : field name ≠ []) : d ≠ [] := by
  rintro rfl
  exact some_ is.symm

theorem from_of_definedView {catalog : Catalog} (defines : definedView catalog msg = some view) :
    ∃ kept, (∀ stored, modifies catalog msg stored ↔ kept = some stored) ∧
      SourceFrom (opMsgDocument msg) kept view.viewOn ∧ StagesFrom (opMsgDocument msg) kept view.pipeline := by
  unfold definedView at defines
  dsimp only at defines
  split at defines
  next _ _ _ readName =>
    split at defines
    next creates =>
      obtain ⟨source, stages⟩ := from_of_createdView defines
      refine ⟨none, fun stored => ⟨fun change => ?_, nofun⟩, source, stages⟩
      rw [modifies, creates] at change
      exact absurd change.1 (by decide +kernel)
    next =>
      split at defines
      next changes =>
        obtain ⟨stored, there, source, stages⟩ := from_of_modifiedView defines
        have target := wireCommandTarget_collection (ne_nil_of_command changes (by decide +kernel)) readName
        refine ⟨some stored, fun other => ?_, source, stages⟩
        rw [modifies, target, there]
        simp [changes]
      next => cases defines
  next => cases defines

theorem covered_of_newViewStage {v : Value} {stage : Stage}
    (granted : AllGranted privs (stagePrivileges db bypass v)) (apparent : apparentStage privs db [] v = true)
    (built : newViewStage engine v = some stage) : Covered privs db bypass stage := by
  unfold newViewStage at built
  split at built
  next d =>
    split at built
    next => cases built
    next =>
      split at built
      · cases built
        trivial
      · cases built
    next => exact covered_of_seen (seen_raw granted apparent) built
  next => cases built

theorem readsGranted_runView {fuel : Nat} {docs : List Document}
    (granted : AllGranted privs (stagesPrivileges db bypass view.pipeline))
    (apparent : apparentStages privs db [] view.pipeline = true) :
    ReadsGranted privs db (runView engine fuel view docs) := by
  rw [apparentStages_eq, all_eq_true] at apparent
  rw [stagesPrivileges_eq] at granted
  exact readsGranted_stages (fun v inside stage => covered_of_newViewStage
    (fun r needed => granted r (mem_flatMap.mpr ⟨v, inside, needed⟩)) (apparent v inside)) docs

theorem viewSource_of_definition (accepted : authorizeDefinition privs msg = true) :
    authorizeViewSource privs (wireCommandTarget msg).2.1 (opMsgDocument msg) = true := by
  unfold authorizeDefinition at accepted
  dsimp only at accepted
  split at accepted
  · exact (Bool.and_eq_true_iff.mp accepted).1
  · split at accepted
    · exact (Bool.and_eq_true_iff.mp accepted).1
    · cases accepted

/-- An accepted definition. A half that the message gives was asked for; a half that it keeps was not,
so that the source is granted exactly when a kept one happens to be, and the stages are when the kept
ones could have been given and no stage escapes the authorization. -/
theorem view_definition_granted {catalog : Catalog} {msg : Message} {view : ViewDef}
    (accepted : authorizeDefinition privs msg = true) (defines : definedView catalog msg = some view) :
    (ViewGranted privs (wireCommandTarget msg).2.1 view → KeptSource privs catalog msg) ∧
      (KeptSource privs catalog msg → KeptStages privs catalog msg → Apparent privs catalog msg →
        ViewGranted privs (wireCommandTarget msg).2.1 view) := by
  obtain ⟨source, stages⟩ := given_granted (viewSource_of_definition accepted)
  obtain ⟨kept, changed, fromSource, fromStages⟩ := from_of_definedView defines
  constructor
  · intro all stored change missing
    rcases fromSource with given | ⟨-, _, same, viewOn⟩
    · exact nomatch missing.symm.trans given
    · cases same.symm.trans ((changed stored).mp change)
      exact viewOn ▸ all.source
  · intro keptSource keptStages apparent
    constructor
    · rcases fromSource with given | ⟨missing, stored, same, viewOn⟩
      · exact source _ given
      · exact viewOn ▸ keptSource stored ((changed stored).mpr same) missing
    · intro _ _ _
      rcases fromStages with given | ⟨missing, same⟩
      · obtain ⟨_, granted⟩ := stages _ given
        exact readsGranted_runView granted (apparent.given _ given)
      · cases kept with
        | none =>
          have nothing : AllGranted privs (stagesPrivileges (wireCommandTarget msg).2.1 false view.pipeline) := by
            rw [same]
            exact nofun
          exact readsGranted_runView nothing (same ▸ rfl)
        | some stored =>
          have change := (changed stored).mpr rfl
          have same : view.pipeline = stored.pipeline := same
          refine readsGranted_runView (same.symm ▸ keptStages stored change missing) ?_
          exact same.symm ▸ apparent.kept stored change missing

/-- A database with a view on the salaries, and one on the staff that joins them. -/
def payroll : Catalog := fun name =>
  if name = field "pay" then some (.view ⟨field "salaries", []⟩)
  else if name = field "joined" then some (.view ⟨field "staff", [joinSalaries]⟩)
  else if name = field "staff" || name = field "salaries" then some .collection
  else none

def defineView (name coll : String) (fields : List (String × Value)) : Message :=
  ⟨(field name, named coll) :: (fields ++ [("$db", named "hr")]).map fun entry => (field entry.1, entry.2), []⟩

/-- The right to change the two views, and to read the staff. -/
def changeViews : PrivilegeSet :=
  findStaff ++ ["pay", "joined"].map fun coll => ⟨collectionResource (field "hr") (field coll),
    [actionNamed "collMod"]⟩

def moveJoined : Message := defineView "collMod" "joined" [("viewOn", named "staff")]

def readBoth : PrivilegeSet :=
  changeViews ++ [⟨collectionResource (field "hr") (field "salaries"), [actionNamed "find"]⟩]

/-- A `collMod` that keeps a pipeline with a join, by a user who may read what is joined. -/
theorem view_definition_granted_kept : ViewGranted readBoth (field "hr") ⟨field "staff", [joinSalaries]⟩ := by
  have kept {stored : ViewDef} (change : modifies payroll moveJoined stored) :
      stored = ⟨field "staff", [joinSalaries]⟩ := by
    have target : payroll (wireCommandTarget moveJoined).2.2 = some (.view ⟨field "staff", [joinSalaries]⟩) := rfl
    cases target.symm.trans change.2
    rfl
  have accepted : authorizeDefinition readBoth moveJoined = true := by decide +kernel
  have defines : definedView payroll moveJoined = some ⟨field "staff", [joinSalaries]⟩ := rfl
  refine (view_definition_granted accepted defines).2 (fun stored change missing => ?_)
    (fun stored change missing => ?_)
    ⟨fun pipeline given => ?_, fun stored change missing => ?_⟩
  · exact absurd missing (by decide +kernel)
  · rw [kept change, AllGranted]
    decide +kernel
  · cases given
  · rw [kept change]
    decide +kernel

/-- Each half that a `collMod` keeps escapes: an empty pipeline for a view on the salaries, and a new
source for a view that joins them. -/
theorem kept_half_escapes :
    (authorizeDefinition changeViews (defineView "collMod" "pay" [("pipeline", .array [])]) = true ∧
      (definedView payroll (defineView "collMod" "pay" [("pipeline", .array [])])).map ViewDef.viewOn
        = some (field "salaries")) ∧
    (authorizeDefinition changeViews (defineView "collMod" "joined" [("viewOn", named "staff")]) = true ∧
      (definedView payroll (defineView "collMod" "joined" [("viewOn", named "staff")])).map
        (fun view => (view.viewOn, fetched (runView plainEngine 1 view [[]]))) = some (field "staff",
          [field "salaries"])) ∧
    mayFind changeViews (field "hr") (field "salaries") = false := by
  decide +kernel

end DumboDB.Handler
