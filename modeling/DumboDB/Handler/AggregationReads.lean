import DumboDB.Handler.ForeignStages

/-!
Whether an aggregation reads only what was asked for. Putting the values of variables into a stage
replaces strings by documents and keeps everything else in its place, so that a stage which is built
inside of a pipeline is one that the authorization saw. Two kinds of stages escape: a `$graphLookup`
whose `pipeline`, which nothing else reads, starts with `$documents`, and a `$facet` that is a
reference to a variable.
-/

namespace DumboDB.Handler

open Foundation ByteOrder DumboDB.Types Authz Program Fallible List

def refersTo (scope : List Bytes) (s : Bytes) : Bool := (field "$$").isPrefixOf s && s.drop 2 ∈ scope

/-- The variables that a `let` binds; a reference in its place becomes a document with one field. -/
def letKeys (spec : Document) : List Bytes :=
  match spec.get (field "let") with
  | some (.document vars) => vars.map Prod.fst
  | some (.string _) => [literalField]
  | _ => []

def mayFind (privs : PrivilegeSet) (db coll : Bytes) : Bool :=
    privs.authorized (actionNamed "find") (collectionResource db coll)

mutual

/-- A stage reads no collection behind the back of the authorization, with variables of a scope around it. -/
def apparentStage (privs : PrivilegeSet) (db : Bytes) (scope : List Bytes) : Value → Bool
  | .document ((name, spec) :: _) =>
    match foreignKind name with
    | none => true
    | some kind => apparentSpec privs db scope kind spec
  | _ => true

def apparentSpec (privs : PrivilegeSet) (db : Bytes) (scope : List Bytes) (kind : ForeignKind) : Value → Bool
  | .document spec =>
    match kind with
    | .lookup => apparentUnder privs db (scope ++ letKeys spec) spec
    | .graphLookup => !startsWithDocuments spec || mayFind privs db (stringOf (Document.get spec (field "from")))
    | .unionWith => apparentUnder privs db scope spec
    | .facet => apparentFacets privs db scope spec
  | .string s => kind ≠ .facet || !refersTo scope s
  | _ => true

def apparentUnder (privs : PrivilegeSet) (db : Bytes) (scope : List Bytes) : List (Bytes × Value) → Bool
  | [] => true
  | (key, v) :: spec =>
    if key = field "pipeline" then apparentPipeline privs db scope v else apparentUnder privs db scope spec

def apparentFacets (privs : PrivilegeSet) (db : Bytes) (scope : List Bytes) : List (Bytes × Value) → Bool
  | [] => true
  | (_, v) :: facets => apparentPipeline privs db scope v && apparentFacets privs db scope facets

def apparentPipeline (privs : PrivilegeSet) (db : Bytes) (scope : List Bytes) : Value → Bool
  | .array stages => apparentStages privs db scope stages
  | _ => true

def apparentStages (privs : PrivilegeSet) (db : Bytes) (scope : List Bytes) : List Value → Bool
  | [] => true
  | stage :: stages => apparentStage privs db scope stage && apparentStages privs db scope stages

end

def substituteAll (rounds : List Bindings) (v : Value) : Value :=
  rounds.foldl (fun v vars => substituteVarsInValue vars false v) v

abbrev substituteFields (rounds : List Bindings) (d : Document) : Document :=
  d.map fun entry => (entry.1, substituteAll rounds entry.2)

theorem substituteVarsInDoc_eq (vars : Bindings) (inExpr : Bool) (d : List (Bytes × Value)) :
    substituteVarsInDoc vars inExpr d = d.map fun entry => (entry.1, substituteVarsInValue vars inExpr entry.2) := by
  induction d with
  | nil => rfl
  | cons entry d ih => rw [substituteVarsInDoc, ih, map_cons]

theorem substituteVarsInElems_eq (vars : Bindings) (inExpr : Bool) (elems : List Value) :
    substituteVarsInElems vars inExpr elems = elems.map (substituteVarsInValue vars inExpr) := by
  induction elems with
  | nil => rfl
  | cons v elems ih => rw [substituteVarsInElems, ih, map_cons]

theorem substituteAll_document (rounds : List Bindings) (d : List (Bytes × Value)) :
    substituteAll rounds (.document d) = .document (substituteFields rounds d) := by
  induction rounds generalizing d with
  | nil => simp [substituteAll, substituteFields]
  | cons vars rounds ih =>
    change substituteAll rounds (substituteVarsInValue vars false (.document d)) = _
    rw [substituteVarsInValue, substituteVarsInDoc_eq, ih, substituteFields, map_map]
    rfl

theorem substituteAll_array (rounds : List Bindings) (elems : List Value) :
    substituteAll rounds (.array elems) = .array (elems.map (substituteAll rounds)) := by
  induction rounds generalizing elems with
  | nil => exact congrArg Value.array (map_id elems).symm
  | cons vars rounds ih =>
    change substituteAll rounds (substituteVarsInValue vars false (.array elems)) = _
    rw [substituteVarsInValue, substituteVarsInElems_eq, ih, map_map]
    rfl

def BindOnly (scope : List Bytes) (rounds : List Bindings) : Prop := ∀ vars ∈ rounds, ∀ entry ∈ vars, entry.1 ∈ scope

variable {scope : List Bytes} {rounds : List Bindings} {v : Value} {s : Bytes}

theorem substituteAll_string (inScope : BindOnly scope rounds) (s : Bytes) :
    substituteAll rounds (.string s) = .string s ∨
      refersTo scope s = true ∧ ∃ v, substituteAll rounds (.string s) = .document [(literalField, v)] := by
  induction rounds with
  | nil => exact .inl rfl
  | cons vars rounds ih =>
    obtain ⟨here, later⟩ := forall_mem_cons.mp inScope
    change substituteAll rounds (resolveVar vars false s) = _ ∨ _ ∧
      ∃ v, substituteAll rounds (resolveVar vars false s) = _
    unfold resolveVar
    split
    next reference =>
      split
      next v bound =>
        refine .inr ⟨?_, _, substituteAll_document rounds [(literalField, v)]⟩
        obtain ⟨_, _, whole, -⟩ := lookup_eq_some_iff.mp bound
        have member : s.drop 2 ∈ scope := here (s.drop 2, v) (whole ▸ mem_append_right _ (.head _))
        simp [refersTo, reference, member]
      next => exact ih later
    next => exact ih later

theorem substituteAll_fixed (fixed : ∀ vars, substituteVarsInValue vars false v = v) (rounds : List Bindings) :
    substituteAll rounds v = v := by
  induction rounds with
  | nil => rfl
  | cons vars rounds ih =>
    change substituteAll rounds (substituteVarsInValue vars false v) = v
    rw [fixed, ih]

section

variable (inScope : BindOnly scope rounds)
include inScope

theorem substituteAll_cases (v : Value) : substituteAll rounds v = v ∨
      (∃ d, v = .document d ∧ substituteAll rounds v = .document (substituteFields rounds d)) ∨
      (∃ elems, v = .array elems ∧ substituteAll rounds v = .array (elems.map (substituteAll rounds))) ∨
      ∃ s w, v = .string s ∧ refersTo scope s = true ∧ substituteAll rounds v = .document [(literalField, w)] := by
  cases v with
  | document d => exact .inr (.inl ⟨d, rfl, substituteAll_document rounds d⟩)
  | array elems => exact .inr (.inr (.inl ⟨elems, rfl, substituteAll_array rounds elems⟩))
  | string s =>
    rcases substituteAll_string inScope s with same | ⟨bound, w, became⟩
    · exact .inl same
    · exact .inr (.inr (.inr ⟨s, w, rfl, bound, became⟩))
  | _ => exact .inl (substituteAll_fixed (fun _ => rfl) rounds)

theorem string_of_substituteAll (became : substituteAll rounds v = .string s) : v = .string s := by
  rcases substituteAll_cases inScope v with same | ⟨d, -, eq⟩ | ⟨_, -, eq⟩ | ⟨t, w, -, -, eq⟩
  · rw [← same, became]
  all_goals exact nomatch eq.symm.trans became

theorem array_of_substituteAll {elems : List Value}
    (became : substituteAll rounds v = .array elems) : ∃ raw, v = .array raw ∧
    elems = raw.map (substituteAll rounds) := by
  rcases substituteAll_cases inScope v with same | ⟨d, -, eq⟩ | ⟨raw, rfl, eq⟩ | ⟨t, w, -, -, eq⟩
  · rw [same] at became
    subst became
    rw [substituteAll_array] at same
    exact ⟨elems, rfl, (Value.array.inj same).symm⟩
  · exact nomatch eq.symm.trans became
  · exact ⟨raw, rfl, (Value.array.inj (eq.symm.trans became)).symm⟩
  · exact nomatch eq.symm.trans became

theorem document_of_substituteAll {d : List (Bytes × Value)} (became : substituteAll rounds v = .document d) :
    (∃ raw, v = .document raw ∧ d = substituteFields rounds raw) ∨
      ∃ s w, v = .string s ∧ refersTo scope s = true ∧ d = [(literalField, w)] := by
  rcases substituteAll_cases inScope v with same | ⟨raw, rfl, eq⟩ | ⟨_, -, eq⟩ | ⟨s, w, rfl, bound, eq⟩
  · rw [same] at became
    subst became
    rw [substituteAll_document] at same
    exact .inl ⟨d, rfl, (Value.document.inj same).symm⟩
  · exact .inl ⟨raw, rfl, (Value.document.inj (eq.symm.trans became)).symm⟩
  · exact nomatch eq.symm.trans became
  · exact .inr ⟨s, w, rfl, bound, (Value.document.inj (eq.symm.trans became)).symm⟩

end

theorem get_map (f : Value → Value) (d : Document) (key : Bytes) :
    Document.get (d.map fun entry => (entry.1, f entry.2)) key = (d.get key).map f := by
  induction d with
  | nil => rfl
  | cons entry d ih =>
    rw [map_cons, get_cons, get_cons, ih]
    split <;> rfl

theorem command_map (f : Value → Value) (d : Document) :
    command (d.map fun entry => (entry.1, f entry.2)) = command d := by
  cases d <;> rfl

theorem startsWithDocuments_map (spec : Document) (own : startsWithDocuments spec = true) :
    startsWithDocuments (substituteFields rounds spec) = true := by
  unfold startsWithDocuments at own
  split at own
  next _ _ read =>
    unfold startsWithDocuments
    rw [get_map, read, Option.map_some, substituteAll_array, map_cons, substituteAll_document]
    simpa only [command_map] using own
  next => cases own

section
variable (privs : PrivilegeSet) (db : Bytes) (bypass : Bool)

def AllGranted (required : List StagePrivilege) : Prop := ∀ r ∈ required, privs.authorized r.action r.resource = true

/-- A stage that came, by rounds of substitution, from one that the authorization saw. -/
def Seen (scope : List Bytes) (d : Document) : Prop :=
  ∃ rounds raw, BindOnly scope rounds ∧ substituteAll rounds raw = .document d ∧
    AllGranted privs (stagePrivileges db bypass raw) ∧ apparentStage privs db scope raw = true

structure SeenLookup (l : Lookup) : Prop where
  source : mayFind privs db l.from_ = true ∨
    l.from_ = [] ∧ ∃ first rest, l.pipeline = some (.document first :: rest) ∧ command first = field "$documents"
  stages : ∃ scope, (∀ entry ∈ l.letVars, entry.1 ∈ scope) ∧
    ∀ pipeline, l.pipeline = some pipeline → ∀ d, .document d ∈ pipeline → Seen privs db bypass scope d

/-- A built stage that reads what it may, and whose pipelines were seen. -/
def Covered : Stage → Prop
  | .lookup l => SeenLookup privs db bypass l
  | .unionWith l => SeenLookup privs db bypass l
  | .graphLookup g => mayFind privs db g.from_ = true
  | .facet pipelines => ∃ scope, ∀ pipeline ∈ pipelines, ∀ d ∈ pipeline.2, Seen privs db bypass scope d
  | .output _ => True
  | .plain _ => True

end

section
variable {privs : PrivilegeSet} {db : Bytes} {bypass : Bool} {d : Document} {spec : Document} {pipeline : List Value}
  {letVars : Document} {entry : Bytes × Value} {raw : Value} {rest : Document} {l : Lookup} {g : GraphLookup}
  {v : Value} {pipelines : List (Bytes × List Document)} {engine : Engine} {stage : Stage} {vars : Bindings}

theorem underPipeline_eq (spec : Document) : underPipeline db bypass spec =
    ((spec.get (field "pipeline")).map (pipelineStagePrivileges db bypass)).getD [] := by
  induction spec with
  | nil => rfl
  | cons _ spec ih =>
    rw [underPipeline, get_cons]
    split
    · rfl
    · exact ih

theorem apparentUnder_eq (scope : List Bytes) (spec : Document) : apparentUnder privs db scope spec =
    ((spec.get (field "pipeline")).map (apparentPipeline privs db scope)).getD true := by
  induction spec with
  | nil => rfl
  | cons _ spec ih =>
    rw [apparentUnder, get_cons]
    split
    · rfl
    · exact ih

theorem stagesPrivileges_eq (stages : List Value) :
    stagesPrivileges db bypass stages = stages.flatMap (stagePrivileges db bypass) := by
  induction stages with
  | nil => rfl
  | cons _ stages ih => rw [stagesPrivileges, ih, flatMap_cons]

theorem apparentStages_eq (scope : List Bytes) (stages : List Value) :
    apparentStages privs db scope stages = stages.all (apparentStage privs db scope) := by
  induction stages with
  | nil => rfl
  | cons _ stages ih => rw [apparentStages, ih, all_cons]

theorem facetsPrivileges_eq (facets : Document) :
    facetsPrivileges db bypass facets = facets.flatMap fun entry => pipelineStagePrivileges db bypass entry.2 := by
  induction facets with
  | nil => rfl
  | cons entry facets ih => rw [facetsPrivileges, ih, flatMap_cons]

theorem apparentFacets_eq (scope : List Bytes) (facets : Document) :
    apparentFacets privs db scope facets = facets.all fun entry => apparentPipeline privs db scope entry.2 := by
  induction facets with
  | nil => rfl
  | cons entry facets ih => rw [apparentFacets, ih, all_cons]

section

variable (inScope : BindOnly scope rounds)
include inScope

theorem seen_of_pipeline {raw : List Value}
    (granted : AllGranted privs (pipelineStagePrivileges db bypass (.array raw)))
    (apparent : apparentPipeline privs db scope (.array raw) = true)
    (member : .document d ∈ raw.map (substituteAll rounds)) : Seen privs db bypass scope d := by
  obtain ⟨v, inside, became⟩ := mem_map.mp member
  rw [pipelineStagePrivileges, stagesPrivileges_eq] at granted
  rw [apparentPipeline, apparentStages_eq, all_eq_true] at apparent
  exact ⟨rounds, v, inScope, became, fun r needed => granted r (mem_flatMap.mpr ⟨v, inside, needed⟩),
    apparent v inside⟩

theorem seen_under (granted : AllGranted privs (underPipeline db bypass spec))
    (apparent : apparentUnder privs db scope spec = true)
    (read : (substituteFields rounds spec).get (field "pipeline") = some (.array pipeline))
    (member : .document d ∈ pipeline) : Seen privs db bypass scope d := by
  rw [get_map] at read
  obtain ⟨v, found, became⟩ := Option.map_eq_some_iff.mp read
  obtain ⟨_, rfl, rfl⟩ := array_of_substituteAll inScope became
  rw [underPipeline_eq, found] at granted
  rw [apparentUnder_eq, found] at apparent
  exact seen_of_pipeline inScope granted apparent member

theorem string_under {key : Bytes} (read : (substituteFields rounds spec).get key = some (.string s)) :
    spec.get key = some (.string s) := by
  rw [get_map] at read
  obtain ⟨v, found, became⟩ := Option.map_eq_some_iff.mp read
  rw [found, string_of_substituteAll inScope became]

end

theorem mayFind_of_source {coll : Bytes} {own : Bool} (granted : AllGranted privs (sourcePrivilege db coll own))
    (reads : own = false) : mayFind privs db coll = true := by
  refine granted ⟨collectionResource db coll, actionNamed "find"⟩ ?_
  simp [sourcePrivilege, reads]

theorem BindOnly.mono {wider : List Bytes} (inScope : BindOnly scope rounds) (more : scope ⊆ wider) :
    BindOnly wider rounds :=
  fun vars member entry inside => more (inScope vars member entry inside)

theorem allGranted_append {first second : List StagePrivilege} :
    AllGranted privs (first ++ second) ↔ AllGranted privs first ∧ AllGranted privs second :=
  forall_mem_append

theorem lookupPipeline_cases {pipeline : Option (List Value)}
    (read : lookupPipeline spec = some (pipeline, letVars)) :
    (∀ p, pipeline = some p → spec.get (field "pipeline") = some (.array p)) ∧
      (∀ p, spec.get (field "pipeline") = some (.array p) → pipeline = some p) ∧
      (letVars = [] ∨ spec.get (field "let") = some (.document letVars)) := by
  unfold lookupPipeline at read
  split at read
  next missing =>
    cases read
    exact ⟨nofun, fun p found => (nomatch missing.symm.trans found), .inl rfl⟩
  next p found _ =>
    cases read
    refine ⟨fun q same => ?_, fun q other => ?_, .inl rfl⟩
    · cases same
      exact found
    · cases found.symm.trans other
      rfl
  next p _ found bound =>
    cases read
    refine ⟨fun q same => ?_, fun q other => ?_, .inr bound⟩
    · cases same
      exact found
    · cases found.symm.trans other
      rfl
  next => cases read

theorem key_mem_letKeys (inScope : BindOnly scope rounds)
    (read : (substituteFields rounds spec).get (field "let") = some (.document letVars))
    (member : entry ∈ letVars) : entry.1 ∈ letKeys spec := by
  rw [get_map] at read
  obtain ⟨v, found, became⟩ := Option.map_eq_some_iff.mp read
  unfold letKeys
  rw [found]
  rcases document_of_substituteAll inScope became with ⟨_, rfl, rfl⟩ | ⟨s, w, rfl, -, rfl⟩
  · obtain ⟨source, inside, rfl⟩ := mem_map.mp member
    exact mem_map.mpr ⟨source, inside, rfl⟩
  · cases mem_singleton.mp member
    exact .head _

theorem documents_of_starts (own : startsWithDocuments spec = true) :
    ∃ first rest, spec.get (field "pipeline") = some (.array (.document first :: rest)) ∧
      command first = field "$documents" := by
  unfold startsWithDocuments at own
  split at own
  next first rest read => exact ⟨first, rest, read, of_decide_eq_true own⟩
  next => cases own

section

variable (inScope : BindOnly scope rounds)
include inScope

theorem source_asked {key : String} {coll : Bytes}
    (granted : AllGranted privs (sourcePrivilege db (stringOf (spec.get (field key))) (startsWithDocuments spec)))
    (read : subPipelineSource key (substituteFields rounds spec) = some coll) :
    mayFind privs db coll = true ∨ coll = [] ∧ startsWithDocuments (substituteFields rounds spec) = true := by
  unfold subPipelineSource at read
  split at read
  · split at read
    next own =>
      cases read
      exact .inr ⟨rfl, own⟩
    next => cases read
  next _ found =>
    split at read
    next fine =>
      cases read
      have reads : startsWithDocuments spec = false := by
        by_contra own
        rw [Bool.not_eq_false] at own
        simp [checkSubPipelineSource, startsWithDocuments_map spec own] at fine
      rw [string_under inScope found] at granted
      exact .inl (mayFind_of_source granted reads)
    next => cases read
  next => cases read

theorem seenLookup_of_lookup (granted : AllGranted privs (specPrivileges db bypass .lookup raw))
    (apparent : apparentSpec privs db scope .lookup raw = true)
    (built : newLookupStage ((field "$lookup", substituteAll rounds raw) :: rest) = some l) :
    SeenLookup privs db bypass l := by
  generalize became : substituteAll rounds raw = v at built
  cases v with
  | document d =>
    obtain ⟨_, source, built⟩ := Option.bind_eq_some_iff.mp built
    simp only [Option.bind_eq_bind, Option.bind_eq_some_iff] at built
    obtain ⟨_, named, ⟨_, _⟩, piped, _, -, built⟩ := built
    split at built
    · cases built
    cases built
    rcases document_of_substituteAll inScope became with ⟨spec, rfl, rfl⟩ | ⟨s, w, rfl, -, rfl⟩
    · rw [specPrivileges, allGranted_append] at granted
      obtain ⟨found, given, vars⟩ := lookupPipeline_cases piped
      refine ⟨?_, scope ++ letKeys spec, ?_, ?_⟩
      · refine (source_asked inScope granted.1 source).imp_right fun ⟨none_, own⟩ => ⟨none_, ?_⟩
        obtain ⟨first, others, read, documents⟩ := documents_of_starts own
        exact ⟨first, others, given _ read, documents⟩
      · intro _ member
        rcases vars with rfl | bound
        · cases member
        · exact mem_append_right _ (key_mem_letKeys inScope bound member)
      · intro p same d member
        exact seen_under (inScope.mono (subset_append_left _ _)) granted.2 apparent (found p same) member
    · cases named
  | _ => cases built

theorem mayFind_of_graphLookup {depth : Value → Bool}
    (granted : AllGranted privs (specPrivileges db bypass .graphLookup raw))
    (apparent : apparentSpec privs db scope .graphLookup raw = true)
    (built : newGraphLookupStage depth ((field "$graphLookup", substituteAll rounds raw) :: rest) = some g) :
    mayFind privs db g.from_ = true := by
  generalize became : substituteAll rounds raw = v at built
  cases v with
  | document d =>
    obtain ⟨coll, named, built⟩ := Option.bind_eq_some_iff.mp built
    simp only [Option.bind_eq_bind, Option.bind_eq_some_iff] at built
    obtain ⟨_, -, _, -, _, -, _, -, _, -, _, -, _, -, same⟩ := built
    cases same
    have read : Document.get d (field "from") = some (.string coll) := by
      unfold requireStringField at named
      split at named
      next found =>
        cases named
        exact found
      next => cases named
    rcases document_of_substituteAll inScope became with ⟨spec, rfl, rfl⟩ | ⟨s, w, rfl, -, rfl⟩
    · have original := string_under inScope read
      rw [specPrivileges, allGranted_append, original] at granted
      rw [apparentSpec, original] at apparent
      cases own : startsWithDocuments spec with
      | false => exact mayFind_of_source granted.1 own
      | true => simpa [own, stringOf] using apparent
    · cases read
  | _ => cases built

theorem seenLookup_of_unionWith (granted : AllGranted privs (specPrivileges db bypass .unionWith raw))
    (apparent : apparentSpec privs db scope .unionWith raw = true)
    (built : newUnionWithStage ((field "$unionWith", substituteAll rounds raw) :: rest) = some l) :
    SeenLookup privs db bypass l := by
  unfold newUnionWithStage at built
  rw [get_cons, if_pos rfl] at built
  obtain ⟨⟨coll, pipeline⟩, read, built⟩ := Option.bind_eq_some_iff.mp built
  dsimp only [Option.bind_some] at read built
  split at built
  · cases built
  cases built
  generalize became : substituteAll rounds raw = v at read
  cases v with
  | string s =>
    rw [unionWithSpec] at read
    split at read
    · cases read
      cases string_of_substituteAll inScope became
      rw [specPrivileges, if_pos rfl] at granted
      refine ⟨.inl (mayFind_of_source granted rfl), [], nofun, fun p same d member => ?_⟩
      cases same
      cases member
    · cases read
  | document d =>
    rw [unionWithSpec] at read
    split at read
    next known =>
      obtain ⟨_, source, read⟩ := Option.bind_eq_some_iff.mp read
      obtain ⟨_, piped, read⟩ := Option.bind_eq_some_iff.mp read
      cases read
      rcases document_of_substituteAll inScope became with ⟨_, rfl, rfl⟩ | ⟨s, w, rfl, -, rfl⟩
      · rw [specPrivileges, allGranted_append] at granted
        refine ⟨?_, scope, nofun, fun p same d member => ?_⟩
        · refine (source_asked inScope granted.1 source).imp_right fun ⟨none_, own⟩ => ⟨none_, ?_⟩
          obtain ⟨first, others, found, documents⟩ := documents_of_starts own
          rw [unionWithPipeline, found] at piped
          cases piped
          exact ⟨first, others, rfl, documents⟩
        · cases same
          unfold unionWithPipeline at piped
          split at piped
          · cases piped
            cases member
          next found =>
            cases piped
            exact seen_under inScope granted.2 apparent found member
          · cases piped
      · have unknown : ¬(literalField = field "coll" ∨ literalField = field "pipeline") := by decide +kernel
        exact absurd known (by simpa using unknown)
    next => cases read
  | _ => cases read

end

theorem facetStage_eq_some (taken : facetStage v = some d) : v = .document d := by
  unfold facetStage at taken
  split at taken
  · split at taken
    · cases taken
    · cases taken
      rfl
  · cases taken

theorem seen_of_facet (inScope : BindOnly scope rounds)
    (granted : AllGranted privs (specPrivileges db bypass .facet raw))
    (apparent : apparentSpec privs db scope .facet raw = true)
    (built : newFacet ((field "$facet", substituteAll rounds raw) :: rest) = some pipelines) :
    ∀ pipeline ∈ pipelines, ∀ d ∈ pipeline.2, Seen privs db bypass scope d := by
  intro pipeline listed d inside
  unfold newFacet at built
  rw [get_cons, if_pos rfl] at built
  generalize became : substituteAll rounds raw = v at built
  cases v with
  | document _ =>
    dsimp only at built
    split at built
    · cases built
    rcases document_of_substituteAll inScope became with ⟨_, rfl, rfl⟩ | ⟨s, w, rfl, bound, rfl⟩
    · obtain ⟨_, member, made⟩ := mem_of_mapM_some built listed
      obtain ⟨⟨_, v⟩, source, rfl⟩ := mem_map.mp member
      unfold facetPipeline at made
      split at made
      next _ _ same =>
        obtain ⟨_, taken, rfl⟩ := Option.map_eq_some_iff.mp made
        obtain ⟨_, rfl, rfl⟩ := array_of_substituteAll inScope (Prod.ext_iff.mp same).2
        obtain ⟨w, stood, is⟩ := mem_of_mapM_some taken inside
        rw [specPrivileges, facetsPrivileges_eq] at granted
        rw [apparentSpec, apparentFacets_eq, all_eq_true] at apparent
        exact seen_of_pipeline inScope (fun r needed => granted r (mem_flatMap.mpr ⟨_, source, needed⟩))
          (apparent _ source) (facetStage_eq_some is ▸ stood)
      next => cases made
    · simp [apparentSpec, bound] at apparent
  | _ => cases built

theorem covered_of_seen (seen : Seen privs db bypass scope d)
    (built : newSubPipelineStage engine d = some stage) : Covered privs db bypass stage := by
  unfold newSubPipelineStage at built
  split at built
  next kind known =>
    obtain ⟨_, _, inScope, became, granted, apparent⟩ := seen
    rcases document_of_substituteAll inScope became with ⟨fields, rfl, rfl⟩ | ⟨s, w, -, -, rfl⟩
    · cases fields with
      | nil =>
        have unnamed : foreignKind [] = none := by decide +kernel
        exact nomatch unnamed.symm.trans known
      | cons entry _ =>
        obtain ⟨name, _⟩ := entry
        have named : foreignKind name = some kind := known
        have same := name_of_foreignKind named
        subst same
        cases kind with
        | lookup =>
          obtain ⟨l, made, rfl⟩ := Option.map_eq_some_iff.mp built
          exact seenLookup_of_lookup inScope granted apparent made
        | graphLookup =>
          obtain ⟨g, made, rfl⟩ := Option.map_eq_some_iff.mp built
          exact mayFind_of_graphLookup inScope granted apparent made
        | unionWith =>
          obtain ⟨l, made, rfl⟩ := Option.map_eq_some_iff.mp built
          exact seenLookup_of_unionWith inScope granted apparent made
        | facet =>
          obtain ⟨_, made, rfl⟩ := Option.map_eq_some_iff.mp built
          exact ⟨scope, seen_of_facet inScope granted apparent made⟩
    · have plain : foreignKind (command [(literalField, w)]) = none := by
        change foreignKind literalField = none
        decide +kernel
      exact nomatch plain.symm.trans known
  next =>
    split at built
    · cases built
    · cases built
      trivial

theorem covered_of_match (query : command d = field "$match") (built : newSubPipelineStage engine d = some stage) :
    Covered privs db bypass stage := by
  have plain : foreignKind (field "$match") = none := by decide +kernel
  unfold newSubPipelineStage at built
  rw [query, plain] at built
  dsimp only at built
  split at built
  · cases built
  · cases built
    trivial

theorem seen_substituted (seen : Seen privs db bypass scope d)
    (bound : ∀ entry ∈ vars, entry.1 ∈ scope) : Seen privs db bypass scope (substituteVarsInDoc vars false d) := by
  obtain ⟨rounds, raw, inScope, became, granted, apparent⟩ := seen
  refine ⟨rounds ++ [vars], raw, ?_, ?_, granted, apparent⟩
  · intro round member
    rcases mem_append.mp member with old | new
    · exact inScope round old
    · cases mem_singleton.mp new
      exact bound
  · unfold substituteAll at became ⊢
    rw [foldl_append, became]
    rfl

theorem substituteVarsInStage_cases (d : Document) (vars : Bindings) :
    substituteVarsInStage d vars = substituteVarsInDoc vars false d ∨
      command (substituteVarsInStage d vars) = field "$match" := by
  unfold substituteVarsInStage
  split
  · exact .inl rfl
  next one =>
    refine .inr ?_
    split
    · rfl
    · simp only [Bool.or_eq_true, decide_eq_true_eq, not_or, not_not] at one
      exact one.2

variable (privs db) in
/-- A computation fetches only collections that may be read. -/
def ReadsGranted {α : Type} (r : Reading α) : Prop := r.CallsOnly fun f => mayFind privs db f.collection = true

variable {α β : Type} {output : OutputStage}

theorem readsGranted_bind {r : Reading α} {f : α → Reading β} (first : ReadsGranted privs db r)
    (later : ∀ a, ReadsGranted privs db (f a)) : ReadsGranted privs db (r >>= f) :=
  callsOnly_bind first later

theorem readsGranted_foldlM {step : β → α → Reading β} {list : List α}
    (one : ∀ b, ∀ a ∈ list, ReadsGranted privs db (step b a)) (b : β) : ReadsGranted privs db (list.foldlM step b) :=
  callsOnly_foldlM one b

theorem readsGranted_orFail (o : Option α) : ReadsGranted privs db (orFail o) := by
  cases o <;> trivial

theorem readsGranted_fetch {coll : Bytes} (may : mayFind privs db coll = true) (filter : Option Document) :
    ReadsGranted privs db (fetch coll filter) :=
  readsGranted_bind ⟨may, fun _ => trivial⟩ readsGranted_orFail

section
variable {engine : Engine} {sub : Document → List Document → Reading (List Document)} {l : Lookup}

theorem key_of_letBindings {doc : Document} (bound : letBindings engine l doc = some vars)
    (member : entry ∈ vars) : ∃ source ∈ l.letVars, source.1 = entry.1 := by
  obtain ⟨source, inside, evaluated⟩ := mem_of_mapM_some bound member
  obtain ⟨v, -, rfl⟩ := Option.map_eq_some_iff.mp evaluated
  exact ⟨source, inside, rfl⟩

theorem readsGranted_runPipeline (seen : SeenLookup privs db bypass l) (stands : l.pipeline = some pipeline)
    (stages : ∀ scope d current, Seen privs db bypass scope d → ReadsGranted privs db (sub d current))
    (queries : ∀ d current, command d = field "$match" → ReadsGranted privs db (sub d current))
    (fromDocs : List Document) (doc : Document) :
    ReadsGranted privs db (runPipeline engine sub l pipeline fromDocs doc) := by
  obtain ⟨scope, keys, inside⟩ := seen.stages
  unfold runPipeline
  cases bound : letBindings engine l doc with
  | none => trivial
  | some vars =>
    have inScope : ∀ entry ∈ vars, entry.1 ∈ scope := fun entry member => by
      obtain ⟨source, listed, same⟩ := key_of_letBindings bound member
      exact same ▸ keys source listed
    refine readsGranted_foldlM (fun current entry member => ?_) fromDocs
    unfold runSubStage
    split
    next d is =>
      have listed : .document d ∈ pipeline := is ▸ fst_mem_of_mem_zipIdx member
      split
      · exact readsGranted_orFail _
      · rcases substituteVarsInStage_cases d vars with same | query
        · rw [same]
          exact stages scope _ current (seen_substituted (inside pipeline stands d listed) inScope)
        · exact queries _ current query
    · trivial

theorem perDocField_of_documents {first : Document} {rest : List Value}
    (stands : l.pipeline = some (.document first :: rest))
    (documents : command first = field "$documents") : perDocField engine l = none := by
  have other : onlyField "$match" (.document first) = none := by
    unfold onlyField
    split
    next key v only =>
      cases only
      have named : key = field "$documents" := documents
      rw [named]
      exact if_neg (by decide +kernel)
    next => rfl
  simp [perDocField, stands, leadingMatchEqualityField, other]

section

variable (seen : SeenLookup privs db bypass l)
include seen

theorem readsGranted_source (named : l.from_ ≠ []) (filter : Option Document) :
    ReadsGranted privs db (fetch l.from_ filter) :=
  readsGranted_fetch (seen.source.resolve_right fun bare => named bare.1) filter

theorem readsGranted_candidates (fromDocs : List Document) (doc : Document) :
    ReadsGranted privs db (lookupCandidates engine l fromDocs doc) := by
  unfold lookupCandidates
  split
  next _ indexed =>
    rcases seen.source with may | ⟨-, _, _, starts, documents⟩
    · refine readsGranted_bind (readsGranted_orFail _) fun vars => ?_
      split
      · exact readsGranted_fetch may _
      · trivial
    · exact nomatch (perDocField_of_documents starts documents).symm.trans indexed
  · trivial

section

variable (stages : ∀ scope d current, Seen privs db bypass scope d → ReadsGranted privs db (sub d current))
  (queries : ∀ d current, command d = field "$match" → ReadsGranted privs db (sub d current)) (docs : List Document)
include stages queries docs

theorem readsGranted_lookup : ReadsGranted privs db (lookup.process engine sub l docs) := by
  refine readsGranted_bind ?_ fun fromDocs => ?_
  · unfold lookupSource
    dsimp only
    split
    next reads => exact readsGranted_source seen (of_decide_eq_true (Bool.and_eq_true_iff.mp reads).2) _
    · trivial
  · refine readsGranted_foldlM (fun out doc _ => ?_) []
    refine readsGranted_bind ?_ fun _ => trivial
    cases stands : l.pipeline with
    | none =>
      simp only [lookupMatches, stands]
      trivial
    | some _ =>
      simp only [lookupMatches, stands]
      exact readsGranted_bind (readsGranted_candidates seen fromDocs doc) fun candidates =>
        readsGranted_runPipeline seen stands stages queries _ doc

theorem readsGranted_unionWith : ReadsGranted privs db (unionWith.process engine sub l docs) := by
  refine readsGranted_bind ?_ fun fromDocs => readsGranted_bind ?_ fun _ => trivial
  · unfold unionWithSource
    split
    next named => exact readsGranted_source seen named none
    · trivial
  · cases stands : l.pipeline with
    | none =>
      exact readsGranted_bind (readsGranted_orFail _) fun _ => trivial
    | some _ => exact readsGranted_runPipeline seen stands stages queries fromDocs []

end

end

theorem readsGranted_graphLookup (may : mayFind privs db g.from_ = true) (docs : List Document) :
    ReadsGranted privs db (graphLookup.process engine g docs) := by
  refine readsGranted_bind ?_ fun source => ?_
  · refine readsGranted_foldlM (fun found filter _ => ?_) []
    exact readsGranted_bind (readsGranted_fetch may filter) fun _ => trivial
  · refine readsGranted_foldlM (fun out doc _ => ?_) []
    exact readsGranted_bind (readsGranted_orFail _) fun _ => trivial

theorem readsGranted_facet {run : Stage → List Document → Reading (List Document)}
    (seen : ∀ pipeline ∈ pipelines, ∀ d ∈ pipeline.2, Seen privs db bypass scope d)
    (stages : ∀ stage current, Covered privs db bypass stage →
    ReadsGranted privs db (run stage current)) (docs : List Document) :
    ReadsGranted privs db (facet.process engine run pipelines docs) := by
  refine readsGranted_bind ?_ fun _ => trivial
  refine readsGranted_foldlM (fun out pipeline listed => ?_) []
  cases built : pipeline.2.mapM (newSubPipelineStage engine) with
  | none => trivial
  | some built_ =>
    change ReadsGranted privs db (do
      let results ← built_.foldlM (fun current stage => run stage current) docs
      return setField pipeline.1 (.array (results.map .document)) out)
    refine readsGranted_bind (readsGranted_foldlM (fun current stage member => ?_) docs) fun _ => trivial
    obtain ⟨d, inside, made⟩ := mem_of_mapM_some built member
    exact stages stage current (covered_of_seen (seen pipeline listed d inside) made)

theorem readsGranted_process (fuel : Nat) (covered : Covered privs db bypass stage) (docs : List Document) :
    ReadsGranted privs db (stage.process engine fuel docs) := by
  -- The induction is on the depth, since the pipelines inside of a stage are built from documents.
  induction fuel generalizing stage docs with
  | zero => trivial
  | succ fuel ih =>
    have below : ∀ d current, (∀ stage, newSubPipelineStage engine d = some stage → Covered privs db bypass stage) →
        ReadsGranted privs db (do (← orFail (newSubPipelineStage engine d)).process engine fuel current) := by
      intro d current covers
      cases built : newSubPipelineStage engine d with
      | none => trivial
      | some stage => exact ih (covers stage built) current
    have stages := fun scope d current (seen : Seen privs db bypass scope d) => below d current fun _ =>
      covered_of_seen seen
    have queries := fun d current query => below d current fun _ => covered_of_match query
    cases stage with
    | lookup l => exact readsGranted_lookup covered stages queries docs
    | unionWith l => exact readsGranted_unionWith covered stages queries docs
    | graphLookup g => exact readsGranted_graphLookup covered docs
    | facet pipelines =>
      obtain ⟨scope, seen⟩ := covered
      exact readsGranted_facet seen (fun stage current inner => ih inner current) docs
    | output stage => trivial
    | plain d => exact readsGranted_orFail _

end

theorem granted_of_requireOn {target : Bytes × Bytes} {actions : List Action}
    (granted : AllGranted privs (requireOn bypass target actions))
    {action : Action} (member : action ∈ actions) :
    privs.authorized action (collectionResource target.1 target.2) = true :=
  granted ⟨collectionResource target.1 target.2, action⟩ (mem_map.mpr ⟨action, mem_append_left _ member, rfl⟩)

theorem granted_of_out {spec : Value} (granted : AllGranted privs (outputPrivileges db bypass (field "$out") spec))
    (built : newOutStage ((field "$out", spec) :: rest) db = some output) :
    ∀ action ∈ output.performs, privs.authorized action (collectionResource output.db output.coll) = true := by
  unfold newOutStage at built
  obtain ⟨_, same, built⟩ := Option.bind_eq_some_iff.mp built
  cases same
  obtain ⟨⟨_, _⟩, target, done⟩ := Option.bind_eq_some_iff.mp built
  cases done
  rw [outputPrivileges, if_pos rfl, stageTarget_of_outputTarget target] at granted
  exact fun action performed => granted_of_requireOn granted performed

theorem inserts_of_parse (parsed : parseMergeWhenNotMatched spec = some .insert) :
    spec.get (field "whenNotMatched") = none ∨
      spec.get (field "whenNotMatched") = some (.string (field "insert")) := by
  unfold parseMergeWhenNotMatched parseChoice at parsed
  split at parsed
  next missing => exact .inl missing
  next _ given =>
    unfold whenNotMatchedNamed at parsed
    split at parsed
    next same => exact .inr (same ▸ given)
    next =>
      split at parsed
      · cases parsed
      · split at parsed <;> cases parsed
  next => cases parsed

theorem updates_of_parse {choice : WhenMatched} (parsed : parseMergeWhenMatched spec = some choice)
    (updates : choice = .merge ∨ choice = .replace) :
    spec.get (field "whenMatched") ≠ some (.string (field "fail")) := by
  intro given
  unfold parseMergeWhenMatched parseChoice at parsed
  rw [given] at parsed
  cases parsed
  exact updates.elim nofun nofun

theorem granted_of_merge {spec : Value} (granted : AllGranted privs
    (outputPrivileges db bypass (field "$merge") spec))
    (built : newMergeStage ((field "$merge", spec) :: rest) db = some output) :
    ∀ action ∈ output.performs, privs.authorized action (collectionResource output.db output.coll) = true := by
  have other : field "$merge" ≠ field "$out" := by decide +kernel
  rw [outputPrivileges, if_neg other, if_pos rfl] at granted
  unfold newMergeStage at built
  rw [get_cons, if_pos rfl] at built
  cases spec with
  | string coll =>
    dsimp only at built
    split at built
    · cases built
    · cases built
      exact fun action performed => granted_of_requireOn granted performed
  | document d =>
    simp only [Option.bind_eq_bind, Option.bind_eq_some_iff] at built
    obtain ⟨_, given, ⟨_, coll⟩, target, _, -, _, matched_, _, unmatched, same⟩ := built
    cases same
    simp only [mergePrivileges, given, Option.getD_some, stageTarget_of_outputTarget target] at granted
    intro action performed
    refine granted_of_requireOn granted ?_
    simp only [OutputStage.performs, mem_append] at performed ⊢
    refine performed.imp (fun inserted => ?_) fun updated => ?_
    · split at inserted
      next inserts =>
        cases inserts
        rcases inserts_of_parse unmatched with missing | named
        · simpa [missing] using inserted
        · simpa [named] using inserted
      next => cases inserted
    · split at updated
      next updates =>
        have kept := updates_of_parse matched_ updates
        rw [if_pos]
        · exact updated
        · split
          next _ named =>
            rw [named] at kept
            simpa using kept
          next => rfl
      next => cases updated
  | _ => cases built

theorem not_output_of_sub : newSubPipelineStage engine d ≠ some (.output output) := by
  intro built
  unfold newSubPipelineStage at built
  split at built
  next kind _ => cases kind <;> simp [newForeignStage] at built
  next =>
    split at built
    · cases built
    · cases built

theorem granted_of_output
    (granted : AllGranted privs (stagePrivileges db bypass v))
    (built : newStage engine db v = some (.output output)) :
    ∀ action ∈ output.performs, privs.authorized action (collectionResource output.db output.coll) = true := by
  unfold newStage at built
  split at built
  next d =>
    cases d with
    | nil =>
      have unnamed : ¬command [] = field "$out" ∧ ¬command [] = field "$merge" := by decide +kernel
      rw [if_neg unnamed.1, if_neg unnamed.2] at built
      exact absurd built not_output_of_sub
    | cons entry _ =>
      obtain ⟨name, _⟩ := entry
      split at built
      next out =>
        cases (show name = field "$out" from out)
        obtain ⟨made, done, same⟩ := Option.map_eq_some_iff.mp built
        cases same
        exact granted_of_out granted done
      next =>
        split at built
        next merge =>
          cases (show name = field "$merge" from merge)
          obtain ⟨made, done, same⟩ := Option.map_eq_some_iff.mp built
          cases same
          exact granted_of_merge granted done
        next => exact absurd built not_output_of_sub
  next => cases built

theorem seen_raw (granted : AllGranted privs (stagePrivileges db bypass (.document d)))
    (apparent : apparentStage privs db [] (.document d) = true) : Seen privs db bypass [] d :=
  ⟨[], .document d, nofun, rfl, granted, apparent⟩

theorem covered_of_newStage
    (granted : AllGranted privs (stagePrivileges db bypass v)) (apparent : apparentStage privs db [] v = true)
    (built : newStage engine db v = some stage) : Covered privs db bypass stage := by
  unfold newStage at built
  split at built
  next d =>
    split at built
    · obtain ⟨output, -, rfl⟩ := Option.map_eq_some_iff.mp built
      trivial
    · split at built
      · obtain ⟨output, -, rfl⟩ := Option.map_eq_some_iff.mp built
        trivial
      · exact covered_of_seen (seen_raw granted apparent) built
  next => cases built

theorem readsGranted_stages {fuel : Nat} {stages : List Value} {build : Value → Option Stage}
    (covers : ∀ v ∈ stages, ∀ stage, build v = some stage → Covered privs db bypass stage) (docs : List Document) :
    ReadsGranted privs db (do
      let stages ← orFail (stages.mapM build)
      stages.foldlM (fun current stage => stage.process engine fuel current) docs) := by
  cases built : stages.mapM build with
  | none => trivial
  | some stages =>
    refine readsGranted_foldlM (fun current stage member => ?_) docs
    obtain ⟨v, inside, made⟩ := mem_of_mapM_some built member
    exact readsGranted_process fuel (covers v inside stage made) current

/-- An accepted pipeline without hidden reads: whatever the stages compute, every collection that is
fetched at any depth may be read, and every stage that writes may do to its target what it does. -/
theorem aggregation_granted {engine : Engine} {document : Document} {pipeline : List Value}
    (given : document.get (field "pipeline") = some (.array pipeline))
    (accepted : authorizeAggregationStages privs db document = true)
    (apparent : apparentStages privs db [] pipeline = true) (fuel : Nat) :
    (∀ docs, ReadsGranted privs db (runAggregation engine fuel db pipeline docs)) ∧
      ReadsGranted privs db (aggregateDocuments engine fuel pipeline) ∧
      ∀ stages, pipeline.mapM (newStage engine db) = some stages → ∀ output, .output output ∈ stages →
        ∀ action ∈ output.performs, privs.authorized action (collectionResource output.db output.coll) = true := by
  let bypass := isTrue (document.get (field "bypassDocumentValidation"))
  have granted : ∀ v ∈ pipeline, AllGranted privs (stagePrivileges db bypass v) := by
    intro v member r needed
    rw [authorizeAggregationStages, given, Option.getD_some, pipelineStagePrivileges, stagesPrivileges_eq,
      all_eq_true] at accepted
    exact accepted r (mem_flatMap.mpr ⟨v, member, needed⟩)
  rw [apparentStages_eq, all_eq_true] at apparent
  refine ⟨fun docs => ?_, ?_, fun stages built output member => ?_⟩
  · exact readsGranted_stages (fun v inside stage => covered_of_newStage (granted v inside) (apparent v inside)) docs
  · unfold aggregateDocuments
    split
    next _ _ fields _ =>
      split
      · refine readsGranted_bind (readsGranted_orFail _) fun docs =>
          readsGranted_stages (fun v inside stage built => show Covered privs db bypass stage from ?_) docs
        obtain ⟨d, is, made⟩ := Option.bind_eq_some_iff.mp built
        cases v with
        | document fields =>
          cases is
          exact covered_of_seen (seen_raw (granted _ (.tail _ inside)) (apparent _ (.tail _ inside))) made
        | _ => cases is
      · trivial
    next => trivial
  · obtain ⟨v, inside, made⟩ := mem_of_mapM_some built member
    exact granted_of_output (granted v inside) made

end

/-- The collections that are fetched when every fetch finds nothing. -/
def fetched (r : Reading (List Document)) : List Bytes :=
  (r.run (fun f (seen : List Bytes) => (some [], seen ++ [f.collection])) []).2

def literalValue : Value → Value
  | .document [(key, v)] => if key = literalField then v else .document [(key, v)]
  | v => v

/-- An engine without indexes, whose expressions are literals and whose other stages pass documents on. -/
def plainEngine : Engine where
  indexedField _ _ := false
  evalOperand v _ := some (literalValue v)
  equalityFetchFilter _ _ _ := none
  equalityMatches _ _ _ docs := docs
  leadingMatchEqualityValue _ _ := none
  depth _ := true
  graphFilters _ _ := []
  traverse _ _ docs := some docs
  builds _ := true
  run _ docs := some docs

def aggregateOn (coll : String) (pipeline : List Value) : Document :=
  [(field "aggregate", .string (field coll)), (field "pipeline", .array pipeline), (field "cursor", .document [])]

def stageOf (name : String) (spec : List (String × Value)) : Value :=
  .document [(field name, .document (spec.map fun entry => (field entry.1, entry.2)))]

def named (name : String) : Value := .string (field name)

def graphPipeline : List Value :=
  [stageOf "$graphLookup" [("from", named "salaries"), ("startWith", .null), ("connectFromField", named "a"),
    ("connectToField", named "b"), ("as", named "found"), ("pipeline", .array [stageOf "$documents" []])]]

def facetPipelineOf (inner : List Value) : List Value :=
  [stageOf "$lookup" [("from", named "staff"), ("as", named "found"),
    ("let", .document [(field "f", .document [(literalField, .array inner)])]),
    ("pipeline", .array [.document [(field "$facet", named "$$f")]])]]

def joinSalaries : Value :=
  stageOf "$lookup" [("from", named "salaries"), ("as", named "found"), ("localField", named "a"),
    ("foreignField", named "b")]

def findStaff : PrivilegeSet := [⟨collectionResource (field "hr") (field "staff"), [actionNamed "find"]⟩]

def unionPipeline : List Value :=
  [.document [(field "$unionWith", named "staff")], .document [(field "$out", named "copy")]]

def readStaffWriteCopy : PrivilegeSet :=
  findStaff ++ [⟨collectionResource (field "hr") (field "copy"), [actionNamed "insert", actionNamed "remove"]⟩]

theorem aggregation_granted_union :
    ReadsGranted readStaffWriteCopy (field "hr") (runAggregation plainEngine 1 (field "hr") unionPipeline [[]]) := by
  have given : (aggregateOn "staff" unionPipeline).get (field "pipeline") = some (.array unionPipeline) := rfl
  exact (aggregation_granted given (by decide +kernel) (by decide +kernel) 1).1 _

/-- Both kinds of stages read a collection that nobody asked for. -/
theorem hidden_reads :
    (authorizeAggregationStages [] (field "hr") (aggregateOn "staff" graphPipeline) = true ∧
      fetched (runAggregation plainEngine 1 (field "hr") graphPipeline [[]]) = [field "salaries"] ∧
      mayFind [] (field "hr") (field "salaries") = false) ∧
    authorizeAggregationStages findStaff (field "hr") (aggregateOn "staff" (facetPipelineOf [joinSalaries])) = true ∧
      fetched (runAggregation plainEngine 3 (field "hr") (facetPipelineOf [joinSalaries]) [[]])
        = [field "staff", field "salaries"] ∧
      mayFind findStaff (field "hr") (field "salaries") = false := by
  decide +kernel

end DumboDB.Handler
