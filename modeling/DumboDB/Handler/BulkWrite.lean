import DumboDB.Authz.Model
import DumboDB.Backends.DbName
import DumboDB.Handler.Conditions
import DumboDB.Index.KeyString

/-!
The `bulkWrite` command: its authorization and its execution read the same batch by two loops. An
op that is a document and names no kind or no namespace ends the first loop, with everything behind
it unchecked; the second one records an error and, unless the batch is ordered, goes on.
-/

namespace DumboDB.Handler

open Foundation ByteOrder DumboDB.Types Authz Backends Index List

inductive OpKind where
  | insert
  | update
  | delete
deriving DecidableEq

/-- The first of the three fields that an op has, with its index into the namespaces. -/
def opKind (op : Document) : Option (OpKind × Value) :=
  match op.get (ascii "insert".toList) with
  | some index => some (.insert, index)
  | none =>
    match op.get (ascii "update".toList) with
    | some index => some (.update, index)
    | none => (op.get (ascii "delete".toList)).map fun index => (.delete, index)

/-- `flagRequested`: every form that is read as true, and every malformed one. -/
def flagRequested (document : Document) (key : String) : Bool :=
  match document.get (ascii key.toList) with
  | none => false
  | some (.double f) => f.isNaN || f.units ≠ 0
  | some (.bool b) => b
  | some .null => false
  | some (.int32 n) => n ≠ 0
  | some (.int64 n) => n ≠ 0
  | some _ => true

/-- A flag as the handler reads it: `true` and nothing else. -/
def flagSet (document : Document) (key : String) : Bool :=
  match document.get (ascii key.toList) with
  | some (.bool b) => b
  | _ => false

def kindAction : OpKind → Action
  | .insert => actionNamed "insert"
  | .update => actionNamed "update"
  | .delete => actionNamed "remove"

def opActions (kind : OpKind) (upsert bypass : Bool) : List Action :=
  kindAction kind :: ((if kind = .update ∧ upsert then [actionNamed "insert"] else []) ++
    if bypass then [actionNamed "bypassDocumentValidation"] else [])

variable {document : Document} {action : Action} {kind : OpKind} {ns : Resource} {v : Value}

theorem flagRequested_of_set {key : String} (set : flagSet document key = true) :
    flagRequested document key = true := by
  unfold flagSet at set
  unfold flagRequested
  split at set
  next b found =>
    rw [found]
    exact set
  next => cases set

theorem opActions_subset {upsert upsert' bypass bypass' : Bool} (more : upsert = true → upsert' = true)
    (wider : bypass = true → bypass' = true) (listed : action ∈ opActions kind upsert bypass) :
    action ∈ opActions kind upsert' bypass' := by
  cases upsert <;> cases bypass <;> simp_all [opActions]
  all_goals tauto

/-- The namespaces as the authorization reads them: what stands before and behind the first dot. -/
def cutNamespace (v : Value) : Option Resource :=
  match v with
  | .document d =>
    match Document.get d (ascii "ns".toList) with
    | some (.string ns) =>
      let db := ns.takeWhile fun b => b ≠ 46
      if db.length = ns.length then none else some (collectionResource db (ns.drop (db.length + 1)))
    | _ => none
  | _ => none

/-- The handler refuses names without a database or a collection, and the admin database. -/
def bulkWriteNS (v : Value) : Option Resource := do
  let ns ← cutNamespace v
  if ns.db = [] ∨ ns.collection = [] ∨ (splitEncodedDBName ns.db).1 = admin then none else some ns

/-- A namespace that the handler takes: one collection of one database. -/
structure PlainNS (ns : Resource) : Prop where
  single : ns.anyResource = false ∧ ns.cluster = false
  named : ns.db ≠ [] ∧ ns.collection ≠ []

theorem plainNS_of_bulkWriteNS (taken : bulkWriteNS v = some ns) : cutNamespace v = some ns ∧ PlainNS ns := by
  obtain ⟨_, found, rest⟩ := Option.bind_eq_some_iff.mp taken
  split at rest
  · cases rest
  next fine =>
    cases rest
    simp only [not_or] at fine
    refine ⟨found, ?_, fine.1, fine.2.1⟩
    unfold cutNamespace at found
    split at found
    · split at found
      · dsimp only at found
        split at found
        · cases found
        · cases found
          exact ⟨rfl, rfl⟩
      · cases found
    · cases found

theorem namespaces_agree {nsInfo : List Value} {namespaces : List Resource}
    (taken : nsInfo.mapM bulkWriteNS = some namespaces) :
    nsInfo.mapM cutNamespace = some namespaces ∧ ∀ ns ∈ namespaces, PlainNS ns := by
  induction nsInfo generalizing namespaces with
  | nil =>
    cases taken
    exact ⟨rfl, nofun⟩
  | cons v nsInfo ih =>
    rw [mapM_cons] at taken ⊢
    obtain ⟨ns, here, rest⟩ := Option.bind_eq_some_iff.mp taken
    obtain ⟨_, there, done⟩ := Option.bind_eq_some_iff.mp rest
    cases done
    obtain ⟨cut, plain⟩ := plainNS_of_bulkWriteNS here
    obtain ⟨same, all⟩ := ih there
    rw [cut, same]
    exact ⟨rfl, forall_mem_cons.mpr ⟨plain, all⟩⟩

theorem anyAction_notMem_opActions (kind : OpKind) (upsert bypass : Bool) :
    anyAction ∉ opActions kind upsert bypass := by
  cases kind <;> cases upsert <;> cases bypass <;> decide

/-- The privileges that allow what is listed and nothing more. -/
def exactly (pairs : List (Action × Resource)) : PrivilegeSet := pairs.map fun pair => ⟨pair.2, [pair.1]⟩

theorem PlainNS.covers_iff {r : Resource} (plain : PlainNS r) (other : PlainNS ns) : r.covers ns = true ↔ r = ns := by
  obtain ⟨db, _, _, _⟩ := r
  obtain ⟨db', _, _, _⟩ := ns
  obtain ⟨⟨rfl, rfl⟩, named, full⟩ := plain
  obtain ⟨⟨rfl, rfl⟩, -, -⟩ := other
  simp only [Resource.covers, Bool.false_eq_true, if_false, ne_eq, full, not_false_eq_true, if_true, named, true_and]
  by_cases same : db = db'
  · simp [same]
  · simp [same]

theorem authorized_exactly_iff {pairs : List (Action × Resource)}
    (plain : ∀ pair ∈ pairs, PlainNS pair.2 ∧ pair.1 ≠ anyAction) (other : PlainNS ns) :
    (exactly pairs).authorized action ns = true ↔ (action, ns) ∈ pairs := by
  simp only [exactly, PrivilegeSet.authorized, any_map, any_eq_true, Function.comp_apply, Privilege.allows,
    Bool.and_eq_true, any_cons, any_nil, Bool.or_false, decide_eq_true_eq]
  constructor
  · rintro ⟨pair, listed, covered, same | any⟩
    · have target := ((plain pair listed).1.covers_iff other).mp covered
      rw [← same, ← target]
      exact listed
    · exact absurd any (plain pair listed).2
  · exact fun listed => ⟨(action, ns), listed, (other.covers_iff other).mpr rfl, .inl rfl⟩

theorem split_first {α : Type} {P : α → Prop} {list : List α} {a : α} (member : a ∈ list) (kind : P a) :
    ∃ before b behind, list = before ++ b :: behind ∧ (∀ c ∈ before, ¬P c) ∧ P b := by
  classical
  have some_ : (list.find? (P ·)).isSome := find?_isSome.mpr ⟨a, member, decide_eq_true kind⟩
  obtain ⟨b, first⟩ := Option.isSome_iff_exists.mp some_
  obtain ⟨found, before, behind, rfl, none_⟩ := find?_eq_some_iff_append.mp first
  exact ⟨before, b, behind, rfl, by simpa using none_, of_decide_eq_true found⟩

section
variable [Platform]

/-- `getInt64Value`; the conversion of a NaN is the processor's. -/
def getInt64Value : Value → Option Int64
  | .int32 n => some n.toInt64
  | .int64 n => some n
  | .double f =>
    if f.isNaN then
      match Platform.arch with
      | .amd64 => some Int64.minValue
      | .arm64 => some 0
    else some (toInt64 f)
  | _ => none

/-- The kind and the namespace of an op, when it names both. -/
def opTarget (namespaces : List Resource) (op : Document) : Option (OpKind × Resource) :=
  match opKind op with
  | none => none
  | some (kind, index) =>
    match getInt64Value index with
    | none => none
    | some n => if n < 0 then none else (namespaces[n.toInt.toNat]?).map fun ns => (kind, ns)

/-- The loop over the ops, up to the first one that it cannot read. -/
def authorizeOps (privs : PrivilegeSet) (bypass : Bool) (namespaces : List Resource) : List Value → Bool
  | [] => true
  | .document op :: rest =>
    match opTarget namespaces op with
    | none => true
    | some (kind, ns) =>
      (opActions kind (flagRequested op "upsert") bypass).all (fun action => privs.authorized action ns) &&
        authorizeOps privs bypass namespaces rest
  | _ :: _ => true

def authorizeBulkWrite (privs : PrivilegeSet) (document : Document) : Bool :=
  match document.get (ascii "nsInfo".toList), document.get (ascii "ops".toList) with
  | some (.array nsInfo), some (.array ops) =>
    match nsInfo.mapM cutNamespace with
    | none => true
    | some namespaces => authorizeOps privs (flagRequested document "bypassDocumentValidation") namespaces ops
  | _, _ => true

def pipelineParses : Value → Bool
  | .document op =>
    match Document.get op (ascii "updateMods".toList) with
    | some (.array pipeline) => pipeline.all isDocument
    | _ => true
  | _ => true

structure BulkWrite where
  kind : OpKind
  ns : Resource
  upsert : Bool
  bypass : Bool
deriving DecidableEq

/-- What storage does with the op at a position: whether the write is reached, and whether the op fails. -/
structure Storage where
  reaches : Nat → Bool
  fails : Nat → Bool

variable (accepts : Document → Bool)

/-- The loop over the ops; `accepts` stands for the checks of an op's own content. -/
def execOps (storage : Storage) (ordered bypass : Bool) (namespaces : List Resource) :
    Nat → List Value → List BulkWrite
  | _, [] => []
  | i, .document op :: rest =>
    match opTarget namespaces op with
    | none => if ordered then [] else execOps storage ordered bypass namespaces (i + 1) rest
    | some (kind, ns) =>
      (if accepts op && storage.reaches i then [⟨kind, ns, flagSet op "upsert", bypass⟩] else []) ++
        if ordered && (!accepts op || storage.fails i) then []
        else execOps storage ordered bypass namespaces (i + 1) rest
  | _, _ :: _ => []

def orderedBatch (document : Document) : Bool :=
  match document.get (ascii "ordered".toList) with
  | some (.bool b) => b
  | _ => true

def protocolEnvelopeFields : List Bytes :=
  ["$db", "lsid", "txnNumber", "autocommit", "startTransaction", "$readPreference", "$clusterTime",
    "apiVersion", "apiStrict",
    "apiDeprecationErrors", "comment", "maxTimeMS", "writeConcern", "readConcern", "$audit", "$client",
    "$configServerState"].map fun name => ascii name.toList

/-- `RejectUnknownFields`: every field but the first, the command's own, is one that is known. -/
def knownFields (document : Document) (allowed : List String) : Bool :=
  (document.drop 1).all fun entry =>
    entry.1 ∈ (document.head?.map Prod.fst).toList ++ allowed.map
      (fun name => ascii name.toList) ++ protocolEnvelopeFields

def bulkWriteFields : List String := ["ops", "nsInfo", "ordered", "bypassDocumentValidation",
    "errorsOnly", "let", "cursor"]

/-- The namespaces and ops of a command that the handler gets to run. -/
def bulkWriteBatch (document : Document) : Option (List Resource × List Value) :=
  match document.get (ascii "$db".toList), document.get (ascii "nsInfo".toList),
    document.get (ascii "ops".toList) with
  | some (.string db), some (.array nsInfo), some (.array ops) =>
    if !knownFields document bulkWriteFields || db ≠ admin then none
    else
      match nsInfo.mapM bulkWriteNS with
      | none => none
      | some namespaces => if ops.all pipelineParses then some (namespaces, ops) else none
  | _, _, _ => none

def msgBulkWrite (storage : Storage) (document : Document) : List BulkWrite :=
  match bulkWriteBatch document with
  | none => []
  | some (namespaces, ops) => execOps accepts storage (orderedBatch document)
      (flagSet document "bypassDocumentValidation") namespaces 0 ops

def BulkWriteSound (document : Document) : Prop :=
  ∀ privs storage, authorizeBulkWrite privs document = true → ∀ w ∈ msgBulkWrite accepts storage document,
    ∀ action ∈ opActions w.kind w.upsert w.bypass, privs.authorized action w.ns = true

def asked (bypass : Bool) (namespaces : List Resource) : List Value → List (Action × Resource)
  | [] => []
  | .document op :: rest =>
    match opTarget namespaces op with
    | none => []
    | some (kind, ns) =>
      (opActions kind (flagRequested op "upsert") bypass).map (fun action => (action,
        ns)) ++ asked bypass namespaces rest
  | _ :: _ => []

/-- An op that is a document without a kind or a namespace. -/
def Untargeted (namespaces : List Resource) (v : Value) : Prop := ∃ op, v = .document op ∧
    opTarget namespaces op = none

/-- The batch is ordered, or whatever the ops behind the first untargeted one need was asked for before it. -/
def AskedBefore (document : Document) : Prop :=
  ∀ namespaces ops, bulkWriteBatch document = some (namespaces, ops) → orderedBatch document = true ∨
    ∀ before v behind after op kind ns, ops = before ++ v :: behind ++ .document op :: after →
      (∀ u ∈ before, ¬Untargeted namespaces u) → Untargeted namespaces v →
        (∀ u ∈ before ++ behind, isDocument u = true) →
      accepts op = true → opTarget namespaces op = some (kind, ns) →
      ∀ action ∈ opActions kind (flagSet op "upsert") (flagSet document "bypassDocumentValidation"),
        (action, ns) ∈ asked (flagRequested document "bypassDocumentValidation") namespaces before

variable {accepts} {privs : PrivilegeSet} {bypass : Bool} {namespaces : List Resource}

variable {ops : List Value} {op : Document} {before rest : List Value} {i : Nat}

theorem authorizeOps_iff : authorizeOps privs bypass namespaces ops = true ↔
    ∀ pair ∈ asked bypass namespaces ops, privs.authorized pair.1 pair.2 = true := by
  induction ops with
  | nil => simp [authorizeOps, asked]
  | cons v ops ih =>
    cases v with
    | document _ =>
      unfold authorizeOps asked
      split
      · simp
      next _ _ _ =>
        rw [Bool.and_eq_true, ih, forall_mem_append, all_eq_true, forall_mem_map]
    | _ => simp [authorizeOps, asked]

theorem asked_targeted (rest : List Value)
    (target : opTarget namespaces op = some (kind, ns)) : asked bypass namespaces (.document op :: rest) =
      (opActions kind (flagRequested op "upsert") bypass).map (fun action => (action,
        ns)) ++ asked bypass namespaces rest := by
  rw [asked, target]

theorem asked_append (documents : ∀ u ∈ before, isDocument u = true) (calm : ∀ u ∈ before, ¬Untargeted namespaces u) :
    asked bypass namespaces (before ++ rest) = asked bypass namespaces before ++ asked bypass namespaces rest := by
  induction before with
  | nil => rfl
  | cons v before ih =>
    obtain ⟨document, others⟩ := forall_mem_cons.mp documents
    obtain ⟨targeted, later⟩ := forall_mem_cons.mp calm
    cases v with
    | document op =>
      cases target : opTarget namespaces op with
      | none => exact absurd ⟨op, rfl, target⟩ targeted
      | some _ =>
        rw [cons_append, asked_targeted _ target, asked_targeted _ target, ih others later, append_assoc]
    | _ => cases document

theorem asked_untargeted (untargeted : Untargeted namespaces v) : asked bypass namespaces (v :: rest) = [] := by
  obtain ⟨_, rfl, none_⟩ := untargeted
  unfold asked
  rw [none_]

/-- A write's op: it has the write's target and stands behind documents, none of them untargeted in an ordered batch. -/
structure OpOf (accepts : Document → Bool) (ordered : Bool) (namespaces : List Resource) (w : BulkWrite)
    (before : List Value) (op : Document) : Prop where
  target : opTarget namespaces op = some (w.kind, w.ns)
  accepted : accepts op = true
  upsert : w.upsert = flagSet op "upsert"
  documents : ∀ u ∈ before, isDocument u = true
  calm : ordered = true → ∀ u ∈ before, ¬Untargeted namespaces u

theorem exists_of_mem_execOps {storage : Storage} {ordered : Bool} {w : BulkWrite}
    (reached : w ∈ execOps accepts storage ordered bypass namespaces i ops) :
    w.bypass = bypass ∧ ∃ before op after, ops = before ++ .document op :: after ∧
      OpOf accepts ordered namespaces w before op := by
  induction ops generalizing i with
  | nil => cases reached
  | cons v ops ih =>
    cases v with
    | document op =>
      have later (rest : w ∈ execOps accepts storage ordered bypass namespaces (i + 1) ops)
          (targeted : ordered = true → ¬Untargeted namespaces (.document op)) :
          w.bypass = bypass ∧ ∃ before op' after, .document op :: ops = before ++ .document op' :: after ∧
            OpOf accepts ordered namespaces w before op' := by
        obtain ⟨same, before, op', after, rfl, found⟩ := ih rest
        refine ⟨same, .document op :: before, op', after, rfl, found.target, found.accepted, found.upsert, ?_, ?_⟩
        · exact forall_mem_cons.mpr ⟨rfl, found.documents⟩
        · exact fun held => forall_mem_cons.mpr ⟨targeted held, found.calm held⟩
      unfold execOps at reached
      split at reached
      · split at reached
        · cases reached
        next unordered => exact later reached fun held => absurd held unordered
      next _ _ target =>
        have targeted : ¬Untargeted namespaces (.document op) := by
          rintro ⟨op', same, none_⟩
          cases same
          exact nomatch target.symm.trans none_
        rcases mem_append.mp reached with here | rest
        · split at here
          next both =>
            cases mem_singleton.mp here
            exact ⟨rfl, [], op, ops, rfl, target, (Bool.and_eq_true_iff.mp both).1, rfl, nofun, fun _ => nofun⟩
          next => cases here
        · split at rest
          · cases rest
          · exact later rest fun _ => targeted
    | _ => cases reached

theorem mem_execOps {after : List Value}
    (documents : ∀ u ∈ before, isDocument u = true) (target : opTarget namespaces op = some (kind, ns))
    (accepted : accepts op = true) : ⟨kind, ns, flagSet op "upsert", bypass⟩ ∈
      execOps accepts ⟨fun _ => true, fun _ => false⟩ false bypass namespaces i
        (before ++ .document op :: after) := by
  induction before generalizing i with
  | nil =>
    rw [nil_append]
    unfold execOps
    rw [target]
    simp [accepted]
  | cons v before ih =>
    obtain ⟨document, later⟩ := forall_mem_cons.mp documents
    cases v with
    | document _ =>
      rw [cons_append]
      unfold execOps
      split
      · exact ih later
      · refine mem_append_right _ ?_
        exact ih later
    | _ => cases document

theorem mem_of_opTarget (target : opTarget namespaces op = some (kind, ns)) : ns ∈ namespaces := by
  unfold opTarget at target
  split at target
  · cases target
  · split at target
    · cases target
    · split at target
      · cases target
      · obtain ⟨_, listed, same⟩ := Option.map_eq_some_iff.mp target
        cases same
        exact mem_of_getElem? listed

theorem asked_plain {pair : Action × Resource} (listed : pair ∈ asked bypass namespaces ops) :
    pair.2 ∈ namespaces ∧ pair.1 ≠ anyAction := by
  induction ops with
  | nil => cases listed
  | cons v ops ih =>
    cases v with
    | document op =>
      cases target : opTarget namespaces op with
      | none => exact nomatch (asked_untargeted ⟨op, rfl, target⟩ ▸ listed : pair ∈ [])
      | some _ =>
        rw [asked_targeted _ target] at listed
        rcases mem_append.mp listed with here | later
        · obtain ⟨action, inside, rfl⟩ := mem_map.mp here
          have same : action ≠ anyAction := by
            rintro rfl
            exact anyAction_notMem_opActions _ _ _ inside
          exact ⟨mem_of_opTarget target, same⟩
        · exact ih later
    | _ => cases listed

theorem authorize_of_batch (runs : bulkWriteBatch document = some (namespaces, ops)) :
    (∀ ns ∈ namespaces, PlainNS ns) ∧
      ∀ privs, authorizeBulkWrite privs document = true ↔
        ∀ pair ∈ asked (flagRequested document "bypassDocumentValidation") namespaces ops,
          privs.authorized pair.1 pair.2 = true := by
  unfold bulkWriteBatch at runs
  split at runs
  next _ _ _ _ infos found =>
    split at runs
    · cases runs
    · split at runs
      · cases runs
      next _ taken =>
        split at runs
        · cases runs
          obtain ⟨same, plain⟩ := namespaces_agree taken
          refine ⟨plain, fun privs => ?_⟩
          unfold authorizeBulkWrite
          rw [infos, found]
          dsimp only
          rw [same]
          exact authorizeOps_iff
        · cases runs
  · cases runs

/-- A bulk write performs no write that its caller's privileges do not allow, whatever these are, exactly
when it is ordered or the ops behind an untargeted one need nothing that was not asked for before it. -/
theorem bulkWrite_sound_iff (accepts : Document → Bool) (document : Document) :
    BulkWriteSound accepts document ↔ AskedBefore accepts document := by
  constructor
  · intro sound namespaces ops runs
    obtain ⟨plain, authorized⟩ := authorize_of_batch runs
    refine or_iff_not_imp_left.mpr fun unordered => ?_
    have unordered : orderedBatch document = false := by simpa using unordered
    generalize flagRequested document "bypassDocumentValidation" = bypass at authorized ⊢
    intro before v behind after op kind ns split calm untargeted documents accepted target action listed
    obtain ⟨early, late⟩ := forall_mem_append.mp documents
    have askedFirst : asked bypass namespaces ops = asked bypass namespaces before := by
      rw [split, append_assoc, asked_append early calm, cons_append, asked_untargeted untargeted, append_nil]
    have exact_ : ∀ pair ∈ asked bypass namespaces before, PlainNS pair.2 ∧ pair.1 ≠ anyAction := fun pair member =>
      ⟨plain _ (asked_plain member).1, (asked_plain member).2⟩
    -- the caller may do what is asked for before the untargeted op, and nothing more
    have granted : authorizeBulkWrite (exactly (asked bypass namespaces before)) document = true := by
      rw [authorized, askedFirst]
      exact fun pair member => (authorized_exactly_iff exact_ (exact_ pair member).1).mpr member
    have reached : ⟨kind, ns, flagSet op "upsert", flagSet document "bypassDocumentValidation"⟩ ∈
        msgBulkWrite accepts ⟨fun _ => true, fun _ => false⟩ document := by
      unfold msgBulkWrite
      rw [runs, unordered, split]
      refine mem_execOps (forall_mem_append.mpr ⟨early, forall_mem_cons.mpr ⟨?_, late⟩⟩) target accepted
      obtain ⟨_, rfl, -⟩ := untargeted
      rfl
    have allowed := sound _ _ granted _ reached action listed
    exact (authorized_exactly_iff exact_ (plain ns (mem_of_opTarget target))).mp allowed
  · intro met privs _ granted w reached action listed
    unfold msgBulkWrite at reached
    split at reached
    · cases reached
    next namespaces ops runs =>
      obtain ⟨plain, authorized⟩ := authorize_of_batch runs
      have allowed := (authorized privs).mp granted
      obtain ⟨bypass, before, op, after, split, found⟩ := exists_of_mem_execOps reached
      rw [bypass, found.upsert] at listed
      by_cases some_ : ∃ u ∈ before, Untargeted namespaces u
      · obtain ⟨u, member, untargeted⟩ := some_
        obtain ⟨first, v, behind, rfl, calm, untargeted⟩ := split_first member untargeted
        rcases met namespaces ops runs with ordered | later
        · exact absurd untargeted (found.calm ordered v (mem_append_right _ (.head _)))
        · obtain ⟨early, late⟩ := forall_mem_append.mp found.documents
          have known := later first v behind after op w.kind w.ns split calm untargeted
            (forall_mem_append.mpr ⟨early, (forall_mem_cons.mp late).2⟩) found.accepted found.target action listed
          refine allowed (action, w.ns) ?_
          rw [split, append_assoc, asked_append early calm]
          exact mem_append_left _ known
      · refine allowed (action, w.ns) ?_
        rw [split, asked_append found.documents fun u inside untargeted => some_ ⟨u, inside, untargeted⟩,
          asked_targeted _ found.target]
        refine mem_append_right _ (mem_append_left _ (mem_map.mpr ⟨action, ?_, rfl⟩))
        exact opActions_subset flagRequested_of_set flagRequested_of_set listed

end

/-- An unordered batch whose first op is an empty document and whose second one inserts. -/
def emptyThenInsert : Document :=
  let key (name : String) : Bytes := ascii name.toList
  [(key "bulkWrite", .int32 1), (key "$db", .string admin), (key "ordered", .bool false),
    (key "nsInfo", .array [.document [(key "ns", .string (key "hr.salaries"))]]),
    (key "ops", .array [.document [], .document [(key "insert", .int32 0), (key "document", .document [])]])]

theorem unauthorized_insert : ¬@BulkWriteSound ⟨.amd64, fun _ => 0⟩ (fun _ => true) emptyThenInsert := by
  let _ : Platform := ⟨.amd64, fun _ => 0⟩
  intro sound
  have granted : authorizeBulkWrite [] emptyThenInsert = true := by decide +kernel
  have reached : ⟨.insert, collectionResource (ascii "hr".toList) (ascii "salaries".toList), false, false⟩ ∈
      msgBulkWrite (fun _ => true) ⟨fun _ => true, fun _ => false⟩ emptyThenInsert := by decide +kernel
  exact absurd (sound [] _ granted _ reached _ (.head _)) (by decide)

end DumboDB.Handler
