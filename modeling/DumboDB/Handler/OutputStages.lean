import DumboDB.Authz.Model
import DumboDB.Handler.Message

/-!
The stages of an aggregation that write: `$out` replaces a collection and `$merge` changes one. The
constructors read the target, and the authorization reads it again on its own.
-/

namespace DumboDB.Handler

open Foundation ByteOrder DumboDB.Types Authz Option

def nonEmptyString : Value → Option Bytes
  | .string s => if s = [] then none else some s
  | _ => none

/-- A target as both constructors read it: a collection's name, or a document with `coll` and perhaps `db`. -/
def outputTarget (sourceDB : Bytes) : Value → Option (Bytes × Bytes)
  | .string coll => if coll = [] then none else some (sourceDB, coll)
  | .document d =>
    match Document.get d (field "db"), Document.get d (field "coll") with
    | none, some coll => (nonEmptyString coll).map fun coll => (sourceDB, coll)
    | some db, some coll => (nonEmptyString db).bind fun db => (nonEmptyString coll).map fun coll => (db, coll)
    | _, none => none
  | _ => none

inductive WhenMatched where
  | merge
  | replace
  | keepExisting
  | fail
deriving DecidableEq

inductive WhenNotMatched where
  | insert
  | discard
  | fail
deriving DecidableEq

def whenMatchedNamed (name : Bytes) : Option WhenMatched :=
  if name = field "merge" then some .merge
  else if name = field "replace" then some .replace
  else if name = field "keepExisting" then some .keepExisting
  else if name = field "fail" then some .fail
  else none

def whenNotMatchedNamed (name : Bytes) : Option WhenNotMatched :=
  if name = field "insert" then some .insert
  else if name = field "discard" then some .discard
  else if name = field "fail" then some .fail
  else none

inductive OutputStage where
  | out (db coll : Bytes)
  | merge (db coll : Bytes) (on : List Bytes) (whenMatched : WhenMatched) (whenNotMatched : WhenNotMatched)

def OutputStage.db : OutputStage → Bytes
  | out db _ => db
  | merge db .. => db

def OutputStage.coll : OutputStage → Bytes
  | out _ coll => coll
  | merge _ coll .. => coll

def newOutStage (stage : Document) (sourceDB : Bytes) : Option OutputStage := do
  let spec ← stage.get (field "$out")
  let (db, coll) ← outputTarget sourceDB spec
  return .out db coll

def parseMergeOn (spec : Document) : Option (List Bytes) :=
  match spec.get (field "on") with
  | none => some [field "_id"]
  | some (.array names) => do
    let fields ← names.mapM nonEmptyString
    if fields = [] then none else some fields
  | some v => (nonEmptyString v).map fun name => [name]

/-- An optional field whose value is one of a table's names. -/
def parseChoice {α : Type} (table : Bytes → Option α) (default_ : α) (spec : Document) (key : String) : Option α :=
  match spec.get (field key) with
  | none => some default_
  | some (.string name) => table name
  | some _ => none

def parseMergeWhenMatched (spec : Document) : Option WhenMatched :=
  parseChoice whenMatchedNamed .merge spec "whenMatched"

def parseMergeWhenNotMatched (spec : Document) : Option WhenNotMatched :=
  parseChoice whenNotMatchedNamed .insert spec "whenNotMatched"

def newMergeStage (stage : Document) (sourceDB : Bytes) : Option OutputStage :=
  match stage.get (field "$merge") with
  | some (.string coll) => if coll = [] then none else some (.merge sourceDB coll [field "_id"] .merge .insert)
  | some (.document spec) => do
    let into ← Document.get spec (field "into")
    let (db, coll) ← outputTarget sourceDB into
    let on ← parseMergeOn spec
    let whenMatched ← parseMergeWhenMatched spec
    let whenNotMatched ← parseMergeWhenNotMatched spec
    return .merge db coll on whenMatched whenNotMatched
  | _ => none

def OutputStage.performs : OutputStage → List Action
  | out .. => [actionNamed "insert", actionNamed "remove"]
  | merge _ _ _ whenMatched whenNotMatched =>
    (if whenNotMatched = .insert then [actionNamed "insert"] else []) ++
      if whenMatched = .merge ∨ whenMatched = .replace then [actionNamed "update"] else []

/-- `stageTarget`, which takes what the constructors refuse. -/
def stageTarget (spec : Value) (dbField : Option String) (defaultDB : Bytes) : Bytes × Bytes :=
  match spec with
  | .string coll => (defaultDB, coll)
  | .document d =>
    let db :=
      match dbField.bind fun name => Document.get d (field name) with
      | some (.string name) => name
      | _ => defaultDB
    (db, stringOf (Document.get d (field "coll")))
  | _ => (defaultDB, [])

theorem eq_string_of_nonEmptyString {v : Value} {s : Bytes} (read : nonEmptyString v = some s) : v = .string s := by
  unfold nonEmptyString at read
  split at read
  · split at read
    · cases read
    · cases read
      rfl
  · cases read

theorem stageTarget_of_outputTarget {sourceDB db coll : Bytes} {spec : Value}
    (taken : outputTarget sourceDB spec = some (db, coll)) : stageTarget spec (some "db") sourceDB = (db, coll) := by
  cases spec with
  | string name =>
    simp only [outputTarget] at taken
    split at taken
    · cases taken
    · cases taken
      rfl
  | document d =>
    simp only [outputTarget] at taken
    simp only [stageTarget, bind_some]
    split at taken
    next no found =>
      obtain ⟨name, read, same⟩ := map_eq_some_iff.mp taken
      cases same
      rw [found, eq_string_of_nonEmptyString read, no]
      rfl
    next given found =>
      obtain ⟨_, readDB, rest⟩ := bind_eq_some_iff.mp taken
      obtain ⟨name, read, same⟩ := map_eq_some_iff.mp rest
      cases same
      rw [found, eq_string_of_nonEmptyString read, given, eq_string_of_nonEmptyString readDB]
      rfl
    · cases taken
  | _ => cases taken

end DumboDB.Handler
