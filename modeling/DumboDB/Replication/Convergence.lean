import DumboDB.Replication.CatchUp
import DumboDB.Replication.DiffImage

/-!
The inserts, updates and deletes of the oplog on the documents of a collection, and what one entry
that is accepted leaves of the source's document.
-/

namespace DumboDB.Replication
open Foundation ByteOrder Fallible DumboDB.Types Handler Function List Option

inductive CrudOperation where
  | insert (document : Document)
  | update (update : Document) (criteria : Option Document)
  | delete (documentKey : Document)
  | noop

structure CrudEntry where
  OpTime : OpTime
  RawBSON : Bytes
  operation : CrudOperation

inductive CrudError where
  | noDocumentID
  | noDocumentKey
  | insertConflicts
  | targetMissing
  | unsupportedUpdate
  | invalidDiff
  | postImageID
  deriving DecidableEq, Repr

/-- The documents of a collection under their `_id`, where `keyOf` takes ids that compare equal to one key. -/
abbrev Collection (Key : Type) : Type := Key → Option Document

variable {Key : Type} [DecidableEq Key] (keyOf : Value → Key)

def entryInteger : Value → Option Int
  | .int32 n => some n.toInt
  | .int64 n => some n.toInt
  | _ => none

/-- The document that an update writes, before its `_id` is checked. -/
def postImageOf (existing update : Document) : Except CrudError Document :=
  match update.get (field "$v") with
  | none => .ok update
  | some version =>
    if entryInteger version ≠ some 2 then .error .unsupportedUpdate
    else match update.get (field "diff") with
      | some (.document diff) =>
        match ApplyV2Diff existing diff with
        | some postImage => .ok postImage
        | none => .error .invalidDiff
      | _ => .error .unsupportedUpdate

def updatedDocument (existing update : Document) (criteria : Option Document) : Except CrudError Document :=
  match criteria.bind (Document.get · (field "_id")) with
  | none => .error .noDocumentKey
  | some id => do
    let postImage ← postImageOf existing update
    match postImage.get (field "_id") with
    | none => .error .postImageID
    | some postID => if keyOf id = keyOf postID then .ok postImage else .error .postImageID

/-- `types.Compare` finds no difference. -/
def Alike (a b : Document) : Prop := Compare (.document a) (.document b) = .eq

instance (a b : Document) : Decidable (Alike a b) := inferInstanceAs (Decidable (_ = _))

def applyInsert (c : Collection Key) (document : Document) : Except CrudError (Collection Key) :=
  match document.get (field "_id") with
  | none => .error .noDocumentID
  | some id =>
    match c (keyOf id) with
    | some existing => if Alike existing document then .ok c else .error .insertConflicts
    | none => .ok (Function.update c (keyOf id) (some document))

def applyUpdate (c : Collection Key) (update : Document) (criteria : Option Document) :
    Except CrudError (Collection Key) :=
  match criteria.bind (Document.get · (field "_id")) with
  | none => .error .noDocumentKey
  | some id =>
    match c (keyOf id) with
    | none => .error .targetMissing
    | some existing => do
      let postImage ← updatedDocument keyOf existing update criteria
      if Alike existing postImage then .ok c else .ok (Function.update c (keyOf id) (some postImage))

def applyDelete (c : Collection Key) (documentKey : Document) : Except CrudError (Collection Key) :=
  match documentKey.get (field "_id") with
  | none => .error .noDocumentKey
  | some id =>
    match c (keyOf id) with
    | none => .ok c
    | some _ => .ok (Function.update c (keyOf id) none)

def applyCrud (c : Collection Key) (e : CrudEntry) : Except CrudError (Collection Key) :=
  match e.operation with
  | .insert document => applyInsert keyOf c document
  | .update update criteria => applyUpdate keyOf c update criteria
  | .delete documentKey => applyDelete keyOf c documentKey
  | .noop => .ok c

/-! One document: its entries concern no other. -/

def target : CrudOperation → Option Key
  | .insert document => (document.get (field "_id")).map keyOf
  | .update _ criteria => (criteria.bind (Document.get · (field "_id"))).map keyOf
  | .delete documentKey => (documentKey.get (field "_id")).map keyOf
  | .noop => none

/-- An operation that names a document, on that document. -/
def replayOn (d : Option Document) : CrudOperation → Except CrudError (Option Document)
  | .insert document =>
    match d with
    | some existing => if Alike existing document then .ok d else .error .insertConflicts
    | none => .ok (some document)
  | .update update criteria =>
    match d with
    | none => .error .targetMissing
    | some existing => do
      let postImage ← updatedDocument keyOf existing update criteria
      if Alike existing postImage then .ok d else .ok (some postImage)
  | .delete _ => .ok none
  | .noop => .ok d

theorem applyCrud_of_target {c : Collection Key} {e : CrudEntry} {k : Key}
    (names : target keyOf e.operation = some k) :
    applyCrud keyOf c e = (replayOn keyOf (c k) e.operation).map (update c k) := by
  have same : ∀ d, c k = d → update c k d = c := fun d held => held ▸ update_eq_self k c
  rw [applyCrud]
  cases operation : e.operation with
  | insert _ =>
    rw [operation] at names
    obtain ⟨id, found, rfl⟩ := map_eq_some_iff.mp names
    simp only [applyInsert, found, replayOn]
    cases held : c (keyOf id) with
    | none => rfl
    | some existing =>
      simp only
      split
      · exact congrArg Except.ok (same _ held).symm
      · rfl
  | update update criteria =>
    rw [operation] at names
    obtain ⟨id, found, rfl⟩ := map_eq_some_iff.mp names
    simp only [applyUpdate, found, replayOn]
    cases held : c (keyOf id) with
    | none => rfl
    | some existing =>
      simp only
      cases updatedDocument keyOf existing update criteria with
      | error _ => rfl
      | ok _ =>
        simp only [Bind.bind, Except.bind]
        split
        · exact congrArg Except.ok (same _ held).symm
        · rfl
  | delete _ =>
    rw [operation] at names
    obtain ⟨id, found, rfl⟩ := map_eq_some_iff.mp names
    simp only [applyDelete, found, replayOn]
    cases held : c (keyOf id) with
    | none => exact congrArg Except.ok (same _ held).symm
    | some existing => rfl
  | noop =>
    rw [operation] at names
    cases names

def holding (v : Value) : Document := [(field "_id", .int32 1), (field "a", v)]

def replacing (document : Document) : CrudOperation := .update document (some [(field "_id", .int32 1)])

/-! One accepted entry against the document that the source wrote. -/

/-- Equal in every value and type; the order of the keys is not stored. -/
def SameDocument (a b : Option Document) : Prop := a.map Dolt.canonical = b.map Dolt.canonical

def diffOf (update : Document) : Option Document :=
  match update.get (field "diff") with
  | some (.document diff) => some diff
  | _ => none

/-- The source's document after an update of the one that is stored here: the replacement, or the image
under the diff. -/
def updateImage (existing update : Document) : Option Document :=
  if (update.get (field "$v")).isNone then some update else (diffOf update).map (v2Image · existing)

/-- What an entry says about the document it names. -/
def imageOn (d : Option Document) : CrudOperation → Option (Option Document)
  | .insert document => some (some document)
  | .update update _ => d.bind fun existing => (updateImage existing update).map some
  | .delete _ => some none
  | .noop => some d

structure Carried (c : Collection Key) (e : CrudEntry) (after : Collection Key) : Prop where
  image : ∀ k, target keyOf e.operation = some k →
    ∃ wanted, imageOn (c k) e.operation = some wanted ∧ SameDocument (after k) wanted
  others : ∀ j, target keyOf e.operation ≠ some j → after j = c j

/-- `types.Compare` sees the difference between the stored document and the source's. -/
def Distinguished (c : Collection Key) (e : CrudEntry) : Prop :=
  ∀ k existing wanted, target keyOf e.operation = some k → c k = some existing →
    imageOn (c k) e.operation = some (some wanted) → Alike existing wanted →
      SameDocument (some existing) (some wanted)

/-- Every stored document has distinct keys. -/
def Distinct (c : Collection Key) : Prop :=
  ∀ k document, c k = some document → Dolt.distinctKeys (.document document) = true

theorem updatedDocument_image {existing update postImage : Document} {criteria : Option Document}
    (distinct : Dolt.distinctKeys (.document existing) = true)
    (done : updatedDocument keyOf existing update criteria = .ok postImage) :
    updateImage existing update = some postImage := by
  have written : postImageOf existing update = .ok postImage := by
    rw [updatedDocument] at done
    split at done
    · cases done
    obtain ⟨written, ok, done⟩ := bind_eq_ok.mp done
    split at done
    · cases done
    split at done
    · exact Except.ok.inj done ▸ ok
    · cases done
  rw [postImageOf] at written
  rw [updateImage]
  split at written
  · next plain =>
    cases written
    rw [plain]
    rfl
  next versioned =>
  rw [versioned, Option.isNone_some, if_neg Bool.false_ne_true]
  split at written
  · cases written
  split at written
  · next diff given =>
    have named : diffOf update = some diff := by rw [diffOf, given]
    rw [named]
    split at written
    · next applied =>
      cases written
      exact congrArg some (ApplyV2Diff_image distinct applied).symm
    · cases written
  · cases written

/-- An accepted operation leaves the stored document where that compares equal to the image, and the
image otherwise. -/
theorem replayOn_ok {d after : Option Document} {operation : CrudOperation}
    (distinct : ∀ existing, d = some existing → Dolt.distinctKeys (.document existing) = true)
    (accepted : replayOn keyOf d operation = .ok after) :
    (∃ existing wanted, d = some existing ∧ imageOn d operation = some (some wanted) ∧
      Alike existing wanted ∧ after = d) ∨
      imageOn d operation = some after ∧
        ∀ existing wanted, d = some existing → after = some wanted → Alike existing wanted →
          SameDocument d after := by
  cases operation with
  | delete _ =>
    cases accepted
    exact .inr ⟨rfl, fun _ _ _ gone => nomatch gone⟩
  | noop =>
    cases accepted
    exact .inr ⟨rfl, fun _ _ _ _ _ => rfl⟩
  | insert document =>
    cases d with
    | none =>
      cases accepted
      exact .inr ⟨rfl, fun _ _ absent => nomatch absent⟩
    | some existing =>
      rw [replayOn] at accepted
      split at accepted
      · next alike => exact .inl ⟨existing, document, rfl, rfl, alike, (Except.ok.inj accepted).symm⟩
      · cases accepted
  | update update criteria =>
    cases d with
    | none => cases accepted
    | some existing =>
      obtain ⟨postImage, updated, written⟩ := bind_eq_ok.mp accepted
      have image : imageOn (some existing) (.update update criteria) = some (some postImage) := by
        simp [imageOn, updatedDocument_image keyOf (distinct existing rfl) updated]
      split at written
      · next alike => exact .inl ⟨existing, postImage, rfl, image, alike, (Except.ok.inj written).symm⟩
      · next differs =>
        cases written
        refine .inr ⟨image, fun _ _ same wrote alike => ?_⟩
        cases same
        cases wrote
        exact absurd alike differs

theorem applyCrud_untargeted {c after : Collection Key} {e : CrudEntry} (none_ : target keyOf e.operation = none)
    (accepted : applyCrud keyOf c e = .ok after) : after = c := by
  rw [applyCrud] at accepted
  cases operation : e.operation with
  | noop => exact (Except.ok.inj (operation ▸ accepted)).symm
  | insert _ => simp_all [target, applyInsert]
  | update update _ =>
    rw [operation] at accepted none_
    simp only [applyUpdate, map_eq_none_iff.mp none_] at accepted
    cases accepted
  | delete _ => simp_all [target, applyDelete]

def onlyStored (document : Document) : Collection (Option Int) :=
  Function.update (fun _ => none) (some 1) (some document)

theorem onlyStored_distinct {document : Document} (distinct : Dolt.distinctKeys (.document document) = true) :
    Distinct (onlyStored document) := by
  intro k stored held
  by_cases same : k = some 1
  · rw [same, onlyStored, update_self] at held
    exact Option.some.inj held ▸ distinct
  · rw [onlyStored, update_of_ne same] at held
    cases held

def counted : Document := [(field "_id", .int32 1), (field "n", .int32 1), (field "tags", .array [.int32 1, .int32 2])]

/-- `n` becomes a double, the second tag 9, and `done` is new. -/
def countedUpdate : Document :=
  [(field "$v", .int32 2), (field "diff", .document
    [(field "u", .document [(field "n", .double ⟨0x4000000000000000⟩)]),
     (field "i", .document [(field "done", .bool true)]),
     (field "stags", .document [(field "a", .bool true), (field "u1", .int32 9)])])]

def countedAfter : Document :=
  [(field "_id", .int32 1), (field "n", .double ⟨0x4000000000000000⟩),
   (field "tags", .array [.int32 1, .int32 9]), (field "done", .bool true)]

end DumboDB.Replication
