import DumboDB.Foundation.Transition
import DumboDB.Dolt.IdHash

/-!
The document locks of client transactions: how a transaction takes and releases them, and how an
ordinary write waits for them.
-/

namespace DumboDB.Dolt
open Foundation ByteOrder DumboDB.Types Transition List Std

inductive LockError where
  | missingID
  | emptyOwner
  | writeConflict
deriving DecidableEq

structure LockEntry where
  owner : Bytes
  /-- Set for an update or a delete, which ordinary writes wait for, and not for an insert. -/
  waitable : Bool
deriving DecidableEq

/-- The locks of one branch by collection and document, and the generation of the broadcast that a
waiting write listens to. -/
structure DocLockManager where
  locks : Std.TreeMap Bytes (Std.TreeMap Bytes LockEntry)
  notify : Nat

def NewDocLockManager : DocLockManager := ⟨∅, 0⟩

namespace DocLockManager

def entry (m : DocLockManager) (collection id : Bytes) : Option LockEntry :=
  m.locks[collection]?.bind fun collLocks => collLocks[id]?

def heldByOther (collLocks : Std.TreeMap Bytes LockEntry) (owner id : Bytes) : Bool :=
  match collLocks[id]? with
  | some e => e.owner != owner
  | none => false

/-- All documents are looked at before the first lock is taken. -/
def Acquire (m : DocLockManager) (owner collection : Bytes) (ids : List Bytes) (waitable : Bool) :
    Option LockError × DocLockManager :=
  if owner = [] then (some .emptyOwner, m)
  else
    let collLocks := m.locks[collection]?.getD ∅
    if ids.any (heldByOther collLocks owner) then (some .writeConflict, m)
    else
      let taken := ids.foldl (fun held id => held.insert id ⟨owner, waitable⟩) collLocks
      (none, { m with locks := m.locks.insert collection taken })

def Release (m : DocLockManager) (owner : Bytes) : DocLockManager where
  locks := m.locks.filterMap fun _ collLocks =>
    let kept := collLocks.filter fun _ e => e.owner != owner
    if kept.isEmpty then none else some kept
  notify := m.notify + 1

def anyHeld (m : DocLockManager) (collection : Bytes) (ids : List Bytes) : Bool :=
  match m.locks[collection]? with
  | none => false
  | some collLocks => ids.any fun id =>
    match collLocks[id]? with
    | some e => e.waitable
    | none => false

def Holds (m : DocLockManager) (owner collection id : Bytes) : Bool :=
  match m.entry collection id with
  | some e => e.owner == owner
  | none => false

/-! What the operations do to one lock. -/

theorem entry_eq (m : DocLockManager) (collection id : Bytes) :
    m.entry collection id = (m.locks[collection]?.getD ∅)[id]? := by
  unfold entry
  cases m.locks[collection]? with
  | none => simp
  | some _ => rfl

theorem getElem?_foldl_insert (ids : List Bytes) (e : LockEntry) (held : TreeMap Bytes LockEntry) (id : Bytes) :
    (ids.foldl (fun held id => held.insert id e) held)[id]? = if id ∈ ids then some e else held[id]? := by
  induction ids generalizing held with
  | nil => simp
  | cons first rest ih =>
    rw [foldl_cons, ih, TreeMap.getElem?_insert]
    by_cases later : id ∈ rest
    · simp [later]
    · by_cases here : first = id <;> simp [later, here, Ne.symm]

theorem Acquire_cases (m : DocLockManager) (owner collection : Bytes) (ids : List Bytes) (waitable : Bool) :
    (∃ error, m.Acquire owner collection ids waitable = (some error, m)) ∨
      ∃ after, m.Acquire owner collection ids waitable = (none, after) ∧ after.notify = m.notify ∧
        (∀ id ∈ ids, ∀ e, m.entry collection id = some e → e.owner = owner) ∧ ∀ coll id, after.entry coll id =
            if coll = collection ∧ id ∈ ids then some ⟨owner, waitable⟩ else m.entry coll id := by
  unfold Acquire
  by_cases noOwner : owner = []
  · exact .inl ⟨.emptyOwner, if_pos noOwner⟩
  rw [if_neg noOwner]
  by_cases conflict : ids.any (heldByOther (m.locks[collection]?.getD ∅) owner) = true
  · exact .inl ⟨.writeConflict, if_pos conflict⟩
  rw [if_neg conflict]
  refine .inr ⟨_, rfl, rfl, ?_, ?_⟩
  · intro id member e held
    rw [entry_eq] at held
    simp only [any_eq_true, not_exists, not_and] at conflict
    simpa [heldByOther, held] using conflict id member
  · intro coll id
    rw [entry_eq, TreeMap.getElem?_insert]
    by_cases here : collection = coll
    · subst here
      simp only [Std.compare_self, if_true, Option.getD_some, true_and]
      rw [getElem?_foldl_insert, entry_eq]
    · simp [here, Ne.symm here, entry_eq]

theorem entry_Release (m : DocLockManager) (owner collection id : Bytes) :
    (m.Release owner).entry collection id = (m.entry collection id).filter fun e => e.owner != owner := by
  unfold entry Release
  rw [TreeMap.getElem?_filterMap]
  cases m.locks[collection]? with
  | none => rfl
  | some collLocks =>
    have kept : (collLocks.filter fun _ e => e.owner != owner)[id]? =
        (collLocks[id]?).filter fun e => e.owner != owner := by
      rw [TreeMap.getElem?_filter, Option.pfilter_eq_filter]
    simp only [Option.pbind_some, Option.bind_some]
    split
    next empty =>
      rw [Option.bind_none, ← kept, TreeMap.getElem?_of_isEmpty empty]
    · exact kept

theorem anyHeld_eq_false {m : DocLockManager} {collection : Bytes} {ids : List Bytes} :
    m.anyHeld collection ids = false ↔ ∀ id ∈ ids, ∀ e, m.entry collection id = some e → e.waitable = false := by
  unfold anyHeld entry
  cases m.locks[collection]? with
  | none => simp
  | some collLocks =>
    simp only [any_eq_false, Option.bind_some]
    refine forall₂_congr fun id _ => ?_
    cases collLocks[id]? <;> simp

theorem Holds_iff {m : DocLockManager} {owner collection id : Bytes} :
    m.Holds owner collection id = true ↔ ∃ e, m.entry collection id = some e ∧ e.owner = owner := by
  unfold Holds
  cases m.entry collection id <;> simp

end DocLockManager

/-! The backend's managers, one for each branch. -/

def docLocksKey (db branch : Bytes) : Bytes := db ++ 47 :: branch

/-- The managers made so far; another one starts out free. -/
abbrev DocLockManagers := Std.TreeMap Bytes DocLockManager

def docLockManager (managers : DocLockManagers) (key : Bytes) : DocLockManager :=
    managers[key]?.getD NewDocLockManager

def releaseLocksForOwner (managers : DocLockManagers) (owner : Bytes) : DocLockManagers :=
  managers.map fun _ m => m.Release owner

structure CollectionRef where
  db : Bytes
  branch : Bytes
  name : Bytes

def CollectionRef.key (c : CollectionRef) : Bytes := docLocksKey c.db c.branch

structure DocRef where
  key : Bytes
  collection : Bytes
  id : Bytes
deriving DecidableEq

def docEntry (managers : DocLockManagers) (d : DocRef) : Option LockEntry :=
  (docLockManager managers d.key).entry d.collection d.id

def holdsDoc (managers : DocLockManagers) (owner : Bytes) (d : DocRef) : Bool :=
  (docLockManager managers d.key).Holds owner d.collection d.id

inductive Statement where
  | insert (docs : List Document)
  | update (docs : List Document)
  | delete (ids : List Value)

section
variable [Digest]

def idsFromDocs (docs : List Document) : Option (List Bytes) := docs.mapM fun d => (d.get idKey).bind hashID

def idsFromValues (ids : List Value) : Option (List Bytes) := ids.mapM hashID

def Statement.ids : Statement → Option (List Bytes)
  | .insert docs => idsFromDocs docs
  | .update docs => idsFromDocs docs
  | .delete ids => idsFromValues ids

end

/-- An insert's document is not visible to other connections, so ordinary writes do not wait for it. -/
def Statement.waitable : Statement → Bool
  | .insert _ => false
  | .update _ => true
  | .delete _ => true

def acquireTxnLocks (managers : DocLockManagers) (owner : Bytes) (c : CollectionRef) (ids : List Bytes)
    (waitable : Bool) :
    Option LockError × DocLockManagers :=
  if ids = [] then (none, managers)
  else
    let (error, m) := (docLockManager managers c.key).Acquire owner c.name ids waitable
    (error, managers.insert c.key m)

def CollectionRef.docs (c : CollectionRef) (ids : List Bytes) : List DocRef := ids.map fun id => ⟨c.key, c.name, id⟩

theorem CollectionRef.mem_docs {c : CollectionRef} {ids : List Bytes} {d : DocRef} :
    d ∈ c.docs ids ↔ d.key = c.key ∧ d.collection = c.name ∧ d.id ∈ ids := by
  obtain ⟨_, _, id⟩ := d
  simp only [CollectionRef.docs, mem_map, DocRef.mk.injEq]
  constructor
  · rintro ⟨_, member, rfl, rfl, rfl⟩
    exact ⟨rfl, rfl, member⟩
  · rintro ⟨rfl, rfl, member⟩
    exact ⟨id, member, rfl, rfl, rfl⟩

theorem docLockManager_insert (managers : DocLockManagers) (key other : Bytes) (m : DocLockManager) :
    docLockManager (managers.insert key m) other = if other = key then m else docLockManager managers other := by
  unfold docLockManager
  rw [TreeMap.getElem?_insert]
  by_cases here : key = other <;> simp [here, Ne.symm]

theorem docEntry_release (managers : DocLockManagers) (owner : Bytes) (d : DocRef) :
    docEntry (releaseLocksForOwner managers owner) d = (docEntry managers d).filter fun e => e.owner != owner := by
  unfold docEntry docLockManager releaseLocksForOwner
  rw [TreeMap.getElem?_map]
  cases managers[d.key]? with
  | none => rfl
  | some m => exact m.entry_Release owner d.collection d.id

theorem acquireTxnLocks_cases (managers : DocLockManagers) (owner : Bytes) (c : CollectionRef) (ids : List Bytes)
    (waitable : Bool) : (∃ error after, acquireTxnLocks managers owner c ids waitable = (some error, after) ∧
      ∀ d, docEntry after d = docEntry managers d) ∨
      ∃ after, acquireTxnLocks managers owner c ids waitable = (none, after) ∧
        (∀ d ∈ c.docs ids, ∀ e, docEntry managers d = some e → e.owner = owner) ∧
          ∀ d, docEntry after d = if d ∈ c.docs ids then some ⟨owner, waitable⟩ else docEntry managers d := by
  unfold acquireTxnLocks
  by_cases nothing : ids = []
  · subst nothing
    refine .inr ⟨managers, if_pos rfl, by simp [CollectionRef.docs], by simp [CollectionRef.docs]⟩
  rw [if_neg nothing]
  rcases (docLockManager managers c.key).Acquire_cases owner c.name ids waitable with
    ⟨error, failed⟩ | ⟨m, taken, -, own, entries⟩
  · refine .inl ⟨error, _, by rw [failed], fun d => ?_⟩
    unfold docEntry
    rw [docLockManager_insert]
    split
    next here =>
      rw [here]
    · rfl
  · refine .inr ⟨_, by rw [taken], ?_, ?_⟩
    · intro d member e held
      obtain ⟨key, collection, id⟩ := CollectionRef.mem_docs.mp member
      unfold docEntry at held
      rw [key, collection] at held
      exact own d.id id e held
    · intro d
      unfold docEntry
      rw [docLockManager_insert]
      by_cases here : d.key = c.key
      · rw [if_pos here, entries, here]
        simp only [CollectionRef.mem_docs, here, true_and]
      · rw [if_neg here, if_neg fun member => here (CollectionRef.mem_docs.mp member).1]

end DumboDB.Dolt
