import DumboDB.Dolt.DocLocks

/-!
Transactions and ordinary writes over the document locks: which documents a transaction keeps
ordinary writes away from, over every interleaving.
-/

namespace DumboDB.Dolt
open Foundation ByteOrder DumboDB.Types Transition List

/-- An ordinary write in `WaitUntilFree`: about to look, or waiting for the next broadcast. -/
inductive Waiter where
  | idle
  | checking (c : CollectionRef) (ids : List Bytes)
  | parked (c : CollectionRef) (ids : List Bytes) (wait : Nat)

/-- The locks, the ordinary writes, and the documents that exist outside transactions. `touched` is
history: the documents, existing outside it, that an open transaction has updated or deleted. -/
structure Locking (ι : Type) where
  managers : DocLockManagers
  writers : ι → Waiter
  visible : DocRef → Bool
  touched : List (Bytes × DocRef)

def Locking.start {ι : Type} (visible : DocRef → Bool) : Locking ι := ⟨∅, fun _ => .idle, visible, []⟩

inductive LockEvent (ι : Type) where
  | statement (owner : Bytes) (c : CollectionRef) (stmt : Statement) (error : Option LockError)
  | finishes (owner : Bytes)
  | publishes
  | calls (i : ι) (c : CollectionRef) (ids : List Bytes)
  | parks (i : ι)
  | wakes (i : ι)
  | passes (i : ι) (c : CollectionRef) (ids : List Bytes)
  | expires (i : ι)

section
variable {ι : Type}

/-- The history after a statement that took its locks. -/
def Locking.marked (s : Locking ι) (owner : Bytes) (stmt : Statement) (docs : List DocRef) : List (Bytes × DocRef) :=
  if stmt.waitable then (docs.filter s.visible).map (fun d => (owner, d)) ++ s.touched else s.touched

/-- A transaction inserts no document that it has updated or deleted. -/
def Locking.KeepsKind [Digest] (s : Locking ι) : LockEvent ι → Prop
  | .statement owner c (.insert docs) _ => ∀ ids, idsFromDocs docs = some ids → ∀ d ∈ c.docs ids,
        (owner, d) ∉ s.touched
  | _ => True

/-- What a transaction has touched is locked for ordinary writes. -/
def Locking.Shielded (s : Locking ι) : Prop :=
  ∀ owner d, (owner, d) ∈ s.touched → docEntry s.managers d = some ⟨owner, true⟩

variable [DecidableEq ι]

def Locking.turn (s : Locking ι) (i : ι) (waiter : Waiter) : Locking ι :=
  { s with writers := Function.update s.writers i waiter }

/-- One critical section of a lock manager, or a change of what exists outside transactions. -/
inductive LockStep [Digest] : Locking ι → LockEvent ι → Locking ι → Prop where
  | unnamed {s} (owner c) (stmt : Statement) : stmt.ids = none →
      LockStep s (.statement owner c stmt (some .missingID)) s
  | statement {s} {ids error after} (owner) (c : CollectionRef) (stmt : Statement) : stmt.ids = some ids →
      acquireTxnLocks s.managers owner c ids stmt.waitable = (error, after) →
        LockStep s (.statement owner c stmt error)
          { s with managers := after, touched := if error = none then s.marked owner stmt (c.docs ids) else s.touched }
  | finish {s} (owner) : LockStep s (.finishes owner)
      { s with managers := releaseLocksForOwner s.managers owner, touched := s.touched.filter fun t => t.1 != owner }
  | publish {s} (visible : DocRef → Bool) : LockStep s .publishes { s with visible := visible }
  | call {s} (i c) (ids : List Bytes) : s.writers i = .idle → LockStep s (.calls i c ids) (s.turn i (.checking c ids))
  | park {s} {c ids} (i) : s.writers i = .checking c ids →
      (docLockManager s.managers c.key).anyHeld c.name ids = true →
        LockStep s (.parks i) (s.turn i (.parked c ids (docLockManager s.managers c.key).notify))
  | wake {s} {c ids wait} (i) : s.writers i = .parked c ids wait →
      (docLockManager s.managers c.key).notify ≠ wait → LockStep s (.wakes i) (s.turn i (.checking c ids))
  | pass {s} {c ids} (i) : s.writers i = .checking c ids →
      (docLockManager s.managers c.key).anyHeld c.name ids = false → LockStep s (.passes i c ids) (s.turn i .idle)
  | expire {s} {c ids wait} (i) : s.writers i = .parked c ids wait → LockStep s (.expires i) (s.turn i .idle)

end

section
variable {ι : Type} {stmt : Statement} {s : Locking ι} {owner : Bytes} {d : DocRef} {other : Bytes}

theorem Statement.insert_of_waitable (kind : stmt.waitable = false) : ∃ docs, stmt = .insert docs := by
  cases stmt with
  | insert docs => exact ⟨docs, rfl⟩
  | update docs => cases kind
  | delete _ => cases kind

theorem Locking.mem_marked {docs : List DocRef} (member : (other, d) ∈ s.marked owner stmt docs) :
    (other, d) ∈ s.touched ∨ (stmt.waitable = true ∧ other = owner ∧ d ∈ docs) := by
  unfold Locking.marked at member
  split at member
  next kind =>
    rcases mem_append.mp member with fresh | old
    · obtain ⟨_, inside, same⟩ := mem_map.mp fresh
      obtain ⟨rfl, rfl⟩ := Prod.mk.inj same
      exact .inr ⟨kind, rfl, (mem_filter.mp inside).1⟩
    · exact .inl old
  · exact .inl member

theorem shielded_finish (shielded : s.Shielded) (owner : Bytes) :
    Locking.Shielded { s with managers := releaseLocksForOwner s.managers owner
                              touched := s.touched.filter fun t => t.1 != owner } := by
  intro other d member
  obtain ⟨old, kept⟩ := mem_filter.mp member
  rw [docEntry_release, shielded other d old]
  simpa [Option.filter] using kept

theorem holdsDoc_unique {managers : DocLockManagers}
    (left : holdsDoc managers owner d = true) (right : holdsDoc managers other d = true) : owner = other := by
  obtain ⟨e, held, rfl⟩ := DocLockManager.Holds_iff.mp left
  obtain ⟨_, held', rfl⟩ := DocLockManager.Holds_iff.mp right
  rw [held] at held'
  cases held'
  rfl

variable [Digest]

variable {c : CollectionRef} {ids : List Bytes} {t : Locking ι}

theorem shielded_statement
    {error : Option LockError} {after : DocLockManagers} (shielded : s.Shielded) (named : stmt.ids = some ids)
    (keeps : s.KeepsKind (.statement owner c stmt error))
    (locked : acquireTxnLocks s.managers owner c ids stmt.waitable = (error, after)) : Locking.Shielded
      { s with
        managers := after
        touched := if error = none then s.marked owner stmt (c.docs ids) else s.touched } := by
  intro other d member
  rcases acquireTxnLocks_cases s.managers owner c ids stmt.waitable with
    ⟨_, _, failed, same⟩ | ⟨_, taken, own, entries⟩
  · obtain ⟨rfl, rfl⟩ := Prod.mk.inj (locked.symm.trans failed)
    rw [same]
    exact shielded other d member
  · obtain ⟨rfl, rfl⟩ := Prod.mk.inj (locked.symm.trans taken)
    rw [entries]
    by_cases here : d ∈ c.docs ids
    · rw [if_pos here]
      rcases Locking.mem_marked member with old | ⟨kind, rfl, -⟩
      · obtain rfl : other = owner := own d here _ (shielded other d old)
        cases kind : stmt.waitable with
        | true => rfl
        | false =>
          -- an insert would weaken the transaction's own lock
          obtain ⟨_, rfl⟩ := Statement.insert_of_waitable kind
          exact absurd old (keeps ids named d here)
      · rw [kind]
    · rw [if_neg here]
      rcases Locking.mem_marked member with old | ⟨-, -, inside⟩
      · exact shielded other d old
      · exact absurd inside here

theorem shielded_step [DecidableEq ι] {e : LockEvent ι} (shielded : s.Shielded)
    (stepped : Guarded Locking.KeepsKind LockStep s e t) : t.Shielded := by
  obtain ⟨keeps, step⟩ := stepped
  cases step with
  | unnamed
  | publish visible
  | call i c ids idle
  | park i checking held
  | wake i parked moved
  | pass i checking free
  | expire i parked => exact shielded
  | statement owner c _ named locked => exact shielded_statement shielded named keeps locked
  | finish owner => exact shielded_finish shielded owner

theorem failed_statement_keeps [DecidableEq ι]
    {error : LockError} (step : LockStep s (.statement owner c stmt (some error)) t) (d : DocRef) :
    docEntry t.managers d = docEntry s.managers d := by
  cases step with
  | unnamed => rfl
  | @statement ids _ after _ _ _ named locked =>
    rcases acquireTxnLocks_cases s.managers owner c ids stmt.waitable with
      ⟨_, _, failed, same⟩ | ⟨_, taken, -, -⟩
    · obtain ⟨-, rfl⟩ := Prod.mk.inj (locked.symm.trans failed)
      exact same d
    · exact nomatch (Prod.mk.inj (locked.symm.trans taken)).1

theorem pass_untouched [DecidableEq ι] {i : ι}
    (shielded : s.Shielded) (step : LockStep s (.passes i c ids) t) (d : DocRef)
    (named : d ∈ c.docs ids) (owner : Bytes) :
    (owner, d) ∉ s.touched := by
  intro touched
  cases step with
  | pass _ _ free =>
    obtain ⟨key, collection, id⟩ := CollectionRef.mem_docs.mp named
    have held := shielded owner d touched
    unfold docEntry at held
    rw [key, collection] at held
    exact nomatch DocLockManager.anyHeld_eq_false.mp free d.id id _ held

/-- Over every interleaving, a document has one owner, a failed statement changes no lock, and what a
transaction has touched is closed to ordinary writes, if no transaction inserts what it has updated
or deleted. -/
theorem locks_exclude [DecidableEq ι] {visible : DocRef → Bool} {events : List (LockEvent ι)} {s : Locking ι}
    (run : Run (Guarded Locking.KeepsKind LockStep) (Locking.start visible) events s) :
    (∀ d owner other, holdsDoc s.managers owner d = true → holdsDoc s.managers other d = true → owner = other) ∧
      (∀ owner c stmt error t, LockStep s (.statement owner c stmt (some error)) t →
        ∀ d, docEntry t.managers d = docEntry s.managers d) ∧
        ∀ i c ids t, LockStep s (.passes i c ids) t → ∀ d ∈ c.docs ids, ∀ owner, (owner, d) ∉ s.touched := by
  have shielded : s.Shielded := run.invariant Locking.Shielded
    (fun _ _ member => absurd member not_mem_nil) fun _ _ _ => shielded_step
  exact ⟨fun _ _ _ => holdsDoc_unique, fun _ _ _ _ _ => failed_statement_keeps,
    fun _ _ _ _ => pass_untouched shielded⟩

end

/-- A write that waits since a generation was woken, or has a lock to wait for. -/
def DocLockManager.Attends (m : DocLockManager) (collection : Bytes) (ids : List Bytes) (wait : Nat) : Prop :=
  wait < m.notify ∨ wait = m.notify ∧ m.anyHeld collection ids = true

theorem DocLockManager.Attends.acquire {m : DocLockManager} {owner collection other : Bytes} {ids waited : List Bytes}
    {waitable : Bool} {wait : Nat} (attends : m.Attends other waited wait)
    (keeps : waitable = false → ∀ id ∈ ids, ∀ e, m.entry collection id = some e → e.waitable = false) :
    (m.Acquire owner collection ids waitable).2.Attends other waited wait := by
  rcases m.Acquire_cases owner collection ids waitable with ⟨_, failed⟩ | ⟨_, taken, same, -, entries⟩
  · rwa [failed]
  rw [taken, Attends, same]
  refine attends.imp_right (And.imp_right fun held => ?_)
  by_contra free
  refine absurd held (Bool.eq_false_iff.mp (anyHeld_eq_false.mpr fun id member e known => ?_))
  have now := anyHeld_eq_false.mp (Bool.eq_false_iff.mpr free) id member
  rw [entries] at now
  split at now
  next inside =>
    obtain ⟨rfl, inside⟩ := inside
    cases waitable with
    | false => exact keeps rfl id inside e known
    | true => cases now _ rfl
  · exact now e known

section
variable {ι : Type} [Digest]

/-- An insert takes over no lock that writes wait for. -/
def Locking.KeepsWaited (s : Locking ι) : LockEvent ι → Prop
  | .statement _ c (.insert docs) _ => ∀ ids, idsFromDocs docs = some ids → ∀ id ∈ ids, ∀ e,
      (docLockManager s.managers c.key).entry c.name id = some e → e.waitable = false
  | _ => True

def Locking.Attended (s : Locking ι) : Prop :=
  ∀ i c ids wait, s.writers i = .parked c ids wait → (docLockManager s.managers c.key).Attends c.name ids wait

variable [DecidableEq ι] {s t : Locking ι}

theorem attended_step {event : LockEvent ι} (attended : s.Attended)
    (stepped : Guarded Locking.KeepsWaited LockStep s event t) : t.Attended := by
  obtain ⟨keeps, step⟩ := stepped
  intro i c ids wait parked
  cases step with
  | unnamed | publish => exact attended i c ids wait parked
  | statement owner place stmt named locked =>
    have before := attended i c ids wait parked
    unfold acquireTxnLocks at locked
    split at locked
    · cases locked
      exact before
    obtain ⟨-, rfl⟩ := Prod.mk.inj locked
    change (docLockManager (Std.TreeMap.insert _ _ _) _).Attends _ _ _
    rw [docLockManager_insert]
    split
    next here =>
      rw [here] at before
      refine before.acquire fun kind => ?_
      obtain ⟨_, rfl⟩ := Statement.insert_of_waitable kind
      exact keeps _ named
    · exact before
  | finish owner =>
    have before := attended i c ids wait parked
    revert before
    change _ → (docLockManager (releaseLocksForOwner s.managers owner) c.key).Attends _ _ _
    unfold docLockManager releaseLocksForOwner
    rw [Std.TreeMap.getElem?_map]
    cases s.managers[c.key]? with
    | none => exact id
    | some m => exact fun before => .inl (Nat.lt_succ_of_le (before.elim Nat.le_of_lt fun now => now.1.le))
  | park j _ held =>
    by_cases here : i = j
    · subst here
      cases (Function.update_self ..).symm.trans parked
      exact .inr ⟨rfl, held⟩
    · exact attended i c ids wait ((Function.update_of_ne here ..).symm.trans parked)
  | call j | wake j | pass j | expire j =>
    by_cases here : i = j
    · subst here
      cases (Function.update_self ..).symm.trans parked
    · exact attended i c ids wait ((Function.update_of_ne here ..).symm.trans parked)

/-- No wakeup is lost where no insert takes over a lock that writes wait for: a parked write with nothing to wait for
wakes and passes. -/
theorem parked_write_wakes {visible : DocRef → Bool} {events : List (LockEvent ι)}
    (run : Run (Guarded Locking.KeepsWaited LockStep) (.start visible) events s) {i : ι} {c : CollectionRef}
    {ids : List Bytes} {wait : Nat} (parked : s.writers i = .parked c ids wait)
    (free : (docLockManager s.managers c.key).anyHeld c.name ids = false) :
    ∃ woken passed, LockStep s (.wakes i) woken ∧ LockStep woken (.passes i c ids) passed := by
  have attended : s.Attended := run.invariant Locking.Attended (fun _ _ _ _ same => by cases same)
    fun _ _ _ => attended_step
  rcases attended i c ids wait parked with later | ⟨-, held⟩
  · exact ⟨_, _, .wake i parked later.ne', .pass i (Function.update_self ..) free⟩
  · exact absurd held (Bool.eq_false_iff.mp free)

end

/-! Two transactions and a write on one document. -/

def lockedPlace : CollectionRef := ⟨ascii ['d'], ascii ['m'], ascii ['c']⟩

attribute [local instance] headDigest

def lockedIDs : List Bytes := (idsFromValues [.int32 1]).getD []

def lockedDoc : DocRef := ⟨lockedPlace.key, lockedPlace.name, lockedIDs.headD []⟩

def lockedStart : Locking Unit := .start fun d => d == lockedDoc

def lockedAfter (s : Locking Unit) (stmt : Statement) : Locking Unit :=
  let locked := acquireTxnLocks s.managers (ascii ['t']) lockedPlace lockedIDs stmt.waitable
  { s with managers := locked.2
           touched := if locked.1 = none then s.marked (ascii ['t']) stmt
             (lockedPlace.docs lockedIDs) else s.touched }

theorem lockedAfter_step (s : Locking Unit) (stmt : Statement) (named : Statement.ids stmt = some lockedIDs) :
    LockStep s (.statement (ascii ['t']) lockedPlace stmt
        (acquireTxnLocks s.managers (ascii ['t']) lockedPlace lockedIDs stmt.waitable).1) (lockedAfter s stmt) :=
  LockStep.statement (ascii ['t']) lockedPlace stmt named rfl

/-- A transaction deletes the document: it is the only owner, and the document is touched. -/
theorem deleted_is_closed :
    ∃ s : Locking Unit, (ascii ['t'], lockedDoc) ∈ s.touched ∧
      ∀ i t, ¬LockStep s (.passes i lockedPlace lockedIDs) t := by
  have touched : (ascii ['t'], lockedDoc) ∈ (lockedAfter lockedStart
    (.delete [.int32 1])).touched := by decide +kernel
  have inside : lockedDoc ∈ lockedPlace.docs lockedIDs := by decide +kernel
  refine ⟨lockedAfter lockedStart (.delete [.int32 1]), touched, fun i t step => ?_⟩
  have deletes := lockedAfter_step lockedStart (.delete [.int32 1]) (by decide +kernel)
  have begun : Run (Guarded (Locking.KeepsKind) (LockStep)) lockedStart [] lockedStart :=
    .nil
  have run := begun.snocGuarded deletes trivial
  exact (locks_exclude run).2.2 i lockedPlace lockedIDs t step lockedDoc inside _ touched

/-- A transaction deletes the document and inserts it again: its lock is an insert's now, and an
ordinary write of the document gets past it. -/
theorem reinserted_is_open :
    ∃ events s t, Run (LockStep) lockedStart events s ∧ (ascii ['t'], lockedDoc) ∈ s.touched ∧
      lockedDoc ∈ lockedPlace.docs lockedIDs ∧ LockStep s (.passes () lockedPlace lockedIDs) t := by
  have deleted : Run (LockStep) lockedStart _ _ :=
    Run.nil.snoc (lockedAfter_step lockedStart (.delete [.int32 1]) (by decide +kernel))
  have inserted := deleted.snoc (lockedAfter_step (lockedAfter lockedStart (.delete [.int32 1]))
    (.insert [[(idKey, .int32 1)]]) (by decide +kernel))
  have called := inserted.snoc (LockStep.call () lockedPlace lockedIDs rfl)
  exact ⟨_, _, _, called, by decide +kernel, by decide +kernel, LockStep.pass () rfl (by decide +kernel)⟩

/-- A write waits for a document that is deleted, and the transaction ends. -/
theorem parked_write_wakes_after_delete : ∃ (s : Locking Unit) (wait : Nat),
    s.writers () = .parked lockedPlace lockedIDs wait ∧
      ∃ woken passed, LockStep s (.wakes ()) woken ∧ LockStep woken (.passes () lockedPlace lockedIDs) passed := by
  have deletes := lockedAfter_step lockedStart (.delete [.int32 1]) (by decide +kernel)
  have deleted : Run (Guarded Locking.KeepsWaited LockStep) lockedStart _ _ := Run.nil.snocGuarded deletes trivial
  have called := deleted.snocGuarded (.call () lockedPlace lockedIDs rfl) trivial
  have parked := called.snocGuarded (.park () rfl (by decide +kernel)) trivial
  have freed := parked.snocGuarded (.finish (ascii ['t'])) trivial
  exact ⟨_, _, rfl, parked_write_wakes freed rfl (by decide +kernel)⟩

end DumboDB.Dolt
