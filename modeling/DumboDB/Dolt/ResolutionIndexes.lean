import DumboDB.Dolt.ConflictResolution
import DumboDB.Dolt.MergeIndexes

/-!
What the resolutions of a paused operation keep: while every chosen document belongs under the key
of its conflict and every swap takes a key from the version that still holds it, the indexes stay
in step with the documents and no resolution undoes another.
-/

namespace DumboDB.Dolt
open Foundation ByteOrder DumboDB.Types Index Handler Fallible Function List

section
variable [Platform] [QueryEnv] [Digest]

variable {c : Collection} {h : Bytes} {indexes : IndexSet} {chosen : Option Document}
  {rawKey : Bytes} {winner : Option (Bytes × Document)}

theorem deleteStored (maintained : Maintained c) {doc : Document} (stored : table c.docs h = some doc)
    (applied : applyDeletesToIndexes c.indexes [doc] = .ok indexes) :
    Maintained { c with docs := c.docs.erase h, indexes := indexes } :=
  ((DeletesKept.start maintained).delete stored).apply applied

theorem reindexResolved_maintained (maintained : Maintained c) (own : ∀ d, chosen = some d → keyOf d = .ok h)
    (applied : reindexResolved c.indexes c.docs[h]? chosen = .ok indexes) :
    Maintained { c with docs := putDoc c.docs h chosen, indexes := indexes } := by
  unfold reindexResolved at applied
  cases chosen with
  | none =>
    cases stored : c.docs[h]? with
    | none =>
      rw [stored] at applied
      cases applied
      have same : table (c.docs.erase h) = table c.docs := by
        rw [table_erase]
        exact update_eq_self_iff.mpr stored.symm
      exact ⟨maintained.keyed.erase h, fun s index => same ▸ maintained.indexes s index⟩
    | some oldDoc =>
      rw [stored] at applied
      exact deleteStored maintained stored applied
  | some chosenDoc =>
    have hashed := own chosenDoc rfl
    have keyed := maintained.keyed.insert hashed
    dsimp only at applied
    split at applied
    next empty =>
      cases applied
      refine ⟨keyed, fun s index => ?_⟩
      rw [List.isEmpty_iff.mp empty] at index
      cases index
    · rw [hashed] at applied
      cases stored : c.docs[h]? with
      | none =>
        rw [stored] at applied
        cases applied
        refine ⟨keyed, fun s index => ?_⟩
        obtain ⟨before, member, rfl⟩ := mem_map.mp index
        rw [putDoc, table_insert]
        exact (maintained.indexes before member).insert (keyOf_length hashed) stored
      | some oldDoc =>
        rw [stored] at applied
        cases applied
        refine ⟨keyed, fun s index => ?_⟩
        obtain ⟨before, member, rfl⟩ := mem_map.mp index
        rw [putDoc, table_insert]
        exact (maintained.indexes before member).update stored

def withoutWinner (docs : Std.TreeMap Bytes Document) (winner : Option (Bytes × Document)) :
    Std.TreeMap Bytes Document :=
  match winner with
  | some (key, _) => docs.erase key
  | none => docs

theorem applyChosen_docs {after : Collection} (applied : applyChosen c rawKey winner chosen = .ok after) :
    after.docs = putDoc (withoutWinner c.docs winner) rawKey chosen := by
  unfold applyChosen at applied
  dsimp only at applied
  split at applied
  · cases applied
  · split at applied
    · cases applied
    · split at applied
      · cases applied
      · cases applied
        rfl

theorem applyChosen_maintained {after : Collection} (maintained : Maintained c)
    (own : ∀ d, chosen = some d → keyOf d = .ok rawKey)
    (current : ∀ key doc, winner = some (key, doc) → table c.docs key = some doc ∧ key ≠ rawKey)
    (applied : applyChosen c rawKey winner chosen = .ok after) : Maintained after := by
  unfold applyChosen at applied
  dsimp only at applied
  split at applied
  · cases applied
  next _ freed =>
    split at applied
    · cases applied
    · split at applied
      · cases applied
      next reindexed =>
        cases applied
        cases winner with
        | none =>
          cases freed
          exact reindexResolved_maintained maintained own reindexed
        | some winner =>
          obtain ⟨key, doc⟩ := winner
          obtain ⟨stored, differ⟩ := current key doc rfl
          have without := deleteStored maintained stored freed
          have elsewhere : (c.docs.erase key)[rawKey]? = c.docs[rawKey]? :=
            (congrFun (table_erase c.docs key) rawKey).trans (update_of_ne differ.symm _ _)
          rw [← elsewhere] at reindexed
          exact reindexResolved_maintained without own reindexed

/-- A swap takes a unique key over from a document that holds it. -/
def TakesOver (ms : MergeInProgress) (target : ConflictEntry) (params : ResolveConflictParams) (key : Bytes)
    (d : Document) : Prop :=
  (∃ snapshot, swapWinner target params = some (key, snapshot)) ∧
    ∃ s ∈ ms.coll.indexes.list, s.info.unique = true ∧ ∃ new, target.theirs = some new ∧ Shares s.info d new

/-- A resolution that fits the state: the chosen document has the key of the conflict, and the
winner of a swap is still stored, elsewhere, as it was when it won. -/
structure Composable (ms : MergeInProgress) (params : ResolveConflictParams) : Prop where
  own : ∀ target d, findTarget ms.conflicts params.conflictID = .ok target → chosenDoc target params = some d →
    keyOf d = .ok target.rawKey
  current : ∀ target key doc, findTarget ms.conflicts params.conflictID = .ok target →
    swapWinner target params = some (key, doc) → table ms.coll.docs key = some doc ∧ key ≠ target.rawKey ∧
      TakesOver ms target params key doc

def composableCheck (ms : MergeInProgress) (params : ResolveConflictParams) : Bool :=
  match findTarget ms.conflicts params.conflictID with
  | .error _ => true
  | .ok target =>
    (match chosenDoc target params with
      | some d => (match keyOf d with | .ok h => h == target.rawKey | .error _ => false)
      | none => true) &&
    (match swapWinner target params, target.theirs with
      | some (key, doc), some new => ms.coll.docs[key]? == some doc && key != target.rawKey &&
          ms.coll.indexes.list.any fun s => s.info.unique && decide (Shares s.info doc new)
      | some _, none => false
      | none, _ => true)

theorem composable_of_check {ms : MergeInProgress} {params : ResolveConflictParams}
    (checked : composableCheck ms params = true) : Composable ms params := by
  unfold composableCheck at checked
  cases found : findTarget ms.conflicts params.conflictID with
  | error _ => exact ⟨fun _ _ same => (nomatch found.symm.trans same),
        fun _ _ _ same => (nomatch found.symm.trans same)⟩
  | ok target =>
    rw [found] at checked
    rw [Bool.and_eq_true] at checked
    constructor
    · intro other d same chosen
      cases found.symm.trans same
      rw [chosen] at checked
      dsimp only at checked
      cases hashed : keyOf d with
      | error _ => rw [hashed] at checked; cases checked.1
      | ok h =>
        rw [hashed] at checked
        rw [beq_iff_eq.mp checked.1]
    · intro other _ doc same swap
      cases found.symm.trans same
      rw [swap] at checked
      cases new : target.theirs with
      | none => rw [new] at checked; cases checked.2
      | some new_ =>
        simp only [new, Bool.and_eq_true, beq_iff_eq, bne_iff_ne, any_eq_true, decide_eq_true_eq] at checked
        obtain ⟨-, ⟨stored, differ⟩, s, index, unique, shares⟩ := checked
        exact ⟨stored, differ, ⟨doc, swap⟩, s, index, unique, new_, new, shares⟩

/-- What a resolution is to leave: indexes in step with documents under their own keys, the chosen
value, and every other document but one whose unique key was taken over. -/
structure Composes (ms after : MergeInProgress) (target : ConflictEntry) (params : ResolveConflictParams) : Prop where
  maintained : Maintained after.coll
  chosen : params.resolution ≠ .ours → table after.coll.docs target.rawKey = chosenDoc target params
  kept : ∀ key d, table ms.coll.docs key = some d →
    table after.coll.docs key = some d ∨ key = target.rawKey ∨ TakesOver ms target params key d

variable [ValidatorMatcher] {op : Operation} {coll : CollValidation}

theorem Composable.step {ms after : MergeInProgress} {params : ResolveConflictParams} (fits : Composable ms params)
    (maintained : Maintained ms.coll) (resolved : DumboDBResolveConflict op coll ms params = .ok after) :
    ∃ target, findTarget ms.conflicts params.conflictID = .ok target ∧ Composes ms after target params := by
  obtain ⟨target, found, -, ⟨ours, same, -⟩ | ⟨-, c, applied, stored⟩⟩ := resolveConflict_ok resolved
  · refine ⟨target, found, same ▸ maintained, fun other => absurd ours other, fun key d held => .inl ?_⟩
    rw [same]
    exact held
  · have docs := applyChosen_docs applied
    have kept := applyChosen_maintained maintained (fits.own target · found)
      (fun key doc swap => (fits.current target key doc found swap).imp_right And.left) applied
    -- a collection without documents reads like the one that was emptied
    have reads : Maintained after.coll ∧ table after.coll.docs = table c.docs := by
      unfold MergeInProgress.coll
      rcases stored with ⟨empty, gone⟩ | there
      · rw [gone]
        refine ⟨maintained_empty, funext fun key => ?_⟩
        rw [table, table, Std.TreeMap.getElem?_of_isEmpty empty]
        rfl
      · rw [there]
        exact ⟨kept, rfl⟩
    have written : table c.docs =
        update (table (withoutWinner ms.coll.docs (swapWinner target params))) target.rawKey
          (chosenDoc target params) := by
      rw [docs, table_putDoc]
    refine ⟨target, found, reads.1, fun _ => ?_, fun key d held => ?_⟩
    · rw [reads.2, written, update_self]
    · rw [reads.2, written]
      by_cases here : key = target.rawKey
      · exact .inr (.inl here)
      · rw [update_of_ne here]
        unfold withoutWinner
        cases swap : swapWinner target params with
        | none => exact .inl held
        | some winner =>
          obtain ⟨taken, snapshot⟩ := winner
          by_cases same : key = taken
          · subst same
            obtain ⟨current, -, newer⟩ := fits.current target key snapshot found swap
            rw [held] at current
            cases current
            exact .inr (.inr newer)
          · left
            rw [table_erase, update_of_ne same]
            exact held

inductive Resolving (op : Operation) (coll : CollValidation) (start : MergeInProgress) : MergeInProgress → Prop
  | start : Resolving op coll start start
  | step {ms after : MergeInProgress} {params : ResolveConflictParams} : Resolving op coll start ms →
      Composable ms params → DumboDBResolveConflict op coll ms params = .ok after → Resolving op coll start after

theorem Resolving.maintained {start ms : MergeInProgress} (reached : Resolving op coll start ms)
    (maintained : Maintained start.coll) : Maintained ms.coll := by
  induction reached with
  | start => exact maintained
  | step _ fits resolved ih =>
    obtain ⟨_, -, composes⟩ := fits.step ih resolved
    exact composes.maintained

/-- Resolutions that fit the states they meet compose. -/
theorem resolutions_compose {start ms after : MergeInProgress} {params : ResolveConflictParams}
    (maintained : Maintained start.coll) (reached : Resolving op coll start ms) (fits : Composable ms params)
    (resolved : DumboDBResolveConflict op coll ms params = .ok after) :
    ∃ target, findTarget ms.conflicts params.conflictID = .ok target ∧ Composes ms after target params :=
  fits.step (reached.maintained maintained) resolved

end

/-! Two merges that pause. -/

abbrev mergeOf (into from_ base : Collection) : Operation :=
  ⟨.merge, fieldA, DefaultMergeMode, into, [1], [2], fun _ => [], fun h => if h = [1] then from_ else base⟩

abbrev acceptsAll : ValidatorMatcher := ⟨fun _ _ => .ok true⟩

abbrev unvalidated : CollValidation := ⟨none, false, false⟩

attribute [local instance] amd64 bareEnv headDigest plainHash sameCollations acceptsAll

abbrev paused (op : Operation) : Except PauseError MergeInProgress :=
  pauseOn op unvalidated none

abbrev resolve (op : Operation) (ms : MergeInProgress) (params : ResolveConflictParams) :
    Except ResolveError MergeInProgress :=
  DumboDBResolveConflict op unvalidated ms params

abbrev sharedKeyOp : Operation :=
  mergeOf (uniqueA [.insertAll [keyedDoc 1 1]]) (uniqueA [.insertAll [keyedDoc 2 1]]) (uniqueA [])

/-- Theirs takes the key from the document that won it. -/
theorem swap_composes :
    ∃ ms params after target, paused sharedKeyOp = .ok ms ∧ resolve sharedKeyOp ms params = .ok after ∧
      (swapWinner target params).isSome = true ∧ Composes ms after target params := by
  obtain ⟨ms, stopped, e, -, checked, fits, ⟨after, resolved, -⟩, winner, located, swaps⟩ :
      ∃ ms, paused sharedKeyOp = .ok ms ∧ ∃ e ∈ ms.conflicts, maintainedCheck ms.coll = true ∧
        composableCheck ms ⟨e.id, .theirs, none⟩ = true ∧
        (∃ after, resolve sharedKeyOp ms ⟨e.id, .theirs, none⟩ = .ok after ∧ True) ∧
        ∃ target, findTarget ms.conflicts e.id = .ok target ∧
          (swapWinner target ⟨e.id, .theirs, none⟩).isSome = true := by decide +kernel
  obtain ⟨target, found, composes⟩ := resolutions_compose (maintained_of_check checked) (Resolving.start)
    (composable_of_check fits) resolved
  cases found.symm.trans located
  exact ⟨ms, _, after, winner, stopped, resolved, swaps, composes⟩

abbrev editsBothOp : Operation :=
  mergeOf (uniqueA [.insertAll [keyedDoc 1 1], .updateAll [keyedDoc 1 2]])
    (uniqueA [.insertAll [keyedDoc 1 1], .updateAll [keyedDoc 1 3]]) (uniqueA [.insertAll [keyedDoc 1 1]])

/-- A custom document is put under the key of the conflict, whatever its own `_id` is. -/
theorem custom_under_foreign_key :
    ∃ ms params after, paused editsBothOp = .ok ms ∧ Maintained ms.coll ∧
      resolve editsBothOp ms params = .ok after ∧ ¬ Maintained after.coll := by
  obtain ⟨ms, stopped, e, -, checked, after, resolved, p, member, other⟩ :
      ∃ ms, paused editsBothOp = .ok ms ∧ ∃ e ∈ ms.conflicts, maintainedCheck ms.coll = true ∧
        ∃ after, resolve editsBothOp ms ⟨e.id, .custom, some (keyedDoc 9 7)⟩ = .ok after ∧
          ∃ p ∈ after.coll.docs.toList, (keyOf p.2).toOption ≠ some p.1 := by decide +kernel
  refine ⟨ms, _, after, stopped, maintained_of_check checked, resolved, fun maintained => other ?_⟩
  rw [Maintained.keyed maintained p.1 p.2 (Std.TreeMap.mem_toList_iff_getElem?_eq_some.mp member)]
  rfl

end DumboDB.Dolt
