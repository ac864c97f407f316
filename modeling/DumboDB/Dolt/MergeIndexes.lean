import DumboDB.Dolt.MergeClean

/-!
Merged indexes describe the merged documents: where every key is given up before it is taken, and
where every index starts from the map that the merged documents start from.
-/

namespace DumboDB.Dolt
open Foundation ByteOrder DumboDB.Types Index Handler OwnedKeys Fallible Function List

/-! Seeds. -/

theorem seed_of_reconciled [CollationIdentity] {intoSet fromSet baseSet : IndexSet} {seeds : List Seed}
    (accepted : reconcileIndexSets intoSet fromSet baseSet = .ok seeds) {seed : Seed} (member : seed ∈ seeds) :
    seed.entry ∈ (if seed.seedLeft then intoSet else fromSet).list := by
  obtain ⟨_, mapped, rfl⟩ := map_eq_ok.mp accepted
  obtain ⟨found, inside, same⟩ := mem_filterMap.mp member
  cases same
  obtain ⟨name, -, reconciled⟩ := mem_of_mapM_ok mapped inside
  have mem_of_find {set : IndexSet} {s : SecondaryIndex} (found : set.find name = some s) : s ∈ set.list :=
    mem_of_find?_eq_some found
  generalize inInto : intoSet.find name = into at reconciled
  generalize inFrom : fromSet.find name = other at reconciled
  unfold reconcileIndex at reconciled
  split at reconciled
  · split at reconciled
    · cases reconciled
      exact mem_of_find inFrom
    · split at reconciled
      · cases reconciled
        exact mem_of_find inInto
      · split at reconciled
        · cases reconciled
          exact mem_of_find inFrom
        · cases reconciled
  · split at reconciled
    · cases reconciled
      exact mem_of_find inInto
    · split at reconciled <;> cases reconciled
  · split at reconciled
    · cases reconciled
      exact mem_of_find inFrom
    · split at reconciled <;> cases reconciled
  · cases reconciled

section
variable [Digest] [Platform] [QueryEnv]

/-- The sides of a merge keep the invariant of their indexes. -/
structure SidesMaintained (w : ThreeWay) : Prop where
  into : Maintained w.intoColl
  from_ : Maintained w.fromColl

theorem SidesMaintained.wide {w : ThreeWay} (sides : SidesMaintained w) : w.Wide := by
  intro key version
  rcases version with left | right
  · obtain ⟨d, stored⟩ := Option.ne_none_iff_exists'.mp left
    exact keyOf_length (sides.into.keyed key d stored)
  · obtain ⟨d, stored⟩ := Option.ne_none_iff_exists'.mp right
    exact keyOf_length (sides.from_.keyed key d stored)

theorem SidesMaintained.seed [CollationIdentity] {w : ThreeWay} (sides : SidesMaintained w) {seeds : List Seed}
    (accepted : reconcileIndexSets w.intoColl.indexes w.fromColl.indexes w.baseColl.indexes = .ok seeds)
    {seed : Seed} (member : seed ∈ seeds) : IndexMaintained (w.seedDoc seed.seedLeft) seed.entry := by
  have inside := seed_of_reconciled accepted member
  cases side : seed.seedLeft with
  | true =>
    rw [side] at inside
    exact sides.into.indexes seed.entry inside
  | false =>
    rw [side] at inside
    exact sides.from_.indexes seed.entry inside

end

variable {s : IndexMergeSurvivor} {id key : Bytes} {edit : MergeDocEdit}

section
variable [Platform] [QueryEnv]

theorem Descends.described {seed : Seed} {start : Bytes → Option Document}
    (descends : Descends seed s) (maintained : IndexMaintained start seed.entry) :
    Describes (entryScheme s.index.info) start {k | k ∈ s.seedMap} := by
  rw [entryScheme_congr descends.definition, descends.seedMap]
  exact maintained.described

theorem Probes.congr {a b : IndexInfo} (same : SameDefinition a b) {doc other : Document}
    (probes : Probes a doc id other) : Probes b doc id other := by
  unfold Probes at probes ⊢
  rwa [← same doc, ← same other]

def SeedsMaintained (w : ThreeWay) (seeds : List Seed) : Prop :=
  ∀ seed ∈ seeds, IndexMaintained (w.seedDoc seed.seedLeft) seed.entry

variable {w : ThreeWay} {seeds : List Seed}

variable [ConflictHash]

theorem maintained_of_no_key_met {c : Capture} (wide : w.Wide)
    (starts : SeedsMaintained w seeds) (unmet : NoKeyMet w seeds)
    (captured : captureConflictsForCollection w (openSurvivors seeds) = .ok c) :
    ∀ s ∈ finalize c, IndexMaintained (table c.merged) s := by
  have clean := clean_of_no_key_met unmet captured
  intro s index
  obtain ⟨_, member, rfl⟩ := mem_map.mp index
  obtain ⟨seed, source, followed⟩ := clean.survivor member
  rw [clean.merged, view_keys, ← view_keys w seed.seedLeft]
  exact followed.maintained wide (starts seed source)

end

theorem edit_of_touched {w : ThreeWay} (of : w.edit key = some edit) (touched : w.touches false key = true) :
    (w.diff key = some .leftChange ∧ edit.base = (w.sides key).right ∧ edit.right = none) ∨
      (edit.base = none ∧ edit.right = (w.sides key).right) := by
  have reports := w.diff_reports key
  unfold ThreeWay.edit at of
  unfold ThreeWay.touches at touched
  generalize w.diff key = report at reports of touched ⊢
  cases reports <;> cases of <;> simp_all

section
variable [Platform] [QueryEnv] {w : ThreeWay} {seeds : List Seed}

/-! Indexes that start from the map of the merged documents. -/

def FromSeeded (seeds : List Seed) : Prop := ∀ seed ∈ seeds, seed.seedLeft = false

/-- Who claims keys for into: outcomes, and bases that came back. -/
def Outcome (w : ThreeWay) (_ : Bool) (id : Bytes) (d : Document) : Prop :=
  (w.touches false id = true ∧ w.alone id = some d) ∨ (w.diff id = some .leftChange ∧ (w.sides id).right = some d)

/-- The outcome of `key` meets a key that another document of into may have claimed. -/
def MeetsClaim (w : ThreeWay) (seeds : List Seed) (key : Bytes) : Prop :=
  ∃ seed ∈ seeds, seed.entry.info.unique = true ∧ ∃ d, w.alone key = some d ∧ ∃ other ≠ key, ∃ e,
    Outcome w true other e ∧ Probes seed.entry.info d other e

/-- The base that a document of into may go back to meets no key of another one. -/
def BasesApart (w : ThreeWay) (seeds : List Seed) : Prop :=
  ∀ seed ∈ seeds, seed.entry.info.unique = true → ∀ key d, w.diff key = some .leftChange →
    MeetsClaim w seeds key → (w.sides key).base = some d → ∀ other e, other ≠ key →
      (w.sides other).right = some e ∨ Outcome w true other e → ¬ Probes seed.entry.info d other e

def Tracked (w : ThreeWay) (seeds : List Seed) (docs : Bytes → Option Document)
    (survivors : List IndexMergeSurvivor) : Prop :=
  ∀ s ∈ survivors, ∃ seed ∈ seeds, Descends seed s ∧ Sourced (Outcome w) s ∧ IndexMaintained docs s.index

variable {docs : Bytes → Option Document} {survivors : List IndexMergeSurvivor} {key : Bytes} {ours : Bool}
  {doc : Option Document} {done : List Bytes} {c : Capture}

section

variable (tracked : Tracked w seeds docs survivors)
include tracked

theorem Tracked.exchange {oldDoc newDoc : Option Document}
    (known : oldDoc ≠ none ∨ newDoc ≠ none → key.length = primaryIDLen)
    (held : docs key = none ∨ docs key = oldDoc) (source : ∀ d, newDoc = some d → Outcome w ours key d) :
    Tracked w seeds (update docs key newDoc)
      (survivors.map fun s => (s.deleteDoc oldDoc key).insertDoc newDoc key ours) := by
  intro t member
  obtain ⟨s, inside, rfl⟩ := mem_map.mp member
  obtain ⟨seed, root, descends, sourced, maintained⟩ := tracked s inside
  exact ⟨seed, root, (descends.deleteDoc _ _).insertDoc _ _ _, (sourced.deleteDoc _ _).insertDoc source,
    IndexMergeSurvivor.exchange_maintained maintained known held ours⟩

theorem Tracked.insertAgain (known : doc ≠ none → key.length = primaryIDLen) (held : docs key = none ∨ docs key = doc)
    (source : ∀ d, doc = some d → Outcome w ours key d) :
    Tracked w seeds (update docs key doc) (survivors.map fun s => s.insertDoc doc key ours) := by
  intro t member
  obtain ⟨s, inside, rfl⟩ := mem_map.mp member
  obtain ⟨seed, root, descends, sourced, maintained⟩ := tracked s inside
  exact ⟨seed, root, descends.insertDoc _ _ _, sourced.insertDoc source,
    IndexMergeSurvivor.insertDoc_maintained maintained known held ours⟩

theorem Tracked.remove {doc : Document} (stored : docs id = some doc) :
    Tracked w seeds (update docs id none) (removeDocEverywhere survivors doc id) := by
  intro t member
  obtain ⟨s, inside, rfl⟩ := mem_map.mp member
  obtain ⟨seed, root, descends, sourced, maintained⟩ := tracked s inside
  exact ⟨seed, root, descends.deleteDoc _ _, sourced.deleteDoc _ _, IndexMergeSurvivor.deleteDoc_maintained
    maintained (fun _ => maintained.described.inside id doc stored) (.inr stored)⟩

theorem Tracked.seedLeft (fromSeeded : FromSeeded seeds) (member : s ∈ survivors) : s.seedLeft = false := by
  obtain ⟨seed, root, descends, -⟩ := tracked s member
  rw [descends.seedLeft, fromSeeded seed root]

end

/-- A merge after the keys `done`: the indexes describe the merged documents, and a key to come has
from's version or was evicted. -/
structure FromState (w : ThreeWay) (seeds : List Seed) (done : List Bytes) (c : Capture) : Prop where
  tracked : Tracked w seeds (table c.merged) c.survivors
  ahead : ∀ key ∉ done, table c.merged key = none ∨ table c.merged key = (w.sides key).right

/-- While the edit of a key is tried, the indexes still have from's version of it, if any. -/
structure FromTrying (w : ThreeWay) (seeds : List Seed) (done : List Bytes) (key : Bytes)
    (docs : Bytes → Option Document) (c : Capture) : Prop where
  tracked : Tracked w seeds docs c.survivors
  old : docs key = none ∨ docs key = (w.sides key).right
  others : ∀ id ≠ key, docs id = table c.merged id
  outcome : table c.merged key = w.alone key
  ahead : ∀ id ∉ done, id ≠ key → table c.merged id = none ∨ table c.merged id = (w.sides id).right

theorem FromTrying.finish (trying : FromTrying w seeds done key docs c) {after : Capture}
    (merged : table after.merged = update (table c.merged) key doc)
    (tracked : Tracked w seeds (update docs key doc) after.survivors) : FromState w seeds (done ++ [key]) after := by
  have same : update docs key doc = table after.merged := by
    rw [merged]
    funext id
    by_cases here : id = key
    · rw [here, update_self, update_self]
    · rw [update_of_ne here, update_of_ne here, trying.others id here]
  refine ⟨same ▸ tracked, ?_⟩
  intro id later
  rw [mem_append, not_or, mem_singleton] at later
  rw [merged, update_of_ne later.2]
  exact trying.ahead id later.1 later.2

theorem FromTrying.revert_free (trying : FromTrying w seeds done key docs c) (fromSeeded : FromSeeded seeds)
    (starts : SeedsMaintained w seeds) (apart : BasesApart w seeds) (of : w.edit key = some edit)
    (touched : w.touches false key = true) (met : MeetsClaim w seeds key) :
    applyEdit c.survivors ⟨.keepOurs, none, edit.base, edit.right, none⟩ key =
      .ok (c.survivors.map fun s => (s.deleteDoc edit.right key).insertDoc edit.base key true) := by
  have exchanged {s : IndexMergeSurvivor} (member : s ∈ c.survivors) :
      MergeDocEdit.perSurvivor ⟨.keepOurs, none, edit.base, edit.right, none⟩ s = some (edit.right, edit.base) := by
    simp [MergeDocEdit.perSurvivor, trying.tracked.seedLeft fromSeeded member]
  have free : c.survivors.findSome? (survivorLoser ⟨.keepOurs, none, edit.base, edit.right, none⟩ key) = none := by
    rw [findSome?_eq_none_iff]
    intro s member
    cases lost : survivorLoser ⟨.keepOurs, none, edit.base, edit.right, none⟩ key s with
    | none => rfl
    | some _ =>
      obtain ⟨_, b, owner, same, collision, -⟩ := survivorLoser_some lost
      obtain ⟨-, based⟩ := Prod.mk.inj (Option.some.inj ((exchanged member).symm.trans same))
      rcases edit_of_touched of touched with ⟨left, onBase, -⟩ | ⟨unbased, -⟩
      · obtain ⟨seed, root, descends, sourced, -⟩ := trying.tracked s member
        have reports := w.diff_reports key
        rw [left] at reports
        cases reports with
        | leftChange _ right =>
          obtain ⟨unique, differ, e, source, probes⟩ := collision_probes sourced
            (descends.described (starts seed root)) collision
          rw [descends.unique] at unique
          rw [onBase, right] at based
          refine absurd (probes.congr descends.definition)
            (apart seed root unique key b left met based owner.id e differ ?_)
          rcases source with claim | ⟨-, seeded⟩
          · exact .inr claim
          · rw [fromSeeded seed root] at seeded
            exact .inl seeded
      · cases unbased.symm.trans based
  unfold applyEdit
  rw [free]
  refine congrArg Except.ok (map_congr_left fun s member => ?_)
  unfold applyToSurvivor
  rw [exchanged member]
  rfl

/-- An outcome is only taken back where it meets a claim of into's own. -/
theorem FromTrying.met (trying : FromTrying w seeds done key docs c) (fromSeeded : FromSeeded seeds)
    (starts : SeedsMaintained w seeds) (of : w.edit key = some edit) (touched : w.touches false key = true)
    {loser : MergeLoser} (member : s ∈ c.survivors) (lost : survivorLoser edit key s = some loser)
    (incoming : loser.incoming = true) : MeetsClaim w seeds key := by
  obtain ⟨oldDoc, d, owner, same, collision, ⟨-, -, cause⟩ | ⟨existing, -⟩⟩ := survivorLoser_some lost
  · have side := trying.tracked.seedLeft fromSeeded member
    obtain ⟨seed, root, descends, sourced, -⟩ := trying.tracked s member
    obtain ⟨unique, differ, e, source, probes⟩ := collision_probes sourced
      (descends.described (starts seed root)) collision
    rw [descends.unique] at unique
    rw [perSurvivor_edit of, side, touched, if_pos rfl] at same
    have ours : owner.ours = true := by
      refine cause.resolve_left fun theirs => ?_
      rw [ThreeWay.touches, (incomingOurs_edit of).mp theirs] at touched
      cases touched
    refine ⟨seed, root, unique, d, (Prod.mk.inj (Option.some.inj same)).2, owner.id, differ, e, ?_,
      probes.congr descends.definition⟩
    rcases source with claim | ⟨seeded, -⟩
    · exact claim
    · cases ours.symm.trans (seeded.trans side)
  · cases incoming.symm.trans existing

theorem FromState.start (fromSeeded : FromSeeded seeds) (starts : SeedsMaintained w seeds) :
    FromState w seeds [] ⟨w.fromColl.docs, openSurvivors seeds, []⟩ := by
  refine ⟨?_, fun key _ => .inr rfl⟩
  intro s member
  obtain ⟨seed, root, rfl⟩ := mem_map.mp member
  refine ⟨seed, root, ⟨fun _ => rfl, rfl, rfl, rfl⟩, ?_, ?_⟩
  · intro p _ held
    simp [openSurvivor] at held
  · have start := starts seed root
    rw [fromSeeded seed root] at start
    exact start

variable [ConflictHash]

theorem FromTrying.evict (trying : FromTrying w seeds done key docs c) {loser : MergeLoser} {loserDoc : Document}
    (other : loser.id ≠ key) (stored : table c.merged loser.id = some loserDoc) :
    FromTrying w seeds done key (update docs loser.id none) (evictExisting w edit key loser loserDoc c) := by
  have merged : table (evictExisting w edit key loser loserDoc c).merged =
      update (table c.merged) loser.id none := table_erase ..
  refine ⟨trying.tracked.remove ((trying.others _ other).trans stored), ?_, ?_, ?_, ?_⟩
  · rw [update_of_ne other.symm]
    exact trying.old
  · intro id elsewhere
    rw [merged]
    by_cases here : id = loser.id
    · rw [here, update_self, update_self]
    · rw [update_of_ne here, update_of_ne here, trying.others id elsewhere]
  · rw [merged, update_of_ne other.symm]
    exact trying.outcome
  · intro id later elsewhere
    rw [merged, update_apply]
    split
    · exact .inl rfl
    · exact trying.ahead id later elsewhere

theorem FromTrying.revert (trying : FromTrying w seeds done key docs c) (fromSeeded : FromSeeded seeds)
    (wide : w.Wide)
    (starts : SeedsMaintained w seeds) (apart : BasesApart w seeds) (of : w.edit key = some edit)
    (touched : w.touches false key = true) (met : MeetsClaim w seeds key) (loser : MergeLoser) :
    FromState w seeds (done ++ [key]) (revertIncoming w edit key loser c) := by
  have known : key.length = primaryIDLen := by
    obtain ⟨-, -, -, d, outcome, -⟩ := met
    exact @ThreeWay.Wide.known w key wide false (.inr (by rw [outcome]; exact Option.some_ne_none d))
  have merged : table (revertIncoming w edit key loser c).merged =
      update (table c.merged) key edit.base := table_putDoc ..
  refine trying.finish merged ?_
  have survivors : (revertIncoming w edit key loser c).survivors =
      c.survivors.map fun s => (s.deleteDoc edit.right key).insertDoc edit.base key true := by
    unfold revertIncoming
    dsimp only
    rw [trying.revert_free fromSeeded starts apart of touched met]
    rfl
  rw [survivors]
  rcases edit_of_touched of touched with ⟨left, onBase, removed⟩ | ⟨unbased, removed⟩
  · rw [onBase, removed]
    exact trying.tracked.insertAgain (fun _ => known) trying.old fun d there => .inr ⟨left, there⟩
  · rw [unbased, removed]
    exact trying.tracked.exchange (fun _ => known) trying.old fun d absent => (nomatch absent)

theorem FromState.step {after : Capture} (state : FromState w seeds done c)
    (fromSeeded : FromSeeded seeds) (wide : w.Wide) (starts : SeedsMaintained w seeds) (apart : BasesApart w seeds)
    (fresh : key ∉ done) (stepped : captureStep w c key = .ok after) : FromState w seeds (done ++ [key]) after := by
  have keeps {c : Capture} (state : FromState w seeds done c) : FromState w seeds (done ++ [key]) c :=
    ⟨state.tracked, fun id later => state.ahead id fun member => later (mem_append_left _ member)⟩
  rw [captureStep_eq] at stepped
  cases of : w.edit key with
  | none =>
    rw [of] at stepped
    cases stepped
    exact keeps state
  | some edit =>
    rw [of] at stepped
    dsimp only at stepped
    have merged := staged_merged w key c
    have survivors := staged_survivors w key c
    have exchanged {docs : Bytes → Option Document} {list : List IndexMergeSurvivor}
      (tracked : Tracked w seeds docs list)
        {s : IndexMergeSurvivor} (member : s ∈ list) : edit.perSurvivor s =
          if w.touches false key then some ((w.sides key).right, w.alone key) else none := by
      rw [perSurvivor_edit of, tracked.seedLeft fromSeeded member]
      rfl
    cases touched : w.touches false key with
    | false =>
      -- a change of from's own is in the merged map and in every index
      rw [touched, if_neg Bool.false_ne_true] at merged
      have still {s : IndexMergeSurvivor} (member : s ∈ c.survivors) : edit.perSurvivor s = none := by
        rw [exchanged state.tracked member, touched, if_neg Bool.false_ne_true]
      have free : (staged w key c).survivors.findSome? (survivorLoser edit key) = none := by
        rw [survivors, findSome?_eq_none_iff]
        intro s member
        rw [survivorLoser, still member]
      have same : c.survivors.map (applyToSurvivor edit key) = c.survivors := by
        refine (map_congr_left fun s member => ?_).trans (map_id _)
        rw [applyToSurvivor, still member]
        rfl
      rw [applyIndexEdit_free free, survivors, same] at stepped
      cases stepped
      exact keeps ⟨merged ▸ state.tracked, merged ▸ state.ahead⟩
    | true =>
      rw [touched, if_pos rfl] at merged
      refine applyIndexEdit_rule (fun c => ∃ docs, FromTrying w seeds done key docs c)
        (FromState w seeds (done ++ [key])) ?_ ?_ ?_ ⟨table c.merged, ?_⟩ stepped
      · rintro c s member loser _ ⟨docs, trying⟩ lost existing stored
        obtain ⟨oldDoc, d, owner, -, collision, ⟨incoming, -⟩ | ⟨-, loses, -⟩⟩ := survivorLoser_some lost
        · exact nomatch incoming.symm.trans existing
        · obtain ⟨-, _, -, hit⟩ := uniqueCollision_some collision
          exact ⟨_, trying.evict (loses ▸ (rowCollision_some hit).1) stored⟩
      · rintro c ⟨docs, trying⟩ free
        have map : c.survivors.map (applyToSurvivor edit key) = c.survivors.map fun s =>
            (s.deleteDoc (w.sides key).right key).insertDoc (w.alone key) key edit.incomingOurs := by
          refine map_congr_left fun s member => ?_
          rw [applyToSurvivor, exchanged trying.tracked member, touched, if_pos rfl]
        have unchanged : table c.merged = update (table c.merged) key (w.alone key) := by
          rw [← trying.outcome, update_eq_self]
        refine trying.finish unchanged ?_
        rw [map]
        exact trying.tracked.exchange (@ThreeWay.Wide.known w key wide false) trying.old
          fun d there => .inl ⟨touched, there⟩
      · rintro c s member loser ⟨docs, trying⟩ lost incoming
        exact trying.revert fromSeeded wide starts apart of touched
          (trying.met fromSeeded starts of touched member lost incoming) loser
      · refine ⟨survivors ▸ state.tracked, state.ahead key fresh, ?_, ?_, ?_⟩
        · intro id elsewhere
          rw [merged, update_of_ne elsewhere]
        · rw [merged, update_self]
        · intro id later elsewhere
          rw [merged, update_of_ne elsewhere]
          exact state.ahead id later

theorem maintained_of_from_seeded (fromSeeded : FromSeeded seeds) (wide : w.Wide)
    (starts : SeedsMaintained w seeds) (apart : BasesApart w seeds)
    (captured : captureConflictsForCollection w (openSurvivors seeds) = .ok c) :
    ∀ s ∈ finalize c, IndexMaintained (table c.merged) s := by
  have state := foldlM_sweep (fun done c => FromState w seeds done c) (fun done key rest c mid whole state stepped =>
      state.step fromSeeded wide starts apart (fresh_of_sweep whole) stepped)
    captured (FromState.start fromSeeded starts)
  intro s index
  obtain ⟨survivor, member, rfl⟩ := mem_map.mp index
  obtain ⟨-, -, -, -, maintained⟩ := state.tracked survivor member
  exact maintained

end

section
variable [CollationIdentity] [ConflictHash] [Digest] [Platform] [QueryEnv]

end

theorem not_described_of_stray [Platform] [QueryEnv] {c : Capture}
    (stray : ((finalize c).any fun s => s.entries.toList.any fun key => c.merged.toList.all fun p =>
      !(entryKeysForRows (indexEntriesForDoc p.2 s.info).rows p.1).contains key) = true) :
    ¬ ∀ s ∈ finalize c, ∀ key, key ∈ s.entries ↔
      ∃ h d, c.merged[h]? = some d ∧ key ∈ entryKeysForRows (indexEntriesForDoc d s.info).rows h := by
  intro described
  simp only [any_eq_true, all_eq_true, Bool.not_eq_true', contains_eq_mem,
    decide_eq_false_iff_not] at stray
  obtain ⟨s, index, key, entry, none⟩ := stray
  obtain ⟨h, d, stored, belongs⟩ := (described s index key).mp (Std.TreeSet.mem_toList.mp entry)
  exact none (h, d) (Std.TreeMap.mem_toList_iff_getElem?_eq_some.mpr stored) belongs

abbrev sameCollations : CollationIdentity := ⟨fun _ _ => true⟩

attribute [local instance] amd64 bareEnv headDigest plainHash sameCollations

abbrev reconciled (w : ThreeWay) : Except MergeError (List Seed) :=
  reconcileIndexSets w.intoColl.indexes w.fromColl.indexes w.baseColl.indexes

theorem maintained_uniqueA {ops : List Op}
    (seen : RunShowsStored (next emptyCollection (.createIndexes [plainIndex none true])) ops) :
    Maintained (uniqueA ops) :=
  run_maintained (maintained_empty) ⟨trivial, seen⟩

def secondIndex : IndexInfo := ⟨fieldB, [⟨fieldA, false⟩], false, false, none, none, false, false, false⟩

/-- Into adds an index and inserts `{_id: 1, a: 1}`; from inserts `{_id: 2, a: 1}`. -/
abbrev evictsOne : ThreeWay :=
  merging (uniqueA [.createIndexes [secondIndex], .insertAll [keyedDoc 1 1]])
    (uniqueA [.insertAll [keyedDoc 2 1]]) (uniqueA [])

end DumboDB.Dolt
