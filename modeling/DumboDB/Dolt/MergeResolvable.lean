import DumboDB.Dolt.MergeConflicts
import DumboDB.Dolt.MergeValidation

/-!
Whether every conflict of a merge can be reached by its id: where no document can enter the list
twice, the ids differ, also after the validator's conflicts and in every state that resolutions and
rechecks lead to, and resolving the open ones in any order leaves none.
-/

namespace DumboDB.Dolt
open Foundation ByteOrder DumboDB.Types Index Handler Fallible Function List

/-! Ids. -/

theorem conflictID_injective [ConflictHash] {collection theirHash a b : Bytes}
    (same : conflictID collection a theirHash = conflictID collection b theirHash) : a = b := by
  have inside := ConflictHash.injective same
  simpa [append_assoc] using inside

theorem nodup_map_append {α β : Type} {f : α → β} {list : List α} {a : α} (distinct : (list.map f).Nodup)
    (fresh : ∀ b ∈ list, f b ≠ f a) : ((list ++ [a]).map f).Nodup := by
  rw [map_append, nodup_append]
  refine ⟨distinct, nodup_singleton _, ?_⟩
  intro x old y new
  obtain ⟨b, member, rfl⟩ := mem_map.mp old
  rw [map_singleton, mem_singleton] at new
  exact new ▸ fresh b member

theorem changes_distinct (fromMap toMap : Std.TreeMap Bytes Document) :
    (forEachCollectionChange fromMap toMap).Pairwise fun a b => a.key ≠ b.key := by
  refine List.Pairwise.filterMap _ ?_ Std.TreeSet.ordered_toList
  intro a b less c first d second same
  split at first
  · cases first
  · split at second
    · cases second
    · cases first
      cases second
      dsimp only at same
      rw [same, Std.compare_self] at less
      cases less

section
variable [ConflictHash] [ValidatorMatcher] {collection theirHash : Bytes} {existing : List ConflictEntry}

variable {recheck : Bool}
  {baseMap mergedMap : Std.TreeMap Bytes Document} {coll : CollValidation}
  {entries : List ConflictEntry} {metaConflict : Option Bool}

theorem validateChange_ok {validator : Document} {warn : Bool} {found after : List ConflictEntry} {c : CollChange}
    (validated : validateChange collection theirHash validator warn recheck existing found c = .ok after) :
    after = found ∨ ∃ e, after = found ++ [e] ∧ e.typ = .validation ∧ e.id = conflictID collection c.key theirHash ∧
      ∀ old ∈ existing, old.id ≠ e.id := by
  unfold validateChange at validated
  split at validated
  · cases validated
    exact .inl rfl
  · split at validated
    · cases validated
      exact .inl rfl
    · obtain ⟨_, -, rfl⟩ := map_eq_ok.mp validated
      dsimp only
      split
      · exact .inl rfl
      next recorded =>
        simp only [Bool.or_eq_true, not_or, any_eq_true, not_exists, not_and, beq_iff_eq] at recorded
        exact .inr ⟨_, rfl, rfl, rfl, recorded.2⟩

section

variable (validated : crossValidateMergedDocuments collection theirHash coll metaConflict mergedMap baseMap recheck
    existing = .ok entries)
include validated

theorem crossValidate_adds : ∃ found, entries = existing ++ found ∧ ∀ e ∈ found, e.typ = .validation := by
  unfold crossValidateMergedDocuments at validated
  split at validated
  · split at validated
    · cases validated
      exact ⟨[], (append_nil _).symm, fun _ absent => (nomatch absent)⟩
    · obtain ⟨found, folded, rfl⟩ := map_eq_ok.mp validated
      refine ⟨found, rfl, ?_⟩
      refine foldlM_keeps (fun found => ∀ e ∈ found, e.typ = .validation) ?_ folded fun _ absent => (nomatch absent)
      intro c _ found _ kinds step
      rcases validateChange_ok step with rfl | ⟨e, rfl, kind, -⟩
      · exact kinds
      · intro other member
        rcases mem_append.mp member with old | new
        · exact kinds other old
        · rw [mem_singleton.mp new]
          exact kind
  · cases validated
    exact ⟨[], (append_nil _).symm, fun _ absent => (nomatch absent)⟩

theorem crossValidate_distinct (distinct : (existing.map (·.id)).Nodup) : (entries.map (·.id)).Nodup := by
  unfold crossValidateMergedDocuments at validated
  split at validated
  · split at validated
    · cases validated
      exact distinct
    · obtain ⟨found, folded, rfl⟩ := map_eq_ok.mp validated
      have apart := changes_distinct baseMap mergedMap
      have kept := foldlM_sweep
        (fun passed found => (∀ e ∈ found, ∃ c ∈ passed, e.id = conflictID collection c.key theirHash) ∧
          ((existing ++ found).map (·.id)).Nodup) ?_ folded ⟨fun _ absent => (nomatch absent),
            by simpa using distinct⟩
      · exact kept.2
      · intro passed c rest found after split ⟨sourced, distinct⟩ step
        rw [← split] at apart
        rcases validateChange_ok step with rfl | ⟨e, rfl, -, named, fresh⟩
        · exact ⟨fun e member => (sourced e member).imp fun _ h => ⟨mem_append_left _ h.1, h.2⟩, distinct⟩
        · refine ⟨fun d member => ?_, ?_⟩
          · rcases mem_append.mp member with old | new
            · exact (sourced d old).imp fun _ h => ⟨mem_append_left _ h.1, h.2⟩
            · rw [mem_singleton.mp new]
              exact ⟨c, mem_append_right _ (.head _), named⟩
          · rw [← append_assoc]
            refine nodup_map_append distinct fun d member => ?_
            rcases mem_append.mp member with old | new
            · exact fresh d old
            · obtain ⟨before, inside, same⟩ := sourced d new
              intro clash
              rw [same, named] at clash
              exact (pairwise_append.mp apart).2.2 before inside c (.head _) (conflictID_injective clash)
  · cases validated
    exact distinct

end

end

def openOf (entries : List ConflictEntry) : List ConflictEntry := entries.filter fun e => !e.resolved

def openIDs (entries : List ConflictEntry) : List Bytes := (openOf entries).map (·.id)

theorem openIDs_sublist (entries : List ConflictEntry) : (openIDs entries).Sublist (entries.map (·.id)) :=
  filter_sublist.map _

theorem ids_markResolved (id : Bytes) (entries : List ConflictEntry) :
    (markResolved id entries).map (·.id) = entries.map (·.id) := by
  induction entries with
  | nil => rfl
  | cons e _ ih =>
    unfold markResolved
    split
    · rfl
    · rw [map_cons, map_cons, ih]

variable {id : Bytes} {entries : List ConflictEntry} {e : ConflictEntry} {d : Document} {w : ThreeWay}
  {c : Capture} {doc : Option Document}

section

variable (distinct : (entries.map (·.id)).Nodup)
include distinct

theorem openOf_markResolved : openOf (markResolved id entries) = (openOf entries).filter fun e => e.id != id := by
  induction entries with
  | nil => rfl
  | cons e rest ih =>
    rw [map_cons, nodup_cons] at distinct
    unfold markResolved
    by_cases here : e.id = id
    · -- no later entry has the id
      have others : ∀ other ∈ openOf rest, (other.id != id) = true := fun other member => by
        rw [bne_iff_ne]
        exact fun same => distinct.1 (here ▸ same ▸ mem_map_of_mem (mem_of_mem_filter member))
      have kept := filter_eq_self.mpr others
      cases state : e.resolved with
      | true
      | false => simpa [openOf, here, state] using kept.symm
    · have rest_ := ih distinct.2
      cases state : e.resolved with
      | true
      | false => simpa [openOf, here, state] using rest_

theorem openIDs_markResolved : openIDs (markResolved id entries) = (openIDs entries).erase id := by
  rw [((openIDs_sublist entries).nodup distinct).erase_eq_filter, openIDs, openOf_markResolved distinct, openIDs,
    filter_map]
  rfl

omit distinct in
theorem findTarget_ok {target : ConflictEntry}
    (found : findTarget entries id = .ok target) : target ∈ openOf entries ∧ target.id = id := by
  unfold findTarget at found
  split at found
  · cases found
  next _ here =>
    split at found
    · cases found
    next unresolved =>
      cases found
      refine ⟨mem_filter.mpr ⟨mem_of_find?_eq_some here, ?_⟩, by simpa using find?_some here⟩
      simpa using unresolved

theorem findTarget_of_open (open_ : e ∈ openOf entries) : findTarget entries e.id = .ok e := by
  obtain ⟨inside, unresolved⟩ := mem_filter.mp open_
  unfold findTarget
  cases found : entries.find? fun other => other.id == e.id with
  | none => exact absurd (by simp) (find?_eq_none.mp found e inside)
  | some target =>
    have same : target = e :=
      inj_on_of_nodup_map distinct (mem_of_find?_eq_some found) inside (by simpa using find?_some found)
    subst same
    rw [Bool.not_eq_true'] at unresolved
    simp [unresolved]

theorem resolves_all {order : List Bytes} (every : order.Perm (openIDs entries)) :
    ∃ after, order.foldlM resolveByID entries = .ok after ∧ hasUnresolvedConflicts after = false := by
  induction order generalizing entries with
  | nil =>
    refine ⟨entries, rfl, ?_⟩
    have none_ : openIDs entries = [] := nil_perm.mp every
    simpa [openIDs, openOf, hasUnresolvedConflicts] using none_
  | cons id order ih =>
    have open_ : id ∈ openIDs entries := every.subset (.head _)
    obtain ⟨target, inside, rfl⟩ := mem_map.mp open_
    have rest : order.Perm (openIDs (markResolved target.id entries)) := by
      rw [openIDs_markResolved distinct]
      exact (every.trans (perm_cons_erase open_)).cons_inv
    obtain ⟨after, folded, done⟩ := ih (by rw [ids_markResolved]; exact distinct) rest
    refine ⟨after, foldlM_cons_ok.mpr ⟨_, ?_, folded⟩, done⟩
    unfold resolveByID
    rw [findTarget_of_open distinct inside]
    rfl

end

/-! Who enters the list. -/

/-- Who claims keys, where also changes of into's alone may have been taken back. -/
def Contender (w : ThreeWay) (ours : Bool) (id : Bytes) (d : Document) : Prop :=
  Claimant w ours id d ∨ (ours = true ∧ w.diff id = some .leftChange ∧ (w.sides id).base = some d)

theorem rightChange_of_contender (contends : Contender w false id d) : w.diff id = some .rightChange := by
  rcases contends with (⟨loop, -⟩ | ⟨loop, -⟩ | ⟨-, theirs, -⟩) | ⟨loop, -⟩
  · cases loop
  · cases loop
  · exact theirs
  · cases loop

/-- A claim of a contender; from's are of documents already looked at that are not in conflict. -/
def OpenClaim (w : ThreeWay) (past : Bytes → Prop) (c : Capture) (ours : Bool) (id : Bytes)
    (d : Document) : Prop :=
  Contender w ours id d ∧ (ours = false → past id ∧ ∀ e ∈ c.entries, e.rawKey = id → table c.merged id = none)

theorem OpenClaim.record {past later : Bytes → Prop} {after : Capture} {ours : Bool}
    (claim : OpenClaim w past c ours id d)
    (wider : ∀ key, past key → later key) (merged : table after.merged = update (table c.merged) e.rawKey doc)
    (entries : after.entries = c.entries ++ [e]) (own : doc = none ∨ ¬ past e.rawKey) :
    OpenClaim w later after ours id d := by
  refine ⟨claim.1, fun theirs => ?_⟩
  obtain ⟨passed, free⟩ := claim.2 theirs
  refine ⟨wider id passed, fun other member named => ?_⟩
  rw [merged]
  by_cases here : id = e.rawKey
  · rcases own with gone | waiting
    · rw [here, update_self, gone]
    · exact absurd (here ▸ passed) waiting
  · rw [update_of_ne here]
    rw [entries] at member
    rcases mem_append.mp member with old | new
    · exact free other old named
    · rw [mem_singleton.mp new] at named
      exact absurd named.symm here

section
variable [Platform] [QueryEnv]

/-- The outcome of another document finds an entry of `key` in an index that starts as from's. -/
def Displaced (w : ThreeWay) (seeds : List Seed) (key : Bytes) : Prop :=
  ∃ seed ∈ seeds, seed.entry.info.unique = true ∧ seed.seedLeft = false ∧ ∃ other d, other ≠ key ∧
    w.touches false other = true ∧ w.alone other = some d ∧ ∃ row ∈ (indexEntriesForDoc d seed.entry.info).rows, key ∈
        RangeLookupCapped seed.entry.entries (EqualityProbeBounds row).1 (EqualityProbeBounds row).2 4

/-- The outcome of `key` finds an entry or a claim that it gives way to. -/
def MeetsSeeds (w : ThreeWay) (seeds : List Seed) (key : Bytes) : Prop :=
  ∃ seed ∈ seeds, seed.entry.info.unique = true ∧ ∃ d, w.touches seed.seedLeft key = true ∧ w.alone key = some d ∧
    ((seed.seedLeft = true ∧ ∃ row ∈ (indexEntriesForDoc d seed.entry.info).rows, ∃ id ∈
        RangeLookupCapped seed.entry.entries (EqualityProbeBounds row).1 (EqualityProbeBounds row).2 4, id ≠ key) ∨
      ∃ ours other e, other ≠ key ∧ Contender w ours other e ∧ (ours = true ∨ w.diff key = some .rightChange) ∧
        Shares seed.entry.info d e)

/-- No document can enter the list for two of three reasons: divergent edits, a claim that it gives
way to, a document that displaces it. -/
structure EntersOnce (w : ThreeWay) (seeds : List Seed) : Prop where
  kept : ∀ key, w.touches false key = true → ¬ Displaced w seeds key
  clear : ∀ key, w.diff key = some .conflict → ¬ MeetsSeeds w seeds key
  once : ∀ key, MeetsSeeds w seeds key → ¬ Displaced w seeds key

variable {w : ThreeWay} {seeds : List Seed} {V : Bool → Bytes → Document → Prop} {survivors : List IndexMergeSurvivor}
  {edit : MergeDocEdit} {key : Bytes} {loser : MergeLoser} {s : IndexMergeSurvivor}

theorem Claimed.mono {V' : Bool → Bytes → Document → Prop}
    (claimed : Claimed V seeds survivors) (weaker : ∀ ours id d, V ours id d → V' ours id d) :
    Claimed V' seeds survivors := by
  intro s member
  obtain ⟨seed, root, descends, sourced⟩ := claimed s member
  refine ⟨seed, root, descends, fun p owner held => ?_⟩
  obtain ⟨d, source, row⟩ := sourced p owner held
  exact ⟨d, weaker _ _ _ source, row⟩

theorem meets_of_incoming
    (claimed : Claimed V seeds survivors) (contend : ∀ ours id d, V ours id d → Contender w ours id d)
    (of : w.edit key = some edit) (member : s ∈ survivors)
    (lost : survivorLoser edit key s = some loser) (incoming : loser.incoming = true) :
    MeetsSeeds w seeds key := by
  obtain ⟨oldDoc, d, owner, exchanged, collision, ⟨-, -, cause⟩ | ⟨existing, -⟩⟩ := survivorLoser_some lost
  · obtain ⟨seed, root, unique, touched, outcome, differ, found⟩ :=
      collision_source claimed of member exchanged collision
    refine ⟨seed, root, unique, d, touched, outcome, ?_⟩
    rcases found with ⟨e, source, shares⟩ | ⟨side, row, rows, entry⟩
    · refine .inr ⟨owner.ours, owner.id, e, differ, contend _ _ _ source, ?_, shares⟩
      exact cause.symm.imp_right (incomingOurs_edit of).mp
    · refine .inl ⟨?_, row, rows, owner.id, entry, differ⟩
      rcases cause with theirs | ours
      · rw [ThreeWay.touches, (incomingOurs_edit of).mp theirs] at touched
        exact touched
      · exact side.symm.trans ours
  · cases incoming.symm.trans existing

theorem evicted_source (claimed : Claimed V seeds survivors) (of : w.edit key = some edit) (member : s ∈ survivors)
    (lost : survivorLoser edit key s = some loser) (existing : loser.incoming = false) :
    (∃ e, V false loser.id e) ∨ Displaced w seeds loser.id := by
  obtain ⟨oldDoc, d, owner, exchanged, collision, ⟨incoming, -⟩ | ⟨-, loses, ours, theirs⟩⟩ := survivorLoser_some lost
  · cases incoming.symm.trans existing
  · obtain ⟨seed, root, unique, touched, outcome, differ, found⟩ :=
      collision_source claimed of member exchanged collision
    rw [theirs] at found
    rcases found with ⟨e, source, -⟩ | ⟨side, row, rows, entry⟩
    · exact .inl ⟨e, loses ▸ source⟩
    · rw [← side] at touched
      exact .inr ⟨seed, root, unique, side.symm, key, d, fun same => differ (loses ▸ same.symm),
        touched, outcome, row,
        rows, loses ▸ entry⟩

/-- The list while the merge goes on; `past` are the keys that had their turn. -/
structure Once (w : ThreeWay) (seeds : List Seed) (past : Bytes → Prop) (c : Capture) : Prop where
  claimed : Claimed (OpenClaim w past c) seeds c.survivors
  distinct : (c.entries.map (·.rawKey)).Nodup
  entered : ∀ e ∈ c.entries, past e.rawKey ∨ Displaced w seeds e.rawKey
  placed : ∀ e ∈ c.entries, table c.merged e.rawKey = none ∨ ¬ Displaced w seeds e.rawKey

theorem Once.start (w : ThreeWay) (seeds : List Seed) :
    Once w seeds (· ∈ []) ⟨w.fromColl.docs, openSurvivors seeds, []⟩ :=
  ⟨Claimed.start _ seeds, nodup_nil, fun _ absent => (nomatch absent), fun _ absent => (nomatch absent)⟩

variable {past later : Bytes → Prop} {c after : Capture} {key : Bytes}

section

variable (once : Once w seeds past c)
include once

theorem Once.wider (wider : ∀ id, past id → later id) : Once w seeds later c :=
  { once with
    claimed := once.claimed.mono fun _ _ _ claim => ⟨claim.1, fun theirs => (claim.2 theirs).imp_left (wider _)⟩
    entered := fun e member => (once.entered e member).imp_left (wider _) }

theorem Once.record (wider : ∀ key, past key → later key)
    (merged : table after.merged = update (table c.merged) e.rawKey doc)
    (entries : after.entries = c.entries ++ [e]) (fresh : ∀ old ∈ c.entries, old.rawKey ≠ e.rawKey)
    (enters : later e.rawKey ∨ Displaced w seeds e.rawKey) (place : doc = none ∨ ¬ Displaced w seeds e.rawKey)
    (claimed : Claimed (OpenClaim w later after) seeds after.survivors) : Once w seeds later after := by
  refine ⟨claimed, ?_, ?_, ?_⟩
  · rw [entries]
    exact nodup_map_append once.distinct fresh
  · rw [entries]
    intro other member
    rcases mem_append.mp member with old | new
    · exact (once.entered other old).imp_left (wider _)
    · rw [mem_singleton.mp new]
      exact enters
  · rw [entries, merged]
    intro other member
    rcases mem_append.mp member with old | new
    · rw [update_of_ne (fresh other old)]
      exact once.placed other old
    · rw [mem_singleton.mp new, update_self]
      exact place

variable [ConflictHash]

theorem Once.stage (enters : EntersOnce w seeds) (turn : ¬ past key) :
    Once w seeds (fun id => past id ∨ (id = key ∧ w.diff key = some .conflict)) (staged w key c) := by
  rcases staged_entries w key c with same | ⟨report, more⟩
  · refine ⟨?_, ?_, ?_, ?_⟩
    · rw [staged_survivors]
      refine once.claimed.mono fun ours id d ⟨contends, open_⟩ => ⟨contends, fun theirs => ?_⟩
      subst theirs
      have elsewhere : table (staged w key c).merged id = table c.merged id :=
        staged_elsewhere (fun here => by rw [← here, ThreeWay.touches, rightChange_of_contender contends]) c
      rw [same, elsewhere]
      exact ⟨.inl (open_ rfl).1, (open_ rfl).2⟩
    · rw [same]
      exact once.distinct
    · rw [same]
      exact fun e member => (once.entered e member).imp_left .inl
    · rw [same]
      intro e member
      by_cases own : e.rawKey = key ∧ w.touches false key = true
      · exact .inr (own.1 ▸ enters.kept key own.2)
      · rw [staged_elsewhere fun here => Bool.eq_false_iff.mpr fun touched => own ⟨here, touched⟩]
        exact once.placed e member
  · have touched : w.touches false key = true := by rw [ThreeWay.touches, report]; rfl
    have merged : table (staged w key c).merged = update (table c.merged) key (w.alone key) := by
      rw [staged_merged, touched, if_pos rfl]
    refine once.record (fun _ => .inl) merged more ?_ (.inl (.inr ⟨rfl, report⟩)) (.inr (enters.kept key touched)) ?_
    · intro e member here
      exact (here ▸ once.entered e member).elim turn (enters.kept key touched)
    · rw [staged_survivors]
      exact once.claimed.mono fun _ _ _ claim => claim.record (fun _ => .inl) merged more (.inr turn)

theorem Once.evict {loserDoc : Document} (stored : table c.merged loser.id = some loserDoc)
    (source : (∃ e, OpenClaim w past c false loser.id e) ∨ Displaced w seeds loser.id) :
    Once w seeds past (evictExisting w edit key loser loserDoc c) := by
  have merged : table (evictExisting w edit key loser loserDoc c).merged =
      update (table c.merged) loser.id none := table_erase ..
  refine once.record (fun _ => id) merged rfl ?_ ?_ (.inl rfl) ?_
  · intro e member here
    have here : e.rawKey = loser.id := here
    rcases source with ⟨d, claim⟩ | displaced
    · rw [(claim.2 rfl).2 e member here] at stored
      cases stored
    · rcases once.placed e member with gone | apart
      · rw [here, stored] at gone
        cases gone
      · exact apart (here ▸ displaced)
  · exact source.imp_left fun ⟨_, claim⟩ => (claim.2 rfl).1
  · exact (once.claimed.mono fun _ _ _ claim =>
      claim.record (fun _ => id) merged rfl (.inl rfl)).remove _ _

theorem Once.revert (wider : ∀ id, past id → later id) (had : later key)
    (turn : ¬ past key) (apart : ¬ Displaced w seeds key) (of : w.edit key = some edit)
    (clear : w.diff key ≠ some .conflict) (loser : MergeLoser) :
    Once w seeds later (revertIncoming w edit key loser c) := by
  have merged : table (revertIncoming w edit key loser c).merged =
      update (table c.merged) key edit.base := table_putDoc ..
  refine once.record wider merged rfl ?_ (.inl had) (.inr apart) ?_
  · intro e member here
    exact (here ▸ once.entered e member).elim turn apart
  · have before : Claimed (OpenClaim w later (revertIncoming w edit key loser c)) seeds c.survivors :=
      once.claimed.mono fun _ _ _ claim => claim.record
        (e := incomingEntry w edit key loser) wider merged rfl (.inr turn)
    refine before.revert loser fun d back => ⟨?_, fun loop => (nomatch loop)⟩
    unfold ThreeWay.edit at of
    cases report : w.diff key with
    | none => simp [report] at of
    | some kind =>
      rw [report] at of clear
      cases kind with
      | leftChange => cases of; exact .inr ⟨rfl, report, back⟩
      | rightChange => cases of; exact .inl (.inr (.inl ⟨rfl, report, back⟩))
      | convergent => cases of
      | conflict => exact absurd rfl clear
      | resolved _ => cases of; cases back

end

variable [ConflictHash]

theorem Once.step {done : List Bytes} (once : Once w seeds (· ∈ done) c) (enters : EntersOnce w seeds)
    (turn : key ∉ done) (stepped : captureStep w c key = .ok after) : Once w seeds (· ∈ done ++ [key]) after := by
  have wider (id : Bytes) (had : id ∈ done ∨ (id = key ∧ w.diff key = some .conflict)) : id ∈ done ++ [key] :=
    had.elim (mem_append_left _) fun own => own.1 ▸ mem_append_right _ (.head _)
  have now : key ∈ done ++ [key] := mem_append_right _ (.head _)
  have start := once.stage enters turn
  rw [captureStep_eq] at stepped
  cases of : w.edit key with
  | none =>
    rw [of] at stepped
    cases stepped
    rw [staged_of_no_edit of] at start
    exact start.wider wider
  | some edit =>
    rw [of] at stepped
    refine applyIndexEdit_rule (Once w seeds _) (Once w seeds (· ∈ done ++ [key])) ?_ ?_ ?_ start stepped
    · intro c s member loser _ once lost existing stored
      exact once.evict stored (evicted_source once.claimed of member lost existing)
    · intro c once _
      have claims (d : Document) (outcome : w.alone key = some d) :
          OpenClaim w (· ∈ done ++ [key]) c edit.incomingOurs key d := by
        refine ⟨.inl (claimant_of_edit of outcome), fun theirs => ⟨now, fun e member here => ?_⟩⟩
        have report := (incomingOurs_edit of).mp theirs
        rcases here ▸ once.entered e member with (before | own) | displaced
        · exact absurd before turn
        · exact nomatch report.symm.trans own.2
        · exact (here ▸ once.placed e member).resolve_right fun apart => apart displaced
      have once := once.wider wider
      refine { once with claimed := once.claimed.exchange fun s member oldDoc d exchanged => ?_ }
      rw [perSurvivor_edit of] at exchanged
      split at exchanged
      · exact claims d (Prod.mk.inj (Option.some.inj exchanged)).2
      · cases exchanged
    · intro c s member loser once lost incoming
      have meets := meets_of_incoming once.claimed (fun _ _ _ claim => claim.1) of member lost incoming
      have clear : w.diff key ≠ some .conflict := fun report => enters.clear key report meets
      refine once.revert wider now ?_ (enters.once key meets) of clear loser
      exact fun had => had.elim turn fun own => clear own.2

theorem Clean.distinct {done : List Bytes} (clean : Clean w seeds done c) (once : done.Nodup) :
    (c.entries.map (·.rawKey)).Nodup := by
  rw [clean.entries, map_map]
  exact (once.filter _).map fun _ _ same => same

theorem captured_distinct (enters : NoKeyMet w seeds ∨ EntersOnce w seeds)
    (captured : captureConflictsForCollection w (openSurvivors seeds) = .ok c) :
    (c.entries.map (·.rawKey)).Nodup := by
  rcases enters with unmet | enters
  · exact (clean_of_no_key_met unmet captured).distinct w.keys_nodup
  · refine (foldlM_sweep (fun done c => Once w seeds (· ∈ done) c) ?_ captured (Once.start w seeds)).distinct
    intro done key _ c _ split once stepped
    exact once.step enters (fresh_of_sweep split) stepped

/-- The id of an entry is made of its document, whatever recorded it. -/
def Named (w : ThreeWay) (c : Capture) : Prop :=
  ∀ e ∈ c.entries, e.id = conflictID w.collection e.rawKey w.theirHash

omit [Platform] [QueryEnv] in
theorem Named.append (named : Named w c) (own : e.id = conflictID w.collection e.rawKey w.theirHash) :
    ∀ other ∈ c.entries ++ [e], other.id = conflictID w.collection other.rawKey w.theirHash := by
  intro other member
  rcases mem_append.mp member with old | new
  · exact named other old
  · rw [mem_singleton.mp new]
    exact own

theorem captured_named (captured : captureConflictsForCollection w (openSurvivors seeds) = .ok c) :
    c.entries.map (·.id) = (c.entries.map (·.rawKey)).map fun key => conflictID w.collection key w.theirHash := by
  rw [map_map]
  refine map_congr_left ?_
  refine foldlM_keeps (Named w) (fun key _ c mid named stepped => ?_) captured (fun _ absent => (nomatch absent))
  rw [captureStep_eq] at stepped
  split at stepped
  · cases stepped
    exact named
  · refine applyIndexEdit_rule (Named w) (Named w) (fun c _ _ _ _ named _ _ _ => named.append rfl)
      (fun _ named _ => named) (fun c _ _ _ named _ _ => named.append rfl) ?_ stepped
    intro e member
    rcases staged_entries w key c with same | ⟨-, more⟩
    · exact named e (same ▸ member)
    · exact named.append rfl e (more ▸ member)

variable [ValidatorMatcher]

/-- The states of a paused merge: validated at first, then resolved and rechecked, the recheck with
the documents, the metadata and the commit of its time. -/
inductive Paused (w : ThreeWay) (coll : CollValidation) (metaConflict : Option Bool) (c : Capture) :
    List ConflictEntry → Prop
  | validated {entries : List ConflictEntry} :
      crossValidateMergedDocuments w.collection w.theirHash coll metaConflict c.merged w.baseColl.docs false c.entries =
        .ok entries → Paused w coll metaConflict c entries
  | resolved {entries after : List ConflictEntry} {id : Bytes} : Paused w coll metaConflict c entries →
      resolveByID entries id = .ok after → Paused w coll metaConflict c after
  | rechecked {entries after : List ConflictEntry} {fromHash : Bytes} {coll' : CollValidation}
      {metaConflict' : Option Bool} {mergedMap : Std.TreeMap Bytes Document} :
      Paused w coll metaConflict c entries →
      crossValidateMergedDocuments w.collection fromHash coll' metaConflict' mergedMap w.baseColl.docs true entries =
        .ok after → Paused w coll metaConflict c after

/-- Different ids, and every order of resolving the open conflicts leaves none. -/
def Resolvable (entries : List ConflictEntry) : Prop :=
  (entries.map (·.id)).Nodup ∧ ∀ order : List Bytes, order.Perm (openIDs entries) →
    ∃ after, order.foldlM resolveByID entries = .ok after ∧ hasUnresolvedConflicts after = false

omit [Platform] [QueryEnv] in
theorem Paused.distinct {coll : CollValidation} {metaConflict : Option Bool} {entries : List ConflictEntry}
    (paused : Paused w coll metaConflict c entries) (once : (c.entries.map (·.id)).Nodup) :
    (entries.map (·.id)).Nodup := by
  induction paused with
  | validated pass => exact crossValidate_distinct pass once
  | resolved _ marked ih =>
    obtain ⟨_, -, rfl⟩ := map_eq_ok.mp marked
    rw [ids_markResolved]
    exact ih
  | rechecked _ pass ih => exact crossValidate_distinct pass ih

end

abbrev rejectsAll : ValidatorMatcher := ⟨fun _ _ => .ok false⟩

abbrev validated : CollValidation := ⟨some [], false, false⟩

/-- Into sets `a` of `{_id: 2, a: 0}` to `2` and inserts `{_id: 1, a: 1}`; from sets `a` to `1`. -/
abbrev divergesAndMeets : ThreeWay :=
  merging (uniqueA [.insertAll [keyedDoc 2 0], .updateAll [keyedDoc 2 2], .insertAll [keyedDoc 1 1]])
    (uniqueA [.insertAll [keyedDoc 2 0], .updateAll [keyedDoc 2 1]]) (uniqueA [.insertAll [keyedDoc 2 0]])

end DumboDB.Dolt
