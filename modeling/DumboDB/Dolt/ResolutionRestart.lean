import DumboDB.Dolt.MergeResolvable
import DumboDB.Dolt.ResolutionIndexes

/-!
A paused operation that is restarted: where all its conflicts are divergent edits and theirs is the
commit that the artifacts name, what is rebuilt are the open conflicts, and every sequence of
resolutions comes to the same collection.
-/

namespace DumboDB.Dolt
open Foundation ByteOrder DumboDB.Types Index Handler Fallible Function List Std

variable {β : Type} {e f : ConflictEntry}

theorem toList_eq_of_sorted {m : TreeMap Bytes β} {list : List (Bytes × β)}
    (sorted : list.Pairwise fun a b => compare a.1 b.1 = .lt) (same : ∀ p, p ∈ list ↔ m[p.1]? = some p.2) :
    m.toList = list := by
  have ordered := TreeMap.ordered_keys_toList (t := m)
  have distinct {l : List (Bytes × β)} (sorted : l.Pairwise fun a b => compare a.1 b.1 = .lt) : l.Nodup := by
    refine sorted.imp fun less same => ?_
    rw [same, Std.compare_self] at less
    cases less
  refine List.Perm.eq_of_pairwise ?_ ordered sorted ?_
  · intro a b _ _ less greater
    exact absurd greater (OrientedCmp.not_lt_of_lt less)
  · refine (perm_ext_iff_of_nodup (distinct ordered) (distinct sorted)).mpr fun p => ?_
    rw [same p]
    exact TreeMap.mem_toList_iff_getElem?_eq_some

structure SameConflict (e f : ConflictEntry) : Prop where
  id : e.id = f.id
  typ : e.typ = f.typ
  rawKey : e.rawKey = f.rawKey
  oursKey : e.oursKey = f.oursKey
  base : e.base = f.base
  ours : e.ours = f.ours
  theirs : e.theirs = f.theirs

theorem SameConflict.symm (same : SameConflict e f) : SameConflict f e :=
  ⟨same.id.symm, same.typ.symm, same.rawKey.symm, same.oursKey.symm, same.base.symm, same.ours.symm, same.theirs.symm⟩

theorem exists_twin {α : Type} {R : α → β → Prop} {list : List α} {others : List β}
    (related : List.Forall₂ R list others)
    {a : α} (member : a ∈ list) : ∃ b ∈ others, R a b := by
  induction related with
  | nil => cases member
  | cons first _ ih =>
    rcases mem_cons.mp member with rfl | later
    · exact ⟨_, .head _, first⟩
    · obtain ⟨b, inside, twin⟩ := ih later
      exact ⟨b, .tail _ inside, twin⟩

/-! Resolving after the restart. -/

/-- The same table, and the same open conflicts under different ids. -/
structure SameOpen (ms other : MergeInProgress) : Prop where
  dtbl : ms.dtbl = other.dtbl
  conflicts : List.Forall₂ SameConflict (openOf ms.conflicts) (openOf other.conflicts)
  left : (ms.conflicts.map (·.id)).Nodup
  right : (other.conflicts.map (·.id)).Nodup

theorem SameOpen.symm {ms other : MergeInProgress} (same : SameOpen ms other) : SameOpen other ms :=
  ⟨same.dtbl.symm, same.conflicts.flip.imp fun _ _ => SameConflict.symm, same.right, same.left⟩

section
variable [Platform] [QueryEnv] [Digest] [ValidatorMatcher] {op : Operation} {coll : CollValidation}

theorem resolvedCollection_same (same : SameConflict e f) (coll : CollValidation)
    (c : Collection) (params : ResolveConflictParams) :
    resolvedCollection coll c e params = resolvedCollection coll c f params := by
  unfold resolvedCollection resolutionResultDoc resolveDataChoice swapWinner
  rw [same.typ, same.rawKey, same.oursKey, same.ours, same.theirs]

theorem SameOpen.step {ms other after : MergeInProgress} (same : SameOpen ms other) {params : ResolveConflictParams}
    (resolved : DumboDBResolveConflict op coll ms params = .ok after) :
    ∃ after', DumboDBResolveConflict op coll other params = .ok after' ∧ SameOpen after after' := by
  unfold DumboDBResolveConflict at resolved
  split at resolved
  · cases resolved
  next _ found =>
    obtain ⟨written, done, rfl⟩ := map_eq_ok.mp resolved
    obtain ⟨open_, named⟩ := findTarget_ok found
    obtain ⟨twin, inside, alike⟩ := exists_twin same.conflicts open_
    have reached : findTarget other.conflicts params.conflictID = .ok twin := by
      rw [← named, alike.id]
      exact findTarget_of_open same.right inside
    have table_ : ms.coll = other.coll ∧ ms.artifacts = other.artifacts := by
      unfold MergeInProgress.coll MergeInProgress.artifacts
      rw [same.dtbl]
      exact ⟨rfl, rfl⟩
    rw [resolvedCollection_same alike, table_.1] at done
    unfold DumboDBResolveConflict
    rw [reached]
    refine ⟨_, map_eq_ok.mpr ⟨written, done, rfl⟩, ?_, ?_, ?_, ?_⟩
    · rw [table_.1, table_.2, alike.rawKey]
    · rw [openOf_markResolved same.left, openOf_markResolved same.right]
      refine rel_filter (fun e f twins => ?_) same.conflicts
      dsimp only
      rw [twins.id]
    · rw [ids_markResolved]
      exact same.left
    · rw [ids_markResolved]
      exact same.right

/-- The table after some resolutions; none when one of them fails. -/
def outcome (op : Operation) (coll : CollValidation) (ms : MergeInProgress) (steps : List ResolveConflictParams) :
    Option (Option Dtbl) :=
  (steps.foldlM (DumboDBResolveConflict op coll) ms).toOption.map fun after => after.dtbl

theorem SameOpen.run {ms other after : MergeInProgress} {steps : List ResolveConflictParams}
    (same : SameOpen ms other)
    (ran : steps.foldlM (DumboDBResolveConflict op coll) ms = .ok after) :
    ∃ after', steps.foldlM (DumboDBResolveConflict op coll) other = .ok after' ∧ SameOpen after after' := by
  induction steps generalizing ms other with
  | nil =>
    cases ran
    exact ⟨other, rfl, same⟩
  | cons _ steps ih =>
    obtain ⟨_, first, rest⟩ := foldlM_cons_ok.mp ran
    obtain ⟨mid', first', kept⟩ := same.step first
    obtain ⟨after', rest', done⟩ := ih kept rest
    exact ⟨after', foldlM_cons_ok.mpr ⟨mid', first', rest'⟩, done⟩

theorem SameOpen.outcome {ms other : MergeInProgress} (same : SameOpen ms other)
    (steps : List ResolveConflictParams) :
    outcome op coll ms steps = outcome op coll other steps := by
  unfold Dolt.outcome
  cases ran : steps.foldlM (DumboDBResolveConflict op coll) ms with
  | ok after =>
    obtain ⟨after', ran', kept⟩ := same.run ran
    rw [ran']
    exact congrArg some kept.dtbl
  | error _ =>
    cases ran' : steps.foldlM (DumboDBResolveConflict op coll) other with
    | error _ => rfl
    | ok after' =>
      obtain ⟨after, again, -⟩ := same.symm.run ran'
      exact nomatch ran.symm.trans again

end

/-! What the artifacts keep. -/

def Operation.mark (op : Operation) : Artifact := ⟨op.theirHash, op.baseHash⟩

theorem getElem?_buildConflictArtifacts (op : Operation) (entries : List ConflictEntry) (key : Bytes) (a : Artifact) :
    (buildConflictArtifacts op entries)[key]? = some a ↔ a = op.mark ∧ ∃ e ∈ entries, e.rawKey = key := by
  have from_ (m : TreeMap Bytes Artifact) :
      (entries.foldl (fun artifacts e => artifacts.insert e.rawKey op.mark) m)[key]? = some a ↔
        (a = op.mark ∧ ∃ e ∈ entries, e.rawKey = key) ∨ ((∀ e ∈ entries, e.rawKey ≠ key) ∧ m[key]? = some a) := by
    induction entries generalizing m with
    | nil => simp
    | cons e entries ih =>
      rw [foldl_cons, ih, TreeMap.getElem?_insert]
      by_cases here : e.rawKey = key
      · by_cases later : ∃ e ∈ entries, e.rawKey = key
        · simp [here, later]
        · have none_ : ∀ e ∈ entries, e.rawKey ≠ key := fun e member same => later ⟨e, member, same⟩
          simp [here, later, eq_comm (a := a)]
          exact fun _ => none_
      · simp [here]
  refine (from_ ∅).trans ?_
  simp

section
variable [ConflictHash] {op : Operation}

/-- The open conflicts are those that their artifacts, the commits and the working root give. -/
structure Restorable (op : Operation) (ms : MergeInProgress) : Prop where
  ids : (ms.conflicts.map (·.id)).Nodup
  sorted : (openOf ms.conflicts).Pairwise fun e f => compare e.rawKey f.rawKey = .lt
  marked : ∀ key a, ms.artifacts[key]? = some a ↔ a = op.mark ∧ ∃ e ∈ openOf ms.conflicts, e.rawKey = key
  rebuilt : ∀ e ∈ openOf ms.conflicts, SameConflict e (entryFromArtifact op ms.coll.docs e.rawKey op.mark)

variable {ms : MergeInProgress} {c : Capture} {w : ThreeWay}

section

variable (restorable : Restorable op ms)
include restorable

theorem Restorable.conflicts : List.Forall₂ SameConflict (openOf ms.conflicts)
    (mergeStateFromWS op ms).conflicts := by
  have listed : ms.artifacts.toList = (openOf ms.conflicts).map fun e => (e.rawKey, op.mark) := by
    refine toList_eq_of_sorted (pairwise_map.mpr restorable.sorted) fun p => ?_
    rw [restorable.marked, mem_map]
    constructor
    · rintro ⟨e, member, rfl⟩
      exact ⟨rfl, e, member, rfl⟩
    · rintro ⟨same, e, member, named⟩
      exact ⟨e, member, Prod.ext named same.symm⟩
  unfold mergeStateFromWS loadConflictEntriesFromArtifacts
  rw [listed, map_map, List.forall₂_map_right_iff, List.forall₂_same]
  exact restorable.rebuilt

theorem Restorable.sameOpen : SameOpen ms (mergeStateFromWS op ms) := by
  have conflicts := restorable.conflicts
  have fresh : openOf (mergeStateFromWS op ms).conflicts = (mergeStateFromWS op ms).conflicts := by
    refine filter_eq_self.mpr fun e member => ?_
    obtain ⟨p, -, rfl⟩ := mem_map.mp member
    rfl
  have ids : (openOf ms.conflicts).map (·.id) = (mergeStateFromWS op ms).conflicts.map (·.id) := by
    rw [← List.forall₂_eq_eq_eq, List.forall₂_map_left_iff, List.forall₂_map_right_iff]
    exact conflicts.imp fun _ _ same => same.id
  refine ⟨rfl, fresh.symm ▸ conflicts, restorable.ids, ?_⟩
  rw [← ids]
  exact (openIDs_sublist ms.conflicts).nodup restorable.ids

theorem Restorable.id_iff (left : e ∈ openOf ms.conflicts) (right : f ∈ openOf ms.conflicts) :
    e.id = f.id ↔ e.rawKey = f.rawKey := by
  rw [(restorable.rebuilt e left).id, (restorable.rebuilt f right).id]
  exact ⟨conflictID_injective, fun same => congrArg (conflictID op.collection · op.theirHash) same⟩

end

theorem Restorable.resolve {after : MergeInProgress} (restorable : Restorable op ms) {target : ConflictEntry}
    (open_ : target ∈ openOf ms.conflicts) (conflicts : after.conflicts = markResolved target.id ms.conflicts)
    (artifacts : after.artifacts = removeConflictArtifact op ms.artifacts target.rawKey)
    (docs : ∀ key, key ≠ target.rawKey → after.coll.docs[key]? = ms.coll.docs[key]?) : Restorable op after := by
  have left : openOf after.conflicts = (openOf ms.conflicts).filter fun e => e.id != target.id := by
    rw [conflicts]
    exact openOf_markResolved restorable.ids
  have member {e : ConflictEntry} : e ∈ openOf after.conflicts ↔ e ∈ openOf ms.conflicts ∧ e.id ≠ target.id := by
    rw [left, mem_filter, bne_iff_ne]
  have here := (restorable.marked target.rawKey op.mark).mpr ⟨rfl, target, open_, rfl⟩
  have erased : after.artifacts = ms.artifacts.erase target.rawKey := by
    rw [artifacts, removeConflictArtifact, here]
    exact if_pos rfl
  refine ⟨?_, ?_, ?_, ?_⟩
  · rw [conflicts, ids_markResolved]
    exact restorable.ids
  · rw [left]
    exact restorable.sorted.filter _
  · intro key a
    rw [erased, TreeMap.getElem?_erase]
    split
    next same =>
      rw [Std.compare_eq_iff_eq] at same
      refine ⟨fun absent => (nomatch absent), ?_⟩
      rintro ⟨-, e, inside, named⟩
      obtain ⟨before, differ⟩ := member.mp inside
      exact absurd ((restorable.id_iff before open_).mpr (named.trans same.symm)) differ
    next other =>
      rw [restorable.marked]
      refine and_congr_right fun _ => exists_congr fun e => ?_
      rw [member, and_assoc]
      refine and_congr_right fun before => ⟨fun named => ⟨fun same => other ?_, named⟩, And.right⟩
      rw [Std.compare_eq_iff_eq, ← (restorable.id_iff before open_).mp same]
      exact named
  · intro e inside
    obtain ⟨before, differ⟩ := member.mp inside
    have same := restorable.rebuilt e before
    have elsewhere := docs e.rawKey fun same => differ ((restorable.id_iff before open_).mpr same)
    unfold entryFromArtifact at same ⊢
    rw [elsewhere]
    exact same

theorem Restorable.settled (ids : (ms.conflicts.map (·.id)).Nodup)
    (none_ : openOf ms.conflicts = []) (bare : ms.dtbl = none) : Restorable op ms := by
  refine ⟨ids, none_ ▸ .nil, fun key a => ?_, fun e member => ?_⟩
  · unfold MergeInProgress.artifacts
    rw [bare, none_]
    simp
  · rw [none_] at member
    cases member

/-- The conflicts of a merge without collisions are its divergent edits, for which ours is kept. -/
structure OnlyEdits (w : ThreeWay) (done : List Bytes) (c : Capture) : Prop where
  entries : c.entries = (done.filter fun key => w.diff key = some .conflict).map (documentEditEntry w)
  ours : ∀ key ∈ done, w.diff key = some .conflict → table c.merged key = (w.sides key).left

theorem OnlyEdits.stage {done : List Bytes} {key : Bytes} (edits : OnlyEdits w done c)
    (turn : key ∉ done) : OnlyEdits w (done ++ [key]) (staged w key c) := by
  constructor
  · rw [filter_append, map_append, ← edits.entries]
    unfold staged
    cases report : w.diff key with
    | none => simp [report]
    | some kind => cases kind <;> simp [report]
  · intro id passed report
    rcases mem_append.mp passed with before | now
    · have elsewhere : id = key → w.touches false key = false := fun same => absurd (same ▸ before) turn
      rw [staged_elsewhere elsewhere]
      exact edits.ours id before report
    · obtain rfl := mem_singleton.mp now
      have touched : w.touches false id = true := by rw [ThreeWay.touches, report]; rfl
      rw [staged_merged, touched, if_pos rfl, update_self, ThreeWay.alone, report]

theorem onlyEdits_of_clear [Platform] [QueryEnv] {survivors : List IndexMergeSurvivor}
    (captured : captureConflictsForCollection w survivors = .ok c)
    (clear : ∀ e ∈ c.entries, e.typ ≠ .uniqueKeyCollision) : OnlyEdits w w.keys c := by
  have ordered := w.keys_ordered
  -- entries are never taken back, so the condition holds of every state on the way
  refine foldlM_sweep (fun done c => (∀ e ∈ c.entries, e.typ ≠ .uniqueKeyCollision) → OnlyEdits w done c) ?_ captured
    (fun _ => ⟨rfl, fun _ absent => (nomatch absent)⟩) clear
  intro done key _ c _ split before stepped clear
  have turn : key ∉ done := fun early => by
    rw [← split] at ordered
    have less := (pairwise_append.mp ordered).2.2 key early key (.head _)
    rw [Std.compare_self] at less
    cases less
  have edits := (before fun e member => clear e (captureStep_entries stepped member)).stage turn
  obtain ⟨merged, entries⟩ := captureStep_clear stepped clear
  exact ⟨entries ▸ edits.entries, merged ▸ edits.ours⟩

section
variable [Platform] [QueryEnv] [ValidatorMatcher] {coll : CollValidation} {metaConflict : Option Bool}

theorem restorable_of_paused [CollationIdentity] {start : MergeInProgress} (kind : op.kind ≠ .rebase)
    (stopped : pauseOn op coll metaConflict = .ok start) (edits : ∀ e ∈ start.conflicts, e.typ = .documentEdit) :
    Restorable op start := by
  unfold pauseOn mergeCollectionDTBL at stopped
  cases merged : mergeCollection op.threeWay with
  | error _ => rw [merged] at stopped; cases stopped
  | ok c =>
    rw [merged] at stopped
    dsimp only [Except.map] at stopped
    split at stopped
    · cases stopped
    next _ validated =>
      cases stopped
      obtain ⟨found, rfl, kinds⟩ := crossValidate_adds validated
      have none_ : found = [] := eq_nil_iff_forall_not_mem.mpr fun e member =>
        nomatch (kinds e member).symm.trans (edits e (mem_append_right _ member))
      subst none_
      rw [append_nil] at edits
      obtain ⟨_, -, captured⟩ := bind_eq_ok.mp merged
      obtain ⟨entries, ours⟩ := onlyEdits_of_clear captured fun e member => by rw [edits e member]; exact nofun
      have fresh : openOf c.entries = c.entries := by
        refine filter_eq_self.mpr fun e member => ?_
        rw [entries] at member
        obtain ⟨key, -, rfl⟩ := mem_map.mp member
        rfl
      have sorted : c.entries.Pairwise fun e f => compare e.rawKey f.rawKey = .lt := by
        rw [entries, pairwise_map]
        exact op.threeWay.keys_ordered.filter _
      have source {e : ConflictEntry} (member : e ∈ c.entries) :
          e = documentEditEntry op.threeWay e.rawKey ∧
            table c.merged e.rawKey = (op.threeWay.sides e.rawKey).left := by
        rw [entries] at member
        obtain ⟨key, inside, rfl⟩ := mem_map.mp member
        obtain ⟨listed, report⟩ := mem_filter.mp inside
        exact ⟨rfl, ours key listed (of_decide_eq_true report)⟩
      refine ⟨?_, ?_, ?_, ?_⟩
      · rw [append_nil]
        refine pairwise_map.mpr (sorted.imp_of_mem fun left right less same => ?_)
        rw [(source left).1, (source right).1] at same
        rw [conflictID_injective same, Std.compare_self] at less
        cases less
      · rw [append_nil, fresh]
        exact sorted
      · rw [append_nil, fresh]
        exact getElem?_buildConflictArtifacts op c.entries
      · rw [append_nil, fresh]
        intro e member
        obtain ⟨made, kept⟩ := source member
        rw [made]
        refine ⟨rfl, rfl, rfl, rfl, rfl, kept.symm, ?_⟩
        have side : op.threeWay.fromColl = op.collAt op.theirHash := if_neg kind
        show op.threeWay.fromColl.docs[e.rawKey]? = valueAtCommit op op.theirHash e.rawKey
        rw [side]
        rfl

variable [Digest]

/-- A resolution does not delete the last document while another conflict is open. -/
def KeepsTable (ms : MergeInProgress) (params : ResolveConflictParams) : Prop :=
  ∀ target, findTarget ms.conflicts params.conflictID = .ok target → params.resolution ≠ .ours →
    chosenDoc target params = none →
      (∃ key d, key ≠ target.rawKey ∧ table ms.coll.docs key = some d) ∨ ∀ e ∈ openOf ms.conflicts, e.id = target.id

theorem Restorable.step {ms after : MergeInProgress} (restorable : Restorable op ms) {params : ResolveConflictParams}
    (keeps : KeepsTable ms params) (resolved : DumboDBResolveConflict op coll ms params = .ok after) :
    Restorable op after := by
  obtain ⟨target, found, conflicts, written⟩ := resolveConflict_ok resolved
  obtain ⟨open_, named⟩ := findTarget_ok found
  rw [← named] at conflicts
  rcases written with ⟨-, same, artifacts⟩ | ⟨other, c, applied, stored⟩
  · exact restorable.resolve open_ conflicts artifacts fun key _ => by rw [same]
  · have single : swapWinner target params = none := by
      unfold swapWinner
      rw [(restorable.rebuilt target open_).typ]
      exact if_neg fun swap => (nomatch swap.1)
    have docs := applyChosen_docs applied
    rw [single] at docs
    have elsewhere (key : Bytes) (differ : key ≠ target.rawKey) : table c.docs key = table ms.coll.docs key := by
      rw [docs, table_putDoc, update_of_ne differ]
      rfl
    rcases stored with ⟨empty, gone⟩ | there
    · have bare (key : Bytes) : table c.docs key = none := TreeMap.getElem?_of_isEmpty empty
      have deleted : chosenDoc target params = none := by
        have here := bare target.rawKey
        rwa [docs, table_putDoc, update_self] at here
      refine .settled ?_ ?_ gone
      · rw [conflicts, ids_markResolved]
        exact restorable.ids
      · rw [conflicts, openOf_markResolved restorable.ids]
        rcases keeps target found other deleted with ⟨key, d, differ, held⟩ | last
        · rw [← elsewhere key differ, bare key] at held
          cases held
        · exact filter_eq_nil_iff.mpr fun e member => by rw [last e member, bne_self_eq_false]; exact nofun
    · refine restorable.resolve open_ conflicts ?_ fun key differ => ?_
      · unfold MergeInProgress.artifacts
        rw [there]
        rfl
      · refine Eq.trans ?_ (elsewhere key differ)
        unfold MergeInProgress.coll
        rw [there]
        rfl

inductive ResolvingKept (op : Operation) (coll : CollValidation) (start : MergeInProgress) : MergeInProgress → Prop
  | start : ResolvingKept op coll start start
  | step {ms after : MergeInProgress} {params : ResolveConflictParams} : ResolvingKept op coll start ms →
      KeepsTable ms params → DumboDBResolveConflict op coll ms params = .ok after → ResolvingKept op coll start after

end

end

attribute [local instance] amd64 bareEnv headDigest plainHash sameCollations acceptsAll

/-- Both sides set a field of two documents. -/
abbrev editsTwoOp : Operation :=
  mergeOf (uniqueA [.insertAll [keyedDoc 1 1, keyedDoc 2 5], .updateAll [keyedDoc 1 2, keyedDoc 2 6]])
    (uniqueA [.insertAll [keyedDoc 1 1, keyedDoc 2 5], .updateAll [keyedDoc 1 3, keyedDoc 2 7]])
    (uniqueA [.insertAll [keyedDoc 1 1, keyedDoc 2 5]])

/-- The branch and the commit that is replayed on it both set `a` of `{_id: 1, a: 1}`. -/
abbrev rebaseOp : Operation :=
  ⟨.rebase, fieldA, DefaultMergeMode, uniqueA [.insertAll [keyedDoc 1 1], .updateAll [keyedDoc 1 2]], [1], [],
    fun _ => [2], fun h => if h = [1] then uniqueA [.insertAll [keyedDoc 1 1], .updateAll [keyedDoc 1 3]]
      else uniqueA [.insertAll [keyedDoc 1 1]]⟩

end DumboDB.Dolt
