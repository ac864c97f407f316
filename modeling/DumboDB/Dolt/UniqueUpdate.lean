import DumboDB.Dolt.IndexMaintenance

/-!
Unique indexes under batched updates: what an accepted batch leaves in the primary map, what its
probes have seen, and when the index is still unique afterwards.
-/

namespace DumboDB.Dolt
open Foundation ByteOrder DumboDB.Types Index Handler Fallible Function List

variable {d e : Document} {c : Collection} {s : SecondaryIndex}

section
variable [Platform]

def valueTuple (row : List Value) : Bytes := row.flatMap EncodeValue

/-- The ids that the probe for a row finds before its cap. -/
def probed (m : Std.TreeSet Bytes) (row : List Value) : List Bytes :=
  (m.toList.filter fun key => InRange (EqualityProbeBounds row).1 (EqualityProbeBounds row).2 key).filterMap entryID

variable {m : Std.TreeSet Bytes} {row : List Value} {id : Bytes} {other : List Value}

theorem UniqueConflict_false {selfID : Bytes}
    (free : UniqueConflict m row selfID = false) (few : (probed m row).length ≤ 2) :
    ∀ id ∈ probed m row, id = selfID := by
  intro id member
  have uncapped : RangeLookupCapped m (EqualityProbeBounds row).1 (EqualityProbeBounds row).2 2 = probed m row :=
    if_neg (Nat.not_lt.mpr few)
  simp only [UniqueConflict, uncapped, any_eq_false, bne_iff_ne, ne_eq, not_not] at free
  exact free id member

theorem entryID_BuildSecondaryKey (wide : id.length = primaryIDLen) :
    entryID (BuildSecondaryKey row id) = some id := by
  unfold entryID BuildSecondaryKey
  have length : (row.flatMap EncodeValue ++ discriminator :: id).length =
      (row.flatMap EncodeValue).length + (primaryIDLen + 1) := by simp [wide]
  have start : (row.flatMap EncodeValue).length + (primaryIDLen + 1) - primaryIDLen =
      (row.flatMap EncodeValue).length + 1 := by omega
  rw [length, if_neg (by omega)]
  dsimp only
  rw [start, Nat.add_sub_cancel, getElem?_append_right (Nat.le_refl _), Nat.sub_self,
    getElem?_cons_zero, if_pos rfl, drop_append, drop_eq_nil_of_le (Nat.le_succ _), Nat.add_sub_cancel_left]
  rfl

theorem inRange_probe (same : valueTuple row = valueTuple other) (id : Bytes) :
    InRange (EqualityProbeBounds row).1 (EqualityProbeBounds row).2 (BuildSecondaryKey other id) := by
  unfold valueTuple at same
  unfold EqualityProbeBounds BuildSecondaryKey InRange
  rw [same, compare_append_left, compare_append_left]
  refine ⟨?_, .inr ?_⟩
  · cases id <;> simp [List.compare_cons_cons]
  · exact (Before.head (by decide)).compare_lt

theorem mem_probed (same : valueTuple row = valueTuple other) (entry : BuildSecondaryKey other id ∈ m)
    (wide : id.length = primaryIDLen) : id ∈ probed m row := by
  refine mem_filterMap.mpr ⟨_, mem_filter.mpr ⟨Std.TreeSet.mem_toList.mpr entry, ?_⟩,
    entryID_BuildSecondaryKey wide⟩
  exact decide_eq_true (inRange_probe same id)

variable [QueryEnv]

def Shares (info : IndexInfo) (d e : Document) : Prop :=
  ∃ row ∈ (indexEntriesForDoc d info).rows, ∃ other ∈ (indexEntriesForDoc e info).rows,
    valueTuple row = valueTuple other

def UniqueIn (docs : Std.TreeMap Bytes Document) (info : IndexInfo) : Prop :=
  ∀ g h d e, table docs g = some d → table docs h = some e → g ≠ h → ¬ Shares info d e

instance (info : IndexInfo) (d e : Document) : Decidable (Shares info d e) :=
  inferInstanceAs (Decidable (∃ row ∈ (indexEntriesForDoc d info).rows,
    ∃ other ∈ (indexEntriesForDoc e info).rows, valueTuple row = valueTuple other))

instance (docs : Std.TreeMap Bytes Document) (info : IndexInfo) : Decidable (UniqueIn docs info) :=
  decidable_of_iff (∀ p ∈ docs.toList, ∀ q ∈ docs.toList, p.1 ≠ q.1 → ¬ Shares info p.2 q.2)
    ⟨fun apart g h d e left right => apart (g, d) (Std.TreeMap.mem_toList_iff_getElem?_eq_some.mpr left) (h, e)
        (Std.TreeMap.mem_toList_iff_getElem?_eq_some.mpr right),
      fun apart p left q right => apart p.1 q.1 p.2 q.2 (Std.TreeMap.mem_toList_iff_getElem?_eq_some.mp left)
        (Std.TreeMap.mem_toList_iff_getElem?_eq_some.mp right)⟩

theorem Shares.symm {info : IndexInfo} (shares : Shares info d e) : Shares info e d := by
  obtain ⟨row, left, other, right, same⟩ := shares
  exact ⟨other, right, row, left, same.symm⟩

theorem validateUniqueOnUpdate_faithful {newDoc : Document} {selfHash : Bytes}
    (valid : validateUniqueOnUpdate c newDoc selfHash = .ok ())
    (index : s ∈ c.indexes.list) (unique : s.info.unique = true) (faithful : s.info.lossy = false)
    (exact_ : (indexEntriesForDoc newDoc s.info).lossy = false) :
    ∀ row ∈ (indexEntriesForDoc newDoc s.info).rows, UniqueConflict s.entries row selfHash = false := by
  have each (list : List SecondaryIndex) (all : list.forM (validateUniqueIndex c.docs newDoc selfHash) = .ok ())
      (member : s ∈ list) : validateUniqueIndex c.docs newDoc selfHash s = .ok () := by
    induction list with
    | nil => cases member
    | cons _ _ ih =>
      obtain ⟨_, here, later⟩ := bind_eq_ok.mp all
      rcases mem_cons.mp member with rfl | tail
      · exact here
      · exact ih later tail
  have checked := each _ valid index
  unfold validateUniqueIndex at checked
  dsimp only at checked
  rw [unique, faithful, exact_] at checked
  intro row member
  have some_ : (indexEntriesForDoc newDoc s.info).rows.isEmpty = false :=
    isEmpty_eq_false_iff_exists_mem.mpr ⟨row, member⟩
  rw [some_] at checked
  simp only [Bool.not_true, Bool.or_self, Bool.false_eq_true, if_false] at checked
  split at checked
  · cases checked
  next free =>
    rw [Bool.not_eq_true, any_eq_false] at free
    exact Bool.eq_false_iff.mpr (free row member)

end

/-! What an accepted batch leaves. -/

section
variable [Digest]

def finalVersion : List Document → Bytes → Option Document
  | [], _ => none
  | doc :: docs, h =>
    match finalVersion docs h with
    | some last => some last
    | none =>
      match keyOf doc with
      | .ok g => if g = h then some doc else none
      | .error _ => none

variable {doc : Document} {docs : List Document} {h : Bytes} {g : Bytes}

theorem finalVersion_spec (last : finalVersion docs h = some doc) : doc ∈ docs ∧ keyOf doc = .ok h := by
  induction docs with
  | nil => cases last
  | cons _ docs ih =>
    unfold finalVersion at last
    split at last
    next later =>
      cases last
      exact ⟨.tail _ (ih later).1, (ih later).2⟩
    · split at last
      next hashed =>
        split at last
        next here =>
          cases last
          exact ⟨.head _, here ▸ hashed⟩
        · cases last
      · cases last

/-- Stored documents that the batch names are replaced by their last versions. -/
def replaced (docs : List Document) (h : Bytes) (old : Document) : Document :=
  ((finalVersion docs h).map canonical).getD old

theorem replaced_cons (hashed : keyOf doc = .ok g) (docs : List Document) (h : Bytes) (old : Document) :
    replaced (doc :: docs) h old = replaced docs h (if g = h then canonical doc else old) := by
  unfold replaced
  rw [finalVersion]
  cases finalVersion docs h with
  | some _ => rfl
  | none =>
    rw [hashed]
    dsimp only
    split <;> rfl

theorem replaced_cons_of_ne (hashed : keyOf doc = .ok g) (other : g ≠ h) :
    replaced (doc :: docs) h = replaced docs h := by
  funext old
  rw [replaced_cons hashed, if_neg other]

variable [Platform] [QueryEnv]

variable {b : UpdateBatch} {count : Nat}

theorem updateDocs_docs {after : UpdateBatch} (folded : docs.foldlM (updateDoc c) b = .ok after) (h : Bytes) :
    table after.newMap h = (table b.newMap h).map (replaced docs h) := by
  induction docs generalizing b with
  | nil =>
    cases folded
    exact Option.map_id'.symm
  | cons _ docs ih =>
    obtain ⟨mid, step, rest⟩ := foldlM_cons_ok.mp folded
    rw [ih rest]
    obtain ⟨g, hashed, ⟨missing, rfl⟩ | ⟨oldDoc, stored, -, rfl⟩⟩ := updateDoc_cases step
    · -- a document that is not stored is skipped
      by_cases here : g = h
      · subst here
        change table mid.newMap g = none at missing
        rw [missing]
        rfl
      · rw [replaced_cons_of_ne hashed here]
    · dsimp only
      rw [table_insert]
      by_cases here : g = h
      · subst here
        change table b.newMap g = some oldDoc at stored
        rw [update_self, stored, Option.map_some, Option.map_some, replaced_cons hashed, if_pos rfl]
      · rw [update_of_ne (Ne.symm here), replaced_cons_of_ne hashed here]

theorem updateDocs_pairs
    (folded : docs.foldlM (updateDoc c) ⟨c.docs, []⟩ = .ok b) : b.pairs = [] → b.newMap = c.docs := by
  refine foldlM_keeps (fun b : UpdateBatch => b.pairs = [] → b.newMap = c.docs) ?_ folded fun _ => rfl
  intro _ _ b _ same step
  obtain ⟨h, -, ⟨-, rfl⟩ | ⟨oldDoc, -, -, rfl⟩⟩ := updateDoc_cases step
  · exact same
  · intro none
    simp at none

section

variable {after : Collection} (updated : UpdateAll c docs = .ok (after, count))
include updated

theorem UpdateAll_docs (h : Bytes) : table after.docs h = (table c.docs h).map (replaced docs h) := by
  obtain ⟨b, folded, done⟩ := bind_eq_ok.mp updated
  have docs := updateDocs_docs folded h
  split at done
  next none =>
    cases pure_eq_ok.mp done
    rwa [updateDocs_pairs folded (List.isEmpty_iff.mp none)] at docs
  · cases pure_eq_ok.mp done
    exact docs

theorem UpdateAll_validated (member : doc ∈ docs) (hashed : keyOf doc = .ok h) (stored : table c.docs h ≠ none) :
    validateUniqueOnUpdate c (canonical doc) h = .ok () := by
  have from_ (docs : List Document) (b after : UpdateBatch) (folded : docs.foldlM (updateDoc c) b = .ok after)
      (member : doc ∈ docs) (present : table b.newMap h ≠ none) :
      validateUniqueOnUpdate c (canonical doc) h = .ok () := by
    induction docs generalizing b with
    | nil => cases member
    | cons _ docs ih =>
      obtain ⟨mid, step, rest⟩ := foldlM_cons_ok.mp folded
      rcases mem_cons.mp member with rfl | later
      · obtain ⟨g, found, ⟨missing, -⟩ | ⟨_, -, valid, -⟩⟩ := updateDoc_cases step
        · cases hashed.symm.trans found
          exact absurd missing present
        · cases hashed.symm.trans found
          exact valid
      · refine ih mid rest later ?_
        obtain ⟨g, -, ⟨-, rfl⟩ | ⟨_, -, -, rfl⟩⟩ := updateDoc_cases step
        · exact present
        · dsimp only
          rw [table_insert, update_apply]
          split
          · simp
          · exact present
  obtain ⟨b, folded, -⟩ := bind_eq_ok.mp updated
  exact from_ docs _ _ folded member stored

end

/-- The last versions of two stored documents of the batch share no tuple. -/
def MovesApart (c : Collection) (docs : List Document) (info : IndexInfo) : Prop :=
  ∀ g h d e, table c.docs g ≠ none → table c.docs h ≠ none → g ≠ h → finalVersion docs g = some d →
    finalVersion docs h = some e → ¬ Shares info (canonical d) (canonical e)

/-- A stored document outside the batch that shares the tuple of a last version is one the probe
sees: its entry is in the index, among at most two that the probe finds. -/
def ProbesSee (c : Collection) (docs : List Document) (s : SecondaryIndex) : Prop :=
  ∀ g h e d, table c.docs g = some e → finalVersion docs g = none → table c.docs h ≠ none →
    finalVersion docs h = some d → ∀ row ∈ (indexEntriesForDoc (canonical d) s.info).rows,
      ∀ other ∈ (indexEntriesForDoc e s.info).rows, valueTuple row = valueTuple other →
        BuildSecondaryKey other g ∈ s.entries ∧ (probed s.entries row).length ≤ 2

theorem not_shares_untouched {after : Collection}
    (keyed : Keyed c.docs) (updated : UpdateAll c docs = .ok (after, count)) (index : s ∈ c.indexes.list)
    (unique : s.info.unique = true) (faithful : s.info.lossy = false)
    (exact_ : ∀ doc ∈ docs, (indexEntriesForDoc (canonical doc) s.info).lossy = false)
    (sees : ProbesSee c docs s) (apart : g ≠ h)
    (left : table c.docs g = some e) (alone : finalVersion docs g = none) (right : table c.docs h ≠ none)
    (moved : finalVersion docs h = some d) : ¬ Shares s.info (canonical d) e := by
  rintro ⟨row, mine, other, theirs, same⟩
  obtain ⟨entry, few⟩ := sees g h e d left alone right moved row mine other theirs same
  obtain ⟨member, hashed⟩ := finalVersion_spec moved
  have valid := UpdateAll_validated updated member hashed right
  have free := validateUniqueOnUpdate_faithful valid index unique faithful (exact_ d member) row mine
  have found := mem_probed same entry (keyOf_length (keyed g e left))
  exact apart (UniqueConflict_false free few g found)

/-- An accepted batch leaves a unique index unique exactly when the documents it moves end apart
from each other and no probe has missed one that stays. -/
theorem unique_after_update_iff {c after : Collection} {docs : List Document} {count : Nat}
    {s : SecondaryIndex} (keyed : Keyed c.docs) (index : s ∈ c.indexes.list) (unique : s.info.unique = true)
    (faithful : s.info.lossy = false)
    (exact_ : ∀ doc ∈ docs, (indexEntriesForDoc (canonical doc) s.info).lossy = false)
    (before : UniqueIn c.docs s.info) (updated : UpdateAll c docs = .ok (after, count)) :
    UniqueIn after.docs s.info ↔ MovesApart c docs s.info ∧ ProbesSee c docs s := by
  have version {h : Bytes} {d : Document} (there : table c.docs h ≠ none)
      (last : finalVersion docs h = some d) : table after.docs h = some (canonical d) := by
    obtain ⟨_, stored⟩ := Option.ne_none_iff_exists'.mp there
    rw [UpdateAll_docs updated, stored, Option.map_some, replaced, last]
    rfl
  have kept {h : Bytes} {e : Document} (stored : table c.docs h = some e)
      (alone : finalVersion docs h = none) : table after.docs h = some e := by
    rw [UpdateAll_docs updated, stored, Option.map_some, replaced, alone]
    rfl
  constructor
  · intro apartAfter
    refine ⟨?_, ?_⟩
    · intro g h d e left right apart lastG lastH
      exact apartAfter g h _ _ (version left lastG) (version right lastH) apart
    · intro g h e d left alone right moved row mine other theirs same
      have apart : g ≠ h := by
        rintro rfl
        rw [alone] at moved
        cases moved
      refine absurd ?_ (apartAfter g h e _ (kept left alone) (version right moved) apart)
      exact ⟨other, theirs, row, mine, same.symm⟩
  · rintro ⟨moves, sees⟩ g h d e storedG storedH apart
    rw [UpdateAll_docs updated] at storedG storedH
    obtain ⟨oldG, beforeG, rfl⟩ := Option.map_eq_some_iff.mp storedG
    obtain ⟨oldH, beforeH, rfl⟩ := Option.map_eq_some_iff.mp storedH
    have thereG : table c.docs g ≠ none := by rw [beforeG]; simp
    have thereH : table c.docs h ≠ none := by rw [beforeH]; simp
    unfold replaced
    cases lastG : finalVersion docs g with
    | none =>
      cases lastH : finalVersion docs h with
      | none => exact before g h oldG oldH beforeG beforeH apart
      | some e =>
        exact fun shares => not_shares_untouched keyed updated index unique faithful exact_ sees apart
          beforeG lastG thereH lastH shares.symm
    | some d =>
      cases lastH : finalVersion docs h with
      | none =>
        exact not_shares_untouched keyed updated index unique faithful exact_ sees (Ne.symm apart)
          beforeH lastH thereG lastG
      | some e => exact moves g h d e thereG thereH apart lastG lastH

/-- A unique index of the state that an accepted batch leaves with a shared tuple. -/
def LosesUniqueness (c : Collection) (docs : List Document) : Prop :=
  ∃ s ∈ c.indexes.list, s.info.unique = true ∧ s.info.lossy = false ∧ s.info.comparator = none ∧
    UniqueIn c.docs s.info ∧ ∃ after count, UpdateAll c docs = .ok (after, count) ∧ ¬ UniqueIn after.docs s.info

theorem losesUniqueness_of_eval {c : Collection} {docs : List Document}
    (lost : ∃ s ∈ c.indexes.list, (s.info.unique && !s.info.lossy && s.info.comparator.isNone &&
      decide (UniqueIn c.docs s.info)) = true ∧
      (UpdateAll c docs).toOption.map (fun r => decide (UniqueIn r.1.docs s.info)) = some false) :
    LosesUniqueness c docs := by
  obtain ⟨s, index, kind, eval⟩ := lost
  simp only [Bool.and_eq_true, Bool.not_eq_true', Option.isNone_iff_eq_none, decide_eq_true_eq] at kind
  obtain ⟨⟨after, count⟩, updated, apart⟩ := Option.map_eq_some_iff.mp eval
  refine ⟨s, index, kind.1.1.1, kind.1.1.2, kind.1.2, kind.2, after, count, ?_, of_decide_eq_false apart⟩
  cases result : UpdateAll c docs with
  | error error => rw [result] at updated; cases updated
  | ok r => rw [result] at updated; cases updated; rfl

end

def keyedDoc (id a : Int32) : Document := [(idKey, .int32 id), (fieldA, .int32 a)]

attribute [local instance] amd64 bareEnv headDigest

/-- `{_id: 1, a: 1}` and `{_id: 2, a: 2}` under a unique index on `a`. -/
abbrev twoDocs : Collection :=
  run emptyCollection [.createIndexes [plainIndex none true], .insertAll [keyedDoc 1 1, keyedDoc 2 2]]

theorem unique_after_one_move :
    ∃ s ∈ twoDocs.indexes.list, ∃ after count, UpdateAll twoDocs [keyedDoc 1 5] = .ok (after, count) ∧
        (UniqueIn after.docs s.info ↔
          MovesApart twoDocs [keyedDoc 1 5] s.info ∧ ProbesSee twoDocs [keyedDoc 1 5] s) := by
  have maintained : Maintained twoDocs := by
    exact run_maintained (maintained_empty) ⟨trivial, storedAsSeen_of_total (by decide +kernel), trivial⟩
  obtain ⟨s, index, unique, faithful, apart, plain⟩ : ∃ s ∈ twoDocs.indexes.list, s.info.unique = true ∧
      s.info.lossy = false ∧ @decide _ (instDecidableUniqueIn twoDocs.docs s.info) = true ∧
        (indexEntriesForDoc (canonical (keyedDoc 1 5)) s.info).lossy = false := by decide +kernel
  obtain ⟨r, updated, -⟩ : ∃ r, UpdateAll twoDocs [keyedDoc 1 5] = .ok r ∧ True := by
    decide +kernel
  refine ⟨s, index, r.1, r.2, updated, ?_⟩
  refine unique_after_update_iff
    (Maintained.keyed maintained) index unique faithful ?_ (of_decide_eq_true apart) updated
  intro _ member
  cases mem_singleton.mp member
  exact plain

theorem unique_lost_after_update :
    LosesUniqueness twoDocs [keyedDoc 1 5, keyedDoc 2 5] :=
  losesUniqueness_of_eval (by decide +kernel)

end DumboDB.Dolt
