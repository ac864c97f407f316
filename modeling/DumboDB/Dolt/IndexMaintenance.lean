import DumboDB.Dolt.Collection
import DumboDB.Dolt.StoredRows
import DumboDB.Foundation.Fallible
import DumboDB.Foundation.OwnedKeys
import DumboDB.Index.NumberOrder

/-!
Secondary indexes describe the stored documents: what each operation does to one index, and the
invariant over whole runs.
-/

namespace DumboDB.Dolt
open Foundation ByteOrder DumboDB.Types Index Handler OwnedKeys Fallible Function List Std

/-! Key sets. -/

variable {k : Bytes} {keys : List Bytes} {m : Std.TreeSet Bytes} {h : Bytes} {doc : Document} {s : SecondaryIndex}
  {b : InsertBatch} {docs : Std.TreeMap Bytes Document} {idx : IndexInfo}

theorem mem_putAll : k ∈ putAll m keys ↔ k ∈ keys ∨ k ∈ m := by
  induction keys generalizing m with
  | nil => simp [putAll]
  | cons _ keys ih =>
    refine ih.trans ?_
    rw [TreeSet.mem_insert, Std.compare_eq_iff_eq, mem_cons, ← or_assoc]
    simp only [eq_comm, or_comm]

theorem mem_deleteAll : k ∈ deleteAll m keys ↔ k ∉ keys ∧ k ∈ m := by
  induction keys generalizing m with
  | nil => simp [deleteAll]
  | cons _ keys ih =>
    refine ih.trans ?_
    rw [TreeSet.mem_erase, ne_eq, Std.compare_eq_iff_eq, mem_cons, not_or, ← and_assoc]
    simp only [eq_comm, and_comm]

section
variable [Platform]

theorem id_of_BuildSecondaryKey {row other : List Value} {i j : Bytes} (width : i.length = j.length)
    (same : BuildSecondaryKey row i = BuildSecondaryKey other j) : i = j := by
  have tails := append_inj_right' same (by simp [width])
  exact (List.cons.inj tails).2

theorem entryKeysForRows_same {rows others : List (List Value)}
    (same : List.Forall₂ SameRow rows others) : entryKeysForRows rows h = entryKeysForRows others h := by
  unfold entryKeysForRows
  induction same with
  | nil => rfl
  | cons first _ ih => rw [map_cons, map_cons, ih, first.key]

end

section
variable [QueryEnv]

/-- What an index reads of its description; the flags are no part of it. -/
def SameDefinition (a b : IndexInfo) : Prop :=
  ∀ doc, indexEntriesForDoc doc a = indexEntriesForDoc doc b

variable [Platform]

/-- The entries of an index, as keys owned by documents. -/
def entryScheme (info : IndexInfo) : KeyScheme Bytes Document Bytes where
  ids := {h | h.length = primaryIDLen}
  keys h doc := {k | k ∈ entryKeysForRows (indexEntriesForDoc doc info).rows h}
  apart := by
    intro i j d e k wideI wideJ keyI keyJ
    obtain ⟨row, -, rfl⟩ := List.mem_map.mp keyI
    obtain ⟨other, -, same⟩ := List.mem_map.mp keyJ
    exact (id_of_BuildSecondaryKey (wideJ.trans wideI.symm) same).symm

theorem mem_keys {info : IndexInfo} {d : Document} :
    k ∈ (entryScheme info).keys h d ↔ k ∈ entryKeysForRows (indexEntriesForDoc d info).rows h := Iff.rfl

theorem entryScheme_congr {a b : IndexInfo} (same : SameDefinition a b) : entryScheme a = entryScheme b := by
  unfold entryScheme
  simp only [same _]

/-- The index holds the entries of the documents, and its flags cover them. -/
structure IndexMaintained (docs : Bytes → Option Document) (s : SecondaryIndex) : Prop where
  described : Describes (entryScheme s.info) docs {k | k ∈ s.entries}
  multikey : ∀ h d, docs h = some d → (indexEntriesForDoc d s.info).multikey = true → s.info.multikey = true
  lossy : ∀ h d, docs h = some d → (indexEntriesForDoc d s.info).lossy = true → s.info.lossy = true

variable {docs : Bytes → Option Document} {s : SecondaryIndex} {h : Bytes} {oldDoc newDoc : Document}

section

variable (maintained : IndexMaintained docs s)
include maintained

theorem IndexMaintained.exchange {entries : TreeSet Bytes} (known : h.length = primaryIDLen)
    (moved : ∀ k, k ∈ entries ↔ (k ∈ s.entries ∧ k ∉ (entryScheme s.info).held h (docs h)) ∨
      k ∈ (entryScheme s.info).keys h newDoc) : IndexMaintained (update docs h (some newDoc))
      ⟨s.info.raise (indexEntriesForDoc newDoc s.info), entries⟩ := by
  have covers {flag : Entries → Bool} {raised : Bool} (before : ∀ g d, docs g = some d →
      flag (indexEntriesForDoc d s.info) = true → raised = true) (g : Bytes) (d : Document)
      (stored : update docs h (some newDoc) g = some d)
      (flagged : flag (indexEntriesForDoc d s.info) = true) :
      (raised || flag (indexEntriesForDoc newDoc s.info)) = true := by
    by_cases here : g = h
    · subst here
      rw [update_self] at stored
      cases stored
      rw [flagged, Bool.or_true]
    · rw [update_of_ne here] at stored
      rw [before g d stored flagged, Bool.true_or]
  refine ⟨?_, covers maintained.multikey, covers maintained.lossy⟩
  refine maintained.described.replace (some newDoc) known fun k => ?_
  rw [held_some]
  exact moved k

theorem IndexMaintained.insert (known : h.length = primaryIDLen) (fresh : docs h = none) :
    IndexMaintained (update docs h (some newDoc)) (insertEntries s h newDoc) := by
  refine maintained.exchange known fun k => ?_
  rw [fresh, held_none, mem_putAll, mem_keys]
  simp [or_comm]

theorem IndexMaintained.update (stored : docs h = some oldDoc) :
    IndexMaintained (update docs h (some newDoc)) (updateEntries s h oldDoc newDoc) := by
  refine maintained.exchange (maintained.described.inside h oldDoc stored) fun k => ?_
  have old : k ∈ entryKeysForRows (indexEntriesForDoc oldDoc s.info).rows h → k ∈ s.entries := fun key =>
    (maintained.described.exact_ k).mpr ⟨h, by rwa [stored, held_some, mem_keys]⟩
  rw [stored, held_some, mem_putAll, mem_deleteAll, mem_keys, mem_keys]
  simp only [mem_filter, Bool.not_eq_true', contains_eq_mem, decide_eq_false_iff_not]
  tauto

theorem IndexMaintained.delete (stored : docs h = some oldDoc) :
    IndexMaintained (Function.update docs h none) (deleteEntries s h oldDoc) := by
  have kept (g : Bytes) (d : Document) (after : Function.update docs h none g = some d) : docs g = some d := by
    by_cases here : g = h
    · subst here
      rw [update_self] at after
      cases after
    · rwa [update_of_ne here] at after
  refine ⟨?_, fun g d after => maintained.multikey g d (kept g d after),
    fun g d after => maintained.lossy g d (kept g d after)⟩
  refine maintained.described.replace none (maintained.described.inside h oldDoc stored) fun k => ?_
  rw [stored, held_some, held_none, mem_keys]
  change k ∈ deleteAll _ _ ↔ _
  rw [mem_deleteAll]
  simp [and_comm]

end

theorem insertEntries_canonical (s : SecondaryIndex) (h : Bytes)
    (covered : MatchesPartialFilter s.info (canonical doc) = MatchesPartialFilter s.info doc) :
    insertEntries s h doc = insertEntries s h (canonical doc) := by
  obtain ⟨rows, multikey, lossy⟩ := entries_canonical covered
  unfold insertEntries
  dsimp only
  rw [entryKeysForRows_same rows, IndexInfo.raise, IndexInfo.raise, multikey, lossy]

theorem insertAllEntries_append (docs : List (Bytes × Document)) (h : Bytes) (doc : Document) (s : SecondaryIndex) :
    insertAllEntries (docs ++ [(h, doc)]) s = insertEntries (insertAllEntries docs s) h doc := by
  rw [insertAllEntries, foldl_append]
  rfl

theorem matchesPartialFilter_insertAllEntries (docs : List (Bytes × Document)) (s : SecondaryIndex) (doc : Document) :
    MatchesPartialFilter (insertAllEntries docs s).info doc = MatchesPartialFilter s.info doc := by
  have kept := info_foldl (g := IndexInfo.partialFilterExpression) (f := fun s p => insertEntries s p.1 p.2)
    (fun _ _ => rfl) docs s
  unfold MatchesPartialFilter insertAllEntries
  rw [kept]

theorem mem_insertAllEntries {docs : List (Bytes × Document)} :
    k ∈ (insertAllEntries docs s).entries ↔ k ∈ s.entries ∨ ∃ p ∈ docs, k ∈ (entryScheme s.info).keys p.1 p.2 := by
  induction docs generalizing s with
  | nil => simp [insertAllEntries]
  | cons p docs ih =>
    refine ih.trans ?_
    change k ∈ putAll _ _ ∨ (∃ q ∈ docs, k ∈ (entryScheme s.info).keys q.1 q.2) ↔ _
    rw [mem_putAll, exists_mem_cons_iff, mem_keys, or_comm (b := k ∈ s.entries), or_assoc]

theorem flag_insertAllEntries {docs : List (Bytes × Document)} {p : Bytes × Document} (member : p ∈ docs) :
    ((indexEntriesForDoc p.2 s.info).multikey = true → (insertAllEntries docs s).info.multikey = true) ∧
      ((indexEntriesForDoc p.2 s.info).lossy = true → (insertAllEntries docs s).info.lossy = true) := by
  have raised (docs : List (Bytes × Document)) (s : SecondaryIndex) :
      (s.info.multikey = true → (insertAllEntries docs s).info.multikey = true) ∧
        (s.info.lossy = true → (insertAllEntries docs s).info.lossy = true) := by
    induction docs generalizing s with
    | nil => exact ⟨id, id⟩
    | cons q docs ih =>
      have later := ih (insertEntries s q.1 q.2)
      refine ⟨fun set => later.1 ?_, fun set => later.2 ?_⟩ <;>
        exact Bool.or_eq_true _ _ ▸ .inl set
  induction docs generalizing s with
  | nil => cases member
  | cons q docs ih =>
    rcases mem_cons.mp member with rfl | later
    · have kept := raised docs (insertEntries s p.1 p.2)
      refine ⟨fun set => kept.1 ?_, fun set => kept.2 ?_⟩ <;>
        exact Bool.or_eq_true _ _ ▸ .inr set
    · exact ih (s := insertEntries s q.1 q.2) later

theorem sameDefinition_insertAllEntries (docs : List (Bytes × Document)) (s : SecondaryIndex) :
    SameDefinition (insertAllEntries docs s).info s.info := by
  induction docs generalizing s with
  | nil => exact fun _ => rfl
  | cons p docs ih => exact fun doc => ih (insertEntries s p.1 p.2) doc

end

/-! The primary map as a table. -/

def table (docs : Std.TreeMap Bytes Document) (h : Bytes) : Option Document := docs[h]?

theorem table_insert (docs : TreeMap Bytes Document) (h : Bytes) (doc : Document) :
    table (docs.insert h doc) = update (table docs) h (some doc) := by
  funext g
  simp only [table, TreeMap.getElem?_insert, Std.compare_eq_iff_eq, update_apply, eq_comm (a := h)]

theorem table_erase (docs : TreeMap Bytes Document) (h : Bytes) :
    table (docs.erase h) = update (table docs) h none := by
  funext g
  simp only [table, TreeMap.getElem?_erase, Std.compare_eq_iff_eq, update_apply, eq_comm (a := h)]

/-! What an accepted document claims. -/

section

variable [Platform] [QueryEnv] {after : InsertBatch} (claimed : claimUnique docs h doc b s = .ok after)
include claimed

theorem claimUnique_cases :
    let e := indexEntriesForDoc doc s.info
    let newKey := extractIndexKey doc s.info
    let docPrefixes := e.rows.map fun row => (s.info.name, (EqualityProbeBounds row).1)
    (e.rows = [] ∧ after = b) ∨
      (e.rows ≠ [] ∧ (e.lossy || s.info.lossy) = true ∧ scanUniqueConflict docs s.info doc h = false ∧
        (∀ p ∈ b.lossyKeys, p.1 = s.info.name → indexKeysEqualColl newKey p.2 s.info.comparator = false) ∧
        after = { b with lossyKeys := b.lossyKeys ++ [(s.info.name, newKey)] }) ∨
      (e.rows ≠ [] ∧ (e.lossy || s.info.lossy) = false ∧ (∀ claim ∈ docPrefixes, claim ∉ b.uniqueEntryKeys) ∧
        (∀ row ∈ e.rows, UniqueConflict s.entries row h = false) ∧
        after = { b with uniqueEntryKeys := b.uniqueEntryKeys ++ docPrefixes }) := by
  intro e newKey docPrefixes
  unfold claimUnique at claimed
  dsimp only at claimed
  by_cases empty : e.rows = []
  · rw [if_pos (List.isEmpty_iff.mpr empty)] at claimed
    exact .inl ⟨empty, (Except.ok.inj claimed).symm⟩
  rw [if_neg (mt List.isEmpty_iff.mp empty)] at claimed
  cases lossy : e.lossy || s.info.lossy with
  | true =>
    rw [if_pos lossy] at claimed
    cases scanned : scanUniqueConflict docs s.info doc h with
    | true => rw [if_pos scanned] at claimed; cases claimed
    | false =>
      rw [scanned, if_neg Bool.false_ne_true] at claimed
      split at claimed
      · cases claimed
      next unseen =>
        refine .inr (.inl ⟨empty, rfl, rfl, ?_, (Except.ok.inj claimed).symm⟩)
        intro p member named
        simp only [any_eq_true, not_exists, not_and, Bool.and_eq_true, beq_iff_eq, Bool.not_eq_true] at unseen
        exact unseen p member named
  | false =>
    rw [if_neg (by rw [lossy]; exact Bool.false_ne_true)] at claimed
    split at claimed
    · cases claimed
    next unclaimed =>
      split at claimed
      · cases claimed
      next probed =>
        simp only [any_eq_true, not_exists, not_and, Bool.not_eq_true, contains_eq_mem,
          decide_eq_false_iff_not] at unclaimed probed
        exact .inr (.inr ⟨empty, rfl, unclaimed, probed, (Except.ok.inj claimed).symm⟩)

theorem claimUnique_docs : after.newMap = b.newMap ∧ after.added = b.added := by
  rcases claimUnique_cases claimed with ⟨-, rfl⟩ | ⟨-, -, -, -, rfl⟩ | ⟨-, -, -, -, rfl⟩ <;> exact ⟨rfl, rfl⟩

end

theorem claimCollatedID_docs {c : Collection} {docID : Value} {after : InsertBatch}
    (claimed : claimCollatedID c h docID b = .ok after) : after.newMap = b.newMap ∧ after.added = b.added := by
  unfold claimCollatedID at claimed
  split at claimed
  · split at claimed
    · cases claimed
    · cases claimed
      exact ⟨rfl, rfl⟩
  · cases claimed
    exact ⟨rfl, rfl⟩

section
variable [Platform] [QueryEnv]

theorem buildDoc_index {b after : IndexBuild} {stored : Bytes × Document}
    (built : buildDoc idx b stored = .ok after) : after.index = insertEntries b.index stored.1 stored.2 := by
  obtain ⟨_, -, rfl⟩ := map_eq_ok.mp built
  rfl

theorem buildSecondaryIndex_spec
    (built : buildSecondaryIndex docs idx = .ok s) : s = insertAllEntries docs.toList ⟨idx, ∅⟩ := by
  have scanned (list : List (Bytes × Document)) (b after : IndexBuild)
      (folded : list.foldlM (buildDoc idx) b = .ok after) : after.index = insertAllEntries list b.index := by
    induction list generalizing b with
    | nil => cases folded; rfl
    | cons _ list ih =>
      obtain ⟨mid, first, rest⟩ := foldlM_cons_ok.mp folded
      rw [ih mid rest, buildDoc_index first, insertAllEntries, insertAllEntries, foldl_cons]
  obtain ⟨b, folded, done⟩ := bind_eq_ok.mp built
  rw [← pure_eq_ok.mp done]
  exact scanned _ _ _ folded

end

section
variable [QueryEnv]

/-- The partial filters of the collection see no difference between a document to insert and its
stored form. -/
def StoredAsSeen (c : Collection) (docs : List Document) : Prop :=
  ∀ doc ∈ docs, ∀ s ∈ c.indexes.list, MatchesPartialFilter s.info (canonical doc) = MatchesPartialFilter s.info doc

theorem storedAsSeen_of_total {c : Collection} {docs : List Document}
    (total : (c.indexes.list.all fun s => s.info.partialFilterExpression.isNone) = true) : StoredAsSeen c docs := by
  intro _ _ s index
  have none := Option.isNone_iff_eq_none.mp (all_eq_true.mp total s index)
  simp only [MatchesPartialFilter, none]

end

section
variable [Digest]

variable {doc : Document} {h : Bytes} {docs : Std.TreeMap Bytes Document} {removed : List (Bytes × Document)}

theorem keyOf_length (hashed : keyOf doc = .ok h) : h.length = primaryIDLen := by
  unfold keyOf at hashed
  split at hashed
  · cases hashed
  · split at hashed
    · cases hashed
    next found =>
      cases hashed
      exact hashID_length found

theorem keyOf_canonical (doc : Document) : keyOf (canonical doc) = keyOf doc := by
  unfold keyOf
  rw [get_canonical]
  cases doc.get idKey with
  | none => rfl
  | some _ => rw [Option.map_some, storedValue, if_pos rfl]

def Keyed (docs : Std.TreeMap Bytes Document) : Prop := ∀ h d, table docs h = some d → keyOf d = .ok h

theorem Keyed.insert (keyed : Keyed docs) (hashed : keyOf doc = .ok h) : Keyed (docs.insert h doc) := by
  intro g d stored
  rw [table_insert] at stored
  by_cases here : g = h
  · subst here
    rw [update_self] at stored
    cases stored
    exact hashed
  · rw [update_of_ne here] at stored
    exact keyed g d stored

theorem Keyed.erase (keyed : Keyed docs) (h : Bytes) : Keyed (docs.erase h) := by
  intro g d stored
  rw [table_erase] at stored
  by_cases here : g = h
  · subst here
    rw [update_self] at stored
    cases stored
  · rw [update_of_ne here] at stored
    exact keyed g d stored

theorem keyed_of_check
    (checked : (docs.toList.all fun p => match keyOf p.2 with | .ok h => h == p.1 | .error _ => false) = true) :
    Keyed docs := by
  intro h d stored
  have one := all_eq_true.mp checked (h, d) (TreeMap.mem_toList_iff_getElem?_eq_some.mpr stored)
  cases hashed : keyOf d with
  | error _ => rw [hashed] at one; cases one
  | ok g =>
    rw [hashed] at one
    rw [beq_iff_eq.mp one]

theorem mapM_keyOf (own : ∀ p ∈ removed, keyOf p.2 = .ok p.1) :
    ((removed.map Prod.snd).mapM fun doc => (keyOf doc).map fun h => (h, doc)) = .ok removed := by
  induction removed with
  | nil => rfl
  | cons p removed ih =>
    rw [map_cons, mapM_cons, own p (.head _), ih fun q member => own q (.tail _ member)]
    rfl

variable [Platform] [QueryEnv]

/-- Every index of the collection describes its documents. -/
structure Maintained (c : Collection) : Prop where
  keyed : Keyed c.docs
  indexes : ∀ s ∈ c.indexes.list, IndexMaintained (table c.docs) s

theorem IndexMaintained.insertStored (maintained : IndexMaintained (table docs) s) (hashed : keyOf doc = .ok h)
    (fresh : table docs h = none)
    (seen : MatchesPartialFilter s.info (canonical doc) = MatchesPartialFilter s.info doc) :
    IndexMaintained (table (docs.insert h (canonical doc))) (insertEntries s h doc) := by
  rw [table_insert, insertEntries_canonical s h seen]
  exact maintained.insert (keyOf_length hashed) fresh

variable {c : Collection} {after : Collection} {count : Nat}

theorem insertDoc_spec {after : InsertBatch} (inserted : insertDoc c b doc = .ok after) :
    ∃ h, keyOf doc = .ok h ∧ c.docs[h]? = none ∧ (∀ p ∈ b.added, p.1 ≠ h) ∧
      after.newMap = b.newMap.insert h (canonical doc) ∧ after.added = b.added ++ [(h, doc)] := by
  obtain ⟨h, hashed, rest⟩ := bind_eq_ok.mp inserted
  split at rest
  · cases rest
  next fresh =>
    obtain ⟨collated, checked, rest⟩ := bind_eq_ok.mp rest
    obtain ⟨claimed, folded, done⟩ := bind_eq_ok.mp rest
    have kept : claimed.newMap = collated.newMap ∧ claimed.added = collated.added :=
      foldlM_keeps (fun b => b.newMap = collated.newMap ∧ b.added = collated.added) (fun s _ b mid same step => by
          obtain ⟨docs, added⟩ := claimUnique_docs step
          exact ⟨docs.trans same.1, added.trans same.2⟩) folded ⟨rfl, rfl⟩
    obtain ⟨docs, added⟩ := claimCollatedID_docs checked
    cases pure_eq_ok.mp done
    simp only [Bool.or_eq_true, not_or, Bool.not_eq_true, any_eq_false, beq_iff_eq] at fresh
    refine ⟨h, hashed, ?_, fun p member => fresh.2 p member, ?_, ?_⟩
    · exact TreeMap.getElem?_eq_none (by rw [← TreeMap.contains_iff_mem, fresh.1]; exact Bool.false_ne_true)
    · rw [kept.1, docs]
    · rw [kept.2, added]

theorem InsertAll_keeps {docs : List Document} (maintained : Maintained c)
    (seen : StoredAsSeen c docs) (inserted : InsertAll c docs = .ok after) : Maintained after := by
  obtain ⟨b, folded, done⟩ := bind_eq_ok.mp inserted
  cases pure_eq_ok.mp done
  -- the maps the batch would leave if it stopped here
  have kept := foldlM_keeps (fun b : InsertBatch => Keyed b.newMap ∧
      (∀ h, c.docs[h]? = none → (∀ p ∈ b.added, p.1 ≠ h) → table b.newMap h = none) ∧
      ∀ s ∈ c.indexes.list, IndexMaintained (table b.newMap) (insertAllEntries b.added s))
    (by
      intro doc member b mid ⟨keyed, absent, indexes⟩ step
      obtain ⟨h, hashed, unstored, unadded, docs, added⟩ := insertDoc_spec step
      rw [docs, added]
      refine ⟨keyed.insert ((keyOf_canonical doc).trans hashed), ?_, ?_⟩
      · intro g missing others
        rw [table_insert, update_of_ne]
        · exact absent g missing fun p old => others p (mem_append_left _ old)
        · exact (others (h, doc) (mem_append_right _ (.head _))).symm
      · intro s index
        rw [insertAllEntries_append]
        refine (indexes s index).insertStored hashed (absent h unstored unadded) ?_
        rw [matchesPartialFilter_insertAllEntries, matchesPartialFilter_insertAllEntries]
        exact seen doc member s index)
    folded ⟨maintained.keyed, fun h missing _ => missing, maintained.indexes⟩
  refine ⟨kept.1, ?_⟩
  intro s index
  obtain ⟨before, member, rfl⟩ := mem_map.mp index
  exact kept.2.2 before member

theorem updateDoc_cases {b after : UpdateBatch} (updated : updateDoc c b doc = .ok after) :
    ∃ h, keyOf doc = .ok h ∧ ((b.newMap[h]? = none ∧ after = b) ∨
        ∃ oldDoc, b.newMap[h]? = some oldDoc ∧ validateUniqueOnUpdate c (canonical doc) h = .ok () ∧
          after = ⟨b.newMap.insert h (canonical doc), b.pairs ++ [(h, oldDoc, canonical doc)]⟩) := by
  obtain ⟨h, hashed, rest⟩ := bind_eq_ok.mp updated
  refine ⟨h, hashed, ?_⟩
  cases held : b.newMap[h]? with
  | none =>
    rw [held] at rest
    exact .inl ⟨rfl, (pure_eq_ok.mp rest).symm⟩
  | some oldDoc =>
    rw [held] at rest
    obtain ⟨_, valid, done⟩ := bind_eq_ok.mp rest
    exact .inr ⟨oldDoc, rfl, valid, (pure_eq_ok.mp done).symm⟩

theorem UpdateAll_keeps {docs : List Document} (maintained : Maintained c)
    (updated : UpdateAll c docs = .ok (after, count)) : Maintained after := by
  obtain ⟨b, folded, done⟩ := bind_eq_ok.mp updated
  have kept := foldlM_keeps (fun b : UpdateBatch => Keyed b.newMap ∧
      ∀ s ∈ c.indexes.list, IndexMaintained (table b.newMap) (updateAllEntries b.pairs s))
    (by
      intro doc _ b mid ⟨keyed, indexes⟩ step
      obtain ⟨h, hashed, ⟨-, rfl⟩ | ⟨oldDoc, stored, -, rfl⟩⟩ := updateDoc_cases step
      · exact ⟨keyed, indexes⟩
      · refine ⟨keyed.insert ((keyOf_canonical doc).trans hashed), ?_⟩
        intro s index
        rw [table_insert, updateAllEntries, foldl_append]
        exact (indexes s index).update stored)
    folded ⟨maintained.keyed, maintained.indexes⟩
  split at done
  · cases pure_eq_ok.mp done
    exact maintained
  · cases pure_eq_ok.mp done
    refine ⟨kept.1, ?_⟩
    intro s index
    obtain ⟨before, member, rfl⟩ := mem_map.mp index
    exact kept.2 before member

/-- A batch of deletions so far: the removed documents, with keys that are their own, and what the
indexes would be. -/
structure DeletesKept (c : Collection) (b : DeleteBatch) (removed : List (Bytes × Document)) : Prop where
  docs : removed.map Prod.snd = b.oldDocs
  own : ∀ p ∈ removed, keyOf p.2 = .ok p.1
  keyed : Keyed b.newMap
  indexes : ∀ s ∈ c.indexes.list, IndexMaintained (table b.newMap) (deleteAllEntries removed s)

theorem DeletesKept.start (maintained : Maintained c) : DeletesKept c ⟨c.docs, []⟩ [] :=
  ⟨rfl, fun _ absent => (nomatch absent), maintained.keyed, maintained.indexes⟩

theorem DeletesKept.delete {b : DeleteBatch} (kept : DeletesKept c b removed) (stored : table b.newMap h = some doc) :
    DeletesKept c ⟨b.newMap.erase h, b.oldDocs ++ [doc]⟩ (removed ++ [(h, doc)]) := by
  refine ⟨?_, ?_, kept.keyed.erase h, ?_⟩
  · rw [map_append, kept.docs]
    rfl
  · intro p member
    rcases mem_append.mp member with old | new
    · exact kept.own p old
    · rw [mem_singleton.mp new]
      exact kept.keyed h doc stored
  · intro s index
    rw [table_erase, deleteAllEntries, foldl_append]
    exact (kept.indexes s index).delete stored

theorem deleteIDs_kept (maintained : Maintained c) (ids : List Value) :
    ∃ removed, DeletesKept c (ids.foldl deleteID ⟨c.docs, []⟩) removed := by
  have from_ (b : DeleteBatch) (start : ∃ removed, DeletesKept c b removed) :
      ∃ removed, DeletesKept c (ids.foldl deleteID b) removed := by
    induction ids generalizing b with
    | nil => exact start
    | cons _ ids ih =>
      refine ih _ ?_
      unfold deleteID
      split
      · exact start
      · split
        · exact start
        next stored =>
          obtain ⟨removed, kept⟩ := start
          exact ⟨_, kept.delete stored⟩
  exact from_ _ ⟨[], .start maintained⟩

theorem deleteTargets_kept {targets : List (Bytes × Document)} {b : DeleteBatch}
    (distinct : targets.Pairwise fun p q => p.1 ≠ q.1) (stored : ∀ p ∈ targets, table b.newMap p.1 = some p.2)
    (start : ∃ removed, DeletesKept c b removed) : ∃ removed, DeletesKept c
      ⟨targets.foldl (fun m p => m.erase p.1) b.newMap, b.oldDocs ++ targets.map Prod.snd⟩ removed := by
  induction targets generalizing b with
  | nil => simpa using start
  | cons p targets ih =>
    rw [pairwise_cons] at distinct
    obtain ⟨removed, kept⟩ := start
    have rest := ih (b := ⟨b.newMap.erase p.1, b.oldDocs ++ [p.2]⟩) distinct.2 ?_ ⟨_,
      kept.delete (stored p (.head _))⟩
    · simpa using rest
    · intro q member
      rw [table_erase, update_of_ne (distinct.1 q member).symm]
      exact stored q (.tail _ member)

theorem deleteRecords_kept (maintained : Maintained c) (recordIDs : List Int64) :
    ∃ removed, DeletesKept c (deleteRecords c.docs recordIDs) removed := by
  have distinct : c.docs.toList.Pairwise fun p q => p.1 ≠ q.1 :=
    TreeMap.distinct_keys_toList.imp fun apart same => apart (Std.compare_eq_iff_eq.mpr same)
  have kept := deleteTargets_kept (c := c) (b := ⟨c.docs, []⟩)
    (distinct.filter fun p => recordIDs.contains (keyBytesToRecordID p.1)) ?_ ⟨[], .start maintained⟩
  · simpa [deleteRecords] using kept
  · intro p member
    exact TreeMap.mem_toList_iff_getElem?_eq_some.mp (mem_of_mem_filter member)

theorem DeletesKept.apply {b : DeleteBatch} {indexes : IndexSet}
    (kept : DeletesKept c b removed) (applied : applyDeletesToIndexes c.indexes b.oldDocs = .ok indexes) :
    Maintained { c with docs := b.newMap, indexes := indexes } := by
  unfold applyDeletesToIndexes at applied
  split at applied
  next empty =>
    cases applied
    refine ⟨kept.keyed, fun s index => ?_⟩
    rw [List.isEmpty_iff.mp empty] at index
    cases index
  · rw [← kept.docs, mapM_keyOf kept.own] at applied
    cases pure_eq_ok.mp applied
    refine ⟨kept.keyed, fun s index => ?_⟩
    obtain ⟨before, member, rfl⟩ := mem_map.mp index
    exact kept.indexes before member

theorem DeleteAll_keeps {ids : List Value} {recordIDs : Option (List Int64)} (maintained : Maintained c)
    (deleted : DeleteAll c ids recordIDs = .ok (after, count)) :
    Maintained after := by
  obtain ⟨removed, kept⟩ : ∃ removed, DeletesKept c (deleteDocs c.docs ids recordIDs) removed := by
    cases recordIDs with
    | none => exact deleteIDs_kept maintained ids
    | some recordIDs => exact deleteRecords_kept maintained recordIDs
  unfold DeleteAll at deleted
  dsimp only at deleted
  split at deleted
  · cases deleted
    exact maintained
  · obtain ⟨_, applied, done⟩ := bind_eq_ok.mp deleted
    cases pure_eq_ok.mp done
    exact kept.apply applied

theorem buildSecondaryIndex_maintained (keyed : Keyed docs) (built : buildSecondaryIndex docs idx = .ok s) :
    IndexMaintained (table docs) s := by
  obtain rfl := buildSecondaryIndex_spec built
  have same := sameDefinition_insertAllEntries docs.toList ⟨idx, ∅⟩
  have listed {h : Bytes} {d : Document} (stored : table docs h = some d) : (h, d) ∈ docs.toList :=
    TreeMap.mem_toList_iff_getElem?_eq_some.mpr stored
  refine ⟨⟨fun h d stored => keyOf_length (keyed h d stored), fun k => ?_⟩, ?_, ?_⟩
  · rw [entryScheme_congr same]
    refine mem_insertAllEntries.trans ?_
    constructor
    · rintro (absent | ⟨p, member, key⟩)
      · simp at absent
      · exact ⟨p.1, p.2, TreeMap.mem_toList_iff_getElem?_eq_some.mp member, key⟩
    · rintro ⟨h, d, stored, key⟩
      exact .inr ⟨(h, d), listed stored, key⟩
  · intro h d stored flagged
    rw [same d] at flagged
    exact (flag_insertAllEntries (listed stored)).1 flagged
  · intro h d stored flagged
    rw [same d] at flagged
    exact (flag_insertAllEntries (listed stored)).2 flagged

theorem CreateIndexes_keeps {infos : List IndexInfo} (maintained : Maintained c)
    (created : CreateIndexes c infos = .ok after) : Maintained after := by
  obtain ⟨built, folded, done⟩ := bind_eq_ok.mp created
  cases pure_eq_ok.mp done
  refine ⟨maintained.keyed, ?_⟩
  refine foldlM_keeps (fun set : IndexSet => ∀ s ∈ set.list, IndexMaintained (table c.docs) s) ?_ folded
    maintained.indexes
  intro _ _ set _ each step
  unfold createIndex at step
  split at step
  · cases step
    exact each
  · obtain ⟨s, built, rfl⟩ := map_eq_ok.mp step
    intro t member
    rcases IndexSet.mem_place.mp member with rfl | old
    · exact buildSecondaryIndex_maintained maintained.keyed built
    · exact each t (mem_of_mem_filter old)

theorem DropIndexes_keeps (maintained : Maintained c) (names : List Bytes) : Maintained (DropIndexes c names) :=
  ⟨maintained.keyed, fun s index => maintained.indexes s (mem_of_mem_filter index)⟩

/-- The operation shows every index the documents it will store. -/
def ShowsStored (c : Collection) : Op → Prop
  | .insertAll docs => StoredAsSeen c docs
  | _ => True

/-- Every operation of a run does, in the state it meets. -/
def RunShowsStored : Collection → List Op → Prop
  | _, [] => True
  | c, op :: ops => ShowsStored c op ∧ RunShowsStored (next c op) ops

theorem next_keeps {op : Op} (maintained : Maintained c) (shown : ShowsStored c op) : Maintained (next c op) := by
  unfold next
  split
  next _ done =>
    cases op with
    | insertAll docs => exact InsertAll_keeps maintained shown done
    | updateAll docs =>
      obtain ⟨⟨_, count⟩, updated, rfl⟩ := map_eq_ok.mp done
      exact UpdateAll_keeps maintained updated
    | deleteAll _ _ =>
      obtain ⟨⟨_, count⟩, deleted, rfl⟩ := map_eq_ok.mp done
      exact DeleteAll_keeps maintained deleted
    | createIndexes _ => exact CreateIndexes_keeps maintained done
    | dropIndexes names =>
      cases done
      exact DropIndexes_keeps maintained names
  · exact maintained

theorem run_maintained {ops : List Op} (maintained : Maintained c)
    (shown : RunShowsStored c ops) : Maintained (run c ops) := by
  induction ops generalizing c with
  | nil => exact maintained
  | cons _ ops ih => exact ih (next_keeps maintained shown.1) shown.2

def maintainedCheck (c : Collection) : Bool :=
  (c.docs.toList.all fun p => match keyOf p.2 with | .ok h => h == p.1 | .error _ => false) &&
    c.indexes.list.all fun s =>
      (c.docs.toList.all fun p =>
        ((entryKeysForRows (indexEntriesForDoc p.2 s.info).rows p.1).all fun k => s.entries.contains k) &&
          (!(indexEntriesForDoc p.2 s.info).multikey || s.info.multikey) &&
            (!(indexEntriesForDoc p.2 s.info).lossy || s.info.lossy)) &&
        s.entries.toList.all fun k => c.docs.toList.any fun p =>
          (entryKeysForRows (indexEntriesForDoc p.2 s.info).rows p.1).contains k

theorem maintained_of_check (checked : maintainedCheck c = true) : Maintained c := by
  unfold maintainedCheck at checked
  rw [Bool.and_eq_true] at checked
  have keyed := keyed_of_check checked.1
  refine ⟨keyed, fun s index => ?_⟩
  have one := all_eq_true.mp checked.2 s index
  simp only [Bool.and_eq_true, all_eq_true, any_eq_true, Bool.or_eq_true, Bool.not_eq_true',
    contains_eq_mem, decide_eq_true_eq] at one
  have listed {h : Bytes} {d : Document} (stored : table c.docs h = some d) :=
    one.1 (h, d) (TreeMap.mem_toList_iff_getElem?_eq_some.mpr stored)
  refine ⟨⟨fun h d stored => keyOf_length (keyed h d stored), fun k => ⟨fun entry => ?_, ?_⟩⟩, ?_, ?_⟩
  · obtain ⟨p, stored, key⟩ := one.2 k (TreeSet.mem_toList.mpr entry)
    exact ⟨p.1, p.2, TreeMap.mem_toList_iff_getElem?_eq_some.mp stored, key⟩
  · rintro ⟨h, d, stored, key⟩
    exact TreeSet.mem_iff_contains.mpr ((listed stored).1.1 k key)
  · intro h d stored flagged
    exact (listed stored).1.2.resolve_left (by rw [flagged]; exact nofun)
  · intro h d stored flagged
    exact (listed stored).2.resolve_left (by rw [flagged]; exact nofun)

/-- The entries of every index are the keys of the rows of the stored documents under their own
ids, and its flags are set when a stored document contributes an array or a lossy value. -/
structure Synchronized (c : Collection) : Prop where
  entries : ∀ s ∈ c.indexes.list, ∀ k, k ∈ s.entries ↔
    ∃ (g : Bytes) (d : Document) (h : Bytes) (row : List Value), c.docs[g]? = some d ∧ keyOf d = .ok h ∧
      row ∈ (indexEntriesForDoc d s.info).rows ∧
      BuildSecondaryKey row h = k
  multikey : ∀ s ∈ c.indexes.list, ∀ (g : Bytes) d, c.docs[g]? = some d →
    (indexEntriesForDoc d s.info).multikey = true → s.info.multikey = true
  lossy : ∀ s ∈ c.indexes.list, ∀ (g : Bytes) d, c.docs[g]? = some d →
    (indexEntriesForDoc d s.info).lossy = true → s.info.lossy = true

theorem Maintained.synchronized (maintained : Maintained c) : Synchronized c := by
  refine ⟨fun s index k => ?_, fun s index => (maintained.indexes s index).multikey,
    fun s index => (maintained.indexes s index).lossy⟩
  refine ((maintained.indexes s index).described.exact_ k).trans ?_
  constructor
  · rintro ⟨h, d, stored, key⟩
    obtain ⟨row, member, same⟩ := mem_map.mp key
    exact ⟨h, d, h, row, stored, maintained.keyed h d stored, member, same⟩
  · rintro ⟨g, d, h, row, stored, hashed, member, same⟩
    obtain rfl : g = h := Except.ok.inj ((maintained.keyed g d stored).symm.trans hashed)
    exact ⟨g, d, stored, mem_map.mpr ⟨row, member, same⟩⟩

/-- Along every run whose inserts show the partial filters what is stored, the indexes hold
exactly the entries of the documents. -/
theorem run_synchronized {c : Collection} {ops : List Op} (maintained : Maintained c)
    (shown : RunShowsStored c ops) : Synchronized (run c ops) :=
  (run_maintained maintained shown).synchronized

theorem not_synchronized_of_stray (stray : (c.indexes.list.any fun s => !s.entries.toList.isEmpty &&
      c.docs.toList.all fun p => (indexEntriesForDoc p.2 s.info).rows.isEmpty) = true) : ¬ Synchronized c := by
  intro synchronized
  obtain ⟨s, index, held⟩ := any_eq_true.mp stray
  rw [Bool.and_eq_true, Bool.not_eq_true', isEmpty_eq_false_iff_exists_mem] at held
  obtain ⟨⟨k, member⟩, bare⟩ := held
  obtain ⟨g, d, h, _, stored, -, present, -⟩ :=
    (synchronized.entries s index k).mp (TreeSet.mem_toList.mp member)
  have none := all_eq_true.mp bare (g, d) (TreeMap.mem_toList_iff_getElem?_eq_some.mpr stored)
  rw [List.isEmpty_iff] at none
  rw [none] at present
  cases present

end

abbrev emptyCollection : Collection := ⟨none, ∅, ⟨[], .nil⟩⟩

theorem maintained_empty [Platform] [QueryEnv] [Digest] : Maintained emptyCollection :=
  ⟨fun h d stored => by simp [table] at stored, fun _ index => (nomatch index)⟩

def plainIndex (filter : Option Document) (unique : Bool) : IndexInfo :=
  ⟨fieldA, [⟨fieldA, false⟩], unique, false, filter, none, false, false, false⟩

def plainOps (filter : Option Document) (doc : Document) : List Op :=
  [.createIndexes [plainIndex filter false], .insertAll [doc]]

attribute [local instance] amd64 bareEnv headDigest

/-- `{_id: 1, a: 5, b: 1}` under an index of the documents with `b: 1`, which has an entry for it. -/
theorem run_synchronized_partial :
    Synchronized (run emptyCollection (plainOps (some [(fieldB, .int32 1)])
      [(idKey, .int32 1), (fieldA, .int32 5), (fieldB, .int32 1)])) ∧
    ((run emptyCollection (plainOps (some [(fieldB, .int32 1)])
      [(idKey, .int32 1), (fieldA, .int32 5), (fieldB, .int32 1)])).indexes.list.map (·.entries.size)) = [1] := by
  refine ⟨run_synchronized maintained_empty ⟨trivial, ?_, trivial⟩, by decide +kernel⟩
  unfold ShowsStored StoredAsSeen
  decide +kernel

def orderedFilter : Document := [(fieldB, .document [(fieldB, .int32 1), (fieldA, .int32 2)])]

/-- A document that meets `orderedFilter` until its keys are sorted. -/
def orderedDoc : Document :=
  [(idKey, .int32 1), (fieldA, .int32 5), (fieldB, .document [(fieldB, .int32 1), (fieldA, .int32 2)])]

/-- The index keeps an entry of a stored document that it does not cover. -/
theorem run_desynchronized :
    ¬ Synchronized (run emptyCollection (plainOps (some orderedFilter) orderedDoc)) :=
  not_synchronized_of_stray (by decide +kernel)

end DumboDB.Dolt
