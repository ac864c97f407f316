import DumboDB.Dolt.MergeCapture
import DumboDB.Dolt.UniqueUpdate

/-!
One step of a collection merge, seen from a key and from a surviving index: what the differ's
report says about the three versions, which document a survivor exchanges for which, and where a
collision comes from.
-/

namespace DumboDB.Dolt
open Foundation ByteOrder DumboDB.Types Index Handler OwnedKeys Fallible Function List Std

/-! Reports of the differ. -/

/-- What a report says about the versions. A resolved document exists where both versions do. -/
inductive Reports (v : RowSides) : Option RowDiff → Prop
  | unchanged (left : v.left = v.base) (right : v.right = v.base) : Reports v none
  | leftChange (left : v.left ≠ v.base) (right : v.right = v.base) : Reports v (some .leftChange)
  | rightChange (left : v.left = v.base) (right : v.right ≠ v.base) : Reports v (some .rightChange)
  | convergent (same : v.left = v.right) : Reports v (some .convergent)
  | conflict : Reports v (some .conflict)
  | resolved {merged : Option Document} (left : v.left.isSome = merged.isSome)
      (right : v.right.isSome = merged.isSome) : Reports v (some (.resolved merged))

theorem tryMergeJSON_reports (v : RowSides) : Reports v (some (tryMergeJSON v)) := by
  unfold tryMergeJSON
  split
  next left right =>
    split
    · exact .resolved (by rw [left]; rfl) (by rw [right]; rfl)
    · exact .conflict
  · exact .conflict

theorem rowMergePolicy_reports (mode : MergeMode) (v : RowSides) : Reports v (some (rowMergePolicy mode v)) := by
  unfold rowMergePolicy
  split
  · exact .conflict
  · split
    next gone =>
      rw [Bool.and_eq_true, Option.isNone_iff_eq_none, Option.isNone_iff_eq_none] at gone
      exact .resolved (by rw [gone.1]) (by rw [gone.2])
    · exact tryMergeJSON_reports v

theorem classify_reports (policy : Option MergeMode) (v : RowSides) : Reports v (classify policy v) := by
  unfold classify
  split
  next left =>
    split
    next right =>
      exact .unchanged left right
    next right =>
      exact .rightChange left right
  next left =>
    split
    next right =>
      exact .leftChange left right
    · split
      · exact rowMergePolicy_reports _ v
      · split
        next same =>
          exact .convergent same
        · exact tryMergeJSON_reports v

namespace ThreeWay

theorem diff_reports (w : ThreeWay) (key : Bytes) : Reports (w.sides key) (w.diff key) := classify_reports _ _

def seedDoc (w : ThreeWay) (seedLeft : Bool) (key : Bytes) : Option Document :=
  if seedLeft then (w.sides key).left else (w.sides key).right

/-- What a key comes to when it is merged on its own; a conflict keeps ours. -/
def alone (w : ThreeWay) (key : Bytes) : Option Document :=
  match w.diff key with
  | some .leftChange => (w.sides key).left
  | some .conflict => (w.sides key).left
  | some (.resolved merged) => merged
  | _ => (w.sides key).right

def touches (w : ThreeWay) (seedLeft : Bool) (key : Bytes) : Bool :=
  match w.diff key with
  | some .leftChange => !seedLeft
  | some .conflict => !seedLeft
  | some .rightChange => seedLeft
  | some (.resolved _) => true
  | _ => false

variable {w : ThreeWay} {key : Bytes}

theorem alone_of_untouched {seedLeft : Bool}
    (still : w.touches seedLeft key = false) : w.alone key = w.seedDoc seedLeft key := by
  have reports := w.diff_reports key
  unfold touches at still
  unfold alone seedDoc
  generalize w.diff key = report at reports still ⊢
  cases reports with
  | unchanged left right => cases seedLeft <;> simp [left, right]
  | leftChange left right
  | rightChange left right
  | conflict => simp_all
  | convergent same => cases seedLeft <;> simp [same]
  | resolved left right => cases still

theorem alone_eq_none (left : (w.sides key).left = none) (right : (w.sides key).right = none) :
    w.alone key = none := by
  have reports := w.diff_reports key
  unfold alone
  generalize w.diff key = report at reports ⊢
  cases reports with
  | resolved both _ => simpa [left] using both.symm
  | _ => first | exact left | exact right

theorem untouched_of_unchanged (unchanged : w.diff key = none) (seedLeft : Bool) :
    w.touches seedLeft key = false := by simp [touches, unchanged]

theorem sides_of_not_mem_keys (absent : key ∉ w.keys) : w.sides key = ⟨none, none, none⟩ := by
  rw [keys, TreeSet.mem_toList, TreeSet.mem_ofList, contains_iff_mem] at absent
  simp only [mem_append, not_or] at absent
  have none_ {docs : TreeMap Bytes Document} (missing : key ∉ docs.keys) : docs[key]? = none :=
    TreeMap.getElem?_eq_none fun member => missing (TreeMap.mem_keys.mpr member)
  rw [sides, none_ absent.1.1, none_ absent.1.2, none_ absent.2]

theorem mem_keys_of_changed (changed : w.diff key ≠ none) : key ∈ w.keys := by
  by_contra absent
  refine changed ?_
  rw [diff, sides_of_not_mem_keys absent]
  rfl

theorem mem_keys_of_alone {d : Document} (outcome : w.alone key = some d) : key ∈ w.keys := by
  by_contra absent
  have sides := sides_of_not_mem_keys absent
  rw [alone_eq_none (by rw [sides]) (by rw [sides])] at outcome
  cases outcome

theorem keys_ordered (w : ThreeWay) : w.keys.Pairwise fun a b => compare a b = .lt := TreeSet.ordered_toList

theorem keys_nodup (w : ThreeWay) : w.keys.Nodup := by
  refine w.keys_ordered.imp fun less same => ?_
  rw [same, Std.compare_self] at less
  cases less

end ThreeWay

def RowDiff.edit (v : RowSides) : RowDiff → Option MergeDocEdit
  | .leftChange => some ⟨.leftChange, v.base, v.left, none, none⟩
  | .rightChange => some ⟨.rightChange, v.base, none, v.right, none⟩
  | .conflict => some ⟨.keepOurs, none, v.left, v.right, none⟩
  | .resolved merged => some ⟨.resolved, none, v.left, v.right, merged⟩
  | .convergent => none

def ThreeWay.edit (w : ThreeWay) (key : Bytes) : Option MergeDocEdit := (w.diff key).bind (·.edit (w.sides key))

variable {edit : MergeDocEdit} {key : Bytes} {w : ThreeWay} {id : Bytes} {doc : Document} {h : Bytes} {ours : Bool}

theorem perSurvivor_edit (of : w.edit key = some edit) (s : IndexMergeSurvivor) :
    edit.perSurvivor s = if w.touches s.seedLeft key then some (w.seedDoc s.seedLeft key, w.alone key) else none := by
  have reports := w.diff_reports key
  unfold ThreeWay.edit at of
  unfold ThreeWay.touches ThreeWay.seedDoc ThreeWay.alone
  generalize w.diff key = report at reports of ⊢
  cases reports <;> cases of <;> cases left : s.seedLeft <;> simp_all [MergeDocEdit.perSurvivor]

theorem incomingOurs_edit (of : w.edit key = some edit) :
    edit.incomingOurs = false ↔ w.diff key = some .rightChange := by
  unfold ThreeWay.edit at of
  generalize w.diff key = report at of ⊢
  cases report with
  | none => cases of
  | some report => cases report <;> cases of <;> simp [MergeDocEdit.incomingOurs]

theorem table_putDoc (docs : TreeMap Bytes Document) (key : Bytes) (doc : Option Document) :
    table (putDoc docs key doc) = update (table docs) key doc := by
  cases doc with
  | none => exact table_erase docs key
  | some doc => exact table_insert docs key doc

section
variable [ConflictHash]

/-- The state in which the indexes take up the edit of a key. -/
def staged (w : ThreeWay) (key : Bytes) (c : Capture) : Capture :=
  match w.diff key with
  | some .leftChange => { c with merged := putDoc c.merged key (w.alone key) }
  | some (.resolved _) => { c with merged := putDoc c.merged key (w.alone key) }
  | some .conflict =>
    { c with merged := putDoc c.merged key (w.alone key), entries := c.entries ++ [documentEditEntry w key] }
  | _ => c

theorem staged_survivors (w : ThreeWay) (key : Bytes) (c : Capture) : (staged w key c).survivors = c.survivors := by
  unfold staged
  split <;> rfl

theorem staged_entries (w : ThreeWay) (key : Bytes) (c : Capture) : (staged w key c).entries = c.entries ∨
      w.diff key = some .conflict ∧ (staged w key c).entries = c.entries ++ [documentEditEntry w key] := by
  unfold staged
  split
  · exact .inl rfl
  · exact .inl rfl
  next report =>
    exact .inr ⟨report, rfl⟩
  · exact .inl rfl

variable {w : ThreeWay} {key : Bytes}

theorem staged_of_no_edit (none_ : w.edit key = none) (c : Capture) : staged w key c = c := by
  unfold ThreeWay.edit at none_
  unfold staged
  cases report : w.diff key with
  | none => rfl
  | some d => cases d <;> first | rfl | simp [report, RowDiff.edit] at none_

theorem staged_merged (w : ThreeWay) (key : Bytes) (c : Capture) : table (staged w key c).merged =
      if w.touches false key then update (table c.merged) key (w.alone key) else table c.merged := by
  unfold staged ThreeWay.touches
  cases w.diff key with
  | none => rfl
  | some report => cases report <;> first | rfl | exact table_putDoc ..

theorem staged_elsewhere (other : id = key → w.touches false key = false)
    (c : Capture) : table (staged w key c).merged id = table c.merged id := by
  rw [staged_merged]
  by_cases here : id = key
  · rw [other here, if_neg Bool.false_ne_true]
  · split
    · rw [update_of_ne here]
    · rfl

variable [Platform] [QueryEnv]

theorem captureStep_eq (w : ThreeWay) (c : Capture) (key : Bytes) :
    captureStep w c key = match w.edit key with
      | none => .ok c
      | some edit => applyIndexEdit w edit key maxAttempts (staged w key c) := by
  unfold captureStep ThreeWay.edit staged ThreeWay.alone
  cases w.diff key with
  | none => rfl
  | some report => cases report <;> rfl

/-! Entries are only added. -/

variable {edit : MergeDocEdit} {after c : Capture}

theorem applyIndexEdit_entries {attempts : Nat} (applied : applyIndexEdit w edit key attempts c = .ok after) :
    c.entries ⊆ after.entries := by
  induction attempts generalizing c with
  | zero => cases applied
  | succ attempts ih =>
    unfold applyIndexEdit at applied
    split at applied
    · cases applied
      exact List.Subset.refl _
    · split at applied
      · cases applied
        exact subset_append_left _ _
      · split at applied
        · cases applied
        · exact List.Subset.trans (subset_append_left _ _) (ih applied)

theorem captureStep_entries (stepped : captureStep w c key = .ok after) : c.entries ⊆ after.entries := by
  rw [captureStep_eq] at stepped
  split at stepped
  · cases stepped
    exact List.Subset.refl _
  · refine List.Subset.trans ?_ (applyIndexEdit_entries stepped)
    rcases staged_entries w key c with same | ⟨-, more⟩
    · rw [same]
      exact List.Subset.refl _
    · rw [more]
      exact subset_append_left _ _

theorem applyIndexEdit_collided {attempts : Nat} (loser : c.survivors.findSome? (survivorLoser edit key) ≠ none)
    (applied : applyIndexEdit w edit key attempts c = .ok after) :
    ∃ e ∈ after.entries, e.typ = .uniqueKeyCollision := by
  cases attempts with
  | zero => cases applied
  | succ attempts =>
    obtain ⟨lost, found⟩ := Option.ne_none_iff_exists'.mp loser
    unfold applyIndexEdit applyEdit at applied
    rw [found] at applied
    dsimp only at applied
    split at applied
    · cases applied
      exact ⟨incomingEntry w edit key lost, mem_append_right _ (.head _), rfl⟩
    · split at applied
      · cases applied
      next loserDoc _ =>
        refine ⟨evictedEntry w edit key lost loserDoc, applyIndexEdit_entries applied ?_, rfl⟩
        exact mem_append_right _ (.head _)

theorem applyIndexEdit_rule (P Q : Capture → Prop)
    (evicts : ∀ c, ∀ s ∈ c.survivors, ∀ loser loserDoc, P c → survivorLoser edit key s = some loser →
      loser.incoming = false → table c.merged loser.id = some loserDoc →
        P (evictExisting w edit key loser loserDoc c))
    (applies : ∀ c, P c → (∀ s ∈ c.survivors, survivorLoser edit key s = none) →
      Q { c with survivors := c.survivors.map (applyToSurvivor edit key) })
    (reverts : ∀ c, ∀ s ∈ c.survivors, ∀ loser, P c → survivorLoser edit key s = some loser →
      loser.incoming = true → Q (revertIncoming w edit key loser c))
    {attempts : Nat} (start : P c)
    (applied : applyIndexEdit w edit key attempts c = .ok after) : Q after := by
  induction attempts generalizing c with
  | zero => cases applied
  | succ attempts ih =>
    unfold applyIndexEdit applyEdit at applied
    cases found : c.survivors.findSome? (survivorLoser edit key) with
    | none =>
      rw [found] at applied
      cases applied
      exact applies c start (findSome?_eq_none_iff.mp found)
    | some loser =>
      obtain ⟨s, member, lost⟩ := exists_of_findSome?_eq_some found
      rw [found] at applied
      dsimp only at applied
      split at applied
      next incoming =>
        cases applied
        exact reverts c s member loser start lost incoming
      next existing =>
        split at applied
        · cases applied
        next loserDoc stored =>
          exact ih (evicts c s member loser loserDoc start lost (Bool.eq_false_iff.mpr existing) stored) applied

theorem applyIndexEdit_free (free : c.survivors.findSome? (survivorLoser edit key) = none) :
    applyIndexEdit w edit key maxAttempts c =
      .ok { c with survivors := c.survivors.map (applyToSurvivor edit key) } := by
  unfold maxAttempts applyIndexEdit applyEdit
  rw [free]

theorem captureStep_clear (stepped : captureStep w c key = .ok after)
    (clear : ∀ e ∈ after.entries, e.typ ≠ .uniqueKeyCollision) :
    after.merged = (staged w key c).merged ∧ after.entries = (staged w key c).entries := by
  rw [captureStep_eq] at stepped
  cases of : w.edit key with
  | none =>
    rw [of] at stepped
    cases stepped
    rw [staged_of_no_edit of]
    exact ⟨rfl, rfl⟩
  | some edit =>
    rw [of] at stepped
    dsimp only at stepped
    cases free : (staged w key c).survivors.findSome? (survivorLoser edit key) with
    | none =>
      rw [applyIndexEdit_free free] at stepped
      cases stepped
      exact ⟨rfl, rfl⟩
    | some _ =>
      obtain ⟨e, member, kind⟩ := applyIndexEdit_collided (by rw [free]; exact nofun) stepped
      exact absurd kind (clear e member)

end

/-! The map of a survivor. -/

section
variable [Platform] [QueryEnv]

theorem IndexMaintained.deleteHeld {docs : Bytes → Option Document} {s : SecondaryIndex}
    (maintained : IndexMaintained docs s) (known : h.length = primaryIDLen)
    (held : docs h = none ∨ docs h = some doc) :
    IndexMaintained (Function.update docs h none) (deleteEntries s h doc) := by
  rcases held with absent | stored
  · have same : Function.update docs h none = docs := by rw [← absent, update_eq_self]
    rw [same]
    refine ⟨maintained.described.congr (fun _ => rfl) fun k => ?_, maintained.multikey, maintained.lossy⟩
    change k ∈ s.entries ↔ k ∈ deleteAll _ _
    rw [mem_deleteAll]
    refine ⟨fun entry => ⟨fun key => ?_, entry⟩, fun entry => entry.2⟩
    -- an entry under the id would belong to a document there
    obtain ⟨i, d, stored, other⟩ := (maintained.described.exact_ k).mp entry
    have same := (entryScheme s.info).apart (maintained.described.inside i d stored) known other (mem_keys.mpr key)
    rw [same, absent] at stored
    cases stored
  · exact maintained.delete stored

namespace IndexMergeSurvivor

theorem deleteDoc_some (s : IndexMergeSurvivor) (doc : Document) (h : Bytes) :
    (s.deleteDoc (some doc) h).index = deleteEntries s.index h doc := by
  unfold deleteDoc
  dsimp only
  split <;> rfl

theorem insertDoc_some (s : IndexMergeSurvivor) (doc : Document) (h : Bytes) (ours : Bool) :
    (s.insertDoc (some doc) h ours).index = insertEntries s.index h doc := by
  unfold insertDoc
  dsimp only
  split <;> rfl

variable {docs : Bytes → Option Document} {s : IndexMergeSurvivor} {h : Bytes} {doc : Option Document}

section

variable (maintained : IndexMaintained docs s.index) (known : doc ≠ none → h.length = primaryIDLen)
  (held : docs h = none ∨ docs h = doc)
include maintained known held

theorem deleteDoc_maintained : IndexMaintained (update docs h none) (s.deleteDoc doc h).index := by
  cases doc with
  | none =>
    have same : update docs h none = docs := by rw [← held.elim id id, update_eq_self]
    rw [same]
    exact maintained
  | some doc =>
    rw [deleteDoc_some]
    exact maintained.deleteHeld (known (Option.some_ne_none doc)) held

theorem insertDoc_maintained (ours : Bool) : IndexMaintained (update docs h doc) (s.insertDoc doc h ours).index := by
  cases doc with
  | none =>
    have same : update docs h none = docs := by rw [← held.elim id id, update_eq_self]
    rw [same]
    exact maintained
  | some doc =>
    rw [insertDoc_some]
    refine maintained.exchange (known (Option.some_ne_none doc)) fun k => ?_
    rw [mem_putAll, mem_keys]
    rcases held with fresh | again
    · rw [fresh, held_none]
      simp [or_comm]
    · rw [again, held_some, mem_keys]
      tauto

end

theorem exchange_maintained {oldDoc newDoc : Option Document} (maintained : IndexMaintained docs s.index)
    (known : oldDoc ≠ none ∨ newDoc ≠ none → h.length = primaryIDLen)
    (held : docs h = none ∨ docs h = oldDoc) (ours : Bool) :
    IndexMaintained (update docs h newDoc) ((s.deleteDoc oldDoc h).insertDoc newDoc h ours).index := by
  have emptied := deleteDoc_maintained maintained (fun old => known (.inl old)) held
  have filled := insertDoc_maintained emptied (fun new => known (.inr new)) (.inl (update_self ..)) ours
  rwa [update_idem] at filled

theorem mem_removed_deleteDoc (unique : s.index.info.unique = true) : key ∈ (s.deleteDoc doc h).removed ↔
      (∃ d, doc = some d ∧ key ∈ (entryScheme s.index.info).keys h d) ∨ key ∈ s.removed := by
  cases doc with
  | none => simp [deleteDoc]
  | some doc => simp [deleteDoc, unique, mem_putAll, mem_keys]

theorem removed_insertDoc (doc : Option Document) (ours : Bool) : (s.insertDoc doc h ours).removed = s.removed := by
  cases doc with
  | none => rfl
  | some doc =>
    unfold insertDoc
    dsimp only
    split <;> rfl

theorem info_deleteDoc (doc : Option Document) : (s.deleteDoc doc h).index.info = s.index.info := by
  cases doc with
  | none => rfl
  | some doc => rw [deleteDoc_some]; rfl

theorem lossy_insertDoc : (s.insertDoc doc h ours).index.info.lossy = true ↔
      s.index.info.lossy = true ∨ ∃ d, doc = some d ∧ (indexEntriesForDoc d s.index.info).lossy = true := by
  cases doc with
  | none => simp [insertDoc]
  | some doc => simp [insertDoc_some, insertEntries, IndexInfo.raise]

end IndexMergeSurvivor

/-- A survivor still has the definition and the start of its seed. -/
structure Descends (seed : Seed) (s : IndexMergeSurvivor) : Prop where
  definition : SameDefinition s.index.info seed.entry.info
  unique : s.index.info.unique = seed.entry.info.unique
  seedLeft : s.seedLeft = seed.seedLeft
  seedMap : s.seedMap = seed.entry.entries

namespace Descends

variable {seed : Seed} {s : IndexMergeSurvivor} (descends : Descends seed s)

include descends

theorem deleteDoc (doc : Option Document) (h : Bytes) : Descends seed (s.deleteDoc doc h) := by
  cases doc with
  | none => exact descends
  | some doc =>
    unfold IndexMergeSurvivor.deleteDoc
    dsimp only
    split <;> exact ⟨descends.definition, descends.unique, descends.seedLeft, descends.seedMap⟩

theorem insertDoc (doc : Option Document) (h : Bytes) (ours : Bool) : Descends seed (s.insertDoc doc h ours) := by
  cases doc with
  | none => exact descends
  | some doc =>
    unfold IndexMergeSurvivor.insertDoc
    dsimp only
    split <;> exact ⟨fun d => descends.definition d, descends.unique, descends.seedLeft, descends.seedMap⟩

theorem apply (edit : MergeDocEdit) (h : Bytes) : Descends seed (applyToSurvivor edit h s) := by
  unfold applyToSurvivor
  split
  · exact (descends.deleteDoc _ h).insertDoc _ h _
  · exact descends

end Descends

end

theorem mem_RangeLookupCapped {m : TreeSet Bytes} {start stop : Bytes} {cap : Nat}
    (found : id ∈ RangeLookupCapped m start stop cap) : ∃ key ∈ m, InRange start stop key ∧
    entryID key = some id := by
  unfold RangeLookupCapped at found
  dsimp only at found
  split at found
  · cases found
  · obtain ⟨key, member, read⟩ := mem_filterMap.mp found
    obtain ⟨entry, inside⟩ := mem_filter.mp member
    exact ⟨key, TreeSet.mem_toList.mp entry, of_decide_eq_true inside, read⟩

section
variable [Platform]

variable {id : Bytes} {owner : PendingOwner}
  {p : Bytes} {pending : Std.TreeMap Bytes PendingOwner} {rows : List (List Value)} {s : IndexMergeSurvivor}

theorem pending_release (held : (rows.foldl (releaseClaim id) pending)[p]? = some owner) :
    pending[p]? = some owner := by
  induction rows generalizing pending with
  | nil => exact held
  | cons _ rows ih =>
    have before := ih held
    unfold releaseClaim at before
    split at before
    · split at before
      · rw [TreeMap.getElem?_erase] at before
        split at before
        · cases before
        · exact before
      · exact before
    · exact before

theorem pending_addClaim {claim : PendingOwner} (held : (rows.foldl (addClaim claim) pending)[p]? = some owner) :
    (owner = claim ∧ ∃ row ∈ rows, p = (EqualityProbeBounds row).1) ∨ pending[p]? = some owner := by
  induction rows generalizing pending with
  | nil => exact .inr held
  | cons row rows ih =>
    rcases ih held with ⟨same, other, member, here⟩ | before
    · exact .inl ⟨same, other, .tail _ member, here⟩
    · unfold addClaim at before
      rw [TreeMap.getElem?_insert] at before
      split at before
      next here =>
        cases before
        exact .inl ⟨rfl, row, .head _, (Std.compare_eq_iff_eq.mp here).symm⟩
      · exact .inr before

theorem rowCollision_some {row : List Value} (collision : s.rowCollision id row = some owner) :
    owner.id ≠ id ∧ (s.pending[(EqualityProbeBounds row).1]? = some owner ∨ (owner.ours = s.seedLeft ∧ owner.id ∈
        RangeLookupCapped s.seedMap (EqualityProbeBounds row).1 (EqualityProbeBounds row).2 4)) := by
  unfold IndexMergeSurvivor.rowCollision at collision
  split at collision
  next claimed =>
    split at collision
    · cases collision
    next other =>
      cases collision
      exact ⟨other, .inl claimed⟩
  · obtain ⟨other, found, rfl⟩ := Option.map_eq_some_iff.mp collision
    have live := find?_some found
    simp only [Bool.and_eq_true, bne_iff_ne, ne_eq] at live
    exact ⟨live.1, .inr ⟨rfl, mem_of_find?_eq_some found⟩⟩

variable [QueryEnv]

theorem uniqueCollision_some (collision : s.uniqueCollision doc id = some owner) : s.index.info.unique = true ∧
      ∃ row ∈ (indexEntriesForDoc doc s.index.info).rows, s.rowCollision id row = some owner := by
  unfold IndexMergeSurvivor.uniqueCollision at collision
  split at collision
  next unique =>
    dsimp only at collision
    split at collision
    · cases collision
    · exact ⟨unique, exists_of_findSome?_eq_some collision⟩
  · cases collision

theorem uniqueCollision_eq_none : s.uniqueCollision doc id = none ↔
      (s.index.info.unique = true → (indexEntriesForDoc doc s.index.info).lossy = false →
        ¬ s.index.info.lossy = true → ∀ row ∈ (indexEntriesForDoc doc s.index.info).rows,
          s.rowCollision id row = none) := by
  unfold IndexMergeSurvivor.uniqueCollision
  cases unique : s.index.info.unique with
  | false => simp
  | true =>
    cases faithful : (indexEntriesForDoc doc s.index.info).lossy with
    | true => simp [faithful]
    | false => cases lossy : s.index.info.lossy <;> simp [faithful]

theorem survivorLoser_some {loser : MergeLoser} (lost : survivorLoser edit key s = some loser) :
    ∃ oldDoc newDoc owner, edit.perSurvivor s = some (oldDoc, some newDoc) ∧
      s.uniqueCollision newDoc key = some owner ∧
        ((loser.incoming = true ∧ loser.id = key ∧ (edit.incomingOurs = false ∨ owner.ours = true)) ∨
          (loser.incoming = false ∧ loser.id = owner.id ∧ edit.incomingOurs = true ∧ owner.ours = false)) := by
  unfold survivorLoser at lost
  split at lost
  next oldDoc newDoc exchanged =>
    obtain ⟨owner, collision, made⟩ := Option.map_eq_some_iff.mp lost
    refine ⟨oldDoc, newDoc, owner, exchanged, collision, ?_⟩
    split at made
    next wins =>
      cases made
      simp only [Bool.and_eq_true, Bool.not_eq_true'] at wins
      exact .inr ⟨rfl, rfl, wins⟩
    next loses =>
      cases made
      simp only [Bool.and_eq_true, Bool.not_eq_true', not_and, Bool.not_eq_false] at loses
      refine .inl ⟨rfl, rfl, ?_⟩
      cases ours : edit.incomingOurs with
      | false => exact .inl rfl
      | true => exact .inr (loses ours)
  · cases lost

/-- Probing for the keys of a document finds an entry of another. -/
def Probes (info : IndexInfo) (doc : Document) (id : Bytes) (other : Document) : Prop :=
  ∃ row ∈ (indexEntriesForDoc doc info).rows, ∃ found ∈ (indexEntriesForDoc other info).rows,
    InRange (EqualityProbeBounds row).1 (EqualityProbeBounds row).2 (BuildSecondaryKey found id)

def Sourced (V : Bool → Bytes → Document → Prop) (s : IndexMergeSurvivor) : Prop :=
  ∀ p owner, s.pending[p]? = some owner → ∃ d, V owner.ours owner.id d ∧
    ∃ row ∈ (indexEntriesForDoc d s.index.info).rows, p = (EqualityProbeBounds row).1

namespace Sourced

variable {V : Bool → Bytes → Document → Prop} {s : IndexMergeSurvivor} (sourced : Sourced V s)

include sourced

theorem deleteDoc (doc : Option Document) (h : Bytes) : Sourced V (s.deleteDoc doc h) := by
  cases doc with
  | none => exact sourced
  | some doc =>
    unfold IndexMergeSurvivor.deleteDoc
    dsimp only
    split
    · intro p owner held
      exact sourced p owner (pending_release held)
    · exact sourced

theorem insertDoc {doc : Option Document} (source : ∀ d, doc = some d → V ours h d) :
    Sourced V (s.insertDoc doc h ours) := by
  cases doc with
  | none => exact sourced
  | some doc =>
    unfold IndexMergeSurvivor.insertDoc
    dsimp only
    split
    · intro p owner held
      rcases pending_addClaim held with ⟨rfl, row, member, here⟩ | before
      · exact ⟨doc, source doc rfl, row, member, here⟩
      · exact sourced p owner before
    · exact sourced

end Sourced

theorem collision_probes {V : Bool → Bytes → Document → Prop} {start : Bytes → Option Document}
    (sourced : Sourced V s)
    (described : Describes (entryScheme s.index.info) start {k | k ∈ s.seedMap})
    (collision : s.uniqueCollision doc id = some owner) : s.index.info.unique = true ∧ owner.id ≠ id ∧ ∃ d,
      (V owner.ours owner.id d ∨ (owner.ours = s.seedLeft ∧ start owner.id = some d)) ∧
        Probes s.index.info doc owner.id d := by
  obtain ⟨unique, row, member, hit⟩ := uniqueCollision_some collision
  obtain ⟨other, claimed | ⟨seeded, found⟩⟩ := rowCollision_some hit
  · obtain ⟨d, source, claim, rows, here⟩ := sourced _ _ claimed
    refine ⟨unique, other, d, .inl source, row, member, claim, rows, inRange_probe ?_ _⟩
    exact append_cancel_right here
  · obtain ⟨key, entry, inside, read⟩ := mem_RangeLookupCapped found
    obtain ⟨i, d, stored, belongs⟩ := (described.exact_ key).mp entry
    obtain ⟨claim, rows, rfl⟩ := mem_map.mp belongs
    rw [entryID_BuildSecondaryKey (described.inside i d stored), Option.some.injEq] at read
    subst read
    exact ⟨unique, other, d, .inr ⟨seeded, stored⟩, row, member, claim, rows, inside⟩

end

end DumboDB.Dolt
