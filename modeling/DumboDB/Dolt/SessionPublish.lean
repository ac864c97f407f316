import DumboDB.Foundation.Optimistic
import DumboDB.Dolt.LeafMerge
import DumboDB.Dolt.MergeResolvable
import DumboDB.Dolt.ResolutionIndexes
import DumboDB.Dolt.RootMerge

/-!
Concurrent sessions on one branch: under the Touched modes the updates of a leaf compose in the order
of the publishes.
-/

namespace DumboDB.Dolt
open Foundation ByteOrder DumboDB.Types Index Handler Fallible Optimistic List Std

structure LeafRef where
  name : Bytes
  key : Bytes
  path : List Bytes
  user : name ≠ reservedCatalogName

def LeafRef.InID (f : LeafRef) : Prop := f.path.head? = some idKey

section
variable {Table : Type} [TableStore Table]

def entryLeaf (entry : Option (NsEntry Table)) (f : LeafRef) : Option Value :=
  docLeaf (entryDocs entry)[f.key]? f.path

def Root.leaf (r : Root Table) (f : LeafRef) : Option Value := entryLeaf (r.side f.name).entry f

def WorkingSet.leaf (ws : WorkingSet Table) (f : LeafRef) : Option Value := ws.working.leaf f

end

def Root.TouchedModes {Table : Type} (r : Root Table) : Prop :=
  ∀ name, (effectiveMetadataMergeMode ((r.side name).catalog.map docToCollMeta)).Touched

structure MergedName.Clear {Table : Type} (merged : MergedName Table) : Prop where
  view : merged.view = none
  metadata : merged.metadata = none
  documents : merged.documents = []

variable {mode : MergeMode} {name : Bytes}

theorem mergedCollectionMode_touched {v : RowSides} (found : mergedCollectionMode v = .ok mode)
    (left : (effectiveMetadataMergeMode (v.left.map docToCollMeta)).Touched)
    (right : (effectiveMetadataMergeMode (v.right.map docToCollMeta)).Touched) : mode.Touched := by
  unfold mergedCollectionMode at found
  dsimp only at found
  split_ifs at found <;> cases found <;> assumption

section
variable {Table : Type} [TableStore Table] [Platform] [QueryEnv] [ConflictHash] [CollationIdentity]

theorem mergeCollectionDTBL_leaf {theirHash : Bytes} {into from_ merged : Table}
    {base : Option Table} (done : TableMerge.mergeCollectionDTBL name theirHash mode into from_ base
    = .ok (merged, []))
    {f : LeafRef} (here : f.name = name) (plainBase : PlainLeaf (entryLeaf (base.map NsEntry.table) f))
    (plainOurs : PlainLeaf (entryLeaf (some (.table into)) f))
    (plainTheirs : PlainLeaf (entryLeaf (some (.table from_)) f)) :
    LeafStep (entryLeaf (base.map NsEntry.table) f) (entryLeaf (some (.table into)) f)
        (entryLeaf (some (.table from_)) f) (entryLeaf (some (.table merged)) f) ∧
      (mode.Touched → ¬f.InID → entryLeaf (some (.table into)) f = entryLeaf (base.map NsEntry.table) f ∨
        entryLeaf (some (.table from_)) f = entryLeaf (base.map NsEntry.table) f) := by
  obtain ⟨c, captured, written⟩ := map_eq_ok.mp done
  obtain ⟨address, entries⟩ := Prod.mk.inj written
  obtain ⟨_, -, folded⟩ := bind_eq_ok.mp captured
  obtain ⟨docs, clear⟩ := captured_clear folded entries
  have baseDocs : (entryDocs (base.map NsEntry.table))[f.key]? =
      ((base.map TableStore.coll).getD emptyCollection).docs[f.key]? := by
    cases base <;> rfl
  have mergedDocs : (entryDocs (some (NsEntry.table merged)))[f.key]? = (c.merged[f.key]?).map canonical := by
    rw [← address]
    exact TableStore.docs_write _ _
  have outcome : c.merged[f.key]? = _ := congrFun docs f.key
  unfold entryLeaf at plainBase plainOurs plainTheirs ⊢
  rw [baseDocs] at plainBase ⊢
  rw [mergedDocs, outcome]
  exact alone_leaf (here ▸ f.user) (clear f.key) (fun doc => TableStore.stored into f.key doc)
    (fun doc => TableStore.stored from_ f.key doc) plainBase plainOurs plainTheirs

variable {w : NameThreeWay Table}

theorem mergeEntries_tables {entry : Option (NsEntry Table)}
    {documents : List ConflictEntry} (merged : mergeEntries w = .ok (entry, none, documents)) :
    ∃ into from_ base out mode, w.ours.entry = some (.table into) ∧ w.theirs.entry = some (.table from_) ∧
      w.base.entry = Option.map NsEntry.table base ∧ mergedCollectionMode w.catalogSides = .ok mode ∧
        TableMerge.mergeCollectionDTBL w.name w.theirHash mode into from_ base = .ok (out, documents) ∧
          entry = some (.table out) := by
  unfold mergeEntries at merged
  cases hasView : isViewEntry w.ours.entry || isViewEntry w.theirs.entry || isViewEntry w.base.entry with
  | true =>
    rw [if_pos hasView] at merged
    cases merged
  | false =>
    rw [if_neg (Bool.eq_false_iff.mp hasView)] at merged
    split at merged
    next base into from_ hasOurs hasTheirs =>
      obtain ⟨mode, resolved, rest⟩ := bind_eq_ok.mp merged
      split at rest
      · cases rest
      next out _ merges =>
        cases rest
        refine ⟨into, from_, _, out, mode, hasOurs, hasTheirs, ?_, resolved, merges, rfl⟩
        rcases noView : w.base.entry with - | t | chunk
        · rfl
        · rfl
        · simp [noView, isViewEntry] at hasView
    · cases merged

theorem mergeName_entry [DecidableEq Table] [Digest] {merged : MergedName Table} (done : mergeName w = .ok merged)
    (same : w.theirs.entry = w.base.entry) : merged.side.entry = w.ours.entry := by
  unfold mergeName at done
  dsimp only at done
  split_ifs at done <;> cases done <;> rfl

theorem mergeName_leaf [DecidableEq Table] [Digest] {merged : MergedName Table}
    (done : mergeName w = .ok merged) (clear : merged.Clear) {f : LeafRef} (here : f.name = w.name)
    (plainBase : PlainLeaf (entryLeaf w.base.entry f)) (plainOurs : PlainLeaf (entryLeaf w.ours.entry f))
    (plainTheirs : PlainLeaf (entryLeaf w.theirs.entry f)) :
    LeafStep (entryLeaf w.base.entry f) (entryLeaf w.ours.entry f) (entryLeaf w.theirs.entry f)
        (entryLeaf merged.side.entry f) ∧
      ((effectiveMetadataMergeMode (w.ours.catalog.map docToCollMeta)).Touched →
        (effectiveMetadataMergeMode (w.theirs.catalog.map docToCollMeta)).Touched →
        ¬f.InID → w.ours.entry ≠ none ∨ w.theirs.entry ≠ none → entryLeaf w.ours.entry f = entryLeaf w.base.entry f ∨
          entryLeaf w.theirs.entry f = entryLeaf w.base.entry f) := by
  unfold mergeName at done
  dsimp only at done
  split_ifs at done with governing sameTheirs sameOurs dropped
  · cases done
    have free := clear.metadata
    dsimp only at free
    simp [free, governingMetadataConflict] at governing
  · cases done
    rw [sameTheirs]
    exact ⟨⟨id, fun _ => rfl⟩, fun _ _ _ _ => .inr rfl⟩
  · cases done
    rw [sameOurs]
    exact ⟨⟨fun _ => rfl, fun wrote => absurd rfl wrote⟩, fun _ _ _ _ => .inl rfl⟩
  · cases done
    rw [dropped.1, dropped.2]
    refine ⟨⟨fun _ => rfl, fun _ => rfl⟩, fun _ _ _ kept => ?_⟩
    rcases kept with kept | kept <;> exact (kept rfl).elim
  · obtain ⟨⟨_, view, documents⟩, entries, rfl⟩ := map_eq_ok.mp done
    obtain rfl : view = none := clear.view
    obtain rfl : documents = [] := clear.documents
    obtain ⟨_, _, _, _, _, hasOurs, hasTheirs, hasBase, resolved, merges, rfl⟩ :=
      mergeEntries_tables entries
    rw [hasOurs] at plainOurs ⊢
    rw [hasTheirs] at plainTheirs ⊢
    rw [hasBase] at plainBase ⊢
    have leaf := mergeCollectionDTBL_leaf merges here plainBase plainOurs plainTheirs
    exact ⟨leaf.1, fun ours theirs outside _ => leaf.2 (mergedCollectionMode_touched resolved ours theirs) outside⟩

end

section
variable {Table : Type}

theorem Root.side_put (r : Root Table) (name other : Bytes) (side : NameSide Table) :
    (r.put name side).side other = if other = name then side else r.side other := by
  by_cases here : other = name
  · simp [Root.put, Root.side, here]
  · simp [Root.put, Root.side, TreeMap.getElem?_alter, here, Ne.symm here]

theorem Root.side_of_same [DecidableEq Table] {a b : Root Table} (same : a.same b = true) (name : Bytes) :
    a.side name = b.side name := by
  simp only [Root.same, Bool.and_eq_true, beq_iff_eq] at same
  simp only [Root.side, (TreeMap.equiv_iff_toList_eq.mpr same.1).getElem?_eq,
    (TreeMap.equiv_iff_toList_eq.mpr same.2).getElem?_eq]

theorem Root.side_of_not_mem {r : Root Table} (absent : name ∉ r.names) : r.side name = ⟨none, none⟩ := by
  simp only [Root.names, mem_append, TreeMap.mem_keys, not_or] at absent
  simp only [Root.side, TreeMap.getElem?_eq_none absent.1, TreeMap.getElem?_eq_none absent.2]

variable [TableStore Table] [Platform] [QueryEnv] [ConflictHash] [CollationIdentity] [DecidableEq Table] [Digest]
  [ValidatorMatcher] {theirHash : Bytes} {into from_ base : Root Table}

variable {m : RootMerge Table}

theorem mergeRootStep_clear {after : RootMerge Table}
    (stepped : mergeRootStep theirHash into from_ base m name = .ok after) (clear : after.clear = true) :
    m.clear = true ∧ ∃ merged,
      mergeName ⟨name, theirHash, into.side name, from_.side name, base.side name⟩ = .ok merged ∧
        merged.Clear ∧ after.root = m.root.put name merged.side := by
  unfold mergeRootStep at stepped
  split at stepped
  · cases stepped
  next merged done =>
    split at stepped
    · cases stepped
    next documents validated =>
      cases stepped
      obtain ⟨_, rfl, -⟩ := crossValidate_adds validated
      simp only [RootMerge.clear, Bool.and_eq_true, List.isEmpty_iff, append_eq_nil_iff,
        Option.toList_eq_nil_iff] at clear ⊢
      obtain ⟨⟨⟨documents, own, -⟩, views, view⟩, metadata, meta_⟩ := clear
      exact ⟨⟨⟨documents, views⟩, metadata⟩, merged, done, ⟨view, meta_, own⟩, rfl⟩

theorem mergeAddressMaps_side
    (done : mergeAddressMapsWithConflicts theirHash into from_ base = .ok m) (clear : m.clear = true) (name : Bytes) :
    (∃ merged, mergeName ⟨name, theirHash, into.side name, from_.side name, base.side name⟩ = .ok merged ∧
      merged.Clear ∧ m.root.side name = merged.side) ∨
      (from_.side name = into.side name ∧ base.side name = into.side name ∧ m.root.side name = into.side name) := by
  have swept := foldlM_sweep (fun passed m => m.clear = true →
      (∀ name ∈ passed, ∃ merged, mergeName ⟨name, theirHash, into.side name, from_.side name, base.side name⟩ =
          .ok merged ∧ merged.Clear ∧ m.root.side name = merged.side) ∧
        ∀ name, name ∉ passed → m.root.side name = into.side name)
    (by
      intro passed current rest _ _ _ held stepped clear
      obtain ⟨clearBefore, merged, here, free, put⟩ := mergeRootStep_clear stepped clear
      obtain ⟨inside, outside⟩ := held clearBefore
      refine ⟨fun name member => ?_, fun name absent => ?_⟩
      · by_cases same : name = current
        · subst same
          exact ⟨merged, here, free, by rw [put, Root.side_put, if_pos rfl]⟩
        · have early : name ∈ passed := by simpa [same] using member
          obtain ⟨other, found, rest⟩ := inside name early
          exact ⟨other, found, rest.1, by rw [put, Root.side_put, if_neg same, rest.2]⟩
      · simp only [mem_append, mem_singleton, not_or] at absent
        rw [put, Root.side_put, if_neg absent.2, outside name absent.1])
    done fun _ => ⟨by simp, fun _ _ => rfl⟩
  obtain ⟨inside, outside⟩ := swept clear
  by_cases member : name ∈ (TreeSet.ofList (into.names ++ from_.names ++ base.names)).toList
  · exact .inl (inside name member)
  · refine .inr ?_
    have absent := member
    rw [TreeSet.mem_toList, TreeSet.mem_ofList, contains_iff_mem] at absent
    simp only [mem_append, not_or] at absent
    rw [outside name member, Root.side_of_not_mem absent.1.1, Root.side_of_not_mem absent.1.2,
      Root.side_of_not_mem absent.2]
    exact ⟨rfl, rfl, rfl⟩

theorem reconcile_leaf {theirsHash : Bytes} {base ours theirs merged : WorkingSet Table}
    (done : reconcileBranchForSession theirsHash base ours theirs = .ok merged) {f : LeafRef}
    (plainBase : PlainLeaf (base.leaf f)) (plainOurs : PlainLeaf (ours.leaf f))
    (plainTheirs : PlainLeaf (theirs.leaf f)) : LeafStep (base.leaf f) (ours.leaf f) (theirs.leaf f) (merged.leaf f) ∧
      (ours.working.TouchedModes → theirs.working.TouchedModes →
        ¬f.InID → (ours.working.side f.name).entry ≠ none ∨ (theirs.working.side f.name).entry ≠ none →
        ours.leaf f = base.leaf f ∨ theirs.leaf f = base.leaf f) := by
  have leafOf_same {a b : WorkingSet Table} (same : a.working.same b.working = true) : a.leaf f = b.leaf f := by
    simp only [WorkingSet.leaf, Root.leaf, Root.side_of_same same]
  unfold reconcileBranchForSession reconcileWorkingSets at done
  split_ifs at done with paused unwritten unmoved
  · cases done
    have same := leafOf_same unwritten
    exact ⟨⟨fun _ => rfl, fun wrote => absurd same.symm wrote⟩, fun _ _ _ _ => .inl same.symm⟩
  · cases done
    have same := leafOf_same unmoved
    exact ⟨⟨fun kept => kept.trans same, fun _ => rfl⟩, fun _ _ _ _ => .inr same.symm⟩
  · split at done
    · cases done
    next m roots =>
      split_ifs at done with clear
      cases done
      rcases mergeAddressMaps_side roots clear f.name with ⟨_, merges, free, side⟩ | ⟨theirsSide, baseSide, side⟩
      · have leaf := mergeName_leaf merges free rfl plainBase plainOurs plainTheirs
        rw [← side] at leaf
        exact ⟨leaf.1, fun touchedOurs touchedTheirs => leaf.2 (touchedOurs f.name) (touchedTheirs f.name)⟩
      · simp only [WorkingSet.leaf, Root.leaf, theirsSide, baseSide, side]
        exact ⟨⟨fun _ => rfl, fun _ => rfl⟩, fun _ _ _ _ => .inl trivial⟩

end

section
variable {Table : Type} [TableStore Table] {f : LeafRef}

/-- The merge can see an update: it meets the value that was read, or it lies outside `_id`, changes
that value and is not made by dropping a collection that is gone. -/
def Detected (f : LeafRef) (p : Published (WorkingSet Table)) : Update (Option Value) → Prop
  | .keeps => True
  | .sets g =>
    p.fork.leaf f = p.base.leaf f ∨ (¬f.InID ∧ g (p.base.leaf f) ≠ p.base.leaf f ∧
        ((p.ours.working.side f.name).entry ≠ none ∨ (p.fork.working.side f.name).entry ≠ none))

/-- Every collection uses a Touched mode in what a session wrote and in what it met. -/
def TouchedPublish (p : Published (WorkingSet Table)) : Prop :=
  p.ours.working.TouchedModes ∧ p.fork.working.TouchedModes

variable {p : Published (WorkingSet Table)} {u : Update (Option Value)}

theorem found_of_detected (made : Made (·.leaf f) p u) (detected : Detected f p u)
    (once : ¬f.InID → (p.ours.working.side f.name).entry ≠ none ∨ (p.fork.working.side f.name).entry ≠ none →
      p.ours.leaf f = p.base.leaf f ∨ p.fork.leaf f = p.base.leaf f) : Found (·.leaf f) p u := by
  cases u with
  | keeps => trivial
  | sets g =>
    rcases detected with met | ⟨outside, changes, kept⟩
    · exact met
    · rcases once outside kept with unchanged | met
      · exact absurd (made.symm.trans unchanged) changes
      · exact met

variable [DecidableEq Table]

theorem WorkingSet.leaf_of_holds {a b : WorkingSet Table} (held : a.holds b) (f : LeafRef) : a.leaf f = b.leaf f := by
  simp only [WorkingSet.leaf, Root.leaf, Root.side_of_same held.1]

variable [Platform] [QueryEnv] [ConflictHash] [CollationIdentity] [Digest] [ValidatorMatcher]

def Reconciles (base ours theirs merged : WorkingSet Table) : Prop :=
  ∃ theirsHash, reconcileBranchForSession theirsHash base ours theirs = .ok merged

/-- What is published has every leaf that the session wrote and every other one as the branch held it
(zeros of either sign are one value here), and every collection that nobody else changed. -/
structure Includes (p : Published (WorkingSet Table)) : Prop where
  leaf : ∀ f, PlainLeaf (p.base.leaf f) → PlainLeaf (p.ours.leaf f) → PlainLeaf (p.fork.leaf f) →
    LeafStep (p.base.leaf f) (p.ours.leaf f) (p.fork.leaf f) (p.merged.leaf f)
  entry : ∀ name, (p.fork.working.side name).entry = (p.base.working.side name).entry →
    (p.merged.working.side name).entry = (p.ours.working.side name).entry

theorem Reconciles.includes (reconciled : Reconciles p.base p.ours p.fork p.merged) : Includes p := by
  obtain ⟨theirsHash, done⟩ := reconciled
  refine ⟨fun f ofBase ofOurs ofFork => (reconcile_leaf done ofBase ofOurs ofFork).1, fun name still => ?_⟩
  unfold reconcileBranchForSession reconcileWorkingSets at done
  split_ifs at done with paused unwritten unmoved
  · have same := Except.ok.inj done
    rw [← same, still, Root.side_of_same unwritten]
  · rw [← Except.ok.inj done]
  · split at done
    · cases done
    next m roots =>
      split_ifs at done with clear
      rw [← Except.ok.inj done]
      rcases mergeAddressMaps_side roots clear name with ⟨_, merges, -, side⟩ | ⟨-, -, side⟩
      · rw [side]
        exact mergeName_entry merges still
      · rw [side]

/-- The branch still held what the session had read of every leaf that it wrote. The merge does not see
it of an `_id`, or of a collection that both sides dropped. -/
def Current (p : Published (WorkingSet Table)) : Prop :=
  ∀ f, PlainLeaf (p.base.leaf f) → PlainLeaf (p.ours.leaf f) → PlainLeaf (p.fork.leaf f) → ¬f.InID →
    (p.ours.working.side f.name).entry ≠ none ∨ (p.fork.working.side f.name).entry ≠ none →
      p.ours.leaf f ≠ p.base.leaf f → p.fork.leaf f = p.base.leaf f

theorem Reconciles.current (reconciled : Reconciles p.base p.ours p.fork p.merged) (touched : TouchedPublish p) :
    Current p := by
  obtain ⟨_, done⟩ := reconciled
  intro f ofBase ofOurs ofFork outside kept wrote
  have once := (reconcile_leaf done ofBase ofOurs ofFork).2 touched.1 touched.2 outside kept
  exact once.resolve_left wrote

theorem publish_leaf (reconciled : Reconciles p.base p.ours p.fork p.merged) (touched : TouchedPublish p)
    (made : Made (·.leaf f) p u) (detected : Detected f p u) (plainBase : PlainLeaf (p.base.leaf f))
    (plainOurs : PlainLeaf (p.ours.leaf f)) (plainFork : PlainLeaf (p.fork.leaf f)) :
    Found (·.leaf f) p u ∧ p.merged.leaf f = u.apply (p.fork.leaf f) ∧ PlainLeaf (p.merged.leaf f) := by
  obtain ⟨_, done⟩ := reconciled
  obtain ⟨step, once⟩ := reconcile_leaf done plainBase plainOurs plainFork
  have found := found_of_detected made detected (once touched.1 touched.2)
  have carries : Carries (·.leaf f) p := ⟨step.untouched, step.unmoved⟩
  refine ⟨found, carries.applies made found, ?_⟩
  cases u with
  | keeps => exact carries.untouched made ▸ plainFork
  | sets g => exact carries.unmoved found ▸ plainOurs

/-- On a branch whose collections use Touched modes, the updates of a leaf compose in the order of the
publishes, each applied to the value that it read, if no value holds a negative zero and the merge can
see every update. -/
theorem updates_compose {ι : Type} [DecidableEq ι] {start s : System ι (WorkingSet Table)} (f : LeafRef)
    (idle : ∀ i, start.phase i = .idle)
    {updates : List (Published (WorkingSet Table) × Update (Option Value))}
    (run : Run Reconciles WorkingSet.holds start (updates.map Prod.fst) s)
    (modes : ∀ q ∈ updates, TouchedPublish q.1) (made : ∀ q ∈ updates, Made (·.leaf f) q.1 q.2)
    (plainStart : PlainLeaf (start.branch.leaf f)) (plain : ∀ q ∈ updates, PlainLeaf (q.1.ours.leaf f))
    (detected : ∀ q ∈ updates, Detected f q.1 q.2) :
    s.branch.leaf f = compose (updates.map Prod.snd) (start.branch.leaf f) ∧
      ∀ q ∈ updates, Found (·.leaf f) q.1 q.2 := by
  -- the invariant: every state of the branch is plain at the leaf, and the current one is composed
  have ruled := Run.rule idle
    (fun log branch => ∀ pairs : List (Published (WorkingSet Table) × Update (Option Value)),
    pairs.map Prod.fst = log →
      (∀ q ∈ pairs, TouchedPublish q.1 ∧ Made (·.leaf f) q.1 q.2 ∧ PlainLeaf (q.1.ours.leaf f) ∧ Detected f q.1 q.2) →
        (∀ state ∈ branch :: states start.branch log, PlainLeaf (state.leaf f)) ∧
          branch.leaf f = compose (pairs.map Prod.snd) (start.branch.leaf f) ∧ ∀ q ∈ pairs, Found (·.leaf f) q.1 q.2)
    (by
      rintro pairs empty -
      obtain rfl := map_eq_nil_iff.mp empty
      exact ⟨by simpa [states] using plainStart, rfl, by simp⟩)
    (by
      intro log branch p held pinned reconciled still pairs paired met
      obtain ⟨before, _, rfl, rfl, single⟩ := map_eq_append_iff.mp paired
      obtain ⟨⟨published, u⟩, rfl, rfl⟩ := map_eq_singleton_iff.mp single
      obtain ⟨plainStates, value, found⟩ := held before rfl fun q member => met q (by simp [member])
      obtain ⟨touched, wrote, plainOurs, sees⟩ := met ⟨published, u⟩ (by simp)
      have current : branch.leaf f = published.fork.leaf f := WorkingSet.leaf_of_holds still f
      obtain ⟨foundHere, applied, plainMerged⟩ := publish_leaf reconciled touched wrote sees
        (plainStates _ (.tail _ pinned)) plainOurs (current ▸ plainStates branch (.head _))
      refine ⟨?_, ?_, ?_⟩
      · intro state member
        simp only [states, map_append, mem_cons, mem_append] at member plainStates
        rcases member with rfl | rfl | early | late
        · exact plainMerged
        · exact plainStart
        · exact plainStates state (.inr (.inr early))
        · simp only [map_cons, map_nil, mem_singleton] at late
          exact late ▸ plainMerged
      · rw [map_append, map_cons, map_nil, compose_concat, ← value, current]
        exact applied
      · intro q member
        rcases mem_append.mp member with early | late
        · exact found q early
        · cases mem_singleton.mp late
          exact foundHere)
    run updates rfl fun q member => ⟨modes q member, made q member, plain q member, detected q member⟩
  exact ruled.2

end

/-! Two sessions on one document. -/

theorem getElem?_ofList_toList (m : TreeMap Bytes Document) (key : Bytes) :
    (TreeMap.ofList m.toList)[key]? = m[key]? := by
  cases held : m[key]? with
  | some doc =>
    exact TreeMap.getElem?_ofList_of_mem ReflCmp.compare_self TreeMap.distinct_keys_toList
      (TreeMap.mem_toList_iff_getElem?_eq_some.mpr held)
  | none =>
    apply TreeMap.getElem?_eq_none
    rw [TreeMap.mem_ofList, contains_iff_mem, mem_map]
    rintro ⟨⟨_, doc⟩, member, rfl⟩
    rw [TreeMap.mem_toList_iff_getElem?_eq_some.mp member] at held
    cases held

structure ListedTable where
  docs : List (Bytes × Document)
deriving DecidableEq

instance : TableStore ListedTable where
  coll t := ⟨none, (Std.TreeMap.ofList t.docs).map fun _ => canonical, emptyCollection.indexes⟩
  write c := ⟨c.docs.toList⟩
  stored t key doc held := by
    rw [Std.TreeMap.getElem?_map, Option.map_eq_some_iff] at held
    obtain ⟨raw, -, rfl⟩ := held
    exact canonical_canonical raw
  docs_write c key := by
    rw [Std.TreeMap.getElem?_map, getElem?_ofList_toList]

attribute [local instance] amd64 bareEnv headDigest plainHash sameCollations acceptsAll

abbrev listedMerge (base ours theirs : WorkingSet ListedTable) : Except ReconcileError (WorkingSet ListedTable) :=
  reconcileBranchForSession [] base ours theirs

abbrev listedReconciles : WorkingSet ListedTable → WorkingSet ListedTable → WorkingSet ListedTable →
    WorkingSet ListedTable → Prop :=
  Reconciles

def oneDocument (a b : Value) : WorkingSet ListedTable :=
  let held : ListedTable := ⟨[([1], [(idKey, .int32 1), (ascii ['a'], a), (ascii ['b'], b)])]⟩
  let root : Root ListedTable := ⟨.ofList [(ascii ['c'], NsEntry.table held)], ∅⟩
  ⟨root, root, false⟩

def leafA : LeafRef := ⟨ascii ['c'], [1], [ascii ['a']], by decide⟩

def leafB : LeafRef := ⟨ascii ['c'], [1], [ascii ['b']], by decide⟩

theorem plainLeaf_int32 (n : Int32) : PlainLeaf (some (.int32 n)) := by
  rintro _ ⟨⟩
  rfl

theorem leaves_oneDocument (n m : Int32) : (oneDocument (.int32 n) (.int32 m)).leaf leafA = some (.int32 n) ∧
    (oneDocument (.int32 n) (.int32 m)).leaf leafB = some (.int32 m) := ⟨rfl, rfl⟩

/-- One session wrote the first field of the document, the branch has another value in the second. -/
theorem Includes.both {n written other found : Int32} {merged : WorkingSet ListedTable}
    (includes : Includes ⟨oneDocument (.int32 n) (.int32 other), oneDocument (.int32 written) (.int32 other),
      oneDocument (.int32 n) (.int32 found), merged⟩) (changed : written ≠ n) :
    merged.leaf leafA = some (.int32 written) ∧ merged.leaf leafB = some (.int32 found) := by
  have a := includes.leaf leafA
  have b := includes.leaf leafB
  simp only [leaves_oneDocument] at a b
  have here := a (plainLeaf_int32 n) (plainLeaf_int32 written) (plainLeaf_int32 n)
  have there := b (plainLeaf_int32 other) (plainLeaf_int32 other) (plainLeaf_int32 found)
  exact ⟨here.written (by simpa using changed), there.untouched rfl⟩

def resting (branch : WorkingSet ListedTable) : System Bool (WorkingSet ListedTable) := ⟨branch, fun _ => .idle⟩

def published (base left right : WorkingSet ListedTable) :
    Except ReconcileError (WorkingSet ListedTable × WorkingSet ListedTable) :=
  (listedMerge base left base).bind fun first => (listedMerge base right first).map fun second => (first, second)

theorem published_runs {base left right first second : WorkingSet ListedTable}
    (both : published base left right = .ok (first, second)) :
    ∃ s, Run listedReconciles WorkingSet.holds (resting base)
        [⟨base, left, base, first⟩, ⟨base, right, first, second⟩] s ∧ s.branch = second := by
  obtain ⟨_, reads, rest⟩ := bind_eq_ok.mp both
  obtain ⟨_, rereads, same⟩ := map_eq_ok.mp rest
  obtain ⟨rfl, rfl⟩ := Prod.mk.inj same
  exact Run.pair (fun _ => rfl) Bool.false_ne_true ⟨[], reads⟩ ⟨[], rereads⟩
    fun w => ⟨by simp [Root.same], by simp [Root.same], rfl⟩

theorem touchedModes_of_empty {Table : Type} {r : Root Table} (bare : r.catalog.isEmpty = true) : r.TouchedModes := by
  intro name
  have none_ : (r.side name).catalog = none := TreeMap.getElem?_of_isEmpty bare
  rw [none_]
  exact .inr rfl

def countUp : Option Value → Option Value
  | some (.int32 n) => some (.int32 (n + 1))
  | v => v

/-- One session counts up a field, another sets the other field of the document. -/
theorem other_field_kept : ∃ first second s,
    Run listedReconciles WorkingSet.holds (resting (oneDocument (.int32 1) (.int32 1)))
        [⟨oneDocument (.int32 1) (.int32 1), oneDocument (.int32 2) (.int32 1),
          oneDocument (.int32 1) (.int32 1), first⟩,
          ⟨oneDocument (.int32 1) (.int32 1), oneDocument (.int32 1) (.int32 5), first, second⟩] s ∧
      s.branch.leaf leafA = countUp (some (.int32 1)) := by
  obtain ⟨⟨first, second⟩, both, plain⟩ : ∃ states, published (oneDocument (.int32 1) (.int32 1))
      (oneDocument (.int32 2) (.int32 1)) (oneDocument (.int32 1) (.int32 5)) = .ok states ∧
        states.1.working.catalog.isEmpty = true := by decide +kernel
  obtain ⟨s, run, -⟩ := published_runs both
  have values : (oneDocument (.int32 1) (.int32 1)).leaf leafA = some (.int32 1) ∧
      (oneDocument (.int32 2) (.int32 1)).leaf leafA = some (.int32 2) ∧
        (oneDocument (.int32 1) (.int32 5)).leaf leafA = some (.int32 1) := by
    decide +kernel
  have composed := @updates_compose ListedTable _ _ amd64 bareEnv plainHash sameCollations headDigest acceptsAll
    Bool _ _ s leafA (fun _ => rfl) [(⟨_, _, _, first⟩, .sets countUp), (⟨_, _, _, second⟩, .keeps)] run
    (by
      simp only [mem_cons, not_mem_nil, or_false, forall_eq_or_imp, forall_eq]
      exact ⟨⟨touchedModes_of_empty rfl, touchedModes_of_empty rfl⟩,
        ⟨touchedModes_of_empty rfl, touchedModes_of_empty plain⟩⟩)
    (by
      simp only [mem_cons, not_mem_nil, or_false, forall_eq_or_imp, forall_eq, Made, values]
      exact ⟨rfl, rfl⟩)
    (plainLeaf_int32 1)
    (by
      simp only [mem_cons, not_mem_nil, or_false, forall_eq_or_imp, forall_eq, values]
      exact ⟨plainLeaf_int32 2, plainLeaf_int32 1⟩)
    (by
      simp only [mem_cons, not_mem_nil, or_false, forall_eq_or_imp, forall_eq]
      exact ⟨.inl rfl, trivial⟩)
  refine ⟨first, second, s, run, composed.1.trans ?_⟩
  change countUp ((oneDocument (.int32 1) (.int32 1)).leaf leafA) = _
  rw [values.1]

def negate : Option Value → Option Value
  | some (.double f) => some (.double ⟨f.bits ^^^ 0x8000000000000000⟩)
  | v => v

/-- A field holds `0.0`; one session sets it to `1.0`, another negates it. The branch is left with
`1.0`, and not with its negation. -/
theorem negated_zero_lost : ∃ first second s,
    let base := oneDocument (.double ⟨0⟩) .null
    let left := oneDocument (.double (.ofInt 1)) .null
    let right := oneDocument (.double ⟨0x8000000000000000⟩) .null
    Run listedReconciles WorkingSet.holds (resting base) [⟨base, left, base, first⟩, ⟨base, right, first, second⟩] s ∧
      (base.working.TouchedModes ∧ left.working.TouchedModes ∧ right.working.TouchedModes ∧
        first.working.TouchedModes) ∧
        left.leaf leafA = some (.double (.ofInt 1)) ∧ right.leaf leafA = negate (base.leaf leafA) ∧
          s.branch.leaf leafA = some (.double (.ofInt 1)) ∧
            compose [.sets fun _ => some (.double (.ofInt 1)), .sets negate] (base.leaf leafA) =
              some (.double (.ofInt (-1))) := by
  obtain ⟨⟨first, second⟩, both, plain, value⟩ : ∃ states, published (oneDocument (.double ⟨0⟩) .null)
      (oneDocument (.double (.ofInt 1)) .null) (oneDocument (.double ⟨0x8000000000000000⟩) .null) = .ok states ∧
        states.1.working.catalog.isEmpty = true ∧ states.2.leaf leafA = some (.double (.ofInt 1)) := by decide +kernel
  obtain ⟨s, run, rfl⟩ := published_runs both
  exact ⟨first, _, s, run, ⟨touchedModes_of_empty rfl, touchedModes_of_empty rfl, touchedModes_of_empty rfl,
    touchedModes_of_empty plain⟩, by decide +kernel, by decide +kernel, value, by decide +kernel⟩

end DumboDB.Dolt
