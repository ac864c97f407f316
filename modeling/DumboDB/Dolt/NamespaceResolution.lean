import DumboDB.Dolt.MergeClean
import DumboDB.Dolt.NamespaceConflict

/-!
What a name holds after one of its conflicts is resolved to a side. The chosen side is not written as
a whole: a view conflict writes view definitions only, one of metadata the catalog document, and the
entry where it is looked up again in a commit.
-/

namespace DumboDB.Dolt
open Foundation ByteOrder DumboDB.Types Function Option

inductive Side where
  | ours | theirs
deriving DecidableEq, Repr

def Side.resolution : Side → Resolution
  | .ours => .ours
  | .theirs => .theirs

namespace NamespaceOperation
variable {Table : Type}

def side (op : NamespaceOperation Table) : Side → NameSide Table
  | .ours => op.ours
  | .theirs => op.theirs

def Dropped (op : NamespaceOperation Table) : Prop :=
  op.base.catalog.isSome ∧ (op.ours.catalog = none ∨ op.theirs.catalog = none)

end NamespaceOperation

/-! The paused states of a name. -/

section
variable {Table : Type} [DecidableEq Table] [TableMerge Table] [ConflictHash] [Digest]

inductive ReachedName (op : NamespaceOperation Table) : PausedName Table → Prop where
  | pause {ms} : pauseName op = .ok ms → ReachedName op ms
  | resolve {ms after} {params : ResolveConflictParams} :
      ReachedName op ms → resolveNamespaceConflict op ms params = .ok after → ReachedName op after
  | restart {ms} : ReachedName op ms → ReachedName op (loadNamespaceConflicts op ms)

end

section
variable {Table : Type} {mce : MetaConflictEntry} {params : ResolveConflictParams}
  {root : NameSide Table} {vce : ViewConflictEntry} {op : NamespaceOperation Table} {ms : PausedName Table}
  {chosen : Side}

structure ReportsMeta (op : NamespaceOperation Table) (mce : MetaConflictEntry) : Prop where
  ours : mce.ours = op.ours.catalog.map docToCollMeta
  theirs : mce.theirs = op.theirs.catalog.map docToCollMeta
  dropped : (mce.ourDiff = .deleted ∨ mce.theirDiff = .deleted) ↔ op.Dropped

/-- The conflicts over a name report its sides, and while one is open the catalog is as it was
merged. -/
structure ReportsName (op : NamespaceOperation Table) (ms : PausedName Table) : Prop where
  view : ∀ vce, ms.view = some vce → vce.theirs = viewDefinition op.theirs.entry
  metadata : ∀ mce, ms.metadata = some mce → ReportsMeta op mce
  catalog : ms.openView.isSome ∨ ms.openMeta.isSome → ms.root.catalog = mergedCatalog op.threeWay.catalogSides

theorem classify_conflict_changed {v : RowSides} (conflict : classify none v = some .conflict) :
    v.left ≠ v.base ∧ v.right ≠ v.base := by
  unfold classify at conflict
  split at conflict
  · split at conflict <;> cases conflict
  · split at conflict
    · cases conflict
    · exact ⟨‹_›, ‹_›⟩

theorem capturedDiff_deleted (doc : Option Document) :
    (if doc.isSome then DiffType.modified else DiffType.deleted) = .deleted ↔ doc = none := by
  cases doc <;> simp

section
variable [ConflictHash] [Digest]

variable {op : NamespaceOperation Table} {ms : PausedName Table}

theorem metaConflictFromCatalog_reports {ourDiff theirDiff : DiffType}
    (built : metaConflictFromCatalog op.threeWay ourDiff theirDiff = some mce)
    (dropped : (ourDiff = .deleted ∨ theirDiff = .deleted) ↔ op.Dropped) : ReportsMeta op mce := by
  unfold metaConflictFromCatalog at built
  simp only [ite_none_right_eq_some, Option.some.injEq] at built
  obtain ⟨-, rfl⟩ := built
  exact ⟨rfl, rfl, dropped⟩

theorem capturedMetaConflict_reports (captured : capturedMetaConflict op.threeWay = some mce) :
    ReportsMeta op mce := by
  unfold capturedMetaConflict at captured
  simp only [ite_none_right_eq_some] at captured
  obtain ⟨conflict, built⟩ := captured
  refine metaConflictFromCatalog_reports built ?_
  obtain ⟨left, right⟩ := classify_conflict_changed conflict
  rw [capturedDiff_deleted, capturedDiff_deleted]
  refine ⟨fun dropped => ⟨?_, dropped⟩, fun dropped => dropped.2⟩
  -- a side without the document differs from a base that has it
  rw [isSome_iff_ne_none]
  rintro absent
  rcases dropped with gone | gone
  · exact left (gone.trans absent.symm)
  · exact right (gone.trans absent.symm)

theorem buildMetaConflict_reports (built : buildMetaConflict op.threeWay = some mce) : ReportsMeta op mce := by
  refine metaConflictFromCatalog_reports built ?_
  simp only [NameThreeWay.catalogSides, NamespaceOperation.threeWay, NamespaceOperation.Dropped]
  cases op.ours.catalog <;> cases op.theirs.catalog <;> cases op.base.catalog <;> simp [computeDiffType]

theorem mergeName_reports [DecidableEq Table] [TableMerge Table] {w : NameThreeWay Table}
    {merged : MergedName Table} (done : mergeName w = .ok merged) :
    merged.side.catalog = mergedCatalog w.catalogSides ∧ merged.metadata = capturedMetaConflict w ∧
      ∀ vce, merged.view = some vce → vce = buildViewConflict w := by
  unfold mergeName at done
  dsimp only at done
  split_ifs at done
  · cases done
    simp
  · cases done
    simp
  · cases done
    simp
  · cases done
    simp
  · obtain ⟨⟨_, _, _⟩, entries, rfl⟩ := Fallible.map_eq_ok.mp done
    refine ⟨rfl, rfl, ?_⟩
    intro vce shown
    unfold mergeEntries at entries
    split_ifs at entries
    · cases entries
      exact (Option.some.inj shown).symm
    · split at entries
      · obtain ⟨_, -, rest⟩ := Fallible.bind_eq_ok.mp entries
        split at rest
        · cases rest
        · cases rest
          cases shown
      · cases entries

theorem pauseName_reports [DecidableEq Table] [TableMerge Table] (paused : pauseName op = .ok ms) :
    ReportsName op ms := by
  obtain ⟨_, done, rfl⟩ := Fallible.map_eq_ok.mp paused
  obtain ⟨catalog, metadata, view⟩ := mergeName_reports done
  refine ⟨?_, ?_, fun _ => catalog⟩
  · intro vce shown
    rw [view vce shown]
    rfl
  · intro _ shown
    exact capturedMetaConflict_reports (metadata ▸ shown)

theorem ReportsName.restart (reports : ReportsName op ms) : ReportsName op (loadNamespaceConflicts op ms) := by
  unfold loadNamespaceConflicts
  split_ifs with settled hasView
  · exact ⟨by simp, by simp, by simp [PausedName.openView, PausedName.openMeta]⟩
  · refine ⟨?_, by simp, fun _ => reports.catalog ?_⟩
    · rintro _ shown
      cases shown
      rfl
    · simpa [isSome_iff_ne_none, or_iff_not_imp_left] using settled
  · refine ⟨by simp, fun mce built => buildMetaConflict_reports built, fun _ => reports.catalog ?_⟩
    simpa [isSome_iff_ne_none, or_iff_not_imp_left] using settled

end

theorem resolveViewConflict_catalog {after : NameSide Table}
    (resolved : resolveViewConflict root vce params = .ok after) : after.catalog = root.catalog := by
  unfold resolveViewConflict at resolved
  split at resolved <;> cases resolved <;> rfl

theorem resolveNamespaceConflict_ok {after : PausedName Table}
    (resolved : resolveNamespaceConflict op ms params = .ok after) :
    (∃ vce root, ms.openView = some vce ∧ resolveViewConflict ms.root vce params = .ok root ∧
        after = { ms with root := root, view := some { vce with resolved := true } }) ∨
      (ms.openView = none ∧ ∃ mce root, ms.openMeta = some mce ∧
        resolveMetaConflict op ms.root mce params = .ok root ∧
          after = { ms with root := root, metadata := some { mce with resolved := true } }) := by
  unfold resolveNamespaceConflict at resolved
  split at resolved
  next vce shown =>
    split_ifs at resolved
    obtain ⟨root, done, rfl⟩ := Fallible.map_eq_ok.mp resolved
    exact .inl ⟨vce, root, shown, done, rfl⟩
  next mce closed shown =>
    split_ifs at resolved
    obtain ⟨root, done, rfl⟩ := Fallible.map_eq_ok.mp resolved
    exact .inr ⟨closed, mce, root, shown, done, rfl⟩
  · cases resolved

theorem ReportsName.resolve {after : PausedName Table} (reports : ReportsName op ms)
    (resolved : resolveNamespaceConflict op ms params = .ok after) : ReportsName op after := by
  rcases resolveNamespaceConflict_ok resolved with
    ⟨vce, root, shown, done, rfl⟩ | ⟨closed, mce, root, shown, done, rfl⟩
  · have held : ms.view = some vce := (filter_eq_some_iff.mp shown).1
    refine ⟨?_, reports.metadata, fun _ => ?_⟩
    · rintro other same
      cases same
      exact reports.view vce held
    · exact (resolveViewConflict_catalog done).trans (reports.catalog (.inl (by simp [shown])))
  · have held : ms.metadata = some mce := (filter_eq_some_iff.mp shown).1
    refine ⟨reports.view, ?_, ?_⟩
    · rintro other same
      cases same
      exact ⟨(reports.metadata mce held).ours, (reports.metadata mce held).theirs,
        (reports.metadata mce held).dropped⟩
    · -- both conflicts are closed now
      rintro (stillOpen | stillOpen)
      · simp only [PausedName.openView] at closed stillOpen
        simp [closed] at stillOpen
      · simp [PausedName.openMeta] at stillOpen

theorem ReachedName.reports [DecidableEq Table] [TableMerge Table] [ConflictHash] [Digest]
    (reached : ReachedName op ms) : ReportsName op ms := by
  induction reached with
  | pause paused => exact pauseName_reports paused
  | resolve _ resolved ih => exact ih.resolve resolved
  | restart _ ih => exact ih.restart

/-! Where a resolution lands. -/

/-- A catalog document in the layout it is written in, with all its fields. -/
def Relaid (name : Bytes) (catalog : Option Document) : Prop :=
  catalog.map (fun doc => catalogDoc name (docToCollMeta doc)) = catalog

/-- A view conflict leaves the catalog as it was merged, and theirs is a definition or nothing.
Metadata is written anew; the entry, where a side dropped the collection, is that of a commit which a
rebase gives the other role. -/
def Lands (op : NamespaceOperation Table) (ms : PausedName Table) (chosen : Side) : Prop :=
  if ms.openView.isSome then
    match chosen with
    | .ours => ms.root.entry = op.ours.entry ∧ mergedCatalog op.threeWay.catalogSides = op.ours.catalog
    | .theirs =>
      (∀ address, op.theirs.entry ≠ some (.table address)) ∧
        mergedCatalog op.threeWay.catalogSides = op.theirs.catalog
  else
    Relaid op.name (op.side chosen).catalog ∧ (op.Dropped → op.kind ≠ .rebase ∨ op.ours.entry = op.theirs.entry) ∧
        (¬op.Dropped → ms.root.entry = (op.side chosen).entry)

theorem rewritten_definition (entry : Option (NsEntry Table)) :
    (viewDefinition entry).map (fun def_ => NsEntry.view (writeViewChunk def_)) = entry ↔
      ∀ address, entry ≠ some (.table address) := by
  rcases entry with - | address | chunk
  · simp [viewDefinition]
  · simp [viewDefinition]
  · simp [viewDefinition, writeViewChunk_readViewChunk]

theorem view_lands (reports : ReportsName op ms)
    (shown : ms.openView = some vce) (asked : params.resolution = chosen.resolution)
    (done : resolveViewConflict ms.root vce params = .ok root) : root = op.side chosen ↔ Lands op ms chosen := by
  have catalog : ms.root.catalog = mergedCatalog op.threeWay.catalogSides := reports.catalog (.inl (by simp [shown]))
  have theirs : vce.theirs = viewDefinition op.theirs.entry :=
    reports.view vce (filter_eq_some_iff.mp shown).1
  rw [NameSide.ext_iff]
  unfold resolveViewConflict at done
  cases chosen with
  | ours =>
    simp only [asked, Side.resolution] at done
    cases done
    simp [Lands, shown, catalog, NamespaceOperation.side]
  | theirs =>
    simp only [asked, Side.resolution] at done
    cases done
    simp [Lands, shown, catalog, theirs, NamespaceOperation.side, rewritten_definition]

theorem reconciled_entry {entry : Option (NsEntry Table)}
    (found : reconcileMetaCollExistence op chosen.resolution = .ok entry) :
    entry = (op.side chosen).entry ↔ op.kind ≠ .rebase ∨ op.ours.entry = op.theirs.entry := by
  cases chosen with
  | ours =>
    cases found
    by_cases rebase : op.kind = .rebase
    · simp [NamespaceOperation.side, NamespaceOperation.ours, NamespaceOperation.theirs, rebase, eq_comm]
    · simp [NamespaceOperation.side, NamespaceOperation.ours, rebase]
  | theirs =>
    simp only [reconcileMetaCollExistence, Side.resolution, if_true] at found
    split_ifs at found with missing
    cases found
    have loaded : op.commits op.theirHash = op.sideAt op.theirHash := by
      simp [NamespaceOperation.sideAt, missing]
    rw [loaded]
    by_cases rebase : op.kind = .rebase
    · have pick : op.theirHash = op.source := by simp [NamespaceOperation.theirHash, rebase]
      simp [NamespaceOperation.side, NamespaceOperation.ours, NamespaceOperation.theirs, rebase, pick]
    · simp [NamespaceOperation.side, NamespaceOperation.theirs, rebase]

theorem chosenMeta_side (reports : ReportsMeta op mce) (asked : params.resolution = chosen.resolution) :
    chosenMeta mce params = .ok ((op.side chosen).catalog.map docToCollMeta) := by
  unfold chosenMeta
  cases chosen with
  | ours => simp [asked, Side.resolution, reports.ours, NamespaceOperation.side]
  | theirs => simp [asked, Side.resolution, reports.theirs, NamespaceOperation.side]

theorem meta_lands (reports : ReportsMeta op mce)
    (closed : ms.openView = none) (asked : params.resolution = chosen.resolution)
    (done : resolveMetaConflict op ms.root mce params = .ok root) : root = op.side chosen ↔ Lands op ms chosen := by
  have noView : ms.openView.isSome = false := by simp [closed]
  simp only [resolveMetaConflict, chosenMeta_side reports asked, asked, Except.bind, Option.map_map] at done
  simp only [Lands, noView, NameSide.ext_iff, Relaid]
  split_ifs at done with diff
  · obtain ⟨_, found, rfl⟩ := Fallible.map_eq_ok.mp done
    have dropped : op.Dropped := reports.dropped.mp diff
    simp [reconciled_entry found, dropped, Function.comp_def, and_comm]
  · cases done
    have kept : ¬op.Dropped := fun dropped => diff (reports.dropped.mpr dropped)
    simp [kept, Function.comp_def, and_comm]

/-- After a conflict over a name is resolved to a side, the name is as on that side exactly when the
resolution lands there. -/
theorem resolution_lands [DecidableEq Table] [TableMerge Table] [ConflictHash] [Digest]
    (op : NamespaceOperation Table) {ms after : PausedName Table} (reached : ReachedName op ms)
    (chosen : Side) {params : ResolveConflictParams} (asked : params.resolution = chosen.resolution)
    (resolved : resolveNamespaceConflict op ms params = .ok after) :
    after.root = op.side chosen ↔ Lands op ms chosen := by
  rcases resolveNamespaceConflict_ok resolved with
    ⟨vce, root, shown, done, rfl⟩ | ⟨closed, mce, root, shown, done, rfl⟩
  · exact view_lands reached.reports shown asked done
  · exact meta_lands (reached.reports.metadata mce (Option.filter_eq_some_iff.mp shown).1) closed asked done

end

abbrev numberedTables : TableMerge Nat where
  mergeCollectionDTBL _ _ _ into _ _ := .ok (into, [])

/-- A name that the ancestor, the branch and the source of a merge have as given. -/
def mergeOfName (ancestor branch source : NameSide Nat) : NamespaceOperation Nat where
  kind := .merge
  name := ascii ['n']
  branch := branch
  source := [1]
  ancestor := [2]
  parent := fun _ => [2]
  commits := fun h => if h = [1] then source else ancestor

def viewOfOther : NameSide Nat := ⟨some (.view (writeViewChunk ⟨ascii ['m'], [], none⟩)), none⟩

def plainTable (address : Nat) : NameSide Nat :=
  ⟨some (.table address), some (catalogDoc (ascii ['n']) (docToCollMeta []))⟩

def resolvedTo (op : NamespaceOperation Nat) (chosen : Side) :
    Except NamespaceError (PausedName Nat × PausedName Nat) :=
  (@pauseName Nat _ numberedTables plainHash headDigest op).bind fun ms =>
    (resolveNamespaceConflict op ms ⟨(@buildViewConflict plainHash Nat op.threeWay).id, chosen.resolution, none⟩).map
      fun after => (ms, after)

def replacedByView : NamespaceOperation Nat := mergeOfName (plainTable 1) (plainTable 2) viewOfOther

/-- Theirs replaced the collection by a view, which the resolution brings back whole. -/
theorem view_lands_whole :
    ∃ ms after, resolvedTo replacedByView .theirs = .ok (ms, after) ∧ after.root = replacedByView.theirs := by
  obtain ⟨⟨ms, after⟩, both, view⟩ : ∃ states, resolvedTo replacedByView .theirs = .ok states ∧
      states.1.openView.isSome = true := by decide +kernel
  obtain ⟨paused, pauses, rest⟩ := Fallible.bind_eq_ok.mp both
  obtain ⟨last, resolves, same⟩ := Fallible.map_eq_ok.mp rest
  obtain ⟨rfl, rfl⟩ := Prod.mk.inj same
  have lands : Lands replacedByView paused .theirs := by
    rw [Lands, if_pos view]
    exact ⟨fun address => nofun, by decide +kernel⟩
  have reached := @ReachedName.pause Nat _ numberedTables plainHash headDigest replacedByView paused pauses
  exact ⟨paused, last, both,
    (@resolution_lands Nat _ numberedTables plainHash headDigest replacedByView paused last reached
      .theirs _ rfl resolves).mpr lands⟩

def viewAgainstTable : NamespaceOperation Nat := mergeOfName ⟨none, none⟩ viewOfOther (plainTable 1)

/-- Ours is a view and theirs a collection: theirs is chosen and nothing stands under the name. -/
theorem chosen_collection_missing :
    ∃ ms after, resolvedTo viewAgainstTable .theirs = .ok (ms, after) ∧
      isViewEntry viewAgainstTable.ours.entry = true ∧ viewAgainstTable.theirs.entry = some (.table 1) ∧
        after.root.entry = none := by
  obtain ⟨⟨ms, after⟩, both, missing⟩ : ∃ states, resolvedTo viewAgainstTable .theirs = .ok states ∧
      states.2.root.entry = none := by decide +kernel
  exact ⟨ms, after, both, rfl, rfl, missing⟩

end DumboDB.Dolt
