import DumboDB.Dolt.MergeSurvivors

/-!
A merge in which no edit collides: what the surviving indexes remember after each key, when the
next key is free, and hence exactly when a merge whose outcome is unique reports no collision.
-/

namespace DumboDB.Dolt
open Foundation ByteOrder DumboDB.Types Index Handler OwnedKeys Fallible Function List

/-- The versions a survivor holds after the keys `done`. -/
def ThreeWay.view (w : ThreeWay) (seedLeft : Bool) (done : List Bytes) (key : Bytes) : Option Document :=
  if key ∈ done then w.alone key else w.seedDoc seedLeft key

/-- Every document of a side lies under a key of the width of ids. -/
def ThreeWay.Wide (w : ThreeWay) : Prop :=
  ∀ key, (w.sides key).left ≠ none ∨ (w.sides key).right ≠ none → key.length = primaryIDLen

variable {done : List Bytes} {seedLeft : Bool} {rest : List Bytes} {edit : MergeDocEdit}

theorem view_append_untouched {w : ThreeWay} {key : Bytes}
    (still : w.touches seedLeft key = false) : w.view seedLeft (done ++ [key]) = w.view seedLeft done := by
  funext id
  unfold ThreeWay.view
  by_cases here : id = key
  · rw [here, ThreeWay.alone_of_untouched still]
    simp
  · simp [here]

theorem view_append {w : ThreeWay} {key : Bytes} :
    w.view seedLeft (done ++ [key]) = update (w.view seedLeft done) key (w.alone key) := by
  funext id
  by_cases here : id = key
  · rw [here, update_self]
    simp [ThreeWay.view]
  · rw [update_of_ne here]
    simp [ThreeWay.view, here]

theorem ThreeWay.Wide.known {w : ThreeWay} {key : Bytes} (wide : w.Wide) {seedLeft : Bool}
    (some_ : w.seedDoc seedLeft key ≠ none ∨ w.alone key ≠ none) : key.length = primaryIDLen := by
  refine wide key ?_
  by_contra absent
  rw [not_or, not_not, not_not] at absent
  rcases some_ with version | outcome
  · cases seedLeft
    · exact version absent.2
    · exact version absent.1
  · exact outcome (ThreeWay.alone_eq_none absent.1 absent.2)

theorem rowCollision_of_unclaimed [Platform] {s : IndexMergeSurvivor} {key : Bytes} {row : List Value}
    (unclaimed : s.pending[(EqualityProbeBounds row).1]? = none) :
    s.rowCollision key row = none ↔
      ∀ id ∈ RangeLookupCapped s.seedMap (EqualityProbeBounds row).1 (EqualityProbeBounds row).2 4,
        id = key ∨ BuildSecondaryKey row id ∈ s.removed := by
  unfold IndexMergeSurvivor.rowCollision
  rw [unclaimed]
  simp only [Option.map_eq_none_iff, find?_eq_none, Bool.and_eq_true, bne_iff_ne, Bool.not_eq_true', not_and,
    Bool.not_eq_false, Std.TreeSet.contains_iff_mem, or_iff_not_imp_left, ne_eq]

theorem changed_of_touched {w : ThreeWay} {id : Bytes} (touched : w.touches seedLeft id = true) :
    w.diff id ≠ none := by
  intro unchanged
  rw [ThreeWay.untouched_of_unchanged unchanged] at touched
  cases touched

/-- The keys that reach the survivor and are done are those before the key. -/
def DoneBefore (w : ThreeWay) (done : List Bytes) (key : Bytes) : Prop :=
  ∀ id, w.diff id ≠ none → (id ∈ done ↔ compare id key = .lt)

theorem DoneBefore.touched {w : ThreeWay} {key : Bytes} {P : Bytes → Prop} (before : DoneBefore w done key) :
    (∃ id ∈ done, w.touches seedLeft id = true ∧ P id) ↔
      ∃ id, compare id key = .lt ∧ w.touches seedLeft id = true ∧ P id := by
  refine exists_congr fun id => ?_
  constructor
  · rintro ⟨member, touched, rest⟩
    exact ⟨(before id (changed_of_touched touched)).mp member, touched, rest⟩
  · rintro ⟨earlier, touched, rest⟩
    exact ⟨(before id (changed_of_touched touched)).mpr earlier, touched, rest⟩

section

variable {w : ThreeWay} {key : Bytes} (whole : done ++ key :: rest = w.keys)
include whole

theorem fresh_of_sweep : key ∉ done := by
  intro member
  have ordered := w.keys_ordered
  rw [← whole, pairwise_append] at ordered
  have loop := ordered.2.2 key member key (.head _)
  rw [Std.compare_self] at loop
  cases loop

theorem doneBefore_of_sweep : DoneBefore w done key := by
  have ordered := w.keys_ordered
  rw [← whole, pairwise_append, pairwise_cons] at ordered
  obtain ⟨-, ⟨later, -⟩, across⟩ := ordered
  intro id changed
  refine ⟨fun member => across id member key (.head _), fun smaller => ?_⟩
  have listed := ThreeWay.mem_keys_of_changed changed
  rw [← whole, mem_append, mem_cons] at listed
  rcases listed with early | rfl | late
  · exact early
  · rw [Std.compare_self] at smaller
    cases smaller
  · exact absurd smaller (Std.OrientedCmp.not_lt_of_lt (later id late))

end

theorem untouched_of_no_edit {w : ThreeWay} {key : Bytes} (none_ : w.edit key = none)
    (seedLeft : Bool) : w.touches seedLeft key = false := by
  unfold ThreeWay.edit at none_
  unfold ThreeWay.touches
  cases report : w.diff key with
  | none => rfl
  | some d => cases d <;> first | rfl | simp [report, RowDiff.edit] at none_

theorem view_keys (w : ThreeWay) (seedLeft : Bool) : w.view seedLeft w.keys = w.alone := by
  funext key
  unfold ThreeWay.view
  split
  · rfl
  next absent =>
    have unchanged : w.diff key = none := by
      by_contra changed
      exact absent (ThreeWay.mem_keys_of_changed changed)
    exact (ThreeWay.alone_of_untouched (ThreeWay.untouched_of_unchanged unchanged seedLeft)).symm

section
variable [Platform] [QueryEnv]

/-- A survivor after the edits of the keys `done`, none of which collided. -/
structure Followed (w : ThreeWay) (done : List Bytes) (seed : Seed) (s : IndexMergeSurvivor) : Prop where
  descends : Descends seed s
  sourced : Sourced (fun _ id d => id ∈ done ∧ w.touches seed.seedLeft id = true ∧ w.alone id = some d) s
  removed : seed.entry.info.unique = true → ∀ key, key ∈ s.removed ↔ ∃ id ∈ done, w.touches seed.seedLeft id = true ∧
      ∃ d, w.seedDoc seed.seedLeft id = some d ∧ key ∈ (entryScheme seed.entry.info).keys id d
  lossy : s.index.info.lossy = true ↔ seed.entry.info.lossy = true ∨ ∃ id ∈ done, w.touches seed.seedLeft id = true ∧
      ∃ d, w.alone id = some d ∧ (indexEntriesForDoc d seed.entry.info).lossy = true
  maintained : w.Wide → IndexMaintained (w.seedDoc seed.seedLeft) seed.entry →
    IndexMaintained (w.view seed.seedLeft done) s.index

theorem Followed.start (w : ThreeWay) (seed : Seed) : Followed w [] seed (openSurvivor seed) where
  descends := ⟨fun _ => rfl, rfl, rfl, rfl⟩
  sourced := by
    intro p _ held
    simp [openSurvivor] at held
  removed := by simp [openSurvivor]
  lossy := by simp [openSurvivor]
  maintained := fun _ maintained => by
    exact maintained

variable {w : ThreeWay} {done : List Bytes} {seed : Seed} {s : IndexMergeSurvivor} {key : Bytes}

theorem Followed.skip (followed : Followed w done seed s) (still : w.touches seed.seedLeft key = false) :
    Followed w (done ++ [key]) seed s := by
  have same {P : Bytes → Prop} : (∃ id ∈ done ++ [key], w.touches seed.seedLeft id = true ∧ P id) ↔
      ∃ id ∈ done, w.touches seed.seedLeft id = true ∧ P id := by
    simp [still, or_and_right, exists_or]
  refine ⟨followed.descends, ?_, ?_, ?_, ?_⟩
  · intro p owner held
    obtain ⟨d, ⟨member, touched, here⟩, claim⟩ := followed.sourced p owner held
    exact ⟨d, ⟨mem_append_left _ member, touched, here⟩, claim⟩
  · intro unique _
    rw [followed.removed unique, same]
  · rw [followed.lossy, same]
  · intro wide maintained
    rw [view_append_untouched still]
    exact followed.maintained wide maintained

theorem Followed.step (followed : Followed w done seed s) {edit : MergeDocEdit} (of : w.edit key = some edit)
    (fresh : key ∉ done) : Followed w (done ++ [key]) seed (applyToSurvivor edit key s) := by
  have side := followed.descends.seedLeft
  have exchanged := perSurvivor_edit of s
  rw [side] at exchanged
  cases touched : w.touches seed.seedLeft key with
  | false =>
    rw [touched, if_neg Bool.false_ne_true] at exchanged
    unfold applyToSurvivor
    rw [exchanged]
    exact followed.skip touched
  | true =>
    rw [touched, if_pos rfl] at exchanged
    have more {P : Bytes → Prop} : (∃ id ∈ done ++ [key], w.touches seed.seedLeft id = true ∧ P id) ↔
        P key ∨ ∃ id ∈ done, w.touches seed.seedLeft id = true ∧ P id := by
      simp [touched, or_and_right, exists_or, or_comm]
    have later := followed.descends.apply edit key
    unfold applyToSurvivor at later ⊢
    rw [exchanged] at later ⊢
    refine ⟨later, ?_, ?_, ?_, ?_⟩
    · refine Sourced.insertDoc (Sourced.deleteDoc ?_ _ _) ?_
      · intro p owner held
        obtain ⟨d, ⟨member, reached, here⟩, claim⟩ := followed.sourced p owner held
        exact ⟨d, ⟨mem_append_left _ member, reached, here⟩, claim⟩
      · intro d here
        exact ⟨mem_append_right _ (.head _), touched, here⟩
    · intro unique _
      rw [IndexMergeSurvivor.removed_insertDoc,
        IndexMergeSurvivor.mem_removed_deleteDoc (followed.descends.unique.trans unique),
        followed.removed unique, more, entryScheme_congr followed.descends.definition]
    · rw [IndexMergeSurvivor.lossy_insertDoc, IndexMergeSurvivor.info_deleteDoc, followed.lossy, more, or_assoc]
      simp only [followed.descends.definition _]
      exact or_congr_right or_comm
    · intro wide maintained
      rw [view_append]
      refine IndexMergeSurvivor.exchange_maintained (followed.maintained wide maintained) wide.known ?_ _
      exact .inr (if_neg fresh)

/-! When the next key is free. -/

def OutcomesApart (w : ThreeWay) (info : IndexInfo) : Prop :=
  ∀ g h d e, w.alone g = some d → w.alone h = some e → g ≠ h → ¬ Shares info d e

def LossyBefore (w : ThreeWay) (seed : Seed) (key : Bytes) : Prop :=
  seed.entry.info.lossy = true ∨ ∃ id, compare id key = .lt ∧ w.touches seed.seedLeft id = true ∧
    ∃ d, w.alone id = some d ∧ (indexEntriesForDoc d seed.entry.info).lossy = true

/-- An edit before the key took this very entry out of the index. -/
def ReleasedBefore (w : ThreeWay) (seed : Seed) (key : Bytes) (row : List Value) (id : Bytes) : Prop :=
  ∃ g, compare g key = .lt ∧ w.touches seed.seedLeft g = true ∧
    ∃ d, w.seedDoc seed.seedLeft g = some d ∧ BuildSecondaryKey row id ∈ (entryScheme seed.entry.info).keys g d

/-- Whoever has a key of the new document in the seed has given it up before. -/
def KeyFree (w : ThreeWay) (seed : Seed) (key : Bytes) : Prop :=
  seed.entry.info.unique = true → w.touches seed.seedLeft key = true → ∀ d, w.alone key = some d →
    (indexEntriesForDoc d seed.entry.info).lossy = false → ¬ LossyBefore w seed key →
      ∀ row ∈ (indexEntriesForDoc d seed.entry.info).rows,
        ∀ id ∈ RangeLookupCapped seed.entry.entries (EqualityProbeBounds row).1 (EqualityProbeBounds row).2 4,
          id = key ∨ ReleasedBefore w seed key row id

/-- No document that the merge placed before has a key of the new document. -/
def Unclaimed (w : ThreeWay) (seed : Seed) (key : Bytes) : Prop :=
  seed.entry.info.unique = true → w.touches seed.seedLeft key = true → ∀ d, w.alone key = some d →
    (indexEntriesForDoc d seed.entry.info).lossy = false → ¬ LossyBefore w seed key →
      ∀ id e, compare id key = .lt → w.touches seed.seedLeft id = true → w.alone id = some e →
        ¬ Shares seed.entry.info d e

/-- Every key that a document of the merge takes was given up before and is not taken yet. -/
def NoKeyMet (w : ThreeWay) (seeds : List Seed) : Prop :=
  ∀ seed ∈ seeds, ∀ key, KeyFree w seed key ∧ Unclaimed w seed key

theorem OutcomesApart.unclaimed (apart : seed.entry.info.unique = true →
    OutcomesApart w seed.entry.info) (key : Bytes) :
    Unclaimed w seed key := by
  intro unique _ d outcome _ _ id e earlier _ other
  refine apart unique key id d e outcome other fun same => ?_
  rw [same, Std.compare_self] at earlier
  cases earlier

section

variable (followed : Followed w done seed s) (before : DoneBefore w done key)
include followed before

theorem Followed.lossy_iff : s.index.info.lossy = true ↔ LossyBefore w seed key := by
  rw [followed.lossy, before.touched]
  rfl

theorem Followed.removed_iff (unique : seed.entry.info.unique = true) {row : List Value} {id : Bytes} :
    BuildSecondaryKey row id ∈ s.removed ↔ ReleasedBefore w seed key row id := by
  rw [followed.removed unique, before.touched]
  rfl

theorem Followed.unclaimed {d : Document}
    (free : ∀ id e, compare id key = .lt → w.touches seed.seedLeft id = true → w.alone id = some e →
      ¬ Shares seed.entry.info d e) {row : List Value} (member : row ∈ (indexEntriesForDoc d seed.entry.info).rows) :
    s.pending[(EqualityProbeBounds row).1]? = none := by
  cases claimed : s.pending[(EqualityProbeBounds row).1]? with
  | none => rfl
  | some owner =>
    obtain ⟨e, ⟨early, touched, other⟩, claim, rows, same⟩ := followed.sourced _ _ claimed
    rw [followed.descends.definition e] at rows
    have earlier := (before owner.id (changed_of_touched touched)).mp early
    exact absurd ⟨row, member, claim, rows, append_cancel_right same⟩ (free owner.id e earlier touched other)

end

theorem Followed.survivorLoser_eq_none (followed : Followed w done seed s)
    (of : w.edit key = some edit) (before : DoneBefore w done key)
    (free : Unclaimed w seed key) : survivorLoser edit key s = none ↔ KeyFree w seed key := by
  have exchanged := perSurvivor_edit of s
  rw [followed.descends.seedLeft] at exchanged
  unfold survivorLoser
  rw [exchanged]
  cases touched : w.touches seed.seedLeft key with
  | false => simp [KeyFree, touched]
  | true =>
    cases outcome : w.alone key with
    | none => simp [KeyFree, outcome]
    | some d =>
      rw [if_pos rfl]
      rw [Option.map_eq_none_iff, uniqueCollision_eq_none, followed.descends.unique,
        followed.descends.definition d, followed.lossy_iff before]
      have rows (unique : seed.entry.info.unique = true)
        (faithful : (indexEntriesForDoc d seed.entry.info).lossy = false)
          (unlossy : ¬ LossyBefore w seed key) {row : List Value}
          (member : row ∈ (indexEntriesForDoc d seed.entry.info).rows) :=
        @rowCollision_of_unclaimed _ s key row
          (followed.unclaimed before (free unique touched d outcome faithful unlossy) member)
      constructor
      · intro probed unique _ e same
        cases outcome.symm.trans same
        intro faithful unlossy row member id found
        rw [← followed.removed_iff before unique]
        rw [← followed.descends.seedMap] at found
        exact (rows unique faithful unlossy member).mp (probed unique faithful unlossy row member) id found
      · intro released unique faithful unlossy row member
        rw [rows unique faithful unlossy member, followed.descends.seedMap]
        intro id found
        rw [followed.removed_iff before unique]
        exact released unique touched d outcome faithful unlossy row member id found

end

section
variable [Platform] [QueryEnv] [ConflictHash]

/-- The state of a merge after the keys `done`, none of which collided. -/
structure Clean (w : ThreeWay) (seeds : List Seed) (done : List Bytes) (c : Capture) : Prop where
  survivors : List.Forall₂ (Followed w done) seeds c.survivors
  merged : table c.merged = w.view false done
  entries : c.entries = (done.filter fun key => decide (w.diff key = some .conflict)).map (documentEditEntry w)

theorem Clean.start (w : ThreeWay) (seeds : List Seed) :
    Clean w seeds [] ⟨w.fromColl.docs, openSurvivors seeds, []⟩ where
  survivors := by
    unfold openSurvivors
    rw [List.forall₂_map_right_iff, List.forall₂_same]
    exact fun seed _ => Followed.start w seed
  merged := funext fun _ => (if_neg not_mem_nil).symm
  entries := rfl

theorem Clean.survivor {w : ThreeWay} {seeds : List Seed} {c : Capture}
    (clean : Clean w seeds done c) {s : IndexMergeSurvivor} (member : s ∈ c.survivors) :
    ∃ seed ∈ seeds, Followed w done seed s := by
  have each := clean.survivors
  clear clean
  generalize c.survivors = survivors at each member
  induction each with
  | nil => cases member
  | cons followed _ ih =>
    rcases mem_cons.mp member with rfl | later
    · exact ⟨_, .head _, followed⟩
    · obtain ⟨seed, inside, there⟩ := ih later
      exact ⟨seed, .tail _ inside, there⟩

section

variable {w : ThreeWay} {seeds : List Seed} {c : Capture} {key : Bytes} (clean : Clean w seeds done c)
include clean

theorem Clean.skip (none_ : w.edit key = none) : Clean w seeds (done ++ [key]) c where
  survivors := clean.survivors.imp fun seed _ followed => followed.skip (untouched_of_no_edit none_ seed.seedLeft)
  merged := clean.merged.trans (view_append_untouched (untouched_of_no_edit none_ false)).symm
  entries := by
    have calm : w.diff key ≠ some .conflict := fun report => by simp [ThreeWay.edit, report, RowDiff.edit] at none_
    rw [clean.entries, filter_append, filter_singleton, decide_eq_false calm, cond_false, append_nil]

theorem Clean.free_iff (of : w.edit key = some edit) (before : DoneBefore w done key)
    (free : ∀ seed ∈ seeds, Unclaimed w seed key) :
    c.survivors.findSome? (survivorLoser edit key) = none ↔ ∀ seed ∈ seeds, KeyFree w seed key := by
  rw [findSome?_eq_none_iff]
  have each := clean.survivors
  clear clean
  generalize c.survivors = survivors at each ⊢
  induction each with
  | nil => simp
  | cons followed _ ih =>
    rw [forall_mem_cons, forall_mem_cons]
    exact and_congr (followed.survivorLoser_eq_none of before (free _ (.head _)))
      (ih fun seed member => free seed (.tail _ member))

end

variable {w : ThreeWay} {seeds : List Seed} {done : List Bytes} {c : Capture} {key : Bytes}

theorem Clean.step (clean : Clean w seeds done c) {edit : MergeDocEdit} (of : w.edit key = some edit)
    (fresh : key ∉ done) :
    Clean w seeds (done ++ [key]) { staged w key c with survivors := c.survivors.map (applyToSurvivor edit key) } where
  survivors := by
    rw [List.forall₂_map_right_iff]
    exact clean.survivors.imp fun _ _ followed => followed.step of fresh
  merged := by
    rw [staged_merged, clean.merged]
    split
    · exact view_append.symm
    next still =>
      exact (view_append_untouched (Bool.eq_false_iff.mpr still)).symm
  entries := by
    rw [filter_append, map_append, ← clean.entries, filter_singleton]
    by_cases report : w.diff key = some .conflict
    · rw [decide_eq_true report, staged, report]
      rfl
    · rw [decide_eq_false report, (staged_entries w key c).resolve_right fun more => report more.1]
      exact (append_nil _).symm

theorem Clean.clear (clean : Clean w seeds done c) : ∀ e ∈ c.entries, e.typ ≠ .uniqueKeyCollision := by
  intro e member
  rw [clean.entries] at member
  obtain ⟨_, -, rfl⟩ := mem_map.mp member
  intro collided
  cases collided

theorem Clean.next (clean : Clean w seeds done c) (fresh : key ∉ done)
    (free : ∀ edit, w.edit key = some edit → c.survivors.findSome? (survivorLoser edit key) = none) :
    ∃ mid, captureStep w c key = .ok mid ∧ Clean w seeds (done ++ [key]) mid := by
  cases of : w.edit key with
  | none => exact ⟨c, by rw [captureStep_eq, of], clean.skip of⟩
  | some edit =>
    refine ⟨_, ?_, clean.step of fresh⟩
    rw [captureStep_eq, of]
    dsimp only
    rw [applyIndexEdit_free (by rw [staged_survivors]; exact free edit of), staged_survivors]

theorem Clean.run_iff (unclaimed : ∀ seed ∈ seeds, ∀ key, Unclaimed w seed key) (clean : Clean w seeds done c)
    (whole : done ++ rest = w.keys) :
    (∃ after, rest.foldlM (captureStep w) c = .ok after ∧
      (∀ e ∈ after.entries, e.typ ≠ .uniqueKeyCollision) ∧ table after.merged = w.view false w.keys) ↔
        ∀ key ∈ rest, ∀ seed ∈ seeds, KeyFree w seed key := by
  induction rest generalizing done c with
  | nil =>
    rw [append_nil] at whole
    subst whole
    exact ⟨fun _ _ absent => (nomatch absent), fun _ => ⟨c, rfl, clean.clear, clean.merged⟩⟩
  | cons key rest ih =>
    have whole' : (done ++ [key]) ++ rest = w.keys := by rw [append_assoc]; exact whole
    have free_iff (edit : MergeDocEdit) (of : w.edit key = some edit) :=
      clean.free_iff of (doneBefore_of_sweep whole) fun seed member => unclaimed seed member key
    rw [forall_mem_cons]
    by_cases free : ∀ edit, w.edit key = some edit → c.survivors.findSome? (survivorLoser edit key) = none
    · obtain ⟨mid, stepped, next⟩ := clean.next (fresh_of_sweep whole) free
      have here : ∀ seed ∈ seeds, KeyFree w seed key := by
        intro seed member unique touched
        cases of : w.edit key with
        | none => exact nomatch (untouched_of_no_edit of _).symm.trans touched
        | some edit => exact (free_iff edit of).mp (free edit of) seed member unique touched
      rw [and_iff_right here, ← ih next whole']
      simp only [foldlM_cons_ok, stepped, Except.ok.injEq, exists_eq_left']
    · simp only [not_forall] at free
      obtain ⟨edit, of, collides⟩ := free
      refine ⟨?_, fun all => absurd ((free_iff edit of).mpr all.1) collides⟩
      -- the entry of the first collision is still there at the end
      rintro ⟨after, folded, clear, -⟩
      obtain ⟨mid, stepped, later⟩ := foldlM_cons_ok.mp folded
      rw [captureStep_eq, of] at stepped
      obtain ⟨e, member, collided⟩ := applyIndexEdit_collided (by rw [staged_survivors]; exact collides) stepped
      have kept := foldlM_keeps (fun c : Capture => e ∈ c.entries)
        (fun _ _ _ _ held step => captureStep_entries step held) later member
      exact absurd collided (clear e kept)

theorem clean_of_no_key_met (unmet : NoKeyMet w seeds)
    (captured : captureConflictsForCollection w (openSurvivors seeds) = .ok c) : Clean w seeds w.keys c := by
  refine foldlM_sweep (fun done c => Clean w seeds done c)
    (fun done key rest c mid whole clean stepped => ?_) captured
    (Clean.start w seeds)
  have free (edit : MergeDocEdit) (of : w.edit key = some edit) :=
    (clean.free_iff of (doneBefore_of_sweep whole) fun seed member => (unmet seed member key).2).mpr
      fun seed member => (unmet seed member key).1
  obtain ⟨_, found, next⟩ := clean.next (fresh_of_sweep whole) free
  cases found.symm.trans stepped
  exact next

/-- A merge whose outcomes share no unique key reports no collision and keeps every outcome exactly
when each key that a document takes over was given up before, in the order of the ids. -/
theorem no_collision_iff_released
    (apart : ∀ seed ∈ seeds, seed.entry.info.unique = true → OutcomesApart w seed.entry.info) :
    (∃ c, captureConflictsForCollection w (openSurvivors seeds) = .ok c ∧
      (∀ e ∈ c.entries, e.typ ≠ .uniqueKeyCollision) ∧ ∀ key, c.merged[key]? = w.alone key) ↔
        ∀ seed ∈ seeds, ∀ key, KeyFree w seed key := by
  have run := Clean.run_iff (fun seed member => OutcomesApart.unclaimed (apart seed member)) (Clean.start w seeds)
    (nil_append w.keys)
  rw [view_keys] at run
  have tables (c : Capture) : table c.merged = w.alone ↔ ∀ key, c.merged[key]? = w.alone key := funext_iff
  simp only [tables] at run
  refine run.trans ?_
  constructor
  · intro free seed member key unique touched
    exact free key (ThreeWay.mem_keys_of_changed (changed_of_touched touched)) seed member unique touched
  · exact fun free key _ seed member => free seed member key

end

/-! Two merges over a unique index on `a`. -/

abbrev plainHash : ConflictHash := ⟨id, Function.injective_id⟩

attribute [local instance] amd64 bareEnv headDigest plainHash

/-- A collection with a unique index on `a`, after some operations. -/
abbrev uniqueA (ops : List Op) : Collection :=
  run emptyCollection (.createIndexes [plainIndex none true] :: ops)

abbrev merging (intoColl fromColl baseColl : Collection) : ThreeWay :=
  ⟨fieldA, intoColl, fromColl, baseColl, [], DefaultMergeMode⟩

/-- The indexes of a merge between sides with the same definitions. -/
abbrev fromSeeds (w : ThreeWay) : List Seed := w.fromColl.indexes.list.map fun s => ⟨s, false⟩

abbrev captured (w : ThreeWay) (seeds : List Seed) : Except MergeError Capture :=
  captureConflictsForCollection w (openSurvivors seeds)

/-- Into re-keys `{_id: 1, a: 1}` to `a: 2` and then inserts `{_id: 2, a: 1}`. -/
abbrev freesFirst : ThreeWay :=
  merging (uniqueA [.insertAll [keyedDoc 1 1], .updateAll [keyedDoc 1 2], .insertAll [keyedDoc 2 1]])
    (uniqueA [.insertAll [keyedDoc 1 1]]) (uniqueA [.insertAll [keyedDoc 1 1]])

abbrev freesLater : ThreeWay :=
  merging (uniqueA [.insertAll [keyedDoc 2 1], .updateAll [keyedDoc 2 2], .insertAll [keyedDoc 1 1]])
    (uniqueA [.insertAll [keyedDoc 2 1]]) (uniqueA [.insertAll [keyedDoc 2 1]])

section
variable [Platform] [QueryEnv] {w : ThreeWay} {seeds : List Seed}

/-- The outcomes of the keys that changed share no key of the index. -/
def ApartOnKeys (w : ThreeWay) (info : IndexInfo) : Prop :=
  ∀ g ∈ w.keys, ∀ h ∈ w.keys, g ≠ h → ∀ d ∈ w.alone g, ∀ e ∈ w.alone h, ¬ Shares info d e

instance decidableApartOnKeys (w : ThreeWay) (info : IndexInfo) : Decidable (ApartOnKeys w info) := by
  unfold ApartOnKeys
  infer_instance

theorem OutcomesApart.of_keys {info : IndexInfo} (apart : ApartOnKeys w info) :
    OutcomesApart w info := fun g h d e left right differ =>
  apart g (ThreeWay.mem_keys_of_alone left) h (ThreeWay.mem_keys_of_alone right) differ d left e right

def FreeOnKeys (w : ThreeWay) (seed : Seed) : Prop :=
  ∀ key ∈ w.keys, ∀ d ∈ w.alone key, ∀ row ∈ (indexEntriesForDoc d seed.entry.info).rows,
    ∀ id ∈ RangeLookupCapped seed.entry.entries (EqualityProbeBounds row).1 (EqualityProbeBounds row).2 4,
      id = key ∨ ∃ g ∈ w.keys, compare g key = .lt ∧ w.touches seed.seedLeft g = true ∧
        ∃ d ∈ w.seedDoc seed.seedLeft g,
          BuildSecondaryKey row id ∈ entryKeysForRows (indexEntriesForDoc d seed.entry.info).rows g

instance decidableFreeOnKeys (w : ThreeWay) (seed : Seed) : Decidable (FreeOnKeys w seed) := by
  unfold FreeOnKeys
  infer_instance

theorem KeyFree.of_keys {seed : Seed} (free : FreeOnKeys w seed) (key : Bytes) : KeyFree w seed key := by
  intro _ touched d outcome _ _ row member id found
  have listed := ThreeWay.mem_keys_of_changed (changed_of_touched touched)
  refine (free key listed d outcome row member id found).imp_right ?_
  rintro ⟨g, -, earlier, reached, old, stored, entry⟩
  exact ⟨g, earlier, reached, old, stored, entry⟩

theorem NoKeyMet.of_keys (each : ∀ seed ∈ seeds, ApartOnKeys w seed.entry.info ∧ FreeOnKeys w seed) :
    NoKeyMet w seeds := by
  intro seed member key
  obtain ⟨apart, free⟩ := each seed member
  exact ⟨KeyFree.of_keys free key, OutcomesApart.unclaimed (fun _ => OutcomesApart.of_keys apart) key⟩

end

theorem collided_of_eval [Platform] [QueryEnv] [ConflictHash] {w : ThreeWay} {survivors : List IndexMergeSurvivor}
    {P : Capture → Prop}
    (collided : (match captureConflictsForCollection w survivors with
      | .ok c => c.entries.any fun e => e.typ = .uniqueKeyCollision
      | .error _ => true) = true) :
    ¬ ∃ c, captureConflictsForCollection w survivors = .ok c ∧ (∀ e ∈ c.entries, e.typ ≠ .uniqueKeyCollision) ∧
      P c := by
  rintro ⟨c, merged, clear, -⟩
  rw [merged] at collided
  obtain ⟨e, member, typ⟩ := any_eq_true.mp collided
  exact clear e member (of_decide_eq_true typ)

/-- The new document takes the key that the first one gave up. -/
theorem no_collision_over_key_freed_first :
    ∃ c, captured freesFirst (fromSeeds freesFirst) = .ok c ∧
      (∀ e ∈ c.entries, e.typ ≠ .uniqueKeyCollision) ∧ ∀ key, c.merged[key]? = freesFirst.alone key := by
  have each : ∀ seed ∈ fromSeeds freesFirst,
      ApartOnKeys freesFirst seed.entry.info ∧ FreeOnKeys freesFirst seed := by
    decide +kernel
  refine (no_collision_iff_released ?_).mpr ?_
  · exact fun seed member _ => OutcomesApart.of_keys (each seed member).1
  · exact fun seed member => KeyFree.of_keys (each seed member).2

/-- The document that will give up the key comes after the one that takes it, so their merge
reports a collision between outcomes that share no key. -/
theorem collision_over_key_freed_later :
    (∀ seed ∈ fromSeeds freesLater, seed.entry.info.unique = true →
      OutcomesApart freesLater seed.entry.info) ∧
    ¬ ∃ c, captured freesLater (fromSeeds freesLater) = .ok c ∧
      (∀ e ∈ c.entries, e.typ ≠ .uniqueKeyCollision) ∧ ∀ key, c.merged[key]? = freesLater.alone key := by
  have apart : ∀ seed ∈ fromSeeds freesLater, ApartOnKeys freesLater seed.entry.info := by
    decide +kernel
  exact ⟨fun seed member _ => OutcomesApart.of_keys (apart seed member), collided_of_eval (by decide +kernel)⟩

end DumboDB.Dolt
