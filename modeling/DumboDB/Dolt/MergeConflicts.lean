import DumboDB.Dolt.MergeClean

/-!
What a merge records: where the documents of into only displace documents that from alone changed,
no version of either side is lost, and no document is in conflict twice. An edit may evict more
documents than it has attempts.
-/

namespace DumboDB.Dolt
open Foundation ByteOrder DumboDB.Types Index Handler Fallible Function List Std

/-- A version is held by the merged map, merged into what it holds, or recorded in a conflict of
its key. -/
def VersionKept (w : ThreeWay) (c : Capture) (key : Bytes) (version : Option Document) : Prop :=
  c.merged[key]? = version ∨ (∃ m, w.diff key = some (.resolved m) ∧ c.merged[key]? = m) ∨
    ∃ e ∈ c.entries, e.rawKey = key ∧ (e.ours = version ∨ e.theirs = version)

/-- Every version of a side that differs from the base is kept. -/
def NoVersionLost (w : ThreeWay) (c : Capture) : Prop :=
  ∀ key, ((w.sides key).left ≠ (w.sides key).base → VersionKept w c key (w.sides key).left) ∧
    ((w.sides key).right ≠ (w.sides key).base → VersionKept w c key (w.sides key).right)

/-- Who claims keys while the edits pass: outcomes, ours or theirs, and bases that came back. -/
def Claimant (w : ThreeWay) (ours : Bool) (id : Bytes) (d : Document) : Prop :=
  (ours = true ∧ w.diff id ≠ some .rightChange ∧ w.alone id = some d) ∨
    (ours = true ∧ w.diff id = some .rightChange ∧ (w.sides id).base = some d) ∨
      (ours = false ∧ w.diff id = some .rightChange ∧ w.alone id = some d)

variable {d : Document} {edit : MergeDocEdit} {key : Bytes} {w : ThreeWay} {c : Capture} {id : Bytes}

theorem claimant_of_edit (of : w.edit key = some edit)
    (outcome : w.alone key = some d) : Claimant w edit.incomingOurs key d := by
  cases ours : edit.incomingOurs with
  | false => exact .inr (.inr ⟨rfl, (incomingOurs_edit of).mp ours, outcome⟩)
  | true =>
    refine .inl ⟨rfl, fun theirs => ?_, outcome⟩
    rw [(incomingOurs_edit of).mpr theirs] at ours
    cases ours

section
variable [Platform] [QueryEnv]

/-- A document that is not a change of from's alone meets only keys of documents that are. -/
def OursApart (w : ThreeWay) (seeds : List Seed) : Prop :=
  ∀ seed ∈ seeds, seed.entry.info.unique = true → ∀ key d, w.touches seed.seedLeft key = true →
    w.diff key ≠ some .rightChange → w.alone key = some d →
      (∀ row ∈ (indexEntriesForDoc d seed.entry.info).rows, ∀ id ∈
        RangeLookupCapped seed.entry.entries (EqualityProbeBounds row).1 (EqualityProbeBounds row).2 4,
          id ≠ key → seed.seedLeft = false ∧ w.diff id = some .rightChange) ∧
      ∀ other e, other ≠ key → Claimant w true other e → ¬ Shares seed.entry.info d e

/-- The survivors of a merge and where their claims come from. -/
def Claimed (V : Bool → Bytes → Document → Prop) (seeds : List Seed) (survivors : List IndexMergeSurvivor) : Prop :=
  ∀ s ∈ survivors, ∃ seed ∈ seeds, Descends seed s ∧ Sourced V s

variable {V : Bool → Bytes → Document → Prop} {w : ThreeWay} {seeds : List Seed} {survivors : List IndexMergeSurvivor}
  {oldDoc : Option Document} {owner : PendingOwner} {s : IndexMergeSurvivor}

theorem Claimed.start (V : Bool → Bytes → Document → Prop) (seeds : List Seed) :
    Claimed V seeds (openSurvivors seeds) := by
  intro s member
  obtain ⟨seed, root, rfl⟩ := mem_map.mp member
  refine ⟨seed, root, ⟨fun _ => rfl, rfl, rfl, rfl⟩, ?_⟩
  intro p _ held
  simp [openSurvivor] at held

section

variable (claimed : Claimed V seeds survivors)
include claimed

theorem Claimed.exchange (source : ∀ s ∈ survivors, ∀ oldDoc d, edit.perSurvivor s = some (oldDoc, some d) →
      V edit.incomingOurs key d) : Claimed V seeds (survivors.map (applyToSurvivor edit key)) := by
  intro t member
  obtain ⟨s, inside, rfl⟩ := mem_map.mp member
  obtain ⟨seed, root, descends, sourced⟩ := claimed s inside
  refine ⟨seed, root, descends.apply edit key, ?_⟩
  unfold applyToSurvivor
  split
  next oldDoc _ exchanged =>
    refine (sourced.deleteDoc _ _).insertDoc fun d there => ?_
    exact source s inside oldDoc d (there ▸ exchanged)
  · exact sourced

theorem Claimed.remove (doc : Document) (id : Bytes) : Claimed V seeds (removeDocEverywhere survivors doc id) := by
  intro t member
  obtain ⟨s, inside, rfl⟩ := mem_map.mp member
  obtain ⟨seed, root, descends, sourced⟩ := claimed s inside
  exact ⟨seed, root, descends.deleteDoc _ _, sourced.deleteDoc _ _⟩

theorem collision_source (of : w.edit key = some edit) (member : s ∈ survivors)
    (exchanged : edit.perSurvivor s = some (oldDoc, some d)) (collision : s.uniqueCollision d key = some owner) :
    ∃ seed ∈ seeds, seed.entry.info.unique = true ∧ w.touches seed.seedLeft key = true ∧ w.alone key = some d ∧
      owner.id ≠ key ∧ ((∃ e, V owner.ours owner.id e ∧ Shares seed.entry.info d e) ∨
          (owner.ours = seed.seedLeft ∧ ∃ row ∈ (indexEntriesForDoc d seed.entry.info).rows, owner.id ∈
            RangeLookupCapped seed.entry.entries (EqualityProbeBounds row).1 (EqualityProbeBounds row).2 4)) := by
  obtain ⟨seed, root, descends, sourced⟩ := claimed s member
  obtain ⟨unique, row, rows, hit⟩ := uniqueCollision_some collision
  obtain ⟨differ, found⟩ := rowCollision_some hit
  rw [perSurvivor_edit of, descends.seedLeft] at exchanged
  rw [descends.unique] at unique
  rw [descends.definition d] at rows
  split at exchanged
  next touched =>
    refine ⟨seed, root, unique, touched, (Prod.mk.inj (Option.some.inj exchanged)).2, differ, ?_⟩
    rcases found with pending | ⟨side, entry⟩
    · obtain ⟨e, source, claim, inside, same⟩ := sourced _ _ pending
      rw [descends.definition e] at inside
      exact .inl ⟨e, source, row, rows, claim, inside, append_cancel_right same⟩
    · rw [descends.seedMap] at entry
      exact .inr ⟨side.trans descends.seedLeft, row, rows, entry⟩
  · cases exchanged

end

theorem collision_of_ours (claimed : Claimed (Claimant w) seeds survivors)
    (apart : OursApart w seeds) (of : w.edit key = some edit)
    (ours : edit.incomingOurs = true) (member : s ∈ survivors)
    (exchanged : edit.perSurvivor s = some (oldDoc, some d)) (collision : s.uniqueCollision d key = some owner) :
    owner.ours = false ∧ owner.id ≠ key ∧ w.diff owner.id = some .rightChange := by
  obtain ⟨seed, root, unique, touched, outcome, differ, found⟩ :=
    collision_source claimed of member exchanged collision
  have mine : w.diff key ≠ some .rightChange := fun theirs => by
    rw [(incomingOurs_edit of).mpr theirs] at ours
    cases ours
  obtain ⟨seeded, claims⟩ := apart seed root unique key d touched mine outcome
  rcases found with ⟨e, claimant, shares⟩ | ⟨side, row, rows, entry⟩
  · cases who : owner.ours with
    | true => exact absurd shares (claims owner.id e differ (who ▸ claimant))
    | false =>
      rw [who] at claimant
      rcases claimant with ⟨loop, -⟩ | ⟨loop, -⟩ | ⟨-, theirs, -⟩
      · cases loop
      · cases loop
      · exact ⟨rfl, differ, theirs⟩
  · obtain ⟨fromSide, theirs⟩ := seeded row rows owner.id entry differ
    exact ⟨side.trans fromSide, differ, theirs⟩

variable [ConflictHash]

theorem Claimed.revert (claimed : Claimed V seeds c.survivors)
    (loser : MergeLoser) (source : ∀ d, edit.base = some d → V true key d) :
    Claimed V seeds (revertIncoming w edit key loser c).survivors := by
  unfold revertIncoming
  dsimp only
  cases applied : applyEdit c.survivors ⟨.keepOurs, none, edit.base, edit.right, none⟩ key with
  | error _ => exact claimed
  | ok _ =>
    unfold applyEdit at applied
    split at applied
    · cases applied
    · cases applied
      refine claimed.exchange fun s member oldDoc d exchanged => source d ?_
      unfold MergeDocEdit.perSurvivor at exchanged
      cases side : s.seedLeft with
      | true => simp [side] at exchanged
      | false => simpa [side] using (Prod.mk.inj (Option.some.inj (side ▸ exchanged))).2

/-- What is kept of the versions once the keys `done` have passed. -/
structure VersionsKept (w : ThreeWay) (done : List Bytes) (c : Capture) : Prop where
  ours : ∀ key ∈ done, w.touches false key = true → table c.merged key = w.alone key
  conflicts : ∀ key ∈ done, w.diff key = some .conflict → documentEditEntry w key ∈ c.entries
  convergent : ∀ key, w.diff key = some .convergent → table c.merged key = (w.sides key).right
  theirs : ∀ key, w.diff key = some .rightChange → table c.merged key = (w.sides key).right ∨
    ∃ e ∈ c.entries, e.rawKey = key ∧ e.theirs = (w.sides key).right

structure Safe (w : ThreeWay) (seeds : List Seed) (done : List Bytes) (c : Capture) :
    Prop extends VersionsKept w done c where
  claimed : Claimed (Claimant w) seeds c.survivors

theorem Safe.start (w : ThreeWay) (seeds : List Seed) : Safe w seeds [] ⟨w.fromColl.docs, openSurvivors seeds, []⟩ :=
  ⟨⟨fun _ absent => (nomatch absent), fun _ absent => (nomatch absent), fun _ _ => rfl, fun _ _ => .inl rfl⟩,
    Claimed.start _ seeds⟩

variable {done : List Bytes}

theorem Safe.stage (safe : Safe w seeds done c) : Safe w seeds (done ++ [key]) (staged w key c) := by
  have grown : c.entries ⊆ (staged w key c).entries := by
    rcases staged_entries w key c with same | ⟨-, more⟩
    · rw [same]
      exact List.Subset.refl _
    · rw [more]
      exact subset_append_left _ _
  refine ⟨⟨?_, ?_, ?_, ?_⟩, by rw [staged_survivors]; exact safe.claimed⟩
  · intro id passed touched
    by_cases here : id = key
    · rw [here] at touched ⊢
      rw [staged_merged, touched, if_pos rfl, update_self]
    · rw [staged_elsewhere fun same => absurd same here]
      rcases mem_append.mp passed with before | now
      · exact safe.ours id before touched
      · exact absurd (mem_singleton.mp now) here
  · intro id passed report
    rcases mem_append.mp passed with before | now
    · exact grown (safe.conflicts id before report)
    · rw [mem_singleton] at now
      subst now
      unfold staged
      rw [report]
      exact mem_append_right _ (.head _)
  · intro id report
    rw [staged_elsewhere fun same => by rw [← same, ThreeWay.touches, report]]
    exact safe.convergent id report
  · intro id report
    rw [staged_elsewhere fun same => by rw [← same, ThreeWay.touches, report]]
    exact (safe.theirs id report).imp_right (Exists.imp fun _ => And.imp_left fun member => grown member)

theorem Safe.displace {after : Capture} (safe : Safe w seeds done c)
    (report : w.diff id = some .rightChange) {doc : Option Document} {e : ConflictEntry}
    (merged : table after.merged = update (table c.merged) id doc)
    (entries : after.entries = c.entries ++ [e]) (named : e.rawKey = id)
    (recorded : table c.merged id = (w.sides id).right → e.theirs = (w.sides id).right)
    (claimed : Claimed (Claimant w) seeds after.survivors) : Safe w seeds done after := by
  have elsewhere {key : Bytes} (other : w.diff key ≠ some .rightChange) :
      table after.merged key = table c.merged key := by
    rw [merged, update_of_ne]
    rintro rfl
    exact other report
  refine ⟨⟨?_, ?_, ?_, ?_⟩, claimed⟩
  · intro key passed touched
    rw [elsewhere fun theirs => ?_]
    · exact safe.ours key passed touched
    · rw [ThreeWay.touches, theirs] at touched
      cases touched
  · intro key passed conflict
    rw [entries]
    exact mem_append_left _ (safe.conflicts key passed conflict)
  · intro key converges
    rw [elsewhere (by simp [converges])]
    exact safe.convergent key converges
  · intro key theirs
    rw [entries]
    have before := safe.theirs key theirs
    by_cases here : key = id
    · subst here
      right
      rcases before with held | ⟨old, member, known⟩
      · exact ⟨e, mem_append_right _ (.head _), named, recorded held⟩
      · exact ⟨old, mem_append_left _ member, known⟩
    · rw [merged, update_of_ne here]
      exact before.imp_right (Exists.imp fun _ => And.imp_left (mem_append_left _))

theorem Safe.revert (safe : Safe w seeds done c) (report : w.diff key = some .rightChange)
    (of : w.edit key = some edit)
    (loser : MergeLoser) : Safe w seeds done (revertIncoming w edit key loser c) := by
  rw [ThreeWay.edit, report] at of
  cases of
  refine safe.displace report (table_putDoc ..) rfl rfl (fun _ => rfl) ?_
  exact safe.claimed.revert _ fun _ back => .inr (.inl ⟨rfl, report, back⟩)

theorem Safe.step {done : List Bytes} {key : Bytes} {c after : Capture} (safe : Safe w seeds done c)
    (apart : OursApart w seeds) (stepped : captureStep w c key = .ok after) : Safe w seeds (done ++ [key]) after := by
  rw [captureStep_eq] at stepped
  cases of : w.edit key with
  | none =>
    rw [of] at stepped
    cases stepped
    exact staged_of_no_edit of c ▸ safe.stage
  | some edit =>
    rw [of] at stepped
    refine applyIndexEdit_rule (Safe w seeds (done ++ [key]))
      (Safe w seeds (done ++ [key])) ?_ ?_ ?_ safe.stage stepped
    · intro c s member loser _ safe lost existing stored
      obtain ⟨oldDoc, d, owner, exchanged, collision, ⟨incoming, -⟩ | ⟨-, loses, ours, -⟩⟩ := survivorLoser_some lost
      · exact nomatch incoming.symm.trans existing
      · obtain ⟨-, -, theirs⟩ := collision_of_ours safe.claimed apart of ours member exchanged collision
        rw [← loses] at theirs
        refine safe.displace theirs (table_erase ..) rfl rfl ?_ (safe.claimed.remove _ _)
        exact fun held => stored.symm.trans held
    · intro c safe _
      refine { safe with claimed := safe.claimed.exchange fun s member oldDoc d exchanged => ?_ }
      rw [perSurvivor_edit of] at exchanged
      split at exchanged
      · exact claimant_of_edit of (Prod.mk.inj (Option.some.inj exchanged)).2
      · cases exchanged
    · intro c s member loser safe lost incoming
      obtain ⟨oldDoc, d, owner, exchanged, collision, ⟨-, -, cause⟩ | ⟨existing, -⟩⟩ := survivorLoser_some lost
      · have theirs : edit.incomingOurs = false := by
          rcases cause with theirs | ours
          · exact theirs
          · by_contra mine
            rw [Bool.not_eq_false] at mine
            obtain ⟨other, -⟩ := collision_of_ours safe.claimed apart of mine member exchanged collision
            exact nomatch ours.symm.trans other
        exact safe.revert ((incomingOurs_edit of).mp theirs) of loser
      · exact nomatch incoming.symm.trans existing

theorem Clean.kept (clean : Clean w seeds w.keys c) : VersionsKept w w.keys c := by
  have merged (key : Bytes) : table c.merged key = w.alone key := by rw [clean.merged, view_keys]
  have untouched {key : Bytes} (still : w.touches false key = false) : table c.merged key = (w.sides key).right :=
    (merged key).trans (ThreeWay.alone_of_untouched still)
  refine ⟨fun key _ _ => merged key, ?_, ?_, ?_⟩
  · intro key listed report
    rw [clean.entries]
    exact mem_map_of_mem (mem_filter.mpr ⟨listed, decide_eq_true report⟩)
  · exact fun key report => untouched (by rw [ThreeWay.touches, report])
  · exact fun key report => .inl (untouched (by rw [ThreeWay.touches, report]))

omit [Platform] [QueryEnv] in
theorem VersionsKept.noVersionLost (safe : VersionsKept w w.keys c) : NoVersionLost w c := by
  intro key
  have reports := w.diff_reports key
  have passed (changed : w.diff key ≠ none) : key ∈ w.keys := ThreeWay.mem_keys_of_changed changed
  cases report : w.diff key with
  | none =>
    rw [report] at reports
    cases reports with
    | unchanged left right => exact ⟨fun differs => absurd left differs, fun differs => absurd right differs⟩
  | some d =>
    rw [report] at reports passed
    have listed := passed (Option.some_ne_none d)
    cases reports with
    | leftChange _ right =>
      refine ⟨fun _ => .inl ?_, fun differs => absurd right differs⟩
      refine (safe.ours key listed (by rw [ThreeWay.touches, report]; rfl)).trans ?_
      rw [ThreeWay.alone, report]
    | rightChange left _ =>
      refine ⟨fun differs => absurd left differs, fun _ => ?_⟩
      rcases safe.theirs key report with held | ⟨e, member, named, theirs⟩
      · exact .inl held
      · exact .inr (.inr ⟨e, member, named, .inr theirs⟩)
    | convergent same =>
      have held := safe.convergent key report
      exact ⟨fun _ => .inl (held.trans same.symm), fun _ => .inl held⟩
    | conflict =>
      have member := safe.conflicts key listed report
      exact ⟨fun _ => .inr (.inr ⟨_, member, rfl, .inl rfl⟩), fun _ => .inr (.inr ⟨_, member, rfl, .inr rfl⟩)⟩
    | resolved left right =>
      have held := safe.ours key listed (by rw [ThreeWay.touches, report])
      rw [ThreeWay.alone, report] at held
      exact ⟨fun _ => .inr (.inl ⟨_, report, held⟩), fun _ => .inr (.inl ⟨_, report, held⟩)⟩

end

/-- The document under which an id claims a key for ours. -/
def claimsOurs (w : ThreeWay) (id : Bytes) : Option Document :=
  if w.diff id = some .rightChange then (w.sides id).base else w.alone id

theorem claimsOurs_of_claimant (claimant : Claimant w true id d) : claimsOurs w id = some d := by
  unfold claimsOurs
  rcases claimant with ⟨-, mine, outcome⟩ | ⟨-, theirs, base⟩ | ⟨loop, -⟩
  · rw [if_neg mine]
    exact outcome
  · rw [if_pos theirs]
    exact base
  · cases loop

theorem mem_keys_of_claimsOurs (claims : claimsOurs w id = some d) : id ∈ w.keys := by
  by_contra absent
  have sides := ThreeWay.sides_of_not_mem_keys absent
  unfold claimsOurs at claims
  rw [sides, ThreeWay.alone_eq_none (by rw [sides]) (by rw [sides])] at claims
  split at claims <;> cases claims

theorem OursApart.of_keys [Platform] [QueryEnv] {w : ThreeWay} {seeds : List Seed}
    (apart : ∀ seed ∈ seeds, ∀ key ∈ w.keys, w.diff key ≠ some .rightChange → ∀ d ∈ w.alone key,
      (∀ row ∈ (indexEntriesForDoc d seed.entry.info).rows, ∀ id ∈
        RangeLookupCapped seed.entry.entries (EqualityProbeBounds row).1 (EqualityProbeBounds row).2 4,
          id ≠ key → seed.seedLeft = false ∧ w.diff id = some .rightChange) ∧
      ∀ other ∈ w.keys, other ≠ key → ∀ e ∈ claimsOurs w other,
        ¬ Shares seed.entry.info d e) : OursApart w seeds := by
  intro seed member _ key d _ mine outcome
  obtain ⟨seeded, claims⟩ := apart seed member key (ThreeWay.mem_keys_of_alone outcome) mine d outcome
  refine ⟨seeded, fun other e differ claimant => ?_⟩
  have claimed := claimsOurs_of_claimant claimant
  exact claims other (mem_keys_of_claimsOurs claimed) differ e claimed

abbrev insertsBoth : ThreeWay :=
  merging (uniqueA [.insertAll [keyedDoc 1 1]]) (uniqueA [.insertAll [keyedDoc 2 1]]) (uniqueA [])

def pairDoc (id a b : Int32) : Document := [(idKey, .int32 id), (fieldA, .int32 a), (fieldB, .int32 b)]

/-- Into sets `b` of `{_id: 1, a: 1, b: 1}` and inserts `{_id: 2, a: 5, b: 1}`; from sets `a` to `5`. -/
abbrev claimsMerged : ThreeWay :=
  merging (uniqueA [.insertAll [pairDoc 1 1 1], .updateAll [pairDoc 1 1 2], .insertAll [pairDoc 2 5 1]])
    (uniqueA [.insertAll [pairDoc 1 1 1], .updateAll [pairDoc 1 5 1]]) (uniqueA [.insertAll [pairDoc 1 1 1]])

theorem lost_of_eval (changed : w.diff key = some .leftChange)
    (lost : (c.merged[key]? != (w.sides key).left && c.entries.all fun e =>
      e.rawKey != key || (e.ours != (w.sides key).left && e.theirs != (w.sides key).left)) = true) :
    ¬ NoVersionLost w c := by
  intro kept
  have reports := w.diff_reports key
  rw [changed] at reports
  simp only [Bool.and_eq_true, bne_iff_ne, ne_eq, all_eq_true, Bool.or_eq_true] at lost
  cases reports with
  | leftChange differs _ =>
    rcases (kept key).1 differs with held | ⟨m, report, -⟩ | ⟨e, member, named, recorded⟩
    · exact lost.1 held
    · cases changed.symm.trans report
    · rcases lost.2 e member with other | neither
      · exact other named
      · exact recorded.elim neither.1 neither.2

section
variable [Platform]

namespace IndexMergeSurvivor

/-- The entries of the seed for a row that have not left, beside the document itself. -/
def seeded (s : IndexMergeSurvivor) (idBytes : Bytes) (row : List Value) : List PendingOwner :=
  ((RangeLookupCapped s.seedMap (EqualityProbeBounds row).1 (EqualityProbeBounds row).2 4).filter fun id =>
    id != idBytes && !s.removed.contains (BuildSecondaryKey row id)).map (⟨·, s.seedLeft⟩)

/-- Who has the key of a row: the last claim of the merge, then the entries of the seed. -/
def rowOwners (s : IndexMergeSurvivor) (idBytes : Bytes) (row : List Value) : List PendingOwner :=
  match s.pending[(EqualityProbeBounds row).1]? with
  | some owner => if owner.id = idBytes then [] else owner :: s.seeded idBytes row
  | none => s.seeded idBytes row

theorem rowCollision_eq (s : IndexMergeSurvivor) (idBytes : Bytes) (row : List Value) :
    s.rowCollision idBytes row = (s.rowOwners idBytes row).head? := by
  unfold rowCollision rowOwners seeded
  cases s.pending[(EqualityProbeBounds row).1]? with
  | none => simp [head?_filter]
  | some owner =>
    dsimp only
    split <;> rfl

end IndexMergeSurvivor

variable [QueryEnv]

/-- The rows of the new document that a unique index without lossy entries tests. -/
def editRows (edit : MergeDocEdit) (s : IndexMergeSurvivor) : List (List Value) :=
  match edit.perSurvivor s with
  | some (_, some newDoc) =>
    let e := indexEntriesForDoc newDoc s.index.info
    if s.index.info.unique && !(e.lossy || s.index.info.lossy) then e.rows else []
  | _ => []

/-- The owners of the keys that an edit takes, index by index and row by row. -/
def editOwners (edit : MergeDocEdit) (key : Bytes) (survivors : List IndexMergeSurvivor) : List PendingOwner :=
  survivors.flatMap fun s => (editRows edit s).flatMap (s.rowOwners key)

theorem uniqueCollision_eq {s : IndexMergeSurvivor} {oldDoc : Option Document}
    (exchanged : edit.perSurvivor s = some (oldDoc, some d)) :
    s.uniqueCollision d key = ((editRows edit s).flatMap (s.rowOwners key)).head? := by
  have rows := funext (s.rowCollision_eq key)
  unfold IndexMergeSurvivor.uniqueCollision editRows
  rw [exchanged, rows]
  dsimp only
  cases s.index.info.unique with
  | false => rfl
  | true =>
    cases (indexEntriesForDoc d s.index.info).lossy || s.index.info.lossy with
    | true => rfl
    | false => simp [head?_flatMap]

/-- From's documents among the owners, each once, up to the first key that stays with into. -/
def givesWay : List PendingOwner → List Bytes
  | [] => []
  | owner :: rest => if owner.ours then [] else owner.id :: givesWay (rest.filter fun other => other.id ≠ owner.id)
termination_by owners => owners.length
decreasing_by
  rw [length_unattach, length_cons]
  exact Nat.lt_succ_of_le ((length_filter_le ..).trans_eq length_attach)

theorem survivorLoser_none {s : IndexMergeSurvivor} (free : (editRows edit s).flatMap (s.rowOwners key) = []) :
    survivorLoser edit key s = none := by
  unfold survivorLoser
  split
  next exchanged => rw [uniqueCollision_eq exchanged, free]; rfl
  · rfl

/-- The first owner loses its key to an edit of into's, unless it is into's too. -/
def LosesTo (edit : MergeDocEdit) (owner : PendingOwner) (loser : MergeLoser) : Prop :=
  (loser.incoming = true ∧ (edit.incomingOurs = false ∨ owner.ours = true)) ∨
    (loser.incoming = false ∧ loser.id = owner.id ∧ edit.incomingOurs = true ∧ owner.ours = false)

theorem survivorLoser_first {s : IndexMergeSurvivor} {owner : PendingOwner} {rest : List PendingOwner}
    (owned : (editRows edit s).flatMap (s.rowOwners key) = owner :: rest) :
    ∃ loser, survivorLoser edit key s = some loser ∧ LosesTo edit owner loser := by
  have lost : survivorLoser edit key s ≠ none := by
    unfold survivorLoser
    split
    next exchanged =>
      rw [uniqueCollision_eq exchanged, owned]
      exact Option.some_ne_none _
    next other =>
      unfold editRows at owned
      split at owned
      next exchanged => exact absurd exchanged (other _ _)
      · cases owned
  obtain ⟨loser, lost⟩ := Option.ne_none_iff_exists'.mp lost
  obtain ⟨oldDoc, newDoc, found, exchanged, collision, sides⟩ := survivorLoser_some lost
  rw [uniqueCollision_eq exchanged, owned] at collision
  cases collision
  refine ⟨loser, lost, sides.imp ?_ id⟩
  exact fun incoming => ⟨incoming.1, incoming.2.2⟩

theorem applyEdit_unowned {survivors : List IndexMergeSurvivor} (free : editOwners edit key survivors = []) :
    applyEdit survivors edit key = .ok (survivors.map (applyToSurvivor edit key)) := by
  have none_ : survivors.findSome? (survivorLoser edit key) = none := by
    exact findSome?_eq_none_iff.mpr fun s member => survivorLoser_none (flatMap_eq_nil_iff.mp free s member)
  rw [applyEdit, none_]

theorem applyEdit_owned {survivors : List IndexMergeSurvivor} {owner : PendingOwner} {rest : List PendingOwner}
    (owned : editOwners edit key survivors = owner :: rest) :
    ∃ loser, applyEdit survivors edit key = .error loser ∧ LosesTo edit owner loser := by
  have found : ∃ loser, survivors.findSome? (survivorLoser edit key) = some loser ∧ LosesTo edit owner loser := by
    induction survivors with
    | nil => cases owned
    | cons s survivors ih =>
      rw [editOwners, flatMap_cons] at owned
      cases here : (editRows edit s).flatMap (s.rowOwners key) with
      | nil =>
        rw [here] at owned
        rw [findSome?_cons, survivorLoser_none here]
        exact ih owned
      | cons first _ =>
        rw [here] at owned
        cases owned
        obtain ⟨loser, lost, sides⟩ := survivorLoser_first here
        exact ⟨loser, by rw [findSome?_cons, lost], sides⟩
  obtain ⟨loser, lost, sides⟩ := found
  exact ⟨loser, by rw [applyEdit, lost], sides⟩

/-! What an eviction does to the owners. -/

omit [QueryEnv] in
theorem pending_releaseAll (id : Bytes) (rows : List (List Value))
    (pending : Std.TreeMap Bytes PendingOwner) (p : Bytes) :
    (rows.foldl (releaseClaim id) pending)[p]? = if p ∈ rows.map fun row => (EqualityProbeBounds row).1
      then pending[p]?.filter fun owner => owner.id ≠ id else pending[p]? := by
  induction rows generalizing pending with
  | nil => rfl
  | cons row rows ih =>
    have one : (releaseClaim id pending row)[p]? = if p = (EqualityProbeBounds row).1
        then pending[p]?.filter fun owner => owner.id ≠ id else pending[p]? := by
      unfold releaseClaim
      split
      next owner claimed =>
        split
        next own =>
          rw [TreeMap.getElem?_erase]
          by_cases here : p = (EqualityProbeBounds row).1
          · simp [here, claimed, own, Option.filter]
          · simp [here, Ne.symm here]
        next other =>
          split
          next here => simp [here, claimed, other, Option.filter]
          · rfl
      next unclaimed =>
        split
        next here => simp [here, unclaimed]
        · rfl
    simp only [foldl_cons, ih, one, map_cons, mem_cons]
    by_cases here : p = (EqualityProbeBounds row).1
    · simp [here, Option.filter_filter]
    · simp [here]

omit [Platform] [QueryEnv] in
theorem seeded_id {m : Std.TreeSet Bytes} {start stop : Bytes} {cap : Nat}
    (found : id ∈ RangeLookupCapped m start stop cap) : id.length = primaryIDLen := by
  obtain ⟨k, -, -, read⟩ := mem_RangeLookupCapped found
  unfold entryID at read
  split at read
  · cases read
  · dsimp only at read
    split at read
    · cases read
      rw [length_drop]
      omega
    · cases read

variable {s : IndexMergeSurvivor} {e : Document} {row : List Value} {gone : Bytes}

section

variable (unique : s.index.info.unique = true)
include unique

theorem claim_deleteDoc (p : Bytes) : (s.deleteDoc (some e) gone).pending[p]? =
    if p ∈ (indexEntriesForDoc e s.index.info).rows.map fun row => (EqualityProbeBounds row).1
      then s.pending[p]?.filter fun owner => owner.id ≠ gone else s.pending[p]? := by
  rw [← pending_releaseAll]
  simp [IndexMergeSurvivor.deleteDoc, unique]

theorem seeded_deleteDoc : (s.deleteDoc (some e) gone).seeded key row = (s.seeded key row).filter fun owner =>
    BuildSecondaryKey row owner.id ∉ entryKeysForRows (indexEntriesForDoc e s.index.info).rows gone := by
  have seedMap : (s.deleteDoc (some e) gone).seedMap = s.seedMap := by simp [IndexMergeSurvivor.deleteDoc, unique]
  have seedLeft : (s.deleteDoc (some e) gone).seedLeft = s.seedLeft := by simp [IndexMergeSurvivor.deleteDoc, unique]
  unfold IndexMergeSurvivor.seeded
  rw [seedMap, seedLeft, filter_map, filter_filter]
  refine congrArg _ (filter_congr fun id _ => ?_)
  rw [Bool.eq_iff_iff]
  simp only [Function.comp_apply, Bool.and_eq_true, bne_iff_ne, ne_eq, Bool.not_eq_true', Bool.eq_false_iff,
    TreeSet.contains_iff_mem, IndexMergeSurvivor.mem_removed_deleteDoc unique, not_or, decide_eq_true_eq,
    Option.some.injEq, exists_eq_left', mem_keys]
  exact and_left_comm

/-- Whatever is deleted, no owner is added. -/
theorem rowOwners_deleteDoc_subset (other : gone ≠ key) :
    (s.deleteDoc (some e) gone).rowOwners key row ⊆ s.rowOwners key row := by
  have fewer : (s.deleteDoc (some e) gone).seeded key row ⊆ s.seeded key row := by
    rw [seeded_deleteDoc unique]
    exact filter_subset_self _
  unfold IndexMergeSurvivor.rowOwners
  rw [claim_deleteDoc unique]
  cases s.pending[(EqualityProbeBounds row).1]? with
  | none => simpa only [Option.filter_none, ite_self] using fewer
  | some owner =>
    by_cases here : owner.id = gone
    · have own : owner.id ≠ key := here ▸ other
      have none_ : Option.filter (fun owner => decide (owner.id ≠ gone)) (some owner) = none := by
        simp [Option.filter, here]
      simp only [none_, own, if_false]
      split
      next released =>
        split at released
        · cases released
        · cases released
          rw [if_neg own]
          exact cons_subset_cons _ fewer
      · exact fun _ member => mem_cons_of_mem _ (fewer member)
    · have stays : Option.filter (fun owner => decide (owner.id ≠ gone)) (some owner) = some owner := by
        simp [Option.filter, here]
      simp only [stays, ite_self]
      split
      · exact Subset.refl _
      · exact cons_subset_cons _ fewer

/-- Without a document that has the key of the row, if it was among the owners, the others are left. -/
theorem rowOwners_deleteDoc (width : gone.length = primaryIDLen) (other : gone ≠ key)
    (has : (∃ owner ∈ s.rowOwners key row, owner.id = gone) →
      ∃ claim ∈ (indexEntriesForDoc e s.index.info).rows, valueTuple claim = valueTuple row) :
    (s.deleteDoc (some e) gone).rowOwners key row = (s.rowOwners key row).filter fun owner => owner.id ≠ gone := by
  have left (has : (∃ owner ∈ s.seeded key row, owner.id = gone) →
      ∃ claim ∈ (indexEntriesForDoc e s.index.info).rows, valueTuple claim = valueTuple row) :
      (s.deleteDoc (some e) gone).seeded key row = (s.seeded key row).filter fun owner => owner.id ≠ gone := by
    rw [seeded_deleteDoc unique]
    refine filter_congr fun owner member => ?_
    rw [decide_eq_decide, not_iff_not]
    constructor
    · intro entry
      obtain ⟨id, found, rfl⟩ := mem_map.mp member
      obtain ⟨claim, -, same⟩ := mem_map.mp entry
      exact (id_of_BuildSecondaryKey (width.trans (seeded_id (mem_of_mem_filter found)).symm) same).symm
    · intro own
      obtain ⟨claim, rows, same⟩ := has ⟨owner, member, own⟩
      exact mem_map.mpr ⟨claim, rows, by rw [own]; exact congrArg (· ++ discriminator :: gone) same⟩
  unfold IndexMergeSurvivor.rowOwners at has ⊢
  rw [claim_deleteDoc unique]
  cases claimed : s.pending[(EqualityProbeBounds row).1]? with
  | none =>
    rw [claimed] at has
    simpa only [Option.filter_none, ite_self] using left has
  | some owner =>
    rw [claimed] at has
    dsimp only at has ⊢
    by_cases here : owner.id = gone
    · have own : owner.id ≠ key := here ▸ other
      rw [if_neg own] at has ⊢
      obtain ⟨claim, rows, same⟩ := has ⟨owner, .head _, here⟩
      have listed : (EqualityProbeBounds row).1 ∈
          (indexEntriesForDoc e s.index.info).rows.map fun row => (EqualityProbeBounds row).1 :=
        mem_map.mpr ⟨claim, rows, congrArg (· ++ [discriminator]) same⟩
      have released : Option.filter (fun owner => decide (owner.id ≠ gone)) (some owner) = none := by
        simp [Option.filter, here]
      simp only [listed, if_true, released]
      rw [left fun _ => ⟨claim, rows, same⟩, filter_cons_of_neg (by simp [here])]
    · have stays : Option.filter (fun owner => decide (owner.id ≠ gone)) (some owner) = some owner := by
        simp [Option.filter, here]
      simp only [stays, ite_self]
      split
      · rfl
      next own =>
        rw [if_neg own] at has
        rw [left fun ⟨owner, member, same⟩ => has ⟨owner, mem_cons_of_mem _ member, same⟩,
          filter_cons_of_pos (by simp [here])]

end

theorem perSurvivor_deleteDoc (doc : Option Document) :
    edit.perSurvivor (s.deleteDoc doc gone) = edit.perSurvivor s := by
  have seedLeft : (s.deleteDoc doc gone).seedLeft = s.seedLeft := by
    cases doc with
    | none => rfl
    | some doc =>
      unfold IndexMergeSurvivor.deleteDoc
      dsimp only
      split <;> rfl
  unfold MergeDocEdit.perSurvivor
  rw [seedLeft]

theorem editRows_deleteDoc (doc : Document) : editRows edit (s.deleteDoc (some doc) gone) = editRows edit s := by
  unfold editRows
  rw [perSurvivor_deleteDoc, IndexMergeSurvivor.info_deleteDoc]

omit [Platform] in
theorem unique_of_editRows (tested : row ∈ editRows edit s) : s.index.info.unique = true := by
  unfold editRows at tested
  split at tested
  · dsimp only at tested
    split at tested
    next enforced => exact (Bool.and_eq_true_iff.mp enforced).1
    · cases tested
  · cases tested

omit [QueryEnv] in
theorem ne_of_rowOwners {owner : PendingOwner} (owns : owner ∈ s.rowOwners key row) : owner.id ≠ key := by
  have seeded (owns : owner ∈ s.seeded key row) : owner.id ≠ key := by
    obtain ⟨id, live, rfl⟩ := mem_map.mp owns
    have live := (mem_filter.mp live).2
    simp only [Bool.and_eq_true, bne_iff_ne] at live
    exact live.1
  unfold IndexMergeSurvivor.rowOwners at owns
  split at owns
  · split at owns
    · cases owns
    next other =>
      rcases mem_cons.mp owns with rfl | owns
      · exact other
      · exact seeded owns
  · exact seeded owns

theorem editOwners_remove (survivors : List IndexMergeSurvivor) :
    editOwners edit key (removeDocEverywhere survivors e gone) = survivors.flatMap fun s =>
      (editRows edit s).flatMap ((s.deleteDoc (some e) gone).rowOwners key) := by
  unfold editOwners removeDocEverywhere
  rw [flatMap_map]
  simp only [editRows_deleteDoc]

/-- The owners have the keys they own in the merged map, where from's are all found. -/
def Rightful (edit : MergeDocEdit) (key : Bytes) (c : Capture) : Prop :=
  ∀ s ∈ c.survivors, ∀ row ∈ editRows edit s, ∀ owner ∈ s.rowOwners key row, owner.id.length = primaryIDLen ∧
    (owner.ours = false → owner.id ∈ c.merged) ∧ ∀ e, c.merged[owner.id]? = some e →
      ∃ claim ∈ (indexEntriesForDoc e s.index.info).rows, valueTuple claim = valueTuple row

theorem Rightful.rowOwners (rightful : Rightful edit key c) (stored : c.merged[gone]? = some e)
    (member : s ∈ c.survivors) (tested : row ∈ editRows edit s)
    (width : gone.length = primaryIDLen) (other : gone ≠ key) :
    (s.deleteDoc (some e) gone).rowOwners key row = (s.rowOwners key row).filter fun owner => owner.id ≠ gone := by
  refine rowOwners_deleteDoc (unique_of_editRows tested) width other ?_
  rintro ⟨owner, owns, rfl⟩
  exact (rightful s member row tested owner owns).2.2 e stored

variable [ConflictHash]

theorem Rightful.evict {loser : MergeLoser} (rightful : Rightful edit key c) (stored : c.merged[loser.id]? = some e)
    (width : loser.id.length = primaryIDLen) (other : loser.id ≠ key) :
    Rightful edit key (evictExisting w edit key loser e c) ∧
      editOwners edit key (evictExisting w edit key loser e c).survivors =
        (editOwners edit key c.survivors).filter fun owner => owner.id ≠ loser.id := by
  constructor
  · intro t member row tested owner owns
    obtain ⟨s, inside, rfl⟩ := mem_map.mp member
    rw [editRows_deleteDoc] at tested
    rw [rightful.rowOwners stored inside tested width other, mem_filter, decide_eq_true_eq] at owns
    obtain ⟨wide, found, has⟩ := rightful s inside row tested owner owns.1
    have elsewhere : (c.merged.erase loser.id)[owner.id]? = c.merged[owner.id]? := by
      rw [TreeMap.getElem?_erase]
      simp [Ne.symm owns.2]
    refine ⟨wide, fun theirs => TreeMap.mem_erase.mpr ⟨?_, found theirs⟩, fun e there => ?_⟩
    · simpa using Ne.symm owns.2
    · rw [IndexMergeSurvivor.info_deleteDoc]
      exact has e (elsewhere ▸ there)
  · refine (editOwners_remove c.survivors).trans ?_
    unfold editOwners
    rw [filter_flatMap]
    refine flatMap_congr fun s member => ?_
    rw [filter_flatMap]
    exact flatMap_congr fun row tested => rightful.rowOwners stored member tested width other

theorem gives_up_iff {attempts : Nat} (rightful : Rightful edit key c) :
    applyIndexEdit w edit key attempts c = .error .evictionDidNotConverge ↔
      attempts = 0 ∨ (edit.incomingOurs = true ∧ attempts ≤ (givesWay (editOwners edit key c.survivors)).length) := by
  induction attempts generalizing c with
  | zero => exact iff_of_true rfl (.inl rfl)
  | succ attempts ih =>
    rw [applyIndexEdit]
    cases owners : editOwners edit key c.survivors with
    | nil => simp [applyEdit_unowned owners, givesWay]
    | cons owner rest =>
      obtain ⟨loser, failed, ⟨incoming, cause⟩ | ⟨existing, named, ours, theirs⟩⟩ := applyEdit_owned owners
      · rcases cause with theirs | ours
        · simp [failed, incoming, theirs]
        · simp [failed, incoming, givesWay, ours]
      · obtain ⟨s, member, owns⟩ := mem_flatMap.mp (owners ▸ .head rest : owner ∈ editOwners edit key c.survivors)
        obtain ⟨row, tested, owns⟩ := mem_flatMap.mp owns
        obtain ⟨wide, found, -⟩ := rightful s member row tested owner owns
        obtain ⟨e, stored⟩ := Option.isSome_iff_exists.mp (TreeMap.mem_iff_isSome_getElem?.mp (found theirs))
        rw [← named] at stored wide
        obtain ⟨later, left⟩ := rightful.evict (w := w) stored wide (named ▸ ne_of_rowOwners owns)
        have way : givesWay (owner :: rest) = owner.id :: givesWay (rest.filter
          fun other => other.id ≠ owner.id) := by
          rw [givesWay, theirs, if_neg Bool.false_ne_true]
        rw [owners, named, filter_cons_of_neg (by simp)] at left
        simp only [failed, existing, stored, Bool.false_eq_true, if_false, ih later, left, way,
          length_cons, ours, true_and,
          Nat.add_le_add_iff_right]
        omega

/-- Every retry evicts a document of from's that owns a key of the edit, and each only once. -/
theorem evicted_owners {attempts : Nat} (fails : applyIndexEdit w edit key attempts c
    = .error .evictionDidNotConverge) :
    ∃ ids : List Bytes, ids.Nodup ∧ ids.length = attempts ∧ ∀ id ∈ ids, id ∈ c.merged ∧
      ∃ owner ∈ editOwners edit key c.survivors, owner.ours = false ∧ owner.id = id := by
  induction attempts generalizing c with
  | zero => exact ⟨[], nodup_nil, rfl, fun _ absent => (nomatch absent)⟩
  | succ attempts ih =>
    rw [applyIndexEdit] at fails
    cases owners : editOwners edit key c.survivors with
    | nil => simp [applyEdit_unowned owners] at fails
    | cons owner rest =>
      obtain ⟨loser, failed, ⟨incoming, -⟩ | ⟨existing, named, -, theirs⟩⟩ := applyEdit_owned owners
      · simp [failed, incoming] at fails
      · have first : owner ∈ editOwners edit key c.survivors := owners ▸ mem_cons_self
        obtain ⟨s, member, owns⟩ := mem_flatMap.mp first
        obtain ⟨row, tested, owns⟩ := mem_flatMap.mp owns
        have other : loser.id ≠ key := named ▸ ne_of_rowOwners owns
        simp only [failed, existing, Bool.false_eq_true, if_false] at fails
        split at fails
        · cases fails
        next e stored =>
          obtain ⟨ids, apart, long, each⟩ := ih fails
          have fewer : editOwners edit key (evictExisting w edit key loser e c).survivors ⊆
              editOwners edit key c.survivors := by
            rw [evictExisting, editOwners_remove]
            intro owner member
            simp only [editOwners, mem_flatMap] at member ⊢
            obtain ⟨s, inside, row, tested, owns⟩ := member
            exact ⟨s, inside, row, tested, rowOwners_deleteDoc_subset (unique_of_editRows tested) other owns⟩
          refine ⟨loser.id :: ids, nodup_cons.mpr ⟨fun again => ?_, apart⟩, by rw [length_cons, long], ?_⟩
          · exact absurd (each _ again).1 (by simp [evictExisting])
          · rw [← owners]
            intro id inside
            rcases mem_cons.mp inside with rfl | later
            · exact ⟨TreeMap.mem_iff_isSome_getElem?.mpr (stored ▸ rfl), owner, first, theirs, named.symm⟩
            · obtain ⟨there, found, owned, side, same⟩ := each id later
              exact ⟨(TreeMap.mem_erase.mp there).2, found, fewer owned, side, same⟩

end

/-- Into inserts `{_id: 1, a: [1, 2, 3]}`; from inserts `{_id: 2, a: 1}`, `{_id: 3, a: 2}` and `{_id: 4, a: 3}`. -/
abbrev takesThree : ThreeWay :=
  merging (uniqueA [.insertAll [[(idKey, .int32 1), (fieldA, .array [.int32 1, .int32 2, .int32 3])]]])
    (uniqueA [.insertAll [keyedDoc 2 1, keyedDoc 3 2, keyedDoc 4 3]]) (uniqueA [])

end DumboDB.Dolt
