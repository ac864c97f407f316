import DumboDB.Replication.InFlight

/-!
Interleaved transactions: the stored fragments are what the oplog says is pending, so an entry that
closes a transaction applies all of it, unless its first entries were never seen.
-/

namespace DumboDB.Replication
open Foundation ByteOrder Fallible Function List

/-! What the oplog says. -/

/-- The `applyOps` entries of a transaction that no entry has closed yet. -/
def pendingStep (key : TransactionKey) (pending : List Entry) (e : Entry) : List Entry :=
  if e.transaction = some key then
    match e.command with
    | .operation => pending
    | .applyOps partialTxn prepare => if partialTxn || prepare then pending ++ [e] else []
    | .commitTransaction | .abortTransaction => []
  else pending

def pendingOf (key : TransactionKey) (entries : List Entry) : List Entry := entries.foldl (pendingStep key) []

def pendingBefore (done : List Entry) (e : Entry) : List Entry :=
  match e.transaction with
  | none => []
  | some key => pendingOf key done

/-- Each entry names the one before it, the first one none. -/
def Chained : OpTime → List Entry → Prop
  | _, [] => True
  | previous, e :: rest => e.prevOpTime.getD nullOpTime = previous ∧ Chained e.OpTime rest

theorem chained_append (previous : OpTime) (entries : List Entry) (e : Entry) : Chained previous (entries ++ [e]) ↔
    Chained previous entries ∧ e.prevOpTime.getD nullOpTime = lastPosition entries previous := by
  induction entries generalizing previous with
  | nil => simp [Chained, lastPosition]
  | cons f _ ih =>
    rw [cons_append, Chained, Chained, ih, and_assoc]
    rfl

variable {σ Op ε : Type} (env : Operations σ Op ε)

/-- What an entry does to the databases when a transaction is applied as a whole where it closes. -/
def wholeData (done : List Entry) (e : Entry) (data : σ) : Except ε σ :=
  let apply entries := applyTransactionOperations env (entries.map fun f : Entry => f.RawBSON.bytes) e.OpTime data
  match e.command with
  | .operation => env.operationOf e.RawBSON.bytes >>= env.applyOperation e.OpTime data
  | .applyOps partialTxn prepare => if partialTxn || prepare then .ok data else apply (pendingBefore done e ++ [e])
  | .commitTransaction => apply (pendingBefore done e)
  | .abortTransaction => .ok data

def fragmentFor (entries : List Entry) : Option TransactionFragment :=
  entries.foldl (fun fragment e => some (extendFragment fragment e)) none

/-- An entry was applied with all of its transaction, back to the first entry; every other
transaction is pending as before. -/
structure Whole (done : List Entry) (a : Applier σ) (e : Entry) (b : Applier σ) : Prop where
  data : wholeData env done e a.data = .ok b.data
  complete : e.transaction.isSome → e.command ≠ .operation → Chained nullOpTime (pendingBefore done e ++ [e])
  pending : ∀ key, b.TransactionParts key = fragmentFor (pendingOf key (done ++ [e]))

/-- A transaction that one entry opens and closes names no earlier entry. -/
def Anchored (done : List Entry) (e : Entry) : Prop :=
  e.transaction.isSome → e.command = .applyOps false false → pendingBefore done e = [] →
    e.prevOpTime.getD nullOpTime = nullOpTime

/-! What the store keeps. -/

theorem fragmentFor_append (entries : List Entry) (e : Entry) :
    fragmentFor (entries ++ [e]) = some (extendFragment (fragmentFor entries) e) := by
  simp [fragmentFor]

variable {entries : List Entry} {fragment : TransactionFragment}

theorem fragmentFor_none (none_ : fragmentFor entries = none) : entries = [] := by
  cases entries using List.reverseRecOn with
  | nil => rfl
  | append_singleton entries e => cases (fragmentFor_append entries e).symm.trans none_

theorem fragmentFor_some (kept : fragmentFor entries = some fragment) :
    fragment.Last = lastPosition entries nullOpTime ∧
      fragment.Payload = (entries.map fun e => encodeTransactionPayload e.RawBSON.bytes).flatten := by
  induction entries using List.reverseRecOn generalizing fragment with
  | nil => cases kept
  | append_singleton entries e ih =>
    rw [fragmentFor_append] at kept
    cases kept
    rw [lastPosition_append, show opTime e = e.OpTime from rfl]
    cases before : fragmentFor entries with
    | none => simp [extendFragment, fragmentFor_none before]
    | some _ => simp [extendFragment, (ih before).2]

theorem decode_fragmentFor (kept : fragmentFor entries = some fragment) :
    decodeTransactionPayload fragment.Payload = some (entries.map fun e => e.RawBSON.bytes) := by
  have read := decode_encode (entries.map Entry.RawBSON)
  rw [map_map, map_map] at read
  exact (fragmentFor_some kept).2 ▸ read

/-- The store after some entries: a fragment for each pending transaction, and each one chained. -/
structure Represents (done : List Entry) (a : Applier σ) : Prop where
  parts : ∀ key, a.TransactionParts key = fragmentFor (pendingOf key done)
  chained : ∀ key, Chained nullOpTime (pendingOf key done)

theorem pendingOf_append (key : TransactionKey) (done : List Entry) (e : Entry) :
    pendingOf key (done ++ [e]) = pendingStep key (pendingOf key done) e := by
  simp [pendingOf]

theorem pendingOf_other {key : TransactionKey} {e : Entry} (apart : e.transaction ≠ some key) (done : List Entry) :
    pendingOf key (done ++ [e]) = pendingOf key done := by
  rw [pendingOf_append, pendingStep, if_neg apart]

/-! What an accepted entry did. -/

section Accepted

variable {a b : Applier σ} {e : Entry} {key : TransactionKey} {done : List Entry} {pending : List Entry}

omit env in
theorem written_ok {outcome : Except ε σ} (applied : a.written outcome = .ok b) :
    outcome = .ok b.data ∧ b.TransactionParts = a.TransactionParts := by
  cases outcome with
  | error _ => cases applied
  | ok _ => cases applied; exact ⟨rfl, rfl⟩

theorem applyFragment_ok (kept : fragmentFor pending = some fragment)
    {opTime : OpTime} (applied : a.applyFragment env key fragment opTime = .ok b) :
    applyTransactionOperations env (pending.map fun f => f.RawBSON.bytes) opTime a.data = .ok b.data ∧
      b.TransactionParts key = none := by
  rw [Applier.applyFragment, decode_fragmentFor kept] at applied
  obtain ⟨c, performed, deleted⟩ := bind_eq_ok.mp applied
  cases deleted
  exact ⟨(written_ok performed).1, update_self ..⟩

omit env in
theorem link_ok (linked : (validateTransactionLink e (fragmentFor pending) : Except (ApplyError ε) Unit) = .ok ()) :
    e.prevOpTime.getD nullOpTime = lastPosition pending nullOpTime := by
  obtain ⟨previous, named, same⟩ := bind_eq_ok.mp linked
  rw [previousOpTime] at named
  split at named
  · cases named
  · next earlier =>
    cases named
    rw [earlier]
    cases kept : fragmentFor pending with
    | none =>
      rw [kept] at same
      rw [fragmentFor_none kept]
      by_contra other
      simp only [if_pos (show previous ≠ nullOpTime from other)] at same
      cases same
    | some fragment =>
      rw [kept] at same
      rw [← (fragmentFor_some kept).1]
      by_contra other
      simp only [if_pos (show previous ≠ fragment.Last from other)] at same
      cases same

omit env in
theorem closeTransaction_ok {close : TransactionKey → TransactionFragment → Except (ApplyError ε) (Applier σ)}
    (mine : e.transaction = some key) (applied : closeTransaction a e close = .ok b) :
    ∃ fragment, a.TransactionParts key = some fragment ∧ e.prevOpTime = some fragment.Last ∧
      close key fragment = .ok b := by
  rw [closeTransaction, mine] at applied
  cases kept : a.TransactionParts key with
  | none => simp [kept] at applied
  | some fragment =>
    simp only [kept] at applied
    obtain ⟨_, named, closed⟩ := bind_eq_ok.mp applied
    rw [previousOpTime] at named
    split at named
    · cases named
    · next earlier =>
      cases named
      split at closed
      · cases closed
      · next same => exact ⟨fragment, rfl, by rw [earlier, not_not.mp same], closed⟩

/-- What an accepted entry of a transaction did: all that was pending, or the entry alone. -/
theorem own_applied (kept : Represents done a) (mine : e.transaction = some key) (applied : Apply env a e = .ok b) :
    wholeData env done e a.data = .ok b.data ∧
      b.TransactionParts key = fragmentFor (pendingStep key (pendingOf key done) e) ∧
      (e.command ≠ .operation → e.prevOpTime.getD nullOpTime = lastPosition (pendingOf key done) nullOpTime ∨
        e.command = .applyOps false false ∧ pendingOf key done = []) := by
  have before : pendingBefore done e = pendingOf key done := by rw [pendingBefore, mine]
  have parts := kept.parts key
  rw [wholeData, pendingStep, if_pos mine, before]
  rw [Apply] at applied
  cases command : e.command with
  | operation =>
    simp only [command] at applied
    obtain ⟨data, same⟩ := written_ok applied
    exact ⟨data, same ▸ parts, fun other => absurd rfl other⟩
  | commitTransaction =>
    simp only [command] at applied
    obtain ⟨fragment, stored, named, closed⟩ := closeTransaction_ok mine applied
    obtain ⟨data, gone⟩ := applyFragment_ok env (parts.symm.trans stored) closed
    refine ⟨data, gone, fun _ => .inl ?_⟩
    rw [named, ← (fragmentFor_some (parts.symm.trans stored)).1]
    rfl
  | abortTransaction =>
    simp only [command] at applied
    obtain ⟨fragment, stored, named, closed⟩ := closeTransaction_ok mine applied
    cases closed
    refine ⟨rfl, update_self .., fun _ => .inl ?_⟩
    rw [named, ← (fragmentFor_some (parts.symm.trans stored)).1]
    rfl
  | applyOps partialTxn prepare =>
    simp only [command] at applied
    have fragment : a.fragmentOf e = fragmentFor
      (pendingOf key done) := by rw [← parts, Applier.fragmentOf, mine]; rfl
    simp only [applyOpsEntry, fragment, mine] at applied
    split at applied
    · obtain ⟨_, valid, stored⟩ := bind_eq_ok.mp applied
      have linked := link_ok valid
      have whole := fragmentFor_append (pendingOf key done) e
      by_cases open_ : (partialTxn || prepare) = true
      · rw [if_pos open_, Applier.PutTransactionFragment] at stored
        split at stored <;> cases stored
        simp only [if_pos open_]
        exact ⟨trivial, by rw [whole]; exact update_self .., fun _ => .inl linked⟩
      · rw [if_neg open_] at stored
        obtain ⟨data, gone⟩ := applyFragment_ok env whole stored
        simp only [if_neg open_]
        exact ⟨data, gone, fun _ => .inl linked⟩
    · next alone =>
      simp only [Bool.or_eq_true, not_or, Bool.not_eq_true, Option.isSome_eq_false_iff,
        Option.isNone_iff_eq_none] at alone
      obtain ⟨⟨rfl, rfl⟩, none_⟩ := alone
      obtain ⟨data, same⟩ := written_ok applied
      have nothing := fragmentFor_none none_
      rw [nothing]
      exact ⟨data, by rw [same, parts, none_]; rfl, fun _ => .inr ⟨rfl, rfl⟩⟩

theorem foreign_applied (foreign : e.transaction = none) (applied : Apply env a e = .ok b) :
    wholeData env done e a.data = .ok b.data := by
  rw [wholeData, pendingBefore, foreign]
  rw [Apply] at applied
  cases command : e.command with
  | operation =>
    simp only [command] at applied
    exact (written_ok applied).1
  | commitTransaction
  | abortTransaction => simp [command, closeTransaction, foreign] at applied
  | applyOps _ _ =>
    simp only [command, applyOpsEntry, Applier.fragmentOf, foreign] at applied
    split at applied
    · cases applied
    · next alone =>
      simp only [Bool.or_eq_true, not_or] at alone
      simp only [Bool.or_eq_true, alone.1.1, alone.1.2, or_self]
      exact (written_ok applied).1

theorem parts_applied (kept : Represents done a) (applied : Apply env a e = .ok b) (key : TransactionKey) :
    b.TransactionParts key = fragmentFor (pendingOf key (done ++ [e])) := by
  by_cases mine : e.transaction = some key
  · rw [pendingOf_append]
    exact (own_applied env kept mine applied).2.1
  · rw [pendingOf_other mine, parts_apply env mine applied, kept.parts key]

theorem Represents.step (kept : Represents done a) (applied : Apply env a e = .ok b) :
    Represents (done ++ [e]) b := by
  refine ⟨parts_applied env kept applied, fun key => ?_⟩
  by_cases mine : e.transaction = some key
  · have links := (own_applied env kept mine applied).2.2
    rw [pendingOf_append, pendingStep, if_pos mine]
    cases command : e.command with
    | operation => exact kept.chained key
    | commitTransaction => trivial
    | abortTransaction => trivial
    | applyOps _ _ =>
      simp only
      split
      · next open_ =>
        refine (chained_append ..).mpr ⟨kept.chained key, ?_⟩
        refine (links (by rw [command]; exact nofun)).resolve_right fun ⟨same, _⟩ => ?_
        cases command.symm.trans same
        cases open_
      · trivial
  · rw [pendingOf_other mine]
    exact kept.chained key

theorem represents_run {data : σ} (ran : done.foldlM (Apply env) ⟨data, fun _ => none⟩ = .ok a) :
    Represents done a := by
  induction done using List.reverseRecOn generalizing a with
  | nil =>
    cases ran
    exact ⟨fun _ => rfl, fun _ => trivial⟩
  | append_singleton done e ih =>
    rw [foldlM_append] at ran
    obtain ⟨c, before, applied⟩ := bind_eq_ok.mp ran
    rw [foldlM_cons] at applied
    obtain ⟨_, applied, last⟩ := bind_eq_ok.mp applied
    cases last
    exact (ih before).step env applied

end Accepted

/-- In every run, whatever the entries, an accepted entry is applied with its whole transaction
exactly where a transaction of one entry names no earlier one. -/
theorem applied_whole_iff_anchored (data : σ) (done : List Entry) (e : Entry) {a b : Applier σ}
    (ran : done.foldlM (Apply env) ⟨data, fun _ => none⟩ = .ok a) (applied : Apply env a e = .ok b) :
    Whole env done a e b ↔ Anchored done e := by
  have kept := represents_run env ran
  cases mine : e.transaction with
  | none =>
    refine iff_of_true ⟨foreign_applied env mine applied, ?_, parts_applied env kept applied⟩ ?_
    · simp [mine]
    · simp [Anchored, mine]
  | some key =>
    obtain ⟨whole, -, links⟩ := own_applied env kept mine applied
    have before : pendingBefore done e = pendingOf key done := by rw [pendingBefore, mine]
    constructor
    · rintro ⟨-, complete, -⟩ identity single none_
      have chain := complete identity (by rw [single]; exact nofun)
      rw [none_] at chain
      exact chain.1
    · refine fun anchored => ⟨whole, fun identity other => ?_, parts_applied env kept applied⟩
      rw [before, chained_append]
      refine ⟨kept.chained key, (links other).elim id fun ⟨single, none_⟩ => ?_⟩
      rw [none_]
      exact anchored identity single (before.trans none_)

/-- The last fragment of an unprepared transaction whose first one is at position 1. -/
def finalFragment (previous : OpTime) : Entry :=
  ⟨⟨2, 1, 1⟩, secondRaw, .applyOps false false, some ⟨[1], 1⟩, some previous⟩

def nothingApplied : Applier (List Bytes) := ⟨[], fun _ => none⟩

/-- The first fragment of that transaction, and behind it a whole transaction of another session. -/
def startedBefore : List Entry :=
  [⟨⟨1, 1, 1⟩, firstRaw, .applyOps true false, some ⟨[1], 1⟩, some nullOpTime⟩,
    ⟨⟨1, 2, 1⟩, secondRaw, .applyOps false false, some ⟨[2], 1⟩, some nullOpTime⟩]

/-- A transaction of one entry, and one of two entries with another transaction between them. -/
theorem single_entry_whole :
    (Anchored [] (finalFragment nullOpTime) ∧
      Whole journal [] nothingApplied (finalFragment nullOpTime) ⟨[secondRaw.bytes], fun _ => none⟩) ∧
    ∃ a, startedBefore.foldlM (Apply journal) nothingApplied = .ok a ∧ a.data = [secondRaw.bytes] ∧
      ∃ b, Apply journal a (finalFragment ⟨1, 1, 1⟩) = .ok b ∧
        b.data = [secondRaw.bytes, firstRaw.bytes, secondRaw.bytes] ∧
          Whole journal startedBefore a (finalFragment ⟨1, 1, 1⟩) b := by
  refine ⟨⟨fun _ _ _ => rfl, (applied_whole_iff_anchored journal [] [] (finalFragment nullOpTime) rfl rfl).mpr
    fun _ _ _ => rfl⟩, ?_⟩
  obtain ⟨a, ran, before, b, applied, after⟩ : ∃ a, startedBefore.foldlM (Apply journal) nothingApplied = .ok a ∧
      a.data = [secondRaw.bytes] ∧ ∃ b, Apply journal a (finalFragment ⟨1, 1, 1⟩) = .ok b ∧
        b.data = [secondRaw.bytes, firstRaw.bytes, secondRaw.bytes] := by decide +kernel
  refine ⟨a, ran, before, b, applied, after, (applied_whole_iff_anchored journal [] _ _ ran applied).mpr ?_⟩
  intro _ _ none_
  cases none_

/-- An oplog that starts in the middle of a transaction: the last fragment alone is applied. -/
theorem orphaned_fragment_applied :
    Apply journal nothingApplied (finalFragment ⟨1, 1, 1⟩) = .ok ⟨[secondRaw.bytes], fun _ => none⟩ ∧
      ¬ Chained nullOpTime (pendingBefore [] (finalFragment ⟨1, 1, 1⟩) ++ [finalFragment ⟨1, 1, 1⟩]) := by
  refine ⟨rfl, fun chained => ?_⟩
  have first : (⟨1, 1, 1⟩ : OpTime) = nullOpTime := chained.1
  cases first

end DumboDB.Replication
