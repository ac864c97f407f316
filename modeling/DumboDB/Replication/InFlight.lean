import DumboDB.Replication.Transactions

/-!
Transactions that are open while an initial sync finds its positions. The catch-up passes over their
fragments by position; the applier takes an `applyOps` with no stored fragment for a whole transaction.
-/

namespace DumboDB.Replication
open Foundation ByteOrder Fallible Function List

/-! A transaction as the source writes it. -/

structure Part where
  OpTime : OpTime
  RawBSON : RawDocument

inductive Ending where
  | unprepared
  | committed (close : Part)
  | aborted (prepared : Bool) (close : Part)

/-- What a transaction writes from its last fragment on. -/
def Ending.steps (last : Part) : Ending → List (Part × Command)
  | .unprepared => [(last, .applyOps false false)]
  | .committed close => [(last, .applyOps false true), (close, .commitTransaction)]
  | .aborted prepared close => [(last, .applyOps (!prepared) prepared), (close, .abortTransaction)]

def partEntry (key : TransactionKey) (p : Part) (command : Command) (prev : OpTime) : Entry :=
  ⟨p.OpTime, p.RawBSON, command, some key, some prev⟩

def linked (key : TransactionKey) : OpTime → List (Part × Command) → List Entry
  | _, [] => []
  | prev, (p, command) :: steps => partEntry key p command prev :: linked key p.OpTime steps

structure TransactionShape where
  key : TransactionKey
  front : List Part
  last : Part
  ending : Ending

namespace TransactionShape

variable (T : TransactionShape)

def parts : List Part := T.front ++ [T.last]

def steps : List (Part × Command) := T.front.map (·, .applyOps true false) ++ T.ending.steps T.last

def entries : List Entry := linked T.key nullOpTime T.steps

def closes : OpTime :=
  match T.ending with
  | .unprepared => T.last.OpTime
  | .committed close | .aborted _ close => close.OpTime

def commits : Bool :=
  match T.ending with
  | .unprepared | .committed _ => true
  | .aborted _ _ => false

def raws : List Bytes := T.parts.map fun p => p.RawBSON.bytes

end TransactionShape

structure Transaction extends TransactionShape where
  increasing : toTransactionShape.steps.Pairwise fun s t => s.1.OpTime < t.1.OpTime
  real : ∀ s ∈ toTransactionShape.steps, s.1.OpTime ≠ nullOpTime

/-- An oplog that holds the transaction among other entries. -/
structure Oplog (T : Transaction) where
  entries : List Entry
  ordered : Ordered entries
  holds : entries.filter (fun e => e.transaction = some T.key) = T.entries

/-- The positions that `DiscoverBoundaries` finds while the transaction is open. -/
structure Boundaries (T : Transaction) where
  BeginFetch : OpTime
  BeginApply : OpTime
  begun : BeginApply ≠ ⟨0, 0, 0⟩
  fetched : BeginFetch ≤ BeginApply
  covers : ∀ p ∈ T.parts, BeginFetch ≤ p.OpTime
  closesLater : BeginApply < T.closes

/-- An initial sync from an oplog, up to a stop position that is in it. -/
structure Sync {T : Transaction} (B : Boundaries T) where
  oplog : Oplog T
  Stop : OpTime
  limits : CatchUpLimits
  count : limits.Entries ≠ 0
  room : limits.Bytes ≠ 0
  stops : Stop = B.BeginApply ∨ (B.BeginApply < Stop ∧ ∃ e ∈ oplog.entries, e.OpTime = Stop)

section

variable {σ Op ε : Type} (env : Operations σ Op ε) {T : Transaction} {B : Boundaries T}

/-- The catch-up over what was fetched, then the entries after the stop position one by one. -/
def initialSync (S : Sync B) (data : σ) : Except (CatchUpError (ApplyError ε)) (Applier σ) := do
  let (result, _) ← ApplyBufferedThrough (Apply env) B.BeginApply S.Stop S.limits ⟨data, fun _ => none⟩
    (after B.BeginFetch S.oplog.entries)
  report id ((after S.Stop S.oplog.entries).foldlM (Apply env) result.applier)

/-- A transaction is applied as a whole where it commits, and nothing is kept of it before. -/
def wholeStep (T : Transaction) (a : Applier σ) (e : Entry) : Except (ApplyError ε) (Applier σ) :=
  if e.transaction = some T.key then
    if e.OpTime = T.closes ∧ T.commits then a.perform env T.raws e.OpTime else .ok a
  else Apply env a e

def wholeSync (S : Sync B) (data : σ) : Except (CatchUpError (ApplyError ε)) (Applier σ) :=
  report id ((after B.BeginApply S.oplog.entries).foldlM (wholeStep env T) ⟨data, fun _ => none⟩)

theorem initialSync_eq (S : Sync B) (data : σ) : initialSync env S data =
    report id ((after B.BeginApply S.oplog.entries).foldlM (Apply env) ⟨data, fun _ => none⟩) := by
  rw [initialSync]
  rcases S.stops with same | ⟨forward, e, member, at_⟩
  · rw [ApplyBufferedThrough, if_neg (by simp [B.begun, S.count, S.room]), same,
      if_neg (by rw [OpTime.compare_lt]; exact lt_irrefl _), if_pos rfl]
    rfl
  · have fetched : e ∈ after B.BeginFetch S.oplog.entries := by
      refine mem_filter.mpr ⟨member, decide_eq_true ?_⟩
      rw [show opTime e = S.Stop from at_]
      exact lt_of_le_of_lt B.fetched forward
    have ordered : Ordered (after B.BeginFetch S.oplog.entries) := S.oplog.ordered.filter _
    rw [ApplyBufferedThrough_eq (Apply env) B.begun S.count S.room forward _ ordered ⟨e, fetched, at_⟩, report_bind]
    have split : after B.BeginApply S.oplog.entries =
        window B.BeginApply S.Stop (after B.BeginFetch S.oplog.entries) ++ after S.Stop S.oplog.entries := by
      rw [window, after_after B.fetched, ← window, ← after_eq_append forward.le S.oplog.ordered]
    rw [split, foldlM_append]
    cases (window B.BeginApply S.Stop (after B.BeginFetch S.oplog.entries)).foldlM (Apply env) ⟨data,
      fun _ => none⟩ <;> rfl

/-! What the applier keeps of a transaction. -/

def gathered : List Part → Option TransactionFragment
  | [] => none
  | p :: ps => some ⟨p.OpTime, (ps.getLast?.getD p).OpTime,
      ((p :: ps).map fun q => encodeTransactionPayload q.RawBSON.bytes).flatten⟩

/-- The position that the next entry of the transaction names. -/
def lastSeen : List Part → OpTime
  | [] => nullOpTime
  | p :: ps => (ps.getLast?.getD p).OpTime

@[simp] theorem lastSeen_append (done : List Part) (p : Part) : lastSeen (done ++ [p]) = p.OpTime := by
  cases done <;> simp [lastSeen]

theorem extendFragment_gathered (done : List Part) (p : Part) (key : TransactionKey) (command : Command)
    (prev : OpTime) :
    some (extendFragment (gathered done) (partEntry key p command prev)) = gathered (done ++ [p]) := by
  cases done with
  | nil
  | cons q _ => simp [extendFragment, gathered, partEntry]

theorem validateTransactionLink_gathered (done : List Part) (p : Part) (key : TransactionKey) (command : Command) :
    (validateTransactionLink (partEntry key p command (lastSeen done)) (gathered done) : Except
      (ApplyError ε) Unit) = .ok () := by
  cases done <;> simp [validateTransactionLink, gathered, lastSeen, partEntry, previousOpTime, Bind.bind, Except.bind]

variable {done : List Part} {fragment : TransactionFragment} {a : Applier σ} {rest : List Entry}

theorem first_le {p : Part} (before : ∀ q ∈ done, q.OpTime < p.OpTime)
    (whole : gathered (done ++ [p]) = some fragment) : fragment.First ≤ fragment.Last := by
  cases done with
  | nil =>
    cases whole
    exact le_rfl
  | cons q _ =>
    cases whole
    simpa using (before q (.head _)).le

theorem apply_part {key : TransactionKey} {p : Part} {partialTxn prepare : Bool}
    (open_ : (partialTxn || prepare) = true) (before : ∀ q ∈ done, q.OpTime < p.OpTime)
    (kept : a.TransactionParts key = gathered done) :
    Apply env a (partEntry key p (.applyOps partialTxn prepare) (lastSeen done)) =
      .ok (a.holding key (gathered (done ++ [p]))) := by
  have fragment : a.fragmentOf (partEntry key p (.applyOps partialTxn prepare) (lastSeen done))
    = gathered done := kept
  change applyOpsEntry env a (partEntry key p (.applyOps partialTxn prepare) (lastSeen done)) partialTxn prepare = _
  simp only [applyOpsEntry, fragment, open_, Bool.true_or, if_true]
  rw [validateTransactionLink_gathered]
  have whole := (extendFragment_gathered done p key (.applyOps partialTxn prepare) (lastSeen done)).symm
  rw [whole]
  refine if_neg ?_
  rw [OpTime.compare_gt, not_lt]
  exact first_le before whole

theorem applyFragment_gathered (a : Applier σ) (key : TransactionKey)
    (whole : gathered done = some fragment) (opTime : OpTime) : a.applyFragment env key fragment opTime =
      (a.perform env (done.map fun p => p.RawBSON.bytes) opTime).map (·.holding key none) := by
  have payload : decodeTransactionPayload fragment.Payload = some (done.map fun p => p.RawBSON.bytes) := by
    cases done with
    | nil => cases whole
    | cons p ps =>
      cases whole
      have read := decode_encode ((p :: ps).map Part.RawBSON)
      rw [map_map, map_map] at read
      exact read
  rw [Applier.applyFragment, payload]
  rfl

theorem apply_alone {key : TransactionKey} {p : Part} (kept : a.TransactionParts key = none) (prev : OpTime) :
    Apply env a (partEntry key p (.applyOps false false) prev) =
      (a.perform env [p.RawBSON.bytes] p.OpTime).map (·.holding key none) := by
  have fragment : a.fragmentOf (partEntry key p (.applyOps false false) prev) = none := kept
  have nothing : a.holding key none = a := by rw [← kept, Applier.holding_self]
  change applyOpsEntry env a (partEntry key p (.applyOps false false) prev) false false = _
  simp only [applyOpsEntry, fragment, Bool.false_or, Option.isSome_none, Bool.false_eq_true, if_false]
  rw [a.holding_perform, nothing]
  rfl

theorem apply_last {key : TransactionKey} {p : Part} (kept : a.TransactionParts key = gathered done) :
    Apply env a (partEntry key p (.applyOps false false) (lastSeen done)) =
      (a.perform env ((done ++ [p]).map fun p => p.RawBSON.bytes) p.OpTime).map (·.holding key none) := by
  have fragment : a.fragmentOf (partEntry key p (.applyOps false false) (lastSeen done)) = gathered done := kept
  cases done with
  | nil => exact apply_alone env kept _
  | cons q qs =>
    change applyOpsEntry env a (partEntry key p (.applyOps false false) (lastSeen (q :: qs))) false false = _
    simp only [applyOpsEntry, fragment, Bool.false_or]
    rw [validateTransactionLink_gathered]
    exact applyFragment_gathered env a key (extendFragment_gathered (q :: qs) p key _ _).symm p.OpTime

section

variable {key : TransactionKey} (some_ : done ≠ []) {close : Part}
  (kept : a.TransactionParts key = gathered done)
include some_ kept

theorem apply_commit : Apply env a (partEntry key close .commitTransaction (lastSeen done)) =
      (a.perform env (done.map fun p => p.RawBSON.bytes) close.OpTime).map (·.holding key none) := by
  cases done with
  | nil => exact absurd rfl some_
  | cons p _ =>
    simp only [Apply, closeTransaction, partEntry, kept, gathered]
    rw [← applyFragment_gathered env a key rfl close.OpTime]
    exact if_neg (not_not.mpr rfl)

theorem apply_abort :
    Apply env a (partEntry key close .abortTransaction (lastSeen done)) = .ok (a.holding key none) := by
  cases done with
  | nil => exact absurd rfl some_
  | cons p _ =>
    simp only [Apply, closeTransaction, partEntry, kept, gathered]
    exact if_neg (not_not.mpr rfl)

end

/-! The applier follows the run that applies the transaction as a whole. -/

theorem front_increasing (T : Transaction) : T.parts.Pairwise fun p q => p.OpTime < q.OpTime := by
  have steps := T.increasing
  rw [TransactionShape.steps, pairwise_append] at steps
  obtain ⟨front, -, across⟩ := steps
  have ordered := pairwise_map.mp front
  refine pairwise_append.mpr ⟨ordered, pairwise_singleton _ _, fun p member q last => ?_⟩
  cases mem_singleton.mp last
  have first : ∃ command, (T.last, command) ∈ T.ending.steps T.last := by
    cases T.ending <;> exact ⟨_, .head _⟩
  obtain ⟨command, inside⟩ := first
  exact across (p, .applyOps true false) (mem_map.mpr ⟨p, member, rfl⟩) _ inside

theorem closes_ending (T : Transaction) : ∃ s ∈ T.ending.steps T.last, s.1.OpTime = T.closes := by
  rw [TransactionShape.closes]
  cases T.ending with
  | unprepared => exact ⟨_, .head _, rfl⟩
  | committed close
  | aborted _ close => exact ⟨_, .tail _ (.head _), rfl⟩

theorem front_lt_closes {T : Transaction} {p : Part} (member : p ∈ T.front) : p.OpTime < T.closes := by
  have steps := T.increasing
  rw [TransactionShape.steps, pairwise_append] at steps
  obtain ⟨-, -, across⟩ := steps
  obtain ⟨s, inside, at_⟩ := closes_ending T
  exact at_ ▸ across (p, .applyOps true false) (mem_map.mpr ⟨p, member, rfl⟩) s inside

theorem last_lt_close {T : Transaction} {command : Command} {close : Part} {closing : Command}
    (ends : T.ending.steps T.last = [(T.last, command), (close, closing)]) : T.last.OpTime < close.OpTime := by
  have steps := T.increasing
  rw [TransactionShape.steps, ends, pairwise_append] at steps
  exact (pairwise_cons.mp steps.2.1).1 _ (.head _)

/-- Up to what the applier keeps of the transaction, a run over entries is the intended one. -/
def Follows (T : Transaction) (a : Applier σ) (entries : List Entry) : Prop :=
  (entries.foldlM (Apply env) a).map (·.holding T.key none) = entries.foldlM (wholeStep env T) (a.holding T.key none)

def entriesOf (T : Transaction) (entries : List Entry) : List Entry :=
  entries.filter fun e => e.transaction = some T.key

theorem follows_other {e : Entry} (other : e.transaction ≠ some T.key)
    (next : ∀ b : Applier σ, b.TransactionParts T.key = a.TransactionParts T.key → Follows env T b rest) :
    Follows env T a (e :: rest) := by
  rw [Follows, foldlM_cons, foldlM_cons, wholeStep, if_neg other, ← apply_holding env a none other]
  cases applied : Apply env a e with
  | error _ => rfl
  | ok b => exact next b (parts_apply env other applied)

theorem follows_none {entries : List Entry} (none_ : entriesOf T entries = []) (a : Applier σ) :
    Follows env T a entries := by
  induction entries generalizing a with
  | nil => rfl
  | cons e entries ih =>
    rw [entriesOf, filter_eq_nil_iff] at none_
    refine follows_other env (by simpa using none_ e (.head _)) fun b _ => ih ?_ b
    exact filter_eq_nil_iff.mpr fun f member => none_ f (.tail _ member)

theorem follows_reach {entries : List Entry} {e : Entry} {more : List Entry} (next : entriesOf T entries = e :: more)
    (a : Applier σ) (step : ∀ b later, b.TransactionParts T.key = a.TransactionParts T.key →
      entriesOf T later = more → Follows env T b (e :: later)) : Follows env T a entries := by
  induction entries generalizing a with
  | nil => cases next
  | cons f entries ih =>
    rw [entriesOf, filter_cons] at next
    by_cases mine : f.transaction = some T.key
    · rw [if_pos (by simpa using mine), List.cons.injEq] at next
      obtain ⟨rfl, rest⟩ := next
      exact step a entries rfl rest
    · rw [if_neg (by simpa using mine)] at next
      refine follows_other env mine fun b same => ih next b fun c later kept => ?_
      exact step c later (kept.trans same)

theorem Applier.holding_holding (a : Applier σ) (key : TransactionKey) (x y : Option TransactionFragment) :
    (a.holding key x).holding key y = a.holding key y := by
  simp [holding]

theorem follows_kept {e : Entry} {kept : Option TransactionFragment}
    (applied : Apply env a e = .ok (a.holding T.key kept)) (mine : e.transaction = some T.key)
    (silent : ¬ (e.OpTime = T.closes ∧ T.commits = true))
    (next : Follows env T (a.holding T.key kept) rest) : Follows env T a (e :: rest) := by
  rw [Follows, a.holding_holding] at next
  rw [Follows, foldlM_cons, foldlM_cons, wholeStep, if_pos mine, if_neg silent, applied]
  exact next

theorem follows_commit {e : Entry}
    (applied : Apply env a e = (a.perform env T.raws e.OpTime).map (·.holding T.key none))
    (mine : e.transaction = some T.key) (closes : e.OpTime = T.closes) (commits : T.commits = true)
    (none_ : entriesOf T rest = []) : Follows env T a (e :: rest) := by
  rw [Follows, foldlM_cons, foldlM_cons, wholeStep, if_pos mine, if_pos ⟨closes, commits⟩, applied,
    ← a.holding_perform]
  cases a.perform env T.raws e.OpTime with
  | error _ => rfl
  | ok b =>
    have next := follows_none env none_ (b.holding T.key none)
    rw [Follows, b.holding_holding] at next
    exact next

theorem lastSeen_parts (T : Transaction) : lastSeen T.parts = T.last.OpTime := lastSeen_append ..

theorem parts_ne_nil (T : Transaction) : T.parts ≠ [] := by simp [TransactionShape.parts]

theorem follows_ending (kept : a.TransactionParts T.key = gathered T.front)
    (ends : entriesOf T rest = linked T.key (lastSeen T.front) (T.ending.steps T.last)) : Follows env T a rest := by
  have before : ∀ q ∈ T.front, q.OpTime < T.last.OpTime := fun q member =>
    (pairwise_append.mp (front_increasing T)).2.2 q member _ (.head _)
  cases ending : T.ending with
  | unprepared =>
    rw [ending] at ends
    refine follows_reach env ends a fun b later same none_ => ?_
    refine follows_commit env (apply_last env (same.trans kept)) rfl ?_ ?_ none_
    · simp [TransactionShape.closes, ending, partEntry]
    · simp [TransactionShape.commits, ending]
  | committed close =>
    rw [ending] at ends
    have earlier : T.last.OpTime < close.OpTime := last_lt_close (by rw [ending]; rfl)
    have closes : T.closes = close.OpTime := by simp [TransactionShape.closes, ending]
    refine follows_reach env ends a fun b later same more => ?_
    refine follows_kept env (apply_part env rfl before (same.trans kept)) rfl
      (fun both => earlier.ne (both.1.trans closes)) ?_
    refine follows_reach env more _ fun c later held none_ => ?_
    have gatheredAll : c.TransactionParts T.key = gathered T.parts := held.trans (update_self ..)
    refine follows_commit env ?_ rfl closes.symm (by simp [TransactionShape.commits, ending]) none_
    rw [← lastSeen_parts]
    exact apply_commit env (parts_ne_nil T) gatheredAll
  | aborted _ close =>
    rw [ending] at ends
    have aborts : ¬ T.commits = true := by simp [TransactionShape.commits, ending]
    refine follows_reach env ends a fun b later same more => ?_
    refine follows_kept env (apply_part env (by simp) before (same.trans kept)) rfl (fun ⟨_, yes⟩ => aborts yes) ?_
    refine follows_reach env more _ fun c later held none_ => ?_
    have gatheredAll : c.TransactionParts T.key = gathered T.parts := held.trans (update_self ..)
    have closed : Apply env c (partEntry T.key close .abortTransaction (lastSeen T.parts)) = .ok
      (c.holding T.key none) :=
      apply_abort env (parts_ne_nil T) gatheredAll
    rw [lastSeen_parts] at closed
    exact follows_kept env closed rfl (fun ⟨_, yes⟩ => aborts yes) (follows_none env none_ _)

theorem follows_parts (front done : List Part) (split : done ++ front = T.front) (a : Applier σ)
    (kept : a.TransactionParts T.key = gathered done) (rest : List Entry) (ends : entriesOf T rest =
      linked T.key (lastSeen done) (front.map (·, .applyOps true false) ++ T.ending.steps T.last)) :
    Follows env T a rest := by
  induction front generalizing done a rest with
  | nil =>
    rw [append_nil] at split
    subst split
    exact follows_ending env kept ends
  | cons p front ih =>
    have member : p ∈ T.front := by
      rw [← split]
      simp
    have before : ∀ q ∈ done, q.OpTime < p.OpTime := by
      intro q inside
      have ordered := (pairwise_append.mp (front_increasing T)).1
      rw [← split, pairwise_append] at ordered
      exact ordered.2.2 q inside p (.head _)
    refine follows_reach env ends a fun b later same more => ?_
    refine follows_kept env (apply_part env rfl before (same.trans kept)) rfl
      (fun both => (front_lt_closes member).ne both.1) ?_
    refine ih (done ++ [p]) (by rw [append_assoc]; exact split) _ (update_self ..) later ?_
    rw [lastSeen_append]
    exact more

/-! The positions of a transaction around the begin-apply position. -/

theorem opTime_of_linked {key : TransactionKey} {prev : OpTime} {steps : List (Part × Command)} {e : Entry}
    (member : e ∈ linked key prev steps) : e.transaction = some key ∧ ∃ s ∈ steps, e.OpTime = s.1.OpTime := by
  induction steps generalizing prev with
  | nil => cases member
  | cons s steps ih =>
    rcases mem_cons.mp member with rfl | later
    · exact ⟨rfl, s, .head _, rfl⟩
    · obtain ⟨mine, t, inside, same⟩ := ih later
      exact ⟨mine, t, .tail _ inside, same⟩

theorem linked_of_mem {key : TransactionKey} {steps : List (Part × Command)} {s : Part × Command} (member : s ∈ steps)
    (prev : OpTime) : ∃ e ∈ linked key prev steps, e.OpTime = s.1.OpTime := by
  induction steps generalizing prev with
  | nil => cases member
  | cons t steps ih =>
    rcases mem_cons.mp member with rfl | later
    · exact ⟨_, .head _, rfl⟩
    · obtain ⟨e, inside, same⟩ := ih later t.1.OpTime
      exact ⟨e, .tail _ inside, same⟩

theorem linked_ordered {key : TransactionKey} {steps : List (Part × Command)}
    (increasing : steps.Pairwise fun s t => s.1.OpTime < t.1.OpTime) (prev : OpTime) :
    Ordered (linked key prev steps) := by
  induction steps generalizing prev with
  | nil => exact .nil
  | cons s steps ih =>
    obtain ⟨first, rest⟩ := pairwise_cons.mp increasing
    refine pairwise_cons.mpr ⟨fun e member => ?_, ih rest _⟩
    obtain ⟨-, t, inside, same⟩ := opTime_of_linked member
    change s.1.OpTime < e.OpTime
    rw [same]
    exact first t inside

theorem after_linked (key : TransactionKey) {steps : List (Part × Command)}
    (increasing : steps.Pairwise fun s t => s.1.OpTime < t.1.OpTime) (position prev : OpTime) :
    ∃ dropped kept, steps = dropped ++ kept ∧ (∀ s ∈ dropped, s.1.OpTime ≤ position) ∧
      (∀ s ∈ kept, position < s.1.OpTime) ∧ ∃ named, after position (linked key prev steps) = linked key named kept ∧
        (named = prev ∧ dropped = [] ∨ ∃ s ∈ dropped, named = s.1.OpTime) := by
  induction steps generalizing prev with
  | nil => exact ⟨[], [], rfl, nofun, nofun, prev, rfl, .inl ⟨rfl, rfl⟩⟩
  | cons s steps ih =>
    obtain ⟨first, rest⟩ := pairwise_cons.mp increasing
    rw [linked, after_cons]
    by_cases past : position < s.1.OpTime
    · have all : ∀ t ∈ s :: steps, position < t.1.OpTime :=
        forall_mem_cons.mpr ⟨past, fun t member => past.trans (first t member)⟩
      refine ⟨[], s :: steps, rfl, nofun, all, prev, ?_, .inl ⟨rfl, rfl⟩⟩
      rw [if_pos (show position < opTime (partEntry key s.1 s.2 prev) from past), linked, after_of_lt]
      intro e member
      obtain ⟨-, t, inside, same⟩ := opTime_of_linked member
      change position < e.OpTime
      rw [same]
      exact all t (.tail _ inside)
    · obtain ⟨dropped, kept, rfl, low, high, named, same, names⟩ := ih rest s.1.OpTime
      refine ⟨s :: dropped, kept, rfl, forall_mem_cons.mpr ⟨not_lt.mp past, low⟩, high, named, ?_, .inr ?_⟩
      · rw [if_neg (show ¬ position < opTime (partEntry key s.1 s.2 prev) from past)]
        exact same
      · rcases names with ⟨rfl, -⟩ | ⟨t, inside, at_⟩
        · exact ⟨s, .head _, rfl⟩
        · exact ⟨t, .tail _ inside, at_⟩

section

variable {T : Transaction} {s : Part × Command} (member : s ∈ T.steps)
include member

theorem mem_steps :
    (∃ x y, s.2 = .applyOps x y ∧ (x || y) = true) ∨ s.2 = .commitTransaction ∨ s.2 = .abortTransaction ∨
      (s = (T.last, .applyOps false false) ∧ T.ending = .unprepared) := by
  rcases mem_append.mp member with front | ending
  · obtain ⟨p, -, rfl⟩ := mem_map.mp front
    exact .inl ⟨true, false, rfl, rfl⟩
  · cases ends : T.ending with
    | unprepared =>
      rw [ends] at ending
      exact .inr (.inr (.inr ⟨mem_singleton.mp ending, rfl⟩))
    | committed close =>
      rw [ends] at ending
      simp only [Ending.steps, mem_cons, not_mem_nil, or_false] at ending
      rcases ending with rfl | rfl
      · exact .inl ⟨false, true, rfl, rfl⟩
      · exact .inr (.inl rfl)
    | aborted prepared close =>
      rw [ends] at ending
      simp only [Ending.steps, mem_cons, not_mem_nil, or_false] at ending
      rcases ending with rfl | rfl
      · exact .inl ⟨!prepared, prepared, rfl, by simp⟩
      · exact .inr (.inr (.inl rfl))

theorem position_steps : s.1 ∈ T.parts ∨ s.1.OpTime = T.closes := by
  rcases mem_append.mp member with front | ending
  · obtain ⟨p, inside, rfl⟩ := mem_map.mp front
    exact .inl (mem_append_left _ inside)
  · have last : T.last ∈ T.parts := mem_append_right _ (.head _)
    cases ends : T.ending <;>
      simp only [ends, Ending.steps, mem_cons, not_mem_nil, or_false] at ending <;>
      simp only [TransactionShape.closes, ends]
    · exact .inl (ending ▸ last)
    all_goals
      rcases ending with rfl | rfl
      · exact .inl last
      · exact .inr rfl

end

theorem part_steps {T : Transaction} {p : Part} (member : p ∈ T.parts) : ∃ s ∈ T.steps, s.1 = p := by
  rcases mem_append.mp member with front | last
  · exact ⟨_, mem_append_left _ (mem_map.mpr ⟨p, front, rfl⟩), rfl⟩
  · cases mem_singleton.mp last
    refine ⟨((T.ending.steps T.last).head (by cases T.ending <;> simp [Ending.steps])),
      mem_append_right _ (head_mem _), ?_⟩
    cases T.ending <;> rfl

theorem closes_steps (T : Transaction) : ∃ s ∈ T.steps, s.1.OpTime = T.closes := by
  obtain ⟨s, inside, at_⟩ := closes_ending T
  exact ⟨s, mem_append_right _ inside, at_⟩

theorem apply_orphan {s : Part × Command} (member : s ∈ T.steps) {named : OpTime} (later : named ≠ nullOpTime)
    (none_ : a.TransactionParts T.key = none) (partial_ : s.2 ≠ .applyOps false false) :
    Apply env a (partEntry T.key s.1 s.2 named) = .error .unlinked ∨
      Apply env a (partEntry T.key s.1 s.2 named) = .error .noFragment := by
  obtain ⟨p, _⟩ := s
  rcases mem_steps member with ⟨x, y, rfl, open_⟩ | rfl | rfl | ⟨whole, -⟩
  · left
    have fragment : a.fragmentOf (partEntry T.key p (.applyOps x y) named) = none := none_
    change applyOpsEntry env a (partEntry T.key p (.applyOps x y) named) x y = _
    simp only [applyOpsEntry, fragment, open_, Bool.true_or, if_true]
    simp [validateTransactionLink, partEntry, previousOpTime, Bind.bind, Except.bind, later]
  · right
    simp [Apply, closeTransaction, partEntry, none_]
  · right
    simp [Apply, closeTransaction, partEntry, none_]
  · exact absurd (congrArg Prod.snd whole) partial_

theorem whole_error {entries : List Entry} (mine : ∀ e ∈ entries, e.transaction = some T.key)
    {x : ApplyError ε} (failed : entries.foldlM (wholeStep env T) a = .error x) : ∃ e, x = .operation e := by
  induction entries generalizing a with
  | nil => cases failed
  | cons e entries ih =>
    rw [foldlM_cons, wholeStep, if_pos (mine e (.head _))] at failed
    have rest := fun f member => mine f (.tail _ member)
    split at failed
    · rw [Applier.perform] at failed
      cases performed : applyTransactionOperations env T.raws e.OpTime a.data with
      | error y =>
        rw [performed] at failed
        cases failed
        exact ⟨y, rfl⟩
      | ok _ =>
        rw [performed] at failed
        exact ih rest failed
    · exact ih rest failed

def Unpassed (B : Boundaries T) : Prop := ∀ p ∈ T.parts, B.BeginApply < p.OpTime

/-- All fragments but the last of a transaction that is not prepared are passed over, and their
operations make no difference before those of the last. -/
def PassedIdle (B : Boundaries T) : Prop :=
  T.ending = .unprepared ∧ (∀ p ∈ T.front, p.OpTime ≤ B.BeginApply) ∧
    ∀ data, applyTransactionOperations env T.raws T.last.OpTime data =
      applyTransactionOperations env [T.last.RawBSON.bytes] T.last.OpTime data

theorem entriesOf_after (S : Sync B) : entriesOf T (after B.BeginApply S.oplog.entries)
    = after B.BeginApply T.entries := by
  rw [← S.oplog.holds, entriesOf, after, after, filter_filter, filter_filter]
  simp only [Bool.and_comm]

theorem sync_of_follows {S : Sync B} {data : σ}
    (follows : Follows env T ⟨data, fun _ => none⟩ (after B.BeginApply S.oplog.entries)) :
    (initialSync env S data).map Applier.data = (wholeSync env S data).map Applier.data := by
  have nothing : (⟨data, fun _ => none⟩ : Applier σ).holding T.key none = ⟨data, fun _ => none⟩ :=
    Applier.holding_self ⟨data, fun _ => none⟩ T.key
  rw [Follows, nothing] at follows
  rw [initialSync_eq, wholeSync, ← follows]
  cases (after B.BeginApply S.oplog.entries).foldlM (Apply env) ⟨data, fun _ => none⟩ <;> rfl

theorem sync_of_unpassed (unpassed : Unpassed B) (S : Sync B) (data : σ) :
    (initialSync env S data).map Applier.data = (wholeSync env S data).map Applier.data := by
  refine sync_of_follows env (follows_parts env T.front [] rfl _ rfl _ ?_)
  rw [entriesOf_after]
  refine after_of_lt fun e member => ?_
  obtain ⟨-, s, inside, same⟩ := opTime_of_linked member
  change B.BeginApply < e.OpTime
  rw [same]
  rcases position_steps inside with part | close
  · exact unpassed _ part
  · exact close ▸ B.closesLater

theorem linked_append (key : TransactionKey) (prev : OpTime) (front : List (Part × Command)) (last : Part × Command) :
    ∃ named, linked key prev (front ++ [last]) = linked key prev front ++ [partEntry key last.1 last.2 named] := by
  induction front generalizing prev with
  | nil => exact ⟨prev, rfl⟩
  | cons s front ih =>
    obtain ⟨named, same⟩ := ih s.1.OpTime
    exact ⟨named, congrArg (partEntry key s.1 s.2 prev :: ·) same⟩

theorem sync_of_passedIdle (idle : PassedIdle env B) (S : Sync B) (data : σ) :
    (initialSync env S data).map Applier.data = (wholeSync env S data).map Applier.data := by
  obtain ⟨ends, passed, same⟩ := idle
  have closes : T.closes = T.last.OpTime := by simp [TransactionShape.closes, ends]
  obtain ⟨named, entries⟩ := linked_append T.key nullOpTime (T.front.map (·, .applyOps true false))
    (T.last, .applyOps false false)
  have only : entriesOf T (after B.BeginApply S.oplog.entries)
    = [partEntry T.key T.last (.applyOps false false) named] := by
    rw [entriesOf_after, TransactionShape.entries, TransactionShape.steps, ends, Ending.steps, entries, after_append,
      after_of_le, nil_append, after_of_lt]
    · intro e member
      cases mem_singleton.mp member
      exact lt_of_lt_of_eq B.closesLater closes
    · intro e member
      obtain ⟨-, s, inside, at_⟩ := opTime_of_linked member
      obtain ⟨p, front, rfl⟩ := mem_map.mp inside
      exact le_of_eq_of_le at_ (passed p front)
  refine sync_of_follows env (follows_reach env only _ fun b later kept none_ => ?_)
  refine follows_commit env ?_ rfl closes.symm (by simp [TransactionShape.commits, ends]) none_
  rw [apply_alone env kept, Applier.perform, Applier.perform, ← same]
  rfl

def alone (B : Boundaries T) : Sync B where
  oplog := ⟨T.entries, linked_ordered T.increasing _,
    List.filter_eq_self.mpr fun _ member => decide_eq_true (opTime_of_linked member).1⟩
  Stop := T.closes
  limits := ⟨1, 1⟩
  count := Nat.one_ne_zero
  room := Nat.one_ne_zero
  stops := by
    obtain ⟨s, inside, at_⟩ := closes_steps T
    obtain ⟨e, member, same⟩ := linked_of_mem inside nullOpTime
    exact .inr ⟨B.closesLater, e, member, same.trans at_⟩

theorem left_last {dropped kept : List (Part × Command)} (ends : T.ending = .unprepared)
    (split : T.steps = dropped ++ (T.last, .applyOps false false) :: kept) :
    kept = [] ∧ ∀ p ∈ T.front, (p, .applyOps true false) ∈ dropped := by
  have steps : T.steps = T.front.map (·, .applyOps true false) ++ [(T.last, .applyOps false false)] := by
    rw [TransactionShape.steps, ends]
    rfl
  have final : kept = [] := by
    refine eq_nil_iff_forall_not_mem.mpr fun u inside => ?_
    have increasing := T.increasing
    rw [split, pairwise_append] at increasing
    have above := (pairwise_cons.mp increasing.2.1).1 u inside
    have member : u ∈ T.steps := split ▸ mem_append_right _ (.tail _ inside)
    rw [steps] at member
    rcases mem_append.mp member with front | last
    · obtain ⟨p, inFront, rfl⟩ := mem_map.mp front
      have below := (pairwise_append.mp (front_increasing T)).2.2 p inFront T.last (.head _)
      exact absurd (above.trans below) (lt_irrefl _)
    · cases mem_singleton.mp last
      exact absurd above (lt_irrefl _)
  refine ⟨final, fun p front => ?_⟩
  have member : (p, Command.applyOps true false) ∈ T.steps := mem_append_left _ (mem_map.mpr ⟨p, front, rfl⟩)
  rw [split, final] at member
  rcases mem_append.mp member with inside | last
  · exact inside
  · cases mem_singleton.mp last

theorem alone_eq (whole : ∀ (S : Sync B) (data : σ),
      (initialSync env S data).map Applier.data = (wholeSync env S data).map Applier.data)
    {entries : List Entry} (rest : after B.BeginApply T.entries = entries) (data : σ) :
    (report id (entries.foldlM (Apply env) ⟨data, fun _ => none⟩)).map Applier.data =
      (report id (entries.foldlM (wholeStep env T) ⟨data, fun _ => none⟩)).map Applier.data := by
  have same := whole (alone B) data
  rw [initialSync_eq, wholeSync, show after B.BeginApply (alone B).oplog.entries = entries from rest] at same
  exact same

theorem passedIdle_of_sync [Inhabited σ] (whole : ∀ (S : Sync B) (data : σ),
      (initialSync env S data).map Applier.data = (wholeSync env S data).map Applier.data)
    (passed : ¬ Unpassed B) : PassedIdle env B := by
  obtain ⟨dropped, kept, split, low, high, named, rest, names⟩ :=
    after_linked T.key T.increasing B.BeginApply nullOpTime
  simp only [Unpassed, not_forall, not_lt] at passed
  obtain ⟨p, part, early⟩ := passed
  obtain ⟨s, member, rfl⟩ := part_steps part
  have gone : s ∈ dropped := by
    rw [split] at member
    exact (mem_append.mp member).resolve_right fun inside => absurd (high s inside) (not_lt.mpr early)
  have later : named ≠ nullOpTime := by
    rcases names with ⟨-, rfl⟩ | ⟨t, inside, rfl⟩
    · cases gone
    · exact T.real t (split ▸ mem_append_left _ inside)
  cases kept with
  | nil =>
    obtain ⟨t, inside, at_⟩ := closes_steps T
    rw [split, append_nil] at inside
    exact absurd B.closesLater (not_lt.mpr (at_ ▸ low t inside))
  | cons t kept =>
  have step : t ∈ T.steps := split ▸ mem_append_right _ (.head _)
  have compared := alone_eq env whole rest
  by_cases alone_ : t.2 = .applyOps false false
  · obtain ⟨rfl, ends⟩ : t = (T.last, .applyOps false false) ∧ T.ending = .unprepared := by
      rcases mem_steps step with ⟨x, y, same, open_⟩ | same | same | both
      · rw [alone_] at same
        cases same
        cases open_
      · exact absurd (alone_.symm.trans same) nofun
      · exact absurd (alone_.symm.trans same) nofun
      · exact both
    obtain ⟨rfl, front⟩ := left_last ends split
    refine ⟨ends, fun p inFront => low _ (front p inFront), fun data => ?_⟩
    have closes : T.last.OpTime = T.closes := by simp [TransactionShape.closes, ends]
    have commits : T.commits = true := by simp [TransactionShape.commits, ends]
    have here := compared data
    rw [linked, linked, foldlM_cons, foldlM_cons, apply_alone env rfl, wholeStep,
      if_pos (show (partEntry T.key T.last (.applyOps false false) named).transaction = some T.key
        from rfl), if_pos ⟨closes, commits⟩, Applier.perform, Applier.perform] at here
    change (report id ((Applier.written _
        (applyTransactionOperations env [T.last.RawBSON.bytes] T.last.OpTime data)).map _ >>= _)).map _ =
      (report id (Applier.written _ (applyTransactionOperations env T.raws T.last.OpTime data) >>= _)).map _ at here
    generalize applyTransactionOperations env [T.last.RawBSON.bytes] T.last.OpTime data = left at here ⊢
    generalize applyTransactionOperations env T.raws T.last.OpTime data = right at here ⊢
    cases left <;> cases right <;> cases here <;> rfl
  · let data : σ := default
    have here := compared data
    have mine : ∀ e ∈ linked T.key named (t :: kept), e.transaction = some T.key :=
      fun e inside => (opTime_of_linked inside).1
    cases intended : (linked T.key named (t :: kept)).foldlM (wholeStep env T) ⟨data, fun _ => none⟩ with
    | ok b =>
      rw [intended, linked, foldlM_cons] at here
      rcases apply_orphan env (a := ⟨data, fun _ =>
        none⟩) step later rfl alone_ with failed | failed <;> rw [failed] at here <;> cases here
    | error x =>
      obtain ⟨y, rfl⟩ := whole_error env mine intended
      rw [intended, linked, foldlM_cons] at here
      rcases apply_orphan env (a := ⟨data, fun _ =>
        none⟩) step later rfl alone_ with failed | failed <;> rw [failed] at here <;> cases here

/-- An initial sync keeps a transaction whole, in every oplog that holds it, exactly where no fragment
is passed over, apart from fragments whose operations make no difference. -/
theorem sync_whole_iff_unpassed [Inhabited σ] (B : Boundaries T) :
    (∀ (S : Sync B) (data : σ), (initialSync env S data).map Applier.data = (wholeSync env S data).map Applier.data) ↔
    Unpassed B ∨ PassedIdle env B := by
  constructor
  · intro whole
    exact or_iff_not_imp_left.mpr (passedIdle_of_sync env whole)
  · rintro (unpassed | idle)
    · exact sync_of_unpassed env unpassed
    · exact sync_of_passedIdle env idle

end

/-- Databases that only record which raw entries were applied. -/
def journal : Operations (List Bytes) Bytes Unit where
  operationOf := .ok
  applyOpsOf raw := .ok [raw]
  applyOperation _ applied raw := .ok (applied ++ [raw])

def firstRaw : RawDocument := ⟨[5, 0, 0, 0, 0], by decide, by decide⟩
def secondRaw : RawDocument := ⟨[6, 0, 0, 0, 1, 0], by decide, by decide⟩

/-- Two fragments, the first before the begin-apply position. -/
def straddling : Transaction where
  key := ⟨[1], 1⟩
  front := [⟨⟨1, 1, 1⟩, firstRaw⟩]
  last := ⟨⟨3, 1, 1⟩, secondRaw⟩
  ending := .unprepared
  increasing := by simp [TransactionShape.steps, Ending.steps, OpTime.lt_def]
  real := by simp [TransactionShape.steps, Ending.steps, nullOpTime]

def preparedEarly : Transaction where
  key := ⟨[1], 2⟩
  front := []
  last := ⟨⟨1, 2, 1⟩, firstRaw⟩
  ending := .committed ⟨⟨3, 2, 1⟩, secondRaw⟩
  increasing := by simp [TransactionShape.steps, Ending.steps, OpTime.lt_def]
  real := by simp [TransactionShape.steps, Ending.steps, nullOpTime]

def straddled : Boundaries straddling where
  BeginFetch := ⟨1, 1, 1⟩
  BeginApply := ⟨2, 1, 1⟩
  begun := by decide
  fetched := (OpTime.lt_def.mpr (by decide)).le
  covers := by
    simp [TransactionShape.parts, straddling, (OpTime.lt_def.mpr (by decide) : (⟨1, 1, 1⟩ : OpTime) < ⟨3, 1, 1⟩).le]
  closesLater := by simp [TransactionShape.closes, straddling, OpTime.lt_def]

def preparedBefore : Boundaries preparedEarly where
  BeginFetch := ⟨1, 2, 1⟩
  BeginApply := ⟨2, 1, 1⟩
  begun := by decide
  fetched := (OpTime.lt_def.mpr (by decide)).le
  covers := by simp [TransactionShape.parts, preparedEarly]
  closesLater := by simp [TransactionShape.closes, preparedEarly, OpTime.lt_def]

/-- The operations of a fragment that is passed over are lost without an error, and the commit of a
transaction that was prepared before fails the catch-up. -/
theorem passed_fragment_lost :
    (initialSync journal (alone straddled) []).map Applier.data = .ok [secondRaw.bytes] ∧
      (wholeSync journal (alone straddled) []).map Applier.data = .ok [firstRaw.bytes, secondRaw.bytes] ∧
      (initialSync journal (alone preparedBefore) []).map Applier.data = .error (.apply .noFragment) ∧
      (wholeSync journal (alone preparedBefore) []).map Applier.data = .ok [firstRaw.bytes] := by
  refine ⟨?_, ?_, ?_, ?_⟩
  · rw [initialSync_eq]
    rfl
  · rfl
  · rw [initialSync_eq]
    rfl
  · rfl

end DumboDB.Replication
