import DumboDB.Foundation.Transition
import DumboDB.Dolt.SessionPublish

/-!
The commit of a transaction: a loop over the databases, within one over the dirty branches, each branch
read, reconciled and published on its own while other sessions publish.
-/

namespace DumboDB.Dolt
open Foundation ByteOrder DumboDB.Types Index Handler List
open Transition (Run)
open Optimistic (Published)

structure BranchRef where
  db : Bytes
  branch : Bytes
deriving DecidableEq

/-- The working set that the transaction pinned, and the session's own. -/
structure Overlay (Table : Type) where
  base : WorkingSet Table
  ours : WorkingSet Table

/-- An open transaction: the branches that it marked dirty and the overlays that the session holds. -/
structure SessionTxn (Table : Type) where
  dirty : List BranchRef
  overlay : BranchRef → Option (Overlay Table)
  distinct : dirty.Nodup

inductive CommitFailure where
  | refused (error : ReconcileError)
  | raced

/-- `OnTransactionCommit` under way: the dirty branches of the databases that it still visits, the
merge that it is about to publish with its fork point, and what it published. -/
structure CommitCall (Table : Type) where
  todo : List (List BranchRef)
  reconciled : Option (WorkingSet Table × WorkingSet Table)
  firstErr : Option CommitFailure
  log : List (BranchRef × Published (WorkingSet Table))

/-- The published branches of all databases, and the call. -/
structure Committing (Table : Type) where
  branches : BranchRef → WorkingSet Table
  call : CommitCall Table

inductive CommitEvent where
  | foreign (ref : BranchRef)
  | moves
  | reads (ref : BranchRef)
  | publishes (ref : BranchRef)
  | fails (ref : BranchRef)

section
variable {Table : Type} {ref : BranchRef} {dbs : List Bytes} {order : List BranchRef} {other : BranchRef}

/-- The dirty branches by database, as the loops visit them. -/
def visits (order : List BranchRef) (dbs : List Bytes) : List (List BranchRef) :=
  dbs.map fun db => order.filter (·.db = db)

theorem mem_visits : ref ∈ (visits order dbs).flatten ↔ ref.db ∈ dbs ∧ ref ∈ order := by
  simp only [visits, mem_flatten, mem_map]
  constructor
  · rintro ⟨_, ⟨_, known, rfl⟩, member⟩
    simp only [mem_filter, decide_eq_true_eq] at member
    exact ⟨member.2 ▸ known, member.1⟩
  · rintro ⟨known, member⟩
    exact ⟨_, ⟨ref.db, known, rfl⟩, mem_filter.mpr ⟨member, by simp⟩⟩

theorem nodup_visits (distinct : order.Nodup) (databases : dbs.Nodup) : (visits order dbs).flatten.Nodup := by
  refine nodup_flatten.mpr ⟨?_, pairwise_map.mpr (databases.imp fun apart => ?_)⟩
  · intro _ member
    obtain ⟨_, -, rfl⟩ := mem_map.mp member
    exact distinct.filter _
  · intro _ left right
    simp only [mem_filter, decide_eq_true_eq] at left right
    exact apart (left.2.symm.trans right.2)

/-- An order of the databases and branches in which one branch comes first and another one next, in the
same database or in the next. -/
theorem exists_order {all : List BranchRef} (first : ref ∈ all) (second : other ∈ all)
    (apart : ref ≠ other) : ∃ order dbs, order.Perm all ∧ dbs.Nodup ∧ (∀ b ∈ all, b.db ∈ dbs) ∧
      ∃ refs refs' rest, visits order dbs = (ref :: other :: refs) :: rest ∨
        visits order dbs = (ref :: refs) :: (other :: refs') :: rest := by
  let tail := (all.erase ref).erase other
  have order : (ref :: other :: tail).Perm all :=
    ((perm_cons_erase ((mem_erase_of_ne apart.symm).mpr second)).symm.cons ref).trans
      (perm_cons_erase first).symm
  let others := ((all.map (·.db)).dedup).filter fun db => db ≠ ref.db ∧ db ≠ other.db
  have distinct : others.Nodup := (nodup_dedup _).filter _
  have fresh : ref.db ∉ others ∧ other.db ∉ others := by simp [others]
  have rest (b : BranchRef) (member : b ∈ all) : b.db = ref.db ∨ b.db = other.db ∨ b.db ∈ others := by
    by_cases first : b.db = ref.db
    · exact .inl first
    · by_cases second : b.db = other.db
      · exact .inr (.inl second)
      · exact .inr (.inr (by simpa [others, first, second] using ⟨b, member, rfl⟩))
  by_cases same : ref.db = other.db
  · refine ⟨_, ref.db :: others, order, distinct.cons fresh.1, fun b member => ?_, tail.filter (·.db = ref.db), [],
      visits (ref :: other :: tail) others, .inl ?_⟩
    · rcases rest b member with first | second | later
      · exact first ▸ .head _
      · exact (second.trans same.symm) ▸ .head _
      · exact .tail _ later
    · simp [visits, same]
  · refine ⟨_, ref.db :: other.db :: others, order, ?_, fun b member => ?_, tail.filter (·.db = ref.db),
      tail.filter (·.db = other.db), visits (ref :: other :: tail) others, .inr ?_⟩
    · exact (distinct.cons fresh.2).cons (by simpa using ⟨same, fresh.1⟩)
    · rcases rest b member with first | second | later
      · exact first ▸ .head _
      · exact second ▸ .tail _ (.head _)
      · exact .tail _ (.tail _ later)
    · simp [visits, same, Ne.symm same]

theorem exists_order_first {all : List BranchRef} (first : ref ∈ all) : ∃ order dbs, order.Perm all ∧ dbs.Nodup ∧
    (∀ b ∈ all, b.db ∈ dbs) ∧ ∃ refs rest, visits order dbs = (ref :: refs) :: rest := by
  let others := ((all.map (·.db)).dedup).filter (· ≠ ref.db)
  refine ⟨ref :: all.erase ref, ref.db :: others, (perm_cons_erase first).symm, ?_, fun b member => ?_,
    (all.erase ref).filter (·.db = ref.db), visits (ref :: all.erase ref) others, by simp [visits]⟩
  · exact ((nodup_dedup _).filter _).cons (by simp [others])
  · by_cases same : b.db = ref.db
    · exact same ▸ .head _
    · exact .tail _ (mem_filter.mpr ⟨mem_dedup.mpr (mem_map.mpr ⟨b, member, rfl⟩), by simpa using same⟩)

/-- The call before its first step, in an order of the databases and of the dirty branches. -/
def SessionTxn.commits (order : List BranchRef) (dbs : List Bytes) (branches : BranchRef → WorkingSet Table) :
    Committing Table :=
  ⟨branches, ⟨visits order dbs, none, none, []⟩⟩

/-- `sessionForOwner`: the registry gives no session whose teardown has begun. -/
def SessionTxn.forOwner (t : SessionTxn Table) (terminating : Bool) : Option (SessionTxn Table) :=
  if terminating then none else some t

/-- `OnTransactionAbort`: a session that the registry does not give keeps its transaction. -/
def SessionTxn.rollbackOwnerTxn (t : SessionTxn Table) (terminating : Bool) : SessionTxn Table :=
  match t.forOwner terminating with
  | none => t
  | some _ => ⟨[], fun _ => none, .nil⟩

/-- A database is left at its first error, and the next one is visited all the same. -/
def CommitCall.fail (c : CommitCall Table) (rest : List (List BranchRef)) (error : CommitFailure) :
    CommitCall Table :=
  { c with todo := rest, reconciled := none, firstErr := c.firstErr.or (some error) }

def Committing.publish (s : Committing Table) (ref : BranchRef) (todo : List (List BranchRef))
    (p : Published (WorkingSet Table)) : Committing Table :=
  ⟨Function.update s.branches ref p.merged, ⟨todo, none, s.call.firstErr, s.call.log ++ [(ref, p)]⟩⟩

variable [DecidableEq Table]

theorem holds_self (ws : WorkingSet Table) : ws.holds ws :=
  ⟨by simp [Root.same], by simp [Root.same], rfl⟩

variable [TableStore Table] [Platform] [QueryEnv] [ConflictHash] [CollationIdentity] [Digest] [ValidatorMatcher]

/-- One atomic step of the call, or a publish of another session. -/
inductive CommitStep (t : SessionTxn Table) : Committing Table → CommitEvent → Committing Table → Prop where
  | foreign {s} (ref : BranchRef) (ws : WorkingSet Table) :
      CommitStep t s (.foreign ref) { s with branches := Function.update s.branches ref ws }
  | nextDatabase {s rest} : s.call.todo = [] :: rest → s.call.reconciled = none →
      CommitStep t s .moves { s with call.todo := rest }
  | skips {s ref refs rest} : s.call.todo = (ref :: refs) :: rest → s.call.reconciled = none →
      t.overlay ref = none → CommitStep t s .moves { s with call.todo := refs :: rest }
  | reads {s ref refs rest o merged} (theirsHash : Bytes) : s.call.todo = (ref :: refs) :: rest →
      s.call.reconciled = none → t.overlay ref = some o →
      reconcileBranchForSession theirsHash o.base o.ours (s.branches ref) = .ok merged →
      CommitStep t s (.reads ref) { s with call.reconciled := some (s.branches ref, merged) }
  | refused {s ref refs rest o error} (theirsHash : Bytes) : s.call.todo = (ref :: refs) :: rest →
      s.call.reconciled = none → t.overlay ref = some o →
      reconcileBranchForSession theirsHash o.base o.ours (s.branches ref) = .error error →
      CommitStep t s (.fails ref) { s with call := s.call.fail rest (.refused error) }
  | publishes {s ref refs rest o fork merged} : s.call.todo = (ref :: refs) :: rest →
      s.call.reconciled = some (fork, merged) → t.overlay ref = some o → (s.branches ref).holds fork →
      CommitStep t s (.publishes ref) (s.publish ref (refs :: rest) ⟨o.base, o.ours, fork, merged⟩)
  | raced {s ref refs rest fork merged} : s.call.todo = (ref :: refs) :: rest →
      s.call.reconciled = some (fork, merged) → ¬(s.branches ref).holds fork →
      CommitStep t s (.fails ref) { s with call := s.call.fail rest .raced }

/-- Everywhere or nowhere: without an error each dirty branch was replaced by one that includes the
session's writes; with one the call changed no branch. -/
def Committing.Atomic (t : SessionTxn Table) (s : Committing Table) : Prop :=
  match s.call.firstErr with
  | none => ∀ ref ∈ t.dirty, ∀ o, t.overlay ref = some o →
      ∃ p, (ref, p) ∈ s.call.log ∧ p.base = o.base ∧ p.ours = o.ours ∧ Includes p
  | some _ => ∀ entry ∈ s.call.log, entry.2.merged.holds entry.2.fork

def SessionTxn.Writes (t : SessionTxn Table) (ref : BranchRef) : Prop :=
  ∃ o, t.overlay ref = some o ∧ o.base.working.same o.ours.working = false

/-- The branch that the transaction changed is the only one that it has an overlay of. -/
def SessionTxn.OneBranch (t : SessionTxn Table) : Prop :=
  ∀ ref ∈ t.dirty, ∀ other ∈ t.dirty, t.Writes ref → (t.overlay other).isSome → ref = other

/-! What a run of the call keeps. -/

theorem Reconciles.unwritten {base ours fork merged : WorkingSet Table} (done : Reconciles base ours fork merged)
    (same : base.working.same ours.working = true) : merged = fork := by
  obtain ⟨_, done⟩ := done
  simp only [reconcileBranchForSession, reconcileWorkingSets, same, if_true] at done
  split at done
  · cases done
  · exact (Except.ok.inj done).symm

/-- Where the loops stand: each dirty branch is still to be visited, published, or the one that a
database was left at. -/
structure CommitSound (t : SessionTxn Table) (s : Committing Table) : Prop where
  once : s.call.todo.flatten.Nodup
  single : (s.call.log.map (·.1)).Nodup
  entries : ∀ ref p, (ref, p) ∈ s.call.log → ref ∈ t.dirty ∧ ref ∉ s.call.todo.flatten ∧
    t.overlay ref = some ⟨p.base, p.ours⟩ ∧ Reconciles p.base p.ours p.fork p.merged
  ready : ∀ fork merged, s.call.reconciled = some (fork, merged) → ∃ ref refs rest o,
    s.call.todo = (ref :: refs) :: rest ∧ t.overlay ref = some o ∧ Reconciles o.base o.ours fork merged
  visited : ∀ ref ∈ s.call.todo.flatten, ref ∈ t.dirty
  failed : s.call.firstErr ≠ none → ∃ ref ∈ t.dirty, (t.overlay ref).isSome ∧ ref ∉ s.call.todo.flatten ∧
    ∀ p, (ref, p) ∉ s.call.log
  covered : s.call.firstErr = none → ∀ ref ∈ t.dirty, (t.overlay ref).isSome →
    ref ∈ s.call.todo.flatten ∨ ∃ p, (ref, p) ∈ s.call.log

variable {t : SessionTxn Table} {s : Committing Table} {refs : List BranchRef} {rest : List (List BranchRef)}
  {s' : Committing Table}

section

variable (sound : CommitSound t s) (todo : s.call.todo = (ref :: refs) :: rest)
include sound todo

theorem CommitSound.fail (has : (t.overlay ref).isSome) (error : CommitFailure) :
    CommitSound t { s with call := s.call.fail rest error } := by
  obtain ⟨once, single, entries, -, visited, -, -⟩ := sound
  have inside : s.call.todo.flatten = ref :: (refs ++ rest.flatten) := by simp [todo]
  rw [inside] at once entries visited
  have later {other : BranchRef} (member : other ∈ rest.flatten) : other ∈ refs ++ rest.flatten :=
    mem_append_right _ member
  refine ⟨(nodup_append.mp once.tail).2.1, single, fun other p member => ?_, fun _ _ found => (nomatch found),
    fun other member => visited other (.tail _ (later member)), fun _ => ?_, fun none_ => ?_⟩
  · obtain ⟨dirty, gone, rest⟩ := entries other p member
    exact ⟨dirty, fun member => gone (.tail _ (later member)), rest⟩
  · refine ⟨ref, visited ref (.head _), has, fun member => ?_, fun p member => ?_⟩
    · exact (nodup_cons.mp once).1 (later member)
    · exact (entries ref p member).2.1 (.head _)
  · simp [CommitCall.fail] at none_

theorem CommitSound.publish {p : Published (WorkingSet Table)} (overlay : t.overlay ref = some ⟨p.base, p.ours⟩)
    (done : Reconciles p.base p.ours p.fork p.merged) : CommitSound t (s.publish ref (refs :: rest) p) := by
  obtain ⟨once, single, entries, -, visited, failed, covered⟩ := sound
  have inside : s.call.todo.flatten = ref :: (refs :: rest).flatten := by simp [todo]
  rw [inside] at once entries visited failed covered
  have fresh (other : BranchRef) (q : Published (WorkingSet Table)) (member : (other, q) ∈ s.call.log) :
    other ≠ ref := by
    rintro rfl
    exact (entries _ q member).2.1 (.head _)
  refine ⟨once.tail, ?_, fun other q member => ?_, fun _ _ found => (nomatch found),
    fun other member => visited other (.tail _ member), fun some_ => ?_, fun none_ other dirty has => ?_⟩
  · simpa [Committing.publish, nodup_append] using ⟨single, fresh⟩
  · rcases mem_append.mp member with member | member
    · obtain ⟨dirty, gone, rest⟩ := entries other q member
      exact ⟨dirty, fun member => gone (.tail _ member), rest⟩
    · obtain ⟨rfl, rfl⟩ := Prod.mk.inj (mem_singleton.mp member)
      exact ⟨visited other (.head _), (nodup_cons.mp once).1, overlay, done⟩
  · obtain ⟨other, dirty, has, gone, unpublished⟩ := failed some_
    refine ⟨other, dirty, has, fun member => gone (.tail _ member), fun q member => ?_⟩
    rcases mem_append.mp member with member | member
    · exact unpublished q member
    · obtain ⟨rfl, -⟩ := Prod.mk.inj (mem_singleton.mp member)
      exact gone (.head _)
  · rcases covered none_ other dirty has with member | ⟨q, member⟩
    · rcases mem_cons.mp member with rfl | member
      · exact .inr ⟨p, mem_append_right _ (.head _)⟩
      · exact .inl member
    · exact .inr ⟨q, mem_append_left _ member⟩

theorem CommitSound.skip (idle : s.call.reconciled = none) (bare : t.overlay ref = none) :
    CommitSound t { s with call.todo := refs :: rest } := by
  obtain ⟨once, single, entries, -, visited, failed, covered⟩ := sound
  have inside : s.call.todo.flatten = ref :: (refs :: rest).flatten := by simp [todo]
  rw [inside] at once entries visited failed covered
  refine ⟨once.tail, single, fun other q member => ?_, fun _ _ found => (nomatch idle.symm.trans found),
    fun other member => visited other (.tail _ member), fun some_ => ?_, fun none_ other dirty has => ?_⟩
  · obtain ⟨dirty, gone, rest⟩ := entries other q member
    exact ⟨dirty, fun member => gone (.tail _ member), rest⟩
  · obtain ⟨other, dirty, has, gone, unpublished⟩ := failed some_
    exact ⟨other, dirty, has, fun member => gone (.tail _ member), unpublished⟩
  · rcases covered none_ other dirty has with member | published
    · rcases mem_cons.mp member with rfl | member
      · simp [bare] at has
      · exact .inl member
    · exact .inr published

end

theorem CommitSound.step {s' : Committing Table} {event : CommitEvent} (sound : CommitSound t s)
    (stepped : CommitStep t s event s') : CommitSound t s' := by
  have ready := sound.ready
  cases stepped with
  | foreign ref _ => exact ⟨sound.once, sound.single, sound.entries, sound.ready, sound.visited,
        sound.failed, sound.covered⟩
  | @nextDatabase rest todo idle =>
    obtain ⟨once, single, entries, -, visited, failed, covered⟩ := sound
    have inside : s.call.todo.flatten = rest.flatten := by simp [todo]
    rw [inside] at once entries visited failed covered
    exact ⟨once, single, entries, fun _ _ found => (nomatch idle.symm.trans found), visited, failed, covered⟩
  | skips todo idle bare => exact sound.skip todo idle bare
  | @reads ref refs rest o merged theirsHash todo idle overlay done =>
    refine ⟨sound.once, sound.single, sound.entries, ?_, sound.visited, sound.failed, sound.covered⟩
    rintro fork _ ⟨⟩
    exact ⟨ref, refs, rest, o, todo, overlay, theirsHash, done⟩
  | refused theirsHash todo idle overlay done => exact sound.fail todo (by simp [overlay]) _
  | @publishes ref refs rest o fork merged todo held overlay still =>
    obtain ⟨_, _, _, o', todo', overlay', done⟩ := ready fork merged held
    obtain ⟨⟨rfl, -⟩, -⟩ := by simpa [todo] using todo'
    obtain rfl : o = o' := by simpa [overlay] using overlay'
    exact sound.publish todo overlay done
  | @raced ref refs rest fork merged todo held lost =>
    obtain ⟨_, _, _, o, todo', overlay, done⟩ := ready fork merged held
    obtain ⟨⟨rfl, -⟩, -⟩ := by simpa [todo] using todo'
    exact sound.fail todo (by simp [overlay]) _

theorem CommitSound.start {order : List BranchRef} {dbs : List Bytes} (databases : dbs.Nodup)
    (known : ∀ ref ∈ t.dirty, ref.db ∈ dbs) (perm : order.Perm t.dirty) (branches : BranchRef → WorkingSet Table) :
    CommitSound t (SessionTxn.commits order dbs branches) where
  once := nodup_visits (perm.nodup_iff.mpr t.distinct) databases
  single := .nil
  entries _ _ member := nomatch member
  ready _ _ found := nomatch found
  visited _ member := perm.mem_iff.mp (mem_visits.mp member).2
  failed some_ := absurd rfl some_
  covered _ ref dirty _ := .inl (mem_visits.mpr ⟨known ref dirty, perm.mem_iff.mpr dirty⟩)

theorem CommitSound.puts_back {p : Published (WorkingSet Table)} (sound : CommitSound t s)
    (member : (ref, p) ∈ s.call.log) (idle : ¬t.Writes ref) : p.merged.holds p.fork := by
  obtain ⟨-, -, overlay, done⟩ := sound.entries ref p member
  have same : p.base.working.same p.ours.working = true :=
    eq_true_of_ne_false fun written => idle ⟨_, overlay, written⟩
  rw [done.unwritten same]
  exact holds_self _

theorem CommitSound.atomic (sound : CommitSound t s)
    (returned : s.call.todo = []) (one : t.OneBranch) : s.Atomic t := by
  unfold Committing.Atomic
  split
  case h_1 none_ =>
    intro ref dirty o overlay
    rcases sound.covered none_ ref dirty (by simp [overlay]) with member | ⟨p, member⟩
    · simp [returned] at member
    · obtain ⟨-, -, found, done⟩ := sound.entries ref p member
      obtain rfl : o = ⟨p.base, p.ours⟩ := by simpa [overlay] using found
      exact ⟨p, member, rfl, rfl, done.includes⟩
  case h_2 error some_ =>
    rintro ⟨ref, p⟩ member
    obtain ⟨other, dirty', has, -, unpublished⟩ := sound.failed (by simp [some_])
    refine sound.puts_back member fun writes => ?_
    obtain rfl := one ref (sound.entries ref p member).1 other dirty' writes has
    exact unpublished p member

/-! What another session can make of a call on several branches. -/

theorem reconcile_unmoved (theirsHash : Bytes) {base ours theirs : WorkingSet Table}
    (written : base.working.same ours.working = false) (still : base.working.same theirs.working = true)
    (free : theirs.mergeActive = false) : reconcileBranchForSession theirsHash base ours theirs =
      .ok { theirs with working := ours.working, staged := ours.staged } := by
  simp [reconcileBranchForSession, reconcileWorkingSets, free, written, still]

/-- The branch as it was pinned, with nothing paused on it. -/
def Overlay.unmoved (o : Overlay Table) : WorkingSet Table := { o.base with mergeActive := false }

theorem Overlay.reconciles (o : Overlay Table) : ∃ merged,
    reconcileBranchForSession [] o.base o.ours o.unmoved = .ok merged ∧
      (o.base.working.same o.ours.working = false → ¬merged.holds o.unmoved) := by
  have still : o.base.working.same o.unmoved.working = true := by simp [Overlay.unmoved, Root.same]
  have active : o.unmoved.mergeActive = false := rfl
  cases same : o.base.working.same o.ours.working with
  | true => exact ⟨o.unmoved, by simp [reconcileBranchForSession, reconcileWorkingSets, active, same], by simp⟩
  | false =>
    refine ⟨_, reconcile_unmoved [] same still active, ?_⟩
    rintro - ⟨written, -⟩
    have back : o.base.working.same o.ours.working = true := by
      simp only [Root.same, Bool.and_eq_true, beq_iff_eq] at written ⊢
      exact ⟨written.1.symm, written.2.symm⟩
    cases same.symm.trans back

theorem CommitStep.keeps {event : CommitEvent} (stepped : CommitStep t s event s') :
    s.call.log ⊆ s'.call.log ∧ (s.call.firstErr ≠ none → s'.call.firstErr ≠ none) := by
  cases stepped with
  | publishes todo held overlay _ => exact ⟨subset_append_left _ _, id⟩
  | refused theirsHash todo idle overlay done
  | raced todo held _ => exact ⟨fun _ => id, by simp [CommitCall.fail]⟩
  | _ => exact ⟨fun _ => id, id⟩

theorem keeps_of_run {events : List CommitEvent} (run : Run (CommitStep t) s events s') :
    s.call.log ⊆ s'.call.log ∧ (s.call.firstErr ≠ none → s'.call.firstErr ≠ none) :=
  run.invariant (fun now => s.call.log ⊆ now.call.log ∧ (s.call.firstErr ≠ none → now.call.firstErr ≠ none))
    ⟨fun _ => id, id⟩ fun _ _ _ kept stepped =>
      ⟨fun _ member => stepped.keeps.1 (kept.1 member), fun some_ => stepped.keeps.2 (kept.2 some_)⟩

/-- A call that is between two branches, at the given databases. -/
def Committing.At (s : Committing Table) (todo : List (List BranchRef)) : Prop :=
  s.call.todo = todo ∧ s.call.reconciled = none

theorem commit_passes (t : SessionTxn Table) (refs : List BranchRef) (rest : List (List BranchRef))
    (s : Committing Table)
    (here : s.At (refs :: rest)) : ∃ events s', Run (CommitStep t) s events s' ∧ s'.At rest := by
  induction refs generalizing s with
  | nil => exact ⟨_, _, Run.nil.snoc (.nextDatabase here.1 here.2), rfl, here.2⟩
  | cons ref refs ih =>
    cases overlay : t.overlay ref with
    | none =>
      obtain ⟨events, s', run, there⟩ := ih { s with call.todo := refs :: rest } ⟨rfl, here.2⟩
      exact ⟨_, s', (Run.nil.snoc (.skips here.1 here.2 overlay)).trans run, there⟩
    | some o =>
      cases done : reconcileBranchForSession [] o.base o.ours (s.branches ref) with
      | error error => exact ⟨_, _, Run.nil.snoc (.refused [] here.1 here.2 overlay done), rfl, rfl⟩
      | ok _ =>
        have run := Run.nil.snoc (CommitStep.reads [] here.1 here.2 overlay done)
        have run := run.snoc (CommitStep.publishes here.1 rfl overlay (holds_self _))
        obtain ⟨events, s', further, there⟩ := ih (Committing.publish _ ref (refs :: rest) _) ⟨rfl, rfl⟩
        exact ⟨_, s', run.trans further, there⟩

theorem commit_finishes (t : SessionTxn Table) (todo : List (List BranchRef)) (s : Committing Table)
    (here : s.At todo) :
    ∃ events s', Run (CommitStep t) s events s' ∧ s'.call.todo = [] := by
  induction todo generalizing s with
  | nil => exact ⟨[], s, .nil, here.1⟩
  | cons refs rest ih =>
    obtain ⟨_, mid, run, there⟩ := commit_passes t refs rest s here
    obtain ⟨_, s', further, returned⟩ := ih mid there
    exact ⟨_, s', run.trans further, returned⟩

theorem commit_loses (t : SessionTxn Table) (here : s.At ((ref :: refs) :: rest)) (has : (t.overlay ref).isSome) :
    ∃ events s', Run (CommitStep t) s events s' ∧ s'.At rest ∧ s'.call.firstErr ≠ none := by
  obtain ⟨o, overlay⟩ := Option.isSome_iff_exists.mp has
  obtain ⟨_, done, -⟩ := o.reconciles
  have run := Run.nil.snoc (CommitStep.foreign (t := t) (s := s) ref o.unmoved)
  have run := run.snoc (CommitStep.reads [] here.1 here.2 overlay
    (by dsimp only; rw [Function.update_self]; exact done))
  have run := run.snoc (CommitStep.foreign ref { o.unmoved with mergeActive := true })
  have run := run.snoc (CommitStep.raced here.1 rfl (by simp [WorkingSet.holds, Overlay.unmoved]))
  exact ⟨_, _, run, ⟨rfl, rfl⟩, by simp [CommitCall.fail]⟩

theorem publishes_first (t : SessionTxn Table)
    {o : Overlay Table} (here : s.At ((ref :: refs) :: rest)) (overlay : t.overlay ref = some o)
    (written : o.base.working.same o.ours.working = false) (unmoved : s.branches ref = o.unmoved) :
    ∃ events s', Run (CommitStep t) s events s' ∧ s'.At (refs :: rest) ∧
      ∃ entry ∈ s'.call.log, ¬entry.2.merged.holds entry.2.fork := by
  obtain ⟨merged, done, changed⟩ := o.reconciles
  have run := Run.nil.snoc (CommitStep.reads [] here.1 here.2 overlay (by rw [unmoved]; exact done))
  have run := run.snoc (CommitStep.publishes here.1 rfl overlay (holds_self _))
  refine ⟨_, _, run, ⟨rfl, rfl⟩, (ref, ⟨o.base, o.ours, s.branches ref, merged⟩), mem_append_right _ (.head _), ?_⟩
  rw [unmoved]
  exact changed written

theorem commits_in_part (t : SessionTxn Table) (dirty : ref ∈ t.dirty) (dirty' : other ∈ t.dirty)
    (writes : t.Writes ref) (has : (t.overlay other).isSome) (apart : ref ≠ other) :
    ∃ order dbs branches events s, order.Perm t.dirty ∧ dbs.Nodup ∧ (∀ b ∈ t.dirty, b.db ∈ dbs) ∧
      Run (CommitStep t) (SessionTxn.commits order dbs branches) events s ∧ s.call.todo = [] ∧ ¬s.Atomic t := by
  obtain ⟨o, overlay, written⟩ := writes
  obtain ⟨order, dbs, perm, distinct, known, _, _, _, visited⟩ := exists_order dirty dirty' apart
  let start := SessionTxn.commits order dbs fun _ => o.unmoved
  -- the first branch is published, and the call comes to the second
  obtain ⟨events, s, run, ⟨tail, rest', there⟩, entry, member, changed⟩ :
    ∃ events s, Run (CommitStep t) start events s ∧
      (∃ tail rest', s.At ((other :: tail) :: rest')) ∧ ∃ entry ∈ s.call.log, ¬entry.2.merged.holds entry.2.fork := by
    rcases visited with same | next
    · obtain ⟨events, s, run, there, changed⟩ := publishes_first t (s := start) ⟨same, rfl⟩ overlay written rfl
      exact ⟨events, s, run, ⟨_, _, there⟩, changed⟩
    · obtain ⟨_, mid, run, there, entry, member, changed⟩ :=
        publishes_first t (s := start) ⟨next, rfl⟩ overlay written rfl
      obtain ⟨_, s, further, there⟩ := commit_passes t _ _ mid there
      exact ⟨_, s, run.trans further, ⟨_, _, there⟩, entry, (keeps_of_run further).1 member, changed⟩
  obtain ⟨_, failing, lost, there, some_⟩ := commit_loses t there has
  obtain ⟨_, last, further, returned⟩ := commit_finishes t _ failing there
  refine ⟨order, dbs, fun _ => o.unmoved, _, last, perm, distinct, known, (run.trans lost).trans further, returned,
    fun atomic => ?_⟩
  obtain ⟨_, failed⟩ := Option.ne_none_iff_exists'.mp ((keeps_of_run further).2 some_)
  simp only [Committing.Atomic, failed] at atomic
  exact changed (atomic entry ((keeps_of_run further).1 ((keeps_of_run lost).1 member)))

end

/-! One document in each of two databases. -/

def inSales : BranchRef := ⟨ascii "sales".toList, ascii "main".toList⟩

def inStock : BranchRef := ⟨ascii "stock".toList, ascii "main".toList⟩

def countsBoth : SessionTxn ListedTable :=
  ⟨[inSales, inStock], fun _ => some ⟨oneDocument (.int32 1) (.int32 1),
    oneDocument (.int32 2) (.int32 1)⟩, by decide⟩

attribute [local instance] amd64 bareEnv headDigest plainHash sameCollations acceptsAll

abbrev listedCommit : SessionTxn ListedTable → Committing ListedTable → CommitEvent → Committing ListedTable → Prop :=
  CommitStep

def countsSales : SessionTxn ListedTable :=
  ⟨[inSales], fun ref => if ref = inSales then
    some ⟨oneDocument (.int32 1) (.int32 1), oneDocument (.int32 2) (.int32 1)⟩ else none, by decide⟩

end DumboDB.Dolt
