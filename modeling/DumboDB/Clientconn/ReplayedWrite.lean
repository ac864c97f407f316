import DumboDB.Clientconn.Route
import DumboDB.Dolt.TransactionCommit

/-!
A write command outside a transaction: each attempt pins the branches, runs the handler and commits,
and an attempt that was refused or raced is followed by another one.
-/

namespace DumboDB.Clientconn
open Foundation ByteOrder DumboDB.Types Index Handler Dolt List
open Transition (Run Guarded)
open Optimistic (Published)

def dbNameDsessFriendly (db : Bytes) : Bool := !db.any fun c => c == 47 || c == 64

def alwaysAutoCommit (db : Bytes) : Bool := db == ascii "admin".toList

/-- Writes to the database stay on the session until the commit; others go straight to the branch. -/
def onSession (db : Bytes) : Bool := dbNameDsessFriendly db && !alwaysAutoCommit db

/-- The errors that `ReconcileWriteBoundary` reports as refused or raced. -/
def replayable : CommitFailure → Bool
  | .refused .conflicts => true
  | .refused _ => false
  | .raced => true

/-- A publish of the command, with the attempt that made it. -/
structure Effect (Table : Type) where
  attempt : Nat
  ref : BranchRef
  published : Published (WorkingSet Table)

/-- Where the command stands. A handler holds what its transaction pinned, and has or has not written
straight to a branch. -/
inductive DispatchStage (Table : Type) where
  | waiting
  | handling (pinned : BranchRef → WorkingSet Table) (straight : Bool)
  | committing (t : SessionTxn Table) (call : CommitCall Table)
  | succeeded (t : SessionTxn Table)
  | failed

/-- The published branches and `dispatchThroughSession`. After a reconnect there is one more run. -/
structure Dispatch (Table : Type) where
  branches : BranchRef → WorkingSet Table
  attempt : Nat
  reconnected : Bool
  stage : DispatchStage Table
  effects : List (Effect Table)

inductive DispatchEvent (Table : Type) where
  | foreign (ref : BranchRef)
  | reconnects
  | begins
  | writesStraight (ref : BranchRef)
  | executes (t : SessionTxn Table)
  | commits (event : CommitEvent)
  | replays
  | replies

section
variable {Table : Type} {call : CommitCall Table} {p : Published (WorkingSet Table)} {ref : BranchRef}

def Dispatch.start (branches : BranchRef → WorkingSet Table) : Dispatch Table := ⟨branches, 0, false, .waiting, []⟩

def effectsOf (attempt : Nat) (call : CommitCall Table) : List (Effect Table) :=
  call.log.map fun entry => ⟨attempt, entry.1, entry.2⟩

theorem attempt_of_effectsOf {attempt : Nat} {e : Effect Table}
    (member : e ∈ effectsOf attempt call) : e.attempt = attempt := by
  obtain ⟨_, -, rfl⟩ := mem_map.mp member
  rfl

theorem filter_key {l : List (BranchRef × Published (WorkingSet Table))}
    (distinct : (l.map (·.1)).Nodup) (member : (ref, p) ∈ l) : l.filter (·.1 = ref) = [(ref, p)] := by
  induction l with
  | nil => cases member
  | cons entry l ih =>
    obtain ⟨fresh, distinct⟩ := nodup_cons.mp distinct
    rcases mem_cons.mp member with rfl | member
    · have none_ : l.filter (·.1 = ref) = [] := by
        refine filter_eq_nil_iff.mpr fun other later => ?_
        simp only [decide_eq_true_eq]
        exact fun same => fresh (mem_map.mpr ⟨other, later, same⟩)
      simp [none_]
    · have apart : entry.1 ≠ ref := fun same => fresh (mem_map.mpr ⟨_, member, same.symm⟩)
      simp [apart, ih distinct member]

theorem filter_effectsOf (distinct : (call.log.map (·.1)).Nodup) (member : (ref, p) ∈ call.log) (attempt : Nat) :
    (effectsOf attempt call).filter (fun e => e.attempt = attempt ∧ e.ref = ref) = [⟨attempt, ref, p⟩] := by
  have only := filter_key distinct member
  simp only [effectsOf, filter_map, Function.comp_def, true_and]
  rw [only]
  rfl

variable [DecidableEq Table] [TableStore Table] [Platform] [QueryEnv] [ConflictHash] [CollationIdentity] [Digest]
  [ValidatorMatcher]

/-- One atomic step of the command, or a publish of another session. What the handler makes of the
pinned branches is any transaction over them. -/
inductive DispatchStep : Dispatch Table → DispatchEvent Table → Dispatch Table → Prop where
  | foreign {s} (ref : BranchRef) (ws : WorkingSet Table) :
      DispatchStep s (.foreign ref) { s with branches := Function.update s.branches ref ws }
  | reconnects {s} : s.stage = .waiting → s.reconnected = false →
      DispatchStep s .reconnects { s with reconnected := true }
  | sessionGone {s} : s.stage = .waiting → DispatchStep s .replies { s with stage := .failed }
  | begins {s} : s.stage = .waiting → DispatchStep s .begins { s with stage := .handling s.branches false }
  | writesStraight {s pinned straight} (ref : BranchRef) (ws : WorkingSet Table) :
      s.stage = .handling pinned straight → onSession ref.db = false → (s.branches ref).mergeActive = false →
      DispatchStep s (.writesStraight ref) { s with
          branches := Function.update s.branches ref ws
          stage := .handling pinned true
          effects := s.effects ++ [⟨s.attempt, ref, ⟨s.branches ref, ws, s.branches ref, ws⟩⟩] }
  | handlerFails {s pinned straight} : s.stage = .handling pinned straight →
      DispatchStep s .replies { s with stage := .failed }
  | executes {s pinned straight} (t : SessionTxn Table) (order : List BranchRef) (dbs : List Bytes) :
      s.stage = .handling pinned straight → (∀ ref ∈ t.dirty, onSession ref.db) →
      (∀ ref o, t.overlay ref = some o → o.base = pinned ref) →
      order.Perm t.dirty → dbs.Nodup → (∀ ref ∈ t.dirty, ref.db ∈ dbs) →
      DispatchStep s (.executes t) { s with stage := .committing t (SessionTxn.commits order dbs s.branches).call }
  | commits {s t call event after} : s.stage = .committing t call → CommitStep t ⟨s.branches, call⟩ event after →
      DispatchStep s (.commits event) { s with branches := after.branches, stage := .committing t after.call }
  | succeeds {s t call} : s.stage = .committing t call → call.todo = [] → call.firstErr = none →
      DispatchStep s .replies { s with stage := .succeeded t, effects := s.effects ++ effectsOf s.attempt call }
  | replays {s t call error} : s.stage = .committing t call → call.todo = [] → call.firstErr = some error →
      replayable error = true → s.reconnected = false → s.attempt < maxWriteReplays →
      DispatchStep s .replays
        { s with stage := .waiting, attempt := s.attempt + 1, effects := s.effects ++ effectsOf s.attempt call }
  | givesUp {s t call error} : s.stage = .committing t call → call.todo = [] → call.firstErr = some error →
      DispatchStep s .replies { s with stage := .failed, effects := s.effects ++ effectsOf s.attempt call }

/-- Exactly once: a successful command changed branches in its last attempt only, and each branch that
this attempt has an overlay of was replaced once, by one that includes what the attempt wrote, all of
it computed from what the branch still held. -/
def Dispatch.Once (s : Dispatch Table) : Prop :=
  ∀ t, s.stage = .succeeded t → (∀ e ∈ s.effects, e.attempt ≠ s.attempt → e.published.merged.holds e.published.fork) ∧
      ∀ ref ∈ t.dirty, ∀ o, t.overlay ref = some o → ∃ p : Published (WorkingSet Table),
        s.effects.filter (fun e => e.attempt = s.attempt ∧ e.ref = ref) = [⟨s.attempt, ref, p⟩] ∧
          p.base = o.base ∧ p.ours = o.ours ∧ Includes p ∧ Current p

/-- The attempt writes one branch of the session, or only branches that it writes straight to, and the
collections that it wrote and that it meets use Touched modes. -/
def Dispatch.OnOneBranch (s : Dispatch Table) : DispatchEvent Table → Prop
  | .executes t => t.OneBranch ∧ (∀ ref o, t.overlay ref = some o → o.ours.working.TouchedModes) ∧
      ∀ pinned, s.stage = .handling pinned true → ∀ ref, t.overlay ref = none
  | .commits (.reads ref) => (s.branches ref).working.TouchedModes
  | _ => True

/-- Every branch that the call has read was in Touched modes. -/
structure TouchedCall (call : CommitCall Table) : Prop where
  ready : ∀ fork merged, call.reconciled = some (fork, merged) → fork.working.TouchedModes
  entries : ∀ entry ∈ call.log, entry.2.fork.working.TouchedModes

def Effect.Idle (e : Effect Table) : Prop := e.published.merged.holds e.published.fork

/-- The effects of an attempt so far: none of an earlier one changed a branch, and the attempt itself
has written straight to branches only where it may. -/
structure EffectsSound (s : Dispatch Table) (straight : Bool) : Prop where
  earlier : ∀ e ∈ s.effects, e.attempt ≠ s.attempt → e.Idle
  bounded : ∀ e ∈ s.effects, e.attempt ≤ s.attempt
  current : straight = false → ∀ e ∈ s.effects, e.attempt ≠ s.attempt

/-- What holds at each stage of a command that keeps to one branch. -/
def Dispatch.Sound (s : Dispatch Table) : Prop :=
  match s.stage with
  | .waiting => EffectsSound s false
  | .handling _ straight => EffectsSound s straight
  | .committing t call => CommitSound t ⟨s.branches, call⟩ ∧ TouchedCall call ∧ t.OneBranch ∧
      (∀ ref o, t.overlay ref = some o → o.ours.working.TouchedModes) ∧
        ∃ straight, EffectsSound s straight ∧ (straight = true → ∀ ref, t.overlay ref = none)
  | .succeeded _ => s.Once
  | .failed => True

variable {s : Dispatch Table} {error : CommitFailure} {t : SessionTxn Table} {straight : Bool}

section

variable (sound : CommitSound t ⟨s.branches, call⟩)
include sound

theorem idle_of_failed (one : t.OneBranch) (returned : call.todo = [])
    (failed : call.firstErr = some error) : ∀ e ∈ effectsOf s.attempt call, e.Idle := by
  have atomic := sound.atomic returned one
  simp only [Committing.Atomic, failed] at atomic
  intro e member
  obtain ⟨entry, published, rfl⟩ := mem_map.mp member
  exact atomic entry published

theorem not_straight_of_failed (failed : call.firstErr = some error)
    (bare : straight = true → ∀ ref, t.overlay ref = none) : straight = false := by
  cases straight with
  | false => rfl
  | true =>
    obtain ⟨ref, -, has, -⟩ := sound.failed (by simp [failed])
    simp [bare rfl ref] at has

theorem once_of_succeeds (touched : TouchedCall call) (one : t.OneBranch)
    (modes : ∀ ref o, t.overlay ref = some o → o.ours.working.TouchedModes) (effects : EffectsSound s straight)
    (bare : straight = true → ∀ ref, t.overlay ref = none) (returned : call.todo = [])
    (clean : call.firstErr = none) :
    Dispatch.Once { s with stage := .succeeded t, effects := s.effects ++ effectsOf s.attempt call } := by
  rintro _ ⟨⟩
  refine ⟨fun e member other => ?_, fun ref dirty o overlay => ?_⟩
  · rcases mem_append.mp member with member | member
    · exact effects.earlier e member other
    · exact absurd (attempt_of_effectsOf member) other
  · have fresh : straight = false := by
      cases straight with
      | false => rfl
      | true => exact nomatch (bare rfl ref).symm.trans overlay
    have none_ : s.effects.filter (fun e => e.attempt = s.attempt ∧ e.ref = ref) = [] := by
      refine filter_eq_nil_iff.mpr fun e member => ?_
      simp [effects.current fresh e member]
    have atomic := sound.atomic returned one
    simp only [Committing.Atomic, clean] at atomic
    obtain ⟨p, member, base, ours, includes⟩ := atomic ref dirty o overlay
    have current := (sound.entries ref p member).2.2.2.current
      ⟨ours ▸ modes ref o overlay, touched.entries _ member⟩
    refine ⟨p, ?_, base, ours, includes, current⟩
    rw [filter_append, none_, filter_effectsOf sound.single member, nil_append]

end

theorem TouchedCall.step {before after : Committing Table} {event : CommitEvent} (touched : TouchedCall before.call)
    (stepped : CommitStep t before event after)
    (met : ∀ ref, event = .reads ref → (before.branches ref).working.TouchedModes) : TouchedCall after.call := by
  cases stepped with
  | foreign ref ws => exact touched
  | nextDatabase todo idle
  | skips todo idle bare => exact ⟨touched.ready, touched.entries⟩
  | @reads ref refs rest o merged theirsHash todo idle overlay done =>
    refine ⟨?_, touched.entries⟩
    rintro _ _ ⟨⟩
    exact met ref rfl
  | refused theirsHash todo idle overlay done
  | raced todo held lost => exact ⟨by simp [CommitCall.fail], touched.entries⟩
  | @publishes ref refs rest o fork merged todo held overlay still =>
    refine ⟨by simp [Committing.publish], fun entry member => ?_⟩
    rcases mem_append.mp member with member | member
    · exact touched.entries entry member
    · rw [mem_singleton.mp member]
      exact touched.ready fork merged held

theorem Dispatch.Sound.step {s' : Dispatch Table} {event : DispatchEvent Table} (sound : s.Sound)
    (stepped : Guarded Dispatch.OnOneBranch DispatchStep s event s') : s'.Sound := by
  obtain ⟨met, stepped⟩ := stepped
  unfold Dispatch.Sound at sound
  cases stepped with
  | foreign ref ws =>
    unfold Dispatch.Sound
    dsimp only
    split at sound
    · exact ⟨sound.earlier, sound.bounded, sound.current⟩
    · exact ⟨sound.earlier, sound.bounded, sound.current⟩
    · obtain ⟨commit, touched, one, modes, straight, effects, bare⟩ := sound
      exact ⟨commit.step (.foreign ref ws), touched, one, modes, straight,
        ⟨effects.earlier, effects.bounded, effects.current⟩, bare⟩
    · exact sound
    · trivial
  | reconnects stage fresh =>
    rw [stage] at sound
    rw [stage]
    exact ⟨sound.earlier, sound.bounded, sound.current⟩
  | sessionGone stage
  | handlerFails stage
  | givesUp stage returned failed => trivial
  | begins stage =>
    rw [stage] at sound
    exact ⟨sound.earlier, sound.bounded, sound.current⟩
  | writesStraight ref ws stage straight _ =>
    rw [stage] at sound
    refine ⟨fun e member other => ?_, fun e member => ?_, nofun⟩
    · rcases mem_append.mp member with member | member
      · exact sound.earlier e member other
      · exact absurd (by rw [mem_singleton.mp member]) other
    · rcases mem_append.mp member with member | member
      · exact sound.bounded e member
      · exact (by rw [mem_singleton.mp member])
  | @executes pinned straight t order dbs stage session bases perm distinct known =>
    rw [stage] at sound
    obtain ⟨one, modes, bare⟩ := met
    refine ⟨CommitSound.start distinct known perm s.branches,
      ⟨by simp [SessionTxn.commits], by simp [SessionTxn.commits]⟩,
      one, modes, straight, ⟨sound.earlier, sound.bounded, sound.current⟩, ?_⟩
    rintro rfl
    exact bare pinned stage
  | commits stage stepped =>
    rw [stage] at sound
    obtain ⟨commit, touched, one, modes, straight, effects, bare⟩ := sound
    have further := touched.step stepped fun _ reads => by
      subst reads
      exact met
    exact ⟨commit.step stepped, further, one, modes, straight,
      ⟨effects.earlier, effects.bounded, effects.current⟩, bare⟩
  | succeeds stage returned clean =>
    rw [stage] at sound
    obtain ⟨commit, touched, one, modes, straight, effects, bare⟩ := sound
    exact once_of_succeeds commit touched one modes effects bare returned clean
  | @replays t call error stage returned failed again fresh bound =>
    rw [stage] at sound
    obtain ⟨commit, -, one, -, straight, effects, bare⟩ := sound
    have plain := not_straight_of_failed commit failed bare
    have before (e : Effect Table) (member : e ∈ s.effects ++ effectsOf s.attempt call) :
        e.attempt ≤ s.attempt ∧ e.Idle := by
      rcases mem_append.mp member with member | member
      · exact ⟨effects.bounded e member, effects.earlier e member (effects.current plain e member)⟩
      · exact ⟨(attempt_of_effectsOf member).le, idle_of_failed commit one returned failed e member⟩
    exact ⟨fun e member _ => (before e member).2, fun e member => (before e member).1.trans (Nat.le_succ _),
      fun _ e member => Nat.ne_of_lt (Nat.lt_succ_of_le (before e member).1)⟩

end

/-! A command that counts up a document, and meets another session. -/

def countsUp (refs : List BranchRef) (distinct : refs.Nodup) (from_ : BranchRef → Int32) : SessionTxn ListedTable :=
  ⟨refs, fun ref => if ref ∈ refs then
    some ⟨oneDocument (.int32 (from_ ref)) (.int32 1),
      oneDocument (.int32 (from_ ref + 1)) (.int32 1)⟩ else none, distinct⟩

attribute [local instance] amd64 bareEnv headDigest plainHash sameCollations acceptsAll

abbrev listedDispatch : Dispatch ListedTable → DispatchEvent ListedTable → Dispatch ListedTable → Prop :=
  DispatchStep

theorem counted_up {n m : Int32}
    (written : (oneDocument (.int32 n) (.int32 1)).working.same (oneDocument (.int32 m) (.int32 1)).working = false) :
    listedMerge (oneDocument (.int32 n) (.int32 1)) (oneDocument (.int32 m) (.int32 1))
      (oneDocument (.int32 n) (.int32 1)) =
      .ok (oneDocument (.int32 m) (.int32 1)) :=
  reconcile_unmoved [] written (by simp [Root.same]) rfl

theorem counts_pinned {refs : List BranchRef} {distinct : refs.Nodup} {from_ : BranchRef → Int32}
    {pinned : BranchRef → WorkingSet ListedTable}
    (held : ∀ ref ∈ refs, pinned ref = oneDocument (.int32 (from_ ref)) (.int32 1)) (ref : BranchRef)
    (o : Overlay ListedTable) (found : (countsUp refs distinct from_).overlay ref = some o) :
    o.base = pinned ref := by
  simp only [countsUp, Option.ite_none_right_eq_some, Option.some.injEq] at found
  obtain ⟨member, rfl⟩ := found
  exact (held ref member).symm

def both : List BranchRef := [inSales, inStock]

def second : BranchRef → Int32 := fun ref => if ref = inSales then 2 else 5

end DumboDB.Clientconn
