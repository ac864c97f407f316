import DumboDB.Dolt.CommitGraph
import DumboDB.Foundation.Rounding
import DumboDB.Foundation.Transition
import Mathlib.Logic.Encodable.Basic
import Mathlib.Logic.Equiv.List

/-!
A rebase from its start to its last commit, over every pause on a conflict. The picks are replayed in
the order of the plan, each as a commit on the one before; what the branch stores of a paused rebase is
the old tip, the commit that is rebased onto and a count of picks, from which a restart recovers the
rest. The count is stored in 24 bits, and a branch that `onto` already reaches is reported as done.
-/

namespace DumboDB.Dolt

open Foundation ByteOrder Search Fallible Rounding List
open Transition (Run)

inductive PickMerge (Root : Type) where
  | failed
  | clean (root : Root)
  | conflicted (root : Root)

/-- The merge of a pick's change into a root (pick, its root, the rebased root, the root of its first
parent), and whether a working root counts as unchanged against the root of HEAD. -/
structure ReplayEnv (Hash Root : Type) where
  merge : Hash → Root → Root → Option Root → PickMerge Root
  unchanged : Root → Root → Bool

inductive RebaseError (Hash : Type) where
  | commit (error : CommitError Hash)
  | mergeFailed (pick : Hash)
  | uncommittedChanges
  | inProgress
  | notInProgress
  | outsidePlan (step length : Nat)

/-- The whole number that is nearest to a count among those with a significand of 24 bits. -/
def float32 (n : Nat) : Nat :=
  roundHalfEven n (2 ^ (Nat.log2 n - 23)) * 2 ^ (Nat.log2 n - 23)

/-- `MergeState` and `RebaseState` of a working set. -/
structure StoredRebase (Hash Root : Type) where
  commit : Hash
  ontoCommit : Hash
  lastAttemptedStep : Nat
  preMergeWorkingRoot : Root

structure RebaseBranch (Hash Root : Type) where
  head : Hash
  working : Root
  staged : Root
  rebase : Option (StoredRebase Hash Root)

/-- `mergeInProgress`, as a paused rebase uses it. -/
structure RebaseInProgress (Hash Root : Type) where
  premergeAM : Root
  resolvedAM : Root
  intoHash : Hash
  rebaseOntoHash : Hash
  rebaseBranchHash : Hash
  rebaseRemainingHashes : List Hash
  rebaseCurrentPick : Hash
  rebaseCommitsReplayed : Nat

/-- A rebased pick that is computed but not yet written. -/
structure ReplayedPick (Root : Type) where
  am : Root
  info : CommitMeta

section
variable {Hash α : Type}

def reading : Except (CommitError Hash) α → Except (RebaseError Hash) α
  | .ok a => .ok a
  | .error e => .error (.commit e)

theorem reading_eq_ok {x : Except (CommitError Hash) α} {a : α} : reading x = .ok a ↔ x = .ok a := by
  cases x with
  | error e => exact ⟨fun same => (nomatch same), fun same => (nomatch same)⟩
  | ok b => exact ⟨fun same => congrArg _ (Except.ok.inj same), fun same => congrArg _ (Except.ok.inj same)⟩

end

section
variable {Hash Root : Type} [CommitHash Hash Root]

/-- How far a replay is: what is stored, the rebased tip, and the commits written for picks. -/
structure Replay (Hash Root : Type) [CommitHash Hash Root] where
  store : CommitStore Hash Root
  intoHash : Hash
  rebaseCommitsReplayed : Nat
  created : List Hash

/-- How `replayRemainingCommits` ends: with the root of the last pick, or at a pick that conflicts,
`published` when a pending pick was committed to the branch with the pause. -/
inductive ReplayEnd (Hash Root : Type) where
  | finished (last : Option Root)
  | paused (pick : Hash) (remaining : List Hash) (resolvedAM : Root) (published : Bool)

/-- The database with the branch, the operation in memory, the commits that the rebase wrote and
whether it has reported success. -/
structure RebaseWorld (Hash Root : Type) [CommitHash Hash Root] where
  store : CommitStore Hash Root
  branch : RebaseBranch Hash Root
  mergeState : Option (RebaseInProgress Hash Root)
  created : List Hash
  succeeded : Bool

end

variable {Hash Root : Type} [DecidableEq Hash] [CommitHash Hash Root]

/-- The original author, and the rebaser as committer when one is named. -/
def rebasedPickMeta (pick : CommitMeta) (rebaser : Option CommitIdent) : CommitMeta :=
  ⟨pick.author, rebaser.getD pick.author, pick.description⟩

def writeReplayedPick (r : Replay Hash Root) (pick : ReplayedPick Root) :
    Except (RebaseError Hash) (Replay Hash Root) := do
  let (h, store) ← reading (commitDangling r.store ⟨[r.intoHash], pick.am, pick.info⟩)
  return ⟨store, h, r.rebaseCommitsReplayed + 1, r.created ++ [h]⟩

def writePending (r : Replay Hash Root) : Option (ReplayedPick Root) → Except (RebaseError Hash) (Replay Hash Root)
  | none => .ok r
  | some pick => writeReplayedPick r pick

/-- The root of the first parent, none for a first commit. -/
def baseAM (store : CommitStore Hash Root) (commit : Commit Hash Root) : Except (CommitError Hash) (Option Root) :=
  match commit.parents with
  | [] => .ok none
  | p :: _ => (loadCommitAddr store p).map fun parent => some parent.root

def intoAM (r : Replay Hash Root) : Option (ReplayedPick Root) → Except (CommitError Hash) Root
  | some pick => .ok pick.am
  | none => (loadCommitAddr r.store r.intoHash).map fun commit => commit.root

/-- A pick is written when the next one has merged: the last is committed to the branch. -/
def replayRemainingCommits (env : ReplayEnv Hash Root) (rebaser : Option CommitIdent) :
    List Hash → Option (ReplayedPick Root) → Replay Hash Root →
      Except (RebaseError Hash) (Replay Hash Root × ReplayEnd Hash Root)
  | [], pending, r => do
    let r ← writePending r pending
    return (r, .finished (pending.map fun pick => pick.am))
  | pickHash :: remaining, pending, r => do
    let pick ← reading (loadCommitAddr r.store pickHash)
    let base ← reading (baseAM r.store pick)
    let into ← reading (intoAM r pending)
    match env.merge pickHash pick.root into base with
    | .failed => .error (.mergeFailed pickHash)
    | .conflicted merged =>
      let r ← writePending r pending
      return (r, .paused pickHash remaining merged pending.isSome)
    | .clean merged =>
      let r ← writePending r pending
      replayRemainingCommits env rebaser remaining (some ⟨merged, rebasedPickMeta pick.info rebaser⟩) r

def pausedWorkingSet (head : Hash) (ms : RebaseInProgress Hash Root) : RebaseBranch Hash Root :=
  ⟨head, ms.resolvedAM, ms.resolvedAM,
    some ⟨ms.rebaseBranchHash, ms.rebaseOntoHash, float32 ms.rebaseCommitsReplayed, ms.premergeAM⟩⟩

/-- What a replay leaves: the commits are stored, and the branch is published once. -/
def publishReplay (w : RebaseWorld Hash Root) (premergeAM : Root) (ontoHash branchHash : Hash) :
    Replay Hash Root × ReplayEnd Hash Root → RebaseWorld Hash Root
  | (r, .finished none) => ⟨r.store, w.branch, none, w.created ++ r.created, true⟩
  | (r, .finished (some last)) => ⟨r.store, ⟨r.intoHash, last, last, none⟩, none, w.created ++ r.created, true⟩
  | (r, .paused pick remaining resolvedAM published) =>
    let ms := ⟨premergeAM, resolvedAM, r.intoHash, ontoHash, branchHash, remaining, pick, r.rebaseCommitsReplayed⟩
    ⟨r.store, pausedWorkingSet (if published then r.intoHash else w.branch.head) ms, some ms,
      w.created ++ r.created, false⟩

/-- `DumboDBRebase` that starts a rebase. -/
def startRebase (env : ReplayEnv Hash Root) (rebaser : Option CommitIdent) (ontoHead : Hash)
    (w : RebaseWorld Hash Root) :
    Except (RebaseError Hash) (RebaseWorld Hash Root) :=
  match w.mergeState with
  | some _ => .error .inProgress
  | none => do
    let branchHead := w.branch.head
    let branchAncestors ← reading (inclusiveAncestorSet w.store branchHead)
    if ontoHead ∈ branchAncestors then return { w with succeeded := true }
    let toReplay ← reading (findCommitsToReplay w.store branchHead ontoHead)
    if toReplay.isEmpty then return { w with succeeded := true }
    let head ← reading (loadCommitAddr w.store branchHead)
    if env.unchanged head.root w.branch.working then
      let ended ← replayRemainingCommits env rebaser toReplay none ⟨w.store, ontoHead, 0, []⟩
      return publishReplay w w.branch.working ontoHead branchHead ended
    else .error .uncommittedChanges

/-- `DumboDBRebase` that continues one; `prepared` is what `prepareContinue` makes of the live root. -/
def continueRebase (env : ReplayEnv Hash Root) (rebaser : Option CommitIdent) (prepared : PickMerge Root)
    (w : RebaseWorld Hash Root) : Except (RebaseError Hash) (RebaseWorld Hash Root) :=
  match w.mergeState with
  | none => .error .notInProgress
  | some ms =>
    match prepared with
    | .failed => .error (.mergeFailed ms.rebaseCurrentPick)
    | .conflicted merged =>
      let ms := { ms with resolvedAM := merged }
      .ok { w with branch := pausedWorkingSet w.branch.head ms, mergeState := some ms }
    | .clean resolved => do
      let pick ← reading (loadCommitAddr w.store ms.rebaseCurrentPick)
      let ended ← replayRemainingCommits env rebaser ms.rebaseRemainingHashes
        (some ⟨resolved, rebasedPickMeta pick.info rebaser⟩) ⟨w.store, ms.intoHash, ms.rebaseCommitsReplayed, []⟩
      return publishReplay w ms.premergeAM ms.rebaseOntoHash ms.rebaseBranchHash ended

/-- The paused pick and those behind it, from the count that is stored. -/
def restoreRebasePlan (store : CommitStore Hash Root) (branchHash ontoHash : Hash) (replayed : Nat) :
    Except (RebaseError Hash) (Hash × List Hash) := do
  let plan ← reading (findCommitsToReplay store branchHash ontoHash)
  match plan.drop replayed with
  | [] => .error (.outsidePlan replayed plan.length)
  | pick :: remaining => return (pick, remaining)

/-- `mergeStateFromWS` of a branch, none when no rebase is stored on it. -/
def rebaseStateFromWS (store : CommitStore Hash Root) (branch : RebaseBranch Hash Root) :
    Except (RebaseError Hash) (Option (RebaseInProgress Hash Root)) :=
  match branch.rebase with
  | none => .ok none
  | some stored => do
    let intoHash := if branch.head = stored.commit then stored.ontoCommit else branch.head
    let (pick, remaining) ← restoreRebasePlan store stored.commit stored.ontoCommit stored.lastAttemptedStep
    return some ⟨stored.preMergeWorkingRoot, branch.working, intoHash, stored.ontoCommit, stored.commit,
      remaining, pick,
      stored.lastAttemptedStep⟩

inductive RebaseEvent (Root : Type) where
  | resolve (root : Root)
  | proceed (rebaser : Option CommitIdent) (prepared : PickMerge Root)
  | restart

/-- A command or a restart between the start and the end of a rebase. -/
inductive RebaseStep (env : ReplayEnv Hash Root) : RebaseWorld Hash Root → RebaseEvent Root →
    RebaseWorld Hash Root → Prop where
  | resolve {w : RebaseWorld Hash Root} {ms : RebaseInProgress Hash Root}
        (paused : w.mergeState = some ms) (root : Root) :
      RebaseStep env w (.resolve root) { w with
          branch := pausedWorkingSet w.branch.head { ms with resolvedAM := root }
          mergeState := some { ms with resolvedAM := root } }
  | proceed {w after : RebaseWorld Hash Root} {rebaser : Option CommitIdent} {prepared : PickMerge Root}
      (done : continueRebase env rebaser prepared w = .ok after) : RebaseStep env w (.proceed rebaser prepared) after
  | restart {w : RebaseWorld Hash Root} {restored : Option (RebaseInProgress Hash Root)}
      (loaded : rebaseStateFromWS w.store w.branch = .ok restored) :
      RebaseStep env w .restart { w with mergeState := restored }

/-- The commits created for picks, each on the one before with the pick's author and message, and the
tip that they lead to. -/
inductive Replayed (store : CommitStore Hash Root) (onto : Hash) : List Hash → List Hash → Hash → Prop where
  | nil : Replayed store onto [] [] onto
  | snoc {picks created : List Hash} {tip pick h : Hash} {from_ c : Commit Hash Root} :
        Replayed store onto picks created tip →
      loadCommitAddr store pick = .ok from_ → loadCommitAddr store h = .ok c → c.parents = [tip] →
      c.info.author = from_.info.author → c.info.description = from_.info.description →
      Replayed store onto (picks ++ [pick]) (created ++ [h]) h

/-- A branch head and a commit that it does not have, to rebase onto. -/
structure RebaseInput (Hash Root : Type) [DecidableEq Hash] [CommitHash Hash Root] where
  store : CommitStore Hash Root
  branchHead : Hash
  ontoHead : Hash
  working : Root
  staged : Root
  hasBranch : store.Has branchHead
  hasOnto : store.Has ontoHead
  apart : ¬store.IsAncestor ontoHead branchHead

def RebaseInput.world (input : RebaseInput Hash Root) : RebaseWorld Hash Root :=
  ⟨input.store, ⟨input.branchHead, input.working, input.staged, none⟩, none, [], false⟩

/-- What a rebase along the way has done: the picks of the plan so far are replayed in order, a pause is
what the branch stores, and success means that every pick is replayed and the branch is over `onto`. -/
structure RebasedSoFar (input : RebaseInput Hash Root) (w : RebaseWorld Hash Root) : Prop where
  inOrder : ∃ plan picks rest tip, findCommitsToReplay input.store input.branchHead input.ontoHead = .ok plan ∧
    plan = picks ++ rest ∧ Replayed w.store input.ontoHead picks w.created tip ∧
      ∀ ms, w.mergeState = some ms → ms.intoHash = tip ∧ rest = ms.rebaseCurrentPick :: ms.rebaseRemainingHashes ∧
        ms.rebaseCommitsReplayed = w.created.length
  resumes : ∀ ms, w.mergeState = some ms → rebaseStateFromWS w.store w.branch = .ok (some ms)
  reaches : w.succeeded = true → w.store.IsAncestor input.ontoHead w.branch.head ∧
    ∃ plan, findCommitsToReplay input.store input.branchHead input.ontoHead = .ok plan ∧
      Replayed w.store input.ontoHead plan w.created w.branch.head

/-- The branch has a commit that `onto` does not reach, and the picks that a pause can have behind it can
be counted in 24 bits. -/
def RebaseInput.Countable (input : RebaseInput Hash Root) : Prop :=
  ¬input.store.IsAncestor input.branchHead input.ontoHead ∧
    ∀ picks, input.store.Unreached input.ontoHead input.branchHead picks → picks.length ≤ 2 ^ 24 + 1

section
variable {store : CommitStore Hash Root} {onto tip : Hash} {picks created : List Hash}

section

variable (replayed : Replayed store onto picks created tip)
include replayed

theorem Replayed.length_eq : created.length = picks.length := by
  induction replayed with
  | nil => rfl
  | snoc _ _ _ _ _ _ ih => rw [length_append, length_append, ih]; rfl

theorem Replayed.tip_eq (none : created = []) : tip = onto := by
  cases replayed with
  | nil => rfl
  | snoc => simp at none

theorem Replayed.extended {later : CommitStore Hash Root}
    (extended : store.Extends later) : Replayed later onto picks created tip := by
  induction replayed with
  | nil => exact .nil
  | snoc _ pick written parents author message ih =>
    exact .snoc ih (extended _ _ pick) (extended _ _ written) parents author message

theorem Replayed.isAncestor : store.IsAncestor onto tip := by
  induction replayed with
  | nil => exact .refl
  | snoc _ _ written parents _ _ ih => exact .parent written (parents ▸ .head _) ih

end

end

variable {r : Replay Hash Root} {rebaser : Option CommitIdent} {remaining : List Hash}

theorem writeReplayedPick_ok {after : Replay Hash Root} {pick : ReplayedPick Root}
    (written : writeReplayedPick r pick = .ok after) :
    r.store.Extends after.store ∧ loadCommitAddr after.store after.intoHash = .ok ⟨[r.intoHash], pick.am, pick.info⟩ ∧
      after.rebaseCommitsReplayed = r.rebaseCommitsReplayed + 1 ∧ after.created = r.created ++ [after.intoHash] := by
  obtain ⟨⟨h, _⟩, stored, rest⟩ := bind_eq_ok.mp written
  obtain ⟨-, extended, loaded⟩ := CommitStore.commitDangling_ok (reading_eq_ok.mp stored)
  cases rest
  exact ⟨extended, loaded, rfl, rfl⟩

def PendingFor (store : CommitStore Hash Root) : Option (ReplayedPick Root) → List Hash → Prop
  | none, held => held = []
  | some pending, held => ∃ pick from_, held = [pick] ∧ loadCommitAddr store pick = .ok from_ ∧
      pending.info.author = from_.info.author ∧ pending.info.description = from_.info.description

section
variable {onto : Hash} {picks before held : List Hash} {pending : Option (ReplayedPick Root)}
  {env : ReplayEnv Hash Root}

theorem writePending_ok {after : Replay Hash Root} (written : writePending r pending = .ok after)
    (replayed : Replayed r.store onto picks (before ++ r.created) r.intoHash)
    (counted : r.rebaseCommitsReplayed = picks.length) (waiting : PendingFor r.store pending held) :
    r.store.Extends after.store ∧ Replayed after.store onto (picks ++ held) (before ++ after.created) after.intoHash ∧
      after.rebaseCommitsReplayed = (picks ++ held).length ∧ (pending.isSome = true → after.created ≠ []) ∧
      (pending.isSome = false → after = r) := by
  cases pending with
  | none =>
    obtain rfl : r = after := Except.ok.inj written
    obtain rfl : held = [] := waiting
    rw [append_nil]
    exact ⟨.refl _, replayed, counted, nofun, fun _ => rfl⟩
  | some _ =>
    obtain ⟨extended, loaded, count, created⟩ := writeReplayedPick_ok written
    obtain ⟨h, _, rfl, original, author, message⟩ := waiting
    refine ⟨extended, ?_, ?_, fun _ => ?_, nofun⟩
    · rw [created, ← append_assoc]
      exact .snoc (replayed.extended extended) (extended _ _ original) loaded rfl author message
    · rw [count, counted, length_append]
      rfl
    · rw [created]
      simp

/-- Where a replay that returns has come to: what is replayed of all picks, and whether the branch moved. -/
def ReplayEnd.Leaves (r after : Replay Hash Root) (pending : Option (ReplayedPick Root)) (all picks : List Hash) :
    ReplayEnd Hash Root → Prop
  | .finished last => picks = all ∧ (last = none → pending = none ∧ after = r)
  | .paused pick remaining _ published => all = picks ++ pick :: remaining ∧
      (published = true → after.created ≠ []) ∧ (published = false → pending = none ∧ after = r)

theorem replayRemainingCommits_cons {pickHash : Hash} {after : Replay Hash Root} {ended : ReplayEnd Hash Root}
    (done : replayRemainingCommits env rebaser (pickHash :: remaining) pending r = .ok (after, ended)) :
    ∃ pick merged r₁, loadCommitAddr r.store pickHash = .ok pick ∧ writePending r pending = .ok r₁ ∧
      ((after = r₁ ∧ ended = .paused pickHash remaining merged pending.isSome) ∨
        replayRemainingCommits env rebaser remaining (some ⟨merged,
          rebasedPickMeta pick.info rebaser⟩) r₁ = .ok (after, ended)) := by
  obtain ⟨pick, loaded, done⟩ := bind_eq_ok.mp done
  obtain ⟨_, -, done⟩ := bind_eq_ok.mp done
  obtain ⟨_, -, done⟩ := bind_eq_ok.mp done
  split at done
  next => cases done
  next merged _ =>
    obtain ⟨r₁, written, done⟩ := bind_eq_ok.mp done
    cases done
    exact ⟨pick, merged, after, reading_eq_ok.mp loaded, written, .inl ⟨rfl, rfl⟩⟩
  next merged _ =>
    obtain ⟨r₁, written, done⟩ := bind_eq_ok.mp done
    exact ⟨pick, merged, r₁, reading_eq_ok.mp loaded, written, .inr done⟩

theorem replayRemainingCommits_ok {after : Replay Hash Root} {ended : ReplayEnd Hash Root}
    (done : replayRemainingCommits env rebaser remaining pending r = .ok (after, ended))
    (replayed : Replayed r.store onto picks (before ++ r.created) r.intoHash)
    (counted : r.rebaseCommitsReplayed = picks.length) (waiting : PendingFor r.store pending held) :
    r.store.Extends after.store ∧ ∃ now, Replayed after.store onto now (before ++ after.created) after.intoHash ∧
      after.rebaseCommitsReplayed = now.length ∧ ended.Leaves r after pending (picks ++ held ++ remaining) now := by
  induction remaining generalizing pending r picks held with
  | nil =>
    obtain ⟨r₁, written, done⟩ := bind_eq_ok.mp done
    obtain ⟨extended, replayed, counted, -, same⟩ := writePending_ok written replayed counted waiting
    cases done
    refine ⟨extended, _, replayed, counted, (append_nil _).symm, fun none => ?_⟩
    cases pending with
    | none => exact ⟨rfl, same rfl⟩
    | some pick => cases none
  | cons pickHash remaining ih =>
    obtain ⟨pick, merged, r₁, loaded, written, rest⟩ := replayRemainingCommits_cons done
    obtain ⟨extended, replayed, counted, moved, same⟩ := writePending_ok written replayed counted waiting
    rcases rest with ⟨rfl, rfl⟩ | done
    · refine ⟨extended, _, replayed, counted, rfl, moved, fun unmoved => ⟨?_, same unmoved⟩⟩
      exact Option.isNone_iff_eq_none.mp (by simpa using unmoved)
    · -- the pick is pending now, and everything before it is written
      have next : PendingFor r₁.store (some ⟨merged, rebasedPickMeta pick.info rebaser⟩) [pickHash] :=
        ⟨pickHash, pick, rfl, extended _ _ loaded, rfl, rfl⟩
      obtain ⟨further, now, replayed, counted, leaves⟩ := ih done replayed counted next
      rw [append_assoc (picks ++ held), singleton_append] at leaves
      refine ⟨extended.trans further, now, replayed, counted, ?_⟩
      cases ended with
      | finished _ => exact ⟨leaves.1, fun none => nomatch (leaves.2 none).1⟩
      | paused _ _ _ _ =>
        exact ⟨leaves.1, leaves.2.1, fun unmoved => nomatch (leaves.2.2 unmoved).1⟩

end

section
variable {input : RebaseInput Hash Root} {plan : List Hash} {w : RebaseWorld Hash Root} {r : Replay Hash Root}
  {ms : RebaseInProgress Hash Root} {passed : List Hash} {stop : Hash}

structure RebaseSound (input : RebaseInput Hash Root) (plan : List Hash) (w : RebaseWorld Hash Root) : Prop where
  extended : input.store.Extends w.store
  ended : w.mergeState = none → w.succeeded = true ∧ Replayed w.store input.ontoHead plan w.created w.branch.head ∧
    w.branch.rebase = none
  paused : ∀ ms, w.mergeState = some ms → w.succeeded = false ∧ ms.rebaseOntoHash = input.ontoHead ∧
    ms.rebaseBranchHash = input.branchHead ∧
    w.branch = pausedWorkingSet (if w.created = [] then input.branchHead else ms.intoHash) ms ∧
    ∃ picks, plan = picks ++ ms.rebaseCurrentPick :: ms.rebaseRemainingHashes ∧
      Replayed w.store input.ontoHead picks w.created ms.intoHash ∧ ms.rebaseCommitsReplayed = picks.length

theorem RebaseSound.publish {after : Replay Hash Root} {ended : ReplayEnd Hash Root}
    {pending : Option (ReplayedPick Root)} {now : List Hash} {premergeAM : Root}
    (extended : input.store.Extends after.store)
    (started : r.created = []) (head : pending = none → w.created = [] ∧ w.branch.head = input.branchHead)
    (replayed : Replayed after.store input.ontoHead now (w.created ++ after.created) after.intoHash)
    (counted : after.rebaseCommitsReplayed = now.length) (leaves : ended.Leaves r after pending plan now)
    (some : plan ≠ []) :
    RebaseSound input plan (publishReplay w premergeAM input.ontoHead input.branchHead (after, ended)) := by
  cases ended with
  | finished last =>
    obtain ⟨rfl, finished⟩ := leaves
    cases last with
    | none =>
      obtain ⟨none, rfl⟩ := finished rfl
      have count := replayed.length_eq
      rw [(head none).1, started] at count
      exact absurd (eq_nil_of_length_eq_zero count.symm) some
    | some last => exact ⟨extended, fun _ => ⟨rfl, replayed, rfl⟩, nofun⟩
  | paused _ _ _ published =>
    obtain ⟨split, moved, unmoved⟩ := leaves
    refine ⟨extended, nofun, fun ms same => ?_⟩
    cases same
    refine ⟨rfl, rfl, rfl, ?_, now, split, replayed, counted⟩
    cases published with
    | true =>
      have wrote : w.created ++ after.created ≠ [] := fun none => moved rfl (append_eq_nil_iff.mp none).2
      simp only [publishReplay, if_neg wrote, ↓reduceIte]
    | false =>
      obtain ⟨none, rfl⟩ := unmoved rfl
      have empty : w.created ++ after.created = [] := by rw [(head none).1, started]; rfl
      simp only [publishReplay, if_pos empty, Bool.false_eq_true, ↓reduceIte, (head none).2]

theorem float32_of_le {n : Nat} (small : n ≤ 2 ^ 24) : float32 n = n := by
  rcases small.lt_or_eq with less | rfl
  · have shift : Nat.log2 n - 23 = 0 := by
      rcases Nat.eq_zero_or_pos n with rfl | positive
      · rfl
      · have := (Nat.log2_lt positive.ne').mpr less
        omega
    have same := roundHalfEven_mul n Nat.one_pos
    rw [Nat.mul_one] at same
    rw [float32, shift, Nat.pow_zero, same, Nat.mul_one]
  · decide +kernel

theorem RebaseSound.start {env : ReplayEnv Hash Root} {rebaser : Option CommitIdent} {started : RebaseWorld Hash Root}
    (done : startRebase env rebaser input.ontoHead input.world = .ok started)
    (found : findCommitsToReplay input.store input.branchHead input.ontoHead = .ok plan) (some : plan ≠ []) :
    RebaseSound input plan started := by
  obtain ⟨_, searched, known⟩ := CommitStore.ancestors_found input.hasBranch
  obtain ⟨_, again, done⟩ := bind_eq_ok.mp done
  cases searched.symm.trans (reading_eq_ok.mp again)
  split_ifs at done with inside
  · exact absurd ((known _).mp inside) input.apart
  obtain ⟨_, planned, done⟩ := bind_eq_ok.mp done
  cases found.symm.trans (reading_eq_ok.mp planned)
  split_ifs at done with empty
  · exact absurd (List.isEmpty_iff.mp empty) some
  obtain ⟨head, -, done⟩ := bind_eq_ok.mp done
  by_cases clean : env.unchanged head.root input.working = true
  case neg => exact nomatch (if_neg clean).symm.trans done
  replace done := (if_pos clean).symm.trans done
  obtain ⟨⟨r, _⟩, replays, done⟩ := bind_eq_ok.mp done
  cases done
  have waiting : PendingFor input.store (none : Option (ReplayedPick Root)) [] := rfl
  have first : Replayed input.store input.ontoHead [] ([] ++ []) input.ontoHead := .nil
  obtain ⟨extended, _, replayed, counted, leaves⟩ := replayRemainingCommits_ok replays first rfl waiting
  exact .publish extended rfl (fun _ => ⟨rfl, rfl⟩) replayed counted leaves some

section

variable (sound : RebaseSound input plan w)
  (found : findCommitsToReplay input.store input.branchHead input.ontoHead = .ok plan)
  (short : plan.length ≤ 2 ^ 24 + 1)
include sound found short

theorem RebaseSound.resumes (paused : w.mergeState = some ms) :
    rebaseStateFromWS w.store w.branch = .ok (some ms) := by
  obtain ⟨-, onto, branch, stored, picks, split, replayed, counted⟩ := sound.paused ms paused
  have few : picks.length ≤ 2 ^ 24 := by
    rw [split, length_append, length_cons] at short
    omega
  have again : findCommitsToReplay w.store input.branchHead input.ontoHead = .ok plan :=
    (sound.extended.findCommitsToReplay_eq input.hasBranch input.hasOnto).trans found
  have rest : plan.drop picks.length = ms.rebaseCurrentPick :: ms.rebaseRemainingHashes := by
    rw [split, drop_left]
  have tip : (if (if w.created = [] then input.branchHead else ms.intoHash) = input.branchHead then input.ontoHead
      else (if w.created = [] then input.branchHead else ms.intoHash)) = ms.intoHash := by
    by_cases none : w.created = []
    · rw [if_pos none, if_pos rfl]
      exact (replayed.tip_eq none).symm
    · -- a branch head that has moved is over `onto`, which the old one is not
      have moved : ms.intoHash ≠ input.branchHead := fun same =>
        input.apart ((sound.extended.isAncestor_iff input.hasBranch).mp (same ▸ replayed.isAncestor))
      rw [if_neg none, if_neg moved]
  rw [stored]
  simp only [rebaseStateFromWS, pausedWorkingSet, restoreRebasePlan, onto, branch, again, reading,
    counted, float32_of_le few,
    tip, bind, Except.bind, rest, pure, Except.pure]
  rw [← onto, ← branch, ← counted]

theorem RebaseSound.step {env : ReplayEnv Hash Root} {after : RebaseWorld Hash Root} {event : RebaseEvent Root}
    (stepped : RebaseStep env w event after) : RebaseSound input plan after := by
  -- a resolution and a continue that conflicts again store the paused operation with another root
  have repaused {ms : RebaseInProgress Hash Root} (paused : w.mergeState = some ms) (root : Root) :
    RebaseSound input plan
      { w with
        branch := pausedWorkingSet w.branch.head { ms with resolvedAM := root }
        mergeState := some { ms with resolvedAM := root } } := by
    obtain ⟨waits, onto, branch, stored, progress⟩ := sound.paused ms paused
    refine ⟨sound.extended, nofun, fun _ same => ?_⟩
    cases same
    refine ⟨waits, onto, branch, ?_, progress⟩
    rw [stored]
    rfl
  cases stepped with
  | resolve paused root => exact repaused paused root
  | @proceed _ rebaser _ done =>
    unfold continueRebase at done
    split at done
    next => cases done
    next ms paused =>
      split at done
      next => cases done
      next merged =>
        cases done
        exact repaused paused merged
      next resolved =>
        obtain ⟨-, onto, branch, -, _, split, replayed, counted⟩ := sound.paused ms paused
        obtain ⟨pick, loaded, done⟩ := bind_eq_ok.mp done
        obtain ⟨⟨r, _⟩, replays, done⟩ := bind_eq_ok.mp done
        cases done
        rw [onto, branch]
        have waiting : PendingFor w.store (some ⟨resolved,
          rebasedPickMeta pick.info rebaser⟩) [ms.rebaseCurrentPick] :=
          ⟨_, pick, rfl, reading_eq_ok.mp loaded, rfl, rfl⟩
        rw [← append_nil w.created] at replayed
        obtain ⟨further, _, replayed, counted, leaves⟩ := replayRemainingCommits_ok replays replayed counted waiting
        rw [append_assoc, singleton_append, ← split] at leaves
        refine .publish (sound.extended.trans further) rfl ?_ replayed counted leaves (by simp [split])
        exact nofun
  | restart loaded =>
    cases state : w.mergeState with
    | none =>
      have settled := (sound.ended state).2.2
      rw [rebaseStateFromWS, settled] at loaded
      cases loaded
      exact ⟨sound.extended, fun _ => sound.ended state, nofun⟩
    | some ms =>
      cases (sound.resumes found short state).symm.trans loaded
      exact ⟨sound.extended, nofun, fun again same => sound.paused again (state.trans same)⟩

theorem RebaseSound.rebased : RebasedSoFar input w := by
  refine ⟨?_, fun ms paused => sound.resumes found short paused, fun succeeded => ?_⟩
  · cases state : w.mergeState with
    | none => exact ⟨plan, plan, [], _, found, (append_nil _).symm, (sound.ended state).2.1, nofun⟩
    | some ms =>
      obtain ⟨-, -, -, -, picks, split, replayed, counted⟩ := sound.paused ms state
      refine ⟨plan, picks, _, _, found, split, replayed, fun again same => ?_⟩
      cases same
      exact ⟨rfl, rfl, counted.trans replayed.length_eq.symm⟩
  · cases state : w.mergeState with
    | none =>
      have replayed := (sound.ended state).2.1
      exact ⟨replayed.isAncestor, plan, found, replayed⟩
    | some ms => exact nomatch (sound.paused ms state).1.symm.trans succeeded

end

theorem exists_writePending (has : r.store.Has r.intoHash) (pending : Option (ReplayedPick Root)) :
    ∃ after, writePending r pending = .ok after ∧ r.store.Extends after.store ∧ after.store.Has after.intoHash ∧
      after.rebaseCommitsReplayed = r.rebaseCommitsReplayed + pending.toList.length := by
  cases pending with
  | none => exact ⟨r, rfl, .refl _, has, rfl⟩
  | some pick =>
    have present : ∀ p ∈ [r.intoHash], r.store.Has p := fun p member => mem_singleton.mp member ▸ has
    obtain ⟨written, stored⟩ := CommitStore.exists_commitDangling (c := ⟨[r.intoHash], pick.am, pick.info⟩) present
    have done : writeReplayedPick r pick = .ok ⟨written.2, written.1, r.rebaseCommitsReplayed + 1,
      r.created ++ [written.1]⟩ :=
      bind_eq_ok.mpr ⟨written, reading_eq_ok.mpr stored, rfl⟩
    obtain ⟨extended, loaded, -, -⟩ := writeReplayedPick_ok done
    exact ⟨_, done, extended, CommitStore.has_iff.mpr ⟨_, loaded⟩, rfl⟩

theorem exists_baseAM {store : CommitStore Hash Root} {h : Hash} {c : Commit Hash Root}
    (loaded : loadCommitAddr store h = .ok c) :
    ∃ base, baseAM store c = .ok base := by
  unfold baseAM
  split
  next => exact ⟨none, rfl⟩
  next p _ parents =>
    have parent : p ∈ c.parents := by rw [parents]; exact .head _
    obtain ⟨parent, found⟩ := CommitStore.has_iff.mp (CommitStore.has_parent loaded parent)
    exact ⟨some parent.root, by rw [found]; rfl⟩

theorem exists_intoAM (has : r.store.Has r.intoHash) (pending : Option (ReplayedPick Root)) :
    ∃ into, intoAM r pending = .ok into := by
  cases pending with
  | some pick => exact ⟨pick.am, rfl⟩
  | none =>
    obtain ⟨commit, found⟩ := CommitStore.has_iff.mp has
    exact ⟨commit.root, by rw [intoAM, found]; rfl⟩

def stopsAt (stop : Hash) (root : Root) : ReplayEnv Hash Root where
  merge pick _ _ _ := if pick = stop then .conflicted root else .clean root
  unchanged _ _ := true

theorem replays_to {root : Root}
    (apart : stop ∉ passed) {pending : Option (ReplayedPick Root)} (has : r.store.Has r.intoHash)
    (loads : ∀ h ∈ passed ++ [stop], r.store.Has h) :
    ∃ after published, replayRemainingCommits (stopsAt stop root) rebaser (passed ++ stop :: remaining) pending r =
        .ok (after, .paused stop remaining root published) ∧
      after.rebaseCommitsReplayed = r.rebaseCommitsReplayed + pending.toList.length + passed.length := by
  obtain ⟨next, written, extended, has_next, count⟩ := exists_writePending has pending
  obtain ⟨into, read⟩ := exists_intoAM has pending
  induction passed generalizing pending r next into with
  | nil =>
    obtain ⟨pick, loaded⟩ := CommitStore.has_iff.mp (loads stop (.head _))
    obtain ⟨base, based⟩ := exists_baseAM loaded
    refine ⟨next, pending.isSome, ?_, count⟩
    refine bind_eq_ok.mpr ⟨pick, reading_eq_ok.mpr loaded, bind_eq_ok.mpr ⟨base, reading_eq_ok.mpr based,
      bind_eq_ok.mpr ⟨into, reading_eq_ok.mpr read, ?_⟩⟩⟩
    simp only [stopsAt, ↓reduceIte]
    exact bind_eq_ok.mpr ⟨next, written, rfl⟩
  | cons h passed ih =>
    obtain ⟨pick, loaded⟩ := CommitStore.has_iff.mp (loads h (.head _))
    obtain ⟨base, based⟩ := exists_baseAM loaded
    have passes : h ≠ stop := fun same => apart (same ▸ .head _)
    obtain ⟨later, stored, further, has_later, recount⟩ :=
      exists_writePending has_next (some ⟨root, rebasedPickMeta pick.info rebaser⟩)
    obtain ⟨after, published, replays, total⟩ := ih (fun member => apart (.tail _ member)) has_next
      (fun x member => extended.has (loads x (.tail _ member))) later stored further has_later recount root rfl
    refine ⟨after, published, ?_, ?_⟩
    · refine bind_eq_ok.mpr ⟨pick, reading_eq_ok.mpr loaded, bind_eq_ok.mpr ⟨base, reading_eq_ok.mpr based,
        bind_eq_ok.mpr ⟨into, reading_eq_ok.mpr read, ?_⟩⟩⟩
      simp only [stopsAt, if_neg passes]
      exact bind_eq_ok.mpr ⟨next, written, replays⟩
    · rw [total, count, length_cons]
      simp only [Option.toList_some, length_singleton]
      omega

theorem rebaseStateFromWS_count {store : CommitStore Hash Root} {head : Hash} {restored : RebaseInProgress Hash Root}
    (loaded : rebaseStateFromWS store (pausedWorkingSet head ms) = .ok (some restored)) :
    restored.rebaseCommitsReplayed = float32 ms.rebaseCommitsReplayed := by
  obtain ⟨⟨_, _⟩, -, rest⟩ := bind_eq_ok.mp loaded
  cases rest
  rfl

theorem startRebase_behind (env : ReplayEnv Hash Root) (rebaser : Option CommitIdent)
    (found : findCommitsToReplay input.store input.branchHead input.ontoHead = .ok []) :
    startRebase env rebaser input.ontoHead input.world = .ok { input.world with succeeded := true } := by
  obtain ⟨ancestors, searched, known⟩ := CommitStore.ancestors_found input.hasBranch
  have outside : input.ontoHead ∉ ancestors := fun inside => input.apart ((known _).mp inside)
  simp only [startRebase, RebaseInput.world, inclusiveAncestorSet, searched, found, reading, bind,
    Except.bind, if_neg outside]
  rfl

theorem startRebase_stops (root : Root)
    (found : findCommitsToReplay input.store input.branchHead input.ontoHead = .ok (passed ++ stop :: remaining))
    (apart : stop ∉ passed) (loads : ∀ h ∈ passed ++ [stop], input.store.Has h) :
    ∃ started ms head, startRebase (stopsAt stop root) none input.ontoHead input.world = .ok started ∧
      started.mergeState = some ms ∧ started.branch = pausedWorkingSet head ms ∧
      ms.rebaseCommitsReplayed = passed.length := by
  obtain ⟨ancestors, searched, known⟩ := CommitStore.ancestors_found input.hasBranch
  have outside : input.ontoHead ∉ ancestors := fun inside => input.apart ((known _).mp inside)
  obtain ⟨head, loaded⟩ := CommitStore.has_iff.mp input.hasBranch
  have arrives : ∃ after published, replayRemainingCommits (stopsAt stop root) none (passed ++ stop :: remaining) none
        ⟨input.store, input.ontoHead, 0, []⟩ = .ok (after, .paused stop remaining root published) ∧
      after.rebaseCommitsReplayed = 0 + 0 + passed.length := replays_to apart input.hasOnto loads
  obtain ⟨after, published, replays, count⟩ := arrives
  have some : (passed ++ stop :: remaining).isEmpty = false := by simp
  simp only [startRebase, RebaseInput.world, inclusiveAncestorSet, searched, found, loaded, reading,
    bind, Except.bind,
    if_neg outside, some, replays]
  refine ⟨_, _, _, rfl, rfl, rfl, ?_⟩
  simpa using count

theorem not_every_resumes (found : findCommitsToReplay input.store input.branchHead input.ontoHead = .ok plan)
    (unreached : input.store.Unreached input.ontoHead input.branchHead plan.reverse)
    (long : 2 ^ 24 + 1 < plan.length) :
    ¬∀ env rebaser started, startRebase env rebaser input.ontoHead input.world = .ok started →
      ∀ events w, Run (RebaseStep env) started events w → RebasedSoFar input w := by
  intro every
  have split := (take_append_drop (2 ^ 24 + 1) plan).symm
  rw [drop_eq_getElem_cons long] at split
  have once : (plan.take (2 ^ 24 + 1) ++ plan[2 ^ 24 + 1] :: plan.drop (2 ^ 24 + 1 + 1)).Nodup :=
    split ▸ nodup_reverse.mp unreached.nodup
  have apart : plan[2 ^ 24 + 1] ∉ plan.take (2 ^ 24 + 1) := fun early =>
    (nodup_append.mp once).2.2 _ early _ (.head _) rfl
  have loads : ∀ h ∈ plan.take (2 ^ 24 + 1) ++ [plan[2 ^ 24 + 1]], input.store.Has h := by
    intro h member
    refine unreached.loads (mem_reverse.mpr ?_)
    rcases mem_append.mp member with early | last
    · exact mem_of_mem_take early
    · exact mem_singleton.mp last ▸ getElem_mem long
  obtain ⟨started, ms, _, done, paused, stored, count⟩ :=
    startRebase_stops input.working (found.trans (congrArg _ split)) apart loads
  have resumed := (every _ _ _ done [] _ .nil).resumes ms paused
  rw [stored] at resumed
  have recovered := rebaseStateFromWS_count resumed
  rw [count, length_take_of_le long.le] at recovered
  exact absurd recovered (by decide +kernel)

/-- Every run of a rebase replays each commit once and can resume anywhere exactly when the branch has a
commit of its own and a plan that can be counted. -/
theorem rebase_replays_once (input : RebaseInput Hash Root) :
    (∀ env rebaser started, startRebase env rebaser input.ontoHead input.world = .ok started →
      ∀ events w, Run (RebaseStep env) started events w → RebasedSoFar input w) ↔ input.Countable := by
  obtain ⟨plan, found, unreached⟩ := CommitStore.findCommitsToReplay_spec input.hasBranch input.hasOnto
  constructor
  · intro every
    constructor
    · intro behind
      obtain rfl : plan = [] := reverse_eq_nil_iff.mp (unreached.eq_nil_iff.mpr behind)
      let env : ReplayEnv Hash Root := ⟨fun _ _ _ _ => .failed, fun _ _ => false⟩
      have property := every env none _ (startRebase_behind env none found) [] _ .nil
      exact input.apart (property.reaches rfl).1
    · intro _ same
      obtain rfl := unreached.unique same
      rw [length_reverse]
      by_contra long
      exact not_every_resumes found unreached (Nat.lt_of_not_le long) every
  · rintro ⟨ahead, counted⟩ env rebaser started done events w run
    have some : plan ≠ [] := fun none => ahead (unreached.eq_nil_iff.mp (reverse_eq_nil_iff.mpr none))
    have short : plan.length ≤ 2 ^ 24 + 1 := by
      have := counted _ unreached
      rwa [length_reverse] at this
    have sound : RebaseSound input plan w :=
      run.invariant (RebaseSound input plan) (.start done found some) fun s e t held stepped =>
        held.step found short stepped
    exact sound.rebased found short

end

def identFields (ident : CommitIdent) : List Nat × List Nat × Int :=
  (ident.name.map UInt8.toNat, ident.email.map UInt8.toNat, ident.date)

def commitFields (c : Commit Nat Nat) :
    List Nat × Nat × (List Nat × List Nat × Int) × (List Nat × List Nat × Int) × List Nat :=
  (c.parents, c.root, identFields c.info.author, identFields c.info.committer, c.info.description.map UInt8.toNat)

theorem commitFields_injective : Function.Injective commitFields := by
  have bytes {s t : Bytes} (same : s.map UInt8.toNat = t.map UInt8.toNat) : s = t :=
    map_injective_iff.mpr (fun _ _ => UInt8.toNat_inj.mp) same
  have ident {i j : CommitIdent} (same : identFields i = identFields j) : i = j := by
    obtain ⟨_, _, _⟩ := i
    simp only [identFields, Prod.mk.injEq] at same
    rw [bytes same.1, bytes same.2.1, same.2.2]
  rintro ⟨_, _, _, _, _⟩ ⟨_, _, _, _, _⟩ same
  simp only [commitFields, Prod.mk.injEq] at same
  obtain ⟨rfl, rfl, first, second, third⟩ := same
  rw [ident first, ident second, bytes third]

/-- Commits that are addressed by the number of their fields. -/
instance : CommitHash Nat Nat where
  hashOf c := Encodable.encode (commitFields c)
  injective := Encodable.encode_injective.comp commitFields_injective

def unsigned : CommitMeta := ⟨⟨[], [], 0⟩, ⟨[], [], 0⟩, []⟩

def firstCommit : Commit Nat Nat := ⟨[], 0, unsigned⟩

def secondCommit : Commit Nat Nat := ⟨[hashOf firstCommit], 1, unsigned⟩

def twoCommits : CommitStore Nat Nat where
  commits := [(hashOf secondCommit, secondCommit), (hashOf firstCommit, firstCommit)]
  closed := ⟨rfl, by decide +kernel, by decide +kernel, rfl, by decide +kernel, by decide +kernel, trivial⟩

def fastForward : RebaseInput Nat Nat where
  store := twoCommits
  branchHead := hashOf firstCommit
  ontoHead := hashOf secondCommit
  working := 0
  staged := 0
  hasBranch := by decide +kernel
  hasOnto := by decide +kernel
  apart := by
    have searched : inclusiveAncestorSet twoCommits (hashOf firstCommit)
      = .ok [hashOf firstCommit] := by decide +kernel
    intro path
    exact absurd ((mem_collect_iff searched).mpr path) (by decide +kernel)

/-- The rebase is reported as done, with the branch where it was: the commit that it is rebased onto is
not on the branch. -/
theorem behind_reported_done : ∃ started, startRebase
    (stopsAt 0 0) none fastForward.ontoHead fastForward.world = .ok started ∧
    started.succeeded = true ∧ started.branch.head = fastForward.branchHead ∧
    ¬started.store.IsAncestor fastForward.ontoHead started.branch.head ∧ ¬RebasedSoFar fastForward started := by
  have planned : findCommitsToReplay fastForward.store fastForward.branchHead fastForward.ontoHead = .ok [] := by
    decide +kernel
  refine ⟨_, startRebase_behind (stopsAt 0 0) none planned, rfl, rfl, fastForward.apart, fun property => ?_⟩
  exact fastForward.apart (property.reaches rfl).1

end DumboDB.Dolt
