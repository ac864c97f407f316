import DumboDB.Dolt.DocLocks
import DumboDB.Sqlctx.SessionLifecycle

/-!
The document locks over the life of the sessions: commands that open, settle and abort transactions,
the aborts of the connection's own code, and the ends of sessions.
-/

namespace DumboDB.Dolt
open Foundation ByteOrder DumboDB.Types Transition Sqlctx Function Option

/-- What ends a transaction: `OnTransactionCommit` and `OnTransactionAbort` in steps. -/
inductive Closing where
  | close
  | rollback
  | release
deriving DecidableEq

inductive Settled where
  | committed
  | refused
  | failed
  | aborted
  | sessionEnded

def Settled.steps : Settled → List Closing
  | .committed => [.close, .release]
  | .refused => [.release, .rollback, .release]
  | .failed => [.release]
  | .aborted => [.rollback, .release]
  | .sessionEnded => [.release, .rollback]

/-- The commands by what they do to transactions and locks. -/
inductive CommandKind where
  | read
  | statement
  | write (replaying : Bool)
  | endSessions (forked : Bool)

/-- Where a command stands under the latch of its session. -/
inductive CommandStage where
  | starting (kind : CommandKind)
  | writing
  | closing (released : Bool) (rest : List Closing)
  | done

/-- What a goroutine does for a command: under the latch, and back in `route`. -/
inductive Work where
  | idle
  | inside (sid : Nat) (owner : Bytes) (stage : CommandStage)
  | returned (owner : Bytes)
  | aborting (owner : Bytes) (rolledBack : Bool)

/-- The registry, the locks, the transaction of each session and the goroutines. `under` is history:
the transaction in which a lock was taken. -/
@[ext]
structure TxnState (ι : Type) where
  registry : SessionRegistry ι
  managers : DocLockManagers
  transaction : Nat → Option Nat
  started : Nat
  works : ι → Work
  under : DocRef → Nat

def TxnState.start (ι : Type) (clock : Int) : TxnState ι :=
  ⟨NewSessionRegistry ι clock, ∅, fun _ => none, 0, fun _ => .idle, fun _ => 0⟩

inductive TxnEvent (ι : Type) where
  | registry (event : RegistryEvent ι)
  | forgets (i : ι)
  | undoes (i : ι) (owner : Bytes)
  | internal (i : ι)

section
variable {ι : Type}

def rollbackOwnerTxn (s : TxnState ι) (owner : Bytes) : TxnState ι :=
  match s.registry.Get owner with
  | none => s
  | some sid => { s with transaction := Function.update s.transaction sid none }

def EnsureTxn (s : TxnState ι) (sid : Nat) : TxnState ι :=
  match s.transaction sid with
  | some _ => s
  | none => { s with transaction := Function.update s.transaction sid (some s.started), started := s.started + 1 }

def TxnState.apply (s : TxnState ι) (sid : Nat) (owner : Bytes) : Closing → TxnState ι
  | .close => { s with transaction := Function.update s.transaction sid none }
  | .rollback => rollbackOwnerTxn s owner
  | .release => { s with managers := releaseLocksForOwner s.managers owner }

def TxnState.locked (s : TxnState ι) (sid : Nat) (owner : Bytes) (c : CollectionRef) (ids : List Bytes)
    (waitable : Bool) :
    TxnState ι :=
  let (error, after) := acquireTxnLocks s.managers owner c ids waitable
  { s with
    managers := after
    under := fun d => if error = none ∧ d ∈ c.docs ids then (s.transaction sid).getD 0 else s.under d }

variable [DecidableEq ι]

def TxnState.turn (s : TxnState ι) (i : ι) (work : Work) : TxnState ι :=
    { s with works := Function.update s.works i work }

inductive InsideStep (i : ι) (sid : Nat) (owner : Bytes) : TxnState ι → CommandStage → TxnEvent ι →
    TxnState ι → CommandStage → Prop where
  | forget {s} : InsideStep i sid owner s (.starting (.write true)) (.forgets i)
      { s with transaction := Function.update s.transaction sid none } (.starting (.write false))
  -- a read outside of transactions, or EnsureTxn fails
  | nothing {s kind} : InsideStep i sid owner s (.starting kind) (.internal i) s .done
  | opens {s} : InsideStep i sid owner s (.starting .statement) (.internal i) (EnsureTxn s sid) .writing
  | writes {s} (settled : Settled) : settled = .committed ∨ settled = .refused ∨ settled = .aborted →
      InsideStep i sid owner s (.starting (.write false)) (.internal i) (EnsureTxn s sid)
        (.closing false settled.steps)
  | ends {s} : InsideStep i sid owner s (.starting (.endSessions false)) (.internal i) s
      (.closing false Settled.sessionEnded.steps)
  | endsForked {s} : InsideStep i sid owner s (.starting (.endSessions true)) (.internal i) (EnsureTxn s sid)
      (.closing false Settled.sessionEnded.steps)
  | locks {s} (c ids waitable) : InsideStep i sid owner s .writing (.internal i)
        (s.locked sid owner c ids waitable) .writing
  | stops {s} : InsideStep i sid owner s .writing (.internal i) s .done
  | settles {s} (settled : Settled) : InsideStep i sid owner s .writing (.internal i) s (.closing false settled.steps)
  | closes {s released step rest} : InsideStep i sid owner s (.closing released (step :: rest)) (.internal i)
      (s.apply sid owner step) (.closing (released || step == .release) rest)
  | closed {s released} : InsideStep i sid owner s (.closing released []) (.internal i) s .done

variable (timeout : Int)

/-- The events of the registry in which no command begins or ends. -/
def betweenCommands : RegistryEvent ι → Bool
  | .commandBegin .. | .commandEnd .. => false
  | _ => true

inductive TxnStep : TxnState ι → TxnEvent ι → TxnState ι → Prop where
  | registry {s} {event r} : RegistryStep timeout s.registry event r → betweenCommands event = true →
      TxnStep s (.registry event) { s with registry := r }
  | begin_ {s} {i sid now e r} (kind : CommandKind) : RegistryStep timeout s.registry (.commandBegin i sid now) r →
      s.works i = .idle → s.registry.heap sid = some e →
      TxnStep s (.registry (.commandBegin i sid now)) ({ s with registry := r }.turn i
        (.inside sid e.lsid (.starting kind)))
  | inside {s} {sid owner stage event t stage'} (i) : s.works i = .inside sid owner stage →
      InsideStep i sid owner s stage event t stage' → TxnStep s event (t.turn i (.inside sid owner stage'))
  | end_ {s} {sid owner r} (i) : RegistryStep timeout s.registry (.commandEnd i sid) r →
        s.works i = .inside sid owner .done →
      TxnStep s (.registry (.commandEnd i sid)) ({ s with registry := r }.turn i (.returned owner))
  -- route
  | leave {s} {owner} (i) : s.works i = .returned owner → TxnStep s (.internal i) (s.turn i .idle)
  | fail {s} {owner} (i) : s.works i = .returned owner → TxnStep s (.internal i) (s.turn i (.aborting owner false))
  | reject {s} (i owner) : s.works i = .idle → s.registry.procs i = .idle →
      TxnStep s (.internal i) (s.turn i (.aborting owner false))
  | undo {s} {owner} (i) : s.works i = .aborting owner false →
      TxnStep s (.undoes i owner) ((rollbackOwnerTxn s owner).turn i (.aborting owner true))
  | release {s} {owner} (i) : s.works i = .aborting owner true →
      TxnStep s (.internal i) ({ s with managers := releaseLocksForOwner s.managers owner }.turn i .idle)

end

/-- A session ends only when its owner holds no lock; a write is run again only when its owner holds
none; and the connection's own abort undoes a transaction only while no command of it is running. -/
def TxnState.Orderly {ι : Type} (s : TxnState ι) : TxnEvent ι → Prop
  | .registry (.sessionEnd _ sid) => ∀ e, s.registry.heap sid = some e → ∀ d, holdsDoc s.managers e.lsid d = false
  | .forgets i => ∀ sid owner stage, s.works i = .inside sid owner stage → ∀ d, holdsDoc s.managers owner d = false
  | .undoes _ owner => ∀ j sid stage, s.works j ≠ .inside sid owner stage
  | _ => True

/-! What the operations do. -/

variable {d : DocRef} {managers : DocLockManagers}

section
variable {ι : Type} {s : TxnState ι} {sid : Nat} {owner : Bytes}

theorem holdsDoc_iff : holdsDoc managers owner d = true ↔ ∃ e, docEntry managers d = some e ∧ e.owner = owner :=
  DocLockManager.Holds_iff

theorem EnsureTxn_eq (s : TxnState ι) (sid : Nat) :
    (EnsureTxn s sid).registry = s.registry ∧ (EnsureTxn s sid).managers = s.managers ∧
      (EnsureTxn s sid).works = s.works ∧
      (EnsureTxn s sid).under = s.under := by
  unfold EnsureTxn
  cases s.transaction sid <;> exact ⟨rfl, rfl, rfl, rfl⟩

theorem EnsureTxn_transaction (s : TxnState ι) (sid : Nat) : (EnsureTxn s sid).transaction sid ≠ none ∧
    ∀ other t, s.transaction other = some t → (EnsureTxn s sid).transaction other = some t := by
  unfold EnsureTxn
  cases open_ : s.transaction sid with
  | some t => exact ⟨fun none_ => (nomatch open_.symm.trans none_), fun _ _ => id⟩
  | none =>
    refine ⟨fun none_ => (nomatch (update_self ..).symm.trans none_), fun other t held => ?_⟩
    have apart : other ≠ sid := fun same => nomatch (same ▸ held).symm.trans open_
    exact (update_of_ne apart ..).trans held

theorem rollbackOwnerTxn_cases (s : TxnState ι) (owner : Bytes) : rollbackOwnerTxn s owner = s ∨
    ∃ sid, s.registry.sessions owner = some sid ∧
      rollbackOwnerTxn s owner = { s with transaction := update s.transaction sid none } := by
  unfold rollbackOwnerTxn
  cases found : s.registry.Get owner with
  | none => exact .inl rfl
  | some sid => exact .inr ⟨sid, (filter_eq_some_iff.mp found).1, rfl⟩

theorem rollbackOwnerTxn_works (s : TxnState ι) (owner : Bytes) : (rollbackOwnerTxn s owner).works = s.works := by
  unfold rollbackOwnerTxn
  cases s.registry.Get owner <;> rfl

theorem rollbackOwnerTxn_turn [DecidableEq ι] (s : TxnState ι) (owner : Bytes) (i : ι) (work : Work) :
    rollbackOwnerTxn (s.turn i work) owner = (rollbackOwnerTxn s owner).turn i work := by
  unfold rollbackOwnerTxn
  change (match s.registry.Get owner with | none => _ | some sid => _) = _
  cases s.registry.Get owner <;> rfl

end

/-! The locks of every state. -/

section
variable {ι : Type} {s : TxnState ι} {i j : ι} {sid sid' : Nat} {owner : Bytes} {stage stage' : CommandStage}
  {other : Bytes}

/-- The owner whose locks a goroutine still has to release. -/
def Work.owed : Work → Option Bytes
  | .inside _ owner (.closing false _) => some owner
  | .aborting owner true => some owner
  | _ => none

structure Covered (s : TxnState ι) : Prop where
  sound : Sound s.registry
  inside : ∀ i sid owner stage, s.works i = .inside sid owner stage →
    (∃ now, s.registry.procs i = .running .executing sid now) ∧ ∃ e, s.registry.heap sid = some e ∧ e.lsid = owner
  writing : ∀ i sid owner, s.works i = .inside sid owner .writing → s.transaction sid ≠ none
  owing : ∀ i sid owner rest, s.works i = .inside sid owner (.closing false rest) → .release ∈ rest
  free : ∀ i sid owner rest, s.works i = .inside sid owner (.closing true rest) →
    ∀ d, holdsDoc s.managers owner d = false
  dead : ∀ sid e, s.registry.heap sid = some e → e.ended = true → s.registry.sessions e.lsid = some sid →
    ∀ d, holdsDoc s.managers e.lsid d = false
  covered : ∀ d entry, docEntry s.managers d = some entry →
    (∃ sid, s.registry.sessions entry.owner = some sid ∧ s.transaction sid = some (s.under d)) ∨
      ∃ i, (s.works i).owed = some entry.owner

theorem covered_start (clock : Int) : Covered (TxnState.start ι clock) where
  sound := sound_start clock
  inside _ _ _ _ at_ := nomatch at_
  writing _ _ _ at_ := nomatch at_
  owing _ _ _ _ at_ := nomatch at_
  free _ _ _ _ at_ := nomatch at_
  dead _ _ held := nomatch held
  covered d entry held := by
    have empty : docEntry (TxnState.start ι clock).managers d = none := by
      simp [TxnState.start, docEntry, docLockManager, NewDocLockManager, DocLockManager.entry]
    exact nomatch empty.symm.trans held

section

variable (covered : Covered s)
include covered

theorem Covered.registered (at_ : s.works i = .inside sid owner stage) :
    s.registry.sessions owner = some sid ∧ ∀ e, s.registry.heap sid = some e → e.ended = false := by
  obtain ⟨⟨_, running⟩, e, held, rfl⟩ := covered.inside i sid owner stage at_
  have fits := (covered.sound.related i sid e held).1 (running ▸ rfl)
  have unended := SessionEntry.life_of_trusted fits (covered.sound.ok sid e held) (running ▸ rfl)
  refine ⟨covered.sound.live sid e held unended, fun e' held' => ?_⟩
  cases held.symm.trans held'
  exact unended

theorem Covered.unique (mine : s.works i = .inside sid owner stage)
    (other : s.works j = .inside sid' owner stage') : i = j ∧ sid = sid' := by
  cases (covered.registered mine).1.symm.trans (covered.registered other).1
  obtain ⟨⟨_, running⟩, -⟩ := covered.inside i sid owner stage mine
  obtain ⟨⟨_, running'⟩, -⟩ := covered.inside j sid owner stage' other
  exact ⟨covered.sound.latched_unique running running' rfl rfl, rfl⟩

theorem Covered.ownedBy (at_ : s.works i = .inside sid owner stage)
    (mapped : s.registry.sessions other = some sid) : other = owner := by
  obtain ⟨-, e, held, rfl⟩ := covered.inside i sid owner stage at_
  obtain ⟨_, held', rfl⟩ := covered.sound.mapped other sid mapped
  cases held.symm.trans held'
  rfl

theorem covered_close (settled : ∀ owner, s.registry.sessions owner = some sid →
      (∀ d, holdsDoc s.managers owner d = false) ∨ ∃ i, (s.works i).owed = some owner)
    (quiet : ∀ i owner, s.works i ≠ .inside sid owner .writing) :
    Covered { s with transaction := update s.transaction sid none } := by
  refine ⟨covered.sound, covered.inside, fun i other owner at_ => ?_, covered.owing, covered.free, covered.dead, ?_⟩
  · have apart : other ≠ sid := fun same => quiet i owner (same ▸ at_)
    dsimp only
    rw [update_of_ne apart]
    exact covered.writing i other owner at_
  · intro d entry held
    rcases covered.covered d entry held with ⟨other, mapped, open_⟩ | owed
    · by_cases same : other = sid
      · subst same
        rcases settled entry.owner mapped with unlocked | owed
        · exact nomatch (unlocked d).symm.trans (holdsDoc_iff.mpr ⟨entry, held, rfl⟩)
        · exact .inr owed
      · exact .inl ⟨other, mapped, (update_of_ne same ..).trans open_⟩
    · exact .inr owed

theorem covered_rollback (owner : Bytes)
    (settled : (∀ d, holdsDoc s.managers owner d = false) ∨ ∃ i, (s.works i).owed = some owner)
    (quiet : ∀ i sid, s.works i ≠ .inside sid owner .writing) : Covered (rollbackOwnerTxn s owner) := by
  rcases rollbackOwnerTxn_cases s owner with same | ⟨sid, mapped, closed⟩
  · rw [same]
    exact covered
  · rw [closed]
    have only : ∀ other, s.registry.sessions other = some sid → other = owner := by
      intro other mapped'
      obtain ⟨e, held, rfl⟩ := covered.sound.mapped owner sid mapped
      obtain ⟨_, held', rfl⟩ := covered.sound.mapped other sid mapped'
      cases held.symm.trans held'
      rfl
    refine covered_close covered (fun other mapped' => only other mapped' ▸ settled) fun i other at_ => ?_
    exact quiet i sid (only other (covered.registered at_).1 ▸ at_)

end

theorem holdsDoc_release (held : holdsDoc (releaseLocksForOwner managers owner) other d = true) :
    holdsDoc managers other d = true ∧ other ≠ owner := by
  obtain ⟨e, entry, rfl⟩ := holdsDoc_iff.mp held
  rw [docEntry_release] at entry
  obtain ⟨there, kept⟩ := filter_eq_some_iff.mp entry
  exact ⟨holdsDoc_iff.mpr ⟨e, there, rfl⟩, by simpa using kept⟩

theorem holdsDoc_released (managers : DocLockManagers) (owner : Bytes) (d : DocRef) :
    holdsDoc (releaseLocksForOwner managers owner) owner d = false := by
  rw [Bool.eq_false_iff]
  exact fun held => (holdsDoc_release held).2 rfl

theorem covered_release (covered : Covered s) (owner : Bytes) :
    Covered { s with managers := releaseLocksForOwner s.managers owner } := by
  have fewer : ∀ other, (∀ d, holdsDoc s.managers other d = false) →
      ∀ d, holdsDoc (releaseLocksForOwner s.managers owner) other d = false := by
    intro other none_ d
    rw [Bool.eq_false_iff]
    exact fun held => nomatch (none_ d).symm.trans (holdsDoc_release held).1
  refine ⟨covered.sound, covered.inside, covered.writing, covered.owing, ?_, ?_, ?_⟩
  · exact fun i sid other rest at_ => fewer other (covered.free i sid other rest at_)
  · exact fun sid e held ended mapped => fewer e.lsid (covered.dead sid e held ended mapped)
  · intro d entry held
    rw [docEntry_release] at held
    exact covered.covered d entry (filter_eq_some_iff.mp held).1

theorem covered_ensure (covered : Covered s) (sid : Nat) : Covered (EnsureTxn s sid) := by
  obtain ⟨registry, managers, works, under⟩ := EnsureTxn_eq s sid
  obtain ⟨-, kept⟩ := EnsureTxn_transaction s sid
  refine ⟨registry ▸ covered.sound, ?_, ?_, ?_, ?_, ?_, ?_⟩
  · rw [registry, works]
    exact covered.inside
  · intro i other owner at_
    rw [works] at at_
    obtain ⟨t, open_⟩ := ne_none_iff_exists'.mp (covered.writing i other owner at_)
    rw [kept other t open_]
    exact nofun
  · rw [works]
    exact covered.owing
  · rw [works, managers]
    exact covered.free
  · rw [registry, managers]
    exact covered.dead
  · intro d entry held
    rw [managers] at held
    rw [registry, under]
    rcases covered.covered d entry held with ⟨other, mapped, open_⟩ | ⟨i, owed⟩
    · exact .inl ⟨other, mapped, kept other _ open_⟩
    · exact .inr ⟨i, works ▸ owed⟩

theorem covered_locked (covered : Covered s) (at_ : s.works i = .inside sid owner .writing) (c : CollectionRef)
    (ids : List Bytes) (waitable : Bool) : Covered (s.locked sid owner c ids waitable) := by
  obtain ⟨mapped, unended⟩ := covered.registered at_
  rcases acquireTxnLocks_cases s.managers owner c ids waitable with ⟨_, after, failed, same⟩ | ⟨after,
    taken, -, entries⟩
  · have locked : s.locked sid owner c ids waitable = { s with managers := after } := by
      simp [TxnState.locked, failed]
    have holds : ∀ other d, holdsDoc after other d = holdsDoc s.managers other d := by
      intro other d
      rw [Bool.eq_iff_iff, holdsDoc_iff, holdsDoc_iff, same]
    rw [locked]
    refine ⟨covered.sound, covered.inside, covered.writing, covered.owing, ?_, ?_, ?_⟩
    · exact fun i sid other rest at_ d => (holds other d).trans (covered.free i sid other rest at_ d)
    · exact fun sid e held ended mapped d => (holds e.lsid d).trans (covered.dead sid e held ended mapped d)
    · exact fun d entry held => covered.covered d entry ((same d).symm.trans held)
  · obtain ⟨t, open_⟩ := ne_none_iff_exists'.mp (covered.writing i sid owner at_)
    have locked : s.locked sid owner c ids waitable =
        { s with managers := after, under := fun d => if d ∈ c.docs ids then t else s.under d } := by
      simp [TxnState.locked, taken, open_]
    have kept : ∀ other, other ≠ owner → (∀ d, holdsDoc s.managers other d = false) →
      ∀ d, holdsDoc after other d = false := by
      intro other apart none_ d
      rw [Bool.eq_false_iff]
      intro held
      obtain ⟨e, entry, rfl⟩ := holdsDoc_iff.mp held
      rw [entries] at entry
      split at entry
      · cases entry
        exact apart rfl
      · exact nomatch (none_ d).symm.trans (holdsDoc_iff.mpr ⟨e, entry, rfl⟩)
    rw [locked]
    refine ⟨covered.sound, covered.inside, covered.writing, covered.owing, ?_, ?_, ?_⟩
    · intro j other owner' rest closing
      refine kept owner' (fun same => ?_) (covered.free j other owner' rest closing)
      subst same
      obtain ⟨rfl, -⟩ := covered.unique at_ closing
      exact nomatch at_.symm.trans closing
    · intro other e held ended registered
      refine kept e.lsid (fun same => ?_) (covered.dead other e held ended registered)
      cases mapped.symm.trans (same ▸ registered)
      exact nomatch (unended e held).symm.trans ended
    · intro d entry held
      dsimp only at held ⊢
      rw [entries] at held
      by_cases named : d ∈ c.docs ids
      · rw [if_pos named] at held ⊢
        cases held
        exact .inl ⟨sid, mapped, open_⟩
      · rw [if_neg named] at held ⊢
        exact covered.covered d entry held

variable [DecidableEq ι]

theorem TxnState.turn_self (s : TxnState ι) (i : ι) (work : Work) : (s.turn i work).works i = work := update_self ..

theorem TxnState.turn_other (s : TxnState ι) (work : Work) (apart : j ≠ i) : (s.turn i work).works j = s.works j :=
  update_of_ne apart ..

variable {work : Work} {timeout clock : Int} {event : TxnEvent ι} {t : TxnState ι}
  {released : Bool} {rest : List Closing}

section

variable (covered : Covered s)
include covered

theorem covered_turn (inside : ∀ sid owner stage, work = .inside sid owner stage →
      (∃ now, s.registry.procs i = .running .executing sid now) ∧ ∃ e, s.registry.heap sid = some e ∧ e.lsid = owner)
    (writing : ∀ sid owner, work = .inside sid owner .writing → s.transaction sid ≠ none)
    (owing : ∀ sid owner rest, work = .inside sid owner (.closing false rest) → .release ∈ rest)
    (free : ∀ sid owner rest, work = .inside sid owner (.closing true rest) →
    ∀ d, holdsDoc s.managers owner d = false)
    (paid : ∀ owner, (s.works i).owed = some owner → work.owed = some owner ∨
    ∀ d, holdsDoc s.managers owner d = false) :
    Covered (s.turn i work) := by
  have rule : ∀ {P : ι → Work → Prop}, P i work → (∀ j, P j (s.works j)) → ∀ j, P j ((s.turn i work).works j) := by
    intro P own others j
    by_cases mine : j = i
    · subst mine
      rw [s.turn_self]
      exact own
    · rw [s.turn_other work mine]
      exact others j
  refine ⟨covered.sound, ?_, ?_, ?_, ?_, covered.dead, ?_⟩
  · exact rule (P := fun j w => ∀ sid owner stage, w = .inside sid owner stage →
      (∃ now, s.registry.procs j = .running .executing sid now) ∧ ∃ e, s.registry.heap sid = some e ∧ e.lsid = owner)
      inside covered.inside
  · exact rule (P := fun _ w => ∀ sid owner, w = .inside sid owner .writing → s.transaction sid ≠ none)
      writing covered.writing
  · exact rule (P := fun _ w => ∀ sid owner rest, w = .inside sid owner (.closing false rest) → .release ∈ rest)
      owing covered.owing
  · exact rule (P := fun _ w => ∀ sid owner rest, w = .inside sid owner (.closing true rest) →
      ∀ d, holdsDoc s.managers owner d = false) free covered.free
  · intro d entry held
    rcases covered.covered d entry held with open_ | ⟨j, owed⟩
    · exact .inl open_
    · by_cases mine : j = i
      · subst mine
        rcases paid entry.owner owed with still | none_
        · exact .inr ⟨j, (s.turn_self j work).symm ▸ still⟩
        · exact nomatch (none_ d).symm.trans (holdsDoc_iff.mpr ⟨entry, held, rfl⟩)
      · exact .inr ⟨j, (s.turn_other work mine).symm ▸ owed⟩

theorem covered_registry {event : RegistryEvent ι} {r : SessionRegistry ι}
    (stepped : RegistryStep timeout s.registry event r)
    (noEnd : ∀ i sid owner stage, event = .commandEnd i sid → s.works i ≠ .inside sid owner stage)
    (orderly : s.Orderly (.registry event)) : Covered { s with registry := r } := by
  refine ⟨sound_step covered.sound stepped, ?_, covered.writing, covered.owing, covered.free, ?_, ?_⟩
  · intro i sid owner stage at_
    obtain ⟨⟨now, running⟩, entry⟩ := covered.inside i sid owner stage at_
    exact ⟨⟨now, (stepped.executing running).resolve_right fun is => noEnd i sid owner stage is at_⟩,
      stepped.lsid entry⟩
  · intro sid e held ended mapped d
    obtain ⟨e', was, same, ended' | ⟨i, rfl⟩⟩ := stepped.ended sid e held ended
    · rw [← same] at mapped ⊢
      have before := (stepped.registered mapped).resolve_right fun none_ => nomatch was.symm.trans none_
      exact covered.dead sid e' was ended' before d
    · rw [← same]
      exact orderly e' was d
  · intro d entry held
    rcases covered.covered d entry held with ⟨sid, mapped, open_⟩ | owed
    · rcases stepped.sessions covered.sound mapped with still | ⟨e, was, ended⟩
      · exact .inl ⟨sid, still, open_⟩
      · obtain ⟨e', held', same⟩ := covered.sound.mapped _ _ mapped
        cases was.symm.trans held'
        have none_ := covered.dead sid e was ended (same ▸ mapped) d
        rw [same] at none_
        exact nomatch none_.symm.trans (holdsDoc_iff.mpr ⟨entry, held, rfl⟩)
    · exact .inr owed

theorem covered_outside (out : ∀ sid owner stage, work ≠ .inside sid owner stage)
    (paid : ∀ owner, (s.works i).owed = some owner → work.owed = some owner ∨
    ∀ d, holdsDoc s.managers owner d = false) :
    Covered (s.turn i work) :=
  covered_turn covered (fun _ _ _ is => absurd is (out _ _ _)) (fun _ _ is => absurd is (out _ _ _))
    (fun _ _ _ is => absurd is (out _ _ _)) (fun _ _ _ is => absurd is (out _ _ _)) paid

theorem covered_stage (at_ : s.works i = .inside sid owner stage)
    (writing : stage' = .writing → s.transaction sid ≠ none)
    (owing : ∀ rest, stage' = .closing false rest → .release ∈ rest)
    (free : ∀ rest, stage' = .closing true rest → ∀ d, holdsDoc s.managers owner d = false)
    (paid : ∀ rest, stage = .closing false rest →
      (∃ later, stage' = .closing false later) ∨ ∀ d, holdsDoc s.managers owner d = false) :
    Covered (s.turn i (.inside sid owner stage')) := by
  refine covered_turn covered ?_ ?_ ?_ ?_ fun other owed => ?_
  · rintro _ _ _ ⟨⟩
    exact covered.inside i sid owner stage at_
  · rintro _ _ ⟨⟩
    exact writing rfl
  · rintro _ _ rest ⟨⟩
    exact owing rest rfl
  · rintro _ _ rest ⟨⟩
    exact free rest rfl
  · rw [at_] at owed
    match stage, owed with
    | .closing false rest, rfl =>
      rcases paid rest rfl with ⟨later, rfl⟩ | none_
      · exact .inl rfl
      · exact .inr none_

end

theorem release_mem_steps (settled : Settled) : .release ∈ settled.steps := by
  cases settled <;> decide

theorem covered_closing (covered : Covered s) (at_ : s.works i = .inside sid owner stage) (settled : Settled)
    (begun : ∀ rest, stage ≠ .closing false rest) :
    Covered (s.turn i (.inside sid owner (.closing false settled.steps))) := by
  refine covered_stage covered at_ nofun ?_ nofun fun rest is => absurd is (begun rest)
  rintro _ ⟨⟩
  exact release_mem_steps settled

section

variable (covered : Covered s) {step : Closing} (at_ : s.works i = .inside sid owner (.closing released
  (step :: rest)))
include covered at_

theorem covered_later (other : step ≠ .release) :
    Covered (s.turn i (.inside sid owner (.closing released rest))) := by
  refine covered_stage covered at_ nofun ?_ ?_ ?_
  · rintro _ ⟨⟩
    exact (List.mem_cons.mp (covered.owing i sid owner _ at_)).resolve_left (Ne.symm other)
  · rintro _ ⟨⟩
    exact covered.free i sid owner _ at_
  · rintro _ ⟨⟩
    exact .inl ⟨rest, rfl⟩

theorem covered_closes :
    Covered ((s.apply sid owner step).turn i (.inside sid owner (.closing (released || step == .release) rest))) := by
  have alone : ∀ j other, s.works j ≠ .inside other owner .writing := by
    intro j other inside
    obtain ⟨rfl, -⟩ := covered.unique at_ inside
    exact nomatch at_.symm.trans inside
  have settled : (∀ d, holdsDoc s.managers owner d = false) ∨ ∃ j, (s.works j).owed = some owner := by
    cases released with
    | true => exact .inl (covered.free i sid owner _ at_)
    | false => exact .inr ⟨i, at_ ▸ rfl⟩
  cases step with
  | close =>
    rw [show (released || Closing.close == .release) = released from Bool.or_false released]
    have closed : Covered (s.apply sid owner .close) :=
      covered_close covered (fun other mapped => covered.ownedBy at_ mapped ▸ settled)
        fun j other inside => alone j sid (covered.ownedBy at_ (covered.registered inside).1 ▸ inside)
    exact covered_later closed at_ nofun
  | rollback =>
    rw [show (released || Closing.rollback == .release) = released from Bool.or_false released]
    have undone : Covered (s.apply sid owner .rollback) := covered_rollback covered owner settled alone
    have was : (s.apply sid owner .rollback).works i = .inside sid owner (.closing released (.rollback :: rest)) :=
      (congrFun (rollbackOwnerTxn_works s owner) i).trans at_
    exact covered_later undone was nofun
  | release =>
    rw [show (released || Closing.release == .release) = true from Bool.or_true released]
    have freed : Covered (s.apply sid owner .release) := covered_release covered owner
    exact covered_stage freed at_ nofun nofun (fun _ _ => holdsDoc_released s.managers owner)
      fun _ _ => .inr (holdsDoc_released s.managers owner)

end

theorem covered_inside (covered : Covered s) (at_ : s.works i = .inside sid owner stage)
    (stepped : InsideStep i sid owner s stage event t stage') (orderly : s.Orderly event) :
    Covered (t.turn i (.inside sid owner stage')) := by
  have ensured := covered_ensure covered sid
  have works : (EnsureTxn s sid).works i = .inside sid owner stage := (EnsureTxn_eq s sid).2.2.1 ▸ at_
  cases stepped with
  | nothing
  | stops => exact covered_stage covered at_ nofun nofun nofun nofun
  | forget =>
    have free := orderly sid owner _ at_
    have closed : Covered { s with transaction := update s.transaction sid none } := by
      refine covered_close covered (fun other mapped => .inl (covered.ownedBy at_ mapped ▸ free))
        fun j other inside => ?_
      obtain rfl := covered.ownedBy at_ (covered.registered inside).1
      obtain ⟨rfl, -⟩ := covered.unique at_ inside
      exact nomatch at_.symm.trans inside
    exact covered_stage closed at_ nofun nofun nofun nofun
  | opens => exact covered_stage ensured works (fun _ => (EnsureTxn_transaction s sid).1) nofun nofun nofun
  | writes settled => exact covered_closing ensured works settled nofun
  | ends => exact covered_closing covered at_ .sessionEnded nofun
  | endsForked => exact covered_closing ensured works .sessionEnded nofun
  | locks c ids waitable =>
    have locked := covered_locked covered at_ c ids waitable
    exact covered_stage locked at_ (fun _ => locked.writing i sid owner at_) nofun nofun nofun
  | settles settled => exact covered_closing covered at_ settled nofun
  | closes => exact covered_closes covered at_
  | @closed released =>
    refine covered_stage covered at_ nofun nofun nofun ?_
    rintro _ ⟨⟩
    exact nomatch covered.owing i sid owner [] at_

theorem covered_step (covered : Covered s) (stepped : TxnStep timeout s event t)
    (orderly : s.Orderly event) : Covered t := by
  cases stepped with
  | registry stepped between =>
    refine covered_registry covered stepped (fun i sid owner stage is => ?_) orderly
    subst is
    cases between
  | begin_ _ stepped idle held =>
    have begun := covered_registry covered stepped nofun trivial
    refine covered_turn begun ?_ nofun nofun nofun (idle ▸ nofun)
    rintro sid owner stage ⟨⟩
    obtain ⟨-, e, held', rfl⟩ := stepped.begins
    cases held.symm.trans held'
    exact ⟨⟨_, SessionRegistry.procs_turn_self ..⟩, _, SessionRegistry.heap_put_self .., rfl⟩
  | inside i at_ stepped => exact covered_inside covered at_ stepped orderly
  | @end_ sid owner r i stepped at_ =>
    have returned : Covered (s.turn i (.returned owner)) := covered_outside covered nofun (at_ ▸ nofun)
    refine covered_registry returned stepped ?_ trivial
    rintro j other _ stage ⟨⟩ inside
    exact nomatch (s.turn_self i _).symm.trans inside
  | leave i at_
  | fail i at_ => exact covered_outside covered nofun (at_ ▸ nofun)
  | reject i owner idle _ => exact covered_outside covered nofun (idle ▸ nofun)
  | @undo owner i at_ =>
    have owing : Covered (s.turn i (.aborting owner true)) := covered_outside covered nofun (at_ ▸ nofun)
    have undone := covered_rollback owing owner (.inr ⟨i, by rw [s.turn_self]; rfl⟩) fun j sid inside => ?_
    · rw [rollbackOwnerTxn_turn] at undone
      exact undone
    · by_cases mine : j = i
      · subst mine
        exact nomatch (s.turn_self j _).symm.trans inside
      · exact orderly j sid .writing ((s.turn_other _ mine).symm.trans inside)
  | @release owner i at_ =>
    refine covered_outside (covered_release covered owner) nofun fun other owed => .inr ?_
    rw [at_] at owed
    cases owed
    exact holdsDoc_released s.managers owner

/-- Over every orderly run: when no command is running, every lock belongs to an owner whose
registered session still has the transaction open in which it was taken. -/
theorem locks_within_transactions {events : List (TxnEvent ι)}
    (run : Run (Guarded TxnState.Orderly (TxnStep timeout)) (TxnState.start ι clock) events s)
    (quiet : ∀ i, s.works i = .idle) {d : DocRef} {entry : LockEntry} (held : docEntry s.managers d = some entry) :
    ∃ sid, s.registry.sessions entry.owner = some sid ∧ s.transaction sid = some (s.under d) := by
  have covered : Covered s := run.invariant Covered (covered_start clock) fun s event t held stepped =>
    covered_step held stepped.2 stepped.1
  rcases covered.covered d entry held with open_ | ⟨i, owed⟩
  · exact open_
  · rw [quiet i] at owed
    cases owed

end

/-! A transaction that locks one document. -/

def heldPlace : CollectionRef := ⟨ascii ['d'], ascii ['m'], ascii ['c']⟩

def heldDoc : DocRef := ⟨heldPlace.key, heldPlace.name, [7]⟩

/-- The session `[1]` between two statements of its transaction. -/
def holding : TxnState Bool :=
  TxnState.locked
    { registry := ⟨Function.update (fun _ => none) [1] (some 0),
      Function.update (fun _ => none) 0 (some (newEntry [1] 20)),
        fun _ => .idle, 20⟩
      managers := ∅
      transaction := Function.update (fun _ => none) 0 (some 0)
      started := 1
      works := fun _ => .idle
      under := fun _ => 0 }
    0 [1] heldPlace [[7]] true

theorem holding_held : docEntry holding.managers heldDoc = some ⟨[1], true⟩ := by decide +kernel

theorem holding_runs : ∃ events, Run (Guarded TxnState.Orderly (TxnStep 10))
    (TxnState.start Bool 20) events holding := by
  have start : Run (Guarded TxnState.Orderly (TxnStep 10)) (TxnState.start Bool 20) [] _ := .nil
  have connected := (start.snocGuarded (.registry (.connect false [1] rfl) rfl) trivial).snocGuarded
    (.registry (.create false 0 rfl rfl rfl) rfl) trivial
  have entered := (connected.snocGuarded (.registry (.use false 0 20 rfl rfl) rfl) trivial).snocGuarded
    (.registry (.entry false rfl (.enter rfl)) rfl) trivial
  have latched := (entered.snocGuarded (.registry (.entry false rfl (.latch rfl)) rfl) trivial).snocGuarded
    (.registry (.entry false rfl (.recheck rfl)) rfl) trivial
  have begun := (latched.snocGuarded (.registry (.entry false rfl .stamp) rfl) trivial).snocGuarded
    (.begin_ .statement (.entry false rfl .begin_) rfl rfl) trivial
  have locked := (begun.snocGuarded (.inside false rfl .opens) trivial).snocGuarded
    (.inside false rfl (.locks heldPlace [[7]] true)) trivial
  have stopped := (locked.snocGuarded (.inside false rfl .stops) trivial).snocGuarded
    (.end_ false (.entry false rfl .finish) rfl) trivial
  have left := (stopped.snocGuarded (.registry (.entry false rfl .leave) rfl) trivial).snocGuarded
    (.leave false rfl) trivial
  suffices same : ∃ events s, Run (Guarded TxnState.Orderly (TxnStep 10))
    (TxnState.start Bool 20) events s ∧ s = holding by
    obtain ⟨events, s, run, rfl⟩ := same
    exact ⟨events, run⟩
  refine ⟨_, _, left, TxnState.ext (SessionRegistry.ext rfl ?_ ?_ rfl) rfl rfl rfl ?_ rfl⟩
  · funext sid
    cases sid <;> rfl
  · funext i
    cases i <;> rfl
  · funext i
    cases i <;> rfl

/-- Between the statements the lock is the open transaction's. -/
theorem held_lock_within : docEntry holding.managers heldDoc = some ⟨[1], true⟩ ∧
    ∃ sid, holding.registry.sessions [1] = some sid ∧ holding.transaction sid = some (holding.under heldDoc) := by
  obtain ⟨_, run⟩ := holding_runs
  exact ⟨holding_held, locks_within_transactions run (fun _ => rfl) holding_held⟩

/-- The client goes away and its session is swept: the lock stays, and no session is left for it. -/
theorem swept_lock_stays : ∃ events s, Run (TxnStep 10) (TxnState.start Bool 20) events s ∧ (∀ i, s.works i = .idle) ∧
    docEntry s.managers heldDoc = some ⟨[1], true⟩ ∧ s.registry.sessions [1] = none := by
  obtain ⟨events, run⟩ := holding_runs
  have gone := run.unguarded.snoc (.registry (.mark false [1] rfl rfl rfl) rfl)
  have swept := gone.snoc (.registry (.sweep true 20 [[1]] rfl ?_) rfl)
  · have claimed := swept.snoc (.registry (.claim true rfl rfl rfl ⟨rfl, by rintro _ ⟨⟩; decide⟩) rfl)
    have purged := (claimed.snoc (.registry (.entry true rfl (.tearLatch rfl)) rfl)).snoc
      (.registry (.entry true rfl .purge) rfl)
    have ended := (purged.snoc (.registry (.entry true rfl .deactivate) rfl)).snoc
      (.registry (.entry true rfl .sessionEnd) rfl)
    have dropped := (ended.snoc (.registry (.entry true rfl .release) rfl)).snoc (.registry (.drop true rfl) rfl)
    have closed := (dropped.snoc (.registry (.entry true rfl .close) rfl)).snoc (.registry (.swept true rfl) rfl)
    exact ⟨_, _, closed, fun _ => rfl, holding_held, rfl⟩
  · intro lsid
    rw [List.mem_singleton]
    constructor
    · rintro rfl
      exact ⟨0, _, rfl, rfl, rfl, by rintro _ ⟨⟩; decide⟩
    · rintro ⟨_, e, mapped, -⟩
      by_contra apart
      have absent : holding.registry.sessions lsid = none := dif_neg apart
      exact nomatch absent.symm.trans mapped

end DumboDB.Dolt
