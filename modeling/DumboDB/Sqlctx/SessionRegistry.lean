import DumboDB.Foundation.ByteOrder
import DumboDB.Foundation.Transition

/-!
The session registry and the shadows: goroutines that connect, run commands, end, purge and sweep
sessions. A section under the registry's mutex is one step, and so is every load and store of an
atomic and every operation on a session's command latch.
-/

namespace DumboDB.Sqlctx
open Foundation ByteOrder Function

/-- A session with its entry in the registry and its shadow. The fields `begun` and `ended` record
`CommandBegin` without its `CommandEnd`, and `SessionEnd`. -/
structure SessionEntry (ι : Type) where
  lsid : Bytes
  terminating : Option ι
  done : Bool
  active : Bool
  purged : Bool
  lastUsed : Int
  cmdMu : Option ι
  begun : Bool
  ended : Bool

inductive RunPhase where
  | entering
  | queued
  | latched
  | stamping
  | beginning
  | executing
  | leaving
deriving DecidableEq

inductive TearPhase where
  | latching
  | purging
  | deactivating
  | ending
  | releasing
  | dropping
  | closing
deriving DecidableEq

/-- A sweep's cutoff and the sessions that it still has to look at; a purge looks at one. -/
structure Sweeping where
  cutoff : Option Int
  rest : List Bytes

inductive Proc where
  | idle
  | connecting (lsid : Bytes)
  | awaiting (lsid : Bytes) (sid : Nat)
  | running (phase : RunPhase) (sid : Nat) (now : Int)
  | sweeping (k : Sweeping)
  | tearing (phase : TearPhase) (lsid : Bytes) (sid : Nat) (k : Sweeping)

/-- The map of the registry, all entries ever made, the goroutines and the time. -/
@[ext]
structure SessionRegistry (ι : Type) where
  sessions : Bytes → Option Nat
  heap : Nat → Option (SessionEntry ι)
  procs : ι → Proc
  clock : Int

def NewSessionRegistry (ι : Type) (clock : Int) : SessionRegistry ι :=
    ⟨fun _ => none, fun _ => none, fun _ => .idle, clock⟩

inductive RegistryEvent (ι : Type) where
  | connects (i : ι) (lsid : Bytes)
  | returns (i : ι) (sid : Nat)
  | connectFails (i : ι)
  | uses (i : ι) (sid : Nat) (now : Int)
  | invalidated (i : ι) (sid : Nat)
  | stamps (i : ι) (sid : Nat) (now : Int)
  | commandBegin (i : ι) (sid : Nat) (now : Int)
  | commandEnd (i : ι) (sid : Nat)
  | ends (i : ι) (lsid : Bytes)
  | purges (i : ι) (lsid : Bytes)
  | sweeps (i : ι) (cutoff : Int)
  | claims (i : ι) (sid : Nat) (cutoff : Option Int)
  | sessionEnd (i : ι) (sid : Nat)
  | internal (i : ι)
  | ticks

namespace SessionRegistry
variable {ι : Type}

def put (s : SessionRegistry ι) (sid : Nat) (e : SessionEntry ι) : SessionRegistry ι :=
  { s with heap := Function.update s.heap sid (some e) }

variable (s : SessionRegistry ι) (i : ι) (p : Proc) (sid : Nat) (e : SessionEntry ι)

@[simp] theorem heap_put_self : (s.put sid e).heap sid = some e := update_self ..

theorem heap_put_other {other : Nat} (apart : other ≠ sid) : (s.put sid e).heap other = s.heap other :=
  update_of_ne apart ..

variable [DecidableEq ι]

def turn (s : SessionRegistry ι) (i : ι) (p : Proc) : SessionRegistry ι :=
  { s with procs := Function.update s.procs i p }

@[simp] theorem procs_turn_self : (s.turn i p).procs i = p := update_self ..

theorem procs_turn_other {j : ι} (apart : j ≠ i) : (s.turn i p).procs j = s.procs j :=
  update_of_ne apart ..

end SessionRegistry

def SessionRegistry.Get {ι : Type} (r : SessionRegistry ι) (lsid : Bytes) : Option Nat :=
  (r.sessions lsid).filter fun sid => (r.heap sid).any fun e => e.terminating.isNone

def newEntry {ι : Type} (lsid : Bytes) (now : Int) : SessionEntry ι where
  lsid := lsid
  terminating := none
  done := false
  active := true
  purged := false
  lastUsed := now
  cmdMu := none
  begun := false
  ended := false

inductive EntryStep {ι : Type} (i : ι) (sid : Nat) :
    Proc → SessionEntry ι → RegistryEvent ι → Proc → SessionEntry ι → Prop where
  | resume {lsid} {e} : e.done = true → EntryStep i sid (.awaiting lsid sid) e (.internal i) (.connecting lsid) e
  -- Shadow.run
  | refuse {now} {e} : e.active = false → EntryStep i sid (.running .entering sid now) e (.invalidated i sid) .idle e
  | enter {now} {e} : e.active = true →
      EntryStep i sid (.running .entering sid now) e (.internal i) (.running .queued sid now) e
  | latch {now} {e} : e.cmdMu = none →
      EntryStep i sid (.running .queued sid now) e (.internal i)
        (.running .latched sid now) { e with cmdMu := some i }
  | retract {now} {e} : e.active = false →
      EntryStep i sid (.running .latched sid now) e (.invalidated i sid) (.running .leaving sid now) e
  | recheck {now} {e} : e.active = true →
      EntryStep i sid (.running .latched sid now) e (.internal i) (.running .stamping sid now) e
  | stamp {now} {e} :
      EntryStep i sid (.running .stamping sid now) e (.stamps i sid now) (.running .beginning sid now)
        { e with lastUsed := now }
  | begin_ {now} {e} :
      EntryStep i sid (.running .beginning sid now) e (.commandBegin i sid now) (.running .executing sid now)
        { e with begun := true }
  | beginFails {now} {e} :
      EntryStep i sid (.running .beginning sid now) e (.internal i) (.running .leaving sid now) e
  | finish {now} {e} :
      EntryStep i sid (.running .executing sid now) e (.commandEnd i sid)
        (.running .leaving sid now) { e with begun := false }
  | leave {now} {e} : EntryStep i sid (.running .leaving sid now) e (.internal i) .idle { e with cmdMu := none }
  -- teardown
  | tearLatch {lsid k} {e} : e.cmdMu = none →
      EntryStep i sid (.tearing .latching lsid sid k) e (.internal i)
        (.tearing .purging lsid sid k) { e with cmdMu := some i }
  | purge {lsid k} {e} :
      EntryStep i sid (.tearing .purging lsid sid k) e (.internal i) (.tearing .deactivating lsid sid k)
        { e with purged := true }
  | deactivate {lsid k} {e} :
      EntryStep i sid (.tearing .deactivating lsid sid k) e (.internal i) (.tearing .ending lsid sid k)
        { e with active := false }
  | sessionEnd {lsid k} {e} :
      EntryStep i sid (.tearing .ending lsid sid k) e (.sessionEnd i sid) (.tearing .releasing lsid sid k)
        { e with ended := true }
  | release {lsid k} {e} :
      EntryStep i sid (.tearing .releasing lsid sid k) e (.internal i)
        (.tearing .dropping lsid sid k) { e with cmdMu := none }
  | close {lsid k} {e} :
      EntryStep i sid (.tearing .closing lsid sid k) e (.internal i) (.sweeping k) { e with done := true }

/-- The session may be claimed: it is not yet, and it was last used before the cutoff. -/
def claimable {ι : Type} (e : SessionEntry ι) (cutoff : Option Int) : Prop :=
  e.terminating = none ∧ ∀ idleBefore, cutoff = some idleBefore → e.lastUsed < idleBefore

section
variable {ι : Type} [DecidableEq ι] (timeout : Int)

inductive RegistryStep : SessionRegistry ι → RegistryEvent ι → SessionRegistry ι → Prop where
  | entry {s} {sid e event p e'} (i : ι) : s.heap sid = some e → EntryStep i sid (s.procs i) e event p e' →
      RegistryStep s event ((s.turn i p).put sid e')
  | tick {s} (clock : Int) : s.clock ≤ clock → RegistryStep s .ticks { s with clock := clock }
  -- calls
  | connect {s} (i lsid) : s.procs i = .idle → RegistryStep s (.connects i lsid) (s.turn i (.connecting lsid))
  | use {s} {e} (i sid) (now : Int) : s.procs i = .idle → s.heap sid = some e →
      RegistryStep s (.uses i sid now) (s.turn i (.running .entering sid now))
  | purge {s} (i lsid) : s.procs i = .idle → RegistryStep s (.purges i lsid) (s.turn i (.sweeping ⟨none, [lsid]⟩))
  -- Connect
  | create {s} {lsid} (i sid) : s.procs i = .connecting lsid → s.sessions lsid = none → s.heap sid = none →
      RegistryStep s (.returns i sid)
        { (s.turn i .idle).put sid (newEntry lsid s.clock) with sessions := Function.update s.sessions lsid (some sid) }
  | factoryFails {s} {lsid} (i) : s.procs i = .connecting lsid → s.sessions lsid = none →
      RegistryStep s (.connectFails i) (s.turn i .idle)
  | share {s} {lsid sid e} (i) : s.procs i = .connecting lsid → s.sessions lsid = some sid → s.heap sid = some e →
      e.terminating = none → RegistryStep s (.returns i sid) (s.turn i .idle)
  | await {s} {lsid sid e} (i) : s.procs i = .connecting lsid → s.sessions lsid = some sid → s.heap sid = some e →
      e.terminating ≠ none → RegistryStep s (.internal i) (s.turn i (.awaiting lsid sid))
  -- End
  | mark {s} {sid e} (i lsid) : s.sessions lsid = some sid → s.heap sid = some e → e.terminating = none →
      RegistryStep s (.ends i lsid) (s.put sid { e with lastUsed := 0 })
  -- Sweep and PurgeNow
  | sweep {s} (i) (asOf : Int) (eligible : List Bytes) : s.procs i = .idle →
      (∀ lsid, lsid ∈ eligible ↔ ∃ sid e, s.sessions lsid = some sid ∧ s.heap sid = some e ∧
        claimable e (some (asOf - timeout))) →
      RegistryStep s (.sweeps i (asOf - timeout)) (s.turn i (.sweeping ⟨some (asOf - timeout), eligible⟩))
  | claim {s} {cutoff lsid rest sid e} (i) : s.procs i = .sweeping ⟨cutoff, lsid :: rest⟩ →
      s.sessions lsid = some sid → s.heap sid = some e → claimable e cutoff →
      RegistryStep s (.claims i sid cutoff)
        ((s.turn i (.tearing .latching lsid sid ⟨cutoff, rest⟩)).put sid { e with terminating := some i })
  | skip {s} {cutoff lsid rest} (i) : s.procs i = .sweeping ⟨cutoff, lsid :: rest⟩ →
      (∀ sid e, s.sessions lsid = some sid → s.heap sid = some e → ¬claimable e cutoff) →
      RegistryStep s (.internal i) (s.turn i (.sweeping ⟨cutoff, rest⟩))
  | swept {s} {cutoff} (i) : s.procs i = .sweeping ⟨cutoff, []⟩ → RegistryStep s (.internal i) (s.turn i .idle)
  | drop {s} {lsid sid k} (i) : s.procs i = .tearing .dropping lsid sid k →
      RegistryStep s (.internal i)
        { s.turn i (.tearing .closing lsid sid k) with sessions := Function.update s.sessions lsid none }

end

end DumboDB.Sqlctx
