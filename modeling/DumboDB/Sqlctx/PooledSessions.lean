import DumboDB.Sqlctx.SessionLifecycle

/-!
Pooled connections over the session registry, and which sessions a sweep may end. A connection sends
every command through the session that the command names, and keeps the last one it used.
-/

namespace DumboDB.Sqlctx
open Foundation ByteOrder Transition Function List

structure Frame where
  key : Bytes
  mayReconnect : Bool

/-- Where `dispatchThroughSession` stands; `again` is its second try after a reaped session. -/
inductive Stage where
  | ready
  | choosing (f : Frame)
  | connecting (f : Frame) (again : Bool)
  | checking (f : Frame) (sid : Nat)
  | calling (f : Frame) (sid : Nat) (again : Bool)
  | running (f : Frame) (sid : Nat) (again invalidated : Bool)

structure Conn where
  cached : Option (Bytes × Nat)
  stage : Stage

section
variable {ι : Type}

/-- The session was reaped, and a command outside a transaction may go on with a new one. -/
def Frame.staleReap (f : Frame) (e : SessionEntry ι) : Bool := !e.active && e.purged && f.mayReconnect

/-- The steps of a connection that leave the registry as it is. -/
inductive ConnStep (i : ι) (r : SessionRegistry ι) : Conn → Conn → Prop where
  | arrives {cached} (f) : r.procs i = .idle → ConnStep i r ⟨cached, .ready⟩ ⟨cached, .choosing f⟩
  | first {f} : ConnStep i r ⟨none, .choosing f⟩ ⟨none, .connecting f false⟩
  | keeps {f sid e} : r.heap sid = some e → f.staleReap e = false →
      ConnStep i r ⟨some (f.key, sid), .choosing f⟩ ⟨some (f.key, sid), .checking f sid⟩
  | renews {f sid e} : r.heap sid = some e → f.staleReap e = true →
      ConnStep i r ⟨some (f.key, sid), .choosing f⟩ ⟨some (f.key, sid), .connecting f false⟩
  | leavesNone {f old sid} : old ≠ f.key →
      (∀ sid e, r.sessions old = some sid → r.heap sid = some e → e.terminating ≠ none) →
      ConnStep i r ⟨some (old, sid), .choosing f⟩ ⟨some (old, sid), .connecting f false⟩
  | active {cached f sid e} : r.heap sid = some e → e.active = true →
      ConnStep i r ⟨cached, .checking f sid⟩ ⟨cached, .calling f sid false⟩
  | gone {cached f sid e} : r.heap sid = some e → e.active = false →
        ConnStep i r ⟨cached, .checking f sid⟩ ⟨cached, .ready⟩
  | replays {cached f sid} : r.procs i = .idle →
      ConnStep i r ⟨cached, .running f sid false false⟩ ⟨cached, .calling f sid false⟩
  | reconnects {cached f sid} : r.procs i = .idle → f.mayReconnect = true →
      ConnStep i r ⟨cached, .running f sid false true⟩ ⟨cached, .connecting f true⟩
  | finishes {cached f sid again invalidated} : r.procs i = .idle →
      (invalidated = true → again = true ∨ f.mayReconnect = false) →
      ConnStep i r ⟨cached, .running f sid again invalidated⟩ ⟨cached, .ready⟩

/-- The calls of a connection into the registry and their results. -/
inductive ConnCall (i : ι) (clock : Int) : Conn → RegistryEvent ι → Conn → Prop where
  | leaves {f old sid} : old ≠ f.key →
      ConnCall i clock ⟨some (old, sid), .choosing f⟩ (.ends i old) ⟨some (old, sid), .connecting f false⟩
  | connects {cached f again} :
      ConnCall i clock ⟨cached, .connecting f again⟩ (.connects i f.key) ⟨cached, .connecting f again⟩
  | fails {cached f again} : ConnCall i clock ⟨cached, .connecting f again⟩ (.connectFails i) ⟨cached, .ready⟩
  | connected {cached f sid} :
      ConnCall i clock ⟨cached, .connecting f false⟩ (.returns i sid) ⟨some (f.key, sid), .checking f sid⟩
  | reconnected {cached f sid} :
      ConnCall i clock ⟨cached, .connecting f true⟩ (.returns i sid) ⟨some (f.key, sid), .calling f sid true⟩
  | uses {cached f sid again} :
      ConnCall i clock ⟨cached, .calling f sid again⟩ (.uses i sid clock) ⟨cached, .running f sid again false⟩
  | invalidated {cached f sid again} :
      ConnCall i clock ⟨cached, .running f sid again false⟩ (.invalidated i sid) ⟨cached, .running f sid again true⟩

/-- What goes on inside the registry, with no part of a connection. -/
def RegistryEvent.inner : RegistryEvent ι → Bool
  | .internal _ | .stamps .. | .commandBegin .. | .commandEnd .. | .claims .. | .sessionEnd .. | .ticks => true
  | _ => false

end

/-- The registry and the connections. `began` and `last` are history: when the commands of a session
began, and for the last use of it when it was asked for and when it was under way. -/
structure Pool (ι : Type) where
  registry : SessionRegistry ι
  conns : ι → Conn
  began : Nat → List Int
  last : Nat → Option (Int × Int)

def Pool.start (ι : Type) (clock : Int) : Pool ι :=
  ⟨NewSessionRegistry ι clock, fun _ => ⟨none, .ready⟩, fun _ => [], fun _ => none⟩

def Pool.record {ι : Type} (s : Pool ι) (r : SessionRegistry ι) : RegistryEvent ι → Pool ι
  | .stamps _ sid now =>
    { s with registry := r, last := Function.update s.last sid (some (now, s.registry.clock)) }
  | .commandBegin _ sid now =>
    { s with
      registry := r
      last := Function.update s.last sid (some (now, s.registry.clock))
      began := Function.update s.began sid (s.registry.clock :: s.began sid) }
  | _ => { s with registry := r }

section
variable {ι : Type} [DecidableEq ι] (timeout : Int)

def Pool.turn (s : Pool ι) (i : ι) (c : Conn) : Pool ι := { s with conns := Function.update s.conns i c }

inductive PoolStep : Pool ι → RegistryEvent ι → Pool ι → Prop where
  | conn {s} {c} (i) : ConnStep i s.registry (s.conns i) c → PoolStep s (.internal i) (s.turn i c)
  | call {s} {event r c} (i) : RegistryStep timeout s.registry event r →
        ConnCall i s.registry.clock (s.conns i) event c →
      PoolStep s event ((s.record r event).turn i c)
  | inner {s} {event r} : RegistryStep timeout s.registry event r → event.inner = true →
        PoolStep s event (s.record r event)
  | sweep {s} {cutoff r} (i) : RegistryStep timeout s.registry (.sweeps i cutoff) r → (s.conns i).stage = .ready →
      PoolStep s (.sweeps i cutoff) (s.record r (.sweeps i cutoff))

end

/-- A command begins only in an unclaimed session; and when a sweep claims a session, no connection
has marked it after a command, and its last use was not asked for before the cutoff and under way
only after it. -/
def Pool.Prompt {ι : Type} (s : Pool ι) : RegistryEvent ι → Prop
  | .commandBegin _ sid _ => ∀ e, s.registry.heap sid = some e → e.terminating = none
  | .claims _ sid (some cutoff) =>
    (∀ e, s.registry.heap sid = some e → e.lastUsed = 0 → s.began sid = []) ∧
    ∀ asked at_, s.last sid = some (asked, at_) → asked < cutoff → at_ < cutoff
  | _ => True

/-! What a step of the registry does to times and phases. -/

variable {now : Int} {sid : Nat}

section
variable {ι : Type} {i : ι} {sid : Nat} {p q : Proc} {e e' : SessionEntry ι} {event : RegistryEvent ι} {other : Nat}

theorem EntryStep.lastUsed (stepped : EntryStep i sid p e event q e') :
    e'.lastUsed = e.lastUsed ∨ ∃ now, event = .stamps i sid now ∧ e'.lastUsed = now := by
  cases stepped with
  | @stamp now => exact .inr ⟨now, rfl, rfl⟩
  | _ => exact .inl rfl

theorem EntryStep.beginning
    (stepped : EntryStep i sid p e event (.running .beginning other now) e') : event = .stamps i other now := by
  cases stepped
  rfl

theorem EntryStep.before {phase : TearPhase} {lsid : Bytes} {k : Sweeping}
    (stepped : EntryStep i sid p e event (.tearing phase lsid other k) e') (before : phase.before = true) :
    ∃ earlier, p = .tearing earlier lsid other k ∧ earlier.before = true := by
  cases stepped <;> first | exact ⟨_, rfl, rfl⟩ | cases before

theorem EntryStep.stamps {j : ι} (stepped : EntryStep i sid p e (.stamps j other now) q e') :
    j = i ∧ other = sid ∧ p = .running .stamping sid now ∧ q = .running .beginning sid now ∧
      e' = { e with lastUsed := now } := by
  cases stepped
  exact ⟨rfl, rfl, rfl, rfl, rfl⟩

variable [DecidableEq ι] {timeout : Int} {s t : SessionRegistry ι}

section

variable (stepped : RegistryStep timeout s event t)
include stepped

theorem RegistryStep.clock : s.clock ≤ t.clock := by
  cases stepped with
  | tick _ later => exact later
  | _ => exact le_rfl

theorem RegistryStep.lastUsed : ∀ other e', t.heap other = some e' →
    s.heap other = none ∨ (∃ e, s.heap other = some e ∧ (e'.lastUsed = e.lastUsed ∨ e'.lastUsed = 0)) ∨
      ∃ i now, event = .stamps i other now ∧ e'.lastUsed = now := by
  have same : ∀ other e', s.heap other = some e' → s.heap other = none ∨
      (∃ e, s.heap other = some e ∧ (e'.lastUsed = e.lastUsed ∨ e'.lastUsed = 0)) ∨
      ∃ i now, event = .stamps i other now ∧ e'.lastUsed = now := fun _ e held => .inr (.inl ⟨e, held, .inl rfl⟩)
  cases stepped with
  | entry i held stepped =>
    refine SessionRegistry.put_rule ?_ fun other e' _ held => same other e' held
    rcases stepped.lastUsed with kept | ⟨now, stamped, at_⟩
    · exact .inr (.inl ⟨_, held, .inl kept⟩)
    · exact .inr (.inr ⟨i, now, stamped, at_⟩)
  | create i _ at_ _ fresh => exact SessionRegistry.put_rule (.inl fresh) fun other e' _ held => same other e' held
  | mark i _ mapped held _ =>
    exact SessionRegistry.put_rule (.inr (.inl ⟨_, held, .inr rfl⟩)) fun other e' _ held => same other e' held
  | claim i at_ mapped held _ =>
    exact SessionRegistry.put_rule (.inr (.inl ⟨_, held, .inl rfl⟩)) fun other e' _ held => same other e' held
  | _ => exact same

theorem RegistryStep.beginning : ∀ j sid now,
    t.procs j = .running .beginning sid now → s.procs j = .running .beginning sid now ∨
      event = .stamps j sid now := by
  refine stepped.procs_rule (P := fun j q => ∀ sid now, q = .running .beginning sid now →
    s.procs j = .running .beginning sid now ∨ event = .stamps j sid now) (fun _ _ _ => .inl) ?_ ?_ ?_ ?_
  · rintro i _ e p _ - stepped sid now rfl
    exact .inr stepped.beginning
  · rintro i p quiet sid now rfl
    cases quiet
  · exact fun _ _ _ _ _ _ _ _ _ _ => nofun
  · exact fun _ _ _ _ _ _ => nofun

theorem RegistryStep.before : ∀ j phase lsid sid k, t.procs j = .tearing phase lsid sid k → phase.before = true →
    (∃ earlier, s.procs j = .tearing earlier lsid sid k ∧ earlier.before = true) ∨
      event = .claims j sid k.cutoff ∧ ∃ e, s.heap sid = some e ∧ claimable e k.cutoff := by
  refine stepped.procs_rule (P := fun j q => ∀ phase lsid sid k, q = .tearing phase lsid sid k → phase.before = true →
    (∃ earlier, s.procs j = .tearing earlier lsid sid k ∧ earlier.before = true) ∨
      event = .claims j sid k.cutoff ∧ ∃ e, s.heap sid = some e ∧ claimable e k.cutoff)
    (fun _ phase _ _ _ at_ before => .inl ⟨phase, at_, before⟩) ?_ ?_ ?_ ?_
  · rintro i _ e p _ - stepped phase lsid sid k rfl before
    exact .inl (stepped.before before)
  · rintro i p quiet phase lsid sid k rfl
    cases quiet
  · rintro i lsid sid e k claimed held free phase lsid' sid' k' ⟨⟩ -
    exact .inr ⟨claimed, e, held, free⟩
  · rintro i lsid sid k phase lsid' sid' k' ⟨⟩ before
    cases before

end

theorem RegistryStep.stamps (stepped : RegistryStep timeout s (.stamps i sid now) t) :
    s.procs i = .running .stamping sid now ∧ ∃ e, s.heap sid = some e ∧
      t = (s.turn i (.running .beginning sid now)).put sid { e with lastUsed := now } := by
  cases stepped with
  | entry j held stepped =>
    obtain ⟨rfl, rfl, at_, rfl, rfl⟩ := stepped.stamps
    exact ⟨at_, _, held, rfl⟩

end

/-! The times of the commands. -/

/-- The time of a session is the one its last use was asked for, unless a connection has marked it;
and what a sweep has claimed has been idle since its cutoff. -/
structure Timely {ι : Type} (s : Pool ι) : Prop where
  sound : Sound s.registry
  fresh : ∀ sid, s.registry.heap sid = none → s.last sid = none
  unused : ∀ sid, s.last sid = none → s.began sid = []
  bounded : ∀ sid asked at_, s.last sid = some (asked, at_) → at_ ≤ s.registry.clock ∧ ∀ b ∈ s.began sid, b ≤ at_
  stamped : ∀ sid e, s.registry.heap sid = some e →
    e.lastUsed = 0 ∨ s.last sid = none ∨ ∃ at_, s.last sid = some (e.lastUsed, at_)
  beginning : ∀ i sid now e, s.registry.procs i = .running .beginning sid now → s.registry.heap sid = some e →
    e.lastUsed = 0 ∨ e.lastUsed = now
  reaped : ∀ i phase lsid sid cutoff rest, s.registry.procs i = .tearing phase lsid sid ⟨some cutoff, rest⟩ →
    phase.before = true → ∀ b ∈ s.began sid, b < cutoff

theorem timely_start {ι : Type} (clock : Int) : Timely (Pool.start ι clock) where
  sound := sound_start clock
  fresh _ _ := rfl
  unused _ _ := rfl
  bounded _ _ _ held := nomatch held
  stamped _ _ held := nomatch held
  beginning _ _ _ _ at_ := nomatch at_
  reaped _ _ _ _ _ _ at_ := nomatch at_

section
variable {ι : Type} {s : Pool ι} {i : ι}

theorem Timely.began_le (timely : Timely s) : ∀ b ∈ s.began sid, b ≤ s.registry.clock := by
  intro b member
  cases last : s.last sid with
  | none => exact nomatch timely.unused sid last ▸ member
  | some pair =>
    obtain ⟨now, all⟩ := timely.bounded sid pair.1 pair.2 last
    exact (all b member).trans now

theorem Timely.idle (timely : Timely s) {e : SessionEntry ι} {cutoff : Int}
    (prompt : s.Prompt (.claims i sid (some cutoff))) (held : s.registry.heap sid = some e)
    (free : claimable e (some cutoff)) : ∀ b ∈ s.began sid, b < cutoff := by
  intro b member
  rcases timely.stamped sid e held with marked | never | ⟨_, last⟩
  · exact nomatch prompt.1 e held marked ▸ member
  · exact nomatch timely.unused sid never ▸ member
  · exact ((timely.bounded sid _ _ last).2 b member).trans_lt (prompt.2 _ _ last (free.2 cutoff rfl))

variable [DecidableEq ι] {timeout clock : Int} {t : Pool ι} {r : SessionRegistry ι} {event : RegistryEvent ι}

section

variable (timely : Timely s)
include timely

theorem timely_plain (stepped : RegistryStep timeout s.registry event r) (prompt : s.Prompt event)
    (noStamp : ∀ i sid now, event ≠ .stamps i sid now) : Timely { s with registry := r } := by
  have grows : ∀ sid, r.heap sid = none → s.registry.heap sid = none := fun sid none_ =>
    Classical.byContradiction fun held => stepped.known held none_
  refine ⟨sound_step timely.sound stepped, fun sid none_ => timely.fresh sid (grows sid none_),
    timely.unused, ?_, ?_, ?_, ?_⟩
  · intro sid asked at_ last
    obtain ⟨now, all⟩ := timely.bounded sid asked at_ last
    exact ⟨now.trans stepped.clock, all⟩
  · intro sid e' held'
    rcases stepped.lastUsed sid e' held' with none_ | ⟨e, held, same | marked⟩ | ⟨i, now, is, -⟩
    · exact .inr (.inl (timely.fresh sid none_))
    · rw [same]
      exact timely.stamped sid e held
    · exact .inl marked
    · exact absurd is (noStamp i sid now)
  · intro i sid now e' at_ held'
    have was := (stepped.beginning i sid now at_).resolve_right (noStamp i sid now)
    rcases stepped.lastUsed sid e' held' with none_ | ⟨e, held, same | marked⟩ | ⟨j, now, is, -⟩
    · exact absurd none_ (timely.sound.known i sid (was ▸ rfl))
    · rw [same]
      exact timely.beginning i sid now e was held
    · exact .inl marked
    · exact absurd is (noStamp j sid now)
  · intro i phase lsid sid cutoff rest at_ before
    rcases stepped.before i phase lsid sid _ at_ before with ⟨earlier, was, early⟩ | ⟨rfl, e, held, free⟩
    · exact timely.reaped i earlier lsid sid cutoff rest was early
    · exact timely.idle prompt held free

theorem timely_used (stepped : RegistryStep timeout s.registry event r) (now : Int)
    (began : List Int) (known : s.registry.heap sid ≠ none)
    (only : ∀ i other now', event = .stamps i other now' → other = sid)
    (here : ∀ e, r.heap sid = some e → e.lastUsed = 0 ∨ e.lastUsed = now)
    (alone : ∀ i now', r.procs i = .running .beginning sid now' → now' = now)
    (past : ∀ b ∈ began, b ≤ s.registry.clock)
    (elsewhere : ∀ i other cutoff, event ≠ .claims i other cutoff)
    (reaped : ∀ i phase lsid cutoff rest, s.registry.procs i = .tearing phase lsid sid ⟨some cutoff, rest⟩ →
      phase.before = true → ∀ b ∈ began, b < cutoff) :
    Timely { s with
      registry := r
      last := update s.last sid (some (now, s.registry.clock))
      began := update s.began sid began } := by
  refine ⟨sound_step timely.sound stepped, ?_, ?_, ?_, ?_, ?_, ?_⟩ <;> dsimp only
  · intro other none_
    have was : s.registry.heap other = none := Classical.byContradiction fun held => stepped.known held none_
    have apart : other ≠ sid := fun same => known (same ▸ was)
    exact (update_of_ne apart ..).trans (timely.fresh other was)
  · intro other never
    by_cases same : other = sid
    · subst same
      exact nomatch (update_self ..).symm.trans never
    · rw [update_of_ne same] at never ⊢
      exact timely.unused other never
  · intro other asked at_ last
    by_cases same : other = sid
    · subst same
      rw [update_self] at last ⊢
      cases last
      exact ⟨stepped.clock, past⟩
    · rw [update_of_ne same] at last ⊢
      obtain ⟨now, all⟩ := timely.bounded other asked at_ last
      exact ⟨now.trans stepped.clock, all⟩
  · intro other e held
    by_cases same : other = sid
    · subst same
      rw [update_self]
      exact (here e held).imp id fun at_ => .inr ⟨_, by rw [at_]⟩
    · rw [update_of_ne same]
      rcases stepped.lastUsed other e held with none_ | ⟨d, held, kept | marked⟩ | ⟨i, now, is, -⟩
      · exact .inr (.inl (timely.fresh other none_))
      · rw [kept]
        exact timely.stamped other d held
      · exact .inl marked
      · exact absurd (only i other now is) same
  · intro i other now' e at_ held
    by_cases same : other = sid
    · subst same
      rw [alone i now' at_]
      exact here e held
    · have was := (stepped.beginning i other now' at_).resolve_right fun is => same (only i other now' is)
      rcases stepped.lastUsed other e held with none_ | ⟨d, held, kept | marked⟩ | ⟨j, now, is, -⟩
      · exact absurd none_ (timely.sound.known i other (was ▸ rfl))
      · rw [kept]
        exact timely.beginning i other now' d was held
      · exact .inl marked
      · exact absurd (only j other now is) same
  · intro i phase lsid other cutoff rest at_ before
    rcases stepped.before i phase lsid other _ at_ before with ⟨earlier, was, early⟩ | ⟨is, -⟩
    · by_cases same : other = sid
      · subst same
        rw [update_self]
        exact reaped i earlier lsid cutoff rest was early
      · rw [update_of_ne same]
        exact timely.reaped i earlier lsid other cutoff rest was early
    · exact absurd is (elsewhere i other _)

theorem timely_stamp (stepped : RegistryStep timeout s.registry (.stamps i sid now) r) :
    Timely (s.record r (.stamps i sid now)) := by
  obtain ⟨at_, e, held, rfl⟩ := stepped.stamps
  have used := timely_used timely stepped now (s.began sid) (Option.ne_none_iff_exists'.mpr ⟨e,
    held⟩) ?_ ?_ ?_ timely.began_le nofun ?_
  · rw [update_eq_self] at used
    exact used
  · rintro j _ now' ⟨⟩
    rfl
  · intro _ here
    cases (SessionRegistry.heap_put_self ..).symm.trans here
    exact .inr rfl
  · intro j now' beginning
    rcases stepped.beginning j sid now' beginning with was | is
    · cases timely.sound.latched_unique at_ was rfl rfl
      exact nomatch at_.symm.trans was
    · cases is
      rfl
  · exact fun j phase lsid cutoff rest => timely.reaped j phase lsid sid cutoff rest

theorem timely_begin (stepped : RegistryStep timeout s.registry (.commandBegin i sid now) r)
    (prompt : s.Prompt (.commandBegin i sid now)) :
    Timely (s.record r (.commandBegin i sid now)) := by
  obtain ⟨at_, e, held, rfl⟩ := stepped.begins
  refine timely_used timely stepped now _ (Option.ne_none_iff_exists'.mpr ⟨e, held⟩) nofun ?_ ?_ ?_ nofun ?_
  · intro _ here
    cases (SessionRegistry.heap_put_self ..).symm.trans here
    exact timely.beginning i sid now e at_ held
  · intro j now' beginning
    have was := (stepped.beginning j sid now' beginning).resolve_right nofun
    cases timely.sound.latched_unique at_ was rfl rfl
    cases at_.symm.trans was
    rfl
  · intro b member
    rcases mem_cons.mp member with rfl | earlier
    · exact le_rfl
    · exact timely.began_le b earlier
  · intro j _ _ _ _ tearing
    have claimed := ((timely.sound.related j sid e held).1 (tearing ▸ rfl)).claimed _ _ _ _ tearing
    cases (prompt e held).symm.trans claimed.1

theorem timely_record (stepped : RegistryStep timeout s.registry event r) (prompt : s.Prompt event) :
    Timely (s.record r event) := by
  cases event with
  | stamps i sid now => exact timely_stamp timely stepped
  | commandBegin i sid now => exact timely_begin timely stepped prompt
  | _ => exact timely_plain timely stepped prompt nofun

theorem timely_turn (i : ι) (c : Conn) : Timely (s.turn i c) :=
  ⟨timely.sound, timely.fresh, timely.unused, timely.bounded, timely.stamped, timely.beginning, timely.reaped⟩

theorem timely_step (stepped : PoolStep timeout s event t) (prompt : s.Prompt event) : Timely t := by
  cases stepped with
  | conn i stepped => exact timely_turn timely i _
  | call i stepped _ => exact timely_turn (timely_record timely stepped prompt) i _
  | inner stepped inner
  | sweep i stepped _ => exact timely_record timely stepped prompt

end

/-- Over every run that is prompt, a sweep ends only a session all of whose commands began before
its cutoff. -/
theorem sweep_ends_idle {events : List (RegistryEvent ι)}
    (run : Run (Guarded Pool.Prompt (PoolStep timeout)) (Pool.start ι clock) events s) {i : ι}
    {lsid : Bytes} {sid : Nat}
    {cutoff : Int} {rest : List Bytes} (ending : s.registry.procs i = .tearing .ending lsid sid ⟨some cutoff, rest⟩) :
    ∀ b ∈ s.began sid, b < cutoff := by
  have timely : Timely s := run.invariant Timely (timely_start clock) fun s event t held stepped =>
    timely_step held stepped.2 stepped.1
  exact timely.reaped i .ending lsid sid cutoff rest ending rfl

end

/-! One connection and one sweep. -/

/-- The session `[1]` after its one command: when that was, its time, the clock and the connection. -/
def oneSession (at_ lastUsed clock : Int) (conn : Conn) : Pool Bool where
  registry := ⟨Function.update (fun _ => none) [1] (some 0),
    Function.update (fun _ => none) 0 (some { newEntry [1] at_ with lastUsed := lastUsed }), fun _ => .idle, clock⟩
  conns := Function.update (fun _ => ⟨none, .ready⟩) false conn
  began := Function.update (fun _ => []) 0 [at_]
  last := Function.update (fun _ => none) 0 (some (at_, at_))

section
variable {guard : Pool Bool → RegistryEvent Bool → Prop}

theorem served_runs (met : ∀ s event, s.Prompt event → guard s event) (clock : Int) :
    ∃ events, Run (Guarded guard (PoolStep 10)) (Pool.start Bool clock) events
      (oneSession clock clock clock ⟨some ([1], 0), .ready⟩) := by
  have start : Run (Guarded guard (PoolStep 10)) (Pool.start Bool clock) [] _ := .nil
  have chosen := (start.snocGuarded (.conn false (.arrives ⟨[1], false⟩ rfl)) (met _ _ trivial)).snocGuarded
    (.conn false .first) (met _ _ trivial)
  have called := (chosen.snocGuarded (.call false (.connect false [1] rfl) .connects) (met _ _ trivial)).snocGuarded
    (.call false (.create false 0 rfl rfl rfl) .connected) (met _ _ trivial)
  have entered := ((called.snocGuarded (.conn false (.active rfl rfl)) (met _ _ trivial)).snocGuarded
    (.call false (.use false 0 clock rfl rfl) .uses) (met _ _ trivial)).snocGuarded
    (.inner (.entry false rfl (.enter rfl)) rfl) (met _ _ trivial)
  have latched := (entered.snocGuarded (.inner (.entry false rfl (.latch rfl)) rfl) (met _ _ trivial)).snocGuarded
    (.inner (.entry false rfl (.recheck rfl)) rfl) (met _ _ trivial)
  have begun := (latched.snocGuarded (.inner (.entry false rfl .stamp) rfl) (met _ _ trivial)).snocGuarded
    (.inner (.entry false rfl .begin_) rfl) (met _ _ fun e held => by cases held; rfl)
  have left := (begun.snocGuarded (.inner (.entry false rfl .finish) rfl) (met _ _ trivial)).snocGuarded
    (.inner (.entry false rfl .leave) rfl) (met _ _ trivial)
  have finished := left.snocGuarded (.conn false (.finishes rfl nofun)) (met _ _ trivial)
  suffices same : ∃ events s, Run (Guarded guard (PoolStep 10)) (Pool.start Bool clock) events s ∧
      s = oneSession clock clock clock ⟨some ([1], 0), .ready⟩ by
    obtain ⟨events, s, run, rfl⟩ := same
    exact ⟨events, run⟩
  refine ⟨_, _, finished, ?_⟩
  simp only [Pool.turn, Pool.record, SessionRegistry.put, SessionRegistry.turn, Pool.start, NewSessionRegistry,
    update_idem, oneSession]
  congr 2
  funext i
  cases i <;> rfl

theorem swept_runs (met : ∀ s event, s.Prompt event → guard s event) {first : Int}
    {events : List (RegistryEvent Bool)}
    {at_ lastUsed clock : Int} {conn : Conn}
    (run : Run (Guarded guard (PoolStep 10)) (Pool.start Bool first) events (oneSession at_ lastUsed clock conn))
    (old : lastUsed < 10) (prompt : ∀ procs, guard ⟨⟨(oneSession at_ lastUsed clock conn).registry.sessions,
        (oneSession at_ lastUsed clock conn).registry.heap, procs, clock⟩, (oneSession at_ lastUsed clock conn).conns,
        (oneSession at_ lastUsed clock conn).began,
          (oneSession at_ lastUsed clock conn).last⟩ (.claims true 0 (some 10))) :
    ∃ events s, Run (Guarded guard (PoolStep 10)) (Pool.start Bool first) events s ∧
      s.registry.procs true = .tearing .ending [1] 0 ⟨some 10, []⟩ ∧ at_ ∈ s.began 0 := by
  have free : claimable { newEntry (ι := Bool) [1] at_ with lastUsed := lastUsed } (some 10) := by
    refine ⟨rfl, fun cutoff same => ?_⟩
    cases same
    exact old
  have started := run.snocGuarded (.sweep true (.sweep true 20 [[1]] rfl ?_) rfl) (met _ _ trivial)
  · have claimed := started.snocGuarded (.inner (.claim true rfl rfl rfl free) rfl) (prompt _)
    have latched := claimed.snocGuarded (.inner (.entry true rfl (.tearLatch rfl)) rfl) (met _ _ trivial)
    have purged := latched.snocGuarded (.inner (.entry true rfl .purge) rfl) (met _ _ trivial)
    have ending := purged.snocGuarded (.inner (.entry true rfl .deactivate) rfl) (met _ _ trivial)
    exact ⟨_, _, ending, rfl, mem_singleton_self at_⟩
  · intro lsid
    rw [mem_singleton]
    constructor
    · rintro rfl
      exact ⟨0, _, rfl, rfl, free⟩
    · rintro ⟨_, e, mapped, -⟩
      by_contra apart
      have absent : (oneSession at_ lastUsed clock conn).registry.sessions lsid = none := dif_neg apart
      exact nomatch absent.symm.trans mapped

end

/-- A connection runs a command of one session and turns to another one: the sweep at the same
moment ends the session of the command, which began after the cutoff. -/
theorem left_session_reaped : ∃ events s, Run (PoolStep 10) (Pool.start Bool 20) events s ∧
    s.registry.procs true = .tearing .ending [1] 0 ⟨some 10, []⟩ ∧ 20 ∈ s.began 0 := by
  obtain ⟨events, run⟩ := @served_runs (fun _ _ => True) (fun _ _ _ => trivial) 20
  have left := (run.snocGuarded (.conn false (.arrives ⟨[2], true⟩ rfl)) trivial).snocGuarded
    (.call false (.mark false [1] rfl rfl rfl) (.leaves (by decide))) trivial
  suffices same : ∃ events s, Run (Guarded (fun _ _ => True) (PoolStep 10)) (Pool.start Bool 20) events s ∧
      s = oneSession 20 0 20 ⟨some ([1], 0), .connecting ⟨[2], true⟩ false⟩ by
    obtain ⟨events, s, run, rfl⟩ := same
    obtain ⟨events, s, run, ending⟩ := swept_runs (fun _ _ _ => trivial) run (by decide) fun _ => trivial
    exact ⟨events, s, run.unguarded, ending⟩
  refine ⟨_, _, left, ?_⟩
  simp [Pool.turn, Pool.record, SessionRegistry.put, oneSession]

/-- A session whose only command began before the cutoff is ended by a prompt run. -/
theorem idle_session_reaped : ∃ events s,
    Run (Guarded Pool.Prompt (PoolStep 10)) (Pool.start Bool 1) events s ∧ 1 ∈ s.began 0 ∧
      ∀ b ∈ s.began 0, b < 10 := by
  obtain ⟨events, run⟩ := @served_runs Pool.Prompt (fun _ _ => id) 1
  have later : Run (Guarded Pool.Prompt (PoolStep 10)) (Pool.start Bool 1) _
    (oneSession 1 1 20 ⟨some ([1], 0), .ready⟩) :=
    run.snocGuarded (.inner (.tick 20 (by decide)) rfl) trivial
  obtain ⟨events, s, run, ending, began⟩ := swept_runs (fun _ _ => id) later (by decide) fun _ => by
    refine ⟨fun e held marked => ?_, fun asked at_ last _ => ?_⟩
    · cases held
      exact absurd marked (by decide)
    · cases last
      decide
  exact ⟨events, s, run, began, sweep_ends_idle run ending⟩

end DumboDB.Sqlctx
