import DumboDB.Sqlctx.SessionRegistry

/-!
The life of a session over every interleaving: one live session for an id, commands one after
another, one end outside of commands, and no command after it.
-/

namespace DumboDB.Sqlctx
open Foundation ByteOrder Transition Function

/-! What a goroutine relies on. -/

def Proc.target : Proc → Option Nat
  | .awaiting _ sid => some sid
  | .running _ sid _ => some sid
  | .tearing _ _ sid _ => some sid
  | _ => none

def RunPhase.latched? : RunPhase → Bool
  | .entering | .queued => false
  | _ => true

def TearPhase.latched? : TearPhase → Bool
  | .purging | .deactivating | .ending | .releasing => true
  | _ => false

def Proc.latched? : Proc → Bool
  | .running phase _ _ => phase.latched?
  | .tearing phase _ _ _ => phase.latched?
  | _ => false

/-- The goroutine has found the shadow active under the latch. -/
def Proc.trusted : Proc → Bool
  | .running .stamping _ _ | .running .beginning _ _ | .running .executing _ _ => true
  | _ => false

def Proc.executing : Proc → Bool
  | .running .executing _ _ => true
  | _ => false

def TearPhase.before : TearPhase → Bool
  | .latching | .purging | .deactivating | .ending => true
  | _ => false

def TearPhase.deactivated : TearPhase → Bool
  | .latching | .purging | .deactivating => false
  | _ => true

/-- What holds of the session that a goroutine works on. -/
structure Fits {ι : Type} (i : ι) (p : Proc) (e : SessionEntry ι) : Prop where
  latch : p.latched? = true ↔ e.cmdMu = some i
  trusted : p.trusted = true → e.active = true
  begun : p.latched? = true → e.begun = p.executing
  claimed : ∀ phase lsid sid k, p = .tearing phase lsid sid k →
    e.terminating = some i ∧ e.lsid = lsid ∧ e.ended = !phase.before ∧ (phase.deactivated = true → e.active = false)

structure EntryOk {ι : Type} (e : SessionEntry ι) : Prop where
  dead : e.ended = true → e.terminating ≠ none ∧ e.active = false
  free : e.cmdMu = none → e.begun = false

/-- What the other goroutines see of a step on a session. -/
structure Rely {ι : Type} (i : ι) (e e' : SessionEntry ι) : Prop where
  lsid : e'.lsid = e.lsid
  terminating : e'.terminating = e.terminating
  cmdMu : e'.cmdMu = e.cmdMu ∨ (e.cmdMu = none ∧ e'.cmdMu = some i) ∨ (e.cmdMu = some i ∧ e'.cmdMu = none)
  ended : e'.ended = e.ended ∨ e.terminating = some i
  unended : e'.ended = false → e.ended = false
  active : e'.active = e.active ∨ e.cmdMu = some i
  inactive : e.active = false → e'.active = false
  begun : e'.begun = e.begun ∨ e.cmdMu = some i

section
variable {ι : Type} {i j : ι} {sid : Nat} {p q : Proc} {e e' : SessionEntry ι} {event : RegistryEvent ι}

section

variable (stepped : EntryStep i sid p e event q e')
include stepped

theorem EntryStep.target : p.target = some sid ∧ (q.target = some sid ∨ q.target = none) := by
  cases stepped <;> first | exact ⟨rfl, .inl rfl⟩ | exact ⟨rfl, .inr rfl⟩

theorem EntryStep.rely (fits : Fits i p e) : Rely i e e' := by
  have latch := fits.latch
  have claimed := fits.claimed
  cases stepped with
  | latch free
  | tearLatch free => exact ⟨rfl, rfl, .inr (.inl ⟨free, rfl⟩), .inl rfl, id, .inl rfl, id, .inl rfl⟩
  | begin_
  | finish => exact ⟨rfl, rfl, .inl rfl, .inl rfl, id, .inl rfl, id, .inr (latch.mp rfl)⟩
  | leave
  | release => exact ⟨rfl, rfl, .inr (.inr ⟨latch.mp rfl, rfl⟩), .inl rfl, id, .inl rfl, id, .inl rfl⟩
  | deactivate => exact ⟨rfl, rfl, .inl rfl, .inl rfl, id, .inr (latch.mp rfl), fun _ => rfl, .inl rfl⟩
  | sessionEnd => exact ⟨rfl, rfl, .inl rfl, .inr (claimed _ _ _ _ rfl).1, nofun, .inl rfl, id, .inl rfl⟩
  | _ => exact ⟨rfl, rfl, .inl rfl, .inl rfl, id, .inl rfl, id, .inl rfl⟩

omit stepped in
theorem EntryStep.from_tearing {phase : TearPhase} {lsid : Bytes} {other : Nat} {k : Sweeping}
    (stepped : EntryStep i sid p e event (.tearing phase lsid other k) e') :
    ∃ earlier, p = .tearing earlier lsid other k ∧ earlier ≠ .closing := by
  cases stepped <;> exact ⟨_, rfl, nofun⟩

omit stepped in
theorem EntryStep.begins {j : ι} {other : Nat} {now : Int}
    (stepped : EntryStep i sid p e (.commandBegin j other now) q e') :
    j = i ∧ other = sid ∧ p = .running .beginning sid now ∧ q = .running .executing sid now ∧
      e' = { e with begun := true } := by
  cases stepped
  exact ⟨rfl, rfl, rfl, rfl, rfl⟩

theorem EntryStep.lsid : e'.lsid = e.lsid := by
  cases stepped <;> rfl

theorem EntryStep.ended (ended : e'.ended = true) : e.ended = true ∨ ∃ i, event = .sessionEnd i sid := by
  cases stepped with
  | sessionEnd => exact .inr ⟨i, rfl⟩
  | _ => exact .inl ended

omit stepped in
theorem Proc.target_of_latched (latched : p.latched? = true) : p.target ≠ none := by
  cases p with
  | running phase sid now
  | tearing phase lsid sid k => exact nofun
  | idle
  | connecting lsid
  | awaiting lsid sid
  | sweeping k => cases latched

omit stepped in
theorem Fits.other (fits : Fits j q e) (rely : Rely i e e') (apart : j ≠ i) : Fits j q e' := by
  have own : e.cmdMu = some j → e'.cmdMu = e.cmdMu ∧ e'.active = e.active ∧ e'.begun = e.begun := by
    intro held
    have notI : e.cmdMu ≠ some i := fun other => apart (Option.some.inj (held.symm.trans other))
    refine ⟨?_, rely.active.resolve_right notI, rely.begun.resolve_right notI⟩
    rcases rely.cmdMu with same | ⟨free, -⟩ | ⟨other, -⟩
    · exact same
    · rw [free] at held
      cases held
    · exact absurd other notI
  have latched : q.latched? = true → e.cmdMu = some j := fits.latch.mp
  constructor
  · constructor
    · intro holds
      rw [(own (latched holds)).1]
      exact latched holds
    · intro held
      rcases rely.cmdMu with same | ⟨-, taken⟩ | ⟨-, given⟩
      · exact fits.latch.mpr (same ▸ held)
      · exact absurd (Option.some.inj (held.symm.trans taken)) apart
      · rw [given] at held
        cases held
  · intro trusted
    have holds : q.latched? = true := by
      unfold Proc.trusted at trusted
      split at trusted <;> first | rfl | cases trusted
    rw [(own (latched holds)).2.1]
    exact fits.trusted trusted
  · intro holds
    rw [(own (latched holds)).2.2]
    exact fits.begun holds
  · intro phase lsid sid k same
    obtain ⟨claimed, id, ended, inactive⟩ := fits.claimed phase lsid sid k same
    have notI : e.terminating ≠ some i := fun other => apart (Option.some.inj (claimed.symm.trans other))
    rw [rely.terminating, rely.lsid, rely.ended.resolve_right notI]
    exact ⟨claimed, id, ended, fun deactivated => rely.inactive (inactive deactivated)⟩

omit stepped in
theorem Fits.tearing {phase : TearPhase} {lsid : Bytes} {k : Sweeping} (latch : phase.latched? = true ↔
    e.cmdMu = some i)
    (begun : phase.latched? = true → e.begun = false) (claimed : e.terminating = some i) (id : e.lsid = lsid)
    (ended : e.ended = !phase.before) (inactive : phase.deactivated = true → e.active = false) :
    Fits i (.tearing phase lsid sid k) e := by
  refine ⟨latch, nofun, begun, fun _ _ _ _ same => ?_⟩
  cases same
  exact ⟨claimed, id, ended, inactive⟩

theorem EntryStep.fits (fits : Fits i p e) (ok : EntryOk e) : Fits i q e' := by
  have latch := fits.latch
  have begun := fits.begun
  have trusted := fits.trusted
  have claimed := fits.claimed
  have unheld : p.latched? = false → e.cmdMu ≠ some i := fun out held => nomatch out.symm.trans (latch.mpr held)
  cases stepped with
  | resume closed
  | refuse inactive
  | enter active
  | close => exact ⟨⟨nofun, fun held => absurd held (unheld rfl)⟩, nofun, nofun, nofun⟩
  | latch free => exact ⟨⟨fun _ => rfl, fun _ => rfl⟩, nofun, fun _ => ok.free free, nofun⟩
  | retract inactive
  | beginFails => exact ⟨⟨fun _ => latch.mp rfl, fun _ => rfl⟩, nofun, fun _ => begun rfl, nofun⟩
  | recheck active => exact ⟨⟨fun _ => latch.mp rfl, fun _ => rfl⟩, fun _ => active, fun _ => begun rfl, nofun⟩
  | stamp => exact ⟨⟨fun _ => latch.mp rfl, fun _ => rfl⟩, fun _ => trusted rfl, fun _ => begun rfl, nofun⟩
  | begin_ => exact ⟨⟨fun _ => latch.mp rfl, fun _ => rfl⟩, fun _ => trusted rfl, fun _ => rfl, nofun⟩
  | finish => exact ⟨⟨fun _ => latch.mp rfl, fun _ => rfl⟩, nofun, fun _ => rfl, nofun⟩
  | leave => exact ⟨⟨nofun, nofun⟩, nofun, nofun, nofun⟩
  | tearLatch free =>
    obtain ⟨claim, id, ended, -⟩ := claimed _ _ _ _ rfl
    exact .tearing ⟨fun _ => rfl, fun _ => rfl⟩ (fun _ => ok.free free) claim id ended nofun
  | purge =>
    obtain ⟨claim, id, ended, -⟩ := claimed _ _ _ _ rfl
    exact .tearing ⟨fun _ => latch.mp rfl, fun _ => rfl⟩ (fun _ => begun rfl) claim id ended nofun
  | deactivate =>
    obtain ⟨claim, id, ended, -⟩ := claimed _ _ _ _ rfl
    exact .tearing ⟨fun _ => latch.mp rfl, fun _ => rfl⟩ (fun _ => begun rfl) claim id ended fun _ => rfl
  | sessionEnd =>
    obtain ⟨claim, id, -, inactive⟩ := claimed _ _ _ _ rfl
    exact .tearing ⟨fun _ => latch.mp rfl, fun _ => rfl⟩ (fun _ => begun rfl) claim id rfl fun _ => inactive rfl
  | release =>
    obtain ⟨claim, id, ended, inactive⟩ := claimed _ _ _ _ rfl
    exact .tearing ⟨nofun, nofun⟩ nofun claim id ended fun _ => inactive rfl

theorem EntryStep.ok (fits : Fits i p e) (ok : EntryOk e) : EntryOk e' := by
  have latch := fits.latch
  have begun := fits.begun
  have claimed := fits.claimed
  cases stepped with
  | latch free
  | tearLatch free => exact ⟨ok.dead, fun held => by cases held⟩
  | begin_ => exact ⟨ok.dead, fun free => by cases free.symm.trans (latch.mp rfl)⟩
  | finish => exact ⟨ok.dead, fun _ => rfl⟩
  | leave
  | release => exact ⟨ok.dead, fun _ => begun rfl⟩
  | deactivate => exact ⟨fun ended => ⟨(ok.dead ended).1, rfl⟩, ok.free⟩
  | sessionEnd =>
    obtain ⟨claim, -, -, inactive⟩ := claimed _ _ _ _ rfl
    exact ⟨fun _ => ⟨fun none_ => (by cases none_.symm.trans claim), inactive rfl⟩, ok.free⟩
  | _ => exact ⟨ok.dead, ok.free⟩

end

end

/-! The whole registry. -/

def Related {ι : Type} (i : ι) (p : Proc) (sid : Nat) (e : SessionEntry ι) : Prop :=
  (p.target = some sid → Fits i p e) ∧ (p.target ≠ some sid → e.cmdMu ≠ some i)

/-- The map has every session that has not ended, and a goroutine that still has to drop one finds
it there. -/
structure Sound {ι : Type} (s : SessionRegistry ι) : Prop where
  related : ∀ i sid e, s.heap sid = some e → Related i (s.procs i) sid e
  ok : ∀ sid e, s.heap sid = some e → EntryOk e
  known : ∀ i sid, (s.procs i).target = some sid → s.heap sid ≠ none
  mapped : ∀ lsid sid, s.sessions lsid = some sid → ∃ e, s.heap sid = some e ∧ e.lsid = lsid
  live : ∀ sid e, s.heap sid = some e → e.ended = false → s.sessions e.lsid = some sid
  undropped : ∀ i phase lsid sid k, s.procs i = .tearing phase lsid sid k → phase ≠ .closing →
    s.sessions lsid = some sid

theorem sound_start {ι : Type} (clock : Int) : Sound (NewSessionRegistry ι clock) where
  related _ _ _ held := nomatch held
  ok _ _ held := nomatch held
  known _ _ target := nomatch target
  mapped _ _ held := nomatch held
  live _ _ held := nomatch held
  undropped _ _ _ _ _ at_ := nomatch at_

section
variable {ι : Type} {s : SessionRegistry ι} {sid : Nat} {e e' : SessionEntry ι}

theorem SessionRegistry.put_rule {P : Nat → SessionEntry ι → Prop} (here : P sid e')
    (there : ∀ other d, other ≠ sid → s.heap other = some d → P other d) :
    ∀ other d, (s.put sid e').heap other = some d → P other d := by
  intro other d held
  by_cases same : other = sid
  · subst same
    cases (s.heap_put_self other e').symm.trans held
    exact here
  · rw [s.heap_put_other sid e' same] at held
    exact there other d same held

variable [DecidableEq ι] {i : ι} {p : Proc}

theorem SessionRegistry.turn_rule {P : ι → Proc → Prop} (own : P i p) (others : ∀ j, j ≠ i → P j (s.procs j)) :
    ∀ j, P j ((s.turn i p).procs j) := by
  intro j
  by_cases mine : j = i
  · subst mine
    rw [s.procs_turn_self]
    exact own
  · rw [s.procs_turn_other i p mine]
    exact others j mine

end

section
variable {ι : Type} {i j : ι} {p q : Proc} {sid : Nat} {e e' : SessionEntry ι}

theorem Related.other (related : Related j q sid e) (rely : Rely i e e') (apart : j ≠ i) : Related j q sid e' := by
  refine ⟨fun target => (related.1 target).other rely apart, fun target held => ?_⟩
  rcases rely.cmdMu with same | ⟨-, taken⟩ | ⟨-, given⟩
  · exact related.2 target (same ▸ held)
  · exact apart (Option.some.inj (held.symm.trans taken))
  · cases given.symm.trans held

def Proc.quiet : Proc → Bool
  | .running phase _ _ => !phase.latched?
  | .tearing _ _ _ _ => false
  | _ => true

theorem Proc.unlatched_of_quiet (quiet : p.quiet = true) : p.latched? = false := by
  cases p with
  | running phase sid _ => simpa [Proc.quiet, Proc.latched?] using quiet
  | tearing phase _ sid k => cases quiet
  | _ => rfl

theorem Proc.untrusted_of_quiet (quiet : p.quiet = true) : p.trusted = false := by
  cases p with
  | running phase sid _ => cases phase <;> first | rfl | cases quiet
  | tearing phase _ sid k => rfl
  | _ => rfl

theorem Related.unlatched (related : Related i p sid e) (unlatched : p.latched? = false) : e.cmdMu ≠ some i := by
  by_cases target : p.target = some sid
  · exact fun held => nomatch unlatched.symm.trans ((related.1 target).latch.mpr held)
  · exact related.2 target

theorem Related.quiet (free : e.cmdMu ≠ some i) (quiet : q.quiet = true) : Related i q sid e := by
  have unlatched := Proc.unlatched_of_quiet quiet
  refine ⟨fun _ => ⟨⟨fun latched => (nomatch unlatched.symm.trans latched),
    fun held => absurd held free⟩, ?_, ?_, ?_⟩,
    fun _ => free⟩
  · exact fun trusted => nomatch (Proc.untrusted_of_quiet quiet).symm.trans trusted
  · exact fun latched => nomatch unlatched.symm.trans latched
  · rintro _ _ sid k rfl
    cases quiet

theorem Related.stamped (related : Related i p sid e) (now : Int) : Related i p sid { e with lastUsed := now } := by
  refine ⟨fun target => ?_, related.2⟩
  have fits := related.1 target
  exact ⟨fits.latch, fits.trusted, fits.begun, fits.claimed⟩

theorem Related.claimed (related : Related j q sid e) (unclaimed : e.terminating = none) :
    Related j q sid { e with terminating := some i } := by
  refine ⟨fun target => ?_, related.2⟩
  have fits := related.1 target
  refine ⟨fits.latch, fits.trusted, fits.begun, fun phase lsid sid k tearing => ?_⟩
  cases unclaimed.symm.trans (fits.claimed phase lsid sid k tearing).1

end

section
variable {ι : Type} {s : SessionRegistry ι} {sid : Nat} {e e' : SessionEntry ι}

theorem SessionRegistry.known_put {other : Nat} (known : s.heap other ≠ none) : (s.put sid e').heap other ≠ none := by
  by_cases here : other = sid
  · subst here
    exact fun none_ => nomatch (heap_put_self ..).symm.trans none_
  · rw [heap_put_other _ _ _ here]
    exact known

theorem SessionRegistry.mapped_put (held : s.heap sid = some e) (id : e'.lsid = e.lsid) {lsid : Bytes} {other : Nat}
    (mapped : ∃ d, s.heap other = some d ∧ d.lsid = lsid) : ∃ d, (s.put sid e').heap other = some d ∧
    d.lsid = lsid := by
  obtain ⟨d, there, same⟩ := mapped
  by_cases here : other = sid
  · subst here
    cases held.symm.trans there
    exact ⟨e', heap_put_self .., id.trans same⟩
  · exact ⟨d, (heap_put_other _ _ _ here).trans there, same⟩

section

variable (sound : Sound s) (held : s.heap sid = some e)
include sound held

theorem Sound.live_put (id : e'.lsid = e.lsid) (unended : e'.ended = false → e.ended = false) :
    ∀ other d, (s.put sid e').heap other = some d → d.ended = false → s.sessions d.lsid = some other := by
  refine SessionRegistry.put_rule (fun still => ?_) fun other d _ there => sound.live other d there
  rw [id]
  exact sound.live sid e held (unended still)

theorem sound_put (id : e'.lsid = e.lsid) (ended : e'.ended = e.ended)
    (related : ∀ j, Related j (s.procs j) sid e') (ok : EntryOk e') : Sound (s.put sid e') where
  related j := SessionRegistry.put_rule (related j) fun other d _ there => sound.related j other d there
  ok := SessionRegistry.put_rule ok fun other d _ there => sound.ok other d there
  known j other target := SessionRegistry.known_put (sound.known j other target)
  mapped lsid other at_ := SessionRegistry.mapped_put held id (sound.mapped lsid other at_)
  live := sound.live_put held id ended.symm.trans
  undropped := sound.undropped

theorem sound_mark (now : Int) : Sound (s.put sid { e with lastUsed := now }) := by
  have ok := sound.ok sid e held
  exact sound_put sound held rfl rfl (fun j => (sound.related j sid e held).stamped now) ⟨ok.dead, ok.free⟩

end

end

section
variable {ι : Type} [DecidableEq ι] {timeout : Int} {s t : SessionRegistry ι} {event : RegistryEvent ι} {i : ι}
  {p : Proc} {sid : Nat} {e e' : SessionEntry ι}

section

variable (sound : Sound s)
include sound

theorem sound_entry (held : s.heap sid = some e)
    (stepped : EntryStep i sid (s.procs i) e event p e') : Sound ((s.turn i p).put sid e') := by
  obtain ⟨target, next⟩ := stepped.target
  have fits := (sound.related i sid e held).1 target
  have ok := sound.ok sid e held
  have rely := stepped.rely fits
  have own := stepped.fits fits ok
  refine ⟨?_, ?_, ?_, ?_, ?_, ?_⟩
  · refine SessionRegistry.turn_rule (P := fun j q => ∀ other d, ((s.turn i p).put sid e').heap other = some d →
      Related j q other d) ?_ fun j apart => ?_
    · refine SessionRegistry.put_rule ⟨fun _ => own, fun away mu => ?_⟩ fun other d apart there => ?_
      · exact Proc.target_of_latched (own.latch.mpr mu) (next.resolve_left away)
      · have away : (s.procs i).target ≠ some other := fun same => apart (Option.some.inj (same.symm.trans target))
        refine ⟨fun same => ?_, fun _ => (sound.related i other d there).2 away⟩
        rcases next with here | none_
        · exact absurd (Option.some.inj (same.symm.trans here)) apart
        · exact nomatch same.symm.trans none_
    · refine SessionRegistry.put_rule ((sound.related j sid e held).other rely apart) fun other d _ there => ?_
      exact sound.related j other d there
  · exact SessionRegistry.put_rule (stepped.ok fits ok) fun other d _ there => sound.ok other d there
  · refine SessionRegistry.turn_rule (P := fun _ q => ∀ other, q.target = some other →
      ((s.turn i p).put sid e').heap other ≠ none) (fun other same => ?_)
      fun j _ other target => SessionRegistry.known_put (sound.known j other target)
    rcases next with here | none_
    · cases here.symm.trans same
      exact fun none_ => nomatch (SessionRegistry.heap_put_self ..).symm.trans none_
    · exact nomatch none_.symm.trans same
  · exact fun lsid other at_ => SessionRegistry.mapped_put held rely.lsid (sound.mapped lsid other at_)
  · exact sound.live_put held rely.lsid rely.unended
  · refine SessionRegistry.turn_rule (P := fun _ q => ∀ phase lsid other k, q = .tearing phase lsid other k →
      phase ≠ .closing → s.sessions lsid = some other) ?_ fun j _ => sound.undropped j
    rintro phase lsid other k rfl -
    obtain ⟨earlier, was, early⟩ := stepped.from_tearing
    exact sound.undropped i earlier lsid other k was early

theorem sound_turn (was : (s.procs i).quiet = true) (quiet : p.quiet = true)
    (known : ∀ other, p.target = some other → s.heap other ≠ none) : Sound (s.turn i p) where
  related := SessionRegistry.turn_rule (P := fun j q => ∀ other d, s.heap other = some d → Related j q other d)
    (fun other d there => .quiet ((sound.related i other d there).unlatched (Proc.unlatched_of_quiet was)) quiet)
    fun j _ => sound.related j
  ok := sound.ok
  known := SessionRegistry.turn_rule (P := fun _ q => ∀ other, q.target = some other → s.heap other ≠ none)
    known fun j _ => sound.known j
  mapped := sound.mapped
  live := sound.live
  undropped := by
    refine SessionRegistry.turn_rule (P := fun _ q => ∀ phase lsid sid k, q = .tearing phase lsid sid k →
      phase ≠ .closing → s.sessions lsid = some sid) ?_ fun j _ => sound.undropped j
    rintro phase lsid sid k rfl
    cases quiet

theorem sound_create {lsid : Bytes} (at_ : s.procs i = .connecting lsid) (absent : s.sessions lsid = none)
    (fresh : s.heap sid = none) (now : Int) :
    Sound { (s.turn i .idle).put sid (newEntry lsid now) with
      sessions := update s.sessions lsid (some sid) } := by
  have turned : Sound (s.turn i .idle) := sound_turn sound (at_ ▸ rfl) rfl nofun
  refine ⟨fun j => ?_, ?_, fun j other target => ?_, fun id other at_ => ?_, ?_,
    fun j phase id other k tearing early => ?_⟩
  · refine SessionRegistry.put_rule ?_ fun other d _ there => turned.related j other d there
    exact ⟨fun target => absurd fresh (turned.known j sid target), nofun⟩
  · exact SessionRegistry.put_rule ⟨nofun, fun _ => rfl⟩ fun other d _ there => sound.ok other d there
  · have apart : other ≠ sid := fun same => turned.known j other target (same ▸ fresh)
    exact fun none_ => turned.known j other target ((SessionRegistry.heap_put_other _ _ _ apart).symm.trans none_)
  · by_cases here : id = lsid
    · subst here
      cases (update_self ..).symm.trans at_
      exact ⟨newEntry id now, SessionRegistry.heap_put_self .., rfl⟩
    · obtain ⟨d, there, same⟩ := sound.mapped id other ((update_of_ne here ..).symm.trans at_)
      have apart : other ≠ sid := fun same => nomatch (same ▸ there).symm.trans fresh
      exact ⟨d, (SessionRegistry.heap_put_other _ _ _ apart).trans there, same⟩
  · refine SessionRegistry.put_rule (fun _ => update_self ..) fun other d _ there unended => ?_
    have mapped := sound.live other d there unended
    exact (update_of_ne (fun same => nomatch (same ▸ mapped).symm.trans absent) ..).trans mapped
  · have mapped := turned.undropped j phase id other k tearing early
    exact (update_of_ne (fun same => nomatch (same ▸ mapped).symm.trans absent) ..).trans mapped

theorem sound_claim {lsid : Bytes} {k k' : Sweeping} (at_ : s.procs i = .sweeping k)
    (mapped : s.sessions lsid = some sid) (held : s.heap sid = some e) (unclaimed : e.terminating = none) :
    Sound ((s.turn i (.tearing .latching lsid sid k')).put sid { e with terminating := some i }) := by
  have free : ∀ other d, s.heap other = some d → d.cmdMu ≠ some i := fun other d there =>
    (sound.related i other d there).unlatched (at_ ▸ rfl)
  have unended : e.ended = false := by
    cases ended : e.ended with
    | false => rfl
    | true => exact absurd unclaimed ((sound.ok sid e held).dead ended).1
  obtain ⟨d, there, id⟩ := sound.mapped lsid sid mapped
  cases held.symm.trans there
  have claimed : Sound (s.put sid { e with terminating := some i }) :=
    sound_put sound held rfl rfl (fun j => (sound.related j sid e held).claimed unclaimed)
      ⟨fun ended => (nomatch unended.symm.trans ended), (sound.ok sid e held).free⟩
  refine ⟨?_, claimed.ok, ?_, claimed.mapped, claimed.live, ?_⟩
  · refine SessionRegistry.turn_rule (s := s.put sid { e with terminating := some i }) (P := fun j q => ∀ other d,
      (s.put sid { e with terminating := some i }).heap other = some d → Related j q other d) ?_
        fun j _ => claimed.related j
    refine SessionRegistry.put_rule ⟨fun _ => ?_, fun _ => free sid e held⟩ fun other d apart there => ?_
    · exact .tearing ⟨nofun, fun mine => absurd mine (free sid e held)⟩ nofun rfl id unended nofun
    · exact ⟨fun same => absurd (Option.some.inj same).symm apart, fun _ => free other d there⟩
  · refine SessionRegistry.turn_rule (s := s.put sid { e with terminating := some i }) (P := fun _ q => ∀ other,
      q.target = some other → (s.put sid { e with terminating := some i }).heap other ≠ none) ?_
        fun j _ => claimed.known j
    rintro other ⟨⟩ none_
    exact nomatch (SessionRegistry.heap_put_self ..).symm.trans none_
  · refine SessionRegistry.turn_rule (s := s) (P := fun _ q => ∀ phase lsid sid k, q = .tearing phase lsid sid k →
      phase ≠ .closing → s.sessions lsid = some sid) ?_ fun j _ => sound.undropped j
    rintro phase lsid sid k ⟨⟩ -
    exact mapped

theorem sound_drop {lsid : Bytes} {k : Sweeping} (at_ : s.procs i = .tearing .dropping lsid sid k) :
    Sound { s.turn i (.tearing .closing lsid sid k) with sessions := update s.sessions lsid none } := by
  have mapped := sound.undropped i _ _ _ _ at_ nofun
  obtain ⟨e, held, id⟩ := sound.mapped lsid sid mapped
  have fits := (sound.related i sid e held).1 (at_ ▸ rfl)
  obtain ⟨claim, -, ended, inactive⟩ := fits.claimed _ _ _ _ at_
  have free : ∀ other d, s.heap other = some d → d.cmdMu ≠ some i := fun other d there =>
    (sound.related i other d there).unlatched (at_ ▸ rfl)
  -- no other session is reached under this id, and no other goroutine tears this one down
  have only : ∀ other id', s.sessions id' = some other → other ≠ sid → id' ≠ lsid := by
    rintro other id' there apart rfl
    exact apart (Option.some.inj (there.symm.trans mapped))
  refine ⟨?_, sound.ok, ?_, fun id' other at_' => ?_, fun other d there unended => ?_, ?_⟩
  · refine SessionRegistry.turn_rule (P := fun j q => ∀ other d, s.heap other = some d → Related j q other d)
      (fun other d there => ⟨fun same => ?_, fun _ => free other d there⟩) fun j _ => sound.related j
    cases same
    cases held.symm.trans there
    exact .tearing ⟨nofun, fun mine => absurd mine (free sid e held)⟩ nofun claim id ended inactive
  · refine SessionRegistry.turn_rule (P := fun _ q => ∀ other, q.target = some other → s.heap other ≠ none)
      (fun other same none_ => ?_) fun j _ => sound.known j
    cases same
    exact nomatch held.symm.trans none_
  · by_cases here : id' = lsid
    · subst here
      exact nomatch (update_self ..).symm.trans at_'
    · exact sound.mapped id' other ((update_of_ne here ..).symm.trans at_')
  · have there' := sound.live other d there unended
    refine (update_of_ne (only other d.lsid there' ?_) ..).trans there'
    rintro rfl
    cases held.symm.trans there
    exact nomatch ended.symm.trans unended
  · refine SessionRegistry.turn_rule (P := fun _ q => ∀ phase id' other k', q = .tearing phase id' other k' →
      phase ≠ .closing → update s.sessions lsid none id' = some other) ?_ fun j apart => ?_
    · rintro phase id' other k' ⟨⟩ open_
      exact absurd rfl open_
    · intro phase id' other k' tearing open_
      have there := sound.undropped j phase id' other k' tearing open_
      refine (update_of_ne (only other id' there ?_) ..).trans there
      rintro rfl
      have other := ((sound.related j other e held).1 (tearing ▸ rfl)).claimed phase id' other k' tearing
      exact apart (Option.some.inj (other.1.symm.trans claim))

theorem sound_step (stepped : RegistryStep timeout s event t) : Sound t := by
  cases stepped with
  | entry i held stepped => exact sound_entry sound held stepped
  | tick _ _ => exact ⟨sound.related, sound.ok, sound.known, sound.mapped, sound.live, sound.undropped⟩
  | connect i lsid at_
  | purge i lsid at_
  | factoryFails i at_ absent
  | share i at_ mapped held free
  | sweep i asOf eligible at_ chosen
  | skip i at_ busy
  | swept i at_ => exact sound_turn sound (at_ ▸ rfl) rfl nofun
  | use i sid now at_ held
  | await i at_ mapped held _ =>
    refine sound_turn sound (at_ ▸ rfl) rfl fun other target none_ => ?_
    cases target
    exact nomatch held.symm.trans none_
  | create i sid at_ absent fresh => exact sound_create sound at_ absent fresh s.clock
  | mark i lsid mapped held free => exact sound_mark sound held 0
  | claim i at_ mapped held free => exact sound_claim sound at_ mapped held free.1
  | drop i at_ => exact sound_drop sound at_

end

end

/-! What a step keeps. -/

theorem Sound.latched_unique {ι : Type} {s : SessionRegistry ι} (sound : Sound s) {i j : ι} {sid : Nat}
    {phase phase' : RunPhase}
    {now now' : Int} (mine : s.procs i = .running phase sid now) (other : s.procs j = .running phase' sid now')
    (held : phase.latched? = true) (also : phase'.latched? = true) : i = j := by
  obtain ⟨e, entry⟩ := Option.ne_none_iff_exists'.mp (sound.known i sid (mine ▸ rfl))
  have here := ((sound.related i sid e entry).1 (mine ▸ rfl)).latch.mp (mine ▸ held)
  have there := ((sound.related j sid e entry).1 (other ▸ rfl)).latch.mp (other ▸ also)
  exact Option.some.inj (here.symm.trans there)

section
variable {ι : Type} [DecidableEq ι] {timeout : Int} {s t : SessionRegistry ι} {event : RegistryEvent ι}

theorem RegistryStep.known (stepped : RegistryStep timeout s event t) {other : Nat} (held : s.heap other ≠ none) :
    t.heap other ≠ none := by
  cases stepped with
  | entry
  | create
  | mark
  | claim => exact SessionRegistry.known_put held
  | _ => exact held

theorem RegistryStep.procs_rule {P : ι → Proc → Prop} (stepped : RegistryStep timeout s event t)
    (kept : ∀ j, P j (s.procs j))
    (entry : ∀ i sid e p e', s.heap sid = some e → EntryStep i sid (s.procs i) e event p e' → P i p)
    (quiet : ∀ i p, p.quiet = true → P i p)
    (claim : ∀ i lsid sid e k, event = .claims i sid k.cutoff → s.heap sid = some e → claimable e k.cutoff →
      P i (.tearing .latching lsid sid k))
    (drop : ∀ i lsid sid k, P i (.tearing .closing lsid sid k)) : ∀ j, P j (t.procs j) := by
  cases stepped with
  | entry i held stepped => exact SessionRegistry.turn_rule (entry i _ _ _ _ held stepped) fun j _ => kept j
  | claim i at_ _ held free => exact SessionRegistry.turn_rule (claim i _ _ _ ⟨_, _⟩ rfl held free) fun j _ => kept j
  | drop i at_ => exact SessionRegistry.turn_rule (drop i _ _ _) fun j _ => kept j
  | tick => exact kept
  | mark => exact kept
  | _ => exact SessionRegistry.turn_rule (quiet _ _ rfl) fun j _ => kept j

theorem RegistryStep.begins {i : ι} {sid : Nat} {now : Int}
    (stepped : RegistryStep timeout s (.commandBegin i sid now) t) :
    s.procs i = .running .beginning sid now ∧ ∃ e, s.heap sid = some e ∧
      t = (s.turn i (.running .executing sid now)).put sid { e with begun := true } := by
  cases stepped with
  | entry j held stepped =>
    obtain ⟨rfl, rfl, at_, rfl, rfl⟩ := stepped.begins
    exact ⟨at_, _, held, rfl⟩

section

variable (stepped : RegistryStep timeout s event t)
include stepped

theorem RegistryStep.executing {i : ι} {sid : Nat} {now : Int} (at_ : s.procs i = .running .executing sid now) :
    t.procs i = .running .executing sid now ∨ event = .commandEnd i sid := by
  have moved : ∀ j p, s.procs j ≠ .running .executing sid now →
    (s.turn j p).procs i = .running .executing sid now := by
    intro j p elsewhere
    rw [s.procs_turn_other j p fun same => elsewhere (same ▸ at_)]
    exact at_
  cases stepped with
  | @entry here e _ p e' j held stepped =>
    by_cases mine : i = j
    · subst mine
      rw [at_] at stepped
      cases stepped
      exact .inr rfl
    · exact .inl ((s.procs_turn_other j p mine).trans at_)
  | tick
  | mark => exact .inl at_
  | connect j lsid was
  | use j sid now was held
  | purge j lsid was
  | create j sid was absent fresh
  | factoryFails j was absent
  | share j was mapped held free
  | await j was mapped held claimed
  | sweep j asOf eligible was chosen
  | claim j was mapped held free
  | skip j was busy
  | swept j was
  | drop j was => exact .inl (moved j _ (was ▸ nofun))

theorem RegistryStep.lsid {sid : Nat} {lsid : Bytes}
    (held : ∃ e, s.heap sid = some e ∧ e.lsid = lsid) : ∃ e, t.heap sid = some e ∧ e.lsid = lsid := by
  cases stepped with
  | entry i entry stepped => exact SessionRegistry.mapped_put entry stepped.lsid held
  | @create id i fresh at_ absent unused =>
    obtain ⟨e, there, same⟩ := held
    have apart : sid ≠ fresh := fun same => nomatch (same ▸ there).symm.trans unused
    exact ⟨e, (SessionRegistry.heap_put_other _ _ _ apart).trans there, same⟩
  | mark i lsid mapped entry
  | claim i at_ mapped entry => exact SessionRegistry.mapped_put entry (by rfl) held
  | _ => exact held

theorem RegistryStep.sessions (sound : Sound s) {lsid : Bytes} {sid : Nat}
    (mapped : s.sessions lsid = some sid) : t.sessions lsid = some sid ∨ ∃ e, s.heap sid = some e ∧
    e.ended = true := by
  cases stepped with
  | @create id i fresh at_ absent unused =>
    have apart : lsid ≠ id := fun same => nomatch (same ▸ mapped).symm.trans absent
    exact .inl ((update_of_ne apart ..).trans mapped)
  | @drop id here k i at_ =>
    by_cases same : lsid = id
    · subst same
      cases mapped.symm.trans (sound.undropped i _ _ _ _ at_ nofun)
      obtain ⟨e, held⟩ := Option.ne_none_iff_exists'.mp (sound.known i sid (at_ ▸ rfl))
      exact .inr ⟨e, held, (((sound.related i sid e held).1 (at_ ▸ rfl)).claimed _ _ _ _ at_).2.2.1⟩
    · exact .inl ((update_of_ne same ..).trans mapped)
  | _ => exact .inl mapped

theorem RegistryStep.registered {lsid : Bytes} {sid : Nat}
    (mapped : t.sessions lsid = some sid) : s.sessions lsid = some sid ∨ s.heap sid = none := by
  cases stepped with
  | @create id i fresh at_ absent unused =>
    by_cases same : lsid = id
    · subst same
      cases (update_self ..).symm.trans mapped
      exact .inr unused
    · exact .inl ((update_of_ne same ..).symm.trans mapped)
  | @drop id here k i at_ =>
    by_cases same : lsid = id
    · subst same
      exact nomatch (update_self ..).symm.trans mapped
    · exact .inl ((update_of_ne same ..).symm.trans mapped)
  | _ => exact .inl mapped

theorem RegistryStep.ended : ∀ sid e', t.heap sid = some e' → e'.ended = true →
    ∃ e, s.heap sid = some e ∧ e.lsid = e'.lsid ∧ (e.ended = true ∨ ∃ i, event = .sessionEnd i sid) := by
  have same : ∀ sid e', s.heap sid = some e' → e'.ended = true →
      ∃ e, s.heap sid = some e ∧ e.lsid = e'.lsid ∧ (e.ended = true ∨ ∃ i, event = .sessionEnd i sid) :=
    fun _ e' held ended => ⟨e', held, rfl, .inl ended⟩
  cases stepped with
  | entry i held stepped =>
    refine SessionRegistry.put_rule (fun ended => ⟨_, held, stepped.lsid.symm, ?_⟩)
      fun other d _ there => same other d there
    exact stepped.ended ended
  | create i sid at_ _ _ => exact SessionRegistry.put_rule nofun fun other d _ there => same other d there
  | mark i lsid mapped held unclaimed
  | claim i at_ mapped held _ =>
    exact SessionRegistry.put_rule (fun ended => ⟨_, held, rfl, .inl ended⟩) fun other d _ there => same other d there
  | _ => exact same

end

end

/-! What the clients see of a session. -/

inductive Life where
  | idle
  | running
  | ended
deriving DecidableEq

/-- Commands one after another, then at most one end. -/
def Life.next {ι : Type} (sid : Nat) (life : Life) : RegistryEvent ι → Option Life
  | .commandBegin _ other _ => if other = sid then if life = .idle then some .running else none else some life
  | .commandEnd _ other => if other = sid then if life = .running then some .idle else none else some life
  | .sessionEnd _ other => if other = sid then if life = .idle then some .ended else none else some life
  | _ => some life

/-- What a session has come to; nothing when the events do not follow its life. -/
def lifecycle {ι : Type} (sid : Nat) (events : List (RegistryEvent ι)) : Option Life :=
  events.foldlM (Life.next sid) .idle

theorem lifecycle_snoc {ι : Type} (sid : Nat) (events : List (RegistryEvent ι)) (event : RegistryEvent ι) :
    lifecycle sid (events ++ [event]) = (lifecycle sid events).bind (Life.next sid · event) := by
  simp [lifecycle, List.foldlM_append]

section
variable {ι : Type} {i : ι} {sid : Nat} {p q : Proc} {e e' : SessionEntry ι} {event : RegistryEvent ι}
  {s : SessionRegistry ι}

def SessionEntry.life (e : SessionEntry ι) : Life := if e.ended then .ended else if e.begun then .running else .idle

def SessionRegistry.life (s : SessionRegistry ι) (sid : Nat) : Life := ((s.heap sid).map SessionEntry.life).getD .idle

theorem SessionRegistry.life_eq {s : SessionRegistry ι} (held : s.heap sid = some e) : s.life sid = e.life := by
  rw [SessionRegistry.life, held]
  rfl

theorem SessionEntry.life_of_trusted (fits : Fits i p e) (ok : EntryOk e) (trusted : p.trusted = true) :
    e.ended = false := by
  cases ended : e.ended with
  | false => rfl
  | true => exact nomatch (ok.dead ended).2.symm.trans (fits.trusted trusted)

theorem EntryStep.life (stepped : EntryStep i sid p e event q e') (fits : Fits i p e) (ok : EntryOk e) :
    e.life.next sid event = some e'.life := by
  have begun := fits.begun
  have unended := SessionEntry.life_of_trusted fits ok
  have claimed := fits.claimed
  cases stepped with
  | begin_ => simp [SessionEntry.life, Life.next, unended rfl, show e.begun = false from begun rfl]
  | finish => simp [SessionEntry.life, Life.next, unended rfl, show e.begun = true from begun rfl]
  | sessionEnd =>
    obtain ⟨-, -, ended, -⟩ := claimed _ _ _ _ rfl
    simp [SessionEntry.life, Life.next, show e.ended = false from ended, show e.begun = false from begun rfl]
  | _ => rfl

theorem EntryStep.elsewhere (stepped : EntryStep i sid p e event q e') {other : Nat}
    (apart : other ≠ sid) (life : Life) :
    life.next other event = some life := by
  cases stepped <;> first | rfl | exact if_neg (Ne.symm apart)

theorem EntryStep.not_returns {j : ι} {other : Nat} : ¬EntryStep i sid p e (.returns j other) q e' := nofun

theorem SessionRegistry.life_put (e' : SessionEntry ι) (held : s.heap sid = some e)
    (same : e'.life = e.life) (other : Nat) :
    (s.put sid e').life other = s.life other := by
  by_cases here : other = sid
  · subst here
    rw [life_eq (heap_put_self ..), life_eq held, same]
  · rw [life, heap_put_other _ _ _ here]
    rfl

theorem SessionRegistry.life_create (fresh : s.heap sid = none) (lsid : Bytes) (now : Int) (other : Nat) :
    (s.put sid (newEntry lsid now)).life other = s.life other := by
  by_cases here : other = sid
  · subst here
    rw [life_eq (heap_put_self ..), life, fresh]
    rfl
  · rw [life, heap_put_other _ _ _ here]
    rfl

theorem SessionRegistry.life_entry (sound : Sound s) (held : s.heap sid = some e)
    (stepped : EntryStep i sid (s.procs i) e event q e') (other : Nat) :
    (s.life other).next other event = some ((s.put sid e').life other) := by
  by_cases here : other = sid
  · subst here
    rw [life_eq held, life_eq (heap_put_self ..)]
    exact stepped.life ((sound.related i other e held).1 stepped.target.1) (sound.ok other e held)
  · rw [stepped.elsewhere here, life, life, heap_put_other _ _ _ here]

theorem SessionRegistry.life_of_unclaimed (sound : Sound s) (held : s.heap sid = some e)
    (unclaimed : e.terminating = none) :
    s.life sid ≠ .ended := by
  rw [life_eq held, SessionEntry.life]
  cases ended : e.ended with
  | true => exact absurd unclaimed ((sound.ok sid e held).dead ended).1
  | false => cases e.begun <;> exact nofun

variable [DecidableEq ι] {timeout clock : Int} {t : SessionRegistry ι} {events : List (RegistryEvent ι)}

theorem RegistryStep.life (stepped : RegistryStep timeout s event t) (sound : Sound s) (sid : Nat) :
    (s.life sid).next sid event = some (t.life sid) := by
  cases stepped with
  | entry i held stepped => exact SessionRegistry.life_entry sound held stepped sid
  | create i _ at_ _ fresh => exact congrArg some (SessionRegistry.life_create fresh _ _ sid).symm
  | @mark _ e i lsid mapped held unclaimed =>
    exact congrArg some (SessionRegistry.life_put { e with lastUsed := 0 } held rfl sid).symm
  | @claim _ _ _ _ e i at_ mapped held unclaimed =>
    exact congrArg some (SessionRegistry.life_put { e with terminating := some i } held rfl sid).symm
  | _ => rfl

theorem lifecycle_eq (run : Run (RegistryStep timeout) (NewSessionRegistry ι clock) events s) :
    Sound s ∧ ∀ sid, lifecycle sid events = some (s.life sid) := by
  refine run.rule (fun events s => Sound s ∧ ∀ sid, lifecycle sid events = some (s.life sid))
    ⟨sound_start clock, fun _ => rfl⟩ fun events s event t held stepped => ?_
  refine ⟨sound_step held.1 stepped, fun sid => ?_⟩
  rw [lifecycle_snoc, held.2 sid]
  exact stepped.life held.1 sid

theorem RegistryStep.returned (stepped : RegistryStep timeout s (.returns i sid) t) (sound : Sound s) :
    s.life sid ≠ .ended := by
  cases stepped with
  | entry j held stepped => exact absurd stepped EntryStep.not_returns
  | create _ _ at_ _ fresh =>
    rw [SessionRegistry.life, fresh]
    exact nofun
  | share _ at_ _ held unclaimed => exact SessionRegistry.life_of_unclaimed sound held unclaimed

/-- For every interleaving: an id has at most one session that has not ended, the hooks of every
session follow its life, and `Connect` returns no session that has ended. -/
theorem sessions_live_once (run : Run (RegistryStep timeout) (NewSessionRegistry ι clock) events s) :
    (∀ sid sid' e e', s.heap sid = some e → s.heap sid' = some e' → e.lsid = e'.lsid →
      lifecycle sid events ≠ some .ended → lifecycle sid' events ≠ some .ended → sid = sid') ∧
    (∀ sid, (lifecycle sid events).isSome) ∧
    ∀ before i sid after, events = before ++ .returns i sid :: after → lifecycle sid before ≠ some .ended := by
  obtain ⟨sound, life⟩ := lifecycle_eq run
  refine ⟨fun sid sid' e e' held held' same open_ open_' => ?_, fun sid => ?_, fun before i sid after whole => ?_⟩
  · have unended : ∀ sid e, s.heap sid = some e → lifecycle sid events ≠ some .ended → e.ended = false := by
      intro sid e held open_
      rw [life, SessionRegistry.life_eq held, SessionEntry.life] at open_
      cases ended : e.ended with
      | false => rfl
      | true => exact absurd (by rw [ended]; rfl) open_
    have here := sound.live sid e held (unended sid e held open_)
    have there := sound.live sid' e' held' (unended sid' e' held' open_')
    rw [same] at here
    exact Option.some.inj (here.symm.trans there)
  · rw [life]
    rfl
  · subst whole
    obtain ⟨_, _, earlier, stepped⟩ := run.split
    obtain ⟨sound, life⟩ := lifecycle_eq earlier
    rw [life]
    exact fun ended => stepped.returned sound (Option.some.inj ended)

end

/-- A client's command, the purge of its session, and the next session under the same id. -/
def reconnecting : List (RegistryEvent Unit) :=
  [.connects () [], .returns () 0, .uses () 0 0, .internal (), .internal (), .internal (), .stamps () 0 0,
    .commandBegin () 0 0, .commandEnd () 0, .internal (), .purges () [], .claims () 0 none,
      .internal (), .internal (),
    .internal (), .sessionEnd () 0, .internal (), .internal (), .internal (), .internal (),
      .connects () [], .returns () 1]

theorem reconnecting_runs : ∃ s, Run (RegistryStep 0) (NewSessionRegistry Unit 0) reconnecting s := by
  have start : Run (RegistryStep 0) (NewSessionRegistry Unit 0) [] _ := .nil
  have connected := (start.snoc (.connect () [] rfl)).snoc (.create () 0 rfl rfl rfl)
  have entered := ((connected.snoc (.use () 0 0 rfl rfl)).snoc (.entry () rfl (.enter rfl))).snoc
    (.entry () rfl (.latch rfl))
  have begun := ((entered.snoc (.entry () rfl (.recheck rfl))).snoc (.entry () rfl .stamp)).snoc
    (.entry () rfl .begin_)
  have finished := (begun.snoc (.entry () rfl .finish)).snoc (.entry () rfl .leave)
  have claimed := (finished.snoc (.purge () [] rfl)).snoc (.claim () rfl rfl rfl ⟨rfl, nofun⟩)
  have purged := (claimed.snoc (.entry () rfl (.tearLatch rfl))).snoc (.entry () rfl .purge)
  have ended := (purged.snoc (.entry () rfl .deactivate)).snoc (.entry () rfl .sessionEnd)
  have closed := ((ended.snoc (.entry () rfl .release)).snoc (.drop () rfl)).snoc (.entry () rfl .close)
  exact ⟨_, ((closed.snoc (.swept () rfl)).snoc (.connect () [] rfl)).snoc (.create () 1 rfl rfl rfl)⟩

theorem reconnected_apart : lifecycle 0 reconnecting = some .ended ∧ lifecycle 1 reconnecting = some .idle ∧
    ∀ before i sid after, reconnecting = before ++ .returns i sid :: after → lifecycle sid before ≠ some .ended := by
  obtain ⟨s, run⟩ := reconnecting_runs
  exact ⟨rfl, rfl, (sessions_live_once run).2.2⟩

end DumboDB.Sqlctx
