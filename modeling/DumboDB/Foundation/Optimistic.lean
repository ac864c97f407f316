import Mathlib.Data.List.Basic
import Mathlib.Logic.Function.Basic

/-!
Optimistic publishing: sessions that each pin the shared state, compute a version of their own,
reconcile it with the state as it is by then, and replace that state only if it is still the one they
reconciled with.
-/

namespace DumboDB.Foundation.Optimistic
open List

inductive Phase (W : Type) where
  | idle
  | pinned (base : W)
  | written (base ours : W)
  | reconciled (base ours fork merged : W)

structure System (ι W : Type) where
  branch : W
  phase : ι → Phase W

/-- A successful publish: what the session pinned, computed, reconciled with and put in place. -/
structure Published (W : Type) where
  base : W
  ours : W
  fork : W
  merged : W

section
variable {ι W : Type} [DecidableEq ι]

def System.turn (s : System ι W) (i : ι) (phase : Phase W) : System ι W :=
  { s with phase := Function.update s.phase i phase }

variable (reconcile : W → W → W → W → Prop) (holds : W → W → Prop)

/-- One atomic step of one session; only a publish is recorded. A refused or raced session is idle
again and may start over from a new base. -/
inductive Step : System ι W → List (Published W) → System ι W → Prop where
  | start {s} (i : ι) : s.phase i = .idle → Step s [] (s.turn i (.pinned s.branch))
  | write {s} {base : W} (i : ι) (ours : W) : s.phase i = .pinned base → Step s [] (s.turn i (.written base ours))
  | read {s} {base ours merged : W} (i : ι) : s.phase i = .written base ours →
      reconcile base ours s.branch merged → Step s [] (s.turn i (.reconciled base ours s.branch merged))
  | refuse {s} {base ours : W} (i : ι) : s.phase i = .written base ours → Step s [] (s.turn i .idle)
  | publish {s} {base ours fork merged : W} (i : ι) : s.phase i = .reconciled base ours fork merged →
      holds s.branch fork → Step s [⟨base, ours, fork, merged⟩] { (s.turn i .idle) with branch := merged }
  | race {s} {base ours fork merged : W} (i : ι) : s.phase i = .reconciled base ours fork merged →
      ¬holds s.branch fork → Step s [] (s.turn i .idle)

inductive Run (start : System ι W) : List (Published W) → System ι W → Prop where
  | nil : Run start [] start
  | step {log} {s} {more} {after} : Run start log s → Step reconcile holds s more after →
        Run start (log ++ more) after

def states (start : W) (log : List (Published W)) : List W := start :: log.map (·.merged)

/-- A session works on a state of the branch, and what it holds ready is reconciled. -/
def Phase.Sound (seen : List W) : Phase W → Prop
  | .idle => True
  | .pinned base => base ∈ seen
  | .written base _ => base ∈ seen
  | .reconciled base ours fork merged => base ∈ seen ∧ reconcile base ours fork merged

variable {reconcile} {holds}

theorem Phase.Sound.mono {seen more : List W} {phase : Phase W} (sound : phase.Sound reconcile seen)
    (wider : seen ⊆ more) : phase.Sound reconcile more := by
  cases phase with
  | idle => trivial
  | pinned base
  | written base ours => exact wider sound
  | reconciled base ours _ _ => exact ⟨wider sound.1, sound.2⟩

theorem sound_turn {s : System ι W} {seen : List W} (sound : ∀ j, (s.phase j).Sound reconcile seen) {i : ι}
    {phase : Phase W} (turned : phase.Sound reconcile seen) (j : ι) :
    ((s.turn i phase).phase j).Sound reconcile seen := by
  by_cases here : j = i
  · subst here
    simpa [System.turn] using turned
  · simpa [System.turn, here] using sound j

/-- The rule for runs: what holds at the start and is kept by every publish of a reconciled version
over the state it was reconciled with, holds of the branch and its log. -/
theorem Run.rule {start : System ι W} (idle : ∀ i, start.phase i = .idle)
    (P : List (Published W) → W → Prop) (first : P [] start.branch)
    (publish : ∀ log branch p, P log branch → p.base ∈ states start.branch log →
      reconcile p.base p.ours p.fork p.merged → holds branch p.fork → P (log ++ [p]) p.merged)
    {log : List (Published W)} {s : System ι W} (run : Run reconcile holds start log s) : P log s.branch := by
  -- the invariant carries the sessions along: the branch is a state of the log, and all are sound
  suffices held : P log s.branch ∧ s.branch ∈ states start.branch log ∧
      ∀ i, (s.phase i).Sound reconcile (states start.branch log) from held.1
  induction run with
  | nil => exact ⟨first, .head _, fun i => by rw [idle i]; trivial⟩
  | @step log s more after _ stepped ih =>
    obtain ⟨holdsP, current, sound⟩ := ih
    cases stepped with
    | start i phase =>
      rw [append_nil]
      exact ⟨holdsP, current, sound_turn sound current⟩
    | write i ours phase =>
      rw [append_nil]
      have here := sound i
      rw [phase] at here
      exact ⟨holdsP, current, sound_turn sound here⟩
    | read i phase done =>
      rw [append_nil]
      have here := sound i
      rw [phase] at here
      exact ⟨holdsP, current, sound_turn sound ⟨here, done⟩⟩
    | refuse i phase
    | race i phase _ =>
      rw [append_nil]
      exact ⟨holdsP, current, sound_turn sound trivial⟩
    | @publish base ours fork merged i phase still =>
      have here := sound i
      rw [phase] at here
      have wider : states start.branch log ⊆ states start.branch (log ++ [⟨base, ours, fork, merged⟩]) := by
        intro state member
        simp only [states, map_append, mem_cons, mem_append] at member ⊢
        tauto
      refine ⟨publish log s.branch ⟨base, ours, fork, merged⟩ holdsP here.1 here.2 still, ?_, ?_⟩
      · simp [states]
      · exact sound_turn (fun j => (sound j).mono wider) trivial

theorem Run.pair {start : System ι W} (idle : ∀ i, start.phase i = .idle) {i j : ι} (apart : i ≠ j)
    {left right first second : W} (reads : reconcile start.branch left start.branch first)
    (rereads : reconcile start.branch right first second) (fixed : ∀ w, holds w w) :
    ∃ s, Run reconcile holds start [⟨start.branch, left, start.branch, first⟩,
      ⟨start.branch, right, first, second⟩] s ∧
      s.branch = second := by
  have run : Run reconcile holds start [] start := .nil
  have run := run.step (.start i (idle i))
  have run := run.step (.start j (by simp [System.turn, apart.symm, idle]))
  have run := run.step (@Step.write _ _ _ _ _ _ start.branch i left (by simp [System.turn, apart]))
  have run := run.step (@Step.write _ _ _ _ _ _ start.branch j right (by simp [System.turn, apart.symm]))
  have run := run.step (@Step.read _ _ _ _ _ _ start.branch left first i (by simp [System.turn, apart]) reads)
  have run := run.step (@Step.publish _ _ _ _ _ _ start.branch left start.branch first i
    (by simp [System.turn]) (fixed _))
  have run := run.step (@Step.read _ _ _ _ _ _ start.branch right second j
    (by simp [System.turn, apart.symm]) rereads)
  have run := run.step (@Step.publish _ _ _ _ _ _ start.branch right first second j (by simp [System.turn]) (fixed _))
  exact ⟨_, run, rfl⟩

end

/-! What sessions make of an observation. -/

/-- What a session does to an observed value: nothing, or set it to a function of what it read. -/
inductive Update (V : Type) where
  | keeps
  | sets (g : V → V)

variable {V W : Type}

def Update.apply : Update V → V → V
  | .keeps, v => v
  | .sets g, v => g v

def compose (updates : List (Update V)) (v : V) : V := updates.foldl (fun v u => u.apply v) v

theorem compose_concat (updates : List (Update V)) (u : Update V) (v : V) :
    compose (updates ++ [u]) v = u.apply (compose updates v) := by
  simp [compose]

section
variable (observe : W → V)

/-- The session set the value to its function of the one it pinned. -/
def Made (p : Published W) (u : Update V) : Prop := observe p.ours = u.apply (observe p.base)

/-- A session that set the value replaced the one it had read. -/
def Found (p : Published W) : Update V → Prop
  | .keeps => True
  | .sets _ => observe p.fork = observe p.base

/-- The reconciliation keeps the value of the one side that changed it. -/
structure Carries (p : Published W) : Prop where
  untouched : observe p.ours = observe p.base → observe p.merged = observe p.fork
  unmoved : observe p.fork = observe p.base → observe p.merged = observe p.ours

variable {observe}

theorem Carries.applies {p : Published W} {u : Update V} (carries : Carries observe p) (made : Made observe p u)
    (found : Found observe p u) : observe p.merged = u.apply (observe p.fork) := by
  cases u with
  | keeps => exact carries.untouched made
  | sets g => exact (carries.unmoved found).trans (made.trans (congrArg g found.symm))

end

end DumboDB.Foundation.Optimistic
