import DumboDB.Foundation.Interaction
import DumboDB.Foundation.Transition
import Mathlib.Algebra.Group.Nat.Defs
import Mathlib.Logic.Function.Basic
import Mathlib.Order.Monotone.Basic

/-!
Values that are computed from a shared store and cached under a generation. A reader takes the
generation before it looks at its cache and before it reads; a writer raises it after its last write,
and not at all when it fails. Every step takes a moment of time, and a value remembers the moments at
which what it was computed from was read.
-/

namespace DumboDB.Foundation.Generation

open Transition Function Option

variable {S U L α ε δ Op : Type} {Reply : Op → Type}

/-- The operations of the store, how a value is loaded for a user, and how a request is served. -/
structure Setting (S U L α ε δ Op : Type) (Reply : Op → Type) where
  handle : (op : Op) → S → Reply op × S
  takesEffect : (op : Op) → Reply op → Bool
  load : U → Nat → Program ε Op Reply α
  onFailure : (op : Op) → Option (Reply op)
  nobody : α
  serve : L → Program δ Op Reply Unit

structure Entry (α : Type) where
  gen : UInt64
  value : α
  reads : List Nat

inductive Phase (α ε Op : Type) (Reply : Op → Type) where
  | begun (program : Program ε Op Reply α)
  | versioned (gen : UInt64) (program : Program ε Op Reply α)
  | loading (gen : UInt64) (rest : Program ε Op Reply α) (reads : List Nat)
  | answered (value : α) (reads : List Nat)
  | failed

structure Reader (α ε Op : Type) (Reply : Op → Type) where
  conn : Nat
  started : Nat
  phase : Phase α ε Op Reply

structure Writer (L δ Op : Type) (Reply : Op → Type) where
  request : L
  rest : Program δ Op Reply Unit
  lastWrite : Option Nat
  returned : Option Nat

structure State (S U L α ε δ Op : Type) (Reply : Op → Type) where
  time : Nat
  store : S
  gen : UInt64
  user : Nat → Option U
  cache : Nat → Option (Entry α)
  readers : Nat → Option (Reader α ε Op Reply)
  writers : Nat → Option (Writer L δ Op Reply)

inductive Event (U L : Type) where
  | setUser (conn : Nat) (user : Option U)
  | start (reader conn depth : Nat)
  | readGeneration (reader : Nat)
  | lookAtCache (reader : Nat)
  | load (reader : Nat)
  | loadFails (reader : Nat)
  | storeCache (reader : Nat)
  | begin (writer : Nat) (request : L)
  | call (writer : Nat)
  | callFails (writer : Nat)
  | refuse (writer : Nat)
  | bump (writer : Nat)

def State.setReader (s : State S U L α ε δ Op Reply) (id : Nat) (r : Reader α ε Op Reply) :
    State S U L α ε δ Op Reply :=
  { s with time := s.time + 1, readers := Function.update s.readers id (some r) }

def State.setWriter (s : State S U L α ε δ Op Reply) (id : Nat) (w : Writer L δ Op Reply) :
    State S U L α ε δ Op Reply :=
  { s with time := s.time + 1, writers := Function.update s.writers id (some w) }

variable (P : Setting S U L α ε δ Op Reply)

def readerStep (s : State S U L α ε δ Op Reply) (id : Nat) (r : Reader α ε Op Reply) :
    Event U L → Option (State S U L α ε δ Op Reply)
  | .readGeneration _ =>
    match r.phase with
    | .begun program => some (s.setReader id { r with phase := .versioned s.gen program })
    | _ => none
  | .lookAtCache _ =>
    match r.phase with
    | .versioned gen program =>
      match s.cache r.conn with
      | some entry =>
        if entry.gen = gen then some (s.setReader id { r with phase := .answered entry.value entry.reads })
        else some (s.setReader id { r with phase := .loading gen program [] })
      | none => some (s.setReader id { r with phase := .loading gen program [] })
    | _ => none
  | .load _ =>
    match r.phase with
    | .loading gen (.call op next) reads =>
      some ({ s with store := (P.handle op s.store).2 }.setReader id
        { r with phase := .loading gen (next (P.handle op s.store).1) (reads ++ [s.time]) })
    | _ => none
  | .loadFails _ =>
    match r.phase with
    | .loading gen (.call op next) reads =>
      match P.onFailure op with
      | some reply => some (s.setReader id { r with phase := .loading gen (next reply) reads })
      | none => some (s.setReader id { r with phase := .failed })
    | .loading _ (.fail _) _ => some (s.setReader id { r with phase := .failed })
    | _ => none
  | .storeCache _ =>
    match r.phase with
    | .loading gen (.done value) reads =>
      some ({ s with cache := Function.update s.cache r.conn (some ⟨gen, value, reads⟩) }.setReader id
        { r with phase := .answered value reads })
    | _ => none
  | _ => none

def writerStep (s : State S U L α ε δ Op Reply) (id : Nat) (w : Writer L δ Op Reply) :
    Event U L → Option (State S U L α ε δ Op Reply)
  | .call _ =>
    match w.rest with
    | .call op next =>
      let (reply, store) := P.handle op s.store
      some ({ s with store }.setWriter id
        { w with rest := next reply, lastWrite := if P.takesEffect op reply then some s.time else w.lastWrite })
    | _ => none
  | .callFails _ =>
    match w.rest with
    | .call _ _ => some (s.setWriter id { w with returned := some s.time })
    | _ => none
  | .refuse _ =>
    match w.rest with
    | .fail _ => some (s.setWriter id { w with returned := some s.time })
    | _ => none
  | .bump _ =>
    match w.rest with
    | .done _ => some ({ s with gen := s.gen + 1 }.setWriter id { w with returned := some s.time })
    | _ => none
  | _ => none

def next (s : State S U L α ε δ Op Reply) (e : Event U L) : Option (State S U L α ε δ Op Reply) :=
  match e with
  | .setUser conn user =>
    some { s with
      time := s.time + 1
      user := Function.update s.user conn user
      cache := Function.update s.cache conn none }
  | .start id conn depth =>
    match s.readers id with
    | some _ => none
    | none =>
      match s.user conn with
      | some user => some (s.setReader id ⟨conn, s.time, .begun (P.load user depth)⟩)
      | none => some (s.setReader id ⟨conn, s.time, .answered P.nobody []⟩)
  | .readGeneration id | .lookAtCache id | .load id | .loadFails id | .storeCache id =>
    (s.readers id).bind fun r => readerStep P s id r e
  | .begin id request =>
    match s.writers id with
    | some _ => none
    | none => some (s.setWriter id ⟨request, P.serve request, none, none⟩)
  | .call id | .callFails id | .refuse id | .bump id =>
    (s.writers id).bind fun w => if w.returned.isSome then none else writerStep P s id w e

def Step (s : State S U L α ε δ Op Reply) (e : Event U L) (t : State S U L α ε δ Op Reply) : Prop :=
    next P s e = some t

def State.initial (store : S) : State S U L α ε δ Op Reply :=
  ⟨0, store, 0, fun _ => none, fun _ => none, fun _ => none, fun _ => none⟩

/-- A writer that has written does not fail, and the generation does not run over. -/
def Settles (s : State S U L α ε δ Op Reply) : Event U L → Prop
  | .callFails id | .refuse id => ∀ w, s.writers id = some w → w.lastWrite = none
  | .bump _ => s.gen.toNat + 1 < 2 ^ 64
  | _ => True

/-- What a reader answers was read after the last write of every writer that had returned when it started. -/
def Fresh (s : State S U L α ε δ Op Reply) : Prop :=
  ∀ reader r value reads, s.readers reader = some r → r.phase = .answered value reads →
    ∀ writer w returned written, s.writers writer = some w → w.returned = some returned → returned < r.started →
      w.lastWrite = some written → ∀ t ∈ reads, written ≤ t

section Invariant

/-- The last writes of the writers that had returned before a moment are no later than a bound. -/
def Owed (writers : Nat → Option (Writer L δ Op Reply)) (started bound : Nat) : Prop :=
  ∀ id w returned written, writers id = some w → w.returned = some returned → returned < started →
    w.lastWrite = some written → written ≤ bound

/-- A generation that was current, and moments that are no earlier than it. -/
def Under (floor : Nat → Nat) (current gen : UInt64) (reads : List Nat) : Prop :=
  gen.toNat ≤ current.toNat ∧ ∀ t ∈ reads, floor gen.toNat ≤ t

def Kept (writers : Nat → Option (Writer L δ Op Reply)) (floor : Nat → Nat) (current : UInt64) (started : Nat) :
    Phase α ε Op Reply → Prop
  | .begun _ => True
  | .versioned gen _ => Under floor current gen [] ∧ Owed writers started (floor gen.toNat)
  | .loading gen _ reads => Under floor current gen reads ∧ Owed writers started (floor gen.toNat)
  | .answered _ reads => ∀ t ∈ reads, Owed writers started t
  | .failed => True

/-- The moments at which the generations began: a returned writer wrote before the current one began,
and what is held under a generation was read after it began. -/
structure Ordered (s : State S U L α ε δ Op Reply) (floor : Nat → Nat) : Prop where
  mono : Monotone floor
  past : ∀ k, floor k ≤ s.time
  written : ∀ id w, s.writers id = some w → ∀ t, w.lastWrite = some t → t ≤ s.time
  settled : ∀ id w, s.writers id = some w → w.returned ≠ none → ∀ t, w.lastWrite = some t → t ≤ floor s.gen.toNat
  cached : ∀ conn entry, s.cache conn = some entry → Under floor s.gen entry.gen entry.reads
  started : ∀ id r, s.readers id = some r → r.started ≤ s.time
  readers : ∀ id r, s.readers id = some r → Kept s.writers floor s.gen r.started r.phase

variable {s t : State S U L α ε δ Op Reply} {floor : Nat → Nat}
  {started : Nat} {writers : Nat → Option (Writer L δ Op Reply)} {current gen : UInt64} {reads : List Nat}
  {r : Reader α ε Op Reply} {phase : Phase α ε Op Reply} {w : Writer L δ Op Reply} {now : Nat}
  {e : Event U L} {id : Nat} {events : List (Event U L)}

theorem Owed.mono {bound later : Nat} (owed : Owed writers started bound)
    (le : bound ≤ later) : Owed writers started later :=
  fun id w returned written known back before wrote => (owed id w returned written known back before wrote).trans le

theorem Under.append {t : Nat} (under : Under floor current gen reads)
    (later : floor gen.toNat ≤ t) : Under floor current gen (reads ++ [t]) := by
  refine ⟨under.1, fun u member => ?_⟩
  rcases List.mem_append.mp member with old | new
  · exact under.2 u old
  · rw [List.mem_singleton.mp new]
    exact later

section

variable (ordered : Ordered s floor)
include ordered

theorem Ordered.owed (started : Nat) : Owed s.writers started (floor s.gen.toNat) :=
  fun id w returned written known back _ wrote => ordered.settled id w known (by simp [back]) written wrote

theorem Ordered.withStore (store : S) : Ordered { s with store } floor :=
  ⟨ordered.mono, ordered.past, ordered.written, ordered.settled, ordered.cached, ordered.started, ordered.readers⟩

theorem Ordered.withCache (conn : Nat) {entry : Option (Entry α)}
    (under : ∀ e, entry = some e → Under floor s.gen e.gen e.reads) :
    Ordered { s with cache := update s.cache conn entry } floor := by
  refine ⟨ordered.mono, ordered.past, ordered.written, ordered.settled, fun c e found => ?_,
    ordered.started, ordered.readers⟩
  by_cases same : c = conn
  · subst same
    exact under e (by simpa using found)
  · exact ordered.cached c e (by simpa [same] using found)

theorem Ordered.setReader (id : Nat) (started : r.started ≤ s.time)
    (kept : Kept s.writers floor s.gen r.started r.phase) : Ordered (s.setReader id r) floor := by
  have cases_ (i : Nat) (q : Reader α ε Op Reply) (found : (s.setReader id r).readers i = some q) :
      q = r ∨ s.readers i = some q := by
    by_cases same : i = id
    · subst same
      exact .inl (by simpa [State.setReader, eq_comm] using found)
    · exact .inr (by simpa [State.setReader, same] using found)
  refine ⟨ordered.mono, fun k => Nat.le_succ_of_le (ordered.past k),
    fun i w known t wrote => Nat.le_succ_of_le (ordered.written i w known t wrote), ordered.settled, ordered.cached,
    fun i q found => ?_, fun i q found => ?_⟩
  · rcases cases_ i q found with rfl | old
    · exact Nat.le_succ_of_le started
    · exact Nat.le_succ_of_le (ordered.started i q old)
  · rcases cases_ i q found with rfl | old
    · exact kept
    · exact ordered.readers i q old

end

theorem Kept.setWriter (kept : Kept writers floor gen started phase) (id : Nat)
    (now : ∀ returned, w.returned = some returned → started ≤ returned) :
    Kept (update writers id (some w)) floor gen started phase := by
  have owed {bound : Nat} (old : Owed writers started bound) : Owed (update writers id (some w)) started bound := by
    intro i v returned written known back before wrote
    by_cases same : i = id
    · subst same
      obtain rfl : w = v := by simpa using known
      exact absurd (now returned back) (Nat.not_le.mpr before)
    · exact old i v returned written (by simpa [same] using known) back before wrote
  cases phase with
  | begun | failed => trivial
  | versioned | loading => exact ⟨kept.1, owed kept.2⟩
  | answered _ _ => exact fun t member => owed (kept t member)

theorem Ordered.setWriter (ordered : Ordered s floor) (id : Nat) (written : ∀ t, w.lastWrite = some t → t ≤ s.time)
    (now : ∀ returned, w.returned = some returned → returned = s.time)
    (settled : w.returned ≠ none → ∀ t, w.lastWrite = some t → t ≤ floor s.gen.toNat) :
    Ordered (s.setWriter id w) floor := by
  have cases_ (i : Nat) (v : Writer L δ Op Reply) (found : (s.setWriter id w).writers i = some v) :
      v = w ∨ s.writers i = some v := by
    by_cases same : i = id
    · subst same
      exact .inl (by simpa [State.setWriter, eq_comm] using found)
    · exact .inr (by simpa [State.setWriter, same] using found)
  refine ⟨ordered.mono, fun k => Nat.le_succ_of_le (ordered.past k), fun i v found t wrote => ?_,
    fun i v found back => ?_,
    ordered.cached, fun i r known => Nat.le_succ_of_le (ordered.started i r known), fun i r known => ?_⟩
  · rcases cases_ i v found with rfl | old
    · exact Nat.le_succ_of_le (written t wrote)
    · exact Nat.le_succ_of_le (ordered.written i v old t wrote)
  · rcases cases_ i v found with rfl | old
    · exact settled back
    · exact ordered.settled i v old back
  · refine (ordered.readers i r known).setWriter id fun returned back => ?_
    rw [now returned back]
    exact ordered.started i r known

/-- The next generation begins now, and the earlier ones began when they did. -/
def beginsNow (floor : Nat → Nat) (current now : Nat) (k : Nat) : Nat := if k ≤ current then floor k else now

theorem toNat_succ (room : gen.toNat + 1 < 2 ^ 64) : (gen + 1).toNat = gen.toNat + 1 := by
  exact Nat.mod_eq_of_lt room

theorem Under.bump (room : current.toNat + 1 < 2 ^ 64)
    (under : Under floor current gen reads) : Under (beginsNow floor current.toNat now) (current + 1) gen reads := by
  refine ⟨?_, fun t member => ?_⟩
  · rw [toNat_succ room]
    exact Nat.le_succ_of_le under.1
  · rw [beginsNow, if_pos under.1]
    exact under.2 t member

theorem Kept.bump (room : current.toNat + 1 < 2 ^ 64) (kept : Kept writers floor current started phase) :
    Kept writers (beginsNow floor current.toNat now) (current + 1) started phase := by
  have same {gen : UInt64} {reads : List Nat} (under : Under floor current gen reads) :
      beginsNow floor current.toNat now gen.toNat = floor gen.toNat := if_pos under.1
  cases phase with
  | begun | failed => trivial
  | versioned | loading =>
    refine ⟨kept.1.bump room, ?_⟩
    rw [same kept.1]
    exact kept.2
  | answered => exact kept

theorem Ordered.bump (ordered : Ordered s floor) (room : s.gen.toNat + 1 < 2 ^ 64) :
    Ordered { s with gen := s.gen + 1 } (beginsNow floor s.gen.toNat s.time) := by
  have current : beginsNow floor s.gen.toNat s.time (s.gen + 1).toNat = s.time := by
    rw [toNat_succ room, beginsNow, if_neg (Nat.not_succ_le_self _)]
  refine ⟨fun i j le => ?_, fun k => ?_, ordered.written, fun id w known _ t wrote => ?_,
    fun conn entry found => (ordered.cached conn entry found).bump room, ordered.started,
    fun id r found => (ordered.readers id r found).bump room⟩
  · unfold beginsNow
    split
    · split
      · exact ordered.mono le
      · exact ordered.past i
    next late =>
      rw [if_neg fun early => late (le.trans early)]
  · unfold beginsNow
    split
    · exact ordered.past k
    · exact le_rfl
  · rw [current]
    exact ordered.written id w known t wrote

variable {P}

theorem Ordered.readerStep (ordered : Ordered s floor)
    (found : s.readers id = some r) (stepped : readerStep P s id r e = some t) : Ordered t floor := by
  have started := ordered.started id r found
  have kept := ordered.readers id r found
  unfold Generation.readerStep at stepped
  split at stepped
  · -- the generation that is read is the current one
    split at stepped
    · cases stepped
      exact ordered.setReader id started ⟨⟨le_rfl, nofun⟩, ordered.owed r.started⟩
    · cases stepped
  · split at stepped
    next gen program phase =>
      rw [phase] at kept
      have miss : Ordered (s.setReader id { r with phase := .loading gen program [] }) floor :=
        ordered.setReader id started kept
      split at stepped
      next entry hit =>
        split at stepped
        next same =>
          -- the entry was read after its generation began, which is the reader's own
          cases stepped
          refine ordered.setReader id started fun t member => kept.2.mono ?_
          rw [← same]
          exact (ordered.cached r.conn entry hit).2 t member
        next =>
          cases stepped
          exact miss
      next =>
        cases stepped
        exact miss
    next => cases stepped
  · split at stepped
    next gen op later reads phase =>
      cases stepped
      rw [phase] at kept
      exact (ordered.withStore _).setReader id started ⟨kept.1.append (ordered.past _), kept.2⟩
    next => cases stepped
  · split at stepped
    next gen op later reads phase =>
      rw [phase] at kept
      split at stepped
      · cases stepped
        exact ordered.setReader id started kept
      · cases stepped
        exact ordered.setReader id started trivial
    · cases stepped
      exact ordered.setReader id started trivial
    · cases stepped
  · split at stepped
    next gen _ reads phase =>
      cases stepped
      rw [phase] at kept
      refine (ordered.withCache r.conn fun e held => ?_).setReader id started fun t member => ?_
      · cases held
        exact kept.1
      · exact kept.2.mono (kept.1.2 t member)
    next => cases stepped
  · cases stepped

theorem Ordered.writerStep (ordered : Ordered s floor)
    (found : s.writers id = some w) (working : w.returned = none) (settles : Settles s e)
    (mine : ∀ other, e = .callFails other ∨ e = .refuse other → other = id)
    (stepped : writerStep P s id w e = some t) : ∃ floor, Ordered t floor := by
  have written := ordered.written id w found
  have failed (unwritten : w.lastWrite = none) :
    Ordered (s.setWriter id { w with returned := some s.time }) floor := by
    refine ordered.setWriter id written (fun returned back => (Option.some.inj back).symm) fun _ t wrote => ?_
    exact nomatch unwritten.symm.trans wrote
  unfold Generation.writerStep at stepped
  split at stepped
  · split at stepped
    · cases stepped
      refine ⟨floor, (ordered.withStore _).setWriter id (fun t wrote => ?_) (fun returned back => ?_) fun back => ?_⟩
      · split at wrote
        · cases wrote
          exact le_rfl
        · exact written t wrote
      · exact nomatch working.symm.trans back
      · exact absurd working back
    · cases stepped
  · split at stepped
    · cases stepped
      obtain rfl := mine _ (.inl rfl)
      exact ⟨floor, failed (settles w found)⟩
    · cases stepped
  · split at stepped
    · cases stepped
      obtain rfl := mine _ (.inr rfl)
      exact ⟨floor, failed (settles w found)⟩
    · cases stepped
  · split at stepped
    · cases stepped
      refine ⟨beginsNow floor s.gen.toNat s.time,
        (ordered.bump settles).setWriter id written (fun returned back => (Option.some.inj back).symm)
          fun _ t wrote => ?_⟩
      rw [toNat_succ settles, beginsNow, if_neg (Nat.not_succ_le_self _)]
      exact written t wrote
    · cases stepped
  · cases stepped

theorem Ordered.step {e : Event U L} (ordered : Ordered s floor) (settles : Settles s e) (stepped : Step P s e t) :
    ∃ floor, Ordered t floor := by
  have reading {id : Nat} (stepped : ((s.readers id).bind fun r => Generation.readerStep P s id r e) = some t) :
      ∃ floor, Ordered t floor := by
    obtain ⟨r, found, stepped⟩ := bind_eq_some_iff.mp stepped
    exact ⟨floor, ordered.readerStep found stepped⟩
  have writing {id : Nat} (mine : ∀ other, e = .callFails other ∨ e = .refuse other → other = id)
      (stepped : ((s.writers id).bind fun w =>
      if w.returned.isSome then none else Generation.writerStep P s id w e) = some t) :
      ∃ floor, Ordered t floor := by
    obtain ⟨w, found, stepped⟩ := bind_eq_some_iff.mp stepped
    split at stepped
    · cases stepped
    next working => exact ordered.writerStep found (by simpa using working) settles mine stepped
  unfold Step next at stepped
  cases e with
  | setUser conn _ =>
    cases stepped
    have cleared : Ordered { s with cache := update s.cache conn none } floor := ordered.withCache conn nofun
    refine ⟨floor, cleared.mono, fun k => Nat.le_succ_of_le (cleared.past k),
      fun id w known t wrote => Nat.le_succ_of_le (cleared.written id w known t wrote), cleared.settled,
        cleared.cached,
      fun id r found => Nat.le_succ_of_le (cleared.started id r found), cleared.readers⟩
  | start id conn _ =>
    dsimp only at stepped
    split at stepped
    · cases stepped
    · split at stepped
      · cases stepped
        exact ⟨floor, ordered.setReader id le_rfl trivial⟩
      · cases stepped
        exact ⟨floor, ordered.setReader id le_rfl nofun⟩
  | readGeneration | lookAtCache | load | loadFails | storeCache => exact reading stepped
  | begin id _ =>
    dsimp only at stepped
    split at stepped
    · cases stepped
    · cases stepped
      exact ⟨floor, ordered.setWriter id nofun nofun (absurd rfl)⟩
  | callFails id | refuse id
  | call id | bump id => exact writing (by simp) stepped

theorem Ordered.fresh (ordered : Ordered s floor) : Fresh s := by
  intro reader r _ _ found phase writer w returned written known back before wrote t member
  have kept := ordered.readers reader r found
  rw [phase] at kept
  exact kept t member writer w returned written known back before wrote

theorem ordered_initial (store : S) : ∃ floor, Ordered (State.initial store : State S U L α ε δ Op Reply) floor :=
  ⟨fun _ => 0, monotone_const, fun _ => le_rfl, nofun, nofun, nofun, nofun, nofun⟩

section Risky
variable {risky : L → Prop}

theorem writers_of_readerStep (stepped : readerStep P s id r e = some t) : t.writers = s.writers := by
  unfold Generation.readerStep at stepped
  repeat' split at stepped
  all_goals cases stepped
  all_goals rfl

/-- The writers of one kind do not fail after they have written. -/
def RiskySettles (risky : L → Prop) (s : State S U L α ε δ Op Reply) : Event U L → Prop
  | .callFails id | .refuse id => ∀ w, s.writers id = some w → risky w.request → w.lastWrite = none
  | .bump _ => s.gen.toNat + 1 < 2 ^ 64
  | _ => True

/-- A writer of another kind that has written has only to raise the generation. -/
def AtEnd (P : Setting S U L α ε δ Op Reply) (w : Writer L δ Op Reply) : Prop :=
  w.lastWrite = none ∧ w.rest.WritesLast P.takesEffect ∨ ∃ a, w.rest = .done a

theorem AtEnd.called {op : Op} {later : Reply op → Program δ Op Reply Unit} {store : S}
    (ends : AtEnd P w) (rest : w.rest = .call op later) :
    AtEnd P { w with
      rest := later (P.handle op store).1
      lastWrite := if P.takesEffect op (P.handle op store).1 then some now else w.lastWrite } := by
  rcases ends with ⟨unwritten, last⟩ | ⟨a, over_⟩
  · rw [rest] at last
    have here := last (P.handle op store).1
    split
    next effect =>
      rw [if_pos effect] at here
      exact .inr here
    next effect =>
      rw [if_neg effect] at here
      exact .inl ⟨unwritten, here⟩
  · exact nomatch rest.symm.trans over_

theorem atEnd_step (last : ∀ request, ¬risky request → (P.serve request).WritesLast P.takesEffect)
    (ends : ∀ id w, s.writers id = some w → ¬risky w.request → AtEnd P w) (stepped : Step P s e t) :
    ∀ id w, t.writers id = some w → ¬risky w.request → AtEnd P w := by
  have updated {u : State S U L α ε δ Op Reply} (same : u.writers = s.writers) {id : Nat} {v : Writer L δ Op Reply}
      (new : ¬risky v.request → AtEnd P v) : ∀ i w, (u.setWriter id v).writers i = some w →
      ¬risky w.request → AtEnd P w := by
    intro i w found kind
    by_cases here : i = id
    · subst here
      obtain rfl : v = w := by simpa [State.setWriter] using found
      exact new kind
    · exact ends i w (by simpa [State.setWriter, here, same] using found) kind
  have reading {id : Nat} (stepped : ((s.readers id).bind fun r => Generation.readerStep P s id r e) = some t) :
      t.writers = s.writers := by
    obtain ⟨r, -, stepped⟩ := bind_eq_some_iff.mp stepped
    exact writers_of_readerStep stepped
  unfold Step next at stepped
  cases e with
  | setUser =>
    cases stepped
    exact ends
  | start =>
    dsimp only at stepped
    split at stepped
    · cases stepped
    · split at stepped
      · cases stepped
        exact ends
      · cases stepped
        exact ends
  | readGeneration | lookAtCache | load | loadFails | storeCache =>
    rw [reading stepped]
    exact ends
  | begin id request =>
    dsimp only at stepped
    split at stepped
    · cases stepped
    · cases stepped
      exact updated rfl fun kind => .inl ⟨rfl, last request kind⟩
  | call id | callFails id | refuse id | bump id =>
    obtain ⟨w, found, stepped⟩ := bind_eq_some_iff.mp stepped
    split at stepped
    · cases stepped
    simp only [Generation.writerStep] at stepped
    split at stepped
    next rest =>
      cases stepped
      first
      | exact updated rfl fun kind => (ends id w found kind).called rest
      | exact updated rfl fun kind => ends id w found kind
    next => cases stepped

theorem settles_of_risky (ends : ∀ id w, s.writers id = some w → ¬risky w.request → AtEnd P w)
    (settles : RiskySettles risky s e) (stepped : Step P s e t) : Settles s e := by
  have failing {id : Nat} (w : Writer L δ Op Reply) (found : s.writers id = some w) (open_ : ∀ a, w.rest ≠ .done a)
      (quiet : risky w.request → w.lastWrite = none) : w.lastWrite = none := by
    by_cases kind : risky w.request
    · exact quiet kind
    · rcases ends id w found kind with ⟨unwritten, -⟩ | ⟨a, over_⟩
      · exact unwritten
      · exact absurd over_ (open_ a)
  unfold Step next at stepped
  cases e with
  | callFails id | refuse id =>
    intro w found
    refine failing w found (fun a over_ => ?_) (settles w found)
    dsimp only at stepped
    rw [found] at stepped
    simp only [bind_some, Generation.writerStep, over_] at stepped
    split at stepped
    · cases stepped
    · cases stepped
  | bump => exact settles
  | _ => trivial

theorem fresh_of_risky_run {store : S} (last : ∀ request, ¬risky request → (P.serve request).WritesLast P.takesEffect)
    (run : Run (Guarded (RiskySettles risky) (Step P)) (State.initial store) events s) : Fresh s := by
  obtain ⟨⟨floor, ordered⟩, -⟩ :
      (∃ floor, Ordered s floor) ∧ ∀ id w, s.writers id = some w → ¬risky w.request → AtEnd P w := by
    refine run.invariant (fun s => (∃ floor, Ordered s floor) ∧
      ∀ id w, s.writers id = some w → ¬risky w.request → AtEnd P w) ⟨ordered_initial store, nofun⟩ ?_
    rintro s e t ⟨⟨floor, ordered⟩, ends⟩ ⟨settles, stepped⟩
    exact ⟨ordered.step (settles_of_risky ends settles stepped) stepped, atEnd_step last ends stepped⟩
  exact ordered.fresh

end Risky

def execute (P : Setting S U L α ε δ Op Reply) (s : State S U L α ε δ Op Reply) :
    List (Event U L) → Option (State S U L α ε δ Op Reply)
  | [] => some s
  | e :: events => (next P s e).bind fun t => execute P t events

theorem guarded_of_execute {guard : State S U L α ε δ Op Reply → Event U L → Prop}
    (done : execute P s events = some t) (met : ∀ s, ∀ e ∈ events, guard s e) :
    Run (Guarded guard (Step P)) s events t := by
  induction events generalizing s with
  | nil =>
    cases done
    exact .nil
  | cons e events ih =>
    obtain ⟨mid, first, rest⟩ := bind_eq_some_iff.mp done
    have one : Run (Guarded guard (Step P)) s [e] mid := Run.snoc .nil ⟨met s e (.head _), first⟩
    exact one.trans (ih rest fun s e later => met s e (.tail _ later))

theorem run_of_execute (done : execute P s events = some t) : Run (Step P) s events t :=
  have run : Run (Guarded (fun _ _ => True) (Step P)) s events t := guarded_of_execute done fun _ _ _ => trivial
  run.unguarded

end Invariant

end DumboDB.Foundation.Generation
