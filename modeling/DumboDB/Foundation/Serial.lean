import DumboDB.Foundation.Interaction
import DumboDB.Foundation.Transition
import Mathlib.Data.List.Nodup
import Mathlib.Logic.Function.Basic

/-!
Programs that take turns on one store. When a program first writes only while everything that it
has read would be answered the same, and while no other program is between its first write and its
end, the store is the one that the programs leave one after the other, in the order of their first
writes.
-/

namespace DumboDB.Foundation.Serial
open Function List

open Transition (Run Guarded)

variable {ε Op S α I : Type} {Reply : Op → Type}

structure Process (ε Op : Type) (Reply : Op → Type) (α : Type) where
  program : Program ε Op Reply α
  wrote : Bool
  rest : Program ε Op Reply α

/-- The store, the programs, and the order in which they first wrote. -/
structure System (ε Op S α I : Type) (Reply : Op → Type) where
  store : S
  procs : I → Process ε Op Reply α
  order : List I

def System.initial (store : S) (programs : I → Program ε Op Reply α) : System ε Op S α I Reply :=
  ⟨store, fun i => ⟨programs i, false, programs i⟩, []⟩

def ended : Program ε Op Reply α → Option (Except ε α)
  | .done a => some (.ok a)
  | .fail e => some (.error e)
  | .call _ _ => none

variable (handle : (op : Op) → S → Reply op × S) (writes : Op → Bool)

/-- The reads by which a program comes to where it is, as the store answers them now. -/
inductive Reads (s : S) : Program ε Op Reply α → Program ε Op Reply α → Prop where
  | here (p : Program ε Op Reply α) : Reads s p p
  | read {op : Op} {next : Reply op → Program ε Op Reply α} {rest : Program ε Op Reply α} (only : writes op = false) :
      Reads s (next (handle op s).1) rest → Reads s (.call op next) rest

section
variable [DecidableEq I]

def System.advance (sys : System ε Op S α I Reply) (i : I) (op : Op) (next : Reply op → Program ε Op Reply α) :
    System ε Op S α I Reply where
  store := (handle op sys.store).2
  procs := Function.update sys.procs i
    ⟨(sys.procs i).program, (sys.procs i).wrote || writes op, next (handle op sys.store).1⟩
  order := if writes op && !(sys.procs i).wrote then sys.order ++ [i] else sys.order

inductive Step (sys : System ε Op S α I Reply) (i : I) : System ε Op S α I Reply → Prop where
  | call {op : Op} {next : Reply op → Program ε Op Reply α} (waiting : (sys.procs i).rest = .call op next) :
      Step sys i (sys.advance handle writes i op next)

end

/-- A program that is about to write has read what is still so, and no other one is in the middle of its writes. -/
def Undisturbed (sys : System ε Op S α I Reply) (i : I) : Prop :=
  ∀ op next, (sys.procs i).rest = .call op next → writes op = true →
    ((sys.procs i).wrote = false → Reads handle writes sys.store (sys.procs i).program (sys.procs i).rest) ∧
      ∀ j, j ≠ i → (sys.procs j).wrote = true → (ended (sys.procs j).rest).isSome = true

/-- The programs one after the other, each with the store and the value that the run leaves it. -/
inductive InTurn (programs : I → Program ε Op Reply α) (start : S) : List (I × Except ε α) → S → Prop where
  | nil : InTurn programs start [] start
  | snoc {results : List (I × Except ε α)} {s t : S} {i : I} {result : Except ε α} :
      InTurn programs start results s → (programs i).run handle s = (result, t) →
      InTurn programs start (results ++ [(i, result)]) t

variable {handle writes} {sys after : System ε Op S α I Reply} {programs : I → Program ε Op Reply α}
    {start : S} {i : I}

theorem run_of_ended {p : Program ε Op Reply α} {result : Except ε α} (done : ended p = some result) (s : S) :
    p.run handle s = (result, s) := by
  cases p with
  | done a
  | fail e =>
    cases done
    rfl
  | call => cases done

theorem Reads.run_eq (quiet : ∀ op s, writes op = false → (handle op s).2 = s) {s : S} {p rest : Program ε Op Reply α}
    (reads : Reads handle writes s p rest) : p.run handle s = rest.run handle s := by
  induction reads with
  | here => rfl
  | @read op next rest only _ ih =>
    change (next (handle op s).1).run handle (handle op s).2 = _
    rw [quiet op s only]
    exact ih

/-- What holds along an undisturbed run: the programs that have written are those of the order; all but the
last have ended, and they were run in turn; what is left of the last one ends as the whole program does
after them. -/
structure Serialized (handle : (op : Op) → S → Reply op × S) (programs : I → Program ε Op Reply α) (start : S)
    (sys : System ε Op S α I Reply) : Prop where
  program : ∀ i, (sys.procs i).program = programs i
  wrote : ∀ i, i ∈ sys.order ↔ (sys.procs i).wrote = true
  nodup : sys.order.Nodup
  unwritten : sys.order = [] → sys.store = start
  serial : ∀ before i, sys.order = before ++ [i] → ∃ results s, InTurn handle programs start results s ∧
    results.map Prod.fst = before ∧ (∀ r ∈ results, ended (sys.procs r.1).rest = some r.2) ∧
    (programs i).run handle s = (sys.procs i).rest.run handle sys.store

theorem initial_serialized : Serialized handle programs start (.initial start programs) where
  program _ := rfl
  wrote _ := by simp [System.initial]
  nodup := .nil
  unwritten _ := rfl
  serial before i same := absurd same (by simp [System.initial])

theorem Serialized.inTurn (held : Serialized handle programs start sys)
    (done : ∀ j, (sys.procs j).wrote = true → (ended (sys.procs j).rest).isSome = true) :
    ∃ results, InTurn handle programs start results sys.store ∧ results.map Prod.fst = sys.order ∧
      ∀ r ∈ results, ended (sys.procs r.1).rest = some r.2 := by
  rcases eq_nil_or_concat' sys.order with none_ | ⟨before, k, last⟩
  · rw [held.unwritten none_]
    exact ⟨[], .nil, none_.symm, nofun⟩
  · obtain ⟨results, s, turns, names, ends, same⟩ := held.serial before k last
    have written : (sys.procs k).wrote = true := (held.wrote k).mp (by simp [last])
    obtain ⟨result, ending⟩ := Option.isSome_iff_exists.mp (done k written)
    rw [run_of_ended ending] at same
    refine ⟨results ++ [(k, result)], turns.snoc same, by simp [names, last], fun r member => ?_⟩
    rcases mem_append.mp member with early | here
    · exact ends r early
    · cases mem_singleton.mp here
      exact ending

section Step
variable {op : Op} {next : Reply op → Program ε Op Reply α}

theorem ne_of_ended (waiting : (sys.procs i).rest = .call op next) {j : I} {result : Except ε α}
    (done : ended (sys.procs j).rest = some result) : j ≠ i := by
  rintro rfl
  rw [waiting] at done
  cases done

variable [DecidableEq I]

theorem advance_other {j : I} (other : j ≠ i) : (sys.advance handle writes i op next).procs j = sys.procs j :=
  update_of_ne other _ _

theorem advance_self : (sys.advance handle writes i op next).procs i =
    ⟨(sys.procs i).program, (sys.procs i).wrote || writes op, next (handle op sys.store).1⟩ :=
  update_self _ _ _

theorem advance_program (j : I) : ((sys.advance handle writes i op next).procs j).program
    = (sys.procs j).program := by
  by_cases same : j = i
  · rw [same, advance_self]
  · rw [advance_other same]

section

variable (held : Serialized handle programs start sys) (quiet : ∀ op s, writes op = false →
  (handle op s).2 = s) (waiting : (sys.procs i).rest = .call op next)
include held quiet waiting

theorem Serialized.advance_settled (settled : (writes op && !(sys.procs i).wrote) = false) :
    Serialized handle programs start (sys.advance handle writes i op next) := by
  have order : (sys.advance handle writes i op next).order = sys.order := by simp [System.advance, settled]
  have store (unwritten : i ∉ sys.order) : (sys.advance handle writes i op next).store = sys.store := by
    have early : (sys.procs i).wrote = false := by simpa using mt (held.wrote i).mpr unwritten
    exact quiet op sys.store (by simpa [early] using settled)
  constructor
  · exact fun j => (advance_program j).trans (held.program j)
  · intro j
    rw [order, held.wrote j]
    by_cases same : j = i
    · subst same
      rw [advance_self]
      cases wrote : (sys.procs j).wrote with
      | true => simp
      | false => simpa [wrote] using settled
    · rw [advance_other same]
  · exact order ▸ held.nodup
  · intro none_
    rw [order] at none_
    rw [store (by simp [none_])]
    exact held.unwritten none_
  · intro before k last
    rw [order] at last
    obtain ⟨results, s, turns, names, ends, same⟩ := held.serial before k last
    refine ⟨results, s, turns, names, fun r member => ?_, ?_⟩
    · rw [advance_other (ne_of_ended waiting (ends r member))]
      exact ends r member
    · by_cases mine : k = i
      · subst mine
        rw [advance_self, same, waiting]
        rfl
      · -- the program is neither the last one nor an earlier one, so it has not written and this call is a read
        have outside : i ∉ sys.order := by
          rw [last, ← names]
          intro inside
          rcases mem_append.mp inside with early | here
          · obtain ⟨r, member, rfl⟩ := mem_map.mp early
            exact ne_of_ended waiting (ends r member) rfl
          · exact mine (mem_singleton.mp here).symm
        rw [advance_other mine, store outside]
        exact same

theorem Serialized.advance_first (writing : writes op = true) (first : (sys.procs i).wrote = false)
    (reads : Reads handle writes sys.store (sys.procs i).program (sys.procs i).rest)
    (done : ∀ j, j ≠ i → (sys.procs j).wrote = true → (ended (sys.procs j).rest).isSome = true) :
    Serialized handle programs start (sys.advance handle writes i op next) := by
  have order : (sys.advance handle writes i op next).order = sys.order ++ [i] := by
    simp [System.advance, writing, first]
  have fresh : i ∉ sys.order := fun inside => absurd ((held.wrote i).mp inside) (by simp [first])
  constructor
  · exact fun j => (advance_program j).trans (held.program j)
  · intro j
    rw [order, mem_append, mem_singleton, held.wrote j]
    by_cases same : j = i
    · subst same
      simp [advance_self, writing]
    · simp [advance_other same, same]
  · rw [order]
    exact List.Nodup.append held.nodup (nodup_singleton i) (by simpa using fresh)
  · exact fun none_ => absurd (order.symm.trans none_) (by simp)
  · intro _ k last
    rw [order] at last
    obtain ⟨rfl, same⟩ := append_inj' last rfl
    cases same
    have ended_ (j : I) (written : (sys.procs j).wrote = true) : (ended (sys.procs j).rest).isSome = true := by
      refine done j ?_ written
      rintro rfl
      exact absurd written (by simp [first])
    obtain ⟨results, turns, names, ends⟩ := held.inTurn ended_
    refine ⟨results, sys.store, turns, names, fun r member => ?_, ?_⟩
    · rw [advance_other (ne_of_ended waiting (ends r member))]
      exact ends r member
    · rw [advance_self, ← held.program i, reads.run_eq quiet, waiting]
      rfl

end

end Step

section Runs
variable [DecidableEq I]

variable {events : List I}

theorem serialized_of_run (quiet : ∀ op s, writes op = false → (handle op s).2 = s)
    (run : Run (Guarded (Undisturbed handle writes) (Step handle writes)) (.initial start programs) events sys) :
    Serialized handle programs start sys := by
  refine run.invariant (Serialized handle programs start) initial_serialized fun sys i t held ⟨calm, stepped⟩ => ?_
  cases stepped with
  | @call op next waiting =>
    cases settled : writes op && !(sys.procs i).wrote with
    | false => exact held.advance_settled quiet waiting settled
    | true =>
      obtain ⟨writing, first⟩ := Bool.and_eq_true_iff.mp settled
      have first : (sys.procs i).wrote = false := by simpa using first
      obtain ⟨reads, done⟩ := calm op next waiting writing
      exact held.advance_first quiet waiting writing first (reads first) done

theorem procs_of_run (run : Run (Step handle writes) sys events after) {j : I} (idle : j ∉ events) :
    after.procs j = sys.procs j := by
  induction run with
  | nil => rfl
  | @snoc events s t i _ stepped ih =>
    obtain ⟨early, other⟩ : j ∉ events ∧ j ≠ i := by simpa using idle
    cases stepped with
    | call => rw [advance_other other, ih early]

theorem order_of_run (run : Run (Step handle writes) sys events after) : ∃ more, after.order = sys.order ++ more := by
  induction run with
  | nil => exact ⟨[], (append_nil _).symm⟩
  | @snoc events s t i _ stepped ih =>
    obtain ⟨more, same⟩ := ih
    cases stepped with
    | call =>
      unfold System.advance
      split
      · exact ⟨more ++ [i], by rw [same, append_assoc]⟩
      · exact ⟨more, same⟩

theorem wrote_of_ended (run : Run (Step handle writes) (.initial start programs) events sys)
    (must : ∀ i, (programs i).MustWrite writes) {a : α} (done : ended (sys.procs i).rest = some (.ok a)) :
    (sys.procs i).wrote = true := by
  have held := run.invariant (fun sys => ∀ i, (sys.procs i).wrote = true ∨ (sys.procs i).rest.MustWrite writes)
    (fun i => .inr (must i)) ?_ i
  · rcases held with wrote | waiting
    · exact wrote
    · cases rest : (sys.procs i).rest with
      | done a =>
        rw [rest] at waiting
        exact waiting.elim
      | fail e => exact nomatch (rest ▸ done : ended (.fail e) = some (.ok a))
      | call op next => exact nomatch (rest ▸ done : ended (.call op next) = some (.ok a))
  · intro sys i t held stepped j
    cases stepped with
    | @call op next waiting =>
      by_cases same : j = i
      · subst same
        rw [advance_self]
        rcases held j with wrote | left
        · exact .inl (by simp [wrote])
        · rw [waiting] at left
          rcases left with writing | later
          · exact .inl (by simp [writing])
          · exact .inr (later _)
      · rw [advance_other same]
        exact held j

theorem order_of_apart (quiet : ∀ op s, writes op = false → (handle op s).2 = s) {early late : List I} {j : I}
    (run : Run (Guarded (Undisturbed handle writes) (Step handle writes)) (.initial start programs)
    (early ++ late) sys)
    (over_ : i ∉ late) (waits : j ∉ early) (first : i ∈ sys.order) (second : j ∈ sys.order) :
    ∃ before behind, sys.order = before ++ behind ∧ i ∈ before ∧ j ∈ behind := by
  obtain ⟨mid, until_, onward⟩ := run.split_append
  obtain ⟨more, order⟩ := order_of_run onward.unguarded
  have half := serialized_of_run quiet until_
  have whole := serialized_of_run quiet run
  have written : i ∈ mid.order := by
    rw [half.wrote, ← procs_of_run onward.unguarded over_]
    exact (whole.wrote i).mp first
  have unwritten : j ∉ mid.order := by
    rw [half.wrote, procs_of_run until_.unguarded waits]
    exact Bool.false_ne_true
  refine ⟨mid.order, more, order, written, ?_⟩
  exact (mem_append.mp (order ▸ second)).resolve_left unwritten

def System.play (handle : (op : Op) → S → Reply op × S) (writes : Op → Bool) (sys : System ε Op S α I Reply) :
    List I → Option (System ε Op S α I Reply)
  | [] => some sys
  | i :: events =>
    match (sys.procs i).rest with
    | .call op next => (sys.advance handle writes i op next).play handle writes events
    | _ => none

theorem run_of_play (played : sys.play handle writes events = some after) :
    Run (Step handle writes) sys events after := by
  induction events generalizing sys with
  | nil =>
    cases played
    exact .nil
  | cons i events ih =>
    unfold System.play at played
    split at played
    next op next waiting =>
      have first : Run (Step handle writes) sys [i] (sys.advance handle writes i op next) :=
        .snoc .nil (.call waiting)
      exact first.trans (ih played)
    next => cases played

omit [DecidableEq I] in
theorem undisturbed_of_read {op : Op} {next : Reply op → Program ε Op Reply α}
    (waiting : (sys.procs i).rest = .call op next)
    (only : writes op = false) : Undisturbed handle writes sys i := by
  intro _ _ waiting' writing
  cases waiting.symm.trans waiting'
  exact absurd writing (by simp [only])

end Runs

end DumboDB.Foundation.Serial
