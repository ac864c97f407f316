import Mathlib.Data.List.Induction

/-!
Labelled transition systems: runs with their history, the rule for what every step keeps, and runs
whose steps all meet a condition.
-/

namespace DumboDB.Foundation.Transition
open List

variable {S E : Type} {step : S → E → S → Prop} {start : S} {events : List E} {s : S} {t : S}

/-- An execution: the events so far and the state that they lead to. -/
inductive Run (step : S → E → S → Prop) (start : S) : List E → S → Prop where
  | nil : Run step start [] start
  | snoc {events : List E} {s t : S} {e : E} : Run step start events s → step s e t → Run step start (events ++ [e]) t

/-- The steps taken from a state in which their event meets a condition. -/
def Guarded (guard : S → E → Prop) (step : S → E → S → Prop) (s : S) (e : E) (t : S) : Prop :=
  guard s e ∧ step s e t

theorem Run.rule (P : List E → S → Prop) (first : P [] start)
    (next : ∀ events s e t, P events s → step s e t → P (events ++ [e]) t)
    (run : Run step start events s) : P events s := by
  induction run with
  | nil => exact first
  | snoc _ stepped ih => exact next _ _ _ _ ih stepped

theorem Run.invariant (I : S → Prop) (first : I start) (next : ∀ s e t, I s → step s e t → I t)
    (run : Run step start events s) : I s :=
  run.rule (fun _ s => I s) first fun _ s e t held stepped => next s e t held stepped

theorem Run.snocGuarded {guard : S → E → Prop} {e : E}
    (run : Run (Guarded guard step) start events s) (stepped : step s e t) (met : guard s e) :
    Run (Guarded guard step) start (events ++ [e]) t :=
  run.snoc ⟨met, stepped⟩

theorem Run.unguarded {guard : S → E → Prop}
    (run : Run (Guarded guard step) start events s) : Run step start events s := by
  induction run with
  | nil => exact .nil
  | snoc _ stepped ih => exact ih.snoc stepped.2

theorem Run.trans {before after : List E} (first : Run step start before s) (second : Run step s after t) :
    Run step start (before ++ after) t := by
  induction second with
  | nil => rwa [append_nil]
  | snoc _ stepped ih =>
    rw [← append_assoc]
    exact ih.snoc stepped

theorem Run.split_append {before after : List E} (run : Run step start (before ++ after) t) :
    ∃ s, Run step start before s ∧ Run step s after t := by
  induction after using List.reverseRecOn generalizing t with
  | nil =>
    rw [append_nil] at run
    exact ⟨t, run, .nil⟩
  | append_singleton after last ih =>
    rw [← append_assoc] at run
    generalize whole : before ++ after ++ [last] = events at run
    cases run with
    | nil => exact absurd whole (by simp)
    | snoc run stepped =>
      obtain ⟨rfl, same⟩ := append_inj' whole rfl
      cases same
      obtain ⟨s, first, second⟩ := ih run
      exact ⟨s, first, second.snoc stepped⟩

theorem Run.split {before after : List E} {e : E} (run : Run step start (before ++ e :: after) t) :
    ∃ s s', Run step start before s ∧ step s e s' := by
  induction after using List.reverseRecOn generalizing t with
  | nil =>
    generalize whole : before ++ [e] = events at run
    cases run with
    | nil => exact absurd whole (by simp)
    | snoc run stepped =>
      obtain ⟨rfl, last⟩ := append_inj' whole rfl
      cases last
      exact ⟨_, _, run, stepped⟩
  | append_singleton after last ih =>
    generalize whole : before ++ e :: (after ++ [last]) = events at run
    cases run with
    | nil => exact absurd whole (by simp)
    | snoc run stepped =>
      rw [← cons_append, ← append_assoc] at whole
      obtain ⟨rfl, -⟩ := append_inj' whole rfl
      exact ih run

end DumboDB.Foundation.Transition
