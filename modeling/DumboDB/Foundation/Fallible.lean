import Mathlib.Data.List.Basic

/-!
Computations that may fail: taking them apart, and invariants of folds that stop at an error.
-/

namespace DumboDB.Foundation.Fallible
open List

variable {ε α β : Type} {b : β} {x : Except ε α} {a : α} {list : List α} {f : β → α → Except ε β}
  {test : α → Except ε Bool} {out : List β}

theorem bind_eq_ok {f : α → Except ε β} : x >>= f = .ok b ↔ ∃ a, x = .ok a ∧ f a = .ok b := by
  cases x with
  | error e => exact ⟨fun same => (nomatch same), fun ⟨_, same, _⟩ => (nomatch same)⟩
  | ok a => exact ⟨fun same => ⟨a, rfl, same⟩, fun ⟨_, same, ok⟩ => by cases same; exact ok⟩

theorem map_eq_ok {f : α → β} : x.map f = .ok b ↔ ∃ a, x = .ok a ∧ f a = b := by
  cases x with
  | error e => exact ⟨fun same => (nomatch same), fun ⟨_, same, _⟩ => (nomatch same)⟩
  | ok a => exact ⟨fun same => ⟨a, rfl, Except.ok.inj same⟩, fun ⟨_, same, ok⟩ => by cases same; rw [← ok]; rfl⟩

instance decidableExistsOk (x : Except ε α) (P : α → Prop) [DecidablePred P] : Decidable (∃ a, x = .ok a ∧ P a) :=
  match x with
  | .ok a => decidable_of_iff (P a) ⟨fun holds => ⟨a, rfl, holds⟩, fun ⟨_, same, holds⟩ => Except.ok.inj same ▸ holds⟩
  | .error _ => .isFalse fun ⟨_, same, _⟩ => nomatch same

instance decidableExistsSome (x : Option α) (P : α → Prop) [DecidablePred P] : Decidable (∃ a, x = some a ∧ P a) :=
  match x with
  | some a => decidable_of_iff (P a) ⟨fun holds => ⟨a, rfl, holds⟩,
        fun ⟨_, same, holds⟩ => Option.some.inj same ▸ holds⟩
  | none => .isFalse fun ⟨_, same, _⟩ => nomatch same

theorem pure_eq_ok {b : α} : (pure a : Except ε α) = .ok b ↔ a = b :=
  ⟨Except.ok.inj, fun same => congrArg _ same⟩

theorem foldlM_cons_ok {after : β} :
    (a :: list).foldlM f b = .ok after ↔ ∃ mid, f b a = .ok mid ∧ list.foldlM f mid = .ok after := by
  exact bind_eq_ok

theorem foldlM_keeps (P : β → Prop) {after : β} (step : ∀ a ∈ list, ∀ b mid, P b → f b a = .ok mid → P mid)
    (folded : list.foldlM f b = .ok after) (start : P b) : P after := by
  induction list generalizing b with
  | nil =>
    cases folded
    exact start
  | cons a list ih =>
    obtain ⟨mid, first, rest⟩ := foldlM_cons_ok.mp folded
    exact ih (fun a member => step a (.tail _ member)) rest (step a (.head _) b mid start first)

theorem foldlM_sweep (P : List α → β → Prop) {whole : List α} {after : β}
    (step : ∀ passed a rest b mid, passed ++ a :: rest = whole → P passed b → f b a = .ok mid → P (passed ++ [a]) mid)
    (folded : whole.foldlM f b = .ok after) (start : P [] b) : P whole after := by
  have from_ (rest passed : List α) (b : β) (split : passed ++ rest = whole) (held : P passed b)
      (folded : rest.foldlM f b = .ok after) : P whole after := by
    induction rest generalizing passed b with
    | nil =>
      cases folded
      rw [append_nil] at split
      exact split ▸ held
    | cons a rest ih =>
      obtain ⟨mid, first, later⟩ := foldlM_cons_ok.mp folded
      refine ih (passed ++ [a]) mid ?_ (step passed a rest b mid split held first) later
      rw [append_assoc]
      exact split
  exact from_ whole [] b rfl start folded

theorem mem_of_mapM_ok {f : α → Except ε β} (mapped : list.mapM f = .ok out)
    (member : b ∈ out) : ∃ a ∈ list, f a = .ok b := by
  induction list generalizing out with
  | nil =>
    cases mapped
    cases member
  | cons a list ih =>
    rw [mapM_cons] at mapped
    obtain ⟨_, here, rest⟩ := bind_eq_ok.mp mapped
    obtain ⟨_, there, done⟩ := bind_eq_ok.mp rest
    cases pure_eq_ok.mp done
    rcases mem_cons.mp member with rfl | later
    · exact ⟨a, .head _, here⟩
    · obtain ⟨source, inside, same⟩ := ih there later
      exact ⟨source, .tail _ inside, same⟩

theorem mem_of_mapM_some {f : α → Option β} (mapped : list.mapM f = some out)
    (member : b ∈ out) : ∃ a ∈ list, f a = some b := by
  induction list generalizing out with
  | nil =>
    cases mapped
    cases member
  | cons a list ih =>
    rw [mapM_cons] at mapped
    obtain ⟨_, here, rest⟩ := Option.bind_eq_some_iff.mp mapped
    obtain ⟨_, there, done⟩ := Option.bind_eq_some_iff.mp rest
    cases done
    rcases mem_cons.mp member with rfl | later
    · exact ⟨a, .head _, here⟩
    · obtain ⟨source, inside, same⟩ := ih there later
      exact ⟨source, .tail _ inside, same⟩

theorem exists_mapM_ok_iff {f : α → Except ε β} {P : β → Prop} :
    (∃ out, list.mapM f = .ok out ∧ ∀ b ∈ out, P b) ↔ ∀ a ∈ list, ∃ b, f a = .ok b ∧ P b := by
  induction list with
  | nil => exact ⟨fun _ => nofun, fun _ => ⟨[], rfl, nofun⟩⟩
  | cons a list ih =>
    simp only [mapM_cons, forall_mem_cons, ← ih]
    constructor
    · rintro ⟨out, mapped, kept⟩
      obtain ⟨first, here, rest⟩ := bind_eq_ok.mp mapped
      obtain ⟨others, there, done⟩ := bind_eq_ok.mp rest
      cases pure_eq_ok.mp done
      obtain ⟨keptFirst, keptOthers⟩ := forall_mem_cons.mp kept
      exact ⟨⟨first, here, keptFirst⟩, others, there, keptOthers⟩
    · rintro ⟨⟨first, here, keptFirst⟩, others, there, keptOthers⟩
      refine ⟨first :: others, ?_, forall_mem_cons.mpr ⟨keptFirst, keptOthers⟩⟩
      rw [here, there]
      rfl

end DumboDB.Foundation.Fallible
