import DumboDB.Foundation.Fallible

/-!
Programs that call the operations of a shared store one at a time and go on with the replies. A
program run alone on a store ends with a value or an error, and with the store it leaves.
-/

namespace DumboDB.Foundation

inductive Program (ε Op : Type) (Reply : Op → Type) (α : Type) where
  | done (a : α)
  | fail (e : ε)
  | call (op : Op) (next : Reply op → Program ε Op Reply α)

namespace Program

variable {ε Op S α β : Type} {Reply : Op → Type} {handle : (op : Op) → S → Reply op × S} {s after : S}
  {p : Program ε Op Reply α} {f : α → Program ε Op Reply β} {P : Op → Prop}
  {takesEffect : (op : Op) → Reply op → Bool}

def bind : Program ε Op Reply α → (α → Program ε Op Reply β) → Program ε Op Reply β
  | .done a, f => f a
  | .fail e, _ => .fail e
  | .call op next, f => .call op fun reply => (next reply).bind f

instance : Monad (Program ε Op Reply) where
  pure := .done
  bind := bind

def perform (op : Op) : Program ε Op Reply (Reply op) := .call op .done

def lift : Except ε α → Program ε Op Reply α
  | .ok a => .done a
  | .error e => .fail e

def run (handle : (op : Op) → S → Reply op × S) : Program ε Op Reply α → S → Except ε α × S
  | .done a, s => (.ok a, s)
  | .fail e, s => (.error e, s)
  | .call op next, s => (next (handle op s).1).run handle (handle op s).2

theorem run_bind : (p >>= f).run handle s =
    match p.run handle s with
    | (.ok a, between) => (f a).run handle between
    | (.error e, between) => (.error e, between) := by
  induction p generalizing s with
  | done a => rfl
  | fail e => rfl
  | call _ _ ih => exact ih _

theorem run_bind_ok {b : β} : (p >>= f).run handle s = (.ok b, after) ↔
      ∃ a between, p.run handle s = (.ok a, between) ∧ (f a).run handle between = (.ok b, after) := by
  rw [run_bind]
  constructor
  · intro ran
    split at ran
    next a between first => exact ⟨a, between, first, ran⟩
    next => cases ran
  · rintro ⟨a, between, first, rest⟩
    rw [first]
    exact rest

theorem run_pure_ok {a b : α} : (pure a : Program ε Op Reply α).run handle s = (.ok b, after) ↔ a = b ∧
    s = after := by
  change ((.ok a, s) : Except ε α × S) = _ ↔ _
  simp

theorem run_lift_ok {x : Except ε α} {b : α} :
    (lift x : Program ε Op Reply α).run handle s = (.ok b, after) ↔ x = .ok b ∧ s = after := by
  cases x with
  | ok a
  | error e => simp [lift, run]

theorem run_perform_ok {op : Op} {reply : Reply op} :
    (perform op : Program ε Op Reply (Reply op)).run handle s = (.ok reply, after) ↔
    handle op s = (reply, after) := by
  change ((.ok (handle op s).1, (handle op s).2) : Except ε (Reply op) × S) = _ ↔ _
  simp [Prod.ext_iff]

theorem run_fail_ok {e : ε} {b : α} : ¬(fail e : Program ε Op Reply α).run handle s = (.ok b, after) := nofun

theorem run_lift_bind_ok {x : Except ε α} {b : β} :
    (lift x >>= f).run handle s = (.ok b, after) ↔ ∃ a, x = .ok a ∧ (f a).run handle s = (.ok b, after) := by
  rw [run_bind_ok]
  simp only [run_lift_ok]
  exact ⟨fun ⟨a, _, ⟨given, same⟩, rest⟩ => ⟨a, given, same ▸ rest⟩, fun ⟨a, given, rest⟩ => ⟨a, s,
    ⟨given, rfl⟩, rest⟩⟩

theorem run_guard_ok {c : Prop} [Decidable c] {e : ε} {a : α} :
    (if c then fail e else p).run handle s = (.ok a, after) ↔ ¬c ∧ p.run handle s = (.ok a, after) := by
  split
  next holds => simp [run, holds]
  next fails => simp [fails]

theorem run_foldlM {step : β → α → Program ε Op Reply β} {f : β → α → β}
    (one : ∀ b a, (step b a).run handle s = (.ok (f b a), s)) (list : List α) (b : β) :
    (list.foldlM step b).run handle s = (.ok (list.foldl f b), s) := by
  induction list generalizing b with
  | nil => rfl
  | cons a list ih =>
    rw [List.foldlM_cons, run_bind, one]
    exact ih _

/-- No run of a program ends with a value before it has written. -/
def MustWrite (writes : Op → Bool) : Program ε Op Reply α → Prop
  | .done _ => False
  | .fail _ => True
  | .call op next => writes op = true ∨ ∀ reply, (next reply).MustWrite writes

theorem mustWrite_bind {writes : Op → Bool} (later : ∀ a, (f a).MustWrite writes) : (p >>= f).MustWrite writes := by
  induction p with
  | done a => exact later a
  | fail e => trivial
  | call _ _ ih => exact .inr ih

/-- Every operation that a program calls, whatever the replies, is of a kind. -/
def CallsOnly (P : Op → Prop) : Program ε Op Reply α → Prop
  | .done _ => True
  | .fail _ => True
  | .call op next => P op ∧ ∀ reply, (next reply).CallsOnly P

theorem callsOnly_bind (first : p.CallsOnly P) (later : ∀ a, (f a).CallsOnly P) : (p >>= f).CallsOnly P := by
  induction p with
  | done a => exact later a
  | fail e => trivial
  | call _ _ ih => exact ⟨first.1, fun reply => ih reply (first.2 reply)⟩

theorem callsOnly_foldlM {step : β → α → Program ε Op Reply β} {list : List α}
    (one : ∀ b, ∀ a ∈ list, (step b a).CallsOnly P) (b : β) : (list.foldlM step b).CallsOnly P := by
  induction list generalizing b with
  | nil => trivial
  | cons a list ih =>
    exact callsOnly_bind (one b a (.head _)) fun b => ih (fun b a inside => one b a (.tail _ inside)) b

/-- Nothing is left to do after a call that takes effect. -/
def WritesLast (takesEffect : (op : Op) → Reply op → Bool) : Program ε Op Reply α → Prop
  | .done _ => True
  | .fail _ => True
  | .call op next => ∀ reply, if takesEffect op reply then ∃ a,
        next reply = .done a else (next reply).WritesLast takesEffect

theorem writesLast_bind
    (quiet : p.CallsOnly fun op => ∀ reply, takesEffect op reply = false)
    (later : ∀ a, (f a).WritesLast takesEffect) :
    (p >>= f).WritesLast takesEffect := by
  induction p with
  | done a => exact later a
  | fail e => trivial
  | call op _ ih =>
    intro reply
    rw [if_neg (by simp [quiet.1 reply])]
    exact ih reply (quiet.2 reply)

theorem callsOnly_lift (x : Except ε α) : (lift x : Program ε Op Reply α).CallsOnly P := by
  cases x with
  | ok => trivial
  | error => trivial

end Program

end DumboDB.Foundation
