import Mathlib.Data.Prod.Lex
import DumboDB.Foundation.Fallible
import DumboDB.Foundation.ByteOrder

/-!
The catch-up of an initial sync: buffered oplog entries are drained in batches, those at or before
the begin-apply position are passed over, the others go to the applier up to the stop position.
-/

namespace DumboDB.Replication
open Foundation ByteOrder Fallible List

structure OpTime where
  Seconds : Nat
  Increment : Nat
  Term : Int
  deriving DecidableEq, Repr

namespace OpTime

def Compare (o other : OpTime) : Ordering :=
  if o.Term ≠ other.Term then
    if o.Term < other.Term then .lt else .gt
  else if o.Seconds ≠ other.Seconds then
    if o.Seconds < other.Seconds then .lt else .gt
  else if o.Increment < other.Increment then .lt
  else if o.Increment > other.Increment then .gt
  else .eq

def key (o : OpTime) : Int ×ₗ Nat ×ₗ Nat := toLex (o.Term, toLex (o.Seconds, o.Increment))

theorem key_injective : Function.Injective key := by
  intro a b same
  simp only [key, toLex_inj, Prod.mk.injEq] at same
  cases a
  cases b
  simp_all

instance : LinearOrder OpTime := LinearOrder.lift' key key_injective

variable {a b : OpTime}

theorem lt_def : a < b ↔ a.Term < b.Term ∨
    (a.Term = b.Term ∧ (a.Seconds < b.Seconds ∨ (a.Seconds = b.Seconds ∧ a.Increment < b.Increment))) := by
  change key a < key b ↔ _
  simp only [key, Prod.Lex.toLex_lt_toLex]

theorem compare_lt : a.Compare b = .lt ↔ a < b := by
  rw [lt_def]
  unfold Compare
  split_ifs <;> simp <;> omega

theorem compare_gt : a.Compare b = .gt ↔ b < a := by
  rw [lt_def]
  unfold Compare
  split_ifs <;> simp <;> omega

theorem isLE_compare : (a.Compare b).isLE ↔ a ≤ b := by
  rw [← not_lt, ← compare_gt]
  cases a.Compare b <;> simp [Ordering.isLE]

end OpTime

class Positioned (Entry : Type) where
  OpTime : Entry → OpTime
  RawBSON : Entry → Bytes

variable {Entry A ε : Type} [Positioned Entry]

abbrev opTime (e : Entry) : OpTime := Positioned.OpTime e

structure CatchUpLimits where
  Entries : Nat
  Bytes : Nat

/-- The loop of `drain`: how many entries are already taken, and how many bytes. -/
def drainFrom (stop : OpTime) (limits : CatchUpLimits) : Nat → Nat → List Entry → List Entry × List Entry
  | _, _, [] => ([], [])
  | count, bytes, e :: entries =>
    let size := (Positioned.RawBSON e).length
    if limits.Entries ≤ count ∨ (opTime e).Compare stop = .gt ∨ (count ≠ 0 ∧ limits.Bytes < bytes + size) then
      ([], e :: entries)
    else
      let (taken, rest) := drainFrom stop limits (count + 1) (bytes + size) entries
      (e :: taken, rest)

/-- The entries that are taken, and the buffer that they leave. -/
def DrainThrough (stop : OpTime) (limits : CatchUpLimits) (entries : List Entry) : List Entry × List Entry :=
  if limits.Entries = 0 ∨ limits.Bytes = 0 then ([], entries) else drainFrom stop limits 0 0 entries

theorem drainFrom_append (stop : OpTime) (limits : CatchUpLimits) (count bytes : Nat) (entries : List Entry) :
    (drainFrom stop limits count bytes entries).1 ++ (drainFrom stop limits count bytes entries).2 = entries := by
  induction entries generalizing count bytes with
  | nil => rfl
  | cons e entries ih =>
    rw [drainFrom]
    split_ifs
    · rfl
    · simp only [cons_append, ih]

theorem drainThrough_append (stop : OpTime) (limits : CatchUpLimits) (entries : List Entry) :
    (DrainThrough stop limits entries).1 ++ (DrainThrough stop limits entries).2 = entries := by
  rw [DrainThrough]
  split_ifs
  · rfl
  · exact drainFrom_append stop limits 0 0 entries

variable {stop : OpTime} {limits : CatchUpLimits} {entries : List Entry} {e : Entry}

theorem drainFrom_le {count bytes : Nat}
    (taken : e ∈ (drainFrom stop limits count bytes entries).1) : opTime e ≤ stop := by
  induction entries generalizing count bytes with
  | nil => cases taken
  | cons _ entries ih =>
    rw [drainFrom] at taken
    split_ifs at taken with stops
    · cases taken
    · rcases mem_cons.mp taken with rfl | later
      · rw [← not_lt, ← OpTime.compare_gt]
        exact fun past => stops (.inr (.inl past))
      · exact ih later

theorem drainThrough_le (taken : e ∈ (DrainThrough stop limits entries).1) : opTime e ≤ stop := by
  rw [DrainThrough] at taken
  split_ifs at taken
  · cases taken
  · exact drainFrom_le taken

theorem drainThrough_cons (e : Entry) (entries : List Entry)
    (some_ : limits.Entries ≠ 0) (room : limits.Bytes ≠ 0) (reached : opTime e ≤ stop) :
    ∃ taken, (DrainThrough stop limits (e :: entries)).1 = e :: taken := by
  have inside : ¬ (opTime e).Compare stop = .gt := by rwa [OpTime.compare_gt, not_lt]
  rw [DrainThrough, if_neg (by simp [some_, room]), drainFrom, if_neg (by simp [some_, inside])]
  exact ⟨_, rfl⟩

inductive CatchUpError (ε : Type) where
  | invalid
  | stopPrecedesBegin
  | stopPositionMissing
  /-- `WaitForData` with nothing more to come. -/
  | waiting
  | outOfOrder
  | apply (e : ε)
  deriving DecidableEq, Repr

structure CatchUpResult (A : Type) where
  applier : A
  Applied : Nat
  Last : OpTime

variable (Apply : A → Entry → Except ε A)

def catchUpEntry (beginApply : OpTime) (result : CatchUpResult A) (e : Entry) :
    Except (CatchUpError ε) (CatchUpResult A) :=
  if ((opTime e).Compare beginApply).isLE then .ok result
  else if ((opTime e).Compare result.Last).isLE then .error .outOfOrder
  else match Apply result.applier e with
    | .error e => .error (.apply e)
    | .ok applier => .ok ⟨applier, result.Applied + 1, opTime e⟩

/-- The loop over batches, with what it leaves in the buffer. -/
def catchUp (beginApply stop : OpTime) (limits : CatchUpLimits) (result : CatchUpResult A) (buffer : List Entry) :
    Except (CatchUpError ε) (CatchUpResult A × List Entry) :=
  if result.Last.Compare stop = .lt then
    let batch := DrainThrough stop limits buffer
    if _empty : batch.1 = [] then
      match batch.2.getLast? with
      | some tail => if (opTime tail).Compare stop = .gt then .error .stopPositionMissing else .error .waiting
      | none => .error .waiting
    else do
      let result ← batch.1.foldlM (catchUpEntry Apply beginApply) result
      catchUp beginApply stop limits result batch.2
  else .ok (result, buffer)
termination_by buffer.length
decreasing_by
  have whole : batch.1.length + batch.2.length = buffer.length := by
    rw [← List.length_append]
    exact congrArg List.length (drainThrough_append stop limits buffer)
  have taken := List.length_pos_of_ne_nil _empty
  change batch.2.length < buffer.length
  omega

def ApplyBufferedThrough (beginApply stop : OpTime) (limits : CatchUpLimits) (applier : A) (buffer : List Entry) :
    Except (CatchUpError ε) (CatchUpResult A × List Entry) :=
  if beginApply = ⟨0, 0, 0⟩ ∨ limits.Entries = 0 ∨ limits.Bytes = 0 then .error .invalid
  else if stop.Compare beginApply = .lt then .error .stopPrecedesBegin
  else if stop = beginApply then .ok (⟨applier, 0, beginApply⟩, buffer)
  else catchUp Apply beginApply stop limits ⟨applier, 0, beginApply⟩ buffer

/-! What the catch-up comes to: the applier run over the entries between the two positions. -/

/-- The result of a run of the applier, as the catch-up returns it. -/
def report {β : Type} (done : A → β) : Except ε A → Except (CatchUpError ε) β
  | .error e => .error (.apply e)
  | .ok a => .ok (done a)

def after (position : OpTime) (entries : List Entry) : List Entry :=
  entries.filter fun e => position < opTime e

def lastPosition : List Entry → OpTime → OpTime
  | [], start => start
  | e :: entries, _ => lastPosition entries (opTime e)

theorem lastPosition_append (start : OpTime) (entries : List Entry) (e : Entry) :
    lastPosition (entries ++ [e]) start = opTime e := by
  induction entries generalizing start with
  | nil => rfl
  | cons f _ ih => exact ih _

theorem after_cons (position : OpTime) (e : Entry) (entries : List Entry) :
    after position (e :: entries) = if position
      < opTime e then e :: after position entries else after position entries := by
  rw [after, filter_cons]
  simp only [decide_eq_true_eq, after]

def Ordered (entries : List Entry) : Prop := entries.Pairwise fun e f => opTime e < opTime f

variable {beginApply : OpTime}

theorem foldlM_catchUpEntry (ordered : Ordered entries)
    (result : CatchUpResult A) (fresh : ∀ e ∈ after beginApply entries, result.Last < opTime e) :
    entries.foldlM (catchUpEntry Apply beginApply) result =
      report (fun a => ⟨a, result.Applied + (after beginApply entries).length,
        lastPosition (after beginApply entries) result.Last⟩)
          ((after beginApply entries).foldlM Apply result.applier) := by
  induction entries generalizing result with
  | nil => rfl
  | cons e entries ih =>
    obtain ⟨first, rest⟩ := pairwise_cons.mp ordered
    rw [foldlM_cons, catchUpEntry, after_cons]
    rw [after_cons] at fresh
    by_cases passed : beginApply < opTime e
    · rw [if_pos passed] at fresh ⊢
      rw [if_neg (by rwa [OpTime.isLE_compare, not_le]),
        if_neg (by rw [OpTime.isLE_compare, not_le]; exact fresh e (.head _)), foldlM_cons]
      cases applied : Apply result.applier e with
      | error _ => rfl
      | ok a =>
        refine (ih rest ⟨a, result.Applied + 1, opTime e⟩ ?_).trans ?_
        · intro f member
          exact first f (mem_filter.mp member).1
        · rw [length_cons, Nat.add_assoc, Nat.add_comm 1]
          rfl
    · rw [if_neg passed] at fresh ⊢
      rw [if_pos (by rwa [OpTime.isLE_compare, ← not_lt])]
      exact ih rest result fresh

theorem lastPosition_eq (ordered : Ordered entries) (member : e ∈ entries)
    (greatest : ∀ f ∈ entries, opTime f ≤ opTime e) (start : OpTime) : lastPosition entries start = opTime e := by
  induction entries generalizing start with
  | nil => cases member
  | cons _ entries ih =>
    obtain ⟨below, rest⟩ := pairwise_cons.mp ordered
    rcases mem_cons.mp member with rfl | later
    · cases entries with
      | nil => rfl
      | cons next entries =>
        have up := below next (.head _)
        have down := greatest next (.tail _ (.head _))
        exact absurd (lt_of_lt_of_le up down) (lt_irrefl _)
    · exact ih rest later (fun f inside => greatest f (.tail _ inside)) _

theorem lastPosition_lt {bound start : OpTime} (below : ∀ e ∈ entries, opTime e < bound)
    (before : start < bound) : lastPosition entries start < bound := by
  induction entries generalizing start with
  | nil => exact before
  | cons e entries ih =>
    exact ih (fun f member => below f (.tail _ member)) (below e (.head _))

theorem lastPosition_fresh {later : List Entry} {start : OpTime} (ordered : Ordered (entries ++ later))
    (fresh : ∀ e ∈ later, start < opTime e) (member : e ∈ later) : lastPosition entries start < opTime e := by
  refine lastPosition_lt (fun f inside => ?_) (fresh e member)
  exact (pairwise_append.mp ordered).2.2 f inside e member

def window (beginApply stop : OpTime) (entries : List Entry) : List Entry :=
  (after beginApply entries).filter fun e => opTime e ≤ stop

theorem after_append (position : OpTime) (a b : List Entry) :
    after position (a ++ b) = after position a ++ after position b :=
  filter_append ..

theorem window_append (beginApply stop : OpTime) (a b : List Entry) :
    window beginApply stop (a ++ b) = window beginApply stop a ++ window beginApply stop b := by
  rw [window, after_append, filter_append, window, window]

theorem window_cons (within : opTime e ≤ stop) (entries : List Entry) : window beginApply stop (e :: entries) =
      if beginApply < opTime e then e :: window beginApply stop entries else window beginApply stop entries := by
  rw [window, after_cons]
  split
  · exact filter_cons_of_pos (decide_eq_true within)
  · rfl

theorem window_of_le (within : ∀ e ∈ entries, opTime e ≤ stop) :
    window beginApply stop entries = after beginApply entries :=
  filter_eq_self.mpr fun e member => decide_eq_true (within e (mem_filter.mp member).1)

theorem after_of_le {position : OpTime} (within : ∀ e ∈ entries, opTime e ≤ position) : after position entries = [] :=
  filter_eq_nil_iff.mpr fun e member => by simpa using within e member

theorem after_of_lt {position : OpTime} (past : ∀ e ∈ entries, position < opTime e) :
    after position entries = entries :=
  filter_eq_self.mpr fun e member => decide_eq_true (past e member)

theorem window_of_lt (past : ∀ e ∈ entries, stop < opTime e) : window beginApply stop entries = [] :=
  filter_eq_nil_iff.mpr fun e member => by simpa using past e (mem_filter.mp member).1

theorem after_after {first second : OpTime} (forward : first ≤ second) (entries : List Entry) :
    after second (after first entries) = after second entries := by
  rw [after, after, after, filter_filter]
  refine filter_congr fun e _ => ?_
  simp only [Bool.and_eq_left_iff_imp, decide_eq_true_eq]
  exact fun past => lt_of_le_of_lt forward past

theorem after_eq_append {first second : OpTime} (forward : first ≤ second) (ordered : Ordered entries) :
    after first entries = window first second entries ++ after second entries := by
  induction entries with
  | nil => rfl
  | cons e entries ih =>
    obtain ⟨below, rest⟩ := pairwise_cons.mp ordered
    by_cases past : second < opTime e
    · have all : ∀ f ∈ e :: entries, second < opTime f := by
        refine forall_mem_cons.mpr ⟨past, fun f member => past.trans (below f member)⟩
      rw [window_of_lt all, nil_append, after_of_lt all, after_of_lt
        fun f member => lt_of_le_of_lt forward (all f member)]
    · rw [after_cons, after_cons, if_neg past, window_cons (not_lt.mp past), ih rest]
      split <;> rfl

theorem report_bind {β γ : Type} (x : Except ε A) (f : A → β) (g : β → Except (CatchUpError ε) γ) :
    (report f x >>= g) = (match x with
      | .error e => .error (.apply e)
      | .ok a => g (f a)) := by
  cases x <;> rfl

theorem catchUp_eq (count : limits.Entries ≠ 0)
    (room : limits.Bytes ≠ 0) (forward : beginApply < stop) (buffer : List Entry) (result : CatchUpResult A)
    (ordered : Ordered buffer) (stops : ∃ e ∈ buffer, opTime e = stop) (before : result.Last < stop)
    (fresh : ∀ e ∈ after beginApply buffer, result.Last < opTime e) :
    catchUp Apply beginApply stop limits result buffer =
      report (fun a => (⟨a, result.Applied + (window beginApply stop buffer).length, stop⟩, after stop buffer))
        ((window beginApply stop buffer).foldlM Apply result.applier) := by
  induction size : buffer.length using Nat.strong_induction_on generalizing buffer result with
  | _ size ih =>
  subst size
  rw [catchUp, if_pos (OpTime.compare_lt.mpr before)]
  obtain ⟨taken, rest, drained⟩ : ∃ taken rest, DrainThrough stop limits buffer = (taken, rest) := ⟨_, _, rfl⟩
  have whole := drainThrough_append stop limits buffer
  have within : ∀ e ∈ taken, opTime e ≤ stop := by
    intro e member
    have inside : e ∈ (DrainThrough stop limits buffer).1 := by rwa [drained]
    exact drainThrough_le inside
  rw [drained] at whole ⊢
  subst whole
  have some_ : taken ≠ [] := by
    obtain ⟨e, member, at_⟩ := stops
    intro none
    subst none
    rw [nil_append] at member drained ordered
    cases rest with
    | nil => cases member
    | cons head rest =>
      have reached : opTime head ≤ stop := by
        rcases mem_cons.mp member with rfl | later
        · exact at_.le
        · exact at_ ▸ ((pairwise_cons.mp ordered).1 e later).le
      obtain ⟨_, same⟩ := drainThrough_cons head rest count room reached
      rw [drained] at same
      cases same
  obtain ⟨orderedTaken, orderedRest, across⟩ := pairwise_append.mp ordered
  rw [dif_neg some_, foldlM_catchUpEntry Apply orderedTaken result
    (fun e member => fresh e (by rw [after_append]; exact mem_append_left _ member)), report_bind,
    window_append, window_of_le within, after_append, after_of_le within, nil_append, foldlM_append]
  cases applied : (after beginApply taken).foldlM Apply result.applier with
  | error e => rfl
  | ok a =>
  obtain ⟨e, member, at_⟩ := stops
  rcases mem_append.mp member with inside | outside
  · -- the batch holds the stop position, so it ends there
    have past : ∀ f ∈ rest, stop < opTime f := fun f later => at_ ▸ across e inside f later
    have here : e ∈ after beginApply taken := mem_filter.mpr ⟨inside, by simpa [at_] using forward⟩
    have final : lastPosition (after beginApply taken) result.Last = stop := by
      rw [← at_]
      refine lastPosition_eq (orderedTaken.filter _) here (fun f member => ?_) _
      rw [at_]
      exact within f (mem_filter.mp member).1
    change catchUp Apply beginApply stop limits ⟨a, _, lastPosition (after beginApply taken) result.Last⟩ rest = _
    rw [catchUp, if_neg (by simp only [final, OpTime.compare_lt, lt_irrefl, not_false_eq_true]),
      window_of_lt past, after_of_lt past, append_nil, final]
    rfl
  · have below : ∀ f ∈ after beginApply taken, opTime f < stop := fun f member =>
      at_ ▸ across f (mem_filter.mp member).1 e outside
    have shorter : rest.length < (taken ++ rest).length := by
      rw [length_append]
      have := length_pos_of_ne_nil some_
      omega
    refine (ih _ shorter rest ⟨a, _, _⟩ orderedRest ⟨e, outside, at_⟩ (lastPosition_lt below before) ?_ rfl).trans ?_
    · intro f later
      refine lastPosition_fresh ?_ (fun g inside => fresh g ?_) later
      · rw [← after_append]
        exact ordered.filter _
      · rw [after_append]
        exact mem_append_right _ inside
    · rw [length_append, Nat.add_assoc]
      rfl

/-- A catch-up whose stop position is in the buffer is a run of the applier over the entries between
its two positions. -/
theorem ApplyBufferedThrough_eq (begun : beginApply ≠ ⟨0, 0, 0⟩)
    (count : limits.Entries ≠ 0) (room : limits.Bytes ≠ 0) (forward : beginApply < stop) (applier : A)
    {buffer : List Entry} (ordered : Ordered buffer) (stops : ∃ e ∈ buffer, opTime e = stop) :
    ApplyBufferedThrough Apply beginApply stop limits applier buffer =
      report (fun a => (⟨a, (window beginApply stop buffer).length, stop⟩, after stop buffer))
        ((window beginApply stop buffer).foldlM Apply applier) := by
  rw [ApplyBufferedThrough, if_neg (by simp [begun, count, room]),
    if_neg (by rw [OpTime.compare_lt]; exact not_lt.mpr forward.le), if_neg forward.ne',
    catchUp_eq Apply count room forward buffer ⟨applier, 0, beginApply⟩ ordered stops forward, Nat.zero_add]
  intro e member
  simpa using (mem_filter.mp member).2

end DumboDB.Replication
