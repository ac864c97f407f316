import Mathlib.Algebra.BigOperators.Group.Finset.Basic
import Mathlib.Data.Finset.Card
import Mathlib.Logic.Relation

/-!
Searching a finite graph, with a queue or depth first: what is found is what can be reached, and a
fuel that counts the edges or the nodes is enough. Edges that are added to a graph without cycles keep
it so when nothing returns over them.
-/

namespace DumboDB.Foundation.Search
open List

variable {α ε : Type} [DecidableEq α]

/-- Elements are taken from the front of the queue, and the successors of a new one go to its end. -/
def collect (next : α → Except ε (List α)) (spent : ε) : Nat → List α → List α → Except ε (List α)
  | _, [], seen => .ok seen
  | 0, _ :: _, _ => .error spent
  | fuel + 1, a :: queue, seen =>
    if a ∈ seen then collect next spent fuel queue seen
    else
      match next a with
      | .error e => .error e
      | .ok more => collect next spent fuel (queue ++ more) (a :: seen)

def Edge (next : α → Except ε (List α)) (a b : α) : Prop := ∃ more, next a = .ok more ∧ b ∈ more

section
variable {next : α → Except ε (List α)} {spent : ε}

section

variable {fuel : Nat} {queue seen out : List α} (done : collect next spent fuel queue seen = .ok out)
include done

theorem reached_of_mem_collect {x : α} (member : x ∈ out) : x ∈ seen ∨ ∃ a ∈ queue,
    Relation.ReflTransGen (Edge next) a x := by
  induction fuel, queue, seen using collect.induct next with
  | case1 fuel seen =>
    obtain rfl : seen = out := by simpa [collect] using done
    exact .inl member
  | case2 a queue seen => simp [collect] at done
  | case3 fuel a queue seen old ih =>
    simp only [collect, if_pos old] at done
    rcases ih done with inside | ⟨b, waiting, path⟩
    · exact .inl inside
    · exact .inr ⟨b, .tail _ waiting, path⟩
  | case4 fuel a queue seen new e failed => simp [collect, new, failed] at done
  | case5 fuel a queue seen new more found ih =>
    simp only [collect, if_neg new, found] at done
    rcases ih done with inside | ⟨b, waiting, path⟩
    · rcases mem_cons.mp inside with rfl | inside
      · exact .inr ⟨x, .head _, .refl⟩
      · exact .inl inside
    · rcases mem_append.mp waiting with waiting | later
      · exact .inr ⟨b, .tail _ waiting, path⟩
      · exact .inr ⟨a, .head _, .head ⟨more, found, later⟩ path⟩

theorem closed_collect (closed : ∀ a ∈ seen, ∀ b, Edge next a b → b ∈ seen ∨ b ∈ queue) :
    (∀ a, a ∈ seen ∨ a ∈ queue → a ∈ out) ∧ ∀ a ∈ out, ∀ b, Edge next a b → b ∈ out := by
  induction fuel, queue, seen using collect.induct next with
  | case1 fuel seen =>
    obtain rfl : seen = out := by simpa [collect] using done
    exact ⟨fun a held => held.elim id nofun, fun a member b edge => (closed a member b edge).elim id nofun⟩
  | case2 a queue seen => simp [collect] at done
  | case3 fuel a queue seen old ih =>
    simp only [collect, if_pos old] at done
    have kept {b : α} (held : b ∈ seen ∨ b ∈ a :: queue) : b ∈ seen ∨ b ∈ queue := by
      rcases held with inside | waiting
      · exact .inl inside
      · rcases mem_cons.mp waiting with rfl | waiting
        · exact .inl old
        · exact .inr waiting
    obtain ⟨has, under⟩ := ih done fun c member b edge => kept (closed c member b edge)
    exact ⟨fun b held => has b (kept held), under⟩
  | case4 fuel a queue seen new e failed => simp [collect, new, failed] at done
  | case5 fuel a queue seen new more found ih =>
    simp only [collect, if_neg new, found] at done
    have kept {b : α} (held : b ∈ seen ∨ b ∈ a :: queue) : b ∈ a :: seen ∨ b ∈ queue ++ more := by
      rcases held with inside | waiting
      · exact .inl (.tail _ inside)
      · rcases mem_cons.mp waiting with rfl | waiting
        · exact .inl (.head _)
        · exact .inr (mem_append_left _ waiting)
    have still : ∀ c ∈ a :: seen, ∀ b, Edge next c b → b ∈ a :: seen ∨ b ∈ queue ++ more := by
      intro c member b edge
      rcases mem_cons.mp member with rfl | member
      · obtain ⟨others, known, later⟩ := edge
        obtain rfl : more = others := Except.ok.inj (found.symm.trans known)
        exact .inr (mem_append_right _ later)
      · exact kept (closed c member b edge)
    obtain ⟨has, under⟩ := ih done still
    exact ⟨fun b held => has b (kept held), under⟩

end

theorem mem_collect_iff {fuel : Nat} {a : α} {out : List α}
    (done : collect next spent fuel [a] [] = .ok out) {x : α} :
    x ∈ out ↔ Relation.ReflTransGen (Edge next) a x := by
  constructor
  · intro member
    rcases reached_of_mem_collect done member with inside | ⟨b, waiting, path⟩
    · cases inside
    · cases mem_singleton.mp waiting
      exact path
  · intro path
    obtain ⟨has, under⟩ := closed_collect done nofun
    induction path with
    | refl => exact has a (.inr (.head _))
    | tail _ edge ih => exact under _ ih _ edge

end

def degree (next : α → Except ε (List α)) (a : α) : Nat :=
  match next a with
  | .ok more => more.length
  | .error _ => 0

/-- Each turn takes one from the queue, and an element's edges are queued once: with a turn for what is
queued and one for each edge out of what is not yet seen the search ends. -/
theorem exists_collect (next : α → Except ε (List α)) (spent : ε) {within : Finset α}
    (inside : ∀ a ∈ within, ∃ more, next a = .ok more ∧ ∀ b ∈ more, b ∈ within) {fuel : Nat} {queue seen : List α}
    (queued : ∀ a ∈ queue, a ∈ within) (enough : queue.length + ∑ a ∈ within.filter (· ∉ seen),
    degree next a ≤ fuel) :
    ∃ out, collect next spent fuel queue seen = .ok out := by
  induction fuel, queue, seen using collect.induct next with
  | case1 fuel seen => exact ⟨seen, by simp [collect]⟩
  | case2 a queue seen => simp at enough
  | case3 fuel a queue seen old ih =>
    simp only [collect, if_pos old]
    refine ih (fun b waiting => queued b (.tail _ waiting)) ?_
    simp only [length_cons] at enough
    omega
  | case4 fuel a queue seen new e failed =>
    obtain ⟨more, found, -⟩ := inside a (queued a (.head _))
    exact nomatch failed.symm.trans found
  | case5 fuel a queue seen new more found ih =>
    simp only [collect, if_neg new, found]
    obtain ⟨others, known, held⟩ := inside a (queued a (.head _))
    obtain rfl : more = others := Except.ok.inj (found.symm.trans known)
    refine ih (fun b waiting => ?_) ?_
    · rcases mem_append.mp waiting with waiting | later
      · exact queued b (.tail _ waiting)
      · exact held b later
    · have fresh : a ∈ within.filter (· ∉ seen) := Finset.mem_filter.mpr ⟨queued a (.head _), new⟩
      have rest : (within.filter (· ∉ seen)).erase a = within.filter (· ∉ a :: seen) := by
        ext b
        simp only [Finset.mem_erase, Finset.mem_filter, mem_cons, not_or]
        tauto
      have counted := Finset.add_sum_erase _ (degree next) fresh
      have edges : degree next a = more.length := by simp only [degree, found]
      rw [rest, edges] at counted
      simp only [length_cons, length_append] at enough ⊢
      omega

section
variable {α : Type} {next : α → List α}

structure Visited (next : α → List α) (seen starts out : List α) : Prop where
  kept : ∀ x ∈ seen, x ∈ out
  visited : ∀ a ∈ starts, a ∈ out
  closed : ∀ x ∈ out, x ∈ seen ∨ ∀ y ∈ next x, y ∈ out
  reached : ∀ x ∈ out, x ∈ seen ∨ ∃ a ∈ starts, Relation.ReflTransGen (fun x y => y ∈ next x) a x

theorem Visited.fold {step : List α → α → List α} {starts seen : List α} (P : List α → Prop) (start : P seen)
    (grows : ∀ seen out, P seen → (∀ x ∈ seen, x ∈ out) → P out)
    (one : ∀ seen a, P seen → Visited next seen [a] (step seen a)) :
    Visited next seen starts (starts.foldl step seen) := by
  induction starts generalizing seen with
  | nil => exact ⟨fun _ => id, nofun, fun _ => .inl, fun _ => .inl⟩
  | cons a starts ih =>
    have first := one seen a start
    have rest := ih (grows _ _ start first.kept)
    refine ⟨fun x member => rest.kept x (first.kept x member), fun b member => ?_, fun x member => ?_,
      fun x member => ?_⟩
    · rcases mem_cons.mp member with rfl | later
      · exact rest.kept b (first.visited b (.head _))
      · exact rest.visited b later
    · rcases rest.closed x member with early | closed
      · rcases first.closed x early with before | closed
        · exact .inl before
        · exact .inr fun y edge => rest.kept y (closed y edge)
      · exact .inr closed
    · rcases rest.reached x member with early | ⟨b, later, path⟩
      · rcases first.reached x early with before | ⟨b, here, path⟩
        · exact .inl before
        · exact .inr ⟨b, mem_cons.mpr (.inl (mem_singleton.mp here)), path⟩
      · exact .inr ⟨b, .tail _ later, path⟩

end

section
variable {α : Type} [DecidableEq α]

/-- The elements that are visited depth first, in order of their first visit. -/
def visit (next : α → List α) : Nat → List α → α → List α
  | 0, seen, _ => seen
  | depth + 1, seen, a => if a ∈ seen then seen else (next a).foldl
        (fun seen b => visit next depth seen b) (seen ++ [a])

def visitAll (next : α → List α) (depth : Nat) (starts : List α) : List α := starts.foldl (visit next depth) []

variable {next : α → List α} {within : Finset α} {seen : List α} {depth : Nat}

theorem card_unseen_le (within : Finset α) {smaller larger : List α} (more : ∀ x ∈ smaller, x ∈ larger) :
    (within.filter (· ∉ larger)).card ≤ (within.filter (· ∉ smaller)).card :=
  Finset.card_le_card fun x member => by
    obtain ⟨inside, absent⟩ := Finset.mem_filter.mp member
    exact Finset.mem_filter.mpr ⟨inside, fun early => absent (more x early)⟩

theorem card_unseen_lt {a : α} (inside : a ∈ within) (new : a ∉ seen) :
    (within.filter (· ∉ seen ++ [a])).card < (within.filter (· ∉ seen)).card := by
  have mine : a ∈ within.filter (· ∉ seen) := Finset.mem_filter.mpr ⟨inside, new⟩
  have dropped : (within.filter (· ∉ seen ++ [a])) ⊆ (within.filter (· ∉ seen)).erase a := by
    intro x member
    simp only [Finset.mem_filter, mem_append, mem_singleton, not_or] at member
    exact Finset.mem_erase.mpr ⟨member.2.2, Finset.mem_filter.mpr ⟨member.1, member.2.1⟩⟩
  have less := Finset.card_le_card dropped
  have erased := Finset.card_erase_add_one mine
  omega

theorem visited_visit (inner : ∀ a, next a ≠ [] → a ∈ within) (a : α)
    (enough : (within.filter (· ∉ seen)).card < depth) : Visited next seen [a] (visit next depth seen a) := by
  induction depth generalizing seen a with
  | zero => exact absurd enough (Nat.not_lt_zero _)
  | succ depth ih =>
    unfold visit
    split
    next old =>
      exact ⟨fun _ => id, fun b here => mem_singleton.mp here ▸ old, fun _ => .inl, fun _ => .inl⟩
    next new =>
      have children : Visited next (seen ++ [a]) (next a)
          ((next a).foldl (fun seen b => visit next depth seen b) (seen ++ [a])) := by
        cases edges : next a with
        | nil => exact ⟨fun _ => id, nofun, fun _ => .inl, fun _ => .inl⟩
        | cons b _ =>
          refine .fold (fun seen => (within.filter (· ∉ seen)).card < depth) ?_
            (fun _ _ small more => (card_unseen_le within more).trans_lt small) (fun seen b small => ih b small)
          have fewer := card_unseen_lt (inner a (by simp [edges])) new
          omega
      refine ⟨fun x member => children.kept x (mem_append_left _ member), fun b here => ?_, fun x member => ?_,
        fun x member => ?_⟩
      · obtain rfl := mem_singleton.mp here
        exact children.kept b (mem_append_right _ (.head _))
      · rcases children.closed x member with early | closed
        · rcases mem_append.mp early with before | here
          · exact .inl before
          · obtain rfl := mem_singleton.mp here
            exact .inr children.visited
        · exact .inr closed
      · rcases children.reached x member with early | ⟨b, edge, path⟩
        · rcases mem_append.mp early with before | here
          · exact .inl before
          · obtain rfl := mem_singleton.mp here
            exact .inr ⟨x, .head _, .refl⟩
        · exact .inr ⟨a, .head _, .head edge path⟩

theorem mem_visitAll_iff (inner : ∀ a, next a ≠ [] → a ∈ within) {starts : List α}
    (enough : within.card < depth) {x : α} :
    x ∈ visitAll next depth starts ↔ ∃ a ∈ starts, Relation.ReflTransGen (fun x y => y ∈ next x) a x := by
  have all : Visited next [] starts (visitAll next depth starts) := by
    refine .fold (fun _ => True) trivial (fun _ _ _ _ => trivial) fun seen a _ => visited_visit inner a ?_
    exact (Finset.card_le_card (Finset.filter_subset _ _)).trans_lt enough
  constructor
  · intro member
    exact (all.reached x member).resolve_left nofun
  · rintro ⟨a, start, path⟩
    induction path with
    | refl => exact all.visited a start
    | tail _ edge ih => exact (all.closed _ ih).resolve_left nofun _ edge

theorem mem_visit_of_mem {a x : α} (early : x ∈ seen) : x ∈ visit next depth seen a := by
  induction depth generalizing seen a with
  | zero => exact early
  | succ depth ih =>
    unfold visit
    split
    next => exact early
    next =>
      refine List.foldlRecOn (next a) (motive := fun out => x ∈ out) _ (mem_append_left _ early) ?_
      exact fun out inside b _ => ih inside

section

variable {next' : α → List α} {part : α → Prop} (inner : ∀ a, part a → next a ≠ [] → a ∈ within)
  (closed : ∀ a, part a → ∀ b ∈ next a, part b) (same : ∀ a, part a → next' a = next a) {depth' : Nat}
include inner closed same

/-- Two graphs that agree on a part which no edge leaves are visited in one order from within it, at
any two depths that are enough. -/
theorem visit_congr {a : α} (inside : part a)
    (enough : (within.filter (· ∉ seen)).card < depth) (enough' : (within.filter (· ∉ seen)).card < depth') :
    visit next' depth' seen a = visit next depth seen a := by
  induction depth generalizing depth' seen a with
  | zero => exact absurd enough (Nat.not_lt_zero _)
  | succ depth ih =>
    cases depth' with
    | zero => exact absurd enough' (Nat.not_lt_zero _)
    | succ depth' =>
      unfold visit
      by_cases old : a ∈ seen
      · simp only [if_pos old]
      rw [if_neg old, if_neg old, same a inside]
      cases edges : next a with
      | nil => rfl
      | cons c rest =>
        have fewer := card_unseen_lt (inner a inside (by simp [edges])) old
        have children (b : α) (child : b ∈ next a) : part b := closed a inside b child
        rw [edges] at children
        generalize c :: rest = list at children
        -- along the children the visited ones only grow, so that both depths stay enough
        generalize seen ++ [a] = start at fewer
        induction list generalizing start with
        | nil => rfl
        | cons b list again =>
          rw [foldl_cons, foldl_cons, ih (children b (.head _)) (by omega) (by omega)]
          refine again (fun d later => children d (.tail _ later)) _ ?_
          exact (card_unseen_le within fun x early => mem_visit_of_mem early).trans_lt fewer

theorem visitAll_congr {starts : List α} (inside : ∀ a ∈ starts, part a)
    (enough : within.card < depth) (enough' : within.card < depth') :
    visitAll next' depth' starts = visitAll next depth starts := by
  refine foldl_ext _ _ _ fun seen a member => ?_
  have fewer := Finset.card_le_card (Finset.filter_subset (· ∉ seen) within)
  exact visit_congr inner closed same (inside a member) (fewer.trans_lt enough) (fewer.trans_lt enough')

end

end

section
variable {α : Type} {R S : α → α → Prop} {t : α} {new : α → Prop}

theorem path_to_source (added : ∀ a b, S a b → R a b ∨ a = t ∧ new b) {a : α} (path : Relation.ReflTransGen S a t) :
    Relation.ReflTransGen R a t := by
  induction path using Relation.ReflTransGen.head_induction_on with
  | refl => exact .refl
  | head edge _ ih =>
    rcases added _ _ edge with old | ⟨rfl, -⟩
    · exact .head old ih
    · exact .refl

theorem path_until (kept : ∀ a b, a ≠ t → R a b → S a b) {a : α} (path : Relation.ReflTransGen R a t) :
    Relation.ReflTransGen S a t := by
  induction path using Relation.ReflTransGen.head_induction_on with
  | refl => exact .refl
  | @head a b edge _ ih =>
    by_cases here : a = t
    · exact here ▸ .refl
    · exact .head (kept a b here edge) ih

theorem acyclic_of_added (added : ∀ a b, S a b → R a b ∨ a = t ∧ new b)
    (apart : ∀ b, new b → ¬Relation.ReflTransGen R b t)
    (acyclic : ∀ a, ¬Relation.TransGen R a a) (a : α) : ¬Relation.TransGen S a a := by
  have crossing (a b : α) (path : Relation.TransGen S a b) : Relation.TransGen R a b ∨
      Relation.ReflTransGen S a t ∧ ∃ n, new n ∧ Relation.ReflTransGen S n b := by
    induction path with
    | single edge =>
      rcases added _ _ edge with old | ⟨rfl, fresh⟩
      · exact .inl (.single old)
      · exact .inr ⟨.refl, _, fresh, .refl⟩
    | tail before edge ih =>
      rcases ih with early | ⟨to_, n, fresh, from_⟩
      · rcases added _ _ edge with old | ⟨rfl, fresh⟩
        · exact .inl (early.tail old)
        · exact .inr ⟨before.to_reflTransGen, _, fresh, .refl⟩
      · exact .inr ⟨to_, n, fresh, from_.tail edge⟩
  intro cycle
  rcases crossing a a cycle with old | ⟨to_, n, fresh, from_⟩
  · exact acyclic a old
  · exact apart n fresh (path_to_source added (from_.trans to_))

end

end DumboDB.Foundation.Search
