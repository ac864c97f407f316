import DumboDB.Foundation.ByteOrder
import DumboDB.Foundation.Fallible
import DumboDB.Foundation.Search

/-!
The commits of a database. They are addressed by their content and name their parents, so that a
stored commit never changes and the graph has no cycle. `findCommitsToReplay` is determined by what
the two commits reach: commits that are written later do not change the plan of a rebase.
-/

namespace DumboDB.Dolt

open Foundation ByteOrder Search Fallible List

structure CommitIdent where
  name : Bytes
  email : Bytes
  date : Int
deriving DecidableEq

structure CommitMeta where
  author : CommitIdent
  committer : CommitIdent
  description : Bytes
deriving DecidableEq

structure Commit (Hash Root : Type) where
  parents : List Hash
  root : Root
  info : CommitMeta
deriving DecidableEq

/-- Two commits with one address are the same commit. -/
class CommitHash (Hash Root : Type) where
  hashOf : Commit Hash Root → Hash
  injective : Function.Injective hashOf

export CommitHash (hashOf)

section
variable {Hash Root : Type} [CommitHash Hash Root]

/-- The newest commit first: each has its own address, and its parents are older. -/
def Closed : List (Hash × Commit Hash Root) → Prop
  | [] => True
  | (h, c) :: rest => hashOf c = h ∧ h ∉ rest.map (·.1) ∧ (∀ p ∈ c.parents, p ∈ rest.map (·.1)) ∧ Closed rest

theorem Closed.nodup {commits : List (Hash × Commit Hash Root)} (closed : Closed commits) :
    (commits.map (·.1)).Nodup := by
  induction commits with
  | nil => exact .nil
  | cons _ _ ih => exact nodup_cons.mpr ⟨closed.2.1, ih closed.2.2.2⟩

end

structure CommitStore (Hash Root : Type) [CommitHash Hash Root] where
  commits : List (Hash × Commit Hash Root)
  closed : Closed commits

inductive CommitError (Hash : Type) where
  | notFound (h : Hash)
  | parentNotFound (c : Hash)
  | outOfTurns
deriving DecidableEq

variable {Hash Root : Type} [DecidableEq Hash] [CommitHash Hash Root]

def CommitStore.Has (store : CommitStore Hash Root) (h : Hash) : Prop := h ∈ store.commits.map (·.1)

instance (store : CommitStore Hash Root) (h : Hash) : Decidable (store.Has h) :=
  inferInstanceAs (Decidable (h ∈ store.commits.map (·.1)))

def loadCommitAddr (store : CommitStore Hash Root) (h : Hash) : Except (CommitError Hash) (Commit Hash Root) :=
  match store.commits.lookup h with
  | some c => .ok c
  | none => .error (.notFound h)

/-- `SerialCommitParentAddrs` of the commit at an address. -/
def parentAddrs (store : CommitStore Hash Root) (h : Hash) : Except (CommitError Hash) (List Hash) := do
  let commit ← loadCommitAddr store h
  return commit.parents

def CommitStore.insert (store : CommitStore Hash Root) (c : Commit Hash Root)
    (present : ∀ p ∈ c.parents, store.Has p) :
    CommitStore Hash Root :=
  if known : store.Has (hashOf c) then store else ⟨(hashOf c, c) :: store.commits, rfl, known, present, store.closed⟩

/-- The commit is stored at its address once its parents are found. -/
def commitDangling (store : CommitStore Hash Root) (c : Commit Hash Root) :
    Except (CommitError Hash) (Hash × CommitStore Hash Root) :=
  if present : ∀ p ∈ c.parents, store.Has p then .ok (hashOf c, store.insert c present)
  else .error (.parentNotFound (hashOf c))

/-- A turn for the first commit of a search and one for each parent of a commit. -/
def CommitStore.turns (store : CommitStore Hash Root) : Nat :=
  1 + (store.commits.map fun entry => entry.2.parents.length).sum

/-- The commit and all its ancestors, as the commit closure holds them. -/
def inclusiveAncestorSet (store : CommitStore Hash Root) (h : Hash) : Except (CommitError Hash) (List Hash) :=
  collect (parentAddrs store) .outOfTurns store.turns [h] []

/-- The walk over first parents to the first commit that `onto` reaches, the newest commit first. -/
def walkFirstParents (store : CommitStore Hash Root) (ontoAncestors : List Hash) :
    Nat → Hash → Except (CommitError Hash) (List Hash)
  | 0, _ => .error .outOfTurns
  | turns + 1, current =>
    if current ∈ ontoAncestors then .ok []
    else
      match parentAddrs store current with
      | .error e => .error e
      | .ok [] => .ok [current]
      | .ok (p :: _) => (walkFirstParents store ontoAncestors turns p).map (current :: ·)

def findCommitsToReplay (store : CommitStore Hash Root) (branchHead ontoHead : Hash) :
    Except (CommitError Hash) (List Hash) := do
  let ontoAncestors ← collect (parentAddrs store) .outOfTurns store.turns [ontoHead] []
  let toReplay ← walkFirstParents store ontoAncestors (store.commits.length + 1) branchHead
  return toReplay.reverse

namespace CommitStore

variable {store : CommitStore Hash Root} {h : Hash} {c : Commit Hash Root} {p : Hash} {later : CommitStore Hash Root}

theorem load_of_mem {commits : List (Hash × Commit Hash Root)} (closed : Closed commits)
    (member : (h, c) ∈ commits) : commits.lookup h = some c := by
  induction commits with
  | nil => cases member
  | cons entry _ ih =>
    obtain ⟨k, d⟩ := entry
    rcases mem_cons.mp member with same | later
    · cases same
      exact lookup_cons_self
    · have other : h ≠ k := fun same => closed.2.1 (same ▸ mem_map_of_mem later)
      rw [lookup_cons, beq_false_of_ne other]
      exact ih closed.2.2.2 later

theorem loaded_iff : loadCommitAddr store h = .ok c ↔ (h, c) ∈ store.commits := by
  unfold loadCommitAddr
  constructor
  · intro loaded
    split at loaded
    next found =>
      cases loaded
      obtain ⟨_, _, whole, -⟩ := lookup_eq_some_iff.mp found
      rw [whole]
      exact mem_append_right _ (.head _)
    next => cases loaded
  · intro member
    rw [load_of_mem store.closed member]

theorem has_iff : store.Has h ↔ ∃ c, loadCommitAddr store h = .ok c := by
  simp [Has, loaded_iff]

theorem addressed_of_mem {commits : List (Hash × Commit Hash Root)} (closed : Closed commits)
    (member : (h, c) ∈ commits) : hashOf c = h ∧ ∀ p ∈ c.parents,
      p ∈ commits.map (·.1) ∧ (commits.map (·.1)).idxOf h < (commits.map (·.1)).idxOf p := by
  induction commits with
  | nil => cases member
  | cons entry rest ih =>
    obtain ⟨k, d⟩ := entry
    obtain ⟨address, fresh, older, closed⟩ := closed
    have apart {q : Hash} (inside : q ∈ rest.map (·.1)) : k ≠ q := fun same => fresh (same ▸ inside)
    rcases mem_cons.mp member with same | later
    · cases same
      refine ⟨address, fun p parent => ⟨.tail _ (older p parent), ?_⟩⟩
      simp only [map_cons, idxOf_cons_self, idxOf_cons_ne _ (apart (older p parent))]
      exact Nat.succ_pos _
    · obtain ⟨addressed, parents⟩ := ih closed later
      refine ⟨addressed, fun p parent => ?_⟩
      obtain ⟨inside, behind⟩ := parents p parent
      refine ⟨.tail _ inside, ?_⟩
      simp only [map_cons, idxOf_cons_ne _ (apart inside),
        idxOf_cons_ne _ (apart (mem_map_of_mem later))]
      exact Nat.succ_lt_succ behind

theorem hashOf_loaded (loaded : loadCommitAddr store h = .ok c) : hashOf c = h :=
  (addressed_of_mem store.closed (loaded_iff.mp loaded)).1

theorem has_parent (loaded : loadCommitAddr store h = .ok c) (parent : p ∈ c.parents) : store.Has p :=
  ((addressed_of_mem store.closed (loaded_iff.mp loaded)).2 p parent).1

def age (store : CommitStore Hash Root) (h : Hash) : Nat := store.commits.length - (store.commits.map (·.1)).idxOf h

theorem age_parent (loaded : loadCommitAddr store h = .ok c) (parent : p ∈ c.parents) :
    store.age p < store.age h := by
  obtain ⟨inside, _⟩ := (addressed_of_mem store.closed (loaded_iff.mp loaded)).2 p parent
  have within := idxOf_lt_length_of_mem inside
  rw [length_map] at within
  unfold age
  omega

def Extends (store later : CommitStore Hash Root) : Prop :=
  ∀ h c, loadCommitAddr store h = .ok c → loadCommitAddr later h = .ok c

theorem Extends.refl (store : CommitStore Hash Root) : store.Extends store := fun _ _ loaded => loaded

theorem Extends.trans {middle : CommitStore Hash Root} (first : store.Extends middle)
    (second : middle.Extends later) :
    store.Extends later :=
  fun h c loaded => second h c (first h c loaded)

theorem Extends.has (extended : store.Extends later) (has : store.Has h) : later.Has h := by
  obtain ⟨c, loaded⟩ := has_iff.mp has
  exact has_iff.mpr ⟨c, extended h c loaded⟩

theorem extends_insert (present : ∀ p ∈ c.parents, store.Has p) : store.Extends (store.insert c present) := by
  intro h d loaded
  unfold insert
  split
  next => exact loaded
  next => exact loaded_iff.mpr (.tail _ (loaded_iff.mp loaded))

theorem load_insert (present : ∀ p ∈ c.parents, store.Has p) :
    loadCommitAddr (store.insert c present) (hashOf c) = .ok c := by
  unfold insert
  split
  next known =>
    -- an address that is taken already holds this commit
    obtain ⟨d, loaded⟩ := has_iff.mp known
    rw [loaded, CommitHash.injective (hashOf_loaded loaded)]
  next => exact loaded_iff.mpr (.head _)

theorem commitDangling_ok {written : Hash × CommitStore Hash Root} (done : commitDangling store c = .ok written) :
    written.1 = hashOf c ∧ store.Extends written.2 ∧ loadCommitAddr written.2 written.1 = .ok c := by
  unfold commitDangling at done
  split at done
  next present =>
    cases done
    exact ⟨rfl, extends_insert present, load_insert present⟩
  next => cases done

theorem exists_commitDangling (present : ∀ p ∈ c.parents, store.Has p) :
    ∃ written, commitDangling store c = .ok written := by
  simp only [commitDangling, dif_pos present]
  exact ⟨_, rfl⟩

def IsAncestor (store : CommitStore Hash Root) (a h : Hash) : Prop :=
    Relation.ReflTransGen (Edge (parentAddrs store)) h a

theorem edge_iff : Edge (parentAddrs store) h p ↔ ∃ c, loadCommitAddr store h = .ok c ∧ p ∈ c.parents := by
  unfold Edge parentAddrs
  cases loadCommitAddr store h with
  | error e => exact ⟨fun ⟨_, found, _⟩ => (nomatch found), fun ⟨_, found, _⟩ => (nomatch found)⟩
  | ok c =>
    constructor
    · rintro ⟨_, found, parent⟩
      cases found
      exact ⟨c, rfl, parent⟩
    · rintro ⟨d, found, parent⟩
      cases found
      exact ⟨c.parents, rfl, parent⟩

theorem IsAncestor.parent {a : Hash} (loaded : loadCommitAddr store h = .ok c) (parent : p ∈ c.parents)
    (older : store.IsAncestor a p) : store.IsAncestor a h :=
  .head (edge_iff.mpr ⟨c, loaded, parent⟩) older

theorem Extends.isAncestor_iff (extended : store.Extends later) {a : Hash} (has : store.Has h) :
    later.IsAncestor a h ↔ store.IsAncestor a h := by
  constructor
  · intro path
    induction path using Relation.ReflTransGen.head_induction_on with
    | refl => exact .refl
    | head edge _ ih =>
      obtain ⟨c, loaded⟩ := has_iff.mp has
      obtain ⟨d, again, parent⟩ := edge_iff.mp edge
      obtain rfl : c = d := Except.ok.inj ((extended _ c loaded).symm.trans again)
      exact .parent loaded parent (ih (has_parent loaded parent))
  · intro path
    refine Relation.ReflTransGen.mono ?_ _ _ path
    intro x y edge
    obtain ⟨c, loaded, parent⟩ := edge_iff.mp edge
    exact edge_iff.mpr ⟨c, extended x c loaded, parent⟩

theorem degree_eq (loaded : loadCommitAddr store h = .ok c) : degree (parentAddrs store) h = c.parents.length := by
  unfold degree parentAddrs
  rw [loaded]
  rfl

theorem sum_degree (store : CommitStore Hash Root) :
    ∑ a ∈ (store.commits.map (·.1)).toFinset.filter (· ∉ ([] : List Hash)), degree (parentAddrs store) a =
      (store.commits.map fun entry => entry.2.parents.length).sum := by
  have every : (store.commits.map (·.1)).toFinset.filter (· ∉ ([] : List Hash))
    = (store.commits.map (·.1)).toFinset := by simp
  rw [every, sum_toFinset _ store.closed.nodup, map_map]
  exact congrArg _ (map_congr_left fun entry member => degree_eq (loaded_iff.mpr member))

theorem ancestors_found (has : store.Has h) :
    ∃ out, collect (parentAddrs store) .outOfTurns store.turns [h] [] = .ok out ∧ ∀ a, a ∈ out ↔
      store.IsAncestor a h := by
  have inside : ∀ a ∈ (store.commits.map (·.1)).toFinset,
      ∃ more, parentAddrs store a = .ok more ∧ ∀ p ∈ more, p ∈ (store.commits.map (·.1)).toFinset := by
    intro a member
    obtain ⟨c, loaded⟩ := has_iff.mp (mem_toFinset.mp member)
    refine ⟨c.parents, by rw [parentAddrs, loaded]; rfl, fun p parent => ?_⟩
    exact mem_toFinset.mpr (has_parent loaded parent)
  have queued : ∀ a ∈ [h], a ∈ (store.commits.map (·.1)).toFinset := by
    intro a member
    cases mem_singleton.mp member
    exact mem_toFinset.mpr has
  have enough := Nat.add_le_add_left store.sum_degree.le 1
  obtain ⟨out, found⟩ := exists_collect (parentAddrs store) .outOfTurns inside queued enough
  exact ⟨out, found, fun a => mem_collect_iff found⟩

/-- The commits over first parents from one commit that another does not reach, the newest first. -/
inductive Unreached (store : CommitStore Hash Root) (onto : Hash) : Hash → List Hash → Prop where
  | reached {h : Hash} : store.IsAncestor h onto → Unreached store onto h []
  | first {h : Hash} {c : Commit Hash Root} : ¬store.IsAncestor h onto →
        loadCommitAddr store h = .ok c → c.parents = [] →
      Unreached store onto h [h]
  | next {h p : Hash} {c : Commit Hash Root} {ps rest : List Hash} : ¬store.IsAncestor h onto →
      loadCommitAddr store h = .ok c → c.parents = p :: ps → Unreached store onto p rest →
        Unreached store onto h (h :: rest)

namespace Unreached

variable {onto h : Hash} {commits : List Hash}

section

variable (unreached : store.Unreached onto h commits)
include unreached

theorem loads {x : Hash} (member : x ∈ commits) : store.Has x := by
  induction unreached with
  | reached _ => cases member
  | first _ loaded _ =>
    cases mem_singleton.mp member
    exact has_iff.mpr ⟨_, loaded⟩
  | next _ loaded _ _ ih =>
    rcases mem_cons.mp member with rfl | later
    · exact has_iff.mpr ⟨_, loaded⟩
    · exact ih later

theorem age_le {x : Hash} (member : x ∈ commits) : store.age x ≤ store.age h := by
  induction unreached with
  | reached _ => cases member
  | first _ _ _ =>
    cases mem_singleton.mp member
    exact Nat.le_refl _
  | next _ loaded parents _ ih =>
    rcases mem_cons.mp member with rfl | later
    · exact Nat.le_refl _
    · exact (ih later).trans (age_parent loaded (parents ▸ .head _)).le

theorem nodup : commits.Nodup := by
  induction unreached with
  | reached _ => exact .nil
  | first _ _ _ => exact nodup_singleton _
  | next _ loaded parents rest ih =>
    refine nodup_cons.mpr ⟨fun again => ?_, ih⟩
    exact absurd (age_parent loaded (parents ▸ .head _)) (rest.age_le again).not_gt

theorem unique {others : List Hash} (again : store.Unreached onto h others) : commits = others := by
  induction unreached generalizing others with
  | reached below =>
    cases again with
    | reached _ => rfl
    | first apart _ _
    | next apart _ _ _ => exact absurd below apart
  | first apart loaded none =>
    cases again with
    | reached below => exact absurd below apart
    | first _ _ _ => rfl
    | next _ again parents _ =>
      cases loaded.symm.trans again
      exact nomatch none.symm.trans parents
  | next apart loaded parents _ ih =>
    cases again with
    | reached below => exact absurd below apart
    | first _ again none =>
      cases loaded.symm.trans again
      exact nomatch none.symm.trans parents
    | next _ again others rest =>
      cases loaded.symm.trans again
      cases parents.symm.trans others
      rw [ih rest]

end

theorem extended {later : CommitStore Hash Root} (unreached : store.Unreached onto h commits)
    (extended : store.Extends later)
    (has : store.Has onto) : later.Unreached onto h commits := by
  have still {x : Hash} (apart : ¬store.IsAncestor x onto) : ¬later.IsAncestor x onto :=
    fun below => apart ((extended.isAncestor_iff has).mp below)
  induction unreached with
  | reached below => exact .reached ((extended.isAncestor_iff has).mpr below)
  | first apart loaded none => exact .first (still apart) (extended _ _ loaded) none
  | next apart loaded parents _ ih => exact .next (still apart) (extended _ _ loaded) parents ih

theorem eq_nil_iff (unreached : store.Unreached onto h commits) : commits = [] ↔ store.IsAncestor h onto := by
  cases unreached with
  | reached below => exact ⟨fun _ => below, fun _ => rfl⟩
  | first apart _ _
  | next apart _ _ _ => exact ⟨fun none => (nomatch none), fun below => absurd below apart⟩

end Unreached

theorem walkFirstParents_spec {onto : Hash} {ancestors : List Hash}
    (known : ∀ a, a ∈ ancestors ↔ store.IsAncestor a onto)
    {turns : Nat} (has : store.Has h) (enough : store.age h < turns) :
    ∃ out, walkFirstParents store ancestors turns h = .ok out ∧ store.Unreached onto h out := by
  induction turns generalizing h with
  | zero => exact absurd enough (Nat.not_lt_zero _)
  | succ turns ih =>
    unfold walkFirstParents
    split
    next below => exact ⟨[], rfl, .reached ((known h).mp below)⟩
    next apart =>
      have apart : ¬store.IsAncestor h onto := fun below => apart ((known h).mpr below)
      obtain ⟨c, loaded⟩ := has_iff.mp has
      have read : parentAddrs store h = .ok c.parents := by
        rw [parentAddrs, loaded]
        rfl
      rw [read]
      cases parents : c.parents with
      | nil => exact ⟨[h], rfl, .first apart loaded parents⟩
      | cons p _ =>
        have parent : p ∈ c.parents := parents ▸ .head _
        obtain ⟨rest, walked, unreached⟩ := ih (has_parent loaded parent)
          (Nat.lt_of_lt_of_le (age_parent loaded parent) (Nat.le_of_lt_succ enough))
        exact ⟨h :: rest, by simp only [walked]; rfl, .next apart loaded parents unreached⟩

theorem findCommitsToReplay_spec {b o : Hash} (branch : store.Has b) (onto : store.Has o) :
    ∃ plan, findCommitsToReplay store b o = .ok plan ∧ store.Unreached o b plan.reverse := by
  obtain ⟨ancestors, found, known⟩ := ancestors_found onto
  obtain ⟨toReplay, walked, _⟩ := walkFirstParents_spec known branch
    (Nat.lt_succ_of_le (Nat.sub_le store.commits.length _))
  refine ⟨toReplay.reverse, ?_, by rwa [reverse_reverse]⟩
  exact bind_eq_ok.mpr ⟨ancestors, found, bind_eq_ok.mpr ⟨toReplay, walked, rfl⟩⟩

theorem Extends.findCommitsToReplay_eq (extended : store.Extends later) {b o : Hash}
    (branch : store.Has b) (onto : store.Has o) : findCommitsToReplay later b o = findCommitsToReplay store b o := by
  obtain ⟨_, found, unreached⟩ := findCommitsToReplay_spec branch onto
  obtain ⟨_, refound, same⟩ := findCommitsToReplay_spec (extended.has branch) (extended.has onto)
  rw [found, refound, reverse_injective (same.unique (unreached.extended extended onto))]

theorem IsAncestor.age_lt {a : Hash} (older : store.IsAncestor a h) : a = h ∨ store.age a < store.age h := by
  induction older with
  | refl => exact .inl rfl
  | tail _ edge ih =>
    obtain ⟨_, loaded, parent⟩ := edge_iff.mp edge
    have younger := age_parent loaded parent
    exact .inr (ih.elim (fun same => same ▸ younger) younger.trans)

/-- The history has no cycle, and a commit that is written changes neither what older ones reach nor what a
rebase of them would replay. -/
theorem history_append_only (store : CommitStore Hash Root) :
    (∀ a b, store.IsAncestor a b → store.IsAncestor b a → a = b) ∧
      ∀ c written, commitDangling store c = .ok written → ∀ b, store.Has b →
        (∀ a, written.2.IsAncestor a b ↔ store.IsAncestor a b) ∧
          ∀ o, store.Has o → findCommitsToReplay written.2 b o = findCommitsToReplay store b o := by
  refine ⟨fun a b up down => ?_, fun c written done b has => ?_⟩
  · rcases up.age_lt with same | older
    · exact same
    · exact down.age_lt.elim Eq.symm fun younger => absurd older younger.asymm
  · have extended := (commitDangling_ok done).2.1
    exact ⟨fun a => extended.isAncestor_iff has, fun o => extended.findCommitsToReplay_eq has⟩

end CommitStore

end DumboDB.Dolt
