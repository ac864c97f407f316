import DumboDB.Handler.RoleGraph

/-!
Granting and revoking privileges as operations on the set of pairs of a resource and an action. An
added privilege goes to the first one with its key, and a revoked one is read off the last one with
its key, so that two resources under one key and a resource that is revoked in two entries are told
apart by neither.
-/

namespace DumboDB.Handler

open Foundation ByteOrder DumboDB.Types Authz Fallible List

def pairsOf (privileges : List StoredPrivilege) : Set (Resource × Action) :=
  {pair | ∃ p ∈ privileges, parseResourceDoc p.resource = pair.1 ∧ pair.2 ∈ p.actions}

/-- The resource that the actions added under a key go to. -/
def firstUnder (privileges : List StoredPrivilege) (key : Bytes) : Option Document :=
  (privileges.map StoredPrivilege.resource).find? fun rd => resourceKey rd = key

/-- The privilege whose actions are revoked under a key. -/
def lastUnder (privileges : List StoredPrivilege) (key : Bytes) : Option StoredPrivilege :=
  privileges.reverse.find? fun p => resourceKey p.resource = key

/-- An entry of a command's array as the privilege it lists. -/
def listedPrivilege : Value → Option StoredPrivilege
  | .document rp =>
    match Document.get rp (field "resource"), Document.get rp (field "actions") with
    | some (.document resource), some (.array actions) =>
      some ⟨resource, actions.filterMap fun
        | .string a => some a
        | _ => none⟩
    | _, _ => none
  | _ => none

/-- Each added pair is of the first resource with its key or was there before, and the first resource
with its key has the action by right. -/
def GrantsApart (existing add : List StoredPrivilege) : Prop :=
  ∀ p ∈ add, ∀ a ∈ p.actions, ∀ first, firstUnder (existing ++ add) (resourceKey p.resource) = some first →
    (parseResourceDoc p.resource = parseResourceDoc first ∨ (parseResourceDoc p.resource, a) ∈ pairsOf existing) ∧
      (parseResourceDoc first, a) ∈ pairsOf existing ∪ pairsOf add

/-- Of a stored pair that is revoked at all, the last entry with its key lists the action; and where that
entry lists it, the pair is revoked. -/
structure RevokesApart (existing revoked : List StoredPrivilege) : Prop where
  repeated : ∀ p ∈ existing, ∀ a ∈ p.actions, (parseResourceDoc p.resource, a) ∈ pairsOf revoked →
    ∃ last, lastUnder revoked (resourceKey p.resource) = some last ∧ a ∈ last.actions
  collided : ∀ p ∈ existing, ∀ a ∈ p.actions, ∀ last, lastUnder revoked (resourceKey p.resource) = some last →
    a ∈ last.actions → (parseResourceDoc p.resource, a) ∈ pairsOf revoked

variable {existing add : List StoredPrivilege} {p : StoredPrivilege} {pair : Resource × Action}

theorem firstUnder_self (rest : List StoredPrivilege) :
    firstUnder (existing ++ p :: rest) (resourceKey p.resource) = firstUnder (existing ++ [p])
      (resourceKey p.resource) := by
  simp [firstUnder, find?_append]

theorem firstUnder_merge (add : List StoredPrivilege) (key : Bytes) :
    firstUnder (mergePrivilege p existing ++ add) key = firstUnder (existing ++ p :: add) key := by
  induction existing with
  | nil => rfl
  | cons e existing ih =>
    unfold firstUnder at ih ⊢
    rw [mergePrivilege]
    split
    next same =>
      by_cases here : resourceKey e.resource = key
      · simp [here]
      · have other : resourceKey p.resource ≠ key := same ▸ here
        simp [here, other, find?_append]
    next =>
      by_cases here : resourceKey e.resource = key
      · simp [here]
      · simpa [here] using ih

theorem mem_pairsOf_cons {e : StoredPrivilege} :
    pair ∈ pairsOf (e :: existing) ↔ (parseResourceDoc e.resource = pair.1 ∧ pair.2 ∈ e.actions) ∨
      pair ∈ pairsOf existing := by
  simp [pairsOf]

theorem mem_pairsOf_merge : pair ∈ pairsOf (mergePrivilege p existing) ↔ pair ∈ pairsOf existing ∨
    ∃ first, firstUnder (existing ++ [p]) (resourceKey p.resource) = some first ∧ parseResourceDoc first = pair.1 ∧
      pair.2 ∈ p.actions := by
  induction existing with
  | nil => simp [mergePrivilege, firstUnder, pairsOf]
  | cons e existing ih =>
    rw [mergePrivilege]
    split
    next same =>
      have first : firstUnder (e :: existing ++ [p]) (resourceKey p.resource)
        = some e.resource := by simp [firstUnder, same]
      simp only [mem_pairsOf_cons, first, unionStrings, mem_union, Option.some.injEq, exists_eq_left']
      tauto
    next differ =>
      have first : firstUnder (e :: existing ++ [p]) (resourceKey p.resource) =
          firstUnder (existing ++ [p]) (resourceKey p.resource) := by simp [firstUnder, differ]
      rw [mem_pairsOf_cons, mem_pairsOf_cons, ih, first, or_assoc]

theorem mem_pairsOf_union : pair ∈ pairsOf (unionPrivileges existing add) ↔ pair ∈ pairsOf existing ∨
    ∃ p ∈ add, ∃ first, firstUnder (existing ++ add) (resourceKey p.resource) = some first ∧
      parseResourceDoc first = pair.1 ∧ pair.2 ∈ p.actions := by
  induction add generalizing existing with
  | nil => simp [unionPrivileges]
  | cons p add ih =>
    change pair ∈ pairsOf (unionPrivileges (mergePrivilege p existing) add) ↔ _
    simp only [ih, mem_pairsOf_merge, firstUnder_merge, exists_mem_cons_iff, firstUnder_self add, or_assoc]

theorem exists_firstUnder (member : p ∈ existing) :
    ∃ first, firstUnder existing (resourceKey p.resource) = some first := by
  refine Option.isSome_iff_exists.mp (find?_isSome.mpr ⟨p.resource, mem_map_of_mem member, ?_⟩)
  exact decide_eq_true rfl

theorem key_of_firstUnder {key : Bytes} {rd : Document} (found : firstUnder existing key = some rd) :
    resourceKey rd = key := by
  unfold firstUnder at found
  simpa using find?_some found

theorem resourceKey_of_parse {rd sd : Document} (same : parseResourceDoc rd = parseResourceDoc sd) :
    resourceKey rd = resourceKey sd := by
  unfold resourceKey
  rw [same]

theorem granted_exactly_iff :
    pairsOf (unionPrivileges existing add) = pairsOf existing ∪ pairsOf add ↔ GrantsApart existing add := by
  rw [Set.ext_iff]
  constructor
  · intro exact_ p member a listed first found
    have new := (exact_ (parseResourceDoc first, a)).mp (mem_pairsOf_union.mpr (.inr ⟨p, member, first,
      found, rfl, listed⟩))
    refine ⟨?_, new⟩
    have added := (exact_ (parseResourceDoc p.resource, a)).mpr (.inr ⟨p, member, rfl, listed⟩)
    rcases mem_pairsOf_union.mp added with old | ⟨q, -, _, under, same, -⟩
    · exact .inr old
    · -- the resource that took the action has the key of the added one, so it is the first of that key
      have key : resourceKey q.resource = resourceKey p.resource := by
        rw [← key_of_firstUnder under, resourceKey_of_parse same]
      rw [key, found] at under
      cases under
      exact .inl same.symm
  · intro apart pair
    rw [mem_pairsOf_union]
    constructor
    · rintro (old | ⟨p, member, first, found, same, listed⟩)
      · exact .inl old
      · have new := (apart p member pair.2 listed first found).2
        rwa [same] at new
    · rintro (old | ⟨p, member, same, listed⟩)
      · exact .inl old
      · obtain ⟨first, found⟩ := exists_firstUnder (mem_append_right existing member)
        rcases (apart p member pair.2 listed first found).1 with equal | old
        · exact .inr ⟨p, member, first, found, equal.symm.trans same, listed⟩
        · rw [same] at old
          exact .inl old

def keyedActions (p : StoredPrivilege) : Bytes × List Action := (resourceKey p.resource, p.actions)

variable {revoked : List StoredPrivilege}

theorem mem_pairsOf_revoke : pair ∈ pairsOf (revokePrivileges existing (revoked.map keyedActions)) ↔
    ∃ p ∈ existing, parseResourceDoc p.resource = pair.1 ∧ pair.2 ∈ p.actions ∧
      ∀ last, lastUnder revoked (resourceKey p.resource) = some last → pair.2 ∉ last.actions := by
  have read (p : StoredPrivilege) : ((revoked.map keyedActions).reverse.find?
    fun entry => entry.1 = resourceKey p.resource) =
      (lastUnder revoked (resourceKey p.resource)).map keyedActions := by
    rw [← map_reverse, find?_map]
    rfl
  simp only [pairsOf, Set.mem_ofPred_eq, revokePrivileges, mem_filterMap, read]
  constructor
  · rintro ⟨q, ⟨p, member, kept⟩, same, listed⟩
    cases found : lastUnder revoked (resourceKey p.resource) with
    | none =>
      rw [found] at kept
      obtain rfl : p = q := Option.some.inj kept
      exact ⟨p, member, same, listed, fun last other => (nomatch found.symm.trans other)⟩
    | some last =>
      simp only [found, Option.map_some] at kept
      split at kept
      · cases kept
      · cases kept
        obtain ⟨listed, left⟩ := mem_filter.mp listed
        refine ⟨p, member, same, listed, fun other also => ?_⟩
        cases found.symm.trans also
        exact of_decide_eq_true left
  · rintro ⟨p, member, same, listed, left⟩
    cases found : lastUnder revoked (resourceKey p.resource) with
    | none => exact ⟨p, ⟨p, member, by rw [found]; rfl⟩, same, listed⟩
    | some last =>
      have remains : pair.2 ∈ p.actions.filter fun a => a ∉ (keyedActions last).2 :=
        mem_filter.mpr ⟨listed, decide_eq_true (left last found)⟩
      refine ⟨{ p with actions := p.actions.filter fun a => a ∉ (keyedActions last).2 },
        ⟨p, member, ?_⟩, same, remains⟩
      simp only [found, Option.map_some]
      exact if_neg (ne_nil_of_mem remains)

theorem revoked_exactly_iff :
    pairsOf (revokePrivileges existing (revoked.map keyedActions)) = pairsOf existing \ pairsOf revoked ↔
      RevokesApart existing revoked := by
  rw [Set.ext_iff]
  constructor
  · intro exact_
    constructor
    · intro p member a listed asked
      by_contra kept
      push Not at kept
      exact ((exact_ (parseResourceDoc p.resource, a)).mp (mem_pairsOf_revoke.mpr ⟨p, member, rfl,
        listed, kept⟩)).2 asked
    · intro p member a listed last found also
      by_contra kept
      have left := (exact_ (parseResourceDoc p.resource, a)).mpr ⟨⟨p, member, rfl, listed⟩, kept⟩
      obtain ⟨q, -, same, -, free⟩ := mem_pairsOf_revoke.mp left
      exact free last (resourceKey_of_parse same ▸ found) also
  · intro apart pair
    rw [mem_pairsOf_revoke]
    constructor
    · rintro ⟨p, member, same, listed, free⟩
      refine ⟨⟨p, member, same, listed⟩, fun asked => ?_⟩
      obtain ⟨last, found, also⟩ := apart.repeated p member pair.2 listed (same.symm ▸ asked)
      exact free last found also
    · rintro ⟨⟨p, member, same, listed⟩, kept⟩
      refine ⟨p, member, same, listed, fun last found also => kept ?_⟩
      have asked := apart.collided p member pair.2 listed last found also
      rwa [same] at asked

theorem revokedEntry_ok {v : Value} {entry : Bytes × List Action} (read : revokedEntry v = .ok entry) :
    ∃ p, listedPrivilege v = some p ∧ entry = keyedActions p := by
  unfold revokedEntry at read
  split at read
  · split at read
    next resource _ named listed =>
      cases read
      refine ⟨⟨resource, _⟩, ?_, rfl⟩
      rw [listedPrivilege]
      split
      next document actions named' listed' =>
        cases named.symm.trans named'
        cases listed.symm.trans listed'
        rfl
      next other => exact absurd listed (other _ _ named)
    all_goals cases read
  · cases read

theorem eq_of_revokedEntries {privileges : List Value} {remove : List (Bytes × List Action)}
    (read : privileges.mapM revokedEntry = .ok remove) :
    remove = (privileges.filterMap listedPrivilege).map keyedActions := by
  induction privileges generalizing remove with
  | nil =>
    cases read
    rfl
  | cons v privileges ih =>
    rw [mapM_cons] at read
    obtain ⟨_, first, rest⟩ := bind_eq_ok.mp read
    obtain ⟨_, later, same⟩ := bind_eq_ok.mp rest
    cases same
    obtain ⟨p, listed, rfl⟩ := revokedEntry_ok first
    rw [filterMap_cons_some listed, map_cons, ih later]

/-- A grant is the union and a revocation the difference of the sets of pairs exactly when each is told
apart by its key, and so is what a command that revokes leaves in the role. -/
theorem grants_and_revokes_exactly (existing add : List StoredPrivilege) (privileges : List Value) :
    (pairsOf (unionPrivileges existing add) = pairsOf existing ∪ pairsOf add ↔ GrantsApart existing add) ∧
    (∀ remove, privileges.mapM revokedEntry = .ok remove →
      (pairsOf (revokePrivileges existing remove) = pairsOf existing \ pairsOf
        (privileges.filterMap listedPrivilege) ↔
        RevokesApart existing (privileges.filterMap listedPrivilege))) ∧
    ∀ s role after, Succeeds s (.revokePrivilegesFromRole role privileges) after →
      ∃ before changed, s.roles.find role.id = some before ∧ after.roles.find role.id = some changed ∧
        (pairsOf changed.privileges = pairsOf before.privileges \ pairsOf (privileges.filterMap listedPrivilege) ↔
          RevokesApart before.privileges (privileges.filterMap listedPrivilege)) := by
  refine ⟨granted_exactly_iff, fun remove read => ?_, fun s role after ran => ?_⟩
  · rw [eq_of_revokedEntries read]
    exact revoked_exactly_iff
  · have effect := effect_of_exec ran
    cases effect with
    | @revokePrivilegesFromRole _ _ remove before read found =>
      obtain rfl := eq_of_revokedEntries read
      refine ⟨before, _, found, (Records.find_update_single found ?_ _).trans (if_pos rfl), revoked_exactly_iff⟩
      rfl

def onCollection (db collection : String) : Document :=
  [(field "db", .string (field db)), (field "collection", .string (field collection))]

def entryFor (resource : Document) (actions : List String) : Value :=
  .document [(field "resource", .document resource),
    (field "actions", .array (actions.map fun a => .string (field a)))]

def mayOn (resource : Document) (actions : List String) : StoredPrivilege := ⟨resource, actions.map field⟩

def itemClerk : AuthStore :=
  (nothingStored.exec (.createRole clerk [entryFor (onCollection "shop" "items") ["find", "insert"]] [] none)).2

theorem grants_and_revokes_exactly_find : ∃ after,
    Succeeds itemClerk (.revokePrivilegesFromRole clerk [entryFor (onCollection "shop" "items") ["find"]]) after ∧
    ∃ changed, after.roles.find clerk.id = some changed ∧
      pairsOf changed.privileges = pairsOf [mayOn (onCollection "shop" "items") ["find", "insert"]] \
        pairsOf [mayOn (onCollection "shop" "items") ["find"]] := by
  refine ⟨_, rfl, ?_⟩
  obtain ⟨-, -, ran⟩ := grants_and_revokes_exactly [] [] [entryFor (onCollection "shop" "items") ["find"]]
  obtain ⟨_, changed, found, left, exact_⟩ := ran itemClerk clerk _ rfl
  cases found
  refine ⟨changed, left, exact_.mpr ⟨?_, ?_⟩⟩
  · rintro p member a - asked
    cases mem_singleton.mp member
    obtain ⟨q, listed, -, also⟩ := asked
    exact ⟨q, by cases mem_singleton.mp listed; rfl, also⟩
  · rintro p member a - _ found also
    cases mem_singleton.mp member
    cases found
    exact ⟨_, .head _, rfl, also⟩

def itemEntries : List Value :=
  [entryFor (onCollection "shop" "items") ["find"], entryFor (onCollection "shop" "items") ["insert"]]

/-- Two entries for one resource: only the action of the last one is revoked. A resource with another one's
key: the action goes to that one. -/
theorem revoked_twice_kept :
    (∃ remove, itemEntries.mapM revokedEntry = .ok remove ∧
      (collectionResource (field "shop") (field "items"), field "find") ∈
        pairsOf (revokePrivileges [mayOn (onCollection "shop" "items") ["find", "insert"]] remove) ∩
          pairsOf (itemEntries.filterMap listedPrivilege)) ∧
    (collectionResource (field "a") (field "b|coll:c"), field "insert") ∉
      pairsOf (unionPrivileges [mayOn (onCollection "a|coll:b" "c") ["find"]] [mayOn
        (onCollection "a" "b|coll:c") ["insert"]]) := by
  refine ⟨⟨_, rfl, ⟨_, .head _, rfl, .head _⟩, _, .head _, rfl, .head _⟩, ?_⟩
  rintro ⟨p, member, same, -⟩
  cases mem_singleton.mp (show p ∈ [_] from member)
  exact absurd same (by decide +kernel)

end DumboDB.Handler
