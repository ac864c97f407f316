import DumboDB.Handler.UserEffects
import DumboDB.Foundation.Transition

/-!
The inheritance graph of the stored roles. Granting roles to a role looks for a cycle first, and a
new role cannot be named by any other; replacing the roles of a role checks only that they exist.
-/

namespace DumboDB.Handler

open Foundation ByteOrder DumboDB.Types Authz Search List
open Transition (Run Guarded)

/-- A stored role has the other one in its `roles` array. -/
def AuthStore.Stored (s : AuthStore) (r q : Role) : Prop := ∃ d, s.roles.find r.id = some d ∧ q ∈ d.roles

def AuthStore.Acyclic (s : AuthStore) : Prop := ∀ r, ¬Relation.TransGen s.Stored r r

/-- What the commands keep besides: references lead to roles that exist, and no stored role hides behind a built-in
one or has no name. -/
structure RolesSound (s : AuthStore) : Prop where
  known : ∀ r q, s.Stored r q → s.Exists q
  custom : ∀ r d, s.roles.find r.id = some d → isBuiltinRoleOnDB r = false ∧ r.role ≠ []

variable {s after : AuthStore} {stored : Records RoleDoc.id}

section Edges
variable {role r q : Role} {doc changed : RoleDoc}

theorem kept_of_named (found : s.roles.find role.id = some doc) (named : changed.name = role) :
    changed.name = doc.name :=
  named.trans (name_of_findRole found).symm

theorem find_updateRole (found : s.roles.find role.id = some doc) (kept : changed.name = doc.name) (r : Role) :
    (s.roles.update [changed]).find r.id = if r = role then some changed else s.roles.find r.id := by
  rw [Records.find_update_single found (congrArg Role.id kept)]
  simp only [Role.id_injective.eq_iff]

theorem stored_updateRole (found : s.roles.find role.id = some doc) (kept : changed.name = doc.name) :
    AuthStore.Stored { s with roles := s.roles.update [changed] } r q ↔
      r = role ∧ q ∈ changed.roles ∨ r ≠ role ∧ s.Stored r q := by
  simp only [AuthStore.Stored, find_updateRole found kept]
  by_cases same : r = role
  · simp [same]
  · simp [same]

theorem find_insertRole (inserted : s.roles.insert doc = some stored) (r : Role) :
    stored.find r.id = if r = doc.name then some doc else s.roles.find r.id := by
  rw [Records.find_insert inserted]
  by_cases same : r = doc.name
  · subst same
    simp [RoleDoc.id]
  · have other : doc.id ≠ r.id := fun equal => same (Role.id_injective equal).symm
    simp [same, other]

theorem find_changedRoleHolders {D : Type} {key : D → Bytes} {roles : D → List Role} {set : D → List Role → D}
    (keyed : ∀ d refs, key (set d refs) = key d) (same : ∀ d, set d (roles d) = d)
    (records : Records key) (removed : Role)
    (k : Bytes) : (records.update (changedRoleHolders roles set removed records.docs)).find k =
      (records.find k).map fun d => set d (removeRoles (roles d) [removed]) := by
  unfold changedRoleHolders
  rw [Records.find_update_filterMap]
  · refine congrArg (fun f => (records.find k).map f) (funext fun d => ?_)
    dsimp only
    split
    · rfl
    next kept =>
      have kept : (removeRoles (roles d) [removed]).length = (roles d).length := by simpa using kept
      have unchanged : removeRoles (roles d) [removed] = roles d := filter_sublist.eq_of_length kept
      rw [unchanged, same]
      rfl
  · intro d n changed
    dsimp only at changed
    split at changed
    · cases changed
      exact keyed _ _
    · cases changed

theorem find_changedRoleDocs (records : Records RoleDoc.id) (removed : Role) (k : Bytes) :
    (records.update (changedRoleDocs removed records.docs)).find k =
      (records.find k).map fun d => { d with roles := removeRoles d.roles [removed] } := by
  refine find_changedRoleHolders ?_ ?_ records removed k
  · exact fun _ _ => rfl
  · exact fun _ => rfl

theorem find_changedUserDocs (records : Records UserDoc.id) (removed : Role) (k : Bytes) :
    (records.update (changedUserDocs removed records.docs)).find k =
      (records.find k).map fun d => { d with roles := removeRoles d.roles [removed] } := by
  refine find_changedRoleHolders ?_ ?_ records removed k
  · exact fun _ _ => rfl
  · exact fun _ => rfl

theorem find_droppedRole (role r : Role) : (s.dropped role).roles.find r.id =
    if r = role then none else (s.roles.find r.id).map fun d => { d with roles := removeRoles d.roles [role] } := by
  unfold AuthStore.dropped
  rw [find_changedRoleDocs, Records.find_delete]
  by_cases same : r = role
  · simp [same]
  · have other : role.id ≠ r.id := fun equal => same (Role.id_injective equal).symm
    simp [same, other]

theorem stored_dropped : (s.dropped role).Stored r q ↔ r ≠ role ∧ q ≠ role ∧ s.Stored r q := by
  simp only [AuthStore.Stored, find_droppedRole]
  by_cases same : r = role
  · simp [same]
  · simp only [same, if_false, Option.map_eq_some_iff, not_false_eq_true, ne_eq, true_and]
    constructor
    · rintro ⟨_, ⟨d, found, rfl⟩, member⟩
      obtain ⟨listed, other⟩ := mem_filter.mp member
      exact ⟨by simpa using other, d, found, listed⟩
    · rintro ⟨other, d, found, listed⟩
      exact ⟨_, ⟨d, found, rfl⟩, mem_filter.mpr ⟨listed, by simpa using other⟩⟩

theorem stored_insertRole (inserted : s.roles.insert doc = some stored) :
    AuthStore.Stored { s with roles := stored } r q ↔ r = doc.name ∧ q ∈ doc.roles ∨ r ≠ doc.name ∧ s.Stored r q := by
  simp only [AuthStore.Stored, find_insertRole inserted]
  by_cases same : r = doc.name
  · simp [same]
  · simp [same]

end Edges

section Sound
variable {role r q : Role} {doc changed : RoleDoc}

theorem AuthStore.Exists.of_find (kept : ∀ d, s.roles.find q.id = some d → (after.roles.find q.id).isSome = true)
    (exists_ : s.Exists q) : after.Exists q := by
  rcases exists_ with builtin | stored
  · exact .inl builtin
  · obtain ⟨d, found⟩ := Option.isSome_iff_exists.mp stored
    exact .inr (kept d found)

theorem exists_updateRole (found : s.roles.find role.id = some doc) (kept : changed.name = doc.name)
    (exists_ : s.Exists q) :
    AuthStore.Exists { s with roles := s.roles.update [changed] } q := by
  refine exists_.of_find fun d stored => ?_
  rw [find_updateRole found kept]
  split
  · rfl
  · rw [stored]
    rfl

section

variable (sound : RolesSound s)
include sound

theorem RolesSound.nonempty (exists_ : s.Exists q) : q.role ≠ [] := by
  rcases exists_ with builtin | stored
  · intro empty
    have listed : ([] : Bytes) ∈ builtinRoleNames q.db.name := by simpa [isBuiltinRoleOnDB, empty] using builtin
    unfold builtinRoleNames at listed
    split at listed
    · cases listed
    · split at listed <;> exact absurd listed (by decide)
  · obtain ⟨d, found⟩ := Option.isSome_iff_exists.mp stored
    exact (sound.custom q d found).2

theorem RolesSound.inherits (edge : s.Stored r q) : s.Inherits r q := by
  obtain ⟨d, found, listed⟩ := id edge
  have plain := (sound.custom r d found).1
  have named := sound.nonempty (sound.known r q edge)
  have edges : Authz.inherits s.customRoleResolver r = rolesFromArray d.roles := by
    simp [Authz.inherits, builtinRole, plain, AuthStore.customRoleResolver, found]
  change q ∈ Authz.inherits _ r
  rw [edges]
  exact mem_filter.mpr ⟨listed, by simpa using named⟩

theorem RolesSound.replaced (found : s.roles.find role.id = some doc) (same : changed.name = doc.name)
    (all : ∀ q ∈ changed.roles, s.Exists q) : RolesSound { s with roles := s.roles.update [changed] } := by
  have kept (q : Role) (exists_ : s.Exists q) := exists_updateRole found same exists_
  constructor
  · intro r q edge
    rcases (stored_updateRole found same).mp edge with ⟨-, listed⟩ | ⟨-, old⟩
    · exact kept q (all q listed)
    · exact kept q (sound.known r q old)
  · intro r d stored
    rw [find_updateRole found same] at stored
    split at stored
    next here => exact here ▸ sound.custom role doc found
    next => exact sound.custom r d stored

theorem RolesSound.inserted (custom : isBuiltinRoleOnDB doc.name = false)
    (nonempty : doc.name.role ≠ []) (all : ∀ q ∈ doc.roles, s.Exists q)
    (inserted : s.roles.insert doc = some stored) : RolesSound { s with roles := stored } := by
  have kept (q : Role) (exists_ : s.Exists q) : AuthStore.Exists { s with roles := stored } q := by
    refine exists_.of_find fun d found => ?_
    rw [find_insertRole inserted]
    split
    · rfl
    · rw [found]
      rfl
  constructor
  · intro r q edge
    rcases (stored_insertRole inserted).mp edge with ⟨-, listed⟩ | ⟨-, old⟩
    · exact kept q (all q listed)
    · exact kept q (sound.known r q old)
  · intro r d found
    rw [find_insertRole inserted] at found
    split at found
    next same => exact same ▸ ⟨custom, nonempty⟩
    next => exact sound.custom r d found

theorem RolesSound.dropped (role : Role) : RolesSound (s.dropped role) := by
  constructor
  · intro r q edge
    obtain ⟨-, other, old⟩ := stored_dropped.mp edge
    refine (sound.known r q old).of_find fun d found => ?_
    rw [find_droppedRole, if_neg other, found]
    rfl
  · intro r d found
    rw [find_droppedRole] at found
    split at found
    · cases found
    · obtain ⟨old, found, -⟩ := Option.map_eq_some_iff.mp found
      exact sound.custom r old found

theorem RolesSound.of_roles_eq (same : after.roles = s.roles) : RolesSound after := by
  obtain ⟨known, custom⟩ := sound
  constructor
  · simpa only [AuthStore.Stored, AuthStore.Exists, same] using known
  · simpa only [same] using custom

end

theorem mem_union {α : Type} [DecidableEq α] {existing add : List α} {a : α} :
    a ∈ union existing add ↔ a ∈ existing ∨ a ∈ add := by
  unfold union
  induction add generalizing existing with
  | nil => simp
  | cons b add ih =>
    rw [foldl_cons, ih]
    split
    next old =>
      constructor
      · rintro (early | late)
        · exact .inl early
        · exact .inr (.tail _ late)
      · rintro (early | listed)
        · exact .inl early
        · rcases mem_cons.mp listed with rfl | late
          · exact .inl old
          · exact .inr late
    next => simp [or_assoc]

theorem RolesSound.step {c : Command} (sound : RolesSound s) (effect : Effect s c after) : RolesSound after := by
  cases effect with
  | createUser | updateUser | grantRolesToUser | revokeRolesFromUser => exact sound.of_roles_eq rfl
  | createRole nonempty custom _ granted named inserted =>
    subst named
    exact sound.inserted custom nonempty granted.all inserted
  | @updateRole role _ roles _ doc changed found named _ _ rolesKept granted =>
    refine sound.replaced found (kept_of_named found named) fun q listed => ?_
    cases roles with
    | none => exact sound.known role q ⟨doc, found, rolesKept rfl ▸ listed⟩
    | some given => exact (granted given rfl).all q listed
  | @grantRolesToRole role _ refs doc granted _ found =>
    refine sound.replaced found rfl fun q listed => ?_
    rcases mem_union.mp listed with old | new
    · exact sound.known role q ⟨doc, found, old⟩
    · exact granted.all q new
  | @revokeRolesFromRole role _ _ doc _ found =>
    refine sound.replaced found rfl fun q listed => ?_
    exact sound.known role q ⟨doc, found, (mem_filter.mp listed).1⟩
  | @grantPrivilegesToRole role _ _ doc _ found
  | @revokePrivilegesFromRole role _ _ doc _ found =>
    exact sound.replaced found rfl fun q listed => sound.known role q ⟨doc, found, listed⟩
  | dropRole => exact sound.dropped _

end Sound

section Acyclic
variable {role : Role} {doc changed : RoleDoc}

theorem AuthStore.Acyclic.of_edges (acyclic : s.Acyclic) (fewer : ∀ r q, after.Stored r q → s.Stored r q) :
    after.Acyclic :=
  fun r cycle => acyclic r (Relation.TransGen.mono fewer _ _ cycle)

theorem AuthStore.Acyclic.replaced (acyclic : s.Acyclic) (found : s.roles.find role.id = some doc)
    (kept : changed.name = doc.name)
    (apart : ∀ q ∈ changed.roles, q ∈ doc.roles ∨ ¬Relation.ReflTransGen s.Stored q role) :
    AuthStore.Acyclic { s with roles := s.roles.update [changed] } := by
  refine acyclic_of_added (t := role) (fun r q edge => ?_) (fun q new => new) acyclic
  rcases (stored_updateRole found kept).mp edge with ⟨rfl, listed⟩ | ⟨-, old⟩
  · rcases apart q listed with old | new
    · exact .inl ⟨doc, found, old⟩
    · exact .inr ⟨rfl, new⟩
  · exact .inl old

theorem AuthStore.Acyclic.inserted (acyclic : s.Acyclic) (sound : RolesSound s)
    (custom : isBuiltinRoleOnDB doc.name = false) (all : ∀ q ∈ doc.roles, s.Exists q)
    (inserted : s.roles.insert doc = some stored) : AuthStore.Acyclic { s with roles := stored } := by
  have fresh : ¬s.Exists doc.name := by
    rintro (builtin | found)
    · exact absurd builtin (by simp [custom])
    · have absent : s.roles.find doc.name.id = none := Records.find_of_insert inserted
      exact absurd found (by simp [absent])
  have added (r q : Role) (edge : AuthStore.Stored { s with roles := stored } r q) :
      s.Stored r q ∨ r = doc.name ∧ q ∈ doc.roles := by
    rcases (stored_insertRole inserted).mp edge with new | ⟨-, old⟩
    · exact .inr new
    · exact .inl old
  refine acyclic_of_added added (fun q listed path => ?_) acyclic
  cases path with
  | refl => exact fresh (all _ listed)
  | tail _ edge => exact fresh (sound.known _ _ edge)

/-- An `updateRole` whose roles do not lead back to the role that takes them. -/
def ReplacesApart (s : AuthStore) : Command → Prop
  | .updateRole role _ (some roles) _ =>
    ∀ refs, normalizeRoleRefs roles role.db = .ok refs → ∀ q ∈ refs, ¬Relation.ReflTransGen s.Stored q role
  | _ => True

theorem AuthStore.Acyclic.step {c : Command} (acyclic : s.Acyclic) (sound : RolesSound s) (apart : ReplacesApart s c)
    (effect : Effect s c after) : after.Acyclic := by
  cases effect with
  | createUser | updateUser | grantRolesToUser | revokeRolesFromUser => exact acyclic.of_edges fun _ _ => id
  | createRole _ custom _ granted named inserted =>
    subst named
    exact acyclic.inserted sound custom granted.all inserted
  | @updateRole role _ roles _ doc changed found named _ _ rolesKept granted =>
    refine acyclic.replaced found (kept_of_named found named) fun q listed => ?_
    cases roles with
    | none => exact .inl (rolesKept rfl ▸ listed)
    | some given => exact .inr (apart _ (granted given rfl).normalized q listed)
  | @grantRolesToRole role _ refs doc granted checked found =>
    refine acyclic.replaced found rfl fun q listed => ?_
    rcases mem_union.mp listed with old | new
    · exact .inl old
    · have nonempty := sound.nonempty (granted.all q new)
      refine .inr fun path => checked q (mem_filter.mpr ⟨new, by simpa using nonempty⟩) ?_
      exact Relation.ReflTransGen.mono (fun _ _ edge => sound.inherits edge) _ _ path
  | @revokeRolesFromRole role _ _ doc _ found =>
    exact acyclic.replaced found rfl fun q listed => .inl (mem_filter.mp listed).1
  | @grantPrivilegesToRole role _ _ doc _ found
  | @revokePrivilegesFromRole role _ _ doc _ found =>
    exact acyclic.replaced found rfl fun q listed => .inl listed
  | dropRole => exact acyclic.of_edges fun r q edge => (stored_dropped.mp edge).2.2

theorem ReplacesApart.of_acyclic {c : Command} (effect : Effect s c after) (acyclic : after.Acyclic) :
    ReplacesApart s c := by
  cases effect with
  | @updateRole role _ roles _ doc changed found named _ _ _ granted =>
    cases roles with
    | none => trivial
    | some given =>
      intro _ normalized q listed path
      cases (granted given rfl).normalized.symm.trans normalized
      have kept := kept_of_named found named
      have back := path_until (fun r p other edge => (stored_updateRole found kept).mpr (.inr ⟨other, edge⟩)) path
      exact acyclic role (.head' ((stored_updateRole found kept).mpr (.inl ⟨rfl, listed⟩)) back)
  | _ => trivial

end Acyclic

def Succeeds (s : AuthStore) (c : Command) (after : AuthStore) : Prop := s.exec c = (.ok (), after)

/-- From no stored roles the graph has no cycle as long as no update replaces the roles of a role by one
that leads back to it, and the first such update closes one. -/
theorem roles_acyclic_until_replaced {users : Records UserDoc.id} {commands : List Command}
    (run : Run (Guarded ReplacesApart Succeeds) ⟨users, .empty⟩ commands s) :
    s.Acyclic ∧ ∀ c after, Succeeds s c after → (after.Acyclic ↔ ReplacesApart s c) := by
  have held : s.Acyclic ∧ RolesSound s := by
    refine run.invariant (fun s => s.Acyclic ∧ RolesSound s) ?_ fun s c t ⟨acyclic, sound⟩ ⟨apart, ran⟩ => ?_
    · have none_ (r q : Role) : ¬AuthStore.Stored ⟨users, .empty⟩ r q := fun ⟨_, found, _⟩ => nomatch found
      refine ⟨fun r cycle => ?_, fun r q edge => absurd edge (none_ r q), fun r d found => nomatch found⟩
      cases cycle with
      | single edge
      | tail _ edge => exact none_ _ _ edge
    · exact ⟨acyclic.step sound apart (effect_of_exec ran), sound.step (effect_of_exec ran)⟩
  obtain ⟨acyclic, sound⟩ := held
  exact ⟨acyclic, fun c after ran =>
    ⟨.of_acyclic (effect_of_exec ran), fun apart => acyclic.step sound apart (effect_of_exec ran)⟩⟩

def shop : DatabaseName := ⟨field "shop", by decide⟩

def clerk : Role := ⟨field "clerk", shop⟩

def nothingStored : AuthStore := ⟨.empty, .empty⟩

def createClerk : Command := .createRole clerk [] [] none

def clerkTakesClerk : Command := .updateRole clerk none (some [.string (field "clerk")]) none

def porter : Role := ⟨field "porter", shop⟩

def manager : Role := ⟨field "manager", shop⟩

/-- A manager is a clerk, a porter is nothing else, and clerks become porters. -/
def staffed : List Command :=
  [createClerk, .createRole porter [] [] none, .createRole manager [] [.string (field "clerk")] none]

def clerkTakesPorter : Command := .updateRole clerk none (some [.string (field "porter")]) none

theorem roles_acyclic_until_replaced_clerk : ∃ s t, Run (Guarded ReplacesApart Succeeds) nothingStored staffed s ∧
    Succeeds s clerkTakesPorter t ∧ t.Stored manager clerk ∧ t.Stored clerk porter ∧ t.Acyclic := by
  let after : List Command → AuthStore := fun commands => commands.foldl (fun s c => (s.exec c).2) nothingStored
  have one : Run (Guarded ReplacesApart Succeeds) nothingStored [createClerk] (after [createClerk]) :=
    .snoc .nil ⟨trivial, rfl⟩
  have two : Run (Guarded ReplacesApart Succeeds) nothingStored (staffed.take 2) (after (staffed.take 2)) :=
    one.snoc ⟨trivial, rfl⟩
  have run : Run (Guarded ReplacesApart Succeeds) nothingStored staffed (after staffed) := two.snoc ⟨trivial, rfl⟩
  have taken : Succeeds (after staffed) clerkTakesPorter ((after staffed).exec clerkTakesPorter).2 := rfl
  refine ⟨_, _, run, taken, ⟨⟨manager, [], [clerk], none⟩, rfl, .head _⟩,
    ⟨⟨clerk, [], [porter], none⟩, rfl, .head _⟩, ?_⟩
  refine ((roles_acyclic_until_replaced run).2 _ _ taken).mpr ?_
  intro refs normalized q listed path
  have refs_ : refs = [porter] := (Except.ok.inj normalized).symm
  rw [refs_, mem_singleton] at listed
  subst listed
  -- nothing leads away from a porter
  rcases path.cases_head with same | ⟨_, ⟨d, found, inherits⟩, -⟩
  · exact absurd same (by decide)
  · have none_ : d.roles = [] := by
      cases found
      rfl
    rw [none_] at inherits
    cases inherits

theorem updateRole_closes_cycle : ∃ created taken, Succeeds nothingStored createClerk created ∧
    Succeeds created clerkTakesClerk taken ∧ ¬taken.Acyclic := by
  refine ⟨(nothingStored.exec createClerk).2,
    ((nothingStored.exec createClerk).2.exec clerkTakesClerk).2, rfl, rfl, ?_⟩
  intro acyclic
  exact acyclic clerk (.single ⟨⟨clerk, [], [clerk], none⟩, rfl, .head _⟩)

end DumboDB.Handler
