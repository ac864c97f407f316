import DumboDB.Handler.RoleGraph

/-!
Which user and role commands a caller may run, and what the administrator of one database can reach
with them. A command is checked against the databases of the roles and privileges that it names,
while a role that it names may lead to roles of other databases.
-/

namespace DumboDB.Handler

open Foundation ByteOrder DumboDB.Types Authz Search List
open Transition (Run Guarded)

def AuthStore.loadUserRoles (s : AuthStore) (u : UserName) : List Role :=
  match s.users.find u.id with
  | some d => rolesFromArray d.roles
  | none => []

def AuthStore.resolved (s : AuthStore) (u : UserName) : PrivilegeSet :=
  resolve s.depth (s.loadUserRoles u) s.customRoleResolver

def AuthStore.effectivePrivileges (s : AuthStore) (caller : UserName) : PrivilegeSet :=
  if caller.role = [] then [] else s.resolved caller

def actionOnCommandDB (action : Action) (privs : PrivilegeSet) (db : DatabaseName) : Bool :=
  privs.authorized action (databaseResource db.name)

def actionOnEachRoleDB (action : Action) (privs : PrivilegeSet) (roles : List Value) (db : DatabaseName) : Bool :=
  match normalizeRoleRefs roles db with
  | .ok refs => refs.all fun r => privs.authorized action (databaseResource r.db.name)
  | .error _ => false

def privilegeAuthDB (resource : Resource) : Bytes :=
  if !resource.cluster && !resource.anyResource && resource.db ≠ [] then resource.db else admin

def privilegeResource (privilege : Document) : Resource :=
  match privilege.get (field "resource") with
  | some (.document resource) => parseResourceDoc resource
  | _ => ⟨[], [], false, false⟩

def actionOnEachPrivilegeDB (action : Action) (privs : PrivilegeSet) (privileges : List Value) : Bool :=
  privileges.all fun
    | .document privilege => privs.authorized action
          (databaseResource (privilegeAuthDB (privilegeResource privilege)))
    | _ => false

def authenticationRestrictionsAllowed (privs : PrivilegeSet) (given : Bool) (db : DatabaseName) : Bool :=
  !given || privs.authorized (actionNamed "setAuthenticationRestriction") (databaseResource db.name)

def authorizeUpdateUser (privs : PrivilegeSet) (caller user : UserName) (change : UserChange) : Bool :=
  let isSelf : Bool := user.role ≠ [] ∧ user = caller
  let allowed (action : String) : Bool := privs.authorized (actionNamed action) (databaseResource user.db.name)
  (!(change.credentials.isSome || change.mechanisms.isSome) || allowed "changePassword" ||
      (isSelf && allowed "changeOwnPassword")) &&
    (!change.customData.isSome || allowed "changeCustomData" || (isSelf && allowed "changeOwnCustomData")) &&
    (!change.commitIdentity.isSome || allowed "changeCustomData") &&
    (!change.authenticationRestrictions || allowed "setAuthenticationRestriction") &&
    match change.roles with
    | none => true
    | some roles => privs.authorizedOnAnyNormalResource (actionNamed "revokeRole") &&
        actionOnEachRoleDB (actionNamed "grantRole") privs roles user.db

/-- `authorize` for the user and role commands. -/
def authorize (privs : PrivilegeSet) (caller : UserName) : Command → Bool
  | .createUser user roles _ _ _ _ restrictions =>
    actionOnCommandDB (actionNamed "createUser") privs user.db &&
      actionOnEachRoleDB (actionNamed "grantRole") privs roles user.db &&
      authenticationRestrictionsAllowed privs restrictions.isSome user.db
  | .updateUser user change => authorizeUpdateUser privs caller user change
  | .grantRolesToUser user roles => actionOnEachRoleDB (actionNamed "grantRole") privs roles user.db
  | .revokeRolesFromUser user roles => actionOnEachRoleDB (actionNamed "revokeRole") privs roles user.db
  | .createRole role privileges roles restrictions =>
    actionOnCommandDB (actionNamed "createRole") privs role.db &&
      actionOnEachRoleDB (actionNamed "grantRole") privs roles role.db &&
      actionOnEachPrivilegeDB (actionNamed "grantRole") privs privileges &&
      authenticationRestrictionsAllowed privs restrictions.isSome role.db
  | .updateRole role privileges roles restrictions =>
    privs.authorizedOnAnyNormalResource (actionNamed "revokeRole") &&
      actionOnEachRoleDB (actionNamed "grantRole") privs (roles.getD []) role.db &&
      actionOnEachPrivilegeDB (actionNamed "grantRole") privs (privileges.getD []) &&
      authenticationRestrictionsAllowed privs restrictions.isSome role.db
  | .grantRolesToRole role roles => actionOnEachRoleDB (actionNamed "grantRole") privs roles role.db
  | .revokeRolesFromRole role roles => actionOnEachRoleDB (actionNamed "revokeRole") privs roles role.db
  | .grantPrivilegesToRole _ privileges => actionOnEachPrivilegeDB (actionNamed "grantRole") privs privileges
  | .revokePrivilegesFromRole _ privileges => actionOnEachPrivilegeDB (actionNamed "revokeRole") privs privileges
  | .dropRole role => actionOnCommandDB (actionNamed "dropRole") privs role.db

/-- A resource of one database; a resource that names no database is one of every database. -/
def OnDatabase (D : Bytes) (r : Resource) : Prop := r.anyResource = false ∧ r.cluster = false ∧ r.db = D ∧ r.db ≠ []

def Outside (D : Bytes) (target : Resource) : Prop := target.cluster = true ∨ target.db ≠ D

/-- A caller all of whose privileges are on resources of one database. -/
def Insider (D : Bytes) (privs : PrivilegeSet) : Prop := ∀ p ∈ privs, OnDatabase D p.resource

section Insider
variable {D : Bytes} {privs : PrivilegeSet} {action : Action} {target : Resource}

theorem OnDatabase.covers_eq_false {r : Resource} (here : OnDatabase D r) (outside : Outside D target) :
    r.covers target = false := by
  obtain ⟨plain, local_, rfl, named⟩ := here
  unfold Resource.covers
  rcases outside with cluster | other
  · simp [plain, local_, cluster]
  · by_cases cluster : target.cluster
    · simp [plain, local_, cluster]
    · simp [plain, local_, cluster, named, Ne.symm other]

theorem OnDatabase.allows_eq_false {p : Privilege} (here : OnDatabase D p.resource) (outside : Outside D target) :
    p.allows action target = false := by
  unfold Privilege.allows
  rw [here.covers_eq_false outside]
  rfl

section

variable (inside : Insider D privs)
include inside

theorem Insider.authorized_eq_false (outside : Outside D target) : privs.authorized action target = false := by
  refine any_eq_false.mpr fun p member => ?_
  rw [(inside p member).allows_eq_false outside]
  exact Bool.false_ne_true

theorem Insider.db_eq {db : Bytes}
    (passed : privs.authorized action (databaseResource db) = true) : db = D ∧ D ≠ [] := by
  constructor
  · by_contra other
    have outside : Outside D (databaseResource db) := .inr other
    exact absurd passed (by simp [inside.authorized_eq_false outside])
  · obtain ⟨p, member, -⟩ := any_eq_true.mp passed
    obtain ⟨-, -, rfl, named⟩ := inside p member
    exact named

theorem Insider.anyNormal_eq_false : privs.authorizedOnAnyNormalResource action = false := by
  refine Bool.eq_false_iff.mpr fun passed => ?_
  obtain ⟨same, named⟩ := inside.db_eq passed
  exact named same.symm

theorem Insider.onDatabase (notAdmin : D ≠ admin) {privileges : List Value}
    {roleDB : DatabaseName} {stored : List StoredPrivilege}
    (passed : actionOnEachPrivilegeDB action privs privileges = true)
    (normalized : normalizePrivileges privileges roleDB = .ok stored) :
    ∀ p ∈ stored, OnDatabase D (parseResourceDoc p.resource) := by
  intro p listed
  obtain ⟨v, given, normal⟩ := Fallible.mem_of_mapM_ok normalized listed
  have checked := all_eq_true.mp passed v given
  unfold normalizePrivilege at normal
  split at normal
  next privilege =>
    split at normal
    next resource found =>
      obtain ⟨_, -, rest⟩ := Fallible.bind_eq_ok.mp normal
      have same : p.resource = resource := by
        split at rest
        · obtain ⟨_, -, last⟩ := Fallible.bind_eq_ok.mp rest
          cases Fallible.pure_eq_ok.mp last
          rfl
        · cases rest
        · cases rest
      have parsed : privilegeResource privilege = parseResourceDoc p.resource := by
        unfold privilegeResource
        rw [found, same]
      dsimp only at checked
      rw [parsed] at checked
      obtain ⟨authDB, -⟩ := inside.db_eq checked
      unfold privilegeAuthDB at authDB
      split at authDB
      next plain =>
        simp only [Bool.and_eq_true, Bool.not_eq_true', decide_eq_true_eq] at plain
        exact ⟨plain.1.2, plain.1.1, authDB, plain.2⟩
      next => exact absurd authDB.symm notAdmin
    · cases normal
    · cases normal
  next => cases normal

end

end Insider

/-- A role reaches a role that allows something itself. -/
def AuthStore.Reaches (s : AuthStore) (action : Action) (target : Resource) (r : Role) : Prop :=
  ∃ q, Relation.ReflTransGen s.Inherits r q ∧ (ownPrivileges s.customRoleResolver q).authorized action target = true

variable {s after : AuthStore}

theorem authorized_resolve {roles : List Role} {action : Action} {target : Resource} :
    (resolve s.depth roles s.customRoleResolver).authorized action target = true ↔ ∃ r ∈ roles,
      s.Reaches action target r :=
  authorized_resolve_iff mem_roleNames_of_inherits (card_roleNames_lt_depth s)

/-- What a step may add: references to roles of a list, and privileges that allow nothing outside. -/
structure Confined (D : Bytes) (s after : AuthStore) (granted : List Role) : Prop where
  users : ∀ u, ∀ r ∈ after.loadUserRoles u, r ∈ s.loadUserRoles u ∨ r ∈ granted
  edges : ∀ r q, after.Inherits r q → s.Inherits r q ∨ q ∈ granted
  own : ∀ r action target, Outside D target →
    (ownPrivileges after.customRoleResolver r).authorized action target = true →
    (ownPrivileges s.customRoleResolver r).authorized action target = true

/-- A role that allows nothing outside a database, whichever roles it leads to. -/
def StaysInside (D : Bytes) (s : AuthStore) (r : Role) : Prop :=
  ∀ action target, Outside D target → (resolve s.depth [r] s.customRoleResolver).authorized action target = false

section Confined
variable {D : Bytes} {granted : List Role} {action : Action} {target : Resource}

theorem StaysInside.not_reaches {r : Role} (stays : StaysInside D s r) (outside : Outside D target) :
    ¬s.Reaches action target r := by
  intro reaches
  have allowed : (resolve s.depth [r] s.customRoleResolver).authorized action target = true :=
    authorized_resolve.mpr ⟨r, .head _, reaches⟩
  exact absurd allowed (by simp [stays action target outside])

section

variable (confined : Confined D s after granted) (stays : ∀ r ∈ granted, StaysInside D s r)
  (outside : Outside D target)
include confined stays outside

/-- What a role reaches after the step it reached before: the first new reference of a path would lead to a
role that reaches nothing outside. -/
theorem Confined.reaches {r : Role} (reached : after.Reaches action target r) : s.Reaches action target r := by
  obtain ⟨q, path, allowed⟩ := reached
  induction path using Relation.ReflTransGen.head_induction_on with
  | refl => exact ⟨q, .refl, confined.own q action target outside allowed⟩
  | head edge _ ih =>
    rcases confined.edges _ _ edge with old | new
    · obtain ⟨end_, path, allowed⟩ := ih
      exact ⟨end_, .head old path, allowed⟩
    · exact absurd ih ((stays _ new).not_reaches outside)

theorem Confined.resolved {u : UserName} (allowed : (after.resolved u).authorized action target = true) :
    (s.resolved u).authorized action target = true := by
  obtain ⟨r, held, reached⟩ := authorized_resolve.mp allowed
  have reached := confined.reaches stays outside reached
  rcases confined.users u r held with old | new
  · exact authorized_resolve.mpr ⟨r, old, reached⟩
  · exact absurd reached ((stays r new).not_reaches outside)

end

/-- A stored role after a step, beside what was stored under its name. -/
structure RoleGrows (D : Bytes) (granted : List Role) (old : Option RoleDoc) (new : RoleDoc) : Prop where
  roles : ∀ q ∈ new.roles, (∃ d, old = some d ∧ q ∈ d.roles) ∨ q ∈ granted
  allows : ∀ action target, Outside D target →
    (parseStoredPrivileges new.privileges).authorized action target = true →
    ∃ d, old = some d ∧ (parseStoredPrivileges d.privileges).authorized action target = true

theorem RoleGrows.refl (d : RoleDoc) : RoleGrows D granted (some d) d :=
  ⟨fun _ listed => .inl ⟨d, rfl, listed⟩, fun _ _ _ allowed => ⟨d, rfl, allowed⟩⟩

theorem Confined.of_docs
    (roles : ∀ (r : Role) d, after.roles.find r.id = some d → RoleGrows D granted (s.roles.find r.id) d)
    (users : ∀ (u : UserName) d, after.users.find u.id = some d →
      ∀ q ∈ d.roles, (∃ old, s.users.find u.id = some old ∧ q ∈ old.roles) ∨
        q ∈ granted) : Confined D s after granted := by
  constructor
  · intro u r held
    unfold AuthStore.loadUserRoles at held ⊢
    split at held
    next d found =>
      obtain ⟨listed, named⟩ := mem_filter.mp held
      rcases users u d found r listed with ⟨old, stored, kept⟩ | new
      · rw [stored]
        exact .inl (mem_filter.mpr ⟨kept, named⟩)
      · exact .inr new
    next => cases held
  · intro r q edge
    unfold AuthStore.Inherits inherits at edge ⊢
    cases builtin : builtinRole r with
    | some _ => exact absurd edge (by simp [builtin])
    | none =>
      cases found : after.roles.find r.id with
      | none => exact absurd edge (by simp [builtin, AuthStore.customRoleResolver, found])
      | some d =>
        have edge : q ∈ rolesFromArray d.roles := by simpa [builtin, AuthStore.customRoleResolver, found] using edge
        obtain ⟨listed, named⟩ := mem_filter.mp edge
        rcases (roles r d found).roles q listed with ⟨old, stored, kept⟩ | new
        · have kept : q ∈ rolesFromArray old.roles := mem_filter.mpr ⟨kept, named⟩
          exact .inl (by simpa [AuthStore.customRoleResolver, stored] using kept)
        · exact .inr new
  · intro r action target outside allowed
    unfold ownPrivileges at allowed ⊢
    cases builtin : builtinRole r with
    | some _ => simpa [builtin] using allowed
    | none =>
      cases found : after.roles.find r.id with
      | none => exact absurd allowed (by simp [builtin, AuthStore.customRoleResolver, found, PrivilegeSet.authorized])
      | some d =>
        have allowed : (parseStoredPrivileges d.privileges).authorized action target = true := by
          simpa [builtin, AuthStore.customRoleResolver, found] using allowed
        obtain ⟨old, stored, before⟩ := (roles r d found).allows action target outside allowed
        simpa [AuthStore.customRoleResolver, stored] using before

end Confined

section Privileges
variable {D : Bytes} {action : Action} {target : Resource} {existing adds : List StoredPrivilege}

def allowsStored (p : StoredPrivilege) (action : Action) (target : Resource) : Bool :=
  Privilege.allows ⟨parseResourceDoc p.resource, p.actions⟩ action target

theorem authorized_parse_iff :
    (parseStoredPrivileges existing).authorized action target = true ↔ ∃ p ∈ existing,
      allowsStored p action target = true := by
  simp [parseStoredPrivileges, PrivilegeSet.authorized, allowsStored]

theorem mem_mergePrivilege {add p : StoredPrivilege} (member : p ∈ mergePrivilege add existing) :
    p ∈ existing ∨ p = add ∨
      ∃ old ∈ existing, resourceKey old.resource = resourceKey add.resource ∧ p.resource = old.resource := by
  induction existing with
  | nil => exact .inr (.inl (mem_singleton.mp member))
  | cons e existing ih =>
    unfold mergePrivilege at member
    split at member
    next same =>
      rcases mem_cons.mp member with rfl | later
      · exact .inr (.inr ⟨e, .head _, same, rfl⟩)
      · exact .inl (.tail _ later)
    next =>
      rcases mem_cons.mp member with rfl | later
      · exact .inl (.head _)
      · rcases ih later with old | new | ⟨old, listed, same⟩
        · exact .inl (.tail _ old)
        · exact .inr (.inl new)
        · exact .inr (.inr ⟨old, .tail _ listed, same⟩)

/-- Privileges on one database, merged into privileges that share a key with them only on that database,
allow nothing new outside. -/
theorem authorized_unionPrivileges (here : ∀ add ∈ adds, OnDatabase D (parseResourceDoc add.resource))
    (keys : ∀ p ∈ existing, ∀ add ∈ adds, resourceKey p.resource = resourceKey add.resource →
      OnDatabase D (parseResourceDoc p.resource)) (outside : Outside D target)
    (allowed : (parseStoredPrivileges (unionPrivileges existing adds)).authorized action target = true) :
    (parseStoredPrivileges existing).authorized action target = true := by
  induction adds generalizing existing with
  | nil => exact allowed
  | cons add adds ih =>
    obtain ⟨first, rest⟩ := forall_mem_cons.mp here
    -- what the merge changes is on the database
    have merged (p : StoredPrivilege) (member : p ∈ mergePrivilege add existing) :
        p ∈ existing ∨ OnDatabase D (parseResourceDoc p.resource) := by
      rcases mem_mergePrivilege member with old | rfl | ⟨old, listed, same, resource⟩
      · exact .inl old
      · exact .inr first
      · exact .inr (resource ▸ keys old listed add (.head _) same)
    have before := ih rest (fun p member other listed same => ?_) allowed
    · obtain ⟨p, member, allowed⟩ := authorized_parse_iff.mp before
      rcases merged p member with old | inside
      · exact authorized_parse_iff.mpr ⟨p, old, allowed⟩
      · have refused : allowsStored p action target = false := OnDatabase.allows_eq_false inside outside
        exact absurd allowed (by simp [refused])
    · rcases merged p member with old | inside
      · exact keys p old other (.tail _ listed) same
      · exact inside

theorem authorized_revokePrivileges {remove : List (Bytes × List Action)}
    (allowed : (parseStoredPrivileges (revokePrivileges existing remove)).authorized action target = true) :
    (parseStoredPrivileges existing).authorized action target = true := by
  obtain ⟨p, member, allowed⟩ := authorized_parse_iff.mp allowed
  obtain ⟨old, listed, kept⟩ := mem_filterMap.mp member
  refine authorized_parse_iff.mpr ⟨old, listed, ?_⟩
  split at kept
  · cases kept
    exact allowed
  · dsimp only at kept
    split at kept
    · cases kept
    · cases kept
      simp only [allowsStored, Privilege.allows, Bool.and_eq_true, any_eq_true] at allowed ⊢
      obtain ⟨covered, a, remaining, granted⟩ := allowed
      exact ⟨covered, a, (mem_filter.mp remaining).1, granted⟩

theorem onDatabase_of_key {p add : StoredPrivilege} (here : OnDatabase D (parseResourceDoc add.resource))
    (same : resourceKey p.resource = resourceKey add.resource) (db : (parseResourceDoc p.resource).db = D) :
    OnDatabase D (parseResourceDoc p.resource) := by
  obtain ⟨plain, local_, rfl, named⟩ := here
  have key : resourceKey add.resource = 100 :: (resourceKey add.resource).tail := by
    simp [resourceKey, plain, local_, field, ascii]
  rw [key] at same
  have notAny : (parseResourceDoc p.resource).anyResource = false := by
    by_contra any
    simp only [Bool.not_eq_false] at any
    simp [resourceKey, any, field, ascii] at same
  refine ⟨notAny, ?_, db, db ▸ named⟩
  by_contra cluster
  simp only [Bool.not_eq_false] at cluster
  simp [resourceKey, notAny, cluster, field, ascii] at same

end Privileges

def refsOf (roles : List Value) (db : DatabaseName) : List Role :=
  match normalizeRoleRefs roles db with
  | .ok refs => refs
  | .error _ => []

theorem mem_refsOf {roles : List Value} {db : DatabaseName} {refs : List Role} {q : Role}
    (normalized : normalizeRoleRefs roles db = .ok refs) (listed : q ∈ refs) : q ∈ refsOf roles db := by
  unfold refsOf
  rw [normalized]
  exact listed

/-- The roles that a command gives to a user or to a role. -/
def Command.granted : Command → List Role
  | .createUser user roles .. => refsOf roles user.db
  | .updateUser user change => refsOf (change.roles.getD []) user.db
  | .grantRolesToUser user roles => refsOf roles user.db
  | .createRole role _ roles _ => refsOf roles role.db
  | .updateRole role _ roles _ => refsOf (roles.getD []) role.db
  | .grantRolesToRole role roles => refsOf roles role.db
  | _ => []

/-- The stored privileges into which granted ones are merged are on the database. -/
def MergesInside (D : Bytes) (s : AuthStore) : Command → Prop
  | .grantPrivilegesToRole role privileges => ∀ doc normalized, s.roles.find role.id = some doc →
      normalizePrivileges privileges role.db = .ok normalized → ∀ p ∈ doc.privileges, ∀ add ∈ normalized,
      resourceKey p.resource = resourceKey add.resource → (parseResourceDoc p.resource).db = D
  | _ => True

/-- A command whose roles lead to nothing outside the database, and whose privileges are merged into none outside. -/
def GrantsInside (D : Bytes) (s : AuthStore) (e : UserName × Command) : Prop :=
  (∀ r ∈ e.2.granted, StaysInside D s r) ∧ MergesInside D s e.2

/-- A command that a caller with privileges on one database only is allowed, and that succeeds. -/
def AdminStep (D : Bytes) (s : AuthStore) (e : UserName × Command) (after : AuthStore) : Prop :=
  Insider D (s.effectivePrivileges e.1) ∧ authorize (s.effectivePrivileges e.1) e.1 e.2 = true ∧ Succeeds s e.2 after

section Step
variable {D : Bytes} {granted : List Role}

theorem Confined.user_replaced {user : UserName} {doc changed : UserDoc} (found : s.users.find user.id = some doc)
    (kept : changed.name = doc.name) (roles : ∀ q ∈ changed.roles, q ∈ doc.roles ∨ q ∈ granted) :
    Confined D s { s with users := s.users.update [changed] } granted := by
  refine .of_docs (fun r d stored => stored.symm ▸ .refl d) fun u d stored q listed => ?_
  rw [Records.find_update_single found (congrArg Role.id kept)] at stored
  split at stored
  next same =>
    cases stored
    rcases roles q listed with old | new
    · exact .inl ⟨doc, same ▸ found, old⟩
    · exact .inr new
  next => exact .inl ⟨d, stored, listed⟩

theorem Confined.role_replaced {role : Role} {doc changed : RoleDoc} (found : s.roles.find role.id = some doc)
    (kept : changed.name = doc.name) (grows : RoleGrows D granted (some doc) changed) :
    Confined D s { s with roles := s.roles.update [changed] } granted := by
  refine .of_docs (fun r d stored => ?_) fun u d stored q listed => .inl ⟨d, stored, listed⟩
  rw [find_updateRole found kept] at stored
  split at stored
  next same =>
    cases stored
    rw [same, found]
    exact grows
  next => exact stored.symm ▸ .refl d

theorem confined_dropped (role : Role) : Confined D s (s.dropped role) granted := by
  refine .of_docs (fun r d stored => ?_) fun u d stored q listed => ?_
  · rw [find_droppedRole] at stored
    split at stored
    · cases stored
    · obtain ⟨old, found, rfl⟩ := Option.map_eq_some_iff.mp stored
      rw [found]
      exact ⟨fun q listed => .inl ⟨old, rfl, (mem_filter.mp listed).1⟩, fun _ _ _ allowed => ⟨old, rfl, allowed⟩⟩
  · have stored : (s.users.update (changedUserDocs role s.users.docs)).find u.id = some d := stored
    rw [find_changedUserDocs] at stored
    obtain ⟨old, found, rfl⟩ := Option.map_eq_some_iff.mp stored
    exact .inl ⟨old, found, (mem_filter.mp listed).1⟩

theorem confined_of_effect (notAdmin : D ≠ admin) {privs : PrivilegeSet} {caller : UserName} {c : Command}
    (inside : Insider D privs) (accepted : authorize privs caller c = true) (merges : MergesInside D s c)
    (effect : Effect s c after) : Confined D s after c.granted := by
  cases effect with
  | @createUser user roles _ _ _ _ _ doc users given named inserted =>
    refine .of_docs (fun r d stored => stored.symm ▸ .refl d) fun u d stored q listed => ?_
    rw [Records.find_insert inserted] at stored
    split at stored
    · cases stored
      exact .inr (mem_refsOf given.normalized listed)
    · exact .inl ⟨d, stored, listed⟩
  | @updateUser user change doc changed found named kept replaced =>
    refine .user_replaced found (named.trans (name_of_findUser found).symm) fun q listed => ?_
    cases roles : change.roles with
    | none => exact .inl (kept roles ▸ listed)
    | some given =>
      have new : q ∈ refsOf (change.roles.getD []) user.db := by
        rw [roles]
        exact mem_refsOf (replaced given roles).normalized listed
      exact .inr new
  | @grantRolesToUser user _ refs doc given found =>
    refine .user_replaced found rfl fun q listed => ?_
    rcases mem_union.mp listed with old | new
    · exact .inl old
    · exact .inr (mem_refsOf given.normalized new)
  | @revokeRolesFromUser user _ _ doc _ found =>
    exact .user_replaced found rfl fun q listed => .inl (mem_filter.mp listed).1
  | @createRole role privileges roles _ doc stored _ _ privileged given named inserted =>
    simp only [authorize, Bool.and_eq_true] at accepted
    have here := inside.onDatabase notAdmin accepted.1.2 privileged
    refine .of_docs (fun r d found => ?_) fun u d found q listed => .inl ⟨d, found, listed⟩
    rw [find_insertRole inserted] at found
    split at found
    · cases found
      refine ⟨fun q listed => .inr (mem_refsOf given.normalized listed), fun action target outside allowed => ?_⟩
      obtain ⟨p, listed, allowed⟩ := authorized_parse_iff.mp allowed
      have refused : allowsStored p action target = false := OnDatabase.allows_eq_false (here p listed) outside
      exact absurd allowed (by simp [refused])
    · exact found.symm ▸ .refl d
  | updateRole =>
    -- the check on any normal resource is one that no insider passes
    simp only [authorize, inside.anyNormal_eq_false, Bool.false_and, Bool.false_eq_true] at accepted
  | @grantRolesToRole role _ refs doc given _ found =>
    refine .role_replaced found rfl ⟨fun q listed => ?_, fun _ _ _ allowed => ⟨doc, rfl, allowed⟩⟩
    rcases mem_union.mp listed with old | new
    · exact .inl ⟨doc, rfl, old⟩
    · exact .inr (mem_refsOf given.normalized new)
  | @revokeRolesFromRole role _ _ doc _ found =>
    exact .role_replaced found rfl
      ⟨fun q listed => .inl ⟨doc, rfl, (mem_filter.mp listed).1⟩, fun _ _ _ allowed => ⟨doc, rfl, allowed⟩⟩
  | @grantPrivilegesToRole role _ normalized doc privileged found =>
    have here := inside.onDatabase notAdmin accepted privileged
    refine .role_replaced found rfl
      ⟨fun q listed => .inl ⟨doc, rfl, listed⟩, fun action target outside allowed => ⟨doc, rfl, ?_⟩⟩
    refine authorized_unionPrivileges here (fun p listed add new same => ?_) outside allowed
    exact onDatabase_of_key (here add new) same (merges doc normalized found privileged p listed add new same)
  | @revokePrivilegesFromRole role _ _ doc _ found =>
    exact .role_replaced found rfl
      ⟨fun q listed => .inl ⟨doc, rfl, listed⟩, fun _ _ _ allowed => ⟨doc, rfl, authorized_revokePrivileges allowed⟩⟩
  | dropRole => exact confined_dropped _

end Step

/-- Commands of callers with privileges on one database only give no user a right outside it, as long as the
roles that they grant lead to nothing outside and the privileges that they grant share no key with a stored
one outside. -/
theorem administrators_stay_inside {D : Bytes} (notAdmin : D ≠ admin) {start : AuthStore}
    {events : List (UserName × Command)}
    (run : Run (Guarded (GrantsInside D) (AdminStep D)) start events s) (u : UserName) (action : Action)
    (target : Resource)
    (outside : Outside D target) (allowed : (s.resolved u).authorized action target = true) :
    (start.resolved u).authorized action target = true := by
  have held := run.invariant (fun s => ∀ u action target, Outside D target →
    (s.resolved u).authorized action target = true → (start.resolved u).authorized action target = true) ?_ ?_
  · exact held u action target outside allowed
  · exact fun _ _ _ _ allowed => allowed
  · intro s e t held ⟨⟨stays, merges⟩, inside, accepted, ran⟩ u action target outside allowed
    have confined := confined_of_effect notAdmin inside accepted merges (effect_of_exec ran)
    exact held u action target outside (confined.resolved stays outside allowed)

def hr : DatabaseName := ⟨field "hr", by decide⟩

/-- A role of the shop that another administrator let inherit from another database. -/
def auditor : Role := ⟨field "auditor", shop⟩

def alice : UserName := ⟨field "alice", shop⟩

def bob : UserName := ⟨field "bob", shop⟩

def plainUser (name : UserName) (roles : List Role) : UserDoc := ⟨name, roles, none, none, none, none⟩

def findInShop : StoredPrivilege :=
  ⟨[(field "db", .string shop.name), (field "collection", .string [])], [actionNamed "find"]⟩

def shopAndHr : AuthStore where
  users := ⟨[plainUser alice [⟨field "userAdmin", shop⟩], plainUser bob []], by decide⟩
  roles := ⟨[⟨auditor, [], [⟨field "read", hr⟩], none⟩, ⟨clerk, [findInShop], [], none⟩], by decide⟩

def grantsClerk : UserName × Command := (alice, .grantRolesToUser bob [.string (field "clerk")])

def grantsAuditor : UserName × Command := (alice, .grantRolesToUser bob [.string (field "auditor")])

theorem alice_insider : Insider shop.name (shopAndHr.effectivePrivileges alice) := by
  intro p member
  cases mem_singleton.mp member
  exact ⟨rfl, rfl, rfl, by decide⟩

/-- The administrator of the shop lets a user of the shop read the shop, and nothing else. -/
theorem administrators_stay_inside_clerk :
    AdminStep shop.name shopAndHr grantsClerk (shopAndHr.exec grantsClerk.2).2 ∧
      ((shopAndHr.exec grantsClerk.2).2.resolved bob).authorized (actionNamed "find")
        (collectionResource shop.name (field "orders")) = true ∧
      ∀ u action target, Outside shop.name target →
        ((shopAndHr.exec grantsClerk.2).2.resolved u).authorized action target = true →
        (shopAndHr.resolved u).authorized action target = true := by
  have step : AdminStep shop.name shopAndHr grantsClerk (shopAndHr.exec grantsClerk.2).2 :=
    ⟨alice_insider, by decide +kernel, rfl⟩
  have meets : GrantsInside shop.name shopAndHr grantsClerk := by
    refine ⟨fun r named action target outside => ?_, trivial⟩
    cases mem_singleton.mp named
    refine Insider.authorized_eq_false (fun p member => ?_) outside
    cases mem_singleton.mp member
    exact ⟨rfl, rfl, rfl, by decide⟩
  exact ⟨step, by decide +kernel, administrators_stay_inside (by decide) (.snoc .nil ⟨meets, step⟩)⟩

/-- The administrator of the shop lets a user of the shop read another database. -/
theorem granted_role_reaches_outside : AdminStep shop.name shopAndHr grantsAuditor
    (shopAndHr.exec grantsAuditor.2).2 ∧
    Outside shop.name (collectionResource hr.name (field "salaries")) ∧
    (shopAndHr.resolved bob).authorized (actionNamed "find") (collectionResource hr.name (field "salaries")) = false ∧
    ((shopAndHr.exec grantsAuditor.2).2.resolved bob).authorized (actionNamed "find")
      (collectionResource hr.name (field "salaries")) = true :=
  ⟨⟨alice_insider, by decide +kernel, rfl⟩, .inr (by decide), by decide +kernel, by decide +kernel⟩

end DumboDB.Handler
