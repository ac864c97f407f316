import DumboDB.Handler.UserStore

/-!
What each command leaves when it is run alone and succeeds, with everything that it has checked.
-/

namespace DumboDB.Handler

open Foundation ByteOrder DumboDB.Types Authz Search Program List

/-- The stored roles as `Resolve` and `roleRefClosure` read them. -/
def AuthStore.customRoleResolver (s : AuthStore) : RoleResolver := fun r =>
  (s.roles.find r.id).map fun d => (parseStoredPrivileges d.privileges, rolesFromArray d.roles)

def AuthStore.Exists (s : AuthStore) (r : Role) : Prop := isBuiltinRoleOnDB r = true ∨
    (s.roles.find r.id).isSome = true

variable {r : Role} {d : RoleDoc}

theorem name_of_findRole {s : AuthStore} (found : s.roles.find r.id = some d) : d.name = r := by
  have same : d.id = r.id := Records.key_of_find found
  exact Role.id_injective same

theorem name_of_findUser {s : AuthStore} {u : UserName} {d : UserDoc}
    (found : s.users.find u.id = some d) : d.name = u := by
  have same : d.id = u.id := Records.key_of_find found
  exact Role.id_injective same

variable {s after : AuthStore}

theorem run_loadRoleDoc (r : Role) : (loadRoleDoc r).run AuthStore.handle s = (.ok (s.roles.find r.id), s) := rfl

theorem run_loadUserDoc (u : UserName) : (loadUserDoc u).run AuthStore.handle s = (.ok (s.users.find u.id), s) := rfl

theorem run_roleExists_ok {found : Bool} (ran : (roleExists r).run AuthStore.handle s = (.ok found, after)) :
    s = after ∧ (found = true → s.Exists r) := by
  unfold roleExists at ran
  split at ran
  next builtin =>
    obtain ⟨-, rfl⟩ := run_pure_ok.mp ran
    exact ⟨rfl, fun _ => .inl builtin⟩
  next =>
    obtain ⟨_, _, loaded, rest⟩ := run_bind_ok.mp ran
    cases loaded
    obtain ⟨rfl, rfl⟩ := run_pure_ok.mp rest
    exact ⟨rfl, .inr⟩

theorem run_requireRoles_ok {refs : List Role} (ran : (requireRoles refs).run AuthStore.handle s = (.ok (), after)) :
    s = after ∧ ∀ r ∈ refs, s.Exists r := by
  induction refs with
  | nil => exact ⟨(run_pure_ok.mp ran).2, nofun⟩
  | cons r refs ih =>
    obtain ⟨found, _, asked, rest⟩ := run_bind_ok.mp ran
    obtain ⟨rfl, exists_⟩ := run_roleExists_ok asked
    cases found with
    | false => exact absurd rest run_fail_ok
    | true =>
      obtain ⟨rfl, all⟩ := ih rest
      exact ⟨rfl, forall_mem_cons.mpr ⟨exists_ rfl, all⟩⟩

variable {roles : List Value} {db : DatabaseName}

theorem run_normalizeInheritedRoles_ok {refs : List Role}
    (ran : (normalizeInheritedRoles roles db).run AuthStore.handle s = (.ok refs, after)) :
    s = after ∧ normalizeRoleRefs roles db = .ok refs ∧ ∀ r ∈ refs, s.Exists r := by
  obtain ⟨_, between, lifted, rest⟩ := run_bind_ok.mp ran
  obtain ⟨normalized, rfl⟩ := run_lift_ok.mp lifted
  obtain ⟨_, between, required, last⟩ := run_bind_ok.mp rest
  obtain ⟨rfl, all⟩ := run_requireRoles_ok required
  obtain ⟨rfl, rfl⟩ := run_pure_ok.mp last
  exact ⟨rfl, normalized, all⟩

theorem inherits_builtin (builtin : isBuiltinRoleOnDB r = true) : inherits s.customRoleResolver r = [] := by
  simp [inherits, builtinRole, builtin]

theorem inherits_custom (custom : ¬isBuiltinRoleOnDB r = true) : inherits s.customRoleResolver r =
    match s.roles.find r.id with
    | some d => rolesFromArray d.roles
    | none => [] := by
  cases found : s.roles.find r.id with
  | none
  | some d => simp [inherits, builtinRole, custom, AuthStore.customRoleResolver, found]

theorem run_walkRefs (depth : Nat) (seen : List Role) (r : Role) : (walkRefs depth seen r).run AuthStore.handle s =
    (.ok (visit (inherits s.customRoleResolver) depth seen r), s) := by
  induction depth generalizing seen r with
  | zero => rfl
  | succ depth ih =>
    unfold walkRefs visit
    split
    · rfl
    split
    next builtin =>
      rw [inherits_builtin builtin]
      rfl
    next custom =>
      rw [inherits_custom custom, run_bind, run_loadRoleDoc]
      cases s.roles.find r.id with
      | none => rfl
      | some d => exact run_foldlM ih _ _

/-- The inheritance that `Resolve` and `roleRefClosure` follow. -/
def AuthStore.Inherits (s : AuthStore) (r q : Role) : Prop := q ∈ inherits s.customRoleResolver r

def AuthStore.roleNames (s : AuthStore) : Finset Role := (s.roles.docs.map RoleDoc.name).toFinset

theorem mem_roleNames (found : s.roles.find r.id = some d) : r ∈ s.roleNames := by
  refine mem_toFinset.mpr (mem_map.mpr ⟨d, Records.mem_of_find found, name_of_findRole found⟩)

theorem mem_roleNames_of_inherits (r : Role) (edges : inherits s.customRoleResolver r ≠ []) : r ∈ s.roleNames := by
  cases found : s.roles.find r.id with
  | some d => exact mem_roleNames found
  | none =>
    refine absurd ?_ edges
    unfold inherits
    split
    · rfl
    · simp [AuthStore.customRoleResolver, found]

theorem card_roleNames_lt_depth (s : AuthStore) : s.roleNames.card < s.depth := by
  have bound := toFinset_card_le (s.roles.docs.map RoleDoc.name)
  rw [length_map] at bound
  exact Nat.lt_succ_of_le bound

theorem run_roleRefClosure (depth : Nat) (direct : List Role) : (roleRefClosure depth direct).run AuthStore.handle s =
    (.ok (visitAll (inherits s.customRoleResolver) depth direct), s) :=
  run_foldlM (run_walkRefs depth) direct []

theorem mem_roleRefClosure {depth : Nat} (enough : s.depth ≤ depth) {direct : List Role} :
    r ∈ visitAll (inherits s.customRoleResolver) depth direct ↔ ∃ start ∈ direct,
      Relation.ReflTransGen s.Inherits start r :=
  mem_visitAll_iff mem_roleNames_of_inherits ((card_roleNames_lt_depth s).trans_le enough)

theorem run_modifyRole_ok {target : Role} {change : RoleDoc → Prog RoleDoc}
    (ran : (modifyRole target change).run AuthStore.handle s = (.ok (), after)) :
    ∃ doc changed between, s.roles.find target.id = some doc ∧
      (change doc).run AuthStore.handle s = (.ok changed, between) ∧
      after = { between with roles := between.roles.update [changed] } := by
  obtain ⟨stored, between, loaded, rest⟩ := run_bind_ok.mp ran
  obtain ⟨found, rfl⟩ := Prod.ext_iff.mp loaded
  have found : s.roles.find target.id = stored := Except.ok.inj found
  cases stored with
  | none => exact absurd rest run_fail_ok
  | some doc =>
    obtain ⟨changed, between, ran, written⟩ := run_bind_ok.mp rest
    exact ⟨doc, changed, between, found, ran, (congrArg Prod.snd written).symm⟩

theorem run_modifyUser_ok {user : UserName} {change : UserDoc → Prog UserDoc}
    (ran : (modifyUser user change).run AuthStore.handle s = (.ok (), after)) :
    ∃ doc changed between, s.users.find user.id = some doc ∧
      (change doc).run AuthStore.handle s = (.ok changed, between) ∧
      after = { between with users := between.users.update [changed] } := by
  obtain ⟨stored, between, loaded, rest⟩ := run_bind_ok.mp ran
  obtain ⟨found, rfl⟩ := Prod.ext_iff.mp loaded
  have found : s.users.find user.id = stored := Except.ok.inj found
  cases stored with
  | none => exact absurd rest run_fail_ok
  | some doc =>
    obtain ⟨changed, between, ran, written⟩ := run_bind_ok.mp rest
    exact ⟨doc, changed, between, found, ran, (congrArg Prod.snd written).symm⟩

/-- References as a command gives them, all of roles that exist. -/
structure Granted (s : AuthStore) (roles : List Value) (db : DatabaseName) (refs : List Role) : Prop where
  normalized : normalizeRoleRefs roles db = .ok refs
  all : ∀ r ∈ refs, s.Exists r

/-- The store without a role and without the references to it. -/
def AuthStore.dropped (s : AuthStore) (role : Role) : AuthStore :=
  let left := s.roles.delete role.id
  ⟨s.users.update (changedUserDocs role s.users.docs), left.update (changedRoleDocs role left.docs)⟩

/-- What a successful command has checked and what it leaves. -/
inductive Effect (s : AuthStore) : Command → AuthStore → Prop where
  | createUser {user roles credentials mechanisms customData commitIdentity restrictions doc users}
      (granted : Granted s roles user.db doc.roles) (named : doc.name = user)
      (inserted : s.users.insert doc = some users) :
      Effect s (.createUser user roles credentials mechanisms customData commitIdentity restrictions) { s with users }
  | updateUser {user change doc changed} (found : s.users.find user.id = some doc) (named : changed.name = user)
      (kept : change.roles = none → changed.roles = doc.roles)
      (replaced : ∀ roles, change.roles = some roles → Granted s roles user.db changed.roles) :
      Effect s (.updateUser user change) { s with users := s.users.update [changed] }
  | grantRolesToUser {user roles refs doc} (granted : Granted s roles user.db refs)
      (found : s.users.find user.id = some doc) :
      Effect s (.grantRolesToUser user roles)
        { s with users := s.users.update [{ doc with roles := unionRoles doc.roles refs }] }
  | revokeRolesFromUser {user roles refs doc} (normalized : normalizeRoleRefs roles user.db = .ok refs)
      (found : s.users.find user.id = some doc) :
      Effect s (.revokeRolesFromUser user roles)
        { s with users := s.users.update [{ doc with roles := removeRoles doc.roles refs }] }
  | createRole {role privileges roles restrictions doc stored} (nonempty : role.role ≠ [])
      (custom : isBuiltinRoleOnDB role = false)
      (privileged : normalizePrivileges privileges role.db = .ok doc.privileges)
      (granted : Granted s roles role.db doc.roles) (named : doc.name = role)
      (inserted : s.roles.insert doc = some stored) :
      Effect s (.createRole role privileges roles restrictions) { s with roles := stored }
  | updateRole {role privileges roles restrictions doc changed} (found : s.roles.find role.id = some doc)
      (named : changed.name = role) (privilegesKept : privileges = none → changed.privileges = doc.privileges)
      (privileged : ∀ given, privileges = some given → normalizePrivileges given role.db = .ok changed.privileges)
      (rolesKept : roles = none → changed.roles = doc.roles)
      (granted : ∀ given, roles = some given → Granted s given role.db changed.roles) :
      Effect s (.updateRole role privileges roles restrictions) { s with roles := s.roles.update [changed] }
  | grantRolesToRole {role roles refs doc} (granted : Granted s roles role.db refs)
      (apart : ∀ r ∈ rolesFromArray refs, ¬Relation.ReflTransGen s.Inherits r role)
      (found : s.roles.find role.id = some doc) :
      Effect s (.grantRolesToRole role roles)
        { s with roles := s.roles.update [{ doc with roles := unionRoles doc.roles refs }] }
  | revokeRolesFromRole {role roles refs doc} (normalized : normalizeRoleRefs roles role.db = .ok refs)
      (found : s.roles.find role.id = some doc) :
      Effect s (.revokeRolesFromRole role roles)
        { s with roles := s.roles.update [{ doc with roles := removeRoles doc.roles refs }] }
  | grantPrivilegesToRole {role privileges normalized doc}
      (privileged : normalizePrivileges privileges role.db = .ok normalized)
      (found : s.roles.find role.id = some doc) :
      Effect s (.grantPrivilegesToRole role privileges)
        { s with roles := s.roles.update [{ doc with privileges := unionPrivileges doc.privileges normalized }] }
  | revokePrivilegesFromRole {role privileges remove doc} (read : privileges.mapM revokedEntry = .ok remove)
      (found : s.roles.find role.id = some doc) :
      Effect s (.revokePrivilegesFromRole role privileges)
        { s with roles := s.roles.update [{ doc with privileges := revokePrivileges doc.privileges remove }] }
  | dropRole {role} (custom : isBuiltinRoleOnDB role = false) (found : (s.roles.find role.id).isSome = true) :
      Effect s (.dropRole role) (s.dropped role)

variable {restrictions : Option (List Value)}

theorem effect_createUser {user : UserName} {credentials : Option Document}
    {mechanisms : Option (List Value)} {customData commitIdentity : Option Document}
    (ran : (msgCreateUser user roles credentials mechanisms customData commitIdentity restrictions).run
      AuthStore.handle s = (.ok (), after)) :
    Effect s (.createUser user roles credentials mechanisms customData commitIdentity restrictions) after := by
  unfold msgCreateUser at ran
  obtain ⟨-, ran⟩ := run_guard_ok.mp ran
  obtain ⟨-, ran⟩ := run_guard_ok.mp ran
  obtain ⟨-, ran⟩ := run_guard_ok.mp ran
  obtain ⟨_, normalized, rest⟩ := run_lift_bind_ok.mp ran
  obtain ⟨_, between, required, rest⟩ := run_bind_ok.mp rest
  obtain ⟨rfl, all⟩ := run_requireRoles_ok required
  obtain ⟨-, rest⟩ := run_guard_ok.mp rest
  obtain ⟨_, -, rest⟩ := run_lift_bind_ok.mp rest
  obtain ⟨_, between, inserted, rest⟩ := run_bind_ok.mp rest
  have inserted := run_perform_ok.mp inserted
  unfold AuthStore.handle at inserted
  dsimp only at inserted
  split at inserted
  next _ new =>
    cases inserted
    obtain ⟨-, rfl⟩ := run_pure_ok.mp rest
    exact .createUser ⟨normalized, all⟩ rfl new
  next =>
    cases inserted
    exact absurd rest run_fail_ok

variable {role : Role}

theorem effect_createRole {privileges : List Value}
    (ran : (msgCreateRole role privileges roles restrictions).run AuthStore.handle s = (.ok (), after)) :
    Effect s (.createRole role privileges roles restrictions) after := by
  unfold msgCreateRole at ran
  obtain ⟨nonempty, ran⟩ := run_guard_ok.mp ran
  obtain ⟨custom, ran⟩ := run_guard_ok.mp ran
  obtain ⟨_, privileged, rest⟩ := run_lift_bind_ok.mp ran
  obtain ⟨_, between, inherited, rest⟩ := run_bind_ok.mp rest
  obtain ⟨rfl, normalized, all⟩ := run_normalizeInheritedRoles_ok inherited
  obtain ⟨_, between, inserted, rest⟩ := run_bind_ok.mp rest
  have inserted := run_perform_ok.mp inserted
  unfold AuthStore.handle at inserted
  dsimp only at inserted
  split at inserted
  next _ new =>
    cases inserted
    obtain ⟨-, rfl⟩ := run_pure_ok.mp rest
    exact .createRole nonempty (by simpa using custom) privileged ⟨normalized, all⟩ rfl new
  next =>
    cases inserted
    exact absurd rest run_fail_ok

theorem run_updatedRoles_ok {stored refs : List Role} {roles : Option (List Value)}
    (ran : (updatedRoles stored db roles).run AuthStore.handle s = (.ok refs, after)) :
    s = after ∧ (roles = none → refs = stored) ∧ ∀ given, roles = some given → Granted s given db refs := by
  cases roles with
  | none =>
    obtain ⟨rfl, rfl⟩ := run_pure_ok.mp ran
    exact ⟨rfl, fun _ => rfl, nofun⟩
  | some given =>
    obtain ⟨rfl, normalized, all⟩ := run_normalizeInheritedRoles_ok ran
    exact ⟨rfl, nofun, fun _ same => Option.some.inj same ▸ ⟨normalized, all⟩⟩

theorem run_updatedPrivileges_ok {stored privs : List StoredPrivilege} {privileges : Option (List Value)}
    (ran : (updatedPrivileges stored db privileges).run AuthStore.handle s = (.ok privs, after)) :
    s = after ∧ (privileges = none → privs = stored) ∧
      ∀ given, privileges = some given → normalizePrivileges given db = .ok privs := by
  cases privileges with
  | none =>
    obtain ⟨rfl, rfl⟩ := run_pure_ok.mp ran
    exact ⟨rfl, fun _ => rfl, nofun⟩
  | some given =>
    obtain ⟨normalized, rfl⟩ := run_lift_ok.mp ran
    exact ⟨rfl, nofun, fun _ same => Option.some.inj same ▸ normalized⟩

theorem effect_updateUser {user : UserName} {change : UserChange}
    (ran : (msgUpdateUser user change).run AuthStore.handle s = (.ok (), after)) :
    Effect s (.updateUser user change) after := by
  obtain ⟨_, -, rest⟩ := run_lift_bind_ok.mp ran
  obtain ⟨_, between, scanned, rest⟩ := run_bind_ok.mp rest
  cases run_perform_ok.mp scanned
  split at rest
  · exact absurd rest run_fail_ok
  next saved found =>
  obtain ⟨_, -, rest⟩ := run_lift_bind_ok.mp rest
  obtain ⟨_, between, chosen, rest⟩ := run_bind_ok.mp rest
  obtain ⟨rfl, kept, replaced⟩ := run_updatedRoles_ok chosen
  obtain ⟨-, rest⟩ := run_guard_ok.mp rest
  cases rest
  have named : saved.name = user := name_of_findUser found
  exact .updateUser found named kept replaced

theorem effect_updateRole {privileges roles : Option (List Value)}
    (ran : (msgUpdateRole role privileges roles restrictions).run AuthStore.handle s = (.ok (), after)) :
    Effect s (.updateRole role privileges roles restrictions) after := by
  obtain ⟨doc, _, _, found, changing, rfl⟩ := run_modifyRole_ok ran
  obtain ⟨_, _, first, rest⟩ := run_bind_ok.mp changing
  obtain ⟨rfl, privilegesKept, privileged⟩ := run_updatedPrivileges_ok first
  obtain ⟨_, _, second, rest⟩ := run_bind_ok.mp rest
  obtain ⟨rfl, rolesKept, granted⟩ := run_updatedRoles_ok second
  obtain ⟨rfl, rfl⟩ := run_pure_ok.mp rest
  have named : doc.name = role := name_of_findRole found
  exact .updateRole found named privilegesKept privileged rolesKept granted

theorem effect_grantRolesToRole
    (ran : (msgGrantRolesToRole s.depth role roles).run AuthStore.handle s = (.ok (), after)) :
    Effect s (.grantRolesToRole role roles) after := by
  obtain ⟨_, between, inherited, rest⟩ := run_bind_ok.mp ran
  obtain ⟨rfl, normalized, all⟩ := run_normalizeInheritedRoles_ok inherited
  obtain ⟨_, between, walked, rest⟩ := run_bind_ok.mp rest
  rw [run_roleRefClosure] at walked
  cases walked
  obtain ⟨outside, rest⟩ := run_guard_ok.mp rest
  rw [mem_roleRefClosure le_rfl] at outside
  obtain ⟨_, _, between, found, changing, rfl⟩ := run_modifyRole_ok rest
  obtain ⟨rfl, rfl⟩ := run_pure_ok.mp changing
  exact .grantRolesToRole ⟨normalized, all⟩ (fun r named path => outside ⟨r, named, path⟩) found

theorem run_writeRoleHolders_ok {docs : List RoleDoc}
    (ran : (writeRoleHolders docs).run AuthStore.handle s = (.ok (), after)) :
    after = { s with roles := s.roles.update docs } := by
  unfold writeRoleHolders at ran
  split at ran
  next none_ =>
    obtain ⟨-, rfl⟩ := run_pure_ok.mp ran
    rw [List.isEmpty_iff.mp none_, Records.update_nil]
  next => exact (congrArg Prod.snd ran).symm

theorem run_writeUserHolders_ok {docs : List UserDoc}
    (ran : (writeUserHolders docs).run AuthStore.handle s = (.ok (), after)) :
    after = { s with users := s.users.update docs } := by
  unfold writeUserHolders at ran
  split at ran
  next none_ =>
    obtain ⟨-, rfl⟩ := run_pure_ok.mp ran
    rw [List.isEmpty_iff.mp none_, Records.update_nil]
  next => exact (congrArg Prod.snd ran).symm

theorem run_cascadeRoleRemoval_ok (ran : (cascadeRoleRemoval role).run AuthStore.handle s = (.ok (), after)) :
    after = ⟨s.users.update (changedUserDocs role s.users.docs),
      s.roles.update (changedRoleDocs role s.roles.docs)⟩ := by
  obtain ⟨_, between, scanned, rest⟩ := run_bind_ok.mp ran
  obtain ⟨_, between, written, rest⟩ := run_bind_ok.mp rest
  obtain rfl := run_writeRoleHolders_ok written
  cases run_perform_ok.mp scanned
  exact run_writeUserHolders_ok rest

theorem effect_dropRole (ran : (msgDropRole role).run AuthStore.handle s = (.ok (), after)) :
    Effect s (.dropRole role) after := by
  unfold msgDropRole at ran
  obtain ⟨custom, ran⟩ := run_guard_ok.mp ran
  obtain ⟨_, _, called, rest⟩ := run_bind_ok.mp ran
  cases run_perform_ok.mp called
  split at rest
  next found =>
    rw [run_cascadeRoleRemoval_ok rest]
    exact .dropRole (by simpa using custom) found
  next => exact absurd rest run_fail_ok

theorem effect_of_exec {c : Command} (ran : s.exec c = (.ok (), after)) : Effect s c after := by
  cases c with
  | createUser => exact effect_createUser ran
  | updateUser => exact effect_updateUser ran
  | grantRolesToUser user roles =>
    obtain ⟨refs, normalized, rest⟩ := run_lift_bind_ok.mp ran
    obtain ⟨doc, changed, between, found, changing, rfl⟩ := run_modifyUser_ok rest
    obtain ⟨_, _, required, last⟩ := run_bind_ok.mp changing
    obtain ⟨rfl, all⟩ := run_requireRoles_ok required
    obtain ⟨rfl, rfl⟩ := run_pure_ok.mp last
    exact .grantRolesToUser ⟨normalized, all⟩ found
  | revokeRolesFromUser user roles =>
    obtain ⟨refs, normalized, rest⟩ := run_lift_bind_ok.mp ran
    obtain ⟨doc, changed, between, found, changing, rfl⟩ := run_modifyUser_ok rest
    obtain ⟨rfl, rfl⟩ := run_pure_ok.mp changing
    exact .revokeRolesFromUser normalized found
  | createRole => exact effect_createRole ran
  | updateRole => exact effect_updateRole ran
  | grantRolesToRole => exact effect_grantRolesToRole ran
  | revokeRolesFromRole role roles =>
    obtain ⟨refs, normalized, rest⟩ := run_lift_bind_ok.mp ran
    obtain ⟨doc, changed, between, found, changing, rfl⟩ := run_modifyRole_ok rest
    obtain ⟨rfl, rfl⟩ := run_pure_ok.mp changing
    exact .revokeRolesFromRole normalized found
  | grantPrivilegesToRole role privileges =>
    obtain ⟨normalized, privileged, rest⟩ := run_lift_bind_ok.mp ran
    obtain ⟨doc, changed, between, found, changing, rfl⟩ := run_modifyRole_ok rest
    obtain ⟨rfl, rfl⟩ := run_pure_ok.mp changing
    exact .grantPrivilegesToRole privileged found
  | revokePrivilegesFromRole role privileges =>
    obtain ⟨doc, changed, between, found, changing, rfl⟩ := run_modifyRole_ok ran
    obtain ⟨_, read, last⟩ := run_lift_bind_ok.mp changing
    obtain ⟨rfl, rfl⟩ := run_pure_ok.mp last
    exact .revokePrivilegesFromRole read found
  | dropRole => exact effect_dropRole ran

end DumboDB.Handler
