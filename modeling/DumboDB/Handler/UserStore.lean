import DumboDB.Authz.Model
import DumboDB.Foundation.Interaction
import DumboDB.Foundation.Records
import DumboDB.Handler.Message

/-!
The users and roles stored in `admin.system.users` and `admin.system.roles`, and the commands that
change them. A command is a program of storage calls: it loads whole documents, changes them in
memory and writes them back.
-/

namespace DumboDB.Handler

open Foundation ByteOrder DumboDB.Types Authz

structure StoredPrivilege where
  resource : Document
  actions : List Action

structure RoleDoc where
  name : Role
  privileges : List StoredPrivilege
  roles : List Role
  authenticationRestrictions : Option (List Value)

/-- A user is named by its database and its name, as a role is. -/
abbrev UserName := Role

structure UserDoc where
  name : UserName
  roles : List Role
  credentials : Option Document
  customData : Option Document
  commitIdentity : Option Document
  authenticationRestrictions : Option (List Value)

def RoleDoc.id (d : RoleDoc) : Bytes := d.name.id

def UserDoc.id (d : UserDoc) : Bytes := d.name.id

structure AuthStore where
  users : Records UserDoc.id
  roles : Records RoleDoc.id

inductive UserAdminError where
  | localDatabase
  | passwordMissing
  | emptyUserName
  | emptyRoleName
  | builtinRoleName
  | builtinRoleDropped (role : Role)
  | roleNameNotString
  | roleDBNotString
  | roleEntryType
  | invalidDatabaseName (name : Bytes)
  | privilegeNotDocument
  | privilegeResourceMissing
  | privilegeResourceType
  | privilegeActionsMissing
  | privilegeActionsType
  | actionNotString
  | offDatabase (db : Bytes)
  | roleNotFound (role : Role)
  | userNotFound (user : UserName)
  | roleAlreadyExists (role : Role)
  | userAlreadyExists (user : UserName)
  | roleCycle (role : Role)
  | emptyMechanisms
  | unknownMechanism
  | noStoredCredential (mechanism : Bytes)
  | credentialsNotStored
  | nothingToUpdate

/-- The storage calls that the commands make, each of them one atomic step. -/
inductive StoreCall where
  | loadRole (r : Role)
  | loadUser (u : UserName)
  | scanRoles
  | scanUsers
  | insertRole (d : RoleDoc)
  | insertUser (d : UserDoc)
  | updateRoles (docs : List RoleDoc)
  | updateUsers (docs : List UserDoc)
  | deleteRole (r : Role)

/-- The documents found, and whether an insert or a delete took place. -/
def StoreCall.Reply : StoreCall → Type
  | .loadRole _ => Option RoleDoc
  | .loadUser _ => Option UserDoc
  | .scanRoles => List RoleDoc
  | .scanUsers => List UserDoc
  | .insertRole _ => Bool
  | .insertUser _ => Bool
  | .updateRoles _ => Unit
  | .updateUsers _ => Unit
  | .deleteRole _ => Bool

def AuthStore.handle : (call : StoreCall) → AuthStore → call.Reply × AuthStore
  | .loadRole r, s => (s.roles.find r.id, s)
  | .loadUser u, s => (s.users.find u.id, s)
  | .scanRoles, s => (s.roles.docs, s)
  | .scanUsers, s => (s.users.docs, s)
  | .insertRole d, s =>
    match s.roles.insert d with
    | some roles => (true, { s with roles })
    | none => (false, s)
  | .insertUser d, s =>
    match s.users.insert d with
    | some users => (true, { s with users })
    | none => (false, s)
  | .updateRoles docs, s => ((), { s with roles := s.roles.update docs })
  | .updateUsers docs, s => ((), { s with users := s.users.update docs })
  | .deleteRole r, s => ((s.roles.find r.id).isSome, { s with roles := s.roles.delete r.id })

abbrev Prog := Program UserAdminError StoreCall StoreCall.Reply

def parseResourceDoc (rd : Document) : Resource :=
  if isTrue (rd.get (field "anyResource")) then ⟨[], [], false, true⟩
  else if isTrue (rd.get (field "cluster")) then ⟨[], [], true, false⟩
  else ⟨stringOf (rd.get (field "db")), stringOf (rd.get (field "collection")), false, false⟩

def resourceKey (rd : Document) : Bytes :=
  let r := parseResourceDoc rd
  if r.anyResource then field "any"
  else if r.cluster then field "cluster"
  else field "db:" ++ r.db ++ field "|coll:" ++ r.collection

def parseStoredPrivileges (privileges : List StoredPrivilege) : PrivilegeSet :=
  privileges.map fun p => ⟨parseResourceDoc p.resource, p.actions⟩

def rolesFromArray (roles : List Role) : List Role := roles.filter fun r => r.role ≠ []

def validateDatabaseName (name : Bytes) : Except UserAdminError DatabaseName :=
  if valid : validDatabaseName name = true then .ok ⟨name, valid⟩ else .error (.invalidDatabaseName name)

def normalizeRoleRef (defaultDB : DatabaseName) : Value → Except UserAdminError Role
  | .string r => .ok ⟨r, defaultDB⟩
  | .document d =>
    match Document.get d (field "role"), Document.get d (field "db") with
    | some (.string role), some (.string db) => do return ⟨role, ← validateDatabaseName db⟩
    | some (.string _), _ => .error .roleDBNotString
    | _, _ => .error .roleNameNotString
  | _ => .error .roleEntryType

def normalizeRoleRefs (roles : List Value) (defaultDB : DatabaseName) : Except UserAdminError (List Role) :=
  roles.mapM (normalizeRoleRef defaultDB)

def validateResourceScope (resource : Document) (roleDB : DatabaseName) : Except UserAdminError Unit :=
  if roleDB.name = admin then .ok ()
  else if isTrue (resource.get (field "cluster")) ∨ isTrue (resource.get (field "anyResource")) ∨
      stringOf (resource.get (field "db")) ≠ roleDB.name then
    .error (.offDatabase roleDB.name)
  else .ok ()

def actionOf : Value → Except UserAdminError Action
  | .string a => .ok a
  | _ => .error .actionNotString

def normalizePrivilege (roleDB : DatabaseName) : Value → Except UserAdminError StoredPrivilege
  | .document v =>
    match Document.get v (field "resource") with
    | some (.document resource) => do
      validateResourceScope resource roleDB
      match Document.get v (field "actions") with
      | some (.array actions) => return ⟨resource, ← actions.mapM actionOf⟩
      | some _ => .error .privilegeActionsType
      | none => .error .privilegeActionsMissing
    | some _ => .error .privilegeResourceType
    | none => .error .privilegeResourceMissing
  | _ => .error .privilegeNotDocument

def normalizePrivileges (privileges : List Value) (roleDB : DatabaseName) :
    Except UserAdminError (List StoredPrivilege) :=
  privileges.mapM (normalizePrivilege roleDB)

/-- `unionStrings` and `unionRoles`: what is not there yet is appended. -/
def union {α : Type} [DecidableEq α] (existing add : List α) : List α :=
  add.foldl (fun out a => if a ∈ out then out else out ++ [a]) existing

def unionStrings (existing add : List Action) : List Action := union existing add

def unionRoles (existing add : List Role) : List Role := union existing add

def removeRoles (existing remove : List Role) : List Role := existing.filter fun r => r ∉ remove

/-- The first stored privilege with the key of the added one takes its actions. -/
def mergePrivilege (add : StoredPrivilege) : List StoredPrivilege → List StoredPrivilege
  | [] => [add]
  | p :: rest =>
    if resourceKey p.resource = resourceKey add.resource then
      { p with actions := unionStrings p.actions add.actions } :: rest
    else p :: mergePrivilege add rest

def unionPrivileges (existing add : List StoredPrivilege) : List StoredPrivilege :=
  add.foldl (fun out p => mergePrivilege p out) existing

/-- The key and the actions of a privilege that is revoked as it was sent; the strings among the actions are all that a
stored action can equal. -/
def revokedEntry : Value → Except UserAdminError (Bytes × List Action)
  | .document rp =>
    match Document.get rp (field "resource"), Document.get rp (field "actions") with
    | some (.document resource), some (.array actions) =>
      .ok (resourceKey resource, actions.filterMap fun
        | .string a => some a
        | _ => none)
    | some (.document _), some _ => .error .privilegeActionsType
    | some (.document _), none => .error .privilegeActionsMissing
    | some _, _ => .error .privilegeResourceType
    | none, _ => .error .privilegeResourceMissing
  | _ => .error .privilegeNotDocument

def revokePrivileges (existing : List StoredPrivilege) (remove : List (Bytes × List Action)) : List StoredPrivilege :=
  existing.filterMap fun p =>
    match remove.reverse.find? fun entry => entry.1 = resourceKey p.resource with
    | none => some p
    | some entry =>
      let remaining := p.actions.filter fun a => a ∉ entry.2
      if remaining = [] then none else some { p with actions := remaining }

def loadRoleDoc (r : Role) : Prog (Option RoleDoc) := Program.perform (StoreCall.loadRole r)

def loadUserDoc (u : UserName) : Prog (Option UserDoc) := Program.perform (StoreCall.loadUser u)

def scanRoleDocs : Prog (List RoleDoc) := Program.perform StoreCall.scanRoles

def scanUserDocs : Prog (List UserDoc) := Program.perform StoreCall.scanUsers

def insertRoleDoc (d : RoleDoc) : Prog Bool := Program.perform (StoreCall.insertRole d)

def insertUserDoc (d : UserDoc) : Prog Bool := Program.perform (StoreCall.insertUser d)

def deleteRoleDoc (r : Role) : Prog Bool := Program.perform (StoreCall.deleteRole r)

def updateRoleDocs (docs : List RoleDoc) : Prog Unit := Program.perform (StoreCall.updateRoles docs)

def updateUserDocs (docs : List UserDoc) : Prog Unit := Program.perform (StoreCall.updateUsers docs)

def roleExists (r : Role) : Prog Bool :=
  if isBuiltinRoleOnDB r then pure true
  else do
    return (← loadRoleDoc r).isSome

/-- The check of `normalizeInheritedRoles` and of `validateUserRoles`. -/
def requireRoles : List Role → Prog Unit
  | [] => pure ()
  | r :: rest => do
    if ← roleExists r then requireRoles rest else Program.fail (.roleNotFound r)

def normalizeInheritedRoles (roles : List Value) (granteeDB : DatabaseName) : Prog (List Role) := do
  let refs ← Program.lift (normalizeRoleRefs roles granteeDB)
  requireRoles refs
  return refs

/-- One step of `roleRefClosure`; the depth bounds the recursion. -/
def walkRefs : Nat → List Role → Role → Prog (List Role)
  | 0, seen, _ => pure seen
  | depth + 1, seen, r =>
    if r ∈ seen then pure seen
    else if isBuiltinRoleOnDB r then pure (seen ++ [r])
    else do
      match ← loadRoleDoc r with
      | none => return seen ++ [r]
      | some d => (rolesFromArray d.roles).foldlM (walkRefs depth) (seen ++ [r])

def roleRefClosure (depth : Nat) (direct : List Role) : Prog (List Role) := direct.foldlM (walkRefs depth) []

def modifyRole (target : Role) (change : RoleDoc → Prog RoleDoc) : Prog Unit := do
  match ← loadRoleDoc target with
  | none => Program.fail (.roleNotFound target)
  | some doc => do
    let changed ← change doc
    updateRoleDocs [changed]

def modifyUser (user : UserName) (change : UserDoc → Prog UserDoc) : Prog Unit := do
  match ← loadUserDoc user with
  | none => Program.fail (.userNotFound user)
  | some doc => do
    let changed ← change doc
    updateUserDocs [changed]

/-- The roles that an update stores: the given ones when there are any, else those that were stored. -/
def updatedRoles (stored : List Role) (db : DatabaseName) : Option (List Value) → Prog (List Role)
  | none => pure stored
  | some roles => normalizeInheritedRoles roles db

def updatedPrivileges (stored : List StoredPrivilege) (db : DatabaseName) :
    Option (List Value) → Prog (List StoredPrivilege)
  | none => pure stored
  | some privileges => Program.lift (normalizePrivileges privileges db)

/-- What `updateUser` is given, apart from the user. The credentials are those made of the password. -/
structure UserChange where
  credentials : Option Document
  mechanisms : Option (List Value)
  customData : Option (Option Document)
  commitIdentity : Option (Option Document)
  roles : Option (List Value)
  authenticationRestrictions : Bool

/-- A command's fields as far as they are read; a field of another type is refused before anything is read. -/
inductive Command where
  | createUser (user : UserName) (roles : List Value) (credentials : Option Document)
        (mechanisms : Option (List Value))
      (customData commitIdentity : Option Document) (authenticationRestrictions : Option (List Value))
  | updateUser (user : UserName) (change : UserChange)
  | grantRolesToUser (user : UserName) (roles : List Value)
  | revokeRolesFromUser (user : UserName) (roles : List Value)
  | createRole (role : Role) (privileges roles : List Value) (authenticationRestrictions : Option (List Value))
  | updateRole (role : Role) (privileges roles authenticationRestrictions : Option (List Value))
  | grantRolesToRole (role : Role) (roles : List Value)
  | revokeRolesFromRole (role : Role) (roles : List Value)
  | grantPrivilegesToRole (role : Role) (privileges : List Value)
  | revokePrivilegesFromRole (role : Role) (privileges : List Value)
  | dropRole (role : Role)

def mechanismOf : Value → Except UserAdminError Bytes
  | .string m => if m = field "SCRAM-SHA-1" ∨ m = field "SCRAM-SHA-256" then .ok m else .error .unknownMechanism
  | _ => .error .unknownMechanism

def defMechanisms : List Value := [.string (field "SCRAM-SHA-1"), .string (field "SCRAM-SHA-256")]

def storedRestrictions : Option (List Value) → Option (List Value)
  | some [] => none
  | restrictions => restrictions

def msgCreateUser (user : UserName) (roles : List Value) (credentials : Option Document)
    (mechanisms : Option (List Value))
    (customData commitIdentity : Option Document) (authenticationRestrictions : Option (List Value)) : Prog Unit := do
  if user.db.name = field "local" then Program.fail .localDatabase
  else if user.db.name ≠ field "$external" ∧ credentials.isNone then Program.fail .passwordMissing
  else if user.role = [] then Program.fail .emptyUserName
  else do
    let refs ← Program.lift (normalizeRoleRefs roles user.db)
    requireRoles refs
    if (mechanisms.getD defMechanisms).isEmpty then Program.fail .emptyMechanisms
    else do
      let _ ← Program.lift ((mechanisms.getD defMechanisms).mapM mechanismOf)
      let saved : UserDoc :=
        { name := user, roles := refs
          credentials := if user.db.name = field "$external" then none else credentials
          customData, commitIdentity
          authenticationRestrictions := storedRestrictions authenticationRestrictions }
      if ← insertUserDoc saved then pure () else Program.fail (.userAlreadyExists user)

def narrowCredentials (saved : UserDoc) (mechanisms : List Bytes) : Except UserAdminError Document :=
  match saved.credentials with
  | none => .error .credentialsNotStored
  | some existing => (union [] mechanisms).mapM fun m =>
    match existing.get m with
    | some hash => .ok (m, hash)
    | none => .error (.noStoredCredential m)

/-- The credentials that `updateUser` stores: new ones before narrowed ones. -/
def changedCredentials (saved : UserDoc) (change : UserChange) (requested : List Bytes) :
    Except UserAdminError (Option Document) :=
  match change.credentials, change.mechanisms with
  | some credentials, _ => .ok (some credentials)
  | none, some _ => (narrowCredentials saved requested).map some
  | none, none => .ok saved.credentials

/-- No field that `updateUser` counts as a change; the restrictions are none. -/
def UserChange.isEmpty (change : UserChange) : Bool :=
  change.credentials.isNone && change.mechanisms.isNone && change.customData.isNone && change.commitIdentity.isNone &&
    change.roles.isNone

def msgUpdateUser (user : UserName) (change : UserChange) : Prog Unit := do
  let requested ← Program.lift ((change.mechanisms.getD defMechanisms).mapM mechanismOf)
  match (← scanUserDocs).find? fun d => d.id = user.id with
  | none => Program.fail (.userNotFound user)
  | some saved => do
    let credentials ← Program.lift (changedCredentials saved change requested)
    let roles ← updatedRoles saved.roles user.db change.roles
    if change.isEmpty then Program.fail .nothingToUpdate
    else updateUserDocs [{ saved with
      credentials, roles
      customData := change.customData.getD saved.customData
      commitIdentity := change.commitIdentity.getD saved.commitIdentity }]

def msgGrantRolesToUser (user : UserName) (roles : List Value) : Prog Unit := do
  let refs ← Program.lift (normalizeRoleRefs roles user.db)
  modifyUser user fun doc => do
    requireRoles refs
    return { doc with roles := unionRoles doc.roles refs }

def msgRevokeRolesFromUser (user : UserName) (roles : List Value) : Prog Unit := do
  let refs ← Program.lift (normalizeRoleRefs roles user.db)
  modifyUser user fun doc => return { doc with roles := removeRoles doc.roles refs }

def msgCreateRole (role : Role) (privileges roles : List Value) (authenticationRestrictions : Option (List Value)) :
    Prog Unit := do
  if role.role = [] then Program.fail .emptyRoleName
  else if isBuiltinRoleOnDB role then Program.fail .builtinRoleName
  else do
    let storedPrivileges ← Program.lift (normalizePrivileges privileges role.db)
    let storedRoles ← normalizeInheritedRoles roles role.db
    let saved : RoleDoc :=
      { name := role, privileges := storedPrivileges, roles := storedRoles
        authenticationRestrictions := storedRestrictions authenticationRestrictions }
    if ← insertRoleDoc saved then pure () else Program.fail (.roleAlreadyExists role)

/-- The roles replace the stored ones; only their existence is checked. -/
def msgUpdateRole (role : Role) (privileges roles authenticationRestrictions : Option (List Value)) : Prog Unit :=
  modifyRole role fun stored => do
    let storedPrivileges ← updatedPrivileges stored.privileges role.db privileges
    let storedRoles ← updatedRoles stored.roles role.db roles
    return { stored with
      privileges := storedPrivileges, roles := storedRoles
      authenticationRestrictions := authenticationRestrictions.or stored.authenticationRestrictions }

def msgGrantRolesToRole (depth : Nat) (role : Role) (roles : List Value) : Prog Unit := do
  let refs ← normalizeInheritedRoles roles role.db
  let closure ← roleRefClosure depth (rolesFromArray refs)
  if role ∈ closure then Program.fail (.roleCycle role)
  else modifyRole role fun doc => return { doc with roles := unionRoles doc.roles refs }

def msgRevokeRolesFromRole (role : Role) (roles : List Value) : Prog Unit := do
  let refs ← Program.lift (normalizeRoleRefs roles role.db)
  modifyRole role fun doc => return { doc with roles := removeRoles doc.roles refs }

def msgGrantPrivilegesToRole (role : Role) (privileges : List Value) : Prog Unit := do
  let normalized ← Program.lift (normalizePrivileges privileges role.db)
  modifyRole role fun doc => return { doc with privileges := unionPrivileges doc.privileges normalized }

def msgRevokePrivilegesFromRole (role : Role) (privileges : List Value) : Prog Unit :=
  modifyRole role fun doc => do
    let remove ← Program.lift (privileges.mapM revokedEntry)
    return { doc with privileges := revokePrivileges doc.privileges remove }

/-- The stored documents that lose a reference, without it; `changedRoleHolders` for either collection. -/
def changedRoleHolders {D : Type} (roles : D → List Role) (set : D → List Role → D) (removed : Role) (docs : List D) :
    List D :=
  docs.filterMap fun d =>
    let pruned := removeRoles (roles d) [removed]
    if pruned.length ≠ (roles d).length then some (set d pruned) else none

def changedRoleDocs (removed : Role) (docs : List RoleDoc) : List RoleDoc :=
  changedRoleHolders RoleDoc.roles (fun d roles => { d with roles }) removed docs

def changedUserDocs (removed : Role) (docs : List UserDoc) : List UserDoc :=
  changedRoleHolders UserDoc.roles (fun d roles => { d with roles }) removed docs

def writeRoleHolders (docs : List RoleDoc) : Prog Unit := if docs.isEmpty then pure () else updateRoleDocs docs

def writeUserHolders (docs : List UserDoc) : Prog Unit := if docs.isEmpty then pure () else updateUserDocs docs

def cascadeRoleRemoval (removed : Role) : Prog Unit := do
  let roles ← scanRoleDocs
  writeRoleHolders (changedRoleDocs removed roles)
  let users ← scanUserDocs
  writeUserHolders (changedUserDocs removed users)

def msgDropRole (role : Role) : Prog Unit := do
  if isBuiltinRoleOnDB role then Program.fail (.builtinRoleDropped role)
  else if ← deleteRoleDoc role then cascadeRoleRemoval role
  else Program.fail (.roleNotFound role)

def Command.program (depth : Nat) : Command → Prog Unit
  | .createUser user roles credentials mechanisms customData commitIdentity restrictions =>
    msgCreateUser user roles credentials mechanisms customData commitIdentity restrictions
  | .updateUser user change => msgUpdateUser user change
  | .grantRolesToUser user roles => msgGrantRolesToUser user roles
  | .revokeRolesFromUser user roles => msgRevokeRolesFromUser user roles
  | .createRole role privileges roles restrictions => msgCreateRole role privileges roles restrictions
  | .updateRole role privileges roles restrictions => msgUpdateRole role privileges roles restrictions
  | .grantRolesToRole role roles => msgGrantRolesToRole depth role roles
  | .revokeRolesFromRole role roles => msgRevokeRolesFromRole role roles
  | .grantPrivilegesToRole role privileges => msgGrantPrivilegesToRole role privileges
  | .revokePrivilegesFromRole role privileges => msgRevokePrivilegesFromRole role privileges
  | .dropRole role => msgDropRole role

/-- No path in the role graph has more roles with references than are stored. -/
def AuthStore.depth (s : AuthStore) : Nat := s.roles.docs.length + 1

def AuthStore.exec (s : AuthStore) (c : Command) : Except UserAdminError Unit × AuthStore :=
  (c.program s.depth).run AuthStore.handle s

end DumboDB.Handler
