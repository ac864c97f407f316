import DumboDB.Foundation.Search
import DumboDB.Types.Value

/-!
Privileges on resources, the built-in roles, and what a set of roles resolves to. A role is named by
its database and its name; the database names are those that commands accept, so that the `_id`
`<db>.<name>` names one role.
-/

namespace DumboDB.Authz

open Foundation ByteOrder Search DumboDB.Types List

abbrev Action := Bytes

def actionNamed (name : String) : Action := ascii name.toList

def anyAction : Action := actionNamed "anyAction"

structure Resource where
  db : Bytes
  collection : Bytes
  cluster : Bool
  anyResource : Bool
deriving DecidableEq

def collectionResource (db collection : Bytes) : Resource := ⟨db, collection, false, false⟩

def databaseResource (db : Bytes) : Resource := ⟨db, [], false, false⟩

def clusterResource : Resource := ⟨[], [], true, false⟩

def isSystemCollection (collection : Bytes) : Bool := (ascii "system.".toList).isPrefixOf collection

def Resource.covers (r target : Resource) : Bool :=
  if r.anyResource then true
  else if target.cluster then r.cluster
  else if r.cluster then false
  else if r.db ≠ [] ∧ r.db ≠ target.db then false
  else if r.collection ≠ [] then r.collection = target.collection
  else !isSystemCollection target.collection

structure Privilege where
  resource : Resource
  actions : List Action
deriving DecidableEq

abbrev PrivilegeSet := List Privilege

def Privilege.allows (p : Privilege) (action : Action) (target : Resource) : Bool :=
  p.resource.covers target && p.actions.any fun a => a = action ∨ a = anyAction

def PrivilegeSet.authorized (ps : PrivilegeSet) (action : Action) (target : Resource) : Bool :=
  ps.any fun p => p.allows action target

def PrivilegeSet.authorizedOnAnyNormalResource (ps : PrivilegeSet) (action : Action) : Bool :=
  ps.authorized action ⟨[], [], false, false⟩

/-- `ValidateDatabaseName`: none of the characters that no command takes in a database name. -/
def validDatabaseName (name : Bytes) : Bool :=
  name.all fun b => b ∉ ascii ['/', '\\', '.', ' ', '"', Char.ofNat 0]

structure DatabaseName where
  name : Bytes
  valid : validDatabaseName name = true
deriving DecidableEq

structure Role where
  role : Bytes
  db : DatabaseName
deriving DecidableEq

/-- The `_id` of a stored role or user. -/
def Role.id (r : Role) : Bytes := r.db.name ++ ascii ['.'] ++ r.role

def admin : Bytes := ascii "admin".toList

def builtinRoleNames (db : Bytes) : List Bytes :=
  if db = ascii "$external".toList then []
  else
    ["read", "readWrite", "dbAdmin", "userAdmin", "dbOwner"].map (fun name => ascii name.toList) ++ if db = admin then
        ["readAnyDatabase", "readWriteAnyDatabase", "dbAdminAnyDatabase", "userAdminAnyDatabase", "clusterMonitor",
          "clusterManager", "hostManager", "clusterAdmin", "backup", "restore", "root"].map (fun name =>
            ascii name.toList)
      else []

def isBuiltinRoleOnDB (r : Role) : Bool := r.role ∈ builtinRoleNames r.db.name

def readActions : List Action :=
  ["find", "collStats", "dbStats", "killCursors", "listCollections", "listIndexes",
    "listSearchIndexes"].map actionNamed

def writeActions : List Action :=
  ["insert", "update", "remove", "createCollection", "createIndex", "createSearchIndexes",
    "dropCollection", "dropIndex",
    "dropSearchIndex", "renameCollectionSameDB", "updateSearchIndex", "convertToCapped"].map actionNamed

def dbAdminActions : List Action :=
  ["collMod", "compact", "createCollection", "createIndex", "dropCollection", "dropDatabase", "dropIndex", "dbStats",
    "collStats", "validate", "renameCollectionSameDB", "listCollections", "listIndexes",
      "planCacheWrite"].map actionNamed

def userAdminActions : List Action :=
  ["changeCustomData", "changePassword", "createRole", "createUser", "dropRole", "dropUser",
    "grantRole", "revokeRole",
    "setAuthenticationRestriction", "viewRole", "viewUser"].map actionNamed

def clusterMonitorActions : List Action :=
  ["serverStatus", "getParameter", "hostInfo", "listDatabases", "top", "getLog", "listSessions",
    "inprog", "getCmdLineOpts",
    "replSetGetStatus", "replSetGetConfig"].map actionNamed

def clusterManagerActions : List Action := ["compact", "setParameter", "rotateCertificates"].map actionNamed

def clusterMonitorDBActions : List Action := ["dbStats", "collStats", "listCollections",
    "listIndexes"].map actionNamed

def builtinPrivileges (role db : Bytes) : PrivilegeSet :=
  let dbRes := databaseResource db
  let allDB : Resource := ⟨[], [], false, false⟩
  let listDatabases : Privilege := ⟨clusterResource, [actionNamed "listDatabases"]⟩
  let named (name : String) : Bool := role = ascii name.toList
  if named "read" then [⟨dbRes, readActions⟩]
  else if named "readWrite" then [⟨dbRes, readActions ++ writeActions⟩]
  else if named "dbAdmin" then [⟨dbRes, dbAdminActions⟩]
  else if named "userAdmin" then [⟨dbRes, userAdminActions⟩]
  else if named "dbOwner" then [⟨dbRes, readActions ++ writeActions ++ dbAdminActions ++ userAdminActions⟩]
  else if named "readAnyDatabase" then [⟨allDB, readActions⟩, listDatabases]
  else if named "readWriteAnyDatabase" then [⟨allDB, readActions ++ writeActions⟩, listDatabases]
  else if named "dbAdminAnyDatabase" then [⟨allDB, dbAdminActions⟩, listDatabases]
  else if named "userAdminAnyDatabase" then [⟨allDB, userAdminActions⟩, listDatabases]
  else if named "clusterMonitor" then [⟨clusterResource, clusterMonitorActions⟩, ⟨allDB, clusterMonitorDBActions⟩]
  else if named "clusterAdmin" then
    [⟨clusterResource, clusterMonitorActions ++ clusterManagerActions⟩, ⟨allDB, [actionNamed "dropDatabase"]⟩]
  else if named "clusterManager" then [⟨clusterResource, ["replSetGetConfig", "replSetGetStatus"].map actionNamed⟩]
  else if named "hostManager" then [⟨clusterResource, clusterManagerActions⟩]
  else if named "backup" then
    [⟨allDB, ["find", "collStats", "listCollections", "listIndexes", "listSearchIndexes"].map actionNamed⟩,
      ⟨clusterResource, ["serverStatus", "listDatabases"].map actionNamed⟩,
      ⟨collectionResource admin (ascii "system.users".toList), [actionNamed "find"]⟩,
      ⟨collectionResource admin (ascii "system.roles".toList), [actionNamed "find"]⟩]
  else if named "restore" then
    [⟨allDB, ["insert", "update", "remove", "bypassDocumentValidation", "createCollection", "createIndex",
      "createSearchIndexes", "dropCollection", "updateSearchIndex", "convertToCapped", "collMod", "listCollections",
      "changeCustomData", "changePassword", "createRole", "createUser", "dropRole", "dropUser",
        "grantRole", "revokeRole",
      "setAuthenticationRestriction", "viewRole", "viewUser"].map actionNamed⟩]
  else if named "root" then
    [⟨allDB, readActions ++ writeActions ++ dbAdminActions ++ userAdminActions⟩,
      ⟨clusterResource, clusterMonitorActions ++ clusterManagerActions⟩,
      ⟨collectionResource admin (ascii "system.users".toList), readActions⟩,
      ⟨collectionResource admin (ascii "system.roles".toList), readActions⟩]
  else []

def builtinRole (r : Role) : Option PrivilegeSet :=
  if isBuiltinRoleOnDB r then some (builtinPrivileges r.role r.db.name) else none

/-- `RoleResolver`: the privileges and the inherited roles of a custom role. -/
abbrev RoleResolver := Role → Option (PrivilegeSet × List Role)

def ownPrivileges (resolver : RoleResolver) (r : Role) : PrivilegeSet :=
  match builtinRole r with
  | some ps => ps
  | none =>
    match resolver r with
    | some (privs, _) => privs
    | none => []

def inherits (resolver : RoleResolver) (r : Role) : List Role :=
  match builtinRole r with
  | some _ => []
  | none =>
    match resolver r with
    | some (_, roles) => roles
    | none => []

/-- Every role that is reached grants its privileges once. -/
def resolve (depth : Nat) (roles : List Role) (resolver : RoleResolver) : PrivilegeSet :=
  (visitAll (inherits resolver) depth roles).flatMap (ownPrivileges resolver)

theorem Role.takeWhile_id (r : Role) : r.id.takeWhile (· ≠ 46) = r.db.name := by
  have dotless : ∀ b ∈ r.db.name, decide (b ≠ 46) = true := by
    intro b inside
    have accepted := all_eq_true.mp r.db.valid b inside
    by_contra dot
    obtain rfl : b = 46 := by simpa using dot
    exact absurd accepted (by decide)
  have split : r.id = r.db.name ++ 46 :: r.role := by simp [Role.id, ascii]
  rw [split, takeWhile_append_of_pos dotless]
  simp

theorem Role.id_injective : Function.Injective Role.id := by
  intro r s same
  have names : r.db.name = s.db.name := by rw [← r.takeWhile_id, ← s.takeWhile_id, same]
  have roles : r.role = s.role := by
    rw [Role.id, Role.id, names] at same
    exact append_cancel_left same
  obtain ⟨_, _, _⟩ := r
  obtain ⟨_, _, _⟩ := s
  cases names
  cases roles
  rfl

theorem authorized_resolve_iff {resolver : RoleResolver} {within : Finset Role}
    (inner : ∀ r, inherits resolver r ≠ [] → r ∈ within) {depth : Nat} (enough : within.card < depth)
    {roles : List Role}
    {action : Action} {target : Resource} : (resolve depth roles resolver).authorized action target = true ↔
      ∃ start ∈ roles, ∃ r, Relation.ReflTransGen (fun r s => s ∈ inherits resolver r) start r ∧
        (ownPrivileges resolver r).authorized action target = true := by
  simp only [PrivilegeSet.authorized, resolve, any_eq_true, mem_flatMap, mem_visitAll_iff inner enough]
  constructor
  · rintro ⟨p, ⟨r, ⟨start, named, path⟩, own⟩, allowed⟩
    exact ⟨start, named, r, path, p, own, allowed⟩
  · rintro ⟨start, named, r, path, p, own, allowed⟩
    exact ⟨p, ⟨r, ⟨start, named, path⟩, own⟩, allowed⟩

end DumboDB.Authz
