import DumboDB.Handler.UserAdmin

/-!
The references from users and roles to roles. A role that is dropped takes the references to it along;
the roles of a database that are dropped together leave them behind, to whatever role is created next
under such a name.
-/

namespace DumboDB.Handler

open Foundation ByteOrder DumboDB.Types Authz Search List
open Transition (Run Guarded)

/-- `MsgDropAllRolesFromDatabase`: the roles of the database are deleted by their ids. -/
def AuthStore.dropAllRoles (s : AuthStore) (db : Bytes) : AuthStore :=
  let ids := (s.roles.docs.filter fun d => d.name.db.name = db).map RoleDoc.id
  if ids.isEmpty then s else { s with roles := s.roles.deleteAll ids }

inductive AdminCommand where
  | single (c : Command)
  | dropAllRolesFromDatabase (db : Bytes)

def RunsAlone (s : AuthStore) : AdminCommand → AuthStore → Prop
  | .single c, after => Succeeds s c after
  | .dropAllRolesFromDatabase db, after => after = s.dropAllRoles db

/-- Every reference names a built-in role or a stored one. -/
structure NoneDangling (s : AuthStore) : Prop where
  roles : ∀ d ∈ s.roles.docs, ∀ q ∈ d.roles, s.Exists q
  users : ∀ d ∈ s.users.docs, ∀ q ∈ d.roles, s.Exists q

/-- No user, and no role of another database, refers to a stored role of the database. -/
def Unreferenced (s : AuthStore) : AdminCommand → Prop
  | .single _ => True
  | .dropAllRolesFromDatabase db =>
    (∀ d ∈ s.users.docs, ∀ q ∈ d.roles, q.db.name = db → isBuiltinRoleOnDB q = true) ∧
      ∀ d ∈ s.roles.docs, d.name.db.name ≠ db → ∀ q ∈ d.roles, q.db.name = db → isBuiltinRoleOnDB q = true

variable {s after : AuthStore} {q : Role}

def UsersKnown (s : AuthStore) : Prop := ∀ k d, s.users.find k = some d → ∀ q ∈ d.roles, s.Exists q

theorem noneDangling_iff : NoneDangling s ↔ (∀ r q, s.Stored r q → s.Exists q) ∧ UsersKnown s := by
  constructor
  · rintro ⟨roles, users⟩
    exact ⟨fun r q ⟨d, found, listed⟩ => roles d (Records.mem_of_find found) q listed,
      fun k d found => users d (Records.mem_of_find found)⟩
  · rintro ⟨known, users⟩
    exact ⟨fun d member q listed => known d.name q ⟨d, Records.find_of_mem member, listed⟩,
      fun d member => users _ d (Records.find_of_mem member)⟩

theorem exists_of_roles_eq (same : after.roles = s.roles) (exists_ : s.Exists q) : after.Exists q := by
  unfold AuthStore.Exists at *
  rwa [same]

theorem exists_of_effect {c : Command} (effect : Effect s c after) (stays : c ≠ .dropRole q) (exists_ : s.Exists q) :
    after.Exists q := by
  cases effect with
  | createUser | updateUser | grantRolesToUser | revokeRolesFromUser => exact exists_of_roles_eq rfl exists_
  | createRole _ _ _ _ _ inserted =>
    refine exists_.of_find fun d stored => ?_
    rw [find_insertRole inserted]
    split
    · rfl
    · rw [stored]
      rfl
  | updateRole found named => exact exists_updateRole found (kept_of_named found named) exists_
  | grantRolesToRole _ _ found | revokeRolesFromRole _ found | grantPrivilegesToRole _ found
  | revokePrivilegesFromRole _ found =>
    exact exists_updateRole found rfl exists_
  | @dropRole role =>
    refine exists_.of_find fun d stored => ?_
    rw [find_droppedRole, if_neg fun same => stays (congrArg _ same.symm), stored]
    rfl

theorem UsersKnown.replaced {user : UserName} {doc changed : UserDoc} (known : UsersKnown s)
    (found : s.users.find user.id = some doc) (kept : changed.name = doc.name)
    (all : ∀ q ∈ changed.roles, s.Exists q) :
    UsersKnown { s with users := s.users.update [changed] } := by
  intro k d stored q listed
  rw [Records.find_update_single found (congrArg Role.id kept)] at stored
  split at stored
  · cases stored
    exact all q listed
  · exact known k d stored q listed

theorem UsersKnown.step {c : Command} (known : UsersKnown s) (effect : Effect s c after) : UsersKnown after := by
  have kept (users : after.users = s.users) (stays : ∀ q, c ≠ .dropRole q) : UsersKnown after := by
    intro k d stored q listed
    rw [users] at stored
    exact exists_of_effect effect (stays q) (known k d stored q listed)
  cases effect with
  | createUser granted _ inserted =>
    intro k d stored q listed
    rw [Records.find_insert inserted] at stored
    split at stored
    · cases stored
      exact granted.all q listed
    · exact known k d stored q listed
  | @updateUser user change doc changed found named same replaced =>
    refine known.replaced found (named.trans (name_of_findUser found).symm) fun q listed => ?_
    cases given : change.roles with
    | none => exact known _ doc found q (same given ▸ listed)
    | some roles => exact (replaced roles given).all q listed
  | grantRolesToUser granted found =>
    refine known.replaced found rfl fun q listed => ?_
    rcases mem_union.mp listed with old | new
    · exact known _ _ found q old
    · exact granted.all q new
  | revokeRolesFromUser _ found =>
    refine known.replaced found rfl fun q listed => ?_
    exact known _ _ found q (mem_filter.mp listed).1
  | createRole | updateRole | grantRolesToRole | revokeRolesFromRole
  | grantPrivilegesToRole | revokePrivilegesFromRole =>
    exact kept rfl fun _ same => by cases same
  | @dropRole role custom there =>
    intro k d stored q listed
    have before : (s.users.find k).map (fun d => { d with roles := removeRoles d.roles [role] }) = some d :=
      (find_changedUserDocs s.users role k).symm.trans stored
    obtain ⟨old, found, rfl⟩ := Option.map_eq_some_iff.mp before
    obtain ⟨was, other⟩ := mem_filter.mp listed
    refine exists_of_effect (.dropRole custom there) (fun same => ?_) (known k old found q was)
    cases same
    simp at other

theorem find_dropAllRoles (db : Bytes) (r : Role) :
    (s.dropAllRoles db).roles.find r.id = if r.db.name = db then none else s.roles.find r.id := by
  have listed (d : RoleDoc) (found : s.roles.find r.id = some d) :
      r.id ∈ (s.roles.docs.filter fun d => d.name.db.name = db).map RoleDoc.id ↔ r.db.name = db := by
    have named := name_of_findRole found
    constructor
    · intro member
      obtain ⟨e, inside, same⟩ := mem_map.mp member
      obtain ⟨-, ofDb⟩ := mem_filter.mp inside
      obtain rfl : e.name = r := Role.id_injective same
      simpa using ofDb
    · intro ofDb
      refine mem_map.mpr ⟨d, mem_filter.mpr ⟨Records.mem_of_find found, ?_⟩, congrArg Role.id named⟩
      simp [named, ofDb]
  unfold AuthStore.dropAllRoles
  dsimp only
  cases found : s.roles.find r.id with
  | none =>
    rw [ite_self]
    split
    · exact found
    · rw [Records.find_deleteAll, found, ite_self]
  | some d =>
    split
    next empty =>
      have nobody := List.isEmpty_iff.mp empty
      rw [if_neg fun ofDb => ?_, found]
      have member := (listed d found).mpr ofDb
      rw [nobody] at member
      cases member
    next => simp only [Records.find_deleteAll, found, listed d found]

theorem users_dropAllRoles (db : Bytes) : (s.dropAllRoles db).users = s.users := by
  unfold AuthStore.dropAllRoles
  dsimp only
  split
  · rfl
  · rfl

theorem exists_dropAllRoles (db : Bytes) :
    (s.dropAllRoles db).Exists q ↔ s.Exists q ∧ (q.db.name = db → isBuiltinRoleOnDB q = true) := by
  unfold AuthStore.Exists
  rw [find_dropAllRoles]
  by_cases ofDb : q.db.name = db
  · simp [ofDb]
    tauto
  · simp [ofDb]

theorem stored_dropAllRoles (db : Bytes) {r : Role} :
    (s.dropAllRoles db).Stored r q ↔ r.db.name ≠ db ∧ s.Stored r q := by
  unfold AuthStore.Stored
  rw [find_dropAllRoles]
  by_cases ofDb : r.db.name = db
  · simp [ofDb]
  · simp [ofDb]

theorem noneDangling_dropAllRoles (fine : NoneDangling s) (db : Bytes) :
    NoneDangling (s.dropAllRoles db) ↔ Unreferenced s (.dropAllRolesFromDatabase db) := by
  obtain ⟨known, users⟩ := noneDangling_iff.mp fine
  rw [noneDangling_iff]
  simp only [UsersKnown, users_dropAllRoles, exists_dropAllRoles, stored_dropAllRoles]
  constructor
  · rintro ⟨left, leftUsers⟩
    refine ⟨fun d member q listed => (leftUsers _ d (Records.find_of_mem member) q listed).2,
      fun d member other q listed => ?_⟩
    exact (left d.name q ⟨other, d, Records.find_of_mem member, listed⟩).2
  · rintro ⟨unusedUsers, unused⟩
    refine ⟨fun r q kept => ⟨known r q kept.2, ?_⟩, fun k d found q listed => ⟨users k d found q listed, ?_⟩⟩
    · obtain ⟨other, d, found, listed⟩ := kept
      exact unused d (Records.mem_of_find found) (name_of_findRole found ▸ other) q listed
    · exact unusedUsers d (Records.mem_of_find found) q listed

/-- What every command keeps: besides the references, no stored role hides behind a built-in one. -/
structure Referenced (s : AuthStore) : Prop where
  sound : RolesSound s
  users : UsersKnown s

theorem Referenced.noneDangling (held : Referenced s) : NoneDangling s :=
    noneDangling_iff.mpr ⟨held.sound.known, held.users⟩

theorem Referenced.step {c : AdminCommand} (held : Referenced s) (unused : Unreferenced s c)
    (ran : RunsAlone s c after) :
    Referenced after := by
  cases c with
  | single c =>
    have effect := effect_of_exec ran
    exact ⟨held.sound.step effect, held.users.step effect⟩
  | dropAllRolesFromDatabase db =>
    obtain rfl : after = s.dropAllRoles db := ran
    obtain ⟨known, users⟩ := noneDangling_iff.mp ((noneDangling_dropAllRoles held.noneDangling db).mpr unused)
    refine ⟨⟨known, fun r d found => ?_⟩, users⟩
    rw [find_dropAllRoles] at found
    split at found
    · cases found
    · exact held.sound.custom r d found

theorem RolesSound.exists_of_inherits (sound : RolesSound s) {r : Role} (edge : s.Inherits r q) : s.Exists q := by
  by_cases builtin : isBuiltinRoleOnDB r = true
  · rw [AuthStore.Inherits, inherits_builtin builtin] at edge
    cases edge
  · rw [AuthStore.Inherits, inherits_custom builtin] at edge
    split at edge
    next d found => exact sound.known r q ⟨d, found, (mem_filter.mp edge).1⟩
    next => cases edge

theorem exists_of_loadUserRoles (users : UsersKnown s) (u : UserName) (r : Role)
    (listed : r ∈ s.loadUserRoles u) : s.Exists r := by
  unfold AuthStore.loadUserRoles at listed
  split at listed
  next d found => exact users _ d found r (mem_filter.mp listed).1
  next => cases listed

theorem resolved_of_createRole {role : Role} {privileges roles : List Value} {restrictions : Option (List Value)}
    (held : Referenced s) (effect : Effect s (.createRole role privileges roles restrictions) after) (u : UserName) :
    after.resolved u = s.resolved u := by
  cases effect with
  | @createRole _ _ _ _ doc stored nonempty custom privileged granted named inserted =>
    have fresh : s.roles.find doc.name.id = none := Records.find_of_insert inserted
    have other {r : Role} (exists_ : s.Exists r) : stored.find r.id = s.roles.find r.id ∨
      isBuiltinRoleOnDB r = true := by
      rcases exists_ with builtin | found
      · exact .inr builtin
      · left
        rw [find_insertRole inserted, if_neg]
        rintro rfl
        rw [fresh] at found
        cases found
    have edges (r : Role) (exists_ : s.Exists r) :
        inherits (AuthStore.customRoleResolver { s with roles := stored }) r = inherits s.customRoleResolver r := by
      rcases other exists_ with same | builtin
      · simp only [inherits, AuthStore.customRoleResolver, same]
      · rw [inherits_builtin builtin, inherits_builtin builtin]
    have own (r : Role) (exists_ : s.Exists r) :
        ownPrivileges (AuthStore.customRoleResolver { s with roles := stored }) r
          = ownPrivileges s.customRoleResolver r := by
      rcases other exists_ with same | builtin
      · simp only [ownPrivileges, AuthStore.customRoleResolver, same]
      · simp [ownPrivileges, builtinRole, builtin]
    have closed (r : Role) (exists_ : s.Exists r) (q : Role)
      (edge : q ∈ inherits s.customRoleResolver r) : s.Exists q :=
      held.sound.exists_of_inherits edge
    have named : ∀ r ∈ s.loadUserRoles u, s.Exists r := exists_of_loadUserRoles held.users u
    have deeper : s.roleNames.card < AuthStore.depth { s with roles := stored } := by
      have longer := Records.length_insert inserted
      have enough := card_roleNames_lt_depth s
      unfold AuthStore.depth at enough ⊢
      dsimp only
      omega
    have visited := visitAll_congr (fun r _ => mem_roleNames_of_inherits r) closed edges named
      (card_roleNames_lt_depth s) deeper
    change (visitAll _ _ (s.loadUserRoles u)).flatMap _ = (visitAll _ _ (s.loadUserRoles u)).flatMap _
    rw [visited]
    refine flatMap_congr fun r member => own r ?_
    obtain ⟨start, named', path⟩ := (mem_roleRefClosure le_rfl).mp member
    induction path with
    | refl => exact named start named'
    | tail _ edge _ => exact held.sound.exists_of_inherits edge

/-- From nothing stored no reference dangles as long as the roles of a database are dropped together only when nothing
refers to them, and the first time that something does it dangles; until then a new role gives no user anything. -/
theorem references_until_dropAllRoles {commands : List AdminCommand}
    (run : Run (Guarded Unreferenced RunsAlone) nothingStored commands s) :
    NoneDangling s ∧ (∀ c after, RunsAlone s c after → (NoneDangling after ↔ Unreferenced s c)) ∧
      ∀ role privileges roles restrictions after,
        RunsAlone s (.single (.createRole role privileges roles restrictions)) after →
        ∀ u, after.resolved u = s.resolved u := by
  have held : Referenced s := by
    refine run.invariant Referenced ?_ fun s c t held ⟨unused, ran⟩ => held.step unused ran
    exact ⟨⟨fun _ _ ⟨_, found, _⟩ => (nomatch found), nofun⟩, nofun⟩
  refine ⟨held.noneDangling, fun c after ran => ?_, fun role privileges roles restrictions after ran u => ?_⟩
  · cases c with
    | single c => exact ⟨fun _ => trivial, fun unused => (held.step unused ran).noneDangling⟩
    | dropAllRolesFromDatabase db =>
      obtain rfl : after = s.dropAllRoles db := ran
      exact noneDangling_dropAllRoles held.noneDangling db
  · exact resolved_of_createRole held (effect_of_exec ran) u

def createAlice : Command :=
  .createUser alice [.document [(field "role", .string (field "clerk")), (field "db", .string (field "shop"))]]
    (some []) none none none none

def createReadingClerk : Command :=
  .createRole clerk [.document [(field "resource", .document [(field "db", .string (field "shop")),
    (field "collection", .string [])]), (field "actions", .array [.string (field "find")])]] [] none

def withClerk : AuthStore := (nothingStored.exec createClerk).2

def withAlice : AuthStore := (withClerk.exec createAlice).2

theorem run_withAlice : Run (Guarded Unreferenced RunsAlone) nothingStored [.single createClerk,
    .single createAlice] withAlice := by
  have first : Run (Guarded Unreferenced RunsAlone) nothingStored [.single createClerk] withClerk :=
    .snoc .nil ⟨trivial, rfl⟩
  exact first.snoc ⟨trivial, rfl⟩

theorem references_until_dropAllRoles_alice :
    NoneDangling withAlice ∧ (withAlice.exec createReadingClerk).1.toBool = false :=
  ⟨(references_until_dropAllRoles run_withAlice).1, rfl⟩

/-- The roles of the shop are dropped together, the user keeps its reference, and the next role of that name
is its own. -/
theorem dropAllRoles_leaves_reference :
    ∃ s, Run RunsAlone nothingStored [.single createClerk, .single createAlice,
      .dropAllRolesFromDatabase (field "shop")] s ∧
      ¬NoneDangling s ∧
      ∃ after, RunsAlone s (.single createReadingClerk) after ∧ s.resolved alice = [] ∧
        after.resolved alice = [⟨databaseResource (field "shop"), [field "find"]⟩] := by
  refine ⟨withAlice.dropAllRoles (field "shop"), run_withAlice.unguarded.snoc rfl, fun fine => ?_,
    ((withAlice.dropAllRoles (field "shop")).exec createReadingClerk).2, rfl, by decide +kernel, by decide +kernel⟩
  have dangles : ¬(withAlice.dropAllRoles (field "shop")).Exists clerk := by
    unfold AuthStore.Exists
    decide +kernel
  exact dangles (fine.users _ (.head _) clerk (.head _))

end DumboDB.Handler
