import DumboDB.Foundation.Generation
import DumboDB.Handler.ConcurrentEdits
import DumboDB.Handler.RoleReferences

/-!
The privileges that a connection caches, with every command that changes users and roles. The
generation is raised when a command succeeds: one that fails between two writes leaves the caches as
they were.
-/

namespace DumboDB.Handler

open Foundation ByteOrder DumboDB.Types Authz Search Generation
open Transition (Run Guarded)

/-- The storage calls with those that delete several documents by their ids. -/
inductive AdminCall where
  | store (call : StoreCall)
  | deleteRoles (ids : List Bytes)
  | deleteUsers (ids : List Bytes)

def AdminCall.Reply : AdminCall → Type
  | .store call => call.Reply
  | .deleteRoles _ => Nat
  | .deleteUsers _ => Nat

def AuthStore.handleAdmin : (call : AdminCall) → AuthStore → call.Reply × AuthStore
  | .store call, s => AuthStore.handle call s
  | .deleteRoles ids, s =>
    let roles := s.roles.deleteAll ids
    (s.roles.docs.length - roles.docs.length, { s with roles })
  | .deleteUsers ids, s =>
    let users := s.users.deleteAll ids
    (s.users.docs.length - users.docs.length, { s with users })

def StoreCall.takesEffect : (call : StoreCall) → call.Reply → Bool
  | .loadRole _, _ | .loadUser _, _ | .scanRoles, _ | .scanUsers, _ => false
  | .updateRoles _, _ | .updateUsers _, _ => true
  | .insertRole _, done => done
  | .insertUser _, done => done
  | .deleteRole _, done => done

def AdminCall.takesEffect : (call : AdminCall) → call.Reply → Bool
  | .store call, reply => call.takesEffect reply
  | .deleteRoles _, (deleted : Nat) => deleted ≠ 0
  | .deleteUsers _, (deleted : Nat) => deleted ≠ 0

abbrev AdminProg := Program UserAdminError AdminCall AdminCall.Reply

def Prog.admin {α : Type} : Prog α → AdminProg α
  | .done a => .done a
  | .fail e => .fail e
  | .call op next => .call (.store op) fun reply => Prog.admin (next reply)

def msgDropUser (user : UserName) : AdminProg Unit := do
  let deleted : Nat ← Program.perform (AdminCall.deleteUsers [user.id])
  if deleted = 0 then Program.fail (.userNotFound user) else pure ()

def msgDropAllUsersFromDatabase (db : Bytes) : AdminProg Unit := do
  let users ← Prog.admin scanUserDocs
  let ids := (users.filter fun d => d.name.db.name = db).map UserDoc.id
  if ids.isEmpty then pure ()
  else do
    let _ ← Program.perform (AdminCall.deleteUsers ids)
    pure ()

def msgDropAllRolesFromDatabase (db : Bytes) : AdminProg Unit := do
  let roles ← Prog.admin scanRoleDocs
  let ids := (roles.filter fun d => d.name.db.name = db).map RoleDoc.id
  if ids.isEmpty then pure ()
  else do
    let _ ← Program.perform (AdminCall.deleteRoles ids)
    pure ()

inductive AuthRequest where
  | command (depth : Nat) (c : Command)
  | dropUser (user : UserName)
  | dropAllUsersFromDatabase (db : Bytes)
  | dropAllRolesFromDatabase (db : Bytes)

def AuthRequest.program : AuthRequest → AdminProg Unit
  | .command depth c => Prog.admin (c.program depth)
  | .dropUser user => msgDropUser user
  | .dropAllUsersFromDatabase db => msgDropAllUsersFromDatabase db
  | .dropAllRolesFromDatabase db => msgDropAllRolesFromDatabase db

/-- The walk of `Resolve` over the roles that are stored when it comes to them. -/
def walkResolve : Nat → List Role × PrivilegeSet → Role → Prog (List Role × PrivilegeSet)
  | 0, walked, _ => pure walked
  | depth + 1, (seen, out), r =>
    if r ∈ seen then pure (seen, out)
    else
      match builtinRole r with
      | some ps => pure (seen ++ [r], out ++ ps)
      | none => do
        match ← loadRoleDoc r with
        | none => return (seen ++ [r], out)
        | some d =>
          (rolesFromArray d.roles).foldlM (walkResolve depth) (seen ++ [r], out ++ parseStoredPrivileges d.privileges)

/-- What `effectivePrivileges` loads when the cache does not serve. -/
def loadPrivileges (user : UserName) (depth : Nat) : Prog PrivilegeSet := do
  match ← loadUserDoc user with
  | none => return []
  | some d => do
    let (_, privs) ← (rolesFromArray d.roles).foldlM (walkResolve depth) ([], [])
    return privs

/-- `customRoleResolver` takes a role that it cannot load for one that is not there; `loadUserRoles` gives up. -/
def AdminCall.onFailure : (call : AdminCall) → Option call.Reply
  | .store (.loadRole _) => some (none : Option RoleDoc)
  | _ => none

def privilegeCache :
    Setting AuthStore UserName AuthRequest PrivilegeSet UserAdminError UserAdminError AdminCall AdminCall.Reply where
  handle := AuthStore.handleAdmin
  takesEffect := AdminCall.takesEffect
  load user depth := Prog.admin (loadPrivileges user depth)
  onFailure := AdminCall.onFailure
  nobody := []
  serve := AuthRequest.program

def AuthRequest.dropsRole : AuthRequest → Prop
  | .command _ (.dropRole _) => True
  | _ => False

open Program

section Alone
variable {s : AuthStore}

theorem run_admin {α : Type} (p : Prog α) : (Prog.admin p).run AuthStore.handleAdmin s
    = p.run AuthStore.handle s := by
  induction p generalizing s with
  | done | fail => rfl
  | call _ _ ih => exact ih _

/-- The roles walked so far with what each of them grants itself. -/
def AuthStore.gathered (s : AuthStore) (seen : List Role) : List Role × PrivilegeSet :=
  (seen, seen.flatMap (ownPrivileges s.customRoleResolver))

theorem run_walkAll {depth : Nat} (one : ∀ seen r, (walkResolve depth (s.gathered seen) r).run AuthStore.handle s =
      (.ok (s.gathered (visit (inherits s.customRoleResolver) depth seen r)), s)) (list seen : List Role) :
    (list.foldlM (walkResolve depth) (s.gathered seen)).run AuthStore.handle s =
      (.ok (s.gathered (list.foldl (visit (inherits s.customRoleResolver) depth) seen)), s) := by
  induction list generalizing seen with
  | nil => rfl
  | cons r list ih =>
    rw [List.foldlM_cons, run_bind, one]
    exact ih _

theorem run_walkResolve (depth : Nat) (seen : List Role) (r : Role) :
    (walkResolve depth (s.gathered seen) r).run AuthStore.handle s =
      (.ok (s.gathered (visit (inherits s.customRoleResolver) depth seen r)), s) := by
  induction depth generalizing seen r with
  | zero => rfl
  | succ depth ih =>
    unfold walkResolve visit AuthStore.gathered
    by_cases old : r ∈ seen
    · simp only [if_pos old]
      rfl
    rw [if_neg old, if_neg old]
    change _ = (Except.ok (s.gathered _), s)
    have grown : s.gathered (seen ++ [r]) =
        (seen ++ [r], (s.gathered seen).2 ++ ownPrivileges s.customRoleResolver r) := by simp [AuthStore.gathered]
    cases builtin : builtinRole r with
    | some ps =>
      have edges : inherits s.customRoleResolver r = [] := by simp [inherits, builtin]
      have own : ownPrivileges s.customRoleResolver r = ps := by simp [ownPrivileges, builtin]
      rw [edges, List.foldl_nil, grown, own]
      rfl
    | none =>
      rw [run_bind, run_loadRoleDoc]
      cases found : s.roles.find r.id with
      | none =>
        have edges : inherits s.customRoleResolver r = [] := by
          simp [inherits, builtin, AuthStore.customRoleResolver, found]
        have own : ownPrivileges s.customRoleResolver r = [] := by
          simp [ownPrivileges, builtin, AuthStore.customRoleResolver, found]
        rw [edges, List.foldl_nil, grown, own, List.append_nil]
        rfl
      | some d =>
        have edges : inherits s.customRoleResolver r = rolesFromArray d.roles := by
          simp [inherits, builtin, AuthStore.customRoleResolver, found]
        have own : ownPrivileges s.customRoleResolver r = parseStoredPrivileges d.privileges := by
          simp [ownPrivileges, builtin, AuthStore.customRoleResolver, found]
        have all := run_walkAll ih (rolesFromArray d.roles) (seen ++ [r])
        rw [grown, own] at all
        rw [edges]
        exact all

theorem run_loadPrivileges (user : UserName) :
    (loadPrivileges user s.depth).run AuthStore.handle s = (.ok (s.resolved user), s) := by
  unfold loadPrivileges AuthStore.resolved AuthStore.loadUserRoles
  rw [run_bind, run_loadUserDoc]
  cases s.users.find user.id with
  | none => rfl
  | some d =>
    dsimp only
    rw [run_bind]
    have all : ((rolesFromArray d.roles).foldlM (walkResolve s.depth) ([], [])).run AuthStore.handle s =
        (.ok (s.gathered (visitAll (inherits s.customRoleResolver) s.depth (rolesFromArray d.roles))), s) :=
      run_walkAll (run_walkResolve s.depth) (rolesFromArray d.roles) []
    rw [all]
    rfl

/-- A load that nothing disturbs ends, whatever cycles the roles have, leaves the store alone, and allows exactly what a
role of the user reaches. -/
theorem loaded_privileges_exact (user : UserName) :
    ∃ loaded, (privilegeCache.load user s.depth).run privilegeCache.handle s = (.ok loaded, s) ∧
      ∀ action target, loaded.authorized action target = true ↔ ∃ r ∈ s.loadUserRoles user,
        s.Reaches action target r :=
  ⟨s.resolved user, (run_admin _).trans (run_loadPrivileges user), fun _ _ => authorized_resolve⟩

end Alone

section WritesLast

abbrev Quiet {α : Type} (p : Prog α) : Prop := p.CallsOnly fun call => ∀ reply, call.takesEffect reply = false

theorem quiet_requireRoles (refs : List Role) : Quiet (requireRoles refs) := by
  induction refs with
  | nil => trivial
  | cons r refs ih =>
    refine callsOnly_bind ?_ fun found => ?_
    · unfold roleExists
      split
      · trivial
      · exact ⟨fun _ => rfl, fun _ => trivial⟩
    · split
      · exact ih
      · trivial

theorem quiet_normalizeInheritedRoles (roles : List Value) (db : DatabaseName) :
    Quiet (normalizeInheritedRoles roles db) :=
  callsOnly_bind (callsOnly_lift _) fun refs => callsOnly_bind (quiet_requireRoles refs) fun _ => trivial

theorem quiet_updatedRoles (stored : List Role) (db : DatabaseName) (roles : Option (List Value)) :
    Quiet (updatedRoles stored db roles) := by
  cases roles with
  | none => trivial
  | some roles => exact quiet_normalizeInheritedRoles roles db

theorem quiet_updatedPrivileges (stored : List StoredPrivilege) (db : DatabaseName)
    (privileges : Option (List Value)) :
    Quiet (updatedPrivileges stored db privileges) := by
  cases privileges with
  | none => trivial
  | some => exact callsOnly_lift _

theorem quiet_walkRefs (depth : Nat) (seen : List Role) (r : Role) : Quiet (walkRefs depth seen r) := by
  induction depth generalizing seen r with
  | zero => trivial
  | succ depth ih =>
    unfold walkRefs
    split
    · trivial
    · split
      · trivial
      · refine callsOnly_bind ⟨fun _ => rfl, fun _ => trivial⟩ fun found => ?_
        split
        · trivial
        · exact callsOnly_foldlM (fun seen r _ => ih seen r) _

theorem writesLast_modifyRole {target : Role} {change : RoleDoc → Prog RoleDoc} (quiet : ∀ doc, Quiet (change doc)) :
    (modifyRole target change).WritesLast StoreCall.takesEffect := by
  refine writesLast_bind ⟨fun _ => rfl, fun _ => trivial⟩ fun stored => ?_
  cases stored with
  | none => trivial
  | some doc => exact writesLast_bind (quiet doc) fun changed reply => ⟨(), rfl⟩

theorem writesLast_modifyUser {user : UserName} {change : UserDoc → Prog UserDoc}
    (quiet : ∀ doc, Quiet (change doc)) :
    (modifyUser user change).WritesLast StoreCall.takesEffect := by
  refine writesLast_bind ⟨fun _ => rfl, fun _ => trivial⟩ fun stored => ?_
  cases stored with
  | none => trivial
  | some doc => exact writesLast_bind (quiet doc) fun changed reply => ⟨(), rfl⟩

theorem writesLast_insertRole (d : RoleDoc) (refused : UserAdminError) :
    (insertRoleDoc d >>= fun done => if done then pure
      () else Program.fail refused).WritesLast StoreCall.takesEffect := by
  intro reply
  cases reply with
  | false => trivial
  | true => exact ⟨(), rfl⟩

theorem writesLast_insertUser (d : UserDoc) (refused : UserAdminError) :
    (insertUserDoc d >>= fun done => if done then pure
      () else Program.fail refused).WritesLast StoreCall.takesEffect := by
  intro reply
  cases reply with
  | false => trivial
  | true => exact ⟨(), rfl⟩

theorem writesLast_createUser (user : UserName) (roles : List Value) (credentials : Option Document)
    (mechanisms : Option (List Value)) (customData commitIdentity : Option Document)
    (restrictions : Option (List Value)) :
    (msgCreateUser user roles credentials mechanisms customData commitIdentity restrictions).WritesLast
      StoreCall.takesEffect := by
  unfold msgCreateUser
  split
  · trivial
  split
  · trivial
  split
  · trivial
  refine writesLast_bind (callsOnly_lift _) fun refs => writesLast_bind (quiet_requireRoles refs) fun _ => ?_
  split
  · trivial
  · exact writesLast_bind (callsOnly_lift _) fun _ => writesLast_insertUser _ _

theorem writesLast_updateUser (user : UserName) (change : UserChange) :
    (msgUpdateUser user change).WritesLast StoreCall.takesEffect := by
  refine writesLast_bind (callsOnly_lift _) fun _ => writesLast_bind ⟨fun _ => rfl, fun _ => trivial⟩ fun docs => ?_
  split
  · trivial
  · refine writesLast_bind (callsOnly_lift _) fun _ => writesLast_bind (quiet_updatedRoles _ _ _) fun _ => ?_
    split
    · trivial
    · exact fun reply => ⟨(), rfl⟩

theorem writesLast_createRole (role : Role) (privileges roles : List Value) (restrictions : Option (List Value)) :
    (msgCreateRole role privileges roles restrictions).WritesLast StoreCall.takesEffect := by
  unfold msgCreateRole
  split
  · trivial
  split
  · trivial
  refine writesLast_bind (callsOnly_lift _) fun _ => writesLast_bind (quiet_normalizeInheritedRoles _ _) fun _ => ?_
  exact writesLast_insertRole _ _

theorem writesLast_program {c : Command} (other : ∀ role, c ≠ .dropRole role) (depth : Nat) :
    (c.program depth).WritesLast StoreCall.takesEffect := by
  cases c with
  | createUser => exact writesLast_createUser ..
  | updateUser => exact writesLast_updateUser ..
  | grantRolesToUser =>
    exact writesLast_bind (callsOnly_lift _) fun refs =>
      writesLast_modifyUser fun doc => callsOnly_bind (quiet_requireRoles refs) fun _ => trivial
  | revokeRolesFromUser => exact writesLast_bind (callsOnly_lift _) fun _ => writesLast_modifyUser fun _ => trivial
  | createRole => exact writesLast_createRole ..
  | updateRole =>
    exact writesLast_modifyRole fun stored => callsOnly_bind (quiet_updatedPrivileges ..) fun _ =>
      callsOnly_bind (quiet_updatedRoles ..) fun _ => trivial
  | grantRolesToRole =>
    refine writesLast_bind (quiet_normalizeInheritedRoles _ _) fun refs =>
      writesLast_bind (callsOnly_foldlM (fun seen r _ => quiet_walkRefs depth seen r) _) fun _ => ?_
    split
    · trivial
    · exact writesLast_modifyRole fun _ => trivial
  | revokeRolesFromRole
  | grantPrivilegesToRole => exact writesLast_bind (callsOnly_lift _) fun _ => writesLast_modifyRole fun _ => trivial
  | revokePrivilegesFromRole =>
    exact writesLast_modifyRole fun _ => callsOnly_bind (callsOnly_lift _) fun _ => trivial
  | dropRole role => exact absurd rfl (other role)

theorem writesLast_admin {α : Type} {p : Prog α} (last : p.WritesLast StoreCall.takesEffect) :
    (Prog.admin p).WritesLast AdminCall.takesEffect := by
  induction p with
  | done | fail => trivial
  | call op next ih =>
    intro reply
    have here := last reply
    change if op.takesEffect reply then _ else _
    split
    next effect =>
      rw [if_pos effect] at here
      obtain ⟨a, over_⟩ := here
      exact ⟨a, congrArg Prog.admin over_⟩
    next effect =>
      rw [if_neg effect] at here
      exact ih reply here

theorem writesLast_request {request : AuthRequest} (other : ¬request.dropsRole) :
    request.program.WritesLast AdminCall.takesEffect := by
  cases request with
  | command depth c =>
    refine writesLast_admin (writesLast_program (fun role same => ?_) depth)
    subst same
    exact other trivial
  | dropUser user =>
    rintro (reply : Nat)
    by_cases none_ : reply = 0
    · subst none_
      trivial
    · have effect : AdminCall.takesEffect (.deleteUsers [user.id]) reply
        = true := by simpa [AdminCall.takesEffect] using none_
      rw [if_pos effect]
      exact ⟨(), if_neg none_⟩
  | dropAllUsersFromDatabase db | dropAllRolesFromDatabase db =>
    intro _
    change (if _ then _ else _ : AdminProg Unit).WritesLast _
    split
    · trivial
    · intro reply
      split
      · exact ⟨(), rfl⟩
      · trivial

end WritesLast

/-- No command is authorized on privileges that were read before the last write of a command which had returned, as long
as no role is dropped halfway. -/
theorem privileges_fresh {store : AuthStore} {events : List (Event UserName AuthRequest)}
    {s : State AuthStore UserName AuthRequest PrivilegeSet UserAdminError UserAdminError AdminCall AdminCall.Reply}
    (run : Run (Guarded (RiskySettles AuthRequest.dropsRole) (Generation.Step privilegeCache))
    (State.initial store) events s) : Fresh s :=
  fresh_of_risky_run (fun _ other => writesLast_request other) run

def readingAlice : AuthStore := ((nothingStored.exec createReadingClerk).2.exec createAlice).2

abbrev AuthState :=
  State AuthStore UserName AuthRequest PrivilegeSet UserAdminError UserAdminError AdminCall AdminCall.Reply

/-- The user's connection computes its privileges for the first time. -/
def firstUse : List (Event UserName AuthRequest) :=
  [.setUser 0 (some alice), .start 0 0 2, .readGeneration 0, .lookAtCache 0, .load 0, .load 0, .storeCache 0]

/-- The role is deleted, and the search for those who hold it fails. -/
def halfDrop : List (Event UserName AuthRequest) := [.begin 0 (.command 2 (.dropRole clerk)), .call 0, .callFails 0]

def secondUse : List (Event UserName AuthRequest) := [.start 1 0 2, .readGeneration 1, .lookAtCache 1]

/-- What a reader has answered, with the moments of its reads. -/
def answerOf (s : AuthState) (reader : Nat) : Option (Nat × PrivilegeSet × List Nat) :=
  (s.readers reader).bind fun r =>
    match r.phase with
    | .answered value reads => some (r.started, value, reads)
    | _ => none

def writesOf (s : AuthState) (writer : Nat) : Option (Option Nat × Option Nat) :=
  (s.writers writer).map fun w => (w.lastWrite, w.returned)

theorem reader_of_answerOf {s : AuthState} {reader started : Nat} {value : PrivilegeSet} {reads : List Nat}
    (answer : answerOf s reader = some (started, value, reads)) :
    ∃ r, s.readers reader = some r ∧ r.started = started ∧ r.phase = .answered value reads := by
  obtain ⟨r, found, answered⟩ := Option.bind_eq_some_iff.mp answer
  split at answered
  next value reads phase =>
    cases answered
    exact ⟨r, found, rfl, phase⟩
  next => cases answered

/-- The role loses its privilege, and then the connection computes them again. -/
def revokes : List (Event UserName AuthRequest) :=
  [.begin 0 (.command 2 (.revokePrivilegesFromRole clerk [.document [(field "resource", .document
    [(field "db", .string (field "shop")), (field "collection", .string [])]),
      (field "actions", .array [.string (field "find")])]])), .call 0, .call 0]

def thirdUse : List (Event UserName AuthRequest) :=
  [.start 1 0 2, .readGeneration 1, .lookAtCache 1, .load 1, .load 1, .storeCache 1]

/-- No failure, and no change of the generation. -/
def settled : Event UserName AuthRequest → Bool
  | .callFails _ | .refuse _ | .bump _ => false
  | _ => true

/-- The command has returned at 10, and the reader that starts then answers with what it left. -/
theorem privileges_fresh_revoked : ∃ s : AuthState,
    Run (Guarded (RiskySettles AuthRequest.dropsRole) (Generation.Step privilegeCache)) (State.initial readingAlice)
      (firstUse ++ revokes ++ [.bump 0] ++ thirdUse) s ∧ writesOf s 0 = some (some 9, some 10) ∧
        (answerOf s 1).map (fun answer => answer.2.1) = some [] ∧ Fresh s := by
  obtain ⟨s, before, small, t, raised, u, after, writes, answered⟩ :
      ∃ s, execute privilegeCache (State.initial readingAlice) (firstUse ++ revokes) = some s ∧
        s.gen.toNat + 1 < 2 ^ 64 ∧ ∃ t, Generation.next privilegeCache s (.bump 0) = some t ∧
          ∃ u, execute privilegeCache t thirdUse = some u ∧ writesOf u 0 = some (some 9, some 10) ∧
            (answerOf u 1).map (fun answer => answer.2.1) = some [] := by decide +kernel
  have calm : ∀ e ∈ firstUse ++ revokes ++ thirdUse, settled e = true := by
    simp [firstUse, revokes, thirdUse, settled]
  have plain (s : AuthState) (e : Event UserName AuthRequest) (listed : e ∈ firstUse ++ revokes ++ thirdUse) :
      RiskySettles AuthRequest.dropsRole s e := by
    have settles := calm e listed
    cases e <;> trivial
  have raise : Guarded (RiskySettles AuthRequest.dropsRole) (Generation.Step privilegeCache) s (.bump 0) t :=
    ⟨small, raised⟩
  have read := guarded_of_execute before fun s e member => plain s e (List.mem_append_left _ member)
  have run := (read.snoc raise).trans (guarded_of_execute after
    fun s e member => plain s e (List.mem_append_right _ member))
  exact ⟨u, run, writes, answered, privileges_fresh run⟩

/-- The role is gone, the command that dropped it has returned with an error, and the connection goes on with what the
role had granted. -/
theorem halfDrop_keeps_privileges : ∃ s : AuthState,
    Run (Generation.Step privilegeCache) (State.initial readingAlice)
      (firstUse ++ halfDrop ++ secondUse) s ∧ ¬Fresh s ∧
      (answerOf s 1).map (fun answer => answer.2.1) = some [⟨databaseResource (field "shop"), [field "find"]⟩] ∧
      s.store.effectivePrivileges alice = [] := by
  obtain ⟨s, done, answer, writes, resolved⟩ : ∃ s, execute privilegeCache (State.initial readingAlice)
      (firstUse ++ halfDrop ++ secondUse) = some s ∧
        answerOf s 1 = some (10, [⟨databaseResource (field "shop"), [field "find"]⟩], [4, 5]) ∧
        writesOf s 0 = some (some 8, some 9) ∧ s.store.effectivePrivileges alice = [] := by decide +kernel
  refine ⟨s, run_of_execute done, fun fresh => ?_, by rw [answer]; rfl, resolved⟩
  obtain ⟨r, found, _, phase⟩ := reader_of_answerOf answer
  obtain ⟨w, writer, both⟩ := Option.map_eq_some_iff.mp writes
  obtain ⟨wrote, back⟩ := Prod.mk.inj both
  have late := fresh 1 r _ _ found phase 0 w 9 8 writer back (by omega) wrote 4 (.head _)
  omega

end DumboDB.Handler
