import DumboDB.Foundation.Serial
import DumboDB.Handler.UserAdmin
import Mathlib.Data.Fintype.Card

/-!
User and role commands that run at the same time. Every command loads whole documents, changes them
in memory and writes them back, and nothing keeps another command from writing in between.
-/

namespace DumboDB.Handler

open Foundation ByteOrder DumboDB.Types Authz Search Serial Program List
open Transition (Run Guarded)

def StoreCall.writes : StoreCall → Bool
  | .loadRole _ | .loadUser _ | .scanRoles | .scanUsers => false
  | .insertRole _ | .insertUser _ | .updateRoles _ | .updateUsers _ | .deleteRole _ => true

theorem handle_quiet (call : StoreCall) (s : AuthStore) (reads : call.writes = false) :
    (AuthStore.handle call s).2 = s := by
  cases call with
  | loadRole | loadUser | scanRoles | scanUsers => rfl
  | insertRole | insertUser | updateRoles | updateUsers | deleteRole => cases reads

def Command.edits : Command → Bool
  | .createUser .. | .createRole .. => false
  | _ => true

variable {s after : AuthStore} {c : Command} {depth : Nat} {action : Action} {key : Bytes}
  {existing : List StoredPrivilege} {commands : List Command}

section Programs

theorem mustWrite_modifyUser (user : UserName) (change : UserDoc → Prog UserDoc) :
    (modifyUser user change).MustWrite StoreCall.writes := by
  refine mustWrite_bind fun stored => ?_
  cases stored with
  | none => trivial
  | some _ => exact mustWrite_bind fun _ => .inl rfl

theorem mustWrite_modifyRole (role : Role) (change : RoleDoc → Prog RoleDoc) :
    (modifyRole role change).MustWrite StoreCall.writes := by
  refine mustWrite_bind fun stored => ?_
  cases stored with
  | none => trivial
  | some _ => exact mustWrite_bind fun _ => .inl rfl

theorem mustWrite_updateUser (user : UserName) (change : UserChange) :
    (msgUpdateUser user change).MustWrite StoreCall.writes := by
  refine mustWrite_bind fun _ => mustWrite_bind fun docs => ?_
  split
  · trivial
  · refine mustWrite_bind fun _ => mustWrite_bind fun _ => ?_
    split
    · trivial
    · exact .inl rfl

theorem mustWrite_dropRole (role : Role) : (msgDropRole role).MustWrite StoreCall.writes := by
  unfold msgDropRole
  split
  · trivial
  · exact .inl rfl

theorem mustWrite_program (edits : c.edits = true) (depth : Nat) : (c.program depth).MustWrite StoreCall.writes := by
  cases c with
  | createUser | createRole => cases edits
  | updateUser user change => exact mustWrite_updateUser user change
  | grantRolesToUser | revokeRolesFromUser => exact mustWrite_bind fun _ => mustWrite_modifyUser _ _
  | updateRole | revokePrivilegesFromRole => exact mustWrite_modifyRole _ _
  | grantRolesToRole =>
    refine mustWrite_bind fun _ => mustWrite_bind fun _ => ?_
    split
    · trivial
    · exact mustWrite_modifyRole _ _
  | revokeRolesFromRole | grantPrivilegesToRole => exact mustWrite_bind fun _ => mustWrite_modifyRole _ _
  | dropRole role => exact mustWrite_dropRole role

theorem run_program (enough : s.depth ≤ depth) (c : Command) :
    (c.program depth).run AuthStore.handle s = s.exec c := by
  cases c with
  | grantRolesToRole role roles =>
    change (msgGrantRolesToRole depth role roles).run _ s = (msgGrantRolesToRole s.depth role roles).run _ s
    unfold msgGrantRolesToRole
    rw [run_bind, run_bind]
    split
    next refs _ inherited =>
      obtain ⟨rfl, -, -⟩ := run_normalizeInheritedRoles_ok inherited
      have same : role ∈ visitAll (inherits s.customRoleResolver) depth (rolesFromArray refs) ↔
          role ∈ visitAll (inherits s.customRoleResolver) s.depth (rolesFromArray refs) :=
        (mem_roleRefClosure enough).trans (mem_roleRefClosure le_rfl).symm
      rw [run_bind, run_bind, run_roleRefClosure, run_roleRefClosure]
      by_cases cycle : role ∈ visitAll (inherits s.customRoleResolver) depth (rolesFromArray refs)
      · simp only [if_pos cycle, if_pos (same.mp cycle)]
      · simp only [if_neg cycle, if_neg (mt same.mpr cycle)]
    next => rfl
  | _ => rfl

end Programs

theorem depth_le_of_effect (edits : c.edits = true) (effect : Effect s c after) : after.depth ≤ s.depth := by
  have updated (records : Records RoleDoc.id) (docs : List RoleDoc) :
    (records.update docs).docs.length = records.docs.length :=
    length_map _
  cases effect with
  | createUser | createRole => cases edits
  | updateUser | grantRolesToUser | revokeRolesFromUser => exact le_rfl
  | updateRole | grantRolesToRole | revokeRolesFromRole | grantPrivilegesToRole | revokePrivilegesFromRole =>
    exact (congrArg (· + 1) (updated _ _)).le
  | dropRole =>
    refine Nat.succ_le_succ ((updated _ _).le.trans ?_)
    exact length_filter_le _ _

/-- What a user or a role holds: a role, or an action on the resources with one key. -/
inductive Holding where
  | userRole (user : UserName) (r : Role)
  | roleRole (role r : Role)
  | privilege (role : Role) (key : Bytes) (action : Action)

def listsAction (privileges : List StoredPrivilege) (key : Bytes) (action : Action) : Prop :=
  ∃ p ∈ privileges, resourceKey p.resource = key ∧ action ∈ p.actions

def AuthStore.Holds (s : AuthStore) : Holding → Prop
  | .userRole user r => ∃ d, s.users.find user.id = some d ∧ r ∈ d.roles
  | .roleRole role r => ∃ d, s.roles.find role.id = some d ∧ r ∈ d.roles
  | .privilege role key action => ∃ d, s.roles.find role.id = some d ∧ listsAction d.privileges key action

def privilegesOf (privileges : List Value) (db : DatabaseName) : List StoredPrivilege :=
  match normalizePrivileges privileges db with
  | .ok stored => stored
  | .error _ => []

def Command.grants : Command → Holding → Prop
  | .updateUser user change, .userRole u r => user = u ∧ r ∈ refsOf (change.roles.getD []) user.db
  | .grantRolesToUser user roles, .userRole u r => user = u ∧ r ∈ refsOf roles user.db
  | .updateRole role _ roles _, .roleRole t r => role = t ∧ r ∈ refsOf (roles.getD []) role.db
  | .grantRolesToRole role roles, .roleRole t r => role = t ∧ r ∈ refsOf roles role.db
  | .updateRole role privileges _ _, .privilege t key action =>
    role = t ∧ listsAction (privilegesOf (privileges.getD []) role.db) key action
  | .grantPrivilegesToRole role privileges, .privilege t key action =>
    role = t ∧ listsAction (privilegesOf privileges role.db) key action
  | _, _ => False

def Command.revokes : Command → Holding → Prop
  | .revokeRolesFromUser user roles, .userRole u r => user = u ∧ r ∈ refsOf roles user.db
  | .revokeRolesFromRole role roles, .roleRole t r => role = t ∧ r ∈ refsOf roles role.db
  | .revokePrivilegesFromRole role privileges, .privilege t key action => role = t ∧ ∃ remove entry,
      privileges.mapM revokedEntry = .ok remove ∧
        (remove.reverse.find? fun e => e.1 = key) = some entry ∧ action ∈ entry.2
  | _, _ => False

theorem listsAction_privilegesOf {privileges : List Value} {db : DatabaseName}
    {stored : List StoredPrivilege} (normalized : normalizePrivileges privileges db = .ok stored)
    (lists : listsAction stored key action) :
    listsAction (privilegesOf privileges db) key action := by
  unfold privilegesOf
  rw [normalized]
  exact lists

theorem listsAction_unionPrivileges {adds : List StoredPrivilege}
    (lists : listsAction (unionPrivileges existing adds) key action) :
    listsAction existing key action ∨ listsAction adds key action := by
  -- merging one privilege adds the actions of that privilege, under its own key
  have merged (add : StoredPrivilege) (existing : List StoredPrivilege)
      (lists : listsAction (mergePrivilege add existing) key action) :
      listsAction existing key action ∨ resourceKey add.resource = key ∧ action ∈ add.actions := by
    induction existing with
    | nil =>
      obtain ⟨p, member, keyed, listed⟩ := lists
      cases mem_singleton.mp member
      exact .inr ⟨keyed, listed⟩
    | cons e existing ih =>
      unfold mergePrivilege at lists
      split at lists
      next same =>
        obtain ⟨p, member, keyed, listed⟩ := lists
        rcases mem_cons.mp member with rfl | later
        · rcases mem_union.mp listed with old | new
          · exact .inl ⟨e, .head _, keyed, old⟩
          · exact .inr ⟨same.symm.trans keyed, new⟩
        · exact .inl ⟨p, .tail _ later, keyed, listed⟩
      next =>
        obtain ⟨p, member, keyed, listed⟩ := lists
        rcases mem_cons.mp member with rfl | later
        · exact .inl ⟨p, .head _, keyed, listed⟩
        · rcases ih ⟨p, later, keyed, listed⟩ with ⟨old, inside, found⟩ | new
          · exact .inl ⟨old, .tail _ inside, found⟩
          · exact .inr new
  induction adds generalizing existing with
  | nil => exact .inl lists
  | cons add adds ih =>
    rcases ih lists with early | ⟨p, member, found⟩
    · rcases merged add existing early with old | new
      · exact .inl old
      · exact .inr ⟨add, .head _, new⟩
    · exact .inr ⟨p, .tail _ member, found⟩

theorem listsAction_of_revoked {remove : List (Bytes × List Action)}
    (lists : listsAction (revokePrivileges existing remove) key action) :
    listsAction existing key action ∧ ∀ entry, (remove.reverse.find? fun e => e.1 = key) = some entry →
      action ∉ entry.2 := by
  obtain ⟨p, member, keyed, listed⟩ := lists
  obtain ⟨old, inside, kept⟩ := mem_filterMap.mp member
  split at kept
  next none_ =>
    cases kept
    rw [keyed] at none_
    exact ⟨⟨p, inside, keyed, listed⟩, fun entry found => nomatch none_.symm.trans found⟩
  next entry found =>
    dsimp only at kept
    split at kept
    · cases kept
    · cases kept
      obtain ⟨before, left⟩ := mem_filter.mp listed
      refine ⟨⟨old, inside, keyed, before⟩, fun other same => ?_⟩
      rw [keyed] at found
      cases found.symm.trans same
      simpa using left

section Holdings
variable {holding : Holding} {changed doc : UserDoc} {user : UserName} {role : Role}

theorem holds_of_user_replaced (found : s.users.find user.id = some doc)
    (holds : AuthStore.Holds { s with users := s.users.update [changed] } holding) (kept : changed.name = doc.name)
    (roles : ∀ r ∈ changed.roles, r ∈ doc.roles ∨ c.grants (.userRole user r)) : s.Holds holding ∨
    c.grants holding := by
  cases holding with
  | roleRole | privilege => exact .inl holds
  | userRole u r =>
    obtain ⟨d, stored, listed⟩ := holds
    rw [Records.find_update_single found (congrArg Role.id kept)] at stored
    split at stored
    next same =>
      cases stored
      obtain rfl := Role.id_injective same
      rcases roles r listed with old | new
      · exact .inl ⟨doc, found, old⟩
      · exact .inr new
    next => exact .inl ⟨d, stored, listed⟩

theorem holds_of_role_replaced {doc changed : RoleDoc} (found : s.roles.find role.id = some doc)
    (holds : AuthStore.Holds { s with roles := s.roles.update [changed] } holding) (kept : changed.name = doc.name)
    (roles : ∀ r ∈ changed.roles, r ∈ doc.roles ∨ c.grants (.roleRole role r))
    (privileges : ∀ key action, listsAction changed.privileges key action →
      listsAction doc.privileges key action ∨ c.grants (.privilege role key action)) :
    s.Holds holding ∨ c.grants holding := by
  have replaced (t : Role) (d : RoleDoc) (stored : (s.roles.update [changed]).find t.id = some d) :
      t = role ∧ d = changed ∨ s.roles.find t.id = some d := by
    rw [find_updateRole found kept] at stored
    split at stored
    next same => exact .inl ⟨same, (Option.some.inj stored).symm⟩
    next => exact .inr stored
  cases holding with
  | userRole => exact .inl holds
  | roleRole t r =>
    obtain ⟨d, stored, listed⟩ := holds
    rcases replaced t d stored with ⟨rfl, rfl⟩ | old
    · rcases roles r listed with old | new
      · exact .inl ⟨doc, found, old⟩
      · exact .inr new
    · exact .inl ⟨d, old, listed⟩
  | privilege t key action =>
    obtain ⟨d, stored, lists⟩ := holds
    rcases replaced t d stored with ⟨rfl, rfl⟩ | old
    · rcases privileges key action lists with old | new
      · exact .inl ⟨doc, found, old⟩
      · exact .inr new
    · exact .inl ⟨d, old, lists⟩

theorem holds_of_dropped (holds : (s.dropped role).Holds holding) : s.Holds holding := by
  have roleDoc (t : Role) (d : RoleDoc) (stored : (s.dropped role).roles.find t.id = some d) :
      ∃ old, s.roles.find t.id = some old ∧ d = { old with roles := removeRoles old.roles [role] } := by
    rw [find_droppedRole] at stored
    split at stored
    · cases stored
    · obtain ⟨old, found, rfl⟩ := Option.map_eq_some_iff.mp stored
      exact ⟨old, found, rfl⟩
  cases holding with
  | userRole u r =>
    obtain ⟨d, stored, listed⟩ := holds
    have stored : (s.users.update (changedUserDocs role s.users.docs)).find u.id = some d := stored
    rw [find_changedUserDocs] at stored
    obtain ⟨old, found, rfl⟩ := Option.map_eq_some_iff.mp stored
    exact ⟨old, found, (mem_filter.mp listed).1⟩
  | roleRole t r =>
    obtain ⟨d, stored, listed⟩ := holds
    obtain ⟨old, found, rfl⟩ := roleDoc t d stored
    exact ⟨old, found, (mem_filter.mp listed).1⟩
  | privilege t _ _ =>
    obtain ⟨d, stored, lists⟩ := holds
    obtain ⟨old, found, rfl⟩ := roleDoc t d stored
    exact ⟨old, found, lists⟩

theorem holds_of_effect (edits : c.edits = true) (effect : Effect s c after) (holds : after.Holds holding) :
    s.Holds holding ∨ c.grants holding := by
  cases effect with
  | createUser | createRole => cases edits
  | dropRole => exact .inl (holds_of_dropped holds)
  | @updateUser user change doc changed found named kept replaced =>
    refine holds_of_user_replaced found holds (named.trans (name_of_findUser found).symm) fun r listed => ?_
    cases roles : change.roles with
    | none => exact .inl (kept roles ▸ listed)
    | some given =>
      refine .inr ⟨rfl, ?_⟩
      rw [roles]
      exact mem_refsOf (replaced given roles).normalized listed
  | @grantRolesToUser user _ refs doc given found =>
    refine holds_of_user_replaced found holds rfl fun r listed => ?_
    rcases mem_union.mp listed with old | new
    · exact .inl old
    · exact .inr ⟨rfl, mem_refsOf given.normalized new⟩
  | revokeRolesFromUser _ found =>
    exact holds_of_user_replaced found holds rfl fun r listed => .inl (mem_filter.mp listed).1
  | @updateRole role privileges roles _ doc changed found named privilegesKept privileged rolesKept granted =>
    have same := kept_of_named found named
    refine holds_of_role_replaced found holds same (fun r listed => ?_) fun key action lists => ?_
    · cases roles with
      | none => exact .inl (rolesKept rfl ▸ listed)
      | some given => exact .inr ⟨rfl, mem_refsOf (granted given rfl).normalized listed⟩
    · cases privileges with
      | none => exact .inl (privilegesKept rfl ▸ lists)
      | some given => exact .inr ⟨rfl, listsAction_privilegesOf (privileged given rfl) lists⟩
  | grantRolesToRole given _ found =>
    refine holds_of_role_replaced found holds rfl (fun r listed => ?_) fun _ _ => .inl
    rcases mem_union.mp listed with old | new
    · exact .inl old
    · exact .inr ⟨rfl, mem_refsOf given.normalized new⟩
  | revokeRolesFromRole _ found =>
    exact holds_of_role_replaced found holds rfl (fun r listed => .inl (mem_filter.mp listed).1) fun _ _ => .inl
  | grantPrivilegesToRole privileged found =>
    refine holds_of_role_replaced found holds rfl (fun _ => .inl) fun key action lists => ?_
    rcases listsAction_unionPrivileges lists with old | new
    · exact .inl old
    · exact .inr ⟨rfl, listsAction_privilegesOf privileged new⟩
  | revokePrivilegesFromRole _ found =>
    exact holds_of_role_replaced found holds rfl (fun _ => .inl)
      fun key action lists => .inl (listsAction_of_revoked lists).1

theorem eq_of_user_replaced {d : UserDoc} (found : s.users.find user.id = some doc)
    (stored : (s.users.update [changed]).find user.id = some d) (kept : changed.name = doc.name) : d = changed := by
  rw [Records.find_update_single found (congrArg Role.id kept), if_pos rfl] at stored
  exact (Option.some.inj stored).symm

theorem eq_of_role_replaced {doc changed d : RoleDoc} (found : s.roles.find role.id = some doc)
    (stored : (s.roles.update [changed]).find role.id = some d) (kept : changed.name = doc.name) : d = changed := by
  rw [find_updateRole found kept, if_pos rfl] at stored
  exact (Option.some.inj stored).symm

theorem not_holds_of_revokes (effect : Effect s c after) (revokes : c.revokes holding) : ¬after.Holds holding := by
  intro holds
  cases effect with
  | @revokeRolesFromUser user roles refs doc normalized found =>
    cases holding with
    | roleRole | privilege => exact revokes
    | userRole u r =>
      obtain ⟨rfl, named⟩ := revokes
      obtain ⟨d, stored, listed⟩ := holds
      obtain rfl := eq_of_user_replaced found stored rfl
      have removed : r ∈ refs := by simpa [refsOf, normalized] using named
      exact absurd removed (by simpa using (mem_filter.mp listed).2)
  | @revokeRolesFromRole role roles refs doc normalized found =>
    cases holding with
    | userRole | privilege => exact revokes
    | roleRole t r =>
      obtain ⟨rfl, named⟩ := revokes
      obtain ⟨d, stored, listed⟩ := holds
      obtain rfl := eq_of_role_replaced found stored rfl
      have removed : r ∈ refs := by simpa [refsOf, normalized] using named
      exact absurd removed (by simpa using (mem_filter.mp listed).2)
  | @revokePrivilegesFromRole role privileges remove doc read found =>
    cases holding with
    | userRole | roleRole => exact revokes
    | privilege t _ _ =>
      obtain ⟨rfl, _, entry, again, last, named⟩ := revokes
      cases read.symm.trans again
      obtain ⟨d, stored, lists⟩ := holds
      obtain rfl := eq_of_role_replaced found stored rfl
      exact (listsAction_of_revoked lists).2 entry last named
  | _ => exact revokes

theorem not_holds_of_run (run : Run Succeeds s commands after)
    (edits : ∀ c ∈ commands, c.edits = true) (none_ : ∀ c ∈ commands, ¬c.grants holding) (lacks : ¬s.Holds holding) :
    ¬after.Holds holding := by
  have held := run.rule (fun events t => (∀ c ∈ events, c.edits = true ∧ ¬c.grants holding) → ¬t.Holds holding)
    (fun _ => lacks) ?_
  · exact held fun c member => ⟨edits c member, none_ c member⟩
  · intro events s c t held ran quiet holds
    obtain ⟨editing, grantless⟩ := quiet c (mem_append_right _ (.head _))
    rcases holds_of_effect editing (effect_of_exec ran) holds with before | granted
    · exact held (fun c member => quiet c (mem_append_left _ member)) before
    · exact grantless granted

theorem not_holds_of_revoked {before behind : List Command} (run : Run Succeeds s (before ++ c :: behind) after)
    (edits : ∀ c ∈ behind, c.edits = true) (revokes : c.revokes holding) (none_ : ∀ c ∈ behind, ¬c.grants holding) :
    ¬after.Holds holding := by
  rw [append_cons] at run
  obtain ⟨_, first, rest⟩ := run.split_append
  refine not_holds_of_run rest edits none_ ?_
  generalize whole : before ++ [c] = events at first
  cases first with
  | nil => exact absurd whole (by simp)
  | snoc _ ran =>
    obtain ⟨-, same⟩ := append_inj' whole rfl
    cases same
    exact not_holds_of_revokes (effect_of_exec ran) revokes

end Holdings

section Concurrent
variable {n : Nat}

def AuthStore.running (s : AuthStore) (depth : Nat) (commands : Fin n → Command) :
    System UserAdminError StoreCall AuthStore Unit (Fin n) StoreCall.Reply :=
  .initial s fun i => (commands i).program depth

theorem run_of_inTurn {commands : Fin n → Command} (edits : ∀ i, (commands i).edits = true)
    (enough : s.depth ≤ depth) {results : List (Fin n × Except UserAdminError Unit)}
    (turns : InTurn AuthStore.handle (fun i => (commands i).program depth) s results after)
    (succeeded : ∀ r ∈ results, r.2 = .ok ()) :
    Run Succeeds s (results.map fun r => commands r.1) after ∧ after.depth ≤ depth := by
  induction turns with
  | nil => exact ⟨.nil, enough⟩
  | @snoc results mid t i result _ ran ih =>
    obtain ⟨run, small⟩ := ih fun r member => succeeded r (mem_append_left _ member)
    have fine : result = .ok () := succeeded (i, result) (mem_append_right _ (.head _))
    have ran : mid.exec (commands i) = (.ok (), t) := by rw [← run_program small, ran, fine]
    rw [map_append]
    exact ⟨run.snoc ran, (depth_le_of_effect (edits i) (effect_of_exec ran)).trans small⟩

/-- Commands that all succeed leave what they leave one after the other, in an order that keeps the order of
those that did not overlap, as long as each writes only while all that it has read is still so and no other
one is in the middle of its writes. -/
theorem concurrent_edits_serial {commands : Fin n → Command} (edits : ∀ i, (commands i).edits = true) {depth : Nat}
    (enough : s.depth ≤ depth) {events : List (Fin n)}
    {sys : System UserAdminError StoreCall AuthStore Unit (Fin n) StoreCall.Reply}
    (run : Run (Guarded (Undisturbed AuthStore.handle StoreCall.writes) (Step AuthStore.handle StoreCall.writes))
      (s.running depth commands) events sys)
    (succeeded : ∀ i, ended (sys.procs i).rest = some (.ok ())) :
    ∃ order : List (Fin n), order.Nodup ∧ (∀ i, i ∈ order) ∧ Run Succeeds s (order.map commands) sys.store ∧
      (∀ i j early late, events = early ++ late → i ∉ late → j ∉ early →
        ∃ before behind, order = before ++ behind ∧ i ∈ before ∧ j ∈ behind) ∧
      ∀ before i behind holding, order = before ++ i :: behind → (commands i).revokes holding →
        (∀ j ∈ behind, ¬(commands j).grants holding) → ¬sys.store.Holds holding := by
  have held := serialized_of_run handle_quiet run
  have all (i : Fin n) : i ∈ sys.order :=
    (held.wrote i).mpr (wrote_of_ended run.unguarded (fun i => mustWrite_program (edits i) depth) (succeeded i))
  obtain ⟨results, turns, names, ends⟩ := held.inTurn fun j _ => by rw [succeeded j]; rfl
  have fine : ∀ r ∈ results, r.2 = .ok () := fun r member =>
    (Option.some.inj ((succeeded r.1).symm.trans (ends r member))).symm
  have serial : Run Succeeds s (sys.order.map commands) sys.store := by
    rw [← names, map_map]
    exact (run_of_inTurn edits enough turns fine).1
  refine ⟨sys.order, held.nodup, all, serial, fun i j early late split over_ waits => ?_,
    fun before i behind holding split revokes none_ => ?_⟩
  · subst split
    exact order_of_apart handle_quiet run over_ waits (all i) (all j)
  · rw [split, map_append, map_cons] at serial
    refine not_holds_of_revoked serial (fun c member => ?_) revokes fun c member => ?_
    · obtain ⟨j, -, rfl⟩ := mem_map.mp member
      exact edits j
    · obtain ⟨j, inside, rfl⟩ := mem_map.mp member
      exact none_ j inside

end Concurrent

theorem eq_foldl_of_run (run : Run Succeeds s commands after) :
    after = commands.foldl (fun s c => (s.exec c).2) s := by
  refine run.rule (fun events t => t = events.foldl (fun s c => (s.exec c).2) s) rfl fun events mid c t same ran => ?_
  rw [foldl_append, ← same]
  exact (congrArg Prod.snd ran).symm

def giveRole (user : UserName) (role : String) : Command := .grantRolesToUser user [.string (field role)]

def bothToBob (i : Fin 2) : Command := if i = 0 then giveRole bob "clerk" else giveRole bob "auditor"

def oneToEach (i : Fin 2) : Command := if i = 0 then giveRole bob "clerk" else giveRole alice "clerk"

def AuthStore.rolesOf (s : AuthStore) (u : UserName) : Option (List Role) := (s.users.find u.id).map UserDoc.roles

def turns : List (Fin 2) := [0, 1, 0, 1, 0, 1]

theorem two_orders {order : List (Fin 2)} (nodup : order.Nodup) (all : ∀ i, i ∈ order) :
    order = [0, 1] ∨ order = [1, 0] := by
  have whole : order.toFinset = Finset.univ := Finset.eq_univ_iff_forall.mpr fun i => mem_toFinset.mpr (all i)
  have size : order.length = 2 := by
    rw [← toFinset_card_of_nodup nodup, whole]
    rfl
  obtain ⟨i, j, rfl⟩ := length_eq_two.mp size
  revert i j
  decide

/-- Both commands load the user without roles, and the second write undoes the first one. -/
theorem concurrent_grants_lose_role : ∃ sys : System UserAdminError StoreCall AuthStore Unit (Fin 2) StoreCall.Reply,
    Run (Step AuthStore.handle StoreCall.writes) (shopAndHr.running shopAndHr.depth bothToBob) turns sys ∧
      (∀ i, ended (sys.procs i).rest = some (.ok ())) ∧
      ∀ order : List (Fin 2), order.Nodup → (∀ i, i ∈ order) →
        ¬Run Succeeds shopAndHr (order.map bothToBob) sys.store := by
  obtain ⟨sys, played, store⟩ : ∃ sys, (shopAndHr.running shopAndHr.depth bothToBob).play AuthStore.handle
      StoreCall.writes turns = some sys ∧ sys.store.rolesOf bob = some [auditor] := by decide +kernel
  have done (i : Fin 2) : ended (sys.procs i).rest = some (.ok ()) := by
    have known : ((shopAndHr.running shopAndHr.depth bothToBob).play AuthStore.handle StoreCall.writes turns).map
        (fun sys => ended (sys.procs i).rest) = some (some (.ok ())) := by
      revert i
      exact Fin.forall_fin_two.mpr ⟨rfl, rfl⟩
    rw [played] at known
    exact Option.some.inj known
  refine ⟨sys, run_of_play played, done, fun order nodup all run => ?_⟩
  rw [eq_foldl_of_run run] at store
  rcases two_orders nodup all with rfl | rfl
  · exact absurd store (by decide +kernel)
  · exact absurd store (by decide +kernel)

/-- The commands of two users overlap, and neither reads what the other one writes. -/
theorem concurrent_edits_serial_oneToEach : ∃ sys :
    System UserAdminError StoreCall AuthStore Unit (Fin 2) StoreCall.Reply,
    Run (Guarded (Undisturbed AuthStore.handle StoreCall.writes) (Step AuthStore.handle StoreCall.writes))
        (shopAndHr.running shopAndHr.depth oneToEach) turns sys ∧
      ∃ order : List (Fin 2), (∀ i, i ∈ order) ∧ Run Succeeds shopAndHr (order.map oneToEach) sys.store := by
  have edits : ∀ i, (oneToEach i).edits = true := by decide
  have read : Run (Guarded (Undisturbed AuthStore.handle StoreCall.writes) (Step AuthStore.handle StoreCall.writes))
      (shopAndHr.running shopAndHr.depth oneToEach) [0, 1, 0, 1] _ :=
    .snoc (.snoc (.snoc (.snoc .nil ⟨undisturbed_of_read rfl rfl,
      .call rfl⟩) ⟨undisturbed_of_read rfl rfl, .call rfl⟩)
      ⟨undisturbed_of_read rfl rfl, .call rfl⟩) ⟨undisturbed_of_read rfl rfl, .call rfl⟩
  have run : Run (Guarded (Undisturbed AuthStore.handle StoreCall.writes) (Step AuthStore.handle StoreCall.writes))
      (shopAndHr.running shopAndHr.depth oneToEach) turns _ :=
    .snoc (.snoc read ⟨fun _ _ _ _ => ⟨fun _ => .read rfl (.read rfl (.here _)),
          Fin.forall_fin_two.mpr ⟨fun same => absurd rfl same, fun _ wrote => nomatch wrote⟩⟩, .call rfl⟩)
      ⟨fun _ _ _ _ => ⟨fun _ => .read rfl (.read rfl (.here _)),
        Fin.forall_fin_two.mpr ⟨fun _ _ => rfl, fun same => absurd rfl same⟩⟩, .call rfl⟩
  obtain ⟨order, -, all, serial, -⟩ := concurrent_edits_serial edits le_rfl run (Fin.forall_fin_two.mpr ⟨rfl, rfl⟩)
  exact ⟨_, run, order, all, serial⟩

end DumboDB.Handler
