import DumboDB.Clientconn.Route

/-!
What the routing of frames over connections changes: frames are served alike over all connections
that know of a session what a connection of its own would know.
-/

namespace DumboDB.Clientconn
open Foundation ByteOrder List

section
variable {σ κ ρ ε ι : Type}

/-- The connection has, for the frame, what another one has: the records of auto-commit, and the
aborted flag if the frame goes on with a transaction. -/
def ConnInfo.Agrees (ci own : ConnInfo) (f : Frame κ) : Prop :=
  (f.continues = true → ci.txnAborted = own.txnAborted) ∧ ci.pendingAutoCommit = own.pendingAutoCommit ∧
    ci.autoCommitMsg = own.autoCommitMsg

theorem extract_of_agrees {ci own : ConnInfo} {f : Frame κ} (agrees : ci.Agrees own f) :
    extractAndSetTransactionFlag f ci = extractAndSetTransactionFlag f own := by
  obtain ⟨aborted, pending, message⟩ := agrees
  obtain ⟨_, _, _, _⟩ := ci
  subst pending message
  unfold extractAndSetTransactionFlag
  cases started : f.startTransaction with
  | true => simp [Frame.inTxn, started, ConnInfo.SetTxnAborted, ConnInfo.SetInTransaction]
  | false =>
    by_cases marked : f.autocommit = some false
    · have same := aborted (by simp [Frame.continues, started, marked])
      simp [Frame.inTxn, started, marked, ConnInfo.SetInTransaction, same]
    · simp [Frame.inTxn, started, marked, ConnInfo.SetInTransaction]

variable [DecidableEq ι] (B : Backend σ κ ρ ε)

/-- At every frame, its connection agrees with a connection that the session would have for itself. -/
def Aligned (s : Server σ ι) (own : Server σ Bytes) : List (ι × Frame κ) → Prop
  | [] => True
  | (i, f) :: rest =>
    (s.conns i).Agrees (own.conns f.key) f ∧ Aligned (serve B s i f).2 (serve B own f.key f).2 rest

def ownRouting (frames : List (ι × Frame κ)) : List (Bytes × Frame κ) := frames.map fun f => (f.2.key, f.2)

theorem serve_of_agrees {s : Server σ ι} {own : Server σ Bytes} {i : ι} {f : Frame κ} (same : s.shared = own.shared)
    (agrees : (s.conns i).Agrees (own.conns f.key) f) :
    (serve B s i f).1 = (serve B own f.key f).1 ∧ (serve B s i f).2.shared = (serve B own f.key f).2.shared := by
  unfold serve route
  rw [same, extract_of_agrees agrees]
  exact ⟨rfl, rfl⟩

/-- A routing that gives each session a connection of its own is aligned. -/
theorem aligned_of_apart {s : Server σ ι} {own : Server σ Bytes} {frames : List (ι × Frame κ)}
    (shared : s.shared = own.shared) (apart : ∀ p ∈ frames, ∀ q ∈ frames, p.1 = q.1 ↔ p.2.key = q.2.key)
    (same : ∀ p ∈ frames, s.conns p.1 = own.conns p.2.key) : Aligned B s own frames := by
  induction frames generalizing s own with
  | nil => trivial
  | cons first rest ih =>
    obtain ⟨i, f⟩ := first
    have here : s.conns i = own.conns f.key := same (i, f) mem_cons_self
    have agrees : (s.conns i).Agrees (own.conns f.key) f := by
      rw [here]
      exact ⟨fun _ => rfl, rfl, rfl⟩
    refine ⟨agrees, ih (serve_of_agrees B shared agrees).2
      (fun p member q other => apart p (mem_cons_of_mem _ member) q (mem_cons_of_mem _ other)) fun p member => ?_⟩
    have session := apart p (mem_cons_of_mem _ member) (i, f) mem_cons_self
    simp only [serve, shared, here]
    by_cases mine : p.1 = i
    · rw [mine, session.mp mine, Function.update_self, Function.update_self]
    · rw [Function.update_of_ne mine, Function.update_of_ne (mt session.mpr mine)]
      exact same p (mem_cons_of_mem _ member)

theorem transcript_of_aligned {s : Server σ ι} {own : Server σ Bytes} {frames : List (ι × Frame κ)}
    (same : s.shared = own.shared) (aligned : Aligned B s own frames) :
    (transcript B s frames).1 = (transcript B own (ownRouting frames)).1 ∧
      (transcript B s frames).2.shared = (transcript B own (ownRouting frames)).2.shared := by
  induction frames generalizing s own with
  | nil => exact ⟨rfl, same⟩
  | cons first rest ih =>
    obtain ⟨i, f⟩ := first
    obtain ⟨agrees, later⟩ := aligned
    obtain ⟨reply, shared⟩ := serve_of_agrees B same agrees
    obtain ⟨replies, left⟩ := ih shared later
    refine ⟨?_, left⟩
    change (f, (serve B s i f).1) :: (transcript B (serve B s i f).2 rest).1 =
      (f, (serve B own f.key f).1) :: (transcript B (serve B own f.key f).2 (ownRouting rest)).1
    rw [reply, replies]

end

/-! A transaction that a statement has aborted. -/

section
variable {σ κ ρ ε : Type} (B : Backend σ κ ρ ε)

/-- Whether the transaction of a session is aborted, after a frame and its reply. -/
def abortedAfter (was : Bool) (f : Frame κ) (reply : Reply ρ ε) : Bool :=
  f.inTxn && !(B.role f.command).endsTxn && (reply.fails B f.command || (f.continues && was))

def abortedBy (key : Bytes) (past : List (Frame κ × Reply ρ ε)) : Bool :=
  (past.filter fun p => p.1.key = key).foldl (fun was p => abortedAfter B was p.1 p.2) false

/-- A command's step of its connection takes it into no transaction and marks none as aborted; one
that stays in its transaction keeps both flags. -/
structure ConnInfo.Moves (stays : Prop) (ci ci' : ConnInfo) : Prop where
  inTransaction : ci'.inTransaction = true → ci.inTransaction = true
  txnAborted : ci'.txnAborted = true → ci.txnAborted = true
  kept : stays → ci'.inTransaction = ci.inTransaction ∧ ci'.txnAborted = ci.txnAborted

namespace ConnInfo
variable {stays : Prop} {ci ci' ci'' : ConnInfo}

theorem Moves.refl (ci : ConnInfo) : ci.Moves stays ci := ⟨id, id, fun _ => ⟨rfl, rfl⟩⟩

theorem Moves.trans (first : ci.Moves stays ci') (second : ci'.Moves stays ci'') : ci.Moves stays ci'' where
  inTransaction on := first.inTransaction (second.inTransaction on)
  txnAborted on := first.txnAborted (second.txnAborted on)
  kept stays := ⟨(second.kept stays).1.trans (first.kept stays).1, (second.kept stays).2.trans (first.kept stays).2⟩

theorem moves_out (leaves : ¬stays) (ci : ConnInfo) : ci.Moves stays (ci.SetInTransaction false) :=
  ⟨nofun, nofun, fun stays => absurd stays leaves⟩

theorem moves_records (targets : List AutoCommitTarget) (ci : ConnInfo) :
    ci.Moves stays (targets.foldl RecordAutoCommit ci) := by
  induction targets generalizing ci with
  | nil => exact .refl ci
  | cons t _ ih =>
    have first : ci.Moves stays (ci.RecordAutoCommit t) := ⟨id, id, fun _ => ⟨rfl, rfl⟩⟩
    exact first.trans (ih _)

end ConnInfo

theorem noted_moves (h : Handled σ ρ ε) (role : Role) (ci : ConnInfo) :
    ci.Moves (role ≠ .leaving) (noted h role ci) := by
  have records : ci.Moves (role ≠ .leaving) _ := ConnInfo.moves_records h.targets ci
  unfold noted
  dsimp only
  have message : ci.Moves (role ≠ .leaving) (if h.autoCommitMsg = [] then h.targets.foldl ConnInfo.RecordAutoCommit ci
      else (h.targets.foldl ConnInfo.RecordAutoCommit ci).SetAutoCommitMessage h.autoCommitMsg) := by
    split
    · exact records
    · exact records.trans ⟨id, id, fun _ => ⟨rfl, rfl⟩⟩
  split
  next leaves =>
    exact message.trans (ConnInfo.moves_out (fun stays => stays leaves.1) _)
  · exact message

theorem AutoCommitBoundary_moves {stays : Prop} (reply : Reply ρ ε) (s : σ) (ci : ConnInfo) :
    ci.Moves stays (AutoCommitBoundary B reply s ci).2.2 := by
  unfold AutoCommitBoundary
  dsimp only
  split <;> exact ⟨id, id, fun _ => ⟨rfl, rfl⟩⟩

/-- The command is a statement, which stays in its transaction. -/
def Stays (f : Frame κ) : Prop := ∃ blocked, B.role f.command = .statement blocked

theorem finishClientTransaction_out (s : σ) (ci : ConnInfo) (key : Bytes) :
    ((finishClientTransaction B s ci key).2.2 = ci ∨
      (finishClientTransaction B s ci key).2.2 = ci.SetInTransaction false) ∧
    (finishClientTransaction B s ci key).2.2.txnAborted = false := by
  unfold finishClientTransaction
  cases aborted : ci.txnAborted with
  | true => exact ⟨.inr rfl, rfl⟩
  | false =>
    rw [if_neg Bool.false_ne_true]
    split
    · exact ⟨.inl rfl, aborted⟩
    · split
      · exact ⟨.inl rfl, aborted⟩
      · exact ⟨.inr rfl, rfl⟩

variable {f : Frame κ} {ι : Type}

theorem invokeHandler_commit {s : σ} {ci : ConnInfo} (role : B.role f.command = .commitTransaction) :
    ((invokeHandler B s ci f).2.2 = ci ∨ (invokeHandler B s ci f).2.2 = ci.SetInTransaction false) ∧
      (invokeHandler B s ci f).2.2.txnAborted = false := by
  obtain ⟨moved, cleared⟩ := finishClientTransaction_out B s ci f.key
  unfold invokeHandler
  rw [role]
  dsimp only
  split
  next _ s' ci' finished =>
    rw [finished] at moved cleared
    exact ⟨moved, cleared⟩
  next s' ci' finished =>
    rw [finished] at moved cleared
    refine ⟨.inr ?_, rfl⟩
    rcases moved with same | out
    · rw [show ci' = ci from same]
    · rw [show ci' = ci.SetInTransaction false from out]
      rfl

theorem invokeHandler_handler {s : σ} {ci : ConnInfo} (other : (B.role f.command).endsTxn = false) :
    (invokeHandler B s ci f).2.2 = noted (B.handler s f.key f.command ci.inTransaction) (B.role f.command) ci := by
  unfold invokeHandler
  cases role : B.role f.command with
  | commitTransaction
  | abortTransaction => exact nomatch role ▸ other
  | statement blocked
  | leaving => dsimp only; split <;> rfl

theorem invokeHandler_moves (s : σ) (ci : ConnInfo) (f : Frame κ) :
    ci.Moves (Stays B f) (invokeHandler B s ci f).2.2 := by
  cases ends : (B.role f.command).endsTxn with
  | false =>
    rw [invokeHandler_handler B ends]
    have moved := noted_moves (B.handler s f.key f.command ci.inTransaction) (B.role f.command) ci
    refine ⟨moved.1, moved.2, fun ⟨_, stays⟩ => moved.3 (stays ▸ nofun)⟩
  | true =>
    have leaves : ¬Stays B f := by
      rintro ⟨blocked, stays⟩
      rw [stays] at ends
      cases ends
    have out : (invokeHandler B s ci f).2.2 = ci ∨ (invokeHandler B s ci f).2.2 = ci.SetInTransaction false := by
      cases role : B.role f.command with
      | commitTransaction => exact (invokeHandler_commit B role).1
      | abortTransaction =>
        unfold invokeHandler
        rw [role]
        exact .inr rfl
      | statement blocked
      | leaving => exact nomatch role ▸ ends
    rcases out with same | out
    · rw [same]
      exact .refl ci
    · rw [out]
      exact ConnInfo.moves_out leaves ci

/-- What an attempt leaves on its connection: as it was when no transaction could be started, else
what the handler has left, with the records drained or not. -/
theorem attemptWrite_conn (replaying inClientTxn : Bool) (s : σ) (ci : ConnInfo) (f : Frame κ) :
    (∃ t error, B.StartTransaction t f.key = .error error ∧
      (attemptWrite B replaying inClientTxn s ci f).2.2.2 = ci) ∨
      ∃ t, (invokeHandler B t ci f).2.2.Moves True (attemptWrite B replaying inClientTxn s ci f).2.2.2 := by
  unfold attemptWrite
  dsimp only
  split
  next error started =>
    split at started
    · exact .inl ⟨_, error, started, rfl⟩
    · cases started
  next t started =>
    refine .inr ⟨t, ?_⟩
    split
    · split
      · exact .refl _
      · exact AutoCommitBoundary_moves B _ _ _
    · split
      · exact .refl _
      · split
        · exact AutoCommitBoundary_moves B _ _ _
        · exact .refl _

theorem attemptWrite_moves (replaying inClientTxn : Bool) (s : σ) (ci : ConnInfo) (f : Frame κ) :
    ci.Moves (Stays B f) (attemptWrite B replaying inClientTxn s ci f).2.2.2 := by
  rcases attemptWrite_conn B replaying inClientTxn s ci f with ⟨t, _, -, same⟩ | ⟨t, moved⟩
  · rw [same]
    exact .refl ci
  · exact (invokeHandler_moves B t ci f).trans ⟨moved.1, moved.2, fun _ => moved.3 trivial⟩

theorem attempts_moves (inClientTxn : Bool) (f : Frame κ) (n : Nat) (replaying : Bool) (s : σ) (ci : ConnInfo) :
    ci.Moves (Stays B f) (attempts B inClientTxn f n replaying s ci).2.2 := by
  induction n generalizing replaying s ci with
  | zero => exact attemptWrite_moves B replaying inClientTxn s ci f
  | succ n ih =>
    have moved := attemptWrite_moves B replaying inClientTxn s ci f
    unfold attempts
    split
    next _ s' ci' attempted =>
      rw [attempted] at moved
      exact moved.trans (ih true s' ci')
    next _ attempted =>
      rw [attempted] at moved
      exact moved

def Starts : Prop := ∀ s key, ∃ t, B.StartTransaction s key = .ok t

theorem attempts_ends (starts : Starts B) (ends : (B.role f.command).endsTxn = true) (inClientTxn : Bool)
    (n : Nat) (replaying : Bool) (s : σ) (ci : ConnInfo) :
    (attempts B inClientTxn f n replaying s ci).2.2.txnAborted = false := by
  have attempt : ∀ replaying s ci, (attemptWrite B replaying inClientTxn s ci f).2.2.2.txnAborted = false := by
    intro replaying s ci
    rcases attemptWrite_conn B replaying inClientTxn s ci f with ⟨t, _, failed, -⟩ | ⟨t, moved⟩
    · obtain ⟨_, started⟩ := starts t f.key
      exact nomatch failed.symm.trans started
    · rw [(moved.3 trivial).2]
      cases role : B.role f.command with
      | commitTransaction => exact (invokeHandler_commit B role).2
      | abortTransaction =>
        unfold invokeHandler
        rw [role]
        rfl
      | statement blocked
      | leaving => exact nomatch role ▸ ends
  induction n generalizing replaying s ci with
  | zero => exact attempt replaying s ci
  | succ n ih =>
    have cleared := attempt replaying s ci
    unfold attempts
    split
    · exact ih true _ _
    next _ attempted =>
      rw [attempted] at cleared
      exact cleared

theorem extract_flags (f : Frame κ) (ci : ConnInfo) : (extractAndSetTransactionFlag f ci).inTransaction = f.inTxn ∧
      (extractAndSetTransactionFlag f ci).txnAborted = (f.continues && ci.txnAborted) := by
  unfold extractAndSetTransactionFlag
  cases started : f.startTransaction with
  | true => simp [Frame.inTxn, Frame.continues, started, ConnInfo.SetTxnAborted, ConnInfo.SetInTransaction]
  | false =>
    by_cases marked : f.autocommit = some false <;>
      simp [Frame.inTxn, Frame.continues, started, marked, ConnInfo.SetInTransaction]

/-- In a transaction, only statements are sent between its begin and its end. -/
def Frame.Plain (f : Frame κ) : Prop := f.inTxn = true → B.role f.command ≠ .leaving

theorem continues_inTxn (continues : f.continues = true) : f.inTxn = true := by
  simp only [Frame.continues, Bool.and_eq_true] at continues
  simp [Frame.inTxn, continues.2]

theorem route_aborted (starts : Starts B) (plain : f.Plain B) (s : σ) (ci : ConnInfo) :
    (route B s ci f).2.2.txnAborted = abortedAfter B ci.txnAborted f (route B s ci f).1 := by
  obtain ⟨inTxn, aborted⟩ := extract_flags f ci
  unfold route
  generalize extractAndSetTransactionFlag f ci = marked at inTxn aborted ⊢
  unfold routeMarked abortedAfter
  dsimp only
  split
  next blocked =>
    simp [AbortPendingTransaction, ConnInfo.SetTxnAborted, ← inTxn, blocked.1, blocked.2, Role.endsTxn, Reply.fails]
  split
  next refused =>
    simp only [Bool.and_eq_true, Bool.not_eq_true'] at refused
    simp [← inTxn, refused.1.1, refused.1.2, refused.2, Reply.fails]
  rename_i notBlocked notRefused
  have moved := attempts_moves B marked.inTransaction f maxWriteReplays false s marked
  have cleared : (B.role f.command).endsTxn = true → (dispatchThroughSession B s marked f).2.2.txnAborted = false :=
    fun ends => attempts_ends B starts ends marked.inTransaction maxWriteReplays false s marked
  change marked.Moves (Stays B f) (dispatchThroughSession B s marked f).2.2 at moved
  generalize dispatchThroughSession B s marked f = result at moved cleared ⊢
  obtain ⟨reply, _, _⟩ := result
  dsimp only at moved cleared ⊢
  split
  next failed =>
    simp only [Bool.and_eq_true, Bool.not_eq_true'] at failed
    simp [AbortPendingTransaction, ConnInfo.SetTxnAborted, ← inTxn, moved.1 failed.1.2, failed.1.1, failed.2]
  next unfailed =>
    cases ends : (B.role f.command).endsTxn with
    | true => simp [cleared ends]
    | false =>
      cases within : f.inTxn with
      | false =>
        have outside : marked.txnAborted = false := by
          cases continues : f.continues with
          | true => exact nomatch within.symm.trans (continues_inTxn continues)
          | false => rw [aborted, continues, Bool.false_and]
        rw [Bool.false_and, Bool.false_and, Bool.eq_false_iff]
        exact fun on => nomatch outside.symm.trans (moved.2 on)
      | true =>
        have stays : Stays B f := by
          cases role : B.role f.command with
          | statement blocked => exact ⟨blocked, role⟩
          | leaving => exact absurd role (plain within)
          | commitTransaction
          | abortTransaction => exact nomatch role ▸ ends
        obtain ⟨sameTxn, sameFlag⟩ := moved.3 stays
        rw [inTxn, within] at sameTxn
        have unmarked : marked.txnAborted = false := by simpa [ends, inTxn, within] using notRefused
        have succeeded : reply.fails B f.command = false := by simpa [ends, sameTxn] using unfailed
        rw [sameFlag, succeeded, ← aborted, unmarked]
        rfl

theorem route_refused (starts : Starts B) (continues : f.continues = true)
    (role : B.role f.command = .statement false ∨ B.role f.command = .commitTransaction) {s : σ} {ci : ConnInfo}
    (was : ci.txnAborted = true) : (route B s ci f).1.noSuchTransaction = true := by
  obtain ⟨inTxn, aborted⟩ := extract_flags f ci
  rw [continues_inTxn continues] at inTxn
  rw [continues, was] at aborted
  unfold route
  unfold routeMarked
  rcases role with statement | commit
  · simp [statement, Role.endsTxn, inTxn, aborted, Reply.noSuchTransaction]
  · obtain ⟨t, started⟩ := starts s f.key
    simp [commit, Role.endsTxn, dispatchThroughSession, maxWriteReplays, attempts, attemptWrite, inTxn, started,
      invokeHandler, finishClientTransaction, aborted, Reply.isError, Reply.noSuchTransaction]

theorem abortedBy_snoc (key : Bytes) (past : List (Frame κ × Reply ρ ε)) (f : Frame κ) (reply : Reply ρ ε) :
    abortedBy B key (past ++ [(f, reply)]) =
      if f.key = key then abortedAfter B (abortedBy B key past) f reply else abortedBy B key past := by
  unfold abortedBy
  by_cases own : f.key = key <;> simp [own]

theorem own_refused (starts : Starts B) {own : Server σ Bytes} (past : List (Frame κ × Reply ρ ε))
    {frames : List (ι × Frame κ)} (known : ∀ key, (own.conns key).txnAborted = abortedBy B key past)
    (plain : ∀ p ∈ frames, p.2.Plain B) {before after : List (Frame κ × Reply ρ ε)} {reply : Reply ρ ε}
    (whole : (transcript B own (ownRouting frames)).1 = before ++ (f, reply) :: after)
    (continues : f.continues = true)
    (role : B.role f.command = .statement false ∨ B.role f.command = .commitTransaction)
    (aborted : abortedBy B f.key (past ++ before) = true) : reply.noSuchTransaction = true := by
  induction frames generalizing own past before with
  | nil => exact absurd whole (by simp [ownRouting, transcript])
  | cons first rest ih =>
    obtain ⟨i, g⟩ := first
    change (g, (serve B own g.key g).1) :: (transcript B (serve B own g.key g).2 (ownRouting rest)).1 = _ at whole
    cases before with
    | nil =>
      obtain ⟨same, -⟩ := List.cons.inj whole
      obtain ⟨rfl, rfl⟩ := Prod.mk.inj same
      rw [append_nil, ← known] at aborted
      exact route_refused B starts continues role aborted
    | cons _ before =>
      obtain ⟨rfl, later⟩ := List.cons.inj whole
      refine ih (past ++ [(g, (serve B own g.key g).1)]) (fun key => ?_)
        (fun p member => plain p (mem_cons_of_mem _ member)) later (by simpa using aborted)
      rw [abortedBy_snoc]
      by_cases own_ : g.key = key
      · subst own_
        rw [if_pos rfl, ← known]
        refine Eq.trans ?_ (route_aborted B starts (plain (i, g) mem_cons_self) own.shared (own.conns g.key))
        exact congrArg ConnInfo.txnAborted (Function.update_self ..)
      · rw [if_neg own_, ← known]
        exact congrArg ConnInfo.txnAborted (Function.update_of_ne (Ne.symm own_) ..)

/-- Two routings of the same frames over connections that agree with the sessions' own get the same
replies and leave the same state; and after a statement that has failed, the later statements and
the commit of its transaction are refused. -/
theorem routed_alike [DecidableEq ι] (starts : Starts B) (shared : σ) {frames frames' : List (ι × Frame κ)}
    (same : frames.map Prod.snd = frames'.map Prod.snd) (aligned : Aligned B (.start shared) (.start shared) frames)
    (aligned' : Aligned B (.start shared) (.start shared) frames') (plain : ∀ p ∈ frames, p.2.Plain B) :
    (transcript B (.start shared) frames).1 = (transcript B (.start shared) frames').1 ∧
      (transcript B (.start shared) frames).2.shared = (transcript B (.start shared) frames').2.shared ∧
        ∀ before f reply after, (transcript B (.start shared) frames).1 = before ++ (f, reply) :: after →
          f.continues = true → (B.role f.command = .statement false ∨ B.role f.command = .commitTransaction) →
            abortedBy B f.key before = true → reply.noSuchTransaction = true := by
  have routing : ownRouting frames = ownRouting frames' := by
    simpa [ownRouting, Function.comp_def] using congrArg (List.map fun f : Frame κ => (f.key, f)) same
  obtain ⟨replies, left⟩ := transcript_of_aligned B (by rfl) aligned
  obtain ⟨replies', left'⟩ := transcript_of_aligned B (by rfl) aligned'
  refine ⟨replies.trans (routing ▸ replies'.symm), left.trans (routing ▸ left'.symm), ?_⟩
  intro before f reply after whole continues role aborted
  rw [replies] at whole
  exact own_refused B starts [] (fun _ => rfl) plain whole continues role aborted

end

/-! A store of numbers, with transactions that insert. -/

structure Numbers where
  published : List Nat
  overlays : List (Bytes × List Nat)

def Numbers.overlay (s : Numbers) (key : Bytes) : List Nat := (s.overlays.lookup key).getD []

def Numbers.abort (s : Numbers) (key : Bytes) : Numbers :=
  { s with overlays := s.overlays.filter fun o => o.1 != key }

inductive NumberCommand where
  | insert (n : Nat)
  | commitTransaction

inductive NumberError where
  | duplicateKey
deriving DecidableEq

def numbers : Backend Numbers NumberCommand Unit NumberError where
  role
    | .insert _ => .statement false
    | .commitTransaction => .commitTransaction
  writesData
    | .insert _ => true
    | .commitTransaction => false
  handler s key command _ :=
    match command with
    | .insert n =>
      if n ∈ s.published ++ s.overlay key then ⟨s, .error .duplicateKey, false, [], [], false⟩
      else ⟨{ s.abort key with overlays := (key, s.overlay key ++ [n]) :: (s.abort key).overlays },
        .ok (), false, [], [], false⟩
    | .commitTransaction => ⟨s, .ok (), false, [], [], false⟩
  ok := ()
  StartTransaction s _ := .ok s
  dropTransaction := Numbers.abort
  OnTransactionCommit s key := (none, { s.abort key with published := s.published ++ s.overlay key })
  OnTransactionAbort := Numbers.abort
  AutoCommit s _ := (none, s)
  commitError _ := .other
  isUncommittedChangesRefusal _ _ := false

def numbersStart : Numbers := ⟨[0], []⟩

def failingTransaction : List (Frame NumberCommand) :=
  [⟨[1], true, some false, some 1, .insert 1⟩, ⟨[1], false, some false, some 1, .insert 0⟩,
    ⟨[1], false, some false, some 1, .insert 2⟩, ⟨[1], false, some false, some 1, .commitTransaction⟩]

/-- Over one connection the transaction is refused after its failed statement; with the last two
frames over another one it goes on, and is committed without its first statement. -/
theorem aborted_transaction_commits :
    (transcript numbers (.start numbersStart) (failingTransaction.map fun f => (0, f))).1.map Prod.snd =
      [.ok () false, .failed .duplicateKey, .transactionAborted (some 1), .commitRejected] ∧
    (transcript numbers (.start numbersStart) ([0, 0, 1, 1].zip failingTransaction)).1.map Prod.snd =
      [.ok () false, .failed .duplicateKey, .ok () false, .ok () false] ∧
    (transcript numbers (.start numbersStart) ([0, 0, 1, 1].zip failingTransaction)).2.shared.published = [0, 2] := by
  decide +kernel

/-- A transaction that stays on its connection, whichever that is. -/
theorem pinned_transaction_refused :
    (transcript numbers (.start numbersStart) (failingTransaction.map fun f => (0, f))).1 =
      (transcript numbers (.start numbersStart) (failingTransaction.map fun f => (1, f))).1 := by
  refine (routed_alike numbers (fun s _ => ⟨s, rfl⟩) numbersStart rfl ?_ ?_ ?_).1
  · exact aligned_of_apart numbers rfl (by decide) fun _ _ => rfl
  · exact aligned_of_apart numbers rfl (by decide) fun _ _ => rfl
  · intro p _ _ leaving
    revert leaving
    cases p.2.command <;> exact nofun

end DumboDB.Clientconn
