import DumboDB.Foundation.ByteOrder

/-!
How a connection serves a command frame: the transaction flags that it keeps, the dispatch through
the frame's session, and the transaction that a failed statement aborts.
-/

namespace DumboDB.Clientconn
open Foundation ByteOrder

structure AutoCommitTarget where
  db : Bytes
  branch : Bytes
  message : Bytes
deriving DecidableEq

structure ConnInfo where
  inTransaction : Bool
  txnAborted : Bool
  pendingAutoCommit : List AutoCommitTarget
  autoCommitMsg : Bytes
deriving DecidableEq

namespace ConnInfo

def New : ConnInfo := ⟨false, false, [], []⟩

def SetInTransaction (ci : ConnInfo) (v : Bool) : ConnInfo :=
    { ci with inTransaction := v, txnAborted := v && ci.txnAborted }

def SetTxnAborted (ci : ConnInfo) (v : Bool) : ConnInfo := { ci with txnAborted := v }

def RecordAutoCommit (ci : ConnInfo) (t : AutoCommitTarget) : ConnInfo :=
  { ci with
    pendingAutoCommit := ci.pendingAutoCommit.filter (fun u => !(u.db == t.db && u.branch == t.branch)) ++ [t] }

def SetAutoCommitMessage (ci : ConnInfo) (message : Bytes) : ConnInfo := { ci with autoCommitMsg := message }

def DrainAutoCommit (ci : ConnInfo) : List AutoCommitTarget × ConnInfo :=
  let override := fun t : AutoCommitTarget =>
    if ci.autoCommitMsg = [] then t else { t with message := ci.autoCommitMsg }
  (ci.pendingAutoCommit.map override, { ci with pendingAutoCommit := [], autoCommitMsg := [] })

end ConnInfo

/-- A command with the markers that drivers put on it. -/
structure Frame (κ : Type) where
  key : Bytes
  startTransaction : Bool
  autocommit : Option Bool
  txnNumber : Option Int
  command : κ

def Frame.inTxn {κ : Type} (f : Frame κ) : Bool := f.startTransaction || f.autocommit == some false

/-- The frame goes on with a transaction that an earlier frame has begun. -/
def Frame.continues {κ : Type} (f : Frame κ) : Bool := !f.startTransaction && f.autocommit == some false

def extractAndSetTransactionFlag {κ : Type} (f : Frame κ) (ci : ConnInfo) : ConnInfo :=
  let ci := if f.startTransaction then (ci.SetTxnAborted false).SetInTransaction true else ci
  if !f.inTxn then ci.SetInTransaction false
  else if !f.startTransaction then ci.SetInTransaction true
  else ci

/-- What a command is to the transaction of its session. A statement may be blocked in transactions;
`dumboCommit` and `endSessions` may take the connection out of one. -/
inductive Role where
  | commitTransaction
  | abortTransaction
  | statement (blockedInTxn : Bool)
  | leaving
deriving DecidableEq

def Role.endsTxn : Role → Bool
  | .commitTransaction | .abortTransaction => true
  | _ => false

inductive CommitError where
  | conflict
  | branchInConflict
  | other
deriving DecidableEq

structure Handled (σ ρ ε : Type) where
  shared : σ
  result : Except ε ρ
  writeErrors : Bool
  targets : List AutoCommitTarget
  autoCommitMsg : Bytes
  leaves : Bool

/-- The commands and the hooks of the backend over what all connections share. Of its connection a
handler sees the session's key and whether the frame is in a transaction. -/
structure Backend (σ κ ρ ε : Type) where
  role : κ → Role
  writesData : κ → Bool
  handler : σ → Bytes → κ → Bool → Handled σ ρ ε
  ok : ρ
  StartTransaction : σ → Bytes → Except ε σ
  dropTransaction : σ → Bytes → σ
  OnTransactionCommit : σ → Bytes → Option ε × σ
  OnTransactionAbort : σ → Bytes → σ
  AutoCommit : σ → AutoCommitTarget → Option ε × σ
  commitError : ε → CommitError
  isUncommittedChangesRefusal : κ → ε → Bool

inductive Reply (ρ ε : Type) where
  | ok (reply : ρ) (writeErrors : Bool)
  | failed (error : ε)
  | operationNotSupportedInTransaction
  /-- The answer of `abortedTransactionError`. -/
  | transactionAborted (txnNumber : Option Int)
  /-- The answer of `finishClientTransaction`. -/
  | commitRejected
deriving DecidableEq

def Reply.isError {ρ ε : Type} : Reply ρ ε → Bool
  | .ok _ _ => false
  | _ => true

def Reply.noSuchTransaction {ρ ε : Type} : Reply ρ ε → Bool
  | .transactionAborted _ | .commitRejected => true
  | _ => false

section
variable {σ κ ρ ε : Type} (B : Backend σ κ ρ ε)

/-- The statement has failed, so that its transaction is aborted. -/
def Reply.fails (command : κ) : Reply ρ ε → Bool
  | .ok _ writeErrors => writeErrors
  | .failed error => !B.isUncommittedChangesRefusal command error
  | _ => true

def AbortPendingTransaction (s : σ) (ci : ConnInfo) (key : Bytes) : σ × ConnInfo :=
  (B.OnTransactionAbort s key, ci.SetTxnAborted true)

def finishClientTransaction (s : σ) (ci : ConnInfo) (key : Bytes) : Option (Reply ρ ε) × σ × ConnInfo :=
  if ci.txnAborted then (some .commitRejected, B.OnTransactionAbort s key, ci.SetInTransaction false)
  else
    match B.OnTransactionCommit s key with
    | (none, s) => (none, s, ci)
    | (some error, s) =>
      match B.commitError error with
      | .other => (some (.failed error), s, ci)
      | _ => (some (.failed error), B.OnTransactionAbort s key, ci.SetInTransaction false)

def noted (h : Handled σ ρ ε) (role : Role) (ci : ConnInfo) : ConnInfo :=
  let ci := h.targets.foldl ConnInfo.RecordAutoCommit ci
  let ci := if h.autoCommitMsg = [] then ci else ci.SetAutoCommitMessage h.autoCommitMsg
  if role = .leaving ∧ h.leaves then ci.SetInTransaction false else ci

def invokeHandler (s : σ) (ci : ConnInfo) (f : Frame κ) : Reply ρ ε × σ × ConnInfo :=
  match B.role f.command with
  | .commitTransaction =>
    match finishClientTransaction B s ci f.key with
    | (some error, s, ci) => (error, s, ci)
    | (none, s, ci) => (.ok B.ok false, s, ci.SetInTransaction false)
  | .abortTransaction => (.ok B.ok false, B.OnTransactionAbort s f.key, ci.SetInTransaction false)
  | role =>
    let h := B.handler s f.key f.command ci.inTransaction
    match h.result with
    | .ok reply => (.ok reply h.writeErrors, h.shared, noted h role ci)
    | .error error => (.failed error, h.shared, noted h role ci)

/-- The branches that were recorded are committed one after another. -/
def autoCommitTargets (s : σ) : List AutoCommitTarget → Option ε × σ
  | [] => (none, s)
  | t :: rest =>
    match B.AutoCommit s t with
    | (none, s) => autoCommitTargets s rest
    | (some error, s) => (some error, s)

def AutoCommitBoundary (reply : Reply ρ ε) (s : σ) (ci : ConnInfo) : Reply ρ ε × σ × ConnInfo :=
  let (targets, ci) := ci.DrainAutoCommit
  match autoCommitTargets B s targets with
  | (none, s) => (reply, s, ci)
  | (some error, s) => (.failed error, s, ci)

/-- `attemptWrite`, with whether the attempt may be run again. -/
def attemptWrite (replaying inClientTxn : Bool) (s : σ) (ci : ConnInfo) (f : Frame κ) :
    Bool × Reply ρ ε × σ × ConnInfo :=
  let writes := B.writesData f.command
  let forked := writes || inClientTxn
  let s := if forked && replaying then B.dropTransaction s f.key else s
  match if forked then B.StartTransaction s f.key else .ok s with
  | .error error => (false, .failed error, s, ci)
  | .ok s =>
    let (reply, s, ci) := invokeHandler B s ci f
    if !(writes && !inClientTxn) then
      if reply.isError || writes then (false, reply, s, ci) else (false, AutoCommitBoundary B reply s ci)
    else if reply.isError then (false, reply, B.OnTransactionAbort s f.key, ci)
    else
      match B.OnTransactionCommit s f.key with
      | (none, s) => (false, AutoCommitBoundary B reply s ci)
      | (some error, s) => (B.commitError error = .conflict, .failed error, B.OnTransactionAbort s f.key, ci)

def maxWriteReplays : Nat := 256

def attempts (inClientTxn : Bool) (f : Frame κ) : Nat → Bool → σ → ConnInfo → Reply ρ ε × σ × ConnInfo
  | 0, replaying, s, ci => (attemptWrite B replaying inClientTxn s ci f).2
  | n + 1, replaying, s, ci =>
    match attemptWrite B replaying inClientTxn s ci f with
    | (true, _, s, ci) => attempts inClientTxn f n true s ci
    | (false, result) => result

def dispatchThroughSession (s : σ) (ci : ConnInfo) (f : Frame κ) : Reply ρ ε × σ × ConnInfo :=
  attempts B ci.inTransaction f maxWriteReplays false s ci

/-- `route`, once the markers of the frame are on the connection. -/
def routeMarked (s : σ) (ci : ConnInfo) (f : Frame κ) : Reply ρ ε × σ × ConnInfo :=
  let role := B.role f.command
  if role = .statement true ∧ ci.inTransaction = true then
    (.operationNotSupportedInTransaction, AbortPendingTransaction B s ci f.key)
  else if !role.endsTxn && ci.inTransaction && ci.txnAborted then (.transactionAborted f.txnNumber, s, ci)
  else
    let (reply, s, ci) := dispatchThroughSession B s ci f
    if !role.endsTxn && ci.inTransaction && reply.fails B f.command then (reply, AbortPendingTransaction B s ci f.key)
    else (reply, s, ci)

def route (s : σ) (ci : ConnInfo) (f : Frame κ) : Reply ρ ε × σ × ConnInfo :=
  routeMarked B s (extractAndSetTransactionFlag f ci) f

end

structure Server (σ ι : Type) where
  shared : σ
  conns : ι → ConnInfo

def Server.start {σ ι : Type} (shared : σ) : Server σ ι := ⟨shared, fun _ => .New⟩

section
variable {σ κ ρ ε ι : Type} [DecidableEq ι] (B : Backend σ κ ρ ε)

def serve (s : Server σ ι) (i : ι) (f : Frame κ) : Reply ρ ε × Server σ ι :=
  let (reply, shared, ci) := route B s.shared (s.conns i) f
  (reply, ⟨shared, Function.update s.conns i ci⟩)

/-- The frames with their replies, and what is left after them. -/
def transcript (s : Server σ ι) : List (ι × Frame κ) → List (Frame κ × Reply ρ ε) × Server σ ι
  | [] => ([], s)
  | (i, f) :: rest =>
    let (reply, s) := serve B s i f
    let (later, s) := transcript s rest
    ((f, reply) :: later, s)

end

end DumboDB.Clientconn
