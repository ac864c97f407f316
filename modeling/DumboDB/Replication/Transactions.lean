import DumboDB.Dolt.PrefilterWalk
import DumboDB.Replication.CatchUp

/-!
Transactions in the oplog: the applier keeps the fragments of a transaction as a payload until the
entry that commits or aborts it.
-/

namespace DumboDB.Replication
open Foundation ByteOrder Fallible Dolt Function List

/-- `lsid` and `txnNumber`. -/
structure TransactionKey where
  lsid : Bytes
  txnNumber : Int
  deriving DecidableEq, Repr

/-- A document in BSON: a length, fields, and a zero byte. -/
structure RawDocument where
  bytes : Bytes
  least : 5 ≤ bytes.length
  most : bytes.length < 2 ^ 32

/-- What `Apply` tells apart: the three transaction commands, and everything else. -/
inductive Command where
  | operation
  | applyOps (partialTxn prepare : Bool)
  | commitTransaction
  | abortTransaction
  deriving DecidableEq, Repr

structure Entry where
  OpTime : OpTime
  RawBSON : RawDocument
  command : Command
  transaction : Option TransactionKey
  prevOpTime : Option Replication.OpTime

instance : Positioned Entry := ⟨Entry.OpTime, fun e => e.RawBSON.bytes⟩

structure TransactionFragment where
  First : OpTime
  Last : OpTime
  Payload : Bytes

/-- The databases, and what the control store keeps of transactions that are not closed yet. -/
structure Applier (σ : Type) where
  data : σ
  TransactionParts : TransactionKey → Option TransactionFragment

/-- The parts of the applier that transactions do not depend on: how a raw entry is read, and what an
operation does. -/
structure Operations (σ Op ε : Type) where
  operationOf : Bytes → Except ε Op
  applyOpsOf : Bytes → Except ε (List Op)
  applyOperation : OpTime → σ → Op → Except ε σ

inductive ApplyError (ε : Type) where
  | noIdentity
  | noFragment
  | noPrevOpTime
  | unlinked
  | payload
  | fragmentOrder
  | operation (e : ε)
  deriving DecidableEq, Repr

def encodeTransactionPayload (raw : Bytes) : Bytes := leBytes 4 raw.length ++ raw

def decodeTransactionPayload (payload : Bytes) : Option (List Bytes) :=
  if payload.length = 0 then some []
  else if _short : payload.length < 4 then none
  else
    let length := uint32At payload
    let rest := payload.drop 4
    if length < 5 ∨ rest.length < length then none
    else (decodeTransactionPayload (rest.drop length)).map (rest.take length :: ·)
termination_by payload.length
decreasing_by
  change (rest.drop length).length < payload.length
  simp only [rest, List.length_drop]
  omega

theorem decode_encode (raws : List RawDocument) :
    decodeTransactionPayload (raws.map fun raw => encodeTransactionPayload raw.bytes).flatten =
      some (raws.map RawDocument.bytes) := by
  induction raws with
  | nil => simp [decodeTransactionPayload]
  | cons raw raws ih =>
    have least := raw.least
    have most := raw.most
    rw [map_cons, flatten_cons, encodeTransactionPayload, append_assoc, decodeTransactionPayload,
      if_neg (by simp), dif_neg (by simp), uint32At_leBytes most]
    simp only [drop_left' (length_leBytes 4 raw.bytes.length), drop_left, take_left]
    rw [if_neg (by simp; omega), ih]
    rfl

section Apply

variable {σ Op ε : Type} (env : Operations σ Op ε)

/-- The operations of all fragments, made visible at once at one position. -/
def applyTransactionOperations (entries : List Bytes) (opTime : OpTime) (data : σ) : Except ε σ := do
  let operations ← entries.mapM env.applyOpsOf
  operations.flatten.foldlM (env.applyOperation opTime) data

def previousOpTime (entry : Entry) : Except (ApplyError ε) OpTime :=
  match entry.prevOpTime with
  | none => .error .noPrevOpTime
  | some previous => .ok previous

/-- The position before the first entry of a transaction. -/
def nullOpTime : OpTime := ⟨0, 0, -1⟩

def validateTransactionLink (entry : Entry) (fragment : Option TransactionFragment) : Except (ApplyError ε) Unit := do
  let previous ← previousOpTime entry
  match fragment with
  | none => if previous ≠ nullOpTime then .error .unlinked else .ok ()
  | some fragment => if previous ≠ fragment.Last then .error .unlinked else .ok ()

namespace Applier

variable (a : Applier σ)

def PutTransactionFragment (key : TransactionKey) (fragment : TransactionFragment) :
    Except (ApplyError ε) (Applier σ) :=
  if fragment.First.Compare fragment.Last = .gt then .error .fragmentOrder
  else .ok { a with TransactionParts := Function.update a.TransactionParts key (some fragment) }

def DeleteTransactionFragment (key : TransactionKey) : Applier σ :=
  { a with TransactionParts := Function.update a.TransactionParts key none }

def fragmentOf (entry : Entry) : Option TransactionFragment := entry.transaction.bind a.TransactionParts

def written : Except ε σ → Except (ApplyError ε) (Applier σ)
  | .error e => .error (.operation e)
  | .ok data => .ok { a with data }

/-- The operations of raw entries, as one step of the applier. -/
def perform (entries : List Bytes) (opTime : OpTime) : Except (ApplyError ε) (Applier σ) :=
  a.written (applyTransactionOperations env entries opTime a.data)

def applyFragment (key : TransactionKey) (fragment : TransactionFragment) (opTime : OpTime) :
    Except (ApplyError ε) (Applier σ) :=
  match decodeTransactionPayload fragment.Payload with
  | none => .error .payload
  | some entries => do
    let a ← a.perform env entries opTime
    .ok (a.DeleteTransactionFragment key)

end Applier

def extendFragment (fragment : Option TransactionFragment) (entry : Entry) : TransactionFragment :=
  match fragment with
  | none => ⟨entry.OpTime, entry.OpTime, encodeTransactionPayload entry.RawBSON.bytes⟩
  | some fragment =>
    ⟨fragment.First, entry.OpTime, fragment.Payload ++ encodeTransactionPayload entry.RawBSON.bytes⟩

/-- `commitTransaction` and `abortTransaction`: the entry closes the stored fragment. -/
def closeTransaction (a : Applier σ) (entry : Entry)
    (close : TransactionKey → TransactionFragment → Except (ApplyError ε) (Applier σ)) :
    Except (ApplyError ε) (Applier σ) :=
  match entry.transaction with
  | none => .error .noIdentity
  | some key =>
    match a.TransactionParts key with
    | none => .error .noFragment
    | some fragment => do
      let previous ← previousOpTime entry
      if previous ≠ fragment.Last then .error .unlinked else close key fragment

def applyOpsEntry (a : Applier σ) (entry : Entry) (partialTxn prepare : Bool) : Except (ApplyError ε) (Applier σ) :=
  let fragment := a.fragmentOf entry
  if partialTxn || prepare || fragment.isSome then
    match entry.transaction with
    | none => .error .noIdentity
    | some key => do
      validateTransactionLink entry fragment
      let fragment := extendFragment fragment entry
      if partialTxn || prepare then a.PutTransactionFragment key fragment
      else a.applyFragment env key fragment entry.OpTime
  else a.perform env [entry.RawBSON.bytes] entry.OpTime

/-- `Apply` with `applyTransactionEntry`. -/
def Apply (a : Applier σ) (entry : Entry) : Except (ApplyError ε) (Applier σ) :=
  match entry.command with
  | .abortTransaction => closeTransaction a entry fun key _ => .ok (a.DeleteTransactionFragment key)
  | .commitTransaction => closeTransaction a entry fun key fragment => a.applyFragment env key fragment entry.OpTime
  | .applyOps partialTxn prepare => applyOpsEntry env a entry partialTxn prepare
  | .operation => a.written (env.operationOf entry.RawBSON.bytes >>= env.applyOperation entry.OpTime a.data)

/-! An entry concerns its own transaction only. -/

variable {entry : Entry} {a : Applier σ} {key : TransactionKey}

namespace Applier

/-- The applier with another fragment, or none, for one transaction. -/
def holding (a : Applier σ) (key : TransactionKey) (kept : Option TransactionFragment) : Applier σ :=
  { a with TransactionParts := Function.update a.TransactionParts key kept }

theorem holding_self (a : Applier σ) (key : TransactionKey) : a.holding key (a.TransactionParts key) = a := by
  rw [holding, update_eq_self]

variable {key other : TransactionKey} {kept : Option TransactionFragment}

theorem holding_put (a : Applier σ) (apart : other ≠ key) (fragment : TransactionFragment) :
    ((a.PutTransactionFragment other fragment : Except (ApplyError ε) (Applier σ)).map (·.holding key kept)) =
      (a.holding key kept).PutTransactionFragment other fragment := by
  rw [PutTransactionFragment, PutTransactionFragment]
  split
  · rfl
  · simp [Except.map, holding, update_comm apart]

theorem holding_delete (a : Applier σ) (apart : other ≠ key) :
    (a.DeleteTransactionFragment other).holding key kept = (a.holding key kept).DeleteTransactionFragment other := by
  simp [holding, DeleteTransactionFragment, update_comm apart]

theorem holding_written (a : Applier σ) (key : TransactionKey) (kept : Option TransactionFragment)
    (outcome : Except ε σ) :
    (a.written outcome).map (·.holding key kept) = (a.holding key kept).written outcome := by
  cases outcome <;> rfl

theorem holding_perform (a : Applier σ) (key : TransactionKey) (kept : Option TransactionFragment)
    (entries : List Bytes) (opTime : OpTime) :
    (a.perform env entries opTime).map (·.holding key kept) = (a.holding key kept).perform env entries opTime :=
  a.holding_written key kept _

theorem holding_applyFragment (a : Applier σ) (apart : other ≠ key) (fragment : TransactionFragment)
    (opTime : OpTime) :
    (a.applyFragment env other fragment opTime).map (·.holding key kept)
      = (a.holding key kept).applyFragment env other fragment opTime := by
  rw [applyFragment, applyFragment]
  cases decodeTransactionPayload fragment.Payload with
  | none => rfl
  | some entries =>
    simp only
    rw [← holding_perform]
    cases a.perform env entries opTime with
    | error _ => rfl
    | ok b => exact congrArg Except.ok (holding_delete b apart)

theorem parts_holding (a : Applier σ) (apart : other ≠ key) :
    (a.holding key kept).TransactionParts other = a.TransactionParts other :=
  update_of_ne apart ..

theorem fragmentOf_holding (a : Applier σ) (kept : Option TransactionFragment)
    (apart : entry.transaction ≠ some key) :
    (a.holding key kept).fragmentOf entry = a.fragmentOf entry := by
  rw [fragmentOf, fragmentOf]
  cases same : entry.transaction with
  | none => rfl
  | some _ => exact parts_holding a fun eq => apart (by rw [same, eq])

end Applier

theorem closeTransaction_holding {kept : Option TransactionFragment} (apart : entry.transaction ≠ some key)
    {close closed : TransactionKey → TransactionFragment → Except (ApplyError ε) (Applier σ)}
    (closes : ∀ other fragment, other ≠ key →
    (close other fragment).map (·.holding key kept) = closed other fragment) :
    (closeTransaction a entry close).map (·.holding key kept) = closeTransaction
      (a.holding key kept) entry closed := by
  rw [closeTransaction, closeTransaction]
  cases same : entry.transaction with
  | none => rfl
  | some other =>
    have differs : other ≠ key := fun eq => apart (by rw [same, eq])
    simp only [a.parts_holding differs]
    cases a.TransactionParts other with
    | none => rfl
    | some fragment =>
      rw [previousOpTime]
      cases entry.prevOpTime with
      | none => rfl
      | some _ =>
        simp only [Bind.bind, Except.bind]
        split
        · rfl
        · exact closes other fragment differs

theorem apply_holding (a : Applier σ) (kept : Option TransactionFragment) (apart : entry.transaction ≠ some key) :
    (Apply env a entry).map (·.holding key kept) = Apply env (a.holding key kept) entry := by
  rw [Apply, Apply]
  cases entry.command with
  | operation => exact a.holding_written key kept _
  | abortTransaction =>
    exact closeTransaction_holding apart fun other _ differs => congrArg Except.ok (a.holding_delete differs)
  | commitTransaction =>
    exact closeTransaction_holding apart fun other fragment differs => a.holding_applyFragment env differs fragment _
  | applyOps _ _ =>
    simp only
    rw [applyOpsEntry, applyOpsEntry, a.fragmentOf_holding kept apart]
    split
    · cases same : entry.transaction with
      | none => rfl
      | some other =>
        have differs : other ≠ key := fun eq => apart (by rw [same, eq])
        simp only
        cases (validateTransactionLink entry (a.fragmentOf entry) : Except (ApplyError ε) Unit) with
        | error _ => rfl
        | ok _ =>
          split
          · exact a.holding_put differs _
          · exact a.holding_applyFragment env differs _ _
    · exact a.holding_perform env key kept _ _

theorem parts_apply {b : Applier σ} (apart : entry.transaction ≠ some key)
    (applied : Apply env a entry = .ok b) : b.TransactionParts key = a.TransactionParts key := by
  have same := apply_holding env a (a.TransactionParts key) apart
  rw [Applier.holding_self, applied] at same
  have back : b.holding key (a.TransactionParts key) = b := Except.ok.inj same
  rw [← back]
  exact update_self ..

end Apply

end DumboDB.Replication
