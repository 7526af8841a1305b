import PostgresRs.Server.Database
import PostgresRs.Lock.Acquire

/-!
# Sessions and transaction blocks

A session outside a transaction block has no `Transaction`; inside one it has a private working copy
of the database, the SQL of the changes to log at `COMMIT`, and a stack of savepoints.  This file
has the state of `server/src/server.rs` and the arms of `run_statement` that touch only it.

A statement that needs several of the server's mutexes runs in several steps (see
`PostgresRs.Server.Machine`); `Running` is where it stands between two of them.
-/

namespace PostgresRs

variable {τ ρ : Type}

/-! ## State -/

/-- The transaction status a client sees: `I`, `T` or `E`. -/
inductive TxStatus where
  | idle | inTransaction | failed
deriving DecidableEq, Repr

/-- A warning sent with a statement's result. -/
structure Notice where
  severity : String
  code : String
  message : String
deriving DecidableEq, Repr

structure Savepoint (τ ρ : Type) where
  name : String
  db : Database τ ρ
  bufferedLen : Nat
  writeSet : Finset String

/-- An open transaction block. -/
structure Transaction (τ ρ : Type) where
  /-- The working copy. -/
  db : Database τ ρ
  /-- The serialized changes, for the log. -/
  buffered : List String
  savepoints : List (Savepoint τ ρ)
  /-- A statement of the block has failed. -/
  failed : Bool
  isolation : IsolationLevel
  readOnly : Bool
  /-- The shared commit version at `BEGIN`. -/
  snapshotVersion : Nat
  writeSet : Finset String

/-- The rows a `SELECT ... FOR UPDATE | SHARE` still has to lock. -/
structure RowLocking where
  target : String
  mode : LockMode
  waitPolicy : Option RowLockingWaitPolicy
  fields : List FieldDescription
  tag : String
  rows : List (List Value)
  kept : List (List Value)

/-- Where a statement stands between two of its steps. -/
inductive Running where
  /-- The working copy is published; the buffered changes are next appended to the log.  `gid` is
  that of `PREPARE TRANSACTION`. -/
  | appending (buffered : List String) (gid : Option String)
  /-- The locks are next released, and the statement returns `result`. -/
  | releasing (result : StmtResult)
  /-- `LOCK TABLE`: the tables still to lock. -/
  | lockingTables (tables : List String) (mode : LockMode) (nowait : Bool)
  | lockingRows (rl : RowLocking)

structure Session (τ ρ : Type) where
  txStatus : TxStatus := .idle
  tx : Option (Transaction τ ρ) := none
  /-- The cancellation flag. -/
  cancel : Bool := false
  notices : List Notice := []
  preparedGids : Finset String := ∅
  defaultIsolation : IsolationLevel := .readCommitted
  defaultReadOnly : Bool := false
  /-- The statement being run, if any. -/
  running : Option Running := none
  /-- What the last statement returned. -/
  result : Option StmtResult := none

/-! ## Messages -/

def abortedMessage : String :=
  "current transaction is aborted, commands ignored until end of transaction block"

def serializationMessage : String :=
  "could not serialize access due to concurrent update"

def noTransaction : Notice :=
  ⟨"WARNING", "25P01", "there is no transaction in progress"⟩

def alreadyInTransaction : Notice :=
  ⟨"WARNING", "25001", "there is already a transaction in progress"⟩

/-! ## The arms of `run_statement` on a transaction block -/

/-- The last position whose element satisfies `p`. -/
def rposition {α : Type} (p : α → Bool) : List α → Option Nat
  | [] => none
  | a :: l =>
    match rposition p l with
    | some i => some (i + 1)
    | none => if p a then some 0 else none

namespace Transaction

variable (tx : Transaction τ ρ)

/-- The block opened by `BEGIN` on the shared database `db`. -/
def start (db : Database τ ρ) (level : IsolationLevel) (ro : Bool) : Transaction τ ρ where
  db := { db with
    store := (db.store.setSystemSetting "transaction_isolation" level.gucValue).setSystemSetting
      "transaction_read_only" (if ro then "on" else "off") }
  buffered := []
  savepoints := []
  failed := false
  isolation := level
  readOnly := ro
  snapshotVersion := db.commitVersion
  writeSet := ∅

/-- `SET TRANSACTION ISOLATION LEVEL`, reflected in the working copy's settings. -/
def setIsolation : Option IsolationLevel → Transaction τ ρ
  | none => tx
  | some level =>
    { tx with
      isolation := level
      db := { tx.db with
        store := tx.db.store.setSystemSetting "transaction_isolation" level.gucValue } }

/-- `SET TRANSACTION READ ONLY | READ WRITE`. -/
def setReadOnly : Option Bool → Transaction τ ρ
  | none => tx
  | some ro =>
    { tx with
      readOnly := ro
      db := { tx.db with
        store := tx.db.store.setSystemSetting "transaction_read_only"
          (if ro then "on" else "off") } }

/-- `SAVEPOINT name`. -/
def savepoint (name : String) : Transaction τ ρ :=
  { tx with
    savepoints := (tx.savepoints.filter fun sp => sp.name != name) ++
      [⟨name, tx.db, tx.buffered.length, tx.writeSet⟩] }

/-- `RELEASE SAVEPOINT name`; `none` if there is no such savepoint. -/
def releaseSavepoint (name : String) : Option (Transaction τ ρ) :=
  (rposition (fun sp => sp.name == name) tx.savepoints).map fun pos =>
    { tx with savepoints := tx.savepoints.take pos }

/-- `ROLLBACK TO SAVEPOINT name`; `none` if there is no such savepoint. -/
def rollbackTo (name : String) : Option (Transaction τ ρ) :=
  (rposition (fun sp => sp.name == name) tx.savepoints).bind fun pos =>
    tx.savepoints[pos]?.map fun sp =>
      { tx with
        db := sp.db
        buffered := tx.buffered.take sp.bufferedLen
        writeSet := sp.writeSet
        savepoints := tx.savepoints.take (pos + 1)
        failed := false }

def fail : Transaction τ ρ := { tx with failed := true }

/-- Run a statement on the working copy of a block that has not failed, and record what it wrote. -/
def execute (w : Engine τ ρ) (stmt : Statement) : Transaction τ ρ × StmtResult :=
  let (store, result) := w.execute tx.db.store stmt
  let tx := { tx with db := { tx.db with store := store } }
  match result with
  | .ok r =>
    if stmt.isMutation then
      ({ tx with
        buffered := tx.buffered ++ [w.statementToSql stmt]
        writeSet := tx.writeSet ∪ stmt.mutatedTables.toFinset }, .ok r)
    else (tx, .ok r)
  | .error e => (tx.fail, .error e)

/-- Run a statement inside the block: refused once the block has failed, and a change of data is
refused in a read-only block. -/
def run (w : Engine τ ρ) (stmt : Statement) : Transaction τ ρ × StmtResult :=
  if tx.failed then (tx, .error abortedMessage)
  else if tx.readOnly && stmt.isDataMutation then
    (tx.fail, .error "cannot execute statement in a read-only transaction")
  else tx.execute w stmt

/-- The isolation levels under which `COMMIT` looks for conflicts. -/
def serializing : Bool :=
  match tx.isolation with
  | .repeatableRead | .serializable => true
  | .readUncommitted | .readCommitted => false

/-- The section of `COMMIT` and `PREPARE TRANSACTION` under the database mutex: the database to
publish, or nothing if the transaction conflicts with a commit since its snapshot. -/
def publish (shared : Database τ ρ) : Option (Database τ ρ) :=
  if tx.serializing && shared.hasConflictingCommit tx.writeSet tx.snapshotVersion then none
  else some ((tx.db.adoptCommitState shared).recordCommit tx.writeSet)

end Transaction

namespace Session

variable (sess : Session τ ρ)

/-- `BEGIN`: a block inside a block only warns. -/
def begin (db : Database τ ρ) (isolation : Option IsolationLevel) (readOnly : Option Bool) :
    Session τ ρ :=
  match sess.tx with
  | none =>
    { sess with
      tx := some (.start db (isolation.getD sess.defaultIsolation)
        (readOnly.getD sess.defaultReadOnly))
      txStatus := .inTransaction }
  | some _ => { sess with notices := sess.notices ++ [alreadyInTransaction] }

/-- `SET TRANSACTION` and `SET SESSION CHARACTERISTICS AS TRANSACTION`; outside a block the former
sets the defaults as well. -/
def setTransaction (isolation : Option IsolationLevel) (readOnly : Option Bool)
    (isSession : Bool) : Session τ ρ :=
  match isSession, sess.tx with
  | false, some tx => { sess with tx := some ((tx.setIsolation isolation).setReadOnly readOnly) }
  | _, _ =>
    { sess with
      defaultIsolation := isolation.getD sess.defaultIsolation
      defaultReadOnly := readOnly.getD sess.defaultReadOnly }

/-- The end of a block, by whichever statement. -/
def close : Session τ ρ := { sess with tx := none, txStatus := .idle }

/-- Record that a statement failed. -/
def markError : Session τ ρ :=
  match sess.tx with
  | none => sess
  | some tx => { sess with tx := some tx.fail, txStatus := .failed }

/-- `COMMIT PREPARED` and `ROLLBACK PREPARED`, which only look for the identifier. -/
def finishPrepared (gid tag : String) : Session τ ρ × StmtResult :=
  if gid ∈ sess.preparedGids then
    ({ sess with preparedGids := sess.preparedGids.erase gid }, .ok (.command tag))
  else
    (sess, .error ("prepared transaction with identifier \"" ++ gid ++ "\" does not exist"))

variable (name : String)

def noSavepoint : String :=
  "savepoint \"" ++ name ++ "\" does not exist"

def savepoint : Session τ ρ × StmtResult :=
  match sess.tx with
  | none => (sess, .error "SAVEPOINT can only be used in transaction blocks")
  | some tx => ({ sess with tx := some (tx.savepoint name) }, .ok (.command "SAVEPOINT"))

def releaseSavepoint : Session τ ρ × StmtResult :=
  match sess.tx with
  | none => (sess, .error "RELEASE SAVEPOINT can only be used in transaction blocks")
  | some tx =>
    match tx.releaseSavepoint name with
    | none => (sess, .error (noSavepoint name))
    | some tx => ({ sess with tx := some tx }, .ok (.command "RELEASE"))

def rollbackToSavepoint : Session τ ρ × StmtResult :=
  match sess.tx with
  | none => (sess, .error "ROLLBACK TO SAVEPOINT can only be used in transaction blocks")
  | some tx =>
    match tx.rollbackTo name with
    | none => (sess, .error (noSavepoint name))
    | some tx =>
      ({ sess with tx := some tx, txStatus := .inTransaction }, .ok (.command "ROLLBACK"))

/-- Run a statement in the session's block `tx`. -/
def runInBlock (w : Engine τ ρ) (tx : Transaction τ ρ) (stmt : Statement) :
    Session τ ρ × StmtResult :=
  match tx.run w stmt with
  | (tx', .ok r) => ({ sess with tx := some tx' }, .ok r)
  | (tx', .error e) =>
    -- A block that had failed before keeps its status; otherwise the status becomes `E`.
    ({ sess with tx := some tx', txStatus := if tx.failed then sess.txStatus else .failed },
      .error e)

end Session

end PostgresRs
