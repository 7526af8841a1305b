import PostgresRs.Server.Session
import PostgresRs.Util.Run

/-!
# The server as a machine

All sessions of the server on one shared state, at the granularity of its mutexes.  One step of a
session is its local work up to and including one section under the database, log or lock mutex; the
list of events is the schedule.  The statements that take more than one step are

* `COMMIT` and `PREPARE TRANSACTION` — publish the working copy (database mutex), append the buffered
  changes (log mutex), release the locks (lock mutex),
* `LOCK TABLE` — one attempt at one table after the other,
* `SELECT ... FOR UPDATE | SHARE` — run the query, then one attempt at one row after the other.

All others take one step.  An attempt that has to wait is made again by a later step; the source
parks on a condition variable in between.

`COPY` with a file reads the file and then runs an `INSERT` or a `SELECT` through the same code;
what it finds in the file is `Engine.copySource`.
-/

namespace PostgresRs

variable {τ ρ : Type}

/-- The shared state, and every session. -/
structure Server (τ ρ : Type) where
  db : Database τ ρ
  /-- The texts of the records of the log, if one is configured. -/
  wal : Option (List String)
  locks : LockManager
  sessions : Pid → Session τ ρ
  /-- The number of steps taken. -/
  clock : Nat

/-- What happens next, and in which session. -/
inductive Event where
  | start (pid : Pid) (stmt : Statement)
  | resume (pid : Pid)
  /-- A cancel request or a watchdog sets the cancellation flag, or it is cleared. -/
  | setCancel (pid : Pid) (flag : Bool)
  /-- The message loop records that a statement failed. -/
  | markError (pid : Pid)
  | idleTimeout (pid : Pid)
  | disconnect (pid : Pid)

def Event.pid : Event → Pid
  | start pid _ | resume pid | setCancel pid _ | markError pid | idleTimeout pid
  | disconnect pid => pid

/-! ## Acquiring locks -/

/-- The outcome of one attempt of `acquire_lock`. -/
inductive Attempt where
  | granted
  | waiting
  | failed (message : String)
deriving DecidableEq, Repr

/-- One round of the loop of `acquire_lock`. -/
def acquireLock (locks : LockManager) (pid : Pid) (cancel : Bool) (obj : LockObject)
    (mode : LockMode) (nowait : Bool) : LockManager × Attempt :=
  match locks.tryAcquire pid obj mode with
  | (locks, .granted) => (locks, .granted)
  | (locks, .deadlock) => (locks.releaseAll pid, .failed "deadlock detected")
  | (locks, .conflict _) =>
    if nowait then (locks.releaseAll pid, .failed "could not obtain lock on relation")
    else if cancel then
      (locks.releaseAll pid, .failed "canceling statement due to user request")
    else (locks, .waiting)

/-- The mode of a `LOCK TABLE`. -/
def tableLockMode : Option String → Except String LockMode
  | none => .ok .accessExclusive
  | some s =>
    match LockMode.parse s with
    | some mode => .ok mode
    | none => .error ("unrecognized lock mode: " ++ s)

/-- The key of a row, from the texts of its values. -/
def rowKey (toText : Value → Option String) (row : List Value) : String :=
  "\x01".intercalate (row.map fun v => (toText v).getD "\x00NULL")

namespace RowLockingClause

/-- Whether a clause asks for an exclusive row lock. -/
def isExclusive (c : RowLockingClause) : Bool :=
  match c.mode with
  | .update | .noKeyUpdate => true
  | .share | .keyShare => false

end RowLockingClause

namespace Select

variable (select : Select)

/-- The strongest row lock asked for. -/
def lockMode : LockMode :=
  if select.locking.any RowLockingClause.isExclusive then .exclusive else .share

def waitPolicy : Option RowLockingWaitPolicy :=
  select.locking.findSome? RowLockingClause.waitPolicy

/-- The table whose rows are locked: the first of the `OF` lists, or the base of `FROM`. -/
def lockTarget : Option String :=
  (select.locking.flatMap RowLockingClause.tables).head?.or
    (select.from.map fun f => f.base.name)

end Select

/-- The answer of a locking `SELECT` once all its rows are locked or skipped. -/
def RowLocking.result (rl : RowLocking) : ExecResult :=
  .rows rl.fields rl.kept
    (if "SELECT".isPrefixOf rl.tag then "SELECT " ++ toString rl.kept.length else rl.tag)

namespace Server

variable (w : Engine τ ρ) (s : Server τ ρ) (pid : Pid) (sess : Session τ ρ)

def setSession : Server τ ρ :=
  { s with sessions := Function.update s.sessions pid sess }

/-- The statement of `pid` is over. -/
def reply (result : StmtResult) : Server τ ρ :=
  s.setSession pid { sess with running := none, result := some result }

/-- The statement of `pid` goes on with another step. -/
def pause (next : Running) : Server τ ρ :=
  s.setSession pid { sess with running := some next }

/-- `release_locks`. -/
def releaseLocks : Server τ ρ :=
  { s with locks := s.locks.releaseAll pid }

/-! ## The log -/

/-- The appends of one section to the log `log`, numbered from `i`.  An empty text writes nothing,
and a failed append is only reported. -/
def appendAll (ok : Nat → Bool) : Nat → List String → List String → List String
  | _, log, [] => log
  | i, log, sql :: sqls =>
    if sql = "" then appendAll ok i log sqls
    else appendAll ok (i + 1) (if ok i then log ++ [sql] else log) sqls

/-- What appends add to a log does not depend on what is in it. -/
theorem appendAll_eq (ok : Nat → Bool) (i : Nat) (log sqls : List String) :
    appendAll ok i log sqls = log ++ appendAll ok i [] sqls := by
  induction sqls generalizing i log with
  | nil => simp [appendAll]
  | cons sql sqls ih =>
    unfold appendAll
    split
    · exact ih i log
    · rw [ih]
      conv_rhs => rw [ih]
      split <;> simp

/-- The section under the log mutex. -/
def append (sqls : List String) : Server τ ρ :=
  { s with wal := s.wal.map fun log => appendAll (w.appendOk s.clock) 0 log sqls }

/-- `execute_autocommit`: run on the shared database and log a change before its mutex is released.
-/
def executeAutocommit (stmt : Statement) : Server τ ρ × StmtResult :=
  let (store, result) := w.execute s.db.store stmt
  let s := { s with db := { s.db with store := store } }
  match result with
  | .ok r => (if stmt.isMutation then s.append w [w.statementToSql stmt] else s, .ok r)
  | .error e => (s, .error e)

/-! ## Starting a statement -/

/-- The ordinary path of a statement: in the session's block, or in autocommit. -/
def runPlain (stmt : Statement) : Server τ ρ × Session τ ρ × StmtResult :=
  match (s.sessions pid).tx with
  | some tx =>
    let (sess, result) := (s.sessions pid).runInBlock w tx stmt
    (s, sess, result)
  | none =>
    let (s', result) := s.executeAutocommit w stmt
    (s', s.sessions pid, result)

/-- Go on with the next row to lock, or answer. -/
def lockRows (rl : RowLocking) : Server τ ρ :=
  match rl.rows with
  | [] => s.reply pid sess (.ok rl.result)
  | _ :: _ => s.pause pid sess (.lockingRows rl)

/-- `run_select_for_locking`, up to the first row. -/
def startLocking (select : Select) : Server τ ρ :=
  let (s, sess, result) := s.runPlain w pid (.select select)
  match select.lockTarget, result with
  | some target, .ok (.rows fields rows tag) =>
    s.lockRows pid sess ⟨target, select.lockMode, select.waitPolicy, fields, tag, rows, []⟩
  | _, _ => s.reply pid sess result

/-- The last two arms of `run_statement`: everything that is not intercepted before. -/
def runData (stmt : Statement) : Server τ ρ :=
  let (s', sess, result) := s.runPlain w pid stmt
  s'.reply pid sess result

/-- A `SELECT`, with or without locking clauses. -/
def runSelect (select : Select) : Server τ ρ :=
  if select.locking.isEmpty then s.runData w pid (.select select)
  else s.startLocking w pid select

/-- Go on with the next table to lock, or answer. -/
def lockTables (tables : List String) (mode : LockMode) (nowait : Bool) : Server τ ρ :=
  match tables with
  | [] => s.reply pid sess (.ok (.command "LOCK TABLE"))
  | _ :: _ => s.pause pid sess (.lockingTables tables mode nowait)

/-- `LOCK TABLE`, up to the first table. -/
def startLockTable (lock : LockTable) : Server τ ρ :=
  let sess := s.sessions pid
  match sess.tx with
  | none => s.reply pid sess (.error "LOCK TABLE can only be used in transaction blocks")
  | some tx =>
    if tx.failed then s.reply pid sess (.error abortedMessage)
    else
      match lock.tables.find? fun t => !tx.db.store.containsTable t with
      | some t => s.reply pid sess (.error ("relation \"" ++ t ++ "\" does not exist"))
      | none =>
        match tableLockMode lock.mode with
        | .error e => s.reply pid sess (.error e)
        | .ok mode => s.lockTables pid sess lock.tables mode lock.nowait

/-- The end of a block that has not failed, by `COMMIT` or by `PREPARE TRANSACTION gid`: publish, or
give up because of a conflict. -/
def startPublish (tx : Transaction τ ρ) (gid : Option String) : Server τ ρ :=
  let sess := { s.sessions pid with tx := none }
  match tx.publish s.db with
  | none => s.pause pid sess (.releasing (.error serializationMessage))
  | some db => { s with db := db }.pause pid sess (.appending tx.buffered gid)

/-- `COMMIT`. -/
def startCommit : Server τ ρ :=
  let sess := s.sessions pid
  match sess.tx with
  | none =>
    s.reply pid { sess with notices := sess.notices ++ [noTransaction] } (.ok (.command "COMMIT"))
  | some tx =>
    if tx.failed then (s.releaseLocks pid).reply pid sess.close (.ok (.command "ROLLBACK"))
    else s.startPublish pid tx none

/-- `PREPARE TRANSACTION gid`. -/
def startPrepare (gid : String) : Server τ ρ :=
  let sess := s.sessions pid
  match sess.tx with
  | none =>
    s.reply pid sess (.error "PREPARE TRANSACTION can only be used in transaction blocks")
  | some tx =>
    if tx.failed then (s.releaseLocks pid).reply pid sess.close (.error abortedMessage)
    else s.startPublish pid tx (some gid)

/-- `ROLLBACK`. -/
def startRollback : Server τ ρ :=
  let sess := s.sessions pid
  let notices := if sess.tx.isSome then sess.notices else sess.notices ++ [noTransaction]
  (s.releaseLocks pid).reply pid { sess.close with notices := notices } (.ok (.command "ROLLBACK"))

/-- The contents a statement of `pid` reads. -/
def view : Store τ ρ :=
  match (s.sessions pid).tx with
  | some tx => tx.db.store
  | none => s.db.store

/-- The first step of a statement, by the arms of `run_statement`. -/
def start (stmt : Statement) : Server τ ρ :=
  let sess := s.sessions pid
  let control := fun (r : Session τ ρ × StmtResult) => s.reply pid r.1 r.2
  match stmt with
  | .begin isolation readOnly =>
    control (sess.begin s.db isolation readOnly, .ok (.command "BEGIN"))
  | .setTransaction isolation readOnly isSession =>
    control (sess.setTransaction isolation readOnly isSession, .ok (.command "SET"))
  | .listen _ => control (sess, .ok (.command "LISTEN"))
  | .unlisten _ => control (sess, .ok (.command "UNLISTEN"))
  | .notify _ _ => control (sess, .ok (.command "NOTIFY"))
  | .commit => s.startCommit pid
  | .rollback => s.startRollback pid
  | .prepareTransaction gid => s.startPrepare pid gid
  | .commitPrepared gid => control (sess.finishPrepared gid "COMMIT PREPARED")
  | .rollbackPrepared gid => control (sess.finishPrepared gid "ROLLBACK PREPARED")
  | .savepoint name => control (sess.savepoint name)
  | .releaseSavepoint name => control (sess.releaseSavepoint name)
  | .rollbackToSavepoint name => control (sess.rollbackToSavepoint name)
  | .lockTable lock => s.startLockTable pid lock
  | .select select => s.runSelect w pid select
  | .copy copy =>
    match w.copySource s.clock copy (s.view pid) with
    | .done result => control (sess, result)
    | .insert i => s.runData w pid (.insert i)
    | .select select => s.runSelect w pid select
  | stmt => s.runData w pid stmt

/-! ## Going on with a statement -/

/-- The next table of a `LOCK TABLE`. -/
def lockNextTable (tables : List String) (mode : LockMode) (nowait : Bool) : Server τ ρ :=
  let sess := s.sessions pid
  match tables with
  | [] => s.lockTables pid sess [] mode nowait
  | t :: rest =>
    let (locks, attempt) := acquireLock s.locks pid sess.cancel (.table t) mode nowait
    let s := { s with locks := locks }
    match attempt with
    | .granted => s.lockTables pid sess rest mode nowait
    | .waiting => s
    | .failed e => s.reply pid sess.markError (.error e)

/-- The next row of a locking `SELECT`. -/
def lockNextRow (rl : RowLocking) : Server τ ρ :=
  let sess := s.sessions pid
  match rl.rows with
  | [] => s.lockRows pid sess rl
  | row :: rest =>
    let obj := LockObject.row rl.target (rowKey w.toText row)
    let keep := { rl with rows := rest, kept := rl.kept ++ [row] }
    if rl.waitPolicy = some .skipLocked then
      if s.locks.isLockedByOther pid obj rl.mode then
        s.lockRows pid sess { rl with rows := rest }
      else { s with locks := (s.locks.tryAcquire pid obj rl.mode).1 }.lockRows pid sess keep
    else
      let (locks, attempt) :=
        acquireLock s.locks pid sess.cancel obj rl.mode (rl.waitPolicy = some .noWait)
      let s := { s with locks := locks }
      match attempt with
      | .granted => s.lockRows pid sess keep
      | .waiting => s
      | .failed e => s.reply pid sess.markError (.error e)

/-- The command tag of the statement that published. -/
def publishTag : Option String → String
  | none => "COMMIT"
  | some _ => "PREPARE TRANSACTION"

/-- The section of `COMMIT` or `PREPARE TRANSACTION` under the log mutex. -/
def appendBuffered (buffered : List String) (gid : Option String) : Server τ ρ :=
  let sess := s.sessions pid
  (s.append w buffered).pause pid
    { sess with preparedGids := gid.elim sess.preparedGids (insert · sess.preparedGids) }
    (.releasing (.ok (.command (publishTag gid))))

/-- The last section of a statement that ends a block. -/
def finishBlock (result : StmtResult) : Server τ ρ :=
  (s.releaseLocks pid).reply pid { s.sessions pid with txStatus := .idle } result

/-- The next step of a statement that stands at `next`. -/
def resume : Running → Server τ ρ
  | .appending buffered gid => s.appendBuffered w pid buffered gid
  | .releasing result => s.finishBlock pid result
  | .lockingTables tables mode nowait => s.lockNextTable pid tables mode nowait
  | .lockingRows rl => s.lockNextRow w pid rl

/-! ## Steps -/

/-- Apply an event; one that does not apply in this state does nothing. -/
def apply : Event → Server τ ρ
  | .start pid stmt =>
    if (s.sessions pid).running.isNone then s.start w pid stmt else s
  | .resume pid =>
    match (s.sessions pid).running with
    | some next => s.resume w pid next
    | none => s
  | .setCancel pid flag => s.setSession pid { s.sessions pid with cancel := flag }
  | .markError pid =>
    if (s.sessions pid).running.isNone then s.setSession pid (s.sessions pid).markError else s
  | .idleTimeout pid =>
    if (s.sessions pid).running.isNone && (s.sessions pid).tx.isSome then
      (s.releaseLocks pid).setSession pid (s.sessions pid).close
    else s
  | .disconnect pid =>
    if (s.sessions pid).running.isNone then (s.releaseLocks pid).setSession pid {} else s

/-- One step of the server. -/
def step (e : Event) : Server τ ρ :=
  { s.apply w e with clock := s.clock + 1 }

/-- The server with the contents `db` and the log `wal`, before any session. -/
def init (db : Database τ ρ) (wal : Option (List String)) : Server τ ρ where
  db := db
  wal := wal
  locks := .new
  sessions := fun _ => {}
  clock := 0

end Server

/-! ## A small engine

Tables of integers with `INSERT ... VALUES` alone, for runs on concrete inputs.  As in the executor,
an `INSERT` looks at all its rows before it stores any; only those of the partitioned table `p` go to
their partition `p0`, for the numbers from 0 to 9, one by one.
-/

/-- The integers of the rows, if all are. -/
def intRows : List (List Expr) → Option (List Int)
  | [] => some []
  | [.int i] :: rows => (intRows rows).map (i :: ·)
  | _ :: _ => none

/-- Store the rows in the partition, up to the first one that does not belong there. -/
def routeInts (partition : List Int) : List (List Expr) → List Int × Bool
  | [] => (partition, true)
  | [.int i] :: rows =>
    if 0 ≤ i ∧ i < 10 then routeInts (partition ++ [i]) rows else (partition, false)
  | _ :: _ => (partition, false)

/-- The `INSERT` of rows into a table. -/
def insertInts (st : Store (List Int) Unit) (table : String) (stored : List Int)
    (rows : List (List Expr)) : Store (List Int) Unit × StmtResult :=
  if table = "p" then
    let (partition, ok) := routeInts ((st.tables "p0").getD []) rows
    ({ st with tables := Function.update st.tables "p0" (some partition) },
      if ok then .ok (.command "INSERT")
      else .error "no partition of relation \"p\" found for row")
  else
    match intRows rows with
    | none => (st, .error "null value violates not-null constraint")
    | some ints =>
      ({ st with tables := Function.update st.tables table (some (stored ++ ints)) },
        .ok (.command "INSERT"))

/-- `INSERT INTO table VALUES (...), ...`. -/
def insertInto (table : String) (rows : List (List Expr)) : Statement :=
  .insert ⟨table, none, false, false, rows, none, none, []⟩

def tinyEngine : Engine (List Int) Unit where
  execute st stmt :=
    match stmt with
    | .insert i =>
      match st.tables i.table with
      | none => (st, .error "relation does not exist")
      | some stored => insertInts st i.table stored i.rows
    | .select _ => (st, .ok (.rows [] [[.int 1]] "SELECT 1"))
    | _ => (st, .ok (.command "OK"))
  statementToSql stmt :=
    match stmt with
    | .insert i => "INSERT INTO " ++ i.table
    | _ => "OTHER"
  toText _ := some "1"
  copySource _ _ _ := .done (.error "could not read COPY source")
  appendOk _ _ := true

/-- A database with the tables `t`, `u` and `p`, and the partition `p0` of `p`, all empty. -/
def tinyDatabase : Database (List Int) Unit where
  store := ⟨fun t => if t ∈ ["t", "u", "p", "p0"] then some [] else none, fun _ => none, ()⟩
  commitVersion := 0
  tableVersion := fun _ => 0
  tableVersion_le := fun _ => le_rfl

end PostgresRs
