import PostgresRs.Sql.Statement
import Mathlib.Data.Finset.Basic

/-!
# The database and what a statement writes

The server keeps one shared database and clones it for every transaction block.  Two parts of it
matter to the transaction logic: its contents, which only the executor changes, and the bookkeeping
of commits, which only the server's `COMMIT` changes.

* `Store τ ρ` — the contents: tables by name, run-time settings, and everything else (`ρ`).
* `Database τ ρ` — the contents with the commit counter and the version at which a committed
  transaction last wrote each table, and the three methods of `engine/src/storage.rs` on them.
* `Engine τ ρ` — the parts of the system the transaction logic calls without looking inside: the
  executor, the serializer of statements for the log, and what the file system answers.
* `isMutation`, `isDataMutation`, `mutatedTables` and `isControl` — the server's classification of
  statements.
-/

namespace PostgresRs

variable {τ ρ : Type}

/-- The contents of a database: `τ` is the type of a table, `ρ` of all that is neither a table nor a
run-time setting. -/
structure Store (τ ρ : Type) where
  tables : String → Option τ
  systemSettings : String → Option String
  rest : ρ

namespace Store

/-- Set a run-time setting other than `search_path`; `name` is in lower case. -/
def setSystemSetting (st : Store τ ρ) (name value : String) : Store τ ρ :=
  { st with systemSettings := Function.update st.systemSettings name (some value) }

def containsTable (st : Store τ ρ) (name : String) : Bool :=
  (st.tables name).isSome

end Store

/-- A database with its commit bookkeeping. -/
structure Database (τ ρ : Type) where
  store : Store τ ρ
  /-- The number of commits so far. -/
  commitVersion : Nat
  /-- The commit that last wrote a table; 0 for a table without a stamp. -/
  tableVersion : String → Nat
  tableVersion_le : ∀ t, tableVersion t ≤ commitVersion

namespace Database

/-- Whether some table of the write set was stamped by a commit after the snapshot. -/
def hasConflictingCommit (db : Database τ ρ) (writeSet : Finset String) (snapshot : Nat) : Bool :=
  decide (∃ table ∈ writeSet, snapshot < db.tableVersion table)

/-- Take over the bookkeeping of `source`. -/
def adoptCommitState (db source : Database τ ρ) : Database τ ρ :=
  { db with
    commitVersion := source.commitVersion
    tableVersion := source.tableVersion
    tableVersion_le := source.tableVersion_le }

/-- Count one more commit and stamp the tables it wrote. -/
def recordCommit (db : Database τ ρ) (writeSet : Finset String) : Database τ ρ :=
  { db with
    commitVersion := db.commitVersion + 1
    tableVersion := fun t => if t ∈ writeSet then db.commitVersion + 1 else db.tableVersion t
    tableVersion_le := fun t => by
      have := db.tableVersion_le t
      split <;> omega }

@[simp] theorem store_recordCommit (db : Database τ ρ) (writeSet : Finset String) :
    (db.recordCommit writeSet).store = db.store := rfl

@[simp] theorem store_adoptCommitState (db source : Database τ ρ) :
    (db.adoptCommitState source).store = db.store := rfl

end Database

/-- What a statement returns to its session. -/
abbrev StmtResult := Except String ExecResult

/-- What a `COPY` comes to once its file is read: it is over, or it runs an `INSERT` of the file's
rows or a `SELECT` of the rows to write. -/
inductive CopySource where
  | done (result : StmtResult)
  | insert (stmt : Insert)
  | select (stmt : Select)

/-- The collaborators of the transaction logic. -/
structure Engine (τ ρ : Type) where
  /-- The executor: it returns the contents it leaves behind, also when it fails. -/
  execute : Store τ ρ → Statement → Store τ ρ × StmtResult
  /-- The serializer of statements for the log. -/
  statementToSql : Statement → String
  /-- The text form of a value, nothing for `NULL`. -/
  toText : Value → Option String
  /-- What a `COPY` finds in its file; the file can change from step to step. -/
  copySource : Nat → Copy → Store τ ρ → CopySource
  /-- Whether the `i`-th append of a step to the log succeeds. -/
  appendOk : Nat → Nat → Bool

/-! ## What a statement writes -/

namespace Statement

/-- Whether a statement changes table data. -/
def isDataMutation : Statement → Bool
  | insert _ | update _ | delete _ | merge _ | truncate _ => true
  | _ => false

/-- The statements `run_statement` answers itself, without the executor. -/
def isControl : Statement → Bool
  | begin _ _ | setTransaction _ _ _ | listen _ | unlisten _ | notify _ _ | commit | rollback
  | prepareTransaction _ | commitPrepared _ | rollbackPrepared _ | savepoint _
  | releaseSavepoint _ | rollbackToSavepoint _ | lockTable _ => true
  | _ => false

/-- The tables a statement is taken to write, for the write set of its transaction. -/
def mutatedTables : Statement → List String
  | insert i => [i.table]
  | update u => [u.table]
  | delete d => [d.table]
  | merge m => [m.target]
  | truncate t => t.tables
  | alterTable a => [a.table]
  | createPolicy c => [c.table]
  | alterPolicy a => [a.table]
  | dropPolicy d => [d.table]
  | dropTable d => [d.name]
  | explain true stmt => mutatedTables stmt
  | _ => []

/-- Whether a statement changes persistent state and is logged. -/
def isMutation : Statement → Bool
  | createTable _ | createExtension _ | alterExtension _ | createRole _ | createSequence _
  | createSchema _ | createDatabase _ | createTablespace _ | createCollation _ | createType _
  | createDomain _ | createView _ | createMaterializedView _ | createFunction _ | createTrigger _
  | createRule _ | createAggregate _ | dropFunction _ | dropTrigger _ | dropRule _
  | dropAggregate _ | dropTable _ | dropExtension _ | dropRole _ | dropSequence _ | dropSchema _
  | dropDatabase _ | dropTablespace _ | dropCollation _ | dropType _ | dropDomain _ | dropView _
  | dropMaterializedView _ | refreshMaterializedView _ | alterTable _ | createPolicy _
  | alterPolicy _ | dropPolicy _ | alterRole _ | alterSequence _ | securityLabel _
  | alterSystem _ | createIndex _ | dropIndex _ | comment _ | grant _ | revoke _ | insert _
  | truncate _ | alterDatabase _ | update _ | delete _ | createCatalogObject _
  | dropCatalogObject _ | merge _ => true
  | explain true stmt => isMutation stmt
  | _ => false

end Statement

end PostgresRs
