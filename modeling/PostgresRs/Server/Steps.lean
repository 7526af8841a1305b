import PostgresRs.Server.Machine

/-!
# What a step of the server can do

One lemma, `did`, says everything a step can do to the shared state and to the session it belongs
to; the invariants of the following files are proved from it without looking at the arms of
`run_statement` again.

* `BlockStep` — how the transaction block of a session can change, short of its end: it is opened, a
  statement is executed in it, a savepoint is set, released or returned to, its mode is changed, or
  it fails.
* `Wants` — the lock a running statement asks for next.
* `Did` — the kinds of steps: local work, autocommit, the three sections of `COMMIT` and
  `PREPARE TRANSACTION`, and the outcomes of an attempt to lock.
-/

namespace PostgresRs

open Session Server

variable {τ ρ : Type}

/-! ## Fields of the updated server -/

variable {q : Pid}

namespace Server

variable {w : Engine τ ρ} {s : Server τ ρ} {pid : Pid} {sess : Session τ ρ} {r : StmtResult}
  {n : Running} {sqls : List String} {stmt : Statement}

@[simp] theorem db_setSession : (s.setSession pid sess).db = s.db := rfl
@[simp] theorem wal_setSession : (s.setSession pid sess).wal = s.wal := rfl
@[simp] theorem locks_setSession : (s.setSession pid sess).locks = s.locks := rfl

@[simp] theorem sessions_set_self : (s.setSession pid sess).sessions pid = sess := by
  simp [setSession]

theorem sessions_set_of_ne (h : q ≠ pid) :
    (s.setSession pid sess).sessions q = s.sessions q := by
  simp [setSession, h]

@[simp] theorem setSession_self : s.setSession pid (s.sessions pid) = s := by
  simp [setSession]

@[simp] theorem locks_append : (s.append w sqls).locks = s.locks := rfl

/-- What an autocommit statement has to add to the log. -/
def autocommitLog (w : Engine τ ρ) (s : Server τ ρ) (stmt : Statement) : List String :=
  match (w.execute s.db.store stmt).2 with
  | .ok _ => if stmt.isMutation then [w.statementToSql stmt] else []
  | .error _ => []

/-- `execute_autocommit` runs the statement on the shared database and logs it. -/
theorem executeAutocommit_eq (stmt : Statement) :
    (s.executeAutocommit w stmt).1 =
      { s with db := { s.db with store := (w.execute s.db.store stmt).1 } }.append w
        (s.autocommitLog w stmt) := by
  have hnil : ∀ s : Server τ ρ, s.append w [] = s := fun s => by
    cases s with
    | mk db wal => cases wal <;> rfl
  cases hr : (w.execute s.db.store stmt).2 with
  | error m => simp [executeAutocommit, autocommitLog, hr, hnil]
  | ok r =>
    cases hm : stmt.isMutation with
    | true => simp [executeAutocommit, autocommitLog, hr, hm]
    | false => simp [executeAutocommit, autocommitLog, hr, hm, hnil]

@[simp] theorem sessions_executeAutocommit :
    (s.executeAutocommit w stmt).1.sessions = s.sessions := by
  rw [executeAutocommit_eq]
  rfl

@[simp] theorem db_executeAutocommit :
    (s.executeAutocommit w stmt).1.db =
      { s.db with store := (w.execute s.db.store stmt).1 } := by
  rw [executeAutocommit_eq]
  rfl

@[simp] theorem locks_executeAutocommit : (s.executeAutocommit w stmt).1.locks = s.locks := by
  rw [executeAutocommit_eq]
  rfl

/-- The statement that reaches the executor when `stmt` is run: for `COPY` the one it builds. -/
def resolve (w : Engine τ ρ) (s : Server τ ρ) (pid : Pid) (stmt : Statement) : Statement :=
  match stmt with
  | .copy copy =>
    match w.copySource s.clock copy (s.view pid) with
    | .done _ => stmt
    | .insert i => .insert i
    | .select select => .select select
  | _ => stmt

end Server

/-! ## Sessions between steps -/

namespace Session

theorem running_markError {sess : Session τ ρ} : sess.markError.running = sess.running := by
  unfold markError
  split <;> rfl

/-- The changes a session has published and not yet appended to the log. -/
def pending (sess : Session τ ρ) : List String :=
  match sess.running with
  | some (.appending buffered _) => buffered
  | _ => []

/-- The session is in the middle of a statement that ends its block. -/
def ending (sess : Session τ ρ) : Bool :=
  match sess.running with
  | some (.appending _ _) | some (.releasing _) => true
  | some (.lockingTables _ _ _) | some (.lockingRows _) | none => false

/-- The running statement of the session asks for `obj` in `mode` next, and fails if it cannot have
it at once (`nowait`). -/
inductive Wants (w : Engine τ ρ) (sess : Session τ ρ) : LockObject → LockMode → Bool → Prop
  | table {t : String} {rest : List String} {mode : LockMode} {nowait : Bool}
      (h : sess.running = some (.lockingTables (t :: rest) mode nowait)) :
      Wants w sess (.table t) mode nowait
  | row {rl : RowLocking} {row : List Value} {rest : List (List Value)}
      (h : sess.running = some (.lockingRows rl)) (hrows : rl.rows = row :: rest) :
      Wants w sess (.row rl.target (rowKey w.toText row)) rl.mode
        (rl.waitPolicy = some .noWait)

/-- The object and the mode the running statement asks for next. -/
def wanted (w : Engine τ ρ) (sess : Session τ ρ) : Option (LockObject × LockMode) :=
  match sess.running with
  | some (.lockingTables (t :: _) mode _) => some (.table t, mode)
  | some (.lockingRows rl) =>
    rl.rows.head?.map fun row => (.row rl.target (rowKey w.toText row), rl.mode)
  | _ => none

/-- The running statement passes over rows that others have locked. -/
def skipsLocked (sess : Session τ ρ) : Bool :=
  match sess.running with
  | some (.lockingRows rl) => rl.waitPolicy = some .skipLocked
  | _ => false

theorem Wants.wanted_eq {w : Engine τ ρ} {sess : Session τ ρ} {obj : LockObject} {mode : LockMode}
    {nowait : Bool} (h : sess.Wants w obj mode nowait) : sess.wanted w = some (obj, mode) := by
  cases h with
  | table h => simp [wanted, h]
  | row h hrows => simp [wanted, h, hrows]

end Session

namespace Server

/-- The object that the event makes `try_acquire` grant, if any. -/
def grants (w : Engine τ ρ) (s : Server τ ρ) : Event → List LockObject
  | .resume pid =>
    match (s.sessions pid).wanted w with
    | some (obj, mode) => if (s.locks.tryAcquire pid obj mode).2 = .granted then [obj] else []
    | none => []
  | _ => []

variable {w : Engine τ ρ} {s : Server τ ρ} {e : Event} {obj : LockObject} {mode : LockMode}
  {nowait : Bool}

theorem grants_of_start {stmt : Statement} (he : e = .start e.pid stmt) : s.grants w e = [] := by
  rw [he]
  rfl

theorem grants_of_not_wanted (h : (s.sessions e.pid).wanted w = none) : s.grants w e = [] := by
  cases e with
  | resume pid =>
    change (s.sessions pid).wanted w = none at h
    simp [grants, h]
  | _ => rfl

theorem grants_of_blocked (hwants : (s.sessions e.pid).Wants w obj mode nowait)
    (h : s.locks.conflicting e.pid obj mode ≠ []) : s.grants w e = [] := by
  cases e with
  | resume pid =>
    have hw : (s.sessions pid).wanted w = some (obj, mode) := hwants.wanted_eq
    have hn : (s.locks.tryAcquire pid obj mode).2 ≠ .granted :=
      fun hg => h (LockManager.granted_iff.1 hg)
    simp [grants, hw, hn]
  | _ => rfl

end Server

/-! ## The kinds of steps -/

/-- How the event `e` can change the transaction block of its session without closing it. -/
inductive BlockStep (w : Engine τ ρ) (s : Server τ ρ) (e : Event) :
    Option (Transaction τ ρ) → Option (Transaction τ ρ) → Prop
  | same (tx : Option (Transaction τ ρ)) : BlockStep w s e tx tx
  | start (level : IsolationLevel) (ro : Bool) (hrun : (s.sessions e.pid).running = none) :
      BlockStep w s e none (some (.start s.db level ro))
  | setMode (tx : Transaction τ ρ) (isolation : Option IsolationLevel) (readOnly : Option Bool)
      (he : e = .start e.pid (.setTransaction isolation readOnly false)) :
      BlockStep w s e (some tx) (some ((tx.setIsolation isolation).setReadOnly readOnly))
  | savepoint (tx : Transaction τ ρ) (name : String)
      (he : e = .start e.pid (.savepoint name)) :
      BlockStep w s e (some tx) (some (tx.savepoint name))
  | release (tx tx' : Transaction τ ρ) (name : String)
      (h : tx.releaseSavepoint name = some tx') : BlockStep w s e (some tx) (some tx')
  | rollbackTo (tx tx' : Transaction τ ρ) (name : String)
      (h : tx.rollbackTo name = some tx') : BlockStep w s e (some tx) (some tx')
  | fail (tx : Transaction τ ρ) : BlockStep w s e (some tx) (some tx.fail)
  | execute (tx : Transaction τ ρ) (stmt : Statement) (hf : tx.failed = false)
      (he : e = .start e.pid stmt) (hc : stmt.isControl = false)
      (hro : (tx.readOnly && (s.resolve w e.pid stmt).isDataMutation) = false) :
      BlockStep w s e (some tx) (some (tx.execute w (s.resolve w e.pid stmt)).1)

/-- What the event `e` can do to the server. -/
inductive Did (w : Engine τ ρ) (s : Server τ ρ) (e : Event) : Server τ ρ → Prop
  /-- Nothing, or work in the session alone. -/
  | local (sess : Session τ ρ) (hblock : BlockStep w s e (s.sessions e.pid).tx sess.tx)
      (hpending : sess.pending = (s.sessions e.pid).pending)
      (hending : sess.ending = (s.sessions e.pid).ending) (hgrants : s.grants w e = []) :
      Did w s e (s.setSession e.pid sess)
  | autocommit (stmt : Statement) (sess : Session τ ρ) (he : e = .start e.pid stmt)
      (hc : stmt.isControl = false)
      (htx : (s.sessions e.pid).tx = none) (hrun : (s.sessions e.pid).running = none)
      (htx' : sess.tx = none) (hpending : sess.pending = []) (hending : sess.ending = false) :
      Did w s e ((s.executeAutocommit w (s.resolve w e.pid stmt)).1.setSession e.pid sess)
  /-- The first section of `COMMIT` or `PREPARE TRANSACTION`. -/
  | publish (tx : Transaction τ ρ) (db : Database τ ρ) (gid : Option String)
      (he : e = .start e.pid (gid.elim .commit .prepareTransaction))
      (htx : (s.sessions e.pid).tx = some tx) (hrun : (s.sessions e.pid).running = none)
      (hf : tx.failed = false) (hpub : tx.publish s.db = some db) :
      Did w s e ({ s with db := db }.setSession e.pid
        { s.sessions e.pid with tx := none, running := some (.appending tx.buffered gid) })
  /-- The same section when the transaction conflicts with a commit since its snapshot. -/
  | conflict (tx : Transaction τ ρ) (htx : (s.sessions e.pid).tx = some tx)
      (hrun : (s.sessions e.pid).running = none) :
      Did w s e (s.setSession e.pid
        { s.sessions e.pid with
          tx := none, running := some (.releasing (.error serializationMessage)) })
  /-- The second section of `COMMIT` or `PREPARE TRANSACTION`. -/
  | append (sess : Session τ ρ) (htx : sess.tx = (s.sessions e.pid).tx)
      (he : e = .resume e.pid) (hold : (s.sessions e.pid).ending = true)
      (hpending : sess.pending = []) (hending : sess.ending = true) :
      Did w s e ((s.append w (s.sessions e.pid).pending).setSession e.pid sess)
  /-- The end of a block or of a session, or of a statement outside any. -/
  | release (sess : Session τ ρ) (htx : sess.tx = none ∨
        (s.sessions e.pid).ending = true ∧ sess.tx = (s.sessions e.pid).tx)
      (hold : (s.sessions e.pid).pending = [])
      (hpending : sess.pending = []) (hending : sess.ending = false) :
      Did w s e ((s.releaseLocks e.pid).setSession e.pid sess)
  | granted (obj : LockObject) (mode : LockMode) (nowait : Bool) (sess : Session τ ρ)
      (he : e = .resume e.pid) (hwants : (s.sessions e.pid).Wants w obj mode nowait)
      (hfree : s.locks.conflicting e.pid obj mode = []) (htx : sess.tx = (s.sessions e.pid).tx)
      (hpending : sess.pending = []) (hending : sess.ending = false) :
      Did w s e ({ s with locks := s.locks.grant e.pid obj mode }.setSession e.pid sess)
  | waits (obj : LockObject) (mode : LockMode) (nowait : Bool)
      (hwants : (s.sessions e.pid).Wants w obj mode nowait)
      (hblocked : s.locks.conflicting e.pid obj mode ≠ []) :
      Did w s e { s with locks := (s.locks.tryAcquire e.pid obj mode).1 }
  /-- A deadlock, a conflict of a `NOWAIT` request, or a cancellation: all locks are released. -/
  | refused (obj : LockObject) (mode : LockMode) (nowait : Bool) (sess : Session τ ρ)
      (he : e = .resume e.pid) (hwants : (s.sessions e.pid).Wants w obj mode nowait)
      (hskip : (s.sessions e.pid).skipsLocked = false)
      (hfails : ∃ m, (acquireLock s.locks e.pid (s.sessions e.pid).cancel obj mode nowait).2 =
        .failed m)
      (htx : sess.tx = (s.sessions e.pid).tx.map Transaction.fail)
      (hpending : sess.pending = []) (hending : sess.ending = false) :
      Did w s e ({ s with
        locks := (s.locks.tryAcquire e.pid obj mode).1.releaseAll e.pid }.setSession e.pid sess)

/-! ## Every step is of one of the kinds -/

section

variable {w : Engine τ ρ} {s : Server τ ρ} {e : Event} {sess : Session τ ρ} {stmt : Statement}
  {pid : Pid} {mode : LockMode} {nowait : Bool}

theorem Session.pending_of_idle (h : sess.running = none) : sess.pending = [] := by
  simp [Session.pending, h]

theorem Session.ending_of_idle (h : sess.running = none) : sess.ending = false := by
  simp [Session.ending, h]

theorem Session.wanted_of_idle (h : sess.running = none) : sess.wanted w = none := by
  simp [Session.wanted, h]

variable {tx : Transaction τ ρ}

/-- A statement in a block: refused, or executed on the working copy. -/
theorem BlockStep.runInBlock (he : e = .start e.pid stmt) (hc : stmt.isControl = false) :
    BlockStep w s e (some tx)
      ((s.sessions e.pid).runInBlock w tx (s.resolve w e.pid stmt)).1.tx := by
  have htx : ((s.sessions e.pid).runInBlock w tx (s.resolve w e.pid stmt)).1.tx =
      some (tx.run w (s.resolve w e.pid stmt)).1 := by
    unfold Session.runInBlock
    split
    · next h => rw [h]
    · next h => rw [h]
  rw [htx, Transaction.run]
  split
  · exact .same _
  · next hf =>
    split
    · exact .fail tx
    · next hro => exact .execute tx stmt (by simpa using hf) he hc (by simpa using hro)

variable {select : Select} {lock : LockTable}

section Idle

variable (hrun : (s.sessions e.pid).running = none)

include hrun

theorem Did.reply (hblock : BlockStep w s e (s.sessions e.pid).tx sess.tx) (r : StmtResult) :
    Did w s e (s.reply e.pid sess r) :=
  .local _ hblock (pending_of_idle hrun).symm (ending_of_idle hrun).symm
    (grants_of_not_wanted (wanted_of_idle hrun))

theorem Did.lockRows (hblock : BlockStep w s e (s.sessions e.pid).tx sess.tx) (rl : RowLocking) :
    Did w s e (s.lockRows e.pid sess rl) := by
  unfold Server.lockRows
  split
  · exact .reply hrun hblock _
  · exact .local _ hblock (pending_of_idle hrun).symm (ending_of_idle hrun).symm
      (grants_of_not_wanted (wanted_of_idle hrun))

section Data

variable (he : e = .start e.pid stmt) (hc : stmt.isControl = false)

include he hc

theorem did_runData : Did w s e (s.runData w e.pid (s.resolve w e.pid stmt)) := by
  unfold Server.runData Server.runPlain
  cases htx : (s.sessions e.pid).tx with
  | some tx => exact .reply hrun (htx ▸ .runInBlock he hc) _
  | none => exact .autocommit stmt _ he hc htx hrun htx rfl rfl

theorem did_startLocking (hres : s.resolve w e.pid stmt = .select select) :
    Did w s e (s.startLocking w e.pid select) := by
  unfold Server.startLocking Server.runPlain
  rw [← hres]
  cases htx : (s.sessions e.pid).tx with
  | some tx =>
    dsimp only
    split
    · exact .lockRows hrun (htx ▸ .runInBlock he hc) _
    · exact .reply hrun (htx ▸ .runInBlock he hc) _
  | none =>
    dsimp only
    split
    · unfold Server.lockRows
      split <;> exact .autocommit stmt _ he hc htx hrun htx rfl rfl
    · exact .autocommit stmt _ he hc htx hrun htx rfl rfl

theorem did_runSelect (hres : s.resolve w e.pid stmt = .select select) :
    Did w s e (s.runSelect w e.pid select) := by
  unfold Server.runSelect
  split
  · exact hres ▸ did_runData hrun he hc
  · exact did_startLocking hrun he hc hres

end Data

theorem did_startLockTable : Did w s e (s.startLockTable e.pid lock) := by
  unfold Server.startLockTable
  dsimp only
  split
  · exact .reply hrun (.same _) _
  split
  · exact .reply hrun (.same _) _
  split
  · exact .reply hrun (.same _) _
  split
  · exact .reply hrun (.same _) _
  unfold Server.lockTables
  split
  · exact .reply hrun (.same _) _
  · exact .local _ (.same _) (pending_of_idle hrun).symm
      (ending_of_idle hrun).symm
      (grants_of_not_wanted (wanted_of_idle hrun))

theorem did_startPublish (gid : Option String)
    (he : e = .start e.pid (gid.elim .commit .prepareTransaction))
    (htx : (s.sessions e.pid).tx = some tx) (hf : tx.failed = false) :
    Did w s e (s.startPublish e.pid tx gid) := by
  unfold Server.startPublish
  split
  · exact .conflict tx htx hrun
  · next db hpub => exact .publish tx db gid he htx hrun hf hpub

theorem Did.endBlock (htx : sess.tx = none) (r : StmtResult) :
    Did w s e ((s.releaseLocks e.pid).reply e.pid sess r) :=
  .release _ (.inl htx) (pending_of_idle hrun) rfl rfl

theorem did_startCommit (he : e = .start e.pid .commit) : Did w s e (s.startCommit e.pid) := by
  unfold Server.startCommit
  dsimp only
  split
  · refine .reply hrun ?_ _
    exact .same _
  · next tx htx =>
    split
    · exact .endBlock hrun rfl _
    · next hf => exact did_startPublish hrun none he htx (by simpa using hf)

theorem did_startPrepare {gid : String} (he : e = .start e.pid (.prepareTransaction gid)) :
    Did w s e (s.startPrepare e.pid gid) := by
  unfold Server.startPrepare
  dsimp only
  split
  · exact .reply hrun (.same _) _
  · next tx htx =>
    split
    · exact .endBlock hrun rfl _
    · next hf => exact did_startPublish hrun (some gid) he htx (by simpa using hf)

end Idle

/-! The session after a statement that only controls its block. -/

theorem BlockStep.begin (hrun : (s.sessions e.pid).running = none)
    (isolation : Option IsolationLevel) (readOnly : Option Bool) :
    BlockStep w s e sess.tx (sess.begin s.db isolation readOnly).tx := by
  unfold Session.begin
  split
  · next h => rw [h]; exact .start _ _ hrun
  · exact .same _

theorem BlockStep.setTransaction {isolation : Option IsolationLevel} {readOnly : Option Bool}
    {isSession : Bool} (he : e = .start e.pid (.setTransaction isolation readOnly isSession)) :
    BlockStep w s e sess.tx (sess.setTransaction isolation readOnly isSession).tx := by
  unfold Session.setTransaction
  split
  · next h => rw [h]; exact .setMode _ _ _ he
  · exact .same _

theorem BlockStep.setSavepoint {name : String} (he : e = .start e.pid (.savepoint name)) :
    BlockStep w s e sess.tx (sess.savepoint name).1.tx := by
  unfold Session.savepoint
  split
  · exact .same _
  · next h => rw [h]; exact .savepoint _ _ he

theorem BlockStep.releaseSavepoint (name : String) :
    BlockStep w s e sess.tx (sess.releaseSavepoint name).1.tx := by
  unfold Session.releaseSavepoint
  split
  · exact .same _
  · next h =>
    split
    · exact .same _
    · next hr => rw [h]; exact .release _ _ name hr

theorem BlockStep.rollbackToSavepoint (name : String) :
    BlockStep w s e sess.tx (sess.rollbackToSavepoint name).1.tx := by
  unfold Session.rollbackToSavepoint
  split
  · exact .same _
  · next h =>
    split
    · exact .same _
    · next hr => rw [h]; exact .rollbackTo _ _ name hr

theorem BlockStep.finishPrepared (gid tag : String) :
    BlockStep w s e sess.tx (sess.finishPrepared gid tag).1.tx := by
  unfold Session.finishPrepared
  split <;> exact .same _

theorem BlockStep.markError : BlockStep w s e sess.tx sess.markError.tx := by
  unfold Session.markError
  split
  · exact .same _
  · next h => rw [h]; exact .fail _

theorem did_start (he : e = .start pid stmt) (hrun : (s.sessions pid).running = none) :
    Did w s e (s.start w pid stmt) := by
  obtain rfl : pid = e.pid := by rw [he]; rfl
  unfold Server.start
  split
  case h_1 => exact .reply hrun (.begin hrun _ _) _
  case h_2 => exact .reply hrun (.setTransaction he) _
  case h_3 | h_4 | h_5 => exact .reply hrun (.same _) _
  case h_6 => exact did_startCommit hrun he
  case h_7 => exact .endBlock hrun rfl _
  case h_8 => exact did_startPrepare hrun he
  case h_9 | h_10 => exact .reply hrun (.finishPrepared _ _) _
  case h_11 => exact .reply hrun (.setSavepoint he) _
  case h_12 => exact .reply hrun (.releaseSavepoint _) _
  case h_13 => exact .reply hrun (.rollbackToSavepoint _) _
  case h_14 => exact did_startLockTable hrun
  case h_15 => exact did_runSelect hrun he rfl rfl
  case h_16 copy =>
    cases hc : w.copySource s.clock copy (s.view e.pid) with
    | done r => exact .reply hrun (.same _) _
    | insert i => simpa [Server.resolve, hc] using did_runData (w := w) hrun he rfl
    | select q => exact did_runSelect hrun he rfl (by simp [Server.resolve, hc])
  case h_17 =>
    have hres : s.resolve w e.pid stmt = stmt := by
      clear he
      unfold Server.resolve
      split <;> simp_all
    have hc : stmt.isControl = false := by
      clear he
      unfold Statement.isControl
      split <;> simp_all
    exact hres ▸ did_runData hrun he hc

theorem Session.pending_of_running {n : Running} (h : sess.running = some n)
    (hn : ∀ buffered gid, n ≠ .appending buffered gid) : sess.pending = [] := by
  unfold Session.pending
  split
  · next hr => exact absurd (Option.some.inj (h.symm.trans hr)) (hn _ _)
  · rfl

/-- The step may leave the session with the block of `sess`, in whatever else it is to do next. -/
def DidWith (w : Engine τ ρ) (s : Server τ ρ) (e : Event) (s' : Server τ ρ) (sess : Session τ ρ) :
    Prop :=
  ∀ sess' : Session τ ρ, sess'.tx = sess.tx → sess'.pending = [] → sess'.ending = false →
    Did w s e (s'.setSession e.pid sess')

variable {rl : RowLocking}

theorem Did.nextRow {s' : Server τ ρ} (h : DidWith w s e s' sess) :
    Did w s e (s'.lockRows e.pid sess rl) := by
  unfold Server.lockRows
  split <;> exact h _ rfl rfl rfl

variable {tables : List String}

theorem Did.nextTable {s' : Server τ ρ} (h : DidWith w s e s' sess) :
    Did w s e (s'.lockTables e.pid sess tables mode nowait) := by
  unfold Server.lockTables
  split <;> exact h _ rfl rfl rfl

/-- One round of `acquire_lock`: granted, waiting, or refused with everything released. -/
theorem acquireLock_cases (locks : LockManager) (pid : Pid) (cancel : Bool) (obj : LockObject)
    (mode : LockMode) (nowait : Bool) :
    (locks.conflicting pid obj mode = [] ∧
      acquireLock locks pid cancel obj mode nowait = (locks.grant pid obj mode, .granted)) ∨
    (locks.conflicting pid obj mode ≠ [] ∧ acquireLock locks pid cancel obj mode nowait =
      ((locks.tryAcquire pid obj mode).1, .waiting)) ∨
    (locks.conflicting pid obj mode ≠ [] ∧ ∃ m, acquireLock locks pid cancel obj mode nowait =
      ((locks.tryAcquire pid obj mode).1.releaseAll pid, .failed m)) := by
  unfold acquireLock
  rcases locks.tryAcquire_cases pid obj mode with ⟨hc, h⟩ | ⟨hc, -, h⟩ | ⟨hc, -, h⟩
  · exact .inl ⟨hc, by rw [h]⟩
  · exact .inr (.inr ⟨hc, _, by rw [h]⟩)
  · rw [h]
    dsimp only
    split
    · exact .inr (.inr ⟨hc, _, rfl⟩)
    · split
      · exact .inr (.inr ⟨hc, _, rfl⟩)
      · exact .inr (.inl ⟨hc, rfl⟩)

theorem Session.markError_tx : sess.markError.tx = sess.tx.map Transaction.fail := by
  unfold Session.markError
  split <;> simp [*]

/-- An attempt to lock `obj`, followed by `next` once it is granted. -/
theorem did_attempt {obj : LockObject} (next : Server τ ρ → Server τ ρ) (he : e = .resume e.pid)
    (hwants : (s.sessions e.pid).Wants w obj mode nowait)
    (hskip : (s.sessions e.pid).skipsLocked = false)
    (hnext : ∀ s', DidWith w s e s' (s.sessions e.pid) → Did w s e (next s')) :
    let r := acquireLock s.locks e.pid (s.sessions e.pid).cancel obj mode nowait
    Did w s e
      (match r.2 with
        | .granted => next { s with locks := r.1 }
        | .waiting => { s with locks := r.1 }
        | .failed m =>
          { s with locks := r.1 }.reply e.pid (s.sessions e.pid).markError (.error m)) := by
  intro r
  subst r
  rcases acquireLock_cases s.locks e.pid (s.sessions e.pid).cancel obj mode nowait with
    ⟨hfree, h⟩ | ⟨hblocked, h⟩ | ⟨-, m, h⟩
  · rw [h]
    exact hnext _ fun sess' htx hp hen => .granted obj mode nowait sess' he hwants hfree htx hp hen
  · rw [h]
    exact .waits obj mode nowait hwants hblocked
  · rw [h]
    exact .refused obj mode nowait _ he hwants hskip ⟨m, by rw [h]⟩ markError_tx rfl rfl

theorem did_lockNextTable (he : e = .resume e.pid)
    (hrun : (s.sessions e.pid).running = some (.lockingTables tables mode nowait)) :
    Did w s e (s.lockNextTable e.pid tables mode nowait) := by
  have hp : (s.sessions e.pid).pending = [] := pending_of_running hrun (by simp)
  have hen : (s.sessions e.pid).ending = false := by simp [Session.ending, hrun]
  unfold Server.lockNextTable
  cases tables with
  | nil =>
    exact .nextTable fun sess' htx h1 h2 =>
      .local sess' (htx ▸ .same _) (h1.trans hp.symm) (h2.trans hen.symm)
        (grants_of_not_wanted (by simp [Session.wanted, hrun]))
  | cons t rest =>
    exact did_attempt (fun s' => s'.lockTables e.pid (s.sessions e.pid) rest mode nowait)
      he (.table hrun) (by simp [Session.skipsLocked, hrun]) fun s' h => .nextTable h

theorem did_lockNextRow (he : e = .resume e.pid)
    (hrun : (s.sessions e.pid).running = some (.lockingRows rl)) :
    Did w s e (s.lockNextRow w e.pid rl) := by
  have hp : (s.sessions e.pid).pending = [] := pending_of_running hrun (by simp)
  have hen : (s.sessions e.pid).ending = false := by simp [Session.ending, hrun]
  have hlocal : s.grants w e = [] → DidWith w s e s (s.sessions e.pid) := fun hg sess' htx h1 h2 =>
    .local sess' (htx ▸ .same _) (h1.trans hp.symm) (h2.trans hen.symm) hg
  unfold Server.lockNextRow
  dsimp only
  split
  · next hrows =>
    exact .nextRow (hlocal (grants_of_not_wanted (by simp [Session.wanted, hrun, hrows])))
  · next row rest hrows =>
    split
    · split
      · next hother =>
        exact .nextRow (hlocal (grants_of_blocked (.row hrun hrows)
          (LockManager.isLockedByOther_iff.1 hother)))
      · next hother =>
        -- A row that nobody else has locked is granted.
        have hfree : s.locks.conflicting e.pid (.row rl.target (rowKey w.toText row)) rl.mode = [] := by
          by_contra hne
          exact hother (LockManager.isLockedByOther_iff.2 hne)
        rw [LockManager.tryAcquire_of_free hfree]
        exact .nextRow fun sess' htx h1 h2 =>
          .granted _ _ _ sess' he (.row hrun hrows) hfree htx h1 h2
    · next hpolicy =>
      exact did_attempt (fun s' => s'.lockRows e.pid (s.sessions e.pid) _) he
        (.row hrun hrows) (by simpa [Session.skipsLocked, hrun] using hpolicy)
        fun s' h => .nextRow h

theorem did_resume {n : Running} (he : e = .resume pid) (hrun : (s.sessions pid).running = some n) :
    Did w s e (s.resume w pid n) := by
  obtain rfl : pid = e.pid := by rw [he]; rfl
  unfold Server.resume
  split
  · next buffered gid =>
    have hp : (s.sessions e.pid).pending = buffered := by simp [Session.pending, hrun]
    rw [← hp]
    exact .append _ rfl he (by simp [Session.ending, hrun]) rfl rfl
  · exact .release _ (.inr ⟨by simp [Session.ending, hrun], rfl⟩)
      (pending_of_running hrun (by simp)) rfl rfl
  · exact did_lockNextTable he hrun
  · exact did_lockNextRow he hrun

/-- **Every event does one of the things listed in `Did`.** -/
theorem did (w : Engine τ ρ) (s : Server τ ρ) (e : Event) : Did w s e (s.apply w e) := by
  have hsame : s.grants w e = [] → Did w s e s := by
    intro hg
    have := Did.local (w := w) (e := e) (s.sessions e.pid) (.same _) rfl rfl hg
    rwa [setSession_self] at this
  unfold Server.apply
  split
  · split
    · next hrun => exact did_start rfl (by simpa using hrun)
    · exact hsame rfl
  · split
    · next n hrun => exact did_resume rfl hrun
    · next hrun =>
      exact hsame (grants_of_not_wanted (wanted_of_idle hrun))
  · exact .local _ (.same _) rfl rfl rfl
  · split
    · next pid hrun =>
      have hrun : (s.sessions pid).running = none := by simpa using hrun
      have hr : (s.sessions pid).markError.running = none := by
        unfold Session.markError
        split <;> exact hrun
      exact .local _ .markError
        ((pending_of_idle hr).trans (pending_of_idle hrun).symm)
        ((ending_of_idle hr).trans (ending_of_idle hrun).symm) rfl
    · exact hsame rfl
  · split
    · next pid hrun =>
      have hrun : (s.sessions pid).running = none := by
        simp only [Bool.and_eq_true, Option.isNone_iff_eq_none] at hrun
        exact hrun.1
      exact .release _ (.inl rfl) (pending_of_idle hrun)
        (pending_of_idle hrun) (ending_of_idle hrun)
    · exact hsame rfl
  · split
    · next pid hrun =>
      have hrun : (s.sessions pid).running = none := by simpa using hrun
      exact .release _ (.inl rfl) (pending_of_idle hrun) rfl rfl
    · exact hsame rfl

/-! ## What is left after the first step -/

/-- The statement publishes the working copy of its session's block, or finds a conflict. -/
def Server.Publishes (s : Server τ ρ) (pid : Pid) (stmt : Statement) : Prop :=
  (stmt = .commit ∨ ∃ gid, stmt = .prepareTransaction gid) ∧
    ∃ tx, (s.sessions pid).tx = some tx ∧ tx.failed = false

/-- What can be left to do of a statement after its first step. -/
inductive Server.Leaves (w : Engine τ ρ) (s : Server τ ρ) (pid : Pid) (stmt : Statement) :
    Option Running → Prop
  | nothing : Leaves w s pid stmt none
  | tables (tables : List String) (mode : LockMode) (nowait : Bool) :
      Leaves w s pid stmt (some (.lockingTables tables mode nowait))
  | rows (select : Select) (rl : RowLocking) (hres : s.resolve w pid stmt = .select select)
      (hlock : select.locking.isEmpty = false)
      (hstart : s.start w pid stmt = s.startLocking w pid select) :
      Leaves w s pid stmt (some (.lockingRows rl))
  | publishing (n : Running) (h : s.Publishes pid stmt) (hn : ∀ rl, n ≠ .lockingRows rl) :
      Leaves w s pid stmt (some n)

namespace Server.Leaves

variable {s' : Server τ ρ} {pid : Pid} {stmt : Statement}

theorem reply {r : StmtResult} :
    s.Leaves w pid stmt ((s'.reply pid sess r).sessions pid).running := by
  rw [Server.reply, sessions_set_self]
  exact .nothing

theorem startPublish {gid : Option String} (h : s.Publishes pid stmt) :
    s.Leaves w pid stmt ((s.startPublish pid tx gid).sessions pid).running := by
  rw [Server.startPublish]
  split <;> rw [pause, sessions_set_self] <;> exact .publishing _ h nofun

theorem startLockTable :
    s.Leaves w pid stmt ((s.startLockTable pid lock).sessions pid).running := by
  rw [Server.startLockTable]
  split
  · exact reply
  split
  · exact reply
  split
  · exact reply
  split
  · exact reply
  · rw [lockTables.eq_def]
    split
    · exact reply
    · rw [pause, sessions_set_self]
      exact .tables _ _ _

theorem runSelect (hres : s.resolve w pid stmt = .select select)
    (hstart : s.start w pid stmt = s.runSelect w pid select) :
    s.Leaves w pid stmt ((s.runSelect w pid select).sessions pid).running := by
  rw [Server.runSelect] at hstart ⊢
  by_cases hlock : select.locking.isEmpty = true
  · rw [if_pos hlock]
    exact reply
  · rw [if_neg hlock] at hstart ⊢
    rw [Server.startLocking]
    dsimp only
    split
    · rw [lockRows.eq_def]
      split
      · exact reply
      · rw [pause, sessions_set_self]
        exact .rows select _ hres (by simpa using hlock) hstart
    · exact reply

end Server.Leaves

theorem Server.leaves_start : s.Leaves w pid stmt ((s.start w pid stmt).sessions pid).running := by
  have hstart := Server.start.eq_def w s pid stmt
  rw [hstart]
  split
  case h_6 =>
    rw [startCommit]
    split
    · exact .reply
    · next tx htx =>
      split
      · exact .reply
      · next hf => exact .startPublish ⟨.inl rfl, tx, htx, by simpa using hf⟩
  case h_8 gid =>
    rw [startPrepare]
    split
    · exact .reply
    · next tx htx =>
      split
      · exact .reply
      · next hf => exact .startPublish ⟨.inr ⟨gid, rfl⟩, tx, htx, by simpa using hf⟩
  case h_14 => exact .startLockTable
  case h_15 => exact .runSelect rfl rfl
  case h_16 copy =>
    dsimp only at hstart
    rcases hcopy : w.copySource s.clock copy (s.view pid) with r | i | q
    · exact .reply
    · exact .reply
    · rw [hcopy] at hstart
      exact .runSelect (by rw [resolve, hcopy]) hstart
  all_goals exact .reply

/-! ## Consequences for one session and for the shared database -/

@[simp] theorem Server.clock_step : (s.step w e).clock = s.clock + 1 := rfl

/-- A step leaves the sessions of others alone. -/
theorem sessions_of_ne (hq : q ≠ e.pid) : (s.step w e).sessions q = s.sessions q := by
  have hset : ∀ (s' : Server τ ρ) (sess : Session τ ρ),
      (s'.setSession e.pid sess).sessions q = s'.sessions q :=
    fun s' sess => sessions_set_of_ne hq
  have h := did w s e
  change (s.apply w e).sessions q = s.sessions q
  generalize s.apply w e = s' at h ⊢
  cases h with
  | waits => rfl
  | autocommit => rw [hset, sessions_executeAutocommit]
  | «local» | publish | conflict | append | release | granted | refused => exact hset _ _

/-- A session takes part in no step of others. -/
theorem sessions_run_of_ne {es : List Event} (hes : ∀ e ∈ es, e.pid ≠ q) :
    (Machine.run (Server.step w) s es).sessions q = s.sessions q := by
  induction es generalizing s with
  | nil => rfl
  | cons e es ih =>
    rw [Machine.run_cons, ih fun e' he' => hes e' (List.mem_cons_of_mem _ he')]
    exact sessions_of_ne (hes e List.mem_cons_self).symm

/-- Every block changes as `BlockStep` says, or is closed. -/
theorem blockStep (w : Engine τ ρ) (s : Server τ ρ) (e : Event) :
    BlockStep w s e (s.sessions e.pid).tx ((s.step w e).sessions e.pid).tx ∨
      ((s.step w e).sessions e.pid).tx = none := by
  have h := did w s e
  change BlockStep w s e (s.sessions e.pid).tx ((s.apply w e).sessions e.pid).tx ∨
    ((s.apply w e).sessions e.pid).tx = none
  generalize s.apply w e = s' at h ⊢
  cases h with
  | «local» sess hblock => exact .inl (by simpa using hblock)
  | autocommit stmt sess he hc htx hrun htx' => exact .inr (by simpa using htx')
  | publish | conflict => exact .inr (by simp)
  | append sess htx => exact .inl (by simpa [htx] using BlockStep.same _)
  | release sess htx =>
    rcases htx with htx | ⟨-, htx⟩
    · exact .inr (by simpa using htx)
    · exact .inl (by simpa [htx] using BlockStep.same _)
  | granted obj mode nowait sess he hwants hfree htx =>
    exact .inl (by simpa [htx] using BlockStep.same _)
  | waits => exact .inl (.same _)
  | refused obj mode nowait sess he hwants hskip hfails htx =>
    cases hold : (s.sessions e.pid).tx with
    | none => exact .inr (by simp [htx, hold])
    | some tx => exact .inl (by simpa [htx, hold] using BlockStep.fail tx)

/-- How a step can change the shared database: not at all, by publishing a working copy, or by
running a statement of a session outside any block. -/
theorem db_step_cases (w : Engine τ ρ) (s : Server τ ρ) (e : Event) :
    (s.step w e).db = s.db ∨
    (∃ tx db gid, e = .start e.pid (Option.elim gid .commit .prepareTransaction) ∧
      (s.sessions e.pid).tx = some tx ∧ tx.failed = false ∧ tx.publish s.db = some db ∧
        (s.step w e).db = db) ∨
    (∃ stmt, e = .start e.pid stmt ∧ stmt.isControl = false ∧ (s.sessions e.pid).tx = none ∧
      (s.step w e).db =
        { s.db with store := (w.execute s.db.store (s.resolve w e.pid stmt)).1 }) := by
  have h := did w s e
  simp only [Server.step]
  generalize s.apply w e = s' at h ⊢
  cases h with
  | publish tx db gid he htx hrun hf hpub => exact .inr (.inl ⟨tx, db, gid, he, htx, hf, hpub, rfl⟩)
  | autocommit stmt sess he hc htx => exact .inr (.inr ⟨stmt, he, hc, htx, by simp⟩)
  | «local» | conflict | append | release | granted | waits | refused => exact .inl rfl

end

end PostgresRs
