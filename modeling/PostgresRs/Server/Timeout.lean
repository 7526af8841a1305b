import PostgresRs.Server.Call

/-!
# Statement timeouts

`run_statement_timed` of `server/src/server.rs` starts a watchdog thread, runs the statement to its
end, and only then asks whether the watchdog has fired; if so the result is replaced by the timeout
error.  All that the watchdog does to the statement is to set the session's cancellation flag, which
is looked at while the statement waits for a lock.

* `TimesOut` — a call in which the watchdog fires, with all steps of other sessions in between.
* `LeftUntouched` — the call has left the shared database, the log and the session's transaction
  state as if the statement had failed before it did anything.
* `leftUntouched_iff` — this is so if and only if the statement is harmless in the state it starts
  in.
-/

namespace PostgresRs

open List Session Transaction Server

variable {τ ρ α : Type} {p : α → Bool} {l : List α}

/-! ## The transaction state of a session -/

/-- What a session remembers of transactions. -/
structure TxState (τ ρ : Type) where
  tx : Option (Transaction τ ρ)
  txStatus : TxStatus
  preparedGids : Finset String
  defaultIsolation : IsolationLevel
  defaultReadOnly : Bool

namespace Session

variable (sess : Session τ ρ)

def txState : TxState τ ρ :=
  ⟨sess.tx, sess.txStatus, sess.preparedGids, sess.defaultIsolation, sess.defaultReadOnly⟩

/-- The transaction state once the message loop has recorded that a statement failed. -/
def failedState : TxState τ ρ where
  tx := sess.tx.map Transaction.fail
  txStatus := if sess.tx.isSome then .failed else sess.txStatus
  preparedGids := sess.preparedGids
  defaultIsolation := sess.defaultIsolation
  defaultReadOnly := sess.defaultReadOnly

theorem txState_markError : sess.markError.txState = sess.failedState := by
  rw [markError]
  split
  · next h => simp [txState, failedState, h]
  · next h => simp [txState, failedState, h]

theorem failedState_markError : sess.markError.failedState = sess.failedState := by
  rw [markError]
  split
  · rfl
  · next h => simp [failedState, h, Transaction.fail]

end Session

/-! ## The timed call -/

def timeoutMessage : String := "canceling statement due to statement timeout"

namespace Server

/-- The end of `run_statement_timed`, once the statement is over. -/
def finishTimed (s : Server τ ρ) (pid : Pid) (fired : Bool) : Server τ ρ :=
  if fired then
    s.setSession pid
      { s.sessions pid with cancel := false, result := some (.error timeoutMessage) }
  else s

end Server

/-- A call of `run_statement_timed` in which the watchdog fires: before the first step of the
statement, or at any moment later. -/
structure TimesOut (w : Engine τ ρ) (s : Server τ ρ) (pid : Pid) (stmt : Statement)
    (es : List Event) : Prop extends Call w s pid stmt es where
  fired : (s.sessions pid).cancel = true ∨ .setCancel pid true ∈ es

/-- A step is of another session, or it leaves the shared database and the log as they are. -/
def Server.Quiet (w : Engine τ ρ) (pid : Pid) (s : Server τ ρ) (e : Event) : Prop :=
  e.pid = pid → (s.step w e).db = s.db ∧ (s.step w e).wal = s.wal

/-- No step of the statement has changed the shared database or the log, and after the timeout error
the transaction state is that of a statement that failed at once. -/
structure LeftUntouched (w : Engine τ ρ) (s : Server τ ρ) (pid : Pid) (stmt : Statement)
    (es : List Event) : Prop where
  shared : Machine.Always (Server.step w) (Server.Quiet w pid) s (.start pid stmt :: es)
  session :
    ((Machine.run (Server.step w) s (.start pid stmt :: es)).finishTimed pid true |>.sessions
        pid).markError.txState = (s.sessions pid).markError.txState

/-! ## Harmless statements -/

/-- A `SET TRANSACTION` that sets what is set already. -/
def Session.Restates (sess : Session τ ρ) (isolation : Option IsolationLevel)
    (readOnly : Option Bool) (isSession : Bool) : Prop :=
  match isSession, sess.tx with
  | false, some tx =>
    (∀ level ∈ isolation, tx.isolation = level ∧
        tx.db.store.systemSettings "transaction_isolation" = some level.gucValue) ∧
      ∀ ro ∈ readOnly, tx.readOnly = ro ∧
        tx.db.store.systemSettings "transaction_read_only" = some (if ro then "on" else "off")
  | _, _ =>
    (∀ level ∈ isolation, sess.defaultIsolation = level) ∧
      ∀ ro ∈ readOnly, sess.defaultReadOnly = ro

namespace Transaction

variable (tx : Transaction τ ρ) (name : String)

/-- The last savepoint is the one that `SAVEPOINT name` would set. -/
def HasJustSaved : Prop :=
  ∃ rest, tx.savepoints = rest ++ [⟨name, tx.db, tx.buffered.length, tx.writeSet⟩] ∧
    ∀ sp ∈ rest, sp.name ≠ name

/-- Nothing was written since the last savepoint, which has the given name. -/
def IsAtSavepoint : Prop :=
  ∃ rest sp, tx.savepoints = rest ++ [sp] ∧ sp.name = name ∧ sp.db = tx.db ∧
    tx.buffered.length ≤ sp.bufferedLen ∧ sp.writeSet = tx.writeSet

/-- There is no savepoint with the given name. -/
def LacksSavepoint : Prop :=
  ∀ sp ∈ tx.savepoints, sp.name ≠ name

/-- The statement is refused in the block, or it leaves the contents as they are and is no change to
log. -/
def Reads (w : Engine τ ρ) (stmt : Statement) : Prop :=
  tx.failed = true ∨ (tx.readOnly && stmt.isDataMutation) = true ∨
    (w.execute tx.db.store stmt).1 = tx.db.store ∧
      ∀ r, (w.execute tx.db.store stmt).2 = .ok r → stmt.isMutation = false

end Transaction

namespace Server

variable (w : Engine τ ρ) (s : Server τ ρ) (pid : Pid)

/-- In autocommit, the executor leaves the contents as they are and nothing is appended to the log;
in a block, see `Transaction.Reads`. -/
def Reads (stmt : Statement) : Prop :=
  match (s.sessions pid).tx with
  | none =>
    (w.execute s.db.store stmt).1 = s.db.store ∧
      (s.wal = none ∨ (∀ r, (w.execute s.db.store stmt).2 = .ok r → stmt.isMutation = false) ∨
        w.statementToSql stmt = "" ∨ w.appendOk s.clock 0 = false)
  | some tx => tx.Reads w stmt

/-- The statement does nothing to the shared database, the log or the transaction state. -/
def Harmless (stmt : Statement) : Prop :=
  let sess := s.sessions pid
  match stmt with
  | .begin _ _ => sess.tx ≠ none
  | .setTransaction isolation readOnly isSession => sess.Restates isolation readOnly isSession
  | .listen _ | .unlisten _ | .notify _ _ | .lockTable _ => True
  | .commit | .prepareTransaction _ => sess.tx = none
  | .rollback => sess.tx = none ∧ sess.txStatus = .idle
  | .commitPrepared gid | .rollbackPrepared gid => gid ∉ sess.preparedGids
  | .savepoint name => ∀ tx, sess.tx = some tx → tx.HasJustSaved name
  | .releaseSavepoint name => ∀ tx, sess.tx = some tx → tx.LacksSavepoint name
  | .rollbackToSavepoint name => ∀ tx, sess.tx = some tx →
      tx.LacksSavepoint name ∨ tx.IsAtSavepoint name
  | .copy copy =>
    match w.copySource s.clock copy (s.view pid) with
    | .done _ => True
    | .insert i => s.Reads w pid (.insert i)
    | .select select => s.Reads w pid (.select select)
  | stmt => s.Reads w pid stmt

end Server

/-- The shared database, the log and the transaction state of `pid`, up to a failure of its block,
are in `s'` as in `s`. -/
structure Server.Kept (s : Server τ ρ) (pid : Pid) (s' : Server τ ρ) : Prop where
  db : s'.db = s.db
  wal : s'.wal = s.wal
  session : (s'.sessions pid).failedState = (s.sessions pid).failedState

/-! ## After the first step -/

section Rest

variable {w : Engine τ ρ} {s s' : Server τ ρ} {pid : Pid} {e : Event} {sess : Session τ ρ}

theorem Server.kept_setSession (hdb : s'.db = s.db) (hwal : s'.wal = s.wal)
    (hsess : sess.failedState = (s.sessions pid).failedState) :
    s.Kept pid (s'.setSession pid sess) :=
  ⟨hdb, hwal, by rw [sessions_set_self, hsess]⟩

/-- Nothing is left to do for the statement but to ask for locks. -/
def Server.KeptIdle (s : Server τ ρ) (pid : Pid) (s' : Server τ ρ) : Prop :=
  s.Kept pid s' ∧ (s'.sessions pid).ending = false

theorem Server.keptIdle_setSession (hdb : s'.db = s.db) (hwal : s'.wal = s.wal)
    (hsess : sess.failedState = (s.sessions pid).failedState) (hend : sess.ending = false) :
    s.KeptIdle pid (s'.setSession pid sess) :=
  ⟨kept_setSession hdb hwal hsess, by rw [sessions_set_self, hend]⟩

theorem Server.keptIdle_lockTables (locks : LockManager) (tables : List String) (mode : LockMode)
    (nowait : Bool) :
    s.KeptIdle pid
      ({ s with locks := locks }.lockTables pid (s.sessions pid) tables mode nowait) := by
  rcases tables with _ | ⟨t, rest⟩ <;> exact keptIdle_setSession rfl rfl rfl rfl

theorem Server.keptIdle_lockRows (locks : LockManager) (rl : RowLocking) :
    s.KeptIdle pid ({ s with locks := locks }.lockRows pid (s.sessions pid) rl) := by
  rw [lockRows]
  split <;> exact keptIdle_setSession rfl rfl rfl rfl

/-- A step that asks for a lock. -/
theorem Server.keptIdle_resume {n : Running} (hrun : (s.sessions pid).running = some n)
    (hend : (s.sessions pid).ending = false) : s.KeptIdle pid (s.resume w pid n) := by
  have hwait : ∀ locks : LockManager, s.KeptIdle pid { s with locks := locks } :=
    fun _ => ⟨⟨rfl, rfl, rfl⟩, hend⟩
  have hrefused : ∀ (locks : LockManager) (m : String), s.KeptIdle pid
      ({ s with locks := locks }.reply pid (s.sessions pid).markError (.error m)) :=
    fun _ _ => keptIdle_setSession rfl rfl (failedState_markError _) rfl
  rcases n with ⟨buffered, gid⟩ | result | ⟨tables, mode, nowait⟩ | rl
  · simp [Session.ending, hrun] at hend
  · simp [Session.ending, hrun] at hend
  · rcases tables with _ | ⟨t, rest⟩
    · exact keptIdle_lockTables (s := s) s.locks [] mode nowait
    · rw [resume, lockNextTable]
      dsimp only
      split
      · exact keptIdle_lockTables _ _ _ _
      · exact hwait _
      · exact hrefused _ _
  · rw [resume, lockNextRow]
    dsimp only
    split
    · exact keptIdle_lockRows s.locks _
    split
    · split
      · exact keptIdle_lockRows s.locks _
      · exact keptIdle_lockRows _ _
    · split
      · exact keptIdle_lockRows _ _
      · exact hwait _
      · exact hrefused _ _

/-- The events while a statement runs that has only to ask for locks. -/
theorem Server.step_during (he : e.During pid) (hend : (s.sessions pid).ending = false) :
    ((s.step w e).sessions pid).failedState = (s.sessions pid).failedState ∧
      ((s.step w e).sessions pid).ending = false ∧ s.Quiet w pid e := by
  rcases he with hne | rfl | ⟨flag, rfl⟩
  · rw [sessions_of_ne hne.symm]
    exact ⟨rfl, hend, fun h => absurd h hne⟩
  · rw [Quiet, step, apply]
    split
    · next n hrun =>
      obtain ⟨hkept, hend'⟩ := keptIdle_resume (w := w) hrun hend
      exact ⟨hkept.session, hend', fun _ => ⟨hkept.db, hkept.wal⟩⟩
    · exact ⟨rfl, hend, fun _ => ⟨rfl, rfl⟩⟩
  · obtain ⟨hkept, hend'⟩ : s.KeptIdle pid
        (s.setSession pid { s.sessions pid with cancel := flag }) :=
      keptIdle_setSession rfl rfl rfl hend
    exact ⟨hkept.session, hend', fun _ => ⟨hkept.db, hkept.wal⟩⟩

/-- A session whose block is gone does not get one while its statement runs. -/
theorem Server.tx_step_during (he : e.During pid) (htx : (s.sessions pid).tx = none) :
    ((s.step w e).sessions pid).tx = none := by
  rcases hend : (s.sessions pid).ending with _ | _
  · have hsame := congrArg TxState.tx (step_during (w := w) he hend).1
    simpa [Session.failedState, htx] using hsame
  · rcases he with hne | rfl | ⟨flag, rfl⟩
    · rw [sessions_of_ne hne.symm, htx]
    · rw [step, apply]
      split
      · next n hrun =>
        rcases n with ⟨buffered, gid⟩ | result | ⟨tables, mode, nowait⟩ | rl
        · exact (congrArg Session.tx sessions_set_self).trans htx
        · exact (congrArg Session.tx sessions_set_self).trans htx
        · simp [Session.ending, hrun] at hend
        · simp [Session.ending, hrun] at hend
      · exact htx
    · exact (congrArg Session.tx sessions_set_self).trans htx

end Rest

/-! ## The first step -/

theorem rposition_eq_none_iff : rposition p l = none ↔ ∀ a ∈ l, p a = false := by
  induction l with
  | nil => simp [rposition]
  | cons a l ih =>
    rw [rposition, forall_mem_cons, ← ih]
    rcases rposition p l with _ | i <;> simp

theorem rposition_eq_some {i : Nat} (h : rposition p l = some i) :
    ∃ hi : i < l.length, p l[i] = true := by
  induction l generalizing i with
  | nil => cases h
  | cons a l ih =>
    rw [rposition] at h
    split at h
    · next j hj =>
      obtain rfl := Option.some.inj h
      obtain ⟨hlt, hp⟩ := ih hj
      exact ⟨Nat.succ_lt_succ hlt, hp⟩
    · split at h
      · next hp =>
        obtain rfl := Option.some.inj h
        exact ⟨Nat.zero_lt_succ _, hp⟩
      · cases h

theorem rposition_append_singleton {a : α} (h : p a = true) :
    rposition p (l ++ [a]) = some l.length := by
  induction l with
  | nil => simp [rposition, h]
  | cons b l ih => rw [cons_append, rposition, ih, length_cons]

namespace Transaction

variable {tx tx' : Transaction τ ρ} {name : String} {isolation : Option IsolationLevel}
  {readOnly : Option Bool} {w : Engine τ ρ} {stmt : Statement}

theorem fail_eq_fail_iff :
    tx'.fail = tx.fail ↔ tx'.db = tx.db ∧ tx'.buffered = tx.buffered ∧
      tx'.savepoints = tx.savepoints ∧ tx'.isolation = tx.isolation ∧
      tx'.readOnly = tx.readOnly ∧ tx'.snapshotVersion = tx.snapshotVersion ∧
      tx'.writeSet = tx.writeSet := by
  simp [fail]

theorem fail_savepoint_iff : (tx.savepoint name).fail = tx.fail ↔ tx.HasJustSaved name := by
  simp only [fail_eq_fail_iff, savepoint, true_and, and_true]
  constructor
  · intro h
    refine ⟨_, h.symm, fun sp hsp => ?_⟩
    simpa using (mem_filter.mp hsp).2
  · rintro ⟨rest, heq, hrest⟩
    have hfilter : rest.filter (fun sp => sp.name != name) = rest :=
      filter_eq_self.mpr fun sp hsp => by simpa using hrest sp hsp
    rw [heq, filter_append, hfilter]
    simp

theorem releaseSavepoint_eq_none_iff :
    tx.releaseSavepoint name = none ↔ tx.LacksSavepoint name := by
  rw [releaseSavepoint, Option.map_eq_none_iff, rposition_eq_none_iff]
  simp [LacksSavepoint]

/-- A savepoint that is released leaves the list. -/
theorem fail_ne_of_releaseSavepoint (h : tx.releaseSavepoint name = some tx') :
    tx'.fail ≠ tx.fail := by
  obtain ⟨pos, hpos, rfl⟩ := Option.map_eq_some_iff.mp h
  intro heq
  have hlen := congrArg List.length (fail_eq_fail_iff.mp heq).2.2.1
  have hlt := (rposition_eq_some hpos).1
  rw [length_take] at hlen
  omega

theorem rollbackTo_eq_none_iff : tx.rollbackTo name = none ↔ tx.LacksSavepoint name := by
  rw [← releaseSavepoint_eq_none_iff, rollbackTo, releaseSavepoint]
  rcases hpos : rposition (fun sp => sp.name == name) tx.savepoints with _ | pos
  · simp [hpos]
  · have hlt := (rposition_eq_some hpos).1
    simp [hpos, hlt]

theorem fail_rollbackTo_iff (h : tx.rollbackTo name = some tx') :
    tx'.fail = tx.fail ↔ tx.IsAtSavepoint name := by
  obtain ⟨pos, hpos, h⟩ := Option.bind_eq_some_iff.mp h
  obtain ⟨hlt, hname⟩ := rposition_eq_some hpos
  rw [getElem?_eq_getElem hlt] at h
  obtain rfl := Option.some.inj h
  have hname : tx.savepoints[pos].name = name := by simpa using hname
  simp only [fail_eq_fail_iff, take_eq_self_iff, true_and]
  constructor
  · rintro ⟨hdb, hbuffered, hlast, hwrites⟩
    refine ⟨tx.savepoints.take pos, tx.savepoints[pos], ?_, hname, hdb, hbuffered, hwrites⟩
    rw [← take_succ_eq_append_getElem hlt, take_of_length_le hlast]
  · rintro ⟨rest, sp, heq, hsp, hdb, hbuffered, hwrites⟩
    -- The last savepoint with the name is the last one of all.
    have hpos' : pos = rest.length := by
      rw [heq, rposition_append_singleton (by simpa using hsp)] at hpos
      exact (Option.some.inj hpos).symm
    have hat : tx.savepoints[pos] = sp := by
      simp [heq, hpos']
    rw [hat, heq, hpos', length_append]
    exact ⟨hdb, hbuffered, le_refl _, hwrites⟩

theorem fail_execute_iff : (tx.execute w stmt).1.fail = tx.fail ↔
      (w.execute tx.db.store stmt).1 = tx.db.store ∧
        ∀ r, (w.execute tx.db.store stmt).2 = .ok r → stmt.isMutation = false := by
  have hdb : ∀ store, ({ tx.db with store := store } : Database τ ρ) = tx.db ↔
      store = tx.db.store := fun store =>
    ⟨fun h => congrArg Database.store h, fun h => by rw [h]⟩
  rw [execute]
  rcases w.execute tx.db.store stmt with ⟨store, e | r⟩
  · simp [fail, hdb]
  · rcases hm : stmt.isMutation with _ | _
    · simp [fail_eq_fail_iff, hdb]
    · simp [fail_eq_fail_iff]

theorem fail_run_iff : (tx.run w stmt).1.fail = tx.fail ↔ tx.Reads w stmt := by
  rw [run, Reads]
  split
  · next hf => simp [hf]
  · next hf =>
    split
    · next hro => simp [hro, fail]
    · next hro => rw [fail_execute_iff, or_iff_right hf, or_iff_right hro]

theorem setIsolation_eq_self (h : ∀ level ∈ isolation, tx.isolation = level ∧
      tx.db.store.systemSettings "transaction_isolation" = some level.gucValue) :
    tx.setIsolation isolation = tx := by
  rcases isolation with _ | level
  · rfl
  · obtain ⟨rfl, hsetting⟩ := h level rfl
    rw [setIsolation, Store.setSystemSetting, ← hsetting, Function.update_eq_self]

theorem setReadOnly_eq_self (h : ∀ ro ∈ readOnly, tx.readOnly = ro ∧
      tx.db.store.systemSettings "transaction_read_only" = some (if ro then "on" else "off")) :
    tx.setReadOnly readOnly = tx := by
  rcases readOnly with _ | ro
  · rfl
  · obtain ⟨rfl, hsetting⟩ := h ro rfl
    rw [setReadOnly, Store.setSystemSetting, ← hsetting, Function.update_eq_self]

theorem fail_setMode_iff : ((tx.setIsolation isolation).setReadOnly readOnly).fail = tx.fail ↔
      (∀ level ∈ isolation, tx.isolation = level ∧
        tx.db.store.systemSettings "transaction_isolation" = some level.gucValue) ∧
      ∀ ro ∈ readOnly, tx.readOnly = ro ∧
        tx.db.store.systemSettings "transaction_read_only" =
          some (if ro then "on" else "off") := by
  constructor
  · intro h
    obtain ⟨hdb, -, -, hlevel, hro, -⟩ := fail_eq_fail_iff.mp h
    have hsetting : ∀ key,
        ((tx.setIsolation isolation).setReadOnly readOnly).db.store.systemSettings key =
          tx.db.store.systemSettings key := fun key => by rw [hdb]
    refine ⟨?_, ?_⟩
    · rintro level rfl
      rw [← hlevel, ← hsetting]
      rcases readOnly with _ | ro <;> simp [setReadOnly, setIsolation, Store.setSystemSetting]
    · rintro ro rfl
      rw [← hro, ← hsetting]
      simp [setReadOnly, Store.setSystemSetting]
  · rintro ⟨hisolation, hreadOnly⟩
    rw [setIsolation_eq_self hisolation, setReadOnly_eq_self hreadOnly]

end Transaction

namespace Session

variable {sess : Session τ ρ} {tx : Transaction τ ρ} {name : String}
  {isolation : Option IsolationLevel} {readOnly : Option Bool}

/-- The transaction state of a session whose block has changed. -/
theorem failedState_block_iff {tx' : Transaction τ ρ} {status : TxStatus}
    (htx : sess.tx = some tx) :
    Session.failedState { sess with tx := some tx', txStatus := status } = sess.failedState ↔
      tx'.fail = tx.fail := by
  simp [failedState, htx]

theorem failedState_begin_iff {db : Database τ ρ} :
    (sess.begin db isolation readOnly).failedState = sess.failedState ↔ sess.tx ≠ none := by
  rw [begin]
  split
  · next htx => simp [failedState, htx]
  · next htx => simp [failedState, htx]

theorem failedState_setTransaction_iff {isSession : Bool} :
    (sess.setTransaction isolation readOnly isSession).failedState = sess.failedState ↔
      sess.Restates isolation readOnly isSession := by
  have hdefaults : Session.failedState { sess with
        defaultIsolation := isolation.getD sess.defaultIsolation
        defaultReadOnly := readOnly.getD sess.defaultReadOnly } = sess.failedState ↔
      (∀ level ∈ isolation, sess.defaultIsolation = level) ∧
        ∀ ro ∈ readOnly, sess.defaultReadOnly = ro := by
    have hgetD : ∀ {α : Type} (o : Option α) (d : α), o.getD d = d ↔ ∀ a ∈ o, d = a := by
      rintro α (_ | a) d
      · simp
      · simpa using eq_comm
    simp only [failedState, TxState.mk.injEq, true_and, hgetD]
  rcases isSession with _ | _
  · rcases htx : sess.tx with _ | tx
    · simpa only [setTransaction, Restates, htx] using hdefaults
    · simp only [setTransaction, Restates, htx]
      rw [failedState_block_iff htx, fail_setMode_iff]
  · simpa only [setTransaction, Restates] using hdefaults

theorem failedState_savepoint_iff :
    (sess.savepoint name).1.failedState = sess.failedState ↔
      ∀ tx, sess.tx = some tx → tx.HasJustSaved name := by
  rw [savepoint]
  split
  · next htx => simp [htx]
  · next tx htx =>
    rw [failedState_block_iff htx, fail_savepoint_iff]
    simp [htx]

theorem failedState_releaseSavepoint_iff :
    (sess.releaseSavepoint name).1.failedState = sess.failedState ↔
      ∀ tx, sess.tx = some tx → tx.LacksSavepoint name := by
  rw [releaseSavepoint]
  split
  · next htx => simp [htx]
  next tx htx =>
  rw [htx]
  split
  · next hnone => simpa using releaseSavepoint_eq_none_iff.mp hnone
  · next tx' hsome =>
    rw [failedState_block_iff htx, iff_false_left (fail_ne_of_releaseSavepoint hsome)]
    simp [← releaseSavepoint_eq_none_iff, hsome]

theorem failedState_rollbackToSavepoint_iff :
    (sess.rollbackToSavepoint name).1.failedState = sess.failedState ↔
      ∀ tx, sess.tx = some tx → tx.LacksSavepoint name ∨ tx.IsAtSavepoint name := by
  rw [rollbackToSavepoint]
  split
  · next htx => simp [htx]
  next tx htx =>
  rw [htx]
  split
  · next hnone => simpa using .inl (rollbackTo_eq_none_iff.mp hnone)
  · next tx' hsome =>
    rw [failedState_block_iff htx, fail_rollbackTo_iff hsome]
    simp [← rollbackTo_eq_none_iff, hsome]

theorem failedState_finishPrepared_iff {gid tag : String} :
    (sess.finishPrepared gid tag).1.failedState = sess.failedState ↔ gid ∉ sess.preparedGids := by
  rw [finishPrepared]
  split
  · next hmem => simp [failedState]
  · next hmem => simp [hmem]

theorem failedState_runInBlock_iff {w : Engine τ ρ} {stmt : Statement}
    (htx : sess.tx = some tx) :
    (sess.runInBlock w tx stmt).1.failedState = sess.failedState ↔ tx.Reads w stmt := by
  rw [← fail_run_iff, runInBlock]
  split
  · next hrun => rw [failedState_block_iff htx, hrun]
  · next hrun => rw [failedState_block_iff htx, hrun]

end Session

namespace Server

variable {w : Engine τ ρ} {s s' : Server τ ρ} {pid : Pid} {sess : Session τ ρ} {stmt : Statement}

theorem kept_setSession_iff :
    s.Kept pid (s'.setSession pid sess) ↔
      s'.db = s.db ∧ s'.wal = s.wal ∧ sess.failedState = (s.sessions pid).failedState := by
  constructor
  · rintro ⟨hdb, hwal, hsess⟩
    rw [sessions_set_self] at hsess
    exact ⟨hdb, hwal, hsess⟩
  · rintro ⟨hdb, hwal, hsess⟩
    exact kept_setSession hdb hwal hsess

/-- A statement that is answered by the session alone. -/
theorem kept_reply_iff {r : StmtResult} :
    s.Kept pid (s.reply pid sess r) ↔ sess.failedState = (s.sessions pid).failedState := by
  rw [reply, kept_setSession_iff]
  exact ⟨fun h => h.2.2, fun h => ⟨rfl, rfl, h⟩⟩

/-- The log after one append. -/
theorem appendAll_singleton_eq_iff {ok : Nat → Bool} {log : List String} {sql : String} :
    appendAll ok 0 log [sql] = log ↔ sql = "" ∨ ok 0 = false := by
  rw [appendAll]
  split
  · next hempty => simp [appendAll, hempty]
  · next hempty =>
    rw [or_iff_right hempty, appendAll]
    rcases ok 0 with _ | _ <;> simp

theorem wal_executeAutocommit_iff :
    (s.executeAutocommit w stmt).1.wal = s.wal ↔
      s.wal = none ∨ (∀ r, (w.execute s.db.store stmt).2 = .ok r → stmt.isMutation = false) ∨
        w.statementToSql stmt = "" ∨ w.appendOk s.clock 0 = false := by
  rw [executeAutocommit_eq, autocommitLog, append]
  rcases hwal : s.wal with _ | log
  · simp
  · rcases (w.execute s.db.store stmt).2 with e | r
    · simp [appendAll]
    · rcases hm : stmt.isMutation with _ | _
      · simp [appendAll]
      · simp [appendAll_singleton_eq_iff]

/-- The ordinary path of a statement. -/
theorem kept_runPlain_iff :
    ((s.runPlain w pid stmt).1.db = s.db ∧ (s.runPlain w pid stmt).1.wal = s.wal ∧
      (s.runPlain w pid stmt).2.1.failedState = (s.sessions pid).failedState) ↔
      s.Reads w pid stmt := by
  rw [runPlain, Reads]
  rcases htx : (s.sessions pid).tx with _ | tx
  · rw [wal_executeAutocommit_iff, db_executeAutocommit, and_iff_left rfl]
    refine and_congr_left fun _ => ⟨fun h => congrArg Database.store h, fun h => by rw [h]⟩
  · exact ⟨fun h => (failedState_runInBlock_iff htx).mp h.2.2,
      fun h => ⟨rfl, rfl, (failedState_runInBlock_iff htx).mpr h⟩⟩

/-- The first step of a statement that does not end a block by publishing it. -/
theorem kept_runData_iff : s.Kept pid (s.runData w pid stmt) ↔ s.Reads w pid stmt := by
  rw [← kept_runPlain_iff]
  exact kept_setSession_iff

theorem kept_runSelect_iff {select : Select} :
    s.Kept pid (s.runSelect w pid select) ↔ s.Reads w pid (.select select) := by
  rw [runSelect]
  split
  · exact kept_runData_iff
  rw [startLocking]
  dsimp only
  split
  · rw [← kept_runPlain_iff, lockRows]
    split <;> exact kept_setSession_iff
  · rw [← kept_runPlain_iff]
    exact kept_setSession_iff

theorem kept_startLockTable {lock : LockTable} : s.Kept pid (s.startLockTable pid lock) := by
  have hreply : ∀ r, s.Kept pid (s.reply pid (s.sessions pid) r) := fun r => kept_reply_iff.mpr rfl
  rw [startLockTable]
  split
  · exact hreply _
  split
  · exact hreply _
  · split
    · exact hreply _
    · split
      · exact hreply _
      · exact (keptIdle_lockTables s.locks _ _ _).1

/-- The end of a block is not harmless. -/
theorem not_kept_close {r : StmtResult} (htx : (s.sessions pid).tx ≠ none) :
    ¬s.Kept pid ((s.releaseLocks pid).reply pid (s.sessions pid).close r) := by
  rw [reply]
  rintro ⟨-, -, hsess⟩
  have htx' := congrArg TxState.tx hsess
  simp [Session.failedState, Session.close] at htx'
  exact htx htx'

theorem kept_startRollback_iff : s.Kept pid (s.startRollback pid) ↔
    (s.sessions pid).tx = none ∧ (s.sessions pid).txStatus = .idle := by
  rw [startRollback]
  rw [reply]
  constructor
  · rintro ⟨-, -, hsess⟩
    have htx : (s.sessions pid).tx = none := by
      simpa [Session.failedState, Session.close] using (congrArg TxState.tx hsess).symm
    have hstatus := (congrArg TxState.txStatus hsess).symm
    simpa [Session.failedState, Session.close, htx] using hstatus
  · rintro ⟨htx, hstatus⟩
    exact ⟨rfl, rfl, by simp [Session.failedState, Session.close, htx, hstatus]⟩

theorem kept_start_iff (hnot : ¬s.Publishes pid stmt) :
    s.Kept pid (s.start w pid stmt) ↔ s.Harmless w pid stmt := by
  rw [start.eq_def, Harmless.eq_def]
  dsimp only
  split
  case h_1 => rw [kept_reply_iff, failedState_begin_iff]
  case h_2 => rw [kept_reply_iff, failedState_setTransaction_iff]
  case h_3 | h_4 | h_5 => exact iff_of_true (kept_reply_iff.mpr rfl) trivial
  case h_6 =>
    rw [startCommit]
    rcases htx : (s.sessions pid).tx with _ | tx
    · exact iff_of_true (kept_reply_iff.mpr (by simp [Session.failedState, htx])) rfl
    · rcases hf : tx.failed with _ | _
      · exact absurd ⟨.inl rfl, tx, htx, hf⟩ hnot
      · simp only [hf]
        exact iff_of_false (not_kept_close (by simp [htx])) (by simp)
  case h_7 => exact kept_startRollback_iff
  case h_8 gid =>
    rw [startPrepare]
    rcases htx : (s.sessions pid).tx with _ | tx
    · exact iff_of_true (kept_reply_iff.mpr rfl) rfl
    · rcases hf : tx.failed with _ | _
      · exact absurd ⟨.inr ⟨gid, rfl⟩, tx, htx, hf⟩ hnot
      · simp only [hf]
        exact iff_of_false (not_kept_close (by simp [htx])) (by simp)
  case h_9 | h_10 => rw [kept_reply_iff, failedState_finishPrepared_iff]
  case h_11 => rw [kept_reply_iff, failedState_savepoint_iff]
  case h_12 => rw [kept_reply_iff, failedState_releaseSavepoint_iff]
  case h_13 => rw [kept_reply_iff, failedState_rollbackToSavepoint_iff]
  case h_14 => exact iff_of_true kept_startLockTable trivial
  case h_15 => exact kept_runSelect_iff
  case h_16 copy =>
    dsimp only
    rcases w.copySource s.clock copy (s.view pid) with r | i | q
    · exact iff_of_true (kept_reply_iff.mpr rfl) trivial
    · exact kept_runData_iff
    · exact kept_runSelect_iff
  case h_17 =>
    split
    all_goals first
      | exact kept_runData_iff
      | simp_all

/-- A statement that does not publish has nothing left to do after its first step but to ask for
locks. -/
theorem ending_start (hnot : ¬s.Publishes pid stmt) :
    ((s.start w pid stmt).sessions pid).ending = false := by
  have hleaves : s.Leaves w pid stmt _ := leaves_start
  rw [Session.ending]
  generalize ((s.start w pid stmt).sessions pid).running = n at hleaves
  rcases hleaves with _ | _ | _ | ⟨n, hpub, -⟩
  case publishing => exact absurd hpub hnot
  all_goals rfl

end Server

/-! ## Timeouts -/

section

variable {w : Engine τ ρ} {s : Server τ ρ} {pid : Pid} {stmt : Statement} {es : List Event}

/-- The end of a timed call does not concern the transaction state. -/
theorem txState_finishTimed (t : Server τ ρ) :
    ((t.finishTimed pid true).sessions pid).markError.txState = (t.sessions pid).failedState := by
  rw [txState_markError, Server.finishTimed, if_pos rfl, sessions_set_self]
  rfl

theorem tx_start_of_publishes (hpub : s.Publishes pid stmt) :
    ((s.start w pid stmt).sessions pid).tx = none := by
  have hpublish : ∀ tx gid, ((s.startPublish pid tx gid).sessions pid).tx = none := by
    intro tx gid
    rw [Server.startPublish]
    split <;> exact congrArg Session.tx sessions_set_self
  obtain ⟨hstmt, tx, htx, hf⟩ := hpub
  obtain rfl | ⟨gid, rfl⟩ := hstmt
  · show ((s.startCommit pid).sessions pid).tx = none
    simp only [Server.startCommit, htx, hf]
    exact hpublish tx none
  · show ((s.startPrepare pid gid).sessions pid).tx = none
    simp only [Server.startPrepare, htx, hf]
    exact hpublish tx (some gid)

/-- The run after the first step of a statement that has only to ask for locks. -/
theorem run_during (hes : ∀ e ∈ es, e.During pid) (hend : (s.sessions pid).ending = false) :
    Machine.Always (Server.step w) (Server.Quiet w pid) s es ∧
      ((Machine.run (Server.step w) s es).sessions pid).failedState =
        (s.sessions pid).failedState := by
  let I (t : Server τ ρ) : Prop := (t.sessions pid).ending = false ∧
    (t.sessions pid).failedState = (s.sessions pid).failedState
  have hI : I s := ⟨hend, rfl⟩
  obtain ⟨hall, -, hsess⟩ := Machine.always_and_run_of_mem hI fun e he t ht => by
    obtain ⟨hstate, hend', hquiet⟩ := step_during (w := w) (hes e he) ht.1
    exact ⟨hquiet, hend', hstate.trans ht.2⟩
  exact ⟨hall, hsess⟩

/-- A block that is gone after the first step stays gone. -/
theorem tx_run_during (hes : ∀ e ∈ es, e.During pid) (htx : (s.sessions pid).tx = none) :
    ((Machine.run (Server.step w) s es).sessions pid).tx = none := by
  induction es generalizing s with
  | nil => exact htx
  | cons e es ih =>
    exact ih (fun e' he' => hes e' (.tail _ he')) (tx_step_during (hes e (.head _)) htx)

/-- **Statement timeouts**: a statement reported as timed out has left the shared database, the log
and the transaction state as if it had failed before it did anything if and only if it is harmless
anyway; when the watchdog fires and what other sessions do in between plays no part. -/
theorem leftUntouched_iff (h : TimesOut w s pid stmt es) :
    LeftUntouched w s pid stmt es ↔ s.Harmless w pid stmt := by
  have hstart := h.step_start
  have hsession : LeftUntouched w s pid stmt es →
      ((Machine.run (Server.step w) (s.step w (.start pid stmt)) es).sessions pid).failedState =
        (s.sessions pid).failedState := fun hun => by
    rw [← txState_finishTimed, ← txState_markError]
    exact hun.session
  by_cases hpub : s.Publishes pid stmt
  · -- The block is gone for good; a statement that failed at once would have left it open.
    have hgone := tx_run_during (w := w) (s := s.step w (.start pid stmt)) h.during
      (hstart ▸ tx_start_of_publishes hpub)
    obtain ⟨hstmt, tx, htx, -⟩ := hpub
    refine iff_of_false (fun hun => ?_) ?_
    · have htx' := congrArg TxState.tx (hsession hun)
      simp [Session.failedState, hgone, htx] at htx'
    · obtain rfl | ⟨gid, rfl⟩ := hstmt <;> simp [Server.Harmless, htx]
  · obtain ⟨hrest, hstate⟩ := run_during (w := w) (s := s.step w (.start pid stmt)) h.during
      (hstart ▸ ending_start hpub)
    rw [← kept_start_iff hpub]
    constructor
    · intro hun
      obtain ⟨hdb, hwal⟩ := hun.shared.1 rfl
      rw [hstart] at hdb hwal hstate hsession
      exact ⟨hdb, hwal, hstate.symm.trans (hsession hun)⟩
    · rintro ⟨hdb, hwal, hsess⟩
      refine ⟨⟨fun _ => ?_, hrest⟩, ?_⟩
      · rw [hstart]
        exact ⟨hdb, hwal⟩
      · rw [txState_finishTimed, txState_markError, Machine.run_cons, hstate, hstart]
        exact hsess

end

/-- An `INSERT` into a table that does not exist does nothing. -/
theorem leftUntouched_missingTable :
    LeftUntouched tinyEngine (.init tinyDatabase (some [])) 1 (insertInto "v" [[.int 1]])
      [.setCancel 1 true] := by
  have htimes : TimesOut tinyEngine (.init tinyDatabase (some [])) 1 (insertInto "v" [[.int 1]])
      [.setCancel 1 true] :=
    ⟨⟨rfl, by simp [Event.During], rfl⟩, .inr (.head _)⟩
  refine (leftUntouched_iff htimes).mpr ⟨rfl, .inr (.inl fun r hr => ?_)⟩
  exact absurd hr (by simp [tinyEngine, insertInto, Server.init, tinyDatabase])

/-- The server after an `INSERT` in autocommit during which the watchdog has fired. -/
def timedInsert : Server (List Int) Unit :=
  (Machine.run (Server.step tinyEngine) (.init tinyDatabase (some []))
    [.start 1 (insertInto "t" [[.int 1]]), .setCancel 1 true]).finishTimed 1 true

/-- An `INSERT` in autocommit that is reported as timed out: the row is in the table and the
statement in the log. -/
theorem not_leftUntouched_insert :
    TimesOut tinyEngine (.init tinyDatabase (some [])) 1 (insertInto "t" [[.int 1]])
        [.setCancel 1 true] ∧
      (timedInsert.sessions 1).result = some (.error timeoutMessage) ∧
      timedInsert.db.store.tables "t" = some [1] ∧ timedInsert.wal = some ["INSERT INTO t"] ∧
      ¬LeftUntouched tinyEngine (.init tinyDatabase (some [])) 1 (insertInto "t" [[.int 1]])
        [.setCancel 1 true] := by
  refine ⟨⟨⟨rfl, by simp [Event.During], rfl⟩, .inr (.head _)⟩, rfl, rfl, rfl, fun hun => ?_⟩
  have hwal : some ["INSERT INTO t"] = some [] := (hun.shared.1 rfl).2
  simp at hwal

end PostgresRs
