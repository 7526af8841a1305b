import PostgresRs.Server.Frame

/-!
# Prepared transactions

`PREPARE TRANSACTION` of `server/src/server.rs` commits: it publishes the working copy and appends
the changes to the log at once, and remembers the identifier.  `COMMIT PREPARED` and
`ROLLBACK PREPARED` only look for the identifier and forget it.

* `SameForOthers` — the shared state, the log and the other sessions are the same.
* `Server.Like` — moreover a session differs only in what no other session can find out: its
  notices, its last result, its prepared identifiers and what a running statement will answer.
* `Like.step`, `Like.run` — servers that are alike stay alike.
* `commitsAtPrepare` — to others `PREPARE TRANSACTION` is a `COMMIT`, and `COMMIT PREPARED` and
  `ROLLBACK PREPARED` are nothing.
-/

namespace PostgresRs

open Machine

variable {τ ρ : Type}

/-! ## What others see -/

/-- Everything but the session `pid` is the same. -/
structure SameForOthers (pid : Pid) (s t : Server τ ρ) : Prop where
  db : s.db = t.db
  wal : s.wal = t.wal
  locks : s.locks = t.locks
  sessions : ∀ q, q ≠ pid → s.sessions q = t.sessions q

/-- The statement stands at the same point, whatever it answers in the end. -/
inductive Running.Like : Option Running → Option Running → Prop
  | none : Like none none
  | appending (buffered : List String) (gid gid' : Option String) :
      Like (some (.appending buffered gid)) (some (.appending buffered gid'))
  | releasing (r r' : StmtResult) : Like (some (.releasing r)) (some (.releasing r'))
  | lockingTables (tables : List String) (mode : LockMode) (nowait : Bool) :
      Like (some (.lockingTables tables mode nowait)) (some (.lockingTables tables mode nowait))
  | lockingRows (rl : RowLocking) : Like (some (.lockingRows rl)) (some (.lockingRows rl))

/-- The sessions have the same block and the same settings. -/
structure Session.SameBlock (a b : Session τ ρ) : Prop where
  txStatus : a.txStatus = b.txStatus
  tx : a.tx = b.tx
  cancel : a.cancel = b.cancel
  defaultIsolation : a.defaultIsolation = b.defaultIsolation
  defaultReadOnly : a.defaultReadOnly = b.defaultReadOnly

/-- The servers differ only in what the session `pid` keeps to itself. -/
structure Server.Like (pid : Pid) (s t : Server τ ρ) : Prop extends SameForOthers pid s t where
  clock : s.clock = t.clock
  block : (s.sessions pid).SameBlock (t.sessions pid)
  running : Running.Like (s.sessions pid).running (t.sessions pid).running

/-! ## Sessions with the same block -/

namespace Session.SameBlock

variable {a b : Session τ ρ} (h : a.SameBlock b)

protected theorem refl (a : Session τ ρ) : a.SameBlock a := ⟨rfl, rfl, rfl, rfl, rfl⟩

include h

protected theorem symm : b.SameBlock a :=
  ⟨h.txStatus.symm, h.tx.symm, h.cancel.symm, h.defaultIsolation.symm, h.defaultReadOnly.symm⟩

protected theorem trans {c : Session τ ρ} (hc : b.SameBlock c) : a.SameBlock c :=
  ⟨h.txStatus.trans hc.txStatus, h.tx.trans hc.tx, h.cancel.trans hc.cancel,
    h.defaultIsolation.trans hc.defaultIsolation, h.defaultReadOnly.trans hc.defaultReadOnly⟩

/-- A session with the same block is the session with other notices, results, identifiers and
another running statement. -/
theorem exists_eq : ∃ notices gids running result,
    b = { a with notices := notices, preparedGids := gids, running := running, result := result } :=
  ⟨b.notices, b.preparedGids, b.running, b.result, by
    obtain ⟨h1, h2, h3, h4, h5⟩ := h
    rw [h1, h2, h3, h4, h5]⟩

theorem close : a.close.SameBlock b.close :=
  ⟨rfl, rfl, h.cancel, h.defaultIsolation, h.defaultReadOnly⟩

theorem markError : a.markError.SameBlock b.markError := by
  obtain ⟨notices, gids, running, result, rfl⟩ := h.exists_eq
  rw [Session.markError, Session.markError]
  dsimp only
  split <;> exact ⟨rfl, rfl, rfl, rfl, rfl⟩

theorem begin (db : Database τ ρ) (isolation : Option IsolationLevel) (readOnly : Option Bool) :
    (a.begin db isolation readOnly).SameBlock (b.begin db isolation readOnly) := by
  obtain ⟨notices, gids, running, result, rfl⟩ := h.exists_eq
  rw [Session.begin, Session.begin]
  dsimp only
  split <;> exact ⟨rfl, rfl, rfl, rfl, rfl⟩

theorem setTransaction (isolation : Option IsolationLevel) (readOnly : Option Bool)
    (isSession : Bool) : (a.setTransaction isolation readOnly isSession).SameBlock
      (b.setTransaction isolation readOnly isSession) := by
  obtain ⟨notices, gids, running, result, rfl⟩ := h.exists_eq
  rcases isSession with _ | _
  · simp only [Session.setTransaction]
    split <;> exact ⟨rfl, rfl, rfl, rfl, rfl⟩
  · exact ⟨rfl, rfl, rfl, rfl, rfl⟩

theorem savepoint (name : String) : (a.savepoint name).1.SameBlock (b.savepoint name).1 := by
  obtain ⟨notices, gids, running, result, rfl⟩ := h.exists_eq
  rw [Session.savepoint, Session.savepoint]
  dsimp only
  split <;> exact ⟨rfl, rfl, rfl, rfl, rfl⟩

theorem releaseSavepoint (name : String) :
    (a.releaseSavepoint name).1.SameBlock (b.releaseSavepoint name).1 := by
  obtain ⟨notices, gids, running, result, rfl⟩ := h.exists_eq
  rw [Session.releaseSavepoint, Session.releaseSavepoint]
  dsimp only
  split
  · exact ⟨rfl, rfl, rfl, rfl, rfl⟩
  · split <;> exact ⟨rfl, rfl, rfl, rfl, rfl⟩

theorem rollbackToSavepoint (name : String) :
    (a.rollbackToSavepoint name).1.SameBlock (b.rollbackToSavepoint name).1 := by
  obtain ⟨notices, gids, running, result, rfl⟩ := h.exists_eq
  rw [Session.rollbackToSavepoint, Session.rollbackToSavepoint]
  dsimp only
  split
  · exact ⟨rfl, rfl, rfl, rfl, rfl⟩
  · split <;> exact ⟨rfl, rfl, rfl, rfl, rfl⟩

theorem runInBlock (w : Engine τ ρ) (tx : Transaction τ ρ) (stmt : Statement) :
    (a.runInBlock w tx stmt).1.SameBlock (b.runInBlock w tx stmt).1 ∧
      (a.runInBlock w tx stmt).2 = (b.runInBlock w tx stmt).2 := by
  obtain ⟨notices, gids, running, result, rfl⟩ := h.exists_eq
  rw [Session.runInBlock, Session.runInBlock]
  rcases tx.run w stmt with ⟨tx', e | r⟩ <;> exact ⟨⟨rfl, rfl, rfl, rfl, rfl⟩, rfl⟩

end Session.SameBlock

theorem Session.sameBlock_finishPrepared (sess : Session τ ρ) (gid tag : String) :
    sess.SameBlock (sess.finishPrepared gid tag).1 := by
  rw [finishPrepared]
  split <;> exact ⟨rfl, rfl, rfl, rfl, rfl⟩

namespace Running.Like

variable {n n' n'' : Option Running}

protected theorem refl (n : Option Running) : Running.Like n n := by
  rcases n with _ | (_ | _ | _ | _) <;> constructor

protected theorem symm (h : Running.Like n n') : Running.Like n' n := by
  cases h <;> constructor

protected theorem trans (h : Running.Like n n') (h' : Running.Like n' n'') :
    Running.Like n n'' := by
  cases h <;> cases h' <;> constructor

theorem isNone_eq (h : Running.Like n n') : n'.isNone = n.isNone := by
  cases h <;> rfl

end Running.Like

/-! ## One step -/

namespace Server

variable {w : Engine τ ρ} {s t : Server τ ρ} {pid : Pid} {a b : Session τ ρ}

@[simp] theorem setSession_setSession :
    (s.setSession pid a).setSession pid b = s.setSession pid b := by
  simp only [setSession, Function.update_idem]

protected theorem Like.refl (pid : Pid) (s : Server τ ρ) : Like pid s s :=
  ⟨⟨rfl, rfl, rfl, fun _ _ => rfl⟩, rfl, .refl _, .refl _⟩

protected theorem Like.symm (h : Like pid s t) : Like pid t s :=
  ⟨⟨h.db.symm, h.wal.symm, h.locks.symm, fun q hq => (h.sessions q hq).symm⟩, h.clock.symm,
    h.block.symm, h.running.symm⟩

protected theorem Like.trans {u : Server τ ρ} (h : Like pid s t) (h' : Like pid t u) :
    Like pid s u :=
  ⟨⟨h.db.trans h'.db, h.wal.trans h'.wal, h.locks.trans h'.locks,
      fun q hq => (h.sessions q hq).trans (h'.sessions q hq)⟩,
    h.clock.trans h'.clock, h.block.trans h'.block, h.running.trans h'.running⟩

theorem Like.eq_setSession (h : Like pid s t) : t = s.setSession pid (t.sessions pid) := by
  obtain ⟨⟨hdb, hwal, hlocks, hsessions⟩, hclock, -, -⟩ := h
  rcases t with ⟨db, wal, locks, sessions, clock⟩
  obtain rfl : s.db = db := hdb
  obtain rfl : s.wal = wal := hwal
  obtain rfl : s.locks = locks := hlocks
  obtain rfl : s.clock = clock := hclock
  rw [setSession]
  congr 1
  funext q
  by_cases hq : q = pid
  · subst hq
    simp
  · simp [hq, hsessions q hq]

theorem like_setSession (hblock : a.SameBlock b) (hrunning : Running.Like a.running b.running) :
    Like pid (s.setSession pid a) (s.setSession pid b) where
  db := rfl
  wal := rfl
  locks := rfl
  sessions q hq := by rw [sessions_set_of_ne hq, sessions_set_of_ne hq]
  clock := rfl
  block := by rwa [sessions_set_self, sessions_set_self]
  running := by rwa [sessions_set_self, sessions_set_self]

section Ends

variable {c : Session τ ρ} (h : a.SameBlock b)

include h

theorem like_reply (r r' : StmtResult) :
    Like pid (s.reply pid a r) ((s.setSession pid c).reply pid b r') := by
  rw [reply, reply, setSession_setSession]
  exact like_setSession ⟨h.txStatus, h.tx, h.cancel, h.defaultIsolation, h.defaultReadOnly⟩ .none

theorem like_pause {n n' : Running} (hn : Running.Like (some n) (some n')) :
    Like pid (s.pause pid a n) ((s.setSession pid c).pause pid b n') := by
  rw [pause, pause, setSession_setSession]
  exact like_setSession ⟨h.txStatus, h.tx, h.cancel, h.defaultIsolation, h.defaultReadOnly⟩ hn

theorem like_lockRows (rl : RowLocking) :
    Like pid (s.lockRows pid a rl) ((s.setSession pid c).lockRows pid b rl) := by
  rw [lockRows, lockRows]
  split
  · exact like_reply h _ _
  · exact like_pause h (.lockingRows rl)

theorem like_lockTables (tables : List String) (mode : LockMode) (nowait : Bool) :
    Like pid (s.lockTables pid a tables mode nowait)
      ((s.setSession pid c).lockTables pid b tables mode nowait) := by
  rcases tables with _ | ⟨t, rest⟩
  · exact like_reply h _ _
  · exact like_pause h (.lockingTables _ mode nowait)

end Ends

section Start

variable (hb : (s.sessions pid).SameBlock b)

include hb

theorem runPlain_like (stmt : Statement) :
    ((s.setSession pid b).runPlain w pid stmt).1 =
        (s.runPlain w pid stmt).1.setSession pid b ∧
      (s.runPlain w pid stmt).2.1.SameBlock ((s.setSession pid b).runPlain w pid stmt).2.1 ∧
      (s.runPlain w pid stmt).2.2 = ((s.setSession pid b).runPlain w pid stmt).2.2 := by
  simp only [runPlain, sessions_set_self, ← hb.tx]
  rcases (s.sessions pid).tx with _ | tx
  · simp only [executeAutocommit, db_setSession]
    split
    · split <;> exact ⟨rfl, hb, rfl⟩
    · exact ⟨rfl, hb, rfl⟩
  · exact ⟨rfl, hb.runInBlock w tx stmt⟩

theorem like_runData (stmt : Statement) :
    Like pid (s.runData w pid stmt) ((s.setSession pid b).runData w pid stmt) := by
  obtain ⟨hserver, hsess, -⟩ := runPlain_like (w := w) hb stmt
  simp only [runData, hserver]
  exact like_reply hsess _ _

theorem like_runSelect (select : Select) :
    Like pid (s.runSelect w pid select) ((s.setSession pid b).runSelect w pid select) := by
  rw [runSelect, runSelect]
  split
  · exact like_runData hb _
  obtain ⟨hserver, hsess, hresult⟩ := runPlain_like (w := w) hb (.select select)
  simp only [startLocking, hserver, ← hresult]
  generalize (s.runPlain w pid (.select select)).2.2 = r
  rcases select.lockTarget with _ | target
  · exact like_reply hsess _ _
  rcases r with e | (⟨fields, rows, tag⟩ | tag | _)
  case ok.rows => exact like_lockRows hsess _
  all_goals exact like_reply hsess _ _

theorem like_startLockTable (lock : LockTable) :
    Like pid (s.startLockTable pid lock) ((s.setSession pid b).startLockTable pid lock) := by
  simp only [startLockTable, sessions_set_self, ← hb.tx]
  rcases (s.sessions pid).tx with _ | tx
  · exact like_reply hb _ _
  dsimp only
  split
  · exact like_reply hb _ _
  rcases lock.tables.find? fun t => !tx.db.store.containsTable t with _ | t
  · rcases tableLockMode lock.mode with e | mode
    · exact like_reply hb _ _
    · exact like_lockTables hb _ _ _
  · exact like_reply hb _ _

/-- The end of a block publishes the same, by whichever statement. -/
theorem like_startPublish (tx : Transaction τ ρ) (gid gid' : Option String) :
    Like pid (s.startPublish pid tx gid) ((s.setSession pid b).startPublish pid tx gid') := by
  have hclosed : ({ s.sessions pid with tx := none } : Session τ ρ).SameBlock
      { b with tx := none } :=
    ⟨hb.txStatus, rfl, hb.cancel, hb.defaultIsolation, hb.defaultReadOnly⟩
  simp only [startPublish, sessions_set_self, db_setSession]
  rcases tx.publish s.db with _ | db
  · exact like_pause hclosed (.releasing _ _)
  · exact like_pause (s := { s with db := db }) hclosed (.appending _ gid gid')

/-- To others `PREPARE TRANSACTION` is a `COMMIT`, whether there is a block to end or not. -/
theorem like_startPrepare (gid : String) :
    Like pid (s.startCommit pid) ((s.setSession pid b).startPrepare pid gid) := by
  rw [startCommit, startPrepare]
  simp only [sessions_set_self, ← hb.tx]
  split
  · refine like_reply (Session.SameBlock.trans ?_ hb) _ _
    exact ⟨rfl, rfl, rfl, rfl, rfl⟩
  · split
    · exact like_reply (s := s.releaseLocks pid) hb.close _ _
    · exact like_startPublish hb _ _ _

omit hb in
theorem like_commit_prepare (s : Server τ ρ) (pid : Pid) (gid : String) :
    Like pid (s.startCommit pid) (s.startPrepare pid gid) := by
  have h := like_startPrepare (.refl (s.sessions pid)) gid
  rwa [setSession_self] at h

theorem like_start (stmt : Statement) :
    Like pid (s.start w pid stmt) ((s.setSession pid b).start w pid stmt) := by
  rw [start.eq_def, start.eq_def]
  simp only [sessions_set_self, db_setSession]
  split
  case h_1 => exact like_reply (hb.begin _ _ _) _ _
  case h_2 => exact like_reply (hb.setTransaction _ _ _) _ _
  case h_6 => exact (like_startPrepare hb "").trans (like_commit_prepare _ pid "").symm
  case h_7 =>
    simp only [startRollback, sessions_set_self]
    refine like_reply (s := s.releaseLocks pid) ?_ _ _
    exact ⟨rfl, rfl, hb.cancel, hb.defaultIsolation, hb.defaultReadOnly⟩
  case h_8 gid => exact (like_commit_prepare s pid gid).symm.trans (like_startPrepare hb gid)
  case h_9 | h_10 =>
    refine like_reply ?_ _ _
    exact (Session.sameBlock_finishPrepared _ _ _).symm.trans
      (hb.trans (Session.sameBlock_finishPrepared _ _ _))
  case h_11 => exact like_reply (hb.savepoint _) _ _
  case h_12 => exact like_reply (hb.releaseSavepoint _) _ _
  case h_13 => exact like_reply (hb.rollbackToSavepoint _) _ _
  case h_14 => exact like_startLockTable hb _
  case h_15 => exact like_runSelect hb _
  case h_16 copy =>
    have hview : (s.setSession pid b).view pid = s.view pid := by
      rw [view, view, sessions_set_self, ← hb.tx, db_setSession]
    rw [hview, show (s.setSession pid b).clock = s.clock from rfl]
    rcases w.copySource s.clock copy (s.view pid) with r | i | select
    · exact like_reply hb _ _
    · exact like_runData hb _
    · exact like_runSelect hb _
  case h_17 => exact like_runData hb _
  all_goals exact like_reply hb _ _

/-- A statement that has to wait only leaves its request. -/
theorem like_waiting (hn : Running.Like (s.sessions pid).running b.running) (locks : LockManager) :
    Like pid { s with locks := locks } { s.setSession pid b with locks := locks } :=
  ⟨⟨rfl, rfl, rfl, fun _ hq => (sessions_set_of_ne hq).symm⟩, rfl,
    by simpa using hb, by simpa using hn⟩

theorem like_lockNextTable (hn : Running.Like (s.sessions pid).running b.running)
    (tables : List String) (mode : LockMode) (nowait : Bool) :
    Like pid (s.lockNextTable pid tables mode nowait)
      ((s.setSession pid b).lockNextTable pid tables mode nowait) := by
  rcases tables with _ | ⟨t, rest⟩
  · simp only [lockNextTable, sessions_set_self]
    exact like_lockTables hb _ _ _
  · simp only [lockNextTable, sessions_set_self, locks_setSession, ← hb.cancel]
    generalize acquireLock s.locks pid (s.sessions pid).cancel (.table t) mode nowait = r
    rcases r with ⟨locks, _ | _ | e⟩
    · exact like_lockTables (s := { s with locks := locks }) hb _ _ _
    · exact like_waiting hb hn locks
    · exact like_reply (s := { s with locks := locks }) hb.markError _ _

theorem like_lockNextRow (hn : Running.Like (s.sessions pid).running b.running)
    (rl : RowLocking) :
    Like pid (s.lockNextRow w pid rl) ((s.setSession pid b).lockNextRow w pid rl) := by
  simp only [lockNextRow, sessions_set_self, locks_setSession, ← hb.cancel]
  rcases rl.rows with _ | ⟨row, rest⟩
  · exact like_lockRows hb _
  dsimp only
  split
  · split
    · exact like_lockRows hb _
    · exact like_lockRows (s := { s with locks := _ }) hb _
  · generalize acquireLock s.locks pid (s.sessions pid).cancel _ rl.mode _ = r
    rcases r with ⟨locks, _ | _ | e⟩
    · exact like_lockRows (s := { s with locks := locks }) hb _
    · exact like_waiting hb hn locks
    · exact like_reply (s := { s with locks := locks }) hb.markError _ _

theorem like_resume {n n' : Running} (hrun : (s.sessions pid).running = some n)
    (hrun' : b.running = some n') (hn : Running.Like (some n) (some n')) :
    Like pid (s.resume w pid n) ((s.setSession pid b).resume w pid n') := by
  have hrunning : Running.Like (s.sessions pid).running b.running := by rwa [hrun, hrun']
  cases hn with
  | appending sqls gid gid' =>
    simp only [resume, appendBuffered, sessions_set_self]
    refine like_pause (s := s.append w sqls) (Session.SameBlock.trans ?_ (hb.trans ?_))
      (.releasing _ _)
    all_goals exact ⟨rfl, rfl, rfl, rfl, rfl⟩
  | releasing r r' =>
    simp only [resume, finishBlock, sessions_set_self]
    refine like_reply (s := s.releaseLocks pid) ?_ _ _
    exact ⟨rfl, hb.tx, hb.cancel, hb.defaultIsolation, hb.defaultReadOnly⟩
  | lockingTables => exact like_lockNextTable hb hrunning _ _ _
  | lockingRows => exact like_lockNextRow hb hrunning _

end Start

theorem like_apply (hb : (s.sessions pid).SameBlock b)
    (hn : Running.Like (s.sessions pid).running b.running) {e : Event} (he : e.pid = pid) :
    Like pid (s.apply w e) ((s.setSession pid b).apply w e) := by
  have hself : Like pid s (s.setSession pid b) := like_waiting hb hn s.locks
  rcases e with ⟨q, stmt⟩ | q | ⟨q, flag⟩ | q | q | q
  all_goals
    obtain rfl : q = pid := he
    simp only [apply, sessions_set_self, hn.isNone_eq]
  case resume =>
    rcases hrun : (s.sessions q).running with _ | n
    all_goals
      rcases hrun' : b.running with _ | n'
      all_goals rw [hrun, hrun'] at hn
    · exact hself
    · cases hn
    · cases hn
    · exact like_resume hb hrun hrun' hn
  case setCancel =>
    rw [setSession_setSession]
    refine like_setSession ?_ hn
    exact ⟨hb.txStatus, hb.tx, rfl, hb.defaultIsolation, hb.defaultReadOnly⟩
  case idleTimeout =>
    rw [← hb.tx]
    split
    · exact setSession_setSession (s := s.releaseLocks q) ▸ like_setSession hb.close hn
    · exact hself
  all_goals split
  · exact like_start hb stmt
  · exact hself
  · rw [setSession_setSession]
    refine like_setSession hb.markError ?_
    rwa [Session.running_markError, Session.running_markError]
  · exact hself
  · exact setSession_setSession (s := s.releaseLocks q) ▸ Like.refl q _
  · exact hself

/-- **Servers that are alike stay alike**, whichever session moves. -/
theorem Like.step (h : Like pid s t) (e : Event) : Like pid (s.step w e) (t.step w e) := by
  obtain ⟨b, rfl⟩ : ∃ b, t = s.setSession pid b := ⟨_, h.eq_setSession⟩
  have hb : (s.sessions pid).SameBlock b := by simpa using h.block
  have hn : Running.Like (s.sessions pid).running b.running := by simpa using h.running
  by_cases hpid : e.pid = pid
  · have ⟨⟨hdb, hwal, hlocks, hsessions⟩, hclock, hblock, hrunning⟩ :=
      like_apply (w := w) hb hn hpid
    exact ⟨⟨hdb, hwal, hlocks, hsessions⟩, rfl, hblock, hrunning⟩
  · rw [step_setSession hpid]
    refine ⟨⟨rfl, rfl, rfl, fun _ hq => (sessions_set_of_ne hq).symm⟩, rfl, ?_, ?_⟩
    · rw [sessions_set_self, sessions_of_ne (Ne.symm hpid)]
      exact hb
    · rw [sessions_set_self, sessions_of_ne (Ne.symm hpid)]
      exact hn

theorem Like.run (h : Like pid s t) (es : List Event) :
    Like pid (Machine.run (Server.step w) s es) (Machine.run (Server.step w) t es) := by
  induction es generalizing s t with
  | nil => exact h
  | cons e es ih => exact ih (h.step e)

end Server

/-! ## Two phases in one -/

/-- `COMMIT PREPARED gid` and `ROLLBACK PREPARED gid`, with their command tags. -/
inductive Finishes (gid : String) : Statement → String → Prop
  | commit : Finishes gid (.commitPrepared gid) "COMMIT PREPARED"
  | rollback : Finishes gid (.rollbackPrepared gid) "ROLLBACK PREPARED"

/-- `PREPARE TRANSACTION gid` commits the block of the session `pid`, and what is left to
`COMMIT PREPARED` and `ROLLBACK PREPARED` is the identifier. -/
structure CommitsAtPrepare (w : Engine τ ρ) (s : Server τ ρ) (pid : Pid) (gid : String) : Prop where
  /-- Whatever comes next, the shared state, the log and the other sessions are what they are with
  `COMMIT` in the place of `PREPARE TRANSACTION`. -/
  commits : ∀ es, SameForOthers pid
    (Machine.run (Server.step w) s (.start pid (.prepareTransaction gid) :: es))
    (Machine.run (Server.step w) s (.start pid .commit :: es))
  /-- The section that logs the changes keeps the identifier. -/
  registers : ∀ sqls, (s.sessions pid).running = some (.appending sqls (some gid)) →
    ((s.step w (.resume pid)).sessions pid).preparedGids =
      insert gid (s.sessions pid).preparedGids
  /-- Whatever comes next, the shared state, the log and the other sessions are what they are
  without the `COMMIT PREPARED` or `ROLLBACK PREPARED`, but for the time it takes. -/
  finishes : ∀ stmt tag, Finishes gid stmt tag → ∀ es, SameForOthers pid
    (Machine.run (Server.step w) s (.start pid stmt :: es))
    (Machine.run (Server.step w) { s with clock := s.clock + 1 } es)
  /-- It succeeds if the identifier is kept, which it then forgets. -/
  validates : ∀ stmt tag, Finishes gid stmt tag → (s.sessions pid).running = none →
    (((s.step w (.start pid stmt)).sessions pid).result = some (.ok (.command tag)) ↔
      gid ∈ (s.sessions pid).preparedGids) ∧
    ((s.step w (.start pid stmt)).sessions pid).preparedGids =
      (s.sessions pid).preparedGids.erase gid

section

variable {w : Engine τ ρ} {s : Server τ ρ} {pid : Pid} {gid tag : String} {stmt : Statement}

theorem Session.finishPrepared_spec (sess : Session τ ρ) (gid tag : String) :
    ((sess.finishPrepared gid tag).2 = .ok (.command tag) ↔ gid ∈ sess.preparedGids) ∧
      (sess.finishPrepared gid tag).1.preparedGids = sess.preparedGids.erase gid := by
  by_cases h : gid ∈ sess.preparedGids
  · simp [finishPrepared, h]
  · simp [finishPrepared, h]

theorem Finishes.step_eq (h : Finishes gid stmt tag) (hrun : (s.sessions pid).running = none) :
    s.step w (.start pid stmt) =
      { s with clock := s.clock + 1 }.reply pid ((s.sessions pid).finishPrepared gid tag).1
        ((s.sessions pid).finishPrepared gid tag).2 := by
  simp only [Server.step, Server.apply, hrun]
  cases h <;> rfl

theorem Finishes.like_step (h : Finishes gid stmt tag) :
    Server.Like pid (s.step w (.start pid stmt)) { s with clock := s.clock + 1 } := by
  rcases hrun : (s.sessions pid).running with _ | n
  · rw [h.step_eq hrun]
    refine ⟨⟨rfl, rfl, rfl, fun _ hq => Server.sessions_set_of_ne hq⟩, rfl, ?_, ?_⟩
    · have hblock := ((s.sessions pid).sameBlock_finishPrepared gid tag).symm
      rw [Server.reply, Server.sessions_set_self]
      exact ⟨hblock.txStatus, hblock.tx, hblock.cancel, hblock.defaultIsolation,
        hblock.defaultReadOnly⟩
    · rw [Server.reply, Server.sessions_set_self]
      exact hrun ▸ .none
  · simp only [Server.step, Server.apply, hrun]
    exact .refl _ _

/-- The first step of `PREPARE TRANSACTION` and that of `COMMIT` lead to servers that are alike. -/
theorem like_step_prepare :
    Server.Like pid (s.step w (.start pid (.prepareTransaction gid)))
      (s.step w (.start pid .commit)) := by
  rcases hrun : (s.sessions pid).running with _ | n
  · obtain ⟨⟨hdb, hwal, hlocks, hsessions⟩, -, hblock, hrunning⟩ :=
      (Server.like_commit_prepare s pid gid).symm
    simp only [Server.step, Server.apply, hrun]
    exact ⟨⟨hdb, hwal, hlocks, hsessions⟩, rfl, hblock, hrunning⟩
  · simp only [Server.step, Server.apply, hrun]
    exact .refl _ _

end

end PostgresRs
