import PostgresRs.Server.Steps

/-!
# Steps and the sessions of others

A step of one session neither looks at another session nor changes it: putting another state of that
session in before the step is the same as putting it in afterwards (`step_setSession`), and so it is
for any number of steps (`run_setSession`).
-/

namespace PostgresRs.Server

variable {τ ρ : Type} {w : Engine τ ρ} {s : Server τ ρ} {pid q : Pid} {other sess : Session τ ρ}

section

variable (hne : q ≠ pid)

include hne

theorem setSession_setSession_of_ne :
    (s.setSession pid other).setSession q sess = (s.setSession q sess).setSession pid other := by
  simp only [setSession, Function.update_comm hne]

theorem reply_setSession (r : StmtResult) :
    (s.setSession pid other).reply q sess r = (s.reply q sess r).setSession pid other :=
  setSession_setSession_of_ne hne

theorem pause_setSession (n : Running) :
    (s.setSession pid other).pause q sess n = (s.pause q sess n).setSession pid other :=
  setSession_setSession_of_ne hne

theorem lockRows_setSession (rl : RowLocking) :
    (s.setSession pid other).lockRows q sess rl = (s.lockRows q sess rl).setSession pid other := by
  rw [lockRows, lockRows]
  split
  · exact reply_setSession hne _
  · exact pause_setSession hne _

theorem lockTables_setSession (tables : List String) (mode : LockMode) (nowait : Bool) :
    (s.setSession pid other).lockTables q sess tables mode nowait =
      (s.lockTables q sess tables mode nowait).setSession pid other := by
  rcases tables with _ | ⟨t, rest⟩
  · exact reply_setSession hne _
  · exact pause_setSession hne _

theorem runPlain_setSession (stmt : Statement) :
    (s.setSession pid other).runPlain w q stmt =
      ((s.runPlain w q stmt).1.setSession pid other, (s.runPlain w q stmt).2) := by
  simp only [runPlain, sessions_set_of_ne hne]
  rcases (s.sessions q).tx with _ | tx
  · simp only [executeAutocommit, db_setSession]
    split
    · split <;> rfl
    · rfl
  · rfl

theorem runData_setSession (stmt : Statement) :
    (s.setSession pid other).runData w q stmt = (s.runData w q stmt).setSession pid other := by
  simp only [runData, runPlain_setSession hne]
  exact reply_setSession hne _

theorem runSelect_setSession (select : Select) :
    (s.setSession pid other).runSelect w q select =
      (s.runSelect w q select).setSession pid other := by
  rw [runSelect, runSelect]
  split
  · exact runData_setSession hne _
  simp only [startLocking, runPlain_setSession hne]
  generalize s.runPlain w q (.select select) = r
  obtain ⟨s', sess', r⟩ := r
  rcases select.lockTarget with _ | target
  · exact reply_setSession hne _
  rcases r with e | (⟨fields, rows, tag⟩ | tag | _)
  case ok.rows => exact lockRows_setSession hne _
  all_goals exact reply_setSession hne _

theorem startLockTable_setSession (lock : LockTable) :
    (s.setSession pid other).startLockTable q lock =
      (s.startLockTable q lock).setSession pid other := by
  simp only [startLockTable, sessions_set_of_ne hne]
  rcases (s.sessions q).tx with _ | tx
  · exact reply_setSession hne _
  dsimp only
  split
  · exact reply_setSession hne _
  rcases lock.tables.find? fun t => !tx.db.store.containsTable t with _ | t
  · rcases tableLockMode lock.mode with e | mode
    · exact reply_setSession hne _
    · exact lockTables_setSession hne _ _ _
  · exact reply_setSession hne _

theorem startPublish_setSession (tx : Transaction τ ρ) (gid : Option String) :
    (s.setSession pid other).startPublish q tx gid =
      (s.startPublish q tx gid).setSession pid other := by
  simp only [startPublish, sessions_set_of_ne hne, db_setSession]
  rcases tx.publish s.db with _ | db
  · exact pause_setSession hne _
  · exact pause_setSession (s := { s with db := db }) hne _

theorem startCommit_setSession :
    (s.setSession pid other).startCommit q = (s.startCommit q).setSession pid other := by
  simp only [startCommit, sessions_set_of_ne hne]
  rcases (s.sessions q).tx with _ | tx
  · exact reply_setSession hne _
  dsimp only
  split
  · exact reply_setSession (s := s.releaseLocks q) hne _
  · exact startPublish_setSession hne _ _

theorem startPrepare_setSession (gid : String) :
    (s.setSession pid other).startPrepare q gid = (s.startPrepare q gid).setSession pid other := by
  simp only [startPrepare, sessions_set_of_ne hne]
  rcases (s.sessions q).tx with _ | tx
  · exact reply_setSession hne _
  dsimp only
  split
  · exact reply_setSession (s := s.releaseLocks q) hne _
  · exact startPublish_setSession hne _ _

theorem view_setSession : (s.setSession pid other).view q = s.view q := by
  rw [view, view, sessions_set_of_ne hne, db_setSession]

theorem start_setSession (stmt : Statement) :
    (s.setSession pid other).start w q stmt = (s.start w q stmt).setSession pid other := by
  rw [start.eq_def, start.eq_def]
  simp only [sessions_set_of_ne hne]
  split
  case h_6 => exact startCommit_setSession hne
  case h_7 =>
    simp only [startRollback, sessions_set_of_ne hne]
    exact reply_setSession (s := s.releaseLocks q) hne _
  case h_8 => exact startPrepare_setSession hne _
  case h_14 => exact startLockTable_setSession hne _
  case h_15 => exact runSelect_setSession hne _
  case h_16 copy =>
    rw [view_setSession hne, show (s.setSession pid other).clock = s.clock from rfl]
    rcases w.copySource s.clock copy (s.view q) with r | i | select
    · exact reply_setSession hne _
    · exact runData_setSession hne _
    · exact runSelect_setSession hne _
  case h_17 => exact runData_setSession hne _
  all_goals exact reply_setSession hne _

theorem lockNextTable_setSession (tables : List String) (mode : LockMode) (nowait : Bool) :
    (s.setSession pid other).lockNextTable q tables mode nowait =
      (s.lockNextTable q tables mode nowait).setSession pid other := by
  rcases tables with _ | ⟨t, rest⟩
  · simp only [lockNextTable, sessions_set_of_ne hne]
    exact lockTables_setSession hne _ _ _
  · simp only [lockNextTable, sessions_set_of_ne hne, locks_setSession]
    generalize acquireLock s.locks q (s.sessions q).cancel (.table t) mode nowait = r
    rcases r with ⟨locks, _ | _ | e⟩
    · exact lockTables_setSession (s := { s with locks := locks }) hne _ _ _
    · rfl
    · exact reply_setSession (s := { s with locks := locks }) hne _

theorem lockNextRow_setSession (rl : RowLocking) :
    (s.setSession pid other).lockNextRow w q rl = (s.lockNextRow w q rl).setSession pid other := by
  simp only [lockNextRow, sessions_set_of_ne hne, locks_setSession]
  rcases rl.rows with _ | ⟨row, rest⟩
  · exact lockRows_setSession hne _
  dsimp only
  split
  · split
    · exact lockRows_setSession hne _
    · exact lockRows_setSession (s := { s with locks := _ }) hne _
  · generalize acquireLock s.locks q (s.sessions q).cancel _ rl.mode _ = r
    rcases r with ⟨locks, _ | _ | e⟩
    · exact lockRows_setSession (s := { s with locks := locks }) hne _
    · rfl
    · exact reply_setSession (s := { s with locks := locks }) hne _

theorem resume_setSession (n : Running) :
    (s.setSession pid other).resume w q n = (s.resume w q n).setSession pid other := by
  rcases n with ⟨buffered, gid⟩ | r | ⟨tables, mode, nowait⟩ | rl
  · simp only [resume, appendBuffered, sessions_set_of_ne hne]
    exact pause_setSession (s := s.append w buffered) hne _
  · simp only [resume, finishBlock, sessions_set_of_ne hne]
    exact reply_setSession (s := s.releaseLocks q) hne _
  · exact lockNextTable_setSession hne _ _ _
  · exact lockNextRow_setSession hne _

end

/-- **A step of another session** neither looks at this one nor changes it. -/
theorem step_setSession {e : Event} (hne : e.pid ≠ pid) :
    (s.setSession pid other).step w e = (s.step w e).setSession pid other := by
  have happly : (s.setSession pid other).apply w e = (s.apply w e).setSession pid other := by
    rcases e with ⟨q, stmt⟩ | q | ⟨q, flag⟩ | q | q | q
    all_goals
      change q ≠ pid at hne
      simp only [apply, sessions_set_of_ne hne]
    · split
      · exact start_setSession hne _
      · rfl
    · rcases (s.sessions q).running with _ | n
      · rfl
      · exact resume_setSession hne _
    · exact setSession_setSession_of_ne hne
    · split
      · exact setSession_setSession_of_ne hne
      · rfl
    · split
      · exact setSession_setSession_of_ne (s := s.releaseLocks q) hne
      · rfl
    · split
      · exact setSession_setSession_of_ne (s := s.releaseLocks q) hne
      · rfl
  rw [step, happly]
  rfl

end PostgresRs.Server
