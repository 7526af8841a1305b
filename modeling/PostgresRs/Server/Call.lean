import PostgresRs.Server.Steps

/-!
# One statement of a session among the steps of others

A call of `run_statement` takes its first step with the event `start` and the others with `resume`.
In between other sessions take steps of their own, which leave this one alone, and the cancellation
flag may be set at any moment.  `Call` is such a stretch of a run, from the first step of the
statement to its last.
-/

namespace PostgresRs

variable {τ ρ : Type}

/-- The events while a statement of `pid` runs. -/
def Event.During (pid : Pid) (e : Event) : Prop :=
  e.pid ≠ pid ∨ e = .resume pid ∨ ∃ flag, e = .setCancel pid flag

/-- The session `pid` runs `stmt`, which is over after the events `es`. -/
structure Call (w : Engine τ ρ) (s : Server τ ρ) (pid : Pid) (stmt : Statement)
    (es : List Event) : Prop where
  idle : (s.sessions pid).running = none
  during : ∀ e ∈ es, e.During pid
  finished : ((Machine.run (Server.step w) s (.start pid stmt :: es)).sessions pid).running = none

variable {w : Engine τ ρ} {s : Server τ ρ} {pid : Pid} {e : Event} {es : List Event}

theorem Call.step_start {stmt : Statement} (h : Call w s pid stmt es) :
    s.step w (.start pid stmt) = { s.start w pid stmt with clock := s.clock + 1 } := by
  simp [Server.step, Server.apply, h.idle]

/-- A step that the statement does not take itself can only change the cancellation flag of its
session. -/
theorem Event.During.sessions_step (he : e.During pid) (hne : e ≠ .resume pid) :
    ∃ flag, (s.step w e).sessions pid = { s.sessions pid with cancel := flag } := by
  rcases he with hpid | rfl | ⟨flag, rfl⟩
  · exact ⟨(s.sessions pid).cancel, sessions_of_ne hpid.symm⟩
  · exact absurd rfl hne
  · exact ⟨flag, Server.sessions_set_self⟩

/-- Once the statement is over its result stays. -/
theorem Event.During.result_step (he : e.During pid) (hrun : (s.sessions pid).running = none) :
    ((s.step w e).sessions pid).running = none ∧
      ((s.step w e).sessions pid).result = (s.sessions pid).result := by
  by_cases hres : e = .resume pid
  · subst hres
    rw [Server.step, Server.apply]
    split
    · next n hn =>
      rw [hrun] at hn
      cases hn
    · exact ⟨hrun, rfl⟩
  · obtain ⟨flag, hsess⟩ := he.sessions_step (w := w) (s := s) hres
    rw [hsess]
    exact ⟨hrun, rfl⟩

theorem result_run_during (hes : ∀ e ∈ es, e.During pid)
    (hrun : (s.sessions pid).running = none) :
    ((Machine.run (Server.step w) s es).sessions pid).result = (s.sessions pid).result := by
  induction es generalizing s with
  | nil => rfl
  | cons e es ih =>
    obtain ⟨hrun', hresult⟩ := (hes e (.head _)).result_step (w := w) hrun
    rw [Machine.run_cons, ih (fun e' he' => hes e' (.tail _ he')) hrun', hresult]

/-- A statement with a step left takes it at the first `resume`. -/
theorem exists_resume (hes : ∀ e ∈ es, e.During pid) {n : Running}
    (hrun : (s.sessions pid).running = some n)
    (hfin : ((Machine.run (Server.step w) s es).sessions pid).running = none) :
    ∃ before after, es = before ++ .resume pid :: after ∧ .resume pid ∉ before ∧
      ∃ flag, (Machine.run (Server.step w) s before).sessions pid =
        { s.sessions pid with cancel := flag } := by
  induction es generalizing s with
  | nil =>
    rw [Machine.run_nil, hrun] at hfin
    cases hfin
  | cons e es ih =>
    by_cases hres : e = .resume pid
    · subst hres
      exact ⟨[], es, rfl, List.not_mem_nil, (s.sessions pid).cancel, rfl⟩
    · obtain ⟨flag, hsess⟩ := (hes e (.head _)).sessions_step (w := w) (s := s) hres
      obtain ⟨before, after, rfl, hnot, flag', hat⟩ :=
        ih (s := s.step w e) (fun e' he' => hes e' (.tail _ he')) (by rw [hsess]; exact hrun) hfin
      refine ⟨e :: before, after, rfl, ?_, flag', ?_⟩
      · rw [List.mem_cons, not_or]
        exact ⟨Ne.symm hres, hnot⟩
      · rw [Machine.run_cons, hat, hsess]

theorem clock_run : (Machine.run (Server.step w) s es).clock = s.clock + es.length := by
  induction es generalizing s with
  | nil => rfl
  | cons e es ih =>
    rw [Machine.run_cons, ih, Server.clock_step, List.length_cons]
    omega

/-! ## Outside a block -/

namespace Server

/-- The statement that the executor runs when `stmt` is started outside a block, if any. -/
def executes (w : Engine τ ρ) (s : Server τ ρ) (pid : Pid) (stmt : Statement) : Option Statement :=
  match stmt with
  | .copy copy =>
    match w.copySource s.clock copy (s.view pid) with
    | .done _ => none
    | .insert i => some (.insert i)
    | .select select => some (.select select)
  | stmt => if stmt.isControl then none else some stmt

/-- The shared state after `execute_autocommit`, if the executor runs at all. -/
def autocommitted (w : Engine τ ρ) (s : Server τ ρ) : Option Statement → Server τ ρ
  | none => s
  | some stmt => (s.executeAutocommit w stmt).1

/-- `s'` is `s` but for the locks and the session `pid`, which has no block and no step of its end
left. -/
def SameOutside (s : Server τ ρ) (pid : Pid) (s' : Server τ ρ) : Prop :=
  ∃ locks sess, sess.tx = none ∧ sess.ending = false ∧
    s' = { s with locks := locks }.setSession pid sess

variable {stmt : Statement} {sess : Session τ ρ}

theorem sameOutside_reply {r : StmtResult} (htx : sess.tx = none) :
    s.SameOutside pid (s.reply pid sess r) :=
  ⟨s.locks, { sess with running := none, result := some r }, htx, rfl, rfl⟩

theorem sameOutside_lockRows {rl : RowLocking} (htx : sess.tx = none) :
    s.SameOutside pid (s.lockRows pid sess rl) := by
  rw [lockRows]
  split
  · exact sameOutside_reply htx
  · exact ⟨s.locks, { sess with running := some (.lockingRows rl) }, htx, rfl, rfl⟩

section NoBlock

variable (htx : (s.sessions pid).tx = none)

include htx

theorem sameOutside_runData (stmt : Statement) :
    (s.autocommitted w (some stmt)).SameOutside pid (s.runData w pid stmt) := by
  simp only [runData, runPlain, htx]
  exact sameOutside_reply htx

theorem sameOutside_runSelect (select : Select) :
    (s.autocommitted w (some (.select select))).SameOutside pid (s.runSelect w pid select) := by
  rw [runSelect]
  split
  · exact sameOutside_runData htx _
  · simp only [startLocking, runPlain, htx]
    split
    · exact sameOutside_lockRows htx
    · exact sameOutside_reply htx

/-- **Outside a block** a statement other than `BEGIN` runs the executor on the shared database, or
does nothing to it. -/
theorem sameOutside_start (hbegin : ∀ isolation readOnly, stmt ≠ .begin isolation readOnly) :
    (s.autocommitted w (s.executes w pid stmt)).SameOutside pid (s.start w pid stmt) := by
  rw [start.eq_def]
  dsimp only
  split
  case h_1 isolation readOnly => exact absurd rfl (hbegin isolation readOnly)
  case h_2 isolation readOnly isSession =>
    refine sameOutside_reply ?_
    rcases isSession with _ | _ <;> simp [Session.setTransaction, htx]
  case h_6 =>
    simp only [startCommit, htx]
    exact sameOutside_reply rfl
  case h_7 => exact ⟨s.locks.releaseAll pid, _, rfl, rfl, rfl⟩
  case h_8 =>
    simp only [startPrepare, htx]
    exact sameOutside_reply htx
  case h_9 =>
    rw [Session.finishPrepared]
    split <;> exact sameOutside_reply htx
  case h_10 =>
    rw [Session.finishPrepared]
    split <;> exact sameOutside_reply htx
  case h_11 =>
    simp only [Session.savepoint, htx]
    exact sameOutside_reply htx
  case h_12 =>
    simp only [Session.releaseSavepoint, htx]
    exact sameOutside_reply htx
  case h_13 =>
    simp only [Session.rollbackToSavepoint, htx]
    exact sameOutside_reply htx
  case h_14 =>
    simp only [startLockTable, htx]
    exact sameOutside_reply htx
  case h_15 => exact sameOutside_runSelect htx _
  case h_16 copy =>
    rw [executes]
    rcases w.copySource s.clock copy (s.view pid) with r | i | q
    · exact sameOutside_reply htx
    · exact sameOutside_runData htx _
    · exact sameOutside_runSelect htx _
  case h_17 =>
    have hexec : s.executes w pid stmt = some stmt := by
      rw [executes.eq_def]
      split
      · simp_all
      · rw [Statement.isControl.eq_def]
        split <;> simp_all
    rw [hexec]
    exact sameOutside_runData htx stmt
  all_goals exact sameOutside_reply htx

end NoBlock

end Server

end PostgresRs
