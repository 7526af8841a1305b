import PostgresRs.Server.Call
import PostgresRs.Server.LogOrder

/-!
# What an acknowledged statement has logged

`COMMIT`, `PREPARE TRANSACTION` and the statements in autocommit append their records to the log
after the change is already in the shared database, and an append that fails is only reported on the
server's console: the statement still succeeds.

`acknowledged_iff` says when a success means that every record is in the log, and a failed append an
error and an unchanged database: when no append fails.
-/

namespace PostgresRs

open Server Machine

variable {τ ρ : Type}

/-! ## The records of a statement -/

namespace Server

variable (w : Engine τ ρ) (s : Server τ ρ) (pid : Pid)

/-- The statements whose success is a promise: those that end a block by publishing it, and those
that the executor runs in autocommit. -/
def Promises (stmt : Statement) : Prop :=
  stmt = .commit ∨ (∃ gid, stmt = .prepareTransaction gid) ∨
    (s.sessions pid).tx = none ∧ stmt.isControl = false

/-- The texts that a statement that promises has to append; an empty one is no record. -/
def recordsOf (stmt : Statement) : List String :=
  let texts :=
    match (s.sessions pid).tx with
    | none => (s.executes w pid stmt).elim [] (s.autocommitLog w)
    | some tx => if tx.failed || (tx.publish s.db).isNone then [] else tx.buffered
  texts.filter fun sql => sql ≠ ""

/-- No append of the statement fails.  In autocommit they are made in the first step, at the end of
a block in the step after it. -/
def AppendsSucceed (stmt : Statement) (es : List Event) : Prop :=
  match (s.sessions pid).tx with
  | none => ∀ i < (s.recordsOf w pid stmt).length, w.appendOk s.clock i = true
  | some _ => ∀ before after, es = before ++ .resume pid :: after → .resume pid ∉ before →
      ∀ i < (s.recordsOf w pid stmt).length, w.appendOk (s.clock + 1 + before.length) i = true

end Server

/-- Some step of the statement has added exactly its records to the log. -/
def RecordsLogged (w : Engine τ ρ) (s : Server τ ρ) (pid : Pid) (stmt : Statement)
    (es : List Event) : Prop :=
  ∃ before e after, .start pid stmt :: es = before ++ e :: after ∧ e.pid = pid ∧
    ∃ log, (Machine.run (Server.step w) s before).wal = some log ∧
      ((Machine.run (Server.step w) s before).step w e).wal =
        some (log ++ s.recordsOf w pid stmt)

/-- A success means that every record is in the log; if an append fails, the client gets an error
and no step of the statement has changed the shared database. -/
structure Acknowledged (w : Engine τ ρ) (s : Server τ ρ) (pid : Pid) (stmt : Statement)
    (es : List Event) : Prop where
  logged : ∀ r, ((Machine.run (Server.step w) s (.start pid stmt :: es)).sessions pid).result =
    some (.ok r) → RecordsLogged w s pid stmt es
  failed : ¬s.AppendsSucceed w pid stmt es →
    (∃ m, ((Machine.run (Server.step w) s (.start pid stmt :: es)).sessions pid).result =
      some (.error m)) ∧
    Machine.Always (Server.step w) (fun t e => e.pid = pid → (t.step w e).db = t.db) s
      (.start pid stmt :: es)

variable {w : Engine τ ρ} {s : Server τ ρ} {pid : Pid} {stmt : Statement} {es : List Event}
  {log : List String}

/-! ## Appends -/

theorem wal_append_eq {sqls : List String} (hwal : s.wal = some log)
    (hok : ∀ i < (sqls.filter fun sql => sql ≠ "").length, w.appendOk s.clock i = true) :
    (s.append w sqls).wal = some (log ++ sqls.filter fun sql => sql ≠ "") := by
  rw [append, hwal, Option.map_some,
    appendAll_of_forall_lt 0 (by simpa using hok) log]

/-- A log that is configured stays. -/
theorem exists_wal_step {e : Event} (hwal : s.wal = some log) :
    ∃ log', (s.step w e).wal = some log' := by
  have hd := did w s e
  change ∃ log', (s.apply w e).wal = some log'
  generalize s.apply w e = s' at hd
  rcases hd with _ | ⟨stmt, sess⟩ | _ | _ | _ | _ | _ | _ | _
  case autocommit => exact ⟨_, wal_executeAutocommit hwal _⟩
  case append => exact ⟨_, wal_append hwal⟩
  all_goals exact ⟨log, hwal⟩

/-! ## Autocommit -/

theorem exists_of_autocommitLog (h : s.autocommitLog w stmt ≠ []) :
    ∃ r, (w.execute s.db.store stmt).2 = .ok r ∧ stmt.isMutation = true := by
  rw [autocommitLog] at h
  split at h
  · next r hr =>
    split at h
    · next hm => exact ⟨r, hr, hm⟩
    · exact absurd rfl h
  · exact absurd rfl h

section Autocommit

variable (htx : (s.sessions pid).tx = none)

include htx

/-- The first step of a statement in autocommit appends its record. -/
theorem wal_start_autocommit (hc : stmt.isControl = false) :
    (s.start w pid stmt).wal =
      (s.append w ((s.executes w pid stmt).elim [] (s.autocommitLog w))).wal := by
  have hbegin : ∀ isolation readOnly, stmt ≠ .begin isolation readOnly := by
    rintro isolation readOnly rfl
    cases hc
  obtain ⟨locks, sess, -, -, heq⟩ := sameOutside_start (w := w) htx hbegin
  rw [heq]
  rcases s.executes w pid stmt with _ | stmt'
  · rcases hwal : s.wal <;> simp [autocommitted, append, appendAll]
  · rw [autocommitted, executeAutocommit_eq]
    rfl

theorem result_runData (stmt : Statement) :
    ((s.runData w pid stmt).sessions pid).running = none ∧
      ((s.runData w pid stmt).sessions pid).result = some (w.execute s.db.store stmt).2 := by
  have hsnd : (s.runPlain w pid stmt).2.2 = (w.execute s.db.store stmt).2 := by
    simp only [runPlain, htx, executeAutocommit]
    rcases h : (w.execute s.db.store stmt).2 with e | r <;> simp only
  have hsess : (s.runData w pid stmt).sessions pid = { (s.runPlain w pid stmt).2.1 with
      running := none, result := some (s.runPlain w pid stmt).2.2 } := sessions_set_self
  exact ⟨congrArg Session.running hsess, (congrArg Session.result hsess).trans (hsnd ▸ rfl)⟩

/-- A statement in autocommit that has a record succeeds with its first step. -/
theorem result_start_autocommit (hc : stmt.isControl = false)
    (hlog : (s.executes w pid stmt).elim [] (s.autocommitLog w) ≠ []) :
    ((s.start w pid stmt).sessions pid).running = none ∧
      ∃ r, ((s.start w pid stmt).sessions pid).result = some (.ok r) := by
  have hdata : ∀ stmt, s.autocommitLog w stmt ≠ [] →
      ((s.runData w pid stmt).sessions pid).running = none ∧
        ∃ r, ((s.runData w pid stmt).sessions pid).result = some (.ok r) := by
    intro stmt hne
    obtain ⟨r, hr, -⟩ := exists_of_autocommitLog hne
    obtain ⟨hrun, hresult⟩ := result_runData htx (w := w) stmt
    exact ⟨hrun, r, hr ▸ hresult⟩
  have hquery : ∀ q, s.autocommitLog w (.select q) = [] := fun q =>
    by_contra fun hne =>
      absurd (exists_of_autocommitLog hne).choose_spec.2 (by simp [Statement.isMutation])
  rw [start.eq_def]
  split
  case h_15 q => exact absurd (hquery q) hlog
  case h_16 copy =>
    rw [executes] at hlog
    rcases hsource : w.copySource s.clock copy (s.view pid) with r | i | q
    · rw [hsource] at hlog
      exact absurd rfl hlog
    · rw [hsource] at hlog
      exact hdata _ hlog
    · rw [hsource] at hlog
      exact absurd (hquery q) hlog
  case h_17 =>
    have hexec : s.executes w pid stmt = some stmt := by
      rw [executes.eq_def]
      split <;> simp_all
    rw [hexec] at hlog
    exact hdata _ hlog
  all_goals exact absurd hc (by simp [Statement.isControl])

end Autocommit

/-! ## The end of a block -/

theorem step_resume {n : Running} (hrun : (s.sessions pid).running = some n) :
    s.step w (.resume pid) = { s.resume w pid n with clock := s.clock + 1 } := by
  simp only [step, apply, hrun]

/-- The last step of a statement that ends a block. -/
theorem result_of_releasing (hes : ∀ e ∈ es, e.During pid) {r : StmtResult}
    (hrun : (s.sessions pid).running = some (.releasing r))
    (hfin : ((Machine.run (Server.step w) s es).sessions pid).running = none) :
    ((Machine.run (Server.step w) s es).sessions pid).result = some r := by
  obtain ⟨before, after, rfl, -, flag, hat⟩ := exists_resume hes hrun hfin
  rw [run_append, run_cons, step_resume (by rw [hat]; exact hrun)]
  refine (result_run_during (fun e he => hes e (by simp [he])) ?_).trans ?_
  · exact congrArg Session.running sessions_set_self
  · exact congrArg Session.result sessions_set_self

/-- The steps of a statement that has published: its records are appended at the first `resume`, and
it succeeds. -/
theorem exists_append_of_appending (hes : ∀ e ∈ es, e.During pid) {buffered : List String}
    {gid : Option String} (hrun : (s.sessions pid).running = some (.appending buffered gid))
    (hfin : ((Machine.run (Server.step w) s es).sessions pid).running = none) :
    (∃ r, ((Machine.run (Server.step w) s es).sessions pid).result = some (.ok r)) ∧
      ∃ before after, es = before ++ .resume pid :: after ∧ .resume pid ∉ before ∧
        ((Machine.run (Server.step w) s before).step w (.resume pid)).wal =
          ((Machine.run (Server.step w) s before).append w buffered).wal := by
  obtain ⟨before, after, rfl, hnot, flag, hat⟩ := exists_resume hes hrun hfin
  rw [run_append, run_cons] at hfin ⊢
  have hstep := step_resume (w := w) (s := Machine.run (Server.step w) s before)
    (by rw [hat]; exact hrun)
  refine ⟨⟨.command (publishTag gid), ?_⟩, before, after, rfl, hnot, by rw [hstep]; rfl⟩
  refine result_of_releasing (fun e he => hes e (by simp [he])) ?_ hfin
  rw [hstep]
  exact congrArg Session.running sessions_set_self

/-! ## Acknowledgements -/

/-- What is to be shown of a statement: its records are in the log if no append fails, and it
succeeds if one does. -/
theorem acknowledged_iff_of
    (hlogged : s.AppendsSucceed w pid stmt es → RecordsLogged w s pid stmt es)
    (hresult : ¬s.AppendsSucceed w pid stmt es →
      ∃ r, ((Machine.run (Server.step w) s (.start pid stmt :: es)).sessions pid).result =
        some (.ok r)) :
    Acknowledged w s pid stmt es ↔ s.AppendsSucceed w pid stmt es := by
  refine ⟨fun hack => by_contra fun hfails => ?_, fun hok => ⟨fun _ _ => hlogged hok, absurd hok⟩⟩
  obtain ⟨r, hr⟩ := hresult hfails
  obtain ⟨⟨m, hm⟩, -⟩ := hack.failed hfails
  rw [hr] at hm
  cases hm

theorem appendsSucceed_of_recordsOf (h : s.recordsOf w pid stmt = []) :
    s.AppendsSucceed w pid stmt es := by
  rw [AppendsSucceed.eq_def]
  split <;> simp [h]

/-- A statement without records. -/
theorem acknowledged_iff_of_recordsOf (hwal : s.wal = some log)
    (hsame : (s.step w (.start pid stmt)).wal = s.wal) (hnone : s.recordsOf w pid stmt = []) :
    Acknowledged w s pid stmt es ↔ s.AppendsSucceed w pid stmt es := by
  refine acknowledged_iff_of (fun _ => ?_) fun hfails =>
    absurd (appendsSucceed_of_recordsOf hnone) hfails
  exact ⟨[], _, es, rfl, rfl, log, hwal, by
    rw [hnone, List.append_nil, ← hwal]
    exact hsame⟩

section

variable (h : Call w s pid stmt es) (hwal : s.wal = some log)
include h hwal

theorem acknowledged_iff_autocommit (htx : (s.sessions pid).tx = none)
    (hc : stmt.isControl = false) :
    Acknowledged w s pid stmt es ↔ s.AppendsSucceed w pid stmt es := by
  have hrecords : s.recordsOf w pid stmt =
      ((s.executes w pid stmt).elim [] (s.autocommitLog w)).filter fun sql => sql ≠ "" := by
    simp only [recordsOf, htx]
  refine acknowledged_iff_of (fun hok => ?_) fun hfails => ?_
  · refine ⟨[], _, es, rfl, rfl, log, hwal, ?_⟩
    simp only [AppendsSucceed, htx] at hok
    rw [hrecords] at hok ⊢
    rw [run_nil, h.step_start, ← wal_append_eq hwal hok]
    exact wal_start_autocommit htx hc
  · have hne : (s.executes w pid stmt).elim [] (s.autocommitLog w) ≠ [] := fun hnil =>
      hfails (appendsSucceed_of_recordsOf (by rw [hrecords, hnil]; rfl))
    obtain ⟨hrun, r, hr⟩ := result_start_autocommit htx hc hne
    refine ⟨r, ?_⟩
    rw [run_cons, h.step_start]
    refine (result_run_during h.during ?_).trans ?_
    · exact hrun
    · exact hr

theorem acknowledged_iff_publish {tx : Transaction τ ρ} {gid : Option String} {db : Database τ ρ}
    (htx : (s.sessions pid).tx = some tx) (hf : tx.failed = false)
    (hpub : tx.publish s.db = some db) (hstart : s.start w pid stmt = s.startPublish pid tx gid) :
    Acknowledged w s pid stmt es ↔ s.AppendsSucceed w pid stmt es := by
  have hrecords : s.recordsOf w pid stmt = tx.buffered.filter fun sql => sql ≠ "" := by
    simp [recordsOf, htx, hf, hpub]
  have hfirst := h.step_start
  rw [hstart, startPublish, hpub] at hfirst
  have hrun : ((s.step w (.start pid stmt)).sessions pid).running =
      some (.appending tx.buffered gid) := by
    rw [hfirst]
    exact congrArg Session.running sessions_set_self
  obtain ⟨hresult, before, after, hes, hnot, hstep⟩ :=
    exists_append_of_appending h.during hrun h.finished
  refine acknowledged_iff_of (fun hok => ?_) fun _ => hresult
  obtain ⟨log', hlog'⟩ := run_induction (I := fun t : Server τ ρ => ∃ log, t.wal = some log)
    (.start pid stmt :: before) ⟨log, hwal⟩ fun _ _ h => h.elim fun _ => exists_wal_step (w := w)
  refine ⟨.start pid stmt :: before, .resume pid, after, by rw [hes]; rfl, rfl, log', hlog', ?_⟩
  simp only [AppendsSucceed, htx] at hok
  have hok := hok before after hes hnot
  rw [hrecords] at hok ⊢
  rw [run_cons] at hlog' ⊢
  rw [hstep, wal_append_eq hlog' fun i hi => ?_]
  rw [← hok i hi, clock_run, clock_step]

/-- The end of a block by `COMMIT` or by `PREPARE TRANSACTION`. -/
theorem acknowledged_iff_block (hexec : s.executes w pid stmt = none) (gid : Option String)
    (hnone : (s.sessions pid).tx = none → (s.start w pid stmt).wal = s.wal)
    (hfailed : ∀ tx, (s.sessions pid).tx = some tx → tx.failed = true →
      (s.start w pid stmt).wal = s.wal)
    (hopen : ∀ tx, (s.sessions pid).tx = some tx → tx.failed = false →
      s.start w pid stmt = s.startPublish pid tx gid) :
    Acknowledged w s pid stmt es ↔ s.AppendsSucceed w pid stmt es := by
  rcases htx : (s.sessions pid).tx with _ | tx
  · refine acknowledged_iff_of_recordsOf hwal ?_ (by simp [recordsOf, htx, hexec])
    rw [h.step_start]
    exact hnone htx
  · rcases hf : tx.failed with _ | _
    · rcases hpub : tx.publish s.db with _ | db
      · refine acknowledged_iff_of_recordsOf hwal ?_ (by simp [recordsOf, htx, hpub])
        rw [h.step_start, hopen tx htx hf, startPublish, hpub]
        rfl
      · exact acknowledged_iff_publish h hwal htx hf hpub (hopen tx htx hf)
    · refine acknowledged_iff_of_recordsOf hwal ?_ (by simp [recordsOf, htx, hf])
      rw [h.step_start]
      exact hfailed tx htx hf

end

/-- **Acknowledged means logged** if and only if no append fails: a `COMMIT`, a
`PREPARE TRANSACTION` or a statement in autocommit succeeds all the same when one does. -/
theorem acknowledged_iff {log : List String} (h : Call w s pid stmt es) (hwal : s.wal = some log)
    (hp : s.Promises pid stmt) :
    Acknowledged w s pid stmt es ↔ s.AppendsSucceed w pid stmt es := by
  obtain rfl | ⟨gid, rfl⟩ | ⟨htx, hc⟩ := hp
  · have hstart : s.start w pid .commit = s.startCommit pid := rfl
    refine acknowledged_iff_block h hwal rfl none ?_ ?_ ?_
    · intro htx
      simp [hstart, startCommit, htx, reply]
    · intro tx htx hf
      simp [hstart, startCommit, htx, hf, reply, releaseLocks]
    · intro tx htx hf
      simp [hstart, startCommit, htx, hf]
  · have hstart : s.start w pid (.prepareTransaction gid) = s.startPrepare pid gid := rfl
    refine acknowledged_iff_block h hwal rfl (some gid) ?_ ?_ ?_
    · intro htx
      simp [hstart, startPrepare, htx, reply]
    · intro tx htx hf
      simp [hstart, startPrepare, htx, hf, reply, releaseLocks]
    · intro tx htx hf
      simp [hstart, startPrepare, htx, hf]
  · exact acknowledged_iff_autocommit h hwal htx hc

/-! ## A block with one change -/

/-- Session 1 has inserted a row in a block. -/
def openBlock : Server (List Int) Unit :=
  Machine.run (Server.step tinyEngine) (.init tinyDatabase (some []))
    [.start 1 (.begin none none), .start 1 (insertInto "t" [[.int 1]])]

/-- The commit of the block, when the log can be written. -/
theorem acknowledged_commit :
    Acknowledged tinyEngine openBlock 1 .commit [.resume 1, .resume 1] := by
  have hwal : openBlock.wal = some [] := rfl
  refine (acknowledged_iff ⟨rfl, by simp [Event.During], rfl⟩ hwal (.inl rfl)).mpr ?_
  intro before after _ _ i _
  rfl

/-- The engine whose log cannot be written. -/
def fullDisk : Engine (List Int) Unit := { tinyEngine with appendOk := fun _ _ => false }

/-- An `INSERT` in autocommit when the log cannot be written: the client gets a success, the row is
in the shared table, and the log is empty. -/
theorem not_acknowledged_fullDisk :
    (((Machine.run (Server.step fullDisk) (.init tinyDatabase (some []))
        [.start 1 (insertInto "t" [[.int 1]])]).sessions 1).result =
      some (.ok (.command "INSERT"))) ∧
    (Machine.run (Server.step fullDisk) (.init tinyDatabase (some []))
        [.start 1 (insertInto "t" [[.int 1]])]).db.store.tables "t" = some [1] ∧
    (Machine.run (Server.step fullDisk) (.init tinyDatabase (some []))
        [.start 1 (insertInto "t" [[.int 1]])]).wal = some [] ∧
    ¬Acknowledged fullDisk (.init tinyDatabase (some [])) 1 (insertInto "t" [[.int 1]]) [] := by
  refine ⟨rfl, rfl, rfl, fun hack => ?_⟩
  have hfails : ¬(Server.init tinyDatabase (some [])).AppendsSucceed fullDisk 1
      (insertInto "t" [[.int 1]]) [] := fun hok => absurd (hok 0 (by decide)) (by decide)
  obtain ⟨⟨m, hm⟩, -⟩ := hack.failed hfails
  cases hm

end PostgresRs
