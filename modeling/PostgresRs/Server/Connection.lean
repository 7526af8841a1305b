import PostgresRs.Server.Parameter
import PostgresRs.Server.Timeout

/-!
# The connection of a session

The message loop of `server/src/server.rs` for one session: the messages of the simple and of the
extended protocol, the statements they run one after the other, and what is sent back.  The steps of
`PostgresRs.Server.Machine` are the steps of the statements; those of other sessions come in
between.

* `Connection.step` — one step: a message arrives, the next statement of the message is started, a
  statement is finished, or the server takes a step.
* `Sent` — the part of what is sent that matters here: errors, `ReadyForQuery`, and successes.
* `Aborted` — the block of the session has failed and the client was told so.
* `errors_abort_block` — an error inside a block aborts it, in every run in which the errors that
  the handlers do not record, and the statements that a failed block lets through, do not occur.
-/

namespace PostgresRs

open Server

variable {τ ρ : Type}

/-! ## Messages -/

/-- The messages of a client.  What is described, closed or bound is a prepared statement or a
portal. -/
inductive FrontendMessage where
  | query (sql : String)
  | parse (name query : String) (paramTypes : List Int)
  | bind (portal statement : String) (params : List (Option (List UInt8))) (paramFormats : List Int)
  | describe (isStatement : Bool) (name : String)
  | execute (portal : String)
  | close (isStatement : Bool) (name : String)
  | sync
  | flush
  | password
  | copyData
  | copyDone
  | copyFail
  | terminate
  | unknown (tag : Char)

/-- What is sent back, as far as it matters to the state of the block: an `ErrorResponse` with
whether a block was open, a `ReadyForQuery` with the status, and that a statement was executed. -/
inductive Sent where
  | error (inBlock : Bool)
  | ready (status : TxStatus)
  | executed (stmt : Statement)

/-- A statement prepared by `Parse`. -/
structure Prepared where
  statements : List Statement
  paramOids : List Int

/-- The message that is being handled: the statement that runs, and those behind it. -/
structure Batch where
  simple : Bool
  current : Option Statement
  rest : List Statement

/-- A session with its connection. -/
structure Connection (τ ρ : Type) where
  server : Server τ ρ
  prepared : String → Option Prepared := fun _ => none
  portals : String → Option (List Statement) := fun _ => none
  skipUntilSync : Bool := false
  closed : Bool := false
  batch : Option Batch := none
  sent : List Sent := []

inductive ConnectionEvent where
  /-- A step of the server: of another session, of the running statement, or of the cancellation
  flag. -/
  | server (e : Event)
  | message (m : FrontendMessage)
  /-- A message that comes after the idle-in-transaction timeout. -/
  | late (m : FrontendMessage)
  /-- The next statement of the message.  For `COPY` with the client `source` is what it sends. -/
  | next (source : CopySource)
  /-- The running statement is over; `fired` says that its timeout has passed. -/
  | finish (fired : Bool)

namespace Statement

def isEmpty : Statement → Bool
  | empty => true
  | _ => false

/-- `COPY ... FROM STDIN | TO STDOUT`. -/
def isCopyStream : Statement → Bool
  | copy c =>
    match c.target with
    | .stdin | .stdout => true
    | .file _ => false
  | _ => false

/-- `COPY ... TO`. -/
def isCopyTo : Statement → Bool
  | copy c => c.direction = .to
  | _ => false

end Statement

namespace FrontendMessage

def isSync : FrontendMessage → Bool
  | sync => true
  | _ => false

def isTerminate : FrontendMessage → Bool
  | terminate => true
  | _ => false

end FrontendMessage

/-! ## Handlers -/

namespace Connection

variable (w : Engine τ ρ) (parseSql : String → Except String (List Statement)) (pid : Pid)
  (c : Connection τ ρ)

def session : Session τ ρ := c.server.sessions pid

def send (x : Sent) : Connection τ ρ := { c with sent := c.sent ++ [x] }

def sendError : Connection τ ρ := c.send (.error (c.session pid).tx.isSome)

def sendReady : Connection τ ρ := c.send (.ready (c.session pid).txStatus)

/-- `mark_error`. -/
def markError : Connection τ ρ := { c with server := c.server.step w (.markError pid) }

/-- An error that is sent and not recorded; everything up to the next `Sync` is skipped. -/
def refuse : Connection τ ρ := { c.sendError pid with skipUntilSync := true }

/-- The end of a message on an error of one of its statements. -/
def abortBatch (simple : Bool) : Connection τ ρ :=
  let c := { (c.sendError pid).markError w pid with batch := none }
  if simple then c.sendReady pid else { c with skipUntilSync := true }

/-- `handle_simple_query`, up to the first statement. -/
def handleSimpleQuery (sql : String) : Connection τ ρ :=
  match parseSql sql with
  | .error _ => ((c.sendError pid).markError w pid).sendReady pid
  | .ok statements =>
    if statements.all Statement.isEmpty then c.sendReady pid
    else { c with batch := some ⟨true, none, statements⟩ }

def handleParse (name query : String) (paramOids : List Int) : Connection τ ρ :=
  match parseSql query with
  | .ok statements =>
    { c with prepared := Function.update c.prepared name (some ⟨statements, paramOids⟩) }
  | .error _ => c.refuse pid

def handleBind (portal statement : String) (params : List (Option (List UInt8)))
    (paramFormats : List Int) : Connection τ ρ :=
  match c.prepared statement with
  | none => c.refuse pid
  | some prepared =>
    match BindMessage.bindStatements ⟨params, paramFormats, prepared.paramOids⟩
        prepared.statements with
    | .error _ => c.refuse pid
    | .ok statements => { c with portals := Function.update c.portals portal (some statements) }

/-- An error of the description itself is answered by `NoData`. -/
def handleDescribe (isStatement : Bool) (name : String) : Connection τ ρ :=
  if (if isStatement then (c.prepared name).isSome else (c.portals name).isSome) then c
  else c.refuse pid

/-- `handle_execute`, up to the first statement. -/
def handleExecute (portal : String) : Connection τ ρ :=
  match c.portals portal with
  | none => c.refuse pid
  | some statements => { c with batch := some ⟨false, none, statements⟩ }

def handleClose (isStatement : Bool) (name : String) : Connection τ ρ :=
  if isStatement then { c with prepared := Function.update c.prepared name none }
  else { c with portals := Function.update c.portals name none }

def handle : FrontendMessage → Connection τ ρ
  | .query sql => c.handleSimpleQuery w parseSql pid sql
  | .parse name query paramTypes => c.handleParse parseSql pid name query paramTypes
  | .bind portal statement params paramFormats =>
    c.handleBind pid portal statement params paramFormats
  | .describe isStatement name => c.handleDescribe pid isStatement name
  | .execute portal => c.handleExecute pid portal
  | .close isStatement name => c.handleClose isStatement name
  | .sync => { c with skipUntilSync := false }.sendReady pid
  | .flush | .password | .copyData | .copyDone => c
  | .copyFail | .unknown _ => c.refuse pid
  | .terminate => { c with server := c.server.step w (.disconnect pid), closed := true }

/-- The idle-in-transaction timeout: the block is over, and the message is dropped. -/
def abortIdle : Connection τ ρ :=
  ({ c with server := c.server.step w (.idleTimeout pid) }.sendError pid).sendReady pid

/-- Start `stmt` as the statement `shown` of the message. -/
def start (b : Batch) (shown stmt : Statement) (rest : List Statement) : Connection τ ρ :=
  { c with
    server := c.server.step w (.start pid stmt)
    batch := some { b with current := some shown, rest := rest } }

/-- The next statement of the message; a pending cancellation comes first. -/
def next (b : Batch) (source : CopySource) : Connection τ ρ :=
  match b.rest with
  | [] =>
    let c := { c with batch := none }
    if b.simple then c.sendReady pid else c
  | stmt :: rest =>
    if stmt.isEmpty then { c with batch := some { b with rest := rest } }
    else if (c.session pid).cancel then
      { c with server := c.server.step w (.setCancel pid false) }.abortBatch w pid b.simple
    else if b.simple && stmt.isCopyStream then
      match source with
      | .done (.error _) => c.abortBatch w pid b.simple
      | .done (.ok _) => { c with batch := some { b with rest := rest } }.send (.executed stmt)
      | .insert i => c.start w pid b stmt (.insert i) rest
      | .select select => c.start w pid b stmt (.select select) rest
    else c.start w pid b stmt stmt rest

/-- Whether the result of the running statement is a success of `shown`: the query of a `COPY` to
the client has to return rows. -/
def succeeds (shown : Statement) : Option StmtResult → Bool
  | some (.ok (.rows _ _ _)) => true
  | some (.ok _) => !(shown.isCopyStream && shown.isCopyTo)
  | some (.error _) | none => false

/-- The end of the running statement `shown`.  A `COPY` with the client has no timeout. -/
def finish (b : Batch) (shown : Statement) (fired : Bool) : Connection τ ρ :=
  let fired := fired && !(b.simple && shown.isCopyStream)
  let ok := succeeds shown (c.session pid).result
  let c := if ok then c.send (.executed shown) else c
  let c := { c with server := c.server.finishTimed pid fired }
  if ok && !fired then { c with batch := some { b with current := none } }
  else c.abortBatch w pid b.simple

/-- The steps of the server that may come in between. -/
def mayStep : Event → Bool
  | .resume _ | .setCancel _ _ => true
  | e => e.pid != pid

/-- One step of the connection; an event that does not apply does nothing. -/
def step : ConnectionEvent → Connection τ ρ
  | .server e => if mayStep pid e then { c with server := c.server.step w e } else c
  | .message m =>
    if c.closed || c.batch.isSome || (c.skipUntilSync && !m.isSync) then c
    else c.handle w parseSql pid m
  | .late m =>
    if c.closed || c.batch.isSome || m.isTerminate || (c.session pid).tx.isNone then c
    else c.abortIdle w pid
  | .next source =>
    match c.batch with
    | some b => if c.closed || b.current.isSome then c else c.next w pid b source
    | none => c
  | .finish fired =>
    match c.batch with
    | some b =>
      match b.current with
      | some shown =>
        if c.closed || (c.session pid).running.isSome then c else c.finish w pid b shown fired
      | none => c
    | none => c

end Connection

/-! ## Aborted blocks -/

/-- The statements that end an aborted block or go back to a part of it that had not failed. -/
def Statement.endsAbort : Statement → Bool
  | commit | rollback | rollbackToSavepoint _ => true
  | _ => false

/-- The block of the session has failed, and its status says so. -/
def Session.Aborted (sess : Session τ ρ) : Prop :=
  sess.txStatus = .failed ∧ ∃ tx, sess.tx = some tx ∧ tx.failed = true

namespace Sent

/-- Whether an error was sent inside a block, and no statement has ended that since. -/
def after (aborted : Bool) : Sent → Bool
  | error inBlock => aborted || inBlock
  | ready _ => aborted
  | executed stmt => aborted && !stmt.endsAbort

/-- After an error inside a block every `ReadyForQuery` has the status `E`, and only the statements
that end an aborted block are executed. -/
def Obeys (aborted : Bool) (x : Sent) : Prop :=
  aborted = true →
    match x with
    | error _ => True
    | ready status => status = .failed
    | executed stmt => stmt.endsAbort = true

end Sent

/-- An error was sent inside a block that goes on. -/
def abortedBy (sent : List Sent) : Bool := Machine.run Sent.after false sent

/-- **Errors abort the block**, in all that was sent. -/
def ErrorsAbort (sent : List Sent) : Prop := Machine.Always Sent.after Sent.Obeys false sent

theorem abortedBy_concat (sent : List Sent) (x : Sent) :
    abortedBy (sent ++ [x]) = x.after (abortedBy sent) := by
  rw [abortedBy, Machine.run_append]
  rfl

theorem errorsAbort_concat {sent : List Sent} {x : Sent} :
    ErrorsAbort (sent ++ [x]) ↔ ErrorsAbort sent ∧ x.Obeys (abortedBy sent) := by
  rw [ErrorsAbort, Machine.always_append, Machine.always_cons, and_iff_left Machine.always_nil]
  rfl

/-- What was sent agrees with the state of the session. -/
structure Told (sess : Session τ ρ) (sent : List Sent) : Prop where
  obeys : ErrorsAbort sent
  aborted : abortedBy sent = true → sess.Aborted

namespace Told

variable {sess : Session τ ρ} {sent : List Sent}

theorem concat {x : Sent} (hobeys : ErrorsAbort sent) (hx : x.Obeys (abortedBy sent))
    (haborted : x.after (abortedBy sent) = true → sess.Aborted) : Told sess (sent ++ [x]) :=
  ⟨errorsAbort_concat.mpr ⟨hobeys, hx⟩, abortedBy_concat sent x ▸ haborted⟩

theorem ready (h : Told sess sent) : Told sess (sent ++ [.ready sess.txStatus]) :=
  .concat h.obeys (fun ha => (h.aborted ha).1) h.aborted

/-- An error that is sent and recorded. -/
theorem markError (hobeys : ErrorsAbort sent) (h : abortedBy sent = true → sess.tx.isSome = true) :
    Told sess.markError (sent ++ [.error sess.tx.isSome]) := by
  refine .concat hobeys (fun _ => trivial) fun ha => ?_
  obtain ⟨tx, htx⟩ := Option.isSome_iff_exists.mp ((Bool.or_eq_true_iff.mp ha).elim h id)
  rw [Session.markError, htx]
  exact ⟨rfl, tx.fail, rfl, rfl⟩

/-- An error that is sent and not recorded needs a block that has failed already. -/
theorem refuse (h : Told sess sent) (hopen : sess.tx.isSome = true → sess.Aborted) :
    Told sess (sent ++ [.error sess.tx.isSome]) :=
  .concat h.obeys (fun _ => trivial) fun ha => (Bool.or_eq_true_iff.mp ha).elim h.aborted hopen

/-- Outside an aborted block every statement may be executed. -/
theorem executed (h : Told sess sent) (hnot : abortedBy sent ≠ true) (stmt : Statement) :
    Told sess (sent ++ [.executed stmt]) :=
  .concat h.obeys (fun ha => absurd ha hnot) fun ha => absurd (Bool.and_eq_true_iff.mp ha).1 hnot

end Told

theorem Session.Aborted.isSome {sess : Session τ ρ} (h : sess.Aborted) : sess.tx.isSome = true := by
  obtain ⟨-, tx, htx, -⟩ := h
  rw [htx]
  rfl

/-! ## Statements in an aborted block -/

/-- A failed block lets the statement through: it is executed, or it ends the block with an error.
-/
def Server.Tolerates (w : Engine τ ρ) (s : Server τ ρ) (pid : Pid) (stmt : Statement) : Prop :=
  match stmt with
  | .begin _ _ | .setTransaction _ _ _ | .listen _ | .unlisten _ | .notify _ _ | .savepoint _
  | .prepareTransaction _ => True
  | .commitPrepared gid | .rollbackPrepared gid => gid ∈ (s.sessions pid).preparedGids
  | .releaseSavepoint name => ∃ tx ∈ (s.sessions pid).tx, tx.releaseSavepoint name ≠ none
  | .copy copy => ∃ r, w.copySource s.clock copy (s.view pid) = .done (.ok r)
  | _ => False

/-- What is left of a statement that was started in an aborted block: an error, or the success of a
statement that ends the abort. -/
structure Answered (stmt : Statement) (sess : Session τ ρ) : Prop where
  idle : sess.running = none
  answer : (sess.Aborted ∧ ∃ m, sess.result = some (.error m)) ∨
    stmt.endsAbort = true ∧ ∃ r, sess.result = some (.ok r)

section Start

variable {w : Engine τ ρ} {s : Server τ ρ} {pid : Pid} {stmt : Statement}

theorem Answered.reply_error {sess : Session τ ρ} (h : sess.Aborted) (s' : Server τ ρ)
    (m : String) :
    Answered stmt ((s'.reply pid sess (.error m)).sessions pid) := by
  rw [Server.reply, sessions_set_self]
  exact ⟨rfl, .inl ⟨h, m, rfl⟩⟩

theorem Answered.reply_ok {sess : Session τ ρ} (h : stmt.endsAbort = true) (s' : Server τ ρ)
    (r : ExecResult) : Answered stmt ((s'.reply pid sess (.ok r)).sessions pid) := by
  rw [Server.reply, sessions_set_self]
  exact ⟨rfl, .inr ⟨h, r, rfl⟩⟩

variable (h : (s.sessions pid).Aborted)
include h

/-- The executor is not asked in an aborted block. -/
theorem runPlain_of_aborted (stmt : Statement) :
    s.runPlain w pid stmt = (s, s.sessions pid, .error abortedMessage) := by
  obtain ⟨hstatus, tx, htx, hf⟩ := h
  have hsess : ∀ sess : Session τ ρ, sess.tx = some tx →
      { sess with tx := some tx, txStatus := sess.txStatus } = sess := by
    rintro ⟨⟩ h
    cases h
    rfl
  rw [Server.runPlain, htx]
  simp [Session.runInBlock, Transaction.run, hf, hsess _ htx]

theorem answered_runData (stmt' : Statement) :
    Answered stmt ((s.runData w pid stmt').sessions pid) := by
  rw [Server.runData, runPlain_of_aborted h]
  exact .reply_error h s _

theorem answered_runSelect (select : Select) :
    Answered stmt ((s.runSelect w pid select).sessions pid) := by
  rw [Server.runSelect]
  split
  · exact answered_runData h _
  · rw [Server.startLocking, runPlain_of_aborted h]
    dsimp only
    split
    · next heq => cases heq
    · exact .reply_error h s _

/-- **A statement in an aborted block** fails, unless it ends the abort or the block lets it
through. -/
theorem answered_start (hnot : ¬ s.Tolerates w pid stmt) :
    Answered stmt ((s.start w pid stmt).sessions pid) := by
  obtain ⟨hstatus, tx, htx, hf⟩ := id h
  unfold Server.start
  split
  case h_1 | h_2 | h_3 | h_4 | h_5 => exact absurd trivial hnot
  case h_6 =>
    rw [Server.startCommit, htx]
    simp only [hf]
    exact .reply_ok rfl _ _
  case h_7 => exact .reply_ok rfl _ _
  case h_8 => exact absurd trivial hnot
  case h_9 gid | h_10 gid =>
    have hgid : gid ∉ (s.sessions pid).preparedGids := hnot
    dsimp only
    rw [Session.finishPrepared, if_neg hgid]
    exact .reply_error h s _
  case h_11 => exact absurd trivial hnot
  case h_12 name =>
    have hnone : tx.releaseSavepoint name = none := by
      by_contra hne
      exact hnot ⟨tx, htx, hne⟩
    dsimp only
    rw [Session.releaseSavepoint, htx]
    simp only [hnone]
    exact .reply_error h s _
  case h_13 name =>
    dsimp only
    rw [Session.rollbackToSavepoint, htx]
    dsimp only
    split
    · exact .reply_error h s _
    · exact .reply_ok rfl s _
  case h_14 =>
    rw [Server.startLockTable, htx]
    simp only [hf]
    exact .reply_error h s _
  case h_15 => exact answered_runSelect h _
  case h_16 copy =>
    rcases hc : w.copySource s.clock copy (s.view pid) with r | i | q
    · rcases r with m | r
      · exact .reply_error h s _
      · exact absurd ⟨r, hc⟩ hnot
    · exact answered_runData h _
    · exact answered_runSelect h _
  case h_17 => exact answered_runData h _

end Start

/-! ## Every run of the connection -/

namespace Connection

section

variable (w : Engine τ ρ) (parseSql : String → Except String (List Statement)) (pid : Pid)
  (c : Connection τ ρ)

/-- The message is answered by an error that no handler records. -/
def Refuses : FrontendMessage → Prop
  | .parse _ query _ => ∃ e, parseSql query = .error e
  | .bind _ statement params paramFormats =>
    ∀ prepared ∈ c.prepared statement,
      ∃ e, BindMessage.bindStatements ⟨params, paramFormats, prepared.paramOids⟩
        prepared.statements = .error e
  | .describe isStatement name =>
    if isStatement then c.prepared name = none else c.portals name = none
  | .execute portal => c.portals portal = none
  | .copyFail | .unknown _ => True
  | .query _ | .close _ _ | .sync | .flush | .password | .copyData | .copyDone | .terminate => False

/-- The step keeps to what an aborted block allows: no message is refused in a block that has not
failed, no idle timeout ends an aborted block, and no statement is started in one that it lets
through. -/
def Heeds : ConnectionEvent → Prop
  | .server _ | .finish _ => True
  | .message m =>
    (c.session pid).tx.isSome = true → ¬ (c.session pid).Aborted → ¬ c.Refuses parseSql m
  | .late _ => ¬ (c.session pid).Aborted
  | .next source => (c.session pid).Aborted → ∀ b ∈ c.batch, ∀ stmt ∈ b.rest.head?,
      if (b.simple && stmt.isCopyStream) = true then ∀ r, source ≠ .done (.ok r)
      else ¬ c.server.Tolerates w pid stmt

/-- The statement that runs. -/
def current : Option Statement := c.batch.bind Batch.current

/-- What was sent agrees with the session, between the statements and while one runs. -/
structure Sound : Prop where
  obeys : ErrorsAbort c.sent
  idle : c.current = none → (c.session pid).running = none
  between : c.closed = false → abortedBy c.sent = true → c.current = none → (c.session pid).Aborted
  during : c.closed = false → abortedBy c.sent = true → ∀ stmt, c.current = some stmt →
    Answered stmt (c.session pid)

end

variable {w : Engine τ ρ} {parseSql : String → Except String (List Statement)} {pid : Pid}
  {c : Connection τ ρ} {b : Batch} {shown : Statement}

theorem Sound.of_told (hrun : (c.session pid).running = none) (h : Told (c.session pid) c.sent)
    (hcur : c.current = none) : c.Sound pid where
  obeys := h.obeys
  idle _ := hrun
  between _ ha _ := h.aborted ha
  during _ _ stmt hstmt := by
    rw [hcur] at hstmt
    cases hstmt

theorem Sound.told (h : c.Sound pid) (hclosed : c.closed = false) (hcur : c.current = none) :
    Told (c.session pid) c.sent :=
  ⟨h.obeys, fun ha => h.between hclosed ha hcur⟩

theorem session_markError (hrun : (c.session pid).running = none) :
    (c.markError w pid).session pid = (c.session pid).markError := by
  have hnone : (c.server.sessions pid).running.isNone = true := by
    rw [Option.isNone_iff_eq_none]
    exact hrun
  simp only [markError, Server.step, Server.apply, hnone]
  exact sessions_set_self

/-- Steps in between leave an idle session alone, up to the cancellation flag. -/
theorem exists_session_step {e : Event} (he : mayStep pid e = true)
    (hrun : (c.session pid).running = none) :
    ∃ flag, (c.server.step w e).sessions pid = { c.session pid with cancel := flag } := by
  by_cases hpid : e.pid = pid
  · rcases e with ⟨q, stmt⟩ | q | ⟨q, flag⟩ | q | q | q
    case resume =>
      obtain rfl : q = pid := hpid
      refine ⟨(c.session q).cancel, ?_⟩
      show (c.server.apply w (.resume q)).sessions q = c.server.sessions q
      rw [Server.apply]
      split
      · next n hn => cases hn.symm.trans hrun
      · rfl
    case setCancel =>
      obtain rfl : q = pid := hpid
      exact ⟨flag, sessions_set_self⟩
    all_goals exact absurd hpid (bne_iff_ne.mp he)
  · exact ⟨(c.session pid).cancel, sessions_of_ne (Ne.symm hpid)⟩

theorem Sound.server (h : c.Sound pid) {e : Event} (he : mayStep pid e = true) :
    ({ c with server := c.server.step w e }).Sound pid where
  obeys := h.obeys
  idle hcur := by
    obtain ⟨flag, hsess⟩ := exists_session_step (w := w) he (h.idle hcur)
    show ((c.server.step w e).sessions pid).running = none
    rw [hsess]
    exact h.idle hcur
  between hclosed ha hcur := by
    obtain ⟨flag, hsess⟩ := exists_session_step (w := w) he (h.idle hcur)
    show ((c.server.step w e).sessions pid).Aborted
    rw [hsess]
    exact h.between hclosed ha hcur
  during hclosed ha stmt hcur := by
    have hanswered := h.during hclosed ha stmt hcur
    obtain ⟨flag, hsess⟩ := exists_session_step (w := w) he hanswered.idle
    show Answered stmt ((c.server.step w e).sessions pid)
    rw [hsess]
    exact ⟨hanswered.idle, hanswered.answer⟩

/-! What the handlers send. -/

section Idle

variable (hrun : (c.session pid).running = none)

include hrun

theorem told_markError (hobeys : ErrorsAbort c.sent)
    (h : abortedBy c.sent = true → (c.session pid).tx.isSome = true) :
    Told (((c.sendError pid).markError w pid).session pid)
      ((c.sendError pid).markError w pid).sent := by
  rw [session_markError (c := c.sendError pid) hrun]
  exact .markError hobeys h

theorem running_sendError_markError :
    (((c.sendError pid).markError w pid).session pid).running = none := by
  rw [session_markError (c := c.sendError pid) hrun, Session.running_markError]
  exact hrun

theorem sound_abortBatch (hobeys : ErrorsAbort c.sent)
    (h : abortedBy c.sent = true → (c.session pid).tx.isSome = true) (simple : Bool) :
    (c.abortBatch w pid simple).Sound pid := by
  have htold := told_markError (w := w) hrun hobeys h
  have hrun' := running_sendError_markError (w := w) hrun
  rw [abortBatch]
  split
  · exact .of_told hrun' htold.ready rfl
  · exact .of_told hrun' htold rfl

variable (h : Told (c.session pid) c.sent)
include h

theorem sound_handle (hbatch : c.batch = none)
    {m : FrontendMessage} (hheeds : c.Heeds w parseSql pid (.message m)) :
    (c.handle w parseSql pid m).Sound pid := by
  have hcur : c.current = none := by rw [current, hbatch]; rfl
  have hsame : ∀ c' : Connection τ ρ, c'.server = c.server → c'.sent = c.sent →
      c'.current = none → c'.Sound pid := by
    intro c' hserver hsent hcur'
    refine .of_told ?_ ?_ hcur'
    · rw [session, hserver]
      exact hrun
    · rw [session, hserver, hsent]
      exact h
  have hrefuse : c.Refuses parseSql m → (c.refuse pid).Sound pid := by
    intro hm
    refine .of_told hrun (h.refuse fun hopen => ?_) hcur
    by_contra hne
    exact hheeds hopen hne hm
  rcases m with sql | ⟨name, query, oids⟩ | ⟨portal, statement, params, formats⟩ |
    ⟨isStatement, name⟩ | portal | ⟨isStatement, name⟩ | _ | _ | _ | _ | _ | _ | _ | tag
  case query =>
    rw [handle, handleSimpleQuery]
    split
    · have htold := told_markError (w := w) hrun h.obeys fun ha => (h.aborted ha).isSome
      exact .of_told (running_sendError_markError hrun) htold.ready hcur
    · split
      · exact .of_told hrun h.ready hcur
      · exact hsame _ rfl rfl rfl
  case parse =>
    rw [handle, handleParse]
    split
    · exact hsame _ rfl rfl hcur
    · next e he => exact hrefuse ⟨e, he⟩
  case bind =>
    rw [handle, handleBind]
    split
    · next hnone =>
      refine hrefuse fun prepared hp => ?_
      cases hnone.symm.trans hp
    · next prepared hp =>
      split
      · next e he =>
        refine hrefuse fun prepared' hp' => ?_
        obtain rfl := Option.some.inj (hp.symm.trans hp')
        exact ⟨e, he⟩
      · exact hsame _ rfl rfl hcur
  case describe =>
    rw [handle, handleDescribe]
    rcases hknown : (if isStatement then (c.prepared name).isSome else (c.portals name).isSome)
      with _ | _
    · refine hrefuse ?_
      cases isStatement <;> simpa [Refuses] using hknown
    · exact hsame _ rfl rfl hcur
  case execute =>
    rw [handle, handleExecute]
    split
    · next hnone => exact hrefuse hnone
    · exact hsame _ rfl rfl rfl
  case close =>
    rw [handle, handleClose]
    split <;> exact hsame _ rfl rfl hcur
  case sync => exact .of_told hrun h.ready hcur
  case flush | password | copyData | copyDone => exact hsame _ rfl rfl hcur
  case copyFail | unknown => exact hrefuse trivial
  case terminate =>
    refine ⟨h.obeys, fun _ => ?_, fun hclosed => (nomatch hclosed), fun hclosed => (nomatch hclosed)⟩
    show ((c.server.step w (.disconnect pid)).sessions pid).running = none
    have hnone : (c.server.sessions pid).running.isNone = true := Option.isNone_iff_eq_none.mpr hrun
    simp only [Server.step, Server.apply, hnone, if_true, sessions_set_self]

theorem sound_abortIdle (hcur : c.current = none)
    (htx : (c.session pid).tx.isSome = true) (hheeds : ¬ (c.session pid).Aborted) :
    (c.abortIdle w pid).Sound pid := by
  have hclose : (c.server.step w (.idleTimeout pid)).sessions pid = (c.session pid).close := by
    have hguard : ((c.server.sessions pid).running.isNone &&
        (c.server.sessions pid).tx.isSome) = true :=
      Bool.and_eq_true_iff.mpr ⟨Option.isNone_iff_eq_none.mpr hrun, htx⟩
    simp only [Server.step, Server.apply, hguard]
    exact sessions_set_self
  have htold : Told (c.session pid).close (c.sent ++ [.error (c.session pid).close.tx.isSome]) :=
    Told.refuse ⟨h.obeys, fun ha => absurd (h.aborted ha) hheeds⟩ fun hopen => by cases hopen
  refine .of_told ?_ ?_ hcur
  · show ((c.server.step w (.idleTimeout pid)).sessions pid).running = none
    rw [hclose]
    exact hrun
  · have hready := htold.ready
    rw [← hclose] at hready
    exact hready

/-- A statement that is started in an aborted block is answered at once. -/
theorem sound_start {stmt : Statement} {rest : List Statement}
    (hstart : (c.session pid).Aborted → Answered shown ((c.server.start w pid stmt).sessions pid)) :
    (c.start w pid b shown stmt rest).Sound pid where
  obeys := h.obeys
  idle hcur := nomatch hcur
  between _ _ hcur := nomatch hcur
  during _ ha stmt' hcur := by
    obtain rfl := Option.some.inj hcur
    have hnone : (c.server.sessions pid).running.isNone = true := Option.isNone_iff_eq_none.mpr hrun
    have hanswered := hstart (h.aborted ha)
    show Answered shown ((c.server.step w (.start pid stmt)).sessions pid)
    simp only [Server.step, Server.apply, hnone, if_true]
    exact hanswered

theorem sound_next (hbatch : c.batch = some b) (hcurrent : b.current = none) {source : CopySource}
    (hheeds : c.Heeds w parseSql pid (.next source)) : (c.next w pid b source).Sound pid := by
  have hsome : abortedBy c.sent = true → (c.session pid).tx.isSome = true :=
    fun ha => (h.aborted ha).isSome
  rw [next]
  split
  · split
    · exact .of_told hrun h.ready rfl
    · exact .of_told hrun h rfl
  · next stmt rest hrest =>
    have hallowed := fun ha => hheeds ha b hbatch stmt (by rw [hrest]; rfl)
    split
    · exact .of_told hrun h hcurrent
    split
    · have hcancel : (c.server.step w (.setCancel pid false)).sessions pid =
          { c.session pid with cancel := false } := sessions_set_self
      refine sound_abortBatch (c := { c with server := c.server.step w (.setCancel pid false) })
        ?_ h.obeys ?_ b.simple
      · show ((c.server.step w (.setCancel pid false)).sessions pid).running = none
        rw [hcancel]
        exact hrun
      · show abortedBy c.sent = true →
          ((c.server.step w (.setCancel pid false)).sessions pid).tx.isSome = true
        rw [hcancel]
        exact hsome
    split
    · next hstream =>
      simp only [hstream] at hallowed
      split
      · exact sound_abortBatch hrun h.obeys hsome b.simple
      · -- Without rows nothing is executed, and an aborted block would not notice.
        next r =>
        have hnot : abortedBy c.sent ≠ true := fun ha => hallowed (h.aborted ha) r rfl
        exact .of_told hrun (h.executed hnot stmt) hcurrent
      · exact sound_start hrun h fun ha => answered_runData ha _
      · exact sound_start hrun h fun ha => answered_runSelect ha _
    · next hstream =>
      simp only [hstream] at hallowed
      exact sound_start hrun h fun ha => answered_start ha (hallowed ha)

end Idle

/-- What is sent when a statement is executed: either the block was not aborted, or the statement
ends the abort. -/
theorem obeys_executed (h : c.Sound pid) (hclosed : c.closed = false)
    (hcur : c.current = some shown) (hok : succeeds shown (c.session pid).result = true) :
    ErrorsAbort (c.sent ++ [.executed shown]) ∧ abortedBy (c.sent ++ [.executed shown]) ≠ true := by
  rw [errorsAbort_concat, abortedBy_concat, Sent.after, Ne, Bool.and_eq_true]
  have hends : abortedBy c.sent = true → shown.endsAbort = true := by
    intro ha
    rcases (h.during hclosed ha shown hcur).answer with ⟨-, m, hm⟩ | ⟨hends, -⟩
    · rw [hm] at hok
      cases hok
    · exact hends
  refine ⟨⟨h.obeys, hends⟩, fun ⟨ha, hnot⟩ => ?_⟩
  rw [hends ha] at hnot
  cases hnot

theorem succeeds_of_endsAbort {stmt : Statement} (h : stmt.endsAbort = true) (r : ExecResult) :
    succeeds stmt (some (.ok r)) = true := by
  have hstream : stmt.isCopyStream = false := by
    cases stmt with
    | copy => cases h
    | _ => rfl
  rcases r with _ | _ | _
  · rfl
  all_goals rw [succeeds, hstream, Bool.false_and, Bool.not_false]
  all_goals nofun

theorem session_finishTimed (s : Server τ ρ) (pid : Pid) (fired : Bool) :
    ((s.finishTimed pid fired).sessions pid).tx = (s.sessions pid).tx ∧
      ((s.finishTimed pid fired).sessions pid).running = (s.sessions pid).running := by
  rw [Server.finishTimed]
  split
  · rw [sessions_set_self]
    exact ⟨rfl, rfl⟩
  · exact ⟨rfl, rfl⟩

theorem sound_finish (h : c.Sound pid) (hclosed : c.closed = false) (hbatch : c.batch = some b)
    (hcurrent : b.current = some shown) (hrun : (c.session pid).running = none) (fired : Bool) :
    (c.finish w pid b shown fired).Sound pid := by
  have hcur : c.current = some shown := by
    rw [current, hbatch]
    exact hcurrent
  rw [finish]
  generalize hfired : (fired && !(b.simple && shown.isCopyStream)) = late
  obtain ⟨htx, hrun'⟩ := session_finishTimed c.server pid late
  rcases hok : succeeds shown (c.session pid).result with _ | _
  · -- A statement that failed in an aborted block has left it aborted.
    refine sound_abortBatch (c := { c with server := c.server.finishTimed pid late })
      (hrun'.trans hrun) h.obeys (fun ha => ?_) b.simple
    show ((c.server.finishTimed pid late).sessions pid).tx.isSome = true
    rw [htx]
    rcases (h.during hclosed ha shown hcur).answer with ⟨haborted, -⟩ | ⟨hends, r, hr⟩
    · exact haborted.isSome
    · rw [hr, succeeds_of_endsAbort hends] at hok
      cases hok
  · obtain ⟨hobeys, hnot⟩ := obeys_executed h hclosed hcur hok
    rcases late with _ | _
    · exact .of_told (hrun'.trans hrun) ⟨hobeys, fun ha => absurd ha hnot⟩ rfl
    · refine sound_abortBatch (c := { c with
        server := c.server.finishTimed pid true, sent := c.sent ++ [.executed shown] })
        (hrun'.trans hrun) hobeys (fun ha => absurd ha hnot) b.simple

/-- **Every step keeps what was sent in agreement with the session.** -/
theorem Sound.step (h : c.Sound pid) {e : ConnectionEvent} (hheeds : c.Heeds w parseSql pid e) :
    (c.step w parseSql pid e).Sound pid := by
  rcases e with e | m | m | source | fired
  · rw [Connection.step]
    split
    · next he => exact h.server he
    · exact h
  · rw [Connection.step]
    split
    · exact h
    · next hguard =>
      obtain ⟨⟨hclosed, hbatch⟩, -⟩ : (c.closed = false ∧ c.batch = none) ∧
        (c.skipUntilSync = true → m.isSync = true) := by simpa using hguard
      have hcur : c.current = none := by rw [current, hbatch]; rfl
      exact sound_handle (h.idle hcur) (h.told hclosed hcur) hbatch hheeds
  · rw [Connection.step]
    split
    · exact h
    next hguard =>
    obtain ⟨⟨⟨hclosed, hbatch⟩, -⟩, htx⟩ : ((c.closed = false ∧ c.batch = none) ∧
      m.isTerminate = false) ∧ (c.session pid).tx ≠ none := by simpa using hguard
    have hcur : c.current = none := by rw [current, hbatch]; rfl
    exact sound_abortIdle (h.idle hcur) (h.told hclosed hcur) hcur
      (Option.isSome_iff_ne_none.mpr htx) hheeds
  · rw [Connection.step]
    split
    · next b hbatch =>
      split
      · exact h
      · next hguard =>
        obtain ⟨hclosed, hcurrent⟩ : c.closed = false ∧ b.current = none := by simpa using hguard
        have hcur : c.current = none := by rw [current, hbatch]; exact hcurrent
        exact sound_next (h.idle hcur) (h.told hclosed hcur) hbatch hcurrent hheeds
    · exact h
  · rw [Connection.step]
    split
    · next b hbatch =>
      split
      · next shown hcurrent =>
        split
        · exact h
        · next hguard =>
          obtain ⟨hclosed, hrun⟩ : c.closed = false ∧ (c.session pid).running = none := by
            simpa using hguard
          exact sound_finish h hclosed hbatch hcurrent hrun fired
      · exact h
    · exact h

/-- A new connection to the server `s`. -/
def «open» (s : Server τ ρ) : Connection τ ρ := { server := s }

end Connection

/-- **Errors abort the block**: in every run of a connection, with any steps of other sessions in
between, all of whose steps heed what an aborted block allows. -/
theorem errors_abort_block (w : Engine τ ρ)
    (parseSql : String → Except String (List Statement)) (pid : Pid) {s : Server τ ρ}
    (hnew : s.sessions pid = {}) {es : List ConnectionEvent}
    (h : Machine.Always (Connection.step w parseSql pid) (Connection.Heeds w parseSql pid)
      (.open s) es) :
    ErrorsAbort (Machine.run (Connection.step w parseSql pid) (.open s) es).sent := by
  have hsound : (Connection.open s).Sound pid := by
    refine .of_told ?_ ⟨trivial, fun ha => nomatch ha⟩ rfl
    show (s.sessions pid).running = none
    rw [hnew]
  exact (h.run_induction hsound fun c e hc he => hc.step he).obeys

/-- A parser that knows `BEGIN`, for runs on concrete inputs. -/
def tinyParse (sql : String) : Except String (List Statement) :=
  if sql = "BEGIN" then .ok [.begin none none] else .error "syntax error"

/-- A new session opens a block. -/
def beginQuery : List ConnectionEvent :=
  [.message (.query "BEGIN"), .next (.done (.error "")), .finish false, .next (.done (.error ""))]

/-- An unknown statement in a simple query aborts the block. -/
theorem errors_abort_block_query :
    ErrorsAbort (Machine.run (Connection.step tinyEngine tinyParse 1)
      (.open (.init tinyDatabase none)) (beginQuery ++ [.message (.query "SELEC")])).sent := by
  refine errors_abort_block tinyEngine tinyParse 1 rfl ?_
  refine ⟨fun _ _ h => h, fun ha => ?_, trivial, fun ha => ?_, fun _ _ h => h, trivial⟩
  · exact absurd ha.1 (by decide)
  · exact absurd ha.1 (by decide)

/-- An unknown statement in a `Parse` message does not: the next `ReadyForQuery` has the status `T`.
-/
theorem not_errorsAbort_parse :
    ¬ ErrorsAbort (Machine.run (Connection.step tinyEngine tinyParse 1)
      (.open (.init tinyDatabase none))
      (beginQuery ++ [.message (.parse "" "SELEC" []), .message .sync])).sent := by
  intro h
  have hready : TxStatus.inTransaction = .failed := h.2.2.2.1 rfl
  cases hready

end PostgresRs
