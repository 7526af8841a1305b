import PostgresRs.Server.Isolation

/-!
# The order of the log

Replaying the log repeats the logged statements in the order of its records, so this order should be
the one in which they took effect on the shared database.  An autocommit statement takes effect and
is logged in one step.  A block takes effect when `COMMIT` or `PREPARE TRANSACTION` publishes its
working copy, and is logged by a later step, with the database mutex free in between: another
session can take effect and be logged first (`log_reversed`).

The server is run here with a trace of its log (`Traced`): every record with the step in which its
statement took effect, and every published block with what it had buffered.  The steps are in order
as long as nobody lets a change take effect while another session stands between its publication and
its append (`log_order`).
-/

namespace PostgresRs

open Machine Server List

variable {τ ρ : Type} {w : Engine τ ρ}

/-! ## The trace -/

namespace Server

variable {s : Server τ ρ}

/-- The texts of the records of the log; none if no log is configured. -/
def records (s : Server τ ρ) : List String :=
  s.wal.getD []

/-- Appends that do not fail add all texts but the empty ones. -/
theorem appendAll_of_forall_lt {ok : Nat → Bool} {sqls : List String} (i : Nat)
    (hok : ∀ j < (sqls.filter fun sql => sql ≠ "").length, ok (i + j) = true)
    (log : List String) :
    appendAll ok i log sqls = log ++ sqls.filter fun sql => sql ≠ "" := by
  induction sqls generalizing i log with
  | nil => exact (append_nil log).symm
  | cons sql sqls ih =>
    rw [appendAll]
    split
    · next hempty =>
      rw [filter_cons_of_neg (by simpa using hempty)] at hok ⊢
      exact ih i hok log
    · next hne =>
      rw [filter_cons_of_pos (by simpa using hne)] at hok ⊢
      have hhead : ok i = true := hok 0 (Nat.zero_lt_succ _)
      rw [if_pos hhead, ih (i + 1) fun j hj => ?_]
      · rw [append_assoc]
        rfl
      · have := hok (j + 1) (Nat.succ_lt_succ hj)
        rwa [show i + (j + 1) = i + 1 + j by omega] at this

theorem wal_append {log sqls : List String} (h : s.wal = some log) :
    (s.append w sqls).wal = some (log ++ appendAll (w.appendOk s.clock) 0 [] sqls) := by
  simp only [append, h, Option.map_some]
  rw [appendAll_eq]

theorem wal_executeAutocommit {log : List String} (h : s.wal = some log) (stmt : Statement) :
    (s.executeAutocommit w stmt).1.wal =
      some (log ++ appendAll (w.appendOk s.clock) 0 [] (s.autocommitLog w stmt)) := by
  rw [executeAutocommit_eq]
  exact wal_append h

end Server

/-- The server with a trace of its log. -/
structure Traced (τ ρ : Type) where
  server : Server τ ρ
  /-- The step in which the last statement of each session was started; a `COMMIT` publishes and an
  autocommit statement runs in this step. -/
  startedAt : Pid → Nat
  /-- The records appended so far, each with the step in which its statement took effect. -/
  log : List (Nat × String)
  /-- The blocks published so far: the step, and the texts of the changes buffered. -/
  published : List (Nat × List String)

namespace Traced

/-- The event starts a statement. -/
def starts (s : Server τ ρ) : Event → Bool
  | .start pid _ => (s.sessions pid).running.isNone
  | _ => false

/-- The block that is published between the states `s` and `s'` of a session. -/
def publication (clock : Nat) (sess sess' : Session τ ρ) : List (Nat × List String) :=
  match sess.running, sess'.running with
  | none, some (.appending buffered _) => [(clock, buffered)]
  | _, _ => []

def step (w : Engine τ ρ) (t : Traced τ ρ) (e : Event) : Traced τ ρ :=
  let server := t.server.step w e
  let startedAt :=
    if starts t.server e then Function.update t.startedAt e.pid t.server.clock else t.startedAt
  { server := server
    startedAt := startedAt
    log := t.log ++
      (server.records.drop t.server.records.length).map fun sql => (startedAt e.pid, sql)
    published := t.published ++
      publication t.server.clock (t.server.sessions e.pid) (server.sessions e.pid) }

/-- Before any session, with the records `old` in the log. -/
def init (db : Database τ ρ) (old : List String) : Traced τ ρ :=
  ⟨.init db (some old), fun _ => 0, [], []⟩

variable {t : Traced τ ρ} {e : Event}

@[simp] theorem server_step : (t.step w e).server = t.server.step w e := rfl

theorem startedAt_of_ne {q : Pid} (hq : q ≠ e.pid) : (t.step w e).startedAt q = t.startedAt q := by
  simp only [step]
  split
  · simp [hq]
  · rfl

theorem startedAt_of_running (h : (t.server.sessions e.pid).running ≠ none) :
    (t.step w e).startedAt = t.startedAt := by
  have hs : starts t.server e = false := by
    cases e with
    | start pid stmt => exact Option.isNone_eq_false_iff.2 (Option.isSome_iff_ne_none.2 h)
    | _ => rfl
  simp [step, hs]

theorem startedAt_of_start {stmt : Statement} (he : e = .start e.pid stmt)
    (hrun : (t.server.sessions e.pid).running = none) :
    (t.step w e).startedAt e.pid = t.server.clock := by
  have hs : starts t.server e = true := by
    rw [he]
    simp [starts, hrun]
  simp [step, hs]

/-- The trace follows the log. -/
theorem log_step {old new : List String} (h : t.server.wal = some old)
    (h' : (t.server.step w e).wal = some (old ++ new)) :
    (t.step w e).log = t.log ++ new.map fun sql => ((t.step w e).startedAt e.pid, sql) := by
  simp [step, records, h, h']

theorem log_of_wal_eq (h : (t.server.step w e).wal = t.server.wal) :
    (t.step w e).log = t.log := by
  simp [step, records, h]

end Traced

/-! ## When the order is kept -/

/-- The step would let a change that is to be logged take effect: it publishes a block that has
buffered something, or runs a change outside any block. -/
def TakesEffect (w : Engine τ ρ) (s : Server τ ρ) (e : Event) : Prop :=
  (∃ tx, Publishes s e tx ∧ tx.buffered ≠ []) ∨
    ∃ stmt, e = .start e.pid stmt ∧ stmt.isControl = false ∧ (s.sessions e.pid).tx = none ∧
      (s.sessions e.pid).running = none ∧ (s.resolve w e.pid stmt).isMutation = true

/-- A change takes effect only while no session has published changes still to append. -/
def TakesEffectAlone (w : Engine τ ρ) (s : Server τ ρ) (e : Event) : Prop :=
  TakesEffect w s e → ∀ q, (s.sessions q).pending = []

/-- The invariant: the records are in the order in which they took effect, and so is what the one
session between publication and append has still to add. -/
structure InOrder (old : List String) (t : Traced τ ρ) : Prop where
  records : t.server.wal = some (old ++ t.log.map Prod.snd)
  sorted : t.log.Pairwise fun a b => a.1 ≤ b.1
  past : ∀ r ∈ t.log, r.1 < t.server.clock
  pending_past : ∀ q, (t.server.sessions q).pending ≠ [] → t.startedAt q < t.server.clock
  pending_last : ∀ q, (t.server.sessions q).pending ≠ [] → ∀ r ∈ t.log, r.1 ≤ t.startedAt q
  pending_alone : ∀ q q', (t.server.sessions q).pending ≠ [] →
    (t.server.sessions q').pending ≠ [] → q = q'

namespace InOrder

variable {old : List String} {t : Traced τ ρ} {e : Event}

theorem init (db : Database τ ρ) (old : List String) : InOrder old (Traced.init db old) :=
  ⟨by simp [Traced.init, Server.init], .nil, by simp [Traced.init],
    fun q hq => absurd rfl hq, fun q hq => absurd rfl hq, fun q q' hq => absurd rfl hq⟩

variable (h : InOrder old t)
include h

/-- A step that appends nothing and leaves nobody new before an append. -/
theorem quiet (hwal : (t.server.step w e).wal = t.server.wal)
    (hpending : ((t.server.step w e).sessions e.pid).pending ≠ [] →
      ((t.server.step w e).sessions e.pid).pending = (t.server.sessions e.pid).pending) :
    InOrder old (t.step w e) := by
  have hlog : (t.step w e).log = t.log := Traced.log_of_wal_eq hwal
  -- Whoever is before an append now was there already, in the same statement.
  have hsame : ∀ q, ((t.step w e).server.sessions q).pending ≠ [] →
      (t.server.sessions q).pending ≠ [] ∧ (t.step w e).startedAt q = t.startedAt q := by
    intro q hq
    by_cases hqe : q = e.pid
    · subst hqe
      have hold : (t.server.sessions e.pid).pending ≠ [] := by
        rw [← hpending hq]
        exact hq
      refine ⟨hold, congrFun (Traced.startedAt_of_running fun hrun => hold ?_) _⟩
      exact Session.pending_of_idle hrun
    · have hs : (t.step w e).server.sessions q = t.server.sessions q := sessions_of_ne hqe
      rw [hs] at hq
      exact ⟨hq, Traced.startedAt_of_ne hqe⟩
  refine ⟨?_, ?_, ?_, ?_, ?_, ?_⟩
  · rw [hlog]
    exact hwal.trans h.records
  · rw [hlog]
    exact h.sorted
  · rw [hlog]
    exact fun r hr => (h.past r hr).trans (Nat.lt_succ_self _)
  · intro q hq
    rw [(hsame q hq).2]
    exact (h.pending_past q (hsame q hq).1).trans (Nat.lt_succ_self _)
  · intro q hq
    rw [hlog, (hsame q hq).2]
    exact h.pending_last q (hsame q hq).1
  · exact fun q q' hq hq' => h.pending_alone q q' (hsame q hq).1 (hsame q' hq').1

/-- A step that appends records no earlier than those there, when nobody else is before an append.
-/
theorem append {new : List String}
    (hwal : (t.server.step w e).wal = some (old ++ t.log.map Prod.snd ++ new))
    (hlate : ∀ r ∈ t.log, r.1 ≤ (t.step w e).startedAt e.pid)
    (hpast : (t.step w e).startedAt e.pid ≤ t.server.clock)
    (hnone : ((t.server.step w e).sessions e.pid).pending = [])
    (hothers : ∀ q, q ≠ e.pid → (t.server.sessions q).pending = []) : InOrder old (t.step w e) := by
  have hlog := Traced.log_step (w := w) (e := e) h.records hwal
  have hpending : ∀ q, ((t.step w e).server.sessions q).pending = [] := by
    intro q
    by_cases hqe : q = e.pid
    · subst hqe
      exact hnone
    · have hs : (t.step w e).server.sessions q = t.server.sessions q := sessions_of_ne hqe
      rw [hs]
      exact hothers q hqe
  refine ⟨?_, ?_, ?_, fun q hq => absurd (hpending q) hq, fun q hq => absurd (hpending q) hq,
    fun q q' hq => absurd (hpending q) hq⟩
  · rw [hlog]
    simpa using hwal
  · refine pairwise_append.2 ⟨h.sorted, ?_, ?_⟩
    · exact pairwise_map.2 (pairwise_of_forall_mem_list fun _ _ _ _ => Nat.le_refl _)
    · intro r hr r' hr'
      obtain ⟨sql, -, rfl⟩ := mem_map.1 hr'
      exact hlate r hr
  · intro r hr
    refine Nat.lt_succ_of_le ?_
    rcases mem_append.1 hr with hr | hr
    · exact (h.past r hr).le
    · obtain ⟨sql, -, rfl⟩ := mem_map.1 hr
      exact hpast

/-- The publication of a block, when nobody is before an append. -/
theorem publish {tx : Transaction τ ρ} (hpub : Publishes t.server e tx)
    (hwal : (t.server.step w e).wal = t.server.wal)
    (hothers : ∀ q, (t.server.sessions q).pending = []) : InOrder old (t.step w e) := by
  have hlog : (t.step w e).log = t.log := Traced.log_of_wal_eq hwal
  obtain ⟨⟨gid, he⟩, hc⟩ := hpub
  have hstart := Traced.startedAt_of_start (w := w) he hc.idle
  have hpid : ∀ q, ((t.step w e).server.sessions q).pending ≠ [] → q = e.pid := by
    intro q hq
    by_contra hqe
    refine hq ?_
    rw [Traced.server_step, sessions_of_ne hqe]
    exact hothers q
  refine ⟨?_, ?_, ?_, ?_, ?_, ?_⟩
  · rw [hlog]
    exact hwal.trans h.records
  · rw [hlog]
    exact h.sorted
  · rw [hlog]
    exact fun r hr => (h.past r hr).trans (Nat.lt_succ_self _)
  · intro q hq
    rw [hpid q hq, hstart]
    exact Nat.lt_succ_self _
  · intro q hq r hr
    rw [hpid q hq, hstart]
    exact (h.past r (hlog ▸ hr)).le
  · exact fun q q' hq hq' => (hpid q hq).trans (hpid q' hq').symm

/-- **A step keeps the order** if its change takes effect alone. -/
theorem step (halone : TakesEffectAlone w t.server e) : InOrder old (t.step w e) := by
  have hd := did w t.server e
  -- What the step leaves in the log and in the session, as facts about the step itself.
  have hwal : (t.server.step w e).wal = (t.server.apply w e).wal := rfl
  have hsess : (t.server.step w e).sessions = (t.server.apply w e).sessions := rfl
  generalize t.server.apply w e = s' at hd hwal hsess
  cases hd with
  | «local» sess _ hpending =>
    refine h.quiet (hwal.trans rfl) fun _ => ?_
    rw [hsess, sessions_set_self, hpending]
  | autocommit stmt sess he hc htx hrun htx' hpending =>
    have hnone : ((t.server.step w e).sessions e.pid).pending = [] := by
      rw [hsess, sessions_set_self, hpending]
    rw [wal_setSession, wal_executeAutocommit h.records] at hwal
    by_cases hm : (t.server.resolve w e.pid stmt).isMutation = true
    · have hothers := halone (.inr ⟨stmt, he, hc, htx, hrun, hm⟩)
      have hstart := Traced.startedAt_of_start (w := w) he hrun
      refine h.append hwal ?_ ?_ hnone fun q _ => hothers q
      · rw [hstart]
        exact fun r hr => (h.past r hr).le
      · rw [hstart]
    · have hlog : t.server.autocommitLog w (t.server.resolve w e.pid stmt) = [] := by
        unfold Server.autocommitLog
        split
        · rw [if_neg hm]
        · rfl
      refine h.quiet ?_ fun hne => absurd hnone hne
      rw [hwal, hlog, h.records]
      simp [appendAll]
  | publish tx db gid he htx hrun hf hpub =>
    by_cases hb : tx.buffered = []
    · refine h.quiet (hwal.trans rfl) fun hne => absurd ?_ hne
      rw [hsess, sessions_set_self]
      exact hb
    · have hcommit : Publishes t.server e tx := ⟨⟨gid, he⟩, hrun, htx, hf, by
        unfold Transaction.publish at hpub
        split at hpub
        · simp at hpub
        · next hno => simpa using hno⟩
      exact h.publish hcommit (hwal.trans rfl) (halone (.inl ⟨tx, hcommit, hb⟩))
  | conflict =>
    refine h.quiet (hwal.trans rfl) fun hne => absurd ?_ hne
    rw [hsess, sessions_set_self]
    rfl
  | append sess htx he hold hpending =>
    have hnone : ((t.server.step w e).sessions e.pid).pending = [] := by
      rw [hsess, sessions_set_self, hpending]
    rw [wal_setSession, wal_append h.records] at hwal
    by_cases hp : (t.server.sessions e.pid).pending = []
    · refine h.quiet ?_ fun hne => absurd hnone hne
      rw [hwal, hp, h.records]
      simp [appendAll]
    · have hstart : (t.step w e).startedAt = t.startedAt :=
        Traced.startedAt_of_running fun hrun => hp (Session.pending_of_idle hrun)
      refine h.append hwal ?_ ?_ hnone fun q hq => ?_
      · rw [hstart]
        exact h.pending_last _ hp
      · rw [hstart]
        exact (h.pending_past _ hp).le
      · by_contra hqp
        exact hq (h.pending_alone _ _ hqp hp)
  | release sess _ _ hpending =>
    refine h.quiet (hwal.trans rfl) fun hne => absurd ?_ hne
    rw [hsess, sessions_set_self, hpending]
  | granted _ _ _ sess _ _ _ _ hpending =>
    refine h.quiet (hwal.trans rfl) fun hne => absurd ?_ hne
    rw [hsess, sessions_set_self, hpending]
  | waits => exact h.quiet (hwal.trans rfl) fun _ => by rw [hsess]
  | refused _ _ _ sess _ _ _ _ _ hpending =>
    refine h.quiet (hwal.trans rfl) fun hne => absurd ?_ hne
    rw [hsess, sessions_set_self, hpending]

end InOrder

/-- **Log order is effect order.**  In every run in which a change takes effect only while no other
session stands between its publication and its append, the records of the log are in the order of
the steps in which their statements took effect. -/
theorem log_order (w : Engine τ ρ) (db : Database τ ρ) (old : List String) (es : List Event)
    (halone : Always (Traced.step w) (fun t e => TakesEffectAlone w t.server e)
      (Traced.init db old) es) :
    let t := run (Traced.step w) (Traced.init db old) es
    t.server.wal = some (old ++ t.log.map Prod.snd) ∧ t.log.Pairwise fun a b => a.1 ≤ b.1 := by
  have h := halone.run_induction (I := InOrder old) (.init db old) fun t e h ha => h.step ha
  exact ⟨h.records, h.sorted⟩

/-- A block and an autocommit statement, one after the other. -/
theorem log_order_sequential :
    let t := run (Traced.step tinyEngine) (Traced.init tinyDatabase [])
      [.start 1 (.begin none none), .start 1 (insertInto "t" [[.int 7]]), .start 1 .commit,
        .resume 1, .start 2 (insertInto "u" [[.int 9]])]
    t.log = [(2, "INSERT INTO t"), (4, "INSERT INTO u")] ∧
      t.log.Pairwise fun a b => a.1 ≤ b.1 := by
  intro t
  -- While only session 1 has taken steps, nobody else is before an append.
  have hidle : ∀ es : List Event, (∀ e ∈ es, e.pid = 1) →
      ((run (step tinyEngine) (.init tinyDatabase (some [])) es).sessions 1).pending = [] →
      ∀ q, ((run (step tinyEngine) (.init tinyDatabase (some [])) es).sessions q).pending = [] := by
    intro es hes h1 q
    by_cases hq : q = 1
    · subst hq
      exact h1
    · rw [sessions_run_of_ne fun e he hpid => hq (hpid.symm.trans (hes e he))]
      rfl
  refine ⟨by decide, (log_order tinyEngine tinyDatabase []
    [.start 1 (.begin none none), .start 1 (insertInto "t" [[.int 7]]), .start 1 .commit,
      .resume 1, .start 2 (insertInto "u" [[.int 9]])] ⟨?_, ?_, ?_, ?_, ?_, trivial⟩).2⟩
  · exact fun _ => hidle [] (by simp) rfl
  · exact fun _ => hidle [.start 1 (.begin none none)] (by simp [Event.pid]) rfl
  · exact fun _ => hidle [.start 1 (.begin none none), .start 1 (insertInto "t" [[.int 7]])]
      (by simp [Event.pid]) rfl
  · rintro (⟨tx, ⟨⟨gid, he⟩, -⟩, -⟩ | ⟨stmt, he, -⟩) <;> simp [Event.pid] at he
  · exact fun _ => hidle [.start 1 (.begin none none), .start 1 (insertInto "t" [[.int 7]]),
      .start 1 .commit, .resume 1] (by simp [Event.pid]) rfl

/-- The block of session 1 takes effect before the `INSERT` of session 2 and is logged after it. -/
theorem log_reversed :
    let t := run (Traced.step tinyEngine) (Traced.init tinyDatabase [])
      [.start 1 (.begin none none), .start 1 (insertInto "t" [[.int 7]]), .start 1 .commit,
        .start 2 (insertInto "u" [[.int 9]]), .resume 1]
    t.server.wal = some ["INSERT INTO u", "INSERT INTO t"] ∧
      t.log = [(3, "INSERT INTO u"), (2, "INSERT INTO t")] := by
  decide

end PostgresRs
