import PostgresRs.Server.Steps

/-!
# Isolation: what a `COMMIT` does to the work of others

A transaction block works on a clone of the shared database, and a successful `COMMIT` puts the
clone, with the tables the block never touched, in the place of the shared database.  Before that it
looks for conflicts, but only among the tables in its write set and only by the stamps that other
`COMMIT`s left on them.  So two things can go wrong, and this file says exactly when they do.

* A table outside the write set goes back to its contents at `BEGIN`
  (`commit_keeps_unwritten_iff`): the `COMMIT` leaves these tables alone if and only if nothing
  that changed them since `BEGIN` is outstanding.
* A table inside the write set was changed by somebody who left no stamp
  (`first_committer_wins_iff`): an autocommit statement never does, nor does a `COMMIT` for a table
  that it changed without having it in its own write set.

Both are about a block of one session between its `BEGIN` and its `COMMIT`, with any other sessions
doing anything in between.  The induction over such a stretch is `open_block_induction`.
-/

namespace PostgresRs

open Machine Server List Transaction

variable {τ ρ : Type} {w : Engine τ ρ} {s : Server τ ρ} {pid : Pid} {tx tx' : Transaction τ ρ}
  {e : Event}

/-! ## The life of a block -/

/-- After the event the session of `pid` is in a transaction block. -/
def StaysOpen (w : Engine τ ρ) (pid : Pid) (s : Server τ ρ) (e : Event) : Prop :=
  ((s.step w e).sessions pid).tx.isSome

/-- The session of `pid` is between two statements in the block `tx`, and its `COMMIT` succeeds. -/
structure Commits (s : Server τ ρ) (pid : Pid) (tx : Transaction τ ρ) : Prop where
  idle : (s.sessions pid).running = none
  tx_eq : (s.sessions pid).tx = some tx
  not_failed : tx.failed = false
  no_conflict : (tx.serializing && s.db.hasConflictingCommit tx.writeSet tx.snapshotVersion) = false

/-- The step is the publishing one of a successful `COMMIT` or `PREPARE TRANSACTION` of `tx`. -/
def Publishes (s : Server τ ρ) (e : Event) (tx : Transaction τ ρ) : Prop :=
  (∃ gid : Option String, e = .start e.pid (gid.elim .commit .prepareTransaction)) ∧
    Commits s e.pid tx

variable {es : List Event}

/-- What holds of a block when it is opened and is kept by everything that can happen in it holds of
it as long as it stays open. -/
theorem open_block_induction {C : Server τ ρ → Event → Prop} {P : Transaction τ ρ → Prop}
    (hopen : Always (step w) (StaysOpen w pid) s es) (hC : Always (step w) C s es)
    (h0 : ∃ tx, (s.sessions pid).tx = some tx ∧ P tx)
    (hstep : ∀ s e tx tx', e.pid = pid → C s e → (s.sessions pid).tx = some tx →
      BlockStep w s e (some tx) (some tx') → P tx → P tx') :
    ∃ tx, ((run (step w) s es).sessions pid).tx = some tx ∧ P tx := by
  induction es generalizing s with
  | nil => exact h0
  | cons e es ih =>
    obtain ⟨tx, htx, hP⟩ := h0
    refine ih hopen.2 hC.2 ?_
    by_cases hpid : e.pid = pid
    · obtain ⟨tx', htx'⟩ := Option.isSome_iff_exists.1 hopen.1
      have hb := blockStep w s e
      rw [hpid, htx', htx] at hb
      exact ⟨tx', htx', hstep s e tx tx' hpid hC.1 htx (hb.resolve_right (by simp)) hP⟩
    · rw [sessions_of_ne (Ne.symm hpid)]
      exact ⟨tx, htx, hP⟩

theorem tx_begin (hidle : (s.sessions pid).running = none) (hout : (s.sessions pid).tx = none)
    (isolation : Option IsolationLevel) (ro : Option Bool) :
    ((s.step w (.start pid (.begin isolation ro))).sessions pid).tx =
      some (.start s.db (isolation.getD (s.sessions pid).defaultIsolation)
        (ro.getD (s.sessions pid).defaultReadOnly)) := by
  simp [Server.step, Server.apply, hidle, Server.start, Server.reply, Session.begin, hout]

/-- `BEGIN` opens a block on the shared database as it is. -/
theorem begin_opens (hidle : (s.sessions pid).running = none) (hout : (s.sessions pid).tx = none)
    (isolation : Option IsolationLevel) (readOnly : Option Bool) :
    ∃ level ro, ((s.step w (.start pid (.begin isolation readOnly))).sessions pid).tx =
        some (.start s.db level ro) ∧
      (s.step w (.start pid (.begin isolation readOnly))).db = s.db := by
  refine ⟨_, _, tx_begin hidle hout isolation readOnly, ?_⟩
  simp [Server.step, Server.apply, hidle, Server.start, Server.reply]

/-- The shared database after the publishing step. -/
theorem Publishes.db_step (h : Publishes s e tx) :
    (s.step w e).db = (tx.db.adoptCommitState s.db).recordCommit tx.writeSet := by
  obtain ⟨⟨gid, he⟩, hc⟩ := h
  have hstart : (s.startPublish e.pid tx gid).db =
      (tx.db.adoptCommitState s.db).recordCommit tx.writeSet := by
    simp [Server.startPublish, Transaction.publish, hc.no_conflict, Server.pause]
  rw [he]
  cases gid with
  | none => simpa [Server.step, Server.apply, hc.idle, Server.start, Server.startCommit, hc.tx_eq,
      hc.not_failed] using hstart
  | some g => simpa [Server.step, Server.apply, hc.idle, Server.start, Server.startPrepare,
      hc.tx_eq, hc.not_failed] using hstart

theorem Commits.publishes (h : Commits s pid tx) : Publishes s (.start pid .commit) tx :=
  ⟨⟨none, rfl⟩, h⟩

/-! ## Before the `COMMIT` -/

/-- A statement that ends a block closes it first. -/
theorem tx_of_ending (w : Engine τ ρ) (db : Database τ ρ) (wal : Option (List String))
    (es : List Event) (q : Pid) :
    let sess := (run (step w) (init db wal) es).sessions q
    sess.ending = true → sess.tx = none := by
  refine run_induction (I := fun s : Server τ ρ => (s.sessions q).ending = true →
    (s.sessions q).tx = none) es (fun _ => rfl) fun s e ih => ?_
  by_cases hq : q = e.pid
  · subst hq
    have h := did w s e
    change ((s.apply w e).sessions e.pid).ending = true → ((s.apply w e).sessions e.pid).tx = none
    generalize s.apply w e = s' at h ⊢
    cases h with
    | «local» sess hblock _ hending =>
      rw [sessions_set_self, hending]
      intro hold
      rw [ih hold] at hblock
      generalize sess.tx = tx at hblock
      cases hblock with
      | same => rfl
      | start _ _ hrun => rw [Session.ending_of_idle hrun] at hold; cases hold
    | publish | conflict => simp
    | append sess htx _ hold => exact fun _ => by simp [htx, ih hold]
    | waits => exact ih
    | autocommit _ _ _ _ _ _ _ _ h | release _ _ _ _ h | granted _ _ _ _ _ _ _ _ _ h
    | refused _ _ _ _ _ _ _ _ _ _ h => simp [h]
  · rwa [sessions_of_ne hq]

/-- **Nothing is written before the `COMMIT`**: in every state that is reached, a step in a block that
starts neither `COMMIT` nor `PREPARE TRANSACTION` leaves the shared database and the log alone. -/
theorem shared_step_of_block (w : Engine τ ρ) (db : Database τ ρ) (wal : Option (List String))
    (es : List Event) (e : Event) :
    let s := run (step w) (init db wal) es
    (s.sessions e.pid).tx ≠ none →
      (∀ gid : Option String, e ≠ .start e.pid (gid.elim .commit .prepareTransaction)) →
        (s.step w e).db = s.db ∧ (s.step w e).wal = s.wal := by
  intro s hin hne
  have h := did w s e
  change (s.apply w e).db = s.db ∧ (s.apply w e).wal = s.wal
  generalize s.apply w e = s' at h ⊢
  cases h with
  | publish _ _ gid he => exact absurd he (hne gid)
  | autocommit _ _ _ _ htx => exact absurd htx hin
  | append _ _ _ hold => exact absurd (tx_of_ending w db wal es e.pid hold) hin
  | «local» | conflict | release | granted | waits | refused => exact ⟨rfl, rfl⟩

theorem shared_step_of_insert :
    let s := run (step tinyEngine) (init tinyDatabase (some [])) [.start 1 (.begin none none)]
    let s' := s.step tinyEngine (.start 1 (insertInto "t" [[.int 1]]))
    s'.db = s.db ∧ s'.wal = s.wal :=
  shared_step_of_block tinyEngine tinyDatabase (some []) [.start 1 (.begin none none)]
    (.start 1 (insertInto "t" [[.int 1]])) (by decide) fun gid => by cases gid <;> nofun

/-! ## Tables outside the write set -/

/-- The tables a statement enters in the write set when it is run on the contents `st`. -/
def recordedTables (w : Engine τ ρ) (st : Store τ ρ) (stmt : Statement) : List String :=
  match (w.execute st stmt).2 with
  | .ok _ => if stmt.isMutation then stmt.mutatedTables else []
  | .error _ => []

/-- A statement that `pid` executes in its block changes only tables that it enters in the write
set. -/
def RecordsWrites (w : Engine τ ρ) (pid : Pid) (s : Server τ ρ) (e : Event) : Prop :=
  ∀ stmt tx, e = .start pid stmt → stmt.isControl = false → (s.sessions pid).tx = some tx →
    ∀ x, x ∉ recordedTables w tx.db.store (s.resolve w pid stmt) →
      (w.execute tx.db.store (s.resolve w pid stmt)).1.tables x = tx.db.store.tables x

/-- The working copy and every savepoint agree with `base` outside their write sets. -/
structure Untouched (base : String → Option τ) (tx : Transaction τ ρ) : Prop where
  working : ∀ x, x ∉ tx.writeSet → tx.db.store.tables x = base x
  saved : ∀ sp ∈ tx.savepoints, ∀ x, x ∉ sp.writeSet → sp.db.store.tables x = base x

variable {name : String}

theorem Transaction.releaseSavepoint_eq (h : tx.releaseSavepoint name = some tx') :
    ∃ pos, tx' = { tx with savepoints := tx.savepoints.take pos } := by
  obtain ⟨pos, -, h⟩ := Option.map_eq_some_iff.1 h
  exact ⟨pos, h.symm⟩

theorem Transaction.rollbackTo_eq (h : tx.rollbackTo name = some tx') :
    ∃ pos sp, tx.savepoints[pos]? = some sp ∧ tx' = { tx with
      db := sp.db
      buffered := tx.buffered.take sp.bufferedLen
      writeSet := sp.writeSet
      savepoints := tx.savepoints.take (pos + 1)
      failed := false } := by
  obtain ⟨pos, -, h⟩ := Option.bind_eq_some_iff.1 h
  obtain ⟨sp, hsp, h⟩ := Option.map_eq_some_iff.1 h
  exact ⟨pos, sp, hsp, h.symm⟩

variable {base : String → Option τ}

theorem Untouched.execute {stmt : Statement} (h : Untouched base tx)
    (hrec : ∀ x, x ∉ recordedTables w tx.db.store stmt →
      (w.execute tx.db.store stmt).1.tables x = tx.db.store.tables x) :
    Untouched base (tx.execute w stmt).1 := by
  have hsaved : (tx.execute w stmt).1.savepoints = tx.savepoints := by
    unfold Transaction.execute
    dsimp only
    split
    · split <;> rfl
    · rfl
  refine ⟨fun x hx => ?_, fun sp hsp => h.saved sp (hsaved ▸ hsp)⟩
  unfold recordedTables at hrec
  unfold Transaction.execute at hx ⊢
  cases hr : (w.execute tx.db.store stmt).2 with
  | error m =>
    simp only [hr, Transaction.fail] at hx hrec ⊢
    rw [hrec x (by simp)]
    exact h.working x hx
  | ok r =>
    simp only [hr] at hx hrec ⊢
    cases hm : stmt.isMutation with
    | true =>
      simp only [hm, if_true] at hx hrec ⊢
      simp only [Finset.mem_union, mem_toFinset, not_or] at hx
      rw [hrec x hx.2]
      exact h.working x hx.1
    | false =>
      simp only [hm, Bool.false_eq_true, if_false] at hx hrec ⊢
      rw [hrec x (by simp)]
      exact h.working x hx

/-- Nothing that happens in a block touches a table outside the write set, if its statements record
what they write. -/
theorem Untouched.blockStep (hpid : e.pid = pid) (hrec : RecordsWrites w pid s e)
    (htx : (s.sessions pid).tx = some tx) (hb : BlockStep w s e (some tx) (some tx'))
    (h : Untouched base tx) : Untouched base tx' := by
  subst hpid
  cases hb with
  | same => exact h
  | setMode _ isolation readOnly =>
    cases isolation <;> cases readOnly <;> exact ⟨h.working, h.saved⟩
  | savepoint _ name =>
    refine ⟨h.working, fun sp hsp => ?_⟩
    rcases mem_append.1 hsp with hsp | hsp
    · exact h.saved sp (mem_filter.1 hsp).1
    · obtain rfl := mem_singleton.1 hsp
      exact h.working
  | release _ _ name hr =>
    obtain ⟨pos, rfl⟩ := releaseSavepoint_eq hr
    exact ⟨h.working, fun sp hsp => h.saved sp (mem_of_mem_take hsp)⟩
  | rollbackTo _ _ name hr =>
    obtain ⟨pos, sp, hsp, rfl⟩ := rollbackTo_eq hr
    exact ⟨h.saved sp (mem_of_getElem? hsp),
      fun sp hsp => h.saved sp (mem_of_mem_take hsp)⟩
  | fail => exact ⟨h.working, h.saved⟩
  | execute _ stmt hf he hc => exact h.execute (hrec stmt tx he hc htx)

/-- **What a `COMMIT` does to the tables outside its write set.**  Let `pid` begin a block in the
state `s` and commit it after the events `es`, and let its own statements record what they write.
Then the `COMMIT` leaves every table outside the write set as it is in the shared database if and
only if all these tables still have there the contents they had at `BEGIN`. -/
theorem commit_keeps_unwritten_iff (w : Engine τ ρ) (s : Server τ ρ) (pid : Pid)
    (isolation : Option IsolationLevel) (readOnly : Option Bool) (es : List Event)
    (tx : Transaction τ ρ) (hidle : (s.sessions pid).running = none)
    (hout : (s.sessions pid).tx = none)
    (hopen : Always (step w) (StaysOpen w pid)
      (s.step w (.start pid (.begin isolation readOnly))) es)
    (hrec : Always (step w) (RecordsWrites w pid)
      (s.step w (.start pid (.begin isolation readOnly))) es)
    (hcommit : Commits (run (step w) s (.start pid (.begin isolation readOnly) :: es)) pid tx) :
    let before := run (step w) s (.start pid (.begin isolation readOnly) :: es)
    let after := before.step w (.start pid .commit)
    (∀ x, x ∉ tx.writeSet → after.db.store.tables x = before.db.store.tables x) ↔
      ∀ x, x ∉ tx.writeSet → before.db.store.tables x = s.db.store.tables x := by
  intro before after
  obtain ⟨level, ro, hbegin, -⟩ := begin_opens (w := w) hidle hout isolation readOnly
  obtain ⟨tx', htx', hun⟩ := open_block_induction hopen hrec
    (P := Untouched s.db.store.tables)
    ⟨_, hbegin, ⟨fun x _ => rfl, fun sp hsp => by simp [Transaction.start] at hsp⟩⟩
    fun s e tx tx' hpid hC htx hb h => h.blockStep hpid hC htx hb
  obtain rfl : tx' = tx := Option.some.inj (htx'.symm.trans hcommit.tx_eq)
  have hafter : after.db = (tx'.db.adoptCommitState before.db).recordCommit tx'.writeSet :=
    hcommit.publishes.db_step
  rw [hafter, Database.store_recordCommit, Database.store_adoptCommitState]
  constructor
  · intro h x hx
    rw [← h x hx, hun.working x hx]
  · intro h x hx
    rw [h x hx, hun.working x hx]

/-- One session inserts into `t` in a block while another inserts into `u` before it begins. -/
theorem commit_keeps_unwritten_insert :
    let s := run (step tinyEngine) (init tinyDatabase none) [.start 2 (insertInto "u" [[.int 5]])]
    let before := run (step tinyEngine) s
      [.start 1 (.begin (some .repeatableRead) none), .start 1 (insertInto "t" [[.int 7]])]
    let after := before.step tinyEngine (.start 1 .commit)
    after.db.store.tables "u" = before.db.store.tables "u" := by
  intro s before after
  refine (commit_keeps_unwritten_iff tinyEngine s 1 (some .repeatableRead) none
    [.start 1 (insertInto "t" [[.int 7]])] _ rfl rfl ⟨rfl, trivial⟩ ⟨?_, trivial⟩
    ⟨rfl, rfl, rfl, rfl⟩).2 ?_ "u" ?_
  · rintro stmt tx hstmt - htx x hx
    cases hstmt
    simp only [Server.resolve, insertInto, recordedTables, tinyEngine] at hx ⊢
    cases ht : tx.db.store.tables "t" with
    | none => rfl
    | some rows =>
      have hx : x ≠ "t" := by
        simpa [ht, insertInts, intRows, Statement.isMutation, Statement.mutatedTables] using hx
      simp [insertInts, intRows, hx]
  · exact fun x _ => rfl
  · decide

/-- A transaction that only reads reverts the table another session has written in the meantime. -/
theorem commit_reverts_autocommit :
    let before := run (step tinyEngine) (init tinyDatabase none)
      [.start 1 (.begin (some .repeatableRead) none), .start 2 (insertInto "t" [[.int 7]])]
    let after := before.step tinyEngine (.start 1 .commit)
    (∃ tx, Commits before 1 tx ∧ "t" ∉ tx.writeSet) ∧
      before.db.store.tables "t" = some [7] ∧ after.db.store.tables "t" = some [] := by
  refine ⟨⟨_, ⟨rfl, rfl, rfl, rfl⟩, ?_⟩, ?_, ?_⟩
  · decide
  · decide
  · decide

/-! ## Tables inside the write set -/

/-- A step neither takes back a commit nor unstamps a table. -/
theorem versions_step (w : Engine τ ρ) (s : Server τ ρ) (e : Event) :
    s.db.commitVersion ≤ (s.step w e).db.commitVersion ∧
      ∀ x, s.db.tableVersion x ≤ (s.step w e).db.tableVersion x := by
  rcases db_step_cases w s e with h | ⟨tx, db, gid, -, -, -, hpub, h⟩ | ⟨stmt, -, -, -, h⟩
  · rw [h]
    exact ⟨Nat.le_refl _, fun x => Nat.le_refl _⟩
  · have hdb : db = (tx.db.adoptCommitState s.db).recordCommit tx.writeSet := by
      unfold Transaction.publish at hpub
      split at hpub
      · simp at hpub
      · exact (Option.some.inj hpub).symm
    rw [h, hdb]
    refine ⟨Nat.le_succ _, fun x => ?_⟩
    have := s.db.tableVersion_le x
    simp only [Database.recordCommit, Database.adoptCommitState]
    split <;> omega
  · rw [h]
    exact ⟨Nat.le_refl _, fun x => Nat.le_refl _⟩

theorem tableVersion_run (w : Engine τ ρ) (s : Server τ ρ) (es : List Event) (x : String) :
    s.db.tableVersion x ≤ (run (step w) s es).db.tableVersion x :=
  run_induction (I := fun s' => s.db.tableVersion x ≤ s'.db.tableVersion x) es (Nat.le_refl _)
    fun s' e h => h.trans ((versions_step w s' e).2 x)

/-- The step changes the contents of the table `x` in the shared database. -/
def Changes (w : Engine τ ρ) (s : Server τ ρ) (e : Event) (x : String) : Prop :=
  (s.step w e).db.store.tables x ≠ s.db.store.tables x

/-- A step of another session that changes a table of `ws` is the publication of a transaction with
this table in its own write set. -/
def ChangesStamped (w : Engine τ ρ) (pid : Pid) (ws : Finset String) (s : Server τ ρ)
    (e : Event) : Prop :=
  e.pid ≠ pid → ∀ x ∈ ws, Changes w s e x → ∃ tx, Publishes s e tx ∧ x ∈ tx.writeSet

/-- A step of another session changes no table of `ws`. -/
def LeavesAlone (w : Engine τ ρ) (pid : Pid) (ws : Finset String) (s : Server τ ρ)
    (e : Event) : Prop :=
  e.pid ≠ pid → ∀ x ∈ ws, ¬ Changes w s e x

/-- A change that leaves a stamp is later than every snapshot taken before it, so a block that still
sees no newer stamp on its tables saw no such change. -/
theorem leavesAlone_of_stamped {ws : Finset String} (snapshot : Nat)
    (hsnap : snapshot ≤ s.db.commitVersion) (hst : Always (step w) (ChangesStamped w pid ws) s es)
    (hfresh : ∀ x ∈ ws, (run (step w) s es).db.tableVersion x ≤ snapshot) :
    Always (step w) (LeavesAlone w pid ws) s es := by
  induction es generalizing s with
  | nil => trivial
  | cons e es ih =>
    refine ⟨fun hpid x hx hch => ?_, ih (hsnap.trans (versions_step w s e).1) hst.2 hfresh⟩
    obtain ⟨tx, hpub, hxw⟩ := hst.1 hpid x hx hch
    have hstamp : (s.step w e).db.tableVersion x = s.db.commitVersion + 1 := by
      simp [hpub.db_step, Database.recordCommit, Database.adoptCommitState, hxw]
    have hmono := tableVersion_run w (s.step w e) es x
    have hend := hfresh x hx
    rw [run_cons] at hend
    omega

theorem Transaction.snapshotVersion_blockStep (hb : BlockStep w s e (some tx) (some tx')) :
    tx'.snapshotVersion = tx.snapshotVersion := by
  cases hb with
  | same | savepoint | fail => rfl
  | setMode _ isolation readOnly => cases isolation <;> cases readOnly <;> rfl
  | release _ _ name hr =>
    obtain ⟨pos, rfl⟩ := releaseSavepoint_eq hr
    rfl
  | rollbackTo _ _ name hr =>
    obtain ⟨pos, sp, hsp, rfl⟩ := rollbackTo_eq hr
    rfl
  | execute _ stmt =>
    unfold Transaction.execute
    dsimp only
    split
    · split <;> rfl
    · rfl

/-- **First committer wins.**  Let `pid` begin a block in the state `s` and commit it, at
`REPEATABLE READ` or `SERIALIZABLE`, after the events `es`.  Then no other session changed a table
of its write set in between if and only if every such change was the publication of a transaction
with the table in its own write set. -/
theorem first_committer_wins_iff (w : Engine τ ρ) (s : Server τ ρ) (pid : Pid)
    (isolation : Option IsolationLevel) (readOnly : Option Bool) (es : List Event)
    (tx : Transaction τ ρ) (hidle : (s.sessions pid).running = none)
    (hout : (s.sessions pid).tx = none)
    (hopen : Always (step w) (StaysOpen w pid)
      (s.step w (.start pid (.begin isolation readOnly))) es)
    (hcommit : Commits (run (step w) s (.start pid (.begin isolation readOnly) :: es)) pid tx)
    (hser : tx.serializing = true) :
    Always (step w) (LeavesAlone w pid tx.writeSet)
        (s.step w (.start pid (.begin isolation readOnly))) es ↔
      Always (step w) (ChangesStamped w pid tx.writeSet)
        (s.step w (.start pid (.begin isolation readOnly))) es := by
  constructor
  · exact fun h => h.mono fun s e hl hpid x hx hch => absurd hch (hl hpid x hx)
  intro hst
  obtain ⟨level, ro, hbegin, hdb⟩ := begin_opens (w := w) hidle hout isolation readOnly
  obtain ⟨tx', htx', hsnap⟩ := open_block_induction hopen hopen
    (P := fun tx => tx.snapshotVersion = s.db.commitVersion) ⟨_, hbegin, rfl⟩
    fun s e tx tx' _ _ _ hb h => (snapshotVersion_blockStep hb).trans h
  obtain rfl : tx' = tx := Option.some.inj (htx'.symm.trans hcommit.tx_eq)
  refine leavesAlone_of_stamped tx'.snapshotVersion (by rw [hdb, hsnap]) hst ?_
  -- The `COMMIT` found no stamp later than its snapshot.
  have hno := hcommit.no_conflict
  simp only [hser, Bool.true_and, Database.hasConflictingCommit, decide_eq_false_iff_not] at hno
  intro x hx
  by_contra hlt
  exact hno ⟨x, hx, Nat.lt_of_not_le hlt⟩

/-- Two sessions write different tables, one of them in a block. -/
theorem first_committer_wins_disjoint :
    let begun := (init tinyDatabase none).step tinyEngine
      (.start 1 (.begin (some .repeatableRead) none))
    let es : List Event :=
      [.start 1 (insertInto "t" [[.int 7]]), .start 2 (insertInto "u" [[.int 9]])]
    ∃ tx, Commits (run (step tinyEngine) begun es) 1 tx ∧ "t" ∈ tx.writeSet ∧
      Always (step tinyEngine) (LeavesAlone tinyEngine 1 tx.writeSet) begun es := by
  intro begun es
  refine ⟨_, ⟨rfl, rfl, rfl, rfl⟩, by decide,
    (first_committer_wins_iff tinyEngine (init tinyDatabase none) 1 (some .repeatableRead) none es _
      rfl rfl ⟨rfl, rfl, trivial⟩ ⟨rfl, rfl, rfl, rfl⟩ rfl).2 ⟨fun h => absurd rfl h, ?_, trivial⟩⟩
  intro _ x hx hch
  obtain rfl : x = "t" := by
    simpa [insertInto, Statement.mutatedTables, Transaction.start] using hx
  exact absurd (by decide) hch

/-- An autocommit `INSERT` leaves no stamp: the `COMMIT` of a transaction that wrote the same table
succeeds, and the row is gone. -/
theorem autocommit_leaves_no_stamp :
    let written := run (step tinyEngine) (init tinyDatabase none)
      [.start 1 (.begin (some .serializable) none), .start 1 (insertInto "t" [[.int 7]])]
    let before := written.step tinyEngine (.start 2 (insertInto "t" [[.int 9]]))
    (∃ tx, Commits before 1 tx ∧ tx.serializing = true ∧ "t" ∈ tx.writeSet) ∧
      Changes tinyEngine written (.start 2 (insertInto "t" [[.int 9]])) "t" ∧
      (before.step tinyEngine (.start 1 .commit)).db.store.tables "t" = some [7] := by
  refine ⟨⟨_, ⟨rfl, rfl, rfl, rfl⟩, rfl, ?_⟩, ?_, ?_⟩
  · decide
  · unfold Changes
    decide
  · decide

end PostgresRs
