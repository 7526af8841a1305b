import PostgresRs.Server.Isolation

/-!
# What a transaction publishes

The log gets the buffered changes of a block, and the shared database gets its working copy; the two
should say the same.  The invariant `Logged` ties them together: as long as the block has not
failed, the working copy is what the buffered statements make of the snapshot at `BEGIN`, and every
savepoint is what the statements buffered before it make of it.

A failed statement may leave the working copy half changed, and from then on only `ROLLBACK TO`
makes the block usable again.  It returns to the copy in a savepoint, so all is well if that copy
was taken before the failure.  But `SAVEPOINT` is accepted in a failed block too, and keeps the half
changed copy: `savepoint_after_failure` publishes it.  `SET TRANSACTION` is the other statement that
changes the working copy and is not buffered.  Without these two, `COMMIT` publishes what it logs
(`publishes_logged`).
-/

namespace PostgresRs

open Machine Server List

variable {τ ρ : Type} {w : Engine τ ρ} {s : Server τ ρ} {pid : Pid}

/-- The contents after executing statements in order, if all of them succeed. -/
def executeAll (w : Engine τ ρ) (st : Store τ ρ) : List Statement → Option (Store τ ρ)
  | [] => some st
  | stmt :: stmts =>
    match (w.execute st stmt).2 with
    | .ok _ => executeAll w (w.execute st stmt).1 stmts
    | .error _ => none

theorem executeAll_append {st st' : Store τ ρ} {stmts stmts' : List Statement}
    (h : executeAll w st stmts = some st') :
    executeAll w st (stmts ++ stmts') = executeAll w st' stmts' := by
  induction stmts generalizing st with
  | nil =>
    obtain rfl : st = st' := Option.some.inj h
    rfl
  | cons stmt stmts ih =>
    simp only [cons_append, executeAll] at h ⊢
    split at h
    · exact ih h
    · simp at h

/-- Statements with the texts `texts`, executed in order on `base`, all succeed and lead to `st`. -/
def Replays (w : Engine τ ρ) (base : Store τ ρ) (texts : List String) (st : Store τ ρ) : Prop :=
  ∃ stmts, stmts.map w.statementToSql = texts ∧ executeAll w base stmts = some st

theorem Replays.push {base st : Store τ ρ} {texts : List String} {stmt : Statement} {r : ExecResult}
    (h : Replays w base texts st) (hr : (w.execute st stmt).2 = .ok r) :
    Replays w base (texts ++ [w.statementToSql stmt]) (w.execute st stmt).1 := by
  obtain ⟨stmts, rfl, hst⟩ := h
  refine ⟨stmts ++ [stmt], by simp, ?_⟩
  rw [executeAll_append hst]
  simp [executeAll, hr]

/-- The working copy of a block that has not failed, and the copies in its savepoints, are what the
statements buffered so far make of `base`. -/
structure Logged (w : Engine τ ρ) (base : Store τ ρ) (tx : Transaction τ ρ) : Prop where
  working : tx.failed = false → Replays w base tx.buffered tx.db.store
  saved : ∀ sp ∈ tx.savepoints, sp.bufferedLen ≤ tx.buffered.length ∧
    Replays w base (tx.buffered.take sp.bufferedLen) sp.db.store
  /-- Later savepoints have more buffered before them. -/
  ordered : tx.savepoints.Pairwise fun a b => a.bufferedLen ≤ b.bufferedLen

/-- No savepoint is set in the failed block of `pid`, and its mode is not changed. -/
def CleanBlock (pid : Pid) (s : Server τ ρ) (e : Event) : Prop :=
  ∀ tx, (s.sessions pid).tx = some tx →
    (∀ name, e = .start pid (.savepoint name) → tx.failed = false) ∧
      ∀ isolation readOnly, e ≠ .start pid (.setTransaction isolation readOnly false)

namespace Logged

variable {base : Store τ ρ} {tx : Transaction τ ρ}

theorem start (w : Engine τ ρ) (db : Database τ ρ) (level : IsolationLevel) (ro : Bool) :
    Logged w (Transaction.start db level ro).db.store (.start db level ro) :=
  ⟨fun _ => ⟨[], rfl, rfl⟩, by simp [Transaction.start], by simp [Transaction.start]⟩

variable (h : Logged w base tx)
include h

theorem savepoint (hf : tx.failed = false) (name : String) : Logged w base (tx.savepoint name) := by
  refine ⟨h.working, fun sp hsp => ?_, ?_⟩
  · rcases mem_append.1 hsp with hsp | hsp
    · exact h.saved sp (mem_filter.1 hsp).1
    · obtain rfl := mem_singleton.1 hsp
      refine ⟨Nat.le_refl _, ?_⟩
      simpa [Transaction.savepoint] using h.working hf
  · refine pairwise_append.2 ⟨h.ordered.sublist filter_sublist, by simp, ?_⟩
    intro sp hsp sp' hsp'
    obtain rfl := mem_singleton.1 hsp'
    exact (h.saved sp (mem_filter.1 hsp).1).1

theorem rollbackTo {pos : Nat} {sp : Savepoint τ ρ} (hsp : tx.savepoints[pos]? = some sp) :
    Logged w base { tx with
      db := sp.db
      buffered := tx.buffered.take sp.bufferedLen
      writeSet := sp.writeSet
      savepoints := tx.savepoints.take (pos + 1)
      failed := false } := by
  have hsaved := h.saved sp (mem_of_getElem? hsp)
  -- The savepoints that stay were set before this one.
  have hbefore : ∀ sp' ∈ tx.savepoints.take (pos + 1), sp'.bufferedLen ≤ sp.bufferedLen := by
    intro sp' hsp'
    obtain ⟨i, hi, rfl⟩ := mem_iff_getElem.1 hsp'
    obtain ⟨hpos, rfl⟩ := List.getElem?_eq_some_iff.1 hsp
    simp only [length_take] at hi
    rw [getElem_take]
    rcases Nat.lt_or_ge i pos with hlt | hge
    · exact pairwise_iff_getElem.1 h.ordered i pos (by omega) hpos hlt
    · have : i = pos := by omega
      subst this
      exact Nat.le_refl _
  refine ⟨fun _ => hsaved.2, fun sp' hsp' => ?_, h.ordered.sublist (take_sublist _ _)⟩
  have hle := hbefore sp' hsp'
  have hold := h.saved sp' (mem_of_mem_take hsp')
  refine ⟨by simp only [length_take]; omega, ?_⟩
  simpa only [take_take, Nat.min_eq_left hle] using hold.2

theorem execute (hid : ∀ st stmt r, stmt.isMutation = false → (w.execute st stmt).2 = .ok r →
      (w.execute st stmt).1 = st) (hf : tx.failed = false) (stmt : Statement) :
    Logged w base (tx.execute w stmt).1 := by
  have hwork := h.working hf
  unfold Transaction.execute
  cases hr : (w.execute tx.db.store stmt).2 with
  | error m =>
    simp only [hr]
    exact ⟨fun hff => by simp [Transaction.fail] at hff, h.saved, h.ordered⟩
  | ok r =>
    simp only [hr]
    cases hm : stmt.isMutation with
    | true =>
      simp only [if_true]
      refine ⟨fun _ => hwork.push hr, fun sp hsp => ?_, h.ordered⟩
      obtain ⟨hle, hrep⟩ := h.saved sp hsp
      refine ⟨by simp only [length_append]; omega, ?_⟩
      rwa [take_append_of_le_length hle]
    | false =>
      refine ⟨fun _ => ?_, h.saved, h.ordered⟩
      rw [hid _ _ _ hm hr]
      exact hwork

theorem blockStep (hid : ∀ st stmt r, stmt.isMutation = false → (w.execute st stmt).2 = .ok r →
      (w.execute st stmt).1 = st) {e : Event} {tx' : Transaction τ ρ}
    (hpid : e.pid = pid) (hclean : CleanBlock pid s e) (htx : (s.sessions pid).tx = some tx)
    (hb : BlockStep w s e (some tx) (some tx')) : Logged w base tx' := by
  subst hpid
  obtain ⟨hsave, hmode⟩ := hclean tx htx
  cases hb with
  | same => exact h
  | setMode _ isolation readOnly he => exact absurd he (hmode isolation readOnly)
  | savepoint _ name he => exact h.savepoint (hsave name he) name
  | release _ _ name hr =>
    obtain ⟨pos, rfl⟩ := Transaction.releaseSavepoint_eq hr
    exact ⟨h.working, fun sp hsp => h.saved sp (mem_of_mem_take hsp),
      h.ordered.sublist (take_sublist _ _)⟩
  | rollbackTo _ _ name hr =>
    obtain ⟨pos, sp, hsp, rfl⟩ := Transaction.rollbackTo_eq hr
    exact h.rollbackTo hsp
  | fail => exact ⟨fun hf => by simp [Transaction.fail] at hf, h.saved, h.ordered⟩
  | execute _ stmt hf => exact h.execute hid hf _

end Logged

/-- **`COMMIT` publishes what it logs.**  Let statements that change nothing leave the contents
alone.  If `pid` begins a block in the state `s` and commits it after the events `es`, and in between
sets no savepoint in a failed block and does not change the block's mode, then the published contents
are those that the buffered statements, executed in order, make of the snapshot at `BEGIN`. -/
theorem publishes_logged (w : Engine τ ρ)
    (hid : ∀ st stmt r, stmt.isMutation = false → (w.execute st stmt).2 = .ok r →
      (w.execute st stmt).1 = st)
    (s : Server τ ρ) (pid : Pid) (isolation : Option IsolationLevel) (readOnly : Option Bool)
    (es : List Event) (snapshot tx : Transaction τ ρ)
    (hidle : (s.sessions pid).running = none) (hout : (s.sessions pid).tx = none)
    (hbegin : ((s.step w (.start pid (.begin isolation readOnly))).sessions pid).tx = some snapshot)
    (hopen : Always (step w) (StaysOpen w pid)
      (s.step w (.start pid (.begin isolation readOnly))) es)
    (hclean : Always (step w) (CleanBlock pid)
      (s.step w (.start pid (.begin isolation readOnly))) es)
    (hcommit : Commits (run (step w) s (.start pid (.begin isolation readOnly) :: es)) pid tx) :
    let before := run (step w) s (.start pid (.begin isolation readOnly) :: es)
    Replays w snapshot.db.store tx.buffered (before.step w (.start pid .commit)).db.store := by
  intro before
  obtain ⟨level, ro, hstart, -⟩ := begin_opens (w := w) hidle hout isolation readOnly
  obtain rfl : snapshot = .start s.db level ro := Option.some.inj (hbegin.symm.trans hstart)
  obtain ⟨tx', htx', hlog⟩ := open_block_induction hopen hclean
    (P := Logged w (Transaction.start s.db level ro).db.store) ⟨_, hstart, .start w s.db level ro⟩
    fun s e tx tx' hpid hC htx hb h => h.blockStep hid hpid hC htx hb
  obtain rfl : tx' = tx := Option.some.inj (htx'.symm.trans hcommit.tx_eq)
  rw [hcommit.publishes.db_step]
  exact hlog.working hcommit.not_failed

/-- A block with a failed statement that is rolled back to a savepoint set before it. -/
theorem publishes_logged_savepoint :
    Replays tinyEngine (Transaction.start tinyDatabase .readCommitted false).db.store
      ["INSERT INTO t"]
      ((run (step tinyEngine) (init tinyDatabase none)
        [.start 1 (.begin none none), .start 1 (insertInto "t" [[.int 7]]),
          .start 1 (.savepoint "a"), .start 1 (insertInto "p" [[.int 5], [.int 20]]),
          .start 1 (.rollbackToSavepoint "a")]).step tinyEngine (.start 1 .commit)).db.store := by
  refine publishes_logged tinyEngine (fun _ stmt _ hm _ => ?_) (init tinyDatabase none) 1 none none
    [.start 1 (insertInto "t" [[.int 7]]), .start 1 (.savepoint "a"),
      .start 1 (insertInto "p" [[.int 5], [.int 20]]), .start 1 (.rollbackToSavepoint "a")] _ _
    rfl rfl rfl ⟨rfl, rfl, rfl, rfl, trivial⟩ ⟨?_, ?_, ?_, ?_, trivial⟩ ⟨rfl, rfl, rfl, rfl⟩
  · cases stmt with
    | insert i => simp [Statement.isMutation] at hm
    | _ => rfl
  all_goals
    intro tx htx
    cases htx
    exact ⟨fun _ h => by cases h <;> rfl, fun _ _ h => by cases h⟩

/-- An `INSERT` into a partitioned table stores its first row and fails at the second; `SAVEPOINT`
keeps the row although the block has failed, `ROLLBACK TO` makes the block usable, and `COMMIT`
publishes the row with nothing in the log. -/
theorem savepoint_after_failure :
    let before := run (step tinyEngine) (init tinyDatabase none)
      [.start 1 (.begin none none), .start 1 (insertInto "p" [[.int 5], [.int 20]]),
        .start 1 (.savepoint "a"), .start 1 (.rollbackToSavepoint "a")]
    (∃ tx, Commits before 1 tx ∧ tx.buffered = []) ∧ before.db.store.tables "p0" = some [] ∧
      (before.step tinyEngine (.start 1 .commit)).db.store.tables "p0" = some [5] := by
  refine ⟨⟨_, ⟨rfl, rfl, rfl, rfl⟩, ?_⟩, ?_, ?_⟩
  · decide
  · decide
  · decide

end PostgresRs
