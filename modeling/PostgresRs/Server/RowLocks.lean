import PostgresRs.Lock.Safety
import PostgresRs.Server.LockLifetime

/-!
# Row locks

`SELECT ... FOR UPDATE | SHARE` locks the rows it returns.  The object locked for a row is the table
with a key made of the texts of the *projected* values, so two statements that show one stored row
in different columns lock different objects.

Which stored row a row of a result shows is given from outside, by `shows`.  The server is run with
a record (`Showing`) of what the locking statement of every session shows and of the stored rows
that the statements of its open block have returned.

* `Excludes` — a locking statement does not complete with a stored row that another session's open
  block has returned in a conflicting mode.
* `OneKey` — the object locked for a stored row is the same in all statements.
* `rows_excluded` — under `OneKey` the locks exclude, as long as no session with locks has a request
  refused.
-/

namespace PostgresRs

open Machine Server List LockManager

variable {τ ρ ι : Type}

/-! ## What is returned -/

variable (w : Engine τ ρ)

/-- The query whose rows the event starts to lock. -/
def Server.lockingQuery (s : Server τ ρ) : Event → Option Select
  | .start pid stmt =>
    if (s.sessions pid).running.isNone then
      match s.resolve w pid stmt with
      | .select select => if select.locking.isEmpty then none else some select
      | _ => none
    else none
  | _ => none

/-- The mode and the rows with which the event completes a locking statement. -/
def Server.completed (s : Server τ ρ) (e : Event) : Option (LockMode × List (List Value)) :=
  match (s.sessions e.pid).running, ((s.step w e).sessions e.pid).running,
    ((s.step w e).sessions e.pid).result with
  | some (.lockingRows rl), none, some (.ok (.rows _ rows _)) => some (rl.mode, rows)
  | _, _, _ => none

/-- The server, with what the rows of the running locking statement of a session show, and the
stored rows returned by the statements of its open block. -/
structure Showing (τ ρ ι : Type) where
  server : Server τ ρ
  labels : Pid → ι → List Value → Prop
  returned : Pid → ι → LockMode → Prop

namespace Showing

variable (w : Engine τ ρ) (shows : Store τ ρ → Select → ι → List Value → Prop)

def step (g : Showing τ ρ ι) (e : Event) : Showing τ ρ ι where
  server := g.server.step w e
  labels := Function.update g.labels e.pid <|
    match g.server.lockingQuery w e with
    | some select => shows (g.server.view e.pid) select
    | none => g.labels e.pid
  returned := Function.update g.returned e.pid fun i mode =>
    ((g.server.step w e).sessions e.pid).tx.isSome ∧
      (g.returned e.pid i mode ∨
        ∃ rows, g.server.completed w e = some (mode, rows) ∧ ∃ row ∈ rows, g.labels e.pid i row)

/-- Before any session. -/
def init (db : Database τ ρ) (wal : Option (List String)) : Showing τ ρ ι :=
  ⟨.init db wal, fun _ _ _ => False, fun _ _ _ => False⟩

end Showing

/-- If the event completes a locking statement, then with no stored row that another session's open
block has returned in a conflicting mode. -/
def Excludes (g : Showing τ ρ ι) (e : Event) : Prop :=
  ∀ mode rows, g.server.completed w e = some (mode, rows) →
    ∀ row ∈ rows, ∀ i, g.labels e.pid i row →
      ∀ q, q ≠ e.pid → ∀ mode', g.returned q i mode' → mode'.conflictsWith mode = false

/-! ## When it holds -/

/-- Every row that the locking statement started by the event selects, and that shows the stored row
`i`, is locked under `keyOf i`. -/
def OneKey (shows : Store τ ρ → Select → ι → List Value → Prop)
    (keyOf : ι → LockObject) (s : Server τ ρ) (e : Event) : Prop :=
  ∀ select target fields rows tag, s.lockingQuery w e = some select →
    select.lockTarget = some target →
    (w.execute (s.view e.pid) (.select select)).2 = .ok (.rows fields rows tag) →
    ∀ row ∈ rows, ∀ i, shows (s.view e.pid) select i row →
      LockObject.row target (rowKey w.toText row) = keyOf i

/-- A request is refused only to a session without locks. -/
def NotRefused (s : Server τ ρ) (e : Event) : Prop :=
  ∀ obj mode nowait, (s.sessions e.pid).Wants w obj mode nowait →
    (s.sessions e.pid).skipsLocked = false → Refused s e.pid obj mode nowait →
      ∀ o, ¬s.locks.Records e.pid o

/-! ## Holders of a row -/

/-- The modes in which rows are locked. -/
def LockMode.IsRow (mode : LockMode) : Prop := mode = .share ∨ mode = .exclusive

theorem Select.isRow_lockMode (select : Select) : select.lockMode.IsRow := by
  rw [Select.lockMode]
  split
  · exact .inr rfl
  · exact .inl rfl

/-- Of two modes for rows the greater one conflicts with all that the other one does. -/
theorem LockMode.IsRow.conflictsWith {a b a' b' : LockMode} (ha : a.IsRow) (hb : b.IsRow)
    (ha' : a'.IsRow) (hb' : b'.IsRow) (hle : a.index ≤ a'.index) (hle' : b.index ≤ b'.index)
    (h : a'.conflictsWith b' = false) : a.conflictsWith b = false := by
  revert hle hle' h
  rcases ha with rfl | rfl <;> rcases hb with rfl | rfl <;> rcases ha' with rfl | rfl <;>
    rcases hb' with rfl | rfl <;> decide

variable {lm' : LockManager}

namespace LockManager

variable {lm : LockManager} {pid q : Pid} {obj o : LockObject} {mode m : LockMode}

/-- `pid` holds `o` in `mode` or a greater one. -/
def HeldIn (lm : LockManager) (pid : Pid) (o : LockObject) (mode : LockMode) : Prop :=
  ∃ h ∈ (lm.state o).holders, h.pid = pid ∧ mode.index ≤ h.mode.index

theorem HeldIn.records (h : lm.HeldIn pid o mode) : lm.Records pid o := by
  obtain ⟨k, hk, hpid, -⟩ := h
  exact ⟨k, hk, hpid⟩

theorem HeldIn.of_holders (h : ∀ o, (lm'.state o).holders = (lm.state o).holders)
    (hheld : lm.HeldIn q o m) : lm'.HeldIn q o m := by
  rw [HeldIn, h o]
  exact hheld

theorem heldIn_releaseAll (hq : q ≠ pid) (h : lm.HeldIn q o m) :
    (lm.releaseAll pid).HeldIn q o m := by
  obtain ⟨k, hk, rfl, hle⟩ := h
  refine ⟨k, ?_, rfl, hle⟩
  rw [state_releaseAll]
  exact mem_filter.mpr ⟨hk, by simpa using hq⟩

/-- An entry keeps its owner and does not lose in mode. -/
theorem exists_mem_upgradeHolder (pid : Pid) (mode : LockMode) {hs : List Holder} {k : Holder}
    (hk : k ∈ hs) :
    ∃ k' ∈ upgradeHolder pid mode hs, k'.pid = k.pid ∧ k.mode.index ≤ k'.mode.index := by
  obtain ⟨-, he⟩ | ⟨before, old, after, new, rfl, he, -, -, hle⟩ := upgradeHolder_cases pid mode hs
  · exact ⟨k, by simp [he, hk], rfl, Nat.le_refl _⟩
  · rw [mem_append, mem_cons] at hk
    rcases hk with hk | rfl | hk
    · exact ⟨k, by simp [he, hk], rfl, Nat.le_refl _⟩
    · exact ⟨⟨pid, new⟩, by simp [he], rfl, hle⟩
    · exact ⟨k, by simp [he, hk], rfl, Nat.le_refl _⟩

theorem heldIn_grant_of (h : lm.HeldIn q o m) : (lm.grant pid obj mode).HeldIn q o m := by
  obtain ⟨k, hk, rfl, hle⟩ := h
  rw [HeldIn, state_grant]
  split
  · obtain ⟨k', hk', hpid, hle'⟩ := exists_mem_upgradeHolder pid mode hk
    exact ⟨k', hk', hpid, hle.trans hle'⟩
  · exact ⟨k, hk, rfl, hle⟩

theorem heldIn_grant : (lm.grant pid obj mode).HeldIn pid obj mode := by
  rw [HeldIn, state_grant, if_pos rfl]
  exact exists_le_upgradeHolder _

/-- The holders of every row are in modes for rows, and no two of them conflict. -/
structure RowsCompatible (lm : LockManager) : Prop where
  isRow : ∀ t k, ∀ h ∈ (lm.state (.row t k)).holders, h.mode.IsRow
  compatible : ∀ t k, ∀ h ∈ (lm.state (.row t k)).holders, ∀ h' ∈ (lm.state (.row t k)).holders,
    h.pid ≠ h'.pid → h.mode.conflictsWith h'.mode = false

theorem RowsCompatible.new : RowsCompatible new := by
  constructor
  · intro t k h hh
    rw [state_new] at hh
    cases hh
  · intro t k h hh
    rw [state_new] at hh
    cases hh

theorem RowsCompatible.of_subset (h : lm.RowsCompatible)
    (hsub : ∀ o, (lm'.state o).holders ⊆ (lm.state o).holders) : lm'.RowsCompatible :=
  ⟨fun t k h' hh => h.isRow t k h' (hsub _ hh),
    fun t k h₁ h₁m h₂ h₂m => h.compatible t k h₁ (hsub _ h₁m) h₂ (hsub _ h₂m)⟩

/-- A grant of a table changes no row. -/
theorem RowsCompatible.grant_table (h : lm.RowsCompatible) (t : String) :
    (lm.grant pid (.table t) mode).RowsCompatible := by
  have hsame : ∀ t' k, (lm.grant pid (.table t) mode).state (.row t' k) = lm.state (.row t' k) :=
    fun t' k => by rw [state_grant, if_neg (by simp)]
  constructor
  · intro t' k
    rw [hsame]
    exact h.isRow t' k
  · intro t' k
    rw [hsame]
    exact h.compatible t' k

/-- A grant without a conflict keeps the holders of the rows compatible. -/
theorem RowsCompatible.grant (h : lm.RowsCompatible) (hm : mode.IsRow)
    (hfree : lm.conflicting pid obj mode = []) : (lm.grant pid obj mode).RowsCompatible := by
  have hno : ∀ k ∈ (lm.state obj).holders, k.pid ≠ pid → k.mode.conflictsWith mode = false := by
    intro k hk hne
    by_contra hc
    have : k.pid ∈ lm.conflicting pid obj mode :=
      mem_conflicting.mpr ⟨hne, k, hk, rfl, by simpa using hc⟩
    rw [hfree] at this
    cases this
  have hmem : ∀ o, ∀ k ∈ ((lm.grant pid obj mode).state o).holders,
      k ∈ (lm.state o).holders ∨ o = obj ∧ k.pid = pid ∧ k.mode = mode := by
    intro o k hk
    rw [state_grant] at hk
    split at hk
    · next ho =>
      rcases mem_upgradeHolder hk with rfl | hk
      · exact .inr ⟨ho, rfl, rfl⟩
      · exact .inl hk
    · exact .inl hk
  constructor
  · intro t k h' hh
    rcases hmem _ h' hh with hh | ⟨-, -, hmode⟩
    · exact h.isRow t k h' hh
    · rw [hmode]
      exact hm
  · intro t k h₁ hh₁ h₂ hh₂ hne
    rcases hmem _ h₁ hh₁ with hold₁ | ⟨ho, hp₁, hm₁⟩
    · rcases hmem _ h₂ hh₂ with hold₂ | ⟨ho, hp₂, hm₂⟩
      · exact h.compatible t k h₁ hold₁ h₂ hold₂ hne
      · rw [hm₂]
        exact hno h₁ (ho ▸ hold₁) (hp₂ ▸ hne)
    · rcases hmem _ h₂ hh₂ with hold₂ | ⟨-, hp₂, -⟩
      · rw [hm₁, LockMode.conflictsWith_comm]
        exact hno h₂ (ho ▸ hold₂) (hp₁ ▸ hne.symm)
      · exact absurd (hp₁.trans hp₂.symm) hne

end LockManager

/-! ## The steps of a locking statement -/

variable {row : List Value} {n : Running}

section

variable {w : Engine τ ρ} {s : Server τ ρ} {e : Event} {pid : Pid} {sess : Session τ ρ}
  {rl rl' : RowLocking}

theorem running_lockRows : ((s.lockRows pid sess rl).sessions pid).running =
    if rl.rows = [] then none else some (.lockingRows rl) := by
  rw [Server.lockRows]
  split
  · next h => rw [if_pos h, Server.reply, sessions_set_self]
  · next h => rw [if_neg (by rw [h]; simp), Server.pause, sessions_set_self]

@[simp] theorem locks_lockRows : (s.lockRows pid sess rl).locks = s.locks := by
  rw [Server.lockRows]
  split <;> rfl

theorem result_execute (tx : Transaction τ ρ) (stmt : Statement) :
    (tx.execute w stmt).2 = (w.execute tx.db.store stmt).2 := by
  rw [Transaction.execute]
  rcases w.execute tx.db.store stmt with ⟨store, _ | r⟩
  · rfl
  · dsimp only
    split <;> rfl

theorem result_executeAutocommit (stmt : Statement) :
    (s.executeAutocommit w stmt).2 = (w.execute s.db.store stmt).2 := by
  rw [Server.executeAutocommit]
  rcases w.execute s.db.store stmt with ⟨store, _ | r⟩ <;> rfl

theorem result_runInBlock (tx : Transaction τ ρ) (stmt : Statement) :
    (sess.runInBlock w tx stmt).2 = (tx.run w stmt).2 := by
  rw [Session.runInBlock]
  rcases tx.run w stmt with ⟨tx', _ | r⟩ <;> rfl

variable {select : Select}

/-- A query that succeeds has run on the contents that its session sees. -/
theorem result_runPlain {r : ExecResult} (h : (s.runPlain w pid (.select select)).2.2 = .ok r) :
    (w.execute (s.view pid) (.select select)).2 = .ok r := by
  rw [Server.view]
  rw [Server.runPlain] at h
  rcases htx : (s.sessions pid).tx with _ | tx
  · rw [htx] at h
    exact (result_executeAutocommit _).symm.trans h
  · rw [htx] at h
    have hrun : (tx.run w (.select select)).2 = .ok r := (result_runInBlock _ _).symm.trans h
    rw [Transaction.run] at hrun
    by_cases hf : tx.failed = true
    · rw [if_pos hf] at hrun
      cases hrun
    · have hdata : (Statement.select select).isDataMutation = false := rfl
      rw [if_neg hf, hdata, Bool.and_false, if_neg Bool.false_ne_true, result_execute] at hrun
      exact hrun

variable {stmt : Statement}

theorem locks_runPlain : (s.runPlain w pid stmt).1.locks = s.locks := by
  rw [Server.runPlain]
  split
  · rfl
  · exact locks_executeAutocommit

/-- What a `SELECT` with locking clauses leaves to be locked. -/
theorem running_startLocking
    (h : ((s.startLocking w pid select).sessions pid).running = some (.lockingRows rl)) :
    ∃ target fields rows tag, select.lockTarget = some target ∧
      (w.execute (s.view pid) (.select select)).2 = .ok (.rows fields rows tag) ∧
      rl = ⟨target, select.lockMode, select.waitPolicy, fields, tag, rows, []⟩ ∧
      (s.startLocking w pid select).locks = s.locks := by
  rw [Server.startLocking] at h ⊢
  dsimp only at h ⊢
  split at h
  · next target fields rows tag htarget hres =>
    rw [running_lockRows] at h
    split at h
    · cases h
    · refine ⟨target, fields, rows, tag, htarget, result_runPlain hres, ?_, ?_⟩
      · exact (Running.lockingRows.inj (Option.some.inj h)).symm
      · exact locks_lockRows.trans locks_runPlain
  · rw [Server.reply, sessions_set_self] at h
    cases h

/-- No locking statement of `pid` is running. -/
def NotLocking (s : Server τ ρ) (pid : Pid) : Prop :=
  ∀ rl, (s.sessions pid).running ≠ some (.lockingRows rl)

theorem notLocking_reply {r : StmtResult} : NotLocking (s.reply pid sess r) pid := by
  intro rl h
  rw [Server.reply, sessions_set_self] at h
  cases h

theorem notLocking_pause {next : Running} (hnext : ∀ rl, next ≠ .lockingRows rl) :
    NotLocking (s.pause pid sess next) pid := by
  intro rl h
  rw [Server.pause, sessions_set_self] at h
  exact hnext rl (Option.some.inj h)

theorem notLocking_lockTables {tables : List String} {mode : LockMode} {nowait : Bool} :
    NotLocking (s.lockTables pid sess tables mode nowait) pid := by
  rw [Server.lockTables.eq_def]
  split
  · exact notLocking_reply
  · exact notLocking_pause fun _ h => by cases h

/-- The locking statement `rl` of `pid` has just started, in the state `s`, for the event `e`. -/
structure StartsLocking (w : Engine τ ρ) (s : Server τ ρ) (e : Event) (rl : RowLocking) : Prop where
  exists_query : ∃ select target fields rows tag, s.lockingQuery w e = some select ∧
    select.lockTarget = some target ∧
    (w.execute (s.view e.pid) (.select select)).2 = .ok (.rows fields rows tag) ∧
    rl = ⟨target, select.lockMode, select.waitPolicy, fields, tag, rows, []⟩
  locks : (s.step w e).locks = s.locks

/-- Only a `SELECT` with locking clauses starts to lock rows. -/
theorem startsLocking_start (hrun : (s.sessions pid).running = none)
    (h : ((s.start w pid stmt).sessions pid).running = some (.lockingRows rl)) :
    StartsLocking w s (.start pid stmt) rl := by
  have hidle : (s.sessions pid).running.isNone = true := by rw [hrun]; rfl
  have hleaves : s.Leaves w pid stmt _ := Server.leaves_start
  rw [h] at hleaves
  rcases hleaves with _ | _ | ⟨select, _, hres, hlock, hstart⟩ | ⟨_, -, hn⟩
  · rw [hstart] at h
    obtain ⟨target, fields, rows, tag, htarget, hexec, hrl, hlocks⟩ := running_startLocking h
    refine ⟨⟨select, target, fields, rows, tag, ?_, htarget, hexec, hrl⟩, ?_⟩
    · rw [Server.lockingQuery, if_pos hidle, hres]
      simp [hlock]
    · rw [Server.step, Server.apply, if_pos hidle, hstart, hlocks]
  · exact absurd rfl (hn rl)

/-- One step of the locking statement `rl`. -/
inductive RowStep (w : Engine τ ρ) (s : Server τ ρ) (pid : Pid) (rl : RowLocking) :
    Server τ ρ → Prop
  | stop (hrows : rl.rows = []) : RowStep w s pid rl (s.lockRows pid (s.sessions pid) rl)
  | skip (row : List Value) (rest : List (List Value)) (hrows : rl.rows = row :: rest) :
      RowStep w s pid rl (s.lockRows pid (s.sessions pid) { rl with rows := rest })
  | keep (row : List Value) (rest : List (List Value)) (hrows : rl.rows = row :: rest)
      (hfree : s.locks.conflicting pid (.row rl.target (rowKey w.toText row)) rl.mode = []) :
      RowStep w s pid rl
        ({ s with
            locks := s.locks.grant pid (.row rl.target (rowKey w.toText row)) rl.mode }.lockRows
          pid (s.sessions pid) { rl with rows := rest, kept := rl.kept ++ [row] })
  | wait (obj : LockObject) (hblocked : s.locks.conflicting pid obj rl.mode ≠ []) :
      RowStep w s pid rl { s with locks := (s.locks.tryAcquire pid obj rl.mode).1 }
  | refuse (locks : LockManager) (m : String) :
      RowStep w s pid rl
        ({ s with locks := locks }.reply pid (s.sessions pid).markError (.error m))

theorem rowStep_lockNextRow : RowStep w s pid rl (s.lockNextRow w pid rl) := by
  rw [Server.lockNextRow]
  dsimp only
  split
  · next hrows => exact .stop hrows
  next row rest hrows =>
  split
  · split
    · exact .skip row rest hrows
    · next hother =>
      have hfree :
          s.locks.conflicting pid (.row rl.target (rowKey w.toText row)) rl.mode = [] := by
        by_contra hne
        exact hother (isLockedByOther_iff.mpr hne)
      rw [tryAcquire_of_free hfree]
      exact .keep row rest hrows hfree
  · rcases acquireLock_cases s.locks pid (s.sessions pid).cancel
      (.row rl.target (rowKey w.toText row)) rl.mode (rl.waitPolicy = some .noWait) with
      ⟨hfree, h⟩ | ⟨hblocked, h⟩ | ⟨-, m, h⟩
    · rw [h]
      exact .keep row rest hrows hfree
    · rw [h]
      exact .wait _ hblocked
    · rw [h]
      exact .refuse _ m

/-! ## The invariant -/

/-- The rows that the locking statement `rl` has kept are locked, and each of its rows under the key
of the stored row it shows. -/
structure RowsHeld (w : Engine τ ρ) (keyOf : ι → LockObject) (labels : ι → List Value → Prop)
    (lm : LockManager) (pid : Pid) (rl : RowLocking) : Prop where
  isRow : rl.mode.IsRow
  keyed : ∀ row ∈ rl.rows ++ rl.kept, ∀ i, labels i row →
    .row rl.target (rowKey w.toText row) = keyOf i
  held : ∀ row ∈ rl.kept, lm.HeldIn pid (.row rl.target (rowKey w.toText row)) rl.mode

variable {keyOf : ι → LockObject} {labels : ι → List Value → Prop} {lm : LockManager}

section

variable (h : RowsHeld w keyOf labels lm pid rl)
include h

theorem RowsHeld.mono (hmono : ∀ o m, lm.HeldIn pid o m → lm'.HeldIn pid o m) :
    RowsHeld w keyOf labels lm' pid rl :=
  ⟨h.isRow, h.keyed, fun row hrow => hmono _ _ (h.held row hrow)⟩

variable {rest : List (List Value)}

theorem RowsHeld.skip (hrows : rl.rows = row :: rest) :
    RowsHeld w keyOf labels lm pid { rl with rows := rest } := by
  refine ⟨h.isRow, fun r hr => h.keyed r ?_, h.held⟩
  rw [hrows]
  exact mem_cons_of_mem _ hr

theorem RowsHeld.keep (hrows : rl.rows = row :: rest) :
    RowsHeld w keyOf labels
      (lm.grant pid (.row rl.target (rowKey w.toText row)) rl.mode) pid
      { rl with rows := rest, kept := rl.kept ++ [row] } := by
  refine ⟨h.isRow, fun r hr => h.keyed r ?_, fun r hr => ?_⟩
  · rw [hrows]
    simp only [mem_append, mem_cons] at hr ⊢
    tauto
  · rcases mem_append.mp hr with hr | hr
    · exact heldIn_grant_of (h.held r hr)
    · obtain rfl := mem_singleton.mp hr
      exact heldIn_grant

end

/-- What becomes of a running locking statement in `mode`: it goes on, or it completes. -/
structure RowsKept (w : Engine τ ρ) (keyOf : ι → LockObject) (labels : ι → List Value → Prop)
    (pid : Pid) (mode : LockMode) (s' : Server τ ρ) : Prop where
  goesOn : ∀ rl', (s'.sessions pid).running = some (.lockingRows rl') →
    RowsHeld w keyOf labels s'.locks pid rl'
  completes : (s'.sessions pid).running = none → ∀ fields rows tag,
    (s'.sessions pid).result = some (.ok (.rows fields rows tag)) →
    ∃ rl', RowsHeld w keyOf labels s'.locks pid rl' ∧ rl'.kept = rows ∧ rl'.mode = mode

theorem RowsKept.lockRows (h : RowsHeld w keyOf labels s.locks pid rl) :
    RowsKept w keyOf labels pid rl.mode (s.lockRows pid sess rl) := by
  have hlocks : (s.lockRows pid sess rl).locks = s.locks := locks_lockRows
  constructor
  · intro rl' hrl'
    rw [running_lockRows] at hrl'
    split at hrl'
    · cases hrl'
    · rw [hlocks, ← Running.lockingRows.inj (Option.some.inj hrl')]
      exact h
  · intro hrun fields rows tag hres
    refine ⟨rl, hlocks ▸ h, ?_, rfl⟩
    rw [running_lockRows] at hrun
    split at hrun
    · next hrows =>
      have hreply : s.lockRows pid sess rl = s.reply pid sess (.ok rl.result) := by
        rw [Server.lockRows, hrows]
      rw [hreply, Server.reply, sessions_set_self] at hres
      simp only [RowLocking.result, Option.some.injEq, Except.ok.injEq,
        ExecResult.rows.injEq] at hres
      exact hres.2.1
    · cases hrun

theorem RowsKept.of_same {s' : Server τ ρ} (h : RowsHeld w keyOf labels s.locks pid rl)
    (hrun : (s.sessions pid).running = some (.lockingRows rl))
    (hsame : (s'.sessions pid).running = (s.sessions pid).running)
    (hlocks : ∀ o, (s'.locks.state o).holders = (s.locks.state o).holders) {mode : LockMode} :
    RowsKept w keyOf labels pid mode s' := by
  rw [hrun] at hsame
  constructor
  · intro rl' hrl'
    obtain rfl := Running.lockingRows.inj (Option.some.inj (hsame.symm.trans hrl'))
    exact h.mono fun _ _ => .of_holders hlocks
  · intro hnone
    rw [hsame] at hnone
    cases hnone

/-- A step of the session whose locking statement is running. -/
theorem rowsKept_step (hrun : (s.sessions e.pid).running = some (.lockingRows rl))
    (h : RowsHeld w keyOf labels s.locks e.pid rl) :
    RowsKept w keyOf labels e.pid rl.mode (s.step w e) := by
  have hnone : (s.sessions e.pid).running.isNone = false := by rw [hrun]; rfl
  rcases e with ⟨q, stmt⟩ | q | ⟨q, flag⟩ | q | q | q
  case resume =>
    have hstep : RowStep w s q rl (s.apply w (.resume q)) := by
      rw [Server.apply, show (s.sessions q).running = some (.lockingRows rl) from hrun]
      exact rowStep_lockNextRow
    suffices hsuff : RowsKept w keyOf labels q rl.mode (s.apply w (.resume q)) from
      ⟨hsuff.goesOn, hsuff.completes⟩
    generalize s.apply w (.resume q) = s' at hstep ⊢
    rcases hstep with hrows | ⟨row, rest, hrows⟩ | ⟨row, rest, hrows, hfree⟩ | ⟨obj, hblocked⟩ |
      ⟨locks, m⟩
    case stop => exact .lockRows h
    case skip => exact .lockRows (h.skip hrows)
    case keep => exact .lockRows (s := { s with locks := _ }) (h.keep hrows)
    case wait =>
      refine .of_same h hrun ?_ ?_
      · rfl
      · exact fun o => holders_of_not_granted hblocked o
    case refuse =>
      constructor
      · exact fun rl' hrl' => absurd hrl' (notLocking_reply rl')
      · intro _ fields rows tag hres
        rw [Server.reply, sessions_set_self] at hres
        cases hres
  case setCancel =>
    refine .of_same h hrun ?_ ?_
    · simp only [Server.step, Server.apply, Event.pid, sessions_set_self]
    · exact fun _ => rfl
  all_goals
    refine .of_same h hrun ?_ ?_
    · simp only [Event.pid] at hnone
      simp [Server.step, Server.apply, hnone]
    · simp only [Event.pid] at hnone
      simp [Server.step, Server.apply, hnone]

theorem notLocking_resume (hn : ∀ rl, n ≠ .lockingRows rl)
    (hrun : (s.sessions pid).running = some n) : NotLocking (s.resume w pid n) pid := by
  have hs : NotLocking s pid := fun rl h => hn rl (Option.some.inj (hrun.symm.trans h))
  rcases n with ⟨buffered, gid⟩ | result | ⟨tables, mode, nowait⟩ | rl
  · exact notLocking_pause fun _ h => nomatch h
  · exact notLocking_reply
  · rw [Server.resume, Server.lockNextTable.eq_def]
    dsimp only
    split
    · exact notLocking_lockTables
    · split
      · exact notLocking_lockTables
      · exact hs
      · exact notLocking_reply
  · exact absurd rfl (hn rl)

/-- A step that makes a locking statement run is its start. -/
theorem startsLocking_step (hs : NotLocking s e.pid)
    (h : ((s.step w e).sessions e.pid).running = some (.lockingRows rl)) :
    StartsLocking w s e rl := by
  have happly : ((s.apply w e).sessions e.pid).running = some (.lockingRows rl) := h
  rcases e with ⟨q, stmt⟩ | q | ⟨q, flag⟩ | q | q | q
  case start =>
    by_cases hidle : (s.sessions q).running.isNone = true
    · rw [Server.apply, if_pos hidle] at happly
      exact startsLocking_start (Option.isNone_iff_eq_none.mp hidle) happly
    · rw [Server.apply, if_neg hidle] at happly
      exact absurd happly (hs rl)
  case resume =>
    rw [Server.apply] at happly
    split at happly
    · next n hrun =>
      refine absurd happly (notLocking_resume (fun rl' hn => ?_) hrun rl)
      exact hs rl' (hn ▸ hrun)
    · exact absurd happly (hs rl)
  case setCancel =>
    rw [Server.apply, Event.pid, sessions_set_self] at happly
    exact absurd happly (hs rl)
  case markError =>
    rw [Server.apply] at happly
    split at happly
    · rw [Event.pid, sessions_set_self, Session.markError] at happly
      split at happly <;> exact absurd happly (hs rl)
    · exact absurd happly (hs rl)
  case idleTimeout =>
    rw [Server.apply] at happly
    split at happly
    · rw [Event.pid, sessions_set_self] at happly
      exact absurd happly (hs rl)
    · exact absurd happly (hs rl)
  case disconnect =>
    rw [Server.apply] at happly
    split at happly
    · rw [Event.pid, sessions_set_self] at happly
      cases happly
    · exact absurd happly (hs rl)

end

/-! ## The invariant of the server -/

section

variable {w : Engine τ ρ} {keyOf : ι → LockObject} {s : Server τ ρ} {e : Event}
  {shows : Store τ ρ → Select → ι → List Value → Prop} {g : Showing τ ρ ι}

/-- Between two steps: the stored rows that open blocks have returned are locked, and so are the
rows that running statements have kept. -/
structure Guarded (w : Engine τ ρ) (keyOf : ι → LockObject) (g : Showing τ ρ ι) : Prop where
  returned : ∀ p i m, g.returned p i m →
    m.IsRow ∧ (∃ t k, keyOf i = .row t k) ∧ g.server.locks.HeldIn p (keyOf i) m
  running : ∀ p rl, (g.server.sessions p).running = some (.lockingRows rl) →
    RowsHeld w keyOf (g.labels p) g.server.locks p rl
  compatible : g.server.locks.RowsCompatible
  closed : ∀ p, (g.server.sessions p).ending = true → (g.server.sessions p).tx = none

/-- A step leaves the locks of other sessions alone. -/
theorem heldIn_of_ne {q : Pid} (hq : q ≠ e.pid) {o : LockObject} {m : LockMode}
    (h : s.locks.HeldIn q o m) : (s.step w e).locks.HeldIn q o m := by
  rcases locksDid w s e with hsame | ⟨_, _, _, -, -, hgrant⟩ | ⟨hreleased, -⟩
  · exact h.of_holders hsame
  · rw [hgrant]
    exact heldIn_grant_of h
  · exact (heldIn_releaseAll hq h).of_holders hreleased

/-- A session in a block keeps its locks, unless a request is refused. -/
theorem heldIn_self (hclosed : (s.sessions e.pid).ending = true → (s.sessions e.pid).tx = none)
    (hask : NotRefused w s e) (hopen : ((s.step w e).sessions e.pid).tx.isSome)
    {o : LockObject} {m : LockMode} (h : s.locks.HeldIn e.pid o m) :
    (s.step w e).locks.HeldIn e.pid o m := by
  rcases locksDid w s e with hsame | ⟨_, _, _, -, -, hgrant⟩ |
    ⟨-, htx | ⟨obj, mode, nowait, hwants, hskip, href⟩⟩
  · exact h.of_holders hsame
  · rw [hgrant]
    exact heldIn_grant_of h
  · have hnone := htx.elim id fun ⟨hend, heq⟩ => heq.trans (hclosed hend)
    rw [hnone] at hopen
    cases hopen
  · exact absurd h.records (hask obj mode nowait hwants hskip href o)

/-- A session in the middle of the end of its block has no block. -/
theorem closed_step (hclosed : (s.sessions e.pid).ending = true → (s.sessions e.pid).tx = none)
    (hend : ((s.step w e).sessions e.pid).ending = true) :
    ((s.step w e).sessions e.pid).tx = none := by
  have hd := did w s e
  change ((s.apply w e).sessions e.pid).tx = none
  change ((s.apply w e).sessions e.pid).ending = true at hend
  generalize s.apply w e = s' at hd hend ⊢
  rcases hd with ⟨sess, hblock, -, hsame, -⟩ | ⟨stmt, sess, -, -, -, -, htx, -, -⟩ | _ | _ |
    ⟨sess, htx, -, hold, -, -⟩ | ⟨sess, -, -, -, hfalse⟩ |
    ⟨obj, mode, nowait, sess, -, -, -, -, -, hfalse⟩ | _ |
    ⟨obj, mode, nowait, sess, -, -, -, -, -, -, hfalse⟩
  case «local» =>
    rw [sessions_set_self] at hend ⊢
    rw [hsame] at hend
    have hnone := hclosed hend
    rcases hblock.isSome with hiff | ⟨-, hidle⟩
    · rw [hnone] at hiff
      exact Option.isSome_eq_false_iff.mp hiff |> Option.isNone_iff_eq_none.mp
    · rw [Session.ending_of_idle hidle] at hend
      cases hend
  case autocommit => rw [sessions_set_self]; exact htx
  case publish | conflict => rw [sessions_set_self]
  case append => rw [sessions_set_self]; exact htx.trans (hclosed hold)
  case waits => exact hclosed hend
  all_goals
    rw [sessions_set_self, hfalse] at hend
    cases hend

theorem compatible_step (hrow : ∀ rl, (s.sessions e.pid).running = some (.lockingRows rl) →
    rl.mode.IsRow) (h : s.locks.RowsCompatible) : (s.step w e).locks.RowsCompatible := by
  rcases locksDid w s e with hsame | ⟨obj, mode, nowait, hwants, hfree, hgrant⟩ | ⟨hreleased, -⟩
  · exact h.of_subset fun o _ hk => hsame o ▸ hk
  · rw [hgrant]
    rcases hwants with _ | ⟨hrun, -⟩
    · exact h.grant_table _
    · exact h.grant (hrow _ hrun) hfree
  · refine h.of_subset fun o => ?_
    rw [hreleased, state_releaseAll]
    exact filter_subset_self _

theorem Server.lockingQuery_of_running (h : (s.sessions e.pid).running = some n) :
    s.lockingQuery w e = none := by
  rcases e with ⟨q, stmt⟩ | _ | _ | _ | _ | _
  case start =>
    have hnone : ¬(s.sessions q).running.isNone = true := by
      rw [show (s.sessions q).running = some n from h]
      exact Bool.false_ne_true
    exact if_neg hnone
  all_goals rfl

/-- The rows of a locking statement that completes are locked. -/
theorem Guarded.completed (h : Guarded w keyOf g) {mode : LockMode} {rows : List (List Value)}
    (hc : g.server.completed w e = some (mode, rows)) (hrow : row ∈ rows) {i : ι}
    (hi : g.labels e.pid i row) :
    mode.IsRow ∧ (∃ t k, keyOf i = .row t k) ∧
      (g.server.step w e).locks.HeldIn e.pid (keyOf i) mode := by
  rw [Server.completed] at hc
  split at hc
  · next rl fields rows' tag hrun hnone hres =>
    obtain ⟨rfl, rfl⟩ : rl.mode = mode ∧ rows' = rows := by simpa using hc
    obtain ⟨rl', hheld, rfl, hmode⟩ :=
      (rowsKept_step hrun (h.running _ rl hrun)).completes hnone fields _ tag hres
    have hkey := hheld.keyed row (mem_append_right _ hrow) i hi
    rw [← hmode, ← hkey]
    exact ⟨hheld.isRow, ⟨_, _, rfl⟩, hheld.held row hrow⟩
  · cases hc

/-- **A locking statement that completes excludes** the rows of the open blocks of others. -/
theorem Guarded.excludes (h : Guarded w keyOf g) : Excludes w g e := by
  intro mode rows hc row hrow i hi q hq mode' hret
  obtain ⟨hm, ⟨t, k, hkey⟩, hself⟩ := h.completed hc hrow hi
  obtain ⟨hm', -, hother⟩ := h.returned q i mode' hret
  have hother' := heldIn_of_ne (w := w) hq hother
  rw [hkey] at hself hother'
  have hcompat := compatible_step (w := w) (e := e) (fun rl hrl => (h.running _ rl hrl).isRow)
    h.compatible
  obtain ⟨a, ha, hpa, hle⟩ := hother'
  obtain ⟨b, hb, hpb, hle'⟩ := hself
  refine hm'.conflictsWith hm (hcompat.isRow t k a ha) (hcompat.isRow t k b hb) hle hle' ?_
  exact hcompat.compatible t k a ha b hb (by rw [hpa, hpb]; exact hq)

theorem Guarded.step (h : Guarded w keyOf g) (hkey : OneKey w shows keyOf g.server e)
    (hask : NotRefused w g.server e) : Guarded w keyOf (g.step w shows e) := by
  refine ⟨fun p i m hret => ?_, fun p rl hrun => ?_, ?_, fun p hend => ?_⟩
  · by_cases hp : p = e.pid
    · subst hp
      simp only [Showing.step, Function.update_self] at hret
      obtain ⟨hopen, hret | ⟨rows, hc, row, hrow, hi⟩⟩ := hret
      · obtain ⟨hm, hobj, hheld⟩ := h.returned e.pid i m hret
        exact ⟨hm, hobj, heldIn_self (h.closed e.pid) hask hopen hheld⟩
      · exact h.completed hc hrow hi
    · simp only [Showing.step, Function.update_of_ne hp] at hret
      obtain ⟨hm, hobj, hheld⟩ := h.returned p i m hret
      exact ⟨hm, hobj, heldIn_of_ne hp hheld⟩
  · by_cases hp : p = e.pid
    · subst hp
      simp only [Showing.step, Function.update_self]
      by_cases hold : ∃ rl₀, (g.server.sessions e.pid).running = some (.lockingRows rl₀)
      · obtain ⟨rl₀, hrun₀⟩ := hold
        rw [Server.lockingQuery_of_running hrun₀]
        exact (rowsKept_step hrun₀ (h.running _ rl₀ hrun₀)).goesOn rl hrun
      · have hstarts := startsLocking_step (fun rl₀ h₀ => hold ⟨rl₀, h₀⟩) hrun
        obtain ⟨select, target, fields, rows, tag, hquery, htarget, hexec, rfl⟩ :=
          hstarts.exists_query
        rw [hquery]
        refine ⟨select.isRow_lockMode, fun row hrow i hi => ?_, fun row hrow => nomatch hrow⟩
        exact hkey select target fields rows tag hquery htarget hexec row (by simpa using hrow) i hi
    · simp only [Showing.step, Function.update_of_ne hp] at hrun ⊢
      rw [sessions_of_ne hp] at hrun
      exact (h.running p rl hrun).mono fun o m => heldIn_of_ne hp
  · exact compatible_step (fun rl hrl => (h.running _ rl hrl).isRow) h.compatible
  · by_cases hp : p = e.pid
    · subst hp
      exact closed_step (h.closed e.pid) hend
    · simp only [Showing.step] at hend ⊢
      rw [sessions_of_ne hp] at hend ⊢
      exact h.closed p hend

theorem Guarded.init (db : Database τ ρ) (wal : Option (List String)) :
    Guarded w keyOf (Showing.init db wal) :=
  ⟨fun _ _ _ h => h.elim, fun _ _ h => (nomatch h), .new, fun _ h => (nomatch h)⟩

end

/-- **Row locks exclude**, in every run in which all locking statements lock a stored row under one
key, and no session that has locks has a request refused: a locking statement completes with no
stored row that the open block of another session has returned in a conflicting mode. -/
theorem rows_excluded (w : Engine τ ρ) (shows : Store τ ρ → Select → ι → List Value → Prop)
    (keyOf : ι → LockObject) (db : Database τ ρ) (wal : Option (List String)) (es : List Event)
    (h : Always (Showing.step w shows)
      (fun g e => OneKey w shows keyOf g.server e ∧ NotRefused w g.server e)
      (Showing.init db wal) es) :
    Always (Showing.step w shows) (Excludes w) (Showing.init db wal) es :=
  h.of_invariant (I := Guarded w keyOf) (.init db wal)
    fun _ _ hg hC => ⟨hg.excludes, hg.step hC.1 hC.2⟩

/-! ## A table with one row -/

/-- The stored row has 1 in `id` and `a` in `name`. -/
def shownCell : SelectItem → Value
  | .expr (.column "id") _ => .int 1
  | .expr (.column "name") _ => .text "a"
  | _ => .null

/-- The engine whose only table has one row. -/
def oneRowEngine : Engine (List Int) Unit :=
  { tinyEngine with
    execute := fun st stmt =>
      match stmt with
      | .select select => (st, .ok (.rows [] [select.projection.map shownCell] "SELECT 1"))
      | _ => (st, .ok (.command "OK"))
    toText := fun v =>
      match v with
      | .int _ => some "1"
      | .text s => some s
      | _ => none }

/-- `SELECT column FROM t FOR UPDATE`. -/
def selectColumn (column : String) : Statement :=
  .select ⟨[], false, [], [.expr (.column column) none],
    some ⟨⟨none, "t", [], none, none, false, false, [], false⟩, []⟩, none, [], [], none, [], none,
    none, [⟨.update, [], none⟩], []⟩

/-- Session 1 locks the row by `SELECT id`; session 2 selects the column `column` of the same row.
-/
def bothLock (column : String) : List Event :=
  [.start 1 (.begin none none), .start 1 (selectColumn "id"), .resume 1,
    .start 2 (selectColumn column), .resume 2]

/-- Every result row shows the only stored row. -/
def showsOnly : Store (List Int) Unit → Select → Unit → List Value → Prop := fun _ _ _ _ => True

theorem oneKey_id (s : Server (List Int) Unit) (pid : Pid) :
    OneKey oneRowEngine showsOnly (fun _ => .row "t" "1") s (.start pid (selectColumn "id")) := by
  intro select target fields rows tag hquery htarget hexec row hrow i _
  rw [Server.lockingQuery] at hquery
  split at hquery
  · cases hquery
    cases htarget
    cases hexec
    obtain rfl := mem_singleton.mp hrow
    rfl
  · cases hquery

theorem notRefused_of_idle {w : Engine τ ρ} {s : Server τ ρ} {e : Event}
    (h : (s.sessions e.pid).running = none) : NotRefused w s e := by
  rintro obj mode nowait (hrun | ⟨hrun, -⟩)
  · rw [h] at hrun
    cases hrun
  · rw [h] at hrun
    cases hrun

/-- Two statements that show the row in the same column. -/
theorem rows_excluded_id :
    Always (Showing.step oneRowEngine showsOnly) (Excludes oneRowEngine)
      (Showing.init tinyDatabase none) (bothLock "id") := by
  refine rows_excluded oneRowEngine showsOnly (fun _ => .row "t" "1") tinyDatabase none _
    ⟨⟨?_, ?_⟩, ⟨oneKey_id _ 1, ?_⟩, ⟨?_, ?_⟩, ⟨oneKey_id _ 2, ?_⟩, ⟨?_, ?_⟩, trivial⟩
  · exact fun _ _ _ _ _ h => nomatch h
  · exact notRefused_of_idle rfl
  · exact notRefused_of_idle rfl
  · exact fun _ _ _ _ _ h => nomatch h
  · -- Nobody else has locked the row.
    rintro obj mode nowait (h | ⟨h, hrows⟩) - href
    · cases h
    · cases h
      cases hrows
      exact absurd href.1 (by decide)
  · exact notRefused_of_idle rfl
  · exact fun _ _ _ _ _ h => nomatch h
  · -- Session 2 waits.
    rintro obj mode nowait (h | ⟨h, hrows⟩) - href
    · cases h
    · cases h
      cases hrows
      exact absurd href.2 (by decide)

/-- The row returned to the open block of session 1 by `SELECT id` is returned to session 2 by
`SELECT name`. -/
theorem not_excludes_name :
    ¬Always (Showing.step oneRowEngine showsOnly) (Excludes oneRowEngine)
      (Showing.init tinyDatabase none) (bothLock "name") := by
  rintro ⟨-, -, -, -, h, -⟩
  have := h .exclusive [[.text "a"]] rfl [.text "a"] (.head _) () trivial 1 (by decide) .exclusive
    ⟨rfl, .inr ⟨[[.int 1]], rfl, [.int 1], .head _, trivial⟩⟩
  exact absurd this (by decide)

end PostgresRs
