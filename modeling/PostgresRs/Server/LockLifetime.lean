import PostgresRs.Server.Steps

/-!
# How long a session keeps its locks

The locks of a session should be those granted to it since its transaction block began, and a
session outside a block should have none between two statements.  To say so, the server is run with
a record of what every session has been granted since its last `BEGIN` (`Granting`); the record
follows the answers of `try_acquire` and never looks at the lock table.

The lock table and the record come apart in two ways (`lock_lifetime_broken`).

* `SELECT ... FOR UPDATE | SHARE` outside a block locks its rows and does not release them.
* A request that is refused — a conflict under `NOWAIT`, a cancelled wait, a deadlock — releases all
  locks of the session and not only the entry in the queue, although the block goes on.

They agree in every run that avoids both (`lock_lifetime`).
-/

namespace PostgresRs

open Machine Server LockManager

variable {τ ρ : Type} {w : Engine τ ρ}

/-! ## The objects the lock table records for a backend -/

namespace LockManager

variable {lm : LockManager} {pid q : Pid} {obj o : LockObject} {mode : LockMode}

/-- `pid` is among the holders of `o`. -/
def Records (lm : LockManager) (pid : Pid) (o : LockObject) : Prop :=
  ∃ h ∈ (lm.state o).holders, h.pid = pid

instance : Decidable (lm.Records pid o) :=
  inferInstanceAs (Decidable (∃ h ∈ (lm.state o).holders, h.pid = pid))

theorem not_records_new : ¬ new.Records pid o := by
  simp [Records]

/-- The requester's entry has at least the requested mode. -/
theorem exists_le_upgradeHolder (hs : List Holder) :
    ∃ k ∈ upgradeHolder pid mode hs, k.pid = pid ∧ mode.index ≤ k.mode.index := by
  obtain ⟨-, he⟩ | ⟨before, old, after, new, -, he, -, hle, -⟩ := upgradeHolder_cases pid mode hs
  · exact ⟨⟨pid, mode⟩, by simp [he], rfl, Nat.le_refl _⟩
  · exact ⟨⟨pid, new⟩, by simp [he], rfl, hle⟩

theorem records_grant :
    (lm.grant pid obj mode).Records q o ↔ lm.Records q o ∨ q = pid ∧ o = obj := by
  unfold Records
  rw [state_grant]
  by_cases ho : o = obj
  · subst ho
    rw [if_pos rfl]
    by_cases hq : q = pid
    · subst hq
      obtain ⟨k, hk, hpid, -⟩ := exists_le_upgradeHolder (lm.state o).holders
      exact iff_of_true ⟨k, hk, hpid⟩ (.inr ⟨rfl, rfl⟩)
    · have hiff : ∀ h : Holder, h ∈ upgradeHolder pid mode (lm.state o).holders ∧ h.pid = q ↔
          h ∈ (lm.state o).holders ∧ h.pid = q := fun h => by
        constructor
        · rintro ⟨hmem, rfl⟩
          exact ⟨(mem_upgradeHolder_of_ne hq).1 hmem, rfl⟩
        · rintro ⟨hmem, rfl⟩
          exact ⟨(mem_upgradeHolder_of_ne hq).2 hmem, rfl⟩
      simp only [hiff, hq, false_and, or_false]
  · simp [ho]

theorem records_releaseAll : (lm.releaseAll pid).Records q o ↔ lm.Records q o ∧ q ≠ pid := by
  unfold Records
  rw [state_releaseAll]
  simp only [List.mem_filter, bne_iff_ne]
  constructor
  · rintro ⟨h, ⟨hmem, hne⟩, rfl⟩
    exact ⟨⟨h, hmem, rfl⟩, hne⟩
  · rintro ⟨⟨h, hmem, rfl⟩, hne⟩
    exact ⟨h, ⟨hmem, hne⟩, rfl⟩

end LockManager

/-! ## The record of what was granted -/

/-- The server, with the objects granted to every session since its last `BEGIN`. -/
structure Granting (τ ρ : Type) where
  server : Server τ ρ
  granted : Pid → List LockObject

namespace Granting

/-- The event opens a block. -/
def begins (w : Engine τ ρ) (s : Server τ ρ) (e : Event) : Bool :=
  (s.sessions e.pid).tx.isNone && ((s.step w e).sessions e.pid).tx.isSome

def step (w : Engine τ ρ) (g : Granting τ ρ) (e : Event) : Granting τ ρ where
  server := g.server.step w e
  granted := Function.update g.granted e.pid
    ((if begins w g.server e then [] else g.granted e.pid) ++ g.server.grants w e)

/-- Before any session. -/
def init (db : Database τ ρ) (wal : Option (List String)) : Granting τ ρ :=
  ⟨.init db wal, fun _ => []⟩

end Granting

/-- The locks of every session are those granted since its block began, up to the end of the
`COMMIT` that closes it, and it has none between two statements outside a block. -/
structure LocksExact (g : Granting τ ρ) : Prop where
  inside : ∀ pid, (g.server.sessions pid).tx.isSome ∨ (g.server.sessions pid).ending = true →
    ∀ o, g.server.locks.Records pid o ↔ o ∈ g.granted pid
  outside : ∀ pid, (g.server.sessions pid).tx = none → (g.server.sessions pid).running = none →
    ∀ o, ¬ g.server.locks.Records pid o

/-! ## When it holds -/

/-- A request that is turned down: somebody else holds the object in a conflicting mode, and the
requester does not wait, has been cancelled, or would close a cycle by waiting. -/
def Refused (s : Server τ ρ) (pid : Pid) (obj : LockObject) (mode : LockMode) (nowait : Bool) :
    Prop :=
  s.locks.isLockedByOther pid obj mode = true ∧ (nowait = true ∨ (s.sessions pid).cancel = true ∨
    hasCycle (s.locks.addWaiter pid obj mode).waitForGraph = true)

/-- A lock is asked for only inside a block, and the request is refused only to a session without
locks. -/
def AsksCarefully (w : Engine τ ρ) (s : Server τ ρ) (e : Event) : Prop :=
  e = .resume e.pid → ∀ obj mode nowait, (s.sessions e.pid).Wants w obj mode nowait →
    (s.sessions e.pid).tx.isSome ∧
      ((s.sessions e.pid).skipsLocked = false → Refused s e.pid obj mode nowait →
        ∀ o, ¬ s.locks.Records e.pid o)

variable {s : Server τ ρ}

theorem refused_of_failed {pid : Pid} {obj : LockObject} {mode : LockMode} {nowait : Bool}
    {m : String}
    (h : (acquireLock s.locks pid (s.sessions pid).cancel obj mode nowait).2 = .failed m) :
    Refused s pid obj mode nowait := by
  by_cases hfree : s.locks.conflicting pid obj mode = []
  · simp [acquireLock, LockManager.tryAcquire, hfree] at h
  · refine ⟨isLockedByOther_iff.2 hfree, ?_⟩
    by_contra hnone
    simp only [not_or] at hnone
    obtain ⟨hwait, hcancel, hcycle⟩ := hnone
    simp [acquireLock, LockManager.tryAcquire, hfree, hwait, hcancel, hcycle] at h

/-! ## The invariant -/

/-- What holds of one session throughout: `sess` is its state, `held` the objects the lock table
records for it and `granted` those it was granted since `BEGIN`. -/
structure LocksMatch (sess : Session τ ρ) (held : LockObject → Prop) (granted : List LockObject) :
    Prop where
  ending_closed : sess.ending = true → sess.tx = none
  inside : sess.tx.isSome ∨ sess.ending = true → ∀ o, held o ↔ o ∈ granted
  outside : sess.tx = none → sess.ending = false → ∀ o, ¬ held o

/-- What a step does to the locks: their holders stay, one is added, or all locks of the session are
released, at the end of its block or because a request is refused. -/
inductive LocksDid (w : Engine τ ρ) (s : Server τ ρ) (e : Event) (lm : LockManager)
    (tx : Option (Transaction τ ρ)) : Prop
  | same (h : ∀ o, (lm.state o).holders = (s.locks.state o).holders)
  | granted (obj : LockObject) (mode : LockMode) (nowait : Bool)
      (hwants : (s.sessions e.pid).Wants w obj mode nowait)
      (hfree : s.locks.conflicting e.pid obj mode = []) (h : lm = s.locks.grant e.pid obj mode)
  | released (h : ∀ o, (lm.state o).holders = ((s.locks.releaseAll e.pid).state o).holders)
      (hends : (tx = none ∨ (s.sessions e.pid).ending = true ∧ tx = (s.sessions e.pid).tx) ∨
        ∃ obj mode nowait, (s.sessions e.pid).Wants w obj mode nowait ∧
          (s.sessions e.pid).skipsLocked = false ∧ Refused s e.pid obj mode nowait)

theorem locksDid (w : Engine τ ρ) (s : Server τ ρ) (e : Event) :
    LocksDid w s e (s.step w e).locks ((s.step w e).sessions e.pid).tx := by
  have hd := did w s e
  change LocksDid w s e (s.apply w e).locks ((s.apply w e).sessions e.pid).tx
  generalize s.apply w e = s' at hd ⊢
  cases hd with
  | «local» | publish | conflict | append => exact .same fun _ => rfl
  | autocommit => exact .same fun _ => by rw [locks_setSession, locks_executeAutocommit]
  | release sess htx =>
    rw [sessions_set_self]
    exact .released (fun _ => rfl) (.inl htx)
  | granted obj mode nowait _ _ hwants hfree => exact .granted obj mode nowait hwants hfree rfl
  | waits _ _ _ _ hblocked => exact .same fun o => holders_of_not_granted hblocked o
  | refused obj mode nowait _ _ hwants hskip hfails =>
    have href := refused_of_failed hfails.choose_spec
    refine .released (fun o => ?_) (.inr ⟨obj, mode, nowait, hwants, hskip, href⟩)
    rw [locks_setSession, state_releaseAll, state_releaseAll,
      holders_of_not_granted (isLockedByOther_iff.1 href.1)]

variable {e : Event}

/-- A step leaves the locks of other sessions alone. -/
theorem records_of_ne {q : Pid} (hq : q ≠ e.pid) (o : LockObject) :
    (s.step w e).locks.Records q o ↔ s.locks.Records q o := by
  rcases locksDid w s e with h | ⟨_, _, _, -, -, h⟩ | ⟨h, -⟩
  · rw [LockManager.Records, h, LockManager.Records]
  · rw [h, records_grant]
    simp [hq]
  · rw [LockManager.Records, h]
    exact records_releaseAll.trans (and_iff_left hq)

/-- Work in a block leaves it open, and opens one only between two statements. -/
theorem BlockStep.isSome {tx tx' : Option (Transaction τ ρ)} (h : BlockStep w s e tx tx') :
    tx'.isSome = tx.isSome ∨ tx = none ∧ (s.sessions e.pid).running = none := by
  cases h with
  | start level ro hrun => exact .inr ⟨rfl, hrun⟩
  | _ => exact .inl rfl

theorem Session.wanted_of_ending {sess : Session τ ρ} (h : sess.ending = true) :
    sess.wanted w = none := by
  unfold Session.ending at h
  unfold Session.wanted
  split at h <;> simp_all

variable {granted : List LockObject}

theorem LocksMatch.local {sess sess' : Session τ ρ} {held : LockObject → Prop}
    (h : LocksMatch sess held granted)
    (hblock : sess'.tx.isSome = sess.tx.isSome ∨ sess.tx = none ∧ sess.running = none)
    (hending : sess'.ending = sess.ending) :
    LocksMatch sess' held (if sess.tx.isNone && sess'.tx.isSome then [] else granted) := by
  rcases hblock with hsame | ⟨hnone, hrun⟩
  · have hnone : sess'.tx = none ↔ sess.tx = none := by
      rw [← Option.not_isSome_iff_eq_none, hsame, Option.not_isSome_iff_eq_none]
    have hbegins : (sess.tx.isNone && sess'.tx.isSome) = false := by
      cases htx : sess.tx <;> simp_all
    rw [hbegins]
    refine ⟨fun he => hnone.2 (h.ending_closed (hending ▸ he)), fun hin => ?_, fun hout hen => ?_⟩
    · rw [hsame, hending] at hin
      exact h.inside hin
    · exact h.outside (hnone.1 hout) (hending ▸ hen)
  · have hidle : sess.ending = false := Session.ending_of_idle hrun
    have hheld := h.outside hnone hidle
    refine ⟨fun he => by simp [hending, hidle] at he, fun hin o => ?_, fun _ _ => hheld⟩
    have hsome : sess'.tx.isSome = true := hin.resolve_right (by simp [hending, hidle])
    simp [hnone, hsome, hheld o]

/-- **A careful step keeps the lock table and the record together.** -/
theorem LocksMatch.step (hask : AsksCarefully w s e)
    (h : LocksMatch (s.sessions e.pid) (s.locks.Records e.pid) granted) :
    LocksMatch ((s.step w e).sessions e.pid) ((s.step w e).locks.Records e.pid)
      ((if Granting.begins w s e then [] else granted) ++ s.grants w e) := by
  have hd := did w s e
  change LocksMatch ((s.apply w e).sessions e.pid) ((s.apply w e).locks.Records e.pid)
    ((if (s.sessions e.pid).tx.isNone && ((s.apply w e).sessions e.pid).tx.isSome then []
      else granted) ++ s.grants w e)
  generalize s.apply w e = s' at hd ⊢
  cases hd with
  | «local» sess hblock _ hending hgrants =>
    rw [hgrants, List.append_nil, sessions_set_self]
    exact h.local hblock.isSome hending
  | autocommit stmt sess he hc htx hrun htx' _ hending =>
    rw [sessions_set_self, locks_setSession, locks_executeAutocommit]
    exact ⟨fun _ => htx', fun hin => by simp [htx', hending] at hin,
      fun _ _ => h.outside htx (Session.ending_of_idle hrun)⟩
  | publish tx db gid he htx hrun =>
    rw [grants_of_start he, sessions_set_self]
    exact ⟨fun _ => rfl, fun _ o => by simpa using h.inside (.inl (by simp [htx])) o,
      fun _ hen => by simp [Session.ending] at hen⟩
  | conflict tx htx hrun =>
    rw [grants_of_not_wanted (Session.wanted_of_idle hrun), sessions_set_self,
      locks_setSession]
    exact ⟨fun _ => rfl, fun _ o => by simpa using h.inside (.inl (by simp [htx])) o,
      fun _ hen => by simp [Session.ending] at hen⟩
  | append sess htx he hold _ hending =>
    have hnone := h.ending_closed hold
    rw [grants_of_not_wanted (Session.wanted_of_ending hold), sessions_set_self,
      locks_setSession]
    exact ⟨fun _ => htx.trans hnone, fun _ o => by simpa [htx] using h.inside (.inr hold) o,
      fun _ hen => by simp [hending] at hen⟩
  | release sess htx _ _ hending =>
    have hnone : sess.tx = none := htx.elim id fun htx => htx.2.trans (h.ending_closed htx.1)
    rw [sessions_set_self]
    exact ⟨fun _ => hnone, fun hin => by simp [hnone, hending] at hin,
      fun _ _ o hr => (records_releaseAll.1 hr).2 rfl⟩
  | granted obj mode nowait sess he hwants hfree htx _ hending =>
    have hsome := (hask he obj mode nowait hwants).1
    have hgrants : s.grants w e = [obj] := by
      rw [he]
      simp [grants, hwants.wanted_eq, granted_iff, hfree]
    rw [hgrants, sessions_set_self, locks_setSession]
    refine ⟨fun hen => by simp [hending] at hen, fun _ o => ?_, fun hnone => ?_⟩
    · rw [records_grant, h.inside (.inl hsome) o]
      simp [Option.isNone_eq_false_iff.2 hsome]
    · rw [htx] at hnone
      simp [hnone] at hsome
  | waits obj mode nowait hwants hblocked =>
    have hrec : (s.locks.tryAcquire e.pid obj mode).1.Records e.pid = s.locks.Records e.pid := by
      funext o
      unfold Records
      rw [holders_of_not_granted hblocked]
    rw [grants_of_blocked hwants hblocked, List.append_nil, hrec]
    exact h.local (.inl rfl) rfl
  | refused obj mode nowait sess he hwants hskip hfails htx _ hending =>
    have href := refused_of_failed hfails.choose_spec
    obtain ⟨hsome, hnolocks⟩ := hask he obj mode nowait hwants
    have hnone := hnolocks hskip href
    have hsome' : sess.tx.isSome = true := by simpa [htx] using hsome
    rw [grants_of_blocked hwants (isLockedByOther_iff.1 href.1),
      sessions_set_self, locks_setSession]
    refine ⟨fun hen => by simp [hending] at hen, fun _ o => ?_, fun hn => by simp [hn] at hsome'⟩
    have hgranted : o ∉ granted := fun ho => hnone o ((h.inside (.inl hsome) o).2 ho)
    simp [records_releaseAll, hgranted]

/-- **Lock lifetime.**  In every run from an empty lock table in which sessions ask for locks only
inside a block, and are refused one only while they have none, the locks of every session are those
granted to it since its block began, and there are none outside a block. -/
theorem lock_lifetime (w : Engine τ ρ) (db : Database τ ρ) (wal : Option (List String))
    (es : List Event)
    (hask : Always (Granting.step w) (fun g e => AsksCarefully w g.server e)
      (Granting.init db wal) es) :
    LocksExact (run (Granting.step w) (Granting.init db wal) es) := by
  have hinv : ∀ pid, LocksMatch ((run (Granting.step w) (Granting.init db wal) es).server.sessions pid)
      ((run (Granting.step w) (Granting.init db wal) es).server.locks.Records pid)
      ((run (Granting.step w) (Granting.init db wal) es).granted pid) := by
    refine hask.run_induction (I := fun g => ∀ pid, LocksMatch (g.server.sessions pid)
      (g.server.locks.Records pid) (g.granted pid)) (fun pid => ?_) fun g e h hcareful pid => ?_
    · exact ⟨fun _ => rfl, fun hin => by simp [Granting.init, Server.init, Session.ending] at hin,
        fun _ _ o => not_records_new⟩
    · by_cases hpid : pid = e.pid
      · subst hpid
        simpa [Granting.step] using (h e.pid).step hcareful
      · have hrec : (g.server.step w e).locks.Records pid = g.server.locks.Records pid :=
          funext fun o => propext (records_of_ne hpid o)
        simpa [Granting.step, hpid, sessions_of_ne hpid, hrec] using h pid
  exact ⟨fun pid => (hinv pid).inside,
    fun pid hout hrun => (hinv pid).outside hout (Session.ending_of_idle hrun)⟩

/-- `LOCK TABLE t`. -/
def lockT (nowait : Bool) : Statement := .lockTable ⟨["t"], none, nowait⟩

/-- Two tables locked in a block, and the block not yet at its end. -/
theorem lock_lifetime_two_tables :
    let g := run (Granting.step tinyEngine) (Granting.init tinyDatabase none)
      [.start 1 (.begin none none), .start 1 (.lockTable ⟨["t", "u"], none, true⟩), .resume 1,
        .resume 1]
    g.granted 1 = [.table "t", .table "u"] ∧ g.server.locks.Records 1 (.table "u") := by
  intro g
  have hg : g.granted 1 = [.table "t", .table "u"] := by decide
  refine ⟨hg, ((lock_lifetime tinyEngine tinyDatabase none
    [.start 1 (.begin none none), .start 1 (.lockTable ⟨["t", "u"], none, true⟩), .resume 1,
      .resume 1] ?_).inside 1 (.inl rfl) _).2 (by rw [hg]; simp)⟩
  refine ⟨fun h => absurd h (by simp), fun h => absurd h (by simp),
    fun _ obj mode nowait hw => ⟨rfl, fun _ href => ?_⟩,
    fun _ obj mode nowait hw => ⟨rfl, fun _ href => ?_⟩, trivial⟩
  -- Nobody else has a lock, so no request is refused.
  · cases hw with
    | table h => cases h; exact absurd href.1 (by decide)
    | row h => cases h
  · cases hw with
    | table h => cases h; exact absurd href.1 (by decide)
    | row h => cases h

/-- `SELECT FROM t FOR UPDATE`. -/
def selectForUpdate : Statement :=
  .select ⟨[], false, [], [], some ⟨⟨none, "t", [], none, none, false, false, [], false⟩, []⟩, none,
    [], [], none, [], none, none, [⟨.update, [], none⟩], []⟩

/-- A row locked by a `SELECT ... FOR UPDATE` outside any block stays locked when the statement is
over; and a `LOCK TABLE ... NOWAIT` that fails takes away the lock on `u` that the block had been
granted before. -/
theorem lock_lifetime_broken :
    let outside := run (Granting.step tinyEngine) (Granting.init tinyDatabase none)
      [.start 1 selectForUpdate, .resume 1]
    let refused := run (Granting.step tinyEngine) (Granting.init tinyDatabase none)
      [.start 2 (.begin none none), .start 2 (lockT false), .resume 2,
        .start 1 (.begin none none), .start 1 (.lockTable ⟨["u"], none, false⟩), .resume 1,
        .start 1 (lockT true), .resume 1]
    ((outside.server.sessions 1).tx.isNone ∧ (outside.server.sessions 1).running.isNone ∧
        outside.server.locks.Records 1 (.row "t" "1")) ∧
      (refused.server.sessions 1).tx.isSome ∧ refused.granted 1 = [.table "u"] ∧
        ¬ refused.server.locks.Records 1 (.table "u") := by
  refine ⟨⟨rfl, rfl, ?_⟩, rfl, ?_, ?_⟩
  · decide
  · decide
  · decide

end PostgresRs
