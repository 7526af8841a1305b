import PostgresRs.Server.LogOrder
import PostgresRs.Util.Batches
import PostgresRs.Wal.Recovery

/-!
# Crashes and transactions

`COMMIT` appends the buffered changes of its block to the log one record at a time, each with its
own sync, and the log has no mark where a transaction begins or ends.  A crash between two of these
records leaves a part of the transaction in the log, and the next start executes it
(`half_transaction_replayed`).

At every other record boundary transactions are whole: the log is a row of batches, one for each
block and each autocommit statement, because the appends of one block are made in one section under
the log mutex (`replay_whole_transactions`).
-/

namespace PostgresRs

open Machine Server Batches List Traced

variable {τ ρ : Type} {w : Engine τ ρ}

/-! ## The log in batches -/

variable {p : Nat × List String}

namespace Traced

variable {t : Traced τ ρ} {e : Event}

/-- What a step publishes: the changes its session is now to append. -/
structure Publication (w : Engine τ ρ) (t : Traced τ ρ) (e : Event) (p : Nat × List String) :
    Prop where
  idle : (t.server.sessions e.pid).running = none
  now : p.1 = t.server.clock
  pending : p.2 = ((t.server.step w e).sessions e.pid).pending
  ending : ((t.server.step w e).sessions e.pid).ending = true

theorem mem_published_step (hp : p ∈ (t.step w e).published) :
    p ∈ t.published ∨ Publication w t e p := by
  rcases mem_append.mp hp with hp | hp
  · exact .inl hp
  refine .inr ?_
  rw [publication] at hp
  split at hp
  · next hrun hrun' =>
    rw [mem_singleton.mp hp]
    refine ⟨hrun, rfl, ?_, ?_⟩
    · rw [Session.pending, hrun']
    · rw [Session.ending, hrun']
  · cases hp

theorem published_of_lt (hp : p ∈ (t.step w e).published) (hlt : p.1 < t.server.clock) :
    p ∈ t.published :=
  (mem_published_step hp).resolve_right fun hnew => Nat.ne_of_lt hlt hnew.now

theorem subset_published_step : t.published ⊆ (t.step w e).published :=
  subset_append_left _ _

end Traced

/-- The log is the batches `bs` in a row.  A batch of a published block holds all that the block has
buffered, and the others have at most one record; what is published and not yet appended has a tag
that is not in the log. -/
structure Batched (old : List String) (t : Traced τ ρ) (bs : List (Nat × List String)) : Prop where
  records : t.server.wal = some (old ++ t.log.map Prod.snd)
  log : t.log = expand bs
  distinct : (bs.map Prod.fst).Nodup
  past : ∀ b ∈ bs, b.1 < t.server.clock
  published_past : ∀ p ∈ t.published, p.1 < t.server.clock
  whole : ∀ p ∈ t.published, ∀ b ∈ bs, b.1 = p.1 → b.2 = p.2.filter fun sql => sql ≠ ""
  single : ∀ b ∈ bs, b.2.length ≤ 1 ∨ ∃ p ∈ t.published, p.1 = b.1
  pending_published : ∀ q, (t.server.sessions q).pending ≠ [] →
    (t.startedAt q, (t.server.sessions q).pending) ∈ t.published
  pending_whole : ∀ q, (t.server.sessions q).pending ≠ [] → ∀ p ∈ t.published,
    p.1 = t.startedAt q → p.2 = (t.server.sessions q).pending
  pending_fresh : ∀ q, (t.server.sessions q).pending ≠ [] → t.startedAt q ∉ bs.map Prod.fst
  pending_distinct : ∀ q q', (t.server.sessions q).pending ≠ [] →
    (t.server.sessions q').pending ≠ [] → t.startedAt q = t.startedAt q' → q = q'

namespace Batched

variable {old : List String} {t : Traced τ ρ} {bs : List (Nat × List String)} {e : Event}

theorem init (db : Database τ ρ) (old : List String) : Batched old (Traced.init db old) [] where
  records := by simp [Traced.init, Server.init]
  log := rfl
  distinct := .nil
  past := by simp
  published_past := by simp [Traced.init]
  whole := by simp
  single := by simp
  pending_published q hq := absurd rfl hq
  pending_whole q hq := absurd rfl hq
  pending_fresh q hq := absurd rfl hq
  pending_distinct q q' hq := absurd rfl hq

theorem pending_past (h : Batched old t bs) (q : Pid) (hq : (t.server.sessions q).pending ≠ []) :
    t.startedAt q < t.server.clock :=
  h.published_past _ (h.pending_published q hq)

theorem clock_fresh (h : Batched old t bs) : t.server.clock ∉ bs.map Prod.fst := by
  intro hmem
  obtain ⟨b, hb, hclock⟩ := mem_map.mp hmem
  exact Nat.ne_of_lt (h.past b hb) hclock

theorem publication_of_now (h : Batched old t bs) (hp : p ∈ (t.step w e).published)
    (hnow : p.1 = t.server.clock) : Traced.Publication w t e p :=
  (mem_published_step hp).resolve_left fun hold =>
    Nat.ne_of_lt (h.published_past p hold) hnow

section

variable {cs : List (Nat × List String)}
  (hothers : ∀ b ∈ cs, ∀ q, q ≠ e.pid → (t.server.sessions q).pending ≠ [] → t.startedAt q ≠ b.1)
  (hself : ((t.server.step w e).sessions e.pid).pending ≠ [] → cs = [] ∧
    (((t.server.step w e).sessions e.pid).pending = (t.server.sessions e.pid).pending ∨
      (t.step w e).startedAt e.pid = t.server.clock ∧
        (t.server.clock, ((t.server.step w e).sessions e.pid).pending) ∈
          (t.step w e).published))
include hothers hself

/-- Who is before an append after a step was there already, or is the session of the step. -/
theorem pending_cases {q : Pid} (hq : ((t.step w e).server.sessions q).pending ≠ []) :
    (((t.step w e).server.sessions q).pending = (t.server.sessions q).pending ∧
      (t.step w e).startedAt q = t.startedAt q ∧ ∀ b ∈ cs, t.startedAt q ≠ b.1) ∨
    (q = e.pid ∧ cs = [] ∧ (t.step w e).startedAt q = t.server.clock ∧
      (t.server.clock, ((t.step w e).server.sessions q).pending) ∈ (t.step w e).published) := by
  rcases eq_or_ne q e.pid with rfl | hqe
  · obtain ⟨rfl, hsame | ⟨hstart, hmem⟩⟩ := hself hq
    · have hold : (t.server.sessions e.pid).pending ≠ [] := hsame ▸ hq
      have hrun : (t.server.sessions e.pid).running ≠ none := fun hrun =>
        hold (Session.pending_of_idle hrun)
      exact .inl ⟨hsame, congrFun (startedAt_of_running hrun) _, by simp⟩
    · exact .inr ⟨rfl, rfl, hstart, hmem⟩
  · have hs : (t.step w e).server.sessions q = t.server.sessions q := sessions_of_ne hqe
    rw [hs] at hq
    exact .inl ⟨congrArg Session.pending hs, startedAt_of_ne hqe,
      fun b hb => hothers b hb q hqe hq⟩

/-- A step that adds the batches `cs` to the log, and leaves its session before an append only if it
was there before or publishes now. -/
theorem next (h : Batched old t bs)
    (hwal : (t.server.step w e).wal = some (old ++ t.log.map Prod.snd ++ (expand cs).map Prod.snd))
    (hlog : (t.step w e).log = t.log ++ expand cs)
    (hdistinct : ((bs ++ cs).map Prod.fst).Nodup) (hpast : ∀ b ∈ cs, b.1 ≤ t.server.clock)
    (hwhole : ∀ p ∈ (t.step w e).published, ∀ b ∈ cs, b.1 = p.1 →
      b.2 = p.2.filter fun sql => sql ≠ "")
    (hsingle : ∀ b ∈ cs, b.2.length ≤ 1 ∨ ∃ p ∈ (t.step w e).published, p.1 = b.1) :
    Batched old (t.step w e) (bs ++ cs) := by
  have hkept := fun q => pending_cases (q := q) hothers hself
  refine
    { records := ?_
      log := ?_
      distinct := hdistinct
      past := ?_
      published_past := ?_
      whole := ?_
      single := ?_
      pending_published := ?_
      pending_whole := ?_
      pending_fresh := ?_
      pending_distinct := ?_ }
  · rw [hlog, map_append, ← append_assoc]
    exact hwal
  · rw [hlog, h.log, expand_append]
  · intro b hb
    rcases mem_append.mp hb with hb | hb
    · exact Nat.lt_succ_of_lt (h.past b hb)
    · exact Nat.lt_succ_of_le (hpast b hb)
  · intro p hp
    rcases mem_published_step hp with hp | hp
    · exact Nat.lt_succ_of_lt (h.published_past p hp)
    · exact Nat.lt_succ_of_le (Nat.le_of_eq hp.now)
  · intro p hp b hb hbp
    rcases mem_append.mp hb with hb | hb
    · exact h.whole p (published_of_lt hp (hbp ▸ h.past b hb)) b hb hbp
    · exact hwhole p hp b hb hbp
  · intro b hb
    rcases mem_append.mp hb with hb | hb
    · exact (h.single b hb).imp_right fun ⟨p, hp, hpb⟩ =>
        ⟨p, subset_published_step hp, hpb⟩
    · exact hsingle b hb
  · intro q hq
    rcases hkept q hq with ⟨hsame, hstart, -⟩ | ⟨rfl, -, hstart, hmem⟩
    · rw [hsame] at hq ⊢
      rw [hstart]
      exact subset_published_step (h.pending_published q hq)
    · rw [hstart]
      exact hmem
  · intro q hq p hp hpq
    rcases hkept q hq with ⟨hsame, hstart, -⟩ | ⟨rfl, -, hstart, -⟩
    · rw [hsame] at hq ⊢
      rw [hstart] at hpq
      exact h.pending_whole q hq p (published_of_lt hp (hpq ▸ h.pending_past q hq)) hpq
    · exact (h.publication_of_now hp (hpq.trans hstart)).pending
  · intro q hq
    rw [map_append, mem_append]
    rcases hkept q hq with ⟨hsame, hstart, hne⟩ | ⟨rfl, rfl, hstart, -⟩
    · rw [hsame] at hq
      rw [hstart]
      rintro (hmem | hmem)
      · exact h.pending_fresh q hq hmem
      · obtain ⟨b, hb, hbq⟩ := mem_map.mp hmem
        exact hne b hb hbq.symm
    · rw [hstart]
      rintro (hmem | hmem)
      · exact h.clock_fresh hmem
      · cases hmem
  · intro q q' hq hq' heq
    rcases hkept q hq with ⟨hsame, hstart, -⟩ | ⟨rfl, -, hstart, -⟩ <;>
      rcases hkept q' hq' with ⟨hsame', hstart', -⟩ | ⟨rfl, -, hstart', -⟩
    · rw [hsame] at hq
      rw [hsame'] at hq'
      rw [hstart, hstart'] at heq
      exact h.pending_distinct q q' hq hq' heq
    · rw [hsame] at hq
      have := h.pending_past q hq
      omega
    · rw [hsame'] at hq'
      have := h.pending_past q' hq'
      omega
    · rfl

end

variable (h : Batched old t bs)
include h

/-- A step that appends nothing. -/
theorem quiet (hwal : (t.server.step w e).wal = t.server.wal)
    (hself : ((t.server.step w e).sessions e.pid).pending ≠ [] →
      ((t.server.step w e).sessions e.pid).pending = (t.server.sessions e.pid).pending ∨
        (t.step w e).startedAt e.pid = t.server.clock ∧
          (t.server.clock, ((t.server.step w e).sessions e.pid).pending) ∈
            (t.step w e).published) : Batched old (t.step w e) bs := by
  have hnext : Batched old (t.step w e) (bs ++ []) := by
    refine h.next (by simp) (fun hne => ⟨rfl, hself hne⟩) ?_ ?_ ?_ (by simp) (by simp) (by simp)
    · rw [hwal, h.records]
      exact congrArg some (append_nil _).symm
    · rw [log_of_wal_eq hwal]
      exact (append_nil _).symm
    · rw [append_nil]
      exact h.distinct
  rwa [append_nil] at hnext

/-- A step that appends nothing and leaves its session with nothing to append. -/
theorem settled (hwal : (t.server.step w e).wal = t.server.wal)
    (hnone : ((t.server.step w e).sessions e.pid).pending = []) :
    ∃ bs', Batched old (t.step w e) bs' :=
  ⟨bs, h.quiet hwal fun hne => absurd hnone hne⟩

/-- A step that appends the records `new`, under a tag that is not in the log. -/
theorem append {new : List String}
    (hwal : (t.server.step w e).wal = some (old ++ t.log.map Prod.snd ++ new))
    (hfresh : (t.step w e).startedAt e.pid ∉ bs.map Prod.fst)
    (hpast : (t.step w e).startedAt e.pid ≤ t.server.clock)
    (hwhole : ∀ p ∈ (t.step w e).published, (t.step w e).startedAt e.pid = p.1 →
      new = p.2.filter fun sql => sql ≠ "")
    (hsingle : new.length ≤ 1 ∨ ∃ p ∈ (t.step w e).published, p.1 = (t.step w e).startedAt e.pid)
    (hothers : ∀ q, q ≠ e.pid → (t.server.sessions q).pending ≠ [] →
      t.startedAt q ≠ (t.step w e).startedAt e.pid)
    (hnone : ((t.server.step w e).sessions e.pid).pending = []) :
    ∃ bs', Batched old (t.step w e) bs' := by
  have hlog := log_step (w := w) (e := e) h.records hwal
  generalize (t.step w e).startedAt e.pid = o at *
  have hexpand : expand [(o, new)] = new.map fun sql => (o, sql) := append_nil _
  refine ⟨bs ++ [(o, new)], h.next ?_ (fun hne => absurd hnone hne) ?_ ?_ ?_ ?_ ?_ ?_⟩
  · intro b hb
    rw [mem_singleton.mp hb]
    exact hothers
  · rw [hexpand]
    simpa using hwal
  · rw [hexpand]
    exact hlog
  · rw [map_append, nodup_append]
    refine ⟨h.distinct, nodup_singleton _, fun a ha b hb hab => hfresh ?_⟩
    obtain rfl : b = o := mem_singleton.mp hb
    exact hab ▸ ha
  · intro b hb
    rw [mem_singleton.mp hb]
    exact hpast
  · intro p hp b hb
    rw [mem_singleton.mp hb]
    exact hwhole p hp
  · intro b hb
    rw [mem_singleton.mp hb]
    exact hsingle

/-- **A step keeps the log in batches** if its appends succeed. -/
theorem step (hok : ∀ i, w.appendOk t.server.clock i = true) :
    ∃ bs', Batched old (t.step w e) bs' := by
  have hd := did w t.server e
  have hwal : (t.server.step w e).wal = (t.server.apply w e).wal := rfl
  have hsess : (t.server.step w e).sessions = (t.server.apply w e).sessions := rfl
  generalize t.server.apply w e = s' at hd hwal hsess
  cases hd with
  | «local» sess _ hpending =>
    refine ⟨bs, h.quiet (hwal.trans rfl) fun _ => .inl ?_⟩
    rw [hsess, sessions_set_self, hpending]
  | autocommit stmt sess he hc htx hrun htx' hpending hending =>
    have hnone : ((t.server.step w e).sessions e.pid).pending = [] := by
      rw [hsess, sessions_set_self, hpending]
    have hstart := startedAt_of_start (w := w) he hrun
    rw [wal_setSession, wal_executeAutocommit h.records,
      appendAll_of_forall_lt 0 fun _ _ => hok _] at hwal
    refine h.append hwal ?_ (Nat.le_of_eq hstart) ?_ (.inl ?_) ?_ hnone
    · rw [hstart]
      exact h.clock_fresh
    · intro p hp hclock
      have hended := (h.publication_of_now hp (hclock.symm.trans hstart)).ending
      rw [hsess, sessions_set_self, hending] at hended
      cases hended
    · refine (length_filter_le _ _).trans ?_
      rw [autocommitLog]
      split
      · split <;> simp
      · simp
    · intro q hq hpq
      have := h.pending_past q hpq
      omega
  | publish tx db gid he htx hrun hf hpub =>
    have hstart := startedAt_of_start (w := w) he hrun
    refine ⟨bs, h.quiet (hwal.trans rfl) fun _ => .inr ⟨hstart, ?_⟩⟩
    refine mem_append_right _ ?_
    rw [Traced.publication, hrun, hsess, sessions_set_self]
    exact mem_singleton_self _
  | conflict =>
    refine h.settled (hwal.trans rfl) ?_
    rw [hsess, sessions_set_self]
    rfl
  | append sess htx he hold hpending =>
    have hnone : ((t.server.step w e).sessions e.pid).pending = [] := by
      rw [hsess, sessions_set_self, hpending]
    rw [wal_setSession, wal_append h.records,
      appendAll_of_forall_lt 0 fun _ _ => hok _, nil_append] at hwal
    by_cases hp : (t.server.sessions e.pid).pending = []
    · refine h.settled ?_ hnone
      rw [hwal, hp, h.records]
      exact congrArg some (append_nil _)
    · have hstart : (t.step w e).startedAt = t.startedAt :=
        startedAt_of_running fun hrun => hp (Session.pending_of_idle hrun)
      have hpub := h.pending_published e.pid hp
      refine h.append hwal ?_ ?_ ?_ (.inr ⟨_, subset_published_step hpub, ?_⟩) ?_ hnone
      · rw [hstart]
        exact h.pending_fresh e.pid hp
      · rw [hstart]
        exact (h.pending_past e.pid hp).le
      · intro p hpp htag
        rw [hstart] at htag
        rcases mem_published_step hpp with hpp | hpp
        · rw [h.pending_whole e.pid hp p hpp htag.symm]
        · exact absurd (Session.pending_of_idle hpp.idle) hp
      · rw [hstart]
      · intro q hq hqp heq
        rw [hstart] at heq
        exact hq (h.pending_distinct q e.pid hqp hp heq)
  | release sess _ _ hpending =>
    refine h.settled (hwal.trans rfl) ?_
    rw [hsess, sessions_set_self, hpending]
  | granted _ _ _ sess _ _ _ _ hpending =>
    refine h.settled (hwal.trans rfl) ?_
    rw [hsess, sessions_set_self, hpending]
  | waits => exact ⟨bs, h.quiet (hwal.trans rfl) fun _ => .inl (by rw [hsess])⟩
  | refused _ _ _ sess _ _ _ _ _ hpending =>
    refine h.settled (hwal.trans rfl) ?_
    rw [hsess, sessions_set_self, hpending]

end Batched

/-! ## Crashes at record boundaries -/

/-- The first `k` records of the log hold of every published block all that it has buffered, or
nothing.  An empty text has no record. -/
def AllOrNothing (t : Traced τ ρ) (k : Nat) : Prop :=
  ∀ p ∈ t.published, ofTag p.1 (t.log.take k) = [] ∨
    ofTag p.1 (t.log.take k) = p.2.filter fun sql => sql ≠ ""

theorem Batched.allOrNothing_iff {old : List String} {t : Traced τ ρ}
    {bs : List (Nat × List String)} (h : Batched old t bs) (k : Nat) :
    AllOrNothing t k ↔ Between t.log k := by
  rw [AllOrNothing, h.log, ← whole_iff_between h.distinct]
  constructor
  · intro hall b hb
    rcases h.single b hb with hshort | ⟨p, hp, hpb⟩
    · -- What a prefix holds of a batch with one record is all or nothing.
      have hpre := prefix_ofTag_take b.1 (expand bs) k
      rw [ofTag_expand_of_mem h.distinct hb] at hpre
      rcases Nat.eq_zero_or_pos (ofTag b.1 ((expand bs).take k)).length with hnil | hpos
      · exact .inl (length_eq_zero_iff.mp hnil)
      · exact .inr (hpre.eq_of_length_le (by omega))
    · rw [h.whole p hp b hb hpb.symm, ← hpb]
      exact hall p hp
  · intro hwhole p hp
    by_cases hmem : p.1 ∈ bs.map Prod.fst
    · obtain ⟨b, hb, hbp⟩ := mem_map.mp hmem
      rw [← h.whole p hp b hb hbp, ← hbp]
      exact hwhole b hb
    · refine .inl (prefix_nil.mp ?_)
      rw [← ofTag_expand_of_notMem hmem]
      exact prefix_ofTag_take p.1 (expand bs) k

/-- What is executed of a file of whole records. -/
theorem replay_file {arms : Parser.Arms} {sqls : List String}
    (hself : ∀ sql ∈ sqls, Wal.SelfContained arms sql.toList) :
    Wal.replay arms (Wal.contents (Wal.file (sqls.map String.toList))) =
      sqls.flatMap fun sql => Wal.statementsOf arms sql.toList := by
  have hcontents : Wal.contents (Wal.file (sqls.map String.toList)) =
      Wal.script (sqls.map String.toList) ++ [] := by
    rw [Wal.file_eq, Wal.contents, Utf8.decodeLossy_utf8_self, append_nil]
  rw [Wal.replay_eq, hcontents, Wal.executed_script_append ?_ (.inl ⟨[], rfl⟩), flatMap_map]
  · exact append_nil _
  · intro sql hsql
    obtain ⟨sql', hmem, rfl⟩ := mem_map.mp hsql
    exact hself sql' hmem

/-- **Transactions in the log.**  Let any sessions run, with all appends to the log succeeding and all
its texts self-contained, and let a crash leave the first `k` of the records they have appended.  Then
the next start executes the statements of the records that are left, and these are of every
transaction all that it has buffered or nothing if and only if the crash is not between two records
that one `COMMIT` or `PREPARE TRANSACTION` has appended. -/
theorem replay_whole_transactions (arms : Parser.Arms) (w : Engine τ ρ) (db : Database τ ρ)
    (old : List String) (es : List Event) (k : Nat) (hok : ∀ c i, w.appendOk c i = true)
    (hself : ∀ sql ∈ old ++ (run (Traced.step w) (Traced.init db old) es).log.map Prod.snd,
      Wal.SelfContained arms sql.toList) :
    let t := run (Traced.step w) (Traced.init db old) es
    let left := old ++ (t.log.take k).map Prod.snd
    t.server.wal = some (old ++ t.log.map Prod.snd) ∧
      Wal.replay arms (Wal.contents (Wal.file (left.map String.toList))) =
        left.flatMap (fun sql => Wal.statementsOf arms sql.toList) ∧
      (AllOrNothing t k ↔ Between t.log k) := by
  intro t left
  have hbatched : ∃ bs, Batched old t bs := by
    refine run_induction (I := fun t => ∃ bs, Batched old t bs) es ⟨[], .init db old⟩ ?_
    rintro t e ⟨bs, h⟩
    exact h.step (hok t.server.clock)
  obtain ⟨bs, h⟩ := hbatched
  refine ⟨h.records, replay_file fun sql hsql => hself sql ?_, h.allOrNothing_iff k⟩
  rcases mem_append.mp hsql with hsql | hsql
  · exact mem_append_left _ hsql
  · rw [map_take] at hsql
    exact mem_append_right _ (mem_of_mem_take hsql)

/-- The small engine with the serialized form of `DROP TABLE`. -/
def dropEngine : Engine (List Int) Unit :=
  { tinyEngine with
    statementToSql := fun
      | .dropTable d => "DROP TABLE " ++ d.name
      | stmt => tinyEngine.statementToSql stmt }

/-- One transaction that drops two tables. -/
def twoDrops : List Event :=
  [.start 1 (.begin none none), .start 1 (.dropTable ⟨"orders", false⟩),
    .start 1 (.dropTable ⟨"orders_old", false⟩), .start 1 .commit, .resume 1]

theorem log_twoDrops : (run (Traced.step dropEngine) (Traced.init tinyDatabase []) twoDrops).log =
    [(3, "DROP TABLE orders"), (3, "DROP TABLE orders_old")] := by
  decide +kernel

theorem drop_orders : Wal.SelfContained Wal.refusing "DROP TABLE orders".toList ∧
    Wal.statementsOf Wal.refusing "DROP TABLE orders".toList = [.dropTable ⟨"orders", false⟩] :=
  ⟨(Wal.of_isDropTable Wal.isDropTable_orders).2,
    Wal.statementsOf_of_isDropTable Wal.isDropTable_orders⟩

theorem drop_ordersOld : Wal.SelfContained Wal.refusing "DROP TABLE orders_old".toList ∧
    Wal.statementsOf Wal.refusing "DROP TABLE orders_old".toList =
      [.dropTable ⟨"orders_old", false⟩] :=
  ⟨(Wal.of_isDropTable Wal.isDropTable_ordersOld).2,
    Wal.statementsOf_of_isDropTable Wal.isDropTable_ordersOld⟩

/-- A crash after the whole transaction. -/
theorem replay_whole_transactions_two :
    let t := run (Traced.step dropEngine) (Traced.init tinyDatabase []) twoDrops
    let left := (t.log.take 2).map Prod.snd
    Wal.replay Wal.refusing (Wal.contents (Wal.file (left.map String.toList))) =
        [.dropTable ⟨"orders", false⟩, .dropTable ⟨"orders_old", false⟩] ∧
      AllOrNothing t 2 := by
  intro t left
  have hself : ∀ sql ∈ [] ++ t.log.map Prod.snd, Wal.SelfContained Wal.refusing sql.toList := by
    rw [nil_append, log_twoDrops]
    intro sql hsql
    rcases mem_pair.mp hsql with h | h
    · rw [h]
      exact drop_orders.1
    · rw [h]
      exact drop_ordersOld.1
  obtain ⟨-, hreplay, hall⟩ := replay_whole_transactions Wal.refusing dropEngine tinyDatabase []
    twoDrops 2 (fun _ _ => rfl) hself
  have hleft : left = ["DROP TABLE orders", "DROP TABLE orders_old"] := by
    change (t.log.take 2).map Prod.snd = _
    rw [log_twoDrops]
    rfl
  refine ⟨?_, hall.mpr ?_⟩
  · refine Eq.trans hreplay ?_
    change left.flatMap _ = _
    rw [hleft, flatMap_cons, flatMap_cons, drop_orders.2, drop_ordersOld.2]
    rfl
  · rw [log_twoDrops]
    intro x y _ _ hy
    cases hy

/-- A crash between the two records of the transaction: the next start drops one of the tables. -/
theorem half_transaction_replayed :
    let t := run (Traced.step dropEngine) (Traced.init tinyDatabase []) twoDrops
    let left := (t.log.take 1).map Prod.snd
    ¬ AllOrNothing t 1 ∧
      Wal.replay Wal.refusing (Wal.contents (Wal.file (left.map String.toList))) =
        [.dropTable ⟨"orders", false⟩] := by
  intro t left
  have hleft : left = ["DROP TABLE orders"] := by
    change (t.log.take 1).map Prod.snd = _
    rw [log_twoDrops]
    rfl
  refine ⟨fun hall => ?_, ?_⟩
  · have hhalf := hall (3, ["DROP TABLE orders", "DROP TABLE orders_old"]) (by
      decide +kernel)
    rw [log_twoDrops] at hhalf
    revert hhalf
    decide
  · have hself : ∀ sql ∈ ["DROP TABLE orders"], Wal.SelfContained Wal.refusing sql.toList := by
      intro sql hsql
      rw [mem_singleton.mp hsql]
      exact drop_orders.1
    rw [hleft, replay_file hself, flatMap_cons, drop_orders.2]
    rfl

end PostgresRs
