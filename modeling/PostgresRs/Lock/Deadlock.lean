import PostgresRs.Lock.Acquire
import PostgresRs.Util.Run

/-!
# The waits never deadlock

A backend that is told to wait comes back only with the same request, or gives up and releases
everything; that is how `acquire_lock` uses the manager.  Under this discipline a backend is queued
for at most the one object it was last refused, and from that it follows that nobody ever waits in a
circle:

* a grant adds edges only towards a backend that itself waits for nothing (`Orderly.grant`),
* a wait is recorded only after the test for a cycle, and a refused one leaves no trace,
* a release only removes edges.

`waits_acyclic` puts this together over whole runs, with the exact condition under which a request
is refused as a deadlock.
-/

namespace PostgresRs

open List

/-- The lock manager, and for every backend the request it was last told to wait for. -/
structure WaitHistory where
  locks : LockManager
  waiting : Pid → Option (LockObject × LockMode)

namespace WaitHistory

open Machine LockManager

def init : WaitHistory := ⟨.new, fun _ => none⟩

def step (s : WaitHistory) : LockCall → WaitHistory
  | .tryAcquire pid obj mode =>
    { locks := (s.locks.tryAcquire pid obj mode).1
      waiting := Function.update s.waiting pid
        (match (s.locks.tryAcquire pid obj mode).2 with
          | .conflict _ => some (obj, mode)
          | .granted => none
          | .deadlock => none) }
  | .releaseAll pid =>
    { locks := s.locks.releaseAll pid
      waiting := Function.update s.waiting pid none }

/-- A backend that was told to wait only retries the same request or releases everything. -/
def RetriesOnly (s : WaitHistory) : LockCall → Prop
  | .tryAcquire pid obj mode => s.waiting pid = none ∨ s.waiting pid = some (obj, mode)
  | .releaseAll _ => True

instance (s : WaitHistory) : ∀ c, Decidable (s.RetriesOnly c)
  | .tryAcquire _ _ _ => inferInstanceAs (Decidable (_ ∨ _))
  | .releaseAll _ => isTrue trivial

/-- The wait-for edges with those of a request of `pid` for `obj` in `mode` added. -/
def WithRequest (lm : LockManager) (pid : Pid) (obj : LockObject) (mode : LockMode)
    (a b : Pid) : Prop :=
  lm.waitForGraph.Edge a b ∨ (a = pid ∧ b ∈ lm.conflicting pid obj mode)

/-- Everybody is queued only for what it was last told to wait for, and nobody waits in a circle. -/
structure Orderly (s : WaitHistory) : Prop where
  queued : ∀ o, ∀ w ∈ (s.locks.state o).waiters, s.waiting w.pid = some (o, w.mode)
  acyclic : Acyclic s.locks.WaitsFor

variable {s : WaitHistory} {pid : Pid} {obj : LockObject} {mode : LockMode}

section

variable (h : s.Orderly)
include h

section

variable (hd : s.RetriesOnly (.tryAcquire pid obj mode))
include hd

/-- A disciplined requester is queued for nothing but the object it asks for, in the same mode. -/
theorem Orderly.own_waiter
    {o : LockObject} {w : Waiter} (hw : w ∈ (s.locks.state o).waiters) (hp : w.pid = pid) :
    o = obj ∧ w.mode = mode := by
  have hq := h.queued o w hw
  rw [hp] at hq
  rcases hd with hd | hd
  · simp [hd] at hq
  · rw [hd] at hq
    simp only [Option.some.injEq, Prod.mk.injEq] at hq
    exact ⟨hq.1.symm, hq.2.symm⟩

/-- Queueing a disciplined requester adds exactly the edges to its conflicting holders. -/
theorem Orderly.waitsFor_addWaiter {a b : Pid} :
    (s.locks.addWaiter pid obj mode).WaitsFor a b ↔ WithRequest s.locks pid obj mode a b := by
  simp only [WithRequest, edge_waitForGraph, WaitsFor, state_addWaiter]
  constructor
  · rintro ⟨hne, o, w, hw, k, hk, rfl, rfl, hc⟩
    split at hw
    · next ho =>
      obtain ⟨rfl, hnew⟩ := ho
      rw [if_pos ⟨rfl, hnew⟩] at hk
      rcases mem_append.1 hw with hw | hw
      · exact .inl ⟨hne, o, w, hw, k, hk, rfl, rfl, hc⟩
      · obtain rfl := mem_singleton.1 hw
        exact .inr ⟨rfl, mem_conflicting.2 ⟨hne, k, hk, rfl, hc⟩⟩
    · next ho =>
      rw [if_neg ho] at hk
      exact .inl ⟨hne, o, w, hw, k, hk, rfl, rfl, hc⟩
  · rintro (⟨hne, o, w, hw, k, hk, hrest⟩ | ⟨rfl, hb⟩)
    · refine ⟨hne, o, w, ?_, k, ?_, hrest⟩
      · split
        · exact mem_append_left _ hw
        · exact hw
      · split <;> exact hk
    · obtain ⟨hne, k, hk, hkb, hc⟩ := mem_conflicting.1 hb
      by_cases hnew : ∃ w ∈ (s.locks.state obj).waiters, w.pid = a
      · -- A retry: the entry is there already, for the same mode.
        obtain ⟨w, hw, hwa⟩ := hnew
        have hm := (h.own_waiter hd hw hwa).2
        refine ⟨hne, obj, w, ?_, k, ?_, hwa, hkb, hm ▸ hc⟩
        · rwa [if_neg fun h => h.2 ⟨w, hw, hwa⟩]
        · rwa [if_neg fun h => h.2 ⟨w, hw, hwa⟩]
      · refine ⟨hne, obj, ⟨a, mode⟩, ?_, k, ?_, rfl, hkb, hc⟩
        · rw [if_pos ⟨rfl, hnew⟩]
          simp
        · rwa [if_pos ⟨rfl, hnew⟩]

/-- A grant leaves the requester waiting for nothing, so the edges it adds end in a sink. -/
theorem Orderly.grant :
    Orderly ⟨s.locks.grant pid obj mode, Function.update s.waiting pid none⟩ := by
  have hown : ∀ {o w}, w ∈ ((s.locks.grant pid obj mode).state o).waiters →
      w.pid ≠ pid ∧ w ∈ (s.locks.state o).waiters := by
    intro o w hw
    rw [state_grant] at hw
    split at hw
    · obtain ⟨hw, hne⟩ := mem_filter.1 hw
      exact ⟨by simpa using hne, hw⟩
    · next ho => exact ⟨fun hp => ho (h.own_waiter hd hw hp).1, hw⟩
  refine ⟨fun o w hw => ?_, h.acyclic.of_sink (p := pid) ?_ ?_⟩
  · obtain ⟨hne, hw⟩ := hown hw
    exact (Function.update_of_ne hne ..).trans (h.queued o w hw)
  · rintro b ⟨-, o, w, hw, -, -, hp, -⟩
    exact (hown hw).1 hp
  · rintro a b ⟨hne, o, w, hw, k, hk, rfl, rfl, hc⟩
    by_cases hkp : k.pid = pid
    · exact .inl hkp
    · refine .inr ⟨hne, o, w, (hown hw).2, k, ?_, rfl, rfl, hc⟩
      rw [state_grant] at hk
      split at hk
      · exact (mem_upgradeHolder_of_ne hkp).1 hk
      · exact hk

theorem Orderly.conflict (hfree : s.locks.conflicting pid obj mode ≠ [])
    (hac : Acyclic (s.locks.addWaiter pid obj mode).WaitsFor)
    (he : s.locks.tryAcquire pid obj mode =
      (s.locks.addWaiter pid obj mode, .conflict (s.locks.conflicting pid obj mode))) :
    Orderly ⟨s.locks.addWaiter pid obj mode, Function.update s.waiting pid (some (obj, mode))⟩ := by
  refine ⟨fun o w hw => ?_, hac⟩
  have hw' := waiters_of_not_granted hfree (o := o) (w := w) (by rw [he]; exact hw)
  rcases hw' with hw | ⟨rfl, rfl, -⟩
  · by_cases hp : w.pid = pid
    · obtain ⟨rfl, rfl⟩ := h.own_waiter hd hw hp
      rw [hp]
      exact Function.update_self ..
    · exact (Function.update_of_ne hp ..).trans (h.queued o w hw)
  · exact Function.update_self ..

theorem Orderly.deadlock (hfree : s.locks.conflicting pid obj mode ≠ [])
    (he : s.locks.tryAcquire pid obj mode =
      ((s.locks.addWaiter pid obj mode).removeWaiter pid obj, .deadlock)) :
    Orderly ⟨(s.locks.addWaiter pid obj mode).removeWaiter pid obj,
      Function.update s.waiting pid none⟩ := by
  have hholders := holders_of_not_granted hfree
  have hwaiters := fun o w => waiters_of_not_granted hfree (o := o) (w := w)
  rw [he] at hholders hwaiters
  have hold : ∀ {o w},
      w ∈ (((s.locks.addWaiter pid obj mode).removeWaiter pid obj).state o).waiters →
        w.pid ≠ pid ∧ w ∈ (s.locks.state o).waiters := by
    intro o w hw
    have hw' := (hwaiters o w hw).resolve_right fun h => by simp at h
    refine ⟨fun hp => ?_, hw'⟩
    rw [(h.own_waiter hd hw' hp).1, state_removeWaiter, if_pos rfl] at hw
    simpa [hp] using (mem_filter.1 hw).2
  refine ⟨fun o w hw => ?_, h.acyclic.mono ?_⟩
  · obtain ⟨hne, hw⟩ := hold hw
    exact (Function.update_of_ne hne ..).trans (h.queued o w hw)
  · rintro a b ⟨hne, o, w, hw, k, hk, hrest⟩
    exact ⟨hne, o, w, (hold hw).2, k, hholders o ▸ hk, hrest⟩

end

theorem Orderly.releaseAll (pid : Pid) : (s.step (.releaseAll pid)).Orderly := by
  refine ⟨fun o w hw => ?_, h.acyclic.mono ?_⟩
  · simp only [step, state_releaseAll] at hw ⊢
    obtain ⟨hw, hne⟩ := mem_filter.1 hw
    rw [Function.update_of_ne (by simpa using hne)]
    exact h.queued o w hw
  · simp only [step, WaitsFor, state_releaseAll]
    rintro a b ⟨hne, o, w, hw, k, hk, hrest⟩
    exact ⟨hne, o, w, (mem_filter.1 hw).1, k, (mem_filter.1 hk).1, hrest⟩

/-- One disciplined call keeps the waits orderly. -/
theorem Orderly.step : ∀ c, s.RetriesOnly c → (s.step c).Orderly
  | .releaseAll pid, _ => h.releaseAll pid
  | .tryAcquire pid obj mode, hd => by
    simp only [WaitHistory.step]
    rcases s.locks.tryAcquire_cases pid obj mode with ⟨-, he⟩ | ⟨hc, -, he⟩ | ⟨hc, hac, he⟩
    · rw [he]
      exact h.grant hd
    · rw [he]
      exact h.deadlock hd hc he
    · rw [he]
      exact h.conflict hd hc hac he

end

theorem Orderly.init : WaitHistory.init.Orderly := by
  refine ⟨by simp [WaitHistory.init], ?_⟩
  intro a ha
  obtain ⟨b, hb, -⟩ := Relation.TransGen.head'_iff.1 ha
  simp [WaitsFor, WaitHistory.init] at hb

theorem Orderly.deadlock_iff (h : s.Orderly) (hd : s.RetriesOnly (.tryAcquire pid obj mode)) :
    (s.locks.tryAcquire pid obj mode).2 = .deadlock ↔
      s.locks.conflicting pid obj mode ≠ [] ∧
        ¬ Acyclic (WithRequest s.locks pid obj mode) := by
  have hedges : (s.locks.addWaiter pid obj mode).WaitsFor = WithRequest s.locks pid obj mode := by
    funext a b
    exact propext (h.waitsFor_addWaiter hd)
  rw [← hedges]
  rcases s.locks.tryAcquire_cases pid obj mode with ⟨hc, he⟩ | ⟨hc, hac, he⟩ | ⟨hc, hac, he⟩
  · simp [he, hc]
  · simp [he, hc, hac]
  · simp [he, hac]

/-- **The waits are acyclic after every call**, and a request is refused as a deadlock exactly when
it is blocked and its wait-for edges would close a cycle in the current graph. -/
theorem waits_acyclic (calls : List LockCall) (hd : Always step RetriesOnly init calls) :
    Acyclic (run step init calls).locks.waitForGraph.Edge ∧
      ∀ pid obj mode, (run step init calls).RetriesOnly (.tryAcquire pid obj mode) →
        (((run step init calls).locks.tryAcquire pid obj mode).2 = .deadlock ↔
          (run step init calls).locks.conflicting pid obj mode ≠ [] ∧
            ¬ Acyclic (WithRequest (run step init calls).locks pid obj mode)) := by
  have h : (run step init calls).Orderly :=
    hd.run_induction Orderly.init fun _ c h hc => h.step c hc
  refine ⟨h.acyclic.mono fun a b => edge_waitForGraph.1, fun pid obj mode hr => h.deadlock_iff hr⟩

/-- Two backends lock a table each and the first then asks for the second's: it waits, and the
second's request for the first's table would close a cycle. -/
theorem waits_acyclic_crossed :
    Acyclic (run step init [.tryAcquire 1 (.table "a") .accessExclusive,
        .tryAcquire 2 (.table "b") .accessExclusive,
        .tryAcquire 1 (.table "b") .accessExclusive]).locks.waitForGraph.Edge ∧
      ¬ Acyclic (WithRequest (run step init [.tryAcquire 1 (.table "a") .accessExclusive,
        .tryAcquire 2 (.table "b") .accessExclusive,
        .tryAcquire 1 (.table "b") .accessExclusive]).locks 2 (.table "a") .accessExclusive) := by
  have h := waits_acyclic [.tryAcquire 1 (.table "a") .accessExclusive,
    .tryAcquire 2 (.table "b") .accessExclusive, .tryAcquire 1 (.table "b") .accessExclusive]
    (by decide)
  exact ⟨h.1, ((h.2 2 (.table "a") .accessExclusive (by decide)).1 (by decide)).2⟩

end WaitHistory
end PostgresRs
