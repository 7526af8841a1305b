import PostgresRs.Lock.HasCycle

/-!
# Requests to the lock manager

`LockManager::try_acquire` with its deadlock test, and the relation the test is about.

* `waitForGraph` — the adjacency map the source builds from all waiters and holders.
* `WaitsFor` — the same relation read off the holders and waiters directly, the one the proofs
  work with (`edge_waitForGraph`).
* `tryAcquire_cases` — the three ways a request can end, with the condition for each and the table
  it leaves behind.
-/

namespace PostgresRs
namespace LockManager

open List

variable {lm : LockManager} {pid : Pid} {obj : LockObject} {mode : LockMode}

/-! ## The wait-for graph -/

/-- The edges of one object, in the order of the nested loops of `wait_for_graph`. -/
def objectEdges (st : ObjectState) : List (Pid × Pid) :=
  st.waiters.flatMap fun w =>
    (st.holders.filter fun h => h.pid != w.pid && h.mode.conflictsWith w.mode).map fun h =>
      (w.pid, h.pid)

/-- Waiter to the holders whose conflicting locks it is blocked on. -/
def waitForGraph (lm : LockManager) : Graph :=
  (lm.objects.entries.flatMap fun a => objectEdges a.2).foldl (fun g e => g.addEdge e.1 e.2) ∅

/-- `a` is queued for an object that `b` holds in a conflicting mode. -/
def WaitsFor (lm : LockManager) (a b : Pid) : Prop :=
  b ≠ a ∧ ∃ o, ∃ w ∈ (lm.state o).waiters, ∃ h ∈ (lm.state o).holders,
    w.pid = a ∧ h.pid = b ∧ h.mode.conflictsWith w.mode = true

theorem mem_objectEdges {st : ObjectState} {a b : Pid} :
    (a, b) ∈ objectEdges st ↔ b ≠ a ∧ ∃ w ∈ st.waiters, ∃ h ∈ st.holders,
      w.pid = a ∧ h.pid = b ∧ h.mode.conflictsWith w.mode = true := by
  simp only [objectEdges, mem_flatMap, mem_map, mem_filter, Bool.and_eq_true,
    bne_iff_ne, Prod.mk.injEq]
  constructor
  · rintro ⟨w, hw, h, ⟨hh, hne, hc⟩, rfl, rfl⟩
    exact ⟨hne, w, hw, h, hh, rfl, rfl, hc⟩
  · rintro ⟨hne, w, hw, h, hh, rfl, rfl, hc⟩
    exact ⟨w, hw, h, ⟨hh, hne, hc⟩, rfl, rfl⟩

theorem edge_foldl_addEdge {es : List (Pid × Pid)} {g : Graph} {a b : Pid} :
    (es.foldl (fun g e => g.addEdge e.1 e.2) g).Edge a b ↔ (a, b) ∈ es ∨ g.Edge a b := by
  induction es generalizing g with
  | nil => simp
  | cons e es ih =>
    rw [foldl_cons, ih, Graph.edge_addEdge, mem_cons, Prod.ext_iff, or_left_comm, or_assoc]

theorem edge_waitForGraph {a b : Pid} : lm.waitForGraph.Edge a b ↔ lm.WaitsFor a b := by
  have hempty : ¬ (∅ : Graph).Edge a b := by
    rw [Graph.Edge, Graph.neighbours, AList.get_empty]
    exact not_mem_nil
  have hentries : (∃ e ∈ lm.objects.entries, (a, b) ∈ objectEdges e.2) ↔
      ∃ o, (a, b) ∈ objectEdges (lm.state o) :=
    AList.exists_mem_entries (P := fun _ st => (a, b) ∈ objectEdges st)
      fun _ => by simp [objectEdges, default, instInhabitedObjectState.default]
  rw [waitForGraph, edge_foldl_addEdge, mem_flatMap, hentries]
  simp only [hempty, or_false, mem_objectEdges, WaitsFor, exists_and_left]

/-! ## `try_acquire` -/

/-- Try to lock `obj` in `mode` for `pid`: grant it, queue `pid` behind the conflicting holders, or
refuse because the wait would close a cycle. -/
def tryAcquire (lm : LockManager) (pid : Pid) (obj : LockObject) (mode : LockMode) :
    LockManager × TryAcquire :=
  let conflicting := lm.conflicting pid obj mode
  if conflicting = [] then (lm.grant pid obj mode, .granted)
  else
    let queued := lm.addWaiter pid obj mode
    if hasCycle queued.waitForGraph then (queued.removeWaiter pid obj, .deadlock)
    else (queued, .conflict conflicting)

/-- **What a request can do.** -/
theorem tryAcquire_cases (lm : LockManager) (pid : Pid) (obj : LockObject) (mode : LockMode) :
    (lm.conflicting pid obj mode = [] ∧
      lm.tryAcquire pid obj mode = (lm.grant pid obj mode, .granted)) ∨
    (lm.conflicting pid obj mode ≠ [] ∧ ¬ Acyclic (lm.addWaiter pid obj mode).WaitsFor ∧
      lm.tryAcquire pid obj mode =
        ((lm.addWaiter pid obj mode).removeWaiter pid obj, .deadlock)) ∨
    (lm.conflicting pid obj mode ≠ [] ∧ Acyclic (lm.addWaiter pid obj mode).WaitsFor ∧
      lm.tryAcquire pid obj mode =
        (lm.addWaiter pid obj mode, .conflict (lm.conflicting pid obj mode))) := by
  have hedge : (lm.addWaiter pid obj mode).waitForGraph.Edge =
      (lm.addWaiter pid obj mode).WaitsFor := by
    funext a b
    exact propext edge_waitForGraph
  have hcyc := hasCycle_iff (lm.addWaiter pid obj mode).waitForGraph
  rw [hedge] at hcyc
  unfold tryAcquire
  by_cases hc : lm.conflicting pid obj mode = []
  · exact .inl ⟨hc, by simp [hc]⟩
  · cases hh : hasCycle (lm.addWaiter pid obj mode).waitForGraph with
    | true => exact .inr (.inl ⟨hc, hcyc.1 hh, by simp [hc, hh]⟩)
    | false => exact .inr (.inr ⟨hc, by simpa [hh] using hcyc, by simp [hc, hh]⟩)

theorem granted_iff : (lm.tryAcquire pid obj mode).2 = .granted ↔
    lm.conflicting pid obj mode = [] := by
  rcases lm.tryAcquire_cases pid obj mode with ⟨hc, h⟩ | ⟨hc, -, h⟩ | ⟨hc, -, h⟩ <;> simp [h, hc]

theorem tryAcquire_of_free (h : lm.conflicting pid obj mode = []) :
    lm.tryAcquire pid obj mode = (lm.grant pid obj mode, .granted) := by
  simp [tryAcquire, h]

/-- A request that is not granted changes nobody's holders. -/
theorem holders_of_not_granted (h : lm.conflicting pid obj mode ≠ []) (o : LockObject) :
    ((lm.tryAcquire pid obj mode).1.state o).holders = (lm.state o).holders := by
  have hadd : ((lm.addWaiter pid obj mode).state o).holders = (lm.state o).holders := by
    rw [state_addWaiter]
    split <;> rfl
  rcases lm.tryAcquire_cases pid obj mode with ⟨hc, -⟩ | ⟨-, -, he⟩ | ⟨-, -, he⟩
  · exact absurd hc h
  · rw [he, state_removeWaiter]
    split <;> exact hadd
  · rw [he]
    exact hadd

/-- A request that is not granted leaves the queues as they are, up to the requester's own entry on
the object. -/
theorem waiters_of_not_granted (h : lm.conflicting pid obj mode ≠ []) {o : LockObject} {w : Waiter}
    (hw : w ∈ ((lm.tryAcquire pid obj mode).1.state o).waiters) :
    w ∈ (lm.state o).waiters ∨ o = obj ∧ w = ⟨pid, mode⟩ ∧
      (lm.tryAcquire pid obj mode).2 = .conflict (lm.conflicting pid obj mode) := by
  have hadd : ∀ w ∈ ((lm.addWaiter pid obj mode).state o).waiters,
      w ∈ (lm.state o).waiters ∨ o = obj ∧ w = ⟨pid, mode⟩ := by
    intro w hw
    rw [state_addWaiter] at hw
    split at hw
    · next ho =>
      rcases mem_append.1 hw with hw | hw
      · exact .inl hw
      · exact .inr ⟨ho.1, mem_singleton.1 hw⟩
    · exact .inl hw
  rcases lm.tryAcquire_cases pid obj mode with ⟨hc, -⟩ | ⟨-, -, he⟩ | ⟨-, -, he⟩
  · exact absurd hc h
  · rw [he, state_removeWaiter] at hw
    split at hw
    · obtain ⟨hw, hne⟩ := mem_filter.1 hw
      rcases hadd w hw with hw | ⟨-, rfl⟩
      · exact .inl hw
      · simp at hne
    · next ho => exact .inl ((hadd w hw).resolve_right fun h => ho h.1)
  · rw [he] at hw ⊢
    exact (hadd w hw).imp_right fun h => ⟨h.1, h.2, rfl⟩

end LockManager

/-- A call to the lock manager by a backend. -/
inductive LockCall where
  | tryAcquire (pid : Pid) (obj : LockObject) (mode : LockMode)
  | releaseAll (pid : Pid)
deriving DecidableEq, Repr

end PostgresRs
