import Mathlib.Algebra.BigOperators.Group.List.Basic
import Mathlib.Algebra.Ring.Nat
import Mathlib.Data.List.Nodup
import Mathlib.Logic.Relation

/-!
# Breadth-first walks

A queue of nodes is worked off; a node that is new joins the result and its successors the queue.
A walk that is long enough ends (`runs_bfs`).  What it has found then is what can be reached from
the start, other than the start itself (`Runs.mem_iff`), each node once and behind one that leads to it
(`Runs.found`).
-/

namespace Walk

open List

section

variable {α : Type} (next : α → List α) (start : α)

/-- The loop, from the nodes found and the queue to the result. -/
inductive Runs : List α → List α → List α → Prop
  | done {out : List α} : Runs out [] out
  | skip {out queue result : List α} {x : α} (hx : x ∈ out ∨ x = start)
    (h : Runs out queue result) : Runs out (x :: queue) result
  | visit {out queue result : List α} {x : α} (hx : ¬(x ∈ out ∨ x = start))
    (h : Runs (out ++ [x]) (queue ++ next x) result) : Runs out (x :: queue) result

/-- Every step along `next` from `start` or a node found leads to a node found, one in the queue, or
the start. -/
def Closed (out queue : List α) : Prop :=
  ∀ x, x = start ∨ x ∈ out → ∀ y ∈ next x, y ∈ out ∨ y ∈ queue ∨ y = start

/-- A node found, or in the queue, is a successor of the start or of a node found before it. -/
structure Found (out queue : List α) : Prop where
  nodup : out.Nodup
  start_notMem : start ∉ out
  behind : ∀ i x, out[i]? = some x → ∃ y, x ∈ next y ∧ (y = start ∨ y ∈ out.take i)
  queued : ∀ x ∈ queue, ∃ y, x ∈ next y ∧ (y = start ∨ y ∈ out)

variable {next start} {out queue result : List α} {x : α}

theorem closed_cons_of_skip (h : Closed next start out (x :: queue)) (hx : x ∈ out ∨ x = start) :
    Closed next start out queue := by
  intro y hy z hz
  rcases h y hy z hz with hout | hqueue | hstart
  · exact .inl hout
  · rcases mem_cons.mp hqueue with rfl | hqueue
    · exact hx.imp id .inr
    · exact .inr (.inl hqueue)
  · exact .inr (.inr hstart)

theorem closed_append (h : Closed next start out (x :: queue)) :
    Closed next start (out ++ [x]) (queue ++ next x) := by
  intro y hy z hz
  have hnew : y = x → z ∈ out ++ [x] ∨ z ∈ queue ++ next x ∨ z = start := fun heq =>
    .inr (.inl (mem_append_right _ (heq ▸ hz)))
  have hold : y = start ∨ y ∈ out → z ∈ out ++ [x] ∨ z ∈ queue ++ next x ∨ z = start := by
    intro hy
    rcases h y hy z hz with hout | hqueue | hstart
    · exact .inl (mem_append_left _ hout)
    · rcases mem_cons.mp hqueue with rfl | hqueue
      · exact .inl (mem_append_right _ mem_cons_self)
      · exact .inr (.inl (mem_append_left _ hqueue))
    · exact .inr (.inr hstart)
  rcases hy with hstart | hy
  · exact hold (.inl hstart)
  · rcases mem_append.mp hy with hout | hx
    · exact hold (.inr hout)
    · exact hnew (mem_singleton.mp hx)

namespace Found

theorem visit (h : Found next start out (x :: queue)) (hx : ¬(x ∈ out ∨ x = start)) :
    Found next start (out ++ [x]) (queue ++ next x) := by
  obtain ⟨hout, hstart⟩ := not_or.mp hx
  obtain ⟨hfirst, hqueue⟩ := forall_mem_cons.mp h.queued
  refine ⟨h.nodup.append (nodup_singleton x) (by simpa using hout), ?_, fun i z hz => ?_,
    fun z hz => ?_⟩
  · simpa using ⟨h.start_notMem, Ne.symm hstart⟩
  · rcases Nat.lt_trichotomy i out.length with hi | rfl | hi
    · rw [getElem?_append_left hi] at hz
      rw [take_append_of_le_length (Nat.le_of_lt hi)]
      exact h.behind i z hz
    · obtain rfl : x = z := by simpa using hz
      rw [take_left]
      exact hfirst
    · rw [getElem?_eq_none (by rw [length_append]; exact hi)] at hz
      cases hz
  · rcases mem_append.mp hz with hz | hz
    · obtain ⟨y, hy, hfound⟩ := hqueue z hz
      exact ⟨y, hy, hfound.imp_right (mem_append_left _)⟩
    · exact ⟨x, hz, .inr (mem_append_right _ mem_cons_self)⟩

theorem reaches (h : Found next start out queue) (i : Nat) (x : α) (hx : out[i]? = some x) :
    Relation.TransGen (fun a b => b ∈ next a) start x := by
  induction i using Nat.strongRecOn generalizing x with
  | ind i ih =>
    obtain ⟨y, hy, rfl | hbefore⟩ := h.behind i x hx
    · exact .single hy
    · obtain ⟨j, hj⟩ := mem_iff_getElem?.mp hbefore
      rw [getElem?_take, Option.ite_none_right_eq_some] at hj
      exact (ih j hj.1 y hj.2).tail hy

end Found

namespace Runs

theorem closed (h : Runs next start out queue result) (hclosed : Closed next start out queue) :
    Closed next start result [] := by
  induction h with
  | done => exact hclosed
  | skip hx _ ih => exact ih (closed_cons_of_skip hclosed hx)
  | visit _ _ ih => exact ih (closed_append hclosed)

theorem keeps_found (h : Runs next start out queue result) (hfound : Found next start out queue) :
    Found next start result [] := by
  induction h with
  | done => exact hfound
  | skip _ _ ih => exact ih { hfound with queued := (forall_mem_cons.mp hfound.queued).2 }
  | visit hx _ ih => exact ih (hfound.visit hx)

variable (h : Runs next start [] (next start) result)
include h

theorem found : Found next start result [] :=
  h.keeps_found ⟨.nil, not_mem_nil, nofun, fun _ hx => ⟨start, hx, .inl rfl⟩⟩

/-- **What a walk finds**: the nodes other than the start that can be reached from it. -/
theorem mem_iff :
    x ∈ result ↔ x ≠ start ∧ Relation.TransGen (fun a b => b ∈ next a) start x := by
  constructor
  · intro hx
    obtain ⟨i, hi⟩ := mem_iff_getElem?.mp hx
    exact ⟨ne_of_mem_of_not_mem hx h.found.start_notMem, h.found.reaches i x hi⟩
  · rintro ⟨hne, hreach⟩
    have hclosed : Closed next start result [] := by
      refine h.closed fun y hy z hz => ?_
      rcases hy with rfl | hy
      · exact .inr (.inl hz)
      · exact absurd hy not_mem_nil
    have hall : x ∈ result ∨ x = start := by
      induction hreach with
      | single hstep => simpa using hclosed start (.inl rfl) _ hstep
      | @tail y z _ hstep ih =>
        by_cases hy : y = start
        · simpa using hclosed y (.inl hy) z hstep
        · simpa using hclosed y ((ih hy).symm) z hstep
    exact hall.resolve_right hne

end Runs

end

/-! ## Fuel -/

variable {α : Type} [DecidableEq α] (next : α → List α) (start : α)

/-- A walk that takes at most `fuel` nodes from the queue; `out` are the nodes found so far. -/
def bfs : Nat → List α → List α → List α
  | 0, out, _ => out
  | _ + 1, out, [] => out
  | fuel + 1, out, x :: queue =>
    if x ∈ out ∨ x = start then bfs fuel out queue
    else bfs fuel (out ++ [x]) (queue ++ next x)

/-- How many nodes can still come through the queue, if all nodes are in `nodes`. -/
def pending (nodes out queue : List α) : Nat :=
  queue.length + ((nodes.filter (· ∉ out)).map fun x => (next x).length).sum

variable {next start} {nodes out queue : List α} {x : α}

/-- The successors of a new node move to the queue. -/
theorem pending_append (hx : x ∈ nodes) (hnodup : nodes.Nodup) (hout : x ∉ out) :
    pending next nodes (out ++ [x]) (queue ++ next x) = pending next nodes out queue := by
  obtain ⟨before, after, rfl⟩ := append_of_mem hx
  obtain ⟨-, hafter, hdisjoint⟩ := nodup_append.mp hnodup
  have hkeep : ∀ l : List α, x ∉ l →
      l.filter (fun y => decide (y ∉ out ++ [x])) = l.filter fun y => decide (y ∉ out) := by
    intro l hl
    refine filter_congr fun y hy => ?_
    have hne : y ≠ x := fun heq => hl (heq ▸ hy)
    simp [hne]
  have hbefore : x ∉ before := fun h => hdisjoint x h x mem_cons_self rfl
  rw [pending, pending, filter_append, filter_append, filter_cons, filter_cons,
    hkeep before hbefore, hkeep after (nodup_cons.mp hafter).1]
  simp [hout]
  omega

/-- **A walk that is long enough ends.** -/
theorem runs_bfs (hnodup : nodes.Nodup) (hnodes : ∀ x, next x ⊆ nodes) {fuel : Nat}
    (hfuel : pending next nodes out queue ≤ fuel) (hqueue : queue ⊆ nodes) :
    Runs next start out queue (bfs next start fuel out queue) := by
  induction fuel generalizing out queue with
  | zero =>
    obtain rfl : queue = [] := length_eq_zero_iff.mp (by rw [pending] at hfuel; omega)
    exact .done
  | succ fuel ih =>
    rcases queue with _ | ⟨x, queue⟩
    · exact .done
    have hpending : pending next nodes out (x :: queue) = pending next nodes out queue + 1 := by
      rw [pending, pending, length_cons]
      omega
    obtain ⟨hx, hqueue⟩ := cons_subset.mp hqueue
    rw [bfs]
    split
    · next hskip => exact .skip hskip (ih (by omega) hqueue)
    · next hskip =>
      refine .visit hskip (ih ?_ (append_subset.mpr ⟨hqueue, hnodes x⟩))
      rw [pending_append hx hnodup (not_or.mp hskip).1]
      omega

end Walk
