import PostgresRs.Lock.Manager
import PostgresRs.Util.Acyclic
import Mathlib.Algebra.Order.BigOperators.Group.List
import Mathlib.Algebra.Order.Ring.Nat

/-!
# Deadlock detection: `has_cycle`

The depth-first search of `engine/src/lock.rs` over a graph given as an adjacency map, with white,
gray and black nodes and an explicit stack.  A stack entry `(node, false)` asks for a visit of the
node and `(node, true)` marks the end of its visit; a neighbour found gray closes a cycle.

The source's stack discipline is not the textbook one.  A node can be on the stack several times,
so it can be visited again after it is black; such a visit turns it gray once more, finds no white
neighbour and turns it black again.  The invariant `Searching` is stated so that it survives that.

* `dfs_spec` — from a state with the invariant the loop ends within `2 * edges + 2` iterations,
  either at a cycle of the graph or with an order in which every node seen was finished.
* `hasCycle_iff` — `hasCycle` decides whether the graph has a cycle, whatever the order of the
  map's entries.
-/

namespace PostgresRs

open Relation List Function

/-- An adjacency map: node to its out-neighbours, in some iteration order. -/
abbrev Graph := AList (fun _ : Pid => List Pid)

namespace Graph

/-- The out-neighbours of a node; none for a node that is not a key. -/
def neighbours (graph : Graph) (node : Pid) : List Pid := graph.get node

/-- The edges of the graph. -/
def Edge (graph : Graph) (a b : Pid) : Prop := b ∈ graph.neighbours a

/-- `graph.entry(a).or_default()`, then push `b` if it is not there yet. -/
def addEdge (graph : Graph) (a b : Pid) : Graph :=
  let edges := graph.get a
  graph.insert a (if b ∈ edges then edges else edges ++ [b])

theorem edge_addEdge {graph : Graph} {a b x y : Pid} :
    (graph.addEdge a b).Edge x y ↔ (x = a ∧ y = b) ∨ graph.Edge x y := by
  simp only [Edge, neighbours, addEdge, AList.get_insert]
  by_cases hx : x = a
  · subst hx
    by_cases hb : b ∈ graph.get x
    · simp only [hb, true_and]
      exact ⟨.inr, fun h => h.elim (fun h => h ▸ hb) id⟩
    · simp [hb, or_comm]
  · simp [hx]

theorem mem_keys_of_edge {graph : Graph} {a b : Pid} (h : graph.Edge a b) : a ∈ graph.keys := by
  rw [← AList.mem_keys, ← AList.lookup_isSome]
  cases hl : graph.lookup a with
  | none =>
    have : graph.neighbours a = [] := by simp only [neighbours, AList.get, hl]; rfl
    rw [Edge, this] at h
    exact absurd h not_mem_nil
  | some v => rfl

end Graph

/-! ## The search -/

inductive Color where
  | white
  | gray
  | black
deriving DecidableEq

/-- The colours of all nodes; a node without an entry in the source's map is white. -/
abbrev Colors := Pid → Color

/-- The stack, its top first: a node, and whether its children are done. -/
abbrev DfsStack := List (Pid × Bool)

/-- The loop over the neighbours of a visited node: push the white ones, skip the black ones and
stop at a gray one (`none`, the back-edge). -/
def pushNeighbours (color : Colors) : List Pid → DfsStack → Option DfsStack
  | [], stack => some stack
  | next :: rest, stack =>
    match color next with
    | .gray => none
    | .white => pushNeighbours color rest ((next, false) :: stack)
    | .black => pushNeighbours color rest stack

/-- How a search ends: at a cycle, with all its nodes coloured, or at its bound. -/
inductive Search where
  | cycle
  | finished (color : Colors)
  | outOfFuel

/-- The `while let Some((node, processed)) = stack.pop()` loop, for at most `fuel` iterations. -/
def dfs (graph : Graph) : Nat → Colors → DfsStack → Search
  | _, color, [] => .finished color
  | 0, _, _ :: _ => .outOfFuel
  | fuel + 1, color, (node, true) :: stack =>
    dfs graph fuel (Function.update color node .black) stack
  | fuel + 1, color, (node, false) :: stack =>
    let color := Function.update color node .gray
    match pushNeighbours color (graph.neighbours node) ((node, true) :: stack) with
    | none => .cycle
    | some stack => dfs graph fuel color stack

/-- An upper bound on the iterations of one search: every edge pushes at most one entry, and every
entry is popped at most twice. -/
def dfsFuel (graph : Graph) : Nat :=
  2 * (graph.entries.map fun a => a.2.length).sum + 2

/-- The outer loop, which starts a search at every key that is still white. -/
def dfsFrom (graph : Graph) : List Pid → Colors → Search
  | [], color => .finished color
  | start :: rest, color =>
    if color start = .white then
      match dfs graph (dfsFuel graph) color [(start, false)] with
      | .finished color => dfsFrom graph rest color
      | other => other
    else dfsFrom graph rest color

/-- The whole search of `has_cycle`. -/
def search (graph : Graph) : Search :=
  dfsFrom graph graph.keys fun _ => .white

/-- Whether the graph has a cycle. -/
def hasCycle (graph : Graph) : Bool :=
  match search graph with
  | .cycle => true
  | _ => false

/-! ## The invariant -/

/-- The state of a running search: `fin` lists the nodes that have been finished at least once,
last first. -/
structure Searching (graph : Graph) (color : Colors) (stack : DfsStack) (fin : List Pid) :
    Prop where
  /-- Every node was finished after all its neighbours. -/
  order : FinishOrder graph.Edge fin
  black_fin : ∀ x, color x = .black → x ∈ fin
  fin_seen : ∀ x ∈ fin, color x ≠ .white
  gray_open : ∀ x, color x = .gray → (x, true) ∈ stack
  /-- A pending visit of a node that is being visited lies below the end of that visit. -/
  gray_above : ∀ pre y post, stack = pre ++ (y, false) :: post → color y = .gray →
    (y, true) ∈ pre
  /-- A node being visited reaches everything above it on the stack. -/
  reaches : ∀ pre x post, stack = pre ++ (x, true) :: post →
    ∀ e ∈ pre, TransGen graph.Edge x e.1
  /-- The neighbours of a node being visited are finished or lie above it on the stack. -/
  covers : ∀ pre x post, stack = pre ++ (x, true) :: post →
    ∀ y, graph.Edge x y → y ∈ fin ∨ ∃ e ∈ pre, e.1 = y

variable {color : Colors} {ns fin : List Pid} {stack : DfsStack} {graph : Graph}

theorem pushNeighbours_none (h : pushNeighbours color ns stack = none) :
    ∃ y ∈ ns, color y = .gray := by
  induction ns generalizing stack with
  | nil => simp [pushNeighbours] at h
  | cons next rest ih =>
    unfold pushNeighbours at h
    split at h
    · next hc => exact ⟨next, mem_cons_self, hc⟩
    all_goals
      obtain ⟨y, hy, hc⟩ := ih h
      exact ⟨y, mem_cons_of_mem _ hy, hc⟩

/-- What the loop over the neighbours pushes: the white neighbours, each for a visit. -/
theorem pushNeighbours_some {stack' : DfsStack} (h : pushNeighbours color ns stack = some stack') :
    (∀ y ∈ ns, color y ≠ .gray) ∧ ∃ pushed, stack' = pushed ++ stack ∧
      pushed.length ≤ ns.length ∧ (∀ y ∈ ns, color y = .white → (y, false) ∈ pushed) ∧
      ∀ e ∈ pushed, e.2 = false ∧ e.1 ∈ ns ∧ color e.1 = .white := by
  induction ns generalizing stack with
  | nil => exact ⟨by simp, [], by simpa [pushNeighbours] using h.symm, by simp, by simp, by simp⟩
  | cons next rest ih =>
    unfold pushNeighbours at h
    split at h
    · simp at h
    · next hc =>
      obtain ⟨hgray, pushed, rfl, hlen, hwhite, hpushed⟩ := ih h
      refine ⟨?_, pushed ++ [(next, false)], by simp, by simpa using hlen, ?_, ?_⟩
      · simpa [hc] using hgray
      · intro y hy hcy
        rcases mem_cons.1 hy with rfl | hy
        · simp
        · exact mem_append_left _ (hwhite y hy hcy)
      · intro e he
        rcases mem_append.1 he with he | he
        · obtain ⟨h1, h2, h3⟩ := hpushed e he
          exact ⟨h1, mem_cons_of_mem _ h2, h3⟩
        · obtain rfl := mem_singleton.1 he
          exact ⟨rfl, mem_cons_self, hc⟩
    · next hc =>
      obtain ⟨hgray, pushed, rfl, hlen, hwhite, hpushed⟩ := ih h
      refine ⟨by simpa [hc] using hgray, pushed, rfl, by simp; omega, ?_, ?_⟩
      · intro y hy hcy
        rcases mem_cons.1 hy with rfl | hy
        · simp [hc] at hcy
        · exact hwhite y hy hcy
      · intro e he
        obtain ⟨h1, h2, h3⟩ := hpushed e he
        exact ⟨h1, mem_cons_of_mem _ h2, h3⟩

namespace Searching

variable {graph : Graph} {color : Colors} {stack stack' : DfsStack} {fin : List Pid} {node : Pid}

/-- The end of a visit. -/
theorem finish (h : Searching graph color ((node, true) :: stack) fin) :
    Searching graph (Function.update color node .black) stack (fin.insert node) where
  order := by
    by_cases hn : node ∈ fin
    · simpa [insert_of_mem hn] using h.order
    · rw [insert_of_not_mem hn]
      exact h.order.cons hn fun y hy => by simpa using h.covers [] node stack rfl y hy
  black_fin x hx := by
    by_cases hxn : x = node
    · simp [hxn]
    · rw [update_of_ne hxn] at hx
      exact mem_insert_of_mem (h.black_fin x hx)
  fin_seen x hx := by
    by_cases hxn : x = node
    · simp [hxn]
    · rw [update_of_ne hxn]
      exact h.fin_seen x ((mem_insert_iff.1 hx).resolve_left hxn)
  gray_open x hx := by
    by_cases hxn : x = node
    · simp [hxn] at hx
    · rw [update_of_ne hxn] at hx
      simpa [hxn] using h.gray_open x hx
  gray_above pre y post hs hy := by
    by_cases hyn : y = node
    · simp [hyn] at hy
    · rw [update_of_ne hyn] at hy
      simpa [hyn] using h.gray_above ((node, true) :: pre) y post (by simp [hs]) hy
  reaches pre x post hs e he :=
    h.reaches ((node, true) :: pre) x post (by simp [hs]) e (mem_cons_of_mem _ he)
  covers pre x post hs y hy := by
    rcases h.covers ((node, true) :: pre) x post (by simp [hs]) y hy with hf | ⟨e, he, rfl⟩
    · exact .inl (mem_insert_of_mem hf)
    · rcases mem_cons.1 he with rfl | he
      · exact .inl (by simp)
      · exact .inr ⟨e, he, rfl⟩

/-- The start of a visit that finds no gray neighbour. -/
theorem visit (h : Searching graph color ((node, false) :: stack) fin)
    (hpush : pushNeighbours (Function.update color node .gray) (graph.neighbours node)
      ((node, true) :: stack) = some stack') :
    Searching graph (Function.update color node .gray) stack' fin := by
  obtain ⟨hgray, pushed, rfl, -, hwhite, hpushed⟩ := pushNeighbours_some hpush
  have hblack : ∀ x, Function.update color node .gray x = .black → x ∈ fin := by
    intro x hx
    by_cases hxn : x = node
    · simp [hxn] at hx
    · exact h.black_fin x (by rwa [update_of_ne hxn] at hx)
  -- The pushed entries ask for visits, so the end of a visit lies below them all.
  have hbelow : ∀ {pre x post}, pushed ++ (node, true) :: stack = pre ++ (x, true) :: post →
      (pre = pushed ∧ x = node ∧ post = stack) ∨
        ∃ mid, pre = pushed ++ (node, true) :: mid ∧ stack = mid ++ (x, true) :: post := by
    intro pre x post heq
    rcases append_eq_append_iff.1 heq with ⟨mid, rfl, hm⟩ | ⟨mid, rfl, hm⟩
    · cases mid with
      | nil => simp at hm; exact .inl ⟨by simp, hm.1.symm, hm.2.symm⟩
      | cons m mid => simp at hm; exact .inr ⟨mid, by simp [hm.1], hm.2⟩
    · cases mid with
      | nil => simp at hm; exact .inl ⟨by simp, hm.1, hm.2⟩
      | cons m mid =>
        simp only [cons_append, List.cons.injEq] at hm
        have := (hpushed m (by simp)).1
        simp [← hm.1] at this
  refine ⟨h.order, hblack, ?_, ?_, ?_, ?_, ?_⟩
  · intro x hx
    by_cases hxn : x = node
    · simp [hxn]
    · rw [update_of_ne hxn]
      exact h.fin_seen x hx
  · intro x hx
    by_cases hxn : x = node
    · simp [hxn]
    · rw [update_of_ne hxn] at hx
      have := h.gray_open x hx
      simp only [mem_cons, Prod.mk.injEq, Bool.true_eq_false, and_false, false_or] at this
      simp [this]
  · intro pre y post hs hy
    rcases append_eq_append_iff.1 hs with ⟨mid, rfl, hm⟩ | ⟨mid, rfl, hm⟩
    · cases mid with
      | nil => simp at hm
      | cons m mid =>
        simp only [cons_append, List.cons.injEq] at hm
        obtain ⟨rfl, hm⟩ := hm
        by_cases hyn : y = node
        · simp [hyn]
        · rw [update_of_ne hyn] at hy
          have := h.gray_above ((node, false) :: mid) y post (by simp [hm]) hy
          simp only [mem_cons, Prod.mk.injEq, Bool.true_eq_false, and_false, false_or] at this
          simp [this]
    · cases mid with
      | nil => simp at hm
      | cons m mid =>
        simp only [cons_append, List.cons.injEq] at hm
        have := (hpushed m (by simp)).2.2
        simp [← hm.1, hy] at this
  · intro pre x post hs e he
    rcases hbelow hs with ⟨rfl, rfl, rfl⟩ | ⟨mid, rfl, hst⟩
    · exact .single (hpushed e he).2.1
    have hreach := h.reaches ((node, false) :: mid) x post (by simp [hst])
    have hnode : TransGen graph.Edge x node := hreach (node, false) (by simp)
    rcases mem_append.1 he with he | he
    · exact hnode.tail (hpushed e he).2.1
    · rcases mem_cons.1 he with rfl | he
      · exact hnode
      · exact hreach e (mem_cons_of_mem _ he)
  · intro pre x post hs y hy
    rcases hbelow hs with ⟨rfl, rfl, rfl⟩ | ⟨mid, rfl, hst⟩
    · cases hc : Function.update color x .gray y with
      | white => exact .inr ⟨_, hwhite y hy hc, rfl⟩
      | gray => exact absurd hc (hgray y hy)
      | black => exact .inl (hblack y hc)
    · rcases h.covers ((node, false) :: mid) x post (by simp [hst]) y hy with hf | ⟨e, he, rfl⟩
      · exact .inl hf
      · rcases mem_cons.1 he with rfl | he
        · exact .inr ⟨(node, true), by simp, rfl⟩
        · exact .inr ⟨e, by simp [he], rfl⟩

/-- A gray neighbour closes a cycle. -/
theorem cycle_of_gray (h : Searching graph color ((node, false) :: stack) fin) {y : Pid}
    (hy : graph.Edge node y) (hc : Function.update color node .gray y = .gray) :
    TransGen graph.Edge y y := by
  by_cases hyn : y = node
  · exact .single (hyn ▸ hy)
  rw [update_of_ne hyn] at hc
  obtain ⟨pre, post, hs⟩ := append_of_mem (h.gray_open y hc)
  cases pre with
  | nil => simp at hs
  | cons e pre =>
    simp only [cons_append, List.cons.injEq] at hs
    have := h.reaches ((node, false) :: pre) y post (by simp [hs]) _ mem_cons_self
    exact this.tail hy

end Searching

/-! ## The number of iterations -/

variable (entries : List (Sigma fun _ : Pid => List Pid))

/-- The edges that leave white nodes. -/
def whiteEdges (color : Colors) : Nat :=
  (entries.map fun a => if color a.1 = .white then a.2.length else 0).sum

/-- The iterations the entries of the stack still need by themselves. -/
def stackWeight (stack : DfsStack) : Nat :=
  (stack.map fun e => if e.2 then 1 else 2).sum

/-- What every iteration of the search decreases. -/
def remaining (graph : Graph) (color : Colors) (stack : DfsStack) : Nat :=
  2 * whiteEdges graph.entries color + stackWeight stack

theorem whiteEdges_le (color : Colors) :
    whiteEdges entries color ≤ (entries.map fun a => a.2.length).sum := by
  refine sum_le_sum fun a _ => ?_
  split <;> omega

theorem whiteEdges_update_le (color : Colors) (node : Pid) {c : Color} (hc : c ≠ .white) :
    whiteEdges entries (Function.update color node c) ≤ whiteEdges entries color := by
  refine sum_le_sum fun a _ => ?_
  by_cases ha : a.1 = node <;> simp [ha, hc]

/-- Colouring a white node takes its edges out of the count. -/
theorem whiteEdges_update_add_le {entries : List (Sigma fun _ : Pid => List Pid)} {node : Pid}
    {c : Color} (hmem : (⟨node, ns⟩ : Sigma _) ∈ entries) (hc : c ≠ .white)
    (hw : color node = .white) :
    whiteEdges entries (Function.update color node c) + ns.length ≤ whiteEdges entries color := by
  induction entries with
  | nil => simp at hmem
  | cons a entries ih =>
    simp only [whiteEdges, map_cons, sum_cons]
    rcases mem_cons.1 hmem with rfl | hmem
    · have := whiteEdges_update_le entries color node hc
      simp only [whiteEdges] at this
      simp only [update_self, hc, hw, if_false, if_true]
      omega
    · have := ih hmem
      simp only [whiteEdges] at this
      by_cases ha : a.1 = node
      · simp only [ha, update_self, hc, if_false]
        omega
      · simp only [update_of_ne ha]
        omega

theorem stackWeight_visits {pushed : DfsStack} (h : ∀ e ∈ pushed, e.2 = false) :
    stackWeight (pushed ++ stack) = 2 * pushed.length + stackWeight stack := by
  induction pushed with
  | nil => simp
  | cons e pushed ih =>
    have := ih fun e he => h e (mem_cons_of_mem _ he)
    simp only [stackWeight, cons_append, map_cons, sum_cons] at this ⊢
    simp only [h e mem_cons_self, Bool.false_eq_true, if_false, length_cons]
    omega

theorem remaining_finish (graph : Graph) (color : Colors) (node : Pid) (stack : DfsStack) :
    remaining graph (Function.update color node .black) stack + 1 ≤
      remaining graph color ((node, true) :: stack) := by
  have := whiteEdges_update_le graph.entries color node (c := .black) (by simp)
  simp only [remaining, stackWeight, map_cons, sum_cons, if_true]
  omega

/-- A visit pays for what it pushes: a white node with its edges, and a black node pushes nothing,
its neighbours being finished. -/
theorem Searching.remaining_visit {stack' : DfsStack} {node : Pid}
    (h : Searching graph color ((node, false) :: stack) fin)
    (hpush : pushNeighbours (Function.update color node .gray) (graph.neighbours node)
      ((node, true) :: stack) = some stack') :
    remaining graph (Function.update color node .gray) stack' + 1 ≤
      remaining graph color ((node, false) :: stack) := by
  obtain ⟨-, pushed, rfl, hlen, -, hpushed⟩ := pushNeighbours_some hpush
  have hweight : stackWeight (pushed ++ (node, true) :: stack) =
      2 * pushed.length + (1 + stackWeight stack) := by
    rw [stackWeight_visits fun e he => (hpushed e he).1]
    simp [stackWeight]
  have hle := whiteEdges_update_le graph.entries color node (c := .gray) (by simp)
  have hcons : stackWeight ((node, false) :: stack) = 2 + stackWeight stack := by
    simp [stackWeight]
  simp only [remaining, hweight]
  cases hc : color node with
  | white =>
    cases hl : graph.lookup node with
    | none =>
      have : graph.neighbours node = [] := by simp only [Graph.neighbours, AList.get, hl]; rfl
      rw [this] at hlen
      simp at hlen
      simp [hlen]
      omega
    | some ns =>
      have hns : graph.neighbours node = ns := by simp [Graph.neighbours, AList.get, hl]
      have := whiteEdges_update_add_le (c := .gray) (AList.mem_lookup_iff.1 hl) (by simp) hc
      rw [hns] at hlen
      omega
  | gray => simpa using h.gray_above [] node stack rfl hc
  | black =>
    have : pushed = [] := by
      refine eq_nil_iff_forall_not_mem.2 fun e he => ?_
      obtain ⟨-, hmem, hw⟩ := hpushed e he
      have hfin : e.1 ∈ fin := h.order.succ_mem (h.black_fin node hc) hmem
      by_cases hen : e.1 = node
      · simp [hen] at hw
      · exact h.fin_seen _ hfin (by rwa [update_of_ne hen] at hw)
    simp [this]
    omega

/-! ## What the search finds -/

/-- The result of a search from colours `color` with finished nodes `fin`: a cycle of the graph,
or a finishing order that extends `fin` and has all of `nodes`. -/
def Search.Good (graph : Graph) (fin nodes : List Pid) : Search → Prop
  | .cycle => ∃ a, TransGen graph.Edge a a
  | .finished color =>
    ∃ fin', Searching graph color [] fin' ∧ fin ⊆ fin' ∧ nodes ⊆ fin'
  | .outOfFuel => False

theorem Search.Good.weaken {fin' nodes nodes' : List Pid} {r : Search} (h : r.Good graph fin nodes)
    (hf : fin' ⊆ fin) (hn : nodes' ⊆ fin ++ nodes) : r.Good graph fin' nodes' := by
  cases r with
  | cycle | outOfFuel => exact h
  | finished color =>
    obtain ⟨f, hs, h1, h2⟩ := h
    exact ⟨f, hs, List.Subset.trans hf h1, List.Subset.trans hn (append_subset.2 ⟨h1, h2⟩)⟩

/-- **The loop**: it ends within the remaining iterations, at a cycle or with every node of the
stack finished. -/
theorem dfs_spec {graph : Graph} : ∀ {fuel : Nat} {color : Colors} {stack : DfsStack}
    {fin : List Pid}, Searching graph color stack fin → remaining graph color stack ≤ fuel →
      (dfs graph fuel color stack).Good graph fin (stack.map Prod.fst)
  | _, color, [], fin, h, _ => by
    unfold dfs
    exact ⟨fin, h, List.Subset.refl _, by simp⟩
  | 0, color, (node, p) :: stack, _, _, hfuel => by
    have : stackWeight ((node, p) :: stack) ≠ 0 := by cases p <;> simp [stackWeight]
    unfold remaining at hfuel
    omega
  | fuel + 1, color, (node, true) :: stack, fin, h, hfuel => by
    have := remaining_finish graph color node stack
    unfold dfs
    refine (dfs_spec h.finish (by omega)).weaken (fun x hx => mem_insert_of_mem hx) ?_
    intro x hx
    rcases mem_cons.1 hx with rfl | hx
    · simp
    · exact mem_append_right _ hx
  | fuel + 1, color, (node, false) :: stack, fin, h, hfuel => by
    unfold dfs
    dsimp only
    split
    · next hpush =>
      obtain ⟨y, hy, hc⟩ := pushNeighbours_none hpush
      exact ⟨y, h.cycle_of_gray hy hc⟩
    · next stack' hpush =>
      have := h.remaining_visit hpush
      refine (dfs_spec (h.visit hpush) (by omega)).weaken (List.Subset.refl _) ?_
      obtain ⟨-, pushed, rfl, -⟩ := pushNeighbours_some hpush
      intro x hx
      simp only [map_append, map_cons, mem_append, mem_cons] at hx ⊢
      exact .inr (.inr hx)

theorem dfsFrom_spec {keys : List Pid} (h : Searching graph color [] fin) :
    (dfsFrom graph keys color).Good graph fin keys := by
  induction keys generalizing color fin with
  | nil => exact ⟨fin, h, List.Subset.refl _, by simp⟩
  | cons start rest ih =>
    unfold dfsFrom
    split
    · next hw =>
      -- A fresh start: `start` is white, so nothing on the one-element stack is gray.
      have hstart : Searching graph color [(start, false)] fin := by
        refine ⟨h.order, h.black_fin, h.fin_seen, fun x hx => ?_, ?_, ?_, ?_⟩
        · simpa using h.gray_open x hx
        · intro pre y post hs hy
          simpa using h.gray_open y hy
        all_goals
          intro pre x post hs
          rcases pre with _ | ⟨e, pre⟩ <;> simp at hs
      have hfuel : remaining graph color [(start, false)] ≤ dfsFuel graph := by
        have := whiteEdges_le graph.entries color
        simp only [remaining, dfsFuel, stackWeight, map_cons, map_nil, sum_cons,
          sum_nil, Bool.false_eq_true, if_false]
        omega
      have hdfs := dfs_spec hstart hfuel
      revert hdfs
      cases dfs graph (dfsFuel graph) color [(start, false)] with
      | cycle | outOfFuel => exact id
      | finished color' =>
        rintro ⟨fin', hs, hsub, hmem⟩
        refine (ih hs).weaken hsub fun x hx => ?_
        rcases mem_cons.1 hx with rfl | hx
        · exact mem_append_left _ (hmem (by simp))
        · exact mem_append_right _ hx
    · next hw =>
      refine (ih h).weaken (List.Subset.refl _) fun x hx => ?_
      rcases mem_cons.1 hx with rfl | hx
      · cases hc : color x with
        | white => exact absurd hc hw
        | gray => simpa using h.gray_open x hc
        | black => exact mem_append_left _ (h.black_fin x hc)
      · exact mem_append_right _ hx

theorem search_good (graph : Graph) : (search graph).Good graph [] graph.keys :=
  dfsFrom_spec ⟨.nil, by simp, by simp, by simp, by simp, by simp, by simp⟩

/-- **`has_cycle` decides cycles**, and its search never stops at its bound. -/
theorem hasCycle_iff (graph : Graph) : hasCycle graph = true ↔ ¬ Acyclic graph.Edge := by
  have h := search_good graph
  unfold hasCycle
  cases hs : search graph with
  | cycle =>
    obtain ⟨a, ha⟩ := hs ▸ h
    exact ⟨fun _ hac => hac a ha, fun _ => rfl⟩
  | outOfFuel => exact (hs ▸ h).elim
  | finished color =>
    obtain ⟨fin, hfin, -, hkeys⟩ := hs ▸ h
    refine ⟨fun h => absurd h (by simp), fun h => absurd (fun a ha => ?_) h⟩
    obtain ⟨b, hb, -⟩ := TransGen.head'_iff.1 ha
    exact hfin.order.no_cycle (hkeys (Graph.mem_keys_of_edge hb)) ha

/-- **Every search ends**, and at a cycle if and only if there is one. -/
theorem search_decides (graph : Graph) : search graph ≠ .outOfFuel ∧
    (hasCycle graph = true ↔ ∃ a, TransGen graph.Edge a a) := by
  refine ⟨fun h => ?_, ?_⟩
  · have hgood := search_good graph
    rw [h] at hgood
    exact hgood
  · rw [hasCycle_iff, Acyclic, not_forall_not]

end PostgresRs
