import PostgresRs.Storage.Toast

/-!
# Reading back what was stored

A `Ledger` follows a table through a history of calls that push, update, delete and truncate rows, and
notes for each row id the row that was last given for it.  As long as no text that is given reads as
a pointer to a value out of line, every stored row reads as the one in the ledger
(`Ledger.transparent`).

A text that reads as a pointer is stored as it is and then taken for one, so that it reads as what it
points to (`Ledger.not_faithful`).
-/

namespace PostgresRs.Storage

open List

/-- A call of one of the operations on rows. -/
inductive RowOp where
  | pushRow (row : List Value)
  | updateRow (pos : Nat) (newRow : List Value)
  | deleteRows (positions : List Nat)
  | truncate

namespace RowOp

def toOp : RowOp → Table.Op
  | pushRow row => .pushRow row
  | updateRow pos newRow => .updateRow pos newRow
  | deleteRows positions => .deleteRows positions
  | truncate => .truncate

/-- No text that the call gives reads as a pointer. -/
def PointerFree : RowOp → Prop
  | pushRow row | updateRow _ row => Storage.PointerFree row
  | deleteRows _ | truncate => True

/-- The call updates the row `id` of `t`. -/
def Updates (op : RowOp) (t : Table) (id : RowId) : Prop :=
  ∃ pos row, op = updateRow pos row ∧ t.rowIds[pos]? = some id

end RowOp

/-- A table, and for each row id the row last given for it. -/
structure Ledger where
  table : Table
  given : RowId → List Value

namespace Ledger

/-- The rows given after a call that does not panic. -/
def record (l : Ledger) : RowOp → RowId → List Value
  | .pushRow row => Function.update l.given l.table.nextRowId row
  | .updateRow pos newRow =>
    (l.table.rowIds[pos]?).elim l.given fun id => Function.update l.given id newRow
  | .deleteRows _ | .truncate => l.given

def step (eval : EvalExpr) (l : Ledger) (op : RowOp) : Ledger :=
  match l.table.apply eval op.toOp with
  | .ok table => { table, given := l.record op }
  | .error _ => l

/-- A table without rows, with any indexes. -/
def start (name : String) (columns : List Column) (indexes : List Index) : Ledger where
  table := { Table.new name columns with indexes }
  given _ := []

/-- Every row reads as the one last given for its id. -/
def Faithful (l : Ledger) : Prop :=
  ∀ (pos : Nat) id stored, l.table.rowIds[pos]? = some id → l.table.rows[pos]? = some stored →
    l.table.detoastRow stored = l.given id

/-- The tables before and after a call read the same row for `id`. -/
def SameRow (l l' : Ledger) (id : RowId) : Prop :=
  ∀ (pos pos' : Nat) stored stored', l.table.rowIds[pos]? = some id → l.table.rows[pos]? = some stored →
    l'.table.rowIds[pos']? = some id → l'.table.rows[pos']? = some stored' →
    l'.table.detoastRow stored' = l.table.detoastRow stored

variable {eval : EvalExpr} {l : Ledger} {op : RowOp}

/-- The invariant: the rows in view are those in the ledger. -/
structure Tracks (l : Ledger) : Prop where
  sound : l.table.Sound
  given : ∀ e ∈ l.table.view, e.2 = l.given e.1

theorem Tracks.faithful (h : l.Tracks) : l.Faithful := by
  intro pos id stored hid hstored
  exact h.given (id, l.table.detoastRow stored)
    (mem_of_getElem? (Table.view_getElem?_eq_some.mpr ⟨stored, hstored, hid, rfl⟩))

/-- A row that is in the table and not updated keeps its line. -/
theorem record_of_not_updates (h : l.Tracks) {id : RowId} (hid : id ∈ l.table.rowIds)
    (hop : ¬op.Updates l.table id) : l.record op id = l.given id := by
  cases op with
  | pushRow row => exact Function.update_of_ne (h.sound.fresh id hid).ne _ _
  | updateRow pos newRow =>
    rw [record]
    cases hid' : l.table.rowIds[pos]? with
    | none => rfl
    | some id' =>
      refine Function.update_of_ne (fun heq => hop ⟨pos, newRow, rfl, ?_⟩) _ _
      rw [hid', heq]
  | deleteRows | truncate => rfl

theorem Tracks.step (h : l.Tracks) (hop : op.PointerFree) : (l.step eval op).Tracks := by
  rw [Ledger.step]
  split
  · next t' happly =>
    -- A row that stays in view and is not updated.
    have hstay : ∀ e ∈ l.table.view, ¬op.Updates l.table e.1 → e.2 = l.record op e.1 := by
      intro e he hupd
      have hid : e.1 ∈ l.table.rowIds := h.sound.map_fst_view ▸ List.mem_map_of_mem he
      rw [record_of_not_updates h hid hupd, h.given e he]
    cases op with
    | pushRow row =>
      obtain ⟨hsound, hview⟩ := h.sound.pushRow happly hop
      refine ⟨hsound, fun e he => ?_⟩
      rw [hview, List.mem_append, List.mem_singleton] at he
      rcases he with he | rfl
      · exact hstay e he (by rintro ⟨_, _, ⟨⟩, _⟩)
      · exact (Function.update_self (f := l.given) ..).symm
    | updateRow pos newRow =>
      obtain ⟨hsound, id, hid, hview⟩ := h.sound.updateRow happly hop
      refine ⟨hsound, fun e he => ?_⟩
      obtain ⟨j, hj⟩ := List.mem_iff_getElem?.mp he
      rw [hview] at hj
      rcases eq_or_ne pos j with rfl | hne
      · rw [List.getElem?_set_self'] at hj
        obtain ⟨_, _, rfl⟩ := Option.map_eq_some_iff.mp hj
        have hrecord : l.record (.updateRow pos newRow) = Function.update l.given id newRow := by
          rw [record, hid]
          rfl
        exact (congrFun hrecord id).trans (Function.update_self ..) |>.symm
      · rw [List.getElem?_set_ne hne] at hj
        refine hstay e (List.mem_of_getElem? hj) ?_
        rintro ⟨_, _, ⟨⟩, hpos⟩
        obtain ⟨_, _, hid', _⟩ := Table.view_getElem?_eq_some.mp hj
        have hlt := (List.getElem?_eq_some_iff.mp hpos).1
        exact hne ((List.getElem?_inj hlt h.sound.nodup).mp (hpos.trans hid'.symm))
    | deleteRows positions =>
      obtain ⟨hsound, hview⟩ := h.sound.deleteRows happly
      refine ⟨hsound, fun e he => ?_⟩
      rw [hview] at he
      exact h.given e ((keepAt_sublist _ _).subset he)
    | truncate =>
      cases happly
      exact ⟨h.sound.truncate, fun e he => by cases he⟩
  · exact h

theorem tracks_run (name : String) (columns : List Column) (indexes : List Index) {ops : List RowOp}
    (hops : ∀ op ∈ ops, op.PointerFree) :
    (Machine.run (step eval) (start name columns indexes) ops).Tracks := by
  have hstart : (start name columns indexes).Tracks :=
    ⟨Table.sound_new name columns indexes, fun e he => by cases he⟩
  generalize start name columns indexes = l at hstart
  induction ops generalizing l with
  | nil => exact hstart
  | cons op ops ih =>
    rw [forall_mem_cons] at hops
    exact ih hops.2 _ (hstart.step hops.1)

/-- **TOAST is transparent** to calls whose texts do not read as pointers. -/
theorem transparent (eval : EvalExpr) (name : String) (columns : List Column) (indexes : List Index)
    (ops : List RowOp) (op : RowOp) (hops : ∀ o ∈ ops, o.PointerFree) (hop : op.PointerFree) :
    let l := Machine.run (step eval) (start name columns indexes) ops
    l.Faithful ∧ ∀ id, ¬op.Updates l.table id → l.SameRow (l.step eval op) id := by
  intro l
  have hl : l.Tracks := tracks_run name columns indexes hops
  refine ⟨hl.faithful, fun id hid pos pos' stored stored' hpos hstored hpos' hstored' => ?_⟩
  rw [(hl.step hop).faithful pos' id stored' hpos' hstored', hl.faithful pos id stored hpos hstored,
    step]
  split
  · exact record_of_not_updates hl (mem_of_getElem? hpos) hid
  · rfl

/-- A history in which a text over the threshold is stored and then replaced. -/
theorem transparent_largeText :
    let large := Value.text (String.ofList (List.replicate 3000 'x'))
    let l := Machine.run (step fun _ _ _ => none) (start "t" [] [])
      [.pushRow [large], .pushRow [.int 1, large]]
    l.Faithful ∧ ∀ id, ¬(RowOp.updateRow 0 [.null]).Updates l.table id →
      l.SameRow (l.step (fun _ _ _ => none) (.updateRow 0 [.null])) id := by
  have hlarge : toastIdOf (.text (String.ofList (List.replicate 3000 'x'))) = none := by
    rw [toastIdOf, String.toList_ofList]
    rfl
  refine transparent _ _ _ _ _ _ ?_ (forall_mem_singleton.mpr rfl)
  rw [forall_mem_cons, forall_mem_singleton]
  exact ⟨forall_mem_singleton.mpr hlarge,
    forall_mem_cons.mpr ⟨rfl, forall_mem_singleton.mpr hlarge⟩⟩

/-- A text that reads as a pointer does not read back. -/
theorem not_faithful :
    ¬(Machine.run (step fun _ _ _ => none) (start "t" [] [])
      [.pushRow [.text (toastPointer 0)]]).Faithful := by
  intro h
  have hread := h 0 0 [.text (toastPointer 0)] (by decide +kernel) (by decide +kernel)
  exact absurd hread (by decide +kernel)

end Ledger

end PostgresRs.Storage
