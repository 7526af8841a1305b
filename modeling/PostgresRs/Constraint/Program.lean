import PostgresRs.Constraint.Write

/-!
# Rows as assignments

What the statements do to a single row, as a list of assignments (`PostgresRs.Util.Assign`): a row
that is inserted is made out of `NULL`s, a row that is replaced out of the one that was there.

* `insertProgram`, `assignProgram`, `updateProgram` — the assignments of `INSERT`, of `DO UPDATE` and
  `MERGE`, and of `UPDATE`; each ends with the generated columns.
* `run_insertProgram`, `run_assignProgram`, `run_updateProgram` — the rows of the statements are
  their runs.
* `InsertCall.Inserts`, `InsertCall.Updates`, … — the assignments that a statement carries out.
-/

namespace PostgresRs.Constraint

open Storage Exec Assignment

/-- The assignments that make a row. -/
abbrev Program := List (Assignment String Value)

variable (env : Environment) (columns : List FullColumn)

/-! ## Programs -/

/-- What the column at `i` stores for a value. -/
def stored (i : Nat) (v : Except String Value) : Except String Value := do
  let v ← v
  match columns[i]? with
  | some column => env.ext.coerce v column.dataType
  | none => throw "index out of bounds"

def givenProgram (targets : List Nat) (values : List (Except String Value)) : Program :=
  (values.zip targets).map fun p => (p.2, fun _ => stored env columns p.2 p.1)

def defaultProgram (targets : List Nat) : Program :=
  Assignment.cellwise (fun i c =>
    if targets.contains i then none
    else c.default.map fun default _ => do
      let v ← evalExpr env.ext [] [] default
      env.ext.coerce v c.dataType) .null 0 columns

def numberProgram (numbers : Numbers) : Program :=
  Assignment.cellwise (fun i c =>
    if c.serial || c.identity then some fun v => .ok (if v.isNull then .int (numbers i) else v)
    else none) .null 0 columns

/-- The generated columns among the last ones, from the `k`-th on. -/
def generatedFrom (ext : Externals) (defs : List Exec.ColumnDef) (k : Nat)
    (rest : List Exec.ColumnDef) : Program :=
  (rest.zipIdx k).filterMap fun e => e.1.generated.map fun expr =>
    (e.2, fun row => do
      let v ← evalExpr ext (defs.map (·.name)) row expr
      ext.coerce v e.1.dataType)

def generatedProgram : Program :=
  generatedFrom env.ext (columns.map FullColumn.toDef) 0 (columns.map FullColumn.toDef)

/-- The assignments of an inserted row. -/
def insertProgram (targets : List Nat) (values : List (Except String Value)) (numbers : Numbers) :
    Program :=
  givenProgram env columns targets values ++ defaultProgram env columns targets ++
    numberProgram columns numbers ++ generatedProgram env columns

/-- The assignments of `DO UPDATE` and of `MERGE`, whose expressions all read the same values. -/
def assignProgram (names : List String) (values : List Value) (assignments : List (String × Expr)) :
    Program :=
  (assignments.map fun a =>
    let i := columns.findIdx (·.name == a.1)
    (i, fun _ => stored env columns i (evalExpr env.ext names values a.2))) ++
    generatedProgram env columns

/-- The assignments of `UPDATE`. -/
def updateProgram (names : List String) (source : Option (List Value))
    (targets : List (Nat × Expr)) : Program :=
  targets.map (toAssignment env.ext (columns.map FullColumn.toDef) names source) ++
    generatedProgram env columns

/-! ## Runs -/

variable {env columns} {row row' : List Value} {targets : List Nat}

theorem generateFrom_eq_run {ext : Externals} {defs : List Exec.ColumnDef} {k : Nat}
    (rest : List Exec.ColumnDef) :
    generateFrom ext defs k row rest = Assignment.run row (generatedFrom ext defs k rest) := by
  induction rest generalizing k row with
  | nil => rfl
  | cons column rest ih =>
    rw [generateFrom, generatedFrom, List.zipIdx_cons]
    split
    · next hnone =>
      rw [List.filterMap_cons_none (by rw [hnone]; rfl)]
      exact ih
    · next expr hexpr =>
      rw [List.filterMap_cons_some (by rw [hexpr]; rfl), Assignment.run]
      rw [bind_assoc]
      exact bind_congr fun _ => bind_congr fun _ => ih

theorem run_generatedProgram :
    Assignment.run row (generatedProgram env columns) =
      applyGeneratedColumns env.ext (columns.map FullColumn.toDef) row :=
  (generateFrom_eq_run _).symm

variable {values : List (Except String Value)}

theorem run_givenProgram (h : givenRow env columns targets values = .ok row) :
    Assignment.run (List.replicate columns.length .null) (givenProgram env columns targets values) =
      .ok row := by
  refine run_of_foldlM (fun row p row' _ hstep => ?_) h
  obtain ⟨given, column, v, hgiven, hcolumn, hv, -, rfl⟩ := setCell_eq_ok hstep
  refine ⟨v, ?_, rfl⟩
  simp only [stored, hgiven, hcolumn]
  exact hv

theorem run_defaultProgram (hlength : row.length = columns.length)
    (h : defaultedRow env columns targets row = .ok row') :
    Assignment.run row (defaultProgram env columns targets) = .ok row' := by
  refine @run_cellwise _ _ _ _ _ columns [] row row' hlength (h ▸ ?_)
  refine mapM_congr_of_mem fun e _ => ?_
  rw [Assignment.newCell, defaultCell]
  by_cases ht : targets.contains e.2 = true
  · simp only [ht, if_true]
  · simp only [ht]
    cases e.1.1.default <;> rfl

variable {numbers : Numbers}

theorem run_numberProgram (hlength : row.length = columns.length) :
    Assignment.run row (numberProgram columns numbers) = .ok (numberedRow columns numbers row) := by
  refine @run_cellwise _ _ _ _ _ columns [] row _ hlength ?_
  refine mapM_eq_ok_of_forall fun e _ => ?_
  rw [Assignment.newCell, numberCell]
  by_cases hserial : (e.1.1.serial || e.1.1.identity) = true
  · simp only [hserial, if_true, Bool.true_and]
  · simp only [hserial]
    rfl

/-- The row of an `INSERT` is a run. -/
theorem run_insertProgram {overridingSystemValue : Bool}
    (hgiven : givenRow env columns targets values = .ok row)
    (h : finishInsertRow env columns targets overridingSystemValue numbers row = .ok row') :
    Assignment.run (List.replicate columns.length .null)
      (insertProgram env columns targets values numbers) = .ok row' := by
  obtain ⟨defaulted, hdefaulted, hgenerated, -⟩ := finishInsertRow_eq_ok h
  have hlength := length_givenRow hgiven
  rw [insertProgram, run_append, run_append, run_append,
    run_givenProgram hgiven]
  simp only [bind, Except.bind, run_defaultProgram hlength hdefaulted,
    run_numberProgram (length_defaultedRow hlength hdefaulted), run_generatedProgram]
  exact hgenerated

variable {names : List String}

/-- What `DO UPDATE` and `MERGE` make of a row is a run. -/
theorem run_assignProgram {values : List Value} {assignments : List (String × Expr)}
    {assigned : List Value}
    (hassigned : assignments.foldlM (assign env columns names values) row = .ok assigned)
    (h : applyGeneratedColumns env.ext (columns.map FullColumn.toDef) assigned = .ok row') :
    Assignment.run row (assignProgram env columns names values assignments) = .ok row' := by
  rw [assignProgram, run_append, run_of_foldlM _ hassigned]
  · exact run_generatedProgram.trans h
  intro row a row' _ hstep
  obtain ⟨i, column, given, v, hi, hcolumn, hgiven, hv, -, rfl⟩ := assign_eq_ok hstep
  have hidx : columns.findIdx (·.name == a.1) = i := (List.findIdx?_eq_some_iff_findIdx_eq.mp hi).2
  refine ⟨v, ?_, by rw [hidx]⟩
  simp only [stored, hidx, hgiven, hcolumn]
  exact hv

/-- The new version of a row is a run. -/
theorem run_updateProgram {source : Option (List Value)} {targets : List (Nat × Expr)}
    (h : newVersion env.ext (columns.map FullColumn.toDef) names source targets row = .ok row') :
    Assignment.run row (updateProgram env columns names source targets) = .ok row' := by
  obtain ⟨assigned, hassigned, h⟩ := of_bind_eq_ok h
  rw [updateProgram, run_append]
  rw [assignTargets] at hassigned
  rw [hassigned]
  exact run_generatedProgram.trans h

/-! ## The programs of a statement -/

section Statements

variable (env) (r : Relation)

/-- The assignments that make a row of an `INSERT`. -/
def InsertCall.Inserts (call : InsertCall) (p : Program) : Prop :=
  ∃ targets inputs i values, insertTargets call.stmt r.columns = .ok targets ∧
    call.inputRows env = .ok inputs ∧ inputs[i]? = some values ∧
    p = insertProgram env r.columns targets values
      (call.numbers call.stmt.table (call.first + i))

/-- The assignments that `DO UPDATE` makes to the row at a position. -/
def InsertCall.Updates (call : InsertCall) (pos : Nat) (existing : List Value) (p : Program) :
    Prop :=
  ∃ target assignments filter rows row,
    call.stmt.onConflict = some (.doUpdate target assignments filter) ∧
    call.newRows env r = .ok rows ∧ row ∈ rows ∧
    r.conflictPositionForRow row target = .ok (some pos) ∧
    isTrueOf env (onConflictEvalNames r.columns) (existing ++ row) filter = .ok true ∧
    p = assignProgram env r.columns (onConflictEvalNames r.columns) (existing ++ row) assignments

/-- The assignments that `UPDATE` makes to the row at a position. -/
def UpdateCall.Updates (call : UpdateCall) (pos : Nat) (existing : List Value) (p : Program) :
    Prop :=
  ∃ assignments targets source, call.assignments = .ok assignments ∧
    resolveTargets call.stmt.table (r.columns.map FullColumn.toDef) assignments = .ok targets ∧
    call.selected pos existing = .ok (some source) ∧
    p = updateProgram env r.columns call.names source targets

/-- The assignments that make a row that `MERGE` inserts. -/
def MergeCall.Inserts (call : MergeCall) (p : Program) : Prop :=
  ∃ m sourceNames sourceRows sourceRow cols exprs defaultValues targets i, call.stmt = .ok m ∧
    call.source = .ok (sourceNames, sourceRows) ∧ sourceRow ∈ sourceRows ∧
    firstWhen env (mergeActionNames m r.columns sourceNames)
      (List.replicate (2 * r.columns.length) .null ++ sourceRow) false m.clauses =
      .ok (some (.insert cols exprs defaultValues)) ∧
    mergeTargets r.columns cols defaultValues = .ok targets ∧
    p = insertProgram env r.columns targets
      (exprs.map (evalExpr env.ext (mergeActionNames m r.columns sourceNames)
        (List.replicate (2 * r.columns.length) .null ++ sourceRow))) (call.numbers i)

/-- The assignments that `MERGE` makes to a row. -/
def MergeCall.Updates (call : MergeCall) (existing : List Value) (p : Program) : Prop :=
  ∃ m sourceNames sourceRows sourceRow on assignments, call.stmt = .ok m ∧
    call.source = .ok (sourceNames, sourceRows) ∧ sourceRow ∈ sourceRows ∧
    evalExpr env.ext (mergeCondNames m r.columns sourceNames) (existing ++ sourceRow) m.on =
      .ok on ∧ on.isTrue = true ∧
    firstWhen env (mergeActionNames m r.columns sourceNames) (existing ++ existing ++ sourceRow)
      true m.clauses = .ok (some (.update assignments)) ∧
    p = assignProgram env r.columns (mergeActionNames m r.columns sourceNames)
      (existing ++ existing ++ sourceRow) assignments

end Statements

/-- The new rows of a change are made by some assignments, and those that are inserted have no
`NULL` where there may be none. -/
structure Change.Made (r : Relation) (Inserts : Program → Prop)
    (Updates : Nat → List Value → Program → Prop) (c : Change) : Prop where
  inserts : ∀ row ∈ c.inserts, checkNotNull r.columns row = .ok () ∧
    ∃ p, Inserts p ∧ Assignment.run (List.replicate r.columns.length .null) p = .ok row
  updates : ∀ u ∈ c.updates, ∃ stored p, r.table.rows[u.1]? = some stored ∧
    Updates u.1 (r.table.detoastRow stored) p ∧
    Assignment.run (r.table.detoastRow stored) p = .ok u.2

end PostgresRs.Constraint
