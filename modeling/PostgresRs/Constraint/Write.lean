import PostgresRs.Constraint.Row

/-!
# INSERT, UPDATE, DELETE and MERGE

How the statements of `engine/src/executor.rs` that write rows come to what they write.  Each of
them first makes out which rows are to be replaced, deleted and appended and checks them (`plan…`),
and only then changes the table (`Relation.applyChange`).

What the model leaves open comes with the statement, as the results of its evaluation: the rows of a
query, the numbers of serial columns, subqueries, the rows that the condition of an `UPDATE` or
`DELETE` is true of, and `RETURNING`.
-/

namespace PostgresRs.Constraint

open Storage Exec

/-- What a statement does to the rows of its table: first some are replaced, then some are deleted,
then some are appended. -/
structure Change where
  updates : List (Nat × List Value)
  deletes : List Nat
  inserts : List (List Value)

/-- The rows that are new or come in the place of others. -/
def Change.newRows (c : Change) : List (List Value) := c.updates.map Prod.snd ++ c.inserts

variable (env : Environment)

/-- A condition is true, or there is none. -/
def isTrueOf (names : List String) (values : List Value) : Option Expr → Except Failure Bool
  | none => .ok true
  | some e => ofError ((evalExpr env.ext names values e).map Value.isTrue)

namespace Relation

/-- `table.rows[pos]`, where the position is one of the table. -/
def storedRow (r : Relation) (pos : Nat) : Except Failure (List Value) :=
  match r.table.rows[pos]? with
  | some row => .ok row
  | none => .error (.storage .outOfBounds)

def applyChange (eval : EvalExpr) (r : Relation) (c : Change) : Except Failure Relation := do
  let table ← c.updates.foldlM (fun t u => ofStorage (t.updateRow eval u.1 u.2)) r.table
  let table ← ofStorage (table.deleteRows eval c.deletes)
  let table ← c.inserts.foldlM (fun t row => ofStorage (t.pushRow eval row)) table
  return { r with table }

end Relation

/-! ## The rows of an INSERT -/

/-- An `INSERT`, with the results of its evaluation. -/
structure InsertCall where
  stmt : Insert
  /-- The rows of the query, if there is one. -/
  selected : Except String (List (List Value))
  /-- The numbers of a table's serial columns, by the number of the row in the statement. -/
  numbers : String → Nat → Numbers
  returning : List (List Value) → Except String Unit
  /-- The number of the first row in the statement. -/
  first : Nat

/-- The rows that are given, each value as it is evaluated when its turn comes. -/
def InsertCall.inputRows (call : InsertCall) : Except String (List (List (Except String Value))) :=
  if call.stmt.select.isSome then do
    let rows ← call.selected
    return rows.map (·.map .ok)
  else if call.stmt.defaultValues then .ok [[]]
  else .ok (call.stmt.rows.map (·.map (evalExpr env.ext [] [])))

/-- The places that the values of a new row go to. -/
def targetIndices (columns : List FullColumn) (names : Option (List String)) (defaultValues : Bool)
    (missing : String → Failure) : Except Failure (List Nat) :=
  if defaultValues then .ok []
  else
    match names with
    | none => .ok (List.range columns.length)
    | some names =>
      names.mapM fun n =>
        match columns.findIdx? (·.name == n) with
        | some i => .ok i
        | none => .error (missing n)

def insertTargets (stmt : Insert) (columns : List FullColumn) : Except Failure (List Nat) :=
  targetIndices columns stmt.columns stmt.defaultValues fun n =>
    .error s!"column \"{n}\" of relation \"{stmt.table}\" does not exist"

/-- The `i`-th row of an `INSERT` into a table with the given columns. -/
def InsertCall.row (call : InsertCall) (columns : List FullColumn) (targets : List Nat) (i : Nat)
    (values : List (Except String Value)) : Except Failure (List Value) := do
  if values.length ≠ targets.length then
    throw (.error
      s!"INSERT has {values.length} expressions but {targets.length} target columns")
  else
    let row ← givenRow env columns targets values
    ofError (finishInsertRow env columns targets call.stmt.overridingSystemValue
      (call.numbers call.stmt.table (call.first + i)) row)

/-! ## ON CONFLICT -/

def onConflictTarget : OnConflict → List String
  | .doNothing target => target
  | .doUpdate target _ _ => target

/-- The column that a clause names is there. -/
def checkKnown (tableName : String) (columns : List FullColumn) (name : String) :
    Except Failure Unit :=
  if columns.any (·.name == name) then .ok ()
  else .error (.error s!"column \"{name}\" of relation \"{tableName}\" does not exist")

/-- The columns that `ON CONFLICT` names are there, and those that it assigns not generated. -/
def checkOnConflict (tableName : String) (columns : List FullColumn) (c : OnConflict) :
    Except Failure Unit := do
  (onConflictTarget c).forM (checkKnown tableName columns)
  match c with
  | .doNothing _ => return ()
  | .doUpdate _ assignments _ => assignments.forM fun a => checkAssignment tableName columns a.1

namespace Relation

variable (r : Relation)

/-- The position of the first row with the key of `row`. -/
def conflictPositionForKey (row : List Value) (columns : List Nat) :
    Except Failure (Option Nat) := do
  if ← uniqueKeyIsNull row columns then return none
  else
    return (← r.table.rows.zipIdx.findM? fun e => sameRowUniqueKey e.1 row columns).map Prod.snd

/-- The first position that one of the keys has. -/
def conflictPositionForKeys (row : List Value) : List (List Nat) → Except Failure (Option Nat)
  | [] => .ok none
  | columns :: keys => do
    match ← r.conflictPositionForKey row columns with
    | some pos => return some pos
    | none => conflictPositionForKeys row keys

def conflictPositionForRow (row : List Value) (target : List String) :
    Except Failure (Option Nat) := do
  if target = [] then r.conflictPositionForKeys row r.uniqueKeyColumns
  else
    let columns ← target.mapM fun name =>
      match r.table.columnIndex name with
      | some i => .ok i
      | none => .error (.error s!"column \"{name}\" does not exist")
    r.conflictPositionForKey row columns

/-- The rows that `DO NOTHING` leaves, after those that are accepted. -/
def acceptRows (accepted : List (List Value)) : List (List Value) →
    Except Failure (List (List Value))
  | [] => return accepted
  | row :: rows => do
    if (← r.uniqueViolation row none).isSome then acceptRows accepted rows
    else
      let prior ← r.uniqueKeyColumns.anyM fun columns =>
        accepted.anyM fun existing => sameRowUniqueKey existing row columns
      if prior then acceptRows accepted rows else acceptRows (accepted ++ [row]) rows

end Relation

def onConflictEvalNames (columns : List FullColumn) : List String :=
  columns.map (·.name) ++ columns.map fun c => "excluded." ++ c.name

/-- What `DO UPDATE` makes of a row, if its condition is true. -/
def upsertedRow (columns : List FullColumn) (assignments : List (String × Expr))
    (filter : Option Expr) (existing row : List Value) :
    Except Failure (Option (List Value)) := do
  let names := onConflictEvalNames columns
  let values := existing ++ row
  if !(← isTrueOf env names values filter) then return none
  else
    let updated ← assignments.foldlM (assign env columns names values) existing
    return some (← ofError (applyGeneratedColumns env.ext (columns.map FullColumn.toDef) updated))

/-- The loop of `DO UPDATE` over the new rows: those that replace one, and those that are appended.
-/
def upserts (r : Relation) (target : List String) (assignments : List (String × Expr))
    (filter : Option Expr) (touched : List Nat) :
    List (List Value) → Except Failure (List (Nat × List Value) × List (List Value))
  | [] => return ([], [])
  | row :: rows => do
    match ← r.conflictPositionForRow row target with
    | none =>
      let (updates, inserts) ← upserts r target assignments filter touched rows
      return (updates, row :: inserts)
    | some pos =>
      if pos ∈ touched then
        throw (.error "ON CONFLICT DO UPDATE command cannot affect row a second time")
      else
        let existing := r.table.detoastRow (← r.storedRow pos)
        match ← upsertedRow env r.columns assignments filter existing row with
        | none => upserts r target assignments filter (pos :: touched) rows
        | some updated =>
          let (updates, inserts) ← upserts r target assignments filter (pos :: touched) rows
          return ((pos, updated) :: updates, inserts)

/-! ## INSERT -/

variable (db : Database)

/-- The `CHECK` constraints, user types and foreign keys of new rows. -/
def checkRows (tableName : String) (r : Relation) (rows : List (List Value)) :
    Except Failure Unit := do
  rows.forM (checkRowConstraints env.ext r)
  rows.forM fun row => ofError (env.enforceUserTypes r.table.columns row)
  rows.forM (db.checkForeignKeyConstraints tableName)

/-- The rows of an `INSERT` into a table without partitions. -/
def InsertCall.newRows (call : InsertCall) (r : Relation) : Except Failure (List (List Value)) := do
  let targets ← insertTargets call.stmt r.columns
  let inputs ← ofError (call.inputRows env)
  inputs.zipIdx.mapM fun e => call.row env r.columns targets e.2 e.1

/-- `INSERT` into a table without partitions. -/
def planInsert (call : InsertCall) : Except Failure Change := do
  let r ← db.target call.stmt.table
  match call.stmt.onConflict with
  | some c => checkOnConflict call.stmt.table r.columns c
  | none => pure ()
  let rows ← call.newRows env r
  checkRows env db call.stmt.table r rows
  match call.stmt.onConflict with
  | none => do
    rows.forM (r.checkViolation none)
    r.checkDuplicates rows
    ofError (call.returning rows)
    return ⟨[], [], rows⟩
  | some (.doNothing _) => do
    let accepted ← r.acceptRows [] rows
    ofError (call.returning accepted)
    return ⟨[], [], accepted⟩
  | some (.doUpdate target assignments filter) => do
    let (updates, inserts) ← upserts env r target assignments filter [] rows
    updates.forM fun u => do
      checkRowConstraints env.ext r u.2
      r.checkViolation (some u.1) u.2
    inserts.forM (r.checkViolation none)
    r.checkDuplicates (inserts ++ updates.map Prod.snd)
    updates.forM fun u => ofError (env.enforceUserTypes r.table.columns u.2)
    updates.forM fun u => db.checkForeignKeyConstraints call.stmt.table u.2
    inserts.forM (db.checkForeignKeyConstraints call.stmt.table)
    ofError (call.returning (updates.map Prod.snd ++ inserts))
    return ⟨updates, [], inserts⟩

/-! ## UPDATE and DELETE -/

/-- An `UPDATE`, with the results of its evaluation. -/
structure UpdateCall where
  stmt : Update
  /-- The `SET` list with its subqueries evaluated, if these and the rows of `FROM` can be. -/
  assignments : Except String (List (String × Expr))
  /-- The names that the expressions may use. -/
  names : List String
  candidates : Except String (List Nat)
  /-- Whether the row at a position is meant, and with which row of `FROM`. -/
  selected : Nat → List Value → Except String (Option (Option (List Value)))
  returning : List (List Value) → Except String Unit

/-- The loop over the candidates. -/
def UpdateCall.versions (call : UpdateCall) (r : Relation) (targets : List (Nat × Expr)) :
    List Nat → Except Failure (List (Nat × List Value))
  | [] => return []
  | pos :: rest => do
    let row := r.table.detoastRow (← r.storedRow pos)
    match ← ofError (call.selected pos row) with
    | none => call.versions r targets rest
    | some source =>
      let new ← ofError (newVersion env.ext (r.columns.map FullColumn.toDef) call.names source
        targets row)
      let versions ← call.versions r targets rest
      return (pos, new) :: versions

/-- A row whose referenced key changes is not referred to. -/
def checkKeyChange (tableName : String) (r : Relation) (u : Nat × List Value) :
    Except Failure Unit := do
  let stored ← r.storedRow u.1
  db.forReferencing tableName fun _ _ k =>
    match r.table.columnIndex k.refColumn with
    | none => .error (.expect "referenced column validated when constraint was created")
    | some refIdx => do
      if sameValue (← cell stored refIdx) (← cell u.2 refIdx) then return ()
      else db.checkParentKeyNotReferenced tableName stored

def planUpdate (call : UpdateCall) : Except Failure Change := do
  let assignments ← ofError call.assignments
  let r ← db.target call.stmt.table
  let targets ←
    ofError (resolveTargets call.stmt.table (r.columns.map FullColumn.toDef) assignments)
  let candidates ← ofError call.candidates
  let versions ← call.versions env r targets candidates
  checkRows env db call.stmt.table r (versions.map Prod.snd)
  versions.forM (checkKeyChange db call.stmt.table r)
  versions.forM fun u => r.checkViolation (some u.1) u.2
  r.checkDuplicates (versions.map Prod.snd)
  ofError (call.returning (versions.map Prod.snd))
  return ⟨versions, [], []⟩

/-- A `DELETE`, with the results of its evaluation. -/
structure DeleteCall where
  stmt : Delete
  /-- The subqueries and the rows of `USING` can be evaluated. -/
  prepared : Except String Unit
  candidates : Except String (List Nat)
  /-- The condition is true of the row at a position. -/
  matching : Nat → List Value → Except String Bool
  returning : List (List Value) → Except String Unit

/-- The candidates that the condition is true of. -/
def DeleteCall.matched (call : DeleteCall) (r : Relation) : List Nat → Except Failure (List Nat)
  | [] => return []
  | pos :: rest => do
    let row := r.table.detoastRow (← r.storedRow pos)
    let found ← ofError (call.matching pos row)
    let positions ← call.matched r rest
    return if found then pos :: positions else positions

def planDelete (call : DeleteCall) : Except Failure Change := do
  ofError call.prepared
  let r ← db.target call.stmt.table
  let candidates ← ofError call.candidates
  let matched ← call.matched r candidates
  -- The positions are collected in a set and come out in order.
  let positions := (List.range r.table.rows.length).filter matched.contains
  let affected ← positions.mapM fun pos => do return r.table.detoastRow (← r.storedRow pos)
  affected.forM (db.checkParentKeyNotReferenced call.stmt.table)
  ofError (call.returning affected)
  return ⟨[], positions, []⟩

/-! ## MERGE -/

/-- A `MERGE`, with the results of its evaluation. -/
structure MergeCall where
  /-- The statement with its subqueries evaluated. -/
  stmt : Except String Merge
  /-- The names and the rows of the source. -/
  source : Except String (List String × List (List Value))
  /-- The numbers of serial columns, by the number of the inserted row. -/
  numbers : Nat → Numbers

def mergeTargetQualifier (m : Merge) : String := m.targetAlias.getD m.target

section Merge

variable (m : Merge) (columns : List FullColumn) (sourceNames : List String)

def mergeTargetQualified : List String :=
  columns.map fun c => mergeTargetQualifier m ++ "." ++ c.name

/-- The names in conditions of `ON`. -/
def mergeCondNames : List String := mergeTargetQualified m columns ++ sourceNames

/-- The names in the conditions and expressions of the clauses. -/
def mergeActionNames : List String :=
  columns.map (·.name) ++ mergeTargetQualified m columns ++ sourceNames

/-- The clauses do what their kind allows, with columns that are there. -/
def checkMergeClause (w : MergeWhen) : Except Failure Unit :=
  match w.action, w.matched with
  | .update assignments, true => assignments.forM fun a => checkAssignment m.target columns a.1
  | .update _, false => .error (.error "UPDATE is only allowed in WHEN MATCHED clauses")
  | .delete, false => .error (.error "DELETE is only allowed in WHEN MATCHED clauses")
  | .insert _ _ _, true => .error (.error "INSERT is only allowed in WHEN NOT MATCHED clauses")
  | .insert cols _ _, false => (cols.getD []).forM (checkKnown m.target columns)
  | .delete, true | .doNothing, _ => .ok ()

/-- The action of the first clause of a kind whose condition is true. -/
def firstWhen (names : List String) (values : List Value) (matched : Bool) :
    List MergeWhen → Except Failure (Option MergeAction)
  | [] => return none
  | w :: ws => do
    if w.matched ≠ matched then firstWhen names values matched ws
    else
      if ← isTrueOf env names values w.condition then return some w.action
      else firstWhen names values matched ws

/-- What the loop over the source has found so far. -/
structure MergeState where
  touched : List Nat
  change : Change

/-- The places that the values of a `WHEN NOT MATCHED` clause go to. -/
def mergeTargets (cols : Option (List String)) (defaultValues : Bool) : Except Failure (List Nat) :=
  targetIndices columns cols defaultValues fun _ =>
    .expect "INSERT column existence validated above"

/-- The row that a `WHEN NOT MATCHED` clause inserts. -/
def MergeCall.insertedRow (call : MergeCall) (names : List String) (values : List Value) (i : Nat)
    (cols : Option (List String)) (exprs : List Expr) (defaultValues : Bool) :
    Except Failure (List Value) := do
  let targets ← mergeTargets columns cols defaultValues
  if exprs.length ≠ targets.length then
    throw (.error
      s!"MERGE INSERT has {exprs.length} expressions but {targets.length} target columns")
  else
    let row ← givenRow env columns targets (exprs.map (evalExpr env.ext names values))
    ofError (finishInsertRow env columns targets false (call.numbers i) row)

/-- A row of the source that no row of the target matches. -/
def MergeCall.notMatched (call : MergeCall) (sourceRow : List Value) (s : MergeState) :
    Except Failure MergeState := do
  let names := mergeActionNames m columns sourceNames
  let values := List.replicate (2 * columns.length) Value.null ++ sourceRow
  match ← firstWhen env names values false m.clauses with
  | none | some .doNothing => return s
  | some (.insert cols exprs defaultValues) =>
    let row ← call.insertedRow env columns names values s.change.inserts.length cols exprs
      defaultValues
    return { s with change := { s.change with inserts := s.change.inserts ++ [row] } }
  | some _ => throw (.expect "validated NOT MATCHED action above")

/-- A row of the target that a row of the source matches. -/
def matchedRow (r : Relation) (sourceRow : List Value) (s : MergeState) (pos : Nat) :
    Except Failure MergeState := do
  let existing := r.table.detoastRow (← r.storedRow pos)
  let names := mergeActionNames m columns sourceNames
  let values := existing ++ existing ++ sourceRow
  match ← firstWhen env names values true m.clauses with
  | none => return s
  | some .doNothing => return { s with touched := pos :: s.touched }
  | some .delete =>
    return { touched := pos :: s.touched
             change := { s.change with deletes := s.change.deletes ++ [pos] } }
  | some (.update assignments) =>
    let row ← assignments.foldlM (assign env columns names values) existing
    let new ← ofError (applyGeneratedColumns env.ext (columns.map FullColumn.toDef) row)
    return { touched := pos :: s.touched
             change := { s.change with updates := s.change.updates ++ [(pos, new)] } }
  | some (.insert _ _ _) => throw (.expect "validated MATCHED action above")

/-- The rows of the target that a row of the source matches, without those already acted on. -/
def mergeMatches (r : Relation) (sourceRow : List Value) (touched : List Nat) :
    List Nat → Except Failure (List Nat)
  | [] => return []
  | pos :: rest => do
    if pos ∈ touched then mergeMatches r sourceRow touched rest
    else
      let values := r.table.detoastRow (← r.storedRow pos) ++ sourceRow
      let found ← ofError (evalExpr env.ext (mergeCondNames m columns sourceNames) values m.on)
      let positions ← mergeMatches r sourceRow touched rest
      return if found.isTrue then pos :: positions else positions

/-- The loop over the source. -/
def MergeCall.sourceRow (call : MergeCall) (r : Relation) (s : MergeState)
    (sourceRow : List Value) : Except Failure MergeState := do
  match ← mergeMatches env m columns sourceNames r sourceRow s.touched
    (List.range r.table.rows.length) with
  | [] => call.notMatched env m columns sourceNames sourceRow s
  | pos :: rest => (pos :: rest).foldlM (matchedRow env m columns sourceNames r sourceRow) s

end Merge

def planMerge (call : MergeCall) : Except Failure (String × Change) := do
  let m ← ofError call.stmt
  let (sourceNames, sourceRows) ← ofError call.source
  let r ← db.target m.target
  let columns := r.columns
  m.clauses.forM (checkMergeClause m columns)
  let s ← sourceRows.foldlM (call.sourceRow env m columns sourceNames r) ⟨[], ⟨[], [], []⟩⟩
  let c := s.change
  checkRows env db m.target r c.newRows
  c.deletes.forM fun pos => do
    let stored ← r.storedRow pos
    db.checkParentKeyNotReferenced m.target stored
  c.updates.forM fun u => r.checkViolation (some u.1) u.2
  c.inserts.forM (r.checkViolation none)
  r.checkDuplicates (c.inserts ++ c.updates.map Prod.snd)
  return (m.target,
    { c with deletes := (List.range r.table.rows.length).filter c.deletes.contains })

end PostgresRs.Constraint
