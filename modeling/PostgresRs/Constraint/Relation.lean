import PostgresRs.Exec.IndexPlan
import PostgresRs.Exec.Update

/-!
# Tables with their constraints

A table of `engine/src/storage.rs` together with what the executor checks before it writes to it:
unique constraints, `CHECK` constraints, foreign keys and the place of the partition key.  The rows
and the indexes are those of `Storage.Table`.

Foreign keys name their own column by its position and the referenced one by its name; a partition
scheme has a position too.

* `Database.checkForeignKeyConstraints` — the values of a new row are there in the other tables.
* `Database.checkParentKeyNotReferenced` — no row refers to a row that is about to go.
* `Relation.uniqueViolation`, `rowsHaveDuplicateUniqueKey` — the two checks of unique keys.
-/

namespace PostgresRs.Constraint

open Storage Exec

/-! ## Failures -/

/-- How a statement can go wrong. -/
inductive Failure where
  | error (message : String)
  /-- An `expect` finds nothing. -/
  | expect (message : String)
  | outOfBounds
  /-- An operation of a table does not return. -/
  | storage (panic : Panic)
  /-- The table is partitioned: its rows go to the partitions one by one, each by an `INSERT` of its
  own. -/
  | routed
deriving DecidableEq, Repr

def ofError {α : Type} : Except String α → Except Failure α
  | .ok a => .ok a
  | .error m => .error (.error m)

def ofStorage {α : Type} : Except Panic α → Except Failure α
  | .ok a => .ok a
  | .error p => .error (.storage p)

variable {α : Type}

theorem ofStorage_eq_ok {x : Except Panic α} {a : α} (h : ofStorage x = .ok a) : x = .ok a := by
  cases x with
  | error p => cases h
  | ok b => exact congrArg Except.ok (Except.ok.inj h)

theorem ofError_eq_ok {x : Except String α} {a : α} (h : ofError x = .ok a) : x = .ok a := by
  cases x with
  | error p => cases h
  | ok b => exact congrArg Except.ok (Except.ok.inj h)

/-- `row[column]`. -/
def cell (row : List Value) (column : Nat) : Except Failure Value :=
  match row[column]? with
  | some v => .ok v
  | none => .error .outOfBounds

/-- `compare_values` says that two values are equal. -/
def sameValue (a b : Value) : Bool := compareValues a b == some .eq

/-! ## The data -/

/-- What a column has besides its name, its type and `NOT NULL`. -/
structure ColumnInfo where
  primaryKey : Bool
  default : Option Expr
  serial : Bool
  identity : Bool
  identityAlways : Bool
  generated : Option Expr

/-- Nothing but a name, a type and `NOT NULL`. -/
def ColumnInfo.plain : ColumnInfo := ⟨false, none, false, false, false, none⟩

/-- A column with all that is read of it. -/
structure FullColumn extends Column, ColumnInfo

/-- The column as the loops over `SET` lists and generated columns see it. -/
def FullColumn.toDef (c : FullColumn) : Exec.ColumnDef :=
  { c.toColumn with generated := c.generated }

structure UniqueConstraint where
  name : String
  columns : List Nat
deriving DecidableEq, Repr

structure CheckConstraint where
  name : String
  expr : Expr

structure ForeignKeyConstraint where
  name : String
  column : Nat
  refTable : String
  refColumn : String
  validated : Bool
deriving DecidableEq, Repr

structure PartitionScheme where
  strategy : PartitionStrategy
  column : Nat
deriving DecidableEq, Repr

inductive PartitionBoundSpec where
  | range («from» «to» : Value)
  | list (values : List Value)
  | hash (modulus remainder : Int)

/-- A table with its constraints. -/
structure Relation where
  table : Table
  /-- The rest of each column. -/
  infos : List ColumnInfo
  uniqueConstraints : List UniqueConstraint
  checkConstraints : List CheckConstraint
  foreignKeyConstraints : List ForeignKeyConstraint
  /-- The names of the constraints that are kept as they were written. -/
  exclusionConstraints : List String
  partitionScheme : Option PartitionScheme
  partitionBound : Option PartitionBoundSpec
  partitions : List String

namespace Relation

/-- The rest of the column at a position. -/
def info (r : Relation) (i : Nat) : ColumnInfo := r.infos.getD i .plain

def columns (r : Relation) : List FullColumn :=
  r.table.columns.mapIdx fun i c => ⟨c, r.info i⟩

@[simp] theorem length_columns (r : Relation) : r.columns.length = r.table.columns.length :=
  List.length_mapIdx

theorem map_toColumn_columns (r : Relation) : r.columns.map (·.toColumn) = r.table.columns := by
  refine List.ext_getElem? fun i => ?_
  rw [List.getElem?_map, columns, List.getElem?_mapIdx, Option.map_map]
  exact Option.map_id_apply

end Relation

structure Database where
  tables : AList fun _ : String => Relation

namespace Database

def empty : Database := ⟨∅⟩

variable (db : Database)

def table (name : String) : Option Relation := db.tables.lookup name

/-- The names of all tables in order. -/
def tableNames : List String := db.tables.keys.insertionSort (· ≤ ·)

def setTable (name : String) (r : Relation) : Database :=
  ⟨db.tables.insert name r⟩

def dropTable (name : String) : Database := ⟨db.tables.erase name⟩

/-- The table that a statement is about. -/
def target (name : String) : Except Failure Relation :=
  match db.table name with
  | some r => .ok r
  | none => .error (.error s!"relation \"{name}\" does not exist")

variable {name name' : String}

theorem table_setTable {db : Database} {r : Relation} :
    (db.setTable name r).table name' = if name' = name then some r else db.table name' := by
  rw [table, setTable]
  split
  · next h => rw [h, AList.lookup_insert]
  · next h => exact AList.lookup_insert_ne h

theorem table_dropTable {db : Database} :
    (db.dropTable name).table name' = if name' = name then none else db.table name' := by
  rw [table, dropTable]
  split
  · next h => rw [h, AList.lookup_erase]
  · next h => exact AList.lookup_erase_ne h

theorem target_eq_ok {db : Database} {r : Relation} :
    db.target name = .ok r ↔ db.table name = some r := by
  rw [target]
  cases db.table name <;> simp

theorem exists_of_target {db : Database} {f : Relation → Except Failure α} {a : α}
    (h : db.target name >>= f = .ok a) : ∃ r, db.table name = some r ∧ f r = .ok a := by
  obtain ⟨r, hr, h⟩ := of_bind_eq_ok h
  exact ⟨r, target_eq_ok.mp hr, h⟩

end Database

/-! ## CHECK constraints -/

/-- The row satisfies all `CHECK` constraints. -/
def checkRowConstraints (ext : Externals) (r : Relation) (row : List Value) :
    Except Failure Unit :=
  r.checkConstraints.forM fun c => do
    let v ← ofError (evalExpr ext r.table.columnNames row c.expr)
    if v.isTrue then return ()
    else
      throw (.error
        s!"new row for relation \"{r.table.name}\" violates check constraint \"{c.name}\"")

/-- The rows of the table satisfy a new `CHECK` constraint. -/
def validateCheckConstraint (ext : Externals) (r : Relation) (name : String) (expr : Expr) :
    Except Failure Unit :=
  r.table.rows.forM fun row => do
    let v ← ofError (evalExpr ext r.table.columnNames (r.table.detoastRow row) expr)
    if v.isTrue then return ()
    else
      throw (.error
        s!"check constraint \"{name}\" of relation \"{r.table.name}\" is violated by some row")

/-! ## Foreign keys -/

namespace Database

variable (db : Database)

/-- The referenced column has the value, if there is one. -/
def checkForeignKeyValue (value : Value) (refTable refColumn tableName constraint : String) :
    Except Failure Unit :=
  if value.isNull then .ok ()
  else
    match db.table refTable with
    | none => .error (.expect "referenced table checked")
    | some referenced =>
      match referenced.table.columnIndex refColumn with
      | none => .error (.expect "referenced column checked")
      | some refIdx => do
        let found ← referenced.table.rows.anyM fun row => do
          let v ← cell row refIdx
          return sameValue (referenced.table.detoastValue v) value
        if found then return ()
        else
          throw (.error (s!"insert or update on table \"{tableName}\" violates foreign key " ++
            s!"constraint \"{constraint}\""))

def checkForeignKeyConstraints (tableName : String) (row : List Value) : Except Failure Unit :=
  match db.table tableName with
  | none => .error (.expect "table checked by caller")
  | some r =>
    r.foreignKeyConstraints.forM fun k => do
      let value ← cell row k.column
      db.checkForeignKeyValue value k.refTable k.refColumn tableName k.name

/-- The loop over all foreign keys that refer to a table. -/
def forReferencing (parentTable : String)
    (act : String → Relation → ForeignKeyConstraint → Except Failure Unit) : Except Failure Unit :=
  db.tableNames.forM fun childName =>
    match db.table childName with
    | none => .error (.expect "name came from table_names")
    | some child =>
      child.foreignKeyConstraints.forM fun k =>
        if k.refTable != parentTable then .ok () else act childName child k

/-- No row of another table refers to a row of `parentTable`. -/
def checkParentKeyNotReferenced (parentTable : String) (row : List Value) : Except Failure Unit :=
  match db.table parentTable with
  | none => .ok ()
  | some parent =>
    db.forReferencing parentTable fun childName child k =>
      match parent.table.columnIndex k.refColumn with
      | none => .error (.expect "referenced column validated when constraint was created")
      | some refIdx => do
        let parentValue ← cell row refIdx
        if parentValue.isNull then return ()
        else
          let referenced ← child.table.rows.anyM fun childRow => do
            let v ← cell childRow k.column
            return sameValue (child.table.detoastValue v) parentValue
          if referenced then
            throw (.error (s!"update or delete on table \"{parentTable}\" violates foreign key " ++
              s!"constraint \"{k.name}\" on table \"{childName}\""))
          else return ()

def ensureTableNotReferenced (tableName : String) : Except Failure Unit :=
  db.forReferencing tableName fun childName _ k =>
    .error (.error (s!"cannot drop table \"{tableName}\" because other objects depend on it: " ++
      s!"constraint \"{k.name}\" on table \"{childName}\""))

/-- The referenced table has the column, and a unique index on it. -/
def validateForeignKeyReference (refTable refColumn : String) : Except Failure Unit := do
  let r ← db.target refTable
  match r.table.columnIndex refColumn with
  | none => throw (.error s!"column \"{refColumn}\" does not exist")
  | some column =>
    if r.table.indexes.any fun idx => idx.unique && idx.columns == [column] then return ()
    else
      throw (.error ("there is no unique constraint matching given keys for referenced table " ++
        s!"\"{refTable}\""))

/-- The rows of the table satisfy a new foreign key. -/
def validateForeignKeyExistingRows (tableName : String) (column : Nat)
    (refTable refColumn constraint : String) : Except Failure Unit :=
  match db.table tableName with
  | none => .error (.expect "table checked by caller")
  | some r =>
    r.table.rows.forM fun row => do
      let v ← cell row column
      db.checkForeignKeyValue (r.table.detoastValue v) refTable refColumn tableName constraint

end Database

/-! ## Unique keys -/

def uniqueKeyIsNull (row : List Value) (columns : List Nat) : Except Failure Bool :=
  columns.anyM fun c => return (← cell row c).isNull

/-- The key of a row, as texts. -/
def uniqueKey (row : List Value) (columns : List Nat) : Except Failure (List (List Char)) :=
  columns.mapM fun c => return (← cell row c).toText.getD []

def sameUniqueKey (left right : List Value) (columns : List Nat) : Except Failure Bool :=
  columns.allM fun c => return (← cell left c).toText == (← cell right c).toText

/-- The loop of `rowsHaveDuplicateUniqueKey`, with the keys seen so far. -/
def duplicateAmong (columns : List Nat) (seen : List (List (List Char))) :
    List (List Value) → Except Failure Bool
  | [] => return false
  | row :: rows => do
    if ← uniqueKeyIsNull row columns then duplicateAmong columns seen rows
    else
      let key ← uniqueKey row columns
      if key ∈ seen then return true else duplicateAmong columns (key :: seen) rows

/-- Two of the rows have the same key without a `NULL`. -/
def rowsHaveDuplicateUniqueKey (rows : List (List Value)) (columns : List Nat) :
    Except Failure Bool :=
  duplicateAmong columns [] rows

/-- Two rows have the same key without a `NULL`. -/
def sameRowUniqueKey (left right : List Value) (columns : List Nat) : Except Failure Bool := do
  let null ← columns.anyM fun c => return (← cell left c).isNull || (← cell right c).isNull
  if null then return false else sameUniqueKey left right columns

namespace Relation

variable (r : Relation)

def leadingColumn (idx : Index) : Option Nat := idx.columns.head?

/-- The positions of the rows with a key. -/
def indexEqMulti (idx : Index) (values : List Value) : List Nat :=
  r.table.idsToPositions (idx.store.lookupEq values)

variable (row : List Value)

/-- A row stands in the way of `row` in a unique index. -/
def indexViolation (exclude : Option Nat) (idx : Index) : Except Failure Bool :=
  if !idx.unique then return false
  else
    match leadingColumn idx with
    | none => return false
    | some col => do
      let value ← cell row col
      if value.isNull then return false
      else return (r.indexEqMulti idx [value]).any fun p => some p != exclude

/-- A row stands in the way of `row` in a unique constraint. -/
def constraintViolation (exclude : Option Nat) (c : UniqueConstraint) : Except Failure Bool := do
  if ← uniqueKeyIsNull row c.columns then return false
  else
    r.table.rows.zipIdx.anyM fun (existing, pos) =>
      if some pos == exclude then return false else sameUniqueKey existing row c.columns

/-- The name of the first unique index or constraint in which another row stands in the way. -/
def uniqueViolation (exclude : Option Nat) : Except Failure (Option String) := do
  match ← r.table.indexes.findM? (r.indexViolation row exclude) with
  | some idx => return some idx.name
  | none => return (← r.uniqueConstraints.findM? (r.constraintViolation row exclude)).map (·.name)

/-- The columns of the unique indexes and constraints. -/
def uniqueKeyColumns : List (List Nat) :=
  (r.table.indexes.filter (·.unique)).map (·.columns) ++ r.uniqueConstraints.map (·.columns)

/-- No row of the table stands in the way of `row`. -/
def checkViolation (exclude : Option Nat) (row : List Value) : Except Failure Unit := do
  match ← r.uniqueViolation row exclude with
  | some name => throw (.error s!"duplicate key value violates unique constraint \"{name}\"")
  | none => return ()

/-- No two of the rows stand in each other's way. -/
def checkDuplicates (rows : List (List Value)) : Except Failure Unit :=
  r.uniqueKeyColumns.forM fun columns => do
    if ← rowsHaveDuplicateUniqueKey rows columns then
      throw (.error "duplicate key value violates unique constraint")
    else return ()

def hasIndexNamed (name : String) : Bool := r.table.indexes.any (·.name == name)

def hasConstraintNamed (name : String) : Bool :=
  r.hasIndexNamed name || r.uniqueConstraints.any (·.name == name) ||
    r.checkConstraints.any (·.name == name) || r.foreignKeyConstraints.any (·.name == name) ||
    r.exclusionConstraints.any (· == name)

def columnsHaveDuplicateValues (columns : List Nat) : Except Failure Bool :=
  rowsHaveDuplicateUniqueKey r.table.rows columns

/-! ## Columns -/

/-- A new column, with a value for each row. -/
def addColumn (column : FullColumn) (fill : Nat → Value) : Relation :=
  { r with
    table := r.table.addColumn column.toColumn fill
    infos := r.infos ++ [column.toColumnInfo] }

/-- Without the column at `idx`.  The positions in foreign keys and in the partition scheme stay as
they are. -/
def dropColumn (idx : Nat) : Except Failure Relation := do
  let table ← ofStorage (r.table.dropColumn idx)
  return { r with
    table
    infos := r.infos.eraseIdx idx
    uniqueConstraints := (r.uniqueConstraints.filter fun c => !c.columns.contains idx).map
      fun c => { c with columns := c.columns.map (Table.shiftColumn idx) } }

def setColumn (idx : Nat) (f : Column → Column) : Relation :=
  { r with table := { r.table with columns := r.table.columns.modify idx f } }

def renameColumn (idx : Nat) («to» : String) : Relation :=
  r.setColumn idx fun c => { c with name := «to» }

def setInfo (idx : Nat) (f : ColumnInfo → ColumnInfo) : Relation :=
  { r with infos := r.infos.modify idx f }

def setPrimaryKey (column : Nat) (primaryKey : Bool) : Relation :=
  let r := r.setInfo column fun i => { i with primaryKey := primaryKey }
  if primaryKey then r.setColumn column fun c => { c with notNull := true } else r

/-- A new unique constraint; its columns are part of the primary key if it is one. -/
def addUniqueConstraint (name : String) (columns : List Nat) (primaryKey : Bool) : Relation :=
  let r := if primaryKey then columns.foldl (fun r c => r.setPrimaryKey c true) r else r
  { r with uniqueConstraints := r.uniqueConstraints ++ [⟨name, columns⟩] }

def createIndex (eval : EvalExpr) (name : String) (column : Nat) : Except Failure Relation := do
  let table ← ofStorage (r.table.createIndex eval name column true)
  return { r with table }

end Relation
end PostgresRs.Constraint
