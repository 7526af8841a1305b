import PostgresRs.Constraint.Write

/-!
# Statements that change tables and constraints

`CREATE TABLE`, `ALTER TABLE`, `DROP TABLE`, `CREATE INDEX`, `DROP INDEX` and `TRUNCATE` of
`engine/src/executor.rs`, and with the statements of `PostgresRs.Constraint.Write` all that change a
table (`Command`).  `perform` is one of them without the triggers that fire after it and without the
routing to partitions: the statements of triggers and the rows that go to a partition are commands
of their own.
-/

namespace PostgresRs.Constraint

open Storage Exec

/-- What is known of names other than those of tables. -/
structure Names where
  /-- The base type of a domain. -/
  domainBase : String → Option DataType
  isView : String → Bool
  isRole : String → Bool

variable (env : Environment) (names : Names) (db : Database)

/-! ## CREATE TABLE -/

def columnFromDef (cd : ColumnDef) : FullColumn where
  name := cd.name
  dataType := (cd.typeName.bind names.domainBase).getD cd.dataType
  notNull := cd.notNull
  primaryKey := cd.primaryKey
  default := cd.default
  serial := cd.serial
  identity := cd.identity
  identityAlways := cd.identityAlways
  generated := cd.generated

/-- A column whose name is already there is left out. -/
def mergeColumns (columns more : List FullColumn) : List FullColumn :=
  more.foldl (fun cs c => if cs.any (·.name == c.name) then cs else cs ++ [c]) columns

/-- The columns that a new table has from others. -/
def inheritedColumns (c : CreateTable) : Except Failure (List FullColumn) :=
  match c.partitionOf with
  | some po => do
    let parent ← db.target po.parent
    if parent.partitionScheme.isNone then throw (.error s!"\"{po.parent}\" is not partitioned")
    else return parent.columns
  | none =>
    c.inherits.foldlM (fun columns parentName => do
      let parent ← db.target parentName
      return mergeColumns columns parent.columns) []

/-- The bound of a partition, with values of the type of the key. -/
def resolvePartitionBound (bound : PartitionBound) (keyType : DataType) :
    Except Failure PartitionBoundSpec :=
  let value (e : Expr) : Except Failure Value := do
    let v ← ofError (evalExpr env.ext [] [] e)
    ofError (env.ext.coerce v keyType)
  match bound with
  | .range «from» «to» => return .range (← value «from») (← value «to»)
  | .list values => return .list (← values.mapM value)
  | .hash modulus remainder => return .hash modulus remainder

/-- The bound of a new partition. -/
def resolvedBound (c : CreateTable) : Except Failure (Option PartitionBoundSpec) :=
  match c.partitionOf with
  | none => return none
  | some po => do
    let parent ← db.target po.parent
    match parent.partitionScheme with
    | none => throw (.expect "partitioned above")
    | some scheme =>
      match parent.table.columns[scheme.column]? with
      | none => throw .outOfBounds
      | some column => return some (← resolvePartitionBound env po.bound column.dataType)

/-- A table without rows and constraints. -/
def newRelation (name : String) (columns : List FullColumn) : Relation where
  table := Table.new name (columns.map (·.toColumn))
  infos := columns.map (·.toColumnInfo)
  uniqueConstraints := []
  checkConstraints := []
  foreignKeyConstraints := []
  exclusionConstraints := []
  partitionScheme := none
  partitionBound := none
  partitions := []

namespace Relation

variable (r : Relation)

/-- `PARTITION BY`. -/
def partitionBy : Option PartitionBy → Except Failure Relation
  | none => return r
  | some pb =>
    match r.table.columnIndex pb.column with
    | none => throw (.error s!"column \"{pb.column}\" named in partition key does not exist")
    | some column =>
      return { r with partitionScheme := some ⟨pb.strategy, column⟩ }

def constraintColumnIndices (columns : List String) : Except Failure (List Nat) :=
  columns.mapM fun column =>
    match r.table.columnIndex column with
    | some i => .ok i
    | none => .error (.error s!"column \"{column}\" does not exist")

/-- A unique constraint: an index if it has one column. -/
def addUnique (name : String) (columns : List Nat) (primaryKey : Bool) : Except Failure Relation :=
  match columns with
  | [column] => do
    let r ← r.createIndex (evalIndex env.ext) name column
    return if primaryKey then r.setPrimaryKey column true else r
  | _ => return r.addUniqueConstraint name columns primaryKey

/-- A foreign key on the column at a position. -/
def addForeignKey (name : String) (column : Nat) (refTable refColumn : String)
    (validated : Bool) : Relation :=
  { r with foreignKeyConstraints := r.foreignKeyConstraints ++
      [⟨name, column, refTable, refColumn, validated⟩] }

/-- A constraint of `CREATE TABLE`. -/
def addTableConstraint : TableConstraint → Except Failure Relation
  | .unique name columns primaryKey => do
    let indices ← r.constraintColumnIndices columns
    r.addUnique env name indices primaryKey
  | .check name expr _ => return { r with checkConstraints := r.checkConstraints ++ [⟨name, expr⟩] }
  | .foreignKey name column refTable refColumn validated =>
    match r.table.columnIndex column with
    | none => throw (.error s!"column \"{column}\" does not exist")
    | some columnIdx => do
      db.validateForeignKeyReference refTable refColumn
      return r.addForeignKey name columnIdx refTable refColumn validated
  | .exclude name _ => return { r with exclusionConstraints := r.exclusionConstraints ++ [name] }

/-- The index of each column that is marked as the primary key. -/
def primaryKeyIndexes : Except Failure Relation :=
  (r.columns.zipIdx.filter (·.1.primaryKey)).foldlM (fun r' e =>
    r'.createIndex (evalIndex env.ext) s!"{r.table.name}_{e.1.name}_pkey" e.2) r

end Relation

/-- The table that `CREATE TABLE` makes. -/
def createdRelation (c : CreateTable) : Except Failure Relation := do
  let inherited ← inheritedColumns db c
  let bound ← resolvedBound env db c
  let columns := mergeColumns inherited (c.columns.map (columnFromDef names))
  let r ← (newRelation c.name columns).partitionBy c.partitionBy
  let r ← { r with partitionBound := bound }.primaryKeyIndexes env
  c.constraints.foldlM (fun r tc => r.addTableConstraint env db tc) r

def execCreateTable (c : CreateTable) : Except Failure Database := do
  if (db.table c.name).isSome then
    if c.ifNotExists then return db else throw (.error s!"relation \"{c.name}\" already exists")
  else
    let r ← createdRelation env names db c
    if names.isView c.name then throw (.error s!"relation \"{c.name}\" already exists")
    else
      let db := db.setTable c.name r
      match c.partitionOf.bind fun po => (db.table po.parent).map (po.parent, ·) with
      | none => return db
      | some (parent, r) =>
        return db.setTable parent { r with partitions := r.partitions ++ [c.name] }

/-! ## ALTER TABLE -/

def Database.renameTable (old new : String) : Except Failure Database :=
  match db.table old with
  | none => .error (.error s!"relation \"{old}\" does not exist")
  | some r =>
    if (db.table new).isSome then .error (.error s!"relation \"{new}\" already exists")
    else .ok ((db.dropTable old).setTable new
      { r with table := { r.table with name := new } })

/-- An `ALTER TABLE`, with the numbers of a new serial column. -/
structure AlterCall where
  stmt : AlterTable
  numbers : Nat → Int

/-- The values of a new column for the rows that are there. -/
def addedValues (r : Relation) (numbers : Nat → Int) (column : ColumnDef) (default : Value) :
    Except Failure (Nat → Value) :=
  if column.serial || column.identity then return fun pos => .int (numbers pos)
  else
    match column.generated with
    | none => return fun _ => default
    | some expr => do
      let values ← r.table.rows.mapM fun row => do
        let v ← ofError (evalExpr env.ext r.table.columnNames row expr)
        ofError (env.ext.coerce v column.dataType)
      return fun pos => values.getD pos .null

/-- The default of a new column. -/
def addedDefault (column : ColumnDef) : Except Failure Value :=
  match column.default with
  | none => return .null
  | some e => do
    let v ← ofError (evalExpr env.ext [] [] e)
    ofError (env.ext.coerce v (columnFromDef names column).dataType)

def execAddColumn (tableName : String) (numbers : Nat → Int) (column : ColumnDef)
    (ifNotExists : Bool) : Except Failure Database := do
  let default ← addedDefault env names column
  let r ← db.target tableName
  if r.table.columns.any (·.name == column.name) then
    if ifNotExists then return db
    else
      throw (.error s!"column \"{column.name}\" of relation \"{tableName}\" already exists")
  else if column.notNull && column.default.isNone && !column.serial && !column.identity &&
      column.generated.isNone && !r.table.rows.isEmpty then
    throw (.error s!"column \"{column.name}\" contains null values")
  else
    let values ← addedValues env r numbers column default
    return db.setTable tableName (r.addColumn (columnFromDef names column) values)

def execDropColumn (tableName name : String) (ifExists : Bool) : Except Failure Database := do
  let r ← db.target tableName
  match r.table.columnIndex name with
  | some idx => return db.setTable tableName (← r.dropColumn idx)
  | none =>
    if ifExists then return db
    else throw (.error s!"column \"{name}\" of relation \"{tableName}\" does not exist")

/-- The columns of a new primary key have no `NULL`. -/
def checkNoNulls (r : Relation) (columns : List (Nat × String)) : Except Failure Unit :=
  columns.forM fun c => do
    if ← r.table.rows.anyM fun row => return (← cell row c.1).isNull then
      throw (.error s!"column \"{c.2}\" contains null values")
    else return ()

/-- A check that is made under a condition. -/
def checkIf (condition : Bool) (check : Except Failure Unit) : Except Failure Unit :=
  if condition then check else .ok ()

def execAddConstraint (tableName : String) (constraint : TableConstraint) :
    Except Failure Database := do
  let r ← db.target tableName
  match constraint with
  | .unique name columns primaryKey =>
    let indices ← r.constraintColumnIndices columns
    if r.hasConstraintNamed name then throw (.error s!"constraint \"{name}\" already exists")
    else
      checkIf primaryKey (checkNoNulls r (indices.zip columns))
      if ← r.columnsHaveDuplicateValues indices then
        throw (.error
          s!"could not create unique constraint \"{name}\": key contains duplicate values")
      else return db.setTable tableName (← r.addUnique env name indices primaryKey)
  | .check name expr validated =>
    if r.hasConstraintNamed name then throw (.error s!"constraint \"{name}\" already exists")
    else
      checkIf validated (validateCheckConstraint env.ext r name expr)
      return db.setTable tableName
        { r with checkConstraints := r.checkConstraints ++ [⟨name, expr⟩] }
  | .foreignKey name column refTable refColumn validated =>
    if r.hasConstraintNamed name then throw (.error s!"constraint \"{name}\" already exists")
    else
      match r.table.columnIndex column with
      | none => throw (.error s!"column \"{column}\" does not exist")
      | some columnIdx =>
        db.validateForeignKeyReference refTable refColumn
        checkIf validated
          (db.validateForeignKeyExistingRows tableName columnIdx refTable refColumn name)
        return db.setTable tableName (r.addForeignKey name columnIdx refTable refColumn validated)
  | .exclude name _ =>
    if r.hasConstraintNamed name then throw (.error s!"constraint \"{name}\" already exists")
    else
      return db.setTable tableName
        { r with exclusionConstraints := r.exclusionConstraints ++ [name] }

/-- Without the constraint of a name: the first kind that has one loses all of this name, and of
the indexes the first one goes. -/
def Relation.dropConstraint (r : Relation) (name : String) : Except Failure (Option Relation) :=
  if r.checkConstraints.any (·.name == name) then
    return some { r with checkConstraints := r.checkConstraints.filter (·.name != name) }
  else if r.exclusionConstraints.any (· == name) then
    return some { r with exclusionConstraints := r.exclusionConstraints.filter (· != name) }
  else if r.foreignKeyConstraints.any (·.name == name) then
    return some { r with foreignKeyConstraints := r.foreignKeyConstraints.filter (·.name != name) }
  else if r.uniqueConstraints.any (·.name == name) then
    return some { r with uniqueConstraints := r.uniqueConstraints.filter (·.name != name) }
  else
    match r.table.indexes.find? (·.name == name) with
    | none => return none
    | some idx =>
      let r := { r with table := r.table.dropIndex name }
      match Relation.leadingColumn idx with
      | none => return some r
      | some col =>
        if idx.unique then
          match r.columns[col]? with
          | none => throw .outOfBounds
          | some column => return some (if column.primaryKey then r.setPrimaryKey col false else r)
        else return some r

def execDropConstraint (tableName name : String) (ifExists : Bool) : Except Failure Database := do
  let r ← db.target tableName
  match ← r.dropConstraint name with
  | some r => return db.setTable tableName r
  | none =>
    if ifExists then return db else throw (.error s!"constraint \"{name}\" does not exist")

def execRenameColumn (tableName old new : String) : Except Failure Database := do
  let r ← db.target tableName
  match r.table.columnIndex old with
  | some idx => return db.setTable tableName (r.renameColumn idx new)
  | none => throw (.error s!"column \"{old}\" of relation \"{tableName}\" does not exist")

/-- A change to the first column of a name. -/
def Relation.setColumnNamed (r : Relation) (name : String) (f : Column → Column) : Relation :=
  match r.table.columnIndex name with
  | some idx => r.setColumn idx f
  | none => r

def execSetColumnDefault (tableName column : String) (default : Expr) :
    Except Failure Database := do
  let r ← db.target tableName
  match r.table.columnIndex column with
  | some idx =>
    return db.setTable tableName (r.setInfo idx fun i => { i with default := some default })
  | none => throw (.error s!"column \"{column}\" of relation \"{tableName}\" does not exist")

def execDropColumnDefault (tableName column : String) : Except Failure Database := do
  let r ← db.target tableName
  match r.table.columnIndex column with
  | some idx => return db.setTable tableName (r.setInfo idx fun i => { i with default := none })
  | none => return db

def execAlterTable (call : AlterCall) : Except Failure Database := do
  let tableName := call.stmt.table
  match call.stmt.action with
  | .renameTable «to» => db.renameTable tableName «to»
  | .addColumn column ifNotExists =>
    execAddColumn env names db tableName call.numbers column ifNotExists
  | .dropColumn name ifExists => execDropColumn db tableName name ifExists
  | .addConstraint constraint => execAddConstraint env db tableName constraint
  | .dropConstraint name ifExists => execDropConstraint db tableName name ifExists
  | .renameColumn «from» «to» => execRenameColumn db tableName «from» «to»
  | .ownerTo owner =>
    if !names.isRole owner then throw (.error s!"role \"{owner}\" does not exist")
    else
      let _ ← db.target tableName
      return db
  | .setColumnDefault column default => execSetColumnDefault db tableName column default
  | .dropColumnDefault column => execDropColumnDefault db tableName column
  | .setColumnNotNull column notNull =>
    let r ← db.target tableName
    return db.setTable tableName (r.setColumnNamed column fun c => { c with notNull := notNull })
  | .rowSecurity _ | .alterColumnNoop | .noop =>
    let _ ← db.target tableName
    return db

/-! ## Other statements -/

def execDropTable (d : DropTable) : Except Failure Database := do
  if (db.table d.name).isNone then
    if d.ifExists then return db else throw (.error s!"table \"{d.name}\" does not exist")
  else
    db.ensureTableNotReferenced d.name
    return db.dropTable d.name

/-- The keys of a new index: columns, or one expression. -/
def indexKeys (r : Relation) : List IndexKeyExpr → List Nat → Option Expr →
    Except Failure (List Nat × Option Expr)
  | [], columns, expr => return (columns, expr)
  | .column name :: keys, columns, expr =>
    match r.table.columnIndex name with
    | none => throw (.error s!"column \"{name}\" does not exist")
    | some col => indexKeys r keys (columns ++ [col]) expr
  | .expr e :: keys, columns, expr =>
    if expr.isSome then throw (.error "multi-key expression indexes are not supported")
    else indexKeys r keys columns (some e)

def indexKeyLabel : IndexKeyExpr → String
  | .column name => name
  | .expr _ => "expr"

/-- The name of a new index. -/
def indexName (c : CreateIndex) (isExpr : Bool) : String :=
  c.name.getD (c.table ++ "_" ++
    (if isExpr then "expr" else "_".intercalate (c.keys.map indexKeyLabel)) ++ "_idx")

/-- The rows have a key of the new index twice, where this is looked at. -/
def duplicateKeys (r : Relation) (c : CreateIndex) (columns : List Nat) : Except Failure Bool :=
  if c.unique && c.predicate.isNone && columns.length == 1 then r.columnsHaveDuplicateValues columns
  else .ok false

def execCreateIndex (c : CreateIndex) : Except Failure Database := do
  let r ← db.target c.table
  let (columns, expr) ← indexKeys r c.keys [] none
  if expr.isSome && !columns.isEmpty then
    throw (.error "mixing expression and column index keys is not supported")
  else
    let incl ← r.constraintColumnIndices c.include
    let name := indexName c expr.isSome
    if r.hasIndexNamed name then
      if c.ifNotExists then return db else throw (.error s!"relation \"{name}\" already exists")
    else
      if ← duplicateKeys r c columns then
        throw (.error s!"could not create unique index \"{name}\": key contains duplicate values")
      else
        let table ← ofStorage (r.table.createIndexFull (evalIndex env.ext) name columns expr
          c.predicate incl c.unique c.method)
        return db.setTable c.table { r with table }

def execDropIndex (d : DropIndex) : Except Failure Database :=
  match db.tableNames.findSome? fun name => do
    let r ← db.table name
    if r.hasIndexNamed d.name then some (name, r) else none with
  | some (name, r) => return db.setTable name { r with table := r.table.dropIndex d.name }
  | none =>
    if d.ifExists then return db else throw (.error s!"index \"{d.name}\" does not exist")

/-- The table without its rows. -/
def Database.truncateTable (name : String) : Except Failure Database :=
  match db.table name with
  | none => .error (.expect "table existence checked before truncate")
  | some r => .ok (db.setTable name { r with table := r.table.truncate })

def execTruncate (t : Truncate) : Except Failure Database := do
  t.tables.forM fun name => do
    let _ ← db.target name
    return ()
  t.tables.foldlM (fun db name => db.truncateTable name) db

/-! ## Commands -/

/-- A statement that changes a table, with the results of its evaluation. -/
inductive Command where
  | createTable (stmt : CreateTable)
  | alterTable (call : AlterCall)
  | dropTable (stmt : DropTable)
  | createIndex (stmt : CreateIndex)
  | dropIndex (stmt : DropIndex)
  | truncate (stmt : Truncate)
  | insert (call : InsertCall)
  | update (call : UpdateCall)
  | delete (call : DeleteCall)
  | merge (call : MergeCall)

/-- Carry out a change of the rows of a table. -/
def Database.write (name : String) (c : Change) : Except Failure Database := do
  let r ← db.target name
  return db.setTable name (← r.applyChange (evalIndex env.ext) c)

def perform : Command → Except Failure Database
  | .createTable stmt => execCreateTable env names db stmt
  | .alterTable call => execAlterTable env names db call
  | .dropTable stmt => execDropTable db stmt
  | .createIndex stmt => execCreateIndex env db stmt
  | .dropIndex stmt => execDropIndex db stmt
  | .truncate stmt => execTruncate db stmt
  | .insert call => do
    let r ← db.target call.stmt.table
    if r.partitionScheme.isSome then throw .routed
    else
      let c ← planInsert env db call
      db.write env call.stmt.table c
  | .update call => do
    let c ← planUpdate env db call
    db.write env call.stmt.table c
  | .delete call => do
    let c ← planDelete db call
    db.write env call.stmt.table c
  | .merge call => do
    let (name, c) ← planMerge env db call
    db.write env name c

/-- A command, with what holds of names and types at the time. -/
structure Event where
  env : Environment
  names : Names
  command : Command

/-- The database after an event; a command that does not succeed is not counted. -/
def step (e : Event) : Database :=
  match perform e.env e.names db e.command with
  | .ok db' => db'
  | .error _ => db

/-- The statement is carried out. -/
def Succeeds (db : Database) (e : Event) : Prop :=
  (perform e.env e.names db e.command).toBool = true

instance (db : Database) (e : Event) : Decidable (Succeeds db e) :=
  inferInstanceAs (Decidable (_ = true))

/-! ## Statements on integers

For runs on concrete inputs. -/

def bareEnvironment : Environment :=
  ⟨bareExternals, rawNormalizers, fun _ _ => .ok ()⟩

def bareNames : Names := ⟨fun _ => none, fun _ => false, fun _ => false⟩

def bareEvent (c : Command) : Event := ⟨bareEnvironment, bareNames, c⟩

/-- `INSERT INTO table VALUES …`. -/
def insertInts (table : String) (rows : List (List Int)) : InsertCall where
  stmt :=
    { table, columns := none, defaultValues := false, overridingSystemValue := false
      rows := rows.map (·.map Expr.int), select := none, onConflict := none, returning := [] }
  selected := .ok []
  numbers _ _ _ := 0
  returning _ := .ok ()
  first := 0

/-- `UPDATE table SET …` of the rows at some positions. -/
def updateAt (table : String) (assignments : List (String × Expr)) (positions : List Nat) :
    UpdateCall where
  stmt := { table, assignments, «from» := none, filter := none, returning := [] }
  assignments := .ok assignments
  names := []
  candidates := .ok positions
  selected _ _ := .ok (some none)
  returning _ := .ok ()

def intColumn (name : String) : ColumnDef :=
  { name, dataType := .int8, typeName := none, notNull := false, primaryKey := false
    default := none, serial := false, identity := false, identityAlways := false
    generated := none }

/-- `CREATE TABLE name (…)`. -/
def createInts (name : String) (columns : List String) (constraints : List TableConstraint) :
    CreateTable :=
  { name, columns := columns.map intColumn, constraints, ifNotExists := false
    persistence := .permanent, inherits := [], partitionBy := none, partitionOf := none }

/-- `CREATE UNIQUE INDEX ON table (…)`. -/
def createUnique (table : String) (columns : List String) : CreateIndex :=
  { name := none, table, keys := columns.map .column, unique := true, ifNotExists := false
    method := .btree, «include» := [], predicate := none }

end PostgresRs.Constraint
