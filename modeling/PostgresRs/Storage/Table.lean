import PostgresRs.Storage.Index
import PostgresRs.Util.AssocMap
import PostgresRs.Util.Fallible
import PostgresRs.Util.Run

/-!
# Tables

A table of `engine/src/storage.rs`: its rows with their stable ids, the values that are kept out of
line (TOAST), its indexes, and the nine operations that change them.  The evaluation of expressions
is a parameter of the indexes that need it.

A call can panic, at an index out of bounds or on an overflow.  The operations then give a `Panic`,
and a history of a table (`Table.step`) goes on as if the call had not been made.
-/

namespace PostgresRs.Storage

/-- `eval_expr`: the value of an expression on a row with the given column names, if it has one. -/
abbrev EvalExpr := Expr → List String → List Value → Option Value

/-- A way in which a call does not return. -/
inductive Panic where
  | outOfBounds
  | capacity
  | overflow
deriving DecidableEq, Repr

structure Column where
  name : String
  dataType : DataType
  notNull : Bool
deriving DecidableEq, Repr

structure Table where
  name : String
  columns : List Column
  rows : List (List Value)
  rowIds : List RowId
  rowPos : AList fun _ : RowId => Nat
  nextRowId : RowId
  indexes : List Index
  toast : AList fun _ : Nat => String
  nextToastId : Nat

/-! ## Pointers to values out of line -/

def toastThresholdBytes : Nat := 2048

def toastPrefix : List Char := '\x01' :: "pg_toast:".toList

def toastSuffix : List Char := ['\x01']

/-- `str::parse::<u64>`. -/
def parseU64 (cs : List Char) : Option Nat :=
  let digits := if cs.head? = some '+' then cs.tail else cs
  if digits ≠ [] ∧ digits.all Char.isDigit then
    let n := Nat.ofDigitChars 10 digits 0
    if n < 2 ^ 64 then some n else none
  else none

/-- The text that stands in a row for the value with the given id. -/
def toastPointer (id : Nat) : String :=
  String.ofList <| toastPrefix ++ (Nat.toDigits 10 id ++ toastSuffix)

/-- The id of a value out of line, if the cell points to one. -/
def toastIdOf : Value → Option Nat
  | .text s =>
    ((s.toList.dropPrefix? toastPrefix).bind fun inner => inner.dropSuffix? toastSuffix).bind parseU64
  | _ => none

/-- The elements of a list at the positions that satisfy `p`. -/
def keepAt {α : Type} (p : Nat → Bool) (l : List α) : List α :=
  (l.zipIdx.filter fun e => p e.2).map Prod.fst

namespace Table

def new (name : String) (columns : List Column) : Table :=
  { name, columns, rows := [], rowIds := [], rowPos := ∅, nextRowId := 0, indexes := [],
    toast := ∅, nextToastId := 0 }

def columnNames (t : Table) : List String := t.columns.map Column.name

/-! ## Values out of line -/

/-- One cell of `toastRow`. -/
def toastCell (t : Table) (cell : Value) : Except Panic (Table × Value) :=
  match cell with
  | .text s =>
    if toastPrefix.isPrefixOf s.toList then .ok (t, cell)
    else if s.utf8ByteSize ≤ toastThresholdBytes then .ok (t, cell)
    else if 2 ^ 64 ≤ t.nextToastId + 1 then .error .overflow
    else
      .ok ({ t with nextToastId := t.nextToastId + 1, toast := t.toast.insert t.nextToastId s },
        .text (toastPointer t.nextToastId))
  | _ => .ok (t, cell)

/-- Move the large texts of a row out of line. -/
def toastRow (t : Table) : List Value → Except Panic (Table × List Value)
  | [] => .ok (t, [])
  | cell :: row => do
    let (t, cell) ← t.toastCell cell
    let (t, row) ← t.toastRow row
    .ok (t, cell :: row)

/-- Free what the cells of a row point to. -/
def untoastRow (t : Table) (row : List Value) : Table :=
  { t with toast := (row.filterMap toastIdOf).foldl (fun m id => m.erase id) t.toast }

def detoastValue (t : Table) (cell : Value) : Value :=
  match toastIdOf cell with
  | some id => .text ((t.toast.lookup id).getD "")
  | none => cell

def detoastRow (t : Table) (row : List Value) : List Value := row.map t.detoastValue

/-! ## Rows in indexes -/

section Eval

variable (eval : EvalExpr) (t : Table) (idx : Index)

/-- The key of a row, if its expression has a value. -/
def indexKey (row : List Value) : Except Panic (Option (List Value)) :=
  match idx.expr with
  | some expr => .ok ((eval expr t.columnNames row).map ([·]))
  | none =>
    match idx.columns.mapM (row[·]?) with
    | some key => .ok (some key)
    | none => .error .outOfBounds

/-- Whether a row satisfies the predicate of a partial index. -/
def rowQualifies (row : List Value) : Bool :=
  match idx.predicate with
  | none => true
  | some pred => ((eval pred t.columnNames row).map Value.isTrue).getD false

/-- The key under which a row goes into an index, if it does. -/
def entryKey (row : List Value) : Except Panic (Option (List Value)) :=
  if t.rowQualifies eval idx row then t.indexKey eval idx row else .ok none

def indexRow (row : List Value) (id : RowId) : Except Panic Table := do
  let keys ← t.indexes.mapM (t.entryKey eval · row)
  .ok { t with indexes := t.indexes.zipWith (fun idx key => key.elim idx (idx.insert · id)) keys }

def unindexRow (row : List Value) (id : RowId) : Except Panic Table := do
  let keys ← t.indexes.mapM (t.entryKey eval · row)
  .ok { t with indexes := t.indexes.zipWith (fun idx key => key.elim idx (idx.remove · id)) keys }

/-! ## Operations -/

def pushRow (row : List Value) : Except Panic Table := do
  if 2 ^ 64 ≤ t.nextRowId + 1 then .error .overflow
  else
    let id := t.nextRowId
    let pos := t.rows.length
    let t ← { t with nextRowId := id + 1 }.indexRow eval row id
    let (t, row) ← t.toastRow row
    .ok { t with
      rows := t.rows ++ [row], rowIds := t.rowIds ++ [id], rowPos := t.rowPos.insert id pos }

def updateRow (pos : Nat) (newRow : List Value) : Except Panic Table := do
  match t.rowIds[pos]?, t.rows[pos]? with
  | some id, some storedOld =>
    let t ← t.unindexRow eval (t.detoastRow storedOld) id
    let t ← t.indexRow eval newRow id
    let (t, newRow) ← (t.untoastRow storedOld).toastRow newRow
    .ok { t with rows := t.rows.set pos newRow }
  | _, _ => .error .outOfBounds

/-- Take a row that is deleted out of the indexes and free its values. -/
def dropRow (stored : List Value) (id : RowId) : Except Panic Table := do
  let t ← t.unindexRow eval (t.detoastRow stored) id
  .ok (t.untoastRow stored)

def deleteRows (positions : List Nat) : Except Panic Table := do
  if positions = [] then .ok t
  else if positions.any (t.rows.length ≤ ·) then .error .outOfBounds
  else
    let dropped := keepAt positions.contains (t.rows.zip t.rowIds)
    let kept := keepAt (!positions.contains ·) (t.rows.zip t.rowIds)
    let t' ← dropped.foldlM (fun t e => t.dropRow eval e.1 e.2) t
    -- The capacity of the new rows is `self.rows.len() - positions.len()`.
    if t.rows.length < positions.length then .error .capacity
    else
      .ok { t' with
        rows := kept.map Prod.fst, rowIds := kept.map Prod.snd,
        rowPos := kept.zipIdx.foldl (fun m e => m.insert e.1.2 e.2) ∅ }

def truncate : Table :=
  { t with rows := [], rowIds := [], rowPos := ∅, toast := ∅, indexes := t.indexes.map Index.clear }

def addColumn (column : Column) (fill : Nat → Value) : Table :=
  { t with
    columns := t.columns ++ [column], rows := t.rows.mapIdx fun pos row => row ++ [fill pos] }

/-- The place of a column after column `idx` is gone. -/
def shiftColumn (idx c : Nat) : Nat := if idx < c then c - 1 else c

def dropColumn (idx : Nat) : Except Panic Table :=
  if t.columns.length ≤ idx ∨ ∃ row ∈ t.rows, row.length ≤ idx then .error .outOfBounds
  else
    .ok { t with
      columns := t.columns.eraseIdx idx
      rows := t.rows.map (·.eraseIdx idx)
      indexes := (t.indexes.filter fun i => !i.columns.contains idx && !i.include.contains idx).map
        fun i => { i with
          columns := i.columns.map (shiftColumn idx), «include» := i.include.map (shiftColumn idx) } }

/-- What goes into a new index for a stored row. -/
def populateEntry (idx : Index) (e : List Value × RowId) :
    Except Panic (Option (List Value) × RowId) := do
  let key ← t.entryKey eval idx e.1
  .ok (key, e.2)

def addAndPopulateIndex (idx : Index) : Except Panic Table := do
  let entries ← (t.rows.zip t.rowIds).mapM (t.populateEntry eval idx)
  let idx := entries.foldl (fun idx e => e.1.elim idx (idx.insert · e.2)) idx
  .ok { t with indexes := t.indexes ++ [idx] }

def createIndex (name : String) (column : Nat) (unique : Bool) : Except Panic Table :=
  t.addAndPopulateIndex eval (.new name column unique)

def createIndexFull (name : String) (columns : List Nat) (expr predicate : Option Expr)
    («include» : List Nat) (unique : Bool) (method : IndexMethod) : Except Panic Table :=
  t.addAndPopulateIndex eval
    { Index.newMulti name columns unique method with expr, predicate, «include» }

def dropIndex (name : String) : Table := { t with indexes := t.indexes.eraseP (·.name == name) }

/-! ## Histories -/

/-- A call of one of the operations. -/
inductive Op where
  | pushRow (row : List Value)
  | updateRow (pos : Nat) (newRow : List Value)
  | deleteRows (positions : List Nat)
  | truncate
  | createIndex (name : String) (column : Nat) (unique : Bool)
  | createIndexFull (name : String) (columns : List Nat) (expr predicate : Option Expr)
      («include» : List Nat) (unique : Bool) (method : IndexMethod)
  | dropIndex (name : String)
  | addColumn (column : Column) (fill : Nat → Value)
  | dropColumn (idx : Nat)

def apply : Op → Except Panic Table
  | .pushRow row => t.pushRow eval row
  | .updateRow pos newRow => t.updateRow eval pos newRow
  | .deleteRows positions => t.deleteRows eval positions
  | .truncate => .ok t.truncate
  | .createIndex name column unique => t.createIndex eval name column unique
  | .createIndexFull name columns expr predicate incl unique method =>
    t.createIndexFull eval name columns expr predicate incl unique method
  | .dropIndex name => .ok (t.dropIndex name)
  | .addColumn column fill => .ok (t.addColumn column fill)
  | .dropColumn idx => t.dropColumn idx

/-- The table after a call; a call that panics changes nothing. -/
def step (op : Op) : Table :=
  match t.apply eval op with
  | .ok t' => t'
  | .error _ => t

end Eval

end Table

/-! ## Databases -/

/-- The tables of a database by name. -/
structure Database where
  tables : AList fun _ : String => Table

namespace Database

def new : Database := ⟨∅⟩

def table (db : Database) (name : String) : Option Table := db.tables.lookup name

def createTable (db : Database) (table : Table) : Except String Database :=
  if table.name ∈ db.tables then .error s!"relation \"{table.name}\" already exists"
  else .ok ⟨db.tables.insert table.name table⟩

/-- The names of all tables in order. -/
def tableNames (db : Database) : List String := db.tables.keys.insertionSort (· ≤ ·)

end Database

end PostgresRs.Storage
