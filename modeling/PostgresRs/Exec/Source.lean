import PostgresRs.Exec.IndexPlan
import PostgresRs.Exec.Parallel
import PostgresRs.Util.Walk

/-!
# Tables and their descendants in a FROM clause

How `engine/src/executor.rs` turns a table reference into column names and rows
(`resolve_source_table`, `resolve_base_source`), with the walk over child tables of
`engine/src/storage.rs`: a table is read together with its descendants, unless `ONLY` is written.

Derived tables, common table expressions, functions, system catalogs, views and sequences are left
open: a `Scope` says what a reference means that is not one to a table.
-/

namespace PostgresRs

/-- The name that qualifies the columns of a table reference. -/
def TableRef.qualifier (tref : TableRef) : String := tref.alias.getD tref.name

/-- A reference to a table by its name alone. -/
def TableRef.plain (name : String) : TableRef where
  schema := none
  name := name
  args := []
  «alias» := none
  subquery := none
  lateral := false
  only := false
  columnAliases := []
  withOrdinality := false

namespace Exec

open Storage

/-- A resolved source: qualified column names, types and rows. -/
structure Source where
  names : List String
  types : List DataType
  rows : List (List Value)

/-- The tables of a database, with the parents that each of them names. -/
structure Relations where
  tables : Storage.Database
  inherits : String → List String

/-- What names mean that are not those of tables. -/
structure Scope where
  isCte : String → Bool
  isPgCatalogTable : String → Bool
  /-- A derived table, common table expression, function, system catalog, view or sequence. -/
  other : TableRef → Option (Except Failure Source)
  /-- A reference with the columns of a row filled in (`specialize_table_ref`). -/
  specialize : TableRef → List String → List Value → Except Failure TableRef

/-- No names but those of tables: for runs on concrete inputs. -/
def plainScope : Scope where
  isCte _ := false
  isPgCatalogTable _ := false
  other _ := none
  specialize tref _ _ := .ok tref

/-- Whether a condition, if there is one, is true of a row. -/
def passes (ext : Externals) (names : List String) (cond : Option Expr) (row : List Value) :
    Except Failure Bool :=
  match cond with
  | none => .ok true
  | some pred =>
    match evalExpr ext names row pred with
    | .ok v => .ok v.isTrue
    | .error m => .error (.error m)

/-! ## Conditions on threads -/

section Threads

variable (ext : Externals) (names : List String) (cond : Option Expr)

/-- Whether a condition is true of a row, on a thread with the given functions. -/
def passesOn (functions : Functions) (row : List Value) : Except Failure Bool × Functions :=
  match cond with
  | none => (.ok true, functions)
  | some pred =>
    (((evaluation ext pred).result (rowAnswers functions names row)).map Value.isTrue, functions)

/-- The calls that the condition gets to on a row have the same results with other functions. -/
def AnsweredAlike (fresh : Functions) (row : List Value) : Prop :=
  ∀ pred, cond = some pred → ∀ name vals star, .call name vals star ∈
      (evaluation ext pred).reached (rowAnswers ext.scalarFunction names row) →
    fresh name vals star = ext.scalarFunction name vals star

variable {ext names cond} {available : Nat} {fresh : Functions} {row : List Value}
  {rows kept : List (List Value)} {keep : Bool}

theorem passesOn_eq_ok : (passesOn ext names cond ext.scalarFunction row).1 = .ok keep ↔
    passes ext names cond row = .ok keep := by
  cases cond with
  | none => exact Iff.rfl
  | some pred =>
    rw [passesOn, passes]
    cases hresult : evalExpr ext names row pred with
    | ok v => rw [evalExpr_eq_ok.mp hresult]; exact Iff.rfl
    | error m =>
      refine iff_of_false (fun h => ?_) (by rintro ⟨⟩)
      obtain ⟨v, hv, -⟩ := of_map_eq_ok h
      rw [evalExpr_eq_ok.mpr hv] at hresult
      cases hresult

theorem passesOn_of_alike (h : AnsweredAlike ext names cond fresh row) :
    (passesOn ext names cond fresh row).1 =
      (passesOn ext names cond ext.scalarFunction row).1 := by
  cases cond with
  | none => rfl
  | some pred =>
    rw [passesOn, passesOn]
    refine congrArg (Except.map Value.isTrue) (Asks.result_congr fun q hq => ?_)
    cases q with
    | column | node => rfl
    | call name vals star => rw [rowAnswers, rowAnswers, h pred rfl name vals star hq]

/-- What a SELECT keeps of the rows, if its threads answer alike. -/
theorem filterSelectRows_passesOn
    (h : parallelSelectWorkerCount available rows.length ≤ 1 ∨
      ∀ row ∈ rows, AnsweredAlike ext names cond fresh row) :
    filterSelectRows (passesOn ext names cond) available fresh ext.scalarFunction rows = .ok kept ↔
      (∀ row ∈ rows, ∃ keep, passes ext names cond row = .ok keep) ∧
        kept = rows.filter fun row => accepted (passes ext names cond row) := by
  have hsteady : ∀ functions row,
      passesOn ext names cond functions row = ((passesOn ext names cond functions row).1, functions) := by
    intro functions row
    cases cond <;> rfl
  rw [filterSelectRows_eq_ok (f := fun row => (passesOn ext names cond ext.scalarFunction row).1)
    (fun row _ => hsteady _ row) (h.imp_right fun h row hrow => ?_)]
  · have haccepted : ∀ row, accepted (passesOn ext names cond ext.scalarFunction row).1 =
        accepted (passes ext names cond row) := by
      intro row
      rw [Bool.eq_iff_iff]
      have hiff := @passesOn_eq_ok ext names cond row true
      generalize (passesOn ext names cond ext.scalarFunction row).1 = x at hiff ⊢
      generalize passes ext names cond row = y at hiff ⊢
      rcases x with x | x <;> rcases y with y | y <;> simp_all [accepted]
    simp only [passesOn_eq_ok, haccepted]
  · rw [hsteady fresh row, passesOn_of_alike (h row hrow)]

end Threads

namespace Relations

variable (db : Relations)

def table (name : String) : Option Table := db.tables.table name

/-! ## Descendants -/

/-- The children of a table in the order of their names. -/
def childTables (parent : String) : List String :=
  db.tables.tableNames.filter fun name => (db.inherits name).contains parent

/-- The descendants of a table, breadth first.  Every table adds its children to the queue at most
once, so the walk ends. -/
def descendantTables (parent : String) : List String :=
  Walk.bfs db.childTables parent
    (Walk.pending db.childTables db.tables.tableNames [] (db.childTables parent)) []
    (db.childTables parent)

/-- A table of the catalog is a child of the tables in its parent list. -/
def IsChild (p c : String) : Prop := (db.table c).isSome = true ∧ p ∈ db.inherits c

variable {db}

theorem mem_childTables {p c : String} : c ∈ db.childTables p ↔ db.IsChild p c := by
  rw [childTables, List.mem_filter, Database.tableNames, (List.perm_insertionSort _ _).mem_iff,
    List.contains_iff_mem, IsChild, table, Database.table, AList.lookup_isSome, AList.mem_keys]

theorem runs_descendantTables (parent : String) :
    Walk.Runs db.childTables parent [] (db.childTables parent) (db.descendantTables parent) := by
  have hnodup : db.tables.tableNames.Nodup :=
    (List.perm_insertionSort _ _).nodup_iff.mpr db.tables.tables.nodupKeys
  exact Walk.runs_bfs hnodup (fun _ => List.filter_sublist.subset) le_rfl List.filter_sublist.subset

/-- The descendants are the other tables that can be reached from a table by going to children. -/
theorem mem_descendantTables {parent name : String} :
    name ∈ db.descendantTables parent ↔ name ≠ parent ∧
      Relation.TransGen db.IsChild parent name := by
  have hsteps : (fun p c => c ∈ db.childTables p) = db.IsChild := by
    funext p c
    exact propext mem_childTables
  rw [← hsteps]
  exact (runs_descendantTables parent).mem_iff

/-- **Inheritance**: the loop ends with the tables that can be reached, each once and behind one of
its parents. -/
theorem descendantTables_closure (db : Relations) (parent : String) :
    Walk.Runs db.childTables parent [] (db.childTables parent) (db.descendantTables parent) ∧
      (db.descendantTables parent).Nodup ∧
      (∀ name, name ∈ db.descendantTables parent ↔ name ≠ parent ∧
        Relation.TransGen db.IsChild parent name) ∧
      ∀ i name, (db.descendantTables parent)[i]? = some name → ∃ p, db.IsChild p name ∧
        (p = parent ∨ p ∈ (db.descendantTables parent).take i) := by
  have hruns := @runs_descendantTables db parent
  refine ⟨hruns, hruns.found.nodup, fun _ => mem_descendantTables, fun i name hname => ?_⟩
  obtain ⟨p, hchild, hbefore⟩ := hruns.found.behind i name hname
  exact ⟨p, mem_childTables.mp hchild, hbefore⟩

variable (db)

/-! ## Rows -/

/-- The cell of a row of `child` in the column of a parent with the given name. -/
def projectCell (child : Table) (row : List Value) (name : String) : Except Failure Value :=
  match child.columnIndex name with
  | none => .ok .null
  | some i =>
    match row[i]? with
    | some cell => .ok (child.detoastValue cell)
    | none => .error .panic

/-- The rows of `child`, with the columns of a parent. -/
def projectRows (parentColumns : List String) (child : Table) :
    Except Failure (List (List Value)) :=
  child.rows.mapM fun row => parentColumns.mapM (projectCell child row)

/-- The rows of the descendants of a table, with its columns. -/
def inheritedRows (name : String) (t : Table) : Except Failure (List (List Value)) := do
  let rows ← (db.descendantTables name).mapM fun child =>
    match db.table child with
    | none => .ok []
    | some child => projectRows t.columnNames child
  return rows.flatten

variable (scope : Scope)

/-- The qualified names of the columns of a table. -/
def sourceNames (tref : TableRef) (t : Table) : List String :=
  t.columns.map fun c => tref.qualifier ++ "." ++ c.name

def resolveSourceTable (tref : TableRef) : Except Failure Source :=
  match scope.other tref with
  | some source => source
  | none =>
    match db.table tref.name with
    | none => .error (.error ("relation \"" ++ tref.name ++ "\" does not exist"))
    | some t => do
      let inherited ← if tref.only then .ok [] else db.inheritedRows tref.name t
      return {
        names := sourceNames tref t
        types := t.columns.map Column.dataType
        rows := t.rows.map t.detoastRow ++ inherited }

/-- The rows at some positions of a table. -/
def rowsAt (t : Table) (positions : List Nat) : Except Failure (List (List Value)) :=
  positions.mapM fun pos =>
    match t.rows[pos]? with
    | some row => .ok (t.detoastRow row)
    | none => .error .panic

/-- The source of a FROM clause without joins: an index can narrow down the rows of a table that
has no descendants. -/
def resolveBaseSource [BEq Expr] (ext : Externals) (tref : TableRef) (filter : Option Expr) :
    Except Failure Source :=
  let isReal := tref.schema != some "information_schema" && tref.schema != some "pg_catalog" &&
    !scope.isPgCatalogTable tref.name
  let hasDescendants := !tref.only && !(db.descendantTables tref.name).isEmpty
  if scope.isCte tref.name || !isReal || hasDescendants then db.resolveSourceTable scope tref
  else
    match filter, db.table tref.name with
    | some pred, some t =>
      match indexCandidatePositions ext t pred with
      | .error _ => .error .panic
      | .ok none => db.resolveSourceTable scope tref
      | .ok (some positions) => do
        let rows ← rowsAt t positions
        return { names := sourceNames tref t, types := t.columns.map Column.dataType, rows }
    | _, _ => db.resolveSourceTable scope tref

end Relations
end Exec
end PostgresRs
