import PostgresRs.Sql.Statement

/-!
# The placeholders of a statement

The numbers `N` of all placeholders `$N` that stand anywhere in a statement: in its expressions, in
the queries below them, and in the parts of data definitions that hold expressions.  The order of
the list means nothing; the parts that the binding of parameters gets to come first.
-/

namespace PostgresRs

/-! ## Expressions and queries -/

mutual

/-- The placeholders of an expression. -/
def Expr.params : Expr → List Nat
  | .int _ | .float _ | .str _ | .bool _ | .null | .column _ | .qualifiedColumn _ _ => []
  | .param n => [n]
  | .unary _ expr | .isNull expr _ | .cast expr _ => expr.params
  | .binary _ left right | .isDistinctFrom left right _ => left.params ++ right.params
  | .quantifiedCompare left _ _ list => left.params ++ paramsAll list
  | .row items | .array items => paramsAll items
  | .like expr pattern _ _ => expr.params ++ pattern.params
  | .inList expr list _ => expr.params ++ paramsAll list
  | .between expr low high _ => expr.params ++ (low.params ++ high.params)
  | .case operand whens elseExpr =>
    paramsOption operand ++ (paramsWhens whens ++ paramsOption elseExpr)
  | .scalarSubquery select | .exists select => select.params
  | .inSubquery expr subquery _ => expr.params ++ subquery.params
  | .function _ args _ _ filter window =>
    paramsAll args ++ (paramsOption filter ++ paramsWindow window)

def paramsAll : List Expr → List Nat
  | [] => []
  | e :: es => e.params ++ paramsAll es

def paramsOption : Option Expr → List Nat
  | none => []
  | some e => e.params

def paramsWhens : List (Expr × Expr) → List Nat
  | [] => []
  | w :: ws => paramsWhen w ++ paramsWhens ws

def paramsWhen : Expr × Expr → List Nat
  | (cond, result) => cond.params ++ result.params

def paramsRows : List (List Expr) → List Nat
  | [] => []
  | row :: rows => paramsAll row ++ paramsRows rows

def paramsAssignments : List (String × Expr) → List Nat
  | [] => []
  | a :: as => paramsAssignment a ++ paramsAssignments as

def paramsAssignment : String × Expr → List Nat
  | (_, e) => e.params

def WindowSpec.params : WindowSpec → List Nat
  | ⟨partitionBy, orderBy⟩ => paramsAll partitionBy ++ paramsOrderBy orderBy

def paramsWindow : Option WindowSpec → List Nat
  | none => []
  | some w => w.params

def OrderByItem.params : OrderByItem → List Nat
  | ⟨expr, _⟩ => expr.params

def paramsOrderBy : List OrderByItem → List Nat
  | [] => []
  | o :: os => o.params ++ paramsOrderBy os

def SelectItem.params : SelectItem → List Nat
  | .wildcard => []
  | .expr expr _ => expr.params

def paramsItems : List SelectItem → List Nat
  | [] => []
  | item :: items => item.params ++ paramsItems items

def TableRef.params : TableRef → List Nat
  | ⟨_, _, args, _, subquery, _, _, _, _⟩ => paramsAll args ++ paramsSubquery subquery

def Join.params : Join → List Nat
  | ⟨_, table, on⟩ => table.params ++ paramsOption on

def paramsJoins : List Join → List Nat
  | [] => []
  | j :: js => j.params ++ paramsJoins js

def FromClause.params : FromClause → List Nat
  | ⟨base, joins⟩ => base.params ++ paramsJoins joins

def paramsFrom : Option FromClause → List Nat
  | none => []
  | some f => f.params

def SetOperation.params : SetOperation → List Nat
  | ⟨_, _, select⟩ => select.params

def paramsSetOps : List SetOperation → List Nat
  | [] => []
  | op :: ops => op.params ++ paramsSetOps ops

def Cte.params : Cte → List Nat
  | ⟨_, _, select, dml, _⟩ => select.params ++ paramsDml dml

def paramsCtes : List Cte → List Nat
  | [] => []
  | c :: cs => c.params ++ paramsCtes cs

/-- The placeholders of a query. -/
def Select.params : Select → List Nat
  | ⟨ctes, _, distinctOn, projection, source, filter, groupBy, groupingSets, having, orderBy, limit,
      offset, _, setOps⟩ =>
    paramsItems projection ++ (paramsOption filter ++ (paramsFrom source ++ (paramsAll groupBy ++
      (paramsOption having ++ (paramsAll distinctOn ++ (paramsOrderBy orderBy ++
        (paramsOption limit ++ (paramsOption offset ++ (paramsSetOps setOps ++
          (paramsCtes ctes ++ paramsRows groupingSets))))))))))

def paramsSubquery : Option Select → List Nat
  | none => []
  | some s => s.params

def OnConflict.params : OnConflict → List Nat
  | .doNothing _ => []
  | .doUpdate _ assignments filter => paramsAssignments assignments ++ paramsOption filter

def paramsConflict : Option OnConflict → List Nat
  | none => []
  | some c => c.params

def Insert.params : Insert → List Nat
  | ⟨_, _, _, _, rows, select, onConflict, returning⟩ =>
    paramsRows rows ++ (paramsSubquery select ++
      (paramsConflict onConflict ++ paramsItems returning))

def Update.params : Update → List Nat
  | ⟨_, assignments, source, filter, returning⟩ =>
    paramsAssignments assignments ++ (paramsOption filter ++
      (paramsFrom source ++ paramsItems returning))

def Delete.params : Delete → List Nat
  | ⟨_, «using», filter, returning⟩ =>
    paramsOption filter ++ (paramsFrom «using» ++ paramsItems returning)

def Dml.params : Dml → List Nat
  | .insert i => i.params
  | .update u => u.params
  | .delete d => d.params

def paramsDml : Option Dml → List Nat
  | none => []
  | some d => d.params

end

theorem paramsRows_eq_flatMap (rows : List (List Expr)) :
    paramsRows rows = rows.flatMap paramsAll := by
  induction rows with
  | nil => rfl
  | cons row rows ih => rw [paramsRows, ih, List.flatMap_cons]

theorem paramsAssignments_eq_flatMap (as : List (String × Expr)) :
    paramsAssignments as = as.flatMap fun a => a.2.params := by
  induction as with
  | nil => rfl
  | cons a as ih => rw [paramsAssignments, ih, List.flatMap_cons, paramsAssignment]

theorem paramsOrderBy_eq_flatMap (os : List OrderByItem) :
    paramsOrderBy os = os.flatMap OrderByItem.params := by
  induction os with
  | nil => rfl
  | cons o os ih => rw [paramsOrderBy, ih, List.flatMap_cons]

theorem paramsItems_eq_flatMap (items : List SelectItem) :
    paramsItems items = items.flatMap SelectItem.params := by
  induction items with
  | nil => rfl
  | cons item items ih => rw [paramsItems, ih, List.flatMap_cons]

theorem paramsJoins_eq_flatMap (joins : List Join) :
    paramsJoins joins = joins.flatMap Join.params := by
  induction joins with
  | nil => rfl
  | cons j js ih => rw [paramsJoins, ih, List.flatMap_cons]

/-! ## Statements -/

def ColumnDef.params (c : ColumnDef) : List Nat :=
  paramsOption c.default ++ paramsOption c.generated

def TableConstraint.params : TableConstraint → List Nat
  | .check _ expr _ => expr.params
  | .unique _ _ _ | .foreignKey _ _ _ _ _ | .exclude _ _ => []

def PartitionBound.params : PartitionBound → List Nat
  | .range lower upper => lower.params ++ upper.params
  | .list values => paramsAll values
  | .hash _ _ => []

def CreateTable.params (c : CreateTable) : List Nat :=
  c.columns.flatMap ColumnDef.params ++ c.constraints.flatMap TableConstraint.params ++
    c.partitionOf.elim [] fun p => p.bound.params

def AlterAction.params : AlterAction → List Nat
  | .addColumn column _ => column.params
  | .addConstraint constraint => constraint.params
  | .setColumnDefault _ default => default.params
  | _ => []

def IndexKeyExpr.params : IndexKeyExpr → List Nat
  | .column _ => []
  | .expr e => e.params

def MergeSource.params : MergeSource → List Nat
  | .table _ _ => []
  | .subquery select _ => select.params
  | .values rows _ _ => paramsRows rows

def MergeAction.params : MergeAction → List Nat
  | .update assignments => paramsAssignments assignments
  | .insert _ values _ => paramsAll values
  | .delete | .doNothing => []

def MergeWhen.params (c : MergeWhen) : List Nat :=
  paramsOption c.condition ++ c.action.params

def Merge.params (m : Merge) : List Nat :=
  m.source.params ++ m.on.params ++ m.clauses.flatMap MergeWhen.params

/-- The placeholders of a statement. -/
def Statement.params : Statement → List Nat
  | .createTable c => c.params
  | .createDomain c => paramsOption c.check
  | .createView c => c.select.params
  | .createMaterializedView c => c.select.params
  | .alterTable a => a.action.params
  | .createPolicy c => paramsOption c.using ++ paramsOption c.withCheck
  | .alterPolicy a => paramsOption a.using ++ paramsOption a.withCheck
  | .createIndex c => c.keys.flatMap IndexKeyExpr.params ++ paramsOption c.predicate
  | .insert i => i.params
  | .copy c => paramsSubquery c.query
  | .declareCursor d => d.select.params
  | .select s => s.params
  | .update u => u.params
  | .delete d => d.params
  | .merge m => m.params
  | .explain _ stmt => stmt.params
  | _ => []

end PostgresRs
