import PostgresRs.Sql.Types

/-!
# Expressions and queries

The recursive part of the tree of `sql/src/ast.rs`.  Expressions, queries and data-modifying statements are mutually
recursive: a query contains expressions, an expression can be a subquery, and a `WITH` query can
have an `INSERT`, `UPDATE` or `DELETE` as its body.  The source types that body as any statement and
its parser only ever builds these three, so it is `Dml` here; all other statements are then ordinary
types over these (`PostgresRs.Sql.Statement`).
-/

namespace PostgresRs

/-! ## Operators and small enumerations -/

inductive IsolationLevel where
  | readUncommitted
  | readCommitted
  | repeatableRead
  | serializable
deriving DecidableEq, Repr

/-- The name reported for `transaction_isolation`. -/
def IsolationLevel.gucValue : IsolationLevel → String
  | readUncommitted => "read committed"
  | readCommitted => "read committed"
  | repeatableRead => "repeatable read"
  | serializable => "serializable"

inductive UnaryOp where
  | neg | not
deriving DecidableEq, Repr

inductive Quantifier where
  | any | some | all
deriving DecidableEq, Repr

inductive BinaryOp where
  | add | sub | mul | div | mod | concat
  | jsonGet | jsonGetText
  | arrayContains | arrayContainedBy | arrayOverlap
  | networkContainedBy | networkContainedByEq | networkContains | networkContainsEq
  | textSearchMatch
  | eq | notEq | lt | ltEq | gt | gtEq
  | and | or
  | regexMatch (ci : Bool)
  | regexNotMatch (ci : Bool)
deriving DecidableEq, Repr

inductive JoinKind where
  | inner | left | right | full | cross
deriving DecidableEq, Repr

inductive SetOperator where
  | union | intersect | except
deriving DecidableEq, Repr

inductive RowLockingMode where
  | update | noKeyUpdate | share | keyShare
deriving DecidableEq, Repr

inductive RowLockingWaitPolicy where
  | noWait | skipLocked
deriving DecidableEq, Repr

/-- `FOR UPDATE | SHARE ... [OF table, ...] [NOWAIT | SKIP LOCKED]`. -/
structure RowLockingClause where
  mode : RowLockingMode
  tables : List String
  waitPolicy : Option RowLockingWaitPolicy
deriving DecidableEq, Repr

/-! ## Expressions, queries and data-modifying statements -/

mutual

inductive Expr where
  | int (i : Int)
  | float (f : F64)
  | str (s : String)
  | bool (b : Bool)
  | null
  | param (n : Nat)
  | column (name : String)
  | qualifiedColumn (qualifier name : String)
  | unary (op : UnaryOp) (expr : Expr)
  | binary (op : BinaryOp) (left right : Expr)
  | quantifiedCompare (left : Expr) (op : BinaryOp) (quantifier : Quantifier) (list : List Expr)
  | row (items : List Expr)
  | array (items : List Expr)
  | isNull (expr : Expr) (negated : Bool)
  | isDistinctFrom (left right : Expr) (negated : Bool)
  | like (expr pattern : Expr) (negated caseInsensitive : Bool)
  | inList (expr : Expr) (list : List Expr) (negated : Bool)
  | between (expr low high : Expr) (negated : Bool)
  | case (operand : Option Expr) (whens : List (Expr × Expr)) (elseExpr : Option Expr)
  | cast (expr : Expr) (target : DataType)
  | scalarSubquery (select : Select)
  | exists (select : Select)
  | inSubquery (expr : Expr) (subquery : Select) (negated : Bool)
  | function (name : String) (args : List Expr) (star distinct : Bool) (filter : Option Expr)
      («over» : Option WindowSpec)

structure WindowSpec where
  partitionBy : List Expr
  orderBy : List OrderByItem

structure OrderByItem where
  expr : Expr
  asc : Bool

inductive SelectItem where
  | wildcard
  | expr (expr : Expr) («alias» : Option String)

structure TableRef where
  schema : Option String
  name : String
  args : List Expr
  «alias» : Option String
  subquery : Option Select
  lateral : Bool
  only : Bool
  columnAliases : List String
  withOrdinality : Bool

structure Join where
  kind : JoinKind
  table : TableRef
  on : Option Expr

structure FromClause where
  base : TableRef
  joins : List Join

structure SetOperation where
  op : SetOperator
  all : Bool
  select : Select

structure Cte where
  name : String
  columns : List String
  select : Select
  dml : Option Dml
  recursive : Bool

structure Select where
  ctes : List Cte
  distinct : Bool
  distinctOn : List Expr
  projection : List SelectItem
  «from» : Option FromClause
  filter : Option Expr
  groupBy : List Expr
  groupingSets : List (List Expr)
  having : Option Expr
  orderBy : List OrderByItem
  limit : Option Expr
  offset : Option Expr
  locking : List RowLockingClause
  setOps : List SetOperation

inductive OnConflict where
  | doNothing (target : List String)
  | doUpdate (target : List String) (assignments : List (String × Expr)) (filter : Option Expr)

structure Insert where
  table : String
  columns : Option (List String)
  defaultValues : Bool
  overridingSystemValue : Bool
  rows : List (List Expr)
  select : Option Select
  onConflict : Option OnConflict
  returning : List SelectItem

structure Update where
  table : String
  assignments : List (String × Expr)
  «from» : Option FromClause
  filter : Option Expr
  returning : List SelectItem

structure Delete where
  table : String
  «using» : Option FromClause
  filter : Option Expr
  returning : List SelectItem

/-- The body of a data-modifying `WITH` query. -/
inductive Dml where
  | insert (i : Insert)
  | update (u : Update)
  | delete (d : Delete)

end

end PostgresRs
