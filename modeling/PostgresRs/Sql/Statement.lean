import PostgresRs.Sql.Query

/-!
# Statements

The statements of `sql/src/ast.rs` over the expressions and queries of `PostgresRs.Sql.Query`: data
definition, maintenance, session and transaction control, and `Statement` itself, the sum of them
all.  The names are the source's.
-/

namespace PostgresRs

/-! ## The parts of statements -/

inductive CatalogObjectKind where
  | operatorClass | operatorFamily | operator | eventTrigger | foreignDataWrapper | server
  | userMapping | publication | subscription
deriving DecidableEq, Repr

/-- A `CREATE` of an extended catalog object; `definition` is the verbatim rest of the statement. -/
structure CatalogObject where
  kind : CatalogObjectKind
  name : String
  definition : String

structure DropCatalogObject where
  kind : CatalogObjectKind
  name : String
  ifExists : Bool
  definition : String

structure Analyze where
  table : Option String

structure Vacuum where
  table : Option String

structure Cluster where
  table : Option String
  index : Option String

inductive ReindexTarget where
  | table (name : String)
  | index (name : String)
  | database (name : String)
  | system (name : Option String)

structure Reindex where
  target : ReindexTarget

inductive DiscardTarget where
  | all | plans | sequences | temp
deriving DecidableEq, Repr

structure Discard where
  target : DiscardTarget

/-- `LOCK TABLE`; the mode is kept as written, `none` being the default `ACCESS EXCLUSIVE`. -/
structure LockTable where
  tables : List String
  mode : Option String
  nowait : Bool

inductive Grantee where
  | role (name : String)
  | «public»

inductive AlterSystemAction where
  | set (name : String) (value : String)
  | reset (name : Option String)

structure AlterSystem where
  action : AlterSystemAction

inductive CommentObject where
  | relation (name : String)
  | column (table : String) (column : String)

structure Comment where
  object : CommentObject
  comment : Option String

structure SecurityLabel where
  provider : String
  object : CommentObject
  label : Option String

structure CreateExtension where
  name : String
  ifNotExists : Bool
  version : Option String

structure DropExtension where
  name : String
  ifExists : Bool
  cascade : Bool

structure AlterExtension where
  name : String
  toVersion : Option String

structure DropRole where
  name : String
  ifExists : Bool

structure CreateSequence where
  name : String
  ifNotExists : Bool
  start : Int
  increment : Int

structure AlterSequence where
  name : String
  restart : Option Int
  increment : Option Int

structure DropSequence where
  name : String
  ifExists : Bool

/-- The options of `CREATE ROLE` and `ALTER ROLE`. -/
structure RoleOptions where
  superuser : Option Bool
  inherit : Option Bool
  createRole : Option Bool
  createDb : Option Bool
  login : Option Bool
  replication : Option Bool
  bypassRls : Option Bool
  connectionLimit : Option Int
  password : Option (Option String)
  validUntil : Option (Option String)
  inRole : List String
  roleMembers : List String
  adminMembers : List String

structure CreateRole where
  name : String
  login : Bool
  options : RoleOptions

structure AlterRole where
  name : String
  options : RoleOptions

structure CreateSchema where
  name : String
  ifNotExists : Bool

structure DropSchema where
  name : String
  ifExists : Bool

structure CreateDatabase where
  name : String

structure DropDatabase where
  name : String
  ifExists : Bool

structure CreateTablespace where
  name : String
  location : String

structure DropTablespace where
  name : String
  ifExists : Bool

structure CreateCollation where
  name : String
  ifNotExists : Bool
  locale : String

structure DropCollation where
  name : String
  ifExists : Bool

inductive CreateTypeKind where
  | enum (labels : List String)
  | composite (attributes : List (String × DataType))
  | range (subtype : DataType)

structure CreateType where
  name : String
  kind : CreateTypeKind

structure DropType where
  name : String
  ifExists : Bool

structure CreateDomain where
  name : String
  base : DataType
  notNull : Bool
  check : Option Expr

structure DropDomain where
  name : String
  ifExists : Bool

inductive AlterDatabaseAction where
  | rename («to» : String)
  | setConnectionLimit (limit : Int)

structure AlterDatabase where
  name : String
  action : AlterDatabaseAction

structure CreateView where
  name : String
  orReplace : Bool
  select : Select

structure DropView where
  name : String
  ifExists : Bool

structure CreateMaterializedView where
  name : String
  ifNotExists : Bool
  select : Select

structure DropMaterializedView where
  name : String
  ifExists : Bool

structure RefreshMaterializedView where
  name : String

structure FunctionArg where
  name : Option String
  dataType : DataType
  typeName : String

/-- `CREATE FUNCTION`, with the body as written between its quotes. -/
structure CreateFunction where
  name : String
  orReplace : Bool
  args : List FunctionArg
  returnType : Option DataType
  returnTypeName : Option String
  body : String
  linkSymbol : Option String
  language : String
  securityDefiner : Bool
  strict : Bool

structure DropFunction where
  name : String
  ifExists : Bool
  argTypes : Option (List String)

inductive TriggerEvent where
  | insert | update | delete
deriving DecidableEq, Repr

inductive TriggerTiming where
  | before | after
deriving DecidableEq, Repr

structure CreateTrigger where
  name : String
  timing : TriggerTiming
  events : List TriggerEvent
  table : String
  forEachRow : Bool
  function : String

structure DropTrigger where
  name : String
  table : String
  ifExists : Bool

structure CreateRule where
  name : String
  orReplace : Bool
  event : TriggerEvent
  table : String
  definition : String

structure DropRule where
  name : String
  table : String
  ifExists : Bool

structure CreateAggregate where
  name : String
  orReplace : Bool
  argTypes : List String
  options : List (String × String)

structure DropAggregate where
  name : String
  ifExists : Bool
  argTypes : List String

structure Truncate where
  tables : List String

inductive Privilege where
  | select | insert | update | delete | truncate | references | trigger
deriving DecidableEq, Repr

inductive Privileges where
  | all
  | list (privileges : List Privilege)

/-- What a `GRANT` or `REVOKE` applies to: privileges on a table, or membership in roles. -/
inductive GrantObject where
  | table (privileges : Privileges) (table : String)
  | roles (roles : List String)

structure Grant where
  object : GrantObject
  grantees : List Grantee

structure Revoke where
  object : GrantObject
  grantees : List Grantee

structure DeclareCursor where
  name : String
  select : Select

inductive FetchCount where
  | next
  | all
  | count (n : Int)

structure Fetch where
  cursor : String
  count : FetchCount

/-- A column of `CREATE TABLE` or `ADD COLUMN`. -/
structure ColumnDef where
  name : String
  dataType : DataType
  typeName : Option String
  notNull : Bool
  primaryKey : Bool
  default : Option Expr
  serial : Bool
  identity : Bool
  identityAlways : Bool
  generated : Option Expr

inductive PartitionStrategy where
  | range | list | hash
deriving DecidableEq, Repr

structure PartitionBy where
  strategy : PartitionStrategy
  column : String

/-- The bound of a partition: a half-open range, a list, or a remainder. -/
inductive PartitionBound where
  | range («from» : Expr) («to» : Expr)
  | list (values : List Expr)
  | hash (modulus : Int) (remainder : Int)

structure PartitionOf where
  parent : String
  bound : PartitionBound

inductive TablePersistence where
  | permanent | unlogged | temporary
deriving DecidableEq, Repr

structure DropTable where
  name : String
  ifExists : Bool

inductive RowSecurityAction where
  | enable | disable | force | noForce
deriving DecidableEq, Repr

structure CreatePolicy where
  name : String
  table : String
  permissive : Bool
  command : String
  roles : List String
  «using» : Option Expr
  withCheck : Option Expr

structure AlterPolicy where
  name : String
  table : String
  roles : Option (List String)
  «using» : Option Expr
  withCheck : Option Expr

structure DropPolicy where
  name : String
  table : String
  ifExists : Bool

/-- A table constraint.  `EXCLUDE` is kept verbatim and never enforced. -/
inductive TableConstraint where
  | unique (name : String) (columns : List String) (primaryKey : Bool)
  | check (name : String) (expr : Expr) (validated : Bool)
  | foreignKey (name column refTable refColumn : String) (validated : Bool)
  | exclude (name : String) (definition : String)

structure CreateTable where
  name : String
  columns : List ColumnDef
  constraints : List TableConstraint
  ifNotExists : Bool
  persistence : TablePersistence
  inherits : List String
  partitionBy : Option PartitionBy
  partitionOf : Option PartitionOf

inductive AlterAction where
  | addColumn (column : ColumnDef) (ifNotExists : Bool)
  | addConstraint (constraint : TableConstraint)
  | dropColumn (name : String) (ifExists : Bool)
  | dropConstraint (name : String) (ifExists : Bool)
  | renameColumn («from» : String) («to» : String)
  | renameTable («to» : String)
  | ownerTo (owner : String)
  | rowSecurity (action : RowSecurityAction)
  | setColumnDefault (column : String) (default : Expr)
  | dropColumnDefault (column : String)
  | setColumnNotNull (column : String) (notNull : Bool)
  | alterColumnNoop
  | noop

structure AlterTable where
  table : String
  action : AlterAction

inductive IndexKeyExpr where
  | column (name : String)
  | expr (expr : Expr)

inductive IndexMethod where
  | btree | hash | gist | spGist | brin | gin
deriving DecidableEq, Repr

structure CreateIndex where
  name : Option String
  table : String
  keys : List IndexKeyExpr
  unique : Bool
  ifNotExists : Bool
  method : IndexMethod
  «include» : List String
  predicate : Option Expr

structure DropIndex where
  name : String
  ifExists : Bool

inductive CopyDirection where
  | «from» | «to»
deriving DecidableEq, Repr

inductive CopyTarget where
  | stdin
  | stdout
  | file (path : String)

inductive CopyFormat where
  | text | csv | binary
deriving DecidableEq, Repr

/-- `COPY table | (query) FROM | TO`, with its options. -/
structure Copy where
  table : String
  query : Option Select
  columns : Option (List String)
  direction : CopyDirection
  target : CopyTarget
  format : CopyFormat
  delimiter : Option Char
  header : Bool
  null : Option String

inductive MergeSource where
  | table (name : String) («alias» : Option String)
  | subquery (select : Select) («alias» : String)
  | values (rows : List (List Expr)) («alias» : String) (columns : List String)

inductive MergeAction where
  | update (assignments : List (String × Expr))
  | delete
  | insert (columns : Option (List String)) (values : List Expr) (defaultValues : Bool)
  | doNothing

structure MergeWhen where
  matched : Bool
  condition : Option Expr
  action : MergeAction

/-- `MERGE INTO target USING source ON cond WHEN ...`. -/
structure Merge where
  target : String
  targetAlias : Option String
  source : MergeSource
  on : Expr
  clauses : List MergeWhen

/-! ## Statements -/

/-- A parsed statement. -/
inductive Statement where
  | createTable (stmt : CreateTable)
  | createExtension (stmt : CreateExtension)
  | createRole (stmt : CreateRole)
  | createSequence (stmt : CreateSequence)
  | createSchema (stmt : CreateSchema)
  | createDatabase (stmt : CreateDatabase)
  | createTablespace (stmt : CreateTablespace)
  | createCollation (stmt : CreateCollation)
  | createType (stmt : CreateType)
  | createDomain (stmt : CreateDomain)
  | createView (stmt : CreateView)
  | createMaterializedView (stmt : CreateMaterializedView)
  | createFunction (stmt : CreateFunction)
  | createTrigger (stmt : CreateTrigger)
  | createRule (stmt : CreateRule)
  | createAggregate (stmt : CreateAggregate)
  | dropTable (stmt : DropTable)
  | dropExtension (stmt : DropExtension)
  | dropRole (stmt : DropRole)
  | dropSequence (stmt : DropSequence)
  | dropSchema (stmt : DropSchema)
  | dropDatabase (stmt : DropDatabase)
  | dropTablespace (stmt : DropTablespace)
  | dropCollation (stmt : DropCollation)
  | dropType (stmt : DropType)
  | dropDomain (stmt : DropDomain)
  | dropView (stmt : DropView)
  | dropMaterializedView (stmt : DropMaterializedView)
  | dropFunction (stmt : DropFunction)
  | dropTrigger (stmt : DropTrigger)
  | dropRule (stmt : DropRule)
  | dropAggregate (stmt : DropAggregate)
  | alterTable (stmt : AlterTable)
  | createPolicy (stmt : CreatePolicy)
  | alterPolicy (stmt : AlterPolicy)
  | dropPolicy (stmt : DropPolicy)
  | alterRole (stmt : AlterRole)
  | alterSequence (stmt : AlterSequence)
  | createIndex (stmt : CreateIndex)
  | dropIndex (stmt : DropIndex)
  | alterExtension (stmt : AlterExtension)
  | insert (stmt : Insert)
  | copy (stmt : Copy)
  | truncate (stmt : Truncate)
  | declareCursor (stmt : DeclareCursor)
  | fetch (stmt : Fetch)
  | select (stmt : Select)
  | alterDatabase (stmt : AlterDatabase)
  | update (stmt : Update)
  | delete (stmt : Delete)
  | merge (stmt : Merge)
  | explain (analyze : Bool) (statement : Statement)
  | analyze (stmt : Analyze)
  | comment (stmt : Comment)
  | securityLabel (stmt : SecurityLabel)
  | grant (stmt : Grant)
  | revoke (stmt : Revoke)
  | alterSystem (stmt : AlterSystem)
  | vacuum (stmt : Vacuum)
  | reindex (stmt : Reindex)
  | cluster (stmt : Cluster)
  | checkpoint
  | discard (stmt : Discard)
  | listen (channel : String)
  | notify (channel : String) (payload : Option String)
  | unlisten (channel : Option String)
  | lockTable (stmt : LockTable)
  | refreshMaterializedView (stmt : RefreshMaterializedView)
  | begin (isolation : Option IsolationLevel) (readOnly : Option Bool)
  | commit
  | rollback
  | savepoint (name : String)
  | releaseSavepoint (name : String)
  | rollbackToSavepoint (name : String)
  | set (name : String) (value : String) («local» : Bool)
  | resetConfig (name : Option String)
  | «show» (name : String)
  | createCatalogObject (stmt : CatalogObject)
  | dropCatalogObject (stmt : DropCatalogObject)
  | setConstraints
  | setTransaction (isolation : Option IsolationLevel) (readOnly : Option Bool) (session : Bool)
  | prepareTransaction (gid : String)
  | commitPrepared (gid : String)
  | rollbackPrepared (gid : String)
  | empty

end PostgresRs
