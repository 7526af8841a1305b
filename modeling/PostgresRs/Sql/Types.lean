import PostgresRs.Util.Float64

/-!
# SQL types and values

The declared column types and the runtime values of `types/src`.  A value's integer is an `i64`, here
an integer of any size; where the source computes with it, the model says what comes out of range.
Floats are carried as their 64 bits, decimals as sign, digits and scale.
-/

namespace PostgresRs

/-- A column's declared SQL type. -/
inductive DataType where
  | int2 | int4 | int8
  | float4 | float8 | numeric | money
  | bool | text | bytea
  | date | time | timeTz | interval | timestamp | timestampTz
  | inet | cidr | macaddr | macaddr8
  | uuid | json | jsonb | xml
  | tsVector | tsQuery
deriving DecidableEq, Repr

namespace DataType

/-- The type with the given name in SQL; `name` is in lower case. -/
def fromSqlName : String → Option DataType
  | "smallint" | "int2" => some int2
  | "integer" | "int" | "int4" => some int4
  | "bigint" | "int8" => some int8
  | "real" | "float4" => some float4
  | "double precision" | "float8" | "float" => some float8
  | "numeric" | "decimal" => some numeric
  | "money" => some money
  | "boolean" | "bool" => some bool
  | "text" | "varchar" | "char" | "character varying" | "character" | "bpchar" | "name" => some text
  | "bytea" => some bytea
  | "date" => some date
  | "time" | "time without time zone" => some time
  | "timetz" | "time with time zone" => some timeTz
  | "interval" => some interval
  | "timestamp" | "timestamp without time zone" => some timestamp
  | "timestamptz" | "timestamp with time zone" => some timestampTz
  | "inet" => some inet
  | "cidr" => some cidr
  | "macaddr" => some macaddr
  | "macaddr8" => some macaddr8
  | "uuid" => some uuid
  | "json" => some json
  | "jsonb" => some jsonb
  | "xml" => some xml
  | "tsvector" => some tsVector
  | "tsquery" => some tsQuery
  | _ => none

/-- The name of a type in SQL. -/
def sqlName : DataType → String
  | int2 => "smallint"
  | int4 => "integer"
  | int8 => "bigint"
  | float4 => "real"
  | float8 => "double precision"
  | numeric => "numeric"
  | money => "money"
  | bool => "boolean"
  | text => "text"
  | bytea => "bytea"
  | date => "date"
  | time => "time without time zone"
  | timeTz => "time with time zone"
  | interval => "interval"
  | timestamp => "timestamp without time zone"
  | timestampTz => "timestamp with time zone"
  | inet => "inet"
  | cidr => "cidr"
  | macaddr => "macaddr"
  | macaddr8 => "macaddr8"
  | uuid => "uuid"
  | json => "json"
  | jsonb => "jsonb"
  | xml => "xml"
  | tsVector => "tsvector"
  | tsQuery => "tsquery"

/-- The name of a type in `pg_type`. -/
def pgTypeName : DataType → String
  | bool => "bool"
  | bytea => "bytea"
  | int8 => "int8"
  | int2 => "int2"
  | int4 => "int4"
  | text => "text"
  | float4 => "float4"
  | float8 => "float8"
  | date => "date"
  | time => "time"
  | timeTz => "timetz"
  | interval => "interval"
  | timestamp => "timestamp"
  | timestampTz => "timestamptz"
  | inet => "inet"
  | cidr => "cidr"
  | macaddr => "macaddr"
  | macaddr8 => "macaddr8"
  | numeric => "numeric"
  | money => "money"
  | uuid => "uuid"
  | json => "json"
  | jsonb => "jsonb"
  | xml => "xml"
  | tsVector => "tsvector"
  | tsQuery => "tsquery"

/-- All types, in the order of the source. -/
def all : List DataType :=
  [bool, bytea, int8, int2, int4, text, float4, float8, date, time, timeTz, interval, timestamp,
    timestampTz, inet, cidr, macaddr, macaddr8, numeric, money, uuid, json, jsonb, xml, tsVector,
    tsQuery]

end DataType

/-- An exact decimal: sign, big-endian decimal digits, and the number of fractional digits. -/
structure BigDecimal where
  negative : Bool
  digits : List UInt8
  scale : Nat
deriving DecidableEq, Repr

/-- A runtime value. -/
inductive Value where
  | null
  | int (i : Int)
  | float (f : F64)
  | numeric (n : BigDecimal)
  | text (s : String)
  | bool (b : Bool)
deriving DecidableEq, Repr

/-- A column heading in a result set. -/
structure FieldDescription where
  name : String
  dataType : DataType
deriving DecidableEq, Repr

/-- The outcome of executing a statement: rows with their headings and command tag, a command tag
alone, or nothing for an empty query. -/
inductive ExecResult where
  | rows (fields : List FieldDescription) (rows : List (List Value)) (tag : String)
  | command (tag : String)
  | empty
deriving DecidableEq, Repr

end PostgresRs
