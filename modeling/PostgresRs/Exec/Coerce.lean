import PostgresRs.Exec.Eval
import PostgresRs.Util.Fallible

/-!
# Coercion to a declared type

`coerce` of `engine/src/executor.rs`: the value that a column of a declared type stores.  The
canonical forms of intervals and of `jsonb` texts are left open (`Normalizers`).
-/

namespace PostgresRs

/-- `f64::round() as i64`: to the nearest integer, halves away from zero, and to the nearest `i64`
from outside. -/
def F64.roundToI64 (f : F64) : Int :=
  if f.isNan then 0
  else
    let n : Int := (2 * scaled f.magnitude + 2 ^ 1074) / 2 ^ 1075
    if f.negative then max (-2 ^ 63) (-n) else min (2 ^ 63 - 1) n

namespace Exec

/-- The canonical forms of texts that are not modelled. -/
structure Normalizers where
  interval : List Char → Except String (List Char)
  jsonb : List Char → Except String (List Char)

/-- Texts that are stored as they are, for runs on concrete inputs. -/
def rawNormalizers : Normalizers where
  interval := .ok
  jsonb := .ok

def invalidInput (typeName : String) (s : String) : String :=
  "invalid input syntax for type " ++ typeName ++ ": \"" ++ s ++ "\""

def cannotCoerce (target : DataType) : String := "cannot coerce value to " ++ target.sqlName

def coerceInteger (v : Value) (target : DataType) : Except String Value :=
  match v with
  | .int i => .ok (.int i)
  | .float f => .ok (.int f.roundToI64)
  | .text s =>
    match Text.parseI64 (Text.trimList s.toList) with
    | some i => .ok (.int i)
    | none => .error (invalidInput "integer" s)
  | .bool b => .ok (.int (if b then 1 else 0))
  | _ => .error (cannotCoerce target)

def coerceNumeric (v : Value) : Except String Value :=
  let parse (shown : String) (cs : List Char) : Except String Value :=
    match BigDecimal.parse cs with
    | some n => .ok (.numeric n)
    | none => .error (invalidInput "numeric" shown)
  match v with
  | .numeric n => .ok (.numeric n)
  | .int i => .ok (.numeric (.fromI64 i))
  | .float f => parse (String.ofList (Value.formatFloat f)) (Value.formatFloat f)
  | .text s => parse s (Text.trimList s.toList)
  | _ => .error (cannotCoerce .numeric)

def coerceFloat (v : Value) (target : DataType) : Except String Value :=
  match v with
  | .float f => .ok (.float f)
  | .int i => .ok (.float (.ofInt i))
  | .numeric n => .ok (.float n.toF64)
  | .text s =>
    match F64.parse (Text.trimList s.toList) with
    | some f => .ok (.float f)
    | none => .error (invalidInput target.sqlName s)
  | _ => .error (cannotCoerce target)

def coerceBool (v : Value) : Except String Value :=
  match v with
  | .bool b => .ok (.bool b)
  | .int i => .ok (.bool (i != 0))
  | .text s =>
    match Text.toAsciiLowercase (Text.trim s) with
    | "t" | "true" | "yes" | "on" | "1" => .ok (.bool true)
    | "f" | "false" | "no" | "off" | "0" => .ok (.bool false)
    | _ => .error (invalidInput "boolean" s)
  | _ => .error (cannotCoerce .bool)

/-- The value that a column of type `target` stores for `v`. -/
def coerce (norm : Normalizers) (v : Value) (target : DataType) : Except String Value :=
  if v.isNull then .ok .null
  else
    let shown := v.toText.getD []
    match target with
    | .int2 | .int4 | .int8 => coerceInteger v target
    | .numeric => coerceNumeric v
    | .float4 | .float8 | .money => coerceFloat v target
    | .bool => coerceBool v
    | .interval => do
      let cs ← norm.interval shown
      return .text (String.ofList cs)
    | .jsonb => do
      let cs ← norm.jsonb shown
      return .text (String.ofList cs)
    | .text | .bytea | .date | .time | .timeTz | .timestamp | .timestampTz | .inet | .cidr
    | .macaddr | .macaddr8 | .uuid | .json | .xml | .tsVector | .tsQuery =>
      .ok (.text (String.ofList shown))

/-- What an `INSERT` stores in a column for one expression of its `VALUES`. -/
def insertValue (ext : Externals) (norm : Normalizers) (expr : Expr) (target : DataType) :
    Except String Value := do
  let v ← evalExpr ext [] [] expr
  coerce norm v target

section Null

variable {norm : Normalizers} {v v' : Value} {target : DataType}

theorem isNull_of_coerceInteger (h : coerceInteger v target = .ok v') : v'.isNull = false := by
  cases v with
  | null | numeric => cases h
  | text s =>
    rw [coerceInteger] at h
    split at h <;> cases h
    rfl
  | _ =>
    cases h
    rfl

theorem isNull_of_coerceNumeric (h : coerceNumeric v = .ok v') : v'.isNull = false := by
  cases v with
  | null | bool => cases h
  | text s | float s =>
    dsimp only [coerceNumeric] at h
    split at h <;> cases h
    rfl
  | _ =>
    cases h
    rfl

theorem isNull_of_coerceFloat (h : coerceFloat v target = .ok v') : v'.isNull = false := by
  cases v with
  | null | bool => cases h
  | text s =>
    rw [coerceFloat] at h
    split at h <;> cases h
    rfl
  | _ =>
    cases h
    rfl

theorem isNull_of_coerceBool (h : coerceBool v = .ok v') : v'.isNull = false := by
  cases v with
  | null | numeric | float => cases h
  | text s =>
    dsimp only [coerceBool] at h
    split at h <;> cases h <;> rfl
  | _ =>
    cases h
    rfl

/-- Only `NULL` is stored as `NULL`. -/
theorem isNull_of_coerce (h : coerce norm v target = .ok v') : v'.isNull = v.isNull := by
  rw [coerce] at h
  split at h
  · next hnull =>
    cases h
    exact hnull.symm
  · next hnull =>
    rw [Bool.not_eq_true] at hnull
    rw [hnull]
    cases target with
    | int2 | int4 | int8 => exact isNull_of_coerceInteger h
    | numeric => exact isNull_of_coerceNumeric h
    | float4 | float8 | money => exact isNull_of_coerceFloat h
    | bool => exact isNull_of_coerceBool h
    | interval | jsonb =>
      obtain ⟨cs, -, h⟩ := of_bind_eq_ok h
      cases h
      rfl
    | _ =>
      cases h
      rfl

end Null

/-- A text column stores the text of a value. -/
theorem coerce_text (norm : Normalizers) {v : Value} {cs : List Char} (h : v.toText = some cs) :
    coerce norm v .text = .ok (.text (String.ofList cs)) := by
  have hnull : v.isNull = false := by
    cases v with
    | null => cases h
    | _ => rfl
  rw [coerce, hnull, h]
  rfl

end Exec
end PostgresRs
