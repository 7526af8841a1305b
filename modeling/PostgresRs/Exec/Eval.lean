import PostgresRs.Sql.Query
import PostgresRs.Sql.Value

/-!
# Evaluation of expressions

`eval_expr` of `engine/src/executor.rs`: the value of an expression on a row, or an error.  What it
calls for arithmetic, texts, types and functions is left open (`Externals`); columns, comparisons,
logic, `IN`, `BETWEEN`, `ANY`, `ALL` and `CASE` are here as in the source.

The source evaluates the items of a list one by one and stops at the first that decides.  Evaluation
has no effects, so here the items are evaluated first and the loop runs over their results, errors
among them.
-/

namespace PostgresRs.Exec

/-! ## Comparison -/

/-- A number as a double. -/
def numToF64 : Value → F64
  | .int i => .ofInt i
  | .float f => f
  | .numeric n => n.toF64
  | _ => .nan

/-- A number against a text: numerically if the text is a number, by their texts otherwise. -/
def compareWithText (v : Value) (s : String) : Option Ordering :=
  match F64.parse s.toList with
  | some b => (numToF64 v).partialCmp b
  | none => v.toText.map fun t => compare t s.toList

/-- The order of two values, if they can be compared.  `NULL` comes last. -/
def compareValues (l r : Value) : Option Ordering :=
  match l, r with
  | .null, .null => some .eq
  | .null, _ => some .gt
  | _, .null => some .lt
  | .int a, .int b => some (compare a b)
  | .bool a, .bool b => some (compare a b)
  | .text a, .text b => some (compare a.toList b.toList)
  | .numeric a, .numeric b => some (a.cmp b)
  | .numeric a, .int b => some (a.cmp (.fromI64 b))
  | .int a, .numeric b => some ((BigDecimal.fromI64 a).cmp b)
  | .bool _, _ | _, .bool _ => none
  | l, .text s => compareWithText l s
  | .text s, r => (compareWithText r s).map Ordering.swap
  | l, r => (numToF64 l).partialCmp (numToF64 r)

/-! ## Columns -/

/-- `str::rsplit_once('.')`. -/
def rsplitDot (s : List Char) : Option (List Char × List Char) :=
  match s.reverse.span fun c => c != '.' with
  | (_, []) => none
  | (name, _ :: qualifier) => some (qualifier.reverse, name.reverse)

/-- Whether the column `c` is what `qualifier` and `name` refer to. -/
def columnMatches (colNames : List String) (qualifier : Option String) (name c : String) : Bool :=
  let split := rsplitDot c.toList
  let cq := split.map Prod.fst
  let cn := (split.map Prod.snd).getD c.toList
  match qualifier with
  | some q =>
    if colNames.any fun c => (rsplitDot c.toList).any fun p => p.1 == q.toList then
      cq == some q.toList && cn == name.toList
    else cq.isNone && cn == name.toList
  | none =>
    if colNames.any fun c => (rsplitDot c.toList).isNone && c == name then
      cq.isNone && cn == name.toList
    else cn == name.toList

/-- The position of the one column that is referred to. -/
def resolveColumn (colNames : List String) (qualifier : Option String) (name : String) :
    Except String Nat :=
  match (colNames.zipIdx.filter fun c => columnMatches colNames qualifier name c.1).map Prod.snd with
  | [] => .error ("column \"" ++ name ++ "\" does not exist")
  | [i] => .ok i
  | _ => .error ("column reference \"" ++ name ++ "\" is ambiguous")

/-- The value of a column; the source panics if the row is too short. -/
def columnValue (colNames : List String) (row : List Value) (qualifier : Option String)
    (name : String) : Except String Value := do
  let idx ← resolveColumn colNames qualifier name
  match row[idx]? with
  | some v => return v
  | none => throw "index out of bounds"

/-! ## Operators -/

/-- The parts of the evaluation that are not modelled. -/
structure Externals where
  /-- Arithmetic, concatenation and the operators on JSON, arrays, networks and texts, on operands
  other than `NULL`. -/
  operator : BinaryOp → Value → Value → Except String Value
  likeMatch : List Char → List Char → Bool → Bool
  rowText : List Value → String
  arrayText : List Value → String
  coerce : Value → DataType → Except String Value
  /-- A function, of the values of its arguments. -/
  scalarFunction : String → List Value → Bool → Except String Value

/-- No operators, patterns or functions, and coercion of integers alone: for runs on concrete
inputs. -/
def bareExternals : Externals where
  operator _ _ _ := .error "operator does not exist"
  likeMatch _ _ _ := false
  rowText _ := ""
  arrayText _ := ""
  coerce v dataType :=
    match v, dataType with
    | .null, _ => .ok .null
    | .int i, .int2 | .int i, .int4 | .int i, .int8 => .ok (.int i)
    | _, _ => .error ("cannot coerce value to " ++ dataType.sqlName)
  scalarFunction name _ _ := .error ("function " ++ name ++ " does not exist")

/-- The smallest `i64` is its own negative, as the release build does not check for overflow. -/
def evalUnary (op : UnaryOp) (v : Value) : Except String Value :=
  if v.isNull then .ok .null
  else
    match op with
    | .neg =>
      match v with
      | .int i => .ok (.int ((-i).bmod (2 ^ 64)))
      | .float f => .ok (.float (.ofParts (!f.negative) f.magnitude))
      | other => .error ("cannot negate " ++ other.inferredType.sqlName)
    | .not => .ok (.bool !v.isTrue)

/-- Whether a comparison holds of values in the given order. -/
def holds : BinaryOp → Ordering → Bool
  | .eq, o => o == .eq
  | .notEq, o => o != .eq
  | .lt, o => o == .lt
  | .ltEq, o => o != .gt
  | .gt, o => o == .gt
  | .gtEq, o => o != .lt
  | _, _ => false

variable (ext : Externals)

def evalBinary (op : BinaryOp) (l r : Value) : Except String Value :=
  match op with
  | .and =>
    if l.isNull || r.isNull then .ok .null else .ok (.bool (l.isTrue && r.isTrue))
  | .or =>
    if l.isNull || r.isNull then .ok .null else .ok (.bool (l.isTrue || r.isTrue))
  | .eq | .notEq | .lt | .ltEq | .gt | .gtEq =>
    if l.isNull || r.isNull then .ok .null
    else
      match compareValues l r with
      | some o => .ok (.bool (holds op o))
      | none => .error "cannot compare values of incompatible types"
  | op => if l.isNull || r.isNull then .ok .null else ext.operator op l r

/-- The loop of `eval_in_list`: whether an item matched, and whether one was `NULL` before. -/
def inLoop (target : Value) : Bool → List (Except String Value) → Except String (Bool × Bool)
  | sawNull, [] => .ok (false, sawNull)
  | sawNull, item :: items => do
    let v ← item
    if v.isNull then inLoop target true items
    else if compareValues target v = some .eq then return (true, sawNull)
    else inLoop target sawNull items

def evalInList (target : Except String Value) (items : List (Except String Value)) (negated : Bool) :
    Except String Value := do
  let target ← target
  if target.isNull then return .null
  let (matched, sawNull) ← inLoop target false items
  if matched then return .bool !negated
  else if sawNull then return .null
  else return .bool negated

/-- The loop of `eval_quantified_compare`: `stop` is the result that decides, and its opposite the
result if no item does. -/
def quantifiedLoop (ext : Externals) (lhs : Value) (op : BinaryOp) (stop : Bool) :
    Bool → List (Except String Value) → Except String Value
  | sawNull, [] => .ok (if sawNull then .null else .bool !stop)
  | sawNull, item :: items => do
    let rhs ← item
    match ← evalBinary ext op lhs rhs with
    | .bool b => if b = stop then return .bool stop else quantifiedLoop ext lhs op stop sawNull items
    | .null => quantifiedLoop ext lhs op stop true items
    | _ => quantifiedLoop ext lhs op stop sawNull items

def evalQuantifiedCompare (lhs : Except String Value) (op : BinaryOp)
    (quantifier : Quantifier) (items : List (Except String Value)) : Except String Value := do
  let lhs ← lhs
  match quantifier with
  | .any | .some => quantifiedLoop ext lhs op true lhs.isNull items
  | .all => quantifiedLoop ext lhs op false lhs.isNull items

/-- A binary operator; the logical ones do not look at the right side when the left one decides. -/
def evalShortCircuit (op : BinaryOp) (l r : Except String Value) : Except String Value := do
  let l ← l
  if op = .and ∧ !l.isNull ∧ !l.isTrue then return .bool false
  else if op = .or ∧ l.isTrue then return .bool true
  else evalBinary ext op l (← r)

/-- An operator other than the logical ones looks at both sides. -/
theorem evalShortCircuit_ok {op : BinaryOp} (hand : op ≠ .and) (hor : op ≠ .or) (ext : Externals)
    (l r : Value) : evalShortCircuit ext op (.ok l) (.ok r) = evalBinary ext op l r := by
  show (if _ then _ else if _ then _ else _) = _
  rw [if_neg fun h => hand h.1, if_neg fun h => hor h.1]
  rfl

def evalBetween (v lo hi : Except String Value) (negated : Bool) : Except String Value := do
  let v ← v
  let lo ← lo
  let hi ← hi
  if v.isNull || lo.isNull || hi.isNull then return .null
  let ge := (compareValues v lo).any fun o => o != .lt
  let le := (compareValues v hi).any fun o => o != .gt
  return .bool (if negated then !(ge && le) else ge && le)

def evalIsDistinctFrom (l r : Except String Value) (negated : Bool) : Except String Value := do
  let l ← l
  let r ← r
  let distinct :=
    match l.isNull, r.isNull with
    | true, true => false
    | false, false => compareValues l r != some .eq
    | _, _ => true
  return .bool (if negated then !distinct else distinct)

/-- Whether a branch of a `CASE` applies. -/
def caseHits (operand : Option Value) (c : Value) : Bool :=
  match operand with
  | some o => !o.isNull && !c.isNull && compareValues o c == some .eq
  | none => c.isTrue

/-- The first branch of a `CASE` that applies. -/
def caseLoop (operand : Option Value) (elseExpr : Option (Except String Value)) :
    List (Except String Value × Except String Value) → Except String Value
  | [] => elseExpr.getD (.ok .null)
  | (cond, result) :: whens => do
    let c ← cond
    if caseHits operand c then result else caseLoop operand elseExpr whens

def evalCase (operand : Option (Except String Value))
    (whens : List (Except String Value × Except String Value))
    (elseExpr : Option (Except String Value)) : Except String Value := do
  caseLoop (← operand.mapM id) elseExpr whens

/-! ## Expressions -/

section

variable (ext : Externals) (colNames : List String) (row : List Value)

mutual

/-- The value of an expression on a row. -/
def evalExpr : Expr → Except String Value
  | .int i => .ok (.int i)
  | .float f => .ok (.float f)
  | .str s => .ok (.text s)
  | .bool b => .ok (.bool b)
  | .null => .ok .null
  | .param n => .error ("unbound parameter $" ++ toString n)
  | .column name => columnValue colNames row none name
  | .qualifiedColumn qualifier name => columnValue colNames row (some qualifier) name
  | .unary op expr => evalExpr expr >>= evalUnary op
  | .binary op left right => evalShortCircuit ext op (evalExpr left) (evalExpr right)
  | .quantifiedCompare left op quantifier list =>
    evalQuantifiedCompare ext (evalExpr left) op quantifier (evalAll list)
  | .row items => do return .text (ext.rowText (← (evalAll items).mapM id))
  | .array items => do return .text (ext.arrayText (← (evalAll items).mapM id))
  | .isNull expr negated => do
    let v ← evalExpr expr
    return .bool (if negated then !v.isNull else v.isNull)
  | .isDistinctFrom left right negated => evalIsDistinctFrom (evalExpr left) (evalExpr right) negated
  | .like expr pattern negated caseInsensitive => do
    let v ← evalExpr expr
    let p ← evalExpr pattern
    if v.isNull || p.isNull then return .null
    let m := ext.likeMatch (v.toText.getD []) (p.toText.getD []) caseInsensitive
    return .bool (if negated then !m else m)
  | .inList expr list negated => evalInList (evalExpr expr) (evalAll list) negated
  | .between expr low high negated =>
    evalBetween (evalExpr expr) (evalExpr low) (evalExpr high) negated
  | .case operand whens elseExpr =>
    evalCase (evalOption operand) (evalWhens whens) (evalOption elseExpr)
  | .cast expr target => do ext.coerce (← evalExpr expr) target
  | .scalarSubquery _ | .exists _ | .inSubquery _ _ _ =>
    .error "correlated subqueries are not supported"
  | .function name args star _ _ _ => do ext.scalarFunction name (← (evalAll args).mapM id) star

def evalAll : List Expr → List (Except String Value)
  | [] => []
  | e :: es => evalExpr e :: evalAll es

def evalOption : Option Expr → Option (Except String Value)
  | none => none
  | some e => some (evalExpr e)

def evalWhens : List (Expr × Expr) → List (Except String Value × Except String Value)
  | [] => []
  | w :: ws => evalWhen w :: evalWhens ws

def evalWhen : Expr × Expr → Except String Value × Except String Value
  | (cond, result) => (evalExpr cond, evalExpr result)

end

theorem evalAll_eq_map (es : List Expr) :
    evalAll ext colNames row es = es.map (evalExpr ext colNames row) := by
  induction es with
  | nil => rfl
  | cons e es ih => rw [evalAll, ih, List.map_cons]

end

end PostgresRs.Exec
