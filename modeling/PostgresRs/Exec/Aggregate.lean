import PostgresRs.Exec.Trace

/-!
# Expressions over a group of rows

`eval_aggregate_expr` of `engine/src/executor.rs` looks for aggregate calls below unary and binary
operators only, and evaluates both sides of `AND` and `OR`.  Everything else it gives to
`eval_expr`, which refuses the aggregates that it gets to.  `Composes` says when that is enough.
`eval_aggregate`, the value of one call over the group, is left open.
-/

namespace PostgresRs.Exec

def isAggregateName (name : String) : Bool :=
  ["count", "sum", "avg", "min", "max", "string_agg", "array_agg", "stddev", "stddev_samp",
    "stddev_pop", "variance", "var_samp", "var_pop", "bool_and", "bool_or", "every",
    "percentile_cont", "percentile_disc", "mode"].contains (Text.toAsciiLowercase name)

/-- An aggregate call that is no window function. -/
def isAggregateCall : Expr → Bool
  | .function name _ _ _ _ none => isAggregateName name
  | _ => false

section

variable (ext : Externals) (agg : Expr → List String → List (List Value) → Except String Value)
  (colNames : List String) (rows : List (List Value))

def evalAggregateExpr : Expr → Except String Value
  | .binary op left right => do
    let l ← evalAggregateExpr left
    let r ← evalAggregateExpr right
    evalBinary ext op l r
  | .unary op expr => do
    let v ← evalAggregateExpr expr
    evalUnary op v
  | expr =>
    if isAggregateCall expr then agg expr colNames rows
    else evalExpr ext colNames (rows.headD []) expr

end

/-! ## Calls as values -/

/-- A call of a window function. -/
def isWindowCall : Expr → Bool
  | .function _ _ _ _ _ (some _) => true
  | _ => false

/-- The calls to stop at: as in `contains_aggregate`, aggregates within a window function are not
meant. -/
def isOuterCall (e : Expr) : Bool := isAggregateCall e || isWindowCall e

section

variable (lit : Expr → Expr)

/-- The expression with `lit` of each aggregate call in its place, outside window functions and
subqueries. -/
def replaceAggregates : Expr → Expr :=
  replaceCalls isOuterCall fun e => if isAggregateCall e then lit e else e

theorem replaceAggregates_call {e : Expr} (h : isAggregateCall e = true) :
    replaceAggregates lit e = lit e := by
  have hcall := h
  rw [isAggregateCall.eq_def] at h
  split at h
  · rw [replaceAggregates, replaceCalls, if_pos (by rw [isOuterCall, hcall, Bool.true_or]),
      if_pos hcall]
  · cases h

theorem replaceAggregates_binary (op : BinaryOp) (left right : Expr) :
    replaceAggregates lit (.binary op left right) =
      .binary op (replaceAggregates lit left) (replaceAggregates lit right) := rfl

theorem replaceAggregates_unary (op : UnaryOp) (e : Expr) :
    replaceAggregates lit (.unary op e) = .unary op (replaceAggregates lit e) := rfl

variable (ext : Externals) (colNames : List String) (row : List Value)

/-- `eval_expr` gets to no aggregate call. -/
def Spared (e : Expr) : Prop :=
  ∀ q ∈ (trace ext isOuterCall e).reached (answers ext id colNames row),
    ∀ call, q = .node call → isAggregateCall call = false

theorem evalExpr_of_spared {e : Expr} (h : Spared ext colNames row e) :
    evalExpr ext colNames row (replaceAggregates lit e) = evalExpr ext colNames row e := by
  have hself := evalExpr_replaceCalls ext isOuterCall id colNames row e
  rw [@replaceCalls_self isOuterCall id fun _ _ => rfl] at hself
  rw [replaceAggregates, evalExpr_replaceCalls, hself, Eval.value, Eval.value]
  congr 1
  refine Asks.result_congr fun q hq => ?_
  cases q with
  | node call =>
    rw [answers, h _ hq call rfl, if_neg Bool.false_ne_true]
    rfl
  | column | call => rfl

/-- If `v` decides an `AND` or `OR` from the left, the right side has a value other than `NULL`. -/
def BothSides (op : BinaryOp) (v : Value) (r : Except String Value) : Prop :=
  op = .and ∧ !v.isNull ∧ !v.isTrue ∨ op = .or ∧ v.isTrue → ∃ w, r = .ok w ∧ w.isNull = false

/-- What is below unary and binary operators is an aggregate call, or is evaluated without getting to
one; and no `AND` or `OR` among these operators decides by its left side while the right one is `NULL`
or fails.  The right side of an operator whose left side fails does not matter. -/
def Composes : Expr → Prop
  | .binary op left right => Composes left ∧
      ∀ v, evalExpr ext colNames row (replaceAggregates lit left) = .ok v →
        Composes right ∧ BothSides op v (evalExpr ext colNames row (replaceAggregates lit right))
  | .unary _ expr => Composes expr
  | expr => isAggregateCall expr = true ∨ Spared ext colNames row expr

end

/-- The parts of an expression below its unary and binary operators. -/
def operatorLeaves : Expr → List Expr
  | .binary _ left right => operatorLeaves left ++ operatorLeaves right
  | .unary _ expr => operatorLeaves expr
  | expr => [expr]

theorem evalShortCircuit_eq {ext : Externals} {op : BinaryOp} {l r : Except String Value}
    (h : ∀ v, l = .ok v → BothSides op v r) :
    evalShortCircuit ext op l r = l >>= fun v => r >>= fun w => evalBinary ext op v w := by
  rcases l with m | v
  · rfl
  show (if _ then _ else if _ then _ else _) = _
  split_ifs with hand hor
  · obtain ⟨w, rfl, hw⟩ := h v rfl (.inl hand)
    obtain ⟨rfl, hv, hfalse⟩ := hand
    rw [Bool.not_eq_true'] at hv hfalse
    show _ = evalBinary ext .and v w
    rw [evalBinary, hv, hw, hfalse]
    rfl
  · obtain ⟨w, rfl, hw⟩ := h v rfl (.inr hor)
    obtain ⟨rfl, htrue⟩ := hor
    have hv : v.isNull = false := by
      cases v with
      | null => cases htrue
      | _ => rfl
    show _ = evalBinary ext .or v w
    rw [evalBinary, hv, hw, htrue]
    rfl
  · rfl

/-- **Aggregates compose** below operators: the value over a group is that, on its first row, of the
expression with the values of the calls. -/
theorem evalAggregateExpr_eq (ext : Externals)
    (agg : Expr → List String → List (List Value) → Except String Value) (colNames : List String)
    (rows : List (List Value)) (lit : Expr → Expr) (e : Expr)
    (hlit : ∀ call ∈ operatorLeaves e, isAggregateCall call = true →
      evalExpr ext colNames (rows.headD []) (lit call) = agg call colNames rows)
    (h : Composes lit ext colNames (rows.headD []) e) :
    evalAggregateExpr ext agg colNames rows e =
      evalExpr ext colNames (rows.headD []) (replaceAggregates lit e) := by
  fun_induction evalAggregateExpr ext agg colNames rows e with
  | case1 op left right ihl ihr =>
    obtain ⟨hlitl, hlitr⟩ := List.forall_mem_append.mp hlit
    rw [replaceAggregates_binary, evalExpr, evalShortCircuit_eq fun v hv => (h.2 v hv).2,
      ihl hlitl h.1]
    cases hleft : evalExpr ext colNames (rows.headD []) (replaceAggregates lit left) with
    | error m => rfl
    | ok v => rw [ihr hlitr (h.2 v hleft).1]
  | case2 op expr ih => rw [replaceAggregates_unary, evalExpr, ih hlit h]
  | case3 expr hbinary hunary hcall =>
    have hmem : expr ∈ operatorLeaves expr := by
      rw [operatorLeaves.eq_def]
      split
      · exact absurd rfl (hbinary _ _ _)
      · exact absurd rfl (hunary _ _)
      · exact List.mem_singleton_self expr
    rw [replaceAggregates_call lit hcall, hlit expr hmem hcall]
  | case4 expr hbinary hunary hcall =>
    rw [Composes.eq_def] at h
    split at h
    · exact absurd rfl (hbinary _ _ _)
    · exact absurd rfl (hunary _ _)
    · rw [evalExpr_of_spared lit ext colNames _ (h.resolve_left hcall)]

/-- `count(*)`. -/
def countStar : Expr := .function "count" [] true false none none

/-- `eval_scalar_function` on an aggregate. -/
def refusingExternals : Externals :=
  { bareExternals with
    scalarFunction := fun name _ _ =>
      .error ("aggregate function " ++ name ++ "() is not allowed here") }

/-- `-count(*) < CASE WHEN true THEN 1 ELSE count(*) END` over two rows. -/
theorem evalAggregateExpr_neg_countStar :
    evalAggregateExpr refusingExternals (fun _ _ rows => .ok (.int rows.length)) [] [[], []]
      (.binary .lt (.unary .neg countStar) (.case none [(.bool true, .int 1)] (some countStar))) =
        .ok (.bool true) :=
  (evalAggregateExpr_eq refusingExternals (fun _ _ rows => .ok (.int rows.length)) [] [[], []]
    (fun _ => .int 2)
    (.binary .lt (.unary .neg countStar) (.case none [(.bool true, .int 1)] (some countStar)))
    (fun _ _ _ => rfl)
    ⟨Or.inl (by decide +kernel), fun v _ => ⟨Or.inr (fun q hq => absurd hq List.not_mem_nil),
      fun h => absurd h (by simp)⟩⟩).trans (by decide +kernel)

/-- `count(*) IS NULL` over two rows is refused. -/
theorem evalAggregateExpr_countStar_isNull :
    evalAggregateExpr refusingExternals (fun _ _ rows => .ok (.int rows.length)) [] [[], []]
      (.isNull countStar false) = .error "aggregate function count() is not allowed here" ∧
    evalExpr refusingExternals [] []
      (replaceAggregates (fun _ => .int 2) (.isNull countStar false)) = .ok (.bool false) := by
  decide +kernel

end PostgresRs.Exec
