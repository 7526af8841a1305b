import PostgresRs.Exec.Eval
import PostgresRs.Util.Asks
import PostgresRs.Util.Fallible

/-!
# Evaluation step by step

`eval_expr` of `engine/src/executor.rs` as a computation that asks for the columns it reads and the
answers of the functions it calls, in the order of the source: operands from left to right, up to the
first that fails or decides.  So it can be said what an evaluation gets to, and it can be run on the
registries of a thread.

`trace` can also be told to stop at some calls and ask about them as they stand, before their arguments
are evaluated.  `evalExpr_replaceCalls` says that it gives what `evalExpr` gives with other expressions
in place of those calls.
-/

namespace PostgresRs.Exec

open Asks (done ask)

/-- How an evaluation can go wrong. -/
inductive Failure where
  | error (message : String)
  | panic
deriving DecidableEq, Repr

/-- The message of a failure, as `evalExpr` has it. -/
def Failure.text : Failure → String
  | error m => m
  | panic => "index out of bounds"

/-- What an evaluation asks about. -/
inductive Question where
  | column (qualifier : Option String) (name : String)
  /-- A call that is not looked into. -/
  | node (call : Expr)
  | call (name : String) (vals : List Value) (star : Bool)

/-- Evaluations. -/
abbrev Eval (α : Type) : Type := Asks Question (Except Failure Value) Failure α

namespace Eval

def ofResult {α : Type} : Except String α → Eval α
  | .ok a => pure a
  | .error m => done (.error (.error m))

def asking (q : Question) : Eval Value := ask q done

/-! ## Loops -/

/-- The values of a list of expressions. -/
def all {α : Type} : List (Eval α) → Eval (List α)
  | [] => return []
  | item :: items => do
    let v ← item
    return v :: (← all items)

/-- The loop of `eval_in_list`. -/
def inLoop (target : Value) : Bool → List (Eval Value) → Eval (Bool × Bool)
  | sawNull, [] => return (false, sawNull)
  | sawNull, item :: items => do
    let v ← item
    if v.isNull then inLoop target true items
    else if compareValues target v = some .eq then return (true, sawNull)
    else inLoop target sawNull items

/-- The loop of `eval_quantified_compare`. -/
def quantifiedLoop (ext : Externals) (lhs : Value) (op : BinaryOp) (stop : Bool) :
    Bool → List (Eval Value) → Eval Value
  | sawNull, [] => return if sawNull then .null else .bool !stop
  | sawNull, item :: items => do
    let rhs ← item
    match ← ofResult (evalBinary ext op lhs rhs) with
    | .bool b => if b = stop then return .bool stop else quantifiedLoop ext lhs op stop sawNull items
    | .null => quantifiedLoop ext lhs op stop true items
    | _ => quantifiedLoop ext lhs op stop sawNull items

/-- The first branch of a `CASE` that applies. -/
def caseLoop (operand : Option Value) (elseExpr : Option (Eval Value)) :
    List (Eval Value × Eval Value) → Eval Value
  | [] => elseExpr.getD (return .null)
  | (cond, result) :: whens => do
    let c ← cond
    if caseHits operand c then result else caseLoop operand elseExpr whens

end Eval

open Eval (ofResult asking)

/-! ## Expressions -/

section

variable (ext : Externals) (special : Expr → Bool)

mutual

def trace : Expr → Eval Value
  | .int i => return .int i
  | .float f => return .float f
  | .str s => return .text s
  | .bool b => return .bool b
  | .null => return .null
  | .param n => ofResult (.error ("unbound parameter $" ++ toString n))
  | .column name => asking (.column none name)
  | .qualifiedColumn qualifier name => asking (.column (some qualifier) name)
  | .unary op expr => do ofResult (evalUnary op (← trace expr))
  | .binary op left right => do
    let l ← trace left
    if op = .and ∧ !l.isNull ∧ !l.isTrue then return .bool false
    else if op = .or ∧ l.isTrue then return .bool true
    else ofResult (evalBinary ext op l (← trace right))
  | .quantifiedCompare left op quantifier list => do
    let lhs ← trace left
    Eval.quantifiedLoop ext lhs op (quantifier != .all) lhs.isNull (traceAll list)
  | .row items => do return .text (ext.rowText (← Eval.all (traceAll items)))
  | .array items => do return .text (ext.arrayText (← Eval.all (traceAll items)))
  | .isNull expr negated => do
    let v ← trace expr
    return .bool (if negated then !v.isNull else v.isNull)
  | .isDistinctFrom left right negated => do
    let l ← trace left
    let r ← trace right
    ofResult (evalIsDistinctFrom (.ok l) (.ok r) negated)
  | .like expr pattern negated caseInsensitive => do
    let v ← trace expr
    let p ← trace pattern
    if v.isNull || p.isNull then return .null
    let m := ext.likeMatch (v.toText.getD []) (p.toText.getD []) caseInsensitive
    return .bool (if negated then !m else m)
  | .inList expr list negated => do
    let target ← trace expr
    if target.isNull then return .null
    let (matched, sawNull) ← Eval.inLoop target false (traceAll list)
    if matched then return .bool !negated
    else if sawNull then return .null
    else return .bool negated
  | .between expr low high negated => do
    let v ← trace expr
    let lo ← trace low
    let hi ← trace high
    ofResult (evalBetween (.ok v) (.ok lo) (.ok hi) negated)
  | .case operand whens elseExpr => do
    Eval.caseLoop (← (traceOption operand).mapM id) (traceOption elseExpr) (traceWhens whens)
  | .cast expr target => do ofResult (ext.coerce (← trace expr) target)
  | .scalarSubquery _ | .exists _ | .inSubquery _ _ _ =>
    ofResult (.error "correlated subqueries are not supported")
  | .function name args star distinct filter «over» =>
    if special (.function name args star distinct filter «over») then
      asking (.node (.function name args star distinct filter «over»))
    else do asking (.call name (← Eval.all (traceAll args)) star)

def traceAll : List Expr → List (Eval Value)
  | [] => []
  | e :: es => trace e :: traceAll es

def traceOption : Option Expr → Option (Eval Value)
  | none => none
  | some e => some (trace e)

def traceWhens : List (Expr × Expr) → List (Eval Value × Eval Value)
  | [] => []
  | w :: ws => traceWhen w :: traceWhens ws

def traceWhen : Expr × Expr → Eval Value × Eval Value
  | (cond, result) => (trace cond, trace result)

end

end

/-! ## What holds of every evaluation -/

/-- A property of evaluations that is kept when they are put together. -/
structure Composable (P : ∀ {α : Type}, Eval α → Prop) : Prop where
  pure : ∀ {α : Type} (a : α), P (pure a : Eval α)
  ofResult : ∀ {α : Type} (r : Except String α), P (ofResult r)
  asking : ∀ q, P (asking q)
  bind : ∀ {α β : Type} {x : Eval α} {f : α → Eval β}, P x → (∀ a, P (f a)) → P (x >>= f)

namespace Composable

variable {P : ∀ {α : Type}, Eval α → Prop} (hP : Composable P)

section Loops

variable {xs : List (Eval Value)} (h : ∀ x ∈ xs, P x)
include hP h

theorem all : P (Eval.all xs) := by
  induction xs with
  | nil => exact hP.pure []
  | cons x xs ih =>
    obtain ⟨hx, hxs⟩ := List.forall_mem_cons.mp h
    exact hP.bind hx fun v => hP.bind (ih hxs) fun vs => hP.pure _

theorem inLoop (target : Value) (sawNull : Bool) : P (Eval.inLoop target sawNull xs) := by
  induction xs generalizing sawNull with
  | nil => exact hP.pure _
  | cons x xs ih =>
    obtain ⟨hx, hxs⟩ := List.forall_mem_cons.mp h
    refine hP.bind hx fun v => ?_
    split_ifs
    · exact ih hxs true
    · exact hP.pure _
    · exact ih hxs sawNull

theorem quantifiedLoop (ext : Externals) (lhs : Value) (op : BinaryOp) (stop sawNull : Bool) :
    P (Eval.quantifiedLoop ext lhs op stop sawNull xs) := by
  induction xs generalizing sawNull with
  | nil => exact hP.pure _
  | cons x xs ih =>
    obtain ⟨hx, hxs⟩ := List.forall_mem_cons.mp h
    refine hP.bind hx fun rhs => hP.bind (hP.ofResult _) fun v => ?_
    split
    · split_ifs
      · exact hP.pure _
      · exact ih hxs sawNull
    · exact ih hxs true
    · exact ih hxs sawNull

end Loops

include hP in
theorem caseLoop {elseExpr : Option (Eval Value)} {whens : List (Eval Value × Eval Value)}
    (helse : ∀ x ∈ elseExpr, P x) (h : ∀ w ∈ whens, P w.1 ∧ P w.2) (operand : Option Value) :
    P (Eval.caseLoop operand elseExpr whens) := by
  induction whens with
  | nil =>
    cases elseExpr with
    | none => exact hP.pure _
    | some x => exact helse x rfl
  | cons w whens ih =>
    obtain ⟨⟨hcond, hresult⟩, hwhens⟩ := List.forall_mem_cons.mp h
    refine hP.bind hcond fun c => ?_
    split_ifs
    · exact hresult
    · exact ih hwhens

variable (ext : Externals) (special : Expr → Bool)

mutual

/-- Such a property holds of the evaluation of every expression. -/
theorem trace (hP : Composable P) : ∀ e, P (trace ext special e)
  | .int _ | .float _ | .str _ | .bool _ | .null => hP.pure _
  | .param _ | .scalarSubquery _ | .exists _ | .inSubquery _ _ _ => hP.ofResult _
  | .column _ | .qualifiedColumn _ _ => hP.asking _
  | .unary op expr => hP.bind (trace hP expr) fun v => hP.ofResult _
  | .binary op left right => by
    refine hP.bind (trace hP left) fun l => ?_
    split_ifs
    · exact hP.pure _
    · exact hP.pure _
    · exact hP.bind (trace hP right) fun r => hP.ofResult _
  | .quantifiedCompare left op quantifier list =>
    hP.bind (trace hP left) fun l => hP.quantifiedLoop (traceAll hP list) _ _ _ _ _
  | .row items | .array items => hP.bind (hP.all (traceAll hP items)) fun vs => hP.pure _
  | .isNull expr negated => hP.bind (trace hP expr) fun v => hP.pure _
  | .isDistinctFrom left right negated =>
    hP.bind (trace hP left) fun l => hP.bind (trace hP right) fun r => hP.ofResult _
  | .like expr pattern negated caseInsensitive => by
    refine hP.bind (trace hP expr) fun v => hP.bind (trace hP pattern) fun p => ?_
    split
    · exact hP.pure _
    · exact hP.pure _
  | .inList expr list negated => by
    refine hP.bind (trace hP expr) fun target => ?_
    split_ifs
    · exact hP.pure _
    · refine hP.bind (hP.inLoop (traceAll hP list) target false) fun ⟨matched, sawNull⟩ => ?_
      dsimp only
      split_ifs
      · exact hP.pure _
      · exact hP.pure _
      · exact hP.pure _
  | .between expr low high negated =>
    hP.bind (trace hP expr) fun v => hP.bind (trace hP low) fun lo =>
      hP.bind (trace hP high) fun hi => hP.ofResult _
  | .case operand whens elseExpr => by
    refine hP.bind ?_ fun o => hP.caseLoop (traceOption hP elseExpr) (traceWhens hP whens) o
    cases h : Exec.traceOption ext special operand with
    | none => exact hP.pure _
    | some x => exact hP.bind (traceOption hP operand x h) fun v => hP.pure _
  | .cast expr target => hP.bind (trace hP expr) fun v => hP.ofResult _
  | .function name args star distinct filter «over» => by
    rw [Exec.trace]
    split_ifs
    · exact hP.asking _
    · exact hP.bind (hP.all (traceAll hP args)) fun vs => hP.asking _

theorem traceAll (hP : Composable P) : ∀ es, ∀ x ∈ traceAll ext special es, P x
  | [] => fun _ hx => nomatch hx
  | e :: es => List.forall_mem_cons.mpr ⟨trace hP e, traceAll hP es⟩

theorem traceOption (hP : Composable P) : ∀ o, ∀ x ∈ traceOption ext special o, P x
  | none => fun _ hx => nomatch hx
  | some e => fun _ hx => Option.some.inj hx ▸ trace hP e

theorem traceWhens (hP : Composable P) :
    ∀ ws, ∀ w ∈ traceWhens ext special ws, P w.1 ∧ P w.2
  | [] => fun _ hw => nomatch hw
  | w :: ws => List.forall_mem_cons.mpr ⟨traceWhen hP w, traceWhens hP ws⟩

theorem traceWhen (hP : Composable P) :
    ∀ w, P (traceWhen ext special w).1 ∧ P (traceWhen ext special w).2
  | (cond, result) => ⟨trace hP cond, trace hP result⟩

end

end Composable

/-- No panic comes out unless one was answered. -/
theorem composable_calm : Composable fun x =>
    x.Always (· ≠ .error Failure.panic) (· ≠ .error .panic) where
  pure a h := nomatch h
  ofResult r := by cases r <;> exact fun h => nomatch h
  asking q := fun _ h => h
  bind hx hf := Asks.Always.bind hx (fun e he heq => he (by rw [Except.error.inj heq])) hf

/-- A failure that was answered comes out. -/
theorem composable_strict (answer : Question → Except Failure Value) : Composable fun x =>
    ∀ a, x.result answer = .ok a → ∀ q ∈ x.reached answer, ∃ v, answer q = .ok v where
  pure a _ _ q hq := nomatch hq
  ofResult r := by cases r <;> exact fun _ _ q hq => nomatch hq
  asking q := fun a ha q' hq' => List.mem_singleton.mp hq' ▸ ⟨a, ha⟩
  bind {α β x f} hx hf b hb q hq := by
    rw [Asks.result_bind] at hb
    obtain ⟨a, ha, hb⟩ := of_bind_eq_ok hb
    rw [Asks.reached_bind, ha] at hq
    rcases List.mem_append.mp hq with hq | hq
    · exact hx a ha q hq
    · exact hf a b hb q hq

/-! ## Other expressions in place of calls -/

section

variable (special : Expr → Bool) (lit : Expr → Expr)

mutual

/-- The expression with `lit` of the calls at which `trace` stops in their places. -/
def replaceCalls : Expr → Expr
  | .function name args star distinct filter «over» =>
    if special (.function name args star distinct filter «over») then
      lit (.function name args star distinct filter «over»)
    else .function name (replaceAll args) star distinct (replaceOption filter) «over»
  | .unary op expr => .unary op (replaceCalls expr)
  | .binary op left right => .binary op (replaceCalls left) (replaceCalls right)
  | .quantifiedCompare left op quantifier list =>
    .quantifiedCompare (replaceCalls left) op quantifier (replaceAll list)
  | .row items => .row (replaceAll items)
  | .array items => .array (replaceAll items)
  | .isNull expr negated => .isNull (replaceCalls expr) negated
  | .isDistinctFrom left right negated =>
    .isDistinctFrom (replaceCalls left) (replaceCalls right) negated
  | .like expr pattern negated caseInsensitive =>
    .like (replaceCalls expr) (replaceCalls pattern) negated caseInsensitive
  | .inList expr list negated => .inList (replaceCalls expr) (replaceAll list) negated
  | .between expr low high negated =>
    .between (replaceCalls expr) (replaceCalls low) (replaceCalls high) negated
  | .case operand whens elseExpr =>
    .case (replaceOption operand) (replaceWhens whens) (replaceOption elseExpr)
  | .cast expr target => .cast (replaceCalls expr) target
  | .inSubquery expr subquery negated => .inSubquery (replaceCalls expr) subquery negated
  | expr => expr

def replaceAll : List Expr → List Expr
  | [] => []
  | e :: es => replaceCalls e :: replaceAll es

def replaceOption : Option Expr → Option Expr
  | none => none
  | some e => some (replaceCalls e)

def replaceWhens : List (Expr × Expr) → List (Expr × Expr)
  | [] => []
  | w :: ws => replaceWhen w :: replaceWhens ws

def replaceWhen : Expr × Expr → Expr × Expr
  | (cond, result) => (replaceCalls cond, replaceCalls result)

end

variable {special lit}

mutual

/-- Nothing changes where calls are replaced by themselves. -/
theorem replaceCalls_self (h : ∀ e, special e = true → lit e = e) : ∀ e, replaceCalls special lit e = e
  | .int _ | .float _ | .str _ | .bool _ | .null | .param _ | .column _ | .qualifiedColumn _ _
  | .scalarSubquery _ | .exists _ => rfl
  | .unary op expr => by rw [replaceCalls, replaceCalls_self h expr]
  | .binary op left right => by rw [replaceCalls, replaceCalls_self h left, replaceCalls_self h right]
  | .quantifiedCompare left op quantifier list => by
    rw [replaceCalls, replaceCalls_self h left, replaceAll_self h list]
  | .row items | .array items => by rw [replaceCalls, replaceAll_self h items]
  | .isNull expr negated => by rw [replaceCalls, replaceCalls_self h expr]
  | .isDistinctFrom left right negated => by
    rw [replaceCalls, replaceCalls_self h left, replaceCalls_self h right]
  | .like expr pattern negated caseInsensitive => by
    rw [replaceCalls, replaceCalls_self h expr, replaceCalls_self h pattern]
  | .inList expr list negated => by rw [replaceCalls, replaceCalls_self h expr, replaceAll_self h list]
  | .between expr low high negated => by
    rw [replaceCalls, replaceCalls_self h expr, replaceCalls_self h low, replaceCalls_self h high]
  | .case operand whens elseExpr => by
    rw [replaceCalls, replaceOption_self h operand, replaceWhens_self h whens,
      replaceOption_self h elseExpr]
  | .cast expr target => by rw [replaceCalls, replaceCalls_self h expr]
  | .inSubquery expr subquery negated => by rw [replaceCalls, replaceCalls_self h expr]
  | .function name args star distinct filter «over» => by
    rw [replaceCalls]
    split
    · exact h _ ‹_›
    · rw [replaceAll_self h args, replaceOption_self h filter]

theorem replaceAll_self (h : ∀ e, special e = true → lit e = e) : ∀ es, replaceAll special lit es = es
  | [] => rfl
  | e :: es => by rw [replaceAll, replaceCalls_self h e, replaceAll_self h es]

theorem replaceOption_self (h : ∀ e, special e = true → lit e = e) : ∀ o, replaceOption special lit o = o
  | none => rfl
  | some e => by rw [replaceOption, replaceCalls_self h e]

theorem replaceWhens_self (h : ∀ e, special e = true → lit e = e) : ∀ ws, replaceWhens special lit ws = ws
  | [] => rfl
  | w :: ws => by rw [replaceWhens, replaceWhen_self h w, replaceWhens_self h ws]

theorem replaceWhen_self (h : ∀ e, special e = true → lit e = e) : ∀ w, replaceWhen special lit w = w
  | (cond, result) => by rw [replaceWhen, replaceCalls_self h cond, replaceCalls_self h result]

end

end

/-! ## What an evaluation gives -/

namespace Eval

variable {α β : Type} (answer : Question → Except Failure Value)

/-- What an evaluation gives with the given answers, as `evalExpr` has it. -/
def value (x : Eval α) : Except String α := (x.result answer).mapError Failure.text

variable {answer}

@[simp] theorem value_pure (a : α) : (pure a : Eval α).value answer = .ok a := rfl

@[simp] theorem value_bind (x : Eval α) (f : α → Eval β) :
    (x >>= f).value answer = x.value answer >>= fun a => (f a).value answer := by
  rw [value, Asks.result_bind, value]
  cases x.result answer <;> rfl

@[simp] theorem value_ofResult (r : Except String α) : (ofResult r).value answer = r := by
  cases r <;> rfl

@[simp] theorem value_ite (c : Prop) [Decidable c] (x y : Eval α) :
    (if c then x else y).value answer = if c then x.value answer else y.value answer :=
  apply_ite (value answer) c x y

theorem value_all (xs : List (Eval α)) :
    (all xs).value answer = (xs.map (value answer)).mapM id := by
  induction xs with
  | nil => rfl
  | cons x xs ih =>
    rw [all, value_bind, List.map_cons, List.mapM_cons]
    simp only [value_bind, ih, value_pure]
    rfl

theorem value_operand (o : Option (Eval Value)) :
    (o.mapM id).value answer = (o.map (value answer)).mapM id := by
  cases o with
  | none => rfl
  | some x =>
    change (x >>= fun v => pure (some v)).value answer = _
    rw [value_bind]
    rfl

theorem value_inLoop (target : Value) (sawNull : Bool) (xs : List (Eval Value)) :
    (inLoop target sawNull xs).value answer =
      Exec.inLoop target sawNull (xs.map (value answer)) := by
  induction xs generalizing sawNull with
  | nil => rfl
  | cons x xs ih =>
    simp only [inLoop, List.map_cons, Exec.inLoop, value_bind, value_ite, value_pure, ih]
    rfl

theorem value_quantifiedLoop (ext : Externals) (lhs : Value) (op : BinaryOp) (stop sawNull : Bool)
    (xs : List (Eval Value)) : (quantifiedLoop ext lhs op stop sawNull xs).value answer =
      Exec.quantifiedLoop ext lhs op stop sawNull (xs.map (value answer)) := by
  induction xs generalizing sawNull with
  | nil => rfl
  | cons x xs ih =>
    simp only [quantifiedLoop, List.map_cons, Exec.quantifiedLoop, value_bind, value_ofResult]
    congr 2
    funext rhs
    congr 1
    funext v
    cases v <;> simp only [value_ite, value_pure, ih]
    rfl

theorem value_caseLoop (operand : Option Value) (elseExpr : Option (Eval Value))
    (whens : List (Eval Value × Eval Value)) : (caseLoop operand elseExpr whens).value answer =
      Exec.caseLoop operand (elseExpr.map (value answer))
        (whens.map (Prod.map (value answer) (value answer))) := by
  induction whens with
  | nil => cases elseExpr <;> rfl
  | cons w whens ih =>
    simp only [caseLoop, List.map_cons, Prod.map, Exec.caseLoop, value_bind, value_ite, ih]

end Eval

section

variable (ext : Externals) (special : Expr → Bool) (lit : Expr → Expr) (colNames : List String)
  (row : List Value)

variable {colNames} in
theorem resolveColumn_lt {qualifier : Option String} {name : String} {idx : Nat}
    (h : resolveColumn colNames qualifier name = .ok idx) : idx < colNames.length := by
  rw [resolveColumn] at h
  split at h
  · cases h
  · next i hi =>
    obtain rfl := Except.ok.inj h
    have hmem : i ∈ (colNames.zipIdx.filter fun c =>
        columnMatches colNames qualifier name c.1).map Prod.snd := hi ▸ List.mem_singleton_self i
    obtain ⟨⟨c, j⟩, hc, rfl⟩ := List.mem_map.mp hmem
    exact List.snd_lt_of_mem_zipIdx (List.mem_of_mem_filter hc)
  · cases h

/-- The value of a column, or a panic if the row is too short. -/
def columnAnswer (qualifier : Option String) (name : String) : Except Failure Value :=
  match resolveColumn colNames qualifier name with
  | .error m => .error (.error m)
  | .ok idx =>
    match row[idx]? with
    | some v => .ok v
    | none => .error .panic

/-- The answers on a row, with `lit` in place of the calls that are not looked into. -/
def answers : Question → Except Failure Value
  | .column qualifier name => columnAnswer colNames row qualifier name
  | .node e => (evalExpr ext colNames row (lit e)).mapError .error
  | .call name vals star => (ext.scalarFunction name vals star).mapError .error

variable {colNames row} in
/-- A row that has a value for each column is not too short. -/
theorem columnAnswer_ne_panic (hwidth : colNames.length ≤ row.length) {qualifier : Option String}
    {name : String} : columnAnswer colNames row qualifier name ≠ .error .panic := by
  rw [columnAnswer]
  cases hidx : resolveColumn colNames qualifier name with
  | error m => exact fun h => nomatch h
  | ok idx =>
    have hlt : idx < row.length := (resolveColumn_lt hidx).trans_le hwidth
    dsimp only
    rw [List.getElem?_eq_getElem hlt]
    exact fun h => nomatch h

theorem mapError_mapError_error (r : Except String Value) :
    ((r.mapError Failure.error).mapError Failure.text) = r := by
  cases r <;> rfl

theorem mapError_columnAnswer (qualifier : Option String) (name : String) :
    (columnAnswer colNames row qualifier name).mapError Failure.text =
      columnValue colNames row qualifier name := by
  rw [columnAnswer, columnValue]
  cases resolveColumn colNames qualifier name with
  | error m => rfl
  | ok idx =>
    change Except.mapError _ (match row[idx]? with | some v => _ | none => _) = _
    cases h : row[idx]? with
    | none => simp [bind, Except.bind, h]; rfl
    | some v => simp [bind, Except.bind, h]; rfl

open Eval

mutual

/-- **An evaluation gives the value** of the expression with `lit` of the calls at which it stops. -/
theorem evalExpr_replaceCalls : ∀ e, evalExpr ext colNames row (replaceCalls special lit e) =
    (trace ext special e).value (answers ext lit colNames row)
  | .int _ | .float _ | .str _ | .bool _ | .null | .param _ => rfl
  | .column name => (mapError_columnAnswer colNames row none name).symm
  | .qualifiedColumn q name => (mapError_columnAnswer colNames row (some q) name).symm
  | .unary op expr => by
    simp [replaceCalls, evalExpr, trace, evalExpr_replaceCalls expr]
  | .binary op left right => by
    simp only [replaceCalls, evalExpr, trace, evalShortCircuit, evalExpr_replaceCalls left,
      evalExpr_replaceCalls right, value_bind, value_ite, value_pure, value_ofResult]
    rfl
  | .quantifiedCompare left op quantifier list => by
    rw [replaceCalls, evalExpr, trace, value_bind, evalExpr_replaceCalls left,
      evalAll_replaceAll list]
    simp only [value_quantifiedLoop]
    cases quantifier <;> rfl
  | .row items | .array items => by
    simp only [replaceCalls, evalExpr, trace, value_bind, value_all, evalAll_replaceAll items]
    rfl
  | .isNull expr negated => by
    simp only [replaceCalls, evalExpr, trace, evalExpr_replaceCalls expr, value_bind]
    rfl
  | .isDistinctFrom left right negated => by
    simp only [replaceCalls, evalExpr, trace, evalExpr_replaceCalls left,
      evalExpr_replaceCalls right, value_bind, value_ofResult]
    rfl
  | .like expr pattern negated caseInsensitive => by
    simp only [replaceCalls, evalExpr, trace, evalExpr_replaceCalls expr,
      evalExpr_replaceCalls pattern, value_bind, value_ite]
    rfl
  | .inList expr list negated => by
    simp only [replaceCalls, evalExpr, trace, evalExpr_replaceCalls expr, evalAll_replaceAll list,
      evalInList, value_bind, value_ite, value_inLoop]
    rfl
  | .between expr low high negated => by
    simp only [replaceCalls, evalExpr, trace, evalExpr_replaceCalls expr,
      evalExpr_replaceCalls low, evalExpr_replaceCalls high, value_bind, value_ofResult]
    rfl
  | .case operand whens elseExpr => by
    simp only [replaceCalls, evalExpr, trace, evalCase, evalOption_replaceOption operand,
      evalOption_replaceOption elseExpr, evalWhens_replaceWhens whens, value_bind, value_caseLoop,
      value_operand]
  | .cast expr target => by
    simp only [replaceCalls, evalExpr, trace, evalExpr_replaceCalls expr, value_bind, value_ofResult]
  | .scalarSubquery _ | .exists _ | .inSubquery _ _ _ => rfl
  | .function name args star distinct filter «over» => by
    rw [replaceCalls, trace, value_ite]
    split
    · exact (mapError_mapError_error _).symm
    · rw [evalExpr, evalAll_replaceAll args, value_bind, value_all]
      congr 1
      funext vals
      exact (mapError_mapError_error _).symm

theorem evalAll_replaceAll : ∀ es, evalAll ext colNames row (replaceAll special lit es) =
    (traceAll ext special es).map (value (answers ext lit colNames row))
  | [] => rfl
  | e :: es => by
    rw [replaceAll, evalAll, traceAll, List.map_cons, evalExpr_replaceCalls e,
      evalAll_replaceAll es]

theorem evalOption_replaceOption : ∀ o, evalOption ext colNames row (replaceOption special lit o) =
    (traceOption ext special o).map (value (answers ext lit colNames row))
  | none => rfl
  | some e => congrArg some (evalExpr_replaceCalls e)

theorem evalWhens_replaceWhens : ∀ ws, evalWhens ext colNames row (replaceWhens special lit ws) =
    (traceWhens ext special ws).map
      (Prod.map (value (answers ext lit colNames row)) (value (answers ext lit colNames row)))
  | [] => rfl
  | w :: ws => by
    rw [replaceWhens, evalWhens, traceWhens, List.map_cons, evalWhen_replaceWhen w,
      evalWhens_replaceWhens ws]

theorem evalWhen_replaceWhen : ∀ w, evalWhen ext colNames row (replaceWhen special lit w) =
    Prod.map (value (answers ext lit colNames row)) (value (answers ext lit colNames row))
      (traceWhen ext special w)
  | (cond, result) => by
    rw [replaceWhen, evalWhen, traceWhen, evalExpr_replaceCalls cond, evalExpr_replaceCalls result]
    rfl

end

/-- The evaluation of an expression, with no call left out. -/
def evaluation (e : Expr) : Eval Value := trace ext (fun _ => false) e

/-- Functions, of the values of their arguments. -/
abbrev Functions := String → List Value → Bool → Except String Value

/-- The answers on a row to an evaluation that leaves no call out, with the given functions. -/
def rowAnswers (functions : Functions) (colNames : List String) (row : List Value) :
    Question → Except Failure Value
  | .column qualifier name => columnAnswer colNames row qualifier name
  | .node _ => .ok .null
  | .call name vals star => (functions name vals star).mapError .error

theorem evalExpr_eq_value (e : Expr) : evalExpr ext colNames row e =
    (evaluation ext e).value (rowAnswers ext.scalarFunction colNames row) := by
  have hself := evalExpr_replaceCalls ext (fun _ => false) (fun _ => .null) colNames row e
  have hanswers : answers ext (fun _ => .null) colNames row =
      rowAnswers ext.scalarFunction colNames row := by
    funext q
    cases q <;> rfl
  rwa [replaceCalls_self fun _ h => absurd h Bool.false_ne_true, hanswers] at hself

variable {ext colNames row} {colNames' : List String} {row' : List Value} {e : Expr} {v : Value}

theorem evalExpr_eq_ok : evalExpr ext colNames row e = .ok v ↔
    (evaluation ext e).result (rowAnswers ext.scalarFunction colNames row) = .ok v := by
  rw [evalExpr_eq_value, value]
  cases (evaluation ext e).result (rowAnswers ext.scalarFunction colNames row) with
  | error f => exact iff_of_false (fun h => nomatch h) fun h => nomatch h
  | ok w => constructor <;> intro h <;> cases h <;> rfl

/-- An evaluation that has a value reads columns that have one. -/
theorem exists_columnAnswer (h : evalExpr ext colNames row e = .ok v) {qualifier : Option String}
    {name : String} (hread : .column qualifier name ∈
      (evaluation ext e).reached (rowAnswers ext.scalarFunction colNames row)) :
    ∃ w, columnAnswer colNames row qualifier name = .ok w :=
  (composable_strict _).trace ext _ e v (evalExpr_eq_ok.mp h) _ hread

/-- **An expression has the same value on other rows** with the same values in the columns that it
reads, whatever the columns are called. -/
theorem evalExpr_of_columns (h : ∀ qualifier name, .column qualifier name ∈
      (evaluation ext e).reached (rowAnswers ext.scalarFunction colNames row) →
    columnAnswer colNames' row' qualifier name = columnAnswer colNames row qualifier name) :
    evalExpr ext colNames' row' e = evalExpr ext colNames row e := by
  rw [evalExpr_eq_value, evalExpr_eq_value, value, value]
  congr 1
  refine Asks.result_congr fun q hq => ?_
  cases q with
  | column qualifier name => exact h qualifier name hq
  | node | call => rfl

/-- An expression that has a value without a row has it on every row. -/
theorem evalExpr_of_const (h : evalExpr ext [] [] e = .ok v) (colNames : List String)
    (row : List Value) : evalExpr ext colNames row e = .ok v := by
  rw [← h]
  refine evalExpr_of_columns fun qualifier name hread => ?_
  obtain ⟨w, hw⟩ := exists_columnAnswer h hread
  cases hw

end

end PostgresRs.Exec
