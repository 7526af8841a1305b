import PostgresRs.Sql.Placeholder
import PostgresRs.Sql.Value

/-!
# Binding parameters

`bind_statement` of `server/src/bind.rs` puts the values of a `Bind` message in the place of the
placeholders of a prepared statement.  It walks over the statement by hand and does not get
everywhere: subqueries, `WITH` queries, derived tables, window specifications, grouping sets,
`ON CONFLICT`, `RETURNING`, the sources of `UPDATE` and `DELETE` and all of `MERGE` are passed by.

* `bindExpr`, `bindSelect`, `bindStatement` — the walk.
* `Expr.slots`, `Select.slots`, `Statement.slots` — all placeholders, each with whether the walk
  gets there.
* `Binds` — what a part of the walk comes to: it succeeds when every placeholder it gets to has a
  value, and then leaves those it does not get to.
* `leavesNone_iff` — when no placeholder is left behind.
-/

namespace PostgresRs

open List

/-! ## The walk -/

/-- The literal of a value. -/
def valueToExpr : Value → Expr
  | .null => .null
  | .int i => .int i
  | .float f => .float f
  | .numeric n => .cast (.str (String.ofList n.toCanonicalString)) .numeric
  | .text s => .str s
  | .bool b => .bool b

section

variable (values : List Value)

/-- What takes the place of `$n`. -/
def bindParam (n : Nat) : Except String Expr :=
  match n with
  | 0 => .error "parameter $0 is invalid"
  | idx + 1 =>
    match values[idx]? with
    | some v => .ok (valueToExpr v)
    | none => .error ("bind message supplies too few parameters for $" ++ toString n)

mutual

def bindExpr : Expr → Except String Expr
  | .param n => bindParam values n
  | .unary op expr => do
    let expr ← bindExpr expr
    return .unary op expr
  | .binary op left right => do
    let left ← bindExpr left
    let right ← bindExpr right
    return .binary op left right
  | .quantifiedCompare left op quantifier list => do
    let left ← bindExpr left
    let list ← bindAll list
    return .quantifiedCompare left op quantifier list
  | .isNull expr negated => do
    let expr ← bindExpr expr
    return .isNull expr negated
  | .isDistinctFrom left right negated => do
    let left ← bindExpr left
    let right ← bindExpr right
    return .isDistinctFrom left right negated
  | .cast expr target => do
    let expr ← bindExpr expr
    return .cast expr target
  -- The subquery itself is left alone.
  | .inSubquery expr subquery negated => do
    let expr ← bindExpr expr
    return .inSubquery expr subquery negated
  | .scalarSubquery select => .ok (.scalarSubquery select)
  | .exists select => .ok (.exists select)
  | .like expr pattern negated caseInsensitive => do
    let expr ← bindExpr expr
    let pattern ← bindExpr pattern
    return .like expr pattern negated caseInsensitive
  | .inList expr list negated => do
    let expr ← bindExpr expr
    let list ← bindAll list
    return .inList expr list negated
  | .row items => do
    let items ← bindAll items
    return .row items
  | .array items => do
    let items ← bindAll items
    return .array items
  | .between expr low high negated => do
    let expr ← bindExpr expr
    let low ← bindExpr low
    let high ← bindExpr high
    return .between expr low high negated
  | .case operand whens elseExpr => do
    let operand ← bindOption operand
    let whens ← bindWhens whens
    let elseExpr ← bindOption elseExpr
    return .case operand whens elseExpr
  | .function name args star distinct filter window => do
    let args ← bindAll args
    let filter ← bindOption filter
    return .function name args star distinct filter window
  | .int i => .ok (.int i)
  | .float f => .ok (.float f)
  | .str s => .ok (.str s)
  | .bool b => .ok (.bool b)
  | .null => .ok .null
  | .column name => .ok (.column name)
  | .qualifiedColumn qualifier name => .ok (.qualifiedColumn qualifier name)

def bindAll : List Expr → Except String (List Expr)
  | [] => .ok []
  | e :: es => do
    let e ← bindExpr e
    let es ← bindAll es
    return e :: es

def bindOption : Option Expr → Except String (Option Expr)
  | none => .ok none
  | some e => do
    let e ← bindExpr e
    return some e

def bindWhens : List (Expr × Expr) → Except String (List (Expr × Expr))
  | [] => .ok []
  | w :: ws => do
    let w ← bindWhen w
    let ws ← bindWhens ws
    return w :: ws

def bindWhen : Expr × Expr → Except String (Expr × Expr)
  | (cond, result) => do
    let cond ← bindExpr cond
    let result ← bindExpr result
    return (cond, result)

end

def bindItem : SelectItem → Except String SelectItem
  | .wildcard => .ok .wildcard
  | .expr expr label => do
    let expr ← bindExpr values expr
    return .expr expr label

/-- Only the arguments of a table function; a derived table is left alone. -/
def bindTableRef (t : TableRef) : Except String TableRef := do
  let args ← bindAll values t.args
  return { t with args := args }

def bindJoin (j : Join) : Except String Join := do
  let table ← bindTableRef values j.table
  let on ← bindOption values j.on
  return { j with table := table, on := on }

def bindFrom : Option FromClause → Except String (Option FromClause)
  | none => .ok none
  | some f => do
    let base ← bindTableRef values f.base
    let joins ← f.joins.mapM (bindJoin values)
    return some ⟨base, joins⟩

def bindOrderByItem (o : OrderByItem) : Except String OrderByItem := do
  let expr ← bindExpr values o.expr
  return { o with expr := expr }

mutual

def bindSelect : Select → Except String Select
  | ⟨ctes, distinct, distinctOn, projection, source, filter, groupBy, groupingSets, having, orderBy,
      limit, offset, locking, setOps⟩ => do
    let projection ← projection.mapM (bindItem values)
    let filter ← bindOption values filter
    let source ← bindFrom values source
    let groupBy ← bindAll values groupBy
    let having ← bindOption values having
    let distinctOn ← bindAll values distinctOn
    let orderBy ← orderBy.mapM (bindOrderByItem values)
    let limit ← bindOption values limit
    let offset ← bindOption values offset
    let setOps ← bindSetOps setOps
    return ⟨ctes, distinct, distinctOn, projection, source, filter, groupBy, groupingSets, having,
      orderBy, limit, offset, locking, setOps⟩

def bindSetOps : List SetOperation → Except String (List SetOperation)
  | [] => .ok []
  | op :: ops => do
    let op ← bindSetOp op
    let ops ← bindSetOps ops
    return op :: ops

def bindSetOp : SetOperation → Except String SetOperation
  | ⟨op, all, select⟩ => do
    let select ← bindSelect select
    return ⟨op, all, select⟩

end

def bindSubquery : Option Select → Except String (Option Select)
  | none => .ok none
  | some s => do
    let s ← bindSelect values s
    return some s

def bindAssignment (a : String × Expr) : Except String (String × Expr) := do
  let e ← bindExpr values a.2
  return (a.1, e)

def bindInsert (i : Insert) : Except String Insert := do
  let rows ← i.rows.mapM (bindAll values)
  let select ← bindSubquery values i.select
  return { i with rows := rows, select := select }

def bindUpdate (u : Update) : Except String Update := do
  let assignments ← u.assignments.mapM (bindAssignment values)
  let filter ← bindOption values u.filter
  return { u with assignments := assignments, filter := filter }

def bindDelete (d : Delete) : Except String Delete := do
  let filter ← bindOption values d.filter
  return { d with filter := filter }

/-- `bind_statement`: the statement with the values in the place of its placeholders. -/
def bindStatement : Statement → Except String Statement
  | .insert i => do
    let i ← bindInsert values i
    return .insert i
  | .select s => do
    let s ← bindSelect values s
    return .select s
  | .update u => do
    let u ← bindUpdate values u
    return .update u
  | .delete d => do
    let d ← bindDelete values d
    return .delete d
  | .explain analyze stmt => do
    let stmt ← bindStatement stmt
    return .explain analyze stmt
  | stmt => .ok stmt

end

/-! ## Where the walk gets -/

/-- A placeholder, and whether the walk gets to it. -/
abbrev Slot := Nat × Bool

/-- The placeholders of a part that the walk passes by. -/
def passedBy (ns : List Nat) : List Slot := ns.map fun n => (n, false)

/-- The placeholders that the walk does not get to. -/
def hidden (slots : List Slot) : List Nat := (slots.filter fun slot => !slot.2).map Prod.fst

@[simp] theorem hidden_nil : hidden [] = [] := rfl

@[simp] theorem hidden_append (s t : List Slot) : hidden (s ++ t) = hidden s ++ hidden t := by
  simp [hidden]

@[simp] theorem hidden_passedBy (ns : List Nat) : hidden (passedBy ns) = ns := by
  simp [hidden, passedBy, filter_map, Function.comp_def]

theorem not_mem_passedBy {n : Nat} {ns : List Nat} : (n, true) ∉ passedBy ns := by
  simp [passedBy]

mutual

def Expr.slots : Expr → List Slot
  | .int _ | .float _ | .str _ | .bool _ | .null | .column _ | .qualifiedColumn _ _ => []
  | .param n => [(n, true)]
  | .unary _ expr | .isNull expr _ | .cast expr _ => expr.slots
  | .binary _ left right | .isDistinctFrom left right _ => left.slots ++ right.slots
  | .quantifiedCompare left _ _ list => left.slots ++ slotsAll list
  | .row items | .array items => slotsAll items
  | .like expr pattern _ _ => expr.slots ++ pattern.slots
  | .inList expr list _ => expr.slots ++ slotsAll list
  | .between expr low high _ => expr.slots ++ (low.slots ++ high.slots)
  | .case operand whens elseExpr =>
    slotsOption operand ++ (slotsWhens whens ++ slotsOption elseExpr)
  | .scalarSubquery select | .exists select => passedBy select.params
  | .inSubquery expr subquery _ => expr.slots ++ passedBy subquery.params
  | .function _ args _ _ filter window =>
    slotsAll args ++ (slotsOption filter ++ passedBy (paramsWindow window))

def slotsAll : List Expr → List Slot
  | [] => []
  | e :: es => e.slots ++ slotsAll es

def slotsOption : Option Expr → List Slot
  | none => []
  | some e => e.slots

def slotsWhens : List (Expr × Expr) → List Slot
  | [] => []
  | w :: ws => slotsWhen w ++ slotsWhens ws

def slotsWhen : Expr × Expr → List Slot
  | (cond, result) => cond.slots ++ result.slots

end

def SelectItem.slots : SelectItem → List Slot
  | .wildcard => []
  | .expr e _ => e.slots

def TableRef.slots (t : TableRef) : List Slot :=
  slotsAll t.args ++ passedBy (paramsSubquery t.subquery)

def Join.slots (j : Join) : List Slot := j.table.slots ++ slotsOption j.on

def slotsFrom : Option FromClause → List Slot
  | none => []
  | some f => f.base.slots ++ f.joins.flatMap Join.slots

mutual

def Select.slots : Select → List Slot
  | ⟨ctes, _, distinctOn, projection, source, filter, groupBy, groupingSets, having, orderBy, limit,
      offset, _, setOps⟩ =>
    projection.flatMap SelectItem.slots ++ (slotsOption filter ++ (slotsFrom source ++
      (slotsAll groupBy ++ (slotsOption having ++ (slotsAll distinctOn ++
        (orderBy.flatMap (fun o => o.expr.slots) ++ (slotsOption limit ++ (slotsOption offset ++
          (slotsSetOps setOps ++ passedBy (paramsCtes ctes ++ paramsRows groupingSets))))))))))

def slotsSetOps : List SetOperation → List Slot
  | [] => []
  | op :: ops => slotsSetOp op ++ slotsSetOps ops

def slotsSetOp : SetOperation → List Slot
  | ⟨_, _, select⟩ => select.slots

end

def slotsSubquery : Option Select → List Slot
  | none => []
  | some s => s.slots

def Insert.slots (i : Insert) : List Slot :=
  i.rows.flatMap slotsAll ++ (slotsSubquery i.select ++
    passedBy (paramsConflict i.onConflict ++ paramsItems i.returning))

def Update.slots (u : Update) : List Slot :=
  u.assignments.flatMap (fun a => a.2.slots) ++ (slotsOption u.filter ++
    passedBy (paramsFrom u.from ++ paramsItems u.returning))

def Delete.slots (d : Delete) : List Slot :=
  slotsOption d.filter ++ passedBy (paramsFrom d.using ++ paramsItems d.returning)

/-- The placeholders of a statement; the walk gets into five kinds of statements. -/
def Statement.slots : Statement → List Slot
  | .insert i => i.slots
  | .select s => s.slots
  | .update u => u.slots
  | .delete d => d.slots
  | .explain _ stmt => stmt.slots
  | stmt => passedBy stmt.params

/-! ## What the walk comes to -/

/-- There is a value for `$n`. -/
def Supplied (values : List Value) (n : Nat) : Prop := 0 < n ∧ n ≤ values.length

instance (values : List Value) (n : Nat) : Decidable (Supplied values n) :=
  inferInstanceAs (Decidable (_ ∧ _))

/-- What the walk over a part with the placeholders `slots` comes to: it succeeds if there is a
value for every placeholder it gets to, and its result has the property `P`. -/
structure Binds {α : Type} (values : List Value) (slots : List Slot) (P : α → Prop)
    (r : Except String α) : Prop where
  leaves : ∀ a, r = .ok a → P a
  ok_iff : (∃ a, r = .ok a) ↔ ∀ n, (n, true) ∈ slots → Supplied values n

namespace Binds

variable {α β : Type} {values : List Value} {s t : List Slot} {P : α → Prop} {Q : β → Prop}
  {x : Except String α}

/-- A part without placeholders that the walk gets to. -/
theorem ok {a : α} (hP : P a) (h : ∀ n, (n, true) ∉ s) : Binds values s P (.ok a) where
  leaves _ hb := Except.ok.inj hb ▸ hP
  ok_iff := ⟨fun _ n hn => absurd hn (h n), fun _ => ⟨a, rfl⟩⟩

/-- The walk fails at a placeholder without a value. -/
theorem error {n : Nat} (e : String) (hn : (n, true) ∈ s) (h : ¬ Supplied values n) :
    Binds values s P (.error e) where
  leaves _ ha := nomatch ha
  ok_iff := ⟨fun ⟨_, ha⟩ => (nomatch ha), fun hs => absurd (hs n hn) h⟩

theorem exists_of_error {e : String} (h : Binds values s P (.error e)) :
    ∃ n, (n, true) ∈ s ∧ ¬ Supplied values n := by
  by_contra hne
  push Not at hne
  obtain ⟨a, ha⟩ := h.ok_iff.mpr hne
  cases ha

theorem seq {f : α → Except String β} (hx : Binds values s P x)
    (hf : ∀ a, P a → Binds values t Q (f a)) : Binds values (s ++ t) Q (x >>= f) := by
  rcases x with e | a
  · obtain ⟨n, hn, hs⟩ := hx.exists_of_error
    exact .error e (mem_append_left _ hn) hs
  · obtain hfa := hf a (hx.leaves a rfl)
    have hs := hx.ok_iff.mp ⟨a, rfl⟩
    refine ⟨hfa.leaves, hfa.ok_iff.trans ⟨fun h n hn => ?_, fun h n hn => ?_⟩⟩
    · exact (mem_append.mp hn).elim (hs n) (h n)
    · exact h n (mem_append_right _ hn)

theorem map {f : α → β} (hx : Binds values s P x) (hf : ∀ a, P a → Q (f a)) :
    Binds values s Q (x >>= fun a => pure (f a)) := by
  rcases x with e | a
  · obtain ⟨n, hn, hs⟩ := hx.exists_of_error
    exact .error e hn hs
  · refine ⟨fun b hb => Except.ok.inj hb ▸ hf a (hx.leaves a rfl), ?_⟩
    exact ⟨fun _ => hx.ok_iff.mp ⟨a, rfl⟩, fun _ => ⟨f a, rfl⟩⟩

/-- Placeholders that the walk passes by make no difference. -/
theorem pass (hx : Binds values s P x) (ns : List Nat) : Binds values (s ++ passedBy ns) P x where
  leaves := hx.leaves
  ok_iff := hx.ok_iff.trans ⟨fun h n hn => (mem_append.mp hn).elim (h n)
    fun hp => absurd hp not_mem_passedBy, fun h n hn => h n (mem_append_left _ hn)⟩

/-- The placeholders that are left are those the walk does not get to. -/
abbrev Leaving (values : List Value) (s : List Slot) (params : α → List Nat) :
    Except String α → Prop :=
  Binds values s fun a => params a = hidden s

theorem mapM {f : α → Except String β} {slots : α → List Slot} {params : β → List Nat}
    (h : ∀ a, Leaving values (slots a) params (f a)) (l : List α) :
    Leaving values (l.flatMap slots) (List.flatMap params) (l.mapM f) := by
  induction l with
  | nil => exact .ok rfl fun n hn => nomatch hn
  | cons a l ih =>
    rw [mapM_cons, flatMap_cons]
    refine (h a).seq fun b hb => ih.map fun bs hbs => ?_
    rw [flatMap_cons, hb, hbs, hidden_append]

end Binds

open Binds

theorem params_valueToExpr (v : Value) : (valueToExpr v).params = [] := by
  cases v <;> rfl

section

variable {values : List Value}

theorem binds_param (n : Nat) :
    Binds values [(n, true)] (fun e => e.params = []) (bindParam values n) := by
  rcases n with _ | idx
  · exact .error _ mem_cons_self fun h => Nat.lt_irrefl 0 h.1
  rw [bindParam]
  rcases hv : values[idx]? with _ | v
  · have hlen := getElem?_eq_none_iff.mp hv
    exact .error _ mem_cons_self fun h => Nat.not_succ_le_self _ (h.2.trans hlen)
  · obtain ⟨hlt, -⟩ := List.getElem?_eq_some_iff.mp hv
    refine ⟨fun a h => Except.ok.inj h ▸ params_valueToExpr v, fun _ n hn => ?_, fun _ => ⟨_, rfl⟩⟩
    obtain ⟨rfl, -⟩ := Prod.mk.inj (mem_singleton.mp hn)
    exact ⟨Nat.succ_pos idx, hlt⟩

mutual

/-- The placeholders of a bound expression are those the walk does not get to. -/
theorem binds_expr : ∀ e, Leaving values e.slots Expr.params (bindExpr values e)
  | .int _ | .float _ | .str _ | .bool _ | .null | .column _ | .qualifiedColumn _ _ => by
    simp only [bindExpr, Expr.slots]
    exact .ok (by simp [Expr.params]) fun n hn => nomatch hn
  | .param n => by
    simp only [bindExpr, Expr.slots]
    exact binds_param n
  | .unary _ e | .isNull e _ | .cast e _ => by
    simp only [bindExpr, Expr.slots]
    exact (binds_expr e).map fun a ha => by simp [Expr.params, ha]
  | .binary _ l r | .isDistinctFrom l r _ | .like l r _ _ => by
    simp only [bindExpr, Expr.slots]
    exact (binds_expr l).seq fun a ha => (binds_expr r).map fun b hb => by simp [Expr.params, ha, hb]
  | .quantifiedCompare e _ _ es | .inList e es _ => by
    simp only [bindExpr, Expr.slots]
    exact (binds_expr e).seq fun a ha => (binds_all es).map fun b hb => by simp [Expr.params, ha, hb]
  | .row es | .array es => by
    simp only [bindExpr, Expr.slots]
    exact (binds_all es).map fun a ha => by simp [Expr.params, ha]
  | .between e low high _ => by
    simp only [bindExpr, Expr.slots]
    exact (binds_expr e).seq fun a ha => (binds_expr low).seq fun b hb =>
      (binds_expr high).map fun c hc => by simp [Expr.params, ha, hb, hc]
  | .case operand whens elseExpr => by
    simp only [bindExpr, Expr.slots]
    exact (binds_option operand).seq fun a ha => (binds_whens whens).seq fun b hb =>
      (binds_option elseExpr).map fun c hc => by simp [Expr.params, ha, hb, hc]
  | .scalarSubquery _ | .exists _ => by
    simp only [bindExpr, Expr.slots]
    exact .ok (by simp [Expr.params]) fun n => not_mem_passedBy
  | .inSubquery e _ _ => by
    simp only [bindExpr, Expr.slots]
    exact ((binds_expr e).pass _).map fun a ha => by simp [Expr.params, ha]
  | .function _ args _ _ filter _ => by
    simp only [bindExpr, Expr.slots]
    exact (binds_all args).seq fun a ha => ((binds_option filter).pass _).map fun b hb => by
      simp [Expr.params, ha, hb]

theorem binds_all : ∀ es, Leaving values (slotsAll es) paramsAll (bindAll values es)
  | [] => by
    simp only [bindAll, slotsAll]
    exact .ok (by simp [paramsAll]) fun n hn => nomatch hn
  | e :: es => by
    simp only [bindAll, slotsAll]
    exact (binds_expr e).seq fun a ha => (binds_all es).map fun b hb => by simp [paramsAll, ha, hb]

theorem binds_option : ∀ e, Leaving values (slotsOption e) paramsOption (bindOption values e)
  | none => by
    simp only [bindOption, slotsOption]
    exact .ok (by simp [paramsOption]) fun n hn => nomatch hn
  | some e => by
    simp only [bindOption, slotsOption]
    exact (binds_expr e).map fun a ha => by simp [paramsOption, ha]

theorem binds_whens : ∀ ws, Leaving values (slotsWhens ws) paramsWhens (bindWhens values ws)
  | [] => by
    simp only [bindWhens, slotsWhens]
    exact .ok (by simp [paramsWhens]) fun n hn => nomatch hn
  | w :: ws => by
    simp only [bindWhens, slotsWhens]
    exact (binds_when w).seq fun a ha => (binds_whens ws).map fun b hb => by
      simp [paramsWhens, ha, hb]

theorem binds_when : ∀ w, Leaving values (slotsWhen w) paramsWhen (bindWhen values w)
  | (cond, result) => by
    simp only [bindWhen, slotsWhen]
    exact (binds_expr cond).seq fun a ha => (binds_expr result).map fun b hb => by
      simp [paramsWhen, ha, hb]

end

theorem binds_item (item : SelectItem) :
    Leaving values item.slots SelectItem.params (bindItem values item) := by
  rcases item with _ | ⟨e, label⟩
  · exact .ok (by simp [SelectItem.params, SelectItem.slots]) fun n hn => nomatch hn
  · exact (binds_expr e).map fun a ha => by rw [SelectItem.params, ha, SelectItem.slots]

theorem binds_tableRef (t : TableRef) :
    Leaving values t.slots TableRef.params (bindTableRef values t) :=
  ((binds_all t.args).pass _).map fun a ha => by simp [TableRef.params, TableRef.slots, ha]

theorem binds_join (j : Join) : Leaving values j.slots Join.params (bindJoin values j) :=
  (binds_tableRef j.table).seq fun a ha => (binds_option j.on).map fun b hb => by
    simp [Join.params, Join.slots, ha, hb]

theorem binds_from (f : Option FromClause) :
    Leaving values (slotsFrom f) paramsFrom (bindFrom values f) := by
  rcases f with _ | f
  · exact .ok (by simp [paramsFrom, slotsFrom]) fun n hn => nomatch hn
  · exact (binds_tableRef f.base).seq fun a ha => (Binds.mapM binds_join f.joins).map fun b hb => by
      simp [paramsFrom, FromClause.params, paramsJoins_eq_flatMap, slotsFrom, ha, hb]

theorem binds_orderByItem (o : OrderByItem) :
    Leaving values o.expr.slots OrderByItem.params (bindOrderByItem values o) :=
  (binds_expr o.expr).map fun a ha => by rw [OrderByItem.params, ha]

mutual

theorem binds_select : ∀ s, Leaving values s.slots Select.params (bindSelect values s)
  | ⟨ctes, _, distinctOn, projection, source, filter, groupBy, groupingSets, having, orderBy, limit,
      offset, _, setOps⟩ => by
    simp only [bindSelect, Select.slots]
    refine (Binds.mapM binds_item projection).seq fun a ha => (binds_option filter).seq fun b hb =>
      (binds_from source).seq fun c hc => (binds_all groupBy).seq fun d hd =>
      (binds_option having).seq fun e he => (binds_all distinctOn).seq fun f hf =>
      (Binds.mapM binds_orderByItem orderBy).seq fun g hg => (binds_option limit).seq fun h hh =>
      (binds_option offset).seq fun i hi => ((binds_setOps setOps).pass _).map fun j hj => ?_
    simp [Select.params, paramsItems_eq_flatMap, paramsOrderBy_eq_flatMap, ha, hb, hc, hd, he, hf,
      hg, hh, hi, hj]

theorem binds_setOps : ∀ ops, Leaving values (slotsSetOps ops) paramsSetOps (bindSetOps values ops)
  | [] => by
    simp only [bindSetOps, slotsSetOps]
    exact .ok (by simp [paramsSetOps]) fun n hn => nomatch hn
  | op :: ops => by
    simp only [bindSetOps, slotsSetOps]
    exact (binds_setOp op).seq fun a ha => (binds_setOps ops).map fun b hb => by
      simp [paramsSetOps, ha, hb]

theorem binds_setOp : ∀ op,
    Leaving values (slotsSetOp op) SetOperation.params (bindSetOp values op)
  | ⟨_, _, select⟩ => by
    simp only [bindSetOp, slotsSetOp]
    exact (binds_select select).map fun a ha => by simp [SetOperation.params, ha]

end

theorem binds_subquery (s : Option Select) :
    Leaving values (slotsSubquery s) paramsSubquery (bindSubquery values s) := by
  rcases s with _ | s
  · exact .ok (by simp [paramsSubquery, slotsSubquery]) fun n hn => nomatch hn
  · exact (binds_select s).map fun a ha => by rw [paramsSubquery, ha, slotsSubquery]

theorem binds_insert (i : Insert) : Leaving values i.slots Insert.params (bindInsert values i) :=
  (Binds.mapM binds_all i.rows).seq fun a ha => ((binds_subquery i.select).pass _).map fun b hb => by
    simp [Insert.params, paramsRows_eq_flatMap, Insert.slots, ha, hb]

theorem binds_update (u : Update) :
    Leaving values u.slots Update.params (bindUpdate values u) := by
  have hassign : ∀ a, Leaving values a.2.slots (fun a => a.2.params) (bindAssignment values a) :=
    fun a => (binds_expr a.2).map fun _ h => h
  exact (Binds.mapM hassign u.assignments).seq fun a ha =>
    ((binds_option u.filter).pass _).map fun b hb => by
      simp [Update.params, paramsAssignments_eq_flatMap, Update.slots, ha, hb]

theorem binds_delete (d : Delete) : Leaving values d.slots Delete.params (bindDelete values d) :=
  ((binds_option d.filter).pass _).map fun a ha => by simp [Delete.params, Delete.slots, ha]

/-- The placeholders of a bound statement are those the walk does not get to. -/
theorem binds_statement (stmt : Statement) :
    Leaving values stmt.slots Statement.params (bindStatement values stmt) := by
  induction stmt with
  | insert i => exact (binds_insert i).map fun a ha => ha
  | select s => exact (binds_select s).map fun a ha => ha
  | update u => exact (binds_update u).map fun a ha => ha
  | delete d => exact (binds_delete d).map fun a ha => ha
  | explain analyze stmt ih => exact ih.map fun a ha => ha
  | _ => exact .ok (hidden_passedBy _).symm fun n => not_mem_passedBy

end

/-! ## No placeholder is left behind -/

/-- `bind_statement` returns an error, or a statement without placeholders. -/
def LeavesNone (values : List Value) (stmt : Statement) : Prop :=
  match bindStatement values stmt with
  | .error _ => True
  | .ok stmt' => stmt'.params = []

/-- **A placeholder is left behind exactly when the walk passes one by and has a value for all it
gets to.** -/
theorem leavesNone_iff (values : List Value) (stmt : Statement) :
    LeavesNone values stmt ↔
      (∃ n, (n, true) ∈ stmt.slots ∧ ¬ Supplied values n) ∨ ∀ n, (n, false) ∉ stmt.slots := by
  have hbinds : Binds values stmt.slots _ (bindStatement values stmt) := binds_statement stmt
  have hhidden : hidden stmt.slots = [] ↔ ∀ n, (n, false) ∉ stmt.slots := by
    rw [hidden]
    simp
  rw [LeavesNone]
  rcases hres : bindStatement values stmt with e | stmt'
  · rw [hres] at hbinds
    exact iff_of_true trivial (.inl hbinds.exists_of_error)
  · have hall := hbinds.ok_iff.mp ⟨stmt', hres⟩
    rw [← hhidden, ← hbinds.leaves stmt' hres]
    refine ⟨.inr, fun h => h.resolve_left ?_⟩
    rintro ⟨n, hn, hs⟩
    exact hs (hall n hn)

/-- `INSERT INTO t VALUES (1) RETURNING $1` keeps its placeholder. -/
theorem not_leavesNone_returning :
    ¬ LeavesNone [.int 1] (.insert
      { table := "t", columns := none, defaultValues := false, overridingSystemValue := false
        rows := [[.int 1]], select := none, onConflict := none
        returning := [.expr (.param 1) none] }) := by
  intro h
  have hparams : ([1] : List Nat) = [] := h
  cases hparams

end PostgresRs
