import PostgresRs.Exec.Eval
import PostgresRs.Util.Kleene
import Mathlib.Data.Int.Order.Basic
import Mathlib.Data.Bool.Basic

/-!
# Conditions in three-valued logic

Conditions over truth values, columns, comparisons, `NOT`, `AND`, `OR`, `BETWEEN`, `IN`, `ANY`,
`ALL`, `IS NULL` and `IS DISTINCT FROM`, as a language of their own (`Logic`) with the meaning that
SQL gives them: `NULL` is the truth value unknown, `BETWEEN` is a conjunction of two comparisons,
`IN` and `ANY` are disjunctions and `ALL` is a conjunction of one comparison for each item.

The evaluator does not have this meaning.  It gives `NULL` for `NULL AND FALSE` and `NULL OR TRUE`,
for `BETWEEN` as soon as one bound is `NULL`, and for `IN`, `ANY` and `ALL` of `NULL` and an empty
list; those are the nodes that are `Misread`.  `evalExpr_parts_iff` says that there are no others
among the parts that are evaluated: the right side of `AND` and `OR` is not when the left one decides,
nor are the items of a list behind the first that decides.
-/

namespace PostgresRs.Exec

open List

/-! ## Meaning -/

def Comparison.toOp : Comparison → BinaryOp
  | .eq => .eq
  | .notEq => .notEq
  | .lt => .lt
  | .ltEq => .ltEq
  | .gt => .gt
  | .gtEq => .gtEq

/-- A truth value as a value. -/
def truthValue : Truth → Value
  | .true => .bool true
  | .false => .bool false
  | .unknown => .null

/-- The truth value of a value. -/
def truthOf : Value → Truth
  | .bool b => .ofBool b
  | _ => .unknown

/-- The comparison of two values; unknown if one of them is `NULL`. -/
def sqlCompare (op : Comparison) : Value → Value → Truth
  | .int a, .int b => .ofBool (op.test a b)
  | .bool a, .bool b => .ofBool (op.test a b)
  | _, _ => .unknown

/-- `ANY` is a disjunction, `ALL` a conjunction. -/
def quantify : Quantifier → List Truth → Truth
  | .any, ts | .some, ts => .any ts
  | .all, ts => .all ts

/-- What decides a disjunction or a conjunction. -/
def deciding : Quantifier → Truth
  | .any | .some => .true
  | .all => .false

/-- Values of one kind, or `NULL`. -/
def comparable : Value → Value → Bool
  | .null, _ | _, .null => true
  | .int _, .int _ | .bool _, .bool _ => true
  | _, _ => false

/-- Conditions. -/
inductive Logic where
  | const (t : Truth)
  | column (name : String)
  | compare (op : Comparison) (left right : Logic)
  | not (operand : Logic)
  | and (left right : Logic)
  | or (left right : Logic)
  | between (operand low high : Logic) (negated : Bool)
  | inList (operand : Logic) (items : List Logic) (negated : Bool)
  | quantified (operand : Logic) (op : Comparison) (quantifier : Quantifier) (items : List Logic)
  | isNull (operand : Logic) (negated : Bool)
  | distinct (left right : Logic) (negated : Bool)

namespace Logic

mutual

/-- A condition as an expression of the parser. -/
def toExpr : Logic → Expr
  | const .true => .bool true
  | const .false => .bool false
  | const .unknown => .null
  | column name => .column name
  | compare op l r => .binary (Comparison.toOp op) l.toExpr r.toExpr
  | not c => .unary .not c.toExpr
  | and l r => .binary .and l.toExpr r.toExpr
  | or l r => .binary .or l.toExpr r.toExpr
  | between c low high negated => .between c.toExpr low.toExpr high.toExpr negated
  | inList c items negated => .inList c.toExpr (toExprs items) negated
  | quantified c op quantifier items =>
    .quantifiedCompare c.toExpr (Comparison.toOp op) quantifier (toExprs items)
  | isNull c negated => .isNull c.toExpr negated
  | distinct l r negated => .isDistinctFrom l.toExpr r.toExpr negated

def toExprs : List Logic → List Expr
  | [] => []
  | c :: cs => c.toExpr :: toExprs cs

end

mutual

/-- The value of a condition in three-valued logic, where `env` gives the values of the columns. -/
def value (env : String → Value) : Logic → Value
  | const t => truthValue t
  | column name => env name
  | compare op l r => truthValue (sqlCompare op (l.value env) (r.value env))
  | not c => truthValue (truthOf (c.value env)).not
  | and l r => truthValue ((truthOf (l.value env)).and (truthOf (r.value env)))
  | or l r => truthValue ((truthOf (l.value env)).or (truthOf (r.value env)))
  | between c low high negated =>
    truthValue (Truth.negateIf negated ((sqlCompare .gtEq (c.value env) (low.value env)).and
      (sqlCompare .ltEq (c.value env) (high.value env))))
  | inList c items negated =>
    truthValue (Truth.negateIf negated
      (.any ((values env items).map (sqlCompare .eq (c.value env)))))
  | quantified c op quantifier items =>
    truthValue (quantify quantifier ((values env items).map (sqlCompare op (c.value env))))
  | isNull c negated => .bool (if negated then !(c.value env).isNull else (c.value env).isNull)
  | distinct l r negated =>
    .bool (if negated then l.value env == r.value env else l.value env != r.value env)

def values (env : String → Value) : List Logic → List Value
  | [] => []
  | c :: cs => c.value env :: values env cs

end

theorem values_eq_map (env : String → Value) (cs : List Logic) : values env cs = cs.map (value env) := by
  induction cs with
  | nil => rfl
  | cons c cs ih => rw [values, ih, map_cons]

section Parts

variable (env : String → Value)

/-- The items of a list up to the first whose comparison with `v` is `t`. -/
def upTo (op : Comparison) (v : Value) (t : Truth) : List Logic → List Logic
  | [] => []
  | d :: ds => d :: if sqlCompare op v (d.value env) = t then [] else upTo op v t ds

/-- The operands of a condition that are needed for its value, from left to right. -/
def operands : Logic → List Logic
  | const _ | column _ => []
  | compare _ l r | distinct l r _ => [l, r]
  | and l r => l :: if l.value env = .bool false then [] else [r]
  | or l r => l :: if l.value env = .bool true then [] else [r]
  | not c | isNull c _ => [c]
  | between c low high _ => [c, low, high]
  | inList c items _ => c :: if c.value env = .null then [] else upTo env .eq (c.value env) .true items
  | quantified c op quantifier items => c :: upTo env op (c.value env) (deciding quantifier) items

mutual

/-- The parts of a condition that are evaluated: it, its operands as far as they are needed, their
operands and so on. -/
def parts : Logic → List Logic
  | const t => [const t]
  | column name => [column name]
  | compare op l r => compare op l r :: (l.parts ++ r.parts)
  | not c => not c :: c.parts
  | and l r => and l r :: (l.parts ++ if l.value env = .bool false then [] else r.parts)
  | or l r => or l r :: (l.parts ++ if l.value env = .bool true then [] else r.parts)
  | between c low high negated =>
    between c low high negated :: (c.parts ++ (low.parts ++ high.parts))
  | inList c items negated => inList c items negated ::
    (c.parts ++ if c.value env = .null then [] else partsUpTo .eq (c.value env) .true items)
  | quantified c op quantifier items => quantified c op quantifier items ::
    (c.parts ++ partsUpTo op (c.value env) (deciding quantifier) items)
  | isNull c negated => isNull c negated :: c.parts
  | distinct l r negated => distinct l r negated :: (l.parts ++ r.parts)

def partsUpTo (op : Comparison) (v : Value) (t : Truth) : List Logic → List Logic
  | [] => []
  | d :: ds => d.parts ++ if sqlCompare op v (d.value env) = t then [] else partsUpTo op v t ds

end

variable {env} {c d : Logic}

theorem partsUpTo_eq_flatMap (op : Comparison) (v : Value) (t : Truth) (ds : List Logic) :
    partsUpTo env op v t ds = (upTo env op v t ds).flatMap (parts env) := by
  induction ds with
  | nil => rfl
  | cons d ds ih =>
    rw [partsUpTo, upTo, flatMap_cons, ih]
    split <;> rfl

theorem parts_eq (c : Logic) : c.parts env = c :: (c.operands env).flatMap (parts env) := by
  cases c with
  | and l r | or l r =>
    rw [parts, operands, flatMap_cons]
    split
    · rfl
    · rw [flatMap_singleton]
  | inList c items negated =>
    rw [parts, operands, flatMap_cons, partsUpTo_eq_flatMap]
    split <;> rfl
  | quantified c op quantifier items => rw [parts, operands, flatMap_cons, partsUpTo_eq_flatMap]
  | _ => simp [parts, operands]

theorem mem_parts_self (c : Logic) : c ∈ c.parts env := by
  rw [parts_eq]
  exact mem_cons_self

theorem mem_parts_of_mem_operands (h : d ∈ c.operands env) : d ∈ c.parts env := by
  rw [parts_eq]
  exact mem_cons_of_mem _ (mem_flatMap.mpr ⟨d, h, mem_parts_self d⟩)

theorem mem_of_mem_upTo {op : Comparison} {v : Value} {t : Truth} {ds : List Logic}
    (h : d ∈ upTo env op v t ds) : d ∈ ds := by
  induction ds with
  | nil => exact h
  | cons e ds ih =>
    rw [upTo] at h
    rcases mem_cons.mp h with rfl | h
    · exact mem_cons_self
    · split at h
      · cases h
      · exact mem_cons_of_mem e (ih h)

theorem sizeOf_lt_of_mem_operands (h : d ∈ c.operands env) : sizeOf d < sizeOf c := by
  cases c with
  | const | column => cases h
  | and l r | or l r =>
    rw [operands] at h
    rcases mem_cons.mp h with rfl | h
    · simp only [and.sizeOf_spec, or.sizeOf_spec]
      omega
    · split at h
      · cases h
      · rw [mem_singleton.mp h]
        simp only [and.sizeOf_spec, or.sizeOf_spec]
        omega
  | inList c items negated =>
    rw [operands] at h
    rcases mem_cons.mp h with rfl | h
    · simp only [inList.sizeOf_spec]
      omega
    · split at h
      · cases h
      · have := sizeOf_lt_of_mem (mem_of_mem_upTo h)
        simp only [inList.sizeOf_spec]
        omega
  | quantified c op quantifier items =>
    rcases mem_cons.mp h with rfl | h
    · simp only [quantified.sizeOf_spec]
      omega
    · have := sizeOf_lt_of_mem (mem_of_mem_upTo h)
      simp only [quantified.sizeOf_spec]
      omega
  | _ =>
    simp only [operands, mem_cons, not_mem_nil, or_false] at h
    rcases h with rfl | rfl | rfl <;> simp <;> omega

/-- A property that a condition has as soon as its operands have it holds of all. -/
theorem induction_on_operands (env : String → Value) {P : Logic → Prop}
    (h : ∀ c, (∀ d ∈ c.operands env, P d) → P c) (c : Logic) : P c :=
  h c fun d _ => induction_on_operands env h d
termination_by sizeOf c
decreasing_by exact sizeOf_lt_of_mem_operands ‹_›

theorem mem_parts_trans {e : Logic} (hd : d ∈ c.parts env) (he : e ∈ d.parts env) :
    e ∈ c.parts env := by
  induction c using induction_on_operands env with
  | h c ih =>
    rw [parts_eq] at hd
    rcases mem_cons.mp hd with rfl | hd
    · exact he
    · obtain ⟨o, ho, hd⟩ := mem_flatMap.mp hd
      rw [parts_eq]
      exact mem_cons_of_mem _ (mem_flatMap.mpr ⟨o, ho, ih o ho hd⟩)

end Parts

/-- Where operands have to be comparable, they are, and where they have to be truth values, too. -/
def Comparable (env : String → Value) : Logic → Prop
  | const _ | column _ | isNull _ _ => True
  | compare _ l r | distinct l r _ => comparable (l.value env) (r.value env) = true
  | not c => truthValue (truthOf (c.value env)) = c.value env
  | and l r | or l r =>
    truthValue (truthOf (l.value env)) = l.value env ∧ truthValue (truthOf (r.value env)) = r.value env
  | between c low high _ =>
    comparable (c.value env) (low.value env) = true ∧ comparable (c.value env) (high.value env) = true
  | inList c items _ | quantified c _ _ items =>
    ∀ d ∈ items, comparable (c.value env) (d.value env) = true

/-- The conditions that the evaluator takes for unknown although they are not: a conjunction of
unknown and false, a disjunction of unknown and true, a `BETWEEN` with one bound `NULL` that the
other decides, and `NULL` against an empty list. -/
def Misread (env : String → Value) : Logic → Prop
  | and l r => l.value env = .null ∧ r.value env = .bool false
  | or l r => l.value env = .null ∧ r.value env = .bool true
  | between c low high _ =>
    low.value env = .null ∧ sqlCompare .ltEq (c.value env) (high.value env) = .false ∨
      high.value env = .null ∧ sqlCompare .gtEq (c.value env) (low.value env) = .false
  | inList c items _ | quantified c _ _ items => c.value env = .null ∧ items = []
  | _ => False

instance (env : String → Value) : (c : Logic) → Decidable (c.Comparable env)
  | const _ | column _ | isNull _ _ => .isTrue trivial
  | compare _ l r | distinct l r _ =>
    inferInstanceAs (Decidable (comparable (l.value env) (r.value env) = true))
  | not c => inferInstanceAs (Decidable (truthValue (truthOf (c.value env)) = c.value env))
  | and l r | or l r =>
    inferInstanceAs (Decidable (truthValue (truthOf (l.value env)) = l.value env ∧
      truthValue (truthOf (r.value env)) = r.value env))
  | between c low high _ =>
    inferInstanceAs (Decidable (comparable (c.value env) (low.value env) = true ∧
      comparable (c.value env) (high.value env) = true))
  | inList c items _ | quantified c _ _ items =>
    inferInstanceAs (Decidable (∀ d ∈ items, comparable (c.value env) (d.value env) = true))

instance (env : String → Value) : (c : Logic) → Decidable (c.Misread env)
  | and l r => inferInstanceAs (Decidable (l.value env = .null ∧ r.value env = .bool false))
  | or l r => inferInstanceAs (Decidable (l.value env = .null ∧ r.value env = .bool true))
  | between c low high _ =>
    inferInstanceAs (Decidable (
      low.value env = .null ∧ sqlCompare .ltEq (c.value env) (high.value env) = .false ∨
        high.value env = .null ∧ sqlCompare .gtEq (c.value env) (low.value env) = .false))
  | inList c items _ | quantified c _ _ items =>
    decidable_of_iff (c.value env = .null ∧ items.isEmpty = true)
      (and_congr_right fun _ => List.isEmpty_iff)
  | const _ | column _ | compare _ _ _ | not _ | isNull _ _ | distinct _ _ _ => .isFalse id

end Logic

/-! ## The evaluator on values -/

section Values

variable {ext : Externals} {op : Comparison} {v w : Value} {ws : List Value}

theorem holds_compare_int (a b : Int) :
    holds (Comparison.toOp op) (compare a b) = op.test a b := by
  rcases lt_trichotomy a b with h | h | h
  · rw [compare_lt_iff_lt.mpr h]
    cases op <;> simp [holds, Comparison.toOp, Comparison.test, h.ne, h, h.le]
  · cases op <;> simp [holds, Comparison.toOp, Comparison.test, h]
  · rw [compare_gt_iff_gt.mpr h]
    cases op <;> simp [holds, Comparison.toOp, Comparison.test, h.ne', h, h.le]

theorem holds_compare_bool (a b : Bool) :
    holds (Comparison.toOp op) (compare a b) = op.test a b := by
  cases op <;> cases a <;> cases b <;> rfl

/-- Comparable values other than `NULL` have an order, and their comparisons hold accordingly. -/
theorem exists_compareValues (h : comparable v w = true) (hv : v ≠ .null) (hw : w ≠ .null) :
    ∃ o, compareValues v w = some o ∧
      ∀ op, sqlCompare op v w = .ofBool (holds (Comparison.toOp op) o) := by
  cases v with
  | null => exact absurd rfl hv
  | int a =>
    cases w with
    | null => exact absurd rfl hw
    | int b => exact ⟨_, rfl, fun op => congrArg Truth.ofBool (holds_compare_int a b).symm⟩
    | _ => exact absurd h Bool.false_ne_true
  | bool a =>
    cases w with
    | null => exact absurd rfl hw
    | bool b => exact ⟨_, rfl, fun op => congrArg Truth.ofBool (holds_compare_bool a b).symm⟩
    | _ => exact absurd h Bool.false_ne_true
  | _ =>
    cases w with
    | null => exact absurd rfl hw
    | _ => exact absurd h Bool.false_ne_true

theorem sqlCompare_null_left (op : Comparison) (w : Value) : sqlCompare op .null w = .unknown := rfl

theorem sqlCompare_null_right (op : Comparison) (v : Value) : sqlCompare op v .null = .unknown := by
  cases v <;> rfl

/-- Comparisons with `NULL` are all unknown. -/
theorem eq_unknown_of_mem (hv : v = .null) : ∀ t ∈ ws.map (sqlCompare op v), t = .unknown := by
  intro t ht
  obtain ⟨w, -, rfl⟩ := mem_map.mp ht
  rw [hv, sqlCompare_null_left]

/-- Only comparable values have a comparison that is known. -/
theorem comparable_of_ofBool {b : Bool} (h : sqlCompare op v w = .ofBool b) :
    comparable v w = true := by
  cases v <;> cases w <;> first | rfl | (cases b <;> cases h)

theorem isNull_null : Value.null.isNull = true := rfl

theorem isNull_eq_false (h : v ≠ .null) : v.isNull = false := by
  cases v with
  | null => exact absurd rfl h
  | _ => rfl

/-- What is equal in SQL is found by the loop of `IN`. -/
theorem compareValues_of_true (h : sqlCompare .eq v w = .true) :
    w.isNull = false ∧ compareValues v w = some .eq := by
  have hv : v ≠ .null := by
    rintro rfl
    cases h
  have hw : w ≠ .null := by
    rintro rfl
    rw [sqlCompare_null_right] at h
    cases h
  obtain ⟨o, ho, hsql⟩ := exists_compareValues (comparable_of_ofBool (b := true) h) hv hw
  rw [hsql] at h
  refine ⟨isNull_eq_false hw, ho.trans ?_⟩
  cases o <;> first | rfl | cases h

theorem truthValue_ofBool (b : Bool) : truthValue (.ofBool b) = .bool b := by cases b <;> rfl

/-- The evaluator compares as SQL does. -/
theorem evalBinary_comparison (ext : Externals) (op : Comparison) (h : comparable v w = true) :
    evalBinary ext (Comparison.toOp op) v w = .ok (truthValue (sqlCompare op v w)) := by
  by_cases hv : v = .null
  · rw [hv]
    cases op <;> rfl
  by_cases hw : w = .null
  · rw [hw, sqlCompare_null_right]
    cases op <;> simp [evalBinary, Comparison.toOp, truthValue, isNull_null]
  obtain ⟨o, ho, hsql⟩ := exists_compareValues h hv hw
  rw [hsql, truthValue_ofBool]
  cases op <;> simp [evalBinary, Comparison.toOp, isNull_eq_false hv, isNull_eq_false hw, ho]

/-- What the loop of `IN` has found. -/
def finishIn (negated : Bool) : Bool × Bool → Value
  | (matched, sawNull) => if matched then .bool !negated else if sawNull then .null else .bool negated

/-- What the items before have contributed to a disjunction. -/
def seen (sawNull : Bool) : Truth := if sawNull then .unknown else .false

section

variable (h : ∀ w ∈ ws, comparable v w = true)
include h

theorem inLoop_eq (hv : v ≠ .null) (sawNull negated : Bool) :
    (inLoop v sawNull (ws.map .ok)).map (finishIn negated) =
      .ok (truthValue (Truth.negateIf negated
        ((seen sawNull).or (.any (ws.map (sqlCompare .eq v)))))) := by
  induction ws generalizing sawNull with
  | nil => cases sawNull <;> cases negated <;> rfl
  | cons w ws ih =>
    obtain ⟨hw, hws⟩ := forall_mem_cons.mp h
    rw [map_cons, map_cons, Truth.any_cons]
    change Except.map _ (if w.isNull then inLoop v true (ws.map .ok)
      else if compareValues v w = some .eq then .ok (true, sawNull)
      else inLoop v sawNull (ws.map .ok)) = _
    by_cases hnull : w = .null
    · rw [hnull, sqlCompare_null_right, isNull_null, if_pos rfl, ih hws]
      generalize Truth.any _ = t
      cases sawNull <;> cases t <;> rfl
    obtain ⟨o, ho, hsql⟩ := exists_compareValues hw hv hnull
    rw [isNull_eq_false hnull, if_neg Bool.false_ne_true, ho, hsql]
    generalize hrest : Truth.any _ = t at ih ⊢
    cases o with
    | eq =>
      cases sawNull <;> cases negated <;> rfl
    | lt | gt =>
      rw [if_neg (by decide), ih hws]
      cases t <;> rfl

/-- The same for the loop of `ANY` and `ALL`, where `stop` tells them apart. -/
theorem quantifiedLoop_eq (stop sawNull : Bool) :
    quantifiedLoop ext v (Comparison.toOp op) stop sawNull (ws.map .ok) =
      .ok (truthValue (if stop then (seen sawNull).or (.any (ws.map (sqlCompare op v)))
        else (seen sawNull).not.and (.all (ws.map (sqlCompare op v))))) := by
  induction ws generalizing sawNull with
  | nil => cases sawNull <;> cases stop <;> rfl
  | cons w ws ih =>
    obtain ⟨hw, hws⟩ := forall_mem_cons.mp h
    have hbinary := evalBinary_comparison ext op hw
    rw [map_cons, map_cons, Truth.any_cons, Truth.all_cons, quantifiedLoop]
    show (evalBinary ext (Comparison.toOp op) v w >>= _) = _
    rw [hbinary]
    cases sqlCompare op v w with
    | unknown =>
      change quantifiedLoop ext v (Comparison.toOp op) stop true (ws.map .ok) = _
      rw [ih hws]
      generalize Truth.any _ = t
      generalize Truth.all _ = u
      cases stop <;> cases sawNull <;> cases t <;> cases u <;> rfl
    | true =>
      cases stop with
      | true => cases sawNull <;> rfl
      | false =>
        rw [ih hws]
        generalize Truth.all _ = u
        cases sawNull <;> cases u <;> rfl
    | false =>
      cases stop with
      | true =>
        rw [ih hws]
        generalize Truth.any _ = t
        cases sawNull <;> cases t <;> rfl
      | false => cases sawNull <;> rfl

/-- `IN`, with unknown for every list if the operand is `NULL`. -/
theorem evalInList_eq (negated : Bool) : evalInList (.ok v) (ws.map .ok) negated =
      .ok (truthValue (if v = .null then .unknown
        else Truth.negateIf negated (.any (ws.map (sqlCompare .eq v))))) := by
  by_cases hv : v = .null
  · rw [hv]
    rfl
  have hfinish : evalInList (.ok v) (ws.map .ok) negated =
      (inLoop v false (ws.map .ok)).map (finishIn negated) := by
    change (if v.isNull then Except.ok Value.null else _) = _
    rw [isNull_eq_false hv]
    cases inLoop v false (ws.map .ok) with
    | error e => rfl
    | ok found =>
      obtain ⟨matched, sawNull⟩ := found
      cases matched <;> cases sawNull <;> rfl
  rw [if_neg hv, hfinish, inLoop_eq h hv]
  generalize Truth.any _ = t
  cases t <;> rfl

/-- `ANY` and `ALL`, with unknown for the empty list if the operand is `NULL`. -/
theorem evalQuantifiedCompare_eq (quantifier : Quantifier) :
    evalQuantifiedCompare ext (.ok v) (Comparison.toOp op) quantifier (ws.map .ok) =
      .ok (truthValue (if v = .null then .unknown
        else quantify quantifier (ws.map (sqlCompare op v)))) := by
  have heval : evalQuantifiedCompare ext (.ok v) (Comparison.toOp op) quantifier (ws.map .ok) =
      quantifiedLoop ext v (Comparison.toOp op) (quantifier != .all) v.isNull (ws.map .ok) := by
    cases quantifier <;> rfl
  rw [heval, quantifiedLoop_eq h]
  by_cases hv : v = .null
  · -- Every comparison is unknown, and so is what the loop makes of them.
    have hunknown := @eq_unknown_of_mem op v ws hv
    rw [if_pos hv, hv, isNull_null, ← hv]
    cases hws : ws.map (sqlCompare op v) with
    | nil => cases quantifier <;> rfl
    | cons t ts =>
      rw [hws] at hunknown
      rw [Truth.any_eq_unknown (cons_ne_nil t ts) hunknown,
        Truth.all_eq_unknown (cons_ne_nil t ts) hunknown]
      cases quantifier <;> rfl
  · rw [if_neg hv, isNull_eq_false hv]
    generalize ws.map (sqlCompare op v) = ts
    cases quantifier with
    | all => cases hall : Truth.all ts <;> simp [quantify, seen, Truth.not, Truth.and, hall]
    | any | some => cases hany : Truth.any ts <;> simp [quantify, seen, Truth.or, hany]

end

/-- The evaluator on truth values. -/
theorem evalShortCircuit_and (t u : Truth) :
    evalShortCircuit ext .and (.ok (truthValue t)) (.ok (truthValue u)) =
      .ok (truthValue (if t = .unknown ∧ u = .false then .unknown else t.and u)) := by
  cases t <;> cases u <;> rfl

theorem evalShortCircuit_or (t u : Truth) :
    evalShortCircuit ext .or (.ok (truthValue t)) (.ok (truthValue u)) =
      .ok (truthValue (if t = .unknown ∧ u = .true then .unknown else t.or u)) := by
  cases t <;> cases u <;> rfl

theorem truthOf_truthValue (t : Truth) : truthOf (truthValue t) = t := by
  cases t <;> rfl

/-- `BETWEEN`, with unknown instead of what one bound decides against the other. -/
theorem evalBetween_eq {lo hi : Value} (hlo : comparable v lo = true) (hhi : comparable v hi = true)
    (negated : Bool) :
    evalBetween (.ok v) (.ok lo) (.ok hi) negated =
      .ok (truthValue (if lo = .null ∨ hi = .null then .unknown
        else Truth.negateIf negated ((sqlCompare .gtEq v lo).and (sqlCompare .ltEq v hi)))) := by
  have heval : evalBetween (.ok v) (.ok lo) (.ok hi) negated =
      .ok (if v.isNull || lo.isNull || hi.isNull then .null
        else .bool (if negated then
            !((compareValues v lo).any (fun o => o != .lt) && (compareValues v hi).any (fun o => o != .gt))
          else (compareValues v lo).any (fun o => o != .lt) &&
            (compareValues v hi).any (fun o => o != .gt))) := by
    change (if v.isNull || lo.isNull || hi.isNull then Except.ok Value.null else _) = _
    split <;> rfl
  rw [heval]
  by_cases hv : v = .null
  · subst hv
    rw [isNull_null, Bool.true_or, Bool.true_or, if_pos rfl]
    split <;> cases negated <;> rfl
  by_cases hl : lo = .null
  · subst hl
    rw [isNull_null, Bool.or_true]
    rfl
  by_cases hh : hi = .null
  · subst hh
    rw [isNull_null, Bool.or_true, if_pos (Or.inr rfl)]
    rfl
  obtain ⟨o, ho, hsql⟩ := exists_compareValues hlo hv hl
  obtain ⟨o', ho', hsql'⟩ := exists_compareValues hhi hv hh
  rw [isNull_eq_false hv, isNull_eq_false hl, isNull_eq_false hh, if_neg (not_or.mpr ⟨hl, hh⟩), ho, ho',
    hsql, hsql']
  cases negated <;> cases o <;> cases o' <;> rfl

theorem evalIsDistinctFrom_eq (h : comparable v w = true) (negated : Bool) :
    evalIsDistinctFrom (.ok v) (.ok w) negated = .ok (.bool (if negated then v == w else v != w)) := by
  obtain ⟨distinct, heval, hdistinct⟩ : ∃ distinct, evalIsDistinctFrom (.ok v) (.ok w) negated =
      .ok (.bool (if negated then !distinct else distinct)) ∧ distinct = (v != w) := by
    refine ⟨_, rfl, ?_⟩
    cases v with
    | null => cases w <;> rfl
    | int a =>
      cases w with
      | int b =>
        change (some (compare a b) != some .eq) = _
        rw [Bool.eq_iff_iff, bne_iff_ne, bne_iff_ne, ne_eq, Option.some.injEq, compare_eq_iff_eq,
          ne_eq, Value.int.injEq]
      | null => rfl
      | _ => exact absurd h Bool.false_ne_true
    | bool a =>
      cases w with
      | bool b => cases a <;> cases b <;> rfl
      | null => rfl
      | _ => exact absurd h Bool.false_ne_true
    | _ =>
      cases w with
      | null => rfl
      | _ => exact absurd h Bool.false_ne_true
  rw [heval, hdistinct]
  cases negated <;> simp [bne]

end Values

/-! ## The evaluator on conditions -/

namespace Logic

variable {ext : Externals} {colNames : List String} {row : List Value} {env : String → Value}
  {items : List Logic} {v : Value}

/-- The evaluator gives the right value. -/
def Right (ext : Externals) (colNames : List String) (row : List Value) (env : String → Value)
    (c : Logic) : Prop :=
  evalExpr ext colNames row c.toExpr = .ok (c.value env)

/-- Behind the item that is found, the loop of `IN` looks at no other. -/
theorem inLoop_of_right (h : ∀ d ∈ upTo env .eq v .true items, Right ext colNames row env d)
    (sawNull : Bool) : inLoop v sawNull (evalAll ext colNames row (toExprs items)) =
      inLoop v sawNull ((values env items).map .ok) := by
  induction items generalizing sawNull with
  | nil => rfl
  | cons d items ih =>
    obtain ⟨hd, hitems⟩ := forall_mem_cons.mp h
    rw [toExprs, evalAll, values, map_cons, hd]
    by_cases hfound : sqlCompare .eq v (d.value env) = .true
    · obtain ⟨hnull, heq⟩ := compareValues_of_true hfound
      change (if _ then _ else if _ then _ else _) = (if _ then _ else if _ then _ else _)
      rw [hnull, if_neg Bool.false_ne_true, if_neg Bool.false_ne_true, if_pos heq, if_pos heq]
    · rw [if_neg hfound] at hitems
      rw [inLoop, inLoop, ih hitems, ih hitems]

/-- The same for the loops of `ANY` and `ALL`. -/
theorem quantifiedLoop_of_right {op : Comparison} (stop : Bool)
    (h : ∀ d ∈ upTo env op v (.ofBool stop) items, Right ext colNames row env d) (sawNull : Bool) :
    quantifiedLoop ext v (Comparison.toOp op) stop sawNull
        (evalAll ext colNames row (toExprs items)) =
      quantifiedLoop ext v (Comparison.toOp op) stop sawNull ((values env items).map .ok) := by
  induction items generalizing sawNull with
  | nil => rfl
  | cons d items ih =>
    obtain ⟨hd, hitems⟩ := forall_mem_cons.mp h
    rw [toExprs, evalAll, values, map_cons, hd]
    by_cases hfound : sqlCompare op v (d.value env) = .ofBool stop
    · have hbinary := evalBinary_comparison ext op (comparable_of_ofBool hfound)
      rw [hfound, truthValue_ofBool] at hbinary
      change (evalBinary ext (Comparison.toOp op) v _ >>= _) =
        (evalBinary ext (Comparison.toOp op) v _ >>= _)
      rw [hbinary]
      change (if stop = stop then _ else _) = (if stop = stop then _ else _)
      rw [if_pos rfl, if_pos rfl]
    · rw [if_neg hfound] at hitems
      simp only [quantifiedLoop, ih hitems]

theorem evalInList_of_right (h : ∀ d ∈ if v = .null then [] else upTo env .eq v .true items,
      Right ext colNames row env d) (negated : Bool) :
    evalInList (.ok v) (evalAll ext colNames row (toExprs items)) negated =
      evalInList (.ok v) ((values env items).map .ok) negated := by
  by_cases hv : v = .null
  · rw [hv]
    rfl
  · rw [if_neg hv] at h
    simp only [evalInList, bind, Except.bind, inLoop_of_right h]

theorem evalQuantifiedCompare_of_right {op : Comparison} {quantifier : Quantifier}
    (h : ∀ d ∈ upTo env op v (deciding quantifier) items, Right ext colNames row env d) :
    evalQuantifiedCompare ext (.ok v) (Comparison.toOp op) quantifier
        (evalAll ext colNames row (toExprs items)) =
      evalQuantifiedCompare ext (.ok v) (Comparison.toOp op) quantifier
        ((values env items).map .ok) := by
  cases quantifier with
  | all => exact quantifiedLoop_of_right false h _
  | any | some => exact quantifiedLoop_of_right true h _

theorem forall_mem_values {P : Value → Prop} (h : ∀ d ∈ items, P (d.value env)) :
    ∀ w ∈ values env items, P w := by
  rw [values_eq_map]
  exact forall_mem_map.mpr h

/-- The evaluator is right about `BETWEEN` unless one bound is `NULL` and the other decides. -/
theorem between_iff {lo hi : Value} (negated : Bool) :
    truthValue (if lo = .null ∨ hi = .null then .unknown
        else Truth.negateIf negated ((sqlCompare .gtEq v lo).and (sqlCompare .ltEq v hi))) =
      truthValue (Truth.negateIf negated ((sqlCompare .gtEq v lo).and (sqlCompare .ltEq v hi))) ↔
    ¬ (lo = .null ∧ sqlCompare .ltEq v hi = .false ∨ hi = .null ∧ sqlCompare .gtEq v lo = .false) := by
  by_cases hl : lo = .null
  · rw [hl, sqlCompare_null_right]
    generalize sqlCompare .ltEq v hi = t
    cases negated <;> cases t <;> simp [Truth.negateIf, Truth.and, Truth.not, truthValue]
  by_cases hh : hi = .null
  · rw [hh, sqlCompare_null_right]
    generalize sqlCompare .gtEq v lo = t
    cases negated <;> cases t <;> simp [Truth.negateIf, Truth.and, Truth.not, truthValue]
  · simp [hl, hh]

/-- The evaluator is right about a list unless the list is empty and the operand `NULL`. -/
theorem list_iff {t : Truth} (hne : v = .null → items ≠ [] → t = .unknown)
    (hnil : items = [] → t ≠ .unknown) :
    truthValue (if v = .null then .unknown else t) = truthValue t ↔ ¬ (v = .null ∧ items = []) := by
  by_cases hv : v = .null
  · rw [if_pos hv]
    by_cases hitems : items = []
    · refine iff_of_false (fun h => hnil hitems ?_) (not_not.mpr ⟨hv, hitems⟩)
      rw [← truthOf_truthValue t, ← h]
      rfl
    · rw [hne hv hitems]
      exact iff_of_true rfl fun h => hitems h.2
  · rw [if_neg hv]
    exact iff_of_true rfl fun h => hv h.1

/-- A condition whose operands are evaluated right is so itself, unless it is misread. -/
theorem right_iff {c : Logic}
    (hcolumn : ∀ name, c = column name → columnValue colNames row none name = .ok (env name))
    (hoperands : ∀ d ∈ c.operands env, Right ext colNames row env d) (h : c.Comparable env) :
    Right ext colNames row env c ↔ ¬ c.Misread env := by
  unfold Right at hoperands ⊢
  cases c with
  | const t =>
    refine iff_of_true ?_ id
    cases t <;> rfl
  | column name => exact iff_of_true (hcolumn name rfl) id
  | compare op l r =>
    have hl := hoperands l (by simp [operands])
    have hr := hoperands r (by simp [operands])
    refine iff_of_true ?_ id
    rw [toExpr, evalExpr, hl, hr, value, ← evalBinary_comparison ext op h]
    cases op <;> rfl
  | not c =>
    have hc := hoperands c (by simp [operands])
    refine iff_of_true ?_ id
    rw [toExpr, evalExpr, hc, value, ← h, truthOf_truthValue]
    cases truthOf (c.value env) <;> rfl
  | and l r =>
    obtain ⟨hl, hrest⟩ := forall_mem_cons.mp hoperands
    obtain ⟨hlt, hrt⟩ := h
    by_cases hfalse : l.value env = .bool false
    · rw [toExpr, evalExpr, hl, value, Misread, hfalse]
      exact iff_of_true rfl (by simp)
    · rw [if_neg hfalse] at hrest
      rw [toExpr, evalExpr, hl, hrest r mem_cons_self, value, Misread, ← hlt, ← hrt,
        evalShortCircuit_and, truthOf_truthValue, truthOf_truthValue, Except.ok.injEq]
      cases truthOf (l.value env) <;> cases truthOf (r.value env) <;> decide
  | or l r =>
    obtain ⟨hl, hrest⟩ := forall_mem_cons.mp hoperands
    obtain ⟨hlt, hrt⟩ := h
    by_cases htrue : l.value env = .bool true
    · rw [toExpr, evalExpr, hl, value, Misread, htrue]
      exact iff_of_true rfl (by simp)
    · rw [if_neg htrue] at hrest
      rw [toExpr, evalExpr, hl, hrest r mem_cons_self, value, Misread, ← hlt, ← hrt,
        evalShortCircuit_or, truthOf_truthValue, truthOf_truthValue, Except.ok.injEq]
      cases truthOf (l.value env) <;> cases truthOf (r.value env) <;> decide
  | between c low high negated =>
    have hc := hoperands c (by simp [operands])
    have hlow := hoperands low (by simp [operands])
    have hhigh := hoperands high (by simp [operands])
    rw [toExpr, evalExpr, hc, hlow, hhigh, evalBetween_eq h.1 h.2, Except.ok.injEq]
    exact between_iff negated
  | inList c items negated =>
    obtain ⟨hc, hitems⟩ := forall_mem_cons.mp hoperands
    rw [toExpr, evalExpr, hc, evalInList_of_right hitems, evalInList_eq (forall_mem_values h), value,
      Misread, Except.ok.injEq]
    refine list_iff (fun hnull hne => ?_) (fun hnil => ?_)
    · rw [Truth.any_eq_unknown (by simpa [values_eq_map] using hne) (eq_unknown_of_mem hnull)]
      cases negated <;> rfl
    · rw [hnil]
      cases negated <;> exact Truth.noConfusion
  | quantified c op quantifier items =>
    obtain ⟨hc, hitems⟩ := forall_mem_cons.mp hoperands
    rw [toExpr, evalExpr, hc, evalQuantifiedCompare_of_right hitems,
      evalQuantifiedCompare_eq (forall_mem_values h) quantifier, value, Misread, Except.ok.injEq]
    refine list_iff (fun hnull hne => ?_) (fun hnil => ?_)
    · have hmap : (values env items).map (sqlCompare op (c.value env)) ≠ [] := by
        simpa [values_eq_map] using hne
      cases quantifier with
      | all => exact Truth.all_eq_unknown hmap (eq_unknown_of_mem hnull)
      | any | some => exact Truth.any_eq_unknown hmap (eq_unknown_of_mem hnull)
    · rw [hnil]
      cases quantifier <;> exact Truth.noConfusion
  | isNull c negated =>
    have hc := hoperands c (by simp [operands])
    refine iff_of_true ?_ id
    rw [toExpr, evalExpr, hc]
    rfl
  | distinct l r negated =>
    have hl := hoperands l (by simp [operands])
    have hr := hoperands r (by simp [operands])
    refine iff_of_true ?_ id
    rw [toExpr, evalExpr, hl, hr, value, evalIsDistinctFrom_eq h]

/-- **Three-valued logic.**  On a row on which the operands are comparable, the evaluator gives a
condition and the parts of it that are evaluated their values in three-valued logic if and only if
none of them is misread. -/
theorem evalExpr_parts_iff (ext : Externals) {colNames : List String} {row : List Value}
    (env : String → Value) (c : Logic)
    (hcolumns : ∀ name, column name ∈ c.parts env →
      columnValue colNames row none name = .ok (env name))
    (hcomparable : ∀ d ∈ c.parts env, d.Comparable env) :
    (∀ d ∈ c.parts env, evalExpr ext colNames row d.toExpr = .ok (d.value env)) ↔
      ∀ d ∈ c.parts env, ¬ d.Misread env := by
  have hnode : ∀ d ∈ c.parts env, (∀ e ∈ d.operands env, Right ext colNames row env e) →
      (Right ext colNames row env d ↔ ¬ d.Misread env) := by
    intro d hd hoperands
    refine right_iff (fun name hname => hcolumns name ?_) hoperands (hcomparable d hd)
    rw [← hname]
    exact hd
  constructor
  · intro hright d hd
    exact (hnode d hd fun e he => hright e (mem_parts_trans hd (mem_parts_of_mem_operands he))).mp
      (hright d hd)
  · intro hread d
    -- From the operands up.
    induction d using induction_on_operands env with
    | h d ih =>
      intro hd
      refine (hnode d hd fun e he => ?_).mpr (hread d hd)
      exact ih e he (mem_parts_trans hd (mem_parts_of_mem_operands he))

/-- `x < y AND (x IN (y, x) OR (NULL AND FALSE))` with 3 for `x` and `NULL` for `y`: what is misread
is not evaluated. -/
theorem evalExpr_parts_unknown :
    evalExpr ⟨fun _ _ _ => .error "", fun _ _ _ => false, fun _ => "", fun _ => "", fun v _ => .ok v,
        fun _ _ _ => .error ""⟩ ["x", "y"] [.int 3, .null]
      (.binary .and (.binary .lt (.column "x") (.column "y"))
        (.binary .or (.inList (.column "x") [.column "y", .column "x"] false)
          (.binary .and .null (.bool false)))) = .ok .null :=
  (evalExpr_parts_iff _ (fun name => if name = "x" then .int 3 else .null)
    (and (compare .lt (column "x") (column "y"))
      (or (inList (column "x") [column "y", column "x"] false)
        (and (const .unknown) (const .false))))
    (by
      intro name hname
      simp [parts, partsUpTo, value, values, sqlCompare, truthValue, Comparison.test, Truth.ofBool,
        Truth.negateIf, Truth.any, Truth.or] at hname
      rcases hname with rfl | rfl | rfl | rfl | rfl <;> rfl)
    (by decide)).mpr (by decide) _ (mem_parts_self _)

/-- `NULL AND FALSE` is false, but evaluated to `NULL`. -/
theorem not_right_null_and_false :
    (and (const .unknown) (const .false)).Comparable (fun _ => .null) ∧
      (and (const .unknown) (const .false)).value (fun _ => .null) = .bool false ∧
      evalExpr ⟨fun _ _ _ => .error "", fun _ _ _ => false, fun _ => "", fun _ => "", fun v _ => .ok v,
        fun _ _ _ => .error ""⟩ [] [] (and (const .unknown) (const .false)).toExpr = .ok .null :=
  ⟨⟨rfl, rfl⟩, rfl, rfl⟩

end Logic

end PostgresRs.Exec
