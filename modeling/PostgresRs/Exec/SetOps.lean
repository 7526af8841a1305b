import PostgresRs.Sql.Equality
import PostgresRs.Sql.Query

/-!
# UNION, INTERSECT and EXCEPT

`apply_set_operation` of `engine/src/executor.rs` combines the rows of two queries.  SQL says how
often a row is in the result, by how often it is in the two operands (`sqlCount`).  The function
leaves one copy of a row for `INTERSECT ALL` and `EXCEPT ALL` as it does without `ALL`, so it agrees
with SQL if and only if one copy is all there should be (`occurs_applySetOperation_iff`).
-/

namespace PostgresRs.Exec

open List

abbrev Row := List Value

def distinctRows (rows : List Row) : List Row := distinct rowEq rows

def applySetOperation (left right : List Row) : SetOperator → Bool → List Row
  | .union, true => left ++ right
  | .union, false => distinctRows (left ++ right)
  | .intersect, _ =>
    let rightDistinct := distinctRows right
    (distinctRows left).filter fun row => rightDistinct.any (rowEq · row)
  | .except, _ =>
    let rightDistinct := distinctRows right
    (distinctRows left).filter fun row => !rightDistinct.any (rowEq · row)

/-! ## Counting -/

/-- How often a row is among others. -/
def occurs (v : Row) (rows : List Row) : Nat := rows.countP (rowEq v)

/-- How often SQL has a row in the result that is `m` times in the left operand and `n` times in the
right one. -/
def sqlCount (m n : Nat) : SetOperator → Bool → Nat
  | .union, true => m + n
  | .union, false => if 0 < m + n then 1 else 0
  | .intersect, true => min m n
  | .intersect, false => if 0 < m ∧ 0 < n then 1 else 0
  | .except, true => m - n
  | .except, false => if 0 < m ∧ n = 0 then 1 else 0

section Count

variable {rows left right : List Row} {v : Row}

theorem occurs_of_not_nanFree (hv : ¬NanFree v) (rows : List Row) : occurs v rows = 0 :=
  countP_eq_zero.mpr fun _ _ h => hv (nanFree_of_rowEq h).1

theorem occurs_distinctRows (hrows : ∀ row ∈ rows, NanFree row) (hv : NanFree v) :
    occurs v (distinctRows rows) = min 1 (occurs v rows) :=
  countP_distinct equivOn_rowEq hv hrows

/-- The test for a row among the distinct rows of the right operand. -/
theorem any_distinctRows (hrows : ∀ row ∈ rows, NanFree row) (hv : NanFree v) {row : Row}
    (hrow : NanFree row) (heq : rowEq v row = true) :
    (distinctRows rows).any (rowEq · row) = decide (0 < occurs v rows) := by
  rw [Bool.eq_iff_iff, any_eq_true, decide_eq_true_iff, occurs, countP_pos_iff]
  constructor
  · rintro ⟨x, hx, hxrow⟩
    have hmem := distinct_subset rows hx
    exact ⟨x, hmem, equivOn_rowEq.trans v row x hv hrow (hrows x hmem) heq
      (equivOn_rowEq.symm x row (hrows x hmem) hrow hxrow)⟩
  · rintro ⟨x, hx, hvx⟩
    obtain ⟨y, hy, hyx⟩ := exists_mem_distinct equivOn_rowEq hrows hx
    have hfree := hrows y (distinct_subset rows hy)
    exact ⟨y, hy, equivOn_rowEq.trans y x row hfree (hrows x hx) hrow hyx
      (equivOn_rowEq.trans x v row (hrows x hx) hv hrow
        (equivOn_rowEq.symm v x hv (hrows x hx) hvx) heq)⟩

/-- Rows that are kept by a test that is the same for all copies of a row. -/
theorem occurs_filter {p : Row → Bool} {b : Bool}
    (h : ∀ row ∈ rows, rowEq v row = true → p row = b) :
    occurs v (rows.filter p) = if b then occurs v rows else 0 := by
  rw [occurs, countP_filter]
  cases b with
  | true =>
    refine countP_congr fun row hrow => ?_
    rw [Bool.and_eq_true]
    exact ⟨fun hboth => hboth.1, fun heq => ⟨heq, h row hrow heq⟩⟩
  | false =>
    refine countP_eq_zero.mpr fun row hrow hboth => ?_
    rw [Bool.and_eq_true] at hboth
    exact Bool.false_ne_true ((h row hrow hboth.1).symm.trans hboth.2)

/-- How often a row is in the result. -/
theorem occurs_applySetOperation (hleft : ∀ row ∈ left, NanFree row)
    (hright : ∀ row ∈ right, NanFree row) (v : Row) (op : SetOperator) (all : Bool) :
    occurs v (applySetOperation left right op all) =
      sqlCount (occurs v left) (occurs v right) op (all && op == .union) := by
  by_cases hv : NanFree v
  · have hdistinct : ∀ row ∈ distinctRows left, NanFree row := fun row hrow =>
      hleft row (distinct_subset left hrow)
    have hany : ∀ row ∈ distinctRows left, rowEq v row = true →
        (distinctRows right).any (rowEq · row) = decide (0 < occurs v right) :=
      fun row hrow heq => any_distinctRows hright hv (hdistinct row hrow) heq
    cases op with
    | union =>
      have happend : occurs v (left ++ right) = occurs v left + occurs v right :=
        countP_append
      cases all with
      | true => exact happend
      | false =>
        rw [applySetOperation, occurs_distinctRows (forall_mem_append.mpr ⟨hleft, hright⟩) hv,
          happend]
        simp only [sqlCount, Bool.false_and]
        split <;> omega
    | intersect =>
      rw [applySetOperation, occurs_filter hany, occurs_distinctRows hleft hv,
        show (all && SetOperator.intersect == .union) = false from Bool.and_false all, sqlCount]
      simp only [decide_eq_true_eq]
      split <;> split <;> omega
    | except =>
      rw [applySetOperation, occurs_filter fun row hrow heq => congrArg _ (hany row hrow heq),
        occurs_distinctRows hleft hv,
        show (all && SetOperator.except == .union) = false from Bool.and_false all, sqlCount]
      simp only [Bool.not_eq_true', decide_eq_false_iff_not]
      split <;> split <;> omega
  · rw [occurs_of_not_nanFree hv, occurs_of_not_nanFree hv, occurs_of_not_nanFree hv]
    cases op <;> cases all <;> rfl

end Count

/-- **Rows are counted as in SQL** if and only if the operation is not `INTERSECT ALL` or
`EXCEPT ALL`, or one copy of each row is enough. -/
theorem occurs_applySetOperation_iff {left right : List Row} (hleft : ∀ row ∈ left, NanFree row)
    (hright : ∀ row ∈ right, NanFree row) (op : SetOperator) (all : Bool) :
    (∀ v, occurs v (applySetOperation left right op all) =
      sqlCount (occurs v left) (occurs v right) op all) ↔
    ((op = .intersect ∧ all = true → ∀ v, min (occurs v left) (occurs v right) ≤ 1) ∧
      (op = .except ∧ all = true → ∀ v, occurs v left ≤ max 1 (occurs v right))) := by
  simp only [occurs_applySetOperation hleft hright]
  cases all with
  | false => simp
  | true =>
    cases op with
    | union => simp
    | intersect =>
      simp only [sqlCount, reduceCtorEq, false_imp_iff, and_true, true_imp_iff]
      refine forall_congr' fun v => ?_
      show (if _ then 1 else 0) = _ ↔ _
      split <;> omega
    | except =>
      simp only [sqlCount, true_and, reduceCtorEq, false_and, false_imp_iff, true_imp_iff]
      refine forall_congr' fun v => ?_
      show (if _ then 1 else 0) = _ ↔ _
      split <;> omega

/-- Rows of one integer. -/
def intRows (ns : List Int) : List Row := ns.map fun n => [.int n]

theorem nanFree_intRows (ns : List Int) : ∀ row ∈ intRows ns, NanFree row := by
  intro row hrow
  obtain ⟨n, -, rfl⟩ := mem_map.mp hrow
  exact forall_mem_singleton.mpr rfl

/-- `UNION` of 1, 1, 2 and 2, 3. -/
theorem occurs_union_ints :
    (∀ row ∈ intRows [1, 1, 2], NanFree row) ∧ (∀ row ∈ intRows [2, 3], NanFree row) ∧
    ∀ v, occurs v (applySetOperation (intRows [1, 1, 2]) (intRows [2, 3]) .union false) =
      sqlCount (occurs v (intRows [1, 1, 2])) (occurs v (intRows [2, 3])) .union false :=
  ⟨nanFree_intRows _, nanFree_intRows _,
    (occurs_applySetOperation_iff (nanFree_intRows _) (nanFree_intRows _) .union false).mpr
      ⟨nofun, nofun⟩⟩

/-- `EXCEPT ALL` of 1, 1 and nothing should be 1, 1, and `INTERSECT ALL` of 1, 1 and 1, 1 as well.
-/
theorem not_occurs_all_ints :
    applySetOperation (intRows [1, 1]) [] .except true = intRows [1] ∧
    sqlCount (occurs [.int 1] (intRows [1, 1])) (occurs [.int 1] []) .except true = 2 ∧
    applySetOperation (intRows [1, 1]) (intRows [1, 1]) .intersect true = intRows [1] ∧
    sqlCount (occurs [.int 1] (intRows [1, 1])) (occurs [.int 1] (intRows [1, 1])) .intersect true =
      2 := by
  decide +kernel

end PostgresRs.Exec
