import PostgresRs.Exec.Eval
import PostgresRs.Storage.Lookup

/-!
# Index scans

How `engine/src/executor.rs` looks for the rows of a `WHERE` with an index: `plan_index_access`,
`advanced_index_positions`, `gin_index_positions` and `index_candidate_positions`.  The source looks
up as it goes along; here the planner says which index is used and what is looked up in it
(`indexAccess`), and `indexCandidatePositions` looks it up.
-/

namespace PostgresRs

open List Option

def IndexMethod.isOrdered : IndexMethod → Bool
  | .btree | .gist | .spGist => true
  | .hash | .brin | .gin => false

namespace Storage
namespace Table

/-! ## Indexes of a table -/

variable (t : Table)

def columnIndex (name : String) : Option Nat := t.columns.findIdx? (·.name == name)

/-- The last of the indexes, or the first one that is unique. -/
def preferred (indexes : List Index) : Option Index :=
  indexes.foldl (fun chosen idx => if chosen.any (·.unique) then chosen else some idx) none

/-- An index over one column, without an expression and a predicate. -/
def isPlainOn (column : Nat) (idx : Index) : Bool :=
  idx.columns == [column] && idx.expr.isNone && idx.predicate.isNone

/-- The index for ranges of a column. -/
def indexOn (column : Nat) : Option Index :=
  preferred (t.indexes.filter fun idx =>
    isPlainOn column idx && (idx.method.isOrdered || idx.method == .brin))

/-- The index for values of a column. -/
def eqIndexOn (column : Nat) : Option Index :=
  preferred (t.indexes.filter (isPlainOn column))

def ginIndexOn (column : Nat) : Option Index :=
  t.indexes.find? fun idx => isPlainOn column idx && idx.method == .gin

def positionOf (id : RowId) : Option Nat := t.rowPos.lookup id

def idsToPositions (ids : List RowId) : List Nat := ids.filterMap t.positionOf

theorem preferred_mem {indexes : List Index} {idx : Index} (h : preferred indexes = some idx) :
    idx ∈ indexes := by
  refine List.foldlRecOn indexes _ (b := none) (motive := fun chosen => chosen = some idx → _) nofun
    (fun chosen hchosen idx' hidx' h => ?_) h
  split at h
  · exact hchosen h
  · exact Option.some.inj h ▸ hidx'

/-- Each index has one entry for each row that it has a key for, and no others, but a hash index
none for a key with a `NULL`; it is laid out as its method says, and ids are mapped to positions. -/
structure Maintained (eval : EvalExpr) (t : Table) : Prop where
  length : t.rows.length = t.rowIds.length
  position : ∀ id pos, t.positionOf id = some pos ↔ t.rowIds[pos]? = some id
  layout : ∀ idx ∈ t.indexes, idx.store.layout = (Store.empty idx.method).layout
  holds : ∀ idx ∈ t.indexes, ∀ e ∈ t.view, ∃ key, t.entryKey eval idx e.2 = .ok key ∧
    idx.store.HoldsOnly e.1 (idx.store.kept key)
  lacks : ∀ idx ∈ t.indexes, ∀ id ∉ t.rowIds, idx.store.Lacks id

theorem Maintained.nodup_allRowIds {eval : EvalExpr} {t : Table} (h : t.Maintained eval) {idx : Index}
    (hidx : idx ∈ t.indexes) : idx.store.allRowIds.Nodup := by
  refine Store.nodup_allRowIds fun id => ?_
  by_cases hid : id ∈ t.rowIds
  · obtain ⟨pos, hpos⟩ := List.mem_iff_getElem?.mp hid
    have hlt : pos < t.rows.length := h.length ▸ (List.getElem?_eq_some_iff.mp hpos).1
    obtain ⟨key, -, hkey⟩ := h.holds idx hidx (id, t.detoastRow t.rows[pos]) (List.mem_of_getElem?
      (Table.view_getElem?_eq_some.mpr ⟨_, List.getElem?_eq_getElem hlt, hpos, rfl⟩))
    generalize idx.store.kept key = kept at hkey
    cases kept with
    | none => exact .inl hkey
    | some k => exact .inr ⟨k, hkey⟩
  · exact .inl (h.lacks idx hidx id hid)

/-- The maps of an index are sorted, and where it compares keys, these are in a set `K` on which its
comparison is an order. -/
structure Sorted (K : Value → Prop) (eval : EvalExpr) (t : Table) (idx : Index) : Prop where
  order : Buckets.OrderOn K IndexKey.cmpValue
  lawful : idx.store.Lawful fun key => ∀ v ∈ key, K v
  keys : idx.store.compares = true → ∀ e ∈ t.view, ∀ k, t.entryKey eval idx e.2 = .ok (some k) →
    ∀ v ∈ k, K v

end Table
end Storage

namespace Exec

open Storage IndexKey

section Planner

variable [BEq Expr] (ext : Externals) (t : Table)

/-! ## The planner -/

/-- What a condition asks of one column. -/
inductive IndexPlan where
  | eq (value : Value)
  | «in» (values : List Value)
  | range (lo hi : Option Bound)

/-- The column that an expression refers to, whatever its qualifier. -/
def columnIndexOf : Expr → Option Nat
  | .column name => t.columnIndex name
  | .qualifiedColumn _ name => t.columnIndex name
  | _ => none

/-- The value of a constant. -/
def constValue (e : Expr) : Option Value :=
  match e with
  | .int _ | .float _ | .str _ | .bool _ | .null | .unary _ _ | .cast _ _ =>
    (evalExpr ext [] [] e).toOption
  | _ => none

/-- A column on one side and a constant on the other; `f` makes the plan if the column is on the
left, `g` if it is on the right. -/
def columnAndConst (left right : Expr) (f g : Value → IndexPlan) : Option (Nat × IndexPlan) :=
  match columnIndexOf t left, constValue ext right with
  | some col, some v => some (col, f v)
  | _, _ =>
    match columnIndexOf t right, constValue ext left with
    | some col, some v => some (col, g v)
    | _, _ => none

def ltPlan (inclusive : Bool) (v : Value) : IndexPlan := .range none (some ⟨v, inclusive⟩)

def gtPlan (inclusive : Bool) (v : Value) : IndexPlan := .range (some ⟨v, inclusive⟩) none

/-- The first condition of a conjunction that asks something of one column. -/
def planIndexAccess : Expr → Option (Nat × IndexPlan)
  | .binary .eq left right => columnAndConst ext t left right .eq .eq
  | .binary .lt left right => columnAndConst ext t left right (ltPlan false) (gtPlan false)
  | .binary .ltEq left right => columnAndConst ext t left right (ltPlan true) (gtPlan true)
  | .binary .gt left right => columnAndConst ext t left right (gtPlan false) (ltPlan false)
  | .binary .gtEq left right => columnAndConst ext t left right (gtPlan true) (ltPlan true)
  | .inList expr list false => do
    let col ← columnIndexOf t expr
    let values ← list.mapM (constValue ext)
    return (col, .in values)
  | .between expr low high false => do
    let col ← columnIndexOf t expr
    let lo ← constValue ext low
    let hi ← constValue ext high
    return (col, .range (some ⟨lo, true⟩) (some ⟨hi, true⟩))
  | .binary .and left right => planIndexAccess left <|> planIndexAccess right
  | _ => none

/-- The parts of a conjunction. -/
def andConjuncts : Expr → List Expr
  | .binary .and left right => andConjuncts left ++ andConjuncts right
  | e => [e]

/-- The value that a condition equates a column with. -/
def eqFact : Expr → Option (Nat × Value)
  | .binary .eq left right =>
    match columnIndexOf t left, constValue ext right with
    | some col, some v => some (col, v)
    | _, _ =>
      match columnIndexOf t right, constValue ext left with
      | some col, some v => some (col, v)
      | _, _ => none
  | _ => none

def eqPair : Expr → Option (Expr × Expr)
  | .binary .eq left right => some (left, right)
  | _ => none

/-- The elements of an array text between the braces; an unquoted `NULL` is none. -/
def arrayElement (raw : List Char) (wasQuoted : Bool) : Option (List Char) :=
  if !wasQuoted && raw.map Char.toLower == "null".toList then none else some raw

def arrayScan (cur : List Char) (quoted wasQuoted escape : Bool) :
    List Char → List (Option (List Char))
  | [] => [arrayElement cur wasQuoted]
  | ch :: cs =>
    if escape then arrayScan (cur ++ [ch]) quoted wasQuoted false cs
    else if quoted then
      if ch = '\\' then arrayScan cur true wasQuoted true cs
      else if ch = '"' then arrayScan cur false wasQuoted false cs
      else arrayScan (cur ++ [ch]) true wasQuoted false cs
    else if ch = '"' then arrayScan cur true true false cs
    else if ch = ',' then arrayElement cur wasQuoted :: arrayScan [] false false false cs
    else arrayScan (cur ++ [ch]) false wasQuoted false cs

def parseArrayText (text : List Char) : Option (List (Option (List Char))) :=
  if text.head? ≠ some '\x7b' ∨ text.getLast? ≠ some '\x7d' then none
  else if text.length = 2 then some []
  else some (arrayScan [] false false false (text.drop 1).dropLast)

/-- A condition `column @> constant` on a column with a GIN index. -/
def ginAccess : Expr → Option (Index × Probe)
  | .binary .arrayContains left right => do
    let col ← columnIndexOf t left
    let column ← t.columns[col]?
    guard (column.dataType ≠ .jsonb)
    let idx ← t.ginIndexOn col
    let rhs ← (evalExpr ext [] [] right).toOption
    let text ← rhs.toText
    let elems ← parseArrayText text
    let needles := elems.filterMap id
    -- An index of another layout has nothing to say about elements.
    let _ ← idx.store.lookupGinContains needles
    return (idx, .contains needles)
  | _ => none

/-- What the equalities `facts` and `pairs` of a conjunction ask of one index with several columns,
an expression or a predicate. -/
def advancedAccess (conjuncts : List Expr) (facts : List (Nat × Value)) (pairs : List (Expr × Expr))
    (idx : Index) : Option (Index × Probe) :=
  -- The predicate of a partial index must be one of the conditions.
  if idx.predicate.any fun pred => !conjuncts.contains pred then none
  else
    match idx.expr with
    | some iexpr =>
      pairs.findSome? fun (l, r) =>
        let key :=
          if l == iexpr then constValue ext r else if r == iexpr then constValue ext l else none
        key.map fun v => (idx, .eq [v])
    | none =>
      match idx.columns with
      | [col] =>
        if idx.predicate.isNone then none
        else
          match List.lookup col facts with
          | some v => some (idx, .eq [v])
          | none => some (idx, .all)
      | columns =>
        let key := ((columns.map (List.lookup · facts)).takeWhile Option.isSome).filterMap id
        if key.isEmpty then none
        else if key.length = columns.length then some (idx, .eq key)
        else if idx.method.isOrdered then some (idx, .leading key)
        else none

def advancedIndexAccess (filter : Expr) : Option (Index × Probe) :=
  let conjuncts := andConjuncts filter
  conjuncts.findSome? (ginAccess ext t) <|>
    t.indexes.findSome? (advancedAccess ext conjuncts (conjuncts.filterMap (eqFact ext t))
      (conjuncts.filterMap eqPair))

/-- The index that is used for a condition, and what is looked up in it. -/
def indexAccess (filter : Expr) : Option (Index × Probe) :=
  advancedIndexAccess ext t filter <|> do
    let (col, plan) ← planIndexAccess ext t filter
    let ranged ← t.indexOn col
    match plan with
    -- An index for ranges is one for values too, so there always is one here.
    | .eq v => return (← t.eqIndexOn col, .eq [v])
    | .in values => return (← t.eqIndexOn col, .oneOf values)
    | .range lo hi => return (ranged, .range lo hi)

/-- The positions of the rows that an index finds for a condition, each once. -/
def indexCandidatePositions (filter : Expr) : Except RangePanic (Option (List Nat)) :=
  match indexAccess ext t filter with
  | none => .ok none
  | some (idx, probe) => do
    let ids ← idx.store.lookup probe
    return some (t.idsToPositions ids).eraseDups

/-- The positions that `UPDATE` and `DELETE` look at. -/
def candidatePositions (filter : Option Expr) : Except RangePanic (List Nat) := do
  match filter with
  | none => return List.range t.rows.length
  | some pred =>
    match ← indexCandidatePositions ext t pred with
    | some positions => return positions
    | none => return List.range t.rows.length

end Planner

/-! ## The index that is used -/

/-- What a plan for one column looks up. -/
def IndexPlan.probe : IndexPlan → Probe
  | eq v => .eq [v]
  | «in» values => .oneOf values
  | range lo hi => .range lo hi

section Used

variable {ext : Externals} {t : Table} {filter : Expr} {idx : Index} {probe : Probe}

theorem ginAccess_eq_some {e : Expr} (h : ginAccess ext t e = some (idx, probe)) :
    ∃ left right col, e = .binary .arrayContains left right ∧ columnIndexOf t left = some col ∧
      idx ∈ t.indexes ∧ Table.isPlainOn col idx = true ∧ idx.method = .gin ∧
        ∃ needles, probe = .contains needles := by
  rw [ginAccess.eq_def] at h
  split at h
  · next left right =>
    simp only [bind_eq_bind, bind_eq_some_iff] at h
    obtain ⟨col, hcol, column, -, -, -, idx', hidx', rhs, -, text, -, elems, -, found, -, heq⟩ := h
    cases heq
    have hgin := find?_some hidx'
    rw [Bool.and_eq_true, beq_iff_eq] at hgin
    exact ⟨left, right, col, rfl, hcol, mem_of_find?_eq_some hidx', hgin.1, hgin.2, _, rfl⟩
  · cases h

theorem advancedAccess_fst [BEq Expr] {conjuncts : List Expr} {facts : List (Nat × Value)}
    {pairs : List (Expr × Expr)} {idx' : Index}
    (h : advancedAccess ext conjuncts facts pairs idx' = some (idx, probe)) : idx = idx' := by
  rw [advancedAccess] at h
  split at h
  · cases h
  split at h
  · obtain ⟨pair, -, hpair⟩ := exists_of_findSome?_eq_some h
    obtain ⟨v, -, heq⟩ := map_eq_some_iff.mp hpair
    cases heq
    rfl
  · grind

/-- The three ways in which an index comes to be used. -/
theorem indexAccess_cases [BEq Expr] (h : indexAccess ext t filter = some (idx, probe)) :
    idx ∈ t.indexes ∧
      ((∃ e ∈ andConjuncts filter, ginAccess ext t e = some (idx, probe)) ∨
        advancedAccess ext (andConjuncts filter) ((andConjuncts filter).filterMap (eqFact ext t))
          ((andConjuncts filter).filterMap eqPair) idx = some (idx, probe) ∨
        ∃ col plan, planIndexAccess ext t filter = some (col, plan) ∧ probe = plan.probe ∧
          Table.isPlainOn col idx = true ∧
            ∀ lo hi, plan = .range lo hi → idx.method.isOrdered = true ∨ idx.method = .brin) := by
  rw [indexAccess, orElse_eq_some] at h
  rcases h with h | ⟨-, h⟩
  · rw [advancedIndexAccess, orElse_eq_some] at h
    rcases h with h | ⟨-, h⟩
    · obtain ⟨e, he, h⟩ := exists_of_findSome?_eq_some h
      obtain ⟨left, right, col, -, -, hmem, -⟩ := ginAccess_eq_some h
      exact ⟨hmem, .inl ⟨e, he, h⟩⟩
    · obtain ⟨idx', hidx', h⟩ := exists_of_findSome?_eq_some h
      obtain rfl := advancedAccess_fst h
      exact ⟨hidx', .inr (.inl h)⟩
  · have hpreferred : ∀ {p : Index → Bool} {idx : Index},
        Table.preferred (t.indexes.filter p) = some idx → idx ∈ t.indexes ∧ p idx = true := fun h =>
      mem_filter.mp (Table.preferred_mem h)
    simp only [bind_eq_bind, bind_eq_some_iff] at h
    obtain ⟨⟨col, plan⟩, hplan, ranged, hranged, h⟩ := h
    cases plan with
    | range lo hi =>
      cases h
      obtain ⟨hmem, hp⟩ := hpreferred hranged
      rw [Bool.and_eq_true, Bool.or_eq_true, beq_iff_eq] at hp
      exact ⟨hmem, .inr (.inr ⟨col, _, hplan, rfl, hp.1, fun _ _ _ => hp.2⟩)⟩
    | _ =>
      obtain ⟨idx', hidx', heq⟩ := bind_eq_some_iff.mp h
      cases heq
      obtain ⟨hmem, hp⟩ := hpreferred hidx'
      exact ⟨hmem, .inr (.inr ⟨col, _, hplan, rfl, hp, nofun⟩)⟩

end Used

/-- The evaluation of the expressions of an index. -/
def evalIndex (ext : Externals) : EvalExpr := fun e names row =>
  (evalExpr ext names row e).toOption

end Exec
end PostgresRs
