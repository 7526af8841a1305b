import PostgresRs.Constraint.Relation
import PostgresRs.Exec.Coerce

/-!
# New rows

How a statement of `engine/src/executor.rs` makes a row: the values that are given go to their
columns, each in the form that its column stores, and `finish_insert_row` adds the defaults, the
numbers of serial columns and the generated columns.

* `givenRow` — the values of `VALUES` or of a query, and `NULL` for what is not given.
* `finishInsertRow` — the rest of the row, with the checks of single cells.
* `assign` — one item of the `SET` list of `ON CONFLICT DO UPDATE` and of `MERGE`.

What `next_sequence` gives for a serial column comes with the row (`Numbers`).
-/

namespace PostgresRs.Constraint

open Storage Exec List

/-- What the statements call on besides tables and constraints. -/
structure Environment where
  /-- What `eval_expr` calls on; its coercion is `coerce` below. -/
  externals : Externals
  normalizers : Normalizers
  /-- The labels of enumerations and the constraints of domains. -/
  enforceUserTypes : List Column → List Value → Except String Unit

def Environment.ext (env : Environment) : Externals :=
  { env.externals with coerce := Exec.coerce env.normalizers }

/-- The number that the sequence of a serial column gives, by the position of the column. -/
abbrev Numbers := Nat → Int

variable (env : Environment)

/-! ## The values that are given -/

variable (columns : List FullColumn)

/-- Put the value for a column into a row. -/
def setCell (row : List Value) (c : Nat) (v : Except String Value) :
    Except Failure (List Value) := do
  let v ← ofError v
  match columns[c]? with
  | none => throw .outOfBounds
  | some column =>
    let v ← ofError (env.ext.coerce v column.dataType)
    if c < row.length then return row.set c v else throw .outOfBounds

/-- A row with `NULL` for what is not given. -/
def givenRow (targets : List Nat)
    (values : List (Except String Value)) : Except Failure (List Value) :=
  (values.zip targets).foldlM (fun row p => setCell env columns row p.2 p.1)
    (List.replicate columns.length .null)

/-- Carry out one assignment, with the names and values that its expression may use. -/
def assign (names : List String) (values : List Value)
    (row : List Value) (a : String × Expr) : Except Failure (List Value) :=
  match columns.findIdx? (·.name == a.1) with
  | none => .error (.expect "assignment target checked above")
  | some idx => setCell env columns row idx (evalExpr env.ext names values a.2)

/-- The column of an assignment is there and not generated. -/
def checkAssignment (tableName : String) (columns : List FullColumn) (name : String) :
    Except Failure Unit :=
  match columns.find? (·.name == name) with
  | none => .error (.error s!"column \"{name}\" of relation \"{tableName}\" does not exist")
  | some column =>
    if column.generated.isSome then
      .error (.error (s!"column \"{name}\" can only be updated to DEFAULT because it is " ++
        "a generated column"))
    else .ok ()

/-! ## The rest of the row -/

/-- No cell of a row is bad. -/
def checkCells (row : List Value)
    (bad : Nat → FullColumn → Value → Bool) (message : String → String) : Except String Unit :=
  (columns.zip row).zipIdx.forM fun e =>
    if bad e.2 e.1.1 e.1.2 then .error (message e.1.1.name) else .ok ()

/-- The default of a column that no value is given for. -/
def defaultCell (targets : List Nat) (i : Nat) (column : FullColumn) (v : Value) :
    Except String Value :=
  if targets.contains i then .ok v
  else
    match column.default with
    | none => .ok v
    | some default => do
      let v ← evalExpr env.ext [] [] default
      env.ext.coerce v column.dataType

def defaultedRow (targets : List Nat) (row : List Value) : Except String (List Value) :=
  (columns.zip row).zipIdx.mapM fun e => defaultCell env targets e.2 e.1.1 e.1.2

/-- A serial column that has no value gets the next number. -/
def numberCell (numbers : Numbers) (i : Nat) (column : FullColumn) (v : Value) : Value :=
  if (column.serial || column.identity) && v.isNull then .int (numbers i) else v

def numberedRow (numbers : Numbers) (row : List Value) : List Value :=
  (columns.zip row).zipIdx.map fun e => numberCell numbers e.2 e.1.1 e.1.2

def checkNotNull (row : List Value) : Except String Unit :=
  checkCells columns row (fun _ c v => c.notNull && v.isNull)
    fun name => s!"null value in column \"{name}\" violates not-null constraint"

def finishInsertRow (targets : List Nat)
    (overridingSystemValue : Bool) (numbers : Numbers) (row : List Value) :
    Except String (List Value) := do
  checkCells columns row
    (fun i c v => c.generated.isSome && targets.contains i && !v.isNull)
    fun name => s!"cannot insert a non-DEFAULT value into column \"{name}\" because it is " ++
      "a generated column"
  checkCells columns row
    (fun i c v => c.identity && c.identityAlways && targets.contains i && !v.isNull &&
      !overridingSystemValue)
    fun name => s!"cannot insert a non-DEFAULT value into column \"{name}\" because it is " ++
      "an identity column defined as GENERATED ALWAYS"
  let row ← defaultedRow env columns targets row
  let row ← applyGeneratedColumns env.ext (columns.map FullColumn.toDef)
    (numberedRow columns numbers row)
  checkNotNull columns row
  return row

/-! ## What comes out -/

variable {env} {columns : List FullColumn} {targets : List Nat} {row row' : List Value}

variable {v : Except String Value} {c : Nat}

theorem setCell_eq_ok (h : setCell env columns row c v = .ok row') :
    ∃ given column stored, v = .ok given ∧ columns[c]? = some column ∧
      Exec.coerce env.normalizers given column.dataType = .ok stored ∧ c < row.length ∧
      row' = row.set c stored := by
  obtain ⟨given, hgiven, h⟩ := of_bind_eq_ok h
  split at h
  · cases h
  next column hcolumn =>
  obtain ⟨stored, hstored, h⟩ := of_bind_eq_ok h
  split at h
  · next hlt =>
    cases h
    exact ⟨given, column, stored, ofError_eq_ok hgiven, hcolumn, ofError_eq_ok hstored, hlt,
      rfl⟩
  · cases h

theorem length_setCell (h : setCell env columns row c v = .ok row') : row'.length = row.length := by
  obtain ⟨_, _, _, -, -, -, -, rfl⟩ := setCell_eq_ok h
  exact length_set

theorem length_givenRow {values : List (Except String Value)}
    (h : givenRow env columns targets values = .ok row) : row.length = columns.length :=
  foldlM_induction (P := fun _ row => row.length = columns.length) h length_replicate
    fun _ _ _ _ hlength hstep => (length_setCell hstep).trans hlength

variable {names : List String}

theorem assign_eq_ok {values : List Value} {a : String × Expr}
    (h : assign env columns names values row a = .ok row') :
    ∃ i column given stored, columns.findIdx? (·.name == a.1) = some i ∧
      columns[i]? = some column ∧ evalExpr env.ext names values a.2 = .ok given ∧
      Exec.coerce env.normalizers given column.dataType = .ok stored ∧ i < row.length ∧
      row' = row.set i stored := by
  rw [assign] at h
  split at h
  · cases h
  · next i hi =>
    obtain ⟨given, column, stored, hgiven, hcolumn, hstored, hlt, rfl⟩ := setCell_eq_ok h
    exact ⟨i, column, given, stored, hi, hcolumn, hgiven, hstored, hlt, rfl⟩

theorem checkCells_eq_ok_iff {bad : Nat → FullColumn → Value → Bool} {message : String → String} :
    checkCells columns row bad message = .ok () ↔
      ∀ i c v, columns[i]? = some c → row[i]? = some v → bad i c v = false := by
  rw [checkCells, forM_eq_ok_iff]
  constructor
  · intro h i c v hc hv
    have hmem : ((c, v), i) ∈ (columns.zip row).zipIdx :=
      mk_mem_zipIdx_iff_getElem?.mpr (getElem?_zip_eq_some.mpr ⟨hc, hv⟩)
    have := h _ hmem
    split at this
    · cases this
    · next hbad => exact Bool.eq_false_iff.mpr hbad
  · rintro h ⟨⟨c, v⟩, i⟩ hmem
    obtain ⟨hc, hv⟩ := getElem?_zip_eq_some.mp (mk_mem_zipIdx_iff_getElem?.mp hmem)
    rw [if_neg (Bool.eq_false_iff.mp (h i c v hc hv))]

variable {numbers : Numbers} {overridingSystemValue : Bool}

/-- What `finish_insert_row` adds to a row. -/
theorem finishInsertRow_eq_ok
    (h : finishInsertRow env columns targets overridingSystemValue numbers row = .ok row') :
    ∃ defaulted, defaultedRow env columns targets row = .ok defaulted ∧
      applyGeneratedColumns env.ext (columns.map FullColumn.toDef)
        (numberedRow columns numbers defaulted) = .ok row' ∧
      checkNotNull columns row' = .ok () := by
  obtain ⟨-, h⟩ := and_of_bind_eq_ok h
  obtain ⟨-, h⟩ := and_of_bind_eq_ok h
  obtain ⟨defaulted, hdefaulted, h⟩ := of_bind_eq_ok h
  obtain ⟨generated, hgenerated, h⟩ := of_bind_eq_ok h
  obtain ⟨hnull, h⟩ := and_of_bind_eq_ok h
  cases h
  exact ⟨defaulted, hdefaulted, hgenerated, hnull⟩

variable {defs : List Exec.ColumnDef} {ext : Externals}

theorem length_defaultedRow (hlength : row.length = columns.length)
    (h : defaultedRow env columns targets row = .ok row') : row'.length = columns.length := by
  rw [← (forall₂_of_mapM_eq_ok h).length_eq, length_zipIdx, length_zip, hlength, min_self]

end PostgresRs.Constraint
