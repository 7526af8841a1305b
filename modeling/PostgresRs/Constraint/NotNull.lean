import PostgresRs.Constraint.Cells

/-!
# NOT NULL

Only the rows that `INSERT` and `MERGE` insert are checked for `NULL`s.  The other ways to write a
cell or to set the flag are not: `UPDATE`, `DO UPDATE` and the updates of `MERGE` store whatever is
assigned, `SET NOT NULL` does not look at the rows, and a new column that is `NOT NULL` is accepted
with any default.  `AvoidsNull` is the condition on a statement that none of them writes a `NULL`.
-/

namespace PostgresRs.Constraint

open Storage Exec

/-- A column that is `NOT NULL` stores no `NULL`. -/
def NotNullRule (c : Column) (v : Value) : Prop := c.notNull = true → v.isNull = false

theorem cellRule_notNullRule : CellRule NotNullRule where
  text _ _ _ _ _ := rfl
  column _ _ _ _ hflag hq hnull := (hflag hnull).elim hq id

/-- The statement writes no `NULL` to a column that is `NOT NULL`, other than in a row that it
inserts, and makes no column `NOT NULL` that has a `NULL`. -/
structure AvoidsNull (db : Database) (e : Event) : Prop where
  /-- `UPDATE`, `DO UPDATE` and `MERGE`, with the generated columns. -/
  assigned : ∀ name r pos stored p, e.command.Targets name → db.table name = some r →
    r.table.rows[pos]? = some stored →
    e.command.Updates e.env r pos (r.table.detoastRow stored) p →
    ∀ w ∈ Assignment.written (r.table.detoastRow stored) p, ∀ c,
      r.table.columns[w.1]? = some c → c.notNull = true → w.2.isNull = false
  /-- The default of a new column of a table with rows. -/
  default : ∀ call column ifNotExists r expr v, e.command = .alterTable call →
    call.stmt.action = .addColumn column ifNotExists → db.table call.stmt.table = some r →
    r.table.rows ≠ [] → column.notNull = true → column.default = some expr →
    evalExpr e.env.ext [] [] expr = .ok v → v.isNull = false
  /-- The values of a new generated column. -/
  generated : ∀ call column ifNotExists r expr row v, e.command = .alterTable call →
    call.stmt.action = .addColumn column ifNotExists → db.table call.stmt.table = some r →
    column.notNull = true → column.generated = some expr → row ∈ r.table.rows →
    evalExpr e.env.ext r.table.columnNames row expr = .ok v → v.isNull = false
  /-- `SET NOT NULL`. -/
  setNotNull : ∀ call column r idx, e.command = .alterTable call →
    call.stmt.action = .setColumnNotNull column true → db.table call.stmt.table = some r →
    r.table.columnIndex column = some idx → ∀ row ∈ r.table.rows, ∀ v,
      row[idx]? = some v → v.isNull = false

section Allowed

variable {env : Environment} {names : Names} {r : Relation} {column : ColumnDef} {default : Value}

/-- A row that has passed the check of `INSERT`. -/
theorem rowOk_of_checkNotNull {row : List Value} (h : checkNotNull r.columns row = .ok ()) :
    RowOk NotNullRule r.table.columns row := by
  intro i c v hc hv hnull
  rw [← Relation.map_toColumn_columns, List.getElem?_map] at hc
  obtain ⟨full, hfull, rfl⟩ := Option.map_eq_some_iff.mp hc
  simpa [hnull] using checkCells_eq_ok_iff.mp h i full v hfull hv

/-- The value of a new column for a row that is there. -/
theorem isNull_of_addedValues {numbers : Nat → Int} {values : Nat → Value}
    (hallowed : column.notNull = true → column.default.isSome = true ∨ column.serial = true ∨
      column.identity = true ∨ column.generated.isSome = true ∨ r.table.rows = [])
    (hdefault : addedDefault env names column = .ok default)
    (hvalues : addedValues env r numbers column default = .ok values)
    (hnull : column.notNull = true)
    (hgiven : ∀ expr v, column.default = some expr → evalExpr env.ext [] [] expr = .ok v →
      v.isNull = false)
    (hgenerated : ∀ expr row v, column.generated = some expr → row ∈ r.table.rows →
      evalExpr env.ext r.table.columnNames row expr = .ok v → v.isNull = false)
    {pos : Nat} (hpos : pos < r.table.rows.length) : (values pos).isNull = false := by
  rw [addedValues] at hvalues
  split at hvalues
  · cases hvalues
    rfl
  · next hserial =>
    split at hvalues
    · next hnone =>
      cases hvalues
      -- There are rows, so the column has a default.
      rcases hallowed hnull with hsome | hs | hi | hg | hrows
      · obtain ⟨expr, hexpr⟩ := Option.isSome_iff_exists.mp hsome
        rw [addedDefault, hexpr] at hdefault
        obtain ⟨v, hv, hdefault⟩ := of_bind_eq_ok hdefault
        rw [isNull_of_coerce (ofError_eq_ok hdefault)]
        exact hgiven expr v hexpr (ofError_eq_ok hv)
      · simp [hs] at hserial
      · simp [hi] at hserial
      · simp [hnone] at hg
      · simp [hrows] at hpos
    · next expr hexpr =>
      obtain ⟨vs, hvs, hvalues⟩ := of_bind_eq_ok hvalues
      cases hvalues
      have hrow := List.getElem?_eq_getElem hpos
      obtain ⟨v, hv, hcall⟩ := getElem?_of_mapM_eq_ok hvs hrow
      obtain ⟨given, hgivenv, hcall⟩ := of_bind_eq_ok hcall
      show (vs.getD pos .null).isNull = false
      rw [List.getD_eq_getElem?_getD, hv, Option.getD_some, isNull_of_coerce (ofError_eq_ok hcall)]
      exact hgenerated expr _ given hexpr (List.getElem_mem hpos) (ofError_eq_ok hgivenv)

/-- A statement that avoids `NULL`s keeps the rule. -/
theorem AvoidsNull.allows {db : Database} {e : Event} (h : AvoidsNull db e) :
    Allows NotNullRule db e where
  insert _ _ _ _ _ _ _ _ hcheck := rowOk_of_checkNotNull hcheck
  update := h.assigned
  addColumn call column ifNotExists r _ _ hcommand haction hr hdefault hallowed hvalues _ hpos
      hnull :=
    isNull_of_addedValues hallowed hdefault hvalues hnull
      (fun expr v => h.default call column ifNotExists r expr v hcommand haction hr
        (List.ne_nil_of_length_pos (Nat.zero_lt_of_lt hpos)) hnull)
      (fun expr row v => h.generated call column ifNotExists r expr row v hcommand haction hr hnull)
      hpos
  setNotNull call column r idx _ hcommand haction hr hidx _ row hrow v hv _ _ :=
    h.setNotNull call column r idx hcommand haction hr hidx row hrow v hv

end Allowed

variable {env : Environment} {names : Names} {db : Database}

/-- Of another statement than `ALTER TABLE` only the cells that it assigns matter. -/
theorem AvoidsNull.of_ne {cmd : Command} (hcmd : ∀ call, cmd ≠ .alterTable call)
    (h : ∀ name r pos stored p, cmd.Targets name → db.table name = some r →
      r.table.rows[pos]? = some stored → cmd.Updates env r pos (r.table.detoastRow stored) p →
      ∀ w ∈ Assignment.written (r.table.detoastRow stored) p, ∀ c,
        r.table.columns[w.1]? = some c → c.notNull = true → w.2.isNull = false) :
    AvoidsNull db ⟨env, names, cmd⟩ where
  assigned := h
  default call _ _ _ _ _ heq := absurd heq (hcmd call)
  generated call _ _ _ _ _ _ heq := absurd heq (hcmd call)
  setNotNull call _ _ _ heq := absurd heq (hcmd call)

theorem avoidsNull_createTable (c : CreateTable) : AvoidsNull db ⟨env, names, .createTable c⟩ :=
  .of_ne (fun _ => Command.noConfusion) fun _ _ _ _ _ h => h.elim

/-- Without `ON CONFLICT` an `INSERT` assigns nothing to the rows that are there. -/
theorem avoidsNull_insert {call : InsertCall} (h : call.stmt.onConflict = none) :
    AvoidsNull db ⟨env, names, .insert call⟩ := by
  refine .of_ne (fun _ => Command.noConfusion) fun _ _ _ _ _ _ _ _ hupdates => ?_
  obtain ⟨_, _, _, _, _, hconflict, -⟩ := hupdates
  exact nomatch h.symm.trans hconflict

/-- **`NOT NULL` holds** after every run of statements that avoid `NULL`s. -/
theorem notNull_holds {es : List Event} (h : Machine.Always step AvoidsNull .empty es) :
    ∀ name r, (Machine.run step .empty es).table name = some r → ∀ row ∈ r.table.rows,
      ∀ i c, r.table.columns[i]? = some c → c.notNull = true → (valueAt row i).isNull = false := by
  have hholds : (Machine.run step .empty es).Holds NotNullRule :=
    h.run_induction Database.Holds.empty fun _ _ hholds havoids =>
      hholds.step cellRule_notNullRule havoids.allows
  intro name r hr row hrow i c hc hnull
  have hlt : i < row.length :=
    (hholds name r hr).fits.rows row hrow ▸ (List.getElem?_eq_some_iff.mp hc).1
  exact (hholds name r hr).cells row hrow i c _ hc (getElem?_eq_valueAt hlt) hnull

/-- `CREATE TABLE t (a int8 NOT NULL, b int8)` and `INSERT INTO t VALUES (1, 2)`. -/
def oneNotNull : List Event :=
  [bareEvent (.createTable
      { createInts "t" [] [] with
        columns := [{ intColumn "a" with notNull := true }, intColumn "b"] }),
    bareEvent (.insert (insertInts "t" [[1, 2]]))]

/-- `UPDATE t SET a = value` of the first row. -/
def setA (value : Expr) : Event := bareEvent (.update (updateAt "t" [("a", value)] [0]))

/-- A column that is `NOT NULL` is set to another number. -/
theorem notNull_holds_set :
    let es := oneNotNull ++ [setA (.int 5)]
    Machine.Always step Succeeds .empty es ∧ ∀ r ∈ (Machine.run step .empty es).table "t",
      ∀ row ∈ r.table.rows, (valueAt row 0).isNull = false := by
  refine ⟨by decide +kernel, fun r hr row hrow => ?_⟩
  have hwritten : ∀ r ∈ (Machine.run step .empty oneNotNull).table "t",
      ∀ stored ∈ r.table.rows,
      ∀ targets ∈ (resolveTargets "t" (r.columns.map FullColumn.toDef) [("a", .int 5)]).toOption,
      ∀ w ∈ Assignment.written (r.table.detoastRow stored)
        (updateProgram bareEnvironment r.columns [] none targets), w.2.isNull = false := by
    decide +kernel
  have hcolumn : ∀ r ∈ (Machine.run step .empty (oneNotNull ++ [setA (.int 5)])).table "t",
      r.table.columns[0]? = some ⟨"a", .int8, true⟩ := by decide +kernel
  have hset : AvoidsNull (Machine.run step .empty oneNotNull) (setA (.int 5)) := by
    refine .of_ne (fun _ => Command.noConfusion) ?_
    rintro _ r pos stored p rfl hr hstored ⟨_, targets, _, hassigned, htargets, hselected, rfl⟩
    cases hassigned
    cases hselected
    intro w hw c _ _
    refine hwritten r hr stored (List.mem_of_getElem? hstored) targets ?_ w hw
    rw [show resolveTargets "t" _ _ = _ from htargets]
    rfl
  refine @notNull_holds (oneNotNull ++ [setA (.int 5)]) ?_ "t" r hr row hrow 0 _ (hcolumn r hr) rfl
  exact ⟨avoidsNull_createTable _, avoidsNull_insert rfl, hset, trivial⟩

/-- `UPDATE t SET a = NULL` succeeds. -/
theorem not_notNull_holds_set :
    let es := oneNotNull ++ [setA .null]
    Machine.Always step Succeeds .empty es ∧ ∃ r,
      (Machine.run step .empty es).table "t" = some r ∧
        (r.table.columns[0]?.map Column.notNull = some true) ∧
        r.table.rows = [[.null, .int 2]] :=
  ⟨by decide +kernel, _, rfl, rfl, rfl⟩

end PostgresRs.Constraint
