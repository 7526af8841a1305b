import PostgresRs.Constraint.Cells
import PostgresRs.Server.Encode

/-!
# The range of stored integers

`coerce` takes an integer for a column of any integer type as it is, and no other code that writes a
cell looks at its range.  `StaysInRange` is the condition on a statement that the integers it writes
are in the range of their columns.  Then all stored integers are, and the binary format shows them
as they are (`integers_fit`).
-/

namespace PostgresRs.Constraint

open Storage Exec

/-- A column stores integers of the range of its type. -/
def RangeRule (c : Column) (v : Value) : Prop := inRange c.dataType v = true

theorem cellRule_rangeRule : CellRule RangeRule where
  text _ _ _ _ := rfl
  column _ _ _ htype _ hq := by
    rw [RangeRule, htype]
    exact hq

/-- The integers that the statement writes are in the range of the types of their columns. -/
structure StaysInRange (db : Database) (e : Event) : Prop where
  /-- The values that are given for an inserted row, its defaults, the numbers that are drawn for it
  and its generated columns. -/
  inserted : ∀ name r p, e.command.Targets name → db.table name = some r →
    e.command.Inserts e.env r p →
    ∀ w ∈ Assignment.written (List.replicate r.columns.length .null) p, ∀ c,
      r.table.columns[w.1]? = some c → inRange c.dataType w.2 = true
  /-- `UPDATE`, `DO UPDATE` and `MERGE`, with the generated columns. -/
  assigned : ∀ name r pos stored p, e.command.Targets name → db.table name = some r →
    r.table.rows[pos]? = some stored →
    e.command.Updates e.env r pos (r.table.detoastRow stored) p →
    ∀ w ∈ Assignment.written (r.table.detoastRow stored) p, ∀ c,
      r.table.columns[w.1]? = some c → inRange c.dataType w.2 = true
  /-- The numbers of a new serial column. -/
  drawn : ∀ call column ifNotExists r pos, e.command = .alterTable call →
    call.stmt.action = .addColumn column ifNotExists → db.table call.stmt.table = some r →
    pos < r.table.rows.length → (column.serial || column.identity) = true →
    inRange (columnFromDef e.names column).dataType (.int (call.numbers pos)) = true
  /-- The default of a new column. -/
  default : ∀ call column ifNotExists expr v v', e.command = .alterTable call →
    call.stmt.action = .addColumn column ifNotExists → column.default = some expr →
    evalExpr e.env.ext [] [] expr = .ok v →
    e.env.ext.coerce v (columnFromDef e.names column).dataType = .ok v' →
    inRange (columnFromDef e.names column).dataType v' = true
  /-- The values of a new generated column. -/
  generated : ∀ call column ifNotExists r expr row v v', e.command = .alterTable call →
    call.stmt.action = .addColumn column ifNotExists → db.table call.stmt.table = some r →
    column.generated = some expr → row ∈ r.table.rows →
    evalExpr e.env.ext r.table.columnNames row expr = .ok v →
    e.env.ext.coerce v column.dataType = .ok v' →
    inRange (columnFromDef e.names column).dataType v' = true

variable {db : Database} {env : Environment} {names : Names}

/-- A statement that stays in range keeps the rule. -/
theorem StaysInRange.allows {e : Event} (h : StaysInRange db e) : Allows RangeRule db e where
  insert name r p row htarget hr hinserts hrun _ := by
    refine RowOk.run (fun i c v _ hv => ?_) (h.inserted name r p htarget hr hinserts) hrun
    rw [List.eq_of_mem_replicate (List.mem_of_getElem? hv)]
    rfl
  update := h.assigned
  addColumn call column ifNotExists r default values hcommand haction hr hdefault _ hvalues pos
      hpos := by
    rw [addedValues] at hvalues
    split at hvalues
    · next hserial =>
      cases hvalues
      exact h.drawn call column ifNotExists r pos hcommand haction hr hpos hserial
    · split at hvalues
      · cases hvalues
        rw [addedDefault.eq_def] at hdefault
        split at hdefault
        · cases hdefault
          rfl
        · next expr hexpr =>
          obtain ⟨v, hv, hdefault⟩ := of_bind_eq_ok hdefault
          exact h.default call column ifNotExists expr v default hcommand haction hexpr
            (ofError_eq_ok hv) (ofError_eq_ok hdefault)
      · next expr hexpr =>
        obtain ⟨vs, hvs, hvalues⟩ := of_bind_eq_ok hvalues
        cases hvalues
        obtain ⟨v, hv, hcall⟩ := getElem?_of_mapM_eq_ok hvs (List.getElem?_eq_getElem hpos)
        obtain ⟨given, hgiven, hcall⟩ := of_bind_eq_ok hcall
        show inRange _ (vs.getD pos .null) = true
        rw [List.getD_eq_getElem?_getD, hv]
        exact h.generated call column ifNotExists r expr _ given v hcommand haction hr hexpr
          (List.getElem_mem hpos) (ofError_eq_ok hgiven) (ofError_eq_ok hcall)
  setNotNull _ _ _ _ _ _ _ _ _ _ _ _ _ _ hq := hq

/-- Of another statement than `ALTER TABLE` only the rows that it writes matter. -/
theorem StaysInRange.of_ne {cmd : Command} (hcmd : ∀ call, cmd ≠ .alterTable call)
    (hinserted : ∀ name r p, cmd.Targets name → db.table name = some r → cmd.Inserts env r p →
      ∀ w ∈ Assignment.written (List.replicate r.columns.length .null) p, ∀ c,
        r.table.columns[w.1]? = some c → inRange c.dataType w.2 = true)
    (hassigned : ∀ name r pos stored p, cmd.Targets name → db.table name = some r →
      r.table.rows[pos]? = some stored → cmd.Updates env r pos (r.table.detoastRow stored) p →
      ∀ w ∈ Assignment.written (r.table.detoastRow stored) p, ∀ c,
        r.table.columns[w.1]? = some c → inRange c.dataType w.2 = true) :
    StaysInRange db ⟨env, names, cmd⟩ where
  inserted := hinserted
  assigned := hassigned
  drawn call _ _ _ _ heq := absurd heq (hcmd call)
  default call _ _ _ _ _ heq := absurd heq (hcmd call)
  generated call _ _ _ _ _ _ _ heq := absurd heq (hcmd call)

theorem staysInRange_createTable (c : CreateTable) : StaysInRange db ⟨env, names, .createTable c⟩ :=
  .of_ne (fun _ => Command.noConfusion) (fun _ _ _ h => h.elim) fun _ _ _ _ _ h => h.elim

/-- Without `ON CONFLICT` an `INSERT` assigns nothing to the rows that are there. -/
theorem staysInRange_insert {call : InsertCall} (hconflict : call.stmt.onConflict = none)
    (h : ∀ r, db.table call.stmt.table = some r → ∀ p, call.Inserts env r p →
      ∀ w ∈ Assignment.written (List.replicate r.columns.length .null) p, ∀ c,
        r.table.columns[w.1]? = some c → inRange c.dataType w.2 = true) :
    StaysInRange db ⟨env, names, .insert call⟩ := by
  refine .of_ne (fun _ => Command.noConfusion) (fun name r p htarget hr => ?_)
    fun _ _ _ _ _ _ _ _ hupdates => ?_
  · cases htarget
    exact h r hr p
  · obtain ⟨_, _, _, _, _, hsome, -⟩ := hupdates
    exact nomatch hconflict.symm.trans hsome

/-- **Stored integers fit their type** after every run of statements that stay in range, so that the
binary format shows them as they are. -/
theorem integers_fit {es : List Event} (h : Machine.Always step StaysInRange .empty es) :
    ∀ name r, (Machine.run step .empty es).table name = some r → ∀ row ∈ r.table.rows,
      ∀ (i : Nat) c n, r.table.columns[i]? = some c → row[i]? = some (.int n) →
        (c.dataType = .int2 → -32768 ≤ n ∧ n ≤ 32767) ∧
        (c.dataType = .int4 → -2147483648 ≤ n ∧ n ≤ 2147483647) ∧
        (c.dataType = .int2 ∨ c.dataType = .int4 →
          (encodeValue (.int n) c.dataType 1).map (decodeBinaryValue · c.dataType) =
            some (.ok (.int n))) := by
  have hholds : (Machine.run step .empty es).Holds RangeRule :=
    h.run_induction Database.Holds.empty fun _ _ hholds hstays =>
      hholds.step cellRule_rangeRule hstays.allows
  intro name r hr row hrow i c n hc hv
  have hrange := (hholds name r hr).cells row hrow i c _ hc hv
  refine ⟨fun htype => ?_, fun htype => ?_, fun htype => ?_⟩
  · simpa [RangeRule, htype, inRange] using hrange
  · simpa [RangeRule, htype, inRange] using hrange
  · exact (decodeBinaryValue_encodeValue_iff htype (by decide)).mpr hrange

/-- `CREATE TABLE t (a int2)` and `INSERT INTO t VALUES (n)`. -/
def smallInt (n : Int) : List Event :=
  [bareEvent (.createTable
      { createInts "t" [] [] with columns := [{ intColumn "a" with dataType := .int2 }] }),
    bareEvent (.insert (insertInts "t" [[n]]))]

/-- A number of two bytes. -/
theorem integers_fit_small :
    Machine.Always step Succeeds .empty (smallInt 5) ∧ ∃ r,
      (Machine.run step .empty (smallInt 5)).table "t" = some r ∧ r.table.rows = [[.int 5]] ∧
        (encodeValue (.int 5) .int2 1).map (decodeBinaryValue · .int2) = some (.ok (.int 5)) := by
  have hwritten : ∀ r ∈ (Machine.run step .empty ((smallInt 5).take 1)).table "t",
      r.table.columns = [⟨"a", .int2, false⟩] ∧
      ∀ targets ∈ (insertTargets (insertInts "t" [[5]]).stmt r.columns).toOption,
      ∀ inputs ∈ ((insertInts "t" [[5]]).inputRows bareEnvironment).toOption,
      ∀ values ∈ inputs,
      ∀ w ∈ Assignment.written (List.replicate r.columns.length .null)
        (insertProgram bareEnvironment r.columns targets values fun _ => 0),
      w.1 = 0 ∧ inRange .int2 w.2 = true := by decide +kernel
  have hinsert : StaysInRange (Machine.run step .empty ((smallInt 5).take 1))
      (bareEvent (.insert (insertInts "t" [[5]]))) := by
    refine staysInRange_insert rfl ?_
    rintro r hr p ⟨targets, inputs, i, values, htargets, hinputs, hvalues, rfl⟩ w hw c hc
    obtain ⟨hcolumns, hall⟩ := hwritten r hr
    obtain ⟨hzero, hrange⟩ := hall targets (by rw [htargets]; rfl) inputs (by rw [hinputs]; rfl)
      values (List.mem_of_getElem? hvalues) w hw
    rw [hcolumns, hzero] at hc
    cases hc
    exact hrange
  have hstored : ∃ r, (Machine.run step .empty (smallInt 5)).table "t" = some r ∧
      r.table.rows = [[.int 5]] ∧ r.table.columns = [⟨"a", .int2, false⟩] := ⟨_, rfl, rfl, rfl⟩
  obtain ⟨r, hr, hrows, hcolumns⟩ := hstored
  refine ⟨by decide +kernel, r, hr, hrows, ?_⟩
  exact (@integers_fit (smallInt 5) ⟨staysInRange_createTable _, hinsert, trivial⟩ "t" r hr [.int 5]
    (hrows ▸ .head _) 0 ⟨"a", .int2, false⟩ 5 (by rw [hcolumns]; rfl) rfl).2.2 (.inl rfl)

/-- 70000 is stored in a column of two bytes, and a binary client reads 4464. -/
theorem not_integers_fit_large :
    Machine.Always step Succeeds .empty (smallInt 70000) ∧ ∃ r,
      (Machine.run step .empty (smallInt 70000)).table "t" = some r ∧
        r.table.columns = [⟨"a", .int2, false⟩] ∧ r.table.rows = [[.int 70000]] ∧
        (encodeValue (.int 70000) .int2 1).map (decodeBinaryValue · .int2) =
          some (.ok (.int 4464)) :=
  ⟨by decide +kernel, _, rfl, rfl, rfl, by decide +kernel⟩

end PostgresRs.Constraint
