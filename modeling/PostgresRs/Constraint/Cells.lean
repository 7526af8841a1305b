import PostgresRs.Constraint.Schema
import PostgresRs.Constraint.Stored

/-!
# Rules for cells

A rule `Q` says which values a column may store, as `NOT NULL` and the range of an integer type do.
`Database.Holds Q` is the invariant that every cell of every table keeps the rule.  Most statements
keep the invariant whatever the rule is; `Allows Q` is what is left to show of the others: rows that
are inserted, cells that are assigned, the cells of a new column and `SET NOT NULL`.

* `CellRule` — the rule depends on the type and the `NOT NULL` flag of a column only, and not on the
  contents of a text.
* `Database.Holds.step` — a statement that is allowed keeps the invariant.
-/

namespace PostgresRs.Constraint

open Storage Exec List

/-- A rule for the values of a column that does not depend on what a text is, and for which another
flag makes a difference only to `NULL`s. -/
structure CellRule (Q : Column → Value → Prop) : Prop where
  text : ∀ c s s', Q c (.text s) → Q c (.text s')
  column : ∀ c c' v, c'.dataType = c.dataType →
    (c'.notNull = true → c.notNull = true ∨ v.isNull = false) → Q c v → Q c' v

/-- The cells of a row keep a rule. -/
def RowOk (Q : Column → Value → Prop) (columns : List Column) (row : List Value) : Prop :=
  ∀ (i : Nat) c v, columns[i]? = some c → row[i]? = some v → Q c v

/-- The cells of a table keep a rule. -/
structure Relation.Holds (Q : Column → Value → Prop) (r : Relation) : Prop extends r.Shaped where
  cells : ∀ row ∈ r.table.rows, RowOk Q r.table.columns row

/-- The cells of all tables keep a rule. -/
def Database.Holds (Q : Column → Value → Prop) (db : Database) : Prop :=
  ∀ name r, db.table name = some r → r.Holds Q

variable {Q : Column → Value → Prop}

/-! ## Rows -/

section Rows

variable {columns : List Column} {row row' : List Value}

variable (h : RowOk Q columns row)
include h

theorem RowOk.moved (hQ : CellRule Q) (hm : Moved row row') : RowOk Q columns row' := by
  intro i c v' hc hv'
  have hlt : i < row.length := hm.length_eq ▸ (List.getElem?_eq_some_iff.mp hv').1
  have hv : row[i]? = some row[i] := getElem?_eq_getElem hlt
  rcases forall₂_iff_get.mp hm |>.2 i hlt (List.getElem?_eq_some_iff.mp hv').1 with heq | htext
  · rw [get_eq_getElem, (List.getElem?_eq_some_iff.mp hv').2] at heq
    exact heq ▸ h i c _ hc hv
  · obtain ⟨s, s', hs, hs'⟩ := htext
    rw [get_eq_getElem] at hs hs'
    rw [(List.getElem?_eq_some_iff.mp hv').2] at hs'
    exact hs' ▸ hQ.text c s s' (hs ▸ h i c _ hc hv)

/-- Assignments of values that keep the rule. -/
theorem RowOk.run {p : Program}
    (hwritten : ∀ w ∈ Assignment.written row p, ∀ c, columns[w.1]? = some c → Q c w.2)
    (hrun : Assignment.run row p = .ok row') : RowOk Q columns row' :=
  fun i c v hc hv => Assignment.forall_of_run (P := fun i v => ∀ c, columns[i]? = some c → Q c v)
    hrun (fun i v hv c hc => h i c v hc hv) hwritten i v hv c hc

theorem RowOk.eraseIdx (idx : Nat) : RowOk Q (columns.eraseIdx idx) (row.eraseIdx idx) := by
  intro i c v hc hv
  rw [getElem?_eraseIdx] at hc hv
  by_cases hi : i < idx
  · rw [if_pos hi] at hc hv
    exact h i c v hc hv
  · rw [if_neg hi] at hc hv
    exact h (i + 1) c v hc hv

theorem RowOk.append (hlength : row.length = columns.length)
    {column : Column} {v : Value} (hv : Q column v) :
    RowOk Q (columns ++ [column]) (row ++ [v]) := by
  intro i c w hc hw
  rcases Nat.lt_or_ge i columns.length with hi | hi
  · rw [getElem?_append_left hi] at hc
    rw [getElem?_append_left (hlength ▸ hi)] at hw
    exact h i c w hc hw
  · rw [getElem?_append_right hi, getElem?_singleton] at hc
    rw [getElem?_append_right (hlength ▸ hi), getElem?_singleton] at hw
    split_ifs at hc hw
    cases hc
    cases hw
    exact hv

end Rows

/-! ## Tables -/

theorem exists_of_getElem?_modify {α : Type} {l : List α} {f : α → α} {idx i : Nat} {a' : α}
    (h : (l.modify idx f)[i]? = some a') :
    ∃ a, l[i]? = some a ∧ a' = if idx = i then f a else a := by
  rw [getElem?_modify] at h
  obtain ⟨a, ha, rfl⟩ := Option.map_eq_some_iff.mp h
  exact ⟨a, ha, by split <;> rfl⟩

namespace Relation.Holds

variable {r r' : Relation}

/-- Other columns for the same rows. -/
theorem of_columns (h : r.Holds Q) (hr' : r'.Shaped) (hrows : r'.table.rows = r.table.rows)
    (hcolumns : ∀ (i : Nat) c', r'.table.columns[i]? = some c' → ∃ c, r.table.columns[i]? = some c ∧
      ∀ row ∈ r.table.rows, ∀ v, row[i]? = some v → Q c v → Q c' v) : r'.Holds Q where
  toShaped := hr'
  cells row hrow i c' v hc' hv := by
    rw [hrows] at hrow
    obtain ⟨c, hc, himp⟩ := hcolumns i c' hc'
    exact himp row hrow v hv (h.cells row hrow i c v hc hv)

theorem same (h : r.Holds Q) (hr' : r'.Shaped) (hrows : r'.table.rows = r.table.rows)
    (hcolumns : r'.table.columns = r.table.columns) : r'.Holds Q :=
  h.of_columns hr' hrows fun _ c' hc' => ⟨c', hcolumns ▸ hc', fun _ _ _ _ hq => hq⟩

theorem getElem?_types (ha : r.Alike r') {i : Nat} {c' : Column}
    (hc' : r'.table.columns[i]? = some c') :
    ∃ c, r.table.columns[i]? = some c ∧ c'.dataType = c.dataType := by
  have htypes := congrArg (·[i]?) ha.types
  simp only [Relation.types, getElem?_map, hc'] at htypes
  obtain ⟨c, hc, heq⟩ := Option.map_eq_some_iff.mp htypes.symm
  exact ⟨c, hc, heq.symm⟩

/-- Flags, indexes and constraints change, and the columns that become `NOT NULL` have no `NULL`. -/
theorem alike (hQ : CellRule Q) (h : r.Holds Q) (hr' : r'.Shaped) (ha : r.Alike r') {new : List Nat}
    (hstricter : r.Stricter r' new)
    (hnew : ∀ i ∈ new, ∀ row ∈ r.table.rows, (cell row i).map Value.isNull = .ok false) :
    r'.Holds Q := by
  refine h.of_columns hr' ha.rows fun i c' hc' => ?_
  obtain ⟨c, hc, htype⟩ := getElem?_types ha hc'
  refine ⟨c, hc, fun row hrow v hv hq => hQ.column c c' v htype (fun hnull => ?_) hq⟩
  rcases hstricter i c' hc' hnull with hi | ⟨c₁, hc₁, hnull₁⟩
  · have hcell := hnew i hi row hrow
    rw [cell, hv] at hcell
    exact .inr (Except.ok.inj hcell)
  · exact .inl (Option.some.inj (hc.symm.trans hc₁) ▸ hnull₁)

theorem addColumn (h : r.Holds Q) {column : FullColumn} {fill : Nat → Value}
    (hfill : ∀ pos < r.table.rows.length, Q column.toColumn (fill pos)) :
    (r.addColumn column fill).Holds Q where
  toShaped := h.toShaped.addColumn column fill
  cells row' hrow' := by
    obtain ⟨pos, hpos⟩ := mem_iff_getElem?.mp hrow'
    rw [Relation.addColumn, Table.addColumn, getElem?_mapIdx, Option.map_eq_some_iff] at hpos
    obtain ⟨row, hrow, rfl⟩ := hpos
    have hmem := mem_of_getElem? hrow
    exact (h.cells row hmem).append (h.fits.rows row hmem)
      (hfill pos (List.getElem?_eq_some_iff.mp hrow).1)

theorem dropColumn (h : r.Holds Q) {idx : Nat} (hidx : idx < r.table.columns.length)
    (hd : r.dropColumn idx = .ok r') : r'.Holds Q := by
  obtain ⟨hshaped, hcolumns⟩ := h.toShaped.dropColumn hidx hd
  obtain ⟨t, ht, hd⟩ := of_bind_eq_ok hd
  cases hd
  rw [Table.dropColumn] at ht
  split at ht
  · cases ht
  · cases ht
    refine ⟨hshaped, fun row' hrow' => ?_⟩
    obtain ⟨row, hrow, rfl⟩ := mem_map.mp hrow'
    exact (h.cells row hrow).eraseIdx idx

/-- A change whose rows keep the rule. -/
theorem applyChange (hQ : CellRule Q) (h : r.Holds Q) {eval : EvalExpr} {c : Change}
    (hwidth : ∀ row ∈ c.newRows, row.length = r.table.columns.length)
    (hnew : ∀ row ∈ c.newRows, RowOk Q r.table.columns row)
    (hr' : r.applyChange eval c = .ok r') : r'.Holds Q := by
  obtain ⟨hfits, hcolumns, heq⟩ := Relation.fits_applyChange h.fits hwidth hr'
  have hrows := Relation.forall_rows_applyChange (R := RowOk Q r.table.columns) hr' h.cells
    fun row hrow x hx => (hnew row hrow).moved hQ hx
  have hshaped : r'.Shaped := by
    rw [heq]
    exact h.toShaped.withTable hfits (congrArg List.length hcolumns)
  exact ⟨hshaped, hcolumns.symm ▸ hrows⟩

end Relation.Holds

/-! ## Statements -/

/-- What is to be shown of a statement so that it keeps the rule `Q`. -/
structure Allows (Q : Column → Value → Prop) (db : Database) (e : Event) : Prop where
  /-- Rows that are inserted, by `INSERT` and by `MERGE`. -/
  insert : ∀ name r p row, e.command.Targets name → db.table name = some r →
    e.command.Inserts e.env r p →
    Assignment.run (List.replicate r.columns.length .null) p = .ok row →
    checkNotNull r.columns row = .ok () → RowOk Q r.table.columns row
  /-- Cells that `UPDATE`, `DO UPDATE` and `MERGE` assign. -/
  update : ∀ name r pos stored p, e.command.Targets name → db.table name = some r →
    r.table.rows[pos]? = some stored →
    e.command.Updates e.env r pos (r.table.detoastRow stored) p →
    ∀ w ∈ Assignment.written (r.table.detoastRow stored) p, ∀ c,
      r.table.columns[w.1]? = some c → Q c w.2
  /-- The cells of a new column. -/
  addColumn : ∀ call column ifNotExists r default values, e.command = .alterTable call →
    call.stmt.action = .addColumn column ifNotExists → db.table call.stmt.table = some r →
    addedDefault e.env e.names column = .ok default →
    (column.notNull = true → column.default.isSome = true ∨ column.serial = true ∨
      column.identity = true ∨ column.generated.isSome = true ∨ r.table.rows = []) →
    addedValues e.env r call.numbers column default = .ok values →
    ∀ pos < r.table.rows.length, Q (columnFromDef e.names column).toColumn (values pos)
  /-- The cells of a column that is altered to `NOT NULL`. -/
  setNotNull : ∀ call column r idx c, e.command = .alterTable call →
    call.stmt.action = .setColumnNotNull column true → db.table call.stmt.table = some r →
    r.table.columnIndex column = some idx → r.table.columns[idx]? = some c →
    ∀ row ∈ r.table.rows, ∀ v, row[idx]? = some v → Q c v → Q { c with notNull := true } v

namespace Database.Holds

variable {env : Environment} {names : Names} {db db' : Database} {name : String} {r r' : Relation}

theorem empty : Database.empty.Holds Q := nofun

variable (h : db.Holds Q)
include h

theorem setTable (hr : r.Holds Q) : (db.setTable name r).Holds Q := by
  intro name' r' hr'
  rw [table_setTable] at hr'
  split at hr'
  · cases hr'
    exact hr
  · exact h name' r' hr'

theorem dropTable : (db.dropTable name).Holds Q := by
  intro name' r' hr'
  rw [table_dropTable] at hr'
  split at hr'
  · cases hr'
  · exact h name' r' hr'

theorem execCreateTable {c : CreateTable}
    (hc : execCreateTable env names db c = .ok db') : db'.Holds Q := by
  rcases execCreateTable_eq_ok hc with rfl | ⟨r, hready, hdb'⟩
  · exact h
  have hnew : (db.setTable c.name r).Holds Q :=
    h.setTable ⟨hready.toShaped, hready.rows ▸ forall_mem_nil _⟩
  rcases hdb' with rfl | ⟨parent, p, hp, rfl⟩
  · exact hnew
  · exact hnew.setTable ((hnew parent p hp).same { (hnew parent p hp).toShaped with } rfl rfl)

theorem execAlterTable (hQ : CellRule Q) {call : AlterCall}
    (hallows : Allows Q db ⟨env, names, .alterTable call⟩)
    (hc : execAlterTable env names db call = .ok db') : db'.Holds Q := by
  cases altered_of_execAlterTable hc with
  | same => exact h
  | @renamed r «to» haction hr =>
    have hshaped := (h _ r hr).toShaped
    exact h.dropTable.setTable ((h _ r hr).same
      (hshaped.withTable ⟨hshaped.fits.rows, hshaped.fits.indexes⟩ rfl) rfl rfl)
  | @addedColumn r column ifNotExists default values haction hr hdefault hnull hvalues =>
    exact h.setTable ((h _ r hr).addColumn
      (hallows.addColumn call column ifNotExists r default values rfl haction hr hdefault hnull
        hvalues))
  | @droppedColumn r r' name ifExists idx haction hr hidx hr' =>
    exact h.setTable ((h _ r hr).dropColumn (columnIndex_lt hidx) hr')
  | @renamedColumn r «from» «to» idx haction hr hidx =>
    refine h.setTable ((h _ r hr).of_columns ((h _ r hr).toShaped.setColumn idx _) rfl
      fun i c' hc' => ?_)
    obtain ⟨c, hc, rfl⟩ := exists_of_getElem?_modify hc'
    refine ⟨c, hc, fun _ _ v _ hq => ?_⟩
    split
    · exact hQ.column c _ v rfl .inl hq
    · exact hq
  | @setNotNull r column notNull haction hr =>
    have hshaped := ((h _ r hr).toShaped.setNotNull column notNull).1
    rw [Relation.setColumnNamed] at hshaped ⊢
    split at hshaped
    · next idx hidx =>
      refine h.setTable ((h _ r hr).of_columns hshaped rfl fun i c' hc' => ?_)
      obtain ⟨c, hcolumn, rfl⟩ := exists_of_getElem?_modify hc'
      refine ⟨c, hcolumn, fun row hrow v hv hq => ?_⟩
      split
      · next heq =>
        subst heq
        cases notNull with
        | true =>
          exact hallows.setNotNull call column r _ c rfl haction hr hidx hcolumn row hrow v hv hq
        | false => exact hQ.column c _ v rfl (fun h => by cases h) hq
      · exact hq
    · exact h.setTable (h _ r hr)
  | @alike r r' new hr hr' hstricter hnew =>
    obtain ⟨hshaped, halike⟩ := hr' (h _ r hr).toShaped
    exact h.setTable ((h _ r hr).alike hQ hshaped halike hstricter hnew)

theorem execDropTable {d : DropTable} (hd : execDropTable db d = .ok db') : db'.Holds Q := by
  rcases execDropTable_eq_ok hd with rfl | ⟨-, rfl⟩
  · exact h
  · exact h.dropTable

theorem execTruncate {t : Truncate} (ht : execTruncate db t = .ok db') : db'.Holds Q :=
  execTruncate_induction ht h fun _ name r h hr =>
    h.setTable ⟨(h name r hr).toShaped.withTable (h name r hr).fits.truncate rfl,
      forall_mem_nil _⟩

theorem execCreateIndex {c : CreateIndex}
    (hc : execCreateIndex env db c = .ok db') : db'.Holds Q := by
  rcases execCreateIndex_eq_ok hc with rfl | ⟨r, hr, idx, t, hidx, ht, rfl⟩
  · exact h
  · obtain ⟨hshaped, -⟩ := (h _ r hr).toShaped.addAndPopulateIndex hidx ht
    obtain ⟨keys, -, rfl⟩ := Table.addAndPopulateIndex_eq_ok (ofStorage_eq_ok ht)
    exact h.setTable ((h _ r hr).same hshaped rfl rfl)

theorem execDropIndex {d : DropIndex} (hd : execDropIndex db d = .ok db') : db'.Holds Q := by
  rcases execDropIndex_eq_ok hd with rfl | ⟨name, r, hr, rfl⟩
  · exact h
  · exact h.setTable ((h name r hr).same
      ((h name r hr).toShaped.withTable ((h name r hr).fits.dropIndex d.name) rfl) rfl rfl)

/-- Rows that are inserted and replaced. -/
theorem write (hQ : CellRule Q) {cmd : Command}
    (hallows : Allows Q db ⟨env, names, cmd⟩) (hwrite : cmd.IsWrite)
    (hp : perform env names db cmd = .ok db') : db'.Holds Q := by
  obtain ⟨name, r, c, r', hplanned, hr', rfl⟩ := exists_planned_of_perform hwrite hp
  have hr := h name r hplanned.table
  refine h.setTable (hr.applyChange hQ (hplanned.made.width hr.fits) (fun row hrow => ?_) hr')
  rcases mem_append.mp hrow with hrow | hrow
  · obtain ⟨u, hu, rfl⟩ := mem_map.mp hrow
    obtain ⟨stored, p, hstored, hupdates, hrun⟩ := hplanned.made.updates u hu
    have hold := (hr.cells stored (mem_of_getElem? hstored)).moved hQ
      (Table.moved_detoastRow r.table stored)
    exact hold.run (hallows.update name r u.1 stored p hplanned.target hplanned.table hstored
      hupdates) hrun
  · obtain ⟨hnull, p, hinserts, hrun⟩ := hplanned.made.inserts row hrow
    exact hallows.insert name r p row hplanned.target hplanned.table hinserts hrun hnull

/-- **One statement** that is allowed keeps the rule. -/
theorem step (hQ : CellRule Q) {e : Event} (hallows : Allows Q db e) : (step db e).Holds Q := by
  rw [Constraint.step]
  split
  · next db' hp =>
    obtain ⟨env, names, command⟩ := e
    cases command with
    | createTable c => exact h.execCreateTable hp
    | alterTable call => exact h.execAlterTable hQ hallows hp
    | dropTable d => exact h.execDropTable hp
    | createIndex c => exact h.execCreateIndex hp
    | dropIndex d => exact h.execDropIndex hp
    | truncate t => exact h.execTruncate hp
    | insert call | update call | delete call | merge call =>
      exact h.write hQ hallows (by trivial) hp
  · exact h

end Database.Holds

end PostgresRs.Constraint
