import PostgresRs.Constraint.Alike

/-!
# Statements that change tables

What a successful `CREATE TABLE`, `ALTER TABLE`, `DROP TABLE`, `TRUNCATE`, `CREATE INDEX` or
`DROP INDEX` has done to the tables.

* `execCreateTable_eq_ok`, `Altered` — all that `CREATE TABLE` and `ALTER TABLE` can do.
* `execTruncate_induction` — what is kept when one table loses its rows is kept by `TRUNCATE`.
-/

namespace PostgresRs.Constraint

open Storage Exec List PostgresRs.Constraint.Database

/-! ## CREATE TABLE -/

variable {c : CreateTable} {columns indices : List Nat} {primaryKey : Bool}

section Create

variable {env : Environment} {names : Names} {db : Database} {r r' : Relation}

theorem constraintColumnIndices_lt {columns : List String}
    (h : r.constraintColumnIndices columns = .ok indices) :
    ∀ i ∈ indices, i < r.table.columns.length := by
  intro i hi
  obtain ⟨name, -, hname⟩ := exists_of_mem_mapM h i hi
  split at hname
  · next hcolumn =>
    cases hname
    exact columnIndex_lt hcolumn
  · cases hname

theorem shaped_addUnique {name : String} (h : r.Shaped)
    (hcolumns : ∀ c ∈ columns, c < r.table.columns.length)
    (ha : r.addUnique env name columns primaryKey = .ok r') : r'.Shaped ∧ r.Alike r' := by
  rw [Relation.addUnique.eq_def] at ha
  split at ha
  · next column =>
    obtain ⟨r₁, hr₁, ha⟩ := of_bind_eq_ok ha
    cases ha
    obtain ⟨hshaped, halike⟩ := h.createIndex (hcolumns column (.head _)) hr₁
    cases primaryKey with
    | false => exact ⟨hshaped, halike⟩
    | true =>
      exact ⟨hshaped.setPrimaryKey column true, halike.trans (.setPrimaryKey r₁ column true)⟩
  · cases ha
    exact h.addUniqueConstraint name hcolumns primaryKey

/-- A table as it is made: it has no rows. -/
structure Relation.Ready (r : Relation) : Prop extends r.Shaped where
  rows : r.table.rows = []

theorem Relation.Ready.alike (h : r.Ready) (hr' : r'.Shaped) (ha : r.Alike r') : r'.Ready where
  toShaped := hr'
  rows := ha.rows.trans h.rows

theorem ready_newRelation (name : String) (columns : List FullColumn) :
    (newRelation name columns).Ready where
  fits := ⟨nofun, nofun⟩
  uniques := nofun
  rows := rfl

theorem ready_partitionBy {p : Option PartitionBy} (h : r.Ready)
    (hp : r.partitionBy p = .ok r') : r'.Ready := by
  rw [Relation.partitionBy.eq_def] at hp
  split at hp
  · cases hp
    exact h
  · split at hp
    · cases hp
    · cases hp
      exact { h with }

theorem ready_primaryKeyIndexes (h : r.Ready) (hp : r.primaryKeyIndexes env = .ok r') :
    r'.Ready := by
  have hlt : ∀ e ∈ r.columns.zipIdx.filter (·.1.primaryKey), e.2 < r.table.columns.length := by
    intro e he
    have hlt := snd_lt_of_mem_zipIdx (mem_filter.mp he).1
    rwa [Relation.length_columns] at hlt
  obtain ⟨-, hready, -⟩ := foldlM_induction
    (P := fun (l : List (FullColumn × Nat)) s =>
      (∀ e ∈ l, e.2 < r.table.columns.length) ∧ s.Ready ∧ r.Alike s) hp
    ⟨hlt, h, .refl r⟩ fun e l s s' hs hstep => by
      obtain ⟨hall, hready, halike⟩ := hs
      obtain ⟨hshaped, hnew⟩ :=
        hready.toShaped.createIndex (halike.length_columns.symm ▸ hall e (.head _)) hstep
      exact ⟨fun e he => hall e (.tail _ he), hready.alike hshaped hnew, halike.trans hnew⟩
  exact hready

theorem ready_addTableConstraint {tc : TableConstraint} (h : r.Ready)
    (ha : r.addTableConstraint env db tc = .ok r') : r'.Ready := by
  cases tc with
  | unique name columns primaryKey =>
    obtain ⟨indices, hindices, ha⟩ := of_bind_eq_ok ha
    obtain ⟨hshaped, halike⟩ := shaped_addUnique h.toShaped (constraintColumnIndices_lt hindices) ha
    exact h.alike hshaped halike
  | check | exclude =>
    cases ha
    exact { h with }
  | foreignKey name column refTable refColumn validated =>
    rw [Relation.addTableConstraint] at ha
    split at ha
    · cases ha
    obtain ⟨-, ha⟩ := and_of_bind_eq_ok ha
    cases ha
    exact { h with }

theorem ready_createdRelation (h : createdRelation env names db c = .ok r) : r.Ready := by
  obtain ⟨inherited, -, h⟩ := of_bind_eq_ok h
  obtain ⟨bound, -, h⟩ := of_bind_eq_ok h
  obtain ⟨r₁, hr₁, h⟩ := of_bind_eq_ok h
  obtain ⟨r₂, hr₂, h⟩ := of_bind_eq_ok h
  have hready₁ : r₁.Ready := ready_partitionBy (ready_newRelation _ _) hr₁
  have hbound : Relation.Ready { r₁ with partitionBound := bound } := { hready₁ with }
  exact foldlM_induction (P := fun _ s => s.Ready) h (ready_primaryKeyIndexes hbound hr₂)
    fun tc _ s s' hs hstep => ready_addTableConstraint hs hstep

/-- What `CREATE TABLE` does: nothing, or there is a new table, noted in the one it is a partition
of. -/
theorem execCreateTable_eq_ok {db' : Database} (h : execCreateTable env names db c = .ok db') :
    db' = db ∨ ∃ r, r.Ready ∧ (db' = db.setTable c.name r ∨ ∃ parent p,
      (db.setTable c.name r).table parent = some p ∧ db' = (db.setTable c.name r).setTable parent
        { p with partitions := p.partitions ++ [c.name] }) := by
  rw [execCreateTable] at h
  split at h
  · split at h
    · cases h
      exact .inl rfl
    · cases h
  · obtain ⟨r, hr, h⟩ := of_bind_eq_ok h
    split at h
    · cases h
    refine .inr ⟨r, ready_createdRelation hr, ?_⟩
    dsimp only at h
    split at h
    · cases h
      exact .inl rfl
    · next parent p hparent =>
      cases h
      obtain ⟨po, -, hpo⟩ := Option.bind_eq_some_iff.mp hparent
      obtain ⟨p', hp', heq⟩ := Option.map_eq_some_iff.mp hpo
      cases heq
      exact .inr ⟨po.parent, p, hp', rfl⟩

end Create

/-! ## ALTER TABLE -/

section Alter

variable {env : Environment} {names : Names} {db db' : Database} {r : Relation} {call : AlterCall}

/-- Only the columns at the given positions may have become `NOT NULL`. -/
def Relation.Stricter (r r' : Relation) (new : List Nat) : Prop :=
  ∀ i c', r'.table.columns[i]? = some c' → c'.notNull = true →
    i ∈ new ∨ ∃ c, r.table.columns[i]? = some c ∧ c.notNull = true

namespace Relation.Stricter

variable {r r' r'' : Relation} {new new' : List Nat}

theorem of_columns (h : r'.table.columns = r.table.columns) : r.Stricter r' [] :=
  fun _ c' hc' hnull => .inr ⟨c', h ▸ hc', hnull⟩

theorem trans (h : r.Stricter r' new) (h' : r'.Stricter r'' new') :
    r.Stricter r'' (new ++ new') := by
  intro i c'' hc'' hnull
  rcases h' i c'' hc'' hnull with hi | ⟨c', hc', hnull'⟩
  · exact .inl (mem_append_right _ hi)
  · exact (h i c' hc' hnull').imp_left (mem_append_left _)

theorem setPrimaryKey (r : Relation) (column : Nat) :
    r.Stricter (r.setPrimaryKey column true) [column] := by
  intro i c' hc' hnull
  replace hc' : (r.table.columns.modify column fun c => { c with notNull := true })[i]? = some c' :=
    hc'
  by_cases hi : column = i
  · exact .inl (hi ▸ .head _)
  · simp only [getElem?_modify, if_neg hi, Option.map_eq_map, Option.map_id_fun'] at hc'
    exact .inr ⟨c', hc', hnull⟩

theorem setPrimaryKeys (r : Relation) (columns : List Nat) :
    r.Stricter (columns.foldl (fun r c => r.setPrimaryKey c true) r) columns := by
  induction columns generalizing r with
  | nil => exact of_columns rfl
  | cons c columns ih => exact (setPrimaryKey r c).trans (ih _)

theorem addUnique {name : String} (h : r.addUnique env name columns primaryKey = .ok r') :
    r.Stricter r' (if primaryKey then columns else []) := by
  rw [Relation.addUnique.eq_def] at h
  split at h
  · next column =>
    obtain ⟨r₁, hr₁, h⟩ := of_bind_eq_ok h
    obtain ⟨t, ht, hr₁⟩ := of_bind_eq_ok hr₁
    obtain ⟨keys, -, rfl⟩ := Table.addAndPopulateIndex_eq_ok (ofStorage_eq_ok ht)
    cases hr₁
    cases h
    cases primaryKey with
    | false => exact of_columns rfl
    | true => exact (@of_columns r _ rfl).trans (setPrimaryKey _ column)
  · cases h
    cases primaryKey with
    | false => exact of_columns rfl
    | true => exact setPrimaryKeys r columns

end Relation.Stricter

/-- What `ALTER TABLE` can do. -/
inductive Altered (env : Environment) (names : Names) (db : Database) (call : AlterCall) :
    Database → Prop
  | same : Altered env names db call db
  | renamed {r : Relation} {«to» : String} (haction : call.stmt.action = .renameTable «to»)
      (hr : db.table call.stmt.table = some r) :
      Altered env names db call ((db.dropTable call.stmt.table).setTable «to»
        { r with table := { r.table with name := «to» } })
  | addedColumn {r : Relation} {column : ColumnDef} {ifNotExists : Bool} {default : Value}
      {values : Nat → Value} (haction : call.stmt.action = .addColumn column ifNotExists)
      (hr : db.table call.stmt.table = some r)
      (hdefault : addedDefault env names column = .ok default)
      (hnull : column.notNull = true → column.default.isSome = true ∨ column.serial = true ∨
        column.identity = true ∨ column.generated.isSome = true ∨ r.table.rows = [])
      (hvalues : addedValues env r call.numbers column default = .ok values) :
      Altered env names db call (db.setTable call.stmt.table
        (r.addColumn (columnFromDef names column) values))
  | droppedColumn {r r' : Relation} {name : String} {ifExists : Bool} {idx : Nat}
      (haction : call.stmt.action = .dropColumn name ifExists)
      (hr : db.table call.stmt.table = some r) (hidx : r.table.columnIndex name = some idx)
      (hr' : r.dropColumn idx = .ok r') :
      Altered env names db call (db.setTable call.stmt.table r')
  | renamedColumn {r : Relation} {«from» «to» : String} {idx : Nat}
      (haction : call.stmt.action = .renameColumn «from» «to»)
      (hr : db.table call.stmt.table = some r) (hidx : r.table.columnIndex «from» = some idx) :
      Altered env names db call (db.setTable call.stmt.table (r.renameColumn idx «to»))
  | setNotNull {r : Relation} {column : String} {notNull : Bool}
      (haction : call.stmt.action = .setColumnNotNull column notNull)
      (hr : db.table call.stmt.table = some r) :
      Altered env names db call (db.setTable call.stmt.table
        (r.setColumnNamed column fun c => { c with notNull := notNull }))
  | alike {r r' : Relation} {new : List Nat} (hr : db.table call.stmt.table = some r)
      (hr' : r.Shaped → r'.Shaped ∧ r.Alike r') (hstricter : r.Stricter r' new)
      (hnew : ∀ i ∈ new, ∀ row ∈ r.table.rows, (cell row i).map Value.isNull = .ok false) :
      Altered env names db call (db.setTable call.stmt.table r')

theorem dropConstraint_eq_ok {r' : Relation} {name : String}
    (hd : r.dropConstraint name = .ok (some r')) :
    r'.table.columns = r.table.columns ∧ (r.Shaped → r'.Shaped ∧ r.Alike r') := by
  rw [Relation.dropConstraint] at hd
  split at hd
  · cases hd
    exact ⟨rfl, fun h => ⟨{ h with }, rfl, rfl⟩⟩
  split at hd
  · cases hd
    exact ⟨rfl, fun h => ⟨{ h with }, rfl, rfl⟩⟩
  split at hd
  · cases hd
    exact ⟨rfl, fun h => ⟨{ h with }, rfl, rfl⟩⟩
  split at hd
  · cases hd
    exact ⟨rfl, fun h => ⟨{ h with uniques := fun k hk => h.uniques k (mem_filter.mp hk).1 },
      rfl, rfl⟩⟩
  split at hd
  · cases hd
  next idx _ =>
  have hdropped : r.Shaped → ({ r with table := r.table.dropIndex name } : Relation).Shaped ∧
      r.Alike { r with table := r.table.dropIndex name } := fun h =>
    ⟨h.withTable (h.fits.dropIndex name) rfl, rfl, rfl⟩
  dsimp only at hd
  split at hd
  · cases hd
    exact ⟨rfl, hdropped⟩
  · next col _ =>
    split at hd
    · split at hd
      · cases hd
      · cases hd
        split
        · refine ⟨rfl, fun h => ?_⟩
          obtain ⟨hshaped, halike⟩ := hdropped h
          exact ⟨hshaped.setPrimaryKey col false, halike.trans (.setPrimaryKey _ col false)⟩
        · exact ⟨rfl, hdropped⟩
    · cases hd
      exact ⟨rfl, hdropped⟩

/-- The rows have no `NULL` in the columns of a new primary key. -/
theorem cell_of_checkNoNulls {columns : List String} (hlength : columns.length = indices.length)
    (h : checkNoNulls r (indices.zip columns) = .ok ()) :
    ∀ i ∈ indices, ∀ row ∈ r.table.rows, (cell row i).map Value.isNull = .ok false := by
  intro i hi row hrow
  obtain ⟨k, hk⟩ := List.mem_iff_getElem?.mp hi
  have hlt : k < columns.length := hlength ▸ (List.getElem?_eq_some_iff.mp hk).1
  have hmem : (i, columns[k]) ∈ indices.zip columns :=
    List.mem_of_getElem? (List.getElem?_zip_eq_some.mpr ⟨hk, List.getElem?_eq_getElem hlt⟩)
  obtain ⟨found, hfound, hcheck⟩ := of_bind_eq_ok (forM_eq_ok_iff.mp h _ hmem)
  cases found with
  | true => cases hcheck
  | false => exact eq_ok_false_of_anyM hfound row hrow

theorem altered_addConstraint {constraint : TableConstraint}
    (h : execAddConstraint env db call.stmt.table constraint = .ok db') :
    Altered env names db call db' := by
  obtain ⟨r, hr, h⟩ := exists_of_target h
  cases constraint with
  | unique name columns primaryKey =>
    obtain ⟨indices, hindices, h⟩ := of_bind_eq_ok h
    split at h
    · cases h
    obtain ⟨hnulls, h⟩ := and_of_bind_eq_ok h
    obtain ⟨duplicate, -, h⟩ := of_bind_eq_ok h
    split at h
    · cases h
    obtain ⟨r', hr', h⟩ := of_bind_eq_ok h
    cases h
    refine .alike hr
      (fun hshaped => shaped_addUnique hshaped (constraintColumnIndices_lt hindices) hr')
      (Relation.Stricter.addUnique hr') ?_
    cases primaryKey with
    | false => exact forall_mem_nil _
    | true => exact cell_of_checkNoNulls (forall₂_of_mapM_eq_ok hindices).length_eq hnulls
  | check name expr validated =>
    dsimp only at h
    split at h
    · cases h
    obtain ⟨-, h⟩ := and_of_bind_eq_ok h
    cases h
    exact .alike hr (fun h => ⟨{ h with }, rfl, rfl⟩) (.of_columns rfl) (forall_mem_nil _)
  | foreignKey name column refTable refColumn validated =>
    dsimp only at h
    split at h
    · cases h
    split at h
    · cases h
    obtain ⟨-, h⟩ := and_of_bind_eq_ok h
    obtain ⟨-, h⟩ := and_of_bind_eq_ok h
    cases h
    exact .alike hr (fun h => ⟨{ h with }, rfl, rfl⟩) (.of_columns rfl) (forall_mem_nil _)
  | exclude name definition =>
    dsimp only at h
    split at h
    · cases h
    cases h
    exact .alike hr (fun h => ⟨{ h with }, rfl, rfl⟩) (.of_columns rfl) (forall_mem_nil _)

theorem altered_addColumn {column : ColumnDef} {ifNotExists : Bool}
    (haction : call.stmt.action = .addColumn column ifNotExists)
    (h : execAddColumn env names db call.stmt.table call.numbers column ifNotExists = .ok db') :
    Altered env names db call db' := by
  obtain ⟨default, hdefault, h⟩ := of_bind_eq_ok h
  obtain ⟨r, hr, h⟩ := exists_of_target h
  split at h
  · split at h
    · cases h
      exact .same
    · cases h
  · split at h
    · cases h
    next hallowed =>
    obtain ⟨values, hvalues, h⟩ := of_bind_eq_ok h
    cases h
    refine .addedColumn haction hr hdefault (fun hnull => ?_) hvalues
    by_contra hnone
    simp only [not_or, Bool.not_eq_true, Option.isSome_eq_false_iff] at hnone
    obtain ⟨hd, hs, hi, hg, hrows⟩ := hnone
    simp [hnull, hd, hs, hi, hg, hrows] at hallowed

/-- `SET NOT NULL` and `DROP NOT NULL`. -/
theorem Relation.Shaped.setNotNull (h : r.Shaped) (name : String) (notNull : Bool) :
    (r.setColumnNamed name fun c => { c with notNull := notNull }).Shaped ∧
      r.Alike (r.setColumnNamed name fun c => { c with notNull := notNull }) := by
  rw [Relation.setColumnNamed]
  split
  · next idx _ => exact ⟨h.setColumn idx _, .setColumn r idx fun _ => rfl⟩
  · exact ⟨h, .refl r⟩

theorem altered_of_execAlterTable (h : execAlterTable env names db call = .ok db') :
    Altered env names db call db' := by
  have hnoop : ∀ {db' : Database},
      (do let _ ← db.target call.stmt.table; return db) = Except.ok db' →
        Altered env names db call db' := by
    intro db' h
    obtain ⟨r, -, h⟩ := of_bind_eq_ok h
    cases h
    exact .same
  rw [execAlterTable] at h
  split at h
  · next «to» haction =>
    rw [Database.renameTable] at h
    split at h
    · cases h
    next r hr =>
    split at h
    · cases h
    cases h
    exact .renamed haction hr
  · next haction => exact altered_addColumn haction h
  · next haction =>
    obtain ⟨r, hr, h⟩ := exists_of_target h
    split at h
    · next idx hidx =>
      obtain ⟨r', hr', h⟩ := of_bind_eq_ok h
      cases h
      exact .droppedColumn haction hr hidx hr'
    · split at h
      · cases h
        exact .same
      · cases h
  · exact altered_addConstraint h
  · obtain ⟨r, hr, h⟩ := exists_of_target h
    obtain ⟨o, ho, h⟩ := of_bind_eq_ok h
    split at h
    · cases h
      obtain ⟨hcolumns, hshaped⟩ := dropConstraint_eq_ok ho
      exact .alike hr hshaped (.of_columns hcolumns) (forall_mem_nil _)
    · split at h
      · cases h
        exact .same
      · cases h
  · next haction =>
    obtain ⟨r, hr, h⟩ := exists_of_target h
    split at h
    · next idx hidx =>
      cases h
      exact .renamedColumn haction hr hidx
    · cases h
  · split at h
    · cases h
    exact hnoop h
  · obtain ⟨r, hr, h⟩ := exists_of_target h
    split at h
    · cases h
      exact .alike hr (fun h => ⟨h.setInfo _ _, .setInfo r _ _⟩) (.of_columns rfl)
        (forall_mem_nil _)
    · cases h
  · obtain ⟨r, hr, h⟩ := exists_of_target h
    split at h
    · cases h
      exact .alike hr (fun h => ⟨h.setInfo _ _, .setInfo r _ _⟩) (.of_columns rfl)
        (forall_mem_nil _)
    · cases h
      exact .same
  · next haction =>
    obtain ⟨r, hr, h⟩ := exists_of_target h
    cases h
    exact .setNotNull haction hr
  all_goals exact hnoop h

end Alter

/-! ## CREATE INDEX -/

theorem indexKeys_lt {r : Relation} {keys : List IndexKeyExpr} {columns' : List Nat}
    {expr expr' : Option Expr} (hcolumns : ∀ c ∈ columns, c < r.table.columns.length)
    (h : indexKeys r keys columns expr = .ok (columns', expr')) :
    ∀ c ∈ columns', c < r.table.columns.length := by
  induction keys generalizing columns expr with
  | nil =>
    cases h
    exact hcolumns
  | cons key keys ih =>
    cases key with
    | column name =>
      rw [indexKeys] at h
      split at h
      · cases h
      · next col hcol =>
        refine ih (fun c hc => ?_) h
        rcases mem_append.mp hc with hc | hc
        · exact hcolumns c hc
        · exact mem_singleton.mp hc ▸ columnIndex_lt hcol
    | expr e =>
      rw [indexKeys] at h
      split at h
      · cases h
      exact ih hcolumns h

variable {db db' : Database}

/-- What `CREATE INDEX` does: nothing, or the table has another index on its columns. -/
theorem execCreateIndex_eq_ok {env : Environment} {c : CreateIndex}
    (h : execCreateIndex env db c = .ok db') : db' = db ∨ ∃ r, db.table c.table = some r ∧
      ∃ idx t, (∀ col ∈ idx.columns, col < r.table.columns.length) ∧
        ofStorage (r.table.addAndPopulateIndex (evalIndex env.ext) idx) = .ok t ∧
        db' = db.setTable c.table { r with table := t } := by
  obtain ⟨r, hr, h⟩ := exists_of_target h
  obtain ⟨⟨columns, expr⟩, hkeys, h⟩ := of_bind_eq_ok h
  dsimp only at h
  split at h
  · cases h
  obtain ⟨incl, -, h⟩ := of_bind_eq_ok h
  split at h
  · split at h
    · cases h
      exact .inl rfl
    · cases h
  obtain ⟨duplicate, -, h⟩ := of_bind_eq_ok h
  split at h
  · cases h
  obtain ⟨t, ht, h⟩ := of_bind_eq_ok h
  cases h
  exact .inr ⟨r, hr, _, t, indexKeys_lt (forall_mem_nil _) hkeys, ht, rfl⟩

variable {d : DropTable}

/-- What `DROP TABLE` does: nothing, or a table that nothing refers to is gone. -/
theorem execDropTable_eq_ok (h : execDropTable db d = .ok db') :
    db' = db ∨ db.ensureTableNotReferenced d.name = .ok () ∧ db' = db.dropTable d.name := by
  rw [execDropTable] at h
  split at h
  · split at h
    · cases h
      exact .inl rfl
    · cases h
  · obtain ⟨hfree, h⟩ := and_of_bind_eq_ok h
    cases h
    exact .inr ⟨hfree, rfl⟩

/-- What `DROP INDEX` does: nothing, or a table has one index less. -/
theorem execDropIndex_eq_ok {d : DropIndex} (h : execDropIndex db d = .ok db') :
    db' = db ∨ ∃ name r, db.table name = some r ∧
      db' = db.setTable name { r with table := r.table.dropIndex d.name } := by
  rw [execDropIndex] at h
  split at h
  · next name r hfound =>
    cases h
    obtain ⟨name', -, hname⟩ := exists_of_findSome?_eq_some hfound
    obtain ⟨r', hr, hname⟩ := Option.bind_eq_some_iff.mp hname
    split at hname
    · cases hname
      exact .inr ⟨name, r, hr, rfl⟩
    · cases hname
  · split at h
    · cases h
      exact .inl rfl
    · cases h

variable {t : Truncate}

/-- What is kept when one table loses its rows is kept by `TRUNCATE`. -/
theorem execTruncate_induction {P : Database → Prop} (h : execTruncate db t = .ok db') (h0 : P db)
    (hstep : ∀ db name r, P db →
      db.table name = some r → P (db.setTable name { r with table := r.table.truncate })) :
    P db' := by
  obtain ⟨-, h⟩ := and_of_bind_eq_ok h
  refine foldlM_induction (P := fun _ db => P db) h h0 fun name _ db db' h hround => ?_
  rw [Database.truncateTable] at hround
  split at hround
  · cases hround
  · next r hr =>
    cases hround
    exact hstep db name r h hr

end PostgresRs.Constraint
