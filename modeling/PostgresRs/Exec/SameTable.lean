import PostgresRs.Exec.Dml

/-!
# Which rows the statements on a table mean

`SELECT` reads a table with its descendants, `UPDATE` and `DELETE` change the rows of the table
itself.  `seesSameTable` says when a `DELETE` reports as many rows as the `SELECT` with the same
condition has returned, and leaves none for it, and an `UPDATE` reports as many.

A `SELECT` uses an index only if the table has no descendants.  Then all three statements look at the
same rows, and a `DELETE` leaves a part of them for the `SELECT` after it.  Otherwise the index that
`UPDATE` and `DELETE` use has to find every row of which the condition is true.
-/

namespace PostgresRs.Exec

open Storage List

theorem mem_keepAt {α : Type} {l : List α} {p : Nat → Bool} {x : α} :
    x ∈ keepAt p l ↔ ∃ pos, l[pos]? = some x ∧ p pos = true := by
  rw [keepAt, mem_map]
  constructor
  · rintro ⟨⟨x, pos⟩, he, rfl⟩
    obtain ⟨hmem, hp⟩ := mem_filter.mp he
    exact ⟨pos, mk_mem_zipIdx_iff_getElem?.mp hmem, hp⟩
  · rintro ⟨pos, hx, hp⟩
    exact ⟨(x, pos), mem_filter.mpr ⟨mk_mem_zipIdx_iff_getElem?.mpr hx, hp⟩, rfl⟩

namespace Relations

/-! ## What a SELECT returns -/

section Select

variable [BEq Expr] {db : Relations} {ext : Externals} {scope : Scope} {available : Nat}
  {fresh : Functions} {name : String} {filter : Option Expr} {source : Source}
  {rows : List (List Value)}

/-- The threads that filter the rows of a source answer alike. -/
def ThreadsAgree (ext : Externals) (available : Nat) (fresh : Functions) (filter : Option Expr)
    (source : Source) : Prop :=
  parallelSelectWorkerCount available source.rows.length ≤ 1 ∨
    ∀ row ∈ source.rows, AnsweredAlike ext source.names filter fresh row

variable (hsource : db.buildSourceOrdered scope ext ⟨.plain name, []⟩ filter = .ok source)
  (hthreads : ThreadsAgree ext available fresh filter source)
include hsource hthreads

theorem selectAll_eq_ok (h : db.selectAll ext scope available fresh name filter = .ok rows) :
    (∀ row ∈ source.rows, ∃ keep, passes ext source.names filter row = .ok keep) ∧
      rows.length =
        (source.rows.filter fun row => accepted (passes ext source.names filter row)).length := by
  obtain ⟨source', hsource', h⟩ := of_bind_eq_ok h
  obtain rfl := Except.ok.inj (hsource.symm.trans hsource')
  obtain ⟨kept, hkept, h⟩ := of_bind_eq_ok h
  obtain ⟨hall, rfl⟩ := (filterSelectRows_passesOn hthreads).mp hkept
  exact ⟨hall, (forall₂_of_mapM_eq_ok h).length_eq.symm⟩

theorem selectAll_eq_nil
    (hall : ∀ row ∈ source.rows, passes ext source.names filter row = .ok false) :
    db.selectAll ext scope available fresh name filter = .ok [] := by
  have hnone : [] = source.rows.filter fun row =>
      accepted (passes ext source.names filter row) := by
    refine (filter_eq_nil_iff.mpr fun row hrow => ?_).symm
    rw [hall row hrow]
    exact Bool.false_ne_true
  have hkept := (filterSelectRows_passesOn hthreads).mpr
    ⟨fun row hrow => ⟨false, hall row hrow⟩, hnone⟩
  rw [selectAll, hsource]
  exact congrArg (· >>= fun rows => rows.mapM (wildcardRow source.names)) hkept

end Select

section Source

variable [BEq Expr] {db : Relations} {ext : Externals} {scope : Scope} {name : String}
  {filter : Option Expr} {t : Table}

/-- The rows of a table itself. -/
def ownRows (t : Table) : List (List Value) := t.rows.map t.detoastRow

/-- A SELECT on the table looks for an index: the name is not one of a common table expression or of
the catalog, and the table has no descendants. -/
def Narrowed (db : Relations) (scope : Scope) (name : String) : Prop :=
  scope.isCte name = false ∧ scope.isPgCatalogTable name = false ∧ db.descendantTables name = []

/-- The source of a table with the given rows. -/
def tableSource (name : String) (t : Table) (rows : List (List Value)) : Source :=
  ⟨sourceNames (.plain name) t, t.columns.map Column.dataType, rows⟩

omit [BEq Expr] in
theorem ThreadsAgree.mono {available : Nat} {fresh : Functions} {rows rows' : List (List Value)}
    (h : ThreadsAgree ext available fresh filter (tableSource name t rows))
    (hlength : rows'.length ≤ rows.length) (hsub : rows' ⊆ rows) :
    ThreadsAgree ext available fresh filter (tableSource name t rows') :=
  h.imp (fun h => workerCount_le_one h hlength) fun h row hrow => h row (hsub hrow)

theorem build_plain : db.buildSourceOrdered scope ext ⟨.plain name, []⟩ filter =
    db.resolveBaseSource scope ext (.plain name) filter := by
  rw [buildSourceOrdered, buildSourceWith, isEmpty_nil, if_pos rfl]
  rcases db.resolveBaseSource scope ext (.plain name) filter with f | source <;> rfl

variable (htable : db.table name = some t)
include htable

omit [BEq Expr] in
theorem resolveSourceTable_plain (hother : scope.other (.plain name) = none) :
    db.resolveSourceTable scope (.plain name) =
      (db.inheritedRows name t).map fun inherited =>
        tableSource name t (ownRows t ++ inherited) := by
  rw [resolveSourceTable, hother, show (TableRef.plain name).name = name from rfl, htable]
  dsimp only
  rcases db.inheritedRows name t with f | inherited <;> rfl

/-- The source of a SELECT that goes over all rows: it does not look for an index or finds none. -/
theorem build_of_all (hother : scope.other (.plain name) = none)
    (h : db.Narrowed scope name → ∀ pred, filter = some pred → indexAccess ext t pred = none) :
    db.buildSourceOrdered scope ext ⟨.plain name, []⟩ filter =
      (db.inheritedRows name t).map fun inherited =>
        tableSource name t (ownRows t ++ inherited) := by
  rw [build_plain, ← resolveSourceTable_plain htable hother, resolveBaseSource.eq_def]
  dsimp only
  split
  · rfl
  next hbase =>
  rcases filter with _ | pred
  · rfl
  rw [show (TableRef.plain name).name = name from rfl, htable]
  dsimp only
  have hnarrowed : db.Narrowed scope name := by
    refine ⟨?_, ?_, ?_⟩ <;> by_contra hne <;> simp [TableRef.plain, hne] at hbase
  rw [indexCandidatePositions, h hnarrowed pred rfl]

/-- The source of a SELECT that uses an index. -/
theorem build_of_index {pred : Expr} {idx : Index} {probe : Probe} {ids : List RowId}
    (h : db.Narrowed scope name) (haccess : indexAccess ext t pred = some (idx, probe))
    (hids : idx.store.lookup probe = .ok ids)
    (hlt : ∀ pos ∈ t.idsToPositions ids, pos < t.rows.length) :
    db.buildSourceOrdered scope ext ⟨.plain name, []⟩ (some pred) =
      .ok (tableSource name t ((t.idsToPositions ids).eraseDups.map (rowAt t))) := by
  obtain ⟨hcte, hcatalog, hdescendants⟩ := h
  rw [build_plain, resolveBaseSource.eq_def, if_neg (by simp [TableRef.plain, hcte, hcatalog,
    hdescendants]), show (TableRef.plain name).name = name from rfl, htable]
  dsimp only
  rw [indexCandidatePositions, haccess]
  dsimp only
  rw [hids]
  dsimp only [bind, Except.bind, pure, Except.pure]
  rw [rowsAt_eq_ok fun pos hpos => hlt pos (mem_eraseDups.mp hpos)]
  rfl

end Source

/-! ## Databases that a SELECT cannot tell apart -/

section Alike

variable {db db₁ db₂ : Relations} {ext : Externals} {scope : Scope} {available : Nat}
  {fresh : Functions} {name : String} {filter : Option Expr} {t t' : Table}

/-- A table, its descendants and their rows are the same. -/
structure Alike (db₁ db₂ : Relations) (name : String) : Prop where
  own : db₂.table name = db₁.table name
  descendants : db₂.descendantTables name = db₁.descendantTables name
  others : ∀ child ∈ db₁.descendantTables name, db₂.table child = db₁.table child

theorem inheritedRows_congr (hdescendants : db₂.descendantTables name = db₁.descendantTables name)
    (hothers : ∀ child ∈ db₁.descendantTables name, db₂.table child = db₁.table child)
    (hcolumns : t'.columns = t.columns) : db₂.inheritedRows name t' = db₁.inheritedRows name t := by
  have hmapM : ∀ f g : String → Except Failure (List (List Value)),
      (∀ child ∈ db₁.descendantTables name, f child = g child) →
        (db₁.descendantTables name).mapM f = (db₁.descendantTables name).mapM g := fun f g =>
    mapM_congr_of_mem
  rw [inheritedRows, inheritedRows, hdescendants]
  rw [hmapM _ _ fun child hchild => ?_]
  rw [hothers child hchild, Table.columnNames, Table.columnNames, hcolumns]

theorem Alike.selectAll_eq [BEq Expr] (h : Alike db₁ db₂ name) :
    db₂.selectAll ext scope available fresh name filter =
      db₁.selectAll ext scope available fresh name filter := by
  have hinherited : ∀ t, db₂.inheritedRows name t = db₁.inheritedRows name t := fun t =>
    inheritedRows_congr h.descendants h.others rfl
  have hresolve : db₂.resolveSourceTable scope (.plain name) =
      db₁.resolveSourceTable scope (.plain name) := by
    rw [resolveSourceTable, resolveSourceTable, show (TableRef.plain name).name = name from rfl,
      h.own]
    simp only [hinherited]
  have hbase : db₂.resolveBaseSource scope ext (.plain name) filter =
      db₁.resolveBaseSource scope ext (.plain name) filter := by
    rw [resolveBaseSource.eq_def, resolveBaseSource.eq_def, hresolve,
      show (TableRef.plain name).name = name from rfl, h.own, h.descendants]
  rw [selectAll, selectAll, build_plain, build_plain, hbase]

theorem table_setTable : (db.setTable name t').table name = some t' := AList.lookup_insert _

theorem table_setTable_of_ne {other : String} (h : other ≠ name) :
    (db.setTable name t').table other = db.table other := AList.lookup_insert_ne h

/-- A new version of a table leaves the inheritance as it is. -/
theorem descendantTables_setTable (htable : db.table name = some t) (parent : String) :
    (db.setTable name t').descendantTables parent = db.descendantTables parent := by
  have hmem : name ∈ db.tables.tables.keys :=
    AList.mem_keys.mp (AList.lookup_isSome.mp (Option.isSome_iff_exists.mpr ⟨t, htable⟩))
  have hnames : (db.setTable name t').tables.tableNames = db.tables.tableNames := by
    have hkeys : (db.setTable name t').tables.tables.keys.Perm db.tables.tables.keys := by
      rw [setTable, AList.keys_insert]
      exact (perm_cons_erase hmem).symm
    refine List.Perm.eq_of_pairwise' (r := (· ≤ ·)) (pairwise_insertionSort _ _)
      (pairwise_insertionSort _ _) ?_
    exact (perm_insertionSort _ _).trans (hkeys.trans (perm_insertionSort _ _).symm)
  have hchildren : (db.setTable name t').childTables = db.childTables := by
    funext parent
    rw [childTables, hnames]
    rfl
  rw [descendantTables, descendantTables, hchildren, hnames]

/-- A new version of the table leaves the rows of the descendants as they are. -/
theorem inheritedRows_setTable (htable : db.table name = some t)
    (hcolumns : t'.columns = t.columns) :
    (db.setTable name t').inheritedRows name t' = db.inheritedRows name t := by
  refine inheritedRows_congr (descendantTables_setTable htable name) (fun child hchild => ?_)
    hcolumns
  exact table_setTable_of_ne (mem_descendantTables.mp hchild).1

theorem tableSource_congr (hcolumns : t'.columns = t.columns) (rows : List (List Value)) :
    tableSource name t' rows = tableSource name t rows := by
  simp only [tableSource, sourceNames, hcolumns]

end Alike

/-! ## The rows that a DELETE leaves -/

section Deleted

variable {ext : Externals} {eval : EvalExpr} {t t' : Table} {positions cs : List Nat}
  {names : List String} {filter : Option Expr}

theorem meant_eq {pos : Nat} (h : pos < t.rows.length) :
    meant ext names filter t pos = accepted (passes ext names filter (rowAt t pos)) := by
  rw [meant, rowAt, getElem?_eq_getElem h]
  rfl

theorem lt_of_meant {pos : Nat} (h : meant ext names filter t pos = true) :
    pos < t.rows.length := by
  by_contra hlt
  rw [meant, getElem?_eq_none (Nat.not_lt.mp hlt)] at h
  cases h

theorem rowAt_mem_ownRows {pos : Nat} (h : pos < t.rows.length) : rowAt t pos ∈ ownRows t := by
  rw [rowAt, getElem?_eq_getElem h]
  exact mem_map_of_mem (getElem_mem h)

/-- The place of a row in the map of positions. -/
theorem exists_of_lookup_foldl_insert {α : Type} {entries : List ((α × RowId) × Nat)} {id : RowId}
    {pos : Nat} (h : (entries.foldl (fun m e => m.insert e.1.2 e.2) ∅ : AList fun _ => Nat).lookup id =
      some pos) : ∃ e ∈ entries, e.1.2 = id ∧ e.2 = pos := by
  refine List.foldlRecOn entries _ (b := ∅) (motive := fun m : AList fun _ => Nat =>
    m.lookup id = some pos → ∃ e ∈ entries, e.1.2 = id ∧ e.2 = pos) nofun (fun m hm e he h => ?_) h
  by_cases hid : id = e.1.2
  · subst hid
    rw [AList.lookup_insert] at h
    exact ⟨e, he, rfl, Option.some.inj h⟩
  · rw [AList.lookup_insert_ne hid] at h
    exact hm h

theorem rowIds_of_positionOf (hne : positions ≠ []) (h : t.deleteRows eval positions = .ok t')
    {id : RowId} {pos : Nat} (hpos : t'.positionOf id = some pos) : t'.rowIds[pos]? = some id := by
  rw [Table.deleteRows, if_neg hne] at h
  split at h
  · cases h
  obtain ⟨t₁, -, h⟩ := of_bind_eq_ok h
  split at h
  · cases h
  obtain rfl := Except.ok.inj h
  obtain ⟨e, he, rfl, rfl⟩ := exists_of_lookup_foldl_insert hpos
  dsimp only
  rw [getElem?_map, mk_mem_zipIdx_iff_getElem?.mp he]
  rfl

/-- Every row that is left was there before, and is not one of those that are deleted. -/
theorem exists_of_view_deleteRows (hs : t.Sound) (h : t.deleteRows eval positions = .ok t')
    {pos' : Nat} {e : RowId × List Value} (he : t'.view[pos']? = some e) :
    ∃ pos, t.view[pos]? = some e ∧ positions.contains pos = false := by
  have hmem := mem_of_getElem? he
  rw [(hs.deleteRows h).2] at hmem
  obtain ⟨pos, hpos, hnot⟩ := mem_keepAt.mp hmem
  exact ⟨pos, hpos, by simpa using hnot⟩

theorem rowAt_of_view {pos : Nat} {e : RowId × List Value} (h : t.view[pos]? = some e) :
    pos < t.rows.length ∧ rowAt t pos = e.2 := by
  obtain ⟨stored, hrow, -, hdetoast⟩ := Table.view_getElem?_eq_some.mp h
  refine ⟨(List.getElem?_eq_some_iff.mp hrow).1, ?_⟩
  rw [rowAt, hrow]
  exact hdetoast

theorem exists_view_of_lt (hs : t.Sound) {pos : Nat} (h : pos < t.rows.length) :
    ∃ e, t.view[pos]? = some e := by
  have hid : pos < t.rowIds.length := hs.length ▸ h
  exact ⟨(t.rowIds[pos], t.detoastRow t.rows[pos]), Table.view_getElem?_eq_some.mpr
    ⟨_, getElem?_eq_getElem h, getElem?_eq_getElem hid, rfl⟩⟩

/-- The rows that are left were there before, and are not more. -/
theorem ownRows_deleteRows (hs : t.Sound) (h : t.deleteRows eval positions = .ok t') :
    (∀ row ∈ ownRows t', ∃ pos, pos < t.rows.length ∧ rowAt t pos = row ∧
      positions.contains pos = false) ∧ t'.rows.length ≤ t.rows.length := by
  obtain ⟨hs', hview⟩ := hs.deleteRows h
  constructor
  · intro row hrow
    obtain ⟨pos', hpos', rfl⟩ := mem_iff_getElem.mp hrow
    have hlt : pos' < t'.rows.length := by rwa [ownRows, length_map] at hpos'
    obtain ⟨e, he⟩ := exists_view_of_lt hs' hlt
    obtain ⟨pos, hpos, hnot⟩ := exists_of_view_deleteRows hs h he
    refine ⟨pos, (rowAt_of_view hpos).1, (rowAt_of_view hpos).2.trans ?_, hnot⟩
    rw [← (rowAt_of_view he).2, rowAt, getElem?_eq_getElem hlt]
    exact (getElem_map _).symm
  · have hlength : t.view.length = t.rows.length := by
      rw [← length_map Prod.fst, hs.map_fst_view, ← hs.length]
    have hlength' : t'.view.length = t'.rows.length := by
      rw [← length_map Prod.fst, hs'.map_fst_view, ← hs'.length]
    rw [← hlength, ← hlength', hview]
    exact (keepAt_sublist _ _).length_le

/-- What an index finds after rows are deleted, it has found before. -/
theorem found_of_deleteRows {K : Value → Prop} {idx idx' : Index} {probe : Probe}
    {ids ids' : List RowId} (hs : t.Sound) (ht : t.Maintained (evalIndex ext))
    (hsorted : t.Sorted K (evalIndex ext) idx)
    (hconstants : idx.store.compares = true → ∀ v ∈ probe.values, K v) (hidx : idx ∈ t.indexes)
    (hshape : idx.SameShape idx') (hids : idx.store.lookup probe = .ok ids)
    (hids' : idx'.store.lookup probe = .ok ids') (hne : positions ≠ [])
    (h : t.deleteRows (evalIndex ext) positions = .ok t') {pos' : Nat}
    (hpos' : pos' ∈ t'.idsToPositions ids') :
    pos' < t'.rows.length ∧ ∃ pos ∈ t.idsToPositions ids, pos < t.rows.length ∧
      rowAt t pos = rowAt t' pos' ∧ positions.contains pos = false := by
  obtain ⟨id, hid, hpos'⟩ := mem_filterMap.mp hpos'
  have hrowId := rowIds_of_positionOf hne h hpos'
  have hlt : pos' < t'.rows.length :=
    (hs.deleteRows h).1.length ▸ (List.getElem?_eq_some_iff.mp hrowId).1
  have he : t'.view[pos']? = some (id, rowAt t' pos') :=
    Table.view_getElem?_eq_some.mpr ⟨_, getElem?_eq_getElem hlt, hrowId, by
      rw [rowAt, getElem?_eq_getElem hlt]
      rfl⟩
  obtain ⟨pos, hpos, hnot⟩ := exists_of_view_deleteRows hs h he
  refine ⟨hlt, pos, (mem_idsToPositions ht hpos).mpr ?_, (rowAt_of_view hpos).1,
    (rowAt_of_view hpos).2, hnot⟩
  exact hshape.within.lookup_subset hsorted.order hsorted.lawful
    (fun ranges hstore m hm => isKey_of_mem_all ht hsorted hidx hstore hm) hconstants hids hids' hid

end Deleted

/-! ## The law -/

section Law

variable [BEq Expr] (db : Relations) (ext : Externals) (scope : Scope) (available : Nat)
  (fresh : Functions) (checks : Checks) (name : String) (filter : Option Expr) (t : Table)

/-- What the statements on a table report if a SELECT has returned `rows`. -/
structure SeesSameTable (rows : List (List Value)) : Prop where
  deletes : ∀ db' n, db.execDelete ext checks none name filter = .ok (db', n) →
    n = rows.length ∧ db'.selectAll ext scope available fresh name filter = .ok []
  updates : ∀ assignments db' n,
    db.execUpdate ext checks none name assignments filter = .ok (db', n) → n = rows.length

/-- The name means a table whose rows, ids and indexes are in step, and the triggers of a DELETE leave
it and its descendants alone. -/
structure Plain : Prop where
  table : db.table name = some t
  sound : t.Sound
  maintained : t.Maintained (evalIndex ext)
  resolves : scope.other (.plain name) = none
  quiet : ∀ n db₁ db₂, checks.fire name "delete" n db₁ = .ok db₂ → Alike db₁ db₂ name

/-- The condition is true of no row of a descendant.  On the rows of the table itself it says the same
under the names of a SELECT and under bare names, and the threads of the SELECT answer alike.  If the
SELECT does not look for an index, one that UPDATE and DELETE use compares as the condition does. -/
structure OwnRowsOnly : Prop where
  inherited : ∀ rows, db.inheritedRows name t = .ok rows → ∀ row ∈ rows,
    passes ext (sourceNames (.plain name) t) filter row ≠ .ok true
  names : ∀ row ∈ ownRows t, passes ext (sourceNames (.plain name) t) filter row =
    passes ext t.columnNames filter row
  threads : ∀ rows, db.inheritedRows name t = .ok rows →
    ThreadsAgree ext available fresh filter (tableSource name t (ownRows t ++ rows))
  scanned : ¬db.Narrowed scope name → ∀ pred, filter = some pred → ∀ idx probe,
    indexAccess ext t pred = some (idx, probe) →
      NamesAgree t t.columnNames ∧ ∃ K, Usable ext t t.columnNames pred K idx probe
  narrowed : db.Narrowed scope name → ∀ pred, filter = some pred → ∀ idx probe,
    indexAccess ext t pred = some (idx, probe) →
      ∃ K, t.Sorted K (evalIndex ext) idx ∧ (idx.store.compares = true → ∀ v ∈ probe.values, K v)

variable {db ext scope available fresh checks name filter t} {db' : Relations} {t' : Table} {n : Nat}
  {rows : List (List Value)} {cs : List Nat}

/-- A DELETE leaves to a SELECT what it leaves in the table. -/
theorem selectAll_of_fireRowTriggers (hplain : db.Plain ext scope checks name t)
    (h : (db.setTable name t').fireRowTriggers checks name "delete" n = .ok db') :
    db'.selectAll ext scope available fresh name filter =
      (db.setTable name t').selectAll ext scope available fresh name filter := by
  rw [fireRowTriggers] at h
  split at h
  · rw [Except.ok.inj h]
  rcases hfire : checks.fire name "delete" n (db.setTable name t') with m | db₂
  · rw [hfire] at h
    cases h
  · rw [hfire] at h
    obtain rfl := Except.ok.inj h
    exact (hplain.quiet _ _ _ hfire).selectAll_eq

/-- The candidates of UPDATE and DELETE: all positions, or those that an index finds. -/
theorem candidatePositions_cases (hcs : candidatePositions ext t filter = .ok cs) :
    (cs = List.range t.rows.length ∧ ∀ pred, filter = some pred → indexAccess ext t pred = none) ∨
      ∃ pred idx probe ids, filter = some pred ∧ indexAccess ext t pred = some (idx, probe) ∧
        idx.store.lookup probe = .ok ids ∧ cs = (t.idsToPositions ids).eraseDups := by
  rcases filter with _ | pred
  · exact .inl ⟨(Except.ok.inj hcs).symm, nofun⟩
  obtain ⟨found, hfound, hcs⟩ := of_bind_eq_ok hcs
  rw [indexCandidatePositions] at hfound
  rcases haccess : indexAccess ext t pred with _ | ⟨idx, probe⟩
  · rw [haccess] at hfound
    obtain rfl := Except.ok.inj hfound
    exact .inl ⟨(Except.ok.inj hcs).symm, fun _ h => Option.some.inj h ▸ haccess⟩
  · rw [haccess] at hfound
    obtain ⟨ids, hids, hfound⟩ := of_bind_eq_ok hfound
    obtain rfl := Except.ok.inj hfound
    exact .inr ⟨pred, idx, probe, ids, rfl, haccess, hids, (Except.ok.inj hcs).symm⟩

/-- Putting a table in its own place changes nothing for a SELECT. -/
theorem selectAll_setTable_self (htable : db.table name = some t) :
    (db.setTable name t).selectAll ext scope available fresh name filter =
      db.selectAll ext scope available fresh name filter := by
  have halike : Alike db (db.setTable name t) name :=
    { own := table_setTable.trans htable.symm
      descendants := descendantTables_setTable htable name
      others := fun child hchild => table_setTable_of_ne (mem_descendantTables.mp hchild).1 }
  exact halike.selectAll_eq

section Own

variable (hown : db.OwnRowsOnly ext scope available fresh name filter t)
include hown

theorem OwnRowsOnly.accepted_eq {pos : Nat} (hlt : pos < t.rows.length) :
    accepted (passes ext (sourceNames (.plain name) t) filter (rowAt t pos)) =
      meant ext t.columnNames filter t pos := by
  rw [meant_eq hlt, hown.names _ (rowAt_mem_ownRows hlt)]

/-- The rows that pass in the SELECT are those that UPDATE and DELETE mean. -/
theorem OwnRowsOnly.length_filter_accepted {positions : List Nat}
    (hlt : ∀ pos ∈ positions, pos < t.rows.length) :
    ((positions.map (rowAt t)).filter fun row =>
      accepted (passes ext (sourceNames (.plain name) t) filter row)).length =
        (positions.filter (meant ext t.columnNames filter t)).length := by
  rw [filter_map, length_map]
  exact congrArg length (filter_congr fun pos hpos => hown.accepted_eq (hlt pos hpos))

/-- Without descendants the threads agree on the rows that an index finds. -/
theorem OwnRowsOnly.threads_of_narrowed (hnarrowed : db.Narrowed scope name)
    {found : List (List Value)} (hlength : found.length ≤ t.rows.length)
    (hsub : ∀ row ∈ found, row ∈ ownRows t) :
    ThreadsAgree ext available fresh filter (tableSource name t found) := by
  have hinherited : db.inheritedRows name t = .ok [] := by
    rw [inheritedRows, hnarrowed.2.2]
    rfl
  refine (hown.threads [] hinherited).mono ?_ fun row hrow => mem_append_left _ (hsub row hrow)
  simpa [ownRows] using hlength

/-- Where the SELECT goes over all rows, UPDATE and DELETE look at the rows they mean. -/
theorem OwnRowsOnly.mem_candidates [LawfulBEq Expr] (ht : t.Maintained (evalIndex ext))
    (hcs : candidatePositions ext t filter = .ok cs)
    (hall : db.Narrowed scope name → ∀ pred, filter = some pred → indexAccess ext t pred = none)
    {pos : Nat} (hpos : meant ext t.columnNames filter t pos = true) : pos ∈ cs := by
  rcases candidatePositions_cases hcs with
    ⟨rfl, -⟩ | ⟨pred, idx, probe, ids, rfl, haccess, hids, rfl⟩
  · exact mem_range.mpr (lt_of_meant hpos)
  · have hscans : ¬db.Narrowed scope name := fun h => by
      rw [hall h pred rfl] at haccess
      cases haccess
    obtain ⟨hnames, K, husable⟩ := hown.scanned hscans pred rfl idx probe haccess
    obtain ⟨id, hview⟩ := view_of_lt ht (lt_of_meant hpos)
    rw [meant_eq (lt_of_meant hpos), accepted_passes] at hpos
    exact mem_eraseDups.mpr ((mem_idsToPositions ht hview).mpr
      (husable.mem_lookup ht hnames haccess hids (mem_of_getElem? hview) hpos))

end Own

section Plain

variable [LawfulBEq Expr] (hplain : db.Plain ext scope checks name t)
  (hselect : db.selectAll ext scope available fresh name filter = .ok rows)
  (hown : db.OwnRowsOnly ext scope available fresh name filter t)
  (hcs : candidatePositions ext t filter = .ok cs)
include hplain hselect hown hcs

/-- The positions that the SELECT looks at: it evaluates the condition there, has returned as many
rows as pass, and if a row passes, UPDATE and DELETE look at it too. -/
theorem OwnRowsOnly.exists_positions : ∃ positions : List Nat, positions.Nodup ∧
    (∀ pos ∈ positions, pos < t.rows.length ∧ ∃ keep,
      passes ext (sourceNames (.plain name) t) filter (rowAt t pos) = .ok keep) ∧
    rows.length = (positions.filter (meant ext t.columnNames filter t)).length ∧
    (∀ pos, meant ext t.columnNames filter t pos = true → (pos ∈ positions ↔ pos ∈ cs)) ∧
    ((positions = List.range t.rows.length ∧
      (db.Narrowed scope name → ∀ pred, filter = some pred → indexAccess ext t pred = none) ∧
        ∃ inherited, db.inheritedRows name t = .ok inherited ∧ ∀ row ∈ inherited,
          passes ext (sourceNames (.plain name) t) filter row = .ok false) ∨
      (db.Narrowed scope name ∧ positions = cs ∧
        ¬∀ pred, filter = some pred → indexAccess ext t pred = none)) := by
  by_cases hall : db.Narrowed scope name → ∀ pred, filter = some pred → indexAccess ext t pred = none
  · have hbuild := build_of_all hplain.table hplain.resolves hall
    rcases hinherited : db.inheritedRows name t with f | inherited
    · rw [selectAll, hbuild, hinherited] at hselect
      cases hselect
    rw [hinherited] at hbuild
    obtain ⟨heval, hlength⟩ := selectAll_eq_ok hbuild (hown.threads inherited hinherited) hselect
    have hnone : ∀ row ∈ inherited, passes ext (sourceNames (.plain name) t) filter row =
        .ok false := by
      intro row hrow
      obtain ⟨keep, hkeep⟩ := heval row (mem_append_right _ hrow)
      cases keep with
      | false => exact hkeep
      | true => exact absurd hkeep (hown.inherited _ hinherited row hrow)
    have hrange : ∀ pos ∈ List.range t.rows.length, pos < t.rows.length := fun pos => mem_range.mp
    refine ⟨List.range t.rows.length, nodup_range, fun pos hpos => ⟨hrange pos hpos, ?_⟩, ?_,
      fun pos hpos => ?_, .inl ⟨rfl, hall, inherited, rfl, hnone⟩⟩
    · exact heval _ (mem_append_left _ (rowAt_mem_ownRows (hrange pos hpos)))
    · have hfilter : inherited.filter (fun row =>
          accepted (passes ext (sourceNames (.plain name) t) filter row)) = [] :=
        filter_eq_nil_iff.mpr fun row hrow => by
          rw [hnone row hrow]
          exact Bool.false_ne_true
      dsimp only [tableSource] at hlength
      rw [hlength, filter_append, hfilter, append_nil, ownRows, ← map_rowAt_range]
      exact hown.length_filter_accepted hrange
    · exact iff_of_true (mem_range.mpr (lt_of_meant hpos))
        (hown.mem_candidates hplain.maintained hcs hall hpos)
  · obtain ⟨hnarrowed, hindex⟩ := Classical.not_imp.mp hall
    rcases candidatePositions_cases hcs with
      ⟨-, hnone⟩ | ⟨pred, idx, probe, ids, rfl, haccess, hids, rfl⟩
    · exact absurd hnone hindex
    have hlt : ∀ pos ∈ t.idsToPositions ids, pos < t.rows.length := fun pos hpos =>
      lt_of_mem_idsToPositions hplain.maintained hpos
    have hlt' : ∀ pos ∈ (t.idsToPositions ids).eraseDups, pos < t.rows.length := fun pos hpos =>
      hlt pos (mem_eraseDups.mp hpos)
    have hbuild := build_of_index hplain.table hnarrowed haccess hids hlt
    have hthreads : ThreadsAgree ext available fresh (some pred)
        (tableSource name t ((t.idsToPositions ids).eraseDups.map (rowAt t))) := by
      refine hown.threads_of_narrowed hnarrowed ?_ fun row hrow => ?_
      · rw [length_map]
        exact length_le_of_nodup (nodup_eraseDups _) hlt'
      · obtain ⟨pos, hpos, rfl⟩ := mem_map.mp hrow
        exact rowAt_mem_ownRows (hlt' pos hpos)
    obtain ⟨heval, hlength⟩ := selectAll_eq_ok hbuild hthreads hselect
    refine ⟨_, nodup_eraseDups _, fun pos hpos => ⟨hlt' pos hpos, heval _ (mem_map_of_mem hpos)⟩,
      hlength.trans (hown.length_filter_accepted hlt'), fun pos _ => Iff.rfl,
      .inr ⟨hnarrowed, rfl, hindex⟩⟩

/-- The statements report as many rows as the SELECT has returned. -/
theorem OwnRowsOnly.length_eq : (meantPositions ext filter t cs).length = rows.length := by
  obtain ⟨positions, hnodup, -, hlength, hiff, -⟩ := hown.exists_positions hplain hselect hcs
  rw [hlength]
  refine ((perm_ext_iff_of_nodup (nodup_range.filter _) (hnodup.filter _)).mpr fun pos => ?_).length_eq
  rw [mem_filter, mem_filter, mem_range, Bool.and_eq_true, contains_iff_mem]
  constructor
  · rintro ⟨-, hmem, hmeant⟩
    exact ⟨(hiff pos hmeant).mpr hmem, hmeant⟩
  · rintro ⟨hmem, hmeant⟩
    exact ⟨lt_of_meant hmeant, (hiff pos hmeant).mp hmem, hmeant⟩

/-- A DELETE leaves nothing for the SELECT. -/
theorem OwnRowsOnly.selectAll_setTable
    (hdelete : t.deleteRows (evalIndex ext) (meantPositions ext filter t cs) = .ok t') :
    (db.setTable name t').selectAll ext scope available fresh name filter = .ok [] := by
  by_cases hnone : meantPositions ext filter t cs = []
  · -- Nothing is deleted, and the SELECT has returned nothing before.
    have hlength := hown.length_eq hplain hselect hcs
    rw [hnone] at hdelete hlength
    obtain rfl := Except.ok.inj hdelete
    obtain rfl := length_eq_zero_iff.mp hlength.symm
    exact (selectAll_setTable_self hplain.table).trans hselect
  obtain ⟨positions, -, heval, -, hiff, hcases⟩ := hown.exists_positions hplain hselect hcs
  obtain ⟨hcolumns, hindexes⟩ := sameShape_deleteRows hdelete
  obtain ⟨hrows, hless⟩ := ownRows_deleteRows hplain.sound hdelete
  have hshape := fun pred => @indexAccess_of_shape ext t t' hcolumns hindexes _ pred
  have hnarrowed' : (db.setTable name t').Narrowed scope name ↔ db.Narrowed scope name := by
    rw [Narrowed, Narrowed, descendantTables_setTable hplain.table]
  -- A row that is left was looked at and did not pass.
  have hrest : ∀ pos ∈ positions, (meantPositions ext filter t cs).contains pos = false →
      passes ext (sourceNames (.plain name) t) filter (rowAt t pos) = .ok false := by
    intro pos hpos hnot
    obtain ⟨hlt, keep, hkeep⟩ := heval pos hpos
    cases keep with
    | false => exact hkeep
    | true =>
      have hmeant : meant ext t.columnNames filter t pos = true := by
        rw [← hown.accepted_eq hlt, hkeep]
        rfl
      have hmem : pos ∈ meantPositions ext filter t cs := by
        rw [meantPositions, mem_filter, Bool.and_eq_true, contains_iff_mem]
        exact ⟨mem_range.mpr hlt, (hiff pos hmeant).mp hpos, hmeant⟩
      rw [contains_iff_mem.mpr hmem] at hnot
      cases hnot
  have hsub : ∀ row ∈ ownRows t', row ∈ ownRows t := fun row hrow => by
    obtain ⟨pos, hlt, rfl, -⟩ := hrows row hrow
    exact rowAt_mem_ownRows hlt
  rcases hcases with ⟨rfl, hall, inherited, hinherited, hfalse⟩ | ⟨hnarrowed, rfl, hindex⟩
  · have hbuild := @build_of_all _ (db.setTable name t') ext scope name filter t' table_setTable
      hplain.resolves fun h pred hpred => (hshape pred).1 (hall (hnarrowed'.mp h) pred hpred)
    rw [inheritedRows_setTable hplain.table hcolumns, hinherited] at hbuild
    refine selectAll_eq_nil hbuild ?_ fun row hrow => ?_
    · dsimp only
      rw [tableSource_congr hcolumns]
      refine (hown.threads inherited hinherited).mono (by simpa [ownRows] using hless) ?_
      exact fun row hrow => mem_append.mpr ((mem_append.mp hrow).imp_left (hsub row))
    · dsimp only at hrow ⊢
      rw [tableSource_congr hcolumns] at hrow ⊢
      rcases mem_append.mp hrow with hrow | hrow
      · obtain ⟨pos, hlt, rfl, hnot⟩ := hrows row hrow
        exact hrest pos (mem_range.mpr hlt) hnot
      · exact hfalse row hrow
  · rcases candidatePositions_cases hcs with
      ⟨-, hnot⟩ | ⟨pred, idx, probe, ids, rfl, haccess, hids, rfl⟩
    · exact absurd hnot hindex
    obtain ⟨K, hsorted, hconstants⟩ := hown.narrowed hnarrowed pred rfl idx probe haccess
    obtain ⟨idx', haccess', hidx', hreturns⟩ := (hshape pred).2 idx probe haccess
    obtain ⟨ids', hids'⟩ := hreturns ids hids
    have hfound := fun pos' => @found_of_deleteRows ext t t' _ K idx idx' probe ids ids' hplain.sound
      hplain.maintained hsorted hconstants (indexAccess_cases haccess).1 hidx' hids hids' hnone hdelete
      pos'
    have hset : (db.setTable name t').table name = some t' := table_setTable
    have hbuild := build_of_index hset (hnarrowed'.mpr hnarrowed) haccess' hids' fun pos' hpos' => (hfound pos' hpos').1
    refine selectAll_eq_nil hbuild ?_ fun row hrow => ?_
    · have hlt' : ∀ pos' ∈ (t'.idsToPositions ids').eraseDups, pos' < t'.rows.length :=
        fun pos' hpos' => (hfound pos' (mem_eraseDups.mp hpos')).1
      rw [tableSource_congr hcolumns]
      refine hown.threads_of_narrowed hnarrowed ?_ fun row hrow => ?_
      · rw [length_map]
        exact (length_le_of_nodup (nodup_eraseDups _) hlt').trans hless
      · obtain ⟨pos', hpos', rfl⟩ := mem_map.mp hrow
        exact hsub _ (rowAt_mem_ownRows (hlt' pos' hpos'))
    · rw [tableSource_congr hcolumns] at hrow ⊢
      obtain ⟨pos', hpos', rfl⟩ := mem_map.mp hrow
      obtain ⟨-, pos, hpos, hlt, hsame, hnot⟩ := hfound pos' (mem_eraseDups.mp hpos')
      exact hsame ▸ hrest pos (mem_eraseDups.mpr hpos) hnot

end Plain

end Law

end Relations

/-- No constraints and no triggers. -/
def noChecks : Checks where
  generated _ _ := none
  deletable _ _ _ := .ok ()
  updatable _ _ _ := .ok ()
  returning _ := .ok ()
  fire _ _ _ db := .ok db

end PostgresRs.Exec
