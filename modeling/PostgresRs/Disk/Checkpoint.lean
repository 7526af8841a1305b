import PostgresRs.Disk.Store
import PostgresRs.Storage.Toast

/-!
# Recovery after a checkpoint

A database comes back from a checkpoint that returned exactly if no name of a table ends in a carriage
return and the tables that share a heap file have the same rows (`recover_checkpoint_iff`).  For the
catalog loses the carriage return, and names that differ only in characters other than letters,
digits and underscores share a file, in which the table that was written last is left.
-/

namespace PostgresRs

open List AList

/-! ## The same data -/

namespace Storage

/-- What a table of the source can be: its values are those of the source, no value out of line reads
as a pointer (`PlainChunks.apply`), and it fits into memory. -/
structure Table.Storable (t : Table) : Prop where
  valid : ∀ row ∈ t.rows, ∀ v ∈ row, v.Valid
  chunks : t.PlainChunks
  size : t.rows.length + (t.rows.map List.length).sum < 2 ^ 64

/-- The same values in the same order. -/
def SameRows : List (List Value) → List (List Value) → Prop := List.Forall₂ (List.Forall₂ Value.Same)

namespace SameRows

variable {rows rows' rows'' : List (List Value)}

theorem symm (h : SameRows rows rows') : SameRows rows' rows :=
  List.Forall₂.flip (h.imp fun _ _ hrow => (hrow.imp fun _ _ => Value.Same.symm).flip)

theorem trans (h : SameRows rows rows') (h' : SameRows rows' rows'') : SameRows rows rows'' := by
  have htrans : ∀ {α : Type} {R : α → α → Prop}, (∀ a b c, R a b → R b c → R a c) →
      ∀ l l' l'' : List α, List.Forall₂ R l l' → List.Forall₂ R l' l'' → List.Forall₂ R l l'' := by
    intro α R hR l l' l'' hl hl'
    induction hl generalizing l'' with
    | nil =>
      cases hl'
      exact .nil
    | cons hab hrest ih =>
      cases hl' with
      | cons hbc hrest' => exact .cons (hR _ _ _ hab hbc) (ih _ hrest')
  exact htrans (htrans (R := Value.Same) fun _ _ _ => .trans) _ _ _ h h'

theorem refl (rows : List (List Value)) : SameRows rows rows :=
  forall₂_same.mpr fun _ _ => forall₂_same.mpr fun v _ => .refl v

theorem padded (rows : List (List Value)) : SameRows rows (rows.map (·.map Value.padded)) := by
  refine forall₂_map_right_iff.mpr (forall₂_same.mpr fun row _ => ?_)
  exact forall₂_map_right_iff.mpr (forall₂_same.mpr fun v _ => .padded v)

end SameRows

/-- The same columns and rows. -/
structure SameTable (t t' : Table) : Prop where
  columns : t'.columns = t.columns
  rows : SameRows t.detoasted t'.detoasted

/-- The same tables under the same names. -/
def Database.SameData (db db' : Database) : Prop :=
  ∀ name, Option.Rel SameTable (db.table name) (db'.table name)

end Storage

namespace Disk
namespace DiskStore

open Storage (Table Column EvalExpr SameRows SameTable)

/-- Tables that come back: no name ends in a carriage return, and those with the same heap file have
the same rows. -/
structure Recoverable (db : Storage.Database) : Prop where
  names : ∀ name, (db.table name).isSome → name.toList.getLast? ≠ some '\r'
  files : ∀ name name' t t', db.table name = some t → db.table name' = some t' →
    heapFileName name = heapFileName name' → SameRows t.detoasted t'.detoasted

variable {eval : EvalExpr} {s : DiskStore} {db : Storage.Database} {t : Table} {name : String}

theorem mem_namedTables {e : String × Table} : e ∈ namedTables db ↔ db.table e.1 = some e.2 := by
  rw [namedTables, mem_filterMap]
  constructor
  · rintro ⟨name, -, h⟩
    obtain ⟨t, ht, rfl⟩ := Option.map_eq_some_iff.mp h
    exact ht
  · intro h
    refine ⟨e.1, (perm_insertionSort _ _).mem_iff.mpr ?_, by rw [h]; rfl⟩
    exact mem_keys.mp (lookup_isSome.mp (Option.isSome_of_eq_some h))

/-! ## Tables from heap files -/

/-- Tuples that hold rows are pushed as these rows. -/
theorem foldlM_pushTuple {rows : List (List Value)}
    (h : ∀ row ∈ rows, decodeRow (encodeRow row) = some (row.map Value.padded)) {t' : Table}
    (ht : (rows.map (·.map Value.padded)).foldlM (fun t row => t.pushRow eval row) t = .ok t') :
    (rows.map encodeRow).foldlM (pushTuple eval) t = .ok t' := by
  induction rows generalizing t with
  | nil =>
    cases ht
    rfl
  | cons row rows ih =>
    obtain ⟨hrow, hrows⟩ := forall_mem_cons.mp h
    rw [map_cons, foldlM_cons] at ht ⊢
    obtain ⟨t₁, ht₁, ht⟩ := of_bind_eq_ok ht
    have hpush : pushTuple eval t (encodeRow row) = .ok t₁ := by
      rw [pushTuple, hrow]
      show (t.pushRow eval (row.map Value.padded)).mapError _ = _
      rw [ht₁]
      rfl
    rw [hpush]
    exact ih hrows ht

theorem toastIdOf_padded (v : Value) : Storage.toastIdOf v.padded = Storage.toastIdOf v := by
  cases v <;> rfl

/-- The values of a table with all of them in line. -/
theorem valid_of_mem_detoasted (ht : t.Storable) {row : List Value} (hrow : row ∈ t.detoasted) :
    ∀ v ∈ row, v.Valid := by
  obtain ⟨stored, hstored, rfl⟩ := mem_map.mp hrow
  intro v hv
  obtain ⟨cell, hcell, rfl⟩ := mem_map.mp hv
  rw [Table.detoastValue]
  split
  · trivial
  · exact ht.valid stored hstored cell hcell

/-- **A table is recovered** with the rows of the table that its heap file keeps. -/
theorem exists_recoverTable (eval : EvalExpr) (ht : t.Storable) (tc : TableCatalog)
    (hkeeps : s.Keeps (heapFileName tc.name) (tuplesOf t)) : ∃ t', recoverTable eval s tc = .ok t' ∧
      t'.columns = tc.columns ∧ t'.detoasted = t.detoasted.map (·.map Value.padded) := by
  obtain ⟨pages, hfile, hwf, htuples⟩ := hkeeps
  obtain ⟨entries, hentries, hmap⟩ := (Heap.holds_open rfl hwf).iterTuples
  have hrows : tuplesOf t = t.detoasted.map encodeRow := by
    rw [Table.detoasted, map_map]
    rfl
  have hdecode : ∀ row ∈ t.detoasted, decodeRow (encodeRow row) = some (row.map Value.padded) := by
    intro row hrow
    have hmem : encodeRow row ∈ Heap.tuplesOf pages := by
      rw [htuples, hrows]
      exact mem_map_of_mem hrow
    have hlen : (encodeRow row).length < 2 ^ 32 :=
      (Heap.length_of_mem_tuplesOf hwf hmem).trans_lt (by decide)
    have hread := decodeRow_encodeRow (valid_of_mem_detoasted ht hrow)
      (fun v hv => textFits_of_mem hlen hv) ((length_lt_encodeRow row).trans hlen) []
    rwa [append_nil] at hread
  -- The rows that are pushed, and their sizes.
  have hfree : ∀ row ∈ t.detoasted.map (·.map Value.padded), Storage.PointerFree row := by
    intro row hrow
    obtain ⟨row, hmem, rfl⟩ := mem_map.mp hrow
    obtain ⟨stored, -, rfl⟩ := mem_map.mp hmem
    intro v hv
    obtain ⟨cell, hcell, rfl⟩ := mem_map.mp hv
    rw [toastIdOf_padded]
    exact ht.chunks.pointerFree_detoastRow stored cell hcell
  have hlen : (t.detoasted.map (·.map Value.padded)).length = t.rows.length := by
    rw [length_map, Table.detoasted, length_map]
  have hcells : ((t.detoasted.map (·.map Value.padded)).map List.length).sum =
      (t.rows.map List.length).sum := by
    rw [map_map, Table.detoasted, map_map]
    congr 1
    refine map_congr_left fun row _ => ?_
    show ((row.map t.detoastValue).map Value.padded).length = _
    rw [length_map, length_map]
  have hsize := ht.size
  obtain ⟨t', ht', -, -, hcolumns, hdetoasted⟩ :=
    Table.exists_pushRows eval hfree (Table.sound_new tc.name tc.columns []) rfl
      (by rw [hlen]; exact (Nat.zero_add _).trans_lt (by omega))
      (by rw [hcells]; exact (Nat.zero_add _).trans_lt (by omega))
  refine ⟨t', ?_, hcolumns, hdetoasted⟩
  rw [recoverTable, hfile]
  show ((Heap.open _).iterTuples.mapError Failure.io >>= _) = _
  rw [hentries]
  show entries.foldlM (fun t e => pushTuple eval t e.2.2) _ = _
  rw [← foldlM_map, hmap, htuples, hrows]
  exact foldlM_pushTuple hdecode ht'

theorem recoverTable_name {tc : TableCatalog} (h : recoverTable eval s tc = .ok t) :
    t.name = tc.name := by
  rw [recoverTable] at h
  split at h
  · cases h
    rfl
  · obtain ⟨tuples, -, h⟩ := of_bind_eq_ok h
    refine foldlM_induction (P := fun _ t => t.name = tc.name) h rfl ?_
    intro e _ t t' ht hpush
    rw [pushTuple] at hpush
    split at hpush
    · next row _ =>
      cases hrow : t.pushRow eval row with
      | error p =>
        rw [hrow] at hpush
        cases hpush
      | ok t₁ =>
        rw [hrow] at hpush
        cases hpush
        exact (Table.pushRow_name hrow).trans ht
    · cases hpush
      exact ht

/-! ## Databases from catalogs -/

theorem table_addTable (db : Storage.Database) (t : Table) (name : String) :
    (addTable db t).table name = (db.table name).or (if name = t.name then some t else none) := by
  rw [addTable, Storage.Database.createTable]
  split
  · next db' hdb' =>
    split at hdb'
    · cases hdb'
    next hnew =>
    cases hdb'
    show (db.tables.insert t.name t).lookup name = (db.tables.lookup name).or _
    rcases eq_or_ne name t.name with rfl | hne
    · rw [lookup_insert, lookup_eq_none.mpr hnew, if_pos rfl]
      rfl
    · rw [lookup_insert_ne hne, if_neg hne, Option.or_none]
  · next herr =>
    split at herr
    · next hold =>
      obtain ⟨t₀, ht₀⟩ := Option.isSome_iff_exists.mp (lookup_isSome.mpr hold)
      rcases eq_or_ne name t.name with rfl | hne
      · show db.tables.lookup _ = (db.tables.lookup _).or _
        rw [ht₀]
        rfl
      · rw [if_neg hne, Option.or_none]
    · cases herr

variable {catalog : List TableCatalog} {db' : Storage.Database}

/-- The loop over the catalog: a table that is there was there before or comes from the catalog, and
every name of the catalog is there. -/
theorem foldlM_recoverTable (h : catalog.foldlM (fun db tc => do
      let t ← recoverTable eval s tc
      .ok (addTable db t)) db = .ok db') :
    (∀ name t, db'.table name = some t → db.table name = some t ∨
      ∃ tc ∈ catalog, tc.name = name ∧ recoverTable eval s tc = .ok t) ∧
    (∀ name, (db.table name).isSome → (db'.table name).isSome) ∧
    ∀ tc ∈ catalog, (db'.table tc.name).isSome := by
  induction catalog generalizing db with
  | nil =>
    cases h
    exact ⟨fun name t ht => .inl ht, fun _ h => h, fun tc htc => by cases htc⟩
  | cons tc catalog ih =>
    obtain ⟨db₁, hdb₁, h⟩ := of_bind_eq_ok h
    obtain ⟨t, ht, hdb₁⟩ := of_bind_eq_ok hdb₁
    cases hdb₁
    obtain ⟨hfrom, hkeep, hall⟩ := ih h
    have hname := recoverTable_name ht
    refine ⟨fun name t' ht' => ?_, fun name hsome => hkeep name ?_, ?_⟩
    · rcases hfrom name t' ht' with hadd | ⟨tc', htc', hrest⟩
      · rw [table_addTable, Option.or_eq_some_iff] at hadd
        rcases hadd with hold | ⟨-, hnew⟩
        · exact .inl hold
        · split at hnew
          · next heq =>
            cases hnew
            exact .inr ⟨tc, mem_cons_self, hname.symm.trans heq.symm, ht⟩
          · cases hnew
      · exact .inr ⟨tc', mem_cons_of_mem _ htc', hrest⟩
    · rw [table_addTable, Option.isSome_or, hsome, Bool.true_or]
    · refine forall_mem_cons.mpr ⟨hkeep _ ?_, hall⟩
      rw [table_addTable, hname, if_pos rfl]
      cases db.table tc.name <;> rfl

theorem exists_foldlM_recoverTable (h : ∀ tc ∈ catalog, ∃ t, recoverTable eval s tc = .ok t)
    (db : Storage.Database) :
    ∃ db', catalog.foldlM (fun db tc => do
      let t ← recoverTable eval s tc
      .ok (addTable db t)) db = .ok db' := by
  induction catalog generalizing db with
  | nil => exact ⟨db, rfl⟩
  | cons tc catalog ih =>
    obtain ⟨⟨t, ht⟩, hrest⟩ := forall_mem_cons.mp h
    obtain ⟨db', hdb'⟩ := ih hrest (addTable db t)
    refine ⟨db', ?_⟩
    rw [foldlM_cons, ht]
    exact hdb'

/-! ## Complete stores -/

/-- Every table of a database can be stored. -/
def Storable (db : Storage.Database) : Prop := ∀ name t, db.table name = some t → t.Storable

theorem Complete.recover_eq (h : Complete db s) : recover eval s =
    ((catalogOf db).map TableCatalog.recovered).foldlM (fun db tc => do
      let t ← recoverTable eval s tc
      .ok (addTable db t)) .new := by
  rw [recover, h.catalog, readCatalog_writeCatalog]
  rfl

/-- The rows with which a table of a complete store is recovered. -/
theorem Complete.exists_recoverTable (h : Complete db s) (hdb : Storable db) (eval : EvalExpr)
    (ht : db.table name = some t) : ∃ name' t' t'', db.table name' = some t' ∧
      heapFileName name' = heapFileName name ∧ recoverTable eval s ⟨name, t.columns⟩ = .ok t'' ∧
      t''.columns = t.columns ∧ SameRows t'.detoasted t''.detoasted := by
  obtain ⟨⟨name', t'⟩, he', hfile, hkeeps⟩ := h.keeps (name, t) (mem_namedTables.mpr ht)
  have ht' := mem_namedTables.mp he'
  obtain ⟨t'', hrecover, hcolumns, hrows⟩ := DiskStore.exists_recoverTable eval
    (hdb name' t' ht') ⟨name, t.columns⟩ hkeeps
  exact ⟨name', t', t'', ht', hfile, hrecover, hcolumns, hrows ▸ .padded _⟩

/-- The catalog of tables whose names come back. -/
theorem map_recovered_catalogOf (h : ∀ name, (db.table name).isSome →
    name.toList.getLast? ≠ some '\r') : (catalogOf db).map TableCatalog.recovered = catalogOf db := by
  rw [map_congr_left fun tc htc => ?_, map_id]
  obtain ⟨⟨name, t⟩, he, rfl⟩ := mem_map.mp htc
  have hname := h name (Option.isSome_of_eq_some (mem_namedTables.mp he))
  rw [TableCatalog.recovered, stripCr, if_neg hname, String.ofList_toList]
  rfl

/-- **A recoverable database comes back.** -/
theorem Complete.exists_recover (h : Complete db s) (hdb : Storable db) (hrec : Recoverable db)
    (eval : EvalExpr) :
    ∃ db', recover eval s = .ok db' ∧ db.SameData db' := by
  have hcatalog := map_recovered_catalogOf hrec.names
  have htables : ∀ tc ∈ catalogOf db, ∃ t, recoverTable eval s tc = .ok t := by
    intro tc htc
    obtain ⟨⟨name, t⟩, he, rfl⟩ := mem_map.mp htc
    obtain ⟨-, -, t'', -, -, ht'', -⟩ := h.exists_recoverTable hdb eval (mem_namedTables.mp he)
    exact ⟨t'', ht''⟩
  obtain ⟨db', hdb'⟩ := exists_foldlM_recoverTable htables .new
  obtain ⟨hfrom, -, hall⟩ := foldlM_recoverTable hdb'
  refine ⟨db', by rw [h.recover_eq, hcatalog, hdb'], fun name => ?_⟩
  cases ht : db.table name with
  | none =>
    cases ht' : db'.table name with
    | none => exact .none
    | some t' =>
      rcases hfrom name t' ht' with hnew | ⟨tc, htc, hname, -⟩
      · cases hnew
      · obtain ⟨⟨name₁, t₁⟩, he, rfl⟩ := mem_map.mp htc
        have ht₁ := mem_namedTables.mp he
        cases hname
        rw [ht] at ht₁
        cases ht₁
  | some t =>
    have hmem : (⟨name, t.columns⟩ : TableCatalog) ∈ catalogOf db :=
      mem_map.mpr ⟨(name, t), mem_namedTables.mpr ht, rfl⟩
    obtain ⟨t', ht'⟩ := Option.isSome_iff_exists.mp (hall _ hmem)
    rw [ht']
    rcases hfrom name t' ht' with hnew | ⟨tc, htc, hname, hrecover⟩
    · cases hnew
    obtain ⟨⟨name₁, t₁⟩, he, rfl⟩ := mem_map.mp htc
    have ht₁ := mem_namedTables.mp he
    obtain rfl : name₁ = name := hname
    obtain rfl : t = t₁ := Option.some.inj (ht.symm.trans ht₁)
    obtain ⟨name₂, t₂, t'', ht₂, hfile, hrecover', hcolumns, hrows⟩ :=
      h.exists_recoverTable hdb eval ht
    obtain rfl : t' = t'' := Except.ok.inj (hrecover.symm.trans hrecover')
    exact .some ⟨hcolumns, (hrec.files _ name₂ t t₂ ht ht₂ hfile.symm).trans hrows⟩

/-- No name ends in a carriage return if every name comes back: the longest one that does would have
to come from a longer one. -/
theorem names_of_forall_recovered (h : ∀ name, (db.table name).isSome →
    ∃ tc ∈ (catalogOf db).map TableCatalog.recovered, tc.name = name) :
    ∀ name, (db.table name).isSome → name.toList.getLast? ≠ some '\r' := by
  intro name hname hlast
  obtain ⟨t, ht⟩ := Option.isSome_iff_exists.mp hname
  let bad := (namedTables db).filter fun e => e.1.toList.getLast? = some '\r'
  have hbad : ∀ e, e ∈ bad ↔ db.table e.1 = some e.2 ∧ e.1.toList.getLast? = some '\r' := by
    intro e
    rw [mem_filter, mem_namedTables, decide_eq_true_iff]
  have hmem : (name, t) ∈ bad := (hbad _).mpr ⟨ht, hlast⟩
  cases hmax : bad.argmax fun e => e.1.toList.length with
  | none => exact ne_nil_of_mem hmem (argmax_eq_none.mp hmax)
  | some e =>
    obtain ⟨he, helast⟩ := (hbad e).mp (argmax_mem hmax)
    obtain ⟨tc, htc, htcname⟩ := h e.1 (Option.isSome_of_eq_some he)
    obtain ⟨tc₁, htc₁, rfl⟩ := mem_map.mp htc
    obtain ⟨e₁, he₁, rfl⟩ := mem_map.mp htc₁
    have hname₁ : stripCr e₁.1.toList = e.1.toList := by
      rw [← htcname]
      exact (String.toList_ofList).symm
    by_cases hlast₁ : e₁.1.toList.getLast? = some '\r'
    · have hle := le_of_mem_argmax ((hbad e₁).mpr ⟨mem_namedTables.mp he₁, hlast₁⟩) hmax
      have hpos : 0 < e₁.1.toList.length :=
        length_pos_iff.mpr fun hnil => by rw [hnil] at hlast₁; cases hlast₁
      rw [stripCr, if_pos hlast₁] at hname₁
      rw [← hname₁, length_dropLast] at hle
      omega
    · rw [stripCr, if_neg hlast₁] at hname₁
      rw [hname₁] at hlast₁
      exact hlast₁ helast

/-- **A database that comes back is recoverable.** -/
theorem Complete.recoverable (h : Complete db s) (hdb : Storable db)
    (hrecover : recover eval s = .ok db') (hsame : db.SameData db') : Recoverable db := by
  rw [h.recover_eq] at hrecover
  obtain ⟨hfrom, -, -⟩ := foldlM_recoverTable hrecover
  have hback : ∀ {name t}, db.table name = some t → ∃ t', db'.table name = some t' ∧ SameTable t t' := by
    intro name t ht
    have hrel := hsame name
    rw [ht] at hrel
    cases ht' : db'.table name with
    | none =>
      rw [ht'] at hrel
      cases hrel
    | some t' =>
      rw [ht'] at hrel
      cases hrel with
      | some hrel => exact ⟨t', rfl, hrel⟩
  have hsource : ∀ {name t'}, db'.table name = some t' →
      ∃ tc ∈ (catalogOf db).map TableCatalog.recovered, tc.name = name ∧
        recoverTable eval s tc = .ok t' := by
    intro name t' ht'
    rcases hfrom name t' ht' with hnew | hsource
    · cases hnew
    · exact hsource
  have hnames := names_of_forall_recovered fun name hname => by
    obtain ⟨t, ht⟩ := Option.isSome_iff_exists.mp hname
    obtain ⟨t', ht', -⟩ := hback ht
    obtain ⟨tc, htc, htcname, -⟩ := hsource ht'
    exact ⟨tc, htc, htcname⟩
  rw [map_recovered_catalogOf hnames] at hsource
  -- A table comes back with the rows in its heap file.
  have hrows : ∀ {name t}, db.table name = some t → ∃ rows, (∀ {t₁}, recoverTable eval s
      ⟨name, t.columns⟩ = .ok t₁ → t₁.detoasted = rows) ∧ SameRows t.detoasted rows := by
    intro name t ht
    obtain ⟨t', ht', htable⟩ := hback ht
    obtain ⟨tc, htc, htcname, hok⟩ := hsource ht'
    obtain ⟨⟨name₁, t₁⟩, he, rfl⟩ := mem_map.mp htc
    cases htcname
    obtain rfl : t = t₁ := Option.some.inj (ht.symm.trans (mem_namedTables.mp he))
    refine ⟨t'.detoasted, fun hok' => ?_, htable.rows⟩
    obtain rfl := Except.ok.inj (hok'.symm.trans hok)
    rfl
  refine ⟨hnames, fun name name' t t' ht ht' hfile => ?_⟩
  obtain ⟨⟨name₂, t₂⟩, he₂, hfile₂, hkeeps⟩ := h.keeps (name, t) (mem_namedTables.mpr ht)
  have hstorable := hdb name₂ t₂ (mem_namedTables.mp he₂)
  obtain ⟨rows, hrows₁, hsame₁⟩ := hrows ht
  obtain ⟨rows', hrows₂, hsame₂⟩ := hrows ht'
  obtain ⟨u, hu, -, hurows⟩ := DiskStore.exists_recoverTable eval hstorable
    ⟨name, t.columns⟩ hkeeps
  obtain ⟨u', hu', -, hurows'⟩ := DiskStore.exists_recoverTable eval hstorable
    ⟨name', t'.columns⟩ (hfile ▸ hkeeps)
  have heq : rows = rows' := by
    rw [← hrows₁ hu, ← hrows₂ hu', hurows, hurows']
  exact hsame₁.trans (heq ▸ hsame₂.symm)

/-! ## Recovery after a checkpoint -/

theorem Complete.open (h : Complete db s) : Complete db s.open := h.congr rfl rfl

theorem complete_checkpoint {order : IterOrder} {lsn : Nat}
    (h : (checkpoint order db s).outcome = .ok lsn) : Complete db (checkpoint order db s).state :=
  (spec_checkpoint order db).ok s lsn trivial h

/-- A checkpoint returns if every row fits into a page. -/
theorem exists_checkpoint (order : IterOrder) (db : Storage.Database) (s : DiskStore)
    (h : ∀ e ∈ namedTables db, ∀ tuple ∈ tuplesOf e.2, ¬ BufferManager.TooLarge tuple) :
    ∃ lsn, (checkpoint order db s).outcome = .ok lsn := by
  obtain ⟨lsn, hlsn, -⟩ := ((spec_checkpoint order db).imp (fun _ h => h) (fun _ h => h)
    (fun _ _ h => h) (fun _ _ ⟨_, e, he, tuple, htuple, hlarge⟩ =>
      h e he tuple htuple hlarge)).exists_ok (s := s) trivial
  exact ⟨lsn, hlsn⟩

/-- **A checkpoint that returned is recovered** exactly if no name of a table ends in a carriage
return and tables with the same heap file have the same rows. -/
theorem recover_checkpoint_iff (eval : EvalExpr) (order : IterOrder) (s : DiskStore)
    (db : Storage.Database) (hdb : Storable db) {lsn : Nat}
    (hok : (checkpoint order db s).outcome = .ok lsn) :
    (∃ db', recover eval (checkpoint order db s).state.open = .ok db' ∧ db.SameData db') ↔
      Recoverable db := by
  have hcomplete := (complete_checkpoint hok).open
  constructor
  · rintro ⟨db', hrecover, hsame⟩
    exact hcomplete.recoverable hdb hrecover hsame
  · exact fun hrec => hcomplete.exists_recover hdb hrec eval

/-! Two databases: one with a table `t`, and one with the tables `a-b` and `a_b`, which share the file
`a_b.heap`. -/

/-- A table with one row. -/
def singleRow (name : String) (i : Int) : Table :=
  { Table.new name [⟨"k", .int8, false⟩] with
    rows := [[.int i]], rowIds := [0], rowPos := (∅ : AList fun _ => Nat).insert 0 0, nextRowId := 1 }

def single : Storage.Database := ⟨⟨[⟨"t", singleRow "t" 1⟩], List.nodupKeys_singleton _⟩⟩

def colliding : Storage.Database :=
  ⟨⟨[⟨"a-b", singleRow "a-b" 1⟩, ⟨"a_b", singleRow "a_b" 2⟩],
    List.nodupKeys_cons.mpr ⟨by decide, List.nodupKeys_singleton _⟩⟩⟩

/-- An empty directory. -/
def fresh : DiskStore := ⟨none, ∅, .empty, 0⟩

def identityOrder : IterOrder := ⟨id, fun l => .refl l⟩

def noEval : EvalExpr := fun _ _ _ => none

theorem storable_singleRow {i : Int} (h : -2 ^ 63 ≤ i ∧ i < 2 ^ 63) (name : String) :
    (singleRow name i).Storable where
  valid row hrow v hv := by
    rw [mem_singleton.mp hrow] at hv
    rw [mem_singleton.mp hv]
    exact h
  chunks _ _ hs := by cases hs
  size := by
    show 1 + (1 + 0) < 2 ^ 64
    decide

theorem not_tooLarge_singleRow (name : String) (i : Int) :
    ∀ tuple ∈ tuplesOf (singleRow name i), ¬ BufferManager.TooLarge tuple := by
  intro tuple htuple
  rw [show tuplesOf (singleRow name i) = [encodeRow [.int i]] from rfl, mem_singleton] at htuple
  rw [htuple, BufferManager.TooLarge]
  have hlen : (encodeRow [.int i]).length = 13 := by
    simp [encodeRow, encodeCell]
  rw [hlen]
  decide

theorem table_single (h : single.table name = some t) : name = "t" ∧ t = singleRow "t" 1 := by
  have hmem := mem_singleton.mp (mem_lookup_iff.mp h)
  cases hmem
  exact ⟨rfl, rfl⟩

theorem table_colliding (h : colliding.table name = some t) :
    name = "a-b" ∧ t = singleRow "a-b" 1 ∨ name = "a_b" ∧ t = singleRow "a_b" 2 := by
  rcases mem_pair.mp (mem_lookup_iff.mp h) with hmem | hmem
  · cases hmem
    exact .inl ⟨rfl, rfl⟩
  · cases hmem
    exact .inr ⟨rfl, rfl⟩

theorem recover_checkpoint_single : ∃ lsn,
    (checkpoint identityOrder single fresh.open).outcome = .ok lsn ∧ ∃ db',
      recover noEval (checkpoint identityOrder single fresh.open).state.open = .ok db' ∧
        single.SameData db' := by
  have hstorable : Storable single := by
    intro name t ht
    obtain ⟨-, rfl⟩ := table_single ht
    exact storable_singleRow (by decide) _
  obtain ⟨lsn, hlsn⟩ := exists_checkpoint identityOrder single fresh.open fun e he => by
    rw [(table_single (mem_namedTables.mp he)).2]
    exact not_tooLarge_singleRow _ _
  refine ⟨lsn, hlsn, (recover_checkpoint_iff noEval identityOrder _ single hstorable hlsn).mpr ⟨?_, ?_⟩⟩
  · intro name hname
    obtain ⟨t, ht⟩ := Option.isSome_iff_exists.mp hname
    rw [(table_single ht).1]
    decide
  · intro name name' t t' ht ht' _
    rw [(table_single ht).2, (table_single ht').2]
    exact .refl _

/-- The rows of `a-b` are lost. -/
theorem not_recover_colliding : ∃ lsn,
    (checkpoint identityOrder colliding fresh.open).outcome = .ok lsn ∧ ¬ ∃ db',
      recover noEval (checkpoint identityOrder colliding fresh.open).state.open = .ok db' ∧
        colliding.SameData db' := by
  have hstorable : Storable colliding := by
    intro name t ht
    rcases table_colliding ht with ⟨-, rfl⟩ | ⟨-, rfl⟩ <;> exact storable_singleRow (by decide) _
  obtain ⟨lsn, hlsn⟩ := exists_checkpoint identityOrder colliding fresh.open fun e he => by
    rcases table_colliding (mem_namedTables.mp he) with ⟨-, heq⟩ | ⟨-, heq⟩
    · rw [heq]
      exact not_tooLarge_singleRow _ _
    · rw [heq]
      exact not_tooLarge_singleRow _ _
  refine ⟨lsn, hlsn, ?_⟩
  rintro ⟨db', hrecover, hsame⟩
  have hrec := (complete_checkpoint hlsn).open.recoverable hstorable hrecover hsame
  have hrows := hrec.files "a-b" "a_b" (singleRow "a-b" 1) (singleRow "a_b" 2)
    (mem_lookup_iff.mpr mem_cons_self)
    (mem_lookup_iff.mpr (mem_cons_of_mem _ mem_cons_self)) (by decide +kernel)
  cases hrows with
  | cons hrow _ =>
    cases hrow with
    | cons hcell _ => cases hcell

end DiskStore
end Disk
end PostgresRs
