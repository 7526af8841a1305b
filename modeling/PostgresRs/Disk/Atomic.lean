import PostgresRs.Disk.Checkpoint

/-!
# Checkpoints that are stopped

A checkpoint rewrites the heap files in place before the new catalog is there, so if it is stopped on
the way, or a row does not fit into a page, the old catalog can stand beside new or empty heap files
(`recover_stopped_checkpoint`).  It is atomic if no heap file with rows is in the way of both
databases (`recover_stops_checkpoint`): until the catalog is written, the old database is complete,
and from then on the new one is.
-/

namespace PostgresRs.Disk.DiskStore

open List

open Storage (Table EvalExpr)

variable {s : DiskStore} {name : String} {t : Table} {old new : Storage.Database}

/-- A heap file of tables from both databases has no rows. -/
def Apart (old new : Storage.Database) : Prop :=
  ∀ name name' t t', old.table name = some t → new.table name' = some t' →
    heapFileName name = heapFileName name' → t.rows = [] ∧ t'.rows = []

/-! ## Tables without rows -/

theorem spec_writeTuples_nil (order : IterOrder) : Io.Spec (· = .new (Heap.open []) poolPages)
    (writeTuples order []) (fun b => b.heap.file = []) (fun _ b => b.heap.file = [])
    (fun _ _ => False) := by
  refine .bind (Q := fun _ b => b = .new (Heap.open []) poolPages) (.pure fun _ hb => hb) fun _ => ?_
  refine .get_bind fun b hb => ?_
  subst hb
  rw [show order.order (BufferManager.new (Heap.open []) poolPages).dirtyPages = [] from
    (order.perm []).eq_nil]
  exact .pure fun b hb => by rw [hb]; rfl

/-- The file of a table without rows is as it was, or empty. -/
theorem spec_writeTable_nil (order : IterOrder) (ht : t.rows = []) :
    Io.Spec (· = s) (writeTable order name t)
      (fun x => x.heaps.lookup (heapFileName name) = s.heaps.lookup (heapFileName name) ∨
        x.heaps.lookup (heapFileName name) = some [])
      (fun _ x => x.heaps.lookup (heapFileName name) = some []) (fun _ _ => False) := by
  have hput : ∀ (x : DiskStore) (b : BufferManager), b.heap.file = [] →
      (x.setHeap (heapFileName name) b.heap.file).heaps.lookup (heapFileName name) = some [] := by
    intro x b hb
    rw [hb]
    exact AList.lookup_insert _
  refine .write_bind (.inl rfl) (.within fun x hx => ?_)
  subst hx
  have hstart : ((s.setHeap (heapFileName name) []).heaps.lookup (heapFileName name)).getD [] = [] := by
    show ((s.heaps.insert _ _).lookup _).getD [] = []
    rw [AList.lookup_insert]
    rfl
  rw [show tuplesOf t = [] by rw [tuplesOf, ht, map_nil], hstart]
  exact (spec_writeTuples_nil order).imp (fun _ h => h) (fun b hb => .inr (hput _ b hb))
    (fun _ b hb => hput _ b hb) (fun _ _ h => h)

/-! ## The old database -/

/-- A file that keeps nothing. -/
theorem keeps_nil {file : String} (h : s.heaps.lookup file = some []) : s.Keeps file [] :=
  ⟨[], h, fun _ hp => absurd hp not_mem_nil, rfl⟩

/-- The old database stays complete when other files, or an empty one, are written. -/
theorem Complete.of_sameBut {x : DiskStore} (h : Complete old s) (hbut : SameBut s x (heapFileName name))
    (hempty : ∀ e ∈ namedTables old, heapFileName e.1 = heapFileName name → e.2.rows = [] ∧
      (x.heaps.lookup (heapFileName name) = s.heaps.lookup (heapFileName name) ∨
        x.heaps.lookup (heapFileName name) = some [])) : Complete old x where
  catalog := hbut.catalog.trans h.catalog
  keeps e he := by
    obtain ⟨e', he', hfile, hkeeps⟩ := h.keeps e he
    refine ⟨e', he', hfile, ?_⟩
    rcases eq_or_ne (heapFileName e.1) (heapFileName name) with heq | hne
    · rcases (hempty e he heq).2 with hsame | hnil
      · obtain ⟨pages, hlookup, hpages⟩ := hkeeps
        rw [heq] at hlookup ⊢
        exact ⟨pages, hsame.trans hlookup, hpages⟩
      · have hrows := (hempty e' he' (hfile.trans heq)).1
        rw [tuplesOf, hrows, heq]
        exact keeps_nil hnil
    · exact hbut.keeps hne hkeeps

variable (order : IterOrder)

/-- Writing a table of the new database keeps the old one complete. -/
theorem spec_writeTable_complete (hapart : Apart old new)
    (ht : new.table name = some t) : Io.Spec (Complete old) (writeTable order name t) (Complete old)
      (fun _ => Complete old) (fun _ => Complete old) := by
  refine .of_forall fun s hs => ?_
  -- Whether the old database has a table with this file.
  by_cases hshared : ∃ e ∈ namedTables old, heapFileName e.1 = heapFileName name
  · obtain ⟨e, he, hfile⟩ := hshared
    have hnil := (hapart e.1 name e.2 t (mem_namedTables.mp he) ht hfile).2
    have hold : ∀ e ∈ namedTables old, heapFileName e.1 = heapFileName name → e.2.rows = [] :=
      fun e he hfile => (hapart e.1 name e.2 t (mem_namedTables.mp he) ht hfile).1
    refine ((spec_writeTable (s := s) order).and (spec_writeTable_nil (s := s) order hnil)).imp
      (fun _ h => ⟨h, h⟩) ?_ ?_ ?_
    · exact fun x hx => hs.of_sameBut hx.1 fun e he hfile => ⟨hold e he hfile, hx.2⟩
    · exact fun _ x hx => hs.of_sameBut hx.1.1 fun e he hfile => ⟨hold e he hfile, .inr hx.2⟩
    · exact fun _ _ hx => hx.2.elim
  · have hother : ∀ {x : DiskStore}, SameBut s x (heapFileName name) → Complete old x := fun hbut =>
      hs.of_sameBut hbut fun e he hfile => absurd ⟨e, he, hfile⟩ hshared
    exact (spec_writeTable order).imp (fun _ h => h) (fun _ hx => hother hx)
      (fun _ _ hx => hother hx.1) (fun _ _ hx => hother hx.1)

/-! ## Every stopping point -/

/-- One of the two databases is complete. -/
theorem spec_checkpoint_either (hapart : Apart old new) :
    Io.Spec (Complete old) (checkpoint order new) (fun x => Complete old x ∨ Complete new x)
      (fun _ x => Complete old x ∨ Complete new x) (fun _ x => Complete old x ∨ Complete new x) := by
  have hbeside := Io.Spec.forM (R := fun _ => Complete old) fun _ _ hsuf =>
    spec_writeTable_complete order hapart (mem_namedTables.mp (hsuf.subset mem_cons_self))
  refine ((hbeside.and (spec_writeTables order _)).imp
    (fun _ h => ⟨h, trivial⟩) (fun _ h => .inl h.1) (fun _ _ h => h) (fun _ _ h => .inl h.1)).bind
      fun _ => .of_forall fun s hs => .write_bind (.inl hs.1) ?_
  refine (spec_markCheckpoint (P := Complete new) fun s s' hc hh h => h.congr hc hh).imp ?_
    (fun _ h => .inr h) (fun _ _ h => .inr h) (fun _ _ h => h.elim)
  rintro _ rfl
  exact ⟨rfl, hs.2⟩

/-- **A checkpoint that is stopped anywhere**, or fails, leaves the old database or the new one, if
both can be recovered and no heap file with rows is in the way of both. -/
theorem recover_stops_checkpoint (eval : EvalExpr) (order order' : IterOrder) (s : DiskStore)
    (old new : Storage.Database) (hold : Storable old) (hnew : Storable new) {lsn : Nat}
    (hok : (checkpoint order old s).outcome = .ok lsn) (hrec : Recoverable old)
    (hrec' : Recoverable new) (hapart : Apart old new) :
    ∀ x ∈ (checkpoint order' new (checkpoint order old s).state.open).stops,
      ∃ db, recover eval x.open = .ok db ∧ (old.SameData db ∨ new.SameData db) := by
  intro x hx
  rcases (spec_checkpoint_either order' hapart).stops (complete_checkpoint hok).open hx with hx | hx
  · obtain ⟨db, hdb, hsame⟩ := hx.open.exists_recover hold hrec eval
    exact ⟨db, hdb, .inl hsame⟩
  · obtain ⟨db, hdb, hsame⟩ := hx.open.exists_recover hnew hrec' eval
    exact ⟨db, hdb, .inr hsame⟩

/-! A table `t` with one row, after it a checkpoint with a table `u`, and one with another row in `t`. -/

def other : Storage.Database := ⟨⟨[⟨"u", singleRow "u" 2⟩], List.nodupKeys_singleton _⟩⟩

def changed : Storage.Database := ⟨⟨[⟨"t", singleRow "t" 2⟩], List.nodupKeys_singleton _⟩⟩

theorem table_other (h : other.table name = some t) : name = "u" ∧ t = singleRow "u" 2 := by
  have hmem := mem_singleton.mp (AList.mem_lookup_iff.mp h)
  cases hmem
  exact ⟨rfl, rfl⟩

/-- A database with one table under a harmless name. -/
theorem recoverable_of_forall {db : Storage.Database} {name₀ : String} {t₀ : Table}
    (hname : name₀.toList.getLast? ≠ some '\r')
    (h : ∀ name t, db.table name = some t → name = name₀ ∧ t = t₀) : Recoverable db where
  names name hsome := by
    obtain ⟨t, ht⟩ := Option.isSome_iff_exists.mp hsome
    rw [(h name t ht).1]
    exact hname
  files name name' t t' ht ht' _ := by
    rw [(h name t ht).2, (h name' t' ht').2]
    exact .refl _

theorem exists_checkpoint_single :
    ∃ lsn, (checkpoint identityOrder single fresh.open).outcome = .ok lsn :=
  exists_checkpoint identityOrder single fresh.open fun e he => by
    rw [(table_single (mem_namedTables.mp he)).2]
    exact not_tooLarge_singleRow _ _

theorem recover_stops_other : ∃ lsn,
    (checkpoint identityOrder single fresh.open).outcome = .ok lsn ∧
    ∀ x ∈ (checkpoint identityOrder other
        (checkpoint identityOrder single fresh.open).state.open).stops,
      ∃ db, recover noEval x.open = .ok db ∧ (single.SameData db ∨ other.SameData db) := by
  obtain ⟨lsn, hlsn⟩ := exists_checkpoint_single
  refine ⟨lsn, hlsn, recover_stops_checkpoint noEval identityOrder identityOrder _ single other ?_ ?_
    hlsn (recoverable_of_forall (by decide) fun _ _ => table_single)
    (recoverable_of_forall (by decide) fun _ _ => table_other) ?_⟩
  · intro name t ht
    rw [(table_single ht).2]
    exact storable_singleRow (by decide) _
  · intro name t ht
    rw [(table_other ht).2]
    exact storable_singleRow (by decide) _
  · intro name name' t t' ht ht' hfile
    rw [(table_single ht).1, (table_other ht').1] at hfile
    exact absurd hfile (by decide +kernel)

/-- The first tuple is appended to a heap without pages: the file is still empty when its first page is
written. -/
theorem mem_passed_writeTuples (order : IterOrder) (tuple : List UInt8) (tuples : List (List UInt8)) :
    .new (Heap.open []) poolPages ∈
      (writeTuples order (tuple :: tuples) (.new (Heap.open []) poolPages)).passed := by
  refine Io.mem_passed_bind_left ?_
  refine Io.mem_passed_bind_left (Io.mem_passed_bind_right rfl (Io.mem_passed_bind_left ?_))
  exact mem_singleton_self _

/-- The store in which the file of `t` is empty is passed when another row of `t` is written. -/
theorem truncated_mem_stops (s : DiskStore) :
    s.setHeap (heapFileName "t") [] ∈ (checkpoint identityOrder changed s).stops := by
  refine mem_append_left _ (Io.mem_passed_bind_left ?_)
  refine Io.mem_passed_bind_left (Io.mem_passed_bind_right rfl (mem_map.mpr
    ⟨.new (Heap.open []) poolPages, ?_, ?_⟩))
  · exact mem_passed_writeTuples _ _ _
  · rfl

/-- With the old catalog and an empty file, `t` comes back without its row: neither the old table nor
the new one. -/
theorem recover_stopped_checkpoint : ∃ lsn,
    (checkpoint identityOrder single fresh.open).outcome = .ok lsn ∧
    ∃ x ∈ (checkpoint identityOrder changed
        (checkpoint identityOrder single fresh.open).state.open).stops,
      ∃ db, recover noEval x.open = .ok db ∧ ¬ single.SameData db ∧ ¬ changed.SameData db := by
  obtain ⟨lsn, hlsn⟩ := exists_checkpoint_single
  have hcomplete := (complete_checkpoint hlsn).open
  refine ⟨lsn, hlsn, _, truncated_mem_stops _, ?_⟩
  generalize (checkpoint identityOrder single fresh.open).state.open = s at hcomplete
  let x := (s.setHeap (heapFileName "t") []).open
  have hkeeps : x.Keeps (heapFileName "t") (tuplesOf (Table.new "t" [])) :=
    keeps_nil (AList.lookup_insert _)
  have hempty : (Table.new "t" []).Storable :=
    ⟨fun _ hrow => absurd hrow not_mem_nil, fun _ _ hs => absurd hs nofun, by decide⟩
  -- The catalog has the one table, and its file is empty.
  have hcatalog : (catalogOf single).map TableCatalog.recovered = [⟨"t", [⟨"k", .int8, false⟩]⟩] :=
    map_recovered_catalogOf (recoverable_of_forall (by decide) fun _ _ => table_single).names
  obtain ⟨t, ht, -, hrows⟩ := exists_recoverTable noEval hempty ⟨"t", [⟨"k", .int8, false⟩]⟩ hkeeps
  have hrecover : recover noEval x = .ok (addTable .new t) := by
    rw [recover, show x.catalog = s.catalog from rfl, hcomplete.catalog, readCatalog_writeCatalog,
      hcatalog]
    show ((recoverTable noEval x ⟨"t", [⟨"k", .int8, false⟩]⟩ >>= fun t => .ok (addTable .new t)) >>=
      fun db => Except.ok db) = _
    rw [ht]
    rfl
  have htable : (addTable .new t).table "t" = some t := by
    rw [table_addTable, recoverTable_name ht]
    rfl
  -- A table with a row is not the one that is left.
  have hlost : ∀ {db : Storage.Database} {i : Int}, db.table "t" = some (singleRow "t" i) →
      ¬ db.SameData (addTable .new t) := by
    intro db i hdb hsame
    have hrel := hsame "t"
    rw [hdb, htable] at hrel
    cases hrel with
    | some hrel =>
      have hsame := hrel.rows
      rw [hrows] at hsame
      cases hsame
  exact ⟨_, hrecover, hlost (AList.mem_lookup_iff.mpr mem_cons_self),
    hlost (AList.mem_lookup_iff.mpr mem_cons_self)⟩

end PostgresRs.Disk.DiskStore
