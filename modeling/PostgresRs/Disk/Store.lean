import PostgresRs.Disk.Buffer
import PostgresRs.Disk.Catalog
import PostgresRs.Disk.Pwal

/-!
# The disk store

Checkpoints and recovery of `engine/src/disk/mod.rs`.  A checkpoint rewrites the heap file of each
table in place, in the order of the names, then the catalog, and then marks itself in the log.
Recovery reads the catalog and the heap files; the replay of the log has no effect.

What a checkpoint that returns leaves behind is `Complete`: the catalog of the database, and in each
heap file the rows of a table, for two tables can have the same file.
-/

namespace PostgresRs.Disk

open List

open Storage (Table EvalExpr Panic)

/-- The directory of a store: the catalog, the heap files by name and the log. -/
structure DiskStore where
  catalog : Option (List UInt8)
  heaps : AList fun _ : String => List UInt8
  log : LogDir
  checkpointId : Nat

/-- `recover` fails with an error, or panics. -/
inductive Failure where
  | io (e : IoError)
  | panic (p : Panic)
deriving DecidableEq, Repr

/-- The pages in the pool of the buffer manager. -/
def poolPages : Nat := 64

/-- A name in which only letters, digits and underscores are kept. -/
def heapFileName (table : String) : String :=
  String.ofList (table.toList.map fun c => if c.isAlphanum || c == '_' then c else '_') ++ ".heap"

namespace DiskStore

def «open» (s : DiskStore) : DiskStore := { s with log := s.log.openWal, checkpointId := 0 }

def setHeap (s : DiskStore) (file : String) (bytes : List UInt8) : DiskStore :=
  { s with heaps := s.heaps.insert file bytes }

/-! ## Checkpoints -/

/-- The tuples of a table: its rows with all values in line. -/
def tuplesOf (t : Table) : List (List UInt8) := t.rows.map fun row => encodeRow (t.detoastRow row)

variable (order : IterOrder)

/-- Append tuples to an empty heap and write it. -/
def writeTuples (tuples : List (List UInt8)) : Io BufferManager IoError Unit := do
  tuples.forM BufferManager.appendViaBuffer
  BufferManager.flushAll order

/-- Truncate the heap file of a table and write its rows. -/
def writeTable (name : String) (t : Table) : Io DiskStore IoError Unit := do
  Io.write fun s => s.setHeap (heapFileName name) []
  Io.within
    (fun s => .new (Heap.open ((s.heaps.lookup (heapFileName name)).getD [])) poolPages)
    (fun s b => s.setHeap (heapFileName name) b.heap.file)
    (writeTuples order (tuplesOf t))

/-- The tables of a database with their names, in order. -/
def namedTables (db : Storage.Database) : List (String × Table) :=
  db.tableNames.filterMap fun name => (db.table name).map (name, ·)

def catalogOf (db : Storage.Database) : List TableCatalog :=
  (namedTables db).map fun e => ⟨e.1, e.2.columns⟩

/-- Mark the checkpoint in the log, and remove what is before it. -/
def markCheckpoint : Io DiskStore IoError Nat := do
  Io.modify fun s => { s with checkpointId := s.checkpointId + 1 }
  let s ← Io.get
  let lsn := (s.log.wal.map PhysicalWal.nextLsn).getD 0
  Io.write fun s => { s with log := s.log.step (.append .checkpoint (.ofNat s.checkpointId) 0 []) }
  Io.write fun s => { s with log := s.log.step .sync }
  Io.write fun s => { s with log := s.log.truncateBefore lsn }
  pure lsn

def checkpoint (db : Storage.Database) : Io DiskStore IoError Nat := do
  (namedTables db).forM fun e => writeTable order e.1 e.2
  Io.write fun s => { s with catalog := some (writeCatalog (catalogOf db)) }
  markCheckpoint

/-! ## Recovery -/

/-- Push the row that a tuple holds; other tuples are passed over. -/
def pushTuple (eval : EvalExpr) (t : Table) (tuple : List UInt8) : Except Failure Table :=
  match decodeRow tuple with
  | some row => (t.pushRow eval row).mapError .panic
  | none => .ok t

def recoverTable (eval : EvalExpr) (s : DiskStore) (tc : TableCatalog) : Except Failure Table :=
  match s.heaps.lookup (heapFileName tc.name) with
  | none => .ok (.new tc.name tc.columns)
  | some file => do
    let tuples ← (Heap.open file).iterTuples.mapError .io
    tuples.foldlM (fun t e => pushTuple eval t e.2.2) (.new tc.name tc.columns)

/-- Add a table; one whose name is there already is passed over. -/
def addTable (db : Storage.Database) (t : Table) : Storage.Database :=
  match db.createTable t with
  | .ok db => db
  | .error _ => db

def recover (eval : EvalExpr) (s : DiskStore) : Except Failure Storage.Database := do
  let catalog ← (readCatalog s.catalog).mapError .io
  catalog.foldlM (fun db tc => do
    let t ← recoverTable eval s tc
    .ok (addTable db t)) .new

/-! ## What a checkpoint writes -/

/-- A heap file with the given tuples. -/
def Keeps (s : DiskStore) (file : String) (tuples : List (List UInt8)) : Prop :=
  ∃ pages : List Page, s.heaps.lookup file = some (pages.map Page.toBytes).flatten ∧
    (∀ p ∈ pages, p.WellFormed) ∧ Heap.tuplesOf pages = tuples

/-- Nothing but one heap file differs. -/
structure SameBut (s s' : DiskStore) (file : String) : Prop where
  catalog : s'.catalog = s.catalog
  heaps : ∀ other, other ≠ file → s'.heaps.lookup other = s.heaps.lookup other

theorem sameBut_refl (s : DiskStore) (file : String) : SameBut s s file := ⟨rfl, fun _ _ => rfl⟩

theorem SameBut.setHeap {s s' : DiskStore} {file : String} (h : SameBut s s' file)
    (bytes : List UInt8) : SameBut s (s'.setHeap file bytes) file where
  catalog := h.catalog
  heaps other hne := by
    rw [← h.heaps other hne]
    exact AList.lookup_insert_ne hne

theorem SameBut.keeps {s s' : DiskStore} {file other : String} {tuples : List (List UInt8)}
    (h : SameBut s s' file) (hne : other ≠ file) (hk : s.Keeps other tuples) : s'.Keeps other tuples := by
  obtain ⟨pages, hlookup, hpages⟩ := hk
  exact ⟨pages, (h.heaps other hne).trans hlookup, hpages⟩

theorem ne_nil_of_mem_tuplesOf {t : Table} {tuple : List UInt8} (h : tuple ∈ tuplesOf t) :
    tuple ≠ [] := by
  obtain ⟨row, -, rfl⟩ := mem_map.mp h
  exact append_ne_nil_of_left_ne_nil (cons_ne_nil _ _) _

/-- The error with which a checkpoint can fail: a tuple that is too large for a page. -/
def Oversized (tuples : List (List UInt8)) (e : IoError) : Prop :=
  e = .tupleTooLarge ∧ ∃ tuple ∈ tuples, BufferManager.TooLarge tuple

theorem spec_writeTuples (order : IterOrder) {tuples : List (List UInt8)} (h : ∀ t ∈ tuples, t ≠ []) :
    Io.Spec (fun b => b.Stores []) (writeTuples order tuples) (fun _ => True)
      (fun _ b => ∃ pages, b.heap.Holds pages ∧ Heap.tuplesOf pages = tuples)
      (fun e _ => Oversized tuples e) := by
  have hloop := Io.Spec.forM (R := fun rest b => ∃ done, done ++ rest = tuples ∧
    BufferManager.Stores b done) (f := BufferManager.appendViaBuffer) (l := tuples)
    (I := fun _ => True) (E := fun e _ => Oversized tuples e) ?_
  · refine (hloop.pre fun b hb => ⟨[], rfl, hb⟩).bind fun _ => .of_forall fun b hb => ?_
    obtain ⟨done, hdone, pages, hb, htuples⟩ := hb
    rw [append_nil] at hdone
    exact (BufferManager.spec_flushAll order).imp (fun b' hb' => hb' ▸ hb) (fun _ h => h)
      (fun _ _ h => ⟨pages, h.2, htuples.trans hdone⟩) (fun _ _ h => h.elim)
  · intro tuple rest hsuf
    refine .of_forall fun b hb => ?_
    obtain ⟨done, hdone, hb⟩ := hb
    have hmem : tuple ∈ tuples := hsuf.subset mem_cons_self
    refine (BufferManager.spec_appendViaBuffer (h tuple hmem)).imp (fun b' hb' => hb' ▸ hb)
      (fun _ h => h) (fun _ b' hb' => ⟨done ++ [tuple], ?_, hb'⟩) (fun e _ he => ⟨he.1, tuple, hmem, he.2⟩)
    rw [append_assoc]
    exact hdone

variable {s : DiskStore} {name : String} {t : Table}

/-- The rows of a table are in its file, and no other file is touched. -/
theorem spec_writeTable (order : IterOrder) : Io.Spec (· = s) (writeTable order name t)
    (fun x => SameBut s x (heapFileName name))
    (fun _ x => SameBut s x (heapFileName name) ∧ x.Keeps (heapFileName name) (tuplesOf t))
    (fun e x => SameBut s x (heapFileName name) ∧ Oversized (tuplesOf t) e) := by
  have hempty : SameBut s (s.setHeap (heapFileName name) []) (heapFileName name) :=
    (sameBut_refl s _).setHeap []
  refine .write_bind (sameBut_refl s _) (.within fun x hx => ?_)
  subst hx
  have hstart : ((s.setHeap (heapFileName name) []).heaps.lookup (heapFileName name)).getD [] = [] := by
    show ((s.heaps.insert _ _).lookup _).getD [] = []
    rw [AList.lookup_insert]
    rfl
  refine (spec_writeTuples order fun _ => ne_nil_of_mem_tuplesOf).imp ?_ ?_ ?_ ?_
  · rintro b rfl
    rw [hstart]
    exact ⟨[], BufferManager.shows_new _, rfl⟩
  · exact fun b _ => hempty.setHeap _
  · rintro _ b ⟨pages, hb, htuples⟩
    refine ⟨hempty.setHeap _, pages, ?_, hb.wellFormed, htuples⟩
    rw [← hb.file]
    exact AList.lookup_insert _
  · exact fun e b he => ⟨hempty.setHeap _, he⟩

/-! ## Complete checkpoints -/

/-- The store after a checkpoint: the file of each table has the rows of a table with that file. -/
structure Complete (db : Storage.Database) (s : DiskStore) : Prop where
  catalog : s.catalog = some (writeCatalog (catalogOf db))
  keeps : ∀ e ∈ namedTables db, ∃ e' ∈ namedTables db,
    heapFileName e'.1 = heapFileName e.1 ∧ s.Keeps (heapFileName e.1) (tuplesOf e'.2)

/-- What recovery does depends on the catalog and the heap files alone. -/
theorem Complete.congr {db : Storage.Database} {s s' : DiskStore} (h : Complete db s)
    (hcatalog : s'.catalog = s.catalog) (hheaps : s'.heaps = s.heaps) : Complete db s' where
  catalog := hcatalog.trans h.catalog
  keeps e he := by
    obtain ⟨e', he', hfile, pages, hpages⟩ := h.keeps e he
    exact ⟨e', he', hfile, pages, by rwa [hheaps]⟩

/-- Some of the tables are written. -/
def Written (done : List (String × Table)) (s : DiskStore) : Prop :=
  ∀ e ∈ done, ∃ e' ∈ done, heapFileName e'.1 = heapFileName e.1 ∧
    s.Keeps (heapFileName e.1) (tuplesOf e'.2)

theorem Written.append {done : List (String × Table)} {s s' : DiskStore} (h : Written done s)
    {e : String × Table} (hbut : SameBut s s' (heapFileName e.1))
    (hkeeps : s'.Keeps (heapFileName e.1) (tuplesOf e.2)) : Written (done ++ [e]) s' := by
  have hnew : e ∈ done ++ [e] := mem_append_right _ (mem_singleton_self _)
  intro e₁ he₁
  rcases eq_or_ne (heapFileName e₁.1) (heapFileName e.1) with heq | hne
  · exact ⟨e, hnew, heq.symm, heq ▸ hkeeps⟩
  · rcases mem_append.mp he₁ with he₁ | he₁
    · obtain ⟨e', he', hfile, hk⟩ := h e₁ he₁
      exact ⟨e', mem_append_left _ he', hfile, hbut.keeps hne hk⟩
    · exact (hne (by rw [mem_singleton.mp he₁])).elim

/-- All heap files are written, one table after the other. -/
theorem spec_writeTables (order : IterOrder) (tables : List (String × Table)) :
    Io.Spec (fun _ => True) (tables.forM fun e => writeTable order e.1 e.2) (fun _ => True)
      (fun _ s => Written tables s)
      (fun e _ => e = .tupleTooLarge ∧ ∃ t ∈ tables, ∃ tuple ∈ tuplesOf t.2,
        BufferManager.TooLarge tuple) := by
  refine (Io.Spec.forM (R := fun rest s => ∃ done, done ++ rest = tables ∧ Written done s)
    fun e rest hsuf => .of_forall fun s hs => ?_).imp (fun s _ => ⟨[], rfl, fun e he => by cases he⟩)
    (fun _ h => h) ?_ (fun _ _ h => h)
  · obtain ⟨done, hdone, hs⟩ := hs
    have hmem : e ∈ tables := hsuf.subset mem_cons_self
    refine (spec_writeTable order).imp (fun _ h => h) (fun _ _ => trivial) ?_ ?_
    · rintro _ x ⟨hbut, hkeeps⟩
      refine ⟨done ++ [e], ?_, hs.append hbut hkeeps⟩
      rw [append_assoc]
      exact hdone
    · rintro err x ⟨-, herr, tuple, htuple, hlarge⟩
      exact ⟨herr, e, hmem, tuple, htuple, hlarge⟩
  · rintro _ s ⟨done, hdone, hs⟩
    rw [append_nil] at hdone
    exact hdone ▸ hs

/-- The mark in the log changes nothing that recovery reads. -/
theorem spec_markCheckpoint {P : DiskStore → Prop}
    (hP : ∀ s s' : DiskStore, s'.catalog = s.catalog → s'.heaps = s.heaps → P s → P s') :
    Io.Spec P markCheckpoint P (fun _ => P) (fun _ _ => False) := by
  refine .of_forall fun s hs => .modify_bind (.get_bind fun s₁ hs₁ => ?_)
  have hs₁ : P s₁ := hP s s₁ (by rw [hs₁]) (by rw [hs₁]) hs
  refine .write_bind hs₁ (.write_bind ?_ (.write_bind ?_ (.pure fun s₂ hs₂ => hs₂ ▸ ?_)))
  · exact hP s₁ _ rfl rfl hs₁
  · exact hP s₁ _ rfl rfl hs₁
  · exact hP s₁ _ rfl rfl hs₁

/-- **A checkpoint that returns is complete**, and it returns unless a row is too large. -/
theorem spec_checkpoint (order : IterOrder) (db : Storage.Database) :
    Io.Spec (fun _ => True) (checkpoint order db) (fun _ => True) (fun _ => Complete db)
      (fun e _ => e = .tupleTooLarge ∧ ∃ t ∈ namedTables db, ∃ tuple ∈ tuplesOf t.2,
        BufferManager.TooLarge tuple) := by
  refine (spec_writeTables order (namedTables db)).bind fun _ => .of_forall fun s hs => ?_
  refine .write_bind trivial ?_
  refine (spec_markCheckpoint (P := Complete db) fun s s' hc hh h => h.congr hc hh).imp ?_
    (fun _ _ => trivial) (fun _ _ h => h) (fun _ _ h => h.elim)
  rintro _ rfl
  exact ⟨rfl, hs⟩

end DiskStore
end PostgresRs.Disk
