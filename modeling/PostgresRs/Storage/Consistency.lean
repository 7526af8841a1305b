import PostgresRs.Storage.Toast

/-!
# Indexes follow their tables

An index is consistent with its table if it has exactly one entry for each row in view that
satisfies its predicate and has a key, under that key, and no other entries (`Table.Consistent`).
The operations keep this up if what they compute from the stored cells is what a reader would
compute (`Table.Regular`): no text reads as a pointer, the expressions of an index do not notice
that a column comes or goes, and an index is created over cells that are in line.  In addition the
layouts ask something of the keys: a B-tree needs keys on which `keyCmp` is an order, and a hash map
does not keep a key with a `NULL`.

The invariant (`Index.Follows`) is about one index and a list of rows.  It is moved one row at a
time by `insert` and `remove`; the operations differ in which rows they move.
-/

namespace PostgresRs.Storage

open IndexKey List Function PostgresRs.Storage.Store

/-! ## The key of a row -/

/-- The expressions that are evaluated on the rows of an index. -/
def Index.expressions (idx : Index) : List Expr := idx.predicate.toList ++ idx.expr.toList

/-- The key of a row depends on the values of the expressions, and without an expression on the
cells in the key columns. -/
theorem Table.entryKey_eq {eval : EvalExpr} {t t' : Table} {idx idx' : Index} {row row' : List Value}
    (hpredicate : idx'.predicate = idx.predicate) (hexpr : idx'.expr = idx.expr)
    (heval : ∀ x ∈ idx.expressions, eval x t'.columnNames row' = eval x t.columnNames row)
    (hcells : t.rowQualifies eval idx row = true → idx.expr = none →
      idx'.columns.mapM (row'[·]?) = idx.columns.mapM (row[·]?)) :
    t'.entryKey eval idx' row' = t.entryKey eval idx row := by
  have hqualifies : t'.rowQualifies eval idx' row' = t.rowQualifies eval idx row := by
    rw [rowQualifies, hpredicate, rowQualifies]
    cases hp : idx.predicate with
    | none => rfl
    | some pred =>
      dsimp only
      rw [heval pred (mem_append_left _ (by rw [hp]; exact .head _))]
  rw [entryKey, entryKey, hqualifies]
  split
  · next hq =>
    rw [indexKey, hexpr, indexKey]
    cases hx : idx.expr with
    | none =>
      rw [hcells hq hx]
    | some expr =>
      dsimp only
      rw [heval expr (mem_append_right _ (by rw [hx]; exact .head _))]
  · rfl

/-! ## One index and a list of rows -/

section Follows

variable {K : String → List Value → Prop} {eval : EvalExpr} {t t' : Table} {idx idx' : Index}
  {rows rows' : List (RowId × List Value)} {row : List Value} {id : RowId}
  {key : Option (List Value)}

/-- The entries of the index are those of the rows. -/
structure Index.Keeps (K : String → List Value → Prop) (idx : Index)
    (want : RowId → Option (List Value)) : Prop where
  lawful : idx.store.Lawful (K idx.name)
  holds : ∀ id, idx.store.HoldsOnly id (want id)
  accepts : ∀ id key, want id = some key → idx.store.Accepts (K idx.name) key

theorem Store.accepts_insert {K : List Value → Prop} {s : Store} {key k : List Value}
    (h : s.Accepts K k) : (s.insert key id).Accepts K k := by
  cases s with
  | hash map =>
    rw [Store.insert]
    split <;> exact h
  | _ => exact h

theorem Store.accepts_remove {K : List Value → Prop} {s : Store} {key k : List Value}
    (h : s.Accepts K k) : (s.remove key id).Accepts K k := by
  cases s with
  | hash map =>
    rw [Store.remove]
    split <;> exact h
  | _ => exact h

namespace Index.Keeps

variable {want : RowId → Option (List Value)}

theorem insert (h : idx.Keeps K want) (hK : ∀ n, Buckets.OrderOn (K n) keyCmp)
    (hid : want id = none) (hkey : ∀ k, key = some k → idx.store.Accepts (K idx.name) k) :
    Index.Keeps K (key.elim idx (idx.insert · id)) (Function.update want id key) := by
  cases key with
  | none =>
    rw [show Function.update want id none = want from hid ▸ update_eq_self id want]
    exact h
  | some k =>
    have haccepts := hkey k rfl
    refine ⟨h.lawful.insert (hK _) haccepts, fun id' => ?_, fun id' k' hk' => ?_⟩
    · rcases eq_or_ne id' id with rfl | hne
      · rw [update_self]
        exact holds_insert (hid ▸ h.holds id' : idx.store.HoldsOnly id' none) (hK _) haccepts
      · rw [update_of_ne hne]
        exact (sameFor_insert hne).holdsOnly (h.holds id')
    · refine accepts_insert ?_
      rcases eq_or_ne id' id with rfl | hne
      · rw [update_self] at hk'
        exact hkey k' hk'
      · rw [update_of_ne hne] at hk'
        exact h.accepts id' k' hk'

theorem remove (h : idx.Keeps K want) (hK : ∀ n, Buckets.OrderOn (K n) keyCmp)
    (hid : want id = key) :
    Index.Keeps K (key.elim idx (idx.remove · id)) (Function.update want id none) := by
  cases key with
  | none =>
    rw [show Function.update want id none = want from hid ▸ update_eq_self id want]
    exact h
  | some k =>
    have haccepts := h.accepts id k hid
    refine ⟨h.lawful.remove, fun id' => ?_, fun id' k' hk' => ?_⟩
    · rcases eq_or_ne id' id with rfl | hne
      · rw [update_self]
        exact lacks_remove (hid ▸ h.holds id' : idx.store.HoldsOnly id' (some k)) h.lawful
          (hK _) haccepts
      · rw [update_of_ne hne]
        exact (sameFor_remove hne).holdsOnly (h.holds id')
    · refine accepts_remove ?_
      rcases eq_or_ne id' id with rfl | hne
      · rw [update_self] at hk'
        cases hk'
      · rw [update_of_ne hne] at hk'
        exact h.accepts id' k' hk'

end Index.Keeps

/-- The index has the entries that the given rows of the table ask for, and no others. -/
def Index.Follows (K : String → List Value → Prop) (eval : EvalExpr) (t : Table) (idx : Index)
    (rows : List (RowId × List Value)) : Prop :=
  ∃ want, idx.Keeps K want ∧ (∀ e ∈ rows, t.entryKey eval idx e.2 = .ok (want e.1)) ∧
    ∀ id ∉ rows.map Prod.fst, want id = none

namespace Index.Follows

theorem insert (h : idx.Follows K eval t rows) (hK : ∀ n, Buckets.OrderOn (K n) keyCmp)
    (hid : id ∉ rows.map Prod.fst) (hkey : t.entryKey eval idx row = .ok key)
    (haccepts : ∀ k, key = some k → idx.store.Accepts (K idx.name) k) :
    Index.Follows K eval t (key.elim idx (idx.insert · id)) ((id, row) :: rows) := by
  obtain ⟨want, hkeeps, hrows, hothers⟩ := h
  have hentry : ∀ r, t.entryKey eval (key.elim idx (idx.insert · id)) r = t.entryKey eval idx r := by
    cases key <;> exact fun r => rfl
  refine ⟨Function.update want id key, hkeeps.insert hK (hothers id hid) haccepts, ?_, ?_⟩
  · intro e he
    rw [hentry]
    rcases mem_cons.mp he with rfl | he
    · rw [update_self, hkey]
    · have hne : e.1 ≠ id := fun heq => hid (heq ▸ mem_map_of_mem he)
      rw [update_of_ne hne, hrows e he]
  · intro id' hid'
    rw [map_cons, mem_cons, not_or] at hid'
    rw [update_of_ne hid'.1, hothers id' hid'.2]

theorem remove (h : idx.Follows K eval t ((id, row) :: rows))
    (hK : ∀ n, Buckets.OrderOn (K n) keyCmp) (hid : id ∉ rows.map Prod.fst)
    (hkey : t.entryKey eval idx row = .ok key) :
    Index.Follows K eval t (key.elim idx (idx.remove · id)) rows := by
  obtain ⟨want, hkeeps, hrows, hothers⟩ := h
  have hwant : want id = key := by
    have := hrows (id, row) (.head _)
    rw [hkey] at this
    exact (Except.ok.inj this).symm
  have hentry : ∀ r, t.entryKey eval (key.elim idx (idx.remove · id)) r = t.entryKey eval idx r := by
    cases key <;> exact fun r => rfl
  refine ⟨Function.update want id none, hkeeps.remove hK hwant, ?_, ?_⟩
  · intro e he
    have hne : e.1 ≠ id := fun heq => hid (heq ▸ mem_map_of_mem he)
    rw [hentry, update_of_ne hne, hrows e (.tail _ he)]
  · intro id' hid'
    rcases eq_or_ne id' id with rfl | hne
    · exact update_self ..
    · rw [update_of_ne hne]
      refine hothers id' ?_
      rw [map_cons, mem_cons, not_or]
      exact ⟨hne, hid'⟩

/-- An empty index follows no rows. -/
theorem nil (h : idx.store = Store.empty idx.method) : idx.Follows K eval t [] := by
  refine ⟨fun _ => none, ⟨?_, fun id => ?_, fun _ _ h => by cases h⟩, by simp, fun _ _ => rfl⟩
  · rw [h]
    exact lawful_empty _
  · rw [h]
    exact lacks_empty _

variable (h : idx.Follows K eval t rows)
include h

theorem perm (hperm : rows.Perm rows') : idx.Follows K eval t rows' := by
  obtain ⟨want, hkeeps, hrows, hothers⟩ := h
  refine ⟨want, hkeeps, fun e he => hrows e (hperm.symm.subset he), fun id hid => hothers id ?_⟩
  rwa [(hperm.map Prod.fst).mem_iff]

/-- The rows may change if their keys do not. -/
theorem of_keys (hstore : idx'.store = idx.store)
    (hname : idx'.name = idx.name) (hids : rows'.map Prod.fst = rows.map Prod.fst)
    (hkeys : ∀ e' ∈ rows', ∃ e ∈ rows, e.1 = e'.1 ∧
      t'.entryKey eval idx' e'.2 = t.entryKey eval idx e.2) : idx'.Follows K eval t' rows' := by
  obtain ⟨want, hkeeps, hrows, hothers⟩ := h
  refine ⟨want, ⟨?_, ?_, ?_⟩, fun e' he' => ?_, fun id hid => hothers id (hids ▸ hid)⟩
  · rw [hstore, hname]
    exact hkeeps.lawful
  · rw [hstore]
    exact hkeeps.holds
  · rw [hstore, hname]
    exact hkeeps.accepts
  · obtain ⟨e, he, hid, hkey⟩ := hkeys e' he'
    rw [hkey, hrows e he, hid]

theorem congr (hcolumns : t'.columns = t.columns) : idx.Follows K eval t' rows := by
  refine h.of_keys rfl rfl rfl fun e he => ⟨e, he, rfl, Table.entryKey_eq rfl rfl ?_ fun _ _ => rfl⟩
  rw [Table.columnNames, hcolumns]
  exact fun _ _ => rfl

/-- A row that qualifies has cells in all key columns. -/
theorem cells {e : RowId × List Value} (he : e ∈ rows) (hq : t.rowQualifies eval idx e.2 = true)
    (hexpr : idx.expr = none) : ∀ c ∈ idx.columns, c < e.2.length := by
  obtain ⟨want, -, hrows, -⟩ := h
  have hkey := hrows e he
  rw [Table.entryKey, if_pos hq, Table.indexKey, hexpr] at hkey
  dsimp only at hkey
  split at hkey
  · next key hcells =>
    intro c hc
    obtain ⟨v, -, hv⟩ := exists_of_mapM_eq_some hcells c hc
    exact (List.getElem?_eq_some_iff.mp hv).1
  · cases hkey

end Index.Follows

end Follows

namespace Table

/-! ## The invariant of a table -/

/-- **Consistency**: every index has exactly one entry for each row in view that qualifies and has a
key, under that key, and none for any other row id. -/
def Consistent (eval : EvalExpr) (t : Table) : Prop :=
  ∀ idx ∈ t.indexes,
    (∀ e ∈ t.view, ∃ key, t.entryKey eval idx e.2 = .ok key ∧ idx.store.HoldsOnly e.1 key) ∧
      ∀ id ∉ t.rowIds, idx.store.Lacks id

structure Indexed (K : String → List Value → Prop) (eval : EvalExpr) (t : Table) : Prop where
  sound : t.Sound
  follows : ∀ idx ∈ t.indexes, idx.Follows K eval t t.view

variable {K : String → List Value → Prop} {eval : EvalExpr} {t t' : Table}
  {rows : List (RowId × List Value)} {row : List Value} {id : RowId} {indexes : List Index}
  {keys : List (Option (List Value))} {idx : Index}

theorem Indexed.consistent (h : t.Indexed K eval) : t.Consistent eval := by
  intro idx hidx
  obtain ⟨want, hkeeps, hrows, hothers⟩ := h.follows idx hidx
  refine ⟨fun e he => ⟨want e.1, hrows e he, hkeeps.holds e.1⟩, fun id hid => ?_⟩
  have := hkeeps.holds id
  rwa [hothers id (h.sound.map_fst_view ▸ hid)] at this

/-- The layout of `idx` can keep the key of `row`. -/
def Admits (K : String → List Value → Prop) (eval : EvalExpr) (t : Table) (idx : Index)
    (row : List Value) : Prop :=
  ∀ key, t.entryKey eval idx row = .ok (some key) → idx.store.Accepts (K idx.name) key

theorem exists_of_mem_zipWith {α β γ : Type} {R : α → β → Prop} {f : α → β → γ} {l : List α}
    {l' : List β} {c : γ} (h : List.Forall₂ R l l') (hc : c ∈ l.zipWith f l') :
    ∃ a ∈ l, ∃ b, R a b ∧ c = f a b := by
  induction h with
  | nil => cases hc
  | @cons a b _ _ hab _ ih =>
    rcases mem_cons.mp hc with rfl | hc
    · exact ⟨a, .head _, b, hab, rfl⟩
    · obtain ⟨a', ha', hb⟩ := ih hc
      exact ⟨a', .tail _ ha', hb⟩

/-- What the layouts can keep does not depend on what they keep. -/
theorem admits_removeKeys {old : List Value}
    (hkeys : indexes.mapM (t.entryKey eval · old) = .ok keys)
    (hadmits : ∀ idx ∈ indexes, t.Admits K eval idx row) :
    ∀ idx ∈ removeKeys indexes keys id, t.Admits K eval idx row := by
  intro idx' hidx'
  obtain ⟨idx, hidx, key, -, rfl⟩ := exists_of_mem_zipWith (forall₂_of_mapM_eq_ok hkeys) hidx'
  cases key with
  | none => exact hadmits idx hidx
  | some k => exact fun key hkey => accepts_remove (hadmits idx hidx key hkey)

/-- The state of the loop of `deleteRows` when the rows in `live` are still in the indexes: these
read as before, and the indexes follow them. -/
structure Unindexing (K : String → List Value → Prop) (eval : EvalExpr) (t s : Table)
    (live : List (List Value × RowId)) : Prop where
  columns : s.columns = t.columns
  ids : (live.map Prod.snd).Nodup
  pointers : (live.flatMap fun e => pointers e.1).Nodup
  reads : ∀ e ∈ live, s.detoastRow e.1 = t.detoastRow e.1
  follows : ∀ idx ∈ s.indexes, idx.Follows K eval t (live.map fun e => (e.2, t.detoastRow e.1))

section

variable (hK : ∀ n, Buckets.OrderOn (K n) keyCmp)
include hK

theorem follows_insertKeys (h : ∀ idx ∈ indexes, idx.Follows K eval t rows)
    (hkeys : indexes.mapM (t.entryKey eval · row) = .ok keys) (hid : id ∉ rows.map Prod.fst)
    (hadmits : ∀ idx ∈ indexes, t.Admits K eval idx row) :
    ∀ idx ∈ insertKeys indexes keys id, idx.Follows K eval t ((id, row) :: rows) := by
  intro idx' hidx'
  obtain ⟨idx, hidx, key, hkey, rfl⟩ := exists_of_mem_zipWith (forall₂_of_mapM_eq_ok hkeys) hidx'
  exact (h idx hidx).insert hK hid hkey fun k hk => hadmits idx hidx k (hk ▸ hkey)

theorem follows_removeKeys (h : ∀ idx ∈ indexes, idx.Follows K eval t ((id, row) :: rows))
    (hkeys : indexes.mapM (t.entryKey eval · row) = .ok keys) (hid : id ∉ rows.map Prod.fst) :
    ∀ idx ∈ removeKeys indexes keys id, idx.Follows K eval t rows := by
  intro idx' hidx'
  obtain ⟨idx, hidx, key, hkey, rfl⟩ := exists_of_mem_zipWith (forall₂_of_mapM_eq_ok hkeys) hidx'
  exact (h idx hidx).remove hK hid hkey

/-! ## Operations on rows -/

theorem Indexed.pushRow (h : t.Indexed K eval) (hrow : PointerFree row)
    (hadmits : ∀ idx ∈ t.indexes, t.Admits K eval idx row)
    (hok : t.pushRow eval row = .ok t') : t'.Indexed K eval := by
  obtain ⟨hsound, hview⟩ := h.sound.pushRow hok hrow
  obtain ⟨keys, row', hkeys, -, hcolumns, -, -, -, hindexes⟩ := pushRow_eq_ok hok hrow
  refine ⟨hsound, fun idx hidx => ?_⟩
  rw [hindexes] at hidx
  have hid : t.nextRowId ∉ t.view.map Prod.fst := fun hid =>
    (h.sound.fresh _ (h.sound.map_fst_view ▸ hid)).ne rfl
  have hfollows := follows_insertKeys hK h.follows hkeys hid hadmits idx hidx
  rw [hview]
  exact (hfollows.perm (perm_append_singleton _ _).symm).congr hcolumns

theorem Indexed.updateRow {pos : Nat} (h : t.Indexed K eval) (hrow : PointerFree row)
    (hadmits : ∀ idx ∈ t.indexes, t.Admits K eval idx row)
    (hok : t.updateRow eval pos row = .ok t') : t'.Indexed K eval := by
  obtain ⟨hsound, id', hid', hview⟩ := h.sound.updateRow hok hrow
  obtain ⟨id, stored, row', keys₁, keys₂, hid, hstored, hkeys₁, hkeys₂, -, hcolumns, -, -, -,
    hindexes⟩ := updateRow_eq_ok hok hrow
  obtain rfl : id' = id := Option.some.inj (hid'.symm.trans hid)
  have hget : t.view[pos]? = some (id', t.detoastRow stored) :=
    view_getElem?_eq_some.mpr ⟨stored, hstored, hid, rfl⟩
  obtain ⟨hpos, hget⟩ := List.getElem?_eq_some_iff.mp hget
  -- The row before and after, and the others.
  have hold : ((id', t.detoastRow stored) :: t.view.eraseIdx pos).Perm t.view :=
    hget ▸ getElem_cons_eraseIdx_perm hpos
  have hnew : ((id', row) :: t.view.eraseIdx pos).Perm t'.view := by
    have hset := getElem_cons_eraseIdx_perm (l := t.view.set pos (id', row)) (by simpa using hpos)
    rwa [getElem_set_self, eraseIdx_set_eq, ← hview] at hset
  have hothers : id' ∉ (t.view.eraseIdx pos).map Prod.fst := by
    have hnodup := (hold.map Prod.fst).nodup_iff.mpr (h.sound.map_fst_view ▸ h.sound.nodup)
    exact (nodup_cons.mp hnodup).1
  refine ⟨hsound, fun idx hidx => ?_⟩
  rw [hindexes] at hidx
  have hremoved := follows_removeKeys hK (fun idx hidx => (h.follows idx hidx).perm hold.symm) hkeys₁
    hothers
  have hinserted := follows_insertKeys hK hremoved hkeys₂ hothers
    (admits_removeKeys hkeys₁ hadmits) idx hidx
  exact (hinserted.perm hnew).congr hcolumns

theorem Unindexing.dropRow {s s' : Table} {e : List Value × RowId} {live : List (List Value × RowId)}
    (h : Unindexing K eval t s (e :: live))
    (hok : s.dropRow eval e.1 e.2 = .ok s') : Unindexing K eval t s' live := by
  obtain ⟨keys, hkeys, rfl⟩ := dropRow_eq_ok hok
  have hpointers := h.pointers
  refine ⟨h.columns, (nodup_cons.mp h.ids).2, (nodup_append.mp hpointers).2.1, ?_, ?_⟩
  · intro e' he'
    rw [← h.reads e' (.tail _ he')]
    refine detoastRow_congr fun i hi => (lookup_untoastRow i).trans (if_neg fun hi' => ?_)
    exact disjoint_of_nodup_append hpointers hi' (mem_flatMap.mpr ⟨e', he', hi⟩)
  · have hentry : s.entryKey eval = t.entryKey eval := by
      funext idx r
      refine entryKey_eq rfl rfl ?_ fun _ _ => rfl
      rw [columnNames, h.columns]
      exact fun _ _ => rfl
    rw [hentry, h.reads e (.head _)] at hkeys
    refine follows_removeKeys hK h.follows hkeys ?_
    rw [map_map]
    exact (nodup_cons.mp h.ids).1

theorem Indexed.deleteRows {positions : List Nat} (h : t.Indexed K eval)
    (hok : t.deleteRows eval positions = .ok t') :
    t'.Indexed K eval := by
  rcases eq_or_ne positions [] with rfl | hne
  · cases hok
    exact h
  obtain ⟨hsound, hview⟩ := h.sound.deleteRows hok
  obtain ⟨t₁, ht₁, hcolumns, -, -, -, hindexes, -, -⟩ := deleteRows_eq_ok hne hok
  have hperm := keepAt_append_perm positions.contains t.entries
  generalize hkept : keepAt (!positions.contains ·) t.entries = kept at hperm
  have hstart : Unindexing K eval t t (keepAt positions.contains t.entries ++ kept) := by
    refine ⟨rfl, ?_, ?_, fun e _ => rfl, fun idx hidx => ?_⟩
    · rw [(hperm.map Prod.snd).nodup_iff, h.sound.map_snd_entries]
      exact h.sound.nodup
    · rw [(hperm.flatMap_right _).nodup_iff, ← flatMap_map, h.sound.map_fst_entries]
      exact h.sound.pointersNodup
    · exact (h.follows idx hidx).perm (hperm.map _).symm
  have hloop : Unindexing K eval t t₁ ([] ++ kept) :=
    foldlM_induction (P := fun rest s => Unindexing K eval t s (rest ++ kept)) ht₁ hstart
      fun e rest s s' hs hstep => hs.dropRow hK hstep
  refine ⟨hsound, fun idx hidx => ?_⟩
  rw [hindexes] at hidx
  rw [hview, view, keepAt_map, hkept]
  exact (hloop.follows idx hidx).congr (hcolumns.trans hloop.columns)

end

theorem Indexed.truncate (h : t.Indexed K eval) : t.truncate.Indexed K eval := by
  refine ⟨h.sound.truncate, fun idx hidx => ?_⟩
  obtain ⟨idx, -, rfl⟩ := mem_map.mp hidx
  exact .nil rfl

/-! ## Operations on indexes -/

theorem Indexed.dropIndex (h : t.Indexed K eval) (name : String) :
    (t.dropIndex name).Indexed K eval := by
  refine ⟨⟨h.sound.1, h.sound.2, h.sound.3, h.sound.4, h.sound.5⟩, fun idx hidx => ?_⟩
  exact (h.follows idx (mem_of_mem_eraseP hidx)).congr rfl

/-- A new index can be filled: what it computes from the stored cells is what a reader computes, and
its layout can keep the keys. -/
def CanPopulate (K : String → List Value → Prop) (eval : EvalExpr) (t : Table) (idx : Index) : Prop :=
  ∀ stored ∈ t.rows,
    (∀ x ∈ idx.expressions, eval x t.columnNames stored = eval x t.columnNames (t.detoastRow stored)) ∧
    (idx.expr = none → ∀ c ∈ idx.columns, ∀ v, stored[c]? = some v → toastIdOf v = none) ∧
    t.Admits K eval idx (t.detoastRow stored)

/-- The key of a stored row is that of the row in view. -/
theorem CanPopulate.entryKey_eq {stored : List Value} (h : t.CanPopulate K eval idx)
    (hstored : stored ∈ t.rows) :
    t.entryKey eval idx stored = t.entryKey eval idx (t.detoastRow stored) := by
  obtain ⟨heval, hcells, -⟩ := h stored hstored
  refine Table.entryKey_eq rfl rfl heval fun _ hexpr => ?_
  refine mapM_congr_of_mem fun c hc => ?_
  rw [detoastRow, getElem?_map]
  cases hv : stored[c]? with
  | none => rfl
  | some v =>
    rw [Option.map_some, detoastValue, hcells hexpr c hc v hv]

/-- Filling an index, one row after another. -/
theorem follows_populate {es : List (List Value × RowId)}
    {keys : List (Option (List Value) × RowId)} (hK : ∀ n, Buckets.OrderOn (K n) keyCmp)
    (hkeys : List.Forall₂
      (fun e k => t.entryKey eval idx (t.detoastRow e.1) = .ok k.1 ∧ k.2 = e.2) es keys)
    (hadmits : ∀ e ∈ es, t.Admits K eval idx (t.detoastRow e.1))
    (hnodup : (es.map Prod.snd ++ rows.map Prod.fst).Nodup) (h : idx.Follows K eval t rows) :
    (keys.foldl (fun idx e => e.1.elim idx (idx.insert · e.2)) idx).Follows K eval t
      ((es.map fun e => (e.2, t.detoastRow e.1)).reverse ++ rows) := by
  induction es generalizing idx rows keys with
  | nil =>
    cases hkeys
    exact h
  | cons e es ih =>
    cases hkeys with
    | @cons _ k _ keys hk hkeys =>
    rw [forall_mem_cons] at hadmits
    have hid : k.2 ∉ rows.map Prod.fst := fun hid =>
      (nodup_cons.mp hnodup).1 (mem_append_right _ (hk.2 ▸ hid))
    have hstep := h.insert hK hid hk.1 fun key hkey => hadmits.1 key (hkey ▸ hk.1)
    -- The index with the first row has the same expressions and columns.
    have hentry : t.entryKey eval (k.1.elim idx (idx.insert · k.2)) = t.entryKey eval idx := by
      cases k.1 <;> rfl
    have hstore : ∀ key, idx.store.Accepts (K idx.name) key →
        (k.1.elim idx (idx.insert · k.2)).store.Accepts
          (K (k.1.elim idx (idx.insert · k.2)).name) key := by
      cases k.1 with
      | none => exact fun _ h => h
      | some _ => exact fun _ h => accepts_insert h
    rw [map_cons, reverse_cons, append_assoc, foldl_cons, ← hk.2]
    refine ih (hentry ▸ hkeys) (fun e' he' key hkey => ?_) ?_ hstep
    · rw [hentry] at hkey
      exact hstore key (hadmits.2 e' he' key hkey)
    · rw [hk.2]
      exact perm_middle.nodup_iff.mpr hnodup

theorem Indexed.addAndPopulateIndex (h : t.Indexed K eval) (hK : ∀ n, Buckets.OrderOn (K n) keyCmp)
    (hempty : idx.store = Store.empty idx.method) (hidx : t.CanPopulate K eval idx)
    (hok : t.addAndPopulateIndex eval idx = .ok t') : t'.Indexed K eval := by
  obtain ⟨keys, hkeys, rfl⟩ := addAndPopulateIndex_eq_ok hok
  refine ⟨⟨h.sound.1, h.sound.2, h.sound.3, h.sound.4, h.sound.5⟩, fun idx' hidx' => ?_⟩
  rcases mem_append.mp hidx' with hidx' | hidx'
  · exact (h.follows idx' hidx').congr rfl
  have hcells : t.entries.mapM (t.populateEntry eval idx) =
      t.entries.mapM fun e => t.populateEntry eval idx (t.detoastRow e.1, e.2) :=
    mapM_congr_of_mem fun e he => by
      rw [populateEntry, populateEntry, hidx.entryKey_eq (of_mem_zip he).1]
  have hkeys' : List.Forall₂ (fun e k => t.entryKey eval idx (t.detoastRow e.1) = .ok k.1 ∧
      k.2 = e.2) t.entries keys := by
    refine (forall₂_of_mapM_eq_ok (hcells ▸ hkeys)).imp fun e k hk => ?_
    obtain ⟨key, hkey, hk⟩ := of_bind_eq_ok hk
    cases hk
    exact ⟨hkey, rfl⟩
  have hnodup : (t.entries.map Prod.snd ++ ([] : List (RowId × List Value)).map Prod.fst).Nodup := by
    rw [map_nil, append_nil, h.sound.map_snd_entries]
    exact h.sound.nodup
  rw [mem_singleton.mp hidx']
  have hfollows := follows_populate hK hkeys' (fun e he => ?_) hnodup (.nil hempty)
  · rw [append_nil] at hfollows
    exact (hfollows.perm (reverse_perm _)).congr rfl
  · exact (hidx e.1 (of_mem_zip he).1).2.2

/-! ## Operations on columns -/

theorem Indexed.addColumn (h : t.Indexed K eval) {column : Column} {fill : Nat → Value}
    (hfill : ∀ pos < t.rows.length, toastIdOf (fill pos) = none)
    (heval : ∀ idx ∈ t.indexes, ∀ x ∈ idx.expressions, ∀ pos e, t.view[pos]? = some e →
      eval x (t.columnNames ++ [column.name]) (e.2 ++ [fill pos]) = eval x t.columnNames e.2) :
    (t.addColumn column fill).Indexed K eval := by
  obtain ⟨hsound, hview⟩ := h.sound.addColumn column hfill
  refine ⟨hsound, fun idx hidx => ?_⟩
  have hfollows := h.follows idx hidx
  rw [hview]
  refine hfollows.of_keys rfl rfl ?_ fun e' he' => ?_
  · rw [← hview, h.sound.map_fst_view]
    exact hsound.map_fst_view
  · obtain ⟨pos, hpos⟩ := mem_iff_getElem?.mp he'
    rw [getElem?_mapIdx] at hpos
    obtain ⟨e, he, rfl⟩ := Option.map_eq_some_iff.mp hpos
    have hmem := mem_of_getElem? he
    refine ⟨e, hmem, rfl, entryKey_eq rfl rfl (fun x hx => ?_) fun hq hexpr => ?_⟩
    · rw [← heval idx hidx x hx pos e he, columnNames, Table.addColumn, map_append]
      rfl
    · exact mapM_congr_of_mem fun c hc =>
        getElem?_append_left (hfollows.cells hmem hq hexpr c hc)

theorem getElem?_eraseIdx_shiftColumn {idx c : Nat} (hc : c ≠ idx) :
    (row.eraseIdx idx)[shiftColumn idx c]? = row[c]? := by
  rw [shiftColumn, getElem?_eraseIdx]
  split
  · rw [if_neg (by omega), Nat.sub_add_cancel (by omega)]
  · rw [if_pos (by omega)]

theorem Indexed.dropColumn (h : t.Indexed K eval) {i : Nat}
    (heval : ∀ idx ∈ t.indexes, i ∉ idx.columns → i ∉ idx.include → ∀ x ∈ idx.expressions,
      ∀ e ∈ t.view, eval x (t.columnNames.eraseIdx i) (e.2.eraseIdx i) = eval x t.columnNames e.2)
    (hok : t.dropColumn i = .ok t') : t'.Indexed K eval := by
  obtain ⟨hsound, hview⟩ := h.sound.dropColumn hok
  refine ⟨hsound, ?_⟩
  rw [hview]
  rw [Table.dropColumn] at hok
  split at hok
  · cases hok
  cases hok
  intro idx' hidx'
  obtain ⟨idx, hidx, rfl⟩ := mem_map.mp hidx'
  obtain ⟨hidx, hkeep⟩ := mem_filter.mp hidx
  simp only [Bool.and_eq_true, Bool.not_eq_true', contains_eq_mem, decide_eq_false_iff_not]
    at hkeep
  refine (h.follows idx hidx).of_keys rfl rfl ?_ fun e' he' => ?_
  · rw [map_map]
    rfl
  · obtain ⟨e, he, rfl⟩ := mem_map.mp he'
    refine ⟨e, he, rfl, entryKey_eq rfl rfl (fun x hx => ?_) fun _ _ => ?_⟩
    · rw [← heval idx hidx hkeep.1 hkeep.2 x hx e he, columnNames, columnNames, eraseIdx_map]
    · rw [mapM_map]
      exact mapM_congr_of_mem fun c hc =>
        getElem?_eraseIdx_shiftColumn fun heq => hkeep.1 (heq ▸ hc)

/-! ## Histories -/

/-- What the state before a call and its arguments must satisfy for the indexes to follow.  `K`
says, by name of an index, which keys it may get. -/
def Regular (K : String → List Value → Prop) (eval : EvalExpr) (t : Table) : Op → Prop
  | .pushRow row | .updateRow _ row =>
    PointerFree row ∧ ∀ idx ∈ t.indexes, t.Admits K eval idx row
  | .deleteRows _ | .truncate | .dropIndex _ => True
  | .createIndex name column unique => t.CanPopulate K eval (.new name column unique)
  | .createIndexFull name columns expr predicate incl unique method =>
    t.CanPopulate K eval
      { Index.newMulti name columns unique method with expr, predicate, «include» := incl }
  | .addColumn column fill =>
    (∀ pos < t.rows.length, toastIdOf (fill pos) = none) ∧
      ∀ idx ∈ t.indexes, ∀ x ∈ idx.expressions, ∀ pos e, t.view[pos]? = some e →
        eval x (t.columnNames ++ [column.name]) (e.2 ++ [fill pos]) = eval x t.columnNames e.2
  | .dropColumn i =>
    ∀ idx ∈ t.indexes, i ∉ idx.columns → i ∉ idx.include → ∀ x ∈ idx.expressions, ∀ e ∈ t.view,
      eval x (t.columnNames.eraseIdx i) (e.2.eraseIdx i) = eval x t.columnNames e.2

theorem Indexed.step (h : t.Indexed K eval) (hK : ∀ n, Buckets.OrderOn (K n) keyCmp) {op : Op}
    (hop : t.Regular K eval op) : (t.step eval op).Indexed K eval := by
  rw [Table.step]
  split
  · next t' hok =>
    cases op with
    | pushRow row => exact h.pushRow hK hop.1 hop.2 hok
    | updateRow pos row => exact h.updateRow hK hop.1 hop.2 hok
    | deleteRows positions => exact h.deleteRows hK hok
    | truncate =>
      cases hok
      exact h.truncate
    | createIndex name column unique => exact h.addAndPopulateIndex hK rfl hop hok
    | createIndexFull name columns expr predicate incl unique method =>
      exact h.addAndPopulateIndex hK rfl hop hok
    | dropIndex name =>
      cases hok
      exact h.dropIndex name
    | addColumn column fill =>
      cases hok
      exact h.addColumn hop.1 hop.2
    | dropColumn i => exact h.dropColumn hop hok
  · exact h

/-- **Indexes follow their table**: a table that is reached by regular calls is consistent. -/
theorem consistent_run (eval : EvalExpr) (K : String → List Value → Prop)
    (hK : ∀ n, Buckets.OrderOn (K n) keyCmp) (name : String) (columns : List Column) (ops : List Op)
    (hops : Machine.Always (step eval) (Regular K eval) (new name columns) ops) :
    (Machine.run (step eval) (new name columns) ops).Consistent eval := by
  have hindexed : (Machine.run (step eval) (new name columns) ops).Indexed K eval :=
    hops.run_induction ⟨sound_new name columns [], nofun⟩ fun t op ht hop => ht.step hK hop
  exact hindexed.consistent

/-- A row that goes into an index and out again. -/
theorem consistent_run_pushRow :
    (Machine.run (step fun _ _ _ => none) (new "t" [⟨"x", .int8, false⟩])
      [.createIndex "i" 0 false, .pushRow [.int 1], .pushRow [.null], .deleteRows [0]]).Consistent
        fun _ _ _ => none := by
  refine consistent_run _ (fun _ key => ∀ v ∈ key, IsPlain v) (fun _ => orderOn_keyCmp orderOn_isPlain)
    _ _ _ ⟨?_, ⟨?_, ?_⟩, ⟨?_, ?_⟩, trivial, trivial⟩
  · exact fun stored hstored => by cases hstored
  · decide +kernel
  · intro idx hidx key hkey
    obtain rfl := mem_singleton.mp hidx
    cases hkey
    exact forall_mem_singleton.mpr trivial
  · decide +kernel
  · intro idx hidx key hkey
    obtain rfl := mem_singleton.mp hidx
    cases hkey
    exact forall_mem_singleton.mpr trivial

theorem utf8ByteSize_replicate (n : Nat) (c : Char) :
    (String.ofList (List.replicate n c)).utf8ByteSize = n * c.utf8Size := by
  induction n with
  | zero => rw [Nat.zero_mul]; rfl
  | succ n ih =>
    rw [replicate_succ, String.ofList_cons, String.utf8ByteSize_append,
      String.utf8ByteSize_singleton, ih, Nat.succ_mul, Nat.add_comm]

/-- A table with one text over the threshold. -/
theorem step_pushRow_of_large {s : String} (hpre : toastPrefix.isPrefixOf s.toList = false)
    (hsize : ¬s.utf8ByteSize ≤ toastThresholdBytes) (name : String) (columns : List Column) :
    step eval (new name columns) (.pushRow [.text s]) =
      { new name columns with
        nextRowId := 1, rows := [[.text (toastPointer 0)]], rowIds := [0]
        rowPos := AList.insert 0 0 ∅, toast := AList.insert 0 s ∅, nextToastId := 1 } := by
  have hcell : ∀ t : Table, t.nextToastId = 0 → t.toastCell (.text s) =
      .ok ({ t with nextToastId := 1, toast := t.toast.insert 0 s }, .text (toastPointer 0)) := by
    intro t ht
    rw [toastCell, if_neg (by rw [hpre]; decide), if_neg hsize, ht, if_neg (by decide)]
  have hrow : ∀ t : Table, t.nextToastId = 0 → t.toastRow [.text s] =
      .ok ({ t with nextToastId := 1, toast := t.toast.insert 0 s }, [.text (toastPointer 0)]) := by
    intro t ht
    rw [toastRow, hcell t ht]
    rfl
  have hok : (new name columns).pushRow eval [.text s] = .ok { new name columns with
        nextRowId := 1, rows := [[.text (toastPointer 0)]], rowIds := [0]
        rowPos := AList.insert 0 0 ∅, toast := AList.insert 0 s ∅, nextToastId := 1 } := by
    have hid : ¬2 ^ 64 ≤ (new name columns).nextRowId + 1 := show ¬2 ^ 64 ≤ 0 + 1 by decide
    rw [Table.pushRow, if_neg hid]
    exact congrArg (fun x : Except Panic (Table × List Value) => x >>= fun p => .ok { p.1 with
      rows := p.1.rows ++ [p.2], rowIds := p.1.rowIds ++ [0], rowPos := p.1.rowPos.insert 0 0 })
      (hrow { new name columns with nextRowId := 1 } rfl)
  rw [step, apply, hok]

/-- A text over the threshold is indexed by its pointer if the index is created after it was
stored. -/
theorem not_consistent_createIndex :
    ¬(Machine.run (step fun _ _ _ => none) (new "t" [⟨"x", .text, false⟩])
      [.pushRow [.text (String.ofList (List.replicate 3000 'x'))],
        .createIndex "i" 0 false]).Consistent fun _ _ _ => none := by
  have hpre : toastPrefix.isPrefixOf (String.ofList (List.replicate 3000 'x')).toList = false := by
    rw [String.toList_ofList]
    rfl
  have hsize : ¬(String.ofList (List.replicate 3000 'x')).utf8ByteSize ≤ toastThresholdBytes := by
    rw [utf8ByteSize_replicate]
    decide
  generalize String.ofList (List.replicate 3000 'x') = s at *
  intro h
  rw [Machine.run_cons, step_pushRow_of_large hpre hsize] at h
  obtain ⟨hrows, -⟩ :=
    h { Index.new "i" 0 false with store := .btree [([.text (toastPointer 0)], [0])] } (.head _)
  have hlookup : (AList.insert 0 s ∅ : AList fun _ : Nat => String).lookup 0 = some s :=
    AList.lookup_insert ∅
  obtain ⟨key, hkey, hholds⟩ := hrows (0, [.text s]) (by
    refine mem_singleton.mpr (congrArg (Prod.mk 0) (singleton_inj.mpr ?_))
    exact congrArg (fun o : Option String => Value.text (o.getD "")) hlookup.symm)
  cases hkey
  obtain ⟨k, hcmp, hheld⟩ := hholds
  obtain rfl : [.text (toastPointer 0)] = k := singleton_inj.mp hheld
  -- Only equal texts are the same key, and `s` does not start like a pointer.
  have heq : s.toList = (toastPointer 0).toList :=
    Std.LawfulEqOrd.eq_of_compare (Ordering.then_eq_eq.mp hcmp).1
  rw [heq] at hpre
  exact absurd hpre (by decide +kernel)

end Table

end PostgresRs.Storage
