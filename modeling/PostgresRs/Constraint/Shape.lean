import PostgresRs.Constraint.Ddl
import PostgresRs.Storage.Consistency

/-!
# The shape of tables

The rows of a table are as wide as it has columns, and the positions in its indexes and unique
constraints are those of columns.  Every operation keeps it so (`Table.Fits`), and with it every
change that a statement makes (`Relation.fits_applyChange`).
-/

namespace PostgresRs

open List

namespace Storage
namespace Table

variable {eval : EvalExpr} {t t' : Table} {n : Nat} {row row' : List Value}

/-- The rows are `n` wide, and the indexes are on the first `n` columns. -/
structure Fits (t : Table) (n : Nat) : Prop where
  rows : ∀ row ∈ t.rows, row.length = n
  indexes : ∀ idx ∈ t.indexes, ∀ c ∈ idx.columns, c < n

theorem length_of_toastRow (h : t.toastRow row = .ok (t', row')) : row'.length = row.length := by
  exact toastRow_induction (P := fun _ row _ row' => row'.length = row.length) h (fun _ => rfl)
    fun _ ih => congrArg Nat.succ ih

section

variable {indexes : List Index} (h : ∀ idx ∈ indexes, ∀ c ∈ idx.columns, c < n)
  (keys : List (Option (List Value)))
include h

/-- Indexes with other entries are on the same columns. -/
theorem columns_zipWith {f : Index → Option (List Value) → Index}
    (hf : ∀ idx key, (f idx key).columns = idx.columns) :
    ∀ idx ∈ indexes.zipWith f keys, ∀ c ∈ idx.columns, c < n := by
  intro idx' hidx'
  obtain ⟨i, hi⟩ := mem_iff_getElem?.mp hidx'
  rw [getElem?_zipWith] at hi
  split at hi
  · next idx key hidx _ =>
    cases hi
    exact (hf idx key).symm ▸ h idx (mem_of_getElem? hidx)
  · cases hi

theorem columns_insertKeys (id : RowId) :
    ∀ idx ∈ insertKeys indexes keys id, ∀ c ∈ idx.columns, c < n :=
  columns_zipWith h keys fun _ key => by cases key <;> rfl

theorem columns_removeKeys (id : RowId) :
    ∀ idx ∈ removeKeys indexes keys id, ∀ c ∈ idx.columns, c < n :=
  columns_zipWith h keys fun _ key => by cases key <;> rfl

end

namespace Fits

section

variable (h : t.Fits n)
include h

theorem pushRow (hrow : row.length = n) (hp : t.pushRow eval row = .ok t') :
    t'.Fits n ∧ t'.columns = t.columns := by
  obtain ⟨keys, _, _, _, row', -, rfl, hstored, rfl⟩ := pushRow_cases hp
  refine ⟨⟨fun r hr => ?_, columns_insertKeys h.indexes _ _⟩, rfl⟩
  rcases mem_append.mp hr with hr | hr
  · exact h.rows r hr
  · rw [mem_singleton.mp hr, length_of_toastRow hstored, hrow]

theorem updateRow {pos : Nat} (hrow : row.length = n)
    (hu : t.updateRow eval pos row = .ok t') : t'.Fits n ∧ t'.columns = t.columns := by
  obtain ⟨_, _, _, _, _, _, _, row', -, -, -, -, rfl, hstored, rfl⟩ := updateRow_cases hu
  refine ⟨⟨fun r hr => ?_, columns_insertKeys (columns_removeKeys h.indexes _ _) _ _⟩, rfl⟩
  rcases mem_or_eq_of_mem_set hr with hr | rfl
  · exact h.rows r hr
  · rw [length_of_toastRow hstored, hrow]

theorem dropRow {id : RowId} (hd : t.dropRow eval row id = .ok t') :
    t'.Fits n ∧ t'.columns = t.columns := by
  obtain ⟨keys, -, rfl⟩ := dropRow_eq_ok hd
  exact ⟨⟨h.rows, columns_removeKeys h.indexes _ _⟩, rfl⟩

theorem deleteRows {positions : List Nat}
    (hd : t.deleteRows eval positions = .ok t') : t'.Fits n ∧ t'.columns = t.columns := by
  rcases eq_or_ne positions [] with rfl | hne
  · cases hd
    exact ⟨h, rfl⟩
  obtain ⟨t₁, ht₁, hcolumns, -, -, -, hindexes, hrows, -⟩ := deleteRows_eq_ok hne hd
  obtain ⟨hfits, hcolumns₁⟩ := foldlM_induction
    (P := fun _ s => s.Fits n ∧ s.columns = t.columns) ht₁ ⟨h, rfl⟩ fun e _ s s' hs hstep => by
      obtain ⟨hfits, hsame⟩ := hs.1.dropRow hstep
      exact ⟨hfits, hsame.trans hs.2⟩
  refine ⟨⟨fun row hrow => ?_, hindexes ▸ hfits.indexes⟩, hcolumns.trans hcolumns₁⟩
  rw [hrows] at hrow
  obtain ⟨e, he, rfl⟩ := mem_map.mp hrow
  exact h.rows e.1 (of_mem_zip ((keepAt_sublist _ _).subset he)).1

theorem truncate : t.truncate.Fits n where
  rows := nofun
  indexes idx' hidx' := by
    obtain ⟨idx, hidx, rfl⟩ := mem_map.mp hidx'
    exact h.indexes idx hidx

theorem addAndPopulateIndex {idx : Index} (hidx : ∀ c ∈ idx.columns, c < n)
    (ha : t.addAndPopulateIndex eval idx = .ok t') : t'.Fits n ∧ t'.columns = t.columns := by
  obtain ⟨keys, -, rfl⟩ := addAndPopulateIndex_eq_ok ha
  refine ⟨⟨h.rows, fun idx' hidx' => ?_⟩, rfl⟩
  rcases mem_append.mp hidx' with hidx' | hidx'
  · exact h.indexes idx' hidx'
  · obtain rfl := mem_singleton.mp hidx'
    refine List.foldlRecOn keys _ (motive := fun idx : Index => ∀ c ∈ idx.columns, c < n) hidx
      fun idx hidx e _ => ?_
    cases e.1 <;> exact hidx

theorem addColumn (column : Column) (fill : Nat → Value) :
    (t.addColumn column fill).Fits (n + 1) where
  rows row' hrow' := by
    obtain ⟨pos, hpos⟩ := mem_iff_getElem?.mp hrow'
    rw [Table.addColumn, getElem?_mapIdx, Option.map_eq_some_iff] at hpos
    obtain ⟨row, hrow, rfl⟩ := hpos
    rw [length_append, h.rows row (mem_of_getElem? hrow), length_singleton]
  indexes idx hidx c hc := (h.indexes idx hidx c hc).trans (Nat.lt_succ_self n)

end

theorem shiftColumn_lt {idx c n : Nat} (hidx : idx < n) (hc : c < n) (hne : c ≠ idx) :
    shiftColumn idx c < n - 1 := by
  rw [shiftColumn]
  split <;> omega

theorem dropColumn {idx : Nat} (h : t.Fits n) (hidx : idx < n) (hd : t.dropColumn idx = .ok t') :
    t'.Fits (n - 1) ∧ t'.columns = t.columns.eraseIdx idx := by
  rw [Table.dropColumn] at hd
  split at hd
  · cases hd
  cases hd
  refine ⟨⟨fun row' hrow' => ?_, fun i' hi' c' hc' => ?_⟩, rfl⟩
  · obtain ⟨row, hrow, rfl⟩ := mem_map.mp hrow'
    have hlength := h.rows row hrow
    rw [length_eraseIdx_of_lt (hlength ▸ hidx), hlength]
  · obtain ⟨i, hi, rfl⟩ := mem_map.mp hi'
    obtain ⟨hi, hkept⟩ := mem_filter.mp hi
    obtain ⟨c, hc, rfl⟩ := mem_map.mp hc'
    refine shiftColumn_lt hidx (h.indexes i hi c hc) fun heq => ?_
    subst heq
    simp [hc] at hkept

theorem dropIndex (h : t.Fits n) (name : String) : (t.dropIndex name).Fits n where
  rows := h.rows
  indexes idx hidx := h.indexes idx (mem_of_mem_eraseP hidx)

end Fits
end Table
end Storage

namespace Constraint

open Storage Exec

/-- The rows have the width of the table, and the positions in indexes and unique constraints are
those of columns. -/
structure Relation.Shaped (r : Relation) : Prop where
  fits : r.table.Fits r.table.columns.length
  uniques : ∀ k ∈ r.uniqueConstraints, ∀ c ∈ k.columns, c < r.table.columns.length

theorem Relation.Shaped.lt_of_uniqueKeyColumns {r : Relation} (h : r.Shaped) {columns : List Nat}
    (hcolumns : columns ∈ r.uniqueKeyColumns) : ∀ c ∈ columns, c < r.table.columns.length := by
  rcases mem_append.mp hcolumns with hmem | hmem
  · obtain ⟨idx, hidx, rfl⟩ := mem_map.mp hmem
    exact h.fits.indexes idx (mem_of_mem_filter hidx)
  · obtain ⟨k, hk, rfl⟩ := mem_map.mp hmem
    exact h.uniques k hk

/-- The value of a row in a column. -/
def valueAt (row : List Value) (c : Nat) : Value := row.getD c .null

theorem getElem?_eq_valueAt {row : List Value} {c : Nat} (h : c < row.length) :
    row[c]? = some (valueAt row c) := by
  rw [valueAt, getD_eq_getElem?_getD, getElem?_eq_getElem h]
  rfl

theorem cell_eq_valueAt {row : List Value} {c : Nat} (h : c < row.length) :
    cell row c = .ok (valueAt row c) := by
  rw [cell, getElem?_eq_valueAt h]

section Change

variable {eval : EvalExpr} {r r' : Relation} {c : Change}

/-- What each operation of a change keeps, the change keeps. -/
theorem Relation.applyChange_induction {P : Table → Prop} (h : r.applyChange eval c = .ok r')
    (h0 : P r.table)
    (hupdate : ∀ u ∈ c.updates, ∀ t t', P t → t.updateRow eval u.1 u.2 = .ok t' → P t')
    (hdelete : ∀ t t', P t → t.deleteRows eval c.deletes = .ok t' → P t')
    (hinsert : ∀ row ∈ c.inserts, ∀ t t', P t → t.pushRow eval row = .ok t' → P t') :
    P r'.table ∧ r' = { r with table := r'.table } := by
  obtain ⟨t₁, ht₁, h⟩ := of_bind_eq_ok h
  obtain ⟨t₂, ht₂, h⟩ := of_bind_eq_ok h
  obtain ⟨t₃, ht₃, h⟩ := of_bind_eq_ok h
  cases h
  obtain ⟨-, h₁⟩ := foldlM_induction (P := fun l t => l ⊆ c.updates ∧ P t) ht₁
    ⟨List.Subset.refl _, h0⟩ fun u l t t' ht hstep =>
      ⟨(cons_subset.mp ht.1).2,
        hupdate u (cons_subset.mp ht.1).1 t t' ht.2 (ofStorage_eq_ok hstep)⟩
  have h₂ := hdelete t₁ t₂ h₁ (ofStorage_eq_ok ht₂)
  obtain ⟨-, h₃⟩ := foldlM_induction (P := fun l t => l ⊆ c.inserts ∧ P t) ht₃
    ⟨List.Subset.refl _, h₂⟩ fun row l t t' ht hstep =>
      ⟨(cons_subset.mp ht.1).2,
        hinsert row (cons_subset.mp ht.1).1 t t' ht.2 (ofStorage_eq_ok hstep)⟩
  exact ⟨h₃, rfl⟩

/-- A change of rows keeps the shape of the table and leaves everything else as it is. -/
theorem Relation.fits_applyChange {n : Nat} (hfits : r.table.Fits n)
    (hrows : ∀ row ∈ c.newRows, row.length = n) (h : r.applyChange eval c = .ok r') :
    r'.table.Fits n ∧ r'.table.columns = r.table.columns ∧ r' = { r with table := r'.table } := by
  rw [← and_assoc]
  refine Relation.applyChange_induction (P := fun t => t.Fits n ∧ t.columns = r.table.columns) h
    ⟨hfits, rfl⟩ (fun u hu t t' ht hstep => ?_) (fun t t' ht hstep => ?_)
    fun row hrow t t' ht hstep => ?_
  · obtain ⟨ht', hsame⟩ :=
      ht.1.updateRow (hrows u.2 (mem_append_left _ (mem_map_of_mem hu))) hstep
    exact ⟨ht', hsame.trans ht.2⟩
  · obtain ⟨ht', hsame⟩ := ht.1.deleteRows hstep
    exact ⟨ht', hsame.trans ht.2⟩
  · obtain ⟨ht', hsame⟩ := ht.1.pushRow (hrows row (mem_append_right _ hrow)) hstep
    exact ⟨ht', hsame.trans ht.2⟩

end Change

end Constraint
end PostgresRs
