import PostgresRs.Constraint.Plans

/-!
# Tables with the same rows

What most changes of a table's columns, indexes and constraints have in common.

* `Relation.Alike` — the rows stay, and so do the types of the columns.
* `Relation.Shaped` — positions are those of columns; each change keeps this.
-/

namespace PostgresRs.Constraint

open Storage Exec List

/-- The types of the columns. -/
def Relation.types (r : Relation) : List DataType := r.table.columns.map Column.dataType

/-- The rows and the types of the columns are the same: only names, flags, indexes and constraints
are different. -/
structure Relation.Alike (r r' : Relation) : Prop where
  rows : r'.table.rows = r.table.rows
  types : r'.types = r.types

variable {eval : EvalExpr} {idx : Index}

namespace Relation.Alike

variable {r r' r'' : Relation}

theorem refl (r : Relation) : r.Alike r := ⟨rfl, rfl⟩

theorem trans (h : r.Alike r') (h' : r'.Alike r'') : r.Alike r'' :=
  ⟨h'.rows.trans h.rows, h'.types.trans h.types⟩

theorem length_columns (h : r.Alike r') : r'.table.columns.length = r.table.columns.length := by
  have hlength := congrArg List.length h.types
  rwa [Relation.types, Relation.types, length_map, length_map] at hlength

theorem map_modify {α β : Type} {f : α → α} {g : α → β} (hf : ∀ a, g (f a) = g a) (l : List α)
    (i : Nat) : (l.modify i f).map g = l.map g := by
  refine ext_getElem? fun j => ?_
  rw [getElem?_map, getElem?_modify, getElem?_map]
  rcases l[j]? with _ | a
  · rfl
  · by_cases hi : i = j <;> simp [hi, hf]

/-- A change of one column that leaves its type. -/
theorem setColumn (r : Relation) (column : Nat) {f : Column → Column}
    (htype : ∀ c, (f c).dataType = c.dataType) : r.Alike (r.setColumn column f) :=
  ⟨rfl, map_modify htype ..⟩

theorem setInfo (r : Relation) (idx : Nat) (f : ColumnInfo → ColumnInfo) :
    r.Alike (r.setInfo idx f) := ⟨rfl, rfl⟩

theorem setPrimaryKey (r : Relation) (column : Nat) (primaryKey : Bool) :
    r.Alike (r.setPrimaryKey column primaryKey) := by
  cases primaryKey with
  | false => exact setInfo r column _
  | true => exact (setInfo r column _).trans (setColumn _ column fun _ => rfl)

/-- Another index. -/
theorem addAndPopulateIndex {t : Table} (h : r.table.addAndPopulateIndex eval idx = .ok t) :
    r.Alike { r with table := t } := by
  obtain ⟨keys, -, rfl⟩ := Table.addAndPopulateIndex_eq_ok h
  exact ⟨rfl, rfl⟩

end Relation.Alike

variable {column : Nat}

namespace Relation.Shaped

variable {r r' : Relation}

variable (h : r.Shaped)
include h

/-- Other rows, indexes and properties of the columns. -/
theorem withTable {t : Table} (hfits : t.Fits r.table.columns.length)
    (hcolumns : t.columns.length = r.table.columns.length) : { r with table := t }.Shaped where
  fits := hcolumns.symm ▸ hfits
  uniques := hcolumns.symm ▸ h.uniques

theorem setColumn (idx : Nat) (f : Column → Column) : (r.setColumn idx f).Shaped :=
  h.withTable ⟨h.fits.rows, h.fits.indexes⟩ (length_modify ..)

theorem setInfo (idx : Nat) (f : ColumnInfo → ColumnInfo) : (r.setInfo idx f).Shaped :=
  { h with }

theorem setPrimaryKey (column : Nat) (primaryKey : Bool) :
    (r.setPrimaryKey column primaryKey).Shaped := by
  cases primaryKey with
  | true => exact (h.setInfo column _).setColumn column _
  | false => exact h.setInfo column _

theorem addAndPopulateIndex {t : Table} (hidx : ∀ c ∈ idx.columns, c < r.table.columns.length)
    (ha : ofStorage (r.table.addAndPopulateIndex eval idx) = .ok t) :
    { r with table := t }.Shaped ∧ r.Alike { r with table := t } := by
  obtain ⟨hfits, hcolumns⟩ := h.fits.addAndPopulateIndex hidx (ofStorage_eq_ok ha)
  exact ⟨h.withTable hfits (congrArg List.length hcolumns),
    .addAndPopulateIndex (ofStorage_eq_ok ha)⟩

theorem createIndex {name : String} (hcolumn : column < r.table.columns.length)
    (hc : r.createIndex eval name column = .ok r') : r'.Shaped ∧ r.Alike r' := by
  obtain ⟨t, ht, hc⟩ := of_bind_eq_ok hc
  cases hc
  exact h.addAndPopulateIndex (by simpa [Index.new, Index.newMulti] using hcolumn) ht

theorem addColumn (column : FullColumn) (fill : Nat → Value) :
    (r.addColumn column fill).Shaped := by
  have hlength : (r.addColumn column fill).table.columns.length = r.table.columns.length + 1 :=
    length_append
  refine ⟨hlength ▸ h.fits.addColumn column.toColumn fill, fun k hk c hc => ?_⟩
  rw [hlength]
  exact (h.uniques k hk c hc).trans (Nat.lt_succ_self _)

theorem dropColumn {idx : Nat} (hidx : idx < r.table.columns.length)
    (hd : r.dropColumn idx = .ok r') :
    r'.Shaped ∧ r'.table.columns = r.table.columns.eraseIdx idx := by
  obtain ⟨t, ht, hd⟩ := of_bind_eq_ok hd
  cases hd
  obtain ⟨hfits, hcolumns⟩ := h.fits.dropColumn hidx (ofStorage_eq_ok ht)
  have hlength : t.columns.length = r.table.columns.length - 1 := by
    rw [hcolumns, length_eraseIdx_of_lt hidx]
  refine ⟨⟨hlength.symm ▸ hfits, fun k hk c' hc' => ?_⟩, hcolumns⟩
  obtain ⟨k', hk', rfl⟩ := mem_map.mp hk
  obtain ⟨hk', hkept⟩ := mem_filter.mp hk'
  obtain ⟨c, hc, rfl⟩ := mem_map.mp hc'
  rw [hlength]
  refine Table.Fits.shiftColumn_lt hidx (h.uniques k' hk' c hc) fun heq => ?_
  subst heq
  simp [hc] at hkept

theorem addUniqueConstraint (name : String) {columns : List Nat}
    (hcolumns : ∀ c ∈ columns, c < r.table.columns.length) (primaryKey : Bool) :
    (r.addUniqueConstraint name columns primaryKey).Shaped ∧
      r.Alike (r.addUniqueConstraint name columns primaryKey) := by
  have hadd : ∀ {r' : Relation}, r'.Shaped → r.Alike r' → ({ r' with
      uniqueConstraints := r'.uniqueConstraints ++ [⟨name, columns⟩] } : Relation).Shaped ∧ r.Alike
      { r' with uniqueConstraints := r'.uniqueConstraints ++ [⟨name, columns⟩] } := by
    intro r' hr' halike
    refine ⟨{ hr' with uniques := fun k hk => ?_ },
      halike.trans ⟨rfl, rfl⟩⟩
    rcases mem_append.mp hk with hk | hk
    · exact hr'.uniques k hk
    · rw [mem_singleton.mp hk]
      exact fun c hc => halike.length_columns.symm ▸ hcolumns c hc
  cases primaryKey with
  | true =>
    obtain ⟨hshaped, halike⟩ := foldlRecOn (motive := fun r' => r'.Shaped ∧ r.Alike r') columns
      (fun r c => r.setPrimaryKey c true) ⟨h, .refl r⟩ fun r' hr c _ =>
        ⟨hr.1.setPrimaryKey c true, hr.2.trans (.setPrimaryKey r' c true)⟩
    exact hadd hshaped halike
  | false => exact hadd h (.refl r)

end Relation.Shaped

variable {t : Table} {name : String}

theorem columnIndex_lt {i : Nat} (h : t.columnIndex name = some i) :
    i < t.columns.length := (findIdx?_eq_some_iff_getElem.mp h).1

end PostgresRs.Constraint
