import PostgresRs.Storage.Table
import Mathlib.Data.List.Flatten

/-!
# Values out of line

A reader of a table sees its rows with all values in line: `Table.view` pairs each row's id with that
row.  This file says what the operations do to the view.  On a table that is `Sound` (no two cells
point to the same value, and ids are only given out once) `pushRow` appends a row to the view,
`updateRow` replaces one, `deleteRows` leaves some, and so on, as if all values were kept in line.
All this is so if no text that is stored reads as a pointer.
-/

namespace PostgresRs.Storage

open List Nat

/-- The ids of the values out of line that a row points to. -/
def pointers (row : List Value) : List Nat := row.filterMap toastIdOf

/-- No cell reads as a pointer. -/
def PointerFree (row : List Value) : Prop := ∀ v ∈ row, toastIdOf v = none

instance (row : List Value) : Decidable (PointerFree row) :=
  inferInstanceAs (Decidable (∀ v ∈ row, toastIdOf v = none))

theorem parseU64_toDigits {id : Nat} (h : id < 2 ^ 64) : parseU64 (Nat.toDigits 10 id) = some id := by
  have hdigit : ∀ c ∈ Nat.toDigits 10 id, c.isDigit = true := fun c hc =>
    isDigit_of_mem_toDigits (by decide : 0 < 10) le_rfl hc
  have hhead : (Nat.toDigits 10 id).head? ≠ some '+' := fun hplus => by
    have := hdigit '+' (mem_of_head? hplus)
    contradiction
  rw [parseU64, if_neg hhead]
  dsimp only
  rw [if_pos ⟨toDigits_ne_nil, all_eq_true.mpr hdigit⟩, ofDigitChars_ten_toDigits,
    if_pos h]

/-- A pointer is read back. -/
theorem toastIdOf_toastPointer {id : Nat} (h : id < 2 ^ 64) :
    toastIdOf (.text (toastPointer id)) = some id := by
  have hpre : ∀ p l : List Char, (p ++ l).dropPrefix? p = some l := fun _ _ =>
    dropPrefix?_eq_some_iff.mpr ⟨_, rfl, beq_self_eq_true _⟩
  have hsuf : (Nat.toDigits 10 id ++ toastSuffix).dropSuffix? toastSuffix =
      some (Nat.toDigits 10 id) :=
    dropSuffix?_eq_some_iff.mpr ⟨_, rfl, beq_self_eq_true _⟩
  rw [toastIdOf, toastPointer, String.toList_ofList, hpre, Option.bind_some, hsuf, Option.bind_some,
    parseU64_toDigits h]

section KeepAt

variable {α β : Type} (p : Nat → Bool) (l : List α)

theorem keepAt_sublist : (keepAt p l).Sublist l := by
  have h := (filter_sublist (p := fun e : α × Nat => p e.2) (l := l.zipIdx)).map Prod.fst
  rwa [zipIdx_map_fst] at h

/-- The elements at some positions and those at the others are all elements. -/
theorem keepAt_append_perm : (keepAt p l ++ keepAt (!p ·) l).Perm l := by
  have h := (filter_append_perm (fun e : α × Nat => p e.2) l.zipIdx).map Prod.fst
  rwa [zipIdx_map_fst, map_append] at h

theorem keepAt_true : keepAt (fun _ => true) l = l := by
  rw [keepAt, filter_true, zipIdx_map_fst]

theorem keepAt_map (f : α → β) : keepAt p (l.map f) = (keepAt p l).map f := by
  rw [keepAt, keepAt, zipIdx_map, filter_map, map_map, map_map]
  rfl

end KeepAt

namespace Table

variable {eval : EvalExpr} {t t' t₁ t₂ : Table} {row row' : List Value} {id : RowId} {pos : Nat}

/-! ## Moving values out of line -/

theorem detoastRow_congr (h : ∀ i ∈ pointers row, t'.toast.lookup i = t.toast.lookup i) :
    t'.detoastRow row = t.detoastRow row := by
  refine map_congr_left fun v hv => ?_
  rw [detoastValue, detoastValue]
  cases hi : toastIdOf v with
  | none => rfl
  | some i =>
    dsimp only
    rw [h i (mem_filterMap.mpr ⟨v, hv, hi⟩)]

/-- `t'` and `row'` come from `t` and `row` by moving values out of line. -/
structure Toasted (t t' : Table) (row row' : List Value) : Prop where
  mono : t.nextToastId ≤ t'.nextToastId
  old : ∀ i < t.nextToastId, t'.toast.lookup i = t.toast.lookup i
  nodup : (pointers row').Nodup
  new : ∀ i ∈ pointers row', t.nextToastId ≤ i ∧ i < t'.nextToastId
  detoast : t'.detoastRow row' = row

variable {cell cell' : Value}

namespace Toasted

theorem of_pointerFree (h : PointerFree row) : Toasted t t row row where
  mono := le_rfl
  old _ _ := rfl
  nodup := by
    rw [pointers, filterMap_eq_nil_iff.mpr h]
    exact .nil
  new i hi := by
    rw [pointers, filterMap_eq_nil_iff.mpr h] at hi
    cases hi
  detoast := by
    refine (map_congr_left fun v hv => ?_).trans row.map_id
    rw [detoastValue, h v hv]
    rfl

theorem cons (h₁ : Toasted t t₁ [cell] [cell']) (h₂ : Toasted t₁ t₂ row row') :
    Toasted t t₂ (cell :: row) (cell' :: row') := by
  have hsplit : pointers (cell' :: row') = pointers [cell'] ++ pointers row' :=
    filterMap_append (l := [cell'])
  refine ⟨h₁.mono.trans h₂.mono, ?_, ?_, ?_, ?_⟩
  · intro i hi
    rw [h₂.old i (hi.trans_le h₁.mono), h₁.old i hi]
  · rw [hsplit]
    -- What the first cell points to is older than what the others do.
    refine h₁.nodup.append h₂.nodup fun i hi hi' => ?_
    have := (h₁.new i hi).2
    have := (h₂.new i hi').1
    omega
  · intro i hi
    rw [hsplit] at hi
    rcases mem_append.mp hi with hi | hi
    · exact ⟨(h₁.new i hi).1, (h₁.new i hi).2.trans_le h₂.mono⟩
    · exact ⟨h₁.mono.trans (h₂.new i hi).1, (h₂.new i hi).2⟩
  · have hcell : t₂.detoastRow [cell'] = [cell] := by
      rw [detoastRow_congr fun i hi => h₂.old i (h₁.new i hi).2, h₁.detoast]
    have hrow := h₂.detoast
    rw [detoastRow] at hcell hrow ⊢
    rw [map_cons, singleton_inj.mp hcell, hrow]

end Toasted

/-- A cell stays as it is, or it is a text that does not start like a pointer and moves out of line. -/
theorem toastCell_cases (h : t.toastCell cell = .ok (t', cell')) :
    t' = t ∧ cell' = cell ∨ ∃ s, cell = .text s ∧ toastPrefix.isPrefixOf s.toList = false ∧
      t.nextToastId < 2 ^ 64 ∧ cell' = .text (toastPointer t.nextToastId) ∧
      t' = { t with
        nextToastId := t.nextToastId + 1, toast := t.toast.insert t.nextToastId s } := by
  rw [toastCell.eq_def] at h
  split at h
  · split_ifs at h with hpre hsize hid
    · exact .inl (by cases h; exact ⟨rfl, rfl⟩)
    · exact .inl (by cases h; exact ⟨rfl, rfl⟩)
    · cases h
      exact .inr ⟨_, rfl, Bool.eq_false_iff.mpr hpre, by omega, rfl, rfl⟩
  · exact .inl (by cases h; exact ⟨rfl, rfl⟩)

theorem toastCell_eq_ok (h : t.toastCell cell = .ok (t', cell')) (hcell : toastIdOf cell = none) :
    Toasted t t' [cell] [cell'] := by
  obtain ⟨ht, hsame⟩ | ⟨s, rfl, -, hlt, rfl, rfl⟩ := toastCell_cases h
  · rw [ht, hsame]
    exact .of_pointerFree (forall_mem_singleton.mpr hcell)
  · have hid : toastIdOf (.text (toastPointer t.nextToastId)) = some t.nextToastId :=
      toastIdOf_toastPointer hlt
    have hptr : pointers [Value.text (toastPointer t.nextToastId)] = [t.nextToastId] := by
      rw [pointers, filterMap_cons_some hid]
      rfl
    refine ⟨le_succ _, ?_, ?_, ?_, ?_⟩
    · intro i hi
      exact AList.lookup_insert_ne hi.ne
    · rw [hptr]
      exact nodup_singleton _
    · intro i hi
      rw [hptr, mem_singleton] at hi
      exact ⟨hi.ge, hi ▸ lt_succ_self _⟩
    · rw [detoastRow, map_singleton, detoastValue, hid]
      dsimp only
      rw [AList.lookup_insert]
      rfl

section

variable (h : t.toastRow row = .ok (t', row'))
include h

/-- The induction over a row, one cell after another. -/
theorem toastRow_induction {P : Table → List Value → Table → List Value → Prop} (hnil : ∀ t, P t [] t [])
    (hcons : ∀ {t t₁ t₂ cell cell' row row'}, t.toastCell cell = .ok (t₁, cell') →
      P t₁ row t₂ row' → P t (cell :: row) t₂ (cell' :: row')) : P t row t' row' := by
  induction row generalizing t row' with
  | nil =>
    cases h
    exact hnil _
  | cons cell row ih =>
    obtain ⟨⟨t₁, cell'⟩, hcell, h⟩ := of_bind_eq_ok h
    obtain ⟨⟨t₂, rest'⟩, hrest, h⟩ := of_bind_eq_ok h
    cases h
    exact hcons hcell (ih hrest)

theorem toastRow_eq_ok (hrow : PointerFree row) : Toasted t t' row row' := by
  refine toastRow_induction (P := fun t row t' row' => PointerFree row → Toasted t t' row row') h
    (fun _ => .of_pointerFree) (fun hcell ih hrow => ?_) hrow
  rw [PointerFree, forall_mem_cons] at hrow
  exact (toastCell_eq_ok hcell hrow.1).cons (ih hrow.2)

/-- Moving values out of line changes nothing else. -/
theorem toastRow_frame : t' = { t with toast := t'.toast, nextToastId := t'.nextToastId } := by
  refine toastRow_induction (P := fun t _ t' _ =>
    t' = { t with toast := t'.toast, nextToastId := t'.nextToastId }) h (fun _ => rfl)
    fun hcell ih => ?_
  obtain ⟨rfl, -⟩ | ⟨s, -, -, -, -, rfl⟩ := toastCell_cases hcell
  · exact ih
  · exact ih

end

/-- What a freed row does not point to stays. -/
theorem lookup_untoastRow (i : Nat) : (t.untoastRow row).toast.lookup i =
    if i ∈ pointers row then none else t.toast.lookup i := by
  have hfold : ∀ (ids : List Nat) (m : AList fun _ : Nat => String),
      (ids.foldl (fun m id => m.erase id) m).lookup i = if i ∈ ids then none else m.lookup i := by
    intro ids
    induction ids with
    | nil => exact fun m => rfl
    | cons id ids ih =>
      intro m
      rw [foldl_cons, ih]
      rcases eq_or_ne i id with rfl | hne
      · rw [AList.lookup_erase, ite_self, if_pos (.head _)]
      · simp only [AList.lookup_erase_ne hne, mem_cons, hne, false_or]
  exact hfold _ _

/-! ## The view of a table -/

/-- The stored rows with their ids. -/
def entries (t : Table) : List (List Value × RowId) := t.rows.zip t.rowIds

/-- The rows by id, with all values in line. -/
def view (t : Table) : List (RowId × List Value) :=
  t.entries.map fun e => (e.2, t.detoastRow e.1)

theorem view_getElem?_eq_some {e : RowId × List Value} : t.view[pos]? = some e ↔
    ∃ stored, t.rows[pos]? = some stored ∧ t.rowIds[pos]? = some e.1 ∧
      t.detoastRow stored = e.2 := by
  rw [view, getElem?_map, Option.map_eq_some_iff]
  constructor
  · rintro ⟨⟨stored, id⟩, hget, rfl⟩
    obtain ⟨hrow, hid⟩ := getElem?_zip_eq_some.mp hget
    exact ⟨stored, hrow, hid, rfl⟩
  · rintro ⟨stored, hrow, hid, hdetoast⟩
    exact ⟨(stored, e.1), getElem?_zip_eq_some.mpr ⟨hrow, hid⟩, Prod.ext rfl hdetoast⟩

/-- Row ids and ids of values out of line are given out once. -/
structure Sound (t : Table) : Prop where
  length : t.rows.length = t.rowIds.length
  nodup : t.rowIds.Nodup
  fresh : ∀ id ∈ t.rowIds, id < t.nextRowId
  pointersNodup : (t.rows.flatMap pointers).Nodup
  pointersFresh : ∀ i ∈ t.rows.flatMap pointers, i < t.nextToastId

theorem sound_new (name : String) (columns : List Column) (indexes : List Index) :
    { new name columns with indexes }.Sound :=
  ⟨rfl, .nil, by simp [new], .nil, by simp [new]⟩

namespace Sound

variable (h : t.Sound)
include h

theorem map_fst_entries : t.entries.map Prod.fst = t.rows :=
  map_fst_zip h.length.le

theorem map_snd_entries : t.entries.map Prod.snd = t.rowIds :=
  map_snd_zip h.length.ge

theorem map_fst_view : t.view.map Prod.fst = t.rowIds := by
  rw [view, map_map]
  exact h.map_snd_entries

/-- A table with some of the rows of a sound one, or some of their cells. -/
theorem of_sublist (hlen : t'.rows.length = t'.rowIds.length) (hids : t'.rowIds.Sublist t.rowIds)
    (hptrs : (t'.rows.flatMap pointers).Sublist (t.rows.flatMap pointers))
    (hnext : t'.nextRowId = t.nextRowId) (htoast : t'.nextToastId = t.nextToastId) : t'.Sound where
  length := hlen
  nodup := h.nodup.sublist hids
  fresh id hid := by
    rw [hnext]
    exact h.fresh id (hids.subset hid)
  pointersNodup := h.pointersNodup.sublist hptrs
  pointersFresh i hi := by
    rw [htoast]
    exact h.pointersFresh i (hptrs.subset hi)

/-- Two rows of a sound table point to different values. -/
theorem disjoint_pointers {es es' : List (List Value × RowId)}
    (hperm : (es ++ es').Perm t.entries) :
    (es.flatMap fun e => pointers e.1).Disjoint (es'.flatMap fun e => pointers e.1) := by
  have hnodup := h.pointersNodup
  rw [← h.map_fst_entries, flatMap_map,
    ← (hperm.flatMap_right fun e => pointers e.1).nodup_iff, flatMap_append] at hnodup
  exact disjoint_of_nodup_append hnodup

end Sound

/-! ## Operations on the view -/

/-- The indexes after a row with the given keys was put in. -/
def insertKeys (indexes : List Index) (keys : List (Option (List Value))) (id : RowId) : List Index :=
  indexes.zipWith (fun idx key => key.elim idx (idx.insert · id)) keys

/-- The indexes after a row with the given keys was taken out. -/
def removeKeys (indexes : List Index) (keys : List (Option (List Value))) (id : RowId) : List Index :=
  indexes.zipWith (fun idx key => key.elim idx (idx.remove · id)) keys

theorem indexRow_eq_ok (h : t.indexRow eval row id = .ok t') : ∃ keys,
    t.indexes.mapM (t.entryKey eval · row) = .ok keys ∧
      t' = { t with indexes := insertKeys t.indexes keys id } := by
  obtain ⟨keys, hkeys, h⟩ := of_bind_eq_ok h
  cases h
  exact ⟨keys, hkeys, rfl⟩

theorem unindexRow_eq_ok (h : t.unindexRow eval row id = .ok t') : ∃ keys,
    t.indexes.mapM (t.entryKey eval · row) = .ok keys ∧
      t' = { t with indexes := removeKeys t.indexes keys id } := by
  obtain ⟨keys, hkeys, h⟩ := of_bind_eq_ok h
  cases h
  exact ⟨keys, hkeys, rfl⟩

section

variable (h : t.pushRow eval row = .ok t')
include h

/-- All that `pushRow` does: `row'` is what is stored for `row`. -/
theorem pushRow_cases : ∃ keys t₁ toast next row',
    t.indexes.mapM (t.entryKey eval · row) = .ok keys ∧ t₁ = { t with
      nextRowId := t.nextRowId + 1, indexes := insertKeys t.indexes keys t.nextRowId } ∧
    t₁.toastRow row = .ok ({ t₁ with toast := toast, nextToastId := next }, row') ∧ t' = { t₁ with
      toast := toast, nextToastId := next, rows := t.rows ++ [row'],
      rowIds := t.rowIds ++ [t.nextRowId],
      rowPos := t.rowPos.insert t.nextRowId t.rows.length } := by
  rw [pushRow] at h
  split at h
  · cases h
  obtain ⟨t₁, ht₁, h⟩ := of_bind_eq_ok h
  obtain ⟨⟨t₂, row'⟩, ht₂, h⟩ := of_bind_eq_ok h
  obtain ⟨keys, hkeys, rfl⟩ := indexRow_eq_ok ht₁
  have hframe := toastRow_frame ht₂
  generalize t₂.toast = toast, t₂.nextToastId = next at hframe
  subst hframe
  exact ⟨keys, _, toast, next, row', hkeys, rfl, ht₂, (Except.ok.inj h).symm⟩

/-- What `pushRow` does to a row without pointers. -/
theorem pushRow_eq_ok (hrow : PointerFree row) : ∃ keys row',
    t.indexes.mapM (t.entryKey eval · row) = .ok keys ∧ Toasted t t' row row' ∧
    t'.columns = t.columns ∧ t'.rows = t.rows ++ [row'] ∧ t'.rowIds = t.rowIds ++ [t.nextRowId] ∧
    t'.nextRowId = t.nextRowId + 1 ∧ t'.indexes = insertKeys t.indexes keys t.nextRowId := by
  obtain ⟨keys, _, toast, next, row', hkeys, rfl, hstored, rfl⟩ := pushRow_cases h
  obtain ⟨hmono, hold, hnodup, hnew, hdetoast⟩ := toastRow_eq_ok hstored hrow
  exact ⟨keys, row', hkeys, ⟨hmono, hold, hnodup, hnew, hdetoast⟩, rfl, rfl, rfl, rfl, rfl⟩

theorem pushRow_name : t'.name = t.name := by
  obtain ⟨_, _, _, _, _, -, rfl, -, rfl⟩ := pushRow_cases h
  rfl

/-- **Appending a row** appends it to the view. -/
theorem Sound.pushRow (hs : t.Sound) (hrow : PointerFree row) :
    t'.Sound ∧ t'.view = t.view ++ [(t.nextRowId, row)] := by
  obtain ⟨keys, row', -, htoast, -, hrows, hids, hnext, -⟩ := pushRow_eq_ok h hrow
  have hptrs : t'.rows.flatMap pointers = t.rows.flatMap pointers ++ pointers row' := by
    rw [hrows, flatMap_append, flatMap_singleton]
  refine ⟨⟨?_, ?_, ?_, ?_, ?_⟩, ?_⟩
  · rw [hrows, hids, length_append, length_append, hs.length]
    rfl
  · rw [hids]
    refine hs.nodup.append (nodup_singleton _) fun id hid hnew => ?_
    exact (hs.fresh id hid).ne (mem_singleton.mp hnew)
  · intro id hid
    rw [hids, mem_append, mem_singleton] at hid
    rw [hnext]
    rcases hid with hid | rfl
    · exact (hs.fresh id hid).trans (lt_succ_self _)
    · exact lt_succ_self _
  · rw [hptrs]
    -- What the new row points to is newer than what the others do.
    refine hs.pointersNodup.append htoast.nodup fun i hi hnew => ?_
    exact (hs.pointersFresh i hi).not_ge (htoast.new i hnew).1
  · intro i hi
    rw [hptrs, mem_append] at hi
    rcases hi with hi | hi
    · exact (hs.pointersFresh i hi).trans_le htoast.mono
    · exact (htoast.new i hi).2
  · rw [view, entries, hrows, hids, zip_append hs.length, map_append]
    congr 1
    · refine map_congr_left fun e he => congrArg (Prod.mk e.2) (detoastRow_congr fun i hi => ?_)
      exact htoast.old i (hs.pointersFresh i (mem_flatMap.mpr ⟨_, (of_mem_zip he).1, hi⟩))
    · exact congrArg (fun r => [(t.nextRowId, r)]) htoast.detoast

end

/-- All rows in order, with all values in line. -/
def detoasted (t : Table) : List (List Value) := t.rows.map t.detoastRow

theorem map_snd_view (h : t.rows.length = t.rowIds.length) : t.view.map Prod.snd = t.detoasted := by
  conv_rhs => rw [detoasted, ← map_fst_zip h.le, map_map]
  exact map_map

/-- A row is moved out of line as long as there are ids. -/
theorem exists_toastRow (h : t.nextToastId + row.length < 2 ^ 64) :
    ∃ t' row', t.toastRow row = .ok (t', row') ∧ t'.nextToastId ≤ t.nextToastId + row.length := by
  induction row generalizing t with
  | nil => exact ⟨t, [], rfl, le_rfl⟩
  | cons cell row ih =>
    rw [length_cons] at h
    obtain ⟨t₁, cell', hcell, hnext⟩ : ∃ t₁ cell', t.toastCell cell = .ok (t₁, cell') ∧
        t₁.nextToastId ≤ t.nextToastId + 1 := by
      cases cell with
      | text s =>
        rw [toastCell]
        split
        · exact ⟨t, _, rfl, le_succ _⟩
        · split
          · exact ⟨t, _, rfl, le_succ _⟩
          · rw [if_neg (by omega)]
            exact ⟨_, _, rfl, le_rfl⟩
      | _ => exact ⟨t, _, rfl, le_succ _⟩
    obtain ⟨t', row', hrow, hle⟩ := ih (t := t₁) (by omega)
    refine ⟨t', cell' :: row', ?_, ?_⟩
    · rw [toastRow, hcell]
      show (t₁.toastRow row >>= _) = _
      rw [hrow]
      rfl
    · rw [length_cons]
      omega

/-- A row is pushed to a table without indexes as long as there are ids. -/
theorem exists_pushRow (eval : EvalExpr) (row : List Value) (hidx : t.indexes = [])
    (hid : t.nextRowId + 1 < 2 ^ 64) (htoast : t.nextToastId + row.length < 2 ^ 64) :
    ∃ t', t.pushRow eval row = .ok t' ∧ t'.name = t.name ∧ t'.indexes = [] ∧
      t'.nextToastId ≤ t.nextToastId + row.length := by
  obtain ⟨t₂, row', hrow, hnext⟩ := exists_toastRow
    (show { t with nextRowId := t.nextRowId + 1 }.nextToastId + row.length < 2 ^ 64 from htoast)
  have hframe := toastRow_frame hrow
  have hindex : ({ t with nextRowId := t.nextRowId + 1 } : Table).indexRow eval row t.nextRowId =
      .ok { t with nextRowId := t.nextRowId + 1 } := by
    rw [hidx]
    show Except.ok { t with nextRowId := t.nextRowId + 1, indexes := [] } = _
    rw [← hidx]
  rw [pushRow, if_neg (Nat.not_le_of_lt hid)]
  show ∃ t', (indexRow eval _ row t.nextRowId >>= _) = _ ∧ _
  rw [hindex]
  show ∃ t', (toastRow _ row >>= _) = _ ∧ _
  rw [hrow]
  refine ⟨_, rfl, ?_, ?_, hnext⟩
  · rw [hframe]
  · rw [hframe]
    exact hidx

/-- **Rows that are pushed** are there in their order. -/
theorem exists_pushRows (eval : EvalExpr) {rows : List (List Value)}
    (hfree : ∀ row ∈ rows, PointerFree row) (hs : t.Sound) (hidx : t.indexes = [])
    (hid : t.nextRowId + rows.length < 2 ^ 64)
    (htoast : t.nextToastId + (rows.map List.length).sum < 2 ^ 64) :
    ∃ t', rows.foldlM (fun t row => t.pushRow eval row) t = .ok t' ∧ t'.Sound ∧ t'.name = t.name ∧
      t'.columns = t.columns ∧ t'.detoasted = t.detoasted ++ rows := by
  induction rows generalizing t with
  | nil => exact ⟨t, rfl, hs, rfl, rfl, (append_nil _).symm⟩
  | cons row rows ih =>
    obtain ⟨hrow, hrows⟩ := forall_mem_cons.mp hfree
    rw [map_cons, sum_cons] at htoast
    obtain ⟨t₁, ht₁, hname, hidx₁, hnext⟩ :=
      exists_pushRow eval row hidx ((Nat.add_le_add_left (Nat.le_add_left 1 _) _).trans_lt hid)
        (by omega)
    obtain ⟨hs₁, hview⟩ := hs.pushRow ht₁ hrow
    obtain ⟨-, -, -, -, hcolumns, -, -, hnextId, -⟩ := pushRow_eq_ok ht₁ hrow
    obtain ⟨t', ht', hs', hname', hcolumns', hdetoasted⟩ :=
      ih hrows hs₁ hidx₁ (by rwa [hnextId, Nat.add_assoc, Nat.add_comm 1]) (by omega)
    refine ⟨t', ?_, hs', hname'.trans hname, hcolumns'.trans hcolumns, ?_⟩
    · rw [foldlM_cons, ht₁]
      exact ht'
    · rw [hdetoasted, ← map_snd_view hs₁.length, hview, map_append, map_snd_view hs.length, append_assoc]
      rfl

section

variable (h : t.updateRow eval pos row = .ok t')
include h

/-- All that `updateRow` does: `stored` is what was stored before, and `row'` what is stored now. -/
theorem updateRow_cases : ∃ id stored keys₁ keys₂ t₁ toast next row',
      t.rowIds[pos]? = some id ∧ t.rows[pos]? = some stored ∧
      t.indexes.mapM (t.entryKey eval · (t.detoastRow stored)) = .ok keys₁ ∧
      (removeKeys t.indexes keys₁ id).mapM (t.entryKey eval · row) = .ok keys₂ ∧
      t₁ = { t.untoastRow stored with
        indexes := insertKeys (removeKeys t.indexes keys₁ id) keys₂ id } ∧
      t₁.toastRow row = .ok ({ t₁ with toast := toast, nextToastId := next }, row') ∧
      t' = { t₁ with toast := toast, nextToastId := next, rows := t.rows.set pos row' } := by
  rw [updateRow] at h
  split at h
  · next id stored hid hstored =>
    obtain ⟨t₁, ht₁, h⟩ := of_bind_eq_ok h
    obtain ⟨t₂, ht₂, h⟩ := of_bind_eq_ok h
    obtain ⟨⟨t₃, row'⟩, ht₃, h⟩ := of_bind_eq_ok h
    obtain ⟨keys₁, hkeys₁, rfl⟩ := unindexRow_eq_ok ht₁
    obtain ⟨keys₂, hkeys₂, rfl⟩ := indexRow_eq_ok ht₂
    have hframe := toastRow_frame ht₃
    generalize t₃.toast = toast, t₃.nextToastId = next at hframe
    subst hframe
    exact ⟨id, stored, keys₁, keys₂, _, toast, next, row', hid, hstored, hkeys₁, hkeys₂, rfl, ht₃,
      (Except.ok.inj h).symm⟩
  · cases h

/-- What `updateRow` does with a row without pointers. -/
theorem updateRow_eq_ok (hrow : PointerFree row) :
    ∃ id stored row' keys₁ keys₂, t.rowIds[pos]? = some id ∧ t.rows[pos]? = some stored ∧
      t.indexes.mapM (t.entryKey eval · (t.detoastRow stored)) = .ok keys₁ ∧
      (removeKeys t.indexes keys₁ id).mapM (t.entryKey eval · row) = .ok keys₂ ∧
      Toasted (t.untoastRow stored) t' row row' ∧
      t'.columns = t.columns ∧ t'.rows = t.rows.set pos row' ∧ t'.rowIds = t.rowIds ∧
      t'.nextRowId = t.nextRowId ∧
      t'.indexes = insertKeys (removeKeys t.indexes keys₁ id) keys₂ id := by
  obtain ⟨id, stored, keys₁, keys₂, _, toast, next, row', hid, hget, hkeys₁, hkeys₂, rfl, hstored,
    rfl⟩ := updateRow_cases h
  obtain ⟨hmono, hold, hnodup, hnew, hdetoast⟩ := toastRow_eq_ok hstored hrow
  exact ⟨id, stored, row', keys₁, keys₂, hid, hget, hkeys₁, hkeys₂,
    ⟨hmono, hold, hnodup, hnew, hdetoast⟩, rfl, rfl, rfl, rfl, rfl⟩

/-- **Replacing a row** replaces it in the view. -/
theorem Sound.updateRow (hs : t.Sound) (hrow : PointerFree row) : t'.Sound ∧
      ∃ id, t.rowIds[pos]? = some id ∧ t'.view = t.view.set pos (id, row) := by
  obtain ⟨id, stored, row', -, -, hid, hstored, -, -, htoast, -, hrows, hids, hnext, -⟩ :=
    updateRow_eq_ok h hrow
  obtain ⟨hpos, hget⟩ := List.getElem?_eq_some_iff.mp hstored
  -- The row that is replaced, and the others.
  have hold : (stored :: t.rows.eraseIdx pos).Perm t.rows :=
    hget ▸ getElem_cons_eraseIdx_perm hpos
  have hnew : (row' :: t.rows.eraseIdx pos).Perm t'.rows := by
    have hset := getElem_cons_eraseIdx_perm (l := t.rows.set pos row') (by simpa using hpos)
    rwa [getElem_set_self, eraseIdx_set_eq, ← hrows] at hset
  have hnodup := (hold.flatMap_right pointers).nodup_iff.mpr hs.pointersNodup
  have hfresh : ∀ i ∈ (t.rows.eraseIdx pos).flatMap pointers, i < t.nextToastId := fun i hi =>
    hs.pointersFresh i ((hold.flatMap_right pointers).subset (mem_append_right _ hi))
  refine ⟨⟨?_, hids ▸ hs.nodup, ?_, ?_, ?_⟩, id, hid, ?_⟩
  · rw [hrows, hids, length_set, hs.length]
  · rw [hids, hnext]
    exact hs.fresh
  · rw [← (hnew.flatMap_right pointers).nodup_iff]
    refine htoast.nodup.append (nodup_append.mp hnodup).2.1 fun i hi hi' => ?_
    exact (hfresh i hi').not_ge (htoast.new i hi).1
  · intro i hi
    rw [← (hnew.flatMap_right pointers).mem_iff, flatMap_cons, mem_append] at hi
    rcases hi with hi | hi
    · exact (htoast.new i hi).2
    · exact (hfresh i hi).trans_le htoast.mono
  · have hlen : pos < t.view.length := by
      rw [view, length_map, entries, length_zip, ← hs.length, min_self]
      exact hpos
    -- What the other rows point to is not freed, and older than what the new one points to.
    have hother : ∀ j stored', j ≠ pos → t.rows[j]? = some stored' →
        t'.detoastRow stored' = t.detoastRow stored' := by
      intro j stored' hj hget'
      refine detoastRow_congr fun i hi => ?_
      have hmem : i ∈ (t.rows.eraseIdx pos).flatMap pointers :=
        mem_flatMap.mpr ⟨stored', mem_eraseIdx_iff_getElem?.mpr ⟨j, hj, hget'⟩, hi⟩
      rw [htoast.old i (hfresh i hmem), lookup_untoastRow,
        if_neg fun hi' => disjoint_of_nodup_append hnodup hi' hmem]
    refine ext_getElem? fun j => Option.ext fun e => ?_
    rw [getElem?_set, view_getElem?_eq_some, hrows, hids, getElem?_set]
    rcases eq_or_ne pos j with rfl | hj
    · rw [if_pos rfl, if_pos rfl, if_pos hpos, if_pos hlen, hid]
      constructor
      · rintro ⟨_, ⟨⟩, ⟨⟩, hdetoast⟩
        exact congrArg some (Prod.ext rfl (htoast.detoast.symm.trans hdetoast))
      · rintro ⟨⟩
        exact ⟨row', rfl, rfl, htoast.detoast⟩
    · rw [if_neg hj, if_neg hj, view_getElem?_eq_some]
      refine exists_congr fun stored' => and_congr_right fun hget' => ?_
      rw [hother j stored' hj.symm hget']

end

theorem dropRow_eq_ok (h : t.dropRow eval row id = .ok t') : ∃ keys,
    t.indexes.mapM (t.entryKey eval · (t.detoastRow row)) = .ok keys ∧
      t' = { t.untoastRow row with indexes := removeKeys t.indexes keys id } := by
  obtain ⟨t₁, ht₁, h⟩ := of_bind_eq_ok h
  obtain ⟨keys, hkeys, rfl⟩ := unindexRow_eq_ok ht₁
  exact ⟨keys, hkeys, (Except.ok.inj h).symm⟩

/-- The tables of the loop of `deleteRows`: rows are taken out of the indexes and their values are
freed, the rest stays. -/
structure Dropping (t t' : Table) (freed : List Nat) : Prop where
  columns : t'.columns = t.columns
  nextRowId : t'.nextRowId = t.nextRowId
  nextToastId : t'.nextToastId = t.nextToastId
  toast : ∀ i, i ∉ freed → t'.toast.lookup i = t.toast.lookup i

theorem Dropping.dropRow {freed : List Nat} (hd : Dropping t t₁ freed) (hfreed : pointers row ⊆ freed)
    (h : t₁.dropRow eval row id = .ok t') : Dropping t t' freed := by
  obtain ⟨keys, -, rfl⟩ := dropRow_eq_ok h
  refine ⟨hd.columns, hd.nextRowId, hd.nextToastId, fun i hi => ?_⟩
  rw [lookup_untoastRow, if_neg fun hi' => hi (hfreed hi'), hd.toast i hi]

theorem dropping_foldlM {dropped : List (List Value × RowId)}
    (h : dropped.foldlM (fun t e => t.dropRow eval e.1 e.2) t = .ok t') :
    Dropping t t' (dropped.flatMap fun e => pointers e.1) := by
  -- The rows still to do are some of all.
  refine (foldlM_induction (P := fun rest s => rest ⊆ dropped ∧
    Dropping t s (dropped.flatMap fun e => pointers e.1)) h ⟨List.Subset.refl _, rfl, rfl, rfl,
      fun _ _ => rfl⟩ ?_).2
  rintro e rest s s' ⟨hsub, hd⟩ hstep
  refine ⟨fun x hx => hsub (.tail _ hx), hd.dropRow (fun i hi => ?_) hstep⟩
  exact mem_flatMap.mpr ⟨e, hsub (.head _), hi⟩

variable {positions : List Nat}

/-- What `deleteRows` does, if there is anything to do. -/
theorem deleteRows_eq_ok (hne : positions ≠ []) (h : t.deleteRows eval positions = .ok t') : ∃ t₁,
      (keepAt positions.contains t.entries).foldlM (fun t e => t.dropRow eval e.1 e.2) t = .ok t₁ ∧
      t'.columns = t₁.columns ∧ t'.toast = t₁.toast ∧ t'.nextRowId = t₁.nextRowId ∧
      t'.nextToastId = t₁.nextToastId ∧ t'.indexes = t₁.indexes ∧
      t'.rows = (keepAt (!positions.contains ·) t.entries).map Prod.fst ∧
      t'.rowIds = (keepAt (!positions.contains ·) t.entries).map Prod.snd := by
  rw [deleteRows, if_neg hne] at h
  split at h
  · cases h
  obtain ⟨t₁, ht₁, h⟩ := of_bind_eq_ok h
  split at h
  · cases h
  cases h
  exact ⟨t₁, ht₁, rfl, rfl, rfl, rfl, rfl, rfl, rfl⟩

/-- **Deleting rows** leaves the others in the view. -/
theorem Sound.deleteRows (hs : t.Sound) (h : t.deleteRows eval positions = .ok t') :
    t'.Sound ∧ t'.view = keepAt (!positions.contains ·) t.view := by
  rcases eq_or_ne positions [] with rfl | hne
  · cases h
    exact ⟨hs, (keepAt_true _).symm⟩
  obtain ⟨t₁, ht₁, -, htoast, hnext, hnextToast, -, hrows, hids⟩ := deleteRows_eq_ok hne h
  have hd := dropping_foldlM ht₁
  have hentries : t'.entries = keepAt (!positions.contains ·) t.entries := by
    rw [entries, hrows, hids]
    exact (zip_of_prod rfl rfl).symm
  refine ⟨hs.of_sublist ?_ ?_ ?_ (hnext.trans hd.nextRowId) (hnextToast.trans hd.nextToastId), ?_⟩
  · rw [hrows, hids, length_map, length_map]
  · rw [hids, ← hs.map_snd_entries]
    exact (keepAt_sublist _ _).map _
  · rw [hrows, ← hs.map_fst_entries, flatMap_map, flatMap_map]
    exact (keepAt_sublist _ _).flatMap _
  · rw [view, hentries, view, keepAt_map]
    refine map_congr_left fun e he => congrArg (Prod.mk e.2) (detoastRow_congr fun i hi => ?_)
    rw [htoast]
    refine hd.toast i fun hi' => ?_
    exact hs.disjoint_pointers (keepAt_append_perm _ _) hi' (mem_flatMap.mpr ⟨e, he, hi⟩)

theorem Sound.truncate (hs : t.Sound) : t.truncate.Sound :=
  hs.of_sublist rfl (nil_sublist _) (nil_sublist _) rfl rfl

theorem addAndPopulateIndex_eq_ok {idx : Index} (h : t.addAndPopulateIndex eval idx = .ok t') :
    ∃ keys, t.entries.mapM (t.populateEntry eval idx) = .ok keys ∧
      t' = { t with indexes := t.indexes ++
        [keys.foldl (fun idx e => e.1.elim idx (idx.insert · e.2)) idx] } := by
  obtain ⟨keys, hkeys, h⟩ := of_bind_eq_ok h
  cases h
  exact ⟨keys, hkeys, rfl⟩

/-- **Adding a column** adds a cell to each row in the view. -/
theorem Sound.addColumn (hs : t.Sound) (column : Column) {fill : Nat → Value}
    (hfill : ∀ pos < t.rows.length, toastIdOf (fill pos) = none) : (t.addColumn column fill).Sound ∧
      (t.addColumn column fill).view = t.view.mapIdx fun pos e => (e.1, e.2 ++ [fill pos]) := by
  have hptr : ∀ pos < t.rows.length, ∀ row, pointers (row ++ [fill pos]) = pointers row := by
    intro pos hpos row
    rw [pointers, filterMap_append, filterMap_cons_none (hfill pos hpos),
      filterMap_nil, append_nil, pointers]
  have hdetoast : ∀ pos < t.rows.length, ∀ old,
      (t.addColumn column fill).detoastRow (old ++ [fill pos]) = t.detoastRow old ++ [fill pos] := by
    intro pos hpos old
    rw [detoastRow, map_append, map_singleton, detoastValue, hfill pos hpos]
    rfl
  refine ⟨hs.of_sublist ?_ (.refl _) ?_ rfl rfl, ?_⟩
  · exact (length_mapIdx).trans hs.length
  · have heq : (t.addColumn column fill).rows.map pointers = t.rows.map pointers := by
      refine ext_getElem? fun j => ?_
      rw [Table.addColumn, getElem?_map, getElem?_mapIdx, Option.map_map,
        getElem?_map]
      refine Option.map_congr fun row hrow => hptr j (List.getElem?_eq_some_iff.mp hrow).1 row
    rw [flatMap_def, heq, ← flatMap_def]
  · refine ext_getElem? fun j => Option.ext fun e => ?_
    rw [view_getElem?_eq_some, getElem?_mapIdx, Option.map_eq_some_iff, Table.addColumn,
      getElem?_mapIdx]
    constructor
    · rintro ⟨stored, hrow, hid, hrest⟩
      obtain ⟨old, hold, rfl⟩ := Option.map_eq_some_iff.mp hrow
      have hj := (List.getElem?_eq_some_iff.mp hold).1
      refine ⟨(e.1, t.detoastRow old), view_getElem?_eq_some.mpr ⟨old, hold, hid, rfl⟩, ?_⟩
      exact Prod.ext rfl ((hdetoast j hj old).symm.trans hrest)
    · rintro ⟨⟨id, row⟩, hview, rfl⟩
      obtain ⟨old, hold, hid, hrest⟩ := view_getElem?_eq_some.mp hview
      have hj := (List.getElem?_eq_some_iff.mp hold).1
      refine ⟨old ++ [fill j], by rw [hold]; rfl, hid, (hdetoast j hj old).trans ?_⟩
      exact congrArg (· ++ [fill j]) hrest

/-- **Dropping a column** takes a cell from each row in the view. -/
theorem Sound.dropColumn (hs : t.Sound) {idx : Nat} (h : t.dropColumn idx = .ok t') : t'.Sound ∧
    t'.view = t.view.map fun e => (e.1, e.2.eraseIdx idx) := by
  rw [Table.dropColumn] at h
  split at h
  · cases h
  cases h
  refine ⟨hs.of_sublist ?_ (.refl _) ?_ rfl rfl, ?_⟩
  · exact (length_map _).trans hs.length
  · rw [flatMap_map]
    exact List.Sublist.flatMap_right _ fun row _ => (eraseIdx_sublist row idx).filterMap _
  · rw [view, entries, view, map_map]
    rw [zip_map_left, map_map]
    refine map_congr_left fun e _ => congrArg (Prod.mk e.2) ?_
    exact (eraseIdx_map ..).symm

/-! ## Values out of line are plain -/

/-- No value out of line reads as a pointer.  So no row that is read does, whatever was put in. -/
def PlainChunks (t : Table) : Prop := ∀ id s, t.toast.lookup id = some s → toastIdOf (.text s) = none

namespace PlainChunks

variable (h : t.PlainChunks)
include h

theorem mono (hsub : ∀ id s, t'.toast.lookup id = some s →
    t.toast.lookup id = some s) : t'.PlainChunks :=
  fun id s hs => h id s (hsub id s hs)

theorem pointerFree_detoastRow (row : List Value) : PointerFree (t.detoastRow row) := by
  intro v hv
  obtain ⟨cell, -, rfl⟩ := mem_map.mp hv
  rw [detoastValue]
  cases hid : toastIdOf cell with
  | none => exact hid
  | some id =>
    show toastIdOf (.text ((t.toast.lookup id).getD "")) = none
    cases hs : t.toast.lookup id with
    | none => decide +kernel
    | some s => exact h id s hs

theorem toastCell (hcell : t.toastCell cell = .ok (t', cell')) : t'.PlainChunks := by
  obtain ⟨rfl, -⟩ | ⟨s, -, hprefix, -, -, rfl⟩ := toastCell_cases hcell
  · exact h
  -- A text that moves out of line does not start like a pointer.
  have hplain : toastIdOf (.text s) = none := by
    have hdrop : s.toList.dropPrefix? toastPrefix = none := by
      cases hd : s.toList.dropPrefix? toastPrefix with
      | none => rfl
      | some rest =>
        obtain ⟨front, hfront, heq⟩ := dropPrefix?_eq_some_iff.mp hd
        refine absurd ?_ (Bool.eq_false_iff.mp hprefix)
        rw [hfront, eq_of_beq heq]
        exact isPrefixOf_iff_prefix.mpr (prefix_append _ _)
    rw [toastIdOf, hdrop]
    rfl
  intro id s' hs'
  rcases eq_or_ne id t.nextToastId with rfl | hne
  · rw [AList.lookup_insert] at hs'
    cases hs'
    exact hplain
  · rw [AList.lookup_insert_ne hne] at hs'
    exact h id s' hs'

theorem toastRow (hrow : t.toastRow row = .ok (t', row')) : t'.PlainChunks :=
  toastRow_induction (P := fun t _ t' _ => t.PlainChunks → t'.PlainChunks) hrow (fun _ h => h)
    (fun hcell ih h => ih (h.toastCell hcell)) h

theorem untoastRow (row : List Value) : (t.untoastRow row).PlainChunks := by
  refine h.mono fun id s hs => ?_
  rw [lookup_untoastRow] at hs
  split at hs
  · cases hs
  · exact hs

theorem dropRow (hd : t.dropRow eval row id = .ok t') : t'.PlainChunks := by
  obtain ⟨keys, -, rfl⟩ := dropRow_eq_ok hd
  exact h.untoastRow row

/-- **No operation** puts a pointer out of line. -/
theorem apply {op : Op} (hop : t.apply eval op = .ok t') : t'.PlainChunks := by
  have hindex : ∀ {idx : Index}, t.addAndPopulateIndex eval idx = .ok t' → t'.PlainChunks := by
    intro idx hidx
    obtain ⟨keys, -, rfl⟩ := addAndPopulateIndex_eq_ok hidx
    exact h
  cases op with
  | pushRow row =>
    obtain ⟨keys, t₁, _, _, _, -, ht₁, hstored, rfl⟩ := pushRow_cases hop
    have h₁ : t₁.PlainChunks := ht₁ ▸ h
    exact (h₁.toastRow hstored).mono fun _ _ hs => hs
  | updateRow pos newRow =>
    obtain ⟨_, stored, _, _, t₁, _, _, _, -, -, -, -, ht₁, hstored, rfl⟩ := updateRow_cases hop
    have h₁ : t₁.PlainChunks := ht₁ ▸ h.untoastRow stored
    exact (h₁.toastRow hstored).mono fun _ _ hs => hs
  | deleteRows positions =>
    rcases eq_or_ne positions [] with rfl | hne
    · cases hop
      exact h
    · obtain ⟨t₁, ht₁, -, htoast, -⟩ := deleteRows_eq_ok hne hop
      have h₁ : t₁.PlainChunks := foldlM_induction (P := fun _ s => s.PlainChunks) ht₁ h
        fun _ _ _ _ hs hstep => hs.dropRow hstep
      exact h₁.mono fun id s hs => htoast ▸ hs
  | truncate =>
    cases hop
    exact fun id s hs => by cases hs
  | createIndex | createIndexFull => exact hindex hop
  | dropIndex | addColumn =>
    cases hop
    exact h
  | dropColumn idx =>
    replace hop : t.dropColumn idx = .ok t' := hop
    rw [Table.dropColumn] at hop
    split at hop
    · cases hop
    cases hop
    exact h

end PlainChunks

/-- **A row is read in one step**: in a table that any calls have built, no pointer is left in a row
that was read, so that reading it again changes nothing. -/
theorem detoastRow_run (eval : EvalExpr) (name : String) (columns : List Column) (ops : List Op)
    (row : List Value) :
    let t := Machine.run (step eval) (new name columns) ops
    PointerFree (t.detoastRow row) ∧ t.detoastRow (t.detoastRow row) = t.detoastRow row := by
  intro t
  have hplain : t.PlainChunks := by
    refine Machine.run_induction ops (fun _ _ h => nomatch h) fun t op h => ?_
    rw [step]
    split
    next hop => exact h.apply hop
    next => exact h
  have hfree := hplain.pointerFree_detoastRow row
  exact ⟨hfree, (Toasted.of_pointerFree hfree).detoast⟩

end Table

end PostgresRs.Storage
