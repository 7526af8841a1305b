import PostgresRs.Constraint.Shape

/-!
# What a change stores

The rows of a table after a change are rows that were there and the new ones.  A table does not
store a new row as it is: large texts are moved out of line (`Moved`), so what holds of the new rows
holds of the stored ones if it does not depend on what the texts are (`forall_rows_applyChange`).
-/

namespace PostgresRs

namespace Storage

open List

/-- The cells are the same, up to the contents of texts. -/
def Moved : List Value → List Value → Prop :=
  List.Forall₂ fun v v' => v' = v ∨ ∃ s s', v = .text s ∧ v' = .text s'

namespace Table

variable {eval : EvalExpr} {t t' : Table} {row row' : List Value}

theorem moved_toastRow (h : t.toastRow row = .ok (t', row')) : Moved row row' := by
  refine toastRow_induction (P := fun _ row _ row' => Moved row row') h (fun _ => .nil)
    fun hcell ih => .cons ?_ ih
  obtain ⟨-, rfl⟩ | ⟨s, rfl, -, -, rfl, -⟩ := toastCell_cases hcell
  · exact .inl rfl
  · exact .inr ⟨_, _, rfl, rfl⟩

theorem moved_detoastRow (t : Table) (row : List Value) : Moved row (t.detoastRow row) := by
  refine forall₂_map_right_iff.mpr (forall₂_same.mpr fun v _ => ?_)
  cases v with
  | text s =>
    rw [detoastValue]
    cases toastIdOf (.text s) with
    | none => exact .inl rfl
    | some id => exact .inr ⟨_, _, rfl, rfl⟩
  | _ => exact .inl rfl

theorem mem_rows_pushRow (h : t.pushRow eval row = .ok t') {x : List Value} (hx : x ∈ t'.rows) :
    x ∈ t.rows ∨ Moved row x := by
  obtain ⟨_, _, _, _, _, -, rfl, hstored, rfl⟩ := pushRow_cases h
  rcases mem_append.mp hx with hx | hx
  · exact .inl hx
  · exact .inr (mem_singleton.mp hx ▸ moved_toastRow hstored)

theorem mem_rows_updateRow {pos : Nat} (h : t.updateRow eval pos row = .ok t') {x : List Value}
    (hx : x ∈ t'.rows) : x ∈ t.rows ∨ Moved row x := by
  obtain ⟨_, _, _, _, _, _, _, _, -, -, -, -, rfl, hstored, rfl⟩ := updateRow_cases h
  rcases mem_or_eq_of_mem_set hx with hx | rfl
  · exact .inl hx
  · exact .inr (moved_toastRow hstored)

theorem rows_deleteRows_subset {positions : List Nat} (h : t.deleteRows eval positions = .ok t') :
    t'.rows ⊆ t.rows := by
  rcases eq_or_ne positions [] with rfl | hne
  · cases h
    exact List.Subset.refl _
  obtain ⟨-, -, -, -, -, -, -, hrows, -⟩ := deleteRows_eq_ok hne h
  intro x hx
  rw [hrows] at hx
  obtain ⟨e, he, rfl⟩ := mem_map.mp hx
  exact (of_mem_zip ((keepAt_sublist _ _).subset he)).1

end Table
end Storage

namespace Constraint

open Storage

/-- What holds of the rows before and, wherever their texts are, of the new ones holds of all rows
after a change. -/
theorem Relation.forall_rows_applyChange {eval : EvalExpr} {r r' : Relation} {c : Change}
    {R : List Value → Prop} (h : r.applyChange eval c = .ok r') (hold : ∀ x ∈ r.table.rows, R x)
    (hnew : ∀ row ∈ c.newRows, ∀ x, Moved row x → R x) : ∀ x ∈ r'.table.rows, R x := by
  refine (Relation.applyChange_induction (P := fun t => ∀ x ∈ t.rows, R x) h hold
    (fun u hu t t' ht hstep x hx => ?_)
    (fun t t' ht hstep x hx => ht x (Table.rows_deleteRows_subset hstep hx))
    fun row hrow t t' ht hstep x hx => ?_).1
  · rcases Table.mem_rows_updateRow hstep hx with hx | hx
    · exact ht x hx
    · exact hnew u.2 (List.mem_append_left _ (List.mem_map_of_mem hu)) x hx
  · rcases Table.mem_rows_pushRow hstep hx with hx | hx
    · exact ht x hx
    · exact hnew row (List.mem_append_right _ hrow) x hx

end Constraint
end PostgresRs
