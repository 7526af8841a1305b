import Mathlib.Data.List.Basic

/-!
# Pieces of a list

A list that is put together from pieces with a separator between them, or after each of them, and is
split again.  The pieces come back one by one, each split where it has the separator itself
(`splitOn_intercalate_eq`, `splitOn_terminated`); so their number is kept only if none of them has
it.
-/

namespace PostgresRs.Lines

open List

variable {α : Type} [BEq α] [LawfulBEq α] {x : α} {ls : List (List α)} {l : List α}

theorem splitOn_intercalate_eq (h : ls ≠ []) :
    ([x].intercalate ls).splitOn x = ls.flatMap (·.splitOn x) := by
  induction ls with
  | nil => exact absurd rfl h
  | cons l ls ih =>
    rcases ls with _ | ⟨l', ls⟩
    · simp
    · rw [intercalate_cons_cons, append_assoc, singleton_append,
        splitOn_append_cons_self, ih (cons_ne_nil _ _)]
      rfl

/-- Pieces that are all ended by the separator: an empty piece is left. -/
theorem splitOn_terminated (ls : List (List α)) :
    (ls.flatMap (· ++ [x])).splitOn x = ls.flatMap (·.splitOn x) ++ [[]] := by
  induction ls with
  | nil => rfl
  | cons l ls ih =>
    rw [flatMap_cons, append_assoc, singleton_append,
      splitOn_append_cons_self, ih, flatMap_cons, append_assoc]

theorem flatMap_splitOn (h : ∀ l ∈ ls, x ∉ l) : ls.flatMap (·.splitOn x) = ls := by
  induction ls with
  | nil => rfl
  | cons l ls ih =>
    rw [forall_mem_cons] at h
    rw [flatMap_cons, splitOn_eq_singleton h.1, ih h.2]
    rfl

theorem not_mem_of_mem_splitOn {xs : List α} (h : l ∈ xs.splitOn x) : x ∉ l := by
  induction xs generalizing l with
  | nil =>
    obtain rfl := mem_singleton.mp h
    exact not_mem_nil
  | cons y ys ih =>
    rw [splitOn_cons_eq_if_modifyHead] at h
    split at h
    · rcases mem_cons.mp h with rfl | h
      · exact not_mem_nil
      · exact ih h
    · next hy =>
      obtain ⟨m, ms, hm⟩ := exists_cons_of_ne_nil (splitOn_ne_nil x ys)
      rw [hm] at h ih
      rcases mem_cons.mp h with rfl | h
      · rw [mem_cons, not_or]
        exact ⟨fun heq => hy (heq ▸ BEq.rfl), ih (.head _)⟩
      · exact ih (.tail _ h)

omit [BEq α] [LawfulBEq α] in
theorem subset_intercalate (h : l ∈ ls) : l ⊆ [x].intercalate ls := by
  induction ls with
  | nil => cases h
  | cons m ls ih =>
    rcases ls with _ | ⟨m', ls⟩
    · rw [mem_singleton.mp h, intercalate_singleton]
      exact List.Subset.refl _
    · rw [intercalate_cons_cons]
      rcases mem_cons.mp h with rfl | h
      · rw [append_assoc]
        exact subset_append_left _ _
      · exact List.Subset.trans (ih h) (subset_append_right _ _)

theorem subset_of_mem_splitOn {xs : List α} (h : l ∈ xs.splitOn x) : l ⊆ xs :=
  @intercalate_splitOn α xs _ _ x ▸ @subset_intercalate α x _ _ h

omit [BEq α] [LawfulBEq α] in
theorem intercalate_concat (h : ls ≠ []) :
    [x].intercalate (ls ++ [l]) = [x].intercalate ls ++ x :: l := by
  induction ls with
  | nil => exact absurd rfl h
  | cons m ls ih =>
    rcases ls with _ | ⟨m', ls⟩
    · simp
    · rw [cons_append, cons_append, intercalate_cons_cons, ← cons_append,
        ih (cons_ne_nil _ _), intercalate_cons_cons, ← append_assoc]

omit [BEq α] [LawfulBEq α] in
theorem intercalate_concat_append (ls : List (List α)) (l m : List α) :
    [x].intercalate (ls ++ [l ++ m]) = [x].intercalate (ls ++ [l]) ++ m := by
  rcases eq_or_ne ls [] with rfl | h
  · simp
  · rw [intercalate_concat h, intercalate_concat h, append_assoc, cons_append]

omit [BEq α] [LawfulBEq α] in
/-- What is in none of the pieces is not in the list, if it does not come between them. -/
theorem not_mem_intercalate {y : α} (h : ∀ l ∈ ls, y ∉ l) (hx : y = x → ls.length ≤ 1) :
    y ∉ [x].intercalate ls := by
  induction ls with
  | nil => exact not_mem_nil
  | cons l ls ih =>
    rw [forall_mem_cons] at h
    rcases ls with _ | ⟨l', ls⟩
    · simpa using h.1
    have hne : y ≠ x := fun heq => absurd (hx heq) (by simp)
    rw [intercalate_cons_cons, mem_append, mem_append, mem_singleton]
    rintro ((hl | heq) | hrest)
    · exact h.1 hl
    · exact hne heq
    · exact ih h.2 (fun heq => absurd heq hne) hrest

omit [LawfulBEq α] in
theorem length_le_flatMap_splitOn (ls : List (List α)) :
    ls.length ≤ (ls.flatMap (·.splitOn x)).length := by
  induction ls with
  | nil => exact Nat.le_refl _
  | cons l ls ih =>
    have hpos := length_pos_of_ne_nil (splitOn_ne_nil x l)
    rw [flatMap_cons, length_append, length_cons]
    omega

theorem one_lt_length_splitOn (h : x ∈ l) : 1 < (l.splitOn x).length := by
  obtain ⟨front, back, rfl⟩ := append_of_mem h
  have hfront := length_pos_of_ne_nil (splitOn_ne_nil x front)
  have hback := length_pos_of_ne_nil (splitOn_ne_nil x back)
  rw [splitOn_append_cons_self, length_append]
  omega

/-- **As many pieces come back as were put together**, if none of them has the separator. -/
theorem length_flatMap_splitOn_iff :
    (ls.flatMap (·.splitOn x)).length = ls.length ↔ ∀ l ∈ ls, x ∉ l := by
  refine ⟨fun h => ?_, fun h => by rw [flatMap_splitOn h]⟩
  induction ls with
  | nil => exact nofun
  | cons l ls ih =>
    have hpos := length_pos_of_ne_nil (splitOn_ne_nil x l)
    have hrest := @length_le_flatMap_splitOn α _ x ls
    rw [flatMap_cons, length_append, length_cons] at h
    refine forall_mem_cons.mpr ⟨fun hmem => ?_, ih (by omega)⟩
    have := one_lt_length_splitOn hmem
    omega

end PostgresRs.Lines
