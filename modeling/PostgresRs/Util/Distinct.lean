import Mathlib.Data.List.Basic

/-!
# Lists without repetitions

`distinct eq l` keeps the first of all elements of `l` that `eq` takes for the same.  The test need
not be an equivalence: `EquivOn eq P` says that it is one among the elements with `P`, as a
comparison of numbers is among those that are no NaN.

* `pairwise_distinct` — no two of the elements that are left are the same.
* `exists_mem_distinct` — every element is the same as one that is left.
* `countP_distinct` — of an element that is there, one copy is left.
-/

namespace PostgresRs

open List

variable {α : Type} {eq : α → α → Bool} {P : α → Prop} {l l' : List α} {a b : α}

/-- Add an element that is not there yet. -/
def addNew (eq : α → α → Bool) (out : List α) (a : α) : List α :=
  if out.any (eq · a) then out else out ++ [a]

/-- The first of all elements that are the same. -/
def distinct (eq : α → α → Bool) (l : List α) : List α := l.foldl (addNew eq) []

/-- The test is an equivalence among the elements with `P`. -/
structure EquivOn (eq : α → α → Bool) (P : α → Prop) : Prop where
  refl : ∀ a, P a → eq a a = true
  symm : ∀ a b, P a → P b → eq a b = true → eq b a = true
  trans : ∀ a b c, P a → P b → P c → eq a b = true → eq b c = true → eq a c = true

/-! ## What is left -/

/-- What each element that is added keeps, holds in the end. -/
theorem distinct_induction {I : List α → List α → Prop} (h0 : I [] [])
    (hstep : ∀ seen out a, I seen out → I (seen ++ [a]) (addNew eq out a)) (l : List α) :
    I l (distinct eq l) := by
  have hfold : ∀ seen out, I seen out → I (seen ++ l) (l.foldl (addNew eq) out) := by
    induction l with
    | nil =>
      intro seen out h
      rwa [append_nil]
    | cons a l ih =>
      intro seen out h
      have := ih _ _ (hstep seen out a h)
      rwa [append_assoc] at this
  exact hfold [] [] h0

theorem distinct_subset (l : List α) : distinct eq l ⊆ l := by
  refine distinct_induction (I := fun seen out => out ⊆ seen) (List.Subset.refl _) ?_ l
  intro seen out a h
  have hleft : out ⊆ seen ++ [a] := List.Subset.trans h (subset_append_left _ _)
  rw [addNew]
  split
  · exact hleft
  · exact append_subset.mpr ⟨hleft, subset_append_right _ _⟩

/-- No two of the elements are the same. -/
theorem pairwise_distinct (l : List α) :
    (distinct eq l).Pairwise fun a b => eq a b = false := by
  refine distinct_induction (I := fun _ out => out.Pairwise fun a b => eq a b = false) .nil ?_ l
  intro seen out a h
  rw [addNew]
  split
  · exact h
  · next hnew =>
    rw [any_eq_true, not_exists] at hnew
    refine pairwise_append.mpr ⟨h, pairwise_singleton _ _, fun b hb c hc => ?_⟩
    rw [mem_singleton.mp hc]
    exact Bool.eq_false_iff.mpr fun heq => hnew b ⟨hb, heq⟩

/-- Every element is the same as one that is left. -/
theorem exists_mem_distinct (h : EquivOn eq P) (hl : ∀ a ∈ l, P a) (ha : a ∈ l) :
    ∃ b ∈ distinct eq l, eq b a = true := by
  refine distinct_induction (I := fun seen out => (∀ a ∈ seen, P a) →
    ∀ a ∈ seen, ∃ b ∈ out, eq b a = true) (fun _ => nofun) ?_ l hl a ha
  intro seen out c hstep hseen a ha
  rw [forall_mem_append] at hseen
  rw [addNew]
  split
  · next hany =>
    rcases mem_append.mp ha with ha | ha
    · exact hstep hseen.1 a ha
    · rw [mem_singleton.mp ha]
      exact any_eq_true.mp hany
  · rcases mem_append.mp ha with ha | ha
    · obtain ⟨b, hb, hba⟩ := hstep hseen.1 a ha
      exact ⟨b, mem_append_left _ hb, hba⟩
    · refine ⟨a, mem_append_right _ ha, h.refl a (hseen.2 a ha)⟩

/-! ## Counting -/

/-- Among elements of which no two are the same, one at most is the same as `a`. -/
theorem countP_le_one (h : EquivOn eq P) (ha : P a) (hl : ∀ b ∈ l, P b)
    (hpair : l.Pairwise fun a b => eq a b = false) : l.countP (eq a) ≤ 1 := by
  induction l with
  | nil => exact Nat.zero_le 1
  | cons b l ih =>
    rw [forall_mem_cons] at hl
    rw [pairwise_cons] at hpair
    rw [countP_cons]
    split
    · next hab =>
      -- What comes later is not the same as `b`, and so not as `a`.
      have hnone : l.countP (eq a) = 0 := by
        rw [countP_eq_zero]
        intro c hc hac
        have hbc := h.trans b a c hl.1 ha (hl.2 c hc) (h.symm a b ha hl.1 hab) hac
        exact Bool.false_ne_true ((hpair.1 c hc).symm.trans hbc)
      omega
    · exact ih hl.2 hpair.2

/-- **One copy is left** of an element that is there. -/
theorem countP_distinct (h : EquivOn eq P) (ha : P a) (hl : ∀ b ∈ l, P b) :
    (distinct eq l).countP (eq a) = min 1 (l.countP (eq a)) := by
  have hsub : ∀ b ∈ distinct eq l, P b := fun b hb => hl b (distinct_subset l hb)
  have hle := countP_le_one h ha hsub (pairwise_distinct l)
  have hpos : 0 < (distinct eq l).countP (eq a) ↔ 0 < l.countP (eq a) := by
    rw [countP_pos_iff, countP_pos_iff]
    constructor
    · rintro ⟨b, hb, hab⟩
      exact ⟨b, distinct_subset l hb, hab⟩
    · rintro ⟨b, hb, hab⟩
      obtain ⟨c, hc, hcb⟩ := exists_mem_distinct h hl hb
      exact ⟨c, hc, h.trans a b c ha (hl b hb) (hsub c hc) hab
        (h.symm c b (hsub c hc) (hl b hb) hcb)⟩
  omega

end PostgresRs
