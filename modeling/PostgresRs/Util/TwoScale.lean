import PostgresRs.Util.Buckets
import Mathlib.Order.Lattice

/-!
# Comparison on two scales

Elements of one kind are compared by a fine measure, all others by a coarse one that is monotone in
it.  This is an order exactly if no third element lies where two different elements of one kind
coincide on the coarse scale (`orderOn_iff`).
-/

namespace PostgresRs.TwoScale

open Buckets Ordering

variable {α C V W : Type}

section

variable (kind : α → Option C) (fine : α → V) (coarse : α → W)

/-- Both are of one kind that has a fine measure. -/
def SameKind (a b : α) : Prop := kind a = kind b ∧ (kind a).isSome = true

variable [DecidableEq C] [LinearOrder V] [LinearOrder W]

instance (a b : α) : Decidable (SameKind kind a b) := inferInstanceAs (Decidable (_ ∧ _))

def cmp (a b : α) : Ordering :=
  if SameKind kind a b then compare (fine a) (fine b) else compare (coarse a) (coarse b)

/-- Where two different elements of one kind coincide on the coarse scale, there is nothing else. -/
def Separated (K : α → Prop) : Prop :=
  ∀ a b c, K a → K b → K c → SameKind kind a b → fine a ≠ fine b → coarse a = coarse b →
    coarse a = coarse c → SameKind kind a c

end

variable {kind : α → Option C} {fine : α → V} {coarse : α → W} {K : α → Prop} {a b c : α}

theorem SameKind.symm (h : SameKind kind a b) : SameKind kind b a := ⟨h.1.symm, h.1 ▸ h.2⟩

theorem SameKind.trans (h : SameKind kind a b) (h' : SameKind kind b c) : SameKind kind a c :=
  ⟨h.1.trans h'.1, h.2⟩

variable [DecidableEq C] [LinearOrder V] [LinearOrder W]

/-- Two elements of one kind that are apart on the fine scale, and a third one of no such kind. -/
theorem separated_of_orderOn (h : OrderOn K (cmp kind fine coarse)) :
    Separated kind fine coarse K := by
  intro a b c ha hb hc hab hne hcoarse hcoarse'
  by_contra hac
  have hbc : ¬SameKind kind b c := fun hbc => hac (hab.trans hbc)
  have heq : cmp kind fine coarse a c = .eq ∧ cmp kind fine coarse b c = .eq := by
    rw [cmp, if_neg hac, cmp, if_neg hbc, ← hcoarse, hcoarse']
    exact ⟨compare_eq_iff_eq.mpr rfl, compare_eq_iff_eq.mpr rfl⟩
  have hcongr := (h.cmp_congr_right ha hc hb (by rw [h.swap hb hc, heq.2]; rfl)).symm.trans heq.1
  rw [cmp, if_pos hab, compare_eq_iff_eq] at hcongr
  exact hne hcongr

open Classical in
/-- The place of an element: on the coarse scale, and there on the fine one if only elements of one
kind are there. -/
noncomputable def place [Inhabited V] (kind : α → Option C) (fine : α → V) (coarse : α → W)
    (K : α → Prop) (a : α) : W × V :=
  (coarse a,
    if ∀ c, K c → coarse a = coarse c → SameKind kind a c then fine a else default)

section

variable (hmono : ∀ a b, K a → K b → SameKind kind a b → fine a ≤ fine b → coarse a ≤ coarse b)

include hmono

/-- Elements that are apart on the coarse scale are so on the fine one. -/
theorem cmp_eq_of_ne (ha : K a) (hb : K b) (hne : coarse a ≠ coarse b) :
    cmp kind fine coarse a b = compare (coarse a) (coarse b) := by
  rw [cmp]
  split
  · next hab =>
    rcases lt_or_gt_of_ne hne with hlt | hlt
    · have hfine : fine a < fine b := not_le.mp fun h => hlt.not_ge (hmono b a hb ha hab.symm h)
      rw [compare_lt_iff_lt.mpr hlt, compare_lt_iff_lt.mpr hfine]
    · have hfine : fine b < fine a := not_le.mp fun h => hlt.not_ge (hmono a b ha hb hab h)
      rw [compare_gt_iff_gt.mpr hlt, compare_gt_iff_gt.mpr hfine]
  · rfl

theorem cmp_eq_place [Inhabited V] (h : Separated kind fine coarse K) (ha : K a) (hb : K b) :
    cmp kind fine coarse a b = compareLex (compareOn Prod.fst) (compareOn Prod.snd)
      (place kind fine coarse K a) (place kind fine coarse K b) := by
  rw [compareLex, compareOn, compareOn, place, place]
  by_cases heq : coarse a = coarse b
  · rw [compare_eq_iff_eq.mpr heq, Ordering.then]
    by_cases hab : SameKind kind a b
    · have hkind : (∀ c, K c → coarse a = coarse c → SameKind kind a c) ↔
          ∀ c, K c → coarse b = coarse c → SameKind kind b c := by
        rw [heq]
        exact forall₃_congr fun _ _ _ => ⟨hab.symm.trans, hab.trans⟩
      rw [cmp, if_pos hab]
      by_cases hone : ∀ c, K c → coarse a = coarse c → SameKind kind a c
      · rw [if_pos hone, if_pos (hkind.mp hone)]
      · -- Next to an element of another kind the two are the same.
        have hfine : fine a = fine b := by
          by_contra hne
          exact hone fun c hc hac => h a b c ha hb hc hab hne heq hac
        rw [if_neg hone, if_neg (mt hkind.mpr hone), compare_eq_iff_eq.mpr hfine,
          compare_eq_iff_eq.mpr rfl]
    · rw [cmp, if_neg hab, compare_eq_iff_eq.mpr heq, if_neg fun h => hab (h b hb heq),
        if_neg fun h => hab (h a ha heq.symm).symm, compare_eq_iff_eq.mpr rfl]
  · rw [cmp_eq_of_ne hmono ha hb heq]
    rcases lt_or_gt_of_ne heq with hlt | hlt
    · rw [compare_lt_iff_lt.mpr hlt]
      rfl
    · rw [compare_gt_iff_gt.mpr hlt]
      rfl

/-- **Comparison on two scales** is an order exactly if the kinds are separated. -/
theorem orderOn_iff [Inhabited V] :
    OrderOn K (cmp kind fine coarse) ↔ Separated kind fine coarse K :=
  ⟨separated_of_orderOn, fun h => .of_eq (fun a _ => place kind fine coarse K a)
    fun ha hb => cmp_eq_place hmono h ha hb⟩

end

end PostgresRs.TwoScale
