import Mathlib.Data.List.Basic
import Mathlib.Data.List.Forall2

/-!
# Computations that can fail

How a computation in `Except` that succeeds is taken apart: a sequence into its two parts, `mapM`
into one success for each element, and `foldlM` by an invariant that may speak of what is left to
do. Two computations in `Option` take the same course if each of their parts does.
-/

namespace PostgresRs

open List

variable {ε α β σ : Type} {f : α → Except ε β} {l : List α} {l' : List β}

variable {x : Except ε α} {b : β}

theorem of_bind_eq_ok (h : x >>= f = .ok b) : ∃ a, x = .ok a ∧ f a = .ok b := by
  cases x with
  | error e => cases h
  | ok a => exact ⟨a, rfl, h⟩

theorem of_map_eq_ok {g : α → β} (h : x.map g = .ok b) : ∃ a, x = .ok a ∧ g a = b := by
  cases x with
  | error e => cases h
  | ok a => exact ⟨a, rfl, Except.ok.inj h⟩

/-- A check that is passed. -/
theorem and_of_bind_eq_ok {x : Except ε Unit} {f : Unit → Except ε β} (h : x >>= f = .ok b) :
    x = .ok () ∧ f () = .ok b := by
  obtain ⟨⟨⟩, hx, h⟩ := of_bind_eq_ok h
  exact ⟨hx, h⟩

theorem forall₂_of_mapM_eq_ok (h : l.mapM f = .ok l') :
    List.Forall₂ (fun a b => f a = .ok b) l l' := by
  induction l generalizing l' with
  | nil =>
    cases h
    exact .nil
  | cons a l ih =>
    rw [mapM_cons] at h
    obtain ⟨b, hb, h⟩ := of_bind_eq_ok h
    obtain ⟨bs, hbs, h⟩ := of_bind_eq_ok h
    cases h
    exact .cons hb (ih hbs)

theorem mapM_eq_ok_of_forall {g : α → β} (h : ∀ a ∈ l, f a = .ok (g a)) :
    l.mapM f = .ok (l.map g) := by
  induction l with
  | nil => rfl
  | cons a l ih =>
    rw [forall_mem_cons] at h
    rw [mapM_cons, h.1, ih h.2]
    rfl

section

variable (h : l.mapM f = .ok l')
include h

/-- The results of `mapM` as those of a function. -/
theorem getElem?_of_mapM_eq_ok {i : Nat} {a : α} (ha : l[i]? = some a) :
    ∃ b, l'[i]? = some b ∧ f a = .ok b := by
  have hpairs := forall₂_of_mapM_eq_ok h
  clear h
  induction hpairs generalizing i with
  | nil => cases ha
  | cons hab _ ih =>
    rcases i with _ | i
    · obtain rfl := Option.some.inj ha
      exact ⟨_, rfl, hab⟩
    · exact ih ha

theorem forall_of_mapM_eq_ok (a : α) (ha : a ∈ l) : ∃ b, f a = .ok b := by
  obtain ⟨i, hi⟩ := mem_iff_getElem?.mp ha
  obtain ⟨b, -, hb⟩ := getElem?_of_mapM_eq_ok h hi
  exact ⟨b, hb⟩

theorem exists_of_mem_mapM : ∀ b ∈ l', ∃ a ∈ l, f a = .ok b := by
  have hpairs := forall₂_of_mapM_eq_ok h
  clear h
  induction hpairs with
  | nil => exact nofun
  | cons hab _ ih =>
    refine forall_mem_cons.mpr ⟨⟨_, .head _, hab⟩, fun b hb => ?_⟩
    obtain ⟨a, ha, h⟩ := ih b hb
    exact ⟨a, .tail _ ha, h⟩

theorem exists_map_of_mapM_eq_ok [Nonempty β] :
    ∃ g : α → β, (∀ a ∈ l, f a = .ok (g a)) ∧ l' = l.map g := by
  choose! g hg using forall_of_mapM_eq_ok h
  exact ⟨g, hg, Except.ok.inj (h.symm.trans (mapM_eq_ok_of_forall hg))⟩

end

theorem forall₂_of_mapM_eq_some {f : α → Option β} (h : l.mapM f = some l') :
    Forall₂ (fun a b => f a = some b) l l' := by
  induction l generalizing l' with
  | nil => exact Option.some.inj h ▸ .nil
  | cons a l ih =>
    rw [mapM_cons] at h
    obtain ⟨b, hb, h⟩ := Option.bind_eq_some_iff.mp h
    obtain ⟨bs, hbs, h⟩ := Option.bind_eq_some_iff.mp h
    exact Option.some.inj h ▸ .cons hb (ih hbs)

theorem exists_of_mapM_eq_some {f : α → Option β} (h : l.mapM f = some l') :
    ∀ a ∈ l, ∃ b ∈ l', f a = some b := by
  have hall := forall₂_of_mapM_eq_some h
  clear h
  induction hall with
  | nil => exact fun a ha => by cases ha
  | cons hab _ ih =>
    refine forall_mem_cons.mpr ⟨⟨_, .head _, hab⟩, fun a ha => ?_⟩
    obtain ⟨b, hb, heq⟩ := ih a ha
    exact ⟨b, .tail _ hb, heq⟩

theorem mapM_congr_of_mem {m : Type → Type} [Monad m] [LawfulMonad m] {f g : α → m β}
    (h : ∀ a ∈ l, f a = g a) : l.mapM f = l.mapM g := by
  induction l with
  | nil => rfl
  | cons a l ih =>
    rw [forall_mem_cons] at h
    rw [mapM_cons, mapM_cons, h.1, ih h.2]

theorem mapM_range_eq_ok {f : Nat → Except ε β} {l : List β}
    (h : ∀ i (hi : i < l.length), f i = .ok l[i]) : (List.range l.length).mapM f = .ok l := by
  induction l generalizing f with
  | nil => rfl
  | cons b l ih =>
    have hrest : (List.range l.length).mapM (f ∘ Nat.succ) = .ok l :=
      ih fun i hi => h (i + 1) (Nat.succ_lt_succ hi)
    rw [length_cons, range_succ_eq_map, mapM_cons, mapM_map, hrest,
      h 0 (Nat.succ_pos _)]
    rfl

/-! ### Searches -/

section Search

variable {l : List α} {p : α → Except ε Bool} {q : α → Bool}

theorem anyM_eq_ok (h : ∀ a ∈ l, p a = .ok (q a)) : l.anyM p = .ok (l.any q) := by
  induction l with
  | nil => rfl
  | cons a l ih =>
    rw [forall_mem_cons] at h
    rw [List.anyM, h.1, any_cons]
    cases q a with
    | true => rfl
    | false => exact ih h.2

/-- A search that finds nothing has looked at all. -/
theorem eq_ok_false_of_anyM (h : l.anyM p = .ok false) : ∀ a ∈ l, p a = .ok false := by
  induction l with
  | nil => exact nofun
  | cons a l ih =>
    rw [List.anyM] at h
    obtain ⟨found, hfound, h⟩ := of_bind_eq_ok h
    cases found with
    | true => cases h
    | false => exact forall_mem_cons.mpr ⟨hfound, ih h⟩

theorem allM_eq_ok (h : ∀ a ∈ l, p a = .ok (q a)) : l.allM p = .ok (l.all q) := by
  induction l with
  | nil => rfl
  | cons a l ih =>
    rw [forall_mem_cons] at h
    rw [List.allM, h.1, all_cons]
    cases q a with
    | true => exact ih h.2
    | false => rfl

theorem findM?_eq_ok (h : ∀ a ∈ l, p a = .ok (q a)) : l.findM? p = .ok (l.find? q) := by
  induction l with
  | nil => rfl
  | cons a l ih =>
    rw [forall_mem_cons] at h
    rw [List.findM?, h.1, find?_cons]
    cases q a with
    | true => rfl
    | false => exact ih h.2

theorem forM_eq_ok_iff {f : α → Except ε Unit} : l.forM f = .ok () ↔ ∀ a ∈ l, f a = .ok () := by
  induction l with
  | nil => exact iff_of_true rfl nofun
  | cons a l ih =>
    rw [forall_mem_cons, ← ih]
    show (f a >>= fun _ => l.forM f) = .ok () ↔ _
    cases f a with
    | error e => exact iff_of_false nofun fun h => nomatch h.1
    | ok u => exact (and_iff_right rfl).symm

end Search

/-- **The rule for loops that can fail**: what holds at the start with everything to do, and is kept
by every step that succeeds, holds at the end with nothing to do. -/
theorem foldlM_induction {f : σ → α → Except ε σ} {P : List α → σ → Prop} {s s' : σ}
    (h : l.foldlM f s = .ok s') (h0 : P l s)
    (hstep : ∀ a l s s', P (a :: l) s → f s a = .ok s' → P l s') : P [] s' := by
  induction l generalizing s with
  | nil =>
    cases h
    exact h0
  | cons a l ih =>
    obtain ⟨s₁, hs₁, h⟩ := of_bind_eq_ok h
    exact ih h (hstep a l s s₁ h0 hs₁)

/-! ## How a computation can fail -/

/-- Whenever the computation fails, it fails in a way that `P` allows. -/
def FailsOnly (P : ε → Prop) (x : Except ε α) : Prop := ∀ e, x = .error e → P e

namespace FailsOnly

variable {P : ε → Prop} {l : List α} {p : α → Except ε Bool}

theorem ok (a : α) : FailsOnly P (.ok a) := nofun

theorem error {e : ε} (h : P e) : FailsOnly P (.error e : Except ε α) := fun _ he =>
  Except.error.inj he ▸ h

theorem bind {f : α → Except ε β} (hx : FailsOnly P x) (hf : ∀ a, x = .ok a → FailsOnly P (f a)) :
    FailsOnly P (x >>= f) := by
  rcases x with e | a
  · exact error (hx e rfl)
  · exact hf a rfl

theorem forM {f : α → Except ε Unit} (h : ∀ a ∈ l, FailsOnly P (f a)) : FailsOnly P (l.forM f) := by
  induction l with
  | nil => exact ok _
  | cons a l ih =>
    rw [forall_mem_cons] at h
    exact h.1.bind fun _ _ => ih h.2

section

variable (h : ∀ a ∈ l, FailsOnly P (p a))
include h

end

/-- A loop fails only as its steps do, from states that satisfy an invariant. -/
theorem foldlM {f : σ → α → Except ε σ} {I : σ → Prop} {s : σ} (h0 : I s)
    (hstep : ∀ s, I s → ∀ a ∈ l, FailsOnly P (f s a) ∧ ∀ s', f s a = .ok s' → I s') :
    FailsOnly P (l.foldlM f s) := by
  induction l generalizing s with
  | nil => exact ok _
  | cons a l ih =>
    obtain ⟨hfail, hok⟩ := hstep s h0 a (.head _)
    refine hfail.bind fun s' hs' => ih (hok s' hs') fun s hs b hb => hstep s hs b (.tail _ hb)

end FailsOnly

/-! ## Computations with the same course -/

section Rel

variable {γ δ : Type} {R : α → β → Prop} {S : γ → δ → Prop} {f : α → Option γ}

variable {g : β → Option δ}

theorem rel_bind {x : Option α} {y : Option β} (h : Option.Rel R x y)
    (hfg : ∀ a b, R a b → Option.Rel S (f a) (g b)) : Option.Rel S (x >>= f) (y >>= g) := by
  rcases h with hab | _
  · exact hfg _ _ hab
  · exact .none

theorem rel_bind_same {x : Option α} {g : α → Option δ} (hfg : ∀ a, Option.Rel S (f a) (g a)) :
    Option.Rel S (x >>= f) (x >>= g) := by
  rcases x with _ | a
  · exact .none
  · exact hfg a

theorem rel_orElse {x x' : Option γ} {y y' : Option δ} (h : Option.Rel S x y)
    (h' : Option.Rel S x' y') : Option.Rel S (x <|> x') (y <|> y') := by
  rcases h with hxy | _
  · exact .some hxy
  · exact h'

theorem rel_findSome? (h : List.Forall₂ R l l') (hfg : ∀ a b, R a b → Option.Rel S (f a) (g b)) :
    Option.Rel S (l.findSome? f) (l'.findSome? g) := by
  induction h with
  | nil => exact .none
  | @cons a b _ _ hab _ ih =>
    rw [findSome?_cons, findSome?_cons]
    have hhead := hfg a b hab
    generalize f a = x at hhead
    generalize g b = y at hhead
    rcases hhead with hxy | _
    · exact .some hxy
    · exact ih

end Rel

end PostgresRs
