import Mathlib.Data.List.Nodup
import Mathlib.Data.List.Perm.Basic
import Mathlib.Order.Compare

/-!
# Ordered maps to lists

A map from keys to non-empty lists, as the list of its buckets.  A key is searched for with a
function `cmp` that need not be an order on all keys: the search goes past the buckets that `cmp`
says are below it and ends at the first one that is not.

`held q m` lists the keys under which the map holds an element that satisfies `q`, with repetitions.
What `push` and `remove` do to the map is said in terms of it: an operation on one element leaves what
is held of the others (`held_push_of_not`, `held_remove_of_not`), `push` adds one key (`held_push`),
and `remove` takes one away (`Lawful.held_remove`).  The latter needs that the map is sorted.  The
operations keep it sorted (`Lawful`) as long as `cmp` is an order on the keys that are used.  In a map
that is left by removals (`Within`) a sorted map finds nothing that is not found in the whole one.
-/

namespace PostgresRs

open List Ordering

/-- A map from keys to lists. -/
abbrev Buckets (κ α : Type) := List (κ × List α)

namespace Buckets

variable {κ α : Type}

/-! ## Operations -/

section Operations

variable (cmp : κ → κ → Ordering) (k : κ)

/-- The list of a key, empty if there is none. -/
def get : Buckets κ α → List α
  | [] => []
  | b :: m =>
    match cmp k b.1 with
    | .lt => []
    | .eq => b.2
    | .gt => get m

/-- Add `x` to the list of `k`. -/
def push (x : α) : Buckets κ α → Buckets κ α
  | [] => [(k, [x])]
  | b :: m =>
    match cmp k b.1 with
    | .lt => (k, [x]) :: b :: m
    | .eq => (b.1, b.2 ++ [x]) :: m
    | .gt => b :: push x m

/-- `Vec::swap_remove` at the first element that satisfies `p`: the last one takes its place. -/
def swapRemove (p : α → Bool) : List α → List α
  | [] => []
  | a :: l =>
    if p a then
      match l.getLast? with
      | none => []
      | some z => z :: l.dropLast
    else a :: swapRemove p l

/-- Remove the first element that satisfies `p` from the list of `k`, and the bucket if it was the
last. -/
def remove (p : α → Bool) : Buckets κ α → Buckets κ α
  | [] => []
  | b :: m =>
    match cmp k b.1 with
    | .lt => b :: m
    | .eq =>
      let l := swapRemove p b.2
      if l.isEmpty then m else (b.1, l) :: m
    | .gt => b :: remove p m

/-- All elements. -/
def all (m : Buckets κ α) : List α := m.flatMap Prod.snd

end Operations

/-- The keys under which `m` holds an element that satisfies `q`, once for each. -/
def held (q : α → Bool) (m : Buckets κ α) : List κ :=
  m.flatMap fun b => List.replicate (b.2.countP q) b.1

variable {cmp : κ → κ → Ordering} {k k' : κ} {x : α} {p q : α → Bool} {m : Buckets κ α}

@[simp] theorem held_nil : held q ([] : Buckets κ α) = [] := rfl

@[simp] theorem held_cons (b : κ × List α) :
    held q (b :: m) = List.replicate (b.2.countP q) b.1 ++ held q m := rfl

theorem mem_held : k ∈ held q m ↔ ∃ b ∈ m, b.1 = k ∧ ∃ x ∈ b.2, q x = true := by
  rw [held, mem_flatMap]
  refine exists_congr fun b => and_congr_right fun _ => ?_
  rw [mem_replicate, Nat.ne_zero_iff_zero_lt, countP_pos_iff, and_comm, eq_comm]

theorem mem_all : x ∈ m.all ↔ ∃ b ∈ m, x ∈ b.2 := mem_flatMap

variable {P : κ → Prop}

/-- Where an element is that is held under one key. -/
theorem exists_bucket_iff (h : m.held q = [k]) :
    (∃ b ∈ m, P b.1 ∧ ∃ x ∈ b.2, q x = true) ↔ P k := by
  have hmem : ∀ b ∈ m, (∃ x ∈ b.2, q x = true) → b.1 = k := fun b hb hx =>
    mem_singleton.mp (h ▸ mem_held.mpr ⟨b, hb, rfl, hx⟩)
  constructor
  · rintro ⟨b, hb, hP, hx⟩
    exact hmem b hb hx ▸ hP
  · intro hP
    obtain ⟨b, hb, rfl, hx⟩ := mem_held.mp (h ▸ mem_singleton_self k)
    exact ⟨b, hb, hP, hx⟩

theorem mem_bucket_iff [BEq α] [LawfulBEq α] (h : m.held (· == x) = [k]) :
    (∃ b ∈ m, P b.1 ∧ x ∈ b.2) ↔ P k := by
  refine Iff.trans ?_ (exists_bucket_iff h)
  simp

theorem length_held : (m.held q).length = m.all.countP q := by
  induction m with
  | nil => rfl
  | cons b m ih =>
    rw [held_cons, length_append, length_replicate, ih, ← countP_append]
    rfl

/-- Of an element that is held under one key there is only one. -/
theorem eq_of_mem_all {y : α} (h : m.held q = [k]) (hx : x ∈ m.all) (hy : y ∈ m.all)
    (hqx : q x = true) (hqy : q y = true) : x = y := by
  have hcount : (m.all.filter q).length = 1 := by
    rw [← countP_eq_length_filter, ← length_held, h]
    rfl
  obtain ⟨z, hz⟩ := length_eq_one_iff.mp hcount
  have hmem : ∀ w ∈ m.all, q w = true → w = z := fun w hw hqw =>
    mem_singleton.mp (hz ▸ mem_filter.mpr ⟨hw, hqw⟩)
  rw [hmem x hx hqx, hmem y hy hqy]

theorem held_eq_nil_iff : m.held q = [] ↔ ∀ x ∈ m.all, q x = false := by
  rw [← length_eq_zero_iff, length_held, countP_eq_zero]
  simp

theorem get_sublist_all : (m.get cmp k).Sublist m.all := by
  induction m with
  | nil => exact nil_sublist _
  | cons b m ih =>
    rw [get]
    split
    · exact nil_sublist _
    · exact sublist_append_left b.2 (Buckets.all m)
    · exact ih.trans (sublist_append_right b.2 (Buckets.all m))

/-- If no element is held twice, none is there twice. -/
theorem nodup_all [BEq α] [LawfulBEq α] (h : ∀ x, (m.held (· == x)).length ≤ 1) : m.all.Nodup :=
  nodup_iff_count_le_one.mpr fun x => by
    rw [count_eq_countP, ← length_held]
    exact h x

theorem held_eq_nil_of_imp (hqp : ∀ x, q x = true → p x = true) (h : held p m = []) :
    held q m = [] := by
  rw [eq_nil_iff_forall_not_mem] at h ⊢
  intro k hk
  obtain ⟨b, hb, hbk, x, hx, hq⟩ := mem_held.mp hk
  exact h k (mem_held.mpr ⟨b, hb, hbk, x, hx, hqp x hq⟩)

/-! ## Adding -/

theorem held_push_of_not (hx : q x = false) : held q (push cmp k x m) = held q m := by
  induction m with
  | nil => simp [push, hx]
  | cons b m ih =>
    rw [push]
    cases cmp k b.1 with
    | lt | eq => simp [hx]
    | gt => simp [ih]

/-- An element is added under `k` or a key that is the same for `cmp`. -/
theorem held_push (hx : q x = true) : ∃ k', (k' = k ∨ cmp k k' = .eq) ∧
    (held q (push cmp k x m)).Perm (k' :: held q m) := by
  have hnew : List.replicate (List.countP q [x]) k = [k] := by simp [hx]
  induction m with
  | nil =>
    refine ⟨k, .inl rfl, ?_⟩
    rw [push, held_cons, hnew]
    rfl
  | cons b m ih =>
    rw [push]
    cases hb : cmp k b.1 with
    | lt =>
      refine ⟨k, .inl rfl, ?_⟩
      rw [held_cons, hnew]
      rfl
    | eq =>
      refine ⟨b.1, .inr hb, ?_⟩
      rw [held_cons, held_cons, countP_append, countP_singleton, if_pos hx,
        replicate_succ]
      rfl
    | gt =>
      obtain ⟨k', hk', hperm⟩ := ih
      refine ⟨k', hk', ?_⟩
      exact (hperm.append_left _).trans perm_middle

/-- With a comparison that tells all keys apart, an element is added under its own key. -/
theorem held_push_of_lawfulEq [Std.LawfulEqCmp cmp] (hx : q x = true) :
    (held q (push cmp k x m)).Perm (k :: held q m) := by
  obtain ⟨k', hk', hperm⟩ := @held_push _ _ cmp k x q m hx
  obtain rfl : k = k' := hk'.elim Eq.symm Std.LawfulEqCmp.eq_of_compare
  exact hperm

theorem held_push_eq_singleton [Std.LawfulEqCmp cmp] (h : held q m = []) (hx : q x = true) :
    held q (push cmp k x m) = [k] := by
  have hperm := @held_push_of_lawfulEq _ _ cmp k x q m _ hx
  rw [h] at hperm
  exact perm_singleton.mp hperm

theorem key_of_mem_push {c : κ × List α} (hc : c ∈ push cmp k x m) :
    c.1 = k ∨ ∃ d ∈ m, c.1 = d.1 := by
  induction m with
  | nil => exact .inl (congrArg Prod.fst (mem_singleton.mp hc))
  | cons b m ih =>
    rw [push] at hc
    cases hb : cmp k b.1 with
    | lt =>
      rw [hb] at hc
      rcases mem_cons.mp hc with rfl | hc
      · exact .inl rfl
      · exact .inr ⟨c, hc, rfl⟩
    | eq =>
      rw [hb] at hc
      rcases mem_cons.mp hc with rfl | hc
      · exact .inr ⟨b, .head _, rfl⟩
      · exact .inr ⟨c, .tail _ hc, rfl⟩
    | gt =>
      rw [hb] at hc
      rcases mem_cons.mp hc with rfl | hc
      · exact .inr ⟨c, .head _, rfl⟩
      · exact (ih hc).imp_right fun ⟨d, hd, hcd⟩ => ⟨d, .tail _ hd, hcd⟩

/-! ## Removing -/

theorem perm_swapRemove (p : α → Bool) (l : List α) : (swapRemove p l).Perm (l.eraseP p) := by
  induction l with
  | nil => exact .refl _
  | cons a l ih =>
    rw [swapRemove, eraseP_cons]
    cases p a with
    | false => exact ih.cons a
    | true =>
      rcases eq_nil_or_concat l with rfl | ⟨l', z, rfl⟩
      · exact .refl _
      · rw [concat_eq_append, getLast?_concat, dropLast_concat]
        exact (perm_append_singleton z l').symm

theorem countP_swapRemove_of_disjoint (h : ∀ x, q x = true → p x = false) (l : List α) :
    (swapRemove p l).countP q = l.countP q := by
  rw [(perm_swapRemove p l).countP_eq]
  induction l with
  | nil => rfl
  | cons a l ih =>
    rw [eraseP_cons]
    cases hp : p a with
    | true =>
      have hq : q a = false := by
        cases hq : q a with
        | false => rfl
        | true => exact absurd hp (by rw [h a hq]; decide)
      simp [hq]
    | false => simp [countP_cons, ih]

theorem countP_swapRemove {l : List α} (hl : ∃ x ∈ l, p x = true) :
    l.countP p = (swapRemove p l).countP p + 1 := by
  rw [(perm_swapRemove p l).countP_eq]
  obtain ⟨a, l₁, l₂, -, ha, hsplit, herase⟩ := exists_of_eraseP hl.choose_spec.1 hl.choose_spec.2
  rw [herase, hsplit, countP_append, countP_append, countP_cons_of_pos ha]
  omega

/-- The bucket that `remove` leaves, if any. -/
theorem held_removeBucket (b : κ × List α) :
    held q (if (swapRemove p b.2).isEmpty then m else (b.1, swapRemove p b.2) :: m) =
      List.replicate ((swapRemove p b.2).countP q) b.1 ++ held q m := by
  split
  · next h => simp [isEmpty_iff.mp h]
  · rfl

theorem held_remove_of_not (h : ∀ x, q x = true → p x = false) :
    held q (remove cmp k p m) = held q m := by
  induction m with
  | nil => rfl
  | cons b m ih =>
    rw [remove]
    cases cmp k b.1 with
    | lt => rfl
    | eq =>
      rw [held_cons, ← countP_swapRemove_of_disjoint h]
      exact held_removeBucket b
    | gt => rw [held_cons, held_cons, ih]

/-! ## Sorted maps -/

/-- `cmp` is a total preorder on the keys in `K`. -/
structure OrderOn (K : κ → Prop) (cmp : κ → κ → Ordering) : Prop where
  swap : ∀ {a b}, K a → K b → cmp b a = (cmp a b).swap
  trans : ∀ {a b c}, K a → K b → K c → cmp a b ≠ .gt → cmp b c ≠ .gt → cmp a c ≠ .gt

namespace OrderOn

variable {K : κ → Prop} {a b c : κ}

/-- What compares as its images do in an order. -/
theorem of_eq {β : Type} {cmp' : β → β → Ordering} [Std.TransCmp cmp'] (f : ∀ a, K a → β)
    (h : ∀ {a b} ha hb, cmp a b = cmp' (f a ha) (f b hb)) : OrderOn K cmp where
  swap ha hb := by
    rw [h hb ha, h ha hb]
    exact Std.OrientedCmp.eq_swap
  trans ha hb hc hab hbc := by
    rw [h ha hb] at hab
    rw [h hb hc] at hbc
    rw [h ha hc]
    exact ne_gt_iff_isLE.mpr (Std.TransCmp.isLE_trans
      (ne_gt_iff_isLE.mp hab) (ne_gt_iff_isLE.mp hbc))

theorem of_transCmp [Std.TransCmp cmp] : OrderOn K cmp := of_eq (fun a _ => a) fun _ _ => rfl

theorem mono {K' : κ → Prop} (h : OrderOn K cmp) (hsub : ∀ a, K' a → K a) : OrderOn K' cmp :=
  ⟨fun ha hb => h.swap (hsub _ ha) (hsub _ hb),
    fun ha hb hc => h.trans (hsub _ ha) (hsub _ hb) (hsub _ hc)⟩

theorem congr {cmp' : κ → κ → Ordering} (h : ∀ a b, K a → K b → cmp a b = cmp' a b) :
    OrderOn K cmp ↔ OrderOn K cmp' := by
  have key : ∀ {f g : κ → κ → Ordering}, (∀ a b, K a → K b → f a b = g a b) → OrderOn K f →
      OrderOn K g := fun hfg hf => by
    refine ⟨fun ha hb => ?_, fun ha hb hc hab hbc => ?_⟩
    · rw [← hfg _ _ hb ha, ← hfg _ _ ha hb, hf.swap ha hb]
    · rw [← hfg _ _ ha hb] at hab
      rw [← hfg _ _ hb hc] at hbc
      rw [← hfg _ _ ha hc]
      exact hf.trans ha hb hc hab hbc
  exact ⟨key h, key fun a b ha hb => (h a b ha hb).symm⟩

theorem of_forall_eq (h : ∀ a b, K a → K b → cmp a b = .eq) : OrderOn K cmp where
  swap ha hb := by rw [h _ _ ha hb, h _ _ hb ha, Ordering.swap]
  trans ha _ hc _ _ := by
    rw [h _ _ ha hc]
    exact Ordering.noConfusion

/-- An order on each of several classes, which follow each other. -/
theorem of_classes {f : κ → Nat} (hf : ∀ {a b}, f a ≠ f b → cmp a b = compare (f a) (f b))
    (h : ∀ n, OrderOn (fun a => K a ∧ f a = n) cmp) : OrderOn K cmp where
  swap {a b} ha hb := by
    by_cases hab : f a = f b
    · exact (h (f b)).swap ⟨ha, hab⟩ ⟨hb, rfl⟩
    · rw [hf hab, hf (Ne.symm hab)]
      exact Std.OrientedCmp.eq_swap
  trans {a b c} ha hb hc hab hbc := by
    have hle : ∀ {a b}, cmp a b ≠ .gt → f a ≤ f b := fun {a b} hab => by
      by_contra hlt
      refine hab ?_
      rw [hf (by omega), Nat.compare_eq_gt]
      omega
    have h1 := hle hab
    have h2 := hle hbc
    by_cases hac : f a = f c
    · exact (h (f c)).trans ⟨ha, hac⟩ ⟨hb, by omega⟩ ⟨hc, rfl⟩ hab hbc
    · have hlt : cmp a c = .lt := by
        rw [hf hac, Nat.compare_eq_lt]
        omega
      rw [hlt]
      exact Ordering.noConfusion

section

variable (h : OrderOn K cmp)
include h

/-- Among the keys in `K` it is an order. -/
theorem transCmp : Std.TransCmp fun a b : Subtype K => cmp a b where
  eq_swap {a b} := h.swap b.2 a.2
  isLE_trans {a b c} hab hbc := ne_gt_iff_isLE.mp
    (h.trans a.2 b.2 c.2 (ne_gt_iff_isLE.mpr hab) (ne_gt_iff_isLE.mpr hbc))

variable (ha : K a)
include ha

theorem refl : cmp a a = .eq := by
  have := h.swap ha ha
  cases hc : cmp a a <;> simp_all

variable (hb : K b) (hc : K c)
include hb hc

theorem lt_of_le_of_lt (hab : cmp a b ≠ .gt) (hbc : cmp b c = .lt) : cmp a c = .lt :=
  @Std.TransCmp.lt_of_isLE_of_lt _ _ h.transCmp ⟨a, ha⟩ ⟨b, hb⟩ ⟨c, hc⟩
    (ne_gt_iff_isLE.mp hab) hbc

/-- Keys that are the same compare alike. -/
theorem cmp_congr_right (hbc : cmp b c = .eq) : cmp a b = cmp a c :=
  @Std.TransCmp.congr_right _ _ h.transCmp ⟨a, ha⟩ ⟨b, hb⟩ ⟨c, hc⟩ hbc

end

end OrderOn

/-- The keys of the map are in `K` and sorted. -/
structure Lawful (K : κ → Prop) (cmp : κ → κ → Ordering) (m : Buckets κ α) : Prop where
  keys : ∀ b ∈ m, K b.1
  sorted : m.Pairwise fun b c => cmp b.1 c.1 = .lt

namespace Lawful

variable {K : κ → Prop}

theorem nil : Lawful K cmp ([] : Buckets κ α) := ⟨by simp, .nil⟩

theorem tail {b : κ × List α} (h : Lawful K cmp (b :: m)) : Lawful K cmp m :=
  ⟨fun c hc => h.keys c (.tail _ hc), h.sorted.of_cons⟩

theorem cons {b : κ × List α} (h : Lawful K cmp m) (hb : K b.1)
    (hlt : ∀ c ∈ m, cmp b.1 c.1 = .lt) : Lawful K cmp (b :: m) :=
  ⟨forall_mem_cons.mpr ⟨hb, h.keys⟩, .cons hlt h.sorted⟩

/-- A key that is not above the first one is below the others. -/
theorem lt_of_not_gt {b : κ × List α} (h : Lawful K cmp (b :: m)) (hord : OrderOn K cmp) (hk : K k)
    (hb : cmp k b.1 ≠ .gt) : ∀ c ∈ m, cmp k c.1 = .lt := fun c hc =>
  hord.lt_of_le_of_lt hk (h.keys b (.head _)) (h.keys c (.tail _ hc)) hb
    ((pairwise_cons.mp h.sorted).1 c hc)

theorem mem_get (h : m.Lawful K cmp) (hord : OrderOn K cmp) (hk : K k) :
    x ∈ m.get cmp k ↔ ∃ b ∈ m, cmp k b.1 = .eq ∧ x ∈ b.2 := by
  induction m with
  | nil => simp [get]
  | cons b m ih =>
    rw [get]
    -- Past the first bucket that is not below `k` no key is the same as `k`.
    have hrest : cmp k b.1 ≠ .gt → ∀ c ∈ m, cmp k c.1 ≠ .eq := fun hb c hc => by
      rw [h.lt_of_not_gt hord hk hb c hc]
      decide
    rw [exists_mem_cons_iff]
    cases hb : cmp k b.1 with
    | lt =>
      have := hrest (by rw [hb]; decide)
      simpa using fun c l hc heq _ => this (c, l) hc heq
    | eq =>
      have := hrest (by rw [hb]; decide)
      simpa using fun c l hc heq _ => absurd heq (this (c, l) hc)
    | gt => simpa using ih h.tail

variable (h : Lawful K cmp m)
include h

theorem get_of_mem (hord : OrderOn K cmp) {b : κ × List α} (hb : b ∈ m) : m.get cmp b.1 = b.2 := by
  induction m with
  | nil => cases hb
  | cons c m ih =>
    rw [get]
    rcases mem_cons.mp hb with rfl | hb'
    · rw [hord.refl (h.keys b (.head _))]
    have hlt := (pairwise_cons.mp h.sorted).1 b hb'
    have hgt : cmp b.1 c.1 = .gt := by
      rw [hord.swap (h.keys c (.head _)) (h.keys b hb), hlt]
      rfl
    rw [hgt]
    exact ih h.tail hb'

theorem remove (k : κ) (p : α → Bool) : Lawful K cmp (remove cmp k p m) := by
  -- The keys that are left are some of those before.
  have hsub : ((Buckets.remove cmp k p m).map Prod.fst).Sublist (m.map Prod.fst) := by
    clear h
    induction m with
    | nil => exact .slnil
    | cons b m ih =>
      rw [Buckets.remove]
      cases cmp k b.1 with
      | lt => exact .refl _
      | eq =>
        dsimp only
        split
        · exact sublist_cons_self _ _
        · exact .refl _
      | gt => exact ih.cons_cons _
  refine ⟨fun b hb => ?_, ?_⟩
  · obtain ⟨c, hc, hcb⟩ := mem_map.mp (hsub.subset (mem_map_of_mem hb))
    exact hcb ▸ h.keys c hc
  · have hsorted : (m.map Prod.fst).Pairwise fun a b => cmp a b = .lt := pairwise_map.mpr h.sorted
    exact pairwise_map.mp (hsorted.sublist hsub)

theorem push (hord : OrderOn K cmp) (hk : K k) (x : α) : Lawful K cmp (push cmp k x m) := by
  induction m with
  | nil => exact .cons .nil hk (by simp)
  | cons b m ih =>
    rw [Buckets.push]
    cases hb : cmp k b.1 with
    | lt =>
      refine .cons h hk (forall_mem_cons.mpr ⟨hb, h.lt_of_not_gt hord hk ?_⟩)
      simp [hb]
    | eq => exact .cons h.tail (h.keys b (.head _)) (pairwise_cons.mp h.sorted).1
    | gt =>
      refine .cons (ih h.tail) (h.keys b (.head _)) fun c hc => ?_
      rcases key_of_mem_push hc with hc | ⟨d, hd, hc⟩
      · rw [hc, hord.swap hk (h.keys b (.head _)), hb]
        rfl
      · rw [hc]
        exact (pairwise_cons.mp h.sorted).1 d hd

/-- Removing what is held under a key that is the same as `k` for `cmp`. -/
theorem held_remove (hord : OrderOn K cmp) (hK : K k) (hk : k' ∈ held p m)
    (hk' : cmp k k' = .eq) : (held p m).Perm (k' :: held p (Buckets.remove cmp k p m)) := by
  induction m with
  | nil => cases hk
  | cons b m ih =>
    -- Past the first bucket that is not below `k` no key is the same as `k`.
    have hrest : cmp k b.1 ≠ .gt → k' ∉ held p m := fun hb hmem => by
      obtain ⟨c, hc, rfl, -⟩ := mem_held.mp hmem
      rw [h.lt_of_not_gt hord hK hb c hc] at hk'
      cases hk'
    rw [held_cons, mem_append, mem_replicate] at hk
    rw [Buckets.remove]
    cases hb : cmp k b.1 with
    | lt =>
      obtain ⟨-, rfl⟩ := hk.resolve_right (hrest (by simp [hb]))
      rw [hb] at hk'
      cases hk'
    | eq =>
      obtain ⟨hpos, rfl⟩ := hk.resolve_right (hrest (by simp [hb]))
      have hx := countP_pos_iff.mp (Nat.pos_of_ne_zero hpos)
      rw [held_cons, countP_swapRemove hx]
      exact .cons _ (.of_eq (held_removeBucket b).symm)
    | gt =>
      have hmem : k' ∈ held p m := by
        refine hk.resolve_left fun hkb => ?_
        rw [hkb.2, hb] at hk'
        cases hk'
      exact ((ih h.tail hmem).append_left _).trans perm_middle

theorem held_remove_eq_nil (hord : OrderOn K cmp) (hK : K k)
    (hk : held p m = [k']) (hk' : cmp k k' = .eq) : held p (Buckets.remove cmp k p m) = [] := by
  have hmem : k' ∈ held p m := by rw [hk]; exact .head _
  have hperm := h.held_remove hord hK hmem hk'
  rw [hk] at hperm
  exact hperm.cons_inv.symm.eq_nil

end Lawful

/-! ## Maps with less in them -/

/-- Every bucket of `m'` is what is left of a bucket of `m`. -/
def Within (m' m : Buckets κ α) : Prop := ∀ b' ∈ m', ∃ b ∈ m, b.1 = b'.1 ∧ b'.2 ⊆ b.2

theorem Within.refl (m : Buckets κ α) : m.Within m := fun b hb => ⟨b, hb, rfl, List.Subset.refl b.2⟩

theorem Within.trans {m' m'' : Buckets κ α} (h : m''.Within m') (h' : m'.Within m) :
    m''.Within m := by
  intro b hb
  obtain ⟨c, hc, hkey, hsub⟩ := h b hb
  obtain ⟨d, hd, hkey', hsub'⟩ := h' c hc
  exact ⟨d, hd, hkey'.trans hkey, List.Subset.trans hsub hsub'⟩

theorem within_remove : (m.remove cmp k p).Within m := by
  induction m with
  | nil => exact .refl []
  | cons b m ih =>
    have htail : Within m (b :: m) := fun c hc => ⟨c, .tail _ hc, rfl, List.Subset.refl c.2⟩
    rw [remove]
    split
    · exact .refl _
    · dsimp only
      split
      · exact htail
      · intro c hc
        rcases mem_cons.mp hc with rfl | hc
        · exact ⟨b, .head _, rfl,
            List.Subset.trans (perm_swapRemove p b.2).subset (eraseP_subset ..)⟩
        · exact htail c hc
    · intro c hc
      rcases mem_cons.mp hc with rfl | hc
      · exact ⟨c, .head _, rfl, List.Subset.refl c.2⟩
      · exact (ih.trans htail) c hc

theorem exists_bucket_of_mem_get (h : x ∈ m.get cmp k) : ∃ b ∈ m, cmp k b.1 = .eq ∧ x ∈ b.2 := by
  induction m with
  | nil => cases h
  | cons b m ih =>
    rw [get] at h
    split at h
    · cases h
    · next heq => exact ⟨b, .head _, heq, h⟩
    · obtain ⟨c, hc, hx⟩ := ih h
      exact ⟨c, .tail _ hc, hx⟩

section Within

variable {m' : Buckets κ α} (h : m'.Within m)
include h

/-- What is in a bucket is in one with the same key. -/
theorem Within.exists_bucket {P : κ → Prop} (hx : ∃ b ∈ m', P b.1 ∧ x ∈ b.2) :
    ∃ b ∈ m, P b.1 ∧ x ∈ b.2 := by
  obtain ⟨b', hb', hP, hx⟩ := hx
  obtain ⟨b, hb, hkey, hsub⟩ := h b' hb'
  exact ⟨b, hb, hkey ▸ hP, hsub hx⟩

theorem Within.get_subset {K : κ → Prop} (hlawful : m.Lawful K cmp) (hord : OrderOn K cmp)
    (hk : K k) : m'.get cmp k ⊆ m.get cmp k := fun _ hx =>
  (hlawful.mem_get hord hk).mpr
    (h.exists_bucket (P := fun key => cmp k key = .eq) (exists_bucket_of_mem_get hx))

theorem Within.all_filter_subset (p : κ → Bool) :
    Buckets.all (m'.filter fun b => p b.1) ⊆ Buckets.all (m.filter fun b => p b.1) := by
  intro x hx
  obtain ⟨b', hb', hx⟩ := mem_all.mp hx
  obtain ⟨hb', hp⟩ := mem_filter.mp hb'
  obtain ⟨b, hb, hkey, hsub⟩ := h b' hb'
  exact mem_all.mpr ⟨b, mem_filter.mpr ⟨hb, by rwa [hkey]⟩, hsub hx⟩

theorem Within.all_subset : m'.all ⊆ m.all := by
  intro x hx
  obtain ⟨b', hb', hx⟩ := mem_all.mp hx
  obtain ⟨b, hb, -, hsub⟩ := h b' hb'
  exact mem_all.mpr ⟨b, hb, hsub hx⟩

end Within

end Buckets
end PostgresRs
