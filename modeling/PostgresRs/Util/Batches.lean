import Mathlib.Data.List.Nodup

/-!
# Batches in a row

A log that is written in batches, each entry with the tag of its batch.  If the tags of the batches
are distinct, a prefix of the log holds each batch as a whole or not at all exactly if it does not end
between two entries of one batch (`whole_iff_between`).
-/

namespace PostgresRs.Batches

open List

variable {ι α : Type} {i : ι} {b : ι × List α} {bs : List (ι × List α)} {k : Nat}

/-- The entries of a batch. -/
def entries (b : ι × List α) : List (ι × α) :=
  b.2.map fun x => (b.1, x)

/-- The entries of batches in a row. -/
def expand (bs : List (ι × List α)) : List (ι × α) :=
  bs.flatMap entries

/-- The first `k` entries do not end between two entries with the same tag. -/
def Between (log : List (ι × α)) (k : Nat) : Prop :=
  ∀ x y, 0 < k → log[k - 1]? = some x → log[k]? = some y → x.1 ≠ y.1

@[simp] theorem expand_append (bs cs : List (ι × List α)) :
    expand (bs ++ cs) = expand bs ++ expand cs :=
  flatMap_append

@[simp] theorem expand_cons (b : ι × List α) (bs : List (ι × List α)) :
    expand (b :: bs) = entries b ++ expand bs := rfl

@[simp] theorem length_entries (b : ι × List α) : (entries b).length = b.2.length :=
  length_map _

theorem mem_entries {x : ι × α} (h : x ∈ entries b) : x.1 = b.1 := by
  obtain ⟨a, -, rfl⟩ := mem_map.mp h
  rfl

theorem mem_expand {x : ι × α} (h : x ∈ expand bs) : x.1 ∈ bs.map Prod.fst := by
  obtain ⟨b, hb, hx⟩ := mem_flatMap.mp h
  rw [mem_entries hx]
  exact mem_map_of_mem hb

/-- A prefix of the log is some batches and a proper part of the next, or it is all. -/
theorem take_expand (bs : List (ι × List α)) (k : Nat) :
    (expand bs).length ≤ k ∨ ∃ pre b post m, bs = pre ++ b :: post ∧ m < b.2.length ∧
      k = (expand pre).length + m := by
  induction bs generalizing k with
  | nil => exact .inl (Nat.zero_le _)
  | cons b bs ih =>
    rcases Nat.lt_or_ge k b.2.length with hk | hk
    · exact .inr ⟨[], b, bs, k, rfl, hk, (Nat.zero_add k).symm⟩
    rcases ih (k - b.2.length) with hlen | ⟨pre, c, post, m, rfl, hm, hk'⟩
    · rw [expand_cons, length_append, length_entries]
      omega
    · refine .inr ⟨b :: pre, c, post, m, rfl, hm, ?_⟩
      rw [expand_cons, length_append, length_entries]
      omega

/-- A prefix that ends in the batch `b`, after `m` of its entries. -/
theorem take_expand_append {pre post : List (ι × List α)} {m : Nat} (hm : m ≤ b.2.length) :
    (expand (pre ++ b :: post)).take ((expand pre).length + m) =
      expand pre ++ (entries b).take m := by
  rw [expand_append, expand_cons, take_append, take_of_length_le (by omega),
    Nat.add_sub_cancel_left, take_append_of_le_length (by rw [length_entries]; omega)]

theorem exists_getElem?_expand {pre post : List (ι × List α)} {j : Nat} (hj : j < b.2.length) :
    ∃ x, (expand (pre ++ b :: post))[(expand pre).length + j]? = some x ∧ x.1 = b.1 := by
  have hj' : j < (entries b).length := by rwa [length_entries]
  refine ⟨(entries b)[j], ?_, mem_entries (getElem_mem hj')⟩
  rw [expand_append, expand_cons, getElem?_append_right (Nat.le_add_right _ _),
    Nat.add_sub_cancel_left, getElem?_append_left hj', getElem?_eq_getElem hj']

variable [DecidableEq ι]

/-- What the entries with the tag `i` hold. -/
def ofTag (i : ι) (log : List (ι × α)) : List α :=
  log.filterMap fun x => if x.1 = i then some x.2 else none

@[simp] theorem ofTag_append (i : ι) (log log' : List (ι × α)) :
    ofTag i (log ++ log') = ofTag i log ++ ofTag i log' :=
  filterMap_append

theorem ofTag_eq_nil {log : List (ι × α)} (h : ∀ x ∈ log, x.1 ≠ i) : ofTag i log = [] := by
  rw [ofTag, filterMap_eq_nil_iff]
  exact fun x hx => if_neg (h x hx)

theorem ofTag_map (i : ι) (xs : List α) : ofTag i (xs.map fun x => (i, x)) = xs := by
  simp [ofTag, filterMap_map]

theorem ofTag_expand_of_notMem (h : i ∉ bs.map Prod.fst) : ofTag i (expand bs) = [] :=
  ofTag_eq_nil fun _ hx hi => h (hi ▸ mem_expand hx)

theorem ofTag_expand_of_mem (hnodup : (bs.map Prod.fst).Nodup) (hb : b ∈ bs) :
    ofTag b.1 (expand bs) = b.2 := by
  induction bs with
  | nil => cases hb
  | cons c bs ih =>
    rw [map_cons, nodup_cons] at hnodup
    rw [expand_cons, ofTag_append]
    rcases mem_cons.mp hb with rfl | hb
    · rw [entries, ofTag_map, ofTag_expand_of_notMem hnodup.1, append_nil]
    have hne : ∀ x ∈ entries c, x.1 ≠ b.1 := by
      intro x hx heq
      refine hnodup.1 ?_
      rw [← mem_entries hx, heq]
      exact mem_map_of_mem hb
    rw [ofTag_eq_nil hne, nil_append, ih hnodup.2 hb]

/-- A prefix of the log holds a prefix of each batch. -/
theorem prefix_ofTag_take (i : ι) (log : List (ι × α)) (k : Nat) :
    ofTag i (log.take k) <+: ofTag i log :=
  List.IsPrefix.filterMap _ <| take_prefix k log

/-- **Batches as a whole.**  A prefix of the log holds each batch as a whole or not at all exactly if
it does not end between two entries of one batch. -/
theorem whole_iff_between (hnodup : (bs.map Prod.fst).Nodup) (k : Nat) :
    (∀ b ∈ bs, ofTag b.1 ((expand bs).take k) = [] ∨ ofTag b.1 ((expand bs).take k) = b.2) ↔
      Between (expand bs) k := by
  rcases take_expand bs k with hlen | ⟨pre, b, post, m, rfl, hm, rfl⟩
  · refine iff_of_true (fun b hb => .inr ?_) fun x y _ _ hy => ?_
    · rw [take_of_length_le hlen, ofTag_expand_of_mem hnodup hb]
    · rw [getElem?_eq_none hlen] at hy
      cases hy
  · -- The prefix ends in the batch `b`, after `m` of its entries.
    have htake : (expand (pre ++ b :: post)).take ((expand pre).length + m) =
        expand pre ++ (entries b).take m := take_expand_append (Nat.le_of_lt hm)
    rw [map_append] at hnodup
    have hdisjoint := (nodup_append.mp hnodup).2.2
    have hpre : b.1 ∉ pre.map Prod.fst := fun hmem => hdisjoint _ hmem _ mem_cons_self rfl
    have hb : ofTag b.1 (expand pre ++ (entries b).take m) = b.2.take m := by
      rw [ofTag_append, ofTag_expand_of_notMem hpre, nil_append, entries, ← map_take,
        ofTag_map]
    have hget : ∀ j < b.2.length, ∃ x,
        (expand (pre ++ b :: post))[(expand pre).length + j]? = some x ∧ x.1 = b.1 :=
      fun j hj => exists_getElem?_expand hj
    obtain ⟨y', hy', htag⟩ := hget m hm
    constructor
    · intro hwhole x y hk hx hy hxy
      have hm0 : m = 0 := by
        have hcut := hwhole b (by simp)
        rw [htake, hb] at hcut
        rcases hcut with hcut | hcut
        · exact (take_eq_nil_iff.mp hcut).resolve_right (ne_nil_of_length_pos (by omega))
        · have hlen := congrArg List.length hcut
          rw [length_take] at hlen
          omega
      -- The entry before `b` is of an earlier batch.
      subst hm0
      rw [expand_append, getElem?_append_left (by omega)] at hx
      refine hpre ?_
      rw [← htag, ← Option.some.inj (hy.symm.trans hy'), ← hxy]
      exact mem_expand (mem_of_getElem? hx)
    · intro hbetween c hc
      -- Two entries of `b` on either side would have the same tag.
      obtain rfl : m = 0 := by
        by_contra hm0
        obtain ⟨x, hx, hxtag⟩ := hget (m - 1) (by omega)
        refine hbetween x y' (by omega) ?_ hy' (hxtag.trans htag.symm)
        rwa [Nat.add_sub_assoc (by omega)]
      rw [htake, take_zero, append_nil]
      rcases mem_append.mp hc with hc | hc
      · exact .inr (ofTag_expand_of_mem (nodup_append.mp hnodup).1 hc)
      · refine .inl (ofTag_expand_of_notMem fun hmem => ?_)
        exact hdisjoint _ hmem _ (mem_map_of_mem hc) rfl

end PostgresRs.Batches
