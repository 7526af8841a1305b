import PostgresRs.Exec.PlanMeaning
import PostgresRs.Exec.Source

/-!
# Index scans and full scans

The statements of `engine/src/executor.rs` test their predicate again on every row that an index
gives, so what counts is that the index does not leave out a row.  A predicate compares by
`compare_values`, an index by `cmp_value`, by texts or by elements.  `scansAgree` says that no row is
left out where the two agree on the keys of the rows and the constants that are looked up (`Alike`),
and the range that is looked up is not inverted.
-/

namespace PostgresRs

open List

namespace Storage

open IndexKey

/-! ## Comparisons that agree -/

/-- The order of an index puts `v` where the comparison of conditions puts it. -/
def SameSide (v c : Value) : Prop := ∀ o, Exec.compareValues v c = some o → cmpValue v c = o

/-- What a layout looks at agrees with the comparison of conditions. -/
def Store.AgreesOn (s : Store) (v c : Value) : Prop :=
  match s with
  | .btree _ | .brin _ => SameSide v c
  | .hash _ => Exec.compareValues v c = some .eq → hashValue v = hashValue c
  | .gin _ _ => True

/-- A store compares the key of a row with what is looked up as conditions do.  Where everything is
looked up, a hash map has no key with a `NULL`; and GIN has the elements of an array. -/
def Store.Alike (s : Store) (key : List Value) : Probe → Prop
  | .eq k | .leading k => ∀ p ∈ key.zip k, s.AgreesOn p.1 p.2
  | .oneOf values => ∃ c ∈ values, ∀ v ∈ key, Exec.Compares .eq v c ∧ s.AgreesOn v c
  | .range lo hi => ∀ v ∈ key, ∀ b ∈ lo.toList ++ hi.toList, s.AgreesOn v b.value
  | .all =>
    match s with
    | .hash _ => keyHasNull key = false
    | _ => True
  | .contains needles => ∀ needle ∈ needles, needle ∈ Store.tokens key

/-- The layouts that a probe is meant for. -/
def Store.Fits (s : Store) : Probe → Prop
  | .range _ _ => s.layout = .btree ∨ s.layout = .brin
  | .leading _ => s.layout = .btree
  | .contains _ => s.layout = .gin
  | .eq k => k ≠ []
  | .oneOf _ | .all => True

namespace Store

open Exec

variable {K : Value → Prop} {s : Store} {key k : List Value} {v c : Value} {id : RowId}

/-! ### B-trees -/

section Btree

variable (hord : Buckets.OrderOn K cmpValue)
include hord

theorem cmpValue_of_compares {op : BinaryOp} (hv : K v) (hc : K c) (h : Compares op v c)
    (hside : SameSide v c) : ∃ o, cmpValue c v = o.swap ∧ holds op o = true := by
  obtain ⟨-, -, o, ho, hholds⟩ := h
  exact ⟨o, by rw [hord.swap hv hc, hside o ho], hholds⟩

theorem keyCmp_of_compares (h : Forall₂ (Compares .eq) key k) (hkey : ∀ v ∈ key, K v)
    (hk : ∀ c ∈ k, K c) (hside : ∀ p ∈ key.zip k, SameSide p.1 p.2) : keyCmp k key = .eq := by
  induction h with
  | nil => rfl
  | cons hvc _ ih =>
    rw [forall_mem_cons] at hkey hk
    rw [zip_cons_cons, forall_mem_cons] at hside
    obtain ⟨o, ho, heq⟩ := cmpValue_of_compares hord hkey.1 hk.1 hvc hside.1
    obtain rfl : o = .eq := by simpa [holds] using heq
    rw [keyCmp, ho, ih hkey.2 hk.2 hside.2]
    rfl

theorem startsWith_of_compares (h : Forall₂ (Compares .eq) (key.take k.length) k)
    (hkey : ∀ v ∈ key, K v) (hk : ∀ c ∈ k, K c) (hside : ∀ p ∈ key.zip k, SameSide p.1 p.2) :
    startsWith k key = true := by
  induction k generalizing key with
  | nil => rfl
  | cons c k ih =>
    cases key with
    | nil => cases h
    | cons v key =>
      rw [forall_mem_cons] at hkey hk
      rw [zip_cons_cons, forall_mem_cons] at hside
      rw [length_cons, take_succ_cons, forall₂_cons] at h
      obtain ⟨o, ho, heq⟩ := cmpValue_of_compares hord hkey.1 hk.1 h.1 hside.1
      obtain rfl : o = .eq := by simpa [holds] using heq
      rw [startsWith_cons, ho, ih h.2 hkey.2 hk.2 hside.2]
      rfl

/-- A key in a range is between its ends. -/
theorem finds_range {lo hi : Option Bound} {tree : Buckets (List Value) RowId} (hv : K v)
    (hbounds : ∀ b ∈ lo.toList ++ hi.toList, K b.value ∧ SameSide v b.value)
    (h : (IndexPlan.range lo hi).Asked v) : (btree tree).Finds (.range lo hi) id [v] := by
  obtain ⟨hnull, hlo, hhi⟩ := h
  refine ⟨?_, ?_, hnull⟩
  · cases lo with
    | none => rfl
    | some b =>
      obtain ⟨hb, hside⟩ := hbounds b (.head _)
      obtain ⟨o, ho, hholds⟩ := cmpValue_of_compares hord hv hb (hlo b rfl) hside
      rw [aboveStart, Option.all_some, keyCmp, ho]
      cases hincl : b.inclusive <;> cases o <;> simp_all [holds, keyCmp]
  · cases hi with
    | none =>
      rw [upperEnd, Option.getD_none, belowEnd, keyCmp]
      cases v <;> first | rfl | cases hnull
    | some b =>
      obtain ⟨hb, hside⟩ := hbounds b (mem_append_right _ (.head _))
      obtain ⟨o, ho, hholds⟩ := cmpValue_of_compares hord hv hb (hhi b rfl) hside
      rw [upperEnd, Option.getD_some, belowEnd, keyCmp, ho]
      cases hincl : b.inclusive <;> cases o <;> simp_all [holds, keyCmp]

end Btree

/-! ### Blocks -/

section Blocks

variable {r : Value → Value → Prop} {f : Value → Value → Value} {first : Value} {rest : List Value}

/-- A loop that keeps the one of two values that is below the other ends with one below all. -/
theorem foldl_below (hrefl : ∀ a, K a → r a a)
    (htrans : ∀ a b c, K a → K b → K c → r a b → r b c → r a c)
    (hf : ∀ a b, K a → K b → K (f a b) ∧ r (f a b) a ∧ r (f a b) b) (hfirst : K first)
    (hrest : ∀ v ∈ rest, K v) :
    K (rest.foldl f first) ∧ ∀ v ∈ first :: rest, r (rest.foldl f first) v := by
  induction rest generalizing first with
  | nil => exact ⟨hfirst, forall_mem_singleton.mpr (hrefl first hfirst)⟩
  | cons w rest ih =>
    rw [forall_mem_cons] at hrest
    obtain ⟨hK, hfst, hsnd⟩ := hf first w hfirst hrest.1
    obtain ⟨hfold, hbelow⟩ := ih hK hrest.2
    rw [forall_mem_cons] at hbelow
    refine ⟨hfold, forall_mem_cons.mpr ⟨?_, forall_mem_cons.mpr ⟨?_, hbelow.2⟩⟩⟩
    · exact htrans _ _ _ hfold hK hfirst hbelow.1 hfst
    · exact htrans _ _ _ hfold hK hrest.1 hbelow.1 hsnd

variable (hord : Buckets.OrderOn K cmpValue)
include hord

/-- The values of a block are between its least and its greatest. -/
theorem minMax_spec {members : List (RowId × Value)}
    (hK : ∀ e ∈ members, e.2.isNull = false → K e.2) {e : RowId × Value} (he : e ∈ members)
    (hnull : e.2.isNull = false) : ∃ rmin rmax, minMax members = some (rmin, rmax) ∧ K rmin ∧
      K rmax ∧ cmpValue rmin e.2 ≠ .gt ∧ cmpValue e.2 rmax ≠ .gt := by
  have hmem : e.2 ∈ (members.filter fun e => !e.2.isNull).map Prod.snd :=
    mem_map_of_mem (mem_filter.mpr ⟨he, by simp [hnull]⟩)
  have hall : ∀ v ∈ (members.filter fun e => !e.2.isNull).map Prod.snd, K v := by
    intro v hv
    obtain ⟨e', he', rfl⟩ := mem_map.mp hv
    obtain ⟨he', hnull'⟩ := mem_filter.mp he'
    exact hK e' he' (by simpa using hnull')
  have hrefl : ∀ a, K a → cmpValue a a ≠ .gt := fun a ha => by simp [hord.refl ha]
  rw [minMax]
  generalize (members.filter fun e => !e.2.isNull).map Prod.snd = values at hmem hall ⊢
  cases values with
  | nil => cases hmem
  | cons first rest =>
    rw [forall_mem_cons] at hall
    obtain ⟨hmin, hbelow⟩ := foldl_below (r := fun a b => cmpValue a b ≠ .gt) hrefl
      (fun a b c ha hb hc => hord.trans ha hb hc)
      (f := fun b v => if cmpValue v b = .lt then v else b) (fun a b ha hb => by
        split
        · next hlt => exact ⟨hb, by simp [hlt], hrefl b hb⟩
        · next hlt =>
          refine ⟨ha, hrefl a ha, ?_⟩
          rw [hord.swap hb ha]
          cases hcmp : cmpValue b a <;> simp_all) hall.1 hall.2
    obtain ⟨hmax, habove⟩ := foldl_below (r := fun a b => cmpValue b a ≠ .gt) hrefl
      (fun a b c ha hb hc hab hbc => hord.trans hc hb ha hbc hab)
      (f := fun b v => if cmpValue v b = .gt then v else b) (fun a b ha hb => by
        split
        · next hgt =>
          refine ⟨hb, ?_, hrefl b hb⟩
          rw [hord.swap hb ha, hgt]
          decide
        · next hgt => exact ⟨ha, hrefl a ha, hgt⟩) hall.1 hall.2
    exact ⟨_, _, rfl, hmin, hmax, hbelow _ hmem, habove _ hmem⟩

/-- A block with a value in a range overlaps it. -/
theorem blockOverlaps_of_asked {members : List (RowId × Value)} {lo hi : Option Bound}
    (hK : ∀ e ∈ members, e.2.isNull = false → K e.2) (he : (id, v) ∈ members)
    (hbounds : ∀ b ∈ lo.toList ++ hi.toList, K b.value ∧ SameSide v b.value)
    (h : (IndexPlan.range lo hi).Asked v) : blockOverlaps members lo hi = true := by
  obtain ⟨hnull, hlo, hhi⟩ := h
  have hv : K v := hK _ he hnull
  obtain ⟨rmin, rmax, hminMax, hmin, hmax, hbelow, habove⟩ := minMax_spec hord hK he hnull
  rw [blockOverlaps, hminMax, Option.any_some]
  refine Bool.and_eq_true_iff.mpr ⟨?_, ?_⟩
  · cases lo with
    | none => rfl
    | some b =>
      obtain ⟨hb, hside⟩ := hbounds b (.head _)
      obtain ⟨-, -, o, ho, hholds⟩ := hlo b rfl
      have hvb := hside o ho
      rw [Option.all_some]
      cases hcmp : cmpValue rmax b.value with
      | lt =>
        rw [hord.lt_of_le_of_lt hv hmax hb habove hcmp] at hvb
        subst hvb
        cases hincl : b.inclusive <;> simp [hincl, holds] at hholds
      | eq =>
        have hle := hord.trans hv hmax hb habove (by simp [hcmp])
        cases hincl : b.inclusive <;> simp_all [holds]
      | gt => rfl
  · cases hi with
    | none => rfl
    | some b =>
      obtain ⟨hb, hside⟩ := hbounds b (mem_append_right _ (.head _))
      obtain ⟨-, -, o, ho, hholds⟩ := hhi b rfl
      have hvb := hside o ho
      rw [Option.all_some]
      cases hcmp : cmpValue rmin b.value with
      | lt => rfl
      | eq =>
        cases hincl : b.inclusive with
        | true => rfl
        | false =>
          have hlt : cmpValue v b.value = .lt := by simpa [hincl, holds, hvb] using hholds
          rw [hord.lt_of_le_of_lt hmin hv hb hbelow hlt] at hcmp
          cases hcmp
      | gt =>
        have hgt : cmpValue v b.value = .gt := by
          by_contra hle
          exact hord.trans hmin hv hb hbelow hle hcmp
        cases hincl : b.inclusive <;> simp_all [holds]

end Blocks

/-! ### All layouts -/

/-- Values that are the same are in the range from one to the other. -/
theorem asked_range_of_eq (h : Compares .eq v c) :
    (IndexPlan.range (some ⟨c, true⟩) (some ⟨c, true⟩)).Asked v := by
  obtain ⟨hv, hc, o, ho, heq⟩ := h
  obtain rfl : o = .eq := by simpa [holds] using heq
  exact ⟨hv, fun b hb => by cases hb; exact ⟨hv, hc, .eq, ho, rfl⟩,
    fun b hb => by cases hb; exact ⟨hv, hc, .eq, ho, rfl⟩⟩

theorem hashKey_of_compares (h : Forall₂ (Compares .eq) key k)
    (hash : ∀ p ∈ key.zip k, Exec.compareValues p.1 p.2 = some .eq → hashValue p.1 = hashValue p.2) :
    keyHasNull k = false ∧ keyHasNull key = false ∧ hashKey k = hashKey key := by
  induction h with
  | nil => exact ⟨rfl, rfl, rfl⟩
  | cons hvc _ ih =>
    rw [zip_cons_cons, forall_mem_cons] at hash
    obtain ⟨hv, hc, o, ho, heq⟩ := hvc
    obtain rfl : o = .eq := by simpa [holds] using heq
    obtain ⟨hk, hkey, hhash⟩ := ih hash.2
    rw [keyHasNull] at hk hkey ⊢
    rw [keyHasNull, any_cons, any_cons, hv, hc, hk, hkey, hashKey, hashKey, flatMap_cons,
      flatMap_cons, hash.1 ho]
    exact ⟨rfl, rfl, congrArg _ hhash⟩

theorem value_mem_values {lo hi : Option Bound} {b : Bound} (h : b ∈ lo.toList ++ hi.toList) :
    b.value ∈ (Probe.range lo hi).values := by
  rcases mem_append.mp h with h | h
  · exact .tail _ (mem_map_of_mem h)
  · cases hi with
    | none => cases h
    | some hi => exact mem_singleton.mp h ▸ .head _

/-- The key of one column is one of the values. -/
theorem exists_of_oneOf {values : List Value} (hasked : Asked (.oneOf values) key)
    (halike : s.Alike key (.oneOf values)) :
    ∃ v, key = [v] ∧ ∃ c ∈ values, Compares .eq v c ∧ s.AgreesOn v c := by
  obtain ⟨c, hc, hcompares⟩ := halike
  obtain ⟨c', -, hasked⟩ := hasked
  cases hasked with
  | cons _ h =>
    cases h
    exact ⟨_, rfl, c, hc, hcompares _ (.head _)⟩

theorem finds_btree {tree : Buckets (List Value) RowId} {probe : Probe}
    (hord : Buckets.OrderOn K cmpValue) (hfits : (btree tree).Fits probe) (hkey : ∀ v ∈ key, K v)
    (hprobe : ∀ c ∈ probe.values, K c) (hasked : Asked probe key)
    (halike : (btree tree).Alike key probe) : (btree tree).Finds probe id key := by
  cases probe with
  | eq k => exact keyCmp_of_compares hord hasked hkey hprobe halike
  | oneOf values =>
    obtain ⟨v, rfl, c, hc, hvc, hside⟩ := exists_of_oneOf hasked halike
    exact ⟨c, hc, keyCmp_of_compares hord (.cons hvc .nil) hkey
      (forall_mem_singleton.mpr (hprobe c hc)) (forall_mem_singleton.mpr hside)⟩
  | range lo hi =>
    obtain ⟨v, rfl, hasked⟩ := hasked
    exact finds_range hord (hkey v (.head _))
      (fun b hb => ⟨hprobe _ (value_mem_values hb), halike v (.head _) b hb⟩) hasked
  | leading k => exact startsWith_of_compares hord hasked hkey hprobe halike
  | all => trivial
  | contains needles => cases hfits

theorem finds_hash {map : Buckets (List Char) RowId} {probe : Probe}
    (hfits : (hash map).Fits probe) (hasked : Asked probe key)
    (halike : (hash map).Alike key probe) : (hash map).Finds probe id key := by
  cases probe with
  | eq k => exact hashKey_of_compares hasked halike
  | oneOf values =>
    obtain ⟨v, rfl, c, hc, hvc, hhash⟩ := exists_of_oneOf hasked halike
    exact ⟨c, hc, hashKey_of_compares (.cons hvc .nil) (forall_mem_singleton.mpr hhash)⟩
  | range lo hi => rcases hfits with h | h <;> cases h
  | leading k => cases hfits
  | all => exact halike
  | contains needles => cases hfits

section Brin

variable {ranges : Buckets Nat (RowId × Value)} (hord : Buckets.OrderOn K cmpValue)
  (hK : ∀ e ∈ ranges.get compare (id / brinRangeSize), e.2.isNull = false → K e.2)
include hord hK

theorem findsEq_brin (hmem : (id, v) ∈ ranges.get compare (id / brinRangeSize))
    (hvc : Compares .eq v c) (hc : K c) (hside : SameSide v c) :
    (brin ranges).FindsEq (c :: k) id (v :: key) := by
  refine ⟨c, rfl, hvc.2.1, hvc.1, blockOverlaps_of_asked hord hK hmem ?_ (asked_range_of_eq hvc)⟩
  intro b hb
  obtain rfl : b = ⟨c, true⟩ := by simpa using hb
  exact ⟨hc, hside⟩

theorem finds_brin {probe : Probe} (hfits : (brin ranges).Fits probe)
    (hprobe : ∀ c ∈ probe.values, K c)
    (hmem : (id, firstValue key) ∈ ranges.get compare (id / brinRangeSize))
    (hasked : Asked probe key) (halike : (brin ranges).Alike key probe) :
    (brin ranges).Finds probe id key := by
  cases probe with
  | eq k =>
    cases hasked with
    | nil => exact absurd rfl hfits
    | cons hvc _ => exact findsEq_brin hord hK hmem hvc (hprobe _ (.head _)) (halike _ (.head _))
  | oneOf values =>
    obtain ⟨v, rfl, c, hc, hvc, hside⟩ := exists_of_oneOf hasked halike
    exact ⟨c, hc, findsEq_brin hord hK hmem hvc (hprobe c hc) hside⟩
  | range lo hi =>
    obtain ⟨v, rfl, hasked⟩ := hasked
    exact ⟨hasked.1, blockOverlaps_of_asked hord hK hmem
      (fun b hb => ⟨hprobe _ (value_mem_values hb), halike v (.head _) b hb⟩) hasked⟩
  | leading k => cases hfits
  | all => trivial
  | contains needles => cases hfits

end Brin

/-- **A store finds what is asked for** if it compares as conditions do: its order is one on the keys
and the values that are looked up, and a block of BRIN has values in order. -/
theorem finds_of_alike {probe : Probe} (hord : Buckets.OrderOn K cmpValue) (hfits : s.Fits probe)
    (hkey : s.compares = true → ∀ v ∈ key, K v)
    (hprobe : s.compares = true → ∀ c ∈ probe.values, K c)
    (hblock : ∀ ranges, s = brin ranges →
      (id, firstValue key) ∈ ranges.get compare (id / brinRangeSize) ∧
        ∀ e ∈ ranges.get compare (id / brinRangeSize), e.2.isNull = false → K e.2)
    (hasked : Asked probe key) (halike : s.Alike key probe) : s.Finds probe id key := by
  cases s with
  | btree tree => exact finds_btree hord hfits (hkey rfl) (hprobe rfl) hasked halike
  | hash map => exact finds_hash hfits hasked halike
  | brin ranges =>
    obtain ⟨hmem, hK⟩ := hblock ranges rfl
    exact finds_brin hord hK hfits (hprobe rfl) hmem hasked halike
  | gin postings all =>
    cases probe with
    | eq k => trivial
    | oneOf values =>
      obtain ⟨c, hc, -⟩ := halike
      exact ⟨c, hc, trivial⟩
    | range lo hi => rcases hfits with h | h <;> cases h
    | leading k => cases hfits
    | all => trivial
    | contains needles => exact halike

end Store
end Storage

namespace Exec

open Storage IndexKey

/-! ## The index that is used -/

section Used

variable {ext : Externals} {t : Table} {filter : Expr} {idx : Index} {probe : Probe}
  {K : Value → Prop} {eval : EvalExpr}

theorem layout_of_isOrdered {method : IndexMethod} (h : method.isOrdered = true) :
    (Store.empty method).layout = .btree := by
  cases method <;> first | rfl | cases h

/-- A probe is made for the method of the index. -/
theorem fits_of_indexAccess [BEq Expr] (hlayout : idx.store.layout = (Store.empty idx.method).layout)
    (h : indexAccess ext t filter = some (idx, probe)) : idx.store.Fits probe := by
  obtain ⟨-, ⟨e, -, h⟩ | h | ⟨col, plan, -, rfl, -, hrange⟩⟩ := indexAccess_cases h
  · obtain ⟨left, right, col, -, -, -, -, hgin, needles, rfl⟩ := ginAccess_eq_some h
    rw [Store.Fits, hlayout, hgin]
    rfl
  · rw [advancedAccess] at h
    split at h
    · cases h
    split at h
    · obtain ⟨pair, -, h⟩ := exists_of_findSome?_eq_some h
      obtain ⟨c, -, h⟩ := Option.map_eq_some_iff.mp h
      cases h
      exact cons_ne_nil _ _
    split at h
    · split at h
      · cases h
      split at h <;> cases h
      · exact cons_ne_nil _ _
      · trivial
    · dsimp only at h
      split at h
      · cases h
      next hempty =>
      split at h
      · cases h
        exact fun hnil => hempty (isEmpty_iff.mpr hnil)
      · split at h <;> cases h
        next hordered => exact hlayout.trans (layout_of_isOrdered hordered)
  · cases plan with
    | eq c => exact cons_ne_nil _ _
    | «in» values => trivial
    | range lo hi =>
      refine (hrange lo hi rfl).imp (fun h => hlayout.trans (layout_of_isOrdered h)) fun h => ?_
      rw [hlayout, h]
      rfl

section Brin

variable {ranges : Buckets Nat (RowId × Value)} (ht : t.Maintained eval) (hs : t.Sorted K eval idx)
  (hidx : idx ∈ t.indexes) (hstore : idx.store = .brin ranges)
include ht hs hidx hstore

omit hs in
theorem holdsOnly_brin : ∀ e ∈ t.view, ∃ key, t.entryKey eval idx e.2 = .ok key ∧
    (Store.brin ranges).HoldsOnly e.1 key := by
  intro e he
  obtain ⟨key, hkey, hholds⟩ := ht.holds idx hidx e he
  rw [hstore] at hholds
  exact ⟨key, hkey, hholds⟩

/-- The values in the blocks are keys of rows. -/
theorem isKey_of_mem_all {m : RowId × Value} (hm : m ∈ ranges.all) (hnull : m.2.isNull = false) :
    K m.2 := by
  -- The entry belongs to a row, since the index has none for others.
  have hsome : ¬(Store.brin ranges).Lacks m.1 := fun hlacks => by
    simpa using Buckets.held_eq_nil_iff.mp hlacks m hm
  have hrow : m.1 ∈ t.rowIds := by
    by_contra hnot
    exact hsome (hstore ▸ ht.lacks idx hidx m.1 hnot)
  obtain ⟨pos, hpos⟩ := mem_iff_getElem?.mp hrow
  have hlt : pos < t.rows.length := ht.length ▸ (List.getElem?_eq_some_iff.mp hpos).1
  have hview : (m.1, t.detoastRow t.rows[pos]) ∈ t.view :=
    mem_of_getElem? (Table.view_getElem?_eq_some.mpr ⟨_, getElem?_eq_getElem hlt, hpos, rfl⟩)
  obtain ⟨key, hkey, hentry⟩ := holdsOnly_brin ht hidx hstore _ hview
  cases key with
  | none => exact absurd hentry hsome
  | some k =>
    obtain ⟨hid, hentry⟩ := hentry
    obtain ⟨block, hblock, -, entry, hmem, heq⟩ :=
      Buckets.mem_held.mp (hentry ▸ mem_singleton_self (m.1 / brinRangeSize))
    have hsame : m = (m.1, Store.firstValue k) :=
      Buckets.eq_of_mem_all hid hm
        (Buckets.mem_all.mpr ⟨block, hblock, beq_iff_eq.mp heq ▸ hmem⟩) (beq_self_eq_true _)
        (beq_self_eq_true _)
    rw [hsame] at hnull ⊢
    cases k with
    | nil => cases hnull
    | cons v k =>
      refine hs.keys ?_ _ hview _ hkey v (.head _)
      rw [hstore]
      rfl

/-- The block of a row has the value of the row, and values in order. -/
theorem mem_block {e : RowId × List Value} {k : List Value} (he : e ∈ t.view)
    (hkey : t.entryKey eval idx e.2 = .ok (some k)) :
    (e.1, Store.firstValue k) ∈ ranges.get compare (e.1 / brinRangeSize) ∧
      ∀ m ∈ ranges.get compare (e.1 / brinRangeSize), m.2.isNull = false → K m.2 := by
  have hlawful : ranges.Lawful (fun _ => True) compare := by
    have := hs.lawful
    rwa [hstore] at this
  refine ⟨?_, fun m hm => isKey_of_mem_all ht hs hidx hstore (Buckets.get_sublist_all.subset hm)⟩
  obtain ⟨key, hkey', hentry⟩ := holdsOnly_brin ht hidx hstore e he
  obtain rfl := Except.ok.inj (hkey.symm.trans hkey')
  obtain ⟨block, hblock, hno, entry, hmem, heq⟩ :=
    Buckets.mem_held.mp (hentry.2 ▸ mem_singleton_self (e.1 / brinRangeSize))
  rw [← hno, hlawful.get_of_mem .of_transCmp hblock, ← beq_iff_eq.mp heq]
  exact hmem

end Brin

/-- A row is found if its key is what is asked for, and is compared as conditions compare it. -/
theorem mem_lookup_of_asked {e : RowId × List Value} {k : List Value} {ids : List RowId}
    (ht : t.Maintained eval) (hs : t.Sorted K eval idx) (hidx : idx ∈ t.indexes) (he : e ∈ t.view)
    (hkey : t.entryKey eval idx e.2 = .ok (some k)) (hfits : idx.store.Fits probe)
    (hconstants : idx.store.compares = true → ∀ v ∈ probe.values, K v) (hasked : Asked probe k)
    (halike : idx.store.Alike k probe) (hids : idx.store.lookup probe = .ok ids) : e.1 ∈ ids := by
  obtain ⟨key, hkey', hholds⟩ := ht.holds idx hidx e he
  obtain rfl := Except.ok.inj (hkey.symm.trans hkey')
  have hK : idx.store.compares = true → ∀ v ∈ k, K v := fun hstore => hs.keys hstore e he k hkey
  refine (Store.mem_lookup hs.order hs.lawful (fun hstore k' hk' => ?_)
    (fun hstore => hconstants (Store.compares_of_isBtree hstore)) hholds hids).mpr ⟨k, rfl, ?_⟩
  · exact Option.some.inj hk' ▸ hK (Store.compares_of_isBtree hstore)
  · exact Store.finds_of_alike hs.order hfits hK hconstants
      (fun ranges hstore => mem_block ht hs hidx hstore he hkey) hasked halike

end Used

/-! ## Index scans and full scans -/

section Scans

variable [BEq Expr] (ext : Externals) (t : Table) (names : List String) (filter : Expr)

/-- The predicate is true on the row at a position. -/
def trueAt (pos : Nat) : Bool := t.view[pos]?.any fun e => isTrueOn ext names filter e.2

/-- The planner returns, and the positions that it gives include every position on which the
predicate is true.  So UPDATE and DELETE act on the same rows, each once, as without indexes; and a
SELECT keeps, up to order, the same rows, on a machine with `available` threads of which new ones
have the functions `fresh`. -/
structure ScansAgree (available : Nat) (fresh : Functions) : Prop where
  includes : ∃ found, indexCandidatePositions ext t filter = .ok found ∧
    ∀ positions, found = some positions →
      ∀ pos, trueAt ext t names filter pos = true → pos ∈ positions
  sameRows : ∃ positions, candidatePositions ext t (some filter) = .ok positions ∧
    (positions.filter (trueAt ext t names filter)).Perm
      ((List.range t.rows.length).filter (trueAt ext t names filter)) ∧
    ∃ rows kept all, Relations.rowsAt t positions = .ok rows ∧
      filterSelectRows (passesOn ext names (some filter)) available fresh ext.scalarFunction rows =
        .ok kept ∧
      filterSelectRows (passesOn ext names (some filter)) available fresh ext.scalarFunction
        (t.rows.map t.detoastRow) = .ok all ∧ kept.Perm all

/-- What an index that is used for a condition needs: its order is one on its keys and the values that
are looked up, a range is not inverted, and the keys of the rows of which the condition is true are
compared as the condition compares them. -/
structure Usable (K : Value → Prop) (idx : Index) (probe : Probe) : Prop where
  sorted : t.Sorted K (evalIndex ext) idx
  constants : idx.store.compares = true → ∀ v ∈ probe.values, K v
  upright : ∀ lo hi, idx.store.isBtree = true → probe = .range lo hi → inverted lo hi = false
  alike : ∀ e ∈ t.view, isTrueOn ext names filter e.2 = true →
    ∀ key, t.entryKey (evalIndex ext) idx e.2 = .ok (some key) → idx.store.Alike key probe

variable {ext t names filter} {K : Value → Prop} {idx : Index} {probe : Probe} {ids : List RowId}

section Positions

omit [BEq Expr]

theorem nodup_eraseDups (l : List Nat) : l.eraseDups.Nodup := by
  induction hn : l.length using Nat.strong_induction_on generalizing l with
  | _ n ih =>
    cases l with
    | nil => exact .nil
    | cons a l =>
      rw [eraseDups_cons]
      have hlen : (l.filter fun b => !b == a).length < n := by
        rw [← hn, length_cons]
        exact Nat.lt_succ_of_le (length_filter_le _ l)
      refine .cons (fun ha => ?_) (ih _ hlen _ rfl)
      rw [mem_eraseDups, mem_filter] at ha
      simp at ha

theorem length_le_of_nodup {positions : List Nat} {n : Nat} (h : positions.Nodup)
    (hlt : ∀ pos ∈ positions, pos < n) : positions.length ≤ n := by
  simpa using (subperm_of_subset h (fun pos hpos => mem_range.mpr (hlt pos hpos)) :
    positions <+~ List.range n).length_le

theorem trueAt_iff {pos : Nat} : trueAt ext t names filter pos = true ↔
    ∃ e, t.view[pos]? = some e ∧ isTrueOn ext names filter e.2 = true := Option.any_eq_true _ _

theorem trueAt_lt {pos : Nat} (h : trueAt ext t names filter pos = true) : pos < t.rows.length := by
  obtain ⟨e, he, -⟩ := trueAt_iff.mp h
  obtain ⟨stored, hrow, -⟩ := Table.view_getElem?_eq_some.mp he
  exact (List.getElem?_eq_some_iff.mp hrow).1

/-- The row at a position. -/
def rowAt (t : Table) (pos : Nat) : List Value := t.detoastRow (t.rows[pos]?.getD [])

theorem rowsAt_eq_ok {positions : List Nat} (h : ∀ pos ∈ positions, pos < t.rows.length) :
    Relations.rowsAt t positions = .ok (positions.map (rowAt t)) := by
  refine mapM_eq_ok_of_forall fun pos hpos => ?_
  rw [getElem?_eq_getElem (h pos hpos), rowAt, getElem?_eq_getElem (h pos hpos)]
  rfl

theorem map_rowAt_range (t : Table) :
    (List.range t.rows.length).map (rowAt t) = t.rows.map t.detoastRow := by
  refine ext_getElem (by simp) fun i hi hi' => ?_
  have hlt : i < t.rows.length := by simpa using hi
  rw [getElem_map, getElem_map, getElem_range, rowAt, getElem?_eq_getElem hlt]
  rfl

theorem accepted_passes (row : List Value) :
    accepted (passes ext names (some filter) row) = isTrueOn ext names filter row := by
  rw [passes, isTrueOn]
  cases evalExpr ext names row filter <;> rfl

variable (ht : t.Maintained (evalIndex ext))
include ht

theorem view_of_lt {pos : Nat} (h : pos < t.rows.length) :
    ∃ id, t.view[pos]? = some (id, rowAt t pos) := by
  have hid : pos < t.rowIds.length := ht.length ▸ h
  refine ⟨t.rowIds[pos], Table.view_getElem?_eq_some.mpr ⟨_, getElem?_eq_getElem h,
    getElem?_eq_getElem hid, ?_⟩⟩
  rw [rowAt, getElem?_eq_getElem h]
  rfl

/-- A row in view is among the positions of its id only. -/
theorem mem_idsToPositions {pos : Nat} {e : RowId × List Value} (he : t.view[pos]? = some e) :
    pos ∈ t.idsToPositions ids ↔ e.1 ∈ ids := by
  obtain ⟨stored, -, hid, -⟩ := Table.view_getElem?_eq_some.mp he
  rw [Table.idsToPositions, mem_filterMap]
  constructor
  · rintro ⟨id, hmem, hpos⟩
    rw [ht.position, hid] at hpos
    exact Option.some.inj hpos ▸ hmem
  · exact fun hmem => ⟨e.1, hmem, (ht.position _ _).mpr hid⟩

theorem lt_of_mem_idsToPositions {pos : Nat} (h : pos ∈ t.idsToPositions ids) :
    pos < t.rows.length := by
  obtain ⟨id, -, hpos⟩ := mem_filterMap.mp h
  exact ht.length ▸ (List.getElem?_eq_some_iff.mp ((ht.position id pos).mp hpos)).1

theorem nodup_idsToPositions (h : ids.Nodup) : (t.idsToPositions ids).Nodup := by
  refine h.filterMap fun id id' pos hpos hpos' => ?_
  have hid := (ht.position id pos).mp hpos
  rw [(ht.position id' pos).mp hpos'] at hid
  exact (Option.some.inj hid).symm

/-- The rows that a SELECT keeps of those at some positions. -/
theorem filter_map_rowAt {positions : List Nat} (h : ∀ pos ∈ positions, pos < t.rows.length) :
    ((positions.map (rowAt t)).filter fun row => accepted (passes ext names (some filter) row)) =
      (positions.filter (trueAt ext t names filter)).map (rowAt t) := by
  rw [filter_map]
  refine congrArg _ (filter_congr fun pos hpos => ?_)
  obtain ⟨id, hview⟩ := view_of_lt ht (h pos hpos)
  rw [Function.comp_apply, accepted_passes, trueAt, hview]
  rfl

end Positions

/-- The rows of which the condition is true are among those that a usable index finds. -/
theorem Usable.mem_lookup [LawfulBEq Expr] (ht : t.Maintained (evalIndex ext))
    (hnames : NamesAgree t names) (haccess : indexAccess ext t filter = some (idx, probe))
    (h : Usable ext t names filter K idx probe) (hids : idx.store.lookup probe = .ok ids)
    {e : RowId × List Value} (he : e ∈ t.view) (htrue : isTrueOn ext names filter e.2 = true) :
    e.1 ∈ ids := by
  have hidx := (indexAccess_cases haccess).1
  obtain ⟨key, hkey, -⟩ := ht.holds idx hidx e he
  obtain ⟨k, rfl, hasked⟩ := asked_of_indexAccess hnames haccess htrue hkey
  exact mem_lookup_of_asked ht h.sorted hidx he hkey
    (fits_of_indexAccess (ht.layout idx hidx) haccess) h.constants hasked
    (h.alike e he htrue k hkey) hids

section Filter

variable {available : Nat} {fresh : Functions} {positions : List Nat}
  (ht : t.Maintained (evalIndex ext))
  (heval : ∀ row ∈ t.rows, ∃ v, evalExpr ext names (t.detoastRow row) filter = .ok v)
  (hthreads : parallelSelectWorkerCount available t.rows.length ≤ 1 ∨
    ∀ row ∈ t.rows, AnsweredAlike ext names (some filter) fresh (t.detoastRow row))
  (hrange : ∀ pos ∈ positions, pos < t.rows.length)
include ht heval hthreads hrange

omit [BEq Expr] in
/-- The filter of a SELECT keeps the rows on which the predicate is true. -/
theorem filterSelectRows_rowAt (hlength : positions.length ≤ t.rows.length) :
    filterSelectRows (passesOn ext names (some filter)) available fresh ext.scalarFunction
      (positions.map (rowAt t)) =
        .ok ((positions.filter (trueAt ext t names filter)).map (rowAt t)) := by
  have hrow : ∀ row ∈ positions.map (rowAt t), ∃ stored ∈ t.rows, row = t.detoastRow stored := by
    intro row hrow
    obtain ⟨pos, hpos, rfl⟩ := mem_map.mp hrow
    have hlt := hrange pos hpos
    refine ⟨t.rows[pos], getElem_mem _, ?_⟩
    rw [rowAt, getElem?_eq_getElem hlt]
    rfl
  refine (filterSelectRows_passesOn (hthreads.imp (fun h => ?_) fun h row hmem => ?_)).mpr
    ⟨fun row hmem => ?_, (filter_map_rowAt ht hrange).symm⟩
  · exact workerCount_le_one h (by rwa [length_map])
  · obtain ⟨stored, hstored, rfl⟩ := hrow row hmem
    exact h stored hstored
  · obtain ⟨stored, hstored, rfl⟩ := hrow row hmem
    obtain ⟨v, hv⟩ := heval stored hstored
    exact ⟨v.isTrue, by rw [passes, hv]⟩

/-- Everything follows from the positions, each once, with all on which the predicate is true. -/
theorem scansAgree_of_positions (hpositions : candidatePositions ext t (some filter) = .ok positions)
    (hnodup : positions.Nodup) (hall : ∀ pos, trueAt ext t names filter pos = true → pos ∈ positions)
    (hincludes : ∃ found, indexCandidatePositions ext t filter = .ok found ∧
      ∀ positions, found = some positions →
        ∀ pos, trueAt ext t names filter pos = true → pos ∈ positions) :
    ScansAgree ext t names filter available fresh := by
  have hperm : (positions.filter (trueAt ext t names filter)).Perm
      ((List.range t.rows.length).filter (trueAt ext t names filter)) := by
    refine (perm_ext_iff_of_nodup (hnodup.filter _) (nodup_range.filter _)).mpr fun pos => ?_
    rw [mem_filter, mem_filter, mem_range]
    exact ⟨fun h => ⟨trueAt_lt h.2, h.2⟩, fun h => ⟨hall pos h.2, h.2⟩⟩
  have hkept := filterSelectRows_rowAt ht heval hthreads hrange (length_le_of_nodup hnodup hrange)
  refine ⟨hincludes, positions, hpositions, hperm, _, _, _, rowsAt_eq_ok hrange, hkept, ?_,
    hperm.map (rowAt t)⟩
  rw [← map_rowAt_range]
  exact filterSelectRows_rowAt ht heval hthreads (fun pos => mem_range.mp) (by rw [length_range])

end Filter

end Scans

/-! ### Integers -/

/-- A table with one integer column and an index on it. -/
def indexedIntegers (name : String) (values : List Int) : Table :=
  { Table.new name [⟨"x", .int8, false⟩] with
    rows := values.map fun i => [.int i]
    rowIds := List.range values.length
    rowPos := (List.range values.length).foldl (fun m i => m.insert i i) ∅
    nextRowId := values.length
    indexes := [{ Index.new "i" 0 false with
      store := .btree (values.zipIdx.map fun e => ([.int e.1], [e.2])) }] }

section Integers

variable {name : String} {values : List Int}

theorem lookup_foldl_insert (n id : Nat) :
    ((List.range n).foldl (fun m i => m.insert i i) (∅ : AList fun _ : Nat => Nat)).lookup id =
      if id < n then some id else none := by
  induction n with
  | zero => rfl
  | succ n ih =>
    rw [range_succ, foldl_append, foldl_cons, foldl_nil]
    rcases eq_or_ne id n with rfl | hne
    · rw [AList.lookup_insert, if_pos (Nat.lt_succ_self id)]
    · rw [AList.lookup_insert_ne hne, ih]
      exact if_congr (by omega) rfl rfl

/-- The integers are held under themselves. -/
theorem held_indexedIntegers {e : Int × Nat} (he : e ∈ values.zipIdx) :
    Buckets.held (· == e.2) (values.zipIdx.map fun e => ([Value.int e.1], [e.2])) =
      [[Value.int e.1]] := by
  have hfilter : ∀ l : List (Int × Nat), (l.map Prod.snd).Nodup → e ∈ l →
      l.filter (·.2 == e.2) = [e] := by
    intro l hnodup hmem
    refine perm_singleton.mp ((perm_ext_iff_of_nodup ?_ (nodup_singleton e)).mpr fun x => ?_)
    · exact (Nodup.of_map _ hnodup).filter _
    · rw [mem_filter, mem_singleton, beq_iff_eq]
      refine ⟨fun h => inj_on_of_nodup_map hnodup h.1 hmem h.2, ?_⟩
      rintro rfl
      exact ⟨hmem, rfl⟩
  have hheld : ∀ l : List (Int × Nat), Buckets.held (· == e.2)
      (l.map fun e => ([Value.int e.1], [e.2])) =
        (l.filter (·.2 == e.2)).map fun e => [Value.int e.1] := by
    intro l
    induction l with
    | nil => rfl
    | cons x l ih =>
      rw [map_cons, Buckets.held_cons, ih, filter_cons, countP_singleton]
      cases hx : x.2 == e.2 <;> rfl
  rw [hheld, hfilter _ _ he]
  · rfl
  · rw [zipIdx_map_snd]
    exact nodup_range'

theorem mem_view_indexedIntegers {e : RowId × List Value}
    (he : e ∈ (indexedIntegers name values).view) :
    ∃ x ∈ values.zipIdx, e = (x.2, [.int x.1]) := by
  obtain ⟨pos, hpos⟩ := mem_iff_getElem?.mp he
  obtain ⟨stored, hstored, hid, hrow⟩ := Table.view_getElem?_eq_some.mp hpos
  rw [indexedIntegers, getElem?_map, Option.map_eq_some_iff] at hstored
  obtain ⟨i, hi, rfl⟩ := hstored
  refine ⟨(i, pos), mk_mem_zipIdx_iff_getElem?.mpr hi, Prod.ext ?_ hrow.symm⟩
  have hlt := (List.getElem?_eq_some_iff.mp hid).1
  rw [indexedIntegers, getElem?_range (by simpa [indexedIntegers] using hlt)] at hid
  exact (Option.some.inj hid).symm

theorem maintained_indexedIntegers (eval : EvalExpr) :
    (indexedIntegers name values).Maintained eval where
  length := by simp [indexedIntegers]
  position id pos := by
    rw [Table.positionOf, indexedIntegers, lookup_foldl_insert, List.getElem?_eq_some_iff]
    simp only [getElem_range, length_range, exists_prop]
    split
    · next hlt =>
      rw [Option.some.injEq]
      exact ⟨fun h => ⟨h ▸ hlt, h.symm⟩, fun h => h.2.symm⟩
    · next hlt => exact iff_of_false (fun h => nomatch h) fun h => hlt (h.2 ▸ h.1)
  layout idx hidx := by
    obtain rfl := mem_singleton.mp hidx
    rfl
  holds idx hidx e he := by
    obtain rfl := mem_singleton.mp hidx
    obtain ⟨x, hx, rfl⟩ := mem_view_indexedIntegers he
    refine ⟨some [.int x.1], rfl, [.int x.1], ?_, held_indexedIntegers hx⟩
    exact (orderOn_keyCmp orderOn_isPlain).refl (by simp [IsPlain])
  lacks idx hidx id hid := by
    obtain rfl := mem_singleton.mp hidx
    refine Buckets.held_eq_nil_iff.mpr fun id' hid' => beq_false_of_ne ?_
    rintro rfl
    obtain ⟨b, hb, hmem⟩ := Buckets.mem_all.mp hid'
    obtain ⟨x, hx, rfl⟩ := mem_map.mp hb
    refine hid ?_
    rw [mem_singleton.mp hmem, indexedIntegers, mem_range]
    exact snd_lt_of_mem_zipIdx hx

/-- The B-tree of integers in ascending order is sorted. -/
theorem sorted_indexedIntegers (h : values.Pairwise (· < ·)) (eval : EvalExpr) :
    ∀ idx ∈ (indexedIntegers name values).indexes,
      (indexedIntegers name values).Sorted IsPlain eval idx := by
  intro idx hidx
  obtain rfl := mem_singleton.mp hidx
  refine ⟨orderOn_isPlain, ⟨?_, ?_⟩, fun _ e he k hk => ?_⟩
  · intro b hb
    obtain ⟨x, -, rfl⟩ := mem_map.mp hb
    simp [IsPlain]
  · rw [← zipIdx_map_fst 0 values, pairwise_map] at h
    rw [pairwise_map]
    refine h.imp fun hlt => ?_
    rw [keyCmp, cmpValue, compare_lt_iff_lt.mpr hlt]
    rfl
  · obtain ⟨x, -, rfl⟩ := mem_view_indexedIntegers he
    cases hk
    simp [IsPlain]

end Integers

/-- The equality of expressions that is derived in the source. -/
@[reducible] noncomputable def derivedBEq : BEq Expr :=
  @instBEqOfDecidableEq Expr (Classical.decEq Expr)

theorem lawful_derivedBEq : @LawfulBEq Expr derivedBEq := by
  let _ := Classical.decEq Expr
  exact inferInstance

theorem undotted_indexedIntegers (name : String) (values : List Int) :
    Undotted (indexedIntegers name values) := by
  intro c hc
  obtain rfl := mem_singleton.mp hc
  decide

/-- Integers are compared in one way. -/
theorem sameSide_int (i j : Int) : SameSide (.int i) (.int j) := fun _ h => Option.some.inj h

/-- The index on integers can be used for a range from an integer on. -/
theorem usable_indexedIntegers {name : String} {values : List Int} (h : values.Pairwise (· < ·))
    {names : List String} {filter : Expr} {idx : Index} (hidx : idx ∈ (indexedIntegers name values).indexes)
    (i : Int) (inclusive : Bool) :
    Usable bareExternals (indexedIntegers name values) names filter IsPlain idx
      (.range (some ⟨.int i, inclusive⟩) none) := by
  refine ⟨sorted_indexedIntegers h _ _ hidx, fun _ v hv => ?_, fun _ _ _ h => ?_,
    fun e he _ key hkey => ?_⟩
  · rcases mem_cons.mp hv with rfl | hv
    · trivial
    · obtain rfl := mem_singleton.mp hv
      trivial
  · cases h
    rfl
  · obtain rfl := mem_singleton.mp hidx
    obtain ⟨x, -, rfl⟩ := mem_view_indexedIntegers he
    cases hkey
    intro v hv b hb
    obtain rfl := mem_singleton.mp hv
    obtain rfl := mem_singleton.mp hb
    exact sameSide_int _ _

end Exec
end PostgresRs
