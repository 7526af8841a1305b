import PostgresRs.Storage.Toast

/-!
# Lookups in indexes

The lookups of `engine/src/index.rs`: by a whole key, by a leading part of it, by a range, by the
elements of an array, and everything.  They are collected in one type (`Probe`), and `Store.lookup`
gives the row ids that a probe finds.

`Store.Finds probe id key` says in terms of the key of a row when a store that keeps the row under
this key gives it back (`Store.mem_lookup`): a B-tree compares by `cmpValue`, a hash map by the texts
of the keys, BRIN by the least and the greatest value of the block, GIN by the elements.  A B-tree
needs that `cmpValue` is an order on its keys and the values that are looked up.
-/

namespace PostgresRs

namespace Storage

open IndexKey List

/-! ## Probes -/

/-- An end of a range. -/
structure Bound where
  value : Value
  inclusive : Bool
deriving DecidableEq

/-- `BTreeMap::range` does not return if the range is inverted. -/
inductive RangePanic where
  | inverted
deriving DecidableEq, Repr

/-- What is looked up in an index. -/
inductive Probe where
  | eq (key : List Value)
  | oneOf (values : List Value)
  | range (lo hi : Option Bound)
  | leading (key : List Value)
  | all
  | contains (needles : List (List Char))

/-! ## Ranges -/

/-- The upper end of a range in a B-tree: below `NULL` if there is none. -/
def upperEnd (hi : Option Bound) : Bound := hi.getD ⟨.null, false⟩

/-- The values that a probe compares with keys. -/
def Probe.values : Probe → List Value
  | eq key | oneOf key | leading key => key
  | range lo hi => (upperEnd hi).value :: lo.toList.map Bound.value
  | all | contains _ => []

/-- The start of a range is above its end, or they are the same and neither belongs to it. -/
def inverted (lo hi : Option Bound) : Bool :=
  lo.any fun lo =>
    match cmpValue lo.value (upperEnd hi).value with
    | .lt => false
    | .eq => !lo.inclusive && !(upperEnd hi).inclusive
    | .gt => true

/-- A key is not below the start of a range. -/
def aboveStart (lo : Option Bound) (key : List Value) : Bool :=
  lo.all fun lo =>
    match keyCmp [lo.value] key with
    | .lt => true
    | .eq => lo.inclusive
    | .gt => false

/-- A key is not above the end of a range. -/
def belowEnd (hi : Bound) (key : List Value) : Bool :=
  match keyCmp [hi.value] key with
  | .lt => false
  | .eq => hi.inclusive
  | .gt => true

/-- `BrinRange::min_max`: the least and the greatest value of a block other than `NULL`. -/
def minMax (members : List (RowId × Value)) : Option (Value × Value) :=
  match (members.filter fun e => !e.2.isNull).map Prod.snd with
  | [] => none
  | first :: rest =>
    some (rest.foldl (fun b v => if cmpValue v b = .lt then v else b) first,
      rest.foldl (fun b v => if cmpValue v b = .gt then v else b) first)

/-- Whether a block with values from `rmin` to `rmax` can have one in the range. -/
def brinRangeOverlaps (rmin rmax : Value) (lo hi : Option Bound) : Bool :=
  (lo.all fun b =>
    match cmpValue rmax b.value with
    | .lt => false
    | .eq => b.inclusive
    | .gt => true) &&
  hi.all fun b =>
    match cmpValue rmin b.value with
    | .lt => true
    | .eq => b.inclusive
    | .gt => false

/-- Whether a block is looked at for a range. -/
def blockOverlaps (members : List (RowId × Value)) (lo hi : Option Bound) : Bool :=
  (minMax members).any fun (rmin, rmax) => brinRangeOverlaps rmin rmax lo hi

namespace Store

/-- `lookup_range` on the blocks of a BRIN index. -/
def brinRange (ranges : Buckets Nat (RowId × Value)) (lo hi : Option Bound) : List RowId :=
  ranges.flatMap fun range =>
    if blockOverlaps range.2 lo hi then (range.2.filter fun e => !e.2.isNull).map Prod.fst else []

/-! ## Lookups -/

/-- The rows with the whole key `key`. -/
def lookupEq (key : List Value) : Store → List RowId
  | btree tree => tree.get keyCmp key
  | hash map => if keyHasNull key then [] else map.get compare (hashKey key)
  | brin ranges =>
    match key.head? with
    | none => []
    | some v => if v.isNull then [] else brinRange ranges (some ⟨v, true⟩) (some ⟨v, true⟩)
  | gin _ all => all

/-- The rows whose array has all the elements `needles`. -/
def lookupGinContains (needles : List (List Char)) : Store → Option (List RowId)
  | gin postings all =>
    match needles with
    | [] => some all
    | needle :: needles =>
      some (needles.foldl (fun ids n => ids.filter fun id => (postings.get compare n).contains id)
        (postings.get compare needle))
  | _ => none

def allRowIds : Store → List RowId
  | btree tree => tree.all
  | hash map => map.all
  | brin ranges => ranges.all.map Prod.fst
  | gin _ all => all

/-- Whether the key of a bucket starts with `front`. -/
def startsWith (front key : List Value) : Bool :=
  front.length ≤ key.length && (front.zip key).all fun (p, k) => cmpValue p k == .eq

/-- The rows whose key starts with `front`. -/
def lookupPrefix (front : List Value) : Store → List RowId
  | btree tree => Buckets.all (tree.filter fun b => startsWith front b.1)
  | _ => []

/-- The rows with a key in a range. -/
def lookupRange (lo hi : Option Bound) : Store → Except RangePanic (List RowId)
  | brin ranges => .ok (brinRange ranges lo hi)
  | btree tree =>
    if inverted lo hi then .error .inverted
    else
      .ok (Buckets.all (tree.filter fun b =>
        aboveStart lo b.1 && belowEnd (upperEnd hi) b.1 && !(firstValue b.1).isNull))
  | _ => .ok []

/-- The rows that a probe finds. -/
def lookup (s : Store) : Probe → Except RangePanic (List RowId)
  | .eq key => .ok (s.lookupEq key)
  | .oneOf values => .ok (values.flatMap fun v => s.lookupEq [v])
  | .range lo hi => s.lookupRange lo hi
  | .leading key => .ok (s.lookupPrefix key)
  | .all => .ok s.allRowIds
  | .contains needles => .ok ((s.lookupGinContains needles).getD [])

/-- The layout of a store. -/
def layout : Store → IndexMethod
  | btree _ => .btree
  | hash _ => .hash
  | brin _ => .brin
  | gin _ _ => .gin

/-! ## What a lookup finds -/

/-- The key under which a store keeps a row, if it does: a hash map leaves out `NULL`. -/
def kept (s : Store) (key : Option (List Value)) : Option (List Value) :=
  match s with
  | hash _ => key.filter fun key => !keyHasNull key
  | _ => key

/-- A store that keeps the row `id` under `key` gives it back for a whole key. -/
def FindsEq (s : Store) (probe : List Value) (id : RowId) (key : List Value) : Prop :=
  match s with
  | btree _ => keyCmp probe key = .eq
  | hash _ => keyHasNull probe = false ∧ keyHasNull key = false ∧ hashKey probe = hashKey key
  | brin ranges =>
    ∃ v, probe.head? = some v ∧ v.isNull = false ∧ (firstValue key).isNull = false ∧
      blockOverlaps (ranges.get compare (id / brinRangeSize)) (some ⟨v, true⟩) (some ⟨v, true⟩) = true
  | gin _ _ => True

/-- A store that keeps the row `id` under `key` gives it back for a probe. -/
def Finds (s : Store) (probe : Probe) (id : RowId) (key : List Value) : Prop :=
  match probe with
  | .eq k => s.FindsEq k id key
  | .oneOf values => ∃ v ∈ values, s.FindsEq [v] id key
  | .range lo hi =>
    match s with
    | btree _ =>
      aboveStart lo key = true ∧ belowEnd (upperEnd hi) key = true ∧ (firstValue key).isNull = false
    | brin ranges =>
      (firstValue key).isNull = false ∧
        blockOverlaps (ranges.get compare (id / brinRangeSize)) lo hi = true
    | hash _ | gin _ _ => False
  | .leading front =>
    match s with
    | btree _ => startsWith front key = true
    | _ => False
  | .all =>
    match s with
    | hash _ => keyHasNull key = false
    | _ => True
  | .contains needles =>
    match s with
    | gin _ _ => ∀ needle ∈ needles, needle ∈ tokens key
    | _ => False

/-! ### B-trees -/

section Btree

variable {K : Value → Prop} {probe key k : List Value}

theorem isNull_firstValue_of_keyCmp (h : keyCmp key k = .eq) :
    (firstValue key).isNull = (firstValue k).isNull := by
  cases key with
  | nil =>
    cases k with
    | nil => rfl
    | cons w k => cases h
  | cons v key =>
    cases k with
    | nil => cases h
    | cons w k =>
      have hvw : cmpValue v w = .eq := (Ordering.then_eq_eq.mp h).1
      cases v <;> cases w <;> first | rfl | cases hvw

theorem startsWith_cons (p v : Value) (front key : List Value) :
    startsWith (p :: front) (v :: key) = (cmpValue p v == .eq && startsWith front key) := by
  rw [startsWith, startsWith, zip_cons_cons, all_cons, ← Bool.and_assoc, ← Bool.and_assoc,
    Bool.and_comm (cmpValue p v == .eq)]
  simp

/-- Keys that are the same start with the same values. -/
theorem startsWith_congr (hord : Buckets.OrderOn K cmpValue) (hprobe : ∀ v ∈ probe, K v)
    (hkey : ∀ v ∈ key, K v) (hk : ∀ v ∈ k, K v) (h : keyCmp key k = .eq) :
    startsWith probe key = startsWith probe k := by
  induction probe generalizing key k with
  | nil => rfl
  | cons p probe ih =>
    cases key with
    | nil =>
      cases k with
      | nil => rfl
      | cons w k => cases h
    | cons v key =>
      cases k with
      | nil => cases h
      | cons w k =>
        obtain ⟨hvw, htail⟩ := Ordering.then_eq_eq.mp h
        rw [forall_mem_cons] at hprobe hkey hk
        rw [startsWith_cons, startsWith_cons, hord.cmp_congr_right hprobe.1 hkey.1 hk.1 hvw,
          ih hprobe.2 hkey.2 hk.2 htail]

variable {tree : Buckets (List Value) RowId}

/-- What a B-tree finds of a row whose key is the same as `key`. -/
theorem mem_all_filter {id : RowId} {p : List Value → Bool} (hheld : tree.held (· == id) = [k]) :
    id ∈ Buckets.all (tree.filter fun b => p b.1) ↔ p k = true := by
  rw [Buckets.mem_all, ← Buckets.mem_bucket_iff (P := fun k => p k = true) hheld]
  refine exists_congr fun b => ?_
  rw [mem_filter, and_assoc]

theorem mem_lookup_btree (hord : Buckets.OrderOn K cmpValue)
    (hlawful : tree.Lawful (fun key => ∀ v ∈ key, K v) keyCmp) {id : RowId} {pr : Probe}
    {ids : List RowId} (hkey : ∀ v ∈ key, K v) (hprobe : ∀ v ∈ pr.values, K v)
    (hholds : (btree tree).Holds id key) (hids : (btree tree).lookup pr = .ok ids) :
    id ∈ ids ↔ (btree tree).Finds pr id key := by
  obtain ⟨k, hcmp, hheld⟩ := hholds
  have hordKeys := orderOn_keyCmp hord
  have hk : ∀ v ∈ k, K v := by
    obtain ⟨b, hb, rfl, -⟩ := Buckets.mem_held.mp (hheld ▸ mem_singleton_self k)
    exact hlawful.keys b hb
  have hcongr : ∀ p : List Value, (∀ v ∈ p, K v) → keyCmp p key = keyCmp p k := fun p hp =>
    hordKeys.cmp_congr_right hp hkey hk hcmp
  have heq : ∀ p : List Value, (∀ v ∈ p, K v) →
      (id ∈ tree.get keyCmp p ↔ keyCmp p key = .eq) := fun p hp => by
    rw [hlawful.mem_get hordKeys hp, hcongr p hp]
    exact Buckets.mem_bucket_iff (P := fun k => keyCmp p k = .eq) hheld
  cases pr with
  | eq p =>
    cases hids
    exact heq p hprobe
  | oneOf values =>
    cases hids
    rw [mem_flatMap]
    exact exists_congr fun v => and_congr_right fun hv =>
      heq [v] (forall_mem_singleton.mpr (hprobe v hv))
  | range lo hi =>
    rw [lookup, lookupRange] at hids
    split at hids
    · cases hids
    cases hids
    have hend : belowEnd (upperEnd hi) k = belowEnd (upperEnd hi) key := by
      rw [belowEnd, belowEnd, hcongr _ (forall_mem_singleton.mpr (hprobe _ (.head _)))]
    have hstart : aboveStart lo k = aboveStart lo key := by
      cases lo with
      | none => rfl
      | some lo =>
        rw [aboveStart, aboveStart, Option.all_some, Option.all_some,
          hcongr _ (forall_mem_singleton.mpr (hprobe _ (.tail _ (.head _))))]
    rw [mem_all_filter
        (p := fun k => aboveStart lo k && belowEnd (upperEnd hi) k && !(firstValue k).isNull) hheld,
      hstart, hend, ← isNull_firstValue_of_keyCmp hcmp]
    simp [Finds, and_assoc]
  | leading front =>
    cases hids
    have hstarts : startsWith front key = startsWith front k :=
      startsWith_congr hord hprobe hkey hk hcmp
    rw [lookupPrefix, mem_all_filter hheld, ← hstarts]
    rfl
  | all =>
    cases hids
    refine iff_of_true ?_ trivial
    rw [allRowIds, Buckets.mem_all]
    obtain ⟨b, hb, -, hid⟩ := (Buckets.mem_bucket_iff (P := fun _ => True) hheld).mpr trivial
    exact ⟨b, hb, hid⟩
  | contains needles =>
    cases hids
    exact iff_of_false not_mem_nil fun h => h

end Btree

/-! ### The other layouts -/

section Layouts

variable {id : RowId} {key : List Value} {pr : Probe} {ids : List RowId}

theorem mem_lookup_hash {map : Buckets (List Char) RowId}
    (hlawful : map.Lawful (fun _ => True) compare)
    (hholds : map.held (· == id) = [hashKey key]) (hnull : keyHasNull key = false)
    (hids : (hash map).lookup pr = .ok ids) : id ∈ ids ↔ (hash map).Finds pr id key := by
  have heq : ∀ p, id ∈ (hash map).lookupEq p ↔ (hash map).FindsEq p id key := fun p => by
    rw [lookupEq, FindsEq]
    cases hp : keyHasNull p with
    | true => simp
    | false =>
      rw [if_neg (by decide), hlawful.mem_get .of_transCmp trivial,
        Buckets.mem_bucket_iff (P := fun k => compare (hashKey p) k = .eq) hholds,
        Std.LawfulEqCmp.compare_eq_iff_eq]
      simp [hnull]
  cases pr with
  | eq p =>
    cases hids
    exact heq p
  | oneOf values =>
    cases hids
    rw [mem_flatMap]
    exact exists_congr fun v => and_congr_right fun _ => heq [v]
  | range | leading | contains =>
    cases hids
    exact iff_of_false not_mem_nil fun h => h
  | all =>
    cases hids
    refine iff_of_true ?_ hnull
    obtain ⟨b, hb, -, hid⟩ := (Buckets.mem_bucket_iff (P := fun _ => True) hholds).mpr trivial
    exact Buckets.mem_all.mpr ⟨b, hb, hid⟩

variable {ranges : Buckets Nat (RowId × Value)}

theorem mem_brinRange (hlawful : ranges.Lawful (fun _ => True) compare)
    (hholds : (brin ranges).Holds id key) (lo hi : Option Bound) :
    id ∈ brinRange ranges lo hi ↔ (firstValue key).isNull = false ∧
      blockOverlaps (ranges.get compare (id / brinRangeSize)) lo hi = true := by
  obtain ⟨hid, hentry⟩ := hholds
  -- The one entry of the row, and the block that it is in.
  obtain ⟨block, hblock, hno, entry, hmem, hentry'⟩ :=
    Buckets.mem_held.mp (hentry ▸ mem_singleton_self (id / brinRangeSize))
  rw [beq_iff_eq.mp hentry'] at hmem
  have hget : ranges.get compare (id / brinRangeSize) = block.2 := by
    rw [← hno]
    exact hlawful.get_of_mem .of_transCmp hblock
  rw [hget, brinRange, mem_flatMap]
  constructor
  · rintro ⟨range, hrange, hfound⟩
    split at hfound
    · next hoverlaps =>
      obtain ⟨e, he, rfl⟩ := mem_map.mp hfound
      obtain ⟨he, hnull⟩ := mem_filter.mp he
      have hsame : e = (e.1, firstValue key) :=
        Buckets.eq_of_mem_all hid (Buckets.mem_all.mpr ⟨range, hrange, he⟩)
          (Buckets.mem_all.mpr ⟨block, hblock, hmem⟩) (beq_self_eq_true _) (beq_self_eq_true _)
      have hrangeNo : range.1 = e.1 / brinRangeSize :=
        mem_singleton.mp
          (hid ▸ Buckets.mem_held.mpr ⟨range, hrange, rfl, e, he, beq_self_eq_true _⟩)
      have hsnd : range.2 = block.2 := by
        rw [← hget, ← hrangeNo]
        exact (hlawful.get_of_mem .of_transCmp hrange).symm
      rw [hsame] at hnull
      exact ⟨by simpa using hnull, hsnd ▸ hoverlaps⟩
    · cases hfound
  · rintro ⟨hnull, hoverlaps⟩
    refine ⟨block, hblock, ?_⟩
    rw [if_pos hoverlaps]
    exact mem_map.mpr ⟨_, mem_filter.mpr ⟨hmem, by simp [hnull]⟩, rfl⟩

theorem mem_lookup_brin (hlawful : ranges.Lawful (fun _ => True) compare)
    (hholds : (brin ranges).Holds id key) (hids : (brin ranges).lookup pr = .ok ids) :
    id ∈ ids ↔ (brin ranges).Finds pr id key := by
  have hrange := mem_brinRange hlawful hholds
  have heq : ∀ p, id ∈ (brin ranges).lookupEq p ↔ (brin ranges).FindsEq p id key := fun p => by
    rw [lookupEq, FindsEq]
    cases p.head? with
    | none => simp
    | some v => cases hv : v.isNull <;> simp [hrange]
  cases pr with
  | eq p =>
    cases hids
    exact heq p
  | oneOf values =>
    cases hids
    rw [mem_flatMap]
    exact exists_congr fun v => and_congr_right fun _ => heq [v]
  | range lo hi =>
    cases hids
    exact hrange lo hi
  | leading | contains =>
    cases hids
    exact iff_of_false not_mem_nil fun h => h
  | all =>
    cases hids
    refine iff_of_true ?_ trivial
    obtain ⟨block, hblock, -, entry, hmem, hentry⟩ :=
      Buckets.mem_held.mp (hholds.2 ▸ mem_singleton_self (id / brinRangeSize))
    rw [beq_iff_eq.mp hentry] at hmem
    exact mem_map.mpr ⟨_, Buckets.mem_all.mpr ⟨block, hblock, hmem⟩, rfl⟩

theorem mem_foldl_filter {β : Type} {p : β → RowId → Bool} {needles : List β} {found : List RowId} :
    id ∈ needles.foldl (fun ids n => ids.filter (p n)) found ↔
      id ∈ found ∧ ∀ n ∈ needles, p n id = true := by
  induction needles generalizing found with
  | nil => simp
  | cons n needles ih =>
    rw [foldl_cons, ih, mem_filter, forall_mem_cons, and_assoc]

theorem mem_lookup_gin {postings : Buckets (List Char) RowId} {all : List RowId}
    (hlawful : postings.Lawful (fun _ => True) compare) (hholds : (gin postings all).Holds id key)
    (hids : (gin postings all).lookup pr = .ok ids) :
    id ∈ ids ↔ (gin postings all).Finds pr id key := by
  obtain ⟨htokens, hcount⟩ := hholds
  have hall : id ∈ all := count_pos_iff.mp (by rw [hcount]; exact Nat.one_pos)
  have hget : ∀ tok, id ∈ postings.get compare tok ↔ tok ∈ tokens key := fun tok => by
    rw [hlawful.mem_get .of_transCmp trivial, ← htokens.mem_iff, Buckets.mem_held]
    refine exists_congr fun b => and_congr_right fun _ => ?_
    rw [Std.LawfulEqCmp.compare_eq_iff_eq, eq_comm]
    simp
  cases pr with
  | eq | all =>
    cases hids
    exact iff_of_true hall trivial
  | oneOf values =>
    cases hids
    rw [mem_flatMap]
    exact exists_congr fun v => and_congr_right fun _ => iff_of_true hall trivial
  | range | leading =>
    cases hids
    exact iff_of_false not_mem_nil fun h => h
  | contains needles =>
    cases needles with
    | nil =>
      cases hids
      exact iff_of_true hall fun n hn => absurd hn not_mem_nil
    | cons needle needles =>
      cases hids
      rw [lookupGinContains, Option.getD_some,
        mem_foldl_filter (p := fun n id => (postings.get compare n).contains id)]
      simp only [contains_iff_mem, hget, Finds, forall_mem_cons]

end Layouts

/-! ### All layouts -/

section All

variable {K : Value → Prop} {s : Store} {id : RowId} {key : Option (List Value)} {pr : Probe}
  {ids : List RowId}

theorem brinRange_sublist (ranges : Buckets Nat (RowId × Value)) (lo hi : Option Bound) :
    (brinRange ranges lo hi).Sublist (ranges.all.map Prod.fst) := by
  induction ranges with
  | nil => exact nil_sublist _
  | cons range ranges ih =>
    rw [brinRange, flatMap_cons, Buckets.all, flatMap_cons, map_append]
    refine .append ?_ ih
    split
    · exact filter_sublist.map _
    · exact nil_sublist _

theorem lookupEq_sublist (s : Store) (key : List Value) :
    (s.lookupEq key).Sublist s.allRowIds := by
  cases s with
  | btree tree => exact Buckets.get_sublist_all
  | hash map =>
    rw [lookupEq]
    split
    · exact nil_sublist _
    · exact Buckets.get_sublist_all
  | brin ranges =>
    rw [lookupEq]
    split
    · exact nil_sublist _
    · split
      · exact nil_sublist _
      · exact brinRange_sublist ranges _ _
  | gin postings all => exact .refl all

/-- A store that has at most one entry of each row gives each row once. -/
theorem nodup_allRowIds (h : ∀ id, s.Lacks id ∨ ∃ key, s.Holds id key) : s.allRowIds.Nodup := by
  have hall : ∀ {κ : Type} {m : Buckets κ RowId},
      (∀ id, m.held (· == id) = [] ∨ ∃ k, m.held (· == id) = [k]) → m.all.Nodup := fun hm =>
    Buckets.nodup_all fun id => by
      rcases hm id with hid | ⟨k, hid⟩ <;> simp [hid]
  cases s with
  | btree tree => exact hall fun id => (h id).imp_right fun ⟨_, k, _, hk⟩ => ⟨k, hk⟩
  | hash map => exact hall fun id => (h id).imp_right fun ⟨_, hk⟩ => ⟨_, hk⟩
  | brin ranges =>
    refine nodup_iff_count_le_one.mpr fun id => ?_
    rw [allRowIds, count_eq_countP, countP_map]
    change ranges.all.countP (·.1 == id) ≤ 1
    rw [← Buckets.length_held]
    rcases h id with hid | ⟨key, hid, -⟩
    · rw [show ranges.held (·.1 == id) = [] from hid]
      exact Nat.zero_le 1
    · rw [hid]
      exact Nat.le_refl 1
  | gin postings all =>
    refine nodup_iff_count_le_one.mpr fun id => ?_
    rcases h id with hid | ⟨key, hid⟩
    · exact hid.2 ▸ Nat.zero_le 1
    · exact hid.2 ▸ Nat.le_refl 1

theorem all_filter_subset {κ : Type} (m : Buckets κ RowId) (p : κ × List RowId → Bool) :
    Buckets.all (m.filter p) ⊆ m.all := by
  intro id hid
  obtain ⟨b, hb, hmem⟩ := Buckets.mem_all.mp hid
  exact Buckets.mem_all.mpr ⟨b, (mem_filter.mp hb).1, hmem⟩

/-- The row ids of a store, those posted under an element included. -/
def posted : Store → List RowId
  | gin postings all => all ++ postings.all
  | s => s.allRowIds

theorem lookup_subset (hids : s.lookup pr = .ok ids) : ids ⊆ s.posted := by
  have hall : s.allRowIds ⊆ s.posted := by
    cases s with
    | gin postings all => exact subset_append_left all postings.all
    | _ => exact List.Subset.refl _
  cases pr with
  | eq k =>
    cases hids
    exact List.Subset.trans (lookupEq_sublist s k).subset hall
  | oneOf values =>
    cases hids
    intro id hid
    obtain ⟨v, -, hid⟩ := mem_flatMap.mp hid
    exact hall ((lookupEq_sublist s [v]).subset hid)
  | range lo hi =>
    cases s with
    | btree tree =>
      rw [lookup, lookupRange] at hids
      split at hids
      · cases hids
      cases hids
      exact all_filter_subset _ _
    | brin ranges =>
      cases hids
      exact (brinRange_sublist _ lo hi).subset
    | _ =>
      cases hids
      exact nil_subset _
  | leading front =>
    cases hids
    cases s with
    | btree tree => exact all_filter_subset _ _
    | _ => exact nil_subset _
  | all =>
    cases hids
    exact hall
  | contains needles =>
    cases hids
    cases s with
    | gin postings all =>
      cases needles with
      | nil => exact subset_append_left all postings.all
      | cons needle needles =>
        intro id hid
        rw [lookupGinContains, Option.getD_some,
          mem_foldl_filter (p := fun n id => (postings.get compare n).contains id)] at hid
        exact mem_append_right all (Buckets.get_sublist_all.subset hid.1)
    | _ => exact nil_subset _

theorem Lacks.not_mem_posted (h : s.Lacks id) : id ∉ s.posted := by
  have hnot : ∀ {κ : Type} {m : Buckets κ RowId}, m.held (· == id) = [] → id ∉ m.all :=
    fun hm hid => by simpa using Buckets.held_eq_nil_iff.mp hm id hid
  cases s with
  | btree | hash => exact hnot h
  | brin ranges =>
    intro hid
    obtain ⟨e, he, rfl⟩ := mem_map.mp hid
    simpa using Buckets.held_eq_nil_iff.mp h e he
  | gin postings all =>
    intro hid
    rcases mem_append.mp hid with hid | hid
    · exact absurd h.2 (count_pos_iff.mpr hid).ne'
    · exact hnot h.1 hid

def isBtree : Store → Bool
  | btree _ => true
  | _ => false

/-- The layouts that compare keys. -/
def compares : Store → Bool
  | btree _ | brin _ => true
  | hash _ | gin _ _ => false

theorem compares_of_isBtree (h : s.isBtree = true) : s.compares = true := by
  cases s with
  | btree => rfl
  | _ => cases h

/-- **What a lookup finds**: a row is among the results if the index has a key for it, and the probe
finds this key. -/
theorem mem_lookup (hord : Buckets.OrderOn K cmpValue)
    (hlawful : s.Lawful fun key => ∀ v ∈ key, K v)
    (hkey : s.isBtree = true → ∀ k, key = some k → ∀ v ∈ k, K v)
    (hprobe : s.isBtree = true → ∀ v ∈ pr.values, K v)
    (hholds : s.HoldsOnly id (s.kept key)) (hids : s.lookup pr = .ok ids) :
    id ∈ ids ↔ ∃ k, key = some k ∧ s.Finds pr id k := by
  have hlacks : s.kept key = none → id ∉ ids := fun hnone hid => by
    rw [hnone] at hholds
    exact Lacks.not_mem_posted hholds (lookup_subset hids hid)
  cases key with
  | none =>
    refine iff_of_false (hlacks ?_) (by simp)
    cases s <;> rfl
  | some k =>
    simp only [Option.some.injEq, exists_eq_left']
    cases s with
    | btree tree => exact mem_lookup_btree hord hlawful (hkey rfl k rfl) (hprobe rfl) hholds hids
    | hash map =>
      cases hnull : keyHasNull k with
      | false =>
        rw [kept, Option.filter_some_pos (by simp [hnull])] at hholds
        exact mem_lookup_hash hlawful hholds hnull hids
      | true =>
        have hnone : (hash map).kept (some k) = none := by
          rw [kept, Option.filter_some_neg (by simp [hnull])]
        refine iff_of_false (hlacks hnone) fun hfinds => ?_
        cases pr <;> simp [Finds, FindsEq, hnull] at hfinds
    | brin ranges => exact mem_lookup_brin hlawful hholds hids
    | gin postings all => exact mem_lookup_gin hlawful hholds hids

/-- Only an inverted range in a B-tree does not return. -/
theorem exists_lookup_eq_ok : (∃ ids, s.lookup pr = .ok ids) ↔
    ∀ lo hi, s.isBtree = true → pr = .range lo hi → inverted lo hi = false := by
  cases pr with
  | range lo hi =>
    cases s with
    | btree tree =>
      rw [lookup, lookupRange]
      cases hinv : inverted lo hi with
      | true => exact iff_of_false (by simp) fun h => by simp [h lo hi rfl rfl] at hinv
      | false =>
        refine iff_of_true ⟨_, rfl⟩ fun lo' hi' _ heq => ?_
        cases heq
        exact hinv
    | _ => exact iff_of_true ⟨_, rfl⟩ nofun
  | _ => exact iff_of_true ⟨_, rfl⟩ nofun

end All

end Store
end Storage
end PostgresRs
