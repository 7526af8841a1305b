import PostgresRs.Exec.IndexScan

/-!
# Plans and the rows of a table

Which index is used for a condition, and what is looked up in it, depends on the definitions of the
indexes and not on the rows that they hold.  So a statement that deletes rows leaves the plans as
they are (`samePlan_indexAccess`), and what is looked up after it has been found before
(`Store.Within.lookup_subset`).
-/

namespace PostgresRs

open Storage

namespace Storage

open IndexKey List

/-! ## Stores with less in them -/

namespace Store

/-- The entries of a store are what is left of those of another. -/
def Within : Store → Store → Prop
  | btree tree', btree tree => tree'.Within tree
  | hash map', hash map => map'.Within map
  | brin ranges', brin ranges => ranges'.Within ranges
  | gin postings' all', gin postings all => postings'.Within postings ∧ all' ⊆ all
  | _, _ => False

theorem Within.refl (s : Store) : s.Within s := by
  cases s with
  | gin postings all => exact ⟨.refl postings, List.Subset.refl all⟩
  | _ => exact Buckets.Within.refl _

theorem Within.trans {s s' s'' : Store} (h : s''.Within s') (h' : s'.Within s) : s''.Within s := by
  cases s <;> cases s' <;> cases s'' <;>
    first
    | exact Buckets.Within.trans h h'
    | exact ⟨h.1.trans h'.1, List.Subset.trans h.2 h'.2⟩
    | exact False.elim h
    | exact False.elim h'

theorem within_remove (s : Store) (key : List Value) (id : RowId) : (s.remove key id).Within s := by
  cases s with
  | btree | brin => exact Buckets.within_remove
  | hash map =>
    rw [remove]
    split
    · exact Within.refl (hash map)
    · exact Buckets.within_remove
  | gin postings all =>
    refine ⟨?_, List.Subset.trans (Buckets.perm_swapRemove _ all).subset (eraseP_subset ..)⟩
    exact List.foldlRecOn (tokens key) _ (b := postings) (motive := fun m => m.Within postings)
      (.refl postings) fun m hm tok _ => Buckets.within_remove.trans hm

theorem Within.layout_eq {s s' : Store} (h : s'.Within s) : s'.layout = s.layout := by
  cases s <;> cases s' <;> first | rfl | exact h.elim

section Blocks

variable {K : Value → Prop} {members members' : List (RowId × Value)} {lo hi : Option Bound}
  {ranges ranges' : Buckets Nat (RowId × Value)}

/-- The ends of a block are values in it. -/
theorem exists_mem_of_minMax {rmin rmax : Value} (h : minMax members = some (rmin, rmax)) :
    (∃ e ∈ members, e.2 = rmin ∧ e.2.isNull = false) ∧
      ∃ e ∈ members, e.2 = rmax ∧ e.2.isNull = false := by
  have hfold : ∀ {f : Value → Value → Value} {first rest}, (∀ a b, f a b = a ∨ f a b = b) →
      rest.foldl f first ∈ first :: rest := by
    intro f first rest hf
    refine List.foldlRecOn rest f (b := first) (motive := (· ∈ first :: rest)) (.head _) ?_
    intro a ha b hb
    rcases hf a b with h | h <;> rw [h]
    · exact ha
    · exact .tail _ hb
  have hmem : ∀ {v}, v ∈ (members.filter fun e => !e.2.isNull).map Prod.snd →
      ∃ e ∈ members, e.2 = v ∧ e.2.isNull = false := by
    intro v hv
    obtain ⟨e, he, rfl⟩ := mem_map.mp hv
    obtain ⟨he, hnull⟩ := mem_filter.mp he
    exact ⟨e, he, rfl, by simpa using hnull⟩
  rw [minMax] at h
  split at h
  · cases h
  next first rest hvalues =>
  rw [hvalues] at hmem
  cases h
  refine ⟨hmem (hfold fun a b => ?_), hmem (hfold fun a b => ?_)⟩ <;> split
  · exact .inr rfl
  · exact .inl rfl
  · exact .inr rfl
  · exact .inl rfl

variable (hord : Buckets.OrderOn K cmpValue)
  (hbounds : ∀ b ∈ lo.toList ++ hi.toList, K b.value)
include hord hbounds

theorem brinRangeOverlaps_of_le {rmin rmax rmin' rmax' : Value} (hmin : K rmin) (hmin' : K rmin')
    (hmax : K rmax) (hmax' : K rmax') (hle : cmpValue rmin rmin' ≠ .gt)
    (hge : cmpValue rmax' rmax ≠ .gt) (h : brinRangeOverlaps rmin' rmax' lo hi = true) :
    brinRangeOverlaps rmin rmax lo hi = true := by
  rw [brinRangeOverlaps, Bool.and_eq_true, Option.all_eq_true, Option.all_eq_true] at h ⊢
  refine ⟨fun b hb => ?_, fun b hb => ?_⟩
  · have hK : K b.value := hbounds b (mem_append_left _ (Option.mem_toList.mpr hb))
    have h := h.1 b hb
    cases hcmp : cmpValue rmax b.value with
    | lt => simp [hord.lt_of_le_of_lt hmax' hmax hK hge hcmp] at h
    | eq =>
      rw [← hord.cmp_congr_right hmax' hmax hK hcmp] at h
      cases hcmp' : cmpValue rmax' rmax <;> simp_all
    | gt => rfl
  · have hK : K b.value := hbounds b (mem_append_right _ (Option.mem_toList.mpr hb))
    have h := h.2 b hb
    cases hcmp' : cmpValue rmin' b.value with
    | lt => rw [hord.lt_of_le_of_lt hmin hmin' hK hle hcmp']
    | eq =>
      rw [hcmp'] at h
      rw [← hord.cmp_congr_right hmin hmin' hK hcmp']
      cases hcmp : cmpValue rmin rmin' <;> simp_all
    | gt => simp [hcmp'] at h

/-- A block overlaps a range if a part of it does. -/
theorem blockOverlaps_of_subset (hmembers : ∀ e ∈ members, e.2.isNull = false → K e.2)
    (hsub : members' ⊆ members) (h : blockOverlaps members' lo hi = true) :
    blockOverlaps members lo hi = true := by
  obtain ⟨⟨rmin', rmax'⟩, hminMax, h⟩ := (Option.any_eq_true _ _).mp h
  obtain ⟨⟨e, he, rfl, hnull⟩, e', he', rfl, hnull'⟩ := exists_mem_of_minMax hminMax
  obtain ⟨rmin, rmax, hminMax, hmin, hmax, hle, -⟩ := minMax_spec hord hmembers (hsub he) hnull
  obtain ⟨rmin₂, rmax₂, hminMax₂, -, -, -, hge⟩ := minMax_spec hord hmembers (hsub he') hnull'
  obtain ⟨rfl, rfl⟩ := Prod.mk.inj (Option.some.inj (hminMax.symm.trans hminMax₂))
  rw [blockOverlaps, hminMax, Option.any_some]
  exact brinRangeOverlaps_of_le hord hbounds hmin (hmembers e (hsub he) hnull) hmax
    (hmembers e' (hsub he') hnull') hle hge h

theorem brinRange_subset (hranges : ∀ m ∈ ranges.all, m.2.isNull = false → K m.2)
    (h : ranges'.Within ranges) : brinRange ranges' lo hi ⊆ brinRange ranges lo hi := by
  intro id hid
  obtain ⟨range', hrange', hid⟩ := mem_flatMap.mp hid
  obtain ⟨range, hrange, -, hsub⟩ := h range' hrange'
  split at hid
  · next hoverlaps =>
    refine mem_flatMap.mpr ⟨range, hrange, ?_⟩
    rw [if_pos (blockOverlaps_of_subset hord hbounds (fun e he =>
      hranges e (Buckets.mem_all.mpr ⟨range, hrange, he⟩)) hsub hoverlaps)]
    obtain ⟨e, he, rfl⟩ := mem_map.mp hid
    obtain ⟨he, hnull⟩ := mem_filter.mp he
    exact mem_map_of_mem (mem_filter.mpr ⟨hsub he, hnull⟩)
  · cases hid

end Blocks

section Lookup

variable {K : Value → Prop} {s s' : Store} {pr : Probe} {ids ids' : List RowId} (h : s'.Within s)
  (hord : Buckets.OrderOn K cmpValue) (hlawful : s.Lawful fun key => ∀ v ∈ key, K v)
  (hblocks : ∀ ranges, s = .brin ranges → ∀ m ∈ ranges.all, m.2.isNull = false → K m.2)
include h hord hlawful hblocks

theorem Within.lookupEq_subset {key : List Value} (hkey : s.compares = true → ∀ v ∈ key, K v) :
    s'.lookupEq key ⊆ s.lookupEq key := by
  cases s <;> cases s' <;> first | exact h.elim | skip
  case btree => exact Buckets.Within.get_subset h hlawful (orderOn_keyCmp hord) (hkey rfl)
  case hash =>
    rw [lookupEq, lookupEq]
    split
    · exact List.Subset.refl _
    · exact Buckets.Within.get_subset h hlawful .of_transCmp trivial
  case brin =>
    rw [lookupEq, lookupEq]
    split
    · exact List.Subset.refl _
    · next v hv =>
      split
      · exact List.Subset.refl _
      · refine brinRange_subset hord ?_ (hblocks _ rfl) h
        simpa using hkey rfl v (mem_of_head? hv)
  case gin => exact h.2

/-- **What is looked up in the rest of an index** has been found in the whole. -/
theorem Within.lookup_subset (hprobe : s.compares = true → ∀ v ∈ pr.values, K v)
    (hids : s.lookup pr = .ok ids) (hids' : s'.lookup pr = .ok ids') : ids' ⊆ ids := by
  cases pr with
  | eq key =>
    cases hids
    cases hids'
    exact h.lookupEq_subset hord hlawful hblocks hprobe
  | oneOf values =>
    cases hids
    cases hids'
    intro id hid
    obtain ⟨v, hv, hid⟩ := mem_flatMap.mp hid
    refine mem_flatMap.mpr ⟨v, hv, h.lookupEq_subset hord hlawful hblocks (fun hstore => ?_) hid⟩
    exact forall_mem_singleton.mpr (hprobe hstore v hv)
  | range lo hi =>
    cases s <;> cases s' <;> first | exact h.elim | skip
    case btree =>
      rw [lookup, lookupRange] at hids hids'
      split at hids
      · cases hids
      next hinv =>
      rw [if_neg hinv] at hids'
      cases hids
      cases hids'
      exact Buckets.Within.all_filter_subset h fun key =>
        aboveStart lo key && belowEnd (upperEnd hi) key && !(firstValue key).isNull
    case brin =>
      cases hids
      cases hids'
      refine brinRange_subset hord (fun b hb => ?_) (hblocks _ rfl) h
      rcases mem_append.mp hb with hb | hb
      · exact hprobe rfl _ (.tail _ (mem_map_of_mem hb))
      · obtain rfl := Option.mem_toList.mp hb
        exact hprobe rfl _ (.head _)
    all_goals
      cases hids'
      exact nil_subset _
  | leading front =>
    cases hids
    cases hids'
    cases s <;> cases s' <;> first | exact h.elim | skip
    case btree => exact Buckets.Within.all_filter_subset h (startsWith front)
    all_goals exact nil_subset _
  | all =>
    cases hids
    cases hids'
    cases s <;> cases s' <;> first | exact h.elim | skip
    case brin => exact map_subset _ (Buckets.Within.all_subset h)
    case gin => exact h.2
    all_goals exact Buckets.Within.all_subset h
  | contains needles =>
    cases hids
    cases hids'
    cases s <;> cases s' <;> first | exact h.elim | skip
    case gin postings all postings' all' =>
      cases needles with
      | nil => exact h.2
      | cons needle needles =>
        intro id hid
        have hget : ∀ n, postings'.get compare n ⊆ postings.get compare n := fun n =>
          h.1.get_subset hlawful .of_transCmp trivial
        rw [lookupGinContains, Option.getD_some, mem_foldl_filter
          (p := fun n id => (Buckets.get compare n _).contains id)] at hid ⊢
        refine ⟨hget needle hid.1, fun n hn => ?_⟩
        have hmem := hid.2 n hn
        rw [contains_iff_mem] at hmem ⊢
        exact hget n hmem
    all_goals exact nil_subset _

end Lookup

end Store

/-- Indexes that differ at most in the rows that they hold, of which the second has less. -/
structure Index.SameShape (idx idx' : Index) : Prop where
  fields : idx' = { idx with store := idx'.store }
  within : idx'.store.Within idx.store

end Storage

namespace Exec

section Shape

variable {ext : Externals} {t t' : Table} {indexes indexes' : List Index}

section

variable (h : List.Forall₂ Index.SameShape indexes indexes')
include h

theorem rel_preferred :
    Option.Rel Index.SameShape (Table.preferred indexes) (Table.preferred indexes') := by
  refine List.rel_foldl (fun chosen chosen' hchosen idx idx' hidx => ?_) .none h
  have hunique : chosen'.any (·.unique) = chosen.any (·.unique) := by
    rcases hchosen with ⟨hfields, -⟩ | _
    · rw [Option.any_some, Option.any_some, hfields]
    · rfl
  rw [hunique]
  split
  · exact hchosen
  · exact .some hidx

theorem rel_filter_indexes {p : Index → Bool} (hp : ∀ idx store, p { idx with store } = p idx) :
    List.Forall₂ Index.SameShape (indexes.filter p) (indexes'.filter p) := by
  refine List.rel_filter (fun idx idx' hidx => ?_) h
  exact iff_of_eq (congrArg (· = true) (hidx.fields ▸ hp idx _).symm)

theorem rel_find? {p : Index → Bool} (hp : ∀ idx store, p { idx with store } = p idx) :
    Option.Rel Index.SameShape (indexes.find? p) (indexes'.find? p) := by
  rw [← List.head?_filter, ← List.head?_filter]
  have hfiltered := rel_filter_indexes h hp
  generalize indexes.filter p = found at hfiltered
  generalize indexes'.filter p = found' at hfiltered
  rcases hfiltered with _ | ⟨hidx, -⟩
  · exact .none
  · exact .some hidx

end

/-- The same plan, up to the rows that the indexes hold. -/
abbrev SamePlan : Option (Index × Probe) → Option (Index × Probe) → Prop :=
  Option.Rel fun x y => x.1.SameShape y.1 ∧ x.2 = y.2

theorem samePlan_advancedAccess [BEq Expr] {conjuncts : List Expr} {facts : List (Nat × Value)}
    {pairs : List (Expr × Expr)} {idx idx' : Index} (h : idx.SameShape idx') :
    SamePlan (advancedAccess ext conjuncts facts pairs idx)
      (advancedAccess ext conjuncts facts pairs idx') := by
  have hsome : ∀ probe, SamePlan (some (idx, probe)) (some (idx', probe)) := fun _ => .some ⟨h, rfl⟩
  have hfields := h.fields
  rw [advancedAccess, advancedAccess, show idx'.predicate = idx.predicate by rw [hfields],
    show idx'.expr = idx.expr by rw [hfields], show idx'.columns = idx.columns by rw [hfields],
    show idx'.method = idx.method by rw [hfields]]
  split
  · exact .none
  split
  · refine rel_findSome? (R := Eq) (List.forall₂_same.mpr fun _ _ => rfl) fun pair _ heq => ?_
    subst heq
    dsimp only
    split
    · rcases constValue ext pair.2 with _ | v
      · exact .none
      · exact hsome _
    · split
      · rcases constValue ext pair.1 with _ | v
        · exact .none
        · exact hsome _
      · exact .none
  · split
    · split
      · exact .none
      · split <;> exact hsome _
    · dsimp only
      split
      · exact .none
      · split
        · exact hsome _
        · split
          · exact hsome _
          · exact .none

variable (hcolumns : t'.columns = t.columns)
  (hindexes : List.Forall₂ Index.SameShape t.indexes t'.indexes)

include hcolumns

theorem columnIndexOf_congr : columnIndexOf t' = columnIndexOf t := by
  funext e
  rw [columnIndexOf.eq_def, columnIndexOf.eq_def]
  simp only [Table.columnIndex, hcolumns]

include hindexes

theorem samePlan_ginAccess (e : Expr) : SamePlan (ginAccess ext t e) (ginAccess ext t' e) := by
  rw [ginAccess.eq_def, ginAccess.eq_def, columnIndexOf_congr hcolumns, hcolumns]
  split
  · refine rel_bind_same fun col => rel_bind_same fun column => rel_bind_same fun _ => ?_
    refine rel_bind (rel_find? hindexes fun _ _ => rfl) fun idx idx' hidx => ?_
    refine rel_bind_same fun rhs => rel_bind_same fun text => rel_bind_same fun elems => ?_
    refine rel_bind (R := fun _ _ => True) ?_ fun _ _ _ => .some ⟨hidx, rfl⟩
    have hlayout := hidx.within.layout_eq
    generalize idx.store = s at hlayout
    generalize idx'.store = s' at hlayout
    rcases s with _ | _ | _ | _ <;> rcases s' with _ | _ | _ | _ <;> cases hlayout
    · exact .none
    · exact .none
    · exact .none
    · rcases elems.filterMap id with _ | ⟨needle, needles⟩ <;> exact .some trivial
  · exact .none

omit hindexes in
theorem planIndexAccess_congr (e : Expr) : planIndexAccess ext t' e = planIndexAccess ext t e := by
  have hcol := columnIndexOf_congr hcolumns
  have hconst : columnAndConst ext t' = columnAndConst ext t := by
    funext left right f g
    rw [columnAndConst, columnAndConst, hcol]
  induction e using planIndexAccess.induct with
  | case8 left right ihl ihr => rw [planIndexAccess, planIndexAccess, ihl, ihr]
  | case9 e _ _ _ _ _ _ _ _ => rw [planIndexAccess, planIndexAccess] <;> assumption
  | _ => simp only [planIndexAccess, hcol, hconst]

/-- **The plan depends on the shape of the indexes**, not on the rows that they hold. -/
theorem samePlan_indexAccess [BEq Expr] (filter : Expr) :
    SamePlan (indexAccess ext t filter) (indexAccess ext t' filter) := by
  have hfacts : eqFact ext t' = eqFact ext t := by
    funext e
    rw [eqFact.eq_def, eqFact.eq_def, columnIndexOf_congr hcolumns]
  rw [indexAccess, indexAccess, planIndexAccess_congr hcolumns]
  refine rel_orElse (rel_orElse ?_ ?_) (rel_bind_same fun fact => ?_)
  · exact rel_findSome? (R := Eq) (List.forall₂_same.mpr fun _ _ => rfl) fun e _ heq =>
      heq ▸ samePlan_ginAccess hcolumns hindexes e
  · rw [hfacts]
    exact rel_findSome? hindexes fun idx idx' hidx => samePlan_advancedAccess hidx
  · have hfind : ∀ {p : Index → Bool}, (∀ idx store, p { idx with store } = p idx) →
        Option.Rel Index.SameShape (Table.preferred (t.indexes.filter p))
          (Table.preferred (t'.indexes.filter p)) := fun hp =>
      rel_preferred (rel_filter_indexes hindexes hp)
    refine rel_bind (hfind fun _ _ => rfl) fun ranged ranged' hranged => ?_
    rcases fact with ⟨col, v | values | ⟨lo, hi⟩⟩
    · exact rel_bind (hfind fun _ _ => rfl) fun idx idx' hidx => .some ⟨hidx, rfl⟩
    · exact rel_bind (hfind fun _ _ => rfl) fun idx idx' hidx => .some ⟨hidx, rfl⟩
    · exact .some ⟨hranged, rfl⟩

omit hcolumns hindexes in
theorem isBtree_of_layout {s s' : Storage.Store} (h : s'.layout = s.layout) : s'.isBtree = s.isBtree := by
  rcases s with _ | _ | _ | _ <;> rcases s' with _ | _ | _ | _ <;> first | rfl | cases h

/-- With indexes of the same shape no index is used in both tables, or the same one; and a lookup that
returns in one returns in the other. -/
theorem indexAccess_of_shape [BEq Expr] {filter : Expr} :
    (indexAccess ext t filter = none → indexAccess ext t' filter = none) ∧
      ∀ idx probe, indexAccess ext t filter = some (idx, probe) → ∃ idx',
        indexAccess ext t' filter = some (idx', probe) ∧ idx.SameShape idx' ∧
          ∀ ids, idx.store.lookup probe = .ok ids → ∃ ids', idx'.store.lookup probe = .ok ids' := by
  have hplan : SamePlan (indexAccess ext t filter) (indexAccess ext t' filter) :=
    samePlan_indexAccess hcolumns hindexes filter
  refine ⟨fun hnone => ?_, fun idx probe haccess => ?_⟩
  · rw [hnone] at hplan
    generalize indexAccess ext t' filter = access at hplan ⊢
    cases hplan
    rfl
  · rw [haccess] at hplan
    rcases haccess' : indexAccess ext t' filter with _ | ⟨idx', probe'⟩ <;> rw [haccess'] at hplan
    · cases hplan
    · obtain ⟨hshape, rfl⟩ : idx.SameShape idx' ∧ probe = probe' := by
        cases hplan
        assumption
      refine ⟨idx', rfl, hshape, fun ids hids => ?_⟩
      rw [Storage.Store.exists_lookup_eq_ok, isBtree_of_layout hshape.within.layout_eq]
      exact Storage.Store.exists_lookup_eq_ok.mp ⟨ids, hids⟩

end Shape

/-! ## Deleting rows -/

section Delete

variable {eval : EvalExpr} {t t' : Table}

theorem sameShape_remove {idx idx' : Index} (h : idx.SameShape idx')
    (key : Option (List Value)) (id : RowId) :
    idx.SameShape (key.elim idx' (idx'.remove · id)) := by
  rcases key with _ | key
  · exact h
  · refine ⟨?_, (Storage.Store.within_remove _ _ _).trans h.within⟩
    rw [Option.elim_some, Index.remove, h.fields]

theorem sameShape_removeKeys {indexes indexes' : List Index} {keys : List (Option (List Value))}
    {id : RowId} (h : List.Forall₂ Index.SameShape indexes indexes')
    (hkeys : indexes'.length = keys.length) :
    List.Forall₂ Index.SameShape indexes (Table.removeKeys indexes' keys id) := by
  induction h generalizing keys with
  | nil => exact .nil
  | cons hidx _ ih =>
    rcases keys with _ | ⟨key, keys⟩
    · cases hkeys
    · exact .cons (sameShape_remove hidx key id) (ih (Nat.succ.inj hkeys))

/-- The columns and the definitions of the indexes are left as they are. -/
theorem sameShape_deleteRows {positions : List Nat} (h : t.deleteRows eval positions = .ok t') :
    t'.columns = t.columns ∧ List.Forall₂ Index.SameShape t.indexes t'.indexes := by
  rcases eq_or_ne positions [] with rfl | hne
  · cases h
    exact ⟨rfl, List.forall₂_same.mpr fun idx _ => ⟨rfl, .refl _⟩⟩
  · obtain ⟨t₁, ht₁, hcolumns, -, -, -, hindexes, -⟩ := Table.deleteRows_eq_ok hne h
    rw [hcolumns, hindexes]
    refine foldlM_induction (P := fun _ s => s.columns = t.columns ∧
      List.Forall₂ Index.SameShape t.indexes s.indexes) ht₁
        ⟨rfl, List.forall₂_same.mpr fun idx _ => ⟨rfl, .refl _⟩⟩ ?_
    rintro e _ s s' ⟨hcolumns, hindexes⟩ hdrop
    obtain ⟨keys, hkeys, rfl⟩ := Table.dropRow_eq_ok hdrop
    exact ⟨hcolumns, sameShape_removeKeys hindexes (forall₂_of_mapM_eq_ok hkeys).length_eq⟩

end Delete

end Exec
end PostgresRs
