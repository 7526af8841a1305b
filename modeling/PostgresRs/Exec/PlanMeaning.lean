import PostgresRs.Exec.Compare
import PostgresRs.Exec.IndexPlan
import PostgresRs.Exec.Trace

/-!
# What an index is looked up for

The planner of `engine/src/executor.rs` reads off a condition what to look up in an index.
`asked_of_indexAccess` says that it reads the condition right: on a row of which the condition is true,
the index has a key, and this key is what the probe asks for, as the condition compares values
(`Asked`).  Whether the index finds the key is another question, since it has a comparison of its own.

The planner takes a column by its name, whatever the qualifier, and an index evaluates its expressions
with bare column names.  That these are the columns that the condition means is what `NamesAgree`
says; it is so unless there are dots in the names of the columns.
-/

namespace PostgresRs.Exec

open Storage List

/-! ## Conditions that are true -/

section Truth

variable (ext : Externals) (names : List String)

/-- The predicate is true on a row. -/
def isTrueOn (filter : Expr) (row : List Value) : Bool :=
  match evalExpr ext names row filter with
  | .ok v => v.isTrue
  | .error _ => false

variable {ext names} {e left right : Expr} {row : List Value} {op : BinaryOp} {v w : Value}

theorem isTrueOn_iff : isTrueOn ext names e row = true ↔
    ∃ v, evalExpr ext names row e = .ok v ∧ v.isTrue = true := by
  rw [isTrueOn]
  cases evalExpr ext names row e <;> simp

theorem isTrueOn_and (h : isTrueOn ext names (.binary .and left right) row = true) :
    isTrueOn ext names left row = true ∧ isTrueOn ext names right row = true := by
  obtain ⟨v, hv, htrue⟩ := isTrueOn_iff.mp h
  rw [evalExpr] at hv
  obtain ⟨l, hl, hv⟩ := of_bind_eq_ok hv
  by_cases hfalse : !l.isNull ∧ !l.isTrue
  · rw [if_pos ⟨rfl, hfalse⟩] at hv
    cases hv
    cases htrue
  rw [if_neg fun h => hfalse h.2, if_neg fun h => by cases h.1] at hv
  obtain ⟨r, hr, hv⟩ := of_bind_eq_ok hv
  rw [evalBinary] at hv
  split at hv <;> cases hv
  · cases htrue
  · have htrue := Bool.and_eq_true _ _ ▸ htrue
    exact ⟨isTrueOn_iff.mpr ⟨l, hl, htrue.1⟩, isTrueOn_iff.mpr ⟨r, hr, htrue.2⟩⟩

theorem isTrueOn_conjunct (h : isTrueOn ext names e row = true) :
    ∀ c ∈ andConjuncts e, isTrueOn ext names c row = true := by
  induction e using andConjuncts.induct with
  | case1 left right ihl ihr =>
    obtain ⟨hl, hr⟩ := isTrueOn_and h
    rw [andConjuncts]
    exact fun c hc => (mem_append.mp hc).elim (ihl hl c) (ihr hr c)
  | case2 e hne =>
    rw [andConjuncts]
    · exact fun c hc => mem_singleton.mp hc ▸ h
    · exact hne

/-- The two values are in an order of which a comparison holds. -/
def Compares (op : BinaryOp) (v w : Value) : Prop :=
  v.isNull = false ∧ w.isNull = false ∧ ∃ o, compareValues v w = some o ∧ holds op o = true

theorem isTrueOn_compares (hop : op ∈ [BinaryOp.eq, .lt, .ltEq, .gt, .gtEq])
    (h : isTrueOn ext names (.binary op left right) row = true) :
    ∃ l r, evalExpr ext names row left = .ok l ∧ evalExpr ext names row right = .ok r ∧
      Compares op l r := by
  obtain ⟨v, hv, htrue⟩ := isTrueOn_iff.mp h
  have hne : op ≠ .and ∧ op ≠ .or := by
    constructor <;> rintro rfl <;> revert hop <;> decide
  rw [evalExpr] at hv
  obtain ⟨l, hl, hv⟩ := of_bind_eq_ok hv
  rw [if_neg fun h => hne.1 h.1, if_neg fun h => hne.2 h.1] at hv
  obtain ⟨r, hr, hv⟩ := of_bind_eq_ok hv
  have hbinary : evalBinary ext op l r = if l.isNull || r.isNull then .ok .null
      else (compareValues l r).elim (.error "cannot compare values of incompatible types")
        fun o => .ok (.bool (holds op o)) := by
    simp only [mem_cons, not_mem_nil, or_false] at hop
    rcases hop with rfl | rfl | rfl | rfl | rfl <;> rw [evalBinary] <;>
      cases compareValues l r <;> rfl
  rw [hbinary] at hv
  split at hv
  · cases hv
    cases htrue
  next hnull =>
  rw [Bool.not_eq_true, Bool.or_eq_false_iff] at hnull
  rcases ho : compareValues l r with _ | o
  · rw [ho] at hv
    cases hv
  · rw [ho] at hv
    cases hv
    exact ⟨l, r, hl, hr, hnull.1, hnull.2, o, ho, htrue⟩

theorem Compares.swap (h : Compares op v w) {op' : BinaryOp}
    (hop : ∀ o, holds op o = true → holds op' o.swap = true) : Compares op' w v := by
  obtain ⟨hv, hw, o, ho, hholds⟩ := h
  exact ⟨hw, hv, o.swap, by rw [compareValues_swap v w, ho, Option.map_some], hop o hholds⟩

theorem Compares.eq_swap (h : Compares .eq v w) : Compares .eq w v := h.swap (by decide)

/-- `IN` is true of a value that is the same as one of the list. -/
theorem exists_of_inLoop {sawNull sawNull' : Bool} {items : List (Except String Value)}
    (h : inLoop v sawNull items = .ok (true, sawNull')) :
    ∃ c, .ok c ∈ items ∧ c.isNull = false ∧ compareValues v c = some .eq := by
  induction items generalizing sawNull with
  | nil => cases h
  | cons item items ih =>
    obtain ⟨c, rfl, hc⟩ := of_bind_eq_ok h
    have hrest : ∀ b, inLoop v b items = .ok (true, sawNull') →
        ∃ c', .ok c' ∈ .ok c :: items ∧ c'.isNull = false ∧ compareValues v c' = some .eq :=
      fun b hb => (ih hb).imp fun c' h' => ⟨.tail _ h'.1, h'.2⟩
    split at hc
    · exact hrest _ hc
    next hnull =>
    split at hc
    · next heq => exact ⟨c, .head _, Bool.eq_false_iff.mpr hnull, heq⟩
    · exact hrest _ hc

theorem isTrueOn_inList {list : List Expr} (h : isTrueOn ext names (.inList e list false) row = true) :
    ∃ v, evalExpr ext names row e = .ok v ∧
      ∃ item ∈ list, ∃ c, evalExpr ext names row item = .ok c ∧ Compares .eq v c := by
  obtain ⟨b, hb, htrue⟩ := isTrueOn_iff.mp h
  rw [evalExpr] at hb
  obtain ⟨v, hv, hb⟩ := of_bind_eq_ok hb
  split at hb
  · cases hb
    cases htrue
  next hnull =>
  obtain ⟨⟨found, sawNull⟩, hloop, hb⟩ := of_bind_eq_ok hb
  cases found with
  | false => cases sawNull <;> cases hb <;> cases htrue
  | true =>
    obtain ⟨c, hc, hcnull, hcmp⟩ := exists_of_inLoop hloop
    rw [evalAll_eq_map] at hc
    obtain ⟨item, hitem, hc⟩ := mem_map.mp hc
    exact ⟨v, hv, item, hitem, c, hc, Bool.eq_false_iff.mpr hnull, hcnull, .eq, hcmp, rfl⟩

theorem isTrueOn_between {low high : Expr}
    (h : isTrueOn ext names (.between e low high false) row = true) :
    ∃ v lo hi, evalExpr ext names row e = .ok v ∧ evalExpr ext names row low = .ok lo ∧
      evalExpr ext names row high = .ok hi ∧ Compares .gtEq v lo ∧ Compares .ltEq v hi := by
  obtain ⟨b, hb, htrue⟩ := isTrueOn_iff.mp h
  rw [evalExpr] at hb
  obtain ⟨v, hv, hb⟩ := of_bind_eq_ok hb
  obtain ⟨lo, hlo, hb⟩ := of_bind_eq_ok hb
  obtain ⟨hi, hhi, hb⟩ := of_bind_eq_ok hb
  split at hb
  · cases hb
    cases htrue
  next hnull =>
  cases hb
  rw [Bool.not_eq_true, Bool.or_eq_false_iff, Bool.or_eq_false_iff] at hnull
  obtain ⟨hge, hle⟩ := Bool.and_eq_true _ _ ▸ htrue
  obtain ⟨o, ho, hge⟩ := (Option.any_eq_true _ _).mp hge
  obtain ⟨o', ho', hle⟩ := (Option.any_eq_true _ _).mp hle
  exact ⟨v, lo, hi, hv, hlo, hhi, ⟨hnull.1.1, hnull.1.2, o, ho, hge⟩, hnull.1.1, hnull.2, o', ho', hle⟩

end Truth

/-! ## Names of columns -/

/-- What a reference means under the names `names` it means under the bare names of the columns too,
and a column of the table that is called so is meant. -/
def NamesAgree (t : Table) (names : List String) : Prop :=
  ∀ qualifier name idx, resolveColumn names qualifier name = .ok idx →
    resolveColumn t.columnNames qualifier name = .ok idx ∧
      ∀ col, t.columnIndex name = some col → col = idx

section Names

variable {ext : Externals} {t : Table} {names : List String} {row : List Value} {e : Expr} {v : Value}
  {col : Nat}

theorem columnAnswer_eq_ok {qualifier : Option String} {name : String}
    (h : columnAnswer names row qualifier name = .ok v) :
    ∃ idx, resolveColumn names qualifier name = .ok idx ∧ row[idx]? = some v := by
  rw [columnAnswer] at h
  split at h
  · cases h
  next idx hidx =>
  split at h
  · next w hw => exact ⟨idx, hidx, Except.ok.inj h ▸ hw⟩
  · cases h

theorem columnValue_eq_ok {qualifier : Option String} {name : String}
    (h : columnValue names row qualifier name = .ok v) :
    ∃ idx, resolveColumn names qualifier name = .ok idx ∧ row[idx]? = some v := by
  refine columnAnswer_eq_ok ?_
  rw [← mapError_columnAnswer] at h
  generalize columnAnswer names row qualifier name = r at h ⊢
  cases r <;> cases h
  rfl

variable (hnames : NamesAgree t names)
include hnames

/-- The column that the planner takes a reference for has its value. -/
theorem NamesAgree.getElem? (hcol : columnIndexOf t e = some col)
    (he : evalExpr ext names row e = .ok v) : row[col]? = some v := by
  have hcolumn : ∀ {qualifier name}, t.columnIndex name = some col →
      columnValue names row qualifier name = .ok v → row[col]? = some v := by
    intro qualifier name hcol he
    obtain ⟨idx, hidx, hrow⟩ := columnValue_eq_ok he
    rwa [(hnames _ _ _ hidx).2 col hcol]
  rw [columnIndexOf.eq_def] at hcol
  split at hcol
  · exact hcolumn hcol he
  · exact hcolumn hcol he
  · cases hcol

/-- An expression has its value under the bare names too. -/
theorem NamesAgree.evalExpr_columnNames (he : evalExpr ext names row e = .ok v) :
    evalExpr ext t.columnNames row e = .ok v := by
  rw [← he]
  refine evalExpr_of_columns fun qualifier name hread => ?_
  obtain ⟨w, hw⟩ := exists_columnAnswer he hread
  obtain ⟨idx, hidx, -⟩ := columnAnswer_eq_ok hw
  rw [columnAnswer, columnAnswer, hidx, (hnames _ _ _ hidx).1]

end Names

/-! ### Names without dots -/

section Undotted

variable {s q : List Char} {t : Table} {names : List String} {qualifier : Option String}
  {name : String} {idx : Nat}

theorem rsplitDot_eq_none (h : '.' ∉ s) : rsplitDot s = none := by
  have hall : ∀ c ∈ s.reverse, (c != '.') = true := fun c hc => by
    simpa using fun heq : c = '.' => h (heq ▸ mem_reverse.mp hc)
  rw [rsplitDot, span_eq_takeWhile_dropWhile, takeWhile_eq_self_iff.mpr hall,
    dropWhile_eq_nil_iff.mpr hall]

theorem rsplitDot_append (h : '.' ∉ s) : rsplitDot (q ++ '.' :: s) = some (q, s) := by
  have hall : ∀ c ∈ s.reverse, (c != '.') = true := fun c hc => by
    simpa using fun heq : c = '.' => h (heq ▸ mem_reverse.mp hc)
  rw [rsplitDot, span_eq_takeWhile_dropWhile, reverse_append, reverse_cons, append_assoc,
    takeWhile_append_of_pos hall, dropWhile_append_of_pos hall]
  simp

/-- No name of a column has a dot. -/
def Undotted (t : Table) : Prop := ∀ c ∈ t.columnNames, '.' ∉ c.toList

theorem resolveColumn_eq_ok : resolveColumn names qualifier name = .ok idx ↔
    (names.zipIdx.filter fun c => columnMatches names qualifier name c.1).map Prod.snd = [idx] := by
  rw [resolveColumn]
  generalize (names.zipIdx.filter fun c => columnMatches names qualifier name c.1).map Prod.snd = l
  rcases l with _ | ⟨i, _ | ⟨j, l⟩⟩ <;> simp

theorem toList_beq_toList (a b : String) : (a.toList == b.toList) = (a == b) := by
  rw [Bool.eq_iff_iff, beq_iff_eq, beq_iff_eq, String.toList_inj]

/-- Under names without dots a reference means the columns that are called so. -/
theorem columnMatches_of_undotted (h : ∀ c ∈ names, '.' ∉ c.toList) :
    ∀ c ∈ names, columnMatches names qualifier name c = (c == name) := by
  intro c hc
  cases qualifier with
  | none => simp [columnMatches, rsplitDot_eq_none (h c hc), toList_beq_toList]
  | some q =>
    have hany : (names.any fun c => (rsplitDot c.toList).any fun p => p.1 == q.toList) = false := by
      rw [any_eq_false]
      intro c hc
      rw [rsplitDot_eq_none (h c hc)]
      exact Bool.false_ne_true
    simp [columnMatches, rsplitDot_eq_none (h c hc), toList_beq_toList, hany]

/-- Under names with one qualifier, a reference that means a column means the columns that are called
so. -/
theorem columnMatches_of_qualified {p : String} (h : ∀ c ∈ names, '.' ∉ c.toList)
    (hsome : ∃ c ∈ names,
      columnMatches (names.map (p ++ "." ++ ·)) qualifier name (p ++ "." ++ c) = true) :
    ∀ c ∈ names, columnMatches (names.map (p ++ "." ++ ·)) qualifier name (p ++ "." ++ c) =
      (c == name) := by
  have hsplit : ∀ c ∈ names, rsplitDot (p ++ "." ++ c).toList = some (p.toList, c.toList) := by
    intro c hc
    rw [String.toList_append, String.toList_append, append_assoc]
    exact rsplitDot_append (h c hc)
  intro c hc
  cases qualifier with
  | none =>
    have hany : ((names.map (p ++ "." ++ ·)).any fun c =>
        (rsplitDot c.toList).isNone && c == name) = false := by
      rw [any_map, any_eq_false]
      intro c hc
      rw [Function.comp_apply, hsplit c hc]
      exact Bool.false_ne_true
    rw [columnMatches, hsplit c hc, hany]
    exact toList_beq_toList c name
  | some q =>
    obtain ⟨c', hc', hmatch⟩ := hsome
    have hq : q = p := by
      rw [columnMatches, hsplit c' hc'] at hmatch
      split at hmatch
      · rw [Bool.and_eq_true, beq_iff_eq] at hmatch
        exact String.toList_inj.mp (Option.some.inj hmatch.1).symm
      · cases hmatch
    subst hq
    have hany : ((names.map (q ++ "." ++ ·)).any fun c =>
        (rsplitDot c.toList).any fun s => s.1 == q.toList) = true := by
      rw [any_map, any_eq_true]
      refine ⟨c, hc, ?_⟩
      rw [Function.comp_apply, hsplit c hc]
      exact beq_self_eq_true _
    rw [columnMatches, hsplit c hc, hany, if_pos rfl]
    exact (congrArg (· && _) (beq_self_eq_true _)).trans (toList_beq_toList c name)

/-- If the columns that match are those that are called so, a reference is resolved to the one that
is. -/
theorem resolveColumn_eq_ok_iff {f : String → String} (hmatches : ∀ c ∈ t.columnNames,
      columnMatches (t.columnNames.map f) qualifier name (f c) = (c == name)) :
    resolveColumn (t.columnNames.map f) qualifier name = .ok idx ↔
      (t.columnNames.zipIdx.filter fun c => c.1 == name).map Prod.snd = [idx] := by
  rw [resolveColumn_eq_ok, zipIdx_map, filter_map, map_map]
  have hfilter := filter_congr fun c (hc : c ∈ t.columnNames.zipIdx) =>
    hmatches c.1 (fst_mem_of_mem_zipIdx hc)
  exact iff_of_eq (congrArg (fun l => l.map Prod.snd = [idx]) hfilter)

theorem resolveColumn_columnNames (h : Undotted t) :
    resolveColumn t.columnNames qualifier name = .ok idx ↔
      (t.columnNames.zipIdx.filter fun c => c.1 == name).map Prod.snd = [idx] := by
  have hone := @resolveColumn_eq_ok_iff t qualifier name idx id
  rw [map_id] at hone
  exact hone (columnMatches_of_undotted h)

theorem columnIndex_eq {col : Nat}
    (h : (t.columnNames.zipIdx.filter fun c => c.1 == name).map Prod.snd = [idx])
    (hcol : t.columnIndex name = some col) : col = idx := by
  obtain ⟨hlt, hname, -⟩ := findIdx?_eq_some_iff_getElem.mp hcol
  refine mem_singleton.mp (h ▸ mem_map.mpr ⟨(t.columns[col].name, col), mem_filter.mpr ⟨?_, hname⟩, rfl⟩)
  rw [mk_mem_zipIdx_iff_getElem?, Table.columnNames, getElem?_map, getElem?_eq_getElem hlt]
  rfl

/-- Without dots the names agree, whether they are bare or qualified. -/
theorem Undotted.namesAgree (h : Undotted t) : NamesAgree t t.columnNames := by
  intro qualifier name idx hidx
  exact ⟨hidx, fun col hcol => columnIndex_eq ((resolveColumn_columnNames h).mp hidx) hcol⟩

theorem Undotted.namesAgree_qualified (h : Undotted t) (p : String) :
    NamesAgree t (t.columnNames.map (p ++ "." ++ ·)) := by
  intro qualifier name idx hidx
  have hsome : ∃ c ∈ t.columnNames, columnMatches (t.columnNames.map (p ++ "." ++ ·)) qualifier name
      (p ++ "." ++ c) = true := by
    obtain ⟨⟨n, i⟩, hn, rfl⟩ := mem_map.mp (resolveColumn_eq_ok.mp hidx ▸ mem_singleton_self idx)
    obtain ⟨hmem, hmatch⟩ := mem_filter.mp hn
    obtain ⟨c, hc, rfl⟩ := mem_map.mp (fst_mem_of_mem_zipIdx hmem)
    exact ⟨c, hc, hmatch⟩
  have hone := (resolveColumn_eq_ok_iff (columnMatches_of_qualified h hsome)).mp hidx
  exact ⟨(resolveColumn_columnNames h).mpr hone, fun col hcol => columnIndex_eq hone hcol⟩

end Undotted

/-! ## The planner -/

section Planner

variable {ext : Externals} {t : Table} {names : List String} {row : List Value} {e left right : Expr}
  {v c : Value} {col : Nat}

theorem evalExpr_of_constValue (h : constValue ext e = some c) (names : List String)
    (row : List Value) : evalExpr ext names row e = .ok c := by
  have htoOption : ∀ {r : Except String Value}, r.toOption = some c → r = .ok c := fun {r} hr => by
    cases r <;> cases hr
    rfl
  rw [constValue.eq_def] at h
  split at h <;> first | exact evalExpr_of_const (htoOption h) names row | cases h

/-- What a plan asks of the value of its column. -/
def IndexPlan.Asked (v : Value) : IndexPlan → Prop
  | eq c => Compares .eq v c
  | «in» values => ∃ c ∈ values, Compares .eq v c
  | range lo hi => v.isNull = false ∧
    (∀ b, lo = some b → Compares (if b.inclusive then .gtEq else .gt) v b.value) ∧
      ∀ b, hi = some b → Compares (if b.inclusive then .ltEq else .lt) v b.value

section

variable (hnames : NamesAgree t names)
include hnames

/-- A comparison of a column with a constant, on either side. -/
theorem asked_of_columnAndConst {op : BinaryOp} {f g : Value → IndexPlan} {plan : IndexPlan}
    (hop : op ∈ [BinaryOp.eq, .lt, .ltEq, .gt, .gtEq])
    (h : columnAndConst ext t left right f g = some (col, plan))
    (hf : ∀ v c, Compares op v c → (f c).Asked v) (hg : ∀ v c, Compares op c v → (g c).Asked v)
    (htrue : isTrueOn ext names (.binary op left right) row = true) :
    ∃ v, row[col]? = some v ∧ plan.Asked v := by
  obtain ⟨l, r, hl, hr, hcompares⟩ := isTrueOn_compares hop htrue
  rw [columnAndConst] at h
  split at h
  · next col' c hcol hconst =>
    obtain ⟨rfl, rfl⟩ := Prod.mk.inj (Option.some.inj h)
    obtain rfl := Except.ok.inj ((evalExpr_of_constValue hconst names row).symm.trans hr)
    exact ⟨l, hnames.getElem? hcol hl, hf l c hcompares⟩
  · split at h
    · next col' c hcol hconst =>
      obtain ⟨rfl, rfl⟩ := Prod.mk.inj (Option.some.inj h)
      obtain rfl := Except.ok.inj ((evalExpr_of_constValue hconst names row).symm.trans hl)
      exact ⟨r, hnames.getElem? hcol hr, hg r c hcompares⟩
    · cases h

/-- **A plan is asked for by the condition**: it is so of every row of which the condition is true. -/
theorem asked_of_planIndexAccess {plan : IndexPlan} (h : planIndexAccess ext t e = some (col, plan))
    (htrue : isTrueOn ext names e row = true) : ∃ v, row[col]? = some v ∧ plan.Asked v := by
  have hlt : ∀ incl v c, Compares (if incl then .ltEq else .lt) v c → (ltPlan incl c).Asked v :=
    fun incl v c h => ⟨by cases incl <;> exact h.1, nofun, fun b hb => by cases hb; exact h⟩
  have hgt : ∀ incl v c, Compares (if incl then .gtEq else .gt) v c → (gtPlan incl c).Asked v :=
    fun incl v c h => ⟨by cases incl <;> exact h.1, fun b hb => by cases hb; exact h, nofun⟩
  induction e using planIndexAccess.induct with
  | case1 left right =>
    exact asked_of_columnAndConst hnames (by decide) h (fun v c h => h) (fun v c h => h.eq_swap) htrue
  | case2 left right =>
    exact asked_of_columnAndConst hnames (by decide) h (hlt false)
      (fun v c h => hgt false v c (h.swap (by decide))) htrue
  | case3 left right =>
    exact asked_of_columnAndConst hnames (by decide) h (hlt true)
      (fun v c h => hgt true v c (h.swap (by decide))) htrue
  | case4 left right =>
    exact asked_of_columnAndConst hnames (by decide) h (hgt false)
      (fun v c h => hlt false v c (h.swap (by decide))) htrue
  | case5 left right =>
    exact asked_of_columnAndConst hnames (by decide) h (hgt true)
      (fun v c h => hlt true v c (h.swap (by decide))) htrue
  | case6 expr list =>
    obtain ⟨v, hv, item, hitem, c, hc, hcompares⟩ := isTrueOn_inList htrue
    obtain ⟨col', hcol, h⟩ := Option.bind_eq_some_iff.mp h
    obtain ⟨values, hvalues, h⟩ := Option.bind_eq_some_iff.mp h
    obtain ⟨rfl, rfl⟩ := Prod.mk.inj (Option.some.inj h)
    obtain ⟨c', hc', hconst⟩ := exists_of_mapM_eq_some hvalues item hitem
    obtain rfl := Except.ok.inj ((evalExpr_of_constValue hconst names row).symm.trans hc)
    exact ⟨v, hnames.getElem? hcol hv, c', hc', hcompares⟩
  | case7 expr low high =>
    obtain ⟨v, lo, hi, hv, hlo, hhi, hge, hle⟩ := isTrueOn_between htrue
    obtain ⟨col', hcol, h⟩ := Option.bind_eq_some_iff.mp h
    obtain ⟨lo', hlo', h⟩ := Option.bind_eq_some_iff.mp h
    obtain ⟨hi', hhi', h⟩ := Option.bind_eq_some_iff.mp h
    obtain ⟨rfl, rfl⟩ := Prod.mk.inj (Option.some.inj h)
    obtain rfl := Except.ok.inj ((evalExpr_of_constValue hlo' names row).symm.trans hlo)
    obtain rfl := Except.ok.inj ((evalExpr_of_constValue hhi' names row).symm.trans hhi)
    exact ⟨v, hnames.getElem? hcol hv, hge.1, fun b hb => by cases hb; exact hge,
      fun b hb => by cases hb; exact hle⟩
  | case8 left right ihl ihr =>
    obtain ⟨hl, hr⟩ := isTrueOn_and htrue
    rw [planIndexAccess, Option.orElse_eq_some] at h
    rcases h with h | ⟨-, h⟩
    · exact ihl h hl
    · exact ihr h hr
  | case9 e _ _ _ _ _ _ _ _ =>
    rw [planIndexAccess] at h
    · cases h
    all_goals assumption

/-- The value that a condition equates a column with. -/
theorem compares_of_eqFact (h : eqFact ext t e = some (col, c))
    (htrue : isTrueOn ext names e row = true) : ∃ v, row[col]? = some v ∧ Compares .eq v c := by
  rw [eqFact.eq_def] at h
  split at h
  · next left right =>
    have hplan : columnAndConst ext t left right .eq .eq = some (col, .eq c) := by
      rw [columnAndConst]
      split at h
      · cases h
        rfl
      · split at h
        · cases h
          rfl
        · cases h
    exact asked_of_columnAndConst hnames (by decide) hplan (fun v c h => h)
      (fun v c h => h.eq_swap) htrue
  · cases h

end

end Planner

/-! ## The key of a row -/

/-- What a probe asks of the key of a row, as conditions compare values. -/
def Asked : Probe → List Value → Prop
  | .eq k, key => Forall₂ (Compares .eq) key k
  | .oneOf values, key => ∃ c ∈ values, Forall₂ (Compares .eq) key [c]
  | .range lo hi, key => ∃ v, key = [v] ∧ (IndexPlan.range lo hi).Asked v
  | .leading front, key => Forall₂ (Compares .eq) (key.take front.length) front
  | .all, _ => True
  | .contains _, _ => True

section Key

variable {ext : Externals} {t : Table} {names : List String} {row : List Value} {filter : Expr}
  {idx : Index} {probe : Probe} {key : Option (List Value)}

theorem entryKey_of_isPlainOn {col : Nat} {v : Value} {eval : EvalExpr}
    (hplain : Table.isPlainOn col idx = true) (hv : row[col]? = some v) :
    t.entryKey eval idx row = .ok (some [v]) := by
  simp only [Table.isPlainOn, Bool.and_eq_true, beq_iff_eq, Option.isNone_iff_eq_none] at hplain
  obtain ⟨⟨hcolumns, hexpr⟩, hpred⟩ := hplain
  rw [Table.entryKey, Table.rowQualifies, hpred, if_pos rfl, Table.indexKey, hexpr, hcolumns]
  simp [hv]

theorem mem_of_lookup {facts : List (Nat × Value)} {col : Nat} {c : Value}
    (h : List.lookup col facts = some c) : (col, c) ∈ facts := by
  obtain ⟨l₁, l₂, rfl, -⟩ := List.lookup_eq_some_iff.mp h
  exact mem_append_right l₁ (.head l₂)

/-- The values of the columns that equalities say something about, as far as they do. -/
theorem compares_of_facts {facts : List (Nat × Value)} {columns : List Nat} {key : List Value}
    (hfacts : ∀ col c, (col, c) ∈ facts → ∃ v, row[col]? = some v ∧ Compares .eq v c)
    (hkey : Forall₂ (fun col v => row[col]? = some v) columns key) :
    let front := ((columns.map (List.lookup · facts)).takeWhile Option.isSome).filterMap id
    Forall₂ (Compares .eq) (key.take front.length) front := by
  induction hkey with
  | nil => exact .nil
  | @cons col v columns key hv hkey ih =>
    rw [map_cons]
    cases hc : List.lookup col facts with
    | none => exact .nil
    | some c =>
      obtain ⟨w, hw, hcompares⟩ := hfacts col c (mem_of_lookup hc)
      obtain rfl := Option.some.inj (hv.symm.trans hw)
      exact .cons hcompares ih

variable (hnames : NamesAgree t names)
include hnames

theorem NamesAgree.evalIndex_eq {e : Expr} {v : Value} (he : evalExpr ext names row e = .ok v) :
    evalIndex ext e t.columnNames row = some v := by
  rw [evalIndex, hnames.evalExpr_columnNames he]
  rfl

/-- A row meets a predicate that is one of the conditions. -/
theorem rowQualifies_of_mem {conjuncts : List Expr}
    (htrue : ∀ c ∈ conjuncts, isTrueOn ext names c row = true)
    (hpred : ∀ pred, idx.predicate = some pred → pred ∈ conjuncts) :
    t.rowQualifies (evalIndex ext) idx row = true := by
  rw [Table.rowQualifies]
  cases hp : idx.predicate with
  | none => rfl
  | some pred =>
    obtain ⟨v, hv, hvtrue⟩ := isTrueOn_iff.mp (htrue pred (hpred pred hp))
    dsimp only
    rw [hnames.evalIndex_eq hv]
    exact hvtrue

variable [BEq Expr] [LawfulBEq Expr]

/-- The value that a condition equates the expression of an index with. -/
theorem compares_of_eqPair {l r iexpr : Expr} {c : Value}
    (hc : (if l == iexpr then constValue ext r else if r == iexpr then constValue ext l else none) =
      some c)
    (htrue : isTrueOn ext names (.binary .eq l r) row = true) :
    ∃ v, evalIndex ext iexpr t.columnNames row = some v ∧ Compares .eq v c := by
  obtain ⟨lv, rv, hlv, hrv, hcompares⟩ := isTrueOn_compares (by decide) htrue
  split at hc
  · next heq =>
    obtain rfl := Except.ok.inj ((evalExpr_of_constValue hc names row).symm.trans hrv)
    exact ⟨lv, eq_of_beq heq ▸ hnames.evalIndex_eq hlv, hcompares⟩
  · split at hc
    · next heq =>
      obtain rfl := Except.ok.inj ((evalExpr_of_constValue hc names row).symm.trans hlv)
      exact ⟨rv, eq_of_beq heq ▸ hnames.evalIndex_eq hrv, hcompares.eq_swap⟩
    · cases hc

/-- An index with several columns, an expression or a predicate. -/
theorem asked_of_advancedAccess {conjuncts : List Expr}
    (htrue : ∀ c ∈ conjuncts, isTrueOn ext names c row = true)
    (h : advancedAccess ext conjuncts (conjuncts.filterMap (eqFact ext t))
      (conjuncts.filterMap eqPair) idx = some (idx, probe))
    (hkey : t.entryKey (evalIndex ext) idx row = .ok key) : ∃ k, key = some k ∧ Asked probe k := by
  have hfacts : ∀ col c, (col, c) ∈ conjuncts.filterMap (eqFact ext t) →
      ∃ v, row[col]? = some v ∧ Compares .eq v c := by
    intro col c hmem
    obtain ⟨e, he, hfact⟩ := mem_filterMap.mp hmem
    exact compares_of_eqFact hnames hfact (htrue e he)
  rw [advancedAccess] at h
  split at h
  · cases h
  next hpred =>
  have hqualifies : t.rowQualifies (evalIndex ext) idx row = true :=
    rowQualifies_of_mem hnames htrue fun pred hp => by
      rw [hp] at hpred
      simpa using hpred
  rw [Table.entryKey, if_pos hqualifies, Table.indexKey] at hkey
  split at h
  · next iexpr hexpr =>
    rw [hexpr] at hkey
    obtain ⟨⟨l, r⟩, hpair, h⟩ := exists_of_findSome?_eq_some h
    obtain ⟨e, he, hpair⟩ := mem_filterMap.mp hpair
    obtain ⟨c, hc, h⟩ := Option.map_eq_some_iff.mp h
    cases h
    have hbinary : e = .binary .eq l r := by
      rw [eqPair.eq_def] at hpair
      split at hpair <;> cases hpair
      rfl
    obtain ⟨v, hv, hcompares⟩ := compares_of_eqPair hnames hc (hbinary ▸ htrue e he)
    dsimp only at hkey
    rw [hv] at hkey
    exact ⟨[v], (Except.ok.inj hkey).symm, .cons hcompares .nil⟩
  · next hexpr =>
    rw [hexpr] at hkey
    dsimp only at hkey
    split at hkey
    swap
    · cases hkey
    next k hk =>
    obtain rfl := Except.ok.inj hkey
    refine ⟨k, rfl, ?_⟩
    have hcells := forall₂_of_mapM_eq_some hk
    split at h
    · next col hcolumns =>
      split at h
      · cases h
      split at h <;> cases h
      · next c hc =>
        rw [hcolumns] at hcells
        obtain ⟨v, hv, hcompares⟩ := hfacts col c (mem_of_lookup hc)
        cases hcells with
        | cons hv' hnil =>
          cases hnil
          obtain rfl := Option.some.inj (hv.symm.trans hv')
          exact .cons hcompares .nil
      · trivial
    · have hfront := compares_of_facts hfacts hcells
      dsimp only at h hfront
      split at h
      · cases h
      split at h
      · next hlength =>
        cases h
        rwa [hlength, hcells.length_eq, take_length] at hfront
      · split at h <;> cases h
        exact hfront

/-- **The planner reads a condition right**: a row of which the condition is true has a key in the
index, and the key is what the probe asks for. -/
theorem asked_of_indexAccess (h : indexAccess ext t filter = some (idx, probe))
    (htrue : isTrueOn ext names filter row = true)
    (hkey : t.entryKey (evalIndex ext) idx row = .ok key) : ∃ k, key = some k ∧ Asked probe k := by
  obtain ⟨-, ⟨e, he, h⟩ | h | ⟨col, plan, hplan, rfl, hplain, -⟩⟩ := indexAccess_cases h
  · obtain ⟨left, right, col, rfl, hcol, -, hplain, -, needles, rfl⟩ := ginAccess_eq_some h
    obtain ⟨b, hb, -⟩ := isTrueOn_iff.mp (isTrueOn_conjunct htrue _ he)
    rw [evalExpr] at hb
    obtain ⟨v, hv, -⟩ := of_bind_eq_ok hb
    rw [entryKey_of_isPlainOn hplain (hnames.getElem? hcol hv)] at hkey
    exact ⟨[v], (Except.ok.inj hkey).symm, trivial⟩
  · exact asked_of_advancedAccess hnames (isTrueOn_conjunct htrue) h hkey
  · obtain ⟨v, hv, hasked⟩ := asked_of_planIndexAccess hnames hplan htrue
    rw [entryKey_of_isPlainOn hplain hv] at hkey
    refine ⟨[v], (Except.ok.inj hkey).symm, ?_⟩
    cases plan with
    | eq c => exact .cons hasked .nil
    | «in» values =>
      obtain ⟨c, hc, hcompares⟩ := hasked
      exact ⟨c, hc, .cons hcompares .nil⟩
    | range lo hi => exact ⟨v, rfl, hasked⟩

end Key

end PostgresRs.Exec
