import PostgresRs.Exec.Trace
import PostgresRs.Storage.Table
import PostgresRs.Util.Assign

/-!
# The assignments of an UPDATE

How `exec_update` of `engine/src/executor.rs` makes the new version of a row: the `SET` list is
worked off from left to right, each expression is evaluated on the row as the assignments before it
have left it (joined with a row of `FROM`, if there is one), and the generated columns are computed
at the end.

`updatesAtOnce_iff` says when the list means what SQL says it does: in whatever order it is written,
all expressions are evaluated on the old row.  It is enough that no expression reads a column that
another one assigns (`independent_iff_of_unread`).
-/

namespace PostgresRs.Exec

open Storage List

/-- A column with the expression it is generated by, if it is. -/
structure ColumnDef extends Column where
  generated : Option Expr

variable (ext : Externals)

/-! ## The source -/

/-- A row of the target with a row of the other source. -/
def dmlEvalRow (target : List Value) (source : Option (List Value)) : List Value :=
  target ++ source.getD []

/-- The places that a `SET` list assigns. -/
def resolveTargets (table : String) (columns : List ColumnDef) :
    List (String × Expr) → Except String (List (Nat × Expr))
  | [] => .ok []
  | (name, expr) :: assignments =>
    match columns.findIdx? fun c => c.name == name with
    | none => .error s!"column \"{name}\" of relation \"{table}\" does not exist"
    | some idx =>
      if (columns[idx]?.bind ColumnDef.generated).isSome then
        .error s!"column \"{name}\" can only be updated to DEFAULT because it is a generated column"
      else do
        let targets ← resolveTargets table columns assignments
        return (idx, expr) :: targets

section Row

variable (columns : List ColumnDef) (names : List String) (source : Option (List Value))

/-- The new value of a column. -/
def setValue (target : Nat × Expr) (row : List Value) : Except String Value := do
  let val ← evalExpr ext names (dmlEvalRow row source) target.2
  match columns[target.1]? with
  | some column => ext.coerce val column.dataType
  | none => throw "index out of bounds"

/-- A `SET` item as an assignment. -/
def toAssignment (target : Nat × Expr) : Assignment String Value :=
  (target.1, setValue ext columns names source target)

/-- The loop over the `SET` list. -/
def assignTargets (targets : List (Nat × Expr)) (row : List Value) : Except String (List Value) :=
  Assignment.run row (targets.map (toAssignment ext columns names source))

/-- The loop over the generated columns, from the `i`-th on. -/
def generateFrom (i : Nat) (row : List Value) : List ColumnDef → Except String (List Value)
  | [] => .ok row
  | column :: rest =>
    match column.generated with
    | none => generateFrom (i + 1) row rest
    | some expr => do
      let value ← evalExpr ext (columns.map (·.name)) row expr
      let value ← ext.coerce value column.dataType
      generateFrom (i + 1) (row.set i value) rest

def applyGeneratedColumns (row : List Value) : Except String (List Value) :=
  generateFrom ext columns 0 row columns

/-- The new version of a row. -/
def newVersion (targets : List (Nat × Expr)) (row : List Value) : Except String (List Value) := do
  let row ← assignTargets ext columns names source targets row
  applyGeneratedColumns ext columns row

end Row

/-! ## Places -/

section Targets

variable {table : String} {columns : List ColumnDef} {assignments : List (String × Expr)}
  {targets : List (Nat × Expr)}

variable (h : resolveTargets table columns assignments = .ok targets)
include h

/-- The places that are assigned are those of the named columns, and these are not generated. -/
theorem forall₂_of_resolveTargets :
    List.Forall₂ (fun a t => t.2 = a.2 ∧ ∃ column, columns[t.1]? = some column ∧
      column.name = a.1 ∧ column.generated = none) assignments targets := by
  induction assignments generalizing targets with
  | nil =>
    cases h
    exact .nil
  | cons a assignments ih =>
    rw [resolveTargets] at h
    split at h
    · cases h
    next idx hidx =>
    split at h
    · cases h
    next hgenerated =>
    obtain ⟨rest, hrest, heq⟩ := of_bind_eq_ok h
    cases heq
    obtain ⟨hlt, hname, -⟩ := findIdx?_eq_some_iff_getElem.mp hidx
    rw [getElem?_eq_getElem hlt] at hgenerated
    refine .cons ⟨rfl, columns[idx], getElem?_eq_getElem hlt, ?_, ?_⟩ (ih hrest)
    · exact beq_iff_eq.mp hname
    · simpa using hgenerated

/-- Distinct columns have distinct places. -/
theorem nodup_of_resolveTargets
    (hdistinct : (assignments.map Prod.fst).Nodup) : (targets.map Prod.fst).Nodup := by
  have hnames : assignments.map (fun a => some a.1) =
      targets.map fun t => columns[t.1]?.map (·.name) := by
    refine forall₂_eq_eq_eq ▸ ?_
    rw [forall₂_map_left_iff, forall₂_map_right_iff]
    refine (forall₂_of_resolveTargets h).imp fun a t ⟨_, column, hcolumn, hname, _⟩ => ?_
    rw [hcolumn, ← hname]
    rfl
  have hsome : (targets.map fun t => columns[t.1]?.map (·.name)).Nodup := by
    rw [← hnames, show (fun a : String × Expr => some a.1) = some ∘ Prod.fst from rfl,
      ← map_map]
    exact hdistinct.map (Option.some_injective _)
  exact List.Nodup.of_map (fun i => columns[i]?.map (·.name)) (by rwa [map_map])

/-- A place that is assigned is that of a column, and this is not generated. -/
theorem exists_of_mem_targets :
    ∀ t ∈ targets, ∃ column, columns[t.1]? = some column ∧ column.generated = none := by
  have hplaces := forall₂_of_resolveTargets h
  clear h
  induction hplaces with
  | nil => exact nofun
  | cons hhead _ ih =>
    obtain ⟨-, column, hcolumn, -, hgenerated⟩ := hhead
    exact forall_mem_cons.mpr ⟨⟨column, hcolumn, hgenerated⟩, ih⟩

end Targets

/-! ## Assignments at once -/

variable {t : Nat × Expr}

section AtOnce

variable (columns : List ColumnDef) (names : List String) (source : Option (List Value))
  (targets : List (Nat × Expr)) (row : List Value)

/-- The new version has the coerced values of the expressions on the old row, the other columns but
the generated ones keep their values, and the order in which the `SET` list is written does not
matter. -/
structure UpdatesAtOnce (new : List Value) : Prop where
  assigned : ∀ t ∈ targets, ∃ v,
    setValue ext columns names source t row = .ok v ∧ new[t.1]? = some v
  others : ∀ i ∉ targets.map Prod.fst,
    columns[i]?.bind ColumnDef.generated = none → new[i]? = row[i]?
  order : ∀ order, order.Perm targets → newVersion ext columns names source order row = .ok new

/-- The expressions have values on the old row, and none of them gives another one on the row in
which some of the other columns have their new values. -/
def Independent : Prop :=
  ∃ new, Assignment.Simultaneous (targets.map (toAssignment ext columns names source)) row new ∧
    ∀ before target after, (before ++ target :: after).Perm targets →
      setValue ext columns names source target
          (Assignment.mix row new (before.map Prod.fst)) =
        setValue ext columns names source target row

/-- No expression reads on the old row a column that another item assigns. -/
def Unread : Prop :=
  ∀ t ∈ targets, ∀ qualifier name idx,
    .column qualifier name ∈ (evaluation ext t.2).reached
      (rowAnswers ext.scalarFunction names (dmlEvalRow row source)) →
    resolveColumn names qualifier name = .ok idx → ∀ u ∈ targets, u.1 ≠ t.1 → u.1 ≠ idx

variable {ext columns names source targets row}

/-- **Expressions that read no other assigned column** are independent as soon as they have values. -/
theorem independent_iff_of_unread (hunread : Unread ext names source targets row)
    (hdistinct : (targets.map Prod.fst).Nodup) :
    Independent ext columns names source targets row ↔
      ∃ new, Assignment.Simultaneous (targets.map (toAssignment ext columns names source)) row
        new := by
  refine exists_congr fun new => and_iff_left_of_imp fun hsim before t after hperm => ?_
  have hnodup := (hperm.map Prod.fst).nodup_iff.mpr hdistinct
  rw [map_append, map_cons] at hnodup
  rw [setValue, setValue, evalExpr_of_columns fun qualifier name hread => ?_]
  rw [columnAnswer, columnAnswer]
  rcases hidx : resolveColumn names qualifier name with m | idx
  · rfl
  have hplace : idx ∉ before.map Prod.fst := by
    intro hmem
    obtain ⟨u, hu, rfl⟩ := mem_map.mp hmem
    refine hunread t (hperm.subset (by simp)) qualifier name _ hread hidx u
      (hperm.subset (mem_append_left _ hu)) (fun heq => ?_) rfl
    exact (nodup_append.mp hnodup).2.2 _ (mem_map_of_mem hu) _ (.head _) heq
  have hcell : (dmlEvalRow (Assignment.mix row new (before.map Prod.fst)) source)[idx]? =
      (dmlEvalRow row source)[idx]? := by
    rw [dmlEvalRow, dmlEvalRow, getElem?_append, getElem?_append,
      Assignment.getElem?_mix hsim.length, if_neg hplace, Assignment.mix, length_mapIdx]
  dsimp only
  rw [hcell]

/-- An order of the assignments is one of the `SET` list. -/
theorem exists_perm_of_perm_map {order : List (Assignment String Value)}
    (h : order.Perm (targets.map (toAssignment ext columns names source))) :
    ∃ targets' : List (Nat × Expr), targets'.Perm targets ∧
      order = targets'.map (toAssignment ext columns names source) := by
  have hcomp := congrFun₂ (eq_map_comp_perm (toAssignment ext columns names source)) order
    targets
  obtain ⟨targets', heq, hperm⟩ := hcomp.symm ▸ h
  exact ⟨targets', hperm, heq⟩

theorem targets_toAssignment :
    Assignment.targets (targets.map (toAssignment ext columns names source)) =
      targets.map Prod.fst :=
  map_map

theorem forall_order_iff (new : List Value) :
    (∀ order, order.Perm targets → assignTargets ext columns names source order row = .ok new) ↔
      ∀ order, order.Perm (targets.map (toAssignment ext columns names source)) →
        Assignment.run row order = .ok new := by
  constructor
  · intro h order horder
    obtain ⟨targets', hperm, rfl⟩ := exists_perm_of_perm_map horder
    exact h targets' hperm
  · exact fun h order horder => h _ (horder.map _)

theorem stable_iff (new : List Value) :
    (∀ before target after, (before ++ target :: after).Perm targets →
      setValue ext columns names source target (Assignment.mix row new (before.map Prod.fst)) =
        setValue ext columns names source target row) ↔
      Assignment.Stable (targets.map (toAssignment ext columns names source)) row new := by
  constructor
  · intro h before a after hperm
    obtain ⟨targets', hperm', heq⟩ := exists_perm_of_perm_map hperm
    obtain ⟨before', rest', rfl, rfl, hrest⟩ := append_eq_map_iff.mp heq
    obtain ⟨target, after', rfl, rfl, rfl⟩ := map_eq_cons_iff.mp hrest
    rw [targets_toAssignment]
    exact h before' target after' hperm'
  · intro h before target after hperm
    have := h (before.map _) (toAssignment ext columns names source target) (after.map _)
      (by simpa using hperm.map (toAssignment ext columns names source))
    rwa [targets_toAssignment] at this

/-- The generated columns are computed without a change to the others. -/
theorem frame_of_generateFrom {i : Nat} {rest : List ColumnDef} {new : List Value}
    (h : generateFrom ext columns i row rest = .ok new) :
    new.length = row.length ∧
      ∀ j, (∀ k, j = i + k → rest[k]?.bind ColumnDef.generated = none) → new[j]? = row[j]? := by
  induction rest generalizing i row with
  | nil =>
    cases h
    exact ⟨rfl, fun _ _ => rfl⟩
  | cons column rest ih =>
    have htail : ∀ {j}, (∀ k, j = i + k → (column :: rest)[k]?.bind ColumnDef.generated = none) →
        ∀ k, j = i + 1 + k → rest[k]?.bind ColumnDef.generated = none := fun hj k hk =>
      hj (k + 1) (by omega)
    rw [generateFrom] at h
    split at h
    · obtain ⟨hlength, hothers⟩ := ih h
      exact ⟨hlength, fun j hj => hothers j (htail hj)⟩
    · next expr hgenerated =>
      obtain ⟨value, -, h⟩ := of_bind_eq_ok h
      obtain ⟨value', -, h⟩ := of_bind_eq_ok h
      obtain ⟨hlength, hothers⟩ := ih h
      refine ⟨hlength.trans length_set, fun j hj => ?_⟩
      have hne : i ≠ j := fun hij => by
        have := hj 0 (by omega)
        rw [getElem?_cons_zero, Option.bind_some, hgenerated] at this
        cases this
      rw [hothers j (htail hj), getElem?_set_ne hne]

section Places

variable {table : String} {assignments : List (String × Expr)} {new mid : List Value}

/-- The loop gives one row in every order, that of a simultaneous assignment, if and only if the
expressions are independent. -/
theorem exists_assignTargets_iff (h : resolveTargets table columns assignments = .ok targets)
    (hdistinct : (assignments.map Prod.fst).Nodup) (hrow : row.length = columns.length) :
    (∃ new, Assignment.Simultaneous (targets.map (toAssignment ext columns names source)) row new ∧
        ∀ order, order.Perm targets →
          assignTargets ext columns names source order row = .ok new) ↔
      Independent ext columns names source targets row := by
  have hrange : ∀ i ∈ targets.map Prod.fst, i < row.length := by
    refine List.forall_mem_map.mpr fun t ht => ?_
    obtain ⟨column, hcolumn, -⟩ := exists_of_mem_targets h t ht
    exact hrow ▸ (List.getElem?_eq_some_iff.mp hcolumn).1
  have hiff := @Assignment.forall_run_iff String Value
    (targets.map (toAssignment ext columns names source)) row
    (targets_toAssignment ▸ nodup_of_resolveTargets h hdistinct) (targets_toAssignment ▸ hrange)
  rw [exists_congr fun new => and_congr_right fun _ => forall_order_iff new, hiff]
  exact exists_congr fun new => and_congr_right fun _ => (stable_iff new).symm

theorem not_generated_of_mem (h : resolveTargets table columns assignments = .ok targets)
    (ht : t ∈ targets) : columns[t.1]?.bind ColumnDef.generated = none := by
  obtain ⟨column, hcolumn, hgenerated⟩ := exists_of_mem_targets h t ht
  rw [hcolumn, Option.bind_some, hgenerated]

variable {order : List (Nat × Expr)}

/-- The row behind a new version. -/
theorem exists_of_newVersion (h : newVersion ext columns names source order row = .ok new) :
    ∃ mid, assignTargets ext columns names source order row = .ok mid ∧
      applyGeneratedColumns ext columns mid = .ok new ∧
      ∀ i : Nat, columns[i]?.bind ColumnDef.generated = none → new[i]? = mid[i]? := by
  obtain ⟨mid, hmid, hnew⟩ := of_bind_eq_ok h
  refine ⟨mid, hmid, hnew, fun i hi => ?_⟩
  exact (frame_of_generateFrom hnew).2 i fun k hk => by rwa [← (by omega : i = k)]

/-- The row behind the new version of simultaneous assignments is the simultaneous one. -/
theorem UpdatesAtOnce.simultaneous (hnew : UpdatesAtOnce ext columns names source targets row new)
    (h : resolveTargets table columns assignments = .ok targets) (horder : order.Perm targets)
    (hmid : assignTargets ext columns names source order row = .ok mid)
    (hframe : ∀ i : Nat, columns[i]?.bind ColumnDef.generated = none → new[i]? = mid[i]?) :
    Assignment.Simultaneous (targets.map (toAssignment ext columns names source)) row mid := by
  obtain ⟨hlength, hothers⟩ := Assignment.frame_of_run hmid
  refine ⟨hlength, forall_mem_map.mpr fun t ht => ?_, fun i hi => hothers i fun hmem => hi ?_⟩
  · obtain ⟨v, hv, hat⟩ := hnew.assigned t ht
    exact ⟨v, hv, hframe t.1 (not_generated_of_mem h ht) ▸ hat⟩
  · rw [targets_toAssignment] at hmem ⊢
    exact (horder.map Prod.fst).mem_iff.mp hmem

/-- **SET lists**: the new version of a row in an `UPDATE` of distinct columns has the values of all
expressions on the old row, whatever the order they are written in, if and only if the expressions
are independent of each other's new values. -/
theorem updatesAtOnce_iff (h : resolveTargets table columns assignments = .ok targets)
    (hdistinct : (assignments.map Prod.fst).Nodup) (hrow : row.length = columns.length)
    (hnew : newVersion ext columns names source targets row = .ok new) :
    UpdatesAtOnce ext columns names source targets row new ↔
      Independent ext columns names source targets row := by
  rw [← exists_assignTargets_iff h hdistinct hrow]
  constructor
  · intro honce
    obtain ⟨mid, hmid, -, hframe⟩ := exists_of_newVersion hnew
    have hsim := honce.simultaneous h (.refl _) hmid hframe
    refine ⟨mid, hsim, fun order horder => ?_⟩
    obtain ⟨mid', hmid', -, hframe'⟩ := exists_of_newVersion (honce.order order horder)
    rw [hmid', hsim.unique (honce.simultaneous h horder hmid' hframe')]
  · rintro ⟨mid, hsim, hall⟩
    obtain ⟨mid', hmid', hgenerated, hframe⟩ := exists_of_newVersion hnew
    obtain rfl : mid' = mid := Except.ok.inj (hmid'.symm.trans (hall targets (.refl _)))
    refine ⟨fun t ht => ?_, fun i hi hplain => ?_, fun order horder => ?_⟩
    · obtain ⟨v, hv, hat⟩ := hsim.assigned _ (mem_map_of_mem ht)
      exact ⟨v, hv, (hframe t.1 (not_generated_of_mem h ht)).trans hat⟩
    · rw [hframe i hplain, hsim.others i (targets_toAssignment ▸ hi)]
    · rw [newVersion, hall order horder]
      exact hgenerated

end Places

end AtOnce

/-! ## Two integer columns -/

/-- Two integer columns, none of them generated. -/
def twoIntegers : List ColumnDef :=
  [{ name := "a", dataType := .int8, notNull := false, generated := none },
    { name := "b", dataType := .int8, notNull := false, generated := none }]

theorem setValue_integer {i : Int} (ht : t.1 < 2) (he : t.2 = .int i) (row : List Value) :
    setValue bareExternals twoIntegers ["a", "b"] none t row = .ok (.int i) := by
  obtain ⟨k, e⟩ := t
  obtain rfl : e = .int i := he
  obtain rfl | rfl : k = 0 ∨ k = 1 := by
    omega
  all_goals rfl

/-- Two integers are assigned at once. -/
theorem updatesAtOnce_integers :
    UpdatesAtOnce bareExternals twoIntegers ["a", "b"] none [(0, .int 7), (1, .int 8)]
      [.int 1, .int 2] [.int 7, .int 8] := by
  have hnew : newVersion bareExternals twoIntegers ["a", "b"] none [(0, .int 7), (1, .int 8)]
      [.int 1, .int 2] = .ok [.int 7, .int 8] := by
    rfl
  have hassigned : ∀ t ∈ [(0, Expr.int 7), (1, .int 8)], ∃ i, t.1 < 2 ∧ t.2 = .int i ∧
      [Value.int 7, .int 8][t.1]? = some (.int i) := by
    intro t ht
    rcases mem_pair.mp ht with rfl | rfl
    · exact ⟨7, by decide, rfl, rfl⟩
    · exact ⟨8, by decide, rfl, rfl⟩
  refine (@updatesAtOnce_iff bareExternals twoIntegers ["a", "b"] none _ _ "t"
    [("a", .int 7), ("b", .int 8)] _ rfl (by decide) rfl hnew).mpr
    ((independent_iff_of_unread (fun t ht qualifier name idx hread => ?_) (by decide)).mpr
      ⟨[.int 7, .int 8], rfl, forall_mem_map.mpr fun t ht => ?_, fun i hi => ?_⟩)
  · rcases mem_pair.mp ht with rfl | rfl <;> cases hread
  · obtain ⟨i, hlt, he, hat⟩ := hassigned t ht
    exact ⟨.int i, setValue_integer hlt he _, hat⟩
  · match i with
    | 0 => exact absurd (.head _) hi
    | 1 => exact absurd (.tail _ (.head _)) hi
    | i + 2 => rfl

/-- An exchange of two columns: the second assignment reads what the first one has written, and both
columns end up with the value of the second one. -/
theorem not_updatesAtOnce_exchange :
    resolveTargets "t" twoIntegers [("a", .column "b"), ("b", .column "a")] =
        .ok [(0, .column "b"), (1, .column "a")] ∧
      newVersion bareExternals twoIntegers ["a", "b"] none [(0, .column "b"), (1, .column "a")]
        [.int 1, .int 2] = .ok [.int 2, .int 2] ∧
      ¬UpdatesAtOnce bareExternals twoIntegers ["a", "b"] none
        [(0, .column "b"), (1, .column "a")] [.int 1, .int 2] [.int 2, .int 2] := by
  refine ⟨rfl, ?_, fun honce => ?_⟩
  · rfl
  · obtain ⟨v, hv, hat⟩ := honce.assigned (1, .column "a") (by simp)
    obtain rfl : Value.int 1 = v := Except.ok.inj hv
    exact absurd (Option.some.inj hat) (by decide)

end PostgresRs.Exec
