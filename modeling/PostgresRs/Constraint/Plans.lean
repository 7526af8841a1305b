import PostgresRs.Constraint.Program
import PostgresRs.Constraint.Shape

/-!
# What a plan says

For each of the statements that write rows: how the new rows of a plan that comes about are made,
and which checks they have passed.

* `Planned` — the new rows are made by assignments of the statement (`Change.Made`), and the foreign
  keys of the table were checked for each of them.
* `planned_planInsert`, `planned_planUpdate`, `planned_planDelete`, `planned_planMerge` — with it,
  which rows that go were checked against the foreign keys of other tables: all of them for `UPDATE`
  and `DELETE`, those that are deleted for `MERGE`, none for `INSERT … ON CONFLICT`.
* `exists_planned_of_perform` — a statement that writes rows carries out such a plan.
-/

namespace PostgresRs.Constraint

open Storage Exec List

variable {env : Environment} {db : Database} {r : Relation} {c : Change} {name : String}

/-- The assignments that make a row that a command inserts. -/
def Command.Inserts (env : Environment) (r : Relation) : Command → Program → Prop
  | .insert call => call.Inserts env r
  | .merge call => call.Inserts env r
  | _ => fun _ => False

/-- The assignments that a command makes to the row at a position. -/
def Command.Updates (env : Environment) (r : Relation) :
    Command → Nat → List Value → Program → Prop
  | .insert call => call.Updates env r
  | .update call => call.Updates env r
  | .merge call => fun _ => call.Updates env r
  | _ => fun _ _ _ => False

/-- The table that a command writes to. -/
def Command.Targets : Command → String → Prop
  | .insert call, name => call.stmt.table = name
  | .update call, name => call.stmt.table = name
  | .delete call, name => call.stmt.table = name
  | .merge call, name => ∃ m, call.stmt = .ok m ∧ m.target = name
  | _, _ => False

/-- A change of the table `name` whose new rows have passed. -/
structure Planned (env : Environment) (db : Database) (cmd : Command) (name : String) (r : Relation)
    (c : Change) : Prop where
  target : cmd.Targets name
  table : db.table name = some r
  made : c.Made r (cmd.Inserts env r) (cmd.Updates env r)
  foreignKeys : ∀ row ∈ c.newRows, db.checkForeignKeyConstraints name row = .ok ()

theorem length_detoastRow {t : Table} (row : List Value) :
    (t.detoastRow row).length = row.length := length_map _

/-- The new rows are as wide as the table. -/
theorem Change.Made.width {Inserts : Program → Prop} {Updates : Nat → List Value → Program → Prop}
    (h : c.Made r Inserts Updates) (hfits : r.table.Fits r.table.columns.length) :
    ∀ row ∈ c.newRows, row.length = r.table.columns.length := by
  intro row hrow
  rcases mem_append.mp hrow with hrow | hrow
  · obtain ⟨u, hu, rfl⟩ := mem_map.mp hrow
    obtain ⟨stored, p, hstored, -, hrun⟩ := h.updates u hu
    rw [(Assignment.frame_of_run hrun).1, length_detoastRow]
    exact hfits.rows stored (mem_of_getElem? hstored)
  · obtain ⟨-, p, -, hrun⟩ := h.inserts row hrow
    rw [(Assignment.frame_of_run hrun).1, length_replicate, Relation.length_columns]

theorem storedRow_eq_ok {pos : Nat} {stored : List Value} (h : r.storedRow pos = .ok stored) :
    r.table.rows[pos]? = some stored := by
  rw [Relation.storedRow] at h
  split at h
  · next hrow =>
    cases h
    exact hrow
  · cases h

theorem foreignKeys_of_checkRows {rows : List (List Value)}
    (h : checkRows env db name r rows = .ok ()) :
    ∀ row ∈ rows, db.checkForeignKeyConstraints name row = .ok () := by
  obtain ⟨-, h⟩ := and_of_bind_eq_ok h
  obtain ⟨-, h⟩ := and_of_bind_eq_ok h
  exact forM_eq_ok_iff.mp h

/-! ## INSERT -/

section Insert

variable {call : InsertCall} {rows : List (List Value)}

/-- The rows of an `INSERT` are made by its assignments. -/
theorem InsertCall.made_newRows (h : call.newRows env r = .ok rows) :
    ∀ row ∈ rows, checkNotNull r.columns row = .ok () ∧ ∃ p, call.Inserts env r p ∧
      Assignment.run (List.replicate r.columns.length .null) p = .ok row := by
  obtain ⟨targets, htargets, h⟩ := of_bind_eq_ok h
  obtain ⟨inputs, hinputs, h⟩ := of_bind_eq_ok h
  intro row hrow
  obtain ⟨⟨values, i⟩, hmem, hcall⟩ := exists_of_mem_mapM h row hrow
  rw [InsertCall.row] at hcall
  split at hcall
  · cases hcall
  obtain ⟨given, hgiven, hcall⟩ := of_bind_eq_ok hcall
  have hfinish := ofError_eq_ok hcall
  obtain ⟨-, -, -, hnull⟩ := finishInsertRow_eq_ok hfinish
  exact ⟨hnull, _, ⟨targets, inputs, i, values, htargets, ofError_eq_ok hinputs,
    mk_mem_zipIdx_iff_getElem?.mp hmem, rfl⟩, run_insertProgram hgiven hfinish⟩

theorem InsertCall.length_newRows (h : call.newRows env r = .ok rows) :
    ∀ row ∈ rows, row.length = r.table.columns.length := by
  intro row hrow
  obtain ⟨-, p, -, hrun⟩ := made_newRows h row hrow
  rw [(Assignment.frame_of_run hrun).1, length_replicate, Relation.length_columns]

theorem Relation.acceptRows_subset {accepted accepted' : List (List Value)}
    (h : r.acceptRows accepted rows = .ok accepted') : accepted' ⊆ accepted ++ rows := by
  induction rows generalizing accepted with
  | nil =>
    cases h
    exact subset_append_left _ _
  | cons row rows ih =>
    have hskip : accepted ++ rows ⊆ accepted ++ row :: rows :=
      append_subset.mpr ⟨subset_append_left _ _,
        List.Subset.trans (subset_cons_self row rows) (subset_append_right _ _)⟩
    obtain ⟨o, -, h⟩ := of_bind_eq_ok h
    split at h
    · exact List.Subset.trans (ih h) hskip
    · obtain ⟨prior, -, h⟩ := of_bind_eq_ok h
      split at h
      · exact List.Subset.trans (ih h) hskip
      · exact List.Subset.trans (ih h) (by simp)

variable {assignments : List (String × Expr)} {filter : Option Expr}

/-- What `DO UPDATE` makes of a row. -/
theorem upsertedRow_eq_ok {columns : List FullColumn} {existing row updated : List Value}
    (h : upsertedRow env columns assignments filter existing row = .ok (some updated)) :
    isTrueOf env (onConflictEvalNames columns) (existing ++ row) filter = .ok true ∧
      Assignment.run existing (assignProgram env columns (onConflictEvalNames columns)
        (existing ++ row) assignments) = .ok updated := by
  obtain ⟨wanted, hwanted, h⟩ := of_bind_eq_ok h
  split at h
  · cases h
  next htrue =>
  obtain ⟨assigned, hassigned, h⟩ := of_bind_eq_ok h
  obtain ⟨new, hnew, h⟩ := of_bind_eq_ok h
  cases h
  rw [Bool.not_eq_true', Bool.not_eq_false] at htrue
  exact ⟨htrue ▸ hwanted, run_assignProgram hassigned (ofError_eq_ok hnew)⟩

/-- What `DO UPDATE` replaces and appends. -/
theorem upserts_eq_ok {target : List String} {touched : List Nat}
    {updates : List (Nat × List Value)} {inserts : List (List Value)}
    (h : upserts env r target assignments filter touched rows = .ok (updates, inserts)) :
    (∀ u ∈ updates, ∃ row ∈ rows, ∃ stored, r.table.rows[u.1]? = some stored ∧
      r.conflictPositionForRow row target = .ok (some u.1) ∧
      upsertedRow env r.columns assignments filter (r.table.detoastRow stored) row =
        .ok (some u.2)) ∧ inserts ⊆ rows := by
  induction rows generalizing touched updates inserts with
  | nil =>
    cases h
    exact ⟨nofun, List.Subset.refl _⟩
  | cons row rows ih =>
    have hlater : ∀ {P : List Value → Prop}, (∃ row ∈ rows, P row) → ∃ row' ∈ row :: rows, P row' :=
      fun ⟨row', hmem, hP⟩ => ⟨row', .tail _ hmem, hP⟩
    obtain ⟨o, ho, h⟩ := of_bind_eq_ok h
    rcases o with _ | pos
    · obtain ⟨⟨updates', inserts'⟩, hrest, h⟩ := of_bind_eq_ok h
      cases h
      obtain ⟨hupdates, hinserts⟩ := ih hrest
      exact ⟨fun u hu => hlater (hupdates u hu), cons_subset_cons row hinserts⟩
    · replace h : (if pos ∈ touched then _ else _) = _ := h
      split at h
      · cases h
      obtain ⟨stored, hstored, h⟩ := of_bind_eq_ok h
      obtain ⟨o, hupdated, h⟩ := of_bind_eq_ok h
      rcases o with _ | updated
      · obtain ⟨hupdates, hinserts⟩ := ih h
        exact ⟨fun u hu => hlater (hupdates u hu),
          List.Subset.trans hinserts (subset_cons_self _ _)⟩
      · obtain ⟨⟨updates', inserts'⟩, hrest, h⟩ := of_bind_eq_ok h
        cases h
        obtain ⟨hupdates, hinserts⟩ := ih hrest
        exact ⟨forall_mem_cons.mpr ⟨⟨row, .head _, stored, storedRow_eq_ok hstored, ho,
            hupdated⟩, fun u hu => hlater (hupdates u hu)⟩,
          List.Subset.trans hinserts (subset_cons_self _ _)⟩

/-- What an `INSERT` comes to. -/
theorem planInsert_eq_ok (h : planInsert env db call = .ok c) : ∃ r rows,
    db.table call.stmt.table = some r ∧ call.newRows env r = .ok rows ∧
    checkRows env db call.stmt.table r rows = .ok () ∧ c.deletes = [] ∧
    match call.stmt.onConflict with
    | none => c.updates = [] ∧ c.inserts = rows
    | some (.doNothing _) => c.updates = [] ∧ r.acceptRows [] rows = .ok c.inserts
    | some (.doUpdate target assignments filter) =>
      upserts env r target assignments filter [] rows = .ok (c.updates, c.inserts) ∧
        (∀ u ∈ c.updates, db.checkForeignKeyConstraints call.stmt.table u.2 = .ok ()) := by
  obtain ⟨r, hr, h⟩ := Database.exists_of_target h
  cases hconflict : call.stmt.onConflict with
  | none =>
    rw [hconflict] at h
    obtain ⟨rows, hrows, h⟩ := of_bind_eq_ok h
    obtain ⟨hchecks, h⟩ := and_of_bind_eq_ok h
    obtain ⟨-, h⟩ := and_of_bind_eq_ok h
    obtain ⟨-, h⟩ := and_of_bind_eq_ok h
    obtain ⟨-, h⟩ := and_of_bind_eq_ok h
    cases h
    exact ⟨r, rows, hr, hrows, hchecks, rfl, rfl, rfl⟩
  | some onConflict =>
    rw [hconflict] at h
    obtain ⟨-, h⟩ := and_of_bind_eq_ok h
    obtain ⟨rows, hrows, h⟩ := of_bind_eq_ok h
    obtain ⟨hchecks, h⟩ := and_of_bind_eq_ok h
    cases onConflict with
    | doNothing target =>
      obtain ⟨accepted, haccepted, h⟩ := of_bind_eq_ok h
      obtain ⟨-, h⟩ := and_of_bind_eq_ok h
      cases h
      exact ⟨r, rows, hr, hrows, hchecks, rfl, rfl, haccepted⟩
    | doUpdate target assignments filter =>
      obtain ⟨⟨updates, inserts⟩, hupserts, h⟩ := of_bind_eq_ok h
      obtain ⟨-, h⟩ := and_of_bind_eq_ok h
      obtain ⟨-, h⟩ := and_of_bind_eq_ok h
      obtain ⟨-, h⟩ := and_of_bind_eq_ok h
      obtain ⟨-, h⟩ := and_of_bind_eq_ok h
      obtain ⟨hupdates, h⟩ := and_of_bind_eq_ok h
      obtain ⟨-, h⟩ := and_of_bind_eq_ok h
      obtain ⟨-, h⟩ := and_of_bind_eq_ok h
      cases h
      exact ⟨r, rows, hr, hrows, hchecks, rfl, hupserts, forM_eq_ok_iff.mp hupdates⟩

/-- **The rows of an `INSERT`** have passed. -/
theorem planned_planInsert (h : planInsert env db call = .ok c) :
    ∃ r, Planned env db (.insert call) call.stmt.table r c ∧ c.deletes = [] ∧
      ((∀ target assignments filter,
        call.stmt.onConflict ≠ some (.doUpdate target assignments filter)) → c.updates = []) := by
  obtain ⟨r, rows, hr, hrows, hchecks, hdeletes, hcases⟩ := planInsert_eq_ok h
  have hmade := InsertCall.made_newRows hrows
  have hforeign := foreignKeys_of_checkRows hchecks
  -- The rows that are appended are some of those that were checked.
  have hsome : c.inserts ⊆ rows → c.updates = [] →
      Planned env db (.insert call) call.stmt.table r c := by
    intro hsub hupdates
    have hnew : c.newRows = c.inserts := by rw [Change.newRows, hupdates]; rfl
    exact ⟨rfl, hr, ⟨fun row hrow => hmade row (hsub hrow), hupdates ▸ forall_mem_nil _⟩,
      hnew ▸ fun row hrow => hforeign row (hsub hrow)⟩
  cases hconflict : call.stmt.onConflict with
  | none =>
    rw [hconflict] at hcases
    exact ⟨r, hsome (hcases.2 ▸ List.Subset.refl _) hcases.1, hdeletes, fun _ => hcases.1⟩
  | some onConflict =>
    rw [hconflict] at hcases
    cases onConflict with
    | doNothing target =>
      exact ⟨r, hsome (Relation.acceptRows_subset hcases.2) hcases.1, hdeletes, fun _ => hcases.1⟩
    | doUpdate target assignments filter =>
      obtain ⟨hupdates, hsub⟩ := upserts_eq_ok hcases.1
      refine ⟨r, ⟨rfl, hr, ⟨fun row hrow => hmade row (hsub hrow), fun u hu => ?_⟩, fun row hrow => ?_⟩,
        hdeletes, fun hno => absurd rfl (hno target assignments filter)⟩
      · obtain ⟨row, hrow, stored, hstored, hposition, hupdated⟩ := hupdates u hu
        obtain ⟨htrue, hrun⟩ := upsertedRow_eq_ok hupdated
        exact ⟨stored, _, hstored, ⟨target, assignments, filter, rows, row, hconflict, hrows, hrow,
          hposition, htrue, rfl⟩, hrun⟩
      · rcases mem_append.mp hrow with hrow | hrow
        · obtain ⟨u, hu, rfl⟩ := mem_map.mp hrow
          exact hcases.2 u hu
        · exact hforeign row (hsub hrow)

end Insert

/-! ## UPDATE and DELETE -/

section Update

variable {call : UpdateCall}

theorem UpdateCall.versions_eq_ok {targets : List (Nat × Expr)} {positions : List Nat}
    {versions : List (Nat × List Value)} (h : call.versions env r targets positions = .ok versions) :
    ∀ u ∈ versions, ∃ stored source, r.table.rows[u.1]? = some stored ∧
      call.selected u.1 (r.table.detoastRow stored) = .ok (some source) ∧
      newVersion env.ext (r.columns.map FullColumn.toDef) call.names source targets
        (r.table.detoastRow stored) = .ok u.2 := by
  induction positions generalizing versions with
  | nil =>
    cases h
    exact nofun
  | cons pos rest ih =>
    obtain ⟨stored, hstored, h⟩ := of_bind_eq_ok h
    obtain ⟨o, hselected, h⟩ := of_bind_eq_ok h
    rcases o with _ | source
    · exact ih h
    · obtain ⟨new, hnew, h⟩ := of_bind_eq_ok h
      obtain ⟨versions', hversions, h⟩ := of_bind_eq_ok h
      cases h
      exact forall_mem_cons.mpr ⟨⟨stored, source, storedRow_eq_ok hstored,
        ofError_eq_ok hselected, ofError_eq_ok hnew⟩, ih hversions⟩

/-- **The rows of an `UPDATE`** have passed, and so have the keys that they change. -/
theorem planned_planUpdate (h : planUpdate env db call = .ok c) :
    ∃ r, Planned env db (.update call) call.stmt.table r c ∧ c.deletes = [] ∧ c.inserts = [] ∧
      ∀ u ∈ c.updates, checkKeyChange db call.stmt.table r u = .ok () := by
  obtain ⟨assignments, hassignments, h⟩ := of_bind_eq_ok h
  obtain ⟨r, hr, h⟩ := Database.exists_of_target h
  obtain ⟨targets, htargets, h⟩ := of_bind_eq_ok h
  obtain ⟨candidates, -, h⟩ := of_bind_eq_ok h
  obtain ⟨versions, hversions, h⟩ := of_bind_eq_ok h
  obtain ⟨hchecks, h⟩ := and_of_bind_eq_ok h
  obtain ⟨hkeys, h⟩ := and_of_bind_eq_ok h
  obtain ⟨-, h⟩ := and_of_bind_eq_ok h
  obtain ⟨-, h⟩ := and_of_bind_eq_ok h
  obtain ⟨-, h⟩ := and_of_bind_eq_ok h
  cases h
  refine ⟨r, ⟨rfl, hr, ⟨nofun, fun u hu => ?_⟩, ?_⟩, rfl, rfl, forM_eq_ok_iff.mp hkeys⟩
  · obtain ⟨stored, source, hstored, hselected, hnew⟩ := UpdateCall.versions_eq_ok hversions u hu
    exact ⟨stored, _, hstored, ⟨assignments, targets, source, ofError_eq_ok hassignments,
      ofError_eq_ok htargets, hselected, rfl⟩, run_updateProgram hnew⟩
  · rw [Change.newRows, append_nil]
    exact foreignKeys_of_checkRows hchecks

/-- **The rows of a `DELETE`** are not referred to. -/
theorem planned_planDelete {call : DeleteCall} (h : planDelete db call = .ok c) :
    ∃ r, Planned env db (.delete call) call.stmt.table r c ∧ c.updates = [] ∧ c.inserts = [] ∧
      ∀ pos ∈ c.deletes, ∃ stored, r.table.rows[pos]? = some stored ∧
        db.checkParentKeyNotReferenced call.stmt.table (r.table.detoastRow stored) = .ok () := by
  obtain ⟨-, h⟩ := and_of_bind_eq_ok h
  obtain ⟨r, hr, h⟩ := Database.exists_of_target h
  obtain ⟨candidates, -, h⟩ := of_bind_eq_ok h
  obtain ⟨matched, -, h⟩ := of_bind_eq_ok h
  obtain ⟨affected, haffected, h⟩ := of_bind_eq_ok h
  obtain ⟨hparents, h⟩ := and_of_bind_eq_ok h
  obtain ⟨-, h⟩ := and_of_bind_eq_ok h
  cases h
  refine ⟨r, ⟨rfl, hr, ⟨nofun, nofun⟩, nofun⟩, rfl, rfl, fun pos hpos => ?_⟩
  obtain ⟨i, hi⟩ := mem_iff_getElem?.mp hpos
  obtain ⟨row, hrow, hread⟩ := getElem?_of_mapM_eq_ok haffected hi
  obtain ⟨stored, hstored, hread⟩ := of_bind_eq_ok hread
  cases hread
  exact ⟨stored, storedRow_eq_ok hstored,
    forM_eq_ok_iff.mp hparents _ (mem_of_getElem? hrow)⟩

end Update

/-! ## MERGE -/

section Merge

variable {call : MergeCall} {m : Merge} {sourceNames : List String}
  {sourceRows : List (List Value)} {sourceRow : List Value} {s s' : MergeState}

/-- What the loop over the source has found so far is made by the assignments of the statement. -/
abbrev MergeState.Made (env : Environment) (call : MergeCall) (r : Relation) (s : MergeState) :
    Prop :=
  s.change.Made r (call.Inserts env r) fun _ => call.Updates env r

/-- The row at a position matches a row of the source. -/
def Matches (env : Environment) (m : Merge) (sourceNames : List String) (r : Relation)
    (sourceRow : List Value) (pos : Nat) : Prop :=
  ∃ stored v, r.table.rows[pos]? = some stored ∧
    evalExpr env.ext (mergeCondNames m r.columns sourceNames)
      (r.table.detoastRow stored ++ sourceRow) m.on = .ok v ∧ v.isTrue = true

/-- The rows that are found are those that match and have not been acted on. -/
theorem mergeMatches_eq_ok {touched positions found : List Nat}
    (h : mergeMatches env m r.columns sourceNames r sourceRow touched positions = .ok found) :
    found.Sublist positions ∧ ∀ pos, pos ∈ found ↔
      pos ∈ positions ∧ pos ∉ touched ∧ Matches env m sourceNames r sourceRow pos := by
  induction positions generalizing found with
  | nil =>
    cases h
    exact ⟨.slnil, fun pos => iff_of_false nofun fun hmem => nomatch hmem.1⟩
  | cons pos rest ih =>
    -- A position that is left out is touched or does not match.
    have hskip : ∀ {found : List Nat}, ¬(pos ∉ touched ∧ Matches env m sourceNames r sourceRow pos) →
        (∀ p, p ∈ found ↔ p ∈ rest ∧ p ∉ touched ∧ Matches env m sourceNames r sourceRow p) →
        ∀ p, p ∈ found ↔ p ∈ pos :: rest ∧ p ∉ touched ∧
          Matches env m sourceNames r sourceRow p := by
      intro found hno hfound p
      rw [hfound p, mem_cons, or_and_right, or_iff_right]
      rintro ⟨rfl, hyes⟩
      exact hno hyes
    rw [mergeMatches] at h
    split at h
    · next htouched =>
      obtain ⟨hsub, hfound⟩ := ih h
      exact ⟨hsub.cons _, hskip (fun hno => hno.1 htouched) hfound⟩
    · next htouched =>
      obtain ⟨stored, hstored, h⟩ := of_bind_eq_ok h
      obtain ⟨v, hv, h⟩ := of_bind_eq_ok h
      obtain ⟨found', hfound', h⟩ := of_bind_eq_ok h
      cases h
      obtain ⟨hsub, hfound⟩ := ih hfound'
      have hstored := storedRow_eq_ok hstored
      have hv := ofError_eq_ok hv
      split
      · next htrue =>
        refine ⟨hsub.cons_cons _, fun p => ?_⟩
        rw [mem_cons, mem_cons, hfound p, or_and_right]
        refine or_congr_left ⟨fun heq => ⟨heq, heq ▸ htouched, heq ▸ ?_⟩, fun hyes => hyes.1⟩
        exact ⟨stored, v, hstored, hv, htrue⟩
      · next hfalse =>
        refine ⟨hsub.cons _, hskip ?_ hfound⟩
        rintro ⟨-, stored', v', hstored', hv', htrue⟩
        cases hstored.symm.trans hstored'
        cases hv.symm.trans hv'
        exact hfalse htrue

section Source

variable (hm : call.stmt = .ok m) (hsource : call.source = .ok (sourceNames, sourceRows))

include hm hsource

section

variable (hrow : sourceRow ∈ sourceRows)
include hrow

theorem MergeCall.made_notMatched (hs : s.Made env call r)
    (h : call.notMatched env m r.columns sourceNames sourceRow s = .ok s') :
    s'.Made env call r := by
  obtain ⟨o, hwhen, h⟩ := of_bind_eq_ok h
  rcases o with _ | action
  · cases h
    exact hs
  cases action with
  | doNothing =>
    cases h
    exact hs
  | insert cols exprs defaultValues =>
    obtain ⟨row, hinserted, h⟩ := of_bind_eq_ok h
    cases h
    refine ⟨forall_mem_append.mpr ⟨hs.inserts, forall_mem_singleton.mpr ?_⟩, hs.updates⟩
    obtain ⟨targets, htargets, hinserted⟩ := of_bind_eq_ok hinserted
    split at hinserted
    · cases hinserted
    obtain ⟨given, hgiven, hinserted⟩ := of_bind_eq_ok hinserted
    have hfinish := ofError_eq_ok hinserted
    obtain ⟨-, -, -, hnull⟩ := finishInsertRow_eq_ok hfinish
    exact ⟨hnull, _, ⟨m, sourceNames, sourceRows, sourceRow, cols, exprs, defaultValues, targets,
      _, hm, hsource, hrow, hwhen, htargets, rfl⟩, run_insertProgram hgiven hfinish⟩
  | update | delete => cases h

theorem made_matchedRow {pos : Nat}
    (hmatches : Matches env m sourceNames r sourceRow pos) (hs : s.Made env call r)
    (h : matchedRow env m r.columns sourceNames r sourceRow s pos = .ok s') :
    s'.Made env call r := by
  obtain ⟨stored, hstored, h⟩ := of_bind_eq_ok h
  obtain ⟨o, hwhen, h⟩ := of_bind_eq_ok h
  rcases o with _ | action
  · cases h
    exact hs
  cases action with
  | doNothing =>
    cases h
    exact hs
  | delete =>
    cases h
    exact ⟨hs.inserts, hs.updates⟩
  | update assignments =>
    obtain ⟨assigned, hassigned, h⟩ := of_bind_eq_ok h
    obtain ⟨new, hnew, h⟩ := of_bind_eq_ok h
    cases h
    have hstored := storedRow_eq_ok hstored
    obtain ⟨stored', v, hstored', hon, htrue⟩ := hmatches
    cases hstored.symm.trans hstored'
    refine ⟨hs.inserts, forall_mem_append.mpr ⟨hs.updates, forall_mem_singleton.mpr ?_⟩⟩
    exact ⟨stored, _, hstored, ⟨m, sourceNames, sourceRows, sourceRow, v, assignments, hm, hsource,
      hrow, hon, htrue, hwhen, rfl⟩, run_assignProgram hassigned (ofError_eq_ok hnew)⟩
  | insert cols exprs defaultValues => cases h

theorem MergeCall.made_sourceRow (hs : s.Made env call r)
    (h : call.sourceRow env m r.columns sourceNames r s sourceRow = .ok s') :
    s'.Made env call r := by
  obtain ⟨positions, hpositions, h⟩ := of_bind_eq_ok h
  have hmatches := fun pos hpos => (((mergeMatches_eq_ok hpositions).2 pos).mp hpos).2.2
  rcases positions with _ | ⟨pos, rest⟩
  · exact made_notMatched hm hsource hrow hs h
  · refine (foldlM_induction (P := fun l s => (∀ pos ∈ l, Matches env m sourceNames r sourceRow pos) ∧
      s.Made env call r) h ⟨hmatches, hs⟩ fun pos l s s' ⟨hl, hs⟩ hstep => ?_).2
    rw [forall_mem_cons] at hl
    exact ⟨hl.2, made_matchedRow hm hsource hrow hl.1 hs hstep⟩

end

/-- All that the loop over the source finds is made so. -/
theorem MergeCall.made_source
    (h : sourceRows.foldlM (call.sourceRow env m r.columns sourceNames r) ⟨[], ⟨[], [], []⟩⟩ =
      .ok s) : s.Made env call r := by
  refine (foldlM_induction (P := fun l s => l ⊆ sourceRows ∧ s.Made env call r) h
    ⟨List.Subset.refl _, nofun, nofun⟩ fun row l s s' ⟨hl, hs⟩ hstep => ?_).2
  exact ⟨(cons_subset.mp hl).2, made_sourceRow hm hsource (hl (.head _)) hs hstep⟩

end Source

/-- **The rows of a `MERGE`** have passed, and those that it deletes are not referred to; what it
replaces was not looked at. -/
theorem planned_planMerge (h : planMerge env db call = .ok (name, c)) :
    ∃ r, Planned env db (.merge call) name r c ∧
      ∀ pos ∈ c.deletes, ∃ stored, r.table.rows[pos]? = some stored ∧
        db.checkParentKeyNotReferenced name stored = .ok () := by
  obtain ⟨m, hm, h⟩ := of_bind_eq_ok h
  obtain ⟨⟨sourceNames, sourceRows⟩, hsource, h⟩ := of_bind_eq_ok h
  obtain ⟨r, hr, h⟩ := Database.exists_of_target h
  obtain ⟨-, h⟩ := and_of_bind_eq_ok h
  obtain ⟨s, hs, h⟩ := of_bind_eq_ok h
  obtain ⟨hchecks, h⟩ := and_of_bind_eq_ok h
  obtain ⟨hdeletes, h⟩ := and_of_bind_eq_ok h
  obtain ⟨-, h⟩ := and_of_bind_eq_ok h
  obtain ⟨-, h⟩ := and_of_bind_eq_ok h
  obtain ⟨-, h⟩ := and_of_bind_eq_ok h
  cases h
  have hmade := MergeCall.made_source (ofError_eq_ok hm) (ofError_eq_ok hsource) hs
  refine ⟨r, ⟨⟨_, ofError_eq_ok hm, rfl⟩, hr, ⟨hmade.inserts, hmade.updates⟩,
    foreignKeys_of_checkRows hchecks⟩,
    fun pos hpos => ?_⟩
  obtain ⟨-, hmem⟩ := mem_filter.mp hpos
  obtain ⟨stored, hstored, hparent⟩ :=
    of_bind_eq_ok (forM_eq_ok_iff.mp hdeletes pos (by simpa using hmem))
  exact ⟨stored, storedRow_eq_ok hstored, hparent⟩

end Merge

/-! ## Commands -/

/-- The command writes rows. -/
def Command.IsWrite : Command → Prop
  | .insert _ | .update _ | .delete _ | .merge _ => True
  | _ => False

variable {db' : Database} {names : Names}

/-- **A statement that writes rows** carries out a change of its table that has passed. -/
theorem exists_planned_of_perform {cmd : Command} (hwrite : cmd.IsWrite)
    (h : perform env names db cmd = .ok db') :
    ∃ name r c r', Planned env db cmd name r c ∧ r.applyChange (evalIndex env.ext) c = .ok r' ∧
      db' = db.setTable name r' := by
  have hwritten : ∀ {name r c}, Planned env db cmd name r c → db.write env name c = .ok db' →
      ∃ name r c r', Planned env db cmd name r c ∧ r.applyChange (evalIndex env.ext) c = .ok r' ∧
        db' = db.setTable name r' := by
    intro name r c hplanned h
    obtain ⟨r₀, hr₀, h⟩ := Database.exists_of_target h
    cases hplanned.table.symm.trans hr₀
    obtain ⟨r', hr', h⟩ := of_bind_eq_ok h
    cases h
    exact ⟨name, r, c, r', hplanned, hr', rfl⟩
  cases cmd with
  | insert call =>
    obtain ⟨r, -, h⟩ := of_bind_eq_ok h
    split at h
    · cases h
    obtain ⟨c, hc, h⟩ := of_bind_eq_ok h
    obtain ⟨r, hplanned, -⟩ := planned_planInsert hc
    exact hwritten hplanned h
  | update call =>
    obtain ⟨c, hc, h⟩ := of_bind_eq_ok h
    obtain ⟨r, hplanned, -⟩ := planned_planUpdate hc
    exact hwritten hplanned h
  | delete call =>
    obtain ⟨c, hc, h⟩ := of_bind_eq_ok h
    obtain ⟨r, hplanned, -⟩ := planned_planDelete hc
    exact hwritten hplanned h
  | merge call =>
    obtain ⟨⟨name, c⟩, hc, h⟩ := of_bind_eq_ok h
    obtain ⟨r, hplanned, -⟩ := planned_planMerge hc
    exact hwritten hplanned h
  | _ => exact hwrite.elim

end PostgresRs.Constraint
