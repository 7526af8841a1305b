import PostgresRs.Exec.IndexScan
import PostgresRs.Util.NestedLoop

/-!
# Joins

The joins of a FROM clause as `build_source_ordered` of `engine/src/executor.rs` makes them, from
left to right.  For an inner or left join on an equality it looks for an index on the column of the
right side, and then looks up the key of each left row instead of testing every right row.

The index is the one of the table with the name of the right side, and what is found are positions
in that table; the rows are those that the right side is resolved to.  `joinsAsWritten` says when the
join is the one that is written: the right side is that table, but for rows that do not match, and the
index compares keys as the condition does (`Served`).
-/

namespace PostgresRs

open List

namespace Storage.Table

/-- The positions of the rows with a value in a column, if the column has an index. -/
def indexEq (t : Table) (column : Nat) (value : Value) : Option (List Nat) :=
  (t.eqIndexOn column).map fun idx => t.idsToPositions (idx.store.lookupEq [value])

end Storage.Table

namespace Exec

open Storage NestedLoop

/-! ## One join -/

section OneJoin

variable (ext : Externals)

/-- The rows that come of one left row, where `found` are the right rows that match it. -/
def joinedRows (kind : JoinKind) (rightWidth : Nat) (rightRows : List (List Value))
    (row : List Value) (found : List Nat) : List (List Value) :=
  if found.isEmpty then
    match kind with
    | .left | .full => [row ++ List.replicate rightWidth .null]
    | _ => []
  else found.map fun ri => row ++ rightRows[ri]?.getD []

/-- The rows that come of right rows that no left row matches. -/
def unmatchedRows (kind : JoinKind) (leftWidth : Nat) (rightRows : List (List Value))
    (found : List Nat) : List (List Value) :=
  match kind with
  | .right | .full =>
    (rightRows.zipIdx.filter fun e => !found.contains e.2).map fun e =>
      List.replicate leftWidth .null ++ e.1
  | _ => []

/-- The right rows among the candidates that match a left row. -/
def matchingRows (on : Option Expr) (names : List String) (rightRows : List (List Value))
    (row : List Value) (candidates : List Nat) : Except Failure (List Nat) :=
  matching .panic (fun right => passes ext names on (row ++ right)) rightRows candidates

/-- A join in which the candidates for a left row are given by `candidatesFor`. -/
def joinSources (kind : JoinKind) (on : Option Expr)
    (candidatesFor : List Value → Except Failure (List Nat)) (left right : Source) :
    Except Failure Source := do
  let names := left.names ++ right.names
  let found ← left.rows.mapM fun row => do
    matchingRows ext on names right.rows row (← candidatesFor row)
  return {
    names
    types := left.types ++ right.types
    rows := (left.rows.zip found).flatMap
        (fun e => joinedRows kind right.names.length right.rows e.1 e.2) ++
      unmatchedRows kind left.names.length right.rows found.flatten }

end OneJoin

/-! ## Index probes -/

/-- Which column of the table with the given name is looked up, and which left column has the
key. -/
structure IndexedJoinProbe where
  table : String
  rightCol : Nat
  leftCol : Nat

/-- The column of a table that an expression refers to. -/
def columnRefOfTable (e : Expr) (qual : String) (t : Table) : Option Nat :=
  match e with
  | .qualifiedColumn qualifier name => if qualifier = qual then t.columnIndex name else none
  | .column name => t.columnIndex name
  | _ => none

/-- The column of the left side that an expression refers to. -/
def resolveLeftColumn (e : Expr) (leftNames : List String) : Option Nat :=
  match e with
  | .column name => (resolveColumn leftNames none name).toOption
  | .qualifiedColumn qualifier name => (resolveColumn leftNames (some qualifier) name).toOption
  | _ => none

/-- The expression is a reference to a column. -/
def IsColumn : Expr → Prop
  | .column _ | .qualifiedColumn _ _ => True
  | _ => False

namespace Relations

variable (db : Relations)

/-- The positions to look at for a left row. -/
def candidatesFor (probe : IndexedJoinProbe) (row : List Value) :
    Except Failure (List Nat) :=
  match row[probe.leftCol]? with
  | none => .error .panic
  | some key =>
    if key.isNull then .ok []
    else
      match db.table probe.table with
      | none => .error .panic
      | some t => .ok ((t.indexEq probe.rightCol key).getD [])

def indexedJoinInner (j : Join) (leftNames : List String) : Option IndexedJoinProbe :=
  match j.kind, j.on with
  | .inner, some (.binary .eq left right) | .left, some (.binary .eq left right) => do
    let t ← db.table j.table.name
    let tryDir := fun (a b : Expr) => do
      let rightCol ← columnRefOfTable a j.table.qualifier t
      let _ ← t.indexOn rightCol
      let leftCol ← resolveLeftColumn b leftNames
      return { table := j.table.name, rightCol, leftCol : IndexedJoinProbe }
    tryDir left right <|> tryDir right left
  | _, _ => none

variable (scope : Scope) (ext : Externals)

/-! ## FROM clauses -/

/-- The right side of a lateral join for one left row. -/
def lateralSource (j : Join) (leftNames : List String) (row : List Value) : Except Failure Source :=
  scope.specialize j.table leftNames row >>= db.resolveSourceTable scope

/-- One row of a lateral join. -/
def lateralRows (j : Join) (leftNames names : List String) (rightWidth : Nat) (row : List Value) :
    Except Failure (List (List Value)) := do
  let right ← db.lateralSource scope j leftNames row
  let found ← matchingRows ext j.on names right.rows row (List.range right.rows.length)
  return joinedRows j.kind rightWidth right.rows row found

/-- A lateral join: the right side is resolved for each left row, its columns for the first. -/
def evalLateralJoin (j : Join) (left : Source) : Except Failure Source := do
  let schemaRow := left.rows.head?.getD (List.replicate left.names.length .null)
  let schema ← db.lateralSource scope j left.names schemaRow
  let names := left.names ++ schema.names
  let rows ← left.rows.mapM (db.lateralRows scope ext j left.names names schema.names.length)
  return { names, types := left.types ++ schema.types, rows := rows.flatten }

/-- One join of a FROM clause; `inner` says which index it looks into. -/
def buildJoin (inner : Join → List String → Option IndexedJoinProbe) (j : Join) (left : Source) :
    Except Failure Source :=
  if j.table.lateral then db.evalLateralJoin scope ext j left
  else do
    let right ← db.resolveSourceTable scope j.table
    let candidatesFor := fun row =>
      match inner j left.names with
      | some probe => db.candidatesFor probe row
      | none => .ok (List.range right.rows.length)
    joinSources ext j.kind j.on candidatesFor left right

/-- The joins of a FROM clause from left to right. -/
def buildJoins (inner : Join → List String → Option IndexedJoinProbe) :
    Source → List Join → Except Failure Source
  | left, [] => .ok left
  | left, j :: joins => do
    let left ← db.buildJoin scope ext inner j left
    buildJoins inner left joins

/-- The source of a FROM clause, its base narrowed down by an index if it has no joins. -/
def buildSourceWith [BEq Expr] (inner : Join → List String → Option IndexedJoinProbe)
    («from» : FromClause) (filter : Option Expr) : Except Failure Source := do
  let base ← db.resolveBaseSource scope ext from.base (if from.joins.isEmpty then filter else none)
  db.buildJoins scope ext inner base from.joins

def buildSourceOrdered [BEq Expr] : FromClause → Option Expr → Except Failure Source :=
  db.buildSourceWith scope ext db.indexedJoinInner

/-- The nested loops that test `ON` on every pair of a left row and a right row. -/
def nestedLoopSource [BEq Expr] : FromClause → Option Expr → Except Failure Source :=
  db.buildSourceWith scope ext fun _ _ => none

end Relations

/-! ## Sources up to order -/

/-- The same columns and, up to order, the same rows. -/
structure Source.Reordered (src spec : Source) : Prop where
  names : src.names = spec.names
  types : src.types = spec.types
  rows : src.rows.Perm spec.rows

variable {rightWidth : Nat} {found' : List Nat}

section Step

variable {ext : Externals} {kind : JoinKind} {on : Option Expr}
  {candidatesFor : List Value → Except Failure (List Nat)} {left left' right out spec : Source}
  {rightRows : List (List Value)} {row : List Value} {found : List Nat}

/-- What a join gives when `found` says which right rows match a left row. -/
def joinOut (kind : JoinKind) (left right : Source) (found : List Value → List Nat) : Source where
  names := left.names ++ right.names
  types := left.types ++ right.types
  rows :=
    (left.rows.flatMap fun row => joinedRows kind right.names.length right.rows row (found row)) ++
      unmatchedRows kind left.names.length right.rows (left.rows.flatMap found)

theorem joinSources_eq_ok_iff : joinSources ext kind on candidatesFor left right = .ok out ↔
    ∃ found, (∀ row ∈ left.rows, ∃ cs, candidatesFor row = .ok cs ∧
      matchingRows ext on (left.names ++ right.names) right.rows row cs = .ok (found row)) ∧
      out = joinOut kind left right found := by
  have hout : ∀ found : List Value → List Nat,
      { names := left.names ++ right.names
        types := left.types ++ right.types
        rows := ((left.rows.zip (left.rows.map found)).flatMap fun e =>
            joinedRows kind right.names.length right.rows e.1 e.2) ++
          unmatchedRows kind left.names.length right.rows (left.rows.map found).flatten } =
        joinOut kind left right found := by
    intro found
    rw [joinOut, ← map_prod_left_eq_zip, flatMap_map, ← flatMap_def]
  constructor
  · intro h
    obtain ⟨rs, hrs, h⟩ := of_bind_eq_ok h
    obtain ⟨found, hfound, rfl⟩ := exists_map_of_mapM_eq_ok hrs
    exact ⟨found, fun row hrow => of_bind_eq_ok (hfound row hrow),
      (Except.ok.inj h).symm.trans (hout found)⟩
  · rintro ⟨found, hfound, rfl⟩
    have hmapM : (left.rows.mapM fun row => candidatesFor row >>=
        matchingRows ext on (left.names ++ right.names) right.rows row) =
          .ok (left.rows.map found) := by
      refine mapM_eq_ok_of_forall fun row hrow => ?_
      obtain ⟨cs, hcs, hfound⟩ := hfound row hrow
      rw [hcs]
      exact hfound
    rw [← hout found]
    exact congrArg (· >>= _) hmapM

theorem joinedRows_of_ne_nil (h : found ≠ []) :
    joinedRows kind rightWidth rightRows row found =
      found.map fun ri => row ++ rightRows[ri]?.getD [] := by
  unfold joinedRows
  rw [if_neg (by simpa using h)]

theorem joinedRows_perm (h : found'.Perm found) :
    (joinedRows kind rightWidth rightRows row found').Perm
      (joinedRows kind rightWidth rightRows row found) := by
  rcases found with _ | ⟨ri, found⟩
  · rw [h.eq_nil]
  · have hne : found' ≠ [] := fun hnil => cons_ne_nil ri found (hnil ▸ h).nil_eq.symm
    rw [joinedRows_of_ne_nil hne]
    exact h.map _

theorem unmatchedRows_congr {leftWidth : Nat} (h : found'.Perm found) :
    unmatchedRows kind leftWidth rightRows found' =
      unmatchedRows kind leftWidth rightRows found := by
  have hcontains : ∀ ri, found'.contains ri = found.contains ri := fun ri => by
    rw [Bool.eq_iff_iff, contains_iff_mem, contains_iff_mem, h.mem_iff]
  rcases kind <;> simp only [unmatchedRows, hcontains]

/-- What a join gives depends on the left rows and the matches only up to order. -/
theorem joinOut_reordered {found found' : List Value → List Nat} (h : left'.Reordered left)
    (hfound : ∀ row ∈ left.rows, (found' row).Perm (found row)) :
    (joinOut kind left' right found').Reordered (joinOut kind left right found) := by
  refine ⟨congrArg (· ++ right.names) h.names, congrArg (· ++ right.types) h.types, ?_⟩
  rw [joinOut, h.names]
  refine .append ?_ (.of_eq (unmatchedRows_congr ?_))
  · exact (h.rows.flatMap_right _).trans
      (.flatMap_left _ fun row hrow => joinedRows_perm (hfound row hrow))
  · exact (h.rows.flatMap_right _).trans (.flatMap_left _ hfound)

/-- The candidates for a left row are positions of right rows, each once, and every right row that
matches is among them. -/
structure FindsMatches (ext : Externals) (names : List String) (on : Option Expr)
    (rightRows : List (List Value)) (row : List Value) (candidates : List Nat) : Prop where
  once : candidates.Nodup
  inRange : ∀ ri ∈ candidates, ri < rightRows.length
  complete : ∀ ri, matchesAt (fun right => passes ext names on (row ++ right)) rightRows ri = true →
    ri ∈ candidates

/-- **One join**: with candidates that include the matches it gives what the nested loop does. -/
theorem joinSources_reordered (h : left'.Reordered left)
    (hspec : joinSources ext kind on (fun _ => .ok (List.range right.rows.length)) left right =
      .ok spec)
    (hcandidates : ∀ row ∈ left.rows, ∃ cs, candidatesFor row = .ok cs ∧
      FindsMatches ext (left.names ++ right.names) on right.rows row cs) :
    ∃ out, joinSources ext kind on candidatesFor left' right = .ok out ∧ out.Reordered spec := by
  obtain ⟨found, hfound, rfl⟩ := joinSources_eq_ok_iff.mp hspec
  have hstep : ∀ row ∈ left.rows, ∃ found' cs, candidatesFor row = .ok cs ∧
      matchingRows ext on (left.names ++ right.names) right.rows row cs = .ok found' ∧
        found'.Perm (found row) := by
    intro row hrow
    obtain ⟨all, hall, hmatching⟩ := hfound row hrow
    obtain rfl : List.range right.rows.length = all := Except.ok.inj hall
    obtain ⟨cs, hcs, honce, hrange, hcomplete⟩ := hcandidates row hrow
    obtain ⟨found', hfound', hperm⟩ := matching_perm hmatching honce hrange hcomplete
    exact ⟨found', cs, hcs, hfound', hperm⟩
  choose! found' cs hcs hmatching hperm using hstep
  refine ⟨_, joinSources_eq_ok_iff.mpr ⟨found', fun row hrow => ?_, rfl⟩,
    joinOut_reordered h hperm⟩
  have hrow := h.rows.mem_iff.mp hrow
  exact ⟨cs row, hcs row hrow, h.names ▸ hmatching row hrow⟩

end Step

/-! ## Chains of joins -/

namespace Relations

variable (db : Relations) (scope : Scope) (ext : Externals)

/-- Under the names of both sides, a reference means the column at a position, if it means one. -/
def RefersTo (names : List String) (e : Expr) (col : Nat) : Prop :=
  ∀ idx, resolveLeftColumn e names = some idx → idx = col

/-- What a join that looks into an index needs.  The two sides of its condition are the columns that
are looked up.  Where a left row has a key, the right side are the rows of the table with the index
and others that do not match; and the index compares the keys as the condition does. -/
structure Served (j : Join) (left right : Source) (probe : IndexedJoinProbe) : Prop where
  widths : ∀ row ∈ left.rows, row.length = left.names.length
  names : ∀ a b, j.on = some (.binary .eq a b) →
    RefersTo (left.names ++ right.names) a (left.names.length + probe.rightCol) ∧
        RefersTo (left.names ++ right.names) b probe.leftCol ∨
      RefersTo (left.names ++ right.names) a probe.leftCol ∧
        RefersTo (left.names ++ right.names) b (left.names.length + probe.rightCol)
  table : ∀ row ∈ left.rows, ∀ c, row[probe.leftCol]? = some c → c.isNull = false →
    ∃ t idx others, db.table probe.table = some t ∧ t.eqIndexOn probe.rightCol = some idx ∧
      right.rows = t.rows.map t.detoastRow ++ others ∧
      (∀ r ∈ others, passes ext (left.names ++ right.names) j.on (row ++ r) ≠ .ok true) ∧
      t.Maintained (evalIndex ext) ∧
      (∃ K, t.Sorted K (evalIndex ext) idx ∧ (idx.store.compares = true → K c)) ∧
      ∀ stored ∈ t.rows, ∀ v, (t.detoastRow stored)[probe.rightCol]? = some v → Compares .eq v c →
        idx.store.AgreesOn v c

/-- What a join needs of the left rows that reach it: the columns of a lateral right side are the
same for all of them, and an index that is looked into serves it. -/
structure Agrees (j : Join) (left : Source) : Prop where
  columns : j.table.lateral = true → ∀ row ∈ left.rows, ∀ row' ∈ left.rows, ∀ schema,
    db.lateralSource scope j left.names row = .ok schema →
      ∃ schema', db.lateralSource scope j left.names row' = .ok schema' ∧
        schema'.names = schema.names ∧ schema'.types = schema.types
  served : j.table.lateral = false → ∀ right probe, db.resolveSourceTable scope j.table = .ok right →
    db.indexedJoinInner j left.names = some probe → db.Served ext j left right probe

/-- Every join of a chain agrees with the rows that nested loops bring to it. -/
def AllAgree : Source → List Join → Prop
  | _, [] => True
  | left, j :: joins => db.Agrees scope ext j left ∧
      ∀ left', db.buildJoin scope ext (fun _ _ => none) j left = .ok left' → AllAgree left' joins

variable {db scope ext} {j : Join} {joins : List Join} {left left' spec : Source} {kind : JoinKind}

/-- What a join looks up in an index: its condition is an equality of columns. -/
theorem indexedJoinInner_eq_some {probe : IndexedJoinProbe} {leftNames : List String}
    (h : db.indexedJoinInner j leftNames = some probe) :
    ∃ a b, j.on = some (.binary .eq a b) ∧ IsColumn a ∧ IsColumn b ∧
      probe.leftCol < leftNames.length := by
  have hright : ∀ {e qual t col}, columnRefOfTable e qual t = some col → IsColumn e := by
    intro e qual t col h
    rw [columnRefOfTable.eq_def] at h
    split at h <;> first | cases h | trivial
  have hleft : ∀ {e col}, resolveLeftColumn e leftNames = some col →
      IsColumn e ∧ col < leftNames.length := by
    intro e col h
    have hlt : ∀ {r : Except String Nat}, r.toOption = some col → r = .ok col := fun {r} hr => by
      cases r <;> cases hr
      rfl
    rw [resolveLeftColumn.eq_def] at h
    split at h
    · exact ⟨trivial, resolveColumn_lt (hlt h)⟩
    · exact ⟨trivial, resolveColumn_lt (hlt h)⟩
    · cases h
  have hboth : ∀ {left right}, (do
      let t ← db.table j.table.name
      let tryDir := fun (a b : Expr) => do
        let rightCol ← columnRefOfTable a j.table.qualifier t
        let _ ← t.indexOn rightCol
        let leftCol ← resolveLeftColumn b leftNames
        return { table := j.table.name, rightCol, leftCol : IndexedJoinProbe }
      tryDir left right <|> tryDir right left) = some probe →
        IsColumn left ∧ IsColumn right ∧ probe.leftCol < leftNames.length := by
    intro left right h
    simp only [Option.bind_eq_bind, Option.bind_eq_some_iff, Option.orElse_eq_some] at h
    obtain ⟨t, -, ⟨col, hcol, _, -, leftCol, hleftCol, h⟩ |
      ⟨-, col, hcol, _, -, leftCol, hleftCol, h⟩⟩ := h <;> cases h
    · exact ⟨hright hcol, hleft hleftCol⟩
    · exact ⟨(hleft hleftCol).1, hright hcol, (hleft hleftCol).2⟩
  rw [indexedJoinInner.eq_def] at h
  split at h
  · next left right _ hon => exact ⟨left, right, hon, hboth h⟩
  · next left right _ hon => exact ⟨left, right, hon, hboth h⟩
  · cases h

theorem getElem?_of_refersTo {names : List String} {e : Expr} {col : Nat} {row : List Value}
    {v : Value} (hcolumn : IsColumn e) (h : RefersTo names e col)
    (he : evalExpr ext names row e = .ok v) : row[col]? = some v := by
  have hget : ∀ {qualifier name}, columnValue names row qualifier name = .ok v →
      ((resolveColumn names qualifier name).toOption = resolveLeftColumn e names) →
        row[col]? = some v := by
    intro qualifier name hvalue hresolve
    obtain ⟨idx, hidx, hrow⟩ := columnValue_eq_ok hvalue
    rw [hidx] at hresolve
    rwa [← h idx hresolve.symm]
  cases e with
  | column name => exact hget he rfl
  | qualifiedColumn qualifier name => exact hget he rfl
  | _ => exact hcolumn.elim

/-- A right row that satisfies the condition has the key of the left row. -/
theorem Served.compares {right : Source} {probe : IndexedJoinProbe}
    (h : db.Served ext j left right probe) (hinner : db.indexedJoinInner j left.names = some probe)
    {row r : List Value} (hrow : row ∈ left.rows) {c : Value} (hc : row[probe.leftCol]? = some c)
    (hpasses : passes ext (left.names ++ right.names) j.on (row ++ r) = .ok true) :
    ∃ v, r[probe.rightCol]? = some v ∧ Compares .eq v c := by
  obtain ⟨a, b, hon, ha, hb, hlt⟩ := indexedJoinInner_eq_some hinner
  have hwidth := h.widths row hrow
  have htrue : isTrueOn ext (left.names ++ right.names) (.binary .eq a b) (row ++ r) = true := by
    rw [← accepted_passes, ← hon, hpasses]
    rfl
  obtain ⟨l, v, hl, hv, hcompares⟩ := isTrueOn_compares (by decide) htrue
  have hleft : ∀ {w}, (row ++ r)[probe.leftCol]? = some w → w = c := fun hw => by
    rw [getElem?_append_left (hwidth ▸ hlt), hc] at hw
    exact (Option.some.inj hw).symm
  have hright : ∀ {w}, (row ++ r)[left.names.length + probe.rightCol]? = some w →
      r[probe.rightCol]? = some w := fun hw => by
    rwa [← hwidth, getElem?_append_right (Nat.le_add_right _ _), Nat.add_sub_cancel_left] at hw
  rcases h.names a b hon with ⟨hra, hrb⟩ | ⟨hra, hrb⟩
  · obtain rfl := hleft (getElem?_of_refersTo hb hrb hv)
    exact ⟨l, hright (getElem?_of_refersTo ha hra hl), hcompares⟩
  · obtain rfl := hleft (getElem?_of_refersTo ha hra hl)
    exact ⟨v, hright (getElem?_of_refersTo hb hrb hv), hcompares.eq_swap⟩

/-- **An index that serves a join** gives the positions of right rows, with all that match. -/
theorem Served.findsMatches {right : Source} {probe : IndexedJoinProbe}
    (h : db.Served ext j left right probe) (hinner : db.indexedJoinInner j left.names = some probe)
    {row : List Value} (hrow : row ∈ left.rows) : ∃ cs, db.candidatesFor probe row = .ok cs ∧
      FindsMatches ext (left.names ++ right.names) j.on right.rows row cs := by
  obtain ⟨-, -, -, -, -, hlt⟩ := indexedJoinInner_eq_some hinner
  have hlt : probe.leftCol < row.length := (h.widths row hrow).symm ▸ hlt
  have hmatch : ∀ {ri}, matchesAt (fun right' => passes ext (left.names ++ right.names) j.on
      (row ++ right')) right.rows ri = true → ∃ r, right.rows[ri]? = some r ∧
        passes ext (left.names ++ right.names) j.on (row ++ r) = .ok true := by
    exact matchesAt_eq_true_iff.mp
  rw [candidatesFor, getElem?_eq_getElem hlt]
  dsimp only
  by_cases hnull : (row[probe.leftCol]).isNull = true
  · rw [if_pos hnull]
    refine ⟨[], rfl, nodup_nil, nofun, fun ri hri => ?_⟩
    obtain ⟨r, -, hpasses⟩ := hmatch hri
    obtain ⟨v, -, hcompares⟩ := h.compares hinner hrow (getElem?_eq_getElem hlt) hpasses
    rw [hcompares.2.1] at hnull
    cases hnull
  · rw [if_neg hnull]
    obtain ⟨t, idx, others, ht, hidx, hright, hothers, hmaintained, ⟨K, hsorted, hK⟩, hagrees⟩ :=
      h.table row hrow _ (getElem?_eq_getElem hlt) (Bool.eq_false_iff.mpr hnull)
    rw [ht]
    dsimp only
    rw [Table.indexEq, hidx, Option.map_some, Option.getD_some]
    obtain ⟨hmem, hplain⟩ := mem_filter.mp (Table.preferred_mem hidx)
    have hfits : idx.store.Fits (.eq [row[probe.leftCol]]) := cons_ne_nil _ _
    refine ⟨_, rfl, ?_, fun ri hri => ?_, fun ri hri => ?_⟩
    · exact nodup_idsToPositions hmaintained
        ((Store.lookupEq_sublist _ _).nodup (hmaintained.nodup_allRowIds hmem))
    · rw [hright, length_append, length_map]
      exact Nat.lt_add_right _ (lt_of_mem_idsToPositions hmaintained hri)
    · obtain ⟨r, hr, hpasses⟩ := hmatch hri
      obtain ⟨v, hv, hcompares⟩ := h.compares hinner hrow (getElem?_eq_getElem hlt) hpasses
      rw [hright] at hr
      by_cases hown : ri < t.rows.length
      · rw [getElem?_append_left (by rwa [length_map]), getElem?_map, getElem?_eq_getElem hown] at hr
        obtain rfl := Option.some.inj hr
        obtain ⟨id, hview⟩ := view_of_lt hmaintained hown
        rw [rowAt, getElem?_eq_getElem hown] at hview
        refine (mem_idsToPositions hmaintained hview).mpr ?_
        refine mem_lookup_of_asked hmaintained hsorted hmem (mem_of_getElem? hview)
          (entryKey_of_isPlainOn hplain hv) hfits (fun hstore => forall_mem_singleton.mpr (hK hstore))
          (.cons hcompares .nil) (forall_mem_singleton.mpr ?_) rfl
        exact hagrees _ (getElem_mem hown) v hv hcompares
      · rw [getElem?_append_right (by simpa using hown)] at hr
        exact absurd hpasses (hothers r (mem_of_getElem? hr))

theorem evalLateralJoin_reordered (h : left'.Reordered left) (hlateral : j.table.lateral = true)
    (hagrees : db.Agrees scope ext j left)
    (hspec : db.evalLateralJoin scope ext j left = .ok spec) :
    ∃ out, db.evalLateralJoin scope ext j left' = .ok out ∧ out.Reordered spec := by
  obtain ⟨schema, hschema, hspec⟩ := of_bind_eq_ok hspec
  obtain ⟨rows, hrows, hspec⟩ := of_bind_eq_ok hspec
  obtain ⟨g, hg, rfl⟩ := exists_map_of_mapM_eq_ok hrows
  obtain ⟨schema', hschema', hnames, htypes⟩ : ∃ schema', db.lateralSource scope j left.names
      (left'.rows.head?.getD (List.replicate left.names.length .null)) = .ok schema' ∧
        schema'.names = schema.names ∧ schema'.types = schema.types := by
    rcases hleft : left.rows with _ | ⟨row, rest⟩
    · rw [(hleft ▸ h.rows : left'.rows.Perm []).eq_nil]
      exact ⟨schema, hleft ▸ hschema, rfl, rfl⟩
    · rcases hleft' : left'.rows with _ | ⟨row', rest'⟩
      · exact absurd (hleft' ▸ hleft ▸ h.rows).nil_eq.symm (cons_ne_nil row rest)
      · rw [hleft] at hschema
        refine hagrees.columns hlateral row (hleft ▸ .head _) row' ?_ schema hschema
        exact h.rows.mem_iff.mp (hleft' ▸ .head _)
  obtain rfl := Except.ok.inj hspec
  have hrows' : ∀ row ∈ left'.rows, db.lateralRows scope ext j left'.names
      (left'.names ++ schema'.names) schema'.names.length row = .ok (g row) := by
    rw [h.names, hnames]
    exact fun row hrow => hg row (h.rows.mem_iff.mp hrow)
  have hmapM := mapM_eq_ok_of_forall hrows'
  rw [evalLateralJoin, h.names, hschema']
  simp only [bind, Except.bind, h.names] at hmapM ⊢
  rw [hmapM]
  refine ⟨_, rfl, ?_, ?_, (h.rows.map g).flatten⟩
  · exact congrArg (left.names ++ ·) hnames
  · exact congrArg₂ (· ++ ·) h.types htypes

theorem buildJoin_reordered (h : left'.Reordered left) (hagrees : db.Agrees scope ext j left)
    (hspec : db.buildJoin scope ext (fun _ _ => none) j left = .ok spec) :
    ∃ out, db.buildJoin scope ext db.indexedJoinInner j left' = .ok out ∧ out.Reordered spec := by
  rw [buildJoin] at hspec ⊢
  by_cases hlateral : j.table.lateral = true
  · rw [if_pos hlateral] at hspec ⊢
    exact evalLateralJoin_reordered h hlateral hagrees hspec
  · rw [if_neg hlateral] at hspec ⊢
    obtain ⟨right, hright, hspec⟩ := of_bind_eq_ok hspec
    rw [hright]
    refine joinSources_reordered h hspec fun row hrow => ?_
    rw [h.names]
    rcases hinner : db.indexedJoinInner j left.names with _ | probe
    · exact ⟨_, rfl, nodup_range, fun _ => mem_range.mp,
        fun _ hri => mem_range.mpr ((matchesAt_eq_true_iff.mp hri).elim fun r hr =>
          (List.getElem?_eq_some_iff.mp hr.1).1)⟩
    · exact (hagrees.served (Bool.eq_false_iff.mpr hlateral) right probe hright hinner).findsMatches
        hinner hrow

theorem buildJoins_reordered (h : left'.Reordered left) (hagree : db.AllAgree scope ext left joins)
    (hspec : db.buildJoins scope ext (fun _ _ => none) left joins = .ok spec) :
    ∃ out, db.buildJoins scope ext db.indexedJoinInner left' joins = .ok out ∧
      out.Reordered spec := by
  induction joins generalizing left left' with
  | nil =>
    obtain rfl := Except.ok.inj hspec
    exact ⟨left', rfl, h⟩
  | cons j joins ih =>
    obtain ⟨next, hnext, hspec⟩ := of_bind_eq_ok hspec
    obtain ⟨next', hnext', h'⟩ := buildJoin_reordered h hagree.1 hnext
    rw [buildJoins, hnext']
    exact ih h' (hagree.2 next hnext) hspec

/-! ## FROM clauses as written -/

section Written

variable [BEq Expr] (db : Relations) (scope : Scope) (ext : Externals) («from» : FromClause)
  (filter : Option Expr)

/-- The base of a FROM clause. -/
def baseSource : Except Failure Source :=
  db.resolveBaseSource scope ext from.base (if from.joins.isEmpty then filter else none)

/-- The source returns, with the columns and up to order the rows of the nested loops. -/
def JoinsAsWritten (spec : Source) : Prop :=
  ∃ src, db.buildSourceOrdered scope ext «from» filter = .ok src ∧ src.Reordered spec

end Written

end Relations

/-! ### Parents and children -/

/-- Tables `l` and `p`, and a child `c` of `p`. -/
def family (left parent child : List Int) : Relations where
  tables := ⟨((AList.insert "l" (indexedIntegers "l" left) ∅).insert "p"
    (indexedIntegers "p" parent)).insert "c" (indexedIntegers "c" child)⟩
  inherits name := if name = "c" then ["p"] else []

/-- `l LEFT JOIN p ON l.x = p.x`. -/
def joinOnX : FromClause where
  base := .plain "l"
  joins := [⟨.left, .plain "p",
    some (.binary .eq (.qualifiedColumn "l" "x") (.qualifiedColumn "p" "x"))⟩]

end Exec
end PostgresRs
