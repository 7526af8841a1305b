import PostgresRs.Exec.Join
import PostgresRs.Exec.PlanShape
import PostgresRs.Exec.Update

/-!
# SELECT, UPDATE and DELETE on one table

`exec_update` and `exec_delete` of `engine/src/executor.rs` beside `SELECT * FROM t WHERE p`.  The
query reads a table with its descendants and names its columns with the table; the other two
statements go over the rows of the table itself, with bare column names, and let an index narrow
them down.

`meantPositions` is what an UPDATE or a DELETE that succeeds has acted on.  Constraints, `RETURNING`
and the functions of triggers are left open (`Checks`).
-/

namespace PostgresRs.Exec

open Storage List

/-- An error of the executor. -/
def liftError {α : Type} : Except String α → Except Failure α
  | .ok a => .ok a
  | .error m => .error (.error m)

/-- A computation that panics if it does not return. -/
def orPanic {ε α : Type} : Except ε α → Except Failure α
  | .ok a => .ok a
  | .error _ => .error .panic

/-- What the statements call on besides the rows of the table. -/
structure Checks where
  /-- The expression of a generated column, by table and column. -/
  generated : String → String → Option Expr
  /-- No other table refers to a row (`check_parent_key_not_referenced`). -/
  deletable : Relations → String → List Value → Except String Unit
  /-- Constraints, user types, foreign keys and uniqueness of new versions. -/
  updatable : Relations → String → List (Nat × List Value) → Except String Unit
  /-- The evaluation of `RETURNING`. -/
  returning : List (List Value) → Except String Unit
  /-- The functions of the triggers on a table and event, for a number of rows. -/
  fire : String → String → Nat → Relations → Except String Relations

namespace Relations

variable (db : Relations) (ext : Externals)

def setTable (name : String) (t : Table) : Relations :=
  { db with tables := ⟨db.tables.tables.insert name t⟩ }

/-! ## SELECT -/

/-- The cells of a row in all columns. -/
def wildcardRow (names : List String) (row : List Value) : Except Failure (List Value) :=
  (List.range names.length).mapM fun c =>
    match row[c]? with
    | some v => .ok v
    | none => .error .panic

/-- `SELECT * FROM name WHERE filter`, on a machine with `available` threads, of which new ones have
the functions `fresh`. -/
def selectAll [BEq Expr] (scope : Scope) (available : Nat) (fresh : Functions) (name : String)
    (filter : Option Expr) : Except Failure (List (List Value)) := do
  let source ← db.buildSourceOrdered scope ext ⟨.plain name, []⟩ filter
  let rows ← filterSelectRows (passesOn ext source.names filter) available fresh ext.scalarFunction
    source.rows
  rows.mapM (wildcardRow source.names)

/-! ## UPDATE and DELETE -/

def dmlColNames (target : String) (columns : List String) (source : Option Source) : List String :=
  match source with
  | none => columns
  | some s => columns.map (target ++ "." ++ ·) ++ s.names

/-- The first row of the other source with which a row of the target satisfies the condition. -/
def firstSourceRow (filter : Option Expr) (names : List String) (row : List Value) :
    List (List Value) → Except Failure (Option (List Value))
  | [] => .ok none
  | other :: others => do
    let found ← passes ext names filter (dmlEvalRow row (some other))
    if found then return some other else firstSourceRow filter names row others

/-- Whether a row of the target is meant, and with which row of the other source. -/
def firstDmlSourceRow (source : Option Source) (filter : Option Expr) (names : List String)
    (row : List Value) : Except Failure (Option (Option (List Value))) :=
  match source with
  | none => do
    let found ← passes ext names filter row
    return if found then some none else none
  | some s => do
    let found ← firstSourceRow ext filter names row s.rows
    return found.map some

/-- The loop over the candidates: `act` is called on the rows that are meant. -/
def dmlLoop {β : Type} (t : Table) (source : Option Source) (filter : Option Expr)
    (names : List String) (act : Nat → List Value → Option (List Value) → Except Failure β) :
    List Nat → Except Failure (List β)
  | [] => .ok []
  | pos :: rest =>
    match t.rows[pos]? with
    | none => .error .panic
    | some stored => do
      let row := t.detoastRow stored
      match ← firstDmlSourceRow ext source filter names row with
      | none => dmlLoop t source filter names act rest
      | some other => do
        let b ← act pos row other
        let bs ← dmlLoop t source filter names act rest
        return b :: bs

/-- The positions that are looked at: those of an index, if there is no other source. -/
def dmlCandidates [BEq Expr] (t : Table) (source : Option Source) (filter : Option Expr) :
    Except Failure (List Nat) :=
  if source.isSome then .ok (List.range t.rows.length)
  else orPanic (candidatePositions ext t filter)

def fireRowTriggers (checks : Checks) (name event : String) (affected : Nat) :
    Except Failure Relations :=
  if affected = 0 then .ok db else liftError (checks.fire name event affected db)

/-- The table that a statement changes. -/
def targetTable (name : String) : Except Failure Table :=
  match db.table name with
  | some t => .ok t
  | none => .error (.error ("relation \"" ++ name ++ "\" does not exist"))

/-- `DELETE FROM name USING source WHERE filter`, with the number of rows it reports. -/
def execDelete [BEq Expr] (checks : Checks) (source : Option Source) (name : String)
    (filter : Option Expr) : Except Failure (Relations × Nat) := do
  let t ← db.targetTable name
  let names := dmlColNames name t.columnNames source
  let candidates ← dmlCandidates ext t source filter
  let matched ← dmlLoop ext t source filter names (fun pos _ _ => .ok pos) candidates
  -- `matching` is a set of positions in ascending order.
  let positions := (List.range t.rows.length).filter matched.contains
  let affected ← rowsAt t positions
  let _ ← affected.mapM fun row => liftError (checks.deletable db name row)
  liftError (checks.returning affected)
  let t' ← orPanic (t.deleteRows (evalIndex ext) positions)
  let db' ← (db.setTable name t').fireRowTriggers checks name "delete" affected.length
  return (db', affected.length)

/-- `UPDATE name SET assignments FROM source WHERE filter`, with the number of rows it reports. -/
def execUpdate [BEq Expr] (checks : Checks) (source : Option Source) (name : String)
    (assignments : List (String × Expr)) (filter : Option Expr) :
    Except Failure (Relations × Nat) := do
  let t ← db.targetTable name
  let names := dmlColNames name t.columnNames source
  let columns := t.columns.map fun c => { c with generated := checks.generated name c.name }
  let targets ← liftError (resolveTargets name columns assignments)
  let candidates ← dmlCandidates ext t source filter
  let versions ← dmlLoop ext t source filter names (fun pos row other => do
    let new ← liftError (newVersion ext columns names other targets row)
    return (pos, new)) candidates
  liftError (checks.updatable db name versions)
  liftError (checks.returning (versions.map Prod.snd))
  let t' ← versions.foldlM (fun t v => orPanic (t.updateRow (evalIndex ext) v.1 v.2)) t
  let db' ← (db.setTable name t').fireRowTriggers checks name "update" versions.length
  return (db', versions.length)

/-! ## Rows that are meant -/

section Meant

variable {db db' : Relations} {ext : Externals} {checks : Checks} {t : Table} {name : String}
  {filter : Option Expr} {names : List String} {n : Nat}

/-- The condition is true of the row at a position. -/
def meant (ext : Externals) (names : List String) (filter : Option Expr) (t : Table) (pos : Nat) :
    Bool :=
  t.rows[pos]?.any fun stored => accepted (passes ext names filter (t.detoastRow stored))

/-- The loop acts on the candidates of which the condition is true. -/
theorem forall₂_of_dmlLoop {β : Type}
    {act : Nat → List Value → Option (List Value) → Except Failure β} {cs : List Nat} {out : List β}
    (h : dmlLoop ext t none filter names act cs = .ok out) :
    (∀ pos ∈ cs, pos < t.rows.length) ∧
      List.Forall₂ (fun pos b => ∃ row, act pos row none = .ok b)
        (cs.filter (meant ext names filter t)) out := by
  induction cs generalizing out with
  | nil =>
    obtain rfl := Except.ok.inj h
    exact ⟨fun pos hpos => absurd hpos List.not_mem_nil, .nil⟩
  | cons pos cs ih =>
    rw [dmlLoop] at h
    rcases hrow : t.rows[pos]? with _ | stored
    · rw [hrow] at h
      cases h
    · rw [hrow] at h
      have hlt := (List.getElem?_eq_some_iff.mp hrow).1
      obtain ⟨found, hfound, h⟩ := of_bind_eq_ok h
      obtain ⟨keep, hkeep, hfound⟩ := of_bind_eq_ok hfound
      obtain rfl := Except.ok.inj hfound
      have hmeant : meant ext names filter t pos = keep := by
        rw [meant, hrow, Option.any_some, hkeep]
        rfl
      rw [List.forall_mem_cons, List.filter_cons, hmeant]
      rcases keep with _ | _
      · obtain ⟨hcs, hout⟩ := ih h
        exact ⟨⟨hlt, hcs⟩, hout⟩
      · obtain ⟨b, hb, h⟩ := of_bind_eq_ok h
        obtain ⟨bs, hbs, h⟩ := of_bind_eq_ok h
        obtain rfl := Except.ok.inj h
        obtain ⟨hcs, hout⟩ := ih hbs
        exact ⟨⟨hlt, hcs⟩, .cons ⟨_, hb⟩ hout⟩

theorem nodup_candidatePositions [BEq Expr] {cs : List Nat}
    (h : candidatePositions ext t filter = .ok cs) : cs.Nodup := by
  rcases filter with _ | pred
  · exact Except.ok.inj h ▸ nodup_range
  obtain ⟨found, hfound, h⟩ := of_bind_eq_ok h
  rcases found with _ | positions
  · exact Except.ok.inj h ▸ nodup_range
  obtain rfl := Except.ok.inj h
  rw [indexCandidatePositions] at hfound
  rcases haccess : indexAccess ext t pred with _ | ⟨idx, probe⟩
  · rw [haccess] at hfound
    cases hfound
  · rw [haccess] at hfound
    obtain ⟨ids, -, hfound⟩ := of_bind_eq_ok hfound
    exact Option.some.inj (Except.ok.inj hfound) ▸ nodup_eraseDups _

theorem orPanic_eq_ok {ε α : Type} {x : Except ε α} {a : α} (h : orPanic x = .ok a) :
    x = .ok a := by
  rcases x with _ | _
  · cases h
  · exact congrArg Except.ok (Except.ok.inj h)

theorem targetTable_eq_ok (h : db.targetTable name = .ok t) : db.table name = some t := by
  rw [targetTable] at h
  split at h
  · next t₀ ht₀ => rw [ht₀, Except.ok.inj h]
  · cases h

/-- The positions of the candidates of which the condition is true, in ascending order. -/
def meantPositions (ext : Externals) (filter : Option Expr) (t : Table) (cs : List Nat) :
    List Nat :=
  (List.range t.rows.length).filter fun pos =>
    cs.contains pos && meant ext t.columnNames filter t pos

/-- What a DELETE that succeeds has done. -/
theorem execDelete_eq_ok [BEq Expr] (h : db.execDelete ext checks none name filter = .ok (db', n)) :
    ∃ t cs t', db.table name = some t ∧ candidatePositions ext t filter = .ok cs ∧
      t.deleteRows (evalIndex ext) (meantPositions ext filter t cs) = .ok t' ∧
      n = (meantPositions ext filter t cs).length ∧
      (db.setTable name t').fireRowTriggers checks name "delete" n = .ok db' := by
  obtain ⟨t, ht, h⟩ := of_bind_eq_ok h
  obtain ⟨cs, hcs, h⟩ := of_bind_eq_ok h
  obtain ⟨matched, hmatched, h⟩ := of_bind_eq_ok h
  obtain ⟨affected, haffected, h⟩ := of_bind_eq_ok h
  obtain ⟨_, -, h⟩ := of_bind_eq_ok h
  obtain ⟨_, -, h⟩ := of_bind_eq_ok h
  obtain ⟨t', ht', h⟩ := of_bind_eq_ok h
  obtain ⟨db'', hdb'', h⟩ := of_bind_eq_ok h
  obtain ⟨rfl, rfl⟩ := Prod.mk.inj (Except.ok.inj h)
  obtain ⟨-, hloop⟩ := forall₂_of_dmlLoop hmatched
  have hmatched : cs.filter (meant ext t.columnNames filter t) = matched := by
    refine forall₂_eq_eq_eq ▸ hloop.imp fun pos b ⟨_, hb⟩ => ?_
    exact Except.ok.inj hb
  have hcontains : matched.contains =
      fun pos => cs.contains pos && meant ext t.columnNames filter t pos := by
    funext pos
    rw [← hmatched, Bool.eq_iff_iff, Bool.and_eq_true, contains_iff_mem, contains_iff_mem,
      mem_filter]
  rw [hcontains] at haffected ht'
  have hlength := (forall₂_of_mapM_eq_ok haffected).length_eq.symm
  exact ⟨t, cs, t', targetTable_eq_ok ht, orPanic_eq_ok hcs, orPanic_eq_ok ht', hlength, hdb''⟩

/-- What an UPDATE that succeeds has done. -/
theorem execUpdate_eq_ok [BEq Expr] {assignments : List (String × Expr)}
    (h : db.execUpdate ext checks none name assignments filter = .ok (db', n)) :
    ∃ t cs, db.table name = some t ∧ candidatePositions ext t filter = .ok cs ∧
      n = (meantPositions ext filter t cs).length := by
  obtain ⟨t, ht, h⟩ := of_bind_eq_ok h
  obtain ⟨_, -, h⟩ := of_bind_eq_ok h
  obtain ⟨cs, hcs, h⟩ := of_bind_eq_ok h
  obtain ⟨versions, hversions, h⟩ := of_bind_eq_ok h
  obtain ⟨_, -, h⟩ := of_bind_eq_ok h
  obtain ⟨_, -, h⟩ := of_bind_eq_ok h
  obtain ⟨t', -, h⟩ := of_bind_eq_ok h
  obtain ⟨db'', -, h⟩ := of_bind_eq_ok h
  obtain ⟨-, rfl⟩ := Prod.mk.inj (Except.ok.inj h)
  obtain ⟨hrange, hloop⟩ := forall₂_of_dmlLoop hversions
  have hcs := orPanic_eq_ok hcs
  refine ⟨t, cs, targetTable_eq_ok ht, hcs, hloop.length_eq.symm.trans ?_⟩
  refine ((perm_ext_iff_of_nodup ((nodup_candidatePositions hcs).filter _)
    (nodup_range.filter _)).mpr fun pos => ?_).length_eq
  rw [mem_filter, mem_filter, mem_range, Bool.and_eq_true, contains_iff_mem]
  exact ⟨fun h => ⟨hrange pos h.1, h⟩, fun h => h.2⟩

end Meant

end Relations
end PostgresRs.Exec
