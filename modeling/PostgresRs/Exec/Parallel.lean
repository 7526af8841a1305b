import PostgresRs.Exec.Trace
import Mathlib.Data.List.Basic

/-!
# Filtering rows on several threads

`filter_select_rows` of `engine/src/executor.rs` splits the rows of a query into chunks and filters
each on a thread of its own.  Some functions read or write registries of the thread (`Registries`),
which are filled on the thread that executes the statement and empty on a new one.

`filterSelectRows_eq` says that the chunks give the result of the loop on one thread if the predicate
gets to no call that finds something in the registries, or writes to them.
-/

namespace PostgresRs.Exec

open List

/-- What the join of a thread makes of it. -/
def Failure.message : Failure → String
  | error m => m
  | panic => "parallel SELECT worker panicked"

/-! ## The source -/

section Source

variable {α γ : Type} (eval : γ → α → Except Failure Bool × γ)

/-- The loop on one thread that has the registries `g`. -/
def filterSelectRowsSerial : γ → List α → Except Failure (List α)
  | _, [] => .ok []
  | g, row :: rows =>
    match eval g row with
    | (.error f, _) => .error f
    | (.ok keep, g') =>
      (filterSelectRowsSerial g' rows).map fun kept => if keep then row :: kept else kept

def parallelSelectMinRows : Nat := 128

def parallelSelectMaxWorkers : Nat := 4

/-- The number of threads, on a machine with `available` of them. -/
def parallelSelectWorkerCount (available rowCount : Nat) : Nat :=
  if rowCount < parallelSelectMinRows then 1
  else max (min (min available parallelSelectMaxWorkers) rowCount) 1

/-- Fewer rows are not filtered by more threads. -/
theorem workerCount_le_one {available m n : Nat} (h : parallelSelectWorkerCount available n ≤ 1)
    (hmn : m ≤ n) : parallelSelectWorkerCount available m ≤ 1 := by
  have hmin : parallelSelectMinRows = 128 := rfl
  have hmax : parallelSelectMaxWorkers = 4 := rfl
  rw [parallelSelectWorkerCount] at h ⊢
  split at h <;> split <;> omega

/-- The pieces of `slice::chunks`, for at most `k` of them. -/
def chunksUpTo (n : Nat) : Nat → List α → List (List α)
  | 0, _ => []
  | _ + 1, [] => []
  | k + 1, row :: rows => (row :: rows).take n :: chunksUpTo n k ((row :: rows).drop n)

def chunks (n : Nat) (rows : List α) : List (List α) := chunksUpTo n rows.length rows

/-- A thread has panicked. -/
def panicked : Except Failure (List α) → Bool
  | .error .panic => true
  | _ => false

/-- The loop over the handles.  It returns at the first thread that failed, and the scope then
panics if one of the threads that were not joined has panicked. -/
def joinHandles : List (Except Failure (List α)) → Except Failure (List α)
  | [] => .ok []
  | .ok rows :: handles => (joinHandles handles).map (rows ++ ·)
  | .error f :: handles =>
    if handles.any panicked then .error .panic else .error (.error f.message)

/-- The length of a chunk, `div_ceil`. -/
def chunkLen (rowCount workers : Nat) : Nat := (rowCount + workers - 1) / workers

/-- `fresh` are the registries of a new thread, `g` those of the calling one. -/
def filterSelectRows (available : Nat) (fresh g : γ) (rows : List α) : Except Failure (List α) :=
  let workers := parallelSelectWorkerCount available rows.length
  if workers ≤ 1 then filterSelectRowsSerial eval g rows
  else
    joinHandles ((chunks (chunkLen rows.length workers) rows).map
      (filterSelectRowsSerial eval fresh))

end Source

/-! ## Chunks -/

variable {available : Nat}

section Chunks

variable {α : Type} {n : Nat} {rows : List α}

theorem flatten_chunksUpTo (hn : 0 < n) {k : Nat} (hk : rows.length ≤ k) :
    (chunksUpTo n k rows).flatten = rows := by
  induction k generalizing rows with
  | zero =>
    obtain rfl := length_eq_zero_iff.mp (Nat.le_zero.mp hk)
    rfl
  | succ k ih =>
    rcases rows with _ | ⟨row, rows⟩
    · rfl
    · rw [chunksUpTo, flatten_cons, ih, take_append_drop]
      rw [length_drop]
      omega

theorem flatten_chunks (hn : 0 < n) : (chunks n rows).flatten = rows :=
  flatten_chunksUpTo hn le_rfl

theorem chunkLen_pos (h : ¬parallelSelectWorkerCount available rows.length ≤ 1) :
    0 < chunkLen rows.length (parallelSelectWorkerCount available rows.length) := by
  have hrows : 0 < rows.length := by
    by_contra hnil
    refine h ?_
    rw [parallelSelectWorkerCount, if_pos]
    have : parallelSelectMinRows = 128 := rfl
    omega
  exact Nat.div_pos (by omega) (by omega)

end Chunks

/-! ## Evaluations that do not depend on the thread -/

section Steady

variable {α γ : Type} (f : α → Except Failure Bool)

/-- The rows up to the first that fails: those the loop gets to. -/
def reachedRows : List α → List α
  | [] => []
  | row :: rows =>
    row ::
      match f row with
      | .ok _ => reachedRows rows
      | .error _ => []

/-- The loop, with what is decided of each row given. -/
def filterRows : List α → Except Failure (List α)
  | [] => .ok []
  | row :: rows =>
    match f row with
    | .error x => .error x
    | .ok keep => (filterRows rows).map fun kept => if keep then row :: kept else kept

/-- A decision to keep a row. -/
def accepted : Except Failure Bool → Bool
  | .ok keep => keep
  | .error _ => false

variable {f} {eval : γ → α → Except Failure Bool × γ} {g fresh : γ} {rows rows' kept : List α}

theorem filterRows_eq_ok : filterRows f rows = .ok kept ↔
    (∀ row ∈ rows, ∃ keep, f row = .ok keep) ∧ kept = rows.filter fun row => accepted (f row) := by
  induction rows generalizing kept with
  | nil =>
    exact ⟨fun h => ⟨fun row hrow => absurd hrow not_mem_nil, (Except.ok.inj h).symm⟩,
      fun h => h.2 ▸ rfl⟩
  | cons row rows ih =>
    rw [forall_mem_cons, filter_cons, filterRows]
    rcases hrow : f row with x | keep
    · exact ⟨fun h => (nomatch h), fun h => absurd h.1.1 (by simp)⟩
    constructor
    · intro h
      dsimp only at h
      rcases hrest : filterRows f rows with x | rest
      · rw [hrest] at h
        cases h
      · obtain ⟨hall, rfl⟩ := ih.mp hrest
        rw [hrest] at h
        exact ⟨⟨⟨keep, rfl⟩, hall⟩, (Except.ok.inj h).symm⟩
    · rintro ⟨⟨-, hall⟩, rfl⟩
      dsimp only
      rw [ih.mpr ⟨hall, rfl⟩]
      rfl

/-- A loop that gets to rows with given decisions alone. -/
theorem filterSelectRowsSerial_of_reached
    (h : ∀ row ∈ reachedRows f rows, eval g row = (f row, g)) :
    filterSelectRowsSerial eval g rows = filterRows f rows := by
  induction rows with
  | nil => rfl
  | cons row rows ih =>
    obtain ⟨hrow, hrows⟩ := forall_mem_cons.mp h
    rw [filterSelectRowsSerial, filterRows, hrow]
    rcases hdecided : f row with x | keep
    · rfl
    · rw [hdecided] at hrows
      exact congrArg (Except.map _) (ih hrows)

theorem filterRows_append : filterRows f (rows ++ rows') =
    match filterRows f rows with
    | .error x => .error x
    | .ok kept => (filterRows f rows').map (kept ++ ·) := by
  induction rows with
  | nil =>
    rw [nil_append, filterRows]
    rcases filterRows f rows' with x | kept <;> rfl
  | cons row rows ih =>
    rw [cons_append, filterRows, filterRows, ih]
    rcases f row with x | keep
    · rfl
    · rcases filterRows f rows with x | kept
      · rfl
      · rcases filterRows f rows' with x | kept'
        · rfl
        · cases keep <;> rfl

theorem reachedRows_subset : reachedRows f rows ⊆ rows := by
  induction rows with
  | nil => exact nil_subset _
  | cons row rows ih =>
    rw [reachedRows]
    refine cons_subset_cons _ ?_
    rcases f row with x | keep
    · exact nil_subset _
    · exact ih

theorem reachedRows_subset_append : reachedRows f rows ⊆ reachedRows f (rows ++ rows') := by
  induction rows with
  | nil => exact nil_subset _
  | cons row rows ih =>
    rw [cons_append, reachedRows, reachedRows]
    refine cons_subset_cons _ ?_
    rcases f row with x | keep
    · exact Subset.refl _
    · exact ih

/-- Where no row fails, the loop gets to what is behind. -/
theorem reachedRows_subset_of_ok (h : filterRows f rows = .ok kept) :
    reachedRows f rows' ⊆ reachedRows f (rows ++ rows') := by
  have hall := (filterRows_eq_ok.mp h).1
  clear h
  induction rows with
  | nil => exact Subset.refl _
  | cons row rows ih =>
    obtain ⟨⟨keep, hrow⟩, hrows⟩ := forall_mem_cons.mp hall
    rw [cons_append, reachedRows, hrow]
    exact subset_cons_of_subset _ (ih hrows)

/-- What is joined is the result of the loop, if new threads decide the rows it gets to as it does and
none of them panics. -/
theorem joinHandles_of_reached {pieces : List (List α)}
    (h : ∀ row ∈ reachedRows f pieces.flatten, eval fresh row = (f row, fresh))
    (hcalm : ∀ piece ∈ pieces, filterSelectRowsSerial eval fresh piece ≠ .error .panic) :
    joinHandles (pieces.map (filterSelectRowsSerial eval fresh)) = filterRows f pieces.flatten := by
  induction pieces with
  | nil => rfl
  | cons piece pieces ih =>
    obtain ⟨hpiece, hpieces⟩ := forall_mem_cons.mp hcalm
    have hfirst := filterSelectRowsSerial_of_reached fun row hrow =>
      h row (reachedRows_subset_append hrow)
    rw [map_cons, flatten_cons, filterRows_append, hfirst]
    rw [hfirst] at hpiece
    rcases hkept : filterRows f piece with x | kept
    · -- No thread behind panics, so the failure of this one counts.
      have hquiet : (pieces.map (filterSelectRowsSerial eval fresh)).any panicked = false := by
        rw [any_map, any_eq_false]
        intro piece' hpiece' hpanic
        refine hpieces piece' hpiece' ?_
        unfold Function.comp panicked at hpanic
        split at hpanic
        · assumption
        · cases hpanic
      rw [joinHandles, if_neg (by rw [hquiet]; exact Bool.false_ne_true)]
      cases x with
      | error m => rfl
      | panic => exact absurd hkept hpiece
    · rw [joinHandles, ih (fun row hrow => h row (reachedRows_subset_of_ok hkept hrow)) hpieces]

theorem filterSelectRows_of_reached
    (hg : ∀ row ∈ reachedRows f rows, eval g row = (f row, g))
    (hfresh : parallelSelectWorkerCount available rows.length ≤ 1 ∨
      (∀ row ∈ reachedRows f rows, eval fresh row = (f row, fresh)) ∧
        ∀ piece, piece ⊆ rows → filterSelectRowsSerial eval fresh piece ≠ .error .panic) :
    filterSelectRows eval available fresh g rows = filterRows f rows := by
  rw [filterSelectRows]
  by_cases hone : parallelSelectWorkerCount available rows.length ≤ 1
  · rw [if_pos hone, filterSelectRowsSerial_of_reached hg]
  · obtain ⟨hreached, hcalm⟩ := hfresh.resolve_left hone
    have hflatten := @flatten_chunks α _ rows (chunkLen_pos hone)
    rw [if_neg hone, joinHandles_of_reached]
    · rw [hflatten]
    · rwa [hflatten]
    · intro piece hpiece
      refine hcalm piece fun row hrow => ?_
      rw [← hflatten]
      exact mem_flatten.mpr ⟨piece, hpiece, hrow⟩

/-- If all threads decide the rows alike, the rows that are kept are those that pass. -/
theorem filterSelectRows_eq_ok (hg : ∀ row ∈ rows, eval g row = (f row, g))
    (hfresh : parallelSelectWorkerCount available rows.length ≤ 1 ∨
      ∀ row ∈ rows, eval fresh row = (f row, fresh)) :
    filterSelectRows eval available fresh g rows = .ok kept ↔
      (∀ row ∈ rows, ∃ keep, f row = .ok keep) ∧ kept = rows.filter fun row => accepted (f row) := by
  have hjoin : ∀ {pieces : List (List α)} {kept : List α},
      joinHandles (pieces.map (filterRows f)) = .ok kept ↔
        filterRows f pieces.flatten = .ok kept := by
    intro pieces
    induction pieces with
    | nil => exact Iff.rfl
    | cons piece pieces ih =>
      intro kept
      rw [map_cons, flatten_cons, filterRows_append]
      rcases filterRows f piece with x | first
      · refine iff_of_false (fun h => ?_) fun h => nomatch h
        rw [joinHandles] at h
        split at h <;> cases h
      · rw [joinHandles]
        constructor <;> intro h <;> obtain ⟨rest, hrest, rfl⟩ := of_map_eq_ok h
        · rw [ih.mp hrest]
          rfl
        · rw [ih.mpr hrest]
          rfl
  rw [← filterRows_eq_ok, filterSelectRows]
  by_cases hone : parallelSelectWorkerCount available rows.length ≤ 1
  · rw [if_pos hone, filterSelectRowsSerial_of_reached fun row hrow => hg row (reachedRows_subset hrow)]
  · have hflatten := @flatten_chunks α _ rows (chunkLen_pos hone)
    rw [if_neg hone]
    generalize chunks (chunkLen rows.length (parallelSelectWorkerCount available rows.length)) rows =
      pieces at hflatten ⊢
    have hserial : pieces.map (filterSelectRowsSerial eval fresh) = pieces.map (filterRows f) := by
      refine map_congr_left fun piece hpiece => filterSelectRowsSerial_of_reached fun row hrow => ?_
      refine hfresh.resolve_left hone row (hflatten ▸ mem_flatten.mpr ⟨piece, hpiece, ?_⟩)
      exact reachedRows_subset hrow
    rw [hserial, hjoin, hflatten]

end Steady

/-! ## Registries -/

/-- The names and defaults of `GUC_DEFAULTS`. -/
def gucDefaults : List (String × String) :=
  [("server_encoding", "UTF8"), ("client_encoding", "UTF8"), ("standard_conforming_strings", "on"),
    ("DateStyle", "ISO, MDY"), ("TimeZone", "UTC"), ("IntervalStyle", "postgres"),
    ("integer_datetimes", "on"), ("transaction_isolation", "read committed"),
    ("transaction_read_only", "off"), ("application_name", ""), ("statement_timeout", "0"),
    ("idle_in_transaction_session_timeout", "0"), ("lock_timeout", "0"), ("bytea_output", "hex"),
    ("extra_float_digits", "1")]

def gucDefault (name : String) : Option String :=
  (gucDefaults.find? fun d => Text.eqIgnoreAsciiCase d.1 name).map Prod.snd

/-- A user-defined function; `β` are the bodies, in any of the three languages. -/
structure Udf (β : Type) where
  strict : Bool
  argTypes : List DataType
  returnType : Option DataType
  body : β

/-- The registries of a thread. -/
structure Registries (β : Type) where
  scalarUdfs : List ((String × Nat) × Udf β)
  plpgsqlUdfs : List ((String × Nat) × Udf β)
  nativeUdfs : List ((String × Nat) × Udf β)
  catalogDefs : List (Int × String)
  regclassOids : List (String × Int)
  gucSnapshot : List (String × String)
  gucPendingWrites : List (String × String)

/-- The functions of `eval_scalar_function` that look into the registries. -/
inductive Reader where
  | currentSetting | setConfig | castRegclass | catalogDef | partitionRoot

def Reader.of : String → Option Reader
  | "current_setting" => some currentSetting
  | "set_config" => some setConfig
  | "__cast_regclass" => some castRegclass
  | "pg_get_indexdef" | "pg_get_constraintdef" => some catalogDef
  | "pg_partition_ancestors" | "pg_partition_root" => some partitionRoot
  | _ => none

/-- The text of an argument. -/
def argText (v : Value) : String := String.ofList (v.toText.getD [])

/-- `trim_matches('"')`. -/
def trimQuotes (s : List Char) : List Char :=
  ((s.dropWhile (· == '"')).reverse.dropWhile (· == '"')).reverse

/-- The relation that a text names, without schema and quotes. -/
def relationName (s : List Char) : String :=
  String.ofList (trimQuotes (((rsplitDot s).map Prod.snd).getD s))

namespace Registries

variable {β : Type}

/-- The registries of a new thread. -/
def empty : Registries β := ⟨[], [], [], [], [], [], []⟩

/-- The user-defined function with the given name, in lower case, and number of arguments. -/
def findUdf (g : Registries β) (name : String) (arity : Nat) : Option (Udf β) :=
  (g.scalarUdfs.lookup (name, arity)).or
    ((g.plpgsqlUdfs.lookup (name, arity)).or (g.nativeUdfs.lookup (name, arity)))

variable (g : Registries β) (vals : List Value)

def currentSetting : Except String Value :=
  match vals with
  | [] => .error "missing function argument"
  | v :: rest =>
    let key := Text.toAsciiLowercase (argText v)
    match (g.gucSnapshot.lookup key).or (gucDefault key) with
    | some value => .ok (.text value)
    | none =>
      if (rest.head?.map Value.isTrue).getD false then .ok .null
      else .error ("unrecognized configuration parameter \"" ++ argText v ++ "\"")

def setConfig : Except String Value × Registries β :=
  match vals with
  | v :: w :: _ =>
    (.ok (.text (argText w)), { g with
      gucSnapshot := (Text.toAsciiLowercase (argText v), argText w) :: g.gucSnapshot
      gucPendingWrites := g.gucPendingWrites ++ [(argText v, argText w)] })
  | _ => (.error "missing function argument", g)

def castRegclass : Value :=
  match vals.headD .null with
  | .null => .null
  | .int oid =>
    match g.regclassOids.find? fun entry => entry.2 == oid with
    | some (name, _) => .text name
    | none => .int oid
  | v =>
    match g.regclassOids.lookup (relationName (v.toText.getD [])) with
    | some oid => .int oid
    | none => .text (argText v)

def catalogDef : Value :=
  match vals.headD .null with
  | .int oid =>
    match g.catalogDefs.lookup oid with
    | some definition => .text definition
    | none => .null
  | v => v

def partitionRoot : Value :=
  match vals.headD .null with
  | .null => .null
  | .int oid => .int oid
  | v =>
    match g.regclassOids.lookup (String.ofList (trimQuotes (v.toText.getD []))) with
    | some oid => .int oid
    | none => v

/-- A function finds nothing in the registries that a new thread would not give, and writes nothing to
them. -/
def Unread : Reader → Prop
  | .currentSetting => ∀ v ∈ vals.head?, ∀ value,
      g.gucSnapshot.lookup (Text.toAsciiLowercase (argText v)) = some value →
        gucDefault (Text.toAsciiLowercase (argText v)) = some value
  | .setConfig => vals.length < 2
  | .castRegclass =>
    match vals.headD .null with
    | .null => True
    | .int oid => ∀ entry ∈ g.regclassOids, entry.2 ≠ oid
    | v => g.regclassOids.lookup (relationName (v.toText.getD [])) = none
  | .catalogDef => ∀ oid, vals.headD .null = .int oid → g.catalogDefs.lookup oid = none
  | .partitionRoot =>
    match vals.headD .null with
    | .null | .int _ => True
    | v => g.regclassOids.lookup (String.ofList (trimQuotes (v.toText.getD []))) = none

variable {g vals}

theorem currentSetting_of_unread (h : g.Unread vals .currentSetting) :
    g.currentSetting vals = (empty : Registries β).currentSetting vals := by
  cases vals with
  | nil => rfl
  | cons v rest =>
    have hfound : (g.gucSnapshot.lookup (Text.toAsciiLowercase (argText v))).or
        (gucDefault (Text.toAsciiLowercase (argText v))) =
          gucDefault (Text.toAsciiLowercase (argText v)) := by
      cases hlookup : g.gucSnapshot.lookup (Text.toAsciiLowercase (argText v)) with
      | none => rfl
      | some value => exact (h v rfl value hlookup).symm
    rw [currentSetting, currentSetting, hfound, empty, lookup_nil, Option.none_or]

theorem setConfig_of_unread (h : g.Unread vals .setConfig) :
    g.setConfig vals = (.error "missing function argument", g) := by
  match vals, h with
  | [], _ | [_], _ => rfl
  | _ :: _ :: _, h => exact absurd h (by simp [Unread])

theorem castRegclass_of_unread (h : g.Unread vals .castRegclass) :
    g.castRegclass vals = (empty : Registries β).castRegclass vals := by
  rw [Unread] at h
  rw [castRegclass, castRegclass]
  generalize vals.headD .null = v at h ⊢
  cases v with
  | null => rfl
  | int oid =>
    have hfind : g.regclassOids.find? (fun entry => entry.2 == oid) = none := by
      rw [find?_eq_none]
      exact fun entry hentry heq => h entry hentry (beq_iff_eq.mp heq)
    dsimp only
    rw [hfind]
    rfl
  | _ =>
    dsimp only at h ⊢
    rw [h]
    rfl

theorem catalogDef_of_unread (h : g.Unread vals .catalogDef) :
    g.catalogDef vals = (empty : Registries β).catalogDef vals := by
  rw [catalogDef, catalogDef]
  split
  · next oid hoid =>
    rw [h oid hoid]
    rfl
  · rfl

theorem partitionRoot_of_unread (h : g.Unread vals .partitionRoot) :
    g.partitionRoot vals = (empty : Registries β).partitionRoot vals := by
  rw [Unread] at h
  rw [partitionRoot, partitionRoot]
  generalize vals.headD .null = v at h ⊢
  cases v with
  | null | int => rfl
  | _ =>
    dsimp only at h ⊢
    rw [h]
    rfl

end Registries

/-! ## Functions on a thread -/

section Calls

variable {β : Type} (ext : Externals) (builtin : String → Bool)
  (run : Registries β → β → List Value → Except String Value × Registries β)

/-- A user-defined function on values; `run` evaluates the body. -/
def callUdf (g : Registries β) (udf : Udf β) (vals : List Value) :
    Except String Value × Registries β :=
  if udf.strict && vals.any Value.isNull then (.ok .null, g)
  else
    match (vals.zip udf.argTypes).mapM fun (v, dataType) => ext.coerce v dataType with
    | .error m => (.error m, g)
    | .ok coerced =>
      match run g udf.body coerced, udf.returnType with
      | (.ok v, g'), some dataType => (ext.coerce v dataType, g')
      | (r, g'), _ => (r, g')

/-- `eval_scalar_function` behind the evaluation of the arguments; `builtin` are the names that have
an arm there. -/
def callFunction (g : Registries β) (name : String) (vals : List Value) (star : Bool) :
    Except String Value × Registries β :=
  match Reader.of name with
  | some .currentSetting => (g.currentSetting vals, g)
  | some .setConfig => g.setConfig vals
  | some .castRegclass => (.ok (g.castRegclass vals), g)
  | some .catalogDef => (.ok (g.catalogDef vals), g)
  | some .partitionRoot => (.ok (g.partitionRoot vals), g)
  | none =>
    if builtin name then (ext.scalarFunction name vals star, g)
    else
      match g.findUdf name vals.length with
      | some udf => callUdf ext run g udf vals
      | none => (.error ("function " ++ name ++ "() does not exist"), g)

/-- A call has nothing to do with what is in the registries. -/
def Unregistered (g : Registries β) (name : String) (vals : List Value) : Prop :=
  match Reader.of name with
  | some reader => g.Unread vals reader
  | none => builtin name = true ∨ g.findUdf name vals.length = none

/-- Such a call is answered on a new thread as it is here, and leaves the registries as they are. -/
theorem callFunction_of_unregistered {g : Registries β} {name : String} {vals : List Value}
    (h : Unregistered builtin g name vals) (star : Bool) :
    ∃ r, callFunction ext builtin run g name vals star = (r, g) ∧
      callFunction ext builtin run .empty name vals star = (r, .empty) := by
  rw [Unregistered] at h
  rw [callFunction, callFunction]
  generalize Reader.of name = reader at h ⊢
  rcases reader with _ | (_ | _ | _ | _ | _)
  · dsimp only at h ⊢
    by_cases hbuiltin : builtin name = true
    · rw [if_pos hbuiltin, if_pos hbuiltin]
      exact ⟨_, rfl, rfl⟩
    · rw [if_neg hbuiltin, if_neg hbuiltin, h.resolve_left hbuiltin]
      exact ⟨_, rfl, rfl⟩
  · exact ⟨_, rfl, by rw [Registries.currentSetting_of_unread h]⟩
  · refine ⟨_, Registries.setConfig_of_unread h, Registries.setConfig_of_unread ?_⟩
    exact h
  · exact ⟨_, rfl, by rw [Registries.castRegclass_of_unread h]⟩
  · exact ⟨_, rfl, by rw [Registries.catalogDef_of_unread h]⟩
  · exact ⟨_, rfl, by rw [Registries.partitionRoot_of_unread h]⟩

/-- The answer to an evaluation on a row, on a thread with the given registries. -/
def answerOn (colNames : List String) (row : List Value) (g : Registries β) :
    Question → Except Failure Value × Registries β
  | .column qualifier name => (columnAnswer colNames row qualifier name, g)
  -- No call is left out of the evaluation.
  | .node _ => (.error (.error ""), g)
  | .call name vals star =>
    let called := callFunction ext builtin run g (Text.toAsciiLowercase name) vals star
    (called.1.mapError .error, called.2)

/-- Whether a row passes the filter, on a thread with the given registries. -/
def evalFilter (colNames : List String) (filter : Option Expr) (g : Registries β)
    (row : List Value) : Except Failure Bool × Registries β :=
  match filter with
  | none => (.ok true, g)
  | some pred =>
    let evaluated := (evaluation ext pred).run (answerOn ext builtin run colNames row) g
    (evaluated.1.map Value.isTrue, evaluated.2)

/-- The evaluation of the filter on a row gets to no call that depends on the registries. -/
def Untouched (colNames : List String) (filter : Option Expr) (g : Registries β)
    (row : List Value) : Prop :=
  ∀ pred ∈ filter, ∀ name vals star, .call name vals star ∈ (evaluation ext pred).reached
      (fun q => (answerOn ext builtin run colNames row g q).1) →
    Unregistered builtin g (Text.toAsciiLowercase name) vals

variable {ext builtin run} {colNames : List String} {filter : Option Expr} {g : Registries β}
  {row : List Value} {rows : List (List Value)}

/-- Then the row is decided on a new thread as it is here. -/
theorem evalFilter_of_untouched (h : Untouched ext builtin run colNames filter g row) :
    ∃ r, evalFilter ext builtin run colNames filter g row = (r, g) ∧
      evalFilter ext builtin run colNames filter .empty row = (r, .empty) := by
  cases filter with
  | none => exact ⟨_, rfl, rfl⟩
  | some pred =>
    have hanswers : ∀ q ∈ (evaluation ext pred).reached
          (fun q => (answerOn ext builtin run colNames row g q).1),
        answerOn ext builtin run colNames row g q =
            ((answerOn ext builtin run colNames row g q).1, g) ∧
          answerOn ext builtin run colNames row .empty q =
            ((answerOn ext builtin run colNames row g q).1, .empty) := by
      rintro (⟨qualifier, name⟩ | call | ⟨name, vals, star⟩) hq
      · exact ⟨rfl, rfl⟩
      · exact ⟨rfl, rfl⟩
      · obtain ⟨r, hg, hempty⟩ :=
          callFunction_of_unregistered ext builtin run (h pred rfl name vals star hq) star
        rw [answerOn, answerOn, hg, hempty]
        exact ⟨rfl, rfl⟩
    have hg := Asks.run_eq fun q hq => (hanswers q hq).1
    have hempty := Asks.run_eq fun q hq => (hanswers q hq).2
    rw [evalFilter, evalFilter, hg, hempty]
    exact ⟨_, rfl, rfl⟩

/-- No thread panics on rows that have a value for each column. -/
theorem filterSelectRowsSerial_ne_panic (hwidth : ∀ row ∈ rows, colNames.length ≤ row.length)
    (g : Registries β) :
    filterSelectRowsSerial (evalFilter ext builtin run colNames filter) g rows ≠ .error .panic := by
  induction rows generalizing g with
  | nil => rintro ⟨⟩
  | cons row rows ih =>
    obtain ⟨hrow, hrows⟩ := forall_mem_cons.mp hwidth
    have hcalm : (evalFilter ext builtin run colNames filter g row).1 ≠ .error .panic := by
      cases filter with
      | none => rintro ⟨⟩
      | some pred =>
        have hrun : ((evaluation ext pred).run (answerOn ext builtin run colNames row) g).1 ≠
            .error .panic := by
          refine (composable_calm.trace ext (fun _ => false) pred).run (fun g q => ?_) g
          rcases q with ⟨qualifier, name⟩ | call | ⟨name, vals, star⟩
          · exact columnAnswer_ne_panic hrow
          · rintro ⟨⟩
          · rw [answerOn]
            rcases (callFunction ext builtin run g _ vals star).1 with m | v <;> rintro ⟨⟩
        rw [evalFilter]
        dsimp only
        generalize ((evaluation ext pred).run (answerOn ext builtin run colNames row) g).1 = r
          at hrun ⊢
        rcases r with x | v
        · exact fun h => hrun (congrArg Except.error (Except.error.inj h))
        · rintro ⟨⟩
    rw [filterSelectRowsSerial]
    split
    · next x _ heval =>
      rw [heval] at hcalm
      intro h
      exact hcalm (by rw [Except.error.inj h])
    · next keep g' heval =>
      intro h
      have := ih hrows g'
      rcases hrest : filterSelectRowsSerial (evalFilter ext builtin run colNames filter) g' rows with
        x | kept
      · rw [hrest] at h
        exact this (by rw [hrest, Except.error.inj h])
      · rw [hrest] at h
        cases h

end Calls

/-- The registries of a thread with one setting. -/
def tenantRegistries : Registries Unit :=
  { Registries.empty with gucSnapshot := [("app.tenant", "1")] }

end PostgresRs.Exec
