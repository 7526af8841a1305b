import PostgresRs.Sql.Script

/-!
# The logical log

The log of `engine/src/wal.rs` is a file of SQL: each statement's text with `;` and a line break after
it.  At startup the server reads the file, decodes it and executes its statements
(`server/src/server.rs`).

* `Wal.append`, `Wal.contents` — the two operations on the file, on its bytes.
* `parseWalStatements` — the statements of the file: of all of it if it parses, otherwise of its
  records up to the first that does not.
* `replay` — what startup executes.

The texts that go through the log unharmed are the `SelfContained` ones.  Behind such texts the two
ways of reading agree: the statements of the file are those of the texts, followed by the statements
of what comes after them (`executed_script_append`).
-/

namespace PostgresRs

open PostgresRs.Parser Lexer Utf8 List

namespace Wal

/-- What ends a record. -/
def terminator : List Char := [';', '\n']

/-- The record of a text; an empty text has none. -/
def entry (sql : List Char) : List Char :=
  if sql = [] then [] else sql ++ terminator

/-- `Wal::append`. -/
def append (file : List UInt8) (sql : List Char) : List UInt8 :=
  file ++ utf8 (entry sql)

/-- What `Wal::open` returns of an existing file. -/
def contents (file : List UInt8) : List Char :=
  decodeLossy file

/-- The file after texts are appended to an empty one. -/
def script (texts : List (List Char)) : List Char :=
  texts.flatMap entry

/-! ## Reading the file -/

/-- `str::split_inclusive` at the terminator: split after each terminator. -/
def splitInclusive : List Char → List (List Char)
  | [] => []
  | c :: cs =>
    match cs with
    | [] => [[c]]
    | d :: cs =>
      if c = ';' ∧ d = '\n' then [c, d] :: splitInclusive cs
      else
        match splitInclusive (d :: cs) with
        | [] => [[c]]
        | piece :: pieces => (c :: piece) :: pieces

/-- The records that have their terminator. -/
def walRecords (cs : List Char) : List (List Char) :=
  (splitInclusive cs).filter fun piece => terminator.isSuffixOf piece

/-- The statements of the records up to the first that does not parse. -/
def recoverPrefix (arms : Arms) : List (List Char) → List Statement
  | [] => []
  | piece :: pieces =>
    match parseSql arms piece with
    | .ok stmts => stmts ++ recoverPrefix arms pieces
    | .error _ => []

def parseWalStatements (arms : Arms) (cs : List Char) : List Statement :=
  match parseSql arms cs with
  | .ok stmts => stmts
  | .error _ => recoverPrefix arms (walRecords cs)

/-- The statements that are executed: all but the empty one. -/
def executed (stmts : List Statement) : List Statement :=
  stmts.filter fun
    | .empty => false
    | _ => true

/-- The statements startup executes for the file's contents. -/
def replay (arms : Arms) (cs : List Char) : List Statement :=
  if Text.trimList cs = [] then [] else executed (parseWalStatements arms cs)

/-- The statements of a text that are executed. -/
def statementsOf (arms : Arms) (sql : List Char) : List Statement :=
  match parseSql arms sql with
  | .ok stmts => executed stmts
  | .error _ => []

@[simp] theorem executed_append (l l' : List Statement) :
    executed (l ++ l') = executed l ++ executed l' :=
  filter_append l l'

/-! ## Parsing a text -/

variable {arms : Arms} {sql cs : List Char} {stmts : List Statement}

/-- A text that can be followed by others: it does not end inside a comment, and the parser reads it
alike when `;` and anything else follow. -/
def SelfContained (arms : Arms) (sql : List Char) : Prop :=
  ∃ ts stmts, scanAll (utf8 sql) = .ok (ts, .blank) ∧ parseAll arms ts = .ok stmts ∧
    Apart arms ts stmts

theorem executed_ite (stmts : List Statement) :
    executed (if stmts.isEmpty then [.empty] else stmts) = executed stmts := by
  cases stmts <;> rfl

/-- A self-contained text parses. -/
theorem SelfContained.parses (h : SelfContained arms sql) :
    ∃ stmts, parseScript arms sql = .ok stmts ∧ statementsOf arms sql = executed stmts := by
  obtain ⟨ts, stmts, hscan, hparse, -⟩ := h
  have hs : parseScript arms sql = .ok stmts := by
    rw [parseScript, tokenize, hscan]
    exact hparse
  refine ⟨stmts, hs, ?_⟩
  rw [statementsOf, parseSql, hs]
  exact executed_ite stmts

/-- Behind a self-contained text and its terminator the parse starts afresh. -/
theorem SelfContained.parseScript_append (h : SelfContained arms sql)
    (hs : parseScript arms sql = .ok stmts) (cs : List Char) :
    parseScript arms (sql ++ terminator ++ cs) =
      (parseScript arms cs).map fun stmts' => stmts ++ stmts' := by
  obtain ⟨ts, stmts', hscan, hparse, hapart⟩ := h
  have hstmts : stmts' = stmts := by
    rw [parseScript, tokenize, hscan] at hs
    exact Except.ok.inj (hparse.symm.trans hs)
  have hbytes : utf8 (sql ++ terminator ++ cs) = utf8 sql ++ semi :: byte '\n' :: utf8 cs := by
    rw [utf8_append, utf8_append, append_assoc]
    rfl
  rw [parseScript, parseScript, tokenize, tokenize, hbytes, scanAll_append hscan,
    scanAll_whitespace rfl]
  rcases scanAll (utf8 cs) with e | ⟨us, mode⟩
  · rfl
  · subst hstmts
    exact hapart us

/-! ## Splitting the file -/

theorem splitInclusive_append (h : ¬ terminator <:+: sql) (cs : List Char) :
    splitInclusive (sql ++ terminator ++ cs) = (sql ++ terminator) :: splitInclusive cs := by
  induction sql with
  | nil => rfl
  | cons c sql ih =>
    have hrest := ih fun hin => h (infix_cons hin)
    cases sql with
    | nil =>
      have hc : ¬(c = ';' ∧ ';' = '\n') := fun hc => absurd hc.2 (by decide)
      change splitInclusive (c :: ';' :: '\n' :: cs) = _
      rw [splitInclusive, if_neg hc]
      rfl
    | cons d sql =>
      have hcd : ¬(c = ';' ∧ d = '\n') := by
        rintro ⟨rfl, rfl⟩
        exact h ⟨[], sql, rfl⟩
      change splitInclusive (c :: d :: (sql ++ terminator ++ cs)) = _
      rw [splitInclusive, if_neg hcd]
      change (match splitInclusive (d :: sql ++ terminator ++ cs) with
        | [] => [[c]]
        | piece :: pieces => (c :: piece) :: pieces) = _
      rw [hrest]
      rfl

theorem flatten_splitInclusive (cs : List Char) : (splitInclusive cs).flatten = cs := by
  fun_induction splitInclusive cs with
  | case1 | case2 => rfl
  | case3 c d cs hcd ih =>
    rw [flatten_cons, ih]
    rfl
  | case4 c d cs hcd hnil ih =>
    rw [hnil] at ih
    cases ih
  | case5 c d cs hcd piece pieces hpieces ih =>
    rw [hpieces] at ih
    rw [← ih]
    rfl

/-- Without a terminator there is no record. -/
theorem walRecords_eq_nil (h : ¬ terminator <:+: cs) : walRecords cs = [] := by
  rw [walRecords, filter_eq_nil_iff]
  intro piece hmem hsuffix
  have hpiece := infix_of_mem_flatten hmem
  rw [flatten_splitInclusive] at hpiece
  exact h ((isSuffixOf_iff_suffix.mp hsuffix).isInfix.trans hpiece)

/-- Startup executes the statements of the file; that it does not look at a blank file makes no
difference. -/
theorem replay_eq (arms : Arms) (cs : List Char) :
    replay arms cs = executed (parseWalStatements arms cs) := by
  rw [replay]
  split
  · next hblank =>
    have hws := Text.isWhitespace_of_trimList hblank
    have hnot : ¬ terminator <:+: cs := by
      intro hin
      exact absurd (hws ';' (hin.subset (by decide))) (by decide)
    rw [parseWalStatements, parseSql, parseScript, tokenize, walRecords_eq_nil hnot]
    rcases hs : scanAll (utf8 cs) with e | ⟨ts, mode⟩
    · rfl
    · cases scanAll_blank hws hs
      rfl
  · rfl

/-! ## The file behind self-contained texts -/

/-- The two ways of reading the file agree behind a self-contained text: its statements come first,
and then those of what is behind it.  For the second way the text must not contain a terminator. -/
theorem SelfContained.executed_behind (h : SelfContained arms sql)
    (hs : parseScript arms sql = .ok stmts)
    (hcs : (∃ stmts', parseScript arms cs = .ok stmts') ∨ ¬ terminator <:+: sql) :
    executed (parseWalStatements arms (sql ++ terminator ++ cs)) =
      executed stmts ++ executed (parseWalStatements arms cs) := by
  have hall := h.parseScript_append hs
  rw [parseWalStatements, parseWalStatements, parseSql, parseSql, hall cs]
  rcases hp : parseScript arms cs with e | stmts'
  · have hsql : ¬ terminator <:+: sql := hcs.resolve_left (by simp [hp])
    have hone : parseScript arms (sql ++ terminator) = .ok stmts := by
      have hnil := hall []
      rw [append_nil] at hnil
      rw [hnil]
      change Except.ok (stmts ++ []) = _
      rw [append_nil]
    change executed (recoverPrefix arms (walRecords (sql ++ terminator ++ cs))) =
      executed stmts ++ executed (recoverPrefix arms (walRecords cs))
    have hmark := isSuffixOf_iff_suffix.mpr (suffix_append sql terminator)
    rw [walRecords, splitInclusive_append hsql, filter_cons_of_pos hmark, recoverPrefix, parseSql,
      hone]
    change executed ((if stmts.isEmpty then [.empty] else stmts) ++ _) = _
    rw [executed_append, executed_ite, walRecords]
  · change executed (if (stmts ++ stmts').isEmpty then [.empty] else stmts ++ stmts') =
      executed stmts ++ executed (if stmts'.isEmpty then [.empty] else stmts')
    rw [executed_ite, executed_ite, executed_append]

theorem entry_of_ne (h : sql ≠ []) : entry sql = sql ++ terminator := if_neg h

theorem script_cons (sql : List Char) (texts : List (List Char)) :
    script (sql :: texts) = entry sql ++ script texts := rfl

variable {texts : List (List Char)}

/-- Behind self-contained texts a script parses if it does alone. -/
theorem parseScript_script_append (hself : ∀ sql ∈ texts, SelfContained arms sql)
    (h : ∃ stmts, parseScript arms cs = .ok stmts) :
    ∃ stmts, parseScript arms (script texts ++ cs) = .ok stmts := by
  induction texts with
  | nil => exact h
  | cons sql texts ih =>
    obtain ⟨stmts', hrest⟩ := ih fun u hu => hself u (mem_cons_of_mem _ hu)
    have hsql := hself sql mem_cons_self
    rw [script_cons, append_assoc]
    rcases eq_or_ne sql [] with rfl | hne
    · exact ⟨stmts', hrest⟩
    · obtain ⟨stmts, hs, -⟩ := hsql.parses
      rw [entry_of_ne hne, hsql.parseScript_append hs, hrest]
      exact ⟨_, rfl⟩

/-- **The file behind self-contained texts.**  What is executed are the statements of the texts, and
then what would be executed of the rest alone.  If the rest does not parse, the texts must not contain
a terminator. -/
theorem executed_script_append (hself : ∀ sql ∈ texts, SelfContained arms sql)
    (hcs : (∃ stmts, parseScript arms cs = .ok stmts) ∨ ∀ sql ∈ texts, ¬ terminator <:+: sql) :
    executed (parseWalStatements arms (script texts ++ cs)) =
      texts.flatMap (statementsOf arms) ++ executed (parseWalStatements arms cs) := by
  induction texts with
  | nil => rfl
  | cons sql texts ih =>
    have hself' : ∀ u ∈ texts, SelfContained arms u := fun u hu => hself u (mem_cons_of_mem _ hu)
    have hrest := ih hself' (hcs.imp_right fun h u hu => h u (mem_cons_of_mem _ hu))
    have hsql := hself sql mem_cons_self
    obtain ⟨stmts, hstmts, hof⟩ := hsql.parses
    rw [flatMap_cons, hof, append_assoc, ← hrest, script_cons, append_assoc]
    rcases eq_or_ne sql [] with rfl | hne
    · cases hstmts
      rfl
    · rw [entry_of_ne hne]
      refine hsql.executed_behind hstmts ?_
      exact hcs.imp (parseScript_script_append hself') fun h => h sql mem_cons_self

end Wal
end PostgresRs
