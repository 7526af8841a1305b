import PostgresRs.Sql.Cursor
import PostgresRs.Sql.Statement

/-!
# The parser of statements

`Parser::parse_sql` and the statements of `sql/src/parser.rs` that hold no expression and no query:
`DROP` with all its objects, `TRUNCATE`, comments and privileges, maintenance, settings, notification
and transaction control.  All of them are `Clause`s: they stop at the `;` after the statement.

The statements with expressions or queries come in through `Arms`, a reader for each leading keyword.
They are plain readers: an `EXCLUDE` constraint and some options of a sequence, for example, take the
next token whatever it is, and so can take the `;`.

* `parseStatement` — one statement, by its leading keyword; `EXPLAIN` is followed by another.
* `parseAll` — the loop of `parse_sql` over tokens; `parseScript` — on a text; `parseSql` —
  `parse_sql`.
-/

namespace PostgresRs

namespace Parser

open Bounded (eatIf peekIs takeMap takeWhile skipPast choose many fail)

/-! ## `DROP` -/

/-- `DROP object [IF EXISTS] name [CASCADE | RESTRICT]`, after the object's keyword. -/
def dropNamed (mk : String → Bool → Statement) : Clause Statement := do
  let ifExists ← parseIfExists
  let name ← parseObjectName
  skipDropBehavior
  return mk name ifExists

def dropTable : Clause Statement := dropNamed fun name ifExists => .dropTable ⟨name, ifExists⟩

def dropSequence : Clause Statement := dropNamed fun name ifExists => .dropSequence ⟨name, ifExists⟩

def dropIndex : Clause Statement := dropNamed fun name ifExists => .dropIndex ⟨name, ifExists⟩

def dropSchema : Clause Statement := dropNamed fun name ifExists => .dropSchema ⟨name, ifExists⟩

def dropTablespace : Clause Statement :=
  dropNamed fun name ifExists => .dropTablespace ⟨name, ifExists⟩

def dropCollation : Clause Statement :=
  dropNamed fun name ifExists => .dropCollation ⟨name, ifExists⟩

def dropType : Clause Statement := dropNamed fun name ifExists => .dropType ⟨name, ifExists⟩

def dropDomain : Clause Statement := dropNamed fun name ifExists => .dropDomain ⟨name, ifExists⟩

def dropView : Clause Statement := dropNamed fun name ifExists => .dropView ⟨name, ifExists⟩

def dropMaterializedView : Clause Statement := do
  expectKeyword "view"
  dropNamed fun name ifExists => .dropMaterializedView ⟨name, ifExists⟩

/-- Unlike its siblings, `DROP EXTENSION` remembers `CASCADE`. -/
def dropExtension : Clause Statement := do
  let ifExists ← parseIfExists
  let name ← parseObjectName
  let cascade ← eatKeyword "cascade"
  skipKeyword "restrict"
  return .dropExtension ⟨name, ifExists, cascade⟩

def dropDatabase : Clause Statement := do
  let ifExists ← parseIfExists
  let name ← parseObjectName
  discardStatementTail
  return .dropDatabase ⟨name, ifExists⟩

/-- A role's name is not qualified. -/
def dropRole : Clause Statement := do
  let ifExists ← parseIfExists
  let name ← parseIdent
  skipDropBehavior
  return .dropRole ⟨name, ifExists⟩

/-- An extended catalog object, with the rest of the statement as its definition. -/
def dropCatalogObject (kind : CatalogObjectKind) (parseName : Clause String) : Clause Statement := do
  let ifExists ← parseIfExists
  let name ← parseName
  let definition ← collectStatementTail
  return .dropCatalogObject ⟨kind, name, ifExists, definition⟩

/-- `DROP USER MAPPING FOR` or `DROP USER`. -/
def dropUser : Clause Statement :=
  onKeyword
    [(keyword "mapping", dropCatalogObject .userMapping do
      expectKeyword "for"
      parseObjectName)]
    dropRole

def dropOperator : Clause Statement :=
  onKeyword
    [(keyword "class", dropCatalogObject .operatorClass parseObjectName),
      (keyword "family", dropCatalogObject .operatorFamily parseObjectName)]
    (dropCatalogObject .operator parseOperatorSymbol)

def dropEventTrigger : Clause Statement := do
  expectKeyword "trigger"
  dropCatalogObject .eventTrigger parseObjectName

/-- A foreign table is dropped as an ordinary one. -/
def dropForeign : Clause Statement :=
  onKeyword
    [(keyword "data", do
      expectKeyword "wrapper"
      dropCatalogObject .foreignDataWrapper parseObjectName)]
    (do
      expectKeyword "table"
      dropTable)

/-- Skip the name of an argument: a word that is not followed by `,`, `)` or `(`. -/
def skipArgName : List Token → Except SyntaxError (Unit × List Token)
  | [] => .ok ((), [])
  | [t] => .ok ((), if isWord.1 t then [] else [t])
  | t :: u :: ts =>
    if isWord.1 t && !(u == .comma || u == .rParen || u == .lParen) then .ok ((), u :: ts)
    else .ok ((), t :: u :: ts)

theorem stopsAt_skipArgName : Reader.StopsAt Token.semicolon (skipArgName : Parser Unit) := by
  constructor
  · intro s x r h
    match s with
    | [] =>
      cases h
      exact Nat.le_refl _
    | [t] =>
      cases h
      split <;> simp
    | t :: u :: ts =>
      change (if _ then _ else _) = _ at h
      split at h <;> cases h <;> simp
  · intro s x r h rest
    match s with
    | [] =>
      cases h
      cases rest <;> rfl
    | [t] =>
      cases h
      cases t <;> rfl
    | t :: u :: ts =>
      change (if _ then _ else _) = _ at h ⊢
      split at h
      · next hskip =>
        cases h
        rw [if_pos hskip]
        rfl
      · next hskip =>
        cases h
        rw [if_neg hskip]
        rfl

/-- The type of an argument in a signature, its name being skipped. -/
def argType : Clause String := do
  (⟨skipArgName, stopsAt_skipArgName⟩ : Clause Unit)
  return (← parseTypeNameStr).2

/-- An optional signature `(type, ...)` or `(*)`. -/
def parseOptionalArgTypes : Clause (Option (List String)) := do
  if ← eat .lParen then
    if ← eat .star then
      expect .rParen
      return some ["*"]
    else if ← eat .rParen then return some []
    else
      let types ← separated (token .comma) argType
      expect .rParen
      return some types
  else return none

def dropFunction : Clause Statement := do
  let ifExists ← parseIfExists
  let name ← parseObjectName
  let argTypes ← parseOptionalArgTypes
  skipDropBehavior
  return .dropFunction ⟨name, ifExists, argTypes⟩

/-- Without a signature an aggregate is dropped with the empty one. -/
def dropAggregate : Clause Statement := do
  let ifExists ← parseIfExists
  let name ← parseObjectName
  let argTypes ← parseOptionalArgTypes
  skipDropBehavior
  return .dropAggregate ⟨name, ifExists, argTypes.getD []⟩

/-- `DROP object [IF EXISTS] name ON table`. -/
def dropOnTable (mk : String → String → Bool → Statement) : Clause Statement := do
  let ifExists ← parseIfExists
  let name ← parseIdent
  expectKeyword "on"
  let table ← parseObjectName
  skipDropBehavior
  return mk name table ifExists

def dropTrigger : Clause Statement :=
  dropOnTable fun name table ifExists => .dropTrigger ⟨name, table, ifExists⟩

def dropRule : Clause Statement :=
  dropOnTable fun name table ifExists => .dropRule ⟨name, table, ifExists⟩

def dropPolicy : Clause Statement :=
  dropOnTable fun name table ifExists => .dropPolicy ⟨name, table, ifExists⟩

def parseDrop : Clause Statement :=
  onKeyword
    [(keyword "role", dropRole), (keyword "user", dropUser), (keyword "operator", dropOperator),
      (keyword "event", dropEventTrigger), (keyword "foreign", dropForeign),
      (keyword "server", dropCatalogObject .server parseObjectName),
      (keyword "publication", dropCatalogObject .publication parseObjectName),
      (keyword "subscription", dropCatalogObject .subscription parseObjectName),
      (keyword "sequence", dropSequence), (keyword "index", dropIndex),
      (keyword "extension", dropExtension), (keyword "schema", dropSchema),
      (keyword "database", dropDatabase), (keyword "tablespace", dropTablespace),
      (keyword "collation", dropCollation), (keyword "type", dropType),
      (keyword "domain", dropDomain), (keyword "view", dropView),
      (keyword "materialized", dropMaterializedView), (keyword "function", dropFunction),
      (keyword "trigger", dropTrigger), (keyword "rule", dropRule),
      (keyword "aggregate", dropAggregate), (keyword "policy", dropPolicy)]
    (do
      expectKeyword "table"
      dropTable)

/-! ## Comments, labels and privileges -/

/-- `[schema.]table.column`. -/
def parseColumnCommentTarget : Clause (String × String) := do
  match ← separated (token .dot) parseIdent with
  | [table, column] => return (table, column)
  | [_, table, column] => return (table, column)
  | _ => fail (.message "COMMENT ON COLUMN requires table.column")

def parseCommentObject : Clause CommentObject :=
  onKeyword
    [(keyword "column", do
      let (table, column) ← parseColumnCommentTarget
      return .column table column)]
    (do
      let _ ← choose
        [(keyword "table", pure ()), (keyword "view", pure ()),
          (keyword "materialized", expectKeyword "view")]
      return .relation (← parseObjectName))

/-- A string or `NULL`. -/
def parseOptionalText (error : String) : Clause (Option String) :=
  onKeyword [(keyword "null", pure none)] (some <$> takeMap stringLit (.found error))

def parseComment : Clause Statement := do
  expectKeyword "on"
  let object ← parseCommentObject
  expectKeyword "is"
  return .comment ⟨object, ← parseOptionalText "expected comment string or NULL, got"⟩

def parseSecurityLabel : Clause Statement := do
  expectKeyword "label"
  let provider ← onKeyword [(keyword "for", parseIdent)] (pure "default")
  expectKeyword "on"
  let object ← parseCommentObject
  expectKeyword "is"
  let label ← parseOptionalText "expected security label string or NULL, got"
  return .securityLabel ⟨provider, object, label⟩

def privilegeFromKeyword (w : String) : Except SyntaxError Privilege :=
  match Text.toAsciiLowercase w with
  | "select" => .ok .select
  | "insert" => .ok .insert
  | "update" => .ok .update
  | "delete" => .ok .delete
  | "truncate" => .ok .truncate
  | "references" => .ok .references
  | "trigger" => .ok .trigger
  | other => .error (.message ("unsupported privilege: `" ++ other ++ "`"))

/-- Privileges on a table, or a list of roles: it is the `ON` that tells. -/
def parseGrantObject : Clause GrantObject :=
  onKeyword
    [(keyword "all", do
      skipKeyword "privileges"
      expectKeyword "on"
      skipKeyword "table"
      return .table .all (← parseObjectName))]
    (do
      let names ← separated (token .comma) parseIdent
      if ← eatKeyword "on" then
        skipKeyword "table"
        let table ← parseObjectName
        match names.mapM privilegeFromKeyword with
        | .ok privileges => return .table (.list privileges) table
        | .error e => fail e
      else return .roles names)

def parseGrantee : Clause Grantee := do
  skipKeyword "group"
  onKeyword [(keyword "public", pure .«public»)] (.role <$> parseIdent)

def skipGrantedBy : Clause Unit := do
  if ← eatKeyword "granted" then
    expectKeyword "by"
    let _ ← parseIdent

def parseGrant : Clause Statement := do
  let object ← parseGrantObject
  expectKeyword "to"
  let grantees ← separated (token .comma) parseGrantee
  if ← eatKeyword "with" then
    let _ ← choose [(keyword "grant", pure ()), (keyword "admin", pure ())]
    skipKeyword "option"
  skipGrantedBy
  return .grant ⟨object, grantees⟩

/-- Skip `GRANT OPTION FOR` or `ADMIN OPTION FOR`; without `OPTION` the word is a privilege or a
role. -/
def skipOptionFor : List Token → Except SyntaxError (Unit × List Token)
  | t :: u :: ts =>
    if (isKeyword "grant" t || isKeyword "admin" t) && isKeyword "option" u then
      (expectKeyword "for").run ts
    else .ok ((), t :: u :: ts)
  | ts => .ok ((), ts)

theorem stopsAt_skipOptionFor : Reader.StopsAt Token.semicolon (skipOptionFor : Parser Unit) := by
  have hfor := (expectKeyword "for").2
  constructor
  · intro s x r h
    match s with
    | [] | [_] =>
      cases h
      exact Nat.le_refl _
    | t :: u :: ts =>
      change (if _ then _ else _) = _ at h
      split at h
      · exact Nat.le_succ_of_le (Nat.le_succ_of_le (hfor.consumes h))
      · cases h
        exact Nat.le_refl _
  · intro s x r h rest
    match s with
    | [] =>
      cases h
      cases rest <;> rfl
    | [t] =>
      cases h
      have hnot : ¬((isKeyword "grant" t || isKeyword "admin" t) &&
          isKeyword "option" .semicolon) = true := by simp [isKeyword]
      exact if_neg hnot
    | t :: u :: ts =>
      change (if _ then _ else _) = _ at h ⊢
      split at h
      · next hskip =>
        rw [if_pos hskip]
        exact hfor.stops h rest
      · next hskip =>
        cases h
        rw [if_neg hskip]
        rfl

def parseRevoke : Clause Statement := do
  (⟨skipOptionFor, stopsAt_skipOptionFor⟩ : Clause Unit)
  let object ← parseGrantObject
  expectKeyword "from"
  let grantees ← separated (token .comma) parseGrantee
  skipGrantedBy
  let _ ← choose [(keyword "cascade", pure ()), (keyword "restrict", pure ())]
  return .revoke ⟨object, grantees⟩

/-! ## Maintenance -/

/-- A name, if one follows. -/
def parseOptionalName (test : Test Token.semicolon) : Clause (Option String) := do
  if ← peekIs test then return some (← parseObjectName) else return none

def parseTruncate : Clause Statement := do
  skipKeyword "table"
  let tables ← separated (token .comma) parseObjectName
  let _ ← choose
    [(keyword "restart", expectKeyword "identity"), (keyword "continue", expectKeyword "identity")]
  skipDropBehavior
  return .truncate ⟨tables⟩

def parseAnalyze : Clause Statement := do
  skipKeyword "verbose"
  return .analyze ⟨← parseOptionalName isWord⟩

def parseVacuum : Clause Statement := do
  if ← eat .lParen then
    skipPast (fun t => t == .rParen) (.message "unterminated VACUUM option list")
  skipKeyword "verbose"
  skipKeyword "analyze"
  return .vacuum ⟨← parseOptionalName isName⟩

def parseReindex : Clause Statement := do
  let target ← onKeyword
    [(keyword "table", .table <$> parseObjectName), (keyword "index", .index <$> parseObjectName),
      (keyword "database", .database <$> parseObjectName),
      (keyword "system", .system <$> parseOptionalName isName)]
    (fail (.message "REINDEX requires TABLE, INDEX, DATABASE, or SYSTEM"))
  return .reindex ⟨target⟩

def parseCluster : Clause Statement := do
  skipKeyword "verbose"
  let table ← parseOptionalName isName
  let index ← choose [(keyword "using", parseObjectName)]
  return .cluster ⟨table, index⟩

def parseDiscard : Clause Statement := do
  let target ← onKeyword
    [(keyword "all", pure .all), (keyword "plans", pure .plans),
      (keyword "sequences", pure .sequences), (keyword "temp", pure .temp),
      (keyword "temporary", pure .temp)]
    (fail (.message "DISCARD requires ALL, PLANS, SEQUENCES, or TEMP"))
  return .discard ⟨target⟩

def parseRefresh : Clause Statement := do
  expectKeyword "materialized"
  expectKeyword "view"
  skipKeyword "concurrently"
  return .refreshMaterializedView ⟨← parseObjectName⟩

/-! ## Notification and locks -/

def parseListen : Clause Statement := do
  return .listen (← parseIdent)

def parseNotify : Clause Statement := do
  let channel ← parseIdent
  let payload ← choose
    [(token .comma, takeMap stringLit (.found "expected NOTIFY payload string, got"))]
  return .notify channel payload

def parseUnlisten : Clause Statement := do
  let channel ← onKeyword [(token .star, pure none), (keyword "all", pure none)]
    (some <$> parseIdent)
  return .unlisten channel

/-- The words of a lock mode, up to `MODE`. -/
def parseLockMode : Clause (Option String) := do
  let ts ← takeWhile
    ⟨fun t => t != .semicolon && !isKeyword "nowait" t && !isKeyword "mode" t, rfl⟩
  skipKeyword "mode"
  let words := ts.filterMap fun
    | .word w => some w
    | _ => none
  return if words.isEmpty then none else some (Text.toAsciiUppercase (String.intercalate " " words))

def parseLockTable : Clause Statement := do
  skipKeyword "table"
  let tables ← separated (token .comma) parseObjectName
  let mode ← onKeyword [(keyword "in", parseLockMode)] (pure none)
  let nowait ← eatKeyword "nowait"
  return .lockTable ⟨tables, mode, nowait⟩

/-! ## Settings and transactions -/

def parseIsolationLevel : Clause IsolationLevel :=
  onKeyword
    [(keyword "serializable", pure .serializable),
      (keyword "repeatable", do
        expectKeyword "read"
        return .repeatableRead),
      (keyword "read", onKeyword
        [(keyword "committed", pure .readCommitted), (keyword "uncommitted", pure .readUncommitted)]
        (fail (.message "expected COMMITTED or UNCOMMITTED after READ")))]
    (fail (.message "expected a transaction isolation level"))

inductive TransactionMode where
  | isolation (level : IsolationLevel)
  | readOnly (b : Bool)
  | deferrable

/-- A clause and the comma that may follow it. -/
def thenComma {α : Type} (p : Clause α) : Clause α := do
  let x ← p
  let _ ← eat .comma
  return x

/-- The modes of a transaction; a later one overrides an earlier one. -/
def parseTransactionModes : Clause (Option IsolationLevel × Option Bool) := do
  let modes ← many
    [(keyword "isolation", thenComma do
        expectKeyword "level"
        return TransactionMode.isolation (← parseIsolationLevel)),
      (keyword "read", thenComma (onKeyword
        [(keyword "only", pure (.readOnly true)), (keyword "write", pure (.readOnly false))]
        (fail (.message "expected ONLY or WRITE after READ")))),
      (keyword "deferrable", thenComma (pure .deferrable)),
      (keyword "not", thenComma do
        expectKeyword "deferrable"
        return .deferrable)]
  let level := (modes.filterMap fun
    | .isolation l => some l
    | _ => none).getLast?
  let readOnly := (modes.filterMap fun
    | .readOnly b => some b
    | _ => none).getLast?
  return (level, readOnly)

def parseBegin : Clause Statement := do
  skipKeyword "transaction"
  skipKeyword "work"
  let (level, readOnly) ← parseTransactionModes
  return .begin level readOnly

def parseSetTransaction (session : Bool) : Clause Statement := do
  let (level, readOnly) ← parseTransactionModes
  return .setTransaction level readOnly session

/-- `SET name {= | TO} value`, after the name; the value `DEFAULT` resets the parameter. -/
def finishSetGuc (name : String) («local» : Bool) : Clause Statement := do
  let _ ← choose [(token .eq, pure ()), (keyword "to", pure ())]
  onKeyword [(keyword "default", pure (.resetConfig (some name)))]
    (do return .set name (← parseSettingValue) «local»)

def parseSet : Clause Statement :=
  onKeyword
    [(keyword "constraints", do
        discardStatementTail
        return .setConstraints),
      (keyword "session", onKeyword
        [(keyword "characteristics", do
            expectKeyword "as"
            expectKeyword "transaction"
            parseSetTransaction true),
          (keyword "transaction", parseSetTransaction false)]
        (do finishSetGuc (← parseGucName) false)),
      (keyword "transaction", parseSetTransaction false)]
    (do
      let «local» ← eatKeyword "local"
      onKeyword [(keyword "transaction", parseSetTransaction false)]
        (do finishSetGuc (← parseGucName) «local»))

def parseReset : Clause Statement :=
  onKeyword [(keyword "all", pure (.resetConfig none))]
    (do return .resetConfig (some (← parseGucName)))

def parseShow : Clause Statement :=
  onKeyword [(keyword "all", pure (.«show» "all"))] (do return .«show» (← parseGucName))

/-- `COMMIT [PREPARED gid]`. -/
def parseCommit : Clause Statement :=
  onKeyword [(keyword "prepared", do return .commitPrepared (← parseStringLiteral))]
    (do
      skipKeyword "transaction"
      skipKeyword "work"
      return .commit)

def parsePrepare : Clause Statement := do
  expectKeyword "transaction"
  return .prepareTransaction (← parseStringLiteral)

def parseRollback : Clause Statement :=
  onKeyword
    [(keyword "to", do
        skipKeyword "savepoint"
        return .rollbackToSavepoint (← parseIdent)),
      (keyword "prepared", do return .rollbackPrepared (← parseStringLiteral))]
    (do
      skipKeyword "transaction"
      skipKeyword "work"
      return .rollback)

def parseSavepoint : Clause Statement := do
  return .savepoint (← parseIdent)

def parseRelease : Clause Statement := do
  skipKeyword "savepoint"
  return .releaseSavepoint (← parseIdent)

/-! ## Statements -/

/-- The clause of a leading keyword, for the statements without expressions and queries.  It starts
after the keyword. -/
def clauseOf : String → Option (Clause Statement)
  | "drop" => some parseDrop
  | "truncate" => some parseTruncate
  | "analyze" => some parseAnalyze
  | "comment" => some parseComment
  | "grant" => some parseGrant
  | "revoke" => some parseRevoke
  | "security" => some parseSecurityLabel
  | "vacuum" => some parseVacuum
  | "reindex" => some parseReindex
  | "cluster" => some parseCluster
  | "checkpoint" => some (pure .checkpoint)
  | "discard" => some parseDiscard
  | "listen" => some parseListen
  | "notify" => some parseNotify
  | "unlisten" => some parseUnlisten
  | "lock" => some parseLockTable
  | "refresh" => some parseRefresh
  | "begin" | "start" => some parseBegin
  | "commit" | "end" => some parseCommit
  | "prepare" => some parsePrepare
  | "rollback" | "abort" => some parseRollback
  | "savepoint" => some parseSavepoint
  | "release" => some parseRelease
  | "set" => some parseSet
  | "reset" => some parseReset
  | "show" => some parseShow
  | _ => none

/-- The leading keywords of the statements with expressions or queries. -/
def armKeywords : List String :=
  ["create", "alter", "insert", "copy", "declare", "fetch", "select", "with", "update", "delete",
    "merge"]

/-- The parsers of the statements with expressions or queries.  Each starts after its keyword. -/
structure Arms where
  parse : String → Parser Statement
  consumes : ∀ {kw s stmt r}, (parse kw).run s = .ok (stmt, r) → r.length ≤ s.length

variable (arms : Arms)

/-- The statement that starts with the keyword `kw`, after that keyword. -/
def parseKeyword (kw : String) : Parser Statement :=
  match clauseOf kw with
  | some p => p.1
  | none =>
    if kw ∈ armKeywords then arms.parse kw
    else throw (.message ("unsupported statement: `" ++ kw ++ "`"))

def parseStatement (arms : Arms) : List Token → Except SyntaxError (Statement × List Token)
  | [] => .error (.found "expected a statement, found" none)
  | t :: ts =>
    match t with
    | .word w =>
      if Text.toAsciiLowercase w = "explain" then
        match ts with
        | [] => .error (.found "expected a statement, found" none)
        | u :: ts =>
          if isKeyword "analyze" u then
            (parseStatement arms ts).map fun (stmt, r) => (.explain true stmt, r)
          else (parseStatement arms (u :: ts)).map fun (stmt, r) => (.explain false stmt, r)
      else (parseKeyword arms (Text.toAsciiLowercase w)).run ts
    | other => .error (.found "expected a statement, found" (some other))

/-- The statements of a list of tokens, separated by semicolons. -/
def parseLoop (arms : Arms) : Nat → List Token → Except SyntaxError (List Statement)
  | 0, _ => .ok []
  | fuel + 1, ts =>
    match ts.dropWhile fun t => t == .semicolon with
    | [] => .ok []
    | t :: ts => do
      let (stmt, r) ← parseStatement arms (t :: ts)
      match r with
      | [] => return [stmt]
      | .semicolon :: r => return stmt :: (← parseLoop arms fuel r)
      | u :: _ => throw (.found "unexpected token after statement:" (some u))

/-- `parseLoop` with as much fuel as the tokens can need. -/
def parseAll (ts : List Token) : Except SyntaxError (List Statement) :=
  parseLoop arms (ts.length + 1) ts

/-- The statements of a text. -/
def parseScript (sql : List Char) : Except SyntaxError (List Statement) :=
  match Lexer.tokenize (Utf8.utf8 sql) with
  | .error e => .error (.lexical e)
  | .ok ts => parseAll arms ts

/-- `Parser::parse_sql`: a text without statements is one empty statement. -/
def parseSql (sql : List Char) : Except SyntaxError (List Statement) :=
  (parseScript arms sql).map fun stmts => if stmts.isEmpty then [.empty] else stmts

end Parser
end PostgresRs
