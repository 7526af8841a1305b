import PostgresRs.Sql.Cursor
import PostgresRs.Sql.Query

/-!
# The expression parser

`parse_expr` of `sql/src/parser.rs`, by precedence climbing: a prefix operator or an atom, and then as
many infix and postfix operators as bind at least as strongly as required.

Expressions and queries are read with each other.  Every function here is given the parsers of the
next level (`Parsers`), and `parsers` ties the knot: as many levels deep as it is told, with the body
of `parse_select` left open.
-/

namespace PostgresRs

/-- The parsers of the next level: `parse_expr_bp` and `parse_select`. -/
structure Parsers where
  expr : Nat → Parser Expr
  select : Parser Select

namespace Parser

open Reader

/-! ## Operators -/

/-- Operator binding powers, left and right.  Higher binds tighter. -/
def bindingPower : BinaryOp → Nat × Nat
  | .or => (1, 2)
  | .and => (3, 4)
  | .eq | .notEq | .lt | .ltEq | .gt | .gtEq | .regexMatch _ | .regexNotMatch _ | .arrayContains
  | .textSearchMatch | .arrayContainedBy | .arrayOverlap | .networkContainedBy
  | .networkContainedByEq | .networkContains | .networkContainsEq => (5, 6)
  | .concat | .jsonGet | .jsonGetText => (8, 9)
  | .add | .sub => (10, 11)
  | .mul | .div | .mod => (12, 13)

/-- The operators that `OPERATOR(...)` can name. -/
def namedOp : Token → Option BinaryOp
  | .«match» => some (.regexMatch false)
  | .matchCi => some (.regexMatch true)
  | .notMatch => some (.regexNotMatch false)
  | .notMatchCi => some (.regexNotMatch true)
  | .eq => some .eq
  | .notEq => some .notEq
  | .lt => some .lt
  | .ltEq => some .ltEq
  | .gt => some .gt
  | .gtEq => some .gtEq
  | .arrow => some .jsonGet
  | .arrowText => some .jsonGetText
  | .arrayContains => some .arrayContains
  | .textSearchMatch => some .textSearchMatch
  | .arrayContainedBy => some .arrayContainedBy
  | .arrayOverlap => some .arrayOverlap
  | .networkContainedBy => some .networkContainedBy
  | .networkContainedByEq => some .networkContainedByEq
  | .networkContains => some .networkContains
  | .networkContainsEq => some .networkContainsEq
  | _ => none

/-- A token as a binary operator, including the keyword operators. -/
def binaryOp : Token → Option BinaryOp
  | .plus => some .add
  | .minus => some .sub
  | .star => some .mul
  | .slash => some .div
  | .percent => some .mod
  | .concat => some .concat
  | .word w =>
    if Text.eqIgnoreAsciiCase w "and" then some .and
    else if Text.eqIgnoreAsciiCase w "or" then some .or
    else none
  | t => namedOp t

def peekBinaryOp : Parser (Option BinaryOp) := fun s => .ok (s.head?.bind binaryOp, s)

/-- Whether `[NOT] LIKE | ILIKE | IN | BETWEEN` begins here. -/
def peekPredicateKeyword : Parser Bool := fun s =>
  let rest := if s.head?.any (isKeyword "not") then s.tail else s
  .ok (["like", "ilike", "in", "between"].any fun kw => rest.head?.any (isKeyword kw), s)

def eatQuantifier : Parser (Option Quantifier) := do
  if ← eatKeyword "any" then return some .any
  else if ← eatKeyword "some" then return some .some
  else if ← eatKeyword "all" then return some .all
  else return none

/-- `OPERATOR ( [schema.] op )`. -/
def parseOperatorConstruct : Parser BinaryOp := do
  expectKeyword "operator"
  expect .lParen
  let s ← get
  match s with
  | .word _ :: .dot :: rest => set rest
  | _ => pure ()
  let op ← takeMap namedOp (.found "unsupported OPERATOR(...):")
  expect .rParen
  return op

/-! ## Lists -/

/-- One or more, separated by commas. -/
def commaSeparated {α : Type} (p : Parser α) : Parser (List α) := do
  let first ← p
  let rest ← many (do if ← eat .comma then return some (← p) else return none)
  return first :: rest

/-- None, before the token `close`, or one or more separated by commas. -/
def listBefore {α : Type} (close : Token) (p : Parser α) : Parser (List α) := do
  if ← peekIs (fun t => t == close) then return [] else commaSeparated p

section

variable (r : Parsers)

def parseExprListUntilRparen : Parser (List Expr) := do
  let list ← listBefore .rParen (r.expr 0)
  expect .rParen
  return list

def parseOrderByItem : Parser OrderByItem := do
  let expr ← r.expr 0
  if ← eatKeyword "desc" then return ⟨expr, false⟩
  else
    skipKeyword "asc"
    return ⟨expr, true⟩

def parseOrderByItems : Parser (List OrderByItem) :=
  commaSeparated (parseOrderByItem r)

/-- The arguments of a call and its `)`; an `ORDER BY` among them is read and ignored. -/
def parseCallArgs : Parser (List Expr) := do
  let args ← listBefore .rParen (r.expr 0)
  if ← peekIs (isKeyword "order") then
    expectKeyword "order"
    expectKeyword "by"
    let _ ← parseOrderByItems r
  expect .rParen
  return args

/-! ## Calls -/

def parseAggregateFilter : Parser (Option Expr) := do
  if ← eatKeyword "filter" then
    expect .lParen
    expectKeyword "where"
    let expr ← r.expr 0
    expect .rParen
    return some expr
  else return none

/-- `OVER ( [PARTITION BY ...] [ORDER BY ...] [frame] )`; the frame is read and ignored. -/
def parseOverClause : Parser (Option WindowSpec) := do
  if ← eatKeyword "over" then
    expect .lParen
    let partitionBy ←
      if ← eatKeyword "partition" then
        expectKeyword "by"
        commaSeparated (r.expr 0)
      else pure []
    let orderBy ←
      if ← eatKeyword "order" then
        expectKeyword "by"
        parseOrderByItems r
      else pure []
    skipPast (fun t => t == .rParen) (.message "unterminated OVER clause")
    return some ⟨partitionBy, orderBy⟩
  else return none

/-- The arguments of a call, without those of `WITHIN GROUP`. -/
def parseDirectArgs : Parser (Bool × List Expr) := do
  if ← eat .rParen then return (false, [])
  else
    let distinct ← eatKeyword "distinct"
    return (distinct, ← parseCallArgs r)

/-- `WITHIN GROUP (ORDER BY expr)`: one more argument. -/
def parseWithinGroup : Parser (List Expr) := do
  if ← peekIs (isKeyword "within") then
    expectKeyword "within"
    expectKeyword "group"
    expect .lParen
    expectKeyword "order"
    expectKeyword "by"
    let expr ← r.expr 0
    skipKeyword "asc"
    skipKeyword "desc"
    expect .rParen
    return [expr]
  else return []

/-- The rest of a call after its `(`. -/
def parseFunctionArgs (name : String) : Parser Expr := do
  if ← eat .star then
    expect .rParen
    let filter ← parseAggregateFilter r
    let window ← parseOverClause r
    return .function name [] true false filter window
  else
    let (distinct, args) ← parseDirectArgs r
    let ordered ← parseWithinGroup r
    let filter ← parseAggregateFilter r
    let window ← parseOverClause r
    return .function name (args ++ ordered) false distinct filter window

/-- A call without arguments or clauses. -/
def call (name : String) (args : List Expr) : Expr := .function name args false false none none

/-! ## Atoms -/

def parseNumber (n : String) : Parser Expr :=
  let asFloat : Parser Expr :=
    match F64.parse n.toList with
    | some f => return .float f
    | none => throw (.message ("invalid number `" ++ n ++ "`"))
  if n.toList.contains '.' || n.toList.contains 'e' || n.toList.contains 'E' then asFloat
  else
    match Text.parseI64 n.toList with
    | some i => return .int i
    -- Integers out of range are read as doubles.
    | none => asFloat

/-- A subquery and its `)`. -/
def parseSubquery : Parser Select := do
  let sub ← r.select
  expect .rParen
  return sub

/-- What stands in parentheses: a subquery, a row or an expression. -/
def parseGroup : Parser Expr := do
  if ← peekIs (isKeyword "select") then return .scalarSubquery (← parseSubquery r)
  else
    let first ← r.expr 0
    if ← eat .comma then
      let items ← commaSeparated (r.expr 0)
      expect .rParen
      return .row (first :: items)
    else
      expect .rParen
      return first

def intervalFields : List String := ["year", "month", "day", "hour", "minute", "second"]

/-- `YEAR TO MONTH` and the like after an interval literal.  Whatever follows `TO` is taken, and used
if it is a word. -/
def parseIntervalQualifier : List Token → Except SyntaxError (Option String × List Token)
  | .word w :: s =>
    let first := Text.toAsciiLowercase w
    if first ∈ intervalFields then
      match s with
      | t :: s =>
        if isKeyword "to" t then
          match s with
          | .word second :: s => .ok (some (first ++ " to " ++ Text.toAsciiLowercase second), s)
          | _ :: s => .ok (some first, s)
          | [] => .ok (some first, [])
        else .ok (some first, t :: s)
      | [] => .ok (some first, [])
    else .ok (none, .word w :: s)
  | s => .ok (none, s)

/-- `INTERVAL 'text' [qualifier]`: a cast of the text, with the qualifier behind a control
character. -/
def parseIntervalLiteral : Parser Expr := do
  let s ← parseStringLiteral
  let literal :=
    match ← (parseIntervalQualifier : Parser (Option String)) with
    | some q => s ++ "\u0001" ++ q
    | none => s
  return .cast (.str literal) .interval

/-- `DATE 'text'` and the like: a cast of the text. -/
def parseTypedLiteral (target : DataType) : Parser Expr := do
  return .cast (.str (← parseStringLiteral)) target

/-- `EXTRACT(field FROM source)`. -/
def parseExtract : Parser Expr := do
  expect .lParen
  let field := Text.toAsciiLowercase (← parseIdent)
  expectKeyword "from"
  let source ← r.expr 0
  expect .rParen
  return call "date_part" [.str field, source]

/-- One `WHEN ... THEN ...`, if there is another. -/
def parseWhen : Parser (Option (Expr × Expr)) := do
  if ← eatKeyword "when" then
    let cond ← r.expr 0
    expectKeyword "then"
    return some (cond, ← r.expr 0)
  else return none

/-- The rest of `CASE ... END` after its keyword. -/
def parseCase : Parser Expr := do
  let operand ← if ← peekIs (isKeyword "when") then pure none else some <$> r.expr 0
  let whens ← many (parseWhen r)
  if whens.isEmpty then throw (.message "CASE requires at least one WHEN clause")
  let elseExpr ← if ← eatKeyword "else" then some <$> r.expr 0 else pure none
  expectKeyword "end"
  return .case operand whens elseExpr

/-- The rest of `CAST(expr AS type)` after its keyword. -/
def parseCast : Parser Expr := do
  expect .lParen
  let inner ← r.expr 0
  expectKeyword "as"
  let (target, _) ← parseDataTypeNamed
  expect .rParen
  return .cast inner target

/-- The functions that can be called without parentheses. -/
def niladic : List String :=
  ["current_user", "current_role", "session_user", "current_schema", "current_catalog",
    "current_date", "current_timestamp"]

def isStringLit : Token → Bool
  | .stringLit _ => true
  | _ => false

/-- The words with a meaning of their own, by the token behind them. -/
def keywordAtom (lw : String) (next : Option Token) : Option (Parser Expr) :=
  if lw = "true" then some (return .bool true)
  else if lw = "false" then some (return .bool false)
  else if lw = "null" then some (return .null)
  else if lw = "row" ∧ next = some .lParen then
    some (do expect .lParen; return .row (← parseCallArgs r))
  else if lw = "interval" ∧ next.any isStringLit then some parseIntervalLiteral
  else if lw = "date" ∧ next.any isStringLit then some (parseTypedLiteral .date)
  else if lw = "timestamp" ∧ next.any isStringLit then some (parseTypedLiteral .timestamp)
  else if lw = "timestamptz" ∧ next.any isStringLit then some (parseTypedLiteral .timestampTz)
  else if lw = "time" ∧ next.any isStringLit then some (parseTypedLiteral .time)
  else if lw = "array" ∧ next = some .lBracket then
    some (do
      expect .lBracket
      let items ← listBefore .rBracket (r.expr 0)
      expect .rBracket
      return .array items)
  else if lw = "array" ∧ next = some .lParen then
    some (do expect .lParen; return .scalarSubquery (← parseSubquery r))
  else if lw = "extract" then some (parseExtract r)
  else if lw = "exists" then some (do expect .lParen; return .exists (← parseSubquery r))
  else if lw = "case" then some (parseCase r)
  else if lw = "cast" then some (parseCast r)
  else if lw ∈ niladic ∧ next ≠ some .lParen then some (return call lw [])
  else none

/-- A call or a column, by its first word. -/
def parseNamed (w : String) : Parser Expr := do
  if ← eat .lParen then parseFunctionArgs r w
  else if ← eat .dot then
    let col ← parseIdent
    if ← eat .dot then
      let col2 ← parseIdent
      if ← eat .lParen then parseFunctionArgs r col2 else return .qualifiedColumn col col2
    else if ← eat .lParen then parseFunctionArgs r col
    else return .qualifiedColumn w col
  else return .column w

def parseAtomInner : Parser Expr := do
  match ← advance with
  | some (.number n) => parseNumber n
  | some (.stringLit s) => return .str s
  | some (.param n) => return .param n
  | some (.quotedIdent name) => return .column name
  | some .lParen => parseGroup r
  | some (.word w) =>
    let s ← get
    match keywordAtom r (Text.toAsciiLowercase w) s.head? with
    | some p => p
    | none => parseNamed r w
  | other => throw (.found "unexpected token in expression:" other)

/-- The types whose casts look a name up in the catalog. -/
def regTypes : List String :=
  ["regclass", "regtype", "regnamespace", "regproc", "regrole", "regprocedure", "regoper",
    "regoperator", "regconfig", "regdictionary"]

/-- `::type`, a subscript or `COLLATE` behind an atom. -/
def parseAtomSuffix (e : Expr) : Parser (Option Expr) := do
  if ← eat .doubleColon then
    let (target, raw) ← parseDataTypeNamed
    match raw with
    | some name =>
      if name ∈ regTypes then return some (call ("__cast_" ++ name) [e])
      else return some (.cast e target)
    | none => return some (.cast e target)
  else if ← eat .lBracket then
    let idx ← r.expr 0
    expect .rBracket
    return some (call "__subscript" [e, idx])
  else if ← eatKeyword "collate" then
    let _ ← parseQualifiedName
    return some e
  else return none

def parseAtom : Parser Expr := do
  extend (parseAtomSuffix r) (← parseAtomInner r)

/-! ## Climbing -/

def parsePrefix : Parser Expr := do
  if ← eatKeyword "not" then return .unary .not (← r.expr 3)
  else if ← eat .minus then return .unary .neg (← r.expr 9)
  else if ← eat .plus then r.expr 9
  else parseAtom r

/-- `[NOT] LIKE | ILIKE | BETWEEN | IN` behind its left operand. -/
def parsePredicate (lhs : Expr) : Parser Expr := do
  let negated ← eatKeyword "not"
  if ← eatKeyword "like" then return .like lhs (← r.expr 7) negated false
  else if ← eatKeyword "ilike" then return .like lhs (← r.expr 7) negated true
  else if ← eatKeyword "between" then
    let low ← r.expr 7
    expectKeyword "and"
    return .between lhs low (← r.expr 7) negated
  else if ← eatKeyword "in" then
    expect .lParen
    if ← peekIs (isKeyword "select") then return .inSubquery lhs (← parseSubquery r) negated
    else return .inList lhs (← parseExprListUntilRparen r) negated
  else throw (.found "expected a predicate after operand, found" (← get).head?)

/-- `IS [NOT] NULL` or `IS [NOT] DISTINCT FROM`, after `IS`. -/
def parseIs (lhs : Expr) : Parser Expr := do
  let negated ← eatKeyword "not"
  if ← eatKeyword "null" then return .isNull lhs negated
  else
    expectKeyword "distinct"
    expectKeyword "from"
    return .isDistinctFrom lhs (← r.expr 8) negated

/-- What is behind a binary operator: a quantifier with its list, or the right operand. -/
def parseRight (lhs : Expr) (op : BinaryOp) : Parser Expr := do
  match ← eatQuantifier with
  | some quantifier =>
    expect .lParen
    return .quantifiedCompare lhs op quantifier (← parseExprListUntilRparen r)
  | none => return .binary op lhs (← r.expr (bindingPower op).2)

/-- One turn of the loop of `parse_expr_bp`: the next infix or postfix operator, if it binds at least
as strongly as `min`. -/
def parseInfix (min : Nat) (lhs : Expr) : Parser (Option Expr) := do
  if ← peekIs (isKeyword "is") then
    if 7 < min then return none
    else
      expectKeyword "is"
      return some (← parseIs r lhs)
  else if ← peekPredicateKeyword then
    if 5 < min then return none else return some (← parsePredicate r lhs)
  else if ← peekIs (isKeyword "operator") then
    if 5 < min then return none
    else
      let op ← parseOperatorConstruct
      return some (.binary op lhs (← r.expr 6))
  else
    match ← peekBinaryOp with
    | none => return none
    | some op =>
      if (bindingPower op).1 < min then return none
      else
        let _ ← advance
        return some (← parseRight r lhs op)

/-- An expression with binding power at least `min`. -/
def parseExprBp (min : Nat) : Parser Expr := do
  extend (parseInfix r min) (← parsePrefix r)

end

/-! ## The knot -/

/-- The parsers for `depth` levels of nesting.  `query` is the body of `parse_select`. -/
def parsers (query : Parsers → Parser Select) : Nat → Parsers
  | 0 => ⟨fun _ => throw (.message "nested too deep"), throw (.message "nested too deep")⟩
  | depth + 1 => ⟨parseExprBp (parsers query depth), query (parsers query depth)⟩

/-- `parse_expr`.  Every level takes at least one token, so there are no more levels than tokens. -/
def parseExpr (query : Parsers → Parser Select) : Parser Expr := do
  (parsers query ((← get).length + 1)).expr 0

/-! ## Keywords -/

variable {op : BinaryOp} {kw : String}

/-- An infix operator is no keyword but `AND` or `OR`. -/
theorem isKeyword_of_binaryOp {t : Token} (h : binaryOp t = some op)
    (hand : Text.eqIgnoreAsciiCase "and" kw = false)
    (hor : Text.eqIgnoreAsciiCase "or" kw = false) : isKeyword kw t = false := by
  cases t with
  | word w =>
    rw [binaryOp] at h
    split at h
    · next hw => exact isKeyword_eq_false (show isKeyword "and" (.word w) = true from hw) hand
    · split at h
      · next hw => exact isKeyword_eq_false (show isKeyword "or" (.word w) = true from hw) hor
      · cases h
  | _ => rfl

/-! ## Atoms without a suffix -/

variable {r : Parsers} {s s' : List Token} {t : Token} {lhs e : Expr} {m : Nat}

theorem run_eat {hne : t ≠ .semicolon} :
    (liftM (eat t hne) : Parser Bool).run (t :: s) = .ok (true, s) :=
  if_pos (beq_self_eq_true t)

theorem run_eat_of_ne {u : Token} {hne : u ≠ .semicolon} (h : t ≠ u) :
    (liftM (eat u hne) : Parser Bool).run (t :: s) = .ok (false, t :: s) :=
  if_neg fun heq => h (beq_iff_eq.mp heq)

theorem run_expectKeyword_of (h : isKeyword kw t = true) :
    (liftM (expectKeyword kw) : Parser Unit).run (t :: s) = .ok ((), s) := by
  change (takeMap _ _ : Parser Unit).run (t :: s) = _
  rw [run_takeMap_cons, if_pos h]

theorem run_peekIs_of {f : Token → Bool} {b : Bool} (h : f t = b) :
    (peekIs f : Parser Bool).run (t :: s) = .ok (b, t :: s) := by
  rw [run_peekIs, List.head?_cons, Option.any_some, h]

/-- Nothing behind an atom that belongs to it. -/
def NoSuffix (rest : List Token) : Prop :=
  ∀ t ∈ rest.head?, t ≠ .doubleColon ∧ t ≠ .lBracket ∧ isKeyword "collate" t = false

theorem run_parseAtomSuffix_of_noSuffix (h : NoSuffix s) :
    (parseAtomSuffix r e).run s = .ok (none, s) := by
  cases s with
  | nil => rfl
  | cons t s =>
    obtain ⟨hcast, hsubscript, hcollate⟩ := h t rfl
    rw [parseAtomSuffix, run_bind_of_eq_ok (run_eat_of_ne hcast), if_neg Bool.false_ne_true,
      run_bind_of_eq_ok (run_eat_of_ne hsubscript), if_neg Bool.false_ne_true,
      run_bind_of_eq_ok (run_eatKeyword_of_not hcollate)]
    rfl

theorem run_parseAtom_of_noSuffix (h : (parseAtomInner r).run s = .ok (e, s')) (hs : NoSuffix s') :
    (parseAtom r).run s = .ok (e, s') := by
  rw [parseAtom, run_bind_of_eq_ok h]
  change (extendUpTo (parseAtomSuffix r) (s'.length + 1) e).run s' = _
  rw [extendUpTo, run_bind_of_eq_ok (run_parseAtomSuffix_of_noSuffix hs)]
  rfl

/-- The words that are never the name of a column. -/
def reserved : List String :=
  ["true", "false", "null", "extract", "exists", "case", "cast"] ++ niladic

/-- The tokens that make a call, a qualified name or a literal of the word before them. -/
def continuesWord (t : Token) : Bool := t == .lParen || t == .dot || t == .lBracket || isStringLit t

theorem keywordAtom_eq_none {lw : String} (hlw : lw ∉ reserved) {next : Option Token}
    (hnext : ∀ t ∈ next, continuesWord t = false) : keywordAtom r lw next = none := by
  have hparen : next ≠ some .lParen := by
    rintro rfl
    cases hnext _ rfl
  have hbracket : next ≠ some .lBracket := by
    rintro rfl
    cases hnext _ rfl
  have hstring : next.any isStringLit = false := by
    cases next with
    | none => rfl
    | some t =>
      have ht := hnext t rfl
      rw [continuesWord, Bool.or_eq_false_iff] at ht
      exact ht.2
  simp only [reserved, List.mem_append, List.mem_cons, not_or] at hlw
  simp [keywordAtom, hlw, hparen, hbracket, hstring]

/-- Any other word is a column. -/
theorem run_parseAtomInner_column {w : String} (hw : Text.toAsciiLowercase w ∉ reserved)
    (hs : ∀ t ∈ s.head?, continuesWord t = false) :
    (parseAtomInner r).run (.word w :: s) = .ok (.column w, s) := by
  change (match keywordAtom r (Text.toAsciiLowercase w) s.head? with
    | some p => p
    | none => parseNamed r w : Parser Expr).run s = _
  rw [keywordAtom_eq_none hw hs]
  cases s with
  | nil => rfl
  | cons t s =>
    have ht := hs t rfl
    simp only [continuesWord, Bool.or_eq_false_iff, beq_eq_false_iff_ne] at ht
    rw [parseNamed, run_bind_of_eq_ok (run_eat_of_ne ht.1.1.1), if_neg Bool.false_ne_true,
      run_bind_of_eq_ok (run_eat_of_ne ht.1.1.2)]
    rfl

/-! ## One turn of the loop -/

theorem run_parseInfix_is (h : isKeyword "is" t = true) (hm : m ≤ 7)
    (hrest : (parseIs r lhs).run s = .ok (e, s')) :
    (parseInfix r m lhs).run (t :: s) = .ok (some e, s') := by
  rw [parseInfix, run_bind_of_eq_ok (run_peekIs_of h), if_pos rfl, if_neg (Nat.not_lt.mpr hm),
    run_bind_of_eq_ok (run_expectKeyword_of h), run_bind_of_eq_ok hrest]
  rfl

theorem run_parseIs_null (h : isKeyword "null" t = true) :
    (parseIs r lhs).run (t :: s) = .ok (.isNull lhs false, s) := by
  rw [parseIs, run_bind_of_eq_ok (run_eatKeyword_of_not (isKeyword_eq_false h rfl)),
    run_bind_of_eq_ok (run_eatKeyword_of h)]
  rfl

theorem run_parseIs_not_null {u : Token} (hu : isKeyword "not" u = true)
    (h : isKeyword "null" t = true) :
    (parseIs r lhs).run (u :: t :: s) = .ok (.isNull lhs true, s) := by
  rw [parseIs, run_bind_of_eq_ok (run_eatKeyword_of hu), run_bind_of_eq_ok (run_eatKeyword_of h)]
  rfl

/-- An infix operator is not read as anything else. -/
theorem run_parseInfix_of_binaryOp (h : binaryOp t = some op) :
    (parseInfix r m lhs).run (t :: s) =
      if (bindingPower op).1 < m then .ok (none, t :: s)
      else (do return some (← parseRight r lhs op) : Parser (Option Expr)).run s := by
  have hnot (kw : String) (hand : Text.eqIgnoreAsciiCase "and" kw = false)
      (hor : Text.eqIgnoreAsciiCase "or" kw = false) := isKeyword_of_binaryOp h hand hor
  have hpredicate : peekPredicateKeyword.run (t :: s) = .ok (false, t :: s) := by
    simp only [peekPredicateKeyword, StateT.run, List.head?_cons, Option.any_some,
      hnot "not" rfl rfl, hnot "like" rfl rfl, hnot "ilike" rfl rfl,
      hnot "in" rfl rfl, hnot "between" rfl rfl, List.any_cons, List.any_nil,
      Bool.or_false, Bool.false_eq_true, if_false]
  have hop : peekBinaryOp.run (t :: s) = .ok (some op, t :: s) :=
    congrArg (fun o => Except.ok (o, t :: s)) h
  rw [parseInfix, run_bind_of_eq_ok (run_peekIs_of (hnot _ rfl rfl)), if_neg Bool.false_ne_true,
    run_bind_of_eq_ok hpredicate, if_neg Bool.false_ne_true,
    run_bind_of_eq_ok (run_peekIs_of (hnot _ rfl rfl)), if_neg Bool.false_ne_true,
    run_bind_of_eq_ok hop]
  change (if _ then _ else _ : Parser (Option Expr)).run (t :: s) = _
  split <;> rfl

/-- An infix operator with its right operand. -/
theorem run_parseInfix_of_le (h : binaryOp t = some op) (hm : m ≤ (bindingPower op).1)
    (hquantifier : ∀ u ∈ s.head?, ["any", "some", "all"].any (fun kw => isKeyword kw u) = false)
    (hrest : (r.expr (bindingPower op).2).run s = .ok (e, s')) :
    (parseInfix r m lhs).run (t :: s) = .ok (some (.binary op lhs e), s') := by
  have hnone : eatQuantifier.run s = .ok (none, s) := by
    cases s with
    | nil => rfl
    | cons u s =>
      have hu := hquantifier u rfl
      simp only [List.any_cons, List.any_nil, Bool.or_false, Bool.or_eq_false_iff] at hu
      rw [eatQuantifier, run_bind_of_eq_ok (run_eatKeyword_of_not hu.1), if_neg Bool.false_ne_true,
        run_bind_of_eq_ok (run_eatKeyword_of_not hu.2.1), if_neg Bool.false_ne_true,
        run_bind_of_eq_ok (run_eatKeyword_of_not hu.2.2)]
      rfl
  rw [run_parseInfix_of_binaryOp h, if_neg (Nat.not_lt.mpr hm), parseRight, bind_assoc,
    run_bind_of_eq_ok hnone, bind_assoc, run_bind_of_eq_ok hrest]
  rfl

end Parser
end PostgresRs
