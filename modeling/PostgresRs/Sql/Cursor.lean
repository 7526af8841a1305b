import PostgresRs.Sql.Lexer
import PostgresRs.Sql.Types
import PostgresRs.Util.Text

/-!
# The token cursor of the parser

The helpers of `sql/src/parser.rs` on which its clauses are built: keywords, names, type names and
the verbatim tail of a statement.  A parser here is a reader of the tokens that are left.

Nearly all of the parser stops at the `;` after a statement, and `Clause` is the monad of the parts
that do.  The parts that can run past it are plain readers.
-/

namespace PostgresRs

/-- What a parse reports.  `found` is a text followed by a token as the source prints it; the tokens
are kept as they are. -/
inductive SyntaxError where
  | lexical (text : String)
  | message (text : String)
  | found (text : String) (token : Option Token)
  | expected (token : Token) (found : Option Token)
deriving DecidableEq, Repr

abbrev Parser := Reader SyntaxError Token

/-- The parsers that stop at `;`. -/
abbrev Clause := Bounded SyntaxError Token.semicolon

instance : MonadLift Clause Parser where
  monadLift p := p.1

namespace Parser

open Bounded (eatIf peekIs takeMap takeWhile skipPast choose many fail)

/-! ## Keywords and tokens -/

def isKeyword (kw : String) : Token → Bool
  | .word w => Text.eqIgnoreAsciiCase w kw
  | _ => false

/-- The test for a keyword. -/
def keyword (kw : String) : Test Token.semicolon := ⟨isKeyword kw, rfl⟩

theorem ne_semicolon {t : Token} (h : (t == .semicolon) = false) : t ≠ .semicolon :=
  beq_eq_false_iff_ne.mp h

/-- The test for a token. -/
def token (t : Token) (h : t ≠ .semicolon := by exact ne_semicolon Bool.not_true) : Test Token.semicolon :=
  ⟨fun u => u == t, beq_eq_false_iff_ne.mpr h.symm⟩

def isWord : Test Token.semicolon :=
  ⟨fun | .word _ => true | _ => false, rfl⟩

/-- A bare or a quoted word. -/
def isName : Test Token.semicolon :=
  ⟨fun | .word _ | .quotedIdent _ => true | _ => false, rfl⟩

def notSemicolon : Test Token.semicolon :=
  ⟨fun t => t != .semicolon, rfl⟩

def eat (t : Token) (h : t ≠ .semicolon := by exact ne_semicolon Bool.not_true) : Clause Bool :=
  eatIf (token t h)

def eatKeyword (kw : String) : Clause Bool :=
  eatIf (keyword kw)

/-- An optional keyword that makes no difference. -/
def skipKeyword (kw : String) : Clause Unit := do
  let _ ← eatKeyword kw

def expect (t : Token) : Clause Unit :=
  takeMap (fun u => if u = t then some () else none) (.expected t)

def expectKeyword (kw : String) : Clause Unit :=
  takeMap (fun t => if isKeyword kw t then some () else none)
    (.found ("expected keyword `" ++ kw ++ "`, found"))

/-- One of several clauses, by the next keyword; `other` if there is none of them. -/
def onKeyword {α : Type} (arms : List (Test Token.semicolon × Clause α)) (other : Clause α) :
    Clause α := do
  match ← choose arms with
  | some x => return x
  | none => other

/-- A token is one keyword at most. -/
theorem isKeyword_eq_false {kw kw' : String} {t : Token} (h : isKeyword kw t = true)
    (hne : Text.eqIgnoreAsciiCase kw kw' = false) : isKeyword kw' t = false := by
  cases t with
  | word w =>
    rw [isKeyword, Text.eqIgnoreAsciiCase, beq_iff_eq] at h
    rw [isKeyword, Text.eqIgnoreAsciiCase, h]
    exact hne
  | _ => rfl

section EatKeyword

variable {kw : String} {t : Token} {s : List Token}

theorem run_eatKeyword :
    (liftM (eatKeyword kw) : Parser Bool).run (t :: s) =
      if isKeyword kw t then .ok (true, s) else .ok (false, t :: s) := rfl

theorem run_eatKeyword_of (h : isKeyword kw t = true) :
    (liftM (eatKeyword kw) : Parser Bool).run (t :: s) = .ok (true, s) := by
  rw [run_eatKeyword, if_pos h]

theorem run_eatKeyword_of_not (h : isKeyword kw t = false) :
    (liftM (eatKeyword kw) : Parser Bool).run (t :: s) = .ok (false, t :: s) := by
  rw [run_eatKeyword, if_neg (by rw [h]; exact Bool.false_ne_true)]

end EatKeyword

/-! ## Names -/

def ident : Token → Option String
  | .word w => some w
  | .quotedIdent w => some w
  | _ => none

def parseIdent : Clause String :=
  takeMap ident (.found "expected identifier, found")

def stringLit : Token → Option String
  | .stringLit s => some s
  | _ => none

def parseStringLiteral : Clause String :=
  takeMap stringLit (.found "expected string literal, found")

/-- One or more, separated by a token. -/
def separated {α : Type} (t : Test Token.semicolon) (p : Clause α) : Clause (List α) := do
  return (← p) :: (← many [(t, p)])

/-- A possibly qualified name, of which the last component is kept. -/
def parseObjectName : Clause String := do
  let first ← parseIdent
  return (← many [(token .dot, parseIdent)]).getLastD first

/-- A possibly qualified name, of which the last two components are kept. -/
def parseQualifiedName : Clause (Option String × String) := do
  let first ← parseIdent
  let rest ← many [(token .dot, parseIdent)]
  return ((first :: rest).dropLast.getLast?, rest.getLastD first)

/-- The name of a run-time parameter, with its dots. -/
def parseGucName : Clause String := do
  return String.intercalate "." (← separated (token .dot) parseIdent)

def parseIfExists : Clause Bool := do
  if ← eatKeyword "if" then
    skipKeyword "exists"
    return true
  else return false

/-- `CASCADE` and `RESTRICT`, accepted after most names and ignored. -/
def skipDropBehavior : Clause Unit := do
  skipKeyword "cascade"
  skipKeyword "restrict"

/-! ## Type names -/

/-- The words of a type name: `double precision`, `timestamp with time zone`. -/
def typeWords : Clause String := do
  let first := Text.toAsciiLowercase (← parseIdent)
  let name ← if ← eat .dot then (Text.toAsciiLowercase <$> parseIdent) else pure first
  if (name == "double" && (← peekIs (keyword "precision"))) ||
      (name == "character" && (← peekIs (keyword "varying"))) then
    return name ++ " " ++ Text.toAsciiLowercase (← parseIdent)
  else if (name == "timestamp" || name == "time") &&
      ((← peekIs (keyword "with")) || (← peekIs (keyword "without"))) then
    let zone := Text.toAsciiLowercase (← parseIdent)
    skipKeyword "time"
    skipKeyword "zone"
    return name ++ " " ++ zone ++ " time zone"
  else return name

/-- A type name: the built-in type, or text with the name as written if it is no built-in. -/
def parseDataTypeNamed : Clause (DataType × Option String) := do
  let name ← typeWords
  if ← eat .lParen then
    skipPast (fun t => t == .rParen) (.message "unterminated type modifier")
  let array ← eatKeyword "array"
  let dimensions ← many
    [(token .lBracket, skipPast (fun t => t == .rBracket) (.message "unterminated array dimension"))]
  if array || !dimensions.isEmpty then
    return (.text, some (((DataType.fromSqlName name).map (·.pgTypeName)).getD name ++ "[]"))
  match DataType.fromSqlName name with
  | some dt => return (dt, none)
  | none => return (.text, some name)

/-- The words before a parenthesis, in lower case. -/
def writtenName (taken : List Token) : String :=
  String.intercalate " " ((taken.takeWhile fun t => t != .lParen).filterMap fun
    | .word w => some (Text.toAsciiLowercase w)
    | _ => none)

/-- A type name with the name as written. -/
def parseTypeNameStr : Clause (DataType × String) := do
  let ((dt, raw), taken) ← Bounded.withTaken parseDataTypeNamed
  return (dt, raw.getD (writtenName taken))

/-! ## The rest of a statement -/

/-- A token as it stands in SQL, with a name unquoted. -/
def tokenText : Token → String
  | .word s | .quotedIdent s | .number s => s
  | .stringLit s =>
    "'" ++ String.ofList (s.toList.flatMap fun c => if c = '\'' then ['\'', '\''] else [c]) ++ "'"
  | .param n => "$" ++ toString n
  | .comma => ","
  | .dot => "."
  | .semicolon => ";"
  | .lParen => "("
  | .rParen => ")"
  | .lBracket => "["
  | .rBracket => "]"
  | .star => "*"
  | .plus => "+"
  | .minus => "-"
  | .slash => "/"
  | .percent => "%"
  | .eq => "="
  | .notEq => "<>"
  | .lt => "<"
  | .ltEq => "<="
  | .gt => ">"
  | .gtEq => ">="
  | .concat => "||"
  | .doubleColon => "::"
  | .arrow => "->"
  | .arrowText => "->>"
  | .arrayContains => "@>"
  | .textSearchMatch => "@@"
  | .arrayContainedBy => "<@"
  | .arrayOverlap => "&&"
  | .networkContainedBy => "<<"
  | .networkContainedByEq => "<<="
  | .networkContains => ">>"
  | .networkContainsEq => ">>="
  | .«match» => "~"
  | .matchCi => "~*"
  | .notMatch => "!~"
  | .notMatchCi => "!~*"

/-- Tokens as text, with a blank between two of them except after `(` and `.` and before `,`, `)` and
`.`; `afterOpen` says whether the last one was `(` or `.`. -/
def renderTail : String → Bool → List Token → String
  | out, _, [] => out
  | out, afterOpen, tok :: ts =>
    let glueLeft := tok == .comma || tok == .rParen || tok == .dot
    let out := if out != "" && !glueLeft && !afterOpen then out ++ " " else out
    renderTail (out ++ tokenText tok) (tok == .lParen || tok == .dot) ts

/-- The rest of a statement as text. -/
def collectStatementTail : Clause String := do
  return renderTail "" false (← takeWhile notSemicolon)

def discardStatementTail : Clause Unit := do
  let _ ← takeWhile notSemicolon

/-- A token in the value of a run-time parameter. -/
def settingPiece : Token → String
  | .stringLit s => s
  | .notEq => "!="
  | t => tokenText t

/-- Append a piece to the value of a run-time parameter. -/
def pushSetting (out : String) (tok : Token) : String :=
  let piece := settingPiece tok
  if piece = "," then out ++ ", "
  else if out != "" && !(out.toList.getLast?.any fun c => [' ', ',', '.', '(', ':'].contains c) then
    out ++ " " ++ piece
  else out ++ piece

def parseSettingValue : Clause String := do
  return Text.trim ((← takeWhile notSemicolon).foldl pushSetting "")

/-- The operator named in a statement, up to its `(`. -/
def parseOperatorSymbol : Clause String := do
  let name := String.join ((← takeWhile ⟨fun t => t != .lParen && t != .semicolon, rfl⟩).map tokenText)
  if name = "" then fail (.message "expected operator name") else return name

end Parser
end PostgresRs
