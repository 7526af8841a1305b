import Mathlib.Algebra.Ring.Nat
import PostgresRs.Util.Reader
import PostgresRs.Util.Utf8

/-!
# The lexer

The hand-written tokenizer of `sql/src/lexer.rs`.  It works on the bytes of the text and looks ahead
by a byte or two.

* `skipTrivia` — white space and comments.  It also says where the input ended: between two tokens,
  or inside a comment.
* `readToken` — one token, from its first byte.
* `scan` — all tokens, with where the input ended; `tokenize` forgets the latter.

The result the log rests on is `scanAll_append`: a text that ends outside comments can be followed by
`;` and anything else, and its tokens stay what they are.
-/

namespace PostgresRs

inductive Token where
  | word (s : String)
  | quotedIdent (s : String)
  | stringLit (s : String)
  | number (s : String)
  | param (n : Nat)
  | comma | semicolon | lParen | rParen | lBracket | rBracket | star | plus | minus
  | arrow | arrowText | arrayContains | textSearchMatch | arrayContainedBy | arrayOverlap
  | networkContainedBy | networkContainedByEq | networkContains | networkContainsEq
  | slash | percent | eq | notEq | lt | ltEq | gt | gtEq | dot | concat | doubleColon
  | «match» | matchCi | notMatch | notMatchCi
deriving DecidableEq, Repr

namespace Lexer

/-! ## Bytes -/

/-- The byte of an ASCII character. -/
def byte (c : Char) : UInt8 := .ofNat c.toNat

variable (b : UInt8)

def isWhitespace : Bool :=
  b == byte ' ' || b == byte '\t' || b == byte '\n' || b == 0x0C || b == byte '\r'

def isDigit : Bool :=
  byte '0' ≤ b && b ≤ byte '9'

def isAlphabetic : Bool :=
  (byte 'a' ≤ b && b ≤ byte 'z') || (byte 'A' ≤ b && b ≤ byte 'Z')

def isAlphanumeric : Bool :=
  isAlphabetic b || isDigit b

/-- A string with one character for each byte. -/
def latin1 (bs : List UInt8) : String :=
  String.ofList (bs.map fun b => Char.ofNat b.toNat)

/-- Whether the next byte is that of `c`. -/
def nextIs (c : Char) (s : List UInt8) : Bool :=
  s.head? == some (byte c)

/-! ## White space and comments -/

/-- Where the scan for the next token stands. -/
inductive Trivia where
  | blank
  | line
  | block (depth : Nat)
deriving DecidableEq, Repr

/-- Skip white space, line comments and nested block comments. -/
def skipTrivia : Trivia → List UInt8 → Trivia × List UInt8
  | mode, [] => (mode, [])
  | .blank, c :: s =>
    if isWhitespace c then skipTrivia .blank s
    else
      match s with
      | [] => (.blank, [c])
      | d :: s =>
        if c = byte '-' ∧ d = byte '-' then skipTrivia .line s
        else if c = byte '/' ∧ d = byte '*' then skipTrivia (.block 1) s
        else (.blank, c :: d :: s)
  | .line, c :: s =>
    -- The line break itself is white space.
    if c = byte '\n' then skipTrivia .blank s else skipTrivia .line s
  | .block depth, c :: s =>
    match s with
    | [] => (.block depth, [])
    | d :: s =>
      if c = byte '/' ∧ d = byte '*' then skipTrivia (.block (depth + 1)) s
      else if c = byte '*' ∧ d = byte '/' then
        skipTrivia (if depth = 1 then .blank else .block (depth - 1)) s
      else skipTrivia (.block depth) (d :: s)

/-! ## Words, numbers and parameters -/

def isWordByte (b : UInt8) : Bool :=
  b == byte '_' || b == byte '$' || isAlphanumeric b

def readWord : Reader String UInt8 Token := do
  return .word (latin1 (← Reader.takeWhile isWordByte))

/-- The bytes of a number: digits with at most one dot and one exponent, the dot before it. -/
def numberBytes : Bool → Bool → List UInt8 → List UInt8 × List UInt8
  | _, _, [] => ([], [])
  | seenDot, seenExp, c :: s =>
    if isDigit c then
      let (n, r) := numberBytes seenDot seenExp s
      (c :: n, r)
    else if c = byte '.' ∧ !seenDot ∧ !seenExp then
      let (n, r) := numberBytes true seenExp s
      (c :: n, r)
    else if (c = byte 'e' ∨ c = byte 'E') ∧ !seenExp then
      match s with
      | [] => ([c], [])
      | d :: s =>
        if d = byte '+' ∨ d = byte '-' then
          let (n, r) := numberBytes seenDot true s
          (c :: d :: n, r)
        else
          let (n, r) := numberBytes seenDot true (d :: s)
          (c :: n, r)
    else ([], c :: s)

def readNumber : Reader String UInt8 Token := fun s =>
  let (n, r) := numberBytes false false s
  .ok (.number (latin1 n), r)

/-- The value of decimal digits. -/
def decimal (bs : List UInt8) : Nat :=
  bs.foldl (fun n b => n * 10 + (b.toNat - 48)) 0

/-- The number of a parameter `$N`, after the `$`; 0 if it is no `u32`. -/
def readParam : Reader String UInt8 Token := do
  let n := decimal (← Reader.takeWhile isDigit)
  return .param (if n < 2 ^ 32 then n else 0)

/-! ## Quoted tokens -/

/-- The characters up to the closing double quote, a doubled one standing for itself. -/
def quotedChars : Reader String UInt8 (List Char)
  | [] => .error "unterminated quoted identifier"
  | c :: s =>
    if c = byte '"' then
      match s with
      | [] => .ok ([], [])
      | d :: s =>
        if d = byte '"' then (quotedChars s).map fun (cs, r) => ('"' :: cs, r)
        else .ok ([], d :: s)
    else (quotedChars s).map fun (cs, r) => (Char.ofNat c.toNat :: cs, r)

/-- A quoted identifier, after the opening quote. -/
def readQuotedIdent : Reader String UInt8 Token := do
  return .quotedIdent (String.ofList (← quotedChars))

/-- The byte a backslash and `b` stand for. -/
def unescape (b : UInt8) : UInt8 :=
  if b = byte 'n' then byte '\n'
  else if b = byte 't' then byte '\t'
  else if b = byte 'r' then byte '\r'
  else if b = byte 'b' then 0x08
  else if b = byte 'f' then 0x0C
  else b

/-- The bytes up to the closing quote, a doubled one standing for itself; with `escapes` also
backslash escapes are resolved. -/
def stringBytes (escapes : Bool) : Reader String UInt8 (List UInt8)
  | [] => .error "unterminated string literal"
  | c :: s =>
    if c = byte '\'' then
      match s with
      | [] => .ok ([], [])
      | d :: s =>
        if d = byte '\'' then (stringBytes escapes s).map fun (bs, r) => (c :: bs, r)
        else .ok ([], d :: s)
    else if escapes && c == byte '\\' then
      match s with
      | [] => .error "unterminated string literal"
      | d :: s => (stringBytes escapes s).map fun (bs, r) => (unescape d :: bs, r)
    else (stringBytes escapes s).map fun (bs, r) => (c :: bs, r)

/-- The token of a string literal with the given bytes. -/
def stringToken (bs : List UInt8) (message : String) : Reader String UInt8 Token :=
  match Utf8.decode bs with
  | some cs => return .stringLit (String.ofList cs)
  | none => throw message

/-- A string literal, after the opening quote. -/
def readString (escapes : Bool) : Reader String UInt8 Token := do
  stringToken (← stringBytes escapes) "invalid UTF-8 in string literal"

/-- Whether a dollar quote starts here, after its first `$`. -/
def startsDollarQuote : Bool → List UInt8 → Bool
  | _, [] => false
  | first, c :: s =>
    if c = byte '$' then true
    else if c == byte '_' || (if first then isAlphabetic c else isAlphanumeric c) then
      startsDollarQuote false s
    else false

/-- The bytes up to a delimiter, and what follows it. -/
def splitAt (delimiter : List UInt8) : List UInt8 → Option (List UInt8 × List UInt8)
  | [] => if delimiter.isPrefixOf [] then some ([], []) else none
  | c :: s =>
    if delimiter.isPrefixOf (c :: s) then some ([], (c :: s).drop delimiter.length)
    else (splitAt delimiter s).map fun (bs, r) => (c :: bs, r)

/-- The bytes of a dollar-quoted string, after its first `$`. -/
def dollarBytes : Reader String UInt8 (List UInt8) := fun s =>
  let tag := s.takeWhile (· != byte '$')
  let delimiter := byte '$' :: tag ++ [byte '$']
  match splitAt delimiter (s.drop (tag.length + 1)) with
  | some found => .ok found
  | none => .error "unterminated dollar-quoted string literal"

/-- A dollar-quoted string, after its first `$`. -/
def readDollarString : Reader String UInt8 Token := do
  stringToken (← dollarBytes) "invalid UTF-8 in dollar-quoted string literal"

/-! ## Tokens -/

/-- Take the next byte if it is that of `c`. -/
def eat (c : Char) : Reader String UInt8 Bool :=
  Reader.eatIf (· == byte c)

def unexpected (c : Char) : String :=
  "unexpected character '" ++ String.singleton c ++ "'"

/-- Operators and punctuation, after the first byte. -/
def readOperator (c : Char) : Reader String UInt8 Token :=
  match c with
  | ',' => return .comma
  | ';' => return .semicolon
  | '(' => return .lParen
  | ')' => return .rParen
  | '[' => return .lBracket
  | ']' => return .rBracket
  | '*' => return .star
  | '+' => return .plus
  | '-' => do
    if ← eat '>' then
      if ← eat '>' then return .arrowText else return .arrow
    else return .minus
  | '/' => return .slash
  | '%' => return .percent
  | '.' => return .dot
  | ':' => do if ← eat ':' then return .doubleColon else throw (unexpected ':')
  | '=' => return .eq
  | '<' => do
    if ← eat '<' then
      if ← eat '=' then return .networkContainedByEq else return .networkContainedBy
    else if ← eat '>' then return .notEq
    else if ← eat '@' then return .arrayContainedBy
    else if ← eat '=' then return .ltEq
    else return .lt
  | '>' => do
    if ← eat '>' then
      if ← eat '=' then return .networkContainsEq else return .networkContains
    else if ← eat '=' then return .gtEq
    else return .gt
  | '!' => do
    if ← eat '=' then return .notEq
    else if ← eat '~' then
      if ← eat '*' then return .notMatchCi else return .notMatch
    else throw (unexpected '!')
  | '~' => do if ← eat '*' then return .matchCi else return .«match»
  | '@' => do
    if ← eat '@' then return .textSearchMatch
    else if ← eat '>' then return .arrayContains
    else throw (unexpected '@')
  | '&' => do if ← eat '&' then return .arrayOverlap else throw (unexpected '&')
  | '|' => do if ← eat '|' then return .concat else throw (unexpected '|')
  | other => throw (unexpected other)

/-- The token that starts with the byte `c`, the input going on with `s`. -/
def readToken (c : UInt8) (s : List UInt8) : Except String (Token × List UInt8) :=
  if (c = byte 'E' ∨ c = byte 'e') ∧ nextIs '\'' s then (readString true).run (s.drop 1)
  else if c = byte '_' ∨ isAlphabetic c then readWord.run (c :: s)
  else if isDigit c ∨ c = byte '.' ∧ s.head?.any isDigit then readNumber.run (c :: s)
  else if c = byte '"' then readQuotedIdent.run s
  else if c = byte '\'' then (readString false).run s
  else if c = byte '$' ∧ startsDollarQuote true s then readDollarString.run s
  else if c = byte '$' ∧ s.head?.any isDigit then readParam.run s
  else (readOperator (Char.ofNat c.toNat)).run s

/-- All tokens of the input, and where it ends. -/
def scan : Nat → List UInt8 → Except String (List Token × Trivia)
  | 0, _ => .ok ([], .blank)
  | fuel + 1, s =>
    match skipTrivia .blank s with
    | (mode, []) => .ok ([], mode)
    | (_, c :: s) => do
      let (t, r) ← readToken c s
      let (ts, mode) ← scan fuel r
      return (t :: ts, mode)

/-- `scan` with as much fuel as an input can need. -/
def scanAll (s : List UInt8) : Except String (List Token × Trivia) :=
  scan (s.length + 1) s

def tokenize (s : List UInt8) : Except String (List Token) :=
  (scanAll s).map Prod.fst

end Lexer
end PostgresRs
