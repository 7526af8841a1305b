import PostgresRs.Sql.Types
import PostgresRs.Util.Text

/-!
# Operations on decimals and values

The exact decimals of `types/src/numeric.rs`, as far as they are compared, written and read, and the
methods of `types/src/types.rs` on values.
-/

namespace PostgresRs

namespace BigDecimal

/-! ## Decimals -/

def zero : BigDecimal := ⟨false, [0], 0⟩

variable (d : BigDecimal)

def isZero : Bool := d.digits.all (· == 0)

/-- The decimal digits of a number. -/
def digitsOf (n : Nat) : List UInt8 := (Nat.toDigits 10 n).map fun c => .ofNat (c.toNat - 48)

/-- Without leading zeros in front of the last integral digit, and with a positive zero. -/
def normalize : BigDecimal :=
  let digits := if d.digits = [] then [0] else d.digits
  let intLen := digits.length - d.scale
  let lead := ((digits.take (intLen - 1)).takeWhile (· == 0)).length
  let digits := digits.drop lead
  { d with digits := digits, negative := d.negative && !digits.all (· == 0) }

def fromI64 (i : Int) : BigDecimal := normalize ⟨decide (i < 0), digitsOf i.natAbs, 0⟩

/-- The digits from the last one on, with zeros behind the point up to the scale `target`. -/
def alignedLsf (target : Nat) : List UInt8 :=
  List.replicate (target - d.scale) 0 ++ d.digits.reverse

/-- The first difference of two lists of equal length decides. -/
def digitsCmp : List UInt8 → List UInt8 → Ordering
  | a :: as, b :: bs => (compare a b).then (digitsCmp as bs)
  | _, _ => .eq

/-- Compare two magnitudes whose digits start with the last one. -/
def magCmp (a b : List UInt8) : Ordering :=
  let a := a.reverse.dropWhile (· == 0)
  let b := b.reverse.dropWhile (· == 0)
  (compare a.length b.length).then (digitsCmp a b)

def cmp (d e : BigDecimal) : Ordering :=
  if d.isZero && e.isZero then .eq
  else
    match d.negative, e.negative with
    | false, true => .gt
    | true, false => .lt
    | neg, _ =>
      let scale := max d.scale e.scale
      let ord := magCmp (d.alignedLsf scale) (e.alignedLsf scale)
      if neg then ord.swap else ord

def digitChar (d : UInt8) : Char := Char.ofNat (48 + d.toNat)

/-- The text of a decimal, with all digits of its scale. -/
def toCanonicalString : List Char :=
  let n := d.digits.length
  let intLen := n - d.scale
  (if d.negative && !d.isZero then ['-'] else []) ++
    (if intLen = 0 then ['0'] else (d.digits.take intLen).map digitChar) ++
    if 0 < d.scale then
      '.' :: (List.replicate (d.scale - n) '0' ++ (d.digits.drop intLen).map digitChar)
    else []

def toF64 : F64 := (F64.parse d.toCanonicalString).getD F64.nan

/-- The exponent behind an `e`, up to the end of the text. -/
def parseExponent (cs : List Char) : Option Int :=
  let (neg, cs) := F64.splitSign cs
  if cs ≠ [] ∧ cs.all Char.isDigit then
    let n : Int := Nat.ofDigitChars 10 cs 0
    let exp := if neg then -n else n
    if -2 ^ 63 ≤ exp ∧ exp < 2 ^ 63 then some exp else none
  else none

/-- The digits of a decimal text, the number of those behind the point, and the exponent. -/
def parseDigits : Bool → List Char → Option (List UInt8 × Nat × Int)
  | _, [] => some ([], 0, 0)
  | seenDot, c :: cs =>
    if c.isDigit then
      (parseDigits seenDot cs).map fun (digits, frac, exp) =>
        (.ofNat (c.toNat - 48) :: digits, frac + if seenDot then 1 else 0, exp)
    else if c = '.' then if seenDot then none else parseDigits true cs
    else if c = 'e' ∨ c = 'E' then (parseExponent cs).map fun exp => ([], 0, exp)
    else none

def parse (input : List Char) : Option BigDecimal := do
  let (neg, cs) := F64.splitSign (Text.trimList input)
  let (digits, frac, exp) ← parseDigits false cs
  if digits = [] then none
  else
    let scale : Int := frac - exp
    some (normalize ⟨neg, digits ++ List.replicate (-scale).toNat 0, scale.toNat⟩)

end BigDecimal

/-! ## Values -/

namespace Value

def isNull : Value → Bool
  | null => true
  | _ => false

/-- Whether a value counts as true in a condition. -/
def isTrue : Value → Bool
  | bool b => b
  | null => false
  | int i => i != 0
  | float f => f.magnitude != 0
  | numeric n => !n.isZero
  | text s => s != ""

def formatFloat (f : F64) : List Char :=
  if f.isNan then "NaN".toList
  else if f.isInfinite then (if f.negative then "-Infinity" else "Infinity").toList
  else f.display

def intText (i : Int) : List Char :=
  (if i < 0 then ['-'] else []) ++ Nat.toDigits 10 i.natAbs

/-- The text form of a value, nothing for `NULL`. -/
def toText : Value → Option (List Char)
  | null => none
  | int i => some (intText i)
  | float f => some (formatFloat f)
  | numeric n => some n.toCanonicalString
  | text s => some s.toList
  | bool b => some [if b then 't' else 'f']

def inferredType : Value → DataType
  | null => .text
  | int _ => .int8
  | float _ => .float8
  | numeric _ => .numeric
  | text _ => .text
  | bool _ => .bool

end Value

end PostgresRs
