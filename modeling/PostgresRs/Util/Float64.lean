import Mathlib.Algebra.Ring.Int.Defs
import Mathlib.Algebra.Ring.Nat
import Mathlib.Data.Nat.Log

/-!
# IEEE doubles

Doubles by their 64 bits, with the operations of Rust's `f64` that the sources use.  Apart from the
sign, a double is a number below `2 ^ 63`, its magnitude: the exponent field and behind it the
fraction.  The order of the magnitudes is that of the numbers they stand for, up to the infinity and
the NaNs at the end.

* `partialCmp` — comparison; a NaN compares with nothing.
* `roundRatio` — the double nearest to a ratio of natural numbers, ties to even.  Conversion from
  integers (`ofInt`) and from decimal texts (`parse`) are instances of it.
* `toI64` and `hasFract` — the integral part and whether anything is left.
* `display` — the shortest decimal text that is read back as the same double.
-/

namespace PostgresRs

/-- An IEEE double, by its bits. -/
structure F64 where
  bits : UInt64
deriving DecidableEq, Repr

namespace F64

/-! ## Fields -/

variable (f : F64)

def negative : Bool := decide (2 ^ 63 ≤ f.bits.toNat)

/-- Everything but the sign. -/
def magnitude (f : F64) : Nat := f.bits.toNat % 2 ^ 63

/-- The magnitude of the infinities. -/
def infinite : Nat := 2047 * 2 ^ 52

/-- The double with a sign and a magnitude. -/
def ofParts (neg : Bool) (magnitude : Nat) : F64 :=
  ⟨.ofNat ((if neg then 2 ^ 63 else 0) + magnitude)⟩

def nan : F64 := ofParts false (infinite + 2 ^ 51)

def isNan : Bool := decide (infinite < f.magnitude)

def isInfinite : Bool := decide (f.magnitude = infinite)

/-! ## Order -/

/-- The place of a double among the others; the two zeros share one. -/
def rank : Int := if f.negative then -f.magnitude else f.magnitude

/-- `f64::partial_cmp`. -/
def partialCmp (f g : F64) : Option Ordering :=
  if f.isNan || g.isNan then none else some (compare f.rank g.rank)

/-! ## Rounding -/

/-- What a finite magnitude stands for, in units of `2 ^ (-1074)`. -/
def scaled (magnitude : Nat) : Nat :=
  let e := magnitude / 2 ^ 52
  let m := magnitude % 2 ^ 52
  if e = 0 then m else (2 ^ 52 + m) * 2 ^ (e - 1)

/-- The magnitude nearest to `num / den`, the even one of two; infinite if the ratio is too large. -/
def roundRatio (num den : Nat) : Nat :=
  let n := num * 2 ^ 1074
  let q := n / den
  -- All but the leading 53 bits of the quotient are rounded away.
  let k := Nat.log2 q + 1 - 53
  let m := q / 2 ^ k
  let low := q % 2 ^ k * den + n % den
  let up := 2 ^ k * den < 2 * low ∨ 2 ^ k * den = 2 * low ∧ m % 2 = 1
  min infinite (k * 2 ^ 52 + m + if up then 1 else 0)

/-- `i64 as f64`. -/
def ofInt (i : Int) : F64 := ofParts (decide (i < 0)) (roundRatio i.natAbs 1)

/-- `f64 as i64`: towards zero, and to the nearest `i64` from outside. -/
def toI64 : Int :=
  if f.isNan then 0
  else
    let n : Int := scaled f.magnitude / 2 ^ 1074
    if f.negative then max (-2 ^ 63) (-n) else min (2 ^ 63 - 1) n

/-- Whether `f64::fract` is different from zero; it is NaN for the infinities and the NaNs. -/
def hasFract : Bool :=
  decide (infinite ≤ f.magnitude) || scaled f.magnitude % 2 ^ 1074 != 0

/-! ## Texts -/

/-- The digits at the front of a text, and the rest. -/
def splitDigits (cs : List Char) : List Char × List Char := cs.span Char.isDigit

/-- `digits * 10 ^ exp`, rounded. -/
def ofDecimal (digits : Nat) (exp : Int) : Nat :=
  if 0 ≤ exp then roundRatio (digits * 10 ^ exp.toNat) 1 else roundRatio digits (10 ^ (-exp).toNat)

/-- A sign at the front of a text, and the rest. -/
def splitSign : List Char → Bool × List Char
  | '-' :: cs => (true, cs)
  | '+' :: cs => (false, cs)
  | cs => (false, cs)

/-- An exponent: `e`, a sign and digits, up to the end of the text. -/
def parseExponent : List Char → Option Int
  | [] => some 0
  | c :: cs =>
    if c = 'e' ∨ c = 'E' then
      let (neg, cs) := splitSign cs
      if cs ≠ [] ∧ cs.all Char.isDigit then
        let n : Int := Nat.ofDigitChars 10 cs 0
        some (if neg then -n else n)
      else none
    else none

/-- The magnitude of an unsigned number: digits with a dot before, behind or among them, and an
exponent. -/
def parseNumber (cs : List Char) : Option Nat := do
  let (whole, rest) := splitDigits cs
  let (fraction, rest) :=
    match rest with
    | '.' :: rest => splitDigits rest
    | rest => ([], rest)
  if whole = [] ∧ fraction = [] then none
  else
    let exp ← parseExponent rest
    some (ofDecimal (Nat.ofDigitChars 10 (whole ++ fraction) 0) (exp - fraction.length))

/-- `str::parse::<f64>`. -/
def parse (cs : List Char) : Option F64 :=
  let (neg, cs) := splitSign cs
  match String.ofList (cs.map Char.toLower) with
  | "inf" | "infinity" => some (ofParts neg infinite)
  | "nan" => some (ofParts neg (infinite + 2 ^ 51))
  | _ => (parseNumber cs).map (ofParts neg)

/-- The digits of the multiple of `10 ^ exp` next to a finite magnitude that is rounded to it: the one
below, the one above, or none. -/
def digitsAt (magnitude : Nat) (exp : Int) : Option Nat :=
  let v := scaled magnitude
  let (num, den) :=
    if 0 ≤ exp then (v, 2 ^ 1074 * 10 ^ exp.toNat) else (v * 10 ^ (-exp).toNat, 2 ^ 1074)
  let d := num / den
  let below := ofDecimal d exp = magnitude
  let above := ofDecimal (d + 1) exp = magnitude
  if below ∧ (¬ above ∨ 2 * (num % den) ≤ den) then some d
  else if above then some (d + 1)
  else none

/-- The shortest digits of a magnitude and their exponent, from the exponent `exp` downwards.  At the
exponent `-1074` every double is a multiple. -/
def shortest (magnitude : Nat) : Nat → Int → Nat × Int
  | 0, exp => (scaled magnitude * 5 ^ 1074, exp)
  | fuel + 1, exp =>
    match digitsAt magnitude exp with
    | some d => (d, exp)
    | none => shortest magnitude fuel (exp - 1)

/-- Digits with an exponent as a text without exponent. -/
def positional (digits : Nat) (exp : Int) : List Char :=
  let ds := Nat.toDigits 10 digits
  if 0 ≤ exp then ds ++ List.replicate exp.toNat '0'
  else
    let k := (-exp).toNat
    let ds := List.replicate (k + 1 - ds.length) '0' ++ ds
    ds.take (ds.length - k) ++ '.' :: ds.drop (ds.length - k)

/-- `format!("{f}")`. -/
def display (f : F64) : List Char :=
  if f.isNan then "NaN".toList
  else
    let sign := if f.negative then ['-'] else []
    if f.isInfinite then sign ++ "inf".toList
    else if f.magnitude = 0 then sign ++ ['0']
    else
      let (d, exp) := shortest f.magnitude 1382 308
      sign ++ positional d exp

end F64
end PostgresRs
