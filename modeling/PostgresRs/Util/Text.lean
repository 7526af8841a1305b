import Mathlib.Algebra.Ring.Int.Defs
import Mathlib.Data.List.TakeWhile

/-!
# Functions on strings

The string functions of the Rust standard library that the sources use, on Lean's strings through
their lists of characters.
-/

namespace PostgresRs.Text

/-- `char::is_whitespace`: the Unicode `White_Space` characters. -/
def isWhitespace (c : Char) : Bool :=
  let n := c.toNat
  (9 ≤ n && n ≤ 13) || n == 32 || n == 0x85 || n == 0xA0 || n == 0x1680 ||
    (0x2000 ≤ n && n ≤ 0x200A) || n == 0x2028 || n == 0x2029 || n == 0x202F || n == 0x205F ||
    n == 0x3000

/-- `str::trim`, on the characters of the string. -/
def trimList (cs : List Char) : List Char :=
  ((cs.dropWhile isWhitespace).reverse.dropWhile isWhitespace).reverse

/-- Only white space is trimmed away. -/
theorem isWhitespace_of_trimList {cs : List Char} (h : trimList cs = []) :
    ∀ c ∈ cs, isWhitespace c = true := by
  rw [trimList, List.reverse_eq_nil_iff, List.dropWhile_eq_nil_iff] at h
  rw [← List.dropWhile_eq_nil_iff]
  by_contra hne
  -- What is left after the leading white space would start with something else.
  have hhead := h _ (List.mem_reverse.mpr (List.head_mem hne))
  rw [List.head_dropWhile_not isWhitespace hne] at hhead
  cases hhead

/-- `str::trim`. -/
def trim (s : String) : String :=
  String.ofList (trimList s.toList)

/-- `str::to_ascii_uppercase`. -/
def toAsciiUppercase (s : String) : String :=
  String.ofList (s.toList.map Char.toUpper)

/-- `str::to_ascii_lowercase`. -/
def toAsciiLowercase (s : String) : String :=
  String.ofList (s.toList.map Char.toLower)

/-- `str::eq_ignore_ascii_case`. -/
def eqIgnoreAsciiCase (s t : String) : Bool :=
  s.toList.map Char.toLower == t.toList.map Char.toLower

/-- `str::parse::<i64>`. -/
def parseI64 (cs : List Char) : Option Int :=
  let (neg, digits) :=
    match cs with
    | '-' :: cs => (true, cs)
    | '+' :: cs => (false, cs)
    | cs => (false, cs)
  if digits ≠ [] ∧ digits.all Char.isDigit then
    let n : Int := Nat.ofDigitChars 10 digits 0
    let i := if neg then -n else n
    if -2 ^ 63 ≤ i ∧ i < 2 ^ 63 then some i else none
  else none

end PostgresRs.Text
