import PostgresRs.Server.Parameter

/-!
# The binary format of values

`encode_value` of `server/src/server.rs` writes a value for a column of a declared type, in a result
or in a binary `COPY`, and `decode_binary_value` reads it.  An integer is cut down to the width of
the type.  So it is read back if and only if it is in the range of the type
(`decodeBinaryValue_encodeValue_iff`).
-/

namespace PostgresRs

/-! ## Fixed widths -/

/-- `f64 as f32`, as bits: to the nearest, the even one of two. -/
def F64.toF32 (f : F64) : Nat :=
  let sign := if f.negative then 2 ^ 31 else 0
  if f.isNan then sign + (255 * 2 ^ 23 + (f.magnitude % 2 ^ 52 / 2 ^ 29 ||| 2 ^ 22))
  else
    let n := scaled f.magnitude
    let unit := 2 ^ 925
    let q := n / unit
    -- All but the leading 24 bits are rounded away.
    let k := Nat.log2 q + 1 - 24
    let m := q / 2 ^ k
    let low := q % 2 ^ k * unit + n % unit
    let up := 2 ^ k * unit < 2 * low ∨ 2 ^ k * unit = 2 * low ∧ m % 2 = 1
    sign + min (255 * 2 ^ 23) (k * 2 ^ 23 + m + if up then 1 else 0)

/-- The number in `w` bytes, the highest first. -/
def unsignedBe (w n : Nat) : List UInt8 := (Bytes.le w n).reverse

/-- `as iN` and `to_be_bytes`, for a width of `w` bytes. -/
def signedBe (w : Nat) (i : Int) : List UInt8 := unsignedBe w (i % 256 ^ w).toNat

@[simp] theorem length_signedBe (w : Nat) (i : Int) : (signedBe w i).length = w := by
  rw [signedBe, unsignedBe, List.length_reverse, Bytes.length_le]

/-- What is read back is the balanced remainder. -/
theorem signedOfBe_signedBe (w : Nat) (i : Int) :
    signedOfBe (signedBe w i) = i.bmod (256 ^ w) := by
  have hpow : (256 : Int) ^ w = (256 ^ w : Nat) := by norm_cast
  have hpos : (0 : Int) < (256 ^ w : Nat) := by positivity
  have hnat : ((i % (256 ^ w : Nat)).toNat : Int) = i % (256 ^ w : Nat) :=
    Int.toNat_of_nonneg (Int.emod_nonneg i hpos.ne')
  have hlt : (i % (256 ^ w : Nat)).toNat < 256 ^ w :=
    Int.ofNat_lt.mp (hnat ▸ Int.emod_lt_of_pos i hpos)
  have hread : Bytes.ofLe (signedBe w i).reverse = (i % (256 ^ w : Nat)).toNat := by
    rw [signedBe, unsignedBe, List.reverse_reverse, hpow, Bytes.ofLe_le hlt]
  rw [signedOfBe, length_signedBe, Int.bmod_def]
  split <;> split <;> omega

/-- The integers that `w` bytes hold are read back, and no others. -/
theorem signedOfBe_signedBe_iff {w : Nat} {i : Int} :
    signedOfBe (signedBe w i) = i ↔ -256 ^ w ≤ 2 * i ∧ 2 * i < 256 ^ w := by
  have hpos : 0 < 256 ^ w := by positivity
  rw [signedOfBe_signedBe, Int.bmod_eq_iff hpos]
  push_cast
  simp only [Int.sub_self, Int.dvd_zero, and_true]
  omega

/-! ## Values -/

namespace Value

def asI64 : Value → Int
  | int i => i
  | float f => f.toI64
  | numeric n => n.toF64.toI64
  | bool b => if b then 1 else 0
  | text s => (Text.parseI64 s.toList).getD 0
  | null => 0

def asF64 : Value → F64
  | int i => .ofInt i
  | float f => f
  | numeric n => n.toF64
  | bool b => .ofInt (if b then 1 else 0)
  | text s => (F64.parse s.toList).getD ⟨0⟩
  | null => ⟨0⟩

end Value

/-- A value for a column of type `dt`; there are no bytes for `NULL`, and `format` is 0 for text. -/
def encodeValue (v : Value) (dt : DataType) (format : Int) : Option (List UInt8) :=
  if v.isNull then none
  else if format = 0 then v.toText.map Utf8.utf8
  else
    some (match dt with
      | .bool => [if v.isTrue then 1 else 0]
      | .int2 => signedBe 2 v.asI64
      | .int4 => signedBe 4 v.asI64
      | .int8 => signedBe 8 v.asI64
      | .float4 => unsignedBe 4 v.asF64.toF32
      | .float8 => unsignedBe 8 v.asF64.bits.toNat
      | _ => Utf8.utf8 (v.toText.getD []))

/-- A field of a binary `COPY`, for a column of type `dt`. -/
def decodeBinaryValue (bytes : List UInt8) (dt : DataType) : Except String Value :=
  let sized (size : Nat) (name : String) (v : Value) : Except String Value :=
    if bytes.length = size then .ok v else .error ("invalid binary length for " ++ name)
  match dt with
  | .bool => .ok (.bool (bytes.headD 0 != 0))
  | .int2 => sized 2 "int2" (.int (signedOfBe bytes))
  | .int4 => sized 4 "int4" (.int (signedOfBe bytes))
  | .int8 => sized 8 "int8" (.int (signedOfBe bytes))
  | .float4 => sized 4 "float4" (.float (.ofF32 (Bytes.ofLe bytes.reverse)))
  | .float8 => sized 8 "float8" (.float ⟨.ofNat (Bytes.ofLe bytes.reverse)⟩)
  | _ => .ok (.text (String.ofList (Utf8.decodeLossy bytes)))

/-- An integer in a column of type `dt` is in the range of the type. -/
def inRange (dt : DataType) : Value → Bool
  | .int n =>
    match dt with
    | .int2 => decide (-32768 ≤ n ∧ n ≤ 32767)
    | .int4 => decide (-2147483648 ≤ n ∧ n ≤ 2147483647)
    | _ => true
  | _ => true

/-- **An integer is read back** from the binary format if and only if it is in the range. -/
theorem decodeBinaryValue_encodeValue_iff {dt : DataType} (hdt : dt = .int2 ∨ dt = .int4) {n : Int}
    {format : Int} (hformat : format ≠ 0) :
    (encodeValue (.int n) dt format).map (decodeBinaryValue · dt) = some (.ok (.int n)) ↔
      inRange dt (.int n) = true := by
  have hsome : encodeValue (.int n) dt format =
      some (signedBe (if dt = .int2 then 2 else 4) n) := by
    rcases hdt with rfl | rfl <;> simp [encodeValue, Value.isNull, hformat, Value.asI64]
  have hread : ∀ w, signedOfBe (signedBe w n) = n ↔ _ := fun w => signedOfBe_signedBe_iff
  rw [hsome]
  rcases hdt with rfl | rfl
  · simp only [Option.map_some, decodeBinaryValue, length_signedBe, if_true, Option.some.injEq,
      Except.ok.injEq, Value.int.injEq, inRange, decide_eq_true_eq, hread]
    omega
  · simp only [Option.map_some, decodeBinaryValue, length_signedBe, if_true, Option.some.injEq,
      Except.ok.injEq, Value.int.injEq, inRange, decide_eq_true_eq, reduceCtorEq, if_false, hread]
    omega

end PostgresRs
