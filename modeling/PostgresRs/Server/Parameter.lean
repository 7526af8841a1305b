import PostgresRs.Exec.Coerce
import PostgresRs.Server.Bind
import PostgresRs.Util.Bytes
import PostgresRs.Util.Spelling
import PostgresRs.Util.Utf8

/-!
# The values of parameters

`decode_param` of `server/src/bind.rs` makes a value of the bytes of a parameter, and `handle_bind`
puts the values into the prepared statements.  A parameter of unspecified type is given one by its
spelling: what reads as an integer becomes an integer, what reads as a double becomes a double.  A
text column then stores the text of that number, which is the text that was sent only if the number
was spelled as the server would spell it (`storesText_iff`).
-/

namespace PostgresRs

open List

/-! ## Decoding -/

/-- `f32 as f64`, from the bits. -/
def F64.ofF32 (bits : Nat) : F64 :=
  let e := bits / 2 ^ 23 % 256
  let m := bits % 2 ^ 23
  let magnitude :=
    if e = 255 then infinite + m * 2 ^ 29
    else if e = 0 then roundRatio m (2 ^ 149)
    else roundRatio ((2 ^ 23 + m) * 2 ^ (e - 1)) (2 ^ 149)
  ofParts (decide (2 ^ 31 ≤ bits)) magnitude

/-- `iN::from_be_bytes`. -/
def signedOfBe (bytes : List UInt8) : Int :=
  let n := Bytes.ofLe bytes.reverse
  if 2 * n < 256 ^ bytes.length then n else (n : Int) - 256 ^ bytes.length

def decodeBinary (bytes : List UInt8) (oid : Int) : Except String Value :=
  let sized (size : Nat) (name : String) (v : Value) : Except String Value :=
    if bytes.length = size then .ok v else .error ("invalid binary length for " ++ name)
  match oid with
  | 16 => .ok (.bool (bytes.headD 0 != 0))
  | 21 => sized 2 "int2" (.int (signedOfBe bytes))
  | 23 => sized 4 "int4" (.int (signedOfBe bytes))
  | 20 => sized 8 "int8" (.int (signedOfBe bytes))
  | 700 => sized 4 "float4" (.float (.ofF32 (Bytes.ofLe bytes.reverse)))
  | 701 => sized 8 "float8" (.float ⟨.ofNat (Bytes.ofLe bytes.reverse)⟩)
  | _ => .ok (.text (String.ofList (Utf8.decodeLossy bytes)))

/-- The value of a parameter in text format. -/
def decodeText (s : List Char) (oid : Int) : Value :=
  let asText := Value.text (String.ofList s)
  match oid with
  | 16 => .bool (["t", "true", "1", "yes", "on"].contains (String.ofList s))
  | 20 | 21 | 23 => (Text.parseI64 s).elim asText .int
  | 700 | 701 => (F64.parse s).elim asText .float
  | 1700 => (BigDecimal.parse s).elim asText .numeric
  | 25 | 1042 | 1043 => asText
  -- Of unspecified type: by the spelling.
  | 0 =>
    match Text.parseI64 s with
    | some i => .int i
    | none => (F64.parse s).elim asText .float
  | _ => asText

/-- The value of a parameter: `format` is 1 for binary. -/
def decodeParam (raw : Option (List UInt8)) (format oid : Int) : Except String Value :=
  match raw with
  | none => .ok .null
  | some bytes =>
    if format = 1 then decodeBinary bytes oid else .ok (decodeText (Utf8.decodeLossy bytes) oid)

/-- The format of the `i`-th parameter. -/
def formatAt (formats : List Int) (i : Nat) : Int :=
  match formats with
  | [] => 0
  | [format] => format
  | formats => formats[i]?.getD 0

/-- A `Bind` message, with the types given for the parameters by `Parse`. -/
structure BindMessage where
  rawParams : List (Option (List UInt8))
  paramFormats : List Int
  paramOids : List Int

namespace BindMessage

variable (msg : BindMessage)

def format (i : Nat) : Int := formatAt msg.paramFormats i

def oid (i : Nat) : Int := msg.paramOids[i]?.getD 0

def values : Except String (List Value) :=
  msg.rawParams.zipIdx.mapM fun raw => decodeParam raw.1 (msg.format raw.2) (msg.oid raw.2)

/-- The statements of the portal that `handle_bind` makes. -/
def bindStatements (stmts : List Statement) : Except String (List Statement) := do
  let values ← msg.values
  stmts.mapM (bindStatement values)

/-- The `i`-th parameter is the text `s`, of unspecified type or of a text type. -/
structure IsText (i : Nat) (s : List Char) : Prop where
  raw : msg.rawParams[i]? = some (some (Utf8.utf8 s))
  format : msg.format i ≠ 1
  oid : msg.oid i ∈ ([0, 25, 1042, 1043] : List Int)

end BindMessage

/-! ## Texts that are stored as they are -/

/-- The text is not a number, or it is spelled as the server spells the number. -/
def serverSpelling (s : List Char) : Bool :=
  match Text.parseI64 s with
  | some _ => Text.plainInteger s
  | none =>
    match F64.parse s with
    | some f => Value.formatFloat f == s
    | none => true

theorem intText_natCast (n : Nat) : Value.intText n = Nat.toDigits 10 n := by
  rw [Value.intText, if_neg (Int.not_lt.mpr (Int.natCast_nonneg n)), Int.natAbs_natCast,
    nil_append]

/-- An integer read from a text has that text exactly if it was spelled plainly. -/
theorem intText_eq_iff {cs : List Char} {i : Int} (h : Text.parseI64 cs = some i) :
    Value.intText i = cs ↔ Text.plainInteger cs = true := by
  obtain ⟨ds, hne, hall, hcs⟩ := Text.parseI64_cases h
  have hplain := Text.toDigits_ofDigitChars_iff hall hne
  obtain ⟨d, hd⟩ : ∃ d, ds.head? = some d :=
    Option.ne_none_iff_exists'.mp (mt head?_eq_none_iff.mp hne)
  rcases hcs with ⟨rfl, rfl⟩ | ⟨rfl, rfl⟩ | ⟨rfl, rfl⟩
  · rw [Text.plainInteger, Bool.and_eq_true, ← hplain, bne_iff_ne]
    rcases Nat.eq_zero_or_pos (Nat.ofDigitChars 10 ds 0) with hzero | hpos
    · -- Zero is written without a sign.
      rw [hzero]
      refine iff_of_false (fun heq => ?_) fun ⟨heq, hds⟩ => hds heq.symm
      exact absurd (List.cons.inj heq).1 (by decide)
    · have hneg : -(Nat.ofDigitChars 10 ds 0 : Int) < 0 := by omega
      rw [Value.intText, if_pos hneg, Int.natAbs_neg, Int.natAbs_natCast, singleton_append,
        List.cons.injEq]
      refine ⟨fun heq => ⟨heq.2, ?_⟩, fun heq => ⟨rfl, heq.1⟩⟩
      rintro rfl
      exact absurd hpos (by decide)
  · rw [intText_natCast]
    refine iff_of_false (fun heq => ?_) Bool.false_ne_true
    have hdigit := Nat.isDigit_of_mem_toDigits (by decide) (by decide)
      (heq ▸ mem_cons_self : '+' ∈ Nat.toDigits 10 (Nat.ofDigitChars 10 ds 0))
    exact absurd hdigit (by decide)
  · rw [intText_natCast, hplain]
    have hdigit := hall d (mem_of_head? hd)
    rcases cs with _ | ⟨c, cs⟩
    · exact absurd rfl hne
    obtain rfl := Option.some.inj hd
    rw [Text.plainInteger.eq_def]
    split
    · next heq => exact absurd ((List.cons.inj heq).1 ▸ hdigit) (by decide)
    · next heq => exact absurd ((List.cons.inj heq).1 ▸ hdigit) (by decide)
    · rfl

variable {s : List Char} {oid : Int}

/-- The text of a decoded parameter is the text that was sent. -/
theorem toText_decodeText_iff (hoid : oid ∈ ([0, 25, 1042, 1043] : List Int)) :
    (decodeText s oid).toText = some s ↔ (oid = 0 → serverSpelling s = true) := by
  have hsame : (Value.text (String.ofList s)).toText = some s := by
    rw [Value.toText, String.toList_ofList]
  simp only [mem_cons, not_mem_nil, or_false] at hoid
  rcases hoid with rfl | rfl | rfl | rfl
  · rw [serverSpelling, imp_iff_right rfl]
    show (match Text.parseI64 s with
      | some i => Value.int i
      | none => (F64.parse s).elim (.text (String.ofList s)) .float).toText = _ ↔ _
    rcases hint : Text.parseI64 s with _ | i
    · rcases F64.parse s with _ | f
      · exact iff_of_true hsame rfl
      · exact Option.some_inj.trans beq_iff_eq.symm
    · exact Option.some_inj.trans (intText_eq_iff hint)
  all_goals exact iff_of_true hsame fun h => absurd h (by decide)

/-! ## From the message to the column -/

theorem bindAll_eq_mapM (values : List Value) (es : List Expr) :
    bindAll values es = es.mapM (bindExpr values) := by
  induction es with
  | nil => rfl
  | cons e es ih => rw [bindAll, ih, mapM_cons]

/-- The expression in one place of the rows of an `INSERT`. -/
def Insert.cell (ins : Insert) (row col : Nat) : Option Expr :=
  ins.rows[row]?.bind fun exprs => exprs[col]?

variable {values : List Value}

/-- The rows of a bound `INSERT` are bound cell by cell. -/
theorem cell_of_bindStatement {ins : Insert} {stmt : Statement}
    (h : bindStatement values (.insert ins) = .ok stmt) {row col : Nat} {e : Expr}
    (hcell : ins.cell row col = some e) :
    ∃ ins' e', stmt = .insert ins' ∧ ins'.cell row col = some e' ∧ bindExpr values e = .ok e' := by
  obtain ⟨ins', hins, hstmt⟩ := of_bind_eq_ok h
  obtain ⟨rows, hrows, h⟩ := of_bind_eq_ok hins
  obtain ⟨select, -, h⟩ := of_bind_eq_ok h
  obtain ⟨exprs, hexprs, he⟩ := Option.bind_eq_some_iff.mp hcell
  obtain ⟨exprs', hexprs', hall⟩ := getElem?_of_mapM_eq_ok hrows hexprs
  rw [bindAll_eq_mapM] at hall
  obtain ⟨e', he', hbind⟩ := getElem?_of_mapM_eq_ok hall he
  obtain rfl := Except.ok.inj h
  refine ⟨_, e', (Except.ok.inj hstmt).symm, ?_, hbind⟩
  exact Option.bind_eq_some_iff.mpr ⟨exprs', hexprs', he'⟩

/-- The value of a text parameter. -/
theorem BindMessage.IsText.getElem?_values {msg : BindMessage} {i : Nat} (h : msg.IsText i s)
    (hvalues : msg.values = .ok values) : values[i]? = some (decodeText s (msg.oid i)) := by
  have hraw : msg.rawParams.zipIdx[i]? = some (some (Utf8.utf8 s), i) := by
    rw [getElem?_zipIdx, h.raw, Nat.zero_add]
    rfl
  obtain ⟨v, hv, hdecode⟩ := getElem?_of_mapM_eq_ok hvalues hraw
  rw [hv]
  dsimp only [decodeParam] at hdecode
  rw [if_neg h.format, Utf8.decodeLossy_utf8_self] at hdecode
  exact congrArg some (Except.ok.inj hdecode).symm

open Exec

/-- The literal of a decoded text is evaluated to it again. -/
theorem evalExpr_valueToExpr_decodeText (ext : Externals)
    (hoid : oid ∈ ([0, 25, 1042, 1043] : List Int)) :
    (∃ cs, (decodeText s oid).toText = some cs) ∧
      evalExpr ext [] [] (valueToExpr (decodeText s oid)) = .ok (decodeText s oid) := by
  have hkind : ∀ v : Value, (∃ i, v = .int i) ∨ (∃ f, v = .float f) ∨ (∃ t, v = .text t) →
      (∃ cs, v.toText = some cs) ∧ evalExpr ext [] [] (valueToExpr v) = .ok v := by
    rintro v (⟨i, rfl⟩ | ⟨f, rfl⟩ | ⟨t, rfl⟩)
    all_goals exact ⟨⟨_, rfl⟩, by rw [valueToExpr, evalExpr]⟩
  apply hkind
  simp only [mem_cons, not_mem_nil, or_false] at hoid
  rcases hoid with rfl | rfl | rfl | rfl
  · rw [decodeText]
    rcases Text.parseI64 s with _ | i
    · rcases F64.parse s with _ | f
      · exact .inr (.inr ⟨_, rfl⟩)
      · exact .inr (.inl ⟨f, rfl⟩)
    · exact .inl ⟨i, rfl⟩
  all_goals exact .inr (.inr ⟨_, rfl⟩)

/-- In the statement `stmt`, the `INSERT` cell that was `$(i + 1)` makes a text column store `s`. -/
def StoresText (ext : Externals) (norm : Normalizers) (stmt : Statement) (row col : Nat)
    (s : List Char) : Prop :=
  ∃ ins e, stmt = .insert ins ∧ ins.cell row col = some e ∧
    insertValue ext norm e .text = .ok (.text (String.ofList s))

/-- **A text parameter is stored as it was sent** exactly if it has a text type, or is not spelled
as a number, or is spelled as the server spells that number. -/
theorem storesText_iff (ext : Externals) (norm : Normalizers) {msg : BindMessage} {i : Nat}
    {s : List Char} (htext : msg.IsText i s) {ins : Insert} {row col : Nat}
    (hcell : ins.cell row col = some (.param (i + 1))) {stmt : Statement}
    (hbind : msg.bindStatements [.insert ins] = .ok [stmt]) :
    StoresText ext norm stmt row col s ↔ (msg.oid i = 0 → serverSpelling s = true) := by
  obtain ⟨values, hvalues, hbind⟩ := of_bind_eq_ok hbind
  obtain ⟨stmt', hstmt, hins⟩ := getElem?_of_mapM_eq_ok (i := 0) hbind rfl
  obtain rfl := Option.some.inj hstmt
  obtain ⟨ins', e, rfl, he, hparam⟩ := cell_of_bindStatement hins hcell
  -- The cell holds the literal of the decoded parameter.
  rw [bindExpr, bindParam, htext.getElem?_values hvalues] at hparam
  obtain rfl := Except.ok.inj hparam
  obtain ⟨⟨cs, hcs⟩, heval⟩ := evalExpr_valueToExpr_decodeText ext (s := s) htext.oid
  have hvalue : insertValue ext norm (valueToExpr (decodeText s (msg.oid i))) .text =
      .ok (.text (String.ofList cs)) := by
    rw [insertValue, heval]
    exact coerce_text norm hcs
  rw [← toText_decodeText_iff htext.oid, hcs, Option.some_inj]
  constructor
  · rintro ⟨ins₁, e₁, heq, he₁, hstored⟩
    obtain rfl := Statement.insert.inj heq
    obtain rfl := Option.some.inj (he.symm.trans he₁)
    have heq := hvalue.symm.trans hstored
    exact String.ofList_injective (Value.text.inj (Except.ok.inj heq))
  · rintro rfl
    exact ⟨ins', _, rfl, he, hvalue⟩

/-- `INSERT INTO t VALUES ($1)`. -/
def insertParam : Insert := ⟨"t", none, false, false, [[.param 1]], none, none, []⟩

/-- One parameter of unspecified type, in text format. -/
def oneParam (s : String) : BindMessage := ⟨[some (Utf8.utf8 s.toList)], [], []⟩

/-- The text `x` of unspecified type is stored as it is. -/
theorem storesText_letter :
    StoresText bareExternals rawNormalizers
      (.insert { insertParam with rows := [[.str "x"]] }) 0 0 "x".toList :=
  (@storesText_iff bareExternals rawNormalizers (oneParam "x") 0 "x".toList
    ⟨rfl, by decide, by decide⟩ insertParam 0 0 rfl _ rfl).mpr fun _ => by decide +kernel

/-- The text `007` of unspecified type is stored as `7`. -/
theorem not_storesText_zeros :
    (oneParam "007").bindStatements [.insert insertParam] =
        .ok [.insert { insertParam with rows := [[.int 7]] }] ∧
      ¬ StoresText bareExternals rawNormalizers
        (.insert { insertParam with rows := [[.int 7]] }) 0 0 "007".toList := by
  refine ⟨rfl, ?_⟩
  rintro ⟨ins, e, heq, he, hstored⟩
  obtain rfl := Statement.insert.inj heq
  obtain rfl := Option.some.inj he
  have hseven : insertValue bareExternals rawNormalizers (.int 7) .text = .ok (.text "7") := rfl
  have heq := Value.text.inj (Except.ok.inj (hseven.symm.trans hstored))
  exact absurd heq (by decide)

end PostgresRs
