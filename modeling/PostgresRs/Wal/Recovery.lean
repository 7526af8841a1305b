import PostgresRs.Wal.Log

/-!
# Recovery from a file that breaks off

A crash can leave any prefix of the log's bytes.  `Wal::open` says of it that the lossy decoding
preserves the well-formed prefix, so that replay recovers the committed statements and drops only the
torn fragment.

It recovers them, and it drops the fragment when that does not parse.  A fragment that does parse is
executed: the beginning of a statement can be a statement, and a text without its terminator is one.
For self-contained records this is all that can go wrong, as long as the fragment parses or neither
it nor a record contains a terminator (`torn_file_recovery`): the records are split at every `;` with
a line break behind it, inside literals too, but only when the file as a whole does not parse.
-/

namespace PostgresRs.Wal

open PostgresRs.Parser Lexer Utf8 List

variable {arms : Arms} {sql cs : List Char}

/-! ## Where the file breaks off -/

variable (texts : List (List Char))

/-- The file that `Wal::append` writes for the texts, one after the other. -/
def file : List UInt8 :=
  texts.foldl append []

theorem file_eq : file texts = utf8 (script texts) := by
  have h : ∀ bytes, texts.foldl append bytes = bytes ++ utf8 (script texts) := by
    induction texts with
    | nil => intro bytes; exact (append_nil bytes).symm
    | cons sql texts ih =>
      intro bytes
      rw [foldl_cons, ih, append, append_assoc, ← utf8_append]
      rfl
  exact h []

/-- The number of records that lie wholly inside the first `n` bytes of the file. -/
def wholeRecords : List (List Char) → Nat → Nat
  | [], _ => 0
  | sql :: texts, n =>
    let size := (utf8 (entry sql)).length
    if size ≤ n then wholeRecords texts (n - size) + 1 else 0

/-- What the first `n` bytes of the file have behind the whole records. -/
def fragment (n : Nat) : List UInt8 :=
  ((file texts).take n).drop (file (texts.take (wholeRecords texts n))).length

/-- The first bytes of the file begin with the whole records. -/
theorem take_script (n : Nat) : ∃ torn, (utf8 (script texts)).take n =
    utf8 (script (texts.take (wholeRecords texts n))) ++ torn := by
  induction texts generalizing n with
  | nil => exact ⟨[], by simp [script]⟩
  | cons sql texts ih =>
    have hscript : utf8 (script (sql :: texts)) = utf8 (entry sql) ++ utf8 (script texts) :=
      utf8_append _ _
    rw [hscript, wholeRecords]
    split
    · next hsize =>
      obtain ⟨torn, htake⟩ := ih (n - (utf8 (entry sql)).length)
      refine ⟨torn, ?_⟩
      rw [take_append, take_of_length_le hsize, htake, ← append_assoc, ← utf8_append]
      rfl
    · refine ⟨(utf8 (entry sql)).take n, ?_⟩
      rw [take_append_of_le_length (by omega)]
      rfl

/-! ## The fragment -/

theorem fragment_eq {texts : List (List Char)} {n : Nat} {torn : List UInt8}
    (h : (utf8 (script texts)).take n =
      utf8 (script (texts.take (wholeRecords texts n))) ++ torn) : fragment texts n = torn := by
  rw [fragment, file_eq, file_eq, h, drop_left]

/-- What is executed of contents that parse or have no record. -/
theorem executed_eq_nil_iff (h : (∃ stmts, parseSql arms cs = .ok stmts) ∨ ¬ terminator <:+: cs) :
    executed (parseWalStatements arms cs) = [] ↔
      ∀ stmts, parseSql arms cs = .ok stmts → executed stmts = [] := by
  rw [parseWalStatements]
  rcases hp : parseSql arms cs with e | stmts
  · rw [walRecords_eq_nil (h.resolve_left (by simp [hp]))]
    exact iff_of_true rfl (by simp)
  · simp

theorem flatMap_statementsOf {texts : List (List Char × Statement)}
    (hparse : ∀ t ∈ texts, parseSql arms t.1 = .ok [t.2]) :
    (texts.map Prod.fst).flatMap (statementsOf arms) = executed (texts.map Prod.snd) := by
  induction texts with
  | nil => rfl
  | cons t texts ih =>
    rw [map_cons, flatMap_cons, ih fun u hu => hparse u (mem_cons_of_mem _ hu),
      statementsOf, hparse t mem_cons_self, ← executed_append]
    rfl

/-- **Recovery from a torn file.**  Let texts be written to the log, and let the file break off after
any number of bytes.  Suppose that the texts of the whole records parse as one statement each and are
self-contained, and that neither they nor the fragment behind them contain a terminator unless the
fragment parses.  Then what is executed are exactly the statements of the whole records if and only
if the fragment does not parse as a statement itself. -/
theorem torn_file_recovery (arms : Arms) (texts : List (List Char × Statement)) (n : Nat)
    (hparse : ∀ t ∈ texts.take (wholeRecords (texts.map Prod.fst) n), parseSql arms t.1 = .ok [t.2])
    (hself : ∀ t ∈ texts.take (wholeRecords (texts.map Prod.fst) n), SelfContained arms t.1)
    (hbreak : (∃ stmts, parseSql arms (contents (fragment (texts.map Prod.fst) n)) = .ok stmts) ∨
      (∀ t ∈ texts.take (wholeRecords (texts.map Prod.fst) n), ¬ terminator <:+: t.1) ∧
        ¬ terminator <:+: contents (fragment (texts.map Prod.fst) n)) :
    let sqls := texts.map Prod.fst
    let torn := contents ((file sqls).take n)
    (executed (parseWalStatements arms torn) =
        executed ((texts.take (wholeRecords sqls n)).map Prod.snd) ↔
      ∀ stmts, parseSql arms (contents (fragment sqls n)) = .ok stmts → executed stmts = []) ∧
    replay arms torn = executed (parseWalStatements arms torn) := by
  intro sqls torn
  refine ⟨?_, replay_eq arms torn⟩
  obtain ⟨bytes, htake⟩ := take_script sqls n
  have htorn : torn = script (sqls.take (wholeRecords sqls n)) ++ contents (fragment sqls n) := by
    rw [fragment_eq htake]
    change decodeLossy ((file sqls).take n) = _
    rw [file_eq, htake, decodeLossy_utf8]
    rfl
  have hwhole : sqls.take (wholeRecords sqls n) =
      (texts.take (wholeRecords sqls n)).map Prod.fst := map_take.symm
  rw [htorn, hwhole, executed_script_append (forall_mem_map.mpr hself), flatMap_statementsOf hparse,
    append_right_eq_self, executed_eq_nil_iff (hbreak.imp_right And.right)]
  exact hbreak.imp (fun ⟨_, h⟩ => (of_map_eq_ok h).imp fun _ => And.left) fun h =>
    forall_mem_map.mpr h.1

/-! ## A fragment that parses -/

/-- Arms that refuse every statement with expressions or queries. -/
def refusing : Arms where
  parse kw := throw (.message ("unsupported statement: `" ++ kw ++ "`"))
  consumes h := by cases h

/-- Whether a text is a `DROP TABLE name`, read to its end. -/
def isDropTable (arms : Arms) (name : String) (sql : List Char) : Bool :=
  match scanAll (utf8 sql) with
  | .ok (ts, .blank) =>
    match parseStatement arms ts with
    | .ok (.dropTable d, []) => d.name == name && !d.ifExists && leadingKeyword ts == some "drop"
    | _ => false
  | _ => false

variable {name : String}

theorem of_isDropTable (h : isDropTable arms name sql = true) :
    parseSql arms sql = .ok [.dropTable ⟨name, false⟩] ∧ SelfContained arms sql := by
  rw [isDropTable] at h
  split at h
  · next ts hscan =>
    split at h
    · next d hstmt =>
      obtain ⟨dname, ifExists⟩ := d
      simp only [Bool.and_eq_true, beq_iff_eq, Bool.not_eq_true'] at h
      obtain ⟨⟨rfl, rfl⟩, hkw⟩ := h
      refine ⟨?_, ts, _, hscan, parseAll_of_last hstmt, apart_of_clause hkw (by decide) hstmt⟩
      rw [parseSql, parseScript, tokenize, hscan]
      change (parseAll arms ts).map _ = _
      rw [parseAll_of_last hstmt]
      rfl
    · cases h
  · cases h

theorem statementsOf_of_isDropTable (h : isDropTable arms name sql = true) :
    statementsOf arms sql = [.dropTable ⟨name, false⟩] := by
  rw [statementsOf, (of_isDropTable h).1]
  rfl

def dropOrders : List Char := "DROP TABLE orders".toList

def dropOrdersOld : List Char := "DROP TABLE orders_old".toList

theorem isDropTable_orders : isDropTable refusing "orders" dropOrders = true := by
  decide +kernel

theorem isDropTable_ordersOld : isDropTable refusing "orders_old" dropOrdersOld = true := by
  decide +kernel

/-- Break off the record of `DROP TABLE orders_old` after 17 bytes, and `DROP TABLE orders` is
executed: no record is whole. -/
theorem torn_drop_executed :
    parseSql refusing dropOrdersOld = .ok [.dropTable ⟨"orders_old", false⟩] ∧
      wholeRecords [dropOrdersOld] 17 = 0 ∧
      replay refusing (contents ((file [dropOrdersOld]).take 17)) = [.dropTable ⟨"orders", false⟩] := by
  have hcut : contents ((file [dropOrdersOld]).take 17) = dropOrders := by decide +kernel
  have hparse := (of_isDropTable isDropTable_orders).1
  refine ⟨(of_isDropTable isDropTable_ordersOld).1, by decide +kernel, ?_⟩
  rw [hcut, replay_eq, parseWalStatements, hparse]
  rfl

/-- Two statements, the second broken off after three bytes: the first is executed. -/
theorem torn_file_recovery_drops :
    let texts := [(dropOrders, Statement.dropTable ⟨"orders", false⟩),
      (dropOrdersOld, Statement.dropTable ⟨"orders_old", false⟩)]
    executed (parseWalStatements refusing (contents ((file (texts.map Prod.fst)).take 22))) =
      [.dropTable ⟨"orders", false⟩] := by
  intro texts
  have hfirst := of_isDropTable isDropTable_orders
  have hwhole : wholeRecords (texts.map Prod.fst) 22 = 1 := by decide +kernel
  have h := (torn_file_recovery refusing texts 22 (by
    rw [hwhole]
    exact forall_mem_singleton.mpr hfirst.1) (by
    rw [hwhole]
    exact forall_mem_singleton.mpr hfirst.2) (.inr (by decide +kernel))).1
  rw [hwhole] at h
  refine h.mpr fun stmts hstmts => ?_
  have hfrag : contents (fragment (texts.map Prod.fst) 22) = "DRO".toList := by decide +kernel
  have hfail : (parseSql refusing "DRO".toList).isOk = false := by decide +kernel
  rw [hfrag] at hstmts
  rw [hstmts] at hfail
  cases hfail

end PostgresRs.Wal
