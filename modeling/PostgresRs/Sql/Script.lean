import PostgresRs.Sql.Expression
import PostgresRs.Sql.Parser
import PostgresRs.Sql.Scan

/-!
# Statements in a row

The log is read back as one script: the texts of the statements with a `;` after each.  `Apart` says
of the tokens of a text that the parser reads them alike when `;` and anything else follow.  A single
statement has this property when its parser stops at `;`, and those without expressions and queries
always do (`apart_of_clause`).  The parser of expressions does not (`not_stopsAt_parseExpr`), so for
the other statements it depends on the text.
-/

namespace PostgresRs.Parser

open Reader List

variable {arms : Arms} {ts r rest : List Token} {stmt : Statement}

/-! ## One statement -/

variable {kw : String}

theorem consumes_parseKeyword (h : (parseKeyword arms kw).run ts = .ok (stmt, r)) :
    r.length ≤ ts.length := by
  rw [parseKeyword] at h
  split at h
  · next p hp => exact p.2.consumes h
  · split at h
    · exact arms.consumes h
    · cases h

theorem length_parseStatement (h : parseStatement arms ts = .ok (stmt, r)) :
    r.length < ts.length := by
  fun_induction parseStatement arms ts generalizing stmt with
  | case1 | case2 | case6 => cases h
  | case3 w hw u ts hu ih =>
    obtain ⟨⟨stmt', r'⟩, hs, ⟨⟩⟩ := of_map_eq_ok h
    have := ih hs
    simp only [length_cons]
    omega
  | case4 w hw u ts hu ih =>
    obtain ⟨⟨stmt', r'⟩, hs, ⟨⟩⟩ := of_map_eq_ok h
    have := ih hs
    simp only [length_cons] at this ⊢
    omega
  | case5 ts w hw =>
    exact Nat.lt_succ_of_le (consumes_parseKeyword h)

/-- The keyword that decides on a statement's parser: the first, or the one after `EXPLAIN`. -/
def leadingKeyword : List Token → Option String
  | [] => none
  | t :: ts =>
    match t with
    | .word w =>
      if Text.toAsciiLowercase w = "explain" then
        match ts with
        | [] => none
        | u :: ts => if isKeyword "analyze" u then leadingKeyword ts else leadingKeyword (u :: ts)
      else some (Text.toAsciiLowercase w)
    | _ => none

/-- A statement whose parser stops at `;` is read alike when `;` follows. -/
theorem parseStatement_append (hkw : leadingKeyword ts = some kw)
    (hstop : StopsAt Token.semicolon (parseKeyword arms kw))
    (h : parseStatement arms ts = .ok (stmt, r)) (rest : List Token) :
    parseStatement arms (ts ++ .semicolon :: rest) = .ok (stmt, r ++ .semicolon :: rest) := by
  fun_induction parseStatement arms ts generalizing stmt with
  | case1 | case2 | case6 => cases h
  | case3 w hw u ts hu ih =>
    obtain ⟨⟨stmt', r'⟩, hs, ⟨⟩⟩ := of_map_eq_ok h
    rw [leadingKeyword, if_pos hw, if_pos hu] at hkw
    rw [cons_append, cons_append, parseStatement, if_pos hw, if_pos hu, ih hkw hs]
    rfl
  | case4 w hw u ts hu ih =>
    obtain ⟨⟨stmt', r'⟩, hs, ⟨⟩⟩ := of_map_eq_ok h
    rw [leadingKeyword, if_pos hw, if_neg hu] at hkw
    rw [cons_append, cons_append, parseStatement, if_pos hw, if_neg hu,
      ← cons_append, ih hkw hs]
    rfl
  | case5 ts w hw =>
    rw [leadingKeyword.eq_def] at hkw
    simp only [if_neg hw, Option.some.injEq] at hkw
    subst hkw
    rw [cons_append, parseStatement.eq_def]
    simp only [if_neg hw]
    exact hstop.stops h rest

/-! ## The loop -/

theorem parseLoop_fuel {n m : Nat} (hn : ts.length < n) (hm : ts.length < m) :
    parseLoop arms n ts = parseLoop arms m ts := by
  induction n generalizing ts m with
  | zero => omega
  | succ n ih =>
    obtain ⟨m, rfl⟩ : ∃ k, m = k + 1 := ⟨m - 1, by omega⟩
    have hlen := (dropWhile_suffix (l := ts) fun t => t == .semicolon).length_le
    simp only [parseLoop]
    split
    · rfl
    next t ts' hdrop =>
    rw [hdrop] at hlen
    rcases hs : parseStatement arms (t :: ts') with e | ⟨stmt, r⟩
    · rfl
    have hlt := length_parseStatement hs
    simp only [bind, Except.bind]
    split
    · rfl
    · rw [length_cons] at hlt
      rw [ih (m := m) (by omega) (by omega)]
    · rfl

theorem dropWhile_semicolon (h : parseStatement arms ts = .ok (stmt, r)) :
    ts.dropWhile (fun t => t == .semicolon) = ts := by
  cases ts with
  | nil => rfl
  | cons t ts =>
    cases t with
    | semicolon => cases h
    | _ => rfl

theorem parseAll_of_last (h : parseStatement arms ts = .ok (stmt, [])) :
    parseAll arms ts = .ok [stmt] := by
  cases ts with
  | nil => cases h
  | cons t ts =>
    rw [parseAll, parseLoop, dropWhile_semicolon h]
    simp only [h]
    rfl

theorem parseAll_of_statement (h : parseStatement arms ts = .ok (stmt, .semicolon :: rest)) :
    parseAll arms ts = (parseAll arms rest).map fun stmts => stmt :: stmts := by
  have hlt := length_parseStatement h
  cases ts with
  | nil => cases h
  | cons t ts =>
    rw [length_cons, length_cons] at hlt
    rw [parseAll, parseLoop, dropWhile_semicolon h]
    have hrest : parseLoop arms (t :: ts).length rest = parseAll arms rest :=
      parseLoop_fuel (by simp; omega) (by omega)
    simp only [h, bind, Except.bind, hrest]
    cases parseAll arms rest <;> rfl

/-! ## Texts in a row -/

/-- The tokens `ts` stand for the statements `stmts` also when `;` and anything else follow. -/
def Apart (arms : Arms) (ts : List Token) (stmts : List Statement) : Prop :=
  ∀ rest, parseAll arms (ts ++ .semicolon :: rest) =
    (parseAll arms rest).map fun stmts' => stmts ++ stmts'

/-- **Statements without expressions and queries keep apart.** -/
theorem apart_of_clause (hkw : leadingKeyword ts = some kw) (hclause : kw ∉ armKeywords)
    (h : parseStatement arms ts = .ok (stmt, [])) : Apart arms ts [stmt] := by
  intro rest
  -- The parsers of this development stop at `;`, those of `Arms` need not.
  have hstop : StopsAt Token.semicolon (parseKeyword arms kw) := by
    rw [parseKeyword]
    split
    · next p hp => exact p.2
    · rw [if_neg hclause]
      exact .throw _
  rw [parseAll_of_statement (parseStatement_append hkw hstop h rest)]
  rfl

/-- `INTERVAL '1' YEAR TO`, with nothing behind it. -/
def openInterval : List Token := [.word "interval", .stringLit "1", .word "year", .word "to"]

/-- **Expressions need not keep apart**: an interval takes the token behind its `TO`, also if it is
`;`. -/
theorem not_stopsAt_parseExpr (query : Parsers → Parser Select) :
    ¬StopsAt Token.semicolon (parseExpr query) := by
  intro h
  have halone : (parseExpr query).run openInterval =
      .ok (.cast (.str "1\u0001year") .interval, []) := rfl
  have hfollowed : (parseExpr query).run (openInterval ++ [.semicolon]) =
      .ok (.cast (.str "1\u0001year") .interval, []) := rfl
  cases (h.stops halone []).symm.trans hfollowed

end PostgresRs.Parser
