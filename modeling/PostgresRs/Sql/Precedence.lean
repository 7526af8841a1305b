import PostgresRs.Sql.Expression
import PostgresRs.Util.Precedence

/-!
# Which tree an expression is read as

Expressions without parentheses over atoms, prefix minus, `NOT`, arithmetic, comparisons,
`IS [NOT] NULL`, `AND` and `OR`.  Such an expression is a tree over operators in the sense of
`Precedence`; `postgres` are the binding powers that PostgreSQL documents and `powers` those of the
parser.

`run_parseExpr_of_climbs` says that the parser climbs with `powers`.  Together with the theory of
climbing this decides which of PostgreSQL's trees the parser returns (`run_parseExpr_iff`): all but
those in which the operand of a minus is followed by an arithmetic operator, the operand of a `NOT`
by `AND`, or the right operand of a comparison by `IS`.
-/

namespace PostgresRs.Parser

open Reader Precedence List

/-! ## Operators and atoms with their tokens -/

def prefixOp : Token → Option UnaryOp
  | .minus => some .neg
  | .word w => if Text.eqIgnoreAsciiCase w "not" then some .not else none
  | _ => none

/-- A prefix operator as it is spelled. -/
structure PrefixOp where
  op : UnaryOp
  token : Token
  spells : prefixOp token = some op

def isArithmetic : BinaryOp → Bool
  | .mul | .div | .mod | .add | .sub => true
  | _ => false

def isComparison : BinaryOp → Bool
  | .eq | .notEq | .lt | .ltEq | .gt | .gtEq => true
  | _ => false

/-- Arithmetic operators, comparisons, `AND` and `OR`. -/
def isCommon (op : BinaryOp) : Bool :=
  isArithmetic op || isComparison op || op == .and || op == .or

/-- An infix operator as it is spelled. -/
structure InfixOp where
  op : BinaryOp
  token : Token
  spells : binaryOp token = some op
  common : isCommon op = true

/-- `IS [NOT] NULL` as it is spelled. -/
structure NullTest where
  «is» : Token
  not : Option Token
  null : Token
  is_spells : isKeyword "is" «is» = true
  not_spells : ∀ t ∈ not, isKeyword "not" t = true
  null_spells : isKeyword "null" null = true

def NullTest.tokens (q : NullTest) : List Token := q.is :: (q.not.toList ++ [q.null])

/-- Tokens that can follow an operand. -/
def Follows (rest : List Token) : Prop :=
  ∀ t ∈ rest.head?, isKeyword "is" t = true ∨ ∃ op, binaryOp t = some op ∧ isCommon op = true

/-- Words that mean something else than an atom at the start of an operand. -/
def startsOperand (t : Token) : Bool :=
  t != .minus && t != .plus && !(["not", "any", "some", "all"].any fun kw => isKeyword kw t)

/-- What `parse_atom` reads, whatever can follow it. -/
structure Atom (query : Parsers → Parser Select) where
  first : Token
  others : List Token
  expr : Expr
  starts : startsOperand first = true
  reads : ∀ {depth rest}, (first :: others).length ≤ depth → Follows rest →
    (parseAtom (parsers query depth)).run (first :: (others ++ rest)) = .ok (expr, rest)

variable {query : Parsers → Parser Select}

variable {rest : List Token}

theorem noSuffix_of_follows (h : Follows rest) : NoSuffix rest := by
  intro t ht
  rcases h t ht with his | ⟨op, hop, -⟩
  · refine ⟨?_, ?_, isKeyword_eq_false his rfl⟩ <;> rintro rfl <;> cases his
  · refine ⟨?_, ?_, isKeyword_of_binaryOp hop rfl rfl⟩ <;> rintro rfl <;> cases hop

theorem continuesWord_of_follows (h : Follows rest) :
    ∀ t ∈ rest.head?, continuesWord t = false := by
  intro t ht
  rcases h t ht with his | ⟨op, hop, -⟩
  · cases t <;> first | rfl | cases his
  · cases t <;> first | rfl | cases hop

/-- A column by its bare name. -/
def Atom.column (w : String) (hreserved : Text.toAsciiLowercase w ∉ reserved)
    (hstarts : startsOperand (.word w) = true) : Atom query where
  first := .word w
  others := []
  expr := .column w
  starts := hstarts
  reads _ hrest :=
    run_parseAtom_of_noSuffix (run_parseAtomInner_column hreserved (continuesWord_of_follows hrest))
      (noSuffix_of_follows hrest)

/-- An expression without parentheses. -/
abbrev Phrase (query : Parsers → Parser Select) := Tree PrefixOp InfixOp NullTest (Atom query)

/-- The lexemes of such expressions. -/
abbrev Word (query : Parsers → Parser Select) := Lexeme PrefixOp InfixOp NullTest (Atom query)

def tokensOf : Word query → List Token
  | .atom a => a.first :: a.others
  | .pre p => [p.token]
  | .op o => [o.token]
  | .post q => q.tokens

/-- The tokens of an expression. -/
def Phrase.tokens (t : Phrase query) : List Token := t.spell.flatMap tokensOf

/-- The expression that a tree stands for. -/
def Phrase.expr : Phrase query → Expr
  | .atom a => a.expr
  | .pre p t => .unary p.op (Phrase.expr t)
  | .op o l r => .binary o.op (Phrase.expr l) (Phrase.expr r)
  | .post q t => .isNull (Phrase.expr t) q.not.isSome

/-- The binding powers of the parser. -/
def powers : BindingPowers PrefixOp InfixOp NullTest where
  pre p :=
    match p.op with
    | .not => 3
    | .neg => 9
  left o := (bindingPower o.op).1
  right o := (bindingPower o.op).2
  post _ := 7

/-- PostgreSQL's precedence of the binary operators. -/
def postgresLevel : BinaryOp → Nat
  | .or => 1
  | .and => 2
  | .add | .sub => 6
  | .mul | .div | .mod => 7
  | _ => 5

/-- The binding powers of PostgreSQL: minus, then `* / %`, `+ -`, comparisons, `IS`, `NOT`, `AND` and
`OR`, all binary operators left-associative. -/
def postgres : BindingPowers PrefixOp InfixOp NullTest :=
  ofLevels
    (fun p =>
      match p.op with
      | .not => 3
      | .neg => 8)
    (fun o => postgresLevel o.op) (fun _ => 4)

/-! ## The parser climbs -/

section Climbing

variable {r : Parsers} {s s' : List Token} {e : Expr} {m depth : Nat}

theorem run_parsePrefix_pre (p : PrefixOp) (h : (r.expr (powers.pre p)).run s = .ok (e, s')) :
    (parsePrefix r).run (p.token :: s) = .ok (.unary p.op e, s') := by
  obtain ⟨op, token, spells⟩ := p
  cases token with
  | minus =>
    obtain rfl : UnaryOp.neg = op := Option.some.inj spells
    have h : (r.expr 9).run s = .ok (e, s') := h
    rw [parsePrefix, run_bind_of_eq_ok (run_eatKeyword_of_not rfl), if_neg Bool.false_ne_true,
      run_bind_of_eq_ok run_eat, if_pos rfl, run_bind_of_eq_ok h]
    rfl
  | word w =>
    rw [prefixOp] at spells
    split at spells
    · next hw =>
      obtain rfl := Option.some.inj spells
      have h : (r.expr 3).run s = .ok (e, s') := h
      have hw : isKeyword "not" (.word w) = true := hw
      rw [parsePrefix, run_bind_of_eq_ok (run_eatKeyword_of hw), if_pos rfl, run_bind_of_eq_ok h]
      rfl
    · cases spells
  | _ => cases spells

theorem run_parsePrefix_atom (a : Atom query) (hdepth : (a.first :: a.others).length ≤ depth)
    (hrest : Follows s) :
    (parsePrefix (parsers query depth)).run (a.first :: (a.others ++ s)) = .ok (a.expr, s) := by
  have hreads := a.reads hdepth hrest
  have hstarts := a.starts
  generalize a.first = t at hreads hstarts ⊢
  simp only [startsOperand, any_cons, any_nil, Bool.or_false, Bool.not_or,
    Bool.and_eq_true, bne_iff_ne, ne_eq, Bool.not_eq_true'] at hstarts
  obtain ⟨⟨hminus, hplus⟩, hnot, -⟩ := hstarts
  rw [parsePrefix, run_bind_of_eq_ok (run_eatKeyword_of_not hnot), if_neg Bool.false_ne_true,
    run_bind_of_eq_ok (run_eat_of_ne hminus), if_neg Bool.false_ne_true,
    run_bind_of_eq_ok (run_eat_of_ne hplus), if_neg Bool.false_ne_true]
  exact hreads

variable {w w' : List (Word query)} {t : Phrase query}

/-- What can stand behind an operand can follow it. -/
theorem follows_of_spelled (h : Spelled true w) : Follows (w.flatMap tokensOf) := by
  cases h with
  | @op o w _ =>
    rintro _ ⟨⟩
    exact .inr ⟨o.op, o.spells, o.common⟩
  | @post q w _ =>
    rintro _ ⟨⟩
    exact .inl q.is_spells
  | nil => exact fun _ ht => (by cases ht)

/-- An operand does not start with a quantifier. -/
theorem not_quantifier_of_spelled (h : Spelled false w) :
    ∀ u ∈ (w.flatMap tokensOf).head?,
      ["any", "some", "all"].any (fun kw => isKeyword kw u) = false := by
  cases h with
  | @atom a w _ =>
    rintro _ ⟨⟩
    have hstarts := a.starts
    rw [startsOperand, any_cons, Bool.and_eq_true, Bool.not_eq_true', Bool.or_eq_false_iff]
      at hstarts
    exact hstarts.2.2
  | @pre p w _ =>
    rintro _ ⟨⟩
    obtain ⟨op, token, spells⟩ := p
    cases token with
    | word v =>
      rw [prefixOp] at spells
      split at spells
      · next hv =>
        have hv : isKeyword "not" (.word v) = true := hv
        rw [any_cons, any_cons, any_cons, isKeyword_eq_false hv rfl,
          isKeyword_eq_false hv rfl, isKeyword_eq_false hv rfl]
        rfl
      · cases spells
    | _ => rfl

/-- The loop stops where climbing does. -/
theorem run_parseInfix_of_stop (hw : Spelled true w) (hstop : ∀ x ∈ next w, pull powers x < m) :
    (parseInfix r m e).run (w.flatMap tokensOf) = .ok (none, w.flatMap tokensOf) := by
  cases hw with
  | @op o w _ =>
    exact (run_parseInfix_of_binaryOp o.spells).trans (if_pos (hstop _ rfl))
  | @post q w _ =>
    have hlt : 7 < m := hstop _ rfl
    refine (run_bind_of_eq_ok (run_peekIs_of q.is_spells)).trans ?_
    rw [if_pos hlt]
    rfl
  | nil => rfl

theorem run_parseInfix_post (q : NullTest) (hm : m ≤ 7) :
    (parseInfix r m e).run (q.tokens ++ s) = .ok (some (.isNull e q.not.isSome), s) := by
  obtain ⟨_, not, _, his, hnot, hnull⟩ := q
  cases not with
  | none => exact run_parseInfix_is his hm (run_parseIs_null hnull)
  | some u => exact run_parseInfix_is his hm (run_parseIs_not_null (hnot u rfl) hnull)

/-- What the parser does at the place of a climb: from the start, one level of nesting for each token
is enough; with a left operand in hand, so is one turn of the loop for each. -/
def Simulates (m : Nat) (lhs : Option (Phrase query)) (w : List (Word query)) (t : Phrase query)
    (w' : List (Word query)) : Prop :=
  match lhs with
  | none => ∀ depth, (w.flatMap tokensOf).length < depth →
      ((parsers query depth).expr m).run (w.flatMap tokensOf) = .ok (t.expr, w'.flatMap tokensOf)
  | some u => ∀ depth fuel, (w.flatMap tokensOf).length ≤ depth → (w.flatMap tokensOf).length < fuel →
      (extendUpTo (parseInfix (parsers query depth) m) fuel u.expr).run (w.flatMap tokensOf) =
        .ok (t.expr, w'.flatMap tokensOf)

theorem length_tokens_le (h : w' <:+ w) :
    (w'.flatMap tokensOf).length ≤ (w.flatMap tokensOf).length := by
  obtain ⟨k, rfl⟩ := h
  rw [flatMap_append, length_append]
  exact Nat.le_add_left _ _

/-- What is read from the start: a prefix or an atom, and then the loop. -/
theorem simulates_none {u : Phrase query} {w₁ : List (Word query)}
    (hu : ∀ depth, (w.flatMap tokensOf).length ≤ depth →
      (parsePrefix (parsers query depth)).run (w.flatMap tokensOf) =
        .ok (u.expr, w₁.flatMap tokensOf))
    (hlen : (w₁.flatMap tokensOf).length ≤ (w.flatMap tokensOf).length)
    (hloop : Simulates m (some u) w₁ t w') : Simulates m none w t w' := by
  intro depth hdepth
  obtain ⟨depth, rfl⟩ : ∃ k, depth = k + 1 := ⟨depth - 1, by omega⟩
  change (parseExprBp (parsers query depth) m).run _ = _
  rw [parseExprBp, run_bind_of_eq_ok (hu depth (Nat.le_of_lt_succ hdepth))]
  exact hloop depth _ (by omega) (Nat.lt_succ_self _)

/-- One turn of the loop, and then the rest of it. -/
theorem simulates_some {u v : Phrase query} {w₁ : List (Word query)}
    (hu : ∀ depth, (w.flatMap tokensOf).length ≤ depth →
      (parseInfix (parsers query depth) m u.expr).run (w.flatMap tokensOf) =
        .ok (some v.expr, w₁.flatMap tokensOf))
    (hlen : (w₁.flatMap tokensOf).length < (w.flatMap tokensOf).length)
    (hloop : Simulates m (some v) w₁ t w') : Simulates m (some u) w t w' := by
  intro depth fuel hdepth hfuel
  obtain ⟨fuel, rfl⟩ : ∃ k, fuel = k + 1 := ⟨fuel - 1, by omega⟩
  rw [extendUpTo, run_bind_of_eq_ok (hu depth hdepth)]
  exact hloop depth fuel (by omega) (by omega)

/-- **The parser climbs** with its binding powers. -/
theorem simulates_of_climbs {lhs : Option (Phrase query)} (h : Climbs powers m lhs w t w')
    (hw : Spelled lhs.isSome w) : Simulates m lhs w t w' := by
  induction h with
  | @atom m a w t w' h ih =>
    cases hw with
    | atom hw =>
      refine simulates_none (u := .atom a) (fun depth hdepth => ?_) ?_ (ih hw)
      · rw [flatMap_cons, length_append] at hdepth
        exact run_parsePrefix_atom a (by rw [tokensOf] at hdepth; omega) (follows_of_spelled hw)
      · rw [flatMap_cons, length_append]
        exact Nat.le_add_left _ _
  | @pre m p w e w₁ t w' h₁ h₂ ih₁ ih₂ =>
    cases hw with
    | pre hw =>
      have hlen := length_tokens_le h₁.suffix
      refine simulates_none (u := .pre p e) (fun depth hdepth => ?_) ?_ (ih₂ (h₁.spelled hw))
      · exact run_parsePrefix_pre p (ih₁ hw depth hdepth)
      · exact Nat.le_succ_of_le hlen
  | @op m o u w e w₁ t w' hle h₁ h₂ ih₁ ih₂ =>
    cases hw with
    | op hw =>
      have hlen := length_tokens_le h₁.suffix
      refine simulates_some (v := .op o u e) (fun depth hdepth => ?_) ?_ (ih₂ (h₁.spelled hw))
      · exact run_parseInfix_of_le o.spells hle (not_quantifier_of_spelled hw) (ih₁ hw depth hdepth)
      · exact Nat.lt_succ_of_le hlen
  | @post m q u w t w' hle h ih =>
    cases hw with
    | post hw =>
      refine simulates_some (v := .post q u) (fun depth hdepth => ?_) ?_ (ih hw)
      · exact run_parseInfix_post q hle
      · rw [flatMap_cons, length_append, tokensOf, NullTest.tokens, length_cons]
        omega
  | @stop m u w hstop =>
    intro depth fuel _ hfuel
    obtain ⟨fuel, rfl⟩ : ∃ k, fuel = k + 1 := ⟨fuel - 1, by omega⟩
    rw [extendUpTo, run_bind_of_eq_ok (run_parseInfix_of_stop hw hstop)]
    rfl

/-- The tree that climbing finds is the one that the parser returns. -/
theorem run_parseExpr_of_climbs {t' : Phrase query} (h : Climbs powers 0 none t.spell t' []) :
    (parseExpr query).run t.tokens = .ok (t'.expr, []) := by
  have hspelled := t.spelled .nil
  rw [append_nil] at hspelled
  have hsim := simulates_of_climbs h hspelled (t.tokens.length + 1) (Nat.lt_succ_self _)
  have hget : (get : Parser (List Token)).run t.tokens = .ok (t.tokens, t.tokens) := rfl
  rw [parseExpr, run_bind_of_eq_ok hget]
  exact hsim

end Climbing

/-! ## Different trees are different expressions -/

/-- What a lexeme contributes to the size of an expression. -/
noncomputable def weight : Word query → Nat
  | .atom a => sizeOf a.expr
  | .pre p => 1 + sizeOf p.op
  | .op o => 1 + sizeOf o.op
  | .post q => 1 + sizeOf q.not.isSome

theorem weight_pos (x : Word query) : 0 < weight x := by
  cases x with
  | atom a =>
    rw [weight]
    cases a.expr <;> simp +arith
  | _ => exact Nat.lt_of_lt_of_le Nat.zero_lt_one (Nat.le_add_right _ _)

theorem sizeOf_expr (t : Phrase query) : sizeOf t.expr = (t.spell.map weight).sum := by
  induction t with
  | atom a => simp [Phrase.expr, Tree.spell, weight]
  | pre p t ih => simp [Phrase.expr, Tree.spell, weight, ih]
  | op o l r ihl ihr =>
    simp only [Phrase.expr, Expr.binary.sizeOf_spec, ihl, ihr, Tree.spell, map_append,
      map_cons, sum_append, sum_cons, weight]
    omega
  | post q t ih =>
    simp only [Phrase.expr, Expr.isNull.sizeOf_spec, ih, Tree.spell, map_append, map_cons,
      map_nil, sum_append, sum_cons, sum_nil, weight]
    omega

/-- A part at the front that weighs as much as another is the other. -/
theorem append_eq_append {w₁ w₂ k₁ k₂ : List (Word query)} (h : w₁ ++ k₁ = w₂ ++ k₂)
    (hweight : (w₁.map weight).sum = (w₂.map weight).sum) : w₁ = w₂ ∧ k₁ = k₂ := by
  have hnil : ∀ k : List (Word query), (k.map weight).sum = 0 → k = [] := by
    intro k hk
    cases k with
    | nil => rfl
    | cons x k =>
      have := weight_pos x
      rw [map_cons, sum_cons] at hk
      omega
  rcases append_eq_append_iff.mp h with ⟨k, rfl, rfl⟩ | ⟨k, rfl, rfl⟩
  · rw [map_append, sum_append] at hweight
    obtain rfl := hnil k (by omega)
    exact ⟨(append_nil _).symm, rfl⟩
  · rw [map_append, sum_append] at hweight
    obtain rfl := hnil k (by omega)
    exact ⟨append_nil _, rfl⟩

theorem spell_ne_nil (t : Phrase query) : t.spell ≠ [] := by
  cases t <;> simp [Tree.spell]

/-- Two trees of one spelling that stand for the same expression are the same. -/
theorem eq_of_expr_eq {t t' : Phrase query} (hspell : t.spell = t'.spell) (h : t.expr = t'.expr) :
    t = t' := by
  induction t generalizing t' with
  | atom a =>
    cases t' with
    | atom a' =>
      cases hspell
      rfl
    | pre p' t' => cases hspell
    | op o' l' r' =>
      obtain ⟨x, k, hl⟩ := exists_cons_of_ne_nil (spell_ne_nil l')
      rw [Tree.spell, Tree.spell, hl] at hspell
      simp at hspell
    | post q' t' =>
      obtain ⟨x, k, hl⟩ := exists_cons_of_ne_nil (spell_ne_nil t')
      rw [Tree.spell, Tree.spell, hl] at hspell
      simp at hspell
  | pre p t ih =>
    cases t' with
    | atom a' => cases hspell
    | pre p' t' =>
      obtain ⟨hp, ht⟩ := List.cons.inj hspell
      cases hp
      rw [ih ht (Expr.unary.inj h).2]
    | op | post => cases h
  | op o l r ihl ihr =>
    cases t' with
    | atom a' =>
      obtain ⟨x, k, hl⟩ := exists_cons_of_ne_nil (spell_ne_nil l)
      rw [Tree.spell, Tree.spell, hl] at hspell
      simp at hspell
    | pre | post => cases h
    | op o' l' r' =>
      -- The operators could be different ones of the list, but then the left operands would not have
      -- the same size.
      obtain ⟨-, hl, hr⟩ := Expr.binary.inj h
      obtain ⟨hspelll, htail⟩ := append_eq_append hspell (by rw [← sizeOf_expr, ← sizeOf_expr, hl])
      obtain ⟨ho, hspellr⟩ := List.cons.inj htail
      cases ho
      rw [ihl hspelll hl, ihr hspellr hr]
  | post q t ih =>
    cases t' with
    | atom a' =>
      obtain ⟨x, k, hl⟩ := exists_cons_of_ne_nil (spell_ne_nil t)
      rw [Tree.spell, Tree.spell, hl] at hspell
      simp at hspell
    | pre | op => cases h
    | post q' t' =>
      obtain ⟨ht, hq⟩ := append_inj' hspell rfl
      cases hq
      rw [ih ht (Expr.isNull.inj h).1]

/-! ## The trees that both agree on -/

/-- The operator `x` stands behind the operand of `y`, and the parser lets `y` have it where PostgreSQL
does not: arithmetic behind the operand of a minus, `AND` behind that of a `NOT`, and `IS` behind the
right operand of a comparison. -/
def clashes : InfixOp ⊕ NullTest → PrefixOp ⊕ InfixOp → Bool
  | .inl o, .inl p =>
    match p.op with
    | .neg => isArithmetic o.op
    | .not => o.op == .and
  | .inr _, .inr o => isComparison o.op
  | .inl _, .inr _ | .inr _, .inl _ => false

/-- No operator of the expression clashes with one whose operand ends before it. -/
def Phrase.Unclashed : Phrase query → Prop
  | .atom _ => True
  | .pre _ t => Phrase.Unclashed t
  | .op o l r =>
    (Phrase.Unclashed l ∧ ∀ y ∈ l.trailing, clashes (.inl o) y = false) ∧ Phrase.Unclashed r
  | .post q t => Phrase.Unclashed t ∧ ∀ y ∈ t.trailing, clashes (.inr q) y = false

instance Phrase.decidableUnclashed : (t : Phrase query) → Decidable t.Unclashed
  | .atom _ => .isTrue trivial
  | .pre _ t => decidableUnclashed t
  | .op o l r =>
    @instDecidableAnd _ _
      (@instDecidableAnd _ _ (decidableUnclashed l)
        (inferInstanceAs (Decidable (∀ y ∈ l.trailing, clashes (.inl o) y = false))))
      (decidableUnclashed r)
  | .post q t =>
    @instDecidableAnd _ _ (decidableUnclashed t)
      (inferInstanceAs (Decidable (∀ y ∈ t.trailing, clashes (.inr q) y = false)))

/-- The powers on the left that occur, PostgreSQL's and the parser's. -/
def pulls : List (Nat × Nat) := [(2, 1), (4, 3), (8, 7), (10, 5), (12, 10), (14, 12)]

/-- The powers on the right that occur. -/
def holds : List (Nat × Nat) := [(3, 2), (5, 4), (7, 3), (11, 6), (13, 11), (15, 13), (17, 9)]

theorem pull_mem_pulls (x : InfixOp ⊕ NullTest) : (pull postgres x, pull powers x) ∈ pulls := by
  rcases x with ⟨op, token, spells, common⟩ | q
  · change (2 * postgresLevel op, (bindingPower op).1) ∈ pulls
    cases op <;> first | decide | cases common
  · change (8, 7) ∈ pulls
    decide

theorem hold_mem_holds (y : PrefixOp ⊕ InfixOp) : (hold postgres y, hold powers y) ∈ holds := by
  rcases y with ⟨op, token, spells⟩ | ⟨op, token, spells, common⟩
  · cases op
    · change (17, 9) ∈ holds
      decide
    · change (7, 3) ∈ holds
      decide
  · change (2 * postgresLevel op + 1, (bindingPower op).2) ∈ holds
    cases op <;> first | decide | cases common

/-- The clashes by PostgreSQL's powers. -/
theorem clashes_eq (x : InfixOp ⊕ NullTest) (y : PrefixOp ⊕ InfixOp) :
    clashes x y =
      decide ((pull postgres x, hold postgres y) ∈ [(4, 7), (8, 11), (12, 17), (14, 17)]) := by
  have hlevel (op : BinaryOp) : postgresLevel op ≠ 3 ∧ postgresLevel op ≠ 4 ∧ postgresLevel op ≠ 8 := by
    cases op <;> simp [postgresLevel]
  rcases x with ⟨op, token, spells, common⟩ | q <;>
    rcases y with ⟨op', token', spells'⟩ | ⟨op', token', spells', common'⟩
  · cases op' <;> cases op <;> rfl
  · change false = decide ((2 * postgresLevel op, 2 * postgresLevel op' + 1) ∈ _)
    have := hlevel op
    have := hlevel op'
    simp only [mem_cons, Prod.mk.injEq, not_mem_nil, or_false, Eq.comm (a := false),
      decide_eq_false_iff_not]
    omega
  · cases op' <;> rfl
  · cases op' <;> first | rfl | cases common'

variable {x : InfixOp ⊕ NullTest} {y : PrefixOp ⊕ InfixOp}

/-- Where PostgreSQL lets go of an operand, so does the parser, up to the clashes. -/
theorem pull_lt_hold_iff (h : pull postgres x < hold postgres y) :
    pull powers x < hold powers y ↔ clashes x y = false := by
  have htable : ∀ a ∈ pulls, ∀ c ∈ holds, a.1 < c.1 →
      (a.2 < c.2 ↔ (a.1, c.1) ∉ [(4, 7), (8, 11), (12, 17), (14, 17)]) := by decide
  rw [clashes_eq, decide_eq_false_iff_not]
  exact htable _ (pull_mem_pulls x) _ (hold_mem_holds y) h

/-- Where PostgreSQL holds an operand, so does the parser. -/
theorem hold_le_pull (h : hold postgres y ≤ pull postgres x) : hold powers y ≤ pull powers x := by
  have htable : ∀ a ∈ pulls, ∀ c ∈ holds, c.1 ≤ a.1 → c.2 ≤ a.2 := by decide
  exact htable _ (pull_mem_pulls x) _ (hold_mem_holds y) h

/-- The tree of PostgreSQL is that of the parser if and only if no two operators clash. -/
theorem canonical_powers_iff {t : Phrase query} (h : t.Canonical postgres) :
    t.Canonical powers ↔ t.Unclashed := by
  induction t with
  | atom a => exact Iff.rfl
  | pre p t ih =>
    have hpulls : t.Pulls powers (powers.pre p) :=
      fun x hx => hold_le_pull (y := .inl p) (h.2 x hx)
    exact (and_iff_left hpulls).trans (ih h.1)
  | op o l r ihl ihr =>
    obtain ⟨⟨hl, hgo⟩, hr, hpulls⟩ := h
    have hpulls : r.Pulls powers (powers.right o) :=
      fun x hx => hold_le_pull (y := .inr o) (hpulls x hx)
    have hgo : l.LetsGo powers (.inl o) ↔ ∀ y ∈ l.trailing, clashes (.inl o) y = false :=
      forall₂_congr fun y hy => pull_lt_hold_iff (hgo y hy)
    exact and_congr (and_congr (ihl hl) hgo) ((and_iff_left hpulls).trans (ihr hr))
  | post q t ih =>
    obtain ⟨ht, hgo⟩ := h
    exact and_congr (ih ht) (forall₂_congr fun y hy => pull_lt_hold_iff (hgo y hy))

/-- **Every expression is read**: the parser takes the whole of it, and returns the one tree with its
lexemes that fits the binding powers. -/
theorem run_parseExpr_existsUnique (t : Phrase query) :
    ∃ t' : Phrase query, (parseExpr query).run t.tokens = .ok (t'.expr, []) ∧
      ∀ u : Phrase query, u.Canonical powers ∧ u.spell = t.spell ↔ u = t' := by
  obtain ⟨t', hclimbs⟩ := exists_climbs powers t
  obtain ⟨hcanonical, hspell⟩ := hclimbs.canonical
  refine ⟨t', run_parseExpr_of_climbs hclimbs, fun u => ⟨fun ⟨hu, hu'⟩ => ?_, ?_⟩⟩
  · exact hu.unique hcanonical (hu'.trans hspell.symm)
  · rintro rfl
    exact ⟨hcanonical, hspell⟩

/-- PostgreSQL reads every expression as exactly one tree. -/
theorem existsUnique_postgres (t : Phrase query) :
    ∃! t' : Phrase query, t'.Canonical postgres ∧ t'.tokens = t.tokens ∧ t'.spell = t.spell := by
  obtain ⟨t', hclimbs⟩ := exists_climbs postgres t
  obtain ⟨hcanonical, hspell⟩ := hclimbs.canonical
  refine ⟨t', ⟨hcanonical, congrArg (List.flatMap tokensOf) hspell, hspell⟩, ?_⟩
  rintro u ⟨hu, -, hu'⟩
  exact hu.unique hcanonical (hu'.trans hspell.symm)

/-- **Operator precedence.**  Of the expressions without parentheses, the parser returns the tree of
PostgreSQL for those in which no two operators clash, and only for those. -/
theorem run_parseExpr_iff (t : Phrase query) (h : t.Canonical postgres) :
    (parseExpr query).run t.tokens = .ok (t.expr, []) ↔ t.Unclashed := by
  obtain ⟨t', hclimbs⟩ : ∃ t' : Phrase query, _ := exists_climbs powers t
  have hrun := run_parseExpr_of_climbs hclimbs
  rw [← canonical_powers_iff h]
  constructor
  · intro hparse
    -- The parser returns its own tree, so that is the same expression and hence the same tree.
    rw [hrun] at hparse
    obtain ⟨hcanonical, hspell⟩ := hclimbs.canonical
    have hexpr : t'.expr = t.expr := (Prod.mk.inj (Except.ok.inj hparse)).1
    rw [← eq_of_expr_eq hspell hexpr]
    exact hcanonical
  · intro hcanonical
    rw [run_parseExpr_of_climbs hcanonical.climbs]

/-- `a - b * c < d AND NOT e IS NOT NULL OR f`. -/
theorem run_parseExpr_mixed :
    (parseExpr fun r => r.select).run
        [.word "a", .minus, .word "b", .star, .word "c", .lt, .word "d", .word "AND", .word "NOT",
          .word "e", .word "IS", .word "NOT", .word "NULL", .word "or", .word "f"] =
      .ok (.binary .or
        (.binary .and
          (.binary .lt (.binary .sub (.column "a") (.binary .mul (.column "b") (.column "c")))
            (.column "d"))
          (.unary .not (.isNull (.column "e") true)))
        (.column "f"), []) :=
  (run_parseExpr_iff
    (.op ⟨.or, .word "or", rfl, rfl⟩
      (.op ⟨.and, .word "AND", rfl, rfl⟩
        (.op ⟨.lt, .lt, rfl, rfl⟩
          (.op ⟨.sub, .minus, rfl, rfl⟩ (.atom (.column "a" (by decide) rfl))
            (.op ⟨.mul, .star, rfl, rfl⟩ (.atom (.column "b" (by decide) rfl))
              (.atom (.column "c" (by decide) rfl))))
          (.atom (.column "d" (by decide) rfl)))
        (.pre ⟨.not, .word "NOT", rfl⟩
          (.post ⟨.word "IS", some (.word "NOT"), .word "NULL", rfl, by decide, rfl⟩
            (.atom (.column "e" (by decide) rfl)))))
      (.atom (.column "f" (by decide) rfl)))
    (by decide)).mpr (by decide)

/-- `-a + b` is read as `-(a + b)`, where PostgreSQL reads `(-a) + b`. -/
theorem run_parseExpr_minus_sum :
    ∃ t : Phrase fun r => r.select, t.Canonical postgres ∧
      t.tokens = [.minus, .word "a", .plus, .word "b"] ∧
      t.expr = .binary .add (.unary .neg (.column "a")) (.column "b") ∧
      (parseExpr fun r => r.select).run t.tokens =
        .ok (.unary .neg (.binary .add (.column "a") (.column "b")), []) := by
  refine ⟨.op ⟨.add, .plus, rfl, rfl⟩
    (.pre ⟨.neg, .minus, rfl⟩ (.atom (.column "a" (by decide) rfl)))
    (.atom (.column "b" (by decide) rfl)), by decide, rfl, rfl, ?_⟩
  exact run_parseExpr_of_climbs (t := .pre ⟨.neg, .minus, rfl⟩
    (.op ⟨.add, .plus, rfl, rfl⟩ (.atom (.column "a" (by decide) rfl))
      (.atom (.column "b" (by decide) rfl)))) (Tree.Canonical.climbs (by decide))

end PostgresRs.Parser
