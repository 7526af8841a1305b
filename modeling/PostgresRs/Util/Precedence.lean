import Mathlib.Data.List.Basic

/-!
# Operator precedence

Expressions without parentheses over prefix, infix and postfix operators.  A tree spells a list of
lexemes, and many trees spell the same list; a table of binding powers picks one of them.  `b.left o`
is how strongly an infix operator pulls the operand before it, `b.right o` how strongly it holds the
one behind it, and an operand between two operators goes to the stronger side, to the left one only if
it is strictly stronger.

* `Tree.Canonical b` — the tree that `b` picks, by a condition on its nodes: no operator that stands
  at the end of a left operand would have taken the operator behind it, and no operator at the front
  of a right operand would have let it go.
* `Climbs b` — precedence climbing, as a relation between what is read, the tree and what is left.

Climbing reads the canonical trees (`Climbs.of_canonical`) and nothing else (`Climbs.canonical`), and
it reads every spelling (`exists_climbs`).  So every spelling has exactly one canonical tree
(`Climbs.canonical`, `Tree.Canonical.unique`).
-/

namespace PostgresRs

open List Nat

/-- Binding powers of prefix operators `P`, infix operators `O` and postfix operators `Q`. -/
structure BindingPowers (P O Q : Type) where
  pre : P → Nat
  left : O → Nat
  right : O → Nat
  post : Q → Nat

namespace Precedence

/-- The powers of left-associative operators, by their precedence: higher binds tighter. -/
def ofLevels {P O Q : Type} (pre : P → Nat) (op : O → Nat) (post : Q → Nat) :
    BindingPowers P O Q where
  pre p := 2 * pre p + 1
  left o := 2 * op o
  right o := 2 * op o + 1
  post q := 2 * post q

inductive Lexeme (P O Q A : Type) where
  | atom (a : A)
  | pre (p : P)
  | op (o : O)
  | post (q : Q)

inductive Tree (P O Q A : Type) where
  | atom (a : A)
  | pre (p : P) (operand : Tree P O Q A)
  | op (o : O) (left right : Tree P O Q A)
  | post (q : Q) (operand : Tree P O Q A)

variable {P O Q A : Type} {b : BindingPowers P O Q} {m : Nat} {s r r' : List (Lexeme P O Q A)}
  {t t' : Tree P O Q A}

namespace Tree

def spell : Tree P O Q A → List (Lexeme P O Q A)
  | atom a => [.atom a]
  | pre p t => .pre p :: t.spell
  | op o l r => l.spell ++ .op o :: r.spell
  | post q t => t.spell ++ [.post q]

/-- The operators whose last operand is at the end of the tree. -/
def trailing : Tree P O Q A → List (P ⊕ O)
  | pre p t => .inl p :: t.trailing
  | op o _ r => .inr o :: r.trailing
  | atom _ | post _ _ => []

/-- The operators whose first operand is at the front of the tree. -/
def leading : Tree P O Q A → List (O ⊕ Q)
  | op o l _ => .inl o :: l.leading
  | post q t => .inr q :: t.leading
  | atom _ | pre _ _ => []

end Tree

/-- How strongly an operator pulls the operand before it. -/
def pull (b : BindingPowers P O Q) : O ⊕ Q → Nat := Sum.elim b.left b.post

/-- How strongly an operator holds the operand behind it. -/
def hold (b : BindingPowers P O Q) : P ⊕ O → Nat := Sum.elim b.pre b.right

/-- The infix or postfix operator that a list starts with. -/
def next : List (Lexeme P O Q A) → Option (O ⊕ Q)
  | .op o :: _ => some (.inl o)
  | .post q :: _ => some (.inr q)
  | _ => none

/-- Nothing that ends the tree holds its operand against the operator `x` behind the tree. -/
def Tree.LetsGo (b : BindingPowers P O Q) (x : O ⊕ Q) (t : Tree P O Q A) : Prop :=
  ∀ y ∈ t.trailing, pull b x < hold b y

/-- Every operator at the front of the tree pulls its operand with power `m` at least. -/
def Tree.Pulls (b : BindingPowers P O Q) (m : Nat) (t : Tree P O Q A) : Prop :=
  ∀ y ∈ t.leading, m ≤ pull b y

/-- The trees that the binding powers pick. -/
def Tree.Canonical (b : BindingPowers P O Q) : Tree P O Q A → Prop
  | atom _ => True
  | pre p t => t.Canonical b ∧ t.Pulls b (b.pre p)
  | op o l r => (l.Canonical b ∧ l.LetsGo b (.inl o)) ∧ r.Canonical b ∧ r.Pulls b (b.right o)
  | post q t => t.Canonical b ∧ t.LetsGo b (.inr q)

instance (x : O ⊕ Q) (t : Tree P O Q A) : Decidable (t.LetsGo b x) :=
  inferInstanceAs (Decidable (∀ y ∈ t.trailing, pull b x < hold b y))

instance (t : Tree P O Q A) : Decidable (t.Pulls b m) :=
  inferInstanceAs (Decidable (∀ y ∈ t.leading, m ≤ pull b y))

instance Tree.decidableCanonical : (t : Tree P O Q A) → Decidable (t.Canonical b)
  | atom _ => .isTrue trivial
  | pre _ t => @instDecidableAnd _ _ t.decidableCanonical _
  | op _ l r =>
    @instDecidableAnd _ _ (@instDecidableAnd _ _ l.decidableCanonical _)
      (@instDecidableAnd _ _ r.decidableCanonical _)
  | post _ t => @instDecidableAnd _ _ t.decidableCanonical _

/-! ## Climbing -/

/-- Reading with the least binding power `m`, from the start or with a left operand in hand: the tree
that is read and what is left. -/
inductive Climbs (b : BindingPowers P O Q) :
    Nat → Option (Tree P O Q A) → List (Lexeme P O Q A) → Tree P O Q A → List (Lexeme P O Q A) → Prop
  | atom {m a s t r} : Climbs b m (some (.atom a)) s t r → Climbs b m none (.atom a :: s) t r
  | pre {m p s e s' t r} : Climbs b (b.pre p) none s e s' → Climbs b m (some (.pre p e)) s' t r →
      Climbs b m none (.pre p :: s) t r
  | op {m o lhs s e s' t r} : m ≤ b.left o → Climbs b (b.right o) none s e s' →
      Climbs b m (some (.op o lhs e)) s' t r → Climbs b m (some lhs) (.op o :: s) t r
  | post {m q lhs s t r} : m ≤ b.post q → Climbs b m (some (.post q lhs)) s t r →
      Climbs b m (some lhs) (.post q :: s) t r
  | stop {m lhs s} : (∀ x ∈ next s, pull b x < m) → Climbs b m (some lhs) s lhs s

namespace Climbs

variable {lhs : Option (Tree P O Q A)}

theorem deterministic (h : Climbs b m lhs s t r) (h' : Climbs b m lhs s t' r') :
    t = t' ∧ r = r' := by
  induction h generalizing t' r' with
  | atom _ ih =>
    cases h' with
    | atom h' => exact ih h'
  | pre _ _ ih₁ ih₂ =>
    cases h' with
    | pre h₁ h₂ =>
      obtain ⟨rfl, rfl⟩ := ih₁ h₁
      exact ih₂ h₂
  | op hle _ _ ih₁ ih₂ =>
    cases h' with
    | op _ h₁ h₂ =>
      obtain ⟨rfl, rfl⟩ := ih₁ h₁
      exact ih₂ h₂
    | stop hlt => exact absurd (hlt _ rfl) (Nat.not_lt.mpr hle)
  | post hle _ ih =>
    cases h' with
    | post _ h₁ => exact ih h₁
    | stop hlt => exact absurd (hlt _ rfl) (Nat.not_lt.mpr hle)
  | stop hlt =>
    cases h' with
    | op hle _ _ => exact absurd (hlt _ rfl) (Nat.not_lt.mpr hle)
    | post hle _ => exact absurd (hlt _ rfl) (Nat.not_lt.mpr hle)
    | stop _ => exact ⟨rfl, rfl⟩

/-- What is left is the end of what was there. -/
theorem suffix (h : Climbs b m lhs s t r) : r <:+ s := by
  induction h with
  | atom _ ih => exact ih.trans (suffix_cons _ _)
  | pre _ _ ih₁ ih₂ => exact (ih₂.trans ih₁).trans (suffix_cons _ _)
  | op _ _ _ ih₁ ih₂ => exact (ih₂.trans ih₁).trans (suffix_cons _ _)
  | post _ _ ih => exact ih.trans (suffix_cons _ _)
  | stop _ => exact suffix_rfl

/-- A canonical tree is read as one left operand. -/
theorem of_canonical {u : Tree P O Q A} (hu : u.Canonical b) (hpulls : u.Pulls b m)
    (hnext : ∀ x ∈ next s, u.LetsGo b x) (h : Climbs b m (some u) s t r) :
    Climbs b m none (u.spell ++ s) t r := by
  induction u generalizing m s t r with
  | atom a => exact .atom h
  | pre p u ih =>
    -- The operand ends where the whole tree ends, so the operator holds it against what follows.
    refine .pre (ih hu.1 hu.2 (fun x hx y hy => hnext x hx y (mem_cons_of_mem _ hy)) ?_) h
    exact .stop fun x hx => hnext x hx (.inl p) mem_cons_self
  | op o u v ihu ihv =>
    obtain ⟨⟨hu, hgo⟩, hv, hv'⟩ := hu
    rw [Tree.spell, append_assoc]
    refine ihu hu (fun y hy => hpulls y (mem_cons_of_mem _ hy)) ?_ ?_
    · rintro _ ⟨⟩
      exact hgo
    · refine .op (hpulls (.inl o) mem_cons_self) (ihv hv hv' ?_ ?_) h
      · exact fun x hx y hy => hnext x hx y (mem_cons_of_mem _ hy)
      · exact .stop fun x hx => hnext x hx (.inr o) mem_cons_self
  | post q u ih =>
    rw [Tree.spell, append_assoc]
    refine ih hu.1 (fun y hy => hpulls y (mem_cons_of_mem _ hy)) ?_ ?_
    · rintro _ ⟨⟩
      exact hu.2
    · exact .post (hpulls (.inr q) mem_cons_self) h

/-- A tree that can be a left operand before `s`. -/
structure Ready (b : BindingPowers P O Q) (m : Nat) (s : List (Lexeme P O Q A)) (t : Tree P O Q A) :
    Prop where
  canonical : t.Canonical b
  pulls : t.Pulls b m
  letsGo : ∀ x ∈ next s, t.LetsGo b x

/-- What is read spells what was there, it is canonical, and nothing was left that should have been
taken. -/
theorem ready (h : Climbs b m lhs s t r) (hlhs : ∀ u ∈ lhs, Ready b m s u) :
    t.spell ++ r = lhs.elim [] Tree.spell ++ s ∧ Ready b m r t ∧ ∀ x ∈ next r, pull b x < m := by
  induction h with
  | atom _ ih =>
    refine ih ?_
    rintro _ ⟨⟩
    exact ⟨trivial, fun _ hy => (by cases hy), fun _ _ _ hy => (by cases hy)⟩
  | @pre m p s e s' t r _ _ ih₁ ih₂ =>
    obtain ⟨hspell, he, hlt⟩ := ih₁ fun _ hu => (by cases hu)
    obtain ⟨hspell', hrest⟩ := ih₂ (by
      rintro _ ⟨⟩
      refine ⟨⟨he.canonical, he.pulls⟩, fun _ hy => (by cases hy), fun x hx y hy => ?_⟩
      rcases mem_cons.mp hy with rfl | hy
      · exact hlt x hx
      · exact he.letsGo x hx y hy)
    refine ⟨?_, hrest⟩
    rw [hspell', Option.elim_some, Tree.spell, cons_append, hspell]
    rfl
  | @op m o u s e s' t r hle _ _ ih₁ ih₂ =>
    have hu := hlhs u rfl
    obtain ⟨hspell, he, hlt⟩ := ih₁ fun _ hu => (by cases hu)
    obtain ⟨hspell', hrest⟩ := ih₂ (by
      rintro _ ⟨⟩
      refine ⟨⟨⟨hu.canonical, hu.letsGo _ rfl⟩, he.canonical, he.pulls⟩, fun y hy => ?_,
        fun x hx y hy => ?_⟩
      · rcases mem_cons.mp hy with rfl | hy
        · exact hle
        · exact hu.pulls y hy
      · rcases mem_cons.mp hy with rfl | hy
        · exact hlt x hx
        · exact he.letsGo x hx y hy)
    refine ⟨?_, hrest⟩
    rw [hspell', Option.elim_some, Option.elim_some, Tree.spell, append_assoc,
      cons_append, hspell]
    rfl
  | @post m q u s t r hle _ ih =>
    have hu := hlhs u rfl
    obtain ⟨hspell, hrest⟩ := ih (by
      rintro _ ⟨⟩
      refine ⟨⟨hu.canonical, hu.letsGo _ rfl⟩, fun y hy => ?_, fun _ _ _ hy => (by cases hy)⟩
      rcases mem_cons.mp hy with rfl | hy
      · exact hle
      · exact hu.pulls y hy)
    refine ⟨?_, hrest⟩
    rw [hspell, Option.elim_some, Tree.spell, append_assoc]
    rfl
  | stop hlt => exact ⟨rfl, hlhs _ rfl, hlt⟩

/-- What is read from the start is canonical. -/
theorem canonical (h : Climbs b m none s t []) : t.Canonical b ∧ t.spell = s := by
  obtain ⟨hspell, ht, -⟩ := h.ready fun _ hu => (by cases hu)
  refine ⟨ht.canonical, ?_⟩
  rw [← append_nil t.spell, hspell]
  rfl

end Climbs

/-- A canonical tree is read back from its spelling. -/
theorem Tree.Canonical.climbs (h : t.Canonical b) : Climbs b 0 none t.spell t [] := by
  rw [← append_nil t.spell]
  exact .of_canonical h (fun _ _ => zero_le _) (fun _ hx => (by cases hx))
    (.stop fun _ hx => (by cases hx))

/-- Two canonical trees with the same spelling are the same. -/
theorem Tree.Canonical.unique (h : t.Canonical b) (h' : t'.Canonical b) (hs : t.spell = t'.spell) :
    t = t' := by
  have hclimbs := h'.climbs
  rw [← hs] at hclimbs
  exact (h.climbs.deterministic hclimbs).1

/-! ## Spellings -/

/-- The lists that are spellings, from the start or behind an operand. -/
inductive Spelled : Bool → List (Lexeme P O Q A) → Prop
  | atom {a s} : Spelled true s → Spelled false (.atom a :: s)
  | pre {p s} : Spelled false s → Spelled false (.pre p :: s)
  | op {o s} : Spelled false s → Spelled true (.op o :: s)
  | post {q s} : Spelled true s → Spelled true (.post q :: s)
  | nil : Spelled true []

theorem Tree.spelled (t : Tree P O Q A) (h : Spelled true s) : Spelled false (t.spell ++ s) := by
  induction t generalizing s with
  | atom a => exact .atom h
  | pre p t ih => exact .pre (ih h)
  | op o l r ihl ihr =>
    rw [Tree.spell, append_assoc]
    exact ihl (.op (ihr h))
  | post q t ih =>
    rw [Tree.spell, append_assoc]
    exact ih (.post h)

/-- Climbing leaves what can stand behind an operand. -/
theorem Climbs.spelled {lhs : Option (Tree P O Q A)} (h : Climbs b m lhs s t r)
    (hs : Spelled lhs.isSome s) : Spelled true r := by
  induction h with
  | atom _ ih =>
    cases hs with
    | atom hs => exact ih hs
  | pre _ _ ih₁ ih₂ =>
    cases hs with
    | pre hs => exact ih₂ (ih₁ hs)
  | op _ _ _ ih₁ ih₂ =>
    cases hs with
    | op hs => exact ih₂ (ih₁ hs)
  | post _ _ ih =>
    cases hs with
    | post hs => exact ih hs
  | stop _ => exact hs

/-- Climbing does not fail on a spelling, and leaves what can stand behind an operand. -/
theorem exists_climbs_of_spelled (n : Nat) (hn : s.length ≤ n) :
    (Spelled false s → ∀ m, ∃ t r, Climbs b m none s t r ∧ Spelled true r ∧ r.length < s.length) ∧
    (Spelled true s → ∀ m lhs,
      ∃ t r, Climbs b m (some lhs) s t r ∧ Spelled true r ∧ r.length ≤ s.length) := by
  induction n generalizing s with
  | zero =>
    obtain rfl := eq_nil_of_length_eq_zero (le_zero.mp hn)
    refine ⟨fun h => (by cases h), fun h m lhs => ⟨lhs, [], ?_, h, Nat.le_refl _⟩⟩
    exact .stop fun _ hx => (by cases hx)
  | succ n ih =>
    constructor
    · intro h m
      cases h with
      | @atom a s hs =>
        obtain ⟨t, r, ht, hr, hle⟩ := (ih (le_of_succ_le_succ hn)).2 hs m (.atom a)
        exact ⟨t, r, .atom ht, hr, lt_succ_of_le hle⟩
      | @pre p s hs =>
        have hn := le_of_succ_le_succ hn
        obtain ⟨e, s', he, hs', hlt⟩ := (ih hn).1 hs (b.pre p)
        obtain ⟨t, r, ht, hr, hle⟩ := (ih (Nat.le_trans (Nat.le_of_lt hlt) hn)).2 hs' m (.pre p e)
        refine ⟨t, r, .pre he ht, hr, ?_⟩
        exact lt_succ_of_le (Nat.le_trans hle (Nat.le_of_lt hlt))
    · intro h m lhs
      cases h with
      | @op o s hs =>
        have hn := le_of_succ_le_succ hn
        by_cases hle : m ≤ b.left o
        · obtain ⟨e, s', he, hs', hlt⟩ := (ih hn).1 hs (b.right o)
          obtain ⟨t, r, ht, hr, hle'⟩ :=
            (ih (Nat.le_trans (Nat.le_of_lt hlt) hn)).2 hs' m (.op o lhs e)
          exact ⟨t, r, .op hle he ht, hr,
            le_succ_of_le (Nat.le_trans hle' (Nat.le_of_lt hlt))⟩
        · refine ⟨lhs, _, .stop ?_, .op hs, Nat.le_refl _⟩
          rintro _ ⟨⟩
          exact Nat.not_le.mp hle
      | @post q s hs =>
        by_cases hle : m ≤ b.post q
        · obtain ⟨t, r, ht, hr, hle'⟩ := (ih (le_of_succ_le_succ hn)).2 hs m (.post q lhs)
          exact ⟨t, r, .post hle ht, hr, le_succ_of_le hle'⟩
        · refine ⟨lhs, _, .stop ?_, .post hs, Nat.le_refl _⟩
          rintro _ ⟨⟩
          exact Nat.not_le.mp hle
      | nil => exact ⟨lhs, [], .stop fun _ hx => (by cases hx), .nil, Nat.le_refl _⟩

/-- Every spelling is read to its end. -/
theorem exists_climbs (b : BindingPowers P O Q) (t : Tree P O Q A) :
    ∃ t', Climbs b 0 none t.spell t' [] := by
  have hspelled := t.spelled .nil
  rw [append_nil] at hspelled
  obtain ⟨t', r, ht', hr, -⟩ :=
    (exists_climbs_of_spelled (b := b) _ (Nat.le_refl _)).1 hspelled 0
  -- What is left cannot start with an operator: none has a power below zero.
  have hstop := (ht'.ready fun _ hu => (by cases hu)).2.2
  cases hr with
  | nil => exact ⟨t', ht'⟩
  | op | post => exact absurd (hstop _ rfl) (not_lt_zero _)

end Precedence
end PostgresRs
