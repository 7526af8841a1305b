import Mathlib.Order.Lattice

/-!
# Three-valued logic

Kleene's strong logic of the truth values true, false and unknown, with disjunctions and conjunctions
of lists, and the comparisons of a linear order.
-/

namespace PostgresRs

inductive Truth where
  | true | false | unknown
deriving DecidableEq, Repr

namespace Truth

def ofBool (b : Bool) : Truth := if b then true else false

def not : Truth → Truth
  | true => false
  | false => true
  | unknown => unknown

def and : Truth → Truth → Truth
  | false, _ => false
  | _, false => false
  | true, true => true
  | _, _ => unknown

def or : Truth → Truth → Truth
  | true, _ => true
  | _, true => true
  | false, false => false
  | _, _ => unknown

/-- The disjunction of a list. -/
def any (ts : List Truth) : Truth := ts.foldr or false

/-- The conjunction of a list. -/
def all (ts : List Truth) : Truth := ts.foldr and true

/-- A truth value or its negation. -/
def negateIf (negated : Bool) (t : Truth) : Truth := if negated then t.not else t

theorem any_cons (t : Truth) (ts : List Truth) : any (t :: ts) = t.or (any ts) := rfl

theorem all_cons (t : Truth) (ts : List Truth) : all (t :: ts) = t.and (all ts) := rfl

theorem any_eq_unknown {ts : List Truth} (hne : ts ≠ []) (h : ∀ t ∈ ts, t = unknown) :
    any ts = unknown := by
  induction ts with
  | nil => exact absurd rfl hne
  | cons t ts ih =>
    obtain ⟨rfl, hts⟩ := List.forall_mem_cons.mp h
    rw [any_cons]
    cases ts with
    | nil => rfl
    | cons u ts =>
      rw [ih (List.cons_ne_nil u ts) hts]
      rfl

theorem all_eq_unknown {ts : List Truth} (hne : ts ≠ []) (h : ∀ t ∈ ts, t = unknown) :
    all ts = unknown := by
  induction ts with
  | nil => exact absurd rfl hne
  | cons t ts ih =>
    obtain ⟨rfl, hts⟩ := List.forall_mem_cons.mp h
    rw [all_cons]
    cases ts with
    | nil => rfl
    | cons u ts =>
      rw [ih (List.cons_ne_nil u ts) hts]
      rfl

end Truth

/-- The comparisons of an order. -/
inductive Comparison where
  | eq | notEq | lt | ltEq | gt | gtEq
deriving DecidableEq, Repr

namespace Comparison

/-- Whether a comparison holds. -/
def test {α : Type} [LinearOrder α] : Comparison → α → α → Bool
  | eq, a, b => decide (a = b)
  | notEq, a, b => decide (a ≠ b)
  | lt, a, b => decide (a < b)
  | ltEq, a, b => decide (a ≤ b)
  | gt, a, b => decide (b < a)
  | gtEq, a, b => decide (b ≤ a)

end Comparison
end PostgresRs
