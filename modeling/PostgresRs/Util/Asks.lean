import Mathlib.Data.List.Basic

/-!
# Computations that ask

A computation ends with a result or a failure, or asks a question and goes on with the answer.  It can
be run with answers that are given once and for all (`result`), or on a state that answers and may
change with every question (`run`).  Only the questions that come up (`reached`) matter for what it
gives (`result_congr`, `run_eq`).  What holds whatever the answers are (`Always`) holds of every run.
-/

namespace PostgresRs

/-- Computations with questions `ε`, answers `ρ` and failures `φ`. -/
inductive Asks (ε ρ φ α : Type) where
  | done (result : Except φ α)
  | ask (question : ε) (go : ρ → Asks ε ρ φ α)

namespace Asks

variable {ε ρ φ α β σ : Type}

def bind : Asks ε ρ φ α → (α → Asks ε ρ φ β) → Asks ε ρ φ β
  | done (.ok a), f => f a
  | done (.error e), _ => done (.error e)
  | ask q go, f => ask q fun r => (go r).bind f

instance : Monad (Asks ε ρ φ) where
  pure a := done (.ok a)
  bind := bind

section

variable (answer : ε → ρ)

/-- What comes out when the questions are answered as given. -/
def result : Asks ε ρ φ α → Except φ α
  | done r => r
  | ask q go => (go (answer q)).result

/-- The questions that come up. -/
def reached : Asks ε ρ φ α → List ε
  | done _ => []
  | ask q go => q :: (go (answer q)).reached

end

/-- What comes out of a run on a state. -/
def run (handle : σ → ε → ρ × σ) : σ → Asks ε ρ φ α → Except φ α × σ
  | s, done r => (r, s)
  | s, ask q go => (go (handle s q).1).run handle (handle s q).2

/-- The result has a property whatever the answers are, among those that may be given. -/
def Always (may : ρ → Prop) (P : Except φ α → Prop) : Asks ε ρ φ α → Prop
  | done r => P r
  | ask _ go => ∀ r, may r → (go r).Always may P

variable {answer answer' : ε → ρ} {x : Asks ε ρ φ α}

theorem result_bind (f : α → Asks ε ρ φ β) :
    (x >>= f).result answer = x.result answer >>= fun a => (f a).result answer := by
  change (x.bind f).result answer = _
  induction x with
  | done r => cases r <;> rfl
  | ask q go ih => exact ih (answer q)

theorem reached_bind (f : α → Asks ε ρ φ β) : (x >>= f).reached answer = x.reached answer ++
    match x.result answer with
    | .ok a => (f a).reached answer
    | .error _ => [] := by
  change (x.bind f).reached answer = _
  induction x with
  | done r => cases r <;> rfl
  | ask q go ih => exact congrArg (q :: ·) (ih (answer q))

/-- Answers to questions that do not come up do not matter. -/
theorem result_congr (h : ∀ q ∈ x.reached answer, answer' q = answer q) :
    x.result answer' = x.result answer := by
  induction x with
  | done r => rfl
  | ask q go ih =>
    obtain ⟨hq, hrest⟩ := List.forall_mem_cons.mp h
    rw [result, result, hq]
    exact ih _ hrest

/-- A state that answers as given, and stays as it is, gives the result and stays as it is. -/
theorem run_eq {handle : σ → ε → ρ × σ} {s : σ}
    (h : ∀ q ∈ x.reached answer, handle s q = (answer q, s)) :
    x.run handle s = (x.result answer, s) := by
  induction x with
  | done r => rfl
  | ask q go ih =>
    obtain ⟨hq, hrest⟩ := List.forall_mem_cons.mp h
    rw [run, hq]
    exact ih _ hrest

section Always

variable {may : ρ → Prop} {P : Except φ α → Prop}

theorem Always.bind {f : α → Asks ε ρ φ β} {Q : Except φ β → Prop} (hx : x.Always may P)
    (herror : ∀ e, P (.error e) → Q (.error e)) (hf : ∀ a, (f a).Always may Q) :
    (x >>= f).Always may Q := by
  change (x.bind f).Always may Q
  induction x with
  | done r =>
    cases r with
    | ok a => exact hf a
    | error e => exact herror e hx
  | ask q go ih => exact fun r hr => ih r (hx r hr)

theorem Always.run {handle : σ → ε → ρ × σ} (hx : x.Always may P)
    (hmay : ∀ s q, may (handle s q).1) (s : σ) : P (x.run handle s).1 := by
  induction x generalizing s with
  | done r => exact hx
  | ask q go ih => exact ih _ (hx _ (hmay s q)) _

end Always

end Asks
end PostgresRs
