import Mathlib.Data.List.Basic

/-!
# Runs of a deterministic machine

A machine is a function `step : σ → ε → σ` from a state and an event to the next state; all the
nondeterminism of a concurrent system sits in the list of events.  This file has the two notions
every safety argument below is phrased with.

* `run step s es` — the state reached from `s` by the events `es`.
* `Always step C s es` — the condition `C` holds of every step of that run, that is of every pair
  of a state passed through and the event taken there.

The induction over a run is done here once: `run_induction` turns a step lemma into a run lemma,
and `Always.run_induction` does the same for a step lemma that needs the side condition `C`.
-/

namespace PostgresRs.Machine

variable {σ ε : Type*} {step : σ → ε → σ} {C D : σ → ε → Prop} {s : σ} {e : ε} {es : List ε}

/-- The state reached from `s` by the events `es`, in order. -/
def run (step : σ → ε → σ) (s : σ) : List ε → σ
  | [] => s
  | e :: es => run step (step s e) es

@[simp] theorem run_nil : run step s [] = s := rfl

@[simp] theorem run_cons : run step s (e :: es) = run step (step s e) es := rfl

variable {es' : List ε}

theorem run_append : run step s (es ++ es') = run step (run step s es) es' := by
  induction es generalizing s with
  | nil => rfl
  | cons e es ih => exact ih

/-- `C` holds of every step of the run of `es` from `s`. -/
def Always (step : σ → ε → σ) (C : σ → ε → Prop) (s : σ) : List ε → Prop
  | [] => True
  | e :: es => C s e ∧ Always step C (step s e) es

@[simp] theorem always_nil : Always step C s [] := trivial

@[simp] theorem always_cons :
    Always step C s (e :: es) ↔ C s e ∧ Always step C (step s e) es := Iff.rfl

theorem always_append :
    Always step C s (es ++ es') ↔ Always step C s es ∧ Always step C (run step s es) es' := by
  induction es generalizing s with
  | nil => exact (and_iff_right trivial).symm
  | cons e es ih => rw [List.cons_append, always_cons, ih, always_cons, run_cons, and_assoc]

instance Always.decidable [∀ s e, Decidable (C s e)] :
    ∀ (s : σ) (es : List ε), Decidable (Always step C s es)
  | _, [] => isTrue trivial
  | s, e :: es =>
    have := Always.decidable (step s e) es
    inferInstanceAs (Decidable (C s e ∧ Always step C (step s e) es))

theorem Always.mono (h : Always step C s es) (hCD : ∀ s e, C s e → D s e) :
    Always step D s es := by
  induction es generalizing s with
  | nil => trivial
  | cons e es ih => exact ⟨hCD _ _ h.1, ih h.2⟩

variable {I : σ → Prop}

/-- **The run rule under a side condition**: what holds at the start and is preserved by every
step that meets `C` holds at the end of a run all of whose steps meet `C`. -/
theorem Always.run_induction (h : Always step C s es) (h0 : I s)
    (hstep : ∀ s e, I s → C s e → I (step s e)) : I (run step s es) := by
  induction es generalizing s with
  | nil => exact h0
  | cons e es ih => exact ih h.2 (hstep _ _ h0 h.1)

/-- What an invariant of the run gives at every step that meets `C` holds of all its steps. -/
theorem Always.of_invariant (h : Always step C s es) (h0 : I s)
    (hstep : ∀ s e, I s → C s e → D s e ∧ I (step s e)) : Always step D s es := by
  induction es generalizing s with
  | nil => trivial
  | cons e es ih =>
    obtain ⟨hD, hI⟩ := hstep s e h0 h.1
    exact ⟨hD, ih h.2 hI⟩

/-- **The run rule**: what holds at the start and is preserved by every step holds at the end. -/
theorem run_induction (es : List ε) (h0 : I s) (hstep : ∀ s e, I s → I (step s e)) :
    I (run step s es) := by
  induction es generalizing s with
  | nil => exact h0
  | cons e es ih => exact ih (hstep _ _ h0)

/-- The run rule for events of one kind, which say something of every step as well. -/
theorem always_and_run_of_mem (h0 : I s) (hstep : ∀ e ∈ es, ∀ s, I s → C s e ∧ I (step s e)) :
    Always step C s es ∧ I (run step s es) := by
  induction es generalizing s with
  | nil => exact ⟨trivial, h0⟩
  | cons e es ih =>
    obtain ⟨hC, hI⟩ := hstep e (.head _) s h0
    obtain ⟨hall, hend⟩ := ih hI fun e' he' => hstep e' (.tail _ he')
    exact ⟨⟨hC, hall⟩, hend⟩

end PostgresRs.Machine
