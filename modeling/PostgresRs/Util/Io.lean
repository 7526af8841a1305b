import Mathlib.Data.List.Basic

/-!
# Computations on files

`Io σ ε α` is a computation on a state with files: it returns or fails, and it records the states in
which it started a file operation.  A process that is stopped between two file operations leaves one
of these states behind, or the last one.

`Spec P m I Q E` is what is proved of a computation: from a state with `P` it passes only through
states with `I`, and leaves `Q` behind if it returns and `E` if it fails.  There is one rule for each
way to build a computation.
-/

namespace PostgresRs

open List

/-- What a computation did: its result, the state it left and the states it passed. -/
structure Trace (σ ε α : Type) where
  outcome : Except ε α
  state : σ
  passed : List σ

/-- The states in which the process can have been stopped. -/
def Trace.stops {σ ε α : Type} (r : Trace σ ε α) : List σ := r.passed ++ [r.state]

def Io (σ ε α : Type) : Type := σ → Trace σ ε α

namespace Io

variable {σ τ ε α β : Type}

instance : Monad (Io σ ε) where
  pure a := fun s => ⟨.ok a, s, []⟩
  bind m f := fun s =>
    match (m s).outcome with
    | .ok a =>
      let r := f a (m s).state
      { r with passed := (m s).passed ++ r.passed }
    | .error e => ⟨.error e, (m s).state, (m s).passed⟩

def fail (e : ε) : Io σ ε α := fun s => ⟨.error e, s, []⟩

/-- Compute something from the state. -/
def read (f : σ → Except ε α) : Io σ ε α := fun s => ⟨f s, s, []⟩

def get : Io σ ε σ := read .ok

/-- Change what is in memory. -/
def modify (f : σ → σ) : Io σ ε Unit := fun s => ⟨.ok (), f s, []⟩

/-- A file operation. -/
def write (f : σ → σ) : Io σ ε Unit := fun s => ⟨.ok (), f s, [s]⟩

/-- Run a computation on a part of the state that is made by `start` and belongs at `put`. -/
def within (start : σ → τ) (put : σ → τ → σ) (m : Io τ ε α) : Io σ ε α := fun s =>
  let r := m (start s)
  ⟨r.outcome, put s r.state, r.passed.map (put s)⟩

/-! ## Specifications -/

/-- From a state with `P`, a computation passes only states with `I`, and leaves `Q` if it returns and
`E` if it fails. -/
structure Spec (P : σ → Prop) (m : Io σ ε α) (I : σ → Prop) (Q : α → σ → Prop) (E : ε → σ → Prop) :
    Prop where
  passed : ∀ s, P s → ∀ x ∈ (m s).passed, I x
  ok : ∀ s a, P s → (m s).outcome = .ok a → Q a (m s).state
  error : ∀ s e, P s → (m s).outcome = .error e → E e (m s).state

variable {P P' I I' : σ → Prop} {Q : α → σ → Prop} {Q' : β → σ → Prop} {E E' : ε → σ → Prop}
variable {m : Io σ ε α} {s : σ}

variable {f : α → Io σ ε β} {a : α}

namespace Spec

theorem pure {a : α} (h : ∀ s, P s → Q a s) : Spec P (pure a : Io σ ε α) I Q E where
  passed _ _ _ hx := absurd hx not_mem_nil
  ok s b hs hb := by
    cases hb
    exact h s hs
  error _ _ _ he := by cases he

theorem fail {e : ε} (h : ∀ s, P s → E e s) : Spec P (Io.fail e : Io σ ε α) I Q E where
  passed _ _ _ hx := absurd hx not_mem_nil
  ok _ _ _ ha := by cases ha
  error s e' hs he := by
    cases he
    exact h s hs

theorem read {f : σ → Except ε α} (hok : ∀ s a, P s → f s = .ok a → Q a s)
    (herr : ∀ s e, P s → f s = .error e → E e s) : Spec P (Io.read f) I Q E where
  passed _ _ _ hx := absurd hx not_mem_nil
  ok := hok
  error := herr

theorem modify {f : σ → σ} {Q : Unit → σ → Prop} (h : ∀ s, P s → Q () (f s)) :
    Spec P (Io.modify f : Io σ ε Unit) I Q E where
  passed _ _ _ hx := absurd hx not_mem_nil
  ok s _ hs _ := h s hs
  error _ _ _ he := by cases he

theorem write {f : σ → σ} {Q : Unit → σ → Prop} (hI : ∀ s, P s → I s)
    (h : ∀ s, P s → Q () (f s)) : Spec P (Io.write f : Io σ ε Unit) I Q E where
  passed s hs x hx := by
    rw [mem_singleton.mp hx]
    exact hI s hs
  ok s _ hs _ := h s hs
  error _ _ _ he := by cases he

theorem bind (hm : Spec P m I Q E) (hf : ∀ a, Spec (Q a) (f a) I Q' E) :
    Spec P (m >>= f) I Q' E := by
  -- What follows if the first part returns.
  have hrun : ∀ s a, (m s).outcome = .ok a → (m >>= f) s =
      { f a (m s).state with passed := (m s).passed ++ (f a (m s).state).passed } := by
    intro s a ha
    show (match (m s).outcome with | .ok a => _ | .error e => _) = _
    rw [ha]
  have hfail : ∀ s e, (m s).outcome = .error e →
      (m >>= f) s = ⟨.error e, (m s).state, (m s).passed⟩ := by
    intro s e he
    show (match (m s).outcome with | .ok a => _ | .error e => _) = _
    rw [he]
  constructor
  · intro s hs x hx
    cases hres : (m s).outcome with
    | ok a =>
      rw [hrun s a hres] at hx
      rcases mem_append.mp hx with hx | hx
      · exact hm.passed s hs x hx
      · exact (hf a).passed _ (hm.ok s a hs hres) x hx
    | error e =>
      rw [hfail s e hres] at hx
      exact hm.passed s hs x hx
  · intro s b hs hb
    cases hres : (m s).outcome with
    | ok a =>
      rw [hrun s a hres] at hb ⊢
      exact (hf a).ok _ b (hm.ok s a hs hres) hb
    | error e =>
      rw [hfail s e hres] at hb
      cases hb
  · intro s e hs he
    cases hres : (m s).outcome with
    | ok a =>
      rw [hrun s a hres] at he ⊢
      exact (hf a).error _ e (hm.ok s a hs hres) he
    | error e' =>
      rw [hfail s e' hres] at he ⊢
      cases he
      exact hm.error s _ hs hres

/-- A condition that does not depend on the state. -/
theorem of_imp {p : Prop} (h : p → Spec P m I Q E) : Spec (fun s => p ∧ P s) m I Q E where
  passed s hs := (h hs.1).passed s hs.2
  ok s a hs := (h hs.1).ok s a hs.2
  error s e hs := (h hs.1).error s e hs.2

/-! A computation is run forward, one step after the other, from a single state. -/

theorem get_bind {f : σ → Io σ ε β} (h : ∀ s, P s → Spec (· = s) (f s) I Q' E) :
    Spec P (Io.get >>= f) I Q' E := by
  refine bind (Q := fun a s => a = s ∧ P s) (read ?_ ?_) fun a => ?_
  · intro s a hs ha
    cases ha
    exact ⟨rfl, hs⟩
  · intro s e _ he
    cases he
  · constructor
    · rintro s ⟨rfl, hs⟩
      exact (h a hs).passed a rfl
    · rintro s b ⟨rfl, hs⟩
      exact (h a hs).ok a b rfl
    · rintro s e ⟨rfl, hs⟩
      exact (h a hs).error a e rfl

variable {g : σ → σ}

theorem modify_bind {f : Unit → Io σ ε β} (h : Spec (· = g s) (f ()) I Q' E) :
    Spec (· = s) (Io.modify g >>= f) I Q' E :=
  bind (Q := fun _ s' => s' = g s) (modify fun _ hs => congrArg g hs) fun _ => h

theorem write_bind {f : Unit → Io σ ε β} (hI : I s) (h : Spec (· = g s) (f ()) I Q' E) :
    Spec (· = s) (Io.write g >>= f) I Q' E :=
  bind (Q := fun _ s' => s' = g s) (write (fun _ hs => hs ▸ hI) fun _ hs => congrArg g hs) fun _ => h

theorem read_bind {g : σ → Except ε α} (ha : g s = .ok a) (h : Spec (· = s) (f a) I Q' E) :
    Spec (· = s) (Io.read g >>= f) I Q' E := by
  refine bind (Q := fun b s' => b = a ∧ s' = s) (read ?_ ?_) fun b => of_imp fun hb => hb ▸ h
  · rintro s' b rfl hb
    exact ⟨Except.ok.inj (hb.symm.trans ha), rfl⟩
  · rintro s' e rfl he
    exact absurd (he.symm.trans ha) nofun

variable {Q₂ : α → σ → Prop}

/-- A weaker specification. -/
theorem imp (h : Spec P m I Q E) (hP : ∀ s, P' s → P s) (hI : ∀ s, I s → I' s)
    (hQ : ∀ a s, Q a s → Q₂ a s) (hE : ∀ e s, E e s → E' e s) : Spec P' m I' Q₂ E' where
  passed s hs x hx := hI x (h.passed s (hP s hs) x hx)
  ok s a hs ha := hQ a _ (h.ok s a (hP s hs) ha)
  error s e hs he := hE e _ (h.error s e (hP s hs) he)

/-- Another condition on the states before. -/
theorem pre (h : Spec P m I Q E) (hP : ∀ s, P' s → P s) : Spec P' m I Q E :=
  h.imp hP (fun _ h => h) (fun _ _ h => h) (fun _ _ h => h)

/-- One state at a time. -/
theorem of_forall (h : ∀ s, P s → Spec (· = s) m I Q E) : Spec P m I Q E where
  passed s hs := (h s hs).passed s rfl
  ok s a hs := (h s hs).ok s a rfl
  error s e hs := (h s hs).error s e rfl

/-- A computation on a part of the state. -/
theorem within {start : σ → τ} {put : σ → τ → σ} {m : Io τ ε α}
    (h : ∀ s, P s → Spec (· = start s) m (fun t => I (put s t)) (fun a t => Q a (put s t))
      (fun e t => E e (put s t))) : Spec P (Io.within start put m) I Q E where
  passed s hs x hx := by
    obtain ⟨t, ht, rfl⟩ := mem_map.mp hx
    exact (h s hs).passed _ rfl t ht
  ok s a hs := (h s hs).ok _ a rfl
  error s e hs := (h s hs).error _ e rfl

/-- **The rule for loops**: `R` speaks of the state and of the elements still to do. -/
theorem forM {R : List β → σ → Prop} {f : β → Io σ ε PUnit} {l : List β}
    (h : ∀ b rest, b :: rest <:+ l → Spec (R (b :: rest)) (f b) I (fun _ => R rest) E) :
    Spec (R l) (l.forM f) I (fun _ => R []) E := by
  induction l with
  | nil => exact .pure fun _ hs => hs
  | cons b rest ih =>
    refine (h b rest suffix_rfl).bind fun _ => ih fun b' rest' hsuf => ?_
    exact h b' rest' (hsuf.trans (suffix_cons b rest))

/-- Two specifications at once. -/
theorem and (h : Spec P m I Q E) (h' : Spec P' m I' Q₂ E') :
    Spec (fun s => P s ∧ P' s) m (fun s => I s ∧ I' s) (fun a s => Q a s ∧ Q₂ a s)
      (fun e s => E e s ∧ E' e s) where
  passed s hs x hx := ⟨h.passed s hs.1 x hx, h'.passed s hs.2 x hx⟩
  ok s a hs ha := ⟨h.ok s a hs.1 ha, h'.ok s a hs.2 ha⟩
  error s e hs he := ⟨h.error s e hs.1 he, h'.error s e hs.2 he⟩

end Spec

/-! The states that are passed by a sequence are those of its parts. -/

variable {x : σ}

theorem mem_passed_bind_left (h : x ∈ (m s).passed) : x ∈ ((m >>= f) s).passed := by
  show x ∈ (match (m s).outcome with | .ok a => _ | .error e => _ : Trace σ ε β).passed
  cases (m s).outcome with
  | ok a => exact mem_append_left _ h
  | error e => exact h

theorem mem_passed_bind_right (ha : (m s).outcome = .ok a) (h : x ∈ (f a (m s).state).passed) :
    x ∈ ((m >>= f) s).passed := by
  show x ∈ (match (m s).outcome with | .ok a => _ | .error e => _ : Trace σ ε β).passed
  rw [ha]
  exact mem_append_right _ h

/-- Every state in which a computation can have been stopped. -/
theorem Spec.stops (h : Spec P m I (fun _ => I) (fun _ => I)) (hs : P s) (hx : x ∈ (m s).stops) :
    I x := by
  rcases mem_append.mp hx with hx | hx
  · exact h.passed s hs x hx
  · obtain rfl := mem_singleton.mp hx
    cases hres : (m s).outcome with
    | ok a => exact h.ok s a hs hres
    | error e => exact h.error s e hs hres

/-- A computation that cannot fail returns. -/
theorem Spec.exists_ok (h : Spec P m I Q (fun _ _ => False)) (hs : P s) :
    ∃ a, (m s).outcome = .ok a ∧ Q a (m s).state := by
  cases hres : (m s).outcome with
  | ok a => exact ⟨a, rfl, h.ok s a hs hres⟩
  | error e => exact (h.error s e hs hres).elim

end Io
end PostgresRs
