import PostgresRs.Util.Fallible

/-!
# Readers that stop at a separator

A reader takes something from the front of a list, or fails.  Most readers in a hand-written lexer or
parser look ahead by an element or two, so what they read can depend on what comes after it.
`StopsAt sep p` says that this does not happen to `p` at `sep`: what `p` reads from an input it reads
as well when the input goes on with `sep`, whatever follows, and it leaves the same rest.

The property is closed under the ways readers are put together, and the readers that look at the next
element and take it if it is the right one have it as soon as `sep` is not the right one.  `Bounded`
makes a monad of the readers that have it: what is written in that monad cannot look past `sep`, and
nothing is left to prove about it.
-/

namespace PostgresRs

open List

/-- Readers of lists of `τ` that can fail with `ε`. -/
abbrev Reader (ε τ : Type) := StateT (List τ) (Except ε)

namespace Reader

variable {ε τ α β : Type} {sep : τ} {p q : Reader ε τ α} {s r : List τ} {x : α} (f : τ → Bool)

/-- Look at the next element. -/
def peekIs : Reader ε τ Bool := fun s => .ok (s.head?.any f, s)

/-- Take the next element if it satisfies `f`. -/
def eatIf : Reader ε τ Bool
  | [] => .ok (false, [])
  | a :: s => if f a then .ok (true, s) else .ok (false, a :: s)

/-- Take the next element and convert it; fail if there is none or it cannot be converted. -/
def takeMap (f : τ → Option α) (err : Option τ → ε) : Reader ε τ α
  | [] => .error (err none)
  | a :: s =>
    match f a with
    | some x => .ok (x, s)
    | none => .error (err (some a))

/-- Take elements as long as they satisfy `f`. -/
def takeWhile : Reader ε τ (List τ) := fun s => .ok (s.takeWhile f, s.dropWhile f)

/-- Skip elements up to one that satisfies `f`, and that one. -/
def skipPast (f : τ → Bool) (err : ε) : Reader ε τ Unit
  | [] => .error err
  | a :: s => if f a then .ok ((), s) else skipPast f err s

/-- Read with `p`, and return the elements it took as well. -/
def withTaken (p : Reader ε τ α) : Reader ε τ (α × List τ) := fun s =>
  (p.run s).map fun (x, r) => ((x, s.take (s.length - r.length)), r)

/-- Read with `p` until it finds nothing more, at most `fuel` times. -/
def manyUpTo (p : Reader ε τ (Option α)) : Nat → Reader ε τ (List α)
  | 0 => pure []
  | fuel + 1 => do
    match ← p with
    | none => return []
    | some x => return x :: (← manyUpTo p fuel)

/-- Read with `p` until it finds nothing more.  A `p` that takes something whenever it finds something
never runs out of fuel. -/
def many (p : Reader ε τ (Option α)) : Reader ε τ (List α) := fun s =>
  (manyUpTo p (s.length + 1)).run s

/-- Take the next element, if there is one. -/
def advance : Reader ε τ (Option τ)
  | [] => .ok (none, [])
  | a :: s => .ok (some a, s)

/-- Extend `x` by what `p` reads until it finds nothing more, at most `fuel` times. -/
def extendUpTo (p : α → Reader ε τ (Option α)) : Nat → α → Reader ε τ α
  | 0, x => pure x
  | fuel + 1, x => do
    match ← p x with
    | none => return x
    | some y => extendUpTo p fuel y

/-- Extend `x` by what `p` reads until it finds nothing more. -/
def extend (p : α → Reader ε τ (Option α)) (x : α) : Reader ε τ α := fun s =>
  (extendUpTo p (s.length + 1) x).run s

@[simp] theorem run_peekIs (s : List τ) :
    (peekIs f : Reader ε τ Bool).run s = .ok (s.head?.any f, s) := rfl

@[simp] theorem run_eatIf_cons (a : τ) (s : List τ) :
    (eatIf f : Reader ε τ Bool).run (a :: s) = if f a then .ok (true, s) else .ok (false, a :: s) :=
  rfl

@[simp] theorem run_takeMap_cons (f : τ → Option α) (err : Option τ → ε) (a : τ) (s : List τ) :
    (takeMap f err).run (a :: s) =
      match f a with
      | some x => .ok (x, s)
      | none => .error (err (some a)) := rfl

@[simp] theorem run_takeWhile (s : List τ) :
    (takeWhile f : Reader ε τ (List τ)).run s = .ok (s.takeWhile f, s.dropWhile f) := rfl

theorem run_bind_of_eq_ok {f : α → Reader ε τ β} (h : p.run s = .ok (x, r)) :
    (p >>= f).run s = (f x).run r := by
  rw [StateT.run_bind, h]
  rfl

/-- A successful run of two readers is one of each. -/
theorem exists_of_run_bind {f : α → Reader ε τ β} {y : β} (h : (p >>= f).run s = .ok (y, r)) :
    ∃ x r', p.run s = .ok (x, r') ∧ (f x).run r' = .ok (y, r) := by
  rw [StateT.run_bind] at h
  cases hr : p.run s with
  | error e =>
    rw [hr] at h
    cases h
  | ok v =>
    rw [hr] at h
    exact ⟨v.1, v.2, rfl, h⟩

/-- `p` takes from the front only, and what it reads does not depend on what follows a `sep`. -/
structure StopsAt (sep : τ) (p : Reader ε τ α) : Prop where
  consumes : ∀ {s x r}, p.run s = .ok (x, r) → r.length ≤ s.length
  stops : ∀ {s x r}, p.run s = .ok (x, r) →
    ∀ rest, p.run (s ++ sep :: rest) = .ok (x, r ++ sep :: rest)

/-- `StopsAt` for one input. -/
def StopsOn (sep : τ) (p : Reader ε τ α) (s : List τ) : Prop :=
  ∀ x r, p.run s = .ok (x, r) → r.length ≤ s.length ∧
    ∀ rest, p.run (s ++ sep :: rest) = .ok (x, r ++ sep :: rest)

/-- A reader that takes some elements and then goes on as before. -/
theorem StopsOn.map {u : List τ} {f : α → α} (h : StopsOn sep p s)
    (hp : ∀ s', p.run (u ++ s') = (p.run s').map fun (x, r) => (f x, r))
    (hy : ((p.run s).map fun (x, r) => (f x, r)) = .ok (x, r)) : r.length ≤ (u ++ s).length ∧
      ∀ rest, p.run (u ++ s ++ sep :: rest) = .ok (x, r ++ sep :: rest) := by
  obtain ⟨⟨x, r'⟩, hx, ⟨⟩⟩ := of_map_eq_ok hy
  obtain ⟨hlen, hstops⟩ := h x _ hx
  refine ⟨by rw [length_append]; omega, fun rest => ?_⟩
  rw [append_assoc, hp, hstops]
  rfl

namespace StopsAt

theorem of_forall (h : ∀ s, StopsOn sep p s) : StopsAt sep p :=
  ⟨fun hs => (h _ _ _ hs).1, fun hs => (h _ _ _ hs).2⟩

theorem pure (x : α) : StopsAt sep (Pure.pure x : Reader ε τ α) := by
  refine .of_forall ?_
  rintro s _ _ ⟨⟩
  exact ⟨Nat.le_refl _, fun _ => rfl⟩

theorem throw (e : ε) : StopsAt sep (throw e : Reader ε τ α) :=
  ⟨fun h => (by cases h), fun h => (by cases h)⟩

theorem bind {f : α → Reader ε τ β} (hp : StopsAt sep p) (hf : ∀ x, StopsAt sep (f x)) :
    StopsAt sep (p >>= f) := by
  refine .of_forall fun s y r h => ?_
  obtain ⟨x, r', hx, hy⟩ := exists_of_run_bind h
  refine ⟨Nat.le_trans ((hf x).consumes hy) (hp.consumes hx), fun rest => ?_⟩
  rw [StateT.run_bind, hp.stops hx]
  exact (hf x).stops hy rest

theorem ite {c : Prop} [Decidable c] (hp : StopsAt sep p) (hq : StopsAt sep q) :
    StopsAt sep (if c then p else q) := by
  split
  · exact hp
  · exact hq

variable {f : τ → Bool}

theorem peekIs (hsep : f sep = false) : StopsAt sep (peekIs f : Reader ε τ Bool) := by
  refine .of_forall ?_
  rintro s _ _ ⟨⟩
  refine ⟨Nat.le_refl _, fun rest => ?_⟩
  cases s with
  | nil => simp [hsep]
  | cons a s => rfl

theorem eatIf (hsep : f sep = false) : StopsAt sep (eatIf f : Reader ε τ Bool) := by
  refine .of_forall fun s b r h => ?_
  cases s with
  | nil =>
    cases h
    exact ⟨Nat.le_refl _, fun _ => by simp [hsep]⟩
  | cons a s =>
    simp only [cons_append, run_eatIf_cons] at h ⊢
    split at h
    · next ha =>
      cases h
      exact ⟨Nat.le_succ _, fun _ => if_pos ha⟩
    · next ha =>
      cases h
      exact ⟨Nat.le_refl _, fun _ => if_neg ha⟩

theorem takeMap (f : τ → Option α) (err : Option τ → ε) : StopsAt sep (takeMap f err) := by
  refine .of_forall fun s y r h => ?_
  cases s with
  | nil => cases h
  | cons a s =>
    simp only [cons_append, run_takeMap_cons] at h ⊢
    split at h
    · cases h
      exact ⟨Nat.le_succ _, fun _ => rfl⟩
    · cases h

theorem takeWhile (hsep : f sep = false) : StopsAt sep (takeWhile f : Reader ε τ (List τ)) := by
  refine .of_forall ?_
  rintro s _ _ ⟨⟩
  refine ⟨(dropWhile_suffix f).length_le, fun rest => ?_⟩
  have hboth : (s ++ sep :: rest).takeWhile f = s.takeWhile f ∧
      (s ++ sep :: rest).dropWhile f = s.dropWhile f ++ sep :: rest := by
    induction s with
    | nil => simp [hsep]
    | cons a s ih =>
      by_cases ha : f a = true
      · simp [ha, ih]
      · simp [ha]
  rw [run_takeWhile, hboth.1, hboth.2]

theorem skipPast (f : τ → Bool) (err : ε) : StopsAt sep (skipPast f err) := by
  refine .of_forall fun s u r h => ?_
  simp only [StateT.run] at h ⊢
  induction s with
  | nil => cases h
  | cons a s ih =>
    rw [Reader.skipPast] at h
    split at h
    · next ha =>
      cases h
      refine ⟨Nat.le_succ _, fun rest => ?_⟩
      rw [cons_append, Reader.skipPast, if_pos ha]
    · next ha =>
      obtain ⟨hlen, happ⟩ := ih h
      refine ⟨Nat.le_succ_of_le hlen, fun rest => ?_⟩
      rw [cons_append, Reader.skipPast, if_neg ha, happ]

theorem withTaken (hp : StopsAt sep p) : StopsAt sep (withTaken p) := by
  refine .of_forall fun s y r h => ?_
  obtain ⟨⟨x, r'⟩, hx, ⟨⟩⟩ := of_map_eq_ok h
  refine ⟨hp.consumes hx, fun rest => ?_⟩
  have hcount : (s ++ sep :: rest).length - (r ++ sep :: rest).length = s.length - r.length := by
    simp only [length_append, length_cons]
    omega
  change ((p.run (s ++ sep :: rest)).map _ : Except ε _) = _
  rw [hp.stops hx]
  change Except.ok ((x, (s ++ sep :: rest).take _), r ++ sep :: rest) = _
  rw [hcount, take_append_of_le_length (Nat.sub_le _ _)]

theorem manyUpTo {p : Reader ε τ (Option α)} (hp : StopsAt sep p) (fuel : Nat) :
    StopsAt sep (manyUpTo p fuel) := by
  induction fuel with
  | zero => exact .pure _
  | succ fuel ih =>
    refine .bind hp fun x => ?_
    cases x with
    | none => exact .pure _
    | some x => exact .bind ih fun _ => .pure _

end StopsAt

/-- `p` takes something whenever it finds something. -/
def Advances (p : Reader ε τ (Option α)) : Prop :=
  ∀ {s x r}, p.run s = .ok (some x, r) → r.length < s.length

/-- Two numbers of repetitions make no difference when both exceed the length of the input. -/
theorem run_manyUpTo {p : Reader ε τ (Option α)} (hp : Advances p) {n m : Nat}
    (hn : s.length < n) (hm : s.length < m) : (manyUpTo p n).run s = (manyUpTo p m).run s := by
  induction n generalizing s m with
  | zero => omega
  | succ n ih =>
    obtain ⟨m, rfl⟩ : ∃ k, m = k + 1 := ⟨m - 1, by omega⟩
    rw [manyUpTo, manyUpTo, StateT.run_bind, StateT.run_bind]
    rcases hr : p.run s with e | ⟨_ | x, r⟩
    · rfl
    · rfl
    · have hlt := hp hr
      have hrest := ih (s := r) (m := m) (by omega) (by omega)
      change (do pure (x :: (← manyUpTo p n)) : Reader ε τ (List α)).run r =
        (do pure (x :: (← manyUpTo p m)) : Reader ε τ (List α)).run r
      rw [StateT.run_bind, StateT.run_bind, hrest]

theorem StopsAt.many {p : Reader ε τ (Option α)} (hp : StopsAt sep p) (hadv : Advances p) :
    StopsAt sep (many p) := by
  constructor
  · intro s x r h
    exact (StopsAt.manyUpTo hp _).consumes h
  · intro s x r h rest
    have hlong := (StopsAt.manyUpTo hp ((s ++ sep :: rest).length + 1)).stops (s := s) (x := x)
      (r := r) (by
        rw [run_manyUpTo hadv (m := s.length + 1)
          (by rw [length_append]; omega) (by omega)]
        exact h) rest
    exact hlong

end Reader

/-! ## Bounded readers -/

open Reader

/-- A test on elements that the separator fails. -/
def Test {τ : Type} (sep : τ) : Type := {f : τ → Bool // f sep = false}

/-- A reader together with the proof that it stops at `sep`. -/
def Bounded (ε : Type) {τ : Type} (sep : τ) (α : Type) : Type :=
  {p : Reader ε τ α // StopsAt sep p}

namespace Bounded

variable {ε τ α β : Type} {sep : τ}

instance : Monad (Bounded ε sep) where
  pure x := ⟨pure x, .pure x⟩
  bind p f := ⟨p.1 >>= fun x => (f x).1, .bind p.2 fun x => (f x).2⟩

def run (p : Bounded ε sep α) (s : List τ) : Except ε (α × List τ) := p.1.run s

def fail (e : ε) : Bounded ε sep α := ⟨throw e, .throw e⟩

def peekIs (f : Test sep) : Bounded ε sep Bool := ⟨Reader.peekIs f.1, .peekIs f.2⟩

def eatIf (f : Test sep) : Bounded ε sep Bool := ⟨Reader.eatIf f.1, .eatIf f.2⟩

def takeMap (f : τ → Option α) (err : Option τ → ε) : Bounded ε sep α :=
  ⟨Reader.takeMap f err, .takeMap f err⟩

def takeWhile (f : Test sep) : Bounded ε sep (List τ) := ⟨Reader.takeWhile f.1, .takeWhile f.2⟩

def skipPast (f : τ → Bool) (err : ε) : Bounded ε sep Unit :=
  ⟨Reader.skipPast f err, .skipPast f err⟩

def withTaken (p : Bounded ε sep α) : Bounded ε sep (α × List τ) :=
  ⟨Reader.withTaken p.1, .withTaken p.2⟩

/-- If the next element passes one of the tests, take it and go on with the reader of the first such
test. -/
def choose : List (Test sep × Bounded ε sep α) → Bounded ε sep (Option α)
  | [] => pure none
  | (f, p) :: arms => do if ← eatIf f then return some (← p) else choose arms

theorem advances_choose (arms : List (Test sep × Bounded ε sep α)) : Advances (choose arms).1 := by
  intro s x r h
  induction arms with
  | nil => cases h
  | cons arm arms ih =>
    obtain ⟨b, r', hb, hr⟩ := exists_of_run_bind h
    cases s with
    | nil =>
      cases hb
      exact ih hr
    | cons a s =>
      rw [eatIf, run_eatIf_cons] at hb
      split at hb
      · cases hb
        obtain ⟨y, r'', hy, ⟨⟩⟩ := exists_of_run_bind hr
        exact Nat.lt_succ_of_le (arm.2.2.consumes hy)
      · cases hb
        exact ih hr

/-- `choose` until none of the tests is passed. -/
def many (arms : List (Test sep × Bounded ε sep α)) : Bounded ε sep (List α) :=
  ⟨Reader.many (choose arms).1, .many (choose arms).2 (advances_choose arms)⟩

end Bounded
end PostgresRs
