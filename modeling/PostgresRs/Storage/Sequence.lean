import Mathlib.Data.List.AList
import Mathlib.Data.List.Induction
import Mathlib.Data.Int.ModEq
import PostgresRs.Util.Run

/-!
# Sequences

The sequences that number the rows of `serial` columns (`engine/src/storage.rs`).  A sequence keeps
the last value together with a flag that it was called: before the first call the last value is the
one to come.  `finish_insert_row` draws a value for a row that gives none, and shows the sequence
the value of a row that gives one.

`neverRepeats_iff` says exactly when no value comes that was there before.  The flag is not set by
an explicit value that equals the start, so that the first value drawn repeats it (`repeats_start`).
-/

namespace PostgresRs.Storage

open List

structure Sequence where
  name : String
  start : Int
  increment : Int
  lastValue : Int
  called : Bool
deriving DecidableEq, Repr

namespace Sequence

def new (name : String) (start increment : Int) : Sequence :=
  { name, start, increment, lastValue := start, called := false }

/-- The sum of two `i64`, which wraps around. -/
def addI64 (a b : Int) : Int := (a + b).bmod (2 ^ 64)

def nextValue (s : Sequence) : Int × Sequence :=
  let s := if s.called then { s with lastValue := addI64 s.lastValue s.increment }
    else { s with called := true }
  (s.lastValue, s)

end Sequence

/-- The sequences of a database by name. -/
abbrev Sequences := AList fun _ : String => Sequence

namespace Sequences

variable (db : Sequences) (key : String)

/-- A sequence that starts with one if there is none of the name. -/
def entry : Sequence := (db.lookup key).getD (.new key 1 1)

def nextSequence : Int × Sequences :=
  let (value, s) := (db.entry key).nextValue
  (value, db.insert key s)

def observeSequence (value : Int) : Sequences :=
  let s := db.entry key
  db.insert key (if s.lastValue < value then { s with lastValue := value, called := true } else s)

/-! ## Runs -/

/-- What an `INSERT` does for a `serial` column: draw a value, or show the one that is given. -/
inductive Op where
  | next
  | observe (value : Int)
deriving DecidableEq, Repr

def step (db : Sequences) : Op → Sequences
  | .next => (db.nextSequence key).2
  | .observe value => db.observeSequence key value

/-- The value that is drawn or given. -/
def value : Op → Int
  | .next => (db.nextSequence key).1
  | .observe value => value

/-- All values that are drawn or given, in order. -/
def values (db : Sequences) : List Op → List Int
  | [] => []
  | op :: ops => db.value key op :: values (step key db op) ops

/-- Every value drawn in the run is new: none drawn or given before equals it. -/
def NeverRepeats (ops : List Op) : Prop :=
  ∀ before after, ops = before ++ .next :: after →
    (Machine.run (step key) db before).value key .next ∉ db.values key before

/-- Only values up to the start are given. -/
def Unused (ops : List Op) : Prop := ∀ op ∈ ops, ∃ v ≤ 1, op = .observe v

/-- The start is given before the first value is drawn, and nothing greater. -/
def StartTaken (ops : List Op) : Prop :=
  ∃ before after, ops = before ++ .next :: after ∧ Unused before ∧ .observe 1 ∈ before

variable {db key}

theorem entry_insert (s : Sequence) : entry (db.insert key s) key = s := by
  rw [entry, AList.lookup_insert]
  rfl

theorem entry_step (op : Op) : (step key db op).entry key = match op with
    | .next => (db.entry key).nextValue.2
    | .observe v => if (db.entry key).lastValue < v
        then { db.entry key with lastValue := v, called := true } else db.entry key := by
  cases op <;> exact entry_insert _

theorem values_append (before after : List Op) : db.values key (before ++ after) =
    db.values key before ++ (Machine.run (step key) db before).values key after := by
  induction before generalizing db with
  | nil => rfl
  | cons op before ih => exact congrArg (_ :: ·) ih

variable {ops : List Op}

/-- What is given up to the start leaves the sequence as it is. -/
theorem entry_of_unused (h : Unused ops) :
    (Machine.run (step key) ∅ ops).entry key = .new key 1 1 ∧
      ∀ v, v ∈ values key ∅ ops ↔ .observe v ∈ ops := by
  have hrun : ∀ {db : Sequences}, db.entry key = .new key 1 1 →
      (Machine.run (step key) db ops).entry key = .new key 1 1 ∧
        ∀ v, v ∈ db.values key ops ↔ .observe v ∈ ops := by
    induction ops with
    | nil => exact fun hdb => ⟨hdb, fun v => iff_of_false not_mem_nil not_mem_nil⟩
    | cons op ops ih =>
      intro db hdb
      obtain ⟨⟨w, hw, rfl⟩, hops⟩ := forall_mem_cons.mp h
      have hstep : (step key db (.observe w)).entry key = .new key 1 1 := by
        rw [entry_step, hdb]
        exact if_neg hw.not_gt
      obtain ⟨hentry, hvalues⟩ := ih hops hstep
      refine ⟨hentry, fun v => ?_⟩
      rw [values, mem_cons, mem_cons, hvalues v, Op.observe.injEq]
      rfl
  exact hrun rfl

/-- **A sequence in use**: its last value was drawn or given, and none was greater. -/
structure InUse (s : Sequence) (seen : List Int) : Prop where
  called : s.called = true
  increment : s.increment = 1
  pos : 1 ≤ s.lastValue
  mem : s.lastValue ∈ seen
  le : ∀ v ∈ seen, v ≤ s.lastValue

theorem addI64_one {a : Int} (hpos : 1 ≤ a) (hlt : a < 2 ^ 63 - 1) :
    Sequence.addI64 a 1 = a + 1 := by
  exact Int.bmod_eq_of_le_mul_two (by omega) (by omega)

variable {seen : List Int} {s : Sequence}

/-- The next value of a sequence in use is greater than all before. -/
theorem InUse.nextValue (h : InUse s seen) (hlt : ∀ v ∈ seen, v < 2 ^ 63 - 1) :
    s.nextValue.1 = s.lastValue + 1 ∧
      InUse s.nextValue.2 (seen ++ [s.nextValue.1]) := by
  have hvalue : s.nextValue = (s.lastValue + 1, { s with lastValue := s.lastValue + 1 }) := by
    rw [Sequence.nextValue, if_pos h.called, h.increment, addI64_one h.pos (hlt _ h.mem)]
  rw [hvalue]
  refine ⟨rfl, h.called, h.increment, Int.le_add_one h.pos, mem_append_right _ (.head _),
    forall_mem_append.mpr ⟨fun v hv => Int.le_add_one (h.le v hv), ?_⟩⟩
  exact forall_mem_singleton.mpr le_rfl

/-- A value is given to a sequence that has seen none greater than its last one. -/
theorem inUse_observe {v : Int} (hincrement : s.increment = 1) (hpos : 1 ≤ s.lastValue)
    (hle : ∀ w ∈ seen, w ≤ s.lastValue) (hlt : s.lastValue < v) :
    InUse { s with lastValue := v, called := true } (seen ++ [v]) where
  called := rfl
  increment := hincrement
  pos := hpos.trans hlt.le
  mem := mem_append_right _ (.head _)
  le := forall_mem_append.mpr
    ⟨fun w hw => (hle w hw).trans hlt.le, forall_mem_singleton.mpr le_rfl⟩

/-- **Along every run** a sequence is as it was at the start, or in use. -/
theorem unused_or_inUse (hlt : ∀ v ∈ values key ∅ ops, v < 2 ^ 63 - 1) :
    Unused ops ∨ InUse ((Machine.run (step key) ∅ ops).entry key) (values key ∅ ops) := by
  -- By induction from the right: one operation after a run.
  induction ops using List.reverseRecOn with
  | nil => exact .inl nofun
  | append_singleton ops op ih =>
    rw [values_append, Machine.run_append] at *
    have hbefore : ∀ v ∈ values key ∅ ops, v < 2 ^ 63 - 1 := fun v hv =>
      hlt v (mem_append_left _ hv)
    rw [Machine.run_cons, Machine.run_nil, entry_step]
    rcases ih hbefore with hunused | huse
    · obtain ⟨hentry, hvalues⟩ := @entry_of_unused key ops hunused
      have hle : ∀ v ∈ values key ∅ ops, v ≤ 1 := by
        intro v hv
        obtain ⟨w, hw, heq⟩ := hunused _ ((hvalues v).mp hv)
        exact Op.observe.inj heq ▸ hw
      cases op with
      | next =>
        refine .inr ?_
        have hvalue : (Machine.run (step key) ∅ ops).value key .next = 1 := by
          rw [value, nextSequence, hentry]
          rfl
        rw [values, hvalue, hentry]
        exact ⟨rfl, rfl, le_rfl, mem_append_right _ (.head _),
          forall_mem_append.mpr ⟨hle, forall_mem_singleton.mpr le_rfl⟩⟩
      | observe v =>
        rcases le_or_gt v 1 with hv | hv
        · refine .inl (forall_mem_append.mpr ⟨hunused, ?_⟩)
          exact forall_mem_singleton.mpr ⟨v, hv, rfl⟩
        · refine .inr ?_
          dsimp only
          rw [hentry, if_pos (show (Sequence.new key 1 1).lastValue < v from hv)]
          exact inUse_observe rfl le_rfl hle hv
    · refine .inr ?_
      cases op with
      | next => exact (huse.nextValue hbefore).2
      | observe v =>
        dsimp only
        split
        · next hv => exact inUse_observe huse.increment huse.pos huse.le hv
        · next hv =>
          exact ⟨huse.called, huse.increment, huse.pos, mem_append_left _ huse.mem,
            forall_mem_append.mpr
              ⟨huse.le, forall_mem_singleton.mpr (not_lt.mp hv)⟩⟩

/-- **Numbers of rows**: in a run from an empty database that does not come to the end of `i64`, no
value is drawn that was drawn or given before, if and only if it is not so that the start was given
before the first value was drawn, and nothing greater. -/
theorem neverRepeats_iff (key : String) (ops : List Op)
    (hlt : ∀ v ∈ values key ∅ ops, v < 2 ^ 63 - 1) :
    NeverRepeats ∅ key ops ↔ ¬StartTaken ops := by
  constructor
  · rintro h ⟨before, after, rfl, hunused, hmem⟩
    obtain ⟨hentry, hvalues⟩ := @entry_of_unused key before hunused
    refine h before after rfl ?_
    rw [value, nextSequence, hentry]
    exact (hvalues 1).mpr hmem
  · rintro hfree before after rfl
    have hbefore : ∀ v ∈ values key ∅ before, v < 2 ^ 63 - 1 := fun v hv =>
      hlt v (values_append before _ ▸ mem_append_left _ hv)
    rcases unused_or_inUse hbefore with hunused | huse
    · obtain ⟨hentry, hvalues⟩ := @entry_of_unused key before hunused
      rw [value, nextSequence, hentry]
      exact fun hmem => hfree ⟨before, after, rfl, hunused, (hvalues 1).mp hmem⟩
    · intro hmem
      have hle := huse.le _ hmem
      rw [value, nextSequence, (huse.nextValue hbefore).1] at hle
      omega

/-- Two rows draw a value, one in between gives a greater one, and one more draws. -/
theorem neverRepeats_between :
    NeverRepeats ∅ "t_id_seq" [.next, .next, .observe 7, .next] :=
  (neverRepeats_iff "t_id_seq" [.next, .next, .observe 7, .next] (by decide)).mpr (by
    rintro ⟨before, after, heq, hunused, hmem⟩
    rcases before with _ | ⟨op, before⟩
    · cases hmem
    · obtain rfl := (List.cons.inj heq).1
      obtain ⟨v, -, hv⟩ := hunused .next (.head _)
      cases hv)

/-- A row gives one, and the next row draws it again. -/
theorem repeats_start : ¬NeverRepeats ∅ "t_id_seq" [.observe 1, .next] := fun h =>
  h [.observe 1] [] rfl (by decide)

end Sequences
end PostgresRs.Storage
