import PostgresRs.Util.Fallible
import Mathlib.Data.List.Perm.Basic

/-!
# Nested loops

The inner loop of a join goes over the positions of some candidates and keeps those on which a test
is true.  If the candidates are positions of elements, and all elements on which the test is true
are among them, it keeps what a loop over all elements does (`matching_perm`).
-/

namespace NestedLoop

open PostgresRs List

variable {ε β : Type}

/-- The candidates on which the test is true; `bad` is the failure for one that is out of range. -/
def matching (bad : ε) (test : β → Except ε Bool) (rs : List β) : List Nat → Except ε (List Nat)
  | [] => .ok []
  | i :: is =>
    match rs[i]? with
    | none => .error bad
    | some r => do
      let keep ← test r
      let rest ← matching bad test rs is
      return if keep then i :: rest else rest

/-- The test is true on the element at a position. -/
def matchesAt (test : β → Except ε Bool) (rs : List β) (i : Nat) : Bool :=
  match rs[i]?.map test with
  | some (.ok keep) => keep
  | _ => false

section Matching

variable {bad : ε} {test : β → Except ε Bool} {rs : List β} {is found : List Nat} {i : Nat}

/-- The element at a position exists and the test returns on it. -/
def Tested (test : β → Except ε Bool) (rs : List β) (i : Nat) : Prop :=
  ∃ r keep, rs[i]? = some r ∧ test r = .ok keep

theorem matching_eq_ok_iff : matching bad test rs is = .ok found ↔
    (∀ i ∈ is, Tested test rs i) ∧ found = is.filter (matchesAt test rs) := by
  induction is generalizing found with
  | nil =>
    exact ⟨fun h => ⟨fun i hi => absurd hi not_mem_nil, (Except.ok.inj h).symm⟩,
      fun h => h.2 ▸ rfl⟩
  | cons i is ih =>
    rw [forall_mem_cons, filter_cons, matching]
    constructor
    · intro h
      split at h
      · cases h
      next r hr =>
      obtain ⟨keep, hkeep, h⟩ := of_bind_eq_ok h
      obtain ⟨rest, hrest, h⟩ := of_bind_eq_ok h
      obtain ⟨htested, rfl⟩ := ih.mp hrest
      have hmatch : matchesAt test rs i = keep := by rw [matchesAt, hr, Option.map_some, hkeep]
      refine ⟨⟨⟨r, keep, hr, hkeep⟩, htested⟩, ?_⟩
      rw [hmatch]
      exact (Except.ok.inj h).symm
    · rintro ⟨⟨⟨r, keep, hr, hkeep⟩, htested⟩, rfl⟩
      have hmatch : matchesAt test rs i = keep := by rw [matchesAt, hr, Option.map_some, hkeep]
      rw [hr, hmatch]
      dsimp only
      rw [hkeep, ih.mpr ⟨htested, rfl⟩]
      rfl

theorem matchesAt_eq_true_iff :
    matchesAt test rs i = true ↔ ∃ r, rs[i]? = some r ∧ test r = .ok true := by
  rw [matchesAt]
  constructor
  · intro h
    split at h
    · next keep hr =>
      obtain ⟨r, hr, htest⟩ := Option.map_eq_some_iff.mp hr
      exact ⟨r, hr, h ▸ htest⟩
    · cases h
  · rintro ⟨r, hr, htest⟩
    rw [hr, Option.map_some, htest]

/-- **A loop over candidates** keeps what the loop over all elements keeps if it includes every
element on which the test is true, once. -/
theorem matching_perm (hall : matching bad test rs (List.range rs.length) = .ok found)
    (hnodup : is.Nodup) (hrange : ∀ i ∈ is, i < rs.length)
    (hmatches : ∀ i, matchesAt test rs i = true → i ∈ is) :
    ∃ found', matching bad test rs is = .ok found' ∧ found'.Perm found := by
  obtain ⟨htested, rfl⟩ := matching_eq_ok_iff.mp hall
  refine ⟨_, matching_eq_ok_iff.mpr ⟨fun i hi => ?_, rfl⟩, ?_⟩
  · exact htested i (mem_range.mpr (hrange i hi))
  · refine (perm_ext_iff_of_nodup (hnodup.filter _) (nodup_range.filter _)).mpr fun i => ?_
    rw [mem_filter, mem_filter, mem_range]
    exact ⟨fun h => ⟨hrange i h.1, h.2⟩, fun h => ⟨hmatches i h.2, h.2⟩⟩

end Matching

end NestedLoop
