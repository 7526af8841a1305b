import PostgresRs.Constraint.Plans
import Mathlib.Data.List.Induction

/-!
# What MERGE takes for matched

A row of the source is matched if some row of the target, as it was before the statement, satisfies
the condition with it, and no row of the target is to be changed for two rows of the source
(`MergeCall.Classifies`).  The loop of `exec_merge` skips the rows of the target that it has already
acted on, so a row of the source that matches only such rows counts as not matched, and nothing
fails.

* `Tracks` — the rows that were acted on are those that some row of the source before matches, with a
  clause for it.
* `merge_classifies_iff` — when the loop does what is meant.
* `not_classifies_twice` — two rows of the source with one key.
-/

namespace PostgresRs.Constraint

open Storage Exec List

section Classes

variable (env : Environment) (m : Merge) (r : Relation) (sourceNames : List String)

/-- The row at a position matches a row of the source, and the action is that of the first clause
for the two. -/
def Acts (sourceRow : List Value) (pos : Nat) (action : MergeAction) : Prop :=
  Matches env m sourceNames r sourceRow pos ∧ ∃ stored, r.table.rows[pos]? = some stored ∧
    firstWhen env (mergeActionNames m r.columns sourceNames)
      (r.table.detoastRow stored ++ r.table.detoastRow stored ++ sourceRow) true m.clauses =
      .ok (some action)

/-- There is a clause for a row of the source and a row of the target that it matches. -/
def Touches (sourceRow : List Value) (pos : Nat) : Prop :=
  ∃ action, Acts env m r sourceNames sourceRow pos action

/-- The action replaces or deletes the row of the target. -/
def Changes (sourceRow : List Value) (pos : Nat) : Prop :=
  Acts env m r sourceNames sourceRow pos .delete ∨
    ∃ assignments, Acts env m r sourceNames sourceRow pos (.update assignments)

/-- What the loop has found before the `i`-th row of the source. -/
def MergeCall.stateBefore (call : MergeCall) (sourceRows : List (List Value)) (i : Nat) :
    Except Failure MergeState :=
  (sourceRows.take i).foldlM (call.sourceRow env m r.columns sourceNames r) ⟨[], ⟨[], [], []⟩⟩

/-- The `i`-th row of the source is handled by a clause for rows that are not matched. -/
def MergeCall.NotMatched (call : MergeCall) (sourceRows : List (List Value)) (i : Nat) : Prop :=
  ∃ s row, call.stateBefore env m r sourceNames sourceRows i = .ok s ∧ sourceRows[i]? = some row ∧
    mergeMatches env m r.columns sourceNames r row s.touched (List.range r.table.rows.length) = .ok []

/-- The positions of the rows that are replaced or deleted. -/
def Change.positions (c : Change) : List Nat := c.updates.map Prod.fst ++ c.deletes

/-- **What is meant**: a row of the source is handled as not matched if it matches no row of the
target; no row of the target is changed twice; and a statement that would change one for two rows of
the source does not come to an end. -/
structure MergeCall.Classifies (call : MergeCall) (sourceRows : List (List Value)) (c : Change) :
    Prop where
  notMatched : ∀ i row, sourceRows[i]? = some row →
    (call.NotMatched env m r sourceNames sourceRows i ↔
      ∀ pos, ¬Matches env m sourceNames r row pos)
  once : c.positions.Nodup
  conflict : sourceRows.Pairwise fun row row' => ∀ pos,
    Changes env m r sourceNames row pos → ¬Changes env m r sourceNames row' pos

/-- A row of the source that matches some row of the target matches one that no row of the source
before has a clause for, and no row of the target is to be changed for two rows of the source. -/
structure Separate (sourceRows : List (List Value)) : Prop where
  free : ∀ i row, sourceRows[i]? = some row → (∃ pos, Matches env m sourceNames r row pos) →
    ∃ pos, Matches env m sourceNames r row pos ∧
      ∀ before ∈ sourceRows.take i, ¬Touches env m r sourceNames before pos
  once : sourceRows.Pairwise fun row row' => ∀ pos,
    Changes env m r sourceNames row pos → ¬Changes env m r sourceNames row' pos

end Classes

/-! ## The loop -/

section Loop

variable {env : Environment} {m : Merge} {r : Relation} {sourceNames : List String}
  {call : MergeCall} {sourceRow : List Value} {s s' : MergeState} {pos : Nat}

theorem Matches.lt (h : Matches env m sourceNames r sourceRow pos) : pos < r.table.rows.length := by
  obtain ⟨stored, v, hstored, -⟩ := h
  exact (List.getElem?_eq_some_iff.mp hstored).1

/-- The rows that are changed are different ones, and among those that were acted on. -/
structure MergeState.Once (s : MergeState) : Prop where
  nodup : s.change.positions.Nodup
  subset : s.change.positions ⊆ s.touched

theorem MergeState.Once.touch {c : Change} (h : s.Once) (hpos : pos ∉ s.touched)
    (hc : c.positions.Perm (pos :: s.change.positions)) :
    MergeState.Once ⟨pos :: s.touched, c⟩ where
  nodup := hc.nodup_iff.mpr (nodup_cons.mpr ⟨fun hmem => hpos (h.subset hmem), h.nodup⟩)
  subset := List.Subset.trans hc.subset (cons_subset_cons pos h.subset)

/-- What the loop does for one row of the target that matches. -/
theorem matchedRow_eq_ok (hmatches : Matches env m sourceNames r sourceRow pos)
    (hpos : pos ∉ s.touched) (hs : s.Once)
    (h : matchedRow env m r.columns sourceNames r sourceRow s pos = .ok s') :
    s'.Once ∧ ∀ p, p ∈ s'.touched ↔
      p ∈ s.touched ∨ p = pos ∧ Touches env m r sourceNames sourceRow pos := by
  obtain ⟨stored, hstored, h⟩ := of_bind_eq_ok h
  have hstored := storedRow_eq_ok hstored
  obtain ⟨o, hwhen, h⟩ := of_bind_eq_ok h
  rcases o with _ | action
  · cases h
    refine ⟨hs, fun p => (or_iff_left ?_).symm⟩
    rintro ⟨-, action, -, stored', hstored', hwhen'⟩
    cases hstored.symm.trans hstored'
    cases hwhen.symm.trans hwhen'
  have htouches : Touches env m r sourceNames sourceRow pos :=
    ⟨action, hmatches, stored, hstored, hwhen⟩
  have hcons : ∀ p, p ∈ pos :: s.touched ↔
      p ∈ s.touched ∨ p = pos ∧ Touches env m r sourceNames sourceRow pos := by
    intro p
    rw [mem_cons, or_comm, and_iff_left htouches]
  cases action with
  | doNothing =>
    cases h
    exact ⟨⟨hs.nodup, subset_cons_of_subset _ hs.subset⟩, hcons⟩
  | delete =>
    cases h
    refine ⟨hs.touch hpos ?_, hcons⟩
    rw [Change.positions, ← append_assoc]
    exact perm_append_singleton ..
  | update assignments =>
    obtain ⟨row, -, h⟩ := of_bind_eq_ok h
    obtain ⟨new, -, h⟩ := of_bind_eq_ok h
    cases h
    refine ⟨hs.touch hpos ?_, hcons⟩
    rw [Change.positions, map_append, append_assoc]
    exact perm_middle
  | insert cols exprs defaultValues => cases h

/-- What the loop does for all rows of the target that match. -/
theorem foldlM_matchedRow_eq_ok {positions : List Nat} (hnodup : positions.Nodup)
    (hmatches : ∀ pos ∈ positions, Matches env m sourceNames r sourceRow pos)
    (hpositions : ∀ pos ∈ positions, pos ∉ s.touched) (hs : s.Once)
    (h : positions.foldlM (matchedRow env m r.columns sourceNames r sourceRow) s = .ok s') :
    s'.Once ∧ ∀ p, p ∈ s'.touched ↔
      p ∈ s.touched ∨ p ∈ positions ∧ Touches env m r sourceNames sourceRow p := by
  induction positions generalizing s with
  | nil =>
    cases h
    exact ⟨hs, fun p => (or_iff_left fun hno => nomatch hno.1).symm⟩
  | cons pos rest ih =>
    obtain ⟨s₁, hs₁, h⟩ := of_bind_eq_ok h
    rw [forall_mem_cons] at hmatches hpositions
    obtain ⟨hnew, hrest⟩ := nodup_cons.mp hnodup
    obtain ⟨honce, htouched⟩ := matchedRow_eq_ok hmatches.1 hpositions.1 hs hs₁
    have hfree : ∀ p ∈ rest, p ∉ s₁.touched := by
      intro p hp hmem
      rcases (htouched p).mp hmem with hmem | ⟨rfl, -⟩
      · exact hpositions.2 p hp hmem
      · exact hnew hp
    obtain ⟨honce', htouched'⟩ := ih hrest hmatches.2 hfree honce h
    refine ⟨honce', fun p => ?_⟩
    rw [htouched' p, htouched p, or_assoc, mem_cons, or_and_right]
    refine or_congr_right (or_congr_left (and_congr_right ?_))
    rintro rfl
    rfl

/-- A row that is not matched changes no row of the target. -/
theorem MergeCall.notMatched_eq_ok
    (h : call.notMatched env m r.columns sourceNames sourceRow s = .ok s') :
    s'.change.positions = s.change.positions ∧ s'.touched = s.touched := by
  obtain ⟨o, -, h⟩ := of_bind_eq_ok h
  rcases o with _ | action
  · cases h
    exact ⟨rfl, rfl⟩
  cases action with
  | doNothing =>
    cases h
    exact ⟨rfl, rfl⟩
  | insert cols exprs defaultValues =>
    obtain ⟨row, -, h⟩ := of_bind_eq_ok h
    cases h
    exact ⟨rfl, rfl⟩
  | update | delete => cases h

/-- The rows of the target that were acted on are those that the rows of the source so far have a
clause for. -/
structure Tracks (env : Environment) (m : Merge) (r : Relation) (sourceNames : List String)
    (done : List (List Value)) (s : MergeState) : Prop extends s.Once where
  touched : ∀ pos, pos ∈ s.touched ↔ ∃ row ∈ done, Touches env m r sourceNames row pos

theorem tracks_sourceRow {done : List (List Value)} (hs : Tracks env m r sourceNames done s)
    (h : call.sourceRow env m r.columns sourceNames r s sourceRow = .ok s') :
    Tracks env m r sourceNames (done ++ [sourceRow]) s' := by
  obtain ⟨found, hfound, h⟩ := of_bind_eq_ok h
  obtain ⟨hsub, hmem⟩ := mergeMatches_eq_ok hfound
  -- What is added are the rows that match now and have not been acted on.
  have hafter : s'.Once ∧ ∀ p, p ∈ s'.touched ↔
      p ∈ s.touched ∨ p ∈ found ∧ Touches env m r sourceNames sourceRow p := by
    rcases found with _ | ⟨pos, rest⟩
    · obtain ⟨hchange, htouched⟩ := MergeCall.notMatched_eq_ok h
      refine ⟨⟨hchange ▸ hs.nodup, ?_⟩, fun p => ?_⟩
      · rw [hchange, htouched]
        exact hs.subset
      · rw [htouched]
        exact (or_iff_left fun hno => nomatch hno.1).symm
    · exact foldlM_matchedRow_eq_ok (hsub.nodup nodup_range)
        (fun p hp => ((hmem p).mp hp).2.2) (fun p hp => ((hmem p).mp hp).2.1) hs.toOnce h
  refine ⟨hafter.1, fun p => ?_⟩
  rw [hafter.2 p, hs.touched p]
  simp only [mem_append, mem_singleton, or_and_right, exists_or, exists_eq_left]
  constructor
  · exact Or.imp_right fun hp => hp.2
  rintro (hp | hp)
  · exact .inl hp
  · by_cases hold : p ∈ s.touched
    · exact .inl ((hs.touched p).mp hold)
    · obtain ⟨action, hacts⟩ := hp
      exact .inr ⟨(hmem p).mpr ⟨mem_range.mpr hacts.1.lt, hold, hacts.1⟩, action, hacts⟩

theorem tracks_foldlM {rows : List (List Value)}
    (h : rows.foldlM (call.sourceRow env m r.columns sourceNames r) ⟨[], ⟨[], [], []⟩⟩ = .ok s) :
    Tracks env m r sourceNames rows s := by
  induction rows using List.reverseRecOn generalizing s with
  | nil =>
    cases h
    exact ⟨⟨.nil, List.Subset.refl _⟩, fun pos => iff_of_false nofun fun hno => nomatch hno⟩
  | append_singleton rows row ih =>
    rw [foldlM_append] at h
    obtain ⟨s₁, hs₁, h⟩ := of_bind_eq_ok h
    obtain ⟨s₂, hs₂, h⟩ := of_bind_eq_ok h
    cases h
    exact tracks_sourceRow (ih hs₁) hs₂

/-- **The row at `i`** is handled as not matched if all rows of the target that it matches were
acted on before. -/
theorem notMatched_iff {sourceRows : List (List Value)} {i : Nat} {row : List Value}
    (h : sourceRows.foldlM (call.sourceRow env m r.columns sourceNames r) ⟨[], ⟨[], [], []⟩⟩ = .ok s)
    (hrow : sourceRows[i]? = some row) :
    call.NotMatched env m r sourceNames sourceRows i ↔
      ∀ pos, Matches env m sourceNames r row pos →
        ∃ before ∈ sourceRows.take i, Touches env m r sourceNames before pos := by
  obtain ⟨hlt, rfl⟩ := List.getElem?_eq_some_iff.mp hrow
  rw [← take_append_drop i sourceRows, foldlM_append, drop_eq_getElem_cons hlt] at h
  obtain ⟨s₁, hs₁, h⟩ := of_bind_eq_ok h
  obtain ⟨s₂, hs₂, -⟩ := of_bind_eq_ok h
  obtain ⟨found, hfound, -⟩ := of_bind_eq_ok hs₂
  obtain ⟨-, hmem⟩ := mergeMatches_eq_ok hfound
  have htracks := tracks_foldlM hs₁
  have hempty : call.NotMatched env m r sourceNames sourceRows i ↔ found = [] := by
    constructor
    · rintro ⟨s', row', hs', hrow', hnone⟩
      cases hrow.symm.trans hrow'
      cases hs₁.symm.trans hs'
      cases hfound.symm.trans hnone
      rfl
    · rintro rfl
      exact ⟨s₁, _, hs₁, hrow, hfound⟩
  rw [hempty, eq_nil_iff_forall_not_mem]
  refine forall_congr' fun pos => ?_
  rw [hmem pos, ← htracks.touched pos]
  constructor
  · intro hno hmatches
    by_contra hfree
    exact hno ⟨mem_range.mpr hmatches.lt, hfree, hmatches⟩
  · rintro hall ⟨-, hfree, hmatches⟩
    exact hfree (hall hmatches)

end Loop

/-! ## The statement -/

/-- **What `MERGE` takes for matched**: a statement that succeeds handles its source as is meant if
and only if the rows of the source keep out of each other's way. -/
theorem merge_classifies_iff {env : Environment} {db : Database} {call : MergeCall} {m : Merge}
    {sourceNames : List String} {sourceRows : List (List Value)} {r : Relation} {name : String}
    {c : Change} (hm : call.stmt = .ok m) (hsource : call.source = .ok (sourceNames, sourceRows))
    (hr : db.table m.target = some r) (h : planMerge env db call = .ok (name, c)) :
    call.Classifies env m r sourceNames sourceRows c ↔ Separate env m r sourceNames sourceRows := by
  obtain ⟨m', hm', h⟩ := of_bind_eq_ok h
  cases hm.symm.trans (ofError_eq_ok hm')
  obtain ⟨source, hsource', h⟩ := of_bind_eq_ok h
  cases hsource.symm.trans (ofError_eq_ok hsource')
  obtain ⟨r', hr', h⟩ := of_bind_eq_ok h
  cases hr.symm.trans (Database.target_eq_ok.mp hr')
  obtain ⟨-, h⟩ := and_of_bind_eq_ok h
  obtain ⟨s, hs, h⟩ := of_bind_eq_ok h
  obtain ⟨-, h⟩ := and_of_bind_eq_ok h
  obtain ⟨-, h⟩ := and_of_bind_eq_ok h
  obtain ⟨-, h⟩ := and_of_bind_eq_ok h
  obtain ⟨-, h⟩ := and_of_bind_eq_ok h
  obtain ⟨-, h⟩ := and_of_bind_eq_ok h
  cases h
  have hiff := fun i row (hrow : sourceRows[i]? = some row) => notMatched_iff hs hrow
  constructor
  · intro hclassifies
    refine ⟨fun i row hrow ⟨pos, hpos⟩ => ?_, hclassifies.conflict⟩
    by_contra hno
    refine (hclassifies.notMatched i row hrow).mp ((hiff i row hrow).mpr fun p hp => ?_) pos hpos
    by_contra hfree
    exact hno ⟨p, hp, fun before hbefore htouches => hfree ⟨before, hbefore, htouches⟩⟩
  · intro hseparate
    refine ⟨fun i row hrow => ?_, ?_, hseparate.once⟩
    · rw [hiff i row hrow]
      refine ⟨fun hall pos hpos => ?_, fun hnone pos hpos => absurd hpos (hnone pos)⟩
      obtain ⟨p, hp, hfree⟩ := hseparate.free i row hrow ⟨pos, hpos⟩
      obtain ⟨before, hbefore, htouches⟩ := hall p hp
      exact hfree before hbefore htouches
    -- The positions to delete are those of the loop, in order and each once.
    · have honce := (tracks_foldlM hs).nodup
      rw [Change.positions, nodup_append] at honce ⊢
      refine ⟨honce.1, nodup_range.filter _, fun p hp q hq => honce.2.2 p hp q ?_⟩
      simpa using (mem_filter.mp hq).2

/-! ## Two rows with one key -/

/-- `MERGE INTO t USING (VALUES …) s (id, v) ON t.id = s.id WHEN MATCHED THEN UPDATE SET v = s.v
WHEN NOT MATCHED THEN INSERT VALUES (s.id, s.v)`. -/
def mergeById : Merge where
  target := "t"
  targetAlias := none
  source := .values [] "s" ["id", "v"]
  on := .binary .eq (.qualifiedColumn "t" "id") (.qualifiedColumn "s" "id")
  clauses :=
    [⟨true, none, .update [("v", .qualifiedColumn "s" "v")]⟩,
      ⟨false, none, .insert none [.qualifiedColumn "s" "id", .qualifiedColumn "s" "v"] false⟩]

/-- The statement with the given rows. -/
def mergeRows (rows : List (List Int)) : MergeCall where
  stmt := .ok mergeById
  source := .ok (["s.id", "s.v"], rows.map (·.map Value.int))
  numbers _ _ := 0

/-- The table with the row `(1, 10)`. -/
def oneRowDb : Database :=
  Machine.run step .empty [bareEvent (.createTable (createInts "t" ["id", "v"] [])),
    bareEvent (.insert (insertInts "t" [[1, 10]]))]

def oneRow : Relation := (oneRowDb.table "t").getD (newRelation "t" [])

/-- Rows with different keys are handled as is meant. -/
theorem classifies_apart :
    (mergeRows [[1, 20], [2, 30]]).Classifies bareEnvironment mergeById oneRow ["s.id", "s.v"]
      [[.int 1, .int 20], [.int 2, .int 30]] ⟨[(0, [.int 1, .int 20])], [], [[.int 2, .int 30]]⟩ := by
  have hno : ∀ pos, ¬Matches bareEnvironment mergeById ["s.id", "s.v"] oneRow [.int 2, .int 30]
      pos := by
    rintro (_ | pos) ⟨stored, v, hstored, hv, htrue⟩
    · cases (show some [Value.int 1, .int 10] = some stored from hstored)
      cases (show Except.ok (Value.bool false) = Except.ok v from hv)
      cases htrue
    · cases (show none = some stored from hstored)
  refine (@merge_classifies_iff bareEnvironment oneRowDb (mergeRows [[1, 20], [2, 30]]) _ _ _ _ "t" _
    rfl rfl rfl rfl).mpr ⟨fun i row hrow ⟨pos, hpos⟩ => ?_, ?_⟩
  · match i with
    | 0 => exact ⟨pos, hpos, nofun⟩
    | 1 =>
      cases hrow
      exact absurd hpos (hno pos)
    | _ + 2 => cases hrow
  · refine .cons (forall_mem_singleton.mpr fun pos _ hchanges => ?_) (pairwise_singleton _ _)
    rcases hchanges with hacts | ⟨_, hacts⟩ <;> exact hno pos hacts.1

/-- Two rows with the key of the same row of the target: the second one counts as not matched and is
inserted. -/
theorem not_classifies_twice :
    planMerge bareEnvironment oneRowDb (mergeRows [[1, 20], [1, 30]]) =
      .ok ("t", ⟨[(0, [.int 1, .int 20])], [], [[.int 1, .int 30]]⟩) ∧
    ¬(mergeRows [[1, 20], [1, 30]]).Classifies bareEnvironment mergeById oneRow ["s.id", "s.v"]
      [[.int 1, .int 20], [.int 1, .int 30]]
      ⟨[(0, [.int 1, .int 20])], [], [[.int 1, .int 30]]⟩ := by
  refine ⟨rfl, fun h => ?_⟩
  have hnot : (mergeRows [[1, 20], [1, 30]]).NotMatched bareEnvironment mergeById oneRow
      ["s.id", "s.v"] [[.int 1, .int 20], [.int 1, .int 30]] 1 := ⟨_, _, rfl, rfl, rfl⟩
  exact (h.notMatched 1 _ rfl).mp hnot 0 ⟨_, _, rfl, rfl, rfl⟩

end PostgresRs.Constraint
