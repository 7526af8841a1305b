import PostgresRs.Util.Fallible
import Mathlib.Data.List.Nodup

/-!
# Assignments one after the other and all at once

A list of assignments to places of a row, each with a function that computes the new value from a
row.  `run` makes them one after the other, so that a function reads what the assignments before it
have written; in a simultaneous assignment (`Simultaneous`) all functions read the old row.

`forall_run_iff` says when the two agree in every order of the list: no function gives another value
when some of the other places already have their new values.

`written` are the places and values that a run writes, and `forall_of_run` says that what holds of
them and of the old row holds of the new row.  Loops that set cells of a row are runs of assignments
(`run_of_foldlM`, `run_cellwise`).
-/

namespace PostgresRs

open List

/-- A place of a row, and its new value as a function of a row. -/
abbrev Assignment (ε α : Type) := Nat × (List α → Except ε α)

namespace Assignment

variable {ε α : Type}

/-- The places that are assigned. -/
def targets (as : List (Assignment ε α)) : List Nat := as.map Prod.fst

/-- One assignment after the other. -/
def run (row : List α) : List (Assignment ε α) → Except ε (List α)
  | [] => .ok row
  | a :: as => do
    let v ← a.2 row
    run (row.set a.1 v) as

/-- All assignments at once: every function reads the old row. -/
structure Simultaneous (as : List (Assignment ε α)) (row new : List α) : Prop where
  length : new.length = row.length
  assigned : ∀ a ∈ as, ∃ v, a.2 row = .ok v ∧ new[a.1]? = some v
  others : ∀ i ∉ targets as, new[i]? = row[i]?

/-- The old row with the values of `new` at the given places. -/
def mix (row new : List α) (places : List Nat) : List α :=
  row.mapIdx fun i v => if i ∈ places then new.getD i v else v

variable {as bs : List (Assignment ε α)} {a : Assignment ε α} {row new mid : List α}
  {places : List Nat}

@[simp] theorem targets_cons : targets (a :: as) = a.1 :: targets as := rfl

@[simp] theorem targets_append : targets (as ++ bs) = targets as ++ targets bs := map_append

theorem run_append : run row (as ++ bs) = run row as >>= fun mid => run mid bs := by
  induction as generalizing row with
  | nil => rfl
  | cons a as ih =>
    rw [cons_append, run, run]
    cases a.2 row with
    | error e => rfl
    | ok v => exact ih

/-- A run leaves the places that it does not assign. -/
theorem frame_of_run (h : run row as = .ok new) :
    new.length = row.length ∧ ∀ i ∉ targets as, new[i]? = row[i]? := by
  induction as generalizing row with
  | nil =>
    cases h
    exact ⟨rfl, fun _ _ => rfl⟩
  | cons a as ih =>
    obtain ⟨v, -, hrest⟩ := of_bind_eq_ok h
    obtain ⟨hlength, hothers⟩ := ih hrest
    refine ⟨hlength.trans length_set, fun i hi => ?_⟩
    rw [targets_cons, mem_cons, not_or] at hi
    rw [hothers i hi.2, getElem?_set_ne (Ne.symm hi.1)]

theorem getElem?_mix (hlen : new.length = row.length) (i : Nat) :
    (mix row new places)[i]? = if i ∈ places then new[i]? else row[i]? := by
  rw [mix, getElem?_mapIdx]
  rcases Nat.lt_or_ge i row.length with hlt | hge
  · rw [getElem?_eq_getElem hlt, Option.map_some]
    split
    · rw [getD_eq_getElem?_getD, getElem?_eq_getElem (hlen ▸ hlt)]
      rfl
    · rfl
  · rw [getElem?_eq_none hge, getElem?_eq_none (hlen ▸ hge), ite_self]
    rfl

theorem mix_nil (hlen : new.length = row.length) : mix row new [] = row := by
  refine ext_getElem? fun i => ?_
  rw [getElem?_mix hlen, if_neg not_mem_nil]

/-- With all places assigned the new row is there. -/
theorem Simultaneous.mix_targets (h : Simultaneous as row new) (hbs : bs.Perm as) :
    mix row new (targets bs) = new := by
  refine ext_getElem? fun i => ?_
  rw [getElem?_mix h.length]
  split
  · rfl
  · next hi => exact (h.others i fun hmem => hi ((hbs.map Prod.fst).mem_iff.mpr hmem)).symm

theorem Simultaneous.unique {new' : List α} (h : Simultaneous as row new)
    (h' : Simultaneous as row new') : new' = new := by
  refine ext_getElem? fun i => ?_
  by_cases hi : i ∈ targets as
  · obtain ⟨a, ha, rfl⟩ := mem_map.mp hi
    obtain ⟨v, hv, hnew⟩ := h.assigned a ha
    obtain ⟨v', hv', hnew'⟩ := h'.assigned a ha
    rw [hnew, hnew']
    rw [hv] at hv'
    cases hv'
    rfl
  · rw [h.others i hi, h'.others i hi]

/-- What an assignment in the middle of a run has read and written. -/
theorem exists_of_run (hnodup : (targets (as ++ a :: bs)).Nodup)
    (h : run row (as ++ a :: bs) = .ok new) (ha : a.1 < row.length) :
    ∃ v, a.2 (mix row new (targets as)) = .ok v ∧ new[a.1]? = some v := by
  rw [run_append] at h
  obtain ⟨mid, hmid, h⟩ := of_bind_eq_ok h
  obtain ⟨hlen, hbefore⟩ := frame_of_run hmid
  obtain ⟨hlen', hafter⟩ := frame_of_run h
  obtain ⟨v, hv, hrest⟩ := of_bind_eq_ok h
  obtain ⟨-, hlast⟩ := frame_of_run hrest
  rw [targets_append, nodup_append] at hnodup
  obtain ⟨-, htail, hdisjoint⟩ := hnodup
  have hmix : mix row new (targets as) = mid := by
    refine ext_getElem? fun i => ?_
    rw [getElem?_mix (hlen'.trans hlen)]
    split
    · next hi => exact hafter i fun hmem => hdisjoint i hi i hmem rfl
    · next hi => exact (hbefore i hi).symm
  refine ⟨v, hmix ▸ hv, ?_⟩
  rw [hlast a.1 (nodup_cons.mp htail).1, getElem?_set_self (hlen ▸ ha)]

/-- No function gives another value when some of the other places have their new values. -/
def Stable (as : List (Assignment ε α)) (row new : List α) : Prop :=
  ∀ before a after, (before ++ a :: after).Perm as →
    a.2 (mix row new (targets before)) = a.2 row

/-- The rest of a run, from the row in which the places before have their new values. -/
theorem run_mix (hsim : Simultaneous as row new) (hstable : Stable as row new)
    (before : List (Assignment ε α)) {rest : List (Assignment ε α)}
    (hperm : (before ++ rest).Perm as) :
    run (mix row new (targets before)) rest = .ok new := by
  induction rest generalizing before with
  | nil =>
    rw [List.append_nil] at hperm
    rw [run, hsim.mix_targets hperm]
  | cons a rest ih =>
    have hmem : a ∈ as := hperm.subset (List.mem_append_right _ (.head _))
    obtain ⟨v, hv, hnew⟩ := hsim.assigned a hmem
    have hset : (mix row new (targets before)).set a.1 v = mix row new (targets (before ++ [a])) := by
      refine List.ext_getElem? fun i => ?_
      rw [getElem?_mix hsim.length]
      rcases eq_or_ne a.1 i with rfl | hne
      · have hlt : a.1 < (mix row new (targets before)).length := by
          rw [mix, List.length_mapIdx, ← hsim.length]
          exact (List.getElem?_eq_some_iff.mp hnew).1
        rw [List.getElem?_set_self hlt, if_pos (by simp [targets]), hnew]
      · rw [List.getElem?_set_ne hne, getElem?_mix hsim.length]
        exact if_congr (by simp [targets, hne.symm]) rfl rfl
    rw [run, hstable before a rest hperm, hv]
    show run ((mix row new (targets before)).set a.1 v) rest = .ok new
    rw [hset]
    exact ih _ (by rwa [List.append_assoc])

/-- **One after the other and all at once**: the assignments make up a simultaneous one in whatever
order they are made if and only if they have new values that are stable. -/
theorem forall_run_iff (hnodup : (targets as).Nodup) (hrange : ∀ i ∈ targets as, i < row.length) :
    (∃ new, Simultaneous as row new ∧ ∀ bs, bs.Perm as → run row bs = .ok new) ↔
      ∃ new, Simultaneous as row new ∧ Stable as row new := by
  refine exists_congr fun new => and_congr_right fun hsim => ⟨fun h before a after hperm => ?_,
    fun hstable bs hbs => ?_⟩
  · have hmem : a ∈ as := hperm.subset (mem_append_right _ (.head _))
    obtain ⟨v, hv, hnew⟩ := exists_of_run ((hperm.map Prod.fst).nodup_iff.mpr hnodup)
      (h _ hperm) (hrange a.1 (mem_map_of_mem hmem))
    obtain ⟨v', hv', hnew'⟩ := hsim.assigned a hmem
    rw [hnew] at hnew'
    cases hnew'
    rw [hv, hv']
  · have hrun : run (mix row new []) bs = .ok new := run_mix hsim hstable [] hbs
    rwa [mix_nil hsim.length] at hrun

/-! ## What a run writes -/

/-- The places and values that a run writes, up to where it fails. -/
def written (row : List α) : List (Assignment ε α) → List (Nat × α)
  | [] => []
  | a :: as =>
    match a.2 row with
    | .ok v => (a.1, v) :: written (row.set a.1 v) as
    | .error _ => []

/-- What holds of the cells of a row and of all that a run writes holds of the new row. -/
theorem forall_of_run {P : Nat → α → Prop} (h : run row as = .ok new)
    (hrow : ∀ i v, row[i]? = some v → P i v) (hwritten : ∀ w ∈ written row as, P w.1 w.2) :
    ∀ i v, new[i]? = some v → P i v := by
  induction as generalizing row with
  | nil =>
    cases h
    exact hrow
  | cons a as ih =>
    obtain ⟨v, hv, h⟩ := of_bind_eq_ok h
    rw [written, hv, forall_mem_cons] at hwritten
    refine ih h (fun i v' hv' => ?_) hwritten.2
    rcases eq_or_ne a.1 i with rfl | hne
    · rw [getElem?_set_self', Option.map_eq_map, Option.map_eq_some_iff] at hv'
      obtain ⟨-, -, rfl⟩ := hv'
      exact hwritten.1
    · exact hrow i v' (getElem?_set_ne hne ▸ hv')

/-! ## Loops -/

/-- A loop each round of which sets one cell. -/
theorem run_of_foldlM {ε' β : Type} {f : List α → β → Except ε' (List α)} {g : β → Assignment ε α}
    {l : List β} (hstep : ∀ row b row', b ∈ l → f row b = .ok row' →
      ∃ v, (g b).2 row = .ok v ∧ row' = row.set (g b).1 v)
    (h : l.foldlM f row = .ok new) : run row (l.map g) = .ok new := by
  induction l generalizing row with
  | nil =>
    cases h
    rfl
  | cons b l ih =>
    obtain ⟨row', hrow', h⟩ := of_bind_eq_ok h
    obtain ⟨v, hv, rfl⟩ := hstep row b row' (.head _) hrow'
    rw [map_cons, run, hv]
    exact ih (fun row b row' hb => hstep row b row' (.tail _ hb)) h

section Cellwise

variable {γ : Type} (f : Nat → γ → Option (α → Except ε α)) (default : α)

/-- A loop over the columns of a row, from the `k`-th on, that sets the cells of some of them, each
from its old value. -/
def cellwise (k : Nat) (columns : List γ) : List (Assignment ε α) :=
  (columns.zipIdx k).filterMap fun e =>
    (f e.2 e.1).map fun g => (e.2, fun row => g (row.getD e.2 default))

/-- The new value of a cell. -/
def newCell (i : Nat) (column : γ) (v : α) : Except ε α :=
  match f i column with
  | none => .ok v
  | some g => g v

variable {f default}

/-- A loop that makes the new row cell by cell is one that sets the cells. -/
theorem run_cellwise {columns : List γ} {before rest rest' : List α}
    (hlength : rest.length = columns.length)
    (h : ((columns.zip rest).zipIdx before.length).mapM (fun e => newCell f e.2 e.1.1 e.1.2) =
      .ok rest') :
    run (before ++ rest) (cellwise f default before.length columns) = .ok (before ++ rest') := by
  induction columns generalizing before rest rest' with
  | nil =>
    rw [eq_nil_of_length_eq_zero hlength] at h ⊢
    cases h
    rfl
  | cons column columns ih =>
    obtain ⟨v, rest, rfl⟩ := exists_cons_of_length_eq_add_one hlength
    rw [zip_cons_cons, zipIdx_cons, mapM_cons] at h
    obtain ⟨v', hv', h⟩ := of_bind_eq_ok h
    obtain ⟨vs, hvs, h⟩ := of_bind_eq_ok h
    cases h
    -- The cells before are now one more.
    have hrest : run (before ++ v' :: rest) (cellwise f default (before.length + 1) columns) =
        .ok (before ++ v' :: vs) := by
      have hlen : (before ++ [v']).length = before.length + 1 := length_append
      have := @ih (before ++ [v']) rest vs (Nat.succ.inj hlength) (hlen ▸ hvs)
      rwa [hlen, append_assoc, append_assoc] at this
    rw [newCell] at hv'
    rw [cellwise, zipIdx_cons]
    split at hv'
    · next hnone =>
      cases hv'
      rw [filterMap_cons_none (by rw [hnone]; rfl)]
      exact hrest
    · next g hg =>
      rw [filterMap_cons_some (by rw [hg]; rfl), run]
      simp only [getD_eq_getElem?_getD, getElem?_append_right, Nat.le_refl, Nat.sub_self,
        getElem?_cons_zero, Option.getD_some, hv']
      refine Eq.trans ?_ hrest
      show run ((before ++ v :: rest).set before.length v') _ = _
      rw [set_append_right _ _ (Nat.le_refl _), Nat.sub_self]
      rfl

end Cellwise

end Assignment
end PostgresRs
