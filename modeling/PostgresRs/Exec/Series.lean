import PostgresRs.Exec.Coerce

/-!
# Series

`generate_series` of `engine/src/executor.rs`.  A series is the one in unbounded integers unless it
goes to the last `i64` and its step passes over that number (`isSeries_iff`).
-/

namespace PostgresRs.Exec

abbrev FitsI64 (i : Int) : Prop := -2 ^ 63 ≤ i ∧ i < 2 ^ 63

def evalIntArg (ext : Externals) (expr : Expr) : Except String Int := do
  match ← evalExpr ext [] [] expr with
  | .int i => return i
  | .float f => return f.roundToI64
  | .numeric n => return n.toF64.roundToI64
  | .text s =>
    match Text.parseI64 (Text.trimList s.toList) with
    | some i => return i
    | none => throw (invalidInput "integer" s)
  | .bool b => return if b then 1 else 0
  | .null => throw "generate_series() arguments must not be null"

def saturatingAdd (a b : Int) : Int := max (-2 ^ 63) (min (2 ^ 63 - 1) (a + b))

/-- The last `i64` in the direction of the step. -/
def seriesEnd (step : Int) : Int := if 0 < step then 2 ^ 63 - 1 else -2 ^ 63

/-- A number does not pass `stop`. -/
abbrev Within (stop step i : Int) : Prop := (0 < step → i ≤ stop) ∧ (step < 0 → stop ≤ i)

/-- The loop of a series, which the source writes once for each sign of the step. -/
def seriesLoop (stop step : Int) (hstep : step ≠ 0) (cur : Int) : List Int :=
  if Within stop step cur then
    cur :: if saturatingAdd cur step = seriesEnd step ∧ cur = seriesEnd step then []
      else seriesLoop stop step hstep (saturatingAdd cur step)
  else []
termination_by (seriesEnd step - cur).natAbs
decreasing_by
  simp only [seriesEnd, saturatingAdd] at *
  omega

def evalGenerateSeries (ext : Externals) (args : List Expr) : Except String (List Int) :=
  match args with
  | start :: stop :: rest =>
    if 1 < rest.length then .error "generate_series() expects 2 or 3 arguments"
    else do
      let start ← evalIntArg ext start
      let stop ← evalIntArg ext stop
      let step ← rest.head?.elim (pure 1) (evalIntArg ext)
      if hstep : step = 0 then throw "step size cannot equal zero"
      else return seriesLoop stop step hstep start
  | _ => .error "generate_series() expects 2 or 3 arguments"

/-- The numbers `start + k * step` that do not pass `stop`, in unbounded integers. -/
def IsSeries (start stop step : Int) (series : List Int) : Prop :=
  ∀ k : Nat, series[k]? =
    if Within stop step (start + k * step) then some (start + k * step) else none

section

variable {stop step : Int} (hstep : step ≠ 0)

include hstep in
/-- What passes `stop` goes on doing so. -/
theorem not_within_add {i : Int} (h : ¬Within stop step i) (k : Nat) :
    ¬Within stop step (i + k * step) := by
  have hk : (0 : Int) ≤ k := Int.natCast_nonneg k
  rcases lt_or_gt_of_ne hstep with hneg | hpos
  · have := Int.mul_nonpos_of_nonneg_of_nonpos hk hneg.le
    omega
  · have := Int.mul_nonneg hk hpos.le
    omega

/-- **A series** as computed is exact if it does not end at the last `i64`, or comes to it. -/
theorem isSeries_seriesLoop {cur : Int} (hstop : FitsI64 stop) (hcur : FitsI64 cur)
    (hend : stop = seriesEnd step → step ∣ stop - cur) :
    IsSeries cur stop step (seriesLoop stop step hstep cur) := by
  induction cur using seriesLoop.induct stop step hstep with
  | case1 cur hin ih =>
    rintro (_ | k)
    · rw [seriesLoop, if_pos hin]
      simpa using hin
    have hk : cur + (k + 1 : Nat) * step = cur + step + k * step := by grind
    rw [seriesLoop, if_pos hin, List.getElem?_cons_succ, hk]
    by_cases hfit : FitsI64 (cur + step)
    · have hnext : saturatingAdd cur step = cur + step := by
        rw [saturatingAdd]
        omega
      rw [hnext] at ih ⊢
      have hlast : ¬(cur + step = seriesEnd step ∧ cur = seriesEnd step) := by omega
      rw [if_neg hlast]
      refine ih hlast hfit (fun h => ?_) k
      rw [← Int.sub_sub]
      exact Int.dvd_sub (hend h) (Int.dvd_refl step)
    · -- The series is over; the loop is at the end of the range, which the step has passed over.
      rw [if_neg (not_within_add hstep (by omega) k)]
      split
      · rfl
      next hlast =>
      rw [seriesLoop, if_neg, List.getElem?_nil]
      have hne : stop = seriesEnd step → stop = cur := fun h => by
        have := Int.eq_zero_of_dvd_of_natAbs_lt_natAbs (hend h)
        rw [seriesEnd] at h
        omega
      rw [seriesEnd] at hne hlast
      rw [saturatingAdd] at hlast ⊢
      omega
  | case2 cur hout =>
    intro k
    rw [seriesLoop, if_neg hout, if_neg (not_within_add hstep hout k)]
    rfl

/-- A series that ends at the last `i64` has it as a member. -/
theorem seriesEnd_mem_seriesLoop {cur : Int} (hcur : FitsI64 cur) (hend : stop = seriesEnd step) :
    seriesEnd step ∈ seriesLoop stop step hstep cur := by
  have hin : Within stop step cur := by
    rw [seriesEnd] at hend
    omega
  induction cur using seriesLoop.induct stop step hstep with
  | case1 cur _ ih =>
    rw [seriesLoop, if_pos hin]
    split
    next hlast => exact hlast.2 ▸ List.mem_cons_self
    next hlast =>
      have hnext : FitsI64 (saturatingAdd cur step) := by
        rw [saturatingAdd]
        omega
      refine List.mem_cons_of_mem _ (ih hlast hnext ?_)
      rw [seriesEnd] at hend
      omega
  | case2 cur hout => exact absurd hin hout

/-- **Series**: the numbers `start + k * step` up to `stop` are what is returned if and only if
`stop` is not the last `i64` in the direction of the step, or one of these numbers. -/
theorem isSeries_iff (ext : Externals) {start : Int} (hstart : FitsI64 start) (hstop : FitsI64 stop)
    (hstep : step ≠ 0) :
    (∃ series, evalGenerateSeries ext [.int start, .int stop, .int step] = .ok series ∧
      IsSeries start stop step series) ↔ (stop = seriesEnd step → step ∣ stop - start) := by
  have hrun : evalGenerateSeries ext [.int start, .int stop, .int step] =
      .ok (seriesLoop stop step hstep start) := dif_neg hstep
  rw [hrun]
  constructor
  · rintro ⟨_, ⟨⟩, h⟩ hend
    obtain ⟨k, hk⟩ := List.mem_iff_getElem?.mp (seriesEnd_mem_seriesLoop hstep hstart hend)
    rw [h k, Option.ite_none_right_eq_some, Option.some.injEq, ← hend] at hk
    exact ⟨k, by grind⟩
  · intro hend
    exact ⟨_, rfl, isSeries_seriesLoop hstep hstop hstart hend⟩

end

theorem isSeries_two :
    ∃ series, evalGenerateSeries bareExternals [.int 1, .int 6, .int 2] = .ok series ∧
      IsSeries 1 6 2 series :=
  (isSeries_iff bareExternals (by decide) (by decide) (by decide)).mpr (by decide)

/-- The last `i64` is returned in place of the number behind it. -/
theorem not_isSeries_five :
    evalGenerateSeries bareExternals [.int (2 ^ 63 - 2), .int (2 ^ 63 - 1), .int 5] =
      .ok [2 ^ 63 - 2, 2 ^ 63 - 1] ∧
      ¬IsSeries (2 ^ 63 - 2) (2 ^ 63 - 1) 5 [2 ^ 63 - 2, 2 ^ 63 - 1] := by
  constructor
  · show Except.ok (seriesLoop _ _ _ _) = _
    rw [seriesLoop, if_pos (by decide), if_neg (by decide), seriesLoop, if_pos (by decide),
      if_pos (by decide)]
    rfl
  · exact fun h => absurd (h 1) (by decide)

end PostgresRs.Exec
