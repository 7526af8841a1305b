import PostgresRs.Util.Float64
import Mathlib.Algebra.Order.Field.Rat
import Mathlib.Tactic.Linarith
import Mathlib.Tactic.Ring

/-!
# Rounding is monotone

A ratio that is not larger is rounded to a magnitude that is not larger (`roundRatio_le`), and so it
is for the doubles with a sign (`rank_ofParts`).
-/

namespace PostgresRs.F64

/-- The natural number nearest to `n / d`, the even one of two. -/
def roundEven (n d : Nat) : Nat :=
  n / d + if d < 2 * (n % d) ∨ d = 2 * (n % d) ∧ n / d % 2 = 1 then 1 else 0

theorem div_le_roundEven (n d : Nat) : n / d ≤ roundEven n d := Nat.le_add_right _ _

theorem roundEven_le (n d : Nat) : roundEven n d ≤ n / d + 1 := by
  rw [roundEven]
  split <;> omega

theorem roundEven_mono {n d n' d' : Nat} (hd : 0 < d) (hd' : 0 < d') (h : n * d' ≤ n' * d) :
    roundEven n d ≤ roundEven n' d' := by
  have hdiv : n / d ≤ n' / d' := by
    rw [Nat.le_div_iff_mul_le hd', ← Nat.mul_le_mul_right_iff hd]
    calc n / d * d' * d = n / d * d * d' := by ring
      _ ≤ n * d' := Nat.mul_le_mul_right _ (Nat.div_mul_le_self n d)
      _ ≤ n' * d := h
  rcases Nat.lt_or_eq_of_le hdiv with hlt | heq
  · exact (roundEven_le n d).trans (hlt.trans_le (div_le_roundEven n' d'))
  -- With one integral part, what is left over decides.
  have hrest : n % d * d' ≤ n' % d' * d := by
    have hn := Nat.div_add_mod n d
    have hn' := Nat.div_add_mod n' d'
    rw [← heq] at hn'
    generalize n / d = q at hn hn'
    generalize n % d = r at hn ⊢
    generalize n' % d' = r' at hn' ⊢
    subst hn hn'
    nlinarith
  rw [roundEven, roundEven, ← heq]
  generalize n % d = r at hrest ⊢
  generalize n' % d' = r' at hrest ⊢
  have hup : d < 2 * r → d' < 2 * r' := fun hr => by
    by_contra hr'
    nlinarith
  have htie : d = 2 * r → d' ≤ 2 * r' := fun hr => by
    by_contra hr'
    nlinarith
  split <;> split <;> omega

/-! ## Magnitudes -/

/-- The bits of a quotient that do not fit into a double. -/
def excess (q : Nat) : Nat := Nat.log2 q + 1 - 53

theorem roundRatio_eq (num den : Nat) : roundRatio num den =
    min infinite (excess (num * 2 ^ 1074 / den) * 2 ^ 52 +
      roundEven (num * 2 ^ 1074) (den * 2 ^ excess (num * 2 ^ 1074 / den))) := by
  have hlow : ∀ n k, n / den % 2 ^ k * den + n % den = n % (den * 2 ^ k) := fun n k => by
    rw [Nat.mod_mul, Nat.mul_comm, Nat.add_comm]
  rw [roundRatio]
  simp only [Nat.div_div_eq_div_mul, hlow, roundEven, excess, Nat.mul_comm (2 ^ _) den,
    Nat.add_assoc]
  rfl

theorem lt_two_pow_excess (q : Nat) : q < 2 ^ 53 * 2 ^ excess q := by
  rw [← Nat.pow_add]
  refine Nat.lt_log2_self.trans_le (Nat.pow_le_pow_right (by decide) ?_)
  rw [excess]
  omega

theorem two_pow_excess_le {q : Nat} (h : 0 < excess q) : 2 ^ 52 * 2 ^ excess q ≤ q := by
  have hq : q ≠ 0 := by
    rintro rfl
    simp [excess] at h
  rw [← Nat.pow_add]
  refine le_trans (Nat.pow_le_pow_right (by decide) ?_) (Nat.log2_self_le hq)
  rw [excess] at h ⊢
  omega

theorem excess_mono {q q' : Nat} (h : q ≤ q') : excess q ≤ excess q' := by
  have hlog : Nat.log2 q ≤ Nat.log2 q' := by
    rw [Nat.log2_eq_log_two, Nat.log2_eq_log_two]
    exact Nat.log_mono_right h
  rw [excess, excess]
  omega

/-- **Rounding is monotone** in the ratio. -/
theorem roundRatio_le {num den num' den' : Nat} (hden : 0 < den) (hden' : 0 < den')
    (h : num * den' ≤ num' * den) : roundRatio num den ≤ roundRatio num' den' := by
  have hn : num * 2 ^ 1074 * den' ≤ num' * 2 ^ 1074 * den := by
    rw [Nat.mul_right_comm, Nat.mul_right_comm num']
    exact Nat.mul_le_mul_right _ h
  rw [roundRatio_eq, roundRatio_eq]
  generalize num * 2 ^ 1074 = n at hn
  generalize num' * 2 ^ 1074 = n' at hn
  have hq : n / den ≤ n' / den' := by
    rw [Nat.le_div_iff_mul_le hden', ← Nat.mul_le_mul_right_iff hden]
    calc n / den * den' * den = n / den * den * den' := by ring
      _ ≤ n * den' := Nat.mul_le_mul_right _ (Nat.div_mul_le_self n den)
      _ ≤ n' * den := hn
  have hbound : roundEven n (den * 2 ^ excess (n / den)) ≤ 2 ^ 53 := by
    refine (roundEven_le _ _).trans ?_
    rw [← Nat.div_div_eq_div_mul]
    exact Nat.div_lt_of_lt_mul (Nat.mul_comm _ _ ▸ lt_two_pow_excess (n / den))
  refine min_le_min_left _ ?_
  rcases Nat.lt_or_eq_of_le (excess_mono hq) with hlt | heq
  · -- A larger exponent makes up for any fraction.
    have hbound' : 2 ^ 52 ≤ roundEven n' (den' * 2 ^ excess (n' / den')) := by
      refine le_trans ?_ (div_le_roundEven _ _)
      rw [← Nat.div_div_eq_div_mul, Nat.le_div_iff_mul_le (Nat.two_pow_pos _)]
      exact two_pow_excess_le (Nat.zero_lt_of_lt hlt)
    omega
  · rw [← heq]
    refine Nat.add_le_add_left (roundEven_mono ?_ ?_ ?_) _
    · exact Nat.mul_pos hden (Nat.two_pow_pos _)
    · exact Nat.mul_pos hden' (Nat.two_pow_pos _)
    · nlinarith [Nat.two_pow_pos (excess (n / den))]

theorem roundRatio_le_infinite (num den : Nat) : roundRatio num den ≤ infinite := min_le_left _ _

/-! ## Doubles -/

section

variable {neg : Bool} {m : Nat} (h : m ≤ infinite)

include h

theorem toNat_ofParts : (ofParts neg m).bits.toNat = (if neg then 2 ^ 63 else 0) + m := by
  have hm : m < 2 ^ 63 := Nat.lt_of_le_of_lt h (by decide)
  rw [ofParts, UInt64.toNat_ofNat_of_lt']
  split <;> simp [UInt64.size] <;> omega

theorem magnitude_ofParts : (ofParts neg m).magnitude = m := by
  have hm : m < 2 ^ 63 := Nat.lt_of_le_of_lt h (by decide)
  rw [magnitude, toNat_ofParts h]
  split <;> omega

theorem isNan_ofParts : (ofParts neg m).isNan = false := by
  rw [isNan, magnitude_ofParts h]
  exact decide_eq_false (Nat.not_lt.mpr h)

theorem rank_ofParts : (ofParts neg m).rank = if neg then -(m : Int) else m := by
  have hm : m < 2 ^ 63 := Nat.lt_of_le_of_lt h (by decide)
  have hneg : (ofParts neg m).negative = neg := by
    rw [negative, toNat_ofParts h]
    cases neg <;> simp
    omega
  rw [rank, magnitude_ofParts h, hneg]

end

theorem isNan_ofInt (i : Int) : (ofInt i).isNan = false := isNan_ofParts (roundRatio_le_infinite _ _)

/-- The rank of the double nearest to a rational number. -/
def nearest (x : ℚ) : Int :=
  if x < 0 then -(roundRatio x.num.natAbs x.den : Int) else roundRatio x.num.natAbs x.den

theorem roundRatio_congr {num den num' den' : Nat} (hden : 0 < den) (hden' : 0 < den')
    (h : num * den' = num' * den) : roundRatio num den = roundRatio num' den' :=
  le_antisymm (roundRatio_le hden hden' h.le) (roundRatio_le hden' hden h.ge)

theorem roundRatio_zero {den : Nat} (hden : 0 < den) : roundRatio 0 den = 0 := by
  rw [roundRatio, Nat.zero_mul]
  simp [hden.ne']

theorem abs_eq_div (x : ℚ) : |x| = x.num.natAbs / x.den := by
  rw [Rat.abs_def, Rat.divInt_eq_div, Int.cast_natCast, Int.cast_natCast]

theorem roundRatio_of_abs {x : ℚ} {num den : Nat} (hden : 0 < den) (h : |x| = num / den) :
    roundRatio x.num.natAbs x.den = roundRatio num den := by
  refine roundRatio_congr x.den_pos hden ?_
  have hx : (x.den : ℚ) ≠ 0 := Nat.cast_ne_zero.mpr x.den_nz
  have hd : (den : ℚ) ≠ 0 := Nat.cast_ne_zero.mpr hden.ne'
  rw [abs_eq_div, div_eq_div_iff hx hd] at h
  exact_mod_cast h

/-- The double made from a ratio and a sign is the nearest one. -/
theorem rank_ofParts_roundRatio {num den : Nat} (hden : 0 < den) (neg : Bool) :
    (ofParts neg (roundRatio num den)).rank =
      nearest ((if neg then -1 else 1) * (num / den)) := by
  have hnonneg : (0 : ℚ) ≤ num / den := div_nonneg (Nat.cast_nonneg num) (Nat.cast_nonneg den)
  rw [rank_ofParts (roundRatio_le_infinite _ _), nearest, @roundRatio_of_abs _ num _ hden]
  · rcases neg with _ | _
    · have hnot : ¬ (num / den : ℚ) < 0 := not_lt.mpr hnonneg
      simp only [Bool.false_eq_true, if_false, one_mul, hnot]
    · rcases Nat.eq_zero_or_pos num with rfl | hnum
      · simp only [roundRatio_zero hden]
        split_ifs <;> rfl
      · have hpos : (0 : ℚ) < num / den := div_pos (Nat.cast_pos.mpr hnum) (Nat.cast_pos.mpr hden)
        have hneg : -1 * (num / den : ℚ) < 0 := by linarith
        simp only [if_true, hneg]
  · cases neg <;> simp [abs_of_nonneg hnonneg]

theorem nearest_mono {x y : ℚ} (h : x ≤ y) : nearest x ≤ nearest y := by
  have habs : ∀ {x y : ℚ}, |x| ≤ |y| →
      roundRatio x.num.natAbs x.den ≤ roundRatio y.num.natAbs y.den := fun {x y} hxy => by
    refine roundRatio_le x.den_pos y.den_pos ?_
    rw [abs_eq_div, abs_eq_div, div_le_div_iff₀ (Nat.cast_pos.mpr x.den_pos)
      (Nat.cast_pos.mpr y.den_pos)] at hxy
    exact_mod_cast hxy
  rw [nearest, nearest]
  split_ifs with hx hy hy
  · have hle : |y| ≤ |x| := by
      rw [abs_of_neg hx, abs_of_neg hy]
      exact neg_le_neg h
    exact neg_le_neg (Int.ofNat_le.mpr (habs hle))
  · omega
  · exact absurd (h.trans_lt hy) hx
  · have hle : |x| ≤ |y| := by
      rwa [abs_of_nonneg (not_lt.mp hx), abs_of_nonneg (not_lt.mp hy)]
    exact Int.ofNat_le.mpr (habs hle)

theorem sign_mul_natAbs (i : Int) : (if decide (i < 0) then -1 else 1) * (i.natAbs : ℚ) = i := by
  rw [← Int.cast_natCast i.natAbs]
  rcases Int.lt_or_le i 0 with hi | hi
  · rw [decide_eq_true hi, if_pos rfl, Int.ofNat_natAbs_of_nonpos hi.le, Int.cast_neg,
      neg_one_mul, neg_neg]
  · rw [decide_eq_false (not_lt.mpr hi), if_neg Bool.false_ne_true, Int.natAbs_of_nonneg hi,
      one_mul]

/-- **An integer as a double** is the nearest one. -/
theorem rank_ofInt (i : Int) : (ofInt i).rank = nearest i := by
  rw [ofInt, rank_ofParts_roundRatio Nat.one_pos, Nat.cast_one, div_one, sign_mul_natAbs]

end PostgresRs.F64
