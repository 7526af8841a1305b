import PostgresRs.Sql.Value
import PostgresRs.Util.Distinct
import Mathlib.Algebra.Order.Field.Rat
import Mathlib.Data.Nat.Digits.Defs
import Mathlib.Tactic.FieldSimp

/-!
# Equality of values

The equality that `types/src` derives for values: decimals are compared as numbers, floats as IEEE
754 has it, so that the two zeros are equal and a NaN is not equal to itself.  Among values that are
no NaN it is an equivalence (`equivOn_eq`), and so it is among rows (`equivOn_rowEq`).
-/

namespace PostgresRs

open List Nat

/-! ## Decimals -/

namespace BigDecimal

variable {a b : List UInt8}

theorem compare_congr {α β : Type} [LinearOrder α] [LinearOrder β] {a b : α} {x y : β}
    (hlt : a < b ↔ x < y) (hgt : b < a ↔ y < x) : compare a b = compare x y := by
  rcases lt_trichotomy a b with h | rfl | h
  · rw [compare_lt_iff_lt.mpr h, compare_lt_iff_lt.mpr (hlt.mp h)]
  · have heq : x = y := le_antisymm (not_lt.mp fun h => lt_irrefl a (hgt.mpr h))
      (not_lt.mp fun h => lt_irrefl a (hlt.mpr h))
    rw [compare_eq_iff_eq.mpr rfl, compare_eq_iff_eq.mpr heq]
  · rw [compare_gt_iff_gt.mpr h, compare_gt_iff_gt.mpr (hgt.mp h)]

/-- Digits as a number in the base `B`. -/
def digitsValue (B : Nat) (ds : List UInt8) : Nat := Nat.ofDigits B (ds.map UInt8.toNat).reverse

/-- Every digit is one of the base `B`.  All bytes are digits of the base 256. -/
def DigitsBelow (B : Nat) (ds : List UInt8) : Prop := ∀ x ∈ ds, x.toNat < B

theorem digitsBelow_byte (ds : List UInt8) : DigitsBelow 256 ds := fun x _ => x.toNat_lt

variable {B : Nat}

theorem digitsValue_cons (x : UInt8) (ds : List UInt8) :
    digitsValue B (x :: ds) = digitsValue B ds + B ^ ds.length * x.toNat := by
  rw [digitsValue, map_cons, ofDigits_reverse_cons, length_map, digitsValue]

theorem digitsValue_lt {ds : List UInt8} (h : DigitsBelow B ds) :
    digitsValue B ds < B ^ ds.length := by
  induction ds with
  | nil => exact Nat.one_pos
  | cons x ds ih =>
    obtain ⟨hx, hds⟩ := forall_mem_cons.mp h
    rw [digitsValue_cons, length_cons, Nat.pow_succ]
    calc digitsValue B ds + B ^ ds.length * x.toNat < B ^ ds.length * (x.toNat + 1) := by
          rw [Nat.add_comm]
          exact Nat.add_lt_add_left (ih hds) _
      _ ≤ B ^ ds.length * B := Nat.mul_le_mul_left _ hx

theorem digitsValue_dropWhile (ds : List UInt8) :
    digitsValue B (ds.dropWhile (· == 0)) = digitsValue B ds := by
  induction ds with
  | nil => rfl
  | cons x ds ih =>
    rw [dropWhile_cons]
    split
    · next hx =>
      rw [ih, digitsValue_cons, beq_iff_eq.mp hx]
      rfl
    · rfl

theorem digitsValue_append_zeros (ds : List UInt8) (n : Nat) :
    digitsValue B (ds ++ List.replicate n 0) = digitsValue B ds * B ^ n := by
  rw [digitsValue, map_append, map_replicate, reverse_append, ofDigits_append,
    reverse_replicate, length_replicate, show UInt8.toNat 0 = 0 from rfl,
    ofDigits_replicate_zero, zero_add, mul_comm, digitsValue]

section

variable (hB : 0 < B) (ha : DigitsBelow B a) (hb : DigitsBelow B b)

include ha

/-- A larger first digit decides. -/
theorem digitsValue_lt_of_head (h : a.length = b.length) {x y : UInt8} (hxy : x.toNat < y.toNat) :
    digitsValue B (x :: a) < digitsValue B (y :: b) := by
  rw [digitsValue_cons, digitsValue_cons, ← h]
  calc digitsValue B a + B ^ a.length * x.toNat < B ^ a.length * (x.toNat + 1) := by
        rw [Nat.add_comm]
        exact Nat.add_lt_add_left (digitsValue_lt ha) _
    _ ≤ B ^ a.length * y.toNat := Nat.mul_le_mul_left _ hxy
    _ ≤ digitsValue B b + B ^ a.length * y.toNat := Nat.le_add_left _ _

include hb in
theorem digitsCmp_eq (h : a.length = b.length) :
    digitsCmp a b = compare (digitsValue B a) (digitsValue B b) := by
  induction a generalizing b with
  | nil =>
    rw [eq_nil_of_length_eq_zero h.symm]
    rfl
  | cons x a ih =>
    obtain ⟨y, b, rfl⟩ := exists_cons_of_length_eq_add_one h.symm
    obtain ⟨-, ha⟩ := forall_mem_cons.mp ha
    obtain ⟨-, hb⟩ := forall_mem_cons.mp hb
    have h := Nat.succ.inj h
    have hxy : compare x y = compare x.toNat y.toNat := by
      simp only [compare, compareOfLessAndEq, UInt8.lt_iff_toNat_lt, UInt8.toNat_inj]
    rw [digitsCmp, ih ha hb h, hxy]
    rcases lt_trichotomy x.toNat y.toNat with hlt | heq | hlt
    · rw [compare_lt_iff_lt.mpr hlt, compare_lt_iff_lt.mpr (digitsValue_lt_of_head ha h hlt)]
      rfl
    · rw [compare_eq_iff_eq.mpr heq, digitsValue_cons, digitsValue_cons, h, heq]
      exact compare_congr (by omega) (by omega)
    · rw [compare_gt_iff_gt.mpr hlt, compare_gt_iff_gt.mpr (digitsValue_lt_of_head hb h.symm hlt)]
      rfl

include hB

/-- A longer number without leading zeros is larger. -/
theorem digitsValue_lt_of_length (h : a.length < b.length) (hhead : b.head? ≠ some 0) :
    digitsValue B a < digitsValue B b := by
  obtain ⟨x, b, rfl⟩ := exists_cons_of_length_pos (zero_lt_of_lt h)
  have hx : 1 ≤ x.toNat := one_le_iff_ne_zero.mpr fun h =>
    hhead (congrArg some (UInt8.toNat_inj.mp h))
  rw [digitsValue_cons]
  calc digitsValue B a < B ^ a.length := digitsValue_lt ha
    _ ≤ B ^ b.length := Nat.pow_le_pow_right hB (le_of_lt_succ h)
    _ ≤ B ^ b.length * x.toNat := Nat.le_mul_of_pos_right _ hx
    _ ≤ digitsValue B b + B ^ b.length * x.toNat := le_add_left _ _

include hb in
theorem magCmp_eq :
    magCmp a.reverse b.reverse = compare (digitsValue B a) (digitsValue B b) := by
  have hhead : ∀ l : List UInt8, (l.dropWhile (· == 0)).head? ≠ some 0 := by
    intro l h
    have := head?_dropWhile_not (· == 0) l
    rw [h] at this
    exact Bool.noConfusion this
  have hbelow : ∀ {l}, DigitsBelow B l → DigitsBelow B (l.dropWhile (· == 0)) :=
    fun hl x hx => hl x (dropWhile_subset _ hx)
  rw [magCmp, reverse_reverse, reverse_reverse, ← digitsValue_dropWhile a,
    ← digitsValue_dropWhile b]
  have ha' := hhead a
  have hb' := hhead b
  replace ha := hbelow ha
  replace hb := hbelow hb
  generalize a.dropWhile (· == 0) = a at ha ha'
  generalize b.dropWhile (· == 0) = b at hb hb'
  rcases lt_trichotomy a.length b.length with h | h | h
  · rw [compare_lt_iff_lt.mpr h, compare_lt_iff_lt.mpr (digitsValue_lt_of_length hB ha h hb')]
    rfl
  · rw [compare_eq_iff_eq.mpr h, digitsCmp_eq ha hb h]
    rfl
  · rw [compare_gt_iff_gt.mpr h, compare_gt_iff_gt.mpr (digitsValue_lt_of_length hB hb h ha')]
    rfl

end

/-- A decimal as a number, with digits of the base `B`. -/
def value (B : Nat) (d : BigDecimal) : ℚ :=
  (if d.negative then -1 else 1) * (digitsValue B d.digits / B ^ d.scale)

theorem isZero_eq (hB : 0 < B) (d : BigDecimal) : d.isZero = (digitsValue B d.digits == 0) := by
  rw [Bool.eq_iff_iff, isZero, beq_iff_eq]
  induction d.digits with
  | nil => simp [digitsValue]
  | cons x ds ih => simp [digitsValue_cons, ← UInt8.toNat_inj, and_comm, ← ih, hB.ne']

/-- **Decimals are compared** as numbers, in any base that has their digits. -/
theorem cmp_eq {d e : BigDecimal} (hB : 0 < B) (hd : DigitsBelow B d.digits)
    (he : DigitsBelow B e.digits) : d.cmp e = compare (d.value B) (e.value B) := by
  have haligned : ∀ x : BigDecimal, ∀ t,
      x.alignedLsf t = (x.digits ++ List.replicate (t - x.scale) 0).reverse := by
    intro x t
    rw [alignedLsf, reverse_append, reverse_replicate]
  have hbelow : ∀ {x : BigDecimal} {t}, DigitsBelow B x.digits →
      DigitsBelow B (x.digits ++ List.replicate (t - x.scale) 0) := by
    intro x t hx y hy
    rcases mem_append.mp hy with hy | hy
    · exact hx y hy
    · rw [eq_of_mem_replicate hy]
      exact hB
  have hvalue : ∀ x : BigDecimal, ∀ t, x.scale ≤ t → x.value B * B ^ t =
      ((if x.negative then -1 else 1) * (digitsValue B x.digits * B ^ (t - x.scale) : Nat) :
        Int) := by
    intro x t ht
    obtain ⟨k, rfl⟩ := Nat.exists_eq_add_of_le ht
    have hne : (B : ℚ) ≠ 0 := Nat.cast_ne_zero.mpr hB.ne'
    rw [value, Nat.add_sub_cancel_left, pow_add]
    push_cast
    field_simp
  have hpos : (0 : ℚ) < B ^ max d.scale e.scale := pow_pos (Nat.cast_pos.mpr hB) _
  have hscale : compare (d.value B) (e.value B) = compare (d.value B * B ^ max d.scale e.scale)
      (e.value B * B ^ max d.scale e.scale) :=
    compare_congr (mul_lt_mul_iff_left₀ hpos).symm (mul_lt_mul_iff_left₀ hpos).symm
  have hzero : ∀ x : BigDecimal, ∀ t,
      x.isZero = (digitsValue B x.digits * B ^ (t - x.scale) == 0) := by
    intro x t
    rw [isZero_eq hB, Bool.eq_iff_iff]
    simp [hB.ne']
  rw [hscale, hvalue d _ (le_max_left ..), hvalue e _ (le_max_right ..),
    ← compare_congr Int.cast_lt.symm Int.cast_lt.symm, cmp, hzero d, hzero e]
  simp only [haligned, magCmp_eq hB (hbelow hd) (hbelow he), digitsValue_append_zeros]
  generalize digitsValue B d.digits * B ^ (max d.scale e.scale - d.scale) = m
  generalize digitsValue B e.digits * B ^ (max d.scale e.scale - e.scale) = n
  split
  · simp_all
  next h =>
  simp only [Bool.and_eq_true, beq_iff_eq, not_and_or] at h
  cases d.negative <;> cases e.negative <;>
    simp only [if_true, Bool.false_eq_true, if_false, one_mul, neg_one_mul]
  · exact compare_congr Nat.cast_lt.symm Nat.cast_lt.symm
  · exact (compare_gt_iff_gt.mpr (by omega)).symm
  · exact (compare_lt_iff_lt.mpr (by omega)).symm
  · rw [← Std.OrientedCmp.eq_swap]
    exact compare_congr (by omega) (by omega)

instance : Std.TransCmp cmp := by
  have hcmp : cmp = compareOn (value 256) := funext₂ fun _ _ =>
    cmp_eq (by decide) (digitsBelow_byte _) (digitsBelow_byte _)
  rw [hcmp]
  infer_instance

/-- Equality of numbers. -/
theorem equivOn_cmp : EquivOn (fun d e : BigDecimal => d.cmp e == .eq) fun _ => True where
  refl _ _ := beq_iff_eq.mpr Std.ReflCmp.compare_self
  symm _ _ _ _ h := beq_iff_eq.mpr (Std.OrientedCmp.eq_symm (beq_iff_eq.mp h))
  trans _ _ _ _ _ _ hde hef := beq_iff_eq.mpr
    (Std.TransCmp.eq_trans (beq_iff_eq.mp hde) (beq_iff_eq.mp hef))

end BigDecimal

/-! ## Floats -/

namespace F64

/-- `==` of doubles. -/
def eq (f g : F64) : Bool := f.partialCmp g == some .eq

theorem eq_iff {f g : F64} (hf : f.isNan = false) (hg : g.isNan = false) :
    f.eq g = true ↔ f.rank = g.rank := by
  rw [eq, partialCmp, hf, hg, if_neg (by decide), beq_iff_eq, Option.some.injEq, compare_eq_iff_eq]

theorem eq_of_isNan {f g : F64} (h : f.isNan = true ∨ g.isNan = true) : f.eq g = false := by
  rw [eq, partialCmp, if_pos (by simpa using h)]
  rfl

end F64

/-! ## Values and rows -/

namespace Value

/-- The derived `==`. -/
def eq : Value → Value → Bool
  | null, null => true
  | int a, int b => a == b
  | float a, float b => a.eq b
  | numeric a, numeric b => a.cmp b == .eq
  | text a, text b => a == b
  | bool a, bool b => a == b
  | _, _ => false

def isNan : Value → Bool
  | float f => f.isNan
  | _ => false

theorem equivOn_eq : EquivOn eq fun v => v.isNan = false where
  refl v hv := by
    cases v with
    | float f => exact (F64.eq_iff hv hv).mpr rfl
    | numeric d => exact BigDecimal.equivOn_cmp.refl d trivial
    | _ => simp [eq]
  symm v w hv hw h := by
    cases v <;> cases w <;> try contradiction
    case float.float f g => exact (F64.eq_iff hw hv).mpr ((F64.eq_iff hv hw).mp h).symm
    case numeric.numeric d e => exact BigDecimal.equivOn_cmp.symm d e trivial trivial h
    all_goals simp_all [eq]
  trans u v w hu hv hw huv hvw := by
    cases u <;> cases v <;> try contradiction
    all_goals cases w <;> try contradiction
    case float.float.float f g k =>
      exact (F64.eq_iff hu hw).mpr (((F64.eq_iff hu hv).mp huv).trans ((F64.eq_iff hv hw).mp hvw))
    case numeric.numeric.numeric d e k =>
      exact BigDecimal.equivOn_cmp.trans d e k trivial trivial trivial huv hvw
    all_goals simp_all [eq]

/-- A NaN is equal to nothing. -/
theorem eq_of_isNan {v w : Value} (h : v.isNan = true ∨ w.isNan = true) : v.eq w = false := by
  cases v <;> cases w <;> try rfl
  case float.float f g => exact F64.eq_of_isNan h
  all_goals exact (h.elim Bool.false_ne_true Bool.false_ne_true).elim

end Value

/-- `==` of rows. -/
def rowEq (row row' : List Value) : Bool := row.isEqv row' Value.eq

/-- No value of the row is a NaN. -/
def NanFree (row : List Value) : Prop := ∀ v ∈ row, v.isNan = false

instance (row : List Value) : Decidable (NanFree row) :=
  inferInstanceAs (Decidable (∀ v ∈ row, v.isNan = false))

/-- Rows are equal if they are of one length and equal at each place. -/
theorem rowEq_iff {row row' : List Value} : rowEq row row' = true ↔
    row.length = row'.length ∧ ∀ i (h : i < row.length) (h' : i < row'.length),
      row[i].eq row'[i] = true := by
  rw [rowEq, isEqv_eq_decide]
  split_ifs with hlength
  · rw [decide_eq_true_iff]
    exact ⟨fun h => ⟨hlength, fun i hi _ => h i hi⟩, fun h i hi => h.2 i hi (hlength ▸ hi)⟩
  · exact iff_of_false id fun h => hlength h.1

/-- **Equality of rows** is an equivalence if there is no NaN. -/
theorem equivOn_rowEq : EquivOn rowEq NanFree where
  refl row hrow := rowEq_iff.mpr
    ⟨rfl, fun i hi _ => Value.equivOn_eq.refl _ (hrow _ (getElem_mem hi))⟩
  symm row row' hrow hrow' h := by
    obtain ⟨hlength, heq⟩ := rowEq_iff.mp h
    refine rowEq_iff.mpr ⟨hlength.symm, fun i hi' hi => ?_⟩
    exact Value.equivOn_eq.symm _ _ (hrow _ (getElem_mem hi)) (hrow' _ (getElem_mem hi'))
      (heq i hi hi')
  trans row₁ row₂ row₃ h₁ h₂ h₃ h₁₂ h₂₃ := by
    obtain ⟨hlength, heq⟩ := rowEq_iff.mp h₁₂
    obtain ⟨hlength', heq'⟩ := rowEq_iff.mp h₂₃
    refine rowEq_iff.mpr ⟨hlength.trans hlength', fun i hi₁ hi₃ => ?_⟩
    have hi₂ : i < row₂.length := hlength ▸ hi₁
    exact Value.equivOn_eq.trans _ _ _ (h₁ _ (getElem_mem hi₁)) (h₂ _ (getElem_mem hi₂))
      (h₃ _ (getElem_mem hi₃)) (heq i hi₁ hi₂) (heq' i hi₂ hi₃)

/-- Rows that are equal have no NaN. -/
theorem nanFree_of_rowEq {row row' : List Value} (h : rowEq row row' = true) :
    NanFree row ∧ NanFree row' := by
  obtain ⟨hlength, heq⟩ := rowEq_iff.mp h
  have hnan : ∀ {v w : Value}, v.eq w = true → ¬(v.isNan = true ∨ w.isNan = true) := fun hvw hnan =>
    Bool.false_ne_true ((Value.eq_of_isNan hnan).symm.trans hvw)
  constructor <;> intro v hv <;> obtain ⟨i, hi, rfl⟩ := getElem_of_mem hv
  · exact Bool.eq_false_iff.mpr fun hv => hnan (heq i hi (hlength ▸ hi)) (.inl hv)
  · exact Bool.eq_false_iff.mpr fun hv => hnan (heq i (hlength ▸ hi) hi) (.inr hv)

end PostgresRs
