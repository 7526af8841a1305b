import PostgresRs.Util.Text
import Mathlib.Data.List.Induction
import Mathlib.Data.Nat.Digits.Defs

/-!
# Plain spellings of integers

A text that is read as an integer is the text that is written for the integer only if it is spelled
plainly: without `+`, without zeros in front, and without a sign on zero.
-/

namespace PostgresRs.Text

open List

/-- Digits without zeros in front. -/
def plainDigits : List Char → Bool
  | '0' :: ds => ds.isEmpty
  | _ => true

/-- An integer without `+`, without zeros in front, and not `-0`. -/
def plainInteger : List Char → Bool
  | '+' :: _ => false
  | '-' :: ds => plainDigits ds && ds != ['0']
  | ds => plainDigits ds

/-! ## Digits -/

theorem isDigit_iff {c : Char} : c.isDigit = true ↔ 48 ≤ c.toNat ∧ c.toNat ≤ 57 := by
  rw [Char.isDigit]
  simp only [Bool.and_eq_true, decide_eq_true_eq, ge_iff_le, UInt32.le_iff_toNat_le]
  exact Iff.rfl

/-- A digit is the character of its value. -/
theorem digitChar_sub {c : Char} (h : c.isDigit = true) : (c.toNat - 48).digitChar = c := by
  obtain ⟨hlow, hhigh⟩ := isDigit_iff.mp h
  have hall : ∀ n, 48 ≤ n → n ≤ 57 → (n - 48).digitChar.toNat = n := by decide
  exact Char.toNat_inj.mp (hall c.toNat hlow hhigh)

theorem ofDigitChars_concat (ds : List Char) (d : Char) :
    Nat.ofDigitChars 10 (ds ++ [d]) 0 = 10 * Nat.ofDigitChars 10 ds 0 + (d.toNat - 48) := by
  rw [Nat.ofDigitChars_eq_foldl, foldl_append]
  rfl

section

variable {ds : List Char} (h : ∀ d ∈ ds, d.isDigit = true)
include h

theorem ofDigitChars_lt : Nat.ofDigitChars 10 ds 0 < 10 ^ ds.length := by
  induction ds using List.reverseRecOn with
  | nil => exact Nat.one_pos
  | append_singleton ds d ih =>
    have hds := ih fun d hd => h d (mem_append_left _ hd)
    obtain ⟨-, hhigh⟩ := isDigit_iff.mp (h d (mem_append_right _ mem_cons_self))
    rw [ofDigitChars_concat, length_append, length_singleton, Nat.pow_succ]
    omega

/-- Digits that do not start with zero are written again as they were read. -/
theorem toDigits_ofDigitChars {c : Char} (hc : ds.head? = some c) (hne : c ≠ '0') :
    0 < Nat.ofDigitChars 10 ds 0 ∧ Nat.toDigits 10 (Nat.ofDigitChars 10 ds 0) = ds := by
  induction ds using List.reverseRecOn with
  | nil => cases hc
  | append_singleton ds d ih =>
    have hd := h d (mem_append_right _ mem_cons_self)
    obtain ⟨hlow, hhigh⟩ := isDigit_iff.mp hd
    rw [ofDigitChars_concat]
    rcases ds with _ | ⟨e, ds⟩
    · obtain rfl : d = c := Option.some.inj hc
      have hpos : d.toNat ≠ 48 := fun h0 => hne (Char.toNat_inj.mp h0)
      refine ⟨by rw [Nat.ofDigitChars_nil]; omega, ?_⟩
      rw [Nat.ofDigitChars_nil, Nat.mul_zero, Nat.zero_add, Nat.toDigits_of_lt_base (by omega),
        digitChar_sub hd, nil_append]
    · obtain ⟨hpos, hdigits⟩ := ih (fun d hd => h d (mem_append_left _ hd)) hc
      refine ⟨by omega, ?_⟩
      rw [← Nat.toDigits_append_toDigits (by decide) hpos (by omega), hdigits,
        Nat.toDigits_of_lt_base (by omega), digitChar_sub hd]

/-- Digits are written again as they were read exactly if they have no zeros in front. -/
theorem toDigits_ofDigitChars_iff (hne : ds ≠ []) :
    Nat.toDigits 10 (Nat.ofDigitChars 10 ds 0) = ds ↔ plainDigits ds = true := by
  rcases ds with _ | ⟨c, ds⟩
  · exact absurd rfl hne
  by_cases hc : c = '0'
  · subst hc
    have hzero : Nat.ofDigitChars 10 ('0' :: ds) 0 = Nat.ofDigitChars 10 ds 0 := by
      rfl
    have hlt := ofDigitChars_lt fun d hd => h d (List.mem_cons_of_mem _ hd)
    rw [hzero, plainDigits, List.isEmpty_iff]
    refine ⟨fun hd => ?_, fun hd => by rw [hd]; rfl⟩
    -- The number has too few digits to be written with the zero in front.
    rcases ds with _ | ⟨d, ds⟩
    · rfl
    · have hlen := Nat.toDigits_length 10 _ _ (Nat.succ_pos ds.length) hlt
      rw [hd] at hlen
      exact absurd hlen (Nat.not_succ_le_self _)
  · refine iff_of_true (toDigits_ofDigitChars h rfl hc).2 ?_
    rw [plainDigits.eq_def]
    split
    · next heq => exact absurd (List.cons.inj heq).1 hc
    · rfl

end

/-! ## Integers -/

/-- What is read as an integer is digits, with a sign or without. -/
theorem parseI64_cases {cs : List Char} {i : Int} (h : parseI64 cs = some i) :
    ∃ ds, ds ≠ [] ∧ (∀ d ∈ ds, d.isDigit = true) ∧
      (cs = '-' :: ds ∧ i = -(Nat.ofDigitChars 10 ds 0 : Int) ∨
        cs = '+' :: ds ∧ i = (Nat.ofDigitChars 10 ds 0 : Int) ∨
        cs = ds ∧ i = (Nat.ofDigitChars 10 ds 0 : Int)) := by
  unfold parseI64 at h
  split at h
  next neg ds hsplit =>
  split at h
  · next hds =>
    obtain ⟨hne, hall⟩ := hds
    refine ⟨ds, hne, all_eq_true.mp hall, ?_⟩
    obtain ⟨-, h⟩ := Option.ite_none_right_eq_some.mp h
    obtain rfl := Option.some.inj h
    split at hsplit
    · obtain ⟨rfl, rfl⟩ := Prod.mk.inj hsplit
      exact .inl ⟨rfl, rfl⟩
    · obtain ⟨rfl, rfl⟩ := Prod.mk.inj hsplit
      exact .inr (.inl ⟨rfl, rfl⟩)
    · obtain ⟨rfl, rfl⟩ := Prod.mk.inj hsplit
      exact .inr (.inr ⟨rfl, rfl⟩)
  · cases h

end PostgresRs.Text
