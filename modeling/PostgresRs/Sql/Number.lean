import PostgresRs.Sql.Decimal
import PostgresRs.Sql.Equality
import PostgresRs.Util.Rounding
import PostgresRs.Util.Spelling

/-!
# Decimals as doubles

`to_f64` of a decimal reads its text as a double, which is the one nearest to the decimal
(`Normal.rank_toF64`).
-/

namespace PostgresRs

open List

namespace BigDecimal

theorem toNat_digitChar {x : UInt8} (h : x.toNat < 10) : (digitChar x).toNat - '0'.toNat = x.toNat := by
  have hall : ∀ n < 10, (Char.ofNat (48 + n)).toNat - '0'.toNat = n := by decide
  exact hall x.toNat h

theorem ofDigitChars_map_digitChar {ds : List UInt8} (h : DigitsBelow 10 ds) (n : Nat) :
    Nat.ofDigitChars 10 (ds.map digitChar) n = n * 10 ^ ds.length + digitsValue 10 ds := by
  induction ds generalizing n with
  | nil => simp [Nat.ofDigitChars, digitsValue]
  | cons x ds ih =>
    obtain ⟨hx, hds⟩ := forall_mem_cons.mp h
    have hstep : Nat.ofDigitChars 10 ((x :: ds).map digitChar) n =
        Nat.ofDigitChars 10 (ds.map digitChar) (10 * n + x.toNat) := by
      rw [← toNat_digitChar hx]
      rfl
    rw [hstep, ih hds, digitsValue_cons, length_cons]
    ring

theorem splitDigits_append {ds : List UInt8} (h : DigitsBelow 10 ds) (rest : List Char)
    (hrest : ∀ c, rest.head? = some c → c.isDigit = false) :
    F64.splitDigits (ds.map digitChar ++ rest) = (ds.map digitChar, rest) := by
  have hall : ∀ c ∈ ds.map digitChar, c.isDigit = true := by
    intro c hc
    obtain ⟨x, hx, rfl⟩ := mem_map.mp hc
    exact (digitChar_spec (h x hx)).1
  rw [F64.splitDigits, span_eq_takeWhile_dropWhile, takeWhile_append_of_pos hall,
    dropWhile_append_of_pos hall]
  cases rest with
  | nil => simp
  | cons c rest => simp [hrest c rfl]

/-- Digits with `scale` of them behind the point, read as a double. -/
theorem parseNumber_text {ds : List UInt8} (h : DigitsBelow 10 ds) {scale : Nat}
    (hscale : scale < ds.length) :
    F64.parseNumber ((ds.take (ds.length - scale)).map digitChar ++
      if 0 < scale then '.' :: (ds.drop (ds.length - scale)).map digitChar else []) =
        some (F64.roundRatio (digitsValue 10 ds) (10 ^ scale)) := by
  have hwhole : DigitsBelow 10 (ds.take (ds.length - scale)) :=
    fun x hx => h x (mem_of_mem_take hx)
  have hne : (ds.take (ds.length - scale)).map digitChar ≠ [] := by
    rw [Ne, map_eq_nil_iff, take_eq_nil_iff]
    rintro (h | rfl)
    · omega
    · simp at hscale
  rw [F64.parseNumber]
  rcases Nat.eq_zero_or_pos scale with rfl | hpos
  · have hsplit := splitDigits_append h [] (by simp)
    have hds : ds ≠ [] := ne_nil_of_length_pos hscale
    simp only [Nat.lt_irrefl, if_false, Nat.sub_zero, take_length, hsplit]
    simp [hds, F64.parseExponent, F64.ofDecimal, ofDigitChars_map_digitChar h]
  · have hfrac : DigitsBelow 10 (ds.drop (ds.length - scale)) :=
      fun x hx => h x (mem_of_mem_drop hx)
    have hlength : (ds.drop (ds.length - scale)).length = scale := by
      rw [length_drop]
      omega
    have hsplit := splitDigits_append hwhole
      ('.' :: (ds.drop (ds.length - scale)).map digitChar) (by simp)
    have hsplit' := splitDigits_append hfrac [] (by simp)
    rw [append_nil] at hsplit'
    simp only [hpos, if_true, hsplit, hsplit', hne, false_and, if_false, ← map_append,
      take_append_drop, length_map, hlength, ofDigitChars_map_digitChar h]
    simp [F64.parseExponent, F64.ofDecimal, hpos.ne']

namespace Normal

variable {d : BigDecimal} (h : d.Normal)

include h

theorem toF64_eq : d.toF64 = F64.ofParts d.negative
    (F64.roundRatio (digitsValue 10 d.digits) (10 ^ d.scale)) := by
  obtain ⟨x, xs, hxs, hx, hsign⟩ := h.splitSign_toCanonicalString
  have hvalue : digitsValue 10 d.padded.digits = digitsValue 10 d.digits := by
    rw [← digitsValue_dropWhile, padded, dropWhile_append_of_pos fun x hx => by
      rw [eq_of_mem_replicate hx]; rfl, digitsValue_dropWhile]
  have hnumber := parseNumber_text h.forall_padded (scale_lt_length_padded d)
  rw [hvalue] at hnumber
  rw [toF64, F64.parse, hsign]
  dsimp only
  -- A text that starts with a digit is none of the words.
  have hhead : ∀ rest w, String.ofList (((x :: xs).map digitChar ++ rest).map Char.toLower) = w →
      w.toList.head?.all (fun c => !c.isAlpha) = true := by
    rintro rest w rfl
    have hall : ∀ n < 10, (!(Char.ofNat (48 + n)).toLower.isAlpha) = true := by decide
    simpa [digitChar] using hall x.toNat hx
  rw [hxs] at hnumber ⊢
  split
  case h_4 =>
    rw [hnumber]
    rfl
  all_goals
    next hword => exact absurd (hhead _ _ hword) (by decide)

theorem isNan_toF64 : d.toF64.isNan = false := by
  rw [h.toF64_eq]
  exact F64.isNan_ofParts (F64.roundRatio_le_infinite _ _)

/-- **A decimal as a double** is the nearest one. -/
theorem rank_toF64 : d.toF64.rank = F64.nearest (d.value 10) := by
  rw [h.toF64_eq, F64.rank_ofParts_roundRatio (Nat.pow_pos (by decide)), value]
  push_cast
  rfl

end Normal

/-! ## Integers as decimals -/

theorem digitsValue_drop_zeros (B k : Nat) (ds : List UInt8) :
    digitsValue B (ds.drop ((ds.take k).takeWhile (· == 0)).length) = digitsValue B ds := by
  induction ds generalizing k with
  | nil => simp
  | cons x ds ih =>
    cases k with
    | zero => simp
    | succ k =>
      rw [take_succ_cons, takeWhile_cons]
      split
      · next hx =>
        rw [length_cons, drop_succ_cons, ih, digitsValue_cons, beq_iff_eq.mp hx]
        rfl
      · rfl

/-- Zeros in front and the sign of zero do not count. -/
theorem value_normalize {B : Nat} (hB : 0 < B) (d : BigDecimal) :
    d.normalize.value B = d.value B := by
  have hdigits : digitsValue B d.normalize.digits = digitsValue B d.digits := by
    rw [normalize, digitsValue_drop_zeros]
    split
    · next h => rw [h]; simp [digitsValue]
    · rfl
  have hzero : d.normalize.isZero = (digitsValue B d.digits == 0) := by
    rw [isZero_eq hB, hdigits]
  have hneg : d.normalize.negative = (d.negative && !(digitsValue B d.digits == 0)) := by
    rw [← hzero]
    rfl
  rw [value, value, hdigits, hneg, show d.normalize.scale = d.scale from rfl]
  rcases Nat.eq_zero_or_pos (digitsValue B d.digits) with h | h
  · simp [h]
  · simp [h.ne']

theorem digitsOf_spec (n : Nat) :
    DigitsBelow 10 (digitsOf n) ∧ digitsValue 10 (digitsOf n) = n := by
  have hchar : ∀ c : Char, c.isDigit = true →
      (UInt8.ofNat (c.toNat - 48)).toNat < 10 ∧ digitChar (.ofNat (c.toNat - 48)) = c := by
    intro c hc
    obtain ⟨hlow, hhigh⟩ := Text.isDigit_iff.mp hc
    have hall : ∀ n, 48 ≤ n → n ≤ 57 → (UInt8.ofNat (n - 48)).toNat < 10 ∧
        (digitChar (.ofNat (n - 48))).toNat = n := by decide
    obtain ⟨hlt, heq⟩ := hall c.toNat hlow hhigh
    exact ⟨hlt, Char.toNat_inj.mp heq⟩
  have hdigit : ∀ c ∈ Nat.toDigits 10 n, c.isDigit = true := fun c hc =>
    Nat.isDigit_of_mem_toDigits (by decide) (by decide) hc
  have hbelow : DigitsBelow 10 (digitsOf n) := by
    intro x hx
    obtain ⟨c, hc, rfl⟩ := mem_map.mp hx
    exact (hchar c (hdigit c hc)).1
  have hmap : (digitsOf n).map digitChar = Nat.toDigits 10 n := by
    rw [digitsOf, map_map]
    exact (map_congr_left fun c hc => (hchar c (hdigit c hc)).2).trans (map_id _)
  have hvalue := ofDigitChars_map_digitChar hbelow 0
  rw [hmap, Nat.ofDigitChars_ten_toDigits, Nat.zero_mul, Nat.zero_add] at hvalue
  exact ⟨hbelow, hvalue.symm⟩

/-- **An integer as a decimal** is the same number. -/
theorem fromI64_spec (i : Int) :
    DigitsBelow 10 (fromI64 i).digits ∧ (fromI64 i).value 10 = i := by
  obtain ⟨hbelow, hvalue⟩ := digitsOf_spec i.natAbs
  refine ⟨fun x hx => ?_, ?_⟩
  · rw [fromI64, normalize] at hx
    have hx := mem_of_mem_drop hx
    split at hx
    · rw [mem_singleton.mp hx]
      decide
    · exact hbelow x hx
  · rw [fromI64, value_normalize (by decide), value, hvalue, pow_zero, div_one]
    exact F64.sign_mul_natAbs i

end BigDecimal

end PostgresRs
