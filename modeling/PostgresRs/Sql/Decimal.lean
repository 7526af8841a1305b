import Mathlib.Data.FinEnum
import PostgresRs.Sql.Value

/-!
# Decimals and their texts

A decimal is read back from its text with zeros in front, one before the point at least
(`parse_toCanonicalString`).  So decimals are the same when they have the same sign and scale, and the
same digits but for zeros in front (`Value.Same`).
-/

namespace PostgresRs

open List

namespace Text

theorem trimList_of_forall {cs : List Char} (h : ∀ c ∈ cs, isWhitespace c = false) :
    trimList cs = cs := by
  have hkeep : ∀ l : List Char, (∀ c ∈ l, isWhitespace c = false) → l.dropWhile isWhitespace = l := by
    intro l hl
    cases l with
    | nil => rfl
    | cons c l => rw [dropWhile_cons_of_neg (by rw [hl c mem_cons_self]; exact Bool.false_ne_true)]
  rw [trimList, hkeep cs h, hkeep _ fun c hc => h c (mem_reverse.mp hc), reverse_reverse]

end Text

namespace BigDecimal

/-- Digits, without zeros in front that `normalize` would take away, and a positive zero. -/
structure Normal (d : BigDecimal) : Prop where
  digits : ∀ x ∈ d.digits, x.toNat < 10
  normalize : d.normalize = d

instance (d : BigDecimal) : Decidable d.Normal :=
  decidable_of_iff ((∀ x ∈ d.digits, x.toNat < 10) ∧ d.normalize = d)
    ⟨fun h => ⟨h.1, h.2⟩, fun h => ⟨h.1, h.2⟩⟩

/-- With zeros in front, up to one digit before the point. -/
def padded (d : BigDecimal) : BigDecimal :=
  { d with digits := List.replicate (d.scale + 1 - d.digits.length) 0 ++ d.digits }

variable {d : BigDecimal}

theorem isZero_padded : d.padded.isZero = d.isZero := by
  rw [isZero, padded, all_append, isZero, all_replicate]
  split <;> rfl

theorem scale_lt_length_padded (d : BigDecimal) : d.scale < d.padded.digits.length := by
  rw [padded, length_append, length_replicate]
  omega

/-- The text of a decimal is made from its padded digits. -/
theorem toCanonicalString_eq (d : BigDecimal) : d.toCanonicalString =
    (if d.negative && !d.isZero then ['-'] else []) ++
      (d.padded.digits.take (d.padded.digits.length - d.scale)).map digitChar ++
      if 0 < d.scale then
        '.' :: (d.padded.digits.drop (d.padded.digits.length - d.scale)).map digitChar
      else [] := by
  rw [toCanonicalString]
  rcases Nat.lt_or_ge d.scale d.digits.length with h | h
  · have hpad : d.padded.digits = d.digits := by
      rw [padded, Nat.sub_eq_zero_of_le h, replicate_zero, nil_append]
    rw [hpad, if_neg (Nat.sub_ne_zero_of_lt h), Nat.sub_eq_zero_of_le h.le, replicate_zero,
      nil_append]
  · have hint : d.digits.length - d.scale = 0 := by omega
    have hpad : d.padded.digits = 0 :: (List.replicate (d.scale - d.digits.length) 0 ++ d.digits) := by
      rw [padded, show d.scale + 1 - d.digits.length = d.scale - d.digits.length + 1 by omega,
        replicate_succ, cons_append]
    have hone : d.padded.digits.length - d.scale = 1 := by
      rw [hpad, length_cons, length_append, length_replicate]
      omega
    rw [hone, hpad, if_pos hint, hint, drop_zero, drop_succ_cons, drop_zero,
      map_append, map_replicate]
    rfl

/-! ## Reading -/

/-- A digit as a character. -/
theorem digitChar_spec {x : UInt8} (h : x.toNat < 10) : (digitChar x).isDigit = true ∧
    UInt8.ofNat ((digitChar x).toNat - 48) = x ∧ Text.isWhitespace (digitChar x) = false ∧
    digitChar x ≠ '-' ∧ digitChar x ≠ '+' := by
  have hall : ∀ n < 10, (Char.ofNat (48 + n)).isDigit = true ∧
      (Char.ofNat (48 + n)).toNat - 48 = n ∧ Text.isWhitespace (Char.ofNat (48 + n)) = false ∧
      Char.ofNat (48 + n) ≠ '-' ∧ Char.ofNat (48 + n) ≠ '+' := by decide
  obtain ⟨hdigit, hval, hrest⟩ := hall x.toNat h
  refine ⟨hdigit, ?_, hrest⟩
  rw [digitChar, hval, UInt8.ofNat_toNat]

theorem parseDigits_map_digitChar {digits : List UInt8} (h : ∀ x ∈ digits, x.toNat < 10)
    (seenDot : Bool) (cs : List Char) : parseDigits seenDot (digits.map digitChar ++ cs) =
      (parseDigits seenDot cs).map fun (rest, frac, exp) =>
        (digits ++ rest, frac + (if seenDot then digits.length else 0), exp) := by
  induction digits with
  | nil =>
    rw [map_nil, nil_append]
    cases parseDigits seenDot cs <;> simp
  | cons x digits ih =>
    obtain ⟨hx, hdigits⟩ := forall_mem_cons.mp h
    obtain ⟨hdigit, hval, -⟩ := digitChar_spec hx
    rw [map_cons, cons_append, parseDigits, if_pos hdigit, ih hdigits, Option.map_map, hval]
    congr 1
    funext ⟨rest, frac, exp⟩
    cases seenDot <;> simp [Nat.add_assoc]

theorem parseDigits_text {digits : List UInt8} (h : ∀ x ∈ digits, x.toNat < 10) {scale : Nat}
    (hscale : scale ≤ digits.length) :
    parseDigits false ((digits.take (digits.length - scale)).map digitChar ++
      if 0 < scale then '.' :: (digits.drop (digits.length - scale)).map digitChar else []) =
        some (digits, scale, 0) := by
  rw [parseDigits_map_digitChar fun x hx => h x (mem_of_mem_take hx)]
  rcases Nat.eq_zero_or_pos scale with rfl | hpos
  · simp [parseDigits]
  have hfrac : (digits.drop (digits.length - scale)).length = scale := by
    rw [length_drop]
    omega
  rw [if_pos hpos, parseDigits, if_neg (by decide), if_pos rfl, if_neg (by decide),
    ← append_nil (List.map digitChar _),
    parseDigits_map_digitChar fun x hx => h x (mem_of_mem_drop hx)]
  simp [parseDigits, hfrac]

namespace Normal

variable (h : d.Normal)
include h

theorem forall_padded : ∀ x ∈ d.padded.digits, x.toNat < 10 := by
  intro x hx
  rcases mem_append.mp hx with hx | hx
  · rw [eq_of_mem_replicate hx]
    decide
  · exact h.digits x hx

theorem negative : (d.negative && !d.isZero) = d.negative := by
  have hneg := congrArg BigDecimal.negative h.normalize
  have hdigits := congrArg BigDecimal.digits h.normalize
  simp only [BigDecimal.normalize] at hneg hdigits
  rwa [hdigits] at hneg

/-- Reading keeps the digits. -/
theorem normalize_padded : d.padded.normalize = d.padded := by
  have hne : d.padded.digits ≠ [] :=
    ne_nil_of_length_pos (Nat.zero_lt_of_lt (scale_lt_length_padded d))
  have hlead : ((d.padded.digits.take (d.padded.digits.length - d.scale - 1)).takeWhile (· == 0)).length
      = 0 := by
    rcases Nat.lt_or_ge d.scale d.digits.length with hlt | hge
    · have hpad : d.padded.digits = d.digits := by
        rw [padded, Nat.sub_eq_zero_of_le hlt, replicate_zero, nil_append]
      have hnil : d.digits ≠ [] := ne_nil_of_length_pos (by omega)
      have hdigits := congrArg (List.length ∘ BigDecimal.digits) h.normalize
      simp only [BigDecimal.normalize, Function.comp_apply, if_neg hnil, length_drop] at hdigits
      rw [hpad]
      omega
    · have hone : d.padded.digits.length - d.scale - 1 = 0 := by
        rw [padded, length_append, length_replicate]
        omega
      rw [hone]
      rfl
  have hneg : (d.padded.negative && !d.padded.digits.all (· == 0)) = d.padded.negative := by
    show (d.negative && !d.padded.isZero) = d.negative
    rw [isZero_padded, h.negative]
  simp only [BigDecimal.normalize]
  rw [if_neg hne, show d.padded.scale = d.scale from rfl, hlead, drop_zero, hneg]
  rfl

/-- The text of a decimal starts with a digit behind the sign. -/
theorem splitSign_toCanonicalString : ∃ x xs,
    d.padded.digits.take (d.padded.digits.length - d.scale) = x :: xs ∧ x.toNat < 10 ∧
    F64.splitSign d.toCanonicalString = (d.negative,
      (d.padded.digits.take (d.padded.digits.length - d.scale)).map digitChar ++
        if 0 < d.scale then
          '.' :: (d.padded.digits.drop (d.padded.digits.length - d.scale)).map digitChar
        else []) := by
  have hlen := scale_lt_length_padded d
  obtain ⟨x, xs, hxs⟩ : ∃ x xs, d.padded.digits.take (d.padded.digits.length - d.scale) = x :: xs :=
    exists_cons_of_length_pos (by rw [length_take]; omega)
  have hx : x.toNat < 10 := h.forall_padded x (mem_of_mem_take (hxs ▸ mem_cons_self))
  refine ⟨x, xs, hxs, hx, ?_⟩
  obtain ⟨-, -, -, hminus, hplus⟩ := digitChar_spec hx
  rw [toCanonicalString_eq, h.negative, hxs, map_cons]
  cases d.negative with
  | true => rfl
  | false =>
    rw [if_neg Bool.false_ne_true, nil_append, cons_append]
    exact F64.splitSign.eq_3 _ (fun cs hcs => hminus (List.cons.inj hcs).1)
      (fun cs hcs => hplus (List.cons.inj hcs).1)

/-- **A decimal is read back from its text**, padded with zeros. -/
theorem parse_toCanonicalString : parse d.toCanonicalString = some d.padded := by
  have hlen := scale_lt_length_padded d
  have hdigits := h.forall_padded
  obtain ⟨-, -, -, -, hsign⟩ := h.splitSign_toCanonicalString
  have hspace : ∀ c ∈ d.toCanonicalString, Text.isWhitespace c = false := by
    intro c hc
    rw [toCanonicalString_eq] at hc
    rcases mem_append.mp hc with hc | hc
    · rcases mem_append.mp hc with hc | hc
      · split at hc
        · rw [mem_singleton.mp hc]
          decide
        · cases hc
      · obtain ⟨y, hy, rfl⟩ := mem_map.mp hc
        exact (digitChar_spec (hdigits y (mem_of_mem_take hy))).2.2.1
    · split at hc
      · rcases mem_cons.mp hc with rfl | hc
        · decide
        · obtain ⟨y, hy, rfl⟩ := mem_map.mp hc
          exact (digitChar_spec (hdigits y (mem_of_mem_drop hy))).2.2.1
      · cases hc
  have hne : d.padded.digits ≠ [] := ne_nil_of_length_pos (by omega)
  rw [parse, Text.trimList_of_forall hspace, hsign]
  show (parseDigits false _ >>= _) = _
  rw [parseDigits_text hdigits hlen.le]
  show (if d.padded.digits = [] then none else some (BigDecimal.normalize ⟨d.negative, d.padded.digits ++
    List.replicate (-((d.scale : Int) - 0)).toNat 0, ((d.scale : Int) - 0).toNat⟩)) = _
  rw [if_neg hne, Int.sub_zero, Int.toNat_natCast, Int.toNat_neg_natCast, replicate_zero,
    append_nil]
  exact congrArg some h.normalize_padded

end Normal

end BigDecimal

/-! ## The same values -/

namespace Value

/-- With a decimal padded, as it is read back. -/
def padded : Value → Value
  | numeric n => numeric n.padded
  | v => v

/-- The same value: decimals with the same sign, scale and digits but for zeros in front, and
otherwise equal. -/
inductive Same : Value → Value → Prop
  | refl (v : Value) : Same v v
  | numeric {m n : BigDecimal} (hneg : m.negative = n.negative) (hscale : m.scale = n.scale)
      (hdigits : m.digits.dropWhile (· == 0) = n.digits.dropWhile (· == 0)) :
      Same (.numeric m) (.numeric n)

namespace Same

variable {u v w : Value}

theorem symm (h : Same u v) : Same v u := by
  cases h with
  | refl => exact .refl u
  | numeric hneg hscale hdigits => exact .numeric hneg.symm hscale.symm hdigits.symm

theorem trans (h : Same u v) (h' : Same v w) : Same u w := by
  cases h with
  | refl => exact h'
  | numeric hneg hscale hdigits =>
    cases h' with
    | refl => exact .numeric hneg hscale hdigits
    | numeric hneg' hscale' hdigits' =>
      exact .numeric (hneg.trans hneg') (hscale.trans hscale') (hdigits.trans hdigits')

theorem padded (v : Value) : Same v v.padded := by
  cases v with
  | numeric n =>
    refine .numeric rfl rfl ?_
    rw [BigDecimal.padded, dropWhile_append_of_pos fun x hx => by rw [eq_of_mem_replicate hx]; rfl]
  | _ => exact .refl _

end Same

/-- What a value of the source can be: an `i64`, and a decimal that its constructors make. -/
def Valid : Value → Prop
  | int i => -2 ^ 63 ≤ i ∧ i < 2 ^ 63
  | numeric n => n.Normal
  | _ => True

end Value

end PostgresRs
