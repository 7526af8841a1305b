import PostgresRs.Exec.Eval
import PostgresRs.Storage.Keys

/-!
# Sorting

The sorts of `engine/src/executor.rs` compare values by `compare_values`, and take two values that
cannot be compared for equal.  Integers and decimals are compared as numbers, with a float as doubles,
and with a text as doubles if the text is one and as texts otherwise.  A Boolean is equal to
everything but Booleans.  This is an order on some sets of values only (`orderOn_sortCmp`).
-/

namespace PostgresRs.Exec

open Storage

/-! ## The comparison with the sides exchanged -/

theorem compareWithText_swap (v : Value) (s : String) :
    ((compareWithText v s).map Ordering.swap).map Ordering.swap = compareWithText v s := by
  cases compareWithText v s <;> simp

/-- The comparison with the sides exchanged. -/
theorem compareValues_swap (v w : Value) :
    compareValues w v = (compareValues v w).map Ordering.swap := by
  have hpartial : ∀ x y : F64, y.partialCmp x = (x.partialCmp y).map Ordering.swap := fun x y => by
    rw [F64.partialCmp, F64.partialCmp, Bool.or_comm]
    split
    · rfl
    · exact congrArg some Std.OrientedCmp.eq_swap
  have hdecimal : ∀ x y : BigDecimal, y.cmp x = (x.cmp y).swap := fun _ _ =>
    Std.OrientedCmp.eq_swap
  cases v <;> cases w <;> simp only [compareValues, Option.map_some, Option.map_none]
  all_goals
    first
    | exact hpartial _ _
    | exact (compareWithText_swap _ _).symm
    | exact congrArg some (hdecimal _ _)
    | exact congrArg some Std.OrientedCmp.eq_swap
    | rfl

/-! ## Sorting -/

/-- The comparison that is passed to `sort_by`. -/
def sortCmp (a b : Value) : Ordering := (compareValues a b).getD .eq

theorem sortCmp_swap (a b : Value) : sortCmp b a = (sortCmp a b).swap := by
  rw [sortCmp, sortCmp, compareValues_swap]
  cases compareValues a b <;> rfl

/-- Integers and decimals are compared as numbers. -/
def sortKind : Value → Option Unit
  | .int _ | .numeric _ => some ()
  | _ => none

/-- How a number stands to a text: as doubles if the text is one, to which a NaN makes no difference,
and as texts otherwise. -/
def standing (v : Value) (s : String) : Ordering :=
  match F64.parse s.toList with
  | some t => if t.isNan then .eq else compare (doubleRank v) t.rank
  | none => compare (v.toText.getD []) s.toList

/-- One number is not above the other. -/
def AtMost (a b : Value) : Prop :=
  if TwoScale.SameKind sortKind a b then exactValue a ≤ exactValue b
  else doubleRank a ≤ doubleRank b

/-- Two numbers or texts that no comparison tells apart. -/
def Same : Value → Value → Prop
  | .text s, .text t => s = t
  | .text s, v | v, .text s => standing v s = .eq
  | a, b => AtMost a b ∧ AtMost b a

/-- A text, or a number that is no NaN. -/
def IsNumberOrText (v : Value) : Prop := IsNumber v ∨ ∃ s, v = .text s

/-- The values can be sorted. -/
structure Sortable (K : Value → Prop) : Prop where
  /-- Where two integers or decimals are rounded to one double, there is no float. -/
  rounding : ∀ a b f, K a → K b → K (.float f) → TwoScale.SameKind sortKind a b →
    exactValue a ≠ exactValue b → doubleRank a = doubleRank b → doubleRank a ≠ f.rank
  /-- Numbers that stand on both sides of a text are in this order. -/
  between : ∀ a b s, K a → K b → K (.text s) → IsNumber a → IsNumber b → standing a s ≠ .gt →
    standing b s ≠ .lt → AtMost a b
  /-- Equal numbers stand on one side of a text. -/
  beside : ∀ a b s, K a → K b → K (.text s) → IsNumber a → IsNumber b → AtMost a b → AtMost b a →
    standing a s = standing b s
  /-- Texts on both sides of a number are in this order. -/
  texts : ∀ v s t, K v → K (.text s) → K (.text t) → IsNumber v → standing v s ≠ .lt →
    standing v t ≠ .gt → compare s.toList t.toList ≠ .gt
  /-- Next to a number or a text there is only one Boolean. -/
  booleans : ∀ v b c, K v → K (.bool b) → K (.bool c) → IsNumberOrText v → b = c
  /-- Next to a Boolean all numbers and texts are the same. -/
  others : ∀ a b c, K a → K b → K (.bool c) → IsNumberOrText a → IsNumberOrText b → Same a b

/-! ### How values are compared -/

theorem sortCmp_eq_iff {a b : Value} :
    sortCmp a b = .eq ↔ sortCmp a b ≠ .gt ∧ sortCmp b a ≠ .gt := by
  rw [sortCmp_swap a b]
  cases sortCmp a b <;> decide

theorem sortCmp_text (s t : String) :
    sortCmp (.text s) (.text t) = compare s.toList t.toList := rfl

theorem sortCmp_bool (b c : Bool) : sortCmp (.bool b) (.bool c) = compare b c := rfl

theorem sortCmp_bool_of_other (b : Bool) {v : Value} (hv : IsNumberOrText v) :
    sortCmp (.bool b) v = .eq := by
  rcases hv with ⟨hnum, -⟩ | ⟨s, rfl⟩
  · cases v <;> first | rfl | exact absurd hnum Bool.false_ne_true
  · rfl

theorem text_eq {s t : String} (h : sortCmp (.text s) (.text t) ≠ .gt)
    (h' : sortCmp (.text t) (.text s) ≠ .gt) : s = t := by
  have heq := sortCmp_eq_iff.mpr ⟨h, h'⟩
  rwa [sortCmp_text, Std.LawfulEqOrd.compare_eq_iff_eq, String.toList_inj] at heq

/-- With a float, numbers are compared as doubles. -/
theorem sortCmp_eq_partialCmp {a b : Value} (ha : IndexKey.isNumeric a = true)
    (hb : IndexKey.isNumeric b = true) (h : ¬TwoScale.SameKind sortKind a b) :
    sortCmp a b = ((IndexKey.numeric a).partialCmp (IndexKey.numeric b)).getD .eq := by
  cases a <;> cases b
  case int.int | int.numeric | numeric.int | numeric.numeric => exact absurd ⟨rfl, rfl⟩ h
  all_goals
    first
    | exact absurd ha Bool.false_ne_true
    | exact absurd hb Bool.false_ne_true
    | simp only [sortCmp, compareValues, numToF64, IndexKey.numeric]

section

variable {K : Value → Prop} (hK : ∀ n, K (.numeric n) → n.Normal) {a b v : Value}

include hK

theorem sortCmp_eq_twoScale (ha : K a) (hb : K b) (hna : IsNumber a) (hnb : IsNumber b) :
    sortCmp a b = TwoScale.cmp sortKind exactValue doubleRank a b := by
  have hint : ∀ i j : Int, compare i j = compare (i : ℚ) j := fun _ _ =>
    BigDecimal.compare_congr Int.cast_lt.symm Int.cast_lt.symm
  have hexact : ∀ i, (BigDecimal.fromI64 i).value 10 = i := fun i => (BigDecimal.fromI64_spec i).2
  rw [TwoScale.cmp]
  split
  · next hab =>
    obtain ⟨hkind, hsome⟩ := hab
    cases a <;> cases b
    case int.int i j => exact hint i j
    case numeric.numeric m n =>
      exact BigDecimal.cmp_eq (by decide) (hK m ha).digits (hK n hb).digits
    case numeric.int m i =>
      have hcmp := BigDecimal.cmp_eq (by decide) (hK m ha).digits (BigDecimal.fromI64_spec i).1
      rwa [hexact] at hcmp
    case int.numeric i n =>
      have hcmp := BigDecimal.cmp_eq (by decide) (BigDecimal.fromI64_spec i).1 (hK n hb).digits
      rwa [hexact] at hcmp
    all_goals simp [sortKind] at hkind hsome
  · next hab =>
    rw [sortCmp_eq_partialCmp hna.1 hnb.1 hab, F64.partialCmp, isNan_numeric hK ha hna,
      isNan_numeric hK hb hnb]
    rfl

theorem sortCmp_ne_gt_iff (ha : K a) (hb : K b) (hna : IsNumber a) (hnb : IsNumber b) :
    sortCmp a b ≠ .gt ↔ AtMost a b := by
  rw [sortCmp_eq_twoScale hK ha hb hna hnb, TwoScale.cmp, AtMost]
  split <;> rw [Ne, compare_gt_iff_gt, not_lt]

theorem sortCmp_standing (hv : K v) (hnum : IsNumber v) (s : String) :
    sortCmp v (.text s) = standing v s := by
  have hcompare : sortCmp v (.text s) = (compareWithText v s).getD .eq := by
    cases v <;> first | exact absurd hnum.1 Bool.false_ne_true | rfl
  have htext : v.toText = some (v.toText.getD []) := by
    cases v <;> first | exact absurd hnum.1 Bool.false_ne_true | rfl
  have hdouble : numToF64 v = IndexKey.numeric v := by cases v <;> rfl
  rw [hcompare, compareWithText, standing]
  cases F64.parse s.toList with
  | none =>
    rw [htext]
    rfl
  | some t =>
    dsimp only
    rw [hdouble, F64.partialCmp, isNan_numeric hK hv hnum, Bool.false_or]
    split <;> rfl

theorem standing_sortCmp (hv : K v) (hnum : IsNumber v) (s : String) :
    sortCmp (.text s) v = (standing v s).swap := by
  rw [← sortCmp_standing hK hv hnum, sortCmp_swap]

theorem sortCmp_text_ne_gt_iff (hv : K v) (hnum : IsNumber v) {s : String} :
    sortCmp (.text s) v ≠ .gt ↔ standing v s ≠ .lt := by
  rw [standing_sortCmp hK hv hnum]
  cases standing v s <;> decide

theorem same_iff (ha : K a) (hb : K b) (hna : IsNumberOrText a) (hnb : IsNumberOrText b) :
    sortCmp a b = .eq ↔ Same a b := by
  rcases hna with hna | ⟨s, rfl⟩ <;> rcases hnb with hnb | ⟨t, rfl⟩
  · have hsame : Same a b = (AtMost a b ∧ AtMost b a) := by
      cases a <;> cases b <;>
        first | exact absurd hna.1 Bool.false_ne_true | exact absurd hnb.1 Bool.false_ne_true | rfl
    rw [hsame, sortCmp_eq_iff, sortCmp_ne_gt_iff hK ha hb hna hnb, sortCmp_ne_gt_iff hK hb ha hnb hna]
  · have hsame : Same a (.text t) = (standing a t = .eq) := by
      cases a <;> first | exact absurd hna.1 Bool.false_ne_true | rfl
    rw [hsame, sortCmp_standing hK ha hna]
  · have hsame : Same (.text s) b = (standing b s = .eq) := by
      cases b <;> first | exact absurd hnb.1 Bool.false_ne_true | rfl
    rw [hsame, standing_sortCmp hK hb hnb]
    cases standing b s <;> decide
  · rw [sortCmp_text, Std.LawfulEqOrd.compare_eq_iff_eq, String.toList_inj]
    rfl

/-! ### Values that can be sorted -/

theorem orderOn_numbers_iff : Buckets.OrderOn (fun v => K v ∧ IsNumber v) sortCmp ↔
    TwoScale.Separated sortKind exactValue doubleRank fun v => K v ∧ IsNumber v := by
  have hexact : ∀ {v}, (sortKind v).isSome = true → (exactKind v).isSome = true := by
    rintro (_ | _ | _ | _ | _ | _) hv <;> first | rfl | exact absurd hv Bool.false_ne_true
  rw [Buckets.OrderOn.congr fun a b ha hb => sortCmp_eq_twoScale hK ha.1 hb.1 ha.2 hb.2]
  exact TwoScale.orderOn_iff fun a b ha hb hab =>
    doubleRank_le hK ha.1 hb.1 (hexact hab.2) (hexact (hab.1 ▸ hab.2))

variable (hnan : ∀ v, K v → v.isNan = false)

include hnan

theorem sortable_of_orderOn (h : Buckets.OrderOn K sortCmp) : Sortable K where
  rounding a b f ha hb hf hab hne hcoarse hcoarse' := by
    have hnum : ∀ {v}, (sortKind v).isSome = true → IsNumber v := by
      rintro (_ | _ | _ | _ | _ | _) hv <;>
        first | exact absurd hv Bool.false_ne_true | exact ⟨rfl, rfl⟩
    have hsep := (orderOn_numbers_iff hK).mp (h.mono fun _ hv => hv.1)
    have hfloat := hsep a b (.float f) ⟨ha, hnum hab.2⟩ ⟨hb, hnum (hab.1 ▸ hab.2)⟩
      ⟨hf, rfl, hnan _ hf⟩ hab hne hcoarse hcoarse'
    exact absurd hfloat.symm.2 Bool.false_ne_true
  between a b s ha hb hs hna hnb h1 h2 := by
    refine (sortCmp_ne_gt_iff hK ha hb hna hnb).mp (h.trans ha hs hb ?_ ?_)
    · rwa [sortCmp_standing hK ha hna]
    · exact (sortCmp_text_ne_gt_iff hK hb hnb).mpr h2
  beside a b s ha hb hs hna hnb h1 h2 := by
    have heq : sortCmp a b = .eq := sortCmp_eq_iff.mpr
      ⟨(sortCmp_ne_gt_iff hK ha hb hna hnb).mpr h1, (sortCmp_ne_gt_iff hK hb ha hnb hna).mpr h2⟩
    have hcongr := h.cmp_congr_right hs ha hb heq
    rw [standing_sortCmp hK ha hna, standing_sortCmp hK hb hnb] at hcongr
    exact Ordering.swap_inj.mp hcongr
  texts v s t hv hs ht hnum h1 h2 := by
    refine h.trans hs hv ht ((sortCmp_text_ne_gt_iff hK hv hnum).mpr h1) ?_
    rwa [sortCmp_standing hK hv hnum]
  booleans v b c hv hb hc hother := by
    have hle : ∀ b c, K (.bool b) → K (.bool c) → compare b c ≠ .gt := fun b c hb hc =>
      h.trans hb hv hc (by rw [sortCmp_bool_of_other b hother]; exact Ordering.noConfusion)
        (by rw [sortCmp_swap, sortCmp_bool_of_other c hother]; exact Ordering.noConfusion)
    have h1 := hle b c hb hc
    have h2 := hle c b hc hb
    revert h1 h2
    cases b <;> cases c <;> decide
  others a b c ha hb hc hna hnb := by
    have hle : ∀ a b, K a → K b → IsNumberOrText a → IsNumberOrText b → sortCmp a b ≠ .gt :=
      fun a b ha hb hna hnb => h.trans ha hc hb
        (by rw [sortCmp_swap, sortCmp_bool_of_other c hna]; exact Ordering.noConfusion)
        (by rw [sortCmp_bool_of_other c hnb]; exact Ordering.noConfusion)
    exact (same_iff hK ha hb hna hnb).mp
      (sortCmp_eq_iff.mpr ⟨hle a b ha hb hna hnb, hle b a hb ha hnb hna⟩)

omit hK hnan in
theorem separated_of_sortable (h : Sortable K) :
    TwoScale.Separated sortKind exactValue doubleRank fun v => K v ∧ IsNumber v := by
  intro a b c ha hb hc hab hne hcoarse hcoarse'
  obtain ⟨⟨⟩, hkind⟩ := Option.isSome_iff_exists.mp hab.2
  cases c with
  | float f => exact absurd hcoarse' (h.rounding a b f ha.1 hb.1 hc.1 hab hne hcoarse)
  | int i => exact ⟨hkind, hab.2⟩
  | numeric n => exact ⟨hkind, hab.2⟩
  | _ => exact absurd hc.2.1 Bool.false_ne_true

omit hnan in
/-- Numbers and texts that can be sorted are ordered. -/
theorem orderOn_numbersAndTexts (h : Sortable K) :
    Buckets.OrderOn (fun v => K v ∧ IsNumberOrText v) sortCmp where
  swap _ _ := sortCmp_swap _ _
  trans {a b c} ha hb hc hab hbc := by
    have hnumbers := (orderOn_numbers_iff hK).mpr (separated_of_sortable h)
    -- Which of the three are numbers and which are texts.
    obtain ⟨ha, hna | ⟨s, rfl⟩⟩ := ha <;> obtain ⟨hb, hnb | ⟨t, rfl⟩⟩ := hb <;>
      obtain ⟨hc, hnc | ⟨u, rfl⟩⟩ := hc
    · exact hnumbers.trans ⟨ha, hna⟩ ⟨hb, hnb⟩ ⟨hc, hnc⟩ hab hbc
    · have hle := (sortCmp_ne_gt_iff hK ha hb hna hnb).mp hab
      rw [sortCmp_standing hK hb hnb] at hbc
      rw [sortCmp_standing hK ha hna]
      intro hgt
      have hge := h.between b a u hb ha hc hnb hna hbc (by rw [hgt]; exact Ordering.noConfusion)
      exact hbc (h.beside a b u ha hb hc hna hnb hle hge ▸ hgt)
    · rw [sortCmp_standing hK ha hna] at hab
      exact (sortCmp_ne_gt_iff hK ha hc hna hnc).mpr
        (h.between a c t ha hc hb hna hnc hab ((sortCmp_text_ne_gt_iff hK hc hnc).mp hbc))
    · rw [sortCmp_standing hK ha hna] at hab ⊢
      intro hgt
      have hle := h.texts a u t ha hc hb hna (by rw [hgt]; exact Ordering.noConfusion) hab
      exact hab (text_eq hbc hle ▸ hgt)
    · have hle := (sortCmp_ne_gt_iff hK hb hc hnb hnc).mp hbc
      rw [sortCmp_text_ne_gt_iff hK hb hnb] at hab
      rw [sortCmp_text_ne_gt_iff hK hc hnc]
      intro hlt
      have hge := h.between c b s hc hb ha hnc hnb (by rw [hlt]; exact Ordering.noConfusion) hab
      exact hab (h.beside c b s hc hb ha hnc hnb hge hle ▸ hlt)
    · rw [sortCmp_standing hK hb hnb] at hbc
      exact h.texts b s u hb ha hc hnb ((sortCmp_text_ne_gt_iff hK hb hnb).mp hab) hbc
    · rw [sortCmp_text_ne_gt_iff hK hc hnc] at hbc ⊢
      intro hlt
      have hle := h.texts c t s hc hb ha hnc hbc (by rw [hlt]; exact Ordering.noConfusion)
      exact hbc (text_eq hab hle ▸ hlt)
    · have horder : Buckets.OrderOn (fun _ : List Char => True) compare := .of_transCmp
      exact @horder.trans s.toList t.toList u.toList trivial trivial trivial hab hbc

/-- Values other than `NULL` that can be sorted are ordered. -/
theorem orderOn_notNull (h : Sortable K) :
    Buckets.OrderOn (fun v => K v ∧ v.isNull = false) sortCmp := by
  have hkinds : ∀ {v}, K v → v.isNull = false → (∃ b, v = .bool b) ∨ IsNumberOrText v := by
    intro v hv hnull
    cases v with
    | null => exact absurd hnull.symm Bool.false_ne_true
    | bool b => exact .inl ⟨b, rfl⟩
    | text s => exact .inr (.inr ⟨s, rfl⟩)
    | _ => exact .inr (.inl ⟨rfl, hnan _ hv⟩)
  by_cases hbool : ∃ b, K (.bool b)
  · obtain ⟨b₀, hb₀⟩ := hbool
    by_cases hother : ∃ v, K v ∧ IsNumberOrText v
    · -- Next to a Boolean everything is the same.
      obtain ⟨v, hv, hother⟩ := hother
      refine .of_forall_eq fun x y hx hy => ?_
      rcases hkinds hx.1 hx.2 with ⟨b, rfl⟩ | hox <;> rcases hkinds hy.1 hy.2 with ⟨c, rfl⟩ | hoy
      · rw [h.booleans v b c hv hx.1 hy.1 hother, sortCmp_bool]
        exact Std.ReflCmp.compare_self
      · exact sortCmp_bool_of_other b hoy
      · rw [sortCmp_swap, sortCmp_bool_of_other c hox]
        rfl
      · exact (same_iff hK hx.1 hy.1 hox hoy).mpr (h.others x y b₀ hx.1 hy.1 hb₀ hox hoy)
    · have hcompare : ∀ {x y}, K x ∧ x.isNull = false → K y ∧ y.isNull = false →
          sortCmp x y = compare x.isTrue y.isTrue := by
        intro x y hx hy
        rcases hkinds hx.1 hx.2 with ⟨b, rfl⟩ | hox
        · rcases hkinds hy.1 hy.2 with ⟨c, rfl⟩ | hoy
          · rfl
          · exact absurd ⟨y, hy.1, hoy⟩ hother
        · exact absurd ⟨x, hx.1, hox⟩ hother
      exact .of_eq (fun v _ => v.isTrue) hcompare
  · refine (orderOn_numbersAndTexts hK h).mono fun v hv => ⟨hv.1, ?_⟩
    exact (hkinds hv.1 hv.2).resolve_left fun ⟨b, hb⟩ => hbool ⟨b, hb ▸ hv.1⟩

end

/-- **`ORDER BY` compares by an order** exactly if the values can be sorted. -/
theorem orderOn_sortCmp (K : Value → Prop) (hK : ∀ n, K (.numeric n) → n.Normal)
    (hnan : ∀ v, K v → v.isNan = false) : Buckets.OrderOn K sortCmp ↔ Sortable K := by
  refine ⟨sortable_of_orderOn hK hnan, fun h => ?_⟩
  refine .of_classes (f := fun v => v.isNull.toNat) ?_ fun n => ?_
  · intro a b hab
    cases a <;> cases b <;> first | exact absurd rfl hab | rfl
  · by_cases hn : n = 0
    · refine (orderOn_notNull hK hnan h).mono fun v hv => ⟨hv.1, ?_⟩
      exact Bool.toNat_eq_zero.mp (hv.2.trans hn)
    · have hnull : ∀ {v : Value}, v.isNull.toNat = n → v = .null := by
        rintro (_ | _ | _ | _ | _ | _) hv <;> first | rfl | exact absurd hv.symm hn
      refine .of_forall_eq fun a b ha hb => ?_
      rw [hnull ha.2, hnull hb.2]
      rfl

/-- Two integers, a decimal between them and `NULL` are sorted. -/
theorem orderOn_mixedNumbers :
    Buckets.OrderOn (· ∈ [.int 1, .numeric ⟨false, [1, 5], 1⟩, .int 2, .null]) sortCmp := by
  refine (orderOn_sortCmp _ ?_ (by decide +kernel)).mpr ?_
  · simp only [List.mem_cons, reduceCtorEq, false_or, Value.numeric.injEq, List.not_mem_nil, or_false]
    rintro n rfl
    decide +kernel
  · constructor <;> simp

/-- The numbers 2 and 1 are both equal to `true`. -/
theorem not_orderOn_sortCmp : ¬Buckets.OrderOn (fun v => v.isNan = false) sortCmp := fun h =>
  h.trans (a := .int 2) (b := .bool true) (c := .int 1) rfl rfl rfl (by decide) (by decide) rfl

end PostgresRs.Exec
