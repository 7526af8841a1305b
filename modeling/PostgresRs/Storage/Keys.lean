import PostgresRs.Sql.Number
import PostgresRs.Util.TwoScale
import Mathlib.Data.List.Dedup
import Mathlib.Data.List.Sort

/-!
# Keys of indexes

The order of keys of `engine/src/index.rs`.  Integers are compared with integers and decimals with
decimals as numbers, all other numbers as doubles, and a NaN is the same as every number.  That is an
order on some sets of values only (`orderOn_cmpValue_iff`), and the order of keys is one where it is
at every position (`orderOn_indexKeys`).
-/

namespace PostgresRs.Storage

open List

/-! ## Keys -/

namespace IndexKey

/-- A numeric value as a double. -/
def numeric : Value → F64
  | .int i => F64.ofInt i
  | .float f => f
  | .numeric n => n.toF64
  | _ => F64.nan

def typeRank : Value → Nat
  | .bool _ => 0
  | .int _ => 1
  | .float _ => 2
  | .numeric _ => 2
  | .text _ => 3
  | .null => 4

def isNumeric : Value → Bool
  | .int _ | .float _ | .numeric _ => true
  | _ => false

/-- The order of single values in an index. -/
def cmpValue (a b : Value) : Ordering :=
  match a, b with
  | .null, .null => .eq
  | .null, _ => .gt
  | _, .null => .lt
  | .int x, .int y => compare x y
  | .bool x, .bool y => compare x y
  | .text x, .text y => compare x.toList y.toList
  | .numeric x, .numeric y => x.cmp y
  | a, b =>
    if isNumeric a && isNumeric b then
      -- A NaN is the same as every number.
      ((numeric a).partialCmp (numeric b)).getD .eq
    else compare (typeRank a) (typeRank b)

/-- The order of keys: the first difference decides, then the length. -/
def keyCmp : List Value → List Value → Ordering
  | [], [] => .eq
  | [], _ :: _ => .lt
  | _ :: _, [] => .gt
  | a :: as, b :: bs => (cmpValue a b).then (keyCmp as bs)

def hashFloat (f : F64) : List Char :=
  'i' :: Value.intText f.toI64 ++ if f.hasFract then 'f' :: f.display else []

def hashValue : Value → List Char
  | .null => ['N', '|']
  | .int i => 'i' :: Value.intText i
  | .float f => hashFloat f
  | .numeric n => hashFloat n.toF64
  | .text t => 's' :: t.toList
  | .bool b => ['b', if b then '1' else '0']

/-- The text under which a hash index keeps a key. -/
def hashKey (values : List Value) : List Char := values.flatMap fun v => hashValue v ++ ['|']

def keyHasNull (values : List Value) : Bool := values.any Value.isNull

end IndexKey

open IndexKey

/-! ## When the order of values is one -/

/-- The kinds of numbers that are compared as such among themselves. -/
inductive ExactKind where
  | int | numeric
deriving DecidableEq

def exactKind : Value → Option ExactKind
  | .int _ => some .int
  | .numeric _ => some .numeric
  | _ => none

/-- An integer or a decimal as a number. -/
def exactValue : Value → ℚ
  | .int i => i
  | .numeric n => n.value 10
  | _ => 0

/-- A number as a double, by its rank. -/
def doubleRank (v : Value) : Int := (numeric v).rank

/-- A number that is no NaN. -/
def IsNumber (v : Value) : Prop := isNumeric v = true ∧ v.isNan = false

/-- Two numbers that no comparison tells apart. -/
def SameNumber (a b : Value) : Prop :=
  if TwoScale.SameKind exactKind a b then exactValue a = exactValue b
  else doubleRank a = doubleRank b

/-- The values can be told apart in one way only. -/
structure Orderly (K : Value → Prop) : Prop where
  /-- Where two integers, or two decimals, are rounded to one double, there is no other number. -/
  apart : ∀ a b c, K a → K b → K c → IsNumber c → TwoScale.SameKind exactKind a b →
    exactValue a ≠ exactValue b → doubleRank a = doubleRank b → doubleRank a = doubleRank c →
    TwoScale.SameKind exactKind a c
  /-- Where there is a NaN, there are no two numbers. -/
  nan : ∀ n a b, K n → n.isNan = true → K a → K b → IsNumber a → IsNumber b → SameNumber a b

/-- Numbers of different kinds are compared as doubles. -/
theorem cmpValue_eq_partialCmp {a b : Value} (ha : isNumeric a = true) (hb : isNumeric b = true)
    (h : ¬TwoScale.SameKind exactKind a b) :
    cmpValue a b = ((numeric a).partialCmp (numeric b)).getD .eq := by
  cases a <;> cases b
  case int.int | numeric.numeric => exact absurd ⟨rfl, rfl⟩ h
  all_goals
    first
    | exact absurd ha Bool.false_ne_true
    | exact absurd hb Bool.false_ne_true
    | simp only [cmpValue, isNumeric, Bool.and_self, if_true]

section

variable {K : Value → Prop} (hK : ∀ n, K (.numeric n) → n.Normal) {a b : Value}

include hK

theorem isNan_numeric (ha : K a) (hnum : IsNumber a) : (numeric a).isNan = false := by
  obtain ⟨hnum, hnan⟩ := hnum
  cases a with
  | int i => exact F64.isNan_ofInt i
  | float f => exact hnan
  | numeric n => exact (hK n ha).isNan_toF64
  | _ => cases hnum

theorem cmpValue_eq_twoScale (ha : K a) (hb : K b) (hna : IsNumber a) (hnb : IsNumber b) :
    cmpValue a b = TwoScale.cmp exactKind exactValue doubleRank a b := by
  have hint : ∀ i j : Int, compare i j = compare (i : ℚ) j := fun _ _ =>
    BigDecimal.compare_congr Int.cast_lt.symm Int.cast_lt.symm
  rw [TwoScale.cmp]
  split
  · next hab =>
    obtain ⟨hkind, hsome⟩ := hab
    cases a <;> cases b
    case int.int i j => exact hint i j
    case numeric.numeric m n =>
      exact BigDecimal.cmp_eq (by decide) (hK m ha).digits (hK n hb).digits
    all_goals simp [exactKind] at hkind hsome
  · next hab =>
    rw [cmpValue_eq_partialCmp hna.1 hnb.1 hab, F64.partialCmp, isNan_numeric hK ha hna,
      isNan_numeric hK hb hnb]
    rfl

/-- Rounding keeps the order of integers and decimals. -/
theorem doubleRank_le (ha : K a) (hb : K b) (hexact : (exactKind a).isSome = true)
    (hexact' : (exactKind b).isSome = true) (hle : exactValue a ≤ exactValue b) :
    doubleRank a ≤ doubleRank b := by
  have hrank : ∀ {v}, K v → (exactKind v).isSome = true →
      doubleRank v = F64.nearest (exactValue v) := by
    intro v hv hkind
    cases v with
    | int i => exact F64.rank_ofInt i
    | numeric n => exact (hK n hv).rank_toF64
    | _ => cases hkind
  rw [hrank ha hexact, hrank hb hexact']
  exact F64.nearest_mono hle

/-- Numbers are ordered if they are separated on the two scales. -/
theorem orderOn_isNumber_iff : Buckets.OrderOn (fun v => K v ∧ IsNumber v) cmpValue ↔
    TwoScale.Separated exactKind exactValue doubleRank fun v => K v ∧ IsNumber v := by
  rw [Buckets.OrderOn.congr fun a b ha hb => cmpValue_eq_twoScale hK ha.1 hb.1 ha.2 hb.2]
  exact TwoScale.orderOn_iff fun a b ha hb hab =>
    doubleRank_le hK ha.1 hb.1 hab.2 (hab.1 ▸ hab.2)

theorem cmpValue_eq_iff (ha : K a) (hb : K b) (hna : IsNumber a) (hnb : IsNumber b) :
    cmpValue a b = .eq ↔ SameNumber a b := by
  rw [cmpValue_eq_twoScale hK ha hb hna hnb, TwoScale.cmp, SameNumber]
  split <;> exact compare_eq_iff_eq

end

/-- Booleans come before numbers, then come texts and at last `NULL`. -/
def group : Value → Nat
  | .bool _ => 0
  | .int _ | .float _ | .numeric _ => 1
  | .text _ => 2
  | .null => 3

theorem cmpValue_of_group_ne {a b : Value} (h : group a ≠ group b) :
    cmpValue a b = compare (group a) (group b) := by
  cases a <;> cases b <;>
    first
    | exact absurd rfl h
    | simp only [cmpValue, isNumeric, Bool.and_true, Bool.and_false, Bool.false_eq_true, if_false,
        typeRank, group] <;> decide

/-- A NaN is the same as every number. -/
theorem cmpValue_of_isNan {a b : Value} (h : a.isNan = true ∨ b.isNan = true)
    (ha : isNumeric a = true) (hb : isNumeric b = true) : cmpValue a b = .eq := by
  have hkind : ¬TwoScale.SameKind exactKind a b := by
    rintro ⟨heq, hsome⟩
    rcases h with h | h <;> cases a <;> cases b <;> simp_all [Value.isNan, exactKind]
  have hnan : (numeric a).isNan = true ∨ (numeric b).isNan = true := by
    refine h.imp (fun h => ?_) fun h => ?_
    · cases a <;> first | exact absurd h Bool.false_ne_true | exact h
    · cases b <;> first | exact absurd h Bool.false_ne_true | exact h
  rw [cmpValue_eq_partialCmp ha hb hkind, F64.partialCmp, if_pos (by simpa using hnan)]
  rfl

/-- What Booleans and texts are compared by. -/
def plainKey : Value → Bool × List Char
  | .bool b => (b, [])
  | .text s => (false, s.toList)
  | _ => (false, [])

theorem cmpValue_of_group_eq {a b : Value} (h : group a = group b) (hne : group a ≠ 1) :
    cmpValue a b = compareLex (compareOn Prod.fst) (compareOn Prod.snd) (plainKey a) (plainKey b) := by
  cases a <;> cases b <;> simp_all [group, cmpValue, plainKey, compareLex, compareOn]

/-- **Values are ordered** exactly if they are orderly. -/
theorem orderOn_cmpValue_iff {K : Value → Prop} (hK : ∀ n, K (.numeric n) → n.Normal) :
    Buckets.OrderOn K cmpValue ↔ Orderly K := by
  have hnumeric : ∀ {v : Value}, v.isNan = true → isNumeric v = true := by
    rintro (_ | _ | _ | _ | _ | _) hv <;> first | rfl | cases hv
  constructor
  · intro h
    refine ⟨fun a b c ha hb hc hnum hab hne hcoarse hcoarse' => ?_,
      fun n a b hn hnan ha hb hna hnb => ?_⟩
    · have hexact : ∀ {v}, (exactKind v).isSome = true → IsNumber v := by
        rintro (_ | _ | _ | _ | _ | _) hv <;> first | exact ⟨rfl, rfl⟩ | cases hv
      exact (orderOn_isNumber_iff hK).mp (h.mono fun _ hv => hv.1) a b c ⟨ha, hexact hab.2⟩
        ⟨hb, hexact (hab.1 ▸ hab.2)⟩ ⟨hc, hnum⟩ hab hne hcoarse hcoarse'
    · refine (cmpValue_eq_iff hK ha hb hna hnb).mp ?_
      rw [h.cmp_congr_right ha hb hn (cmpValue_of_isNan (.inr hnan) hnb.1 (hnumeric hnan))]
      exact cmpValue_of_isNan (.inr hnan) hna.1 (hnumeric hnan)
  · intro h
    refine .of_classes cmpValue_of_group_ne fun g => ?_
    by_cases hg : g = 1
    · have hnum : ∀ {v}, group v = g → isNumeric v = true := by
        rintro (_ | _ | _ | _ | _ | _) hv <;> simp_all [group, isNumeric]
      by_cases hnan : ∃ n, K n ∧ n.isNan = true
      · obtain ⟨n, hn, hnan⟩ := hnan
        refine .of_forall_eq fun a b ⟨ha, hga⟩ ⟨hb, hgb⟩ => ?_
        by_cases hab : a.isNan = true ∨ b.isNan = true
        · exact cmpValue_of_isNan hab (hnum hga) (hnum hgb)
        · simp only [not_or, Bool.not_eq_true] at hab
          exact (cmpValue_eq_iff hK ha hb ⟨hnum hga, hab.1⟩ ⟨hnum hgb, hab.2⟩).mpr
            (h.nan n a b hn hnan ha hb ⟨hnum hga, hab.1⟩ ⟨hnum hgb, hab.2⟩)
      · refine ((orderOn_isNumber_iff hK).mpr fun a b c ha hb hc hab hne hcoarse hcoarse' =>
          h.apart a b c ha.1 hb.1 hc.1 hc.2 hab hne hcoarse hcoarse').mono fun v hv => ?_
        exact ⟨hv.1, hnum hv.2, Bool.eq_false_iff.mpr fun h => hnan ⟨v, hv.1, h⟩⟩
    · exact .of_eq (fun v _ => plainKey v) fun {a b} ha hb =>
        cmpValue_of_group_eq (ha.2.trans hb.2.symm) (ha.2 ▸ hg)

/-! ## When the order of keys is one -/

/-- The value at each position is one of the set for it. -/
def Fits (K : Nat → Value → Prop) (key : List Value) : Prop := ∀ i v, key[i]? = some v → K i v

theorem fits_cons {K : Nat → Value → Prop} {v : Value} {key : List Value} :
    Fits K (v :: key) ↔ K 0 v ∧ Fits (fun i => K (i + 1)) key := by
  constructor
  · intro h
    exact ⟨h 0 v rfl, fun i w hw => h (i + 1) w hw⟩
  · rintro ⟨hv, hkey⟩ (_ | i) w hw
    · cases hw
      exact hv
    · exact hkey i w hw

/-- The values that a position can have are ordered, as far as there are keys of that length. -/
def OrderedAt (K : Nat → Value → Prop) : Prop :=
  ∀ i, (∀ j < i, ∃ v, K j v) → Buckets.OrderOn (K i) cmpValue

theorem OrderedAt.tail {K : Nat → Value → Prop} (h : OrderedAt K) {v : Value} (hv : K 0 v) :
    OrderedAt fun i => K (i + 1) := by
  refine fun i hi => h (i + 1) fun j hj => ?_
  cases j with
  | zero => exact ⟨v, hv⟩
  | succ j => exact hi j (Nat.lt_of_succ_lt_succ hj)

theorem OrderedAt.head {K : Nat → Value → Prop} (h : OrderedAt K) : Buckets.OrderOn (K 0) cmpValue :=
  h 0 fun _ hj => absurd hj (Nat.not_lt_zero _)

/-- The order of keys is one where that of the values is at every position. -/
theorem orderOn_of_orderedAt {K : Nat → Value → Prop} (h : OrderedAt K) :
    Buckets.OrderOn (Fits K) keyCmp where
  swap {a b} ha hb := by
    induction a generalizing b K with
    | nil => cases b <;> rfl
    | cons v a ih =>
      rcases b with _ | ⟨w, b⟩
      · rfl
      obtain ⟨hv, ha⟩ := fits_cons.mp ha
      obtain ⟨hw, hb⟩ := fits_cons.mp hb
      rw [keyCmp, keyCmp, h.head.swap hv hw, ih (h.tail hv) ha hb, Ordering.swap_then]
  trans {a b c} ha hb hc hab hbc := by
    induction a generalizing b c K with
    | nil => cases c <;> exact Ordering.noConfusion
    | cons u a ih =>
      rcases b with _ | ⟨v, b⟩
      · exact absurd rfl hab
      rcases c with _ | ⟨w, c⟩
      · exact absurd rfl hbc
      obtain ⟨hu, ha⟩ := fits_cons.mp ha
      obtain ⟨hv, hb⟩ := fits_cons.mp hb
      obtain ⟨hw, hc⟩ := fits_cons.mp hc
      rw [keyCmp] at hab hbc ⊢
      cases huv : cmpValue u v with
      | gt => exact absurd (by rw [huv]; rfl) hab
      | lt | eq =>
        cases hvw : cmpValue v w with
        | gt => exact absurd (by rw [hvw]; rfl) hbc
        | lt =>
          have huw := h.head.lt_of_le_of_lt hu hv hw (by rw [huv]; exact Ordering.noConfusion) hvw
          rw [huw]
          exact Ordering.noConfusion
        | eq =>
          rw [← h.head.cmp_congr_right hu hv hw hvw, huv]
          rw [huv] at hab
          rw [hvw] at hbc
          first
          | exact Ordering.noConfusion
          | exact ih (h.tail hu) ha hb hc hab hbc

theorem cmpValue_self (v : Value) : cmpValue v v = .eq := by
  cases v with
  | float f =>
    have hfloat : cmpValue (.float f) (.float f) = (f.partialCmp f).getD .eq := rfl
    rw [hfloat, F64.partialCmp]
    split
    · rfl
    · exact compare_eq_iff_eq.mpr rfl
  | numeric n => exact @Std.ReflCmp.compare_self _ BigDecimal.cmp _ n
  | _ => simp [cmpValue]

/-- Keys that differ at the end only. -/
theorem keyCmp_append (key : List Value) (v w : Value) :
    keyCmp (key ++ [v]) (key ++ [w]) = cmpValue v w := by
  induction key with
  | nil =>
    show (cmpValue v w).then .eq = _
    cases cmpValue v w <;> rfl
  | cons u key ih =>
    rw [cons_append, cons_append, keyCmp, ih, cmpValue_self]
    rfl

theorem orderedAt_of_orderOn {K : Nat → Value → Prop} (h : Buckets.OrderOn (Fits K) keyCmp) :
    OrderedAt K := by
  intro i hi
  choose f hf using hi
  have hfits : ∀ {v}, K i v → Fits K (List.ofFn (fun j : Fin i => f j j.2) ++ [v]) := by
    intro v hv k w hw
    rcases Nat.lt_trichotomy k i with hk | rfl | hk
    · rw [getElem?_append_left (by simpa using hk), List.getElem?_ofFn, dif_pos hk] at hw
      cases hw
      exact hf k hk
    · rw [getElem?_append_right (by simp), length_ofFn, Nat.sub_self] at hw
      cases hw
      exact hv
    · rw [getElem?_eq_none (by simp; omega)] at hw
      cases hw
  refine ⟨fun ha hb => ?_, fun ha hb hc hab hbc => ?_⟩
  · have hswap := h.swap (hfits ha) (hfits hb)
    rwa [keyCmp_append, keyCmp_append] at hswap
  · have htrans := h.trans (hfits ha) (hfits hb) (hfits hc)
    rw [keyCmp_append, keyCmp_append, keyCmp_append] at htrans
    exact htrans hab hbc

/-- The order of keys is one where that of their values is. -/
theorem orderOn_keyCmp {K : Value → Prop} (h : Buckets.OrderOn K cmpValue) :
    Buckets.OrderOn (fun key => ∀ v ∈ key, K v) keyCmp :=
  (orderOn_of_orderedAt (K := fun _ => K) fun _ _ => h).mono
    fun _ hkey _ _ hv => hkey _ (mem_of_getElem? hv)

/-- **Index keys are ordered** exactly if the values at each position that keys reach are. -/
theorem orderOn_indexKeys (K : Nat → Value → Prop) (hK : ∀ i n, K i (.numeric n) → n.Normal) :
    (∀ i, Buckets.OrderOn (K i) cmpValue ↔ Orderly (K i)) ∧
    (Buckets.OrderOn (Fits K) keyCmp ↔ ∀ i, (∀ j < i, ∃ v, K j v) → Orderly (K i)) := by
  have hvalues : ∀ i, Buckets.OrderOn (K i) cmpValue ↔ Orderly (K i) := fun i =>
    orderOn_cmpValue_iff (hK i)
  refine ⟨hvalues, fun h i hi => (hvalues i).mp (orderedAt_of_orderOn h i hi), fun h => ?_⟩
  exact orderOn_of_orderedAt fun i hi => (hvalues i).mpr (h i hi)

theorem orderly_of_kind {K : Value → Prop} (k : ExactKind)
    (h : ∀ v, K v → isNumeric v = true → exactKind v = some k) : Orderly K where
  apart a b c ha hb hc hnum hab _ _ _ := by
    have hnuma : isNumeric a = true := by
      have hsome := hab.2
      cases a <;> first | rfl | exact absurd hsome Bool.false_ne_true
    exact ⟨(h a ha hnuma).trans (h c hc hnum.1).symm, hab.2⟩
  nan n a b hn hnan _ _ _ _ := by
    cases n with
    | float f => exact absurd (h _ hn rfl) (by simp [exactKind])
    | _ => exact absurd hnan Bool.false_ne_true

/-- Keys of two columns, with an integer and one of two decimals. -/
def pairKeys : Nat → Value → Prop
  | 0, v => ∃ i, v = .int i
  | 1, v => v = .numeric ⟨false, [1, 5], 1⟩ ∨ v = .numeric ⟨false, [2, 5], 1⟩
  | _, _ => False

theorem orderOn_pairKeys : Buckets.OrderOn (Fits pairKeys) keyCmp := by
  refine (orderOn_indexKeys pairKeys ?_).2.mpr ?_
  · rintro (_ | _ | i) n h
    · obtain ⟨i, hi⟩ := h
      cases hi
    · rcases h with h | h <;> cases h <;> decide +kernel
    · exact h.elim
  · rintro (_ | _ | i) -
    · exact orderly_of_kind .int fun _ ⟨i, hi⟩ _ => hi ▸ rfl
    · refine orderly_of_kind .numeric fun v hv _ => ?_
      rcases hv with rfl | rfl <;> rfl
    · exact orderly_of_kind .int fun _ h => h.elim

/-- Two integers that are the same as one double are not the same. -/
theorem not_orderOn_cmpValue : ¬Buckets.OrderOn (fun _ => True) cmpValue := fun h =>
  h.trans (a := .int (2 ^ 53 + 1)) (b := .float (.ofInt (2 ^ 53))) (c := .int (2 ^ 53)) trivial
    trivial trivial (by decide +kernel) (by decide +kernel) (by decide +kernel)

/-- Neither a float nor a decimal. -/
def IsPlain : Value → Prop
  | .null | .int _ | .bool _ | .text _ => True
  | .float _ | .numeric _ => False

theorem orderOn_isPlain : Buckets.OrderOn IsPlain cmpValue := by
  refine (orderOn_cmpValue_iff fun _ h => h.elim).mpr (orderly_of_kind .int fun v hv hnum => ?_)
  cases v <;> first | rfl | exact hv.elim | exact absurd hnum Bool.false_ne_true

end PostgresRs.Storage
