import Mathlib.Computability.Language

/-!
# Regular expressions

The matcher `regex_match` of `engine/src/executor.rs` against the language of its pattern.  The
functions `regex_here` and `regex_star` try all ways to divide the text, so that a pattern of the
core (`CoreRegex`) is found if and only if a text of its language stands where the pattern asks for
one (`regexMatch_iff`).
-/

namespace PostgresRs.Exec

open List

/-! ## The source -/

/-- `regex_star`: the rest of the pattern is found behind some number of characters. -/
def regexStar (c : Char) (here : List Char → Bool) : List Char → Bool
  | [] => here []
  | x :: t => here (x :: t) || ((c == '.' || c == x) && regexStar c here t)

def regexHere : List Char → List Char → Bool
  | [], _ => true
  | c :: p, t =>
    -- Parentheses are passed over.
    if c = '(' ∨ c = ')' then regexHere p t
    else
      match p with
      | '*' :: rest => regexStar c (regexHere rest) t
      | p =>
        if c = '$' ∧ p = [] then t.isEmpty
        else
          match t with
          | x :: t => (c == '.' || c == x) && regexHere p t
          | [] => false

def regexMatch (toLowercase : List Char → List Char) (pattern text : List Char)
    (caseInsensitive : Bool) : Bool :=
  let fold := if caseInsensitive then toLowercase else id
  match fold pattern with
  | '^' :: p => regexHere p (fold text)
  | p => (fold text).tails.any (regexHere p)

/-! ## Patterns and their languages -/

/-- A character that is no operator. -/
abbrev Ordinary := {c : Char // c ∉ "^$.*()".toList}

/-- A character of a pattern, none for the dot, and whether a `*` follows. -/
structure RegexItem where
  char : Option Ordinary
  star : Bool

namespace RegexItem

variable (item : RegexItem)

def symbol : Char := item.char.elim '.' Subtype.val

def spell : List Char := item.symbol :: if item.star then ['*'] else []

/-- The dot stands for every character, the others for themselves. -/
def one : Language Char := {w | ∃ x, w = [x] ∧ (item.symbol = '.' ∨ item.symbol = x)}

def language : Language Char := if item.star then KStar.kstar item.one else item.one

end RegexItem

/-- A pattern without `^`. -/
def spellItems (toEnd : Bool) : List RegexItem → List Char
  | [] => if toEnd then ['$'] else []
  | item :: items => item.spell ++ spellItems toEnd items

def itemsLanguage (items : List RegexItem) : Language Char := (items.map RegexItem.language).prod

/-- A pattern of the core: `^` and `$` at the ends only, and no parentheses. -/
structure CoreRegex where
  fromStart : Bool
  items : List RegexItem
  toEnd : Bool

def CoreRegex.spell (r : CoreRegex) : List Char :=
  (if r.fromStart then ['^'] else []) ++ spellItems r.toEnd r.items

/-! ## What is found -/

section

variable {c : Char} {p t : List Char} {here : List Char → Bool} {item : RegexItem}
  {items : List RegexItem} {toEnd : Bool}

theorem mem_kstar_cons {x : Char} {w : List Char} : x :: w ∈ KStar.kstar item.one ↔
    (item.symbol = '.' ∨ item.symbol = x) ∧ w ∈ KStar.kstar item.one := by
  conv_lhs => rw [← Language.one_add_self_mul_kstar_eq_kstar, Language.mem_add, Language.mem_one,
    or_iff_right (cons_ne_nil x w), Language.mem_mul]
  constructor
  · rintro ⟨_, ⟨y, rfl, hy⟩, w', hw', heq⟩
    obtain ⟨rfl, rfl⟩ := List.cons.inj heq
    exact ⟨hy, hw'⟩
  · rintro ⟨hx, hw⟩
    exact ⟨[x], ⟨x, rfl, hx⟩, w, hw, rfl⟩

/-- **The loop over a star** tries all texts of its language. -/
theorem regexStar_iff : regexStar item.symbol here t = true ↔
    ∃ w s, t = w ++ s ∧ w ∈ KStar.kstar item.one ∧ here s = true := by
  induction t with
  | nil => simp [regexStar, Language.nil_mem_kstar]
  | cons x t ih =>
    rw [regexStar, Bool.or_eq_true, Bool.and_eq_true, ih]
    constructor
    · rintro (h | ⟨hx, w, s, rfl, hw, h⟩)
      · exact ⟨[], x :: t, rfl, Language.nil_mem_kstar _, h⟩
      · exact ⟨x :: w, s, rfl, mem_kstar_cons.mpr ⟨by simpa using hx, hw⟩, h⟩
    · rintro ⟨_ | ⟨y, w⟩, s, hs, hw, h⟩
      · exact .inl (hs ▸ h)
      · obtain ⟨rfl, rfl⟩ := List.cons.inj hs
        obtain ⟨hx, hw⟩ := mem_kstar_cons.mp hw
        exact .inr ⟨by simpa using hx, w, s, rfl, hw, h⟩

theorem symbol_not_mem (item : RegexItem) : item.symbol ∉ "^$*()".toList := by
  obtain ⟨_ | ⟨c, hc⟩, star⟩ := item
  · show '.' ∉ _
    decide
  · exact fun h => hc (List.Sublist.subset (by decide) h)

/-- What is found of one item and the rest of a pattern. -/
theorem regexHere_spell (hp : p.head? ≠ some '*') : regexHere (item.spell ++ p) t = true ↔
    ∃ w s, t = w ++ s ∧ w ∈ item.language ∧ regexHere p s = true := by
  have hsymbol := symbol_not_mem item
  simp only [show "^$*()".toList = ['^', '$', '*', '(', ')'] from rfl, mem_cons,
    not_mem_nil, or_false, not_or] at hsymbol
  obtain ⟨-, hend, -, hopen, hclose⟩ := hsymbol
  rw [RegexItem.spell, RegexItem.language, cons_append, regexHere.eq_def]
  dsimp only
  rw [if_neg (not_or.mpr ⟨hopen, hclose⟩)]
  cases item.star with
  | true => exact regexStar_iff
  | false =>
    simp only [Bool.false_eq_true, if_false, nil_append]
    split
    · simp at hp
    rw [if_neg fun h => hend h.1]
    constructor
    · intro h
      cases t with
      | nil => exact absurd h Bool.false_ne_true
      | cons x t =>
        rw [Bool.and_eq_true] at h
        exact ⟨[x], t, rfl, ⟨x, rfl, by simpa using h.1⟩, h.2⟩
    · rintro ⟨_, s, rfl, ⟨x, rfl, hx⟩, h⟩
      exact Bool.and_eq_true_iff.mpr ⟨by simpa using hx, h⟩

theorem head?_spellItems (h : (spellItems toEnd items).head? = some c) : c ≠ '*' ∧ c ≠ '^' := by
  cases items with
  | nil =>
    cases toEnd with
    | true =>
      obtain rfl := Option.some.inj h
      decide
    | false => exact absurd h nofun
  | cons item items =>
    obtain rfl : item.symbol = c := Option.some.inj h
    have hsymbol := symbol_not_mem item
    constructor <;> rintro hc <;> exact hsymbol (hc ▸ by decide)

theorem regexHere_spellItems : regexHere (spellItems toEnd items) t = true ↔
    ∃ w s, t = w ++ s ∧ w ∈ itemsLanguage items ∧ (toEnd = true → s = []) := by
  induction items generalizing t with
  | nil => cases toEnd <;> simp [spellItems, itemsLanguage, regexHere]
  | cons item items ih =>
    rw [spellItems, regexHere_spell fun h => (head?_spellItems h).1 rfl]
    simp only [ih]
    constructor
    · rintro ⟨w, _, rfl, hw, w', s, rfl, hw', hs⟩
      exact ⟨w ++ w', s, (append_assoc ..).symm, ⟨w, hw, w', hw', rfl⟩, hs⟩
    · rintro ⟨_, s, rfl, ⟨w, hw, w', hw', rfl⟩, hs⟩
      exact ⟨w, w' ++ s, append_assoc .., hw, w', s, rfl, hw', hs⟩

/-- **Regular expressions** of the core are found where a text of their language stands. -/
theorem regexMatch_iff (toLowercase : List Char → List Char) (r : CoreRegex) (text : List Char) :
    regexMatch toLowercase r.spell text false = true ↔
      ∃ u w v, text = u ++ w ++ v ∧ w ∈ itemsLanguage r.items ∧ (r.fromStart = true → u = []) ∧
        (r.toEnd = true → v = []) := by
  obtain ⟨fromStart, items, toEnd⟩ := r
  cases fromStart with
  | true =>
    show regexHere (spellItems toEnd items) text = true ↔ _
    rw [regexHere_spellItems]
    constructor
    · rintro ⟨w, v, rfl, hw, hv⟩
      exact ⟨[], w, v, rfl, hw, fun _ => rfl, hv⟩
    · rintro ⟨u, w, v, rfl, hw, hu, hv⟩
      obtain rfl := hu rfl
      exact ⟨w, v, rfl, hw, hv⟩
  | false =>
    have hmatch : regexMatch toLowercase (spellItems toEnd items) text false =
        text.tails.any (regexHere (spellItems toEnd items)) := by
      rw [regexMatch]
      split
      · next p hp => exact ((head?_spellItems (congrArg List.head? hp)).2 rfl).elim
      · rfl
    show regexMatch toLowercase (spellItems toEnd items) text false = true ↔ _
    rw [hmatch, any_eq_true]
    simp only [mem_tails, regexHere_spellItems]
    constructor
    · rintro ⟨_, ⟨u, rfl⟩, w, v, rfl, hw, hv⟩
      exact ⟨u, w, v, (append_assoc ..).symm, hw, nofun, hv⟩
    · rintro ⟨u, w, v, rfl, hw, -, hv⟩
      exact ⟨w ++ v, ⟨u, (append_assoc ..).symm⟩, w, v, rfl, hw, hv⟩

end

end PostgresRs.Exec
