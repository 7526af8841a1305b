import PostgresRs.Exec.IndexPlan

/-!
# Texts of arrays

An array is stored as a text.  `array_value_to_text` and `array_text_from_elements` of
`engine/src/executor.rs` write one and `parse_array_text` reads it.  The writer quotes an element for
the sake of commas, braces, quotes and backslashes, but not if it spells `NULL`: then it is read as
an element that is `NULL` (`readsBack_iff`).
-/

namespace PostgresRs.Exec

open List

/-! ## Writing -/

/-- An element in quotes, with a backslash before quotes and backslashes. -/
def quoteElement (text : List Char) : List Char :=
  '"' :: (text.flatMap fun c => if c = '\\' ∨ c = '"' then ['\\', c] else [c]) ++ ['"']

def needsQuotes (text : List Char) : Bool :=
  text.any (· ∈ [',', '\x7b', '\x7d', '"', '\\']) || text.isEmpty

def arrayPart : Option (List Char) → List Char
  | none => "NULL".toList
  | some text => if needsQuotes text then quoteElement text else text

def arrayTextFromElements (values : List (Option (List Char))) : List Char :=
  '\x7b' :: [','].intercalate (values.map arrayPart) ++ ['\x7d']

def arrayValueToText (values : List Value) : List Char :=
  '\x7b' :: [','].intercalate (values.map fun value => arrayPart value.toText) ++ ['\x7d']

/-! ## Reading back -/

variable {cur text rest : List Char} {wasQuoted : Bool} {l : List (Option (List Char))}

theorem arrayScan_quoted : arrayScan cur true wasQuoted false
      ((text.flatMap fun c => if c = '\\' ∨ c = '"' then ['\\', c] else [c]) ++ rest) =
    arrayScan (cur ++ text) true wasQuoted false rest := by
  induction text generalizing cur with
  | nil => rw [append_nil]; rfl
  | cons c text ih =>
    have hassoc : cur ++ c :: text = cur ++ [c] ++ text := by simp
    rw [flatMap_cons, hassoc, ← ih]
    split
    · simp [arrayScan]
    · next hc =>
      rw [not_or] at hc
      simp [arrayScan, hc]

theorem arrayScan_plain (h : ∀ c ∈ text, c ≠ '"' ∧ c ≠ ',') :
    arrayScan cur false wasQuoted false (text ++ rest) =
      arrayScan (cur ++ text) false wasQuoted false rest := by
  induction text generalizing cur with
  | nil => rw [append_nil]; rfl
  | cons c text ih =>
    rw [forall_mem_cons] at h
    have hassoc : cur ++ c :: text = cur ++ [c] ++ text := by simp
    rw [hassoc, ← ih h.2]
    simp [arrayScan, h.1]

/-- What an element is read as. -/
def readElement : Option (List Char) → Option (List Char)
  | none => none
  | some text => arrayElement text (needsQuotes text)

theorem arrayScan_arrayPart (e : Option (List Char)) : ∃ cur wasQuoted,
    arrayElement cur wasQuoted = readElement e ∧
      ∀ rest, arrayScan [] false false false (arrayPart e ++ rest) =
        arrayScan cur false wasQuoted false rest := by
  cases e with
  | none => exact ⟨"NULL".toList, false, rfl, fun rest => arrayScan_plain (by simp [arrayPart])⟩
  | some text =>
    rw [arrayPart, readElement]
    split
    · next h =>
      refine ⟨text, true, by rw [h], fun rest => ?_⟩
      simp [quoteElement, arrayScan, arrayScan_quoted]
    · next h =>
      refine ⟨text, false, by simp [h], fun rest => arrayScan_plain fun c hc => ?_⟩
      simp [needsQuotes] at h
      have := h.1 c hc
      simp [this]

theorem arrayPart_ne_nil (e : Option (List Char)) : arrayPart e ≠ [] := by
  cases e with
  | none => decide
  | some text =>
    rw [arrayPart]
    split
    · exact cons_ne_nil _ _
    · next h =>
      rintro rfl
      exact h rfl

theorem arrayScan_intercalate (hl : l ≠ []) :
    arrayScan [] false false false ([','].intercalate (l.map arrayPart)) = l.map readElement := by
  induction l with
  | nil => exact absurd rfl hl
  | cons e l ih =>
    obtain ⟨cur, wasQuoted, hread, hscan⟩ := arrayScan_arrayPart e
    cases l with
    | nil =>
      have := hscan []
      simpa [arrayScan, hread] using this
    | cons e' l =>
      have := ih (cons_ne_nil e' l)
      simp [hscan, arrayScan, hread] at this ⊢
      exact this

theorem parseArrayText_arrayTextFromElements (l : List (Option (List Char))) :
    parseArrayText (arrayTextFromElements l) = some (l.map readElement) := by
  cases l with
  | nil => rfl
  | cons e l =>
    have hne : [','].intercalate ((e :: l).map arrayPart) ≠ [] := by
      cases l <;> simp [arrayPart_ne_nil]
    rw [parseArrayText, arrayTextFromElements, if_neg, if_neg]
    · rw [cons_append, drop_succ_cons, drop_zero, dropLast_concat,
        arrayScan_intercalate (cons_ne_nil e l)]
    · simpa using hne
    · rw [getLast?_concat]
      simp

/-- Both writers and the reader give the list back. -/
structure ReadsBack (l : List (Option String)) : Prop where
  elements : parseArrayText (arrayTextFromElements (l.map (Option.map String.toList))) =
    some (l.map (Option.map String.toList))
  values : parseArrayText (arrayValueToText (l.map fun s => s.elim .null .text)) =
    some (l.map (Option.map String.toList))

theorem readElement_eq_self (s : String) : readElement (some s.toList) = some s.toList ↔
    Text.eqIgnoreAsciiCase s "NULL" = false := by
  have hquotes : needsQuotes s.toList = true → s.toList.map Char.toLower ≠ "null".toList := by
    intro h heq
    rcases Bool.or_eq_true_iff.mp h with hany | hempty
    · obtain ⟨c, hc, hspecial⟩ := any_eq_true.mp hany
      have hmem := heq ▸ mem_map_of_mem (f := Char.toLower) hc
      have hnot : [',', '\x7b', '\x7d', '"', '\\'].all (·.toLower ∉ "null".toList) := by decide
      exact of_decide_eq_true (List.all_eq_true.mp hnot c (of_decide_eq_true hspecial)) hmem
    · rw [List.isEmpty_iff.mp hempty] at heq
      cases heq
  rw [readElement, arrayElement, show Text.eqIgnoreAsciiCase s "NULL" =
    (s.toList.map Char.toLower == "null".toList) from rfl]
  cases hq : needsQuotes s.toList <;> simp_all

/-- **Array texts** are read back unless an element spells `NULL`. -/
theorem readsBack_iff (l : List (Option String)) :
    ReadsBack l ↔ ∀ s, some s ∈ l → Text.eqIgnoreAsciiCase s "NULL" = false := by
  have helements : parseArrayText (arrayTextFromElements (l.map (Option.map String.toList))) =
      some (l.map (Option.map String.toList)) ↔
        ∀ s, some s ∈ l → Text.eqIgnoreAsciiCase s "NULL" = false := by
    rw [parseArrayText_arrayTextFromElements, Option.some.injEq, map_map, map_inj_left]
    simp only [← readElement_eq_self]
    refine ⟨fun h s hs => h _ hs, fun h e he => ?_⟩
    cases e with
    | none => rfl
    | some s => exact h s he
  have hvalues : arrayValueToText (l.map fun s => s.elim .null .text) =
      arrayTextFromElements (l.map (Option.map String.toList)) := by
    rw [arrayValueToText, arrayTextFromElements, map_map, map_map]
    congr 4
    funext s
    cases s <;> rfl
  exact ⟨fun h => helements.mp h.elements, fun h => ⟨helements.mpr h, hvalues ▸ helements.mpr h⟩⟩

/-- The text `NULL` is read as no text. -/
theorem not_readsBack_null : ¬ReadsBack [some "NULL"] := fun h => absurd h.elements (by decide)

end PostgresRs.Exec
