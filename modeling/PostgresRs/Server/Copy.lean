import Mathlib.Data.List.Forall2
import PostgresRs.Sql.Statement
import PostgresRs.Sql.Value
import PostgresRs.Util.Lines
import PostgresRs.Util.Utf8

/-!
# COPY as text

The two text formats of `COPY` in `server/src/server.rs`: what `encode_copy_payload` writes for the
rows of a query and what `copy_from_bytes` reads.  Both write a row as one line.  The text format
escapes some characters, whatever the delimiter is; CSV puts texts with special characters in
quotes. Both readers split at line breaks before they look at a field.

* `copyText_iff` — exactly when the rows are read as they were written, for the text format.
* `copyText_comma` — a row that is not.
-/

namespace PostgresRs.Copying

open List Lines

/-! ## Options -/

/-- The options of a `COPY` in one of the text formats. -/
structure CopyText where
  csv : Bool
  header : Bool
  delimiter : Char
  nullMarker : List Char

/-- The text of a field, if it is not `NULL`. -/
abbrev Field := Option (List Char)

variable (opts : CopyText)

/-! ## Writing -/

/-- `str::replace` of a character. -/
def replace (c : Char) (new cs : List Char) : List Char :=
  cs.flatMap fun d => if d = c then new else [d]

def encodeCopyField : Field → List Char
  | none => opts.nullMarker
  | some s =>
    if opts.csv then
      if opts.delimiter ∈ s ∨ '"' ∈ s ∨ '\n' ∈ s ∨ '\r' ∈ s then
        '"' :: replace '"' "\"\"".toList s ++ ['"']
      else s
    else
      replace '\r' "\\r".toList (replace '\n' "\\n".toList
        (replace '\t' "\\t".toList (replace '\\' "\\\\".toList s)))

/-- Fields with the delimiter between them. -/
def copyLine (row : List Field) : List Char :=
  [opts.delimiter].intercalate (row.map (encodeCopyField opts))

def headerLine (names : List (List Char)) : List Char := copyLine opts (names.map some)

/-- What is written for the rows of a query with the given column names. -/
def encodeCopyPayload (names : List (List Char)) (rows : List (List Value)) : List UInt8 :=
  Utf8.utf8 ((if opts.header && opts.csv then headerLine opts names ++ ['\n'] else []) ++
    (rows.map fun row => copyLine opts (row.map fun v =>
      if v.isNull then none else v.toText)).flatMap (· ++ ['\n']))

/-! ## Reading -/

/-- `str::strip_suffix` of a carriage return. -/
def stripReturn (cs : List Char) : List Char := if cs.getLast? = some '\r' then cs.dropLast else cs

def unescapeTextField : List Char → List Char
  | [] => []
  | '\\' :: 't' :: cs => '\t' :: unescapeTextField cs
  | '\\' :: 'n' :: cs => '\n' :: unescapeTextField cs
  | '\\' :: 'r' :: cs => '\r' :: unescapeTextField cs
  | '\\' :: other :: cs => other :: unescapeTextField cs
  | c :: cs => c :: unescapeTextField cs

def parseTextLine (line : List Char) : List Field :=
  (line.splitOn opts.delimiter).map fun tok =>
    if tok = opts.nullMarker then none else some (unescapeTextField tok)

def finishCsvField (value : List Char) (wasQuoted : Bool) : Field :=
  if wasQuoted = false ∧ value = opts.nullMarker then none else some value

/-- The loop of `parse_csv_line`, with the field so far and whether it is or was in quotes. -/
def csvFields : List Char → List Char → Bool → Bool → List Field
  | [], cur, _, wasQuoted => [finishCsvField opts cur wasQuoted]
  | '"' :: '"' :: cs, cur, true, wasQuoted => csvFields cs (cur ++ ['"']) true wasQuoted
  | c :: cs, cur, true, wasQuoted =>
    if c = '"' then csvFields cs cur false wasQuoted else csvFields cs (cur ++ [c]) true wasQuoted
  | c :: cs, cur, false, wasQuoted =>
    if c = '"' then csvFields cs cur true true
    else if c = opts.delimiter then finishCsvField opts cur wasQuoted :: csvFields cs [] false false
    else csvFields cs (cur ++ [c]) false wasQuoted

def parseCsvLine (line : List Char) : List Field := csvFields opts line [] false false

def parseLine (line : List Char) : List Field :=
  if opts.csv then parseCsvLine opts line else parseTextLine opts line

/-- The end of the data in the text format. -/
def isEnd (line : List Char) : Bool := !opts.csv && line == "\\.".toList

/-- The loop over the lines; `first` says that none was read yet. -/
def copyLines (first : Bool) : List (List Char) → List (List Field)
  | [] => []
  | raw :: rest =>
    let line := stripReturn raw
    if isEnd opts line then []
    else if line = [] ∧ raw = [] then copyLines first rest
    else if first && opts.header then copyLines false rest
    else parseLine opts line :: copyLines false rest

def copyFields (buf : List UInt8) : List (List Field) :=
  copyLines opts true ((Utf8.decodeLossy buf).splitOn '\n')

def Field.expr : Field → Expr
  | some s => .str (String.ofList s)
  | none => .null

/-- The rows of the `INSERT` that `copy_from_bytes` runs. -/
def copyFromBytes (buf : List UInt8) : List (List Expr) :=
  (copyFields opts buf).map (·.map Field.expr)

/-! ## What is meant -/

def Field.value : Field → Value
  | some s => .text (String.ofList s)
  | none => .null

/-- The rows are read as they were written. -/
def RoundTrips (names : List (List Char)) (rows : List (List Field)) : Prop :=
  copyFromBytes opts (encodeCopyPayload opts names (rows.map (·.map Field.value))) =
    rows.map (·.map Field.expr)

variable {opts} {names : List (List Char)} {rows : List (List Field)}

/-! ## Lines -/

/-- The text of the lines that are written. -/
def payloadText (opts : CopyText) (names : List (List Char)) (rows : List (List Field)) :
    List Char :=
  (if opts.header && opts.csv then headerLine opts names ++ ['\n'] else []) ++
    (rows.map (copyLine opts)).flatMap (· ++ ['\n'])

theorem roundTrips_iff : RoundTrips opts names rows ↔
    copyLines opts true ((payloadText opts names rows).splitOn '\n') = rows := by
  have hfield : ∀ f : Field, (if f.value.isNull then none else f.value.toText) = f := by
    rintro (_ | s)
    · rfl
    · show some (String.ofList s).toList = some s
      rw [String.toList_ofList]
  have hinj : Function.Injective Field.expr := by
    rintro (_ | s) (_ | t) h
    · rfl
    · cases h
    · cases h
    · exact congrArg some (String.ofList_injective (Expr.str.inj h))
  have hpayload : Utf8.decodeLossy (encodeCopyPayload opts names (rows.map (·.map Field.value))) =
      payloadText opts names rows := by
    rw [encodeCopyPayload, map_map]
    refine Eq.trans ?_ (Utf8.decodeLossy_utf8_self _)
    congr 4
    refine map_congr_left fun row _ => congrArg (copyLine opts) ?_
    rw [map_map]
    exact (map_congr_left fun f _ => hfield f).trans (map_id _)
  rw [RoundTrips, copyFromBytes, copyFields, hpayload]
  exact (map_injective_iff.mpr (map_injective_iff.mpr hinj)).eq_iff

theorem copyLines_cons (first : Bool) (raw : List Char) (rest : List (List Char)) :
    copyLines opts first (raw :: rest) =
      if isEnd opts (stripReturn raw) then []
      else if stripReturn raw = [] ∧ raw = [] then copyLines opts first rest
      else if first && opts.header then copyLines opts false rest
      else parseLine opts (stripReturn raw) :: copyLines opts false rest := rfl

variable {raws : List (List Char)} {first : Bool}

/-- The rows that are read are read from lines. -/
theorem exists_of_mem_copyLines {row : List Field} (h : row ∈ copyLines opts first raws) :
    ∃ raw ∈ raws, row = parseLine opts (stripReturn raw) := by
  induction raws generalizing first with
  | nil => cases h
  | cons raw raws ih =>
    have hrest : ∀ {first}, row ∈ copyLines opts first raws →
        ∃ raw' ∈ raw :: raws, row = parseLine opts (stripReturn raw') := fun h => by
      obtain ⟨raw', hraw', heq⟩ := ih h
      exact ⟨raw', .tail _ hraw', heq⟩
    rw [copyLines_cons] at h
    split at h
    · cases h
    split at h
    · exact hrest h
    split at h
    · exact hrest h
    · rcases mem_cons.mp h with rfl | h
      · exact ⟨raw, .head _, rfl⟩
      · exact hrest h

theorem length_copyLines_le (first : Bool) (raws : List (List Char)) :
    (copyLines opts first raws).length ≤ raws.length := by
  induction raws generalizing first with
  | nil => exact le_rfl
  | cons raw raws ih =>
    rw [copyLines_cons]
    split
    · exact Nat.zero_le _
    split
    · exact (ih first).trans (Nat.le_succ _)
    split
    · exact (ih false).trans (Nat.le_succ _)
    · exact Nat.succ_le_succ (ih false)

theorem copyLines_concat_nil (first : Bool) (raws : List (List Char)) :
    copyLines opts first (raws ++ [[]]) = copyLines opts first raws := by
  induction raws generalizing first with
  | nil =>
    show copyLines opts first [[]] = []
    rw [copyLines_cons]
    split
    · rfl
    · exact if_pos ⟨rfl, rfl⟩
  | cons raw raws ih => rw [cons_append, copyLines_cons, copyLines_cons, ih, ih]

/-- A line from which the row is read. -/
structure Reads (opts : CopyText) (raw : List Char) (row : List Field) : Prop where
  notEnd : isEnd opts (stripReturn raw) = false
  ne_nil : raw ≠ []
  parse : parseLine opts (stripReturn raw) = row

/-- **As many rows as lines**: each line gives its row, and none is skipped. -/
theorem copyLines_eq_iff (hlength : raws.length = rows.length) : copyLines opts first raws = rows ↔
      (raws = [] ∨ (first && opts.header) = false) ∧ List.Forall₂ (Reads opts) raws rows := by
  induction raws generalizing first rows with
  | nil =>
    obtain rfl := length_eq_zero_iff.mp hlength.symm
    exact iff_of_true rfl ⟨.inl rfl, .nil⟩
  | cons raw raws ih =>
    obtain ⟨row, rows, rfl⟩ := exists_cons_of_length_eq_add_one hlength.symm
    have hlength : raws.length = rows.length := Nat.succ.inj hlength
    -- What is left has too few lines for all rows.
    have hshort : ∀ first, copyLines opts first raws ≠ row :: rows := fun first heq => by
      have := @length_copyLines_le opts first raws
      rw [heq, length_cons] at this
      omega
    rw [copyLines_cons, forall₂_cons]
    by_cases hend : isEnd opts (stripReturn raw) = true
    · rw [if_pos hend]
      exact iff_of_false nofun fun h => nomatch h.2.1.notEnd.symm.trans hend
    rw [if_neg hend]
    by_cases hnil : stripReturn raw = [] ∧ raw = []
    · rw [if_pos hnil]
      exact iff_of_false (hshort first) fun h => h.2.1.ne_nil hnil.2
    rw [if_neg hnil]
    by_cases hheader : (first && opts.header) = true
    · rw [if_pos hheader]
      refine iff_of_false (hshort false) fun h => ?_
      rcases h.1 with h | h
      · cases h
      · exact nomatch h.symm.trans hheader
    rw [if_neg hheader, List.cons.injEq, ih hlength]
    have hne : raw ≠ [] := by
      rintro rfl
      exact hnil ⟨rfl, rfl⟩
    constructor
    · rintro ⟨hparse, -, hrest⟩
      exact ⟨.inr (by simpa using hheader), ⟨by simpa using hend, hne, hparse⟩, hrest⟩
    · rintro ⟨-, hreads, hrest⟩
      exact ⟨hreads.parse, .inr rfl, hrest⟩

theorem copyLines_map_eq_iff (first : Bool) :
    copyLines opts first (rows.map (copyLine opts)) = rows ↔
      (rows = [] ∨ (first && opts.header) = false) ∧
        ∀ row ∈ rows, Reads opts (copyLine opts row) row := by
  rw [copyLines_eq_iff (length_map _), map_eq_nil_iff, forall₂_map_left_iff,
    forall₂_same]

/-! ## The text format -/

/-- What is written for a character. -/
def escapeChar (c : Char) : List Char :=
  if c = '\\' then "\\\\".toList else if c = '\t' then "\\t".toList
  else if c = '\n' then "\\n".toList else if c = '\r' then "\\r".toList else [c]

/-- The four replacements one after the other are one pass over the text. -/
theorem encodeCopyField_text (htext : opts.csv = false) (s : List Char) :
    encodeCopyField opts (some s) = s.flatMap escapeChar := by
  rw [encodeCopyField, if_neg (by rw [htext]; decide)]
  simp only [replace, flatMap_assoc]
  refine flatMap_congr fun c _ => ?_
  by_cases h1 : c = '\\'
  · subst h1; rfl
  by_cases h2 : c = '\t'
  · subst h2; rfl
  by_cases h3 : c = '\n'
  · subst h3; rfl
  by_cases h4 : c = '\r'
  · subst h4; rfl
  simp [escapeChar, h1, h2, h3]

theorem not_mem_escapeChar (c : Char) : '\n' ∉ escapeChar c ∧ '\r' ∉ escapeChar c := by
  rw [escapeChar]
  split
  · decide
  split
  · decide
  split
  · decide
  split
  · decide
  · next hn hr => exact ⟨by simpa using Ne.symm hn, by simpa using Ne.symm hr⟩

/-- A text is written without line breaks. -/
theorem not_mem_encodeCopyField_text (htext : opts.csv = false) (s : List Char) :
    '\n' ∉ encodeCopyField opts (some s) ∧ '\r' ∉ encodeCopyField opts (some s) := by
  rw [encodeCopyField_text htext]
  simp only [mem_flatMap, not_exists, not_and]
  exact ⟨fun c _ => (not_mem_escapeChar c).1, fun c _ => (not_mem_escapeChar c).2⟩

theorem unescapeTextField_escapeChar (c : Char) (cs : List Char) :
    unescapeTextField (escapeChar c ++ cs) = c :: unescapeTextField cs := by
  rw [escapeChar]
  split
  · next h => subst h; rfl
  split
  · next h => subst h; rfl
  split
  · next h => subst h; rfl
  split
  · next h => subst h; rfl
  · next hbackslash _ _ _ =>
    rw [singleton_append, unescapeTextField]
    all_goals simp [hbackslash]

theorem unescapeTextField_encodeCopyField (htext : opts.csv = false) (s : List Char) :
    unescapeTextField (encodeCopyField opts (some s)) = s := by
  rw [encodeCopyField_text htext]
  induction s with
  | nil => rfl
  | cons c s ih => rw [flatMap_cons, unescapeTextField_escapeChar, ih]

/-- When a row in the text format is read as it was written: no field has the delimiter in what is
written for it, no text is written as the null marker, and the line is one line that is neither
empty nor the end of the data, with no carriage return at its end. -/
structure TextReadable (opts : CopyText) (row : List Field) : Prop where
  delimiter : ∀ f ∈ row, opts.delimiter ∉ encodeCopyField opts f
  marker : ∀ f ∈ row, f ≠ none → encodeCopyField opts f ≠ opts.nullMarker
  nullLine : none ∈ row → '\n' ∉ opts.nullMarker
  oneLine : opts.delimiter = '\n' → row.length = 1
  ne_nil : copyLine opts row ≠ []
  notEnd : copyLine opts row ≠ "\\.".toList
  noReturn : (copyLine opts row).getLast? ≠ some '\r'

section Text

variable {row : List Field} {line : List Char}

theorem stripReturn_of_getLast? (h : line.getLast? ≠ some '\r') : stripReturn line = line :=
  if_neg h

theorem stripReturn_concat (line : List Char) : stripReturn (line ++ ['\r']) = line := by
  rw [stripReturn, if_pos getLast?_concat, dropLast_concat]

theorem stripReturn_subset (line : List Char) : stripReturn line ⊆ line := by
  rw [stripReturn]
  split
  · exact dropLast_subset line
  · exact List.Subset.refl _

/-- A row that is read as it was written is read from one line. -/
theorem exists_line_of_roundTrips (h : RoundTrips opts names rows) (hrow : row ∈ rows) :
    ∃ line, '\n' ∉ line ∧ parseLine opts line = row := by
  rw [roundTrips_iff] at h
  obtain ⟨raw, hraw, heq⟩ := exists_of_mem_copyLines (h.symm ▸ hrow)
  refine ⟨stripReturn raw, fun hmem => ?_, heq.symm⟩
  exact not_mem_of_mem_splitOn hraw (stripReturn_subset raw hmem)

theorem parseLine_text (htext : opts.csv = false) (line : List Char) :
    parseLine opts line = parseTextLine opts line := if_neg (by rw [htext]; decide)

/-- A `NULL` is read where the null marker stands between delimiters. -/
theorem marker_mem_of_parse (h : parseTextLine opts line = row) (hnull : none ∈ row) :
    opts.nullMarker ∈ line.splitOn opts.delimiter := by
  rw [← h] at hnull
  obtain ⟨tok, htok, hread⟩ := mem_map.mp hnull
  split at hread
  · next heq => exact heq ▸ htok
  · cases hread

/-- Pieces as many as the fields are those that were written. -/
theorem parse_of_forall {pieces : List (List Char)} (hne : pieces ≠ [])
    (h : parseTextLine opts ([opts.delimiter].intercalate pieces) = row)
    (hlength : pieces.length = row.length) :
    (∀ p ∈ pieces, opts.delimiter ∉ p) ∧ pieces.map (fun tok =>
      if tok = opts.nullMarker then none else some (unescapeTextField tok)) = row := by
  have hcount := congrArg List.length h
  rw [parseTextLine, length_map, splitOn_intercalate_eq hne, ← hlength] at hcount
  have hfree := length_flatMap_splitOn_iff.mp hcount
  rw [parseTextLine, splitOn_intercalate _ hfree hne] at h
  exact ⟨hfree, h⟩

/-- A row that is read has no carriage return at the end of its line. -/
theorem noReturn_of_parse (htext : opts.csv = false) (hrow : row ≠ [])
    (hne : copyLine opts row ≠ [])
    (h : parseTextLine opts (stripReturn (copyLine opts row)) = row) :
    (copyLine opts row).getLast? ≠ some '\r' := by
  intro hlast
  obtain ⟨front, last, rfl⟩ : ∃ front last, row = front ++ [last] :=
    ⟨_, _, (dropLast_append_getLast hrow).symm⟩
  obtain ⟨line, hline⟩ : ∃ line, copyLine opts (front ++ [last]) = line ++ ['\r'] := by
    obtain ⟨line, hline⟩ := getLast?_eq_some_iff.mp hlast
    exact ⟨line, hline⟩
  rw [hline, stripReturn_concat] at h
  rw [copyLine, map_append, map_singleton] at hline
  have hmarker : none ∈ front ++ [last] → opts.delimiter ∉ opts.nullMarker := fun hnull =>
    not_mem_of_mem_splitOn (marker_mem_of_parse h hnull)
  rcases eq_nil_or_concat (encodeCopyField opts last) with hlastField | ⟨e, c, hlastField⟩
  · -- The last field is empty, so the line ends in a delimiter that is lost.
    have hfront : front ≠ [] := by
      rintro rfl
      rw [hlastField] at hline
      exact absurd hline (by simp)
    rw [hlastField, intercalate_concat (by simpa using hfront)] at hline
    obtain ⟨hline, hdelimiter⟩ := append_inj' hline rfl
    have hdelimiter : opts.delimiter = '\r' := (List.cons.inj hdelimiter).1
    have hfree : ∀ p ∈ front.map (encodeCopyField opts), opts.delimiter ∉ p := by
      intro p hp
      obtain ⟨f, hf, rfl⟩ := mem_map.mp hp
      rcases f with _ | s
      · exact hmarker (mem_append_left _ hf)
      · exact hdelimiter ▸ (not_mem_encodeCopyField_text htext s).2
    rw [← hline, parseTextLine, splitOn_intercalate _ hfree (by simpa using hfront)] at h
    have hlength := congrArg List.length h
    simp at hlength
  · -- The last field is the null marker, which is read without its end.
    rw [concat_eq_append] at hlastField
    rw [hlastField, intercalate_concat_append] at hline
    obtain ⟨hpieces, hc⟩ := append_inj' hline rfl
    obtain rfl : c = '\r' := (List.cons.inj hc).1
    rcases last with _ | s
    · rw [← hpieces] at h
      have hread := (parse_of_forall (by simp) h (by simp)).2
      rw [map_append, map_singleton] at hread
      have hlastRead := (append_inj' hread rfl).2
      have hshort : e ≠ opts.nullMarker := fun heq => by
        have hlength := congrArg List.length (heq.symm ▸ hlastField : opts.nullMarker = e ++ ['\r'])
        rw [heq] at hlength
        simp at hlength
      rw [if_neg hshort] at hlastRead
      cases hlastRead
    · refine (not_mem_encodeCopyField_text htext s).2 ?_
      exact hlastField ▸ mem_append_right _ (.head _)

theorem reads_text_iff (htext : opts.csv = false) (hrow : row ≠ []) :
    Reads opts (copyLine opts row) row ↔ (∀ f ∈ row, opts.delimiter ∉ encodeCopyField opts f) ∧
      (∀ f ∈ row, f ≠ none → encodeCopyField opts f ≠ opts.nullMarker) ∧
      copyLine opts row ≠ [] ∧ copyLine opts row ≠ "\\.".toList ∧
      (copyLine opts row).getLast? ≠ some '\r' := by
  have hpieces : row.map (encodeCopyField opts) ≠ [] := by simpa using hrow
  have hparse := parseLine_text htext
  have hend : ∀ line, isEnd opts line = false ↔ line ≠ "\\.".toList := fun line => by
    rw [isEnd, htext]
    simp
  constructor
  · intro h
    have hread := (hparse _).symm.trans h.parse
    have hreturn := noReturn_of_parse htext hrow h.ne_nil hread
    have hnotEnd := (hend _).mp h.notEnd
    rw [stripReturn_of_getLast? hreturn] at hread hnotEnd
    obtain ⟨hfree, hfields⟩ := parse_of_forall hpieces hread (by simp)
    refine ⟨fun f hf => hfree _ (mem_map_of_mem hf), fun f hf hsome hmarker => ?_, h.ne_nil,
      hnotEnd, hreturn⟩
    obtain ⟨i, hi⟩ := mem_iff_getElem?.mp hf
    have hread := congrArg (·[i]?) hfields
    simp [hi, hmarker] at hread
    exact hsome hread.symm
  · rintro ⟨hfree, hmarker, hne, hnotEnd, hreturn⟩
    have hstrip := stripReturn_of_getLast? hreturn
    refine ⟨(hend _).mpr (hstrip.symm ▸ hnotEnd), hne, ?_⟩
    rw [hparse, hstrip, parseTextLine, copyLine,
      splitOn_intercalate _ (forall_mem_map.mpr hfree) hpieces, map_map]
    refine (map_congr_left fun f hf => ?_).trans (map_id row)
    rcases f with _ | s
    · exact if_pos rfl
    · show (if encodeCopyField opts (some s) = opts.nullMarker then none
        else some (unescapeTextField (encodeCopyField opts (some s)))) = some s
      rw [if_neg (hmarker _ hf nofun), unescapeTextField_encodeCopyField htext]

/-- The lines of rows that are all on one line. -/
theorem splitOn_payloadText
    (hheader : (opts.header && opts.csv) = true → '\n' ∉ headerLine opts names)
    (hrows : ∀ row ∈ rows, '\n' ∉ copyLine opts row) :
    (payloadText opts names rows).splitOn '\n' =
      (if opts.header && opts.csv then [headerLine opts names] else []) ++
        rows.map (copyLine opts) ++ [[]] := by
  have hlines : ((rows.map (copyLine opts)).flatMap (· ++ ['\n'])).splitOn '\n' =
      rows.map (copyLine opts) ++ [[]] := by
    rw [splitOn_terminated, flatMap_splitOn (forall_mem_map.mpr hrows)]
  rw [payloadText]
  split
  · next h =>
    rw [append_assoc, singleton_append, splitOn_append_cons_self, hlines,
      splitOn_eq_singleton (hheader h), append_assoc]
  · exact hlines

/-- **COPY in the text format**: the rows are read as they were written if and only if all of them
can be, and there is no `HEADER`, which is skipped but not written. -/
theorem copyText_iff (opts : CopyText) (htext : opts.csv = false) (names : List (List Char))
    (rows : List (List Field)) (hcolumns : ∀ row ∈ rows, row ≠ []) :
    RoundTrips opts names rows ↔
      (rows = [] ∨ opts.header = false) ∧ ∀ row ∈ rows, TextReadable opts row := by
  have hheader : (opts.header && opts.csv) = false := by rw [htext, Bool.and_false]
  have hone : ∀ row : List Field, (none ∈ row → '\n' ∉ opts.nullMarker) →
      (opts.delimiter = '\n' → row.length = 1) → '\n' ∉ copyLine opts row := by
    intro row hnull hdelimiter
    refine not_mem_intercalate (forall_mem_map.mpr fun f hf => ?_) fun heq => ?_
    · rcases f with _ | s
      · exact hnull hf
      · exact (not_mem_encodeCopyField_text htext s).1
    · rw [length_map, hdelimiter heq.symm]
  -- Where every row is on one line, lines and rows can be compared one by one.
  have hall : (∀ row ∈ rows, '\n' ∉ copyLine opts row) → (RoundTrips opts names rows ↔
      (rows = [] ∨ opts.header = false) ∧ ∀ row ∈ rows, Reads opts (copyLine opts row) row) := by
    intro hrows
    rw [roundTrips_iff, splitOn_payloadText (fun h => nomatch hheader.symm.trans h) hrows, hheader,
      if_neg (by decide), nil_append, copyLines_concat_nil, copyLines_map_eq_iff,
      Bool.true_and]
  constructor
  · intro h
    have hread : ∀ row ∈ rows, ∃ line, '\n' ∉ line ∧ parseTextLine opts line = row := by
      intro row hrow
      obtain ⟨line, hline, hparse⟩ := exists_line_of_roundTrips h hrow
      exact ⟨line, hline, (parseLine_text htext line).symm.trans hparse⟩
    have hnull : ∀ row ∈ rows, none ∈ row → '\n' ∉ opts.nullMarker := by
      intro row hrow hnone hmem
      obtain ⟨line, hline, hparse⟩ := hread row hrow
      exact hline (subset_of_mem_splitOn (marker_mem_of_parse hparse hnone) hmem)
    have hdelimiter : ∀ row ∈ rows, opts.delimiter = '\n' → row.length = 1 := by
      intro row hrow heq
      obtain ⟨line, hline, hparse⟩ := hread row hrow
      rw [← hparse, parseTextLine, heq, splitOn_eq_singleton hline]
      rfl
    obtain ⟨hskip, hreads⟩ :=
      (hall fun row hrow => hone row (hnull row hrow) (hdelimiter row hrow)).mp h
    refine ⟨hskip, fun row hrow => ?_⟩
    obtain ⟨hfree, hmarker, hne, hnotEnd, hreturn⟩ :=
      (reads_text_iff htext (hcolumns row hrow)).mp (hreads row hrow)
    exact ⟨hfree, hmarker, hnull row hrow, hdelimiter row hrow, hne, hnotEnd, hreturn⟩
  · rintro ⟨hskip, hreadable⟩
    refine (hall fun row hrow => ?_).mpr ⟨hskip, fun row hrow => ?_⟩
    · exact hone row (hreadable row hrow).nullLine (hreadable row hrow).oneLine
    · have h := hreadable row hrow
      exact (reads_text_iff htext (hcolumns row hrow)).mpr
        ⟨h.delimiter, h.marker, h.ne_nil, h.notEnd, h.noReturn⟩

/-- The defaults of the text format. -/
def defaultText : CopyText := ⟨false, false, '\t', "\\N".toList⟩

/-- A tab, a line break, a backslash and a text like the null marker are read again. -/
theorem copyText_default :
    RoundTrips defaultText [] [[some "a\tb\n".toList, none], [some "\\N".toList, some []]] :=
  (copyText_iff defaultText rfl [] [[some "a\tb\n".toList, none], [some "\\N".toList, some []]]
    (by decide)).mpr
    ⟨.inr rfl, by
      intro row hrow
      rcases mem_pair.mp hrow with rfl | rfl
      · exact ⟨by decide, by decide, by decide, by decide, by decide, by decide, by decide⟩
      · exact ⟨by decide, by decide, by decide, by decide, by decide, by decide, by decide⟩⟩

/-- With a comma as the delimiter, a comma in a text is not escaped. -/
theorem copyText_comma :
    ¬RoundTrips ⟨false, false, ',', "\\N".toList⟩ [] [[some "a,b".toList]] := by
  rw [roundTrips_iff]
  decide

end Text

end PostgresRs.Copying
