import PostgresRs.Server.Copy

/-!
# COPY as CSV

The CSV format of `COPY`.  A text is written in quotes if it has the delimiter, a quote or a line
break in it, and as it is otherwise; so a text like the null marker is read as `NULL`, and the null
marker, which is never quoted, must not have a special character.  A text with a line break is
quoted but not read again, since the reader splits the lines first.

* `copyCsv_iff` — exactly when the rows are read as they were written.
* `copyCsv_newline` — a row that is not.
-/

namespace PostgresRs.Copying

open List

variable {opts : CopyText} {cs cur s : List Char} {wasQuoted : Bool} {f : Field} {row : List Field}

/-! ## The loop over a line -/

theorem csvFields_plain {c : Char} (hquote : c ≠ '"') (hdelimiter : c ≠ opts.delimiter) :
    csvFields opts (c :: cs) cur false wasQuoted =
      csvFields opts cs (cur ++ [c]) false wasQuoted := by
  rw [csvFields, if_neg hquote, if_neg hdelimiter]

theorem csvFields_delimiter (hquote : opts.delimiter ≠ '"') :
    csvFields opts (opts.delimiter :: cs) cur false wasQuoted =
      finishCsvField opts cur wasQuoted :: csvFields opts cs [] false false := by
  rw [csvFields, if_neg hquote, if_pos rfl]

theorem csvFields_open :
    csvFields opts ('"' :: cs) cur false wasQuoted = csvFields opts cs cur true true := by
  rw [csvFields, if_pos rfl]

theorem csvFields_inside {c : Char} (hquote : c ≠ '"') :
    csvFields opts (c :: cs) cur true wasQuoted =
      csvFields opts cs (cur ++ [c]) true wasQuoted := by
  rw [csvFields, if_neg hquote]
  exact fun _ heq => absurd heq hquote

theorem csvFields_close (h : cs.head? ≠ some '"') :
    csvFields opts ('"' :: cs) cur true wasQuoted = csvFields opts cs cur false wasQuoted := by
  rw [csvFields, if_pos rfl]
  rintro cs' - rfl
  exact h rfl

theorem csvFields_append_plain (h : ∀ c ∈ s, c ≠ '"' ∧ c ≠ opts.delimiter) :
    csvFields opts (s ++ cs) cur false wasQuoted =
      csvFields opts cs (cur ++ s) false wasQuoted := by
  induction s generalizing cur with
  | nil => rw [nil_append, append_nil]
  | cons c s ih =>
    obtain ⟨⟨hquote, hdelimiter⟩, hs⟩ := forall_mem_cons.mp h
    rw [cons_append, csvFields_plain hquote hdelimiter, ih hs, append_assoc]
    rfl

theorem csvFields_append_quoted :
    csvFields opts (replace '"' "\"\"".toList s ++ cs) cur true wasQuoted =
      csvFields opts cs (cur ++ s) true wasQuoted := by
  induction s generalizing cur with
  | nil =>
    rw [append_nil]
    rfl
  | cons c s ih =>
    rw [replace, flatMap_cons, append_assoc]
    by_cases hquote : c = '"'
    · rw [hquote]
      show csvFields opts ('"' :: '"' :: (replace '"' "\"\"".toList s ++ cs)) cur true wasQuoted = _
      rw [csvFields, ih, append_assoc]
      rfl
    · rw [if_neg hquote, singleton_append, csvFields_inside hquote]
      exact ih.trans (by rw [append_assoc]; rfl)

/-! ## Fields -/

/-- A text is written in quotes. -/
def Quoted (opts : CopyText) (s : List Char) : Prop :=
  opts.delimiter ∈ s ∨ '"' ∈ s ∨ '\n' ∈ s ∨ '\r' ∈ s

instance (opts : CopyText) (s : List Char) : Decidable (Quoted opts s) :=
  inferInstanceAs (Decidable (_ ∨ _ ∨ _ ∨ _))

/-- A field is read as it was written: a text is quoted or not like the null marker, and for a
`NULL` the null marker has no special character. -/
def FieldReads (opts : CopyText) : Field → Prop
  | some s => Quoted opts s ∨ s ≠ opts.nullMarker
  | none => opts.delimiter ∉ opts.nullMarker ∧ '"' ∉ opts.nullMarker

theorem encodeCopyField_csv (hcsv : opts.csv = true) (s : List Char) :
    encodeCopyField opts (some s) =
      if Quoted opts s then '"' :: replace '"' "\"\"".toList s ++ ['"'] else s := by
  rw [encodeCopyField, if_pos hcsv]
  rfl

/-- **A text is read** to its end, if no quote follows. -/
theorem csvFields_text (hcsv : opts.csv = true) (h : cs.head? ≠ some '"') :
    csvFields opts (encodeCopyField opts (some s) ++ cs) [] false false =
      csvFields opts cs s false (decide (Quoted opts s)) := by
  rw [encodeCopyField_csv hcsv]
  by_cases hquoted : Quoted opts s
  · rw [if_pos hquoted, cons_append, cons_append, append_assoc, csvFields_open,
      csvFields_append_quoted, singleton_append, csvFields_close h, decide_eq_true hquoted]
    rfl
  · rw [if_neg hquoted, decide_eq_false hquoted]
    refine csvFields_append_plain fun c hc => ⟨?_, ?_⟩
    · rintro rfl
      exact hquoted (.inr (.inl hc))
    · rintro rfl
      exact hquoted (.inl hc)

theorem finishCsvField_text :
    finishCsvField opts s (decide (Quoted opts s)) = some s ↔ FieldReads opts (some s) := by
  rw [finishCsvField, FieldReads]
  by_cases hquoted : Quoted opts s <;> by_cases hmarker : s = opts.nullMarker <;>
    simp [hmarker]

/-- A field that is read as it was written is read to its end. -/
theorem csvFields_field (hcsv : opts.csv = true) (hf : FieldReads opts f)
    (h : cs.head? ≠ some '"') : ∃ cur wasQuoted,
      csvFields opts (encodeCopyField opts f ++ cs) [] false false =
        csvFields opts cs cur false wasQuoted ∧ finishCsvField opts cur wasQuoted = f := by
  rcases f with _ | s
  · refine ⟨opts.nullMarker, false, ?_, if_pos ⟨rfl, rfl⟩⟩
    refine csvFields_append_plain fun c hc => ⟨?_, ?_⟩
    · rintro rfl
      exact hf.2 hc
    · rintro rfl
      exact hf.1 hc
  · exact ⟨s, _, csvFields_text hcsv h, finishCsvField_text.mpr hf⟩

/-- A field that has been in quotes is not `NULL`. -/
theorem head?_csvFields_quoted (inQuotes : Bool) :
    (csvFields opts cs cur inQuotes true).head? ≠ some none := by
  generalize hw : true = wasQuoted
  fun_induction csvFields opts cs cur inQuotes wasQuoted with
  | case1 | case6 => simp [finishCsvField, ← hw]
  | case2 cs cur wasQuoted ih => exact ih hw
  | case3 cs cur wasQuoted _ ih => exact ih hw
  | case4 c cs cur wasQuoted _ _ ih => exact ih hw
  | case5 cs cur wasQuoted ih => exact ih rfl
  | case7 c cs cur wasQuoted _ _ ih => exact ih hw

/-- One field is read from a line without a delimiter, or if a quote is the delimiter. -/
theorem length_csvFields {inQuotes : Bool} (h : opts.delimiter ∈ cs → opts.delimiter = '"') :
    (csvFields opts cs cur inQuotes wasQuoted).length = 1 := by
  fun_induction csvFields opts cs cur inQuotes wasQuoted with
  | case1 cur _ wasQuoted => rfl
  | case2 cs cur wasQuoted ih => exact ih fun hmem => h (.tail _ (.tail _ hmem))
  | case3 cs cur wasQuoted _ ih => exact ih fun hmem => h (.tail _ hmem)
  | case4 c cs cur wasQuoted _ _ ih => exact ih fun hmem => h (.tail _ hmem)
  | case5 cs cur wasQuoted ih => exact ih fun hmem => h (.tail _ hmem)
  | case6 cs cur wasQuoted hne ih => exact absurd (h (.head _)) hne
  | case7 c cs cur wasQuoted _ _ ih => exact ih fun hmem => h (.tail _ hmem)

/-- **A `NULL` is read** where the null marker stands, without quotes, before a delimiter or the
end. -/
theorem exists_of_head?_eq_none (h : (csvFields opts cs cur false false).head? = some none) :
    ∃ plain rest, cs = plain ++ rest ∧ (∀ c ∈ plain, c ≠ '"' ∧ c ≠ opts.delimiter) ∧
      cur ++ plain = opts.nullMarker := by
  have hfinish : ∀ {cur}, finishCsvField opts cur false = none → cur = opts.nullMarker := by
    intro cur hnone
    rw [finishCsvField] at hnone
    split at hnone
    · next heq => exact heq.2
    · cases hnone
  induction cs generalizing cur with
  | nil =>
    refine ⟨[], [], rfl, nofun, ?_⟩
    rw [List.append_nil]
    exact hfinish (Option.some.inj h)
  | cons c cs ih =>
    by_cases hquote : c = '"'
    · rw [hquote, csvFields_open] at h
      exact absurd h (head?_csvFields_quoted true)
    by_cases hdelimiter : c = opts.delimiter
    · refine ⟨[], c :: cs, rfl, nofun, ?_⟩
      rw [hdelimiter, csvFields_delimiter (hdelimiter ▸ hquote)] at h
      rw [append_nil]
      exact hfinish (Option.some.inj h)
    · rw [csvFields_plain hquote hdelimiter] at h
      obtain ⟨plain, rest, rfl, hplain, hmarker⟩ := ih h
      refine ⟨c :: plain, rest, rfl, forall_mem_cons.mpr ⟨⟨hquote, hdelimiter⟩, hplain⟩, ?_⟩
      rwa [append_assoc] at hmarker

theorem fieldReads_none (h : (csvFields opts cs [] false false).head? = some none) :
    FieldReads opts none := by
  obtain ⟨plain, rest, -, hplain, hmarker⟩ := exists_of_head?_eq_none h
  rw [FieldReads, ← hmarker]
  exact ⟨fun hmem => (hplain _ hmem).2 rfl, fun hmem => (hplain _ hmem).1 rfl⟩

/-! ## Rows -/

theorem copyLine_cons_cons (f g : Field) (fs : List Field) : copyLine opts (f :: g :: fs) =
    encodeCopyField opts f ++ opts.delimiter :: copyLine opts (g :: fs) := by
  rfl

theorem copyLine_singleton (f : Field) : copyLine opts [f] = encodeCopyField opts f := by
  rw [copyLine, map_singleton, intercalate_singleton]

/-- A text is not written with a carriage return at the end. -/
theorem getLast?_encodeCopyField_text (hcsv : opts.csv = true) :
    (encodeCopyField opts (some s)).getLast? ≠ some '\r' := by
  rw [encodeCopyField_csv hcsv]
  split
  · rw [getLast?_concat]
    decide
  · next hquoted => exact fun hlast => hquoted (.inr (.inr (.inr (mem_of_getLast? hlast))))

/-- The fields of a row that all are read as they were written. -/
theorem parseCsvLine_copyLine (hcsv : opts.csv = true) (hrow : row ≠ [])
    (hquote : opts.delimiter = '"' → row.length = 1) (h : ∀ f ∈ row, FieldReads opts f) :
    parseCsvLine opts (copyLine opts row) = row := by
  induction row with
  | nil => exact absurd rfl hrow
  | cons f fs ih =>
    obtain ⟨hf, hfs⟩ := List.forall_mem_cons.mp h
    rcases fs with _ | ⟨g, fs⟩
    · obtain ⟨cur, wasQuoted, hread, hfinish⟩ := @csvFields_field opts [] f hcsv hf nofun
      rw [List.append_nil] at hread
      rw [copyLine_singleton, parseCsvLine, hread, csvFields, hfinish]
    · have hne : opts.delimiter ≠ '"' := fun heq => absurd (hquote heq) (by simp)
      obtain ⟨cur, wasQuoted, hread, hfinish⟩ :=
        @csvFields_field opts (opts.delimiter :: copyLine opts (g :: fs)) f hcsv hf
          fun heq => hne (Option.some.inj heq)
      rw [copyLine_cons_cons, parseCsvLine, hread, csvFields_delimiter hne, hfinish]
      exact congrArg (f :: ·) (ih (cons_ne_nil _ _) (fun heq => absurd heq hne) hfs)

/-- A field that is read as it was written, before the end or a delimiter. -/
theorem fieldReads_of_head? (hcsv : opts.csv = true)
    (hcs : cs = [] ∨ opts.delimiter ≠ '"' ∧ ∃ rest, cs = opts.delimiter :: rest)
    (h : (csvFields opts (encodeCopyField opts f ++ cs) [] false false).head? = some f) :
    FieldReads opts f := by
  rcases f with _ | s
  · exact fieldReads_none h
  refine finishCsvField_text.mp (Option.some.inj ?_)
  rcases hcs with rfl | ⟨hne, rest, rfl⟩
  · have hend : ([] : List Char).head? ≠ some '"' := nofun
    rwa [csvFields_text hcsv hend] at h
  · have hnext : (opts.delimiter :: rest).head? ≠ some '"' := fun heq => hne (Option.some.inj heq)
    rwa [csvFields_text hcsv hnext, csvFields_delimiter hne] at h

/-- The null marker is read at the end of a line only without a carriage return. -/
theorem noReturn_nullMarker
    (h : (csvFields opts (stripReturn opts.nullMarker) [] false false).head? = some none) :
    opts.nullMarker.getLast? ≠ some '\r' := by
  intro hlast
  obtain ⟨plain, rest, heq, -, hmarker⟩ := exists_of_head?_eq_none h
  rw [nil_append] at hmarker
  rw [stripReturn, if_pos hlast, hmarker] at heq
  have hpos := length_pos_of_ne_nil (ne_nil_of_mem (mem_of_getLast? hlast))
  have hlength := congrArg List.length heq
  rw [length_dropLast, length_append] at hlength
  omega

theorem stripReturn_append_cons {front : List Char} {c : Char} (h : cs = [] → c ≠ '\r') :
    stripReturn (front ++ c :: cs) = front ++ c :: stripReturn cs := by
  rcases eq_nil_or_concat cs with rfl | ⟨body, d, rfl⟩
  · rw [stripReturn, getLast?_concat, if_neg fun heq => h rfl (Option.some.inj heq)]
    rfl
  · rw [concat_eq_append, stripReturn, stripReturn, ← cons_append, ← append_assoc,
      getLast?_concat, getLast?_concat, dropLast_concat, dropLast_concat]
    split <;> simp

/-- **What is read as it was written** could be read so field by field. -/
theorem fieldReads_of_parse (hcsv : opts.csv = true) (hrow : row ≠ [])
    (hquote : opts.delimiter = '"' → row.length = 1)
    (h : parseCsvLine opts (stripReturn (copyLine opts row)) = row) :
    (∀ f ∈ row, FieldReads opts f) ∧ (copyLine opts row).getLast? ≠ some '\r' := by
  induction row with
  | nil => exact absurd rfl hrow
  | cons f fs ih =>
    rcases fs with _ | ⟨g, fs⟩
    · rw [copyLine_singleton] at h ⊢
      have hlast : (encodeCopyField opts f).getLast? ≠ some '\r' := by
        rcases f with _ | s
        · exact noReturn_nullMarker (congrArg List.head? h)
        · exact getLast?_encodeCopyField_text hcsv
      rw [stripReturn_of_getLast? hlast, parseCsvLine,
        ← List.append_nil (encodeCopyField opts f)] at h
      refine ⟨List.forall_mem_singleton.mpr ?_, hlast⟩
      exact fieldReads_of_head? hcsv (.inl rfl) (congrArg List.head? h)
    · have hne : opts.delimiter ≠ '"' := fun heq => absurd (hquote heq) (by simp)
      rw [copyLine_cons_cons] at h ⊢
      by_cases hlost : copyLine opts (g :: fs) = [] ∧ opts.delimiter = '\r'
      · -- The last delimiter is lost with the carriage return, and a field with it.
        rw [hlost.1, hlost.2, stripReturn_concat, parseCsvLine,
          ← append_nil (encodeCopyField opts f)] at h
        have hf := fieldReads_of_head? hcsv (.inl rfl) (congrArg List.head? h)
        obtain ⟨cur, wasQuoted, hread, -⟩ := @csvFields_field opts [] f hcsv hf nofun
        rw [hread] at h
        cases h
      · rw [not_and] at hlost
        rw [stripReturn_append_cons hlost, parseCsvLine] at h
        have hf := fieldReads_of_head? hcsv (.inr ⟨hne, _, rfl⟩) (congrArg List.head? h)
        obtain ⟨cur, wasQuoted, hread, hfinish⟩ :=
          @csvFields_field opts (opts.delimiter :: stripReturn (copyLine opts (g :: fs))) f hcsv hf
            fun heq => hne (Option.some.inj heq)
        rw [hread, csvFields_delimiter hne] at h
        obtain ⟨hrest, hlast⟩ :=
          ih (cons_ne_nil _ _) (fun heq => absurd heq hne) (List.cons.inj h).2
        refine ⟨forall_mem_cons.mpr ⟨hf, hrest⟩, ?_⟩
        rcases eq_or_ne (copyLine opts (g :: fs)) [] with hnil | hnil
        · rw [hnil, getLast?_concat]
          exact fun heq => hlost hnil (Option.some.inj heq)
        · rwa [getLast?_append_of_ne_nil _ (cons_ne_nil _ _),
            getLast?_cons_of_ne_nil hnil]

/-- When a row in CSV is read as it was written: its fields are, none has a line break in it, there
is a delimiter between them that is no quote and no line break, and the line is not empty and has no
carriage return at its end. -/
structure CsvReadable (opts : CopyText) (row : List Field) : Prop where
  fields : ∀ f ∈ row, FieldReads opts f
  oneLine : ∀ f ∈ row, '\n' ∉ f.getD opts.nullMarker
  delimiter : opts.delimiter = '"' ∨ opts.delimiter = '\n' → row.length = 1
  ne_nil : copyLine opts row ≠ []
  noReturn : (copyLine opts row).getLast? ≠ some '\r'

theorem parseLine_csv (hcsv : opts.csv = true) (line : List Char) :
    parseLine opts line = parseCsvLine opts line := if_pos hcsv

theorem reads_csv_iff (hcsv : opts.csv = true) (hrow : row ≠ []) :
    Reads opts (copyLine opts row) row ↔ (∀ f ∈ row, FieldReads opts f) ∧
      (opts.delimiter = '"' → row.length = 1) ∧ copyLine opts row ≠ [] ∧
      (copyLine opts row).getLast? ≠ some '\r' := by
  have hparse := parseLine_csv hcsv
  have hend : ∀ line, isEnd opts line = false := fun line => by
    rw [isEnd, hcsv]
    rfl
  constructor
  · intro h
    have hread := (hparse _).symm.trans h.parse
    have hquote : opts.delimiter = '"' → row.length = 1 := fun heq => by
      rw [← hread]
      exact length_csvFields fun _ => heq
    obtain ⟨hfields, hreturn⟩ := fieldReads_of_parse hcsv hrow hquote hread
    exact ⟨hfields, hquote, h.ne_nil, hreturn⟩
  · rintro ⟨hfields, hquote, hne, hreturn⟩
    refine ⟨hend _, hne, ?_⟩
    rw [hparse, stripReturn_of_getLast? hreturn]
    exact parseCsvLine_copyLine hcsv hrow hquote hfields

/-- What is written for a field has a line break if the field or the null marker has. -/
theorem newline_mem_encodeCopyField (hcsv : opts.csv = true) :
    '\n' ∈ encodeCopyField opts f ↔ '\n' ∈ f.getD opts.nullMarker := by
  rcases f with _ | s
  · rfl
  rw [encodeCopyField_csv hcsv]
  split
  · constructor
    · intro hmem
      simp only [mem_append, mem_cons, replace, mem_flatMap] at hmem
      rcases hmem with (heq | ⟨d, hd, hmem⟩) | heq
      · exact absurd heq (by decide)
      · split at hmem
        · exact absurd hmem (by decide)
        · exact mem_singleton.mp hmem ▸ hd
      · exact absurd heq (by decide)
    · intro hmem
      refine mem_append_left _ (.tail _ (mem_flatMap.mpr ⟨_, hmem, ?_⟩))
      rw [if_neg (by decide)]
      exact .head _
  · rfl

/-- No field that is read from a line has a line break. -/
theorem newline_not_mem_of_mem_csvFields {inQuotes : Bool} (hcs : '\n' ∉ cs) (hcur : '\n' ∉ cur)
    (h : f ∈ csvFields opts cs cur inQuotes wasQuoted) : '\n' ∉ f.getD opts.nullMarker := by
  have hfinish : ∀ {cur wasQuoted}, '\n' ∉ cur →
      '\n' ∉ (finishCsvField opts cur wasQuoted).getD opts.nullMarker := by
    intro cur wasQuoted hcur
    rw [finishCsvField]
    split
    · next heq => exact heq.2 ▸ hcur
    · exact hcur
  have hconcat : ∀ {c cs cur}, '\n' ∉ c :: cs → '\n' ∉ cur → '\n' ∉ cur ++ [c] := by
    intro c cs cur hcs hcur hmem
    rcases mem_append.mp hmem with hmem | hmem
    · exact hcur hmem
    · exact hcs (mem_singleton.mp hmem ▸ .head _)
  fun_induction csvFields opts cs cur inQuotes wasQuoted with
  | case1 cur _ wasQuoted => exact mem_singleton.mp h ▸ hfinish hcur
  | case2 cs cur wasQuoted ih =>
    exact ih (fun hmem => hcs (.tail _ (.tail _ hmem))) (by simpa using hcur) h
  | case3 cs cur wasQuoted _ ih => exact ih (fun hmem => hcs (.tail _ hmem)) hcur h
  | case4 c cs cur wasQuoted _ _ ih =>
    exact ih (fun hmem => hcs (.tail _ hmem)) (hconcat hcs hcur) h
  | case5 cs cur wasQuoted ih => exact ih (fun hmem => hcs (.tail _ hmem)) hcur h
  | case6 cs cur wasQuoted _ ih =>
    rcases mem_cons.mp h with rfl | h
    · exact hfinish hcur
    · exact ih (fun hmem => hcs (.tail _ hmem)) not_mem_nil h
  | case7 c cs cur wasQuoted _ _ ih =>
    exact ih (fun hmem => hcs (.tail _ hmem)) (hconcat hcs hcur) h

theorem newline_not_mem_copyLine (hcsv : opts.csv = true)
    (hfields : ∀ f ∈ row, '\n' ∉ f.getD opts.nullMarker)
    (hdelimiter : opts.delimiter = '\n' → row.length = 1) : '\n' ∉ copyLine opts row := by
  refine Lines.not_mem_intercalate (forall_mem_map.mpr fun f hf => ?_) fun heq => ?_
  · exact fun hmem => hfields f hf ((newline_mem_encodeCopyField hcsv).mp hmem)
  · rw [length_map, hdelimiter heq.symm]

/-! ## The format -/

/-- **COPY as CSV**: where the header, if there is one, is on one line, the rows are read as they
were written if and only if all of them can be and the line of the header is not empty. -/
theorem copyCsv_iff (opts : CopyText) (hcsv : opts.csv = true) (names : List (List Char))
    (hheader : opts.header = true → '\n' ∉ headerLine opts names) (rows : List (List Field))
    (hcolumns : ∀ row ∈ rows, row ≠ []) :
    RoundTrips opts names rows ↔
      (opts.header = true → rows = [] ∨ headerLine opts names ≠ []) ∧
        ∀ row ∈ rows, CsvReadable opts row := by
  -- Where every row is on one line, lines and rows can be compared one by one.
  have hall : (∀ row ∈ rows, '\n' ∉ copyLine opts row) → (RoundTrips opts names rows ↔
      (opts.header = true → rows = [] ∨ headerLine opts names ≠ []) ∧
        ∀ row ∈ rows, Reads opts (copyLine opts row) row) := by
    intro hrows
    rw [roundTrips_iff, splitOn_payloadText (fun h => hheader (Bool.and_eq_true_iff.mp h).1) hrows,
      copyLines_concat_nil, hcsv, Bool.and_true]
    cases hopt : opts.header with
    | false =>
      rw [if_neg (by decide), nil_append, copyLines_map_eq_iff, hopt]
      simp
    | true =>
      rw [if_pos rfl, singleton_append, copyLines_cons, if_neg (by simp [isEnd, hcsv])]
      by_cases hnil : headerLine opts names = []
      · rw [hnil, if_pos ⟨rfl, rfl⟩, copyLines_map_eq_iff, hopt]
        simp
      · rw [if_neg fun h => hnil h.2, if_pos (by simp [hopt]), copyLines_map_eq_iff]
        simp [hnil]
  constructor
  · intro h
    have hread : ∀ row ∈ rows, ∃ line, '\n' ∉ line ∧ parseCsvLine opts line = row := by
      intro row hrow
      obtain ⟨line, hline, hparse⟩ := exists_line_of_roundTrips h hrow
      exact ⟨line, hline, (parseLine_csv hcsv line).symm.trans hparse⟩
    have hone : ∀ row ∈ rows, ∀ f ∈ row, '\n' ∉ f.getD opts.nullMarker := by
      intro row hrow f hf
      obtain ⟨line, hline, hparse⟩ := hread row hrow
      exact newline_not_mem_of_mem_csvFields hline not_mem_nil (hparse.symm ▸ hf)
    have hdelimiter : ∀ row ∈ rows, opts.delimiter = '\n' → row.length = 1 := by
      intro row hrow heq
      obtain ⟨line, hline, hparse⟩ := hread row hrow
      rw [← hparse]
      exact length_csvFields fun hmem => absurd (heq ▸ hmem) hline
    obtain ⟨hskip, hreads⟩ :=
      (hall fun row hrow => newline_not_mem_copyLine hcsv (hone row hrow) (hdelimiter row hrow)).mp h
    refine ⟨hskip, fun row hrow => ?_⟩
    obtain ⟨hfields, hquote, hne, hreturn⟩ :=
      (reads_csv_iff hcsv (hcolumns row hrow)).mp (hreads row hrow)
    exact ⟨hfields, hone row hrow, fun h => h.elim hquote (hdelimiter row hrow), hne, hreturn⟩
  · rintro ⟨hskip, hreadable⟩
    refine (hall fun row hrow => ?_).mpr ⟨hskip, fun row hrow => ?_⟩
    · have h := hreadable row hrow
      exact newline_not_mem_copyLine hcsv h.oneLine fun heq => h.delimiter (.inr heq)
    · have h := hreadable row hrow
      exact (reads_csv_iff hcsv (hcolumns row hrow)).mpr
        ⟨h.fields, fun heq => h.delimiter (.inl heq), h.ne_nil, h.noReturn⟩

/-- The defaults of CSV, with a header. -/
def defaultCsv : CopyText := ⟨true, true, ',', []⟩

instance (opts : CopyText) (f : Field) : Decidable (FieldReads opts f) :=
  match f with
  | some s => inferInstanceAs (Decidable (Quoted opts s ∨ s ≠ opts.nullMarker))
  | none => inferInstanceAs (Decidable (_ ∧ _))

/-- A comma, quotes and a carriage return are read again. -/
theorem copyCsv_quotes :
    RoundTrips defaultCsv ["a".toList, "b".toList] [[some "x,\"y\"\r".toList, none]] :=
  (copyCsv_iff defaultCsv rfl ["a".toList, "b".toList] (by decide)
    [[some "x,\"y\"\r".toList, none]] (by decide)).mpr
    ⟨by decide, by
      intro row hrow
      obtain rfl := mem_singleton.mp hrow
      exact ⟨by decide, by decide, by decide, by decide, by decide⟩⟩

/-- A line break is written in quotes, and read as the end of the row. -/
theorem copyCsv_newline :
    ¬RoundTrips ⟨true, false, ',', []⟩ ["a".toList] [[some "x\ny".toList]] := by
  rw [roundTrips_iff]
  decide

end PostgresRs.Copying
