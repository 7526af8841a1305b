import PostgresRs.Disk.Codec
import PostgresRs.Disk.Heap
import PostgresRs.Storage.Table
import PostgresRs.Util.Lines
import Mathlib.Data.List.ModifyLast

/-!
# The catalog file

The text in which `engine/src/disk/mod.rs` keeps the schemas of the tables: one line for each table
and each column, with fields between tabs.  Backslashes, tabs and newlines in names are escaped, but a
carriage return is not, and reading by lines takes one away at the end of a line.  So a table whose
name ends in a carriage return comes back under a shorter name, and everything else as it was
(`readText_catalogText`).
-/

namespace PostgresRs.Disk

open List

open Storage (Column)

/-- The schema of a table: its name and columns. -/
structure TableCatalog where
  name : String
  columns : List Column
deriving DecidableEq, Repr

/-! ## Writing -/

/-- `str::replace` of a character. -/
def replaceChar (c : Char) (subst cs : List Char) : List Char :=
  cs.flatMap fun d => if d = c then subst else [d]

def escape (cs : List Char) : List Char :=
  replaceChar '\n' ['\\', 'n'] (replaceChar '\t' ['\\', 't'] (replaceChar '\\' ['\\', '\\'] cs))

def tableLine (name : String) : List Char := "table\t".toList ++ escape name.toList

def columnLine (c : Column) : List Char :=
  "col\t".toList ++ escape c.name.toList ++ '\t' :: c.dataType.pgTypeName.toList ++
    ['\t', if c.notNull then '1' else '0']

def tableLines (t : TableCatalog) : List (List Char) := tableLine t.name :: t.columns.map columnLine

variable (tables : List TableCatalog)

def catalogText : List Char :=
  (tables.flatMap tableLines).flatMap (· ++ ['\n'])

def writeCatalog : List UInt8 := Utf8.utf8 (catalogText tables)

/-! ## Reading -/

def unescape : List Char → List Char
  | [] => []
  | c :: cs =>
    if c = '\\' then
      match cs with
      | [] => []
      | d :: ds => (if d = 't' then '\t' else if d = 'n' then '\n' else d) :: unescape ds
    else c :: unescape cs

/-- Without a carriage return at the end. -/
def stripCr (cs : List Char) : List Char := if cs.getLast? = some '\r' then cs.dropLast else cs

/-- `str::lines`: a newline ends a line, with a carriage return before it. -/
def lines (cs : List Char) : List (List Char) :=
  let pieces := cs.splitOn '\n'
  pieces.dropLast.map stripCr ++ if pieces.getLast? = some [] then [] else pieces.getLast?.toList

def datatypeFromPgName (name : List Char) : Option DataType :=
  DataType.all.find? fun dt => dt.pgTypeName.toList = name

def readLine (line : List Char) : List TableCatalog :=
  match line.splitOn '\t' with
  | [kind, name] =>
    if kind = "table".toList then tables ++ [⟨String.ofList (unescape name), []⟩] else tables
  | [kind, name, ty, nn] =>
    if kind = "col".toList then
      let column : Column := ⟨String.ofList (unescape name), (datatypeFromPgName ty).getD .text,
        nn = "1".toList⟩
      tables.modifyLast fun t => { t with columns := t.columns ++ [column] }
    else tables
  | _ => tables

def readText (cs : List Char) : List TableCatalog := (lines cs).foldl readLine []

/-- The catalog in a file; no file is an empty catalog. -/
def readCatalog (file : Option (List UInt8)) : Except IoError (List TableCatalog) :=
  match file with
  | none => .ok []
  | some bytes =>
    match Utf8.decode bytes with
    | some cs => .ok (readText cs)
    | none => .error .invalidUtf8

/-! ## Escaping -/

/-- A character of a name as it is written. -/
def escapeChar (c : Char) : List Char :=
  if c = '\\' then ['\\', '\\'] else if c = '\t' then ['\\', 't'] else if c = '\n' then ['\\', 'n']
  else [c]

theorem escape_eq (cs : List Char) : escape cs = cs.flatMap escapeChar := by
  rw [escape, replaceChar, replaceChar, replaceChar, flatMap_assoc, flatMap_assoc]
  refine flatMap_congr fun c _ => ?_
  rw [escapeChar]
  split
  · rfl
  · rw [flatMap_singleton]
    split
    · rfl
    · rw [flatMap_singleton]

theorem escape_append (cs ds : List Char) : escape (cs ++ ds) = escape cs ++ escape ds := by
  rw [escape_eq, escape_eq, escape_eq, flatMap_append]

theorem unescape_escapeChar (c : Char) (cs : List Char) :
    unescape (escapeChar c ++ cs) = c :: unescape cs := by
  rw [escapeChar]
  split
  · next h =>
    subst h
    rfl
  · next hbackslash =>
    split
    · next h =>
      subst h
      rfl
    · split
      · next h =>
        subst h
        rfl
      · rw [unescape.eq_def]
        exact if_neg hbackslash

/-- A name is read back from its escaped form. -/
theorem unescape_escape (cs : List Char) : unescape (escape cs) = cs := by
  rw [escape_eq]
  induction cs with
  | nil => rfl
  | cons c cs ih => rw [flatMap_cons, unescape_escapeChar, ih]

/-- The escaped form can stand in a field of a line. -/
theorem not_mem_escape (cs : List Char) : '\t' ∉ escape cs ∧ '\n' ∉ escape cs := by
  have hchar : ∀ c, '\t' ∉ escapeChar c ∧ '\n' ∉ escapeChar c := by
    intro c
    rw [escapeChar]
    split
    · decide
    split
    · decide
    next htab =>
    split
    · decide
    · next hnewline =>
      exact ⟨fun h => htab (mem_singleton.mp h).symm,
        fun h => hnewline (mem_singleton.mp h).symm⟩
  rw [escape_eq]
  constructor <;> intro h <;> obtain ⟨c, -, hc⟩ := mem_flatMap.mp h
  · exact (hchar c).1 hc
  · exact (hchar c).2 hc

/-- Only a name that ends in a carriage return is written with one at the end. -/
theorem stripCr_append_escape {front : List Char} (hfront : front.getLast? ≠ some '\r')
    (cs : List Char) : stripCr (front ++ escape cs) = front ++ escape (stripCr cs) := by
  rcases eq_nil_or_concat' cs with rfl | ⟨cs, c, rfl⟩
  · show stripCr (front ++ []) = front ++ []
    rw [append_nil, stripCr, if_neg hfront]
  · rcases eq_or_ne c '\r' with rfl | hc
    · have hlast : (front ++ escape (cs ++ ['\r'])).getLast? = some '\r' := by
        rw [escape_append, ← append_assoc]
        exact getLast?_concat
      have hname : stripCr (cs ++ ['\r']) = cs := by
        rw [stripCr, if_pos getLast?_concat, dropLast_concat]
      rw [stripCr, if_pos hlast, hname, escape_append, ← append_assoc]
      exact dropLast_concat
    · have hname : stripCr (cs ++ [c]) = cs ++ [c] := by
        rw [stripCr, getLast?_concat, if_neg fun h => hc (Option.some.inj h)]
      -- The last character that is written for `c`.
      obtain ⟨ds, d, hds, hd⟩ : ∃ ds d, escapeChar c = ds ++ [d] ∧ d ≠ '\r' := by
        rw [escapeChar]
        split
        · exact ⟨['\\'], '\\', rfl, by decide⟩
        · split
          · exact ⟨['\\'], 't', rfl, by decide⟩
          · split
            · exact ⟨['\\'], 'n', rfl, by decide⟩
            · exact ⟨[], c, rfl, hc⟩
      have hesc : front ++ escape (cs ++ [c]) = front ++ escape cs ++ ds ++ [d] := by
        rw [escape_append, escape_eq [c], flatMap_singleton, hds, append_assoc,
          append_assoc]
      rw [hname, hesc, stripCr, getLast?_concat, if_neg fun h => hd (Option.some.inj h)]

/-! ## Lines -/

/-- Lines that end in a newline. -/
theorem lines_flatMap_newline {ls : List (List Char)} (h : ∀ l ∈ ls, '\n' ∉ l) :
    lines (ls.flatMap (· ++ ['\n'])) = ls.map stripCr := by
  have hsplit : (ls.flatMap (· ++ ['\n'])).splitOn '\n' = ls ++ [[]] := by
    rw [Lines.splitOn_terminated, Lines.flatMap_splitOn h]
  rw [lines, hsplit, dropLast_concat, getLast?_concat, if_pos rfl, append_nil]

theorem datatypeFromPgName_pgTypeName (dt : DataType) :
    datatypeFromPgName dt.pgTypeName.toList = some dt := by
  cases dt <;> decide +kernel

theorem not_mem_pgTypeName (dt : DataType) :
    '\t' ∉ dt.pgTypeName.toList ∧ '\n' ∉ dt.pgTypeName.toList := by
  cases dt <;> decide +kernel

theorem readLine_table (tables : List TableCatalog) (name : List Char) :
    readLine tables ("table\t".toList ++ escape name) = tables ++ [⟨String.ofList name, []⟩] := by
  have hsplit : ("table\t".toList ++ escape name).splitOn '\t' = ["table".toList, escape name] := by
    have hline : "table\t".toList ++ escape name = ['\t'].intercalate ["table".toList, escape name] := by
      rw [intercalate_cons_cons, intercalate_singleton]
      rfl
    rw [hline]
    refine splitOn_intercalate _ ?_ (cons_ne_nil _ _)
    intro l hl
    rcases mem_pair.mp hl with rfl | rfl
    · decide
    · exact (not_mem_escape name).1
  rw [readLine, hsplit]
  show (if "table".toList = "table".toList then _ else _) = _
  rw [if_pos rfl, unescape_escape]

theorem stripCr_columnLine (c : Column) : stripCr (columnLine c) = columnLine c := by
  have hlast : (columnLine c).getLast? = some (if c.notNull then '1' else '0') := by
    rw [columnLine, getLast?_append]
    rfl
  rw [stripCr, hlast, if_neg]
  cases c.notNull <;> decide

theorem readLine_column (front : List TableCatalog) (t : TableCatalog) (c : Column) :
    readLine (front ++ [t]) (columnLine c) = front ++ [{ t with columns := t.columns ++ [c] }] := by
  have hsplit : (columnLine c).splitOn '\t' = ["col".toList, escape c.name.toList,
      c.dataType.pgTypeName.toList, [if c.notNull then '1' else '0']] := by
    have hline : columnLine c = ['\t'].intercalate ["col".toList, escape c.name.toList,
        c.dataType.pgTypeName.toList, [if c.notNull then '1' else '0']] := by
      rw [intercalate_cons_cons, intercalate_cons_cons, intercalate_cons_cons,
        intercalate_singleton, columnLine]
      simp only [append_assoc]
      rfl
    rw [hline]
    refine splitOn_intercalate _ ?_ (cons_ne_nil _ _)
    intro l hl
    simp only [mem_cons, not_mem_nil, or_false] at hl
    rcases hl with rfl | rfl | rfl | rfl
    · decide
    · exact (not_mem_escape _).1
    · exact (not_mem_pgTypeName _).1
    · cases c.notNull <;> decide
  have hflag : decide ([if c.notNull then '1' else '0'] = "1".toList) = c.notNull := by
    cases c.notNull <;> rfl
  rw [readLine, hsplit]
  show (if "col".toList = "col".toList then _ else _) = _
  rw [if_pos rfl, unescape_escape, String.ofList_toList, datatypeFromPgName_pgTypeName, hflag,
    modifyLast_concat]
  rfl

/-! ## The whole text -/

/-- A schema as it is read back. -/
def TableCatalog.recovered (t : TableCatalog) : TableCatalog :=
  { t with name := String.ofList (stripCr t.name.toList) }

theorem foldl_readLine_columns (front : List TableCatalog) (t : TableCatalog) (columns : List Column) :
    ((columns.map columnLine).map stripCr).foldl readLine (front ++ [t]) =
      front ++ [{ t with columns := t.columns ++ columns }] := by
  induction columns generalizing t with
  | nil => rw [append_nil]; rfl
  | cons c columns ih =>
    rw [map_cons, map_cons, foldl_cons, stripCr_columnLine, readLine_column, ih,
      append_assoc]
    rfl

theorem newline_not_mem_line {tables : List TableCatalog} :
    ∀ l ∈ tables.flatMap tableLines, '\n' ∉ l := by
  intro l hl
  obtain ⟨t, -, hl⟩ := mem_flatMap.mp hl
  rcases mem_cons.mp hl with rfl | hl
  · intro h
    rcases mem_append.mp h with h | h
    · exact absurd h (by decide)
    · exact (not_mem_escape _).2 h
  · obtain ⟨c, -, rfl⟩ := mem_map.mp hl
    have hflag : '\n' ∉ ['\t', if c.notNull then '1' else '0'] := by
      cases c.notNull <;> decide
    rw [columnLine]
    simp only [mem_append, mem_cons, not_or]
    refine ⟨⟨⟨by decide, (not_mem_escape _).2⟩, by decide, (not_mem_pgTypeName _).2⟩, ?_⟩
    simpa using hflag

/-- **The catalog is read back**, up to a carriage return at the end of a table's name. -/
theorem readText_catalogText (tables : List TableCatalog) :
    readText (catalogText tables) = tables.map TableCatalog.recovered := by
  have hfold : ∀ front : List TableCatalog, ((tables.flatMap tableLines).map stripCr).foldl readLine
      front = front ++ tables.map TableCatalog.recovered := by
    induction tables with
    | nil => exact fun front => (append_nil front).symm
    | cons t tables ih =>
      intro front
      rw [flatMap_cons, map_append, foldl_append, tableLines, map_cons, foldl_cons, tableLine,
        stripCr_append_escape (by decide), readLine_table, foldl_readLine_columns, ih, append_assoc]
      rfl
  rw [readText, catalogText, lines_flatMap_newline newline_not_mem_line, hfold]
  rfl

theorem readCatalog_writeCatalog (tables : List TableCatalog) :
    readCatalog (some (writeCatalog tables)) = .ok (tables.map TableCatalog.recovered) := by
  rw [readCatalog, writeCatalog, utf8Decode_utf8]
  show Except.ok (readText _) = _
  rw [readText_catalogText]

end PostgresRs.Disk
