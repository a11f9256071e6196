/-
  Plan/Stat1.lean --- the figures that the planner reads from `quill_stat1`.

  Source: `_find_row`, `_decode_row`, `table_stats` and `index_stats` of
  `quilldb/plan/analyze.py`; `parse_stat1`, `TableStats`, `IndexStats` and the defaults of
  `quilldb/plan/statistics.py`.

  What ANALYZE measures are counts.  What the planner reads are any integers: the table
  is an ordinary one, and a statement may write it like any other.
-/
import QuillDb.Exec.DeclaredTypes
import QuillDb.Plan.Analyze
import QuillDb.Sql.Tokens
import QuillDb.Lib.Raises
import Mathlib.Data.List.DropRight

set_option autoImplicit false

namespace QuillDb

open Fallible

/-! ## Integers in a text -/

/-- A character that `str.split()` splits at. -/
def isSpace (c : Char) : Bool :=
  (9 ≤ c.toNat && c.toNat ≤ 13) || (28 ≤ c.toNat && c.toNat ≤ 32) || (0x2000 ≤ c.toNat && c.toNat ≤ 0x200A) ||
    c.toNat ∈ [0x85, 0xA0, 0x1680, 0x2028, 0x2029, 0x202F, 0x205F, 0x3000]

/-- A character that `int()` strips: the separators of ASCII are none. -/
def isIntSpace (c : Char) : Bool := isSpace c && !(28 ≤ c.toNat && c.toNat ≤ 31)

/-- `text.split()`. -/
def splitText (text : List Char) : List (List Char) := (text.splitOnP isSpace).filter (· ≠ [])

/-- The text that `int()` reads. -/
def stripSpaces (text : List Char) : List Char := (text.dropWhile isIntSpace).rdropWhile isIntSpace

/-- Whether there is a minus sign, and what is behind a sign. -/
def splitSign : List Char → Bool × List Char
  | '-' :: rest => (true, rest)
  | '+' :: rest => (false, rest)
  | rest => (false, rest)

namespace PyText

variable (py : PyText)

/-- `int(text)`: a sign, and digits in groups with one underscore between them. -/
def parseInt (text : List Char) : Except DbError Int :=
  let signed := splitSign (stripSpaces text)
  if (signed.2.splitOn '_').all fun group => group ≠ [] && group.all py.isdecimal then
    (fun n => if signed.1 then -n else n) <$> py.int (signed.2.filter (· ≠ '_'))
  else .error (.valueError "invalid literal for int() with base 10")

theorem isDigit_toNat {c : Char} (h : c.isDigit = true) : 48 ≤ c.toNat ∧ c.toNat ≤ 57 := by
  simp [Char.isDigit, UInt32.le_iff_toNat_le] at h
  exact h

theorem isSpace_digit {c : Char} (h : c.isDigit = true) : isSpace c = false := by
  have hrange := isDigit_toNat h
  simp [isSpace]
  omega

theorem digitValue_digit {c : Char} (h : c.isDigit = true) :
    py.isdecimal c = true ∧ py.digitValue c = c.toNat - 48 := by
  have hrange := isDigit_toNat h
  have hnumeric := py.numeric_ascii c (by omega)
  rw [if_pos h] at hnumeric
  simp [isdecimal, digitValue, hnumeric]

/-- The value of decimal digits. -/
theorem int_digits {digits : List Char} (hdigits : ∀ c ∈ digits, c.isDigit = true)
    (hlength : digits.length ≤ intMaxStrDigits) : py.int digits = .ok (Nat.ofDigitChars 10 digits 0 : Nat) := by
  have hdecimal : digits.all py.isdecimal = true :=
    List.all_eq_true.mpr fun c hc => (digitValue_digit py (hdigits c hc)).1
  have hvalue : ∀ start, digits.foldl (fun acc c => acc * 10 + py.digitValue c) start =
      Nat.ofDigitChars 10 digits start := by
    clear hlength hdecimal
    induction digits with
    | nil => simp
    | cons c digits ih =>
        intro start
        have hc := (digitValue_digit py (hdigits c (List.mem_cons_self ..))).2
        rw [List.foldl_cons, Nat.ofDigitChars_cons, ih fun c hc => hdigits c (List.mem_cons_of_mem _ hc), hc,
          Nat.mul_comm]
        rfl
  rw [int, if_neg (by simp [hdecimal]), if_neg (by omega), hvalue 0]

/-- An integer in decimal digits reads back. -/
theorem parseInt_digits {digits : List Char} (hne : digits ≠ []) (hdigits : ∀ c ∈ digits, c.isDigit = true)
    (hlength : digits.length ≤ intMaxStrDigits) : py.parseInt digits = .ok (Nat.ofDigitChars 10 digits 0 : Nat) := by
  have hplain : ∀ c ∈ digits, isIntSpace c = false ∧ c ≠ '-' ∧ c ≠ '+' ∧ c ≠ '_' := by
    intro c hc
    have hrange := isDigit_toNat (hdigits c hc)
    refine ⟨by simp [isIntSpace, isSpace_digit (hdigits c hc)], ?_, ?_, ?_⟩ <;>
    · rintro rfl
      simp at hrange
  obtain ⟨first, rest, rfl⟩ := List.exists_cons_of_ne_nil hne
  have hfirst := hplain first (List.mem_cons_self ..)
  have hlast := hplain _ (List.getLast_mem hne)
  have hbody : stripSpaces (first :: rest) = first :: rest := by
    rw [stripSpaces, List.dropWhile_cons_of_neg (by simp [hfirst.1]), List.rdropWhile_eq_self_iff]
    intro h
    simp [hlast.1]
  have hsign : splitSign (first :: rest) = (false, first :: rest) := by
    unfold splitSign
    split
    · rename_i heq
      exact absurd (List.cons.inj heq).1 hfirst.2.1
    · rename_i heq
      exact absurd (List.cons.inj heq).1 hfirst.2.2.1
    · rfl
  have hsplit : (first :: rest).splitOn '_' = [first :: rest] := by
    apply List.splitOnP_eq_singleton
    intro c hc
    simp [(hplain c hc).2.2.2]
  have hfilter : (first :: rest).filter (· ≠ '_') = first :: rest := by
    rw [List.filter_eq_self]
    intro c hc
    simp [(hplain c hc).2.2.2]
  have hdecimal : (first :: rest).all py.isdecimal = true :=
    List.all_eq_true.mpr fun c hc => (digitValue_digit py (hdigits c hc)).1
  simp only [parseInt, hbody, hsign, hsplit, hfilter, int_digits py hdigits hlength]
  rw [if_pos (by simp [List.all_cons] at hdecimal ⊢; exact hdecimal)]
  rfl

theorem parseInt_toString {n : Nat} (hn : n < 10 ^ intMaxStrDigits) : py.parseInt (toString n).toList = .ok n := by
  have hlist : (toString n).toList = Nat.toDigits 10 n := by
    rw [Nat.toString_eq_ofList_toDigits, String.toList_ofList]
  have hlength := (Nat.length_toDigits_le_iff (b := 10) (by decide) (k := intMaxStrDigits) (by decide)).mpr hn
  rw [hlist, parseInt_digits py Nat.toDigits_ne_nil
    (fun c hc => Nat.isDigit_of_mem_toDigits (by decide) (by decide) hc) hlength, Nat.ofDigitChars_ten_toDigits]

end PyText

/-- Words joined by spaces split again. -/
theorem splitText_intercalate {words : List String}
    (hwords : ∀ w ∈ words, w.toList ≠ [] ∧ ∀ c ∈ w.toList, isSpace c = false) :
    splitText (" ".intercalate words).toList = words.map String.toList := by
  induction words with
  | nil => simp [splitText]
  | cons w words ih =>
      obtain ⟨hne, hplain⟩ := hwords w (List.mem_cons_self ..)
      have hrest := ih fun v hv => hwords v (List.mem_cons_of_mem _ hv)
      cases words with
      | nil => simp [splitText, List.splitOnP_eq_singleton hplain, hne]
      | cons v words =>
          have hspace : isSpace ' ' = true := by decide
          rw [String.intercalate_cons_cons, String.toList_append, String.toList_append, splitText]
          have hcut := List.splitOnP_append_cons_of_forall_mem hplain ' ' hspace
            (" ".intercalate (v :: words)).toList
          have hjoined : w.toList ++ " ".toList ++ (" ".intercalate (v :: words)).toList =
              w.toList ++ ' ' :: (" ".intercalate (v :: words)).toList := by simp
          rw [hjoined, hcut, List.filter_cons_of_pos (by simpa using hne), List.map_cons, ← hrest, splitText]

/-! ## The rows -/

/-- `_Stat1Row`. -/
structure Stat1Row where
  tbl : String
  idx : Option String
  stat : String
  pageCount : Int
  height : Int
  deriving DecidableEq, Repr

/-- `_decode_row`, of the values of a record. -/
def stat1RowOf : List Value → Except DbError Stat1Row
  | [.text tbl, .null, .text stat, .int pageCount, .int height] => .ok ⟨tbl, none, stat, pageCount, height⟩
  | [.text tbl, .text idx, .text stat, .int pageCount, .int height] =>
      .ok ⟨tbl, some idx, stat, pageCount, height⟩
  | [_, _, _, _, _] => .error (.corruptDatabase "quill_stat1 row is malformed")
  | _ => .error (.valueError "not enough values to unpack (expected 5)")

/-- `_find_row`: the first row of a table or an index. -/
def findStat1Row (tbl : String) (idx : Option String) : List (List Value) → Except DbError (Option Stat1Row)
  | [] => .ok none
  | values :: rows => do
      let row ← stat1RowOf values
      if row.tbl = tbl ∧ row.idx = idx then .ok (some row) else findStat1Row tbl idx rows

namespace Planner

/-- `TableStats`, as the planner reads it. -/
structure TableStats where
  rowCount : Int
  pageCount : Int
  height : Int
  deriving DecidableEq, Repr

/-- `IndexStats`, as the planner reads it. -/
structure IndexStats where
  rowCount : Int
  rowsPerPrefix : List Int
  height : Int
  leafPages : Int
  deriving DecidableEq, Repr

/-! ## The defaults -/

def defaultTableRows : Int := 1000000
def defaultRowsPerValue : Int := 10
def defaultRowsPerPage : Int := 100
def defaultPageCount : Int := defaultTableRows / defaultRowsPerPage
def defaultHeight : Int := 3

def defaultTableStats : TableStats := ⟨defaultTableRows, defaultPageCount, defaultHeight⟩

def defaultIndexStats (index : IndexSchema) (tableStats : TableStats) : IndexStats :=
  ⟨tableStats.rowCount, List.replicate index.columns.length defaultRowsPerValue, defaultHeight,
    defaultPageCount⟩

/-! ## Reading -/

section Read

variable (py : PyText) (catalog : Catalog) (rows : List (List Value))

/-- `parse_stat1`: the counts.  The two figures of the shape are those of the row. -/
def parseStat1 (stat : String) (index : IndexSchema) : Except DbError (Int × List Int) :=
  let parts := splitText stat.toList
  if parts.length ≠ index.columns.length + 1 then
    .error (.corruptDatabase (s!"quill_stat1 row for index {index.name} has {parts.length} integers, " ++
      s!"expected {index.columns.length + 1}"))
  else
    match parts.mapM py.parseInt with
    | .ok (rowCount :: rowsPerPrefix) => .ok (rowCount, rowsPerPrefix)
    | .ok [] => .error (.indexError "list index out of range")
    | .error (.valueError _) =>
        .error (.corruptDatabase s!"quill_stat1 row for index {index.name} is not all integers: {stat}")
    | .error e => .error e

/-- `StatisticsCatalog.table_stats`. -/
def tableStats (name : String) : Except DbError TableStats := do
  let _ ← catalog.getTable py.casefold name
  match ← findStat1Row name none rows with
  | none => .ok defaultTableStats
  | some row => do
      let rowCount ← py.parseInt row.stat.toList
      .ok ⟨rowCount, row.pageCount, row.height⟩

/-- `StatisticsCatalog.index_stats`. -/
def indexStats (index : IndexSchema) : Except DbError IndexStats := do
  match ← findStat1Row index.table (some index.name) rows with
  | none => do
      let tableStats ← tableStats py catalog rows index.table
      .ok (defaultIndexStats index tableStats)
  | some row => do
      let (rowCount, rowsPerPrefix) ← parseStat1 py row.stat index
      .ok ⟨rowCount, rowsPerPrefix, row.height, row.pageCount⟩

/-- The figures of an index read back as they were written. -/
theorem parseStat1_encode {stats : QuillDb.IndexStats} {index : IndexSchema}
    (hlength : stats.rowsPerPrefix.length = index.columns.length)
    (hsmall : ∀ n ∈ stats.rowCount :: stats.rowsPerPrefix, n < 10 ^ PyText.intMaxStrDigits) :
    parseStat1 py (encodeStat1Row stats) index = .ok ((stats.rowCount : Int), stats.rowsPerPrefix.map Nat.cast) := by
  have hparts : splitText (encodeStat1Row stats).toList =
      ((stats.rowCount :: stats.rowsPerPrefix).map toString).map String.toList := by
    rw [encodeStat1Row]
    apply splitText_intercalate
    intro w hw
    obtain ⟨n, -, rfl⟩ := List.mem_map.mp hw
    have hdigits : (toString n).toList = Nat.toDigits 10 n := by
      rw [Nat.toString_eq_ofList_toDigits, String.toList_ofList]
    rw [hdigits]
    exact ⟨Nat.toDigits_ne_nil, fun c hc =>
      PyText.isSpace_digit (Nat.isDigit_of_mem_toDigits (by decide) (by decide) hc)⟩
  have hread : (((stats.rowCount :: stats.rowsPerPrefix).map toString).map String.toList).mapM py.parseInt =
      .ok ((stats.rowCount :: stats.rowsPerPrefix).map Nat.cast) := by
    rw [mapM_eq_ok_iff, List.forall₂_map_left_iff, List.forall₂_map_left_iff, List.forall₂_map_right_iff,
      List.forall₂_same]
    exact fun n hn => py.parseInt_toString (hsmall n hn)
  rw [parseStat1, hparts]
  simp only [hread, List.length_map, List.length_cons, hlength, ne_eq, not_true_eq_false, if_false]
  simp

end Read

/-- `StatsSource`. -/
structure StatsSource where
  tableStats : String → Except DbError TableStats
  indexStats : IndexSchema → Except DbError IndexStats

/-- What a `StatisticsCatalog` reads with these rows in `quill_stat1`. -/
def statisticsCatalog (py : PyText) (catalog : Catalog) (rows : List (List Value)) : StatsSource where
  tableStats := tableStats py catalog rows
  indexStats := indexStats py catalog rows

end Planner

/-! ## What reading raises -/

def IsCorrupt : DbError → Prop
  | .corruptDatabase _ => True
  | _ => False

def IsValueError : DbError → Prop
  | .valueError _ => True
  | _ => False

/-- The declared columns of `quill_stat1`. -/
def stat1Columns : List ColumnSchema := stat1Table.columns.map fun column => ⟨column.name, column.dataType⟩

/-- The figures of the shape are integers of a column. -/
def Stat1Row.Stored (row : Stat1Row) : Prop := fitsInt64 row.pageCount = true ∧ fitsInt64 row.height = true

/-- The row of a table has the text of an integer, if there is one. -/
def IntegerText (py : PyText) (rows : List (List Value)) (name : String) : Prop :=
  ∀ row, findStat1Row name none rows = .ok (some row) → ∃ n, py.parseInt row.stat.toList = .ok n

theorem stat1RowOf_typed {values : List Value} (h : RowTyped stat1Columns values) :
    (∃ row, stat1RowOf values = .ok row ∧ row.Stored) ∨
      ∃ message, stat1RowOf values = .error (.corruptDatabase message) := by
  simp only [RowTyped, stat1Columns, stat1Table, List.map_cons, List.map_nil, List.forall₂_cons_left_iff,
    List.forall₂_nil_left_iff] at h
  obtain ⟨tbl, _, htbl, ⟨idx, _, hidx, ⟨stat, _, hstat, ⟨pageCount, _, hpages, ⟨height, _, hheight, rfl, rfl⟩,
    rfl⟩, rfl⟩, rfl⟩, rfl⟩ := h
  have htext : ∀ v : Value, DataType.Admits .text v → v = .null ∨ ∃ s, v = .text s := by
    intro v hv
    cases v <;> simp_all [DataType.Admits]
  have hinteger : ∀ v : Value, DataType.Admits .integer v → v = .null ∨ ∃ n, v = .int n ∧ fitsInt64 n = true := by
    intro v hv
    cases v <;> simp_all [DataType.Admits]
  rcases htext tbl htbl with rfl | ⟨tbl, rfl⟩
  · exact .inr ⟨_, rfl⟩
  rcases htext stat hstat with rfl | ⟨stat, rfl⟩
  · rcases htext idx hidx with rfl | ⟨idx, rfl⟩ <;> exact .inr ⟨_, rfl⟩
  rcases hinteger pageCount hpages with rfl | ⟨pageCount, rfl, hpages⟩
  · rcases htext idx hidx with rfl | ⟨idx, rfl⟩ <;> exact .inr ⟨_, rfl⟩
  rcases hinteger height hheight with rfl | ⟨height, rfl, hheight⟩
  · rcases htext idx hidx with rfl | ⟨idx, rfl⟩ <;> exact .inr ⟨_, rfl⟩
  rcases htext idx hidx with rfl | ⟨idx, rfl⟩
  · exact .inl ⟨⟨tbl, none, stat, pageCount, height⟩, rfl, hpages, hheight⟩
  · exact .inl ⟨⟨tbl, some idx, stat, pageCount, height⟩, rfl, hpages, hheight⟩

section Reads

variable {py : PyText} {catalog : Catalog} {rows : List (List Value)} {tbl : String} {idx : Option String}

theorem findStat1Row_typed (hrows : ∀ values ∈ rows, RowTyped stat1Columns values) :
    (∃ found, findStat1Row tbl idx rows = .ok found ∧ ∀ row ∈ found, row.Stored) ∨
      ∃ message, findStat1Row tbl idx rows = .error (.corruptDatabase message) := by
  induction rows with
  | nil => exact .inl ⟨none, rfl, by simp⟩
  | cons values rows ih =>
      rw [findStat1Row]
      rcases stat1RowOf_typed (hrows values (List.mem_cons_self ..)) with ⟨row, hrow, hstored⟩ | ⟨message, hrow⟩
      · have hbind : (stat1RowOf values >>= fun row =>
            if row.tbl = tbl ∧ row.idx = idx then .ok (some row) else findStat1Row tbl idx rows) =
            if row.tbl = tbl ∧ row.idx = idx then .ok (some row) else findStat1Row tbl idx rows := by
          rw [hrow]
          rfl
        rw [hbind]
        split
        · exact .inl ⟨some row, rfl, by simpa using hstored⟩
        · exact ih fun v hv => hrows v (List.mem_cons_of_mem _ hv)
      · rw [hrow]
        exact .inr ⟨message, rfl⟩

/-- `int` raises nothing but ValueError. -/
theorem parseInt_fails (text : List Char) : Fails IsValueError (py.parseInt text) := by
  have hvalue : ∀ message, IsValueError (.valueError message) := fun _ => trivial
  unfold PyText.parseInt PyText.int
  apply Fails.ite
  · apply Fails.map
    apply Fails.ite
    · exact Fails.error (hvalue _)
    · apply Fails.ite
      · exact Fails.error (hvalue _)
      · exact Fails.ok _
  · exact Fails.error (hvalue _)

/-- The figures of an index are right in number, or the row is corrupt. -/
theorem parseStat1_cases (stat : String) (index : IndexSchema) :
    (∃ rowCount rowsPerPrefix, Planner.parseStat1 py stat index = .ok (rowCount, rowsPerPrefix) ∧
        rowsPerPrefix.length = index.columns.length) ∨
      ∃ message, Planner.parseStat1 py stat index = .error (.corruptDatabase message) := by
  rw [Planner.parseStat1]
  split
  · exact .inr ⟨_, rfl⟩
  · rename_i hparts
    have hraises := Fails.mapM (fun text => @parseInt_fails py text) (splitText stat.toList)
    cases hread : (splitText stat.toList).mapM py.parseInt with
    | ok numbers =>
        have hlength := (mapM_ok hread).length_eq
        cases numbers with
        | nil =>
            rw [List.length_nil] at hlength
            omega
        | cons rowCount rowsPerPrefix =>
            rw [List.length_cons] at hlength
            exact .inl ⟨rowCount, rowsPerPrefix, rfl, by omega⟩
    | error e =>
        have he := hraises e hread
        cases e <;> first | exact .inr ⟨_, rfl⟩ | exact absurd he id

section Found

variable {table : TableSchema} {row : Stat1Row} {index : IndexSchema}

theorem tableStats_none (hname : catalog.getTable py.casefold tbl = .ok table)
    (hfound : findStat1Row tbl none rows = .ok none) :
    Planner.tableStats py catalog rows tbl = .ok Planner.defaultTableStats := by
  rw [Planner.tableStats, hname, hfound]
  rfl

theorem tableStats_some (hname : catalog.getTable py.casefold tbl = .ok table)
    (hfound : findStat1Row tbl none rows = .ok (some row)) :
    Planner.tableStats py catalog rows tbl =
      py.parseInt row.stat.toList >>= fun rowCount => .ok ⟨rowCount, row.pageCount, row.height⟩ := by
  rw [Planner.tableStats, hname, hfound]
  rfl

theorem indexStats_none (hfound : findStat1Row index.table (some index.name) rows = .ok none) :
    Planner.indexStats py catalog rows index = Planner.tableStats py catalog rows index.table >>= fun stats =>
      .ok (Planner.defaultIndexStats index stats) := by
  rw [Planner.indexStats, hfound]
  rfl

theorem indexStats_some (hfound : findStat1Row index.table (some index.name) rows = .ok (some row)) :
    Planner.indexStats py catalog rows index = Planner.parseStat1 py row.stat index >>= fun counts =>
      .ok ⟨counts.1, counts.2, row.height, row.pageCount⟩ := by
  rw [Planner.indexStats, hfound]
  rfl

end Found

/-- Reading a table's figures raises something else exactly when its text is no integer. -/
theorem tableStats_fails_iff (hrows : ∀ values ∈ rows, RowTyped stat1Columns values) {table : TableSchema}
    (hname : catalog.getTable py.casefold tbl = .ok table) :
    Fails IsCorrupt (Planner.tableStats py catalog rows tbl) ↔ IntegerText py rows tbl := by
  rcases @findStat1Row_typed rows tbl none hrows with ⟨found, hfound, -⟩ | ⟨message, hfound⟩
  · cases found with
    | none =>
        rw [tableStats_none hname hfound, IntegerText, hfound]
        simp [Fails.ok]
    | some row =>
        rw [tableStats_some hname hfound, IntegerText, hfound, Fails.bind_iff]
        cases hread : py.parseInt row.stat.toList with
        | ok n =>
            simp [hread, Fails.ok]
        | error e =>
            have he := parseInt_fails _ e hread
            cases e <;> simp_all [Fails.error_iff, IsCorrupt, IsValueError]
  · rw [Planner.tableStats, hname, hfound, IntegerText, hfound]
    exact iff_of_true (Fails.error trivial) (by simp)

/-- Reading an index's figures does so where they come from those of its table. -/
theorem indexStats_fails_iff (hrows : ∀ values ∈ rows, RowTyped stat1Columns values) {table : TableSchema}
    {index : IndexSchema} (hname : catalog.getTable py.casefold index.table = .ok table) :
    Fails IsCorrupt (Planner.indexStats py catalog rows index) ↔
      (findStat1Row index.table (some index.name) rows = .ok none → IntegerText py rows index.table) := by
  rcases @findStat1Row_typed rows index.table (some index.name) hrows with ⟨found, hfound, -⟩ | ⟨message, hfound⟩
  · cases found with
    | none =>
        rw [indexStats_none hfound, Fails.bind_iff, tableStats_fails_iff hrows hname]
        simp [hfound, Fails.ok]
    | some row =>
        rw [indexStats_some hfound, Fails.bind_iff]
        rcases @parseStat1_cases py row.stat index with ⟨rowCount, rowsPerPrefix, hparse, -⟩ | ⟨message, hparse⟩
        · simp [hparse, hfound, Fails.ok]
        · simp [hparse, hfound, Fails.error_iff, IsCorrupt]
  · rw [Planner.indexStats, hfound]
    exact iff_of_true (Fails.error trivial) (by simp)

/-- The figures of the shape of a tree are stored in 64 bits. -/
def Planner.ShapeFits (pages height : Int) : Prop := fitsInt64 pages = true ∧ fitsInt64 height = true

theorem tableStats_shape (hrows : ∀ values ∈ rows, RowTyped stat1Columns values) {table : TableSchema}
    (hname : catalog.getTable py.casefold tbl = .ok table) {stats : Planner.TableStats}
    (h : Planner.tableStats py catalog rows tbl = .ok stats) : Planner.ShapeFits stats.pageCount stats.height := by
  rcases @findStat1Row_typed rows tbl none hrows with ⟨found, hfound, hstored⟩ | ⟨message, hfound⟩
  · cases found with
    | none =>
        rw [tableStats_none hname hfound] at h
        cases h
        exact ⟨by decide, by decide⟩
    | some row =>
        rw [tableStats_some hname hfound] at h
        obtain ⟨n, -, h⟩ := bind_eq_ok h
        cases h
        exact hstored row rfl
  · rw [Planner.tableStats, hname, hfound] at h
    cases h

theorem indexStats_shape (hrows : ∀ values ∈ rows, RowTyped stat1Columns values) {index : IndexSchema}
    {stats : Planner.IndexStats} (h : Planner.indexStats py catalog rows index = .ok stats) :
    Planner.ShapeFits stats.leafPages stats.height ∧ stats.rowsPerPrefix.length = index.columns.length := by
  rcases @findStat1Row_typed rows index.table (some index.name) hrows with ⟨found, hfound, hstored⟩ | ⟨message, hfound⟩
  · cases found with
    | none =>
        rw [indexStats_none hfound] at h
        obtain ⟨tableStats, -, h⟩ := bind_eq_ok h
        cases h
        have hpages : fitsInt64 Planner.defaultPageCount = true := by decide
        have hheight : fitsInt64 Planner.defaultHeight = true := by decide
        exact ⟨⟨hpages, hheight⟩, List.length_replicate ..⟩
    | some row =>
        rw [indexStats_some hfound] at h
        obtain ⟨counts, hcounts, h⟩ := bind_eq_ok h
        rcases @parseStat1_cases py row.stat index with ⟨rowCount, rowsPerPrefix, hparse, hlength⟩ | ⟨message, hparse⟩
        · rw [hparse] at hcounts
          cases hcounts
          cases h
          exact ⟨hstored row rfl, hlength⟩
        · rw [hparse] at hcounts
          cases hcounts
  · rw [Planner.indexStats, hfound] at h
    cases h

end Reads

end QuillDb
