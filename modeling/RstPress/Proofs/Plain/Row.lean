import RstPress.Proofs.Lines
import RstPress.Source.Inset

/-!
Rows are lines without their numbers. A text is written row by row, and a nested body is written by
moving its rows to the right. Reading finds the rows of a written text again, and a body that is cut
out and moved left has the rows that were written.
-/

namespace RstPress.Source
open Text

structure Row where
  indent : Nat
  text : List Char

def Line.row (line : Line) : Row := ⟨line.indent, line.text⟩

namespace Row

def empty : Row := ⟨0, []⟩

/-- The row of a text that may begin with spaces. -/
def ofText (text : List Char) : Row := ⟨(text.takeWhile (· = ' ')).length, text.dropWhile (· = ' ')⟩

/-- The row moved to the right. Blank rows are not moved. -/
def shift (columns : Nat) (row : Row) : Row :=
  if row.text = [] then row else { row with indent := row.indent + columns }

def written (row : Row) : List Char := List.replicate row.indent ' ' ++ row.text

/-- A row that is read as it is written. -/
structure Clean (row : Row) : Prop where
  oneLine : '\n' ∉ row.text
  untabbed : '\t' ∉ row.text
  begins : row.text.head? ≠ some ' '
  ends : row = empty ∨ ∃ front last, row.text = front ++ [last] ∧ isBlank last = false

theorem shift_empty (columns : Nat) : empty.shift columns = empty := rfl

theorem text_shift (columns : Nat) (row : Row) : (row.shift columns).text = row.text := by
  unfold shift
  split <;> rfl

theorem indent_shift {columns : Nat} {row : Row} (filled : row.text ≠ []) :
    (row.shift columns).indent = row.indent + columns := by
  rw [shift, if_neg filled]

theorem Clean.shift {row : Row} (clean : row.Clean) (columns : Nat) :
    (row.shift columns).Clean := by
  refine ⟨?_, ?_, ?_, ?_⟩
  · rw [text_shift]
    exact clean.oneLine
  · rw [text_shift]
    exact clean.untabbed
  · rw [text_shift]
    exact clean.begins
  · rcases clean.ends with rfl | filled
    · exact .inl (shift_empty columns)
    · rw [text_shift]
      exact .inr filled

theorem clean_empty : empty.Clean := ⟨List.not_mem_nil, List.not_mem_nil, by decide, .inl rfl⟩

theorem Clean.empty_of_text {row : Row} (clean : row.Clean) (none : row.text = []) :
    row = empty := by
  rcases clean.ends with same | ⟨front, last, same, _⟩
  · exact same
  · rw [none] at same
    exact absurd same.symm (by simp)

end Row

theorem isBlank_iff_row (line : Line) : line.isBlank ↔ line.row.text = [] := List.isEmpty_iff

theorem filled_iff_row (line : Line) : line.isBlank = false ↔ line.row.text ≠ [] :=
  List.isEmpty_eq_false_iff

theorem row_dedent (amount : Nat) (line : Line) :
    (line.dedent amount).row = ⟨line.row.indent - amount, line.row.text⟩ := rfl

/-- Moving a line left undoes moving its row to the right. -/
theorem row_dedent_of_shift {amount : Nat} {line : Line} {row : Row} (clean : row.Clean)
    (same : line.row = row.shift amount) : (line.dedent amount).row = row := by
  rw [row_dedent, same, Row.text_shift]
  by_cases none : row.text = []
  · rw [clean.empty_of_text none, Row.shift_empty, Row.empty, Nat.zero_sub]
  · rw [Row.indent_shift none, Nat.add_sub_cancel]

/-- The text of some rows, each on a line of its own. -/
def textOf (rows : List Row) : List Char := rows.flatMap fun row => row.written ++ ['\n']

theorem row_ofText_shown {row : Row} (clean : row.Clean) (width number : Nat) :
    (Line.ofText number (shown width row.written)).row = row := by
  have whole : shown width row.written = row.written := by
    rcases clean.ends with rfl | ⟨front, last, same, visible⟩
    · rfl
    · have untabbed : '\t' ∉ row.written := by
        intro member
        rcases List.mem_append.mp member with space | inside
        · exact absurd (List.mem_replicate.mp space).2 (by decide)
        · exact clean.untabbed inside
      have parts :=
        shown_append_of_visible (List.replicate row.indent ' ' ++ front) visible width
      rw [List.append_assoc, ← same] at parts
      exact parts.trans (expandTabs_of_no_tab untabbed width 0)
  rw [whole, Row.written, ofText_replicate clean.begins]
  rfl

theorem rows_linesFrom_textOf {rows : List Row} (clean : ∀ row ∈ rows, row.Clean)
    (tabWidth number : Nat) :
    (linesFrom tabWidth number (textOf rows)).map Line.row = rows := by
  induction rows generalizing number with
  | nil => rfl
  | cons row rows ih =>
    have here := clean row List.mem_cons_self
    have oneLine : '\n' ∉ row.written := by
      intro member
      rcases List.mem_append.mp member with space | inside
      · exact absurd (List.mem_replicate.mp space).2 (by decide)
      · exact here.oneLine inside
    have later := ih fun other member => clean other (List.mem_cons_of_mem row member)
    have text : textOf (row :: rows) = row.written ++ '\n' :: textOf rows := by
      rw [textOf, List.flatMap_cons, List.append_assoc, List.singleton_append, ← textOf]
    rw [text, linesFrom_of_line oneLine, List.map_cons, row_ofText_shown here, later]

/-- The last row of a text is not blank. -/
def EndsVisibly (rows : List Row) : Prop := ∀ row, rows.getLast? = some row → row.text ≠ []

/-- Reading finds the rows of a text, also if its last line is not ended. -/
theorem rows_lines {source : List Char} {rows : List Row} (clean : ∀ row ∈ rows, row.Clean)
    (visible : EndsVisibly rows) (written : source = textOf rows ∨ source ++ ['\n'] = textOf rows)
    (tabWidth : Nat) : (lines tabWidth source).map Line.row = rows := by
  have whole := rows_linesFrom_textOf clean tabWidth 1
  rw [lines_eq_linesFrom]
  rcases written with rfl | ended
  · exact whole
  · obtain ⟨ending, blank, same⟩ := linesFrom_append_last_feed tabWidth 1 source
    rw [← ended, same, List.map_append] at whole
    have none : ending = [] := by
      rcases List.eq_nil_or_concat ending with none | ⟨front, last, concat⟩
      · exact none
      · have shown := visible last.row (by rw [← whole, concat]; simp)
        have hollow := skipBlank_eq_nil_iff.mp blank last (by rw [concat]; simp)
        exact absurd ((isBlank_iff_row last).mp hollow) shown
    rwa [none, List.map_nil, List.append_nil] at whole

theorem margin_eq {lines : List Line} {columns : Nat}
    (present : ∃ line ∈ lines, line.isBlank = false ∧ line.indent = columns)
    (least : ∀ line ∈ lines, line.isBlank = false → columns ≤ line.indent) :
    margin lines = columns := by
  have smallest : ((lines.filter fun line => !line.isBlank).map Line.indent).min? =
      some columns := by
    rw [List.min?_eq_some_iff]
    constructor
    · obtain ⟨line, member, filled, same⟩ := present
      exact List.mem_map.mpr ⟨line, List.mem_filter.mpr ⟨member, by simp [filled]⟩, same⟩
    · intro indent member
      obtain ⟨line, kept, rfl⟩ := List.mem_map.mp member
      obtain ⟨inside, filled⟩ := List.mem_filter.mp kept
      exact least line inside (by simpa using filled)
  rw [margin, smallest]
  rfl

theorem EndsVisibly.tail {row : Row} {rows : List Row} (visible : EndsVisibly (row :: rows)) :
    EndsVisibly rows := by
  intro last same
  apply visible last
  rw [List.getLast?_cons, same]
  rfl

theorem EndsVisibly.map_shift {rows : List Row} (visible : EndsVisibly rows) (columns : Nat) :
    EndsVisibly (rows.map (Row.shift columns)) := by
  intro last same
  rw [List.getLast?_map, Option.map_eq_some_iff] at same
  obtain ⟨row, ends, rfl⟩ := same
  rw [Row.text_shift]
  exact visible row ends

/-- No blank line is cut off from lines that end visibly. -/
theorem dropEndWhile_of_endsVisibly {lines : List Line}
    (visible : EndsVisibly (lines.map Line.row)) :
    dropEndWhile Line.isBlank lines = lines := by
  rcases List.eq_nil_or_concat lines with rfl | ⟨front, last, rfl⟩
  · rfl
  · rw [List.concat_eq_append] at visible ⊢
    have shown : last.isBlank = false := (filled_iff_row last).mpr (visible last.row (by simp))
    exact dropEndWhile_append_singleton shown front

section body
variable {lines : List Line} {rows : List Row} {columns : Nat}
  (same : lines.map Line.row = rows.map (Row.shift columns))
include same

theorem exists_row_of_mem {line : Line} (member : line ∈ lines) :
    ∃ row ∈ rows, line.row = row.shift columns := by
  have placed : line.row ∈ rows.map (Row.shift columns) := same ▸ List.mem_map_of_mem member
  obtain ⟨row, inside, equal⟩ := List.mem_map.mp placed
  exact ⟨row, inside, equal.symm⟩

theorem isInset_of_shift (inset : 0 < columns) {line : Line} (member : line ∈ lines) :
    line.isInset := by
  obtain ⟨row, _, equal⟩ := exists_row_of_mem same member
  by_cases none : row.text = []
  · have hollow : line.isBlank := by rw [isBlank_iff_row, equal, Row.text_shift, none]
    simp [Line.isInset, hollow]
  · have deep : line.indent = row.indent + columns :=
      (congrArg Row.indent equal).trans (Row.indent_shift none)
    have positive : 0 < line.indent := by omega
    simp [Line.isInset, positive]

theorem insetBlock_of_shift (inset : 0 < columns) (visible : EndsVisibly rows) :
    insetBlock lines = lines := by
  have all : ∀ line ∈ lines, line.isInset := fun line member => isInset_of_shift same inset member
  rw [insetBlock, List.takeWhile_eq_self_iff.mpr all]
  apply dropEndWhile_of_endsVisibly
  rw [same]
  exact visible.map_shift columns

theorem afterInset_of_shift (inset : 0 < columns) (visible : EndsVisibly rows) :
    afterInset lines = [] := by
  rw [afterInset, insetBlock_of_shift same inset visible, List.drop_length]

theorem rows_map_dedent (clean : ∀ row ∈ rows, row.Clean) :
    (lines.map (Line.dedent columns)).map Line.row = rows := by
  induction rows generalizing lines with
  | nil =>
    rw [List.map_nil, List.map_eq_nil_iff] at same
    rw [same]
    rfl
  | cons row rows ih =>
    rw [List.map_cons] at same
    obtain ⟨line, others, rfl, here, later⟩ := List.map_eq_cons_iff.mp same
    rw [List.map_cons, List.map_cons, row_dedent_of_shift (clean row List.mem_cons_self) here,
      ih later fun other member => clean other (List.mem_cons_of_mem row member)]

/-- A body with a row at the margin is moved left as far as it was moved to the right. -/
theorem dedentBlock_of_shift (visible : EndsVisibly rows)
    (flush : ∃ row ∈ rows, row.text ≠ [] ∧ row.indent = 0) :
    dedentBlock lines = lines.map (Line.dedent columns) := by
  have whole : dropEndWhile Line.isBlank lines = lines := by
    apply dropEndWhile_of_endsVisibly
    rw [same]
    exact visible.map_shift columns
  have place : margin lines = columns := by
    apply margin_eq
    · obtain ⟨row, member, filled, zero⟩ := flush
      have placed : row.shift columns ∈ lines.map Line.row := same ▸ List.mem_map_of_mem member
      obtain ⟨line, inside, equal⟩ := List.mem_map.mp placed
      refine ⟨line, inside, ?_, ?_⟩
      · rw [filled_iff_row, equal, Row.text_shift]
        exact filled
      · have deep := (congrArg Row.indent equal).trans (Row.indent_shift filled)
        rw [zero, Nat.zero_add] at deep
        exact deep
    · intro line member shown
      obtain ⟨row, _, equal⟩ := exists_row_of_mem same member
      rw [filled_iff_row, equal, Row.text_shift] at shown
      have deep : line.indent = row.indent + columns :=
        (congrArg Row.indent equal).trans (Row.indent_shift shown)
      omega
  rw [dedentBlock, whole, place]

/-- A body that is moved left to its margin has the rows that were moved to the right. -/
theorem rows_dedentBlock (clean : ∀ row ∈ rows, row.Clean) (visible : EndsVisibly rows)
    (flush : ∃ row ∈ rows, row.text ≠ [] ∧ row.indent = 0) :
    (dedentBlock lines).map Line.row = rows := by
  rw [dedentBlock_of_shift same visible flush]
  exact rows_map_dedent same clean

end body

end RstPress.Source
