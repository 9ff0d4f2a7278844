import RstPress.Source.Line

/-!
An inset block is a run of indented lines, with the blank lines between them. It is cut off in front of
the first line at the left margin, and its blank lines at the end stay outside. Moved left, it is read
like a text of its own; the lemmas say that this never makes it heavier.
-/

namespace RstPress.Source
open Text

def Line.isInset (line : Line) : Bool := line.isBlank || decide (0 < line.indent)

/-- The inset block at the front of the lines; it is empty if they begin at the left margin. -/
def insetBlock (lines : List Line) : List Line :=
  dropEndWhile Line.isBlank (lines.takeWhile Line.isInset)

/-- What follows the inset block, blank lines included. -/
def afterInset (lines : List Line) : List Line := lines.drop (insetBlock lines).length

def skipBlank (lines : List Line) : List Line := lines.dropWhile Line.isBlank

/-- The least indentation of a line that is not blank, or zero. -/
def margin (lines : List Line) : Nat :=
  (((lines.filter fun line => !line.isBlank).map Line.indent).min?).getD 0

/-- Drops blank lines at the end and moves the rest left to the margin. -/
def dedentBlock (lines : List Line) : List Line :=
  let block := dropEndWhile Line.isBlank lines
  block.map (Line.dedent (margin block))

theorem insetBlock_isPrefix (lines : List Line) : insetBlock lines <+: lines :=
  (dropEndWhile_isPrefix Line.isBlank _).trans (List.takeWhile_prefix _)

theorem insetBlock_append_afterInset (lines : List Line) : insetBlock lines ++ afterInset lines = lines := by
  have taken := List.prefix_iff_eq_take.mp (insetBlock_isPrefix lines)
  conv => lhs; rw [taken]
  rw [afterInset, List.take_append_drop]

theorem length_afterInset_le (lines : List Line) : (afterInset lines).length ≤ lines.length := by
  simp [afterInset]

theorem weight_afterInset (lines : List Line) :
    weight (insetBlock lines) + weight (afterInset lines) = weight lines := by
  rw [← weight_append, insetBlock_append_afterInset]

theorem weight_skipBlank_le (lines : List Line) : weight (skipBlank lines) ≤ weight lines :=
  weight_le_of_sublist (List.dropWhile_sublist _)

theorem length_skipBlank_le (lines : List Line) : (skipBlank lines).length ≤ lines.length :=
  (List.dropWhile_sublist _).length_le

theorem weight_dedentBlock_le (lines : List Line) : weight (dedentBlock lines) ≤ weight lines := by
  have moved := weight_map_dedent_le (margin (dropEndWhile Line.isBlank lines))
    (dropEndWhile Line.isBlank lines)
  have kept := weight_le_of_sublist (dropEndWhile_isPrefix Line.isBlank lines).sublist
  exact Nat.le_trans moved kept

theorem margin_pos {lines : List Line} (inset : ∀ line ∈ lines, line.isInset) {line : Line}
    (member : line ∈ lines) (filled : line.isBlank = false) : 0 < margin lines := by
  unfold margin
  cases least : ((lines.filter fun line => !line.isBlank).map Line.indent).min? with
  | none =>
    have empty : line ∉ lines.filter fun line => !line.isBlank := by
      simp only [List.min?_eq_none_iff, List.map_eq_nil_iff] at least
      simp [least]
    exact absurd (List.mem_filter.mpr ⟨member, by simp [filled]⟩) empty
  | some indent =>
    obtain ⟨other, kept, rfl⟩ := List.mem_map.mp (List.min?_mem least)
    obtain ⟨present, visible⟩ := List.mem_filter.mp kept
    have deep := inset other present
    simp only [Line.isInset, Bool.or_eq_true, decide_eq_true_eq] at deep
    simp only [Bool.not_eq_true'] at visible
    simpa [visible] using deep

theorem isInset_of_mem_insetBlock {lines : List Line} {line : Line} (member : line ∈ insetBlock lines) :
    line.isInset :=
  List.all_eq_true.mp List.all_takeWhile line ((dropEndWhile_isPrefix Line.isBlank _).subset member)

/-- An indented line begins an inset block. -/
theorem insetBlock_cons {line : Line} (rest : List Line) (filled : line.isBlank = false)
    (inset : 0 < line.indent) : ∃ more, insetBlock (line :: rest) = line :: more := by
  refine ⟨dropEndWhile Line.isBlank (rest.takeWhile Line.isInset), ?_⟩
  rw [insetBlock, List.takeWhile_cons_of_pos (by simp [Line.isInset, inset]), dropEndWhile_cons filled]

/-- An inset block gives up at least one column when it is moved to its margin. -/
theorem weight_dedentBlock_lt {line : Line} (rest : List Line) (filled : line.isBlank = false)
    (inset : 0 < line.indent) :
    weight (dedentBlock (insetBlock (line :: rest))) < weight (insetBlock (line :: rest)) := by
  obtain ⟨more, whole⟩ := insetBlock_cons rest filled inset
  have kept := dropEndWhile_isPrefix Line.isBlank (insetBlock (line :: rest))
  have member : line ∈ dropEndWhile Line.isBlank (insetBlock (line :: rest)) := by
    rw [whole, dropEndWhile_cons filled]
    exact List.mem_cons_self
  have deep := margin_pos (fun other present => isInset_of_mem_insetBlock (kept.subset present)) member filled
  exact Nat.lt_of_lt_of_le (weight_map_dedent_lt deep inset member) (weight_le_of_sublist kept.sublist)

end RstPress.Source
