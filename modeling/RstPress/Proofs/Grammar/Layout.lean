import RstPress.Proofs.Bodies.Outline
import RstPress.Proofs.Grammar.Paragraph
import RstPress.Proofs.Heading

/-!
What a text guarantees of its pieces. Lines are moved left and cut off at the front on their way into a
nested body, and at any depth they are still without tabs and without blanks at their end. So terms end
visibly, and a literal block comes to the margin and begins and ends with lines that are not blank.
-/

namespace RstPress.Source
open Text Inline

/-- A property that a line keeps when it is moved left, and when the characters in front of a visible
one are cut off. -/
structure Line.Keeps (p : Line → Prop) : Prop where
  dedent {line : Line} (amount : Nat) (here : p line) : p (line.dedent amount)
  cut {line : Line} {text : List Char} (here : p line) (ending : text <:+ line.text)
    (visible : text.head?.any fun c => !Text.isBlank c) : p ⟨0, text, line.number⟩

theorem Row.notMem_written {c : Char} (other : c ≠ ' ') {row : Row} (absent : c ∉ row.text) :
    c ∉ row.written := fun member =>
  (List.mem_append.mp member).elim (fun space => other (List.mem_replicate.mp space).2) absent

theorem Row.Clean.mayClose {row : Row} (clean : row.Clean) (filled : row.text ≠ []) :
    MayClose none row.text := by
  rcases clean.ends with none | ⟨front, last, same, visible⟩
  · exact absurd (congrArg Row.text none) filled
  · rw [same]
    exact mayClose_append_singleton visible front

theorem keeps_clean : Line.Keeps fun line => line.row.Clean := by
  refine ⟨fun {line} amount clean => ?_, fun {line text} clean ending visible => ?_⟩
  · refine ⟨clean.oneLine, clean.untabbed, clean.begins, clean.ends.imp_left fun none => ?_⟩
    rw [row_dedent, none, Row.empty, Nat.zero_sub]
  · obtain ⟨front, whole⟩ := ending
    have kept (c : Char) (member : c ∈ text) : c ∈ line.text := by
      rw [← whole]
      exact List.mem_append_right front member
    cases text with
    | nil => cases visible
    | cons c text =>
      have shown : Text.isBlank c = false := by simpa using visible
      refine ⟨fun member => clean.oneLine (kept _ member), fun member => clean.untabbed (kept _ member),
        fun space => ne_of_isBlank shown (by decide) (Option.some.inj space), .inr ?_⟩
      have filled : front ++ c :: text ≠ [] :=
        List.append_ne_nil_of_right_ne_nil front (List.cons_ne_nil c text)
      rw [whole] at filled
      have ends := clean.mayClose filled
      rw [Line.row, ← whole] at ends
      exact (ends.of_append (List.cons_ne_nil c text)).exists_concat

section lines
variable {p : Line → Prop} {lines : List Line} (each : ∀ line ∈ lines, p line)
include each

theorem forall_insetBlock : ∀ line ∈ insetBlock lines, p line :=
  fun line member => each line ((insetBlock_isPrefix lines).subset member)

theorem forall_afterInset : ∀ line ∈ afterInset lines, p line :=
  fun line member => each line (List.drop_subset _ lines member)

theorem forall_skipBlank : ∀ line ∈ skipBlank lines, p line :=
  fun line member => each line ((List.dropWhile_sublist Line.isBlank).subset member)

theorem forall_map_dedent (keeps : Line.Keeps p) (amount : Nat) :
    ∀ line ∈ lines.map (Line.dedent amount), p line :=
  List.forall_mem_map.mpr fun line member => keeps.dedent amount (each line member)

theorem forall_dedentBlock (keeps : Line.Keeps p) : ∀ line ∈ dedentBlock lines, p line := by
  have kept : ∀ line ∈ dropEndWhile Line.isBlank lines, p line := fun line member =>
    each line ((dropEndWhile_isPrefix Line.isBlank lines).subset member)
  exact forall_map_dedent kept keeps _

end lines

/-- A line that is not blank stands at the margin. -/
theorem exists_margin {lines : List Line} {line : Line} (member : line ∈ lines)
    (filled : line.isBlank = false) :
    ∃ line ∈ lines, line.isBlank = false ∧ line.indent = margin lines := by
  have present : line ∈ lines.filter fun line => !line.isBlank :=
    List.mem_filter.mpr ⟨member, by simp [filled]⟩
  cases least : ((lines.filter fun line => !line.isBlank).map Line.indent).min? with
  | none =>
    rw [List.min?_eq_none_iff, List.map_eq_nil_iff] at least
    rw [least] at present
    cases present
  | some indent =>
    obtain ⟨other, kept, rfl⟩ := List.mem_map.mp (List.min?_mem least)
    obtain ⟨inside, visible⟩ := List.mem_filter.mp kept
    exact ⟨other, inside, by simpa using visible, by rw [margin, least, Option.getD_some]⟩

end RstPress.Source

namespace RstPress.Document
open Text Source

theorem written_ne_nil {line : Line} (filled : line.isBlank = false) : line.row.written ≠ [] :=
  List.append_ne_nil_of_right_ne_nil _ ((filled_iff_row line).mp filled)

/-- Lines that begin and end visibly and come to the margin make a literal block. -/
theorem exists_literalText_of_flush {lines : List Line} (clean : ∀ line ∈ lines, line.row.Clean)
    (begins : ∃ line rest, lines = line :: rest ∧ line.isBlank = false)
    (ends : ∃ front line, lines = front ++ [line] ∧ line.isBlank = false)
    (flush : ∃ line ∈ lines, line.isBlank = false ∧ line.indent = 0) :
    ∃ literal : LiteralText, literal.lines = lines.map fun line => line.row.written := by
  refine ⟨⟨_, fun text member => ?_, fun text member => ?_, ?_, ?_, ?_⟩, rfl⟩
  · obtain ⟨line, present, rfl⟩ := List.mem_map.mp member
    have here := clean line present
    exact ⟨Row.notMem_written (by decide) here.untabbed, Row.notMem_written (by decide) here.oneLine⟩
  · obtain ⟨line, present, rfl⟩ := List.mem_map.mp member
    rcases (clean line present).ends with none | ⟨front, last, same, visible⟩
    · rw [none]
      exact .inl rfl
    · exact .inr ⟨_, last, by rw [Row.written, same, List.append_assoc], visible⟩
  · obtain ⟨line, rest, rfl, filled⟩ := begins
    exact ⟨_, _, List.map_cons, written_ne_nil filled⟩
  · obtain ⟨front, line, rfl, filled⟩ := ends
    exact ⟨_, _, List.map_append, written_ne_nil filled⟩
  · obtain ⟨line, present, filled, zero⟩ := flush
    refine ⟨_, List.mem_map_of_mem present, written_ne_nil filled, ?_⟩
    have whole : line.row.written = line.row.text := by
      rw [Row.written, Line.row, zero, List.replicate_zero, List.nil_append]
    rw [whole]
    exact (clean line present).begins

/-- A block that begins visibly and is moved to its margin makes a literal block. -/
theorem exists_literalText {line : Line} {rest : List Line}
    (clean : ∀ other ∈ line :: rest, other.row.Clean) (filled : line.isBlank = false) :
    ∃ literal : LiteralText, (dedentBlock (line :: rest)).flatMap Line.written =
      literal.lines.flatMap (· ++ ['\n']) := by
  have kept := dropEndWhile_cons filled rest
  have ends : ∃ front last, dropEndWhile Line.isBlank (line :: rest) = front ++ [last] ∧
      last.isBlank = false := by
    rcases List.eq_nil_or_concat (dropEndWhile Line.isBlank (line :: rest)) with
      none | ⟨front, last, concat⟩
    · rw [kept] at none
      cases none
    · rw [List.concat_eq_append] at concat
      exact ⟨front, last, concat, of_getLast?_dropEndWhile (by rw [concat, List.getLast?_concat])⟩
  obtain ⟨front, last, concat, visible⟩ := ends
  obtain ⟨flush, member, shown, margin⟩ := exists_margin (kept ▸ List.mem_cons_self) filled
  obtain ⟨literal, same⟩ := exists_literalText_of_flush (forall_dedentBlock clean keeps_clean)
    ⟨line.dedent _, _, by rw [dedentBlock, kept, List.map_cons], filled⟩
    ⟨_, last.dedent _, by rw [dedentBlock, concat, List.map_append, List.map_singleton], visible⟩
    ⟨flush.dedent _, List.mem_map_of_mem member, shown, by rw [Line.dedent, margin, Nat.sub_self]⟩
  refine ⟨literal, ?_⟩
  rw [same, List.flatMap_map]
  rfl

end RstPress.Document

namespace RstPress.Layout
open Text Source Document Inline

/-- Leaving out blanks at the front leaves nothing, or something visible at the front. -/
theorem trimStart_cases (text : List Char) :
    trimStart text = [] ∨ (trimStart text).head?.any fun c => !Text.isBlank c := by
  cases begins : (trimStart text).head? with
  | none => exact .inl (List.head?_eq_none_iff.mp begins)
  | some c =>
    have visible := List.head?_dropWhile_not isBlank text
    rw [← trimStart, begins] at visible
    exact .inr (by simpa using visible)

section lines
variable {p : Line → Prop} (keeps : Line.Keeps p)
include keeps

theorem forall_itemBody (width : Nat) {line : Line} (here : p line) {block : List Line}
    (each : ∀ other ∈ block, p other) : ∀ other ∈ itemBody width line block, p other := by
  simp only [itemBody]
  split
  · exact forall_dedentBlock (forall_map_dedent each keeps width) keeps
  · rename_i filled
    have ending : trimStart (line.text.drop width) <:+ line.text :=
      (List.dropWhile_suffix isBlank).trans (List.drop_suffix width line.text)
    have visible := (trimStart_cases (line.text.drop width)).resolve_left (by simpa using filled)
    exact List.forall_mem_cons.mpr ⟨keeps.cut here ending visible, forall_map_dedent each keeps width⟩

theorem forall_listItems (marker : Marker) {lines : List Line} (each : ∀ line ∈ lines, p line) :
    (∀ body ∈ (listItems marker lines).1, ∀ line ∈ body, p line) ∧
      ∀ line ∈ (listItems marker lines).2, p line := by
  fun_induction listItems marker lines with
  | case1 => exact ⟨List.forall_mem_nil _, List.forall_mem_nil _⟩
  | case2 line rest unmarked => exact ⟨List.forall_mem_nil _, each⟩
  | case3 line rest width marked items remaining taken ih =>
    obtain ⟨here, later⟩ := List.forall_mem_cons.mp each
    obtain ⟨bodies, after⟩ := ih (forall_skipBlank (forall_afterInset later))
    rw [taken] at bodies after
    have first := forall_itemBody keeps width here (forall_insetBlock later)
    exact ⟨List.forall_mem_cons.mpr ⟨first, bodies⟩, after⟩

theorem forall_definitions {lines : List Line} (each : ∀ line ∈ lines, p line) :
    (∀ item ∈ (definitions lines).1, p item.1 ∧ ∀ line ∈ item.2, p line) ∧
      ∀ line ∈ (definitions lines).2, p line := by
  fun_induction definitions lines with
  | case1 => exact ⟨List.forall_mem_nil _, List.forall_mem_nil _⟩
  | case2 term rest starts items remaining taken ih =>
    obtain ⟨here, later⟩ := List.forall_mem_cons.mp each
    obtain ⟨bodies, after⟩ := ih (forall_skipBlank (forall_afterInset later))
    rw [taken] at bodies after
    have meaning := forall_dedentBlock (forall_insetBlock later) keeps
    exact ⟨List.forall_mem_cons.mpr ⟨⟨here, meaning⟩, bodies⟩, after⟩
  | case3 term rest ends => exact ⟨List.forall_mem_nil _, each⟩

/-- What every line of a text is, every line is that is nested in its first piece or comes after it. -/
theorem forall_take {line : Line} {rest : List Line} (each : ∀ other ∈ line :: rest, p other)
    (construct : Construct) :
    (∀ body ∈ (construct.take line rest).1.bodies, ∀ other ∈ body, p other) ∧
      ∀ other ∈ (construct.take line rest).2, p other := by
  have later := (List.forall_mem_cons.mp each).2
  cases construct with
  | quote =>
    exact ⟨List.forall_mem_singleton.mpr (forall_dedentBlock (forall_insetBlock each) keeps),
      forall_afterInset each⟩
  | transition => exact ⟨List.forall_mem_nil _, later⟩
  | list marker => exact forall_listItems keeps marker each
  | lineBlock =>
    exact ⟨List.forall_mem_nil _, fun other member => each other ((entries_suffix 0 _).subset member)⟩
  | definitionList =>
    obtain ⟨items, after⟩ := forall_definitions keeps each
    exact ⟨List.forall_mem_map.mpr fun item member => (items item member).2, after⟩
  | paragraph =>
    exact ⟨List.forall_mem_nil _,
      fun other member => later other ((paragraph_suffix line rest).subset member)⟩

theorem forall_first {line : Line} {rest : List Line} (each : ∀ other ∈ line :: rest, p other) :
    (∀ body ∈ (Piece.first line rest).1.bodies, ∀ other ∈ body, p other) ∧
      ∀ other ∈ (Piece.first line rest).2, p other :=
  forall_take keeps each (construct line rest)

end lines

theorem isBlank_of_startsDefinition {term : Line} {rest : List Line}
    (starts : startsDefinition (term :: rest)) : term.isBlank = false := by
  cases rest with
  | nil => cases starts
  | cons next rest =>
    simp only [startsDefinition, Bool.and_eq_true, Bool.not_eq_true'] at starts
    exact starts.1.1.1

theorem isBlank_of_mem_definitions {lines : List Line} :
    ∀ item ∈ (definitions lines).1, item.1.isBlank = false := by
  fun_induction definitions lines with
  | case1 => exact List.forall_mem_nil _
  | case2 term rest starts items remaining taken ih =>
    rw [taken] at ih
    exact List.forall_mem_cons.mpr ⟨isBlank_of_startsDefinition starts, ih⟩
  | case3 term rest ends => exact List.forall_mem_nil _

theorem entries_ne_nil {above : Nat} {line : Line} {rest : List Line} (barred : (barAt? line).isSome) :
    (entries above (line :: rest)).1 ≠ [] := by
  obtain ⟨content, found⟩ := Option.isSome_iff_exists.mp barred
  rw [entries_of_bar above rest found]
  exact List.cons_ne_nil _ _

/-- A literal block that is there is one that can be written. -/
def Announced.IsSound : Announced → Prop
  | .block text => ∃ literal : LiteralText, text = literal.lines.flatMap (· ++ ['\n'])
  | .nothing | .missing _ => True

/-- Lists are not empty, terms end visibly, and the lines of a paragraph are ended. -/
def Piece.IsSound : Piece → Prop
  | .quote _ | .transition => True
  | .list _ items => items ≠ []
  | .lineBlock entries => entries ≠ []
  | .definitionList items => items ≠ [] ∧ ∀ item ∈ items, MayClose none item.1.text
  | .paragraph text => (text.text = [] ∨ text.text.getLast? = some '\n') ∧ text.literal.IsSound

theorem isSound_announced (previous : Nat) {lines : List Line}
    (clean : ∀ line ∈ lines, line.row.Clean) : (announced previous lines).1.IsSound := by
  unfold announced
  split
  · trivial
  · rename_i next rest found
    split
    · rename_i inset
      have filled : next.isBlank = false := by
        have stops := List.head?_dropWhile_not Line.isBlank lines
        rw [← skipBlank, found] at stops
        exact stops
      have kept := forall_insetBlock (found ▸ forall_skipBlank clean)
      obtain ⟨more, whole⟩ := insetBlock_cons rest filled inset
      rw [whole] at kept
      rw [whole]
      exact exists_literalText kept filled
    · trivial

theorem getLast?_flatMap_feed (texts : List (List Char)) :
    texts.flatMap (· ++ ['\n']) = [] ∨ (texts.flatMap (· ++ ['\n'])).getLast? = some '\n' := by
  rcases List.eq_nil_or_concat texts with rfl | ⟨front, last, rfl⟩
  · exact .inl rfl
  · right
    rw [List.concat_eq_append, List.flatMap_append, List.flatMap_singleton, ← List.append_assoc,
      List.getLast?_concat]

theorem isSound_paragraph {line : Line} {rest : List Line} (clean : ∀ other ∈ rest, other.row.Clean) :
    (Piece.paragraph (paragraph line rest).1).IsSound := by
  refine ⟨getLast?_flatMap_feed _, ?_⟩
  simp only [paragraph, paragraphOf]
  split
  · exact isSound_announced _ fun other member => clean other ((List.dropWhile_suffix _).subset member)
  · trivial

theorem isSound_take {line : Line} {rest : List Line} (clean : ∀ other ∈ line :: rest, other.row.Clean)
    {construct : Construct} (begins : construct.Begins line rest) :
    (construct.take line rest).1.IsSound := by
  cases begins with
  | quote | transition => trivial
  | list marked => exact listItems_ne_nil marked
  | lineBlock barred => exact entries_ne_nil barred
  | definitionList starts =>
    refine ⟨definitions_ne_nil starts, fun item member => ?_⟩
    have term := ((forall_definitions keeps_clean clean).1 item member).1
    exact term.mayClose ((filled_iff_row item.1).mp (isBlank_of_mem_definitions item member))
  | paragraph => exact isSound_paragraph (List.forall_mem_cons.mp clean).2

theorem isSound_first {line : Line} {rest : List Line}
    (clean : ∀ other ∈ line :: rest, other.row.Clean) : (Piece.first line rest).1.IsSound :=
  isSound_take clean (construct_begins line rest)

/-- The text of a title ends visibly. -/
theorem mayClose_of_headingAt? {line : Line} {rest after : List Line} {heading : Heading}
    (clean : ∀ other ∈ line :: rest, other.row.Clean) (filled : line.isBlank = false)
    (found : headingAt? line rest = some (heading, after)) : MayClose none heading.text := by
  obtain ⟨title, member, shown, same, _⟩ := exists_title_of_headingAt? filled found
  rw [same]
  exact (clean title member).mayClose ((filled_iff_row title).mp shown)

end RstPress.Layout
