import RstPress.Proofs.Bodies.Written
import RstPress.Proofs.Places.Outline
import RstPress.Proofs.Plain.Reading

/-!
The constructs that hold one nested body and nothing else: a quote, a list of one item, and a list of
one definition. What they cut out of the text are the lines of the body as it would stand alone, so the
body is arranged as if it did.
-/

namespace RstPress.Source
open Text Document

section shift
variable {columns : Nat}

theorem isBlank_shift (columns : Nat) (line : Line) : (line.shift columns).isBlank = line.isBlank := by
  unfold Line.shift
  split <;> rfl

theorem row_shift (columns : Nat) (line : Line) : (line.shift columns).row = line.row.shift columns := by
  by_cases blank : line.isBlank
  · rw [Line.shift, if_pos blank, Row.shift, if_pos ((isBlank_iff_row line).mp blank)]
  · rw [Line.shift, if_neg blank, Row.shift, if_neg (mt (isBlank_iff_row line).mpr blank)]
    rfl

theorem map_row_shift (columns : Nat) (lines : List Line) :
    (lines.map (Line.shift columns)).map Line.row = (lines.map Line.row).map (Row.shift columns) := by
  simp only [List.map_map]
  exact List.map_congr_left fun line _ => row_shift columns line

theorem dropEndWhile_map_shift (columns : Nat) (lines : List Line) :
    dropEndWhile Line.isBlank (lines.map (Line.shift columns)) =
      (dropEndWhile Line.isBlank lines).map (Line.shift columns) := by
  have same : Line.isBlank ∘ Line.shift columns = Line.isBlank := funext (isBlank_shift columns)
  rw [dropEndWhile_map, same]

theorem dedent_shift {line : Line} (clean : line.row.Clean) (columns : Nat) :
    (line.shift columns).dedent columns = line := by
  unfold Line.shift
  split
  · rename_i blank
    have flat : line.indent = 0 :=
      congrArg Row.indent (clean.empty_of_text ((isBlank_iff_row line).mp blank))
    rw [Line.dedent, flat, Nat.zero_sub, ← flat]
  · rw [Line.dedent, Nat.add_sub_cancel]

/-- Moving lines left undoes moving them to the right. -/
theorem map_dedent_map_shift {lines : List Line} (clean : ∀ row ∈ lines.map Line.row, row.Clean)
    (columns : Nat) : (lines.map (Line.shift columns)).map (Line.dedent columns) = lines := by
  rw [List.map_map]
  conv => rhs; rw [← List.map_id lines]
  exact List.map_congr_left fun line member =>
    dedent_shift (clean line.row (List.mem_map_of_mem member)) columns

end shift

theorem clean_of_mem_linesFrom {text : List Char} {tabWidth number : Nat} {line : Line}
    (member : line ∈ linesFrom tabWidth number text) : line.row.Clean := by
  obtain ⟨trimmed, present, place, rfl⟩ := exists_text_of_mem_numberFrom member
  obtain ⟨raw, inside, rfl⟩ := List.mem_map.mp present
  have noFeed := feed_notMem_of_mem_splitLines inside
  have kept := (dropEndWhile_isPrefix isBlank (expandTabs (max 1 tabWidth) 0 raw)).subset
  refine clean_ofText ⟨fun tab => ?_, fun feed => ?_⟩ (trimEnd_ends _)
  · rcases mem_expandTabs (kept tab) with space | ⟨_, other⟩
    · cases space
    · exact other rfl
  · rcases mem_expandTabs (kept feed) with space | ⟨within, _⟩
    · cases space
    · exact noFeed within

/-- A text without tabs that begins visibly is a body, up to the blank lines at its end. -/
theorem isBody_lines {c : Char} {text : List Char} (visible : isBlank c = false)
    (untabbed : '\t' ∉ c :: text) (tabWidth : Nat) :
    IsBody 0 ((dropEndWhile Line.isBlank (lines tabWidth (c :: text))).map Line.row) := by
  refine ⟨?_, ?_, ?_⟩
  · obtain ⟨after, rest, same⟩ := lines_of_visible visible untabbed tabWidth
    rw [same, dropEndWhile_cons (by rfl), List.map_cons]
    exact ⟨_, _, rfl, rfl, c, after, rfl, visible⟩
  · intro row last
    rw [List.getLast?_map, Option.map_eq_some_iff] at last
    obtain ⟨line, ends, rfl⟩ := last
    exact (filled_iff_row line).mp (of_getLast?_dropEndWhile ends)
  · intro row member
    obtain ⟨line, kept, rfl⟩ := List.mem_map.mp member
    exact clean_of_mem_linesFrom ((dropEndWhile_isPrefix Line.isBlank _).subset kept)

end RstPress.Source

namespace RstPress.Layout
open Text Source Document

section letters
variable {text : List Char} (letters : ∀ c ∈ text, c.isAlpha)
include letters

theorem adornment?_of_letters : adornment? text = none := by
  cases text with
  | nil => rfl
  | cons c others =>
    have plain := isPunctuation_of_isAlpha (letters c List.mem_cons_self)
    simp [adornment?, plain]

theorem bullet?_of_letters : bullet? text = none := by
  cases text with
  | nil => rfl
  | cons c others =>
    have plain := isPunctuation_of_isAlpha (letters c List.mem_cons_self)
    simp [bullet?, Marker.width?, isBullet_of_not_isPunctuation plain]

theorem enumeratorWidth?_of_letters : enumeratorWidth? text = none := by
  cases found : enumeratorWidth? text with
  | none => rfl
  | some width =>
    obtain ⟨front, ordinal, close, after, rfl, framed, _⟩ := exists_of_enumeratorWidth? found
    have letter := letters close (by simp)
    cases framed <;> cases letter

theorem barContent?_of_letters : barContent? text = none := by
  cases text with
  | nil => rfl
  | cons c others =>
    have other : c ≠ '|' := by
      rintro rfl
      cases letters '|' List.mem_cons_self
    rw [barContent?.eq_def]
    exact if_neg other

end letters

/-- Letters with an indented line below them are the term of a definition. -/
theorem construct_of_letters {term : Line} {rest : List Line} (flush : term.indent = 0)
    (letters : ∀ c ∈ term.text, c.isAlpha) (starts : startsDefinition (term :: rest)) :
    construct term rest = .definitionList := by
  have noTransition : startsTransition term rest = false := by
    simp [startsTransition, adornment?_of_letters letters]
  have noMarker : listMarker? term rest = none := by
    simp [listMarker?, bullet?_of_letters letters, startsEnumeration,
      enumeratorWidth?_of_letters letters]
  simp [construct, flush, noTransition, noMarker, barContent?_of_letters letters, starts]

section body
variable {body : List Line} (whole : IsBody 0 (body.map Line.row)) {columns : Nat}
  (inset : 0 < columns)
include whole inset

theorem insetBlock_map_shift : insetBlock (body.map (Line.shift columns)) = body.map (Line.shift columns) :=
  insetBlock_of_shift (map_row_shift columns body) inset whole.ends

theorem afterInset_map_shift : afterInset (body.map (Line.shift columns)) = [] :=
  afterInset_of_shift (map_row_shift columns body) inset whole.ends

/-- The lines of a body are found again where it is nested. -/
theorem dedentBlock_insetBlock_map_shift :
    dedentBlock (insetBlock (body.map (Line.shift columns))) = body := by
  rw [insetBlock_map_shift whole inset,
    dedentBlock_of_shift (map_row_shift columns body) whole.ends whole.exists_flush,
    map_dedent_map_shift whole.clean]

theorem exists_shift_cons_of_body :
    ∃ first rest, body.map (Line.shift columns) = first :: rest ∧ first.isBlank = false ∧
      0 < first.indent := by
  obtain ⟨row, others, same, _, c, text, shown, _⟩ := whole.opens
  obtain ⟨first, rest, rfl, here, _⟩ := List.map_eq_cons_iff.mp same
  have filled : first.isBlank = false := by
    rw [filled_iff_row, here, shown]
    exact List.cons_ne_nil c text
  refine ⟨first.shift columns, rest.map (Line.shift columns), rfl, ?_, ?_⟩
  · rw [isBlank_shift, filled]
  · rw [Line.shift, if_neg (by simp [filled])]
    exact Nat.lt_add_left first.indent inset

/-- A text that is moved right is a quote. -/
theorem outline_quote : outline (body.map (Line.shift columns)) = [.block (.quote (arrange body))] := by
  have cut := dedentBlock_insetBlock_map_shift whole inset
  have ended := afterInset_map_shift whole inset
  obtain ⟨first, rest, same, filled, deep⟩ := exists_shift_cons_of_body whole inset
  rw [same] at cut ended ⊢
  have noHeading : headingAt? first rest = none := by rw [headingAt?, if_neg (Nat.ne_of_gt deep)]
  have quote : construct first rest = .quote := by rw [construct, if_pos deep]
  rw [outline_of_piece filled noHeading, Piece.first, quote, Construct.take, ended, cut, outline_nil,
    Piece.block_quote]

/-- A line of letters with a text below it that is moved right is a definition. -/
theorem outline_defined {term : Line} (flush : term.indent = 0) (filled : term.isBlank = false)
    (letters : ∀ c ∈ term.text, c.isAlpha) :
    outline (term :: body.map (Line.shift columns)) =
      [.block (.definitionList [.definition term (arrange body)])] := by
  have cut := dedentBlock_insetBlock_map_shift whole inset
  have ended := afterInset_map_shift whole inset
  obtain ⟨first, rest, same, visible, deep⟩ := exists_shift_cons_of_body whole inset
  rw [same] at cut ended ⊢
  have starts : startsDefinition (term :: first :: rest) := by
    simp [startsDefinition, flush, filled, visible, deep]
  have noHeading : headingAt? term (first :: rest) = none := by
    apply headingAt?_of_plain (adornment?_of_letters letters)
    intro next head flushed
    rw [← Option.some.inj head] at flushed
    omega
  rw [outline_of_piece filled noHeading, Piece.first, construct_of_letters flush letters starts,
    Construct.take, definitions_of_starts starts, ended, cut]
  simp [skipBlank]

end body

/-- A line with a space in it is no title if no text at the margin is directly below. -/
theorem headingAt?_of_spaced {line : Line} {rest : List Line} (spaced : ' ' ∈ line.text)
    (below : rest.head?.all Line.isInset) : headingAt? line rest = none := by
  apply headingAt?_of_plain (adornment?_of_space spaced)
  intro next head flush
  rw [head] at below
  have hollow : next.text = [] := by simpa [Line.isInset, Line.isBlank, flush] using below
  rw [hollow, adornment?]

/-- An item gives back the body that hangs behind its label. -/
theorem itemBody_of_label {c : Char} (visible : isBlank c = false) (label after : List Char)
    {rest : List Line} (clean : ∀ row ∈ rest.map Line.row, row.Clean) (number : Nat) :
    itemBody (label.length + 1) ⟨0, label ++ ' ' :: c :: after, number⟩
        (rest.map (Line.shift (label.length + 1))) =
      ⟨0, c :: after, number⟩ :: rest := by
  have back := map_dedent_map_shift clean (label.length + 1)
  have shown : trimStart (c :: after) = c :: after := List.dropWhile_cons_of_neg (by simp [visible])
  simp [itemBody, shown, back]

/-- A text that hangs behind a label is the only item of a list. -/
theorem outline_item {marker : Marker} {label after : List Char} {c : Char} {rest : List Line}
    {number : Nat} (labelled : marker.width? label = some label.length) (visible : isBlank c = false)
    (whole : IsBody 0 ((⟨0, c :: after, number⟩ :: rest : List Line).map Line.row)) :
    outline (⟨0, label ++ ' ' :: c :: after, number⟩ :: rest.map (Line.shift (label.length + 1))) =
      [.block (.list marker [.item (arrange (⟨0, c :: after, number⟩ :: rest))])] := by
  have wide : 0 < label.length + 1 := Nat.succ_pos _
  have moved := map_row_shift (label.length + 1) rest
  have ends : EndsVisibly (rest.map Line.row) := whole.ends.tail
  have block := insetBlock_of_shift moved wide ends
  have ended := afterInset_of_shift moved wide ends
  have item := itemBody_of_label visible label after
    (fun row member => whole.clean row (List.mem_cons_of_mem _ member)) number
  have below : (rest.map (Line.shift (label.length + 1))).head?.all Line.isInset := by
    rw [Option.all_eq_true]
    exact fun next head => isInset_of_shift moved wide (List.mem_of_mem_head? head)
  have spaced : ' ' ∈ (⟨0, label ++ ' ' :: c :: after, number⟩ : Line).text := by simp
  have filled : (⟨0, label ++ ' ' :: c :: after, number⟩ : Line).isBlank = false := by
    simp [Line.isBlank]
  have marked : marker.at? ⟨0, label ++ ' ' :: c :: after, number⟩ = some (label.length + 1) := by
    rw [Marker.at?, if_pos rfl]
    exact width?_label_append labelled (ne_of_isBlank visible (by decide)) after
  rw [outline_of_piece filled (headingAt?_of_spaced spaced below), Piece.first,
    construct_of_marked marked spaced below, Construct.take, listItems_of_marked _ marked, block,
    ended, item]
  simp [skipBlank]

end RstPress.Layout
