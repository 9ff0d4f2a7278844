import RstPress.Proofs.Extension.Outline
import RstPress.Proofs.Heading
import RstPress.Proofs.Marker
import RstPress.Proofs.Plain.Block
import RstPress.Document.Source

/-!
A plain block that stands alone is taken whole and read as its node. The nested bodies that are cut
out of it have the rows that were written for them.
-/

namespace RstPress.Layout
open Text Source

/-- A line that is no adornment is no title without an adornment below it. -/
theorem headingAt?_of_plain {line : Line} {rest : List Line} (title : adornment? line.text = none)
    (below : ∀ next, rest.head? = some next → next.indent = 0 → adornment? next.text = none) :
    headingAt? line rest = none := by
  rw [Option.eq_none_iff_forall_ne_some]
  rintro ⟨heading, after⟩ found
  obtain ⟨_, adornment, shaped⟩ := headingAt?_eq_some_iff.mp found
  cases shaped with
  | overlined upper =>
    rw [title] at upper
    cases upper
  | underlined plain flush lower =>
    rw [below _ rfl flush] at lower
    cases lower

theorem construct_of_no_marker {line : Line} {rest : List Line} (flush : line.indent = 0)
    (noTransition : startsTransition line rest = false) (noBullet : bullet? line.text = none)
    (noEnumerator : enumeratorWidth? line.text = none) (noBar : barContent? line.text = none)
    (noDefinition : startsDefinition (line :: rest) = false) :
    construct line rest = .paragraph := by
  have noMarker : listMarker? line rest = none := by
    simp [listMarker?, noBullet, startsEnumeration, noEnumerator]
  simp [construct, flush, noTransition, noMarker, noBar, noDefinition]

end RstPress.Layout

namespace RstPress.Source
open Text

/-- After a run of rows that are joined to others stands a blank line, or nothing. -/
theorem exists_append_of_joinRows {rows : List Row} {others : List (List Row)} {lines : List Line}
    (each : ∀ found ∈ others, ∃ column, Document.IsBody column found)
    (same : lines.map Line.row = Document.joinRows (rows :: others)) :
    ∃ here more, lines = here ++ more ∧ here.map Line.row = rows ∧ startsBlank more ∧
      (skipBlank more).map Line.row = Document.joinRows others := by
  cases others with
  | nil => exact ⟨lines, [], (List.append_nil lines).symm, same, rfl, rfl⟩
  | cons next others =>
    obtain ⟨here, more, rfl, first, later⟩ := List.map_eq_append_iff.mp same
    obtain ⟨gap, rest, rfl, blank, placed⟩ := List.map_eq_cons_iff.mp later
    have hollow : gap.isBlank := by rw [isBlank_iff_row, blank]; rfl
    obtain ⟨column, body⟩ := each next List.mem_cons_self
    have joined := body.join fun found member => each found (List.mem_cons_of_mem next member)
    obtain ⟨row, tail, opened, _, c, text, shown, _⟩ := joined.opens
    rw [opened] at placed
    obtain ⟨line, below, rfl, begins, _⟩ := List.map_eq_cons_iff.mp placed
    have filled : line.isBlank = false := by
      rw [filled_iff_row, begins, shown]
      exact List.cons_ne_nil c text
    refine ⟨here, gap :: line :: below, rfl, first, hollow, ?_⟩
    rw [skipBlank_cons_of_isBlank hollow, skipBlank_cons_of_filled filled, placed, opened]

theorem insetBlock_of_flush_rows {more : List Line} {rows : List Row}
    (placed : (skipBlank more).map Line.row = rows)
    (flush : ∀ row, rows.head? = some row → row.indent = 0) : insetBlock more = [] := by
  rw [insetBlock_eq_nil_iff]
  intro next rest same
  apply flush next.row
  rw [← placed, same]
  rfl

end RstPress.Source

namespace RstPress.Document
open Text Source Layout Inline RstPress.Tree

def itemMarker (numbered : Bool) : Marker := if numbered then .enumerator else .bullet '-'

theorem at?_of_label {numbered : Bool} {line : Line} {c : Char} {text : List Char}
    (visible : isBlank c = false)
    (same : line.row = ⟨0, itemLabel numbered ++ c :: text⟩) :
    (itemMarker numbered).at? line = some (itemLabel numbered).length := by
  have space : c ≠ ' ' := ne_of_isBlank visible (by decide)
  have flush : line.indent = 0 := congrArg Row.indent same
  have shown : line.text = itemLabel numbered ++ c :: text := congrArg Row.text same
  rw [Marker.at?, if_pos flush, shown]
  cases numbered with
  | false =>
    have labelled : (Marker.bullet '-').width? ['-'] = some 1 := by decide
    exact width?_label_append labelled space text
  | true =>
    have labelled : Marker.enumerator.width? ['1', '.'] = some 2 := by decide
    exact width?_label_append labelled space text

theorem insetBlock_of_bodies {all : List (List Row)} (each : ∀ rows ∈ all, IsBody 0 rows)
    {more : List Line} (placed : (skipBlank more).map Line.row = joinRows all) :
    insetBlock more = [] := by
  apply insetBlock_of_flush_rows placed
  intro row head
  cases all with
  | nil => cases head
  | cons rows others =>
    have joined := (each rows List.mem_cons_self).join fun found member =>
      ⟨0, each found (List.mem_cons_of_mem rows member)⟩
    obtain ⟨first, _, opened, flush, _⟩ := joined.opens
    rw [opened] at head
    rw [← Option.some.inj head, flush]

/-- The bodies of list items are found again. -/
theorem listItems_of_rows (numbered : Bool) {bodies : List (List Row)}
    (each : ∀ rows ∈ bodies, IsBody 0 rows)
    {lines : List Line}
    (same : lines.map Line.row = joinRows (bodies.map (hang (itemLabel numbered)))) :
    ∃ found, listItems (itemMarker numbered) lines = (found, []) ∧
      found.map (List.map Line.row) = bodies := by
  induction bodies generalizing lines with
  | nil =>
    rw [List.map_nil, joinRows, List.map_eq_nil_iff] at same
    exact ⟨[], by rw [same, listItems_nil], rfl⟩
  | cons rows others ih =>
    have body := each rows List.mem_cons_self
    have later : ∀ found ∈ others, IsBody 0 found :=
      fun found member => each found (List.mem_cons_of_mem rows member)
    have hung := isBody_hang later numbered
    obtain ⟨here, more, rfl, item, _, placed⟩ :=
      exists_append_of_joinRows (fun found member => ⟨0, hung found member⟩) same
    obtain ⟨first, below, rfl, flush, c, text, shown, visible⟩ := body.opens
    obtain ⟨line, rest, rfl, labelled, moved⟩ := List.map_eq_cons_iff.mp item
    rw [shown] at labelled
    have marked := at?_of_label visible labelled
    have wide : 0 < (itemLabel numbered).length := by cases numbered <;> decide
    have bounded := insetBlock_of_bodies hung placed
    have inset := insetBlock_of_shift moved wide body.ends.tail
    have ended := afterInset_of_shift moved wide body.ends.tail
    obtain ⟨found, taken, bodies⟩ := ih later placed
    have lineText : line.text = itemLabel numbered ++ c :: text := congrArg Row.text labelled
    refine ⟨itemBody (itemLabel numbered).length line rest :: found, ?_, ?_⟩
    · rw [List.cons_append, listItems_of_marked _ marked, insetBlock_append (.inr bounded),
        afterInset_append (.inr bounded), inset, ended, List.nil_append, taken]
    · have trimmed : trimStart (line.text.drop (itemLabel numbered).length) = c :: text := by
        rw [lineText, List.drop_left, trimStart, List.dropWhile_cons_of_neg (by simp [visible])]
      have opened : (⟨0, c :: text⟩ : Row) = first := by rw [← shown, ← flush]
      have inner :=
        rows_map_dedent moved fun row member => body.clean row (List.mem_cons_of_mem first member)
      rw [List.map_cons, bodies, itemBody]
      simp only [trimmed, List.isEmpty_cons, Bool.false_eq_true, if_false, List.map_cons, inner]
      rw [← opened]
      rfl

/-- The lines that follow do not go on with the block. -/
def Plain.Apart (more : List Line) : Plain → Prop
  | .para _ _ => True
  | .list numbered _ =>
    insetBlock more = [] ∧ (listItems (itemMarker numbered) (skipBlank more)).1 = []
  | .quote _ | .literal _ => insetBlock more = []

/-- The block is read as the node of a plain block, without a problem. -/
def ReadsAs (block : Block) (plain : Plain) : Prop :=
  readBlock block = (pure [plain.node] : Reading (List Node))

/-- The block that begins on this line is taken whole. -/
structure ReadsBack (block : Plain) (line : Line) (rest : List Line) : Prop where
  noHeading : headingAt? line rest = none
  whole : (Piece.first line rest).2 = []
  node : ReadsAs (Piece.first line rest).1.block block
  stays : ∀ more, block.Apart more → ¬(Piece.first line rest).1.block.GoesOn more

theorem readText_escape {text : List Char} (filled : text ≠ []) (line : Nat) :
    (readText line (escape text) : Reading (List Node)) = pure [textNode text] := by
  have found := tokens_of_escapes (escapes_escape text) (.inl rfl) none
  rw [List.append_nil, tokens, List.append_nil] at found
  simp only [readText, found, unclosed_chars, gather_chars filled]
  rfl

/-- The text of a paragraph with the given lines. -/
def paragraphText (lines : List TextLine) : List Char :=
  (lines.map TextLine.text).flatMap (· ++ ['\n'])

theorem escape_paragraphText (lines : List TextLine) :
    (lines.map fun line => escape line.text).flatMap (· ++ ['\n']) =
      escape (paragraphText lines) := by
  induction lines with
  | nil => rfl
  | cons line lines ih =>
    rw [List.map_cons, List.flatMap_cons, ih, ← escape_append_feed, ← escape_append]
    rfl

theorem readParagraph_lines {lines : List TextLine} (filled : lines ≠ []) (number : Nat) :
    (readParagraph ⟨number, escape (paragraphText lines), none, .nothing⟩ : Reading (List Node)) =
      pure [.composite .paragraph (lines.map fun line => textNode (line.text ++ ['\n']))] := by
  obtain ⟨first, others, rfl⟩ := List.exists_cons_of_ne_nil filled
  have present : paragraphText (first :: others) ≠ [] := by simp [paragraphText]
  have shown : escape (paragraphText (first :: others)) ≠ [] := by
    obtain ⟨c, text, same⟩ := List.exists_cons_of_ne_nil present
    rw [same]
    rcases exists_escape_cons c text with ⟨_, begins⟩ | ⟨_, begins⟩ <;> simp [begins]
  have oneLine : ∀ text ∈ (first :: others).map TextLine.text, '\n' ∉ text := by
    intro text member feed
    obtain ⟨line, _, rfl⟩ := List.mem_map.mp member
    exact line.plain.2.1 feed
  have cut : cutTexts [textNode (paragraphText (first :: others))] =
      (first :: others).map fun line => textNode (line.text ++ ['\n']) := by
    rw [cutTexts, List.flatMap_singleton]
    simp only [textNode, String.toList_ofList, paragraphText, cutAfterLineFeeds_lines oneLine,
      List.map_map]
    rfl
  simp only [readParagraph, readParagraphText, List.isEmpty_iff, shown, if_false,
    readText_escape present, pure_bind, cut]
  rfl

section para
variable {first : TextLine} {others : List TextLine} {line : Line} {rest : List Line}
  (same : (line :: rest).map Line.row = (Plain.para first others).rows)
include same

theorem exists_text_of_para : ∀ next ∈ line :: rest,
    next.indent = 0 ∧ ∃ written : TextLine, next.text = escape written.text := by
  intro next member
  have placed : next.row ∈ (Plain.para first others).rows := same ▸ List.mem_map_of_mem member
  obtain ⟨written, _, equal⟩ := List.mem_map.mp placed
  exact ⟨(congrArg Row.indent equal).symm, written, (congrArg Row.text equal).symm⟩

theorem adornment?_of_para : ∀ next ∈ line :: rest, adornment? next.text = none := by
  intro next member
  obtain ⟨_, written, text⟩ := exists_text_of_para same next member
  rw [text]
  exact adornment?_escape written.plain.2.2

theorem construct_of_para : construct line rest = .paragraph := by
  obtain ⟨flush, written, text⟩ := exists_text_of_para same line List.mem_cons_self
  apply construct_of_no_marker flush
  · simp [startsTransition, adornment?_of_para same line List.mem_cons_self]
  · unfold bullet?
    split
    · rfl
    · rw [text, width?_bullet_escape]
      rfl
  · rw [text, enumeratorWidth?_escape]
  · rw [text, barContent?_escape]
  · cases rest with
    | nil => rfl
    | cons next rest => simp [startsDefinition, (exists_text_of_para same next (by simp)).1]

theorem continuesParagraph_of_para : ∀ next ∈ rest, continuesParagraph next := by
  intro next member
  obtain ⟨zero, shown, inside⟩ := exists_text_of_para same next (List.mem_cons_of_mem line member)
  obtain ⟨c, more, begins, _⟩ := shown.begins
  have filled : next.isBlank = false := by
    rw [Line.isBlank, inside, begins]
    rcases exists_escape_cons c more with ⟨_, escaped⟩ | ⟨_, escaped⟩ <;> rw [escaped] <;> rfl
  simp [continuesParagraph, zero, filled]

theorem first_of_para :
    Piece.first line rest =
      (.paragraph ⟨line.number, escape (paragraphText (first :: others)), none, .nothing⟩, []) := by
  have continues := continuesParagraph_of_para same
  have texts : (line :: rest).map Line.text =
      (first :: others).map fun line => escape line.text := by
    have found := congrArg (List.map Row.text) same
    rw [Plain.rows, List.map_map, List.map_map] at found
    exact found
  have unannounced : ∀ found ∈ (line :: rest).map Line.text, unannounced? found = none := by
    intro found member
    rw [texts] at member
    obtain ⟨shown, _, rfl⟩ := List.mem_map.mp member
    exact unannounced?_escape
  rw [Piece.first, construct_of_para same, Construct.take, paragraph,
    List.takeWhile_eq_self_iff.mpr continues, List.dropWhile_eq_nil_iff.mpr continues, paragraphOf,
    paragraphTexts_of_unannounced unannounced, texts, ← escape_paragraphText]
  rfl

/-- The lines of a paragraph are taken up to the end, since none of them is anything but text. -/
theorem readsBack_para : ReadsBack (.para first others) line rest := by
  have taken := first_of_para same
  have plain := adornment?_of_para same
  refine ⟨?_, ?_, ?_, ?_⟩
  · apply headingAt?_of_plain (plain line List.mem_cons_self)
    intro next head _
    exact plain next (List.mem_cons_of_mem line (List.mem_of_mem_head? head))
  · rw [taken]
  · rw [taken, ReadsAs, Piece.block_paragraph, readBlock,
      readParagraph_lines (List.cons_ne_nil _ _), Plain.node]
  · intro more _
    rw [taken]
    exact fun goesOn => goesOn.1 rfl

end para

theorem written_ofText (text : List Char) : (Row.ofText text).written = text := by
  rw [Row.written, Row.ofText, ← takeWhile_eq_replicate, List.takeWhile_append_dropWhile]

theorem flatMap_written_of_rows {lines : List Line} {texts : List (List Char)}
    (same : lines.map Line.row = texts.map Row.ofText) :
    lines.flatMap Line.written = texts.flatMap (· ++ ['\n']) := by
  have written (line : Line) : line.written = line.row.written ++ ['\n'] := rfl
  have left : lines.flatMap Line.written =
      (lines.map Line.row).flatMap fun row => row.written ++ ['\n'] := by
    rw [List.flatMap_map]
    rfl
  rw [left, same, List.flatMap_map]
  simp only [written_ofText]

section literal
variable {text : LiteralText} {lines : List Line}
  (moved : lines.map Line.row = (text.lines.map Row.ofText).map (Row.shift quoteWidth))
include moved

theorem exists_inset_of_literal :
    ∃ next others, lines = next :: others ∧ next.isBlank = false ∧ 0 < next.indent := by
  obtain ⟨first, more, opens, present⟩ := text.begins
  have visible :=
    text_ofText_ne_nil present (text.trimmed first (by rw [opens]; exact List.mem_cons_self))
  rw [opens, List.map_cons, List.map_cons] at moved
  obtain ⟨next, others, rfl, here, _⟩ := List.map_eq_cons_iff.mp moved
  refine ⟨next, others, rfl, ?_, ?_⟩
  · rw [filled_iff_row, here, Row.text_shift]
    exact visible
  · have wide : 0 < quoteWidth := by decide
    have deep : next.indent = (Row.ofText first).indent + quoteWidth :=
      (congrArg Row.indent here).trans (Row.indent_shift visible)
    omega

/-- Below a blank line a literal block is found as it was written, up to the end. -/
theorem announced_of_literal {gap : Line} (hollow : gap.isBlank) (previous : Nat) :
    announced previous (gap :: lines) = (.block (text.lines.flatMap (· ++ ['\n'])), []) := by
  obtain ⟨clean, ends, margin⟩ := rows_literal text
  have wide : 0 < quoteWidth := by decide
  have kept : (dedentBlock (insetBlock lines)).flatMap Line.written =
      text.lines.flatMap (· ++ ['\n']) := by
    rw [insetBlock_of_shift moved wide ends]
    exact flatMap_written_of_rows (rows_dedentBlock moved clean ends margin)
  have after := afterInset_of_shift moved wide ends
  obtain ⟨next, others, rfl, filled, inset⟩ := exists_inset_of_literal moved
  have skipped : skipBlank (gap :: next :: others) = next :: others := by
    rw [skipBlank_cons_of_isBlank hollow, skipBlank_cons_of_filled filled]
  simp only [announced, skipped, inset, if_true, kept, after]

end literal

/-- A literal block is found below the colons that announce it. -/
theorem readsBack_literal {text : LiteralText} {line : Line} {rest : List Line}
    (same : (line :: rest).map Line.row = (Plain.literal text).rows) :
    ReadsBack (.literal text) line rest := by
  rw [Plain.rows, List.map_cons, List.cons.injEq] at same
  obtain ⟨colons, below⟩ := same
  obtain ⟨gap, lines, rfl, blank, moved⟩ := List.map_eq_cons_iff.mp below
  have hollow : gap.isBlank := by rw [isBlank_iff_row, blank]; rfl
  have flush : line.indent = 0 := congrArg Row.indent colons
  have shown : line.text = [':', ':'] := congrArg Row.text colons
  have kind : construct line (gap :: lines) = .paragraph := by
    apply construct_of_no_marker flush
    · simp [startsTransition, Line.width, shown, adornmentWidth]
    · rw [shown]; rfl
    · rw [shown]; rfl
    · rw [shown]; rfl
    · cases lines <;> simp [startsDefinition, hollow]
  have ended : ¬continuesParagraph gap = true := by simp [continuesParagraph, hollow]
  have nothing : paragraphTexts [[':', ':']] = ([], true) := rfl
  have taken : Piece.first line (gap :: lines) =
      (.paragraph ⟨line.number, [], none, .block (text.lines.flatMap (· ++ ['\n']))⟩, []) := by
    rw [Piece.first, kind, Construct.take, paragraph, List.takeWhile_cons_of_neg ended,
      List.dropWhile_cons_of_neg ended, paragraphOf]
    simp only [List.map_cons, List.map_nil, shown, nothing, announced_of_literal moved hollow,
      if_true, List.flatMap_nil, interruption?, hollow]
    rfl
  refine ⟨headingAt?_of_blank_below hollow, ?_, ?_, ?_⟩
  · rw [taken]
  · rw [taken, ReadsAs, Piece.block_paragraph, Plain.node]
    rfl
  · intro more apart
    rw [taken]
    exact fun goesOn => goesOn.2 apart

/-- What is known of the blocks in a body once they are read back. -/
def ReadsBody (blocks : List Plain) : Prop :=
  ∀ lines : List Line, lines.map Line.row = joinRows (blocks.map Plain.rows) →
    ∃ found, arrange lines = found ∧ outline lines = found.map .block ∧
      List.Forall₂ ReadsAs found blocks

theorem readBlocks_of_forall₂ {found : List Block} {blocks : List Plain}
    (each : List.Forall₂ ReadsAs found blocks) :
    readBlocks found = (pure (blocks.map Plain.node) : Reading (List Node)) := by
  induction each with
  | nil => rfl
  | cons here _ ih =>
    rw [ReadsAs] at here
    rw [readBlocks, here, ih]
    rfl

theorem readsBack_quote {blocks : List Plain} (body : IsBody 0 (joinRows (blocks.map Plain.rows)))
    (inner : ReadsBody blocks) {line : Line} {rest : List Line}
    (same : (line :: rest).map Line.row = (Plain.quote blocks).rows) :
    ReadsBack (.quote blocks) line rest := by
  rw [Plain.rows, blockRows_eq_map] at same
  have wide : 0 < quoteWidth := by decide
  have inset : 0 < line.indent := by
    obtain ⟨first, others, opens, flush, c, text, shown, _⟩ := body.opens
    have filled : first.text ≠ [] := by
      rw [shown]
      exact List.cons_ne_nil c text
    rw [opens, List.map_cons, List.map_cons, List.cons.injEq] at same
    have deep : line.indent = first.indent + quoteWidth :=
      (congrArg Row.indent same.1).trans (Row.indent_shift filled)
    omega
  obtain ⟨found, arranged, _, each⟩ := inner (dedentBlock (line :: rest))
    (rows_dedentBlock same body.clean body.ends body.exists_flush)
  have taken : Piece.first line rest = (.quote (dedentBlock (line :: rest)), []) := by
    rw [Piece.first, construct, if_pos inset, Construct.take,
      insetBlock_of_shift same wide body.ends, afterInset_of_shift same wide body.ends]
  refine ⟨?_, ?_, ?_, ?_⟩
  · rw [headingAt?, if_neg (by omega)]
  · rw [taken]
  · rw [taken, ReadsAs, Piece.block_quote, arranged, readBlock, readBlocks_of_forall₂ each,
      Plain.node, blockNodes_eq_map]
    rfl
  · intro more apart
    rw [taken]
    exact fun goesOn => goesOn apart

/-- The line of a label is no adornment, and begins a list of its kind if no text at the margin
follows. -/
theorem construct_of_label {numbered : Bool} {line : Line} {rest : List Line} {c : Char}
    {text : List Char} (visible : isBlank c = false)
    (same : line.row = ⟨0, itemLabel numbered ++ c :: text⟩)
    (below : rest.head?.all Line.isInset) :
    adornment? line.text = none ∧ construct line rest = .list (itemMarker numbered) := by
  have shown : line.text = itemLabel numbered ++ c :: text := congrArg Row.text same
  have spaced : ' ' ∈ line.text := by
    rw [shown]
    cases numbered <;> simp [itemLabel]
  exact ⟨adornment?_of_space spaced, construct_of_marked (at?_of_label visible same) spaced below⟩

/-- A list opens with its label, and its second line is not at the margin. -/
theorem exists_label_of_rows {numbered : Bool} {bodies : List (List Row)} (filled : bodies ≠ [])
    (each : ∀ rows ∈ bodies, IsBody 0 rows) {line : Line} {rest : List Line}
    (same : (line :: rest).map Line.row = joinRows (bodies.map (hang (itemLabel numbered)))) :
    ∃ c text, isBlank c = false ∧ line.row = ⟨0, itemLabel numbered ++ c :: text⟩ ∧
      rest.head?.all Line.isInset := by
  obtain ⟨rows, others, rfl⟩ := List.exists_cons_of_ne_nil filled
  obtain ⟨first, below, rfl, _, c, text, shown, visible⟩ := (each rows List.mem_cons_self).opens
  have hung := isBody_hang (fun found member => each found (List.mem_cons_of_mem _ member)) numbered
  obtain ⟨here, more, whole, item, separate, _⟩ :=
    exists_append_of_joinRows (fun found member => ⟨0, hung found member⟩) same
  obtain ⟨head, inset, rfl, labelled, moved⟩ := List.map_eq_cons_iff.mp item
  rw [List.cons_append, List.cons.injEq] at whole
  obtain ⟨rfl, rfl⟩ := whole
  rw [shown] at labelled
  refine ⟨c, text, visible, labelled, ?_⟩
  cases inset with
  | cons next inset =>
    have wide : 0 < (itemLabel numbered).length := by cases numbered <;> decide
    exact isInset_of_shift moved wide List.mem_cons_self
  | nil =>
    cases more with
    | nil => rfl
    | cons gap more =>
      have hollow : gap.isBlank = true := separate
      simp [Line.isInset, hollow]

/-- Items are read one by one, each as its body. -/
theorem readBlocks_items {items : List (List Plain)} (inner : ∀ item ∈ items, ReadsBody item)
    {found : List (List Line)}
    (rows : found.map (List.map Line.row) = items.map fun item => joinRows (item.map Plain.rows)) :
    readBlocks (found.map fun body => .item (arrange body)) =
      (pure (items.map fun item => .composite .listItem (item.map Plain.node)) :
        Reading (List Node)) := by
  induction items generalizing found with
  | nil =>
    rw [List.map_nil, List.map_eq_nil_iff] at rows
    rw [rows]
    rfl
  | cons item items ih =>
    rw [List.map_cons] at rows
    obtain ⟨body, others, rfl, here, later⟩ := List.map_eq_cons_iff.mp rows
    obtain ⟨blocks, arranged, _, each⟩ := inner item List.mem_cons_self body here
    have rest := ih (fun other member => inner other (List.mem_cons_of_mem item member)) later
    rw [List.map_cons, readBlocks, rest, readBlock, arranged, readBlocks_of_forall₂ each]
    rfl

/-- A list is taken item by item. -/
theorem readsBack_list {numbered : Bool} {items : List (List Plain)} (filled : items ≠ [])
    (bodies : ∀ item ∈ items, IsBody 0 (joinRows (item.map Plain.rows)))
    (inner : ∀ item ∈ items, ReadsBody item) {line : Line} {rest : List Line}
    (same : (line :: rest).map Line.row = (Plain.list numbered items).rows) :
    ReadsBack (.list numbered items) line rest := by
  have parts : itemRows (itemLabel numbered) items =
      (items.map fun item => joinRows (item.map Plain.rows)).map (hang (itemLabel numbered)) := by
    rw [itemRows_eq_map, List.map_map]
    rfl
  rw [Plain.rows, parts] at same
  have each : ∀ rows ∈ items.map fun item => joinRows (item.map Plain.rows), IsBody 0 rows := by
    intro rows member
    obtain ⟨item, inside, rfl⟩ := List.mem_map.mp member
    exact bodies item inside
  obtain ⟨found, taken, rows⟩ := listItems_of_rows numbered each same
  obtain ⟨c, text, visible, labelled, below⟩ := exists_label_of_rows (by simp [filled]) each same
  obtain ⟨plain, kind⟩ := construct_of_label visible labelled below
  have first : Piece.first line rest = (.list (itemMarker numbered) found, []) := by
    rw [Piece.first, kind, Construct.take, taken]
    rfl
  refine ⟨?_, ?_, ?_, ?_⟩
  · apply headingAt?_of_plain plain
    intro next head zero
    rw [head] at below
    have hollow : next.isBlank = true := by simpa [Line.isInset, zero] using below
    rw [List.isEmpty_iff.mp hollow]
    rfl
  · rw [first]
  · rw [first, ReadsAs, Piece.block_list, readBlock, readBlocks_items inner rows, Plain.node,
      itemNodes_eq_map]
    cases numbered <;> rfl
  · intro more apart
    rw [first, Piece.block_list]
    rintro (inset | marked)
    · exact inset apart.1
    · exact marked apart.2

end RstPress.Document
