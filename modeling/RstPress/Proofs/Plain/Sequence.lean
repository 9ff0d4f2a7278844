import RstPress.Proofs.Headless
import RstPress.Proofs.Plain.Reading
import RstPress.Proofs.Strictness

/-!
Plain blocks are read back from their text. In a sequence each block is followed by a blank line and
by a block with which it does not go on, so it is taken as if it were alone; the nodes of nested
bodies are found in the same way.
-/

namespace RstPress.Document
open Text Source Layout Inline RstPress.Tree

/-- The first row of a block that may stand after a list is at the margin and has not the label of
the list. -/
theorem exists_row_of_mayPrecede {numbered : Bool} {items : List (List Plain)} {next : Plain}
    (follows : (Plain.list numbered items).MayPrecede next) (wellFormed : next.WellFormed) :
    ∃ text others, next.rows = ⟨0, text⟩ :: others ∧ (itemMarker numbered).width? text = none := by
  cases wellFormed with
  | para first others =>
    refine ⟨escape first.text, others.map fun line => ⟨0, escape line.text⟩, rfl, ?_⟩
    cases numbered with
    | false => exact width?_bullet_escape '-' first.text
    | true => exact (width?_enumerator _).trans (enumeratorWidth?_escape first.text)
  | literal text => exact ⟨_, _, rfl, by cases numbered <;> rfl⟩
  | quote blocks => exact follows.elim
  | list other found filled sequence inner =>
    obtain ⟨item, more, rfl⟩ := List.exists_cons_of_ne_nil filled
    have each : ∀ block ∈ item, IsBody block.column block.rows :=
      fun block member => isBody_rows (inner item List.mem_cons_self block member)
    obtain ⟨present, ordered⟩ := sequence item List.mem_cons_self
    obtain ⟨first, below, opened, _⟩ := (isBody_sequence present ordered each).opens
    obtain ⟨rest, joined⟩ := exists_joinRows_cons (hang (itemLabel other) (first :: below))
      (itemRows (itemLabel other) more)
    refine ⟨itemLabel other ++ first.text, below.map (Row.shift (itemLabel other).length) ++ rest,
      ?_, ?_⟩
    · rw [Plain.rows, itemRows, blockRows_eq_map, opened, joined]
      rfl
    · have different : numbered ≠ other := follows
      cases numbered with
      | false =>
        cases other with
        | false => exact absurd rfl different
        | true => simp [itemMarker, itemLabel, Marker.width?]
      | true =>
        cases other with
        | true => exact absurd rfl different
        | false =>
          have noLabel : isOrdinal [] = false := rfl
          simp [itemMarker, itemLabel, Marker.width?, enumeratorWidth?, isEnumeratorChar, noLabel]

theorem not_isQuote_of_mayPrecede {block next : Plain} (follows : block.MayPrecede next)
    (other : ∀ first others, block ≠ .para first others) : ¬next.IsQuote := by
  intro quote
  cases next with
  | para | list | literal => exact quote
  | quote =>
    cases block with
    | para first others => exact other first others rfl
    | list | quote | literal => exact follows

section follows
variable {others : List Plain} (wellFormed : ∀ other ∈ others, other.WellFormed)
  {more : List Line} (placed : (skipBlank more).map Line.row = joinRows (others.map Plain.rows))
include wellFormed placed

/-- If no quote is the first of the blocks that follow, they begin at the margin. -/
theorem insetBlock_of_not_isQuote
    (plain : ∀ next, others.head? = some next → ¬next.IsQuote) : insetBlock more = [] := by
  apply insetBlock_of_flush_rows placed
  intro row head
  cases others with
  | nil => cases head
  | cons next others =>
    obtain ⟨rest, joined⟩ := exists_joinRows_cons next.rows (others.map Plain.rows)
    have body := isBody_rows (wellFormed next List.mem_cons_self)
    obtain ⟨first, below, opened, flush, _⟩ := body.opens
    rw [List.map_cons, joined, opened] at head
    rw [← Option.some.inj head, flush, Plain.column_eq_zero (plain next rfl)]

theorem listItems_of_chain {numbered : Bool} {items : List (List Plain)}
    (chain : (Plain.list numbered items :: others).IsChain Plain.MayPrecede) :
    (listItems (itemMarker numbered) (skipBlank more)).1 = [] := by
  cases others with
  | nil =>
    have none : skipBlank more = [] := by simpa [joinRows] using placed
    rw [none, listItems_nil]
  | cons next others =>
    obtain ⟨rest, joined⟩ := exists_joinRows_cons next.rows (others.map Plain.rows)
    obtain ⟨text, below, opened, unlabelled⟩ := exists_row_of_mayPrecede
      (List.isChain_cons_cons.mp chain).1 (wellFormed next List.mem_cons_self)
    rw [List.map_cons, joined, opened] at placed
    obtain ⟨line, after, same, begins, _⟩ := List.map_eq_cons_iff.mp placed
    have unmarked : (itemMarker numbered).at? line = none := by
      have shown : line.text = text := congrArg Row.text begins
      rw [Marker.at?, shown, unlabelled, ite_self]
    rw [same, listItems_of_unmarked after unmarked]

/-- What follows a block in a sequence does not go on with it. -/
theorem apart_of_chain {block : Plain} (chain : (block :: others).IsChain Plain.MayPrecede) :
    block.Apart more := by
  have bounded (other : ∀ first others, block ≠ .para first others) : insetBlock more = [] := by
    apply insetBlock_of_not_isQuote wellFormed placed
    intro next head
    cases others with
    | nil => cases head
    | cons first others =>
      rw [← Option.some.inj head]
      exact not_isQuote_of_mayPrecede (List.isChain_cons_cons.mp chain).1 other
  cases block with
  | para => trivial
  | quote | literal => exact bounded nofun
  | list numbered items => exact ⟨bounded nofun, listItems_of_chain wellFormed placed chain⟩

end follows

/-- A block that is read without a problem is still read so if only a missing literal block could
differ. -/
theorem readsAs_of_alike {a b : Block} (alike : a.Alike b) {plain : Plain}
    (same : ReadsAs a plain) : ReadsAs b plain := by
  rw [ReadsAs] at same ⊢
  cases alike with
  | same => exact same
  | @paragraph text literal alike =>
    generalize given : text.literal = announced at alike
    cases alike with
    | same => rwa [← given]
    | missing =>
      have quiet := congrArg Reading.problems same
      simp only [readBlock, readParagraph, given, readLiteral, Reading.problems_bind,
        Reading.problems_note, Reading.problems_pure] at quiet
      simp at quiet

/-- Blocks in a sequence are read one by one. -/
theorem readsBody_of_sequence {blocks : List Plain} (chain : blocks.IsChain Plain.MayPrecede)
    (wellFormed : ∀ block ∈ blocks, block.WellFormed)
    (each : ∀ block ∈ blocks, ∀ line rest,
      (line :: rest).map Line.row = block.rows → ReadsBack block line rest) :
    ReadsBody blocks := by
  induction blocks with
  | nil =>
    intro lines same
    rw [List.map_nil, joinRows, List.map_eq_nil_iff] at same
    exact ⟨[], by rw [same, arrange_nil], by rw [same, outline_nil]; rfl, .nil⟩
  | cons block others ih =>
    intro lines same
    have later : ∀ other ∈ others, other.WellFormed :=
      fun other member => wellFormed other (List.mem_cons_of_mem block member)
    have bodies := exists_isBody_of_wellFormed later
    obtain ⟨here, more, rfl, rows, separate, placed⟩ := exists_append_of_joinRows bodies same
    obtain ⟨first, below, opened, _, c, text, shown, _⟩ :=
      (isBody_rows (wellFormed block List.mem_cons_self)).opens
    have begins := rows
    rw [opened] at begins
    obtain ⟨line, rest, rfl, equal, _⟩ := List.map_eq_cons_iff.mp begins
    have filled : line.isBlank = false := by
      rw [filled_iff_row, equal, shown]
      exact List.cons_ne_nil c text
    have back := each block List.mem_cons_self line rest rows
    have noHeading := headingAt?_append_of_none separate back.noHeading
    have empty : skipBlank (Piece.first line rest).2 = [] := by rw [back.whole]; rfl
    obtain ⟨alike, after⟩ := Piece.first_append_of_eq_nil separate filled empty
      (back.stays more (apart_of_chain later placed chain))
    obtain ⟨found, arranged, outlined, nodes⟩ := ih (List.isChain_of_isChain_cons chain) later
      (fun other member => each other (List.mem_cons_of_mem block member)) (skipBlank more) placed
    refine ⟨(Piece.first line (rest ++ more)).1.block :: found, ?_, ?_,
      .cons (readsAs_of_alike alike back.node) nodes⟩
    · rw [List.cons_append, arrange_of_filled _ filled, strays, noHeading,
        arrange_eq_arrange_skipBlank, after, arranged]
      rfl
    · rw [List.cons_append, outline_of_piece filled noHeading, outline_eq_outline_skipBlank, after,
        outlined]
      rfl

/-- Every well-formed block is read back. -/
theorem readsBack_of_wellFormed {block : Plain} (wellFormed : block.WellFormed) :
    ∀ line rest, (line :: rest).map Line.row = block.rows → ReadsBack block line rest := by
  induction wellFormed with
  | para first others => exact fun line rest same => readsBack_para same
  | literal text => exact fun line rest same => readsBack_literal same
  | quote blocks filled sequence inner ih =>
    intro line rest same
    have body :=
      isBody_sequence filled sequence fun block member => isBody_rows (inner block member)
    exact readsBack_quote body (readsBody_of_sequence sequence.next inner ih) same
  | list numbered items filled sequence inner ih =>
    intro line rest same
    apply readsBack_list filled _ _ same
    · intro item member
      obtain ⟨present, ordered⟩ := sequence item member
      exact isBody_sequence present ordered fun block inside =>
        isBody_rows (inner item member block inside)
    · intro item member
      exact readsBody_of_sequence (sequence item member).2.next (inner item member) (ih item member)

/-- The text of plain blocks. -/
def writtenText (blocks : List Plain) : List Char := textOf (joinRows (blocks.map Plain.rows))

/-- Plain blocks are read back from their text without a problem, whether its last line is ended or
not. -/
theorem read_writtenText {blocks : List Plain} (sequence : IsSequence blocks)
    (wellFormed : ∀ block ∈ blocks, block.WellFormed) {source : List Char}
    (written : source = writtenText blocks ∨ source ++ ['\n'] = writtenText blocks)
    (tabWidth : Nat) :
    read tabWidth (String.ofList source) =
      (pure (.composite .document (blocks.map Plain.node)) : Reading Node) := by
  have bodies := exists_isBody_of_wellFormed wellFormed
  have rows := rows_lines (clean_joinRows bodies) (endsVisibly_joinRows bodies) written tabWidth
  obtain ⟨found, _, outlined, each⟩ := readsBody_of_sequence sequence.next wellFormed
    (fun block member => readsBack_of_wellFormed (wellFormed block member)) _ rows
  rw [← String.toList_ofList (l := source)] at outlined
  rw [read_of_blocks outlined, readBlocks_of_forall₂ each, pure_bind]

end RstPress.Document

namespace RstPress
open Document

/-- Strict and lenient reading give back the blocks of a written text, for every tab width. -/
theorem parse_writtenText (options : ReadOptions) {blocks : List Plain}
    (sequence : IsSequence blocks) (wellFormed : ∀ block ∈ blocks, block.WellFormed)
    {source : List Char}
    (written : source = writtenText blocks ∨ source ++ ['\n'] = writtenText blocks) :
    parse options (String.ofList source) = .ok (.composite .document (blocks.map Plain.node)) ∧
      problems options (String.ofList source) = [] := by
  have whole := read_writtenText sequence wellFormed written options.tabWidth
  have quiet : problems options (String.ofList source) = [] := by rw [problems, whole]; rfl
  have lenient : parse { options with strict := false } (String.ofList source) =
      .ok (.composite .document (blocks.map Plain.node)) := by
    rw [parse, if_neg (by simp), whole]
    rfl
  refine ⟨?_, quiet⟩
  cases mode : options.strict with
  | true => rw [parse_of_strict options mode, quiet, lenient]
  | false =>
    rw [← lenient]
    simp only [parse, mode]

def markedLine : TextLine where
  text := "1. *a* | b::".toList
  begins := ⟨'1', ". *a* | b::".toList, by decide, by decide⟩
  ends := ⟨"1. *a* | b:".toList, ':', by decide, by decide⟩
  plain := by decide

def codeLines : LiteralText where
  lines := ["if x:".toList, [], "  ====".toList]
  plain := by decide
  trimmed := by
    intro line member
    simp only [List.mem_cons, List.not_mem_nil, or_false] at member
    rcases member with rfl | rfl | rfl
    · exact .inr ⟨"if x".toList, ':', by decide, by decide⟩
    · exact .inl rfl
    · exact .inr ⟨"  ===".toList, '=', by decide, by decide⟩
  begins := ⟨"if x:".toList, _, rfl, by decide⟩
  ends := ⟨["if x:".toList, []], "  ====".toList, by decide, by decide⟩
  flush := ⟨"if x:".toList, by decide, by decide, by decide⟩

/-- A paragraph, a quote and a list, with lines that look like other things. -/
def nestedBlocks : List Plain :=
  [.para markedLine [], .quote [.list false [[.literal codeLines], [.para markedLine []]]],
    .list true [[.para markedLine []]]]

theorem isSequence_single {block : Plain} (plain : ¬block.IsQuote) : IsSequence [block] := by
  refine ⟨fun first same => ?_, List.isChain_singleton block⟩
  rw [← Option.some.inj same]
  exact plain

theorem isSequence_nestedBlocks : IsSequence nestedBlocks := by
  refine ⟨fun first same => ?_, ?_⟩
  · rw [← Option.some.inj same]
    exact id
  · simp [nestedBlocks, Plain.MayPrecede]

theorem wellFormed_nestedBlocks : ∀ block ∈ nestedBlocks, block.WellFormed := by
  have code : ∀ block ∈ [Plain.literal codeLines], block.WellFormed := by
    intro block member
    rw [List.mem_singleton.mp member]
    exact .literal codeLines
  have line : ∀ block ∈ [Plain.para markedLine []], block.WellFormed := by
    intro block member
    rw [List.mem_singleton.mp member]
    exact .para markedLine []
  have bullets : (Plain.list false [[.literal codeLines], [.para markedLine []]]).WellFormed := by
    refine .list false _ (List.cons_ne_nil _ _) ?_ ?_
    · intro item member
      simp only [List.mem_cons, List.not_mem_nil, or_false] at member
      rcases member with rfl | rfl
      · exact ⟨List.cons_ne_nil _ _, isSequence_single id⟩
      · exact ⟨List.cons_ne_nil _ _, isSequence_single id⟩
    · intro item member
      simp only [List.mem_cons, List.not_mem_nil, or_false] at member
      rcases member with rfl | rfl
      · exact code
      · exact line
  intro block member
  simp only [nestedBlocks, List.mem_cons, List.not_mem_nil, or_false] at member
  rcases member with rfl | rfl | rfl
  · exact .para markedLine []
  · refine .quote _ (List.cons_ne_nil _ _) (isSequence_single id) ?_
    intro inner inside
    rw [List.mem_singleton.mp inside]
    exact bullets
  · refine .list true _ (List.cons_ne_nil _ _) ?_ ?_
    · intro item inside
      rw [List.mem_singleton.mp inside]
      exact ⟨List.cons_ne_nil _ _, isSequence_single id⟩
    · intro item inside
      rw [List.mem_singleton.mp inside]
      exact line

example : String.ofList (writtenText nestedBlocks) =
    "1\\. \\*a\\* \\| b\\:\\:\n\n    - ::\n\n          if x:\n\n            ====\n\n" ++
      "    - 1\\. \\*a\\* \\| b\\:\\:\n\n1. 1\\. \\*a\\* \\| b\\:\\:\n" := by
  decide +kernel

theorem parse_writtenText_nested :
    IsSequence nestedBlocks ∧ (∀ block ∈ nestedBlocks, block.WellFormed) ∧
      parse {} (String.ofList (writtenText nestedBlocks)) =
        .ok (.composite .document (nestedBlocks.map Plain.node)) ∧
      problems {} (String.ofList (writtenText nestedBlocks)) = [] :=
  ⟨isSequence_nestedBlocks, wellFormed_nestedBlocks,
    parse_writtenText {} isSequence_nestedBlocks wellFormed_nestedBlocks (.inl rfl)⟩

end RstPress
