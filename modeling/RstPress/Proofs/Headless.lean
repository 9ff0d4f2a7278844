import RstPress.Proofs.Sections

/-!
A document without sections is read from an outline without headings, and its nodes and its problems
are those of the blocks alone. Such a text can be read as a nested body as well.
-/

namespace RstPress.Layout
open Source

/-- Where no heading is found, a nested body is arranged like a document. -/
theorem arrange_of_outline {lines : List Line} {blocks : List Block}
    (outlined : outline lines = blocks.map .block) : arrange lines = blocks := by
  fun_induction outline lines generalizing blocks with
  | case1 =>
    rw [eq_comm, List.map_eq_nil_iff] at outlined
    rw [arrange_nil, outlined]
  | case2 line rest blank ih => rw [arrange_of_blank rest blank, ih outlined]
  | case3 line rest visible heading after found ih => cases blocks <;> cases outlined
  | case4 line rest visible none ih =>
    obtain ⟨block, others, rfl, here, later⟩ := List.map_eq_cons_iff.mp outlined.symm
    rw [Part.block.injEq] at here
    rw [arrange_of_filled rest (by simpa using visible), strays, none, ih later.symm, here]
    rfl

end RstPress.Layout

namespace RstPress.Document
open Layout Source RstPress.Tree

theorem sections_map_body (nodes : List Node) : sections (nodes.map .body) = nodes := by
  induction nodes with
  | nil => rw [List.map_nil, sections]
  | cons node nodes ih => rw [List.map_cons, sections, ih]

theorem flattenAll_of_untitled {nodes : List Node} (untitled : ∀ node ∈ nodes, node.title? = none) :
    flattenAll nodes = nodes.map .body := by
  induction nodes with
  | nil => rfl
  | cons node nodes ih =>
    have here : flatten node = [.body node] := by
      have single := untitled node List.mem_cons_self
      cases node with
      | titled => cases single
      | text | transition | interpreted | composite | unknown | unknownLeaf =>
        rw [flatten]
        intro depth title body same
        cases same
    rw [flattenAll, here, ih fun other member => untitled other (List.mem_cons_of_mem node member)]
    rfl

theorem readParts_blocks (styles : List Style) (last : UInt32) (blocks : List Block) :
    readParts styles last (blocks.map .block) =
      (do return (← readBlocks blocks).map .body : Reading (List Element)) := by
  induction blocks with
  | nil => rfl
  | cons block blocks ih =>
    simp only [List.map_cons, readParts, ih, readBlocks, bind_assoc, pure_bind, List.map_append]

theorem elementsOf_blocks (styles : List Style) (last : UInt32) (blocks : List Block) :
    elementsOf styles last (blocks.map .block) =
      (readBlocks blocks : Reading (List Node)).value.map .body := by
  rw [elementsOf, readParts_blocks, Reading.value_bind, Reading.value_pure]

/-- Only blocks make body nodes and no title. -/
theorem exists_blocks_of_elementsOf {styles : List Style} {last : UInt32} {parts : List Part}
    {nodes : List Node} (same : elementsOf styles last parts = nodes.map .body) :
    ∃ blocks : List Block, parts = blocks.map .block := by
  induction parts generalizing nodes with
  | nil => exact ⟨[], rfl⟩
  | cons part parts ih =>
    cases part with
    | heading heading =>
      rw [elementsOf_heading] at same
      cases nodes <;> cases same
    | block block =>
      rw [elementsOf_block] at same
      obtain ⟨_, others, _, _, later⟩ := List.map_eq_append_iff.mp same.symm
      obtain ⟨blocks, rfl⟩ := ih later.symm
      exact ⟨block :: blocks, rfl⟩

theorem read_of_blocks {tabWidth : Nat} {source : String} {blocks : List Block}
    (outlined : outline (lines tabWidth source.toList) = blocks.map .block) :
    read tabWidth source =
      (do return .composite .document (← readBlocks blocks) : Reading Node) := by
  simp only [read, nestSections_eq, readElements, outlined, readParts_blocks, bind_assoc, pure_bind,
    sections_map_body]

/-- An outline without headings makes a document of the nodes of its blocks. -/
theorem parse_of_blocks {options : ReadOptions} (lenient : options.strict = false) {source : String}
    {blocks : List Block}
    (outlined : outline (lines options.tabWidth source.toList) = blocks.map .block) :
    parse options source =
        .ok (.composite .document (readBlocks blocks : Reading (List Node)).value) ∧
      problems options source = (readBlocks blocks : Reading (List Node)).problems := by
  have whole := read_of_blocks outlined
  constructor
  · rw [parse, lenient, if_neg Bool.false_ne_true, whole, Reading.value_bind, Reading.value_pure]
  · rw [problems, whole, Reading.problems_bind, Reading.problems_pure, List.append_nil]

/-- Flush lines that are one paragraph. -/
theorem parse_of_paragraph {source : List Char} {line : Line} {rest : List Line} {text : List Char}
    (same : lines 8 source = line :: rest) (filled : line.isBlank = false)
    (noHeading : headingAt? line rest = none) (kind : construct line rest = .paragraph)
    (taken : paragraph line rest = (⟨1, text, none, .nothing⟩, [])) (shown : text.isEmpty = false) :
    ∃ words, parse {} (String.ofList source) =
      .ok (.composite .document [.composite .paragraph words]) := by
  have outlined : outline (lines 8 (String.ofList source).toList) =
      [Block.paragraph ⟨1, text, none, .nothing⟩].map .block := by
    rw [String.toList_ofList, same, outline_of_piece filled noHeading, Piece.first, kind,
      Construct.take, taken]
    simp
  have lenient : ({} : ReadOptions).strict = false := rfl
  have parsed := (parse_of_blocks lenient outlined).1
  simp only [readBlocks, readBlock, readParagraph, readParagraphText, shown, readLiteral,
    Reading.value_bind, Reading.value_pure, Bool.false_eq_true, if_false, List.append_nil] at parsed
  exact ⟨_, parsed⟩

/-- A document without sections has the body nodes of its outline and no other elements. -/
theorem parse_eq_ok_iff_of_untitled {options : ReadOptions} (lenient : options.strict = false)
    {source : String} {nodes : List Node} (untitled : ∀ node ∈ nodes, node.title? = none) :
    parse options source = .ok (.composite .document nodes) ↔
      elementsOf [] 0 (outline (lines options.tabWidth source.toList)) = nodes.map .body := by
  rw [parse_of_lenient options lenient, Except.ok.injEq, Node.composite.injEq]
  constructor
  · rintro ⟨_, rfl⟩
    exact (flattenAll_sections_elementsOf [] 0 _).symm.trans (flattenAll_of_untitled untitled)
  · intro flat
    rw [flat, sections_map_body]
    exact ⟨rfl, rfl⟩

/-- The blocks of a document without sections. -/
theorem exists_blocks_of_untitled {options : ReadOptions} (lenient : options.strict = false)
    {source : String} {nodes : List Node}
    (parsed : parse options source = .ok (.composite .document nodes))
    (untitled : ∀ node ∈ nodes, node.title? = none) :
    ∃ blocks : List Block, outline (lines options.tabWidth source.toList) = blocks.map .block ∧
      (readBlocks blocks : Reading (List Node)).value = nodes ∧
      (readBlocks blocks : Reading (List Node)).problems = problems options source := by
  obtain ⟨blocks, outlined⟩ :=
    exists_blocks_of_elementsOf ((parse_eq_ok_iff_of_untitled lenient untitled).mp parsed)
  obtain ⟨found, reported⟩ := parse_of_blocks lenient outlined
  rw [parsed, Except.ok.injEq, Node.composite.injEq] at found
  exact ⟨blocks, outlined, found.2.symm, reported.symm⟩

theorem readBlocks_append (front back : List Block) :
    readBlocks (front ++ back) =
      (do return (← readBlocks front) ++ (← readBlocks back) : Reading (List Node)) := by
  induction front with
  | nil => simp only [List.nil_append, readBlocks, pure_bind, bind_pure]
  | cons block front ih =>
    simp only [List.cons_append, readBlocks, ih, bind_assoc, pure_bind, List.append_assoc]

end RstPress.Document
