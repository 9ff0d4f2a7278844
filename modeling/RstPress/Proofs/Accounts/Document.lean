import RstPress.Proofs.Accounts.Inline
import RstPress.Proofs.Accounts.Layout
import RstPress.Proofs.Sections

/-!
The tree of a source accounts for it. Nested bodies are lighter than the lines from which they are
taken, so this is carried from the lines of a body to those that hold it. Sections keep what they
hold.
-/

namespace RstPress.Document
open Text Source Layout RstPress.Tree

/-- What is shown by the nodes that are read in spite of all problems. -/
def shownIn (reading : Reading (List Node)) : List Char := shownBy reading.value

theorem shownIn_readBlocks_cons (block : Block) (blocks : List Block) :
    shownIn (readBlocks (block :: blocks)) =
      shownIn (readBlock block) ++ shownIn (readBlocks blocks) := by
  simp only [shownIn, readBlocks, Reading.value_bind, Reading.value_pure, shownBy_append]

theorem shownIn_readBlocks_append (front back : List Block) :
    shownIn (readBlocks (front ++ back)) =
      shownIn (readBlocks front) ++ shownIn (readBlocks back) := by
  induction front with
  | nil => rfl
  | cons block front ih =>
    rw [List.cons_append, shownIn_readBlocks_cons, shownIn_readBlocks_cons, ih, List.append_assoc]

/-- The lines of a line block are shown in their order, however they are nested. -/
theorem accounts_nest (base : Nat) (entries : List Entry) :
    Accounts (shownIn (readVerses (nest base entries))) (entries.flatMap Entry.text) := by
  fun_induction nest base entries with
  | case1 => exact .refl _
  | case2 base entry others flat ih =>
    have line : shownIn (readVerses (.line entry :: nest base others)) =
        shownBy (Inline.nodes entry.text) ++ shownIn (readVerses (nest base others)) := by
      simp only [shownIn, readVerses, readVerse, readText, Reading.value_bind, Reading.value_pure,
        shownBy_cons, Node.plainText, Inline.nodes]
      rfl
    rw [line, List.flatMap_cons]
    exact (Inline.accounts_nodes entry.text).append ih
  | case3 base entry others deep run inner after =>
    have block : shownIn (readVerses (.block (nest (leastIndent run) run) ::
        nest base (others.dropWhile fun e => base < e.indent))) =
        shownIn (readVerses (nest (leastIndent run) run)) ++
          shownIn (readVerses (nest base (others.dropWhile fun e => base < e.indent))) := by
      simp only [shownIn, readVerses, readVerse, Reading.value_bind, Reading.value_pure,
        shownBy_cons, Node.plainText]
      rfl
    have parts : (entry :: others).flatMap Entry.text =
        run.flatMap Entry.text ++
          (others.dropWhile fun e => base < e.indent).flatMap Entry.text := by
      rw [← List.flatMap_append, List.cons_append, List.takeWhile_append_dropWhile]
    rw [block, parts]
    exact inner.append after

theorem accounts_readParagraph (text : Paragraph) :
    Accounts (shownIn (readParagraph text)) (text.text ++ text.literal.shown) := by
  have lines : Accounts (shownIn (readParagraphText text)) text.text := by
    unfold readParagraphText
    split
    · rename_i empty
      rw [List.isEmpty_iff.mp empty]
      exact .refl _
    · have same :
          shownIn (do return [.composite .paragraph
            (Inline.cutTexts (← readText text.line text.text))]) =
          shownBy (Inline.nodes text.text) := by
        simp only [shownIn, readText, Reading.value_bind, Reading.value_pure, shownBy_cons,
          shownBy_nil, Node.plainText, List.append_nil]
        exact Inline.shownBy_cutTexts _
      rw [same]
      exact Inline.accounts_nodes text.text
  have literal : shownIn (readLiteral text.literal) = text.literal.shown := by
    cases text.literal with
    | nothing => rfl
    | missing line => rfl
    | block shown =>
      simp only [shownIn, readLiteral, Reading.value_pure, shownBy_cons, shownBy_nil,
        Node.plainText, List.append_nil]
      exact Inline.shownBy_textNode shown
  have parts : shownIn (readParagraph text) =
      shownIn (readParagraphText text) ++ shownIn (readLiteral text.literal) := by
    simp only [shownIn, readParagraph, Reading.value_bind, Reading.value_pure, shownBy_append]
  rw [parts, literal]
  exact lines.append (.refl _)

/-- The blocks in a block that has nothing else to show. -/
def bodyOf? : Block → Option (List Block)
  | .quote body | .list _ body | .item body | .definitionList body => some body
  | .stray _ | .transition | .lineBlock _ | .definition _ _ | .paragraph _ => none

theorem shownIn_readBlock_of_body {block : Block} {body : List Block}
    (holds : bodyOf? block = some body) :
    shownIn (readBlock block) = shownIn (readBlocks body) := by
  cases block with
  | stray | transition | lineBlock | definition | paragraph => cases holds
  | quote | list | item | definitionList =>
    rw [← Option.some.inj holds]
    simp only [shownIn, readBlock, Reading.value_bind, Reading.value_pure, shownBy_cons,
      shownBy_nil, Node.plainText, List.append_nil]
    rfl

theorem shownIn_definition (term : Line) (body : List Block) :
    shownIn (readBlock (.definition term body)) =
      shownBy (Inline.nodes term.text) ++ shownIn (readBlocks body) := by
  simp only [shownIn, readBlock, readText, Reading.value_bind, Reading.value_pure, shownBy_cons,
    shownBy_nil, Node.plainText, Node.plainTexts, String.toList_append, List.append_nil,
    Inline.nodes]
  simp [shownBy]

theorem shownIn_stray (heading : Heading) : shownIn (readBlock (.stray heading)) = [] := by
  simp only [shownIn, readBlock, Reading.value_bind, Reading.value_pure, shownBy_nil]

theorem accounts_readBlocks_map {α : Type} {items : List α} {block : α → Block}
    {text : α → List Char}
    (each : ∀ item ∈ items, Accounts (shownIn (readBlock (block item))) (text item)) :
    Accounts (shownIn (readBlocks (items.map block))) (items.flatMap text) := by
  induction items with
  | nil => exact .refl _
  | cons item items ih =>
    rw [List.map_cons, shownIn_readBlocks_cons, List.flatMap_cons]
    exact (each item List.mem_cons_self).append
      (ih fun other member => each other (List.mem_cons_of_mem _ member))

/-- A piece is accounted for if its bodies are. -/
theorem accounts_readBlock {piece : Piece}
    (inner : ∀ body ∈ piece.bodies, Accounts (shownIn (readBlocks (arrange body))) (script body)) :
    Accounts (shownIn (readBlock piece.block)) piece.script := by
  cases piece with
  | quote body =>
    rw [Piece.block_quote, shownIn_readBlock_of_body rfl]
    exact inner body List.mem_cons_self
  | transition => exact .refl _
  | list marker items =>
    rw [Piece.block_list, shownIn_readBlock_of_body rfl]
    apply accounts_readBlocks_map
    intro body member
    rw [shownIn_readBlock_of_body rfl]
    exact inner body member
  | lineBlock entries =>
    have same : shownIn (readBlock (.lineBlock (verses entries))) =
        shownIn (readVerses (verses entries)) := by
      simp only [shownIn, readBlock, Reading.value_bind, Reading.value_pure, shownBy_cons,
        shownBy_nil, Node.plainText, List.append_nil]
      rfl
    rw [Piece.block_lineBlock, same]
    exact accounts_nest _ entries
  | definitionList items =>
    rw [Piece.block_definitionList, shownIn_readBlock_of_body rfl]
    apply accounts_readBlocks_map
    intro item member
    rw [shownIn_definition]
    exact (Inline.accounts_nodes item.1.text).append (inner item.2 (List.mem_map_of_mem member))
  | paragraph text => exact accounts_readParagraph text

theorem shownIn_strays (line : Line) (rest : List Line) :
    shownIn (readBlocks (strays line rest)) = [] := by
  unfold strays
  cases headingAt? line rest with
  | none => rfl
  | some found => exact (shownIn_readBlocks_cons _ []).trans (by rw [shownIn_stray]; rfl)

/-- The blocks of a nested body account for its lines. -/
theorem accounts_arrange (lines : List Line) :
    Accounts (shownIn (readBlocks (arrange lines))) (script lines) := by
  induction size : weight lines using Nat.strong_induction_on generalizing lines with
  | h size ih =>
    cases lines with
    | nil =>
      rw [arrange_nil]
      exact .refl _
    | cons line rest =>
      cases filled : line.isBlank with
      | true =>
        have lighter : weight rest < weight (line :: rest) :=
          weight_lt_of_suffix (List.suffix_refl rest)
        rw [arrange_of_blank rest filled, script_cons, List.isEmpty_iff.mp filled, List.nil_append]
        exact ih _ (by omega) rest rfl
      | false =>
        obtain ⟨bodies, after⟩ := Piece.weight_first rest filled
        have piece : Accounts (shownIn (readBlock (Piece.first line rest).1.block))
            (Piece.first line rest).1.script := by
          apply accounts_readBlock
          intro body member
          have lighter := bodies body member
          exact ih _ (by omega) body rfl
        rw [arrange_of_filled rest filled, shownIn_readBlocks_append, shownIn_strays,
          List.nil_append, shownIn_readBlocks_cons]
        apply Accounts.trans _ (accounts_first line rest)
        exact piece.append (ih _ (by omega) _ rfl)

/-- What an element shows. -/
def Element.shown : Element → List Char
  | .title _ content => shownBy content
  | .body node => node.plainText.toList

theorem flatMap_shown_body (nodes : List Node) :
    (nodes.map Element.body).flatMap Element.shown = shownBy nodes := by
  induction nodes with
  | nil => rfl
  | cons node nodes ih => rw [List.map_cons, List.flatMap_cons, ih, shownBy_cons, Element.shown]

/-- The elements of a document account for its lines. -/
theorem accounts_outline (styles : List Style) (last : UInt32) (lines : List Line) :
    Accounts ((elementsOf styles last (outline lines)).flatMap Element.shown) (script lines) := by
  fun_induction outline lines generalizing styles last with
  | case1 => exact .refl _
  | case2 line rest blank ih =>
    rw [script_cons, List.isEmpty_iff.mp blank, List.nil_append]
    exact ih styles last
  | case3 line rest visible heading after found ih =>
    rw [elementsOf_heading, List.flatMap_cons]
    apply Accounts.trans _ (accounts_heading found)
    exact (Inline.accounts_nodes heading.text).append (ih _ _)
  | case4 line rest visible none ih =>
    rw [elementsOf_block, List.flatMap_append, flatMap_shown_body]
    apply Accounts.trans _ (accounts_first line rest)
    exact (accounts_readBlock fun body _ => accounts_arrange body).append (ih _ _)

/-- Sections show what their elements show. -/
theorem shownBy_sections (elements : List Element) :
    shownBy (sections elements) = elements.flatMap Element.shown := by
  fun_induction sections elements with
  | case1 => rfl
  | case2 node elements ih => rw [shownBy_cons, ih, List.flatMap_cons, Element.shown]
  | case3 depth content elements inside after =>
    have title (body : List Node) :
        (Node.titled depth content body).plainText.toList = shownBy content ++ shownBy body := by
      rw [Node.plainText, String.toList_append]
      rfl
    rw [shownBy_cons, title, inside, after, List.append_assoc, ← List.flatMap_append,
      List.takeWhile_append_dropWhile, List.flatMap_cons, Element.shown]

/-- The text of a tree accounts for the source from which it is read. -/
theorem parse_accounts (options : ReadOptions) (source : String) :
    ∃ tree, parse { options with strict := false } source = .ok tree ∧
      Accounts tree.plainText.toList source.toList := by
  refine ⟨_, parse_of_lenient _ rfl source, ?_⟩
  have shown := shownBy_sections (elementsOf [] 0 (outline (lines options.tabWidth source.toList)))
  rw [shownBy] at shown
  rw [Node.plainText, shown]
  exact (accounts_outline [] 0 _).trans (accounts_lines options.tabWidth source.toList)

end RstPress.Document
