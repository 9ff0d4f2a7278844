import RstPress.Proofs.Extension.Kinds
import RstPress.Proofs.Grammar.Layout
import RstPress.Proofs.Nesting.Depth

/-!
The grammar of document trees. Every source, read in spite of all problems, gives a tree of this
grammar, since every piece of its lines does, and so do the pieces nested in them.
-/

namespace RstPress.Grammar
open Text Source Layout Inline RstPress.Tree Document

/-- The inline nodes of something that is not empty. -/
structure IsPhrase (words : List Node) : Prop where
  filled : words ≠ []
  inline : ∀ node ∈ words, IsInline node

/-- The lines of a line block and the blocks between them. -/
inductive IsVerse : Node → Prop where
  | line {words : List Node} (inline : ∀ node ∈ words, IsInline node) : IsVerse (.composite .line words)
  | block {verses : List Node} (filled : verses ≠ []) (inner : ∀ node ∈ verses, IsVerse node) :
    IsVerse (.composite .lineBlock verses)

def listItem (body : List Node) : Node := .composite .listItem body

def definitionItem (item : List Node × List Node) : Node :=
  .unknown definitionItemKind [.unknown termKind item.1, .unknown definitionKind item.2]

/-- The blocks of body text. -/
inductive IsBody : Node → Prop where
  | transition : IsBody .transition
  | paragraph {words : List Node} (whole : IsParagraph words) : IsBody (.composite .paragraph words)
  | literalBlock (text : LiteralText) :
    IsBody (.composite .literalBlock [textNode (text.lines.flatMap (· ++ ['\n']))])
  | list (marker : Marker) {items : List (List Node)} (filled : items ≠ [])
    (inner : ∀ body ∈ items, ∀ node ∈ body, IsBody node) :
    IsBody (.composite (listKind marker) (items.map listItem))
  | definitionList {items : List (List Node × List Node)} (filled : items ≠ [])
    (terms : ∀ item ∈ items, IsPhrase item.1) (inner : ∀ item ∈ items, ∀ node ∈ item.2, IsBody node) :
    IsBody (.composite .definitionList (items.map definitionItem))
  | lineBlock {verses : List Node} (filled : verses ≠ []) (inner : ∀ node ∈ verses, IsVerse node) :
    IsBody (.composite .lineBlock verses)
  | blockQuote {body : List Node} (inner : ∀ node ∈ body, IsBody node) :
    IsBody (.composite .blockQuote body)

inductive IsSection : Node → Prop where
  | titled {depth : UInt32} {title bodies subsections : List Node} (deep : 1 ≤ depth)
    (phrase : IsPhrase title) (inner : ∀ node ∈ bodies, IsBody node)
    (below : ∀ node ∈ subsections, IsSection node) :
    IsSection (.titled depth title (bodies ++ subsections))

inductive IsDocument : Node → Prop where
  | document {bodies subsections : List Node} (inner : ∀ node ∈ bodies, IsBody node)
    (below : ∀ node ∈ subsections, IsSection node) :
    IsDocument (.composite .document (bodies ++ subsections))

theorem isPhrase_nodes {text : List Char} (visible : MayClose none text) : IsPhrase (nodes text) :=
  ⟨nodes_ne_nil visible, isInline_of_mem_nodes text⟩

/-- The blocks of the lines read in spite of all problems. -/
def bodyOf (lines : List Line) : List Node := (readBlocks (arrange lines) : Reading (List Node)).value

theorem value_readVerses_ne_nil (base : Nat) {entries : List Entry} (filled : entries ≠ []) :
    (readVerses (nest base entries) : Reading (List Node)).value ≠ [] := by
  obtain ⟨entry, others, rfl⟩ := List.exists_cons_of_ne_nil filled
  rw [nest]
  split
  all_goals
    simp only [readVerses, Reading.value_bind, Reading.value_pure]
    exact List.cons_ne_nil _ _

theorem isVerse_nest (base : Nat) (entries : List Entry) :
    ∀ node ∈ (readVerses (nest base entries) : Reading (List Node)).value, IsVerse node := by
  fun_induction nest base entries with
  | case1 => exact List.forall_mem_nil _
  | case2 base entry others flat ih =>
    simp only [readVerses, readVerse, readText, Reading.value_bind, Reading.value_pure]
    exact List.forall_mem_cons.mpr ⟨.line (isInline_of_mem_nodes entry.text), ih⟩
  | case3 base entry others deep run inner after =>
    simp only [readVerses, readVerse, Reading.value_bind, Reading.value_pure]
    have filled : (readVerses (nest (leastIndent run) run) : Reading (List Node)).value ≠ [] :=
      value_readVerses_ne_nil _ (List.cons_ne_nil _ _)
    exact List.forall_mem_cons.mpr ⟨.block filled inner, after⟩

theorem value_readBlocks_items (items : List (List Line)) :
    (readBlocks (items.map fun body => .item (arrange body)) : Reading (List Node)).value =
      (items.map bodyOf).map listItem := by
  induction items with
  | nil => rfl
  | cons body items ih =>
    simp only [List.map_cons, readBlocks, readBlock, Reading.value_bind, Reading.value_pure, ih]
    rfl

theorem value_readBlocks_definitions (items : List (Line × List Line)) :
    (readBlocks (items.map fun item => .definition item.1 (arrange item.2)) :
      Reading (List Node)).value =
      (items.map (Prod.map (fun term => nodes term.text) bodyOf)).map definitionItem := by
  induction items with
  | nil => rfl
  | cons item items ih =>
    simp only [List.map_cons, readBlocks, readBlock, readText, Reading.value_bind, Reading.value_pure,
      ih]
    rfl

theorem isBody_readParagraph {text : Paragraph} (sound : (Piece.paragraph text).IsSound) :
    ∀ node ∈ (readParagraph text : Reading (List Node)).value, IsBody node := by
  obtain ⟨ends, literal⟩ := sound
  simp only [readParagraph, Reading.value_bind, Reading.value_pure]
  refine List.forall_mem_append.mpr ⟨?_, ?_⟩
  · unfold readParagraphText
    split
    · exact List.forall_mem_nil _
    · rename_i filled
      simp only [readText, Reading.value_bind, Reading.value_pure]
      have last := ends.resolve_left (by simpa using filled)
      exact List.forall_mem_singleton.mpr (.paragraph (isParagraph_cutTexts last))
  · cases found : text.literal with
    | nothing | missing => exact List.forall_mem_nil _
    | block shown =>
      rw [found] at literal
      obtain ⟨lines, rfl⟩ := literal
      exact List.forall_mem_singleton.mpr (.literalBlock lines)

/-- A piece is of the grammar if its bodies are. -/
theorem isBody_readBlock {piece : Piece} (sound : piece.IsSound)
    (inner : ∀ body ∈ piece.bodies, ∀ node ∈ bodyOf body, IsBody node) :
    ∀ node ∈ (readBlock piece.block : Reading (List Node)).value, IsBody node := by
  cases piece with
  | quote body =>
    simp only [Piece.block_quote, readBlock, Reading.value_bind, Reading.value_pure]
    exact List.forall_mem_singleton.mpr (.blockQuote (inner body List.mem_cons_self))
  | transition => exact List.forall_mem_singleton.mpr .transition
  | list marker items =>
    simp only [Piece.block_list, readBlock, Reading.value_bind, Reading.value_pure,
      value_readBlocks_items]
    exact List.forall_mem_singleton.mpr
      (.list marker (mt List.map_eq_nil_iff.mp sound) (List.forall_mem_map.mpr inner))
  | lineBlock entries =>
    simp only [Piece.block_lineBlock, readBlock, Reading.value_bind, Reading.value_pure]
    exact List.forall_mem_singleton.mpr
      (.lineBlock (value_readVerses_ne_nil _ sound) (isVerse_nest _ entries))
  | definitionList items =>
    obtain ⟨filled, terms⟩ := sound
    simp only [Piece.block_definitionList, readBlock, Reading.value_bind, Reading.value_pure,
      value_readBlocks_definitions]
    refine List.forall_mem_singleton.mpr (.definitionList (mt List.map_eq_nil_iff.mp filled)
      (List.forall_mem_map.mpr fun item member => isPhrase_nodes (terms item member))
      (List.forall_mem_map.mpr fun item member => ?_))
    exact inner item.2 (List.mem_map_of_mem member)
  | paragraph text => exact isBody_readParagraph sound

theorem value_readBlocks_cons (block : Block) (blocks : List Block) :
    (readBlocks (block :: blocks) : Reading (List Node)).value =
      (readBlock block : Reading (List Node)).value ++
        (readBlocks blocks : Reading (List Node)).value := by
  simp only [readBlocks, Reading.value_bind, Reading.value_pure]

theorem value_readBlocks_strays (line : Line) (rest : List Line) :
    (readBlocks (strays line rest) : Reading (List Node)).value = [] := by
  unfold strays
  cases headingAt? line rest with
  | none => rfl
  | some found =>
    exact (value_readBlocks_cons _ []).trans
      (by simp only [readBlock, readBlocks, Reading.value_bind, Reading.value_pure, List.append_nil])

section pieces
variable {p : Line → Prop} (keeps : Line.Keeps p) {q : Node → Prop}
  (piece : ∀ {line : Line} {rest : List Line}, (∀ other ∈ line :: rest, p other) →
    (∀ body ∈ (Piece.first line rest).1.bodies, ∀ node ∈ bodyOf body, q node) →
    ∀ node ∈ (readBlock (Piece.first line rest).1.block : Reading (List Node)).value, q node)
include keeps piece

/-- What is so of the nodes of a piece whenever it is so of its nested bodies, is so of the nodes of a
whole text, provided that its lines are what the piece asks of them. -/
theorem forall_mem_bodyOf {lines : List Line} (each : ∀ line ∈ lines, p line) :
    ∀ node ∈ bodyOf lines, q node := by
  induction size : weight lines using Nat.strong_induction_on generalizing lines with
  | h size ih =>
    cases lines with
    | nil =>
      rw [bodyOf, arrange_nil]
      exact List.forall_mem_nil _
    | cons line rest =>
      cases filled : line.isBlank with
      | true =>
        have lighter : weight rest < weight (line :: rest) :=
          weight_lt_of_suffix (List.suffix_refl rest)
        rw [bodyOf, arrange_of_blank rest filled]
        exact ih _ (by omega) (List.forall_mem_cons.mp each).2 rfl
      | false =>
        obtain ⟨bodies, after⟩ := Piece.weight_first rest filled
        obtain ⟨eachBody, eachAfter⟩ := forall_first keeps each
        have here : ∀ node ∈ (readBlock (Piece.first line rest).1.block : Reading (List Node)).value,
            q node := by
          apply piece each
          intro body member
          have lighter := bodies body member
          exact ih _ (by omega) (eachBody body member) rfl
        rw [bodyOf, arrange_of_filled rest filled, value_readBlocks_append, value_readBlocks_strays,
          List.nil_append, value_readBlocks_cons]
        exact List.forall_mem_append.mpr ⟨here, ih _ (by omega) eachAfter rfl⟩

/-- The same of the elements of a document, with a demand on its titles. -/
theorem forall_mem_elementsOf {t : List Node → Prop}
    (title : ∀ {line : Line} {rest after : List Line} {heading : Heading},
      (∀ other ∈ line :: rest, p other) → line.isBlank = false →
      headingAt? line rest = some (heading, after) → t (nodes heading.text))
    (seen : List Style) (last : UInt32) {lines : List Line} (each : ∀ line ∈ lines, p line) :
    (∀ depth content, .title depth content ∈ elementsOf seen last (outline lines) → t content) ∧
      ∀ node, .body node ∈ elementsOf seen last (outline lines) → q node := by
  fun_induction outline lines generalizing seen last with
  | case1 =>
    exact ⟨fun _ _ member => absurd member List.not_mem_nil,
      fun _ member => absurd member List.not_mem_nil⟩
  | case2 line rest blank ih => exact ih seen last (List.forall_mem_cons.mp each).2
  | case3 line rest visible heading after found ih =>
    have later : ∀ other ∈ after, p other := fun other member =>
      each other (List.mem_cons_of_mem line ((headingAt?_suffix found).subset member))
    obtain ⟨titles, bodies⟩ := ih _ _ later
    rw [elementsOf_heading]
    refine ⟨fun depth content member => ?_, fun node member => ?_⟩
    · rcases List.mem_cons.mp member with here | behind
      · cases here
        exact title each (by simpa using visible) found
      · exact titles depth content behind
    · rcases List.mem_cons.mp member with here | behind
      · cases here
      · exact bodies node behind
  | case4 line rest visible none ih =>
    obtain ⟨inner, after⟩ := forall_first keeps each
    obtain ⟨titles, bodies⟩ := ih seen last after
    rw [elementsOf_block]
    refine ⟨fun depth content member => ?_, fun node member => ?_⟩
    · rcases List.mem_append.mp member with here | behind
      · obtain ⟨node, _, same⟩ := List.mem_map.mp here
        cases same
      · exact titles depth content behind
    · rcases List.mem_append.mp member with here | behind
      · obtain ⟨shown, present, same⟩ := List.mem_map.mp here
        cases same
        exact piece each (fun body member => forall_mem_bodyOf keeps piece (inner body member)) node
          present
      · exact bodies node behind

end pieces

/-- Elements of which sections can be made. -/
structure IsSound (elements : List Element) : Prop where
  deep : ∀ depth content, .title depth content ∈ elements → 1 ≤ depth
  titles : ∀ depth content, .title depth content ∈ elements → IsPhrase content
  bodies : ∀ node, .body node ∈ elements → IsBody node

theorem isPhrase_of_mem_elementsOf (seen : List Style) (last : UInt32) {lines : List Line}
    (clean : ∀ line ∈ lines, line.row.Clean) :
    (∀ depth content, .title depth content ∈ elementsOf seen last (outline lines) → IsPhrase content) ∧
      ∀ node, .body node ∈ elementsOf seen last (outline lines) → IsBody node :=
  forall_mem_elementsOf keeps_clean (fun clean inner => isBody_readBlock (isSound_first clean) inner)
    (fun clean filled found => isPhrase_nodes (mayClose_of_headingAt? clean filled found)) seen last clean

theorem IsSound.sublist {some all : List Element} (sound : IsSound all) (kept : some.Sublist all) :
    IsSound some :=
  ⟨fun depth content member => sound.deep depth content (kept.subset member),
    fun depth content member => sound.titles depth content (kept.subset member),
    fun node member => sound.bodies node (kept.subset member)⟩

theorem isSound_elementsOf (tabWidth : Nat) (source : String) :
    IsSound (elementsOf [] 0 (outline (lines tabWidth source.toList))) := by
  have clean : ∀ line ∈ lines tabWidth source.toList, line.row.Clean := fun line member =>
    clean_of_mem_linesFrom member
  obtain ⟨titles, bodies⟩ := isPhrase_of_mem_elementsOf [] 0 clean
  refine ⟨fun depth content member => ?_, titles, bodies⟩
  have positive : 0 < depth.toNat :=
    pos_of_mem_titleDepths tabWidth source (mem_titleDepths.mpr ⟨depth, content, member, rfl⟩)
  exact UInt32.le_iff_toNat_le.mpr positive

theorem titled?_of_isBody {node : Node} (body : IsBody node) : titled? node = none := by
  cases body <;> rfl

/-- Sections come behind the body nodes, at the top and in every section. -/
theorem exists_parts_of_sections {elements : List Element} (sound : IsSound elements) :
    ∃ bodies subsections, sections elements = bodies ++ subsections ∧
      (∀ node ∈ bodies, IsBody node) ∧ ∀ node ∈ subsections, IsSection node := by
  fun_induction sections elements with
  | case1 => exact ⟨[], [], rfl, List.forall_mem_nil _, List.forall_mem_nil _⟩
  | case2 node elements ih =>
    obtain ⟨bodies, subsections, same, inner, below⟩ := ih (sound.sublist (List.sublist_cons_self _ _))
    exact ⟨node :: bodies, subsections, by rw [same, List.cons_append],
      List.forall_mem_cons.mpr ⟨sound.bodies node List.mem_cons_self, inner⟩, below⟩
  | case3 depth content elements inside after =>
    have later := sound.sublist (List.sublist_cons_self (.title depth content) elements)
    obtain ⟨bodies, subsections, same, inner, below⟩ :=
      inside (later.sublist (List.takeWhile_sublist _))
    obtain ⟨plain, others, behind, bodiesBehind, sectionsBehind⟩ :=
      after (later.sublist (List.dropWhile_sublist _))
    -- Behind a section there are only sections, so no body node is left there.
    have none : plain = [] := by
      apply List.eq_nil_iff_forall_not_mem.mpr
      intro node member
      obtain ⟨_, _, _, rfl, _⟩ := sections_of_head (fun first => isBelow_of_head_dropWhile) node
        (behind ▸ List.mem_append_left others member)
      cases titled?_of_isBody (bodiesBehind _ member)
    have here : IsSection (.titled depth content (bodies ++ subsections)) :=
      .titled (sound.deep depth content List.mem_cons_self)
        (sound.titles depth content List.mem_cons_self) inner below
    refine ⟨[], _, rfl, List.forall_mem_nil _, List.forall_mem_cons.mpr ⟨same ▸ here, ?_⟩⟩
    rw [behind, none]
    exact sectionsBehind

theorem isDocument_of_source (tabWidth : Nat) (source : String) :
    IsDocument (.composite .document
      (sections (elementsOf [] 0 (outline (lines tabWidth source.toList))))) := by
  obtain ⟨bodies, subsections, same, inner, below⟩ :=
    exists_parts_of_sections (isSound_elementsOf tabWidth source)
  exact same ▸ .document inner below

end RstPress.Grammar
