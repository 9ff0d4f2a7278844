import RstPress.Proofs.Characters.Inline
import RstPress.Proofs.Grammar.Document

/-!
Of which characters the tree of a source is made. Lines are moved, cut and joined on their way into the
tree, and this takes nothing but spaces and line feeds that the source does not have.
-/

namespace RstPress.Source
open Text

theorem forall_mem_lines {p : Char → Prop} (space : p ' ') {source : List Char}
    (all : ∀ c ∈ source, p c) (tabWidth : Nat) :
    ∀ line ∈ lines tabWidth source, ∀ c ∈ line.text, p c := by
  intro line member c inside
  obtain ⟨text, shownText, number, rfl⟩ := exists_text_of_mem_numberFrom member
  obtain ⟨raw, present, rfl⟩ := List.mem_map.mp shownText
  have within := (dropEndWhile_isPrefix isBlank _).subset ((List.dropWhile_sublist _).subset inside)
  rcases mem_expandTabs within with rfl | ⟨own, _⟩
  · exact space
  · exact all c (mem_of_mem_splitLines present own)

/-- Lines keep their characters when they are moved, and lose some when they are cut. -/
theorem keeps_characters (p : Char → Prop) : Line.Keeps fun line => ∀ c ∈ line.text, p c :=
  ⟨fun _ here => here, fun here ending _ c member => here c (ending.subset member)⟩

theorem forall_mem_written {p : Char → Prop} (space : p ' ') (feed : p '\n') {line : Line}
    (all : ∀ c ∈ line.text, p c) : ∀ c ∈ line.written, p c := by
  rw [Line.written]
  refine List.forall_mem_append.mpr ⟨List.forall_mem_append.mpr ⟨fun c member => ?_, all⟩,
    List.forall_mem_singleton.mpr feed⟩
  rw [(List.mem_replicate.mp member).2]
  exact space

end RstPress.Source

namespace RstPress.Layout
open Text Source Inline RstPress.Tree Document Grammar

/-- All characters that a piece takes from its lines for itself are of one kind. -/
def Piece.MadeOf (p : Char → Prop) : Piece → Prop
  | .quote _ | .transition | .list .. => True
  | .lineBlock entries => ∀ entry ∈ entries, ∀ c ∈ entry.text, p c
  | .definitionList items => ∀ item ∈ items, ∀ c ∈ item.1.text, p c
  | .paragraph text => (∀ c ∈ text.text, p c) ∧ ∀ literal, text.literal = .block literal → ∀ c ∈ literal, p c

section characters
variable {p : Char → Prop} (usual : ∀ c, isUsual c → p c)

theorem forall_mem_joinLines (space : p ' ') {text : List Char} (all : ∀ c ∈ text, p c)
    {lines : List Line} (each : ∀ line ∈ lines, ∀ c ∈ line.text, p c) :
    ∀ c ∈ joinLines text lines, p c := by
  unfold joinLines
  induction lines generalizing text with
  | nil => exact all
  | cons line lines ih =>
    obtain ⟨here, later⟩ := List.forall_mem_cons.mp each
    refine ih (List.forall_mem_append.mpr ⟨?_, here⟩) later
    split
    · exact all
    · exact List.forall_mem_append.mpr ⟨all, List.forall_mem_singleton.mpr space⟩

theorem suffix_of_barContent? {text content : List Char} (found : barContent? text = some content) :
    content <:+ text := by
  unfold barContent? at found
  split at found
  · cases found
  · split at found
    · split at found
      · cases found
        exact List.nil_suffix
      · rw [Option.ite_none_right_eq_some] at found
        cases found.2
        exact (List.suffix_cons _ _).trans (List.suffix_cons _ _)
    · cases found

theorem forall_mem_entries (space : p ' ') (above : Nat) {lines : List Line}
    (each : ∀ line ∈ lines, ∀ c ∈ line.text, p c) :
    ∀ entry ∈ (entries above lines).1, ∀ c ∈ entry.text, p c := by
  fun_induction entries above lines with
  | case1 => exact List.forall_mem_nil _
  | case2 => exact List.forall_mem_nil _
  | case3 above line rest content bar indent others remaining taken ih =>
    obtain ⟨here, later⟩ := List.forall_mem_cons.mp each
    have after := ih fun other member => later other ((List.dropWhile_sublist _).subset member)
    rw [taken] at after
    refine List.forall_mem_cons.mpr ⟨forall_mem_joinLines space (fun c member => here c ?_)
      fun other member => later other ((List.takeWhile_sublist _).subset member), after⟩
    have behind := suffix_of_barContent? (Option.ite_none_right_eq_some.mp bar).2
    exact behind.subset ((List.dropWhile_sublist _).subset member)

theorem forall_mem_unannounced {text : List Char} {texts : List (List Char)}
    (found : unannounced? text = some texts) (all : ∀ c ∈ text, p c) :
    ∀ other ∈ texts, ∀ c ∈ other, p c := by
  unfold unannounced? at found
  split at found
  · rename_i last previous front reversed
    rw [Option.ite_none_right_eq_some] at found
    have back : ∀ c ∈ last :: previous :: front, p c := fun c member =>
      all c (List.mem_reverse.mp (reversed ▸ member))
    obtain ⟨_, behind⟩ := List.forall_mem_cons.mp back
    cases front with
    | nil =>
      cases found.2
      exact List.forall_mem_nil _
    | cons c front =>
      cases found.2
      refine List.forall_mem_singleton.mpr ?_
      split
      · intro d member
        have kept := List.mem_reverse.mp ((dropEndWhile_isPrefix isBlank _).subset member)
        exact behind d (List.mem_cons_of_mem _ (List.mem_cons_of_mem _ kept))
      · exact fun d member => behind d (List.mem_reverse.mp member)
  · cases found

theorem forall_mem_paragraphTexts {texts : List (List Char)} (each : ∀ text ∈ texts, ∀ c ∈ text, p c) :
    ∀ text ∈ (paragraphTexts texts).1, ∀ c ∈ text, p c := by
  fun_induction paragraphTexts texts with
  | case1 => exact List.forall_mem_nil _
  | case2 last found announced =>
    exact forall_mem_unannounced announced (each last List.mem_cons_self)
  | case3 last kept => exact each
  | case4 text others more ih =>
    obtain ⟨here, later⟩ := List.forall_mem_cons.mp each
    exact List.forall_mem_cons.mpr ⟨here, ih later⟩

theorem forall_mem_announced (space : p ' ') (feed : p '\n') (previous : Nat) {lines : List Line}
    (each : ∀ line ∈ lines, ∀ c ∈ line.text, p c) :
    ∀ literal, (announced previous lines).1 = .block literal → ∀ c ∈ literal, p c := by
  intro literal found
  unfold announced at found
  split at found
  · cases found
  · rename_i next rest first
    split at found
    · cases found
      have kept := forall_insetBlock (first ▸ forall_skipBlank each)
      exact List.forall_mem_flatMap.mpr fun line member =>
        forall_mem_written space feed (forall_dedentBlock kept (keeps_characters p) line member)
    · cases found

theorem madeOf_paragraph (space : p ' ') (feed : p '\n') {line : Line} {rest : List Line}
    (each : ∀ other ∈ line :: rest, ∀ c ∈ other.text, p c) :
    (Piece.paragraph (paragraph line rest).1).MadeOf p := by
  obtain ⟨here, later⟩ := List.forall_mem_cons.mp each
  have own : ∀ other ∈ line :: rest.takeWhile continuesParagraph, ∀ c ∈ other.text, p c :=
    List.forall_mem_cons.mpr
      ⟨here, fun other member => later other ((List.takeWhile_sublist _).subset member)⟩
  refine ⟨?_, ?_⟩
  · have texts := forall_mem_paragraphTexts (List.forall_mem_map.mpr own)
    exact List.forall_mem_flatMap.mpr fun text member =>
      List.forall_mem_append.mpr ⟨texts text member, List.forall_mem_singleton.mpr feed⟩
  · simp only [paragraph, paragraphOf]
    split
    · exact forall_mem_announced space feed _ fun other member =>
        later other ((List.dropWhile_sublist _).subset member)
    · intro literal none
      cases none

include usual

theorem madeOf_first {line : Line} {rest : List Line}
    (each : ∀ other ∈ line :: rest, ∀ c ∈ other.text, p c) : (Piece.first line rest).1.MadeOf p := by
  have space := usual ' ' (by decide)
  have feed := usual '\n' (by decide)
  unfold Piece.first
  cases construct line rest with
  | quote | transition | list => trivial
  | lineBlock => exact forall_mem_entries space 0 each
  | definitionList => exact fun item member => ((forall_definitions (keeps_characters p) each).1 item member).1
  | paragraph => exact madeOf_paragraph space feed each

theorem madeOf_nest (base : Nat) {entries : List Entry} (all : ∀ entry ∈ entries, ∀ c ∈ entry.text, p c) :
    ∀ node ∈ (readVerses (nest base entries) : Reading (List Node)).value, node.MadeOf p := by
  fun_induction nest base entries with
  | case1 => exact List.forall_mem_nil _
  | case2 base entry others flat ih =>
    obtain ⟨here, later⟩ := List.forall_mem_cons.mp all
    simp only [readVerses, readVerse, readText, Reading.value_bind, Reading.value_pure]
    exact List.forall_mem_cons.mpr ⟨.composite (madeOf_nodes usual here), ih later⟩
  | case3 base entry others deep run inner after =>
    obtain ⟨here, later⟩ := List.forall_mem_cons.mp all
    simp only [readVerses, readVerse, Reading.value_bind, Reading.value_pure]
    have own : ∀ entry ∈ run, ∀ c ∈ entry.text, p c := List.forall_mem_cons.mpr
      ⟨here, fun other member => later other ((List.takeWhile_sublist _).subset member)⟩
    exact List.forall_mem_cons.mpr ⟨.composite (inner own),
      after fun other member => later other ((List.dropWhile_sublist _).subset member)⟩

theorem madeOf_readParagraph {text : Paragraph} (made : (Piece.paragraph text).MadeOf p) :
    ∀ node ∈ (readParagraph text : Reading (List Node)).value, node.MadeOf p := by
  obtain ⟨own, literal⟩ := made
  simp only [readParagraph, Reading.value_bind, Reading.value_pure]
  refine List.forall_mem_append.mpr ⟨?_, ?_⟩
  · unfold readParagraphText
    split
    · exact List.forall_mem_nil _
    · simp only [readText, Reading.value_bind, Reading.value_pure]
      exact List.forall_mem_singleton.mpr (.composite (madeOf_cutTexts (madeOf_nodes usual own)))
  · cases found : text.literal with
    | nothing | missing => exact List.forall_mem_nil _
    | block shown =>
      have inner := List.forall_mem_singleton.mpr (madeOf_textNode (literal shown found))
      exact List.forall_mem_singleton.mpr (.composite inner)

/-- The nodes of a piece are made of the characters of the piece and of its nested bodies. -/
theorem madeOf_readBlock {piece : Piece} (made : piece.MadeOf p)
    (inner : ∀ body ∈ piece.bodies, ∀ node ∈ bodyOf body, node.MadeOf p) :
    ∀ node ∈ (readBlock piece.block : Reading (List Node)).value, node.MadeOf p := by
  cases piece with
  | quote body =>
    simp only [Piece.block_quote, readBlock, Reading.value_bind, Reading.value_pure]
    exact List.forall_mem_singleton.mpr (.composite (inner body List.mem_cons_self))
  | transition => exact List.forall_mem_singleton.mpr .transition
  | list marker items =>
    simp only [Piece.block_list, readBlock, Reading.value_bind, Reading.value_pure,
      value_readBlocks_items]
    refine List.forall_mem_singleton.mpr (.composite (List.forall_mem_map.mpr ?_))
    exact List.forall_mem_map.mpr fun body member => .composite (inner body member)
  | lineBlock entries =>
    simp only [Piece.block_lineBlock, readBlock, Reading.value_bind, Reading.value_pure]
    exact List.forall_mem_singleton.mpr (.composite (madeOf_nest usual _ made))
  | definitionList items =>
    simp only [Piece.block_definitionList, readBlock, Reading.value_bind, Reading.value_pure,
      value_readBlocks_definitions]
    refine List.forall_mem_singleton.mpr (.composite (List.forall_mem_map.mpr ?_))
    refine List.forall_mem_map.mpr fun item member => .unknown (forall_of_usual usual (by decide)) ?_
    refine List.forall_mem_cons.mpr ⟨?_, List.forall_mem_singleton.mpr ?_⟩
    · exact .unknown (forall_of_usual usual (by decide)) (madeOf_nodes usual (made item member))
    · exact .unknown (forall_of_usual usual (by decide))
        (inner item.2 (List.mem_map_of_mem (f := Prod.snd) member))
  | paragraph text => exact madeOf_readParagraph usual made

omit usual in
theorem madeOf_sections {elements : List Element}
    (titles : ∀ depth content, .title depth content ∈ elements → ∀ node ∈ content, node.MadeOf p)
    (bodies : ∀ node, .body node ∈ elements → node.MadeOf p) :
    ∀ node ∈ sections elements, node.MadeOf p := by
  fun_induction sections elements with
  | case1 => exact List.forall_mem_nil _
  | case2 node elements ih =>
    refine List.forall_mem_cons.mpr ⟨bodies node List.mem_cons_self, ih ?_ ?_⟩
    · exact fun depth content member => titles depth content (List.mem_cons_of_mem _ member)
    · exact fun other member => bodies other (List.mem_cons_of_mem _ member)
  | case3 depth content elements inside after =>
    have inner {some : List Element} (kept : some.Sublist elements) :
        (∀ depth content, .title depth content ∈ some → ∀ node ∈ content, node.MadeOf p) ∧
          ∀ node, .body node ∈ some → node.MadeOf p :=
      ⟨fun depth content member => titles depth content (List.mem_cons_of_mem _ (kept.subset member)),
        fun node member => bodies node (List.mem_cons_of_mem _ (kept.subset member))⟩
    have within := inner (List.takeWhile_sublist (Element.isBelow depth))
    have behind := inner (List.dropWhile_sublist (Element.isBelow depth))
    refine List.forall_mem_cons.mpr ⟨?_, after behind.1 behind.2⟩
    exact .titled (titles depth content List.mem_cons_self) (inside within.1 within.2)

/-- The tree of a source is made of the characters of the source, of spaces and line feeds, and of those
in the type names of its nodes. -/
theorem madeOf_document (tabWidth : Nat) {source : String} (all : ∀ c ∈ source.toList, p c) :
    (Node.composite .document
      (sections (elementsOf [] 0 (outline (lines tabWidth source.toList))))).MadeOf p := by
  have each := forall_mem_lines (usual ' ' (by decide)) all tabWidth
  obtain ⟨titles, bodies⟩ := forall_mem_elementsOf (keeps_characters p)
    (fun each inner => madeOf_readBlock usual (madeOf_first usual each) inner)
    (t := fun content => ∀ node ∈ content, node.MadeOf p)
    (fun each filled found => by
      obtain ⟨title, member, _, same, _⟩ := exists_title_of_headingAt? filled found
      exact same ▸ madeOf_nodes usual (each title member)) [] 0 each
  exact .composite (madeOf_sections titles bodies)

end characters

end RstPress.Layout
