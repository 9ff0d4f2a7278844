import RstPress.Proofs.Grammar.Inline

/-!
The inline nodes of a paragraph. Their texts are cut after every line feed, so each of them is a line or
a part of one. Since the text of a paragraph ends with a line feed, so does the last node.
-/

namespace RstPress.Inline
open Text RstPress.Tree

/-- A piece has a line feed at its end or nowhere. -/
def IsPiece (piece : List Char) : Prop := piece ≠ [] ∧ '\n' ∉ piece.dropLast

theorem isPiece_of_mem_cutAfterLineFeeds (text : List Char) :
    ∀ piece ∈ cutAfterLineFeeds text, IsPiece piece := by
  fun_induction cutAfterLineFeeds text with
  | case1 => exact List.forall_mem_nil _
  | case2 text ih =>
    exact List.forall_mem_cons.mpr ⟨⟨List.cons_ne_nil _ _, List.not_mem_nil⟩, ih⟩
  | case3 c text other none ih =>
    exact List.forall_mem_singleton.mpr ⟨List.cons_ne_nil _ _, List.not_mem_nil⟩
  | case4 c text other first others cut ih =>
    rw [cut] at ih
    obtain ⟨⟨filled, inner⟩, later⟩ := List.forall_mem_cons.mp ih
    refine List.forall_mem_cons.mpr ⟨⟨List.cons_ne_nil _ _, ?_⟩, later⟩
    rw [List.dropLast_cons_of_ne_nil filled, List.mem_cons, not_or]
    exact ⟨Ne.symm other, inner⟩

/-- Only the last piece can be without a line feed. -/
theorem isChain_cutAfterLineFeeds (text : List Char) :
    (cutAfterLineFeeds text).IsChain fun piece _ => piece.getLast? = some '\n' := by
  fun_induction cutAfterLineFeeds text with
  | case1 => exact .nil
  | case2 text ih => exact List.isChain_cons.mpr ⟨fun _ _ => rfl, ih⟩
  | case3 => exact .singleton _
  | case4 c text other first others cut ih =>
    rw [cut] at ih
    obtain ⟨head, tail⟩ := List.isChain_cons.mp ih
    exact List.isChain_cons.mpr
      ⟨fun second begins => getLast?_cons_of_some (head second begins) c, tail⟩

theorem getLast?_cutAfterLineFeeds {text : List Char} {c : Char} (ends : text.getLast? = some c) :
    ∃ piece, (cutAfterLineFeeds text).getLast? = some piece ∧ piece.getLast? = some c := by
  have whole := flatten_cutAfterLineFeeds text
  rcases List.eq_nil_or_concat (cutAfterLineFeeds text) with none | ⟨front, piece, same⟩
  · rw [← whole, none] at ends
    cases ends
  · rw [List.concat_eq_append] at same
    have filled := (isPiece_of_mem_cutAfterLineFeeds text piece (by rw [same]; simp)).1
    refine ⟨piece, by rw [same, List.getLast?_concat], ?_⟩
    rw [← whole, same, List.flatten_append, List.flatten_singleton,
      List.getLast?_append_of_ne_nil _ filled] at ends
    exact ends

def EndsLine (node : Node) : Prop := ∃ text, node = textNode (text ++ ['\n'])

/-- The inline nodes of a paragraph, with a text for each line of it. A text has a line feed at its end
or nowhere; it has one if another text follows, and the last node is such a text. -/
structure IsParagraph (words : List Node) : Prop where
  inline : ∀ node ∈ words, IsInline node
  lines : ∀ value : String, .text value ∈ words → '\n' ∉ value.toList.dropLast
  apart : words.IsChain fun first second => isText first → isText second → EndsLine first
  ends : ∃ node ∈ words.getLast?, EndsLine node

theorem cutTexts_of_not_isText {node : Node} (other : isText node = false) (nodes : List Node) :
    cutTexts (node :: nodes) = node :: cutTexts nodes := by
  cases node with
  | text => cases other
  | transition | titled | interpreted | composite | unknown | unknownLeaf => rfl

theorem cutTexts_text (value : String) (nodes : List Node) :
    cutTexts (.text value :: nodes) =
      (cutAfterLineFeeds value.toList).map textNode ++ cutTexts nodes := rfl

theorem mem_cutTexts {nodes : List Node} {node : Node} (member : node ∈ cutTexts nodes) :
    (isText node = false ∧ node ∈ nodes) ∨ ∃ piece, IsPiece piece ∧ node = textNode piece := by
  induction nodes with
  | nil => cases member
  | cons first nodes ih =>
    have later (inside : node ∈ cutTexts nodes) := (ih inside).imp_left fun ⟨other, present⟩ =>
      And.intro other (List.mem_cons_of_mem first present)
    cases first with
    | text value =>
      rw [cutTexts_text, List.mem_append] at member
      rcases member with here | inside
      · obtain ⟨piece, present, rfl⟩ := List.mem_map.mp here
        exact .inr ⟨piece, isPiece_of_mem_cutAfterLineFeeds _ piece present, rfl⟩
      · exact later inside
    | transition | titled | interpreted | composite | unknown | unknownLeaf =>
      rw [cutTexts_of_not_isText rfl, List.mem_cons] at member
      rcases member with rfl | inside
      · exact .inl ⟨rfl, List.mem_cons_self⟩
      · exact later inside

theorem endsLine_textNode {piece : List Char} (ends : piece.getLast? = some '\n') :
    EndsLine (textNode piece) := by
  obtain ⟨text, rfl⟩ := List.getLast?_eq_some_iff.mp ends
  exact ⟨text, rfl⟩

theorem isChain_cutTexts {nodes : List Node} (apart : nodes.IsChain Apart) :
    (cutTexts nodes).IsChain fun first second => isText first → isText second → EndsLine first := by
  induction nodes with
  | nil => exact .nil
  | cons node nodes ih =>
    obtain ⟨next, tail⟩ := List.isChain_cons.mp apart
    cases other : isText node with
    | false =>
      rw [cutTexts_of_not_isText other]
      refine List.isChain_cons.mpr ⟨fun _ _ text => ?_, ih tail⟩
      rw [other] at text
      cases text
    | true =>
      obtain ⟨value, rfl⟩ : ∃ value, node = .text value := by
        cases node with
        | text value => exact ⟨value, rfl⟩
        | transition | titled | interpreted | composite | unknown | unknownLeaf => cases other
      have pieces : ((cutAfterLineFeeds value.toList).map textNode).IsChain
          fun first second => isText first → isText second → EndsLine first :=
        (List.isChain_map textNode).mpr
          ((isChain_cutAfterLineFeeds value.toList).imp fun _ _ ends _ _ => endsLine_textNode ends)
      rw [cutTexts_text]
      refine List.isChain_append.mpr ⟨pieces, ih tail, fun _ _ second begins _ text => ?_⟩
      -- The node behind a text is no text, so it is not cut.
      cases nodes with
      | nil => cases begins
      | cons neighbour nodes =>
        have noText : isText neighbour = false := (next neighbour rfl).resolve_left nofun
        rw [cutTexts_of_not_isText noText] at begins
        cases begins
        rw [noText] at text
        cases text

theorem getLast?_cutTexts {nodes : List Node} {text : List Char}
    (ends : nodes.getLast? = some (textNode (text ++ ['\n']))) :
    ∃ node ∈ (cutTexts nodes).getLast?, EndsLine node := by
  obtain ⟨front, rfl⟩ := List.getLast?_eq_some_iff.mp ends
  have feed : (text ++ ['\n']).getLast? = some '\n' := List.getLast?_concat
  obtain ⟨piece, last, whole⟩ := getLast?_cutAfterLineFeeds feed
  refine ⟨textNode piece, ?_, endsLine_textNode whole⟩
  rw [cutTexts, List.flatMap_append, List.flatMap_singleton, List.getLast?_append]
  dsimp only [textNode]
  rw [String.toList_ofList, List.getLast?_map, last]
  rfl

theorem isParagraph_cutTexts {text : List Char} (ends : text.getLast? = some '\n') :
    IsParagraph (cutTexts (nodes text)) := by
  obtain ⟨front, last⟩ := getLast?_nodes_feed ends
  refine ⟨fun node member => ?_, fun value member => ?_,
    isChain_cutTexts (isChain_gather isSound_of_mem_tokens []), getLast?_cutTexts last⟩
  · rcases mem_cutTexts member with ⟨_, present⟩ | ⟨piece, whole, rfl⟩
    · exact isInline_of_mem_nodes text node present
    · exact .text (ofList_ne_empty whole.1)
  · rcases mem_cutTexts member with ⟨other, _⟩ | ⟨piece, whole, same⟩
    · cases other
    · cases same
      rw [String.toList_ofList]
      exact whole.2

end RstPress.Inline
