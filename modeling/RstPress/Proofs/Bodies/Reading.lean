import RstPress.Proofs.Bodies.Outline
import RstPress.Proofs.Extension.Blank
import RstPress.Proofs.Headless
import RstPress.Proofs.Places.Reading
import RstPress.Wire.Node

/-!
A text without sections is read alike wherever it is nested: in a quote, in a list item, and in a
definition it gives the nodes that it gives as a document, and the problems are the same.
-/

namespace RstPress.Source
open Text Document

/-- The lines of a text that is moved down and to the right. -/
theorem dropEndWhile_linesFrom_indented {text : List Char} (untabbed : '\t' ∉ text)
    (tabWidth below columns : Nat) :
    dropEndWhile Line.isBlank (linesFrom tabWidth (1 + below) (indented columns text)) =
      ((dropEndWhile Line.isBlank (lines tabWidth text)).map (Line.relocate (· + below))).map
        (Line.shift columns) := by
  rw [linesFrom_indented untabbed, dropEndWhile_map_shift, ← linesFrom_relocate, dropEndWhile_map]
  rfl

theorem isBody_relocate {column : Nat} {body : List Line} (whole : IsBody column (body.map Line.row))
    (move : Nat → Nat) : IsBody column ((body.map (Line.relocate move)).map Line.row) := by
  rw [List.map_map]
  exact whole

end RstPress.Source

namespace RstPress.Document
open Text Source Layout RstPress.Tree

section term
variable {term : List Char} (letters : ∀ c ∈ term, c.isAlpha)
include letters

theorem escape_of_letters : escape term = term := by
  induction term with
  | nil => rfl
  | cons c term ih =>
    have plain := isPunctuation_of_isAlpha (letters c List.mem_cons_self)
    rw [escape, plain, if_neg Bool.false_ne_true,
      ih fun other member => letters other (List.mem_cons_of_mem c member)]

theorem readText_of_letters (filled : term ≠ []) (line : Nat) :
    (readText line term : Reading (List Node)) = pure [.text (.ofList term)] := by
  have found := readText_escape filled line
  rwa [escape_of_letters letters] at found

theorem notMem_of_letters {c : Char} (other : c.isAlpha = false) : c ∉ term := by
  intro member
  rw [letters c member] at other
  cases other

/-- Letters are shown as they are. -/
theorem ofText_shown_of_letters (filled : term ≠ []) (width number : Nat) :
    Line.ofText number (shown width term) = ⟨0, term, number⟩ := by
  obtain ⟨front, last, rfl⟩ := List.eq_nil_or_concat term |>.resolve_left filled
  rw [List.concat_eq_append] at letters ⊢
  have visible : isBlank last = false :=
    isBlank_of_isAlphanum last (by simp [Char.isAlphanum, letters last (by simp)])
  have begins : (front ++ [last]).head? ≠ some ' ' := fun space =>
    notMem_of_letters letters (by decide) (List.mem_of_mem_head? space)
  rw [shown_append_of_visible front visible,
    expandTabs_of_no_tab (notMem_of_letters letters (by decide)), ofText_of_begins begins]

end term

section body
variable {options : ReadOptions} (lenient : options.strict = false) {c : Char} {text : List Char}
  (visible : isBlank c = false) (untabbed : '\t' ∉ c :: text) {nodes : List Node}
  (parsed : parse options (.ofList (c :: text)) = .ok (.composite .document nodes))
  (untitled : ∀ node ∈ nodes, node.title? = none)
include lenient parsed untitled

/-- What a nested body is read as, if its lines are those of the text alone. -/
theorem readBlocks_arrange_body :
    (readBlocks (arrange (dropEndWhile Line.isBlank (lines options.tabWidth (c :: text)))) :
        Reading (List Node)).value = nodes ∧
      (readBlocks (arrange (dropEndWhile Line.isBlank (lines options.tabWidth (c :: text)))) :
        Reading (List Node)).problems = problems options (.ofList (c :: text)) := by
  obtain ⟨blocks, outlined, value, reported⟩ := exists_blocks_of_untitled lenient parsed untitled
  rw [String.toList_ofList, ← outline_dropEndWhile] at outlined
  -- Without a section no heading was found, so the top of a document and a body are arranged alike.
  rw [arrange_of_outline outlined]
  exact ⟨value, reported⟩

include visible untabbed

theorem parse_indented {columns : Nat} (inset : 0 < columns) :
    parse options (.ofList (indented columns (c :: text))) =
        .ok (.composite .document [.composite .blockQuote nodes]) ∧
      problems options (.ofList (indented columns (c :: text))) =
        problems options (.ofList (c :: text)) := by
  have whole := isBody_lines visible untabbed options.tabWidth
  obtain ⟨value, reported⟩ := readBlocks_arrange_body lenient parsed untitled
  generalize body : dropEndWhile Line.isBlank (lines options.tabWidth (c :: text)) = found at *
  have outlined :
      outline (lines options.tabWidth (String.ofList (indented columns (c :: text))).toList) =
        [Block.quote (arrange found)].map .block := by
    rw [String.toList_ofList]
    calc
      outline (lines options.tabWidth (indented columns (c :: text)))
      _ = outline ((lines options.tabWidth (c :: text)).map (Line.shift columns)) := by
        rw [lines_eq_linesFrom, linesFrom_indented untabbed, lines_eq_linesFrom]
      _ = outline (found.map (Line.shift columns)) := by
        rw [← outline_dropEndWhile, dropEndWhile_map_shift, body]
      _ = [.block (.quote (arrange found))] := outline_quote whole inset
  obtain ⟨tree, same⟩ := parse_of_blocks lenient outlined
  rw [tree, same, ← reported, ← value]
  simp only [readBlocks, readBlock, Reading.value_bind, Reading.value_pure, Reading.problems_bind,
    Reading.problems_pure, List.append_nil, and_self]

theorem parse_hung {marker : Marker} {label : List Char}
    (labelled : marker.width? label = some label.length) :
    parse options (.ofList (hung label (c :: text))) =
        .ok (.composite .document [.composite (listKind marker) [.composite .listItem nodes]]) ∧
      problems options (.ofList (hung label (c :: text))) =
        problems options (.ofList (c :: text)) := by
  have whole := isBody_lines visible untabbed options.tabWidth
  obtain ⟨value, reported⟩ := readBlocks_arrange_body lenient parsed untitled
  have oneLine : '\n' ∉ label := notMem_label labelled (by decide) (by decide)
  have noTab : '\t' ∉ label := notMem_label labelled (by decide) (by decide)
  obtain ⟨after, rest, same, moved⟩ :=
    lines_hung visible untabbed oneLine noTab (head?_label labelled) options.tabWidth
  rw [same, dropEndWhile_cons (by rfl)] at whole value reported
  have outlined :
      outline (lines options.tabWidth (String.ofList (hung label (c :: text))).toList) =
        [Block.list marker
          [.item (arrange (⟨0, c :: after, 1⟩ :: dropEndWhile Line.isBlank rest))]].map .block := by
    have filled : (⟨0, label ++ ' ' :: c :: after, 1⟩ : Line).isBlank = false := by
      simp [Line.isBlank]
    rw [String.toList_ofList]
    calc
      outline (lines options.tabWidth (hung label (c :: text)))
      _ = outline (⟨0, label ++ ' ' :: c :: after, 1⟩ ::
            (dropEndWhile Line.isBlank rest).map (Line.shift (label.length + 1))) := by
        rw [moved, ← outline_dropEndWhile, dropEndWhile_cons filled, dropEndWhile_map_shift]
      _ = _ := outline_item labelled visible whole
  obtain ⟨tree, reports⟩ := parse_of_blocks lenient outlined
  rw [tree, reports, ← reported, ← value]
  simp only [readBlocks, readBlock, Reading.value_bind, Reading.value_pure, Reading.problems_bind,
    Reading.problems_pure, List.append_nil, and_self]

/-- Below a term the text is one line further down. -/
theorem parse_defined {term : List Char} (filled : term ≠ []) (letters : ∀ c ∈ term, c.isAlpha)
    {columns : Nat} (inset : 0 < columns) :
    parse options (.ofList (term ++ '\n' :: indented columns (c :: text))) =
        .ok (.composite .document [.composite .definitionList
          [.unknown definitionItemKind
            [.unknown termKind [.text (.ofList term)], .unknown definitionKind nodes]]]) ∧
      problems options (.ofList (term ++ '\n' :: indented columns (c :: text))) =
        (problems options (.ofList (c :: text))).map (Problem.relocate (· + 1)) := by
  have whole := isBody_lines visible untabbed options.tabWidth
  obtain ⟨value, reported⟩ := readBlocks_arrange_body lenient parsed untitled
  have below := dropEndWhile_linesFrom_indented untabbed options.tabWidth 1 columns
  generalize dropEndWhile Line.isBlank (lines options.tabWidth (c :: text)) = found at *
  have lower := isBody_relocate whole (· + 1)
  have outlined : outline (lines options.tabWidth
      (String.ofList (term ++ '\n' :: indented columns (c :: text))).toList) =
        [Block.definitionList [.definition ⟨0, term, 1⟩
          ((arrange found).map (Block.relocate (· + 1)))]].map .block := by
    have named : (⟨0, term, 1⟩ : Line).isBlank = false := List.isEmpty_eq_false_iff.mpr filled
    rw [String.toList_ofList]
    calc
      outline (lines options.tabWidth (term ++ '\n' :: indented columns (c :: text)))
      _ = outline (⟨0, term, 1⟩ :: linesFrom options.tabWidth 2 (indented columns (c :: text))) := by
        rw [lines_eq_linesFrom, linesFrom_of_line (notMem_of_letters letters (by decide)),
          ofText_shown_of_letters letters filled]
      _ = outline (⟨0, term, 1⟩ ::
            (found.map (Line.relocate (· + 1))).map (Line.shift columns)) := by
        rw [← outline_dropEndWhile, dropEndWhile_cons named, below]
      _ = [.block (.definitionList
            [.definition ⟨0, term, 1⟩ (arrange (found.map (Line.relocate (· + 1))))])] :=
        outline_defined lower inset rfl named letters
      _ = _ := by
        rw [arrange_relocate]
        rfl
  obtain ⟨tree, same⟩ := parse_of_blocks lenient outlined
  rw [tree, same, ← reported, ← value]
  simp only [readBlocks, readBlock, readText_of_letters letters filled, readBlocks_relocate,
    Reading.value_relocate, Reading.problems_relocate, Reading.value_bind, Reading.value_pure,
    Reading.problems_bind, Reading.problems_pure, List.append_nil, List.nil_append, and_self]

end body

/-- The wire node with these children and no other field. -/
def wireParent (kind : String) (children : List Wire) : Wire := { kind, children := some children }

/-- The type of a list, by its marker. -/
def listName : Marker → String
  | .bullet _ => "bullet_list"
  | .enumerator => "enumerated_list"

/-- The same trees in their wire form, with the labels of items and all names of types written out. -/
theorem wire_of_nested_text {options : ReadOptions} (lenient : options.strict = false) {c : Char}
    {text : List Char} (visible : isBlank c = false) (untabbed : '\t' ∉ c :: text)
    {nodes : List Node}
    (parsed : parse options (.ofList (c :: text)) = .ok (.composite .document nodes))
    (untitled : ∀ node ∈ nodes, node.title? = none) :
    (∀ columns, 0 < columns →
      (parse options (.ofList (indented columns (c :: text)))).map Wire.ofNode =
        .ok (wireParent "document" [wireParent "block_quote" (Wire.ofNodes nodes)])) ∧
    (∀ (marker : Marker) (label : List Char), IsLabel marker label →
      (parse options (.ofList (hung label (c :: text)))).map Wire.ofNode =
        .ok (wireParent "document"
          [wireParent (listName marker) [wireParent "list_item" (Wire.ofNodes nodes)]])) ∧
    ∀ (term : List Char) (columns : Nat), term ≠ [] → (∀ c ∈ term, c.isAlpha) → 0 < columns →
      (parse options (.ofList (term ++ '\n' :: indented columns (c :: text)))).map Wire.ofNode =
        .ok (wireParent "document" [wireParent "definition_list" [wireParent "definition_list_item"
          [wireParent "term" [{ kind := "text", value := some (.ofList term) }],
            wireParent "definition" (Wire.ofNodes nodes)]]]) := by
  refine ⟨?_, ?_, ?_⟩
  · intro columns inset
    rw [(parse_indented lenient visible untabbed parsed untitled inset).1]
    rfl
  · intro marker label sound
    rw [(parse_hung lenient visible untabbed parsed untitled (isLabel_iff.mpr sound)).1]
    cases marker <;> rfl
  · intro term columns filled letters inset
    rw [(parse_defined lenient visible untabbed parsed untitled filled letters inset).1]
    rfl

end RstPress.Document
