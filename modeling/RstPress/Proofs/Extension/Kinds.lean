import RstPress.Proofs.Extension.Elements
import RstPress.Proofs.Headless
import RstPress.Proofs.Title

/-!
Two texts without titles and with a blank line between them, where nodes of different kinds meet. The
nodes of the one are followed by those of the other, unless the text above ends in a list that takes
the line below for an item of its own: an enumeration takes each line with an enumerator, a definition
list each line with an indented line below it, whether or not such a list would begin there.
-/

namespace RstPress.Layout
open Text Source

/-- The part would take the line below for an item of its own. -/
def Part.Takes (below : List Line) : Part → Prop
  | .block (.list .enumerator _) => below.head?.any fun line => (enumeratorWidth? line.text).isSome
  | .block (.definitionList _) => startsDefinition below
  | _ => False

/-- The last part of the text above takes the first line of the text below. -/
def Swallows (above below : List Line) : Prop :=
  ∃ part, (outline above).getLast? = some part ∧ part.Takes (skipBlank below)

theorem takes_relocate (move : Nat → Nat) (below : List Line) (part : Part) :
    part.Takes (below.map (Line.relocate move)) ↔ part.Takes below := by
  unfold Part.Takes
  split
  · cases below <;> rfl
  · rw [startsDefinition_relocate]
  · rfl

/-- The first block of a text without headings is the piece on its first line. -/
theorem exists_first_of_blocks {lines rest : List Line} {line : Line} {blocks : List Block}
    (outlined : outline lines = blocks.map .block) (found : skipBlank lines = line :: rest) :
    ∃ others, blocks = (Piece.first line rest).1.block :: others := by
  have filled := isBlank_of_skipBlank_eq_cons found
  rw [outline_eq_outline_skipBlank, found] at outlined
  cases heading : headingAt? line rest with
  | some title =>
    rw [outline_of_heading filled heading] at outlined
    cases blocks <;> cases outlined
  | none =>
    rw [outline_of_piece filled heading] at outlined
    obtain ⟨first, others, rfl, here, _⟩ := List.map_eq_cons_iff.mp outlined.symm
    rw [Part.block.injEq] at here
    exact ⟨others, by rw [here]⟩

/-- A block goes on with flush text exactly if it takes its first line, unless bullets meet. -/
theorem goesOn_iff_takes {more : List Line} (bounded : insetBlock more = []) {block : Block}
    (noBullet : ∀ mark items, block = .list (.bullet mark) items →
      (listItems (.bullet mark) (skipBlank more)).1 = []) :
    block.GoesOn more ↔ (Part.block block).Takes (skipBlank more) := by
  cases block with
  | quote | paragraph => simp [Block.GoesOn, Part.Takes, bounded]
  | stray | transition | item | lineBlock | definition => simp [Block.GoesOn, Part.Takes]
  | definitionList => simp [Block.GoesOn, Part.Takes, bounded]
  | list marker items =>
    cases marker with
    | bullet mark => simp [Block.GoesOn, Part.Takes, bounded, noBullet mark items rfl]
    | enumerator =>
      simp only [Block.GoesOn, bounded, ne_eq, not_true_eq_false, false_or]
      cases found : skipBlank more with
      | nil => simp [Part.Takes]
      | cons line rest =>
        have flush := insetBlock_eq_nil_iff.mp bounded line rest found
        rw [← ne_eq, listItems_fst_ne_nil_iff, Marker.at?, if_pos flush, width?_enumerator]
        rfl

end RstPress.Layout

namespace RstPress.Document
open Text Source Layout RstPress.Tree

theorem value_readBlock_list (marker : Marker) (items : List Block) :
    (readBlock (.list marker items) : Reading (List Node)).value =
      [.composite (listKind marker) (readBlocks items : Reading (List Node)).value] := by
  simp only [readBlock, Reading.value_bind, Reading.value_pure]

theorem value_readBlock_definitionList (items : List Block) :
    (readBlock (.definitionList items) : Reading (List Node)).value =
      [.composite .definitionList (readBlocks items : Reading (List Node)).value] := by
  simp only [readBlock, Reading.value_bind, Reading.value_pure]

theorem value_readBlocks_append (front back : List Block) :
    (readBlocks (front ++ back) : Reading (List Node)).value =
      (readBlocks front : Reading (List Node)).value ++
        (readBlocks back : Reading (List Node)).value := by
  simp only [readBlocks_append, Reading.value_bind, Reading.value_pure]

theorem length_readBlocks_items (bodies : List (List Line)) :
    (readBlocks (bodies.map fun body => .item (arrange body)) : Reading (List Node)).value.length =
      bodies.length := by
  induction bodies with
  | nil => rfl
  | cons body bodies ih =>
    simp only [List.map_cons, readBlocks, readBlock, Reading.value_bind, Reading.value_pure,
      List.singleton_append, List.length_cons, ih]

theorem length_readBlocks_definitions (items : List (Line × List Line)) :
    (readBlocks (items.map fun item => .definition item.1 (arrange item.2)) :
      Reading (List Node)).value.length = items.length := by
  induction items with
  | nil => rfl
  | cons item items ih =>
    simp only [List.map_cons, readBlocks, readBlock, Reading.value_bind, Reading.value_pure,
      List.singleton_append, List.length_cons, ih]

/-- More items make another list. -/
theorem composite_append_ne {kind : Kind} {items : List Block} {more : List Block}
    (filled : (readBlocks more : Reading (List Node)).value.length ≠ 0) :
    Node.composite kind (readBlocks items : Reading (List Node)).value ≠
      .composite kind (readBlocks (items ++ more) : Reading (List Node)).value := by
  intro same
  rw [Node.composite.injEq, value_readBlocks_append, List.self_eq_append_right] at same
  exact filled (List.length_eq_zero_iff.mpr same.2)

/-- A list that takes the line below becomes another node. -/
theorem exists_longer_of_takes {lines more : List Line} {block : Block}
    (separate : startsBlank more) (bounded : insetBlock more = [])
    (last : (outline lines).getLast? = some (.block block))
    (takes : (Part.block block).Takes (skipBlank more)) :
    ∃ front longer others short long, outline lines = front ++ [.block block] ∧
      outline (lines ++ more) = front ++ .block longer :: others ∧
      (readBlock block : Reading (List Node)).value = [short] ∧
      (readBlock longer : Reading (List Node)).value = [long] ∧ short ≠ long := by
  cases block with
  | list marker items =>
    cases marker with
    | bullet => exact takes.elim
    | enumerator =>
      obtain ⟨front, same, longer⟩ := outline_append_of_list separate bounded last
      refine ⟨front, _, _, _, _, same, longer, value_readBlock_list _ _,
        value_readBlock_list _ _, composite_append_ne ?_⟩
      rw [length_readBlocks_items]
      cases found : skipBlank more with
      | nil => simp [Part.Takes, found] at takes
      | cons line rest =>
        have flush := insetBlock_eq_nil_iff.mp bounded line rest found
        have marked : (Marker.enumerator.at? line).isSome := by
          rw [Marker.at?, if_pos flush, width?_enumerator]
          simpa [Part.Takes, found] using takes
        exact mt List.length_eq_zero_iff.mp (listItems_ne_nil marked)
  | definitionList items =>
    obtain ⟨front, same, longer⟩ := outline_append_of_definitionList separate bounded last
    refine ⟨front, _, _, _, _, same, longer, value_readBlock_definitionList _,
      value_readBlock_definitionList _, composite_append_ne ?_⟩
    rw [length_readBlocks_definitions]
    exact mt List.length_eq_zero_iff.mp (definitions_ne_nil takes)
  | stray | quote | transition | item | lineBlock | definition | paragraph => exact takes.elim

theorem head?_readBlocks_list (marker : Marker) (items others : List Block) :
    (readBlocks (.list marker items :: others) : Reading (List Node)).value.head? =
      some (.composite (listKind marker) (readBlocks items : Reading (List Node)).value) := by
  simp only [readBlocks, Reading.value_bind, Reading.value_pure, value_readBlock_list,
    List.singleton_append, List.head?_cons]

theorem getLast?_readBlocks_list (front : List Block) (marker : Marker) (items : List Block) :
    (readBlocks (front ++ [.list marker items]) : Reading (List Node)).value.getLast? =
      some (.composite (listKind marker) (readBlocks items : Reading (List Node)).value) := by
  simp only [value_readBlocks_append, readBlocks, Reading.value_bind, Reading.value_pure,
    value_readBlock_list, List.append_nil, List.getLast?_append, List.getLast?_singleton,
    Option.some_or]

/-- If a list of bullets can go on, the node below is a list of its kind. -/
theorem exists_same_kind_of_bullets {mark : Char} {items blocks others : List Block}
    {lines rest : List Line} {line : Line}
    (ends : (blocks.map Part.block).getLast? = some (.block (.list (.bullet mark) items)))
    (outlined : outline lines = others.map .block) (found : skipBlank lines = line :: rest)
    (marked : ((Marker.bullet mark).at? line).isSome) :
    ∃ last ∈ (readBlocks blocks : Reading (List Node)).value.getLast?,
      ∃ next ∈ (readBlocks others : Reading (List Node)).value.head?,
        last.typeName = next.typeName := by
  obtain ⟨more, begins⟩ := exists_first_of_blocks outlined found
  rw [Piece.first, construct_of_bullet rest marked] at begins
  rw [List.getLast?_map, Option.map_eq_some_iff] at ends
  obtain ⟨block, ends, same⟩ := ends
  rw [Part.block.injEq] at same
  obtain ⟨front, rfl⟩ : ∃ front, blocks = front ++ [block] :=
    ⟨_, (List.dropLast_append_getLast? block ends).symm⟩
  rw [begins, same]
  simp only [Construct.take, Prod.map_fst, Piece.block_list]
  exact ⟨_, getLast?_readBlocks_list front _ items, _, head?_readBlocks_list _ _ more, rfl⟩

section lines
variable {above below more : List Line} {blocks others : List Block} {move : Nat → Nat}
  (separate : startsBlank more)
  (placed : skipBlank more = (skipBlank below).map (Line.relocate move))
  (bounded : insetBlock more = []) (outlined : outline above = blocks.map .block)
include separate placed bounded outlined

/-- If nothing is taken, the nodes below follow those above. -/
theorem elementsOf_of_not_swallows (following : outline below = others.map .block)
    (differ : ∀ last ∈ (readBlocks blocks : Reading (List Node)).value.getLast?,
      ∀ next ∈ (readBlocks others : Reading (List Node)).value.head?,
        last.typeName ≠ next.typeName)
    (free : ¬Swallows above below) :
    elementsOf [] 0 (outline (above ++ more)) =
      (readBlocks blocks : Reading (List Node)).value.map .body ++
        (readBlocks others : Reading (List Node)).value.map .body := by
  have stays (block : Block) (ends : (outline above).getLast? = some (.block block)) :
      ¬block.GoesOn more := by
    rw [goesOn_iff_takes bounded, placed, takes_relocate]
    · exact fun takes => free ⟨_, ends, takes⟩
    · rintro mark items rfl
      by_contra filled
      cases found : skipBlank below with
      | nil => exact filled (by rw [placed, found, List.map_nil, listItems_nil])
      | cons line rest =>
        rw [← ne_eq, placed, found, List.map_cons, listItems_fst_ne_nil_iff, at?_relocate] at filled
        rw [outlined] at ends
        obtain ⟨last, isLast, next, isNext, same⟩ :=
          exists_same_kind_of_bullets ends following found filled
        exact differ last isLast next isNext same
  have behind : outline more = (outline below).map (Part.relocate move) := by
    rw [outline_eq_outline_skipBlank, placed, outline_relocate, ← outline_eq_outline_skipBlank]
  obtain ⟨parts, alike, whole⟩ := outline_append_of_stays separate stays
  rw [whole, elementsOf_append, ← elementsOf_of_alike alike, outlined, behind, elementsOf_relocate,
    following, elementsOf_blocks, elementsOf_blocks]

/-- If a line is taken, the last node above is another one. -/
theorem elementsOf_ne_of_swallows (swallows : Swallows above below) :
    elementsOf [] 0 (outline (above ++ more)) ≠
      (readBlocks blocks : Reading (List Node)).value.map .body ++
        (readBlocks others : Reading (List Node)).value.map .body := by
  obtain ⟨part, ends, takes⟩ := swallows
  rw [← takes_relocate move, ← placed] at takes
  cases part with
  | heading => exact takes.elim
  | block block =>
    obtain ⟨front, longer, rest, short, long, same, found, one, other, differ⟩ :=
      exists_longer_of_takes separate bounded ends takes
    intro equal
    rw [← elementsOf_blocks [] 0 blocks, ← outlined, same, found, elementsOf_append,
      elementsOf_append, List.append_assoc] at equal
    have tails := List.append_cancel_left equal
    rw [elementsOf_block, elementsOf_block, one, other] at tails
    simp only [List.map_cons, List.map_nil, List.cons_append, List.cons.injEq,
      Element.body.injEq] at tails
    exact differ tails.1.symm

end lines

/-- The elements of the text below follow those of the text above exactly if nothing is taken. -/
theorem elementsOf_stacked_iff {gap : List Char} (blank : ∀ c ∈ gap, isBlank c) {tabWidth : Nat}
    {above below : List Char} {blocks others : List Block}
    (outlined : outline (lines tabWidth above) = blocks.map .block)
    (following : outline (lines tabWidth below) = others.map .block)
    (flush : ∀ line rest, skipBlank (lines tabWidth below) = line :: rest → line.indent = 0)
    (differ : ∀ last ∈ (readBlocks blocks : Reading (List Node)).value.getLast?,
      ∀ next ∈ (readBlocks others : Reading (List Node)).value.head?,
        last.typeName ≠ next.typeName) :
    elementsOf [] 0 (outline (lines tabWidth (stacked above gap below))) =
        (readBlocks blocks : Reading (List Node)).value.map .body ++
          (readBlocks others : Reading (List Node)).value.map .body ↔
      ¬Swallows (lines tabWidth above) (lines tabWidth below) := by
  obtain ⟨more, move, separate, placed, same⟩ := exists_lines_stacked blank tabWidth above below
  have bounded : insetBlock more = [] := by
    rw [insetBlock_eq_nil_iff]
    intro shown rest found
    rw [placed] at found
    obtain ⟨line, lines, present, rfl, _⟩ := List.map_eq_cons_iff.mp found
    exact flush line lines present
  rw [same]
  constructor
  · intro found swallows
    exact elementsOf_ne_of_swallows separate placed bounded outlined swallows found
  · exact elementsOf_of_not_swallows separate placed bounded outlined following differ

/-- Where two kinds meet at a blank line, the nodes of the text below follow those of the text above if
and only if the text above does not end in a list that takes the line below for an item. -/
theorem parse_stacked_iff_not_swallows {options : ReadOptions} (lenient : options.strict = false)
    {above below gap : List Char} (blank : ∀ c ∈ gap, isBlank c) {before after : List Node}
    (first : parse options (String.ofList above) = .ok (.composite .document before))
    (second : parse options (String.ofList below) = .ok (.composite .document after))
    (untitled : ∀ node ∈ before ++ after, node.title? = none)
    (flush : ∀ line rest, skipBlank (lines options.tabWidth below) = line :: rest → line.indent = 0)
    {last next : Node} (ends : before.getLast? = some last) (begins : after.head? = some next)
    (differ : last.typeName ≠ next.typeName) :
    parse options (String.ofList (stacked above gap below)) =
        .ok (.composite .document (before ++ after)) ↔
      ¬Swallows (lines options.tabWidth above) (lines options.tabWidth below) := by
  obtain ⟨blocks, outlined, rfl, _⟩ := exists_blocks_of_untitled lenient first
    fun node member => untitled node (List.mem_append_left _ member)
  obtain ⟨others, following, rfl, _⟩ := exists_blocks_of_untitled lenient second
    fun node member => untitled node (List.mem_append_right _ member)
  rw [String.toList_ofList] at outlined following
  rw [parse_eq_ok_iff_of_untitled lenient untitled, String.toList_ofList, List.map_append]
  apply elementsOf_stacked_iff blank outlined following flush
  rw [ends, begins]
  rintro _ ⟨⟩ _ ⟨⟩
  exact differ

theorem parse_of_one_item :
    ∃ items, parse {} (String.ofList "1. one".toList) =
      .ok (.composite .document [.composite .enumeratedList items]) := by
  obtain ⟨items, one⟩ := outline_of_one_item
  have outlined : outline (lines 8 (String.ofList "1. one".toList).toList) =
      [Block.list .enumerator items].map .block := by rw [String.toList_ofList, one]; rfl
  have lenient : ({} : ReadOptions).strict = false := rfl
  have parsed := (parse_of_blocks lenient outlined).1
  simp only [readBlocks, Reading.value_bind, Reading.value_pure, value_readBlock_list,
    List.append_nil] at parsed
  exact ⟨_, parsed⟩

/-- A paragraph below an enumeration stands on its own if it does not begin with an enumerator. -/
theorem parse_stacked_iff_not_swallows_paragraph :
    ∃ items words,
      parse {} (String.ofList "1. one".toList) =
        .ok (.composite .document [.composite .enumeratedList items]) ∧
      parse {} (String.ofList "Text".toList) =
        .ok (.composite .document [.composite .paragraph words]) ∧
      parse {} (String.ofList (stacked "1. one".toList [] "Text".toList)) =
        .ok (.composite .document [.composite .enumeratedList items, .composite .paragraph words]) := by
  obtain ⟨items, first⟩ := parse_of_one_item
  have only : lines 8 "Text".toList = [⟨0, "Text".toList, 1⟩] := by decide
  have taken : paragraph ⟨0, "Text".toList, 1⟩ [] = (⟨1, "Text\n".toList, none, .nothing⟩, []) := by
    decide
  obtain ⟨words, second⟩ := parse_of_paragraph only (by decide) (by decide) (by decide) taken rfl
  have lenient : ({} : ReadOptions).strict = false := rfl
  refine ⟨items, words, first, second, ?_⟩
  refine (parse_stacked_iff_not_swallows lenient (List.forall_mem_nil _) first second ?_ ?_ rfl rfl ?_).mpr ?_
  · simp [Node.title?]
  · intro line rest found
    rw [only] at found
    cases found
    rfl
  · simp [Node.typeName]
  · rintro ⟨part, ends, takes⟩
    obtain ⟨blocks, one⟩ := outline_of_one_item
    rw [one] at ends
    cases ends
    rw [only] at takes
    have marked : (enumeratorWidth? "Text".toList).isSome := takes
    exact absurd marked (by decide)

/-- An enumeration takes the first line of a paragraph that begins with an enumerator. -/
theorem numbered_paragraph_is_swallowed :
    ∃ items words,
      parse {} "1. one" = .ok (.composite .document [.composite .enumeratedList items]) ∧
      parse {} "2. Two\ncontinues\n" =
        .ok (.composite .document [.composite .paragraph words]) ∧
      parse {} "1. one\n\n2. Two\ncontinues\n" ≠
        .ok (.composite .document [.composite .enumeratedList items, .composite .paragraph words]) := by
  obtain ⟨items, first⟩ := parse_of_one_item
  have two : lines 8 "2. Two\ncontinues\n".toList =
      [⟨0, "2. Two".toList, 1⟩, ⟨0, "continues".toList, 2⟩] := by decide
  have taken : paragraph ⟨0, "2. Two".toList, 1⟩ [⟨0, "continues".toList, 2⟩] =
      (⟨1, "2. Two\ncontinues\n".toList, none, .nothing⟩, []) := by decide
  obtain ⟨words, second⟩ := parse_of_paragraph two (by decide) (by decide) (by decide) taken rfl
  refine ⟨items, words, first, second, ?_⟩
  have lenient : ({} : ReadOptions).strict = false := rfl
  obtain ⟨blocks, outlined, value, _⟩ :=
    exists_blocks_of_untitled lenient first (by simp [Node.title?])
  obtain ⟨others, following, meaning, _⟩ :=
    exists_blocks_of_untitled lenient second (by simp [Node.title?])
  have whole : "1. one\n\n2. Two\ncontinues\n".toList =
      stacked "1. one".toList [] "2. Two\ncontinues\n".toList := by decide
  have swallows : Swallows (lines 8 "1. one".toList) (lines 8 "2. Two\ncontinues\n".toList) := by
    obtain ⟨found, one⟩ := outline_of_one_item
    refine ⟨.block (.list .enumerator found), by rw [one]; rfl, ?_⟩
    rw [two]
    show (enumeratorWidth? "2. Two".toList).isSome
    decide
  have flush : ∀ line rest, skipBlank (lines 8 "2. Two\ncontinues\n".toList) = line :: rest →
      line.indent = 0 := by
    rw [two]
    rintro _ _ ⟨⟩
    rfl
  have differ : ∀ last ∈ (readBlocks blocks : Reading (List Node)).value.getLast?,
      ∀ next ∈ (readBlocks others : Reading (List Node)).value.head?,
        last.typeName ≠ next.typeName := by
    rw [value, meaning]
    rintro _ ⟨⟩ _ ⟨⟩
    simp [Node.typeName]
  rw [String.toList_ofList] at outlined following
  have apart := elementsOf_stacked_iff (List.forall_mem_nil _) outlined following flush differ
  rw [value, meaning, ← whole] at apart
  rw [ne_eq, parse_eq_ok_iff_of_untitled lenient (by simp [Node.title?])]
  exact fun found => apart.mp found swallows

end RstPress.Document
